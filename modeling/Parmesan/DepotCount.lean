import Parmesan.SeedLink

/-!
# The counter of picks

Each `get_entry` adds one or two to the first number of a priority, and the
largest number of that type means done. Beside the queue the model records
whether an addition has left the type, and the keys whose entry `add_entries`
or `update_entry` has given the done priority.
-/

set_option autoImplicit false

namespace Parmesan.DepotCount
open Parmesan.CondModel Parmesan.DepotModel Parmesan.DepotRun Parmesan.Execution
open Parmesan.SeedLink (takesOver)

structure Ledger where
  queue : Queue
  overflowed : Bool
  retired : Key → Bool

def newLedger : Ledger := ⟨∅, false, fun _ => false⟩

inductive Op where
  | add (conds : List (CondStmt × ℕ))
  | get (key : Key)
  | update (cond : CondStmt) (distance : ℕ)

def incBy (op : ℕ) : ℕ := if op = COND_AFL_OP then 2 else 1

def addOne (s : Ledger) (c : CondStmt × ℕ) : Ledger :=
  let r := addEntry s.queue c.1 c.2
  { s with
    queue := r.1
    retired := if r.2 then Function.update s.retired (keyOf c.1) true
      else if takesOver s.queue c.1 then Function.update s.retired (keyOf c.1) false
      else s.retired }

def next (s : Ledger) : Op → Option Ledger
  | .add conds => some (conds.foldl addOne s)
  | .get key =>
    (getEntry s.queue key).map fun r =>
      { s with
        queue := r.2
        overflowed := s.overflowed ||
          !isDonePriority r.1.2 && decide (2^16 ≤ r.1.2.level+incBy r.1.1.base.op) }
  | .update cond distance =>
    some { s with
      queue := (updateEntry s.queue cond distance).1
      retired := if isDiscarded cond && (s.queue.lookup (keyOf cond)).isSome
        then Function.update s.retired (keyOf cond) true else s.retired }

/-- No addition has overflowed, every done priority was given to a condition
that is done or discarded, and a done priority is only returned when all are. -/
structure Sound (s : Ledger) : Prop where
  exact : s.overflowed = false
  given : ∀ key x, s.queue.lookup key = some x → isDonePriority x.2 = true →
    s.retired key = true ∧ isDiscarded x.1 = true
  last : ∀ key x q, getEntry s.queue key = some (x, q) → isDonePriority x.2 = true →
    ∀ key' y, s.queue.lookup key' = some y → isDiscarded y.1 = true

/-- A pick leaves room below the done priority, and no copy that is not
discarded is written over an entry with the done priority. -/
def Counted (s : Ledger) : Op → Prop
  | .add _ => True
  | .get key => ∀ x ∈ s.queue.lookup key,
      isDonePriority x.2 = true ∨ x.2.level+incBy x.1.base.op < DONE_PRIORITY
  | .update cond _ => ∀ v ∈ s.queue.lookup (keyOf cond),
      isDonePriority v.2 = true → isDiscarded cond = true

instance (s : Ledger) : (op : Op) → Decidable (Counted s op)
  | .add _ => instDecidableTrue
  | .get key => inferInstanceAs (Decidable (∀ x ∈ s.queue.lookup key, _))
  | .update cond _ => inferInstanceAs (Decidable (∀ x ∈ s.queue.lookup (keyOf cond), _))

structure Kept (s : Ledger) : Prop where
  bounded : ∀ key x, s.queue.lookup key = some x → x.2.level < 2^16
  held : ∀ key, s.retired key = true →
    ∃ x, s.queue.lookup key = some x ∧ isDonePriority x.2 = true

variable {s t : Ledger}

theorem lookup_insert_cases {q : Queue} {key key' : Key} {x y : CondStmt × QPriority}
    (h : (q.insert key x).lookup key' = some y) :
    key' = key ∧ y = x ∨ key' ≠ key ∧ q.lookup key' = some y := by
  by_cases hkey : key' = key
  · subst hkey
    rw [AList.lookup_insert] at h
    exact Or.inl ⟨rfl, (Option.some.inj h).symm⟩
  · rw [AList.lookup_insert_ne hkey] at h
    exact Or.inr ⟨hkey, h⟩

def put (s : Ledger) (key : Key) (x : CondStmt × QPriority) (r : Bool) : Ledger :=
  { s with queue := s.queue.insert key x, retired := Function.update s.retired key r }

theorem put_kept (h : Kept s) {key : Key} {x : CondStmt × QPriority} {r : Bool}
    (hx : x.2.level < 2^16) (hr : r = true → isDonePriority x.2 = true) :
    Kept (put s key x r) := by
  constructor
  · intro key' y hy
    rcases lookup_insert_cases hy with ⟨-, rfl⟩ | ⟨-, hy⟩
    · exact hx
    · exact h.bounded key' y hy
  · intro key' hret
    by_cases hkey : key' = key
    · subst hkey
      have hr' : r = true := by simpa [put] using hret
      exact ⟨x, AList.lookup_insert s.queue, hr hr'⟩
    · have hret' : s.retired key' = true := by simpa [put, hkey] using hret
      obtain ⟨y, hy, hdone⟩ := h.held key' hret'
      exact ⟨y, (AList.lookup_insert_ne hkey).trans hy, hdone⟩

def Given (s : Ledger) : Prop := ∀ key x, s.queue.lookup key = some x →
  isDonePriority x.2 = true → s.retired key = true ∧ isDiscarded x.1 = true

theorem put_given (h : Given s) {key : Key} {x : CondStmt × QPriority} {r : Bool}
    (hx : isDonePriority x.2 = true → r = true ∧ isDiscarded x.1 = true) :
    Given (put s key x r) := by
  intro key' y hy hdone
  rcases lookup_insert_cases hy with ⟨rfl, rfl⟩ | ⟨hkey, hy⟩
  · simpa [put] using hx hdone
  · simpa [put, hkey] using h key' y hy hdone

theorem put_self (s : Ledger) (key : Key) (x : CondStmt × QPriority) :
    put s key x (s.retired key) = { s with queue := s.queue.insert key x } := by
  rw [put, Function.update_eq_self]

/-- The state after one addition: nothing changed, the entry was marked done, or
it is new and starts at the bottom. -/
theorem add_one_cases (s : Ledger) (c : CondStmt × ℕ) :
    addOne s c = s ∨
      (∃ x, addOne s c = put s (keyOf c.1) x true ∧ isDonePriority x.2 = true ∧
        isDiscarded x.1 = true ∧ x.2.level < 2^16) ∨
      ∃ x, addOne s c = put s (keyOf c.1) x false ∧ isDonePriority x.2 = false ∧
        x.2.level < 2^16 := by
  have hinit : ∀ op distance, isDonePriority (initDistance op distance) = false ∧
      (initDistance op distance).level < 2^16 := by
    intro op distance
    by_cases hop : op = COND_AFL_OP <;>
      simp [isDonePriority, initDistance, hop, AFL_INIT_PRIORITY, INIT_PRIORITY, DONE_PRIORITY]
  unfold addOne addEntry takesOver
  cases hdes : c.1.isDesirable with
  | false => exact Or.inl rfl
  | true =>
    cases hv : s.queue.lookup (keyOf c.1) with
    | none =>
      obtain ⟨hfirst, hlow⟩ := hinit c.1.base.op c.2
      exact Or.inr (Or.inr ⟨(c.1, initDistance c.1.base.op c.2), rfl, hfirst, hlow⟩)
    | some v =>
      by_cases hdone : isDone v.1 = true
      · exact Or.inl (by simp [hdone])
      · by_cases hcond : v.1.base.condition = c.1.base.condition
        · by_cases hspeed : c.1.speed < v.1.speed
          · obtain ⟨hfirst, hlow⟩ := hinit v.1.base.op c.2
            refine Or.inr (Or.inr ⟨(c.1, initDistance v.1.base.op c.2), ?_, hfirst, hlow⟩)
            simp [hdone, hcond, hspeed, put]
          · exact Or.inl (by simp [hdone, hcond, hspeed])
        · refine Or.inr (Or.inl ⟨(markAsDone v.1, donePriority), ?_, rfl, rfl, ?_⟩)
          · simp [hdone, hcond, put]
          · simp [donePriority, DONE_PRIORITY]

theorem add_one_kept (c : CondStmt × ℕ) (h : Kept s) : Kept (addOne s c) := by
  obtain heq | ⟨x, heq, hdone, -, hlow⟩ | ⟨x, heq, -, hlow⟩ := add_one_cases s c
  · rw [heq]
    exact h
  · rw [heq]
    exact put_kept h hlow (fun _ => hdone)
  · rw [heq]
    exact put_kept h hlow (by simp)

theorem add_one_given (c : CondStmt × ℕ) (h : Given s) : Given (addOne s c) := by
  obtain heq | ⟨x, heq, -, hdisc, -⟩ | ⟨x, heq, hopen, -⟩ := add_one_cases s c
  · rw [heq]
    exact h
  · rw [heq]
    exact put_given h (fun _ => ⟨rfl, hdisc⟩)
  · rw [heq]
    refine put_given h ?_
    rw [hopen]
    simp

theorem add_all_induction {P : Ledger → Prop} (hone : ∀ s c, P s → P (addOne s c))
    (conds : List (CondStmt × ℕ)) (s : Ledger) (h : P s) : P (conds.foldl addOne s) := by
  induction conds generalizing s with
  | nil => exact h
  | cons c conds ih => exact ih _ (hone s c h)

theorem get_cases {key : Key} (h : next s (.get key) = some t) :
    ∃ x, s.queue.lookup key = some x ∧
      (isDonePriority x.2 = true ∧ t = s ∨ isDonePriority x.2 = false ∧
        t = { put s key (x.1, inc x.2 x.1.base.op) (s.retired key) with
          overflowed := s.overflowed || decide (2^16 ≤ x.2.level+incBy x.1.base.op) }) := by
  obtain ⟨⟨x, q⟩, hget, rfl⟩ := Option.map_eq_some_iff.mp h
  obtain ⟨hx, -, rfl⟩ := get_entry_cases hget
  refine ⟨x, hx, ?_⟩
  cases hdone : isDonePriority x.2 with
  | true => exact Or.inl ⟨rfl, by simp⟩
  | false =>
    refine Or.inr ⟨rfl, ?_⟩
    rw [put_self]
    simp

theorem update_cases {cond : CondStmt} {distance : ℕ} (h : next s (.update cond distance) = some t) :
    s.queue.lookup (keyOf cond) = none ∧ t = s ∨
      ∃ v, s.queue.lookup (keyOf cond) = some v ∧
        (isDiscarded cond = true ∧ t = put s (keyOf cond) (cond, donePriority) true ∨
          isDiscarded cond = false ∧
            t = put s (keyOf cond) (cond, newDistance v.2 distance) (s.retired (keyOf cond))) := by
  obtain rfl := Option.some.inj h
  unfold updateEntry
  cases hv : s.queue.lookup (keyOf cond) with
  | none => exact Or.inl ⟨rfl, by simp⟩
  | some v =>
    refine Or.inr ⟨v, rfl, ?_⟩
    cases hdisc : isDiscarded cond with
    | true => exact Or.inl ⟨rfl, rfl⟩
    | false =>
      refine Or.inr ⟨rfl, ?_⟩
      rw [put_self]
      rfl

theorem get_entry_first {q q' : Queue} {key : Key} {x : CondStmt × QPriority}
    (h : getEntry q key = some (x, q')) {key' : Key} {y : CondStmt × QPriority}
    (hy : q.lookup key' = some y) : First x.2 y.2 := by
  exact (get_entry_cases h).2.1 ⟨key', y⟩ (AList.mem_lookup_iff.mp hy)

theorem is_done_priority_iff (p : QPriority) : isDonePriority p = true ↔ p.level = 2^16-1 :=
  decide_eq_true_iff

theorem sound_iff (hk : Kept s) : Sound s ↔ s.overflowed = false ∧ Given s := by
  constructor
  · intro h
    exact ⟨h.exact, h.given⟩
  · rintro ⟨hex, hgiven⟩
    refine ⟨hex, hgiven, ?_⟩
    intro key x q hget hdone key' y hy
    have hfirst := get_entry_first hget hy
    have hlow := hk.bounded key' y hy
    have hlast : isDonePriority y.2 = true := by
      rw [is_done_priority_iff] at hdone ⊢
      rcases hfirst with h | ⟨h, -⟩ <;> omega
    exact (hgiven key' y hy hlast).2

theorem inc_level (p : QPriority) (op : ℕ) :
    (inc p op).level = (p.level+incBy op) % 2^16 := by
  unfold inc incBy
  split_ifs <;> rfl

theorem retired_priority (hk : Kept s) {key : Key} {x : CondStmt × QPriority}
    (hx : s.queue.lookup key = some x) (hr : s.retired key = true) :
    isDonePriority x.2 = true := by
  obtain ⟨y, hy, hdone⟩ := hk.held key hr
  obtain rfl := Option.some.inj (hx.symm.trans hy)
  exact hdone

theorem next_kept {op : Op} (hk : Kept s) (h : next s op = some t) : Kept t := by
  cases op with
  | add conds =>
    obtain rfl := Option.some.inj h
    exact add_all_induction (fun _ c => add_one_kept c) conds s hk
  | get key =>
    obtain ⟨x, hx, ⟨-, rfl⟩ | ⟨hopen, rfl⟩⟩ := get_cases h
    · exact hk
    · have hput : Kept (put s key (x.1, inc x.2 x.1.base.op) (s.retired key)) := by
        refine put_kept hk ?_ ?_
        · rw [inc_level]
          omega
        · intro hr
          rw [retired_priority hk hx hr] at hopen
          cases hopen
      exact ⟨hput.bounded, hput.held⟩
  | update cond distance =>
    obtain ⟨-, rfl⟩ | ⟨v, hv, ⟨-, rfl⟩ | ⟨-, rfl⟩⟩ := update_cases h
    · exact hk
    · exact put_kept hk (by simp [donePriority, DONE_PRIORITY]) (fun _ => rfl)
    · have hsame : s.retired (keyOf cond) = true → isDonePriority v.2 = true :=
        retired_priority hk hv
      exact put_kept hk (hk.bounded _ v hv) hsame

theorem next_sound {op : Op} (hk : Kept s) (hs : Sound s) (h : next s op = some t) :
    Sound t ↔ Counted s op := by
  rw [sound_iff (next_kept hk h)]
  cases op with
  | add conds =>
    obtain rfl := Option.some.inj h
    refine iff_of_true ⟨?_, ?_⟩ trivial
    · exact add_all_induction (P := fun u => u.overflowed = false) (fun _ _ hu => hu) conds s hs.exact
    · exact add_all_induction (fun _ c => add_one_given c) conds s hs.given
  | get key =>
    obtain ⟨x, hx, ⟨hdone, rfl⟩ | ⟨hopen, rfl⟩⟩ := get_cases h
    · refine iff_of_true ⟨hs.exact, hs.given⟩ ?_
      intro y hy
      obtain rfl := Option.some.inj (hx.symm.trans hy)
      exact Or.inl hdone
    · have hcounted : Counted s (.get key) ↔ x.2.level+incBy x.1.base.op < 2^16-1 := by
        simp [Counted, hx, hopen, DONE_PRIORITY]
      rw [hcounted]
      constructor
      · rintro ⟨hex, hgiven⟩
        have hno : ¬ 2^16 ≤ x.2.level+incBy x.1.base.op :=
          of_decide_eq_false (Bool.or_eq_false_iff.mp hex).2
        by_contra hlimit
        have hdone : isDonePriority (inc x.2 x.1.base.op) = true := by
          rw [is_done_priority_iff, inc_level, Nat.mod_eq_of_lt (by omega)]
          omega
        have hr := (hgiven key _ (AList.lookup_insert s.queue) hdone).1
        have hr' : s.retired key = true := by simpa [put] using hr
        rw [retired_priority hk hx hr'] at hopen
        cases hopen
      · intro hroom
        refine ⟨?_, ?_⟩
        · rw [hs.exact, Bool.false_or]
          exact decide_eq_false (by omega)
        · refine put_given hs.given ?_
          intro hdone
          rw [is_done_priority_iff, inc_level, Nat.mod_eq_of_lt (by omega)] at hdone
          omega
  | update cond distance =>
    obtain ⟨hnone, rfl⟩ | ⟨v, hv, ⟨hdisc, rfl⟩ | ⟨hlive, rfl⟩⟩ := update_cases h
    · refine iff_of_true ⟨hs.exact, hs.given⟩ ?_
      simp [Counted, hnone]
    · refine iff_of_true ⟨hs.exact, put_given hs.given (fun _ => ⟨rfl, hdisc⟩)⟩ ?_
      intro _ _ _
      exact hdisc
    · have hcounted : Counted s (.update cond distance) ↔ isDonePriority v.2 = false := by
        simp [Counted, hv, hlive]
      rw [hcounted]
      constructor
      · rintro ⟨-, hgiven⟩
        by_contra hdone
        have hdone' : isDonePriority (newDistance v.2 distance) = true := by
          rw [Bool.not_eq_false] at hdone
          exact hdone
        have hdisc := (hgiven _ _ (AList.lookup_insert s.queue) hdone').2
        rw [hlive] at hdisc
        cases hdisc
      · intro hopen
        refine ⟨hs.exact, put_given hs.given ?_⟩
        intro hdone
        rw [show isDonePriority (newDistance v.2 distance) = isDonePriority v.2 from rfl,
          hopen] at hdone
        cases hdone

theorem new_ledger_kept : Kept newLedger := by
  constructor
  · intro key x hx
    cases hx
  · intro key hr
    cases hr

theorem new_ledger_sound : Sound newLedger := by
  rw [sound_iff new_ledger_kept]
  refine ⟨rfl, ?_⟩
  intro key x hx
  cases hx

/-- A run meets sound states only exactly if every pick leaves room below the
done priority and nothing live is written over it. -/
theorem counted_run_sound (ops : List Op) (s : Ledger)
    (h : replay next (fun _ _ => True) newLedger ops = some s) :
    (∀ js t, js <+: ops → replay next (fun _ _ => True) newLedger js = some t → Sound t) ↔
      replay next Counted newLedger ops = some s :=
  replay_exact_kept new_ledger_kept new_ledger_sound (fun _ _ _ hk _ _ hn => next_kept hk hn)
    (fun _ _ _ hk hs _ hn => next_sound hk hs hn) (fun _ _ _ => trivial) ops s h

section Rounds

def picked : CondStmt := siteCond COND_FALSE_ST 5

def rounds : ℕ → List Op
  | 0 => [.add [(picked, 10)]]
  | n+1 => rounds n ++ [.get (7, 3, 1), .update picked 10]

def roundsQueue (n : ℕ) : Queue := (∅ : Queue).insert (7, 3, 1) (picked, ⟨n, 10⟩)

def roundsLedger (n : ℕ) : Ledger := ⟨roundsQueue n, false, fun _ => false⟩

theorem rounds_queue_get (n : ℕ) :
    getEntry (roundsQueue n) (7, 3, 1) = some ((picked, ⟨n, 10⟩),
      if n = 2^16-1 then roundsQueue n else roundsQueue ((n+1) % 2^16)) := by
  have hlookup : (roundsQueue n).lookup (7, 3, 1) = some (picked, ⟨n, 10⟩) := AList.lookup_insert ∅
  have hfirst : ∀ y ∈ (roundsQueue n).entries, First ⟨n, 10⟩ y.2.2 := by
    intro y hy
    obtain rfl := List.mem_singleton.mp hy
    exact Or.inr ⟨rfl, le_rfl⟩
  have hinsert : (roundsQueue n).insert (7, 3, 1) (picked, inc ⟨n, 10⟩ picked.base.op) =
      roundsQueue ((n+1) % 2^16) := AList.insert_insert ∅
  rw [getEntry, hlookup]
  simp only
  rw [if_pos hfirst, hinsert]
  by_cases hn : n = 2^16-1
  · rw [if_pos hn, if_pos ((is_done_priority_iff ⟨n, 10⟩).mpr hn)]
  · rw [if_neg hn, if_neg (fun h => hn ((is_done_priority_iff ⟨n, 10⟩).mp h))]

theorem rounds_replay (n : ℕ) (hn : n < 2^16) :
    replay next (fun _ _ => True) newLedger (rounds n) = some (roundsLedger n) := by
  induction n with
  | zero =>
    have hretired : Function.update (fun _ => false) (7, 3, 1) false = fun _ : Key => false :=
      Function.update_eq_self _ _
    exact congrArg (fun r => some (⟨roundsQueue 0, false, r⟩ : Ledger)) hretired
  | succ n ih =>
    have hget : next (roundsLedger n) (.get (7, 3, 1)) = some (roundsLedger (n+1)) := by
      rw [next, roundsLedger, rounds_queue_get, if_neg (by omega), Nat.mod_eq_of_lt hn]
      have hsmall : decide (2^16 ≤ n+1) = false := decide_eq_false (by omega)
      simp only [Option.map_some, roundsLedger]
      rw [show incBy picked.base.op = 1 from rfl, hsmall]
      simp
    have hupdate : next (roundsLedger (n+1)) (.update picked 10) = some (roundsLedger (n+1)) := by
      have hlookup : (roundsQueue (n+1)).lookup (keyOf picked) = some (picked, ⟨n+1, 10⟩) :=
        AList.lookup_insert ∅
      have hinsert : (roundsQueue (n+1)).insert (keyOf picked) (picked, ⟨n+1, 10⟩) =
          roundsQueue (n+1) := AList.insert_insert ∅
      rw [next, updateEntry]
      simp only [roundsLedger, hlookup]
      rw [show isDiscarded picked = false from rfl]
      exact congrArg (fun q => some (⟨q, false, fun _ => false⟩ : Ledger)) hinsert
    rw [rounds, replay_append, ih (by omega), Option.bind_some]
    simp [replay, hget, hupdate]

/-- After 65535 rounds the only entry, not discarded, has the done priority. -/
theorem many_picks_retire : ∃ ops s, replay next (fun _ _ => True) newLedger ops = some s ∧
    ∃ x q, getEntry s.queue (7, 3, 1) = some (x, q) ∧ isDonePriority x.2 = true ∧
      isDiscarded x.1 = false ∧ s.retired (7, 3, 1) = false :=
  ⟨rounds (2^16-1), roundsLedger (2^16-1), rounds_replay _ (by decide), _, _,
    rounds_queue_get (2^16-1), rfl, rfl, rfl⟩

/-- One round. -/
theorem counted_run_sound_round : ∃ s,
    replay next (fun _ _ => True) newLedger (rounds 1) = some s ∧ Sound s ∧
      (getEntry s.queue (7, 3, 1)).map (fun r => r.1.2.level) = some 1 := by
  have hrun := rounds_replay 1 (by decide)
  have hsome : (replay next Counted newLedger (rounds 1)).isSome = true := by decide +kernel
  obtain ⟨s, hs⟩ := Option.isSome_iff_exists.mp hsome
  have hsame : replay next (fun _ _ => True) newLedger (rounds 1) = some s :=
    replay_mono (fun _ _ _ => trivial) _ _ _ hs
  obtain rfl := Option.some.inj (hrun.symm.trans hsame)
  refine ⟨_, hrun, ?_, ?_⟩
  · exact (counted_run_sound _ _ hrun).mpr hs _ _ (List.prefix_refl _) hrun
  · rw [show (roundsLedger 1).queue = roundsQueue 1 from rfl, rounds_queue_get]
    rfl

end Rounds

end Parmesan.DepotCount
