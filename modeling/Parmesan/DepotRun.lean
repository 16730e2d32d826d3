import Parmesan.DepotModel
import Parmesan.Execution

/-!
# Done conditions in the queue

An entry that is done stays done in every interleaving of the workers in which
no copy that is not done is written back over it; an entry that was marked done
is then only returned with the done priority.
-/

set_option autoImplicit false

namespace Parmesan.DepotRun
open Parmesan.CondModel Parmesan.DepotModel Parmesan.Execution

def WellKeyed (q : Queue) : Prop := ∀ key x, q.lookup key = some x → keyOf x.1 = key

def DoneIn (q : Queue) (key : Key) : Prop := ∃ x, q.lookup key = some x ∧ isDone x.1 = true

def Retired (q : Queue) (key : Key) : Prop :=
  ∃ x, q.lookup key = some x ∧ isDone x.1 = true ∧ isDonePriority x.2 = true

structure Keeps (q q' : Queue) : Prop where
  keyed : WellKeyed q'
  done : ∀ key, DoneIn q key → DoneIn q' key
  retired : ∀ key, Retired q key → Retired q' key

variable {q q' q'' : Queue}

theorem retired_done {key : Key} (h : Retired q key) : DoneIn q key := by
  obtain ⟨x, hx, hd, -⟩ := h
  exact ⟨x, hx, hd⟩

theorem keeps_refl (h : WellKeyed q) : Keeps q q := ⟨h, fun _ hd => hd, fun _ hr => hr⟩

theorem keeps_trans (h : Keeps q q') (h' : Keeps q' q'') : Keeps q q'' :=
  ⟨h'.keyed, fun key hd => h'.done key (h.done key hd),
    fun key hr => h'.retired key (h.retired key hr)⟩

theorem insert_keeps (hk : WellKeyed q) {key : Key} {x : CondStmt × QPriority}
    (hkey : keyOf x.1 = key) (hdone : DoneIn q key → isDone x.1 = true)
    (hretired : Retired q key → isDonePriority x.2 = true) : Keeps q (q.insert key x) := by
  have hother : ∀ key', key' ≠ key → (q.insert key x).lookup key' = q.lookup key' :=
    fun key' hne => AList.lookup_insert_ne hne
  have hself : (q.insert key x).lookup key = some x := AList.lookup_insert q
  constructor
  case keyed =>
    intro key' x' hx'
    by_cases hne : key' = key
    · subst hne
      rw [hself] at hx'
      obtain rfl := Option.some.inj hx'
      exact hkey
    · rw [hother key' hne] at hx'
      exact hk key' x' hx'
  case done =>
    intro key' hd
    by_cases hne : key' = key
    · subst hne
      exact ⟨x, hself, hdone hd⟩
    · obtain ⟨x', hx', hd'⟩ := hd
      exact ⟨x', by rw [hother key' hne]; exact hx', hd'⟩
  case retired =>
    intro key' hr
    by_cases hne : key' = key
    · subst hne
      exact ⟨x, hself, hdone (retired_done hr), hretired hr⟩
    · obtain ⟨x', hx', hr'⟩ := hr
      exact ⟨x', by rw [hother key' hne]; exact hx', hr'⟩

theorem insert_retired {key : Key} {x : CondStmt × QPriority} (hd : isDone x.1 = true)
    (hp : isDonePriority x.2 = true) : Retired (q.insert key x) key :=
  ⟨x, AList.lookup_insert q, hd, hp⟩

theorem done_lookup {key : Key} {x : CondStmt × QPriority} (hx : q.lookup key = some x)
    (hd : DoneIn q key) : isDone x.1 = true := by
  obtain ⟨x', hx', hd'⟩ := hd
  rw [hx] at hx'
  obtain rfl := Option.some.inj hx'
  exact hd'

theorem retired_lookup {key : Key} {x : CondStmt × QPriority} (hx : q.lookup key = some x)
    (hr : Retired q key) : isDonePriority x.2 = true := by
  obtain ⟨x', hx', -, hp⟩ := hr
  rw [hx] at hx'
  obtain rfl := Option.some.inj hx'
  exact hp

theorem not_done_in {key : Key} (h : q.lookup key = none) : ¬ DoneIn q key := by
  rintro ⟨x, hx, -⟩
  rw [h] at hx
  cases hx

theorem get_entry_spec {key : Key} {x : CondStmt × QPriority} (hk : WellKeyed q)
    (h : getEntry q key = some (x, q')) : q.lookup key = some x ∧ Keeps q q' := by
  obtain ⟨hx, -, rfl⟩ := get_entry_cases h
  refine ⟨hx, ?_⟩
  split_ifs with hdone
  · exact keeps_refl hk
  · have hsame : DoneIn q key → isDone x.1 = true := done_lookup hx
    refine insert_keeps hk (hk key x hx) hsame ?_
    intro hr
    exact absurd (retired_lookup hx hr) hdone

theorem add_entry_spec (hk : WellKeyed q) (cond : CondStmt) (distance : ℕ) :
    Keeps q (addEntry q cond distance).1 ∧
      ((addEntry q cond distance).2 = true → Retired (addEntry q cond distance).1 (keyOf cond)) := by
  unfold addEntry
  split_ifs with hdes
  · cases hv : q.lookup (keyOf cond) with
    | none =>
      simp only
      refine ⟨insert_keeps hk rfl ?_ ?_, by simp⟩
      · exact fun hd => absurd hd (not_done_in hv)
      · exact fun hr => absurd (retired_done hr) (not_done_in hv)
    | some v =>
      simp only
      split_ifs with hdone hcond hspeed
      · exact ⟨keeps_refl hk, by simp⟩
      · refine ⟨insert_keeps hk (hk _ v hv) (fun _ => rfl) (fun _ => rfl), fun _ => ?_⟩
        exact insert_retired rfl rfl
      · refine ⟨insert_keeps hk rfl ?_ ?_, by simp⟩
        · exact fun hd => absurd (done_lookup hv hd) hdone
        · exact fun hr => absurd (done_lookup hv (retired_done hr)) hdone
      · exact ⟨keeps_refl hk, by simp⟩
  · exact ⟨keeps_refl hk, by simp⟩

theorem done_discarded {cond : CondStmt} (h : isDone cond = true) : isDiscarded cond = true := by
  rw [isDiscarded, h]
  rfl

theorem update_entry_spec (hk : WellKeyed q) (cond : CondStmt) (distance : ℕ)
    (hfresh : DoneIn q (keyOf cond) → isDone cond = true) :
    Keeps q (updateEntry q cond distance).1 ∧
      ((updateEntry q cond distance).2 = true →
        Retired (updateEntry q cond distance).1 (keyOf cond)) := by
  unfold updateEntry
  cases hv : q.lookup (keyOf cond) with
  | none =>
    simp only
    exact ⟨keeps_refl hk, by simp⟩
  | some v =>
    simp only
    constructor
    · refine insert_keeps hk rfl hfresh ?_
      intro hr
      rw [if_pos (done_discarded (hfresh (retired_done hr)))]
      rfl
    · intro hd
      refine insert_retired hd ?_
      rw [if_pos (done_discarded hd)]
      rfl

variable {ι : Type} {d d' d'' : Depot ι}

structure Advances (d d' : Depot ι) : Prop where
  keeps : Keeps d.queue d'.queue
  grows : ∀ key ∈ d.marked, key ∈ d'.marked
  marks : ∀ key ∈ d'.marked, key ∈ d.marked ∨ Retired d'.queue key

theorem advances_refl (h : WellKeyed d.queue) : Advances d d :=
  ⟨keeps_refl h, fun _ hm => hm, fun _ hm => Or.inl hm⟩

theorem advances_trans (h : Advances d d') (h' : Advances d' d'') : Advances d d'' := by
  refine ⟨keeps_trans h.keeps h'.keeps, fun key hm => h'.grows key (h.grows key hm), ?_⟩
  intro key hm
  rcases h'.marks key hm with hm | hr
  · rcases h.marks key hm with hm | hr
    · exact Or.inl hm
    · exact Or.inr (h'.keeps.retired key hr)
  · exact Or.inr hr

theorem record_advances {q' : Queue} {b : Bool} {key : Key} {held : ι → Option CondStmt}
    (hk : Keeps d.queue q') (hr : b = true → Retired q' key) :
    Advances d ⟨q', held, if b then key :: d.marked else d.marked⟩ := by
  cases b with
  | false => exact ⟨hk, fun _ hm => hm, fun _ hm => Or.inl hm⟩
  | true =>
    refine ⟨hk, fun _ hm => List.mem_cons_of_mem _ hm, ?_⟩
    intro key' hm
    rcases List.mem_cons.mp hm with rfl | hm
    · exact Or.inr (hr rfl)
    · exact Or.inl hm

theorem add_one_advances (h : WellKeyed d.queue) (c : CondStmt × ℕ) : Advances d (addOne d c) := by
  obtain ⟨hk, hr⟩ := add_entry_spec h c.1 c.2
  exact record_advances hk hr

theorem add_all_advances (conds : List (CondStmt × ℕ)) (d : Depot ι) (h : WellKeyed d.queue) :
    Advances d (conds.foldl addOne d) := by
  induction conds generalizing d with
  | nil => exact advances_refl h
  | cons c conds ih =>
    have hone := add_one_advances h c
    exact advances_trans hone (ih (addOne d c) hone.keeps.keyed)

variable [DecidableEq ι]

/-- A copy that is written back over a done entry is itself done. -/
def Fresh (d : Depot ι) : Event ι → Prop
  | .update w _ => ∀ c, d.held w = some c → DoneIn d.queue (keyOf c) → isDone c = true
  | _ => True

theorem next_advances {e : Event ι} (hk : WellKeyed d.queue) (hf : Fresh d e)
    (h : next d e = some d') : Advances d d' := by
  cases e with
  | get w key =>
    simp only [next] at h
    split_ifs at h
    obtain ⟨⟨x, q'⟩, hget, rfl⟩ := Option.map_eq_some_iff.mp h
    obtain ⟨-, hkeeps⟩ := get_entry_spec hk hget
    exact ⟨hkeeps, fun _ hm => hm, fun _ hm => Or.inl hm⟩
  | search w cond =>
    simp only [next] at h
    split at h
    · split_ifs at h
      obtain rfl := Option.some.inj h
      exact ⟨keeps_refl hk, fun _ hm => hm, fun _ hm => Or.inl hm⟩
    · cases h
  | add conds =>
    obtain rfl := Option.some.inj h
    exact add_all_advances conds d hk
  | update w distance =>
    obtain ⟨c, hc, rfl⟩ := Option.map_eq_some_iff.mp h
    obtain ⟨hkeeps, hr⟩ := update_entry_spec hk c distance (hf c hc)
    exact record_advances hkeeps hr

def Inv (d : Depot ι) : Prop := WellKeyed d.queue ∧ ∀ key ∈ d.marked, Retired d.queue key

omit [DecidableEq ι] in
theorem empty_inv : Inv (emptyDepot : Depot ι) := by
  constructor
  · intro key x hx
    cases hx
  · intro key hm
    cases hm

omit [DecidableEq ι] in
theorem advances_inv (hi : Inv d) (ha : Advances d d') : Inv d' := by
  refine ⟨ha.keeps.keyed, ?_⟩
  intro key hm
  rcases ha.marks key hm with hm | hr
  · exact ha.keeps.retired key (hi.2 key hm)
  · exact hr

theorem run_advances (hi : Inv d) (h : Reachable next Fresh d d') : Inv d' ∧ Advances d d' := by
  refine reachable_invariant (P := fun u => Inv u ∧ Advances d u) ⟨hi, advances_refl hi.1⟩ ?_ h
  rintro u e v ⟨hu, ha⟩ hf hn
  have hstep := next_advances hu.1 hf hn
  exact ⟨advances_inv hu hstep, advances_trans ha hstep⟩

/-- In a run that writes back no copy that is behind its done entry, a done
condition stays done, and `get_entry` returns a key that was marked done with
the done priority only. -/
theorem fresh_run_done (hd : Reachable next Fresh emptyDepot d) (h : Reachable next Fresh d d') :
    (∀ key, DoneIn d.queue key ∨ key ∈ d.marked → DoneIn d'.queue key) ∧
    ∀ choice x q, getEntry d'.queue choice = some (x, q) → keyOf x.1 ∈ d.marked →
      isDonePriority x.2 = true := by
  have hi : Inv d := (run_advances empty_inv hd).1
  obtain ⟨hi', ha⟩ := run_advances hi h
  constructor
  · rintro key (hdone | hm)
    · exact ha.keeps.done key hdone
    · exact ha.keeps.done key (retired_done (hi.2 key hm))
  · intro choice x q hget hm
    obtain ⟨hx, -⟩ := get_entry_spec hi'.1 hget
    rw [hi'.1 choice x hx] at hm
    exact retired_lookup hx (ha.keeps.retired choice (hi.2 choice hm))

def siteCond (condition speed : ℕ) : CondStmt where
  base := ⟨7, 3, 0, 1, 0, condition, 0, COND_ICMP_EQ_OP, 4, 1, 0, 1, 2⟩
  offsets := [⟨false, 0, 4⟩]
  offsetsOpt := []
  vars := [2, 0, 0, 0]
  speed := speed
  isDesirable := true
  state := .offset

def bothOutcomes : List (CondStmt × ℕ) :=
  [(siteCond COND_FALSE_ST 5, 10), (siteCond COND_TRUE_ST 5, 10)]

def solvedDepot : Depot Unit := bothOutcomes.foldl addOne emptyDepot

theorem fresh_run_done_solved : ∃ d' : Depot Unit, Reachable next Fresh emptyDepot solvedDepot ∧
    Reachable next Fresh solvedDepot d' ∧ (7, 3, 1) ∈ solvedDepot.marked ∧
    DoneIn d'.queue (7, 3, 1) := by
  have hadd : Reachable next Fresh emptyDepot solvedDepot :=
    Reachable.step (i := .add bothOutcomes) Reachable.start trivial rfl
  have hfaster : Reachable next Fresh solvedDepot
      ([(siteCond COND_FALSE_ST 1, 10)].foldl addOne solvedDepot) :=
    Reachable.step (i := .add [(siteCond COND_FALSE_ST 1, 10)]) Reachable.start trivial rfl
  have hmarked : (7, 3, 1) ∈ solvedDepot.marked := by decide
  exact ⟨_, hadd, hfaster, hmarked, (fresh_run_done hadd hfaster).1 _ (Or.inr hmarked)⟩

/-- A worker takes its copy before the other outcome is seen. -/
def beforeStale : List (Event Unit) :=
  [.add [(siteCond COND_FALSE_ST 5, 10)], .get () (7, 3, 1), .add [(siteCond COND_TRUE_ST 5, 10)]]

/-- It writes the copy back, and a faster input with the old outcome comes in. -/
def afterStale : List (Event Unit) := [.update () 10, .add [(siteCond COND_FALSE_ST 1, 10)]]

/-- The copy replaces the done entry, and the key is handed out again. -/
theorem stale_copy_reopens : ∃ s t : Depot Unit,
    Reachable next (fun _ _ => True) emptyDepot s ∧ Reachable next (fun _ _ => True) s t ∧
    (7, 3, 1) ∈ s.marked ∧ DoneIn s.queue (7, 3, 1) ∧ ¬ DoneIn t.queue (7, 3, 1) ∧
    ∃ x q, getEntry t.queue (7, 3, 1) = some (x, q) ∧ keyOf x.1 = (7, 3, 1) ∧
      isDonePriority x.2 = false := by
  have hbefore : (replay next (fun _ _ => True) emptyDepot beforeStale).map
      (fun s => (s.marked, s.queue.lookup (7, 3, 1))) =
        some ([(7, 3, 1)], some (markAsDone (siteCond COND_FALSE_ST 5), donePriority)) := by decide
  obtain ⟨s, hs, hsval⟩ := Option.map_eq_some_iff.mp hbefore
  obtain ⟨hmarked, hslookup⟩ := Prod.mk.inj hsval
  have hafter : (replay next (fun _ _ => True) emptyDepot (beforeStale ++ afterStale)).map
      (fun t => (t.queue.lookup (7, 3, 1), (getEntry t.queue (7, 3, 1)).map Prod.fst)) =
        some (some (siteCond COND_FALSE_ST 1, ⟨0, 10⟩),
          some (siteCond COND_FALSE_ST 1, ⟨0, 10⟩)) := by decide
  rw [replay_append, hs, Option.bind_some] at hafter
  obtain ⟨t, ht, htval⟩ := Option.map_eq_some_iff.mp hafter
  obtain ⟨htlookup, htget⟩ := Prod.mk.inj htval
  obtain ⟨⟨x, q⟩, hget, hx⟩ := Option.map_eq_some_iff.mp htget
  obtain rfl : x = (siteCond COND_FALSE_ST 1, ⟨0, 10⟩) := hx
  refine ⟨s, t, replay_reachable _ _ _ hs, replay_reachable _ _ _ ht, ?_, ⟨_, hslookup, rfl⟩, ?_,
    _, q, hget, rfl, rfl⟩
  · rw [hmarked]
    exact List.mem_singleton_self _
  · intro hdone
    exact absurd (done_lookup htlookup hdone) (by decide)

end Parmesan.DepotRun
