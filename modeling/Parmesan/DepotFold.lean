import Parmesan.DepotRun
import Mathlib.Data.List.MinMax

/-!
# A key of the queue under a history of additions

`add_entries` treats the keys apart. The entry of a key is a fold of the
desirable conditions with that key, in which a done entry stays, another
outcome marks the entry done, and a faster condition replaces a slower one.
-/

set_option autoImplicit false

namespace Parmesan.DepotFold
open Parmesan.CondModel Parmesan.DepotModel Parmesan.DepotRun

def addEntries (q : Queue) (conds : List (CondStmt × ℕ)) : Queue :=
  conds.foldl (fun q c => (addEntry q c.1 c.2).1) q

def addBatches (q : Queue) (batches : List (List (CondStmt × ℕ))) : Queue :=
  batches.foldl addEntries q

/-- What one more condition does to the entry of its own key. -/
def observe : Option CondStmt → CondStmt → Option CondStmt
  | none, c => some c
  | some v, c =>
    if isDone v then some v
    else if v.base.condition ≠ c.base.condition then some (markAsDone v)
    else if c.speed < v.speed then some c
    else some v

def observations (conds : List CondStmt) (key : Key) : List CondStmt :=
  conds.filter fun c => c.isDesirable && keyOf c = key

/-- An outcome that is done from the start, or two outcomes. -/
def Explored (obs : List CondStmt) : Prop :=
  (∃ c ∈ obs, c.base.condition = COND_DONE_ST) ∨
    ∃ c ∈ obs, ∃ c' ∈ obs, c.base.condition ≠ c'.base.condition

def entryOf (q : Queue) (key : Key) : Option CondStmt := (q.lookup key).map Prod.fst

theorem entry_of_insert (q : Queue) (key : Key) (x : CondStmt × QPriority) :
    entryOf (q.insert key x) key = some x.1 := by
  rw [entryOf, AList.lookup_insert]
  rfl

theorem entry_of_insert_ne (q : Queue) {key key' : Key} (x : CondStmt × QPriority)
    (h : key ≠ key') : entryOf (q.insert key' x) key = entryOf q key := by
  rw [entryOf, AList.lookup_insert_ne h]
  rfl

theorem add_entry_undesirable (q : Queue) {c : CondStmt} (distance : ℕ)
    (h : c.isDesirable = false) : (addEntry q c distance).1 = q := by
  rw [addEntry, h]
  rfl

theorem add_entry_ne (q : Queue) (c : CondStmt) (distance : ℕ) {key : Key} (h : key ≠ keyOf c) :
    entryOf (addEntry q c distance).1 key = entryOf q key := by
  unfold addEntry
  split_ifs
  · cases hv : q.lookup (keyOf c) with
    | none => exact entry_of_insert_ne q _ h
    | some v =>
      simp only
      split_ifs
      · rfl
      · exact entry_of_insert_ne q _ h
      · exact entry_of_insert_ne q _ h
      · rfl
  · rfl

theorem add_entry_self (q : Queue) (c : CondStmt) (distance : ℕ) (h : c.isDesirable = true) :
    entryOf (addEntry q c distance).1 (keyOf c) = observe (entryOf q (keyOf c)) c := by
  rw [addEntry, if_pos h]
  cases hv : q.lookup (keyOf c) with
  | none =>
    have hnone : entryOf q (keyOf c) = none := by rw [entryOf, hv]; rfl
    rw [hnone]
    exact entry_of_insert q _ _
  | some v =>
    have hsome : entryOf q (keyOf c) = some v.1 := by rw [entryOf, hv]; rfl
    rw [hsome]
    simp only [observe]
    split_ifs
    · exact hsome
    · exact entry_of_insert q _ _
    · exact entry_of_insert q _ _
    · exact hsome

theorem add_entry_entry (q : Queue) (c : CondStmt × ℕ) (key : Key) :
    entryOf (addEntry q c.1 c.2).1 key =
      (observations [c.1] key).foldl observe (entryOf q key) := by
  cases hdes : c.1.isDesirable with
  | false => simp [observations, hdes, add_entry_undesirable]
  | true =>
    by_cases hkey : keyOf c.1 = key
    · subst hkey
      simp [observations, hdes, add_entry_self]
    · simp [observations, hdes, hkey, add_entry_ne q c.1 c.2 (Ne.symm hkey)]

theorem observations_cons (c : CondStmt) (cs : List CondStmt) (key : Key) :
    observations (c::cs) key = observations [c] key ++ observations cs key :=
  List.filter_append [c] cs

/-- The entry of a key is the fold of its observations. -/
theorem add_entries_entry (conds : List (CondStmt × ℕ)) (q : Queue) (key : Key) :
    entryOf (addEntries q conds) key =
      (observations (conds.map Prod.fst) key).foldl observe (entryOf q key) := by
  induction conds generalizing q with
  | nil => rfl
  | cons c conds ih =>
    rw [List.map_cons, observations_cons, List.foldl_append, ← add_entry_entry]
    exact ih _

theorem add_batches_flatten (q : Queue) (batches : List (List (CondStmt × ℕ))) :
    addBatches q batches = addEntries q batches.flatten := by
  induction batches generalizing q with
  | nil => rfl
  | cons b batches ih =>
    rw [List.flatten_cons, addEntries, List.foldl_append]
    exact ih _

theorem add_entries_keyed (conds : List (CondStmt × ℕ)) (q : Queue) (h : WellKeyed q) :
    WellKeyed (addEntries q conds) := by
  induction conds generalizing q with
  | nil => exact h
  | cons c conds ih => exact ih _ (add_entry_spec h c.1 c.2).1.keyed

theorem add_entries_desirable (conds : List (CondStmt × ℕ)) (q : Queue) :
    addEntries q (conds.filter fun c => c.1.isDesirable) = addEntries q conds := by
  induction conds generalizing q with
  | nil => rfl
  | cons c conds ih =>
    cases hdes : c.1.isDesirable with
    | false =>
      rw [List.filter_cons_of_neg (by simp [hdes]), ih]
      exact congrArg (fun q => addEntries q conds) (add_entry_undesirable q c.2 hdes).symm
    | true =>
      rw [List.filter_cons_of_pos (by simp [hdes])]
      exact ih _

section Outcome

theorem explored_concat (obs : List CondStmt) (c : CondStmt) :
    Explored (obs ++ [c]) ↔
      Explored obs ∨ c.base.condition = COND_DONE_ST ∨
        ∃ v ∈ obs, v.base.condition ≠ c.base.condition := by
  constructor
  · rintro (⟨v, hv, hdone⟩ | ⟨v, hv, v', hv', hne⟩)
    · rcases List.mem_append.mp hv with hv | hv
      · exact Or.inl (Or.inl ⟨v, hv, hdone⟩)
      · obtain rfl := List.mem_singleton.mp hv
        exact Or.inr (Or.inl hdone)
    · rcases List.mem_append.mp hv with hv | hv <;> rcases List.mem_append.mp hv' with hv' | hv'
      · exact Or.inl (Or.inr ⟨v, hv, v', hv', hne⟩)
      · rw [List.mem_singleton.mp hv'] at hne
        exact Or.inr (Or.inr ⟨v, hv, hne⟩)
      · rw [List.mem_singleton.mp hv] at hne
        exact Or.inr (Or.inr ⟨v', hv', hne.symm⟩)
      · rw [List.mem_singleton.mp hv, List.mem_singleton.mp hv'] at hne
        exact absurd rfl hne
  · have hc : c ∈ obs ++ [c] := List.mem_append_right obs (List.mem_singleton_self c)
    rintro ((⟨v, hv, hdone⟩ | ⟨v, hv, v', hv', hne⟩) | hdone | ⟨v, hv, hne⟩)
    · exact Or.inl ⟨v, List.mem_append_left _ hv, hdone⟩
    · exact Or.inr ⟨v, List.mem_append_left _ hv, v', List.mem_append_left _ hv', hne⟩
    · exact Or.inl ⟨c, hc, hdone⟩
    · exact Or.inr ⟨v, List.mem_append_left _ hv, c, hc, hne⟩

theorem explored_perm {obs obs' : List CondStmt} (h : obs.Perm obs') :
    Explored obs ↔ Explored obs' := by
  simp only [Explored, h.mem_iff]

/-- A done entry stands for an explored key, any other for its first fastest observation. -/
def Sums (obs : List CondStmt) (v : CondStmt) : Prop :=
  (isDone v = true ↔ Explored obs) ∧ (isDone v = false → obs.argmin CondStmt.speed = some v)

theorem is_done_iff (v : CondStmt) : isDone v = true ↔ v.base.condition = COND_DONE_ST := by
  simp [isDone]

theorem same_condition {obs : List CondStmt} {v u : CondStmt} (h : ¬ Explored obs) (hv : v ∈ obs)
    (hu : u ∈ obs) : u.base.condition = v.base.condition := by
  by_contra hne
  exact h (Or.inr ⟨u, hu, v, hv, hne⟩)

theorem sums_singleton (c : CondStmt) : Sums [c] c := by
  constructor
  · simp [is_done_iff, Explored]
  · intro _
    exact List.argmin_singleton

theorem sums_concat {obs : List CondStmt} {v : CondStmt} (c : CondStmt) (h : Sums obs v) :
    ∃ v', observe (some v) c = some v' ∧ Sums (obs ++ [c]) v' := by
  simp only [observe]
  cases hdone : isDone v with
  | true =>
    have hexp : Explored (obs ++ [c]) := (explored_concat obs c).mpr (Or.inl (h.1.mp hdone))
    refine ⟨v, if_pos rfl, iff_of_true hdone hexp, ?_⟩
    simp [hdone]
  | false =>
    have hmin := h.2 hdone
    have hv : v ∈ obs := List.argmin_mem hmin
    have hnot : ¬ Explored obs := by rw [← h.1, hdone]; simp
    by_cases hcond : v.base.condition = c.base.condition
    · have hopen : ¬ Explored (obs ++ [c]) := by
        rw [explored_concat]
        rintro (hexp | hc | ⟨u, hu, hne⟩)
        · exact hnot hexp
        · rw [← hcond, ← is_done_iff, hdone] at hc
          cases hc
        · exact hne ((same_condition hnot hv hu).trans hcond)
      have hc : isDone c = false := by rw [← hdone, isDone, isDone, hcond]
      have hlast := List.argmin_concat CondStmt.speed c obs
      rw [hmin] at hlast
      by_cases hspeed : c.speed < v.speed
      · refine ⟨c, by simp [hcond, hspeed], iff_of_false (by simp [hc]) hopen, fun _ => ?_⟩
        rw [hlast]
        exact if_pos hspeed
      · refine ⟨v, by simp [hcond, hspeed], iff_of_false (by simp [hdone]) hopen, fun _ => ?_⟩
        rw [hlast]
        exact if_neg hspeed
    · have hexp : Explored (obs ++ [c]) :=
        (explored_concat obs c).mpr (Or.inr (Or.inr ⟨v, hv, hcond⟩))
      refine ⟨markAsDone v, by simp [hcond], iff_of_true rfl hexp, ?_⟩
      intro hcontra
      cases hcontra

theorem observe_sums (obs : List CondStmt) (h : obs ≠ []) :
    ∃ v, obs.foldl observe none = some v ∧ Sums obs v := by
  induction obs using List.reverseRecOn with
  | nil => exact absurd rfl h
  | append_singleton obs c ih =>
    rw [List.foldl_append]
    rcases eq_or_ne obs [] with rfl | hne
    · exact ⟨c, rfl, sums_singleton c⟩
    · obtain ⟨v, hv, hsums⟩ := ih hne
      rw [hv]
      exact sums_concat c hsums

end Outcome

theorem empty_keyed : WellKeyed ∅ := by
  intro key x hx
  cases hx

theorem entry_count {q : Queue} (hk : WellKeyed q) {key : Key} {v : CondStmt}
    (h : entryOf q key = some v) : (q.entries.map fun e => keyOf e.2.1).count key = 1 := by
  have hkeys : (q.entries.map fun e => keyOf e.2.1) = q.keys := by
    apply List.map_congr_left
    intro e he
    exact hk e.1 e.2 (AList.mem_lookup_iff.mpr he)
  rw [hkeys]
  obtain ⟨x, hx, -⟩ := Option.map_eq_some_iff.mp h
  refine List.count_eq_one_of_mem q.nodupKeys ?_
  exact AList.mem_keys.mp (AList.lookup_isSome.mp (by rw [hx]; rfl))

theorem done_in_iff (q : Queue) (key : Key) :
    DoneIn q key ↔ ∃ v, entryOf q key = some v ∧ isDone v = true := by
  constructor
  · rintro ⟨x, hx, hdone⟩
    exact ⟨x.1, by rw [entryOf, hx]; rfl, hdone⟩
  · rintro ⟨v, hv, hdone⟩
    obtain ⟨x, hx, rfl⟩ := Option.map_eq_some_iff.mp hv
    exact ⟨x, hx, hdone⟩

theorem add_batches_done (batches : List (List (CondStmt × ℕ))) (key : Key) :
    DoneIn (addBatches ∅ batches) key ↔
      Explored (observations (batches.flatten.map Prod.fst) key) := by
  rw [done_in_iff, add_batches_flatten, add_entries_entry]
  rcases eq_or_ne (observations (batches.flatten.map Prod.fst) key) [] with hnone | hne
  · rw [hnone]
    apply iff_of_false
    · rintro ⟨v, hv, -⟩
      cases hv
    · rintro (⟨c, hc, -⟩ | ⟨c, hc, -⟩) <;> cases hc
  · obtain ⟨v, hv, hsums⟩ := observe_sums _ hne
    constructor
    · rintro ⟨v', hv', hdone⟩
      obtain rfl := Option.some.inj (hv.symm.trans hv')
      exact hsums.1.mp hdone
    · intro hexp
      exact ⟨v, hv, hsums.1.mpr hexp⟩

/-- The outcome of a history of batches, for each key. -/
theorem add_batches_outcome (batches : List (List (CondStmt × ℕ))) (key : Key) :
    let q := addBatches ∅ batches
    let obs := observations (batches.flatten.map Prod.fst) key
    (obs ≠ [] → ∃ v, entryOf q key = some v ∧ keyOf v = key ∧
      (q.entries.map fun e => keyOf e.2.1).count key = 1 ∧
      (isDone v = true ↔ Explored obs) ∧
      (isDone v = false → obs.argmin CondStmt.speed = some v)) ∧
    (obs = [] → entryOf q key = none) ∧
    addBatches ∅ (batches.map fun b => b.filter fun c => c.1.isDesirable) = q ∧
    ∀ batches', batches'.Perm batches → (DoneIn (addBatches ∅ batches') key ↔ DoneIn q key) := by
  intro q obs
  have hq : q = addEntries ∅ batches.flatten := add_batches_flatten ∅ batches
  have hentry : entryOf q key = obs.foldl observe none := by
    rw [hq]
    exact add_entries_entry _ _ _
  have hkeyed : WellKeyed q := by
    rw [hq]
    exact add_entries_keyed _ _ empty_keyed
  refine ⟨?_, ?_, ?_, ?_⟩
  · intro hne
    obtain ⟨v, hv, hsums⟩ := observe_sums obs hne
    rw [← hentry] at hv
    obtain ⟨x, hx, hxv⟩ := Option.map_eq_some_iff.mp hv
    refine ⟨v, hv, ?_, entry_count hkeyed hv, hsums.1, hsums.2⟩
    rw [← hxv]
    exact hkeyed key x hx
  · intro hnone
    rw [hentry, hnone]
    rfl
  · rw [add_batches_flatten, ← List.filter_flatten, add_entries_desirable]
    exact hq.symm
  · intro batches' hperm
    rw [add_batches_done, add_batches_done]
    exact explored_perm (((hperm.flatten).map Prod.fst).filter _)

end Parmesan.DepotFold
