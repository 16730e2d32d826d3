import Parmesan.BranchesRace

/-!
# What a map of branches remembers

The calls of `has_new` are made one after another, in undirected mode. Each map
keeps, in one byte per index, which count buckets the traces of its status have
met there, so an answer compares a trace with all earlier ones.
-/

set_option autoImplicit false

namespace Parmesan.BranchesHistory
open Parmesan.BranchesModel Parmesan.BranchesRace

abbrev Call := BranchBuf × StatusType

def Hits (trace : BranchBuf) (i : ℕ) : Prop := i < BRANCHES_SIZE ∧ 0 < trace i

def Contains (trace : BranchBuf) (br : ℕ × Byte) : Prop :=
  Hits trace br.1 ∧ br.2 = countBucket (trace br.1)

def Seen (calls : List Call) (status : StatusType) (br : ℕ × Byte) : Prop :=
  ∃ c ∈ calls, c.2 = status ∧ Contains c.1 br

def Touched (calls : List Call) (status : StatusType) (i : ℕ) : Prop :=
  ∃ c ∈ calls, c.2 = status ∧ Hits c.1 i

def run (hasPathToTarget : ℕ → Bool) (calls : List Call) : GlobalBranches :=
  calls.foldl (fun g c => (hasNew hasPathToTarget g c.1 c.2 false).1) newGlobalBranches

open Classical in
structure Exact (calls : List Call) (trace : BranchBuf) (status : StatusType)
    (g g' : GlobalBranches) (answer : Bool × Bool × ℕ) : Prop where
  newPair : status ≠ .skip → status ≠ .error →
    (answer.1 = true ↔ ∃ br, Contains trace br ∧ ¬ Seen calls status br)
  newIndex : status ≠ .skip → status ≠ .error →
    (answer.2.1 = true ↔ ∃ i, Hits trace i ∧ ¬ Touched calls status i)
  edges : status ≠ .skip → status ≠ .error →
    answer.2.2 = ((Finset.range BRANCHES_SIZE).filter fun i => 0 < trace i).card
  ignored : status = .skip ∨ status = .error → g' = g
  density : g'.density = ((Finset.range BRANCHES_SIZE).filter
    fun i => Touched (calls ++ [(trace, status)]) .normal i).card
  path : getPath trace = (List.range BRANCHES_SIZE).filterMap (hit trace)

theorem mem_path_contains (trace : BranchBuf) (br : ℕ × Byte) :
    br ∈ getPath trace ↔ Contains trace br := by
  rw [mem_get_path, Contains, Hits, and_assoc]

theorem mem_path_hits (trace : BranchBuf) (i : ℕ) :
    i ∈ (getPath trace).map Prod.fst ↔ Hits trace i := by
  constructor
  · intro h
    obtain ⟨br, hbr, rfl⟩ := List.mem_map.mp h
    exact ((mem_path_contains trace br).mp hbr).1
  · intro h
    exact List.mem_map.mpr ⟨(i, countBucket (trace i)), (mem_path_contains trace _).mpr ⟨h, rfl⟩, rfl⟩

theorem path_length (trace : BranchBuf) :
    (getPath trace).length = ((Finset.range BRANCHES_SIZE).filter fun i => 0 < trace i).card := by
  have hset : (Finset.range BRANCHES_SIZE).filter (fun i => 0 < trace i) =
      ((getPath trace).map Prod.fst).toFinset := by
    ext i
    rw [List.mem_toFinset, mem_path_hits, Finset.mem_filter, Finset.mem_range, Hits]
  rw [hset, List.toFinset_card_of_nodup (get_path_nodup trace), List.length_map]

def stored (gb : BranchBuf) (trace : BranchBuf) : BranchBuf :=
  writeBranches gb (readBranches gb (getPath trace)).1

theorem stored_miss (gb trace : BranchBuf) {i : ℕ} (h : ¬ Hits trace i) :
    stored gb trace i = gb i := by
  apply write_branches_other
  intro hi
  exact h ((mem_path_hits trace i).mp ((read_branches_sublist _ _).subset hi))

theorem stored_hit (gb trace : BranchBuf) {i : ℕ} (h : Hits trace i) :
    stored gb trace i = gb i &&& ~~~countBucket (trace i) := by
  have hpath : (i, countBucket (trace i)) ∈ getPath trace := (mem_path_contains trace _).mpr ⟨h, rfl⟩
  by_cases hpos : 0 < countBucket (trace i) &&& gb i
  · have hmem : (i, gb i &&& ~~~countBucket (trace i)) ∈ (readBranches gb (getPath trace)).1 :=
      (mem_read_branches _ _ _).mpr ⟨_, hpath, hpos, rfl⟩
    have hn := (read_branches_sublist gb (getPath trace)).nodup (get_path_nodup trace)
    rw [stored]
    generalize readBranches gb (getPath trace) = found at hmem hn
    exact write_branches_mem found.1 gb hn _ hmem
  · have hzero : countBucket (trace i) &&& gb i = 0 := by
      by_contra hne
      exact hpos (byte_pos hne)
    have hother : stored gb trace i = gb i := by
      apply write_branches_other
      intro hi
      obtain ⟨br, hbr, rfl⟩ := List.mem_map.mp hi
      obtain ⟨b, hb, hlt, -⟩ := (mem_read_branches _ _ br).mp hbr
      obtain ⟨-, (rfl : b = countBucket (trace br.1))⟩ := (mem_path_contains trace _).mp hb
      exact hpos hlt
    rw [hother]
    apply BitVec.eq_of_getLsbD_eq
    intro k hk
    have hbit := congrArg (fun b => b.getLsbD k) hzero
    simp only [BitVec.getLsbD_and, BitVec.ofNat_eq_ofNat, BitVec.getLsbD_zero] at hbit
    rw [BitVec.getLsbD_and, BitVec.getLsbD_not]
    simp only [hk, decide_true, Bool.true_and]
    cases hc : (countBucket (trace i)).getLsbD k <;> simp_all

theorem bit_of_bucket (b : Byte) (k : ℕ) (hk : k < 8) :
    0 < BitVec.twoPow 8 k &&& b ↔ b.getLsbD k = true := by
  rw [BitVec.twoPow_and]
  by_cases h : b.getLsbD k = true
  · rw [if_pos h]
    refine iff_of_true ?_ h
    apply byte_pos
    intro h0
    have := congrArg (fun b => b.getLsbD k) h0
    simp [hk] at this
  · rw [if_neg h]
    exact iff_of_false (by decide) h

/-- A bit of the map is set as long as no trace of its status had the bucket. -/
def Remembers (calls : List Call) (status : StatusType) (gb : BranchBuf) : Prop :=
  ∀ i < BRANCHES_SIZE, ∀ k < 8,
    (gb i).getLsbD k = true ↔ ¬ Seen calls status (i, BitVec.twoPow 8 k)

theorem seen_snoc (calls : List Call) (status : StatusType) (c : Call) (br : ℕ × Byte) :
    Seen (calls ++ [c]) status br ↔ Seen calls status br ∨ c.2 = status ∧ Contains c.1 br := by
  simp only [Seen, List.mem_append, List.mem_singleton, or_and_right, exists_or, exists_eq_left]

theorem remembers_new (status : StatusType) : Remembers [] status (fun _ => 255) := by
  intro i _ k hk
  have hbit : (255 : Byte).getLsbD k = true := by
    have := BitVec.getLsbD_allOnes (v := 8) (i := k)
    rw [show (255 : Byte) = BitVec.allOnes 8 by rfl, this]
    exact decide_eq_true hk
  exact iff_of_true hbit (by simp [Seen])

theorem remembers_stored {calls : List Call} {status : StatusType} {gb : BranchBuf}
    (h : Remembers calls status gb) (trace : BranchBuf) :
    Remembers (calls ++ [(trace, status)]) status (stored gb trace) := by
  intro i hi k hk
  rw [seen_snoc, not_or, ← h i hi k hk]
  by_cases hit : Hits trace i
  · obtain ⟨j, hj, hb⟩ := count_bucket_bit hit.2
    have hcontains : Contains trace (i, BitVec.twoPow 8 k) ↔ j = k := by
      rw [Contains, hb]
      constructor
      · rintro ⟨-, heq⟩
        have := congrArg (fun b => b.getLsbD k) heq
        simp only [BitVec.getLsbD_twoPow, hk, hj, decide_true, Bool.true_and] at this
        simpa using this.symm
      · rintro rfl
        exact ⟨hit, rfl⟩
    rw [stored_hit gb trace hit, hb, hcontains, BitVec.getLsbD_and, BitVec.getLsbD_not,
      BitVec.getLsbD_twoPow]
    simp [hk, hj]
  · have hcontains : ¬ Contains trace (i, BitVec.twoPow 8 k) := fun hc => hit hc.1
    rw [stored_miss gb trace hit]
    simp [hcontains]

theorem remembers_other {calls : List Call} {status : StatusType} {gb : BranchBuf}
    (h : Remembers calls status gb) {c : Call} (hc : c.2 ≠ status) :
    Remembers (calls ++ [c]) status gb := by
  intro i hi k hk
  rw [seen_snoc, h i hi k hk]
  simp [hc]

theorem touched_seen (calls : List Call) (status : StatusType) (i : ℕ) :
    Touched calls status i ↔ ∃ k < 8, Seen calls status (i, BitVec.twoPow 8 k) := by
  constructor
  · rintro ⟨c, hc, hs, hit⟩
    obtain ⟨k, hk, hb⟩ := count_bucket_bit hit.2
    exact ⟨k, hk, c, hc, hs, hit, hb.symm⟩
  · rintro ⟨k, -, c, hc, hs, hit, -⟩
    exact ⟨c, hc, hs, hit⟩

theorem untouched_byte {calls : List Call} {status : StatusType} {gb : BranchBuf}
    (h : Remembers calls status gb) {i : ℕ} (hi : i < BRANCHES_SIZE) :
    gb i = 255 ↔ ¬ Touched calls status i := by
  rw [touched_seen, show (255 : Byte) = BitVec.allOnes 8 by rfl]
  constructor
  · rintro hgb ⟨k, hk, hseen⟩
    refine (h i hi k hk).mp ?_ hseen
    rw [hgb, BitVec.getLsbD_allOnes]
    exact decide_eq_true hk
  · intro hnone
    apply BitVec.eq_of_getLsbD_eq
    intro k hk
    rw [BitVec.getLsbD_allOnes, decide_eq_true hk]
    exact (h i hi k hk).mpr fun hseen => hnone ⟨k, hk, hseen⟩

theorem read_found {calls : List Call} {status : StatusType} {gb : BranchBuf}
    (h : Remembers calls status gb) (trace : BranchBuf) :
    (readBranches gb (getPath trace)).1 ≠ [] ↔
      ∃ br, Contains trace br ∧ ¬ Seen calls status br := by
  have hbit : ∀ br, Contains trace br → (0 < br.2 &&& gb br.1 ↔ ¬ Seen calls status br) := by
    rintro ⟨i, b⟩ ⟨hit, hb'⟩
    obtain ⟨k, hk, hb⟩ := count_bucket_bit hit.2
    rw [hb] at hb'
    simp only at hb'
    rw [hb', bit_of_bucket _ k hk]
    exact h i hit.1 k hk
  constructor
  · intro hne
    obtain ⟨br, hbr⟩ := List.exists_mem_of_ne_nil _ hne
    obtain ⟨b, hb, hpos, -⟩ := (mem_read_branches _ _ br).mp hbr
    have hc := (mem_path_contains trace _).mp hb
    exact ⟨_, hc, (hbit _ hc).mp hpos⟩
  · rintro ⟨br, hc, hnew⟩
    exact List.ne_nil_of_mem ((mem_read_branches _ _ (br.1, gb br.1 &&& ~~~br.2)).mpr
      ⟨br.2, (mem_path_contains trace br).mpr hc, (hbit br hc).mpr hnew, rfl⟩)

theorem read_edges {calls : List Call} {status : StatusType} {gb : BranchBuf}
    (h : Remembers calls status gb) (trace : BranchBuf) :
    0 < (readBranches gb (getPath trace)).2 ↔ ∃ i, Hits trace i ∧ ¬ Touched calls status i := by
  rw [num_new_edge_eq, List.length_pos_iff_exists_mem]
  apply exists_congr
  intro i
  rw [List.mem_filter, mem_path_hits, decide_eq_true_eq]
  constructor
  · rintro ⟨hit, hgb⟩
    exact ⟨hit, (untouched_byte h hit.1).mp hgb⟩
  · rintro ⟨hit, hnot⟩
    exact ⟨hit, (untouched_byte h hit.1).mpr hnot⟩

theorem new_index_new_pair {calls : List Call} {status : StatusType} {trace : BranchBuf}
    (h : ∃ i, Hits trace i ∧ ¬ Touched calls status i) :
    ∃ br, Contains trace br ∧ ¬ Seen calls status br := by
  obtain ⟨i, hit, hnot⟩ := h
  refine ⟨(i, countBucket (trace i)), ⟨hit, rfl⟩, ?_⟩
  rintro ⟨c, hc, hs, hcontains⟩
  exact hnot ⟨c, hc, hs, hcontains.1⟩

theorem marked_stored (gb trace : BranchBuf) :
    (marked (stored gb trace)).card =
      (marked gb).card+(readBranches gb (getPath trace)).2 := by
  have hnew : marked (stored gb trace) = marked gb ∪
      (((getPath trace).map Prod.fst).filter fun i => gb i = 255).toFinset := by
    ext i
    simp only [marked, Finset.mem_filter, Finset.mem_range, Finset.mem_union, List.mem_toFinset,
      List.mem_filter, mem_path_hits, decide_eq_true_eq]
    by_cases hit : Hits trace i
    · have hne : stored gb trace i ≠ 255 := by
        rw [stored_hit gb trace hit]
        intro heq
        have hnot : ~~~countBucket (trace i) = BitVec.allOnes 8 :=
          (BitVec.and_eq_allOnes_iff.mp heq).2
        apply count_bucket_ne_zero hit.2
        rw [← BitVec.not_not (b := countBucket (trace i)), hnot]
        rfl
      refine iff_of_true ⟨hit.1, hne⟩ ?_
      by_cases hgb : gb i = 255
      · exact Or.inr ⟨hit, hgb⟩
      · exact Or.inl ⟨hit.1, hgb⟩
    · rw [stored_miss gb trace hit]
      constructor
      · exact Or.inl
      · rintro (h | ⟨h, -⟩)
        · exact h
        · exact absurd h hit
  have hdisj : Disjoint (marked gb)
      (((getPath trace).map Prod.fst).filter fun i => gb i = 255).toFinset := by
    rw [Finset.disjoint_left]
    intro i hm hf
    simp only [marked, Finset.mem_filter] at hm
    simp only [List.mem_toFinset, List.mem_filter, decide_eq_true_eq] at hf
    exact hm.2 hf.2
  rw [hnew, Finset.card_union_of_disjoint hdisj,
    List.toFinset_card_of_nodup ((get_path_nodup trace).filter _), num_new_edge_eq]

structure Inv (calls : List Call) (g : GlobalBranches) : Prop where
  maps : ∀ status gb, gbMap g status = some gb → Remembers calls status gb
  density : g.density = (marked g.virgin).card

theorem marked_card_lt (gb : BranchBuf) : (marked gb).card < 2^64 := by
  calc (marked gb).card ≤ (Finset.range BRANCHES_SIZE).card := Finset.card_filter_le _ _
    _ = BRANCHES_SIZE := Finset.card_range _
    _ < 2^64 := by decide

theorem initial_remembers : Inv [] newGlobalBranches where
  maps := by
    intro status gb h
    cases status with
    | normal | timeout | crash =>
      obtain rfl := Option.some.inj h
      exact remembers_new _
    | skip | error => cases h
  density := by
    have hempty : marked newGlobalBranches.virgin = ∅ :=
      Finset.filter_eq_empty_iff.mpr fun i _ => by simp [newGlobalBranches]
    rw [hempty]
    rfl

section Step
variable {hasPathToTarget : ℕ → Bool} {g : GlobalBranches} {trace : BranchBuf}
  {status : StatusType} {gb : BranchBuf} {calls : List Call}

theorem has_new_ignored (h : gbMap g status = none) :
    hasNew hasPathToTarget g trace status false = (g, false, false, 0) := by
  rw [hasNew, h]

theorem has_new_answer (h : gbMap g status = some gb) :
    (hasNew hasPathToTarget g trace status false).2 =
      (decide ((readBranches gb (getPath trace)).1 ≠ []),
        decide ((readBranches gb (getPath trace)).1 ≠ []) &&
          decide (0 < (readBranches gb (getPath trace)).2), (getPath trace).length) := by
  simp only [hasNew, h]
  generalize readBranches gb (getPath trace) = found
  by_cases hw : found.1 = []
  · simp [hw]
  · simp [hw]

theorem gb_map_density (d : ℕ) (st : StatusType) : gbMap { g with density := d } st = gbMap g st := by
  cases st <;> rfl

theorem gb_map_set (h : gbMap g status = some gb) (gb' : BranchBuf) (st : StatusType) :
    gbMap (setGbMap g gb' status) st = if st = status then some gb' else gbMap g st := by
  cases status with
  | skip | error => cases h
  | normal | timeout | crash => cases st <;> rfl

theorem has_new_maps (h : gbMap g status = some gb) (st : StatusType) :
    gbMap (hasNew hasPathToTarget g trace status false).1 st =
      if st = status then some (stored gb trace) else gbMap g st := by
  have hkeep : ∀ c : Prop, [Decidable c] → ∀ d st,
      gbMap (if c then { g with density := d } else g) st = gbMap g st := by
    intro c _ d st
    split_ifs
    · exact gb_map_density d st
    · rfl
  unfold hasNew stored
  rw [h]
  dsimp only
  by_cases hw : (readBranches gb (getPath trace)).1 = []
  · rw [if_pos hw, hkeep, hw]
    split_ifs with hst
    · rw [hst, h, writeBranches, List.foldl_nil]
    · rfl
  · rw [if_neg hw, gb_map_set ((hkeep _ _ status).trans h), hkeep]

theorem has_new_density (h : gbMap g status = some gb) (hd : g.density < 2^64) :
    (hasNew hasPathToTarget g trace status false).1.density =
      if status = .normal then addDensity g.density (readBranches gb (getPath trace)).2
      else g.density := by
  simp only [hasNew, h]
  generalize readBranches gb (getPath trace) = found
  have hkeep : addDensity g.density 0 = g.density := Nat.mod_eq_of_lt hd
  have hset : ∀ g' : GlobalBranches, ∀ gb', (setGbMap g' gb' status).density = g'.density := by
    intro g' gb'
    cases status <;> rfl
  have hsum : (if 0 < found.2 ∧ status = .normal then
      { g with density := addDensity g.density found.2 } else g).density =
      if status = .normal then addDensity g.density found.2 else g.density := by
    by_cases hs : status = .normal
    · by_cases hz : 0 < found.2
      · simp [hs, hz]
      · have h0 : found.2 = 0 := by omega
        simp [hs, h0, hkeep]
    · simp [hs]
  by_cases hw : found.1 = []
  · rw [if_pos hw]
    exact hsum
  · rw [if_neg hw]
    exact (hset _ _).trans hsum

theorem has_new_inv (hi : Inv calls g) :
    Inv (calls ++ [(trace, status)]) (hasNew hasPathToTarget g trace status false).1 := by
  have hd : g.density < 2^64 := by
    rw [hi.density]
    exact marked_card_lt _
  cases hgb : gbMap g status with
  | none =>
    rw [has_new_ignored hgb]
    refine ⟨?_, hi.density⟩
    intro st gb' hst
    apply remembers_other (hi.maps st gb' hst)
    rintro rfl
    rw [hgb] at hst
    cases hst
  | some gb =>
    constructor
    case maps =>
      intro st gb' hst
      rw [has_new_maps hgb] at hst
      split_ifs at hst with heq
      · obtain rfl := Option.some.inj hst
        rw [heq]
        exact remembers_stored (hi.maps status gb hgb) trace
      · exact remembers_other (hi.maps st gb' hst) fun h => heq h.symm
    case density =>
      have hvirgin : some (hasNew hasPathToTarget g trace status false).1.virgin = _ :=
        has_new_maps hgb .normal
      rw [has_new_density hgb hd]
      by_cases hs : status = .normal
      · subst hs
        rw [if_pos rfl] at hvirgin ⊢
        rw [Option.some.inj hvirgin, marked_stored, hi.density, Option.some.inj hgb, addDensity,
          Nat.mod_eq_of_lt]
        rw [← marked_stored]
        exact marked_card_lt _
      · rw [if_neg fun h => hs h.symm] at hvirgin
        rw [if_neg hs, Option.some.inj hvirgin]
        exact hi.density

end Step

theorem run_inv (hasPathToTarget : ℕ → Bool) (calls : List Call) :
    Inv calls (run hasPathToTarget calls) := by
  induction calls using List.reverseRecOn with
  | nil => exact initial_remembers
  | append_singleton calls c ih =>
    rw [run, List.foldl_append]
    exact has_new_inv ih

open Classical in
theorem density_touched {calls : List Call} {g : GlobalBranches} (hi : Inv calls g) :
    g.density = ((Finset.range BRANCHES_SIZE).filter fun i => Touched calls .normal i).card := by
  have hset : marked g.virgin =
      (Finset.range BRANCHES_SIZE).filter fun i => Touched calls .normal i := by
    apply Finset.filter_congr
    intro i hr
    rw [ne_eq, untouched_byte (hi.maps .normal g.virgin rfl) (Finset.mem_range.mp hr), not_not]
  rw [hi.density, hset]

/-- Every call answers as if it remembered all earlier traces of its status. -/
theorem has_new_exact (hasPathToTarget : ℕ → Bool) (calls : List Call) (trace : BranchBuf)
    (status : StatusType) :
    Exact calls trace status (run hasPathToTarget calls)
      (hasNew hasPathToTarget (run hasPathToTarget calls) trace status false).1
      (hasNew hasPathToTarget (run hasPathToTarget calls) trace status false).2 := by
  have hi := run_inv hasPathToTarget calls
  generalize run hasPathToTarget calls = g at hi
  have hmap : status ≠ .skip → status ≠ .error → ∃ gb, gbMap g status = some gb := by
    intro hs he
    cases status with
    | normal | timeout | crash => exact ⟨_, rfl⟩
    | skip => exact absurd rfl hs
    | error => exact absurd rfl he
  constructor
  case newPair =>
    intro hs he
    obtain ⟨gb, hgb⟩ := hmap hs he
    rw [has_new_answer hgb, decide_eq_true_eq, read_found (hi.maps status gb hgb)]
  case newIndex =>
    intro hs he
    obtain ⟨gb, hgb⟩ := hmap hs he
    rw [has_new_answer hgb, Bool.and_eq_true, decide_eq_true_eq, decide_eq_true_eq,
      read_found (hi.maps status gb hgb), read_edges (hi.maps status gb hgb)]
    exact and_iff_right_of_imp new_index_new_pair
  case edges =>
    intro hs he
    obtain ⟨gb, hgb⟩ := hmap hs he
    rw [has_new_answer hgb, path_length]
  case ignored =>
    intro hs
    have hnone : gbMap g status = none := by
      rcases hs with rfl | rfl <;> rfl
    rw [has_new_ignored hnone]
  case density => exact density_touched (has_new_inv hi)
  case path => exact get_path_bytewise trace

end Parmesan.BranchesHistory
