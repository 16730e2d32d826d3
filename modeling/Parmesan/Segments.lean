import Parmesan.TagSetShape

/-!
# Lists of input segments

`fuzzer/src/mut_input/offsets.rs`. The bytes a list of segments covers do not
depend on the order of the list; a list whose segments lie apart is read and
written back as one piece per segment.
-/

set_option autoImplicit false

namespace Parmesan.Segments
open Parmesan.TagSetModel Parmesan.TagSetShape

@[simp] theorem cover_nil : cover [] = ∅ := by
  ext y
  simp [cover]

/-- The segments are not empty and lie one after the other. -/
structure Apart (tags : List TagSeg) : Prop where
  nonempty : ∀ t ∈ tags, t.start < t.stop
  disjoint : tags.Pairwise fun t u => t.stop ≤ u.start

instance (tags : List TagSeg) : Decidable (Apart tags) :=
  decidable_of_iff ((∀ t ∈ tags, t.start < t.stop) ∧ tags.Pairwise fun t u => t.stop ≤ u.start)
    ⟨fun h => ⟨h.1, h.2⟩, fun h => ⟨h.nonempty, h.disjoint⟩⟩

theorem apart_nil : Apart [] := ⟨by simp, List.Pairwise.nil⟩

theorem apart_cons (t : TagSeg) (tags : List TagSeg) :
    Apart (t::tags) ↔ t.start < t.stop ∧ (∀ u ∈ tags, t.stop ≤ u.start) ∧ Apart tags := by
  constructor
  · intro h
    obtain ⟨hfirst, hrest⟩ := List.pairwise_cons.mp h.disjoint
    exact ⟨h.nonempty t List.mem_cons_self, hfirst,
      fun u hu => h.nonempty u (List.mem_cons_of_mem t hu), hrest⟩
  · rintro ⟨ht, hfirst, hrest⟩
    exact ⟨List.forall_mem_cons.mpr ⟨ht, hrest.nonempty⟩,
      List.pairwise_cons.mpr ⟨hfirst, hrest.disjoint⟩⟩

theorem apart_concat (init : List TagSeg) (last : TagSeg) :
    Apart (init ++ [last]) ↔
      Apart init ∧ (∀ t ∈ init, t.stop ≤ last.start) ∧ last.start < last.stop := by
  constructor
  · intro h
    have hpair := List.pairwise_append.mp h.disjoint
    have hne := List.forall_mem_append.mp h.nonempty
    exact ⟨⟨hne.1, hpair.1⟩, fun t ht => hpair.2.2 t ht last List.mem_cons_self,
      hne.2 last List.mem_cons_self⟩
  · rintro ⟨hinit, hle, hlast⟩
    constructor
    · rw [List.forall_mem_append, List.forall_mem_singleton]
      exact ⟨hinit.nonempty, hlast⟩
    · apply List.pairwise_append.mpr
      refine ⟨hinit.disjoint, List.pairwise_singleton _ last, ?_⟩
      intro t ht u hu
      rw [List.mem_singleton.mp hu]
      exact hle t ht

theorem apart_increasing {tags : List TagSeg} (h : Apart tags) :
    tags.Pairwise fun t u => t.start < u.start := by
  refine List.Pairwise.imp_of_mem ?_ h.disjoint
  intro t u ht _ htu
  exact lt_of_lt_of_le (h.nonempty t ht) htu

/-- The end of the last segment is the extent that `write_to_input` takes. -/
def extent (tags : List TagSeg) : ℕ := (tags.getLast?.map TagSeg.stop).getD 0

@[simp] theorem extent_nil : extent [] = 0 := rfl

@[simp] theorem extent_cons_cons (t u : TagSeg) (tags : List TagSeg) :
    extent (t::u::tags) = extent (u::tags) := by
  simp [extent]

theorem extent_last {tags : List TagSeg} {l : TagSeg} (hl : tags.getLast? = some l) :
    extent tags = l.stop := by
  rw [extent, hl]
  rfl

@[simp] theorem extent_concat (init : List TagSeg) (last : TagSeg) :
    extent (init ++ [last]) = last.stop := extent_last List.getLast?_concat

theorem extent_lt {tags : List TagSeg} {n : ℕ} (hn : 0 < n) (h : ∀ t ∈ tags, t.stop < n) :
    extent tags < n := by
  cases hlast : tags.getLast? with
  | none =>
    rw [extent, hlast]
    exact hn
  | some l =>
    rw [extent_last hlast]
    exact h l (List.mem_of_getLast? hlast)

theorem stop_le_extent {tags : List TagSeg} (h : Apart tags) :
    ∀ t ∈ tags, t.stop ≤ extent tags := by
  induction tags with
  | nil => simp
  | cons t tags ih =>
    obtain ⟨ht, hfirst, hrest⟩ := (apart_cons t tags).mp h
    cases tags with
    | nil => simp [extent]
    | cons u tags =>
      rw [extent_cons_cons]
      intro v hv
      rcases List.mem_cons.mp hv with rfl | hv
      · have hu := ih hrest u List.mem_cons_self
        have hlt := hrest.nonempty u List.mem_cons_self
        have hle := hfirst u List.mem_cons_self
        omega
      · exact ih hrest v hv

theorem cover_lt_extent {tags : List TagSeg} (h : Apart tags) {y : ℕ} (hy : y ∈ cover tags) :
    y < extent tags := by
  obtain ⟨t, ht, -, hlt⟩ := hy
  exact lt_of_lt_of_le hlt (stop_le_extent h t ht)

/-- The loops of `merge_offsets`: of two segments that start together the longer
one is taken. -/
def mergeLoop : List TagSeg → List TagSeg → List TagSeg
  | [], v2 => v2
  | v1, [] => v1
  | o1::v1, o2::v2 =>
    if o1.start = o2.start then
      (if o2.stop ≤ o1.stop then o1 else o2) :: mergeLoop v1 v2
    else if o1.start < o2.start then o1 :: mergeLoop v1 (o2::v2)
    else o2 :: mergeLoop (o1::v1) v2
termination_by v1 v2 => v1.length+v2.length

def mergeOffsets (v1 v2 : List TagSeg) : List TagSeg :=
  if v1.length = 0 then v2 else if v2.length = 0 then v1 else mergeLoop v1 v2

theorem cover_longer {o1 o2 : TagSeg} (h : o1.start = o2.start) (v : List TagSeg) :
    cover ((if o2.stop ≤ o1.stop then o1 else o2)::v) =
      Set.Ico o1.start o1.stop ∪ Set.Ico o2.start o2.stop ∪ cover v := by
  rw [cover_cons]
  congr 1
  ext y
  split_ifs with hle
  all_goals simp only [Set.mem_Ico, Set.mem_union]
  all_goals omega

theorem cover_merge_loop (v1 v2 : List TagSeg) :
    cover (mergeLoop v1 v2) = cover v1 ∪ cover v2 := by
  fun_induction mergeLoop v1 v2 with
  | case1 v2 => simp
  | case2 v1 _ => simp
  | case3 o1 v1 o2 v2 heq ih =>
    rw [cover_longer heq, ih, cover_cons, cover_cons]
    exact Set.union_union_union_comm _ _ _ _
  | case4 o1 v1 o2 v2 _ _ ih => rw [cover_cons, ih, cover_cons o1, Set.union_assoc]
  | case5 o1 v1 o2 v2 _ _ ih => rw [cover_cons, ih, cover_cons o2, Set.union_left_comm]

/-- Merging neither loses nor adds a byte, however the segments overlap. -/
theorem cover_merge (v1 v2 : List TagSeg) : cover (mergeOffsets v1 v2) = cover v1 ∪ cover v2 := by
  unfold mergeOffsets
  split_ifs with h1 h2
  · rw [List.length_eq_zero_iff.mp h1, cover_nil, Set.empty_union]
  · rw [List.length_eq_zero_iff.mp h2, cover_nil, Set.union_empty]
  · exact cover_merge_loop v1 v2

theorem merge_offsets_eq_nil (v1 v2 : List TagSeg) :
    mergeOffsets v1 v2 = [] ↔ v1 = [] ∧ v2 = [] := by
  unfold mergeOffsets
  cases v1 with
  | nil => simp
  | cons o1 v1 =>
    cases v2 with
    | nil => simp
    | cons o2 v2 =>
      rw [if_neg (by simp), if_neg (by simp), mergeLoop]
      split_ifs <;> simp

end Parmesan.Segments
