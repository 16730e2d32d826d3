import Parmesan.TagSetShape

/-!
# The chain of runs above a label

`combine` and `find` climb the parents of a label and use a run only when it
starts before every run met so far. `Top` says which runs these are. Together
they cover what the label stands for, and no two of them overlap.
-/

set_option autoImplicit false

namespace Parmesan.TagSetChain
open Parmesan.TagSetModel Parmesan.TagSetInvariant Parmesan.TagSetInsert Parmesan.TagSetShape
open Parmesan.TagSetCanonical

variable {top : ℕ} {s : TagSet} {m : Meaning}

inductive Up (s : TagSet) : ℕ → ℕ → Prop where
  | here (l : ℕ) : Up s l l
  | step {l x : ℕ} : l ≠ 0 → Up s (node s l).parent x → Up s l x

inductive Top (s : TagSet) : ℕ → ℕ → Prop where
  | here {l : ℕ} : l ≠ 0 → Top s l l
  | step {l x : ℕ} : l ≠ 0 → (node s x).seg.start < (node s l).seg.start →
      Top s (node s l).parent x → Top s l x

def segment (s : TagSet) (l : ℕ) : Set ℕ := Set.Ico (node s l).seg.start (node s l).seg.stop

theorem up_trans {l x y : ℕ} (h : Up s l x) (h' : Up s x y) : Up s l y := by
  induction h with
  | here => exact h'
  | step h0 _ ih => exact Up.step h0 (ih h')

theorem up_root {x : ℕ} (h : Up s 0 x) : x = 0 := by
  cases h with
  | here => rfl
  | step h0 _ => exact absurd rfl h0

theorem top_up {l x : ℕ} (h : Top s l x) : Up s l x ∧ x ≠ 0 ∧
    (node s x).seg.start ≤ (node s l).seg.start := by
  induction h with
  | here h0 => exact ⟨Up.here _, h0, le_refl _⟩
  | step h0 hlt _ ih => exact ⟨Up.step h0 ih.1, ih.2.1, le_of_lt hlt⟩

theorem not_top_root {x : ℕ} : ¬ Top s 0 x := by
  intro h
  cases h with
  | here h0 => exact h0 rfl
  | step h0 _ _ => exact h0 rfl

theorem up_spec (h : Inv top s m) {l x : ℕ} (hu : Up s l x) (hl : IsLabel s m l) :
    IsLabel s m x ∧ (node s x).seg.stop ≤ (node s l).seg.stop ∧
      m.bits x = m.bits l ∩ Set.Iio (node s x).seg.stop := by
  induction hu with
  | here l =>
    refine ⟨hl, le_refl _, ?_⟩
    ext y
    exact ⟨fun hy => ⟨hy, bits_lt h l hl.1 y hy⟩, fun hy => hy.1⟩
  | step h0 _ ih =>
    have he := parent_edge h hl h0
    obtain ⟨hx, hstop, hbits⟩ := ih he.label
    have := he.stop
    refine ⟨hx, by omega, ?_⟩
    rw [hbits, he.below, Set.inter_assoc, Set.Iio_inter_Iio, min_eq_right hstop]

theorem up_subset (h : Inv top s m) {l x : ℕ} (hu : Up s l x) (hl : IsLabel s m l) :
    m.bits x ⊆ m.bits l := by
  rw [(up_spec h hu hl).2.2]
  exact Set.inter_subset_left

theorem segment_subset (h : Inv top s m) {l : ℕ} (hl : IsLabel s m l) : segment s l ⊆ m.bits l := by
  by_cases h0 : l = 0
  · subst h0
    intro y hy
    have := hy.2
    rw [h.root_stop] at this
    omega
  · rw [(parent_edge h hl h0).bits]
    exact Set.subset_union_right

theorem up_segment (h : Inv top s m) {l x : ℕ} (hu : Up s l x) (hl : IsLabel s m l) :
    segment s x ⊆ m.bits l :=
  (segment_subset h (up_spec h hu hl).1).trans (up_subset h hu hl)

/-- The part of a run of the climb that lies below the end of a node further up
belongs to that node. -/
theorem up_covers (h : Inv top s m) {l x y : ℕ} (hu : Up s l x) (hl : IsLabel s m l)
    (hy : (node s l).seg.start ≤ y) (hyx : y < (node s x).seg.stop) : y ∈ m.bits x := by
  obtain ⟨-, hstop, hbits⟩ := up_spec h hu hl
  rw [hbits]
  exact ⟨segment_subset h hl ⟨hy, by omega⟩, hyx⟩

theorem up_first (h : Inv top s m) {l z : ℕ} (hu : Up s l z) (hl : IsLabel s m l) (hz : z ≠ 0)
    (hp : (node s z).parent = 0) : ∀ y ∈ m.bits l, (node s z).seg.start ≤ y := by
  induction hu with
  | here l =>
    intro y hy
    rw [(root_label_bits h hl hz hp).2] at hy
    exact ge_of_eq hy
  | @step l z h0 hup ih =>
    have he := parent_edge h hl h0
    have hz' := up_spec h hup he.label
    have hst := (parent_edge h hz'.1 hz).start
    intro y hy
    by_cases hlt : y < (node s (node s l).parent).seg.stop
    · exact ih he.label hz hp y (by rw [he.below]; exact ⟨hy, hlt⟩)
    · have := hz'.2.1
      omega

theorem top_exists {l c t : ℕ} (hu : Up s l c) (hc : c ≠ 0) (ht : (node s c).seg.start < t) :
    ∃ x, Top s l x ∧ (node s x).seg.start < t := by
  induction hu generalizing t with
  | here l => exact ⟨l, Top.here hc, ht⟩
  | @step l c h0 hup ih =>
    by_cases hlt : (node s l).seg.start < t
    · exact ⟨l, Top.here h0, hlt⟩
    · obtain ⟨x, hx, hxt⟩ := ih hc ht
      exact ⟨x, Top.step h0 (by omega) hx, hxt⟩

theorem top_cover (h : Inv top s m) {y : ℕ} (k : ℕ) : ∀ l, IsLabel s m l →
    (node s l).seg.stop ≤ k → y ∈ m.bits l → ∃ x, Top s l x ∧ y ∈ segment s x := by
  induction k with
  | zero =>
    intro l hl hk hy
    have := bits_lt h l hl.1 y hy
    omega
  | succ k ih =>
    intro l hl hk hy
    have h0 : l ≠ 0 := by
      rintro rfl
      rw [h.root_bits] at hy
      exact hy
    have he := parent_edge h hl h0
    have hstop := he.stop
    rw [he.bits] at hy
    rcases hy with hy | hy
    · obtain ⟨x, hx, hyx⟩ := ih _ he.label (by omega) hy
      by_cases hlt : (node s x).seg.start < (node s l).seg.start
      · exact ⟨x, Top.step h0 hlt hx, hyx⟩
      · have := (up_spec h (top_up hx).1 he.label).2.1
        exact ⟨l, Top.here h0, by have := hyx.1; omega, by have := hyx.2; omega⟩
    · exact ⟨l, Top.here h0, hy⟩

/-- What a label stands for is what the runs used on its climb cover. -/
theorem bits_eq_top (h : Inv top s m) {l : ℕ} (hl : IsLabel s m l) (y : ℕ) :
    y ∈ m.bits l ↔ ∃ x, Top s l x ∧ y ∈ segment s x := by
  constructor
  · exact top_cover h _ l hl (le_refl _)
  · rintro ⟨x, hx, hy⟩
    exact up_segment h (top_up hx).1 hl hy

/-- A run above `l` that starts before `l` also ends before it: otherwise the
offset before the start of `l` would be a one of the same block. -/
theorem up_separate (h : Inv top s m) {l x : ℕ} (hl : IsLabel s m l) (h0 : l ≠ 0)
    (hu : Up s (node s l).parent x) (hlt : (node s x).seg.start < (node s l).seg.start) :
    (node s x).seg.stop ≤ (node s l).seg.start := by
  by_contra hgt
  have he := parent_edge h hl h0
  have hstop := (up_spec h hu he.label).2.1
  have hone : (node s l).seg.start-1 ∈ m.bits l :=
    up_segment h (Up.step h0 hu) hl ⟨by omega, by omega⟩
  exact he.block (by omega) _ hone (by omega)

theorem top_above (h : Inv top s m) {l b x : ℕ} (hb : Top s l b) (hu : Up s l x)
    (hl : IsLabel s m l) (hlt : (node s x).seg.start < (node s b).seg.start) :
    (node s x).seg.stop ≤ (node s b).seg.start := by
  induction hb with
  | here h0 =>
    cases hu with
    | here => omega
    | step _ hu => exact up_separate h hl h0 hu hlt
  | step h0 hlb hb ih =>
    cases hu with
    | here => omega
    | step _ hu => exact ih hu (parent_edge h hl h0).label hlt

theorem top_start_inj {l a b : ℕ} (ha : Top s l a) (hb : Top s l b)
    (hab : (node s a).seg.start = (node s b).seg.start) : a = b := by
  induction ha with
  | here h0 =>
    cases hb with
    | here => rfl
    | step _ hlt _ => omega
  | step h0 hlt ha ih =>
    cases hb with
    | here => omega
    | step _ _ hb => exact ih hb hab

theorem top_separate (h : Inv top s m) {l a b : ℕ} (ha : Top s l a) (hb : Top s l b)
    (hl : IsLabel s m l) (hne : a ≠ b) :
    (node s b).seg.stop ≤ (node s a).seg.start ∨ (node s a).seg.stop ≤ (node s b).seg.start := by
  rcases Nat.lt_trichotomy (node s a).seg.start (node s b).seg.start with hlt | heq | hgt
  · exact Or.inr (top_above h hb (top_up ha).1 hl hlt)
  · exact absurd (top_start_inj ha hb heq) hne
  · exact Or.inl (top_above h ha (top_up hb).1 hl hgt)

/-- The runs used on the climb from `l`, below `lastBegin`. This is `find`
without the splitting of marked runs. -/
def shownLoop : ℕ → TagSet → ℕ → ℕ → List TagSeg
  | 0, _, _, _ => []
  | fuel+1, s, lb, lastBegin =>
    if lb = 0 then []
    else if (node s lb).seg.start < lastBegin then
      (node s lb).seg :: shownLoop fuel s (node s lb).parent (node s lb).seg.start
    else shownLoop fuel s (node s lb).parent lastBegin

def shown (s : TagSet) (lb : ℕ) : List TagSeg := shownLoop (node s lb).seg.stop s lb MAX_LB

theorem shown_loop_mem (h : Inv top s m) (fuel : ℕ) (t : TagSeg) : ∀ l last, IsLabel s m l →
    (node s l).seg.stop ≤ fuel → (t ∈ shownLoop fuel s l last ↔
      ∃ x, Top s l x ∧ (node s x).seg.start < last ∧ (node s x).seg = t) := by
  induction fuel with
  | zero =>
    intro l last hl hfuel
    have h0 := root_of_stop_zero h hl.1 (by omega)
    subst h0
    simp only [shownLoop, List.not_mem_nil, false_iff]
    rintro ⟨x, hx, -⟩
    exact not_top_root hx
  | succ fuel ih =>
    intro l last hl hfuel
    rw [shownLoop]
    by_cases h0 : l = 0
    · subst h0
      simp only [if_true, List.not_mem_nil, false_iff]
      rintro ⟨x, hx, -⟩
      exact not_top_root hx
    rw [if_neg h0]
    have he := parent_edge h hl h0
    have hstop := he.stop
    have hrest := fun last => ih _ last he.label (show _ ≤ fuel by omega)
    split_ifs with hlt
    · rw [List.mem_cons, hrest]
      constructor
      · rintro (rfl | ⟨x, hx, hxl, hxt⟩)
        · exact ⟨l, Top.here h0, hlt, rfl⟩
        · exact ⟨x, Top.step h0 hxl hx, by omega, hxt⟩
      · rintro ⟨x, hx, hxl, hxt⟩
        cases hx with
        | here => exact Or.inl hxt.symm
        | step _ hxl' hx => exact Or.inr ⟨x, hx, hxl', hxt⟩
    · rw [hrest]
      constructor
      · rintro ⟨x, hx, hxl, hxt⟩
        exact ⟨x, Top.step h0 (by omega) hx, hxl, hxt⟩
      · rintro ⟨x, hx, hxl, hxt⟩
        cases hx with
        | here => exact absurd hxl hlt
        | step _ _ hx => exact ⟨x, hx, hxl, hxt⟩

theorem shown_mem (h : Inv MAX_LB s m) {l : ℕ} (hl : IsLabel s m l) (t : TagSeg) :
    t ∈ shown s l ↔ ∃ x, Top s l x ∧ (node s x).seg = t := by
  rw [shown, shown_loop_mem h _ t l MAX_LB hl (le_refl _)]
  constructor
  · rintro ⟨x, hx, -, hxt⟩
    exact ⟨x, hx, hxt⟩
  · rintro ⟨x, hx, hxt⟩
    obtain ⟨hu, h0, -⟩ := top_up hx
    have hlx := (up_spec h hu hl).1
    have hst := (parent_edge h hlx h0).start
    have hlim := h.limit x hlx.1
    exact ⟨x, hx, by omega, hxt⟩

theorem cover_shown (h : Inv MAX_LB s m) {l : ℕ} (hl : IsLabel s m l) :
    cover (shown s l) = m.bits l := by
  ext y
  rw [bits_eq_top h hl]
  constructor
  · rintro ⟨t, ht, hy⟩
    obtain ⟨x, hx, rfl⟩ := (shown_mem h hl t).mp ht
    exact ⟨x, hx, hy⟩
  · rintro ⟨x, hx, hy⟩
    exact ⟨_, (shown_mem h hl _).mpr ⟨x, hx, rfl⟩, hy⟩

end Parmesan.TagSetChain
