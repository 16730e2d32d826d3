import Parmesan.TagSetChain

/-!
# The union of two labels

`Walk` is the climb of `combine` without its fuel. The runs it puts on the
stack and the node it stops at decide the result. A run is lost when the other
climb has just stacked a run with the same `start` and goes on below it:
`Clash` says when that costs an offset.
-/

set_option autoImplicit false

namespace Parmesan.TagSetCombine
open Parmesan.TagSetModel Parmesan.TagSetInvariant Parmesan.TagSetInsert Parmesan.TagSetShape
open Parmesan.TagSetCanonical Parmesan.TagSetChain Parmesan.Outcome

variable {top : ℕ} {s : TagSet} {m : Meaning}

def stacked (s : TagSet) (l last : ℕ) : List ℕ := if (node s l).seg.start < last then [l] else []

/-- `Walk s l1 l2 last base st`: the climb from `l1` and `l2` stops at `base`
after stacking `st`. -/
inductive Walk (s : TagSet) : ℕ → ℕ → ℕ → ℕ → List ℕ → Prop where
  | root (l2 last : ℕ) : Walk s 0 l2 last l2 []
  | meet (l last : ℕ) : Walk s l l last l []
  | second {l1 l2 last base : ℕ} {st : List ℕ} : l1 ≠ 0 →
      (node s l1).seg.start < (node s l2).seg.start →
      Walk s l1 (node s l2).parent (min last (node s l2).seg.start) base st →
      Walk s l1 l2 last base (st ++ stacked s l2 last)
  | first {l1 l2 last base : ℕ} {st : List ℕ} : l1 ≠ 0 →
      (node s l2).seg.start ≤ (node s l1).seg.start →
      Walk s (node s l1).parent l2 (min last (node s l1).seg.start) base st →
      Walk s l1 l2 last base (st ++ stacked s l1 last)

theorem mem_stacked {l last x : ℕ} :
    x ∈ stacked s l last ↔ x = l ∧ (node s l).seg.start < last := by
  unfold stacked
  split_ifs with hlt <;> simp [hlt]

theorem start_pos_ne (h : Inv top s m) {l k : ℕ} (hlt : k < (node s l).seg.start) : l ≠ 0 := by
  rintro rfl
  rw [h.root_start] at hlt
  omega

theorem combine_walk_spec (h : Inv top s m) (fuel : ℕ) : ∀ l1 l2 st last, IsLabel s m l1 →
    IsLabel s m l2 → (node s l1).seg.stop+(node s l2).seg.stop ≤ fuel →
    ∃ l1' base st', combineWalk fuel s l1 l2 st last = .ok (l1', base, st' ++ st) ∧
      (l1' = 0 ∨ l1' = base) ∧ Walk s l1 l2 last base st' := by
  induction fuel with
  | zero =>
    intro l1 l2 st last hl1 hl2 hfuel
    have h0 := root_of_stop_zero h hl1.1 (by omega)
    subst h0
    exact ⟨0, l2, [], by simp [combineWalk], Or.inl rfl, Walk.root l2 last⟩
  | succ fuel ih =>
    intro l1 l2 st last hl1 hl2 hfuel
    rw [combineWalk]
    by_cases h0 : l1 = 0
    · subst h0
      exact ⟨0, l2, [], by simp, Or.inl rfl, Walk.root l2 last⟩
    by_cases hm : l1 = l2
    · subst hm
      exact ⟨l1, l1, [], by simp, Or.inr rfl, Walk.meet l1 last⟩
    rw [if_neg (by tauto)]
    have he1 := parent_edge h hl1 h0
    have hs1 := he1.stop
    by_cases hb : (node s l1).seg.start < (node s l2).seg.start
    · have he2 := parent_edge h hl2 (start_pos_ne h hb)
      have hs2 := he2.stop
      simp only [hb, if_true]
      by_cases hlast : (node s l2).seg.start < last
      · obtain ⟨l1', base, st', hw, hend, hwalk⟩ := ih l1 (node s l2).parent (l2::st)
          (node s l2).seg.start hl1 he2.label (by omega)
        rw [← min_eq_right (le_of_lt hlast)] at hwalk
        have hall := Walk.second h0 hb hwalk
        rw [stacked, if_pos hlast] at hall
        exact ⟨l1', base, st' ++ [l2], by rw [if_pos hlast, hw]; simp, hend, hall⟩
      · obtain ⟨l1', base, st', hw, hend, hwalk⟩ := ih l1 (node s l2).parent st last hl1
          he2.label (by omega)
        rw [← min_eq_left (Nat.le_of_not_lt hlast)] at hwalk
        have hall := Walk.second h0 hb hwalk
        rw [stacked, if_neg hlast] at hall
        exact ⟨l1', base, st' ++ [], by rw [if_neg hlast, hw]; simp, hend, hall⟩
    · simp only [hb, if_false]
      by_cases hlast : (node s l1).seg.start < last
      · obtain ⟨l1', base, st', hw, hend, hwalk⟩ := ih (node s l1).parent l2 (l1::st)
          (node s l1).seg.start he1.label hl2 (by omega)
        rw [← min_eq_right (le_of_lt hlast)] at hwalk
        have hall := Walk.first h0 (Nat.le_of_not_lt hb) hwalk
        rw [stacked, if_pos hlast] at hall
        exact ⟨l1', base, st' ++ [l1], by rw [if_pos hlast, hw]; simp, hend, hall⟩
      · obtain ⟨l1', base, st', hw, hend, hwalk⟩ := ih (node s l1).parent l2 st last he1.label
          hl2 (by omega)
        rw [← min_eq_left (Nat.le_of_not_lt hlast)] at hwalk
        have hall := Walk.first h0 (Nat.le_of_not_lt hb) hwalk
        rw [stacked, if_neg hlast] at hall
        exact ⟨l1', base, st' ++ [], by rw [if_neg hlast, hw]; simp, hend, hall⟩

theorem walk_base (h : Inv top s m) {l1 l2 last base : ℕ} {st : List ℕ}
    (hw : Walk s l1 l2 last base st) : Up s l2 base := by
  induction hw with
  | root l2 => exact Up.here l2
  | meet l => exact Up.here l
  | second _ hb _ ih => exact Up.step (start_pos_ne h hb) ih
  | first _ _ _ ih => exact ih

theorem walk_mem (h : Inv top s m) {l1 l2 last base x : ℕ} {st : List ℕ}
    (hw : Walk s l1 l2 last base st) (hx : x ∈ st) :
    (node s x).seg.start < last ∧ x ≠ 0 ∧ (Up s l1 x ∨ Top s l2 x) := by
  induction hw with
  | root l2 => simp at hx
  | meet l => simp at hx
  | second h0 hb hw ih =>
    have hl2 := start_pos_ne h hb
    rcases List.mem_append.mp hx with hx | hx
    · obtain ⟨hlt, hx0, hup | htop⟩ := ih hx
      · exact ⟨by omega, hx0, Or.inl hup⟩
      · exact ⟨by omega, hx0, Or.inr (Top.step hl2 (by omega) htop)⟩
    · obtain ⟨rfl, hlt⟩ := mem_stacked.mp hx
      exact ⟨hlt, hl2, Or.inr (Top.here hl2)⟩
  | first h0 hb hw ih =>
    rcases List.mem_append.mp hx with hx | hx
    · obtain ⟨hlt, hx0, hup | htop⟩ := ih hx
      · exact ⟨by omega, hx0, Or.inl (Up.step h0 hup)⟩
      · exact ⟨by omega, hx0, Or.inr htop⟩
    · obtain ⟨rfl, hlt⟩ := mem_stacked.mp hx
      exact ⟨hlt, h0, Or.inl (Up.here x)⟩

theorem walk_label (h : Inv top s m) {l1 l2 last base x : ℕ} {st : List ℕ}
    (hw : Walk s l1 l2 last base st) (hl1 : IsLabel s m l1) (hl2 : IsLabel s m l2)
    (hx : x ∈ st) : IsLabel s m x := by
  rcases (walk_mem h hw hx).2.2 with hup | htop
  · exact (up_spec h hup hl1).1
  · exact (up_spec h (top_up htop).1 hl2).1

theorem walk_sorted (h : Inv top s m) {l1 l2 last base : ℕ} {st : List ℕ}
    (hw : Walk s l1 l2 last base st) :
    st.Pairwise fun x y => (node s x).seg.start < (node s y).seg.start := by
  induction hw with
  | root l2 => exact List.Pairwise.nil
  | meet l => exact List.Pairwise.nil
  | second _ _ hw ih | first _ _ hw ih =>
    refine List.pairwise_append.mpr ⟨ih, ?_, ?_⟩
    · unfold stacked
      split_ifs <;> simp
    · intro x hx y hy
      obtain ⟨rfl, -⟩ := mem_stacked.mp hy
      have := (walk_mem h hw hx).1
      omega

theorem walk_overlap (h : Inv top s m) {l1 l2 last base x : ℕ} {st : List ℕ}
    (hw : Walk s l1 l2 last base st) (hl2 : IsLabel s m l2) (hx : x ∈ st) :
    ∀ y, (node s x).seg.start ≤ y → y < (node s base).seg.stop → y ∈ m.bits base := by
  induction hw with
  | root l2 => simp at hx
  | meet l => simp at hx
  | second h0 hb hw ih =>
    have hn := start_pos_ne h hb
    have he := parent_edge h hl2 hn
    rcases List.mem_append.mp hx with hx | hx
    · exact ih he.label hx
    · obtain ⟨rfl, -⟩ := mem_stacked.mp hx
      intro y hy hlt
      exact up_covers h (Up.step hn (walk_base h hw)) hl2 hy hlt
  | first h0 hb hw ih =>
    rcases List.mem_append.mp hx with hx | hx
    · exact ih hl2 hx
    · obtain ⟨rfl, -⟩ := mem_stacked.mp hx
      intro y hy hlt
      exact up_covers h (walk_base h hw) hl2 (by omega) hlt

theorem stacked_reach {l last x : ℕ} {st : List ℕ}
    (hx : x = l ∨ min last (node s l).seg.start ≤ (node s x).seg.start ∨
      ∃ y ∈ st, (node s y).seg.start ≤ (node s x).seg.start) :
    last ≤ (node s x).seg.start ∨
      ∃ y ∈ st ++ stacked s l last, (node s y).seg.start ≤ (node s x).seg.start := by
  have hstack : (node s l).seg.start < last → l ∈ st ++ stacked s l last := fun hlt =>
    List.mem_append.mpr (Or.inr (mem_stacked.mpr ⟨rfl, hlt⟩))
  by_cases hlt : (node s l).seg.start < last
  · rcases hx with rfl | hx | ⟨y, hy, hyx⟩
    · exact Or.inr ⟨x, hstack hlt, le_refl _⟩
    · exact Or.inr ⟨l, hstack hlt, by omega⟩
    · exact Or.inr ⟨y, List.mem_append.mpr (Or.inl hy), hyx⟩
  · rcases hx with rfl | hx | ⟨y, hy, hyx⟩
    · exact Or.inl (by omega)
    · exact Or.inl (by omega)
    · exact Or.inr ⟨y, List.mem_append.mpr (Or.inl hy), hyx⟩

theorem walk_reach {l1 l2 last base x : ℕ} {st : List ℕ}
    (hw : Walk s l1 l2 last base st) (h0 : base = 0) (hx : Up s l1 x ∨ Up s l2 x) (hx0 : x ≠ 0) :
    last ≤ (node s x).seg.start ∨ ∃ y ∈ st, (node s y).seg.start ≤ (node s x).seg.start := by
  induction hw with
  | root l2 | meet l =>
    subst h0
    rcases hx with hx | hx <;> exact absurd (up_root hx) hx0
  | second _ hb hw ih =>
    apply stacked_reach
    rcases hx with hx | hx
    · exact Or.inr (ih h0 (Or.inl hx))
    · cases hx with
      | here => exact Or.inl rfl
      | step _ hx => exact Or.inr (ih h0 (Or.inr hx))
  | first _ _ hw ih =>
    apply stacked_reach
    rcases hx with hx | hx
    · cases hx with
      | here => exact Or.inl rfl
      | step _ hx => exact Or.inr (ih h0 (Or.inl hx))
    · exact Or.inr (ih h0 (Or.inr hx))

theorem walk_keeps_first (h : Inv top s m) {l1 l2 last base x : ℕ} {st : List ℕ}
    (hw : Walk s l1 l2 last base st) (hl1 : IsLabel s m l1) (hx : Top s l1 x)
    (hlast : (node s x).seg.start < last) : x ∈ st ∨ segment s x ⊆ m.bits base := by
  induction hw with
  | root l2 => exact absurd hx not_top_root
  | meet l => exact Or.inr (up_segment h (top_up hx).1 hl1)
  | second _ hb hw ih =>
    have hle := (top_up hx).2.2
    rcases ih hl1 hx (by omega) with hst | hbase
    · exact Or.inl (List.mem_append.mpr (Or.inl hst))
    · exact Or.inr hbase
  | first h0 hb hw ih =>
    cases hx with
    | here => exact Or.inl (List.mem_append.mpr (Or.inr (mem_stacked.mpr ⟨rfl, hlast⟩)))
    | step _ hlt hx =>
      rcases ih (parent_edge h hl1 h0).label hx (by omega) with hst | hbase
      · exact Or.inl (List.mem_append.mpr (Or.inl hst))
      · exact Or.inr hbase

/-- No run of the first climb starts before `l2`, so the climb ends at `l2`. -/
theorem walk_stays {l1 l2 last base : ℕ} {st : List ℕ} (hw : Walk s l1 l2 last base st)
    (hge : ∀ c, Up s l1 c → c ≠ 0 → (node s l2).seg.start ≤ (node s c).seg.start) : base = l2 := by
  induction hw with
  | root l2 => rfl
  | meet l => rfl
  | second h0 hb hw ih =>
    have := hge _ (Up.here _) h0
    omega
  | first h0 hb hw ih => exact ih fun c hc hc0 => hge c (Up.step h0 hc) hc0

/-- The run `b` of the second climb meets one of the first with the same
`start`, which is not the first one of its climb. -/
def Tied (s : TagSet) (l1 b : ℕ) : Prop :=
  ∃ a c, Top s l1 a ∧ Top s l1 c ∧ (node s c).seg.start < (node s a).seg.start ∧
    (node s a).seg.start = (node s b).seg.start

theorem tied_up {l1 b : ℕ} (h0 : l1 ≠ 0) {t : ℕ} (ht : t ≤ (node s l1).seg.start)
    (hb : (node s b).seg.start < t) (h : Tied s (node s l1).parent b) : Tied s l1 b := by
  obtain ⟨a, c, ha, hc, hca, hab⟩ := h
  exact ⟨a, c, Top.step h0 (by omega) ha, Top.step h0 (by omega) hc, hca, hab⟩

theorem walk_keeps_second (h : Inv top s m) {l1 l2 last base x : ℕ} {st : List ℕ}
    (hw : Walk s l1 l2 last base st) (hl2 : IsLabel s m l2) (hx : Top s l2 x)
    (hlast : (node s x).seg.start < last) (hfree : ¬ Tied s l1 x) :
    x ∈ st ∨ segment s x ⊆ m.bits base := by
  induction hw with
  | root l2 => exact Or.inr (up_segment h (top_up hx).1 hl2)
  | meet l => exact Or.inr (up_segment h (top_up hx).1 hl2)
  | second h0 hb hw ih =>
    cases hx with
    | here => exact Or.inl (List.mem_append.mpr (Or.inr (mem_stacked.mpr ⟨rfl, hlast⟩)))
    | step hn hlt hx =>
      rcases ih (parent_edge h hl2 hn).label hx (by omega) hfree with hst | hbase
      · exact Or.inl (List.mem_append.mpr (Or.inl hst))
      · exact Or.inr hbase
  | @first l1 l2 last base st h0 hb hw ih =>
    have hle := (top_up hx).2.2
    by_cases hlt : (node s x).seg.start < (node s l1).seg.start
    · rcases ih hl2 hx (by omega) (fun ht => hfree (tied_up h0 (le_refl _) hlt ht)) with hst | hbase
      · exact Or.inl (List.mem_append.mpr (Or.inl hst))
      · exact Or.inr hbase
    · have hxl : x = l2 := by
        cases hx with
        | here => rfl
        | step _ hlt _ => omega
      subst hxl
      right
      rw [walk_stays hw]
      · exact segment_subset h hl2
      · intro c hc hc0
        by_contra hcx
        obtain ⟨w, hw, hwx⟩ := top_exists hc hc0 (Nat.lt_of_not_le hcx)
        exact hfree ⟨l1, w, Top.here h0, Top.step h0 (by omega) hw, by omega, by omega⟩

theorem walk_drops (h : Inv top s m) {l1 l2 last base a b : ℕ} {st : List ℕ}
    (hw : Walk s l1 l2 last base st) (ha : Top s l1 a) (hb : Top s l2 b)
    (hab : (node s a).seg.start = (node s b).seg.start) (hn : ¬ Up s l1 b) : b ∉ st := by
  induction hw with
  | root l2 => simp
  | meet l => simp
  | second h0 hlt hw ih =>
    have hle := (top_up ha).2.2
    cases hb with
    | here => omega
    | step hn0 hlt' hb =>
      intro hmem
      rcases List.mem_append.mp hmem with hmem | hmem
      · exact ih ha hb hn hmem
      · obtain ⟨rfl, -⟩ := mem_stacked.mp hmem
        omega
  | first h0 hle hw ih =>
    intro hmem
    rcases List.mem_append.mp hmem with hst | hmem
    · cases ha with
      | here =>
        have := (walk_mem h hw hst).1
        omega
      | step _ hlt ha => exact ih ha hb (fun hu => hn (Up.step h0 hu)) hst
    · obtain ⟨rfl, -⟩ := mem_stacked.mp hmem
      exact hn (Up.here b)

theorem walk_low (h : Inv top s m) {l1 l2 last base : ℕ} {st : List ℕ}
    (hw : Walk s l1 l2 last base st) (hl1 : IsLabel s m l1) (h0 : l1 ≠ 0) : Up s l1 base ∨
      ∃ z, Up s l1 z ∧ z ≠ 0 ∧ (node s z).parent = 0 ∧
        (node s base).seg.start ≤ (node s z).seg.start := by
  induction hw with
  | root l2 => exact absurd rfl h0
  | meet l => exact Or.inl (Up.here l)
  | second _ hb hw ih => exact ih hl1 h0
  | @first l1 l2 last base st _ hb hw ih =>
    by_cases hp : (node s l1).parent = 0
    · rw [hp] at hw
      have hbase := walk_stays hw fun c hc hc0 => absurd (up_root hc) hc0
      exact Or.inr ⟨l1, Up.here l1, h0, hp, by rw [hbase]; exact hb⟩
    · rcases ih (parent_edge h hl1 h0).label hp with hu | ⟨z, hu, hz⟩
      · exact Or.inl (Up.step h0 hu)
      · exact Or.inr ⟨z, Up.step h0 hu, hz⟩

/-- A path with no offset below `b` and an offset at `b` leaves the end of the
zeros below `b` on the side of the ones. -/
theorem first_run_exists (h : Inv top s m) {x z b : ℕ} (hx : x < size s) (hz : z < size s)
    (hstop : (node s z).seg.stop = b) (hbits : m.bits z = ∅) (hb : b ∈ m.bits x)
    (hmin : ∀ y ∈ m.bits x, b ≤ y) : (node s z).right ≠ 0 := by
  have hpre : Precedes s m z x := by
    refine ⟨hz, by rw [hstop]; exact bits_lt h x hx b hb, ?_⟩
    rw [hbits, hstop]
    symm
    apply Set.eq_empty_of_forall_notMem
    rintro y ⟨hy, hlt⟩
    exact absurd (hmin y hy) (Nat.not_le.mpr hlt)
  obtain ⟨c, ⟨hc0, ⟨-, hr⟩ | ⟨hn, -⟩⟩, -⟩ := toward_exists h hx hpre
  · rw [hr]
    exact hc0
  · rw [hstop] at hn
    exact absurd hb hn

theorem union_covered {bits : Set ℕ} {b mid stop : ℕ} (h : ∀ y, b ≤ y → y < mid → y ∈ bits)
    (hb : b ≤ mid) : bits ∪ Set.Ico mid stop = bits ∪ Set.Ico b stop := by
  ext y
  have hy := h y
  by_cases hmem : y ∈ bits
  · simp [hmem]
  · have hout : b ≤ y → mid ≤ y := fun hle => Nat.le_of_not_lt fun hlt => hmem (hy hle hlt)
    simp only [Set.mem_union, Set.mem_Ico, hmem, false_or]
    omega

/-- One run `x` of the stack is added to `cur`. The run started at `b` when it
was stacked; the insertions since then may have moved its `start`. -/
theorem combine_step_spec (h : Inv top s m) {cur x b : ℕ} (hcur : IsLabel s m cur)
    (hx : IsLabel s m x) (hx0 : x ≠ 0)
    (hover : ∀ y, b ≤ y → y < (node s cur).seg.stop → y ∈ m.bits cur)
    (hmoved : (node s x).seg.start = b ∨
      (node s x).seg.start ≤ (node s cur).seg.stop ∧ b ≤ (node s cur).seg.stop)
    (hfirst : cur = 0 → ∀ y ∈ m.bits x, (node s x).seg.start ≤ y) :
    Ensures atLimit (combineStep s cur x) fun r => ∃ m',
      Inserted top s m (max (node s cur).seg.stop (node s x).seg.stop)
        (m.bits cur ∪ Set.Ico b (node s x).seg.stop) r.1 m' r.2 ∧ IsLabel r.1 m' r.2 ∧
      (UnitRuns s m → UnitRuns r.1 m') := by
  have hst := (parent_edge h hx hx0).start
  have hlim := h.limit x hx.1
  have hmem : (node s x).seg.start ∈ m.bits x := segment_subset h hx ⟨le_refl _, hst⟩
  have hunit : UnitRuns s m → (node s x).seg.stop = (node s x).seg.start+1 :=
    fun hu => hu x hx.1 (by simpa [hx0] using hx.2)
  simp only [combineStep]
  split_ifs with hle hlt
  · have hfr : FirstRun s m cur ((node s x).seg.stop-(node s cur).seg.stop) := by
      intro hlast
      rw [label_last_one h hcur] at hlast
      subst hlast
      rw [h.root_stop] at hle
      exact Or.inr (first_run_exists h hx.1 h.size_pos (by rw [h.root_stop]; omega)
        h.root_bits hmem (hfirst rfl))
    have hins := insert_ones_label h hcur (by omega) hfr (by omega)
    rw [show (node s cur).seg.stop+((node s x).seg.stop-(node s cur).seg.stop) =
      (node s x).seg.stop by omega, union_covered hover (by omega)] at hins
    rw [max_eq_right hlt.le]
    refine ensures_mono hins ?_
    rintro ⟨s', r⟩ ⟨m', hins, hone, hruns⟩
    exact ⟨m', hins, ⟨hins.lt, Or.inr hone⟩, fun hu => hruns (by have := hunit hu; omega) hu⟩
  · have hend := Nat.le_of_not_lt hlt
    rw [← union_covered hover (by omega), Set.Ico_eq_empty_of_le hend, Set.union_empty,
      max_eq_left hend]
    exact ensures_ok _ _ _ ⟨m, inserted_self h hcur.1, hcur, fun hu => hu⟩
  · have hb : (node s x).seg.start = b := by omega
    have hins := insert_gap_label ((node s x).seg.start-(node s cur).seg.stop)
      (n := (node s x).seg.stop-(node s x).seg.start) h hcur (by omega) ?_ (by omega)
    · rw [show (node s cur).seg.stop+((node s x).seg.start-(node s cur).seg.stop) = b by omega,
        show b+((node s x).seg.stop-(node s x).seg.start) = (node s x).seg.stop by omega] at hins
      rw [max_eq_right (by omega)]
      refine ensures_mono hins ?_
      rintro ⟨s', r⟩ ⟨m', hins, hone, hruns⟩
      exact ⟨m', hins, ⟨hins.lt, Or.inr hone⟩, fun hu => hruns (by have := hunit hu; omega) hu⟩
    · intro s1 m1 z hz h0
      subst h0
      right
      rw [show (node s 0).seg.stop+((node s x).seg.start-(node s 0).seg.stop) =
        (node s x).seg.start by omega] at hz
      apply first_run_exists hz.inv (label_kept hz.kept hx).1 hz.lt hz.stop
        (hz.bits.trans h.root_bits)
      · rw [hz.kept.bits x hx.1]
        exact hmem
      · rw [hz.kept.bits x hx.1]
        exact hfirst rfl

/-- The stack while it is popped onto `cur`; `b x` is where `x` started before. -/
structure Pending (s : TagSet) (m : Meaning) (cur : ℕ) (b : ℕ → ℕ) (st : List ℕ) : Prop where
  label : ∀ x ∈ st, IsLabel s m x ∧ x ≠ 0
  overlap : ∀ x ∈ st, ∀ y, b x ≤ y → y < (node s cur).seg.stop → y ∈ m.bits cur
  moved : ∀ x ∈ st, (node s x).seg.start = b x ∨
    (node s x).seg.start ≤ (node s cur).seg.stop ∧ b x ≤ (node s cur).seg.stop
  sorted : st.Pairwise fun x y => b x ≤ b y
  first : cur = 0 → ∀ x ∈ st.head?, ∀ y ∈ m.bits x, (node s x).seg.start ≤ y

theorem sign_segment (s : TagSet) (b : Bool) (cur i : ℕ) :
    (node (if b then setSign s cur else s) i).seg.start = (node s i).seg.start ∧
      (node (if b then setSign s cur else s) i).seg.stop = (node s i).seg.stop := by
  have hl := flag_links (s := s) cur (fun n => { n with seg := { n.seg with sign := true } })
    (fun _ => ⟨rfl, rfl, rfl, rfl, rfl⟩) ⟨fun _ => ∅, fun _ => true⟩
  cases b with
  | true => exact ⟨hl.2 i, hl.1.stop i⟩
  | false => exact ⟨rfl, rfl⟩

theorem size_sign (s : TagSet) (b : Bool) (cur : ℕ) :
    size (if b then setSign s cur else s) = size s := by
  cases b with
  | true => exact size_modify_node s cur _
  | false => rfl

theorem sign_inv (h : Inv top s m) (b : Bool) (cur : ℕ) :
    Inv top (if b then setSign s cur else s) m ∧ Kept s m (if b then setSign s cur else s) m := by
  cases b with
  | true => exact set_sign_inv h cur
  | false => exact ⟨h, kept_refl s m⟩

theorem pending_step {cur x r : ℕ} {b : ℕ → ℕ} {st : List ℕ} {s1 s2 : TagSet} {m1 : Meaning}
    (hp : Pending s m cur b (x::st)) (hr : r ≠ 0)
    (hins : Inserted top s m (max (node s cur).seg.stop (node s x).seg.stop)
      (m.bits cur ∪ Set.Ico (b x) (node s x).seg.stop) s1 m1 r) (hk : Kept s1 m1 s2 m1)
    (hseg : ∀ i, (node s2 i).seg.start = (node s1 i).seg.start ∧
      (node s2 i).seg.stop = (node s1 i).seg.stop) : Pending s2 m1 r b st where
  label := by
    intro y hy
    obtain ⟨hl, h0⟩ := hp.label y (List.mem_cons_of_mem x hy)
    exact ⟨label_kept hk (label_kept hins.kept hl), h0⟩
  overlap := by
    intro y hy k hbk hk
    have hxy := List.rel_of_pairwise_cons hp.sorted hy
    have hover := hp.overlap y (List.mem_cons_of_mem x hy) k hbk
    rw [(hseg r).2, hins.stop] at hk
    rw [hins.bits]
    by_cases hlt : k < (node s cur).seg.stop
    · exact Or.inl (hover hlt)
    · exact Or.inr ⟨by omega, by omega⟩
  moved := by
    intro y hy
    obtain ⟨hl, h0⟩ := hp.label y (List.mem_cons_of_mem x hy)
    have hone : m.one y = true := by simpa [h0] using hl.2
    have hold := hp.moved y (List.mem_cons_of_mem x hy)
    have hmv := hins.moved y hl.1 hone
    have hstop := hins.stop
    rw [(hseg y).1, (hseg r).2]
    by_cases hsame : (node s1 y).seg.start = (node s y).seg.start
    · omega
    · obtain ⟨-, h1, h2⟩ := hmv hsame
      omega
  sorted := hp.sorted.of_cons
  first := fun h0 => absurd h0 hr

def signed (s : TagSet) (x : ℕ) (r : TagSet × ℕ) : TagSet :=
  if (node s x).seg.sign then setSign r.1 r.2 else r.1

structure Popped (top : ℕ) (s : TagSet) (m : Meaning) (cur x : ℕ) (b : ℕ → ℕ) (st : List ℕ)
    (r : TagSet × ℕ) (m' : Meaning) : Prop where
  inv : Inv top (signed s x r) m'
  kept : Kept s m (signed s x r) m'
  inside : r.2 < size r.1
  label : IsLabel (signed s x r) m' r.2
  pending : Pending (signed s x r) m' r.2 b st
  units : UnitRuns s m → UnitRuns (signed s x r) m'
  bits : m'.bits r.2 = m.bits cur ∪ Set.Ico (b x) (node s x).seg.stop

theorem combine_step_popped (h : Inv top s m) {cur x : ℕ} {b : ℕ → ℕ} {st : List ℕ}
    (hcur : IsLabel s m cur) (hp : Pending s m cur b (x::st)) :
    Ensures atLimit (combineStep s cur x) fun r => ∃ m', Popped top s m cur x b st r m' := by
  have hmem : x ∈ x::st := List.mem_cons_self
  obtain ⟨hx, hx0⟩ := hp.label x hmem
  have hst := (parent_edge h hx hx0).start
  refine ensures_mono (combine_step_spec h hcur hx hx0 (hp.overlap x hmem) (hp.moved x hmem)
    fun h0 => hp.first h0 x rfl) ?_
  rintro ⟨s1, r⟩ ⟨m1, (hins : Inserted top _ _ _ _ s1 m1 r), (hr : IsLabel s1 m1 r),
    (hunit : UnitRuns s m → UnitRuns s1 m1)⟩
  have hr0 : r ≠ 0 := by
    rintro rfl
    have := hins.stop
    rw [hins.inv.root_stop] at this
    omega
  obtain ⟨hinv2, hkept2⟩ := sign_inv hins.inv (node s x).seg.sign r
  have hseg := sign_segment s1 (node s x).seg.sign r
  have hsize := size_sign s1 (node s x).seg.sign r
  refine ⟨m1, hinv2, kept_trans hins.kept hkept2, hins.lt, label_kept hkept2 hr,
    pending_step hp hr0 hins hkept2 hseg, ?_, hins.bits⟩
  intro hu l hl h1
  simp only [signed] at hl ⊢
  rw [(hseg l).1, (hseg l).2]
  exact hunit hu l (by rw [← hsize]; exact hl) h1

theorem combine_pop_spec (b : ℕ → ℕ) (st : List ℕ) : ∀ (s : TagSet) (m : Meaning) (cur : ℕ),
    Inv top s m → IsLabel s m cur → Pending s m cur b st →
    Ensures atLimit (combinePop s cur st) fun r => ∃ m', Inv top r.1 m' ∧ Kept s m r.1 m' ∧
      IsLabel r.1 m' r.2 ∧ (UnitRuns s m → UnitRuns r.1 m') ∧
      m'.bits r.2 = m.bits cur ∪ {y | ∃ x ∈ st, b x ≤ y ∧ y < (node s x).seg.stop} := by
  induction st with
  | nil =>
    intro s m cur h hcur hp
    exact ensures_ok _ _ _ ⟨m, h, kept_refl s m, hcur, fun hu => hu, by simp⟩
  | cons x st ih =>
    intro s m cur h hcur hp
    refine ensures_bind (combine_step_popped h hcur hp) ?_
    rintro ⟨s1, r⟩ ⟨m1, hpop⟩
    refine ensures_mono (ih (signed s x (s1, r)) m1 r hpop.inv hpop.label hpop.pending) ?_
    rintro ⟨s3, r3⟩ ⟨m3, hinv3, hkept3, hlabel3, hunit3, hbits3⟩
    refine ⟨m3, hinv3, kept_trans hpop.kept hkept3, hlabel3, fun hu => hunit3 (hpop.units hu), ?_⟩
    rw [hbits3, hpop.bits, Set.union_assoc]
    congr 1
    ext y
    simp only [Set.mem_union, Set.mem_Ico, Set.mem_ofPred_eq, List.mem_cons, exists_eq_or_imp]
    apply or_congr Iff.rfl
    apply exists_congr
    intro w
    apply and_congr_right
    intro hw
    rw [hpop.kept.stop w (hp.label w (List.mem_cons_of_mem x hw)).1.1]

def walkBits (s : TagSet) (m : Meaning) (base : ℕ) (st : List ℕ) : Set ℕ :=
  m.bits base ∪ {y | ∃ x ∈ st, (node s x).seg.start ≤ y ∧ y < (node s x).seg.stop}

theorem walk_pending (h : Inv top s m) {l1 l2 last base : ℕ} {st : List ℕ}
    (hw : Walk s l1 l2 last base st) (hl1 : IsLabel s m l1) (hl2 : IsLabel s m l2) :
    Pending s m base (fun x => (node s x).seg.start) st where
  label := fun x hx => ⟨walk_label h hw hl1 hl2 hx, (walk_mem h hw hx).2.1⟩
  overlap := fun x hx => walk_overlap h hw hl2 hx
  moved := fun x hx => Or.inl rfl
  sorted := (walk_sorted h hw).imp fun hlt => le_of_lt hlt
  first := by
    intro h0 x hx y hy
    have hmem : x ∈ st := List.mem_of_mem_head? hx
    have hmin : ∀ w ∈ st, (node s x).seg.start ≤ (node s w).seg.start := by
      intro w hw'
      cases st with
      | nil => simp at hmem
      | cons z st =>
        obtain rfl : z = x := by simpa using hx
        rcases List.mem_cons.mp hw' with rfl | hw'
        · exact le_refl _
        · exact le_of_lt (List.rel_of_pairwise_cons (walk_sorted h hw) hw')
    have hlabel := walk_label h hw hl1 hl2 hmem
    obtain ⟨hlast, -, hchain⟩ := walk_mem h hw hmem
    obtain ⟨w, hw', hyw⟩ := (bits_eq_top h hlabel y).mp hy
    obtain ⟨hup, hw0, -⟩ := top_up hw'
    have hcase : Up s l1 w ∨ Up s l2 w := by
      rcases hchain with hx | hx
      · exact Or.inl (up_trans hx hup)
      · exact Or.inr (up_trans (top_up hx).1 hup)
    have hyw1 := hyw.1
    rcases walk_reach hw h0 hcase hw0 with hge | ⟨z, hz, hzw⟩
    · omega
    · have := hmin z hz
      omega

theorem walk_bits_subset (h : Inv top s m) {l1 l2 last base : ℕ} {st : List ℕ}
    (hw : Walk s l1 l2 last base st) (hl1 : IsLabel s m l1) (hl2 : IsLabel s m l2) :
    walkBits s m base st ⊆ m.bits l1 ∪ m.bits l2 := by
  rintro y (hy | ⟨x, hx, hy⟩)
  · exact Or.inr (up_subset h (walk_base h hw) hl2 hy)
  · rcases (walk_mem h hw hx).2.2 with hup | htop
    · exact Or.inl (up_segment h hup hl1 hy)
    · exact Or.inr (up_segment h (top_up htop).1 hl2 hy)

/-- A run of the second label that is tied and has an offset the first lacks. -/
def Lost (s : TagSet) (m : Meaning) (l1 l2 y : ℕ) : Prop :=
  ∃ b, Top s l2 b ∧ Tied s l1 b ∧ y ∈ segment s b ∧ y ∉ m.bits l1

theorem top_start_lt (h : Inv MAX_LB s m) {l x : ℕ} (hl : IsLabel s m l) (hx : Top s l x) :
    (node s x).seg.start < MAX_LB := by
  obtain ⟨hu, h0, -⟩ := top_up hx
  have hlx := (up_spec h hu hl).1
  have hst := (parent_edge h hlx h0).start
  have hlim := h.limit x hlx.1
  omega

theorem walk_keeps (h : Inv MAX_LB s m) {l1 l2 base y : ℕ} {st : List ℕ}
    (hw : Walk s l1 l2 MAX_LB base st) (hl1 : IsLabel s m l1) (hl2 : IsLabel s m l2)
    (hy : y ∈ m.bits l1 ∪ m.bits l2) (hn : ¬ Lost s m l1 l2 y) : y ∈ walkBits s m base st := by
  have hkept : ∀ x, y ∈ segment s x → x ∈ st ∨ segment s x ⊆ m.bits base →
      y ∈ walkBits s m base st := by
    intro x hyx hx
    rcases hx with hx | hx
    · exact Or.inr ⟨x, hx, hyx⟩
    · exact Or.inl (hx hyx)
  by_cases hy1 : y ∈ m.bits l1
  · obtain ⟨x, hx, hyx⟩ := (bits_eq_top h hl1 y).mp hy1
    exact hkept x hyx (walk_keeps_first h hw hl1 hx (top_start_lt h hl1 hx))
  · have hy2 : y ∈ m.bits l2 := hy.resolve_left hy1
    obtain ⟨x, hx, hyx⟩ := (bits_eq_top h hl2 y).mp hy2
    exact hkept x hyx (walk_keeps_second h hw hl2 hx (top_start_lt h hl2 hx)
      fun ht => hn ⟨x, hx, ht, hyx, hy1⟩)

theorem walk_loses (h : Inv top s m) {l1 l2 last base y : ℕ} {st : List ℕ}
    (hw : Walk s l1 l2 last base st) (hl1 : IsLabel s m l1) (hl2 : IsLabel s m l2)
    (hlost : Lost s m l1 l2 y) : y ∉ walkBits s m base st := by
  obtain ⟨b, hb, ⟨a, c, ha, hc, hca, hab⟩, hyb, hy1⟩ := hlost
  have hnb : ¬ Up s l1 b := fun hu => hy1 (up_segment h hu hl1 hyb)
  have h0 : l1 ≠ 0 := by
    rintro rfl
    exact not_top_root ha
  have hyb1 := hyb.1
  have hyb2 := hyb.2
  rintro (hy | ⟨x, hx, hyx⟩)
  · rcases walk_low h hw hl1 h0 with hu | ⟨z, hz, hz0, hzp, hle⟩
    · exact hy1 (up_subset h hu hl1 hy)
    · have hcl := (up_spec h (top_up hc).1 hl1).1
      have hcs := (parent_edge h hcl (top_up hc).2.1).start
      have hzc := up_first h hz hl1 hz0 hzp _ (up_segment h (top_up hc).1 hl1 ⟨le_refl _, hcs⟩)
      have hsep := top_above h hb (walk_base h hw) hl2 (by omega)
      have := bits_lt h base (up_spec h (walk_base h hw) hl2).1.1 y hy
      omega
  · rcases (walk_mem h hw hx).2.2 with hup | htop
    · exact hy1 (up_segment h hup hl1 hyx)
    · have hne : x ≠ b := by
        rintro rfl
        exact walk_drops h hw ha hb hab hnb hx
      rcases top_separate h htop hb hl2 hne with hsep | hsep
      · omega
      · omega

/-- `combine` loses an offset: a run of the larger label starts where a later
run of the smaller label does, and holds an offset the smaller label lacks. -/
def Clash (s : TagSet) (l1 l2 : ℕ) : Prop :=
  ∃ a ∈ shown s (min l1 l2), ∃ c ∈ shown s (min l1 l2), ∃ b ∈ shown s (max l1 l2),
    c.start < a.start ∧ a.start = b.start ∧
    ∃ y < b.stop, b.start ≤ y ∧ ∀ t ∈ shown s (min l1 l2), ¬ (t.start ≤ y ∧ y < t.stop)

instance (s : TagSet) (l1 l2 : ℕ) : Decidable (Clash s l1 l2) :=
  inferInstanceAs (Decidable (∃ a ∈ shown s (min l1 l2), ∃ c ∈ shown s (min l1 l2),
    ∃ b ∈ shown s (max l1 l2), _))

theorem clash_lost (h : Inv MAX_LB s m) {l1 l2 : ℕ} (hl : IsLabel s m (min l1 l2))
    (hl' : IsLabel s m (max l1 l2)) :
    Clash s l1 l2 ↔ ∃ y, Lost s m (min l1 l2) (max l1 l2) y := by
  have hcov : ∀ y, (∀ t ∈ shown s (min l1 l2), ¬ (t.start ≤ y ∧ y < t.stop)) ↔
      y ∉ m.bits (min l1 l2) := by
    intro y
    rw [← cover_shown h hl]
    simp [cover]
  constructor
  · rintro ⟨a, ha, c, hc, b, hb, hca, hab, y, hy, hby, hn⟩
    obtain ⟨a, hta, rfl⟩ := (shown_mem h hl a).mp ha
    obtain ⟨c, htc, rfl⟩ := (shown_mem h hl c).mp hc
    obtain ⟨b, htb, rfl⟩ := (shown_mem h hl' b).mp hb
    exact ⟨y, b, htb, ⟨a, c, hta, htc, hca, hab⟩, ⟨hby, hy⟩, (hcov y).mp hn⟩
  · rintro ⟨y, b, hb, ⟨a, c, ha, hc, hca, hab⟩, ⟨hby, hy⟩, hn⟩
    exact ⟨_, (shown_mem h hl _).mpr ⟨a, ha, rfl⟩, _, (shown_mem h hl _).mpr ⟨c, hc, rfl⟩,
      _, (shown_mem h hl' _).mpr ⟨b, hb, rfl⟩, hca, hab, y, hy, hby, (hcov y).mpr hn⟩

theorem walk_bits_union (h : Inv MAX_LB s m) {l1 l2 base : ℕ} {st : List ℕ}
    (hw : Walk s l1 l2 MAX_LB base st) (hl1 : IsLabel s m l1) (hl2 : IsLabel s m l2) :
    walkBits s m base st = m.bits l1 ∪ m.bits l2 ↔ ¬ ∃ y, Lost s m l1 l2 y := by
  constructor
  · rintro heq ⟨y, hlost⟩
    have hy : y ∈ walkBits s m base st := by
      obtain ⟨b, hb, -, hyb, -⟩ := hlost
      rw [heq]
      exact Or.inr (up_segment h (top_up hb).1 hl2 hyb)
    exact walk_loses h hw hl1 hl2 hlost hy
  · intro hn
    apply Set.Subset.antisymm (walk_bits_subset h hw hl1 hl2)
    intro y hy
    exact walk_keeps h hw hl1 hl2 hy fun hlost => hn ⟨y, hlost⟩

/-- What `combine` returns: a label that stands for no more than the union, and
for the whole union, while runs end by `MAX_LB`, exactly when no run clashes. -/
structure Combined (top : ℕ) (s : TagSet) (m : Meaning) (l1 l2 : ℕ) (s' : TagSet) (m' : Meaning)
    (r : ℕ) : Prop where
  inv : Inv top s' m'
  kept : Kept s m s' m'
  label : IsLabel s' m' r
  subset : m'.bits r ⊆ m.bits l1 ∪ m.bits l2
  union : top = MAX_LB → (m'.bits r = m.bits l1 ∪ m.bits l2 ↔ ¬ Clash s l1 l2)
  units : UnitRuns s m → UnitRuns s' m'

theorem clash_root {l1 l2 : ℕ} (h : Inv top s m) (h0 : l1 = 0 ∨ l2 = 0) : ¬ Clash s l1 l2 := by
  have hmin : min l1 l2 = 0 := by omega
  rintro ⟨a, ha, -⟩
  rw [hmin, shown, h.root_stop] at ha
  exact absurd ha List.not_mem_nil

theorem clash_self (s : TagSet) (l : ℕ) : ¬ Clash s l l := by
  rintro ⟨-, -, -, -, b, hb, -, -, y, hy, hby, hn⟩
  rw [min_self, max_self] at *
  exact hn b hb ⟨hby, hy⟩

theorem label_min_max {l1 l2 : ℕ} (hl1 : IsLabel s m l1) (hl2 : IsLabel s m l2) :
    IsLabel s m (min l1 l2) ∧ IsLabel s m (max l1 l2) ∧
      m.bits (min l1 l2) ∪ m.bits (max l1 l2) = m.bits l1 ∪ m.bits l2 := by
  rcases Nat.le_total l1 l2 with hle | hle
  · rw [min_eq_left hle, max_eq_right hle]
    exact ⟨hl1, hl2, rfl⟩
  · rw [min_eq_right hle, max_eq_left hle]
    exact ⟨hl2, hl1, Set.union_comm _ _⟩

theorem top_start_mem (h : Inv top s m) {l x : ℕ} (hl : IsLabel s m l) (hx : Top s l x) :
    (node s x).seg.start ∈ segment s x ∧ (node s x).seg.start ∈ m.bits l := by
  obtain ⟨hu, h0, -⟩ := top_up hx
  have hst := (parent_edge h (up_spec h hu hl).1 h0).start
  exact ⟨⟨le_refl _, hst⟩, up_segment h hu hl ⟨le_refl _, hst⟩⟩

theorem lost_not_start (h : Inv top s m) {l1 l2 y : ℕ} (hl1 : IsLabel s m l1)
    (hlost : Lost s m l1 l2 y) : ∃ b, Top s l2 b ∧ y ∈ segment s b ∧ y ≠ (node s b).seg.start := by
  obtain ⟨b, hb, ⟨a, c, ha, -, -, hab⟩, hyb, hy⟩ := hlost
  refine ⟨b, hb, hyb, ?_⟩
  rintro rfl
  rw [← hab] at hy
  exact hy (top_start_mem h hl1 ha).2

theorem clash_single (h : Inv MAX_LB s m) {l1 l2 : ℕ} (hl1 : IsLabel s m l1) (hl2 : IsLabel s m l2)
    (hsub : (m.bits l2).Subsingleton) : ¬ Clash s l1 l2 := by
  obtain ⟨hlo, hhi, -⟩ := label_min_max hl1 hl2
  rw [clash_lost h hlo hhi]
  rintro ⟨y, hlost⟩
  rcases Nat.le_total l1 l2 with hle | hle
  · rw [max_eq_right hle] at hlost
    obtain ⟨b, hb, hyb, hne⟩ := lost_not_start h hlo hlost
    exact hne (hsub (up_segment h (top_up hb).1 hl2 hyb) (top_start_mem h hl2 hb).2)
  · rw [min_eq_right hle] at hlost
    obtain ⟨b, -, ⟨a, c, ha, hc, hca, -⟩, -⟩ := hlost
    have := hsub (top_start_mem h hl2 ha).2 (top_start_mem h hl2 hc).2
    omega

theorem clash_units (h : Inv MAX_LB s m) {l1 l2 : ℕ} (hl1 : IsLabel s m l1) (hl2 : IsLabel s m l2)
    (hu : UnitRuns s m) : ¬ Clash s l1 l2 := by
  obtain ⟨hlo, hhi, -⟩ := label_min_max hl1 hl2
  rw [clash_lost h hlo hhi]
  rintro ⟨y, hlost⟩
  obtain ⟨b, hb, ⟨hy1, hy2⟩, hne⟩ := lost_not_start h hlo hlost
  obtain ⟨hup, h0, -⟩ := top_up hb
  have hlb := (up_spec h hup hhi).1
  have := hu b hlb.1 (by simpa [h0] using hlb.2)
  omega

theorem combine_spec (h : Inv top s m) {l1 l2 : ℕ} (hl1 : IsLabel s m l1) (hl2 : IsLabel s m l2) :
    Ensures atLimit (combine s l1 l2) fun r => ∃ m', Combined top s m l1 l2 r.1 m' r.2 := by
  unfold combine
  by_cases h1 : l1 = 0
  · subst h1
    rw [if_pos rfl]
    have hbits : m.bits l2 = m.bits 0 ∪ m.bits l2 := by rw [h.root_bits, Set.empty_union]
    exact ensures_ok _ _ _ ⟨m, h, kept_refl s m, hl2, by rw [← hbits],
      fun _ => iff_of_true hbits (clash_root h (Or.inl rfl)), fun hu => hu⟩
  rw [if_neg h1]
  by_cases h2 : l2 = 0 ∨ l1 = l2
  · rw [if_pos h2]
    have hbits : m.bits l1 = m.bits l1 ∪ m.bits l2 := by
      rcases h2 with rfl | rfl
      · rw [h.root_bits, Set.union_empty]
      · rw [Set.union_self]
    have hn : ¬ Clash s l1 l2 := by
      rcases h2 with h2 | rfl
      · exact clash_root h (Or.inr h2)
      · exact clash_self s l1
    exact ensures_ok _ _ _ ⟨m, h, kept_refl s m, hl1, by rw [← hbits],
      fun _ => iff_of_true hbits hn, fun hu => hu⟩
  rw [if_neg h2]
  obtain ⟨hlo, hhi, hswap⟩ := label_min_max hl1 hl2
  obtain ⟨l1', base, st, hw, hend, hwalk⟩ := combine_walk_spec h _ (min l1 l2) (max l1 l2) []
    MAX_LB hlo hhi (le_refl _)
  have hbase : (if 0 < l1' then l1' else base) = base := by
    rcases hend with rfl | rfl
    · rfl
    · simp
  have hpop := combine_pop_spec _ st s m base h (up_spec h (walk_base h hwalk) hhi).1
    (walk_pending h hwalk hlo hhi)
  rw [List.append_nil] at hw
  simp only [hw, bind, Except.bind, hbase]
  refine ensures_mono hpop ?_
  rintro ⟨s', r⟩ ⟨m', hinv, hkept, hlabel, hunit, hbits⟩
  have hsub := walk_bits_subset h hwalk hlo hhi
  rw [hswap] at hsub
  refine ⟨m', hinv, hkept, hlabel, ?_, ?_, hunit⟩
  · rw [hbits]
    exact hsub
  · rintro rfl
    have hiff := walk_bits_union h hwalk hlo hhi
    rw [hswap, ← clash_lost h hlo hhi] at hiff
    rw [hbits]
    exact hiff

end Parmesan.TagSetCombine
