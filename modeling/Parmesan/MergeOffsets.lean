import Parmesan.SearchLength

/-!
# Merged lists of segments

`merge_offsets` keeps the order of the segments and drops none of their bytes,
but a segment of one list may contain later ones of the other, and
`write_to_input` extends the buffer to the end of the last one only.
-/

set_option autoImplicit false

namespace Parmesan.MergeOffsets
open Parmesan.TagSetModel Parmesan.TagSetShape Parmesan.Segments
open Parmesan.MutInputModel Parmesan.MutInputLens Parmesan.SearchLength

section Merge

def Increasing (tags : List TagSeg) : Prop := tags.Pairwise fun t u => t.start < u.start

instance (tags : List TagSeg) : Decidable (Increasing tags) :=
  inferInstanceAs (Decidable (tags.Pairwise fun t u => t.start < u.start))

def span (t : TagSeg) : ℕ × ℕ := (t.start, t.stop)

theorem merge_loop_nil (v : List TagSeg) : mergeLoop v [] = v := by
  cases v <;> simp [mergeLoop]

/-- The two early returns of `merge_offsets` are what its loops do. -/
theorem merge_offsets_loop (v1 v2 : List TagSeg) : mergeOffsets v1 v2 = mergeLoop v1 v2 := by
  unfold mergeOffsets
  split_ifs with h1 h2
  · rw [List.length_eq_zero_iff.mp h1, mergeLoop]
  · rw [List.length_eq_zero_iff.mp h2, merge_loop_nil]
  · rfl

theorem merge_loop_mem (v1 v2 : List TagSeg) :
    ∀ t ∈ mergeLoop v1 v2, t ∈ v1 ∨ t ∈ v2 := by
  fun_induction mergeLoop v1 v2 with
  | case1 v2 => exact fun t ht => Or.inr ht
  | case2 v1 _ => exact fun t ht => Or.inl ht
  | case3 o1 v1 o2 v2 _ ih =>
    intro t ht
    rcases List.mem_cons.mp ht with heq | ht
    · rw [heq]
      split_ifs
      · exact Or.inl List.mem_cons_self
      · exact Or.inr List.mem_cons_self
    · exact (ih t ht).imp (List.mem_cons_of_mem o1) (List.mem_cons_of_mem o2)
  | case4 o1 v1 o2 v2 _ _ ih =>
    intro t ht
    rcases List.mem_cons.mp ht with heq | ht
    · rw [heq]
      exact Or.inl List.mem_cons_self
    · exact (ih t ht).imp_left (List.mem_cons_of_mem o1)
  | case5 o1 v1 o2 v2 _ _ ih =>
    intro t ht
    rcases List.mem_cons.mp ht with heq | ht
    · rw [heq]
      exact Or.inr List.mem_cons_self
    · exact (ih t ht).imp_right (List.mem_cons_of_mem o2)

theorem increasing_above {o : TagSeg} {v : List TagSeg} {b : ℕ} (h : Increasing (o::v))
    (hb : b < o.start) : ∀ t ∈ o::v, b < t.start := by
  intro t ht
  rcases List.mem_cons.mp ht with heq | ht
  · rw [heq]
    exact hb
  · exact hb.trans ((List.pairwise_cons.mp h).1 t ht)

theorem merge_loop_above {v1 v2 : List TagSeg} {b : ℕ} (h1 : ∀ t ∈ v1, b < t.start)
    (h2 : ∀ t ∈ v2, b < t.start) : ∀ t ∈ mergeLoop v1 v2, b < t.start := by
  intro t ht
  rcases merge_loop_mem v1 v2 t ht with ht | ht
  · exact h1 t ht
  · exact h2 t ht

theorem merge_loop_increasing (v1 v2 : List TagSeg) (h1 : Increasing v1) (h2 : Increasing v2) :
    Increasing (mergeLoop v1 v2) := by
  unfold Increasing at h1 h2 ⊢
  fun_induction mergeLoop v1 v2 with
  | case1 v2 => exact h2
  | case2 v1 _ => exact h1
  | case3 o1 v1 o2 v2 heq ih =>
    have hc1 := List.pairwise_cons.mp h1
    have hc2 := List.pairwise_cons.mp h2
    have hstart : (if o2.stop ≤ o1.stop then o1 else o2).start = o1.start := by
      split_ifs
      · rfl
      · exact heq.symm
    apply List.pairwise_cons.mpr
    rw [hstart]
    constructor
    · apply merge_loop_above hc1.1
      rw [heq]
      exact hc2.1
    · exact ih hc1.2 hc2.2
  | case4 o1 v1 o2 v2 _ hlt ih =>
    have hc1 := List.pairwise_cons.mp h1
    apply List.pairwise_cons.mpr
    constructor
    · exact merge_loop_above hc1.1 (increasing_above h2 hlt)
    · exact ih hc1.2 h2
  | case5 o1 v1 o2 v2 hne hnlt ih =>
    have hc2 := List.pairwise_cons.mp h2
    have hlt : o2.start < o1.start := by omega
    apply List.pairwise_cons.mpr
    constructor
    · exact merge_loop_above (increasing_above h1 hlt) hc2.1
    · exact ih h1 hc2.2

theorem merge_loop_self (v : List TagSeg) : mergeLoop v v = v := by
  induction v with
  | nil => rw [mergeLoop]
  | cons o v ih => rw [mergeLoop, if_pos rfl, if_pos (le_refl _), ih]

theorem merge_loop_comm (v1 v2 : List TagSeg) :
    (mergeLoop v1 v2).map span = (mergeLoop v2 v1).map span := by
  fun_induction mergeLoop v1 v2 with
  | case1 v2 => rw [merge_loop_nil]
  | case2 v1 _ => rw [mergeLoop]
  | case3 o1 v1 o2 v2 heq ih =>
    rw [mergeLoop, if_pos heq.symm, List.map_cons, List.map_cons, ih]
    have hspan : span (if o2.stop ≤ o1.stop then o1 else o2) =
        span (if o1.stop ≤ o2.stop then o2 else o1) := by
      unfold span
      split_ifs with hle hge hge
      · rw [heq, le_antisymm hge hle]
      · rfl
      · rfl
      · omega
    rw [hspan]
  | case4 o1 v1 o2 v2 hne hlt ih =>
    rw [mergeLoop, if_neg (Ne.symm hne), if_neg (by omega), List.map_cons, List.map_cons, ih]
  | case5 o1 v1 o2 v2 hne hnlt ih =>
    rw [mergeLoop, if_neg (Ne.symm hne), if_pos (by omega), List.map_cons, List.map_cons, ih]

/-- Whatever the ties and the tails, `merge_offsets` keeps the order and the bytes,
makes no segment of its own, and treats both lists alike. -/
theorem merge_offsets_sound {v1 v2 : List TagSeg} (h1 : Increasing v1) (h2 : Increasing v2) :
    Increasing (mergeOffsets v1 v2) ∧
      cover (mergeOffsets v1 v2) = cover v1 ∪ cover v2 ∧
      (∀ t ∈ mergeOffsets v1 v2, t ∈ v1 ∨ t ∈ v2) ∧
      mergeOffsets v1 v1 = v1 ∧
      (mergeOffsets v1 v2).map span = (mergeOffsets v2 v1).map span := by
  have hcover := cover_merge v1 v2
  simp only [merge_offsets_loop] at hcover ⊢
  exact ⟨merge_loop_increasing v1 v2 h1 h2, hcover, merge_loop_mem v1 v2, merge_loop_self v1,
    merge_loop_comm v1 v2⟩

/-- A tie in front of an overlap, and a tail. -/
theorem merge_offsets_sound_tie :
    Increasing [⟨false, 0, 4⟩, ⟨false, 6, 8⟩] ∧ Increasing [⟨true, 0, 6⟩, ⟨true, 5, 7⟩] ∧
      mergeOffsets [⟨false, 0, 4⟩, ⟨false, 6, 8⟩] [⟨true, 0, 6⟩, ⟨true, 5, 7⟩] =
        [⟨true, 0, 6⟩, ⟨true, 5, 7⟩, ⟨false, 6, 8⟩] ∧
      cover (mergeOffsets [⟨false, 0, 4⟩, ⟨false, 6, 8⟩] [⟨true, 0, 6⟩, ⟨true, 5, 7⟩]) =
        cover [⟨false, 0, 4⟩, ⟨false, 6, 8⟩] ∪ cover [⟨true, 0, 6⟩, ⟨true, 5, 7⟩] :=
  ⟨by decide, by decide, by simp [mergeOffsets, mergeLoop],
    (merge_offsets_sound (by decide) (by decide)).2.1⟩

end Merge

section Write

theorem set_segments_returns (bytes : List UInt8) (offsets : List TagSeg) (st : List UInt8 × ℕ)
    (hb : bytes.length = st.2+valLen offsets) :
    (offsets.foldlM (setSegment bytes) st).isSome ↔
      ∀ off ∈ offsets, off.start < off.stop → off.stop ≤ st.1.length := by
  induction offsets generalizing st with
  | nil => simp
  | cons off offsets ih =>
    have hval : valLen (off::offsets) = off.stop-off.start+valLen offsets := by simp [valLen]
    rw [List.foldlM_cons, List.forall_mem_cons]
    cases hs : setSegment bytes st off with
    | none =>
      simp only [setSegment] at hs
      split_ifs at hs with hne hfit
      constructor
      · intro h
        cases h
      · intro h
        have hin := h.1 hne
        omega
    | some st' =>
      have hlen := set_segment_length hs
      simp only [setSegment] at hs
      split_ifs at hs with hne hfit
      · have hpos : st'.2 = st.2+(off.stop-off.start) := by rw [← Option.some.inj hs]
        show (offsets.foldlM (setSegment bytes) st').isSome ↔ _
        rw [ih st' (by omega), hlen]
        exact ⟨fun h => ⟨fun _ => hfit.1, h⟩, fun h => h.2⟩
      · rw [Option.some.inj hs] at hb
        show (offsets.foldlM (setSegment bytes) st').isSome ↔ _
        rw [ih st' (by omega), hlen]
        exact ⟨fun h => ⟨fun h => absurd h hne, h⟩, fun h => h.2⟩

theorem write_to_input_returns {m : MutInput} {offsets : List TagSeg}
    (hm : m.value.length = valLen offsets) (buffer : List UInt8) :
    (writeToInput m offsets buffer).isSome ↔
      ∀ off ∈ offsets, off.start < off.stop → off.stop ≤ max buffer.length (extent offsets) := by
  rw [write_to_input_eq, setBytesByOffsets, Option.isSome_map,
    set_segments_returns _ _ _ (by omega), zero_extend_length]

theorem merge_loop_dominates (v1 v2 : List TagSeg) (t : TagSeg) (ht : t ∈ v1 ∨ t ∈ v2) :
    ∃ u ∈ mergeLoop v1 v2, u.start = t.start ∧ t.stop ≤ u.stop := by
  fun_induction mergeLoop v1 v2 with
  | case1 v2 => exact ⟨t, by simpa using ht, rfl, le_refl _⟩
  | case2 v1 _ => exact ⟨t, by simpa using ht, rfl, le_refl _⟩
  | case3 o1 v1 o2 v2 heq ih =>
    by_cases hrest : t ∈ v1 ∨ t ∈ v2
    · obtain ⟨u, hu, hspec⟩ := ih hrest
      exact ⟨u, List.mem_cons_of_mem _ hu, hspec⟩
    · have hfirst : t = o1 ∨ t = o2 := by
        simp only [List.mem_cons] at ht
        tauto
      refine ⟨_, List.mem_cons_self, ?_⟩
      rcases hfirst with rfl | rfl
      · split_ifs with hle
        · exact ⟨rfl, le_refl _⟩
        · exact ⟨heq.symm, by omega⟩
      · split_ifs with hle
        · exact ⟨heq, hle⟩
        · exact ⟨rfl, le_refl _⟩
  | case4 o1 v1 o2 v2 _ _ ih =>
    by_cases hfirst : t = o1
    · exact ⟨o1, List.mem_cons_self, by rw [hfirst], by rw [hfirst]⟩
    · obtain ⟨u, hu, hspec⟩ := ih (ht.imp_left (List.mem_of_ne_of_mem hfirst))
      exact ⟨u, List.mem_cons_of_mem _ hu, hspec⟩
  | case5 o1 v1 o2 v2 _ _ ih =>
    by_cases hfirst : t = o2
    · exact ⟨o2, List.mem_cons_self, by rw [hfirst], by rw [hfirst]⟩
    · obtain ⟨u, hu, hspec⟩ := ih (ht.imp_right (List.mem_of_ne_of_mem hfirst))
      exact ⟨u, List.mem_cons_of_mem _ hu, hspec⟩

/-- What the proofs below use of a merged list, alike in both lists. -/
structure Merged (v1 v2 m : List TagSeg) : Prop where
  increasing : Increasing m
  origin : ∀ t ∈ m, t ∈ v1 ∨ t ∈ v2
  kept : ∀ t, t ∈ v1 ∨ t ∈ v2 → ∃ u ∈ m, u.start = t.start ∧ t.stop ≤ u.stop

theorem merged_symm {v1 v2 m : List TagSeg} (h : Merged v1 v2 m) : Merged v2 v1 m :=
  ⟨h.increasing, fun t ht => (h.origin t ht).symm, fun t ht => h.kept t ht.symm⟩

theorem merge_offsets_merged {v1 v2 : List TagSeg} (h1 : Increasing v1) (h2 : Increasing v2) :
    Merged v1 v2 (mergeOffsets v1 v2) := by
  rw [merge_offsets_loop]
  exact ⟨merge_loop_increasing v1 v2 h1 h2, merge_loop_mem v1 v2, merge_loop_dominates v1 v2⟩

theorem before_last {v : List TagSeg} {l : TagSeg} (h : Increasing v) (hl : v.getLast? = some l) :
    ∀ t ∈ v, t.start < l.start ∨ t = l := by
  intro t ht
  have hsplit := List.dropLast_append_getLast? l hl
  rw [Increasing, ← hsplit, List.pairwise_append] at h
  rw [← hsplit] at ht
  rcases List.mem_append.mp ht with ht | ht
  · exact Or.inl (h.2.2 t ht l List.mem_cons_self)
  · exact Or.inr (List.mem_singleton.mp ht)

theorem last_start_max {v : List TagSeg} {l t : TagSeg} (h : Increasing v)
    (hl : v.getLast? = some l) (ht : t ∈ v) : t.start ≤ l.start := by
  rcases before_last h hl t ht with hlt | heq
  · exact hlt.le
  · rw [heq]

theorem exists_last {v : List TagSeg} {t : TagSeg} (ht : t ∈ v) : ∃ l, v.getLast? = some l :=
  Option.isSome_iff_exists.mp (List.getLast?_isSome.mpr (List.ne_nil_of_mem ht))

theorem apart_lt {v : List TagSeg} (h : Apart v) {t u : TagSeg} (ht : t ∈ v) (hu : u ∈ v)
    (hlt : t.start < u.start) : t.stop ≤ u.start := by
  induction v with
  | nil => cases ht
  | cons o v ih =>
    obtain ⟨hne, hfirst, hrest⟩ := (apart_cons o v).mp h
    rcases List.mem_cons.mp ht with hto | ht
    · rcases List.mem_cons.mp hu with huo | hu
      · rw [hto, huo] at hlt
        omega
      · rw [hto]
        exact hfirst u hu
    · rcases List.mem_cons.mp hu with huo | hu
      · have hle := hfirst t ht
        rw [huo] at hlt
        omega
      · exact ih hrest ht hu

/-- The last segment of `v` starts before the last one of `w` and ends after it, and
the buffer ends before it does. -/
def Overhangs (v w : List TagSeg) (len : ℕ) : Prop :=
  ∃ a ∈ v.getLast?, ∃ b ∈ w.getLast?, a.start < b.start ∧ b.stop < a.stop ∧ len < a.stop

section Overhang
variable {v1 v2 m : List TagSeg} {len : ℕ}

theorem overhang_passes (hm : Merged v1 v2 m) (h1 : Increasing v1) (h2 : Increasing v2)
    (h : Overhangs v1 v2 len) : ∃ u ∈ m, max len (extent m) < u.stop := by
  obtain ⟨a, ha, b, hb, hstart, hstop, hlen⟩ := h
  obtain ⟨u, hu, hub, -⟩ := hm.kept b (Or.inr (List.mem_of_getLast? hb))
  obtain ⟨l, hl⟩ := exists_last hu
  have hle := last_start_max hm.increasing hl hu
  have hlast : l = b := by
    rcases hm.origin l (List.mem_of_getLast? hl) with hv | hv
    · have hla := last_start_max h1 ha hv
      omega
    · rcases before_last h2 hb l hv with hlt | heq
      · omega
      · exact heq
  obtain ⟨w, hw, -, hwa⟩ := hm.kept a (Or.inl (List.mem_of_getLast? ha))
  refine ⟨w, hw, ?_⟩
  rw [extent_last hl, hlast]
  omega

/-- A segment of the first list that passes the extended buffer is never followed by
one of the same list, so the last one belongs to the other list. -/
theorem passes_overhang (hm : Merged v1 v2 m) (h1 : Apart v1) (h2 : Apart v2) {u : TagSeg}
    (hu : u ∈ m) (hv : u ∈ v1) (hpast : max len (extent m) < u.stop) : Overhangs v1 v2 len := by
  obtain ⟨l, hl⟩ := exists_last hu
  have hlm := List.mem_of_getLast? hl
  rw [extent_last hl] at hpast
  have hult : u.start < l.start := by
    rcases before_last hm.increasing hl u hu with hlt | heq
    · exact hlt
    · rw [heq] at hpast
      omega
  have hl2 : l ∈ v2 := by
    rcases hm.origin l hlm with hl1 | hl2
    · have hapart := apart_lt h1 hv hl1 hult
      have hne := h1.nonempty l hl1
      omega
    · exact hl2
  obtain ⟨a, ha⟩ := exists_last hv
  obtain ⟨b, hb⟩ := exists_last hl2
  have hlb : l = b := by
    obtain ⟨w, hw, hwb, -⟩ := hm.kept b (Or.inr (List.mem_of_getLast? hb))
    have hwl := last_start_max hm.increasing hl hw
    rcases before_last (apart_increasing h2) hb l hl2 with hlt | heq
    · omega
    · exact heq
  have hua : u.stop ≤ a.stop := by
    have hle := stop_le_extent h1 u hv
    rw [extent_last ha] at hle
    exact hle
  obtain ⟨w, hw, hwa, hstop⟩ := hm.kept a (Or.inl (List.mem_of_getLast? ha))
  refine ⟨a, ha, b, hb, ?_, ?_, by omega⟩
  · rcases before_last hm.increasing hl w hw with hlt | heq
    · rw [← hlb]
      omega
    · rw [heq] at hstop
      omega
  · rw [← hlb]
    omega

end Overhang

/-- Reading the merged segments never panics, writing them back does exactly when
the buffer ends inside a segment that overhangs the last one. -/
theorem merged_write_iff {v1 v2 : List TagSeg} (h1 : Apart v1) (h2 : Apart v2)
    (input buffer : List UInt8) :
    (∃ m, fromOffsets (mergeOffsets v1 v2) input = some m ∧
      ∃ out, writeToInput m (mergeOffsets v1 v2) buffer = some out) ↔
    ¬ Overhangs v1 v2 buffer.length ∧ ¬ Overhangs v2 v1 buffer.length := by
  have hm := merge_offsets_merged (apart_increasing h1) (apart_increasing h2)
  have hne : ∀ t ∈ mergeOffsets v1 v2, t.start < t.stop := by
    intro t ht
    rcases hm.origin t ht with hv | hv
    · exact h1.nonempty t hv
    · exact h2.nonempty t hv
  obtain ⟨m, hfrom⟩ := Option.isSome_iff_exists.mp
    ((from_offsets_returns _ input).mpr fun t ht => (hne t ht).le)
  have hlen : m.value.length = valLen (mergeOffsets v1 v2) :=
    get_f_input_length (h := ⟨input, mergeOffsets v1 v2⟩) hfrom
  have hwrites := write_to_input_returns hlen buffer
  constructor
  · rintro ⟨m', hm', out, hout⟩
    rw [← Option.some.inj (hfrom.symm.trans hm')] at hout
    have hfit := hwrites.mp (by rw [hout]; rfl)
    constructor
    · intro hover
      obtain ⟨u, hu, hpast⟩ := overhang_passes hm (apart_increasing h1) (apart_increasing h2) hover
      exact absurd (hfit u hu (hne u hu)) (by omega)
    · intro hover
      obtain ⟨u, hu, hpast⟩ :=
        overhang_passes (merged_symm hm) (apart_increasing h2) (apart_increasing h1) hover
      exact absurd (hfit u hu (hne u hu)) (by omega)
  · rintro ⟨hno1, hno2⟩
    refine ⟨m, hfrom, Option.isSome_iff_exists.mp (hwrites.mpr ?_)⟩
    intro u hu _
    by_contra hpast
    rcases hm.origin u hu with hv | hv
    · exact hno1 (passes_overhang hm h1 h2 hu hv (by omega))
    · exact hno2 (passes_overhang (merged_symm hm) h2 h1 hu hv (by omega))

/-- The buffer reaches the end of the outer segment. -/
theorem merged_write_iff_nested :
    Apart [⟨false, 0, 8⟩] ∧ Apart [⟨false, 2, 3⟩] ∧
      ∃ m, fromOffsets (mergeOffsets [⟨false, 0, 8⟩] [⟨false, 2, 3⟩]) [1, 2] = some m ∧
        ∃ out, writeToInput m (mergeOffsets [⟨false, 0, 8⟩] [⟨false, 2, 3⟩])
          [1, 2, 3, 4, 5, 6, 7, 8] = some out :=
  ⟨by decide, by decide, (merged_write_iff (by decide) (by decide) _ _).mpr
    ⟨by simp [Overhangs], by simp [Overhangs]⟩⟩

/-- Eight bytes of which the third is in the other list too, in a file of four bytes. -/
theorem merged_write_panics : Apart [⟨false, 0, 8⟩] ∧ Apart [⟨false, 2, 3⟩] ∧
    ¬ ∃ m, fromOffsets (mergeOffsets [⟨false, 0, 8⟩] [⟨false, 2, 3⟩]) [1, 2, 3, 4] = some m ∧
      ∃ out, writeToInput m (mergeOffsets [⟨false, 0, 8⟩] [⟨false, 2, 3⟩]) [1, 2, 3, 4] =
        some out := by
  have hmerge : mergeOffsets [⟨false, 0, 8⟩] [⟨false, 2, 3⟩] = [⟨false, 0, 8⟩, ⟨false, 2, 3⟩] := by
    simp [mergeOffsets, mergeLoop]
  have hfrom : fromOffsets [⟨false, 0, 8⟩, ⟨false, 2, 3⟩] [1, 2, 3, 4] =
      some ⟨[1, 2, 3, 4, 0, 0, 0, 0, 3], [⟨false, 0, 8⟩, ⟨false, 8, 1⟩]⟩ := by decide
  refine ⟨by decide, by decide, ?_⟩
  rw [hmerge]
  rintro ⟨m, hm, out, hout⟩
  rw [← Option.some.inj (hfrom.symm.trans hm)] at hout
  have hnone : writeToInput
      ⟨[1, 2, 3, 4, 0, 0, 0, 0, 3], [⟨false, 0, 8⟩, ⟨false, 8, 1⟩]⟩
      [⟨false, 0, 8⟩, ⟨false, 2, 3⟩] [1, 2, 3, 4] = none := by decide
  rw [hnone] at hout
  cases hout

end Write

end Parmesan.MergeOffsets
