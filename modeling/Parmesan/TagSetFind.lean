import Parmesan.Segments
import Parmesan.TagSetRun

/-!
# The segments that `find` returns

`find` climbs from a label to the root and keeps a run only when it starts
before every run kept so far. A grouped run starts where its block of ones
does, so no run above it can end inside the group: the runs kept lie apart.
-/

set_option autoImplicit false

namespace Parmesan.TagSetFind
open Parmesan.TagSetModel Parmesan.TagSetInvariant Parmesan.TagSetInsert Parmesan.TagSetShape
open Parmesan.TagSetRun Parmesan.Segments Parmesan.Outcome

variable {s : TagSet} {m : Meaning}

/-- `find` stands at `lb` and keeps next only what starts before `lastBegin`:
a one right before `lastBegin` means that the chain left ends there. -/
structure Below (s : TagSet) (m : Meaning) (lb : ℕ) (tags : List TagSeg) (lastBegin : ℕ) :
    Prop where
  apart : Apart tags
  first : ∀ t ∈ tags, lastBegin ≤ t.start
  edge : tags ≠ [] → ∀ y ∈ m.bits lb, y+1 = lastBegin → (node s lb).seg.stop ≤ lastBegin

theorem below_kept {s' : TagSet} {m' : Meaning} (hk : Kept s m s' m') {lb : ℕ}
    {tags : List TagSeg} {lastBegin : ℕ} (hl : lb < size s) (h : Below s m lb tags lastBegin) :
    Below s' m' lb tags lastBegin := by
  refine ⟨h.apart, h.first, ?_⟩
  rw [hk.bits lb hl, hk.stop lb hl]
  exact h.edge

theorem stop_le_last_begin (h : Inv MAX_LB s m) {lb : ℕ} (hl : IsLabel s m lb) (h0 : lb ≠ 0)
    {tags : List TagSeg} {lastBegin : ℕ} (hb : Below s m lb tags lastBegin) (hne : tags ≠ [])
    (hlt : (node s lb).seg.start < lastBegin) : (node s lb).seg.stop ≤ lastBegin := by
  by_contra hover
  have hmem : lastBegin-1 ∈ m.bits lb := by
    rw [(parent_edge h hl h0).bits]
    exact Or.inr ⟨by omega, by omega⟩
  exact hover (hb.edge hne _ hmem (by omega))

theorem below_take (h : Inv MAX_LB s m) {lb : ℕ} (hl : IsLabel s m lb) (h0 : lb ≠ 0)
    {tags : List TagSeg} {lastBegin : ℕ} (hb : Below s m lb tags lastBegin)
    (hlt : (node s lb).seg.start < lastBegin) :
    Below s m (node s lb).parent ((node s lb).seg::tags) (node s lb).seg.start := by
  have he := parent_edge h hl h0
  constructor
  case apart =>
    rw [apart_cons]
    refine ⟨he.start, ?_, hb.apart⟩
    intro t ht
    have hstop := stop_le_last_begin h hl h0 hb (List.ne_nil_of_mem ht) hlt
    exact le_trans hstop (hb.first t ht)
  case first =>
    rw [List.forall_mem_cons]
    refine ⟨le_refl _, ?_⟩
    intro t ht
    exact le_trans (le_of_lt hlt) (hb.first t ht)
  case edge =>
    intro _ y hy hyb
    have hy' : y ∈ m.bits lb := by
      rw [he.bits]
      exact Or.inl hy
    by_contra hover
    exact he.block (by omega) y hy' hyb

theorem below_skip (h : Inv MAX_LB s m) {lb : ℕ} (hl : IsLabel s m lb) (h0 : lb ≠ 0)
    {tags : List TagSeg} {lastBegin : ℕ} (hb : Below s m lb tags lastBegin) :
    Below s m (node s lb).parent tags lastBegin := by
  have he := parent_edge h hl h0
  refine ⟨hb.apart, hb.first, ?_⟩
  intro hne y hy hyb
  have hy' : y ∈ m.bits lb := by
    rw [he.bits]
    exact Or.inl hy
  exact le_trans (le_of_lt he.stop) (hb.edge hne y hy' hyb)

theorem find_loop_apart (fuel : ℕ) : ∀ (s : TagSet) (m : Meaning) (lb : ℕ) (tags : List TagSeg)
    (lastBegin : ℕ), Inv MAX_LB s m → IsLabel s m lb → (node s lb).seg.stop ≤ fuel →
    Below s m lb tags lastBegin →
    Ensures atLimit (findLoop fuel s lb tags lastBegin) fun r => Apart r.2 := by
  induction fuel with
  | zero =>
    intro s m lb tags lastBegin h hl hfuel hb
    have h0 := TagSetCanonical.root_of_stop_zero h hl.1 (by omega)
    rw [findLoop, if_pos h0]
    exact ensures_ok _ _ _ hb.apart
  | succ fuel ih =>
    intro s m lb tags lastBegin h hl hfuel hb
    rw [findLoop]
    by_cases h0 : lb = 0
    · rw [if_pos h0]
      exact ensures_ok _ _ _ hb.apart
    rw [if_neg h0]
    refine ensures_bind (split_marked_spec h hl) ?_
    rintro ⟨s1, lb1⟩ ⟨(hlb : lb1 = lb), m1, (hinv : Inv MAX_LB s1 m1), (hkept : Kept s m s1 m1)⟩
    subst hlb
    have hl1 := label_kept hkept hl
    have hb1 := below_kept hkept hl.1 hb
    have he := parent_edge hinv hl1 h0
    have hps := he.stop
    have hstop := hkept.stop lb1 hl.1
    simp only
    split_ifs with hlt
    · exact ih s1 m1 _ _ _ hinv he.label (by omega) (below_take hinv hl1 h0 hb1 hlt)
    · exact ih s1 m1 _ _ _ hinv he.label (by omega) (below_skip hinv hl1 h0 hb1)

theorem find_apart (h : Inv MAX_LB s m) {l : ℕ} (hl : IsLabel s m l) :
    Ensures atLimit (find s l) fun r => Apart r.2 :=
  find_loop_apart _ s m l [] MAX_LB h hl (le_refl _)
    ⟨apart_nil, by simp, fun hne => absurd rfl hne⟩

/-- In every session the segments of a label start in increasing order, are not
empty and do not overlap, so that the last one ends after every covered byte. -/
theorem find_segments_apart {σ : Session} (hr : Reach σ) {l : ℕ} (hl : l ∈ issued σ) :
    Ensures atLimit (find σ.tags l) fun r =>
      r.2.Pairwise (fun t u => t.start < u.start) ∧ (∀ t ∈ r.2, t.start < t.stop) ∧
      r.2.Pairwise (fun t u => t.stop ≤ u.start) ∧ ∀ y ∈ cover r.2, y < extent r.2 := by
  obtain ⟨m, hinv, hlabels⟩ := reach_sound hr
  refine ensures_mono (find_apart hinv (hlabels l hl)) ?_
  intro r ha
  exact ⟨apart_increasing ha, ha.nonempty, ha.disjoint, fun y hy => cover_lt_extent ha hy⟩

/-- The run `[2, 4)` of label 10 is a group that its parent starts inside. -/
theorem find_segments_apart_grouped : 10 ∈ issued clashSession ∧
    Ensures atLimit (find clashSession.tags 10) fun r =>
      r.2.Pairwise (fun t u => t.start < u.start) ∧ (∀ t ∈ r.2, t.start < t.stop) ∧
      r.2.Pairwise (fun t u => t.stop ≤ u.start) ∧ ∀ y ∈ cover r.2, y < extent r.2 :=
  ⟨by decide +kernel, find_segments_apart clash_session_reach (by decide +kernel)⟩

end Parmesan.TagSetFind
