import Parmesan.TagSetRun

/-!
# Sessions without shape inference

When every run is a single offset, a label has a node for each offset on its
path. A union that exists is then found again node by node, so labels are
canonical for the sets they denote.
-/

set_option autoImplicit false

namespace Parmesan.TagSetPlain
open Parmesan.TagSetModel Parmesan.TagSetInvariant Parmesan.TagSetInsert Parmesan.TagSetShape
open Parmesan.TagSetCanonical Parmesan.TagSetChain Parmesan.TagSetCombine Parmesan.TagSetRun
open Parmesan.Outcome Parmesan.Execution

variable {s : TagSet} {m : Meaning}

structure PathAt (s : TagSet) (m : Meaning) (x p z n : ℕ) : Prop where
  label : IsLabel s m z
  stop : (node s z).seg.stop = p+1
  bits : m.bits z = m.bits x ∩ Set.Iio (p+1)
  before_lt : n < size s
  before_stop : (node s n).seg.stop = p
  before_bits : m.bits n = m.bits x ∩ Set.Iio p

theorem path_at (h : Inv MAX_LB s m) (hu : UnitRuns s m) {x p : ℕ} (hx : IsLabel s m x)
    (hp : p ∈ m.bits x) : ∃ z n, PathAt s m x p z n := by
  obtain ⟨z, hz, hpz⟩ := (bits_eq_top h hx p).mp hp
  obtain ⟨hup, hz0, -⟩ := top_up hz
  obtain ⟨hlabel, -, hbits⟩ := up_spec h hup hx
  have hunit := hu z hlabel.1 (by simpa [hz0] using hlabel.2)
  have hp1 := hpz.1
  have hp2 := hpz.2
  obtain ⟨n, hn, hr, he⟩ := one_edge_of_label h hlabel hz0
  have hstart := he.start
  have hstop := he.stop
  have hns : (node s n).seg.stop = p := by omega
  have hzs : (node s z).seg.stop = p+1 := by omega
  rw [hzs] at hbits
  have hpre : m.bits n = m.bits z ∩ Set.Iio (node s n).seg.stop :=
    (edge_precedes h ⟨hn, hz0, Or.inr hr⟩).bits
  refine ⟨z, n, hlabel, hzs, hbits, hn, hns, ?_⟩
  rw [hpre, hbits, hns, Set.inter_assoc, Set.Iio_inter_Iio, min_eq_right (by omega)]

/-- From a node that has the offsets before `p`, the zeros up to `p` and the
one at `p` lead along nodes that exist. -/
theorem run_existing (h : Inv MAX_LB s m) {x p z n cur : ℕ} (hp : p ∈ m.bits x)
    (hpath : PathAt s m x p z n) (hcur : cur < size s) (hle : (node s cur).seg.stop ≤ p)
    (hbits : m.bits n = m.bits cur) (last : ℕ) :
    insertNZeros s cur (p-(node s cur).seg.stop) last = .ok (s, n) ∧
      insertNOnes s n 1 last = .ok (s, z) := by
  have hstop := hpath.before_stop
  constructor
  · exact insert_zeros_existing h last hcur hpath.before_lt (by omega) hbits
  · apply insert_ones_existing h last hpath.before_lt hpath.label.1
    · rw [hpath.stop, hstop]
    · rw [hpath.bits, hpath.before_bits, hstop]
      ext y
      simp only [Set.mem_inter_iff, Set.mem_Iio, Set.mem_union, Set.mem_Ico]
      constructor
      · rintro ⟨hy, hlt⟩
        by_cases hyp : y < p
        · exact Or.inl ⟨hy, hyp⟩
        · exact Or.inr ⟨by omega, by omega⟩
      · rintro (⟨hy, hlt⟩ | ⟨h1, h2⟩)
        · exact ⟨hy, by omega⟩
        · rw [show y = p by omega]
          exact ⟨hp, by omega⟩

theorem insert_existing (h : Inv MAX_LB s m) (hu : UnitRuns s m) {x offset : ℕ} (hx : IsLabel s m x)
    (hbits : m.bits x = {offset}) : TagSetModel.insert s offset = .ok (s, x) := by
  have hp : offset ∈ m.bits x := by rw [hbits]; rfl
  obtain ⟨z, n, hpath⟩ := path_at h hu hx hp
  have hn : m.bits n = m.bits 0 := by
    rw [hpath.before_bits, hbits, h.root_bits]
    ext y
    simp
  obtain ⟨hzeros, hones⟩ := run_existing h hp hpath h.size_pos (by rw [h.root_stop]; omega) hn 0
  rw [h.root_stop, Nat.sub_zero] at hzeros
  have hzx : z = x := by
    apply label_unique h hpath.label hx
    rw [hpath.bits, hbits]
    ext y
    simp
  subst hzx
  have hinsert : TagSetModel.insert s offset =
      (insertNZeros s 0 offset 0 >>= fun r => insertNOnes r.1 r.2 1 0) := rfl
  rw [hinsert, hzeros]
  exact hones

/-- `cur` is on the path of `x`, and `x` has no offset before `p` that `cur` lacks. -/
theorem combine_step_existing (h : Inv MAX_LB s m) (hu : UnitRuns s m) {cur w x : ℕ}
    (hcur : IsLabel s m cur) (hw : IsLabel s m w) (hw0 : w ≠ 0) (hx : IsLabel s m x)
    (hmem : (node s w).seg.start ∈ m.bits x)
    (hpre : m.bits cur = m.bits x ∩ Set.Iio (node s cur).seg.stop)
    (hgap : ∀ y ∈ m.bits x, y < (node s w).seg.start → y ∈ m.bits cur) :
    ∃ r, combineStep s cur w = .ok (s, r) ∧ IsLabel s m r ∧
      m.bits r = m.bits x ∩ Set.Iio (node s r).seg.stop ∧
      m.bits r = m.bits cur ∪ {(node s w).seg.start} := by
  have hunit := hu w hw.1 (by simpa [hw0] using hw.2)
  have hlt := bits_lt h cur hcur.1
  by_cases hold : (node s w).seg.start < (node s cur).seg.stop
  · have hin : (node s w).seg.start ∈ m.bits cur := by
      rw [hpre]
      exact ⟨hmem, hold⟩
    refine ⟨cur, ?_, hcur, hpre, ?_⟩
    · simp only [combineStep]
      rw [if_pos (by omega), if_neg (by omega)]
    · exact (Set.union_eq_self_of_subset_right (by simpa using hin)).symm
  · obtain ⟨z, n, hpath⟩ := path_at h hu hx hmem
    have hn : m.bits n = m.bits cur := by
      rw [hpath.before_bits]
      ext y
      constructor
      · rintro ⟨hy, hys⟩
        exact hgap y hy hys
      · intro hy
        have := hlt y hy
        rw [hpre] at hy
        exact ⟨hy.1, by simp only [Set.mem_Iio]; omega⟩
    obtain ⟨hzeros, hones⟩ := run_existing h hmem hpath hcur.1 (by omega) hn cur
    have hbits : m.bits z = m.bits cur ∪ {(node s w).seg.start} := by
      rw [hpath.bits, ← hn, hpath.before_bits]
      ext y
      simp only [Set.mem_inter_iff, Set.mem_Iio, Set.mem_union, Set.mem_singleton_iff]
      constructor
      · rintro ⟨hy, hys⟩
        by_cases hyp : y = (node s w).seg.start
        · exact Or.inr hyp
        · exact Or.inl ⟨hy, by omega⟩
      · rintro (⟨hy, hys⟩ | rfl)
        · exact ⟨hy, by omega⟩
        · exact ⟨hmem, by omega⟩
    refine ⟨z, ?_, hpath.label, by rw [hpath.bits, hpath.stop], hbits⟩
    simp only [combineStep]
    by_cases heq : (node s w).seg.start ≤ (node s cur).seg.stop
    · have hcn : n = cur := node_unique h hpath.before_lt hcur.1 (by rw [hpath.before_stop]; omega) hn
      subst hcn
      rw [if_pos heq, if_pos (by omega),
        show (node s w).seg.stop-(node s n).seg.stop = 1 by omega]
      exact hones
    · rw [if_neg heq, show (node s w).seg.stop-(node s w).seg.start = 1 by omega]
      simp only [hzeros, bind, Except.bind]
      exact hones

theorem combine_pop_existing {x : ℕ} (st : List ℕ) : ∀ (s : TagSet) (cur : ℕ), Inv MAX_LB s m →
    UnitRuns s m → IsLabel s m cur → IsLabel s m x → (∀ w ∈ st, IsLabel s m w ∧ w ≠ 0) →
    (st.Pairwise fun a b => (node s a).seg.start < (node s b).seg.start) →
    m.bits cur = m.bits x ∩ Set.Iio (node s cur).seg.stop →
    m.bits x = m.bits cur ∪ {y | ∃ w ∈ st, (node s w).seg.start = y} →
    ∃ s', combinePop s cur st = .ok (s', x) ∧ size s' = size s := by
  induction st with
  | nil =>
    intro s cur h _ hcur hx _ _ _ hall
    have hcx : cur = x := label_unique h hcur hx (by rw [hall]; simp)
    exact ⟨s, by rw [combinePop, hcx], rfl⟩
  | cons w st ih =>
    intro s cur h hu hcur hx hst hsort hpre hall
    obtain ⟨hw, hw0⟩ := hst w List.mem_cons_self
    have hmem : (node s w).seg.start ∈ m.bits x := by
      rw [hall]
      exact Or.inr ⟨w, List.mem_cons_self, rfl⟩
    have hgap : ∀ y ∈ m.bits x, y < (node s w).seg.start → y ∈ m.bits cur := by
      intro y hy hlt
      rw [hall] at hy
      rcases hy with hy | ⟨v, hv, rfl⟩
      · exact hy
      · rcases List.mem_cons.mp hv with rfl | hv
        · omega
        · have := List.rel_of_pairwise_cons hsort hv
          omega
    obtain ⟨r, hstep, hr, hrpre, hrbits⟩ := combine_step_existing h hu hcur hw hw0 hx hmem hpre hgap
    obtain ⟨hinv2, hkept2⟩ := sign_inv h (node s w).seg.sign r
    have hseg := sign_segment s (node s w).seg.sign r
    have hsize := size_sign s (node s w).seg.sign r
    simp only [combinePop, hstep, bind, Except.bind]
    generalize (if (node s w).seg.sign then setSign s r else s) = s2 at hinv2 hkept2 hseg hsize
    have hrest := ih s2 r hinv2 ?_ (label_kept hkept2 hr) (label_kept hkept2 hx) ?_ ?_ ?_ ?_
    · obtain ⟨s', hpop, hs'⟩ := hrest
      exact ⟨s', hpop, hs'.trans hsize⟩
    · intro l hl h1
      rw [(hseg l).1, (hseg l).2]
      exact hu l (by omega) h1
    · intro v hv
      obtain ⟨hlv, hv0⟩ := hst v (List.mem_cons_of_mem w hv)
      exact ⟨label_kept hkept2 hlv, hv0⟩
    · exact hsort.of_cons.imp fun hab => by rw [(hseg _).1, (hseg _).1]; exact hab
    · rw [(hseg r).2]
      exact hrpre
    · rw [hall, hrbits, Set.union_assoc]
      congr 1
      ext y
      simp only [Set.mem_union, Set.mem_singleton_iff, Set.mem_ofPred_eq, List.mem_cons,
        exists_eq_or_imp, fun v => (hseg v).1]
      exact or_congr eq_comm Iff.rfl

theorem combine_existing (h : Inv MAX_LB s m) (hu : UnitRuns s m) {l1 l2 x : ℕ} (hl1 : IsLabel s m l1)
    (hl2 : IsLabel s m l2) (hx : IsLabel s m x) (hbits : m.bits x = m.bits l1 ∪ m.bits l2) :
    ∃ s', combine s l1 l2 = .ok (s', x) ∧ size s' = size s := by
  unfold combine
  by_cases h1 : l1 = 0
  · subst h1
    rw [h.root_bits, Set.empty_union] at hbits
    exact ⟨s, by rw [if_pos rfl, label_unique h hx hl2 hbits], rfl⟩
  rw [if_neg h1]
  by_cases h2 : l2 = 0 ∨ l1 = l2
  · rw [if_pos h2]
    have hx1 : m.bits x = m.bits l1 := by
      rcases h2 with rfl | rfl
      · rw [hbits, h.root_bits, Set.union_empty]
      · rw [hbits, Set.union_self]
    exact ⟨s, by rw [label_unique h hx hl1 hx1], rfl⟩
  rw [if_neg h2]
  obtain ⟨hlo, hhi, hswap⟩ := label_min_max hl1 hl2
  obtain ⟨l1', base, st, hw, hend, hwalk⟩ := combine_walk_spec h _ (min l1 l2) (max l1 l2) []
    MAX_LB hlo hhi (le_refl _)
  have hbase : (if 0 < l1' then l1' else base) = base := by
    rcases hend with rfl | rfl
    · rfl
    · simp
  rw [List.append_nil] at hw
  simp only [hw, bind, Except.bind, hbase]
  have hfree := clash_units h hl1 hl2 hu
  rw [clash_lost h hlo hhi, ← walk_bits_union h hwalk hlo hhi, hswap, ← hbits] at hfree
  have hmem := fun w hm => (⟨walk_label h hwalk hlo hhi hm, (walk_mem h hwalk hm).2.1⟩ :
    IsLabel s m w ∧ w ≠ 0)
  have hall : m.bits x = m.bits base ∪ {y | ∃ w ∈ st, (node s w).seg.start = y} := by
    rw [← hfree, walkBits]
    congr 1
    ext y
    apply exists_congr
    intro w
    apply and_congr_right
    intro hm
    obtain ⟨hlw, hw0⟩ := hmem w hm
    have := hu w hlw.1 (by simpa [hw0] using hlw.2)
    omega
  have hbl := up_spec h (walk_base h hwalk) hhi
  refine combine_pop_existing st s base h hu hbl.1 hx hmem (walk_sorted h hwalk) ?_ hall
  rw [hall]
  ext y
  constructor
  · intro hy
    exact ⟨Or.inl hy, bits_lt h base hbl.1.1 y hy⟩
  · rintro ⟨hy | ⟨w, hm, rfl⟩, hlt⟩
    · exact hy
    · exact walk_overlap h hwalk hhi hm _ (le_refl _) hlt

def isPlain : Op → Bool
  | .insert _ => true
  | .combine _ _ => true
  | .combineN _ infer => !infer
  | _ => false

def PlainReach : Session → Prop :=
  Reachable call (fun σ op => Admitted σ op ∧ isPlain op = true) newSession

/-- What a recorded call has issued, read in the present state. -/
def Records (s : TagSet) (m : Meaning) (c : Call) : Prop :=
  match c.op with
  | .insert offset => ∃ x, c.out = [x] ∧ IsLabel s m x ∧ m.bits x = {offset}
  | .combine l1 l2 => ∃ x, c.out = [x] ∧ IsLabel s m l1 ∧ IsLabel s m l2 ∧ IsLabel s m x ∧
      m.bits x = m.bits l1 ∪ m.bits l2
  | _ => True

theorem records_kept {s' : TagSet} {m' : Meaning} (hk : Kept s m s' m') {c : Call}
    (h : Records s m c) : Records s' m' c := by
  unfold Records at h ⊢
  split at h
  · obtain ⟨x, hout, hx, hbits⟩ := h
    exact ⟨x, hout, label_kept hk hx, by rw [hk.bits x hx.1, hbits]⟩
  · obtain ⟨x, hout, hl1, hl2, hx, hbits⟩ := h
    exact ⟨x, hout, label_kept hk hl1, label_kept hk hl2, label_kept hk hx,
      by rw [hk.bits x hx.1, hk.bits _ hl1.1, hk.bits _ hl2.1, hbits]⟩
  · trivial

theorem plain_step_spec (h : Inv MAX_LB s m) (hu : UnitRuns s m) {op : Op}
    (hl : ∀ l ∈ opLabels op, IsLabel s m l) (ho : opOffset op < MAX_LB)
    (hp : isPlain op = true) :
    Ensures atLimit (step s op) fun r => ∃ m', Stepped MAX_LB s m r.1 m' r.2 ∧ UnitRuns r.1 m' ∧
      Records r.1 m' ⟨op, r.2⟩ := by
  cases op with
  | insert offset =>
    refine issue_ensures (insert_spec h ho) ?_
    rintro s' lb ⟨m', hins, hone, hunit⟩
    have hlb : IsLabel s' m' lb := ⟨hins.lt, Or.inr hone⟩
    exact ⟨m', ⟨hins.inv, hins.kept, by simpa using hlb⟩, hunit hu, lb, rfl, hlb, hins.bits⟩
  | combine l1 l2 =>
    have hl1 := hl l1 (by simp [opLabels])
    have hl2 := hl l2 (by simp [opLabels])
    refine issue_ensures (combine_spec h hl1 hl2) ?_
    rintro s' lb ⟨m', hc⟩
    refine ⟨m', ⟨hc.inv, hc.kept, by simpa using hc.label⟩, hc.units hu, lb, rfl,
      label_kept hc.kept hl1, label_kept hc.kept hl2, hc.label, ?_⟩
    rw [hc.kept.bits l1 hl1.1, hc.kept.bits l2 hl2.1]
    exact (hc.union rfl).mpr (clash_units h hl1 hl2 hu)
  | combineN lbs infer =>
    refine issue_ensures (combine_n_spec h hl infer) ?_
    rintro s' lb ⟨m', hinv, hkept, hlabel, hunit⟩
    exact ⟨m', ⟨hinv, hkept, by simpa using hlabel⟩, hunit (by simpa [isPlain] using hp) hu, trivial⟩
  | inferShape2 | setSign | combineAnd | splitAndOp | find => cases hp

/-- A session without shape inference: one meaning serves all its calls. -/
structure PlainSound (σ : Session) (m : Meaning) : Prop where
  inv : Inv MAX_LB σ.tags m
  units : UnitRuns σ.tags m
  labels : ∀ l ∈ issued σ, IsLabel σ.tags m l
  records : ∀ c ∈ σ.calls, Records σ.tags m c

theorem plain_reach_sound {σ : Session} (hr : PlainReach σ) : ∃ m, PlainSound σ m := by
  refine reachable_invariant (P := fun σ => ∃ m, PlainSound σ m) ?_ ?_ hr
  · obtain ⟨m, hinv, hlabels⟩ := new_session_sound MAX_LB
    refine ⟨m, hinv, ?_, hlabels, by simp [newSession]⟩
    intro l hl h1
    obtain rfl : l = 0 := by simpa [size, newSession, newTagSet] using hl
    rw [hinv.root_one] at h1
    cases h1
  · rintro σ op τ ⟨m, h⟩ ⟨ha, hp⟩ hc
    obtain ⟨s, out, hstep, rfl⟩ := call_cases hc
    have hspec := plain_step_spec h.inv h.units (fun l hl => h.labels l (ha.1 l hl)) ha.2 hp
    obtain ⟨m', hs, hunits, hrec⟩ := ensures_value hspec hstep
    refine ⟨m', hs.inv, hunits, ?_, ?_⟩
    · intro l hl
      rcases (issued_call σ s op out l).mp hl with hout | hold
      · exact hs.labels l hout
      · exact label_kept hs.kept (h.labels l hold)
    · intro c hc
      rcases List.mem_cons.mp hc with rfl | hc
      · exact hrec
      · exact records_kept hs.kept (h.records c hc)

theorem combine_record {σ : Session} (h : PlainSound σ m) {l1 l2 x : ℕ}
    (hc : ⟨.combine l1 l2, [x]⟩ ∈ σ.calls) : IsLabel σ.tags m l1 ∧ IsLabel σ.tags m l2 ∧
      IsLabel σ.tags m x ∧ m.bits x = m.bits l1 ∪ m.bits l2 := by
  obtain ⟨x', hout, hl1, hl2, hx, hbits⟩ := h.records _ hc
  obtain rfl : x = x' := by simpa using hout
  exact ⟨hl1, hl2, hx, hbits⟩

theorem combine_comm (s : TagSet) (l1 l2 : ℕ) : combine s l1 l2 = combine s l2 l1 := by
  unfold combine
  rw [min_comm l1 l2, max_comm l1 l2]
  by_cases h1 : l1 = 0
  · by_cases h2 : l2 = 0 <;> simp [h1, h2]
  · by_cases h2 : l2 = 0
    · simp [h1, h2]
    · by_cases h3 : l1 = l2
      · subst h3
        rfl
      · simp [h1, h2, h3, Ne.symm h3]

/-- Labels are canonical in a session without shape inference. `combine` is
commutative as a computation; across the session it is associative in the
labels it has returned, and a repeated call makes no node. -/
theorem plain_labels_canonical {σ : Session} (hr : PlainReach σ) :
    (∀ l1 ∈ issued σ, ∀ l2 ∈ issued σ, Ensures atLimit (find σ.tags l1) fun f1 =>
      Ensures atLimit (find σ.tags l2) fun f2 => (l1 = l2 ↔ cover f1.2 = cover f2.2)) ∧
    (∀ l1 l2, combine σ.tags l1 l2 = combine σ.tags l2 l1) ∧
    (∀ a b x y, ⟨.combine a b, [x]⟩ ∈ σ.calls → ⟨.combine b a, [y]⟩ ∈ σ.calls → x = y) ∧
    (∀ a b c x y z w, ⟨.combine a b, [x]⟩ ∈ σ.calls → ⟨.combine x c, [y]⟩ ∈ σ.calls →
      ⟨.combine b c, [z]⟩ ∈ σ.calls → ⟨.combine a z, [w]⟩ ∈ σ.calls → y = w) ∧
    (∀ a, combine σ.tags a a = .ok (σ.tags, a) ∧ combine σ.tags 0 a = .ok (σ.tags, a) ∧
      combine σ.tags a 0 = .ok (σ.tags, a)) ∧
    (∀ a b x, ⟨.combine a b, [x]⟩ ∈ σ.calls →
      ∃ s, combine σ.tags a b = .ok (s, x) ∧ size s = size σ.tags) ∧
    (∀ offset x, ⟨.insert offset, [x]⟩ ∈ σ.calls →
      TagSetModel.insert σ.tags offset = .ok (σ.tags, x)) := by
  obtain ⟨m, h⟩ := plain_reach_sound hr
  refine ⟨?_, combine_comm σ.tags, ?_, ?_, ?_, ?_, ?_⟩
  · intro l1 hl1 l2 hl2
    refine ensures_mono (find_spec h.inv (h.labels l1 hl1)) ?_
    rintro f1 ⟨-, -, -, hcover1⟩
    refine ensures_mono (find_spec h.inv (h.labels l2 hl2)) ?_
    rintro f2 ⟨-, -, -, hcover2⟩
    rw [hcover1 le_rfl, hcover2 le_rfl]
    constructor
    · rintro rfl
      rfl
    · exact label_unique h.inv (h.labels l1 hl1) (h.labels l2 hl2)
  · intro a b x y hx hy
    obtain ⟨-, -, hlx, hbx⟩ := combine_record h hx
    obtain ⟨-, -, hly, hby⟩ := combine_record h hy
    exact label_unique h.inv hlx hly (by rw [hbx, hby, Set.union_comm])
  · intro a b c x y z w hx hy hz hw
    obtain ⟨-, -, -, hbx⟩ := combine_record h hx
    obtain ⟨-, -, hly, hby⟩ := combine_record h hy
    obtain ⟨-, -, -, hbz⟩ := combine_record h hz
    obtain ⟨-, -, hlw, hbw⟩ := combine_record h hw
    exact label_unique h.inv hly hlw (by rw [hby, hbw, hbx, hbz, Set.union_assoc])
  · intro a
    by_cases h0 : a = 0 <;> simp [combine, h0]
  · intro a b x hx
    obtain ⟨hla, hlb, hlx, hbx⟩ := combine_record h hx
    exact combine_existing h.inv h.units hla hlb hlx hbx
  · intro offset x hx
    obtain ⟨x', hout, hlx, hbx⟩ := h.records _ hx
    obtain rfl : x = x' := by simpa using hout
    exact insert_existing h.inv h.units hlx hbx

def plainOps : List Op :=
  [.insert 0, .insert 1, .insert 2, .combine 1 3, .combine 6 5, .combine 3 5, .combine 1 8]

def plainSession : Session := (replay call
  (fun σ op => Admitted σ op ∧ isPlain op = true) newSession plainOps).getD newSession

theorem plain_labels_canonical_assoc : ⟨.combine 6 5, [7]⟩ ∈ plainSession.calls ∧
    ⟨.combine 1 8, [7]⟩ ∈ plainSession.calls ∧
    ∃ s, combine plainSession.tags 6 5 = .ok (s, 7) ∧ size s = size plainSession.tags := by
  have hr : PlainReach plainSession := replay_reachable plainOps _ _ (by decide +kernel)
  have hc : ⟨.combine 6 5, [7]⟩ ∈ plainSession.calls := by decide +kernel
  exact ⟨hc, by decide +kernel, (plain_labels_canonical hr).2.2.2.2.2.1 6 5 7 hc⟩

end Parmesan.TagSetPlain
