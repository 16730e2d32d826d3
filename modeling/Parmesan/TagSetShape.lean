import Parmesan.TagSetCanonical

/-!
# Shape inference and its undoing

Grouping moves the `start` of a run back over ones that its path has already,
splitting moves it forward again. Neither changes what a label stands for.
-/

set_option autoImplicit false

namespace Parmesan.TagSetShape
open Parmesan.TagSetModel Parmesan.TagSetInvariant Parmesan.TagSetInsert Parmesan.Outcome

variable {top : ℕ} {s : TagSet} {m : Meaning}

/-- The links and ends stay; only the `start` of one runs may differ. -/
structure SameLinks (s : TagSet) (m : Meaning) (s' : TagSet) : Prop where
  size : size s' = size s
  left : ∀ i, (node s' i).left = (node s i).left
  right : ∀ i, (node s' i).right = (node s i).right
  parent : ∀ i, (node s' i).parent = (node s i).parent
  stop : ∀ i, (node s' i).seg.stop = (node s i).seg.stop
  start : ∀ i, m.one i = false → (node s' i).seg.start = (node s i).seg.start

theorem same_links_kept {s' : TagSet} (h : SameLinks s m s') : Kept s m s' m :=
  ⟨le_of_eq h.size.symm, fun i _ => h.stop i, fun _ _ => rfl, fun _ _ => rfl,
    fun i _ => by simp only [lastOne, h.parent]⟩

theorem same_links_inv (h : Inv top s m) {s' : TagSet} (hl : SameLinks s m s')
    (one : ∀ n, n < size s → (node s n).right ≠ 0 → OneEdge s' m n (node s n).right) :
    Inv top s' m where
  size_pos := by rw [hl.size]; exact h.size_pos
  root_parent := by rw [hl.parent]; exact h.root_parent
  root_start := by rw [hl.start 0 h.root_one]; exact h.root_start
  root_stop := by rw [hl.stop]; exact h.root_stop
  root_bits := h.root_bits
  root_one := h.root_one
  zero := by
    intro n hn h0
    rw [hl.size] at hn
    rw [hl.left] at h0 ⊢
    have he := h.zero n hn h0
    exact zero_edge_kept (same_links_kept hl) hn he (hl.start _ he.one) (hl.parent _)
  one := by
    intro n hn h0
    rw [hl.size] at hn
    rw [hl.right] at h0 ⊢
    exact one n hn h0
  tree := by
    intro c hc h0
    rw [hl.size] at hc
    obtain ⟨n, hn, hc'⟩ := h.tree c hc h0
    exact ⟨n, by rw [hl.size]; exact hn, by rw [hl.left, hl.right]; exact hc'⟩
  left_inj := by
    intro i j hi hj h0 he
    rw [hl.size] at hi hj
    rw [hl.left] at h0
    rw [hl.left, hl.left] at he
    exact h.left_inj i j hi hj h0 he
  right_inj := by
    intro i j hi hj h0 he
    rw [hl.size] at hi hj
    rw [hl.right] at h0
    rw [hl.right, hl.right] at he
    exact h.right_inj i j hi hj h0 he
  limit := by
    intro n hn
    rw [hl.size] at hn
    rw [hl.stop]
    exact h.limit n hn
  unit := by
    intro l hll h1 hp
    rw [hl.size] at hll
    have h0 : l ≠ 0 := by
      rintro rfl
      rw [h.root_one] at h1
      cases h1
    obtain ⟨n, hn, hr, he⟩ := one_edge_of_label h ⟨hll, Or.inr h1⟩ h0
    have he' := one n hn (by omega)
    rw [hr] at he'
    rw [hl.parent] at hp
    have hu := h.unit l hll h1 hp
    have hlo := last_one_spec h n hn
    rw [← he.parent, hp] at hlo
    have hbits : m.bits l = Set.Ico (node s n).seg.stop (node s l).seg.stop := by
      rw [he.bits, ← hlo.bits, h.root_bits, Set.empty_union]
    have hs := he'.start
    have hstop := he.stop
    have hstart := he.start
    have hmem := he'.run ⟨le_refl _, by rw [hl.stop] at hs ⊢; omega⟩
    rw [hbits] at hmem
    have := hmem.1
    rw [hl.stop] at hs ⊢
    omega

theorem flag_links (lb : ℕ) (f : TagNode → TagNode)
    (hf : ∀ n, (f n).left = n.left ∧ (f n).right = n.right ∧ (f n).parent = n.parent ∧
      (f n).seg.stop = n.seg.stop ∧ (f n).seg.start = n.seg.start) (m : Meaning) :
    SameLinks s m (modifyNode s lb f) ∧
      ∀ i, (node (modifyNode s lb f) i).seg.start = (node s i).seg.start := by
  by_cases hlb : lb < size s
  · have hnode := node_modify_node s lb f hlb
    obtain ⟨h1, h2, h3, h4, h5⟩ := hf (node s lb)
    refine ⟨⟨by simp, ?_, ?_, ?_, ?_, ?_⟩, ?_⟩ <;>
      (intro i; rw [hnode]; split_ifs with hi <;> simp_all)
  · have hsame : modifyNode s lb f = s := by
      have hlen : s.nodes.length ≤ lb := Nat.le_of_not_lt hlb
      cases s with
      | mk nodes => simp [modifyNode, List.modify_eq_self hlen]
    rw [hsame]
    exact ⟨⟨rfl, fun _ => rfl, fun _ => rfl, fun _ => rfl, fun _ => rfl, fun _ _ => rfl⟩,
      fun _ => rfl⟩

theorem flag_inv (h : Inv top s m) {lb : ℕ} (f : TagNode → TagNode)
    (hf : ∀ n, (f n).left = n.left ∧ (f n).right = n.right ∧ (f n).parent = n.parent ∧
      (f n).seg.stop = n.seg.stop ∧ (f n).seg.start = n.seg.start) :
    Inv top (modifyNode s lb f) m ∧ Kept s m (modifyNode s lb f) m := by
  obtain ⟨hl, hstart⟩ := flag_links (s := s) lb f hf m
  refine ⟨same_links_inv h hl ?_, same_links_kept hl⟩
  intro n hn h0
  exact one_edge_kept (same_links_kept hl) h hn (h.one n hn h0) (hstart _) (hl.parent _)

theorem set_sign_inv (h : Inv top s m) (lb : ℕ) :
    Inv top (setSign s lb) m ∧ Kept s m (setSign s lb) m :=
  flag_inv h _ fun _ => ⟨rfl, rfl, rfl, rfl, rfl⟩

theorem combine_and_inv (h : Inv top s m) (lb : ℕ) :
    Inv top (combineAnd s lb) m ∧ Kept s m (combineAnd s lb) m :=
  flag_inv h _ fun _ => ⟨rfl, rfl, rfl, rfl, rfl⟩

/-- A run may start at `b` when the ones from `b` on and the path above cover it,
and `b` is not in the middle of a block of ones of that path. -/
theorem restart_inv (h : Inv top s m) {l b : ℕ} (hl : IsLabel s m l) (h0 : l ≠ 0)
    (hbits : m.bits l = m.bits (node s l).parent ∪ Set.Ico b (node s l).seg.stop)
    (hblock : b < (node s (node s l).parent).seg.stop → ∀ y ∈ m.bits l, y+1 ≠ b) :
    Inv top (setStart s l b) m ∧ Kept s m (setStart s l b) m := by
  have h1 : m.one l = true := by simpa [h0] using hl.2
  have hnode := node_modify_node s l (fun n => { n with seg := { n.seg with start := b } }) hl.1
  have hlinks : SameLinks s m (setStart s l b) := by
    refine ⟨by simp [setStart], ?_, ?_, ?_, ?_, ?_⟩
    all_goals intro i
    all_goals rw [setStart, hnode]
    all_goals split_ifs with hi
    all_goals simp_all
  refine ⟨same_links_inv h hlinks ?_, same_links_kept hlinks⟩
  intro n hn hr0
  have he := h.one n hn hr0
  have hk := same_links_kept hlinks
  by_cases hr : (node s n).right = l
  · rw [hr] at he ⊢
    have hstart : (node (setStart s l b) l).seg.start = b := by
      rw [setStart, hnode, if_pos rfl]
    have hlo := last_one_spec h n hn
    rw [← he.parent] at hlo
    constructor
    case lt => rw [hlinks.size]; exact he.lt
    case stop => rw [hlinks.stop, hlinks.stop]; exact he.stop
    case start =>
      rw [hstart, hlinks.stop]
      have hmem : (node s n).seg.stop ∈ m.bits l := by
        rw [he.bits]
        exact Or.inr ⟨le_refl _, he.stop⟩
      rw [hbits] at hmem
      rcases hmem with hm | hm
      · have := bits_lt h _ hlo.label.1 _ hm
        have := hlo.stop
        omega
      · exact hm.1
    case bits => rw [hlinks.stop, hlinks.stop]; exact he.bits
    case one => exact he.one
    case parent => rw [hlinks.parent, hk.last n hn]; exact he.parent
    case run =>
      rw [hstart, hlinks.stop, hbits]
      exact Set.subset_union_right
    case block =>
      rw [hstart, hlinks.parent, hlinks.stop]
      exact hblock
  · have hstart : (node (setStart s l b) (node s n).right).seg.start =
        (node s (node s n).right).seg.start := by
      rw [setStart, hnode, if_neg hr]
    exact one_edge_kept hk h hn he hstart (hlinks.parent _)

structure Spliced (s s' : TagSet) (cur r : ℕ) : Prop where
  size : size s' = TagSetModel.size s+1
  fresh : ¬ r < TagSetModel.size s
  link : (node s' cur).right = r
  right : ∀ i, i < TagSetModel.size s → i ≠ cur → (node s' i).right = (node s i).right

/-- `lb` is reached from `cur` along right links, over one node for each offset between. -/
structure Spine (s s' : TagSet) (cur lb : ℕ) : Prop where
  size : size s'+1 = TagSetModel.size s+((node s lb).seg.stop-(node s cur).seg.stop)
  arrives : (fun i : ℕ => (node s' i).right)^[(node s lb).seg.stop-(node s cur).seg.stop] cur = lb
  right : ∀ i, i < TagSetModel.size s → i ≠ cur → (node s' i).right = (node s i).right

theorem split_step (h : Inv top s m) {cur lb : ℕ} (hcur : IsLabel s m cur) (hc0 : cur ≠ 0)
    (hr : (node s cur).right = lb) (hlb : lb ≠ 0) :
    Ensures atLimit (insertNOnes s cur 1 cur) fun r => ∃ m', Inv top r.1 m' ∧ Kept s m r.1 m' ∧
      (node r.1 r.2).seg.stop = (node s cur).seg.stop+1 ∧ IsLabel r.1 m' r.2 ∧ r.2 ≠ 0 ∧
      ((node s lb).seg.stop ≤ (node s cur).seg.stop+1 ∧ r = (s, lb) ∨
        (node s cur).seg.stop+1 < (node s lb).seg.stop ∧ (node r.1 r.2).right = lb ∧
          Spliced s r.1 cur r.2) := by
  have he := h.one cur hcur.1 (by omega)
  rw [hr] at he
  have hsp := he.stop
  have hlast : lastOne s m cur = cur := label_last_one h hcur
  simp only [insertNOnes, insertNOnesLoop, hr, if_neg hlb]
  rw [if_neg (by decide)]
  by_cases hsplit : 1 < (node s lb).seg.stop-(node s cur).seg.stop
  · rw [if_pos hsplit]
    apply ensures_bind (new_node_ensures _ _ _ _)
    rintro _ rfl
    apply ensures_ok
    have hcl : cur ≠ (node s cur).right := by
      rw [hr]
      rintro rfl
      omega
    have hnode := split_one_node (n := 1) hcur.1 (by omega) (right_lt h cur) hcl cur
    rw [hr, show graftOne s cur 1 cur = graftOne s cur 1 (lastOne s m cur) by rw [hlast]] at hnode
    obtain ⟨m', hins, hone, hright, -⟩ := graft_one_inserted (n := 1) h hcur.1 (by decide)
      (fun hz => absurd (hlast.symm.trans hz) hc0) (by rw [hr]; omega)
      (by have := h.limit lb he.lt; omega)
      (by simp only [setRight, setParent, setStart, size_modify_node, size_push])
      hnode
    have hpos := h.size_pos
    refine ⟨m', hins.inv, hins.kept, hins.stop, ⟨hins.lt, Or.inr hone⟩, by omega,
      Or.inr ⟨by omega, hright.trans hr, ?_⟩⟩
    have hne := Nat.ne_of_lt hcur.1
    constructor
    · simp only [setRight, setParent, setStart, size_modify_node, size_push]
    · exact Nat.lt_irrefl _
    · simp only [hnode, graftOne, if_neg hne, if_true]
    · intro i hi hic
      simp only [hnode, graftOne, if_neg (Nat.ne_of_lt hi), if_neg hic]
      split_ifs with hnext
      · rw [hnext.1]
      · rfl
  · rw [if_neg hsplit, show 1-((node s lb).seg.stop-(node s cur).seg.stop) = 0 by omega]
    have hstop : (node s lb).seg.stop = (node s cur).seg.stop+1 := by omega
    exact ensures_ok _ _ _ ⟨m, h, kept_refl s m, hstop, ⟨he.lt, Or.inr he.one⟩, hlb,
      Or.inl ⟨by omega, rfl⟩⟩

theorem spine_step {s s' s'' : TagSet} {cur lb r : ℕ}
    (hlb : (node s' lb).seg.stop = (node s lb).seg.stop)
    (hstop : (node s' r).seg.stop = (node s cur).seg.stop+1)
    (hlt : (node s cur).seg.stop+1 < (node s lb).seg.stop) (hcur : cur < size s)
    (hnew : Spliced s s' cur r) (hspine : Spine s' s'' r lb) : Spine s s'' cur lb := by
  have hsize := hspine.size
  have harrives := hspine.arrives
  have hne : ∀ i, i < size s → i ≠ r := by
    rintro i hi rfl
    exact hnew.fresh hi
  have hlt' : ∀ i, i < size s → i < size s' := by
    intro i hi
    rw [hnew.size]
    omega
  rw [hlb, hstop, hnew.size] at hsize
  rw [hlb, hstop] at harrives
  refine ⟨by omega, ?_, ?_⟩
  · rw [show (node s lb).seg.stop-(node s cur).seg.stop =
      (node s lb).seg.stop-((node s cur).seg.stop+1)+1 by omega, Function.iterate_succ_apply,
      hspine.right cur (hlt' cur hcur) (hne cur hcur), hnew.link]
    exact harrives
  · intro i hi hic
    rw [hspine.right i (hlt' i hi) (hne i hi), hnew.right i hi hic]

theorem split_loop_spec (fuel : ℕ) : ∀ (s : TagSet) (m : Meaning) (cur lb : ℕ), Inv top s m →
    IsLabel s m cur → cur ≠ 0 → (node s cur).right = lb → lb ≠ 0 →
    (node s lb).seg.stop ≤ (node s cur).seg.stop+fuel →
    Ensures atLimit (splitLoop fuel s cur lb) fun s' => ∃ m', Inv top s' m' ∧ Kept s m s' m' ∧
      (node s' (node s' lb).parent).seg.stop+1 = (node s' lb).seg.stop ∧
      IsLabel s' m' lb ∧ Spine s s' cur lb := by
  induction fuel with
  | zero =>
    intro s m cur lb h hcur hc0 hr hlb hfuel
    have := (h.one cur hcur.1 (by omega)).stop
    rw [hr] at this
    omega
  | succ fuel ih =>
    intro s m cur lb h hcur hc0 hr hlb hfuel
    have he := h.one cur hcur.1 (by omega)
    rw [hr] at he
    have hsp := he.stop
    have hne : cur ≠ lb := by
      rintro rfl
      omega
    rw [splitLoop, if_neg hne]
    refine ensures_bind (split_step h hcur hc0 hr hlb) ?_
    rintro ⟨s', r⟩ ⟨m', hinv, hkept, hstop, hlabel, hr0, ⟨hle, heq⟩ | ⟨hlt, hright, hnew⟩⟩
    · obtain ⟨rfl, rfl⟩ := Prod.mk.inj heq
      have hdone : splitLoop fuel s' r r = .ok s' := by
        cases fuel with
        | zero => rw [splitLoop, if_pos rfl]
        | succ fuel => rw [splitLoop, if_pos rfl]
      simp only [hdone]
      refine ensures_ok _ _ _ ⟨m, h, kept_refl s' m, ?_, ⟨he.lt, Or.inr he.one⟩, ?_⟩
      · rw [he.parent, label_last_one h hcur]
        omega
      · have hone : (node s' r).seg.stop-(node s' cur).seg.stop = 1 := by omega
        exact ⟨by rw [hone], by rw [hone]; exact hr, fun _ _ _ => rfl⟩
    · refine ensures_mono (ih s' m' r lb hinv hlabel hr0 hright hlb ?_) ?_
      · rw [hkept.stop lb he.lt, hstop]
        omega
      · rintro s'' ⟨m'', hinv'', hkept'', hlast, hlabel'', hspine⟩
        exact ⟨m'', hinv'', kept_trans hkept hkept'', hlast, hlabel'',
          spine_step (hkept.stop lb he.lt) hstop hlt hcur.1 hnew hspine⟩

/-- A grouped run hangs directly below its parent: a gap between them would
put a zero inside the group. -/
theorem grouped_right (h : Inv top s m) {l : ℕ} (hl : IsLabel s m l) (h0 : l ≠ 0)
    (hp : (node s l).parent ≠ 0)
    (hg : (node s l).seg.start ≤ (node s (node s l).parent).seg.start) :
    (node s (node s l).parent).right = l := by
  obtain ⟨n, hn, hr, he⟩ := one_edge_of_label h hl h0
  have hpe := he.parent
  cases h1 : m.one n with
  | true =>
    have hpn : (node s l).parent = n := by simpa [lastOne, h1] using hpe
    rw [hpn]
    exact hr
  | false =>
    exfalso
    have hn0 : n ≠ 0 := by
      rintro rfl
      simp [lastOne, h1, h.root_parent] at hpe
      exact hp hpe
    obtain ⟨n0, hn0l, hc | hc⟩ := h.tree n hn hn0
    · have hz : ZeroEdge s m n0 n := hc ▸ h.zero n0 hn0l (by omega)
      have hlo := last_one_spec h n0 hn0l
      have hlast : lastOne s m n0 = (node s l).parent := by
        rw [hpe, ← hz.parent]
        simp [lastOne, h1]
      rw [hlast] at hlo
      have hps := (parent_edge h hlo.label hp).start
      have hzs := hz.stop
      have hes := he.stop
      have hls := hlo.stop
      have hmem : (node s n).seg.stop-1 ∈ m.bits l := he.run ⟨by omega, by omega⟩
      rw [he.bits, hz.bits] at hmem
      rcases hmem with hm | hm
      · have := bits_lt h n0 hn0l _ hm
        omega
      · have := hm.1
        omega
    · have ho : OneEdge s m n0 n := hc ▸ h.one n0 hn0l (by omega)
      rw [ho.one] at h1
      cases h1

theorem split_and_op_spec (h : Inv top s m) {l : ℕ} (hl : IsLabel s m l) :
    Ensures atLimit (splitAndOp s l) fun r => r.2 = l ∧ ∃ m', Inv top r.1 m' ∧ Kept s m r.1 m' := by
  simp only [splitAndOp]
  by_cases hc : 1 < (node s l).seg.stop-(node s l).seg.start ∧ (node s l).parent ≠ ROOT ∧
      (node s l).seg.start ≤ (node s (node s l).parent).seg.start
  · rw [if_pos hc]
    obtain ⟨hlen, hp, hg⟩ := hc
    have h0 : l ≠ 0 := by
      rintro rfl
      rw [h.root_stop] at hlen
      omega
    have he := parent_edge h hl h0
    have hes := he.stop
    rw [if_pos hes]
    refine ensures_bind (split_loop_spec _ s m _ l h he.label hp (grouped_right h hl h0 hp hg) h0
      (by omega)) ?_
    rintro s' ⟨m', hinv, hkept, hstop, hlabel, -⟩
    have he' := parent_edge hinv hlabel h0
    rw [hkept.stop l hl.1] at hstop
    have hone : (node s l).seg.stop-1 ∈ m'.bits l := by
      rw [he'.bits, hkept.stop l hl.1]
      have := he'.start
      rw [hkept.stop l hl.1] at this
      exact Or.inr ⟨by omega, by omega⟩
    have hlt := bits_lt hinv l hlabel.1
    rw [hkept.stop l hl.1] at hlt
    have hbits : m'.bits l = m'.bits (node s' l).parent ∪
        Set.Ico ((node s l).seg.stop-1) (node s' l).seg.stop := by
      rw [hkept.stop l hl.1, he'.below]
      ext y
      constructor
      · intro hy
        have := hlt y hy
        by_cases hys : y < (node s' (node s' l).parent).seg.stop
        · exact Or.inl ⟨hy, hys⟩
        · exact Or.inr ⟨by omega, by omega⟩
      · rintro (hy | hy)
        · exact hy.1
        · have h1 := hy.1
          have h2 := hy.2
          rw [show y = (node s l).seg.stop-1 by omega]
          exact hone
    obtain ⟨hinv', hkept'⟩ := restart_inv hinv hlabel h0 hbits (by omega)
    exact ensures_ok _ _ _ ⟨rfl, m', hinv', kept_trans hkept hkept'⟩
  · rw [if_neg hc]
    exact ensures_ok _ _ _ ⟨rfl, m, h, kept_refl s m⟩

theorem split_marked_spec (h : Inv top s m) {lb : ℕ} (hl : IsLabel s m lb) :
    Ensures atLimit (splitMarked s lb) fun r =>
      r.2 = lb ∧ ∃ m', Inv top r.1 m' ∧ Kept s m r.1 m' := by
  unfold splitMarked
  split_ifs
  · exact split_and_op_spec h hl
  · exact ensures_ok _ _ _ ⟨rfl, m, h, kept_refl s m⟩

theorem root_label_bits (h : Inv top s m) {l : ℕ} (hl : IsLabel s m l) (h0 : l ≠ 0)
    (hp : (node s l).parent = ROOT) :
    (node s l).seg.stop = (node s l).seg.start+1 ∧ m.bits l = {(node s l).seg.start} := by
  have h1 : m.one l = true := by simpa [h0] using hl.2
  have hu := h.unit l hl.1 h1 hp
  have he := parent_edge h hl h0
  rw [hp] at he
  refine ⟨hu, ?_⟩
  rw [he.bits, ROOT, h.root_bits, hu]
  ext y
  simp
  omega

def Groups (s : TagSet) (l1 l2 len : ℕ) : Prop :=
  (len = 2 ∨ len = 4 ∨ len = 8) ∧ (node s l1).parent = ROOT ∧ (node s l2).parent = ROOT ∧
    (node s l1).seg.start+len = (node s l2).seg.stop

instance (s : TagSet) (l1 l2 len : ℕ) : Decidable (Groups s l1 l2 len) :=
  inferInstanceAs (Decidable (_ ∧ _))

theorem infer_shape_declines (s : TagSet) {l1 l2 len : ℕ} (hg : ¬ Groups s l1 l2 len) :
    inferShape s l1 l2 len = .ok (s, none) := by
  unfold Groups at hg
  unfold inferShape
  split_ifs with h1 h2
  · rfl
  · exact absurd ⟨by omega, h2⟩ hg
  · rfl

theorem infer_shape_groups (h : Inv top s m) {l1 l2 len : ℕ} (hl : IsLabel s m l1) (h0 : l1 ≠ 0)
    (hl2 : IsLabel s m l2) (hg : Groups s l1 l2 len) :
    Ensures atLimit (inferShape s l1 l2 len) fun r => ∃ lb m', r.2 = some lb ∧ Inv top r.1 m' ∧
      Kept s m r.1 m' ∧ IsLabel r.1 m' lb ∧ lb ≠ 0 ∧
      m'.bits lb = Set.Ico (node s l1).seg.start ((node s l1).seg.start+len) := by
  obtain ⟨hlen, hp1, hp2, hlen2⟩ := hg
  obtain ⟨hu, hb⟩ := root_label_bits h hl h0 hp1
  have hlim := h.limit l2 hl2.1
  unfold inferShape
  rw [if_neg (by omega), if_pos ⟨hp1, hp2, hlen2⟩]
  refine ensures_bind (insert_ones_label h hl (by omega) ?_ (by omega)) ?_
  · intro hz
    exact absurd ((label_last_one h hl).symm.trans hz) h0
  rintro ⟨s', r⟩ ⟨m', hins, hone, -⟩
  have hbits : m'.bits r = Set.Ico (node s l1).seg.start ((node s l1).seg.start+len) := by
    rw [hins.bits, hb, hu]
    ext y
    simp
    omega
  have hr : IsLabel s' m' r := ⟨hins.lt, Or.inr hone⟩
  have hr0 : r ≠ 0 := by
    rintro rfl
    rw [hins.inv.root_one] at hone
    cases hone
  have hstart : (node s' l1).seg.start = (node s l1).seg.start := by
    by_contra hne
    have h1 : m.one l1 = true := by simpa [h0] using hl.2
    have hright : (node s' r).right = l1 := (hins.moved l1 hl.1 h1 hne).1
    have he := (hins.inv.one r hins.lt (by rw [hright]; exact h0)).stop
    rw [hright, hins.stop, hins.kept.stop l1 hl.1] at he
    omega
  have hpe := parent_edge hins.inv hr hr0
  have hcover : m'.bits r = m'.bits (node s' r).parent ∪
      Set.Ico (node s' l1).seg.start (node s' r).seg.stop := by
    rw [hstart, hins.stop, hu, show (node s l1).seg.start+1+(len-1) =
      (node s l1).seg.start+len by omega, ← hbits, hpe.below]
    exact (Set.union_eq_self_of_subset_left Set.inter_subset_left).symm
  obtain ⟨hinv', hkept'⟩ := restart_inv hins.inv hr hr0 hcover (by
    intro _ y hy
    rw [hbits] at hy
    have := hy.1
    omega)
  exact ensures_ok _ _ _ ⟨r, m', rfl, hinv', kept_trans hins.kept hkept',
    label_kept hkept' hr, hr0, hbits⟩

theorem climb_spec (h : Inv top s m) (k : ℕ) : ∀ l cur, IsLabel s m l → l ≠ 0 →
    climb s k l = some cur → IsLabel s m cur ∧ cur ≠ 0 ∧
      (node s cur).seg.stop+k ≤ (node s l).seg.stop ∧
      ((node s cur).seg.stop+k = (node s l).seg.stop →
        m.bits l = m.bits cur ∪ Set.Ico (node s cur).seg.stop (node s l).seg.stop) := by
  induction k with
  | zero =>
    intro l cur hl h0 hc
    simp only [climb, Option.some.injEq] at hc
    subst hc
    exact ⟨hl, h0, le_refl _, fun _ => by simp⟩
  | succ k ih =>
    intro l cur hl h0 hc
    rw [climb] at hc
    split_ifs at hc with hp
    have he := parent_edge h hl h0
    have hs := he.stop
    obtain ⟨hcur, hc0, hle, hbits⟩ := ih _ cur he.label hp hc
    refine ⟨hcur, hc0, by omega, ?_⟩
    intro heq
    have hps : (node s (node s l).parent).seg.stop+1 = (node s l).seg.stop := by omega
    have hb := hbits (by omega)
    have hlt := bits_lt h l hl.1
    have hst := he.start
    have hsub := he.bits
    have hmem : (node s l).seg.stop-1 ∈ m.bits l := by
      rw [he.bits]
      exact Or.inr ⟨by omega, by omega⟩
    ext y
    constructor
    · intro hy
      by_cases hyp : y < (node s (node s l).parent).seg.stop
      · have : y ∈ m.bits (node s l).parent := by
          rw [he.below]
          exact ⟨hy, hyp⟩
        rw [hb] at this
        rcases this with h1 | h1
        · exact Or.inl h1
        · have := h1.1
          exact Or.inr ⟨this, by omega⟩
      · have := hlt y hy
        exact Or.inr ⟨by omega, this⟩
    · rintro (hy | hy)
      · rw [hsub, hb]
        exact Or.inl (Or.inl hy)
      · obtain ⟨h1, h2⟩ := hy
        by_cases hyp : y < (node s (node s l).parent).seg.stop
        · rw [hsub, hb]
          exact Or.inl (Or.inr ⟨h1, hyp⟩)
        · rw [show y = (node s l).seg.stop-1 by omega]
          exact hmem

/-- The 64-bit and 32-bit reductions of the length agree once the climb has
succeeded: the climb is shorter than any path. -/
theorem length_reduced {len k cur l : ℕ} (hk : (len+(2^64-1)) % 2^64 = k)
    (hle : cur+1+k ≤ l) (heq : (cur+len % 2^32) % 2^32 = l) : cur+1+k = l := by
  omega

theorem infer_shape2_inv (h : Inv top s m) {l : ℕ} (hl : IsLabel s m l) (len : ℕ) :
    Inv top (inferShape2 s l len) m ∧ Kept s m (inferShape2 s l len) m := by
  unfold inferShape2
  split_ifs with h0
  · exact ⟨h, kept_refl s m⟩
  have hl0 : l ≠ 0 := fun hz => h0 (Or.inl hz)
  cases hc : climb s ((len+(2^64-1)) % 2^64) l with
  | none => exact ⟨h, kept_refl s m⟩
  | some cur =>
    simp only
    split_ifs with htest
    · obtain ⟨hp, hlen⟩ := htest
      obtain ⟨hcur, hc0, hle, hbits⟩ := climb_spec h _ l cur hl hl0 hc
      obtain ⟨hu, hb⟩ := root_label_bits h hcur hc0 hp
      rw [hu] at hle hbits
      have heq := length_reduced rfl hle hlen
      have hall : m.bits l = Set.Ico (node s cur).seg.start (node s l).seg.stop := by
        rw [hbits heq, hb]
        ext y
        simp
        omega
      have he := parent_edge h hl hl0
      apply restart_inv h hl hl0
      · rw [← hall, he.below]
        exact (Set.union_eq_self_of_subset_left Set.inter_subset_left).symm
      · intro _ y hy
        rw [hall] at hy
        have := hy.1
        omega
    · exact ⟨h, kept_refl s m⟩

def cover (tags : List TagSeg) : Set ℕ := {y | ∃ t ∈ tags, t.start ≤ y ∧ y < t.stop}

theorem cover_cons (t : TagSeg) (tags : List TagSeg) :
    cover (t::tags) = Set.Ico t.start t.stop ∪ cover tags := by
  ext y
  simp [cover]

/-- The loop of `find` keeps the offsets of the segments found and of the rest
of the chain. A segment is left out only below one that contains it: the
segment found last starts at `lastBegin` and ends after the chain that is left. -/
theorem find_loop_spec (fuel : ℕ) : ∀ (s : TagSet) (m : Meaning) (lb : ℕ) (tags : List TagSeg)
    (lastBegin : ℕ), Inv top s m → IsLabel s m lb → (node s lb).seg.stop ≤ fuel →
    (tags = [] ∧ lastBegin = MAX_LB ∨ ∃ t ∈ tags, t.start = lastBegin ∧
      (node s lb).seg.stop ≤ t.stop) →
    Ensures atLimit (findLoop fuel s lb tags lastBegin) fun r => ∃ m', Inv top r.1 m' ∧
      Kept s m r.1 m' ∧ (top ≤ MAX_LB → cover r.2 = cover tags ∪ m.bits lb) := by
  induction fuel with
  | zero =>
    intro s m lb tags lastBegin h hl hfuel htags
    have h0 := TagSetCanonical.root_of_stop_zero h hl.1 (by omega)
    subst h0
    rw [findLoop, if_pos rfl]
    exact ensures_ok _ _ _ ⟨m, h, kept_refl s m, fun _ => by simp [h.root_bits]⟩
  | succ fuel ih =>
    intro s m lb tags lastBegin h hl hfuel htags
    rw [findLoop]
    by_cases h0 : lb = 0
    · subst h0
      rw [if_pos rfl]
      exact ensures_ok _ _ _ ⟨m, h, kept_refl s m, fun _ => by simp [h.root_bits]⟩
    rw [if_neg h0]
    refine ensures_bind (split_marked_spec h hl) ?_
    rintro ⟨s1, lb1⟩ ⟨(hlb : lb1 = lb), m1, (hinv : Inv top s1 m1), (hkept : Kept s m s1 m1)⟩
    subst hlb
    have hl1 := label_kept hkept hl
    have he := parent_edge hinv hl1 h0
    have hps := he.stop
    have hstop := hkept.stop lb1 hl.1
    have hpstop : (node s1 (node s1 lb1).parent).seg.stop ≤ fuel := by omega
    simp only
    split_ifs with hb
    · have hrest := ih s1 m1 _ ((node s1 lb1).seg::tags) (node s1 lb1).seg.start hinv he.label
        hpstop (Or.inr ⟨_, List.mem_cons_self, rfl, le_of_lt hps⟩)
      refine ensures_mono hrest ?_
      rintro ⟨s2, out⟩ ⟨m2, hinv2, hkept2, hcover⟩
      refine ⟨m2, hinv2, kept_trans hkept hkept2, fun htop => ?_⟩
      rw [hcover htop, cover_cons, ← hkept.bits lb1 hl.1, he.bits, Set.union_comm (Set.Ico _ _),
        Set.union_assoc, Set.union_comm (Set.Ico _ _)]
    · have hlim := hinv.limit lb1 hl1.1
      have hst := he.start
      have hrest := ih s1 m1 _ tags lastBegin hinv he.label hpstop
        (htags.imp_right fun ⟨t, ht, hts, hte⟩ => ⟨t, ht, hts, by omega⟩)
      refine ensures_mono hrest ?_
      rintro ⟨s2, out⟩ ⟨m2, hinv2, hkept2, hcover⟩
      refine ⟨m2, hinv2, kept_trans hkept hkept2, fun htop => ?_⟩
      rcases htags with ⟨-, rfl⟩ | ⟨t, ht, hts, hte⟩
      · omega
      rw [hcover htop, ← hkept.bits lb1 hl.1, he.bits]
      ext y
      constructor
      · rintro (hy | hy)
        · exact Or.inl hy
        · exact Or.inr (Or.inl hy)
      · rintro (hy | hy | hy)
        · exact Or.inl hy
        · exact Or.inr hy
        · obtain ⟨h1, h2⟩ := hy
          exact Or.inl ⟨t, ht, by omega, by omega⟩

theorem find_spec (h : Inv top s m) {l : ℕ} (hl : IsLabel s m l) :
    Ensures atLimit (find s l) fun r => ∃ m', Inv top r.1 m' ∧ Kept s m r.1 m' ∧
      (top ≤ MAX_LB → cover r.2 = m.bits l) := by
  refine ensures_mono (find_loop_spec _ s m l [] MAX_LB h hl (le_refl _) (Or.inl ⟨rfl, rfl⟩)) ?_
  rintro ⟨s', tags⟩ ⟨m', hinv, hkept, hcover⟩
  exact ⟨m', hinv, hkept, fun htop => by rw [hcover htop]; simp [cover]⟩

end Parmesan.TagSetShape
