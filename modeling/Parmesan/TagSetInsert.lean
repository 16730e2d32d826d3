import Parmesan.TagSetInvariant
import Mathlib.Order.Interval.Set.LinearOrder

/-!
# Inserting runs of zeros and ones
-/

set_option autoImplicit false

namespace Parmesan.TagSetInsert
open Parmesan.TagSetModel Parmesan.TagSetInvariant Parmesan.Outcome

variable {top : ℕ} {s : TagSet} {m : Meaning}

@[simp] theorem size_modify_node (s : TagSet) (lb : ℕ) (f : TagNode → TagNode) :
    size (modifyNode s lb f) = size s := by
  simp [size, modifyNode]

theorem node_modify_node (s : TagSet) (lb : ℕ) (f : TagNode → TagNode) (hlb : lb < size s) (i : ℕ) :
    node (modifyNode s lb f) i = if i = lb then f (node s lb) else node s i := by
  unfold size at hlb
  by_cases hi : i = lb
  · subst hi
    simp [node, modifyNode, List.getD_eq_getElem?_getD, hlb]
  · have hne : lb ≠ i := fun h => hi h.symm
    simp [node, modifyNode, List.getD_eq_getElem?_getD, hi, hne]

def push (s : TagSet) (n : TagNode) : TagSet := ⟨s.nodes ++ [n]⟩

@[simp] theorem size_push (s : TagSet) (n : TagNode) : size (push s n) = size s+1 := by
  simp [size, push]

theorem node_push (s : TagSet) (n : TagNode) (i : ℕ) :
    node (push s n) i = if i = size s then n else node s i := by
  unfold size
  by_cases hi : i = s.nodes.length
  · subst hi
    simp [node, push, List.getD_eq_getElem?_getD]
  · rcases Nat.lt_or_gt_of_ne hi with hlt | hgt
    · simp [node, push, List.getD_eq_getElem?_getD, List.getElem?_append, hlt, hi]
    · have h1 : ¬ i < s.nodes.length := by omega
      have h2 : [n][i-s.nodes.length]? = none := List.getElem?_eq_none (by simp; omega)
      simp [node, push, List.getD_eq_getElem?_getD, List.getElem?_append, h1, h2, hi]

def grow (s : TagSet) (m : Meaning) (bits : Set ℕ) (one : Bool) : Meaning :=
  ⟨Function.update m.bits (size s) bits, Function.update m.one (size s) one⟩

section grow
variable (s m)
variable (bits : Set ℕ) (one : Bool)

@[simp] theorem grow_bits_new : (grow s m bits one).bits (size s) = bits := by simp [grow]

@[simp] theorem grow_one_new : (grow s m bits one).one (size s) = one := by simp [grow]

theorem grow_bits (i : ℕ) (hi : i < size s) : (grow s m bits one).bits i = m.bits i := by
  simp [grow, Function.update_of_ne (Nat.ne_of_lt hi)]

theorem grow_one (i : ℕ) (hi : i < size s) : (grow s m bits one).one i = m.one i := by
  simp [grow, Function.update_of_ne (Nat.ne_of_lt hi)]

end grow

theorem grow_kept (bits : Set ℕ) (one : Bool) {s' : TagSet} (hs : size s' = size s+1)
    (hstop : ∀ i, i < size s → (node s' i).seg.stop = (node s i).seg.stop)
    (hparent : ∀ i, i < size s → m.one i = false → (node s' i).parent = (node s i).parent) :
    Kept s m s' (grow s m bits one) := by
  refine ⟨by omega, hstop, grow_bits s m bits one, grow_one s m bits one, ?_⟩
  intro i hi
  unfold lastOne
  rw [grow_one s m bits one i hi]
  cases h1 : m.one i with
  | true => simp
  | false => simp [hparent i hi h1]

variable {cur n : ℕ}

/-- Links of one side after a graft: the new node takes over the child that
`cur` had there, or zero. -/
def graft (f : ℕ → ℕ) (k cur i : ℕ) : ℕ := if i = k then f cur else if i = cur then k else f i

theorem graft_inj {f f' : ℕ → ℕ} {k cur : ℕ} (hcur : cur < k)
    (h : ∀ i j, i < k → j < k → f i ≠ 0 → f i = f j → i = j) (hf : ∀ i, f i < k)
    (hf' : ∀ i, f' i = graft f k cur i) :
    ∀ i j, i < k+1 → j < k+1 → f' i ≠ 0 → f' i = f' j → i = j := by
  intro i j hi hj h0 he
  have hfi := hf i
  have hfj := hf j
  have hfc := hf cur
  have hic := h i cur
  have hcj := h cur j
  have hij := h i j
  rw [hf', graft] at h0
  rw [hf', hf', graft, graft] at he
  split_ifs at h0 he <;> grind

theorem extend_inj {f f' : ℕ → ℕ} {k : ℕ}
    (h : ∀ i j, i < k → j < k → f i ≠ 0 → f i = f j → i = j)
    (hf' : ∀ i, f' i = if i = k then 0 else f i) :
    ∀ i j, i < k+1 → j < k+1 → f' i ≠ 0 → f' i = f' j → i = j := by
  intro i j hi hj h0 he
  have hij := h i j
  rw [hf'] at h0
  rw [hf', hf'] at he
  split_ifs at h0 he <;> grind

theorem node_out_of_range {i : ℕ} (hi : ¬ i < size s) : node s i = newTagNode ROOT 0 0 := by
  unfold size at hi
  simp [node, List.getD_eq_getElem?_getD, List.getElem?_eq_none (Nat.le_of_not_lt hi)]

theorem left_lt (h : Inv top s m) (i : ℕ) : (node s i).left < size s := by
  have hpos := h.size_pos
  by_cases h0 : (node s i).left = 0
  · omega
  by_cases hi : i < size s
  · exact (h.zero i hi h0).lt
  · simp [node_out_of_range hi, newTagNode, hpos]

theorem right_lt (h : Inv top s m) (i : ℕ) : (node s i).right < size s := by
  have hpos := h.size_pos
  by_cases h0 : (node s i).right = 0
  · omega
  by_cases hi : i < size s
  · exact (h.one i hi h0).lt
  · simp [node_out_of_range hi, newTagNode, hpos]

/-- Every invariant field but the two edges is settled by the shape of the links. -/
theorem graft_inv (h : Inv top s m) {s' : TagSet} {m' : Meaning} (hk : Kept s m s' m')
    (hs : size s' = size s+1) (hcur : cur < size s)
    (hparent : (node s' 0).parent = (node s 0).parent)
    (hstart : (node s' 0).seg.start = (node s 0).seg.start)
    (hlimit : (node s' (size s)).seg.stop ≤ top)
    (zero : ∀ i, i < size s' → (node s' i).left ≠ 0 → ZeroEdge s' m' i (node s' i).left)
    (one : ∀ i, i < size s' → (node s' i).right ≠ 0 → OneEdge s' m' i (node s' i).right)
    (unit : ∀ l, l < size s' → m'.one l = true → (node s' l).parent = 0 →
      (node s' l).seg.stop = (node s' l).seg.start+1)
    (links : ((∀ i, (node s' i).left = graft (fun j => (node s j).left) (size s) cur i) ∧
        ∀ i, (node s' i).right = if i = size s then 0 else (node s i).right) ∨
      ((∀ i, (node s' i).right = graft (fun j => (node s j).right) (size s) cur i) ∧
        ∀ i, (node s' i).left = if i = size s then 0 else (node s i).left)) : Inv top s' m' where
  size_pos := by omega
  root_parent := hparent.trans h.root_parent
  root_start := hstart.trans h.root_start
  root_stop := (hk.stop 0 h.size_pos).trans h.root_stop
  root_bits := (hk.bits 0 h.size_pos).trans h.root_bits
  root_one := (hk.one 0 h.size_pos).trans h.root_one
  zero := zero
  one := one
  tree := by
    intro c hc hc0
    by_cases hck : c = size s
    · refine ⟨cur, by omega, ?_⟩
      have hne : cur ≠ size s := by omega
      rcases links with ⟨hl, -⟩ | ⟨hr, -⟩
      · left; rw [hl, graft, if_neg hne, if_pos rfl, hck]
      · right; rw [hr, graft, if_neg hne, if_pos rfl, hck]
    obtain ⟨i, hi, hc'⟩ := h.tree c (by omega) hc0
    have hne : i ≠ size s := by omega
    by_cases hic : i = cur
    · subst hic
      rcases links with ⟨hl, hr⟩ | ⟨hr, hl⟩
      · rcases hc' with hc' | hc'
        · exact ⟨size s, by omega, Or.inl (by rw [hl, graft, if_pos rfl, hc'])⟩
        · exact ⟨i, by omega, Or.inr (by rw [hr, if_neg hne, hc'])⟩
      · rcases hc' with hc' | hc'
        · exact ⟨i, by omega, Or.inl (by rw [hl, if_neg hne, hc'])⟩
        · exact ⟨size s, by omega, Or.inr (by rw [hr, graft, if_pos rfl, hc'])⟩
    · refine ⟨i, by omega, ?_⟩
      rcases links with ⟨hl, hr⟩ | ⟨hr, hl⟩ <;>
        simpa [hl, hr, graft, hne, hic] using hc'
  left_inj := by
    rw [hs]
    rcases links with ⟨hl, -⟩ | ⟨-, hl⟩
    · exact graft_inj hcur h.left_inj (left_lt h) hl
    · exact extend_inj h.left_inj hl
  right_inj := by
    rw [hs]
    rcases links with ⟨-, hr⟩ | ⟨hr, -⟩
    · exact extend_inj h.right_inj hr
    · exact graft_inj hcur h.right_inj (right_lt h) hr
  limit := by
    intro i hi
    by_cases hik : i = size s
    · rw [hik]; exact hlimit
    · rw [hk.stop i (by omega)]; exact h.limit i (by omega)
  unit := unit

def graftOne (s : TagSet) (cur n last i : ℕ) : TagNode :=
  let next := (node s cur).right
  let off := (node s cur).seg.stop
  if i = size s then ⟨0, next, last, false, ⟨false, off, off+n⟩⟩
  else if i = cur then { node s cur with right := size s }
  else if i = next ∧ next ≠ 0 then
    { node s next with parent := size s, seg := { (node s next).seg with start := off+n } }
  else node s i

def graftZero (s : TagSet) (cur n last i : ℕ) : TagNode :=
  let next := (node s cur).left
  let off := (node s cur).seg.stop
  if i = size s then ⟨next, 0, last, false, ⟨false, off, off+n⟩⟩
  else if i = cur then { node s cur with left := size s }
  else if i = next ∧ next ≠ 0 then
    { node s next with seg := { (node s next).seg with start := off+n } }
  else node s i

section edges
variable {s' : TagSet} {m' : Meaning} {k next : ℕ}

/-- The edge from a new run `k` of ones to the rest of the run it was cut from. -/
theorem cut_one_edge (hk : Kept s m s' m') (hold : OneEdge s m cur next) (hok : m'.one k = true)
    (hbk : m'.bits k = m.bits cur ∪ Set.Ico (node s cur).seg.stop ((node s cur).seg.stop+n))
    (hstop : (node s' k).seg.stop = (node s cur).seg.stop+n)
    (hlt : (node s cur).seg.stop+n < (node s next).seg.stop)
    (hparent : (node s' next).parent = k)
    (hstart : (node s' next).seg.start = (node s cur).seg.stop+n) : OneEdge s' m' k next := by
  have hnext := hk.stop next hold.lt
  have hbn : m'.bits next = m'.bits k ∪
      Set.Ico ((node s cur).seg.stop+n) (node s next).seg.stop := by
    rw [hk.bits next hold.lt, hold.bits, hbk, Set.union_assoc,
      Set.Ico_union_Ico_eq_Ico (by omega) (by omega)]
  constructor
  case lt => exact lt_of_lt_of_le hold.lt hk.size
  case stop => rw [hstop, hnext]; exact hlt
  case start => rw [hstart, hstop]
  case bits => rw [hbn, hstop, hnext]
  case one => rw [hk.one next hold.lt, hold.one]
  case parent => rw [hparent, lastOne, hok, if_pos rfl]
  case run =>
    rw [hstart, hnext, hbn]
    exact Set.subset_union_right
  case block =>
    intro hb
    rw [hparent, hstart, hstop] at hb
    omega

/-- The edge from `cur` to a new run `k` of ones. -/
theorem new_one_edge (h : Inv top s m) (hk : Kept s m s' m') (hcur : cur < size s) (hn : 0 < n)
    (hlt : k < size s') (hok : m'.one k = true)
    (hbk : m'.bits k = m.bits cur ∪ Set.Ico (node s cur).seg.stop ((node s cur).seg.stop+n))
    (hparent : (node s' k).parent = lastOne s m cur)
    (hstart : (node s' k).seg.start = (node s cur).seg.stop)
    (hstop : (node s' k).seg.stop = (node s cur).seg.stop+n) : OneEdge s' m' cur k := by
  have hlo := last_one_spec h cur hcur
  have hend := hk.stop cur hcur
  constructor
  case lt => exact hlt
  case stop => omega
  case start => omega
  case bits => rw [hbk, hk.bits cur hcur, hend, hstop]
  case one => exact hok
  case parent => rw [hparent, hk.last cur hcur]
  case run =>
    rw [hstart, hstop, hbk]
    exact Set.subset_union_right
  case block =>
    intro hb
    rw [hparent, hstart, hk.stop _ hlo.label.1] at hb
    have := hlo.stop
    omega

theorem cut_zero_edge (hk : Kept s m s' m') (hold : ZeroEdge s m cur next) (hok : m'.one k = false)
    (hbk : m'.bits k = m.bits cur) (hlast : (node s' k).parent = lastOne s m cur)
    (hstop : (node s' k).seg.stop = (node s cur).seg.stop+n)
    (hlt : (node s cur).seg.stop+n < (node s next).seg.stop)
    (hparent : (node s' next).parent = (node s next).parent)
    (hstart : (node s' next).seg.start = (node s cur).seg.stop+n) : ZeroEdge s' m' k next := by
  constructor
  case lt => exact lt_of_lt_of_le hold.lt hk.size
  case stop => rw [hstop, hk.stop next hold.lt]; exact hlt
  case start => rw [hstart, hstop]
  case bits => rw [hk.bits next hold.lt, hbk, hold.bits]
  case one => rw [hk.one next hold.lt, hold.one]
  case parent =>
    have hlo : lastOne s' m' k = lastOne s m cur := by simp [lastOne, hok, hlast]
    rw [hparent, hold.parent, hlo]

theorem new_zero_edge (hk : Kept s m s' m') (hcur : cur < size s) (hn : 0 < n)
    (hlt : k < size s') (hok : m'.one k = false) (hbk : m'.bits k = m.bits cur)
    (hparent : (node s' k).parent = lastOne s m cur)
    (hstart : (node s' k).seg.start = (node s cur).seg.stop)
    (hstop : (node s' k).seg.stop = (node s cur).seg.stop+n) : ZeroEdge s' m' cur k := by
  have hend := hk.stop cur hcur
  constructor
  case lt => exact hlt
  case stop => omega
  case start => omega
  case bits => rw [hbk, hk.bits cur hcur]
  case one => exact hok
  case parent => rw [hparent, hk.last cur hcur]

theorem children_differ {i j a b : ℕ} (hz : ZeroEdge s m i a) (ho : OneEdge s m j b) : a ≠ b := by
  intro heq
  have hone := hz.one
  rw [heq, ho.one] at hone
  cases hone

end edges

/-- `n` ones below `cur`. The new node ends inside the run that hung there. -/
theorem graft_one_inv (h : Inv top s m) (hcur : cur < size s) (hn : 0 < n)
    (hroot : lastOne s m cur = 0 → n = 1) {next : ℕ}
    (hr : (node s cur).right = next)
    (hlt : next ≠ 0 → (node s cur).seg.stop+n < (node s next).seg.stop)
    (hmax : (node s cur).seg.stop+n ≤ top) {s' : TagSet} (hs : size s' = size s+1)
    (hnode : ∀ i, node s' i = graftOne s cur n (lastOne s m cur) i) :
    Inv top s' (grow s m (m.bits cur ∪ Set.Ico (node s cur).seg.stop ((node s cur).seg.stop+n)) true) ∧
    Kept s m s' (grow s m (m.bits cur ∪ Set.Ico (node s cur).seg.stop ((node s cur).seg.stop+n)) true) := by
  simp only [graftOne, hr] at hnode
  have hold : next ≠ 0 → OneEdge s m cur next := fun h0 => hr ▸ h.one cur hcur (by omega)
  have hnl : next < size s := hr ▸ right_lt h cur
  have hne : next ≠ 0 → cur ≠ next := by
    intro h0 he
    have := (hold h0).stop
    rw [he] at this
    omega
  generalize hm' : grow s m (m.bits cur ∪
    Set.Ico (node s cur).seg.stop ((node s cur).seg.stop+n)) true = m'
  have hk : Kept s m s' m' := by
    rw [← hm']
    apply grow_kept _ _ hs
    · grind
    · intro i hi h1
      have : next ≠ 0 → i ≠ next := by
        intro h0 he
        have h2 := (hold h0).one
        rw [← he, h1] at h2
        cases h2
      grind
  refine ⟨?_, hk⟩
  have hbk : m'.bits (size s) = m.bits cur ∪
      Set.Ico (node s cur).seg.stop ((node s cur).seg.stop+n) := by rw [← hm']; simp
  have hok : m'.one (size s) = true := by rw [← hm']; simp
  have hnew : node s' (size s) = ⟨0, next, lastOne s m cur, false,
      ⟨false, (node s cur).seg.stop, (node s cur).seg.stop+n⟩⟩ := by rw [hnode, if_pos rfl]
  apply graft_inv h hk hs hcur (by grind) (by grind) (by rw [hnew]; exact hmax)
  case zero =>
    intro i hi hl
    have hil : i < size s := by grind
    have hli : (node s' i).left = (node s i).left := by grind
    rw [hli] at hl ⊢
    have he := h.zero i hil hl
    have hcn : next ≠ 0 → (node s i).left ≠ next := fun h0 => children_differ he (hold h0)
    have hlt := he.lt
    exact zero_edge_kept hk hil he (by grind) (by grind)
  case one =>
    intro i hi hr'
    by_cases hik : i = size s
    · subst hik
      rw [hnew] at hr' ⊢
      have hnext := hnode next
      rw [if_neg (by omega), if_neg (Ne.symm (hne hr')), if_pos ⟨rfl, hr'⟩] at hnext
      exact cut_one_edge hk (hold hr') hok hbk (by rw [hnew]) (hlt hr') (by rw [hnext])
        (by rw [hnext])
    by_cases hic : i = cur
    · subst hic
      have hri : (node s' i).right = size s := by grind
      rw [hri]
      exact new_one_edge h hk hcur hn (by omega) hok hbk (by rw [hnew]) (by rw [hnew])
        (by rw [hnew])
    · have hil : i < size s := by omega
      have hri : (node s' i).right = (node s i).right := by grind
      rw [hri] at hr' ⊢
      have he := h.one i hil hr'
      have hcn : next ≠ 0 → (node s i).right ≠ next := by
        intro h0 hc
        exact hic (h.right_inj i cur hil hcur hr' (hc.trans hr.symm))
      have hlt := he.lt
      exact one_edge_kept hk h hil he (by grind) (by grind)
  case unit =>
    intro l hl h1 hp
    by_cases hlk : l = size s
    · subst hlk
      rw [hnew] at hp ⊢
      simp only [hroot hp]
    · have hll : l < size s := by omega
      rw [hk.one l hll] at h1
      have hu := h.unit l hll h1
      have hpos := h.size_pos
      grind
  case links =>
    right
    constructor
    · intro i
      rw [graft]
      grind
    · grind

theorem graft_zero_inv (h : Inv top s m) (hcur : cur < size s) (hn : 0 < n) {next : ℕ}
    (hl : (node s cur).left = next)
    (hlt : next ≠ 0 → (node s cur).seg.stop+n < (node s next).seg.stop)
    (hmax : (node s cur).seg.stop+n ≤ top) {s' : TagSet} (hs : size s' = size s+1)
    (hnode : ∀ i, node s' i = graftZero s cur n (lastOne s m cur) i) :
    Inv top s' (grow s m (m.bits cur) false) ∧ Kept s m s' (grow s m (m.bits cur) false) := by
  simp only [graftZero, hl] at hnode
  have hold : next ≠ 0 → ZeroEdge s m cur next := fun h0 => hl ▸ h.zero cur hcur (by omega)
  have hnl : next < size s := hl ▸ left_lt h cur
  have hne : next ≠ 0 → cur ≠ next := by
    intro h0 he
    have := (hold h0).stop
    rw [he] at this
    omega
  generalize hm' : grow s m (m.bits cur) false = m'
  have hk : Kept s m s' m' := by
    rw [← hm']
    apply grow_kept _ _ hs
    · grind
    · grind
  refine ⟨?_, hk⟩
  have hbk : m'.bits (size s) = m.bits cur := by rw [← hm']; simp
  have hok : m'.one (size s) = false := by rw [← hm']; simp
  have hnew : node s' (size s) = ⟨next, 0, lastOne s m cur, false,
      ⟨false, (node s cur).seg.stop, (node s cur).seg.stop+n⟩⟩ := by rw [hnode, if_pos rfl]
  apply graft_inv h hk hs hcur (by grind) (by grind) (by rw [hnew]; exact hmax)
  case zero =>
    intro i hi hl'
    by_cases hik : i = size s
    · subst hik
      rw [hnew] at hl' ⊢
      have hnext := hnode next
      rw [if_neg (by omega), if_neg (Ne.symm (hne hl')), if_pos ⟨rfl, hl'⟩] at hnext
      exact cut_zero_edge hk (hold hl') hok hbk (by rw [hnew]) (by rw [hnew]) (hlt hl')
        (by rw [hnext]) (by rw [hnext])
    by_cases hic : i = cur
    · subst hic
      have hli : (node s' i).left = size s := by grind
      rw [hli]
      exact new_zero_edge hk hcur hn (by omega) hok hbk (by rw [hnew]) (by rw [hnew])
        (by rw [hnew])
    · have hil : i < size s := by omega
      have hli : (node s' i).left = (node s i).left := by grind
      rw [hli] at hl' ⊢
      have he := h.zero i hil hl'
      have hcn : next ≠ 0 → (node s i).left ≠ next := by
        intro h0 hc
        exact hic (h.left_inj i cur hil hcur hl' (hc.trans hl.symm))
      have hlt := he.lt
      exact zero_edge_kept hk hil he (by grind) (by grind)
  case one =>
    intro i hi hr
    have hil : i < size s := by grind
    have hri : (node s' i).right = (node s i).right := by grind
    rw [hri] at hr ⊢
    have he := h.one i hil hr
    have hcn : next ≠ 0 → (node s i).right ≠ next :=
      fun h0 => (children_differ (hold h0) he).symm
    have hlt := he.lt
    exact one_edge_kept hk h hil he (by grind) (by grind)
  case unit =>
    intro l hl h1 hp
    have hll : l < size s := by
      by_contra hge
      have hlk : l = size s := by omega
      rw [hlk, hok] at h1
      cases h1
    rw [hk.one l hll] at h1
    have hln : next ≠ 0 → l ≠ next := by
      intro h0 he
      rw [he, (hold h0).one] at h1
      cases h1
    have hu := h.unit l hll h1
    grind
  case links =>
    left
    constructor
    · intro i
      rw [graft]
      grind
    · grind

/-- What an insertion below `cur` returns. A one run whose `start` moved hangs
directly below the result and now starts at its end. -/
structure Inserted (top : ℕ) (s : TagSet) (m : Meaning) (stop : ℕ) (bits : Set ℕ)
    (s' : TagSet) (m' : Meaning) (r : ℕ) : Prop where
  inv : Inv top s' m'
  kept : Kept s m s' m'
  lt : r < size s'
  stop : (node s' r).seg.stop = stop
  bits : m'.bits r = bits
  moved : ∀ i, i < size s → m.one i = true →
    (node s' i).seg.start ≠ (node s i).seg.start →
    (node s' r).right = i ∧ (node s' i).seg.start = (node s' r).seg.stop ∧
      (node s i).seg.start ≤ (node s' r).seg.stop

/-- Zeros add no one run and never move the `start` of one. -/
def SameRuns (s : TagSet) (s' : TagSet) (m' : Meaning) : Prop :=
  ∀ i, i < size s' → m'.one i = true → i < size s ∧ (node s' i).seg.start = (node s i).seg.start

/-- Every one run is a single offset. Without shape inference no other is made. -/
def UnitRuns (s : TagSet) (m : Meaning) : Prop :=
  ∀ l, l < size s → m.one l = true → (node s l).seg.stop = (node s l).seg.start+1

theorem same_runs_unit {s' : TagSet} {m' : Meaning} (hk : Kept s m s' m')
    (hsame : SameRuns s s' m') (h : UnitRuns s m) : UnitRuns s' m' := by
  intro l hl h1
  obtain ⟨hlt, hstart⟩ := hsame l hl h1
  rw [hk.one l hlt] at h1
  rw [hk.stop l hlt, hstart]
  exact h l hlt h1

theorem inserted_self (h : Inv top s m) (hcur : cur < size s) :
    Inserted top s m (node s cur).seg.stop (m.bits cur) s m cur :=
  ⟨h, kept_refl s m, hcur, rfl, rfl, fun _ _ _ hne => absurd rfl hne⟩

def atLimit (f : Fault) : Prop := f = .nodeLimit

theorem new_node_ensures (s : TagSet) (parent start stop : ℕ) :
    Ensures atLimit (newNode s parent start stop)
      (fun r => r = (push s (newTagNode parent start stop), size s)) := by
  unfold newNode
  split_ifs
  · exact ensures_ok _ _ _ rfl
  · exact rfl

theorem graft_zero_inserted (h : Inv top s m) (hcur : cur < size s) (hn : 0 < n)
    (hlt : (node s cur).left ≠ 0 →
      (node s cur).seg.stop+n < (node s (node s cur).left).seg.stop)
    (hmax : (node s cur).seg.stop+n ≤ top) {s' : TagSet} (hs : size s' = size s+1)
    (hnode : ∀ i, node s' i = graftZero s cur n (lastOne s m cur) i) :
    ∃ m', Inserted top s m ((node s cur).seg.stop+n) (m.bits cur) s' m' (size s) ∧
      lastOne s' m' (size s) = lastOne s m cur ∧ SameRuns s s' m' := by
  obtain ⟨hinv, hkept⟩ := graft_zero_inv h hcur hn rfl hlt hmax hs hnode
  have hnew := hnode (size s)
  simp only [graftZero, if_true] at hnew
  have hsame : SameRuns s s' (grow s m (m.bits cur) false) := by
    intro i hi h1
    have hik : i ≠ size s := by
      rintro rfl
      simp at h1
    have hil : i < size s := by omega
    rw [hkept.one i hil] at h1
    have hni : (node s cur).left ≠ 0 → i ≠ (node s cur).left := by
      intro h0 he
      have h2 := (h.zero cur hcur h0).one
      rw [← he, h1] at h2
      cases h2
    refine ⟨hil, ?_⟩
    rw [hnode, graftZero]
    grind
  refine ⟨_, ⟨hinv, hkept, by omega, by rw [hnew], by simp, ?_⟩, by simp [lastOne, hnew], hsame⟩
  intro i hi h1 hne
  exact absurd (hsame i (by omega) (by rw [hkept.one i hi]; exact h1)).2 hne

theorem leaf_zero_node (hcur : cur < size s) (hl : (node s cur).left = 0) (last i : ℕ) :
    node (setLeft (push s (newTagNode last (node s cur).seg.stop ((node s cur).seg.stop+n)))
      cur (size s)) i = graftZero s cur n last i := by
  have hne : cur ≠ size s := by omega
  rw [setLeft, node_modify_node _ _ _ (by simp; omega), node_push, node_push, graftZero]
  by_cases hi : i = size s
  · simp [hi, hne.symm, newTagNode, hl]
  by_cases hc : i = cur
  · simp [hc, hne]
  · simp [hi, hc, hl]

theorem split_zero_node (hcur : cur < size s) (hl : (node s cur).left ≠ 0)
    (hnl : (node s cur).left < size s) (hcl : cur ≠ (node s cur).left) (last i : ℕ) :
    node (setStart (setLeft (setLeft
      (push s (newTagNode last (node s cur).seg.stop ((node s cur).seg.stop+n)))
      cur (size s)) (size s) (node s cur).left) (node s cur).left ((node s cur).seg.stop+n)) i =
      graftZero s cur n last i := by
  have hne : cur ≠ size s := by omega
  have hnn : (node s cur).left ≠ size s := by omega
  simp (disch := simp only [size_modify_node, size_push]; omega) only
    [setLeft, setStart, node_modify_node, node_push, graftZero]
  by_cases hi : i = size s
  · simp [hi, hne.symm, hnn.symm, newTagNode]
  by_cases hc : i = cur
  · simp [hc, hne, hcl]
  by_cases hn : i = (node s cur).left
  · simp [hn, hnn, hcl.symm, hl]
  · simp [hi, hc, hn]

theorem insert_zeros_loop_spec (fuel : ℕ) (h : Inv top s m) :
    ∀ cur n last, cur < size s → last = lastOne s m cur →
      (node s cur).seg.stop+n ≤ top → n ≤ fuel →
      Ensures atLimit (insertNZerosLoop fuel s cur n last) fun r => ∃ m',
        Inserted top s m ((node s cur).seg.stop+n) (m.bits cur) r.1 m' r.2 ∧
        lastOne r.1 m' r.2 = lastOne s m cur ∧ SameRuns s r.1 m' := by
  induction fuel with
  | zero =>
    intro cur n last hcur hlast hmax hn
    have h0 : n = 0 := by omega
    subst h0
    exact ensures_ok _ _ _ ⟨m, inserted_self h hcur, rfl, fun _ hi _ => ⟨hi, rfl⟩⟩
  | succ fuel ih =>
    intro cur n last hcur hlast hmax hn
    unfold insertNZerosLoop
    by_cases h0 : n = 0
    · subst h0
      rw [if_pos rfl]
      exact ensures_ok _ _ _ ⟨m, inserted_self h hcur, rfl, fun _ hi _ => ⟨hi, rfl⟩⟩
    rw [if_neg h0]
    subst hlast
    by_cases hz : (node s cur).left = 0
    · simp only [hz, if_true]
      apply ensures_bind (new_node_ensures _ _ _ _)
      rintro _ rfl
      apply ensures_ok
      exact graft_zero_inserted h hcur (by omega) (fun hz' => absurd hz hz') hmax
        (by simp [setLeft]) (leaf_zero_node hcur hz _)
    simp only [hz, if_false]
    have he := h.zero cur hcur hz
    have hst := he.start
    have hsp := he.stop
    by_cases hsplit : n < (node s (node s cur).left).seg.stop-(node s (node s cur).left).seg.start
    · rw [if_pos hsplit]
      apply ensures_bind (new_node_ensures _ _ _ _)
      rintro _ rfl
      apply ensures_ok
      refine graft_zero_inserted h hcur (by omega) (fun _ => by omega) hmax
        (by simp [setLeft, setStart]) (split_zero_node hcur hz he.lt ?_ _)
      intro hc
      rw [← hc] at hsp
      omega
    · rw [if_neg hsplit]
      have hl : lastOne s m cur = lastOne s m (node s cur).left := by
        simp [lastOne, he.one, he.parent]
      rw [hl, ← he.bits, show (node s cur).seg.stop+n = (node s (node s cur).left).seg.stop+
        (n-((node s (node s cur).left).seg.stop-(node s (node s cur).left).seg.start)) by omega]
      exact ih _ _ _ he.lt rfl (by omega) (by omega)

theorem graft_one_inserted (h : Inv top s m) (hcur : cur < size s) (hn : 0 < n)
    (hroot : lastOne s m cur = 0 → n = 1)
    (hlt : (node s cur).right ≠ 0 →
      (node s cur).seg.stop+n < (node s (node s cur).right).seg.stop)
    (hmax : (node s cur).seg.stop+n ≤ top) {s' : TagSet} (hs : size s' = size s+1)
    (hnode : ∀ i, node s' i = graftOne s cur n (lastOne s m cur) i) :
    ∃ m', Inserted top s m ((node s cur).seg.stop+n)
        (m.bits cur ∪ Set.Ico (node s cur).seg.stop ((node s cur).seg.stop+n)) s' m' (size s) ∧
      m'.one (size s) = true ∧ (node s' (size s)).right = (node s cur).right ∧
      (n = 1 → (node s cur).right = 0 → UnitRuns s m → UnitRuns s' m') := by
  obtain ⟨hinv, hkept⟩ := graft_one_inv h hcur hn hroot rfl hlt hmax hs hnode
  have hnew := hnode (size s)
  simp only [graftOne, if_true] at hnew
  refine ⟨_, ⟨hinv, hkept, by omega, by rw [hnew], by simp, ?_⟩, by simp, by rw [hnew], ?_⟩
  swap
  · intro hn1 hr hu l hl h1
    by_cases hlk : l = size s
    · subst hlk
      rw [hnew, hn1]
    · have hll : l < size s := by omega
      rw [hkept.one l hll] at h1
      have hstop := hu l hll h1
      rw [hnode, graftOne]
      simp only [hr]
      grind
  intro i hi h1 hmoved
  have hi' := hnode i
  have hold : (node s cur).right ≠ 0 →
      (node s (node s cur).right).seg.start ≤ (node s cur).seg.stop :=
    fun h0 => (h.one cur hcur h0).start
  rw [hi'] at hmoved ⊢
  rw [hnew]
  simp only [graftOne] at hmoved ⊢
  grind

theorem leaf_one_node (hcur : cur < size s) (hr : (node s cur).right = 0) (last i : ℕ) :
    node (setRight (push s (newTagNode last (node s cur).seg.stop ((node s cur).seg.stop+n)))
      cur (size s)) i = graftOne s cur n last i := by
  have hne : cur ≠ size s := by omega
  rw [setRight, node_modify_node _ _ _ (by simp; omega), node_push, node_push, graftOne]
  by_cases hi : i = size s
  · simp [hi, hne.symm, newTagNode, hr]
  by_cases hc : i = cur
  · simp [hc, hne]
  · simp [hi, hc, hr]

theorem split_one_node (hcur : cur < size s) (hr : (node s cur).right ≠ 0)
    (hnl : (node s cur).right < size s) (hcr : cur ≠ (node s cur).right) (last i : ℕ) :
    node (setStart (setParent (setRight (setRight
      (push s (newTagNode last (node s cur).seg.stop ((node s cur).seg.stop+n)))
      cur (size s)) (size s) (node s cur).right) (node s cur).right (size s))
      (node s cur).right ((node s cur).seg.stop+n)) i = graftOne s cur n last i := by
  have hne : cur ≠ size s := by omega
  have hnn : (node s cur).right ≠ size s := by omega
  simp (disch := simp only [size_modify_node, size_push]; omega) only
    [setRight, setParent, setStart, node_modify_node, node_push, graftOne]
  by_cases hi : i = size s
  · simp [hi, hne.symm, hnn.symm, newTagNode]
  by_cases hc : i = cur
  · simp [hc, hne, hcr]
  by_cases hn : i = (node s cur).right
  · simp [hn, hnn, hcr.symm, hr]
  · simp [hi, hc, hn]

/-- `n` ones may be inserted below `cur`: a first run longer than one offset
is only extended, never created. -/
def FirstRun (s : TagSet) (m : Meaning) (cur n : ℕ) : Prop :=
  lastOne s m cur = 0 → n ≤ 1 ∨ (node s cur).right ≠ 0

theorem insert_ones_loop_spec (fuel : ℕ) (h : Inv top s m) :
    ∀ cur n last, cur < size s → last = lastOne s m cur → FirstRun s m cur n →
      (node s cur).seg.stop+n ≤ top → n ≤ fuel →
      Ensures atLimit (insertNOnesLoop fuel s cur n last) fun r => ∃ m',
        Inserted top s m ((node s cur).seg.stop+n)
          (m.bits cur ∪ Set.Ico (node s cur).seg.stop ((node s cur).seg.stop+n)) r.1 m' r.2 ∧
        (0 < n ∨ m.one cur = true → m'.one r.2 = true) ∧
        (n ≤ 1 → UnitRuns s m → UnitRuns r.1 m') := by
  induction fuel with
  | zero =>
    intro cur n last hcur hlast hroot hmax hn
    have h0 : n = 0 := by omega
    subst h0
    exact ensures_ok _ _ _ ⟨m, by simpa using inserted_self h hcur, by simp, fun _ hu => hu⟩
  | succ fuel ih =>
    intro cur n last hcur hlast hroot hmax hn
    unfold insertNOnesLoop
    by_cases h0 : n = 0
    · subst h0
      rw [if_pos rfl]
      exact ensures_ok _ _ _ ⟨m, by simpa using inserted_self h hcur, by simp, fun _ hu => hu⟩
    rw [if_neg h0]
    subst hlast
    by_cases hz : (node s cur).right = 0
    · simp only [hz, if_true]
      apply ensures_bind (new_node_ensures _ _ _ _)
      rintro _ rfl
      apply ensures_ok
      have hfirst : lastOne s m cur = 0 → n = 1 := fun h1 => by
        rcases hroot h1 with hle | hne
        · omega
        · exact absurd hz hne
      obtain ⟨m', hins, hone, -, hunit⟩ := graft_one_inserted h hcur (by omega) hfirst
        (fun hz' => absurd hz hz') hmax (by simp [setRight]) (leaf_one_node hcur hz _)
      exact ⟨m', hins, fun _ => hone, fun hn1 => hunit (by omega) hz⟩
    simp only [hz, if_false]
    have he := h.one cur hcur hz
    have hsp := he.stop
    by_cases hsplit : n < (node s (node s cur).right).seg.stop-(node s cur).seg.stop
    · rw [if_pos hsplit]
      apply ensures_bind (new_node_ensures _ _ _ _)
      rintro _ rfl
      apply ensures_ok
      have hcr : cur ≠ (node s cur).right := by
        intro hc
        rw [← hc] at hsp
        omega
      have hfirst : lastOne s m cur = 0 → n = 1 := fun h1 => by
        have hu := h.unit _ he.lt he.one (he.parent.trans h1)
        have := he.start
        omega
      obtain ⟨m', hins, hone, -⟩ := graft_one_inserted h hcur (by omega) hfirst (fun _ => by omega) hmax
        (by simp [setRight, setParent, setStart]) (split_one_node hcur hz he.lt hcr _)
      refine ⟨m', hins, fun _ => hone, fun hn1 hu => ?_⟩
      have hsize := hu _ he.lt he.one
      have hst := he.start
      omega
    · rw [if_neg hsplit]
      have hl : (node s cur).right = lastOne s m (node s cur).right := by simp [lastOne, he.one]
      have hi := ih _ (n-((node s (node s cur).right).seg.stop-(node s cur).seg.stop)) _ he.lt hl
        (fun h1 => absurd (hl.trans h1) hz) (by omega) (by omega)
      have hstop : (node s (node s cur).right).seg.stop+
          (n-((node s (node s cur).right).seg.stop-(node s cur).seg.stop)) =
          (node s cur).seg.stop+n := by omega
      rw [hstop, he.bits, Set.union_assoc,
        Set.Ico_union_Ico_eq_Ico (by omega) (by omega)] at hi
      refine ensures_mono hi ?_
      rintro ⟨s', r⟩ ⟨m', hins, hone, hunit⟩
      exact ⟨m', hins, fun _ => hone (Or.inr he.one), fun hn1 => hunit (by omega)⟩

theorem insert_zeros_spec (h : Inv top s m) (hcur : cur < size s)
    (hmax : (node s cur).seg.stop+n ≤ top) :
    Ensures atLimit (insertNZeros s cur n (lastOne s m cur)) fun r => ∃ m',
      Inserted top s m ((node s cur).seg.stop+n) (m.bits cur) r.1 m' r.2 ∧
      lastOne r.1 m' r.2 = lastOne s m cur ∧ SameRuns s r.1 m' :=
  insert_zeros_loop_spec n h cur n _ hcur rfl hmax (le_refl n)

theorem insert_ones_spec (h : Inv top s m) (hcur : cur < size s) (hroot : FirstRun s m cur n)
    (hmax : (node s cur).seg.stop+n ≤ top) :
    Ensures atLimit (insertNOnes s cur n (lastOne s m cur)) fun r => ∃ m',
      Inserted top s m ((node s cur).seg.stop+n)
        (m.bits cur ∪ Set.Ico (node s cur).seg.stop ((node s cur).seg.stop+n)) r.1 m' r.2 ∧
      (0 < n ∨ m.one cur = true → m'.one r.2 = true) ∧
      (n ≤ 1 → UnitRuns s m → UnitRuns r.1 m') :=
  insert_ones_loop_spec n h cur n _ hcur rfl hroot hmax (le_refl n)

theorem insert_ones_label (h : Inv top s m) (hcur : IsLabel s m cur) (hn : 0 < n)
    (hroot : FirstRun s m cur n)
    (hmax : (node s cur).seg.stop+n ≤ top) :
    Ensures atLimit (insertNOnes s cur n cur) fun r => ∃ m',
      Inserted top s m ((node s cur).seg.stop+n)
        (m.bits cur ∪ Set.Ico (node s cur).seg.stop ((node s cur).seg.stop+n)) r.1 m' r.2 ∧
      m'.one r.2 = true ∧ (n ≤ 1 → UnitRuns s m → UnitRuns r.1 m') := by
  have hspec := insert_ones_spec h hcur.1 hroot hmax
  rw [label_last_one h hcur] at hspec
  refine ensures_mono hspec ?_
  rintro ⟨s', r⟩ ⟨m', hins, hone, hunit⟩
  exact ⟨m', hins, hone (Or.inl hn), hunit⟩

theorem insert_gap_label (gap : ℕ) (h : Inv top s m) (hcur : IsLabel s m cur) (hn : 0 < n)
    (hroot : ∀ s1 m1 z, Inserted top s m ((node s cur).seg.stop+gap) (m.bits cur) s1 m1 z →
      cur = 0 → n ≤ 1 ∨ (node s1 z).right ≠ 0)
    (hmax : (node s cur).seg.stop+gap+n ≤ top) :
    Ensures atLimit (do
        let (s, z) ← insertNZeros s cur gap cur
        insertNOnes s z n cur) fun r => ∃ m',
      Inserted top s m ((node s cur).seg.stop+gap+n)
        (m.bits cur ∪ Set.Ico ((node s cur).seg.stop+gap) ((node s cur).seg.stop+gap+n))
        r.1 m' r.2 ∧
      m'.one r.2 = true ∧ (n ≤ 1 → UnitRuns s m → UnitRuns r.1 m') := by
  have hz := insert_zeros_spec (n := gap) h hcur.1 (by omega)
  rw [label_last_one h hcur] at hz
  refine ensures_bind hz ?_
  rintro ⟨s1, z⟩ ⟨m1, hins, hlast, hsame⟩
  have hfirst : FirstRun s1 m1 z n := fun h1 => hroot s1 m1 z hins (hlast.symm.trans h1)
  have ho := insert_ones_spec (n := n) hins.inv hins.lt hfirst (by rw [hins.stop]; omega)
  rw [hlast, hins.stop, hins.bits] at ho
  refine ensures_mono ho ?_
  rintro ⟨s2, r⟩ ⟨m2, hins2, hone, hunit⟩
  refine ⟨m2, ⟨hins2.inv, kept_trans hins.kept hins2.kept, hins2.lt, hins2.stop, hins2.bits, ?_⟩,
    hone (Or.inl hn), fun hn1 hu => hunit hn1 (same_runs_unit hins.kept hsame hu)⟩
  intro i hi h1 hmoved
  have hi1 := lt_of_lt_of_le hi hins.kept.size
  have hone1 : m1.one i = true := by rw [hins.kept.one i hi]; exact h1
  have hstart := (hsame i hi1 hone1).2
  have hmoved2 := hins2.moved i hi1 hone1 (by rw [hstart]; exact hmoved)
  rw [hstart] at hmoved2
  exact hmoved2

theorem insert_spec (h : Inv top s m) {offset : ℕ} (ho : offset < top) :
    Ensures atLimit (TagSetModel.insert s offset) fun r => ∃ m',
      Inserted top s m (offset+1) {offset} r.1 m' r.2 ∧ m'.one r.2 = true ∧
        (UnitRuns s m → UnitRuns r.1 m') := by
  have hspec := insert_gap_label (n := 1) offset h ⟨h.size_pos, Or.inl rfl⟩ (by omega)
    (fun _ _ _ _ _ => Or.inl (le_refl 1)) (by rw [h.root_stop]; omega)
  have hbits : m.bits 0 ∪ Set.Ico ((node s 0).seg.stop+offset) ((node s 0).seg.stop+offset+1) =
      {offset} := by
    rw [h.root_bits, h.root_stop]
    ext y
    simp
    omega
  rw [hbits, h.root_stop, Nat.zero_add] at hspec
  refine ensures_mono hspec ?_
  rintro ⟨s', r⟩ ⟨m', hins, hone, hunit⟩
  exact ⟨m', hins, hone, hunit (le_refl 1)⟩

end Parmesan.TagSetInsert
