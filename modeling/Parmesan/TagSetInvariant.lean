import Parmesan.TagSetModel
import Mathlib.Order.Interval.Set.Basic

/-!
# What the nodes of a label set stand for

A `Meaning` gives every node the set of offsets on its path and says whether
the node ends a run of ones. It is ghost state: no operation reads it, and no
operation changes it on a node that exists. `Inv` ties it to the links, while
no run ends after `top`. The first run of a path is always a single offset
(`unit`), because a path starts where an offset was inserted.
-/

set_option autoImplicit false

namespace Parmesan.TagSetInvariant
open Parmesan.TagSetModel

structure Meaning where
  bits : ℕ → Set ℕ
  one : ℕ → Bool

/-- The node that the source calls `last_one_lb` when it stands at `n`. -/
def lastOne (s : TagSet) (m : Meaning) (n : ℕ) : ℕ :=
  if m.one n then n else (node s n).parent

structure ZeroEdge (s : TagSet) (m : Meaning) (n c : ℕ) : Prop where
  lt : c < size s
  stop : (node s n).seg.stop < (node s c).seg.stop
  start : (node s c).seg.start = (node s n).seg.stop
  bits : m.bits c = m.bits n
  one : m.one c = false
  parent : (node s c).parent = lastOne s m n

/-- A grouped run starts before the end of the run above it. It then starts
where its whole block of ones does. -/
structure OneEdge (s : TagSet) (m : Meaning) (n c : ℕ) : Prop where
  lt : c < size s
  stop : (node s n).seg.stop < (node s c).seg.stop
  start : (node s c).seg.start ≤ (node s n).seg.stop
  bits : m.bits c = m.bits n ∪ Set.Ico (node s n).seg.stop (node s c).seg.stop
  one : m.one c = true
  parent : (node s c).parent = lastOne s m n
  run : Set.Ico (node s c).seg.start (node s c).seg.stop ⊆ m.bits c
  block : (node s c).seg.start < (node s (node s c).parent).seg.stop →
    ∀ y ∈ m.bits c, y+1 ≠ (node s c).seg.start

structure Inv (top : ℕ) (s : TagSet) (m : Meaning) : Prop where
  size_pos : 0 < size s
  root_parent : (node s 0).parent = 0
  root_start : (node s 0).seg.start = 0
  root_stop : (node s 0).seg.stop = 0
  root_bits : m.bits 0 = ∅
  root_one : m.one 0 = false
  zero : ∀ n, n < size s → (node s n).left ≠ 0 → ZeroEdge s m n (node s n).left
  one : ∀ n, n < size s → (node s n).right ≠ 0 → OneEdge s m n (node s n).right
  tree : ∀ c, c < size s → c ≠ 0 →
    ∃ n, n < size s ∧ ((node s n).left = c ∨ (node s n).right = c)
  left_inj : ∀ i j, i < size s → j < size s → (node s i).left ≠ 0 →
    (node s i).left = (node s j).left → i = j
  right_inj : ∀ i j, i < size s → j < size s → (node s i).right ≠ 0 →
    (node s i).right = (node s j).right → i = j
  limit : ∀ n, n < size s → (node s n).seg.stop ≤ top
  unit : ∀ l, l < size s → m.one l = true → (node s l).parent = 0 →
    (node s l).seg.stop = (node s l).seg.start+1

def IsLabel (s : TagSet) (m : Meaning) (l : ℕ) : Prop :=
  l < size s ∧ (l = 0 ∨ m.one l = true)

/-- The frame of every operation: the nodes of `s` keep their end, what they
stand for and the last one run above them. -/
structure Kept (s : TagSet) (m : Meaning) (s' : TagSet) (m' : Meaning) : Prop where
  size : size s ≤ size s'
  stop : ∀ i, i < TagSetModel.size s → (node s' i).seg.stop = (node s i).seg.stop
  bits : ∀ i, i < TagSetModel.size s → m'.bits i = m.bits i
  one : ∀ i, i < TagSetModel.size s → m'.one i = m.one i
  last : ∀ i, i < TagSetModel.size s → lastOne s' m' i = lastOne s m i

variable {top : ℕ} {s s' : TagSet} {m m' : Meaning}

theorem kept_refl (s : TagSet) (m : Meaning) : Kept s m s m :=
  ⟨le_refl _, fun _ _ => rfl, fun _ _ => rfl, fun _ _ => rfl, fun _ _ => rfl⟩

theorem kept_trans {s'' : TagSet} {m'' : Meaning} (h : Kept s m s' m')
    (h' : Kept s' m' s'' m'') : Kept s m s'' m'' := by
  have hlt : ∀ i, i < size s → i < size s' := fun i hi => lt_of_lt_of_le hi h.size
  exact ⟨le_trans h.size h'.size,
    fun i hi => (h'.stop i (hlt i hi)).trans (h.stop i hi),
    fun i hi => (h'.bits i (hlt i hi)).trans (h.bits i hi),
    fun i hi => (h'.one i (hlt i hi)).trans (h.one i hi),
    fun i hi => (h'.last i (hlt i hi)).trans (h.last i hi)⟩

theorem label_kept (h : Kept s m s' m') {l : ℕ} (hl : IsLabel s m l) : IsLabel s' m' l := by
  refine ⟨lt_of_lt_of_le hl.1 h.size, ?_⟩
  rw [h.one l hl.1]
  exact hl.2

theorem zero_edge_kept (h : Kept s m s' m') {n c : ℕ} (hn : n < size s)
    (he : ZeroEdge s m n c) (hstart : (node s' c).seg.start = (node s c).seg.start)
    (hparent : (node s' c).parent = (node s c).parent) : ZeroEdge s' m' n c where
  lt := lt_of_lt_of_le he.lt h.size
  stop := by rw [h.stop n hn, h.stop c he.lt]; exact he.stop
  start := by rw [hstart, h.stop n hn]; exact he.start
  bits := by rw [h.bits n hn, h.bits c he.lt]; exact he.bits
  one := by rw [h.one c he.lt]; exact he.one
  parent := by rw [hparent, h.last n hn]; exact he.parent

theorem edge_induction (h : Inv top s m) (P : ℕ → Prop) (root : P 0)
    (zero : ∀ n c, n < size s → (node s n).left = c → ZeroEdge s m n c → P n → P c)
    (one : ∀ n c, n < size s → (node s n).right = c → OneEdge s m n c → P n → P c) :
    ∀ c, c < size s → P c := by
  intro c
  induction hk : (node s c).seg.stop using Nat.strong_induction_on generalizing c with
  | _ k ih =>
    intro hc
    by_cases h0 : c = 0
    · subst h0
      exact root
    obtain ⟨n, hn, hl | hr⟩ := h.tree c hc h0
    · have he : ZeroEdge s m n c := hl ▸ h.zero n hn (by omega)
      exact zero n c hn hl he (ih _ (by have := he.stop; omega) n rfl hn)
    · have he : OneEdge s m n c := hr ▸ h.one n hn (by omega)
      exact one n c hn hr he (ih _ (by have := he.stop; omega) n rfl hn)

theorem bits_lt (h : Inv top s m) : ∀ c, c < size s → ∀ y ∈ m.bits c, y < (node s c).seg.stop := by
  apply edge_induction h
  · simp [h.root_bits]
  · intro n c hn _ he ih y hy
    rw [he.bits] at hy
    have := ih y hy
    have := he.stop
    omega
  · intro n c hn _ he ih y hy
    rw [he.bits] at hy
    rcases hy with hy | hy
    · have := ih y hy
      have := he.stop
      omega
    · exact hy.2

structure LastOne (s : TagSet) (m : Meaning) (n p : ℕ) : Prop where
  label : IsLabel s m p
  bits : m.bits p = m.bits n
  stop : (node s p).seg.stop ≤ (node s n).seg.stop

theorem last_one_spec (h : Inv top s m) : ∀ c, c < size s → LastOne s m c (lastOne s m c) := by
  apply edge_induction h
  · simp only [lastOne, h.root_one, h.root_parent]
    exact ⟨⟨h.size_pos, Or.inl rfl⟩, rfl, le_refl _⟩
  · intro n c hn _ he ih
    have hc : lastOne s m c = lastOne s m n := by simp [lastOne, he.one, he.parent]
    rw [hc]
    exact ⟨ih.label, ih.bits.trans he.bits.symm, le_trans ih.stop (le_of_lt he.stop)⟩
  · intro n c hn _ he ih
    have hc : lastOne s m c = c := by simp [lastOne, he.one]
    rw [hc]
    exact ⟨⟨he.lt, Or.inr he.one⟩, rfl, le_refl _⟩

theorem one_edge_kept (h : Kept s m s' m') (hi : Inv top s m) {n c : ℕ} (hn : n < size s)
    (he : OneEdge s m n c) (hstart : (node s' c).seg.start = (node s c).seg.start)
    (hparent : (node s' c).parent = (node s c).parent) : OneEdge s' m' n c where
  lt := lt_of_lt_of_le he.lt h.size
  stop := by rw [h.stop n hn, h.stop c he.lt]; exact he.stop
  start := by rw [hstart, h.stop n hn]; exact he.start
  bits := by rw [h.bits n hn, h.bits c he.lt, h.stop n hn, h.stop c he.lt]; exact he.bits
  one := by rw [h.one c he.lt]; exact he.one
  parent := by rw [hparent, h.last n hn]; exact he.parent
  run := by rw [hstart, h.stop c he.lt, h.bits c he.lt]; exact he.run
  block := by
    have hp : (node s c).parent < size s := he.parent ▸ (last_one_spec hi n hn).label.1
    rw [hstart, hparent, h.stop _ hp, h.bits c he.lt]
    exact he.block

theorem label_last_one (h : Inv top s m) {l : ℕ} (hl : IsLabel s m l) : lastOne s m l = l := by
  rcases hl.2 with rfl | h1
  · simp [lastOne, h.root_one, h.root_parent]
  · simp [lastOne, h1]

/-- The chain of labels that `combine` and `find` climb. -/
structure ParentEdge (s : TagSet) (m : Meaning) (l p : ℕ) : Prop where
  label : IsLabel s m p
  stop : (node s p).seg.stop < (node s l).seg.stop
  bits : m.bits l = m.bits p ∪ Set.Ico (node s l).seg.start (node s l).seg.stop
  below : m.bits p = m.bits l ∩ Set.Iio (node s p).seg.stop
  start : (node s l).seg.start < (node s l).seg.stop
  block : (node s l).seg.start < (node s p).seg.stop →
    ∀ y ∈ m.bits l, y+1 ≠ (node s l).seg.start

theorem one_edge_of_label (h : Inv top s m) {l : ℕ} (hl : IsLabel s m l) (h0 : l ≠ 0) :
    ∃ n, n < size s ∧ (node s n).right = l ∧ OneEdge s m n l := by
  have h1 : m.one l = true := by simpa [h0] using hl.2
  obtain ⟨n, hn, hc | hc⟩ := h.tree l hl.1 h0
  · have he : ZeroEdge s m n l := hc ▸ h.zero n hn (by omega)
    simp [he.one] at h1
  · exact ⟨n, hn, hc, hc ▸ h.one n hn (by omega)⟩

theorem parent_edge (h : Inv top s m) {l : ℕ} (hl : IsLabel s m l) (h0 : l ≠ 0) :
    ParentEdge s m l (node s l).parent := by
  obtain ⟨n, hn, -, he⟩ := one_edge_of_label h hl h0
  have hp := last_one_spec h n hn
  rw [← he.parent] at hp
  have hstart := he.start
  have hstop := he.stop
  have hpstop := hp.stop
  refine ⟨hp.label, by omega, ?_, ?_, by omega, he.block⟩
  · rw [hp.bits]
    apply Set.Subset.antisymm
    · rw [he.bits]
      rintro y (hy | hy)
      · exact Or.inl hy
      · exact Or.inr ⟨le_trans hstart hy.1, hy.2⟩
    · rintro y (hy | hy)
      · rw [he.bits]
        exact Or.inl hy
      · exact he.run hy
  · rw [he.bits, ← hp.bits]
    ext y
    constructor
    · intro hy
      exact ⟨Or.inl hy, bits_lt h _ hp.label.1 y hy⟩
    · rintro ⟨hy | hy, hlt⟩
      · exact hy
      · have := hy.1
        simp only [Set.mem_Iio] at hlt
        omega

end Parmesan.TagSetInvariant
