import Mathlib.Algebra.Order.Ring.Nat
import Mathlib.Data.List.Count

/-!
# Edit scripts between two sequences

A script walks over two sequences from their starts: it keeps a pair of elements,
drops one of the left or takes one of the right. `accepts i j` says which pairs may be
kept. `cheapest` is the table of the dynamic program that keeps a pair whenever it may;
it is never above the cost of any script.
-/

set_option autoImplicit false

namespace Parmesan.EditScript

inductive Change where
  | both
  | left
  | right
  deriving DecidableEq, Repr

def leftCount (p : List Change) : ℕ := p.count .both+p.count .left
def rightCount (p : List Change) : ℕ := p.count .both+p.count .right
def unpaired (p : List Change) : ℕ := p.count .left+p.count .right

section Counts
variable (p : List Change)

@[simp] theorem left_count_both : leftCount (.both :: p) = leftCount p+1 := by
  simp [leftCount]
  omega

@[simp] theorem left_count_left : leftCount (.left :: p) = leftCount p+1 := by
  simp [leftCount]
  omega

@[simp] theorem left_count_right : leftCount (.right :: p) = leftCount p := by simp [leftCount]

@[simp] theorem right_count_both : rightCount (.both :: p) = rightCount p+1 := by
  simp [rightCount]
  omega

@[simp] theorem right_count_left : rightCount (.left :: p) = rightCount p := by simp [rightCount]

@[simp] theorem right_count_right : rightCount (.right :: p) = rightCount p+1 := by
  simp [rightCount]
  omega

@[simp] theorem left_count_append (q : List Change) :
    leftCount (p ++ q) = leftCount p+leftCount q := by
  simp [leftCount]
  omega

@[simp] theorem right_count_append (q : List Change) :
    rightCount (p ++ q) = rightCount p+rightCount q := by
  simp [rightCount]
  omega

@[simp] theorem left_count_replicate (n : ℕ) : leftCount (List.replicate n .both) = n := by
  simp [leftCount, List.count_replicate]

@[simp] theorem right_count_replicate (n : ℕ) : rightCount (List.replicate n .both) = n := by
  simp [rightCount, List.count_replicate]

end Counts

variable {accepts : ℕ → ℕ → Bool} {w : ℕ}

/-- `p` leads to the first `i` elements on the left and the first `j` on the right. -/
inductive Script (accepts : ℕ → ℕ → Bool) : ℕ → ℕ → List Change → Prop where
  | start : Script accepts 0 0 []
  | both {i j p} : Script accepts i j p → accepts i j = true →
      Script accepts (i+1) (j+1) (p ++ [.both])
  | left {i j p} : Script accepts i j p → Script accepts (i+1) j (p ++ [.left])
  | right {i j p} : Script accepts i j p → Script accepts i (j+1) (p ++ [.right])

theorem Script.counts {i j : ℕ} {p : List Change} (h : Script accepts i j p) :
    leftCount p = i ∧ rightCount p = j := by
  induction h with
  | start => exact ⟨rfl, rfl⟩
  | both _ _ ih => exact ⟨by simp [ih.1]; rfl, by simp [ih.2]; rfl⟩
  | left _ ih => exact ⟨by simp [ih.1]; rfl, by simp [ih.2]; rfl⟩
  | right _ ih => exact ⟨by simp [ih.1]; rfl, by simp [ih.2]; rfl⟩

theorem script_left (accepts : ℕ → ℕ → Bool) (i : ℕ) :
    Script accepts i 0 (List.replicate i .left) := by
  induction i with
  | zero => exact Script.start
  | succ i ih =>
    rw [List.replicate_succ']
    exact ih.left

def cheapest (accepts : ℕ → ℕ → Bool) (w : ℕ) : ℕ → ℕ → ℕ
  | 0, j => w*j
  | i+1, 0 => w*(i+1)
  | i+1, j+1 =>
    if accepts i j then cheapest accepts w i j
    else min (cheapest accepts w i (j+1)) (cheapest accepts w (i+1) j)+w
termination_by i j => i+j

theorem cheapest_zero_right (i : ℕ) : cheapest accepts w i 0 = w*i := by
  cases i <;> simp [cheapest]

theorem cheapest_zero_left (j : ℕ) : cheapest accepts w 0 j = w*j := by simp [cheapest]

structure Near (accepts : ℕ → ℕ → Bool) (w i j : ℕ) : Prop where
  left_le : cheapest accepts w (i+1) j ≤ cheapest accepts w i j+w
  right_le : cheapest accepts w i (j+1) ≤ cheapest accepts w i j+w
  le_left : cheapest accepts w i j ≤ cheapest accepts w (i+1) j+w
  le_right : cheapest accepts w i j ≤ cheapest accepts w i (j+1)+w

theorem near (accepts : ℕ → ℕ → Bool) (w i j : ℕ) : Near accepts w i j := by
  induction hn : i+j using Nat.strongRecOn generalizing i j with
  | ind n ih =>
    subst hn
    -- the two sides of the table: one step to the left and one to the right
    have hleft : cheapest accepts w (i+1) j ≤ cheapest accepts w i j+w ∧
        cheapest accepts w i j ≤ cheapest accepts w (i+1) j+w := by
      cases j with
      | zero =>
        rw [cheapest_zero_right, cheapest_zero_right, Nat.mul_succ]
        omega
      | succ j =>
        have hs := ih (i+j) (by omega) i j rfl
        have h1 := hs.le_right
        have h2 := hs.right_le
        have h3 := hs.le_left
        rw [cheapest]
        split_ifs <;> omega
    have hright : cheapest accepts w i (j+1) ≤ cheapest accepts w i j+w ∧
        cheapest accepts w i j ≤ cheapest accepts w i (j+1)+w := by
      cases i with
      | zero =>
        rw [cheapest_zero_left, cheapest_zero_left, Nat.mul_succ]
        omega
      | succ i =>
        have hs := ih (i+j) (by omega) i j rfl
        have h1 := hs.le_left
        have h2 := hs.left_le
        have h3 := hs.le_right
        rw [cheapest]
        split_ifs <;> omega
    exact ⟨hleft.1, hright.1, hleft.2, hright.2⟩

theorem unpaired_append (p q : List Change) : unpaired (p ++ q) = unpaired p+unpaired q := by
  simp [unpaired]
  omega

/-- No script costs less than the table says. -/
theorem Script.cheapest_le {i j : ℕ} {p : List Change} (h : Script accepts i j p) (w : ℕ) :
    cheapest accepts w i j ≤ w*unpaired p := by
  induction h with
  | start => simp [cheapest]
  | @both i j p _ ha ih =>
    rw [cheapest, if_pos ha, unpaired_append]
    simpa [unpaired] using ih
  | @left i j p _ ih =>
    have hn := (near accepts w i j).left_le
    rw [unpaired_append, Nat.mul_add]
    simp only [show unpaired [Change.left] = 1 from rfl, Nat.mul_one]
    omega
  | @right i j p _ ih =>
    have hn := (near accepts w i j).right_le
    rw [unpaired_append, Nat.mul_add]
    simp only [show unpaired [Change.right] = 1 from rfl, Nat.mul_one]
    omega

theorem unpaired_eq_zero {p : List Change} (h : unpaired p = 0) :
    p = List.replicate p.length .both := by
  rw [List.eq_replicate_iff]
  refine ⟨rfl, fun c hc => ?_⟩
  cases c with
  | both => rfl
  | left =>
    have hpos := List.count_pos_iff.mpr hc
    unfold unpaired at h
    omega
  | right =>
    have hpos := List.count_pos_iff.mpr hc
    unfold unpaired at h
    omega

theorem script_diagonal {n : ℕ} (h : ∀ i < n, accepts i i = true) :
    Script accepts n n (List.replicate n .both) := by
  induction n with
  | zero => exact Script.start
  | succ n ih =>
    rw [List.replicate_succ']
    exact (ih fun i hi => h i (by omega)).both (h n (by omega))

theorem Script.diagonal {i j n : ℕ} {p : List Change} (h : Script accepts i j p)
    (hp : p = List.replicate n .both) : i = n ∧ j = n ∧ ∀ k < n, accepts k k = true := by
  induction h generalizing n with
  | start =>
    have hn : n = 0 := by simpa using (congrArg List.length hp).symm
    subst hn
    exact ⟨rfl, rfl, fun k hk => absurd hk (Nat.not_lt_zero k)⟩
  | @both i j p _ ha ih =>
    cases n with
    | zero => simp at hp
    | succ n =>
      rw [List.replicate_succ'] at hp
      obtain ⟨rfl, rfl, hk⟩ := ih (List.append_inj_left' hp rfl)
      refine ⟨rfl, rfl, fun k hlt => ?_⟩
      obtain hlt | rfl := Nat.lt_succ_iff_lt_or_eq.mp hlt
      · exact hk k hlt
      · exact ha
  | @left i j p _ _ =>
    cases n with
    | zero => simp at hp
    | succ n =>
      rw [List.replicate_succ'] at hp
      simpa using List.append_inj_right' hp rfl
  | @right i j p _ _ =>
    cases n with
    | zero => simp at hp
    | succ n =>
      rw [List.replicate_succ'] at hp
      simpa using List.append_inj_right' hp rfl

end Parmesan.EditScript
