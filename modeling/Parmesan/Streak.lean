import Mathlib.Data.List.Infix
import Mathlib.Tactic.SplitIfs

/-!
# Hits in a row

`streak p xs` is how many elements at the end of `xs` satisfy `p`, as a counter that is
set back by every miss would have it. `InRow p n xs` says that somewhere in `xs` there are
`n` hits in a row. Adding one element to a history changes the two together.
-/

set_option autoImplicit false

namespace Parmesan.Streak

universe u
variable {α : Type u} (p : α → Bool)

def streak (xs : List α) : ℕ := (xs.reverse.takeWhile p).length

def InRow (n : ℕ) (xs : List α) : Prop := ∃ ys, ys <:+: xs ∧ ys.length = n ∧ ∀ y ∈ ys, p y = true

@[simp] theorem streak_nil : streak p [] = 0 := rfl

theorem streak_hit (xs : List α) {x : α} (h : p x = true) :
    streak p (xs ++ [x]) = streak p xs+1 := by
  simp [streak, h]

theorem streak_miss (xs : List α) {x : α} (h : ¬ p x = true) : streak p (xs ++ [x]) = 0 := by
  simp [streak, h]

theorem hits_le_streak {xs ys : List α} (hs : ys <:+ xs) (hy : ∀ y ∈ ys, p y = true) :
    ys.length ≤ streak p xs := by
  obtain ⟨zs, rfl⟩ := hs
  rw [streak, List.reverse_append, List.takeWhile_append_of_pos
    (fun y h => hy y (List.mem_reverse.mp h)), List.length_append, List.length_reverse]
  exact Nat.le_add_right _ _

theorem streak_suffix (xs : List α) :
    ∃ ys, ys <:+ xs ∧ ys.length = streak p xs ∧ ∀ y ∈ ys, p y = true := by
  refine ⟨(xs.reverse.takeWhile p).reverse, ?_, List.length_reverse, ?_⟩
  · rw [← List.reverse_prefix, List.reverse_reverse]
    exact List.takeWhile_prefix p
  · intro y hy
    exact List.all_eq_true.mp List.all_takeWhile y (List.mem_reverse.mp hy)

theorem in_row_of_streak {n : ℕ} {xs : List α} (h : n ≤ streak p xs) : InRow p n xs := by
  obtain ⟨ys, hs, hlen, hy⟩ := streak_suffix p xs
  refine ⟨ys.drop (ys.length-n), ?_, by rw [List.length_drop]; omega, ?_⟩
  · exact ((List.drop_suffix _ ys).trans hs).isInfix
  · exact fun y h => hy y (List.mem_of_mem_drop h)

theorem in_row_mono {n : ℕ} {xs ys : List α} (h : InRow p n xs) (hs : xs <:+: ys) :
    InRow p n ys := by
  obtain ⟨zs, hz, hrest⟩ := h
  exact ⟨zs, hz.trans hs, hrest⟩

theorem not_in_row_nil {n : ℕ} (hn : 0 < n) : ¬ InRow p n [] := by
  rintro ⟨ys, hs, hlen, -⟩
  rw [List.infix_nil.mp hs] at hlen
  simp only [List.length_nil] at hlen
  omega

theorem in_row_snoc {n : ℕ} (hn : 0 < n) (xs : List α) (x : α) :
    InRow p n (xs ++ [x]) ↔ InRow p n xs ∨ n ≤ streak p (xs ++ [x]) := by
  constructor
  · rintro ⟨ys, hs, rfl, hy⟩
    obtain hs | hs := List.infix_concat_iff.mp hs
    · exact Or.inr (hits_le_streak p hs hy)
    · exact Or.inl ⟨ys, hs, rfl, hy⟩
  · rintro (h | h)
    · exact in_row_mono p h (List.prefix_append xs [x]).isInfix
    · exact in_row_of_streak p h

/-- While no `n` hits came in a row, the counter that starts again at `n` is the streak. -/
theorem streak_lt_of_not_in_row {n : ℕ} {xs : List α} (h : ¬ InRow p n xs) : streak p xs < n :=
  Nat.lt_of_not_le fun hle => h (in_row_of_streak p hle)

end Parmesan.Streak
