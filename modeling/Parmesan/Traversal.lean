import Mathlib.Data.List.Basic
import Mathlib.Logic.Relation

/-!
# Nodes that a walk can reach

A finite directed graph is the list of its edges. `visitAll` adds one node at a
time to those visited, as long as an edge leads out of them.
-/

set_option autoImplicit false

namespace Parmesan.Traversal

universe u
variable {α : Type u}

def Walk (edges : List (α × α)) : α → α → Prop :=
  Relation.ReflTransGen fun a b => (a, b) ∈ edges

def Acyclic (edges : List (α × α)) : Prop :=
  ∀ v, ¬ Relation.TransGen (fun a b => (a, b) ∈ edges) v v

theorem walk_mono {edges edges' : List (α × α)} (h : edges ⊆ edges') {a b : α}
    (hw : Walk edges a b) : Walk edges' a b := by
  induction hw with
  | refl => exact Relation.ReflTransGen.refl
  | tail _ he ih => exact Relation.ReflTransGen.tail ih (h he)

theorem acyclic_mono {edges edges' : List (α × α)} (h : edges ⊆ edges') (ha : Acyclic edges') :
    Acyclic edges := by
  intro v hv
  obtain ⟨w, hw, he⟩ := Relation.TransGen.tail'_iff.mp hv
  exact ha v (Relation.TransGen.tail' (walk_mono h hw) (h he))

theorem acyclic_walk {edges : List (α × α)} (ha : Acyclic edges) {a b : α} (hw : Walk edges a b) :
    (b, a) ∉ edges := fun he => ha b (Relation.TransGen.head' he hw)

variable [DecidableEq α]

def visitAll (edges : List (α × α)) : ℕ → List α → List α
  | 0, seen => seen
  | n+1, seen =>
    match edges.find? fun e => e.1 ∈ seen ∧ e.2 ∉ seen with
    | some e => visitAll edges n (seen ++ [e.2])
    | none => seen

def visitFrom (edges : List (α × α)) (start : α) : List α := visitAll edges edges.length [start]

theorem visit_all_walk (edges : List (α × α)) (n : ℕ) (seen : List α) (start : α)
    (h : ∀ v ∈ seen, Walk edges start v) : ∀ v ∈ visitAll edges n seen, Walk edges start v := by
  induction n generalizing seen with
  | zero => exact h
  | succ n ih =>
    rw [visitAll]
    split
    · rename_i e he
      have hmem := List.mem_of_find?_eq_some he
      have hseen := List.find?_some he
      simp only [decide_eq_true_eq] at hseen
      apply ih
      intro v hv
      rcases List.mem_append.mp hv with hv | hv
      · exact h v hv
      · rw [List.mem_singleton.mp hv]
        exact Relation.ReflTransGen.tail (h e.1 hseen.1) hmem
    · exact h

theorem seen_visit_all (edges : List (α × α)) (n : ℕ) (seen : List α) :
    seen ⊆ visitAll edges n seen := by
  induction n generalizing seen with
  | zero => exact List.Subset.refl seen
  | succ n ih =>
    rw [visitAll]
    split
    · exact fun v hv => ih _ (List.mem_append_left _ hv)
    · exact List.Subset.refl seen

/-- The fuel counts the edges that still lead to an unseen node. -/
theorem visit_all_closed (edges : List (α × α)) (n : ℕ) (seen : List α)
    (hn : (edges.filter fun e => e.2 ∉ seen).length ≤ n) :
    ∀ e ∈ edges, e.1 ∈ visitAll edges n seen → e.2 ∈ visitAll edges n seen := by
  induction n generalizing seen with
  | zero =>
    intro e he _
    have hnil := List.length_eq_zero_iff.mp (Nat.le_zero.mp hn)
    have hin := List.filter_eq_nil_iff.mp hnil e he
    simp only [decide_eq_true_eq, not_not] at hin
    exact hin
  | succ n ih =>
    rw [visitAll]
    split
    · rename_i f hf
      have hmem := List.mem_of_find?_eq_some hf
      have hseen := List.find?_some hf
      simp only [decide_eq_true_eq] at hseen
      apply ih
      have hsub : (edges.filter fun e => e.2 ∉ seen ++ [f.2]).length <
          (edges.filter fun e => e.2 ∉ seen).length := by
        have hsplit : (edges.filter fun e => e.2 ∉ seen ++ [f.2]) =
            (edges.filter fun e => e.2 ∉ seen).filter fun e => e.2 ≠ f.2 := by
          rw [List.filter_filter]
          apply List.filter_congr
          intro e _
          simp [not_or, and_comm]
        rw [hsplit]
        apply List.length_filter_lt_length_iff_exists.mpr
        exact ⟨f, List.mem_filter.mpr ⟨hmem, by simpa using hseen.2⟩, by simp⟩
      omega
    · rename_i hnone
      intro e he hin
      have := List.find?_eq_none.mp hnone e he
      simp only [decide_eq_true_eq, not_and, not_not] at this
      exact this hin

theorem mem_visit_from (edges : List (α × α)) (start v : α) :
    v ∈ visitFrom edges start ↔ Walk edges start v := by
  constructor
  · apply visit_all_walk
    intro w hw
    rw [List.mem_singleton.mp hw]
    exact Relation.ReflTransGen.refl
  · intro hw
    induction hw with
    | refl => exact seen_visit_all edges _ _ (List.mem_singleton.mpr rfl)
    | tail _ he ih =>
      exact visit_all_closed edges _ _ (List.length_filter_le _ _) _ he ih

theorem visit_all_nodup (edges : List (α × α)) (n : ℕ) (seen : List α) (h : seen.Nodup) :
    (visitAll edges n seen).Nodup := by
  induction n generalizing seen with
  | zero => exact h
  | succ n ih =>
    rw [visitAll]
    split
    · rename_i e he
      have hseen := List.find?_some he
      simp only [decide_eq_true_eq] at hseen
      apply ih
      rw [List.nodup_append]
      refine ⟨h, List.pairwise_singleton _ _, ?_⟩
      rintro a ha b hb rfl
      rw [List.mem_singleton.mp hb] at ha
      exact hseen.2 ha
    · exact h

theorem visit_from_nodup (edges : List (α × α)) (start : α) : (visitFrom edges start).Nodup :=
  visit_all_nodup edges _ _ (List.pairwise_singleton _ start)

end Parmesan.Traversal
