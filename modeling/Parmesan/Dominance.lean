import Mathlib.Algebra.Order.Ring.Nat
import Mathlib.Data.List.Basic

/-!
# Dominance in a flow graph

`Trace edge entry ps b` holds when control can stand in `b` after it went through the nodes
`ps`, the last one first. A node dominates another one when no trace reaches the second
without the first. In an order of discovery every node comes after a predecessor, so it
also comes after all nodes that dominate it.
-/

set_option autoImplicit false

namespace Parmesan.Dominance

universe u
variable {β : Type u} {edge : β → β → Prop} {entry : β}

inductive Trace (edge : β → β → Prop) (entry : β) : List β → β → Prop where
  | start : Trace edge entry [] entry
  | step {ps : List β} {p b : β} : Trace edge entry ps p → edge p b → Trace edge entry (p::ps) b

def Dominates (edge : β → β → Prop) (entry d b : β) : Prop :=
  ∀ ps, Trace edge entry ps b → d = b ∨ d ∈ ps

theorem trace_before {ps : List β} {b d : β} (h : Trace edge entry ps b) (hd : d ∈ ps) :
    ∃ qs, Trace edge entry qs d ∧ qs.length < ps.length ∧ ∀ x ∈ qs, x ∈ ps := by
  induction h with
  | start => cases hd
  | @step ps p b hp he ih =>
    obtain rfl | hd := List.mem_cons.mp hd
    · exact ⟨ps, hp, by simp, fun x hx => List.mem_cons_of_mem d hx⟩
    · obtain ⟨qs, hq, hlen, hsub⟩ := ih hd
      refine ⟨qs, hq, by rw [List.length_cons]; omega, fun x hx => ?_⟩
      exact List.mem_cons_of_mem p (hsub x hx)

theorem dominates_refl (b : β) : Dominates edge entry b b := fun _ _ => Or.inl rfl

theorem dominates_entry (b : β) : Dominates edge entry entry b := by
  intro ps h
  induction h with
  | start => exact Or.inl rfl
  | step _ _ ih =>
    right
    obtain rfl | hp := ih
    · exact List.mem_cons_self
    · exact List.mem_cons_of_mem _ hp

theorem dominates_trans {a d b : β} (h : Dominates edge entry a d)
    (h' : Dominates edge entry d b) : Dominates edge entry a b := by
  intro ps hb
  obtain rfl | hd := h' ps hb
  · exact h ps hb
  · obtain ⟨qs, hq, -, hsub⟩ := trace_before hb hd
    right
    obtain rfl | ha := h qs hq
    · exact hd
    · exact hsub a ha

/-- Two reachable nodes that dominate each other are one: otherwise each trace to one of
them would hold a shorter trace to the other. -/
theorem dominates_antisymm {a b : β} {ps : List β} (hp : Trace edge entry ps b)
    (h : Dominates edge entry a b) (h' : Dominates edge entry b a) : a = b := by
  by_contra hne
  suffices hnone : ∀ n ps, ps.length ≤ n → ¬ Trace edge entry ps b from
    hnone ps.length ps le_rfl hp
  intro n
  induction n with
  | zero =>
    intro ps hlen hb
    obtain rfl := List.length_eq_zero_iff.mp (Nat.le_zero.mp hlen)
    obtain rfl | ha := h [] hb
    · exact hne rfl
    · cases ha
  | succ n ih =>
    intro ps hlen hb
    obtain rfl | ha := h ps hb
    · exact hne rfl
    obtain ⟨qs, hq, hqlen, -⟩ := trace_before hb ha
    obtain rfl | hb' := h' qs hq
    · exact hne rfl
    obtain ⟨rs, hr, hrlen, -⟩ := trace_before hq hb'
    exact ih rs (by omega) hr

theorem dominates_pred {d p b : β} (h : Dominates edge entry d b) (hne : d ≠ b)
    (he : edge p b) : Dominates edge entry d p := by
  intro ps hp
  obtain rfl | hd := h (p::ps) (hp.step he)
  · exact absurd rfl hne
  · exact List.mem_cons.mp hd

/-- Every node of the order but the entry comes after one of its predecessors. -/
def Discovered (edge : β → β → Prop) (entry : β) (order : List β) : Prop :=
  ∀ pre b post, order = pre ++ b::post → b = entry ∨ ∃ p ∈ pre, edge p b

theorem discovered_trace {order : List β} (h : Discovered edge entry order) :
    ∀ pre b post, order = pre ++ b::post → ∃ ps, Trace edge entry ps b ∧ ∀ p ∈ ps, p ∈ pre := by
  intro pre
  induction hn : pre.length using Nat.strongRecOn generalizing pre with
  | ind n ih =>
    intro b post horder
    obtain rfl | ⟨p, hp, he⟩ := h pre b post horder
    · exact ⟨[], Trace.start, by simp⟩
    · obtain ⟨l, r, rfl⟩ := List.append_of_mem hp
      have hlen : l.length < n := by
        rw [← hn, List.length_append, List.length_cons]
        omega
      obtain ⟨ps, ht, hsub⟩ := ih l.length hlen l rfl p (r ++ b::post) (by simp [horder])
      refine ⟨p::ps, ht.step he, fun x hx => ?_⟩
      obtain rfl | hx := List.mem_cons.mp hx
      · exact hp
      · exact List.mem_append_left _ (hsub x hx)

theorem dominator_listed {order pre post : List β} {d b : β} (h : Discovered edge entry order)
    (horder : order = pre ++ b::post) (hd : Dominates edge entry d b) : d = b ∨ d ∈ pre := by
  obtain ⟨ps, ht, hsub⟩ := discovered_trace h pre b post horder
  obtain rfl | hmem := hd ps ht
  · exact Or.inl rfl
  · exact Or.inr (hsub d hmem)

end Parmesan.Dominance
