import Mathlib.Algebra.Order.Ring.Nat
import Mathlib.Tactic.SplitIfs
import Mathlib.Data.List.Induction

/-!
# Runs of a deterministic machine under a side condition

`next s i` is the state after input `i`, if the machine can take it.
`Reachable next allowed init` holds of the states that a run from `init` can
reach when every input taken is `allowed` in the state before it.
-/

set_option autoImplicit false

namespace Parmesan.Execution

universe u v
variable {σ : Type u} {ι : Type v}
variable {next : σ → ι → Option σ} {allowed allowed' : σ → ι → Prop} {init : σ}

inductive Reachable (next : σ → ι → Option σ) (allowed : σ → ι → Prop) (init : σ) : σ → Prop where
  | start : Reachable next allowed init init
  | step {s t : σ} {i : ι} : Reachable next allowed init s → allowed s i → next s i = some t →
      Reachable next allowed init t

theorem reachable_invariant {P : σ → Prop} (hinit : P init)
    (hstep : ∀ s i t, P s → allowed s i → next s i = some t → P t) {s : σ}
    (h : Reachable next allowed init s) : P s := by
  induction h with
  | start => exact hinit
  | step _ ha hn ih => exact hstep _ _ _ ih ha hn

theorem reachable_trans {s t : σ} (h : Reachable next allowed init s)
    (h' : Reachable next allowed s t) : Reachable next allowed init t := by
  induction h' with
  | start => exact h
  | step _ ha hn ih => exact Reachable.step ih ha hn

/-- Runs the inputs in order and stops at the first one that is not taken. -/
def replay (next : σ → ι → Option σ) (allowed : σ → ι → Prop) [∀ s i, Decidable (allowed s i)] :
    σ → List ι → Option σ
  | s, [] => some s
  | s, i::is => if allowed s i then (next s i).bind fun t => replay next allowed t is else none

theorem replay_reachable [∀ s i, Decidable (allowed s i)] (is : List ι) (s t : σ)
    (h : replay next allowed s is = some t) : Reachable next allowed s t := by
  induction is generalizing s with
  | nil =>
    obtain rfl : s = t := by simpa [replay] using h
    exact Reachable.start
  | cons i is ih =>
    rw [replay] at h
    split_ifs at h with ha
    obtain ⟨u, hu, hrest⟩ := Option.bind_eq_some_iff.mp h
    exact reachable_trans (Reachable.step Reachable.start ha hu) (ih u hrest)

theorem replay_append [∀ s i, Decidable (allowed s i)] (is js : List ι) (s : σ) :
    replay next allowed s (is ++ js) =
      (replay next allowed s is).bind fun t => replay next allowed t js := by
  induction is generalizing s with
  | nil => rfl
  | cons i is ih =>
    simp only [List.cons_append, replay]
    split_ifs
    · rw [Option.bind_assoc]
      exact congrArg _ (funext fun t => ih t)
    · rfl

theorem replay_snoc [∀ s i, Decidable (allowed s i)] (is : List ι) (i : ι) (s u : σ) :
    replay next allowed s (is ++ [i]) = some u ↔
      ∃ t, replay next allowed s is = some t ∧ allowed t i ∧ next t i = some u := by
  rw [replay_append, Option.bind_eq_some_iff]
  apply exists_congr
  intro t
  simp only [replay]
  by_cases ha : allowed t i <;> simp [ha]

theorem replay_get_d [∀ s i, Decidable (allowed s i)] {is : List ι} {s : σ}
    (h : (replay next allowed s is).isSome = true) (d : σ) :
    replay next allowed s is = some ((replay next allowed s is).getD d) :=
  (Option.getD_of_ne_none (Option.isSome_iff_ne_none.mp h) d).symm

theorem replay_at [∀ s i, Decidable (allowed s i)] {is : List ι} {i : ι} {s t : σ} {p : ℕ}
    (h : replay next allowed s is = some t) (hi : is[p]? = some i) :
    ∃ u, replay next allowed s (is.take p) = some u ∧ allowed u i := by
  obtain ⟨hp, rfl⟩ := List.getElem?_eq_some_iff.mp hi
  rw [← List.take_append_drop p is, List.drop_eq_getElem_cons hp, replay_append] at h
  obtain ⟨u, hu, hrest⟩ := Option.bind_eq_some_iff.mp h
  rw [replay] at hrest
  split_ifs at hrest with ha
  exact ⟨u, hu, ha⟩

theorem replay_mono [∀ s i, Decidable (allowed s i)] [∀ s i, Decidable (allowed' s i)]
    (himp : ∀ s i, allowed s i → allowed' s i) (is : List ι) (s t : σ)
    (h : replay next allowed s is = some t) : replay next allowed' s is = some t := by
  induction is generalizing s with
  | nil => exact h
  | cons i is ih =>
    rw [replay] at h ⊢
    split_ifs at h with ha
    obtain ⟨u, hu, hrest⟩ := Option.bind_eq_some_iff.mp h
    rw [if_pos (himp s i ha), hu]
    exact ih u hrest

theorem replay_induction [∀ s i, Decidable (allowed s i)] {P : List ι → σ → Prop}
    (hinit : P [] init)
    (hstep : ∀ is s i t, replay next allowed init is = some s → P is s → allowed s i →
      next s i = some t → P (is ++ [i]) t)
    (is : List ι) (s : σ) (h : replay next allowed init is = some s) : P is s := by
  induction is using List.reverseRecOn generalizing s with
  | nil =>
    obtain rfl : init = s := Option.some.inj h
    exact hinit
  | append_singleton is i ih =>
    obtain ⟨t, ht, ha, hn⟩ := (replay_snoc is i init s).mp h
    exact hstep is t i s ht (ih t ht) ha hn

/-- When a step from a good state leads to a good state exactly if it is allowed,
a run meets good states only exactly if all its steps are allowed. -/
theorem replay_exact [∀ s i, Decidable (allowed s i)] [∀ s i, Decidable (allowed' s i)]
    {P : σ → Prop} (hinit : P init)
    (hstep : ∀ s i t, P s → allowed' s i → next s i = some t → (P t ↔ allowed s i))
    (himp : ∀ s i, allowed s i → allowed' s i)
    (is : List ι) (s : σ) (h : replay next allowed' init is = some s) :
    (∀ js t, js <+: is → replay next allowed' init js = some t → P t) ↔
      replay next allowed init is = some s := by
  induction is using List.reverseRecOn generalizing s with
  | nil =>
    obtain rfl : init = s := Option.some.inj h
    refine iff_of_true ?_ rfl
    intro js t hjs ht
    obtain rfl := List.prefix_nil.mp hjs
    obtain rfl : init = t := Option.some.inj ht
    exact hinit
  | append_singleton is i ih =>
    obtain ⟨u, hu, ha, hn⟩ := (replay_snoc is i init s).mp h
    have hpre := List.prefix_append is [i]
    rw [replay_snoc]
    constructor
    · intro hall
      have hbefore := (ih u hu).mp fun js t hjs ht => hall js t (hjs.trans hpre) ht
      have hgood := hall is u hpre hu
      exact ⟨u, hbefore, (hstep u i s hgood ha hn).mp (hall _ s (List.prefix_refl _) h), hn⟩
    · rintro ⟨v, hv, hok, -⟩
      obtain rfl : u = v := Option.some.inj (hu.symm.trans (replay_mono himp is init v hv))
      have hbefore := (ih u hu).mpr hv
      intro js t hjs ht
      rcases List.prefix_concat_iff.mp hjs with rfl | hjs
      · obtain rfl : s = t := Option.some.inj (h.symm.trans ht)
        exact (hstep u i s (hbefore is u (List.prefix_refl _) hu) ha hn).mpr hok
      · exact hbefore js t hjs ht

/-- The same, where an invariant holds as long as the run meets good states only. -/
theorem replay_exact_kept [∀ s i, Decidable (allowed s i)] [∀ s i, Decidable (allowed' s i)]
    {K P : σ → Prop} (hkept : K init) (hinit : P init)
    (hkeep : ∀ s i t, K s → P s → allowed' s i → next s i = some t → K t)
    (hstep : ∀ s i t, K s → P s → allowed' s i → next s i = some t → (P t ↔ allowed s i))
    (himp : ∀ s i, allowed s i → allowed' s i)
    (is : List ι) (s : σ) (h : replay next allowed' init is = some s) :
    (∀ js t, js <+: is → replay next allowed' init js = some t → P t) ↔
      replay next allowed init is = some s := by
  have hexact : (∀ js t, js <+: is → replay next allowed' init js = some t → K t ∧ P t) ↔
      replay next allowed init is = some s :=
    replay_exact ⟨hkept, hinit⟩
      (fun s i t hs ha hn => (and_iff_right (hkeep s i t hs.1 hs.2 ha hn)).trans
        (hstep s i t hs.1 hs.2 ha hn))
      himp is s h
  rw [← hexact]
  constructor
  · intro hall js t hjs ht
    refine ⟨?_, hall js t hjs ht⟩
    refine replay_induction (P := fun ks u => ks <+: is → K u) ?_ ?_ js t ht hjs
    · intro _
      exact hkept
    · intro ks u i v hu hk ha hn hprefix
      have hbefore := (List.prefix_append ks [i]).trans hprefix
      exact hkeep u i v (hk hbefore) (hall ks u hbefore hu) ha hn
  · intro hall js t hjs ht
    exact (hall js t hjs ht).2

theorem fold_relates {f : σ → ι → Option σ} {R : σ → σ → Prop} (hrefl : ∀ s, R s s)
    (htrans : ∀ s t u, R s t → R t u → R s u) (is : List ι)
    (hstep : ∀ i ∈ is, ∀ s t, f s i = some t → R s t) (s t : σ)
    (h : is.foldlM f s = some t) : R s t := by
  induction is generalizing s with
  | nil =>
    obtain rfl : s = t := Option.some.inj h
    exact hrefl s
  | cons i is ih =>
    rw [List.foldlM_cons] at h
    obtain ⟨u, hu, h⟩ := Option.bind_eq_some_iff.mp h
    have hfirst := hstep i List.mem_cons_self s u hu
    exact htrans s u t hfirst (ih (fun j hj => hstep j (List.mem_cons_of_mem _ hj)) u h)

theorem fold_budget {f : σ → ι → Option σ} {size : σ → ℕ} {cost : ι → ℕ} {bound : ℕ}
    (hstep : ∀ s i, size s+cost i ≤ bound → ∃ t, f s i = some t ∧ size t ≤ size s+cost i)
    (is : List ι) (s : σ) (h : size s+(is.map cost).sum ≤ bound) :
    ∃ t, is.foldlM f s = some t ∧ size t ≤ size s+(is.map cost).sum := by
  induction is generalizing s with
  | nil => exact ⟨s, rfl, Nat.le_refl _⟩
  | cons i is ih =>
    rw [List.map_cons, List.sum_cons] at h ⊢
    obtain ⟨t, ht, hsize⟩ := hstep s i (by omega)
    obtain ⟨u, hu, hlast⟩ := ih t (by omega)
    refine ⟨u, ?_, by omega⟩
    rw [List.foldlM_cons, ht]
    exact hu

theorem fold_view {τ : Type*} {view : σ → τ} {f : σ → ι → Option σ} {g : τ → ι → Option τ}
    (h : ∀ s i, (f s i).map view = g (view s) i) (is : List ι) (s : σ) :
    (is.foldlM f s).map view = is.foldlM g (view s) := by
  induction is generalizing s with
  | nil => rfl
  | cons i is ih =>
    simp only [List.foldlM_cons, Option.bind_eq_bind, ← h, Option.map_bind, Option.bind_map]
    exact congrArg _ (funext ih)

end Parmesan.Execution
