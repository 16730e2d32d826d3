import Mathlib.Data.Finset.Lattice.Fold
import Parmesan.Dominance
import Parmesan.ShadowRun

/-!
# Shared unions are the unions of their operands

A shadow is ready at a place when its code lies before the place in the same block, or in
a block that dominates it. While a run stands at the place, the shadow of a union then
still is the join of the elements that the pass has noted for it: none of them can have
been computed again since. So a union found by its elements or in the cache has the value
that a new union would have.
-/

set_option autoImplicit false

namespace Parmesan.ShadowCombine
open Parmesan.Dominance Parmesan.ShadowModel Parmesan.ShadowRun

/-! ## Places -/

def Dom (F : Fn) (d b : ℕ) : Prop := Dominates (edge F) 0 d b

def Reached (F : Fn) (b : ℕ) : Prop := ∃ ps, Trace (edge F) 0 ps b

def Before (F : Fn) (b' k' i' b k i : ℕ) : Prop :=
  (b' = b ∧ (k' < k ∨ k' = k ∧ i' ≤ i)) ∨ (b' ≠ b ∧ Dom F b' b)

def Ready (F : Fn) (b k i : ℕ) : Shadow → Prop
  | .zero => True
  | .arg _ => True
  | .phi b' _ => Dom F b' b
  | .tmp b' k' i' => Before F b' k' (i'+1) b k i

def Available (F : Fn) (b k : ℕ) : Value → Prop
  | .constantInt => True
  | .other => True
  | .arg _ => True
  | .phi b' j => j < (F.block b').phis.length ∧ Dom F b' b
  | .inst b' k' => k' < (F.block b').insts.length ∧ Before F b' (k'+1) 0 b k 0

variable {F : Fn} {b k i : ℕ}

theorem dom_refl (b : ℕ) : Dom F b b := dominates_refl b

theorem before_dom {b' k' i' : ℕ} (h : Before F b' k' i' b k i) : Dom F b' b := by
  obtain ⟨rfl, -⟩ | ⟨-, h⟩ := h
  · exact dom_refl b'
  · exact h

theorem before_trans {b₁ k₁ i₁ b₂ k₂ i₂ : ℕ} (hb : Reached F b)
    (h : Before F b₁ k₁ i₁ b₂ k₂ i₂) (h' : Before F b₂ k₂ i₂ b k i) :
    Before F b₁ k₁ i₁ b k i := by
  obtain ⟨rfl, h⟩ | ⟨hne, h⟩ := h
  · obtain ⟨rfl, h'⟩ | h' := h'
    · exact Or.inl ⟨rfl, by omega⟩
    · exact Or.inr h'
  · obtain ⟨rfl, h'⟩ | ⟨hne', h'⟩ := h'
    · exact Or.inr ⟨hne, h⟩
    · refine Or.inr ⟨?_, dominates_trans h h'⟩
      rintro rfl
      obtain ⟨ps, hps⟩ := hb
      exact hne' (dominates_antisymm hps h' h)

theorem ready_before {b' k' i' : ℕ} {S : Shadow} (hb : Reached F b) (h : Ready F b' k' i' S)
    (h' : Before F b' k' i' b k i) : Ready F b k i S := by
  cases S with
  | zero => trivial
  | arg n => trivial
  | phi c j => exact dominates_trans h (before_dom h')
  | tmp c l j => exact before_trans hb h h'

theorem before_later {i' : ℕ} (h : i ≤ i') : Before F b k i b k i' := Or.inl ⟨rfl, by omega⟩

theorem before_next : Before F b k i b (k+1) 0 := Or.inl ⟨rfl, by omega⟩

theorem ready_later {i' : ℕ} {S : Shadow} (hb : Reached F b) (h : Ready F b k i S)
    (hi : i ≤ i') : Ready F b k i' S := ready_before hb h (before_later hi)

theorem not_ready_here {j : ℕ} (h : i ≤ j) : ¬ Ready F b k i (.tmp b k j) := by
  rintro (⟨-, h'⟩ | ⟨h', -⟩)
  · omega
  · exact h' rfl

/-! ## What the pass knows -/

def Made (s : DFSanFunction) : Shadow → Prop
  | .tmp b k i => i < (s.code b k).length
  | _ => True

def shadowOf (o : Options) (s : DFSanFunction) : Value → Shadow
  | .constantInt => .zero
  | .other => .zero
  | .arg n => if o.IsNativeABI then .zero else .arg n
  | V => (s.ValShadowMap V).getD .zero

def Placed (o : Options) (F : Fn) : Value → Shadow → Prop
  | .constantInt, _ => True
  | .other, _ => True
  | .arg n, S => S = .arg n ∧ o.IsNativeABI = false
  | .phi b j, S => S = .phi b j ∨ S = .zero
  | .inst b k, S => Ready F b (k+1) 0 S

structure Inv (o : Options) (F : Fn) (s : DFSanFunction) : Prop where
  elements : ∀ u E, s.ShadowElements u = some E → ∃ b k i, u = .tmp b k i ∧ Made s u ∧
    ∀ e ∈ E, Ready F b k i e
  cached : ∀ x y d u, s.CachedCombinedShadows (x, y) = some (d, u) → Made s x ∧ Made s y ∧
    (∃ k i, u = .tmp d k i) ∧ Made s u ∧ s.ShadowElements u = some (s.elements x ∪ s.elements y)
  values : ∀ V S, s.ValShadowMap V = some S → Made s S ∧ Placed o F V S
  allocas : ∀ V, s.AllocaShadowMap V = true → promoted F V = true

/-- `s'` has come from `s` by emitting `ops` at instruction `k` of block `b`. -/
structure Grown (o : Options) (b k : ℕ) (s s' : DFSanFunction) (ops : List ShadowOp) :
    Prop where
  code : s'.code b k = s.code b k ++ ops
  elsewhere : ∀ b' k', ¬ (b' = b ∧ k' = k) → s'.code b' k' = s.code b' k'
  elements : ∀ u, (∀ i, u = .tmp b k i → i < (s.code b k).length) →
    s'.ShadowElements u = s.ShadowElements u
  values : ∀ V, shadowOf o s' V = shadowOf o s V
  allocas : s'.AllocaShadowMap = s.AllocaShadowMap
  fixups : s'.PHIFixups = s.PHIFixups
  phis : s'.phis = s.phis

variable {o : Options} {s s' s₁ : DFSanFunction}

theorem grown_refl (s : DFSanFunction) : Grown o b k s s [] :=
  ⟨by simp, fun _ _ _ => rfl, fun _ _ => rfl, fun _ => rfl, rfl, rfl, rfl⟩

theorem Grown.length {ops : List ShadowOp} (h : Grown o b k s s' ops) :
    (s'.code b k).length = (s.code b k).length+ops.length := by
  rw [h.code, List.length_append]

theorem Grown.trans {ops ops' : List ShadowOp} (h : Grown o b k s s₁ ops)
    (h' : Grown o b k s₁ s' ops') : Grown o b k s s' (ops ++ ops') where
  code := by rw [h'.code, h.code, List.append_assoc]
  elsewhere := fun b' k' hne => (h'.elsewhere b' k' hne).trans (h.elsewhere b' k' hne)
  elements := by
    intro u hu
    rw [h'.elements u ?_, h.elements u hu]
    intro i hi
    have hlt := hu i hi
    rw [h.length]
    omega
  values := fun V => (h'.values V).trans (h.values V)
  allocas := h'.allocas.trans h.allocas
  fixups := h'.fixups.trans h.fixups
  phis := h'.phis.trans h.phis

theorem Grown.made {ops : List ShadowOp} (h : Grown o b k s s' ops) {S : Shadow}
    (hS : Made s S) : Made s' S := by
  cases S with
  | tmp b' k' i' =>
    by_cases hplace : b' = b ∧ k' = k
    · obtain ⟨rfl, rfl⟩ := hplace
      have hlen := h.length
      replace hS : i' < (s.code b' k').length := hS
      exact lt_of_lt_of_le hS (by omega)
    · exact lt_of_lt_of_eq hS (congrArg List.length (h.elsewhere b' k' hplace).symm)
  | _ => trivial

theorem Grown.settled {ops : List ShadowOp} (h : Grown o b k s s' ops) {S : Shadow}
    (hS : Made s S) : s'.ShadowElements S = s.ShadowElements S := by
  apply h.elements
  rintro i rfl
  exact hS

theorem Grown.settled_elements {ops : List ShadowOp} (h : Grown o b k s s' ops) {S : Shadow}
    (hS : Made s S) : s'.elements S = s.elements S := by
  unfold DFSanFunction.elements
  rw [h.settled hS]

/-! ## Emitted code -/

section Emits
variable {α : Type} [SemilatticeSup α] [OrderBot α] {R : Runtime α} {d : Input Label}
variable {m m' m₁ : Machine Shadow Label}

theorem exec_env {S : Shadow} (op : ShadowOp) (hS : S ≠ .tmp b k i) :
    (exec R b k i d m op).env S = m.env S := by
  cases op with
  | callee custom => cases custom <;> rfl
  | _ => simp [exec, Machine.define, Machine.setCell, hS]

theorem exec_all_env {S : Shadow} (ops : List ShadowOp) (h : Ready F b k i S) :
    (execAll R b k d i ops m).env S = m.env S := by
  suffices hgen : ∀ (n : ℕ) (m : Machine Shadow Label), i ≤ n →
      (execAll R b k d n ops m).env S = m.env S from hgen i m le_rfl
  induction ops with
  | nil => exact fun n m _ => rfl
  | cons op ops ih =>
    intro n m hn
    rw [execAll, ih (n+1) _ (by omega), exec_env]
    rintro rfl
    exact not_ready_here hn h

theorem exec_all_append (ops ops' : List ShadowOp) :
    execAll R b k d i (ops ++ ops') m =
      execAll R b k d (i+ops.length) ops' (execAll R b k d i ops m) := by
  induction ops generalizing i m with
  | nil => rfl
  | cons op ops ih =>
    rw [List.cons_append, execAll, ih, execAll, List.length_cons,
      show i+1+ops.length = i+(ops.length+1) by omega]

def Keeps (F : Fn) (b k i : ℕ) (m m' : Machine Shadow Label) : Prop :=
  ∀ S, Ready F b k i S → m'.env S = m.env S

structure Summed (R : Runtime α) (F : Fn) (s : DFSanFunction) (b k : ℕ)
    (m : Machine Shadow Label) : Prop where
  zero : m.env .zero = 0
  unions : ∀ u E, s.ShadowElements u = some E → Ready F b k (s.code b k).length u →
    R.den (m.env u) = E.sup fun e => R.den (m.env e)

/-- The pass goes from `s` to `s'`, and what it emits takes `m` to a machine that `P` holds
of, whatever the input is. -/
structure Emits (R : Runtime α) (o : Options) (F : Fn) (b k : ℕ) (s s' : DFSanFunction)
    (P : Input Label → Machine Shadow Label → Machine Shadow Label → Prop) : Prop where
  inv : Inv o F s'
  run : ∃ ops, Grown o b k s s' ops ∧ ∀ d m, Summed R F s b k m →
    Summed R F s' b k (execAll R b k d (s.code b k).length ops m) ∧
      P d m (execAll R b k d (s.code b k).length ops m)

variable {P Q T : Input Label → Machine Shadow Label → Machine Shadow Label → Prop}

theorem Emits.trans (h : Emits R o F b k s s₁ P) (h' : Emits R o F b k s₁ s' Q)
    (himp : ∀ d m m₁ m', Keeps F b k (s.code b k).length m m₁ →
      Keeps F b k (s₁.code b k).length m₁ m' → P d m m₁ → Q d m₁ m' → T d m m') :
    Emits R o F b k s s' T := by
  obtain ⟨ops, hgrown, hrun⟩ := h.run
  obtain ⟨ops', hgrown', hrun'⟩ := h'.run
  refine ⟨h'.inv, ops ++ ops', hgrown.trans hgrown', fun d m hm => ?_⟩
  obtain ⟨hm₁, hP⟩ := hrun d m hm
  obtain ⟨hm', hQ⟩ := hrun' d _ hm₁
  rw [exec_all_append, ← hgrown.length]
  refine ⟨hm', himp d m _ _ ?_ ?_ hP hQ⟩
  · exact fun S hS => exec_all_env ops hS
  · exact fun S hS => exec_all_env ops' hS

theorem Emits.imp (h : Emits R o F b k s s' P)
    (himp : ∀ d m m', Summed R F s b k m → P d m m' → T d m m') : Emits R o F b k s s' T := by
  obtain ⟨ops, hgrown, hrun⟩ := h.run
  refine ⟨h.inv, ops, hgrown, fun d m hm => ?_⟩
  obtain ⟨hm', hP⟩ := hrun d m hm
  exact ⟨hm', himp d m _ hm hP⟩

theorem Emits.made {S : Shadow} (h : Emits R o F b k s s' P) (hS : Made s S) : Made s' S := by
  obtain ⟨ops, hgrown, -⟩ := h.run
  exact hgrown.made hS

theorem Emits.ready {S : Shadow} (h : Emits R o F b k s s' P) (hb : Reached F b)
    (hS : Ready F b k (s.code b k).length S) : Ready F b k (s'.code b k).length S := by
  obtain ⟨ops, hgrown, -⟩ := h.run
  refine ready_later hb hS ?_
  rw [hgrown.length]
  omega

theorem Emits.values (h : Emits R o F b k s s' P) (V : Value) :
    shadowOf o s' V = shadowOf o s V := by
  obtain ⟨ops, hgrown, -⟩ := h.run
  exact hgrown.values V

theorem Emits.allocas (h : Emits R o F b k s s' P) : s'.AllocaShadowMap = s.AllocaShadowMap := by
  obtain ⟨ops, hgrown, -⟩ := h.run
  exact hgrown.allocas

theorem made_ready {n : ℕ} {S : Shadow} (hS : Made s S) (h : Ready F b k n S) :
    Ready F b k (s.code b k).length S := by
  cases S with
  | zero => trivial
  | arg a => trivial
  | phi c j => exact h
  | tmp c l j =>
    obtain ⟨rfl, hlt⟩ | h := h
    · refine Or.inl ⟨rfl, ?_⟩
      by_cases hl : l = k
      · subst hl
        exact Or.inr ⟨rfl, hS⟩
      · omega
    · exact Or.inr h

theorem old_sum {u : Shadow} {E : Finset Shadow} {n : ℕ} (hb : Reached F b) (hinv : Inv o F s)
    (hm : Summed R F s b k m) (hkeep : Keeps F b k (s.code b k).length m m')
    (hu : s.ShadowElements u = some E) (hready : Ready F b k n u) :
    R.den (m'.env u) = E.sup fun e => R.den (m'.env e) := by
  obtain ⟨c, l, j, rfl, hmade, hE⟩ := hinv.elements u E hu
  have hu' := made_ready hmade hready
  rw [hkeep _ hu', hm.unions _ E hu hu']
  refine Finset.sup_congr rfl fun e he => ?_
  rw [hkeep e]
  refine ready_before hb (hE e he) (before_trans hb ?_ hu')
  exact before_later (Nat.le_succ j)

theorem summed_kept (hb : Reached F b) (hinv : Inv o F s)
    (helems : s'.ShadowElements = s.ShadowElements) (hm : Summed R F s b k m)
    (hkeep : Keeps F b k (s.code b k).length m m') : Summed R F s' b k m' where
  zero := (hkeep .zero trivial).trans hm.zero
  unions := fun _ _ hu hready => old_sum hb hinv hm hkeep (helems ▸ hu) hready

theorem inv_grown {ops : List ShadowOp} (hinv : Inv o F s) (h : Grown o b k s s' ops)
    (helems : s'.ShadowElements = s.ShadowElements)
    (hcache : s'.CachedCombinedShadows = s.CachedCombinedShadows)
    (hvalues : ∀ V S, s'.ValShadowMap V = some S → Made s' S ∧ Placed o F V S) :
    Inv o F s' where
  elements := by
    intro u E hu
    obtain ⟨c, l, j, rfl, hmade, hE⟩ := hinv.elements u E (helems ▸ hu)
    exact ⟨c, l, j, rfl, h.made hmade, hE⟩
  cached := by
    intro x y d u hu
    obtain ⟨hx, hy, hplace, hmade, hE⟩ := hinv.cached x y d u (hcache ▸ hu)
    refine ⟨h.made hx, h.made hy, hplace, h.made hmade, ?_⟩
    rw [h.settled_elements hx, h.settled_elements hy, helems]
    exact hE
  values := hvalues
  allocas := h.allocas ▸ hinv.allocas

theorem emit_grown (s : DFSanFunction) (ops : List ShadowOp) :
    Grown o b k s (s.emit b k ops) ops where
  code := by simp [DFSanFunction.emit]
  elsewhere := by
    intro b' k' hne
    simp [DFSanFunction.emit, hne]
  elements := fun _ _ => rfl
  values := fun V => by cases V <;> rfl
  allocas := rfl
  fixups := rfl
  phis := rfl

theorem emits_ops (hb : Reached F b) (hinv : Inv o F s) (ops : List ShadowOp) :
    Emits R o F b k s (s.emit b k ops)
      (fun d m m' => m' = execAll R b k d (s.code b k).length ops m) := by
  have hgrown : Grown o b k s (s.emit b k ops) ops := emit_grown s ops
  refine ⟨inv_grown hinv hgrown rfl rfl ?_, ops, hgrown, fun d m hm => ⟨?_, rfl⟩⟩
  · intro V S hV
    obtain ⟨hmade, hplaced⟩ := hinv.values V S hV
    exact ⟨hgrown.made hmade, hplaced⟩
  · exact summed_kept hb hinv rfl hm fun S hS => exec_all_env ops hS

/-! ## Shadows of values -/

theorem get_shadow_value (hinv : Inv o F s) (V : Value) :
    (getShadow o s V).2 = shadowOf o s V := by
  cases V with
  | constantInt => rfl
  | other => rfl
  | arg n =>
    simp only [getShadow, shadowOf]
    cases hV : s.ValShadowMap (.arg n) with
    | some S =>
      obtain ⟨-, rfl, hnative⟩ := hinv.values _ _ hV
      simp [hnative]
    | none => split_ifs <;> rfl
  | phi c j =>
    simp only [getShadow, shadowOf]
    cases s.ValShadowMap (.phi c j) <;> rfl
  | inst c l =>
    simp only [getShadow, shadowOf]
    cases s.ValShadowMap (.inst c l) <;> rfl

/-- The states differ in entries only that say what their absence says as well. -/
structure Asked (o : Options) (F : Fn) (s s' : DFSanFunction) : Prop where
  code : s'.code = s.code
  elements : s'.ShadowElements = s.ShadowElements
  cache : s'.CachedCombinedShadows = s.CachedCombinedShadows
  allocas : s'.AllocaShadowMap = s.AllocaShadowMap
  fixups : s'.PHIFixups = s.PHIFixups
  phis : s'.phis = s.phis
  same : ∀ V, shadowOf o s' V = shadowOf o s V
  values : ∀ V S, s'.ValShadowMap V = some S → Made s' S ∧ Placed o F V S

theorem asked_refl (hinv : Inv o F s) : Asked o F s s :=
  ⟨rfl, rfl, rfl, rfl, rfl, rfl, fun _ => rfl, hinv.values⟩

theorem Asked.trans (h : Asked o F s s₁) (h' : Asked o F s₁ s') : Asked o F s s' :=
  ⟨h'.code.trans h.code, h'.elements.trans h.elements, h'.cache.trans h.cache,
    h'.allocas.trans h.allocas, h'.fixups.trans h.fixups, h'.phis.trans h.phis,
    fun V => (h'.same V).trans (h.same V), h'.values⟩

theorem Asked.grown (h : Asked o F s s') : Grown o b k s s' [] :=
  ⟨by simp [h.code], fun _ _ _ => by rw [h.code], fun _ _ => by rw [h.elements], h.same,
    h.allocas, h.fixups, h.phis⟩

theorem Asked.inv (h : Asked o F s s') (hinv : Inv o F s) : Inv o F s' :=
  inv_grown hinv (h.grown (b := 0) (k := 0)) h.elements h.cache h.values

theorem Asked.emits (h : Asked o F s s') (hinv : Inv o F s) :
    Emits R o F b k s s' (fun _ m m' => m' = m) := by
  refine ⟨h.inv hinv, [], h.grown, fun d m hm => ⟨⟨hm.zero, ?_⟩, rfl⟩⟩
  rw [h.elements, h.code]
  exact hm.unions

theorem set_shadow_values {V : Value} {S : Shadow} (hinv : Inv o F s) (hmade : Made s S)
    (hplaced : Placed o F V S) : ∀ V' S', (s.setShadow V S).ValShadowMap V' = some S' →
      Made (s.setShadow V S) S' ∧ Placed o F V' S' := by
  intro V' S' h
  replace h : (if V' = V then some S else s.ValShadowMap V') = some S' := h
  split_ifs at h with hV
  · cases h
    exact ⟨hmade, hV ▸ hplaced⟩
  · exact hinv.values V' S' h

theorem set_shadow_of (s : DFSanFunction) {V V' : Value} {S : Shadow} (h : V' ≠ V) :
    shadowOf o (s.setShadow V S) V' = shadowOf o s V' := by
  cases V' with
  | constantInt => rfl
  | other => rfl
  | arg n => rfl
  | _ => simp [shadowOf, DFSanFunction.setShadow, h]

theorem get_shadow_asked (hinv : Inv o F s) (V : Value) :
    Asked o F s (getShadow o s V).1 := by
  have hsame : Asked o F s s := asked_refl hinv
  cases V with
  | constantInt => exact hsame
  | other => exact hsame
  | arg n =>
    simp only [getShadow]
    cases hV : s.ValShadowMap (.arg n) with
    | some S => exact hsame
    | none =>
      split_ifs with hnative
      · exact hsame
      · have hvalues : ∀ V' S', (s.setShadow (.arg n) (.arg n)).ValShadowMap V' = some S' →
            Made (s.setShadow (.arg n) (.arg n)) S' ∧ Placed o F V' S' :=
          set_shadow_values hinv trivial ⟨rfl, by simpa using hnative⟩
        refine ⟨rfl, rfl, rfl, rfl, rfl, rfl, fun V => ?_, hvalues⟩
        by_cases h : V = .arg n
        · rw [h]
          rfl
        · exact set_shadow_of s h
  | phi c j =>
    simp only [getShadow]
    cases hV : s.ValShadowMap (.phi c j) with
    | some S => exact hsame
    | none =>
      refine ⟨rfl, rfl, rfl, rfl, rfl, rfl, fun V => ?_,
        set_shadow_values hinv trivial (Or.inr rfl)⟩
      by_cases h : V = .phi c j
      · rw [h]
        simp [shadowOf, DFSanFunction.setShadow, hV]
      · exact set_shadow_of s h
  | inst c l =>
    simp only [getShadow]
    cases hV : s.ValShadowMap (.inst c l) with
    | some S => exact hsame
    | none =>
      refine ⟨rfl, rfl, rfl, rfl, rfl, rfl, fun V => ?_,
        set_shadow_values hinv trivial trivial⟩
      by_cases h : V = .inst c l
      · rw [h]
        simp [shadowOf, DFSanFunction.setShadow, hV]
      · exact set_shadow_of s h

theorem get_shadows_asked (Vs : List Value) (hinv : Inv o F s) :
    Asked o F s (getShadows o s Vs).1 ∧ (getShadows o s Vs).2 = Vs.map (shadowOf o s) := by
  induction Vs generalizing s with
  | nil => exact ⟨asked_refl hinv, rfl⟩
  | cons V Vs ih =>
    have hu := get_shadow_asked hinv V
    obtain ⟨hrest, hvalues⟩ := ih (hu.inv hinv)
    refine ⟨hu.trans hrest, ?_⟩
    rw [getShadows, List.map_cons, get_shadow_value hinv V, hvalues]
    exact congrArg _ (List.map_congr_left fun V' _ => hu.same V')

theorem shadow_ready {V : Value} (hb : Reached F b) (hinv : Inv o F s)
    (hV : Available F b k V) : Ready F b k i (shadowOf o s V) ∧ Made s (shadowOf o s V) := by
  cases V with
  | constantInt => exact ⟨trivial, trivial⟩
  | other => exact ⟨trivial, trivial⟩
  | arg n =>
    simp only [shadowOf]
    split_ifs <;> exact ⟨trivial, trivial⟩
  | phi c j =>
    simp only [shadowOf]
    cases h : s.ValShadowMap (.phi c j) with
    | none => exact ⟨trivial, trivial⟩
    | some S =>
      obtain ⟨hmade, rfl | rfl⟩ := hinv.values _ _ h
      · exact ⟨hV.2, trivial⟩
      · exact ⟨trivial, trivial⟩
  | inst c l =>
    simp only [shadowOf]
    cases h : s.ValShadowMap (.inst c l) with
    | none => exact ⟨trivial, trivial⟩
    | some S =>
      obtain ⟨hmade, hplaced⟩ := hinv.values _ _ h
      refine ⟨ready_before hb hplaced (before_trans hb hV.2 ?_), hmade⟩
      exact before_later (Nat.zero_le i)

/-! ## Unions -/

def EnvOnly (m m' : Machine Shadow Label) : Prop := m' = { m with env := m'.env }

/-- The pass goes from `s` to `r.1`, and the shadow `r.2` it returns gets the taint `val`. -/
structure Yields (R : Runtime α) (o : Options) (F : Fn) (b k : ℕ) (s : DFSanFunction)
    (r : DFSanFunction × Shadow) (val : Input Label → Machine Shadow Label → α) : Prop where
  emits : Emits R o F b k s r.1 (fun d m m' => R.den (m'.env r.2) = val d m ∧ EnvOnly m m')
  ready : Ready F b k (r.1.code b k).length r.2
  made : Made r.1 r.2

def Fresh (s : DFSanFunction) (b k : ℕ) : Prop := ∀ l, k < l → s.code b l = []

theorem Grown.fresh {ops : List ShadowOp} (h : Grown o b k s s' ops) (hs : Fresh s b k) :
    Fresh s' b k := by
  intro l hl
  rw [h.elsewhere b l (by omega)]
  exact hs l hl

theorem Emits.fresh (h : Emits R o F b k s s' P) (hs : Fresh s b k) : Fresh s' b k := by
  obtain ⟨ops, hgrown, -⟩ := h.run
  exact hgrown.fresh hs

variable {V1 V2 V : Shadow} {val : Input Label → Machine Shadow Label → α}

theorem yields_old (hinv : Inv o F s) (hready : Ready F b k (s.code b k).length V)
    (hmade : Made s V) (hval : ∀ d m, Summed R F s b k m → R.den (m.env V) = val d m) :
    Yields R o F b k s (s, V) val where
  emits := ⟨hinv, [], grown_refl s, fun d m hm => ⟨hm, hval d m hm, rfl⟩⟩
  ready := hready
  made := hmade

theorem Yields.after {r : DFSanFunction × Shadow}
    (h : Emits R o F b k s s₁ (fun _ m m' => m' = m)) (hr : Yields R o F b k s₁ r val) :
    Yields R o F b k s r val where
  emits := by
    refine h.trans hr.emits ?_
    rintro d m m₁ m' - - rfl hval
    exact hval
  ready := hr.ready
  made := hr.made

theorem Yields.bind {r r' : DFSanFunction × Shadow}
    {val' T : Input Label → Machine Shadow Label → α} (h : Yields R o F b k s r val)
    (h' : Yields R o F b k r.1 r' val')
    (himp : ∀ d m m₁, Keeps F b k (s.code b k).length m m₁ → R.den (m₁.env r.2) = val d m →
      EnvOnly m m₁ → val' d m₁ = T d m) : Yields R o F b k s r' T where
  emits := by
    refine h.emits.trans h'.emits ?_
    rintro d m m₁ m' hkeep - ⟨hval, henv⟩ ⟨hval', henv'⟩
    refine ⟨hval'.trans (himp d m m₁ hkeep hval henv), ?_⟩
    unfold EnvOnly at henv henv' ⊢
    rw [henv', henv]
  ready := h'.ready
  made := h'.made

theorem yields_op (hb : Reached F b) (hinv : Inv o F s) (op : ShadowOp)
    (l : Input Label → Machine Shadow Label → Label)
    (hop : ∀ d m, exec R b k (s.code b k).length d m op = m.define (s.next b k) (l d m))
    (hval : ∀ d m, R.den (l d m) = val d m) :
    Yields R o F b k s (s.emit b k [op], s.next b k) val := by
  have hlen : ((s.emit b k [op]).code b k).length = (s.code b k).length+1 :=
    (emit_grown (o := o) s [op]).length
  refine ⟨(emits_ops hb hinv [op]).imp ?_, Or.inl ⟨rfl, Or.inr ⟨rfl, hlen.ge⟩⟩, hlen.ge⟩
  rintro d m m' - rfl
  simp only [execAll]
  rw [hop]
  exact ⟨(congrArg R.den (if_pos rfl)).trans (hval d m), rfl⟩

theorem summed_elements (hm : Summed R F s b k m) (hV : Ready F b k (s.code b k).length V) :
    R.den (m.env V) = (s.elements V).sup fun e => R.den (m.env e) := by
  unfold DFSanFunction.elements
  cases h : s.ShadowElements V with
  | none => simp
  | some E => exact hm.unions V E h hV

theorem covering_cases (h : covering s V1 V2 = some V) : V = V1 ∨ V = V2 := by
  unfold covering at h
  split at h
  · split_ifs at h <;> cases h <;> simp
  · split_ifs at h
    cases h
    exact Or.inl rfl
  · split_ifs at h
    cases h
    exact Or.inr rfl
  · cases h

theorem covering_sum (hm : Summed R F s b k m) (h1 : Ready F b k (s.code b k).length V1)
    (h2 : Ready F b k (s.code b k).length V2) (h : covering s V1 V2 = some V) :
    R.den (m.env V) = R.den (m.env V1) ⊔ R.den (m.env V2) := by
  have hle : ∀ {E : Finset Shadow} {x : Shadow}, x ∈ E →
      R.den (m.env x) ≤ E.sup fun e => R.den (m.env e) :=
    fun hx => Finset.le_sup (f := fun e => R.den (m.env e)) hx
  unfold covering at h
  cases hE1 : s.ShadowElements V1 with
  | none =>
    cases hE2 : s.ShadowElements V2 with
    | none => simp [hE1, hE2] at h
    | some E2 =>
      simp only [hE1, hE2, Option.ite_none_right_eq_some, Option.some.injEq] at h
      obtain ⟨hmem, rfl⟩ := h
      refine (sup_eq_right.mpr ?_).symm
      rw [hm.unions V2 E2 hE2 h2]
      exact hle hmem
  | some E1 =>
    cases hE2 : s.ShadowElements V2 with
    | none =>
      simp only [hE1, hE2, Option.ite_none_right_eq_some, Option.some.injEq] at h
      obtain ⟨hmem, rfl⟩ := h
      refine (sup_eq_left.mpr ?_).symm
      rw [hm.unions V1 E1 hE1 h1]
      exact hle hmem
    | some E2 =>
      simp only [hE1, hE2] at h
      rw [hm.unions V1 E1 hE1 h1, hm.unions V2 E2 hE2 h2]
      split_ifs at h with hsub hsub'
      · cases h
        rw [hm.unions V1 E1 hE1 h1, sup_eq_left.mpr (Finset.sup_mono hsub)]
      · cases h
        rw [hm.unions V2 E2 hE2 h2, sup_eq_right.mpr (Finset.sup_mono hsub')]

theorem cache_key_cases (V1 V2 : Shadow) :
    cacheKey V1 V2 = (V1, V2) ∨ cacheKey V1 V2 = (V2, V1) := by
  unfold cacheKey
  split_ifs
  · exact Or.inr rfl
  · exact Or.inl rfl

theorem cached_key (hinv : Inv o F s) {c : ℕ}
    (h : s.CachedCombinedShadows (cacheKey V1 V2) = some (c, V)) :
    (∃ l j, V = .tmp c l j) ∧ Made s V ∧
      s.ShadowElements V = some (s.elements V1 ∪ s.elements V2) := by
  obtain hkey | hkey := cache_key_cases V1 V2
  · rw [hkey] at h
    obtain ⟨-, -, hplace, hmade, hE⟩ := hinv.cached _ _ _ _ h
    exact ⟨hplace, hmade, hE⟩
  · rw [hkey] at h
    obtain ⟨-, -, hplace, hmade, hE⟩ := hinv.cached _ _ _ _ h
    rw [Finset.union_comm] at hE
    exact ⟨hplace, hmade, hE⟩

/-- What has been emitted in a dominating block, or in this one so far, is ready. -/
theorem made_dominating {c l j : ℕ} (hfresh : Fresh s b k) (hdom : Dom F c b)
    (hmade : Made s (.tmp c l j)) : Ready F b k (s.code b k).length (.tmp c l j) := by
  by_cases hc : c = b
  · subst hc
    refine Or.inl ⟨rfl, ?_⟩
    replace hmade : j < (s.code c l).length := hmade
    by_cases hl : k < l
    · rw [hfresh l hl] at hmade
      exact absurd hmade (Nat.not_lt_zero j)
    · by_cases hk : l = k
      · subst hk
        exact Or.inr ⟨rfl, hmade⟩
      · exact Or.inl (by omega)
  · exact Or.inr ⟨hc, hdom⟩

theorem cached_sum (hm : Summed R F s b k m) (h1 : Ready F b k (s.code b k).length V1)
    (h2 : Ready F b k (s.code b k).length V2) (hV : Ready F b k (s.code b k).length V)
    (h : s.ShadowElements V = some (s.elements V1 ∪ s.elements V2)) :
    R.den (m.env V) = R.den (m.env V1) ⊔ R.den (m.env V2) := by
  rw [hm.unions V _ h hV, Finset.sup_union, ← summed_elements hm h1, ← summed_elements hm h2]

theorem union_op (R : Runtime α) (F : Fn) (V1 V2 : Shadow) (n : ℕ) :
    ∃ l, exec R b k n d m
        (if avoidNewBlocks F then .checkedUnion V1 V2 else .guardedUnion V1 V2) =
          m.define (.tmp b k n) l ∧ R.den l = R.den (m.env V1) ⊔ R.den (m.env V2) := by
  cases avoidNewBlocks F with
  | true => exact ⟨_, rfl, den_checked R _ _⟩
  | false =>
    refine ⟨_, rfl, ?_⟩
    simp only [ne_eq, ite_not]
    split_ifs with h
    · rw [h, sup_idem]
    · exact den_union R h

theorem elements_ready (hb : Reached F b) (hinv : Inv o F s)
    (hV : Ready F b k i V) : ∀ e ∈ s.elements V, Ready F b k i e := by
  intro e he
  unfold DFSanFunction.elements at he
  cases hE : s.ShadowElements V with
  | none =>
    rw [hE] at he
    obtain rfl := Finset.mem_singleton.mp he
    exact hV
  | some E =>
    rw [hE] at he
    obtain ⟨c, l, j, rfl, -, hready⟩ := hinv.elements V E hE
    exact ready_before hb (hready e he) (before_trans hb (before_later (Nat.le_succ j)) hV)

theorem new_union_grown (s : DFSanFunction) :
    Grown o b k s (newUnion F s b k V1 V2).1
      [if avoidNewBlocks F then .checkedUnion V1 V2 else .guardedUnion V1 V2] := by
  obtain ⟨hcode, helse, -, -, hallocas, hfixups, hphis⟩ :=
    emit_grown (o := o) (b := b) (k := k) s
      [if avoidNewBlocks F then .checkedUnion V1 V2 else .guardedUnion V1 V2]
  refine ⟨hcode, helse, fun u hu => ?_, fun V => ?_, hallocas, hfixups, hphis⟩
  · refine if_neg fun h => ?_
    exact absurd (hu _ h) (lt_irrefl _)
  · cases V <;> rfl

theorem new_union_inv (hb : Reached F b) (hinv : Inv o F s)
    (h1 : Ready F b k (s.code b k).length V1) (h2 : Ready F b k (s.code b k).length V2)
    (m1 : Made s V1) (m2 : Made s V2) : Inv o F (newUnion F s b k V1 V2).1 := by
  have hgrown : Grown o b k s (newUnion F s b k V1 V2).1 _ := new_union_grown s
  have hmade : Made (newUnion F s b k V1 V2).1 (s.next b k) := by
    have hlen := hgrown.length
    show (s.code b k).length < _
    rw [hlen, List.length_singleton]
    exact Nat.lt_succ_self _
  have hnew : (newUnion F s b k V1 V2).1.ShadowElements (s.next b k) =
      some (s.elements V1 ∪ s.elements V2) := if_pos rfl
  refine ⟨fun u E hu => ?_, fun x y c u hu => ?_, fun V S hV => ?_, hinv.allocas⟩
  · by_cases h : u = s.next b k
    · subst h
      rw [hnew] at hu
      cases hu
      refine ⟨b, k, _, rfl, hmade, fun e he => ?_⟩
      obtain he | he := Finset.mem_union.mp he
      · exact elements_ready hb hinv h1 e he
      · exact elements_ready hb hinv h2 e he
    · obtain ⟨c, l, j, rfl, hold, hE⟩ := hinv.elements u E ((if_neg h).symm.trans hu)
      exact ⟨c, l, j, rfl, hgrown.made hold, hE⟩
  · by_cases h : (x, y) = cacheKey V1 V2
    · replace hu : some (b, s.next b k) = some (c, u) := (if_pos h).symm.trans hu
      cases hu
      have hxy : (x = V1 ∧ y = V2) ∨ (x = V2 ∧ y = V1) := by
        obtain hkey | hkey := cache_key_cases V1 V2
        · exact Or.inl (Prod.ext_iff.mp (h.trans hkey))
        · exact Or.inr (Prod.ext_iff.mp (h.trans hkey))
      obtain ⟨rfl, rfl⟩ | ⟨rfl, rfl⟩ := hxy
      · refine ⟨hgrown.made m1, hgrown.made m2, ⟨k, _, rfl⟩, hmade, ?_⟩
        rw [hgrown.settled_elements m1, hgrown.settled_elements m2, hnew]
      · refine ⟨hgrown.made m2, hgrown.made m1, ⟨k, _, rfl⟩, hmade, ?_⟩
        rw [hgrown.settled_elements m1, hgrown.settled_elements m2, hnew, Finset.union_comm]
    · replace hu : s.CachedCombinedShadows (x, y) = some (c, u) := (if_neg h).symm.trans hu
      obtain ⟨hx, hy, hplace, hold, hE⟩ := hinv.cached x y c u hu
      refine ⟨hgrown.made hx, hgrown.made hy, hplace, hgrown.made hold, ?_⟩
      rw [hgrown.settled_elements hx, hgrown.settled_elements hy, hgrown.settled hold]
      exact hE
  · obtain ⟨hold, hplaced⟩ := hinv.values V S hV
    exact ⟨hgrown.made hold, hplaced⟩

theorem new_union_yields (hb : Reached F b) (hinv : Inv o F s)
    (h1 : Ready F b k (s.code b k).length V1) (h2 : Ready F b k (s.code b k).length V2)
    (m1 : Made s V1) (m2 : Made s V2) :
    Yields R o F b k s (newUnion F s b k V1 V2)
      (fun _ m => R.den (m.env V1) ⊔ R.den (m.env V2)) := by
  have hgrown : Grown o b k s (newUnion F s b k V1 V2).1 _ := new_union_grown s
  have hlen := hgrown.length
  rw [List.length_singleton] at hlen
  have hready : Ready F b k ((newUnion F s b k V1 V2).1.code b k).length (s.next b k) :=
    Or.inl ⟨rfl, Or.inr ⟨rfl, by omega⟩⟩
  refine ⟨⟨new_union_inv hb hinv h1 h2 m1 m2, _, hgrown, fun d m hm => ?_⟩, hready, ?_⟩
  swap
  · show (s.code b k).length < _
    omega
  obtain ⟨l, hexec, hl⟩ :=
    union_op (d := d) (m := m) (b := b) (k := k) R F V1 V2 (s.code b k).length
  simp only [execAll]
  rw [hexec]
  have hself : (m.define (s.next b k) l).env (s.next b k) = l := if_pos rfl
  have hkeep : Keeps F b k (s.code b k).length m (m.define (s.next b k) l) := by
    intro S hS
    refine if_neg ?_
    rintro rfl
    exact not_ready_here le_rfl hS
  refine ⟨⟨(hkeep .zero trivial).trans hm.zero, fun u E hu hur => ?_⟩, ?_, rfl⟩
  · by_cases h : u = s.next b k
    · subst h
      replace hu : some (s.elements V1 ∪ s.elements V2) = some E := (if_pos rfl).symm.trans hu
      cases hu
      refine (congrArg R.den hself).trans ?_
      rw [hl, Finset.sup_union, summed_elements hm h1, summed_elements hm h2]
      congr 1
      · refine Finset.sup_congr rfl fun e he => ?_
        rw [← hkeep e (elements_ready hb hinv h1 e he)]
        rfl
      · refine Finset.sup_congr rfl fun e he => ?_
        rw [← hkeep e (elements_ready hb hinv h2 e he)]
        rfl
    · exact old_sum hb hinv hm hkeep ((if_neg h).symm.trans hu) hur
  · exact (congrArg R.den hself).trans hl

theorem notes_silent (I : Inst) (n : ℕ) :
    execAll R b k d n (notes I V1 V2) m = m := by
  suffices hgen : ∀ (ops : List ShadowOp) (n : ℕ),
      (∀ op ∈ ops, ∀ n, exec R b k n d m op = m) → execAll R b k d n ops m = m by
    refine hgen _ n fun op hop n => ?_
    unfold notes at hop
    split at hop
    · simp only [List.mem_append, List.mem_ite_nil_right, List.mem_singleton] at hop
      obtain (hop | ⟨-, rfl⟩) | ⟨-, rfl⟩ := hop
      · split at hop
        · split_ifs at hop with _ _ _
          · obtain rfl := List.mem_singleton.mp hop
            rfl
          · obtain rfl := List.mem_singleton.mp hop
            rfl
          · cases hop
          · cases hop
        · cases hop
      · rfl
      · rfl
    · cases hop
  intro ops
  induction ops with
  | nil => exact fun n _ => rfl
  | cons op ops ih =>
    intro n h
    rw [execAll, h op List.mem_cons_self]
    exact ih (n+1) fun op' hop' => h op' (List.mem_cons_of_mem op hop')

/-- The shadow that `combineShadows` returns has the join of the two taints, wherever it
was found. -/
theorem combine_yields (hdom : ∀ c b, o.dominates c b = true → Dom F c b) (hb : Reached F b)
    (hinv : Inv o F s) (hfresh : Fresh s b k) (I : Inst)
    (h1 : Ready F b k (s.code b k).length V1) (h2 : Ready F b k (s.code b k).length V2)
    (m1 : Made s V1) (m2 : Made s V2) :
    Yields R o F b k s (combineShadows o F s b k I V1 V2)
      (fun _ m => R.den (m.env V1) ⊔ R.den (m.env V2)) := by
  have hnoted : Emits R o F b k s (s.emit b k (notes I V1 V2)) (fun _ m m' => m' = m) :=
    (emits_ops hb hinv _).imp fun d m m' _ h => h.trans (notes_silent I _)
  refine Yields.after hnoted ?_
  have hgrown : Grown o b k s (s.emit b k (notes I V1 V2)) _ := emit_grown s _
  have hle : (s.code b k).length ≤ ((s.emit b k (notes I V1 V2)).code b k).length := by
    rw [hgrown.length]
    omega
  unfold combineShadows
  replace hinv := hnoted.inv
  replace h1 := ready_later hb h1 hle
  replace h2 := ready_later hb h2 hle
  replace m1 := hgrown.made m1
  replace m2 := hgrown.made m2
  replace hfresh := hgrown.fresh hfresh
  generalize s.emit b k (notes I V1 V2) = s at hinv h1 h2 m1 m2 hfresh ⊢
  simp only
  split_ifs with hz1 hz2 heq
  · refine yields_old hinv h2 m2 fun d m hm => ?_
    rw [hz1, hm.zero, R.den_zero, bot_sup_eq]
  · refine yields_old hinv h1 m1 fun d m hm => ?_
    rw [hz2, hm.zero, R.den_zero, sup_bot_eq]
  · refine yields_old hinv h1 m1 fun d m hm => ?_
    rw [heq, sup_idem]
  · cases hcover : covering s V1 V2 with
    | some V =>
      have hV := covering_cases hcover
      refine yields_old hinv ?_ ?_ fun d m hm => covering_sum hm h1 h2 hcover
      · obtain rfl | rfl := hV
        · exact h1
        · exact h2
      · obtain rfl | rfl := hV
        · exact m1
        · exact m2
    | none =>
      have hnew : Yields R o F b k s (newUnion F s b k V1 V2)
          (fun _ m => R.den (m.env V1) ⊔ R.den (m.env V2)) :=
        new_union_yields hb hinv h1 h2 m1 m2
      cases hcache : s.CachedCombinedShadows (cacheKey V1 V2) with
      | none => exact hnew
      | some p =>
        obtain ⟨c, S⟩ := p
        simp only
        split_ifs with hc
        · obtain ⟨⟨l, j, rfl⟩, hmade, hE⟩ := cached_key hinv hcache
          have hready := made_dominating hfresh (hdom c b hc) hmade
          exact yields_old hinv hready hmade fun d m hm => cached_sum hm h1 h2 hready hE
        · exact hnew

end Emits

end Parmesan.ShadowCombine
