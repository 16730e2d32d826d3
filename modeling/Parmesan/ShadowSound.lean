import Parmesan.ShadowInsts
import Parmesan.ShadowTags

/-!
# The instrumented function computes the taints of the plain run

The pass visits the blocks in an order of discovery, so the blocks that dominate a block
have been visited before it and what it knows of them does not change any more. That
lets the relation of one instruction go through a block, over an edge, and along every
path through the function.
-/

set_option autoImplicit false

namespace Parmesan.ShadowSound
open Parmesan.Dominance Parmesan.ShadowModel Parmesan.ShadowRun Parmesan.ShadowCombine
open Parmesan.ShadowInsts
open Parmesan.ShadowTags (byteRuntime)

/-- What LLVM checks of a function: every operand is defined where it is used, and every
phi node has a value for the edge control comes from. -/
structure Verified (F : Fn) : Prop where
  entry : (F.block 0).phis = []
  operands : ∀ b, Reached F b → ∀ k I, (F.block b).insts[k]? = some I →
    ∀ V ∈ I.getOperands, Available F b k V
  incoming : ∀ p b, Reached F p → edge F p b → ∀ (j : ℕ) (inc : List (ℕ × Value)),
    (F.block b).phis[j]? = some inc → ∃ V,
      inc.lookup p = some V ∧ Available F p (F.block p).insts.length V

/-- What `depth_first` promises of its list. -/
structure Traversal (F : Fn) (BBList : List ℕ) : Prop where
  nodup : BBList.Nodup
  discovered : Discovered (edge F) 0 BBList
  complete : ∀ b, Reached F b → b ∈ BBList

/-! ## What the visit of a block leaves alone -/

structure Frozen (o : Options) (c : ℕ) (s s' : DFSanFunction) : Prop where
  code : ∀ l, s'.code c l = s.code c l
  elements : ∀ l i, s'.ShadowElements (.tmp c l i) = s.ShadowElements (.tmp c l i)
  insts : ∀ l, shadowOf o s' (.inst c l) = shadowOf o s (.inst c l)
  phis : ∀ j, shadowOf o s' (.phi c j) = shadowOf o s (.phi c j)
  allocas : ∀ l, s'.AllocaShadowMap (.inst c l) = s.AllocaShadowMap (.inst c l)

variable {o : Options} {F : Fn} {s s' s₁ : DFSanFunction} {b c : ℕ}

theorem frozen_refl (s : DFSanFunction) : Frozen o c s s :=
  ⟨fun _ => rfl, fun _ _ => rfl, fun _ => rfl, fun _ => rfl, fun _ => rfl⟩

theorem Frozen.trans (h : Frozen o c s s₁) (h' : Frozen o c s₁ s') : Frozen o c s s' :=
  ⟨fun l => (h'.code l).trans (h.code l), fun l i => (h'.elements l i).trans (h.elements l i),
    fun l => (h'.insts l).trans (h.insts l), fun j => (h'.phis j).trans (h.phis j),
    fun l => (h'.allocas l).trans (h.allocas l)⟩

structure PhisVisited (o : Options) (F : Fn) (b j : ℕ) (rest : List (List (ℕ × Value)))
    (s s' : DFSanFunction) : Prop where
  inv : Inv o F s'
  code : s'.code = s.code
  elements : s'.ShadowElements = s.ShadowElements
  allocas : s'.AllocaShadowMap = s.AllocaShadowMap
  set : ∀ i < rest.length, shadowOf o s' (.phi b (j+i)) = .phi b (j+i)
  values : ∀ V, (∀ i, j ≤ i → V ≠ .phi b i) → shadowOf o s' V = shadowOf o s V
  fixups : ∀ x, x ∈ s'.PHIFixups ↔
    x ∈ s.PHIFixups ∨ ∃ i inc, rest[i]? = some inc ∧ x = (b, j+i, inc)

theorem phis_visited (b : ℕ) (rest : List (List (ℕ × Value))) (j : ℕ) (s : DFSanFunction)
    (hinv : Inv o F s) : PhisVisited o F b j rest s (visitPhis b j rest s) := by
  induction rest generalizing j s with
  | nil => exact ⟨hinv, rfl, rfl, rfl, by simp, fun _ _ => rfl, by simp [visitPhis]⟩
  | cons inc rest ih =>
    have hset : Inv o F (visitPHINode s b j inc) :=
      ⟨hinv.elements, hinv.cached, set_shadow_values hinv trivial (Or.inl rfl), hinv.allocas⟩
    have hvalue : ∀ V, V ≠ .phi b j →
        shadowOf o (visitPHINode s b j inc) V = shadowOf o s V := by
      intro V hV
      exact set_shadow_of s hV
    have h := ih (j+1) (visitPHINode s b j inc) hset
    refine ⟨h.inv, h.code, h.elements, h.allocas, ?_, ?_, ?_⟩
    · intro i hi
      cases i with
      | zero =>
        refine (h.values _ ?_).trans ?_
        · intro i hi heq
          cases heq
          omega
        · simp [shadowOf, visitPHINode, DFSanFunction.setShadow]
      | succ i =>
        have hrest := h.set i (by simpa using hi)
        rwa [show j+1+i = j+(i+1) by omega] at hrest
    · intro V hV
      refine (h.values V fun i hi => hV i (by omega)).trans ?_
      exact hvalue V (hV j le_rfl)
    · intro x
      rw [visitPhis, h.fixups]
      simp only [visitPHINode, List.mem_append, List.mem_singleton, or_assoc]
      refine or_congr_right ?_
      constructor
      · rintro (rfl | ⟨i, inc', hi, rfl⟩)
        · exact ⟨0, inc, rfl, rfl⟩
        · exact ⟨i+1, inc', hi, by rw [show j+1+i = j+(i+1) by omega]⟩
      · rintro ⟨i, inc', hi, rfl⟩
        cases i with
        | zero =>
          cases hi
          exact Or.inl rfl
        | succ i => exact Or.inr ⟨i, inc', hi, by rw [show j+1+i = j+(i+1) by omega]⟩

theorem PhisVisited.frozen {j : ℕ} {rest : List (List (ℕ × Value))}
    (h : PhisVisited o F b j rest s s') (hne : c ≠ b) : Frozen o c s s' where
  code := fun l => by rw [h.code]
  elements := fun l i => by rw [h.elements]
  insts := fun l => h.values _ (by simp)
  phis := fun j => h.values _ (by simp [hne])
  allocas := fun l => by rw [h.allocas]

/-! ## Blocks -/

section Blocks
variable {α : Type} [SemilatticeSup α] [OrderBot α] {R : Runtime α}
variable (hdom : ∀ c b, o.dominates c b = true → Dom F c b) (hF : Verified F)
variable (hb : Reached F b)

theorem visited_frozen {I : Inst} {k : ℕ} (h : Visited R o F b k I s s') (hne : c ≠ b) :
    Frozen o c s s' where
  code := fun l => h.elsewhere c l fun hl => hne hl.1
  elements := fun l i => h.elements _ (by simp [hne])
  insts := fun l => h.values _ (by simp [hne])
  phis := fun j => h.values _ (by simp)
  allocas := fun l => h.allocas _ (by simp [hne])

theorem shadow_insts_congr (b : ℕ) (ds : ℕ → Input Label) (h : ∀ l, s'.code b l = s.code b l)
    (k : ℕ) (Is : List Inst) (m : Machine Shadow Label) :
    shadowInsts R s' b ds k Is m = shadowInsts R s b ds k Is m := by
  induction Is generalizing k m with
  | nil => rfl
  | cons I Is ih => rw [shadowInsts, shadowInsts, h, ih]

structure InstsVisited (R : Runtime α) (o : Options) (F : Fn) (b k : ℕ) (Is : List Inst)
    (s s' : DFSanFunction) : Prop where
  entered : Entered o F s' b (k+Is.length)
  frozen : ∀ c, c ≠ b → Frozen o c s s'
  code : ∀ l, l < k → s'.code b l = s.code b l
  phis : ∀ j, shadowOf o s' (.phi b j) = shadowOf o s (.phi b j)
  fixups : s'.PHIFixups = s.PHIFixups
  sim : ∀ ds m t, Sim R o F s b k m t →
    Sim R o F s' b (k+Is.length) (shadowInsts R s' b ds k Is m)
      (plainInsts o F b (fun l => (ds l).map R.den) k Is t)

include hdom hF hb in
theorem insts_visited (Is : List Inst) (k : ℕ) (s : DFSanFunction) (hs : Entered o F s b k)
    (hIs : (F.block b).insts.drop k = Is) :
    InstsVisited R o F b k Is s (visitInsts o F b k Is s) := by
  induction Is generalizing k s with
  | nil =>
    exact ⟨hs, fun c _ => frozen_refl s, fun _ _ => rfl, fun _ => rfl, rfl,
      fun _ _ _ h => h⟩
  | cons I Is ih =>
    have hI : (F.block b).insts[k]? = some I := by
      rw [← List.head?_drop, hIs]
      rfl
    have hrest : (F.block b).insts.drop (k+1) = Is := by
      rw [← List.tail_drop, hIs]
      rfl
    have hvisit : Visited R o F b k I s (visit o F s b k I) :=
      visit_visited hdom hb hs hI (hF.operands b hb k I hI)
    have h := ih (k+1) _ (visited_entered hs hvisit) hrest
    have hlen : k+1+Is.length = k+(I::Is).length := by
      rw [List.length_cons]
      omega
    refine ⟨hlen ▸ h.entered, fun c hne => (visited_frozen hvisit hne).trans (h.frozen c hne),
      ?_, ?_, h.fixups.trans hvisit.fixups, ?_⟩
    · intro l hl
      rw [visitInsts, h.code l (by omega), hvisit.elsewhere b l (by omega)]
    · intro j
      rw [visitInsts, h.phis, hvisit.values _ (by simp)]
    · intro ds m t hsim
      have hnext := h.sim ds _ _ (hvisit.sim (ds k) m t hsim)
      rw [hlen] at hnext
      rw [shadowInsts, plainInsts, visitInsts, h.code k (by omega)]
      exact hnext

structure Chain (o : Options) (F : Fn) (done : List ℕ) (s : DFSanFunction) : Prop where
  inv : Inv o F s
  untouched : ∀ c, c ∉ done → (∀ l, s.code c l = []) ∧
    (∀ l, shadowOf o s (.inst c l) = .zero) ∧ ∀ l, s.AllocaShadowMap (.inst c l) = false
  ended : ∀ c l, (F.block c).insts.length ≤ l → s.code c l = []
  known : ∀ c ∈ done, ∀ l < (F.block c).insts.length,
    s.AllocaShadowMap (.inst c l) = promoted F (.inst c l)
  phis : ∀ c ∈ done, ∀ j < (F.block c).phis.length, shadowOf o s (.phi c j) = .phi c j
  fixups : ∀ x, x ∈ s.PHIFixups ↔
    ∃ c ∈ done, ∃ j inc, (F.block c).phis[j]? = some inc ∧ x = (c, j, inc)

theorem chain_start : Chain o F [] {} := by
  refine ⟨⟨?_, ?_, ?_, ?_⟩, ?_, fun _ _ _ => rfl, by simp, by simp, by simp⟩
  · rintro u E ⟨⟩
  · rintro x y d u ⟨⟩
  · rintro V S ⟨⟩
  · rintro V ⟨⟩
  · exact fun c _ => ⟨fun _ => rfl, fun _ => rfl, fun _ => rfl⟩

theorem block_entered {done : List ℕ} (h : Chain o F done s) (hnew : b ∉ done)
    (hdone : ∀ c, Dom F c b → c = b ∨ c ∈ done) :
    Entered o F (visitPhis b 0 (F.block b).phis s) b 0 := by
  have hp := phis_visited b (F.block b).phis 0 s h.inv
  obtain ⟨hcode, hunset, hplain⟩ := h.untouched b hnew
  refine ⟨hp.inv, fun l _ => ?_, fun l _ => ?_, fun l _ => ?_, fun V hV => ?_⟩
  · rw [hp.code, hcode]
  · rw [hp.values _ (by simp), hunset]
  · rw [hp.allocas, hplain]
  · rw [hp.allocas]
    cases hpro : promoted F V with
    | false => exact Bool.eq_false_iff.mpr fun ht => by simp [h.inv.allocas V ht] at hpro
    | true =>
      cases V with
      | inst c l =>
        obtain ⟨hl, ⟨rfl, hlt⟩ | ⟨hne, hc⟩⟩ := hV
        · omega
        · obtain rfl | hmem := hdone c hc
          · exact absurd rfl hne
          · rw [h.known c hmem l hl, hpro]
      | _ => simp [promoted] at hpro

include hdom hF hb in
theorem block_visited {done : List ℕ} (h : Chain o F done s) (hnew : b ∉ done)
    (hdone : ∀ c, Dom F c b → c = b ∨ c ∈ done) :
    InstsVisited R o F b 0 (F.block b).insts (visitPhis b 0 (F.block b).phis s)
      (visitBlock o F s b) :=
  insts_visited hdom hF hb _ 0 _ (block_entered h hnew hdone) rfl

include hdom hF hb in
theorem block_frozen (R : Runtime α) {done : List ℕ} (h : Chain o F done s) (hnew : b ∉ done)
    (hdone : ∀ c, Dom F c b → c = b ∨ c ∈ done) (hne : c ≠ b) :
    Frozen o c s (visitBlock o F s b) := by
  have hv : InstsVisited R o F b 0 _ _ (visitBlock o F s b) :=
    block_visited hdom hF hb h hnew hdone
  exact ((phis_visited b (F.block b).phis 0 s h.inv).frozen hne).trans (hv.frozen c hne)

include hdom hF hb in
theorem chain_block (R : Runtime α) {done : List ℕ} (h : Chain o F done s) (hnew : b ∉ done)
    (hdone : ∀ c, Dom F c b → c = b ∨ c ∈ done) :
    Chain o F (done ++ [b]) (visitBlock o F s b) := by
  have hp := phis_visited b (F.block b).phis 0 s h.inv
  have hv : InstsVisited R o F b 0 _ _ (visitBlock o F s b) :=
    block_visited hdom hF hb h hnew hdone
  have hfrozen : ∀ c, c ≠ b → Frozen o c s (visitBlock o F s b) :=
    fun c hne => block_frozen hdom hF hb R h hnew hdone hne
  have hold : ∀ c ∈ done, c ≠ b := fun c hc hcb => hnew (hcb ▸ hc)
  have hlen : 0+(F.block b).insts.length = (F.block b).insts.length := Nat.zero_add _
  refine ⟨hv.entered.inv, fun c hc => ?_, fun c l hl => ?_, fun c hc l hl => ?_,
    fun c hc j hj => ?_, fun x => ?_⟩
  · rw [List.mem_append, not_or, List.mem_singleton] at hc
    have hz := hfrozen c hc.2
    obtain ⟨hcode, hunset, hplain⟩ := h.untouched c hc.1
    refine ⟨fun l => ?_, fun l => ?_, fun l => ?_⟩
    · rw [hz.code, hcode]
    · rw [hz.insts, hunset]
    · rw [hz.allocas, hplain]
  · by_cases hcb : c = b
    · subst hcb
      exact hv.entered.empty l (by omega)
    · rw [(hfrozen c hcb).code]
      exact h.ended c l hl
  · obtain hc | hc := List.mem_append.mp hc
    · rw [(hfrozen c (hold c hc)).allocas]
      exact h.known c hc l hl
    · obtain rfl := List.mem_singleton.mp hc
      exact hv.entered.known _ ⟨hl, Or.inl ⟨rfl, by omega⟩⟩
  · obtain hc | hc := List.mem_append.mp hc
    · rw [(hfrozen c (hold c hc)).phis]
      exact h.phis c hc j hj
    · obtain rfl := List.mem_singleton.mp hc
      have hset := hp.set j hj
      rw [Nat.zero_add] at hset
      rw [hv.phis, hset]
  · rw [hv.fixups, hp.fixups, h.fixups]
    constructor
    · rintro (⟨c, hc, hx⟩ | ⟨j, inc, hj, rfl⟩)
      · exact ⟨c, List.mem_append_left _ hc, hx⟩
      · exact ⟨b, by simp, j, inc, hj, by rw [Nat.zero_add]⟩
    · rintro ⟨c, hc, j, inc, hj, rfl⟩
      obtain hc | hc := List.mem_append.mp hc
      · exact Or.inl ⟨c, hc, j, inc, hj, rfl⟩
      · obtain rfl := List.mem_singleton.mp hc
        exact Or.inr ⟨j, inc, hj, by rw [Nat.zero_add]⟩

end Blocks

/-! ## The order of the blocks -/

section Order
variable {α : Type} [SemilatticeSup α] [OrderBot α] (R : Runtime α)
variable (hdom : ∀ c b, o.dominates c b = true → Dom F c b) (hF : Verified F)
variable {BBList : List ℕ} (horder : Traversal F BBList)

structure Next (F : Fn) (done : List ℕ) (b : ℕ) : Prop where
  reached : Reached F b
  new : b ∉ done
  dominators : ∀ c, Dom F c b → c = b ∨ c ∈ done

include horder in
theorem next_of_order {done post : List ℕ} (h : BBList = done ++ b::post) : Next F done b where
  reached := by
    obtain ⟨ps, ht, -⟩ := discovered_trace horder.discovered done b post h
    exact ⟨ps, ht⟩
  new := by
    have hn := horder.nodup
    rw [h, List.nodup_append] at hn
    exact fun hmem => hn.2.2 b hmem b List.mem_cons_self rfl
  dominators := fun c hc => dominator_listed horder.discovered h hc

include R hdom hF horder in
theorem chain_fold (mid rest : List ℕ) {done : List ℕ} (h : Chain o F done s)
    (hlist : BBList = done ++ (mid ++ rest)) :
    Chain o F (done ++ mid) (mid.foldl (visitBlock o F) s) ∧
      ∀ c ∈ done, Frozen o c s (mid.foldl (visitBlock o F) s) := by
  induction mid generalizing done s with
  | nil =>
    rw [List.append_nil]
    exact ⟨h, fun c _ => frozen_refl s⟩
  | cons b mid ih =>
    have hn := next_of_order horder hlist
    have hb := hn.reached
    obtain ⟨hchain, hfrozen⟩ := ih (chain_block hdom hF hb R h hn.new hn.dominators)
      (by simp [hlist])
    rw [List.append_assoc, List.singleton_append] at hchain
    refine ⟨hchain, fun c hc => ?_⟩
    have hne : c ≠ b := fun hcb => hn.new (hcb ▸ hc)
    exact (block_frozen hdom hF hb R h hn.new hn.dominators hne).trans
      (hfrozen c (List.mem_append_left _ hc))

end Order

/-! ## The phi nodes -/

theorem zip_lookup (inc : List (ℕ × Value)) (f : Value → Shadow) (p : ℕ) :
    ((inc.map Prod.fst).zip ((inc.map Prod.snd).map f)).lookup p = (inc.lookup p).map f := by
  induction inc with
  | nil => rfl
  | cons x inc ih =>
    obtain ⟨q, V⟩ := x
    simp only [List.map_cons, List.zip_cons_cons, List.lookup_cons]
    cases p == q with
    | true => rfl
    | false => exact ih

def Fixed (o : Options) (s : DFSanFunction) (b j : ℕ) (inc : List (ℕ × Value)) : Prop :=
  s.phis b j = (inc.map Prod.fst).zip ((inc.map Prod.snd).map (shadowOf o s))

structure SameBut (o : Options) (F : Fn) (s s' : DFSanFunction) : Prop where
  inv : Inv o F s'
  code : s'.code = s.code
  elements : s'.ShadowElements = s.ShadowElements
  values : ∀ V, shadowOf o s' V = shadowOf o s V
  allocas : s'.AllocaShadowMap = s.AllocaShadowMap

theorem shadow_of_phis (s : DFSanFunction) (f : ℕ → ℕ → List (ℕ × Shadow)) :
    shadowOf o { s with phis := f } = shadowOf o s := by
  funext V
  cases V <;> rfl

theorem fixup_same (hinv : Inv o F s) (p : ℕ × ℕ × List (ℕ × Value)) :
    SameBut o F s (fixup o s p) ∧ Fixed o (fixup o s p) p.1 p.2.1 p.2.2 ∧
      ∀ b j, ¬ (b = p.1 ∧ j = p.2.1) → (fixup o s p).phis b j = s.phis b j := by
  obtain ⟨hasked, hvalues⟩ := get_shadows_asked (p.2.2.map Prod.snd) hinv
  have hinv' := hasked.inv hinv
  have hshadow : shadowOf o (fixup o s p) = shadowOf o s :=
    (shadow_of_phis _ _).trans (funext hasked.same)
  refine ⟨⟨⟨hinv'.elements, hinv'.cached, hinv'.values, hinv'.allocas⟩, hasked.code,
    hasked.elements, congrFun hshadow, hasked.allocas⟩, ?_, fun b j hne => ?_⟩
  · unfold Fixed
    rw [hshadow, ← hvalues]
    exact if_pos ⟨rfl, rfl⟩
  · rw [← hasked.phis]
    exact if_neg hne

theorem fixups_same (ps : List (ℕ × ℕ × List (ℕ × Value))) (hinv : Inv o F s) :
    SameBut o F s (ps.foldl (fixup o) s) ∧ ∀ b j inc,
      (∀ x ∈ ps, x.1 = b → x.2.1 = j → x.2.2 = inc) →
      (b, j, inc) ∈ ps ∨ Fixed o s b j inc → Fixed o (ps.foldl (fixup o) s) b j inc := by
  induction ps generalizing s with
  | nil =>
    refine ⟨⟨hinv, rfl, rfl, fun _ => rfl, rfl⟩, fun b j inc _ h => ?_⟩
    obtain h | h := h
    · cases h
    · exact h
  | cons p ps ih =>
    obtain ⟨hsame, hfixed, hother⟩ := fixup_same hinv p
    obtain ⟨hrest, hall⟩ := ih hsame.inv
    refine ⟨⟨hrest.inv, hrest.code.trans hsame.code, hrest.elements.trans hsame.elements,
      fun V => (hrest.values V).trans (hsame.values V), hrest.allocas.trans hsame.allocas⟩, ?_⟩
    intro b j inc huniq h
    refine hall b j inc (fun x hx => huniq x (List.mem_cons_of_mem p hx)) ?_
    by_cases hp : b = p.1 ∧ j = p.2.1
    · obtain ⟨rfl, rfl⟩ := hp
      rw [← huniq p List.mem_cons_self rfl rfl]
      exact Or.inr hfixed
    · obtain h | h := h
      · obtain h | h := List.mem_cons.mp h
        · exact absurd ⟨congrArg Prod.fst h, congrArg (fun x => x.2.1) h⟩ hp
        · exact Or.inl h
      · right
        unfold Fixed at h ⊢
        rw [hother b j hp, funext hsame.values]
        exact h

theorem SameBut.frozen (h : SameBut o F s s') : Frozen o c s s' :=
  ⟨fun _ => by rw [h.code], fun _ _ => by rw [h.elements], fun _ => h.values _,
    fun _ => h.values _, fun _ => by rw [h.allocas]⟩

/-! ## Runs -/

section Runs
variable {α : Type} [SemilatticeSup α] [OrderBot α] (R : Runtime α)
variable (hdom : ∀ c b, o.dominates c b = true → Dom F c b) (hF : Verified F)
variable {BBList : List ℕ} (horder : Traversal F BBList)

/-- What the finished pass says of one block, with the state `u` before it was visited. -/
structure Settled (R : Runtime α) (o : Options) (F : Fn) (b : ℕ) (u s : DFSanFunction) :
    Prop where
  before : ∀ c, c ≠ b → Dom F c b → Frozen o c u s
  after : ∀ c, Dom F c b → Frozen o c (visitBlock o F u b) s
  visited : InstsVisited R o F b 0 (F.block b).insts (visitPhis b 0 (F.block b).phis u)
    (visitBlock o F u b)
  phis : PhisVisited o F b 0 (F.block b).phis u (visitPhis b 0 (F.block b).phis u)
  empty : ∀ l, u.code b l = []
  inv : Inv o F s
  ended : ∀ c l, (F.block c).insts.length ≤ l → s.code c l = []
  fixed : ∀ j inc, (F.block b).phis[j]? = some inc → Fixed o s b j inc
  shadows : ∀ c, Dom F c b → ∀ j < (F.block c).phis.length, shadowOf o s (.phi c j) = .phi c j

include hdom hF horder in
theorem settled (hb : Reached F b) : ∃ u, Settled R o F b u (instrument o F BBList) := by
  obtain ⟨pre, post, hlist⟩ := List.append_of_mem (horder.complete b hb)
  have hn := next_of_order horder hlist
  have hb' := hn.reached
  -- the states before the block, after the last block and after the fixups
  obtain ⟨hpre, -⟩ := chain_fold (s := {}) R hdom hF horder pre (b::post) chain_start hlist
  rw [List.nil_append] at hpre
  have hdone := chain_block hdom hF hb' R hpre hn.new hn.dominators
  obtain ⟨hall, hkept⟩ := chain_fold R hdom hF horder post [] hdone (by simp [hlist])
  have hstate : BBList.foldl (visitBlock o F) {} =
      post.foldl (visitBlock o F) (visitBlock o F (pre.foldl (visitBlock o F) {}) b) := by
    rw [hlist, List.foldl_append, List.foldl_cons]
  have hinstrument : instrument o F BBList = ((BBList.foldl (visitBlock o F) {}).PHIFixups).foldl
      (fixup o) (BBList.foldl (visitBlock o F) {}) := rfl
  rw [← hstate] at hall hkept
  obtain ⟨hsame, hfixed⟩ := fixups_same (BBList.foldl (visitBlock o F) {}).PHIFixups hall.inv
  rw [← hinstrument] at hsame hfixed
  have hlisted : ∀ c, Dom F c b → c ∈ pre ++ [b] := by
    intro c hc
    obtain rfl | hmem := hn.dominators c hc
    · simp
    · exact List.mem_append_left _ hmem
  have hafter : ∀ c, Dom F c b →
      Frozen o c (visitBlock o F (pre.foldl (visitBlock o F) {}) b) (instrument o F BBList) :=
    fun c hc => (hkept c (hlisted c hc)).trans hsame.frozen
  refine ⟨pre.foldl (visitBlock o F) {}, ⟨fun c hne hc => ?_, hafter,
    block_visited hdom hF hb' hpre hn.new hn.dominators, phis_visited b _ 0 _ hpre.inv,
    (hpre.untouched b hn.new).1, hsame.inv, fun c l hl => ?_, fun j inc hj => ?_,
    fun c hc j hj => ?_⟩⟩
  · exact (block_frozen hdom hF hb' R hpre hn.new hn.dominators hne).trans (hafter c hc)
  · rw [hsame.code]
    exact hall.ended c l hl
  · refine hfixed b j inc (fun x hx h1 h2 => ?_) (Or.inl ?_)
    · obtain ⟨c, -, j', inc', hj', rfl⟩ := (hall.fixups x).mp hx
      obtain rfl : c = b := h1
      obtain rfl : j' = j := h2
      exact Option.some.inj (hj'.symm.trans hj)
    · exact (hall.fixups _).mpr ⟨b, by simp, j, inc, hj, rfl⟩
  · rw [hsame.values]
    exact hall.phis c (List.mem_append_left _ (hlisted c hc)) j hj

variable {R} {u : DFSanFunction} {m : Machine Shadow Label} {t : Machine Value α} {p : ℕ}

theorem enter_env {S : Shadow} (h : ∀ j, S ≠ .phi b j) :
    (enterShadows s p b m).env S = m.env S := by
  cases S with
  | phi c j =>
    refine if_neg ?_
    rintro rfl
    exact h j rfl
  | _ => rfl

theorem available_edge {V : Value} (hedge : edge F p b) (hV : Available F b 0 V)
    (hphi : ∀ j, V ≠ .phi b j) : Available F p (F.block p).insts.length V := by
  cases V with
  | constantInt => trivial
  | other => trivial
  | arg n => trivial
  | phi c j =>
    have hne : c ≠ b := by
      rintro rfl
      exact hphi j rfl
    exact ⟨hV.1, dominates_pred hV.2 hne hedge⟩
  | inst c l =>
    obtain ⟨hl, ⟨-, hlt⟩ | ⟨hne, hc⟩⟩ := hV
    · omega
    · refine ⟨hl, ?_⟩
      by_cases hp : c = p
      · subst hp
        exact Or.inl ⟨rfl, by omega⟩
      · exact Or.inr ⟨hp, dominates_pred hc hne hedge⟩

theorem not_own_phi {l i : ℕ} {S : Shadow} (hb : Reached F b) (hne : c ≠ b) (hc : Dom F c b)
    (hS : Ready F c l i S) : ∀ j, S ≠ .phi b j := by
  rintro j rfl
  obtain ⟨ps, ht⟩ := hb
  exact hne (dominates_antisymm ht hc hS)

/-- What the finished pass knows of a strict dominator of `b`, it knew when it came to `b`. -/
theorem Settled.dominator (hset : Settled R o F b u s) (hne : c ≠ b) (hc : Dom F c b) :
    Frozen o c (visitPhis b 0 (F.block b).phis u) s := by
  have hz := hset.before c hne hc
  have hv := hset.phis.frozen hne
  refine ⟨fun l => ?_, fun l i => ?_, fun l => ?_, fun j => ?_, fun l => ?_⟩
  · rw [hz.code, hv.code]
  · rw [hz.elements, hv.elements]
  · rw [hz.insts, hv.insts]
  · rw [hz.phis, hv.phis]
  · rw [hz.allocas, hv.allocas]

theorem ready_end {l i : ℕ} (hset : Settled R o F b u s) (hc : Dom F c p)
    (hmade : Made s (.tmp c l i)) :
    Ready F p (F.block p).insts.length (s.code p (F.block p).insts.length).length
      (.tmp c l i) := by
  by_cases hp : c = p
  · subst hp
    refine Or.inl ⟨rfl, Or.inl ?_⟩
    by_contra hge
    replace hmade : i < (s.code c l).length := hmade
    rw [hset.ended c l (by omega)] at hmade
    exact absurd hmade (Nat.not_lt_zero i)
  · exact Or.inr ⟨hp, hc⟩

theorem enter_summed (hb : Reached F b) (hedge : edge F p b) (hset : Settled R o F b u s)
    (hm : Summed R F s p (F.block p).insts.length m) :
    Summed R F (visitPhis b 0 (F.block b).phis u) b 0 (enterShadows s p b m) where
  zero := hm.zero
  unions := by
    intro x E hx hready
    obtain ⟨c, l, i, rfl, -, hE⟩ := hset.phis.inv.elements x E hx
    rw [hset.phis.code, hset.empty, List.length_nil] at hready
    obtain ⟨rfl, hlt⟩ | ⟨hne, hc⟩ := hready
    · omega
    · rw [← (hset.dominator hne hc).elements] at hx
      obtain ⟨c', l', i', heq, hmade, -⟩ := hset.inv.elements _ E hx
      cases heq
      rw [enter_env (by simp),
        hm.unions _ E hx (ready_end hset (dominates_pred hc hne hedge) hmade)]
      refine Finset.sup_congr rfl fun e he => ?_
      rw [enter_env (not_own_phi hb hne hc (hE e he))]

/-- The shadow phi nodes of `b` take what the phi nodes of `b` take. -/
theorem enter_phi {j : ℕ} (hF : Verified F) (hp : Reached F p) (hedge : edge F p b)
    (hset : Settled R o F b u s) (h : Sim R o F s p (F.block p).insts.length m t)
    (hj : j < (F.block b).phis.length) :
    R.den ((enterShadows s p b m).env
      (shadowOf o (visitPhis b 0 (F.block b).phis u) (.phi b j))) =
        taint (enterPlain F p b t) (.phi b j) := by
  obtain ⟨inc, hinc⟩ : ∃ inc, (F.block b).phis[j]? = some inc :=
    ⟨_, List.getElem?_eq_getElem hj⟩
  obtain ⟨V, hlookup, hV⟩ := hF.incoming p b hp hedge j _ hinc
  have hown : shadowOf o (visitPhis b 0 (F.block b).phis u) (.phi b j) = .phi b j := by
    have hset' := hset.phis.set j hj
    rwa [Nat.zero_add] at hset'
  have hleft : (enterShadows s p b m).env (.phi b j) = m.env (shadowOf o s V) := by
    simp only [enterShadows, if_true]
    rw [hset.fixed j _ hinc, zip_lookup, hlookup]
    rfl
  have hright : taint (enterPlain F p b t) (.phi b j) = taint t V := by
    simp only [taint, enterPlain, if_true]
    rw [List.getD_eq_getElem?_getD, hinc, Option.getD_some, hlookup]
  rw [hown, hleft, hright]
  exact h.values V hV

theorem enter_value {V : Value} (hb : Reached F b) (hset : Settled R o F b u s)
    (hV : Available F b 0 V) (hphi : ∀ j, V ≠ .phi b j) :
    (enterShadows s p b m).env (shadowOf o (visitPhis b 0 (F.block b).phis u) V) =
      m.env (shadowOf o s V) := by
  cases V with
  | constantInt => rfl
  | other => rfl
  | arg n =>
    refine enter_env fun j => ?_
    simp only [shadowOf]
    split_ifs <;> simp
  | phi c j =>
    have hne : c ≠ b := by
      rintro rfl
      exact hphi j rfl
    rw [← (hset.dominator hne hV.2).phis, hset.shadows c hV.2 j hV.1]
    exact enter_env (by simp [hne])
  | inst c l =>
    obtain ⟨-, ⟨-, hlt⟩ | ⟨hne, hc⟩⟩ := hV
    · omega
    · rw [← (hset.dominator hne hc).insts]
      refine enter_env ?_
      simp only [shadowOf]
      cases hS : s.ValShadowMap (.inst c l) with
      | none => simp
      | some S => exact not_own_phi hb hne hc (hset.inv.values _ S hS).2

theorem enter_sim (hF : Verified F) (hp : Reached F p) (hb : Reached F b) (hedge : edge F p b)
    (hset : Settled R o F b u s) (h : Sim R o F s p (F.block p).insts.length m t) :
    Sim R o F (visitPhis b 0 (F.block b).phis u) b 0 (enterShadows s p b m)
      (enterPlain F p b t) where
  summed := enter_summed hb hedge hset h.summed
  values := by
    intro V hV
    by_cases hphi : ∃ j, V = .phi b j
    · obtain ⟨j, rfl⟩ := hphi
      exact enter_phi hF hp hedge hset h hV.1
    · push Not at hphi
      have hsame : taint (enterPlain F p b t) V = taint t V := by
        cases V with
        | phi c j =>
          refine if_neg ?_
          rintro rfl
          exact hphi j rfl
        | _ => rfl
      rw [hsame, ← h.values V (available_edge hedge hV hphi), enter_value hb hset hV hphi]
  agree := ⟨h.agree.mem, h.agree.cells, h.agree.passed, h.agree.retval, h.agree.labelReturn⟩

theorem leave_sim (hset : Settled R o F b u s)
    (h : Sim R o F (visitBlock o F u b) b (F.block b).insts.length m t) :
    Sim R o F s b (F.block b).insts.length m t := by
  refine ⟨⟨h.summed.zero, fun x E hx hready => ?_⟩, fun V hV => ?_, h.agree⟩
  · obtain ⟨c, l, i, rfl, -, -⟩ := hset.inv.elements x E hx
    have hz := hset.after c (before_dom hready)
    have hz' := hset.after b (dom_refl b)
    refine h.summed.unions _ E ?_ ?_
    · rw [← hz.elements, hx]
    · rw [← hz'.code]
      exact hready
  · rw [← h.values V hV]
    congr 2
    cases V with
    | constantInt => rfl
    | other => rfl
    | arg n => rfl
    | phi c j => exact (hset.after c hV.2).phis j
    | inst c l => exact (hset.after c (before_dom hV.2)).insts l

theorem block_sim (hF : Verified F) (hp : Reached F p) (hb : Reached F b) (hedge : edge F p b)
    (hset : Settled R o F b u s) (ds : ℕ → Input Label)
    (h : Sim R o F s p (F.block p).insts.length m t) :
    Sim R o F s b (F.block b).insts.length
      (shadowInsts R s b ds 0 (F.block b).insts (enterShadows s p b m))
      (plainInsts o F b (fun l => (ds l).map R.den) 0 (F.block b).insts (enterPlain F p b t)) := by
  have hbody := hset.visited.sim ds _ _ (enter_sim hF hp hb hedge hset h)
  rw [Nat.zero_add] at hbody
  refine leave_sim hset ?_
  rw [shadow_insts_congr b ds (hset.after b (dom_refl b)).code]
  exact hbody

/-- The machine when the function is entered: the labels `args` in the argument slots, and
whatever `m` holds elsewhere. -/
def startShadows (args : ℕ → Label) (m : Machine Shadow Label) : Machine Shadow Label :=
  { m with
    env := fun S =>
      match S with
      | .zero => 0
      | .arg n => args n
      | S => m.env S
    passed := [] }

/-- A function with the native ABI gets no labels for its arguments. -/
def startPlain (R : Runtime α) (o : Options) (args : ℕ → Label) (m : Machine Shadow Label) :
    Machine Value α where
  env := fun V =>
    match V with
    | .arg n => if o.IsNativeABI then ⊥ else R.den (args n)
    | _ => ⊥
  mem := fun x => R.den (m.mem x)
  cells := fun V => R.den (m.cells V)
  passed := []
  retval := R.den m.retval
  labelReturn := R.den m.labelReturn

theorem start_sim (hF : Verified F) (hset : Settled R o F 0 u s) (args : ℕ → Label)
    (m : Machine Shadow Label) :
    Sim R o F (visitPhis 0 0 (F.block 0).phis u) 0 0 (startShadows args m)
      (startPlain R o args m) := by
  have hentry : ∀ c, Dom F c 0 → c = 0 := by
    intro c hc
    obtain rfl | h := hc [] Trace.start
    · rfl
    · cases h
  refine ⟨⟨rfl, fun x E hx hready => ?_⟩, fun V hV => ?_, ?_⟩
  · obtain ⟨c, l, i, rfl, -, -⟩ := hset.phis.inv.elements x E hx
    rw [hset.phis.code, hset.empty, List.length_nil] at hready
    obtain ⟨-, hlt⟩ | ⟨hne, hc⟩ := hready
    · omega
    · exact absurd (hentry c hc) hne
  · cases V with
    | constantInt => exact R.den_zero
    | other => exact R.den_zero
    | arg n =>
      simp only [shadowOf, taint, startPlain]
      split_ifs
      · exact R.den_zero
      · rfl
    | phi c j =>
      obtain ⟨hj, hc⟩ := hV
      rw [hentry c hc, hF.entry] at hj
      exact absurd hj (Nat.not_lt_zero j)
    | inst c l =>
      obtain ⟨-, ⟨-, hlt⟩ | ⟨hne, hc⟩⟩ := hV
      · omega
      · exact absurd (hentry c hc) hne
  · exact ⟨fun _ => rfl, fun _ => rfl, rfl, rfl, rfl⟩

def lastBlock : ℕ → List Visit → ℕ
  | p, [] => p
  | _, v::vs => lastBlock v.block vs

variable (R) in
include hdom hF horder in
theorem run_sim (vs : List Visit) (hp : Reached F p) (hwalk : Walk F p vs)
    (h : Sim R o F (instrument o F BBList) p (F.block p).insts.length m t) :
    Sim R o F (instrument o F BBList) (lastBlock p vs)
      (F.block (lastBlock p vs)).insts.length (shadowRun R F (instrument o F BBList) p vs m)
      (plainRun o F R.den p vs t) := by
  induction vs generalizing p m t with
  | nil => exact h
  | cons v vs ih =>
    obtain ⟨hedge, hwalk⟩ := hwalk
    have hb : Reached F v.block := by
      obtain ⟨ps, ht⟩ := hp
      exact ⟨p::ps, ht.step hedge⟩
    obtain ⟨u, hset⟩ := settled R hdom hF horder hb
    exact ih hb hwalk (block_sim hF hp hb hedge hset v.inputs h)

/-- Along every path through a function, whatever its loads, stores and callees meet, the
code that the pass inserts keeps the memory, the variables and everything it hands to
callees or returns at the labels of the plain taints, and at the end of the path the
shadow of every value that is defined there has the taint of the value. -/
theorem instrumented_run_exact (R : Runtime α) (o : Options) (F : Fn) (BBList : List ℕ)
    (hF : Verified F) (hdom : ∀ c b, o.dominates c b = true → Dom F c b)
    (horder : Traversal F BBList) (args : ℕ → Label) (m : Machine Shadow Label)
    (d : ℕ → Input Label) (vs : List Visit) (hwalk : Walk F 0 vs) :
    let s := instrument o F BBList
    let m' := shadowRun R F s 0 vs
      (shadowInsts R s 0 d 0 (F.block 0).insts (startShadows args m))
    let t' := plainRun o F R.den 0 vs
      (plainInsts o F 0 (fun l => (d l).map R.den) 0 (F.block 0).insts (startPlain R o args m))
    Agree R m' t' ∧ ∀ V, Available F (lastBlock 0 vs) (F.block (lastBlock 0 vs)).insts.length V →
      R.den (m'.env (shadowOf o s V)) = taint t' V := by
  intro s m' t'
  have h0 : Reached F 0 := ⟨[], Trace.start⟩
  obtain ⟨u, hset⟩ := settled R hdom hF horder h0
  have hbody := hset.visited.sim d _ _ (start_sim hF hset args m)
  rw [Nat.zero_add] at hbody
  have hfirst := leave_sim hset hbody
  rw [← shadow_insts_congr 0 d (hset.after 0 (dom_refl 0)).code] at hfirst
  have hend := run_sim R hdom hF horder vs h0 hwalk hfirst
  exact ⟨hend.agree, hend.values⟩

end Runs

/-! ## A loop -/

/-- Two loads and their union, which a loop asks for again before it adds to a phi node. -/
def loopFn : Fn where
  blocks :=
    [{ insts := [.load 1 false .other, .load 4 false .other,
        .operands .xor {} [.inst 0 0, .inst 0 1], .other []], succs := [1] },
      { phis := [[(0, .inst 0 2), (1, .inst 1 1)]],
        insts := [.operands .or {} [.inst 0 1, .inst 0 0],
          .operands .xor {} [.inst 1 0, .phi 1 0], .store 4 (.inst 1 1) .other, .other []],
        succs := [1] }]

def loopOptions : Options where
  dominates := fun c b => c = 0 || c = b

/-- The union in the loop is the one before it, with the operands exchanged. -/
example : (instrument loopOptions loopFn [0, 1]).code 1 0 = [] ∧
    shadowOf loopOptions (instrument loopOptions loopFn [0, 1]) (.inst 1 0) = .tmp 0 2 0 := by
  decide +kernel

theorem loop_edge {p b : ℕ} (h : edge loopFn p b) : b = 1 ∧ (p = 0 ∨ p = 1) := by
  obtain _ | _ | p := p
  · exact ⟨List.mem_singleton.mp h, Or.inl rfl⟩
  · exact ⟨List.mem_singleton.mp h, Or.inr rfl⟩
  · cases h

theorem loop_reached {b : ℕ} (h : Reached loopFn b) : b = 0 ∨ b = 1 := by
  obtain ⟨ps, ht⟩ := h
  cases ht with
  | start => exact Or.inl rfl
  | step _ he => exact Or.inr (loop_edge he).1

theorem loop_available {k l : ℕ} (hl : l < 4) : Available loopFn 1 k (.inst 0 l) :=
  ⟨hl, Or.inr ⟨by decide, dominates_entry 1⟩⟩

theorem loop_verified : Verified loopFn where
  entry := rfl
  operands := by
    intro b hb k I hI V hV
    obtain rfl | rfl := loop_reached hb
    · obtain _ | _ | _ | _ | k := k
      · cases hI
        obtain rfl := List.mem_singleton.mp hV
        trivial
      · cases hI
        obtain rfl := List.mem_singleton.mp hV
        trivial
      · cases hI
        obtain rfl | rfl : V = .inst 0 0 ∨ V = .inst 0 1 := by simpa [Inst.getOperands] using hV
        · exact ⟨by decide, Or.inl ⟨rfl, by omega⟩⟩
        · exact ⟨by decide, Or.inl ⟨rfl, by omega⟩⟩
      · cases hI
        cases hV
      · cases hI
    · obtain _ | _ | _ | _ | k := k
      · cases hI
        obtain rfl | rfl : V = .inst 0 1 ∨ V = .inst 0 0 := by simpa [Inst.getOperands] using hV
        · exact loop_available (by decide)
        · exact loop_available (by decide)
      · cases hI
        obtain rfl | rfl : V = .inst 1 0 ∨ V = .phi 1 0 := by simpa [Inst.getOperands] using hV
        · exact ⟨by decide, Or.inl ⟨rfl, by omega⟩⟩
        · exact ⟨by decide, dom_refl 1⟩
      · cases hI
        obtain rfl | rfl : V = .inst 1 1 ∨ V = .other := by simpa [Inst.getOperands] using hV
        · exact ⟨by decide, Or.inl ⟨rfl, by omega⟩⟩
        · trivial
      · cases hI
        cases hV
      · cases hI
  incoming := by
    intro p b _ he j inc hj
    obtain ⟨rfl, hp⟩ := loop_edge he
    obtain _ | j := j
    · cases hj
      obtain rfl | rfl := hp
      · exact ⟨.inst 0 2, rfl, by decide, Or.inl ⟨rfl, Or.inl (by decide)⟩⟩
      · exact ⟨.inst 1 1, rfl, by decide, Or.inl ⟨rfl, Or.inl (by decide)⟩⟩
    · cases hj

theorem loop_traversal : Traversal loopFn [0, 1] where
  nodup := by decide
  discovered := by
    intro pre b post h
    obtain _ | ⟨x, pre⟩ := pre
    · cases h
      exact Or.inl rfl
    · obtain _ | ⟨y, pre⟩ := pre
      · cases h
        exact Or.inr ⟨0, by simp, List.mem_singleton.mpr rfl⟩
      · simp at h
  complete := by
    intro b hb
    obtain rfl | rfl := loop_reached hb <;> simp

/-- Two rounds of the loop, with the label of offset 0 at byte 0 and of offset 1 elsewhere,
on a tag set that holds the labels of both. -/
theorem instrumented_run_exact_loop :
    let m : Machine Shadow Label :=
      { env := fun _ => 7, mem := fun x => if x = 0 then 1 else 3, cells := fun _ => 0,
        passed := [], retval := 0, labelReturn := 0 }
    let d : ℕ → Input Label := fun k =>
      { addr := k, source := 0, length := 0, taken := true, label := 0, after := fun _ => 0 }
    let s := instrument loopOptions loopFn [0, 1]
    let m' := shadowRun byteRuntime loopFn s 0 [⟨1, d⟩, ⟨1, d⟩]
      (shadowInsts byteRuntime s 0 d 0 (loopFn.block 0).insts (startShadows (fun _ => 0) m))
    let t' := plainRun loopOptions loopFn byteRuntime.den 0 [⟨1, d⟩, ⟨1, d⟩]
      (plainInsts loopOptions loopFn 0 (fun l => (d l).map byteRuntime.den) 0 (loopFn.block 0).insts
        (startPlain byteRuntime loopOptions (fun _ => 0) m))
    byteRuntime.den (m'.env (shadowOf loopOptions s (.inst 1 1))) = taint t' (.inst 1 1) := by
  intro m d s m' t'
  exact (instrumented_run_exact byteRuntime loopOptions loopFn [0, 1] loop_verified
    (fun c b h => by
      obtain rfl | rfl : c = 0 ∨ c = b := by simpa [loopOptions] using h
      · exact dominates_entry b
      · exact dom_refl c)
    loop_traversal (fun _ => 0) m d [⟨1, d⟩, ⟨1, d⟩]
    ⟨List.mem_singleton.mpr rfl, List.mem_singleton.mpr rfl, trivial⟩).2 (.inst 1 1)
    ⟨by decide, Or.inl ⟨rfl, Or.inl (by decide)⟩⟩

end Parmesan.ShadowSound
