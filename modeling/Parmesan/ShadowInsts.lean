import Parmesan.ShadowCombine

/-!
# One instruction

`Sim` relates the labels of the instrumented function to the taints of the plain run at one
place: the unions that are ready have their sums, the shadow of every available value has
the taint of the value, and memory, variables and calls agree. Every instruction keeps it.
-/

set_option autoImplicit false

namespace Parmesan.ShadowInsts
open Parmesan.Dominance Parmesan.ShadowModel Parmesan.ShadowRun Parmesan.ShadowCombine

section Relation
variable {α : Type} [SemilatticeSup α] [OrderBot α]

structure Agree (R : Runtime α) (m : Machine Shadow Label) (t : Machine Value α) : Prop where
  mem : ∀ x, R.den (m.mem x) = t.mem x
  cells : ∀ V, R.den (m.cells V) = t.cells V
  passed : m.passed.map (List.map R.den) = t.passed
  retval : R.den m.retval = t.retval
  labelReturn : R.den m.labelReturn = t.labelReturn

structure Sim (R : Runtime α) (o : Options) (F : Fn) (s : DFSanFunction) (b k : ℕ)
    (m : Machine Shadow Label) (t : Machine Value α) : Prop where
  summed : Summed R F s b k m
  values : ∀ V, Available F b k V → R.den (m.env (shadowOf o s V)) = taint t V
  agree : Agree R m t

variable {R : Runtime α} {m m' : Machine Shadow Label} {t : Machine Value α}

theorem Agree.define (h : Agree R m t) (I : Value) (l : α) : Agree R m (t.define I l) :=
  ⟨h.mem, h.cells, h.passed, h.retval, h.labelReturn⟩

theorem Agree.env_only (h : Agree R m t) (henv : EnvOnly m m') : Agree R m' t := by
  unfold EnvOnly at henv
  rw [henv]
  exact ⟨h.mem, h.cells, h.passed, h.retval, h.labelReturn⟩

theorem Agree.mem_eq (h : Agree R m t) : (fun x => R.den (m.mem x)) = t.mem := funext h.mem

theorem Agree.set_cell (h : Agree R m t) (V : Value) {l : Label} {x : α} (hl : R.den l = x) :
    Agree R (m.setCell V l) (t.setCell V x) := by
  refine ⟨h.mem, fun V' => ?_, h.passed, h.retval, h.labelReturn⟩
  simp only [Machine.setCell]
  split_ifs
  · exact hl
  · exact h.cells V'

theorem Agree.set_mem (h : Agree R m t) {f : ℕ → Label} {g : ℕ → α}
    (hfg : ∀ x, R.den (f x) = g x) : Agree R { m with mem := f } { t with mem := g } :=
  ⟨hfg, h.cells, h.passed, h.retval, h.labelReturn⟩

theorem Agree.fill (h : Agree R m t) (a n : ℕ) {l : Label} {y : α} (hl : R.den l = y) :
    Agree R { m with mem := fill m.mem a n l } { t with mem := fill t.mem a n y } := by
  refine h.set_mem fun x => ?_
  rw [fill_map R.den, h.mem_eq, hl]

end Relation

section Visit
variable {α : Type} [SemilatticeSup α] [OrderBot α] {R : Runtime α} {o : Options} {F : Fn}
variable {s s' s₁ : DFSanFunction} {b k : ℕ}
variable (hdom : ∀ c b, o.dominates c b = true → Dom F c b) (hb : Reached F b)

/-! ## Operands -/

theorem join_all_cons (x : α) (xs : List α) : joinAll (x::xs) = x ⊔ joinAll xs := rfl

include hb in
theorem fetch {V : Value} (hinv : Inv o F s) (hV : Available F b k V) :
    ∃ t, getShadow o s V = (t, shadowOf o s V) ∧
      Emits R o F b k s t (fun _ m m' => m' = m) ∧
      Ready F b k (t.code b k).length (shadowOf o s V) ∧ Made t (shadowOf o s V) := by
  have hget : Emits R o F b k s (getShadow o s V).1 _ := (get_shadow_asked hinv V).emits hinv
  obtain ⟨hready, hmade⟩ := shadow_ready (i := (s.code b k).length) hb hinv hV
  exact ⟨(getShadow o s V).1, Prod.ext rfl (get_shadow_value hinv V), hget,
    hget.ready hb hready, hget.made hmade⟩

include hdom hb in
theorem combine_rest_yields (I : Inst) (Vs : List Value) {S : Shadow}
    (hVs : ∀ V ∈ Vs, Available F b k V) (hinv : Inv o F s) (hfresh : Fresh s b k)
    (hS : Ready F b k (s.code b k).length S) (hmade : Made s S) :
    Yields R o F b k s (combineRest o F b k I s S Vs) (fun _ m =>
      R.den (m.env S) ⊔ joinAll (Vs.map fun V => R.den (m.env (shadowOf o s V)))) := by
  induction Vs generalizing s S with
  | nil => exact yields_old hinv hS hmade fun d m _ => (sup_bot_eq _).symm
  | cons V Vs ih =>
    obtain ⟨u, hget, hu, hVready, hVmade⟩ := fetch (R := R) hb hinv (hVs V List.mem_cons_self)
    have hc : Yields R o F b k u (combineShadows o F u b k I S (shadowOf o s V)) _ :=
      combine_yields hdom hb hu.inv (hu.fresh hfresh) I (hu.ready hb hS) hVready
        (hu.made hmade) hVmade
    have hrest := ih (fun V' hV' => hVs V' (List.mem_cons_of_mem V hV')) hc.emits.inv
      (hc.emits.fresh (hu.fresh hfresh)) hc.ready hc.made
    rw [combineRest, hget]
    refine Yields.after hu (hc.bind hrest ?_)
    intro d m m₁ hkeep hsum _
    rw [hsum, List.map_cons, join_all_cons, ← sup_assoc]
    congr 2
    refine List.map_congr_left fun V' hV' => ?_
    rw [hc.emits.values, hu.values, hkeep]
    exact hu.ready hb (shadow_ready hb hinv (hVs V' (List.mem_cons_of_mem V hV'))).1

include hdom hb in
theorem combine_operands_yields (op : Opcode) (a : Attributes) (ops : List Value)
    (hops : ∀ V ∈ ops, Available F b k V) (hinv : Inv o F s) (hfresh : Fresh s b k) :
    Yields R o F b k s (combineOperandShadows o F s b k (.operands op a ops)) (fun _ m =>
      joinAll (ops.map fun V => R.den (m.env (shadowOf o s V)))) := by
  cases ops with
  | nil =>
    refine yields_old hinv trivial trivial fun d m hm => ?_
    rw [hm.zero, R.den_zero]
    rfl
  | cons V Vs =>
    obtain ⟨u, hget, hu, hready, hmade⟩ := fetch (R := R) hb hinv (hops V List.mem_cons_self)
    rw [combineOperandShadows, hget]
    refine Yields.after hu ?_
    -- the note on a sign extension changes no label
    have hnote : Emits R o F b k u
        (if op = .sext then u.emit b k [.markSigned (shadowOf o s V) .zero] else u)
        (fun _ m m' => m' = m) := by
      split_ifs
      · exact (emits_ops hb hu.inv _).imp fun d m m' _ h => h
      · exact ⟨hu.inv, [], grown_refl _, fun d m hm => ⟨hm, rfl⟩⟩
    have hrest := combine_rest_yields (R := R) hdom hb (.operands op a (V::Vs)) Vs
      (fun V' hV' => hops V' (List.mem_cons_of_mem V hV')) hnote.inv
      (hnote.fresh (hu.fresh hfresh)) (hnote.ready hb hready) (hnote.made hmade)
    simp only [hnote.values, hu.values] at hrest
    exact Yields.after hnote hrest

include hb in
theorem yields_kept {u : DFSanFunction} {S : Shadow}
    (hu : Emits R o F b k s u (fun _ m m' => m' = m))
    (hS : Ready F b k (s.code b k).length S) (hmade : Made s S) :
    Yields R o F b k s (u, S) (fun _ m => R.den (m.env S)) where
  emits := by
    refine hu.imp ?_
    rintro d m m' - rfl
    exact ⟨rfl, rfl⟩
  ready := hu.ready hb hS
  made := hu.made hmade

/-! ## Memory -/

include hb in
theorem load_yields {Size : ℕ} (hsize : Size ≠ 0) (AllConstants : Bool) {ptr : Value}
    (hinv : Inv o F s) (hknown : s.AllocaShadowMap ptr = promoted F ptr) :
    Yields R o F b k s (loadShadow F s b k Size AllConstants ptr) (fun d m =>
      if promoted F ptr then R.den (m.cells ptr)
      else if AllConstants then ⊥
      else joinAll (labels (fun x => R.den (m.mem x)) d.addr Size)) := by
  unfold loadShadow
  rw [hknown]
  split_ifs with hcell hconst hone hfast
  · exact yields_op hb hinv _ (fun _ m => m.cells ptr) (fun d m => rfl) (fun d m => rfl)
  · refine yields_old hinv trivial trivial fun d m hm => ?_
    rw [hm.zero, R.den_zero]
  · refine yields_op hb hinv _ (fun d m => m.mem d.addr) (fun d m => rfl) fun d m => ?_
    subst hone
    simp [labels, joinAll]
  · refine yields_op hb hinv _ (fun d m => fastLoad R m.mem d.addr Size) (fun d m => rfl) ?_
    intro d m
    simp only [Nat.reduceDiv, Bool.and_eq_true, beq_iff_eq] at hfast
    exact den_fast_load R (Nat.pos_of_ne_zero hsize) hfast.2
  · exact yields_op hb hinv _ (fun d m => R.combineN (labels m.mem d.addr Size))
      (fun d m => rfl) (fun d m => den_union_load R m.mem d.addr Size)

include hb in
theorem store_emits {Size : ℕ} {ptr : Value} {S : Shadow} (hinv : Inv o F s)
    (hknown : s.AllocaShadowMap ptr = promoted F ptr) :
    Emits R o F b k s (storeShadow s b k Size ptr S) (fun d m m' =>
      m' = if promoted F ptr then m.setCell ptr (m.env S)
        else { m with mem := fill m.mem d.addr Size (m.env S) }) := by
  unfold storeShadow
  rw [hknown]
  split_ifs with hcell hzero
  · exact (emits_ops hb hinv _).imp fun d m m' _ h => h
  · refine (emits_ops hb hinv _).imp fun d m m' hm h => ?_
    rw [h, hzero, hm.zero]
    rfl
  · refine (emits_ops hb hinv _).imp fun d m m' hm h => ?_
    rw [h, ← store_labels_fill]
    rfl

/-! ## Calls -/

def called {N L : Type} (custom : Bool) (d : Input L) (ls : List L) (m : Machine N L) :
    Machine N L :=
  if custom then
    { m with passed := m.passed ++ [ls], mem := d.after, labelReturn := d.label }
  else { m with passed := m.passed ++ [ls], mem := d.after, retval := d.label }

theorem Agree.called {m : Machine Shadow Label} {t : Machine Value α} (h : Agree R m t)
    (custom : Bool) (d : Input Label) {ls : List Label} {ts : List α}
    (hls : ls.map R.den = ts) :
    Agree R (called custom d ls m) (called custom (d.map R.den) ts t) := by
  have hpassed : (m.passed ++ [ls]).map (List.map R.den) = t.passed ++ [ts] := by
    rw [List.map_append, h.passed, List.map_singleton, hls]
  cases custom with
  | true => exact ⟨fun _ => rfl, h.cells, hpassed, h.retval, rfl⟩
  | false => exact ⟨fun _ => rfl, h.cells, hpassed, rfl, h.labelReturn⟩

include hb in
theorem call_emits (custom : Bool) (Vs : List Value) (hinv : Inv o F s) :
    Emits R o F b k s
      ((getShadows o s Vs).1.emit b k [.pass (getShadows o s Vs).2, .callee custom])
      (fun d m m' => m' = called custom d (Vs.map fun V => m.env (shadowOf o s V)) m) := by
  obtain ⟨hasked, hvalues⟩ := get_shadows_asked Vs hinv
  refine (hasked.emits hinv).trans (emits_ops hb (hasked.inv hinv) _) ?_
  rintro d m m₁ m' - - rfl rfl
  rw [hvalues]
  cases custom <;> simp [execAll, exec, called, Function.comp_def]

/-! ## Visits -/

structure Entered (o : Options) (F : Fn) (s : DFSanFunction) (b k : ℕ) : Prop where
  inv : Inv o F s
  empty : ∀ l, k ≤ l → s.code b l = []
  unset : ∀ l, k ≤ l → shadowOf o s (.inst b l) = .zero
  plain : ∀ l, k ≤ l → s.AllocaShadowMap (.inst b l) = false
  known : ∀ V, Available F b k V → s.AllocaShadowMap V = promoted F V

structure Visited (R : Runtime α) (o : Options) (F : Fn) (b k : ℕ) (I : Inst)
    (s s' : DFSanFunction) : Prop where
  inv : Inv o F s'
  elsewhere : ∀ b' l, ¬ (b' = b ∧ l = k) → s'.code b' l = s.code b' l
  elements : ∀ u, (∀ i, u ≠ .tmp b k i) → s'.ShadowElements u = s.ShadowElements u
  values : ∀ V, V ≠ .inst b k → shadowOf o s' V = shadowOf o s V
  allocas : ∀ V, V ≠ .inst b k → s'.AllocaShadowMap V = s.AllocaShadowMap V
  known : s'.AllocaShadowMap (.inst b k) = promoted F (.inst b k)
  fixups : s'.PHIFixups = s.PHIFixups
  phis : s'.phis = s.phis
  sim : ∀ d m t, Sim R o F s b k m t →
    Sim R o F s' b (k+1) (execAll R b k d 0 (s'.code b k) m)
      (plainStep o F (.inst b k) (d.map R.den) t I)

theorem plain_step_env {I V : Value} (d : Input α) (t : Machine Value α) (J : Inst)
    (h : V ≠ I) : (plainStep o F I d t J).env V = t.env V := by
  cases J with
  | call callee isVoid params varargs => cases callee <;> simp [plainStep, Machine.define, h]
  | ret value => cases value <;> simp only [plainStep, Machine.define, if_neg h]; split_ifs <;> rfl
  | store Size value ptr =>
    simp only [plainStep, Machine.define, if_neg h, stored, Machine.setCell]
    split_ifs <;> rfl
  | alloca =>
    simp only [plainStep, Machine.define, if_neg h, Machine.setCell]
    split_ifs <;> rfl
  | _ => simp [plainStep, Machine.define, h]

theorem taint_eq {t t' : Machine Value α} {V : Value} (h : t'.env V = t.env V) :
    taint t' V = taint t V := by
  cases V with
  | constantInt => rfl
  | other => rfl
  | _ => exact h

theorem available_next {V : Value} (h : Available F b (k+1) V) :
    V = .inst b k ∨ Available F b k V := by
  cases V with
  | inst c l =>
    obtain ⟨hl, ⟨rfl, hlt⟩ | hc⟩ := h
    · by_cases hk : l = k
      · rw [hk]
        exact Or.inl rfl
      · exact Or.inr ⟨hl, Or.inl ⟨rfl, by omega⟩⟩
    · exact Or.inr ⟨hl, Or.inr hc⟩
  | _ => exact Or.inr h

theorem available_ne {V : Value} (h : Available F b k V) : V ≠ .inst b k := by
  rintro rfl
  obtain ⟨-, ⟨-, hlt⟩ | ⟨hne, -⟩⟩ := h
  · omega
  · exact hne rfl

include hb in
theorem visited_intro {I : Inst}
    {P : Input Label → Machine Shadow Label → Machine Shadow Label → Prop}
    (hs : Entered o F s b k) (hemit : Emits R o F b k s s₁ P) (hcode : s'.code = s₁.code)
    (helems : s'.ShadowElements = s₁.ShadowElements) (hfixups : s'.PHIFixups = s₁.PHIFixups)
    (hphis : s'.phis = s₁.phis)
    (hvalues : ∀ V, V ≠ .inst b k → shadowOf o s' V = shadowOf o s₁ V)
    (hallocas : ∀ V, V ≠ .inst b k → s'.AllocaShadowMap V = s₁.AllocaShadowMap V)
    (hknown : s'.AllocaShadowMap (.inst b k) = promoted F (.inst b k)) (hinv : Inv o F s')
    (hsim : ∀ d m m' t, Sim R o F s b k m t → m'.env .zero = 0 → P d m m' →
      Agree R m' (plainStep o F (.inst b k) (d.map R.den) t I) ∧
        R.den (m'.env (shadowOf o s' (.inst b k))) =
          (plainStep o F (.inst b k) (d.map R.den) t I).env (.inst b k)) :
    Visited R o F b k I s s' := by
  obtain ⟨ops, hgrown, hrun⟩ := hemit.run
  have hnil := hs.empty k le_rfl
  have hops : s'.code b k = ops := by
    rw [hcode, hgrown.code, hnil, List.nil_append]
  refine ⟨hinv, fun b' l hne => ?_, fun u hu => ?_, fun V hV => ?_, fun V hV => ?_, hknown,
    hfixups.trans hgrown.fixups, hphis.trans hgrown.phis, fun d m t h => ?_⟩
  · rw [hcode, hgrown.elsewhere b' l hne]
  · rw [helems]
    exact hgrown.elements u fun i hi => absurd hi (hu i)
  · rw [hvalues V hV, hgrown.values]
  · rw [hallocas V hV, hgrown.allocas]
  obtain ⟨hsummed, hP⟩ := hrun d m h.summed
  rw [hnil, List.length_nil] at hsummed hP
  obtain ⟨hagree, hval⟩ := hsim d m _ t h hsummed.zero hP
  rw [hops]
  refine ⟨⟨hsummed.zero, fun u E hu hready => ?_⟩, fun V hV => ?_, hagree⟩
  · -- what is ready after the instruction was ready when its code had run
    obtain ⟨c, l, j, rfl, hmade, -⟩ := hinv.elements u E hu
    refine hsummed.unions _ E (helems ▸ hu) ?_
    have hnext : s'.code b (k+1) = [] := by
      rw [hcode, hgrown.elsewhere b (k+1) (by omega)]
      exact hs.empty (k+1) (by omega)
    rw [hnext] at hready
    rw [← hcode]
    obtain ⟨rfl, hlt⟩ | hc := hready
    · refine Or.inl ⟨rfl, ?_⟩
      rw [List.length_nil] at hlt
      by_cases hl : l = k
      · subst hl
        exact Or.inr ⟨rfl, hmade⟩
      · omega
    · exact Or.inr hc
  · obtain rfl | hold := available_next hV
    · exact hval
    · have hne := available_ne hold
      rw [hvalues V hne, hgrown.values, taint_eq (plain_step_env _ t I hne), ← h.values V hold,
        exec_all_env ops (shadow_ready hb hs.inv hold).1]

theorem set_shadow_inv {V : Value} {S : Shadow} (hinv : Inv o F s) (hmade : Made s S)
    (hplaced : Placed o F V S) : Inv o F (s.setShadow V S) :=
  ⟨hinv.elements, hinv.cached, set_shadow_values hinv hmade hplaced, hinv.allocas⟩

theorem not_promoted {I : Inst} (hI : (F.block b).insts[k]? = some I) (hne : I ≠ .alloca) :
    promoted F (.inst b k) = false := by
  simp [promoted, hI, hne]

include hb in
theorem visited_value {I : Inst} {r : DFSanFunction × Shadow}
    {val : Input Label → Machine Shadow Label → α} (hs : Entered o F s b k)
    (hno : promoted F (.inst b k) = false) (hr : Yields R o F b k s r val)
    (hplain : ∀ d m t, Sim R o F s b k m t →
      plainStep o F (.inst b k) (d.map R.den) t I = t.define (.inst b k) (val d m)) :
    Visited R o F b k I s (r.1.setShadow (.inst b k) r.2) := by
  refine visited_intro hb hs hr.emits rfl rfl rfl rfl (fun V hV => set_shadow_of r.1 hV)
    (fun V _ => rfl) ?_ ?_ fun d m m' t h _ hP => ?_
  · rw [hno]
    exact (congrFun hr.emits.allocas _).trans (hs.plain k le_rfl)
  · exact set_shadow_inv hr.emits.inv hr.made (ready_before hb hr.ready before_next)
  · rw [hplain d m t h]
    refine ⟨(h.agree.env_only hP.2).define _ _, ?_⟩
    simp only [shadowOf, DFSanFunction.setShadow, if_true, Option.getD_some]
    rw [hP.1]
    simp [Machine.define]

include hb in
theorem visited_effect {I : Inst}
    {P : Input Label → Machine Shadow Label → Machine Shadow Label → Prop}
    (hs : Entered o F s b k) (hno : promoted F (.inst b k) = false)
    (hemit : Emits R o F b k s s' P)
    (hplain : ∀ d m m' t, Sim R o F s b k m t → P d m m' →
      Agree R m' (plainStep o F (.inst b k) (d.map R.den) t I) ∧
        (plainStep o F (.inst b k) (d.map R.den) t I).env (.inst b k) = ⊥) :
    Visited R o F b k I s s' := by
  refine visited_intro hb hs hemit rfl rfl rfl rfl (fun _ _ => rfl) (fun _ _ => rfl) ?_ hemit.inv
    fun d m m' t h hz hP => ?_
  · rw [hno, hemit.allocas]
    exact hs.plain k le_rfl
  · obtain ⟨hagree, hbot⟩ := hplain d m m' t h hP
    rw [hemit.values, hs.unset k le_rfl, hz, R.den_zero, hbot]
    exact ⟨hagree, rfl⟩

theorem Entered.fresh (hs : Entered o F s b k) : Fresh s b k := fun l hl => hs.empty l hl.le

theorem sim_operands {m : Machine Shadow Label} {t : Machine Value α}
    (h : Sim R o F s b k m t) {Vs : List Value} (hVs : ∀ V ∈ Vs, Available F b k V) :
    (Vs.map fun V => R.den (m.env (shadowOf o s V))) = Vs.map (taint t) :=
  List.map_congr_left fun V hV => h.values V (hVs V hV)

include hdom hb in
theorem operands_visited {op : Opcode} {a : Attributes} {ops : List Value}
    (hs : Entered o F s b k) (hI : (F.block b).insts[k]? = some (.operands op a ops))
    (hops : ∀ V ∈ ops, Available F b k V) :
    Visited R o F b k (.operands op a ops) s
      (visitOperandShadowInst o F s b k (.operands op a ops)) := by
  refine visited_value hb hs (not_promoted hI (by simp))
    (combine_operands_yields hdom hb op a ops hops hs.inv hs.fresh) fun d m t h => ?_
  rw [sim_operands h hops]
  rfl

include hdom hb in
theorem combine_after {r : DFSanFunction × Shadow} {u : DFSanFunction} {S : Shadow}
    {val : Input Label → Machine Shadow Label → α} (I : Inst)
    (hr : Yields R o F b k u r val) (hfresh : Fresh u b k)
    (hS : Ready F b k (u.code b k).length S) (hmade : Made u S) :
    Yields R o F b k u (combineShadows o F r.1 b k I S r.2)
        (fun d m => R.den (m.env S) ⊔ val d m) ∧
      Yields R o F b k u (combineShadows o F r.1 b k I r.2 S)
        (fun d m => val d m ⊔ R.den (m.env S)) := by
  have hS' := hr.emits.ready hb hS
  have hmade' := hr.emits.made hmade
  have hfresh' := hr.emits.fresh hfresh
  constructor
  · refine hr.bind (combine_yields hdom hb hr.emits.inv hfresh' I hS' hr.ready hmade' hr.made) ?_
    intro d m m₁ hkeep hval _
    rw [hval, hkeep S hS]
  · refine hr.bind (combine_yields hdom hb hr.emits.inv hfresh' I hr.ready hS' hr.made hmade') ?_
    intro d m m₁ hkeep hval _
    rw [hval, hkeep S hS]

include hdom hb in
theorem select_visited {isVector : Bool} {c x y : Value} (hs : Entered o F s b k)
    (hI : (F.block b).insts[k]? = some (.select isVector c x y))
    (hops : ∀ V ∈ [c, x, y], Available F b k V) :
    Visited R o F b k (.select isVector c x y) s
      (visitSelectInst o F s b k (.select isVector c x y) isVector c x y) := by
  obtain ⟨u₁, hget₁, hu₁, hc, mc⟩ := fetch (R := R) hb hs.inv (hops c (by simp))
  obtain ⟨u₂, hget₂, hu₂, hx, mx⟩ := fetch (R := R) hb hu₁.inv (hops x (by simp))
  obtain ⟨u₃, hget₃, hu₃, hy, my⟩ := fetch (R := R) hb hu₂.inv (hops y (by simp))
  rw [hu₁.values] at hget₂ hx mx
  rw [hu₂.values, hu₁.values] at hget₃ hy my
  replace hc := hu₃.ready hb (hu₂.ready hb hc)
  replace mc := hu₃.made (hu₂.made mc)
  replace hx := hu₃.ready hb hx
  replace mx := hu₃.made mx
  have hfetched : Emits R o F b k s u₃ (fun _ m m' => m' = m) := by
    refine (hu₁.trans hu₂ (T := fun _ m m' => m' = m) ?_).trans hu₃ ?_
    · rintro d m m₁ m' - - rfl rfl
      rfl
    · rintro d m m₁ m' - - rfl rfl
      rfl
  have hfresh := hfetched.fresh hs.fresh
  -- the shadow of the chosen operand, or of both
  have hchosen : ∃ r, Yields R o F b k u₃ r (fun d m =>
        if isVector then R.den (m.env (shadowOf o s x)) ⊔ R.den (m.env (shadowOf o s y))
        else if d.taken then R.den (m.env (shadowOf o s x)) else R.den (m.env (shadowOf o s y))) ∧
      visitSelectInst o F s b k (.select isVector c x y) isVector c x y =
        (combineShadows o F r.1 b k (.select isVector c x y) (shadowOf o s c) r.2).1.setShadow
          (.inst b k)
          (combineShadows o F r.1 b k (.select isVector c x y) (shadowOf o s c) r.2).2 := by
    unfold visitSelectInst
    simp only [hget₁, hget₂, hget₃]
    cases isVector with
    | true =>
      refine ⟨_, ?_, rfl⟩
      exact combine_yields hdom hb hu₃.inv hfresh _ hx hy mx my
    | false =>
      simp only [Bool.false_eq_true, if_false]
      split_ifs with heq
      · refine ⟨_, yields_old hu₃.inv hx mx fun d m _ => ?_, rfl⟩
        rw [heq]
        split_ifs <;> rfl
      · refine ⟨_, yields_op hb hu₃.inv _
          (fun d m => if d.taken then m.env (shadowOf o s x) else m.env (shadowOf o s y))
          (fun d m => rfl) fun d m => ?_, rfl⟩
        split_ifs <;> rfl
  obtain ⟨r, hr, hvisit⟩ := hchosen
  rw [hvisit]
  refine visited_value hb hs (not_promoted hI (by simp))
    (Yields.after hfetched (combine_after hdom hb _ hr hfresh hc mc).1) fun d m t h => ?_
  rw [h.values c (hops c (by simp)), h.values x (hops x (by simp)), h.values y (hops y (by simp))]
  rfl

theorem zero_yields (hinv : Inv o F s) :
    Yields R o F b k s (s, .zero) (fun _ _ => ⊥) := by
  refine yields_old hinv trivial trivial fun d m hm => ?_
  rw [hm.zero, R.den_zero]

include hdom hb in
theorem load_visited {Size : ℕ} {AllConstants : Bool} {ptr : Value} (hs : Entered o F s b k)
    (hI : (F.block b).insts[k]? = some (.load Size AllConstants ptr))
    (hptr : Available F b k ptr) :
    Visited R o F b k (.load Size AllConstants ptr) s
      (visitLoadInst o F s b k (.load Size AllConstants ptr) Size AllConstants ptr) := by
  unfold visitLoadInst
  split_ifs with hsize hflag
  · refine visited_value hb hs (not_promoted hI (by simp)) (zero_yields hs.inv) fun d m t _ => ?_
    simp [plainStep, hsize]
  · have hload : Yields R o F b k s (loadShadow F s b k Size AllConstants ptr) _ :=
      load_yields hb hsize AllConstants hs.inv (hs.known ptr hptr)
    obtain ⟨u, hget, hu, hready, hmade⟩ := fetch (R := R) hb hload.emits.inv hptr
    rw [hload.emits.values] at hget hready hmade
    obtain ⟨hp, mp⟩ := shadow_ready (i := (s.code b k).length) hb hs.inv hptr
    simp only [hget]
    -- the pointer is asked for after the load, in the state that the load left
    have hmid : Yields R o F b k s (u, (loadShadow F s b k Size AllConstants ptr).2) _ :=
      hload.bind (yields_kept hb hu hload.ready hload.made) fun d m m₁ _ hval _ => hval
    refine visited_value hb hs (not_promoted hI (by simp))
      (combine_after hdom hb _ hmid hs.fresh hp mp).2 ?_
    intro d m t h
    rw [h.values ptr hptr, h.agree.cells ptr, h.agree.mem_eq]
    simp [plainStep, hsize, loaded, pointerTaint, hflag, Input.map]
  · refine visited_value hb hs (not_promoted hI (by simp))
      (load_yields hb hsize AllConstants hs.inv (hs.known ptr hptr)) fun d m t h => ?_
    rw [h.agree.cells ptr, h.agree.mem_eq]
    simp [plainStep, hsize, loaded, pointerTaint, hflag, Input.map]

include hb in
theorem stored_visited {Size : ℕ} {value ptr : Value} {r : DFSanFunction × Shadow}
    {val : Input Label → Machine Shadow Label → α} (hs : Entered o F s b k)
    (hI : (F.block b).insts[k]? = some (.store Size value ptr)) (hsize : Size ≠ 0)
    (hptr : Available F b k ptr) (hr : Yields R o F b k s r val)
    (hval : ∀ d m t, Sim R o F s b k m t →
      val d m = taint t value ⊔ pointerTaint o.CombinePointerLabelsOnStore t ptr) :
    Visited R o F b k (.store Size value ptr) s (storeShadow r.1 b k Size ptr r.2) := by
  have hknown : r.1.AllocaShadowMap ptr = promoted F ptr :=
    (congrFun hr.emits.allocas ptr).trans (hs.known ptr hptr)
  have hemit : Emits R o F b k s (storeShadow r.1 b k Size ptr r.2) (fun d m m' =>
      ∃ m₁, R.den (m₁.env r.2) = val d m ∧ EnvOnly m m₁ ∧
        m' = if promoted F ptr then m₁.setCell ptr (m₁.env r.2)
          else { m₁ with mem := fill m₁.mem d.addr Size (m₁.env r.2) }) :=
    hr.emits.trans (store_emits hb hr.emits.inv hknown)
      fun d m m₁ m' _ _ hP hQ => ⟨m₁, hP.1, hP.2, hQ⟩
  refine visited_effect hb hs (not_promoted hI (by simp)) hemit ?_
  rintro d m m' t h ⟨m₁, hl, henv, rfl⟩
  have hagree := h.agree.env_only henv
  have hlabel := hl.trans (hval d m t h)
  simp only [plainStep, hsize, if_false, stored]
  split_ifs with hcell
  · exact ⟨(hagree.set_cell ptr hlabel).define _ _, if_pos rfl⟩
  · exact ⟨(hagree.fill _ _ hlabel).define _ _, if_pos rfl⟩

include hdom hb in
theorem store_visited {Size : ℕ} {value ptr : Value} (hs : Entered o F s b k)
    (hI : (F.block b).insts[k]? = some (.store Size value ptr))
    (hops : ∀ V ∈ [value, ptr], Available F b k V) :
    Visited R o F b k (.store Size value ptr) s
      (visitStoreInst o F s b k (.store Size value ptr) Size value ptr) := by
  have hvalue := hops value (by simp)
  have hptr := hops ptr (by simp)
  obtain ⟨u, hget, hu, hv, mv⟩ := fetch (R := R) hb hs.inv hvalue
  unfold visitStoreInst
  split_ifs with hsize hflag
  · refine visited_effect hb hs (not_promoted hI (by simp))
      ⟨hs.inv, [], grown_refl s, fun d m hm => ⟨hm, rfl⟩⟩ (P := fun _ m m' => m' = m) ?_
    rintro d m m' t h rfl
    simp only [plainStep, hsize, if_true]
    exact ⟨h.agree.define _ _, if_pos rfl⟩
  · obtain ⟨w, hget', hw, -, -⟩ := fetch (R := R) hb hu.inv hptr
    obtain ⟨hp, mp⟩ := shadow_ready (i := (u.code b k).length) hb hu.inv hptr
    rw [hu.values] at hget' hp mp
    simp only [hget, hget']
    have hmid : Yields R o F b k u (w, shadowOf o s value) _ := yields_kept hb hw hv mv
    refine stored_visited hb hs hI hsize hptr (Yields.after hu
      (combine_after hdom hb (.store Size value ptr) hmid (hu.fresh hs.fresh) hp mp).2) ?_
    intro d m t h
    rw [h.values value hvalue, h.values ptr hptr, pointerTaint, if_pos hflag]
  · simp only [hget]
    obtain ⟨hv', mv'⟩ := shadow_ready (i := (s.code b k).length) hb hs.inv hvalue
    refine stored_visited hb hs hI hsize hptr (yields_kept hb hu hv' mv') fun d m t h => ?_
    rw [h.values value hvalue, pointerTaint, if_neg hflag, sup_bot_eq]

include hb in
theorem alloca_visited (hs : Entered o F s b k) (hI : (F.block b).insts[k]? = some .alloca) :
    Visited R o F b k .alloca s (visitAllocaInst F s b k) := by
  have hpromoted : promoted F (.inst b k) = allLoadsStores F (.inst b k) := by
    simp [promoted, hI]
  unfold visitAllocaInst
  simp only
  split_ifs with hall
  · have hemit : Emits R o F b k s (s.emit b k [.alloca (.inst b k)]) _ :=
      emits_ops hb hs.inv _
    refine visited_intro hb hs hemit rfl rfl rfl rfl (fun V hV => set_shadow_of _ hV)
      (fun V hV => if_neg hV) ?_ ?_ fun d m m' t h hz hP => ?_
    · rw [hpromoted, hall]
      exact if_pos rfl
    · refine set_shadow_inv ⟨hemit.inv.elements, hemit.inv.cached, hemit.inv.values,
        fun V hV => ?_⟩ trivial trivial
      by_cases hne : V = .inst b k
      · rw [hne, hpromoted, hall]
      · exact hs.inv.allocas V ((if_neg hne).symm.trans hV)
    · subst hP
      simp only [plainStep, hall, if_true, execAll, exec]
      refine ⟨(h.agree.set_cell _ rfl).define _ _, ?_⟩
      simp only [shadowOf, DFSanFunction.setShadow, if_true, Option.getD_some]
      exact (congrArg R.den hz).trans (R.den_zero.trans (if_pos rfl).symm)
  · have hno : promoted F (.inst b k) = false := by simpa [hpromoted] using hall
    refine visited_value hb hs hno (zero_yields hs.inv) fun d m t _ => ?_
    simp [plainStep, hall]

include hb in
theorem mem_set_visited {value dest : Value} (hs : Entered o F s b k)
    (hI : (F.block b).insts[k]? = some (.memSet value dest)) (hv : Available F b k value) :
    Visited R o F b k (.memSet value dest) s (visitMemSetInst o s b k value) := by
  obtain ⟨u, hget, hu, -, -⟩ := fetch (R := R) hb hs.inv hv
  unfold visitMemSetInst
  simp only [hget]
  refine visited_effect hb hs (not_promoted hI (by simp))
    (hu.trans (emits_ops hb hu.inv _) (T := fun d m m' =>
        m' = { m with mem := setLabel (m.env (shadowOf o s value)) d.length d.addr m.mem })
      fun d m m₁ m' _ _ hP hQ => hP ▸ hQ) ?_
  rintro d m m' t h rfl
  rw [set_label_fill]
  exact ⟨(h.agree.fill _ _ (h.values value hv)).define _ _, if_pos rfl⟩

include hb in
theorem mem_transfer_visited {dest source : Value} (hs : Entered o F s b k)
    (hI : (F.block b).insts[k]? = some (.memTransfer dest source)) :
    Visited R o F b k (.memTransfer dest source) s (visitMemTransferInst s b k) := by
  refine visited_effect hb hs (not_promoted hI (by simp)) (emits_ops hb hs.inv _) ?_
  rintro d m m' t h rfl
  refine ⟨(h.agree.set_mem fun x => ?_).define _ _, if_pos rfl⟩
  rw [move_map R.den, h.agree.mem_eq]
  rfl

include hb in
theorem return_visited {value : Option Value} (hs : Entered o F s b k)
    (hI : (F.block b).insts[k]? = some (.ret value))
    (hops : ∀ V ∈ value.toList, Available F b k V) :
    Visited R o F b k (.ret value) s (visitReturnInst o s b k value) := by
  have hstay : Emits R o F b k s s (fun _ m m' => m' = m) :=
    ⟨hs.inv, [], grown_refl s, fun d m hm => ⟨hm, rfl⟩⟩
  cases value with
  | none =>
    refine visited_effect hb hs (not_promoted hI (by simp)) hstay ?_
    rintro d m m' t h rfl
    exact ⟨h.agree.define _ _, if_pos rfl⟩
  | some V =>
    have hV := hops V (by simp)
    simp only [visitReturnInst]
    split_ifs with hnative
    · refine visited_effect hb hs (not_promoted hI (by simp)) hstay ?_
      rintro d m m' t h rfl
      simp only [plainStep, hnative, if_true]
      exact ⟨h.agree.define _ _, if_pos rfl⟩
    · obtain ⟨u, hget, hu, -, -⟩ := fetch (R := R) hb hs.inv hV
      simp only [hget]
      refine visited_effect hb hs (not_promoted hI (by simp))
        (hu.trans (emits_ops hb hu.inv _)
          (T := fun d m m' => m' = { m with retval := m.env (shadowOf o s V) })
          fun d m m₁ m' _ _ hP hQ => hP ▸ hQ) ?_
      rintro d m m' t h rfl
      simp only [plainStep, hnative]
      refine ⟨Agree.define ?_ _ _, if_pos rfl⟩
      exact ⟨h.agree.mem, h.agree.cells, h.agree.passed, h.values V hV, h.agree.labelReturn⟩

include hb in
theorem handed_visited {I : Inst} (custom isVoid : Bool) (Vs : List Value) (op : ShadowOp)
    (hs : Entered o F s b k) (hno : promoted F (.inst b k) = false)
    (hVs : ∀ V ∈ Vs, Available F b k V)
    (hop : ∀ n d (m : Machine Shadow Label),
      exec R b k n d m op = m.define (.tmp b k n) (if custom then m.labelReturn else m.retval))
    (hplain : ∀ (d : Input α) t, plainStep o F (.inst b k) d t I =
      (called custom d (Vs.map (taint t)) t).define (.inst b k) (if isVoid then ⊥ else d.label)) :
    Visited R o F b k I s
      (let r := getShadows o s Vs
       let t := r.1.emit b k [.pass r.2, .callee custom]
       if isVoid then t else (t.emit b k [op]).setShadow (.inst b k) (t.next b k)) := by
  have hu : Emits R o F b k s _ _ := call_emits hb custom Vs hs.inv
  simp only
  generalize (getShadows o s Vs).1.emit b k [.pass (getShadows o s Vs).2, .callee custom] = w
    at hu ⊢
  have hagree : ∀ d m t, Sim R o F s b k m t →
      Agree R (called custom d (Vs.map fun V => m.env (shadowOf o s V)) m)
        (called custom (d.map R.den) (Vs.map (taint t)) t) := by
    intro d m t h
    refine h.agree.called custom d ?_
    rw [List.map_map, ← sim_operands h hVs]
    rfl
  split_ifs with hvoid
  · refine visited_effect hb hs hno hu ?_
    rintro d m m' t h rfl
    rw [hplain, if_pos hvoid]
    exact ⟨(hagree d m t h).define _ _, if_pos rfl⟩
  · have hload : Yields R o F b k w (w.emit b k [op], w.next b k)
        (fun _ m => R.den (if custom then m.labelReturn else m.retval)) :=
      yields_op hb hu.inv op (fun _ m => if custom then m.labelReturn else m.retval)
        (fun d m => hop _ d m) (fun d m => rfl)
    have hemit : Emits R o F b k s (w.emit b k [op]) (fun d m m' =>
        R.den (m'.env (w.next b k)) = R.den d.label ∧
          EnvOnly (called custom d (Vs.map fun V => m.env (shadowOf o s V)) m) m') := by
      refine hu.trans hload.emits ?_
      rintro d m m₁ m' - - rfl hP
      refine ⟨hP.1.trans ?_, hP.2⟩
      cases custom <;> rfl
    refine visited_intro hb hs hemit rfl rfl rfl rfl (fun V hV => set_shadow_of _ hV)
      (fun V _ => rfl) ?_ ?_ fun d m m' t h _ hP => ?_
    · rw [hno]
      exact (congrFun hemit.allocas _).trans (hs.plain k le_rfl)
    · exact set_shadow_inv hemit.inv hload.made (ready_before hb hload.ready before_next)
    · rw [hplain, if_neg hvoid]
      refine ⟨((hagree d m t h).env_only hP.2).define _ _, ?_⟩
      simp only [shadowOf, DFSanFunction.setShadow, if_true, Option.getD_some]
      exact hP.1.trans (if_pos rfl).symm

include hb in
theorem call_visited {callee : Callee} {isVoid : Bool} {params varargs : List Value}
    (hs : Entered o F s b k)
    (hI : (F.block b).insts[k]? = some (.call callee isVoid params varargs))
    (hops : ∀ V ∈ params ++ varargs, Available F b k V) :
    Visited R o F b k (.call callee isVoid params varargs) s
      (visitCallSite o s b k callee isVoid params varargs) := by
  have hno := not_promoted hI (by simp)
  cases callee with
  | warning =>
    have hwarn : Emits R o F b k s (s.emit b k [.unimplemented]) (fun _ m m' => m' = m) :=
      (emits_ops hb hs.inv _).imp fun d m m' _ h => h
    exact visited_value hb hs hno (Yields.after hwarn (zero_yields hwarn.inv)) fun d m t _ => rfl
  | discard => exact visited_value hb hs hno (zero_yields hs.inv) fun d m t _ => rfl
  | custom =>
    exact handed_visited hb true isVoid (params ++ varargs) .loadLabelReturn hs hno hops
      (fun n d m => rfl) (fun d t => rfl)
  | instrumented =>
    exact handed_visited hb false isVoid params .loadRetval hs hno
      (fun V hV => hops V (List.mem_append_left _ hV)) (fun n d m => rfl) (fun d t => rfl)

include hdom hb in
theorem visit_visited {I : Inst} (hs : Entered o F s b k)
    (hI : (F.block b).insts[k]? = some I) (hops : ∀ V ∈ I.getOperands, Available F b k V) :
    Visited R o F b k I s (visit o F s b k I) := by
  cases I with
  | operands op a ops => exact operands_visited hdom hb hs hI hops
  | select isVector c x y => exact select_visited hdom hb hs hI hops
  | load Size AllConstants ptr =>
    exact load_visited hdom hb hs hI (hops ptr (by simp [Inst.getOperands]))
  | store Size value ptr => exact store_visited hdom hb hs hI hops
  | alloca => exact alloca_visited hb hs hI
  | memSet value dest => exact mem_set_visited hb hs hI (hops value (by simp [Inst.getOperands]))
  | memTransfer dest source => exact mem_transfer_visited hb hs hI
  | call callee isVoid params varargs => exact call_visited hb hs hI hops
  | ret value => exact return_visited hb hs hI hops
  | other ops =>
    refine visited_effect hb hs (not_promoted hI (by simp))
      ⟨hs.inv, [], grown_refl s, fun d m hm => ⟨hm, rfl⟩⟩ (P := fun _ m m' => m' = m) ?_
    rintro d m m' t h rfl
    exact ⟨h.agree.define _ _, if_pos rfl⟩

theorem visited_entered {I : Inst} (hs : Entered o F s b k) (h : Visited R o F b k I s s') :
    Entered o F s' b (k+1) where
  inv := h.inv
  empty := by
    intro l hl
    rw [h.elsewhere b l (by omega)]
    exact hs.empty l (by omega)
  unset := by
    intro l hl
    rw [h.values _ (by simp; omega)]
    exact hs.unset l (by omega)
  plain := by
    intro l hl
    rw [h.allocas _ (by simp; omega)]
    exact hs.plain l (by omega)
  known := by
    intro V hV
    obtain rfl | hold := available_next hV
    · exact h.known
    · rw [h.allocas V (available_ne hold)]
      exact hs.known V hold

end Visit
end Parmesan.ShadowInsts
