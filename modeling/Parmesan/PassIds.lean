import Parmesan.PassModel

/-!
# The numbers of the sites

What the pass draws for an instruction, apart from the code it inserts. The
numbering of a module is the run of these draws; the pass refines it in fast
mode and in track mode, whatever the two do to the blocks.
-/

set_option autoImplicit false

namespace Parmesan.PassIds
open Parmesan.PassModel Parmesan.Execution

structure Numbering where
  ids : Ids
  marked : List ℕ
  sites : List (ℕ × Assigned)
  deriving DecidableEq, Repr

inductive Draw where
  | instruction
  | context
  deriving DecidableEq, Repr

variable (cfg : Config)

def assign (k : ℕ) (inst : Inst) (n : Numbering) : Draw → Option Numbering
  | .instruction =>
    (getInstructionId cfg inst n.ids).map fun r =>
      { n with ids := r.2, sites := n.sites ++ [(k, .instruction r.1)] }
  | .context =>
    let r := getRandomContextId n.ids
    some { n with ids := r.2, sites := n.sites ++ [(k, .context r.1)] }

def exploitDraws (inst : Inst) : List Draw :=
  ((inst.operands.zipIdx.take MAX_EXPLOIT_CATEGORY).filter (isExploited cfg inst)).map
    fun _ => .instruction

def compareDraws (inst : Inst) : List Draw :=
  if isCallInst inst.kind && listed cfg inst .cmpfn then [.instruction] else []

def callDraws (inst : Inst) : Callee → List Draw
  | .function _ => compareDraws cfg inst ++ exploitDraws cfg inst ++ [.context]
  | _ => [.context]

def isSwitched (c : Operand) : Bool :=
  match c.ty with
  | .int bits => !(c.constInt || bits / 8 = 0 || bits % 8 ≠ 0)
  | _ => false

def isTested : Option (Operand × Bool) → Bool
  | some (c, isCmp) => isIntegerTy c.ty && !c.constInt && !isCmp
  | none => false

def draws (inst : Inst) : List Draw :=
  match inst.kind with
  | .call (.function false) _ _ =>
    if inst.name = "__unfold_branch_fn" then [] else callDraws cfg inst (.function false)
  | .call .indirect _ _ => callDraws cfg inst .indirect
  | .call _ _ _ => []
  | .invoke (.function false) _ => callDraws cfg inst (.function false)
  | .invoke _ _ => []
  | .branch cond => if isTested cond then [.instruction] else []
  | .switch c => if isSwitched c then [.instruction] else []
  | .cmp _ _ => [.instruction]
  | _ => exploitDraws cfg inst

def switchMarks (inst : Inst) : List ℕ :=
  match inst.kind with
  | .switch c => if c.ty = .int 64 && !c.constInt then c.source.toList else []
  | _ => []

def number (n : Numbering) (ik : Inst × ℕ) : Option Numbering :=
  if hasMetadata n.marked ik.1 then some n
  else
    ((draws cfg ik.1).foldlM (assign cfg ik.2 ik.1) n).map fun n =>
      { n with marked := switchMarks ik.1 ++ n.marked }

def numberBlock (insts : List Inst) (n : Numbering) : Option Numbering :=
  insts.zipIdx.foldlM (number cfg) { n with sites := [] }

def numberBlocks : List (List Inst) → Numbering →
    Option (List (List (ℕ × Assigned)) × Numbering)
  | [], n => some ([], n)
  | b::bs, n =>
    (numberBlock cfg b n).bind fun m => (numberBlocks bs m).map fun r => (m.sites::r.1, r.2)

def numberFn (f : Fn) (n : Numbering) : Option (List (List (ℕ × Assigned)) × Numbering) :=
  if isSkipped f then some ([], n) else numberBlocks cfg (addFnWrap cfg f.blocks) n

def numberFns : List Fn → Numbering → Option (List (List (List (ℕ × Assigned))) × Numbering)
  | [], n => some ([], n)
  | f::fs, n =>
    (numberFn cfg f n).bind fun r => (numberFns fs r.2).map fun rs => (r.1::rs.1, rs.2)

def view (s : State) : Numbering := ⟨s.ids, s.marked, s.sites⟩

variable {cfg}

@[simp] theorem view_emit (edit : List Slot → List Slot) (s : State) :
    view (emit edit s) = view s := rfl

@[simp] theorem view_count_edge (s : State) : view (countEdge cfg s) = view s := by
  unfold countEdge
  split_ifs <;> rfl

@[simp] theorem view_instrument (insert split : List Slot → List Slot) (s : State) :
    view (instrument cfg insert split s) = view s := by
  unfold instrument
  split <;> rfl

@[simp] theorem view_process_bool_cmp (ty : Ty) (insert split : List Slot → List Slot)
    (s : State) : view (processBoolCmp cfg ty insert split s) = view s := by
  unfold processBoolCmp
  split
  · split_ifs
    · exact view_instrument _ _ s
    · rfl
  · rfl

@[simp] theorem view_process_cmp (k : ℕ) (opTy ty : Ty) (s : State) :
    view (processCmp cfg k opTy ty s) = view s := by
  unfold processCmp
  split
  · split_ifs <;> simp
  · simp
  · simp

theorem view_draw_instruction (k : ℕ) (inst : Inst) (s : State) :
    (drawInstructionId cfg k inst s).map view = assign cfg k inst (view s) .instruction := by
  simp only [drawInstructionId, Option.map_map]
  rfl

theorem view_draw_then {k : ℕ} {inst : Inst} {edit : State → State}
    (hedit : ∀ s, view (edit s) = view s) (s : State) :
    ((drawInstructionId cfg k inst s).map edit).map view =
      [Draw.instruction].foldlM (assign cfg k inst) (view s) := by
  have hview : view ∘ edit = view := funext hedit
  rw [Option.map_map, hview, view_draw_instruction]
  simp

theorem view_visit_cmp (k : ℕ) (inst : Inst) (opTy ty : Ty) (s : State) :
    (visitCmpInst cfg k inst opTy ty s).map view =
      [Draw.instruction].foldlM (assign cfg k inst) (view s) :=
  view_draw_then (view_process_cmp k opTy ty) s

theorem view_draw_if {P : Prop} [Decidable P] {k : ℕ} {inst : Inst} {edit : State → State}
    (hedit : ∀ s, view (edit s) = view s) (s : State) :
    (if P then (drawInstructionId cfg k inst s).map edit else some s).map view =
      (if P then [Draw.instruction] else []).foldlM (assign cfg k inst) (view s) := by
  by_cases htaken : P
  · rw [if_pos htaken, if_pos htaken]
    exact view_draw_then hedit s
  · rw [if_neg htaken, if_neg htaken]
    rfl

theorem view_visit_branch (k : ℕ) (inst : Inst) (cond : Option (Operand × Bool)) (s : State) :
    (visitBranchInst cfg k inst cond s).map view =
      (if isTested cond then [Draw.instruction] else []).foldlM (assign cfg k inst) (view s) := by
  cases cond with
  | none => rfl
  | some c => exact view_draw_if (view_process_bool_cmp c.1.ty _ _) s

theorem view_exploit_operand (k : ℕ) (inst : Inst) (s : State) (ci : Operand × ℕ) :
    (exploitOperand cfg k inst s ci).map view =
      (if isExploited cfg inst ci then [Draw.instruction] else []).foldlM (assign cfg k inst)
        (view s) := by
  apply view_draw_if
  intro s
  by_cases hcast : isCast ci.1 <;> by_cases htrack : cfg.mode = .track <;> simp [hcast, htrack]

theorem view_visit_exploitation (k : ℕ) (inst : Inst) (s : State) :
    (visitExploitation cfg k inst s).map view =
      (exploitDraws cfg inst).foldlM (assign cfg k inst) (view s) := by
  let draw (n : Numbering) (ci : Operand × ℕ) : Option Numbering :=
    (if isExploited cfg inst ci then [Draw.instruction] else []).foldlM (assign cfg k inst) n
  have hdraws : ∀ (operands : List (Operand × ℕ)) (n : Numbering), operands.foldlM draw n =
      ((operands.filter (isExploited cfg inst)).map fun _ => Draw.instruction).foldlM
        (assign cfg k inst) n := by
    intro operands
    induction operands with
    | nil => exact fun n => rfl
    | cons ci operands ih =>
      intro n
      rw [List.foldlM_cons, List.filter_cons]
      by_cases htaken : isExploited cfg inst ci
      · simp only [draw, if_pos htaken, List.map_cons, List.foldlM_cons, List.foldlM_nil,
          bind_pure]
        exact congrArg _ (funext ih)
      · simp only [draw, if_neg htaken, List.foldlM_nil, pure_bind]
        exact ih n
  exact (fold_view (view_exploit_operand k inst) _ s).trans (hdraws _ (view s))

theorem view_visit_compare (k : ℕ) (inst : Inst) (s : State) :
    (visitCompareFunc cfg k inst s).map view =
      (compareDraws cfg inst).foldlM (assign cfg k inst) (view s) := by
  apply view_draw_if
  intro s
  split_ifs
  · rfl
  · split
    · split_ifs <;> rfl
    · rfl

theorem view_draw_context (k : ℕ) (inst : Inst) (s : State) :
    [Draw.context].foldlM (assign cfg k inst) (view s) = some (view (drawContextId k s)) := by
  rw [List.foldlM_cons]
  rfl

/-- The context of a call is drawn after the numbers of its arguments. -/
theorem view_process_call (k : ℕ) (inst : Inst) (callee : Callee) (s : State) :
    (processCall cfg k inst callee s).map view =
      (callDraws cfg inst callee).foldlM (assign cfg k inst) (view s) := by
  have hstore : ∀ t, view (if cfg.numFnCtx ≠ 0 then emit (insertBefore k) t else t) = view t := by
    intro t
    split_ifs
    · exact view_emit _ t
    · rfl
  cases callee with
  | function intrinsic =>
    have hvisit : ((visitCompareFunc cfg k inst s).bind (visitExploitation cfg k inst)).map view =
        (compareDraws cfg inst ++ exploitDraws cfg inst).foldlM (assign cfg k inst) (view s) := by
      rw [List.foldlM_append, ← view_visit_compare, Option.map_bind]
      simp only [Option.bind_eq_bind, Option.bind_map]
      exact congrArg _ (funext (view_visit_exploitation k inst))
    rw [callDraws, List.foldlM_append, ← hvisit]
    simp only [processCall, Option.map_map, Option.bind_eq_bind, Option.bind_map]
    rw [Option.map_eq_bind]
    apply congrArg
    funext t
    rw [Function.comp_apply, Function.comp_apply, Function.comp_apply, view_draw_context, hstore]
  | indirect =>
    simp only [processCall, callDraws, view_draw_context, Option.map_some, view_emit, hstore]
  | inlineAsm =>
    simp only [processCall, callDraws, view_draw_context, Option.map_some, view_emit, hstore]

theorem view_visit_call (k : ℕ) (inst : Inst) (callee : Callee) (useEmpty : Bool) (ty : Ty)
    (hkind : inst.kind = .call callee useEmpty ty) (s : State) :
    (visitCallInst cfg k inst callee useEmpty s).map view =
      (draws cfg inst).foldlM (assign cfg k inst) (view s) := by
  cases callee with
  | function intrinsic =>
    cases intrinsic with
    | true => simp [visitCallInst, draws, hkind]
    | false =>
      simp only [visitCallInst, draws, hkind]
      by_cases hname : inst.name = "__unfold_branch_fn"
      · rw [if_pos hname, if_pos hname]
        cases useEmpty <;> rfl
      · rw [if_neg hname, if_neg hname]
        exact view_process_call k inst _ s
  | indirect =>
    simp only [draws, hkind]
    exact view_process_call k inst .indirect s
  | inlineAsm => simp [visitCallInst, draws, hkind]

theorem view_visit_invoke (k : ℕ) (inst : Inst) (callee : Callee) (ty : Ty)
    (hkind : inst.kind = .invoke callee ty) (s : State) :
    (visitInvokeInst cfg k inst callee s).map view =
      (draws cfg inst).foldlM (assign cfg k inst) (view s) := by
  cases callee with
  | function intrinsic =>
    cases intrinsic with
    | true => simp [visitInvokeInst, draws, hkind]
    | false =>
      simp only [draws, hkind]
      exact view_process_call k inst (.function false) s
  | indirect => simp [visitInvokeInst, draws, hkind]
  | inlineAsm => simp [visitInvokeInst, draws, hkind]

def mark (marks : List ℕ) (n : Numbering) : Numbering := { n with marked := marks ++ n.marked }

theorem mark_nil (r : Option Numbering) : r.map (mark []) = r := Option.map_id_apply

theorem visit_switch_eq (k : ℕ) (inst : Inst) (c : Operand) (s : State) :
    visitSwitchInst cfg k inst c s =
      if isSwitched c then
        (drawInstructionId cfg k inst s).map fun s =>
          let s := instrument cfg (insertBefore k) (splitBefore k) s
          if c.ty = .int 64 then { s with marked := c.source.toList ++ s.marked } else s
      else some s := by
  obtain ⟨ty, constInt, constant, source⟩ := c
  cases ty with
  | int bits =>
    simp only [visitSwitchInst, isSwitched, Ty.int.injEq]
    by_cases hskip : constInt || bits / 8 = 0 || bits % 8 ≠ 0
    · rw [if_pos hskip, hskip]
      rfl
    · rw [if_neg hskip, Bool.eq_false_iff.mpr hskip]
      rfl
  | float => rfl
  | double => rfl
  | pointer => rfl
  | other => rfl

theorem view_visit_switch (k : ℕ) (inst : Inst) (c : Operand) (hkind : inst.kind = .switch c)
    (s : State) : (visitSwitchInst cfg k inst c s).map view =
      ((draws cfg inst).foldlM (assign cfg k inst) (view s)).map (mark (switchMarks inst)) := by
  rw [visit_switch_eq]
  simp only [draws, switchMarks, hkind]
  by_cases htaken : isSwitched c
  · rw [if_pos htaken, if_pos htaken]
    have hconst : c.constInt = false := by
      revert htaken
      unfold isSwitched
      split <;> simp +contextual
    have hview : ∀ t : State,
        view (let t := instrument cfg (insertBefore k) (splitBefore k) t
          if c.ty = .int 64 then { t with marked := c.source.toList ++ t.marked } else t) =
        mark (if c.ty = .int 64 && !c.constInt then c.source.toList else []) (view t) := by
      intro t
      have hsame : view (instrument cfg (insertBefore k) (splitBefore k) t) = view t :=
        view_instrument _ _ t
      rw [← hsame]
      by_cases hwide : c.ty = .int 64
      · simp [hwide, hconst, mark, view]
      · simp [hwide, mark, view]
    simp only [List.foldlM_cons, List.foldlM_nil, bind_pure, ← view_draw_instruction,
      Option.map_map]
    exact congrArg (Option.map · _) (funext hview)
  · have hmarks : ¬(c.ty = .int 64 && !c.constInt) := by
      intro hboth
      simp only [Bool.and_eq_true, decide_eq_true_eq, Bool.not_eq_true'] at hboth
      simp [isSwitched, hboth.1, hboth.2] at htaken
    rw [if_neg htaken, if_neg htaken, if_neg hmarks]
    rfl

/-- Whatever the mode, a visit draws the numbers of the numbering. -/
theorem view_visit_kind (k : ℕ) (inst : Inst) (s : State) :
    (visitKind cfg k inst s).map view =
      ((draws cfg inst).foldlM (assign cfg k inst) (view s)).map (mark (switchMarks inst)) := by
  cases hkind : inst.kind with
  | call callee useEmpty ty =>
    simp only [visitKind, hkind, switchMarks, mark_nil]
    exact view_visit_call k inst callee useEmpty ty hkind s
  | invoke callee ty =>
    simp only [visitKind, hkind, switchMarks, mark_nil]
    exact view_visit_invoke k inst callee ty hkind s
  | branch cond =>
    simp only [visitKind, hkind, switchMarks, mark_nil, draws]
    exact view_visit_branch k inst cond s
  | switch c =>
    rw [← view_visit_switch k inst c hkind]
    simp only [visitKind, hkind]
  | cmp opTy ty =>
    simp only [visitKind, hkind, switchMarks, mark_nil, draws]
    exact view_visit_cmp k inst opTy ty s
  | _ =>
    simp only [visitKind, hkind, switchMarks, mark_nil, draws]
    exact view_visit_exploitation k inst s

theorem view_visit (s : State) (ik : Inst × ℕ) :
    (visit cfg s ik).map view = number cfg (view s) ik := by
  unfold visit number
  by_cases hskip : hasMetadata s.marked ik.1
  · have hskip' : hasMetadata (view s).marked ik.1 := hskip
    rw [if_pos hskip, if_pos hskip']
    rfl
  · have hskip' : ¬hasMetadata (view s).marked ik.1 := hskip
    rw [if_neg hskip, if_neg hskip', view_visit_kind]
    split_ifs
    · rw [view_count_edge]
      rfl
    · rfl

theorem view_visit_block (insts : List Inst) (s : State) :
    (visitBlock cfg insts s).map view = numberBlock cfg insts (view s) :=
  fold_view view_visit insts.zipIdx _

theorem view_run_blocks (blocks : List (List Inst)) (s : State) :
    (runBlocks cfg blocks s).map (fun r => (r.1.map Report.sites, view r.2)) =
      numberBlocks cfg blocks (view s) := by
  induction blocks generalizing s with
  | nil => rfl
  | cons b blocks ih =>
    rw [runBlocks, numberBlocks, ← view_visit_block, Option.bind_map, Option.map_bind]
    apply congrArg
    funext t
    rw [Function.comp_apply, Function.comp_apply, ← ih t, Option.map_map, Option.map_map]
    rfl

theorem view_run_fns (fns : List Fn) (s : State) :
    (runFns cfg fns s).map (fun r => (r.1.map (List.map Report.sites), view r.2)) =
      numberFns cfg fns (view s) := by
  induction fns generalizing s with
  | nil => rfl
  | cons f fns ih =>
    have hfn : (runFn cfg f s).map (fun r => (r.1.map Report.sites, view r.2)) =
        numberFn cfg f (view s) := by
      unfold runFn numberFn
      split_ifs
      · rfl
      · exact view_run_blocks _ s
    rw [runFns, numberFns, ← hfn, Option.bind_map, Option.map_bind]
    apply congrArg
    funext r
    rw [Function.comp_apply, Function.comp_apply, ← ih r.2, Option.map_map, Option.map_map]
    rfl

def siteNumbers (out : List (List Report)) : List (List (List (ℕ × Assigned))) :=
  out.map (List.map Report.sites)

theorem run_numbers (hmode : cfg.mode ≠ .dfsan) (fns : List Fn) :
    (runOnModule cfg fns).map siteNumbers =
      (numberFns cfg fns (view (initVariables cfg))).map Prod.fst := by
  rw [runOnModule, if_neg hmode, ← view_run_fns, Option.map_map, Option.map_map]
  rfl

theorem number_mode (mode : Mode) : number { cfg with mode := mode } = number cfg := rfl

theorem number_blocks_mode (mode : Mode) (blocks : List (List Inst)) (n : Numbering) :
    numberBlocks { cfg with mode := mode } blocks n = numberBlocks cfg blocks n := by
  induction blocks generalizing n with
  | nil => rfl
  | cons b blocks ih => simp only [numberBlocks, numberBlock, number_mode, ih]

theorem number_fns_mode (mode : Mode) (fns : List Fn) (n : Numbering) :
    numberFns { cfg with mode := mode } fns n = numberFns cfg fns n := by
  induction fns generalizing n with
  | nil => rfl
  | cons f fns ih =>
    have hwrap : addFnWrap { cfg with mode := mode } f.blocks = addFnWrap cfg f.blocks := rfl
    simp only [numberFns, numberFn, number_blocks_mode, hwrap, ih]

/-- Fast mode and track mode give the same numbers to the same sites. -/
theorem fast_and_track_agree (cfg : Config) (fns : List Fn) :
    (runOnModule { cfg with mode := .fast } fns).map siteNumbers =
      (runOnModule { cfg with mode := .track } fns).map siteNumbers := by
  have hfast : ({ cfg with mode := .fast } : Config).mode ≠ .dfsan := Mode.noConfusion
  have htrack : ({ cfg with mode := .track } : Config).mode ≠ .dfsan := Mode.noConfusion
  rw [run_numbers hfast, run_numbers htrack, @number_fns_mode cfg .fast,
    @number_fns_mode cfg .track]
  rfl

end Parmesan.PassIds
