import Parmesan.EdgeCount

/-!
# The instrumentation pass

`llvm_mode/pass/AngoraPass.cc`: each function is wrapped, then each of its
blocks is visited, a list of the instructions that it has at that time. The
visitors draw numbers for the sites they instrument and insert code into the
block or split it. A run of inserted instructions is one element of the block;
code in a block that is split off is left out, since no such block is visited.
-/

set_option autoImplicit false

namespace Parmesan.PassModel
open Parmesan.EdgeCount (MAP_SIZE)

inductive Mode where
  | fast
  | track
  | dfsan
  deriving DecidableEq, Repr

inductive Ty where
  | int (bits : ℕ)
  | float
  | double
  | pointer
  | other
  deriving DecidableEq, Repr

def isIntegerTy : Ty → Bool
  | .int _ => true
  | _ => false

/-- `source` is the instruction that computes the operand. -/
structure Operand where
  ty : Ty
  constInt : Bool
  constant : Bool
  source : Option ℕ
  deriving DecidableEq, Repr

inductive Callee where
  | function (intrinsic : Bool)
  | indirect
  | inlineAsm
  deriving DecidableEq, Repr

/-- A conditional branch has a condition, with whether a comparison computes it;
a comparison has the type of its operands. The last type is that of the value. -/
inductive Kind where
  | phi (ty : Ty)
  | ehPad (ty : Ty)
  | call (callee : Callee) (useEmpty : Bool) (ty : Ty)
  | invoke (callee : Callee) (ty : Ty)
  | branch (cond : Option (Operand × Bool))
  | switch (cond : Operand)
  | cmp (opTy : Ty) (ty : Ty)
  | ret
  | resume
  | other (ty : Ty)
  deriving DecidableEq, Repr

def valueTy : Kind → Ty
  | .phi ty => ty
  | .ehPad ty => ty
  | .call _ _ ty => ty
  | .invoke _ ty => ty
  | .cmp _ ty => ty
  | .other ty => ty
  | _ => .other

/-- `label` identifies the instruction, `name` is that of the callee of a call
and of the opcode otherwise, `operands` are the arguments of a call. -/
structure Inst where
  label : ℕ
  kind : Kind
  name : String
  operands : List Operand
  loc : Option (ℕ × ℕ)
  nosanitize : Bool
  deriving DecidableEq, Repr

structure Fn where
  name : String
  isDeclaration : Bool
  blocks : List (List Inst)

inductive Category where
  | all
  | index (i : ℕ)
  | cmpfn
  deriving DecidableEq, Repr

section DenseSet

/-- The number that a `DenseSet<u32>` keeps for buckets that are not in use. -/
def EMPTY_KEY : ℕ := 2^32-1

/-- The number that it keeps for buckets whose key was erased. -/
def TOMBSTONE_KEY : ℕ := 2^32-2

def isKey (h : ℕ) : Bool := h ≠ EMPTY_KEY && h ≠ TOMBSTONE_KEY

/-- LLVM's set, by the numbers inserted so far, the last first. A call that does
not return has no result; with assertions enabled a call with a number that is
not a key aborts. -/
structure DenseSet where
  count : List ℕ → ℕ → Option Bool
  insert : List ℕ → ℕ → Bool

/-- What the documentation of the set promises, for keys only. -/
structure DenseSet.Keeps (set : DenseSet) : Prop where
  count_key : ∀ used : List ℕ, (∀ x ∈ used, isKey x) → ∀ h, isKey h →
    set.count used h = some (decide (h ∈ used))
  insert_key : ∀ used : List ℕ, (∀ x ∈ used, isKey x) → ∀ h, isKey h → set.insert used h = true

end DenseSet

/-- `isIn` is the exploitation list, for function names and for opcodes;
`random` is the sequence that the C library yields. -/
structure Config where
  mode : Mode
  isBc : Bool
  genIdRandom : Bool
  numFnCtx : ℤ
  instRatio : ℕ
  modId : ℕ
  isIn : Bool → String → Category → Bool
  random : ℕ → ℕ
  denseSet : DenseSet

section Ids

/-- The set of ids is given by what was inserted into it. -/
structure Ids where
  randSeed : ℕ
  cidCounter : ℕ
  uniqCidSet : List ℕ
  deriving DecidableEq, Repr

def getRandomNum (ids : Ids) : ℕ × Ids :=
  let seed := (ids.randSeed*1103515245+12345) % 2^64
  (seed % 2^32, { ids with randSeed := seed })

def getRandomContextId (ids : Ids) : ℕ × Ids :=
  let r := getRandomNum ids
  (EdgeCount.getRandomContextId r.1, r.2)

/-- The loop that looks for an unused number. The set does not change, so after
as many steps as there are numbers the loop does not end. -/
def firstFree (count : ℕ → Option Bool) : ℕ → ℕ → Option ℕ
  | 0, _ => none
  | fuel+1, h =>
    (count h).bind fun used =>
      if used then firstFree count fuel ((h*3+1) % 2^32) else some h

def instructionHash (cfg : Config) (inst : Inst) (ids : Ids) : ℕ × Ids :=
  if cfg.genIdRandom then getRandomNum ids
  else
    match inst.loc with
    | some (line, col) => (((col*33+line)*33+cfg.modId) % 2^32, ids)
    | none => getRandomNum ids

def getInstructionId (cfg : Config) (inst : Inst) (ids : Ids) : Option (ℕ × Ids) :=
  if cfg.isBc then
    let c := (ids.cidCounter+1) % 2^32
    some (c, { ids with cidCounter := c })
  else
    let r := instructionHash cfg inst ids
    (firstFree (cfg.denseSet.count r.2.uniqCidSet) (2^32) r.1).bind fun h =>
      if cfg.denseSet.insert r.2.uniqCidSet h then
        some (h, { r.2 with uniqCidSet := h::r.2.uniqCidSet })
      else none

end Ids

section Blocks

/-- An element of a block: an instruction of the list being visited, or a run of
instructions inserted since the list was made. -/
inductive Slot where
  | old (index : ℕ) (inst : Inst)
  | new
  deriving DecidableEq, Repr

def isPhi : Kind → Bool
  | .phi _ => true
  | _ => false

def isEhPad : Kind → Bool
  | .ehPad _ => true
  | _ => false

def holds (k : ℕ) : Slot → Bool
  | .old index _ => index = k
  | .new => false

def getFirstInsertionPt : List Slot → Option Slot
  | [] => none
  | .new::_ => some .new
  | .old k inst::slots =>
    if isPhi inst.kind then getFirstInsertionPt slots
    else if isEhPad inst.kind then slots.head?
    else some (.old k inst)

def insertFirst : List Slot → List Slot
  | [] => []
  | .new::slots => .new::.new::slots
  | .old k inst::slots =>
    if isPhi inst.kind then .old k inst::insertFirst slots
    else if isEhPad inst.kind then .old k inst::.new::slots
    else .new::.old k inst::slots

def editAt (edit : Slot → List Slot → List Slot) (k : ℕ) : List Slot → List Slot
  | [] => []
  | x::slots => if holds k x then edit x slots else x::editAt edit k slots

def insertBefore : ℕ → List Slot → List Slot := editAt fun x slots => .new::x::slots

def insertAfter : ℕ → List Slot → List Slot := editAt fun x slots => x::.new::slots

/-- `SplitBlockAndInsertIfThen` keeps what is before the instruction and ends
the block with the test. -/
def splitBefore : ℕ → List Slot → List Slot := editAt fun _ _ => [.new]

def splitAfter : ℕ → List Slot → List Slot := editAt fun x _ => [x, .new]

def eraseFromParent (k : ℕ) (slots : List Slot) : List Slot := slots.filter fun x => !holds k x

end Blocks

inductive Assigned where
  | instruction (id : ℕ)
  | context (id : ℕ)
  deriving DecidableEq, Repr

/-- `marked` has the instructions given the metadata by the pass. `edges` and
`sites` report on the block being visited. -/
structure State where
  ids : Ids
  marked : List ℕ
  randomIndex : ℕ
  block : List Slot
  edges : ℕ
  sites : List (ℕ × Assigned)

variable (cfg : Config)

def drawInstructionId (k : ℕ) (inst : Inst) (s : State) : Option State :=
  (getInstructionId cfg inst s.ids).map fun r =>
    { s with ids := r.2, sites := s.sites ++ [(k, .instruction r.1)] }

def drawContextId (k : ℕ) (s : State) : State :=
  let r := getRandomContextId s.ids
  { s with ids := r.2, sites := s.sites ++ [(k, .context r.1)] }

def emit (edit : List Slot → List Slot) (s : State) : State := { s with block := edit s.block }

/-- The first of the two numbers drawn decides whether the block is skipped. -/
def countEdge (s : State) : State :=
  if cfg.mode ≠ .fast then s
  else if cfg.instRatio ≤ cfg.random s.randomIndex % 100 then
    { s with randomIndex := s.randomIndex+1 }
  else
    { s with
      randomIndex := s.randomIndex+2
      block := insertFirst s.block
      edges := s.edges+1 }

/-- Inserts before an instruction or, in fast mode, splits the block there. -/
def instrument (insert split : List Slot → List Slot) (s : State) : State :=
  match cfg.mode with
  | .fast => emit split s
  | .track => emit insert s
  | .dfsan => s

def processBoolCmp (ty : Ty) (insert split : List Slot → List Slot) (s : State) : State :=
  match ty with
  | .int bits => if bits ≤ 32 then instrument cfg insert split s else s
  | _ => s

def processCmp (k : ℕ) (opTy ty : Ty) (s : State) : State :=
  match opTy with
  | .int bits =>
    if bits ≤ 64 then
      if bits / 8 = 0 then s else instrument cfg (insertAfter k) (splitAfter k) s
    else processBoolCmp cfg ty (insertAfter k) (splitAfter k) s
  | .other => processBoolCmp cfg ty (insertAfter k) (splitAfter k) s
  | _ => instrument cfg (insertAfter k) (splitAfter k) s

/-- A comparison is not the last of its block, so there is a next instruction. -/
def visitCmpInst (k : ℕ) (inst : Inst) (opTy ty : Ty) (s : State) : Option State :=
  (drawInstructionId cfg k inst s).map (processCmp cfg k opTy ty)

def visitBranchInst (k : ℕ) (inst : Inst) (cond : Option (Operand × Bool)) (s : State) :
    Option State :=
  match cond with
  | some (c, isCmp) =>
    if isIntegerTy c.ty && !c.constInt && !isCmp then
      (drawInstructionId cfg k inst s).map
        (processBoolCmp cfg c.ty (insertBefore k) (splitBefore k))
    else some s
  | none => some s

/-- A condition of 64 bits needs no cast, so it is marked itself. -/
def visitSwitchInst (k : ℕ) (inst : Inst) (c : Operand) (s : State) : Option State :=
  match c.ty with
  | .int bits =>
    if c.constInt || bits / 8 = 0 || bits % 8 ≠ 0 then some s
    else
      (drawInstructionId cfg k inst s).map fun s =>
        let s := instrument cfg (insertBefore k) (splitBefore k) s
        if bits = 64 then { s with marked := c.source.toList ++ s.marked } else s
  | _ => some s

def isCallInst : Kind → Bool
  | .call _ _ _ => true
  | _ => false

def listed (inst : Inst) (category : Category) : Bool :=
  cfg.isIn (isCallInst inst.kind) inst.name category

def MAX_EXPLOIT_CATEGORY : ℕ := 5

/-- The cast of an argument that is neither 64 bits wide nor a constant. -/
def isCast (c : Operand) : Bool := isIntegerTy c.ty && c.ty ≠ .int 64 && !c.constant

def isExploited (inst : Inst) (ci : Operand × ℕ) : Bool :=
  (listed cfg inst .all || listed cfg inst (.index ci.2)) &&
    (isIntegerTy ci.1.ty || ci.1.ty = .pointer) && !ci.1.constInt

def exploitOperand (k : ℕ) (inst : Inst) (s : State) (ci : Operand × ℕ) : Option State :=
  if isExploited cfg inst ci then
    (drawInstructionId cfg k inst s).map fun s =>
      let s := if isCast ci.1 then emit (insertBefore k) s else s
      if cfg.mode = .track then emit (insertBefore k) s else s
  else some s

def visitExploitation (k : ℕ) (inst : Inst) (s : State) : Option State :=
  (inst.operands.zipIdx.take MAX_EXPLOIT_CATEGORY).foldlM (exploitOperand cfg k inst) s

def visitCompareFunc (k : ℕ) (inst : Inst) (s : State) : Option State :=
  if isCallInst inst.kind && listed cfg inst .cmpfn then
    (drawInstructionId cfg k inst s).map fun s =>
      if cfg.mode ≠ .track then s
      else
        match inst.operands with
        | a::b::_ => if a.ty = .pointer ∧ b.ty = .pointer then emit (insertBefore k) s else s
        | _ => s
  else some s

def processCall (k : ℕ) (inst : Inst) (callee : Callee) (s : State) : Option State :=
  (match callee with
    | .function _ => (visitCompareFunc cfg k inst s).bind (visitExploitation cfg k inst)
    | _ => some s).map fun s =>
      let s := drawContextId k s
      let s := if cfg.numFnCtx ≠ 0 then emit (insertBefore k) s else s
      match callee with
      | .function _ => s
      | _ => emit (insertBefore k) s

def visitCallInst (k : ℕ) (inst : Inst) (callee : Callee) (useEmpty : Bool) (s : State) :
    Option State :=
  match callee with
  | .function true => some s
  | .inlineAsm => some s
  | .function false =>
    if inst.name = "__unfold_branch_fn" then
      some (if useEmpty then emit (eraseFromParent k) s else s)
    else processCall cfg k inst (.function false) s
  | .indirect => processCall cfg k inst .indirect s

def visitInvokeInst (k : ℕ) (inst : Inst) (callee : Callee) (s : State) : Option State :=
  match callee with
  | .function false => processCall cfg k inst (.function false) s
  | _ => some s

def visitKind (k : ℕ) (inst : Inst) (s : State) : Option State :=
  match inst.kind with
  | .call callee useEmpty _ => visitCallInst cfg k inst callee useEmpty s
  | .invoke callee _ => visitInvokeInst cfg k inst callee s
  | .branch cond => visitBranchInst cfg k inst cond s
  | .switch cond => visitSwitchInst cfg k inst cond s
  | .cmp opTy ty => visitCmpInst cfg k inst opTy ty s
  | _ => visitExploitation cfg k inst s

/-- Only an instruction of 64 bits can have been the condition of a switch. -/
def hasMetadata (marked : List ℕ) (inst : Inst) : Bool :=
  inst.nosanitize || (valueTy inst.kind = .int 64 && inst.label ∈ marked)

def isFirst (k : ℕ) (slots : List Slot) : Bool :=
  match getFirstInsertionPt slots with
  | some x => holds k x
  | none => false

/-- The body of the loop over the instructions of a block. -/
def visit (s : State) (ik : Inst × ℕ) : Option State :=
  if hasMetadata s.marked ik.1 then some s
  else visitKind cfg ik.2 ik.1 (if isFirst ik.2 s.block then countEdge cfg s else s)

structure Report where
  edges : ℕ
  sites : List (ℕ × Assigned)
  deriving DecidableEq, Repr

def slotsOf (insts : List Inst) : List Slot := insts.zipIdx.map fun ik => .old ik.2 ik.1

def visitBlock (insts : List Inst) (s : State) : Option State :=
  insts.zipIdx.foldlM (visit cfg) { s with block := slotsOf insts, edges := 0, sites := [] }

section Wrap

def emitted : Inst := ⟨0, .other .other, "", [], none, true⟩

def insertWrap : List Inst → List Inst
  | [] => []
  | inst::insts =>
    if isPhi inst.kind then inst::insertWrap insts
    else if isEhPad inst.kind then inst::emitted::insts
    else emitted::inst::insts

def isReturn : Kind → Bool
  | .ret => true
  | .resume => true
  | _ => false

def insertPost : List Inst → List Inst
  | [] => []
  | [inst] => if isReturn inst.kind then [emitted, inst] else [inst]
  | inst::insts => inst::insertPost insts

def addFnWrap (blocks : List (List Inst)) : List (List Inst) :=
  if cfg.numFnCtx = 0 then blocks
  else
    (match blocks with
      | [] => []
      | entry::rest => insertWrap entry::rest).map insertPost

end Wrap

def runBlocks : List (List Inst) → State → Option (List Report × State)
  | [], s => some ([], s)
  | b::bs, s =>
    (visitBlock cfg b s).bind fun t =>
      (runBlocks bs t).map fun r => (⟨t.edges, t.sites⟩::r.1, r.2)

def isSkipped (f : Fn) : Bool :=
  f.isDeclaration || "asan.module".toList.isPrefixOf f.name.toList

def runFn (f : Fn) (s : State) : Option (List Report × State) :=
  if isSkipped f then some ([], s) else runBlocks cfg (addFnWrap cfg f.blocks) s

def runFns : List Fn → State → Option (List (List Report) × State)
  | [], s => some ([], s)
  | f::fs, s => (runFn cfg f s).bind fun r => (runFns fs r.2).map fun rs => (r.1::rs.1, rs.2)

def initVariables : State := ⟨⟨cfg.modId, 0, []⟩, [], 0, [], 0, []⟩

/-- The reports on the blocks of each function, in their order. -/
def runOnModule (fns : List Fn) : Option (List (List Report)) :=
  if cfg.mode = .dfsan then some (fns.map fun _ => [])
  else (runFns cfg fns (initVariables cfg)).map Prod.fst

end Parmesan.PassModel
