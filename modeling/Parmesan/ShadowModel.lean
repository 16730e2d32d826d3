import Mathlib.Data.Finset.Basic
import Mathlib.Data.Fintype.Defs
import Mathlib.Algebra.Order.Ring.Nat

/-!
# The taint instrumentation of one function

`DFSanFunction` is the state the pass keeps while it visits the instructions of a function.
It emits the code that computes the label of every value, the *shadow* of the value. A
shadow is named by the place of the instruction that computes it: the block, the
instruction of the source it was inserted for and its number among those. So the shadow
at a place is new exactly while fewer operations have been emitted there.

The split of a block around a guarded union or a wide load is not drawn: the pieces run
one after the other whenever the block runs, and the dominator tree is kept up to date
with them, so a piece dominates what the block dominates and the pieces after it. The
labels of arguments come in the thread-local array, so there are at most 64 of them.
-/

set_option autoImplicit false

namespace Parmesan.ShadowModel

/-! ## Functions -/

/-- `constantInt` is an integer constant, `other` everything else that is neither an
argument nor an instruction. -/
inductive Value where
  | constantInt
  | other
  | arg (n : ℕ)
  | phi (b j : ℕ)
  | inst (b k : ℕ)
deriving DecidableEq, Repr

inductive Opcode where
  | add | sub | mul | udiv | sdiv | urem | srem | shl | lshr | ashr | and | or | xor
  | cmp | sext | other
deriving DecidableEq, Repr

/-- What the notes for the tag set read of an instruction: the overflow flags, the
signedness of a comparison, whether both operands are integers, the width of the first. -/
structure Attributes where
  hasNoSignedWrap : Bool := false
  hasNoUnsignedWrap : Bool := false
  isSigned : Bool := false
  isIntegerTy : Bool := false
  getScalarSizeInBits : ℕ := 0
deriving DecidableEq, Repr

inductive Callee where
  | warning | discard | custom | instrumented
deriving DecidableEq, Repr

/-- `operands` is every instruction whose label is the union of the labels of its operands:
arithmetic, casts, comparisons, address computations, element accesses, intrinsics and
calls of functional wrappers. `other` is an instruction the visitor does not know. -/
inductive Inst where
  | operands (op : Opcode) (attributes : Attributes) (ops : List Value)
  | select (isVector : Bool) (Condition TrueValue FalseValue : Value)
  | load (Size : ℕ) (AllConstants : Bool) (PointerOperand : Value)
  | store (Size : ℕ) (ValueOperand PointerOperand : Value)
  | alloca
  | memSet (value dest : Value)
  | memTransfer (dest source : Value)
  | call (callee : Callee) (isVoid : Bool) (params varargs : List Value)
  | ret (ReturnValue : Option Value)
  | other (ops : List Value)
deriving DecidableEq, Repr

def Inst.getOperands : Inst → List Value
  | .operands _ _ ops => ops
  | .select _ c t f => [c, t, f]
  | .load _ _ ptr => [ptr]
  | .store _ value ptr => [value, ptr]
  | .alloca => []
  | .memSet value dest => [dest, value]
  | .memTransfer dest source => [dest, source]
  | .call _ _ params varargs => params ++ varargs
  | .ret value => value.toList
  | .other ops => ops

structure Block where
  /-- for each phi node the incoming values, with the block each comes from -/
  phis : List (List (ℕ × Value)) := []
  insts : List Inst := []
  succs : List ℕ := []
deriving DecidableEq, Repr

/-- Block `0` is the entry. -/
structure Fn where
  blocks : List Block
deriving DecidableEq, Repr

def Fn.block (F : Fn) (b : ℕ) : Block := F.blocks.getD b {}

/-- The test of `visitAllocaInst` for one user of the alloca `I`. -/
def usesAsPointer (I : Value) : Inst → Bool
  | .load _ _ _ => true
  | .store _ _ ptr => ptr == I
  | _ => false

def Fn.users (F : Fn) (V : Value) : List Inst :=
  (F.blocks.flatMap Block.insts).filter fun U => V ∈ U.getOperands

def Fn.usedByPhi (F : Fn) (V : Value) : Bool :=
  (F.blocks.flatMap Block.phis).any fun incoming => V ∈ incoming.map Prod.snd

def allLoadsStores (F : Fn) (I : Value) : Bool :=
  !F.usedByPhi I && (F.users I).all (usesAsPointer I)

/-! ## Shadows -/

inductive Shadow where
  | zero
  | arg (n : ℕ)
  | phi (b j : ℕ)
  | tmp (b k i : ℕ)
deriving DecidableEq, Repr

/-- The address of the node, which only decides the order within the key of a cache entry. -/
def Shadow.address : Shadow → List ℕ
  | .zero => []
  | .arg n => [0, n]
  | .phi b j => [1, b, j]
  | .tmp b k i => [2, b, k, i]

/-- An operation the pass inserts. The one with number `i` at instruction `k` of block `b`
computes the shadow `tmp b k i`, if it computes one. `callee` stands where the call is. -/
inductive ShadowOp where
  | loadCell (AI : Value)
  | load
  | fastLoad (Size : ℕ)
  | unionLoad (Size : ℕ)
  | storeCell (AI : Value) (S : Shadow)
  | storeZero (Size : ℕ)
  | store (Size : ℕ) (S : Shadow)
  | checkedUnion (V1 V2 : Shadow)
  | guardedUnion (V1 V2 : Shadow)
  | select (TrueShadow FalseShadow : Shadow)
  | alloca (I : Value)
  | setLabel (S : Shadow)
  | memTransfer
  | pass (Ss : List Shadow)
  | callee (custom : Bool)
  | loadRetval
  | loadLabelReturn
  | storeRetval (S : Shadow)
  | unimplemented
  | markSigned (V1 V2 : Shadow)
  | inferShape (V1 V2 : Shadow) (num_bytes : ℕ)
  | combineAnd (V : Shadow)
deriving DecidableEq, Repr

/-- The command line, the kind of the function and what LLVM computes of it. -/
structure Options where
  CombinePointerLabelsOnLoad : Bool := true
  CombinePointerLabelsOnStore : Bool := false
  IsNativeABI : Bool := false
  dominates : ℕ → ℕ → Bool

structure DFSanFunction where
  ValShadowMap : Value → Option Shadow := fun _ => none
  AllocaShadowMap : Value → Bool := fun _ => false
  ShadowElements : Shadow → Option (Finset Shadow) := fun _ => none
  CachedCombinedShadows : Shadow × Shadow → Option (ℕ × Shadow) := fun _ => none
  PHIFixups : List (ℕ × ℕ × List (ℕ × Value)) := []
  /-- the arguments whose label is loaded when the function is entered -/
  argLoads : List ℕ := []
  code : ℕ → ℕ → List ShadowOp := fun _ _ => []
  phis : ℕ → ℕ → List (ℕ × Shadow) := fun _ _ => []

variable (o : Options) (F : Fn)

def avoidNewBlocks : Bool := F.blocks.length > 1000

def DFSanFunction.emit (s : DFSanFunction) (b k : ℕ) (ops : List ShadowOp) : DFSanFunction :=
  { s with
    code := fun b' k' => if b' = b ∧ k' = k then s.code b' k' ++ ops else s.code b' k' }

def DFSanFunction.next (s : DFSanFunction) (b k : ℕ) : Shadow := .tmp b k (s.code b k).length

def DFSanFunction.setShadow (s : DFSanFunction) (I : Value) (S : Shadow) : DFSanFunction :=
  { s with ValShadowMap := fun V => if V = I then some S else s.ValShadowMap V }

def getShadow (s : DFSanFunction) : Value → DFSanFunction × Shadow
  | .constantInt => (s, .zero)
  | .other => (s, .zero)
  | .arg n =>
    match s.ValShadowMap (.arg n) with
    | some S => (s, S)
    | none =>
      if o.IsNativeABI then (s, .zero)
      else ({ s.setShadow (.arg n) (.arg n) with argLoads := s.argLoads ++ [n] }, .arg n)
  | .phi b j =>
    match s.ValShadowMap (.phi b j) with
    | some S => (s, S)
    | none => (s.setShadow (.phi b j) .zero, .zero)
  | .inst b k =>
    match s.ValShadowMap (.inst b k) with
    | some S => (s, S)
    | none => (s.setShadow (.inst b k) .zero, .zero)

def getShadows (s : DFSanFunction) : List Value → DFSanFunction × List Shadow
  | [] => (s, [])
  | V::Vs =>
    let r := getShadow o s V
    let rs := getShadows r.1 Vs
    (rs.1, r.2::rs.2)

/-! ## Unions -/

def markedSigned (op : Opcode) (a : Attributes) : Bool :=
  match op with
  | .sdiv | .srem | .ashr => true
  | .add | .sub | .mul | .shl => a.hasNoSignedWrap && !a.hasNoUnsignedWrap
  | .cmp => a.isSigned
  | _ => false

/-- The calls that tell the tag set how the two labels are used. -/
def notes (I : Inst) (V1 V2 : Shadow) : List ShadowOp :=
  match I with
  | .operands op a ops =>
    let masked :=
      match op, ops with
      | .and, [Arg1, Arg2] =>
        if a.isIntegerTy then
          if Arg1 = .constantInt ∧ V2 ≠ .zero then [ShadowOp.combineAnd V2]
          else if Arg2 = .constantInt ∧ V1 ≠ .zero then [ShadowOp.combineAnd V1]
          else []
        else []
      | _, _ => []
    let signs := if markedSigned op a then [ShadowOp.markSigned V1 V2] else []
    let num_bytes := a.getScalarSizeInBits/8
    let shapes :=
      if op ∈ [Opcode.add, .sub, .mul, .udiv, .sdiv, .srem] ∧ 0 < num_bytes ∧
          a.getScalarSizeInBits % 8 = 0 then [ShadowOp.inferShape V1 V2 num_bytes]
      else []
    masked ++ signs ++ shapes
  | _ => []

/-- The operand whose elements already hold those of the other one. -/
def covering (s : DFSanFunction) (V1 V2 : Shadow) : Option Shadow :=
  match s.ShadowElements V1, s.ShadowElements V2 with
  | some V1Elems, some V2Elems =>
    if V2Elems ⊆ V1Elems then some V1 else if V1Elems ⊆ V2Elems then some V2 else none
  | some V1Elems, none => if V2 ∈ V1Elems then some V1 else none
  | none, some V2Elems => if V1 ∈ V2Elems then some V2 else none
  | none, none => none

def cacheKey (V1 V2 : Shadow) : Shadow × Shadow :=
  if V2.address < V1.address then (V2, V1) else (V1, V2)

def DFSanFunction.elements (s : DFSanFunction) (V : Shadow) : Finset Shadow :=
  (s.ShadowElements V).getD {V}

/-- The tail of `combineShadows`: a new union, remembered with its elements. -/
def newUnion (s : DFSanFunction) (b k : ℕ) (V1 V2 : Shadow) : DFSanFunction × Shadow :=
  let S := s.next b k
  let op := if avoidNewBlocks F then ShadowOp.checkedUnion V1 V2 else .guardedUnion V1 V2
  let UnionElems := s.elements V1 ∪ s.elements V2
  let t := s.emit b k [op]
  ({ t with
      CachedCombinedShadows := fun key =>
        if key = cacheKey V1 V2 then some (b, S) else s.CachedCombinedShadows key
      ShadowElements := fun V => if V = S then some UnionElems else s.ShadowElements V }, S)

def combineShadows (s : DFSanFunction) (b k : ℕ) (I : Inst) (V1 V2 : Shadow) :
    DFSanFunction × Shadow :=
  let s := s.emit b k (notes I V1 V2)
  if V1 = .zero then (s, V2)
  else if V2 = .zero then (s, V1)
  else if V1 = V2 then (s, V1)
  else
    match covering s V1 V2 with
    | some V => (s, V)
    | none =>
      match s.CachedCombinedShadows (cacheKey V1 V2) with
      | some (Block, S) => if o.dominates Block b then (s, S) else newUnion F s b k V1 V2
      | none => newUnion F s b k V1 V2

def combineRest (b k : ℕ) (I : Inst) :
    DFSanFunction → Shadow → List Value → DFSanFunction × Shadow
  | s, S, [] => (s, S)
  | s, S, V::Vs =>
    let r := getShadow o s V
    let c := combineShadows o F r.1 b k I S r.2
    combineRest b k I c.1 c.2 Vs

def combineOperandShadows (s : DFSanFunction) (b k : ℕ) (I : Inst) : DFSanFunction × Shadow :=
  match I with
  | .operands op _ (V::Vs) =>
    let r := getShadow o s V
    let t := if op = .sext then r.1.emit b k [.markSigned r.2 .zero] else r.1
    combineRest o F b k I t r.2 Vs
  | _ => (s, .zero)

/-! ## Memory -/

def loadShadow (s : DFSanFunction) (b k Size : ℕ) (AllConstants : Bool) (Addr : Value) :
    DFSanFunction × Shadow :=
  if s.AllocaShadowMap Addr then (s.emit b k [.loadCell Addr], s.next b k)
  else if AllConstants then (s, .zero)
  else if Size = 0 then (s, .zero)
  else if Size = 1 then (s.emit b k [.load], s.next b k)
  else if !avoidNewBlocks F && Size % (64/32) == 0 then
    (s.emit b k [.fastLoad Size], s.next b k)
  else (s.emit b k [.unionLoad Size], s.next b k)

def storeShadow (s : DFSanFunction) (b k Size : ℕ) (Addr : Value) (S : Shadow) :
    DFSanFunction :=
  if s.AllocaShadowMap Addr then s.emit b k [.storeCell Addr S]
  else if S = .zero then s.emit b k [.storeZero Size]
  else s.emit b k [.store Size S]

/-! ## Instructions -/

def visitOperandShadowInst (s : DFSanFunction) (b k : ℕ) (I : Inst) : DFSanFunction :=
  let r := combineOperandShadows o F s b k I
  r.1.setShadow (.inst b k) r.2

def visitLoadInst (s : DFSanFunction) (b k : ℕ) (I : Inst) (Size : ℕ) (AllConstants : Bool)
    (ptr : Value) : DFSanFunction :=
  if Size = 0 then s.setShadow (.inst b k) .zero
  else
    let r := loadShadow F s b k Size AllConstants ptr
    if o.CombinePointerLabelsOnLoad then
      let p := getShadow o r.1 ptr
      let c := combineShadows o F p.1 b k I r.2 p.2
      c.1.setShadow (.inst b k) c.2
    else r.1.setShadow (.inst b k) r.2

def visitStoreInst (s : DFSanFunction) (b k : ℕ) (I : Inst) (Size : ℕ) (value ptr : Value) :
    DFSanFunction :=
  if Size = 0 then s
  else
    let r := getShadow o s value
    if o.CombinePointerLabelsOnStore then
      let p := getShadow o r.1 ptr
      let c := combineShadows o F p.1 b k I r.2 p.2
      storeShadow c.1 b k Size ptr c.2
    else storeShadow r.1 b k Size ptr r.2

def visitAllocaInst (s : DFSanFunction) (b k : ℕ) : DFSanFunction :=
  let t :=
    if allLoadsStores F (.inst b k) then
      { s.emit b k [.alloca (.inst b k)] with
        AllocaShadowMap := fun V => if V = .inst b k then true else s.AllocaShadowMap V }
    else s
  t.setShadow (.inst b k) .zero

def visitSelectInst (s : DFSanFunction) (b k : ℕ) (I : Inst) (isVector : Bool)
    (Condition TrueValue FalseValue : Value) : DFSanFunction :=
  let CondShadow := getShadow o s Condition
  let TrueShadow := getShadow o CondShadow.1 TrueValue
  let FalseShadow := getShadow o TrueShadow.1 FalseValue
  let s := FalseShadow.1
  if isVector then
    let r := combineShadows o F s b k I TrueShadow.2 FalseShadow.2
    let c := combineShadows o F r.1 b k I CondShadow.2 r.2
    c.1.setShadow (.inst b k) c.2
  else
    let r :=
      if TrueShadow.2 = FalseShadow.2 then (s, TrueShadow.2)
      else (s.emit b k [.select TrueShadow.2 FalseShadow.2], s.next b k)
    let c := combineShadows o F r.1 b k I CondShadow.2 r.2
    c.1.setShadow (.inst b k) c.2

def visitMemSetInst (s : DFSanFunction) (b k : ℕ) (value : Value) : DFSanFunction :=
  let r := getShadow o s value
  r.1.emit b k [.setLabel r.2]

def visitMemTransferInst (s : DFSanFunction) (b k : ℕ) : DFSanFunction :=
  s.emit b k [.memTransfer]

def visitReturnInst (s : DFSanFunction) (b k : ℕ) (ReturnValue : Option Value) :
    DFSanFunction :=
  match ReturnValue with
  | some V =>
    if o.IsNativeABI then s
    else
      let r := getShadow o s V
      r.1.emit b k [.storeRetval r.2]
  | none => s

def visitCallSite (s : DFSanFunction) (b k : ℕ) (callee : Callee) (isVoid : Bool)
    (params varargs : List Value) : DFSanFunction :=
  match callee with
  | .warning => (s.emit b k [.unimplemented]).setShadow (.inst b k) .zero
  | .discard => s.setShadow (.inst b k) .zero
  | .custom =>
    let r := getShadows o s (params ++ varargs)
    let t := r.1.emit b k [.pass r.2, .callee true]
    if isVoid then t else (t.emit b k [.loadLabelReturn]).setShadow (.inst b k) (t.next b k)
  | .instrumented =>
    let r := getShadows o s params
    let t := r.1.emit b k [.pass r.2, .callee false]
    if isVoid then t else (t.emit b k [.loadRetval]).setShadow (.inst b k) (t.next b k)

def visit (s : DFSanFunction) (b k : ℕ) (I : Inst) : DFSanFunction :=
  match I with
  | .operands _ _ _ => visitOperandShadowInst o F s b k I
  | .select v c t f => visitSelectInst o F s b k I v c t f
  | .load Size AllConstants ptr => visitLoadInst o F s b k I Size AllConstants ptr
  | .store Size value ptr => visitStoreInst o F s b k I Size value ptr
  | .alloca => visitAllocaInst F s b k
  | .memSet value _ => visitMemSetInst o s b k value
  | .memTransfer _ _ => visitMemTransferInst s b k
  | .call callee isVoid params varargs => visitCallSite o s b k callee isVoid params varargs
  | .ret value => visitReturnInst o s b k value
  | .other _ => s

/-! ## The function -/

def visitPHINode (s : DFSanFunction) (b j : ℕ) (incoming : List (ℕ × Value)) :
    DFSanFunction :=
  { s.setShadow (.phi b j) (.phi b j) with PHIFixups := s.PHIFixups ++ [(b, j, incoming)] }

def visitPhis (b : ℕ) : ℕ → List (List (ℕ × Value)) → DFSanFunction → DFSanFunction
  | _, [], s => s
  | j, incoming::rest, s => visitPhis b (j+1) rest (visitPHINode s b j incoming)

def visitInsts (b : ℕ) : ℕ → List Inst → DFSanFunction → DFSanFunction
  | _, [], s => s
  | k, I::Is, s => visitInsts b (k+1) Is (visit o F s b k I)

def visitBlock (s : DFSanFunction) (b : ℕ) : DFSanFunction :=
  visitInsts o F b 0 (F.block b).insts (visitPhis b 0 (F.block b).phis s)

def fixup (s : DFSanFunction) (p : ℕ × ℕ × List (ℕ × Value)) : DFSanFunction :=
  let r := getShadows o s (p.2.2.map Prod.snd)
  { r.1 with
    phis := fun b j =>
      if b = p.1 ∧ j = p.2.1 then (p.2.2.map Prod.fst).zip r.2 else r.1.phis b j }

/-- The blocks in the order of `BBList`, then the shadows of the phi nodes. -/
def instrument (BBList : List ℕ) : DFSanFunction :=
  let s := BBList.foldl (visitBlock o F) {}
  s.PHIFixups.foldl (fixup o) s

end Parmesan.ShadowModel
