import Mathlib.Algebra.Order.Ring.Nat
import Mathlib.Data.Finset.Basic
import Parmesan.DiffQueue
import Parmesan.EditScript

/-!
# The difference engine

`tools/llvm-diff-parmesan/DifferenceEngine.cpp`: two functions are compared block by
block from their entries on. A block whose instructions do not match one by one is
compared by a shortest edit script. Every assertion that fails is `none` here.
-/

set_option autoImplicit false

namespace Parmesan.DiffModel

/-! ## What the engine reads of a module -/

/-- A constant, with the address that pointer equality compares. Both modules are read
into one context, so that equal integers have one address and globals never have. -/
inductive Constant where
  | global (addr valueId : ℕ) (name : String)
  | expr (addr opcode : ℕ) (predicate : Option ℕ) (operands : List Constant)
  /-- `ConstantPointerNull`, `UndefValue` and `ConstantAggregateZero`. -/
  | blank (addr valueId : ℕ)
  | blockAddress (addr block : ℕ)
  | vector (addr : ℕ) (elements : List Constant)
  /-- Every other constant, equal by its address only. -/
  | plain (addr valueId : ℕ)

/-- The classes that `diff` asks for and the opcodes of all other instructions. -/
inductive Opcode where
  | icmp
  | fcmp
  | call
  | phi
  | invoke
  | br
  | indirectBr
  | switch
  | unreachable
  | other (n : ℕ)
  deriving DecidableEq, Repr

/-- The keys of `Values`. An instruction is known by its opcode and a number of its own. -/
inductive Local where
  | inst (opcode : Opcode) (id : ℕ)
  | arg (index : ℕ)
  deriving DecidableEq, Repr

inductive Value where
  | const (c : Constant)
  | loc (l : Local)
  | block (b : ℕ)
  /-- Inline assembly and metadata. -/
  | other (valueId : ℕ)

structure Ty where
  id : ℕ
  isPointer : Bool
  deriving DecidableEq, Repr

inductive Body where
  | cmp (float : Bool) (predicate : ℕ) (operands : List Value)
  | call (callee : Value) (args : List Value)
  | phi (ty : Ty)
  | invoke (callee : Value) (args : List Value) (normal unwind : ℕ)
  /-- `cond` holds the condition and the second successor of a conditional branch. -/
  | br (cond : Option (Value × ℕ)) (dest : ℕ)
  | indirectBr (address : Value) (dests : List ℕ)
  | switch (cond : Value) (dflt : ℕ) (cases : List (ℕ × ℕ))
  | unreachable
  | other (n : ℕ) (operands : List Value)

/-- `used` is the negation of `use_empty`. -/
structure Instruction where
  id : ℕ
  used : Bool
  body : Body

def Body.opcode : Body → Opcode
  | .cmp float _ _ => if float then .fcmp else .icmp
  | .call _ _ => .call
  | .phi _ => .phi
  | .invoke _ _ _ _ => .invoke
  | .br _ _ => .br
  | .indirectBr _ _ => .indirectBr
  | .switch _ _ _ => .switch
  | .unreachable => .unreachable
  | .other n _ => .other n

def Instruction.value (i : Instruction) : Local := .inst i.body.opcode i.id

def Body.successors : Body → List ℕ
  | .invoke _ _ normal unwind => [normal, unwind]
  | .br none dest => [dest]
  | .br (some c) dest => [c.2, dest]
  | .indirectBr _ dests => dests
  | .switch _ dflt cases => dflt :: cases.map Prod.snd
  | _ => []

abbrev Block := List Instruction

/-- The blocks are known by their position; the first one is the entry, and a function
without blocks is a declaration. -/
structure Fn where
  name : String
  args : ℕ
  blocks : List Block

def Fn.block (f : Fn) (b : ℕ) : Block := f.blocks.getD b []

/-! ## What the engine tells its consumer -/

inductive Place where
  | function (name : String)
  | block (fn : String) (b : ℕ)
  | instruction (fn : String) (l : Local)
  deriving DecidableEq, Repr

inductive Line where
  | both (l r : Local)
  | left (l : Local)
  | right (r : Local)
  deriving DecidableEq, Repr

/-- The calls of a consumer. Of a formatted message the format is kept. -/
inductive Event where
  | enterContext (L R : Place)
  | exitContext
  | log (text : String)
  | logd (lines : List Line)
  deriving DecidableEq, Repr

def Event.isLog : Event → Bool
  | .log _ | .logd _ => true
  | _ => false

/-! ## Operands -/

mutual

def equivalentConstants (blocks : ℕ → Option ℕ) : Constant → Constant → Bool
  | .global la lv ln, .global ra rv rn => la == ra || (lv == rv && ln == rn)
  | .expr la lo lp ls, .expr ra ro rp rs =>
    la == ra || (lo == ro && lp == rp && equivalentLists blocks ls rs)
  | .blank la lv, .blank ra rv => la == ra || lv == rv
  | .blockAddress la lb, .blockAddress ra rb => la == ra || blocks lb == some rb
  | .vector la ls, .vector ra rs => la == ra || equivalentLists blocks ls rs
  | .plain la _, .plain ra _ => la == ra
  -- the value ids differ
  | _, _ => false

def equivalentLists (blocks : ℕ → Option ℕ) : List Constant → List Constant → Bool
  | [], [] => true
  | l::ls, r::rs => equivalentConstants blocks l r && equivalentLists blocks ls rs
  | _, _ => false

end

/-- `equivalentAsOperands`. The value id of an instruction holds its opcode, and a block
is taken as equivalent when it is not mapped to the other one. -/
def equivalentAsOperands (values : Local → Option Local) (tentative : List (Local × Local))
    (blocks : ℕ → Option ℕ) : Value → Value → Bool
  | .const l, .const r => equivalentConstants blocks l r
  | .loc (.inst lo l), .loc (.inst ro r) =>
    lo == ro && (values (.inst lo l) == some (.inst ro r) ||
      tentative.contains (.inst lo l, .inst ro r))
  | .loc (.arg l), .loc (.arg r) => values (.arg l) == some (.arg r)
  | .block l, .block r => blocks l != some r
  | .other l, .other r => l == r
  | _, _ => false

/-! ## Instructions -/

/-- What `diff` does on two instructions, in order: complain, or unify two successors. -/
inductive Step where
  | complain (text : String)
  | unify (L R : ℕ)
  deriving DecidableEq, Repr

def Step.isComplaint : Step → Bool
  | .complain _ => true
  | .unify _ _ => false

section Steps
variable (eqv : Value → Value → Bool)

def sameOperands : List Value → List Value → Bool
  | l::ls, r::rs => eqv l r && sameOperands ls rs
  | _, _ => true

def diffCallSites (lc rc : Value) (la ra : List Value) : List Step :=
  if !eqv lc rc then [.complain "called functions differ"]
  else if la.length ≠ ra.length then [.complain "argument counts differ"]
  else if !sameOperands eqv la ra then [.complain "arguments %l and %r differ"]
  else []

def diffOperands (ls rs : List Value) : List Step :=
  if ls.length ≠ rs.length then [.complain "instructions have different operand counts"]
  else if !sameOperands eqv ls rs then [.complain "operands %l and %r differ"]
  else []

def leftCases (cases : List (ℕ × ℕ)) : List (ℕ × ℕ) :=
  cases.foldl (fun m c => c :: m.filter fun e => e.1 != c.1) []

/-- The loop over the right cases, and what it leaves of `LCases`. -/
def rightCases : List (ℕ × ℕ) → List (ℕ × ℕ) → List Step × List (ℕ × ℕ)
  | LCases, [] => ([], LCases)
  | LCases, c::cs =>
    match LCases.lookup c.1 with
    | some LCase =>
      let rest := rightCases (LCases.filter fun e => e.1 != c.1) cs
      (.unify LCase c.2 :: rest.1, rest.2)
    | none =>
      let rest := rightCases LCases cs
      (.complain "right switch has extra case %r" :: rest.1, rest.2)

def diffSwitchCases (lcases rcases : List (ℕ × ℕ)) : List Step :=
  let done := rightCases (leftCases lcases) rcases
  if done.1.any Step.isComplaint then done.1
  else done.1 ++ done.2.map fun _ => .complain "left switch has extra case %l"

def diffSteps : Body → Body → List Step
  | .cmp lf lp ls, .cmp rf rp rs =>
    if lf ≠ rf then [.complain "different instruction types"]
    else if lp ≠ rp then [.complain "different predicates"]
    else diffOperands eqv ls rs
  | .call lc la, .call rc ra => diffCallSites eqv lc rc la ra
  | .phi lt, .phi rt =>
    if lt ≠ rt ∧ (!lt.isPointer || !rt.isPointer) then [.complain "different phi types"] else []
  | .invoke lc la ln lu, .invoke rc ra rn ru =>
    match diffCallSites eqv lc rc la ra with
    | [] => [.unify ln rn, .unify lu ru]
    | steps => steps
  | .br none ld, .br none rd => [.unify ld rd]
  | .br (some lc) ld, .br (some rc) rd =>
    if !eqv lc.1 rc.1 then [.complain "branch conditions differ"]
    else [.unify lc.2 rc.2, .unify ld rd]
  | .br _ _, .br _ _ => [.complain "branch conditionality differs"]
  | .indirectBr la ld, .indirectBr ra rd =>
    if ld.length ≠ rd.length then [.complain "indirectbr # of destinations differ"]
    else if !eqv la ra then [.complain "indirectbr addresses differ"]
    else (ld.zip rd).map fun p => .unify p.1 p.2
  | .switch lc ld lcases, .switch rc rd rcases =>
    if !eqv lc rc then [.complain "switch conditions differ"]
    else .unify ld rd :: diffSwitchCases lcases rcases
  | .unreachable, .unreachable => []
  | .other ln ls, .other rn rs =>
    if ln ≠ rn then [.complain "different instruction types"] else diffOperands eqv ls rs
  | _, _ => [.complain "different instruction types"]

end Steps

/-! ## The function-scope engine -/

/-- `events` holds what the consumer was told, the latest call first. -/
structure Fde where
  Values : Local → Option Local
  Blocks : ℕ → Option ℕ
  TentativeValues : List (Local × Local)
  Queue : Array (ℕ × ℕ)
  events : List Event

inductive Fault where
  /-- "structural differences second time around?" -/
  | structural
  /-- An iterator is read at the end of its block. -/
  | iterator
  /-- `Path.back()` of an empty path. -/
  | emptyPath
  | fuel
  deriving DecidableEq, Repr

/-- The edges into `b` from blocks that `Blocks` does not hold yet. An entry that reading
`Blocks[...]` for a block address or a label has created counts as held in the source, too:
no result rests on this order. -/
def getUnprocPredCount (f : Fn) (Blocks : ℕ → Option ℕ) (b : ℕ) : ℕ :=
  ((List.range f.blocks.length).map fun p =>
    if (Blocks p).isSome then 0
    else ((f.block p).flatMap fun i => i.body.successors).count b).sum

/-- The order of the queue after all that happened so far. -/
abbrev Sorter := Fde → ℕ × ℕ → ℕ × ℕ → Bool

def queueSorter (f : Fn) : Sorter := fun s Old New =>
  decide (getUnprocPredCount f s.Blocks Old.1 < getUnprocPredCount f s.Blocks New.1)

namespace Fde

def tell (s : Fde) (e : Event) : Fde := { s with events := e :: s.events }

def equivalent (s : Fde) : Value → Value → Bool :=
  equivalentAsOperands s.Values s.TentativeValues s.Blocks

def setValue (s : Fde) (l r : Local) : Fde :=
  { s with Values := fun k => if k = l then some r else s.Values k }

def setBlock (s : Fde) (L R : ℕ) : Fde :=
  { s with Blocks := fun k => if k = L then some R else s.Blocks k }

def setUsed (s : Fde) (l : Instruction) (r : Local) : Fde :=
  if l.used then s.setValue l.value r else s

def addTentative (s : Fde) (l r : Instruction) : Fde :=
  if l.used then { s with TentativeValues := (l.value, r.value) :: s.TentativeValues } else s

@[simp] theorem tell_events (s : Fde) (e : Event) : (s.tell e).events = e :: s.events := rfl

@[simp] theorem set_used_events (s : Fde) (l : Instruction) (r : Local) :
    (s.setUsed l r).events = s.events := by
  unfold setUsed
  split_ifs <;> rfl

theorem set_used_eq (s : Fde) (l : Instruction) (r : Local) :
    s.setUsed l r = { s with Values := (s.setUsed l r).Values } := by
  unfold setUsed
  split_ifs <;> rfl

@[simp] theorem add_tentative_events (s : Fde) (l r : Instruction) :
    (s.addTentative l r).events = s.events := by
  unfold addTentative
  split_ifs <;> rfl

end Fde

section Engine
variable (sorter : Sorter) (L R : Fn)

def tryUnify (s : Fde) (l r : ℕ) : Fde :=
  match s.Blocks l with
  | some Ref =>
    if Ref = r then s
    else s.tell (.log "successor %l cannot be equivalent to %r; it's already equivalent to %r")
  | none =>
    let s := s.setBlock l r
    { s with Queue := DiffQueue.insert (sorter s) s.Queue (l, r) }

def runStep (Complain TryUnify : Bool) (s : Fde) : Step → Fde
  | .complain text => if Complain then s.tell (.log text) else s
  | .unify l r => if TryUnify then tryUnify sorter s l r else s

def diffInst (Complain TryUnify : Bool) (s : Fde) (l r : Instruction) : Bool × Fde :=
  let steps := diffSteps s.equivalent l.body r.body
  (steps.any Step.isComplaint, steps.foldl (runStep sorter Complain TryUnify) s)

def unify (s : Fde) (l r : Instruction) : Except Fault Fde :=
  let done := diffInst sorter true true
    (s.tell (.enterContext (.instruction L.name l.value) (.instruction R.name r.value))) l r
  if done.1 then .error .structural else .ok ((done.2.setUsed l r.value).tell .exitContext)

def scan : Fde → Block → Block → Except Fault (Bool × Fde)
  | s, l::ls, r::rs =>
    let done := diffInst sorter false false s l r
    if done.1 then .ok (true, done.2)
    else if ls.isEmpty then .ok (false, done.2.addTentative l r)
    else scan (done.2.addTentative l r) ls rs
  | _, _, _ => .error .iterator

def unifyAll : Fde → Block → Block → Except Fault Fde
  | s, l::ls, r::rs => (unify sorter L R s l r).bind fun s => unifyAll s ls rs
  | s, [], _ => .ok s
  | _, _, _ => .error .iterator

/-! ### The edit script of two blocks -/

end Engine

abbrev DiffChange := EditScript.Change

structure DiffEntry where
  Cost : ℕ
  Path : List DiffChange
  deriving DecidableEq, Repr

def LeftCost : ℕ := 2
def RightCost : ℕ := 2
def MatchCost : ℕ := 0

def DiffEntry.add (e : DiffEntry) (cost : ℕ) (change : DiffChange) : DiffEntry :=
  ⟨e.Cost+cost, e.Path ++ [change]⟩

def firstColumn (NL : ℕ) : List DiffEntry :=
  (List.range (NL+1)).map fun I => ⟨I*LeftCost, List.replicate I .left⟩

section Columns
variable {ι : Type} (accepts : List (ι × ι) → ι → ι → Bool)

/-- One pass over the left instructions: `prev` is `Next[Index-1]` and the list starts at
`Cur[Index-1]`. -/
def nextEntries (r : ι) : DiffEntry → List ι → List DiffEntry → List (ι × ι) →
    List DiffEntry × List (ι × ι)
  | prev, l::ls, c::d::cur, tentative =>
    if accepts tentative l r then
      let entry := c.add MatchCost .both
      let rest := nextEntries r entry ls (d::cur) ((l, r) :: tentative)
      (entry :: rest.1, rest.2)
    else
      let entry := if prev.Cost ≤ d.Cost then prev.add LeftCost .left
        else d.add RightCost .right
      let rest := nextEntries r entry ls (d::cur) tentative
      (entry :: rest.1, rest.2)
  | _, _, _, tentative => ([], tentative)

def nextColumn (ls : List ι) (state : List DiffEntry × List (ι × ι)) (r : ι) :
    List DiffEntry × List (ι × ι) :=
  match state.1 with
  | [] => state
  | first::cur =>
    let top := first.add RightCost .right
    let rest := nextEntries accepts r top ls (first::cur) state.2
    (top :: rest.1, rest.2)

/-- `Cur[NL]` after the loop over the right instructions. -/
def lastEntry (ls rs : List ι) : DiffEntry :=
  (rs.foldl (nextColumn accepts ls) (firstColumn ls.length, [])).1.getD ls.length ⟨0, []⟩

end Columns

section Engine
variable (sorter : Sorter) (L R : Fn)

/-- `TentativeValues` holds pairs of instructions; operands read their values. -/
def matchForBlockDiff (s : Fde) (tentative : List (Instruction × Instruction))
    (l r : Instruction) : Bool :=
  let s := { s with TentativeValues := tentative.map fun p => (p.1.value, p.2.value) }
  !(diffInst sorter false false s l r).1

def dropTrailingMatches (Path : List DiffChange) : Except Fault (List DiffChange) :=
  match Path.reverse.dropWhile (· = .both) with
  | [] => .error .emptyPath
  | rest => .ok rest.reverse

def skipLeadingMatches : Fde → List DiffChange → Block → Block →
    Except Fault (Fde × List DiffChange × Block × Block)
  | s, .both::Path, l::ls, r::rs =>
    (unify sorter L R s l r).bind fun s => skipLeadingMatches s Path ls rs
  | _, .both::_, _, _ => .error .iterator
  | s, Path, ls, rs => .ok (s, Path, ls, rs)

/-- The loop over the rest of the path, with the lines for the `DiffLogBuilder`. -/
def followPath :
    Fde → List DiffChange → Block → Block → Except Fault (Fde × List Line × Block × Block)
  | s, [], ls, rs => .ok (s, [], ls, rs)
  | s, .both::Path, l::ls, r::rs =>
    (unify sorter L R s l r).bind fun s =>
      (followPath s Path ls rs).map fun d => (d.1, .both l.value r.value :: d.2.1, d.2.2)
  | s, .left::Path, l::ls, rs =>
    (followPath s Path ls rs).map fun d => (d.1, .left l.value :: d.2.1, d.2.2)
  | s, .right::Path, ls, r::rs =>
    (followPath s Path ls rs).map fun d => (d.1, .right r.value :: d.2.1, d.2.2)
  | _, _, _, _ => .error .iterator

/-- An invoke on one side and a call with an unconditional branch on the other. -/
def unifyInvoke (s : Fde) (Lb Rb : Block) : Fde :=
  match Lb.reverse, Rb.reverse with
  | lterm::lrest, rterm::rrest =>
    match lterm.body, rterm.body, lrest, rrest with
    | .br none dest, .invoke rcallee _ normal _, lcall::_, _ =>
      match lcall.body with
      | .call lcallee _ =>
        if s.equivalent lcallee rcallee then
          tryUnify sorter (s.setUsed lcall rterm.value) dest normal
        else s
      | _ => s
    | .invoke lcallee _ normal _, .br none dest, _, rcall::_ =>
      match rcall.body with
      | .call rcallee _ =>
        if s.equivalent lcallee rcallee then
          tryUnify sorter (s.setUsed lterm rcall.value) normal dest
        else s
      | _ => s
    | _, _, _, _ => s
  | _, _ => s

/-- The lines reach the consumer when the builder is destroyed, at the end. -/
def runBlockDiff (s : Fde) (Lb Rb : Block) : Except Fault Fde :=
  let Path := (lastEntry (matchForBlockDiff sorter s) Lb Rb).Path
  (dropTrailingMatches Path).bind fun Path =>
  (skipLeadingMatches sorter L R s Path Lb Rb).bind fun d =>
  (followPath sorter L R d.1 d.2.1 d.2.2.1 d.2.2.2).bind fun e =>
  (unifyAll sorter L R e.1 e.2.2.1 e.2.2.2).map fun s =>
    (unifyInvoke sorter s Lb Rb).tell (.logd e.2.1)

def diffBlock (s : Fde) (l r : ℕ) : Except Fault Fde :=
  let s := s.tell (.enterContext (.block L.name l) (.block R.name r))
  (scan sorter s (L.block l) (R.block r)).bind fun d =>
    let s := { d.2 with TentativeValues := [] }
    let done := if d.1 then runBlockDiff sorter L R s (L.block l) (R.block r)
      else unifyAll sorter L R s (L.block l) (R.block r)
    done.map fun s => s.tell .exitContext

def processQueue : ℕ → Fde → Except Fault Fde
  | fuel, s =>
    match DiffQueue.removeMin (sorter s) true s.Queue with
    | none => .ok s
    | some (Pair, rest) =>
      match fuel with
      | 0 => .error .fuel
      | fuel+1 =>
        (diffBlock sorter L R { s with Queue := rest } Pair.1 Pair.2).bind (processQueue fuel)

def newFde (events : List Event) : Fde := ⟨fun _ => none, fun _ => none, [], #[], events⟩

def mapArguments (s : Fde) : Fde :=
  { s with
    Values := fun k => match k with
      | .arg i => if i < L.args ∧ i < R.args then some (.arg i) else none
      | .inst _ _ => none }

/-- `FunctionDifferenceEngine::diff`. Every left block is queued at most once. -/
def diffBodies (events : List Event) : Except Fault Fde :=
  let s := newFde events
  let s := if L.args ≠ R.args then s.tell (.log "different argument counts") else s
  processQueue sorter L R L.blocks.length (tryUnify sorter (mapArguments L R s) 0 0)

end Engine

/-! ## Functions and modules -/

def diffFunctions (sorter : Fn → Sorter) (events : List Event) (L R : Fn) :
    Except Fault (List Event) :=
  let events := .enterContext (.function L.name) (.function R.name) :: events
  let done := if L.blocks = [] ∧ R.blocks = [] then .ok events
    else if L.blocks = [] then
      .ok (.log "left function is declaration, right function is definition" :: events)
    else if R.blocks = [] then
      .ok (.log "right function is declaration, left function is definition" :: events)
    else (diffBodies (sorter L) L R events).map Fde.events
  done.map fun events => .exitContext :: events

/-- `Module::getFunction`. A function without a name is not in the table. -/
def getFunction (m : List Fn) (name : String) : Option Fn :=
  if name = "" then none else m.find? fun f => f.name = name

def diffModules (sorter : Fn → Sorter) (L R : List Fn) : Except Fault (List Event) :=
  let missing := L.foldl (fun events f =>
    if (getFunction R f.name).isSome then events
    else .log "function %l exists only in left module" :: events) []
  let events := R.foldl (fun events f =>
    if f.name ∈ L.map Fn.name then events
    else .log "function %r exists only in right module" :: events) missing
  let Queue := L.filterMap fun f => (getFunction R f.name).map fun g => (f, g)
  Queue.foldlM (fun events p => diffFunctions sorter events p.1 p.2) events

end Parmesan.DiffModel
