import Parmesan.Outcome
import Mathlib.Algebra.Order.Ring.Nat

/-!
# The taint label set of the tracking runtime

`runtime/src/tag_set.rs`: a label is the index of a node, a node stands for a
path of zero runs (`left`) and one runs (`right`) from the root, and `parent`
is the last one run above it. The Rust fields `begin` and `end` are `start`
and `stop` here. Offsets stay below `MAX_LB`, so no 32-bit sum wraps on the
offsets; the length argument of `infer_shape2` is arbitrary and is reduced.
-/

set_option autoImplicit false

namespace Parmesan.TagSetModel

def labelWidth : ℕ := 22
def MAX_LB : ℕ := 2^labelWidth-1
def ROOT : ℕ := 0

structure TagSeg where
  sign : Bool
  start : ℕ
  stop : ℕ
  deriving DecidableEq, Repr

structure TagNode where
  left : ℕ
  right : ℕ
  parent : ℕ
  andOp : Bool
  seg : TagSeg
  deriving DecidableEq, Repr

structure TagSet where
  nodes : List TagNode
  deriving DecidableEq, Repr

/-- `nodeLimit` is the panic of `new_node`. `divergence` marks a loop that used
up the iterations its measure allows. -/
inductive Fault where
  | nodeLimit
  | divergence
  deriving DecidableEq, Repr

abbrev Outcome := Except Fault

def newTagNode (parent start stop : ℕ) : TagNode :=
  ⟨0, 0, parent, false, ⟨false, start, stop⟩⟩

def newTagSet : TagSet := ⟨[newTagNode ROOT 0 0]⟩

def size (s : TagSet) : ℕ := s.nodes.length

-- The source panics on an index out of range; labels and links never are.
def node (s : TagSet) (lb : ℕ) : TagNode := s.nodes.getD lb (newTagNode ROOT 0 0)

def modifyNode (s : TagSet) (lb : ℕ) (f : TagNode → TagNode) : TagSet :=
  ⟨s.nodes.modify lb f⟩

def setLeft (s : TagSet) (lb v : ℕ) : TagSet := modifyNode s lb fun n => { n with left := v }
def setRight (s : TagSet) (lb v : ℕ) : TagSet := modifyNode s lb fun n => { n with right := v }
def setParent (s : TagSet) (lb v : ℕ) : TagSet := modifyNode s lb fun n => { n with parent := v }
def setStart (s : TagSet) (lb v : ℕ) : TagSet :=
  modifyNode s lb fun n => { n with seg := { n.seg with start := v } }

def newNode (s : TagSet) (parent start stop : ℕ) : Outcome (TagSet × ℕ) :=
  if size s < MAX_LB then .ok (⟨s.nodes ++ [newTagNode parent start stop]⟩, size s)
  else .error .nodeLimit

/-- Every pass uses up at least one of the `n` offsets still to be inserted. -/
def insertNZerosLoop : ℕ → TagSet → ℕ → ℕ → ℕ → Outcome (TagSet × ℕ)
  | 0, s, cur, n, _ => if n = 0 then .ok (s, cur) else .error .divergence
  | fuel+1, s, cur, n, lastOne =>
    if n = 0 then .ok (s, cur) else
    let next := (node s cur).left
    let nextSize := (node s next).seg.stop - (node s next).seg.start
    let off := (node s cur).seg.stop
    if next = 0 then do
      let (s, lb) ← newNode s lastOne off (off+n)
      .ok (setLeft s cur lb, lb)
    else if n < nextSize then do
      let (s, lb) ← newNode s lastOne off (off+n)
      .ok (setStart (setLeft (setLeft s cur lb) lb next) next (off+n), lb)
    else insertNZerosLoop fuel s next (n-nextSize) lastOne

def insertNZeros (s : TagSet) (cur num lastOne : ℕ) : Outcome (TagSet × ℕ) :=
  insertNZerosLoop num s cur num lastOne

/-- The size of a one run is measured from the node above it: a grouped run
keeps the smaller `start` of its group. -/
def insertNOnesLoop : ℕ → TagSet → ℕ → ℕ → ℕ → Outcome (TagSet × ℕ)
  | 0, s, cur, n, _ => if n = 0 then .ok (s, cur) else .error .divergence
  | fuel+1, s, cur, n, lastOne =>
    if n = 0 then .ok (s, cur) else
    let next := (node s cur).right
    let off := (node s cur).seg.stop
    let nextSize := (node s next).seg.stop - off
    if next = 0 then do
      let (s, lb) ← newNode s lastOne off (off+n)
      .ok (setRight s cur lb, lb)
    else if n < nextSize then do
      let (s, lb) ← newNode s lastOne off (off+n)
      let s := setRight (setRight s cur lb) lb next
      .ok (setStart (setParent s next lb) next (off+n), lb)
    else insertNOnesLoop fuel s next (n-nextSize) next

def insertNOnes (s : TagSet) (cur num lastOne : ℕ) : Outcome (TagSet × ℕ) :=
  insertNOnesLoop num s cur num lastOne

def insert (s : TagSet) (offset : ℕ) : Outcome (TagSet × ℕ) := do
  let (s, cur) ← insertNZeros s ROOT offset ROOT
  insertNOnes s cur 1 ROOT

def setSign (s : TagSet) (lb : ℕ) : TagSet :=
  modifyNode s lb fun n => { n with seg := { n.seg with sign := true } }

def getSign (s : TagSet) (lb : ℕ) : Bool := lb < size s && (node s lb).seg.sign

def combineAnd (s : TagSet) (lb : ℕ) : TagSet := modifyNode s lb fun n => { n with andOp := true }

def splitLoop : ℕ → TagSet → ℕ → ℕ → Outcome TagSet
  | 0, s, cur, lb => if cur = lb then .ok s else .error .divergence
  | fuel+1, s, cur, lb =>
    if cur = lb then .ok s else do
      let (s, cur) ← insertNOnes s cur 1 cur
      splitLoop fuel s cur lb

def splitAndOp (s : TagSet) (lb : ℕ) : Outcome (TagSet × ℕ) :=
  let seg := (node s lb).seg
  let p := (node s lb).parent
  if 1 < seg.stop-seg.start ∧ p ≠ ROOT ∧ seg.start ≤ (node s p).seg.start then do
    let s ← if (node s p).seg.stop < seg.stop
      then splitLoop (seg.stop-(node s p).seg.stop) s p lb else .ok s
    .ok (setStart s lb (seg.stop-1), lb)
  else .ok (s, lb)

/-- The step that `find` takes before it reads a segment. -/
def splitMarked (s : TagSet) (lb : ℕ) : Outcome (TagSet × ℕ) :=
  if (node s lb).andOp then splitAndOp s lb else .ok (s, lb)

def inferShape (s : TagSet) (l1 l2 len : ℕ) : Outcome (TagSet × Option ℕ) :=
  if len ≠ 2 ∧ len ≠ 4 ∧ len ≠ 8 then .ok (s, none)
  else if (node s l1).parent = ROOT ∧ (node s l2).parent = ROOT ∧
      (node s l1).seg.start+len = (node s l2).seg.stop then do
    let (s, cur) ← insertNOnes s l1 (len-1) l1
    .ok (setStart s cur (node s l1).seg.start, some cur)
  else .ok (s, none)

def inferIf (infer : Bool) (s : TagSet) (l1 l2 len : ℕ) : Outcome (TagSet × Option ℕ) :=
  if infer then inferShape s l1 l2 len else .ok (s, none)

/-- `none` when the climb meets the root. -/
def climb (s : TagSet) : ℕ → ℕ → Option ℕ
  | 0, cur => some cur
  | k+1, cur => if (node s cur).parent = ROOT then none else climb s k (node s cur).parent

-- `len - 1` is a wrapping 64-bit difference and `len as u32` a truncation.
def inferShape2 (s : TagSet) (lb len : ℕ) : TagSet :=
  if lb = ROOT ∨ (node s lb).seg.start+1 < (node s lb).seg.stop then s
  else match climb s ((len+(2^64-1)) % 2^64) lb with
    | none => s
    | some cur =>
      if (node s cur).parent = ROOT ∧
          ((node s cur).seg.start+len % 2^32) % 2^32 = (node s lb).seg.stop
      then setStart s lb (node s cur).seg.start else s

/-- The climb of `combine`: the node with the larger `start` is left first, and
is put on the stack (head on top) unless a node with no larger `start` is. -/
def combineWalk : ℕ → TagSet → ℕ → ℕ → List ℕ → ℕ → Outcome (ℕ × ℕ × List ℕ)
  | 0, _, l1, l2, st, _ => if l1 = 0 ∨ l1 = l2 then .ok (l1, l2, st) else .error .divergence
  | fuel+1, s, l1, l2, st, lastBegin =>
    if l1 = 0 ∨ l1 = l2 then .ok (l1, l2, st) else
    let b1 := (node s l1).seg.start
    let b2 := (node s l2).seg.start
    if b1 < b2 then
      if b2 < lastBegin then combineWalk fuel s l1 (node s l2).parent (l2::st) b2
      else combineWalk fuel s l1 (node s l2).parent st lastBegin
    else
      if b1 < lastBegin then combineWalk fuel s (node s l1).parent l2 (l1::st) b1
      else combineWalk fuel s (node s l1).parent l2 st lastBegin

def combineStep (s : TagSet) (cur next : ℕ) : Outcome (TagSet × ℕ) :=
  let curSeg := (node s cur).seg
  let nextSeg := (node s next).seg
  if nextSeg.start ≤ curSeg.stop then
    if curSeg.stop < nextSeg.stop then insertNOnes s cur (nextSeg.stop-curSeg.stop) cur
    else .ok (s, cur)
  else do
    let (s, gap) ← insertNZeros s cur (nextSeg.start-curSeg.stop) cur
    insertNOnes s gap (nextSeg.stop-nextSeg.start) cur

def combinePop : TagSet → ℕ → List ℕ → Outcome (TagSet × ℕ)
  | s, cur, [] => .ok (s, cur)
  | s, cur, next::st => do
    let (s', cur') ← combineStep s cur next
    combinePop (if (node s next).seg.sign then setSign s' cur' else s') cur' st

def combine (s : TagSet) (l1 l2 : ℕ) : Outcome (TagSet × ℕ) :=
  if l1 = 0 then .ok (s, l2)
  else if l2 = 0 ∨ l1 = l2 then .ok (s, l1)
  else do
    let lo := min l1 l2
    let hi := max l1 l2
    let (l1, l2, st) ← combineWalk ((node s lo).seg.stop+(node s hi).seg.stop) s lo hi [] MAX_LB
    combinePop s (if 0 < l1 then l1 else l2) st

def combineRest : TagSet → ℕ → List ℕ → Outcome (TagSet × ℕ)
  | s, cur, [] => .ok (s, cur)
  | s, cur, next::rest => do
    let (s, cur) ← combine s cur next
    combineRest s cur rest

def combineN (s : TagSet) (lbs : List ℕ) (infer : Bool) : Outcome (TagSet × ℕ) :=
  match lbs.dropWhile (· = ROOT) with
  | [] => .ok (s, ROOT)
  | [cur] => .ok (s, cur)
  | cur::next::rest => do
    let (s, shape) ← inferIf infer s cur (lbs.getLastD ROOT) lbs.length
    match shape with
    | some lb => .ok (s, lb)
    | none => combineRest s cur (next::rest)

/-- The tag list is built from the label upwards and reversed at the end. -/
def findLoop : ℕ → TagSet → ℕ → List TagSeg → ℕ → Outcome (TagSet × List TagSeg)
  | 0, s, lb, tags, _ => if lb = 0 then .ok (s, tags) else .error .divergence
  | fuel+1, s, lb, tags, lastBegin =>
    if lb = 0 then .ok (s, tags) else do
      let (s, lb) ← splitMarked s lb
      let t := (node s lb).seg
      if t.start < lastBegin then findLoop fuel s (node s lb).parent (t::tags) t.start
      else findLoop fuel s (node s lb).parent tags lastBegin

def find (s : TagSet) (lb : ℕ) : Outcome (TagSet × List TagSeg) :=
  findLoop (node s lb).seg.stop s lb [] MAX_LB

end Parmesan.TagSetModel
