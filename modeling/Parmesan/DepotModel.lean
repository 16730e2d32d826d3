import Parmesan.CondModel
import Parmesan.TagSetModel
import Mathlib.Data.List.AList
import Mathlib.Logic.Function.Basic

/-!
# The queue of conditions

`fuzzer/src/depot/depot.rs` and `qpriority.rs`: conditions are stored under
their site, context and order, each with a priority, and the workers take a
copy of the first one, search with it and write it back. Each operation holds
the lock of the queue. Distances come from the control flow graph and are
arbitrary here.
-/

set_option autoImplicit false

namespace Parmesan.DepotModel
open Parmesan.CondModel Parmesan.TagSetModel

def INIT_PRIORITY : ℕ := 0
def AFL_INIT_PRIORITY : ℕ := 0
def DONE_PRIORITY : ℕ := 2^16-1
def INIT_DISTANCE : ℕ := 2^32-1

/-- The two numbers of a `QPriority`; the smallest pair comes first. -/
structure QPriority where
  level : ℕ
  distance : ℕ
  deriving DecidableEq, Repr

def inc (p : QPriority) (op : ℕ) : QPriority :=
  if op = COND_AFL_OP then ⟨(p.level+2) % 2^16, p.distance⟩ else ⟨(p.level+1) % 2^16, p.distance⟩

def newDistance (p : QPriority) (distance : ℕ) : QPriority := ⟨p.level, distance⟩

def initDistance (op distance : ℕ) : QPriority :=
  if op = COND_AFL_OP then ⟨AFL_INIT_PRIORITY, distance⟩ else ⟨INIT_PRIORITY, distance⟩

def donePriority : QPriority := ⟨DONE_PRIORITY, INIT_DISTANCE⟩

def isDonePriority (p : QPriority) : Bool := p.level = DONE_PRIORITY

def First (p p' : QPriority) : Prop :=
  p.level < p'.level ∨ p.level = p'.level ∧ p.distance ≤ p'.distance

instance (p p' : QPriority) : Decidable (First p p') := inferInstanceAs (Decidable (_ ∨ _))

inductive CondState where
  | offset
  | offsetOpt
  | offsetAll
  | offsetAllEnd
  | oneByte
  | unsolvable
  | deterministic
  | timeout
  deriving DecidableEq, Repr

/-- `vars` is the field `variables`. -/
structure CondStmt where
  base : CondStmtBase
  offsets : List TagSeg
  offsetsOpt : List TagSeg
  vars : List UInt8
  speed : ℕ
  isDesirable : Bool
  state : CondState
  deriving DecidableEq, Repr

abbrev Key := ℕ × ℕ × ℕ

/-- What `PartialEq` and `Hash` look at. -/
def keyOf (c : CondStmt) : Key := (c.base.cmpid, c.base.context, c.base.order)

def isDone (c : CondStmt) : Bool := c.base.condition = COND_DONE_ST

def markAsDone (c : CondStmt) : CondStmt :=
  { c with base := { c.base with condition := COND_DONE_ST }, offsets := [], offsetsOpt := [],
           vars := [] }

def isDiscarded (c : CondStmt) : Bool :=
  isDone c || c.state = .unsolvable || c.state = .timeout

abbrev Queue := AList fun _ : Key => CondStmt × QPriority

/-- `key` is the entry that `peek` returns, one of those that come first. -/
def getEntry (q : Queue) (key : Key) : Option ((CondStmt × QPriority) × Queue) :=
  match q.lookup key with
  | some x =>
    if ∀ y ∈ q.entries, First x.2 y.2.2 then
      some (x, if isDonePriority x.2 then q else q.insert key (x.1, inc x.2 x.1.base.op))
    else none
  | none => none

theorem get_entry_cases {q q' : Queue} {key : Key} {x : CondStmt × QPriority}
    (h : getEntry q key = some (x, q')) :
    q.lookup key = some x ∧ (∀ y ∈ q.entries, First x.2 y.2.2) ∧
      q' = if isDonePriority x.2 then q else q.insert key (x.1, inc x.2 x.1.base.op) := by
  unfold getEntry at h
  cases hx : q.lookup key with
  | none =>
    rw [hx] at h
    cases h
  | some y =>
    simp only [hx] at h
    by_cases hfirst : ∀ e ∈ q.entries, First y.2 e.2.2
    · rw [if_pos hfirst] at h
      obtain ⟨rfl, hq⟩ := Prod.mk.inj (Option.some.inj h)
      exact ⟨rfl, hfirst, hq.symm⟩
    · rw [if_neg hfirst] at h
      cases h

/-- The body of the loop of `add_entries`, and whether it marked the entry. -/
def addEntry (q : Queue) (cond : CondStmt) (distance : ℕ) : Queue × Bool :=
  if cond.isDesirable then
    match q.lookup (keyOf cond) with
    | some v =>
      if isDone v.1 then (q, false)
      else if v.1.base.condition ≠ cond.base.condition then
        (q.insert (keyOf cond) (markAsDone v.1, donePriority), true)
      else if cond.speed < v.1.speed then
        (q.insert (keyOf cond) (cond, initDistance v.1.base.op distance), false)
      else (q, false)
    | none => (q.insert (keyOf cond) (cond, initDistance cond.base.op distance), false)
  else (q, false)

/-- `update_entry`, and whether it stored a done condition. -/
def updateEntry (q : Queue) (cond : CondStmt) (distance : ℕ) : Queue × Bool :=
  match q.lookup (keyOf cond) with
  | some v =>
    let p := if isDiscarded cond then donePriority else newDistance v.2 distance
    (q.insert (keyOf cond) (cond, p), isDone cond)
  | none => (q, false)

/-- The queue, the copy that each worker searches with, and the keys that an
operation has marked done so far. -/
structure Depot (ι : Type) where
  queue : Queue
  held : ι → Option CondStmt
  marked : List Key

inductive Event (ι : Type) where
  | get (w : ι) (key : Key)
  | search (w : ι) (cond : CondStmt)
  | add (conds : List (CondStmt × ℕ))
  | update (w : ι) (distance : ℕ)
  deriving DecidableEq, Repr

variable {ι : Type}

def emptyDepot : Depot ι := ⟨∅, fun _ => none, []⟩

def addOne (d : Depot ι) (c : CondStmt × ℕ) : Depot ι :=
  let r := addEntry d.queue c.1 c.2
  { d with queue := r.1, marked := if r.2 then keyOf c.1 :: d.marked else d.marked }

def writeBack (d : Depot ι) (cond : CondStmt) (distance : ℕ) : Depot ι :=
  let r := updateEntry d.queue cond distance
  { d with queue := r.1, marked := if r.2 then keyOf cond :: d.marked else d.marked }

/-- A worker that holds nothing gets a copy, changes all of it but its key, and
writes it back; entries are added at any time. -/
def next [DecidableEq ι] (d : Depot ι) : Event ι → Option (Depot ι)
  | .get w key =>
    if d.held w = none then
      (getEntry d.queue key).map fun r =>
        { d with queue := r.2, held := Function.update d.held w (some r.1.1) }
    else none
  | .search w cond =>
    match d.held w with
    | some c =>
      if keyOf cond = keyOf c then some { d with held := Function.update d.held w (some cond) }
      else none
    | none => none
  | .add conds => some (conds.foldl addOne d)
  | .update w distance =>
    (d.held w).map fun cond =>
      { writeBack d cond distance with held := Function.update d.held w none }

end Parmesan.DepotModel
