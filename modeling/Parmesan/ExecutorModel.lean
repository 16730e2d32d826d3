import Parmesan.FastCounter
import Parmesan.SearchModel

/-!
# The executor and the handler of a search

`fuzzer/src/executor/executor.rs`, `cond_stmt/shm_conds.rs` and `search/handler.rs`: one
execution for a condition, the counters kept from one execution to the next, and what the
handler reads from them. What the target does is an `Answer`; a `World` gives it for every
buffer after every history. The counters of the statistics are those that count.
-/

set_option autoImplicit false

namespace Parmesan.ExecutorModel
open Parmesan.CondModel Parmesan.CondOutput Parmesan.DepotModel Parmesan.BranchesModel
open Parmesan.MutInputModel Parmesan.MutInputLens
open Parmesan.TrackModel (Event)
open Parmesan.FastCounter (ShmConds fastRun reset)
open Parmesan.SearchModel (FuzzType getFuzzType MAX_SEARCH_EXEC_NUM)

def TMOUT_SKIP : ℕ := 3
def MAX_INVARIABLE_NUM : ℕ := 16
def BONUS_EXEC_NUM : ℕ := 66
def SLOW_SPEED : ℕ := 888888

structure Cond where
  stmt : CondStmt
  isConsistent : Bool
  fuzzTimes : ℕ
  deriving DecidableEq, Repr

def isFirstTime (c : Cond) : Bool := c.fuzzTimes = 1

def isDet (c : Cond) : Bool := c.stmt.state = .deterministic
def isOneByte (c : Cond) : Bool := c.stmt.state = .oneByte
def isInitial (c : Cond) : Bool := c.stmt.state = .offset || isOneByte c

def toTimeout (c : Cond) : Cond :=
  { c with stmt := { c.stmt with speed := SLOW_SPEED, state := .timeout } }

/-- What one execution shows: the comparisons up to its end, how it ended, and whether the
coverage maps had something new. `reruns` are the runs of `count_time`, `unlimited` is the
one of `try_unlimited_memory`; they happen if the path is new. No execution ends with
`Skip`. -/
structure Answer where
  events : List Event
  status : StatusType
  reported : status ≠ .skip
  hasNewPath : Bool
  reruns : List (List Event)
  unlimited : List Event

section SharedCond

def setCond (shm : CondStmtBase) (c : Cond) : CondStmtBase :=
  if shm.level = 0 then { c.stmt.base with level := 1, lb1 := 2^32-1 }
  else { shm with lb1 := 2^32-1 }

def clearCond (shm : CondStmtBase) : CondStmtBase :=
  { shm with cmpid := 0, order := 0, context := 0, level := 0 }

/-- A child of the fork server resets the runtime before it runs. -/
def runChild (shm : CondStmtBase) (events : List Event) : CondStmtBase :=
  (fastRun (reset shm) events).cond

/-- Without the fork server nothing opens the gate. -/
def runTarget (shm : CondStmtBase) (events : List Event) : CondStmtBase :=
  (fastRun ⟨shm, 0, 0⟩ events).cond

end SharedCond

structure LocalStats where
  fuzzType : FuzzType
  numExec : ℕ
  numInputs : ℕ
  numHangs : ℕ
  numCrashes : ℕ
  deriving DecidableEq, Repr

def clearStats (s : LocalStats) : LocalStats := ⟨s.fuzzType, 0, 0, 0, 0⟩

def register (s : LocalStats) (c : Cond) : LocalStats :=
  clearStats { s with fuzzType := getFuzzType c.stmt.base }

def findNew (s : LocalStats) : StatusType → LocalStats
  | .normal => { s with numInputs := s.numInputs+1 }
  | .timeout => { s with numHangs := s.numHangs+1 }
  | .crash => { s with numCrashes := s.numCrashes+1 }
  | .skip => s
  | .error => s

structure Executor where
  tConds : CondStmtBase
  tmoutCnt : ℕ
  invariableCnt : ℕ
  lastF : ℕ
  hasNewPath : Bool
  localStats : LocalStats

section Executor

/-- The shared memory is new and therefore zero. -/
def newExecutor : Executor where
  tConds := ⟨0, 0, 0, 0, 0, 0, 0, 0, 0, 0, 0, 0, 0⟩
  tmoutCnt := 0
  invariableCnt := 0
  lastF := UNREACHABLE
  hasNewPath := false
  localStats := ⟨.otherFuzz, 0, 0, 0, 0⟩

def runInit (e : Executor) : Executor :=
  { e with
    hasNewPath := false
    localStats := { e.localStats with numExec := e.localStats.numExec+1 } }

def runInner (e : Executor) (a : Answer) : Executor :=
  { e with tConds := runChild e.tConds a.events }

def checkExplored (c : Cond) (output : ℕ) : Cond × Bool :=
  if output = 0 ∧ ¬ isDone c.stmt then ({ c with stmt := markAsDone c.stmt }, true)
  else (c, false)

def checkInvariable (e : Executor) (output : ℕ) (c : Cond) : Executor × Cond × Bool :=
  if output = e.lastF then
    if MAX_INVARIABLE_NUM ≤ e.invariableCnt+1 then
      ({ e with invariableCnt := e.invariableCnt+1, lastF := output },
       { c with stmt := { c.stmt with isDesirable := false } }, !isDet c && !isOneByte c)
    else ({ e with invariableCnt := e.invariableCnt+1, lastF := output }, c, false)
  else ({ e with invariableCnt := 0, lastF := output }, c, false)

def checkConsistent (e : Executor) (output : ℕ) (c : Cond) : Cond :=
  if output = UNREACHABLE ∧ isFirstTime c ∧ e.localStats.numExec = 1 ∧ isInitial c then
    { c with isConsistent := false }
  else c

def checkTimeout (e : Executor) (status : StatusType) (c : Cond) :
    Executor × Cond × StatusType :=
  -- an error of the fork server, which is then bound again, counts as a timeout
  let status := if status = .error then .timeout else status
  if status = .timeout then
    if TMOUT_SKIP ≤ e.tmoutCnt+1 then ({ e with tmoutCnt := 0 }, toTimeout c, .skip)
    else ({ e with tmoutCnt := e.tmoutCnt+1 }, c, status)
  else ({ e with tmoutCnt := 0 }, c, status)

/-- What it saves and tracks is left to the queue. -/
def doIfHasNew (e : Executor) (a : Answer) : Executor :=
  if a.hasNewPath then
    { e with
      hasNewPath := true
      localStats := findNew e.localStats a.status
      tConds := if a.status = .normal
        then runTarget (a.reruns.foldl runChild e.tConds) a.unlimited else e.tConds }
  else e

structure Ran where
  executor : Executor
  cond : Cond
  status : StatusType

def run (e : Executor) (c : Cond) (a : Answer) : Ran :=
  let e := runInner (runInit e) a
  let r := checkTimeout (doIfHasNew e a) a.status c
  ⟨r.1, r.2.1, r.2.2⟩

def runSync (e : Executor) (a : Answer) : Executor := doIfHasNew (runInner (runInit e) a) a

def runWithCond (e : Executor) (c : Cond) (a : Answer) : Ran × ℕ :=
  let e := runInit e
  let e := runInner { e with tConds := setCond e.tConds c } a
  let output := getCondOutput e.tConds
  let explored := checkExplored c output
  let invariable := checkInvariable e output explored.1
  let c := checkConsistent invariable.1 output invariable.2.1
  let r := checkTimeout (doIfHasNew invariable.1 a) a.status c
  (⟨r.1, r.2.1, if explored.2 || invariable.2.2 then .skip else r.2.2⟩, output)

/-- The part of `update_log` that belongs to the executor. -/
def updateLog (e : Executor) : Executor :=
  { e with
    tConds := clearCond e.tConds
    tmoutCnt := 0
    invariableCnt := 0
    lastF := UNREACHABLE }

end Executor

section Handler

/-- An execution of a search; `output` is there if it was measured. -/
structure Executed where
  buf : List UInt8
  output : Option ℕ
  answer : Answer

/-- `running` is the flag that an interrupt clears. -/
structure World where
  answer : List Executed → List UInt8 → Answer
  running : List Executed → Bool

/-- `log` records the executions and is read by the world only. -/
structure SearchHandler where
  executor : Executor
  cond : Cond
  buf : List UInt8
  maxTimes : ℕ
  skip : Bool
  log : List Executed

def newHandler (e : Executor) (c : Cond) (buf : List UInt8) : SearchHandler where
  executor := { e with localStats := register e.localStats c }
  cond := { c with fuzzTimes := c.fuzzTimes+1 }
  buf := buf
  maxTimes := MAX_SEARCH_EXEC_NUM
  skip := false
  log := []

variable (W : World)

def isStoppedOrSkip (h : SearchHandler) : Bool := !W.running h.log || h.skip

def processStatus (h : SearchHandler) (status : StatusType) : SearchHandler :=
  let maxTimes := if h.executor.hasNewPath then h.maxTimes+BONUS_EXEC_NUM else h.maxTimes
  { h with
    maxTimes := maxTimes
    skip := h.skip || status = .skip || maxTimes < h.executor.localStats.numExec }

def finish (h : SearchHandler) (x : Executed) (r : Ran) : SearchHandler :=
  processStatus { h with executor := r.executor, cond := r.cond, log := h.log ++ [x] } r.status

/-- The buffer of the handler stays as it is. -/
def execute (h : SearchHandler) (buf : List UInt8) : SearchHandler :=
  let a := W.answer h.log buf
  finish h ⟨buf, none, a⟩ (run h.executor h.cond a)

def executeInputDirect (h : SearchHandler) : SearchHandler := execute W h h.buf

def executeCondDirect (h : SearchHandler) : SearchHandler × ℕ :=
  let a := W.answer h.log h.buf
  let r := runWithCond h.executor h.cond a
  (finish h ⟨h.buf, some r.2, a⟩ r.1, r.2)

def getFInput (h : SearchHandler) : Option MutInput := fromOffsets h.cond.stmt.offsets h.buf

def executeInput (h : SearchHandler) (m : MutInput) : Option SearchHandler :=
  (writeToInput m h.cond.stmt.offsets h.buf).map fun buf => executeInputDirect W { h with buf }

def executeCond (h : SearchHandler) (m : MutInput) : Option (SearchHandler × ℕ) :=
  (writeToInput m h.cond.stmt.offsets h.buf).map fun buf => executeCondDirect W { h with buf }

end Handler

end Parmesan.ExecutorModel
