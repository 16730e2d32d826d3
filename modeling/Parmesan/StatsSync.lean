import Mathlib.Algebra.BigOperators.Group.Finset.Basic
import Mathlib.Algebra.BigOperators.Ring.Finset
import Mathlib.Data.Fintype.BigOperators
import Parmesan.SearchHistory

/-!
# The statistics of all executors

`stats/chart.rs`: an executor counts for itself and adds its numbers to the common ones
when a search or a pass over foreign inputs is over. It does not clear them then; what
comes next does. The executors take their steps in any order.
-/

set_option autoImplicit false

namespace Parmesan.StatsSync
open Parmesan.ExecutorModel Parmesan.DepotModel Parmesan.BranchesModel
open Parmesan.SearchModel (FuzzType)
open Parmesan.SearchHistory (do_if_has_new_spec)

structure StrategyStats where
  numExec : ℕ
  numInputs : ℕ
  numHangs : ℕ
  numCrashes : ℕ
  deriving DecidableEq, Repr

/-- `fuzz` is an array over the fuzz types. -/
structure ChartStats where
  numRounds : ℕ
  numExec : ℕ
  numInputs : ℕ
  numHangs : ℕ
  numCrashes : ℕ
  fuzz : FuzzType → StrategyStats

def addStrategy (st : StrategyStats) (l : LocalStats) : StrategyStats :=
  ⟨st.numExec+l.numExec, st.numInputs+l.numInputs, st.numHangs+l.numHangs,
    st.numCrashes+l.numCrashes⟩

def syncFromLocal (s : ChartStats) (l : LocalStats) : ChartStats where
  numRounds := s.numRounds+1
  numExec := s.numExec+l.numExec
  numInputs := s.numInputs+l.numInputs
  numHangs := s.numHangs+l.numHangs
  numCrashes := s.numCrashes+l.numCrashes
  fuzz := Function.update s.fuzz l.fuzzType (addStrategy (s.fuzz l.fuzzType) l)

/-- The executors; `logs` are the executions since each of them began, `history` are all.
An execution stands there with the kind of search that it was made for. -/
structure Fleet (ι : Type) where
  executors : ι → Executor
  busy : ι → Bool
  logs : ι → List (FuzzType × Answer)
  chart : ChartStats
  history : List (FuzzType × Answer)

section Steps
variable {ι : Type} [DecidableEq ι]

def begin (s : Fleet ι) (i : ι) (l : LocalStats) : Fleet ι :=
  { s with
    executors := Function.update s.executors i { s.executors i with localStats := l }
    busy := Function.update s.busy i true }

def ran (s : Fleet ι) (i : ι) (e : Executor) (a : Answer) : Fleet ι :=
  let x := ((s.executors i).localStats.fuzzType, a)
  { s with
    executors := Function.update s.executors i e
    logs := Function.update s.logs i (s.logs i ++ [x])
    history := s.history ++ [x] }

def publish (s : Fleet ι) (i : ι) : Fleet ι :=
  { s with
    executors := Function.update s.executors i (updateLog (s.executors i))
    busy := Function.update s.busy i false
    logs := Function.update s.logs i []
    chart := syncFromLocal s.chart (s.executors i).localStats }

/-- One step of one executor: a search or a pass over foreign inputs begins, one execution,
or `update_log` at its end. -/
inductive Step : Fleet ι → Fleet ι → Prop where
  | search (s : Fleet ι) (i : ι) (c : Cond) : s.busy i = false →
      Step s (begin s i (register (s.executors i).localStats c))
  | pass (s : Fleet ι) (i : ι) : s.busy i = false →
      Step s (begin s i (clearStats (s.executors i).localStats))
  | run (s : Fleet ι) (i : ι) (c : Cond) (a : Answer) : s.busy i = true →
      Step s (ran s i (run (s.executors i) c a).executor a)
  | runWithCond (s : Fleet ι) (i : ι) (c : Cond) (a : Answer) : s.busy i = true →
      Step s (ran s i (runWithCond (s.executors i) c a).1.executor a)
  | runSync (s : Fleet ι) (i : ι) (a : Answer) : s.busy i = true →
      Step s (ran s i (runSync (s.executors i) a) a)
  | finish (s : Fleet ι) (i : ι) : s.busy i = true → Step s (publish s i)

end Steps

/-! ## The four counters -/

inductive Kind where
  | exec
  | input
  | hang
  | crash

def localCount (l : LocalStats) : Kind → ℕ
  | .exec => l.numExec
  | .input => l.numInputs
  | .hang => l.numHangs
  | .crash => l.numCrashes

def strategyCount (st : StrategyStats) : Kind → ℕ
  | .exec => st.numExec
  | .input => st.numInputs
  | .hang => st.numHangs
  | .crash => st.numCrashes

def chartCount (s : ChartStats) : Kind → ℕ
  | .exec => s.numExec
  | .input => s.numInputs
  | .hang => s.numHangs
  | .crash => s.numCrashes

/-- Whether an execution counts: all are executions, and the new paths are told apart by
how the execution ended. -/
def counts : Kind → Answer → Bool
  | .exec, _ => true
  | .input, a => a.hasNewPath && a.status = .normal
  | .hang, a => a.hasNewPath && a.status = .timeout
  | .crash, a => a.hasNewPath && a.status = .crash

def counted (k : Kind) (x : FuzzType × Answer) : Bool := counts k x.2

def countedFor (t : FuzzType) (k : Kind) (x : FuzzType × Answer) : Bool := x.1 = t && counts k x.2

section Typed
variable {t t' : FuzzType} {log : List (FuzzType × Answer)}

end Typed

structure Adds (l l' : LocalStats) (a : Answer) : Prop where
  fuzzType : l'.fuzzType = l.fuzzType
  count : ∀ k, localCount l' k = localCount l k+if counts k a then 1 else 0

section Fleet
variable {ι : Type} [Fintype ι]

/-- No execution is lost and none is counted twice: what the common statistics do not have
yet is in the log of an executor that is still busy. -/
structure Exact (s : Fleet ι) : Prop where
  idle : ∀ i, s.busy i = false → s.logs i = []
  own : ∀ i, s.busy i = true → ∀ k, localCount (s.executors i).localStats k =
    (s.logs i).countP (counted k)
  typed : ∀ i, ∀ x ∈ s.logs i, x.1 = (s.executors i).localStats.fuzzType
  total : ∀ k, chartCount s.chart k + ∑ i, (s.logs i).countP (counted k) =
    s.history.countP (counted k)
  perType : ∀ t k, strategyCount (s.chart.fuzz t) k + ∑ i, (s.logs i).countP (countedFor t k) =
    s.history.countP (countedFor t k)

variable {s s' : Fleet ι}

variable [DecidableEq ι]

end Fleet

end Parmesan.StatsSync
