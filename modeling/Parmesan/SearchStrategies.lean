import Parmesan.SearchHistory

/-!
# The loops of the search strategies

`search/random.rs`, `mb.rs`, `cbh.rs`, `det.rs` and `one_byte.rs` on top of the handler. A
loop is given the draws of its rounds; `none` is a panic, or a loop that goes on after its
draws are used up.
-/

set_option autoImplicit false

namespace Parmesan.SearchStrategies
open Parmesan.CondModel Parmesan.DepotModel Parmesan.ExecutorModel Parmesan.MutInputModel
open Parmesan.SearchModel (Randomize randomizeAll MAX_SEARCH_EXEC_NUM)

variable (W : World)

section Guided

/-- The loop of `RandomSearch`, `MbSearch` and `CbhSearch`: a round proposes an input,
executes it and learns from its output. -/
def searchLoop {σ : Type} (propose : σ → Randomize → Option MutInput)
    (learn : σ → MutInput → ℕ → σ) :
    List Randomize → σ → SearchHandler → Option (SearchHandler × σ)
  | draws, st, h =>
    if isStoppedOrSkip W h then some (h, st)
    else match draws with
      | [] => none
      | d::ds =>
        (propose st d).bind fun input =>
          (executeCond W h input).bind fun r =>
            searchLoop propose learn ds (learn st input r.2) r.1

def randomize (value : List UInt8) (input : MutInput) (d : Randomize) : Option MutInput :=
  apply (assign input value) (randomizeAll d)

def randomLoop (orig : List UInt8) (draws : List Randomize) (input : MutInput)
    (h : SearchHandler) : Option SearchHandler :=
  (searchLoop W (randomize orig) (fun _ input _ => input) draws input h).map Prod.fst

def randomSearch (draws : List Randomize) (h : SearchHandler) : Option SearchHandler :=
  (getFInput h).bind fun input => randomLoop W input.value draws input h

def mbSearch (draws : List Randomize) (h : SearchHandler) : Option SearchHandler :=
  (getFInput h).bind fun input =>
    if input.metas.length = 0 then none
    else
      let orig := input.value
      let input := assign input h.cond.stmt.vars
      (executeCond W h input).bind fun r => randomLoop W orig draws input r.1

structure Climb where
  input : MutInput
  fmin : ℕ
  inputMin : List UInt8

/-- The value of the input is kept if its output is less. -/
def lower (st : Climb) (input : MutInput) (f : ℕ) : Climb :=
  if f < st.fmin then ⟨input, f, input.value⟩ else { st with input := input }

/-- The first points: the seed, and the variables if they have its length. -/
def cbhStart (input : MutInput) (h : SearchHandler) : Option (SearchHandler × Climb) :=
  (executeCond W h input).bind fun r =>
    let st : Climb := ⟨input, r.2, input.value⟩
    if input.value.length = r.1.cond.stmt.vars.length then
      let input := assign input r.1.cond.stmt.vars
      (executeCond W r.1 input).map fun r => (r.1, lower st input r.2)
    else some (r.1, st)

def cbhLoop : List Randomize → Climb → SearchHandler → Option (SearchHandler × Climb) :=
  searchLoop W (fun st => randomize st.inputMin st.input) lower

def setVars (h : SearchHandler) (vars : List UInt8) : SearchHandler :=
  { h with cond := { h.cond with stmt := { h.cond.stmt with vars := vars } } }

def cbhSearch (draws : List Randomize) (h : SearchHandler) : Option SearchHandler :=
  (getFInput h).bind fun input =>
    if input.metas.length = 0 then none
    else
      (cbhStart W input h).bind fun r =>
        (cbhLoop W draws r.2 r.1).map fun r => setVars r.1 r.2.inputMin

inductive Guided where
  | random
  | mb
  | cbh

def guidedSearch : Guided → List Randomize → SearchHandler → Option SearchHandler
  | .random => randomSearch W
  | .mb => mbSearch W
  | .cbh => cbhSearch W

end Guided

section Local

def bitflipLoop : List ℕ → MutInput → SearchHandler → Option SearchHandler
  | [], _, h => some h
  | i::is, input, h =>
    if isDone h.cond.stmt then some h
    else
      (bitflip input i).bind fun input =>
        (executeCond W h input).bind fun r =>
          (bitflip input i).bind fun input => bitflipLoop is input r.1

def bitflip1 (h : SearchHandler) : Option SearchHandler :=
  (getFInput h).bind fun input =>
    bitflipLoop W (List.range (min (input.value.length*8) MAX_SEARCH_EXEC_NUM)) input h

def detFuzz (h : SearchHandler) : Option SearchHandler := bitflip1 W h

/-- The two functions `execute` and `execute_direct` of `OneByteFuzz`. -/
def oneByteExecute (h : SearchHandler) (input : MutInput) : Option SearchHandler :=
  if isExplore h.cond.stmt.base then (executeCond W h input).map Prod.fst
  else executeInput W h input

def oneByteDirect (h : SearchHandler) : SearchHandler :=
  if isExplore h.cond.stmt.base then (executeCondDirect W h).1 else executeInputDirect W h

def oneByteLoop : List ℕ → MutInput → SearchHandler → Option SearchHandler
  | [], _, h => some h
  | i::is, input, h =>
    if isDone h.cond.stmt then some h
    else
      (set input 0 i).bind fun input =>
        (oneByteExecute W h input).bind fun h => oneByteLoop is input h

def oneByteFuzz (h : SearchHandler) : Option SearchHandler :=
  if isFirstTime h.cond then
    let h := { h with maxTimes := 257 }
    (getFInput h).bind fun input =>
      if input.value.length = 1 then
        oneByteLoop W (List.range 256) input (oneByteDirect W h)
      else none
  else some h

end Local

end Parmesan.SearchStrategies
