import Parmesan.AflSync
import Parmesan.CondOutput
import Parmesan.CondState
import Parmesan.MutInputLens

/-!
# The search strategies

The files of `fuzzer/src/search`. A search starts from the buffer of a seed and
hands buffers to the executor. Numbers drawn and answers of the executor are
arguments, a panic ends the list of buffers.
-/

set_option autoImplicit false

namespace Parmesan.SearchModel
open Parmesan.CondModel Parmesan.CondOutput Parmesan.DepotModel Parmesan.TagSetModel
open Parmesan.MutInputModel Parmesan.MutInputLens
open Parmesan.AflSync (maxInputLen)
open Parmesan.TrackList (isExploitable)

def randomBytes (fill : ℕ → UInt8) (n : ℕ) : List UInt8 := (List.range n).map fill

@[simp] theorem random_bytes_length (fill : ℕ → UInt8) (n : ℕ) :
    (randomBytes fill n).length = n := by simp [randomBytes]

section Afl

def ENABLE_RANDOM_LEN : Bool := false
def RANDOM_LEN_NUM : ℕ := 30
def IDX_TO_SIZE : List ℕ := [1, 2, 4, 8]

/-- The positions below `len` of the first and of the last byte that differs. -/
def locateDiffs (buf1 buf2 : List UInt8) : ℕ → Option ℕ × Option ℕ
  | 0 => (none, none)
  | i+1 =>
    let locs := locateDiffs buf1 buf2 i
    if buf1[i]? ≠ buf2[i]? then (some (locs.1.getD i), some i) else locs

def spliceTwoVec (buf1 buf2 : List UInt8) (draw : ℕ) : Option (List UInt8) :=
  let len := min buf1.length buf2.length
  if len < 2 then none
  else match locateDiffs buf1 buf2 len with
    | (some fLoc, some lLoc) =>
      if fLoc = lLoc then none
      else
        let splitAt := fLoc+draw % (lLoc-fLoc)
        some (buf1.take splitAt ++ buf2.drop splitAt)
    | _ => none

/-- One round of `havoc_flip`, with the numbers drawn in it. -/
inductive Havoc where
  | flip (byteIdx bitIdx : ℕ)
  | arith (n byteIdx v : ℕ) (direction : Bool)
  | interesting (n byteIdx wh : ℕ)
  | randomByte (byteIdx : ℕ) (val : UInt8)
  | delete (removeLen byteIdx : ℕ)
  | insert (addLen byteIdx : ℕ) (fill : ℕ → UInt8)

/-- The state is the buffer and `byte_len`. A draw that its range does not hold,
and a range that is empty, give `none`. -/
def havocRound (st : List UInt8 × ℕ) : Havoc → Option (List UInt8 × ℕ)
  | .flip byteIdx bitIdx =>
    if byteIdx < st.2 ∧ bitIdx < 8 then
      st.1[byteIdx]?.map fun b => (st.1.set byteIdx (b ^^^ (128 >>> UInt8.ofNat bitIdx)), st.2)
    else none
  | .arith n byteIdx v direction =>
    if n < 3 then
      IDX_TO_SIZE[n]?.bind fun size =>
        if size < st.2 then
          if byteIdx < st.2-size ∧ v < MUTATE_ARITH_MAX then
            (updateValInBuf st.1 false byteIdx size direction v).map fun buf => (buf, st.2)
          else none
        else some st
    else none
  | .interesting n byteIdx wh =>
    if n < 3 then
      IDX_TO_SIZE[n]?.bind fun size =>
        if size < st.2 then
          if byteIdx < st.2-size then
            (getInterestingBytes size)[wh]?.bind fun v =>
              (setValInBuf st.1 byteIdx size v).map fun buf => (buf, st.2)
          else none
        else some st
    else none
  | .randomByte byteIdx val =>
    if byteIdx < st.2 ∧ byteIdx < st.1.length then some (st.1.set byteIdx val, st.2) else none
  | .delete removeLen byteIdx =>
    if 1 ≤ removeLen ∧ removeLen < 5 then
      if removeLen < st.2 then
        if byteIdx < st.2-removeLen ∧ byteIdx+removeLen ≤ st.1.length then
          some (st.1.take byteIdx ++ st.1.drop (byteIdx+removeLen), st.2-removeLen)
        else none
      else some st
    else none
  | .insert addLen byteIdx fill =>
    if 1 ≤ addLen ∧ addLen < 5 then
      if st.2+addLen < maxInputLen then
        if byteIdx < st.2 ∧ byteIdx ≤ st.1.length then
          some (st.1.take byteIdx ++ randomBytes fill addLen ++ st.1.drop byteIdx, st.2+addLen)
        else none
      else some st
    else none

def havocStacking (buf : List UInt8) : ℕ := if buf.length ≤ 16 then 64 else 256

def havocFlip (buf : List UInt8) (rounds : List Havoc) : Option (List UInt8) :=
  if 1 ≤ rounds.length ∧ rounds.length ≤ havocStacking buf then
    (rounds.foldlM havocRound (buf, buf.length % 2^32)).map Prod.fst
  else none

def growLoop : List UInt8 → List (List UInt8) → List (List UInt8)
  | _, [] => []
  | buf, v::vs =>
    if (buf ++ v).length < maxInputLen then (buf ++ v)::growLoop (buf ++ v) vs else []

def randomLen (buf : List UInt8) (draw : ℕ → ℕ) (fill : ℕ → ℕ → UInt8) : List (List UInt8) :=
  if maxInputLen < buf.length then []
  -- the remainder by an empty length panics
  else if buf.length = 0 then []
  else growLoop buf ((List.range RANDOM_LEN_NUM).map fun k =>
    randomBytes (fill k) (draw k % buf.length+1))

def addSmallLen (buf : List UInt8) (fill : ℕ → ℕ → UInt8) : List (List UInt8) :=
  if maxInputLen < buf.length then []
  else growLoop buf ((List.range 4).map fun k => randomBytes (fill k) (2^k))

def aflLen (buf : List UInt8) (draw : ℕ → ℕ) (fill : ℕ → ℕ → UInt8) : List (List UInt8) :=
  if ENABLE_RANDOM_LEN then randomLen buf draw fill else addSmallLen buf fill

end Afl

section Len

def extendedLen (base : CondStmtBase) : ℕ := getOutput base*base.lb2 % 2^64

def specialChars : List UInt8 := [0, 10, 13, 32]

def lenFuzz (base : CondStmtBase) (buf : List UInt8) (fill : ℕ → UInt8) : List (List UInt8) :=
  if 0 < getOutput base ∧ extendedLen base < maxInputLen then
    let bufLen := buf.length
    let ext := extendedLen base
    let grown := buf ++ randomBytes fill (ext+1)
    let grows := bufLen+ext < maxInputLen
    let longer := if grows then
        grown::(specialChars.map fun c => grown ++ [c]) ++ [grown.dropLast]
      else []
    let cut := (if grows then grown.dropLast else buf).take (bufLen-ext)
    let shorter := if ext < bufLen then
        cut::(if ext+1 < bufLen then [cut.dropLast] else [])
      else []
    longer ++ shorter
  else []

end Len

section Handler

structure Handler where
  buf : List UInt8
  offsets : List TagSeg

def getFInput (h : Handler) : Option MutInput := fromOffsets h.offsets h.buf

/-- `execute_input` and `execute_cond` hand the buffer of the result to the executor. -/
def executeInput (h : Handler) (m : MutInput) : Option Handler :=
  (writeToInput m h.offsets h.buf).map fun buf => { h with buf }

def insertBytes (h : Handler) (n : ℕ) : Option Handler :=
  h.offsets.getLast?.bind fun last =>
    let buf := if h.buf.length ≤ last.stop then zeroExtend h.buf (last.stop+1) else h.buf
    buf[last.start]?.map fun v =>
      ⟨buf.take last.start ++ List.replicate n v ++ buf.drop last.start,
       h.offsets ++ (List.range n).map fun i =>
         ⟨false, (last.stop+i) % 2^32, (last.stop+i+1) % 2^32⟩⟩

/-- The body of the loop of `remove_bytes`. -/
def removeByte (h : Handler) : Option Handler :=
  h.offsets.getLast?.bind fun last =>
    let off := last.start
    let size := (last.stop+2^64-off) % 2^64
    if off < h.buf.length then
      some ⟨h.buf.eraseIdx off,
        if 1 < size then h.offsets.dropLast ++ [{ last with stop := last.stop-1 }]
        else h.offsets.dropLast⟩
    else none

def removeBytes : Handler → ℕ → Option Handler
  | h, 0 => some h
  | h, n+1 => (removeByte h).bind fun h => removeBytes h n

/-- `vars` with the difference of the mapping taken from every byte it covers. -/
def shiftVars (vars output inputVals : List UInt8) : List UInt8 :=
  (List.range vars.length).map fun i =>
    let v := vars[i]?.getD 0
    match output[i]?, inputVals[i]? with
    | some o, some x => v-(o-x)
    | _, _ => v

def resizeInput (h : Handler) (inputLen len : ℕ) : Option Handler :=
  if inputLen < len then insertBytes h (len-inputLen)
  else if len < inputLen then removeBytes h (inputLen-len)
  else some h

/-- The buffer that is executed: none where the source panics, and none where it
returns early because the variables are too short. -/
def fnFuzz (c : CondStmt) (buf : List UInt8) : Option (List UInt8) :=
  let len := c.base.size
  (getFInput ⟨buf, c.offsets⟩).bind fun input =>
    if c.vars.length < len then none
    else (resizeInput ⟨buf, c.offsets⟩ input.value.length len).bind fun h =>
      (getFInput h).bind fun input =>
        if input.value.length = len then
          let vars := shiftVars (c.vars.take len) (c.vars.drop len) input.value
          (executeInput h (assign input vars)).map Handler.buf
        else none

end Handler

section Cond

/-- `direct` runs the buffer as it is. An input is changed by some operations, after
it was read again if it is `fresh`, and written back. -/
inductive Exec where
  | direct
  | input (fresh : Bool) (ops : List Op)

/-- `explored` says that the executor solved the condition, which clears its offsets. -/
structure Trial where
  exec : Exec
  explored : Bool

def runExec (h : Handler) (m : MutInput) : Exec → Option (Handler × MutInput)
  | .direct => some (h, m)
  | .input fresh ops =>
    (if fresh then getFInput h else some m).bind fun m =>
      (ops.foldlM apply m).bind fun m =>
        (executeInput h m).map fun h => (h, m)

def runTrials : Handler → MutInput → List Trial → List (List UInt8)
  | _, _, [] => []
  | h, m, t::ts =>
    match runExec h m t.exec with
    | none => []
    | some (h, m) =>
      h.buf::runTrials { h with offsets := if t.explored then [] else h.offsets } m ts

def untilExplored : List Trial → List Trial
  | [] => []
  | t::ts => t::if t.explored then [] else untilExplored ts

def MAX_SEARCH_EXEC_NUM : ℕ := 376

inductive Randomize where
  | uniform (fill : ℕ → UInt8)
  | mutBased (rounds : List Mutation)

def randomizeAll : Randomize → Op
  | .uniform fill => .randomizeUniform fill
  | .mutBased rounds => .randomizeMutBased rounds

def randomRounds (m : MutInput) (rounds : List (Randomize × Bool)) : List Trial :=
  rounds.map fun r => ⟨.input false [.assign m.value, randomizeAll r.1], r.2⟩

def oneByteTrials (m : MutInput) (firstTime : Bool) (explored : List Bool) : List Trial :=
  if firstTime ∧ m.value.length = 1 then
    untilExplored (List.zipWith Trial.mk
      (.direct::(List.range 256).map fun i => .input false [.set 0 i]) explored)
  else []

def bitflip1 (m : MutInput) (explored : List Bool) : List Trial :=
  untilExplored (List.zipWith Trial.mk
    ((List.range (min (m.value.length*8) MAX_SEARCH_EXEC_NUM)).map fun i =>
      -- the bit of the round before is flipped back
      .input false ((if 0 < i then [.bitflip (i-1)] else []) ++ [.bitflip i])) explored)

def mbTrials (m : MutInput) (vars : List UInt8) (explored : Bool)
    (rounds : List (Randomize × Bool)) : List Trial :=
  untilExplored (⟨.input false [.assign vars], explored⟩::randomRounds m rounds)

/-- Every entry in turn is set to the interesting values of its size and put back. -/
def interestingTrials (m : MutInput) : List Trial :=
  (List.range m.metas.length).flatMap fun i =>
    let restore := if 0 < i then [Op.set (i-1) ((getEntry m (i-1)).getD 0)] else []
    (getInterestingBytes ((m.metas[i]?.map InputMeta.size).getD 0)).map fun v =>
      ⟨.input false (restore ++ [.set i v]), false⟩

def exploitTrials (m : MutInput) (firstTime : Bool) (stop : ℕ) (rounds : List Randomize) :
    List Trial :=
  ((if firstTime then interestingTrials m else []) ++
    randomRounds m (rounds.map fun r => (r, false))).take stop

/-- `climb` stands for `GdSearch` and `CbhSearch`, which choose each operation by
the outputs seen so far. -/
inductive CondSearch where
  | oneByte (firstTime : Bool) (explored : List Bool)
  | det (explored : List Bool)
  | random (rounds : List (Randomize × Bool))
  | mb (explored : Bool) (rounds : List (Randomize × Bool))
  | exploit (firstTime : Bool) (stop : ℕ) (rounds : List Randomize)
  | climb (trials : List Trial)

def trials (m : MutInput) (vars : List UInt8) : CondSearch → List Trial
  | .oneByte firstTime explored => oneByteTrials m firstTime explored
  | .det explored => bitflip1 m explored
  | .random rounds => untilExplored (randomRounds m rounds)
  | .mb explored rounds => mbTrials m vars explored rounds
  | .exploit firstTime stop rounds => exploitTrials m firstTime stop rounds
  | .climb ts => ts

def condFuzz (c : CondStmt) (buf : List UInt8) (s : CondSearch) : List (List UInt8) :=
  match getFInput ⟨buf, c.offsets⟩ with
  | none => []
  | some m => runTrials ⟨buf, c.offsets⟩ m (trials m c.vars s)

end Cond

section Loop

inductive FuzzType where
  | exploreFuzz
  | exploitFuzz
  | cmpFnFuzz
  | lenFuzz
  | aflFuzz
  | otherFuzz
  deriving DecidableEq, Repr

def getFuzzType (base : CondStmtBase) : FuzzType :=
  if base.op = COND_AFL_OP then .aflFuzz
  else if base.op = COND_LEN_OP then .lenFuzz
  else if base.op = COND_FN_OP then .cmpFnFuzz
  else if isExplore base then .exploreFuzz
  else if isExploitable base then .exploitFuzz
  else .otherFuzz

/-- The three kinds of executions of `AFLFuzz` are searches of their own, since each
starts from the seed again. -/
inductive Search where
  | aflLen (draw : ℕ → ℕ) (fill : ℕ → ℕ → UInt8)
  | splice (id draw : ℕ)
  | havoc (rounds : List Havoc)
  | len (fill : ℕ → UInt8)
  | fn
  | cond (search : CondSearch)

/-- The strategy that `fuzz_loop` picks for a condition. -/
def Dispatched (c : CondStmt) : Search → Prop
  | .aflLen _ _ | .splice _ _ | .havoc _ => getFuzzType c.base = .aflFuzz
  | .len _ => getFuzzType c.base = .lenFuzz
  | .fn => getFuzzType c.base = .cmpFnFuzz
  | .cond (.oneByte _ _) => getFuzzType c.base ∈ [FuzzType.exploreFuzz, .exploitFuzz] ∧
      c.state = .oneByte
  | .cond (.det _) => getFuzzType c.base = .exploreFuzz ∧ c.state = .deterministic
  | .cond (.exploit _ _ _) => getFuzzType c.base = .exploitFuzz ∧ c.state ≠ .oneByte
  | .cond _ => getFuzzType c.base = .exploreFuzz ∧ c.state ∉ [CondState.oneByte, .deterministic]

def runSearch (seeds : List (List UInt8)) (c : CondStmt) (buf : List UInt8) :
    Search → List (List UInt8)
  | .aflLen draw fill => aflLen buf draw fill
  | .splice id draw =>
    (seeds[id % seeds.length]?.bind fun buf2 => spliceTwoVec buf buf2 draw).toList
  | .havoc rounds => (havocFlip buf rounds).toList
  | .len fill => lenFuzz c.base buf fill
  | .fn => (fnFuzz c buf).toList
  | .cond s => condFuzz c buf s

def syncDepot (files : List (List UInt8)) : List (List UInt8) :=
  files.filter fun buf => buf.length < maxInputLen

structure State where
  seeds : List (List UInt8)
  executed : List (List UInt8)

/-- `keep` says which buffers the executor saves as seeds. -/
inductive Event where
  | search (c : CondStmt) (s : Search) (keep : List UInt8 → Bool)
  | restart (keep : List UInt8 → Bool)

def next (st : State) : Event → Option State
  | .search c s keep =>
    st.seeds[c.base.belong]?.map fun buf =>
      let bufs := runSearch st.seeds c buf s
      ⟨st.seeds ++ bufs.filter keep, st.executed ++ bufs⟩
  | .restart keep =>
    let bufs := syncDepot st.seeds
    some ⟨bufs.filter keep, st.executed ++ bufs⟩

end Loop

end Parmesan.SearchModel
