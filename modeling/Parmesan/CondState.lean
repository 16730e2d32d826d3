import Parmesan.Bytes
import Parmesan.Segments
import Parmesan.TrackList

/-!
# The offsets of a condition

`track/fparser.rs` gives a condition the segments of its two labels, and
`cond_stmt/cond_state.rs` moves them between `offsets` and `offsets_opt` as the
search goes on.
-/

set_option autoImplicit false

namespace Parmesan.CondState
open Parmesan.CondModel Parmesan.TagSetModel Parmesan.TagSetShape Parmesan.DepotModel
open Parmesan.Segments Parmesan.Bytes
open Parmesan.TrackModel (LogData)
open Parmesan.TrackList (isExploitable loadCond)

def fromBase (base : CondStmtBase) : CondStmt where
  base := base
  offsets := []
  offsetsOpt := []
  vars := []
  speed := 0
  isDesirable := true
  state := .offset

def writeAsUle (val size : ℕ) : List UInt8 :=
  if size ∈ [1, 2, 4, 8] then leBytes size val else []

def getOffsetsAndVariables (m : ℕ → Option (List TagSeg)) (cond : CondStmt)
    (magicBytes : Option (List UInt8 × List UInt8)) : CondStmt :=
  let offsets1 := (m cond.base.lb1).getD []
  let offsets2 := (m cond.base.lb2).getD []
  if offsets2.length = 0 ∨ 0 < offsets1.length ∧ offsets1.length ≤ offsets2.length then
    { cond with
      offsets := offsets1
      offsetsOpt := if 0 < cond.base.lb2 ∧ cond.base.lb1 ≠ cond.base.lb2 then offsets2
        else cond.offsetsOpt
      vars := match magicBytes with
        | some args => args.2 ++ args.1
        | none => writeAsUle cond.base.arg2 cond.base.size }
  else
    { cond with
      offsets := offsets2
      offsetsOpt := if 0 < cond.base.lb1 ∧ cond.base.lb1 ≠ cond.base.lb2 then offsets1
        else cond.offsetsOpt
      vars := match magicBytes with
        | some args => args.1 ++ args.2
        | none => writeAsUle cond.base.arg1 cond.base.size }

/-- The body of the loop of `read_and_parse` for the record at index `i`. -/
def parseCond (data : LogData) (i : ℕ) (base : CondStmtBase) : CondStmt :=
  if base.op ≠ COND_LEN_OP ∧ (0 < base.lb1 ∨ 0 < base.lb2) then
    getOffsetsAndVariables data.tags (fromBase base) (data.magicBytes i)
  else fromBase base

def readAndParse (data : LogData) (enableExploitation : Bool) : List CondStmt :=
  (data.condList.zipIdx.filter fun r => enableExploitation || !isExploitable r.1).map
    fun r => parseCond data r.2 r.1

def toOffsetsOpt (c : CondStmt) : CondStmt :=
  { c with state := .offsetOpt, offsets := c.offsetsOpt, offsetsOpt := c.offsets }

def toOffsetsAll (c : CondStmt) : CondStmt :=
  { c with state := .offsetAll, offsets := mergeOffsets c.offsets c.offsetsOpt }

def toDet (c : CondStmt) : CondStmt := { c with state := .deterministic }
def toOffsetsAllEnd (c : CondStmt) : CondStmt := { c with state := .offsetAllEnd }
def toUnsolvable (c : CondStmt) : CondStmt := { c with state := .unsolvable }

def nextState (c : CondStmt) : CondStmt :=
  match c.state with
  | .offset => if 0 < c.offsetsOpt.length then toOffsetsOpt c else toDet c
  | .oneByte => if 0 < c.offsetsOpt.length then toOffsetsOpt c else toUnsolvable c
  | .offsetOpt => toOffsetsAll c
  | .offsetAll => toDet c
  | .deterministic => toOffsetsAllEnd c
  | _ => c

def isPartial : CondState → Bool
  | .offset => true
  | .oneByte => true
  | .offsetOpt => true
  | _ => false

/-- The condition divides the bytes of `o1` and `o2` between its two lists. -/
structure Divides (o1 o2 : List TagSeg) (c : CondStmt) : Prop where
  union : cover c.offsets ∪ cover c.offsetsOpt = cover o1 ∪ cover o2
  tainted : o1 ≠ [] ∨ o2 ≠ [] → c.offsets ≠ []
  merged : isPartial c.state = false → cover c.offsets = cover o1 ∪ cover o2

section Parse
variable {m : ℕ → Option (List TagSeg)} {base : CondStmtBase}
variable (magicBytes : Option (List UInt8 × List UInt8))

/-- The segments of a label; label 0 has none. -/
def tagsOf (m : ℕ → Option (List TagSeg)) (lb : ℕ) : List TagSeg := (m lb).getD []

theorem other_cover (h0 : m 0 = none) (lb lb' : ℕ) (other : List TagSeg)
    (ho : other = if 0 < lb' ∧ lb ≠ lb' then tagsOf m lb' else []) :
    cover (tagsOf m lb) ∪ cover other = cover (tagsOf m lb) ∪ cover (tagsOf m lb') := by
  subst ho
  split_ifs with hc
  · rfl
  · rcases Nat.eq_zero_or_pos lb' with rfl | hpos
    · simp [tagsOf, h0]
    · obtain rfl : lb = lb' := by
        by_contra hne
        exact hc ⟨hpos, hne⟩
      rw [cover_nil, Set.union_empty, Set.union_self]

def FirstChosen (m : ℕ → Option (List TagSeg)) (lb1 lb2 : ℕ) : Prop :=
  (tagsOf m lb2).length = 0 ∨
    0 < (tagsOf m lb1).length ∧ (tagsOf m lb1).length ≤ (tagsOf m lb2).length

theorem get_offsets_first (hc : FirstChosen m base.lb1 base.lb2) :
    ∃ vars, getOffsetsAndVariables m (fromBase base) magicBytes =
      { fromBase base with
        offsets := tagsOf m base.lb1
        offsetsOpt := if 0 < base.lb2 ∧ base.lb1 ≠ base.lb2 then tagsOf m base.lb2 else []
        vars := vars } :=
  ⟨_, if_pos hc⟩

theorem get_offsets_second (hc : ¬ FirstChosen m base.lb1 base.lb2) :
    ∃ vars, getOffsetsAndVariables m (fromBase base) magicBytes =
      { fromBase base with
        offsets := tagsOf m base.lb2
        offsetsOpt := if 0 < base.lb1 ∧ base.lb1 ≠ base.lb2 then tagsOf m base.lb1 else []
        vars := vars } :=
  ⟨_, if_neg hc⟩

theorem get_offsets_state :
    (getOffsetsAndVariables m (fromBase base) magicBytes).state = .offset := by
  by_cases hc : FirstChosen m base.lb1 base.lb2
  · obtain ⟨vars, heq⟩ := get_offsets_first magicBytes hc
    rw [heq]
    rfl
  · obtain ⟨vars, heq⟩ := get_offsets_second magicBytes hc
    rw [heq]
    rfl

theorem get_offsets_divides (h0 : m 0 = none) :
    Divides (tagsOf m base.lb1) (tagsOf m base.lb2)
      (getOffsetsAndVariables m (fromBase base) magicBytes) := by
  by_cases hc : FirstChosen m base.lb1 base.lb2
  · obtain ⟨vars, heq⟩ := get_offsets_first magicBytes hc
    rw [heq]
    refine ⟨other_cover h0 base.lb1 base.lb2 _ rfl, ?_, fun h => Bool.noConfusion h⟩
    intro hne hnil
    have hlen : (tagsOf m base.lb1).length = 0 := List.length_eq_zero_iff.mpr hnil
    rcases hne with h1 | h2
    · exact h1 hnil
    · exact h2 (List.length_eq_zero_iff.mp (hc.resolve_right fun h => by omega))
  · obtain ⟨vars, heq⟩ := get_offsets_second magicBytes hc
    rw [heq]
    refine ⟨?_, ?_, fun h => Bool.noConfusion h⟩
    · rw [Set.union_comm (cover (tagsOf m base.lb1))]
      refine other_cover h0 base.lb2 base.lb1 _ ?_
      simp only [ne_comm]
    · intro _ hnil
      exact hc (Or.inl (List.length_eq_zero_iff.mpr hnil))

end Parse

theorem parse_cond_base (data : LogData) (i : ℕ) (base : CondStmtBase) :
    (parseCond data i base).base = base := by
  unfold parseCond
  split_ifs
  · by_cases hc : FirstChosen data.tags base.lb1 base.lb2
    · obtain ⟨vars, heq⟩ := get_offsets_first (data.magicBytes i) hc
      rw [heq]
      rfl
    · obtain ⟨vars, heq⟩ := get_offsets_second (data.magicBytes i) hc
      rw [heq]
      rfl
  · rfl

theorem parse_cond_cover {data : LogData} (h0 : data.tags 0 = none) (i : ℕ) {base : CondStmtBase}
    (hop : base.op ≠ COND_LEN_OP) :
    cover (parseCond data i base).offsets ∪ cover (parseCond data i base).offsetsOpt =
      cover (tagsOf data.tags base.lb1) ∪ cover (tagsOf data.tags base.lb2) := by
  unfold parseCond
  split_ifs with hc
  · exact (get_offsets_divides (data.magicBytes i) h0).union
  · have hlb : base.lb1 = 0 ∧ base.lb2 = 0 := by
      by_contra hne
      exact hc ⟨hop, by omega⟩
    simp [hlb.1, hlb.2, tagsOf, h0, fromBase]

theorem load_cond_divides {o1 o2 : List TagSeg} {c : CondStmt} (h : Divides o1 o2 c)
    (hp : isPartial c.state = true) (id speed : ℕ) : Divides o1 o2 (loadCond id speed c) := by
  refine ⟨h.union, h.tainted, ?_⟩
  intro hm
  refine absurd hm ?_
  unfold loadCond
  simp only
  split
  · split_ifs
    · decide
    · rw [hp]
      decide
  · rw [hp]
    decide

theorem next_state_divides {o1 o2 : List TagSeg} {c : CondStmt} (h : Divides o1 o2 c) :
    Divides o1 o2 (nextState c) := by
  -- with `offsets_opt` empty the chosen list covers both operands
  have hall : ¬ 0 < c.offsetsOpt.length → cover c.offsets = cover o1 ∪ cover o2 := by
    intro hlen
    have hnil : c.offsetsOpt = [] := List.length_eq_zero_iff.mp (by omega)
    rw [← h.union, hnil, cover_nil, Set.union_empty]
  have hswap : 0 < c.offsetsOpt.length → Divides o1 o2 (toOffsetsOpt c) := by
    intro hlen
    refine ⟨?_, ?_, fun hm => Bool.noConfusion hm⟩
    · exact (Set.union_comm _ _).trans h.union
    · exact fun _ => List.ne_nil_of_length_pos hlen
  unfold nextState
  split
  · split_ifs with hlen
    · exact hswap hlen
    · exact ⟨h.union, h.tainted, fun _ => hall hlen⟩
  · split_ifs with hlen
    · exact hswap hlen
    · exact ⟨h.union, h.tainted, fun _ => hall hlen⟩
  · have hcover : cover (toOffsetsAll c).offsets = cover o1 ∪ cover o2 :=
      (cover_merge _ _).trans h.union
    refine ⟨?_, ?_, fun _ => hcover⟩
    · rw [hcover, ← h.union]
      exact Set.union_eq_self_of_subset_right Set.subset_union_right
    · intro hne heq
      exact h.tainted hne ((merge_offsets_eq_nil _ _).mp heq).1
  · rename_i hs
    exact ⟨h.union, h.tainted, fun _ => h.merged (by rw [hs]; decide)⟩
  · rename_i hs
    exact ⟨h.union, h.tainted, fun _ => h.merged (by rw [hs]; decide)⟩
  · exact h

theorem next_states_divide {o1 o2 : List TagSeg} {c : CondStmt} (h : Divides o1 o2 c) (n : ℕ) :
    Divides o1 o2 (nextState^[n] c) := by
  induction n with
  | zero => exact h
  | succ n ih =>
    rw [Function.iterate_succ_apply']
    exact next_state_divides ih

/-- How many calls of `next_state` can still change the state. -/
def stepsLeft : CondState → ℕ
  | .offset => 4
  | .oneByte => 4
  | .offsetOpt => 3
  | .offsetAll => 2
  | .deterministic => 1
  | _ => 0

theorem next_state_steps (c : CondStmt) :
    stepsLeft (nextState c).state ≤ stepsLeft c.state-1 := by
  unfold nextState
  split <;> rename_i hs
  · split_ifs <;> simp [toOffsetsOpt, toDet, stepsLeft, hs]
  · split_ifs <;> simp [toOffsetsOpt, toUnsolvable, stepsLeft, hs]
  · simp [toOffsetsAll, stepsLeft, hs]
  · simp [toDet, stepsLeft, hs]
  · simp [toOffsetsAllEnd, stepsLeft, hs]
  · cases hc : c.state <;> simp_all [stepsLeft]

theorem next_state_done {c : CondStmt} (h : stepsLeft c.state = 0) : nextState c = c := by
  unfold nextState
  cases hc : c.state <;> simp_all [stepsLeft]

theorem next_states_done (c : CondStmt) (n : ℕ) :
    stepsLeft (nextState^[n] c).state ≤ 4-n := by
  induction n with
  | zero =>
    rw [Function.iterate_zero_apply]
    cases c.state <;> decide
  | succ n ih =>
    rw [Function.iterate_succ_apply']
    have := next_state_steps (nextState^[n] c)
    omega

/-- From the parsed condition, before or after it was loaded, through any number
of steps: no byte of the two labels is lost or added, `offsets` is not empty when
a label has a segment, covers both labels once they are merged, and nothing
changes after four steps. -/
theorem condition_bytes_kept {m : ℕ → Option (List TagSeg)} {base : CondStmtBase} (h0 : m 0 = none)
    (magicBytes : Option (List UInt8 × List UInt8))
    (start : CondStmt) (id speed n : ℕ)
    (hs : start = getOffsetsAndVariables m (fromBase base) magicBytes ∨
      start = loadCond id speed (getOffsetsAndVariables m (fromBase base) magicBytes)) :
    let c := nextState^[n] start
    let both := cover (tagsOf m base.lb1) ∪ cover (tagsOf m base.lb2)
    cover c.offsets ∪ cover c.offsetsOpt = both ∧
    (tagsOf m base.lb1 ≠ [] ∨ tagsOf m base.lb2 ≠ [] → c.offsets ≠ []) ∧
    (isPartial c.state = false → cover c.offsets = both) ∧
    (4 ≤ n → nextState c = c) := by
  have hparsed : Divides (tagsOf m base.lb1) (tagsOf m base.lb2) start := by
    rcases hs with rfl | rfl
    · exact get_offsets_divides magicBytes h0
    · refine load_cond_divides (get_offsets_divides magicBytes h0) ?_ id speed
      rw [get_offsets_state]
      rfl
  have hn := next_states_divide hparsed n
  refine ⟨hn.union, hn.tainted, hn.merged, ?_⟩
  intro h4
  apply next_state_done
  have := next_states_done start n
  omega

def overlapTags : ℕ → Option (List TagSeg)
  | 1 => some [⟨false, 0, 4⟩]
  | 2 => some [⟨false, 2, 6⟩, ⟨false, 8, 9⟩]
  | _ => none

def overlapBase : CondStmtBase where
  cmpid := 7
  context := 0
  lastCallsite := 0
  order := 1
  belong := 0
  condition := COND_FALSE_ST
  level := 0
  op := COND_ICMP_EQ_OP
  size := 4
  lb1 := 2
  lb2 := 1
  arg1 := 5
  arg2 := 6

def overlapCond : CondStmt := getOffsetsAndVariables overlapTags (fromBase overlapBase) none

theorem condition_bytes_kept_overlap : overlapTags 0 = none ∧
    overlapCond.offsets = [⟨false, 0, 4⟩] ∧ (nextState^[2] overlapCond).state = .offsetAll ∧
    cover (nextState^[2] overlapCond).offsets =
      cover [⟨false, 2, 6⟩, ⟨false, 8, 9⟩] ∪ cover [⟨false, 0, 4⟩] :=
  ⟨rfl, rfl, rfl,
    (condition_bytes_kept rfl none overlapCond 0 0 2 (Or.inl rfl)).2.2.1 rfl⟩

end Parmesan.CondState
