import Parmesan.CfgShared
import Parmesan.TrackModel

/-!
# The conditions of a tracked input

`track/fparser.rs`, `track/filter.rs` and `Executor::track`: the conditions
parsed from the log are given the id and the speed of their input, those of no
use are marked, and for each edge behind an indirect call a copy of the second
condition with more offsets is appended. `parsed` is what `read_and_parse`
returns.
-/

set_option autoImplicit false

namespace Parmesan.TrackList
open Parmesan.CondModel Parmesan.TagSetModel Parmesan.DepotModel Parmesan.CfgModel
open Parmesan.CfgShared (windows trackPair)
open Parmesan.TrackModel (MAX_COND_ORDER)
open Parmesan.Execution (fold_relates)

section Filter

def isExploitable (c : CondStmtBase) : Bool :=
  COND_MAX_EXPLORE_OP < c.op && c.op ≤ COND_MAX_EXPLOIT_OP

def hasNoTaint (c : CondStmt) : Bool := c.base.op ≠ COND_LEN_OP && c.offsets.isEmpty

def exceedMaxOrder (c : CondStmt) : Bool := MAX_COND_ORDER < c.base.order &&& 0xFFFF

def sizeNotMatch (c : CondStmt) : Bool :=
  (isExplore c.base || isExploitable c.base) && c.base.size ∉ [1, 2, 4, 8]

def filterEof (c : CondStmt) : Bool :=
  c.base.op &&& 0xFF = COND_ICMP_EQ_OP && c.base.arg2 = 2^64-1 && c.offsets.length = 1 &&
    c.base.arg1 < 256 && c.base.size = 4

def condArgs (c : CondStmt) : ℕ × ℕ × ℕ × ℕ × ℕ :=
  (c.base.cmpid, c.base.lb1, c.base.lb2, c.base.arg1, c.base.arg2)

def undesirable (c : CondStmt) : CondStmt := { c with isDesirable := false }

def filterLoop : List ℕ → List (ℕ × ℕ × ℕ × ℕ × ℕ) → List CondStmt → List CondStmt
  | _, _, [] => []
  | labels, unique, c::cs =>
    if hasNoTaint c || exceedMaxOrder c || sizeNotMatch c || filterEof c then
      undesirable c :: filterLoop labels unique cs
    else if isExploitable c.base then
      if c.base.lb1 ∈ labels then undesirable c :: filterLoop labels unique cs
      else c :: filterLoop (c.base.lb1::labels) unique cs
    else if isExplore c.base || c.base.op = COND_LEN_OP then
      if condArgs c ∈ unique then undesirable c :: filterLoop labels unique cs
      else c :: filterLoop labels (condArgs c::unique) cs
    else c :: filterLoop labels unique cs

def filterCondList (conds : List CondStmt) : List CondStmt := filterLoop [] [] conds

end Filter

/-- The body of the loop of `load_track_data`; the length of a segment wraps. -/
def loadCond (id speed : ℕ) (c : CondStmt) : CondStmt :=
  { c with
    base := { c.base with belong := id }
    speed := speed
    state := match c.offsets with
      | [s] => if (s.stop+2^32-s.start) % 2^32 = 1 then .oneByte else c.state
      | _ => c.state }

def loadTrackData (parsed : List CondStmt) (id speed : ℕ) : List CondStmt :=
  filterCondList (parsed.map (loadCond id speed))

section Track
variable (lib : Library)

/-- The copy of `b` for an indirect edge; `none` is the panic of an index. -/
def fixCond (g : ControlFlowGraph) (edge : Edge) (b : CondStmt) (fixedOffsets : List TagSeg) :
    Option CondStmt :=
  ((getMagicBytes g edge).foldlM (fun vars iv =>
      if b.vars.length = 0 then none
      else if iv.1 < b.vars.length-1 then some (vars.set iv.1 iv.2) else some vars) b.vars).map
    fun vars => { b with offsets := b.offsets ++ fixedOffsets, vars := vars }

structure Tracking where
  cfg : ControlFlowGraph
  dominators : ℕ → Option (List TagSeg)
  indConds : List CondStmt

/-- The body of the loop of `track`: the graph as before, and the copy. -/
def trackWindow (buf : List UInt8) (t : Tracking) (ab : CondStmt × CondStmt) : Option Tracking :=
  (trackPair lib buf (t.cfg, t.dominators) ab).bind fun s =>
    if ab.2.base.lastCallsite ≠ 0 then
      let fixedOffsets := (getCallsiteDominators s.1 ab.2.base.lastCallsite).flatMap
        fun d => (s.2 d).getD []
      (fixCond s.1 (ab.1.base.cmpid, ab.2.base.cmpid) ab.2 fixedOffsets).map fun c =>
        ⟨s.1, s.2, t.indConds ++ [c]⟩
    else some ⟨s.1, s.2, t.indConds⟩

/-- `track` after a run of the tracking binary that ended normally. -/
def track (g : ControlFlowGraph) (id : ℕ) (buf : List UInt8) (speed : ℕ) (parsed : List CondStmt) :
    Option (ControlFlowGraph × List CondStmt) :=
  let conds := loadTrackData parsed (id % 2^32) speed
  ((windows conds).foldlM (trackWindow lib buf) ⟨g, fun _ => none, []⟩).map fun t =>
    (t.cfg, conds ++ t.indConds)

end Track

section Belong
variable {lib : Library} {g g' : ControlFlowGraph} {id speed : ℕ} {buf : List UInt8}
variable {parsed conds : List CondStmt}

theorem filter_loop_map {β : Type} {field : CondStmt → β}
    (hfield : ∀ c, field (undesirable c) = field c) (labels : List ℕ)
    (unique : List (ℕ × ℕ × ℕ × ℕ × ℕ)) (cs : List CondStmt) :
    (filterLoop labels unique cs).map field = cs.map field := by
  induction cs generalizing labels unique with
  | nil => rfl
  | cons c cs ih =>
    unfold filterLoop
    split_ifs
    all_goals rw [List.map_cons, List.map_cons, ih]
    all_goals rw [hfield]

theorem load_belong {c : CondStmt} (hc : c ∈ loadTrackData parsed id speed) :
    c.base.belong = id := by
  have hbase := List.mem_map_of_mem (f := CondStmt.base) hc
  rw [loadTrackData, filterCondList, filter_loop_map (fun _ => rfl), List.map_map] at hbase
  obtain ⟨p, -, hp⟩ := List.mem_map.mp hbase
  rw [← hp]
  rfl

theorem fix_cond_base {edge : Edge} {b c : CondStmt} {fixedOffsets : List TagSeg}
    (h : fixCond g edge b fixedOffsets = some c) : c.base = b.base := by
  obtain ⟨vars, -, rfl⟩ := Option.map_eq_some_iff.mp h
  rfl

theorem track_window_belong {t t' : Tracking} {ab : CondStmt × CondStmt}
    (hab : ab.2.base.belong = id) (ht : ∀ c ∈ t.indConds, c.base.belong = id)
    (h : trackWindow lib buf t ab = some t') : ∀ c ∈ t'.indConds, c.base.belong = id := by
  obtain ⟨s, -, h⟩ := Option.bind_eq_some_iff.mp h
  split_ifs at h
  · obtain ⟨f, hf, rfl⟩ := Option.map_eq_some_iff.mp h
    intro c hc
    rcases List.mem_append.mp hc with hc | hc
    · exact ht c hc
    · obtain rfl := List.mem_singleton.mp hc
      rw [fix_cond_base hf]
      exact hab
  · obtain rfl := Option.some.inj h
    exact ht

theorem track_belong (h : track lib g id buf speed parsed = some (g', conds)) :
    ∀ c ∈ conds, c.base.belong = id % 2^32 := by
  obtain ⟨t, ht, heq⟩ := Option.map_eq_some_iff.mp h
  obtain ⟨rfl, rfl⟩ := Prod.mk.inj heq
  have hwindow : ∀ ab ∈ windows (loadTrackData parsed (id % 2^32) speed),
      ab.2.base.belong = id % 2^32 :=
    fun ab hab => load_belong (List.mem_of_mem_tail (List.of_mem_zip hab).2)
  have hind : ∀ c ∈ t.indConds, c.base.belong = id % 2^32 := by
    have hrun := fold_relates
      (R := fun s t : Tracking => (∀ c ∈ s.indConds, c.base.belong = id % 2^32) →
        ∀ c ∈ t.indConds, c.base.belong = id % 2^32)
      (fun _ hs => hs) (fun _ _ _ h h' => h' ∘ h) _
      (fun ab hab _ _ hstep hs => track_window_belong (hwindow ab hab) hs hstep) _ _ ht
    exact hrun fun c hc => absurd hc List.not_mem_nil
  intro c hc
  rcases List.mem_append.mp hc with hc | hc
  · exact load_belong hc
  · exact hind c hc

end Belong

end Parmesan.TrackList
