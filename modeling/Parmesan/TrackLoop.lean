import Parmesan.CmpFn
import Parmesan.CondFilter

/-!
# The loop over indirect edges

The loop of `Executor::track` reads the bytes of the dominators of a call site and
appends the offsets of these to a copy of the condition behind the call. When it
panics, and what the copies look like, is told by the conditions of the list and by
the dominators that the graph was built with.
-/

set_option autoImplicit false

namespace Parmesan.TrackLoop
open Parmesan.CondModel Parmesan.TagSetModel Parmesan.DepotModel Parmesan.CfgModel
open Parmesan.Segments Parmesan.TrackList Parmesan.CondState Parmesan.SearchLength
open Parmesan.CfgShared (windows trackPair)
open Parmesan.CmpFn
open Parmesan.TrackModel (LogData)

section Magic

theorem map_m_some_iff {α β : Type} (f : α → Option β) (xs : List α) :
    (xs.mapM f).isSome ↔ ∀ x ∈ xs, (f x).isSome := by
  induction xs with
  | nil => simp
  | cons x xs ih =>
    rw [List.mapM_cons, List.forall_mem_cons, ← ih]
    cases hx : f x with
    | none => simp
    | some y =>
      cases xs.mapM f <;> simp

theorem map_m_length {α β : Type} {f : α → Option β} (xs : List α) (ys : List β)
    (h : xs.mapM f = some ys) : ys.length = xs.length := by
  induction xs generalizing ys with
  | nil =>
    have hnil : [] = ys := Option.some.inj h
    rw [← hnil]
    rfl
  | cons x xs ih =>
    rw [List.mapM_cons] at h
    obtain ⟨y, -, h⟩ := Option.bind_eq_some_iff.mp h
    obtain ⟨zs, hzs, h⟩ := Option.bind_eq_some_iff.mp h
    rw [← Option.some.inj h, List.length_cons, List.length_cons, ih zs hzs]

variable {g g' : ControlFlowGraph} {edge : Edge} {buf : List UInt8} {offsets : List TagSeg}

def indices (offsets : List TagSeg) : List ℕ :=
  (offsets.flatMap fun tag => List.range' tag.start (tag.stop-tag.start)).dedup

theorem mem_indices {i : ℕ} : i ∈ indices offsets ↔ ∃ t ∈ offsets, t.start ≤ i ∧ i < t.stop := by
  rw [indices, List.mem_dedup, List.mem_flatMap]
  constructor
  · rintro ⟨t, ht, hi⟩
    have hrange := List.mem_range'_1.mp hi
    exact ⟨t, ht, by omega⟩
  · rintro ⟨t, ht, hi⟩
    exact ⟨t, ht, List.mem_range'_1.mpr (by omega)⟩

theorem set_magic_bytes_iff :
    (setMagicBytes g edge buf offsets).isSome ↔
      ∀ t ∈ offsets, t.start < t.stop → t.stop ≤ buf.length := by
  have hread : (setMagicBytes g edge buf offsets).isSome ↔
      ∀ i ∈ indices offsets, i < buf.length := by
    have hmap := map_m_some_iff (fun i => buf[i]?.map fun b => (i, b)) (indices offsets)
    rw [setMagicBytes, Option.isSome_map]
    apply hmap.trans
    simp
  rw [hread]
  constructor
  · intro h t ht hne
    have hlast := h (t.stop-1) (mem_indices.mpr ⟨t, ht, by omega⟩)
    omega
  · intro h i hi
    obtain ⟨t, ht, hlow, hhigh⟩ := mem_indices.mp hi
    have hstop := h t ht (by omega)
    omega

theorem set_magic_bytes_spec (h : setMagicBytes g edge buf offsets = some g') :
    g'.dominatorCmps = g.dominatorCmps ∧ g'.callsiteDominators = g.callsiteDominators ∧
      (getMagicBytes g' edge = [] ↔ ∀ t ∈ offsets, t.stop ≤ t.start) := by
  obtain ⟨fixed, hfixed, rfl⟩ := Option.map_eq_some_iff.mp h
  have hlen : fixed.length = (indices offsets).length := map_m_length _ _ hfixed
  have hget : getMagicBytes { g with magicBytes := Function.update g.magicBytes edge (some fixed) }
      edge = fixed := by simp [getMagicBytes]
  refine ⟨rfl, rfl, ?_⟩
  rw [hget, ← List.length_eq_zero_iff, hlen, List.length_eq_zero_iff]
  constructor
  · intro hnil t ht
    by_contra hne
    have hmem := mem_indices.mpr ⟨t, ht, Nat.le_refl t.start, by omega⟩
    rw [hnil] at hmem
    cases hmem
  · intro hall
    apply List.eq_nil_iff_forall_not_mem.mpr
    intro i hi
    obtain ⟨t, ht, hlow, hhigh⟩ := mem_indices.mp hi
    have hle := hall t ht
    omega

end Magic

section Dominators
variable {lib : Library} {g : ControlFlowGraph}

theorem visits_dominators (vs : List ℕ) (g : ControlFlowGraph) :
    (vs.foldl (visit lib) g).dominatorCmps = g.dominatorCmps ∧
      (vs.foldl (visit lib) g).callsiteDominators = g.callsiteDominators := by
  induction vs generalizing g with
  | nil => exact ⟨rfl, rfl⟩
  | cons v vs ih =>
    have hstep := ih (visit lib g v)
    rw [visit_eq] at hstep
    rw [List.foldl_cons, visit_eq]
    exact hstep

/-- The dominators are those of the file, whatever edges are added. -/
theorem add_edge_dominators (edge : Edge) :
    (addEdge lib g edge).1.dominatorCmps = g.dominatorCmps ∧
      (addEdge lib g edge).1.callsiteDominators = g.callsiteDominators := by
  simp only [addEdge, handleNewEdge]
  split_ifs
  · exact ⟨rfl, rfl⟩
  · exact visits_dominators _ _

def latest (seen : List CondStmt) (d : ℕ) : Option CondStmt :=
  seen.reverse.find? fun c => c.base.cmpid = d

theorem latest_concat (seen : List CondStmt) (a : CondStmt) (d : ℕ) :
    latest (seen ++ [a]) d = if a.base.cmpid = d then some a else latest seen d := by
  rw [latest, List.reverse_append, List.reverse_singleton, List.singleton_append, List.find?_cons]
  by_cases h : a.base.cmpid = d <;> simp [h, latest]

def dominatorOffsets (g : ControlFlowGraph) (seen : List CondStmt) (d : ℕ) :
    Option (List TagSeg) :=
  if d ∈ g.dominatorCmps then (latest seen d).map CondStmt.offsets else none

def fixedOffsets (g : ControlFlowGraph) (seen : List CondStmt) (callsite : ℕ) : List TagSeg :=
  (getCallsiteDominators g callsite).flatMap fun d => (dominatorOffsets g seen d).getD []

/-- The conditions behind indirect calls, with the offsets of their dominators. -/
def indirectConds (g : ControlFlowGraph) :
    List CondStmt → List CondStmt → List (CondStmt × List TagSeg)
  | seen, a::b::cs =>
    (if b.base.lastCallsite ≠ 0
      then [(b, fixedOffsets g (seen ++ [a]) b.base.lastCallsite)] else []) ++
      indirectConds g (seen ++ [a]) (b::cs)
  | _, _ => []

end Dominators

section Window
variable {lib : Library} {g : ControlFlowGraph} {buf : List UInt8} {seen : List CondStmt}
variable {t t' : Tracking} {a b : CondStmt}

structure Follows (g : ControlFlowGraph) (seen : List CondStmt) (t : Tracking) : Prop where
  cmps : t.cfg.dominatorCmps = g.dominatorCmps
  callsites : t.cfg.callsiteDominators = g.callsiteDominators
  offsets : t.dominators = dominatorOffsets g seen

/-- The bytes of the segments are in the input, and there are none of them if the
condition has no variables. -/
def Fits (buf : List UInt8) (b : CondStmt) (fixed : List TagSeg) : Prop :=
  (∀ s ∈ fixed, s.start < s.stop → s.stop ≤ buf.length) ∧
    (b.vars = [] → ∀ s ∈ fixed, s.stop ≤ s.start)

theorem follows_update (h : Follows g seen t) (a : CondStmt) :
    (if a.base.cmpid ∈ g.dominatorCmps
      then Function.update t.dominators a.base.cmpid (some a.offsets) else t.dominators) =
      dominatorOffsets g (seen ++ [a]) := by
  funext d
  rw [h.offsets]
  by_cases hd : a.base.cmpid = d
  · by_cases hin : a.base.cmpid ∈ g.dominatorCmps
    · rw [if_pos hin, ← hd, Function.update_self, dominatorOffsets, if_pos hin, latest_concat,
        if_pos rfl, Option.map_some]
    · rw [if_neg hin, ← hd, dominatorOffsets, dominatorOffsets, if_neg hin, if_neg hin]
  · have hsame : dominatorOffsets g (seen ++ [a]) d = dominatorOffsets g seen d := by
      rw [dominatorOffsets, dominatorOffsets, latest_concat, if_neg hd]
    rw [hsame]
    split_ifs
    · exact Function.update_of_ne (Ne.symm hd) _ _
    · rfl

/-- The loop over the magic bytes underflows exactly when there is one and there are no
variables. -/
theorem fix_cond_some {g : ControlFlowGraph} {edge : Edge} {b : CondStmt}
    (h : ¬ (b.vars = [] ∧ getMagicBytes g edge ≠ [])) (fixed : List TagSeg) :
    ∃ f, fixCond g edge b fixed = some f ∧ f.offsets = b.offsets ++ fixed ∧ f.state = b.state := by
  unfold fixCond
  by_cases hvars : b.vars.length = 0
  · have hnil : getMagicBytes g edge = [] := by
      by_contra hne
      exact h ⟨List.length_eq_zero_iff.mp hvars, hne⟩
    rw [hnil]
    exact ⟨_, rfl, rfl, rfl⟩
  · have hloop : ∀ (magic : List (ℕ × UInt8)) (vars : List UInt8), ∃ vars',
        magic.foldlM (fun vars iv => if iv.1 < b.vars.length-1 then some (vars.set iv.1 iv.2)
          else some vars) vars = some vars' := by
      intro magic
      induction magic with
      | nil => exact fun vars => ⟨vars, rfl⟩
      | cons iv magic ih =>
        intro vars
        rw [List.foldlM_cons]
        split_ifs
        · exact ih _
        · exact ih _
    obtain ⟨vars, hrun⟩ := hloop (getMagicBytes g edge) b.vars
    simp only [if_neg hvars, hrun]
    exact ⟨_, rfl, rfl, rfl⟩

variable (lib buf a) in
theorem track_window_direct (h : Follows g seen t) (hcall : b.base.lastCallsite = 0) :
    ∃ t', trackWindow lib buf t (a, b) = some t' ∧ Follows g (seen ++ [a]) t' ∧
      t'.indConds = t.indConds := by
  have hadd := @add_edge_dominators lib t.cfg (a.base.cmpid, b.base.cmpid)
  have hdoms := follows_update h a
  simp only [trackWindow, trackPair, hcall, ne_eq, not_true_eq_false, if_false, Option.bind_some,
    dominatesIndirectCall, hadd.1, h.cmps, decide_eq_true_eq, hdoms]
  exact ⟨_, rfl, ⟨hadd.1.trans h.cmps, hadd.2.trans h.callsites, rfl⟩, rfl⟩

def indirectGraph (lib : Library) (g : ControlFlowGraph) (edge : Edge) : ControlFlowGraph :=
  setEdgeIndirect (addEdge lib g edge).1 edge

theorem fixed_offsets_same {g1 : ControlFlowGraph}
    (h : g1.callsiteDominators = g.callsiteDominators) (seen : List CondStmt) (callsite : ℕ) :
    (getCallsiteDominators g1 callsite).flatMap (fun d => (dominatorOffsets g seen d).getD []) =
      fixedOffsets g seen callsite := by
  rw [fixedOffsets, getCallsiteDominators, getCallsiteDominators, h]

theorem track_window_call (h : Follows g seen t) (hcall : b.base.lastCallsite ≠ 0) :
    trackWindow lib buf t (a, b) =
      (setMagicBytes (indirectGraph lib t.cfg (a.base.cmpid, b.base.cmpid))
        (a.base.cmpid, b.base.cmpid) buf
        (fixedOffsets g (seen ++ [a]) b.base.lastCallsite)).bind fun g1 =>
          if b.vars = [] ∧ getMagicBytes g1 (a.base.cmpid, b.base.cmpid) ≠ [] then none
          else (fixCond g1 (a.base.cmpid, b.base.cmpid) b
            (fixedOffsets g (seen ++ [a]) b.base.lastCallsite)).map fun c =>
              ⟨g1, dominatorOffsets g (seen ++ [a]), t.indConds ++ [c]⟩ := by
  have hadd := @add_edge_dominators lib t.cfg (a.base.cmpid, b.base.cmpid)
  have hdoms := follows_update h a
  have hcallsites : (indirectGraph lib t.cfg (a.base.cmpid, b.base.cmpid)).callsiteDominators =
      g.callsiteDominators := hadd.2.trans h.callsites
  have hfixed := fixed_offsets_same hcallsites (seen ++ [a]) b.base.lastCallsite
  rw [indirectGraph] at hfixed ⊢
  simp only [trackWindow, trackPair, if_pos hcall, dominatesIndirectCall, hadd.1, h.cmps,
    decide_eq_true_eq, hdoms, hfixed]
  cases hset : setMagicBytes (setEdgeIndirect (addEdge lib t.cfg (a.base.cmpid, b.base.cmpid)).1
      (a.base.cmpid, b.base.cmpid)) (a.base.cmpid, b.base.cmpid) buf
      (fixedOffsets g (seen ++ [a]) b.base.lastCallsite) with
  | none => rfl
  | some g1 =>
    have hafter := (set_magic_bytes_spec hset).2.1.trans hcallsites
    have hcopied := fixed_offsets_same hafter (seen ++ [a]) b.base.lastCallsite
    simp only [Option.bind_some]
    split_ifs
    · rfl
    · simp only [Option.bind_some, hcopied]

variable (lib buf a) in
theorem track_window_indirect (h : Follows g seen t) (hcall : b.base.lastCallsite ≠ 0) :
    ((trackWindow lib buf t (a, b)).isSome ↔
      Fits buf b (fixedOffsets g (seen ++ [a]) b.base.lastCallsite)) ∧
    ∀ t', trackWindow lib buf t (a, b) = some t' → Follows g (seen ++ [a]) t' ∧
      ∃ f, t'.indConds = t.indConds ++ [f] ∧ f.state = b.state ∧
        f.offsets = b.offsets ++ fixedOffsets g (seen ++ [a]) b.base.lastCallsite := by
  have hadd := @add_edge_dominators lib t.cfg (a.base.cmpid, b.base.cmpid)
  have hiff := @set_magic_bytes_iff (indirectGraph lib t.cfg (a.base.cmpid, b.base.cmpid))
    (a.base.cmpid, b.base.cmpid) buf (fixedOffsets g (seen ++ [a]) b.base.lastCallsite)
  rw [track_window_call h hcall]
  cases hset : setMagicBytes (indirectGraph lib t.cfg (a.base.cmpid, b.base.cmpid))
      (a.base.cmpid, b.base.cmpid) buf (fixedOffsets g (seen ++ [a]) b.base.lastCallsite) with
  | none =>
    rw [hset] at hiff
    constructor
    · exact iff_of_false (by simp) fun hfits => absurd (hiff.mpr hfits.1) (by simp)
    · intro t' heq
      cases heq
  | some g1 =>
    rw [hset] at hiff
    have hspec := set_magic_bytes_spec hset
    rw [Option.bind_some]
    by_cases hbad : b.vars = [] ∧ getMagicBytes g1 (a.base.cmpid, b.base.cmpid) ≠ []
    · rw [if_pos hbad]
      constructor
      · exact iff_of_false (by simp) fun hfits => hbad.2 (hspec.2.2.mpr (hfits.2 hbad.1))
      · intro t' heq
        cases heq
    · obtain ⟨f, hf, hoffsets, hstate⟩ :=
        fix_cond_some hbad (fixedOffsets g (seen ++ [a]) b.base.lastCallsite)
      rw [if_neg hbad, hf, Option.map_some]
      constructor
      · apply iff_of_true rfl
        refine ⟨hiff.mp rfl, fun hvars => hspec.2.2.mp ?_⟩
        by_contra hne
        exact hbad ⟨hvars, hne⟩
      · intro t' heq
        rw [← Option.some.inj heq]
        exact ⟨⟨hspec.1.trans (hadd.1.trans h.cmps), hspec.2.1.trans (hadd.2.trans h.callsites),
          rfl⟩, f, rfl, hstate, hoffsets⟩

end Window

section Loop
variable {lib : Library} {g : ControlFlowGraph} {buf : List UInt8}

/-- The appended condition has the state of the one it copies, and the offsets of the
dominators behind its own. -/
def Extends (f : CondStmt) (p : CondStmt × List TagSeg) : Prop :=
  f.state = p.1.state ∧ f.offsets = p.1.offsets ++ p.2

/-- The loop from `t` on completes when every condition behind a call fits, and appends
one copy for each of them. -/
structure Completes (buf : List UInt8) (t : Tracking) (r : Option Tracking)
    (ps : List (CondStmt × List TagSeg)) : Prop where
  returns : r.isSome ↔ ∀ p ∈ ps, Fits buf p.1 p.2
  copies : ∀ t', r = some t' →
    ∃ copies, t'.indConds = t.indConds ++ copies ∧ List.Forall₂ Extends copies ps

theorem completes_nil (t : Tracking) : Completes buf t (some t) [] where
  returns := by simp
  copies := by
    intro t' heq
    rw [← Option.some.inj heq]
    exact ⟨[], (List.append_nil _).symm, List.Forall₂.nil⟩

theorem track_loop_completes (conds seen : List CondStmt) (t : Tracking) (h : Follows g seen t) :
    Completes buf t ((windows conds).foldlM (trackWindow lib buf) t)
      (indirectConds g seen conds) := by
  induction conds generalizing seen t with
  | nil => exact completes_nil t
  | cons a conds ih =>
    cases conds with
    | nil => exact completes_nil t
    | cons b cs =>
      have hwin : windows (a::b::cs) = (a, b)::windows (b::cs) := rfl
      rw [hwin, List.foldlM_cons, indirectConds]
      by_cases hcall : b.base.lastCallsite = 0
      · obtain ⟨t1, ht1, hfollows, hsame⟩ :=
          track_window_direct lib buf a h hcall
        have hrest := ih (seen ++ [a]) t1 hfollows
        rw [ht1, if_neg (not_not.mpr hcall), List.nil_append]
        constructor
        · exact hrest.returns
        · intro t' heq
          rw [← hsame]
          exact hrest.copies t' heq
      · have hstep := track_window_indirect lib buf a h hcall
        rw [if_pos hcall, List.singleton_append]
        cases ht1 : trackWindow lib buf t (a, b) with
        | none =>
          rw [ht1] at hstep
          constructor
          · apply iff_of_false (by simp)
            intro hall
            exact absurd (hstep.1.mpr (hall _ List.mem_cons_self)) (by simp)
          · intro t' heq
            cases heq
        | some t1 =>
          obtain ⟨hfollows, f, hind, hstate, hoffsets⟩ := hstep.2 t1 ht1
          have hrest := ih (seen ++ [a]) t1 hfollows
          have hfits := hstep.1.mp (by rw [ht1]; rfl)
          constructor
          · rw [List.forall_mem_cons]
            exact hrest.returns.trans ⟨fun hall => ⟨hfits, hall⟩, fun hall => hall.2⟩
          · intro t' heq
            obtain ⟨copies, hcopies, hforall⟩ := hrest.copies t' heq
            refine ⟨f::copies, ?_, List.Forall₂.cons ⟨hstate, hoffsets⟩ hforall⟩
            rw [hcopies, hind, List.append_assoc]
            rfl

theorem follows_start (g : ControlFlowGraph) : Follows g [] ⟨g, fun _ => none, []⟩ where
  cmps := rfl
  callsites := rfl
  offsets := by
    funext d
    simp [dominatorOffsets, latest]

/-- `track` panics exactly when a condition behind an indirect call does not fit: a byte
of a dominator is not in the input, or there is one and the condition has no variables. -/
theorem track_returns_iff (lib : Library) (g : ControlFlowGraph) (id : ℕ) (buf : List UInt8)
    (speed : ℕ) (parsed : List CondStmt) :
    (track lib g id buf speed parsed).isSome ↔
      ∀ p ∈ indirectConds g [] (loadTrackData parsed (id % 2^32) speed), Fits buf p.1 p.2 := by
  rw [track, Option.isSome_map]
  exact (track_loop_completes _ [] _ (follows_start g)).returns

/-- A dominator of call site 5, a comparison behind the call, and the record of the
length that this one depends on. -/
def callLog : LogData where
  condList :=
    [⟨7, 3, 0, 1, 0, COND_FALSE_ST, 0, COND_ICMP_EQ_OP, 4, 1, 0, 1, 2⟩,
      ⟨8, 3, 5, 1, 0, COND_FALSE_ST, 0, COND_ICMP_EQ_OP, 4, 2, 0, 3, 4⟩,
      ⟨8, 3, 5, 0x10001, 0, COND_FALSE_ST, 0, COND_LEN_OP, 4, 0, 1, 3, 4⟩]
  tags := fun lb => if lb = 1 then some [⟨false, 0, 2⟩] else
    if lb = 2 then some [⟨false, 4, 8⟩] else none
  magicBytes := fun _ => none

def callGraph : ControlFlowGraph := newGraph reference ⟨{9}, [], [(5, [7])]⟩

/-- The record of a length has no variables. -/
theorem track_panics_on_length :
    (track reference callGraph 3 [1, 2, 3, 4, 5, 6, 7, 8] 5 (readAndParse callLog true)).isSome =
      false := by
  decide +kernel

end Loop

section Ready

/-- What the strategies rely on: the segments are sorted and lie apart, and the state is
`OneByte` exactly when the value has one byte. -/
structure SearchReady (c : CondStmt) : Prop where
  apart : Apart c.offsets
  oneByte : c.state = .oneByte ↔ valLen c.offsets = 1

def SortedLog (data : LogData) : Prop :=
  ∀ lb tags, data.tags lb = some tags → Apart tags ∧ Narrow tags

theorem tags_of_sorted {data : LogData} (h : SortedLog data) (lb : ℕ) :
    Apart (tagsOf data.tags lb) ∧ Narrow (tagsOf data.tags lb) := by
  rw [tagsOf]
  cases htags : data.tags lb with
  | none => exact ⟨apart_nil, by simp [Narrow]⟩
  | some tags => exact h lb tags htags

theorem parse_cond_offsets {data : LogData} (h : SortedLog data) (i : ℕ) (base : CondStmtBase) :
    Apart (parseCond data i base).offsets ∧ Narrow (parseCond data i base).offsets ∧
      (parseCond data i base).state = .offset := by
  unfold parseCond
  split_ifs
  · have htags : ∃ lb, tagsOf data.tags lb =
        (getOffsetsAndVariables data.tags (fromBase base) (data.magicBytes i)).offsets := by
      by_cases hc : FirstChosen data.tags base.lb1 base.lb2
      · obtain ⟨vars, heq⟩ := get_offsets_first (data.magicBytes i) hc
        exact ⟨base.lb1, by rw [heq]⟩
      · obtain ⟨vars, heq⟩ := get_offsets_second (data.magicBytes i) hc
        exact ⟨base.lb2, by rw [heq]⟩
    obtain ⟨lb, hlb⟩ := htags
    have hsorted := tags_of_sorted h lb
    rw [hlb] at hsorted
    exact ⟨hsorted.1, hsorted.2, @get_offsets_state data.tags base (data.magicBytes i)⟩
  · exact ⟨apart_nil, by simp [Narrow, fromBase], rfl⟩

theorem load_cond_ready {c : CondStmt} (h : Apart c.offsets) (hn : Narrow c.offsets)
    (hs : c.state = .offset) (id speed : ℕ) : SearchReady (loadCond id speed c) := by
  refine ⟨h, ?_⟩
  simp only [loadCond, hs]
  rcases hoffsets : c.offsets with _ | ⟨s, _ | ⟨u, rest⟩⟩
  · simp [valLen]
  · rw [hoffsets] at h hn
    have hne := h.nonempty s List.mem_cons_self
    have hstop := hn s List.mem_cons_self
    have hwrap : (s.stop+2^32-s.start) % 2^32 = s.stop-s.start := by omega
    rw [val_len_single]
    simp only [hwrap]
    split_ifs with hone
    · simp [hone]
    · simp [hone]
  · rw [hoffsets] at h
    have hfirst := h.nonempty s List.mem_cons_self
    have hsecond := h.nonempty u (List.mem_cons_of_mem s List.mem_cons_self)
    simp only [valLen, List.map_cons, List.sum_cons]
    constructor
    · intro hstate
      cases hstate
    · intro hone
      omega

theorem filter_cond_fields {conds : List CondStmt} {c : CondStmt} (hc : c ∈ filterCondList conds) :
    ∃ p ∈ conds, c.offsets = p.offsets ∧ c.state = p.state := by
  have hmem := List.mem_map_of_mem (f := CondFilter.desirable) hc
  rw [filterCondList, filter_loop_map (fun _ => rfl)] at hmem
  obtain ⟨p, hp, heq⟩ := List.mem_map.mp hmem
  exact ⟨p, hp, (congrArg CondStmt.offsets heq).symm, (congrArg CondStmt.state heq).symm⟩

theorem loaded_ready {data : LogData} (h : SortedLog data) (exploit : Bool) (id speed : ℕ) :
    ∀ c ∈ loadTrackData (readAndParse data exploit) id speed, SearchReady c := by
  intro c hc
  obtain ⟨p, hp, hoffsets, hstate⟩ := filter_cond_fields hc
  obtain ⟨q, hq, rfl⟩ := List.mem_map.mp hp
  obtain ⟨r, -, rfl⟩ := List.mem_map.mp hq
  obtain ⟨hapart, hnarrow, hstart⟩ := parse_cond_offsets h r.2 r.1
  have hready := load_cond_ready hapart hnarrow hstart id speed
  exact ⟨by rw [hoffsets]; exact hready.apart, by rw [hoffsets, hstate]; exact hready.oneByte⟩

def KeepsReady (offsets fixed : List TagSeg) : Prop :=
  Apart (offsets ++ fixed) ∧
    (valLen fixed = 0 ∨ valLen offsets ≠ 1 ∧ valLen offsets+valLen fixed ≠ 1)

theorem extends_ready {f : CondStmt} {p : CondStmt × List TagSeg} (h : Extends f p)
    (hp : SearchReady p.1) : SearchReady f ↔ KeepsReady p.1.offsets p.2 := by
  have hone : (f.state = .oneByte ↔ valLen f.offsets = 1) ↔
      (valLen p.2 = 0 ∨ valLen p.1.offsets ≠ 1 ∧ valLen p.1.offsets+valLen p.2 ≠ 1) := by
    rw [h.1, hp.oneByte, h.2, val_len_append]
    omega
  constructor
  · intro hf
    exact ⟨h.2 ▸ hf.apart, hone.mp hf.oneByte⟩
  · intro hk
    exact ⟨h.2 ▸ hk.1, hone.mpr hk.2⟩

theorem forall_copies_iff {α β : Type} {R : α → β → Prop} {P : α → Prop} {Q : β → Prop}
    {xs : List α} {ys : List β} (h : List.Forall₂ R xs ys)
    (hiff : ∀ x, ∀ y ∈ ys, R x y → (P x ↔ Q y)) : (∀ x ∈ xs, P x) ↔ ∀ y ∈ ys, Q y := by
  induction h with
  | nil => simp
  | cons hxy _ ih =>
    rw [List.forall_mem_cons, List.forall_mem_cons, hiff _ _ List.mem_cons_self hxy,
      ih fun x y hy => hiff x y (List.mem_cons_of_mem _ hy)]

theorem indirect_conds_mem {g : ControlFlowGraph} (conds seen : List CondStmt)
    {p : CondStmt × List TagSeg} (hp : p ∈ indirectConds g seen conds) : p.1 ∈ conds := by
  induction conds generalizing seen with
  | nil => cases hp
  | cons a conds ih =>
    cases conds with
    | nil => cases hp
    | cons b cs =>
      rw [indirectConds] at hp
      rcases List.mem_append.mp hp with hp | hp
      · split_ifs at hp
        · rw [List.mem_singleton.mp hp]
          exact List.mem_cons_of_mem a List.mem_cons_self
        · cases hp
      · exact List.mem_cons_of_mem a (ih _ hp)

/-- What `load_track_data` returns can be searched; the copies of `track` can exactly
when the offsets of the dominators leave the shape of the condition as it is. -/
theorem track_ready_iff {lib : Library} {g g' : ControlFlowGraph} {id speed : ℕ}
    {buf : List UInt8} {data : LogData} {exploit : Bool} {conds : List CondStmt}
    (hlog : SortedLog data)
    (h : track lib g id buf speed (readAndParse data exploit) = some (g', conds)) :
    (∀ c ∈ conds, SearchReady c) ↔
      ∀ p ∈ indirectConds g [] (loadTrackData (readAndParse data exploit) (id % 2^32) speed),
        KeepsReady p.1.offsets p.2 := by
  have hloaded := loaded_ready hlog exploit (id % 2^32) speed
  obtain ⟨t, ht, heq⟩ := Option.map_eq_some_iff.mp h
  obtain ⟨-, rfl⟩ := Prod.mk.inj heq
  obtain ⟨copies, hcopies, hforall⟩ := (track_loop_completes _ [] _ (follows_start g)).copies t ht
  rw [List.forall_mem_append, hcopies, List.nil_append]
  have hiff := forall_copies_iff (P := SearchReady) (Q := fun p => KeepsReady p.1.offsets p.2)
    hforall fun f p hp hext => extends_ready hext (hloaded p.1 (indirect_conds_mem _ _ hp))
  exact ⟨fun hall => hiff.mp hall.2, fun hall => ⟨hloaded, hiff.mpr hall⟩⟩

/-- A dominator of call site 5 with the segment of label 1, and a comparison behind the
call with that of label 2. -/
def pairLog (dominator called : TagSeg) : LogData where
  condList :=
    [⟨7, 3, 0, 1, 0, COND_FALSE_ST, 0, COND_ICMP_EQ_OP, 4, 1, 0, 1, 2⟩,
      ⟨8, 3, 5, 1, 0, COND_FALSE_ST, 0, COND_ICMP_EQ_OP, 1, 2, 0, 3, 4⟩]
  tags := fun lb => if lb = 1 then some [dominator] else if lb = 2 then some [called] else none
  magicBytes := fun _ => none

theorem pair_log_sorted (dominator called : TagSeg)
    (h1 : Apart [dominator] ∧ Narrow [dominator]) (h2 : Apart [called] ∧ Narrow [called]) :
    SortedLog (pairLog dominator called) := by
  intro lb tags htags
  simp only [pairLog] at htags
  split_ifs at htags
  · rw [← Option.some.inj htags]
    exact h1
  · rw [← Option.some.inj htags]
    exact h2

def pairTrack (dominator called : TagSeg) : Option (ControlFlowGraph × List CondStmt) :=
  track reference callGraph 3 [1, 2, 3, 4, 5, 6, 7, 8] 5
    (readAndParse (pairLog dominator called) true)

/-- The bytes of the dominator follow those of the comparison. -/
theorem track_ready_iff_follows :
    SortedLog (pairLog ⟨false, 6, 8⟩ ⟨false, 0, 4⟩) ∧
    ∃ g' conds, pairTrack ⟨false, 6, 8⟩ ⟨false, 0, 4⟩ = some (g', conds) ∧
      ∀ c ∈ conds, SearchReady c := by
  have hlog := pair_log_sorted ⟨false, 6, 8⟩ ⟨false, 0, 4⟩ (by decide) (by decide)
  have hsome : (pairTrack ⟨false, 6, 8⟩ ⟨false, 0, 4⟩).isSome = true := by decide +kernel
  obtain ⟨⟨g', conds⟩, hrun⟩ := Option.isSome_iff_exists.mp hsome
  have hind : (indirectConds callGraph [] (loadTrackData
      (readAndParse (pairLog ⟨false, 6, 8⟩ ⟨false, 0, 4⟩) true) (3 % 2^32) 5)).map
        (fun p => (p.1.offsets, p.2)) = [([⟨false, 0, 4⟩], [⟨false, 6, 8⟩])] := by
    decide +kernel
  refine ⟨hlog, g', conds, hrun, (track_ready_iff hlog hrun).mpr ?_⟩
  intro p hp
  have hp' := List.mem_map_of_mem (f := fun p => (p.1.offsets, p.2)) hp
  rw [hind] at hp'
  have hpair := Prod.mk.inj (List.mem_singleton.mp hp')
  rw [hpair.1, hpair.2]
  exact ⟨by decide, Or.inr (by decide)⟩

/-- The copy of a comparison of one byte keeps its state with three bytes, and the
segment that comes last is not the one that ends last. -/
theorem track_copy_not_ready :
    SortedLog (pairLog ⟨false, 0, 2⟩ ⟨false, 4, 5⟩) ∧
    ∃ g' conds c, pairTrack ⟨false, 0, 2⟩ ⟨false, 4, 5⟩ = some (g', conds) ∧ c ∈ conds ∧
      c.state = .oneByte ∧ c.offsets = [⟨false, 4, 5⟩, ⟨false, 0, 2⟩] ∧ ¬ SearchReady c := by
  have hlog := pair_log_sorted ⟨false, 0, 2⟩ ⟨false, 4, 5⟩ (by decide) (by decide)
  have hrun : (pairTrack ⟨false, 0, 2⟩ ⟨false, 4, 5⟩).map
      (fun r => r.2[2]?.map fun c => (c.state, c.offsets)) =
        some (some (.oneByte, [⟨false, 4, 5⟩, ⟨false, 0, 2⟩])) := by decide +kernel
  obtain ⟨⟨g', conds⟩, htrack, hconds⟩ := Option.map_eq_some_iff.mp hrun
  obtain ⟨c, hc, hfields⟩ := Option.map_eq_some_iff.mp hconds
  have hpair := Prod.mk.inj hfields
  refine ⟨hlog, g', conds, c, htrack, List.mem_of_getElem? hc, hpair.1, hpair.2, ?_⟩
  intro hready
  have hapart := hready.apart
  rw [hpair.2] at hapart
  exact absurd hapart (by decide)

end Ready

end Parmesan.TrackLoop
