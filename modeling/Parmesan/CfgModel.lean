import Parmesan.Traversal
import Parmesan.TagSetModel
import Mathlib.Algebra.BigOperators.Group.List.Lemmas
import Mathlib.Algebra.BigOperators.Ring.List
import Mathlib.Algebra.Order.BigOperators.Group.List
import Mathlib.Algebra.Order.Group.Nat
import Mathlib.Algebra.Order.Ring.Nat
import Mathlib.Data.Finset.Insert
import Mathlib.Data.Finset.Erase
import Mathlib.Data.Finset.Lattice.Basic
import Mathlib.Data.Finset.Dedup
import Mathlib.Data.List.Dedup
import Mathlib.Logic.Function.Basic
import Mathlib.Tactic.SplitIfs

/-!
# The control flow graph of conditions

`fuzzer/src/dyncfg/cfg.rs`: an edge joins conditions that were met one after
the other, and its weight caches the score of its head, the distance from there
to a target. The graph structure and the mean come from libraries.
-/

set_option autoImplicit false

namespace Parmesan.CfgModel
open Parmesan.Traversal Parmesan.TagSetModel

abbrev Edge := ℕ × ℕ

def TARGET_SCORE : ℕ := 0
def UNDEF_SCORE : ℕ := 2^32-1

/-- What the graph takes from its libraries: `mean::harmonic` cast to `u32`, and
the nodes that a search yields when it walks the given edges from a node. -/
structure Library where
  harmonic : List ℕ → ℕ
  bfs : List Edge → ℕ → List ℕ
  dfs : List Edge → ℕ → List ℕ
  harmonic_empty : harmonic [] = 0
  harmonic_le : ∀ vals m, vals ≠ [] → (∀ x ∈ vals, x ≤ m) → harmonic vals ≤ m
  mem_bfs : ∀ edges start v, v ∈ bfs edges start ↔ Walk edges start v
  mem_dfs : ∀ edges start v, v ∈ dfs edges start ↔ Walk edges start v

/-- `edges` lists the keys of the graph map in the order of their insertion,
`weight` their values. -/
structure ControlFlowGraph where
  edges : List Edge
  weight : Edge → ℕ
  targets : Finset ℕ
  solvedTargets : Finset ℕ
  indirectEdges : Finset Edge
  callsiteDominators : List (ℕ × List ℕ)
  dominatorCmps : Finset ℕ
  magicBytes : Edge → Option (List (ℕ × UInt8))

def hasEdge (g : ControlFlowGraph) (edge : Edge) : Bool := edge ∈ g.edges

def graphAddEdge (g : ControlFlowGraph) (edge : Edge) (w : ℕ) : ControlFlowGraph :=
  { g with
    edges := if edge ∈ g.edges then g.edges else g.edges ++ [edge]
    weight := Function.update g.weight edge w }

def shouldCountEdge (g : ControlFlowGraph) (edge : Edge) (inp : List UInt8) : Bool :=
  if edge ∈ g.indirectEdges then
    match g.magicBytes edge with
    | some fixed => fixed.all fun f =>
        match inp[f.1]? with
        | some b => b = f.2
        | none => true
    | none => true
  else true

variable (lib : Library)

def scoreHarmonicMean (ovals : List ℕ) : ℕ :=
  if ovals = [] then UNDEF_SCORE
  else (lib.harmonic (ovals.filter fun v => v ≠ UNDEF_SCORE)+1) % 2^32

def scoreForCmpInp (g : ControlFlowGraph) (cmp : ℕ) (inp : List UInt8) : ℕ :=
  if cmp ∈ g.targets then TARGET_SCORE
  else scoreHarmonicMean lib
    (((g.edges.filter fun e => e.1 = cmp).filter fun e => shouldCountEdge g e inp).map g.weight)

def scoreForCmp (g : ControlFlowGraph) (cmp : ℕ) : ℕ := scoreForCmpInp lib g cmp []

def hasScore (g : ControlFlowGraph) (cmp : ℕ) : Bool := scoreForCmp lib g cmp ≠ UNDEF_SCORE

/-- The body of the loop of `propagate_score`. -/
def visit (g : ControlFlowGraph) (visited : ℕ) : ControlFlowGraph :=
  let newScore := scoreForCmp lib g visited
  let predecessors := (g.edges.filter fun e => e.2 = visited).map Prod.fst
  predecessors.foldl (fun g p => graphAddEdge g (p, visited) newScore) g

-- The search starts on the reversed graph but takes each step on the graph itself.
def propagateScore (g : ControlFlowGraph) (cmp : ℕ) : ControlFlowGraph :=
  (lib.bfs g.edges cmp).foldl (visit lib) g

def handleNewEdge (g : ControlFlowGraph) (edge : Edge) : ControlFlowGraph :=
  let dstScore := scoreForCmp lib g edge.2
  let oldSrcScore := scoreForCmp lib g edge.1
  let g1 := graphAddEdge g edge dstScore
  let newSrcScore := scoreForCmp lib g1 edge.1
  if oldSrcScore = newSrcScore then g1
  else propagateScore lib (graphAddEdge g1 edge dstScore) edge.1

def addEdge (g : ControlFlowGraph) (edge : Edge) : ControlFlowGraph × Bool :=
  (handleNewEdge lib g edge, !hasEdge g edge)

def removeTarget (g : ControlFlowGraph) (cmp : ℕ) : ControlFlowGraph :=
  if cmp ∈ g.targets then
    let g1 := propagateScore lib { g with targets := g.targets.erase cmp } cmp
    { g1 with solvedTargets := insert cmp g1.solvedTargets }
  else g

def hasPathToTarget (g : ControlFlowGraph) (target : ℕ) : Bool :=
  (lib.dfs g.edges target).any fun visited => visited ∈ g.targets

/-- Edges are also kept by call site; nothing reads that map. -/
def setEdgeIndirect (g : ControlFlowGraph) (edge : Edge) : ControlFlowGraph :=
  { g with indirectEdges := insert edge g.indirectEdges }

/-- Fails when an offset is not in the input. -/
def setMagicBytes (g : ControlFlowGraph) (edge : Edge) (buf : List UInt8) (offsets : List TagSeg) :
    Option ControlFlowGraph :=
  let indices := (offsets.flatMap fun tag => List.range' tag.start (tag.stop-tag.start)).dedup
  (indices.mapM fun i => buf[i]?.map fun b => (i, b)).map fun fixed =>
    { g with magicBytes := Function.update g.magicBytes edge (some fixed) }

def getMagicBytes (g : ControlFlowGraph) (edge : Edge) : List (ℕ × UInt8) :=
  (g.magicBytes edge).getD []

def dominatesIndirectCall (g : ControlFlowGraph) (cmp : ℕ) : Bool := cmp ∈ g.dominatorCmps

def getCallsiteDominators (g : ControlFlowGraph) (cs : ℕ) : List ℕ :=
  (g.callsiteDominators.lookup cs).getD []

/-- The file of targets; the edges are a set, iterated in some order, and so are
the dominators of a call site. -/
structure CfgFile where
  targets : Finset ℕ
  edges : List Edge
  callsiteDominators : List (ℕ × List ℕ)

def emptyGraph (data : CfgFile) : ControlFlowGraph :=
  { edges := []
    weight := fun _ => UNDEF_SCORE
    targets := data.targets
    solvedTargets := ∅
    indirectEdges := ∅
    callsiteDominators := data.callsiteDominators
    dominatorCmps := data.callsiteDominators.foldr (fun s cmps => s.2.toFinset ∪ cmps) ∅
    magicBytes := fun _ => none }

def newGraph (data : CfgFile) : ControlFlowGraph :=
  data.edges.foldl (fun g e => (addEdge lib g e).1) (emptyGraph data)

inductive Op where
  | addEdge (edge : Edge)
  | removeTarget (cmp : ℕ)
  deriving DecidableEq, Repr

def apply (g : ControlFlowGraph) : Op → ControlFlowGraph
  | .addEdge edge => (addEdge lib g edge).1
  | .removeTarget cmp => removeTarget lib g cmp

def run (g : ControlFlowGraph) (ops : List Op) : ControlFlowGraph := ops.foldl (apply lib) g

def start (targets : Finset ℕ) : ControlFlowGraph := emptyGraph ⟨targets, [], []⟩

theorem should_count_empty (g : ControlFlowGraph) (edge : Edge) :
    shouldCountEdge g edge [] = true := by
  rw [shouldCountEdge]
  split_ifs
  · cases g.magicBytes edge <;> simp
  · rfl

def outWeights (g : ControlFlowGraph) (cmp : ℕ) : List ℕ :=
  (g.edges.filter fun e => e.1 = cmp).map g.weight

theorem score_for_cmp_eq (g : ControlFlowGraph) (cmp : ℕ) :
    scoreForCmp lib g cmp =
      if cmp ∈ g.targets then TARGET_SCORE else scoreHarmonicMean lib (outWeights g cmp) := by
  have hall : (g.edges.filter fun e => e.1 = cmp).filter (fun e => shouldCountEdge g e []) =
      g.edges.filter fun e => e.1 = cmp :=
    List.filter_eq_self.mpr fun e _ => should_count_empty g e
  rw [scoreForCmp, scoreForCmpInp, hall]
  rfl

variable {lib} {g g' : ControlFlowGraph}

theorem score_target {v : ℕ} (h : v ∈ g.targets) : scoreForCmp lib g v = TARGET_SCORE := by
  rw [score_for_cmp_eq, if_pos h]

theorem score_congr {v : ℕ} (htargets : v ∈ g'.targets ↔ v ∈ g.targets)
    (hweights : outWeights g' v = outWeights g v) :
    scoreForCmp lib g' v = scoreForCmp lib g v := by
  rw [score_for_cmp_eq, score_for_cmp_eq, hweights]
  simp only [htargets]

theorem out_weights_congr {v : ℕ} (hedges : g'.edges = g.edges)
    (h : ∀ e ∈ g.edges, e.1 = v → g'.weight e = g.weight e) : outWeights g' v = outWeights g v := by
  rw [outWeights, outWeights, hedges]
  apply List.map_congr_left
  intro e he
  have := List.mem_filter.mp he
  exact h e this.1 (by simpa using this.2)

@[simp] theorem graph_add_edge_weight (edge : Edge) (w : ℕ) :
    (graphAddEdge g edge w).weight = Function.update g.weight edge w := rfl

@[simp] theorem graph_add_edge_targets (edge : Edge) (w : ℕ) :
    (graphAddEdge g edge w).targets = g.targets := rfl

theorem mem_graph_add_edge (edge e : Edge) (w : ℕ) :
    e ∈ (graphAddEdge g edge w).edges ↔ e ∈ g.edges ∨ e = edge := by
  simp only [graphAddEdge]
  split_ifs with h
  · constructor
    · exact Or.inl
    · rintro (he | rfl)
      · exact he
      · exact h
  · simp

theorem graph_add_edge_score {edge : Edge} {w v : ℕ} (hv : v ≠ edge.1) :
    scoreForCmp lib (graphAddEdge g edge w) v = scoreForCmp lib g v := by
  have hfilter : (graphAddEdge g edge w).edges.filter (fun e => e.1 = v) =
      g.edges.filter fun e => e.1 = v := by
    simp only [graphAddEdge]
    split_ifs
    · rfl
    · rw [List.filter_append, List.filter_cons_of_neg (by simpa using hv.symm), List.filter_nil,
        List.append_nil]
  apply score_congr (by rw [graph_add_edge_targets])
  rw [outWeights, outWeights, hfilter]
  apply List.map_congr_left
  intro e he
  have hsrc : e.1 = v := by simpa using (List.mem_filter.mp he).2
  apply Function.update_of_ne
  rintro rfl
  exact hv hsrc.symm

theorem graph_add_edge_again (edge : Edge) (w : ℕ) :
    graphAddEdge (graphAddEdge g edge w) edge w = graphAddEdge g edge w := by
  have hin : edge ∈ (graphAddEdge g edge w).edges := (mem_graph_add_edge edge edge w).mpr (Or.inr rfl)
  rw [graphAddEdge, if_pos hin]
  simp only [graphAddEdge, Function.update_idem]

theorem store_predecessors (ps : List ℕ) (v s : ℕ) (g : ControlFlowGraph)
    (hps : ∀ p ∈ ps, (p, v) ∈ g.edges) :
    ps.foldl (fun g p => graphAddEdge g (p, v) s) g =
      { g with weight := fun e => if e.2 = v ∧ e.1 ∈ ps then s else g.weight e } := by
  induction ps generalizing g with
  | nil => simp
  | cons p ps ih =>
    have hedges : (graphAddEdge g (p, v) s).edges = g.edges := if_pos (hps p List.mem_cons_self)
    rw [List.foldl_cons, ih _ fun q hq => hedges ▸ hps q (List.mem_cons_of_mem p hq)]
    simp only [graphAddEdge, if_pos (hps p List.mem_cons_self)]
    congr 1
    funext e
    by_cases he : e = (p, v)
    · subst he
      simp
    · rw [Function.update_of_ne he]
      have hp : e.2 = v → e.1 ≠ p := fun h2 h1 => he (Prod.ext h1 h2)
      by_cases h2 : e.2 = v
      · simp [h2, hp h2]
      · simp [h2]

def storeInto (g : ControlFlowGraph) (v s : ℕ) : ControlFlowGraph :=
  { g with weight := fun e => if e.2 = v ∧ e ∈ g.edges then s else g.weight e }

theorem visit_eq (g : ControlFlowGraph) (v : ℕ) :
    visit lib g v = { g with
      weight := fun e => if e.2 = v ∧ e ∈ g.edges then scoreForCmp lib g v else g.weight e } := by
  have hmem : ∀ p, p ∈ (g.edges.filter fun e => e.2 = v).map Prod.fst ↔ (p, v) ∈ g.edges := by
    intro p
    simp only [List.mem_map, List.mem_filter, decide_eq_true_eq]
    constructor
    · rintro ⟨e, ⟨he, rfl⟩, rfl⟩
      exact he
    · intro h
      exact ⟨(p, v), ⟨h, rfl⟩, rfl⟩
  rw [visit, store_predecessors _ _ _ _ fun p hp => (hmem p).mp hp]
  congr 1
  funext e
  congr 1
  rw [hmem, eq_iff_iff]
  constructor
  · rintro ⟨rfl, h⟩
    exact ⟨rfl, h⟩
  · rintro ⟨rfl, h⟩
    exact ⟨rfl, h⟩

theorem visit_store (g : ControlFlowGraph) (v : ℕ) :
    visit lib g v = storeInto g v (scoreForCmp lib g v) := visit_eq g v

@[simp] theorem visit_edges (v : ℕ) : (visit lib g v).edges = g.edges := by
  rw [visit_eq]

@[simp] theorem visit_targets (v : ℕ) : (visit lib g v).targets = g.targets := by
  rw [visit_eq]

theorem visits_same (vs : List ℕ) (g : ControlFlowGraph) :
    (vs.foldl (visit lib) g).edges = g.edges ∧ (vs.foldl (visit lib) g).targets = g.targets := by
  induction vs generalizing g with
  | nil => exact ⟨rfl, rfl⟩
  | cons v vs ih =>
    obtain ⟨he, ht⟩ := ih (visit lib g v)
    exact ⟨by simpa using he, by simpa using ht⟩

theorem mem_add_edge (edge e : Edge) :
    e ∈ (addEdge lib g edge).1.edges ↔ e ∈ g.edges ∨ e = edge := by
  simp only [addEdge, handleNewEdge]
  split_ifs
  · exact mem_graph_add_edge edge e _
  · rw [propagateScore, (visits_same _ _).1, mem_graph_add_edge, mem_graph_add_edge, or_assoc,
      or_self]

theorem add_edge_targets (edge : Edge) : (addEdge lib g edge).1.targets = g.targets := by
  simp only [addEdge, handleNewEdge]
  split_ifs
  · rfl
  · exact (visits_same _ _).2

theorem remove_target_edges (cmp : ℕ) : (removeTarget lib g cmp).edges = g.edges := by
  rw [removeTarget]
  split_ifs
  · exact (visits_same _ _).1
  · rfl

theorem remove_target_targets (cmp : ℕ) : (removeTarget lib g cmp).targets = g.targets.erase cmp := by
  rw [removeTarget]
  split_ifs with h
  · exact (visits_same _ _).2
  · exact (Finset.erase_eq_of_notMem h).symm

theorem has_path_iff (c : ℕ) :
    hasPathToTarget lib g c = true ↔ ∃ t ∈ g.targets, Walk g.edges c t := by
  rw [hasPathToTarget, List.any_eq_true]
  constructor
  · rintro ⟨t, ht, hin⟩
    exact ⟨t, by simpa using hin, (lib.mem_dfs _ _ _).mp ht⟩
  · rintro ⟨t, ht, hw⟩
    exact ⟨t, (lib.mem_dfs _ _ _).mpr hw, by simpa using ht⟩

/-- The harmonic mean in whole numbers, rounded down. -/
def harmonicFloor (vals : List ℕ) : ℕ :=
  if 0 ∈ vals then 0 else vals.length*vals.prod / (vals.map fun x => vals.prod / x).sum

theorem sum_quotients_ge (P m : ℕ) (vals : List ℕ) (h : ∀ x ∈ vals, P ≤ m*(P / x)) :
    vals.length*P ≤ m*(vals.map fun x => P / x).sum := by
  induction vals with
  | nil => simp
  | cons x vals ih =>
    have hx := h x List.mem_cons_self
    have hrest := ih fun y hy => h y (List.mem_cons_of_mem x hy)
    rw [List.length_cons, List.map_cons, List.sum_cons, Nat.mul_add, Nat.succ_mul]
    omega

theorem sum_quotients_le (P m : ℕ) (vals : List ℕ) (h : ∀ x ∈ vals, m*(P / x) ≤ P) :
    m*(vals.map fun x => P / x).sum ≤ vals.length*P := by
  induction vals with
  | nil => simp
  | cons x vals ih =>
    have hx := h x List.mem_cons_self
    have hrest := ih fun y hy => h y (List.mem_cons_of_mem x hy)
    rw [List.length_cons, List.map_cons, List.sum_cons, Nat.mul_add, Nat.succ_mul]
    omega

theorem quotients_pos {vals : List ℕ} (hne : vals ≠ []) (h0 : 0 ∉ vals) :
    0 < (vals.map fun x => vals.prod / x).sum := by
  obtain ⟨x, hx⟩ := List.exists_mem_of_ne_nil vals hne
  have hdvd : x ∣ vals.prod := List.dvd_prod hx
  have hprod : 0 < vals.prod := Nat.pos_of_ne_zero (List.prod_ne_zero h0)
  have hquot : 0 < vals.prod / x := Nat.div_pos (Nat.le_of_dvd hprod hdvd)
    (Nat.pos_of_dvd_of_pos hdvd hprod)
  have hmem : vals.prod / x ∈ vals.map fun x => vals.prod / x := List.mem_map.mpr ⟨x, hx, rfl⟩
  exact Nat.lt_of_lt_of_le hquot (List.le_sum_of_mem hmem)

theorem harmonic_floor_le (vals : List ℕ) (m : ℕ) (hne : vals ≠ []) (h : ∀ x ∈ vals, x ≤ m) :
    harmonicFloor vals ≤ m := by
  rw [harmonicFloor]
  split_ifs with h0
  · exact Nat.zero_le m
  · rw [Nat.div_le_iff_le_mul_add_pred (quotients_pos hne h0)]
    have hsum := sum_quotients_ge vals.prod m vals fun x hx => by
      calc vals.prod = x*(vals.prod / x) := (Nat.mul_div_cancel' (List.dvd_prod hx)).symm
        _ ≤ m*(vals.prod / x) := Nat.mul_le_mul_right _ (h x hx)
    rw [Nat.mul_comm m] at hsum
    omega

theorem le_harmonic_floor (vals : List ℕ) (m : ℕ) (hne : vals ≠ []) (h : ∀ x ∈ vals, m ≤ x) :
    m ≤ harmonicFloor vals := by
  rw [harmonicFloor]
  split_ifs with h0
  · exact h 0 h0
  · rw [Nat.le_div_iff_mul_le (quotients_pos hne h0)]
    exact sum_quotients_le vals.prod m vals fun x hx => by
      calc m*(vals.prod / x) ≤ x*(vals.prod / x) := Nat.mul_le_mul_right _ (h x hx)
        _ = vals.prod := Nat.mul_div_cancel' (List.dvd_prod hx)

def reference : Library where
  harmonic := harmonicFloor
  bfs := visitFrom
  dfs := visitFrom
  harmonic_empty := rfl
  harmonic_le := harmonic_floor_le
  mem_bfs := mem_visit_from
  mem_dfs := mem_visit_from

end Parmesan.CfgModel
