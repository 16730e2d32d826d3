import Parmesan.CfgModel
import Mathlib.Data.List.Induction
import Mathlib.Tactic.Ring

/-!
# How far the scores can grow

A visit stores a score that exceeds the defined weights by at most one, and a
propagation visits no node twice. The number of calls thus bounds the weights,
and as long as it is small, every node with an edge has a score.
-/

set_option autoImplicit false

namespace Parmesan.CfgGrowth
open Parmesan.Traversal Parmesan.CfgModel

theorem run_snoc (lib : Library) (g : ControlFlowGraph) (ops : List Op) (op : Op) :
    run lib g (ops ++ [op]) = apply lib (run lib g ops) op := List.foldl_concat ..

/-- A search that yields no node twice yields the start and heads of edges. -/
theorem bfs_length {lib : Library} {edges : List Edge} {start : ℕ}
    (hnodup : (lib.bfs edges start).Nodup) : (lib.bfs edges start).length ≤ edges.length+1 := by
  have hsub : lib.bfs edges start ⊆ start :: edges.map Prod.snd := by
    intro v hv
    have hwalk : Walk edges start v := (lib.mem_bfs edges start v).mp hv
    rcases Relation.ReflTransGen.cases_tail hwalk with rfl | ⟨u, -, he⟩
    · exact List.mem_cons_self
    · exact List.mem_cons_of_mem _ (List.mem_map.mpr ⟨(u, v), he, rfl⟩)
  have hle := (hnodup.subperm hsub).length_le
  rwa [List.length_cons, List.length_map] at hle

section Bounds
variable {lib : Library} {g : ControlFlowGraph}

def Bounded (g : ControlFlowGraph) : Prop := ∀ e, g.weight e ≤ UNDEF_SCORE

theorem score_bounded (lib : Library) (g : ControlFlowGraph) (v : ℕ) :
    scoreForCmp lib g v ≤ UNDEF_SCORE := by
  rw [score_for_cmp_eq]
  split_ifs
  · exact Nat.zero_le _
  · rw [scoreHarmonicMean]
    split_ifs
    · exact Nat.le_refl _
    · exact Nat.le_pred_of_lt (Nat.mod_lt _ (by decide))

theorem graph_add_edge_bounded {edge : Edge} {w : ℕ} (h : Bounded g) (hw : w ≤ UNDEF_SCORE) :
    Bounded (graphAddEdge g edge w) := by
  intro e
  by_cases he : e = edge
  · subst he
    simpa [graphAddEdge] using hw
  · simpa [graphAddEdge, Function.update_of_ne he] using h e

theorem visit_bounded (h : Bounded g) (v : ℕ) : Bounded (visit lib g v) := by
  intro e
  rw [visit_eq]
  simp only
  split_ifs
  · exact score_bounded lib g v
  · exact h e

end Bounds

section Low
variable {lib : Library} {g : ControlFlowGraph} {m : ℕ}

def Low (m : ℕ) (g : ControlFlowGraph) : Prop :=
  ∀ e ∈ g.edges, g.weight e ≠ UNDEF_SCORE → g.weight e ≤ m

theorem low_mono {n : ℕ} (h : Low m g) (hle : m ≤ n) : Low n g := fun e he hdef =>
  (h e he hdef).trans hle

def definedMean (lib : Library) (g : ControlFlowGraph) (v : ℕ) : ℕ :=
  lib.harmonic ((outWeights g v).filter fun w => w ≠ UNDEF_SCORE)

theorem mean_low (h : Low m g) (v : ℕ) : definedMean lib g v ≤ m := by
  rw [definedMean]
  by_cases hnil : (outWeights g v).filter (fun w => w ≠ UNDEF_SCORE) = []
  · rw [hnil, lib.harmonic_empty]
    exact Nat.zero_le m
  · apply lib.harmonic_le _ _ hnil
    intro w hw
    obtain ⟨hw, hdef⟩ := List.mem_filter.mp hw
    obtain ⟨e, he, rfl⟩ := List.mem_map.mp hw
    exact h e (List.mem_of_mem_filter he) (by simpa using hdef)

theorem score_low (h : Low m g) (v : ℕ) (hdef : scoreForCmp lib g v ≠ UNDEF_SCORE) :
    scoreForCmp lib g v ≤ m+1 := by
  rw [score_for_cmp_eq] at hdef ⊢
  split_ifs at hdef ⊢ with ht
  · exact Nat.zero_le _
  · rw [scoreHarmonicMean] at hdef ⊢
    split_ifs at hdef ⊢ with hnil
    · exact absurd rfl hdef
    · exact (Nat.mod_le _ _).trans (Nat.succ_le_succ (mean_low h v))

theorem score_mean (h : Low m g) (hm : m < UNDEF_SCORE) {v : ℕ} (ht : v ∉ g.targets)
    (hout : outWeights g v ≠ []) : scoreForCmp lib g v = definedMean lib g v+1 := by
  have hmean : definedMean lib g v ≤ m := mean_low h v
  rw [score_for_cmp_eq, if_neg ht, scoreHarmonicMean, if_neg hout, ← definedMean]
  simp only [UNDEF_SCORE] at hm
  exact Nat.mod_eq_of_lt (by omega)

theorem score_dead {v : ℕ} (ht : v ∉ g.targets) (hout : outWeights g v = []) :
    scoreForCmp lib g v = UNDEF_SCORE := by
  rw [score_for_cmp_eq, if_neg ht, scoreHarmonicMean, if_pos hout]

theorem target_of_score (h : Low m g) (hm : m < UNDEF_SCORE) {v : ℕ}
    (hv : scoreForCmp lib g v = TARGET_SCORE) : v ∈ g.targets := by
  by_contra ht
  by_cases hout : outWeights g v = []
  · rw [score_dead ht hout] at hv
    exact absurd hv (by decide)
  · rw [score_mean h hm ht hout] at hv
    exact absurd hv (Nat.succ_ne_zero _)

theorem dead_of_score (h : Low m g) (hm : m < UNDEF_SCORE-1) {v : ℕ}
    (hv : scoreForCmp lib g v = UNDEF_SCORE) : v ∉ g.targets ∧ outWeights g v = [] := by
  have ht : v ∉ g.targets := by
    intro ht
    rw [score_target ht] at hv
    exact absurd hv (by decide)
  refine ⟨ht, ?_⟩
  by_contra hout
  have hmean : definedMean lib g v ≤ m := mean_low h v
  rw [score_mean h (Nat.lt_of_lt_of_le hm (Nat.sub_le _ _)) ht hout] at hv
  omega

theorem visit_low (lib : Library) (h : Low m g) (v : ℕ) : Low (m+1) (visit lib g v) := by
  intro e he
  rw [visit_edges] at he
  rw [visit_eq]
  simp only
  split_ifs with hin
  · exact score_low h v
  · exact fun hdef => (h e he hdef).trans (Nat.le_succ m)

theorem visits_low (lib : Library) (vs : List ℕ) (m : ℕ) (g : ControlFlowGraph) (h : Low m g) :
    Low (m+vs.length) (vs.foldl (visit lib) g) := by
  induction vs generalizing m g with
  | nil => exact h
  | cons v vs ih =>
    have hrest := ih (m+1) _ (visit_low lib h v)
    rwa [Nat.add_assoc, Nat.add_comm 1] at hrest

theorem insert_low (lib : Library) (h : Low m g) (edge : Edge) :
    Low (m+1) (graphAddEdge g edge (scoreForCmp lib g edge.2)) := by
  intro e he
  by_cases heq : e = edge
  · subst heq
    rw [graph_add_edge_weight, Function.update_self]
    exact score_low h e.2
  · rw [graph_add_edge_weight, Function.update_of_ne heq]
    intro hdef
    have hold := ((mem_graph_add_edge _ _ _).mp he).resolve_right heq
    exact (h e hold hdef).trans (Nat.le_succ m)

/-- What holds of every node that is not visited, and of a node once it is
visited, holds of all nodes after the visits. -/
theorem visits_settle {I : ℕ → ControlFlowGraph → Prop} {P : ControlFlowGraph → ℕ → Prop} {n : ℕ}
    (hI : ∀ m g v, m < n → I m g → I (m+1) (visit lib g v))
    (hP : ∀ m g v x, m < n → I m g → (x ≠ v → P g x) → P (visit lib g v) x)
    (vs : List ℕ) (m : ℕ) (g : ControlFlowGraph) (hn : m+vs.length ≤ n) (hg : I m g)
    (hp : ∀ x, x ∉ vs → P g x) :
    I (m+vs.length) (vs.foldl (visit lib) g) ∧ ∀ x, P (vs.foldl (visit lib) g) x := by
  induction vs generalizing m g with
  | nil => exact ⟨hg, fun x => hp x List.not_mem_nil⟩
  | cons v vs ih =>
    rw [List.length_cons] at hn
    have hrest := ih (m+1) (visit lib g v) (by omega) (hI m g v (by omega) hg) fun x hx =>
      hP m g v x (by omega) hg fun hne => hp x fun h => (List.mem_cons.mp h).elim hne hx
    rwa [Nat.add_assoc, Nat.add_comm 1] at hrest

end Low

section Grown
variable {lib : Library} {g : ControlFlowGraph} {k : ℕ}

structure Grown (k : ℕ) (g : ControlFlowGraph) : Prop where
  edges : g.edges.length ≤ k
  low : Low (k*(k+5)/2) g

theorem growth_succ (k : ℕ) : (k+1)*(k+1+5)/2 = k*(k+5)/2 + (k+3) := by
  have h : (k+1)*(k+1+5) = k*(k+5) + (k+3)*2 := by ring
  rw [h, Nat.add_mul_div_right _ _ (by decide)]

theorem graph_add_edge_length (edge : Edge) (w : ℕ) :
    (graphAddEdge g edge w).edges.length ≤ g.edges.length+1 := by
  simp only [graphAddEdge]
  split_ifs
  · exact Nat.le_succ _
  · rw [List.length_append]
    rfl

theorem add_edge_grown (hnodup : ∀ edges start, (lib.bfs edges start).Nodup) (h : Grown k g)
    (edge : Edge) : Grown (k+1) (addEdge lib g edge).1 := by
  have hlow := insert_low lib h.low edge
  have hlen := (graph_add_edge_length (g := g) edge (scoreForCmp lib g edge.2)).trans
    (Nat.succ_le_succ h.edges)
  simp only [addEdge, handleNewEdge]
  split_ifs
  · exact ⟨hlen, low_mono hlow (by rw [growth_succ]; omega)⟩
  · rw [graph_add_edge_again, propagateScore]
    refine ⟨by rw [(visits_same _ _).1]; exact hlen, low_mono (visits_low lib _ _ _ hlow) ?_⟩
    have hbfs := bfs_length
      (hnodup (graphAddEdge g edge (scoreForCmp lib g edge.2)).edges edge.1)
    rw [growth_succ]
    omega

theorem remove_target_grown (hnodup : ∀ edges start, (lib.bfs edges start).Nodup) (h : Grown k g)
    (cmp : ℕ) : Grown (k+1) (removeTarget lib g cmp) := by
  have hlen : g.edges.length ≤ k+1 := h.edges.trans (Nat.le_succ k)
  refine ⟨by rw [remove_target_edges]; exact hlen, ?_⟩
  rw [removeTarget]
  split_ifs
  · have hlow : Low (k*(k+5)/2) { g with targets := g.targets.erase cmp } := h.low
    have hbfs := bfs_length (hnodup g.edges cmp)
    have hsize := h.edges
    refine low_mono (visits_low lib (lib.bfs g.edges cmp) _ _ hlow) ?_
    rw [growth_succ]
    omega
  · exact low_mono h.low (by rw [growth_succ]; omega)

theorem start_grown (data : CfgFile) : Grown 0 (emptyGraph data) :=
  ⟨Nat.le_refl 0, fun _ he => absurd he List.not_mem_nil⟩

theorem run_grown (hnodup : ∀ edges start, (lib.bfs edges start).Nodup) (data : CfgFile)
    (ops : List Op) : Grown ops.length (run lib (emptyGraph data) ops) := by
  induction ops using List.reverseRecOn with
  | nil => exact start_grown data
  | append_singleton ops op ih =>
    rw [run_snoc, List.length_append]
    cases op with
    | addEdge edge => exact add_edge_grown hnodup ih edge
    | removeTarget cmp => exact remove_target_grown hnodup ih cmp

/-- So many calls make no score overflow. -/
def callBound : ℕ := 2^16

theorem growth_lt (h : k ≤ callBound) : k*(k+5)/2 < UNDEF_SCORE-1 := by
  have hle : k*(k+5) ≤ callBound*(callBound+5) := Nat.mul_le_mul h (Nat.add_le_add_right h 5)
  exact Nat.lt_of_le_of_lt (Nat.div_le_div_right hle) (by decide)

/-- The propagation after an insertion leaves the weights room. -/
theorem insert_room (hnodup : ∀ edges start, (lib.bfs edges start).Nodup) (h : Grown k g)
    (hk : k < callBound) (edge : Edge) :
    Low (k*(k+5)/2+1) (graphAddEdge g edge (scoreForCmp lib g edge.2)) ∧
      k*(k+5)/2+1 + (lib.bfs (graphAddEdge g edge (scoreForCmp lib g edge.2)).edges
        edge.1).length < UNDEF_SCORE-1 := by
  refine ⟨insert_low lib h.low edge, ?_⟩
  have hlen := graph_add_edge_length (g := g) edge (scoreForCmp lib g edge.2)
  have hbfs := bfs_length (hnodup (graphAddEdge g edge (scoreForCmp lib g edge.2)).edges edge.1)
  have hlt := growth_lt (k := k+1) hk
  have hedges := h.edges
  rw [growth_succ] at hlt
  omega

theorem mean_grown (h : Grown k g) (hk : k ≤ callBound) (v : ℕ) :
    definedMean lib g v < UNDEF_SCORE-1 :=
  Nat.lt_of_le_of_lt (mean_low h.low v) (growth_lt hk)

end Grown

end Parmesan.CfgGrowth
