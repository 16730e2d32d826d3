import Parmesan.CfgGrowth

/-!
# Scores and paths to a target

Whether a node has a score is compared with whether it can reach a target, and
the cached weights with the scores they cache, over any calls of `add_edge` and
`remove_target`.
-/

set_option autoImplicit false

namespace Parmesan.CfgScore
open Parmesan.Traversal Parmesan.CfgModel Parmesan.CfgGrowth

def addedEdges : List Op → List Edge
  | [] => []
  | .addEdge e::ops => e::addedEdges ops
  | .removeTarget _::ops => addedEdges ops

theorem added_edges_append (ops ops' : List Op) :
    addedEdges (ops ++ ops') = addedEdges ops ++ addedEdges ops' := by
  induction ops with
  | nil => rfl
  | cons op ops ih => cases op <;> simp [addedEdges, ih]

theorem run_edges (lib : Library) (targets : Finset ℕ) (ops : List Op) (e : Edge) :
    e ∈ (run lib (start targets) ops).edges ↔ e ∈ addedEdges ops := by
  induction ops using List.reverseRecOn with
  | nil => exact Iff.rfl
  | append_singleton ops op ih =>
    rw [run_snoc, added_edges_append, List.mem_append, ← ih]
    cases op with
    | addEdge edge => simpa [addedEdges, apply] using mem_add_edge edge e
    | removeTarget cmp => simp [addedEdges, apply, remove_target_edges]

theorem run_targets (lib : Library) (targets : Finset ℕ) (ops : List Op) (t : ℕ) :
    t ∈ (run lib (start targets) ops).targets ↔ t ∈ targets ∧ Op.removeTarget t ∉ ops := by
  induction ops using List.reverseRecOn with
  | nil => simp [run, start, emptyGraph]
  | append_singleton ops op ih =>
    rw [run_snoc, List.mem_append, not_or, ← and_assoc, ← ih]
    cases op with
    | addEdge edge => simp [apply, add_edge_targets]
    | removeTarget cmp =>
      rw [apply, remove_target_targets, Finset.mem_erase, List.mem_singleton, and_comm,
        Op.removeTarget.injEq]

def Reaches (targets : Finset ℕ) (ops : List Op) (c : ℕ) : Prop :=
  ∃ t, (t ∈ targets ∧ Op.removeTarget t ∉ ops) ∧ Walk (addedEdges ops) c t

/-- The mean of the defined weights behind a node is the largest number below
`UNDEF_SCORE`, so that adding one to it makes the score undefined. -/
def Saturated (lib : Library) (g : ControlFlowGraph) (c : ℕ) : Prop :=
  lib.harmonic ((outWeights g c).filter fun v => v ≠ UNDEF_SCORE) = UNDEF_SCORE-1

section Bounds
variable {lib : Library} {g : ControlFlowGraph}

theorem visits_bounded (vs : List ℕ) (g : ControlFlowGraph) (h : Bounded g) :
    Bounded (vs.foldl (visit lib) g) := by
  induction vs generalizing g with
  | nil => exact h
  | cons v vs ih => exact ih _ (visit_bounded h v)

theorem apply_bounded (h : Bounded g) (op : Op) : Bounded (apply lib g op) := by
  cases op with
  | addEdge edge =>
    simp only [apply, addEdge, handleNewEdge]
    have h1 : Bounded (graphAddEdge g edge (scoreForCmp lib g edge.2)) :=
      graph_add_edge_bounded h (score_bounded lib g edge.2)
    split_ifs
    · exact h1
    · exact visits_bounded _ _ (graph_add_edge_bounded h1 (score_bounded lib g edge.2))
  | removeTarget cmp =>
    simp only [apply, removeTarget]
    split_ifs
    · exact visits_bounded _ { g with targets := g.targets.erase cmp } h
    · exact h

theorem run_bounded (lib : Library) (targets : Finset ℕ) (ops : List Op) :
    Bounded (run lib (start targets) ops) := by
  induction ops using List.reverseRecOn with
  | nil => exact fun _ => Nat.le_refl _
  | append_singleton ops op ih =>
    rw [run_snoc]
    exact apply_bounded ih op

theorem harmonic_lt (h : Bounded g) (c : ℕ) :
    lib.harmonic ((outWeights g c).filter fun v => v ≠ UNDEF_SCORE) ≤ UNDEF_SCORE-1 := by
  by_cases hne : (outWeights g c).filter (fun v => v ≠ UNDEF_SCORE) = []
  · rw [hne, lib.harmonic_empty]
    exact Nat.zero_le _
  · apply lib.harmonic_le _ _ hne
    intro x hx
    obtain ⟨hx, hdef⟩ := List.mem_filter.mp hx
    obtain ⟨e, -, rfl⟩ := List.mem_map.mp hx
    have hle := h e
    have hne : g.weight e ≠ UNDEF_SCORE := by simpa using hdef
    omega

theorem has_score_spec (h : Bounded g) (c : ℕ) :
    hasScore lib g c = true ↔
      c ∈ g.targets ∨ (∃ b, (c, b) ∈ g.edges) ∧ ¬ Saturated lib g c := by
  have hout : outWeights g c = [] ↔ ¬ ∃ b, (c, b) ∈ g.edges := by
    rw [outWeights, List.map_eq_nil_iff, List.filter_eq_nil_iff]
    constructor
    · rintro hnone ⟨b, hb⟩
      exact hnone (c, b) hb (by simp)
    · rintro hnone ⟨a, b⟩ hb heq
      obtain rfl : a = c := by simpa using heq
      exact hnone ⟨b, hb⟩
  have hlt : lib.harmonic ((outWeights g c).filter fun v => v ≠ UNDEF_SCORE) ≤ UNDEF_SCORE-1 :=
    harmonic_lt h c
  rw [hasScore, decide_eq_true_eq, score_for_cmp_eq]
  by_cases ht : c ∈ g.targets
  · rw [if_pos ht]
    exact iff_of_true (by decide) (Or.inl ht)
  · rw [if_neg ht, scoreHarmonicMean]
    by_cases hw : outWeights g c = []
    · rw [if_pos hw]
      refine iff_of_false (fun h => h rfl) ?_
      rintro (h | h)
      · exact ht h
      · exact hout.mp hw h.1
    · rw [if_neg hw]
      have hedge := not_not.mp (fun hn => hw (hout.mpr hn))
      unfold Saturated
      generalize lib.harmonic _ = m at hlt ⊢
      simp only [UNDEF_SCORE] at hlt ⊢
      rw [Nat.mod_eq_of_lt (by omega)]
      constructor
      · intro hm
        exact Or.inr ⟨hedge, by omega⟩
      · rintro (h | ⟨-, h⟩)
        · exact absurd h ht
        · omega

end Bounds

theorem run_has_path (lib : Library) (targets : Finset ℕ) (ops : List Op) (c : ℕ) :
    hasPathToTarget lib (run lib (start targets) ops) c = true ↔ Reaches targets ops c := by
  have hpath := @has_path_iff lib (run lib (start targets) ops) c
  have hwalk : ∀ t, Walk (run lib (start targets) ops).edges c t ↔ Walk (addedEdges ops) c t := by
    intro t
    constructor
    · exact walk_mono fun e he => (run_edges lib targets ops e).mp he
    · exact walk_mono fun e he => (run_edges lib targets ops e).mpr he
  simp only [run_targets, hwalk] at hpath
  exact hpath

theorem run_has_score (lib : Library) (targets : Finset ℕ) (ops : List Op) (c : ℕ) :
    (hasScore lib (run lib (start targets) ops) c = true ↔ Reaches targets ops c) ↔
      (c ∈ targets ∧ Op.removeTarget c ∉ ops) ∨ (∀ b, (c, b) ∉ addedEdges ops) ∨
        (Reaches targets ops c ↔ ¬ Saturated lib (run lib (start targets) ops) c) := by
  have hspec := @has_score_spec lib _ (run_bounded lib targets ops) c
  simp only [run_edges, run_targets] at hspec
  have hreach : Reaches targets ops c →
      (c ∈ targets ∧ Op.removeTarget c ∉ ops) ∨ ∃ b, (c, b) ∈ addedEdges ops := by
    rintro ⟨t, ht, hw⟩
    rcases Relation.ReflTransGen.cases_head hw with rfl | ⟨b, hb, -⟩
    · exact Or.inl ht
    · exact Or.inr ⟨b, hb⟩
  have hself : (c ∈ targets ∧ Op.removeTarget c ∉ ops) → Reaches targets ops c := fun h =>
    ⟨c, h, Relation.ReflTransGen.refl⟩
  rw [hspec, ← not_exists]
  generalize (c ∈ targets ∧ Op.removeTarget c ∉ ops) = isTarget at hreach hself ⊢
  generalize (∃ b, (c, b) ∈ addedEdges ops) = hasEdges at hreach ⊢
  by_cases ht : isTarget
  · exact iff_of_true (iff_of_true (Or.inl ht) (hself ht)) (Or.inl ht)
  · simp only [ht, false_or] at hreach ⊢
    by_cases he : hasEdges
    · simp only [he, true_and, not_true_eq_false, false_or]
      exact Iff.comm
    · simp only [he, false_and, false_iff, not_false_eq_true, true_or, iff_true]
      exact fun hr => he (hreach hr)

/-- After any calls, `has_path_to_target` is exact, and a node has a score
exactly when it reaches a target if it is a target, or has no edge, or reaches a
target just when the mean behind it is not the largest number. In the first
`callBound` calls the mean never is. -/
theorem has_score_iff_path (lib : Library) (targets : Finset ℕ) (ops : List Op) (c : ℕ) :
    (hasPathToTarget lib (run lib (start targets) ops) c = true ↔ Reaches targets ops c) ∧
    ((hasScore lib (run lib (start targets) ops) c = true ↔ Reaches targets ops c) ↔
      (c ∈ targets ∧ Op.removeTarget c ∉ ops) ∨ (∀ b, (c, b) ∉ addedEdges ops) ∨
        (Reaches targets ops c ↔ ¬ Saturated lib (run lib (start targets) ops) c)) ∧
    ((∀ edges start, (lib.bfs edges start).Nodup) → ops.length ≤ callBound →
      ((hasScore lib (run lib (start targets) ops) c = true ↔ Reaches targets ops c) ↔
        (c ∈ targets ∧ Op.removeTarget c ∉ ops) ∨ (∀ b, (c, b) ∉ addedEdges ops) ∨
          Reaches targets ops c)) := by
  refine ⟨run_has_path lib targets ops c, run_has_score lib targets ops c, ?_⟩
  intro hnodup hops
  have hgrown : Grown ops.length (run lib (start targets) ops) := run_grown hnodup _ ops
  have hmean : ¬ Saturated lib (run lib (start targets) ops) c :=
    Nat.ne_of_lt (mean_grown hgrown hops c)
  rw [run_has_score, iff_true_right hmean]

theorem has_score_iff_path_chain :
    hasScore reference (run reference (start {3}) [.addEdge (1, 2), .addEdge (2, 3)]) 1 = true ↔
      Reaches {3} [.addEdge (1, 2), .addEdge (2, 3)] 1 := by
  apply ((has_score_iff_path reference {3} [.addEdge (1, 2), .addEdge (2, 3)] 1).2.2
    visit_from_nodup (by decide)).mpr
  have hwalk : Walk (addedEdges [.addEdge (1, 2), .addEdge (2, 3)]) 1 2 :=
    Relation.ReflTransGen.single (by decide)
  exact Or.inr (Or.inr ⟨3, ⟨by decide, by decide⟩, hwalk.tail (by decide)⟩)

/-- An edge to a node from which nothing is reached still gives a score. -/
theorem edge_without_target_scores :
    hasScore reference (run reference (start ∅) [.addEdge (1, 2)]) 1 = true ∧
    scoreForCmp reference (run reference (start ∅) [.addEdge (1, 2)]) 1 = 1 ∧
    hasPathToTarget reference (run reference (start ∅) [.addEdge (1, 2)]) 1 = false ∧
    ¬ Reaches ∅ [.addEdge (1, 2)] 1 := by
  refine ⟨by decide, by decide, by decide, ?_⟩
  rintro ⟨t, ht, -⟩
  exact absurd ht.1 (Finset.notMem_empty t)

def Current (lib : Library) (g : ControlFlowGraph) : Prop :=
  ∀ e ∈ g.edges, g.weight e = scoreForCmp lib g e.2

/-- The graph of a call before it propagates, and the node whose score may differ. -/
def changed (lib : Library) (g : ControlFlowGraph) : Op → ControlFlowGraph × ℕ
  | .addEdge edge => (graphAddEdge g edge (scoreForCmp lib g edge.2), edge.1)
  | .removeTarget cmp => ({ g with targets := g.targets.erase cmp }, cmp)

def stored (lib : Library) (g : ControlFlowGraph) (op : Op) : ControlFlowGraph :=
  storeInto (changed lib g op).1 (changed lib g op).2
    (scoreForCmp lib (changed lib g op).1 (changed lib g op).2)

/-- Storing the new score changes the score of no predecessor of the node that
has a predecessor itself. -/
def Settles (lib : Library) (g : ControlFlowGraph) (op : Op) : Prop :=
  ∀ q p, (q, p) ∈ (changed lib g op).1.edges →
    (p, (changed lib g op).2) ∈ (changed lib g op).1.edges →
    scoreForCmp lib (stored lib g op) p = scoreForCmp lib g p

section Acyclic
variable {lib : Library} {g h : ControlFlowGraph} {x : ℕ}

def CurrentBut (lib : Library) (g : ControlFlowGraph) (x : ℕ) : Prop :=
  ∀ e ∈ g.edges, e.2 ≠ x → g.weight e = scoreForCmp lib g e.2

structure Within (g h : ControlFlowGraph) (x : ℕ) : Prop where
  edges : h.edges = g.edges
  targets : h.targets = g.targets
  weight : ∀ e ∈ g.edges, e.2 ≠ x → h.weight e = g.weight e

theorem within_score (hw : Within g h x) {v : ℕ} (hv : (v, x) ∉ g.edges) :
    scoreForCmp lib h v = scoreForCmp lib g v := by
  apply score_congr
  · rw [hw.targets]
  · apply out_weights_congr hw.edges
    rintro ⟨a, b⟩ he rfl
    apply hw.weight _ he
    rintro rfl
    exact hv he

theorem within_visit (ha : Acyclic g.edges) (hc : CurrentBut lib g x) (hw : Within g h x) {v : ℕ}
    (hv : Walk g.edges x v) : Within g (visit lib h v) x where
  edges := (visit_edges v).trans hw.edges
  targets := (visit_targets v).trans hw.targets
  weight := by
    intro e he hne
    rw [visit_eq]
    simp only
    split_ifs with hin
    · rw [within_score hw (acyclic_walk ha hv), ← hin.1]
      exact (hc e he hne).symm
    · exact hw.weight e he hne

theorem within_visits (ha : Acyclic g.edges) (hc : CurrentBut lib g x) (vs : List ℕ)
    (hvs : ∀ v ∈ vs, Walk g.edges x v) (h : ControlFlowGraph) (hw : Within g h x) :
    Within g (vs.foldl (visit lib) h) x := by
  induction vs generalizing h with
  | nil => exact hw
  | cons v vs ih =>
    exact ih (fun w hin => hvs w (List.mem_cons_of_mem v hin)) _
      (within_visit ha hc hw (hvs v List.mem_cons_self))

def Reset (lib : Library) (g h : ControlFlowGraph) (x : ℕ) : Prop :=
  ∀ e ∈ g.edges, e.2 = x → h.weight e = scoreForCmp lib g x

theorem reset_visit (ha : Acyclic g.edges) (hw : Within g h x) {v : ℕ} (hv : Walk g.edges x v)
    (hr : v ≠ x → Reset lib g h x) : Reset lib g (visit lib h v) x := by
  rintro e he rfl
  rw [visit_eq]
  simp only
  split_ifs with hin
  · rw [within_score hw (acyclic_walk ha hv), hin.1]
  · apply hr _ e he rfl
    rintro rfl
    exact hin ⟨rfl, hw.edges ▸ he⟩

theorem reset_visits (ha : Acyclic g.edges) (hc : CurrentBut lib g x) (vs : List ℕ)
    (hvs : ∀ v ∈ vs, Walk g.edges x v) (h : ControlFlowGraph) (hw : Within g h x)
    (hr : x ∉ vs → Reset lib g h x) : Reset lib g (vs.foldl (visit lib) h) x := by
  induction vs generalizing h with
  | nil => exact hr List.not_mem_nil
  | cons v vs ih =>
    have hv := hvs v List.mem_cons_self
    apply ih (fun w hin => hvs w (List.mem_cons_of_mem v hin)) _ (within_visit ha hc hw hv)
    intro hx
    apply reset_visit ha hw hv
    intro hne
    apply hr
    rw [List.mem_cons]
    rintro (rfl | hin)
    · exact hne rfl
    · exact hx hin

/-- In an acyclic graph the whole propagation does what its first round does. -/
theorem propagate_visit (ha : Acyclic g.edges) (hc : CurrentBut lib g x) :
    ∀ e ∈ g.edges, (propagateScore lib g x).weight e = (visit lib g x).weight e := by
  have hvs : ∀ v ∈ lib.bfs g.edges x, Walk g.edges x v := fun v hv => (lib.mem_bfs _ _ _).mp hv
  have hx : x ∈ lib.bfs g.edges x := (lib.mem_bfs _ _ _).mpr Relation.ReflTransGen.refl
  have hself : Within g g x := ⟨rfl, rfl, fun _ _ _ => rfl⟩
  have hw := within_visits ha hc _ hvs g hself
  have hr := reset_visits ha hc _ hvs g hself fun hn => absurd hx hn
  intro e he
  rw [visit_eq]
  simp only
  split_ifs with hin
  · exact hr e he hin.1
  · exact hw.weight e he fun h => hin ⟨h, he⟩

theorem current_congr (hedges : h.edges = g.edges) (htargets : h.targets = g.targets)
    (hweight : ∀ e ∈ g.edges, h.weight e = g.weight e) : Current lib h ↔ Current lib g := by
  have hscore : ∀ v, scoreForCmp lib h v = scoreForCmp lib g v := fun v =>
    score_congr (by rw [htargets]) (out_weights_congr hedges fun e he _ => hweight e he)
  unfold Current
  rw [hedges]
  apply forall₂_congr
  intro e he
  rw [hweight e he, hscore]

theorem current_visit_iff (ha : Acyclic g.edges) (hc : CurrentBut lib g x) :
    Current lib (visit lib g x) ↔ ∀ q p, (q, p) ∈ g.edges → (p, x) ∈ g.edges →
      scoreForCmp lib (visit lib g x) p = scoreForCmp lib g p := by
  have hself : Within g g x := ⟨rfl, rfl, fun _ _ _ => rfl⟩
  have hw := within_visit ha hc hself Relation.ReflTransGen.refl
  have hr : Reset lib g (visit lib g x) x :=
    reset_visit ha hself Relation.ReflTransGen.refl fun hne => absurd rfl hne
  have hloop : (x, x) ∉ g.edges := acyclic_walk ha Relation.ReflTransGen.refl
  constructor
  · intro hcur q p hq hp
    have hne : p ≠ x := by
      rintro rfl
      exact hloop hp
    have hnew := hcur (q, p) ((visit_edges x).symm ▸ hq)
    rw [hw.weight _ hq hne, hc _ hq hne] at hnew
    exact hnew.symm
  · rintro hall ⟨q, p⟩ he
    rw [visit_edges] at he
    by_cases hpx : p = x
    · subst hpx
      rw [hr _ he rfl]
      exact (within_score hw hloop).symm
    · rw [hw.weight _ he hpx, hc _ he hpx]
      by_cases hp : (p, x) ∈ g.edges
      · exact (hall q p he hp).symm
      · exact (within_score hw hp).symm

theorem erase_score {cmp v : ℕ} (hv : v ≠ cmp) :
    scoreForCmp lib { g with targets := g.targets.erase cmp } v = scoreForCmp lib g v := by
  apply score_congr
  · simp [hv]
  · rfl

/-- The call changes no score but that of one node, and its graph ends up like
the one after the first round of the propagation. -/
structure Prepared (lib : Library) (g : ControlFlowGraph) (op : Op) : Prop where
  others : ∀ v, v ≠ (changed lib g op).2 →
    scoreForCmp lib (changed lib g op).1 v = scoreForCmp lib g v
  edges : (apply lib g op).edges = (changed lib g op).1.edges
  targets : (apply lib g op).targets = (changed lib g op).1.targets
  but : CurrentBut lib (changed lib g op).1 (changed lib g op).2
  weight : ∀ e ∈ (changed lib g op).1.edges, (apply lib g op).weight e =
    (visit lib (changed lib g op).1 (changed lib g op).2).weight e

theorem prepared_add_edge {edge : Edge} (hcur : Current lib g)
    (ha : Acyclic (graphAddEdge g edge (scoreForCmp lib g edge.2)).edges) :
    Prepared lib g (.addEdge edge) := by
  have hmem := fun e => mem_graph_add_edge (g := g) edge e (scoreForCmp lib g edge.2)
  have hloop : edge.2 ≠ edge.1 := by
    intro heq
    apply acyclic_walk ha (Relation.ReflTransGen.refl (a := edge.1))
    apply (hmem _).mpr
    exact Or.inr (Prod.ext rfl heq.symm)
  have hweight : ∀ e ∈ (graphAddEdge g edge (scoreForCmp lib g edge.2)).edges,
      (graphAddEdge g edge (scoreForCmp lib g edge.2)).weight e = scoreForCmp lib g e.2 := by
    intro e he
    by_cases heq : e = edge
    · subst heq
      simp [graphAddEdge]
    · rw [graph_add_edge_weight, Function.update_of_ne heq]
      exact hcur e (((hmem e).mp he).resolve_right heq)
  have hbut : CurrentBut lib (graphAddEdge g edge (scoreForCmp lib g edge.2)) edge.1 := by
    intro e he hne
    rw [hweight e he, graph_add_edge_score hne]
  constructor
  case others => exact fun v hv => graph_add_edge_score hv
  case but => exact hbut
  case edges =>
    simp only [apply, addEdge, handleNewEdge, changed]
    split_ifs
    · rfl
    · rw [graph_add_edge_again]
      exact (visits_same _ _).1
  case targets => exact add_edge_targets edge
  case weight =>
    simp only [apply, addEdge, handleNewEdge, changed]
    intro e he
    split_ifs with hsame
    · rw [visit_eq]
      simp only
      split_ifs with hin
      · rw [hweight e he, hin.1, hsame]
      · rfl
    · rw [graph_add_edge_again]
      exact propagate_visit ha hbut e he

theorem prepared_remove_target {cmp : ℕ} (hcur : Current lib g) (ha : Acyclic g.edges) :
    Prepared lib g (.removeTarget cmp) := by
  have hbut : CurrentBut lib { g with targets := g.targets.erase cmp } cmp := by
    intro e he hne
    rw [erase_score hne]
    exact hcur e he
  constructor
  case others => exact fun v hv => erase_score hv
  case but => exact hbut
  case edges => exact remove_target_edges cmp
  case targets => exact remove_target_targets cmp
  case weight =>
    simp only [apply, removeTarget, changed]
    intro e he
    split_ifs with hin
    · exact propagate_visit (g := { g with targets := g.targets.erase cmp }) ha hbut e he
    · have hsame : { g with targets := g.targets.erase cmp } = g := by
        rw [Finset.erase_eq_of_notMem hin]
      rw [hsame, visit_eq]
      simp only
      split_ifs with hinto
      · rw [hcur e he, hinto.1]
      · rfl

theorem apply_current_iff (hcur : Current lib g) (op : Op)
    (ha : Acyclic (changed lib g op).1.edges) :
    Current lib (apply lib g op) ↔ Settles lib g op := by
  have hp : Prepared lib g op := by
    cases op with
    | addEdge edge => exact prepared_add_edge hcur ha
    | removeTarget cmp => exact prepared_remove_target hcur ha
  have hvisit : Current lib (apply lib g op) ↔
      Current lib (visit lib (changed lib g op).1 (changed lib g op).2) := current_congr
    (hp.edges.trans (visit_edges _).symm) (hp.targets.trans (visit_targets _).symm)
    (fun e he => hp.weight e ((visit_edges _) ▸ he))
  rw [hvisit, current_visit_iff ha hp.but, visit_store, ← stored, Settles]
  apply forall₄_congr
  intro q p hq hpx
  have hne : p ≠ (changed lib g op).2 := by
    rintro rfl
    exact acyclic_walk ha Relation.ReflTransGen.refl hpx
  rw [hp.others p hne]

end Acyclic

theorem changed_edges_subset (lib : Library) (targets : Finset ℕ) (ops : List Op) (op : Op) :
    (changed lib (run lib (start targets) ops) op).1.edges ⊆ addedEdges (ops ++ [op]) := by
  intro e he
  rw [added_edges_append, List.mem_append]
  cases op with
  | addEdge edge =>
    rcases (mem_graph_add_edge _ _ _).mp he with he | rfl
    · exact Or.inl ((run_edges lib targets ops e).mp he)
    · exact Or.inr (by simp [addedEdges])
  | removeTarget cmp => exact Or.inl ((run_edges lib targets ops e).mp he)

/-- In a run whose edges form no cycle, the weights are current after every call
exactly when every call settles in the graph it is made on. -/
theorem weights_current_iff (lib : Library) (targets : Finset ℕ) (ops : List Op)
    (hacyclic : Acyclic (addedEdges ops)) :
    (∀ js, js <+: ops → Current lib (run lib (start targets) js)) ↔
      ∀ js op, js ++ [op] <+: ops → Settles lib (run lib (start targets) js) op := by
  have hstep : ∀ js op, js ++ [op] <+: ops → Current lib (run lib (start targets) js) →
      (Current lib (run lib (start targets) (js ++ [op])) ↔
        Settles lib (run lib (start targets) js) op) := by
    intro js op hpre hcur
    rw [run_snoc]
    apply apply_current_iff hcur op
    obtain ⟨rest, rfl⟩ := hpre
    apply acyclic_mono _ hacyclic
    rw [added_edges_append]
    exact List.subset_append_of_subset_left _ (changed_edges_subset lib targets js op)
  constructor
  · intro hall js op hpre
    exact (hstep js op hpre (hall js ((List.prefix_append js [op]).trans hpre))).mp
      (hall (js ++ [op]) hpre)
  · intro hall js
    induction js using List.reverseRecOn with
    | nil => exact fun _ e he => absurd he List.not_mem_nil
    | append_singleton js op ih =>
      intro hpre
      have hcur := ih ((List.prefix_append js [op]).trans hpre)
      exact (hstep js op hpre hcur).mpr (hall js op hpre)

theorem acyclic_of_lt {edges : List Edge} (h : ∀ e ∈ edges, e.1 < e.2) : Acyclic edges := by
  have hlt : ∀ a b, Relation.TransGen (fun a b => (a, b) ∈ edges) a b → a < b := by
    intro a b hw
    induction hw with
    | single he => exact h _ he
    | tail _ he ih => exact Nat.lt_trans ih (h _ he)
  exact fun v hv => Nat.lt_irrefl v (hlt v v hv)

theorem weights_current_iff_back_to_front :
    Acyclic (addedEdges [.addEdge (2, 3), .addEdge (1, 2)]) ∧
      Current reference (run reference (start {3}) [.addEdge (2, 3), .addEdge (1, 2)]) := by
  have hacyclic : Acyclic (addedEdges [.addEdge (2, 3), .addEdge (1, 2)]) :=
    acyclic_of_lt (by decide)
  refine ⟨hacyclic, (weights_current_iff reference {3} _ hacyclic).mpr ?_ _ (List.prefix_refl _)⟩
  intro js op hpre q p hq hp
  have hadded : addedEdges (js ++ [op]) ⊆ [(2, 3), (1, 2)] := by
    obtain ⟨rest, hrest⟩ := hpre
    have := congrArg addedEdges hrest
    rw [added_edges_append] at this
    intro e he
    have hin : e ∈ addedEdges (js ++ [op]) ++ addedEdges rest := List.mem_append_left _ he
    rw [this] at hin
    exact hin
  have hq' := hadded (changed_edges_subset reference {3} js op hq)
  have hp' := hadded (changed_edges_subset reference {3} js op hp)
  have hop := hpre.subset (List.mem_append_right js List.mem_cons_self)
  simp only [List.mem_cons, List.not_mem_nil, or_false] at hop
  rcases hop with rfl | rfl
  · simp [changed] at hq' hp'
    omega
  · simp [changed] at hp'

/-- A chain added from its first edge: the last edge changes the score of 3 and
with it that of 2, but the weight of the first edge stays. -/
theorem chain_keeps_stale_weight :
    Acyclic (addedEdges [.addEdge (1, 2), .addEdge (2, 3), .addEdge (3, 4)]) ∧
    (run reference (start {4}) [.addEdge (1, 2), .addEdge (2, 3), .addEdge (3, 4)]).weight (1, 2) =
      1 ∧
    scoreForCmp reference
      (run reference (start {4}) [.addEdge (1, 2), .addEdge (2, 3), .addEdge (3, 4)]) 2 = 2 ∧
    ¬ Current reference
      (run reference (start {4}) [.addEdge (1, 2), .addEdge (2, 3), .addEdge (3, 4)]) := by
  have hweight : (run reference (start {4})
      [.addEdge (1, 2), .addEdge (2, 3), .addEdge (3, 4)]).weight (1, 2) = 1 := by decide
  have hscore : scoreForCmp reference (run reference (start {4})
      [.addEdge (1, 2), .addEdge (2, 3), .addEdge (3, 4)]) 2 = 2 := by decide
  refine ⟨acyclic_of_lt (by decide), hweight, hscore, ?_⟩
  intro hcur
  have := hcur (1, 2) (by decide)
  rw [hweight, hscore] at this
  exact absurd this (by decide)

end Parmesan.CfgScore
