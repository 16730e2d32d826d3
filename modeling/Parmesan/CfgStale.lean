import Parmesan.CfgOrder

/-!
# Weights that stay behind

When the edges of all nodes that lead to a node come first, nothing visits that
node afterwards, and the weights into it keep the score it had then. Without
cycles the shallow files are thus those whose order of edges does not matter to
the weights of loose nodes.
-/

set_option autoImplicit false

namespace Parmesan.CfgStale
open Parmesan.Traversal Parmesan.CfgModel Parmesan.CfgGrowth Parmesan.CfgOrder

section Live
variable {lib : Library} {targets : Finset ℕ} {g : ControlFlowGraph} {m : ℕ}

/-- The weights into `x` tell whether it is a target, and whether an edge leaves it. -/
def Live (targets : Finset ℕ) (g : ControlFlowGraph) (x : ℕ) : Prop :=
  x ∉ targets → ∀ u, (u, x) ∈ g.edges →
    g.weight (u, x) ≠ TARGET_SCORE ∧ ((∃ b, (x, b) ∈ g.edges) → g.weight (u, x) ≠ UNDEF_SCORE)

theorem live_score (htargets : g.targets = targets) (hlow : Low m g) (hm : m < UNDEF_SCORE-1)
    {x : ℕ} (hx : x ∉ targets) :
    scoreForCmp lib g x ≠ TARGET_SCORE ∧
      ((∃ b, (x, b) ∈ g.edges) → scoreForCmp lib g x ≠ UNDEF_SCORE) := by
  constructor
  · intro h
    exact hx (htargets ▸ target_of_score hlow (Nat.lt_of_lt_of_le hm (Nat.sub_le _ _)) h)
  · rintro hb h
    have hnil := (dead_of_score hlow hm h).2
    rw [out_weights_nil, Bool.eq_false_iff, ne_eq, any_out_iff] at hnil
    exact hnil hb

theorem live_visit (htargets : g.targets = targets) (hlow : Low m g) (hm : m < UNDEF_SCORE-1)
    {v x : ℕ} (hl : x ≠ v → Live targets g x) : Live targets (visit lib g v) x := by
  intro hx u hu
  rw [visit_edges] at hu ⊢
  rw [visit_eq]
  simp only
  split_ifs with hin
  · rw [← hin.1]
    exact live_score htargets hlow hm hx
  · exact hl (fun h => hin ⟨h, hu⟩) hx u hu

theorem live_insert {k : ℕ} (htargets : g.targets = targets) (hgrown : Grown k g)
    (hk : k ≤ callBound) {edge : Edge} {x : ℕ} (hold : x = edge.1 → ∃ b, (x, b) ∈ g.edges)
    (hl : Live targets g x) :
    Live targets (graphAddEdge g edge (scoreForCmp lib g edge.2)) x := by
  intro hx u hu
  have hout : (∃ b, (x, b) ∈ (graphAddEdge g edge (scoreForCmp lib g edge.2)).edges) →
      ∃ b, (x, b) ∈ g.edges := by
    rintro ⟨b, hb⟩
    rcases (mem_graph_add_edge _ _ _).mp hb with hb | rfl
    · exact ⟨b, hb⟩
    · exact hold rfl
  by_cases heq : (u, x) = edge
  · subst heq
    rw [graph_add_edge_weight, Function.update_self]
    exact (live_score htargets hgrown.low (growth_lt hk) hx).imp_right fun hundef hb =>
      hundef (hout hb)
  · rw [graph_add_edge_weight, Function.update_of_ne heq]
    exact (hl hx u (((mem_graph_add_edge _ _ _).mp hu).resolve_right heq)).imp_right
      fun hundef hb => hundef (hout hb)

theorem add_edge_live (hnodup : ∀ edges start, (lib.bfs edges start).Nodup)
    (htargets : g.targets = targets) {k : ℕ} (hgrown : Grown k g) (hk : k < callBound)
    (hl : ∀ x, Live targets g x) (edge : Edge) (x : ℕ) :
    Live targets (addEdge lib g edge).1 x := by
  obtain ⟨hlow, hroom⟩ := insert_room hnodup hgrown hk edge
  simp only [addEdge, handleNewEdge]
  split_ifs with hsame
  · intro hx
    apply live_insert htargets hgrown hk.le _ (hl x) hx
    rintro rfl
    by_contra hnone
    have hdead : scoreForCmp lib g edge.1 = UNDEF_SCORE := by
      apply score_dead (htargets ▸ hx)
      rwa [out_weights_nil, Bool.eq_false_iff, ne_eq, any_out_iff]
    rw [hdead] at hsame
    apply (live_score (g := graphAddEdge g edge (scoreForCmp lib g edge.2)) htargets hlow
      (Nat.lt_of_le_of_lt (Nat.le_add_right _ _) hroom) hx).2 _ hsame.symm
    exact ⟨edge.2, (mem_graph_add_edge _ _ _).mpr (Or.inr rfl)⟩
  · rw [graph_add_edge_again, propagateScore]
    refine (visits_settle (I := fun m g => g.targets = targets ∧ Low m g) (P := Live targets)
      (fun m g v _ hg => ⟨(visit_targets v).trans hg.1, visit_low lib hg.2 v⟩)
      (fun m g v x hm hg => live_visit hg.1 hg.2 (hm.trans hroom)) _ _
      (graphAddEdge g edge (scoreForCmp lib g edge.2)) (Nat.le_refl _) ⟨htargets, hlow⟩ ?_).2 x
    intro y hy
    apply live_insert htargets hgrown hk.le _ (hl y)
    rintro rfl
    exact absurd ((lib.mem_bfs _ _ _).mpr Relation.ReflTransGen.refl) hy

end Live

section Apart
variable {lib : Library} {edges : List Edge} {e : Edge}

theorem visits_apart (vs : List ℕ) (g : ControlFlowGraph) (h : e.2 ∉ vs) :
    (vs.foldl (visit lib) g).weight e = g.weight e := by
  induction vs generalizing g with
  | nil => rfl
  | cons v vs ih =>
    rw [List.mem_cons, not_or] at h
    rw [List.foldl_cons, ih _ h.2, visit_eq]
    exact if_neg fun hin => h.1 hin.1

/-- A call for an edge that does not lead to `e` leaves its weight. -/
theorem add_edge_apart {g : ControlFlowGraph} (hsub : g.edges ⊆ edges) {edge : Edge}
    (hedge : edge ∈ edges) (hwalk : ¬ Walk edges edge.1 e.2) :
    (addEdge lib g edge).1.weight e = g.weight e := by
  have hne : e ≠ edge := by
    rintro rfl
    exact hwalk (Relation.ReflTransGen.single hedge)
  have hinsert : (graphAddEdge g edge (scoreForCmp lib g edge.2)).weight e = g.weight e :=
    Function.update_of_ne hne _ _
  simp only [addEdge, handleNewEdge]
  split_ifs
  · exact hinsert
  · rw [graph_add_edge_again, propagateScore, visits_apart _ _ fun hin => ?_, hinsert]
    apply hwalk
    refine walk_mono ?_ ((lib.mem_bfs _ _ _).mp hin)
    intro f hf
    rcases (mem_graph_add_edge _ _ _).mp hf with hf | rfl
    · exact hsub hf
    · exact hedge

theorem fold_apart (late : List Edge) (g : ControlFlowGraph) (hsub : g.edges ⊆ edges)
    (hlate : ∀ edge ∈ late, edge ∈ edges ∧ ¬ Walk edges edge.1 e.2) :
    (late.foldl (fun g e => (addEdge lib g e).1) g).weight e = g.weight e := by
  induction late generalizing g with
  | nil => rfl
  | cons edge late ih =>
    obtain ⟨hedge, hwalk⟩ := hlate edge List.mem_cons_self
    rw [List.foldl_cons, ih, add_edge_apart hsub hedge hwalk]
    · intro f hf
      rcases (mem_add_edge edge f).mp hf with hf | rfl
      · exact hsub hf
      · exact hedge
    · exact fun f hf => hlate f (List.mem_cons_of_mem edge hf)

end Apart

section Order
variable {lib : Library} (hzero : ∀ vals, 0 ∈ vals → lib.harmonic vals = 0)
  (hpos : ∀ vals, vals ≠ [] → (∀ x ∈ vals, 1 ≤ x) → 1 ≤ lib.harmonic vals)
  (hnodup : ∀ edges start, (lib.bfs edges start).Nodup) (data : CfgFile)
  (hsize : data.edges.length ≤ callBound)
include hzero hpos hnodup hsize

theorem small_ones : Regular data.targets data.edges (newGraph lib data) ∧
    ∀ x, Ones lib data.targets data.edges (newGraph lib data) x :=
  fold_ones hzero hpos hnodup data (fun _ _ _ _ => Or.inr (Or.inl hsize)) data.edges
    (List.prefix_refl _)

theorem fold_live (es : List Edge) (hes : es <+: data.edges) (x : ℕ) :
    Live data.targets (es.foldl (fun g e => (addEdge lib g e).1) (emptyGraph data)) x := by
  induction es using List.reverseRecOn generalizing x with
  | nil => exact fun _ _ he => absurd he List.not_mem_nil
  | append_singleton es e ih =>
    have hprefix : es <+: data.edges := (List.prefix_append es [e]).trans hes
    have hr := (fold_ones hzero hpos hnodup data (fun _ _ _ _ => Or.inr (Or.inl hsize)) es
      hprefix).1
    have hgrown := run_grown hnodup data (es.map Op.addEdge)
    rw [run, List.foldl_map, List.length_map] at hgrown
    have hlen := hes.length_le
    rw [List.length_append] at hlen
    rw [List.foldl_concat]
    exact add_edge_live hnodup hr.targets_eq hgrown (hlen.trans hsize) (ih hprefix) e x

theorem score_ne_one {v w x : ℕ} (hv : Loose data.targets data.edges v)
    (hvw : (v, w) ∈ data.edges) (hwx : (w, x) ∈ data.edges) (hw : w ∉ data.targets) :
    scoreForCmp lib (newGraph lib data) v ≠ 1 := by
  have hr := (small_ones hzero hpos hnodup data hsize).1
  have hlive : ∀ x, Live data.targets (newGraph lib data) x :=
    fold_live hzero hpos hnodup data hsize data.edges (List.prefix_refl _)
  have hin : ∀ e, e ∈ (newGraph lib data).edges ↔ e ∈ data.edges := new_graph_edges data
  have ht : v ∉ (newGraph lib data).targets := by
    rw [hr.targets_eq]
    exact hv.1
  rw [ne_eq, score_one_iff hzero hpos (regular_low hr) (by decide) ht]
  rintro ⟨-, htarget | hundef⟩
  · obtain ⟨b, hb, hweight⟩ := mem_out_weights htarget
    exact (hlive b (fun ht => hv.2 b ht ((hin _).mp hb)) v hb).1 hweight
  · apply (hlive w hw v ((hin _).mpr hvw)).2 ⟨x, (hin _).mpr hwx⟩
    exact hundef _ (weight_mem ((hin _).mpr hvw))

open Classical in
/-- The edges of the nodes that lead to `v` come first: then `u` has stored a
score of one for `v`, and no later call visits `v`. -/
theorem stale_order {u v w x : ℕ} (hu : Loose data.targets data.edges u)
    (hv : Loose data.targets data.edges v) (huv : (u, v) ∈ data.edges)
    (hvw : (v, w) ∈ data.edges) (hwx : (w, x) ∈ data.edges) (hw : w ∉ data.targets)
    (hcycle : ∀ b, (v, b) ∈ data.edges → ¬ Walk data.edges b v) :
    ∃ edges : List Edge, edges.Perm data.edges ∧
      (newGraph lib { data with edges }).weight (u, v) = 1 ∧
      scoreForCmp lib (newGraph lib { data with edges }) v ≠ 1 := by
  let early := data.edges.filter fun e => Walk data.edges e.1 v
  let late := data.edges.filter fun e => !decide (Walk data.edges e.1 v)
  have hearly : ∀ e, e ∈ early ↔ e ∈ data.edges ∧ Walk data.edges e.1 v := fun e => by
    simp [early]
  have hlate : ∀ e ∈ late, e ∈ data.edges ∧ ¬ Walk data.edges e.1 v := fun e => by
    simp [late]
  have hperm : (early ++ late).Perm data.edges := List.filter_append_perm _ _
  refine ⟨early ++ late, hperm, ?_, ?_⟩
  · obtain ⟨hr, ho⟩ := small_ones hzero hpos hnodup { data with edges := early }
      ((List.length_filter_le _ _).trans hsize)
    have hsub : early ⊆ data.edges := fun e he => ((hearly e).mp he).1
    have hone : scoreForCmp lib (newGraph lib { data with edges := early }) v = 1 := by
      apply flat_score hr _ hv.1
      · rw [ne_eq, out_weights_nil, Bool.eq_false_iff, not_not, any_out_iff]
        exact ⟨w, (new_graph_edges _ _).mpr ((hearly _).mpr ⟨hvw, Relation.ReflTransGen.refl⟩)⟩
      · intro b c hb hc
        exact absurd ((hearly _).mp hc).2 (hcycle b (hsub hb))
    have hstored : (newGraph lib { data with edges := early }).weight (u, v) = 1 := by
      apply ho v u ⟨hu.1, fun t ht he => hu.2 t ht (hsub he)⟩ _ hone
      exact (new_graph_edges _ _).mpr ((hearly _).mpr ⟨huv, Relation.ReflTransGen.single huv⟩)
    rw [newGraph, List.foldl_append]
    refine (fold_apart late _ ?_ hlate).trans hstored
    exact fun e he => hsub ((new_graph_edges { data with edges := early } e).mp he)
  · exact score_ne_one hzero hpos hnodup { data with edges := early ++ late }
      (hperm.length_eq ▸ hsize) ((loose_congr data.targets (fun e => hperm.mem_iff) v).mpr hv)
      (hperm.mem_iff.mpr hvw) (hperm.mem_iff.mpr hwx) hw

/-- Without cycles, no order leaves a weight of a loose node out of date exactly
if the file is shallow. -/
theorem shallow_iff_current (ha : Acyclic data.edges) :
    Shallow data.targets data.edges ↔
      ∀ edges : List Edge, edges.Perm data.edges → ∀ u v, Loose data.targets data.edges u →
        (u, v) ∈ data.edges → (newGraph lib { data with edges }).weight (u, v) =
          scoreForCmp lib (newGraph lib { data with edges }) v := by
  constructor
  · intro hs edges hperm u v hu huv
    have hs' : Shallow data.targets edges := shallow_perm data.targets hperm hs
    have hmem : ∀ e, e ∈ edges ↔ e ∈ data.edges := fun e => hperm.mem_iff
    obtain ⟨hr, ho⟩ := small_ones hzero hpos hnodup { data with edges }
      (hperm.length_eq ▸ hsize)
    have hu' : Loose data.targets edges u := (loose_congr data.targets hmem u).mpr hu
    have hin : ∀ e, e ∈ (newGraph lib { data with edges }).edges ↔ e ∈ edges :=
      new_graph_edges _
    have hsucc : ∀ v, (u, v) ∈ (newGraph lib { data with edges }).edges →
        outWeights (newGraph lib { data with edges }) v ≠ [] →
          scoreForCmp lib (newGraph lib { data with edges }) v = 1 := fun v hv =>
      successor_score hzero hs' hr (fun e => (hin e).mpr) hu' ((hin _).mp hv)
    have huv' := (hin (u, v)).mpr ((hmem _).mpr huv)
    rw [loose_weight hr ho hu' hsucc huv']
    split_ifs with hany
    · refine (hsucc v huv' ?_).symm
      rw [ne_eq, out_weights_nil, hany]
      decide
    · refine (score_dead ?_ ((out_weights_nil _ _).mpr (Bool.eq_false_iff.mpr hany))).symm
      rw [hr.targets_eq]
      exact fun ht => hu.2 v ht huv
  · intro hcur u v w x hu huv hvw hwx hw
    refine ⟨fun hv => ?_, Or.inl hsize⟩
    obtain ⟨edges, hperm, hweight, hscore⟩ := stale_order hzero hpos hnodup data hsize hu hv huv
      hvw hwx hw fun b hb hwalk => acyclic_walk ha hwalk hb
    exact hscore ((hcur edges hperm u v hu huv).symm.trans hweight)

end Order

end Parmesan.CfgStale
