import Parmesan.CfgGrowth

/-!
# Scores and the order of insertion

`ControlFlowGraph::new` feeds a set of edges to `add_edge` in whatever order the
set is iterated. The scores come out the same when no chain of three edges
makes one of them depend on a weight that the propagation does not refresh.
-/

set_option autoImplicit false

namespace Parmesan.CfgOrder
open Parmesan.Traversal Parmesan.CfgModel Parmesan.CfgGrowth

def Loose (targets : Finset ℕ) (edges : List Edge) (u : ℕ) : Prop :=
  u ∉ targets ∧ ∀ t ∈ targets, (u, t) ∉ edges

def inner (targets : Finset ℕ) (edges : List Edge) : List Edge :=
  edges.filter fun e => e.1 ∉ targets

def Falling (targets : Finset ℕ) (edges : List Edge) (height : ℕ → ℕ) (x : ℕ) : Prop :=
  ∀ a b, Walk (inner targets edges) x a → (a, b) ∈ inner targets edges → height b < height a

/-- In a file of more than `callBound` edges, the walks from `x` that go on from
no target come to an end. -/
def Tame (targets : Finset ℕ) (edges : List Edge) (x : ℕ) : Prop :=
  edges.length ≤ callBound ∨ ∃ height, Falling targets edges height x ∧ height x ≤ UNDEF_SCORE

/-- Where a walk of three edges from a loose node has no target as its third
node, its second node is joined to a target. -/
def Shallow (targets : Finset ℕ) (edges : List Edge) : Prop :=
  ∀ u v w x, Loose targets edges u → (u, v) ∈ edges → (v, w) ∈ edges → (w, x) ∈ edges →
    w ∉ targets → ¬ Loose targets edges v ∧ Tame targets edges v

section Invariant
variable {lib : Library} {targets : Finset ℕ} {edges : List Edge} {g : ControlFlowGraph}

/-- A graph on its way to `edges`: the weights into targets and into nodes that
have no edge yet are what the scores of these nodes are. -/
structure Regular (targets : Finset ℕ) (edges : List Edge) (g : ControlFlowGraph) : Prop where
  targets_eq : g.targets = targets
  subset : g.edges ⊆ edges
  intoTarget : ∀ e ∈ g.edges, e.2 ∈ targets → g.weight e = TARGET_SCORE
  intoDead : ∀ e ∈ g.edges, e.2 ∉ targets → (∀ x, (e.2, x) ∉ g.edges) → g.weight e = UNDEF_SCORE
  bounded : Bounded g
  falling : ∀ height x, Falling targets edges height x → ∀ e ∈ g.edges,
    Walk (inner targets edges) x e.1 → e.1 ∉ targets → g.weight e ≠ UNDEF_SCORE →
      g.weight e ≤ height e.2

def Flat (targets : Finset ℕ) (edges : List Edge) (v : ℕ) : Prop :=
  ∀ w x, (v, w) ∈ edges → (w, x) ∈ edges → w ∈ targets

def Steady (targets : Finset ℕ) (edges : List Edge) : Prop :=
  ∀ u x, Loose targets edges u → (u, x) ∈ edges → Flat targets edges x ∨ Tame targets edges x

theorem shallow_steady (hs : Shallow targets edges) : Steady targets edges := by
  intro u v hu huv
  by_cases hflat : Flat targets edges v
  · exact Or.inl hflat
  · simp only [Flat, not_forall] at hflat
    obtain ⟨w, x, hvw, hwx, hw⟩ := hflat
    exact Or.inr (hs u v w x hu huv hvw hwx hw).2

/-- A score of one is what the edges from loose nodes have stored. -/
def Ones (lib : Library) (targets : Finset ℕ) (edges : List Edge) (g : ControlFlowGraph)
    (v : ℕ) : Prop :=
  ∀ u, Loose targets edges u → (u, v) ∈ g.edges → scoreForCmp lib g v = 1 → g.weight (u, v) = 1

theorem out_weights_nil (g : ControlFlowGraph) (v : ℕ) :
    outWeights g v = [] ↔ g.edges.any (fun e => e.1 = v) = false := by
  simp [outWeights, List.filter_eq_nil_iff]

theorem any_out_iff (g : ControlFlowGraph) (v : ℕ) :
    g.edges.any (fun e => e.1 = v) = true ↔ ∃ b, (v, b) ∈ g.edges := by
  rw [List.any_eq_true]
  constructor
  · rintro ⟨⟨a, b⟩, he, ha⟩
    obtain rfl : a = v := by simpa using ha
    exact ⟨b, he⟩
  · rintro ⟨b, hb⟩
    exact ⟨(v, b), hb, by simp⟩

theorem mem_out_weights {w v : ℕ} (h : w ∈ outWeights g v) :
    ∃ b, (v, b) ∈ g.edges ∧ g.weight (v, b) = w := by
  obtain ⟨⟨a, b⟩, he, rfl⟩ := List.mem_map.mp h
  obtain ⟨hmem, ha⟩ := List.mem_filter.mp he
  obtain rfl : a = v := by simpa using ha
  exact ⟨b, hmem, rfl⟩

theorem weight_mem {v b : ℕ} (h : (v, b) ∈ g.edges) : g.weight (v, b) ∈ outWeights g v :=
  List.mem_map.mpr ⟨(v, b), List.mem_filter.mpr ⟨h, by simp⟩, rfl⟩

theorem score_one {v : ℕ} (ht : v ∉ g.targets) (hout : outWeights g v ≠ [])
    (hmean : lib.harmonic ((outWeights g v).filter fun w => w ≠ UNDEF_SCORE) = 0) :
    scoreForCmp lib g v = 1 := by
  rw [score_for_cmp_eq, if_neg ht, scoreHarmonicMean, if_neg hout, hmean]
  rfl

theorem flat_score {v : ℕ} (hr : Regular targets edges g) (hflat : Flat targets edges v)
    (ht : v ∉ targets) (hout : outWeights g v ≠ []) : scoreForCmp lib g v = 1 := by
  apply score_one (hr.targets_eq ▸ ht) hout
  have hzero : ∀ w ∈ (outWeights g v).filter fun w => w ≠ UNDEF_SCORE, w ≤ 0 := by
    intro w hw
    obtain ⟨hw, hdef⟩ := List.mem_filter.mp hw
    obtain ⟨b, hb, rfl⟩ := mem_out_weights hw
    by_cases hbt : b ∈ targets
    · rw [hr.intoTarget _ hb hbt]
      exact Nat.le_refl 0
    · have hdead := hr.intoDead _ hb hbt fun x hx => hbt (hflat b x (hr.subset hb) (hr.subset hx))
      simp [hdead] at hdef
  by_cases hnil : (outWeights g v).filter (fun w => w ≠ UNDEF_SCORE) = []
  · rw [hnil]
    exact lib.harmonic_empty
  · exact Nat.le_zero.mp (lib.harmonic_le _ 0 hnil hzero)

theorem regular_low (hr : Regular targets edges g) : Low (UNDEF_SCORE-1) g := fun e _ hdef =>
  Nat.le_pred_of_lt (Nat.lt_of_le_of_ne (hr.bounded e) hdef)

theorem falling_score (hr : Regular targets edges g) {height : ℕ → ℕ} {x v : ℕ}
    (hf : Falling targets edges height x) (hv : Walk (inner targets edges) x v)
    (hlive : v ∉ g.targets → outWeights g v ≠ []) : scoreForCmp lib g v ≤ height v := by
  by_cases ht : v ∈ g.targets
  · rw [score_target ht]
    exact Nat.zero_le _
  have hbelow : ∀ b, (v, b) ∈ g.edges → height b < height v := fun b hb =>
    hf v b hv (List.mem_filter.mpr ⟨hr.subset hb, by simpa [hr.targets_eq] using ht⟩)
  obtain ⟨b, hb⟩ : ∃ b, (v, b) ∈ g.edges := by
    rw [← any_out_iff, ← Bool.not_eq_false, ← out_weights_nil]
    exact hlive ht
  have hpos : height b < height v := hbelow b hb
  rw [score_mean (regular_low hr) (by decide) ht (hlive ht), definedMean]
  by_cases hnil : (outWeights g v).filter (fun w => w ≠ UNDEF_SCORE) = []
  · rw [hnil, lib.harmonic_empty]
    omega
  · have hle := lib.harmonic_le _ (height v-1) hnil fun w hw => by
      obtain ⟨hw, hdef⟩ := List.mem_filter.mp hw
      obtain ⟨c, hc, rfl⟩ := mem_out_weights hw
      exact (hr.falling height x hf _ hc hv (hr.targets_eq ▸ ht) (by simpa using hdef)).trans
        (Nat.le_pred_of_lt (hbelow c hc))
    omega

theorem falling_defined (hr : Regular targets edges g) {height : ℕ → ℕ} {x : ℕ}
    (hf : Falling targets edges height x) {e : Edge} (he : e ∈ edges)
    (hx : Walk (inner targets edges) x e.1) (ht : e.1 ∉ targets)
    (hdef : scoreForCmp lib g e.2 ≠ UNDEF_SCORE) : scoreForCmp lib g e.2 ≤ height e.2 := by
  apply falling_score hr hf (hx.tail (List.mem_filter.mpr ⟨he, by simpa using ht⟩))
  intro ht hout
  exact hdef (score_dead ht hout)

theorem regular_visit (hr : Regular targets edges g) (v : ℕ) :
    Regular targets edges (visit lib g v) := by
  rw [visit_eq]
  constructor
  case targets_eq => exact hr.targets_eq
  case subset => exact hr.subset
  case intoTarget =>
    intro e he ht
    simp only
    split_ifs with hin
    · exact score_target (hr.targets_eq ▸ hin.1 ▸ ht)
    · exact hr.intoTarget e he ht
  case intoDead =>
    intro e he ht hdead
    simp only
    split_ifs with hin
    · refine score_dead (hr.targets_eq ▸ hin.1 ▸ ht) ?_
      rw [out_weights_nil, Bool.eq_false_iff, ne_eq, any_out_iff]
      rintro ⟨x, hx⟩
      exact hdead x (hin.1 ▸ hx)
    · exact hr.intoDead e he ht hdead
  case bounded => exact visit_eq g v ▸ visit_bounded hr.bounded v
  case falling =>
    intro height x hf e he hx ht
    simp only
    split_ifs with hin
    · rw [← hin.1]
      exact falling_defined hr hf (hr.subset he) hx ht
    · exact hr.falling height x hf e he hx ht

theorem regular_insert (hr : Regular targets edges g) {edge : Edge} (he : edge ∈ edges) :
    Regular targets edges (graphAddEdge g edge (scoreForCmp lib g edge.2)) := by
  have hcases : ∀ e ∈ (graphAddEdge g edge (scoreForCmp lib g edge.2)).edges, e ≠ edge →
      e ∈ g.edges := fun e hin heq => ((mem_graph_add_edge _ _ _).mp hin).resolve_right heq
  constructor
  case targets_eq => exact hr.targets_eq
  case subset =>
    intro e hin
    rcases (mem_graph_add_edge _ _ _).mp hin with hin | rfl
    · exact hr.subset hin
    · exact he
  case intoTarget =>
    intro e hin ht
    by_cases heq : e = edge
    · subst heq
      rw [graph_add_edge_weight, Function.update_self, score_target (hr.targets_eq ▸ ht)]
    · rw [graph_add_edge_weight, Function.update_of_ne heq]
      exact hr.intoTarget e (hcases e hin heq) ht
  case intoDead =>
    intro e hin ht hdead
    have hbefore : ∀ x, (e.2, x) ∉ g.edges := fun x hx =>
      hdead x ((mem_graph_add_edge _ _ _).mpr (Or.inl hx))
    by_cases heq : e = edge
    · subst heq
      rw [graph_add_edge_weight, Function.update_self]
      apply score_dead (hr.targets_eq ▸ ht)
      rw [out_weights_nil, Bool.eq_false_iff, ne_eq, any_out_iff]
      rintro ⟨x, hx⟩
      exact hbefore x hx
    · rw [graph_add_edge_weight, Function.update_of_ne heq]
      exact hr.intoDead e (hcases e hin heq) ht hbefore
  case bounded => exact graph_add_edge_bounded hr.bounded (score_bounded lib g edge.2)
  case falling =>
    intro height x hf e hin hx ht
    by_cases heq : e = edge
    · subst heq
      rw [graph_add_edge_weight, Function.update_self]
      exact falling_defined hr hf he hx ht
    · rw [graph_add_edge_weight, Function.update_of_ne heq]
      exact hr.falling height x hf e (hcases e hin heq) hx ht

end Invariant

section Mean
variable {lib : Library} (hzero : ∀ vals, 0 ∈ vals → lib.harmonic vals = 0)
  (hpos : ∀ vals, vals ≠ [] → (∀ x ∈ vals, 1 ≤ x) → 1 ≤ lib.harmonic vals)
  {targets : Finset ℕ} {edges : List Edge} {g : ControlFlowGraph} {m : ℕ}
include hzero hpos

theorem score_one_iff (hlow : Low m g) (hm : m < UNDEF_SCORE) {v : ℕ} (ht : v ∉ g.targets) :
    scoreForCmp lib g v = 1 ↔ outWeights g v ≠ [] ∧
      (TARGET_SCORE ∈ outWeights g v ∨ ∀ w ∈ outWeights g v, w = UNDEF_SCORE) := by
  by_cases hout : outWeights g v = []
  · rw [score_dead ht hout]
    exact iff_of_false (by decide) fun h => h.1 hout
  · rw [score_mean hlow hm ht hout, Nat.add_eq_right]
    refine Iff.trans ?_ (and_iff_right hout).symm
    constructor
    · intro hmean
      by_contra hnone
      obtain ⟨htarget, hall⟩ := not_or.mp hnone
      obtain ⟨w, hw, hdef⟩ : ∃ w ∈ outWeights g v, w ≠ UNDEF_SCORE := by
        by_contra hundef
        exact hall fun w hw => by_contra fun hdef => hundef ⟨w, hw, hdef⟩
      have hmem : w ∈ (outWeights g v).filter fun w => w ≠ UNDEF_SCORE :=
        List.mem_filter.mpr ⟨hw, by simpa using hdef⟩
      have hge := hpos _ (List.ne_nil_of_mem hmem) fun x hx => by
        apply Nat.one_le_iff_ne_zero.mpr
        rintro rfl
        exact htarget (List.mem_of_mem_filter hx)
      rw [definedMean] at hmean
      omega
    · rintro (htarget | hall)
      · exact hzero _ (List.mem_filter.mpr ⟨htarget, by decide⟩)
      · rw [definedMean, List.filter_eq_nil_iff.mpr fun w hw => by simp [hall w hw]]
        exact lib.harmonic_empty

theorem visit_one_live (hr : Regular targets edges g) {v x : ℕ} (hx : x ∉ targets)
    (hlive : (x, v) ∈ g.edges → scoreForCmp lib g v = UNDEF_SCORE →
      v ∉ g.targets ∧ outWeights g v = [])
    (hone : scoreForCmp lib (visit lib g v) x = 1) : scoreForCmp lib g x = 1 := by
  have hx' : x ∉ g.targets := hr.targets_eq ▸ hx
  rw [score_one_iff hzero hpos (regular_low (regular_visit hr v)) (by decide)
    ((visit_targets v).symm ▸ hx')] at hone
  rw [score_one_iff hzero hpos (regular_low hr) (by decide) hx']
  have hvisit : ∀ b, (x, b) ∈ g.edges → (visit lib g v).weight (x, b) =
      if b = v then scoreForCmp lib g v else g.weight (x, b) := by
    intro b hb
    rw [visit_eq]
    simp only [hb, and_true]
  obtain ⟨hout, hweights⟩ := hone
  rw [ne_eq, out_weights_nil, visit_edges, ← out_weights_nil] at hout
  refine ⟨hout, ?_⟩
  rcases hweights with htarget | hall
  · left
    obtain ⟨b, hb, hweight⟩ := mem_out_weights htarget
    rw [visit_edges] at hb
    rw [hvisit b hb] at hweight
    have hold : g.weight (x, b) = TARGET_SCORE := by
      split_ifs at hweight with hbv
      · have hv := target_of_score (regular_low hr) (by decide) hweight
        exact hr.intoTarget _ hb (hbv ▸ hr.targets_eq ▸ hv)
      · exact hweight
    rw [← hold]
    exact weight_mem hb
  · right
    intro w hw
    obtain ⟨b, hb, rfl⟩ := mem_out_weights hw
    have hweight := hall _ (weight_mem (g := visit lib g v) ((visit_edges v).symm ▸ hb))
    rw [hvisit b hb] at hweight
    split_ifs at hweight with hbv
    · obtain ⟨hv, hdead⟩ := hlive (hbv ▸ hb) hweight
      apply hr.intoDead _ hb (hbv ▸ hr.targets_eq ▸ hv)
      intro y hy
      rw [out_weights_nil, Bool.eq_false_iff, ne_eq, any_out_iff] at hdead
      exact hdead ⟨y, hbv ▸ hy⟩
    · exact hweight

omit hzero hpos in
theorem falling_live (hr : Regular targets edges g) {height : ℕ → ℕ} {x v : ℕ}
    (hf : Falling targets edges height x) (hbound : height x ≤ UNDEF_SCORE) (hx : x ∉ targets)
    (hin : (x, v) ∈ g.edges) (hv : scoreForCmp lib g v = UNDEF_SCORE) :
    v ∉ g.targets ∧ outWeights g v = [] := by
  have hinner : (x, v) ∈ inner targets edges :=
    List.mem_filter.mpr ⟨hr.subset hin, by simpa using hx⟩
  have hlt : height v < height x := hf x v Relation.ReflTransGen.refl hinner
  by_contra hlive
  have hle : scoreForCmp lib g v ≤ height v :=
    falling_score hr hf (Relation.ReflTransGen.single hinner) fun ht hout => hlive ⟨ht, hout⟩
  omega

theorem visit_one (hs : Steady targets edges) (hr : Regular targets edges g)
    (hlow : edges.length ≤ callBound → Low m g ∧ m < UNDEF_SCORE-1) {u v x : ℕ}
    (hu : Loose targets edges u) (hux : (u, x) ∈ edges)
    (hone : scoreForCmp lib (visit lib g v) x = 1) : scoreForCmp lib g x = 1 := by
  have hx : x ∉ targets := fun h => hu.2 x h hux
  rcases hs u x hu hux with hflat | hbound
  · apply flat_score hr hflat hx
    intro hout
    have hout' : outWeights (visit lib g v) x = [] := by
      rw [out_weights_nil] at hout ⊢
      rwa [visit_edges]
    rw [score_dead ((visit_targets v).symm ▸ hr.targets_eq ▸ hx) hout'] at hone
    exact absurd hone (by decide)
  · apply visit_one_live hzero hpos hr hx _ hone
    intro hin hv
    rcases hbound with hsize | ⟨height, hf, hbound⟩
    · obtain ⟨hlow, hm⟩ := hlow hsize
      exact dead_of_score hlow hm hv
    · exact falling_live hr hf hbound hx hin hv

theorem ones_visit (hs : Steady targets edges) (hr : Regular targets edges g)
    (hlow : edges.length ≤ callBound → Low m g ∧ m < UNDEF_SCORE-1) {v x : ℕ}
    (ho : x ≠ v → Ones lib targets edges g x) : Ones lib targets edges (visit lib g v) x := by
  intro u hu hin hone
  rw [visit_edges] at hin
  have hold : scoreForCmp lib g x = 1 := visit_one hzero hpos hs hr hlow hu (hr.subset hin) hone
  rw [visit_eq]
  simp only
  split_ifs with hinto
  · rw [← hold, hinto.1]
  · exact ho (fun h => hinto ⟨h, hin⟩) u hu hin hold

theorem visits_ones (hs : Steady targets edges) (vs : List ℕ) (m : ℕ) (g : ControlFlowGraph)
    (hr : Regular targets edges g)
    (hlow : edges.length ≤ callBound → Low m g ∧ m+vs.length < UNDEF_SCORE-1)
    (ho : ∀ x, x ∉ vs → Ones lib targets edges g x) :
    Regular targets edges (vs.foldl (visit lib) g) ∧
      ∀ x, Ones lib targets edges (vs.foldl (visit lib) g) x := by
  obtain ⟨⟨hr', -⟩, ho'⟩ := visits_settle (n := m+vs.length)
    (I := fun m g => Regular targets edges g ∧ (edges.length ≤ callBound → Low m g))
    (P := Ones lib targets edges)
    (fun m g v _ hg => ⟨regular_visit hg.1 v, fun hsize => visit_low lib (hg.2 hsize) v⟩)
    (fun m' g v x hm hg => ones_visit hzero hpos hs hg.1 fun hsize =>
      ⟨hg.2 hsize, hm.trans (hlow hsize).2⟩)
    vs m g (Nat.le_refl _) ⟨hr, fun hsize => (hlow hsize).1⟩ ho
  exact ⟨hr', ho'⟩

omit hzero hpos in
theorem ones_insert {edge : Edge} {x : ℕ}
    (hsame : scoreForCmp lib (graphAddEdge g edge (scoreForCmp lib g edge.2)) x =
      scoreForCmp lib g x) (ho : Ones lib targets edges g x) :
    Ones lib targets edges (graphAddEdge g edge (scoreForCmp lib g edge.2)) x := by
  intro u hu hin hone
  rw [hsame] at hone
  by_cases heq : (u, x) = edge
  · subst heq
    rw [graph_add_edge_weight, Function.update_self, hone]
  · rw [graph_add_edge_weight, Function.update_of_ne heq]
    exact ho u hu (((mem_graph_add_edge _ _ _).mp hin).resolve_right heq) hone

theorem add_edge_ones (hnodup : ∀ edges start, (lib.bfs edges start).Nodup)
    (hs : Steady targets edges) (hr : Regular targets edges g) {k : ℕ} (hgrown : Grown k g)
    (hk : k < edges.length) (ho : ∀ x, Ones lib targets edges g x) {edge : Edge}
    (he : edge ∈ edges) :
    Regular targets edges (addEdge lib g edge).1 ∧
      ∀ x, Ones lib targets edges (addEdge lib g edge).1 x := by
  have hr1 : Regular targets edges (graphAddEdge g edge (scoreForCmp lib g edge.2)) :=
    regular_insert hr he
  simp only [addEdge, handleNewEdge]
  split_ifs with hsame
  · refine ⟨hr1, fun x => ?_⟩
    apply ones_insert _ (ho x)
    by_cases hx : x = edge.1
    · rw [hx, hsame]
    · exact graph_add_edge_score hx
  · rw [graph_add_edge_again]
    apply visits_ones hzero hpos hs _ (k*(k+5)/2+1) _ hr1
    · exact fun hsize => insert_room hnodup hgrown (hk.trans_le hsize) edge
    · intro x hx
      apply ones_insert _ (ho x)
      apply graph_add_edge_score
      rintro rfl
      exact hx ((lib.mem_bfs _ _ _).mpr Relation.ReflTransGen.refl)

theorem fold_ones (hnodup : ∀ edges start, (lib.bfs edges start).Nodup) (data : CfgFile)
    (hs : Steady data.targets data.edges) (es : List Edge) (hes : es <+: data.edges) :
    Regular data.targets data.edges
        (es.foldl (fun g e => (addEdge lib g e).1) (emptyGraph data)) ∧
      ∀ x, Ones lib data.targets data.edges
        (es.foldl (fun g e => (addEdge lib g e).1) (emptyGraph data)) x := by
  induction es using List.reverseRecOn with
  | nil =>
    refine ⟨⟨rfl, List.nil_subset _, ?_, ?_, ?_, fun _ _ _ => ?_⟩, ?_⟩
    all_goals simp [emptyGraph, Ones, Bounded]
  | append_singleton es e ih =>
    obtain ⟨hr, ho⟩ := ih ((List.prefix_append es [e]).trans hes)
    have hgrown := run_grown hnodup data (es.map Op.addEdge)
    rw [run, List.foldl_map, List.length_map] at hgrown
    have hlen := hes.length_le
    rw [List.length_append] at hlen
    rw [List.foldl_concat]
    exact add_edge_ones hzero hpos hnodup hs hr hgrown hlen ho
      (hes.subset (List.mem_append_right es List.mem_cons_self))

end Mean

theorem fold_edges {lib : Library} (es : List Edge) (g : ControlFlowGraph) (e : Edge) :
    e ∈ (es.foldl (fun g e => (addEdge lib g e).1) g).edges ↔ e ∈ g.edges ∨ e ∈ es := by
  induction es generalizing g with
  | nil => simp
  | cons f es ih => rw [List.foldl_cons, ih, mem_add_edge, List.mem_cons, or_assoc]

theorem new_graph_edges {lib : Library} (data : CfgFile) (e : Edge) :
    e ∈ (newGraph lib data).edges ↔ e ∈ data.edges := by
  rw [newGraph, fold_edges]
  simp [emptyGraph]

open Classical in
/-- The score of a node in a shallow graph, without the history of the graph. -/
noncomputable def finalScore (targets : Finset ℕ) (edges : List Edge) (c : ℕ) : ℕ :=
  if c ∈ targets then TARGET_SCORE
  else if ∀ b, (c, b) ∉ edges then UNDEF_SCORE
  else if Loose targets edges c ∧ ∃ v b, (c, v) ∈ edges ∧ (v, b) ∈ edges then 2
  else 1

theorem loose_congr (targets : Finset ℕ) {edges edges' : List Edge}
    (hmem : ∀ e, e ∈ edges ↔ e ∈ edges') (u : ℕ) :
    Loose targets edges u ↔ Loose targets edges' u := by
  simp only [Loose, hmem]

theorem falling_mono (targets : Finset ℕ) {edges edges' : List Edge} (h : edges' ⊆ edges)
    {height : ℕ → ℕ} {x : ℕ} (hf : Falling targets edges height x) :
    Falling targets edges' height x := by
  have hinner : inner targets edges' ⊆ inner targets edges := by
    intro e he
    obtain ⟨hin, ht⟩ := List.mem_filter.mp he
    exact List.mem_filter.mpr ⟨h hin, ht⟩
  intro a b hx hab
  exact hf a b (walk_mono hinner hx) (hinner hab)

theorem shallow_perm (targets : Finset ℕ) {edges edges' : List Edge} (hperm : edges'.Perm edges)
    (hs : Shallow targets edges) : Shallow targets edges' := by
  have hmem : ∀ e, e ∈ edges' ↔ e ∈ edges := fun e => hperm.mem_iff
  intro u v w x hu huv hvw hwx hw
  obtain ⟨hjoined, hbound⟩ := hs u v w x ((loose_congr targets hmem u).mp hu) ((hmem _).mp huv)
    ((hmem _).mp hvw) ((hmem _).mp hwx) hw
  refine ⟨(loose_congr targets hmem v).not.mpr hjoined, ?_⟩
  rcases hbound with hsize | ⟨height, hf, hheight⟩
  · exact Or.inl (hperm.length_eq ▸ hsize)
  · exact Or.inr ⟨height, falling_mono targets hperm.subset hf, hheight⟩

open Classical in
theorem final_score_congr (targets : Finset ℕ) {edges edges' : List Edge}
    (hmem : ∀ e, e ∈ edges ↔ e ∈ edges') (c : ℕ) :
    finalScore targets edges c = finalScore targets edges' c := by
  have hdead : (∀ b, (c, b) ∉ edges) ↔ ∀ b, (c, b) ∉ edges' := by simp only [hmem]
  have htwo : (Loose targets edges c ∧ ∃ v b, (c, v) ∈ edges ∧ (v, b) ∈ edges) ↔
      Loose targets edges' c ∧ ∃ v b, (c, v) ∈ edges' ∧ (v, b) ∈ edges' := by
    simp only [loose_congr targets hmem, hmem]
  exact if_congr Iff.rfl rfl (if_congr hdead rfl (if_congr htwo rfl rfl))

section Order
variable {lib : Library} {targets : Finset ℕ} {edges : List Edge} {g : ControlFlowGraph}

theorem target_successor_score (hzero : ∀ vals, 0 ∈ vals → lib.harmonic vals = 0)
    (hr : Regular targets edges g) {c t : ℕ} (hc : c ∉ targets) (ht : t ∈ targets)
    (he : (c, t) ∈ g.edges) : scoreForCmp lib g c = 1 := by
  have hmem : TARGET_SCORE ∈ outWeights g c := by
    rw [← hr.intoTarget (c, t) he ht]
    exact List.mem_map.mpr ⟨(c, t), List.mem_filter.mpr ⟨he, by simp⟩, rfl⟩
  apply score_one (hr.targets_eq ▸ hc) (List.ne_nil_of_mem hmem)
  exact hzero _ (List.mem_filter.mpr ⟨hmem, by decide⟩)

theorem loose_weight (hr : Regular targets edges g) (ho : ∀ x, Ones lib targets edges g x) {c : ℕ}
    (hc : Loose targets edges c)
    (hsucc : ∀ v, (c, v) ∈ g.edges → outWeights g v ≠ [] → scoreForCmp lib g v = 1) {v : ℕ}
    (hv : (c, v) ∈ g.edges) :
    g.weight (c, v) = if g.edges.any fun f => f.1 = v then 1 else UNDEF_SCORE := by
  split_ifs with hany
  · apply ho v c hc hv
    apply hsucc v hv
    rw [ne_eq, out_weights_nil, hany]
    decide
  · apply hr.intoDead _ hv fun h => hc.2 v h (hr.subset hv)
    intro x hx
    exact hany ((any_out_iff g v).mpr ⟨x, hx⟩)

theorem loose_score (hpos : ∀ vals, vals ≠ [] → (∀ x ∈ vals, 1 ≤ x) → 1 ≤ lib.harmonic vals)
    (hr : Regular targets edges g) (ho : ∀ x, Ones lib targets edges g x) {c : ℕ}
    (hc : Loose targets edges c)
    (hsucc : ∀ v, (c, v) ∈ g.edges → outWeights g v ≠ [] → scoreForCmp lib g v = 1)
    (hout : outWeights g c ≠ []) :
    scoreForCmp lib g c =
      if (g.edges.any fun e => e.1 = c && g.edges.any fun f => f.1 = e.2) then 2 else 1 := by
  have hones : ∀ w ∈ (outWeights g c).filter fun w => w ≠ UNDEF_SCORE, w = 1 := by
    intro w hw
    obtain ⟨hw, hdef⟩ := List.mem_filter.mp hw
    obtain ⟨v, hv, rfl⟩ := mem_out_weights hw
    rw [loose_weight hr ho hc hsucc hv] at hdef ⊢
    split_ifs at hdef ⊢
    · rfl
    · simp at hdef
  split_ifs with hany
  · have hne : (outWeights g c).filter (fun w => w ≠ UNDEF_SCORE) ≠ [] := by
      obtain ⟨⟨a, b⟩, he, hcond⟩ := List.any_eq_true.mp hany
      obtain ⟨ha, hb⟩ := Bool.and_eq_true_iff.mp hcond
      obtain rfl : a = c := by simpa using ha
      have hone : g.weight (a, b) = 1 := by
        rw [loose_weight hr ho hc hsucc he, if_pos hb]
      apply List.ne_nil_of_mem (a := g.weight (a, b))
      exact List.mem_filter.mpr ⟨weight_mem he, by rw [hone]; decide⟩
    have hle := lib.harmonic_le _ 1 hne fun w hw => (hones w hw).le
    have hge := hpos _ hne fun w hw => (hones w hw).ge
    rw [score_for_cmp_eq, if_neg (hr.targets_eq ▸ hc.1), scoreHarmonicMean, if_neg hout,
      Nat.le_antisymm hle hge]
    rfl
  · apply score_one (hr.targets_eq ▸ hc.1) hout
    have hnil : (outWeights g c).filter (fun w => w ≠ UNDEF_SCORE) = [] := by
      apply List.filter_eq_nil_iff.mpr
      intro w hw
      obtain ⟨v, hv, rfl⟩ := mem_out_weights hw
      rw [loose_weight hr ho hc hsucc hv, if_neg]
      · simp
      · intro hv'
        apply hany
        exact List.any_eq_true.mpr ⟨(c, v), hv, by simpa using hv'⟩
    rw [hnil]
    exact lib.harmonic_empty

/-- Once all edges are there, a successor of a loose node has a score of one
unless it has no edge. -/
theorem successor_score (hzero : ∀ vals, 0 ∈ vals → lib.harmonic vals = 0)
    (hs : Shallow targets edges) (hr : Regular targets edges g) (hall : edges ⊆ g.edges) {u v : ℕ}
    (hu : Loose targets edges u) (huv : (u, v) ∈ edges) (hout : outWeights g v ≠ []) :
    scoreForCmp lib g v = 1 := by
  have hv : v ∉ targets := fun h => hu.2 v h huv
  by_cases hflat : Flat targets edges v
  · exact flat_score hr hflat hv hout
  · simp only [Flat, not_forall] at hflat
    obtain ⟨w, x, hvw, hwx, hw⟩ := hflat
    have hjoined := (hs u v w x hu huv hvw hwx hw).1
    simp only [Loose, not_and, not_forall, not_not] at hjoined
    obtain ⟨t, ht, he⟩ := hjoined hv
    exact target_successor_score hzero hr hv ht (hall he)

/-- After all edges, in any order, the score is the one read off the graph. -/
theorem new_graph_score (hzero : ∀ vals, 0 ∈ vals → lib.harmonic vals = 0)
    (hpos : ∀ vals, vals ≠ [] → (∀ x ∈ vals, 1 ≤ x) → 1 ≤ lib.harmonic vals)
    (hnodup : ∀ edges start, (lib.bfs edges start).Nodup) (data : CfgFile)
    (hs : Shallow data.targets data.edges) (c : ℕ) :
    scoreForCmp lib (newGraph lib data) c = finalScore data.targets data.edges c := by
  obtain ⟨hr, ho⟩ : Regular data.targets data.edges (newGraph lib data) ∧
      ∀ x, Ones lib data.targets data.edges (newGraph lib data) x :=
    fold_ones hzero hpos hnodup data (shallow_steady hs) data.edges (List.prefix_refl _)
  have hedges : ∀ e, e ∈ (newGraph lib data).edges ↔ e ∈ data.edges := new_graph_edges data
  have hnil : outWeights (newGraph lib data) c = [] ↔ ∀ b, (c, b) ∉ data.edges := by
    rw [out_weights_nil, Bool.eq_false_iff, ne_eq, any_out_iff]
    simp only [hedges, not_exists]
  have hsucc : Loose data.targets data.edges c → ∀ v, (c, v) ∈ (newGraph lib data).edges →
      outWeights (newGraph lib data) v ≠ [] → scoreForCmp lib (newGraph lib data) v = 1 :=
    fun hc v hv => successor_score hzero hs hr (fun e => (hedges e).mpr) hc ((hedges _).mp hv)
  rw [finalScore]
  split_ifs with ht hdead hloose
  · exact score_target (hr.targets_eq ▸ ht)
  · exact score_dead (hr.targets_eq ▸ ht) (hnil.mpr hdead)
  · obtain ⟨hc, v, b, hv, hb⟩ := hloose
    rw [loose_score hpos hr ho hc (hsucc hc) fun h => hdead (hnil.mp h), if_pos]
    refine List.any_eq_true.mpr ⟨(c, v), (hedges _).mpr hv, ?_⟩
    simp only [decide_true, Bool.true_and]
    exact (any_out_iff _ v).mpr ⟨b, (hedges _).mpr hb⟩
  · by_cases hc : Loose data.targets data.edges c
    · rw [loose_score hpos hr ho hc (hsucc hc) fun h => hdead (hnil.mp h), if_neg]
      intro hany
      obtain ⟨⟨a, v⟩, he, hcond⟩ := List.any_eq_true.mp hany
      obtain ⟨ha, hv⟩ := Bool.and_eq_true_iff.mp hcond
      obtain rfl : a = c := by simpa using ha
      obtain ⟨b, hb⟩ := (any_out_iff _ v).mp hv
      exact hloose ⟨hc, v, b, (hedges _).mp he, (hedges _).mp hb⟩
    · have hjoined : ∃ t ∈ data.targets, (c, t) ∈ data.edges := by
        by_contra hnone
        exact hc ⟨ht, fun t htt he => hnone ⟨t, htt, he⟩⟩
      obtain ⟨t, htt, he⟩ := hjoined
      exact target_successor_score hzero hr ht htt ((hedges _).mpr he)

/-- Any two orders of the edges of a shallow graph give every node the same score. -/
theorem new_graph_order (hzero : ∀ vals, 0 ∈ vals → lib.harmonic vals = 0)
    (hpos : ∀ vals, vals ≠ [] → (∀ x ∈ vals, 1 ≤ x) → 1 ≤ lib.harmonic vals)
    (hnodup : ∀ edges start, (lib.bfs edges start).Nodup) (data : CfgFile)
    (hs : Shallow data.targets data.edges) (edges : List Edge) (hperm : edges.Perm data.edges)
    (c : ℕ) :
    scoreForCmp lib (newGraph lib { data with edges }) c = scoreForCmp lib (newGraph lib data) c := by
  rw [new_graph_score hzero hpos hnodup { data with edges } (shallow_perm data.targets hperm hs),
    new_graph_score hzero hpos hnodup data hs]
  exact final_score_congr data.targets (fun e => hperm.mem_iff) c

end Order

theorem harmonic_floor_zero (vals : List ℕ) (h : 0 ∈ vals) : reference.harmonic vals = 0 := if_pos h

/-- A chain to the side of a node that is joined to a target. -/
theorem new_graph_order_side :
    scoreForCmp reference (newGraph reference ⟨{4}, [(3, 5), (1, 2), (2, 3), (2, 4)], []⟩) 1 =
      scoreForCmp reference (newGraph reference ⟨{4}, [(1, 2), (2, 4), (2, 3), (3, 5)], []⟩) 1 := by
  apply new_graph_order harmonic_floor_zero (fun vals => le_harmonic_floor vals 1)
    visit_from_nodup ⟨{4}, [(1, 2), (2, 4), (2, 3), (3, 5)], []⟩ _
    [(3, 5), (1, 2), (2, 3), (2, 4)] (by decide)
  intro u v w x hu huv hvw hwx hw
  refine ⟨fun hv => ?_, Or.inl (by decide)⟩
  have hjoined : v ≠ 2 := by
    rintro rfl
    exact hv.2 4 (by decide) (by decide)
  simp only [List.mem_cons, Prod.mk.injEq, List.not_mem_nil, or_false] at huv hvw hwx
  omega

/-- A chain of three edges to a target, from its last edge and from its first. -/
theorem chain_order_matters :
    scoreForCmp reference (newGraph reference ⟨{4}, [(3, 4), (2, 3), (1, 2)], []⟩) 1 = 3 ∧
    scoreForCmp reference (newGraph reference ⟨{4}, [(1, 2), (2, 3), (3, 4)], []⟩) 1 = 2 ∧
    ([(3, 4), (2, 3), (1, 2)] : List Edge).Perm [(1, 2), (2, 3), (3, 4)] := by
  exact ⟨by decide, by decide, by decide⟩

end Parmesan.CfgOrder
