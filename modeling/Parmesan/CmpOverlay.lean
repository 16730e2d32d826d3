import Parmesan.IdAssigner
import Mathlib.Data.Finset.Sort
import Mathlib.Data.Prod.Lex

/-!
# The graph of comparisons

`IDAssigner::getCmpCfg`: every edge between basic blocks becomes an edge between
the comparisons that the blocks are attributed to. The look-up of a block that is
attributed to none inserts the id 0 for it.
-/

set_option autoImplicit false

namespace Parmesan.CmpOverlay
open Parmesan.IdAssigner Parmesan.KeyedGroups

/-- `rev_map` after its loop: an insertion does not replace what is there. -/
def revMap (cmpMap : List (ℤ × Finset ℕ)) (bb : ℕ) : Option ℤ :=
  (cmpMap.find? fun e => bb ∈ e.2).map Prod.fst

def lookup (rev : ℕ → Option ℤ) (bb : ℕ) : ℤ × (ℕ → Option ℤ) :=
  match rev bb with
  | some cmp => (cmp, rev)
  | none => (0, Function.update rev bb (some 0))

def addEdge (st : (ℕ → Option ℤ) × Finset (ℤ × ℤ)) (e : ℕ × ℕ) :
    (ℕ → Option ℤ) × Finset (ℤ × ℤ) :=
  let src := lookup st.1 e.1
  let dst := lookup src.2 e.2
  (dst.2, insert (src.1, dst.1) st.2)

/-- A `std::set` of pairs is read in lexicographic order. -/
def sortedEdges (edges : Finset (ℕ × ℕ)) : List (ℕ × ℕ) :=
  ((edges.image toLex).sort (· ≤ ·)).map ofLex

def getCmpCfg (a : Assigner) : Finset (ℤ × ℤ) :=
  ((sortedEdges a.cfgEdges).foldl addEdge (revMap a.cmpMap, ∅)).2

theorem mem_sorted_edges (edges : Finset (ℕ × ℕ)) (e : ℕ × ℕ) :
    e ∈ sortedEdges edges ↔ e ∈ edges := by
  rw [sortedEdges, List.mem_map]
  constructor
  · intro h
    obtain ⟨x, hx, rfl⟩ := h
    obtain ⟨y, hy, rfl⟩ := Finset.mem_image.mp ((Finset.mem_sort _).mp hx)
    exact hy
  · intro h
    exact ⟨toLex e, (Finset.mem_sort _).mpr (Finset.mem_image_of_mem _ h), rfl⟩

theorem lookup_spec {rev rev' : ℕ → Option ℤ} (h : ∀ x, (rev' x).getD 0 = (rev x).getD 0)
    (bb : ℕ) : (lookup rev' bb).1 = (rev bb).getD 0 ∧
      ∀ x, ((lookup rev' bb).2 x).getD 0 = (rev x).getD 0 := by
  have hbb := h bb
  unfold lookup
  cases hr : rev' bb with
  | some c =>
    rw [hr] at hbb
    exact ⟨hbb, h⟩
  | none =>
    rw [hr] at hbb
    refine ⟨hbb, ?_⟩
    intro x
    by_cases hx : x = bb
    · subst hx
      simp only [Function.update_self]
      exact hbb
    · simp only [Function.update_of_ne hx]
      exact h x

theorem add_edges_mem (edges : List (ℕ × ℕ)) (rev : ℕ → Option ℤ)
    (st : (ℕ → Option ℤ) × Finset (ℤ × ℤ)) (h : ∀ x, (st.1 x).getD 0 = (rev x).getD 0)
    (p : ℤ × ℤ) : p ∈ (edges.foldl addEdge st).2 ↔
      p ∈ st.2 ∨ ∃ e ∈ edges, p = ((rev e.1).getD 0, (rev e.2).getD 0) := by
  induction edges generalizing st with
  | nil => simp
  | cons e edges ih =>
    obtain ⟨hsrc, hrev⟩ := lookup_spec h e.1
    obtain ⟨hdst, hrev'⟩ := lookup_spec hrev e.2
    rw [List.foldl_cons, ih (addEdge st e) hrev']
    simp only [addEdge, hsrc, hdst, Finset.mem_insert, List.mem_cons, exists_eq_or_imp]
    tauto

theorem get_cmp_cfg_mem (a : Assigner) (p : ℤ × ℤ) : p ∈ getCmpCfg a ↔
    ∃ e ∈ a.cfgEdges, p = ((revMap a.cmpMap e.1).getD 0, (revMap a.cmpMap e.2).getD 0) := by
  rw [getCmpCfg, add_edges_mem _ (revMap a.cmpMap) _ (fun _ => rfl)]
  simp [mem_sorted_edges]

def BlockEdge (m : Module) (e : ℕ × ℕ) : Prop :=
  ∃ nf ∈ numbered 1 m, ∃ b ∈ (fnBlockIds nf.1 nf.2).zip nf.2.blocks,
    e ∈ blockEdges (fnBlockIds nf.1 nf.2) b

theorem visit_fns_edges (m : Module) (a : Assigner) (e : ℕ × ℕ) :
    e ∈ (m.foldl visitFn a).cfgEdges ↔ e ∈ a.cfgEdges ∨
      ∃ nf ∈ numbered a.serial m, ∃ b ∈ (fnBlockIds nf.1 nf.2).zip nf.2.blocks,
        e ∈ blockEdges (fnBlockIds nf.1 nf.2) b := by
  induction m generalizing a with
  | nil => simp [numbered]
  | cons f m ih =>
    have hfn := (visit_blocks_groups (fnBlockIds a.serial f)
      ((fnBlockIds a.serial f).zip f.blocks) { a with serial := a.serial+fnSize f }).2.2 e
    have hserial := (visit_fn_groups f a).2
    change e ∈ (visitFn a f).cfgEdges ↔ _ at hfn
    rw [List.foldl_cons, ih, hfn, hserial, numbered, or_assoc]
    simp only [List.mem_cons, exists_eq_or_imp]

theorem cfg_edges_iff (m : Module) (e : ℕ × ℕ) :
    e ∈ (runOnModule m).cfgEdges ↔ BlockEdge m e := by
  rw [runOnModule, visit_fns_edges]
  exact or_iff_right (Finset.notMem_empty e)

def InCmp (m : Module) (bb : ℕ) (cmp : ℤ) : Prop :=
  ∃ bbs, (cmp, bbs) ∈ (runOnModule m).cmpMap ∧ bb ∈ bbs

/-- The id under which the overlay has the block. -/
def Named (m : Module) (bb : ℕ) (cmp : ℤ) : Prop :=
  InCmp m bb cmp ∨ (∀ c, ¬ InCmp m bb c) ∧ cmp = 0

theorem in_cmp_unique {m : Module} {bb : ℕ} {c d : ℤ} (hc : InCmp m bb c) (hd : InCmp m bb d) :
    c = d := by
  obtain ⟨s, hs, hbs⟩ := hc
  obtain ⟨t, ht, hbt⟩ := hd
  by_contra hne
  exact Finset.disjoint_left.mp (cmp_sets_disjoint m _ hs _ ht hne) hbs hbt

theorem rev_map_named (m : Module) (bb : ℕ) :
    Named m bb ((revMap (runOnModule m).cmpMap bb).getD 0) := by
  unfold revMap
  cases hf : (runOnModule m).cmpMap.find? fun e => bb ∈ e.2 with
  | some e =>
    have hin := List.find?_some hf
    exact Or.inl ⟨e.2, List.mem_of_find?_eq_some hf, by simpa using hin⟩
  | none =>
    refine Or.inr ⟨?_, rfl⟩
    intro c hc
    obtain ⟨s, hs, hb⟩ := hc
    exact absurd hb (by simpa using List.find?_eq_none.mp hf (c, s) hs)

theorem named_unique {m : Module} {bb : ℕ} {c d : ℤ} (hc : Named m bb c) (hd : Named m bb d) :
    c = d := by
  rcases hc with hc | ⟨hnone, rfl⟩
  · rcases hd with hd | ⟨hnone, -⟩
    · exact in_cmp_unique hc hd
    · exact absurd hc (hnone c)
  · rcases hd with hd | ⟨-, rfl⟩
    · exact absurd hd (hnone d)
    · rfl

theorem overlay_edge_iff (m : Module) (c d : ℤ) : (c, d) ∈ getCmpCfg (runOnModule m) ↔
    ∃ s t, BlockEdge m (s, t) ∧ Named m s c ∧ Named m t d := by
  rw [get_cmp_cfg_mem]
  constructor
  · intro h
    obtain ⟨⟨s, t⟩, he, hp⟩ := h
    obtain ⟨rfl, rfl⟩ := Prod.mk.inj hp
    exact ⟨s, t, (cfg_edges_iff m _).mp he, rev_map_named m s, rev_map_named m t⟩
  · intro h
    obtain ⟨s, t, he, hs, ht⟩ := h
    refine ⟨(s, t), (cfg_edges_iff m _).mpr he, ?_⟩
    rw [named_unique hs (rev_map_named m s), named_unique ht (rev_map_named m t)]

def Faithful (m : Module) : Prop :=
  ∀ c d, (c, d) ∈ getCmpCfg (runOnModule m) →
    ∃ s t, BlockEdge m (s, t) ∧ InCmp m s c ∧ InCmp m t d

/-- The next trace call after the block has the id, and no later call has it. -/
def NextCall (m : Module) (bb : ℕ) (cmp : ℤ) : Prop := Next bb cmp (marks 1 m)

theorem in_cmp_iff_next (m : Module) (bb : ℕ) (cmp : ℤ) : InCmp m bb cmp ↔ NextCall m bb cmp := by
  have hmap : (runOnModule m).cmpMap = (collect ⟨∅, []⟩ (marks 1 m)).closed :=
    congrArg Groups.closed (run_groups m)
  unfold InCmp NextCall
  rw [hmap, mem_closed_iff _ _ List.Pairwise.nil]
  simp

/-- The id of a block, 0 for one whose next call is missing or overruled. -/
def IdOf (m : Module) (bb : ℕ) (cmp : ℤ) : Prop :=
  NextCall m bb cmp ∨ (∀ c, ¬ NextCall m bb c) ∧ cmp = 0

theorem named_iff_id_of (m : Module) (bb : ℕ) (cmp : ℤ) : Named m bb cmp ↔ IdOf m bb cmp := by
  simp only [Named, IdOf, in_cmp_iff_next]

/-- For every edge some edge between blocks that have a next call has the same ids. -/
def Covered (m : Module) : Prop :=
  ∀ s t, BlockEdge m (s, t) → ∃ c d s' t', IdOf m s c ∧ IdOf m t d ∧
    BlockEdge m (s', t') ∧ NextCall m s' c ∧ NextCall m t' d

/-- Every edge between attributed blocks is in the overlay, and the overlay has no
other edges exactly if the module is covered. -/
theorem overlay_faithful_iff (m : Module) :
    (∀ s t c d, BlockEdge m (s, t) → InCmp m s c → InCmp m t d →
      (c, d) ∈ getCmpCfg (runOnModule m)) ∧
    (Faithful m ↔ Covered m) := by
  constructor
  · intro s t c d he hs ht
    exact (overlay_edge_iff m c d).mpr ⟨s, t, he, Or.inl hs, Or.inl ht⟩
  simp only [Covered, ← named_iff_id_of, ← in_cmp_iff_next]
  constructor
  · intro hf s t he
    have hs := rev_map_named m s
    have ht := rev_map_named m t
    have hedge := (overlay_edge_iff m _ _).mpr ⟨s, t, he, hs, ht⟩
    obtain ⟨s', t', he', hs', ht'⟩ := hf _ _ hedge
    exact ⟨_, _, s', t', hs, ht, he', hs', ht'⟩
  · intro hcov c d hedge
    obtain ⟨s, t, he, hs, ht⟩ := (overlay_edge_iff m c d).mp hedge
    obtain ⟨c', d', s', t', hc', hd', he', hs', ht'⟩ := hcov s t he
    obtain rfl := named_unique hs hc'
    obtain rfl := named_unique ht hd'
    exact ⟨s', t', he', hs', ht'⟩

def openEnded : Module := [⟨0, [⟨[1], [traceCmp 7, .other]⟩, ⟨[], [.other]⟩]⟩]

/-- The edge to the last block, which is attributed to no comparison, leads to the
id 0 in the overlay, which no trace call has. -/
theorem overlay_has_fictitious_node : BlockEdge openEnded (2, 5) ∧
    (runOnModule openEnded).cmpMap.map Prod.fst = [7] ∧
    (7, 0) ∈ getCmpCfg (runOnModule openEnded) ∧ ¬ Faithful openEnded := by
  have hkeys : (runOnModule openEnded).cmpMap.map Prod.fst = [7] := by decide +kernel
  have hedge : (7, 0) ∈ getCmpCfg (runOnModule openEnded) := by
    rw [get_cmp_cfg_mem]
    decide +kernel
  refine ⟨(cfg_edges_iff openEnded (2, 5)).mp (by decide +kernel), hkeys, hedge, ?_⟩
  intro hf
  obtain ⟨s, t, -, -, bbs, hmem, -⟩ := hf 7 0 hedge
  have hzero : (0 : ℤ) ∈ (runOnModule openEnded).cmpMap.map Prod.fst :=
    List.mem_map_of_mem hmem
  rw [hkeys] at hzero
  exact absurd hzero (by decide)

end Parmesan.CmpOverlay
