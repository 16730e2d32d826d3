import Parmesan.CfgModel
import Parmesan.SeedLink
import Mathlib.Data.Finset.Basic
import Mathlib.Data.Finset.Lattice.Lemmas

/-!
# The queue and the targets of the graph

`update_entry` removes the number of a discarded condition from the live
targets. The entries of program conditions carry the number of their
comparison in that field, the pseudo entries of the AFL search that of an input.
-/

set_option autoImplicit false

namespace Parmesan.DepotTargets
open Parmesan.CondModel Parmesan.DepotModel Parmesan.CfgModel Parmesan.Execution
open Parmesan.SeedLink (getAflCond)
open Parmesan.DepotRun (siteCond)

/-- `discarded` records the conditions that were written back discarded. -/
structure Session where
  queue : Queue
  cfg : ControlFlowGraph
  discarded : List CondStmt

inductive Op where
  | addEntries (conds : List CondStmt)
  | getEntry (key : Key)
  | updateEntry (cond : CondStmt)
  | addEdge (edge : Edge)

variable (lib : Library)

def newSession (data : CfgFile) : Session := ⟨∅, newGraph lib data, []⟩

def addOne (s : Session) (cond : CondStmt) : Session :=
  let distance := scoreForCmpInp lib s.cfg cond.base.cmpid cond.vars
  { s with queue := (addEntry s.queue cond distance).1 }

def writeBack (s : Session) (cond : CondStmt) : Session where
  queue := (DepotModel.updateEntry s.queue cond (scoreForCmp lib s.cfg cond.base.cmpid)).1
  cfg := if isDiscarded cond then removeTarget lib s.cfg cond.base.cmpid else s.cfg
  discarded := if isDiscarded cond && (s.queue.lookup (keyOf cond)).isSome
    then cond::s.discarded else s.discarded

/-- Meanwhile the executors add edges to the graph. -/
def next (s : Session) : Op → Option Session
  | .addEntries conds => some (conds.foldl (addOne lib) s)
  | .getEntry key => (DepotModel.getEntry s.queue key).map fun r => { s with queue := r.2 }
  | .updateEntry cond => some (writeBack lib s cond)
  | .addEdge edge => some { s with cfg := (CfgModel.addEdge lib s.cfg edge).1 }

def Attributed (initial : Finset ℕ) (s : Session) : Prop :=
  ∀ cmp ∈ initial, cmp ∉ s.cfg.targets →
    ∃ c ∈ s.discarded, c.base.op ≠ COND_AFL_OP ∧ c.base.cmpid = cmp

def Partitioned (initial : Finset ℕ) (s : Session) : Prop :=
  s.cfg.targets ∪ s.cfg.solvedTargets = initial ∧ Disjoint s.cfg.targets s.cfg.solvedTargets

/-- No pseudo entry is discarded while its number is that of a live target, and
no condition without an entry. -/
def Aimed (s : Session) : Op → Prop
  | .updateEntry cond => isDiscarded cond = true → cond.base.cmpid ∈ s.cfg.targets →
      cond.base.op ≠ COND_AFL_OP ∧ (s.queue.lookup (keyOf cond)).isSome = true
  | _ => True

instance (s : Session) : (op : Op) → Decidable (Aimed s op)
  | .updateEntry _ => inferInstanceAs (Decidable (_ → _ → _ ∧ _))
  | .addEntries _ => instDecidableTrue
  | .getEntry _ => instDecidableTrue
  | .addEdge _ => instDecidableTrue

section Graph
variable {lib} {g : ControlFlowGraph}

theorem visits_solved (vs : List ℕ) (g : ControlFlowGraph) :
    (vs.foldl (visit lib) g).solvedTargets = g.solvedTargets := by
  induction vs generalizing g with
  | nil => rfl
  | cons v vs ih =>
    rw [List.foldl_cons, ih, visit_eq]

theorem add_edge_solved (edge : Edge) :
    (CfgModel.addEdge lib g edge).1.solvedTargets = g.solvedTargets := by
  simp only [CfgModel.addEdge, handleNewEdge]
  split_ifs
  · rfl
  · exact visits_solved _ _

theorem remove_target_solved (cmp : ℕ) : (removeTarget lib g cmp).solvedTargets =
    if cmp ∈ g.targets then insert cmp g.solvedTargets else g.solvedTargets := by
  rw [removeTarget]
  split_ifs with h
  · exact congrArg (insert cmp) (visits_solved _ _)
  · rfl

theorem add_edges_targets (edges : List Edge) (g : ControlFlowGraph) :
    (edges.foldl (fun g e => (CfgModel.addEdge lib g e).1) g).targets = g.targets ∧
      (edges.foldl (fun g e => (CfgModel.addEdge lib g e).1) g).solvedTargets =
        g.solvedTargets := by
  induction edges generalizing g with
  | nil => exact ⟨rfl, rfl⟩
  | cons e edges ih =>
    obtain ⟨ht, hs⟩ := ih (CfgModel.addEdge lib g e).1
    exact ⟨ht.trans (add_edge_targets e), hs.trans (add_edge_solved e)⟩

end Graph

variable {lib} {s t : Session} {initial : Finset ℕ}

theorem add_all_cfg (conds : List CondStmt) (s : Session) :
    (conds.foldl (addOne lib) s).cfg = s.cfg ∧
      (conds.foldl (addOne lib) s).discarded = s.discarded := by
  induction conds generalizing s with
  | nil => exact ⟨rfl, rfl⟩
  | cons c conds ih => exact ih (addOne lib s c)

/-- What a step does to the targets and to the record: only a discarded
condition that is written back changes them. -/
theorem next_cases {op : Op} (h : next lib s op = some t) :
    (t.cfg.targets = s.cfg.targets ∧ t.cfg.solvedTargets = s.cfg.solvedTargets ∧
      t.discarded = s.discarded ∧ Aimed s op) ∨
    ∃ cond, op = .updateEntry cond ∧ isDiscarded cond = true ∧
      t.cfg.targets = s.cfg.targets.erase cond.base.cmpid ∧
      t.cfg.solvedTargets = (if cond.base.cmpid ∈ s.cfg.targets
        then insert cond.base.cmpid s.cfg.solvedTargets else s.cfg.solvedTargets) ∧
      t.discarded = if (s.queue.lookup (keyOf cond)).isSome
        then cond::s.discarded else s.discarded := by
  cases op with
  | addEntries conds =>
    obtain rfl := Option.some.inj h
    obtain ⟨hcfg, hrec⟩ := @add_all_cfg lib conds s
    exact Or.inl ⟨by rw [hcfg], by rw [hcfg], hrec, trivial⟩
  | getEntry key =>
    obtain ⟨r, -, rfl⟩ := Option.map_eq_some_iff.mp h
    exact Or.inl ⟨rfl, rfl, rfl, trivial⟩
  | addEdge edge =>
    obtain rfl := Option.some.inj h
    exact Or.inl ⟨add_edge_targets edge, add_edge_solved edge, rfl, trivial⟩
  | updateEntry cond =>
    obtain rfl := Option.some.inj h
    cases hdisc : isDiscarded cond with
    | false =>
      refine Or.inl ⟨?_, ?_, ?_, fun hd => ?_⟩
      · simp [writeBack, hdisc]
      · simp [writeBack, hdisc]
      · simp [writeBack, hdisc]
      · rw [hdisc] at hd
        cases hd
    | true =>
      refine Or.inr ⟨cond, rfl, hdisc, ?_, ?_, ?_⟩
      · simp only [writeBack, hdisc, if_true]
        exact remove_target_targets _
      · simp only [writeBack, hdisc, if_true]
        exact remove_target_solved _
      · simp only [writeBack, hdisc, Bool.true_and]

theorem next_partitioned {op : Op} (hp : Partitioned initial s) (h : next lib s op = some t) :
    Partitioned initial t := by
  obtain ⟨ht, hs, -⟩ | ⟨cond, -, -, ht, hs, -⟩ := next_cases h
  · rwa [Partitioned, ht, hs]
  · obtain ⟨hunion, hdisj⟩ := hp
    rw [Partitioned, ht, hs]
    by_cases hin : cond.base.cmpid ∈ s.cfg.targets
    · rw [if_pos hin]
      constructor
      · rw [Finset.union_insert, ← Finset.insert_union, Finset.insert_erase hin]
        exact hunion
      · rw [Finset.disjoint_insert_right]
        exact ⟨Finset.notMem_erase _ _, hdisj.mono_left (Finset.erase_subset _ _)⟩
    · rw [if_neg hin, Finset.erase_eq_of_notMem hin]
      exact ⟨hunion, hdisj⟩

def Kept (initial : Finset ℕ) (s : Session) : Prop :=
  Partitioned initial s ∧ ∀ c ∈ s.discarded, c.base.cmpid ∉ s.cfg.targets

theorem next_kept {op : Op} (hk : Kept initial s) (h : next lib s op = some t) :
    Kept initial t := by
  refine ⟨next_partitioned hk.1 h, ?_⟩
  obtain ⟨ht, -, hrec, -⟩ | ⟨cond, -, -, ht, -, hrec⟩ := next_cases h
  · rw [ht, hrec]
    exact hk.2
  · intro c hc
    rw [ht, Finset.mem_erase]
    rintro ⟨hne, hin⟩
    rw [hrec] at hc
    split_ifs at hc
    · rcases List.mem_cons.mp hc with rfl | hc
      · exact hne rfl
      · exact hk.2 c hc hin
    · exact hk.2 c hc hin

theorem next_attributed {op : Op} (hk : Kept initial s) (ha : Attributed initial s)
    (h : next lib s op = some t) : Attributed initial t ↔ Aimed s op := by
  obtain ⟨ht, -, hrec, haim⟩ | ⟨cond, rfl, hdisc, ht, -, hrec⟩ := next_cases h
  · refine iff_of_true ?_ haim
    rw [Attributed, ht, hrec]
    exact ha
  · have hgrow : ∀ c ∈ s.discarded, c ∈ t.discarded := by
      intro c hc
      rw [hrec]
      split_ifs
      · exact List.mem_cons_of_mem _ hc
      · exact hc
    constructor
    · intro hatt _ hin
      have hinit : cond.base.cmpid ∈ initial := by
        rw [← hk.1.1]
        exact Finset.mem_union_left _ hin
      have hgone : cond.base.cmpid ∉ t.cfg.targets := by
        rw [ht]
        exact Finset.notMem_erase _ _
      obtain ⟨c, hc, hop, hcmp⟩ := hatt _ hinit hgone
      -- A record with this number is the new one: older ones are of dead targets.
      have hold : c ∉ s.discarded := fun hc' => hk.2 c hc' (by rw [hcmp]; exact hin)
      rw [hrec] at hc
      split_ifs at hc with hsome
      · rcases List.mem_cons.mp hc with rfl | hc
        · exact ⟨hop, hsome⟩
        · exact absurd hc hold
      · exact absurd hc hold
    · intro haim cmp hinit hgone
      by_cases hin : cmp ∈ s.cfg.targets
      · have hsame : cmp = cond.base.cmpid := by
          by_contra hne
          rw [ht, Finset.mem_erase] at hgone
          exact hgone ⟨hne, hin⟩
        rw [hsame] at hin
        obtain ⟨hop, hsome⟩ := haim hdisc hin
        refine ⟨cond, ?_, hop, hsame.symm⟩
        rw [hrec, if_pos hsome]
        exact List.mem_cons_self
      · obtain ⟨c, hc, hop, hcmp⟩ := ha cmp hinit hin
        exact ⟨c, hgrow c hc, hop, hcmp⟩

theorem new_session_targets (data : CfgFile) :
    (newSession lib data).cfg.targets = data.targets ∧
      (newSession lib data).cfg.solvedTargets = ∅ :=
  add_edges_targets data.edges (emptyGraph data)

theorem new_session_kept (data : CfgFile) : Kept data.targets (newSession lib data) := by
  obtain ⟨ht, hs⟩ := @new_session_targets lib data
  refine ⟨⟨?_, ?_⟩, ?_⟩
  · rw [ht, hs, Finset.union_empty]
  · rw [hs]
    exact Finset.disjoint_empty_right _
  · intro c hc
    cases hc

theorem new_session_attributed (data : CfgFile) :
    Attributed data.targets (newSession lib data) := by
  intro cmp hin hgone
  rw [(new_session_targets data).1] at hgone
  exact absurd hin hgone

/-- In every run the live and the solved targets partition the initial ones; the
targets that left were discarded comparisons exactly if no step discards
anything else under the number of a live target. -/
theorem aimed_run_attributed (lib : Library) (data : CfgFile) (ops : List Op) (s : Session)
    (h : replay (next lib) (fun _ _ => True) (newSession lib data) ops = some s) :
    Partitioned data.targets s ∧
    ((∀ js t, js <+: ops → replay (next lib) (fun _ _ => True) (newSession lib data) js = some t →
        Attributed data.targets t) ↔
      replay (next lib) Aimed (newSession lib data) ops = some s) := by
  have hkept : Kept data.targets s :=
    reachable_invariant (new_session_kept data) (fun _ _ _ hk _ hn => next_kept hk hn)
      (replay_reachable ops _ s h)
  refine ⟨hkept.1, ?_⟩
  exact replay_exact_kept (new_session_kept data) (new_session_attributed data)
    (fun _ _ _ hk _ _ hn => next_kept hk hn) (fun _ _ _ hk hs _ hn => next_attributed hk hs hn)
    (fun _ _ _ => trivial) ops s h

def solvedOps : List Op :=
  [.addEntries [siteCond COND_FALSE_ST 5], .getEntry (7, 3, 1),
    .updateEntry (markAsDone (siteCond COND_FALSE_ST 5))]

theorem aimed_run_attributed_solved : ∃ s,
    replay (next reference) (fun _ _ => True) (newSession reference ⟨{7, 9}, [], []⟩) solvedOps =
      some s ∧ s.cfg.targets = {9} ∧ Partitioned {7, 9} s ∧ Attributed {7, 9} s := by
  have hrun : (replay (next reference) Aimed (newSession reference ⟨{7, 9}, [], []⟩) solvedOps).map
      (fun s => s.cfg.targets) = some {9} := by decide +kernel
  obtain ⟨s, hs, htargets⟩ := Option.map_eq_some_iff.mp hrun
  have hfree : replay (next reference) (fun _ _ => True) (newSession reference ⟨{7, 9}, [], []⟩)
      solvedOps = some s := replay_mono (fun _ _ _ => trivial) _ _ _ hs
  obtain ⟨hpart, hatt⟩ := aimed_run_attributed reference ⟨{7, 9}, [], []⟩ solvedOps s hfree
  exact ⟨s, hfree, htargets, hpart, hatt.mpr hs _ _ (List.prefix_refl _) hfree⟩

def timeoutOps : List Op :=
  [.addEntries [getAflCond 5 100 3], .getEntry (5, 0, 0),
    .updateEntry { getAflCond 5 100 3 with state := .timeout }]

/-- The comparison 5 leaves the live targets though it was never seen. -/
theorem input_removes_target : ∃ s,
    replay (next reference) (fun _ _ => True) (newSession reference ⟨{5, 9}, [], []⟩) timeoutOps =
      some s ∧ 5 ∉ s.cfg.targets ∧ ¬ Attributed {5, 9} s := by
  have hrun : (replay (next reference) (fun _ _ => True) (newSession reference ⟨{5, 9}, [], []⟩)
      timeoutOps).map (fun s => (s.cfg.targets, s.discarded.map fun c => c.base.op)) =
        some ({9}, [COND_AFL_OP]) := by decide +kernel
  obtain ⟨s, hs, hval⟩ := Option.map_eq_some_iff.mp hrun
  obtain ⟨htargets, hops⟩ := Prod.mk.inj hval
  have hgone : 5 ∉ s.cfg.targets := by
    rw [htargets]
    decide
  refine ⟨s, hs, hgone, ?_⟩
  intro hatt
  obtain ⟨c, hc, hop, -⟩ := hatt 5 (by decide) hgone
  have hmem : c.base.op ∈ s.discarded.map fun c => c.base.op := List.mem_map_of_mem hc
  rw [hops] at hmem
  exact hop (List.mem_singleton.mp hmem)

end Parmesan.DepotTargets
