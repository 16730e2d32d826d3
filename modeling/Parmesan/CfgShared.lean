import Parmesan.BranchesModel
import Parmesan.CfgModel
import Parmesan.DepotModel
import Parmesan.Execution

/-!
# The two copies of the control flow graph

`fuzz_main` builds one graph and gives a clone of it to the depot and the graph
itself to the branch maps. Tracking an input and discarding a condition change
the depot's copy; `has_new` asks the other one.
-/

set_option autoImplicit false

namespace Parmesan.CfgShared
open Parmesan.Traversal Parmesan.TagSetModel Parmesan.BranchesModel Parmesan.CfgModel
open Parmesan.DepotModel Parmesan.Execution

structure System where
  branches : GlobalBranches
  branchesCfg : ControlFlowGraph
  depotCfg : ControlFlowGraph

variable (lib : Library)

def fuzzMain (data : CfgFile) : System :=
  let cfg := newGraph lib data
  ⟨newGlobalBranches, cfg, cfg⟩

def windows {α : Type} (l : List α) : List (α × α) := l.zip l.tail

/-- The body of the loop of `track`; the map keeps the offsets of the dominators
met so far. `none` is a panic. -/
def trackPair (buf : List UInt8) (s : ControlFlowGraph × (ℕ → Option (List TagSeg)))
    (ab : CondStmt × CondStmt) : Option (ControlFlowGraph × (ℕ → Option (List TagSeg))) :=
  let edge := (ab.1.base.cmpid, ab.2.base.cmpid)
  let g := (addEdge lib s.1 edge).1
  let doms := if dominatesIndirectCall g ab.1.base.cmpid
    then Function.update s.2 ab.1.base.cmpid (some ab.1.offsets) else s.2
  if ab.2.base.lastCallsite ≠ 0 then
    let g := setEdgeIndirect g edge
    let fixedOffsets := (getCallsiteDominators g ab.2.base.lastCallsite).flatMap
      fun d => (doms d).getD []
    (setMagicBytes g edge buf fixedOffsets).bind fun g =>
      -- the test `i < var_len - 1` admits every index when there is no variable
      if ab.2.vars = [] ∧ getMagicBytes g edge ≠ [] then none else some (g, doms)
  else some (g, doms)

/-- What `track` does to the graph, given the conditions of the tracked run. -/
def track (g : ControlFlowGraph) (conds : List CondStmt) (buf : List UInt8) :
    Option ControlFlowGraph :=
  ((windows conds).foldlM (trackPair lib buf) (g, fun _ => none)).map Prod.fst

inductive Event where
  | track (conds : List CondStmt) (buf : List UInt8)
  | updateEntry (cond : CondStmt)
  | hasNew (trace : BranchBuf) (status : StatusType) (directed : Bool)

def next (s : System) : Event → Option System
  | .track conds buf => (track lib s.depotCfg conds buf).map fun g => { s with depotCfg := g }
  | .updateEntry cond =>
    some { s with depotCfg :=
      if isDiscarded cond then removeTarget lib s.depotCfg cond.base.cmpid else s.depotCfg }
  | .hasNew trace status directed =>
    some { s with branches :=
      (hasNew (hasPathToTarget lib s.branchesCfg) s.branches trace status directed).1 }

/-- `has_new` uses the answers of the depot's graph. -/
def Agree (s : System) : Prop :=
  ∀ id, hasPathToTarget lib s.branchesCfg id = hasPathToTarget lib s.depotCfg id

def trackedEdges (conds : List CondStmt) : List Edge :=
  (windows conds).map fun ab => (ab.1.base.cmpid, ab.2.base.cmpid)

/-- The step gives no condition its first path to a target and takes no last one. -/
def Neutral (s : System) : Event → Prop
  | .track conds _ => ∀ e ∈ trackedEdges conds,
      hasPathToTarget lib s.depotCfg e.2 = true → hasPathToTarget lib s.depotCfg e.1 = true
  | .updateEntry cond => isDiscarded cond = true → cond.base.cmpid ∈ s.depotCfg.targets →
      hasPathToTarget lib { s.depotCfg with
        targets := s.depotCfg.targets.erase cond.base.cmpid } cond.base.cmpid = true
  | .hasNew _ _ _ => True

instance (s : System) : (e : Event) → Decidable (Neutral lib s e)
  | .track conds _ => inferInstanceAs (Decidable (∀ e ∈ trackedEdges conds, _ → _))
  | .updateEntry _ => inferInstanceAs (Decidable (_ → _ → _))
  | .hasNew _ _ _ => inferInstanceAs (Decidable True)

def anyEvent (_ : System) (_ : Event) : Prop := True

instance (s : System) (e : Event) : Decidable (anyEvent s e) := inferInstanceAs (Decidable True)

variable {lib} {g g' : ControlFlowGraph}

theorem set_magic_bytes_same {edge : Edge} {buf : List UInt8} {offsets : List TagSeg}
    (h : setMagicBytes g edge buf offsets = some g') :
    g'.edges = g.edges ∧ g'.targets = g.targets := by
  obtain ⟨fixed, -, rfl⟩ := Option.map_eq_some_iff.mp h
  exact ⟨rfl, rfl⟩

theorem track_pair_spec {buf : List UInt8}
    {s s' : ControlFlowGraph × (ℕ → Option (List TagSeg))} {ab : CondStmt × CondStmt}
    (h : trackPair lib buf s ab = some s') :
    (∀ e, e ∈ s'.1.edges ↔ e ∈ s.1.edges ∨ e = (ab.1.base.cmpid, ab.2.base.cmpid)) ∧
      s'.1.targets = s.1.targets := by
  have hadd := @mem_add_edge lib s.1 (ab.1.base.cmpid, ab.2.base.cmpid)
  have htargets := @add_edge_targets lib s.1 (ab.1.base.cmpid, ab.2.base.cmpid)
  simp only [trackPair] at h
  generalize (if dominatesIndirectCall _ _ = true then _ else s.2) = doms at h
  split_ifs at h with hcs
  · obtain ⟨g1, hg1, h⟩ := Option.bind_eq_some_iff.mp h
    obtain ⟨hedges, ht⟩ := set_magic_bytes_same hg1
    split_ifs at h
    obtain rfl := Option.some.inj h
    simp only
    rw [hedges, ht]
    exact ⟨hadd, htargets⟩
  · obtain rfl := Option.some.inj h
    exact ⟨hadd, htargets⟩

theorem track_pairs_spec {buf : List UInt8} (pairs : List (CondStmt × CondStmt))
    (s s' : ControlFlowGraph × (ℕ → Option (List TagSeg)))
    (h : pairs.foldlM (trackPair lib buf) s = some s') :
    (∀ e, e ∈ s'.1.edges ↔
      e ∈ s.1.edges ∨ e ∈ pairs.map fun ab => (ab.1.base.cmpid, ab.2.base.cmpid)) ∧
      s'.1.targets = s.1.targets := by
  induction pairs generalizing s with
  | nil =>
    obtain rfl : s = s' := Option.some.inj h
    simp
  | cons ab pairs ih =>
    rw [List.foldlM_cons] at h
    obtain ⟨u, hu, h⟩ := Option.bind_eq_some_iff.mp h
    obtain ⟨hedges, htargets⟩ := ih u h
    obtain ⟨hedges', htargets'⟩ := track_pair_spec hu
    refine ⟨?_, htargets.trans htargets'⟩
    intro e
    rw [hedges, hedges', List.map_cons, List.mem_cons, or_assoc]

theorem track_spec {conds : List CondStmt} {buf : List UInt8} (h : track lib g conds buf = some g') :
    (∀ e, e ∈ g'.edges ↔ e ∈ g.edges ∨ e ∈ trackedEdges conds) ∧ g'.targets = g.targets := by
  obtain ⟨s, hs, rfl⟩ := Option.map_eq_some_iff.mp h
  exact track_pairs_spec _ _ s hs

theorem more_edges_iff {es : List Edge} (hedges : ∀ e, e ∈ g'.edges ↔ e ∈ g.edges ∨ e ∈ es)
    (htargets : g'.targets = g.targets) :
    (∀ id, hasPathToTarget lib g id = hasPathToTarget lib g' id) ↔
      ∀ e ∈ es, hasPathToTarget lib g e.2 = true → hasPathToTarget lib g e.1 = true := by
  have hsub : g.edges ⊆ g'.edges := fun e he => (hedges e).mpr (Or.inl he)
  have hmono : ∀ id, hasPathToTarget lib g id = true → hasPathToTarget lib g' id = true := by
    intro id h
    obtain ⟨t, ht, hw⟩ := has_path_iff id |>.mp h
    exact (has_path_iff id).mpr ⟨t, htargets ▸ ht, walk_mono hsub hw⟩
  have hhead : ∀ g : ControlFlowGraph, ∀ a b, (a, b) ∈ g.edges →
      hasPathToTarget lib g b = true → hasPathToTarget lib g a = true := by
    intro g a b he h
    obtain ⟨t, ht, hw⟩ := (has_path_iff b).mp h
    exact (has_path_iff a).mpr ⟨t, ht, Relation.ReflTransGen.head he hw⟩
  constructor
  · intro hall e he hpath
    rw [hall]
    exact hhead g' e.1 e.2 ((hedges e).mpr (Or.inr he)) (hmono e.2 hpath)
  · intro hall id
    rw [Bool.eq_iff_iff]
    refine ⟨hmono id, ?_⟩
    intro h
    obtain ⟨t, ht, hw⟩ := (has_path_iff id).mp h
    induction hw using Relation.ReflTransGen.head_induction_on with
    | refl => exact (has_path_iff t).mpr ⟨t, htargets ▸ ht, Relation.ReflTransGen.refl⟩
    | head he hw ih =>
      have hnext := ih ((has_path_iff _).mpr ⟨t, ht, hw⟩)
      rcases (hedges _).mp he with he | he
      · exact hhead g _ _ he hnext
      · exact hall _ he hnext

theorem erase_target_iff {c : ℕ} (hedges : g'.edges = g.edges)
    (htargets : g'.targets = g.targets.erase c) :
    (∀ id, hasPathToTarget lib g id = hasPathToTarget lib g' id) ↔
      (c ∈ g.targets →
        hasPathToTarget lib { g with targets := g.targets.erase c } c = true) := by
  have hsame : ∀ id, hasPathToTarget lib g' id =
      hasPathToTarget lib { g with targets := g.targets.erase c } id := by
    intro id
    simp only [hasPathToTarget, hedges, htargets]
  simp only [hsame]
  constructor
  · intro hall hc
    rw [← hall]
    exact (has_path_iff c).mpr ⟨c, hc, Relation.ReflTransGen.refl⟩
  · intro hother id
    rw [Bool.eq_iff_iff]
    constructor
    · intro h
      obtain ⟨t, ht, hw⟩ := (has_path_iff id).mp h
      by_cases htc : t = c
      · subst htc
        obtain ⟨t', ht', hw'⟩ := (has_path_iff t).mp (hother ht)
        exact (has_path_iff id).mpr ⟨t', ht', hw.trans hw'⟩
      · exact (has_path_iff id).mpr ⟨t, Finset.mem_erase.mpr ⟨htc, ht⟩, hw⟩
    · intro h
      obtain ⟨t, ht, hw⟩ := (has_path_iff id).mp h
      exact (has_path_iff id).mpr ⟨t, Finset.mem_of_mem_erase ht, hw⟩

theorem next_agree_iff (s : System) (e : Event) (t : System) (hs : Agree lib s)
    (h : next lib s e = some t) : Agree lib t ↔ Neutral lib s e := by
  have hkeep : ∀ g : ControlFlowGraph, (∀ id, hasPathToTarget lib s.branchesCfg id =
      hasPathToTarget lib g id) ↔
        ∀ id, hasPathToTarget lib s.depotCfg id = hasPathToTarget lib g id := by
    intro g
    apply forall_congr'
    intro id
    rw [hs id]
  cases e with
  | track conds buf =>
    obtain ⟨g, hg, rfl⟩ := Option.map_eq_some_iff.mp h
    obtain ⟨hedges, htargets⟩ := track_spec hg
    exact (hkeep g).trans (more_edges_iff hedges htargets)
  | updateEntry cond =>
    obtain rfl := Option.some.inj h
    refine (hkeep _).trans ?_
    simp only [Neutral]
    split_ifs with hd
    · simp only [hd, true_imp_iff]
      exact erase_target_iff (remove_target_edges _) (remove_target_targets _)
    · simp [hd]
  | hasNew trace status directed =>
    obtain rfl := Option.some.inj h
    exact iff_of_true hs trivial

/-- In a run, the two copies agree in every state exactly when every step is neutral. -/
theorem graphs_agree_iff (data : CfgFile) (events : List Event) (s : System)
    (h : replay (next lib) anyEvent (fuzzMain lib data) events = some s) :
    (∀ js t, js <+: events → replay (next lib) anyEvent (fuzzMain lib data) js = some t →
      Agree lib t) ↔
      replay (next lib) (Neutral lib) (fuzzMain lib data) events = some s :=
  replay_exact (P := Agree lib) (fun _ => rfl)
    (fun s e t hs _ hn => next_agree_iff s e t hs hn) (fun _ _ _ => trivial) events s h

def condAt (cmpid : ℕ) : CondStmt :=
  ⟨⟨cmpid, 0, 0, 1, 0, 0, 0, 0, 0, 0, 0, 0, 0⟩, [], [], [], 0, true, .offset⟩

theorem graphs_agree_iff_known_edge : ∃ s,
    replay (next reference) anyEvent (fuzzMain reference ⟨{2}, [(1, 2)], []⟩)
      [.track [condAt 1, condAt 2] []] = some s ∧ Agree reference s := by
  have hrun : ∃ s, replay (next reference) (Neutral reference)
      (fuzzMain reference ⟨{2}, [(1, 2)], []⟩) [.track [condAt 1, condAt 2] []] = some s :=
    Option.isSome_iff_exists.mp (by decide)
  obtain ⟨s, hs⟩ := hrun
  have hany := replay_mono (fun _ _ _ => trivial) _ _ _ hs
  have hagree := (graphs_agree_iff ⟨{2}, [(1, 2)], []⟩ _ s hany).mpr hs
  exact ⟨s, hany, hagree _ s (List.prefix_refl _) hany⟩

/-- An edge to a target found by tracking is known to the depot only. -/
theorem tracked_edge_not_shared : ∃ s,
    replay (next reference) anyEvent (fuzzMain reference ⟨{2}, [], []⟩)
      [.track [condAt 1, condAt 2] []] = some s ∧
    hasPathToTarget reference s.depotCfg 1 = true ∧
    hasPathToTarget reference s.branchesCfg 1 = false := by
  have h : (replay (next reference) anyEvent (fuzzMain reference ⟨{2}, [], []⟩)
      [.track [condAt 1, condAt 2] []]).map (fun s =>
        (hasPathToTarget reference s.depotCfg 1, hasPathToTarget reference s.branchesCfg 1)) =
      some (true, false) := by decide
  obtain ⟨s, hs, heq⟩ := Option.map_eq_some_iff.mp h
  exact ⟨s, hs, congrArg Prod.fst heq, congrArg Prod.snd heq⟩

end Parmesan.CfgShared
