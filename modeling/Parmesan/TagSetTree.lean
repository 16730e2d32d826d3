import Mathlib.Logic.Relation
import Parmesan.TagSetMachine

/-!
# The tree of the label set

What the node vector is at every moment, in terms of the links alone: a tree
of zero runs and one runs below the root, with `parent` threaded through it.
It is the invariant of `TagSetInvariant` without the meaning of the nodes.
-/

set_option autoImplicit false

namespace Parmesan.TagSetTree
open Parmesan.TagSetModel Parmesan.TagSetInvariant Parmesan.TagSetInsert Parmesan.TagSetShape
open Parmesan.TagSetCanonical Parmesan.TagSetMachine Parmesan.Outcome Parmesan.Execution
open Parmesan.TagSetRun (Op Session issued newSession)

def child (s : TagSet) (n : ℕ) (side : Bool) : ℕ :=
  if side then (node s n).right else (node s n).left

/-- `c` hangs below `n`. The link 0 is no child. -/
def Edge (s : TagSet) (n c : ℕ) : Prop := n < size s ∧ c ≠ ROOT ∧ ∃ side, child s n side = c

/-- `n` lies on the tree path of `c`, strictly above it. -/
def Above (s : TagSet) : ℕ → ℕ → Prop := Relation.TransGen (Edge s)

/-- `c` is a one run below `n`; its offsets are those between the two ends. -/
def OneRun (s : TagSet) (n c : ℕ) : Prop := n < size s ∧ c ≠ ROOT ∧ (node s n).right = c

/-- `p` is the nearest one run above `c`, the root when there is none. -/
def NearestOne (s : TagSet) (c p : ℕ) : Prop :=
  (p = ROOT ∧ ∀ q, Above s q c → ¬ ∃ n, OneRun s n q) ∨
  (Above s p c ∧ (∃ n, OneRun s n p) ∧
    ∀ q, Above s q c → (∃ n, OneRun s n q) → q = p ∨ Above s q p)

structure Represented (s : TagSet) : Prop where
  tree : ∀ c, c < size s → c ≠ ROOT → ∃! e : ℕ × Bool, e.1 < size s ∧ child s e.1 e.2 = c
  stop : ∀ n c, Edge s n c → (node s n).seg.stop < (node s c).seg.stop
  zero : ∀ n, n < size s → (node s n).left ≠ ROOT →
    (node s (node s n).left).seg.start = (node s n).seg.stop
  parent : ∀ c, c < size s → c ≠ ROOT → NearestOne s c (node s c).parent
  one : ∀ n c, OneRun s n c → ∀ y, (node s c).seg.start ≤ y → y < (node s c).seg.stop →
    ∃ k q, OneRun s k q ∧ (q = c ∨ Above s q c) ∧ (node s k).seg.stop ≤ y ∧ y < (node s q).seg.stop

section Invariant
variable {top : ℕ} {s : TagSet} {m : Meaning}

theorem child_one (h : Inv top s m) {n c : ℕ} {side : Bool} (hn : n < size s)
    (hc : child s n side = c) (h0 : c ≠ 0) : m.one c = side := by
  subst hc
  cases side with
  | true => exact (h.one n hn h0).one
  | false => exact (h.zero n hn h0).one

theorem one_run_iff (h : Inv top s m) {c : ℕ} (hc : c < size s) :
    (∃ n, OneRun s n c) ↔ m.one c = true := by
  constructor
  · rintro ⟨n, hn, h0, hr⟩
    exact @child_one top s m h n c true hn hr h0
  · intro hone
    have h0 : c ≠ 0 := by
      rintro rfl
      rw [h.root_one] at hone
      cases hone
    obtain ⟨n, hn, hr, -⟩ := one_edge_of_label h ⟨hc, Or.inr hone⟩ h0
    exact ⟨n, hn, h0, hr⟩

theorem edge_stop (h : Inv top s m) {n c : ℕ} (he : Edge s n c) :
    (node s n).seg.stop < (node s c).seg.stop := by
  obtain ⟨hn, h0, side, rfl⟩ := he
  cases side with
  | true => exact (h.one n hn h0).stop
  | false => exact (h.zero n hn h0).stop

theorem edge_parent (h : Inv top s m) {n c : ℕ} (he : Edge s n c) :
    (node s c).parent = lastOne s m n := by
  obtain ⟨hn, h0, side, rfl⟩ := he
  cases side with
  | true => exact (h.one n hn h0).parent
  | false => exact (h.zero n hn h0).parent

theorem edge_exists (h : Inv top s m) {c : ℕ} (hc : c < size s) (h0 : c ≠ 0) : ∃ n, Edge s n c := by
  obtain ⟨n, hn, hl | hr⟩ := h.tree c hc h0
  · exact ⟨n, hn, h0, false, hl⟩
  · exact ⟨n, hn, h0, true, hr⟩

theorem child_unique (h : Inv top s m) {n n' c : ℕ} {side side' : Bool} (hn : n < size s)
    (hn' : n' < size s) (h0 : c ≠ 0) (hc : child s n side = c) (hc' : child s n' side' = c) :
    n = n' ∧ side = side' := by
  obtain rfl : side = side' :=
    (child_one h hn hc h0).symm.trans (child_one h hn' hc' h0)
  refine ⟨?_, rfl⟩
  subst hc
  cases side with
  | true => exact h.right_inj n n' hn hn' h0 hc'.symm
  | false => exact h.left_inj n n' hn hn' h0 hc'.symm

theorem edge_unique (h : Inv top s m) {n n' c : ℕ} (he : Edge s n c) (he' : Edge s n' c) :
    n = n' := by
  obtain ⟨hn, h0, side, hc⟩ := he
  obtain ⟨hn', -, side', hc'⟩ := he'
  exact (child_unique h hn hn' h0 hc hc').1

theorem above_edge (h : Inv top s m) {q n c : ℕ} (he : Edge s n c) :
    Above s q c ↔ q = n ∨ Above s q n := by
  constructor
  · intro hq
    rcases Relation.TransGen.tail'_iff.mp hq with ⟨k, hqk, hkc⟩
    obtain rfl := edge_unique h he hkc
    rcases Relation.reflTransGen_iff_eq_or_transGen.mp hqk with rfl | hqn
    · exact Or.inl rfl
    · exact Or.inr hqn
  · rintro (rfl | hq)
    · exact Relation.TransGen.single he
    · exact hq.tail he

theorem not_above_root {q : ℕ} : ¬ Above s q ROOT := by
  intro hq
  obtain ⟨k, -, hk⟩ := Relation.TransGen.tail'_iff.mp hq
  exact hk.2.1 rfl

theorem tree_induction (h : Inv top s m) (P : ℕ → Prop) (root : P 0)
    (edge : ∀ n c, Edge s n c → P n → P c) : ∀ c, c < size s → P c := by
  have hne : ∀ n c, (node s n).seg.stop < (node s c).seg.stop → c ≠ 0 := by
    rintro n c hlt rfl
    rw [h.root_stop] at hlt
    omega
  apply edge_induction h P root
  · intro n c hn hl he
    exact edge n c ⟨hn, hne n c he.stop, false, hl⟩
  · intro n c hn hr he
    exact edge n c ⟨hn, hne n c he.stop, true, hr⟩

theorem parent_nearest (h : Inv top s m) : ∀ c, c < size s → c ≠ 0 →
    NearestOne s c (node s c).parent := by
  apply tree_induction h
  · intro h0
    exact absurd rfl h0
  · intro n c he ih h0
    rw [edge_parent h he, lastOne]
    by_cases hone : m.one n = true
    · rw [if_pos hone]
      refine Or.inr ⟨Relation.TransGen.single he, (one_run_iff h he.1).mpr hone, ?_⟩
      intro q hq _
      exact (above_edge h he).mp hq
    rw [if_neg hone]
    have hstep : ∀ q, Above s q c → (∃ k, OneRun s k q) → Above s q n := by
      intro q hq hrun
      refine ((above_edge h he).mp hq).resolve_left ?_
      rintro rfl
      exact hone ((one_run_iff h he.1).mp hrun)
    by_cases hn0 : n = 0
    · subst hn0
      rw [h.root_parent]
      exact Or.inl ⟨rfl, fun q hq hrun => not_above_root (hstep q hq hrun)⟩
    · rcases ih hn0 with ⟨hroot, hnone⟩ | ⟨hup, hrun, hnear⟩
      · exact Or.inl ⟨hroot, fun q hq hrun => hnone q (hstep q hq hrun) hrun⟩
      · exact Or.inr ⟨hup.tail he, hrun, fun q hq hq1 => hnear q (hstep q hq hq1) hq1⟩

theorem bits_one_run (h : Inv top s m) : ∀ c, c < size s → ∀ y ∈ m.bits c,
    ∃ k q, OneRun s k q ∧ (q = c ∨ Above s q c) ∧
      (node s k).seg.stop ≤ y ∧ y < (node s q).seg.stop := by
  apply tree_induction h
  · intro y hy
    rw [h.root_bits] at hy
    exact absurd hy (Set.notMem_empty y)
  · intro n c he ih y hy
    have hpath : y ∈ m.bits n → ∃ k q, OneRun s k q ∧ (q = c ∨ Above s q c) ∧
        (node s k).seg.stop ≤ y ∧ y < (node s q).seg.stop := by
      intro hy
      obtain ⟨k, q, hrun, hq, hin⟩ := ih y hy
      exact ⟨k, q, hrun, Or.inr ((above_edge h he).mpr hq), hin⟩
    obtain ⟨hn, h0, side, hc⟩ := he
    subst hc
    cases side with
    | true =>
      have hone := h.one n hn h0
      have hbits : m.bits (child s n true) = _ := hone.bits
      rw [hbits] at hy
      rcases hy with hy | hy
      · exact hpath hy
      · exact ⟨n, _, ⟨hn, h0, rfl⟩, Or.inl rfl, hy⟩
    | false =>
      have hbits : m.bits (child s n false) = _ := (h.zero n hn h0).bits
      rw [hbits] at hy
      exact hpath hy

theorem inv_represented (h : Inv top s m) : Represented s where
  tree := by
    intro c hc h0
    obtain ⟨n, hn, -, side, hchild⟩ := edge_exists h hc h0
    refine ⟨(n, side), ⟨hn, hchild⟩, ?_⟩
    rintro ⟨n', side'⟩ ⟨hn', hchild'⟩
    obtain ⟨rfl, rfl⟩ := child_unique h hn hn' h0 hchild hchild'
    rfl
  stop := fun n c he => edge_stop h he
  zero := fun n hn h0 => (h.zero n hn h0).start
  parent := parent_nearest h
  one := by
    rintro n c ⟨hn, h0, rfl⟩ y hstart hstop
    have he := h.one n hn h0
    exact bits_one_run h _ he.lt y (he.run ⟨hstart, hstop⟩)

end Invariant

section Runs

/-- In every state that calls without a wrapped sum reach, the node vector is
the tree described above, and the next such call stays within it. -/
theorem run_represented {fuel : ℕ} {σ : Session}
    (hr : Reachable (call fuel) Safe newSession σ) :
    Represented σ.tags ∧ ∀ op, Safe σ op → ∀ fuel', step fuel' σ.tags op ≠ outside := by
  obtain ⟨m, hinv, hlabels⟩ := run_sound hr
  refine ⟨inv_represented hinv, ?_⟩
  intro op ha fuel'
  exact agrees_inside (step_agrees hinv (fun l hl => hlabels l (ha.1.1 l hl)) ha.2)

/-- Four bytes beyond the offsets that `find` reports, grouped and marked to be split. -/
def groupOps : List Op :=
  [.insert (2^31), .insert (2^31+3), .combineN [2, 0, 0, 4] true, .combineAnd 5]

def groupSession : Session := (replay (call 4) Safe newSession groupOps).getD newSession

theorem run_represented_group : Safe groupSession (.find 5) ∧ Represented groupSession.tags ∧
    step 8 groupSession.tags (.find 5) ≠ outside := by
  have hsafe : Safe groupSession (.find 5) := by decide +kernel
  have hreach : Reachable (call 4) Safe newSession groupSession :=
    replay_reachable groupOps _ _ (by decide +kernel)
  obtain ⟨hrep, hstep⟩ := run_represented hreach
  exact ⟨hsafe, hrep, hstep _ hsafe 8⟩

def wrapSession : Session := (replay (call 2) Valid newSession [.insert (2^32-1)]).getD newSession

/-- The end of the largest offset wraps to 0, below the end of the zeros above it. -/
theorem insert_wraps : Reachable (call 2) Valid newSession wrapSession ∧
    ¬ Represented wrapSession.tags := by
  refine ⟨replay_reachable [.insert (2^32-1)] _ _ (by decide +kernel), ?_⟩
  intro h
  exact absurd (h.stop 1 2 ⟨by decide +kernel, by decide, true, by decide +kernel⟩)
    (by decide +kernel)

end Runs

section Termination
variable {top : ℕ} {s : TagSet} {m : Meaning}

theorem parent_lower (h : Inv top s m) {n : ℕ} (hn : n < size s) (h0 : n ≠ 0) :
    (node s n).parent < size s ∧ (node s (node s n).parent).seg.stop < (node s n).seg.stop := by
  obtain ⟨k, he⟩ := edge_exists h hn h0
  have hlast := last_one_spec h k he.1
  have hstop := edge_stop h he
  rw [edge_parent h he]
  exact ⟨hlast.label.1, lt_of_le_of_lt hlast.stop hstop⟩

/-- A parent chain is no longer than the end of the node it starts from. -/
theorem parents_reach_root (h : Inv top s m) (k : ℕ) : ∀ n, n < size s →
    (node s n).seg.stop ≤ k → ∃ j ≤ k, (fun i : ℕ => (node s i).parent)^[j] n = ROOT := by
  induction k with
  | zero =>
    intro n hn hk
    exact ⟨0, le_rfl, show n = 0 from root_of_stop_zero h hn (by omega)⟩
  | succ k ih =>
    intro n hn hk
    by_cases h0 : n = 0
    · exact ⟨0, Nat.zero_le _, h0⟩
    obtain ⟨hlt, hstop⟩ := parent_lower h hn h0
    obtain ⟨j, hj, hroot⟩ := ih _ hlt (by omega)
    exact ⟨j+1, by omega, hroot⟩

def Splits (s : TagSet) (lb : ℕ) : Prop :=
  1 < sub32 (node s lb).seg.stop (node s lb).seg.start ∧ (node s lb).parent ≠ ROOT ∧
    (node s lb).seg.start ≤ (node s (node s lb).parent).seg.start ∧
    (node s (node s lb).parent).seg.stop < (node s lb).seg.stop

theorem split_loop_arrives (h : Inv top s m) (htop : top < 2^32) {lb : ℕ} (hl : IsLabel s m lb)
    (hs : Splits s lb) {fuel : ℕ} (hfuel : top ≤ fuel) (hone : 1 ≤ fuel) :
    ∃ r, splitLoop fuel fuel s (node s lb).parent lb = checked r ∧
      Ensures atLimit r fun s' => Spine s s' (node s lb).parent lb := by
  obtain ⟨-, hp, hg, hlt⟩ := hs
  have h0 : lb ≠ 0 := by
    rintro rfl
    exact hp h.root_parent
  have he := parent_edge h hl h0
  have hlim := h.limit lb hl.1
  have hright := grouped_right h hl h0 hp hg
  have hspec := split_loop_spec (node s lb).seg.stop s m _ lb h he.label hp hright h0 (by omega)
  have hag := split_loop_agrees htop (fun _ : True => hone) fuel (node s lb).seg.stop s m _ lb h
    he.label hp hright h0 (by omega) (fun _ => by omega)
  refine ⟨_, agrees_enough hag trivial, ensures_mono hspec ?_⟩
  rintro s' ⟨-, -, -, -, -, hspine⟩
  exact hspine

/-- In every state that calls without a wrapped sum reach, the next such call
returns or stops at the node limit, parent chains end at the root, and the loop
of `split_and_op` arrives along right links, over new nodes between. -/
theorem run_terminates {fuel : ℕ} {σ : Session}
    (hr : Reachable (call fuel) Safe newSession σ) :
    (∀ op, Safe σ op → ∀ fuel' ≥ 2^33, ∃ r, step fuel' σ.tags op = checked r ∧
      Ensures atLimit r fun _ => True) ∧
    (∀ n < size σ.tags, ∃ j ≤ (node σ.tags n).seg.stop,
      (fun i : ℕ => (node σ.tags i).parent)^[j] n = ROOT) ∧
    (∀ lb ∈ issued σ, Splits σ.tags lb → ∀ fuel' ≥ 2^33, ∃ r,
      splitLoop fuel' fuel' σ.tags (node σ.tags lb).parent lb = checked r ∧
        Ensures atLimit r fun s' => Spine σ.tags s' (node σ.tags lb).parent lb) := by
  obtain ⟨m, hinv, hlabels⟩ := run_sound hr
  refine ⟨?_, ?_, ?_⟩
  · intro op ha fuel' hfuel
    have hl := fun l hl => hlabels l (ha.1.1 l hl)
    refine ⟨_, agrees_enough (step_agrees hinv hl ha.2) hfuel, ?_⟩
    exact ensures_mono (TagSetRun.step_spec hinv hl (offset_below ha.2)) fun _ _ => trivial
  · intro n hn
    exact parents_reach_root hinv _ n hn le_rfl
  · intro lb hlb hs fuel' hfuel
    exact split_loop_arrives hinv (by decide) (hlabels lb hlb) hs (by omega) (by omega)

theorem run_terminates_group : 5 ∈ issued groupSession ∧ Splits groupSession.tags 5 ∧
    (∃ r, splitLoop (2^33) (2^33) groupSession.tags (node groupSession.tags 5).parent 5 =
      checked r ∧ Ensures atLimit r fun s' =>
        Spine groupSession.tags s' (node groupSession.tags 5).parent 5) := by
  have hissued : 5 ∈ issued groupSession := by decide +kernel
  have hsplits : Splits groupSession.tags 5 := by
    unfold Splits
    decide +kernel
  have hreach : Reachable (call 4) Safe newSession groupSession :=
    replay_reachable groupOps _ _ (by decide +kernel)
  exact ⟨hissued, hsplits, (run_terminates hreach).2.2 5 hissued hsplits _ le_rfl⟩

theorem insert_one_leaf {s : TagSet} {cur : ℕ} (hcur : cur < size s)
    (hleaf : (node s cur).right = 0) (depth : ℕ) :
    ∃ r, TagSetMachine.insertNOnes depth s cur 1 cur = checked r ∧
      Ensures (fun _ => True) r fun r => r.2 = size s ∧ size r.1 = size s+1 ∧
        (node r.1 r.2).right = 0 := by
  cases depth with
  | zero => exact ⟨.error .divergence, rfl, trivial⟩
  | succ depth =>
    rw [TagSetMachine.insertNOnes, if_neg (by decide), node_at_ok hcur, pure_bind]
    dsimp only
    rw [if_pos hleaf, newNode]
    split_ifs
    · let grown := push s (newTagNode cur (node s cur).seg.stop (add32 (node s cur).seg.stop 1))
      have hsize : size grown = size s+1 := size_push s _
      have hlink : setRightAt grown cur (size s) = pure (setRight grown cur (size s)) :=
        modify_at_ok (by omega) _
      refine ⟨.ok (setRight grown cur (size s), size s), ?_, rfl, ?_, ?_⟩
      · show (setRightAt grown cur (size s) >>= fun s' => pure (s', size s)) = _
        rw [hlink, pure_bind]
        rfl
      · exact (size_modify_node grown cur _).trans hsize
      · show (node (setRight grown cur (size s)) (size s)).right = 0
        rw [setRight, node_modify_node grown cur _ (by omega), if_neg (by omega), node_push,
          if_pos rfl]
        rfl
    · exact ⟨.error .nodeLimit, rfl, trivial⟩

theorem split_loop_strays (depth fuel : ℕ) : ∀ (s : TagSet) (cur lb : ℕ), cur < size s →
    lb < size s → cur ≠ lb → (node s cur).right = 0 →
    ∀ s', TagSetMachine.splitLoop depth fuel s cur lb ≠ checked (.ok s') := by
  induction fuel with
  | zero =>
    intro s cur lb hcur hlb hne hleaf s'
    rw [TagSetMachine.splitLoop, if_neg hne]
    intro heq
    cases Option.some.inj heq
  | succ fuel ih =>
    intro s cur lb hcur hlb hne hleaf s'
    obtain ⟨r, hr, hnew⟩ := insert_one_leaf hcur hleaf depth
    rw [TagSetMachine.splitLoop, if_neg hne, hr]
    cases r with
    | error e =>
      intro heq
      cases Option.some.inj heq
    | ok r =>
      obtain ⟨hlast, hsize, hright⟩ := hnew
      exact ih r.1 r.2 lb (by omega) (by omega) (by omega) hright s'

/-- A grouped run whose parent has no right child is never split: the loop runs
into the node limit. -/
theorem split_and_op_strays {s : TagSet} {lb : ℕ} (hs : Splits s lb) (hlb : lb < size s)
    (hp : (node s lb).parent < size s) (hne : (node s lb).parent ≠ lb)
    (hleaf : (node s (node s lb).parent).right = 0) (fuel : ℕ) (r : TagSet × ℕ) :
    TagSetMachine.splitAndOp fuel s lb ≠ checked (.ok r) := by
  obtain ⟨hwide, hroot, hg, hlt⟩ := hs
  rw [TagSetMachine.splitAndOp, node_at_ok hlb, pure_bind]
  dsimp only
  rw [if_pos ⟨hwide, hroot⟩, node_at_ok hp, pure_bind, if_pos hg, if_pos hlt]
  have hstray := split_loop_strays fuel fuel s _ lb hp hlb hne hleaf
  rcases hloop : TagSetMachine.splitLoop fuel fuel s (node s lb).parent lb with _ | _ | s'
  · intro heq
    cases heq
  · intro heq
    cases Option.some.inj heq
  · exact absurd hloop (hstray s')

def strayOps : List Op :=
  [.insert 5, .insert 6, .combineN [2, 4] true, .insert 0, .insert (2^32-1),
    .combineN [8, 6] true, .splitAndOp 9, .combine 5 9, .combineN [8, 6] true]

def straySession : Session := (replay (call 8) Valid newSession strayOps).getD newSession

/-- Label 9 is the group of the largest offset and of offset 0. Label 11 hangs
below it behind a gap and starts at 5, which is less than the start of label 9. -/
theorem split_never_arrives : Reachable (call 8) Valid newSession straySession ∧
    11 ∈ issued straySession ∧
    ∀ fuel r, TagSetMachine.splitAndOp fuel straySession.tags 11 ≠ checked (.ok r) := by
  refine ⟨replay_reachable strayOps _ _ (by decide +kernel), by decide +kernel, ?_⟩
  apply split_and_op_strays
  · unfold Splits
    decide +kernel
  · decide +kernel
  · decide +kernel
  · decide +kernel
  · decide +kernel

end Termination

end Parmesan.TagSetTree
