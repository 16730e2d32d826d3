import Mathlib.Algebra.Order.Ring.Int
import Parmesan.KeyedGroups
import Mathlib.Data.List.Basic
import Mathlib.Data.Finset.Image

/-!
# Blocks and comparisons of a module

`tools/llvm-diff-parmesan/id-assigner-pass/src/IDAssigner.cpp`: the values of a
module are numbered in order, and every basic block is attributed to the next
trace call, in one pass over all functions. The call site dominators, which are
collected in the same pass and change none of this, are left out.
-/

set_option autoImplicit false

namespace Parmesan.IdAssigner
open Parmesan.KeyedGroups

/-- A constant comes with its sign-extended value. -/
inductive Arg where
  | constInt (v : ℤ)
  | other
  deriving DecidableEq, Repr

inductive Inst where
  | call (callee : Option String) (args : List Arg)
  | other
  deriving DecidableEq, Repr

/-- `succs` are the successors of the terminator, by their position in the function. -/
structure Block where
  succs : List ℕ
  insts : List Inst
  deriving DecidableEq, Repr

structure Fn where
  args : ℕ
  blocks : List Block
  deriving DecidableEq, Repr

abbrev Module := List Fn

def TraceFunctions : List String :=
  ["__angora_trace_cmp", "__angora_trace_switch", "__dfsw___angora_trace_cmp_tt",
    "__dfsw___angora_trace_exploit_val_tt", "__dfsw___angora_trace_switch_tt",
    "__dfsw___angora_trace_fn_tt"]

-- The three functions of the fast mode and of the track mode differ in their suffix.
def argIndex (name : String) : ℕ :=
  if name = "__angora_trace_switch" then 0
  else if name.toList.drop (name.length-3) = "_tt".toList then 0 else 1

def toInt32 (v : ℤ) : ℤ := (v+2^31) % 2^32-2^31

/-- The id that a trace call with a constant argument gives. The source reads the
argument without a check when its index is 1; every trace function has it. -/
def cmpIdOf : Inst → Option ℤ
  | .call (some name) args =>
    if name ∈ TraceFunctions then
      match args[argIndex name]? with
      | some (.constInt v) => some (toInt32 v)
      | _ => none
    else none
  | _ => none

/-- `SerialIdentifier`, `cmpBbSet`, `CmpMap` and `CfgEdges`. -/
structure Assigner where
  serial : ℕ
  cmpBbSet : Finset ℕ
  cmpMap : List (ℤ × Finset ℕ)
  cfgEdges : Finset (ℕ × ℕ)

def newAssigner : Assigner := ⟨1, ∅, [], ∅⟩

/-- The numbers of the blocks, from `serial` on: each block is followed by its
instructions. -/
def blockIds : ℕ → List Block → List ℕ
  | _, [] => []
  | serial, b::bs => serial :: blockIds (serial+1+b.insts.length) bs

def blocksSize (bs : List Block) : ℕ := (bs.map fun b => 1+b.insts.length).sum

def fnSize (f : Fn) : ℕ := 1+f.args+blocksSize f.blocks

def fnBlockIds (serial : ℕ) (f : Fn) : List ℕ := blockIds (serial+1+f.args) f.blocks

def visitInst (a : Assigner) (i : Inst) : Assigner :=
  match cmpIdOf i with
  | some cmpId => { a with cmpMap := insertKey cmpId a.cmpBbSet a.cmpMap, cmpBbSet := ∅ }
  | none => a

def blockEdges (ids : List ℕ) (b : ℕ × Block) : Finset (ℕ × ℕ) :=
  (b.2.succs.map fun i => (b.1, ids.getD i 0)).toFinset

def visitBlock (ids : List ℕ) (a : Assigner) (b : ℕ × Block) : Assigner :=
  b.2.insts.foldl visitInst
    { a with
      cfgEdges := a.cfgEdges ∪ blockEdges ids b
      cmpBbSet := insert b.1 a.cmpBbSet }

def visitFn (a : Assigner) (f : Fn) : Assigner :=
  let ids := fnBlockIds a.serial f
  (ids.zip f.blocks).foldl (visitBlock ids) { a with serial := a.serial+fnSize f }

def runOnModule (m : Module) : Assigner := m.foldl visitFn newAssigner

/-- `printStatsJson`: the comparisons whose set meets the changed blocks. -/
def targets (cmpMap : List (ℤ × Finset ℕ)) (diffIdSet : Finset ℕ) : Finset ℤ :=
  ((cmpMap.filter fun e => ∃ bb ∈ e.2, bb ∈ diffIdSet).map Prod.fst).toFinset

def numbered : ℕ → Module → List (ℕ × Fn)
  | _, [] => []
  | serial, f::m => (serial, f) :: numbered (serial+fnSize f) m

def blockCalls (b : Block) : List ℤ := b.insts.filterMap cmpIdOf

def fnCalls (f : Fn) : List ℤ := f.blocks.flatMap blockCalls

def moduleCalls (m : Module) : List ℤ := m.flatMap fnCalls

def blockMarks (b : ℕ × Block) : List (Mark ℕ ℤ) := .item b.1 :: (blockCalls b.2).map .key

def fnMarks (serial : ℕ) (f : Fn) : List (Mark ℕ ℤ) :=
  ((fnBlockIds serial f).zip f.blocks).flatMap blockMarks

def marks : ℕ → Module → List (Mark ℕ ℤ)
  | _, [] => []
  | serial, f::m => fnMarks serial f ++ marks (serial+fnSize f) m

def groupsOf (a : Assigner) : Groups ℕ ℤ := ⟨a.cmpBbSet, a.cmpMap⟩

section Marks
variable {a : Assigner}

theorem visit_insts_groups (is : List Inst) (a : Assigner) :
    groupsOf (is.foldl visitInst a) = collect (groupsOf a) ((is.filterMap cmpIdOf).map .key) ∧
      (is.foldl visitInst a).serial = a.serial ∧ (is.foldl visitInst a).cfgEdges = a.cfgEdges := by
  induction is generalizing a with
  | nil => exact ⟨rfl, rfl, rfl⟩
  | cons i is ih =>
    obtain ⟨hg, hs, he⟩ := ih (visitInst a i)
    rw [List.foldl_cons, hg, hs, he, List.filterMap_cons]
    unfold visitInst
    cases cmpIdOf i with
    | some c => exact ⟨rfl, rfl, rfl⟩
    | none => exact ⟨rfl, rfl, rfl⟩

theorem visit_blocks_groups (ids : List ℕ) (bs : List (ℕ × Block)) (a : Assigner) :
    groupsOf (bs.foldl (visitBlock ids) a) = collect (groupsOf a) (bs.flatMap blockMarks) ∧
      (bs.foldl (visitBlock ids) a).serial = a.serial ∧
      ∀ e, e ∈ (bs.foldl (visitBlock ids) a).cfgEdges ↔
        e ∈ a.cfgEdges ∨ ∃ b ∈ bs, e ∈ blockEdges ids b := by
  induction bs generalizing a with
  | nil => exact ⟨rfl, rfl, by simp⟩
  | cons b bs ih =>
    obtain ⟨hg, hs, he⟩ := ih (visitBlock ids a b)
    have hb := visit_insts_groups b.2.insts
      { a with
        cfgEdges := a.cfgEdges ∪ blockEdges ids b
        cmpBbSet := insert b.1 a.cmpBbSet }
    obtain ⟨hbg, hbs, hbe⟩ := hb
    rw [List.foldl_cons, List.flatMap_cons]
    refine ⟨?_, hs.trans hbs, ?_⟩
    · rw [hg, collect, collect, List.foldl_append]
      exact congrArg (List.foldl mark · _) hbg
    · intro e
      have hbe' : (visitBlock ids a b).cfgEdges = a.cfgEdges ∪ blockEdges ids b := hbe
      rw [he, hbe', Finset.mem_union, or_assoc]
      simp only [List.mem_cons, exists_eq_or_imp]

theorem visit_fn_groups (f : Fn) (a : Assigner) :
    groupsOf (visitFn a f) = collect (groupsOf a) (fnMarks a.serial f) ∧
      (visitFn a f).serial = a.serial+fnSize f :=
  have h := visit_blocks_groups (fnBlockIds a.serial f) ((fnBlockIds a.serial f).zip f.blocks)
    { a with serial := a.serial+fnSize f }
  ⟨h.1, h.2.1⟩

theorem visit_fns_groups (m : Module) (a : Assigner) :
    groupsOf (m.foldl visitFn a) = collect (groupsOf a) (marks a.serial m) := by
  induction m generalizing a with
  | nil => rfl
  | cons f m ih =>
    obtain ⟨hg, hs⟩ := visit_fn_groups f a
    rw [List.foldl_cons, ih, hg, hs, marks, collect, collect, collect, List.foldl_append]

/-- The pass collects the blocks of the module under its trace calls. -/
theorem run_groups (m : Module) :
    groupsOf (runOnModule m) = collect ⟨∅, []⟩ (marks 1 m) := visit_fns_groups m newAssigner

theorem block_ids_length (serial : ℕ) (bs : List Block) :
    (blockIds serial bs).length = bs.length := by
  induction bs generalizing serial with
  | nil => rfl
  | cons b bs ih => rw [blockIds, List.length_cons, List.length_cons, ih]

theorem block_ids_range (serial : ℕ) (bs : List Block) :
    ∀ x ∈ blockIds serial bs, serial ≤ x ∧ x < serial+blocksSize bs := by
  induction bs generalizing serial with
  | nil => simp [blockIds]
  | cons b bs ih =>
    intro x hx
    have hsize : blocksSize (b::bs) = 1+b.insts.length+blocksSize bs := by simp [blocksSize]
    rcases List.mem_cons.mp hx with rfl | hx
    · omega
    · have := ih _ x hx
      omega

theorem block_ids_nodup (serial : ℕ) (bs : List Block) : (blockIds serial bs).Nodup := by
  induction bs generalizing serial with
  | nil => exact List.nodup_nil
  | cons b bs ih =>
    rw [blockIds, List.nodup_cons]
    refine ⟨?_, ih _⟩
    intro hx
    have := (block_ids_range _ bs serial hx).1
    omega

theorem fn_block_ids_range (serial : ℕ) (f : Fn) :
    ∀ x ∈ fnBlockIds serial f, serial < x ∧ x < serial+fnSize f := by
  intro x hx
  have := block_ids_range _ f.blocks x hx
  simp only [fnSize]
  omega

theorem marks_items_zip (ids : List ℕ) (bs : List Block) (h : ids.length = bs.length) :
    items ((ids.zip bs).flatMap blockMarks) = ids ∧
      keys ((ids.zip bs).flatMap blockMarks) = bs.flatMap blockCalls := by
  have hkeys : ∀ ks : List ℤ, items (ks.map (Mark.key : ℤ → Mark ℕ ℤ)) = [] ∧
      keys (ks.map (Mark.key : ℤ → Mark ℕ ℤ)) = ks := by
    intro ks
    induction ks with
    | nil => exact ⟨rfl, rfl⟩
    | cons k ks ih => exact ⟨ih.1, congrArg (k :: ·) ih.2⟩
  induction ids generalizing bs with
  | nil =>
    obtain rfl : bs = [] := List.length_eq_zero_iff.mp h.symm
    exact ⟨rfl, rfl⟩
  | cons i ids ih =>
    cases bs with
    | nil => cases h
    | cons b bs =>
      obtain ⟨hi, hk⟩ := ih bs (Nat.succ.inj h)
      rw [List.zip_cons_cons, List.flatMap_cons, items_append, keys_append, hi, hk, blockMarks,
        items, keys, (hkeys _).1, (hkeys _).2]
      exact ⟨rfl, rfl⟩

theorem fn_marks (serial : ℕ) (f : Fn) :
    items (fnMarks serial f) = fnBlockIds serial f ∧ keys (fnMarks serial f) = fnCalls f :=
  marks_items_zip _ _ (block_ids_length _ _)

theorem marks_keys (serial : ℕ) (m : Module) : keys (marks serial m) = moduleCalls m := by
  induction m generalizing serial with
  | nil => rfl
  | cons f m ih => rw [marks, keys_append, (fn_marks serial f).2, ih]; rfl

theorem marks_items_range (serial : ℕ) (m : Module) : ∀ x ∈ items (marks serial m), serial < x := by
  induction m generalizing serial with
  | nil => exact fun x hx => absurd hx List.not_mem_nil
  | cons f m ih =>
    intro x hx
    rw [marks, items_append, (fn_marks serial f).1] at hx
    rcases List.mem_append.mp hx with hx | hx
    · exact (fn_block_ids_range serial f x hx).1
    · have := ih _ x hx
      omega

theorem marks_items_nodup (serial : ℕ) (m : Module) : (items (marks serial m)).Nodup := by
  induction m generalizing serial with
  | nil => exact List.nodup_nil
  | cons f m ih =>
    rw [marks, items_append, (fn_marks serial f).1, List.nodup_append']
    refine ⟨block_ids_nodup _ _, ih _, ?_⟩
    intro x hx hx'
    have h1 := (fn_block_ids_range serial f x hx).2
    have h2 := marks_items_range _ m x hx'
    omega

end Marks

theorem cmp_sets_disjoint (m : Module) : ∀ e ∈ (runOnModule m).cmpMap,
    ∀ e' ∈ (runOnModule m).cmpMap, e.1 ≠ e'.1 → Disjoint e.2 e'.2 := by
  have hstart : KeyedGroups.Apart (fun _ : ℕ => False) (⟨∅, []⟩ : Groups ℕ ℤ) :=
    ⟨by simp, by simp, by simp⟩
  obtain ⟨seen, hapart⟩ := collect_apart (marks 1 m) _ _ hstart (fun _ _ h => h)
    (marks_items_nodup 1 m)
  rw [← run_groups] at hapart
  exact hapart.disjoint

def Closed (last : Option Block) : Prop := ∀ b ∈ last, blockCalls b ≠ []

instance (last : Option Block) : Decidable (Closed last) :=
  inferInstanceAs (Decidable (∀ b ∈ last, blockCalls b ≠ []))

/-- `last` is the last block before the module. Every function with a trace call
comes after a block with one, if after any. -/
def Separated : Option Block → Module → Prop
  | _, [] => True
  | last, f::m => (fnCalls f ≠ [] → Closed last) ∧ Separated (f.blocks.getLast?.or last) m

instance decidableSeparated : (last : Option Block) → (m : Module) → Decidable (Separated last m)
  | _, [] => isTrue trivial
  | last, f::m =>
    have := decidableSeparated (f.blocks.getLast?.or last) m
    inferInstanceAs (Decidable (_ ∧ _))

def Attributed (serial : ℕ) (m : Module) (e : ℤ × Finset ℕ) : Prop :=
  ∃ nf ∈ numbered serial m, e.1 ∈ fnCalls nf.2 ∧ ∀ b ∈ e.2, b ∈ fnBlockIds nf.1 nf.2

instance (serial : ℕ) (m : Module) (e : ℤ × Finset ℕ) : Decidable (Attributed serial m e) :=
  inferInstanceAs (Decidable (∃ nf ∈ numbered serial m, _))

section Attribution
variable {g : Groups ℕ ℤ} {last : Option Block}

theorem blocks_pending (l : List (ℕ × Block)) (hg : g.pending = ∅ ↔ Closed last) :
    (collect g (l.flatMap blockMarks)).pending = ∅ ↔
      Closed ((l.map Prod.snd).getLast?.or last) := by
  rcases List.eq_nil_or_concat l with rfl | ⟨l', b, rfl⟩
  · exact hg
  · rw [List.concat_eq_append, List.flatMap_append, collect, List.foldl_append]
    have hlast := pending_after_item (collect g (l'.flatMap blockMarks)) b.1 (blockCalls b.2)
    simp only [List.flatMap_cons, List.flatMap_nil, List.append_nil, List.map_append, List.map_cons,
      List.map_nil, List.getLast?_append, List.getLast?_singleton, Option.some_or, Closed,
      Option.mem_some_iff, forall_eq']
    exact hlast

theorem fn_pending (serial : ℕ) (f : Fn) (hg : g.pending = ∅ ↔ Closed last) :
    (collect g (fnMarks serial f)).pending = ∅ ↔ Closed (f.blocks.getLast?.or last) := by
  have hlen : f.blocks.length ≤ (fnBlockIds serial f).length :=
    le_of_eq (block_ids_length _ _).symm
  have h := blocks_pending ((fnBlockIds serial f).zip f.blocks) hg
  rw [List.map_snd_zip hlen] at h
  exact h

theorem separated_attributed (m : Module) (serial : ℕ) (g : Groups ℕ ℤ) (last : Option Block)
    (hg : g.pending = ∅ ↔ Closed last) (hs : Separated last m) :
    ∀ e ∈ (collect g (marks serial m)).closed, e ∈ g.closed ∨ Attributed serial m e := by
  induction m generalizing serial g last with
  | nil => exact fun e he => Or.inl he
  | cons f m ih =>
    intro e he
    rw [marks, collect, List.foldl_append] at he
    rcases ih _ _ _ (fn_pending serial f hg) hs.2 e he with hold | hrest
    · rcases closed_from (fnMarks serial f) g hold with hold | ⟨hk, hitems⟩
      · exact Or.inl hold
      · rw [(fn_marks serial f).2] at hk
        rw [(fn_marks serial f).1] at hitems
        have hempty : g.pending = ∅ := hg.mpr (hs.1 (List.ne_nil_of_mem hk))
        refine Or.inr ⟨(serial, f), List.mem_cons_self, hk, ?_⟩
        intro b hb
        apply (hitems b hb).resolve_left
        rw [hempty]
        exact Finset.notMem_empty b
    · obtain ⟨nf, hnf, hcalls, hblocks⟩ := hrest
      exact Or.inr ⟨nf, List.mem_cons_of_mem _ hnf, hcalls, hblocks⟩

theorem unseparated_strays (m : Module) (serial : ℕ) (g : Groups ℕ ℤ) (last : Option Block)
    (hg : g.pending = ∅ ↔ Closed last) (hlt : ∀ x ∈ g.pending, x ≤ serial)
    (hnodup : (moduleCalls m).Nodup) (hs : ¬ Separated last m) :
    ∃ e ∈ (collect g (marks serial m)).closed, ∃ nf ∈ numbered serial m,
      e.1 ∈ fnCalls nf.2 ∧ ∃ b ∈ e.2, b ∉ fnBlockIds nf.1 nf.2 := by
  induction m generalizing serial g last with
  | nil => exact absurd trivial hs
  | cons f m ih =>
    obtain ⟨hf, hm, hdisj⟩ := List.nodup_append'.mp
      (show (fnCalls f ++ moduleCalls m).Nodup from hnodup)
    rw [marks, collect, List.foldl_append]
    by_cases hfirst : fnCalls f ≠ [] → Closed last
    · -- the stray block comes in a later function
      have hrest : ¬ Separated (f.blocks.getLast?.or last) m := fun h => hs ⟨hfirst, h⟩
      have hlt' : ∀ x ∈ (collect g (fnMarks serial f)).pending, x ≤ serial+fnSize f := by
        intro x hx
        rcases pending_from _ _ hx with hx | hx
        · have := hlt x hx
          omega
        · rw [(fn_marks serial f).1] at hx
          exact le_of_lt (fn_block_ids_range serial f x hx).2
      obtain ⟨e, he, nf, hnf, hrest⟩ := ih _ _ _ (fn_pending serial f hg) hlt' hm hrest
      exact ⟨e, he, nf, List.mem_cons_of_mem _ hnf, hrest⟩
    · -- the first call of `f` takes a block that was pending before it
      obtain ⟨hcalls, hopen⟩ := Classical.not_imp.mp hfirst
      obtain ⟨x, hx⟩ := Finset.nonempty_iff_ne_empty.mpr fun h => hopen (hg.mp h)
      have hkeys := (fn_marks serial f).2
      obtain ⟨k, hk, s, hxs, hin⟩ := pending_closed (fnMarks serial f) g hx
        (by rw [hkeys]; exact hcalls) (by rw [hkeys]; exact hf)
      rw [hkeys] at hk
      refine ⟨(k, s), closed_kept _ _ hin ?_, (serial, f), List.mem_cons_self, hk, x, hxs, ?_⟩
      · rw [marks_keys]
        exact hdisj hk
      · intro hmem
        have h1 := (fn_block_ids_range serial f x hmem).1
        have h2 := hlt x hx
        omega

end Attribution

theorem numbered_range (m : Module) (serial : ℕ) : ∀ nf ∈ numbered serial m, serial ≤ nf.1 ∧
    ∀ c ∈ fnCalls nf.2, c ∈ moduleCalls m := by
  induction m generalizing serial with
  | nil => exact fun nf h => absurd h List.not_mem_nil
  | cons f m ih =>
    intro nf hnf
    rcases List.mem_cons.mp hnf with rfl | hnf
    · exact ⟨le_refl _, fun c hc => List.mem_append_left _ hc⟩
    · obtain ⟨hle, hcalls⟩ := ih _ nf hnf
      exact ⟨by omega, fun c hc => List.mem_append_right _ (hcalls c hc)⟩

theorem call_owner_unique (m : Module) (serial : ℕ) (hnodup : (moduleCalls m).Nodup)
    {nf nf' : ℕ × Fn} (h : nf ∈ numbered serial m) (h' : nf' ∈ numbered serial m) {c : ℤ}
    (hc : c ∈ fnCalls nf.2) (hc' : c ∈ fnCalls nf'.2) : nf = nf' := by
  induction m generalizing serial with
  | nil => exact absurd h List.not_mem_nil
  | cons f m ih =>
    obtain ⟨-, hm, hdisj⟩ := List.nodup_append'.mp
      (show (fnCalls f ++ moduleCalls m).Nodup from hnodup)
    rcases List.mem_cons.mp h with rfl | h
    · rcases List.mem_cons.mp h' with rfl | h'
      · rfl
      · exact absurd ((numbered_range m _ nf' h').2 c hc') (hdisj hc)
    · rcases List.mem_cons.mp h' with rfl | h'
      · exact absurd ((numbered_range m _ nf h).2 c hc) (hdisj hc')
      · exact ih _ hm h h'

def TargetsLocal (m : Module) : Prop :=
  ∀ diffIdSet : Finset ℕ, ∀ c ∈ targets (runOnModule m).cmpMap diffIdSet,
    ∃ nf ∈ numbered 1 m, c ∈ fnCalls nf.2 ∧ ∃ b ∈ diffIdSet, b ∈ fnBlockIds nf.1 nf.2

theorem attributed_targets {m : Module}
    (h : ∀ e ∈ (runOnModule m).cmpMap, Attributed 1 m e) : TargetsLocal m := by
  intro diff c hc
  simp only [targets, List.mem_toFinset, List.mem_map, List.mem_filter, decide_eq_true_eq] at hc
  obtain ⟨e, ⟨he, bb, hbb, hdiff⟩, rfl⟩ := hc
  obtain ⟨nf, hnf, hcalls, hblocks⟩ := h e he
  exact ⟨nf, hnf, hcalls, bb, hdiff, hblocks bb hbb⟩

/-- The sets of different comparisons are disjoint. Every block is attributed to a
comparison of its own function, and so every target to a function that changed,
exactly if the last block before each function with a trace call has one too. -/
theorem blocks_attributed_iff (m : Module) (hnodup : (moduleCalls m).Nodup) :
    (∀ e ∈ (runOnModule m).cmpMap, ∀ e' ∈ (runOnModule m).cmpMap, e.1 ≠ e'.1 →
      Disjoint e.2 e'.2) ∧
    ((∀ e ∈ (runOnModule m).cmpMap, Attributed 1 m e) ∧ TargetsLocal m ↔ Separated none m) := by
  refine ⟨cmp_sets_disjoint m, ?_⟩
  have hmap : (runOnModule m).cmpMap = (collect ⟨∅, []⟩ (marks 1 m)).closed :=
    congrArg Groups.closed (run_groups m)
  have hstart : (∅ : Finset ℕ) = ∅ ↔ Closed none := iff_of_true rfl (fun b hb => by cases hb)
  constructor
  · intro h
    by_contra hs
    obtain ⟨e, he, nf, hnf, hcalls, b, hb, hnot⟩ :=
      unseparated_strays m 1 ⟨∅, []⟩ none hstart (by simp) hnodup hs
    rw [← hmap] at he
    obtain ⟨nf', hnf', hcalls', hblocks⟩ := h.1 e he
    rw [call_owner_unique m 1 hnodup hnf hnf' hcalls hcalls'] at hnot
    exact hnot (hblocks b hb)
  · intro hs
    have hall : ∀ e ∈ (runOnModule m).cmpMap, Attributed 1 m e := by
      intro e he
      rw [hmap] at he
      exact (separated_attributed m 1 ⟨∅, []⟩ none hstart hs e he).resolve_left List.not_mem_nil
    exact ⟨hall, attributed_targets hall⟩

def traceCmp (cmpId : ℤ) : Inst := .call (some "__angora_trace_cmp") [.other, .constInt cmpId]

def twoFunctions (closing : List Inst) : Module :=
  [⟨0, [⟨[1], [traceCmp 7, .other]⟩, ⟨[], closing⟩]⟩, ⟨1, [⟨[], [traceCmp 9, .other]⟩]⟩]

theorem blocks_attributed_iff_closed :
    (moduleCalls (twoFunctions [traceCmp 8, .other])).Nodup ∧
    ((∀ e ∈ (runOnModule (twoFunctions [traceCmp 8, .other])).cmpMap,
        Attributed 1 (twoFunctions [traceCmp 8, .other]) e) ∧
      TargetsLocal (twoFunctions [traceCmp 8, .other]) ↔
      Separated none (twoFunctions [traceCmp 8, .other])) :=
  ⟨by decide +kernel, (blocks_attributed_iff _ (by decide +kernel)).2⟩

/-- The closing block 5 of the first function, which has no trace call, is in the
set of comparison 9 of the second function: a change of it gives the target 9. -/
theorem closing_block_strays : (moduleCalls (twoFunctions [.other])).Nodup ∧
    (9, {5, 9}) ∈ (runOnModule (twoFunctions [.other])).cmpMap ∧
    5 ∈ fnBlockIds 1 ⟨0, [⟨[1], [traceCmp 7, .other]⟩, ⟨[], [.other]⟩]⟩ ∧
    targets (runOnModule (twoFunctions [.other])).cmpMap {5} = {9} ∧
    ¬ ((∀ e ∈ (runOnModule (twoFunctions [.other])).cmpMap,
      Attributed 1 (twoFunctions [.other]) e) ∧ TargetsLocal (twoFunctions [.other])) := by
  have hmem : (9, {5, 9}) ∈ (runOnModule (twoFunctions [.other])).cmpMap := by decide +kernel
  refine ⟨by decide +kernel, hmem, by decide +kernel, by decide +kernel, ?_⟩
  intro h
  exact absurd (h.1 _ hmem) (by decide +kernel)

end Parmesan.IdAssigner
