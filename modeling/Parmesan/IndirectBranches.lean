import Parmesan.DepthFirst
import Mathlib.Data.Finset.Filter
import Mathlib.Data.Fintype.Basic

/-!
# Comparisons above an indirect call

`collectPreviousIndirectBranch` of
`tools/llvm-diff-parmesan/id-assigner-pass/src/IDAssigner.cpp` walks from the
called pointer to the comparisons that may decide it: over loads to the users
of their pointer, over stores and branches to the blocks before. The two sets
it is given are the state of the walk.
-/

set_option autoImplicit false

namespace Parmesan.IndirectBranches
open Parmesan.DepthFirst

universe u v

/-- What an operand or a user of a value is, `dyn_cast<Instruction>`. -/
inductive Value (ι : Type u) where
  | instruction (i : ι)
  | other

/-- A branch has its condition if it is conditional, a load the users of its pointer. -/
inductive Inst (ι : Type u) where
  | cmp
  | branch (condition : Option (Value ι))
  | load (users : List (Value ι))
  | store
  | other

structure Graph (ι : Type u) (β : Type v) where
  inst : ι → Inst ι
  parent : ι → β
  predecessors : β → List β
  terminator : β → ι

structure Sets (ι : Type u) where
  result : Finset ι
  seen : Finset ι

section Source
variable {ι : Type u} {β : Type v} [DecidableEq ι]

/-- `none` is a walk that is not over after `fuel` nested calls. -/
def collectPreviousIndirectBranch (clFollowIndDominators : Bool) (g : Graph ι β) :
    ℕ → ι → Sets ι → Option (Sets ι)
  | 0, i, st => if i ∈ st.seen then some st else none
  | fuel+1, i, st =>
    let collect := collectPreviousIndirectBranch clFollowIndDominators g fuel
    let terminators := fun st =>
      (g.predecessors (g.parent i)).foldlM (fun st pred => collect (g.terminator pred) st) st
    let value := fun st (v : Value ι) =>
      match v with
      | .instruction j => collect j st
      | .other => some st
    if i ∈ st.seen then some st else
    let st := { st with seen := insert i st.seen }
    match g.inst i with
    | .cmp => some { st with result := insert i st.result }
    | .branch condition => do
      let st ← condition.elim (some st) (value st)
      if clFollowIndDominators then terminators st else some st
    | .load users => users.foldlM value st
    | .store => terminators st
    | .other => some st

inductive Follows (clFollowIndDominators : Bool) (g : Graph ι β) : ι → ι → Prop where
  | condition {i j : ι} : g.inst i = .branch (some (.instruction j)) →
      Follows clFollowIndDominators g i j
  | dominator {i : ι} {c : Option (Value ι)} {pred : β} : clFollowIndDominators = true →
      g.inst i = .branch c → pred ∈ g.predecessors (g.parent i) →
      Follows clFollowIndDominators g i (g.terminator pred)
  | user {i j : ι} {users : List (Value ι)} : g.inst i = .load users → .instruction j ∈ users →
      Follows clFollowIndDominators g i j
  | store {i : ι} {pred : β} : g.inst i = .store → pred ∈ g.predecessors (g.parent i) →
      Follows clFollowIndDominators g i (g.terminator pred)

end Source

section Search
variable {ι : Type u} {β : Type v} {follow : Bool} {g : Graph ι β}

def Value.instruction? : Value ι → Option ι
  | .instruction i => some i
  | .other => none

def Inst.isCmp : Inst ι → Bool
  | .cmp => true
  | _ => false

def terminators (g : Graph ι β) (i : ι) : List ι := (g.predecessors (g.parent i)).map g.terminator

def calls (follow : Bool) (g : Graph ι β) (i : ι) : List ι :=
  match g.inst i with
  | .cmp => []
  | .branch condition =>
    (condition.bind Value.instruction?).toList ++ if follow then terminators g i else []
  | .load users => users.filterMap Value.instruction?
  | .store => terminators g i
  | .other => []

theorem mem_terminators {i j : ι} :
    j ∈ terminators g i ↔ ∃ pred ∈ g.predecessors (g.parent i), g.terminator pred = j :=
  List.mem_map

theorem mem_instruction {vs : List (Value ι)} {j : ι} :
    j ∈ vs.filterMap Value.instruction? ↔ .instruction j ∈ vs := by
  rw [List.mem_filterMap]
  constructor
  · rintro ⟨v, hv, hj⟩
    cases v with
    | instruction k =>
      obtain rfl : k = j := Option.some.inj hj
      exact hv
    | other => cases hj
  · exact fun hv => ⟨_, hv, rfl⟩

theorem calls_follow {i j : ι} (h : j ∈ calls follow g i) : Follows follow g i j := by
  unfold calls at h
  cases hi : g.inst i with
  | cmp =>
    rw [hi] at h
    cases h
  | branch condition =>
    rw [hi] at h
    rcases List.mem_append.mp h with hc | hd
    · obtain ⟨v, rfl, hv⟩ := Option.bind_eq_some_iff.mp (Option.mem_toList.mp hc)
      cases v with
      | instruction k =>
        obtain rfl : k = j := Option.some.inj hv
        exact .condition hi
      | other => cases hv
    · cases hf : follow with
      | false =>
        rw [hf] at hd
        cases hd
      | true =>
        rw [hf] at hd
        obtain ⟨pred, hpred, rfl⟩ := mem_terminators.mp hd
        exact .dominator rfl hi hpred
  | load users =>
    rw [hi] at h
    exact .user hi (mem_instruction.mp h)
  | store =>
    rw [hi] at h
    obtain ⟨pred, hpred, rfl⟩ := mem_terminators.mp h
    exact .store hi hpred
  | other =>
    rw [hi] at h
    cases h

theorem follow_calls {i j : ι} (h : Follows follow g i j) : j ∈ calls follow g i := by
  unfold calls
  cases h with
  | condition hi =>
    rw [hi]
    exact List.mem_append_left _ List.mem_cons_self
  | dominator hf hi hpred =>
    subst hf
    rw [hi]
    exact List.mem_append_right _ (mem_terminators.mpr ⟨_, hpred, rfl⟩)
  | user hi hj =>
    rw [hi]
    exact mem_instruction.mpr hj
  | store hi hpred =>
    rw [hi]
    exact mem_terminators.mpr ⟨_, hpred, rfl⟩

theorem reaches_follows (start i : ι) :
    Reaches (calls follow g) start i ↔ Relation.ReflTransGen (Follows follow g) start i := by
  have hstep : (fun a b => b ∈ calls follow g a) = Follows follow g := by
    funext a b
    exact propext ⟨calls_follow, follow_calls⟩
  rw [Reaches, hstep]

theorem fold_values {σ : Type u} (f : ι → σ → Option σ) (vs : List (Value ι)) (st : σ) :
    vs.foldlM (fun st v => match v with
      | .instruction j => f j st
      | .other => some st) st =
      (vs.filterMap Value.instruction?).foldlM (fun st j => f j st) st := by
  rw [List.foldlM_filterMap]
  congr 1
  funext st v
  cases v with
  | instruction j => rfl
  | other => rfl

theorem fold_terminators {σ : Type u} (f : ι → σ → Option σ) (i : ι) (st : σ) :
    (g.predecessors (g.parent i)).foldlM (fun st pred => f (g.terminator pred) st) st =
      (terminators g i).foldlM (fun st j => f j st) st := by
  rw [terminators, List.foldlM_map]

theorem fold_dominators {σ : Type u} (f : ι → σ → Option σ) (i : ι) (st : σ) :
    (if follow = true then
        (g.predecessors (g.parent i)).foldlM (fun st pred => f (g.terminator pred) st) st
      else some st) =
      (if follow = true then terminators g i else []).foldlM (fun st j => f j st) st := by
  split_ifs
  · exact fold_terminators f i st
  · rfl

variable [DecidableEq ι]

def pack (g : Graph ι β) (seen : Finset ι) : Sets ι := ⟨seen.filter fun i => (g.inst i).isCmp, seen⟩

theorem pack_insert (i : ι) (seen : Finset ι) :
    pack g (insert i seen) =
      if (g.inst i).isCmp then ⟨insert i (pack g seen).result, insert i seen⟩
      else ⟨(pack g seen).result, insert i seen⟩ := by
  unfold pack
  rw [Finset.filter_insert]
  split_ifs
  · rfl
  · rfl

/-- The result is always the comparisons among the nodes seen, and the nodes seen
are those of a depth-first search over the calls. -/
theorem collect_search (fuel : ℕ) : ∀ i seen,
    collectPreviousIndirectBranch follow g fuel i (pack g seen) =
      (search (calls follow g) fuel i seen).map (pack g) := by
  induction fuel with
  | zero =>
    intro i seen
    rw [collectPreviousIndirectBranch, search]
    by_cases hi : i ∈ seen
    · rw [if_pos hi]
      exact if_pos hi
    · rw [if_neg hi]
      exact if_neg hi
  | succ fuel ih =>
    intro i seen
    have hfold := fun (xs : List ι) seen =>
      fold_map (f := fun seen y => search (calls follow g) fuel y seen)
        (g := fun st y => collectPreviousIndirectBranch follow g fuel y st)
        (fun seen y => ih y seen) xs seen
    rw [collectPreviousIndirectBranch, search]
    by_cases hi : i ∈ seen
    · rw [if_pos hi]
      exact if_pos hi
    rw [if_neg hi, ← hfold, pack_insert]
    dsimp only
    refine (if_neg hi).trans ?_
    cases hinst : g.inst i with
    | cmp =>
      simp only [calls, hinst, Inst.isCmp, if_true]
      rfl
    | branch condition =>
      simp only [calls, hinst, Inst.isCmp, List.foldlM_append]
      simp only [fold_dominators (collectPreviousIndirectBranch follow g fuel)]
      rcases condition with _ | j | _
      · rfl
      · simp only [Option.elim, Option.bind_some, Value.instruction?, Option.toList_some,
          List.foldlM_cons, List.foldlM_nil, bind_pure]
        rfl
      · rfl
    | load users =>
      simp only [calls, hinst, Inst.isCmp]
      exact fold_values _ users _
    | store =>
      simp only [calls, hinst, Inst.isCmp]
      exact fold_terminators _ i _
    | other =>
      simp only [calls, hinst, Inst.isCmp]
      rfl

/-- On every finite graph the walk ends, however the steps loop, and its result
is the comparisons that its steps reach from the start. -/
theorem collect_reached [Fintype ι] (follow : Bool) (g : Graph ι β) (start : ι) {fuel : ℕ}
    (hfuel : Fintype.card ι ≤ fuel) :
    ∃ st, collectPreviousIndirectBranch follow g fuel start ⟨∅, ∅⟩ = some st ∧
      ∀ i, i ∈ st.result ↔
        g.inst i = .cmp ∧ Relation.ReflTransGen (Follows follow g) start i := by
  obtain ⟨seen, hseen, hreach⟩ := @search_reaches ι (calls follow g) _ _ fuel hfuel start
  have hwalk := @collect_search ι β follow g _ fuel start ∅
  rw [hseen] at hwalk
  refine ⟨pack g seen, hwalk, ?_⟩
  intro i
  have hcmp : (g.inst i).isCmp = true ↔ g.inst i = .cmp := by
    cases g.inst i <;> simp [Inst.isCmp]
  rw [pack, Finset.mem_filter, hreach, reaches_follows, hcmp]
  exact and_comm

/-- A comparison and its branch before a loop that stores to a pointer and loads from it. -/
def loopGraph : Graph (Fin 5) Bool where
  inst := fun i => match i with
    | 0 => .cmp
    | 1 => .branch (some (.instruction 0))
    | 2 => .store
    | 3 => .load [.other, .instruction 2, .instruction 3]
    | 4 => .branch none
  parent := fun i => 2 ≤ i
  predecessors := fun inLoop => if inLoop then [false, true] else []
  terminator := fun inLoop => if inLoop then 4 else 1

theorem collect_reached_loop : Fintype.card (Fin 5) ≤ 5 ∧
    ∃ st, collectPreviousIndirectBranch true loopGraph 5 3 ⟨∅, ∅⟩ = some st ∧
      ∀ i, i ∈ st.result ↔
        loopGraph.inst i = .cmp ∧ Relation.ReflTransGen (Follows true loopGraph) 3 i :=
  ⟨by decide, collect_reached true loopGraph 3 (by decide)⟩

end Search

end Parmesan.IndirectBranches
