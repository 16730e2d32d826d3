import Parmesan.DiffReport
import Parmesan.DiffSame

/-!
# Unifying equal instructions

What a step of the engine does to its maps when nothing is logged. The same facts are
reached from two sides: from a run that stayed silent, and from a map of the blocks and
of the local values under which two blocks hold equal instructions.
-/

set_option autoImplicit false

namespace Parmesan.DiffUnify
open Parmesan.DiffModel
open Parmesan.DiffSame
open Parmesan.DiffReport
open Parmesan.Outcome

def Silent (es : List Event) : Prop := ∀ e ∈ es, e.isLog = false

theorem silent_of_told {es es' : List Event} (h : Told es es') (hs : Silent es') : Silent es := by
  obtain ⟨seg, -, rfl⟩ := h
  exact fun e he => hs e (List.mem_append_right seg he)

theorem silent_cons {e : Event} {es : List Event} :
    Silent (e::es) ↔ e.isLog = false ∧ Silent es := by
  simp [Silent]

/-! ## What a silent step changes -/

structure Grown (xs : List ℕ) (s s' : Fde) : Prop where
  kept : ∀ b c, s.Blocks b = some c → s'.Blocks b = some c
  reached : ∀ x ∈ xs, (s'.Blocks x).isSome
  fresh : ∀ b, s.Blocks b = none → (s'.Blocks b).isSome → b ∈ xs
  queued : ∀ b c, (b, c) ∈ s'.Queue.toList ↔
    (b, c) ∈ s.Queue.toList ∨ (s.Blocks b = none ∧ s'.Blocks b = some c)
  nodup : (∀ p ∈ s.Queue.toList, (s.Blocks p.1).isSome) →
    (s.Queue.toList.map Prod.fst).Nodup → (s'.Queue.toList.map Prod.fst).Nodup

theorem grown_refl {s s' : Fde} (hb : s'.Blocks = s.Blocks) (hq : s'.Queue = s.Queue) :
    Grown [] s s' where
  kept := by rw [hb]; exact fun _ _ h => h
  reached := by simp
  fresh := by
    intro b hnone hsome
    rw [hb, hnone] at hsome
    cases hsome
  queued := by
    intro b c
    rw [hb, hq]
    constructor
    · exact Or.inl
    · rintro (h | ⟨hnone, hsome⟩)
      · exact h
      · rw [hnone] at hsome
        cases hsome
  nodup := by rw [hq]; exact fun _ h => h

theorem Grown.trans {xs ys : List ℕ} {s t u : Fde} (h : Grown xs s t) (h' : Grown ys t u) :
    Grown (xs ++ ys) s u where
  kept := fun b c hb => h'.kept b c (h.kept b c hb)
  reached := by
    intro x hx
    obtain hx | hx := List.mem_append.mp hx
    · obtain ⟨c, hc⟩ := Option.isSome_iff_exists.mp (h.reached x hx)
      rw [h'.kept x c hc]
      rfl
    · exact h'.reached x hx
  fresh := by
    intro b hnone hsome
    cases hmid : t.Blocks b with
    | none => exact List.mem_append_right xs (h'.fresh b hmid hsome)
    | some c => exact List.mem_append_left ys (h.fresh b hnone (by rw [hmid]; rfl))
  queued := by
    intro b c
    rw [h'.queued, h.queued]
    constructor
    · rintro ((hq | ⟨hnone, hsome⟩) | ⟨hnone, hsome⟩)
      · exact Or.inl hq
      · exact Or.inr ⟨hnone, h'.kept b c hsome⟩
      · refine Or.inr ⟨?_, hsome⟩
        cases hb : s.Blocks b with
        | none => rfl
        | some d =>
          rw [h.kept b d hb] at hnone
          cases hnone
    · rintro (hq | ⟨hnone, hsome⟩)
      · exact Or.inl (Or.inl hq)
      · cases hmid : t.Blocks b with
        | none => exact Or.inr ⟨rfl, hsome⟩
        | some d =>
          have hd := h'.kept b d hmid
          rw [hsome] at hd
          cases hd
          exact Or.inl (Or.inr ⟨hnone, rfl⟩)
  nodup := by
    intro hin hnodup
    refine h'.nodup (fun p hp => ?_) (h.nodup hin hnodup)
    obtain hq | ⟨-, hsome⟩ := (h.queued p.1 p.2).mp hp
    · obtain ⟨c, hc⟩ := Option.isSome_iff_exists.mp (hin p hq)
      rw [h.kept _ c hc]
      rfl
    · rw [hsome]
      rfl

structure Aside (s s' : Fde) : Prop where
  values : s'.Values = s.Values
  tentative : s'.TentativeValues = s.TentativeValues

section Links
variable (sorter : Sorter)

theorem try_unify_fits (s : Fde) (l r : ℕ) (h : ∀ c, s.Blocks l = some c → c = r) :
    Grown [l] s (tryUnify sorter s l r) ∧ (tryUnify sorter s l r).Blocks l = some r ∧
      Aside s (tryUnify sorter s l r) ∧ (tryUnify sorter s l r).events = s.events := by
  cases hl : s.Blocks l with
  | some c =>
    obtain rfl := h c hl
    have heq : tryUnify sorter s l c = s := by
      unfold tryUnify
      simp [hl]
    rw [heq]
    refine ⟨?_, hl, ⟨rfl, rfl⟩, rfl⟩
    have hrefl : Grown [] s s := grown_refl rfl rfl
    refine ⟨hrefl.kept, fun x hx => ?_, fun b hnone hsome => ?_, hrefl.queued, hrefl.nodup⟩
    · rw [List.mem_singleton.mp hx, hl]
      rfl
    · exact absurd (hrefl.fresh b hnone hsome) List.not_mem_nil
  | none =>
    have hset : ∀ b, (s.setBlock l r).Blocks b = if b = l then some r else s.Blocks b :=
      fun _ => rfl
    have hperm := DiffQueue.insert_perm (sorter (s.setBlock l r)) s.Queue (l, r)
    have heq : tryUnify sorter s l r =
        { s.setBlock l r with
          Queue := DiffQueue.insert (sorter (s.setBlock l r)) s.Queue (l, r) } := by
      unfold tryUnify
      rw [hl]
      rfl
    rw [heq]
    refine ⟨⟨?_, ?_, ?_, ?_, ?_⟩, by rw [hset, if_pos rfl], ⟨rfl, rfl⟩, rfl⟩
    · intro b c hb
      have hne : b ≠ l := fun heq => by rw [heq, hl] at hb; cases hb
      rw [hset, if_neg hne]
      exact hb
    · intro x hx
      rw [List.mem_singleton.mp hx, hset, if_pos rfl]
      rfl
    · intro b hnone hsome
      by_cases hb : b = l
      · rw [hb]
        exact List.mem_singleton_self l
      · rw [hset, if_neg hb, hnone] at hsome
        cases hsome
    · intro b c
      have hmem : (b, c) ∈
          (DiffQueue.insert (sorter (s.setBlock l r)) s.Queue (l, r)).toList ↔
            (b, c) = (l, r) ∨ (b, c) ∈ s.Queue.toList := by
        rw [hperm.mem_iff, List.mem_cons]
      rw [hmem, hset]
      constructor
      · rintro (heq | hq)
        · cases heq
          exact Or.inr ⟨hl, by rw [if_pos rfl]⟩
        · exact Or.inl hq
      · rintro (hq | ⟨hnone, hsome⟩)
        · exact Or.inr hq
        · by_cases hb : b = l
          · rw [if_pos hb] at hsome
            cases hsome
            exact Or.inl (by rw [hb])
          · rw [if_neg hb, hnone] at hsome
            cases hsome
    · intro hin hnodup
      rw [(hperm.map Prod.fst).nodup_iff, List.map_cons, List.nodup_cons]
      refine ⟨fun hmem => ?_, hnodup⟩
      obtain ⟨p, hp, hpl⟩ := List.mem_map.mp hmem
      have hsome := hin p hp
      rw [hpl, hl] at hsome
      cases hsome

theorem try_unify_clash (s : Fde) {l r c : ℕ} (hl : s.Blocks l = some c) (hne : c ≠ r) :
    ¬ Silent (tryUnify sorter s l r).events := by
  unfold tryUnify
  simp [hl, hne, Silent, Event.isLog]

def targets (steps : List Step) : List ℕ :=
  steps.filterMap fun
    | .unify x _ => some x
    | .complain _ => none

/-- The steps of `diff` were run and nothing was logged. -/
structure Linked (steps : List Step) (s s' : Fde) : Prop where
  grown : Grown (targets steps) s s'
  pairs : Unifies (fun x y => s'.Blocks x = some y) steps
  aside : Aside s s'
  events : s'.events = s.events

theorem linked_nil (s : Fde) : Linked [] s s :=
  ⟨grown_refl rfl rfl, unifies_nil, ⟨rfl, rfl⟩, rfl⟩

theorem linked_cons {steps : List Step} {s s' : Fde} {x y : ℕ}
    (h : ∀ c, s.Blocks x = some c → c = y) (h' : Linked steps (tryUnify sorter s x y) s') :
    Linked (.unify x y :: steps) s s' := by
  obtain ⟨hgrown, hset, haside, hevents⟩ := try_unify_fits sorter s x y h
  refine ⟨hgrown.trans h'.grown, unifies_unify.mpr ⟨h'.grown.kept x y hset, h'.pairs⟩,
    ⟨h'.aside.values.trans haside.values, h'.aside.tentative.trans haside.tentative⟩,
    h'.events.trans hevents⟩

theorem steps_told (Complain TryUnify : Bool) (steps : List Step) (s : Fde) :
    Told s.events (steps.foldl (runStep sorter Complain TryUnify) s).events := by
  induction steps generalizing s with
  | nil => exact told_refl _
  | cons step steps ih =>
    exact told_trans (run_step_told sorter Complain TryUnify s step) (ih _)

theorem steps_silent (steps : List Step) (s : Fde)
    (h : Silent (steps.foldl (runStep sorter true true) s).events) :
    Linked steps s (steps.foldl (runStep sorter true true) s) := by
  induction steps generalizing s with
  | nil => exact linked_nil s
  | cons step steps ih =>
    rw [List.foldl_cons] at h ⊢
    have hfirst := silent_of_told (steps_told sorter true true steps _) h
    cases step with
    | complain text => simp [runStep, Silent, Event.isLog] at hfirst
    | unify x y =>
      refine linked_cons sorter ?_ (ih _ h)
      intro c hc
      by_contra hne
      exact try_unify_clash sorter s hc hne hfirst

theorem steps_agree {rho : ℕ → Option ℕ} (steps : List Step) (s : Fde)
    (hsteps : Unifies (fun x y => rho x = some y) steps)
    (hblocks : ∀ b c, s.Blocks b = some c → rho b = some c) :
    Linked steps s (steps.foldl (runStep sorter true true) s) ∧
      ∀ b c, (steps.foldl (runStep sorter true true) s).Blocks b = some c → rho b = some c := by
  induction steps generalizing s with
  | nil => exact ⟨linked_nil s, hblocks⟩
  | cons step steps ih =>
    cases step with
    | complain text => exact absurd hsteps not_unifies_complain
    | unify x y =>
      obtain ⟨hxy, hsteps⟩ := unifies_unify.mp hsteps
      have hfit : ∀ c, s.Blocks x = some c → c = y := by
        intro c hc
        have hrho := hblocks x c hc
        rw [hxy] at hrho
        exact (Option.some.inj hrho).symm
      obtain ⟨hgrown, hset, -, -⟩ := try_unify_fits sorter s x y hfit
      have hnext : ∀ b c, (tryUnify sorter s x y).Blocks b = some c → rho b = some c := by
        intro b c hc
        cases hb : s.Blocks b with
        | some d =>
          have hd := hgrown.kept b d hb
          rw [hc] at hd
          cases hd
          exact hblocks b c hb
        | none =>
          have hx := List.mem_singleton.mp (hgrown.fresh b hb (by rw [hc]; rfl))
          rw [hx, hset] at hc
          cases hc
          rw [hx]
          exact hxy
      obtain ⟨hlinked, hwithin⟩ := ih (tryUnify sorter s x y) hsteps hnext
      exact ⟨linked_cons sorter hfit hlinked, hwithin⟩

end Links

/-! ## Instructions -/

structure Unified (s s' : Fde) (l r : Instruction) : Prop where
  same : SameBody (fun a b => s.equivalent a b = true) (fun x y => s'.Blocks x = some y)
    l.body r.body
  grown : Grown l.body.successors s s'
  values : s'.Values = (s.setUsed l r.value).Values
  tentative : s'.TentativeValues = s.TentativeValues
  events : Silent s.events → Silent s'.events

section Unify
variable (sorter : Sorter) (L R : Fn)

theorem unified_of_linked {s t : Fde} {l r : Instruction} {L' R' : Place}
    (hl : Body.CasesDistinct l.body)
    (h : Linked (diffSteps s.equivalent l.body r.body) (s.tell (.enterContext L' R')) t) :
    Unified s ((t.setUsed l r.value).tell .exitContext) l r := by
  have hsame := (diff_steps_iff l.body r.body hl).mp h.pairs
  have hgrown := h.grown
  rw [Fde.set_used_eq]
  refine ⟨hsame, ⟨hgrown.kept, ?_, ?_, hgrown.queued, hgrown.nodup⟩, ?_, h.aside.tentative, ?_⟩
  · intro x hx
    obtain ⟨y, hy⟩ := same_body_successors hsame hx
    exact Option.isSome_iff_exists.mpr ⟨y, hy⟩
  · intro b hnone hsome
    obtain ⟨st, hst, hb⟩ := List.mem_filterMap.mp (hgrown.fresh b hnone hsome)
    cases st with
    | complain text => cases hb
    | unify x y =>
      cases hb
      exact unify_target _ _ _ hst
  · simp only [Fde.tell, Fde.setUsed]
    have hvalues := h.aside.values
    split_ifs
    · simp only [Fde.setValue, hvalues]
      rfl
    · exact hvalues
  · intro hs
    rw [Fde.tell_events, silent_cons]
    refine ⟨rfl, ?_⟩
    rw [show _ = _ from h.events, Fde.tell_events, silent_cons]
    exact ⟨rfl, hs⟩

theorem unify_silent {s s' : Fde} {l r : Instruction} (hl : Body.CasesDistinct l.body)
    (h : unify sorter L R s l r = .ok s') (hs : Silent s'.events) : Unified s s' l r := by
  unfold unify at h
  simp only at h
  split_ifs at h
  cases h
  rw [Fde.tell_events, silent_cons, Fde.set_used_events] at hs
  exact unified_of_linked hl (steps_silent sorter _ _ hs.2)

theorem unify_agrees {rho : ℕ → Option ℕ} {s : Fde} {l r : Instruction}
    (hl : Body.CasesDistinct l.body)
    (hsame : SameBody (fun a b => s.equivalent a b = true) (fun x y => rho x = some y)
      l.body r.body)
    (hblocks : ∀ b c, s.Blocks b = some c → rho b = some c) :
    ∃ s', unify sorter L R s l r = .ok s' ∧ Unified s s' l r ∧
      ∀ b c, s'.Blocks b = some c → rho b = some c := by
  have hsteps := (diff_steps_iff l.body r.body hl).mpr hsame
  obtain ⟨hlinked, hwithin⟩ := steps_agree sorter _
    (s.tell (.enterContext (.instruction L.name l.value) (.instruction R.name r.value)))
    hsteps hblocks
  have hquiet : ¬ (diffSteps s.equivalent l.body r.body).any Step.isComplaint = true := by
    simp [unifies_no_complaint hsteps]
  refine ⟨_, if_neg hquiet, unified_of_linked hl hlinked, ?_⟩
  · rw [Fde.set_used_eq]
    exact hwithin

end Unify

/-! ## Well-formed functions -/

/-- The other terminators are `ret`, `resume`, `cleanupret`, `catchret` and `catchswitch`,
by their numbers in LLVM. -/
def isTerminator : Opcode → Bool
  | .invoke | .br | .indirectBr | .switch | .unreachable => true
  | .other n => [1, 6, 8, 9, 10].contains n
  | _ => false

def Terminated (b : Block) : Prop :=
  ∃ init last, b = init ++ [last] ∧ isTerminator last.body.opcode = true ∧
    ∀ i ∈ init, isTerminator i.body.opcode = false

inductive Path (f : Fn) : List ℕ → ℕ → Prop where
  | entry : Path f [] 0
  | step {ps : List ℕ} {p b : ℕ} {i : Instruction} : Path f ps p → i ∈ f.block p →
      b ∈ i.body.successors → Path f (p::ps) b

def Defines (f : Fn) (b : ℕ) (v : Local) : Prop :=
  ∃ i ∈ f.block b, i.value = v ∧ i.used = true

/-- Single assignment: the value is defined earlier in the block or in a block on every
path to it. -/
def Available (f : Fn) (b k : ℕ) : Local → Prop
  | .arg i => i < f.args
  | .inst o i =>
    (∃ j ∈ (f.block b).take k, j.value = .inst o i ∧ j.used = true) ∨
      ∀ ps, Path f ps b → ∃ d ∈ ps, Defines f d (.inst o i)

/-- A verified function none of whose operands refers to a block. -/
structure WellFormed (f : Fn) : Prop where
  entry : 0 < f.blocks.length
  terminated : ∀ b < f.blocks.length, Terminated (f.block b)
  targets : ∀ b, ∀ i ∈ f.block b, ∀ x ∈ i.body.successors, x < f.blocks.length
  distinct : (f.blocks.flatten.map Instruction.value).Nodup
  closed : ∀ b, ∀ i ∈ f.block b, ∀ v ∈ Body.operands i.body, Value.Closed v
  cases : ∀ b, ∀ i ∈ f.block b, Body.CasesDistinct i.body
  available : ∀ b k i, (f.block b)[k]? = some i → ∀ v, .loc v ∈ Body.operands i.body →
    Available f b k v

/-- Equal instructions whose values are mapped to each other when the left one is used. -/
def Paired (sigma : Local → Option Local) (rho : ℕ → Option ℕ) (l r : Instruction) : Prop :=
  SameBody (SameOperand fun v w => sigma v = some w) (fun x y => rho x = some y) l.body r.body ∧
    (l.used = true → sigma l.value = some r.value)

/-- The right function does what the left one does, up to a map of the blocks and of the
local values. -/
structure Simulates (L R : Fn) (rho : ℕ → Option ℕ) (sigma : Local → Option Local) : Prop where
  args : L.args = R.args
  entry : rho 0 = some 0
  arguments : ∀ i < L.args, sigma (.arg i) = some (.arg i)
  blocks : ∀ b c, rho b = some c → List.Forall₂ (Paired sigma rho) (L.block b) (R.block c)

theorem block_distinct {f : Fn} (h : WellFormed f) (b : ℕ) :
    ((f.block b).map Instruction.value).Nodup := by
  unfold Fn.block
  rw [List.getD_eq_getElem?_getD]
  cases hb : f.blocks[b]? with
  | none => simp
  | some B =>
    have hsub : B.Sublist f.blocks.flatten := List.sublist_flatten_of_mem (List.mem_of_getElem? hb)
    exact h.distinct.sublist (hsub.map _)

theorem defined_once {f : Fn} (h : WellFormed f) {b c : ℕ} {i j : Instruction}
    (hi : i ∈ f.block b) (hj : j ∈ f.block c) (hv : i.value = j.value) : b = c := by
  have hget : ∀ {d : ℕ} {k : Instruction}, k ∈ f.block d → ∃ hd : d < f.blocks.length,
      k ∈ f.blocks[d] := by
    intro d k hk
    unfold Fn.block at hk
    rw [List.getD_eq_getElem?_getD] at hk
    cases hd : f.blocks[d]? with
    | none =>
      rw [hd] at hk
      exact absurd hk List.not_mem_nil
    | some B =>
      obtain ⟨hlt, rfl⟩ := List.getElem?_eq_some_iff.mp hd
      rw [hd] at hk
      exact ⟨hlt, hk⟩
  obtain ⟨hb, hi⟩ := hget hi
  obtain ⟨hc, hj⟩ := hget hj
  have hpair := List.nodup_flatten.mp (List.map_flatten ▸ h.distinct)
  by_contra hne
  have hdisj : ∀ {m n : ℕ} (hm : m < f.blocks.length) (hn : n < f.blocks.length), m < n →
      ∀ {x y : Instruction}, x ∈ f.blocks[m] → y ∈ f.blocks[n] → x.value ≠ y.value := by
    intro m n hm hn hmn x y hx hy heq
    have hd := List.pairwise_iff_getElem.mp hpair.2 m n (by simpa using hm) (by simpa using hn) hmn
    simp only [List.getElem_map] at hd
    exact hd (List.mem_map_of_mem hx) (heq ▸ List.mem_map_of_mem hy)
  obtain hlt | hlt := Nat.lt_or_gt_of_ne hne
  · exact hdisj hb hc hlt hi hj hv
  · exact hdisj hc hb hlt hj hi hv.symm

/-! ## Blocks -/

theorem same_operand_mono {rel rel' : Local → Local → Prop} {a b : Value}
    (h : SameOperand rel a b) (hrel : ∀ v, a = .loc v → ∀ w, rel v w → rel' v w) :
    SameOperand rel' a b := by
  cases a with
  | const c => cases b <;> exact h
  | loc v =>
    cases v with
    | inst o i =>
      cases b with
      | loc w =>
        cases w with
        | inst o' j => exact ⟨h.1, hrel _ rfl _ h.2⟩
        | arg j => exact h
      | _ => exact h
    | arg i =>
      cases b with
      | loc w =>
        cases w with
        | inst o' j => exact h
        | arg j => exact hrel _ rfl _ h
      | _ => exact h
  | block b' => cases b <;> exact h
  | other n => cases b <;> exact h

theorem set_used_values (s : Fde) (l : Instruction) (r v : Local) :
    (s.setUsed l r).Values v =
      if l.used = true ∧ v = l.value then some r else s.Values v := by
  unfold Fde.setUsed
  by_cases hu : l.used = true
  · simp [hu, Fde.setValue]
  · simp [hu]

structure AllUnified (s s' : Fde) (ls rs : Block) : Prop where
  same : List.Forall₂ (Paired s'.Values s'.Blocks) ls rs
  grown : Grown (ls.flatMap fun i => i.body.successors) s s'
  kept : ∀ v w, s.Values v = some w → s'.Values v = some w
  only : ∀ v w, s'.Values v = some w →
    s.Values v = some w ∨ ∃ i ∈ ls, i.value = v ∧ i.used = true
  tentative : s'.TentativeValues = []
  events : Silent s.events → Silent s'.events

theorem all_unified_nil {s : Fde} (h : s.TentativeValues = []) : AllUnified s s [] [] where
  same := List.Forall₂.nil
  grown := grown_refl rfl rfl
  kept := fun _ _ hv => hv
  only := fun _ _ hv => Or.inl hv
  tentative := h
  events := id

theorem all_unified_cons {s t u : Fde} {l r : Instruction} {ls rs : Block}
    (h : Unified s t l r) (h' : AllUnified t u ls rs) (htent : s.TentativeValues = [])
    (hfresh : s.Values l.value = none) (hclosed : ∀ v ∈ Body.operands l.body, Value.Closed v) :
    AllUnified s u (l::ls) (r::rs) := by
  have hvalues : ∀ v, t.Values v =
      if l.used = true ∧ v = l.value then some r.value else s.Values v := by
    intro v
    rw [h.values, set_used_values]
  have hkept : ∀ v w, s.Values v = some w → u.Values v = some w := by
    intro v w hv
    refine h'.kept v w ?_
    rw [hvalues, if_neg]
    · exact hv
    · rintro ⟨-, rfl⟩
      rw [hfresh] at hv
      cases hv
  refine ⟨List.Forall₂.cons ⟨?_, fun hu => ?_⟩ h'.same, h.grown.trans h'.grown, hkept, ?_,
    h'.tentative, fun hs => h'.events (h.events hs)⟩
  · refine same_body_mono h.same (fun a ha b hab => ?_) fun x _ y hy => h'.grown.kept x y hy
    have hsame := (equivalent_iff _ _ _ a b (hclosed a ha)).mp hab
    refine same_operand_mono hsame fun v _ w hvw => hkept v w ?_
    cases v with
    | inst o i =>
      obtain hvw | hvw := hvw
      · exact hvw
      · rw [htent] at hvw
        exact absurd hvw List.not_mem_nil
    | arg i => exact hvw
  · refine h'.kept _ _ ?_
    rw [hvalues, if_pos ⟨hu, rfl⟩]
  · intro v w hv
    obtain hv | ⟨i, hi, hiv⟩ := h'.only v w hv
    · rw [hvalues] at hv
      split_ifs at hv with hl
      · exact Or.inr ⟨l, List.mem_cons_self, hl.2.symm, hl.1⟩
      · exact Or.inl hv
    · exact Or.inr ⟨i, List.mem_cons_of_mem l hi, hiv⟩

section Blocks
variable (sorter : Sorter) (L R : Fn)

theorem unify_all_silent (ls rs : Block) (s s' : Fde) (h : unifyAll sorter L R s ls rs = .ok s')
    (hs : Silent s'.events) (htent : s.TentativeValues = [])
    (hfresh : ∀ i ∈ ls, s.Values i.value = none) (hnodup : (ls.map Instruction.value).Nodup)
    (hclosed : ∀ i ∈ ls, ∀ v ∈ Body.operands i.body, Value.Closed v)
    (hcases : ∀ i ∈ ls, Body.CasesDistinct i.body) :
    ∃ front rest, rs = front ++ rest ∧ AllUnified s s' ls front := by
  induction ls generalizing s rs with
  | nil =>
    rw [unifyAll] at h
    cases h
    exact ⟨[], rs, rfl, all_unified_nil htent⟩
  | cons l ls ih =>
    cases rs with
    | nil => cases h
    | cons r rs =>
      rw [unifyAll] at h
      cases hu : unify sorter L R s l r with
      | error f =>
        rw [hu] at h
        cases h
      | ok t =>
        rw [hu] at h
        have htold : Told t.events s'.events :=
          ensures_value (r := unifyAll sorter L R t ls rs) (unify_all_told sorter L R t ls rs) h
        have hst := silent_of_told htold hs
        have hone := unify_silent sorter L R (hcases l List.mem_cons_self) hu hst
        rw [List.map_cons, List.nodup_cons] at hnodup
        have hnext : ∀ i ∈ ls, t.Values i.value = none := by
          intro i hi
          rw [hone.values, set_used_values, if_neg]
          · exact hfresh i (List.mem_cons_of_mem l hi)
          · rintro ⟨-, heq⟩
            exact hnodup.1 (heq ▸ List.mem_map_of_mem hi)
        obtain ⟨front, rest, rfl, hall⟩ := ih rs t h (hone.tentative.trans htent) hnext hnodup.2
          (fun i hi => hclosed i (List.mem_cons_of_mem l hi))
          (fun i hi => hcases i (List.mem_cons_of_mem l hi))
        exact ⟨r::front, rest, rfl, all_unified_cons hone hall htent (hfresh l List.mem_cons_self)
          (hclosed l List.mem_cons_self)⟩

def Ready (sigma : Local → Option Local) (b k : ℕ) (s : Fde) : Prop :=
  ∀ v w, Available L b k v → sigma v = some w → known s.Values s.TentativeValues v w

variable {L R} {sigma : Local → Option Local} {rho : ℕ → Option ℕ} {b k : ℕ} {s : Fde}
  {l r : Instruction}

theorem ready_same (hL : WellFormed L) (h : Ready L sigma b k s) (hl : (L.block b)[k]? = some l)
    (hp : Paired sigma rho l r) :
    SameBody (fun a b => s.equivalent a b = true) (fun x y => rho x = some y) l.body r.body := by
  have hin : l ∈ L.block b := List.mem_of_getElem? hl
  refine same_body_mono hp.1 (fun a ha c hac => ?_) fun _ _ _ hy => hy
  refine (equivalent_iff _ _ _ a c (hL.closed b l hin a ha)).mpr ?_
  refine same_operand_mono hac ?_
  rintro v rfl w hvw
  exact h v w (hL.available b k l hl v ha) hvw

theorem ready_next {t : Fde} (h : Ready L sigma b k s) (hl : (L.block b)[k]? = some l)
    (hp : Paired sigma rho l r)
    (hkept : ∀ v w, sigma v = some w → known s.Values s.TentativeValues v w →
      known t.Values t.TentativeValues v w)
    (hset : l.used = true → known t.Values t.TentativeValues l.value r.value) :
    Ready L sigma b (k+1) t := by
  intro v w hv hw
  cases v with
  | arg i => exact hkept _ w hw (h _ w hv hw)
  | inst o i =>
    obtain ⟨j, hj, hjv, hju⟩ | hdom := hv
    · rw [List.take_add_one, hl] at hj
      obtain hj | hj := List.mem_append.mp hj
      · exact hkept _ w hw (h _ w (Or.inl ⟨j, hj, hjv, hju⟩) hw)
      · obtain rfl : j = l := by simpa using hj
        have hr := hp.2 hju
        rw [hjv, hw] at hr
        cases hr
        exact hjv ▸ hset hju
    · exact hkept _ w hw (h _ w (Or.inr hdom) hw)

theorem value_is_inst (i : Instruction) : i.value = .inst i.body.opcode i.id := rfl

theorem ready_unified {t : Fde} (h : Ready L sigma b k s) (hl : (L.block b)[k]? = some l)
    (hp : Paired sigma rho l r) (hu : Unified s t l r) : Ready L sigma b (k+1) t := by
  have hvalues : ∀ v, t.Values v =
      if l.used = true ∧ v = l.value then some r.value else s.Values v := by
    intro v
    rw [hu.values, set_used_values]
  refine ready_next h hl hp ?_ fun hused => Or.inl ?_
  swap
  · rw [← value_is_inst, hvalues, if_pos ⟨hused, rfl⟩]
  intro v w hw hknown
  rw [hu.tentative]
  by_cases hv : l.used = true ∧ v = l.value
  · have hr := hp.2 hv.1
    rw [← hv.2, hw] at hr
    cases hr
    rw [hv.2]
    exact Or.inl (by rw [← value_is_inst, hvalues, if_pos ⟨hv.1, rfl⟩])
  · have hsame := hvalues v
    rw [if_neg hv] at hsame
    cases v with
    | inst o i => exact hknown.imp_left fun hk => hsame.trans hk
    | arg i => exact hsame.trans hknown

theorem ready_tentative (h : Ready L sigma b k s) (hl : (L.block b)[k]? = some l)
    (hp : Paired sigma rho l r) : Ready L sigma b (k+1) (s.addTentative l r) := by
  have hadd : (s.addTentative l r).Values = s.Values ∧ (s.addTentative l r).TentativeValues =
      if l.used = true then (l.value, r.value) :: s.TentativeValues else s.TentativeValues := by
    unfold Fde.addTentative
    split_ifs <;> exact ⟨rfl, rfl⟩
  rw [Ready]
  refine ready_next h hl hp ?_ fun hused => Or.inr ?_
  · intro v w _ hknown
    rw [hadd.1, hadd.2]
    cases v with
    | inst o i =>
      refine hknown.imp_right fun hk => ?_
      split_ifs
      · exact List.mem_cons_of_mem _ hk
      · exact hk
    | arg i => exact hknown
  · rw [hadd.2, if_pos hused]
    exact List.mem_cons_self

structure Untouched (s t : Fde) : Prop where
  values : t.Values = s.Values
  blocks : t.Blocks = s.Blocks
  queue : t.Queue = s.Queue
  events : t.events = s.events

theorem untouched_trans {s t u : Fde} (h : Untouched s t) (h' : Untouched t u) : Untouched s u :=
  ⟨h'.values.trans h.values, h'.blocks.trans h.blocks, h'.queue.trans h.queue,
    h'.events.trans h.events⟩

theorem add_tentative_untouched (s : Fde) (l r : Instruction) :
    Untouched s (s.addTentative l r) := by
  unfold Fde.addTentative
  split_ifs <;> exact ⟨rfl, rfl, rfl, rfl⟩

theorem diff_inst_quiet (s : Fde) (l r : Instruction) :
    (diffInst sorter false false s l r).2 = s := by
  unfold diffInst
  generalize diffSteps s.equivalent l.body r.body = steps
  induction steps with
  | nil => rfl
  | cons step steps ih => cases step <;> exact ih

theorem scan_untouched (ls rs : Block) (s : Fde) {d : Bool × Fde}
    (h : scan sorter s ls rs = .ok d) : Untouched s d.2 := by
  induction ls generalizing s rs with
  | nil => cases h
  | cons l ls ih =>
    cases rs with
    | nil => cases h
    | cons r rs =>
      rw [scan, diff_inst_quiet] at h
      split_ifs at h
      · cases h
        exact ⟨rfl, rfl, rfl, rfl⟩
      · cases h
        exact add_tentative_untouched s l r
      · exact untouched_trans (add_tentative_untouched s l r) (ih rs _ h)

theorem scan_agrees (hL : WellFormed L) (rest rs : Block) (k : ℕ) (s : Fde)
    (hrest : (L.block b).drop k = rest) (hne : rest ≠ [])
    (hall : List.Forall₂ (Paired sigma rho) rest rs) (hready : Ready L sigma b k s) :
    ∃ t, scan sorter s rest rs = .ok (false, t) := by
  induction hall generalizing k s with
  | nil => exact absurd rfl hne
  | @cons l r ls rs hp hall ih =>
    have hl : (L.block b)[k]? = some l := by
      have hget := congrArg (fun xs => xs[0]?) hrest
      simpa using hget
    have hdrop : (L.block b).drop (k+1) = ls := by
      rw [← List.drop_drop, hrest]
      rfl
    have hin : l ∈ L.block b := List.mem_of_getElem? hl
    have hsteps :=
      (diff_steps_iff l.body r.body (hL.cases b l hin)).mpr (ready_same hL hready hl hp)
    have hquiet : (diffInst sorter false false s l r).1 = false := unifies_no_complaint hsteps
    rw [scan, diff_inst_quiet, if_neg (by rw [hquiet]; decide)]
    split_ifs with hempty
    · exact ⟨_, rfl⟩
    · exact ih (k+1) _ hdrop (by simpa using hempty) (ready_tentative hready hl hp)

structure Within (rho : ℕ → Option ℕ) (sigma : Local → Option Local) (s : Fde) : Prop where
  blocks : ∀ b c, s.Blocks b = some c → rho b = some c
  values : ∀ v w, s.Values v = some w → sigma v = some w

theorem unify_all_agrees (hL : WellFormed L) (rest rs : Block) (k : ℕ) (s : Fde)
    (hrest : (L.block b).drop k = rest) (hall : List.Forall₂ (Paired sigma rho) rest rs)
    (hready : Ready L sigma b k s) (hwithin : Within rho sigma s) (htent : s.TentativeValues = [])
    (hfresh : ∀ i ∈ rest, s.Values i.value = none) :
    ∃ s', unifyAll sorter L R s rest rs = .ok s' ∧ AllUnified s s' rest rs ∧
      Within rho sigma s' := by
  induction hall generalizing k s with
  | nil => exact ⟨s, by rw [unifyAll], all_unified_nil htent, hwithin⟩
  | @cons l r ls rs hp hall ih =>
    have hl : (L.block b)[k]? = some l := by
      have hget := congrArg (fun xs => xs[0]?) hrest
      simpa using hget
    have hdrop : (L.block b).drop (k+1) = ls := by
      rw [← List.drop_drop, hrest]
      rfl
    have hin : l ∈ L.block b := List.mem_of_getElem? hl
    obtain ⟨t, hunify, hone, hblocks⟩ := unify_agrees sorter L R (hL.cases b l hin)
      (ready_same hL hready hl hp) hwithin.blocks
    have hvalues : ∀ v, t.Values v =
        if l.used = true ∧ v = l.value then some r.value else s.Values v := by
      intro v
      rw [hone.values, set_used_values]
    have hnodup : ((l::ls).map Instruction.value).Nodup := by
      rw [← hrest]
      exact (block_distinct hL b).sublist ((List.drop_sublist k _).map _)
    rw [List.map_cons, List.nodup_cons] at hnodup
    have hnext : ∀ i ∈ ls, t.Values i.value = none := by
      intro i hi
      rw [hvalues, if_neg]
      · exact hfresh i (List.mem_cons_of_mem l hi)
      · rintro ⟨-, heq⟩
        exact hnodup.1 (heq ▸ List.mem_map_of_mem hi)
    have hthere : Within rho sigma t := by
      refine ⟨hblocks, fun v w hv => ?_⟩
      rw [hvalues] at hv
      split_ifs at hv with hlv
      · cases hv
        rw [hlv.2]
        exact hp.2 hlv.1
      · exact hwithin.values v w hv
    obtain ⟨s', hrun, hunified, hw⟩ := ih (k+1) t hdrop (ready_unified hready hl hp hone) hthere
      (hone.tentative.trans htent) hnext
    refine ⟨s', ?_, all_unified_cons hone hunified htent (hfresh l List.mem_cons_self)
      (hL.closed b l hin), hw⟩
    rw [unifyAll, hunify]
    exact hrun

end Blocks

end Parmesan.DiffUnify
