import Parmesan.DiffModel
import Parmesan.Outcome

/-!
# What the consumer keeps of a comparison

`DiffConsumer` keeps a stack of contexts. A context is marked as different when
something is logged inside it, and the identifier of a block is recorded when its
context is marked, which happens once. The identifiers are the diff targets.
-/

set_option autoImplicit false

namespace Parmesan.DiffReport
open Parmesan.DiffModel
open Parmesan.Outcome

structure DiffContext where
  L : Place
  R : Place
  Differences : Bool

/-- `contexts` has the innermost context first. -/
structure DiffConsumer where
  contexts : List DiffContext
  Differences : Bool
  Indent : ℕ
  DiffIdSet : Finset ℕ

def newConsumer : DiffConsumer := ⟨[], false, 0, ∅⟩

section Consumer
-- `IdMap->lookup`, which is 0 for a block without an identifier
variable (lookup : String × ℕ → ℕ)

def headerIds (I : DiffContext) (ids : Finset ℕ) : Finset ℕ :=
  if I.Differences then ids
  else
    match I.L with
    | .block fn b => insert (lookup (fn, b)) ids
    | _ => ids

def header (c : DiffConsumer) : DiffConsumer :=
  { c with
    contexts := c.contexts.map fun I => { I with Differences := true }
    DiffIdSet := c.contexts.foldr (headerIds lookup) c.DiffIdSet }

/-- A call of the consumer; `none` is `contexts.back()` of an empty stack. -/
def call (c : DiffConsumer) : Event → Option DiffConsumer
  | .enterContext L R =>
    some { c with contexts := ⟨L, R, false⟩ :: c.contexts, Indent := c.Indent+2 }
  | .exitContext =>
    match c.contexts with
    | [] => none
    | I::rest =>
      some { c with
        Differences := c.Differences || I.Differences
        contexts := rest
        Indent := c.Indent-2 }
  | .log _ => some (header lookup c)
  | .logd _ => some (header lookup c)

def consume : List Event → Option DiffConsumer
  | [] => some newConsumer
  | e::es => (consume es).bind fun c => call lookup c e

def hadDifferences (c : DiffConsumer) : Bool := c.Differences

end Consumer

/-! ## The open contexts of a sequence of calls -/

def openPlaces : List Event → List Place
  | [] => []
  | .enterContext L _ :: es => L :: openPlaces es
  | .exitContext :: es => (openPlaces es).tail
  | _ :: es => openPlaces es

def LoggedIn (p : Place) (es : List Event) : Prop :=
  ∃ later e earlier, es = later ++ e :: earlier ∧ e.isLog = true ∧ p ∈ openPlaces earlier

def LoggedInside (es : List Event) : Prop := ∃ p, LoggedIn p es

theorem logged_in_nil (p : Place) : ¬ LoggedIn p [] := by
  rintro ⟨later, e, earlier, h, -⟩
  simp at h

theorem logged_in_cons (p : Place) (e : Event) (es : List Event) :
    LoggedIn p (e::es) ↔ (e.isLog = true ∧ p ∈ openPlaces es) ∨ LoggedIn p es := by
  constructor
  · rintro ⟨later, e', earlier, h, hlog, hp⟩
    cases later with
    | nil =>
      obtain ⟨rfl, rfl⟩ := List.cons.inj h
      exact Or.inl ⟨hlog, hp⟩
    | cons d later =>
      obtain ⟨-, rfl⟩ := List.cons.inj h
      exact Or.inr ⟨later, e', earlier, rfl, hlog, hp⟩
  · rintro (⟨hlog, hp⟩ | ⟨later, e', earlier, rfl, hlog, hp⟩)
    · exact ⟨[], e, es, rfl, hlog, hp⟩
    · exact ⟨e::later, e', earlier, rfl, hlog, hp⟩

section Invariant
variable {lookup : String × ℕ → ℕ}

structure Faithful (lookup : String × ℕ → ℕ) (es : List Event) (c : DiffConsumer) : Prop where
  places : c.contexts.map DiffContext.L = openPlaces es
  indent : c.Indent = 2*c.contexts.length
  ids : ∀ id, id ∈ c.DiffIdSet ↔ ∃ fn b, LoggedIn (.block fn b) es ∧ lookup (fn, b) = id
  marked : ∀ I ∈ c.contexts, I.Differences = true → LoggedIn I.L es
  flag : (c.Differences = true ∨ ∃ I ∈ c.contexts, I.Differences = true) ↔ LoggedInside es

theorem new_faithful (lookup : String × ℕ → ℕ) : Faithful lookup [] newConsumer where
  places := rfl
  indent := rfl
  ids := by
    intro id
    simp [newConsumer, logged_in_nil]
  marked := by simp [newConsumer]
  flag := by
    simp [newConsumer, LoggedInside, logged_in_nil]

theorem mem_header_ids (contexts : List DiffContext) (ids : Finset ℕ) (id : ℕ) :
    id ∈ contexts.foldr (headerIds lookup) ids ↔ id ∈ ids ∨
      ∃ I ∈ contexts, I.Differences = false ∧ ∃ fn b, I.L = .block fn b ∧ lookup (fn, b) = id := by
  induction contexts with
  | nil => simp
  | cons I contexts ih =>
    rw [List.foldr_cons, headerIds]
    cases hd : I.Differences with
    | true => simp [ih, hd]
    | false =>
      cases hl : I.L with
      | block fn b =>
        simp only [Bool.false_eq_true, if_false, Finset.mem_insert, ih, List.exists_mem_cons_iff,
          hd, hl, true_and, Place.block.injEq]
        constructor
        · rintro (rfl | hin | hrest)
          · exact Or.inr (Or.inl ⟨fn, b, ⟨rfl, rfl⟩, rfl⟩)
          · exact Or.inl hin
          · exact Or.inr (Or.inr hrest)
        · rintro (hin | ⟨fn', b', ⟨rfl, rfl⟩, rfl⟩ | hrest)
          · exact Or.inr (Or.inl hin)
          · exact Or.inl rfl
          · exact Or.inr (Or.inr hrest)
      | function name => simp [ih, hd, hl]
      | instruction fn l => simp [ih, hd, hl]

theorem header_faithful {es : List Event} {c : DiffConsumer} {e : Event}
    (h : Faithful lookup es c) (he : e.isLog = true) (ho : openPlaces (e::es) = openPlaces es) :
    Faithful lookup (e::es) (header lookup c) where
  places := by
    rw [ho, ← h.places]
    simp [header, Function.comp_def]
  indent := by simpa [header] using h.indent
  ids := by
    intro id
    have hplace : ∀ fn b, (.block fn b ∈ openPlaces es ↔ ∃ I ∈ c.contexts, I.L = .block fn b) := by
      intro fn b
      rw [← h.places, List.mem_map]
    simp only [header, mem_header_ids, h.ids, logged_in_cons, he, true_and]
    constructor
    · rintro (⟨fn, b, hin, rfl⟩ | ⟨I, hI, -, fn, b, hL, rfl⟩)
      · exact ⟨fn, b, Or.inr hin, rfl⟩
      · exact ⟨fn, b, Or.inl ((hplace fn b).mpr ⟨I, hI, hL⟩), rfl⟩
    · rintro ⟨fn, b, hopen | hin, rfl⟩
      · obtain ⟨I, hI, hL⟩ := (hplace fn b).mp hopen
        cases hd : I.Differences with
        | true => exact Or.inl ⟨fn, b, hL ▸ h.marked I hI hd, rfl⟩
        | false => exact Or.inr ⟨I, hI, hd, fn, b, hL, rfl⟩
      · exact Or.inl ⟨fn, b, hin, rfl⟩
  marked := by
    intro I hI _
    obtain ⟨J, hJ, rfl⟩ := List.mem_map.mp hI
    rw [logged_in_cons, ← h.places]
    exact Or.inl ⟨he, List.mem_map.mpr ⟨J, hJ, rfl⟩⟩
  flag := by
    simp only [header, List.mem_map, LoggedInside, logged_in_cons, he, true_and]
    constructor
    · rintro (hd | ⟨I, ⟨J, hJ, rfl⟩, -⟩)
      · obtain ⟨p, hp⟩ := h.flag.mp (Or.inl hd)
        exact ⟨p, Or.inr hp⟩
      · refine ⟨J.L, Or.inl ?_⟩
        rw [← h.places]
        exact List.mem_map_of_mem hJ
    · rintro ⟨p, hp | hp⟩
      · rw [← h.places, List.mem_map] at hp
        obtain ⟨I, hI, rfl⟩ := hp
        exact Or.inr ⟨_, ⟨I, hI, rfl⟩, rfl⟩
      · obtain hd | ⟨I, hI, -⟩ := h.flag.mpr ⟨p, hp⟩
        · exact Or.inl hd
        · exact Or.inr ⟨_, ⟨I, hI, rfl⟩, rfl⟩

theorem logged_in_quiet {e : Event} {es : List Event} (he : e.isLog = false) (p : Place) :
    LoggedIn p (e::es) ↔ LoggedIn p es := by
  simp [logged_in_cons, he]

theorem enter_faithful {es : List Event} {c : DiffConsumer} (h : Faithful lookup es c)
    (L R : Place) : Faithful lookup (.enterContext L R :: es)
      { c with contexts := ⟨L, R, false⟩ :: c.contexts, Indent := c.Indent+2 } where
  places := by simp [openPlaces, h.places]
  indent := by simp [h.indent]; omega
  ids := by simpa [logged_in_quiet (e := .enterContext L R) rfl] using h.ids
  marked := by
    intro I hI hd
    rw [logged_in_quiet rfl]
    obtain rfl | hI := List.mem_cons.mp hI
    · cases hd
    · exact h.marked I hI hd
  flag := by
    simp only [LoggedInside, logged_in_quiet (e := .enterContext L R) rfl]
    rw [← LoggedInside, ← h.flag]
    simp

theorem exit_faithful {es : List Event} {c : DiffConsumer} {I : DiffContext}
    {rest : List DiffContext} (h : Faithful lookup es c) (hc : c.contexts = I::rest) :
    Faithful lookup (.exitContext :: es)
      { c with
        Differences := c.Differences || I.Differences
        contexts := rest
        Indent := c.Indent-2 } where
  places := by rw [openPlaces, ← h.places, hc]; rfl
  indent := by
    have hi := h.indent
    rw [hc, List.length_cons] at hi
    simp only [hi]
    omega
  ids := by simpa [logged_in_quiet (e := .exitContext) rfl] using h.ids
  marked := by
    intro J hJ hd
    rw [logged_in_quiet rfl]
    exact h.marked J (hc ▸ List.mem_cons_of_mem I hJ) hd
  flag := by
    simp only [LoggedInside, logged_in_quiet (e := .exitContext) rfl]
    rw [← LoggedInside, ← h.flag, hc]
    simp [or_assoc]

theorem consume_faithful (es : List Event) {c : DiffConsumer} (h : consume lookup es = some c) :
    Faithful lookup es c := by
  induction es generalizing c with
  | nil =>
    cases h
    exact new_faithful lookup
  | cons e es ih =>
    obtain ⟨d, hd, hcall⟩ := Option.bind_eq_some_iff.mp h
    have hf := ih hd
    cases e with
    | enterContext L R =>
      cases hcall
      exact enter_faithful hf L R
    | exitContext =>
      rw [call] at hcall
      cases hc : d.contexts with
      | nil => simp [hc] at hcall
      | cons I rest =>
        simp only [hc, Option.some.injEq] at hcall
        subst hcall
        exact exit_faithful hf hc
    | log text =>
      cases hcall
      exact header_faithful hf rfl rfl
    | logd lines =>
      cases hcall
      exact header_faithful hf rfl rfl

end Invariant

/-! ## The engine closes the contexts it opens -/

inductive Balanced : List Event → Prop where
  | nil : Balanced []
  | log {e : Event} {es : List Event} : e.isLog = true → Balanced es → Balanced (e::es)
  | context {inner outer : List Event} (L R : Place) : Balanced inner → Balanced outer →
      Balanced (.exitContext :: (inner ++ .enterContext L R :: outer))

theorem Balanced.append {es es' : List Event} (h : Balanced es) (h' : Balanced es') :
    Balanced (es ++ es') := by
  induction h with
  | nil => exact h'
  | log he _ ih => exact ih.log he
  | context L R hinner _ _ ih =>
    rw [List.cons_append, List.append_assoc, List.cons_append]
    exact Balanced.context L R hinner ih

theorem balanced_open {seg : List Event} (h : Balanced seg) (es : List Event) :
    openPlaces (seg ++ es) = openPlaces es := by
  induction h generalizing es with
  | nil => rfl
  | @log e _ he _ ih =>
    cases e with
    | log text => exact ih es
    | logd lines => exact ih es
    | enterContext L R => cases he
    | exitContext => cases he
  | @context inner outer L R _ _ ihinner ihouter =>
    have hlist : .exitContext :: (inner ++ .enterContext L R :: outer) ++ es =
        .exitContext :: (inner ++ (.enterContext L R :: (outer ++ es))) := by simp
    rw [hlist, openPlaces, ihinner, openPlaces, ihouter, List.tail_cons]

theorem balanced_consume {seg : List Event} (h : Balanced seg) (lookup : String × ℕ → ℕ)
    (es : List Event) (hes : (consume lookup es).isSome) : (consume lookup (seg ++ es)).isSome := by
  induction h generalizing es with
  | nil => exact hes
  | @log e seg he _ ih =>
    obtain ⟨c, hc⟩ := Option.isSome_iff_exists.mp (ih es hes)
    rw [List.cons_append, consume, hc, Option.bind_some]
    cases e with
    | log text => rfl
    | logd lines => rfl
    | enterContext L R => cases he
    | exitContext => cases he
  | @context inner outer L R hinner _ ihinner ihouter =>
    have hlist : .exitContext :: (inner ++ .enterContext L R :: outer) ++ es =
        .exitContext :: (inner ++ (.enterContext L R :: (outer ++ es))) := by simp
    have hopened : (consume lookup (.enterContext L R :: (outer ++ es))).isSome := by
      obtain ⟨c, hc⟩ := Option.isSome_iff_exists.mp (ihouter es hes)
      rw [consume, hc]
      rfl
    obtain ⟨c, hc⟩ := Option.isSome_iff_exists.mp (ihinner _ hopened)
    have hplaces := (consume_faithful _ hc).places
    rw [balanced_open hinner, openPlaces] at hplaces
    rw [hlist, consume, hc, Option.bind_some, call]
    cases hstack : c.contexts with
    | nil => simp [hstack] at hplaces
    | cons I rest => rfl

/-- `s'` told the consumer what `s` did and then a balanced run of calls. -/
def Told (es es' : List Event) : Prop := ∃ seg, Balanced seg ∧ es' = seg ++ es

theorem told_refl (es : List Event) : Told es es := ⟨[], Balanced.nil, rfl⟩

theorem told_trans {es es' es'' : List Event} (h : Told es es') (h' : Told es' es'') :
    Told es es'' := by
  obtain ⟨seg, hb, rfl⟩ := h
  obtain ⟨seg', hb', rfl⟩ := h'
  exact ⟨seg' ++ seg, hb'.append hb, by simp⟩

theorem told_log (es : List Event) {e : Event} (he : e.isLog = true) : Told es (e::es) :=
  ⟨[e], Balanced.nil.log he, rfl⟩

theorem told_context {es es' : List Event} (L R : Place) (h : Told (.enterContext L R :: es) es') :
    Told es (.exitContext :: es') := by
  obtain ⟨seg, hb, rfl⟩ := h
  exact ⟨.exitContext :: (seg ++ [.enterContext L R]), Balanced.context L R hb Balanced.nil,
    by simp⟩

section Engine
variable (sorter : Sorter) (L R : Fn)

theorem try_unify_told (s : Fde) (l r : ℕ) : Told s.events (tryUnify sorter s l r).events := by
  unfold tryUnify
  split
  · split_ifs
    · exact told_refl _
    · exact told_log _ rfl
  · exact told_refl _

theorem run_step_told (Complain TryUnify : Bool) (s : Fde) (step : Step) :
    Told s.events (runStep sorter Complain TryUnify s step).events := by
  cases step with
  | complain text =>
    rw [runStep]
    split_ifs
    · exact told_log _ rfl
    · exact told_refl _
  | unify l r =>
    rw [runStep]
    split_ifs
    · exact try_unify_told sorter s l r
    · exact told_refl _

theorem diff_inst_told (Complain TryUnify : Bool) (s : Fde) (l r : Instruction) :
    Told s.events (diffInst sorter Complain TryUnify s l r).2.events := by
  unfold diffInst
  generalize diffSteps s.equivalent l.body r.body = steps
  induction steps generalizing s with
  | nil => exact told_refl _
  | cons step steps ih =>
    exact told_trans (run_step_told sorter Complain TryUnify s step) (ih _)

/-- Whatever faults, what is told on the way to a result is balanced. -/
abbrev Tells {α : Type} (es : List Event) (r : Except Fault α) (events : α → List Event) : Prop :=
  Ensures (fun _ => True) r fun a => Told es (events a)

theorem unify_told (s : Fde) (l r : Instruction) :
    Tells s.events (unify sorter L R s l r) Fde.events := by
  have hinst := diff_inst_told sorter true true
    (s.tell (.enterContext (.instruction L.name l.value) (.instruction R.name r.value))) l r
  unfold unify
  simp only
  split_ifs
  · trivial
  · refine ensures_ok _ _ _ ?_
    rw [Fde.tell_events, Fde.set_used_events]
    exact told_context _ _ hinst

theorem scan_told (s : Fde) (ls rs : Block) :
    Tells s.events (scan sorter s ls rs) fun d => d.2.events := by
  induction ls generalizing s rs with
  | nil => trivial
  | cons l ls ih =>
    cases rs with
    | nil => trivial
    | cons r rs =>
      have hinst := diff_inst_told sorter false false s l r
      rw [scan]
      split_ifs
      · exact hinst
      · refine ensures_ok _ _ _ ?_
        simpa using hinst
      · refine ensures_mono (ih _ rs) fun d hd => told_trans hinst ?_
        rwa [Fde.add_tentative_events] at hd

theorem unify_all_told (s : Fde) (ls rs : Block) :
    Tells s.events (unifyAll sorter L R s ls rs) Fde.events := by
  induction ls generalizing s rs with
  | nil =>
    rw [unifyAll]
    exact told_refl _
  | cons l ls ih =>
    cases rs with
    | nil => trivial
    | cons r rs =>
      rw [unifyAll]
      exact ensures_bind (unify_told sorter L R s l r) fun t ht =>
        ensures_mono (ih t rs) fun u hu => told_trans ht hu

theorem skip_leading_told (s : Fde) (Path : List DiffChange) (ls rs : Block) :
    Tells s.events (skipLeadingMatches sorter L R s Path ls rs) fun d => d.1.events := by
  induction s, Path, ls, rs using skipLeadingMatches.induct with
  | case1 s Path l ls r rs ih =>
    rw [skipLeadingMatches]
    exact ensures_bind (unify_told sorter L R s l r) fun t ht =>
      ensures_mono (ih t) fun u hu => told_trans ht hu
  | case2 s Path ls rs hne =>
    rw [skipLeadingMatches]
    · trivial
    · exact hne
  | case3 s Path ls rs hne hne' =>
    rw [skipLeadingMatches]
    · exact told_refl _
    · exact hne'
    · exact hne

theorem follow_path_told (s : Fde) (Path : List DiffChange) (ls rs : Block) :
    Tells s.events (followPath sorter L R s Path ls rs) fun d => d.1.events := by
  induction s, Path, ls, rs using followPath.induct with
  | case1 s ls rs =>
    rw [followPath]
    exact told_refl _
  | case2 s Path l ls r rs ih =>
    rw [followPath]
    exact ensures_bind (unify_told sorter L R s l r) fun t ht =>
      ensures_map (ih t) fun d hd => told_trans ht hd
  | case3 s Path l ls rs ih =>
    rw [followPath]
    exact ensures_map ih fun d hd => hd
  | case4 s Path ls r rs ih =>
    rw [followPath]
    exact ensures_map ih fun d hd => hd
  | case5 s Path ls rs h1 h2 h3 h4 =>
    rw [followPath]
    · trivial
    all_goals assumption

theorem unify_invoke_told (s : Fde) (Lb Rb : Block) :
    Told s.events (unifyInvoke sorter s Lb Rb).events := by
  have hset : ∀ (l : Instruction) (r : Local) (x y : ℕ),
      Told s.events (tryUnify sorter (s.setUsed l r) x y).events := by
    intro l r x y
    simpa using try_unify_told sorter (s.setUsed l r) x y
  unfold unifyInvoke
  split
  · split
    · split
      · split_ifs
        · exact hset _ _ _ _
        · exact told_refl _
      · exact told_refl _
    · split
      · split_ifs
        · exact hset _ _ _ _
        · exact told_refl _
      · exact told_refl _
    · exact told_refl _
  · exact told_refl _

theorem run_block_diff_told (s : Fde) (Lb Rb : Block) :
    Tells s.events (runBlockDiff sorter L R s Lb Rb) Fde.events := by
  unfold runBlockDiff
  have hpath : Ensures (fun _ : Fault => True)
      (dropTrailingMatches (lastEntry (matchForBlockDiff sorter s) Lb Rb).Path)
      (fun _ => True) := by
    cases dropTrailingMatches (lastEntry (matchForBlockDiff sorter s) Lb Rb).Path <;> trivial
  refine ensures_bind hpath fun Path _ => ?_
  refine ensures_bind (skip_leading_told sorter L R s Path Lb Rb) fun d hd => ?_
  refine ensures_bind (follow_path_told sorter L R d.1 d.2.1 d.2.2.1 d.2.2.2) fun e he => ?_
  refine ensures_map (unify_all_told sorter L R e.1 e.2.2.1 e.2.2.2) fun t ht => ?_
  have hall := told_trans hd (told_trans he (told_trans ht (unify_invoke_told sorter t Lb Rb)))
  exact told_trans hall (told_log _ rfl)

theorem diff_block_told (s : Fde) (l r : ℕ) :
    Tells s.events (diffBlock sorter L R s l r) Fde.events := by
  unfold diffBlock
  refine ensures_bind (scan_told sorter _ (L.block l) (R.block r)) fun d hd => ?_
  have hbody : Tells d.2.events
      (if d.1 = true then
        runBlockDiff sorter L R { d.2 with TentativeValues := [] } (L.block l) (R.block r)
      else unifyAll sorter L R { d.2 with TentativeValues := [] } (L.block l) (R.block r))
      Fde.events := by
    split_ifs
    · exact run_block_diff_told sorter L R _ _ _
    · exact unify_all_told sorter L R _ _ _
  exact ensures_map hbody fun t ht => told_context _ _ (told_trans hd ht)

theorem process_queue_told (fuel : ℕ) (s : Fde) :
    Tells s.events (processQueue sorter L R fuel s) Fde.events := by
  induction fuel generalizing s with
  | zero =>
    rw [processQueue]
    split
    · exact told_refl _
    · trivial
  | succ fuel ih =>
    rw [processQueue]
    split
    · exact told_refl _
    · exact ensures_bind (diff_block_told sorter L R _ _ _) fun t ht =>
        ensures_mono (ih t) fun u hu => told_trans ht hu

theorem diff_bodies_told (events : List Event) :
    Tells events (diffBodies sorter L R events) Fde.events := by
  unfold diffBodies
  have hargs : Told events
      (if L.args ≠ R.args then (newFde events).tell (.log "different argument counts")
        else newFde events).events := by
    split_ifs
    · exact told_log _ rfl
    · exact told_refl _
  exact ensures_mono (process_queue_told sorter L R _ _) fun u hu =>
    told_trans hargs (told_trans (try_unify_told sorter (mapArguments L R _) 0 0) hu)

end Engine

theorem diff_functions_told (sorter : Fn → Sorter) (events : List Event) (L R : Fn) :
    Tells events (diffFunctions sorter events L R) id := by
  unfold diffFunctions
  refine ensures_map (P := fun es =>
    Told (.enterContext (.function L.name) (.function R.name) :: events) es) ?_
    fun es hes => told_context _ _ hes
  split_ifs
  · exact told_refl _
  · exact told_log _ rfl
  · exact told_log _ rfl
  · exact ensures_map (diff_bodies_told (sorter L) L R _) fun s hs => hs

theorem diff_modules_told (sorter : Fn → Sorter) (L R : List Fn) :
    Tells [] (diffModules sorter L R) id := by
  unfold diffModules
  -- both loops over the names log once for a function that fails a test
  have names : ∀ (ok : Fn → Prop) [DecidablePred ok] (text : String) (fs : List Fn)
      (es : List Event), Told es
        (fs.foldl (fun events f => if ok f then events else .log text :: events) es) := by
    intro ok _ text fs
    induction fs with
    | nil => exact told_refl
    | cons f fs ih =>
      intro es
      rw [List.foldl_cons]
      refine told_trans ?_ (ih _)
      split_ifs
      · exact told_refl _
      · exact told_log _ rfl
  have pairs : ∀ (Queue : List (Fn × Fn)) (es : List Event), Tells es
      (Queue.foldlM (fun events p => diffFunctions sorter events p.1 p.2) es) id := by
    intro Queue
    induction Queue with
    | nil => exact told_refl
    | cons p Queue ih =>
      intro es
      rw [List.foldlM_cons]
      exact ensures_bind (diff_functions_told sorter es p.1 p.2) fun t ht =>
        ensures_mono (ih t) fun u hu => told_trans ht hu
  exact ensures_mono (pairs _ _) fun es hes =>
    told_trans (names (fun f => (getFunction R f.name).isSome = true) _ L [])
      (told_trans (names (fun f => f.name ∈ L.map Fn.name) _ R _) hes)

/-- After a comparison of two modules every context is closed again. The recorded
identifiers are those of the left blocks in whose context something was logged, and the
exit status tells whether anything was logged inside a function: a function that only one
module has is reported to nobody but the reader. -/
theorem module_report_exact (lookup : String × ℕ → ℕ) (sorter : Fn → Sorter) (L R : List Fn)
    (es : List Event) (h : diffModules sorter L R = .ok es) :
    ∃ c, consume lookup es = some c ∧ c.contexts = [] ∧ c.Indent = 0 ∧
      (∀ id, id ∈ c.DiffIdSet ↔ ∃ fn b, LoggedIn (.block fn b) es ∧ lookup (fn, b) = id) ∧
      (hadDifferences c = true ↔ LoggedInside es) := by
  obtain ⟨seg, hb, hes⟩ := ensures_value (diff_modules_told sorter L R) h
  obtain rfl : es = seg := by simpa using hes
  have hsome := balanced_consume hb lookup [] rfl
  rw [List.append_nil] at hsome
  obtain ⟨c, hc⟩ := Option.isSome_iff_exists.mp hsome
  have hf := consume_faithful es hc
  have hopen : openPlaces es = [] := by simpa [openPlaces] using balanced_open hb []
  have hcontexts : c.contexts = [] := by simpa [hopen] using hf.places
  refine ⟨c, hc, hcontexts, by rw [hf.indent, hcontexts]; rfl, hf.ids, ?_⟩
  rw [← hf.flag, hadDifferences, hcontexts]
  simp

/-- `f` leaves at once on the left and cannot go on on the right; `g` is missing there. -/
def leftPair : List Fn := [⟨"f", 0, [[⟨0, false, .other 1 []⟩]]⟩, ⟨"g", 0, []⟩]
def rightPair : List Fn := [⟨"f", 0, [[⟨0, false, .unreachable⟩]]⟩]

def pairEvents : List Event :=
  [.exitContext, .exitContext,
    .logd [.right (.inst .unreachable 0), .left (.inst (.other 1) 0)],
    .enterContext (.block "f" 0) (.block "f" 0),
    .enterContext (.function "f") (.function "f"),
    .log "function %l exists only in left module"]

/-- The block of `f` is the one target and the missing `g` counts for nothing. -/
theorem module_report_exact_pair : diffModules queueSorter leftPair rightPair = .ok pairEvents ∧
    ∃ c, consume (fun b => b.2+7) pairEvents = some c ∧ 7 ∈ c.DiffIdSet ∧
      hadDifferences c = true := by
  have hrun : diffModules queueSorter leftPair rightPair = .ok pairEvents := by decide +kernel
  obtain ⟨c, hc, _, _, hids, hflag⟩ :=
    module_report_exact (fun b => b.2+7) queueSorter leftPair rightPair pairEvents hrun
  have hlogged : LoggedIn (.block "f" 0) pairEvents :=
    ⟨[.exitContext, .exitContext], _, _, rfl, rfl, by decide⟩
  exact ⟨hrun, c, hc, (hids 7).mpr ⟨"f", 0, hlogged, rfl⟩, hflag.mpr ⟨_, hlogged⟩⟩

end Parmesan.DiffReport
