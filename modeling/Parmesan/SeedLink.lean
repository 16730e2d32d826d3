import Parmesan.BranchesModel
import Parmesan.DepotRun
import Parmesan.TrackList

/-!
# Entries and their seeds

`do_if_has_new` saves an input, tracks it and adds the conditions found, then a
pseudo condition for the AFL search. The workers fetch the seed of an entry by
its field `belong`. Beside the queue the model records which input each entry
and each copy came from; nothing reads that record but the statements.
-/

set_option autoImplicit false

namespace Parmesan.SeedLink
open Parmesan.CondModel Parmesan.DepotModel Parmesan.BranchesModel Parmesan.Execution
open Parmesan.CfgModel (Library ControlFlowGraph)

abbrev Seed := ℕ × List UInt8

structure Job where
  seed : Seed
  speed : ℕ
  edgeNum : ℕ

inductive Stage where
  | idle
  | tracking (job : Job)
  | adding (job : Job)

/-- `inputs` is the directory of inputs by id; `source` and `heldSource` are the record. -/
structure Session (ι : Type) where
  depot : Depot ι
  inputs : List (List UInt8)
  numHangs : ℕ
  numCrashes : ℕ
  stage : ι → Stage
  source : Key → Seed
  heldSource : ι → Seed

variable {ι : Type}

def newSession : Session ι where
  depot := emptyDepot
  inputs := []
  numHangs := 0
  numCrashes := 0
  stage := fun _ => .idle
  source := fun _ => (0, [])
  heldSource := fun _ => (0, [])

def save (s : Session ι) (buf : List UInt8) : StatusType → Session ι × ℕ
  | .normal => ({ s with inputs := s.inputs ++ [buf] }, s.inputs.length)
  | .timeout => ({ s with numHangs := s.numHangs+1 }, s.numHangs)
  | .crash => ({ s with numCrashes := s.numCrashes+1 }, s.numCrashes)
  | .skip => (s, 0)
  | .error => (s, 0)

def getInputBuf (s : Session ι) (id : ℕ) : Option (List UInt8) := s.inputs[id]?

/-- One execution as `do_if_has_new` finds it: the answers of `has_new`, the
measured speed and its ratio to the average, and the run without memory limit. -/
structure Executed where
  buf : List UInt8
  status : StatusType
  hasNewPath : Bool
  hasNewEdge : Bool
  edgeNum : ℕ
  speed : ℕ
  speedRatio : ℕ
  unlimited : StatusType
  unlimitedNew : Bool

def isSlow (e : Executed) (id : ℕ) : Bool :=
  (!e.hasNewEdge && 10 < e.speedRatio && 10 < id) || (25 < e.speedRatio && 10 < id)

variable [DecidableEq ι]

/-- `do_if_has_new` up to the call of `track`. -/
def doIfHasNew (s : Session ι) (w : ι) (e : Executed) : Session ι :=
  if e.hasNewPath then
    let saved := save s e.buf e.status
    if e.status = .normal then
      if isSlow e saved.2 then saved.1
      else if e.unlimited ≠ .normal then
        if e.unlimitedNew then (save saved.1 e.buf e.unlimited).1 else saved.1
      else
        { saved.1 with stage :=
            Function.update s.stage w (.tracking ⟨(saved.2, e.buf), e.speed, e.edgeNum⟩) }
    else saved.1
  else s

/-- `get_afl_cond`; what it does not set is zero. -/
def getAflCond (id speed edgeNum : ℕ) : CondStmt where
  base := ⟨id % 2^32, 0, 0, 0, 0, 0, 0, COND_AFL_OP, 0, 0, 0, edgeNum, 0⟩
  offsets := []
  offsetsOpt := []
  vars := []
  speed := speed
  isDesirable := true
  state := .offset

/-- Whether `add_entries` stores the new condition itself. -/
def takesOver (q : Queue) (c : CondStmt) : Bool :=
  c.isDesirable &&
    match q.lookup (keyOf c) with
    | some v => !isDone v.1 && v.1.base.condition = c.base.condition && c.speed < v.1.speed
    | none => true

def addFrom (seed : Seed) (s : Session ι) (c : CondStmt × ℕ) : Session ι :=
  { s with
    depot := addOne s.depot c
    source := if takesOver s.depot.queue c.1
      then Function.update s.source (keyOf c.1) seed else s.source }

inductive Event (ι : Type) where
  | execute (w : ι) (e : Executed)
  | track (w : ι) (status : StatusType) (g : ControlFlowGraph) (parsed : List CondStmt)
      (distance : CondStmt → ℕ)
  | addAfl (w : ι) (distance : ℕ)
  | get (w : ι) (key : Key)
  | search (w : ι) (cond : CondStmt)
  | update (w : ι) (distance : ℕ)

/-- The list `track` returns; it is empty when the tracking run did not end normally. -/
def trackConds (lib : Library) (status : StatusType) (g : ControlFlowGraph)
    (parsed : List CondStmt) (job : Job) : Option (List CondStmt) :=
  if status = .normal then
    (TrackList.track lib g job.seed.1 job.seed.2 job.speed parsed).map Prod.snd
  else some []

/-- The executors and the workers take their steps in any order; each step
holds the lock of the queue. A search changes neither the key nor `belong`. -/
def next (lib : Library) (enableAfl : Bool) (s : Session ι) : Event ι → Option (Session ι)
  | .execute w e =>
    match s.stage w with
    | .idle => some (doIfHasNew s w e)
    | _ => none
  | .track w status g parsed distance =>
    match s.stage w with
    | .tracking job =>
      (trackConds lib status g parsed job).map fun conds =>
        let stage := if conds ≠ [] ∧ enableAfl then Stage.adding job else .idle
        { (conds.map fun c => (c, distance c)).foldl (addFrom job.seed) s with
          stage := Function.update s.stage w stage }
    | _ => none
  | .addAfl w distance =>
    match s.stage w with
    | .adding job =>
      some { addFrom job.seed s (getAflCond job.seed.1 job.speed job.edgeNum, distance) with
        stage := Function.update s.stage w .idle }
    | _ => none
  | .get w key =>
    (DepotModel.next s.depot (.get w key)).map fun d =>
      { s with depot := d, heldSource := Function.update s.heldSource w (s.source key) }
  | .search w cond =>
    if (s.depot.held w).map (fun c => c.base.belong) = some cond.base.belong then
      (DepotModel.next s.depot (.search w cond)).map fun d => { s with depot := d }
    else none
  | .update w distance =>
    (s.depot.held w).bind fun cond =>
      (DepotModel.next s.depot (.update w distance)).map fun d =>
        { s with
          depot := d
          source := if (s.depot.queue.lookup (keyOf cond)).isSome
            then Function.update s.source (keyOf cond) (s.heldSource w) else s.source }

/-- The field `belong` is the id of the seed, and leads to its bytes. -/
def Fetches (s : Session ι) (c : CondStmt) (seed : Seed) : Prop :=
  c.base.belong = seed.1 ∧ getInputBuf s c.base.belong = some seed.2

def Linked (s : Session ι) : Prop :=
  (∀ key x, s.depot.queue.lookup key = some x → Fetches s x.1 (s.source key)) ∧
    ∀ w c, s.depot.held w = some c → Fetches s c (s.heldSource w)

def LowId : Stage → Prop
  | .tracking job => job.seed.1 < 2^32
  | _ => True

def FirstId : Stage → Prop
  | .adding job => job.seed.1 = 0
  | _ => True

/-- No input is numbered past 32 bits, and no pseudo condition is made for an
input other than the first. -/
def Numbered (s : Session ι) : Event ι → Prop
  | .track w _ _ _ _ => LowId (s.stage w)
  | .addAfl w _ => FirstId (s.stage w)
  | _ => True

instance : (stage : Stage) → Decidable (LowId stage)
  | .idle => instDecidableTrue
  | .tracking job => inferInstanceAs (Decidable (job.seed.1 < 2^32))
  | .adding _ => instDecidableTrue

instance : (stage : Stage) → Decidable (FirstId stage)
  | .idle => instDecidableTrue
  | .tracking _ => instDecidableTrue
  | .adding job => inferInstanceAs (Decidable (job.seed.1 = 0))

instance (s : Session ι) : (e : Event ι) → Decidable (Numbered s e)
  | .track w _ _ _ _ => inferInstanceAs (Decidable (LowId (s.stage w)))
  | .addAfl w _ => inferInstanceAs (Decidable (FirstId (s.stage w)))
  | .execute _ _ => instDecidableTrue
  | .get _ _ => instDecidableTrue
  | .search _ _ => instDecidableTrue
  | .update _ _ => instDecidableTrue

theorem add_entry_lookup {q : Queue} {c : CondStmt} {distance : ℕ} {key : Key}
    {x : CondStmt × QPriority} (h : (addEntry q c distance).1.lookup key = some x) :
    (takesOver q c = true ∧ key = keyOf c ∧ x.1 = c) ∨
      (takesOver q c = true → key ≠ keyOf c) ∧
        ∃ v, q.lookup key = some v ∧ x.1.base.belong = v.1.base.belong := by
  by_cases hkey : key = keyOf c
  · subst hkey
    unfold addEntry at h
    unfold takesOver
    cases hdes : c.isDesirable with
    | false =>
      rw [hdes] at h
      exact Or.inr ⟨by simp, x, h, rfl⟩
    | true =>
      rw [hdes] at h
      cases hv : q.lookup (keyOf c) with
      | none =>
        simp only [hv, if_true, AList.lookup_insert, Option.some.injEq] at h
        exact Or.inl ⟨rfl, rfl, by rw [← h]⟩
      | some v =>
        simp only [hv, if_true] at h
        split_ifs at h with hdone hcond hspeed
        · obtain rfl : v = x := by simpa [hv] using h
          exact Or.inr ⟨by simp [hdone], v, rfl, rfl⟩
        · simp only [AList.lookup_insert, Option.some.injEq] at h
          exact Or.inr ⟨by simp [hcond], v, rfl, by rw [← h]; rfl⟩
        · simp only [AList.lookup_insert, Option.some.injEq] at h
          exact Or.inl ⟨by simp_all, rfl, by rw [← h]⟩
        · obtain rfl : v = x := by simpa [hv] using h
          exact Or.inr ⟨by simp [hspeed], v, rfl, rfl⟩
  · refine Or.inr ⟨fun _ => hkey, x, ?_, rfl⟩
    unfold addEntry at h
    cases hv : q.lookup (keyOf c) with
    | none =>
      simp only [hv] at h
      split_ifs at h
      · rwa [AList.lookup_insert_ne hkey] at h
      · exact h
    | some v =>
      simp only [hv] at h
      split_ifs at h
      · exact h
      · rwa [AList.lookup_insert_ne hkey] at h
      · rwa [AList.lookup_insert_ne hkey] at h
      · exact h
      · exact h

theorem get_entry_lookup {q q' : Queue} {key : Key} {x : CondStmt × QPriority}
    (h : getEntry q key = some (x, q')) :
    q.lookup key = some x ∧ ∀ k y, q'.lookup k = some y →
      ∃ z, q.lookup k = some z ∧ y.1 = z.1 := by
  obtain ⟨hx, -, rfl⟩ := get_entry_cases h
  refine ⟨hx, ?_⟩
  intro k y hy
  split_ifs at hy
  · exact ⟨y, hy, rfl⟩
  · by_cases hk : k = key
    · subst hk
      rw [AList.lookup_insert] at hy
      obtain rfl := Option.some.inj hy
      exact ⟨x, hx, rfl⟩
    · rw [AList.lookup_insert_ne hk] at hy
      exact ⟨y, hy, rfl⟩

structure Inv (s : Session ι) : Prop where
  linked : Linked s
  jobs : ∀ w job, s.stage w = .tracking job ∨ s.stage w = .adding job →
    getInputBuf s job.seed.1 = some job.seed.2

variable {s s' : Session ι}

omit [DecidableEq ι] in
theorem inv_start : Inv (newSession : Session ι) := by
  refine ⟨⟨?_, ?_⟩, ?_⟩
  · intro key x hx
    cases hx
  · intro w c hc
    cases hc
  · rintro w job (hw | hw)
    · cases hw
    · cases hw

omit [DecidableEq ι] in
theorem fetches_mono {c : CondStmt} {seed : Seed}
    (hin : ∀ id buf, getInputBuf s id = some buf → getInputBuf s' id = some buf)
    (h : Fetches s c seed) : Fetches s' c seed := ⟨h.1, hin _ _ h.2⟩

omit [DecidableEq ι] in
theorem linked_mono (hdepot : s'.depot = s.depot) (hsource : s'.source = s.source)
    (hheld : s'.heldSource = s.heldSource)
    (hin : ∀ id buf, getInputBuf s id = some buf → getInputBuf s' id = some buf)
    (h : Linked s) : Linked s' := by
  refine ⟨?_, ?_⟩
  · intro key x hx
    rw [hsource]
    rw [hdepot] at hx
    exact fetches_mono hin (h.1 key x hx)
  · intro w c hc
    rw [hheld]
    rw [hdepot] at hc
    exact fetches_mono hin (h.2 w c hc)

omit [DecidableEq ι] in
theorem save_spec (s : Session ι) (buf : List UInt8) (status : StatusType) :
    (save s buf status).1.depot = s.depot ∧ (save s buf status).1.source = s.source ∧
    (save s buf status).1.heldSource = s.heldSource ∧ (save s buf status).1.stage = s.stage ∧
    ∀ id b, getInputBuf s id = some b → getInputBuf (save s buf status).1 id = some b := by
  cases status with
  | normal =>
    refine ⟨rfl, rfl, rfl, rfl, ?_⟩
    intro id b h
    obtain ⟨hlt, -⟩ := List.getElem?_eq_some_iff.mp h
    show (s.inputs ++ [buf])[id]? = some b
    rw [List.getElem?_append_left hlt]
    exact h
  | timeout => exact ⟨rfl, rfl, rfl, rfl, fun _ _ h => h⟩
  | crash => exact ⟨rfl, rfl, rfl, rfl, fun _ _ h => h⟩
  | skip => exact ⟨rfl, rfl, rfl, rfl, fun _ _ h => h⟩
  | error => exact ⟨rfl, rfl, rfl, rfl, fun _ _ h => h⟩

omit [DecidableEq ι] in
theorem save_inv (hs : Inv s) (buf : List UInt8) (status : StatusType) :
    Inv (save s buf status).1 := by
  obtain ⟨hdepot, hsource, hheld, hstage, hin⟩ := save_spec s buf status
  refine ⟨linked_mono hdepot hsource hheld hin hs.linked, ?_⟩
  intro w job hw
  rw [hstage] at hw
  exact hin _ _ (hs.jobs w job hw)

theorem stage_inv (hs : Inv s) (w : ι) (stage : Stage)
    (hstage : ∀ job, stage = .tracking job ∨ stage = .adding job →
      getInputBuf s job.seed.1 = some job.seed.2) :
    Inv { s with stage := Function.update s.stage w stage } := by
  refine ⟨hs.linked, ?_⟩
  intro w' job hw
  by_cases hne : w' = w
  · subst hne
    simp only [Function.update_self] at hw
    exact hstage job hw
  · simp only [Function.update_of_ne hne] at hw
    exact hs.jobs w' job hw

theorem do_if_has_new_inv (hs : Inv s) (w : ι) (e : Executed) : Inv (doIfHasNew s w e) := by
  have hsaved := save_inv hs e.buf e.status
  simp only [doIfHasNew]
  split_ifs with hnew hnormal hslow hunlimited hfound
  · exact hsaved
  · exact save_inv hsaved e.buf e.unlimited
  · exact hsaved
  · have hstage := (save_spec s e.buf e.status).2.2.2.1
    rw [← hstage]
    apply stage_inv hsaved
    rintro job (hjob | hjob)
    · cases hjob
      rw [hnormal]
      show (s.inputs ++ [e.buf])[s.inputs.length]? = some e.buf
      simp
    · cases hjob
  · exact hsaved
  · exact hs

omit [DecidableEq ι] in
theorem add_from_linked {seed : Seed} {c : CondStmt × ℕ} (hc : Fetches s c.1 seed)
    (h : Linked s) : Linked (addFrom seed s c) := by
  refine ⟨?_, h.2⟩
  intro key x hx
  show Fetches s x.1 ((if takesOver s.depot.queue c.1 then
    Function.update s.source (keyOf c.1) seed else s.source) key)
  rcases add_entry_lookup hx with ⟨htake, rfl, hxc⟩ | ⟨hkey, v, hv, hbelong⟩
  · rw [if_pos htake, Function.update_self, hxc]
    exact hc
  · have hsource : (if takesOver s.depot.queue c.1 then
        Function.update s.source (keyOf c.1) seed else s.source) key = s.source key := by
      split_ifs with htake
      · exact Function.update_of_ne (hkey htake) _ _
      · rfl
    rw [hsource]
    have hold := h.1 key v hv
    unfold Fetches at hold ⊢
    rw [hbelong]
    exact hold

omit [DecidableEq ι] in
theorem add_all_linked {seed : Seed} (conds : List (CondStmt × ℕ))
    (hc : ∀ c ∈ conds, Fetches s c.1 seed) (h : Linked s) :
    Linked (conds.foldl (addFrom seed) s) ∧ (conds.foldl (addFrom seed) s).inputs = s.inputs ∧
      (conds.foldl (addFrom seed) s).stage = s.stage := by
  induction conds generalizing s with
  | nil => exact ⟨h, rfl, rfl⟩
  | cons c conds ih =>
    have hone := add_from_linked (hc c List.mem_cons_self) h
    exact @ih (addFrom seed s c) (fun d hd => hc d (List.mem_cons_of_mem _ hd)) hone

theorem track_inv {lib : Library} {w : ι} {job : Job} {status : StatusType}
    {g : ControlFlowGraph} {parsed conds : List CondStmt} {distance : CondStmt → ℕ} {stage : Stage}
    (hs : Inv s) (hjob : s.stage w = .tracking job) (hid : job.seed.1 < 2^32)
    (hconds : trackConds lib status g parsed job = some conds)
    (hstage : stage = .adding job ∨ stage = .idle) :
    Inv { (conds.map fun c => (c, distance c)).foldl (addFrom job.seed) s with
      stage := Function.update s.stage w stage } := by
  have hbuf := hs.jobs w job (Or.inl hjob)
  have hbelong : ∀ c ∈ conds, c.base.belong = job.seed.1 := by
    unfold trackConds at hconds
    split_ifs at hconds
    · obtain ⟨⟨g', cs⟩, htrack, rfl⟩ := Option.map_eq_some_iff.mp hconds
      intro c hc
      rw [TrackList.track_belong htrack c hc, Nat.mod_eq_of_lt hid]
    · obtain rfl := Option.some.inj hconds
      exact fun c hc => absurd hc List.not_mem_nil
  have hfetch : ∀ c ∈ conds.map fun c => (c, distance c), Fetches s c.1 job.seed := by
    intro c hc
    obtain ⟨d, hd, rfl⟩ := List.mem_map.mp hc
    refine ⟨hbelong d hd, ?_⟩
    rw [hbelong d hd]
    exact hbuf
  obtain ⟨hlinked, hinputs, hstages⟩ := add_all_linked _ hfetch hs.linked
  have hin : ∀ id, getInputBuf ((conds.map fun c => (c, distance c)).foldl (addFrom job.seed) s) id =
      getInputBuf s id := by
    intro id
    rw [getInputBuf, hinputs, getInputBuf]
  rw [← hstages]
  apply stage_inv
  · refine ⟨hlinked, ?_⟩
    intro w' job' hw'
    rw [hstages] at hw'
    rw [hin]
    exact hs.jobs w' job' hw'
  · intro job' hjob'
    rw [hin]
    rcases hstage with rfl | rfl
    · rcases hjob' with hjob' | hjob'
      · cases hjob'
      · cases hjob'
        exact hbuf
    · rcases hjob' with hjob' | hjob'
      · cases hjob'
      · cases hjob'

theorem add_afl_inv {w : ι} {job : Job} {distance : ℕ} (hs : Inv s)
    (hjob : s.stage w = .adding job) (hid : job.seed.1 = 0) :
    Inv { addFrom job.seed s (getAflCond job.seed.1 job.speed job.edgeNum, distance) with
      stage := Function.update s.stage w .idle } := by
  have hfetch : Fetches s (getAflCond job.seed.1 job.speed job.edgeNum) job.seed := by
    refine ⟨hid.symm, ?_⟩
    have hbuf := hs.jobs w job (Or.inr hjob)
    rw [hid] at hbuf
    exact hbuf
  have hadded : Inv (addFrom job.seed s (getAflCond job.seed.1 job.speed job.edgeNum, distance)) :=
    ⟨add_from_linked hfetch hs.linked, hs.jobs⟩
  apply stage_inv hadded
  rintro job' (hjob' | hjob')
  · cases hjob'
  · cases hjob'

theorem get_inv {w : ι} {key : Key} {d : Depot ι} (hs : Inv s)
    (h : DepotModel.next s.depot (.get w key) = some d) :
    Inv { s with depot := d, heldSource := Function.update s.heldSource w (s.source key) } := by
  simp only [DepotModel.next] at h
  split_ifs at h
  obtain ⟨⟨x, q⟩, hget, rfl⟩ := Option.map_eq_some_iff.mp h
  obtain ⟨hx, hq⟩ := get_entry_lookup hget
  refine ⟨⟨?_, ?_⟩, hs.jobs⟩
  · intro k y hy
    obtain ⟨z, hz, hyz⟩ := hq k y hy
    rw [hyz]
    exact hs.linked.1 k z hz
  · intro w' c hc
    by_cases hne : w' = w
    · subst hne
      simp only [Function.update_self, Option.some.injEq] at hc ⊢
      subst hc
      exact hs.linked.1 key x hx
    · simp only [Function.update_of_ne hne] at hc ⊢
      exact hs.linked.2 w' c hc

theorem search_inv {w : ι} {cond : CondStmt} {d : Depot ι} (hs : Inv s)
    (hbelong : (s.depot.held w).map (fun c => c.base.belong) = some cond.base.belong)
    (h : DepotModel.next s.depot (.search w cond) = some d) : Inv { s with depot := d } := by
  obtain ⟨c, hc, hcb⟩ := Option.map_eq_some_iff.mp hbelong
  simp only [DepotModel.next, hc] at h
  split_ifs at h
  obtain rfl := Option.some.inj h
  refine ⟨⟨hs.linked.1, ?_⟩, hs.jobs⟩
  intro w' c' hc'
  by_cases hne : w' = w
  · subst hne
    simp only [Function.update_self, Option.some.injEq] at hc'
    subst hc'
    have hold := hs.linked.2 w' c hc
    unfold Fetches at hold ⊢
    rw [← hcb]
    exact hold
  · simp only [Function.update_of_ne hne] at hc'
    exact hs.linked.2 w' c' hc'

theorem update_inv {w : ι} {cond : CondStmt} {distance : ℕ} {d : Depot ι} (hs : Inv s)
    (hc : s.depot.held w = some cond)
    (h : DepotModel.next s.depot (.update w distance) = some d) :
    Inv { s with
      depot := d
      source := if (s.depot.queue.lookup (keyOf cond)).isSome
        then Function.update s.source (keyOf cond) (s.heldSource w) else s.source } := by
  simp only [DepotModel.next, hc, Option.map_some, Option.some.injEq] at h
  subst h
  have hheld : ∀ w' c', Function.update s.depot.held w none w' = some c' →
      Fetches s c' (s.heldSource w') := by
    intro w' c' hc'
    by_cases hne : w' = w
    · subst hne
      rw [Function.update_self] at hc'
      cases hc'
    · rw [Function.update_of_ne hne] at hc'
      exact hs.linked.2 w' c' hc'
  refine ⟨⟨?_, hheld⟩, hs.jobs⟩
  intro key x hx
  show Fetches s x.1 ((if (s.depot.queue.lookup (keyOf cond)).isSome
    then Function.update s.source (keyOf cond) (s.heldSource w) else s.source) key)
  replace hx : (updateEntry s.depot.queue cond distance).1.lookup key = some x := hx
  unfold updateEntry at hx
  cases hv : s.depot.queue.lookup (keyOf cond) with
  | none =>
    rw [hv] at hx
    exact hs.linked.1 key x hx
  | some v =>
    rw [hv] at hx
    rw [Option.isSome_some, if_pos rfl]
    by_cases hkey : key = keyOf cond
    · subst hkey
      rw [AList.lookup_insert] at hx
      obtain rfl := Option.some.inj hx
      rw [Function.update_self]
      exact hs.linked.2 w cond hc
    · rw [AList.lookup_insert_ne hkey] at hx
      rw [Function.update_of_ne hkey]
      exact hs.linked.1 key x hx

theorem next_inv {lib : Library} {enableAfl : Bool} (s : Session ι) (e : Event ι)
    (s' : Session ι) (hs : Inv s) (he : Numbered s e) (h : next lib enableAfl s e = some s') :
    Inv s' := by
  cases e with
  | execute w e =>
    simp only [next] at h
    split at h
    · obtain rfl := Option.some.inj h
      exact do_if_has_new_inv hs w e
    · cases h
  | track w status g parsed distance =>
    simp only [next] at h
    split at h
    next job hjob =>
      obtain ⟨conds, hconds, rfl⟩ := Option.map_eq_some_iff.mp h
      simp only [Numbered, hjob, LowId] at he
      apply track_inv hs hjob he hconds
      split_ifs
      · exact Or.inl rfl
      · exact Or.inr rfl
    next => cases h
  | addAfl w distance =>
    simp only [next] at h
    split at h
    next job hjob =>
      obtain rfl := Option.some.inj h
      simp only [Numbered, hjob, FirstId] at he
      exact add_afl_inv hs hjob he
    next => cases h
  | get w key =>
    obtain ⟨d, hd, rfl⟩ := Option.map_eq_some_iff.mp h
    exact get_inv hs hd
  | search w cond =>
    simp only [next] at h
    split_ifs at h with hbelong
    obtain ⟨d, hd, rfl⟩ := Option.map_eq_some_iff.mp h
    exact search_inv hs hbelong hd
  | update w distance =>
    obtain ⟨cond, hc, h⟩ := Option.bind_eq_some_iff.mp h
    obtain ⟨d, hd, rfl⟩ := Option.map_eq_some_iff.mp h
    exact update_inv hs hc hd

/-- In every interleaving of executors and workers in which no pseudo condition
is made for an input other than the first, the field `belong` of every entry and
of every copy leads to the input it came from. -/
theorem entries_fetch_seed (lib : Library) (enableAfl : Bool) (s : Session ι)
    (h : Reachable (next lib enableAfl) Numbered newSession s) : Linked s :=
  (reachable_invariant inv_start next_inv h).linked

def freshInput (b : UInt8) : Event Unit :=
  .execute () ⟨[b], .normal, true, true, 3, 100, 1, .normal, false⟩

def meets (cmpid : ℕ) : Event Unit :=
  .track () .normal (CfgModel.newGraph CfgModel.reference ⟨∅, [], []⟩)
    [⟨⟨cmpid, 0, 0, 1, 0, 0, 0, COND_ICMP_EQ_OP, 1, 1, 0, 65, 66⟩, [⟨false, 0, 1⟩], [], [66], 0, true,
      .offset⟩] fun _ => 7

theorem entries_fetch_seed_two_inputs : ∃ s : Session Unit,
    Reachable (next CfgModel.reference false) Numbered newSession s ∧
    (s.depot.queue.lookup (5, 0, 1)).map (fun x => x.1.base.belong) = some 1 ∧ Linked s := by
  have hrun : (replay (next CfgModel.reference false) Numbered newSession
      [freshInput 65, meets 4, .get () (4, 0, 1), freshInput 66, meets 5,
        .update () 7]).map
        (fun s => (s.depot.queue.lookup (5, 0, 1)).map fun x => x.1.base.belong) =
      some (some 1) := by decide +kernel
  obtain ⟨s, hs, hbelong⟩ := Option.map_eq_some_iff.mp hrun
  have hreach := replay_reachable _ _ _ hs
  exact ⟨s, hreach, hbelong, entries_fetch_seed CfgModel.reference false s hreach⟩

/-- The pseudo condition of the second input leads to the first. -/
theorem afl_entry_fetches_first : ∃ s : Session Unit,
    Reachable (next CfgModel.reference true) (fun _ _ => True) newSession s ∧ ¬Linked s := by
  have hrun : (replay (next CfgModel.reference true) (fun _ _ => True) newSession
      [freshInput 65, meets 4, .addAfl () 7, freshInput 66, meets 5, .addAfl () 7]).map
        (fun s => ((s.depot.queue.lookup (1, 0, 0)).map fun x => x.1.base.belong,
          s.source (1, 0, 0), getInputBuf s 0)) =
      some (some 0, (1, [66]), some [65]) := by decide +kernel
  obtain ⟨s, hs, hvalues⟩ := Option.map_eq_some_iff.mp hrun
  obtain ⟨hentry, hrest⟩ := Prod.mk.inj hvalues
  obtain ⟨x, hx, hbelong⟩ := Option.map_eq_some_iff.mp hentry
  refine ⟨s, replay_reachable _ _ _ hs, ?_⟩
  intro hlinked
  have hfetch := (hlinked.1 (1, 0, 0) x hx).1
  rw [hbelong, (Prod.mk.inj hrest).1] at hfetch
  cases hfetch

end Parmesan.SeedLink
