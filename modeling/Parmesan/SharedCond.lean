import Parmesan.SearchHistory

/-!
# The condition in shared memory

The fuzzer writes a condition into shared memory once in a search and only takes back the
mark of the last execution after that; the target writes the operands of the wanted
execution of the comparison, and the fuzzer reads the result. `objective` is the output
that belongs to the condition and one execution alone.
-/

set_option autoImplicit false

namespace Parmesan.SharedCond
open Parmesan.CondModel Parmesan.CondOutput Parmesan.DepotModel Parmesan.BranchesModel
open Parmesan.ExecutorModel Parmesan.SearchHistory
open Parmesan.TrackModel (Event orderKey)
open Parmesan.FastCounter

def occurrence (key : ℕ × ℕ) (n : ℕ) (events : List Event) : Option Event :=
  if 0 < n then (events.filter fun e => siteKey e = some key)[n-1]? else none

def measuredBy (cond : CondStmtBase) : Event → CondStmtBase
  | .cmp c => { cond with arg1 := c.arg1, arg2 := c.arg2, lb1 := c.condition }
  | .switch c => { cond with arg1 := c.condition, lb1 := if c.condition = cond.arg2 then 1 else 0 }
  | _ => cond

def objective (base : CondStmtBase) (events : List Event) : ℕ :=
  (occurrence (orderKey base) (base.order &&& 0xFFFF) events).elim UNREACHABLE
    fun e => getCondOutput (measuredBy base e)

section Target
variable {r : CondStmtBase} {s : ShmConds} {n : ℕ}

theorem check_match_cond (s : ShmConds) (cmpid context : ℕ) :
    (checkMatch s cmpid context).1.cond = s.cond := by
  unfold checkMatch
  split_ifs <;> rfl

theorem fast_step_cond (s : ShmConds) (e : Event) :
    (fastStep s e).1.cond = if (fastStep s e).2 = true then measuredBy s.cond e else s.cond := by
  cases e with
  | cmp c =>
    simp only [fastStep, fastCmp]
    split_ifs <;> simp_all [updateCmp, measuredBy, check_match_cond]
  | switch c =>
    simp only [fastStep, fastSwitch]
    split_ifs <;> simp_all [updateSwitch, measuredBy, check_match_cond]
  | fn c => rfl
  | exploit c => rfl
  | label op => rfl
  | lenLabel offset size => rfl

theorem quiet_cond (events : List Event) (s : ShmConds) (h : true ∉ flags s events) :
    (fastRun s events).cond = s.cond := by
  induction events generalizing s with
  | nil => rfl
  | cons e es ih =>
    rw [flags, List.mem_cons, not_or] at h
    rw [fastRun, ih _ h.2, fast_step_cond, if_neg fun hf => h.1 hf.symm]

theorem occurrence_other {key : ℕ × ℕ} {e : Event} (h : siteKey e ≠ some key) (n : ℕ)
    (es : List Event) : occurrence key n (e::es) = occurrence key n es := by
  simp [occurrence, h]

theorem occurrence_first {key : ℕ × ℕ} {e : Event} (h : siteKey e = some key) (es : List Event) :
    occurrence key 1 (e::es) = some e := by
  simp [occurrence, h]

theorem occurrence_later {key : ℕ × ℕ} {e : Event} (h : siteKey e = some key) {n : ℕ} (hn : n ≠ 1)
    (es : List Event) : occurrence key n (e::es) = occurrence key (n-1) es := by
  obtain _ | _ | n := n
  · rfl
  · exact absurd rfl hn
  · simp [occurrence, h]

theorem fired_cond {events : List Event} (hf : Fired r s) (ho : r.order &&& 0xFFFF < 0x8000)
    (hc : seen (orderKey r) events < 2^31) : (fastRun s events).cond = s.cond := by
  apply quiet_cond
  rw [fired_run events hf ho]
  omega

/-- The runtime that waits for `r` and has counted `n` executions measures the one that
brings the counter to the order of `r`. -/
theorem watching_cond (events : List Event) (s : ShmConds) (n : ℕ) (hw : Watching r s n)
    (ho : r.order &&& 0xFFFF < 0x8000) (hc : n+seen (orderKey r) events < 2^31) :
    (fastRun s events).cond =
      (occurrence (orderKey r) ((r.order &&& 0xFFFF)-n) events).elim s.cond
        (measuredBy s.cond) := by
  induction events generalizing s n with
  | nil => simp [fastRun, occurrence]
  | cons e es ih =>
    by_cases he : siteKey e = some (orderKey r)
    · rw [seen_cons_site he] at hc
      have hcond := fast_step_cond s e
      rcases fast_step_site hw he with ⟨hne, hflag, hw'⟩ | ⟨hn, hflag, hf⟩
      · rw [if_neg (by rw [hflag]; decide)] at hcond
        rw [fastRun, ih _ (n+1) hw' (by omega), occurrence_later he (by omega), hcond,
          show (r.order &&& 0xFFFF)-(n+1) = (r.order &&& 0xFFFF)-n-1 by omega]
      · rw [if_pos hflag] at hcond
        rw [fastRun, fired_cond hf ho (by omega), hcond,
          show (r.order &&& 0xFFFF)-n = 1 by omega, occurrence_first he]
        rfl
    · rw [seen_cons_other he] at hc
      rw [fastRun, watching_other hw he, ih s n hw hc, occurrence_other he]

end Target

/-! ## The two sides together -/

/-- Every comparison that runs in an execution or in the runs repeated after it. -/
def allEvents (a : Answer) : List Event := a.events ++ a.reruns.flatten ++ a.unlimited

def noCmp (key : ℕ × ℕ) (events : List Event) : Prop :=
  ∀ c, Event.cmp c ∈ events → (c.cmpid, c.context) ≠ key

/-- The comparison is executed less than `2^31` times in a run, and it is either a
comparison of two numbers or a switch. -/
structure Instrumented (W : World) (key : ℕ × ℕ) : Prop where
  count : ∀ log buf, seen key (W.answer log buf).events < 2^31
  kind : (∀ log buf, noCmp key (allEvents (W.answer log buf))) ∨
    ∀ log buf c, Event.switch c ∈ (W.answer log buf).events → (c.cmpid, c.context) ≠ key

/-- The shared record is `base` but for what the target writes; `switch` says that only
switches write it. -/
structure Holds (switch : Prop) (base shm : CondStmtBase) : Prop where
  same : shm = { base with level := 1, arg1 := shm.arg1, arg2 := shm.arg2, lb1 := shm.lb1 }
  arg2 : switch → shm.arg2 = base.arg2

theorem fast_run_level (events : List Event) (s : ShmConds) :
    (fastRun s events).cond.level = s.cond.level := by
  induction events generalizing s with
  | nil => rfl
  | cons e es ih =>
    rw [fastRun, ih, fast_step_cond]
    split_ifs
    · cases e <;> rfl
    · rfl

theorem holds_key {switch : Prop} {base shm : CondStmtBase} (h : Holds switch base shm) :
    orderKey shm = orderKey base := by
  rw [h.same]
  rfl

theorem holds_order {switch : Prop} {base shm : CondStmtBase} (h : Holds switch base shm) :
    shm.order = base.order := by
  rw [h.same]

theorem step_holds {switch : Prop} {base : CondStmtBase} {s : ShmConds} {e : Event}
    (h : Holds switch base s.cond) (he : switch → noCmp (orderKey base) [e]) :
    Holds switch base (fastStep s e).1.cond := by
  rw [fast_step_cond]
  split_ifs with hflag
  · have hkey : siteKey e = some (orderKey s.cond) := by
      by_contra hne
      rw [fast_step_other hne] at hflag
      cases hflag
    rw [holds_key h] at hkey
    cases e with
    | cmp c =>
      refine ⟨by rw [measuredBy, h.same], fun hs => ?_⟩
      exact absurd (Option.some.inj hkey) (he hs c (List.mem_singleton.mpr rfl))
    | switch c => exact ⟨by rw [measuredBy, h.same], h.arg2⟩
    | fn c => exact h
    | exploit c => exact h
    | label op => exact h
    | lenLabel offset size => exact h
  · exact h

theorem run_holds {switch : Prop} {base : CondStmtBase} (events : List Event) (s : ShmConds)
    (h : Holds switch base s.cond) (he : switch → noCmp (orderKey base) events) :
    Holds switch base (fastRun s events).cond := by
  induction events generalizing s with
  | nil => exact h
  | cons e es ih =>
    apply ih
    · exact step_holds h fun hs c hc => he hs c (by simp_all)
    · exact fun hs c hc => he hs c (List.mem_cons_of_mem e hc)

theorem children_holds {switch : Prop} {base : CondStmtBase} (runs : List (List Event))
    (shm : CondStmtBase) (h : Holds switch base shm)
    (he : switch → noCmp (orderKey base) runs.flatten) :
    Holds switch base (runs.foldl runChild shm) := by
  induction runs generalizing shm with
  | nil => exact h
  | cons events runs ih =>
    rw [List.flatten_cons] at he
    rw [List.foldl_cons]
    apply ih
    · exact run_holds events (reset shm) h fun hs c hc => he hs c (List.mem_append_left _ hc)
    · exact fun hs c hc => he hs c (List.mem_append_right _ hc)

theorem children_level (runs : List (List Event)) (shm : CondStmtBase) :
    (runs.foldl runChild shm).level = shm.level := by
  induction runs generalizing shm with
  | nil => rfl
  | cons events runs ih => rw [List.foldl_cons, ih, runChild, fast_run_level, reset]

section Executor
variable {switch : Prop} {base : CondStmtBase} {e : Executor} {a : Answer}

theorem do_if_has_new_holds (h : Holds switch base e.tConds)
    (ha : switch → noCmp (orderKey base) (allEvents a)) :
    Holds switch base (doIfHasNew e a).tConds := by
  have hreruns := children_holds a.reruns e.tConds h fun hs c hc =>
    ha hs c (List.mem_append_left _ (List.mem_append_right _ hc))
  have hunlimited := run_holds a.unlimited ⟨a.reruns.foldl runChild e.tConds, 0, 0⟩ hreruns
    fun hs c hc => ha hs c (List.mem_append_right _ hc)
  unfold doIfHasNew
  split_ifs
  · exact hunlimited
  · exact h
  · exact h

theorem do_if_has_new_level (e : Executor) (a : Answer) :
    (doIfHasNew e a).tConds.level = e.tConds.level := by
  unfold doIfHasNew
  split_ifs
  · simp only [runTarget, fast_run_level, children_level]
  · rfl
  · rfl

theorem check_timeout_shared (e : Executor) (status : StatusType) (c : Cond) :
    (checkTimeout e status c).1.tConds = e.tConds ∧
      (checkTimeout e status c).2.1.stmt.base = c.stmt.base := by
  unfold checkTimeout
  simp only
  split_ifs <;> exact ⟨rfl, rfl⟩

end Executor

section Output
variable {switch : Prop} {base shm : CondStmtBase}

theorem set_cond_holds {c : Cond}
    (h : shm.level = 0 ∧ c.stmt.base = base ∨ Holds switch base shm) :
    Holds switch base (setCond shm c) ∧ (setCond shm c).lb1 = 2^32-1 := by
  rcases h with ⟨hlevel, rfl⟩ | h
  · rw [setCond, if_pos hlevel]
    exact ⟨⟨rfl, fun _ => rfl⟩, rfl⟩
  · have hlevel : shm.level ≠ 0 := by
      rw [h.same]
      exact Nat.one_ne_zero
    rw [setCond, if_neg hlevel]
    exact ⟨⟨by rw [h.same], h.arg2⟩, rfl⟩

theorem occurrence_mem {key : ℕ × ℕ} {n : ℕ} {events : List Event} {e : Event}
    (h : occurrence key n events = some e) : e ∈ events ∧ siteKey e = some key := by
  unfold occurrence at h
  split_ifs at h
  simpa using List.mem_filter.mp (List.mem_of_getElem? h)

theorem output_measured {events : List Event} (h : Holds switch base shm)
    (hlb : shm.lb1 = 2^32-1) (ho : base.order &&& 0xFFFF < 0x8000)
    (hc : seen (orderKey base) events < 2^31)
    (hk : switch ∨ ∀ c, Event.switch c ∈ events → (c.cmpid, c.context) ≠ orderKey base) :
    getCondOutput (runChild shm events) = objective base events := by
  have hrun := watching_cond events (reset shm) 0 (reset_watching shm)
    (by rw [holds_order h]; exact ho) (by rw [holds_key h]; omega)
  rw [holds_key h, holds_order h, Nat.sub_zero] at hrun
  rw [runChild, hrun, objective]
  cases hocc : occurrence (orderKey base) (base.order &&& 0xFFFF) events with
  | none => simp [reset, getCondOutput, isCondReachable, hlb]
  | some e =>
    obtain ⟨hmem, hkey⟩ := occurrence_mem hocc
    simp only [Option.elim_some, reset]
    cases e with
    | cmp c =>
      rw [h.same]
      rfl
    | switch c =>
      have hs : switch := hk.resolve_right fun hno => hno c hmem (Option.some.inj hkey)
      have hsame : measuredBy shm (.switch c) =
          { measuredBy base (.switch c) with level := 1 } := by
        rw [measuredBy, h.arg2 hs]
        conv_lhs => rw [h.same, h.arg2 hs]
        rfl
      rw [hsame]
      rfl
    | fn c => cases hkey
    | exploit c => cases hkey
    | label op => cases hkey
    | lenLabel offset size => cases hkey

end Output

/-! ## Sessions -/

structure Shared (switch : Prop) (base : CondStmtBase) (h : SearchHandler) : Prop where
  shm : h.executor.tConds.level = 0 ∧ h.cond.stmt.base = base ∨ Holds switch base h.executor.tConds
  outputs : ∀ x ∈ h.log, ∀ f, x.output = some f → f = objective base x.answer.events

theorem finish_shared {switch : Prop} {base : CondStmtBase} {h : SearchHandler} {r : Ran}
    (hs : Shared switch base h) (x : Executed)
    (hshm : r.executor.tConds.level = 0 ∧ r.cond.stmt.base = base ∨
      Holds switch base r.executor.tConds)
    (hout : ∀ f, x.output = some f → f = objective base x.answer.events) :
    Shared switch base (finish h x r) := by
  refine ⟨hshm, ?_⟩
  intro y hy f hf
  obtain hy | hy := List.mem_append.mp (show y ∈ h.log ++ [x] from hy)
  · exact hs.outputs y hy f hf
  · rw [List.mem_singleton.mp hy] at hf ⊢
    exact hout f hf

variable {W : World} {base : CondStmtBase} {switch : Prop} {h : SearchHandler}

theorem execute_shared
    (hk : switch → ∀ log buf, noCmp (orderKey base) (allEvents (W.answer log buf))) (hs : Shared switch base h)
    (buf : List UInt8) : Shared switch base (execute W h buf) := by
  have hkind := fun hsw => hk hsw h.log buf
  have hshared := check_timeout_shared
    (doIfHasNew (runInner (runInit h.executor) (W.answer h.log buf)) (W.answer h.log buf))
    (W.answer h.log buf).status h.cond
  refine finish_shared hs _ ?_ fun f hf => by cases hf
  simp only [run, hshared.1, hshared.2]
  rcases hs.shm with ⟨hlevel, hbase⟩ | hholds
  · refine Or.inl ⟨?_, hbase⟩
    rw [do_if_has_new_level]
    exact (fast_run_level _ _).trans hlevel
  · refine Or.inr (do_if_has_new_holds ?_ hkind)
    exact run_holds _ _ hholds fun hsw c hc =>
      hkind hsw c (List.mem_append_left _ (List.mem_append_left _ hc))

theorem measure_shared (e : Executor) (c : Cond) (output : Option ℕ) :
    (measure e c output).1.tConds = e.tConds := by
  cases output with
  | none => rfl
  | some f =>
    have heq := congrArg Executor.tConds (check_invariable_spec e f (checkExplored c f).1).1
    exact heq

theorem execute_cond_shared (hi : Instrumented W (orderKey base))
    (ho : base.order &&& 0xFFFF < 0x8000)
    (hs : Shared (∀ log buf, noCmp (orderKey base) (allEvents (W.answer log buf))) base h) :
    Shared (∀ log buf, noCmp (orderKey base) (allEvents (W.answer log buf))) base
      (executeCondDirect W h).1 := by
  let a := W.answer h.log h.buf
  obtain ⟨hset, hlb⟩ := set_cond_holds hs.shm
  have hout : outputOf h.executor h.cond a = objective base a.events :=
    output_measured hset hlb ho (hi.count _ _) (hi.kind.imp id fun hno => hno _ _)
  have hrun : Holds (∀ log buf, noCmp (orderKey base) (allEvents (W.answer log buf))) base
      (measuring h.executor h.cond a).tConds :=
    run_holds a.events (reset _) hset fun hsw c hc =>
      hsw _ _ c (List.mem_append_left _ (List.mem_append_left _ hc))
  refine finish_shared hs _ (Or.inr ?_) fun f hf => ?_
  · rw [run_with_cond_eq, conclude, (check_timeout_shared _ _ _).1]
    refine do_if_has_new_holds ?_ fun hsw => hsw _ _
    rw [measure_shared]
    exact hrun
  · exact (Option.some.inj hf).symm.trans hout

/-- The executors that a worker goes through: the new one, the ones that have run inputs
of other fuzzers, and the ones whose search is over. -/
inductive Worker : Executor → Prop where
  | new : Worker newExecutor
  | sync {e : Executor} (a : Answer) : Worker e → Worker (runSync e a)
  | search {e : Executor} {W : World} (c : Cond) (buf : List UInt8) (limit : ℕ)
      {h : SearchHandler} : Worker e → Session W { newHandler e c buf with maxTimes := limit } h →
      Worker (updateLog h.executor)

/-- No search leaves anything behind for the next one. -/
theorem worker_clean {e : Executor} (h : Worker e) : Clean e := by
  induction h with
  | new => exact ⟨rfl, rfl, rfl, rfl⟩
  | sync a _ ih =>
    obtain ⟨-, -, htm, hlast, hinv⟩ := do_if_has_new_spec (runInner (runInit _) a) a
    refine ⟨?_, htm.trans ih.tmoutCnt, hinv.trans ih.invariableCnt, hlast.trans ih.lastF⟩
    exact (do_if_has_new_level _ _).trans ((fast_run_level _ _).trans ih.level)
  | search c buf limit _ _ _ => exact ⟨rfl, rfl, rfl, rfl⟩

/-- In every search of a worker, however its strategy goes on, the counters and flags of the
executor, of the handler and of the condition are what the history of executions says:
`skip` is up if and only if the search is spent. -/
theorem session_account {W : World} {e : Executor} {c : Cond} {buf : List UInt8} {limit : ℕ}
    (hw : Worker e) (hc : isDone c.stmt = false) {h : SearchHandler}
    (hs : Session W { newHandler e c buf with maxTimes := limit } h) : Account c limit h := by
  induction hs with
  | start => exact start_account buf limit (worker_clean hw) hc
  | plain buf _ ih => exact execute_account W ih buf
  | cond _ ih => exact execute_cond_account W ih
  | edit buf vars _ ih => exact account_edit ih buf vars

theorem session_shared {W : World} {e : Executor} {c : Cond} {buf : List UInt8} {limit : ℕ}
    (hw : Worker e) (ho : c.stmt.base.order &&& 0xFFFF < 0x8000)
    (hi : Instrumented W (orderKey c.stmt.base)) {h : SearchHandler}
    (hs : Session W { newHandler e c buf with maxTimes := limit } h) :
    Shared (∀ log buf, noCmp (orderKey c.stmt.base) (allEvents (W.answer log buf)))
      c.stmt.base h := by
  induction hs with
  | start => exact ⟨Or.inl ⟨(worker_clean hw).level, rfl⟩, fun x hx => absurd hx List.not_mem_nil⟩
  | plain buf _ ih => exact execute_shared (fun hsw => hsw) ih buf
  | cond _ ih => exact execute_cond_shared hi ho ih
  | edit buf vars _ ih => exact ⟨ih.shm, ih.outputs⟩

/-- In every search of a worker, whatever the target does and whatever was executed before,
an output is the objective of the condition as it was handed to the search, at the
execution of the comparison in that very run. -/
theorem session_outputs_measured {W : World} {e : Executor} {c : Cond} {buf : List UInt8}
    {limit : ℕ} (hw : Worker e) (ho : c.stmt.base.order &&& 0xFFFF < 0x8000)
    (hi : Instrumented W (orderKey c.stmt.base)) {h : SearchHandler}
    (hs : Session W { newHandler e c buf with maxTimes := limit } h) :
    ∀ x ∈ h.log, ∀ f, x.output = some f → f = objective c.stmt.base x.answer.events :=
  (session_shared hw ho hi hs).outputs

theorem normal_reported : StatusType.normal ≠ .skip := nofun

def tick (arg1 arg2 : ℕ) : Event :=
  .cmp ⟨7, 3, 0, 4, COND_ICMP_EQ_OP, arg1, arg2, COND_FALSE_ST, 1, 0⟩

def ticking : World where
  answer log buf :=
    { events := [tick 40 50, tick log.length buf.length]
      status := .normal
      reported := normal_reported
      hasNewPath := true
      reruns := [[]]
      unlimited := [tick 40 50] }
  running _ := true

def watched : Cond where
  stmt :=
    { base := ⟨7, 3, 0, 2, 0, COND_FALSE_ST, 0, COND_ICMP_EQ_OP, 4, 1, 0, 60, 70⟩
      offsets := []
      offsetsOpt := []
      vars := []
      speed := 0
      isDesirable := true
      state := .offset }
  isConsistent := true
  fuzzTimes := 0

def twice : SearchHandler :=
  let e := runSync newExecutor (ticking.answer [] [])
  (executeCondDirect ticking (executeCondDirect ticking (newHandler e watched [1, 2, 3])).1).1

theorem session_account_twice : Account watched 376 twice :=
  session_account (.sync _ .new) rfl (.cond (.cond .start))

theorem session_outputs_measured_twice :
    outputs twice.log = [3, 2] ∧ ∀ x ∈ twice.log, ∀ f, x.output = some f →
      f = objective watched.stmt.base x.answer.events := by
  refine ⟨by decide, ?_⟩
  apply session_outputs_measured (W := ticking) (c := watched) (.sync _ .new) (by decide) ?_
    (.cond (.cond .start))
  refine ⟨fun log buf => ?_, Or.inr fun log buf c hc => by simp [ticking, tick] at hc⟩
  exact lt_of_le_of_lt List.countP_le_length (by simp [ticking])

end Parmesan.SharedCond
