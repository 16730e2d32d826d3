import Parmesan.ExecutorModel
import Parmesan.Streak

/-!
# What a search has seen

The executor and the handler keep counters and flags only. Here they are read off the
history of a search: which executions came, how they ended and what they measured. A
session is any strategy that uses the handler, sets its buffer and remembers values.
-/

set_option autoImplicit false

namespace Parmesan.SearchHistory
open Parmesan.CondModel Parmesan.DepotModel Parmesan.BranchesModel Parmesan.ExecutorModel
open Parmesan.CondOutput (getCondOutput)
open Parmesan.Streak

def outputs (log : List Executed) : List ℕ := log.filterMap Executed.output

def isTmout (x : Executed) : Bool := x.answer.status = .timeout || x.answer.status = .error

def isNew (x : Executed) : Bool := x.answer.hasNewPath

def foundNew (status : StatusType) (x : Executed) : Bool := isNew x && x.answer.status = status

/-- The output that the next one is compared with. -/
def lastOutput (log : List Executed) : ℕ := (outputs log).getLastD UNREACHABLE

def Explored (log : List Executed) : Prop := 0 ∈ outputs log

def TimedOut (log : List Executed) : Prop := InRow isTmout TMOUT_SKIP log

/-- One output came back as often as the executor bears it. The first one is compared
with `UNREACHABLE`. -/
def Flat (log : List Executed) : Prop :=
  ∃ f, InRow (fun y => y = f) (MAX_INVARIABLE_NUM+1) (UNREACHABLE :: outputs log)

/-- At some time there were more executions than the limit with its bonus allows. -/
def OverBudget (limit : ℕ) (log : List Executed) : Prop :=
  ∃ p, p <+: log ∧ limit+BONUS_EXEC_NUM*p.countP isNew < p.length

/-- Why a search is to stop. The deterministic ones do not mind a flat output. -/
def Spent (searching : Bool) (limit : ℕ) (log : List Executed) : Prop :=
  Explored log ∨ TimedOut log ∨ (searching = true ∧ Flat log) ∨ OverBudget limit log

def searches (c : Cond) : Bool := !isDet c && !isOneByte c

section Snoc
variable (log : List Executed) (x : Executed)

theorem outputs_plain (h : x.output = none) : outputs (log ++ [x]) = outputs log := by
  simp [outputs, h]

theorem outputs_measured {f : ℕ} (h : x.output = some f) :
    outputs (log ++ [x]) = outputs log ++ [f] := by
  simp [outputs, h]

theorem last_output_plain (h : x.output = none) : lastOutput (log ++ [x]) = lastOutput log := by
  rw [lastOutput, outputs_plain log x h, lastOutput]

theorem last_output_measured {f : ℕ} (h : x.output = some f) : lastOutput (log ++ [x]) = f := by
  rw [lastOutput, outputs_measured log x h, List.getLastD_concat]

theorem timed_out_snoc :
    TimedOut (log ++ [x]) ↔ TimedOut log ∨ TMOUT_SKIP ≤ streak isTmout (log ++ [x]) :=
  in_row_snoc isTmout (by decide) log x

theorem over_budget_snoc (limit : ℕ) :
    OverBudget limit (log ++ [x]) ↔ OverBudget limit log ∨
      limit+BONUS_EXEC_NUM*(log ++ [x]).countP isNew < (log ++ [x]).length := by
  constructor
  · rintro ⟨p, hp, hlt⟩
    obtain rfl | hp := List.prefix_concat_iff.mp hp
    · exact Or.inr hlt
    · exact Or.inl ⟨p, hp, hlt⟩
  · rintro (⟨p, hp, hlt⟩ | hlt)
    · exact ⟨p, hp.trans (List.prefix_append log [x]), hlt⟩
    · exact ⟨_, List.prefix_rfl, hlt⟩

theorem flat_plain (h : x.output = none) : Flat (log ++ [x]) ↔ Flat log := by
  rw [Flat, outputs_plain log x h, Flat]

/-- Only the run of outputs that ends here can have become long enough. -/
theorem flat_measured {f : ℕ} (h : x.output = some f) :
    Flat (log ++ [x]) ↔ Flat log ∨
      MAX_INVARIABLE_NUM+1 ≤ streak (fun y => y = f) (UNREACHABLE :: outputs (log ++ [x])) := by
  rw [Flat, outputs_measured log x h, ← List.cons_append]
  constructor
  · rintro ⟨g, hg⟩
    obtain hg | hg := (in_row_snoc _ (by decide) _ _).mp hg
    · exact Or.inl ⟨g, hg⟩
    · by_cases hfg : f = g
      · rw [hfg] at hg ⊢
        exact Or.inr hg
      · rw [streak_miss _ _ (by simpa using hfg)] at hg
        exact absurd hg (by decide)
  · rintro (⟨g, hg⟩ | hf)
    · exact ⟨g, in_row_mono _ hg (List.prefix_append _ _).isInfix⟩
    · exact ⟨f, in_row_of_streak _ hf⟩

end Snoc

/-! ## One execution -/

/-- What `run_with_cond` does with the output before the path is looked at; `run` has no
output. The flag asks to skip. -/
def measure (e : Executor) (c : Cond) : Option ℕ → Executor × Cond × Bool
  | none => (e, c, false)
  | some output =>
    let explored := checkExplored c output
    let invariable := checkInvariable e output explored.1
    (invariable.1, checkConsistent invariable.1 output invariable.2.1,
      explored.2 || invariable.2.2)

def conclude (m : Executor × Cond × Bool) (a : Answer) : Ran :=
  let r := checkTimeout (doIfHasNew m.1 a) a.status m.2.1
  ⟨r.1, r.2.1, if m.2.2 then .skip else r.2.2⟩

def measuring (e : Executor) (c : Cond) (a : Answer) : Executor :=
  runInner { runInit e with tConds := setCond (runInit e).tConds c } a

def outputOf (e : Executor) (c : Cond) (a : Answer) : ℕ := getCondOutput (measuring e c a).tConds

theorem run_with_cond_eq (e : Executor) (c : Cond) (a : Answer) :
    runWithCond e c a =
      (conclude (measure (measuring e c a) c (some (outputOf e c a))) a, outputOf e c a) := rfl

def repeats (e : Executor) : Option ℕ → ℕ
  | none => e.invariableCnt
  | some f => if f = e.lastF then e.invariableCnt+1 else 0

structure Measured (e : Executor) (c : Cond) (output : Option ℕ) (m : Executor × Cond × Bool) :
    Prop where
  stats : m.1.localStats = e.localStats
  hasNewPath : m.1.hasNewPath = e.hasNewPath
  tmoutCnt : m.1.tmoutCnt = e.tmoutCnt
  lastF : m.1.lastF = output.getD e.lastF
  invariableCnt : m.1.invariableCnt = repeats e output
  done : isDone m.2.1.stmt = true ↔ isDone c.stmt = true ∨ output = some 0
  state : m.2.1.stmt.state = c.stmt.state
  offsets : output ≠ some 0 → m.2.1.stmt.offsets = c.stmt.offsets
  vars : m.2.1.stmt.vars =
    if output = some 0 ∧ isDone c.stmt = false then [] else c.stmt.vars
  desirable : m.2.1.stmt.isDesirable = true ↔ c.stmt.isDesirable = true ∧
    ¬ (output.isSome = true ∧ MAX_INVARIABLE_NUM ≤ repeats e output)
  skip : m.2.2 = true ↔ (output = some 0 ∧ isDone c.stmt = false) ∨
    (output.isSome = true ∧ MAX_INVARIABLE_NUM ≤ repeats e output ∧ searches c = true)

theorem check_consistent_stmt (e : Executor) (output : ℕ) (c : Cond) :
    (checkConsistent e output c).stmt = c.stmt := by
  unfold checkConsistent
  split_ifs <;> rfl

theorem check_explored_spec (c : Cond) (output : ℕ) :
    (isDone (checkExplored c output).1.stmt = true ↔ isDone c.stmt = true ∨ output = 0) ∧
    (checkExplored c output).1.stmt.state = c.stmt.state ∧
    (output ≠ 0 → (checkExplored c output).1.stmt.offsets = c.stmt.offsets) ∧
    (checkExplored c output).1.stmt.vars =
      (if output = 0 ∧ isDone c.stmt = false then [] else c.stmt.vars) ∧
    (checkExplored c output).1.stmt.isDesirable = c.stmt.isDesirable ∧
    ((checkExplored c output).2 = true ↔ output = 0 ∧ isDone c.stmt = false) := by
  unfold checkExplored
  by_cases h0 : output = 0
  · cases hd : isDone c.stmt with
    | false => simp [h0, isDone, markAsDone]
    | true => simp [h0, hd]
  · simp [h0]

theorem check_invariable_spec (e : Executor) (f : ℕ) (c : Cond) :
    (checkInvariable e f c).1 = { e with invariableCnt := repeats e (some f), lastF := f } ∧
    isDone (checkInvariable e f c).2.1.stmt = isDone c.stmt ∧
    (checkInvariable e f c).2.1.stmt.state = c.stmt.state ∧
    (checkInvariable e f c).2.1.stmt.offsets = c.stmt.offsets ∧
    (checkInvariable e f c).2.1.stmt.vars = c.stmt.vars ∧
    ((checkInvariable e f c).2.1.stmt.isDesirable = true ↔
      c.stmt.isDesirable = true ∧ ¬ MAX_INVARIABLE_NUM ≤ repeats e (some f)) ∧
    ((checkInvariable e f c).2.2 = true ↔
      MAX_INVARIABLE_NUM ≤ repeats e (some f) ∧ searches c = true) := by
  unfold checkInvariable repeats searches
  by_cases hf : f = e.lastF
  · by_cases hn : MAX_INVARIABLE_NUM ≤ e.invariableCnt+1
    · simp [hf, hn, isDone]
    · simp [hf, hn]
  · simp [hf, MAX_INVARIABLE_NUM]

theorem measure_spec (e : Executor) (c : Cond) (output : Option ℕ) :
    Measured e c output (measure e c output) := by
  cases output with
  | none => constructor <;> simp [measure, repeats]
  | some f =>
    obtain ⟨hdone, hstate, hoffsets, hvars, hdesirable, hskip⟩ := check_explored_spec c f
    obtain ⟨he, hdone', hstate', hoffsets', hvars', hdesirable', hskip'⟩ :=
      check_invariable_spec e f (checkExplored c f).1
    have hsearches : searches (checkExplored c f).1 = searches c := by
      simp only [searches, isDet, isOneByte, hstate]
    constructor
    · simp [measure, he]
    · simp [measure, he]
    · simp [measure, he]
    · simp [measure, he]
    · simp [measure, he]
    · simp [measure, check_consistent_stmt, hdone', hdone]
    · simp [measure, check_consistent_stmt, hstate', hstate]
    · intro hf
      simp only [measure, check_consistent_stmt, hoffsets']
      exact hoffsets fun h0 => hf (congrArg some h0)
    · simp [measure, check_consistent_stmt, hvars', hvars]
    · simp [measure, check_consistent_stmt, hdesirable', hdesirable]
    · simp [measure, hskip, hskip', hsearches]

/-- How the timeouts are counted: the third in a row starts the counter again, gives the
condition up and asks to skip. -/
structure TimeoutsCounted (e : Executor) (x : Executed) (c : Cond)
    (r : Executor × Cond × StatusType) : Prop where
  executor : r.1 = { e with
    tmoutCnt := if isTmout x = true then (e.tmoutCnt+1) % TMOUT_SKIP else 0 }
  cond : r.2.1 = if isTmout x = true ∧ TMOUT_SKIP ≤ e.tmoutCnt+1 then toTimeout c else c
  skip : r.2.2 = .skip ↔ isTmout x = true ∧ TMOUT_SKIP ≤ e.tmoutCnt+1

theorem check_timeout_spec {e : Executor} (h : e.tmoutCnt < TMOUT_SKIP) (x : Executed) (c : Cond) :
    TimeoutsCounted e x c (checkTimeout e x.answer.status c) := by
  have hreported := x.answer.reported
  have hstatus : isTmout x = true ↔
      (if x.answer.status = .error then .timeout else x.answer.status) = StatusType.timeout := by
    unfold isTmout
    split_ifs with he <;> simp [he]
  unfold checkTimeout
  by_cases ht : isTmout x = true
  · simp only [if_pos (hstatus.mp ht)]
    by_cases hn : TMOUT_SKIP ≤ e.tmoutCnt+1
    · have hzero : (e.tmoutCnt+1) % TMOUT_SKIP = 0 := by
        rw [show e.tmoutCnt+1 = TMOUT_SKIP by omega, Nat.mod_self]
      constructor <;> simp [ht, hn, hzero]
    · have hsame : (e.tmoutCnt+1) % TMOUT_SKIP = e.tmoutCnt+1 := Nat.mod_eq_of_lt (by omega)
      constructor <;> simp [ht, hn, hsame, hstatus.mp ht]
  · simp only [if_neg fun hs => ht (hstatus.mpr hs)]
    constructor
    · simp [ht]
    · simp [ht]
    · refine iff_of_false ?_ fun hx => ht hx.1
      split_ifs
      · decide
      · exact hreported

/-! ## The counters and the history -/

structure Tallied (s : LocalStats) (log : List Executed) : Prop where
  numExec : s.numExec = log.length
  numInputs : s.numInputs = log.countP (foundNew .normal)
  numHangs : s.numHangs = log.countP (foundNew .timeout)
  numCrashes : s.numCrashes = log.countP (foundNew .crash)

structure Counted (e : Executor) (log : List Executed) : Prop where
  tallied : Tallied e.localStats log
  lastF : e.lastF = lastOutput log
  invariableCnt : e.invariableCnt+1 =
    streak (fun y => y = lastOutput log) (UNREACHABLE :: outputs log)
  tmoutCnt : e.tmoutCnt = streak isTmout log % TMOUT_SKIP

/-- What a search for `c0` has made of its condition and its handler. -/
structure Account (c0 : Cond) (limit : ℕ) (h : SearchHandler) : Prop where
  counted : Counted h.executor h.log
  maxTimes : h.maxTimes = limit+BONUS_EXEC_NUM*h.log.countP isNew
  skip : h.skip = true ↔ Spent (searches c0) limit h.log
  done : isDone h.cond.stmt = true ↔ Explored h.log
  timedOut : TimedOut h.log → h.cond.stmt.state = .timeout
  kept : ¬ TimedOut h.log → h.cond.stmt.state = c0.stmt.state
  offsets : ¬ Explored h.log → h.cond.stmt.offsets = c0.stmt.offsets
  desirable : h.cond.stmt.isDesirable = true ↔ c0.stmt.isDesirable = true ∧ ¬ Flat h.log

theorem streak_last (f : ℕ) (log : List Executed) (h : f ≠ lastOutput log) :
    streak (fun y => y = f) (UNREACHABLE :: outputs log) = 0 := by
  have hlast : (UNREACHABLE :: outputs log).getLast (List.cons_ne_nil _ _) = lastOutput log := by
    rw [lastOutput, List.getLastD_eq_getLast?]
    exact Option.some.inj ((List.getLast?_eq_some_getLast _).symm.trans List.getLast?_cons)
  rw [← List.dropLast_append_getLast (List.cons_ne_nil UNREACHABLE (outputs log)), hlast]
  exact streak_miss _ _ (by simpa using Ne.symm h)

theorem repeats_streak {e : Executor} {log : List Executed} (h : Counted e log) (x : Executed) :
    repeats e x.output+1 = streak (fun y => y = lastOutput (log ++ [x]))
      (UNREACHABLE :: outputs (log ++ [x])) := by
  cases hx : x.output with
  | none =>
    rw [last_output_plain log x hx, outputs_plain log x hx]
    exact h.invariableCnt
  | some f =>
    rw [last_output_measured log x hx, outputs_measured log x hx, ← List.cons_append,
      streak_hit _ _ (by simp), repeats, h.lastF]
    split_ifs with hf
    · rw [hf, h.invariableCnt]
    · rw [streak_last f log hf]

structure Started (e e' : Executor) : Prop where
  stats : e'.localStats = { e.localStats with numExec := e.localStats.numExec+1 }
  hasNewPath : e'.hasNewPath = false
  tmoutCnt : e'.tmoutCnt = e.tmoutCnt
  lastF : e'.lastF = e.lastF
  invariableCnt : e'.invariableCnt = e.invariableCnt

theorem do_if_has_new_spec (e : Executor) (a : Answer) :
    (doIfHasNew e a).localStats =
      (if a.hasNewPath then findNew e.localStats a.status else e.localStats) ∧
    (doIfHasNew e a).hasNewPath = (a.hasNewPath || e.hasNewPath) ∧
    (doIfHasNew e a).tmoutCnt = e.tmoutCnt ∧ (doIfHasNew e a).lastF = e.lastF ∧
    (doIfHasNew e a).invariableCnt = e.invariableCnt := by
  unfold doIfHasNew
  cases a.hasNewPath <;> simp

theorem tallied_snoc {s : LocalStats} {log : List Executed} (h : Tallied s log) (x : Executed) :
    Tallied (if isNew x then findNew { s with numExec := s.numExec+1 } x.answer.status
      else { s with numExec := s.numExec+1 }) (log ++ [x]) := by
  have hlen : s.numExec+1 = (log ++ [x]).length := by
    rw [h.numExec, List.length_append, List.length_singleton]
  by_cases hn : isNew x = true
  · rw [if_pos hn]
    cases hx : x.answer.status <;>
      exact ⟨hlen, by simp [findNew, foundNew, hn, hx, h.numInputs],
        by simp [findNew, foundNew, hn, hx, h.numHangs],
        by simp [findNew, foundNew, hn, hx, h.numCrashes]⟩
  · rw [if_neg hn]
    exact ⟨hlen, by simp [foundNew, hn, h.numInputs], by simp [foundNew, hn, h.numHangs],
      by simp [foundNew, hn, h.numCrashes]⟩

variable {e e' : Executor} {c : Cond} {log : List Executed} {x : Executed}

structure Concluded (e : Executor) (c : Cond) (log : List Executed) (x : Executed) (r : Ran) :
    Prop where
  counted : Counted r.executor (log ++ [x])
  hasNewPath : r.executor.hasNewPath = isNew x
  done : isDone r.cond.stmt = true ↔ isDone c.stmt = true ∨ x.output = some 0
  state : r.cond.stmt.state =
    if isTmout x = true ∧ TMOUT_SKIP ≤ e.tmoutCnt+1 then .timeout else c.stmt.state
  offsets : x.output ≠ some 0 → r.cond.stmt.offsets = c.stmt.offsets
  vars : r.cond.stmt.vars =
    if x.output = some 0 ∧ isDone c.stmt = false then [] else c.stmt.vars
  desirable : r.cond.stmt.isDesirable = true ↔ c.stmt.isDesirable = true ∧
    ¬ (x.output.isSome = true ∧ MAX_INVARIABLE_NUM ≤ repeats e x.output)
  skip : r.status = .skip ↔ (x.output = some 0 ∧ isDone c.stmt = false) ∨
    (x.output.isSome = true ∧ MAX_INVARIABLE_NUM ≤ repeats e x.output ∧ searches c = true) ∨
    (isTmout x = true ∧ TMOUT_SKIP ≤ e.tmoutCnt+1)

theorem conclude_field {β : Type} {f : Cond → β} (hf : ∀ c, f (toTimeout c) = f c)
    (m : Executor × Cond × Bool) (a : Answer) : f (conclude m a).cond = f m.2.1 := by
  simp only [conclude, checkTimeout]
  split_ifs <;> first | exact hf _ | rfl

theorem conclude_spec (h : Counted e log) (hs : Started e e') (c : Cond) (x : Executed) :
    Concluded e c log x (conclude (measure e' c x.output) x.answer) := by
  have hm := measure_spec e' c x.output
  have hrep : repeats e' x.output = repeats e x.output := by
    cases x.output with
    | none => exact hs.invariableCnt
    | some f => simp only [repeats, hs.lastF, hs.invariableCnt]
  obtain ⟨hstats, hpath, htm, hlast, hinv⟩ := do_if_has_new_spec (measure e' c x.output).1 x.answer
  rw [hm.tmoutCnt, hs.tmoutCnt] at htm
  have hlt : (doIfHasNew (measure e' c x.output).1 x.answer).tmoutCnt < TMOUT_SKIP := by
    rw [htm, h.tmoutCnt]
    exact Nat.mod_lt _ (by decide)
  have ht := check_timeout_spec hlt x (measure e' c x.output).2.1
  have hcond := ht.cond
  have hskip := ht.skip
  rw [htm] at hcond hskip
  have hexec : (conclude (measure e' c x.output) x.answer).executor = _ := ht.executor
  constructor
  · rw [hexec]
    constructor
    · rw [hstats.trans (by rw [hm.stats, hs.stats])]
      exact tallied_snoc h.tallied x
    · simp only [hlast, hm.lastF, hs.lastF, h.lastF]
      cases hx : x.output with
      | none => rw [last_output_plain log x hx, Option.getD_none]
      | some f => rw [last_output_measured log x hx, Option.getD_some]
    · simp only [hinv, hm.invariableCnt, hrep]
      exact repeats_streak h x
    · simp only [htm, h.tmoutCnt]
      by_cases hx : isTmout x = true
      · rw [if_pos hx, streak_hit _ _ hx, Nat.mod_add_mod]
      · rw [if_neg hx, streak_miss _ _ hx, Nat.zero_mod]
  · simp only [hexec, hpath, hm.hasNewPath, hs.hasNewPath, Bool.or_false, isNew]
  · have hkept := conclude_field (f := fun c => isDone c.stmt) (fun _ => rfl)
      (measure e' c x.output) x.answer
    rw [← hm.done, hkept]
  · rw [← hm.state]
    simp only [conclude, hcond]
    split_ifs <;> rfl
  · intro hx
    exact (conclude_field (f := fun c => c.stmt.offsets) (fun _ => rfl) _ _).trans (hm.offsets hx)
  · exact (conclude_field (f := fun c => c.stmt.vars) (fun _ => rfl) _ _).trans hm.vars
  · have hkept := conclude_field (f := fun c => c.stmt.isDesirable) (fun _ => rfl)
      (measure e' c x.output) x.answer
    rw [← hrep, ← hm.desirable, hkept]
  · rw [← hrep, ← or_assoc, ← hm.skip]
    simp only [conclude]
    split_ifs with hb
    · exact iff_of_true rfl (Or.inl hb)
    · rw [hskip]
      exact (or_iff_right hb).symm

/-! ## One step of a session -/

theorem explored_snoc (log : List Executed) (x : Executed) :
    Explored (log ++ [x]) ↔ Explored log ∨ x.output = some 0 := by
  cases hx : x.output with
  | none => simp [Explored, outputs_plain log x hx]
  | some f => simp [Explored, outputs_measured log x hx, eq_comm]

theorem flat_snoc (h : Counted e log) (x : Executed) :
    Flat (log ++ [x]) ↔
      Flat log ∨ (x.output.isSome = true ∧ MAX_INVARIABLE_NUM ≤ repeats e x.output) := by
  cases hx : x.output with
  | none => simp [flat_plain log x hx]
  | some f =>
    have hrep := repeats_streak h x
    rw [last_output_measured log x hx, hx] at hrep
    rw [flat_measured log x hx, ← hrep]
    simp

/-- While the timeouts are below the limit their counter is the streak itself. -/
theorem third_timeout (h : Counted e log) (ht : ¬ TimedOut log) (x : Executed) :
    TMOUT_SKIP ≤ streak isTmout (log ++ [x]) ↔ isTmout x = true ∧ TMOUT_SKIP ≤ e.tmoutCnt+1 := by
  have hlt := streak_lt_of_not_in_row isTmout ht
  by_cases hx : isTmout x = true
  · rw [streak_hit _ _ hx, h.tmoutCnt, Nat.mod_eq_of_lt hlt]
    exact (and_iff_right hx).symm
  · rw [streak_miss _ _ hx]
    exact iff_of_false (by decide) fun h => hx h.1

theorem spent_snoc (h : Counted e log) (searching : Bool) (limit : ℕ) (x : Executed) :
    Spent searching limit (log ++ [x]) ↔ Spent searching limit log ∨ x.output = some 0 ∨
      (isTmout x = true ∧ TMOUT_SKIP ≤ e.tmoutCnt+1) ∨
      (searching = true ∧ x.output.isSome = true ∧ MAX_INVARIABLE_NUM ≤ repeats e x.output) ∨
      limit+BONUS_EXEC_NUM*(log ++ [x]).countP isNew < (log ++ [x]).length := by
  by_cases ht : TimedOut log
  · exact iff_of_true (Or.inr (Or.inl ((timed_out_snoc log x).mpr (Or.inl ht))))
      (Or.inl (Or.inr (Or.inl ht)))
  · unfold Spent
    rw [explored_snoc, timed_out_snoc, third_timeout h ht, flat_snoc h, over_budget_snoc]
    tauto

section Finish
variable {c0 : Cond} {limit : ℕ} {hd : SearchHandler} {r : Ran}

theorem finish_max_times (h : Account c0 limit hd)
    (hr : Concluded hd.executor hd.cond hd.log x r) :
    (finish hd x r).maxTimes = limit+BONUS_EXEC_NUM*(hd.log ++ [x]).countP isNew := by
  simp only [finish, processStatus, hr.hasNewPath, h.maxTimes, List.countP_append,
    List.countP_singleton]
  split_ifs
  · rw [Nat.mul_add, Nat.mul_one, Nat.add_assoc]
  · rfl

/-- Before the search is spent, its condition still has the state that it came with. -/
theorem finish_skip (h : Account c0 limit hd) (hr : Concluded hd.executor hd.cond hd.log x r) :
    (finish hd x r).skip = true ↔ Spent (searches c0) limit (hd.log ++ [x]) := by
  have hskip : (finish hd x r).skip = true ↔ hd.skip = true ∨ r.status = .skip ∨
      limit+BONUS_EXEC_NUM*(hd.log ++ [x]).countP isNew < (hd.log ++ [x]).length := by
    rw [← finish_max_times h hr, ← hr.counted.tallied.numExec]
    simp [finish, processStatus, or_assoc]
  rw [hskip, h.skip, hr.skip, spent_snoc h.counted]
  by_cases hspent : Spent (searches c0) limit hd.log
  · exact iff_of_true (Or.inl hspent) (Or.inl hspent)
  · have hopen : isDone hd.cond.stmt = false := by
      rw [← Bool.not_eq_true, h.done]
      exact fun he => hspent (Or.inl he)
    have hsame : searches hd.cond = searches c0 := by
      have hstate := h.kept fun ht => hspent (Or.inr (Or.inl ht))
      simp only [searches, isDet, isOneByte, hstate]
    rw [hopen, hsame]
    tauto

theorem finish_account (h : Account c0 limit hd)
    (hr : Concluded hd.executor hd.cond hd.log x r) : Account c0 limit (finish hd x r) := by
  have hlog : (finish hd x r).log = hd.log ++ [x] := rfl
  constructor
  · rw [hlog]
    exact hr.counted
  · exact finish_max_times h hr
  · exact finish_skip h hr
  · rw [hlog, explored_snoc, ← h.done]
    exact hr.done
  · intro ht
    rw [hlog] at ht
    have hstate : (finish hd x r).cond.stmt.state = _ := hr.state
    by_cases hbefore : TimedOut hd.log
    · rw [hstate, h.timedOut hbefore, ite_self]
    · have hthird := ((timed_out_snoc _ x).mp ht).resolve_left hbefore
      rw [hstate, if_pos ((third_timeout h.counted hbefore x).mp hthird)]
  · intro ht
    rw [hlog, timed_out_snoc, not_or] at ht
    have hstate : (finish hd x r).cond.stmt.state = _ := hr.state
    rw [hstate, if_neg fun h3 => ht.2 ((third_timeout h.counted ht.1 x).mpr h3), h.kept ht.1]
  · intro he
    rw [hlog, explored_snoc, not_or] at he
    exact (hr.offsets he.2).trans (h.offsets he.1)
  · rw [hlog, flat_snoc h.counted, not_or, ← and_assoc, ← h.desirable]
    exact hr.desirable

end Finish

/-- A session of a search that started with the handler `h0` and leaves the limit,
the skip flag and the done mark to the handler from then on, as all but `AFLFuzz`,
`ExploitFuzz`, `LenFuzz` and `FnFuzz` do. -/
inductive Session (W : World) (h0 : SearchHandler) : SearchHandler → Prop where
  | start : Session W h0 h0
  | plain {h : SearchHandler} (buf : List UInt8) : Session W h0 h → Session W h0 (execute W h buf)
  | cond {h : SearchHandler} : Session W h0 h → Session W h0 (executeCondDirect W h).1
  | edit {h : SearchHandler} (buf vars : List UInt8) : Session W h0 h →
      Session W h0
        { h with buf := buf, cond := { h.cond with stmt := { h.cond.stmt with vars := vars } } }

/-- What `update_log` leaves behind, and an executor that is new. -/
structure Clean (e : Executor) : Prop where
  level : e.tConds.level = 0
  tmoutCnt : e.tmoutCnt = 0
  invariableCnt : e.invariableCnt = 0
  lastF : e.lastF = UNREACHABLE

theorem start_account {e : Executor} {c : Cond} (buf : List UInt8) (limit : ℕ) (he : Clean e)
    (hc : isDone c.stmt = false) :
    Account c limit { newHandler e c buf with maxTimes := limit } := by
  have hquiet : ¬ TimedOut [] := not_in_row_nil isTmout (by decide)
  have hflat : ¬ Flat [] := by
    rintro ⟨f, ys, hs, hlen, -⟩
    have := hs.length_le
    rw [hlen] at this
    exact absurd this (by decide)
  have hbudget : ¬ OverBudget limit [] := by
    rintro ⟨p, hp, hlt⟩
    rw [List.prefix_nil.mp hp] at hlt
    exact absurd hlt (Nat.not_lt_zero _)
  constructor
  · refine ⟨⟨rfl, rfl, rfl, rfl⟩, he.lastF, ?_, he.tmoutCnt⟩
    rw [show (newHandler e c buf).executor.invariableCnt = 0 from he.invariableCnt]
    rfl
  · rfl
  · refine iff_of_false (by simp [newHandler]) ?_
    rintro (h | h | ⟨-, h⟩ | h)
    · cases h
    · exact hquiet h
    · exact hflat h
    · exact hbudget h
  · exact iff_of_false (ne_true_of_eq_false hc) List.not_mem_nil
  · exact fun h => absurd h hquiet
  · exact fun _ => rfl
  · exact fun _ => rfl
  · exact (and_iff_left hflat).symm

theorem started_plain (e : Executor) (a : Answer) : Started e (runInner (runInit e) a) :=
  ⟨rfl, rfl, rfl, rfl, rfl⟩

theorem started_measuring (e : Executor) (c : Cond) (a : Answer) : Started e (measuring e c a) :=
  ⟨rfl, rfl, rfl, rfl, rfl⟩

theorem execute_account {c0 : Cond} {limit : ℕ} {h : SearchHandler} (W : World)
    (ha : Account c0 limit h) (buf : List UInt8) : Account c0 limit (execute W h buf) := by
  let x : Executed := ⟨buf, none, W.answer h.log buf⟩
  exact finish_account (x := x) ha
    (conclude_spec ha.counted (started_plain h.executor x.answer) h.cond x)

theorem run_with_cond_concluded {c0 : Cond} {limit : ℕ} {h : SearchHandler}
    (ha : Account c0 limit h) (a : Answer) :
    Concluded h.executor h.cond h.log ⟨h.buf, some (runWithCond h.executor h.cond a).2, a⟩
      (runWithCond h.executor h.cond a).1 :=
  conclude_spec ha.counted (started_measuring h.executor h.cond a) h.cond
    ⟨h.buf, some (outputOf h.executor h.cond a), a⟩

theorem execute_cond_account {c0 : Cond} {limit : ℕ} {h : SearchHandler} (W : World)
    (ha : Account c0 limit h) : Account c0 limit (executeCondDirect W h).1 :=
  finish_account ha (run_with_cond_concluded ha (W.answer h.log h.buf))

theorem account_edit {c0 : Cond} {limit : ℕ} {h : SearchHandler} (ha : Account c0 limit h)
    (buf vars : List UInt8) : Account c0 limit
      { h with buf := buf, cond := { h.cond with stmt := { h.cond.stmt with vars := vars } } } :=
  ⟨ha.counted, ha.maxTimes, ha.skip, ha.done, ha.timedOut, ha.kept, ha.offsets, ha.desirable⟩

end Parmesan.SearchHistory
