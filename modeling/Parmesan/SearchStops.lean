import Parmesan.GdSearch
import Parmesan.SearchStrategies
import Parmesan.SharedCond

/-!
# When a search stops

The three strategies that look for a way past a condition leave their loops after the
first execution behind which the history says so, or when the fuzzer is interrupted. As
long as new paths run out they do leave it.
-/

set_option autoImplicit false

namespace Parmesan.SearchStops
open Parmesan.CondModel Parmesan.DepotModel Parmesan.ExecutorModel Parmesan.MutInputModel
open Parmesan.SearchHistory Parmesan.SearchStrategies Parmesan.Segments
open Parmesan.MutInputLens hiding SameShape
open Parmesan.Scatter Parmesan.SharedCond
open Parmesan.GdSearch (same_shape_trans from_offsets_entries)
open Parmesan.TagSetModel (TagSeg)
open Parmesan.TrackModel (Event)
open Parmesan.SearchModel (Randomize randomizeAll MAX_SEARCH_EXEC_NUM)

def Halts (W : World) (searching : Bool) (limit : ℕ) (log : List Executed) : Prop :=
  Spent searching limit log ∨ W.running log = false

/-- The first history from `pre` on behind which the search halts. -/
structure Stops (W : World) (searching : Bool) (limit : ℕ) (pre log : List Executed) : Prop where
  after : pre <+: log
  halts : Halts W searching limit log
  before : ∀ p, pre <+: p → p <+: log → p ≠ log → ¬ Halts W searching limit p

variable {W : World} {searching : Bool} {limit : ℕ} {pre log : List Executed}

theorem stops_here (h : Halts W searching limit pre) : Stops W searching limit pre pre := by
  refine ⟨List.prefix_rfl, h, ?_⟩
  intro p hp hq hne
  exact absurd (hq.eq_of_length_le hp.length_le) hne

theorem stops_later {x : Executed} (h : ¬ Halts W searching limit pre)
    (hs : Stops W searching limit (pre ++ [x]) log) : Stops W searching limit pre log := by
  refine ⟨(List.prefix_append pre [x]).trans hs.after, hs.halts, ?_⟩
  intro p hp hq hne
  by_cases hlen : p.length ≤ pre.length
  · rw [← hp.eq_of_length_le hlen]
    exact h
  · refine hs.before p (List.prefix_of_prefix_length_le hs.after hq ?_) hq hne
    rw [List.length_append, List.length_singleton]
    omega

/-! ## The loops -/

def fresh (e : Executor) (c : Cond) (buf : List UInt8) (limit : ℕ) : SearchHandler :=
  { newHandler e c buf with maxTimes := limit }

structure Going (W : World) (e : Executor) (c : Cond) (buf : List UInt8) (limit : ℕ)
    (h : SearchHandler) : Prop where
  session : Session W (fresh e c buf limit) h
  account : Account c limit h

section Going
variable {e : Executor} {c : Cond} {buf : List UInt8} {h : SearchHandler}

theorem going_start (he : Clean e) (hc : isDone c.stmt = false) :
    Going W e c buf limit (fresh e c buf limit) :=
  ⟨.start, start_account buf limit he hc⟩

theorem halts_iff (hg : Going W e c buf limit h) :
    isStoppedOrSkip W h = true ↔ Halts W (searches c) limit h.log := by
  rw [Halts, ← hg.account.skip, isStoppedOrSkip]
  cases W.running h.log <;> simp

def written (offsets : List TagSeg) (seed v : List UInt8) : List UInt8 :=
  scatter (windowsOf offsets) v (zeroExtend seed (extent offsets))

def Based (offsets : List TagSeg) (seed buf : List UInt8) : Prop :=
  buf = seed ∨ ∃ v, v.length = total (windowsOf offsets) ∧ buf = written offsets seed v

theorem write_based {offsets : List TagSeg} {seed buf : List UInt8} {m : MutInput}
    (ha : Apart offsets) (hb : Based offsets seed buf)
    (hm : m.value.length = total (windowsOf offsets)) :
    writeToInput m offsets buf = some (written offsets seed m.value) := by
  rcases hb with rfl | ⟨v, hv, rfl⟩
  · exact write_to_input_scatter ha buf hm
  · have hin := windows_inside (segments_fit ha seed)
    have hout := scatter_length _ v (zeroExtend seed (extent offsets)) hin hv
    rw [write_to_input_scatter ha _ hm, zero_extend_covers (by
      rw [written, hout, zero_extend_length]
      exact le_max_right _ _)]
    apply congrArg some
    apply scatter_congr _ _ _ _ hin hout hm
    exact fun y hy => scatter_outside _ _ _ hin hv hy

/-- Until the condition is solved the buffer is the seed but for the bytes at its
segments. -/
def Placed (c : Cond) (seed : List UInt8) (h : SearchHandler) : Prop :=
  ¬ Explored h.log → Based c.stmt.offsets seed h.buf

structure Goes (W : World) (e : Executor) (c : Cond) (buf : List UInt8) (limit : ℕ)
    (h : SearchHandler) (r : SearchHandler × ℕ) (x : Executed) : Prop where
  going : Going W e c buf limit r.1
  log : r.1.log = h.log ++ [x]
  output : x.output = some r.2
  vars : r.1.cond.stmt.vars = if r.2 = 0 then [] else h.cond.stmt.vars

structure Adds (W : World) (e : Executor) (c : Cond) (buf : List UInt8) (limit : ℕ)
    (h : SearchHandler) (m : MutInput) (r : SearchHandler × ℕ) (x : Executed) : Prop
    extends Goes W e c buf limit h r x where
  placed : Placed c buf r.1
  buf : x.buf = written c.stmt.offsets buf m.value
  answer : x.answer = W.answer h.log x.buf

theorem execute_direct_goes (hg : Going W e c buf limit h) (hopen : ¬ Explored h.log)
    (b : List UInt8) :
    Goes W e c buf limit h (executeCondDirect W { h with buf := b })
      ⟨b, some (runWithCond h.executor h.cond (W.answer h.log b)).2, W.answer h.log b⟩ := by
  have hedit := account_edit hg.account b h.cond.stmt.vars
  have hwanted : isDone h.cond.stmt = false := by
    rw [← Bool.not_eq_true, hg.account.done]
    exact hopen
  refine ⟨⟨.cond (.edit _ h.cond.stmt.vars hg.session), execute_cond_account W hedit⟩, rfl, rfl, ?_⟩
  have hvars := (run_with_cond_concluded hedit (W.answer h.log b)).vars
  simp only [hwanted, and_true, Option.some.injEq] at hvars
  exact hvars

theorem execute_cond_goes (hg : Going W e c buf limit h) (hopen : ¬ Explored h.log) {m : MutInput}
    {r : SearchHandler × ℕ} (hr : executeCond W h m = some r) : ∃ x, Goes W e c buf limit h r x := by
  obtain ⟨b, -, rfl⟩ := Option.map_eq_some_iff.mp hr
  exact ⟨_, execute_direct_goes hg hopen b⟩

theorem execute_cond_adds (ha : Apart c.stmt.offsets) (hg : Going W e c buf limit h)
    (hp : Placed c buf h) (hopen : ¬ Explored h.log) {m : MutInput}
    (hm : m.value.length = total (windowsOf c.stmt.offsets)) :
    ∃ r x, executeCond W h m = some r ∧ Adds W e c buf limit h m r x := by
  have hwrite := write_based ha (hp hopen) hm
  refine ⟨executeCondDirect W { h with buf := written c.stmt.offsets buf m.value }, _, ?_,
    execute_direct_goes hg hopen _, fun _ => Or.inr ⟨m.value, hm, rfl⟩, rfl, rfl⟩
  rw [executeCond, hg.account.offsets hopen, hwrite]
  rfl

/-! ### The common loop -/

/-- No session of the search meets more than `N` new paths. -/
def FewPaths (W : World) (h0 : SearchHandler) (N : ℕ) : Prop :=
  ∀ h, Session W h0 h → h.log.countP isNew ≤ N

theorem few_paths_of_none (h : ∀ log buf, (W.answer log buf).hasNewPath = false) :
    FewPaths W (newHandler e c buf) 0 := by
  intro h' hs
  have hsnoc : ∀ (log : List Executed) (x : Executed), (∀ y ∈ log, isNew y = false) →
      isNew x = false → ∀ y ∈ log ++ [x], isNew y = false := by
    intro log x hlog hx
    refine List.forall_mem_append.mpr ⟨hlog, fun y hy => ?_⟩
    rw [List.mem_singleton.mp hy]
    exact hx
  have hnone : ∀ x ∈ h'.log, isNew x = false := by
    induction hs with
    | start => exact fun x hx => absurd hx List.not_mem_nil
    | plain buf _ ih => exact hsnoc _ _ ih (h _ _)
    | cond _ ih => exact hsnoc _ _ ih (h _ _)
    | edit buf vars _ ih => exact ih
  rw [List.countP_eq_zero.mpr fun x hx => by rw [hnone x hx]; decide]

theorem over_budget_of_length {N : ℕ} (hg : Going W e c buf limit h)
    (hN : FewPaths W (fresh e c buf limit) N) (hlen : limit+BONUS_EXEC_NUM*N < h.log.length) :
    Halts W (searches c) limit h.log := by
  refine Or.inl (Or.inr (Or.inr (Or.inr ⟨h.log, List.prefix_rfl, ?_⟩)))
  exact lt_of_le_of_lt (Nat.add_le_add_left (Nat.mul_le_mul_left _ (hN h hg.session)) _) hlen

variable {σ : Type} {propose : σ → Randomize → Option MutInput} {learn : σ → MutInput → ℕ → σ}

/-- Every draw gives an input of the length of the value, and `P` is kept by what is
learnt from it. -/
def Learns (c : Cond) (buf : List UInt8) (propose : σ → Randomize → Option MutInput)
    (learn : σ → MutInput → ℕ → σ) (P : σ → List Executed → Prop) (d : Randomize) : Prop :=
  ∀ st log, P st log → ∃ input, propose st d = some input ∧
    input.value.length = total (windowsOf c.stmt.offsets) ∧
    ∀ x f, x.output = some f → x.buf = written c.stmt.offsets buf input.value →
      P (learn st input f) (log ++ [x])

theorem search_loop_stops (draws : List Randomize) (st : σ) (h : SearchHandler)
    (hg : Going W e c buf limit h) {r : SearchHandler × σ}
    (hr : searchLoop W propose learn draws st h = some r) :
    Going W e c buf limit r.1 ∧ Stops W (searches c) limit h.log r.1.log := by
  induction draws generalizing st h with
  | nil =>
    rw [searchLoop] at hr
    split_ifs at hr with hstop
    obtain rfl := Option.some.inj hr
    exact ⟨hg, stops_here ((halts_iff hg).mp hstop)⟩
  | cons d ds ih =>
    rw [searchLoop] at hr
    split_ifs at hr with hstop
    · obtain rfl := Option.some.inj hr
      exact ⟨hg, stops_here ((halts_iff hg).mp hstop)⟩
    · have hhalts : ¬ Halts W (searches c) limit h.log := fun hh => hstop ((halts_iff hg).mpr hh)
      obtain ⟨input, -, hrest⟩ := Option.bind_eq_some_iff.mp hr
      obtain ⟨q, hexec, hrest⟩ := Option.bind_eq_some_iff.mp hrest
      obtain ⟨x, hx⟩ := execute_cond_goes hg (fun he => hhalts (Or.inl (Or.inl he))) hexec
      obtain ⟨hg', hs⟩ := ih _ q.1 hx.going hrest
      rw [hx.log] at hs
      exact ⟨hg', stops_later hhalts hs⟩

theorem search_loop_learns (ha : Apart c.stmt.offsets) {P : σ → List Executed → Prop}
    (draws : List Randomize) (hd : ∀ d ∈ draws, Learns c buf propose learn P d) (st : σ)
    (h : SearchHandler) (hg : Going W e c buf limit h) (hp : Placed c buf h) (hst : P st h.log)
    {r : SearchHandler × σ} (hr : searchLoop W propose learn draws st h = some r) :
    P r.2 r.1.log := by
  induction draws generalizing st h with
  | nil =>
    rw [searchLoop] at hr
    split_ifs at hr with hstop
    obtain rfl := Option.some.inj hr
    exact hst
  | cons d ds ih =>
    rw [searchLoop] at hr
    split_ifs at hr with hstop
    · obtain rfl := Option.some.inj hr
      exact hst
    · obtain ⟨input, hinput, hlen, hlearn⟩ := hd d List.mem_cons_self st h.log hst
      obtain ⟨q, x, hexec, hadds⟩ := execute_cond_adds ha hg hp
        (fun he => hstop ((halts_iff hg).mpr (Or.inl (Or.inl he)))) hlen
      simp only [hinput, hexec, Option.bind_some] at hr
      have hnext := hlearn x q.2 hadds.output hadds.buf
      rw [← hadds.log] at hnext
      exact ih (fun d hm => hd d (List.mem_cons_of_mem _ hm)) _ q.1 hadds.going hadds.placed hnext hr

theorem search_loop_returns (ha : Apart c.stmt.offsets) {P : σ → List Executed → Prop} {N : ℕ}
    (hN : FewPaths W (fresh e c buf limit) N) (draws : List Randomize)
    (hd : ∀ d ∈ draws, Learns c buf propose learn P d) (st : σ) (h : SearchHandler)
    (hg : Going W e c buf limit h) (hp : Placed c buf h) (hst : P st h.log)
    (hlen : limit+BONUS_EXEC_NUM*N < h.log.length+draws.length) :
    ∃ r, searchLoop W propose learn draws st h = some r := by
  induction draws generalizing st h with
  | nil =>
    have hstop := (halts_iff hg).mpr (over_budget_of_length hg hN (by simpa using hlen))
    exact ⟨_, by rw [searchLoop, if_pos hstop]⟩
  | cons d ds ih =>
    by_cases hstop : isStoppedOrSkip W h = true
    · exact ⟨_, by rw [searchLoop, if_pos hstop]⟩
    · obtain ⟨input, hinput, hval, hlearn⟩ := hd d List.mem_cons_self st h.log hst
      obtain ⟨q, x, hexec, hadds⟩ := execute_cond_adds ha hg hp
        (fun he => hstop ((halts_iff hg).mpr (Or.inl (Or.inl he)))) hval
      have hnext := hlearn x q.2 hadds.output hadds.buf
      rw [← hadds.log] at hnext
      obtain ⟨r, hr⟩ := ih (fun d hm => hd d (List.mem_cons_of_mem _ hm)) _ q.1 hadds.going
        hadds.placed hnext (by
          rw [hadds.log, List.length_append, List.length_singleton]
          rw [List.length_cons] at hlen
          omega)
      refine ⟨r, ?_⟩
      rw [searchLoop, if_neg hstop, hinput, Option.bind_some, hexec, Option.bind_some, hr]

end Going

/-! ## The strategies -/

/-- The generator keeps to its ranges on inputs of the shape of `m0`. -/
def Drawn (m0 : MutInput) (draws : List Randomize) : Prop :=
  ∀ d ∈ draws, ∀ m, SameShape m0 m → ∃ m', apply m (randomizeAll d) = some m'

section Strategies
variable {e : Executor} {c : Cond} {buf : List UInt8} {m0 : MutInput} {draws : List Randomize}

theorem assign_same_shape (input : MutInput) (value : List UInt8) :
    SameShape input (assign input value) :=
  apply_same_shape (show apply input (.assign value) = some (assign input value) from rfl)

theorem randomize_shape (hd : Drawn m0 draws) {d : Randomize} (hm : d ∈ draws) {input : MutInput}
    (hs : SameShape m0 input) (value : List UInt8) :
    ∃ m, randomize value input d = some m ∧ SameShape m0 m := by
  have hassign := same_shape_trans hs (assign_same_shape input value)
  obtain ⟨m, hm⟩ := hd d hm _ hassign
  exact ⟨m, hm, same_shape_trans hassign (apply_same_shape hm)⟩

theorem value_total (ha : Apart c.stmt.offsets) (h0 : fromOffsets c.stmt.offsets buf = some m0) :
    m0.value.length = total (windowsOf c.stmt.offsets) := by
  rw [from_offsets_eq ha] at h0
  rw [← Option.some.inj h0]
  exact gather_length _ _ (windows_inside (segments_fit ha buf))

theorem random_learns (ha : Apart c.stmt.offsets) (h0 : fromOffsets c.stmt.offsets buf = some m0)
    (hd : Drawn m0 draws) (orig : List UInt8) :
    ∀ d ∈ draws, Learns c buf (randomize orig) (fun _ input _ => input)
      (fun input _ => SameShape m0 input) d := by
  intro d hm input log hs
  obtain ⟨m, hrand, hshape⟩ := randomize_shape hd hm hs orig
  exact ⟨m, hrand, hshape.2.trans (value_total ha h0), fun _ _ _ _ => hshape⟩

/-- The least output of the history, at its first entry, and the value executed there. -/
structure Lowest (c : Cond) (buf : List UInt8) (fmin : ℕ) (inputMin : List UInt8)
    (log : List Executed) : Prop where
  first : ∃ pre x post, log = pre ++ x::post ∧ x.output = some fmin ∧
    x.buf = written c.stmt.offsets buf inputMin ∧
    (∀ y ∈ pre, ∀ f, y.output = some f → fmin < f) ∧
    ∀ y ∈ post, ∀ f, y.output = some f → fmin ≤ f

theorem lowest_single {x : Executed} {f : ℕ} {v : List UInt8} (hx : x.output = some f)
    (hb : x.buf = written c.stmt.offsets buf v) : Lowest c buf f v [x] :=
  ⟨[], x, [], rfl, hx, hb, fun _ h => absurd h List.not_mem_nil,
    fun _ h => absurd h List.not_mem_nil⟩

theorem lowest_snoc {f : ℕ} {log : List Executed} {x : Executed}
    {input : MutInput} {st : Climb} (h : Lowest c buf st.fmin st.inputMin log)
    (hx : x.output = some f) (hb : x.buf = written c.stmt.offsets buf input.value) :
    Lowest c buf (lower st input f).fmin (lower st input f).inputMin (log ++ [x]) := by
  obtain ⟨pre, z, post, rfl, hz, hzb, hpre, hpost⟩ := h.first
  unfold lower
  split_ifs with hlt
  · refine ⟨pre ++ z::post, x, [], rfl, hx, hb, ?_, fun _ h => absurd h List.not_mem_nil⟩
    intro y hy g hg
    obtain hy | hy := List.mem_append.mp hy
    · exact hlt.trans (hpre y hy g hg)
    · obtain rfl | hy := List.mem_cons.mp hy
      · obtain rfl := Option.some.inj (hz.symm.trans hg)
        exact hlt
      · exact lt_of_lt_of_le hlt (hpost y hy g hg)
  · refine ⟨pre, z, post ++ [x], by simp, hz, hzb, hpre, ?_⟩
    intro y hy g hg
    obtain hy | hy := List.mem_append.mp hy
    · exact hpost y hy g hg
    · rw [List.mem_singleton.mp hy, hx] at hg
      rw [← Option.some.inj hg]
      exact Nat.le_of_not_lt hlt

structure Climbs (c : Cond) (buf : List UInt8) (m0 : MutInput) (st : Climb) (log : List Executed) :
    Prop where
  shape : SameShape m0 st.input
  lowest : Lowest c buf st.fmin st.inputMin log

theorem climb_step {st : Climb} {log : List Executed} {x : Executed} {input : MutInput} {f : ℕ}
    (h : Climbs c buf m0 st log) (hs : SameShape m0 input) (hx : x.output = some f)
    (hb : x.buf = written c.stmt.offsets buf input.value) :
    Climbs c buf m0 (lower st input f) (log ++ [x]) := by
  refine ⟨?_, lowest_snoc h.lowest hx hb⟩
  unfold lower
  split_ifs
  · exact hs
  · exact hs

theorem climb_learns (ha : Apart c.stmt.offsets) (h0 : fromOffsets c.stmt.offsets buf = some m0)
    (hd : Drawn m0 draws) :
    ∀ d ∈ draws, Learns c buf (fun st => randomize st.inputMin st.input) lower
      (Climbs c buf m0) d := by
  intro d hm st log hst
  obtain ⟨m, hrand, hshape⟩ := randomize_shape hd hm hst.shape st.inputMin
  exact ⟨m, hrand, hshape.2.trans (value_total ha h0),
    fun x f hx hb => climb_step hst hshape hx hb⟩

end Strategies

section Search
variable {e : Executor} {c : Cond} {buf : List UInt8} {m0 : MutInput} {draws : List Randomize}

structure Begun (W : World) (e : Executor) (c : Cond) (buf : List UInt8) (h : SearchHandler) :
    Prop where
  going : Going W e c buf MAX_SEARCH_EXEC_NUM h
  placed : Placed c buf h

theorem begun_start (hw : Worker e) (hc : isDone c.stmt = false) :
    Begun W e c buf (newHandler e c buf) :=
  ⟨going_start (worker_clean hw) hc, fun _ => Or.inl rfl⟩

theorem get_f_input_new (h0 : fromOffsets c.stmt.offsets buf = some m0) :
    getFInput (newHandler e c buf) = some m0 := h0

theorem random_loop_stops {orig : List UInt8} {input : MutInput} {h h' : SearchHandler}
    (hg : Going W e c buf MAX_SEARCH_EXEC_NUM h)
    (hr : randomLoop W orig draws input h = some h') :
    Going W e c buf MAX_SEARCH_EXEC_NUM h' ∧
      Stops W (searches c) MAX_SEARCH_EXEC_NUM h.log h'.log := by
  obtain ⟨r, hloop, rfl⟩ := Option.map_eq_some_iff.mp hr
  exact search_loop_stops draws input h hg hloop

theorem random_loop_returns (ha : Apart c.stmt.offsets)
    (h0 : fromOffsets c.stmt.offsets buf = some m0) (hd : Drawn m0 draws) (orig : List UInt8)
    {input : MutInput} (hs : SameShape m0 input) {h : SearchHandler} (hb : Begun W e c buf h)
    {N : ℕ} (hN : FewPaths W (newHandler e c buf) N)
    (hlen : MAX_SEARCH_EXEC_NUM+BONUS_EXEC_NUM*N < draws.length) :
    ∃ h', randomLoop W orig draws input h = some h' := by
  obtain ⟨r, hr⟩ := search_loop_returns ha hN draws (random_learns ha h0 hd orig) input h
    hb.going hb.placed hs (Nat.lt_add_left _ hlen)
  exact ⟨r.1, by rw [randomLoop, hr]; rfl⟩

theorem random_search_eq (h0 : fromOffsets c.stmt.offsets buf = some m0) :
    randomSearch W draws (newHandler e c buf) =
      randomLoop W m0.value draws m0 (newHandler e c buf) := by
  rw [randomSearch, get_f_input_new h0, Option.bind_some]

theorem mb_search_stops (hw : Worker e) (hc : isDone c.stmt = false) {h : SearchHandler}
    (hr : mbSearch W draws (newHandler e c buf) = some h) :
    Going W e c buf MAX_SEARCH_EXEC_NUM h ∧ ∃ pre, pre.length = 1 ∧
      Stops W (searches c) MAX_SEARCH_EXEC_NUM pre h.log := by
  obtain ⟨input, -, hr⟩ := Option.bind_eq_some_iff.mp hr
  split_ifs at hr
  obtain ⟨q, hexec, hloop⟩ := Option.bind_eq_some_iff.mp hr
  obtain ⟨x, hx⟩ := execute_cond_goes (going_start (worker_clean hw) hc) List.not_mem_nil hexec
  obtain ⟨hg, hstops⟩ := random_loop_stops hx.going hloop
  exact ⟨hg, q.1.log, by rw [hx.log]; rfl, hstops⟩

/-- `MbSearch` executes the variables and goes on like `RandomSearch`. -/
theorem mb_search_eq (hw : Worker e) (hc : isDone c.stmt = false) (ha : Apart c.stmt.offsets)
    (h0 : fromOffsets c.stmt.offsets buf = some m0) :
    ∃ h1, Begun W e c buf h1 ∧
      mbSearch W draws (newHandler e c buf) =
        if m0.metas.length = 0 then none
        else randomLoop W m0.value draws (assign m0 c.stmt.vars) h1 := by
  have hb : Begun W e c buf (newHandler e c buf) := begun_start hw hc
  obtain ⟨r, x, hexec, hadds⟩ := execute_cond_adds ha hb.going hb.placed List.not_mem_nil
    ((assign_same_shape m0 c.stmt.vars).2.trans (value_total ha h0))
  refine ⟨r.1, ⟨hadds.going, hadds.placed⟩, ?_⟩
  have hvars : (newHandler e c buf).cond.stmt.vars = c.stmt.vars := rfl
  rw [mbSearch, get_f_input_new h0, Option.bind_some]
  simp only [hvars, hexec, Option.bind_some]

theorem value_pos (h0 : fromOffsets c.stmt.offsets buf = some m0) (hm : m0.metas.length ≠ 0) :
    0 < m0.value.length := by
  obtain ⟨e, he⟩ := List.exists_mem_of_length_pos (Nat.pos_of_ne_zero hm)
  obtain ⟨hwidth, hfit⟩ := from_offsets_entries h0 e he
  rcases hwidth with h | h | h | h <;> omega

/-- How many executions a strategy makes before it first asks whether to stop. -/
def warmUp (g : Guided) (c : Cond) (length : ℕ) (log : List Executed) : ℕ :=
  match g with
  | .random => 0
  | .mb => 1
  | .cbh => if c.stmt.vars.length = length ∧ (outputs log).head? ≠ some 0 then 2 else 1

theorem cbh_start_goes (hw : Worker e) (hc : isDone c.stmt = false)
    (h0 : fromOffsets c.stmt.offsets buf = some m0) (hm : m0.metas.length ≠ 0)
    {r : SearchHandler × Climb} (hr : cbhStart W m0 (newHandler e c buf) = some r) :
    Going W e c buf MAX_SEARCH_EXEC_NUM r.1 ∧
      ∀ log, r.1.log <+: log → r.1.log.length = warmUp .cbh c m0.value.length log := by
  have hpos := value_pos h0 hm
  obtain ⟨q, hexec, hr⟩ := Option.bind_eq_some_iff.mp hr
  obtain ⟨x, hx⟩ := execute_cond_goes (going_start (worker_clean hw) hc) List.not_mem_nil hexec
  have hlog : q.1.log = [x] := hx.log
  have hvars : q.1.cond.stmt.vars = if q.2 = 0 then [] else c.stmt.vars := hx.vars
  have hhead : ∀ log, [x] <+: log → (outputs log).head? = some q.2 := by
    rintro log ⟨post, rfl⟩
    rw [outputs, List.singleton_append, List.filterMap_cons_some hx.output, List.head?_cons]
  dsimp only at hr
  split_ifs at hr with hlen
  · -- a solved condition has no variables left
    have hf : q.2 ≠ 0 := by
      intro hf
      rw [hvars, if_pos hf, List.length_nil] at hlen
      omega
    rw [hvars, if_neg hf] at hlen
    have hopen : ¬ Explored q.1.log := by
      rw [hlog, Explored, outputs, List.filterMap_cons_some hx.output]
      simpa using Ne.symm hf
    obtain ⟨q', hexec', rfl⟩ := Option.map_eq_some_iff.mp hr
    obtain ⟨y, hy⟩ := execute_cond_goes hx.going hopen hexec'
    refine ⟨hy.going, fun log hpre => ?_⟩
    rw [hy.log, hlog] at hpre ⊢
    rw [warmUp, hhead log ((List.prefix_append [x] [y]).trans hpre), if_pos ⟨hlen.symm, by simpa⟩]
    rfl
  · obtain rfl := Option.some.inj hr
    refine ⟨hx.going, fun log hpre => ?_⟩
    rw [hlog] at hpre ⊢
    rw [warmUp, hhead log hpre, if_neg]
    · rfl
    · rintro ⟨hlen', hf⟩
      rw [hvars, if_neg (by simpa using hf)] at hlen
      exact hlen hlen'.symm

theorem cbh_start_begun (hw : Worker e) (hc : isDone c.stmt = false) (ha : Apart c.stmt.offsets)
    (h0 : fromOffsets c.stmt.offsets buf = some m0) (hm : m0.metas.length ≠ 0) :
    ∃ r, cbhStart W m0 (newHandler e c buf) = some r ∧ Begun W e c buf r.1 ∧
      Climbs c buf m0 r.2 r.1.log := by
  have hpos := value_pos h0 hm
  have hb : Begun W e c buf (newHandler e c buf) := begun_start hw hc
  obtain ⟨r, x, hexec, hadds⟩ := execute_cond_adds ha hb.going hb.placed List.not_mem_nil
    (value_total ha h0)
  have hlog : r.1.log = [x] := hadds.log
  have hvars : r.1.cond.stmt.vars = if r.2 = 0 then [] else c.stmt.vars := hadds.vars
  have hlow : Climbs c buf m0 ⟨m0, r.2, m0.value⟩ [x] :=
    ⟨⟨rfl, rfl⟩, lowest_single hadds.output hadds.buf⟩
  rw [cbhStart, hexec, Option.bind_some]
  by_cases hlen : m0.value.length = r.1.cond.stmt.vars.length
  · -- a solved condition has no variables left
    have hf : r.2 ≠ 0 := by
      intro hf
      rw [hvars, if_pos hf, List.length_nil] at hlen
      omega
    have hopen : ¬ Explored r.1.log := by
      rw [hlog, Explored, outputs, List.filterMap_cons_some hadds.output]
      simpa using Ne.symm hf
    obtain ⟨q, y, hexec', hadds'⟩ := execute_cond_adds ha hadds.going hadds.placed hopen
      ((assign_same_shape m0 c.stmt.vars).2.trans (value_total ha h0))
    rw [hvars, if_neg hf] at hlen
    simp only [hvars, if_neg hf, if_pos hlen, hexec', Option.map_some]
    refine ⟨_, rfl, ⟨hadds'.going, hadds'.placed⟩, ?_⟩
    rw [hadds'.log, hlog]
    exact climb_step hlow (assign_same_shape m0 _) hadds'.output hadds'.buf
  · simp only [if_neg hlen]
    refine ⟨_, rfl, ⟨hadds.going, hadds.placed⟩, ?_⟩
    rw [hlog]
    exact hlow

theorem going_set_vars {h : SearchHandler} {limit : ℕ} (hg : Going W e c buf limit h)
    (vars : List UInt8) : Going W e c buf limit (setVars h vars) :=
  ⟨.edit h.buf vars hg.session, account_edit hg.account h.buf vars⟩

theorem cbh_search_stops (hw : Worker e) (hc : isDone c.stmt = false)
    (h0 : fromOffsets c.stmt.offsets buf = some m0) {h : SearchHandler}
    (hr : cbhSearch W draws (newHandler e c buf) = some h) :
    Going W e c buf MAX_SEARCH_EXEC_NUM h ∧
      ∃ pre, pre.length = warmUp .cbh c m0.value.length h.log ∧
        Stops W (searches c) MAX_SEARCH_EXEC_NUM pre h.log := by
  rw [cbhSearch, get_f_input_new h0, Option.bind_some] at hr
  split_ifs at hr with hm
  obtain ⟨r, hstart, hr⟩ := Option.bind_eq_some_iff.mp hr
  obtain ⟨hgr, hwarm⟩ := cbh_start_goes hw hc h0 hm hstart
  obtain ⟨q, hloop, rfl⟩ := Option.map_eq_some_iff.mp hr
  obtain ⟨hg, hstops⟩ := search_loop_stops draws r.2 r.1 hgr hloop
  exact ⟨going_set_vars hg _, r.1.log, hwarm _ hstops.after, hstops⟩

/-- A search for a condition by random mutation, with its magic bytes or by climbing ends
right behind the first history after its start points that is spent: solved, timed out
three times in a row, flat for a search that minds it, or over its budget. Where the
segments lie apart it does end if new paths run out. -/
theorem guided_search_stops {g : Guided} (hw : Worker e) (hc : isDone c.stmt = false)
    (h0 : fromOffsets c.stmt.offsets buf = some m0) :
    (∀ h, guidedSearch W g draws (newHandler e c buf) = some h →
      Account c MAX_SEARCH_EXEC_NUM h ∧
      ∃ pre, pre.length = warmUp g c m0.value.length h.log ∧
        Stops W (searches c) MAX_SEARCH_EXEC_NUM pre h.log) ∧
    (Apart c.stmt.offsets → Drawn m0 draws → m0.metas.length ≠ 0 →
      ∀ N, FewPaths W (newHandler e c buf) N →
      MAX_SEARCH_EXEC_NUM+BONUS_EXEC_NUM*N < draws.length →
      ∃ h, guidedSearch W g draws (newHandler e c buf) = some h) := by
  have hb : Begun W e c buf (newHandler e c buf) := begun_start hw hc
  have hsame : SameShape m0 m0 := ⟨rfl, rfl⟩
  cases g with
  | random =>
    rw [guidedSearch, random_search_eq h0]
    constructor
    · intro h hr
      obtain ⟨hg, hstops⟩ := random_loop_stops hb.going hr
      exact ⟨hg.account, [], rfl, hstops⟩
    · intro ha hd _ N hN hlen
      exact random_loop_returns ha h0 hd _ hsame hb hN hlen
  | mb =>
    rw [guidedSearch]
    constructor
    · intro h hr
      obtain ⟨hg, pre, hone, hstops⟩ := mb_search_stops hw hc hr
      exact ⟨hg.account, pre, hone, hstops⟩
    · intro ha hd hm N hN hlen
      obtain ⟨h1, hbegun, heq⟩ := mb_search_eq (W := W) hw hc ha h0
      rw [heq, if_neg hm]
      exact random_loop_returns ha h0 hd _ (assign_same_shape m0 c.stmt.vars) hbegun hN hlen
  | cbh =>
    constructor
    · intro h hr
      obtain ⟨hg, hstops⟩ := cbh_search_stops hw hc h0 hr
      exact ⟨hg.account, hstops⟩
    · intro ha hd hm N hN hlen
      obtain ⟨r, hstart, hbegun, hclimbs⟩ := cbh_start_begun (W := W) hw hc ha h0 hm
      obtain ⟨q, hq⟩ := search_loop_returns ha hN draws (climb_learns ha h0 hd) r.2 r.1
        hbegun.going hbegun.placed hclimbs (Nat.lt_add_left _ hlen)
      refine ⟨setVars q.1 q.2.inputMin, ?_⟩
      rw [guidedSearch, cbhSearch, get_f_input_new h0, Option.bind_some, if_neg hm, hstart,
        Option.bind_some, cbhLoop, hq]
      rfl

def nineEvents (buf : List UInt8) : List Event := [tick (buf[1]?.getD 0).toNat 9]

def nine : World where
  answer _ buf :=
    { events := nineEvents buf
      status := .normal
      reported := normal_reported
      hasNewPath := false
      reruns := []
      unlimited := [] }
  running _ := true

def sought (state : CondState) : Cond where
  stmt :=
    { base := ⟨7, 3, 0, 1, 0, COND_FALSE_ST, 0, COND_ICMP_EQ_OP, 4, 1, 0, 0, 0⟩
      offsets := [⟨false, 1, 2⟩]
      offsetsOpt := []
      vars := [7]
      speed := 0
      isDesirable := true
      state := state }
  isConsistent := true
  fuzzTimes := 0

def lastByte : MutInput := ⟨[1], [⟨false, 0, 1⟩]⟩

theorem nine_drawn (n : ℕ) : Drawn lastByte (List.replicate n (.uniform fun _ => 9)) := by
  intro d hd m _
  rw [List.eq_of_mem_replicate hd]
  exact ⟨_, rfl⟩

theorem guided_search_stops_nine :
    ∃ h, guidedSearch nine .cbh (List.replicate 377 (.uniform fun _ => 9))
        (newHandler newExecutor (sought .offset) [5, 1]) = some h ∧
      ∃ pre, Stops nine true MAX_SEARCH_EXEC_NUM pre h.log := by
  have h0 : fromOffsets (sought .offset).stmt.offsets [5, 1] = some lastByte := rfl
  obtain ⟨h, hr⟩ := (guided_search_stops (W := nine) (g := .cbh) .new rfl h0).2 (by decide)
    (nine_drawn 377) (by decide) 0 (few_paths_of_none fun _ _ => rfl)
    (by rw [List.length_replicate]; decide)
  obtain ⟨-, pre, -, hstops⟩ := (guided_search_stops (W := nine) .new rfl h0).1 h hr
  exact ⟨h, hr, pre, hstops⟩

/-- What `CbhSearch` leaves in the variables is the value that was executed first among
those with the least output. -/
theorem cbh_search_keeps_lowest (hw : Worker e) (hc : isDone c.stmt = false)
    (ha : Apart c.stmt.offsets) (h0 : fromOffsets c.stmt.offsets buf = some m0)
    (hd : Drawn m0 draws) {h : SearchHandler}
    (hr : cbhSearch W draws (newHandler e c buf) = some h) :
    ∃ fmin, Lowest c buf fmin h.cond.stmt.vars h.log := by
  rw [cbhSearch, get_f_input_new h0, Option.bind_some] at hr
  split_ifs at hr with hm
  obtain ⟨r, hstart, hbegun, hclimbs⟩ := cbh_start_begun (W := W) hw hc ha h0 hm
  rw [hstart, Option.bind_some] at hr
  obtain ⟨q, hloop, rfl⟩ := Option.map_eq_some_iff.mp hr
  have hlow := search_loop_learns ha draws (climb_learns ha h0 hd) r.2 r.1 hbegun.going
    hbegun.placed hclimbs hloop
  exact ⟨q.2.fmin, hlow.lowest⟩

def climbed : SearchHandler :=
  (cbhSearch nine (List.replicate 1 (.uniform fun _ => 9))
    (newHandler newExecutor (sought .offset) [5, 1])).get rfl

theorem cbh_search_keeps_lowest_nine :
    climbed.cond.stmt.vars = [9] ∧ ∃ fmin, Lowest (sought .offset) [5, 1] fmin [9] climbed.log := by
  have hvars : climbed.cond.stmt.vars = [9] := rfl
  have h0 : fromOffsets (sought .offset).stmt.offsets [5, 1] = some lastByte := rfl
  refine ⟨hvars, ?_⟩
  rw [← hvars]
  exact cbh_search_keeps_lowest .new rfl (by decide) h0 (nine_drawn 1) (Option.some_get _).symm

end Search

end Parmesan.SearchStops
