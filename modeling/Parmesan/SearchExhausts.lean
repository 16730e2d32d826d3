import Parmesan.SearchStops

/-!
# What the local strategies try

`OneByteFuzz` and `DetFuzz` ask neither whether the search is to stop nor whether the
handler wants to skip: on a target that does the same in every run they execute their
inputs one by one up to the first one that solves the condition.
-/

set_option autoImplicit false

namespace Parmesan.SearchExhausts
open Parmesan.CondModel Parmesan.DepotModel Parmesan.ExecutorModel Parmesan.MutInputModel
open Parmesan.SearchHistory Parmesan.SearchStrategies Parmesan.SearchStops Parmesan.SharedCond
open Parmesan.Bytes Parmesan.Segments Parmesan.Scatter
open Parmesan.MutInputLens hiding SameShape
open Parmesan.TrackModel (Event orderKey)
open Parmesan.SearchModel (MAX_SEARCH_EXEC_NUM)

def Deterministic (W : World) (events : List UInt8 → List Event) : Prop :=
  ∀ log buf, (W.answer log buf).events = events buf

def solves (c : Cond) (events : List UInt8 → List Event) (buf : List UInt8) : Bool :=
  objective c.stmt.base (events buf) = 0

def upTo (solved : List UInt8 → Bool) : List (List UInt8) → List (List UInt8)
  | [] => []
  | b::bs => b :: if solved b then [] else upTo solved bs

structure Setting (W : World) (e : Executor) (c : Cond) (events : List UInt8 → List Event) :
    Prop where
  worker : Worker e
  notDone : isDone c.stmt = false
  order : c.stmt.base.order &&& 0xFFFF < 0x8000
  instrumented : Instrumented W (orderKey c.stmt.base)
  deterministic : Deterministic W events
  apart : Apart c.stmt.offsets

variable {W : World} {e : Executor} {c : Cond} {buf : List UInt8} {limit : ℕ}
  {events : List UInt8 → List Event}

structure Trying (W : World) (e : Executor) (c : Cond) (buf : List UInt8) (limit : ℕ)
    (h : SearchHandler) : Prop where
  going : Going W e c buf limit h
  placed : Placed c buf h

/-- From `h` to `h'` the inputs `bufs` are executed up to the first one that solves; after a
solution none of them is. -/
structure Tried (W : World) (e : Executor) (c : Cond) (buf : List UInt8) (limit : ℕ)
    (events : List UInt8 → List Event) (bufs : List (List UInt8)) (h h' : SearchHandler) :
    Prop where
  trying : Trying W e c buf limit h'
  explored : Explored h'.log ↔ Explored h.log ∨ ∃ b ∈ bufs, solves c events b = true
  kept : Explored h.log → h'.log = h.log
  order : ¬ Explored h.log →
    h'.log.map Executed.buf = h.log.map Executed.buf ++ upTo (solves c events) bufs

section Steps
variable {h h' : SearchHandler} {bufs : List (List UInt8)}

theorem tried_nil (ht : Trying W e c buf limit h) : Tried W e c buf limit events [] h h :=
  ⟨ht, by simp, fun _ => rfl, fun _ => (List.append_nil _).symm⟩

theorem tried_solved (ht : Trying W e c buf limit h) (he : Explored h.log) :
    Tried W e c buf limit events bufs h h :=
  ⟨ht, iff_of_true he (Or.inl he), fun _ => rfl, fun hopen => absurd he hopen⟩

theorem output_solves (hs : Setting W e c events) (hg : Going W e c buf limit h') {x : Executed}
    {f : ℕ} (hlog : h'.log = h.log ++ [x]) (hx : x.output = some f)
    (ha : x.answer = W.answer h.log x.buf) :
    Explored h'.log ↔ Explored h.log ∨ solves c events x.buf = true := by
  have hshared := session_shared hs.worker hs.order hs.instrumented hg.session
  have hf := hshared.outputs x (by rw [hlog]; simp) f hx
  rw [ha, hs.deterministic] at hf
  rw [hlog, explored_snoc, hx, solves, Option.some.injEq, hf]
  simp

theorem tried_cons (hs : Setting W e c events) {h1 : SearchHandler} {x : Executed} {f : ℕ}
    (hopen : ¬ Explored h.log) (hg : Going W e c buf limit h1) (hlog : h1.log = h.log ++ [x])
    (hx : x.output = some f) (ha : x.answer = W.answer h.log x.buf)
    (ht : Tried W e c buf limit events bufs h1 h') :
    Tried W e c buf limit events (x.buf::bufs) h h' := by
  have hout := output_solves hs hg hlog hx ha
  have hbufs : h1.log.map Executed.buf = h.log.map Executed.buf ++ [x.buf] := by
    rw [hlog, List.map_append]
    rfl
  refine ⟨ht.trying, ?_, fun he => absurd he hopen, fun _ => ?_⟩
  · rw [ht.explored, hout, List.exists_mem_cons_iff, or_assoc]
  · rw [upTo]
    split_ifs with hsolved
    · rw [ht.kept (hout.mpr (Or.inr hsolved)), hbufs]
    · rw [ht.order (by rw [hout]; exact not_or.mpr ⟨hopen, hsolved⟩), hbufs, List.append_assoc]
      rfl

theorem tried_next (hs : Setting W e c events) (hopen : ¬ Explored h.log) {m : MutInput}
    {r : SearchHandler × ℕ} {x : Executed} (hadds : Adds W e c buf limit h m r x)
    (ht : Tried W e c buf limit events bufs r.1 h') :
    Tried W e c buf limit events (written c.stmt.offsets buf m.value::bufs) h h' := by
  have hnext := tried_cons hs hopen hadds.going hadds.log hadds.output hadds.answer ht
  rw [hadds.buf] at hnext
  exact hnext

theorem trying_start (hs : Setting W e c events) : Trying W e c buf limit (fresh e c buf limit) :=
  ⟨going_start (worker_clean hs.worker) hs.notDone, fun _ => Or.inl rfl⟩

theorem tried_all (ht : Tried W e c buf limit events bufs (fresh e c buf limit) h') :
    h'.log.map Executed.buf = upTo (solves c events) bufs ∧
      (isDone h'.cond.stmt = true ↔ ∃ b ∈ bufs, solves c events b = true) := by
  refine ⟨ht.order List.not_mem_nil, ?_⟩
  rw [ht.trying.going.account.done, ht.explored]
  exact or_iff_right List.not_mem_nil

end Steps

/-! ## One byte -/

section Op
variable {h0 h : SearchHandler}

theorem measure_op (e : Executor) (c : Cond) (output : Option ℕ) :
    (SearchHistory.measure e c output).2.1.stmt.base.op = c.stmt.base.op := by
  cases output with
  | none => rfl
  | some f =>
    simp only [SearchHistory.measure, check_consistent_stmt]
    unfold checkInvariable checkExplored
    split_ifs <;> rfl

theorem conclude_op (e : Executor) (c : Cond) (output : Option ℕ) (a : Answer) :
    (conclude (SearchHistory.measure e c output) a).cond.stmt.base.op = c.stmt.base.op := by
  rw [conclude, (check_timeout_shared _ _ _).2]
  exact measure_op e c output

theorem session_op (hs : Session W h0 h) : h.cond.stmt.base.op = h0.cond.stmt.base.op := by
  induction hs with
  | start => rfl
  | @plain h buf _ ih =>
    rw [← ih]
    exact conclude_op (runInner (runInit h.executor) (W.answer h.log buf)) h.cond none _
  | @cond h _ ih =>
    let a := W.answer h.log h.buf
    rw [← ih]
    exact conclude_op (measuring h.executor h.cond a) h.cond (some (outputOf h.executor h.cond a)) a
  | edit buf vars _ ih => exact ih

end Op

section OneByte
variable {m0 : MutInput} {h : SearchHandler}

theorem one_byte_metas (ha : Apart c.stmt.offsets)
    (h0 : fromOffsets c.stmt.offsets buf = some m0) (h1 : m0.value.length = 1) :
    ∃ sign, m0.metas = [⟨sign, 0, 1⟩] := by
  have htotal := (value_total ha h0).symm.trans h1
  rw [from_offsets_eq ha, Option.some.injEq] at h0
  rw [← h0]
  have hne := ha.nonempty
  generalize c.stmt.offsets = offsets at htotal hne
  match offsets with
  | [] => simp [windowsOf] at htotal
  | [t] =>
    simp only [windowsOf, windowOf, total, List.map_cons, List.map_nil, List.sum_cons,
      List.sum_nil] at htotal
    exact ⟨t.sign, by simp [metasOf, IsWidth, show t.stop-t.start = 1 by omega]⟩
  | t::u::ts =>
    simp only [windowsOf, windowOf, total, List.map_cons, List.sum_cons] at htotal
    have := hne t (by simp)
    have := hne u (by simp)
    omega

theorem set_byte {m : MutInput} {sign : Bool} (hm : m.metas = [⟨sign, 0, 1⟩])
    (h1 : m.value.length = 1) (i : ℕ) :
    MutInputModel.set m 0 i = some { m with value := [UInt8.ofNat i] } := by
  have hrest : m.value.drop 1 = [] := List.drop_eq_nil_of_le h1.le
  rw [MutInputModel.set, hm]
  simp [setValInBuf, IsWidth, splice, leBytes, h1, hrest]

theorem one_byte_loop_tried (hs : Setting W e c events) (hx : isExplore c.stmt.base = true)
    (htotal : total (windowsOf c.stmt.offsets) = 1) {sign : Bool} (is : List ℕ)
    (input : MutInput) (hm : input.metas = [⟨sign, 0, 1⟩]) (h1 : input.value.length = 1)
    (h : SearchHandler) (ht : Trying W e c buf limit h) :
    ∃ h', oneByteLoop W is input h = some h' ∧ Tried W e c buf limit events
      (is.map fun i => written c.stmt.offsets buf [UInt8.ofNat i]) h h' := by
  induction is generalizing input h with
  | nil => exact ⟨h, rfl, tried_nil ht⟩
  | cons i is ih =>
    rw [oneByteLoop]
    by_cases hdone : isDone h.cond.stmt = true
    · exact ⟨h, by rw [if_pos hdone], tried_solved ht (ht.going.account.done.mp hdone)⟩
    · have hopen : ¬ Explored h.log := fun he => hdone (ht.going.account.done.mpr he)
      have hkind : isExplore h.cond.stmt.base = true := by
        rw [isExplore, session_op ht.going.session]
        exact hx
      obtain ⟨r, x, hexec, hadds⟩ := execute_cond_adds hs.apart ht.going ht.placed hopen
        (m := { input with value := [UInt8.ofNat i] }) htotal.symm
      obtain ⟨h', hloop, htried⟩ := ih { input with value := [UInt8.ofNat i] } hm rfl r.1
        ⟨hadds.going, hadds.placed⟩
      refine ⟨h', ?_, tried_next hs hopen hadds htried⟩
      rw [if_neg hdone, set_byte hm h1, Option.bind_some, oneByteExecute, if_pos hkind, hexec]
      exact hloop

/-- On its first search for a condition on one byte, `OneByteFuzz` executes the seed and
then all values of the byte in turn, up to the first one that solves the condition. Neither
timeouts nor a flat output nor an interrupt end it before. -/
theorem one_byte_fuzz_tries (hs : Setting W e c events) (hx : isExplore c.stmt.base = true)
    (hfirst : c.fuzzTimes = 0) (h0 : fromOffsets c.stmt.offsets buf = some m0)
    (h1 : m0.value.length = 1) :
    let bufs := buf :: (List.range 256).map fun i => written c.stmt.offsets buf [UInt8.ofNat i]
    ∃ h, oneByteFuzz W (newHandler e c buf) = some h ∧
      h.log.map Executed.buf = upTo (solves c events) bufs ∧
      (isDone h.cond.stmt = true ↔ ∃ b ∈ bufs, solves c events b = true) := by
  intro bufs
  obtain ⟨sign, hm⟩ := one_byte_metas hs.apart h0 h1
  have hstart : Trying W e c buf 257 (fresh e c buf 257) := trying_start hs
  let first := executeCondDirect W (fresh e c buf 257)
  have htry : Trying W e c buf 257 first.1 :=
    ⟨⟨.cond hstart.going.session, execute_cond_account W hstart.going.account⟩,
      fun _ => Or.inl rfl⟩
  obtain ⟨h', hloop, htried⟩ := one_byte_loop_tried hs hx ((value_total hs.apart h0).symm.trans h1)
    (List.range 256) m0 hm h1 first.1 htry
  have htried := tried_cons hs List.not_mem_nil htry.going rfl rfl rfl htried
  refine ⟨h', ?_, tried_all htried⟩
  have htime : isFirstTime (newHandler e c buf).cond = true := by
    simp [isFirstTime, newHandler, hfirst]
  have hget : getFInput { newHandler e c buf with maxTimes := 257 } = some m0 := h0
  have hkind : isExplore (newHandler e c buf).cond.stmt.base = true := hx
  rw [oneByteFuzz, if_pos htime]
  simp only [hget, Option.bind_some, if_pos h1, oneByteDirect, if_pos hkind]
  exact hloop

theorem nine_setting (state : CondState) : Setting nine newExecutor (sought state) nineEvents := by
  refine ⟨.new, rfl, by cases state <;> decide, ⟨fun log buf => ?_, Or.inr ?_⟩, fun _ _ => rfl,
    by cases state <;> decide⟩
  · exact lt_of_le_of_lt List.countP_le_length (by simp [nine, nineEvents])
  · intro log buf c hc
    simp [nine, nineEvents, tick] at hc

theorem one_byte_fuzz_tries_nine :
    ∃ h, oneByteFuzz nine (newHandler newExecutor (sought .oneByte) [5, 1]) = some h ∧
      isDone h.cond.stmt = true := by
  have h0 : fromOffsets (sought .oneByte).stmt.offsets [5, 1] = some lastByte := rfl
  obtain ⟨h, hr, -, hdone⟩ := one_byte_fuzz_tries (nine_setting .oneByte) rfl rfl h0 rfl
  refine ⟨h, hr, hdone.mpr ⟨_, List.mem_cons_of_mem _ (List.mem_map_of_mem (a := 9) ?_), rfl⟩⟩
  exact List.mem_range.mpr (by decide)

end OneByte

/-! ## Bits -/

section Bits
variable {m0 : MutInput}

def flipped (value : List UInt8) (i : ℕ) : List UInt8 :=
  value.modify (i / 8) (· ^^^ (128 >>> UInt8.ofNat (i % 8)))

theorem flipped_length (value : List UInt8) (i : ℕ) : (flipped value i).length = value.length :=
  List.length_modify _ _ _

theorem flipped_twice (value : List UInt8) (i : ℕ) : flipped (flipped value i) i = value := by
  apply List.ext_getElem?
  intro j
  rw [flipped, flipped, List.modify_modify_eq, List.getElem?_modify]
  cases value[j]? with
  | none => rfl
  | some b =>
    simp only [Option.map_eq_map, Option.map_some, Function.comp_apply]
    rw [UInt8.xor_assoc, UInt8.xor_self, UInt8.xor_zero, ite_self]

theorem bitflip_eq {m : MutInput} {i : ℕ} (h : i < m.value.length*8) :
    bitflip m i = some { m with value := flipped m.value i } := by
  have hlt : i / 8 < m.value.length := by omega
  have hset : m.value.set (i / 8) (m.value[i / 8] ^^^ (128 >>> UInt8.ofNat (i % 8))) =
      flipped m.value i := by
    apply List.ext_getElem?
    intro j
    rw [flipped, List.getElem?_modify, List.getElem?_set]
    split_ifs with hj
    · rw [← hj, List.getElem?_eq_getElem hlt]
      simp
    · simp
  rw [bitflip, flipBit, List.getElem?_eq_getElem hlt, ← hset]
  rfl

/-- Every round leaves the input as it found it. -/
theorem bitflip_loop_tried (hs : Setting W e c events)
    (h0 : fromOffsets c.stmt.offsets buf = some m0) (is : List ℕ)
    (hi : ∀ i ∈ is, i < m0.value.length*8) (h : SearchHandler) (ht : Trying W e c buf limit h) :
    ∃ h', bitflipLoop W is m0 h = some h' ∧ Tried W e c buf limit events
      (is.map fun i => written c.stmt.offsets buf (flipped m0.value i)) h h' := by
  induction is generalizing h with
  | nil => exact ⟨h, rfl, tried_nil ht⟩
  | cons i is ih =>
    rw [bitflipLoop]
    by_cases hdone : isDone h.cond.stmt = true
    · exact ⟨h, by rw [if_pos hdone], tried_solved ht (ht.going.account.done.mp hdone)⟩
    · have hopen : ¬ Explored h.log := fun he => hdone (ht.going.account.done.mpr he)
      have hbit := hi i List.mem_cons_self
      obtain ⟨r, x, hexec, hadds⟩ := execute_cond_adds hs.apart ht.going ht.placed hopen
        (m := { m0 with value := flipped m0.value i })
        ((flipped_length _ _).trans (value_total hs.apart h0))
      obtain ⟨h', hloop, htried⟩ := ih (fun i hm => hi i (List.mem_cons_of_mem _ hm)) r.1
        ⟨hadds.going, hadds.placed⟩
      refine ⟨h', ?_, tried_next hs hopen hadds htried⟩
      have hback : bitflip { m0 with value := flipped m0.value i } i = some m0 := by
        rw [bitflip_eq (by rw [flipped_length]; exact hbit)]
        simp only [flipped_twice]
      rw [if_neg hdone, bitflip_eq hbit, Option.bind_some, hexec, Option.bind_some, hback]
      exact hloop

/-- `DetFuzz` executes the seed with each of its first 376 bits flipped alone, up to the
first one that solves the condition, and the seed itself never. -/
theorem det_fuzz_tries (hs : Setting W e c events)
    (h0 : fromOffsets c.stmt.offsets buf = some m0) :
    let bufs := (List.range (min (m0.value.length*8) MAX_SEARCH_EXEC_NUM)).map fun i =>
      written c.stmt.offsets buf (flipped m0.value i)
    ∃ h, detFuzz W (newHandler e c buf) = some h ∧
      h.log.map Executed.buf = upTo (solves c events) bufs ∧
      (isDone h.cond.stmt = true ↔ ∃ b ∈ bufs, solves c events b = true) := by
  intro bufs
  have hstart : Trying W e c buf MAX_SEARCH_EXEC_NUM (newHandler e c buf) := trying_start hs
  obtain ⟨h', hloop, htried⟩ := bitflip_loop_tried hs h0
    (List.range (min (m0.value.length*8) MAX_SEARCH_EXEC_NUM))
    (fun i hi => lt_of_lt_of_le (List.mem_range.mp hi) (min_le_left _ _)) _ hstart
  refine ⟨h', ?_, tried_all htried⟩
  rw [detFuzz, bitflip1, get_f_input_new h0, Option.bind_some]
  exact hloop

theorem det_fuzz_tries_nine :
    ∃ h, detFuzz nine (newHandler newExecutor (sought .deterministic) [5, 1]) = some h ∧
      isDone h.cond.stmt = true := by
  have h0 : fromOffsets (sought .deterministic).stmt.offsets [5, 1] = some lastByte := rfl
  obtain ⟨h, hr, -, hdone⟩ := det_fuzz_tries (nine_setting .deterministic) h0
  refine ⟨h, hr, hdone.mpr ⟨_, List.mem_map_of_mem (a := 4) ?_, rfl⟩⟩
  exact List.mem_range.mpr (by decide)

end Bits

end Parmesan.SearchExhausts
