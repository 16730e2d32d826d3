import Parmesan.SearchModel

/-!
# The lengths of the buffers that a search runs

`sync_depot` discards files of `MAX_INPUT_LEN` bytes and more. Each strategy has its
own arithmetic of lengths; `Fits` is the part of it that the code leaves unchecked,
and runs whose searches fit stay below the limit over any number of generations.
-/

set_option autoImplicit false

namespace Parmesan.SearchLength
open Parmesan.Bytes Parmesan.Execution Parmesan.Segments Parmesan.TagSetModel
open Parmesan.CondModel Parmesan.CondOutput Parmesan.DepotModel
open Parmesan.MutInputModel Parmesan.MutInputLens Parmesan.SearchModel
open Parmesan.AflSync (maxInputLen)

def Below (bufs : List (List UInt8)) : Prop := ∀ buf ∈ bufs, buf.length < maxInputLen

theorem below_nil : Below [] := by
  intro buf hbuf
  exact absurd hbuf List.not_mem_nil

theorem below_cons (buf : List UInt8) (bufs : List (List UInt8)) :
    Below (buf::bufs) ↔ buf.length < maxInputLen ∧ Below bufs := List.forall_mem_cons

theorem below_append (bufs bufs' : List (List UInt8)) :
    Below (bufs ++ bufs') ↔ Below bufs ∧ Below bufs' := List.forall_mem_append

theorem below_filter {bufs : List (List UInt8)} (h : Below bufs) (keep : List UInt8 → Bool) :
    Below (bufs.filter keep) := by
  intro buf hbuf
  exact h buf (List.mem_of_mem_filter hbuf)

theorem below_option {r : Option (List UInt8)}
    (h : ∀ buf, r = some buf → buf.length < maxInputLen) : Below r.toList := by
  intro buf hbuf
  exact h buf (Option.mem_toList.mp hbuf)

section Afl

theorem locate_first_lt (buf1 buf2 : List UInt8) (len fLoc : ℕ)
    (h : (locateDiffs buf1 buf2 len).1 = some fLoc) : fLoc < len := by
  induction len with
  | zero => simp [locateDiffs] at h
  | succ i ih =>
    simp only [locateDiffs] at h
    split_ifs at h with hdiff
    · cases hfirst : (locateDiffs buf1 buf2 i).1 with
      | none =>
        rw [hfirst] at h
        have hi : i = fLoc := Option.some.inj h
        omega
      | some f =>
        rw [hfirst] at h
        have hf := ih (hfirst.trans h)
        omega
    · have hf := ih h
      omega

theorem locate_diffs_spec (buf1 buf2 : List UInt8) (len fLoc lLoc : ℕ)
    (h : locateDiffs buf1 buf2 len = (some fLoc, some lLoc)) : fLoc ≤ lLoc ∧ lLoc < len := by
  induction len with
  | zero => simp [locateDiffs] at h
  | succ i ih =>
    have hfirst := locate_first_lt buf1 buf2 (i+1) fLoc (congrArg Prod.fst h)
    simp only [locateDiffs] at h
    split_ifs at h with hdiff
    · have hlast : i = lLoc := Option.some.inj (congrArg Prod.snd h)
      omega
    · have hlocs := ih h
      omega

theorem splice_two_vec_length {buf1 buf2 buf : List UInt8} {draw : ℕ}
    (h : spliceTwoVec buf1 buf2 draw = some buf) : buf.length = buf2.length := by
  simp only [spliceTwoVec] at h
  split_ifs at h with hlen
  split at h
  · rename_i fLoc lLoc hlocs
    split_ifs at h with hne
    have hbuf := Option.some.inj h
    have hspec := locate_diffs_spec _ _ _ _ _ hlocs
    have hdraw := Nat.mod_lt draw (show 0 < lLoc-fLoc by omega)
    rw [← hbuf, List.length_append, List.length_take, List.length_drop]
    omega
  · exact absurd h (by simp)

theorem set_val_length {buf buf' : List UInt8} {off size val : ℕ}
    (h : setValInBuf buf off size val = some buf') : buf'.length = buf.length := by
  rw [setValInBuf] at h
  split_ifs at h with hfit
  rw [← Option.some.inj h]
  apply splice_length
  simpa using hfit.2

theorem update_val_length {buf buf' : List UInt8} {sign direction : Bool} {off size delta : ℕ}
    (h : updateValInBuf buf sign off size direction delta = some buf') :
    buf'.length = buf.length := by
  obtain ⟨v, -, h⟩ := Option.bind_eq_some_iff.mp h
  exact set_val_length h

/-- What the rounds of `havoc_flip` keep: `byte_len` is the length of the buffer. -/
structure Tracked (st : List UInt8 × ℕ) : Prop where
  length_eq : st.2 = st.1.length
  below : st.1.length < maxInputLen

theorem tracked_same {st : List UInt8 × ℕ} (h : Tracked st) {buf : List UInt8}
    (hlen : buf.length = st.1.length) : Tracked (buf, st.2) := by
  constructor
  · exact h.length_eq.trans hlen.symm
  · rw [hlen]
    exact h.below

theorem havoc_round_tracked (r : Havoc) (st st' : List UInt8 × ℕ)
    (hr : havocRound st r = some st') (h : Tracked st) : Tracked st' := by
  have hlen := h.length_eq
  have hbelow := h.below
  cases r with
  | flip byteIdx bitIdx =>
    simp only [havocRound] at hr
    split_ifs at hr
    obtain ⟨b, -, rfl⟩ := Option.map_eq_some_iff.mp hr
    exact tracked_same h List.length_set
  | arith n byteIdx v direction =>
    simp only [havocRound] at hr
    split_ifs at hr
    obtain ⟨size, -, hr⟩ := Option.bind_eq_some_iff.mp hr
    split_ifs at hr
    · obtain ⟨buf, hbuf, rfl⟩ := Option.map_eq_some_iff.mp hr
      exact tracked_same h (update_val_length hbuf)
    · rw [← Option.some.inj hr]
      exact h
  | interesting n byteIdx wh =>
    simp only [havocRound] at hr
    split_ifs at hr
    obtain ⟨size, -, hr⟩ := Option.bind_eq_some_iff.mp hr
    split_ifs at hr
    · obtain ⟨v, -, hr⟩ := Option.bind_eq_some_iff.mp hr
      obtain ⟨buf, hbuf, rfl⟩ := Option.map_eq_some_iff.mp hr
      exact tracked_same h (set_val_length hbuf)
    · rw [← Option.some.inj hr]
      exact h
  | randomByte byteIdx val =>
    simp only [havocRound] at hr
    split_ifs at hr
    rw [← Option.some.inj hr]
    exact tracked_same h List.length_set
  | delete removeLen byteIdx =>
    simp only [havocRound] at hr
    split_ifs at hr with hdraw hroom hidx
    · rw [← Option.some.inj hr]
      constructor
      · simp only [List.length_append, List.length_take, List.length_drop]
        omega
      · simp only [List.length_append, List.length_take, List.length_drop]
        omega
    · rw [← Option.some.inj hr]
      exact h
  | insert addLen byteIdx fill =>
    simp only [havocRound] at hr
    split_ifs at hr with hdraw hroom hidx
    · rw [← Option.some.inj hr]
      have hnew : (st.1.take byteIdx ++ randomBytes fill addLen ++ st.1.drop byteIdx).length =
          st.2+addLen := by
        simp only [List.length_append, List.length_take, List.length_drop, random_bytes_length]
        omega
      constructor
      · exact hnew.symm
      · rw [hnew]
        exact hroom
    · rw [← Option.some.inj hr]
      exact h

theorem tracked_start {buf : List UInt8} (h : buf.length < maxInputLen) :
    Tracked (buf, buf.length % 2^32) := by
  constructor
  · apply Nat.mod_eq_of_lt
    unfold maxInputLen at h
    omega
  · exact h

theorem havoc_flip_below {buf buf' : List UInt8} {rounds : List Havoc}
    (h : havocFlip buf rounds = some buf') (hbuf : buf.length < maxInputLen) :
    buf'.length < maxInputLen := by
  rw [havocFlip] at h
  split_ifs at h
  obtain ⟨st, hst, rfl⟩ := Option.map_eq_some_iff.mp h
  have hend : Tracked (buf, buf.length % 2^32) → Tracked st :=
    fold_relates (R := fun s t => Tracked s → Tracked t) (fun _ hs => hs)
      (fun _ _ _ h1 h2 hs => h2 (h1 hs)) rounds
      (fun r _ s t hr => havoc_round_tracked r s t hr) _ st hst
  exact (hend (tracked_start hbuf)).below

theorem grow_loop_below (buf : List UInt8) (vs : List (List UInt8)) : Below (growLoop buf vs) := by
  induction vs generalizing buf with
  | nil => exact below_nil
  | cons v vs ih =>
    rw [growLoop]
    split_ifs with hroom
    · rw [below_cons]
      exact ⟨hroom, ih (buf ++ v)⟩
    · exact below_nil

theorem random_len_below (buf : List UInt8) (draw : ℕ → ℕ) (fill : ℕ → ℕ → UInt8) :
    Below (randomLen buf draw fill) := by
  rw [randomLen]
  split_ifs
  · exact below_nil
  · exact below_nil
  · exact grow_loop_below _ _

theorem add_small_len_below (buf : List UInt8) (fill : ℕ → ℕ → UInt8) :
    Below (addSmallLen buf fill) := by
  rw [addSmallLen]
  split_ifs
  · exact below_nil
  · exact grow_loop_below _ _

theorem afl_len_below (buf : List UInt8) (draw : ℕ → ℕ) (fill : ℕ → ℕ → UInt8) :
    Below (aflLen buf draw fill) := by
  rw [aflLen]
  split_ifs
  · exact random_len_below buf draw fill
  · exact add_small_len_below buf fill

end Afl

section Len

/-- The one or two bytes that are appended after the check pass the limit. -/
def LenFits (base : CondStmtBase) (buf : List UInt8) : Prop :=
  0 < getOutput base → buf.length+extendedLen base < maxInputLen →
    buf.length+extendedLen base+2 < maxInputLen

theorem len_fuzz_shorter (ext bufLen : ℕ) {cut : List UInt8} (hcut : cut.length < maxInputLen) :
    Below (if ext < bufLen then cut::(if ext+1 < bufLen then [cut.dropLast] else []) else []) := by
  have hless : cut.dropLast.length < maxInputLen := by
    rw [List.length_dropLast]
    omega
  split_ifs
  · rw [below_cons, below_cons]
    exact ⟨hcut, hless, below_nil⟩
  · rw [below_cons]
    exact ⟨hcut, below_nil⟩
  · exact below_nil

theorem len_fuzz_below_iff (base : CondStmtBase) {buf : List UInt8} (fill : ℕ → UInt8)
    (hbuf : buf.length < maxInputLen) : Below (lenFuzz base buf fill) ↔ LenFits base buf := by
  have htake : ∀ l : List UInt8, (l.take (buf.length-extendedLen base)).length < maxInputLen := by
    intro l
    rw [List.length_take]
    omega
  have hshort := fun l : List UInt8 => len_fuzz_shorter (extendedLen base) buf.length (htake l)
  unfold lenFuzz LenFits
  by_cases hpos : 0 < getOutput base
  · by_cases hgrow : buf.length+extendedLen base < maxInputLen
    · have hext : extendedLen base < maxInputLen := by omega
      simp only [hpos, hext, hgrow, and_self, if_true, forall_const, below_cons, specialChars,
        List.map_cons, List.map_nil, List.cons_append, List.nil_append, List.length_append,
        List.length_dropLast, random_bytes_length, List.length_singleton]
      constructor
      · intro h
        omega
      · intro h
        exact ⟨by omega, by omega, by omega, by omega, by omega, by omega, hshort _⟩
    · simp only [hpos, hgrow, true_and, if_false, false_implies, forall_const, iff_true,
        List.nil_append]
      by_cases hext : extendedLen base < maxInputLen
      · rw [if_pos hext]
        exact hshort buf
      · rw [if_neg hext]
        exact below_nil
  · simp only [hpos, false_and, if_false, false_implies, iff_true]
    exact below_nil

/-- The distance of the operands in elements, and in bytes. -/
def lenDistance (base : CondStmtBase) : ℕ := ((base.arg1 : ℤ)-base.arg2).natAbs

def lenBytes (base : CondStmtBase) : ℕ := lenDistance base*base.lb2

/-- The lengths that are meant to be run for a buffer of `len` bytes that is `x` bytes
away from the length that is wanted. -/
def intendedLens (len x : ℕ) : List ℕ :=
  (if len+x < maxInputLen then
    (len+x+1)::(List.replicate specialChars.length (len+x+2)) ++ [len+x] else []) ++
  if x < len then (len-x)::(if x+1 < len then [len-x-1] else []) else []

theorem get_output_len {base : CondStmtBase} (h : base.op = COND_LEN_OP) :
    getOutput base = lenDistance base := by
  have hsigned : isSigned base = false := by
    rw [isSigned, h]
    decide
  have hwanted : wantedOp base = 3 := by
    rw [wantedOp, basicOp, isExplore, h]
    rfl
  have heval : getOutput base = subAbs base.arg1 base.arg2 := by
    rw [getOutput, evalOutput, hwanted, operand, operand, hsigned]
    rfl
  rw [heval, subAbs, lenDistance]
  split_ifs <;> omega

theorem len_fuzz_lengths {base : CondStmtBase} (buf : List UInt8) (fill : ℕ → UInt8)
    (hpos : 0 < getOutput base) (hext : extendedLen base < maxInputLen) :
    (lenFuzz base buf fill).map List.length = intendedLens buf.length (extendedLen base) := by
  unfold lenFuzz intendedLens
  rw [if_pos ⟨hpos, hext⟩]
  generalize extendedLen base = x
  simp only [List.map_append]
  congr 1
  · split_ifs
    · simp [specialChars]
      omega
    · rfl
  · split_ifs
    all_goals simp [List.length_take]
    all_goals omega

/-- `LenFuzz::run` runs the lengths it means exactly if the product of the distance and the
size of an element does not wrap. -/
theorem len_fuzz_lengths_iff {base : CondStmtBase} (h : base.op = COND_LEN_OP) (buf : List UInt8)
    (fill : ℕ → UInt8) :
    (extendedLen base = lenBytes base ∧ (lenFuzz base buf fill).map List.length =
      if base.arg1 = base.arg2 ∨ maxInputLen ≤ lenBytes base then []
      else intendedLens buf.length (lenBytes base)) ↔ lenBytes base < 2^64 := by
  have houtput := get_output_len h
  have hext : extendedLen base = lenBytes base % 2^64 := by rw [extendedLen, houtput, lenBytes]
  have hzero : base.arg1 = base.arg2 ↔ ¬ 0 < getOutput base := by
    rw [houtput, lenDistance]
    omega
  constructor
  · intro hall
    rw [← hall.1, hext]
    exact Nat.mod_lt _ (by decide)
  · intro hlt
    rw [Nat.mod_eq_of_lt hlt] at hext
    refine ⟨hext, ?_⟩
    rw [← hext]
    split_ifs with hnone
    · have hskip : ¬ (0 < getOutput base ∧ extendedLen base < maxInputLen) := by
        rw [hzero] at hnone
        omega
      rw [lenFuzz, if_neg hskip]
      rfl
    · rw [hzero] at hnone
      exact len_fuzz_lengths buf fill (by omega) (by omega)

def lenCond (lb2 arg1 : ℕ) : CondStmtBase where
  cmpid := 1
  context := 0
  lastCallsite := 0
  order := 0x10001
  belong := 0
  condition := COND_FALSE_ST
  level := 0
  op := COND_LEN_OP
  size := 8
  lb1 := 0
  lb2 := lb2
  arg1 := arg1
  arg2 := 0

/-- Two elements of four bytes, and a buffer of ten. -/
theorem len_fuzz_lengths_iff_elements :
    (lenCond 4 2).op = COND_LEN_OP ∧ lenBytes (lenCond 4 2) = 8 ∧
    intendedLens 10 8 = [19, 20, 20, 20, 20, 18, 2, 1] ∧
    (lenFuzz (lenCond 4 2) (List.replicate 10 7) fun _ => 0).map List.length = intendedLens 10 8 := by
  refine ⟨rfl, rfl, rfl, ?_⟩
  exact ((@len_fuzz_lengths_iff (lenCond 4 2) rfl _ _).mpr (by decide)).2

/-- `2^62` elements of four bytes are `2^64` bytes and none after the product wraps. Eight
buffers are run for a distance that no buffer can have. -/
theorem len_fuzz_wraps :
    (lenCond 4 (2^62)).arg1 < 2^64 ∧ (lenCond 4 (2^62)).op = COND_LEN_OP ∧
    lenBytes (lenCond 4 (2^62)) = 2^64 ∧ extendedLen (lenCond 4 (2^62)) = 0 ∧
    (lenFuzz (lenCond 4 (2^62)) [1, 2, 3] fun _ => 0).map List.length =
      [4, 5, 5, 5, 5, 3, 3, 2] := by
  decide

end Len

section Write

theorem set_segment_length {bytes : List UInt8} {st st' : List UInt8 × ℕ} {off : TagSeg}
    (h : setSegment bytes st off = some st') : st'.1.length = st.1.length := by
  simp only [setSegment] at h
  split_ifs at h with hne hfit
  · rw [← Option.some.inj h]
    have hslice := slice_length bytes st.2 (off.stop-off.start) hfit.2
    apply splice_length
    rw [hslice]
    omega
  · rw [← Option.some.inj h]

theorem set_bytes_length {offsets : List TagSeg} {bytes buf buf' : List UInt8}
    (h : setBytesByOffsets offsets bytes buf = some buf') : buf'.length = buf.length := by
  obtain ⟨st, hst, rfl⟩ := Option.map_eq_some_iff.mp h
  exact fold_relates (R := fun s t : List UInt8 × ℕ => t.1.length = s.1.length) (fun _ => rfl)
    (fun _ _ _ h1 h2 => h2.trans h1) offsets (fun _ _ _ _ hs => set_segment_length hs) _ st hst

theorem write_to_input_length {m : MutInput} {offsets : List TagSeg} {input buf : List UInt8}
    (h : writeToInput m offsets input = some buf) :
    buf.length = max input.length (extent offsets) := by
  rw [write_to_input_eq] at h
  rw [set_bytes_length h, zero_extend_length]

theorem execute_input_spec {h h' : Handler} {m : MutInput} (hrun : executeInput h m = some h') :
    h'.buf.length = max h.buf.length (extent h.offsets) ∧ h'.offsets = h.offsets := by
  obtain ⟨buf, hbuf, rfl⟩ := Option.map_eq_some_iff.mp hrun
  exact ⟨write_to_input_length hbuf, rfl⟩

end Write

section Cond

def isInput : Exec → Bool
  | .direct => false
  | .input _ _ => true

theorem run_exec_spec {h h' : Handler} {m m' : MutInput} {e : Exec}
    (hrun : runExec h m e = some (h', m')) : h'.offsets = h.offsets ∧
      h'.buf.length = if isInput e then max h.buf.length (extent h.offsets) else h.buf.length := by
  cases e with
  | direct =>
    have hsame : h = h' := congrArg Prod.fst (Option.some.inj hrun)
    rw [hsame]
    exact ⟨rfl, rfl⟩
  | input fresh ops =>
    obtain ⟨m1, -, hrun⟩ := Option.bind_eq_some_iff.mp hrun
    obtain ⟨m2, -, hrun⟩ := Option.bind_eq_some_iff.mp hrun
    obtain ⟨h1, hexec, hrun⟩ := Option.map_eq_some_iff.mp hrun
    have hsame : h1 = h' := congrArg Prod.fst hrun
    rw [← hsame]
    have hspec := execute_input_spec hexec
    exact ⟨hspec.2, hspec.1⟩

def Writes (ts : List Trial) : Prop := ∃ t ∈ ts, isInput t.exec = true

theorem run_trials_below (ts : List Trial) (h : Handler) (m : MutInput)
    (hbuf : h.buf.length < maxInputLen) (hext : Writes ts → extent h.offsets < maxInputLen) :
    Below (runTrials h m ts) := by
  induction ts generalizing h m with
  | nil => exact below_nil
  | cons t ts ih =>
    rw [runTrials]
    split
    · exact below_nil
    · rename_i h' m' hrun
      have hspec := run_exec_spec hrun
      have hnext : h'.buf.length < maxInputLen := by
        rw [hspec.2]
        split_ifs with hin
        · have hfirst := hext ⟨t, List.mem_cons_self, hin⟩
          omega
        · exact hbuf
      rw [below_cons]
      constructor
      · exact hnext
      · apply ih
        · exact hnext
        · intro hlater
          obtain ⟨t', ht', hin⟩ := hlater
          have hall := hext ⟨t', List.mem_cons_of_mem t ht', hin⟩
          split_ifs
          · show extent [] < maxInputLen
            decide
          · show extent h'.offsets < maxInputLen
            rw [hspec.1]
            exact hall

end Cond

section Fn

def valLen (offsets : List TagSeg) : ℕ := (offsets.map fun off => off.stop-off.start).sum

theorem val_len_append (offsets offsets' : List TagSeg) :
    valLen (offsets ++ offsets') = valLen offsets+valLen offsets' := by
  simp [valLen]

theorem val_len_single (t : TagSeg) : valLen [t] = t.stop-t.start := by simp [valLen]

theorem push_segment_value {input : List UInt8} {m m' : MutInput} {off : TagSeg}
    (h : pushSegment input m off = some m') :
    m'.value.length = m.value.length+(off.stop-off.start) := by
  by_cases hne : off.start = off.stop
  · have hsame : m = m' := by simpa [pushSegment, hne] using h
    rw [hsame, hne, Nat.sub_self, Nat.add_zero]
  · obtain ⟨ele, hlen, -, rfl⟩ := push_segment_spec h hne
    rw [push, List.length_append, hlen]

theorem segments_value (input : List UInt8) (offsets : List TagSeg) (m m' : MutInput)
    (h : offsets.foldlM (pushSegment input) m = some m') :
    m'.value.length = m.value.length+valLen offsets := by
  induction offsets generalizing m with
  | nil =>
    rw [← Option.some.inj h]
    rfl
  | cons off offsets ih =>
    rw [List.foldlM_cons] at h
    obtain ⟨u, hu, h⟩ := Option.bind_eq_some_iff.mp h
    rw [ih u h, push_segment_value hu, valLen, valLen, List.map_cons, List.sum_cons, Nat.add_assoc]

theorem get_f_input_length {h : Handler} {m : MutInput} (hm : getFInput h = some m) :
    m.value.length = valLen h.offsets := by
  have hlen := segments_value h.buf h.offsets newInput m hm
  rw [hlen]
  exact Nat.zero_add _

theorem insert_bytes_spec {h h' : Handler} {n : ℕ} (hins : insertBytes h n = some h') :
    ∃ last, h.offsets.getLast? = some last ∧
      h'.buf.length = max h.buf.length (last.stop+1)+n ∧ extent h'.offsets ≤ last.stop+n := by
  obtain ⟨last, hlast, hins⟩ := Option.bind_eq_some_iff.mp hins
  obtain ⟨v, -, rfl⟩ := Option.map_eq_some_iff.mp hins
  refine ⟨last, hlast, ?_, ?_⟩
  · simp only [List.length_append, List.length_take, List.length_drop, List.length_replicate]
    split_ifs with hshort
    · rw [zero_extend_length]
      omega
    · omega
  · cases n with
    | zero =>
      rw [List.range_zero, List.map_nil, List.append_nil, extent_last hlast, Nat.add_zero]
    | succ n =>
      rw [List.range_succ, List.map_append, ← List.append_assoc, List.map_singleton,
        extent_concat]
      exact Nat.mod_le _ _

def EndsBelow (offsets : List TagSeg) : Prop := ∀ off ∈ offsets, off.stop < maxInputLen

theorem extent_below {offsets : List TagSeg} (h : EndsBelow offsets) :
    extent offsets < maxInputLen := extent_lt (by decide) h

theorem remove_byte_spec {h h' : Handler} (hrem : removeByte h = some h') :
    h'.buf.length ≤ h.buf.length ∧ (EndsBelow h.offsets → EndsBelow h'.offsets) := by
  obtain ⟨last, hlast, hrem⟩ := Option.bind_eq_some_iff.mp hrem
  have hkept : EndsBelow h.offsets → EndsBelow h.offsets.dropLast :=
    fun hends off hmem => hends off (List.mem_of_mem_dropLast hmem)
  simp only at hrem
  split_ifs at hrem with hoff hsize
  · rw [← Option.some.inj hrem]
    constructor
    · exact List.length_eraseIdx_le _ _
    · intro hends off hmem
      rcases List.mem_append.mp hmem with hmem | hmem
      · exact hkept hends off hmem
      · rw [List.mem_singleton.mp hmem]
        have hlt := hends last (List.mem_of_getLast? hlast)
        show last.stop-1 < maxInputLen
        omega
  · rw [← Option.some.inj hrem]
    exact ⟨List.length_eraseIdx_le _ _, hkept⟩

theorem remove_bytes_spec (n : ℕ) (h h' : Handler) (hrem : removeBytes h n = some h') :
    h'.buf.length ≤ h.buf.length ∧ (EndsBelow h.offsets → EndsBelow h'.offsets) := by
  induction n generalizing h with
  | zero =>
    rw [← Option.some.inj hrem]
    exact ⟨Nat.le_refl _, fun hends => hends⟩
  | succ n ih =>
    rw [removeBytes] at hrem
    obtain ⟨h1, hfirst, hrest⟩ := Option.bind_eq_some_iff.mp hrem
    have hbyte := remove_byte_spec hfirst
    have hrun := ih h1 hrest
    exact ⟨hrun.1.trans hbyte.1, fun hends => hrun.2 (hbyte.2 hends)⟩

/-- The buffer with the bytes that are inserted, or the ends of the segments, stay
below the limit. -/
def FnFits (c : CondStmt) (buf : List UInt8) : Prop :=
  c.base.size ≤ c.vars.length →
    (valLen c.offsets < c.base.size → ∀ last ∈ c.offsets.getLast?,
      max buf.length (last.stop+1)+(c.base.size-valLen c.offsets) < maxInputLen) ∧
    (valLen c.offsets = c.base.size → extent c.offsets < maxInputLen) ∧
    (c.base.size < valLen c.offsets → EndsBelow c.offsets)

theorem resize_input_below {h h' : Handler} {len : ℕ}
    (hres : resizeInput h (valLen h.offsets) len = some h') (hbuf : h.buf.length < maxInputLen)
    (hins : valLen h.offsets < len → ∀ last ∈ h.offsets.getLast?,
      max h.buf.length (last.stop+1)+(len-valLen h.offsets) < maxInputLen)
    (hsame : valLen h.offsets = len → extent h.offsets < maxInputLen)
    (hrem : len < valLen h.offsets → EndsBelow h.offsets) :
    max h'.buf.length (extent h'.offsets) < maxInputLen := by
  rw [resizeInput] at hres
  split_ifs at hres with hless hmore
  · obtain ⟨last, hlast, hlen, hext⟩ := insert_bytes_spec hres
    have hroom := hins hless last hlast
    omega
  · have hspec := remove_bytes_spec _ _ _ hres
    have hext := extent_below (hspec.2 (hrem hmore))
    omega
  · rw [← Option.some.inj hres]
    have hext := hsame (by omega)
    omega

theorem fn_fuzz_below {c : CondStmt} {buf buf' : List UInt8} (h : fnFuzz c buf = some buf')
    (hbuf : buf.length < maxInputLen) (hfits : FnFits c buf) : buf'.length < maxInputLen := by
  obtain ⟨input, hinput, h⟩ := Option.bind_eq_some_iff.mp h
  split_ifs at h with hvars
  obtain ⟨h1, hres, h⟩ := Option.bind_eq_some_iff.mp h
  obtain ⟨input1, -, h⟩ := Option.bind_eq_some_iff.mp h
  split_ifs at h
  obtain ⟨h2, hexec, rfl⟩ := Option.map_eq_some_iff.mp h
  rw [get_f_input_length hinput] at hres
  obtain ⟨hins, hsame, hrem⟩ := hfits (by omega)
  rw [(execute_input_spec hexec).1]
  exact resize_input_below hres hbuf hins hsame hrem

end Fn

section Runs

def SearchFits (c : CondStmt) (buf : List UInt8) : Search → Prop
  | .aflLen _ _ => True
  | .splice _ _ => True
  | .havoc _ => True
  | .len _ => LenFits c.base buf
  | .fn => FnFits c buf
  | .cond s => ∀ m, getFInput ⟨buf, c.offsets⟩ = some m → Writes (trials m c.vars s) →
      extent c.offsets < maxInputLen

def Fits (st : State) : Event → Prop
  | .search c s _ => ∀ buf ∈ st.seeds[c.base.belong]?, SearchFits c buf s
  | .restart _ => True

theorem run_search_below {seeds : List (List UInt8)} {c : CondStmt} {buf : List UInt8}
    {s : Search} (hseeds : Below seeds) (hbuf : buf.length < maxInputLen)
    (hfits : SearchFits c buf s) : Below (runSearch seeds c buf s) := by
  cases s with
  | aflLen draw fill => exact afl_len_below buf draw fill
  | splice id draw =>
    apply below_option
    intro new hnew
    obtain ⟨buf2, hbuf2, hnew⟩ := Option.bind_eq_some_iff.mp hnew
    rw [splice_two_vec_length hnew]
    exact hseeds buf2 (List.mem_of_getElem? hbuf2)
  | havoc rounds =>
    apply below_option
    intro new hnew
    exact havoc_flip_below hnew hbuf
  | len fill => exact (len_fuzz_below_iff c.base fill hbuf).mpr hfits
  | fn =>
    apply below_option
    intro new hnew
    exact fn_fuzz_below hnew hbuf hfits
  | cond s =>
    show Below (condFuzz c buf s)
    rw [condFuzz]
    split
    · exact below_nil
    · rename_i m hm
      exact run_trials_below _ _ _ hbuf (hfits m hm)

structure Sound (st : State) : Prop where
  seeds : Below st.seeds
  executed : Below st.executed

theorem next_sound {st st' : State} {e : Event} (h : Sound st) (hfits : Fits st e)
    (hnext : next st e = some st') : Sound st' := by
  cases e with
  | search c s keep =>
    obtain ⟨buf, hbuf, rfl⟩ := Option.map_eq_some_iff.mp hnext
    have hseed := h.seeds buf (List.mem_of_getElem? hbuf)
    have hrun := run_search_below h.seeds hseed (hfits buf hbuf)
    constructor
    · exact (below_append _ _).mpr ⟨h.seeds, below_filter hrun keep⟩
    · exact (below_append _ _).mpr ⟨h.executed, hrun⟩
  | restart keep =>
    have hstate := Option.some.inj hnext
    have hsync : Below (syncDepot st.seeds) := below_filter h.seeds _
    rw [← hstate]
    constructor
    · exact below_filter hsync keep
    · exact (below_append _ _).mpr ⟨h.executed, hsync⟩

theorem sync_depot_keeps {bufs : List (List UInt8)} : syncDepot bufs = bufs ↔ Below bufs := by
  rw [syncDepot, List.filter_eq_self]
  simp only [decide_eq_true_eq]
  exact Iff.rfl

/-- Over any number of generations of seeds, every buffer run is below the limit and
a restart discards none of the seeds. -/
theorem searches_stay_below {seeds : List (List UInt8)} (hseeds : Below seeds) {st : State}
    (h : Reachable next Fits ⟨seeds, []⟩ st) :
    Below st.executed ∧ syncDepot st.seeds = st.seeds := by
  have hsound : Sound st := by
    apply reachable_invariant (P := Sound) _ _ h
    · exact ⟨hseeds, below_nil⟩
    · intro s e t hs hfits hnext
      exact next_sound hs hfits hnext
  exact ⟨hsound.executed, sync_depot_keeps.mpr hsound.seeds⟩

def FromLoop (_ : State) : Event → Prop
  | .search c s _ => Dispatched c s
  | .restart _ => True

def condOf (op belong lb2 arg1 : ℕ) : CondStmt where
  base := { cmpid := 1, context := 0, lastCallsite := 0, order := 0, belong, condition := 0,
            level := 0, op, size := 0, lb1 := 0, lb2, arg1, arg2 := 0 }
  offsets := []
  offsetsOpt := []
  vars := []
  speed := 0
  isDesirable := true
  state := .offset

def lenEvent : Event :=
  .search (condOf COND_LEN_OP 0 1 1) (.len fun _ => 7) fun _ => true

def havocEvent : Event :=
  .search (condOf COND_AFL_OP 1 0 0) (.havoc [.insert 4 2 fun _ => 9]) fun _ => false

def longSeed : List UInt8 := List.replicate 14998 0

/-- One byte is missing for the length that is wanted: the check sees 14999 bytes, and
buffers of 15000 and of 15001 bytes are run and saved. -/
theorem len_fuzz_passes_limit : Below [longSeed] ∧ ∃ st,
    Reachable next FromLoop ⟨[longSeed], []⟩ st ∧ ¬ Below st.executed ∧
      syncDepot st.seeds ≠ st.seeds := by
  have hlen : longSeed.length = 14998 := List.length_replicate
  have hseed : Below [longSeed] := by
    rw [below_cons, hlen]
    exact ⟨by decide, below_nil⟩
  have hnot : ¬ Below (lenFuzz (condOf COND_LEN_OP 0 1 1).base longSeed fun _ => 7) := by
    rw [len_fuzz_below_iff _ _ (hseed longSeed List.mem_cons_self), LenFits, hlen]
    decide
  have hloop : FromLoop ⟨[longSeed], []⟩ lenEvent := by
    show getFuzzType (condOf COND_LEN_OP 0 1 1).base = .lenFuzz
    decide
  refine ⟨hseed, _, Reachable.step Reachable.start hloop rfl, ?_, ?_⟩
  · intro hbelow
    exact hnot ((below_append _ _).mp hbelow).2
  · intro hsync
    have hall := ((below_append _ _).mp (sync_depot_keeps.mp hsync)).2
    rw [List.filter_true] at hall
    exact hnot hall

theorem searches_stay_below_generations : Below [[1, 2, 3]] ∧ ∃ st,
    Reachable next Fits ⟨[[1, 2, 3]], []⟩ st ∧
      st.executed.map List.length = [5, 6, 6, 6, 6, 4, 2, 1, 9] ∧
      Below st.executed ∧ syncDepot st.seeds = st.seeds := by
  have hseed : Below [[1, 2, 3]] := by
    rw [below_cons]
    exact ⟨by decide, below_nil⟩
  have hlen : Fits ⟨[[1, 2, 3]], []⟩ lenEvent := by
    intro buf hbuf
    rw [← Option.some.inj hbuf]
    show LenFits _ _
    rw [LenFits]
    decide
  have hhavoc : ∀ st, Fits st havocEvent := by
    intro st buf _
    trivial
  have hfirst : Reachable next Fits ⟨[[1, 2, 3]], []⟩ _ := Reachable.step Reachable.start hlen rfl
  have hrun := Reachable.step hfirst (hhavoc _) rfl
  exact ⟨hseed, _, hrun, by decide, searches_stay_below hseed hrun⟩

end Runs
end Parmesan.SearchLength
