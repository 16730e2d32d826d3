import Mathlib.Algebra.Order.BigOperators.Group.List
import Mathlib.Algebra.Order.Ring.Nat
import Mathlib.Data.Nat.Log
import Parmesan.ByteReader
import Parmesan.TrackModel

/-!
# The log of the Pin tool

`pin_mode/logger.h` writes the records of a run as raw C structures,
`track/load_pin_data.rs` reads them back as raw Rust structures. The two
condition records do not agree: the tool has no `last_callsite`, so its
record is 56 bytes long where 64 are read.
-/

set_option autoImplicit false

namespace Parmesan.PinLog
open Parmesan.Bytes Parmesan.ByteReader Parmesan.CondModel Parmesan.TagSetModel
open Parmesan.TrackModel (LogData)

structure CondStmt where
  cid : UInt32
  context : UInt32
  order : UInt32
  belong : UInt32
  condition : UInt32
  level : UInt32
  op : UInt32
  size : UInt32
  lb1 : UInt32
  lb2 : UInt32
  arg1 : UInt64
  arg2 : UInt64

/-- The operands of a compare function, their lengths are 32-bit numbers. -/
abbrev Operand := { bs : List UInt8 // bs.length < 2^32 }

structure Libdft where
  tagGet : UInt32 → List TagSeg
  hasLenLb : UInt32 → Bool

section Logger

def u32Bytes (v : UInt32) : List UInt8 := leBytes 4 v.toNat
def u64Bytes (v : UInt64) : List UInt8 := leBytes 8 v.toNat

def condBytes (c : CondStmt) : List UInt8 :=
  u32Bytes c.cid ++ u32Bytes c.context ++ u32Bytes c.order ++ u32Bytes c.belong ++
    u32Bytes c.condition ++ u32Bytes c.level ++ u32Bytes c.op ++ u32Bytes c.size ++
    u32Bytes c.lb1 ++ u32Bytes c.lb2 ++ u64Bytes c.arg1 ++ u64Bytes c.arg2

/-- The flag, three bytes of padding, the two ends. -/
def segBytes (s : TagSeg) : List UInt8 :=
  [if s.sign then 1 else 0, 0, 0, 0] ++ leBytes 4 s.start ++ leBytes 4 s.stop

def BUF_LEN : ℕ := 2 <<< 16

structure LogBuf where
  buffer : List UInt8
  cap : ℕ

def newLogBuf : LogBuf := { buffer := [], cap := BUF_LEN }

/-- The capacity is doubled once; a copy past it is no result. -/
def pushBytes (b : LogBuf) (bytes : List UInt8) : Option LogBuf :=
  if 0 < bytes.length then
    let next := b.buffer.length+bytes.length
    let cap := if b.cap < next then b.cap*2 else b.cap
    if next ≤ cap then some { buffer := b.buffer ++ bytes, cap } else none
  else some b

def pushAll (b : LogBuf) (parts : List (List UInt8)) : Option LogBuf := parts.foldlM pushBytes b

structure Logger where
  numCond : UInt32
  numTag : UInt32
  numMb : UInt32
  condBuf : LogBuf
  tagBuf : LogBuf
  mbBuf : LogBuf
  lbSet : List UInt32

def newLogger : Logger where
  numCond := 0
  numTag := 0
  numMb := 0
  condBuf := newLogBuf
  tagBuf := newLogBuf
  mbBuf := newLogBuf
  lbSet := []

def tagParts (lb : UInt32) (t : List TagSeg) : List (List UInt8) :=
  let n := UInt32.ofNat t.length
  [u32Bytes lb, u32Bytes n, (t.take n.toNat).flatMap segBytes]

def saveTag (libdft : Libdft) (l : Logger) (lb : UInt32) : Option Logger :=
  if libdft.hasLenLb lb then none
  else if 0 < lb ∧ lb ∉ l.lbSet then
    (pushAll l.tagBuf (tagParts lb (libdft.tagGet lb))).map fun tagBuf =>
      { l with tagBuf, numTag := l.numTag+1, lbSet := l.lbSet ++ [lb] }
  else some l

def mbParts (i : UInt32) (arg1 arg2 : Operand) : List (List UInt8) :=
  [u32Bytes i, leBytes 4 arg1.val.length, leBytes 4 arg2.val.length, arg1.val, arg2.val]

def saveMb (l : Logger) (i : UInt32) (arg1 arg2 : Operand) : Option Logger :=
  if 0 < i then
    (pushAll l.mbBuf (mbParts i arg1 arg2)).map fun mbBuf => { l with mbBuf, numMb := l.numMb+1 }
  else some l

/-- Returns the index of the condition with the logger. -/
def saveCond (libdft : Libdft) (l : Logger) (cond : CondStmt) : Option (UInt32 × Logger) := do
  let i := l.numCond
  let l ← saveTag libdft { l with numCond := l.numCond+1 } cond.lb1
  let l ← saveTag libdft l cond.lb2
  let condBuf ← pushBytes l.condBuf (condBytes cond)
  pure (i, { l with condBuf })

def saveBuffers (l : Logger) : List UInt8 :=
  u32Bytes l.numCond ++ (u32Bytes l.numTag ++ (u32Bytes l.numMb ++
    (l.condBuf.buffer ++ l.tagBuf.buffer ++ l.mbBuf.buffer)))

inductive Call where
  | saveCond (cond : CondStmt)
  | saveMb (i : UInt32) (arg1 arg2 : Operand)

def call (libdft : Libdft) (l : Logger) : Call → Option Logger
  | .saveCond cond => (saveCond libdft l cond).map Prod.snd
  | .saveMb i arg1 arg2 => saveMb l i arg1 arg2

end Logger

section Loader

/-- `CondStmtBase` in C layout: eleven words, a word of padding, two double words. -/
def readCond : Reader CondStmtBase := do
  let cmpid ← readU32
  let context ← readU32
  let lastCallsite ← readU32
  let order ← readU32
  let belong ← readU32
  let condition ← readU32
  let level ← readU32
  let op ← readU32
  let size ← readU32
  let lb1 ← readU32
  let lb2 ← readU32
  let _ ← readU32
  let arg1 ← readU64
  let arg2 ← readU64
  pure { cmpid, context, lastCallsite, order, belong, condition, level, op, size, lb1, lb2, arg1, arg2 }

/-- A flag other than 0 and 1 is no value of its type. -/
def readSeg : Reader TagSeg := do
  let flag ← readExact 4
  let start ← readU32
  let stop ← readU32
  match flag.head? with
  | some 0 => pure { sign := false, start, stop }
  | some 1 => pure { sign := true, start, stop }
  | _ => failure

def readTag : Reader (ℕ × List TagSeg) := do
  let id ← readU32
  let size ← readU32
  let offsets ← readVector readSeg size
  pure (id, offsets)

def readMb : Reader (ℕ × List UInt8 × List UInt8) := do
  let id ← readU32
  let arg1Len ← readU32
  let arg2Len ← readU32
  let arg1 ← readExact arg1Len
  let arg2 ← readExact arg2Len
  pure (id, arg1, arg2)

def readSections (numCond numTags numMb : ℕ) : Reader LogData := do
  let condList ← readVector readCond numCond
  let tags ← readVector readTag numTags
  let mb ← readVector readMb numMb
  pure { condList, tags := gather tags, magicBytes := gather mb }

def getLogDataPin : Reader LogData := do
  let numCond ← readU32
  let numTags ← readU32
  let numMb ← readU32
  readSections numCond numTags numMb

end Loader

section Saved

def Call.cond? : Call → Option CondStmt
  | .saveCond cond => some cond
  | .saveMb .. => none

def Call.mb? : Call → Option (UInt32 × Operand × Operand)
  | .saveCond _ => none
  | .saveMb i arg1 arg2 => some (i, arg1, arg2)

def savedConds (calls : List Call) : List CondStmt := calls.filterMap Call.cond?
def savedMbs (calls : List Call) : List (UInt32 × Operand × Operand) := calls.filterMap Call.mb?

def savedLabels (calls : List Call) : List UInt32 :=
  ((savedConds calls).flatMap fun c => [c.lb1, c.lb2]).filter (0 < ·)

/-- The saved condition with the field that the tool does not have at zero. -/
def toBase (c : CondStmt) : CondStmtBase where
  cmpid := c.cid.toNat
  context := c.context.toNat
  lastCallsite := 0
  order := c.order.toNat
  belong := c.belong.toNat
  condition := c.condition.toNat
  level := c.level.toNat
  op := c.op.toNat
  size := c.size.toNat
  lb1 := c.lb1.toNat
  lb2 := c.lb2.toNat
  arg1 := c.arg1.toNat
  arg2 := c.arg2.toNat

def tagRecord (libdft : Libdft) (lb : UInt32) : ℕ × List TagSeg := (lb.toNat, libdft.tagGet lb)

def mbRecord (mb : UInt32 × Operand × Operand) : ℕ × List UInt8 × List UInt8 :=
  (mb.1.toNat, mb.2.1.val, mb.2.2.val)

def saved (libdft : Libdft) (calls : List Call) : LogData where
  condList := (savedConds calls).map toBase
  tags := gather ((savedLabels calls).map (tagRecord libdft))
  magicBytes := gather ((savedMbs calls).map mbRecord)

/-- The calls go through, and the log is read back as what they saved. -/
def RoundTrip (libdft : Libdft) (calls : List Call) : Prop :=
  ∃ l rest, calls.foldlM (call libdft) newLogger = some l ∧
    getLogDataPin (saveBuffers l) = some (saved libdft calls, rest)

end Saved

section Capacity

def grow : ℕ × ℕ → ℕ → Option (ℕ × ℕ)
  | (cap, len), n =>
    if len+n ≤ cap then some (cap, len+n)
    else if len+n ≤ cap*2 then some (cap*2, len+n)
    else none

def LogBuf.extent (b : LogBuf) : ℕ × ℕ := (b.cap, b.buffer.length)

theorem push_bytes_spec {b b' : LogBuf} {bytes : List UInt8} (h : pushBytes b bytes = some b') :
    b'.buffer = b.buffer ++ bytes ∧ (b.buffer.length ≤ b.cap → b'.buffer.length ≤ b'.cap) := by
  by_cases hpos : 0 < bytes.length
  · simp only [pushBytes, if_pos hpos, Option.ite_none_right_eq_some] at h
    obtain ⟨hfit, h⟩ := h
    obtain rfl := Option.some.inj h
    exact ⟨rfl, fun _ => by simpa using hfit⟩
  · obtain rfl : bytes = [] := List.length_eq_zero_iff.mp (by omega)
    obtain rfl : b = b' := Option.some.inj h
    exact ⟨(List.append_nil _).symm, id⟩

theorem push_bytes_extent (b : LogBuf) (bytes : List UInt8) (hb : b.buffer.length ≤ b.cap) :
    (pushBytes b bytes).map LogBuf.extent = grow b.extent bytes.length := by
  unfold pushBytes grow LogBuf.extent
  rcases Nat.eq_zero_or_pos bytes.length with hzero | hpos
  · simp [hzero, hb]
  · simp only [hpos, if_true]
    by_cases hfit : b.buffer.length+bytes.length ≤ b.cap
    · simp [hfit, Nat.not_lt.mpr hfit]
    · by_cases hdouble : b.buffer.length+bytes.length ≤ b.cap*2
      · simp [hfit, Nat.not_le.mp hfit, hdouble]
      · simp [hfit, Nat.not_le.mp hfit, hdouble]

theorem push_all_spec {parts : List (List UInt8)} {b b' : LogBuf}
    (h : pushAll b parts = some b') :
    b'.buffer = b.buffer ++ parts.flatten ∧
      (b.buffer.length ≤ b.cap → b'.buffer.length ≤ b'.cap) := by
  induction parts generalizing b with
  | nil =>
    obtain rfl : b = b' := Option.some.inj h
    exact ⟨(List.append_nil _).symm, id⟩
  | cons p parts ih =>
    obtain ⟨c, hc, hrest⟩ := Option.bind_eq_some_iff.mp h
    obtain ⟨hbytes, hwithin⟩ := push_bytes_spec hc
    obtain ⟨hbytes', hwithin'⟩ := ih hrest
    refine ⟨?_, hwithin' ∘ hwithin⟩
    rw [hbytes', hbytes, List.flatten_cons, List.append_assoc]

theorem push_all_extent (parts : List (List UInt8)) (b : LogBuf) (hb : b.buffer.length ≤ b.cap) :
    (pushAll b parts).map LogBuf.extent = (parts.map List.length).foldlM grow b.extent := by
  induction parts generalizing b with
  | nil => rfl
  | cons p parts ih =>
    simp only [pushAll, List.map_cons, List.foldlM_cons]
    rw [← push_bytes_extent b p hb]
    cases hp : pushBytes b p with
    | none => rfl
    | some c => exact ih c ((push_bytes_spec hp).2 hb)

/-- The least of the capacities `BUF_LEN`, `2*BUF_LEN` and so on that holds `n` bytes. -/
def capFor (n : ℕ) : ℕ := 2^max 17 (Nat.clog 2 n)

theorem cap_for_same {n k : ℕ} (h : n+k ≤ capFor n) : capFor (n+k) = capFor n := by
  have hle : Nat.clog 2 (n+k) ≤ max 17 (Nat.clog 2 n) := Nat.clog_le_of_le_pow h
  have hge := Nat.clog_mono_right 2 (Nat.le_add_right n k)
  unfold capFor
  congr 1
  omega

theorem cap_for_double {n k : ℕ} (hgt : capFor n < n+k) (hle : n+k ≤ capFor n*2) :
    capFor (n+k) = capFor n*2 := by
  have hmore : max 17 (Nat.clog 2 n) < Nat.clog 2 (n+k) :=
    (Nat.lt_clog_iff_pow_lt (by decide)).mpr hgt
  have hmost : Nat.clog 2 (n+k) ≤ max 17 (Nat.clog 2 n)+1 := by
    apply Nat.clog_le_of_le_pow
    rw [pow_succ]
    exact hle
  unfold capFor
  rw [← pow_succ]
  congr 1
  omega

structure Grown (b : LogBuf) (pushed : List UInt8) : Prop where
  buffer : b.buffer = pushed
  cap : b.cap = capFor pushed.length

theorem new_grown : Grown newLogBuf [] := ⟨rfl, by decide⟩

theorem grown_within {b : LogBuf} {pushed : List UInt8} (h : Grown b pushed) :
    b.buffer.length ≤ b.cap := by
  rw [h.buffer, h.cap]
  exact (Nat.le_pow_clog (by decide) _).trans (Nat.pow_le_pow_right (by decide) (le_max_right _ _))

section Push
variable {b b' : LogBuf} {pushed bytes : List UInt8}

theorem grown_extent (h : Grown b pushed) :
    (pushBytes b bytes).map LogBuf.extent =
      grow (capFor pushed.length, pushed.length) bytes.length := by
  rw [push_bytes_extent b bytes (grown_within h), LogBuf.extent, h.cap, h.buffer]

theorem push_bytes_grown (h : Grown b pushed) (hpush : pushBytes b bytes = some b') :
    Grown b' (pushed ++ bytes) := by
  have hextent := @grown_extent b pushed bytes h
  rw [hpush, grow] at hextent
  refine ⟨by rw [(push_bytes_spec hpush).1, h.buffer], ?_⟩
  rw [List.length_append]
  by_cases hfit : pushed.length+bytes.length ≤ capFor pushed.length
  · rw [if_pos hfit] at hextent
    rw [cap_for_same hfit]
    exact congrArg Prod.fst (Option.some.inj hextent)
  · rw [if_neg hfit] at hextent
    obtain ⟨hdouble, hextent⟩ := Option.ite_none_right_eq_some.mp hextent.symm
    rw [cap_for_double (Nat.not_le.mp hfit) hdouble]
    exact (congrArg Prod.fst (Option.some.inj hextent)).symm

theorem push_bytes_fits (h : Grown b pushed) :
    (∃ b', pushBytes b bytes = some b') ↔
      (pushed ++ bytes).length ≤ capFor pushed.length*2 := by
  rw [← Option.isSome_iff_exists, ← Option.isSome_map (f := LogBuf.extent), grown_extent h, grow,
    List.length_append]
  split_ifs with hfit hdouble
  · simp only [Option.isSome_some, true_iff]
    omega
  · simp [hdouble]
  · simp [hdouble]

end Push

theorem push_all_snoc (b : LogBuf) (parts : List (List UInt8)) (bytes : List UInt8) :
    pushAll b (parts ++ [bytes]) = (pushAll b parts).bind fun b => pushBytes b bytes := by
  simp [pushAll, List.foldlM_append]

theorem push_all_grown {parts : List (List UInt8)} {b : LogBuf}
    (h : pushAll newLogBuf parts = some b) : Grown b parts.flatten := by
  induction parts using List.reverseRecOn generalizing b with
  | nil =>
    obtain rfl : newLogBuf = b := Option.some.inj h
    exact new_grown
  | append_singleton parts bytes ih =>
    rw [push_all_snoc] at h
    obtain ⟨c, hc, hpush⟩ := Option.bind_eq_some_iff.mp h
    simpa using push_bytes_grown (ih hc) hpush

def PushesKept (parts : List (List UInt8)) : Prop :=
  ∀ k ≤ parts.length, ∃ b, pushAll newLogBuf (parts.take k) = some b ∧
    b.buffer.length ≤ b.cap ∧ b.buffer = (parts.take k).flatten

theorem take_succ_snoc {parts : List (List UInt8)} {k : ℕ} (hk : k < parts.length) :
    ∃ bytes, parts.take (k+1) = parts.take k ++ [bytes] ∧
      (parts.take (k+1)).flatten = (parts.take k).flatten ++ bytes := by
  have hsnoc := (List.take_concat_get' parts k hk).symm
  exact ⟨parts[k], hsnoc, by rw [hsnoc, List.flatten_append, List.flatten_singleton]⟩

/-- For every sequence of pushes of any sizes: they are kept exactly if no push takes the bytes
past twice the capacity that held those before it. -/
theorem push_all_iff (parts : List (List UInt8)) :
    PushesKept parts ↔
      ∀ k < parts.length,
        (parts.take (k+1)).flatten.length ≤ capFor (parts.take k).flatten.length*2 := by
  constructor
  · intro hall k hk
    obtain ⟨bytes, hsnoc, hbytes⟩ := take_succ_snoc hk
    obtain ⟨b, hb, -⟩ := hall k hk.le
    obtain ⟨b', hb', -⟩ := hall (k+1) hk
    rw [hsnoc, push_all_snoc, hb, Option.bind_some] at hb'
    rw [hbytes]
    exact (push_bytes_fits (push_all_grown hb)).mp ⟨b', hb'⟩
  · intro hfits k hk
    suffices hsome : ∃ b, pushAll newLogBuf (parts.take k) = some b by
      obtain ⟨b, hb⟩ := hsome
      have hgrown := push_all_grown hb
      exact ⟨b, hb, grown_within hgrown, hgrown.buffer⟩
    induction k with
    | zero => exact ⟨newLogBuf, rfl⟩
    | succ k ih =>
      obtain ⟨bytes, hsnoc, hbytes⟩ := take_succ_snoc hk
      obtain ⟨b, hb⟩ := ih (Nat.le_of_succ_le hk)
      have hfit := hfits k hk
      rw [hbytes] at hfit
      obtain ⟨b', hb'⟩ := (push_bytes_fits (push_all_grown hb)).mpr hfit
      exact ⟨b', by rw [hsnoc, push_all_snoc, hb, Option.bind_some, hb']⟩

theorem push_past_double {bytes : List UInt8} (hlength : capFor 0*2 < bytes.length) :
    ¬ PushesKept [bytes] := by
  intro h
  obtain ⟨b, hb, -⟩ := h 1 le_rfl
  obtain ⟨c, hc, -⟩ := Option.bind_eq_some_iff.mp hb
  have hfit := (push_bytes_fits new_grown).mp ⟨c, hc⟩
  rw [List.nil_append, List.length_nil] at hfit
  omega

/-- A push of one byte more than twice the first capacity is copied past the buffer. -/
theorem push_overruns : ¬ PushesKept [List.replicate (BUF_LEN*2+1) 0] := by
  apply push_past_double
  rw [List.length_replicate]
  decide

end Capacity

section Logged

def keptMbs (calls : List Call) : List (UInt32 × Operand × Operand) :=
  (savedMbs calls).filter (0 < ·.1)

def mbBytes (mb : UInt32 × Operand × Operand) : List UInt8 := (mbParts mb.1 mb.2.1 mb.2.2).flatten

def tagBytes (libdft : Libdft) (lb : UInt32) : List UInt8 :=
  (tagParts lb (libdft.tagGet lb)).flatten

structure TagsLogged (libdft : Libdft) (l : Logger) : Prop where
  numTag : l.numTag = UInt32.ofNat l.lbSet.length
  tagBuf : l.tagBuf.buffer = l.lbSet.flatMap (tagBytes libdft)
  nodup : l.lbSet.Nodup

structure Logged (libdft : Libdft) (calls : List Call) (l : Logger) : Prop where
  numCond : l.numCond = UInt32.ofNat (savedConds calls).length
  condBuf : l.condBuf.buffer = (savedConds calls).flatMap condBytes
  tags : TagsLogged libdft l
  labels : ∀ lb, lb ∈ l.lbSet ↔ lb ∈ savedLabels calls
  numMb : l.numMb = UInt32.ofNat (keptMbs calls).length
  mbBuf : l.mbBuf.buffer = (keptMbs calls).flatMap mbBytes

variable {libdft : Libdft} {calls : List Call} {l l' : Logger}

theorem of_nat_succ (n : ℕ) : UInt32.ofNat n+1 = UInt32.ofNat (n+1) := by
  simp

theorem logged_start : Logged libdft [] newLogger where
  numCond := rfl
  condBuf := rfl
  tags := ⟨rfl, rfl, List.nodup_nil⟩
  labels := fun _ => Iff.rfl
  numMb := rfl
  mbBuf := rfl

structure TagsOnly (l l' : Logger) : Prop where
  numCond : l'.numCond = l.numCond
  condBuf : l'.condBuf = l.condBuf
  numMb : l'.numMb = l.numMb
  mbBuf : l'.mbBuf = l.mbBuf

theorem save_tag_spec {lb : UInt32} (h : saveTag libdft l lb = some l') :
    TagsOnly l l' ∧
      (∀ x, x ∈ l'.lbSet ↔ x ∈ l.lbSet ∨ x = lb ∧ 0 < lb) ∧
      (TagsLogged libdft l → TagsLogged libdft l') := by
  unfold saveTag at h
  split_ifs at h with hlen hnew
  · obtain ⟨b, hb, rfl⟩ := Option.map_eq_some_iff.mp h
    refine ⟨⟨rfl, rfl, rfl, rfl⟩, ?_, ?_⟩
    · intro x
      simp [hnew.1]
    · intro hl
      refine ⟨?_, ?_, ?_⟩
      · rw [List.length_append, List.length_singleton, ← of_nat_succ, ← hl.numTag]
      · rw [(push_all_spec hb).1, hl.tagBuf, List.flatMap_append, List.flatMap_singleton]
        rfl
      · refine List.nodup_append.mpr ⟨hl.nodup, List.nodup_singleton _, ?_⟩
        intro x hx y hy hxy
        obtain rfl := List.mem_singleton.mp hy
        exact hnew.2 (hxy ▸ hx)
  · obtain rfl := Option.some.inj h
    refine ⟨⟨rfl, rfl, rfl, rfl⟩, ?_, id⟩
    intro x
    refine ⟨Or.inl, ?_⟩
    rintro (hx | ⟨rfl, hpos⟩)
    · exact hx
    · exact not_not.mp fun hx => hnew ⟨hpos, hx⟩

theorem save_cond_logged {cond : CondStmt} (hl : Logged libdft calls l)
    (hcall : call libdft l (.saveCond cond) = some l') :
    Logged libdft (calls ++ [.saveCond cond]) l' := by
  obtain ⟨⟨i, l₃⟩, h, rfl⟩ := Option.map_eq_some_iff.mp hcall
  obtain ⟨l₁, h₁, h⟩ := Option.bind_eq_some_iff.mp h
  obtain ⟨l₂, h₂, h⟩ := Option.bind_eq_some_iff.mp h
  obtain ⟨b, hb, h⟩ := Option.bind_eq_some_iff.mp h
  obtain ⟨rfl, rfl⟩ : l.numCond = i ∧ { l₂ with condBuf := b } = l₃ := by
    have : some (l.numCond, { l₂ with condBuf := b }) = some (i, l₃) := h
    simpa using this
  obtain ⟨hsame₁, hset₁, htags₁⟩ := save_tag_spec h₁
  obtain ⟨hsame₂, hset₂, htags₂⟩ := save_tag_spec h₂
  have hconds : savedConds (calls ++ [.saveCond cond]) = savedConds calls ++ [cond] := by
    simp [savedConds, Call.cond?]
  have hmbs : keptMbs (calls ++ [.saveCond cond]) = keptMbs calls := by
    simp [keptMbs, savedMbs, Call.mb?]
  have htags := htags₂ (htags₁ ⟨hl.tags.numTag, hl.tags.tagBuf, hl.tags.nodup⟩)
  refine ⟨?_, ?_, ⟨htags.numTag, htags.tagBuf, htags.nodup⟩, ?_, ?_, ?_⟩
  · rw [hconds, List.length_append, List.length_singleton, ← of_nat_succ, ← hl.numCond]
    exact hsame₂.numCond.trans hsame₁.numCond
  · show b.buffer = _
    rw [(push_bytes_spec hb).1, hsame₂.condBuf, hsame₁.condBuf, hconds, List.flatMap_append,
      List.flatMap_singleton, hl.condBuf]
  · intro lb
    show lb ∈ l₂.lbSet ↔ _
    rw [hset₂, hset₁]
    show (lb ∈ l.lbSet ∨ _) ∨ _ ↔ _
    rw [hl.labels]
    simp only [savedLabels, hconds, List.flatMap_append, List.flatMap_singleton,
      List.filter_append, List.mem_append, List.mem_filter, List.mem_cons, List.not_mem_nil]
    grind
  · rw [hmbs, ← hl.numMb]
    exact hsame₂.numMb.trans hsame₁.numMb
  · rw [hmbs, ← hl.mbBuf]
    exact congrArg LogBuf.buffer (hsame₂.mbBuf.trans hsame₁.mbBuf)

theorem save_mb_spec {i : UInt32} {arg1 arg2 : Operand} (h : saveMb l i arg1 arg2 = some l') :
    ∃ mbBuf numMb, l' = { l with mbBuf, numMb } ∧
      mbBuf.buffer = l.mbBuf.buffer ++ (if 0 < i then mbBytes (i, arg1, arg2) else []) ∧
      numMb = if 0 < i then l.numMb+1 else l.numMb := by
  unfold saveMb at h
  split_ifs at h ⊢ with hpos
  · obtain ⟨b, hb, rfl⟩ := Option.map_eq_some_iff.mp h
    exact ⟨b, l.numMb+1, rfl, (push_all_spec hb).1, rfl⟩
  · obtain rfl := Option.some.inj h
    exact ⟨l.mbBuf, l.numMb, rfl, (List.append_nil _).symm, rfl⟩

theorem save_mb_logged {i : UInt32} {arg1 arg2 : Operand} (hl : Logged libdft calls l)
    (h : call libdft l (.saveMb i arg1 arg2) = some l') :
    Logged libdft (calls ++ [.saveMb i arg1 arg2]) l' := by
  have hconds : savedConds (calls ++ [.saveMb i arg1 arg2]) = savedConds calls := by
    simp [savedConds, Call.cond?]
  have hlabels : savedLabels (calls ++ [.saveMb i arg1 arg2]) = savedLabels calls := by
    rw [savedLabels, hconds, savedLabels]
  have hmbs : keptMbs (calls ++ [.saveMb i arg1 arg2]) =
      keptMbs calls ++ if 0 < i then [(i, arg1, arg2)] else [] := by
    simp only [keptMbs, savedMbs, List.filterMap_append, List.filter_append, List.filterMap_cons,
      Call.mb?, List.filterMap_nil, List.filter_cons, List.filter_nil, decide_eq_true_eq]
  obtain ⟨mbBuf, numMb, rfl, hbuf, hnum⟩ := save_mb_spec h
  refine ⟨?_, ?_, ⟨hl.tags.numTag, hl.tags.tagBuf, hl.tags.nodup⟩, ?_, ?_, ?_⟩
  · rw [hconds]
    exact hl.numCond
  · rw [hconds]
    exact hl.condBuf
  · rw [hlabels]
    exact hl.labels
  · rw [hmbs, hnum, hl.numMb]
    split_ifs
    · rw [List.length_append, List.length_singleton, of_nat_succ]
    · rw [List.append_nil]
  · rw [hmbs, hbuf, hl.mbBuf, List.flatMap_append]
    split_ifs
    · rw [List.flatMap_singleton]
    · rfl

theorem calls_logged (more : List Call) (hl : Logged libdft calls l)
    (h : more.foldlM (call libdft) l = some l') : Logged libdft (calls ++ more) l' := by
  induction more generalizing calls l with
  | nil =>
    obtain rfl : l = l' := Option.some.inj h
    rwa [List.append_nil]
  | cons c more ih =>
    obtain ⟨m, hm, hrest⟩ := Option.bind_eq_some_iff.mp h
    have hone : Logged libdft (calls ++ [c]) m := by
      cases c with
      | saveCond cond => exact save_cond_logged hl hm
      | saveMb i arg1 arg2 => exact save_mb_logged hl hm
    simpa using ih hone hrest

end Logged

section Loading

theorem takes_cond : Takes readCond fun _ k => k = 64 := by
  show Takes readCond fun _ k => k = 4+(4+(4+(4+(4+(4+(4+(4+(4+(4+(4+(4+(8+(8+0)))))))))))))
  iterate 12 refine takes_step takes_u32 fun _ => ?_
  iterate 2 refine takes_step takes_u64 fun _ => ?_
  exact takes_pure rfl

theorem takes_seg : Takes readSeg fun _ k => k = 12 := by
  refine takes_bind (takes_exact 4) fun flag k hk => ?_
  iterate 2 refine takes_bind takes_u32 fun _ _ _ => ?_
  split
  · exact takes_pure (by omega)
  · exact takes_pure (by omega)
  · intro bs a rest h
    cases h

def tagCost (r : ℕ × List TagSeg) : ℕ := 8+12*r.2.length
def mbCost (r : ℕ × List UInt8 × List UInt8) : ℕ := 12+r.2.1.length+r.2.2.length

theorem takes_tag : Takes readTag fun r k => k = tagCost r := by
  refine takes_bind takes_u32 fun id k hk => takes_bind takes_u32 fun size m hm => ?_
  refine takes_bind (takes_vector takes_seg size) fun offsets c hc => takes_pure ?_
  obtain ⟨-, hsum⟩ := hc
  rw [List.map_const', List.sum_replicate_nat] at hsum
  simp only [tagCost]
  omega

theorem takes_mb : Takes readMb fun r k => k = mbCost r := by
  iterate 3 refine takes_bind takes_u32 fun _ _ _ => ?_
  refine takes_bind (takes_exact _) fun arg1 k hk => ?_
  refine takes_bind (takes_exact _) fun arg2 m hm => takes_pure ?_
  simp only [mbCost]
  omega

theorem takes_sections (numCond numTags numMb : ℕ) :
    Takes (readSections numCond numTags numMb) fun d k => ∃ tags mb,
      d.condList.length = numCond ∧ tags.length = numTags ∧ mb.length = numMb ∧
      d.tags = gather tags ∧ d.magicBytes = gather mb ∧
      k = 64*numCond+(tags.map tagCost).sum+(mb.map mbCost).sum := by
  refine takes_bind (takes_vector takes_cond numCond) fun condList k hk => ?_
  refine takes_bind (takes_vector takes_tag numTags) fun tags m hm => ?_
  refine takes_bind (takes_vector takes_mb numMb) fun mb c hc => takes_pure ?_
  refine ⟨tags, mb, hk.1, hm.1, hc.1, rfl, rfl, ?_⟩
  obtain ⟨hlen, hsum⟩ := hk
  rw [List.map_const', List.sum_replicate_nat, hlen] at hsum
  rw [← hm.2, ← hc.2]
  omega

theorem load_header (l : Logger) :
    getLogDataPin (saveBuffers l) =
      readSections l.numCond.toNat l.numTag.toNat l.numMb.toNat
        (l.condBuf.buffer ++ l.tagBuf.buffer ++ l.mbBuf.buffer) := by
  have hread (v : UInt32) : Reads readU32 (u32Bytes v) v.toNat := reads_u32 _ v.toNat_lt
  unfold getLogDataPin saveBuffers
  rw [bind_of_reads (hread _), bind_of_reads (hread _), bind_of_reads (hread _)]

theorem reads_mb (mb : UInt32 × Operand × Operand) : Reads readMb (mbBytes mb) (mbRecord mb) := by
  obtain ⟨i, arg1, arg2⟩ := mb
  refine reads_bind (reads_u32 _ i.toNat_lt) ?_
  refine reads_bind (reads_u32 _ arg1.2) (reads_bind (reads_u32 _ arg2.2) ?_)
  refine reads_bind (reads_exact arg1.val) ?_
  rw [List.flatten_cons, List.flatten_nil, List.append_nil]
  exact reads_last (reads_exact arg2.val)

end Loading

section Condition

def mbSizes (mb : UInt32 × Operand × Operand) : List ℕ :=
  [4, 4, 4, mb.2.1.val.length, mb.2.2.val.length]

/-- No condition was saved, operands were saved under indices other than zero,
and no push met a buffer that doubling its capacity does not make large enough. -/
structure Readable (calls : List Call) : Prop where
  noConds : savedConds calls = []
  indices : ∀ mb ∈ savedMbs calls, 0 < mb.1
  fits : ((savedMbs calls).flatMap mbSizes).foldlM grow (BUF_LEN, 0) ≠ none

variable {libdft : Libdft} {calls : List Call} {l : Logger}

theorem mb_calls_extent (hconds : savedConds calls = []) (hidx : ∀ mb ∈ savedMbs calls, 0 < mb.1)
    (hb : l.mbBuf.buffer.length ≤ l.mbBuf.cap) :
    (calls.foldlM (call libdft) l).map (fun l => l.mbBuf.extent) =
      ((savedMbs calls).flatMap mbSizes).foldlM grow l.mbBuf.extent := by
  induction calls generalizing l with
  | nil => rfl
  | cons c calls ih =>
    cases c with
    | saveCond cond => cases hconds
    | saveMb i arg1 arg2 =>
      have hpos : 0 < i := hidx (i, arg1, arg2) List.mem_cons_self
      have hcall : call libdft l (.saveMb i arg1 arg2) =
          (pushAll l.mbBuf (mbParts i arg1 arg2)).map
            fun mbBuf => { l with mbBuf, numMb := l.numMb+1 } := if_pos hpos
      have hsaved : savedMbs (.saveMb i arg1 arg2::calls) = (i, arg1, arg2)::savedMbs calls := rfl
      have hsizes : (mbParts i arg1 arg2).map List.length = mbSizes (i, arg1, arg2) := by
        simp [mbParts, mbSizes, u32Bytes]
      have hpush := push_all_extent (mbParts i arg1 arg2) l.mbBuf hb
      rw [List.foldlM_cons, hcall, hsaved, List.flatMap_cons, List.foldlM_append, ← hsizes, ← hpush]
      cases hp : pushAll l.mbBuf (mbParts i arg1 arg2) with
      | none => rfl
      | some b =>
        refine @ih { l with mbBuf := b, numMb := l.numMb+1 } hconds ?_ ((push_all_spec hp).2 hb)
        exact fun mb hmb => hidx mb (List.mem_cons_of_mem _ hmb)

theorem run_extent (libdft : Libdft) (hconds : savedConds calls = [])
    (hidx : ∀ mb ∈ savedMbs calls, 0 < mb.1) :
    (calls.foldlM (call libdft) newLogger).map (fun l => l.mbBuf.extent) =
      ((savedMbs calls).flatMap mbSizes).foldlM grow (BUF_LEN, 0) :=
  mb_calls_extent hconds hidx (by decide)

theorem saved_mbs_few (hone : ((savedMbs calls).map Prod.fst).Nodup)
    (hidx : ∀ mb ∈ savedMbs calls, 0 < mb.1) : (savedMbs calls).length < 2^32 := by
  have hzero : (0 : UInt32) ∉ (savedMbs calls).map Prod.fst := by
    intro hmem
    obtain ⟨mb, hmb, heq⟩ := List.mem_map.mp hmem
    exact absurd (heq ▸ hidx mb hmb) (by decide)
  have hnodup : ((0::(savedMbs calls).map Prod.fst).map UInt32.toNat).Nodup :=
    (List.nodup_cons.mpr ⟨hzero, hone⟩).map fun _ _ => UInt32.toNat_inj.mp
  have hsub : (0::(savedMbs calls).map Prod.fst).map UInt32.toNat ⊆ List.range (2^32) := by
    intro n hn
    obtain ⟨v, -, rfl⟩ := List.mem_map.mp hn
    exact List.mem_range.mpr v.toNat_lt
  have hle := (List.subperm_of_subset hnodup hsub).length_le
  rw [List.length_map, List.length_cons, List.length_map, List.length_range] at hle
  omega

theorem kept_mbs_all (hidx : ∀ mb ∈ savedMbs calls, 0 < mb.1) : keptMbs calls = savedMbs calls :=
  List.filter_eq_self.mpr fun mb hmb => decide_eq_true (hidx mb hmb)

theorem round_trip_of_readable (hone : ((savedMbs calls).map Prod.fst).Nodup)
    (h : Readable calls) : RoundTrip libdft calls := by
  have hrun := run_extent libdft h.noConds h.indices
  obtain ⟨l, hl⟩ : ∃ l, calls.foldlM (call libdft) newLogger = some l := by
    cases hl : calls.foldlM (call libdft) newLogger with
    | none =>
      rw [hl] at hrun
      exact absurd hrun.symm h.fits
    | some l => exact ⟨l, rfl⟩
  have hlogged : Logged libdft calls l := calls_logged calls logged_start hl
  have hlabels : savedLabels calls = [] := by rw [savedLabels, h.noConds]; rfl
  have hset : l.lbSet = [] := by
    apply List.eq_nil_iff_forall_not_mem.mpr
    intro lb hlb
    rw [hlogged.labels, hlabels] at hlb
    cases hlb
  have hnum : l.numMb.toNat = (savedMbs calls).length := by
    rw [hlogged.numMb, kept_mbs_all h.indices]
    exact UInt32.toNat_ofNat_of_lt' (saved_mbs_few hone h.indices)
  have hsaved : saved libdft calls =
      ⟨[], gather [], gather ((savedMbs calls).map mbRecord)⟩ := by
    simp only [saved, h.noConds, hlabels, List.map_nil]
  have hread : Reads (readSections 0 0 (savedMbs calls).length)
      ((savedMbs calls).flatMap mbBytes) (saved libdft calls) := by
    rw [hsaved]
    show Reads (readVector readMb _ >>= fun mb => pure (⟨[], gather [], gather mb⟩ : LogData)) _ _
    exact reads_last (reads_vector reads_mb (savedMbs calls))
  have hbody := hread []
  rw [List.append_nil] at hbody
  refine ⟨l, [], hl, ?_⟩
  rw [load_header, hlogged.numCond, hlogged.condBuf, hlogged.tags.numTag, hlogged.tags.tagBuf,
    hlogged.mbBuf, hset, h.noConds, kept_mbs_all h.indices, hnum]
  exact hbody

theorem of_nat_le (n : ℕ) : (UInt32.ofNat n).toNat ≤ n := by
  rw [UInt32.toNat_ofNat']
  exact Nat.mod_le _ _

theorem conds_written (h : Logged libdft calls l) :
    l.condBuf.buffer.length = 56*(savedConds calls).length := by
  have hone (c : CondStmt) : (condBytes c).length = 56 := by
    simp [condBytes, u32Bytes, u64Bytes]
  rw [h.condBuf, List.length_flatMap]
  simp only [hone, List.map_const', List.sum_replicate_nat]
  exact Nat.mul_comm _ _

theorem tags_read (h : Logged libdft calls l) {tags : List (ℕ × List TagSeg)}
    (hlen : tags.length = l.numTag.toNat) (htags : (saved libdft calls).tags = gather tags) :
    l.tagBuf.buffer.length ≤ (tags.map tagCost).sum := by
  have hinj : Function.Injective (tagRecord libdft) :=
    fun _ _ heq => UInt32.toNat_inj.mp (congrArg Prod.fst heq)
  have hfound : ∀ e ∈ l.lbSet.map (tagRecord libdft), gather tags e.1 = some e.2 := by
    intro e he
    obtain ⟨lb, hlb, rfl⟩ := List.mem_map.mp he
    rw [← htags]
    refine gather_of_mem (List.mem_map_of_mem ((h.labels lb).mp hlb)) fun w hw => ?_
    obtain ⟨lb', -, heq⟩ := List.mem_map.mp hw
    obtain rfl : lb' = lb := UInt32.toNat_inj.mp (congrArg Prod.fst heq)
    exact (congrArg Prod.snd heq).symm
  have hperm : (l.lbSet.map (tagRecord libdft)).Perm tags := by
    apply gather_perm (h.tags.nodup.map hinj) hfound
    rw [hlen, h.tags.numTag, List.length_map]
    exact of_nat_le _
  have hbytes (lb : UInt32) : (tagBytes libdft lb).length ≤ tagCost (tagRecord libdft lb) := by
    have hseg (s : TagSeg) : (segBytes s).length = 12 := by simp [segBytes]
    have htake :=
      List.length_take_le' (UInt32.ofNat (libdft.tagGet lb).length).toNat (libdft.tagGet lb)
    simp only [tagBytes, tagParts, List.flatten_cons, List.flatten_nil, List.length_append,
      List.length_flatMap, hseg, List.map_const', List.sum_replicate_nat, u32Bytes,
      le_bytes_length, List.length_nil, tagCost, tagRecord]
    omega
  calc
    l.tagBuf.buffer.length = (l.lbSet.map fun lb => (tagBytes libdft lb).length).sum := by
      rw [h.tags.tagBuf, List.length_flatMap]
    _ ≤ (l.lbSet.map fun lb => tagCost (tagRecord libdft lb)).sum :=
      List.sum_le_sum fun lb _ => hbytes lb
    _ = ((l.lbSet.map (tagRecord libdft)).map tagCost).sum := by
      rw [List.map_map]
      rfl
    _ = (tags.map tagCost).sum := (hperm.map tagCost).sum_nat

theorem mbs_read (hone : ((savedMbs calls).map Prod.fst).Nodup) (h : Logged libdft calls l)
    {mbs : List (ℕ × List UInt8 × List UInt8)} (hlen : mbs.length = l.numMb.toNat)
    (hmbs : (saved libdft calls).magicBytes = gather mbs) :
    (∀ mb ∈ savedMbs calls, 0 < mb.1) ∧ l.mbBuf.buffer.length = (mbs.map mbCost).sum := by
  have hkeys : (((savedMbs calls).map mbRecord).map Prod.fst).Nodup := by
    have hmap := hone.map fun _ _ => UInt32.toNat_inj.mp
    rw [List.map_map] at hmap ⊢
    exact hmap
  have hfound : ∀ e ∈ (savedMbs calls).map mbRecord, gather mbs e.1 = some e.2 := by
    intro e he
    rw [← hmbs]
    refine gather_of_mem he fun w hw => ?_
    exact congrArg Prod.snd (List.inj_on_of_nodup_map hkeys hw he rfl)
  have hkept : mbs.length ≤ (keptMbs calls).length := by
    rw [hlen, h.numMb]
    exact of_nat_le _
  have hfew : (keptMbs calls).length ≤ (savedMbs calls).length := List.length_filter_le _ _
  have hperm : ((savedMbs calls).map mbRecord).Perm mbs :=
    gather_perm (List.Nodup.of_map _ hkeys) hfound (by rw [List.length_map]; omega)
  have hall : ∀ mb ∈ savedMbs calls, 0 < mb.1 := by
    have heq := hperm.length_eq
    rw [List.length_map] at heq
    have hsame : (keptMbs calls).length = (savedMbs calls).length := by omega
    intro mb hmb
    exact of_decide_eq_true (List.length_filter_eq_length_iff.mp hsame mb hmb)
  have hbytes (mb : UInt32 × Operand × Operand) : (mbBytes mb).length = mbCost (mbRecord mb) := by
    simp [mbBytes, mbParts, u32Bytes, mbCost, mbRecord]
    omega
  refine ⟨hall, ?_⟩
  rw [h.mbBuf, kept_mbs_all hall, List.length_flatMap, ← (hperm.map mbCost).sum_nat, List.map_map]
  exact congrArg List.sum (List.map_congr_left fun mb _ => hbytes mb)

/-- What is read back as saved costs the bytes that were written for it, and a
condition costs eight more. -/
theorem readable_of_round_trip (hone : ((savedMbs calls).map Prod.fst).Nodup)
    (h : RoundTrip libdft calls) : Readable calls := by
  obtain ⟨l, rest, hl, hload⟩ := h
  have hlogged : Logged libdft calls l := calls_logged calls logged_start hl
  rw [load_header] at hload
  obtain ⟨k, hk, tags, mbs, hcondLen, htagLen, hmbLen, htags, hmbs, hcost⟩ :=
    takes_sections _ _ _ _ _ _ hload
  have hconds := conds_written hlogged
  have htagCost := tags_read hlogged htagLen htags
  obtain ⟨hidx, hmbCost⟩ := mbs_read hone hlogged hmbLen hmbs
  have hnone : savedConds calls = [] := by
    have hlen : (savedConds calls).length = l.numCond.toNat := by
      rw [← hcondLen]
      exact (List.length_map _).symm
    rw [List.length_append, List.length_append] at hk
    exact List.length_eq_zero_iff.mp (by omega)
  refine ⟨hnone, hidx, ?_⟩
  rw [← run_extent libdft hnone hidx, hl]
  exact Option.some_ne_none _

end Condition

/-- The log is read back as it was saved exactly when no condition is in it, no
operands were saved under index zero, and every push fitted. -/
theorem pin_log_round_trip_iff (libdft : Libdft) (calls : List Call)
    (hone : ((savedMbs calls).map Prod.fst).Nodup) : RoundTrip libdft calls ↔ Readable calls :=
  ⟨readable_of_round_trip hone, round_trip_of_readable hone⟩

def byteTags : Libdft where
  tagGet := fun lb => if lb = 0 then [] else [⟨false, lb.toNat-1, lb.toNat⟩]
  hasLenLb := fun lb => 2^31 ≤ lb.toNat

theorem pin_log_round_trip_operands :
    RoundTrip byteTags [.saveMb 2 ⟨[97, 98], by decide⟩ ⟨[99], by decide⟩,
      .saveMb 1 ⟨[], by decide⟩ ⟨[100], by decide⟩] :=
  (pin_log_round_trip_iff _ _ (by decide)).mpr ⟨rfl, by decide, by decide⟩

def strcmpCond : CondStmt where
  cid := 7
  context := 0
  order := 1
  belong := 0
  condition := 0
  level := 0
  op := 0x8002
  size := 2
  lb1 := 1
  lb2 := 0
  arg1 := 0
  arg2 := 0

/-- One call of a compare function is not read back. -/
theorem pin_log_not_read :
    ¬RoundTrip byteTags [.saveCond strcmpCond,
      .saveMb 0 ⟨[97, 98], by decide⟩ ⟨[99, 100], by decide⟩] := by
  intro h
  have hnone := (readable_of_round_trip (by decide) h).noConds
  cases hnone

end Parmesan.PinLog
