import Mathlib.Data.Nat.Digits.Lemmas
import Mathlib.Data.List.Perm.Basic
import Mathlib.Tactic.IntervalCases
import Parmesan.Bytes
import Parmesan.Execution

/-!
# Files taken over from an AFL queue

A queue file is named by its id in six digits or more, `get_afl_id` reads six
of them back. A pass over the directory runs the files whose id is not below
the number recorded for it, and records one more than the largest id it met.
-/

set_option autoImplicit false

namespace Parmesan.AflSync
open Parmesan.Bytes Parmesan.Execution

def maxInputLen : ℕ := 15000

/-- A name is the bytes of a text, `len` is the size of the file in bytes. -/
structure DirEntry where
  name : List UInt8
  isFile : Bool
  len : ℕ
deriving DecidableEq

section Utf8

def isTail (b : UInt8) : Bool := 0x80 ≤ b.toNat && b.toNat ≤ 0xBF

/-- The ranges of the bytes that complete a character, if one can begin with `b`. -/
def completions (b : UInt8) : Option (List (ℕ × ℕ)) :=
  if b.toNat < 0x80 then some []
  else if b.toNat < 0xC2 then none
  else if b.toNat < 0xE0 then some [(0x80, 0xBF)]
  else if b.toNat < 0xF0 then
    some [(if b = 0xE0 then 0xA0 else 0x80, if b = 0xED then 0x9F else 0xBF), (0x80, 0xBF)]
  else if b.toNat ≤ 0xF4 then
    some [(if b = 0xF0 then 0x90 else 0x80, if b = 0xF4 then 0x8F else 0xBF), (0x80, 0xBF),
      (0x80, 0xBF)]
  else none

def completes : List (ℕ × ℕ) → List UInt8 → Bool
  | [], [] => true
  | [], b::bs =>
    match completions b with
    | some rs => completes rs bs
    | none => false
  | _::_, [] => false
  | r::rs, b::bs => r.1 ≤ b.toNat && b.toNat ≤ r.2 && completes rs bs

def isUtf8 (bs : List UInt8) : Bool := completes [] bs

def isCharBoundary (bs : List UInt8) (i : ℕ) : Bool :=
  match bs[i]? with
  | some b => i = 0 || !isTail b
  | none => i = bs.length

end Utf8

def zeroDigit : UInt8 := 48

def toDigit (d : ℕ) : UInt8 := UInt8.ofNat (48+d)

def ofDigit (b : UInt8) : Option ℕ :=
  if 48 ≤ b.toNat ∧ b.toNat ≤ 57 then some (b.toNat-48) else none

def decimal06 (n : ℕ) : List UInt8 :=
  let ds := (Nat.digits 10 n).reverse.map toDigit
  List.replicate (6-ds.length) zeroDigit ++ ds

def queueName (id : ℕ) (suffix : List UInt8) : List UInt8 :=
  [105, 100, 58] ++ decimal06 id ++ suffix

def parseDigits : ℕ → List UInt8 → Option ℕ
  | acc, [] => some acc
  | acc, b::bs => (ofDigit b).bind fun d => parseDigits (10*acc+d) bs

/-- `str::parse::<usize>` on a text of few characters. -/
def parseUsize : List UInt8 → Option ℕ
  | [] => none
  | 43::[] => none
  | 43::bs => parseDigits 0 bs
  | bs => parseDigits 0 bs

/-- The outer `none` is the panic of a slice that cuts a character. -/
def getAflId (name : List UInt8) : Option (Option ℕ) :=
  if isUtf8 name then
    if 9 ≤ name.length then
      if isCharBoundary name 3 && isCharBoundary name 9 then some (parseUsize (slice name 3 6))
      else none
    else some none
  else some none

structure Pass where
  maxId : ℕ
  ran : List DirEntry

def visit (minId : ℕ) (p : Pass) (entry : DirEntry) : Option Pass :=
  if entry.isFile then do
    match ← getAflId entry.name with
    | some id =>
      if minId ≤ id then
        pure { maxId := if p.maxId < id then id else p.maxId
               ran := if entry.len < maxInputLen then p.ran ++ [entry] else p.ran }
      else pure p
    | none => pure p
  else some p

/-- The number to record for the directory and the files passed to `run_sync`. -/
def syncOneAflDir (syncId : Option ℕ) (listing : List DirEntry) : Option Pass :=
  let minId := syncId.getD 0
  (listing.foldlM (visit minId) { maxId := minId, ran := [] }).map fun p =>
    { p with maxId := p.maxId+1 }

structure Round where
  listing : List DirEntry
  ran : List DirEntry
deriving DecidableEq

structure Directory where
  entries : List DirEntry
  created : ℕ
  syncId : Option ℕ
  rounds : List Round

def start : Directory := { entries := [], created := 0, syncId := none, rounds := [] }

inductive Event where
  | createFile (suffix : List UInt8) (len : ℕ)
  | createDir (name : List UInt8)
  | sync (listing : List DirEntry)

def addEntry (s : Directory) (entry : DirEntry) : Option Directory :=
  if entry.name ∈ s.entries.map DirEntry.name then none
  else some { s with entries := s.entries ++ [entry] }

def fileFor (s : Directory) (suffix : List UInt8) (len : ℕ) : DirEntry :=
  { name := queueName s.created suffix, isFile := true, len }

/-- A name is given once, a listing holds the entries of the directory in any order. -/
def next (s : Directory) : Event → Option Directory
  | .createFile suffix len =>
    addEntry { s with created := s.created+1 } (fileFor s suffix len)
  | .createDir name => addEntry s { name, isFile := false, len := 0 }
  | .sync listing =>
    if listing.Perm s.entries then
      (syncOneAflDir s.syncId listing).map fun p =>
        { s with syncId := some p.maxId, rounds := s.rounds ++ [{ listing, ran := p.ran }] }
    else none

def Short (f : DirEntry) : Prop := f.isFile = true ∧ f.len < maxInputLen

def Seen (rounds : List Round) (f : DirEntry) : Prop := ∃ r ∈ rounds, f ∈ r.listing

/-- A pass runs a short file once if it is the first to list it, and not at all otherwise. -/
def RunOnce (rounds : List Round) : Prop :=
  ∀ k r, rounds[k]? = some r → ∀ f, Short f →
    (f ∈ r.listing ∧ ¬Seen (rounds.take k) f → r.ran.count f = 1) ∧
      (f ∉ r.listing ∨ Seen (rounds.take k) f → r.ran.count f = 0)

def readsFrom (syncId : Option ℕ) (name : List UInt8) : Bool :=
  (getAflId name).join.any fun id => syncId.getD 0 ≤ id

def Continues (s : Directory) : Event → Prop
  | .createFile suffix len =>
    len < maxInputLen → readsFrom s.syncId (queueName s.created suffix) = true
  | .createDir _ => True
  | .sync _ => True

instance (s : Directory) : (e : Event) → Decidable (Continues s e)
  | .createFile _ len => inferInstanceAs (Decidable (len < maxInputLen → _ = true))
  | .createDir _ => instDecidableTrue
  | .sync _ => instDecidableTrue

section Names

def Ascii (bs : List UInt8) : Prop := ∀ b ∈ bs, b.toNat < 0x80

theorem is_utf8_ascii {bs rest : List UInt8} (h : Ascii bs) :
    isUtf8 (bs ++ rest) = isUtf8 rest := by
  induction bs with
  | nil => rfl
  | cons b bs ih =>
    have hone : completions b = some [] := if_pos (h b List.mem_cons_self)
    show completes [] (b::(bs ++ rest)) = _
    rw [completes, hone]
    exact ih fun c hc => h c (List.mem_cons_of_mem _ hc)

theorem is_utf8_head {b : UInt8} {bs : List UInt8} (h : isUtf8 (b::bs) = true) :
    isTail b = false := by
  cases htail : isTail b with
  | false => rfl
  | true =>
    have hrange : 0x80 ≤ b.toNat ∧ b.toNat ≤ 0xBF := by simpa [isTail] using htail
    have hnone : completions b = none := by
      unfold completions
      rw [if_neg (by omega), if_pos (by omega)]
    rw [isUtf8, completes, hnone] at h
    cases h

theorem boundary_after_ascii {bs rest : List UInt8} (hascii : Ascii bs)
    (h : isUtf8 (bs ++ rest) = true) (i : ℕ) (hi : i ≤ bs.length) :
    isCharBoundary (bs ++ rest) i = true := by
  rw [is_utf8_ascii hascii] at h
  unfold isCharBoundary
  rcases Nat.lt_or_eq_of_le hi with hlt | rfl
  · have hnot : isTail bs[i] = false := by
      have := hascii _ (List.getElem_mem hlt)
      simp only [isTail, Bool.and_eq_false_imp, decide_eq_true_eq]
      omega
    rw [List.getElem?_append_left hlt, List.getElem?_eq_getElem hlt]
    simp [hnot]
  · rw [List.getElem?_append_right (le_refl _), Nat.sub_self]
    cases rest with
    | nil => simp
    | cons b rest => simp [is_utf8_head h]

theorem parse_digits_to_digit (ds : List ℕ) (h : ∀ d ∈ ds, d < 10) (acc : ℕ) :
    parseDigits acc (ds.map toDigit) = some (ds.foldl (fun a d => 10*a+d) acc) := by
  induction ds generalizing acc with
  | nil => rfl
  | cons d ds ih =>
    have hd : ofDigit (toDigit d) = some d := by
      have := h d List.mem_cons_self
      interval_cases d <;> rfl
    rw [List.map_cons, parseDigits, hd, Option.bind_some,
      ih fun e he => h e (List.mem_cons_of_mem _ he), List.foldl_cons]

theorem parse_usize_to_digit (ds : List ℕ) (h : ∀ d ∈ ds, d < 10) (hne : ds ≠ []) :
    parseUsize (ds.map toDigit) = some (ds.foldl (fun a d => 10*a+d) 0) := by
  rw [← parse_digits_to_digit ds h]
  cases ds with
  | nil => exact absurd rfl hne
  | cons d ds =>
    have := h d List.mem_cons_self
    interval_cases d <;> rfl

theorem decimal06_digits (n : ℕ) :
    decimal06 n =
      (List.replicate (6-(Nat.digits 10 n).length) 0 ++ (Nat.digits 10 n).reverse).map toDigit := by
  simp [decimal06, zeroDigit, toDigit]

theorem digits_value (k n : ℕ) :
    (List.replicate k 0 ++ (Nat.digits 10 n).reverse).foldl (fun a d => 10*a+d) 0 = n := by
  have hzeros : (List.replicate k 0).foldl (fun a d => 10*a+d) 0 = 0 := by
    induction k with
    | zero => rfl
    | succ k ih => simpa [List.replicate_succ] using ih
  rw [List.foldl_append, hzeros, List.foldl_reverse]
  conv_rhs => rw [← Nat.ofDigits_digits 10 n, Nat.ofDigits_eq_foldr]
  simp [add_comm]

theorem digits_lt_ten (n : ℕ) :
    ∀ d ∈ List.replicate (6-(Nat.digits 10 n).length) 0 ++ (Nat.digits 10 n).reverse, d < 10 := by
  intro d hd
  rcases List.mem_append.mp hd with hd | hd
  · obtain rfl := List.eq_of_mem_replicate hd
    omega
  · exact Nat.digits_lt_base (by omega) (List.mem_reverse.mp hd)

theorem queue_name_ascii (n : ℕ) : Ascii ([105, 100, 58] ++ decimal06 n) := by
  intro b hb
  rcases List.mem_append.mp hb with hb | hb
  · simp only [List.mem_cons, List.not_mem_nil, or_false] at hb
    rcases hb with rfl | rfl | rfl <;> decide
  · rw [decimal06_digits] at hb
    obtain ⟨d, hd, rfl⟩ := List.mem_map.mp hb
    have := digits_lt_ten n d hd
    interval_cases d <;> decide

theorem decimal06_length (n : ℕ) : 6 ≤ (decimal06 n).length := by
  rw [decimal06_digits]
  simp
  omega

theorem get_afl_id_returns (n : ℕ) (suffix : List UInt8) :
    (getAflId (queueName n suffix)).isSome = true := by
  have hlen := decimal06_length n
  have hcut : isUtf8 (queueName n suffix) = true → ∀ i ≤ 9,
      isCharBoundary (queueName n suffix) i = true := by
    intro h i hi
    apply boundary_after_ascii (queue_name_ascii n) h
    rw [List.length_append]
    simp only [List.length_cons, List.length_nil]
    omega
  unfold getAflId
  split_ifs with htext hlong hbound
  · rfl
  · simp [hcut htext] at hbound
  · rfl
  · rfl

theorem get_afl_id_queue_name (n : ℕ) (suffix : List UInt8) (hn : n < 10^6)
    (hsuffix : isUtf8 suffix = true) : getAflId (queueName n suffix) = some (some n) := by
  have hdigits : (Nat.digits 10 n).length ≤ 6 := (Nat.digits_length_le_iff (by omega) n).mpr hn
  have hlen : (decimal06 n).length = 6 := by
    rw [decimal06_digits]
    simp
    omega
  have hslice : slice (queueName n suffix) 3 6 = decimal06 n := by
    simp [slice, queueName, hlen]
  have hne : List.replicate (6-(Nat.digits 10 n).length) 0 ++ (Nat.digits 10 n).reverse ≠ [] := by
    intro hnil
    rw [decimal06_digits, hnil] at hlen
    cases hlen
  have hparse : parseUsize (decimal06 n) = some n := by
    rw [decimal06_digits, parse_usize_to_digit _ (digits_lt_ten n) hne, digits_value]
  have htext : isUtf8 (queueName n suffix) = true := by
    rw [queueName, is_utf8_ascii (queue_name_ascii n)]
    exact hsuffix
  have hreturns := get_afl_id_returns n suffix
  unfold getAflId at hreturns ⊢
  rw [if_pos htext, if_pos (by simp [queueName, hlen])] at hreturns ⊢
  split_ifs at hreturns ⊢ with hbound
  · rw [hslice, hparse]
  · cases hreturns

theorem parse_digits_lt {bs : List UInt8} {acc v : ℕ} (h : parseDigits acc bs = some v) :
    v < (acc+1)*10^bs.length := by
  induction bs generalizing acc with
  | nil =>
    rw [← Option.some.inj h]
    simp
  | cons b bs ih =>
    obtain ⟨d, hd, h⟩ := Option.bind_eq_some_iff.mp h
    have hdigit : d < 10 := by
      unfold ofDigit at hd
      split_ifs at hd with hrange
      rw [← Option.some.inj hd]
      omega
    calc
      v < (10*acc+d+1)*10^bs.length := ih h
      _ ≤ (10*(acc+1))*10^bs.length := Nat.mul_le_mul_right _ (by omega)
      _ = (acc+1)*10^(b::bs).length := by rw [List.length_cons, pow_succ]; ring

theorem parse_usize_lt {bs : List UInt8} {v : ℕ} (h : parseUsize bs = some v) :
    v < 10^bs.length := by
  unfold parseUsize at h
  split at h
  · cases h
  · cases h
  · rename_i bs _
    have hlt := parse_digits_lt h
    rw [zero_add, one_mul] at hlt
    exact hlt.trans (Nat.pow_lt_pow_right (by decide) (by simp))
  · have hlt := parse_digits_lt h
    rwa [zero_add, one_mul] at hlt

theorem get_afl_id_lt {name : List UInt8} {id : ℕ} (h : getAflId name = some (some id)) :
    isUtf8 name = true ∧ id < 10^6 := by
  unfold getAflId at h
  split_ifs at h with htext hlong hbound
  · refine ⟨htext, ?_⟩
    have hlt := parse_usize_lt (Option.some.inj h)
    rwa [slice_length name 3 6 (by omega)] at hlt
  · cases Option.some.inj h
  · cases Option.some.inj h

/-- An id comes back exactly if it has six digits and its name is a text, and a name is cut
inside a character exactly if it is a text with no boundary at byte 3 or at byte 9. -/
theorem get_afl_id_iff (id : ℕ) (suffix name : List UInt8) :
    (getAflId (queueName id suffix) = some (some id) ↔ id < 10^6 ∧ isUtf8 suffix = true) ∧
    ((getAflId name).isSome = true ↔
      (isUtf8 name = true → 9 ≤ name.length →
        isCharBoundary name 3 = true ∧ isCharBoundary name 9 = true)) := by
  constructor
  · constructor
    · intro h
      obtain ⟨htext, hlt⟩ := get_afl_id_lt h
      rw [queueName, is_utf8_ascii (queue_name_ascii id)] at htext
      exact ⟨hlt, htext⟩
    · rintro ⟨hlt, htext⟩
      exact get_afl_id_queue_name id suffix hlt htext
  · unfold getAflId
    split_ifs with htext hlong hbound
    · simpa [htext, hlong] using hbound
    · simpa [htext, hlong] using hbound
    · simp [hlong]
    · simp [htext]

/-- The millionth file of a queue, and a name with a character of two bytes at byte 2. -/
theorem get_afl_id_cuts :
    queueName 1000000 [] = [105, 100, 58, 49, 48, 48, 48, 48, 48, 48] ∧
    getAflId (queueName 1000000 []) = some (some 100000) ∧
    getAflId [105, 100, 0xC3, 0xA9, 48, 48, 48, 48, 48] = none := by
  have hname : queueName 1000000 [] = [105, 100, 58, 49, 48, 48, 48, 48, 48, 48] := by
    simp [queueName, decimal06, toDigit]
  rw [hname]
  decide

theorem continues_of_small (s : Directory) (suffix : List UInt8) (len : ℕ)
    (hsmall : s.created < 10^6) (hsuffix : isUtf8 suffix = true)
    (hrec : s.syncId.getD 0 ≤ s.created) : Continues s (.createFile suffix len) := by
  intro _
  simp [readsFrom, get_afl_id_queue_name s.created suffix hsmall hsuffix, hrec]

end Names

section OnePass

def taken (minId : ℕ) (f : DirEntry) : Bool :=
  f.isFile && decide (f.len < maxInputLen) && (getAflId f.name).join.any fun id => minId ≤ id

theorem visit_cases {minId : ℕ} {p p' : Pass} {e : DirEntry} (h : visit minId p e = some p') :
    p'.ran = p.ran ++ (if taken minId e then [e] else []) ∧ p.maxId ≤ p'.maxId ∧
      (minId ≤ p.maxId → e.isFile = true → ∀ id, getAflId e.name = some (some id) →
        id ≤ p'.maxId) := by
  unfold visit at h
  unfold taken
  cases hfile : e.isFile with
  | false =>
    rw [hfile] at h
    obtain rfl : p = p' := Option.some.inj h
    exact ⟨by simp, le_refl _, fun _ hf => absurd hf (by decide)⟩
  | true =>
    rw [hfile, if_pos rfl] at h
    obtain ⟨answer, hanswer, h⟩ := Option.bind_eq_some_iff.mp h
    rw [hanswer]
    cases answer with
    | none =>
      obtain rfl : p = p' := Option.some.inj h
      exact ⟨by simp, le_refl _, fun _ _ id hid => by cases hid⟩
    | some id =>
      by_cases hmin : minId ≤ id
      · simp only [if_pos hmin] at h
        obtain rfl := Option.some.inj h
        refine ⟨?_, ?_, ?_⟩
        · by_cases hlen : e.len < maxInputLen <;> simp [hlen, hmin]
        · show p.maxId ≤ if p.maxId < id then id else p.maxId
          split_ifs <;> omega
        · intro _ _ id' hid
          obtain rfl : id = id' := by simpa using hid
          show id ≤ if p.maxId < id then id else p.maxId
          split_ifs <;> omega
      · simp only [if_neg hmin] at h
        obtain rfl : p = p' := Option.some.inj h
        refine ⟨by simp [hmin], le_refl _, ?_⟩
        intro hle _ id' hid
        obtain rfl : id = id' := by simpa using hid
        omega

theorem visit_fold_cases {minId : ℕ} {listing : List DirEntry} {p p' : Pass}
    (hmin : minId ≤ p.maxId) (h : listing.foldlM (visit minId) p = some p') :
    p'.ran = p.ran ++ listing.filter (taken minId) ∧ p.maxId ≤ p'.maxId ∧
      ∀ f ∈ listing, f.isFile = true → ∀ id, getAflId f.name = some (some id) →
        id ≤ p'.maxId := by
  induction listing generalizing p with
  | nil =>
    obtain rfl : p = p' := Option.some.inj h
    exact ⟨by simp, le_refl _, fun f hf => absurd hf List.not_mem_nil⟩
  | cons e listing ih =>
    rw [List.foldlM_cons] at h
    obtain ⟨q, hq, h⟩ := Option.bind_eq_some_iff.mp h
    obtain ⟨hran, hle, hid⟩ := visit_cases hq
    obtain ⟨hran', hle', hids⟩ := ih (hmin.trans hle) h
    refine ⟨?_, hle.trans hle', ?_⟩
    · rw [hran', hran, List.append_assoc, List.filter_cons]
      split_ifs <;> rfl
    · intro f hf hfile id hfid
      rcases List.mem_cons.mp hf with rfl | hf
      · exact (hid hmin hfile id hfid).trans hle'
      · exact hids f hf hfile id hfid

theorem sync_spec {syncId : Option ℕ} {listing : List DirEntry} {p : Pass}
    (h : syncOneAflDir syncId listing = some p) :
    p.ran = listing.filter (taken (syncId.getD 0)) ∧
      ∀ f ∈ listing, f.isFile = true → ∀ id, getAflId f.name = some (some id) → id < p.maxId := by
  obtain ⟨q, hq, rfl⟩ := Option.map_eq_some_iff.mp h
  have hmin : syncId.getD 0 ≤ (⟨syncId.getD 0, []⟩ : Pass).maxId := le_refl _
  obtain ⟨hran, -, hids⟩ := visit_fold_cases hmin hq
  exact ⟨hran, fun f hf hfile id hid => Nat.lt_succ_of_le (hids f hf hfile id hid)⟩

theorem sync_returns {syncId : Option ℕ} {listing : List DirEntry}
    (h : ∀ f ∈ listing, f.isFile = true → (getAflId f.name).isSome = true) :
    (syncOneAflDir syncId listing).isSome = true := by
  rw [syncOneAflDir, Option.isSome_map]
  generalize (⟨syncId.getD 0, []⟩ : Pass) = p
  induction listing generalizing p with
  | nil => rfl
  | cons e listing ih =>
    have hone : ∃ q, visit (syncId.getD 0) p e = some q := by
      unfold visit
      by_cases hfile : e.isFile = true
      · obtain ⟨answer, hanswer⟩ := Option.isSome_iff_exists.mp (h e List.mem_cons_self hfile)
        rw [if_pos hfile, hanswer]
        cases answer with
        | none => exact ⟨p, rfl⟩
        | some id =>
          by_cases hmin : syncId.getD 0 ≤ id
          · exact ⟨_, if_pos hmin⟩
          · exact ⟨_, if_neg hmin⟩
      · exact ⟨p, if_neg hfile⟩
    obtain ⟨q, hq⟩ := hone
    rw [List.foldlM_cons, hq]
    exact ih (fun f hf => h f (List.mem_cons_of_mem _ hf)) q

end OnePass

section Run

/-- For a short file of the directory, to have been listed is to be below the number recorded. -/
structure Inv (s : Directory) : Prop where
  names : (s.entries.map DirEntry.name).Nodup
  readable : ∀ f ∈ s.entries, f.isFile = true → (getAflId f.name).isSome = true
  listed : ∀ r ∈ s.rounds, ∀ f ∈ r.listing, f ∈ s.entries
  recorded : ∀ f ∈ s.entries, Short f →
    ∃ id, getAflId f.name = some (some id) ∧ (Seen s.rounds f ↔ id < s.syncId.getD 0)
  once : RunOnce s.rounds

theorem inv_start : Inv start where
  names := List.nodup_nil
  readable := fun f hf => absurd hf List.not_mem_nil
  listed := fun r hr => absurd hr List.not_mem_nil
  recorded := fun f hf => absurd hf List.not_mem_nil
  once := fun k r hr => by simp [start] at hr

theorem add_entry_inv {s t : Directory} {f : DirEntry} (hs : Inv s)
    (hname : f.isFile = true → (getAflId f.name).isSome = true)
    (hf : Short f → readsFrom s.syncId f.name = true) (h : addEntry s f = some t) : Inv t := by
  unfold addEntry at h
  split_ifs at h with hnew
  obtain rfl := Option.some.inj h
  refine ⟨?_, ?_, ?_, ?_, hs.once⟩
  · rw [List.map_append, List.map_singleton]
    exact List.nodup_append.mpr ⟨hs.names, List.nodup_singleton _, by
      intro a ha b hb hab
      obtain rfl := List.mem_singleton.mp hb
      exact hnew (hab ▸ ha)⟩
  · intro g hg
    rcases List.mem_append.mp hg with hg | hg
    · exact hs.readable g hg
    · obtain rfl := List.mem_singleton.mp hg
      exact hname
  · exact fun r hr g hg => List.mem_append_left _ (hs.listed r hr g hg)
  · intro g hg hshort
    rcases List.mem_append.mp hg with hg | hg
    · exact hs.recorded g hg hshort
    · obtain rfl := List.mem_singleton.mp hg
      obtain ⟨id, hid, hle⟩ := (Option.any_eq_true _ _).mp (hf hshort)
      have hid : getAflId g.name = some (some id) := Option.join_eq_some_iff.mp hid
      have hunseen : ¬Seen s.rounds g := by
        rintro ⟨r, hr, hgr⟩
        exact hnew (List.mem_map_of_mem (hs.listed r hr g hgr))
      have hle : s.syncId.getD 0 ≤ id := of_decide_eq_true hle
      exact ⟨id, hid, iff_of_false hunseen (Nat.not_lt.mpr hle)⟩

theorem taken_iff {f : DirEntry} (hf : Short f) {id : ℕ} (hid : getAflId f.name = some (some id))
    (minId : ℕ) : taken minId f = true ↔ minId ≤ id := by
  simp [taken, hf.1, hf.2, hid]

theorem sync_counts {s : Directory} (hs : Inv s) {listing : List DirEntry}
    (hperm : listing.Perm s.entries) {f : DirEntry} (hf : Short f) :
    (f ∈ listing ∧ ¬Seen s.rounds f → (listing.filter (taken (s.syncId.getD 0))).count f = 1) ∧
      (f ∉ listing ∨ Seen s.rounds f →
        (listing.filter (taken (s.syncId.getD 0))).count f = 0) := by
  constructor
  · rintro ⟨hlisted, hunseen⟩
    obtain ⟨id, hid, hseen⟩ := hs.recorded f (hperm.mem_iff.mp hlisted) hf
    have htaken := (taken_iff hf hid _).mpr (Nat.not_lt.mp (mt hseen.mpr hunseen))
    have hnodup : listing.Nodup := hperm.nodup_iff.mpr (List.Nodup.of_map _ hs.names)
    rw [List.count_filter htaken]
    exact List.count_eq_one_of_mem hnodup hlisted
  · intro hnot
    apply List.count_eq_zero_of_not_mem
    intro hmem
    obtain ⟨hlisted, htaken⟩ := List.mem_filter.mp hmem
    obtain ⟨id, hid, hseen⟩ := hs.recorded f (hperm.mem_iff.mp hlisted) hf
    have hle := (taken_iff hf hid _).mp htaken
    rcases hnot with hnot | hnot
    · exact hnot hlisted
    · exact absurd (hseen.mp hnot) (Nat.not_lt.mpr hle)

theorem run_once_append {rounds : List Round} {r : Round} (h : RunOnce rounds)
    (hr : ∀ f, Short f → (f ∈ r.listing ∧ ¬Seen rounds f → r.ran.count f = 1) ∧
      (f ∉ r.listing ∨ Seen rounds f → r.ran.count f = 0)) : RunOnce (rounds ++ [r]) := by
  intro k q hq
  rcases Nat.lt_or_ge k rounds.length with hk | hk
  · rw [List.getElem?_append_left hk] at hq
    rw [List.take_append_of_le_length hk.le]
    exact h k q hq
  · rw [List.getElem?_append_right hk] at hq
    obtain ⟨hzero, hlast⟩ := List.getElem?_eq_some_iff.mp hq
    have hk' : k = rounds.length := by
      rw [List.length_singleton] at hzero
      omega
    subst hk'
    obtain rfl : r = q := by simpa using hlast
    rw [List.take_left]
    exact hr

theorem sync_inv {s : Directory} (hs : Inv s) {listing : List DirEntry} {p : Pass}
    (hperm : listing.Perm s.entries) (hp : syncOneAflDir s.syncId listing = some p) :
    Inv { s with syncId := some p.maxId, rounds := s.rounds ++ [{ listing, ran := p.ran }] } := by
  obtain ⟨hran, hids⟩ := sync_spec hp
  refine ⟨hs.names, hs.readable, ?_, ?_, ?_⟩
  · intro r hr f hf
    rcases List.mem_append.mp hr with hr | hr
    · exact hs.listed r hr f hf
    · obtain rfl := List.mem_singleton.mp hr
      exact hperm.mem_iff.mp hf
  · intro f hf hshort
    obtain ⟨id, hid, -⟩ := hs.recorded f hf hshort
    have hlisted := hperm.mem_iff.mpr hf
    refine ⟨id, hid,
      iff_of_true ⟨_, List.mem_append_right _ (List.mem_singleton_self _), hlisted⟩ ?_⟩
    exact hids f hlisted hshort.1 id hid
  · apply run_once_append hs.once
    rw [hran]
    exact fun _ hf => sync_counts hs hperm hf

theorem next_inv (s : Directory) (e : Event) (t : Directory) (hs : Inv s) (he : Continues s e)
    (h : next s e = some t) : Inv t := by
  cases e with
  | createFile suffix len =>
    have hs' : Inv { s with created := s.created+1 } :=
      ⟨hs.names, hs.readable, hs.listed, hs.recorded, hs.once⟩
    have hreads : Short (fileFor s suffix len) →
        readsFrom s.syncId (fileFor s suffix len).name = true := by
      rintro ⟨-, hlen⟩
      exact he hlen
    have hreturns : (getAflId (fileFor s suffix len).name).isSome = true :=
      get_afl_id_returns s.created suffix
    exact add_entry_inv hs' (fun _ => hreturns) hreads h
  | createDir name =>
    exact add_entry_inv hs (fun hf => absurd hf Bool.false_ne_true)
      (fun hf => absurd hf.1 Bool.false_ne_true) h
  | sync listing =>
    simp only [next] at h
    split_ifs at h with hperm
    obtain ⟨p, hp, rfl⟩ := Option.map_eq_some_iff.mp h
    exact sync_inv hs hperm hp

end Run

/-- Whatever the order of creations, listings and passes, a short file is run
once, by the first pass that lists it, as long as no short file is given a
name that reads as an id below the number recorded; and a pass always returns. -/
theorem sync_runs_once (s : Directory) (h : Reachable next Continues start s) :
    RunOnce s.rounds ∧
      ∀ listing, listing.Perm s.entries → (next s (.sync listing)).isSome = true := by
  have hs : Inv s := reachable_invariant inv_start next_inv h
  refine ⟨hs.once, ?_⟩
  intro listing hperm
  rw [next, if_pos hperm, Option.isSome_map]
  exact sync_returns fun f hf => hs.readable f (hperm.mem_iff.mp hf)

def smallFile (id : ℕ) : DirEntry := { name := queueName id [], isFile := true, len := 1 }

theorem sync_runs_once_two_files : ∃ s, Reachable next Continues start s ∧
    s.rounds.map (fun r => r.ran.length) = [1, 1] ∧ RunOnce s.rounds := by
  have hrun : (replay next Continues start [.createFile [] 1, .sync [smallFile 0],
      .createDir [46], .createFile [] 1,
      .sync [smallFile 1, ⟨[46], false, 0⟩, smallFile 0]]).map
        (fun s => s.rounds.map fun r => r.ran.length) = some [1, 1] := by decide +kernel
  obtain ⟨s, hs, hran⟩ := Option.map_eq_some_iff.mp hrun
  have hreach := replay_reachable _ _ _ hs
  exact ⟨s, hreach, hran, (sync_runs_once s hreach).1⟩

/-- After a pass that finds nothing new the next file is never run. -/
theorem sync_skips_file : ∃ s, Reachable next (fun _ _ => True) start s ∧ ¬RunOnce s.rounds := by
  have hrun : (replay next (fun _ _ => True) start [.createFile [] 1, .sync [smallFile 0],
      .sync [smallFile 0], .createFile [] 1, .sync [smallFile 0, smallFile 1]]).map
        Directory.rounds =
      some [⟨[smallFile 0], [smallFile 0]⟩, ⟨[smallFile 0], []⟩,
        ⟨[smallFile 0, smallFile 1], []⟩] := by decide +kernel
  obtain ⟨s, hs, hrounds⟩ := Option.map_eq_some_iff.mp hrun
  refine ⟨s, replay_reachable _ _ _ hs, ?_⟩
  rw [hrounds]
  intro honce
  have hunseen : ¬Seen [⟨[smallFile 0], [smallFile 0]⟩, ⟨[smallFile 0], []⟩] (smallFile 1) := by
    unfold Seen
    decide +kernel
  have hcount := (honce 2 _ rfl (smallFile 1) ⟨rfl, by decide⟩).1 ⟨by simp, hunseen⟩
  exact absurd hcount (by decide)

end Parmesan.AflSync
