import Mathlib.Algebra.Order.Ring.Int
import Mathlib.Data.List.Basic
import Mathlib.Data.Int.Basic
import Mathlib.Tactic.SplitIfs

/-!
# The labels of the bytes that were read

`assign_taint_labels_exf` of `external_lib/io_func.c` labels what `fread` or `read` has
filled of the buffer, and up to 1024 bytes of the rest. The lengths are products of two
`size_t` that are kept in an `int`.
-/

set_option autoImplicit false

namespace Parmesan.ReadLabels

section Conversion

def asInt (v : ℤ) : ℤ := (v+2^31) % 2^32-2^31

def asSize (v : ℤ) : ℕ := (v % 2^64).toNat

/-- A sum of two `int`; its overflow is undefined. -/
def addInt (a b : ℤ) : Option ℤ := if -2^31 ≤ a+b ∧ a+b < 2^31 then some (a+b) else none

end Conversion

def granularity : ℕ := 1

/-- The offset that reaches the label set: the argument of `dfsan_create_label` is an
`int`, that of `__angora_tag_set_insert` an unsigned number of the same width. -/
def dfsanCreateLabel (pos : ℕ) : ℕ := (asInt pos % 2^32).toNat

/-- The bytes that are labelled, each with the offset that its label stands for. -/
def assignTaintLabels (offset : ℤ) (size : ℕ) : List (ℕ × ℕ) :=
  (List.range size).flatMap fun i : ℕ =>
    (List.range (if size < i+granularity then size-i else granularity)).map fun j =>
      (i+j, dfsanCreateLabel (asSize (offset+i)))

def exfLen (ret count size : ℕ) : Option ℤ :=
  let len := asInt (ret*size % 2^64 : ℕ)
  if ret < count then
    let res := asInt ((count-ret)*size % 2^64 : ℕ)
    addInt len (if res < 1024 then res else 1024)
  else some len

def assignTaintLabelsExf (offset : ℤ) (ret count size : ℕ) : Option (List (ℕ × ℕ)) :=
  let offset := if offset < 0 then 0 else offset
  (exfLen ret count size).map fun len => assignTaintLabels offset (asSize len)

def labelled (ret count size : ℕ) : ℕ := ret*size+min 1024 ((count-ret)*size)

theorem labelled_le {ret count : ℕ} (h : ret ≤ count) (size : ℕ) :
    labelled ret count size ≤ count*size := by
  have hsplit : ret*size+(count-ret)*size = count*size := by
    rw [← Nat.add_mul, Nat.add_sub_cancel' h]
  unfold labelled
  omega

/-- The length fits an `int`, the offsets fit 32 bits, and a rest of 1024 bytes or more is
seen as such. -/
structure Converts (offset : ℤ) (ret count size : ℕ) : Prop where
  length : labelled ret count size < 2^31
  offsets : labelled ret count size ≠ 0 → max offset 0+labelled ret count size ≤ 2^32
  rest : (count-ret)*size < 1024 ∨
    1024 ≤ (count-ret)*size % 2^32 ∧ (count-ret)*size % 2^32 < 2^31

section Length

def added (rest : ℕ) : ℤ := if asInt rest < 1024 then asInt rest else 1024

theorem as_int_mod (v : ℕ) : asInt (v % 2^64 : ℕ) = asInt v := by
  simp only [asInt]
  omega

theorem exf_len_eq (ret count size : ℕ) :
    exfLen ret count size = addInt (asInt (ret*size : ℕ)) (added ((count-ret)*size)) := by
  simp only [exfLen, as_int_mod]
  by_cases hlt : ret < count
  · rw [if_pos hlt, added]
  · -- nothing is left, and adding nothing does not overflow
    rw [if_neg hlt]
    have hnone : added ((count-ret)*size) = 0 := by
      rw [Nat.sub_eq_zero_of_le (Nat.not_lt.mp hlt), Nat.zero_mul]
      decide
    rw [hnone, addInt, Int.add_zero, if_pos]
    unfold asInt
    omega

theorem added_eq_iff (rest : ℕ) :
    added rest = min 1024 rest ↔ rest < 1024 ∨ 1024 ≤ rest % 2^32 ∧ rest % 2^32 < 2^31 := by
  unfold added asInt
  split_ifs <;> omega

theorem add_int_iff (a rest : ℕ) :
    (∃ len, addInt (asInt a) (added rest) = some len ∧ asSize len = a+min 1024 rest ∧
      a+min 1024 rest ≤ 2^32) ↔ a+min 1024 rest < 2^31 ∧ added rest = min 1024 rest := by
  constructor
  · rintro ⟨len, hlen, hsize, hlt⟩
    unfold addInt at hlen
    split_ifs at hlen with hrange
    have heq := Option.some.inj hlen
    have hadded : added rest ≤ 1024 := by
      unfold added
      split_ifs <;> omega
    unfold asSize at hsize
    have ha : asInt a = a := by
      unfold asInt at heq hrange ⊢
      omega
    omega
  · rintro ⟨hlt, hadded⟩
    have ha : asInt a = a := by
      unfold asInt
      omega
    refine ⟨a+min 1024 rest, ?_, ?_, by omega⟩
    · rw [addInt, ha, hadded, if_pos (by omega)]
    · unfold asSize
      omega

end Length

section Labels
variable {offset : ℤ}

theorem assign_taint_labels_eq (offset : ℤ) (size : ℕ) :
    assignTaintLabels offset size =
      (List.range size).map fun i : ℕ => (i, dfsanCreateLabel (asSize (offset+i))) := by
  rw [assignTaintLabels, List.map_eq_flatMap]
  apply List.flatMap_congr
  intro i hi
  have hlt := List.mem_range.mp hi
  rw [granularity, if_neg (by omega)]
  rfl

theorem create_label_offset (offset : ℤ) (i : ℕ) :
    dfsanCreateLabel (asSize (offset+i)) = ((offset+i) % 2^32).toNat := by
  unfold dfsanCreateLabel asSize asInt
  omega

theorem assign_taint_labels_iff (hoffset : 0 ≤ offset) (size n : ℕ) :
    assignTaintLabels offset size = ((List.range n).map fun i => (i, offset.toNat+i)) ↔
      size = n ∧ (n ≠ 0 → offset+n ≤ 2^32) := by
  rw [assign_taint_labels_eq]
  constructor
  · intro h
    have hlen : size = n := by simpa using congrArg List.length h
    refine ⟨hlen, ?_⟩
    intro hn
    rw [hlen] at h
    have hlast := List.map_inj_left.mp h (n-1) (List.mem_range.mpr (by omega))
    have hpos := congrArg Prod.snd hlast
    simp only [create_label_offset] at hpos
    omega
  · rintro ⟨rfl, hfit⟩
    apply List.map_congr_left
    intro i hi
    have hlt := List.mem_range.mp hi
    have hle := hfit (by omega)
    rw [create_label_offset, Prod.mk.injEq]
    exact ⟨rfl, by omega⟩

end Labels

/-- The bytes that are meant get the labels that are meant exactly if every conversion on
the way keeps its value or, for the rest, the side of 1024 it is on. -/
theorem exf_labels_iff {ret count : ℕ} (hle : ret ≤ count) (offset : ℤ) (size : ℕ) :
    (assignTaintLabelsExf offset ret count size = some ((List.range (labelled ret count size)).map
      fun i => (i, (max offset 0).toNat+i)) ∧ labelled ret count size ≤ count*size) ↔
      Converts offset ret count size := by
  have hmax : (if offset < 0 then 0 else offset) = max offset 0 := by
    split_ifs <;> omega
  have hcall : assignTaintLabelsExf offset ret count size = some ((List.range
      (labelled ret count size)).map fun i => (i, (max offset 0).toNat+i)) ↔
      ∃ len, addInt (asInt (ret*size : ℕ)) (added ((count-ret)*size)) = some len ∧
        asSize len = labelled ret count size ∧
        (labelled ret count size ≠ 0 → max offset 0+labelled ret count size ≤ 2^32) := by
    simp only [assignTaintLabelsExf, hmax, exf_len_eq, Option.map_eq_some_iff,
      assign_taint_labels_iff (Int.le_max_right offset 0)]
  rw [and_iff_left (labelled_le hle size), hcall]
  constructor
  · rintro ⟨len, hadd, hsize, hfit⟩
    have hsmall : labelled ret count size ≤ 2^32 := by
      by_cases hnone : labelled ret count size = 0
      · omega
      · have hfits := hfit hnone
        omega
    have hboth := (add_int_iff (ret*size) ((count-ret)*size)).mp ⟨len, hadd, hsize, hsmall⟩
    exact ⟨hboth.1, hfit, (added_eq_iff _).mp hboth.2⟩
  · intro h
    obtain ⟨len, hadd, hsize, -⟩ := (add_int_iff (ret*size) ((count-ret)*size)).mpr
      ⟨h.length, (added_eq_iff _).mpr h.rest⟩
    exact ⟨len, hadd, hsize, h.offsets⟩

/-- 40 of 100 bytes were read behind the first 8 of the file. -/
theorem exf_labels_iff_read :
    assignTaintLabelsExf 8 40 100 1 =
      some ((List.range (labelled 40 100 1)).map fun i => (i, (max (8 : ℤ) 0).toNat+i)) ∧
      labelled 40 100 1 ≤ 100*1 :=
  (exf_labels_iff (by decide) 8 1).mpr ⟨by decide, by decide, Or.inl (by decide)⟩

/-- One byte of `2^31+1` was read: the rest is negative as an `int`, and far more bytes are
labelled than the buffer has. -/
theorem exf_rest_wraps :
    1 ≤ 2^31+1 ∧ (exfLen 1 (2^31+1) 1).map asSize = some (2^64-2^31+1) ∧
      labelled 1 (2^31+1) 1 = 1025 ∧
      assignTaintLabelsExf 0 1 (2^31+1) 1 ≠
        some ((List.range (labelled 1 (2^31+1) 1)).map fun i => (i, (max (0 : ℤ) 0).toNat+i)) := by
  have hlen : (exfLen 1 (2^31+1) 1).map asSize = some (2^64-2^31+1) := by decide
  refine ⟨by decide, hlen, by decide, ?_⟩
  obtain ⟨len, hexf, hsize⟩ := Option.map_eq_some_iff.mp hlen
  intro h
  rw [assignTaintLabelsExf, hexf, Option.map_some, hsize] at h
  have hcount := congrArg List.length (Option.some.inj h)
  rw [assign_taint_labels_eq, List.length_map, List.length_range, List.length_map,
    List.length_range] at hcount
  exact absurd hcount (by decide)

end Parmesan.ReadLabels
