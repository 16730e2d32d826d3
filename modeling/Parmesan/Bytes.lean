import Mathlib.Algebra.Order.Ring.Nat
import Mathlib.Tactic.SplitIfs

/-!
# Numbers in byte buffers

A number of `n` bytes is stored with its lowest byte first. `slice` reads `n`
bytes of a buffer, `splice` overwrites as many bytes as it is given.
-/

set_option autoImplicit false

namespace Parmesan.Bytes

def leBytes : ℕ → ℕ → List UInt8
  | 0, _ => []
  | n+1, v => UInt8.ofNat v :: leBytes n (v / 256)

def leValue : List UInt8 → ℕ
  | [] => 0
  | b::bs => b.toNat + 256 * leValue bs

@[simp] theorem le_bytes_length (n v : ℕ) : (leBytes n v).length = n := by
  induction n generalizing v with
  | zero => rfl
  | succ n ih => simp [leBytes, ih]

theorem le_value_bytes (n v : ℕ) : leValue (leBytes n v) = v % 256^n := by
  induction n generalizing v with
  | zero => simp [leBytes, leValue, Nat.mod_one]
  | succ n ih =>
    have hlow : (UInt8.ofNat v).toNat = v % 256 := by simp
    rw [leBytes, leValue, ih, hlow, Nat.pow_succ', Nat.mod_mul]

variable {α : Type}

def slice (buf : List α) (off n : ℕ) : List α := (buf.drop off).take n

def splice (buf : List α) (off : ℕ) (bs : List α) : List α :=
  buf.take off ++ bs ++ buf.drop (off+bs.length)

theorem splice_length (buf : List α) (off : ℕ) (bs : List α)
    (h : off+bs.length ≤ buf.length) : (splice buf off bs).length = buf.length := by
  simp only [splice, List.length_append, List.length_take, List.length_drop]
  omega

theorem splice_get (buf : List α) (off : ℕ) (bs : List α) (h : off+bs.length ≤ buf.length)
    (y : ℕ) : (splice buf off bs)[y]? =
      if off ≤ y ∧ y < off+bs.length then bs[y-off]? else buf[y]? := by
  have hoff : (buf.take off).length = off := by
    rw [List.length_take]
    omega
  unfold splice
  by_cases hlow : y < off
  · rw [if_neg (by omega), List.append_assoc, List.getElem?_append_left (by omega),
      List.getElem?_take_of_lt hlow]
  · by_cases hin : y < off+bs.length
    · rw [if_pos (by omega), List.append_assoc, List.getElem?_append_right (by omega),
        List.getElem?_append_left (by omega), hoff]
    · have hlen : (buf.take off ++ bs).length = off+bs.length := by
        rw [List.length_append, hoff]
      rw [if_neg (by omega), List.getElem?_append_right (by omega), hlen, List.getElem?_drop]
      congr 1
      omega

theorem slice_length (buf : List α) (off n : ℕ) (h : off+n ≤ buf.length) :
    (slice buf off n).length = n := by
  rw [slice, List.length_take, List.length_drop]
  omega

theorem slice_get (buf : List α) (off n k : ℕ) :
    (slice buf off n)[k]? = if k < n then buf[off+k]? else none := by
  rw [slice, List.getElem?_take, List.getElem?_drop]

theorem slice_congr {buf buf' : List α} {off n : ℕ}
    (h : ∀ k < n, buf[off+k]? = buf'[off+k]?) : slice buf off n = slice buf' off n := by
  apply List.ext_getElem?
  intro k
  rw [slice_get, slice_get]
  split_ifs with hk
  · exact h k hk
  · rfl

theorem slice_splice_same (buf : List α) (off : ℕ) (bs : List α)
    (h : off+bs.length ≤ buf.length) : slice (splice buf off bs) off bs.length = bs := by
  apply List.ext_getElem?
  intro k
  rw [slice_get, splice_get buf off bs h]
  split_ifs with hk hin
  · congr 1
    omega
  · omega
  · exact (List.getElem?_eq_none (by omega)).symm

theorem splice_slice_same (buf : List α) (off n : ℕ) (h : off+n ≤ buf.length) :
    splice buf off (slice buf off n) = buf := by
  have hlen := slice_length buf off n h
  apply List.ext_getElem?
  intro y
  rw [splice_get buf off _ (by omega), hlen, slice_get]
  split_ifs with hin hk
  · congr 1
    omega
  · omega
  · rfl

theorem slice_splice_apart (buf : List α) (off : ℕ) (bs : List α) (a n : ℕ)
    (hfit : off+bs.length ≤ buf.length) (hapart : a+n ≤ off ∨ off+bs.length ≤ a) :
    slice (splice buf off bs) a n = slice buf a n := by
  apply slice_congr
  intro k hk
  rw [splice_get buf off bs hfit, if_neg (by omega)]

end Parmesan.Bytes
