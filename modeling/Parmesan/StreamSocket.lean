import Mathlib.Data.Nat.Notation
import Mathlib.Tactic.SplitIfs

/-!
# Reading from a stream socket

A read of at most `limit` bytes returns some of the bytes that have arrived, in
their order and at least one, nothing when the peer is gone and all has been
read, or it fails.
-/

set_option autoImplicit false

namespace Parmesan.StreamSocket

inductive Received where
  | data (count : ℕ)
  | eof
  | fail
  deriving DecidableEq, Repr

variable {α : Type}

/-- The bytes returned and those left, unless the read fails. -/
def receive (pending : List α) (peerOpen : Bool) (limit : ℕ) :
    Received → Option (List α × List α)
  | .data count =>
    if 0 < count ∧ count ≤ limit ∧ count ≤ pending.length
    then some (pending.take count, pending.drop count) else none
  | .eof => if pending = [] ∧ peerOpen = false then some ([], []) else none
  | .fail => none

def fillBuf (limit : ℕ) (bytes : List UInt8) : List UInt8 :=
  bytes ++ List.replicate (limit-bytes.length) 0

variable {pending bytes rest : List α} {peerOpen : Bool} {limit count : ℕ}

theorem receive_data (h : receive pending peerOpen limit (.data count) = some (bytes, rest)) :
    0 < count ∧ count ≤ limit ∧ pending = bytes ++ rest ∧ bytes.length = count := by
  simp only [receive] at h
  split_ifs at h with hcount
  obtain ⟨rfl, rfl⟩ := Prod.mk.inj (Option.some.inj h)
  refine ⟨hcount.1, hcount.2.1, (List.take_append_drop count pending).symm, ?_⟩
  exact List.length_take_of_le hcount.2.2

theorem receive_eof (h : receive pending peerOpen limit .eof = some (bytes, rest)) :
    pending = [] ∧ bytes = [] ∧ rest = [] ∧ peerOpen = false := by
  simp only [receive] at h
  split_ifs at h with hend
  obtain ⟨rfl, rfl⟩ := Prod.mk.inj (Option.some.inj h)
  exact ⟨hend.1, rfl, rfl, hend.2⟩

theorem fill_buf_full {bytes : List UInt8} (h : bytes.length = limit) :
    fillBuf limit bytes = bytes := by
  rw [fillBuf, h, Nat.sub_self]
  exact List.append_nil bytes

end Parmesan.StreamSocket
