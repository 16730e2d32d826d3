import Mathlib.Data.List.Induction
import Mathlib.Data.List.Nodup
import Mathlib.Data.List.Perm.Subperm
import Parmesan.Bytes

/-!
# Reading records off a byte buffer

A reader takes a value from the front of a buffer or fails. `Reads` says that
it finds a value behind given bytes, `Takes` how many bytes a value costs.
Records read one after another are gathered into a map, the last one of a key
counts.
-/

set_option autoImplicit false

namespace Parmesan.ByteReader
open Parmesan.Bytes

abbrev Reader := StateT (List UInt8) Option

variable {α β κ ν : Type}

def readExact (n : ℕ) : Reader (List UInt8) :=
  fun bs => if n ≤ bs.length then some (bs.take n, bs.drop n) else none

def readU32 : Reader ℕ := do
  let bs ← readExact 4
  pure (leValue bs)

def readU64 : Reader ℕ := do
  let bs ← readExact 8
  pure (leValue bs)

def readVector (elem : Reader α) : ℕ → Reader (List α)
  | 0 => pure []
  | n+1 => do
    let a ← elem
    let as ← readVector elem n
    pure (a::as)

def Reads (r : Reader α) (bytes : List UInt8) (a : α) : Prop :=
  ∀ rest, r (bytes ++ rest) = some (a, rest)

/-- Whatever the reader returns, it satisfies `Q` with the number of bytes taken. -/
def Takes (r : Reader α) (Q : α → ℕ → Prop) : Prop :=
  ∀ bs a rest, r bs = some (a, rest) → ∃ k, bs.length = k+rest.length ∧ Q a k

section Reading

theorem reads_pure (a : α) : Reads (pure a) [] a := fun _ => rfl

theorem bind_of_reads {r : Reader α} {bs : List UInt8} {a : α} (hr : Reads r bs a)
    (f : α → Reader β) (rest : List UInt8) : (r >>= f) (bs ++ rest) = f a rest := by
  show (r (bs ++ rest)).bind (fun p => f p.1 p.2) = f a rest
  rw [hr, Option.bind_some]

theorem reads_bind {r : Reader α} {f : α → Reader β} {bs cs : List UInt8} {a : α} {b : β}
    (hr : Reads r bs a) (hf : Reads (f a) cs b) : Reads (r >>= f) (bs ++ cs) b := by
  intro rest
  rw [List.append_assoc, bind_of_reads hr]
  exact hf rest

theorem reads_last {r : Reader α} {f : α → β} {bs : List UInt8} {a : α} (hr : Reads r bs a) :
    Reads (r >>= fun a => pure (f a)) bs (f a) :=
  fun rest => bind_of_reads hr _ rest

theorem reads_exact (bs : List UInt8) : Reads (readExact bs.length) bs bs := by
  intro rest
  simp [readExact]

theorem reads_u32 (v : ℕ) (h : v < 2^32) : Reads readU32 (leBytes 4 v) v := by
  have hexact := reads_exact (leBytes 4 v)
  have hvalue : leValue (leBytes 4 v) = v := by
    rw [le_value_bytes]
    exact Nat.mod_eq_of_lt (by omega)
  rw [le_bytes_length] at hexact
  have hlast : Reads readU32 (leBytes 4 v) (leValue (leBytes 4 v)) := reads_last hexact
  rwa [hvalue] at hlast

theorem reads_vector {elem : Reader α} {encode : β → List UInt8} {value : β → α}
    (h : ∀ b, Reads elem (encode b) (value b)) (bs : List β) :
    Reads (readVector elem bs.length) (bs.flatMap encode) (bs.map value) := by
  induction bs with
  | nil => exact reads_pure []
  | cons b bs ih =>
    rw [List.flatMap_cons]
    exact reads_bind (h b) (reads_last ih)

end Reading

section Taking

theorem takes_pure {Q : α → ℕ → Prop} {a : α} (h : Q a 0) : Takes (pure a : Reader α) Q := by
  intro bs b rest hb
  obtain ⟨rfl, rfl⟩ : a = b ∧ bs = rest := by
    have : some (a, bs) = some (b, rest) := hb
    simpa using this
  exact ⟨0, (Nat.zero_add _).symm, h⟩

theorem takes_bind {r : Reader α} {f : α → Reader β} {P : α → ℕ → Prop} {Q : β → ℕ → Prop}
    (hr : Takes r P) (hf : ∀ a k, P a k → Takes (f a) fun b m => Q b (k+m)) :
    Takes (r >>= f) Q := by
  intro bs b rest h
  obtain ⟨⟨a, mid⟩, ha, hb⟩ := Option.bind_eq_some_iff.mp h
  obtain ⟨k, hk, hP⟩ := hr bs a mid ha
  obtain ⟨m, hm, hQ⟩ := hf a k hP mid b rest hb
  exact ⟨k+m, by omega, hQ⟩

theorem takes_mono {r : Reader α} {P Q : α → ℕ → Prop} (hr : Takes r P)
    (h : ∀ a k, P a k → Q a k) : Takes r Q := by
  intro bs a rest ha
  obtain ⟨k, hk, hP⟩ := hr bs a rest ha
  exact ⟨k, hk, h a k hP⟩

theorem takes_step {r : Reader α} {f : α → Reader β} {n m : ℕ} (hr : Takes r fun _ k => k = n)
    (hf : ∀ a, Takes (f a) fun _ k => k = m) : Takes (r >>= f) fun _ k => k = n+m :=
  takes_bind hr fun a _ hk => takes_mono (hf a) fun _ _ hm => congrArg₂ (· + ·) hk hm

theorem takes_exact (n : ℕ) : Takes (readExact n) fun bs k => bs.length = n ∧ k = n := by
  intro bs a rest h
  unfold readExact at h
  split_ifs at h with hn
  obtain ⟨rfl, rfl⟩ : bs.take n = a ∧ bs.drop n = rest := by simpa using h
  exact ⟨n, by rw [List.length_drop]; omega, by rw [List.length_take]; omega, rfl⟩

theorem takes_u32 : Takes readU32 fun _ k => k = 4 :=
  takes_bind (takes_exact 4) fun _ _ h => takes_pure h.2

theorem takes_u64 : Takes readU64 fun _ k => k = 8 :=
  takes_bind (takes_exact 8) fun _ _ h => takes_pure h.2

theorem takes_vector {elem : Reader α} {size : α → ℕ} (h : Takes elem fun a k => k = size a)
    (n : ℕ) :
    Takes (readVector elem n) fun as k => as.length = n ∧ k = (as.map size).sum := by
  induction n with
  | zero => exact takes_pure ⟨rfl, rfl⟩
  | succ n ih =>
    refine takes_bind h fun a k hk => takes_bind ih fun as m hm => takes_pure ?_
    obtain ⟨hlen, hsum⟩ := hm
    refine ⟨by rw [List.length_cons, hlen], ?_⟩
    rw [List.map_cons, List.sum_cons, ← hk, ← hsum, Nat.add_zero]

end Taking

section Gathering
variable [DecidableEq κ]

def gather (rs : List (κ × ν)) : κ → Option ν :=
  rs.foldl (fun m r k => if k = r.1 then some r.2 else m k) fun _ => none

theorem gather_append (rs : List (κ × ν)) (r : κ × ν) (k : κ) :
    gather (rs ++ [r]) k = if k = r.1 then some r.2 else gather rs k := by
  simp [gather]

theorem mem_of_gather {rs : List (κ × ν)} {k : κ} {v : ν} (h : gather rs k = some v) :
    (k, v) ∈ rs := by
  induction rs using List.reverseRecOn with
  | nil => cases h
  | append_singleton rs r ih =>
    rw [gather_append] at h
    split_ifs at h with hk
    · obtain rfl : r.2 = v := Option.some.inj h
      exact List.mem_append_right _ (List.mem_singleton.mpr (by rw [hk]))
    · exact List.mem_append_left _ (ih h)

theorem gather_of_mem {rs : List (κ × ν)} {k : κ} {v : ν} (h : (k, v) ∈ rs)
    (hone : ∀ w, (k, w) ∈ rs → w = v) : gather rs k = some v := by
  induction rs using List.reverseRecOn with
  | nil => cases h
  | append_singleton rs r ih =>
    rw [gather_append]
    split_ifs with hk
    · subst hk
      exact congrArg some (hone r.2 (List.mem_append_right _ (List.mem_singleton_self _)))
    · apply ih
      · rcases List.mem_append.mp h with h | h
        · exact h
        · exact absurd (congrArg Prod.fst (List.mem_singleton.mp h)) hk
      · exact fun w hw => hone w (List.mem_append_left _ hw)

theorem gather_perm {rs es : List (κ × ν)} (hes : es.Nodup)
    (hmap : ∀ e ∈ es, gather rs e.1 = some e.2) (hlen : rs.length ≤ es.length) : es.Perm rs := by
  have hsub : es ⊆ rs := fun e he => mem_of_gather (hmap e he)
  exact (List.subperm_of_subset hes hsub).perm_of_length_le hlen

end Gathering

end Parmesan.ByteReader
