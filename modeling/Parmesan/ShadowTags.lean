import Mathlib.Data.Finset.Lattice.Basic
import Mathlib.Order.WithBot
import Parmesan.ShadowRun
import Parmesan.TagSetModel

/-!
# The tag set as a label runtime

The label runtime asks the tag set for its unions. Where the tree holds the union of any
two labels in use, none of them clashes with another, and a merge covers no byte between
its ends, the answers are joins of offsets and leave the tree alone. A label that is not
in use stands for every taint.
-/

set_option autoImplicit false

namespace Parmesan.ShadowTags
open Parmesan.ShadowRun
open Parmesan.TagSetModel hiding insert

def offsets (t : TagSet) (lb : ℕ) : Finset ℕ :=
  match find t lb with
  | .ok r => (r.2.flatMap fun tag => List.range' tag.start (tag.stop-tag.start)).toFinset
  | .error _ => ∅

def offsetsAll (t : TagSet) (lbs : List ℕ) : Finset ℕ :=
  (lbs.map (offsets t)).foldr (· ⊔ ·) ∅

structure Closed (t : TagSet) (K : List ℕ) : Prop where
  root : ROOT ∈ K
  small : ∀ l ∈ K, l < MAX_LB
  empty : offsets t ROOT = ∅
  union : ∀ l1 ∈ K, ∀ l2 ∈ K, ∃ l ∈ K,
    combine t l1 l2 = .ok (t, l) ∧ offsets t l = offsets t l1 ⊔ offsets t l2
  shape : ∀ l1 ∈ K, l1 ≠ ROOT → ∀ l2 ∈ K, ∀ len ∈ [2, 4, 8],
    inferShape t l1 l2 len = .ok (t, none) ∨ len = 2 ∧ ∃ l ∈ K,
      inferShape t l1 l2 len = .ok (t, some l) ∧ offsets t l = offsets t l1 ⊔ offsets t l2

section Closed
variable {t : TagSet} {K : List ℕ}

theorem combine_rest_closed (h : Closed t K) (rest : List ℕ) (cur : ℕ) (hcur : cur ∈ K)
    (hrest : ∀ l ∈ rest, l ∈ K) :
    ∃ l ∈ K, combineRest t cur rest = .ok (t, l) ∧
      offsets t l = offsets t cur ⊔ offsetsAll t rest := by
  induction rest generalizing cur with
  | nil => exact ⟨cur, hcur, rfl, (sup_bot_eq _).symm⟩
  | cons next rest ih =>
    obtain ⟨l, hl, hcombine, hunion⟩ := h.union cur hcur next (hrest next List.mem_cons_self)
    obtain ⟨k, hk, hcombined, hoffsets⟩ := ih l hl fun x hx => hrest x (List.mem_cons_of_mem _ hx)
    refine ⟨k, hk, ?_, ?_⟩
    · rw [combineRest, hcombine]
      exact hcombined
    · rw [hoffsets, hunion, sup_assoc]
      rfl

theorem drop_roots_offsets (h : Closed t K) (lbs : List ℕ) :
    offsetsAll t (lbs.dropWhile (· = ROOT)) = offsetsAll t lbs := by
  induction lbs with
  | nil => rfl
  | cons l lbs ih =>
    by_cases hl : l = ROOT
    · rw [List.dropWhile_cons_of_pos (by simpa using hl), ih, offsetsAll, offsetsAll, List.map_cons,
        List.foldr_cons, hl, h.empty]
      exact (bot_sup_eq _).symm
    · rw [List.dropWhile_cons_of_neg (by simpa using hl)]

theorem infer_closed (h : Closed t K) {l1 l2 : ℕ} (h1 : l1 ∈ K) (h0 : l1 ≠ ROOT) (h2 : l2 ∈ K)
    (len : ℕ) :
    inferShape t l1 l2 len = .ok (t, none) ∨ len = 2 ∧ ∃ l ∈ K,
      inferShape t l1 l2 len = .ok (t, some l) ∧ offsets t l = offsets t l1 ⊔ offsets t l2 := by
  by_cases hlen : len ∈ [2, 4, 8]
  · exact h.shape l1 h1 h0 l2 h2 len hlen
  · left
    simp only [List.mem_cons, List.not_mem_nil, or_false, not_or] at hlen
    rw [inferShape, if_pos hlen]

theorem combine_n_closed (h : Closed t K) (lbs : List ℕ) (hlbs : ∀ l ∈ lbs, l ∈ K) :
    ∃ l ∈ K, combineN t lbs true = .ok (t, l) ∧ offsets t l = offsetsAll t lbs := by
  rw [← drop_roots_offsets h]
  have hdropped : ∀ l ∈ lbs.dropWhile (· = ROOT), l ∈ K := fun l hl =>
    hlbs l (List.dropWhile_subset _ hl)
  unfold combineN
  match hdrop : lbs.dropWhile (· = ROOT) with
  | [] => exact ⟨ROOT, h.root, rfl, h.empty⟩
  | [cur] =>
    rw [hdrop] at hdropped
    exact ⟨cur, hdropped cur List.mem_cons_self, rfl, (sup_bot_eq _).symm⟩
  | cur::next::rest =>
    rw [hdrop] at hdropped
    have hcur := hdropped cur List.mem_cons_self
    have h0 : cur ≠ ROOT := by
      have hhead := List.head?_dropWhile_not (· = ROOT) lbs
      rw [hdrop] at hhead
      simpa using hhead
    have hlast : lbs.getLastD ROOT ∈ K := by
      rw [List.getLastD_eq_getLast?]
      cases hl : lbs.getLast? with
      | none => exact h.root
      | some l => exact hlbs l (List.mem_of_getLast? hl)
    obtain hnone | ⟨hlen, l, hl, hsome, hunion⟩ := infer_closed h hcur h0 hlast lbs.length
    · obtain ⟨l, hl, hcombined, hoffsets⟩ := combine_rest_closed h (next::rest) cur hcur
        fun x hx => hdropped x (List.mem_cons_of_mem _ hx)
      refine ⟨l, hl, ?_, hoffsets⟩
      simp only [inferIf, if_true, hnone]
      exact hcombined
    · -- a list of two labels of which none is dropped
      have hsuffix := List.dropWhile_suffix (l := lbs) (· = ROOT)
      rw [hdrop] at hsuffix
      have heq := hsuffix.eq_of_length_le (by rw [hlen]; simp)
      rw [← heq, List.length_cons, List.length_cons] at hlen
      obtain rfl : rest = [] := List.length_eq_zero_iff.mp (by omega)
      refine ⟨l, hl, ?_, ?_⟩
      · simp only [inferIf, if_true, hsome]
        rfl
      · rw [hunion, ← heq]
        exact congrArg (offsets t cur ⊔ ·) (sup_bot_eq _).symm

variable (t K) in
def den (l : Label) : WithTop (Finset ℕ) := if l.toNat ∈ K then ↑(offsets t l.toNat) else ⊤

def lost : Label := BitVec.ofNat 32 MAX_LB

def answer : Outcome (TagSet × ℕ) → Label
  | .ok r => BitVec.ofNat 32 r.2
  | .error _ => lost

theorem den_known {l : Label} (hl : l.toNat ∈ K) : den t K l = ↑(offsets t l.toNat) := if_pos hl

theorem den_unknown {l : Label} (hl : l.toNat ∉ K) : den t K l = ⊤ := if_neg hl

theorem den_answer (h : Closed t K) {l : ℕ} (hl : l ∈ K) :
    den t K (answer (.ok (t, l))) = ↑(offsets t l) := by
  have hsmall : l < 2^32 := (h.small l hl).trans (by decide)
  have hback : (answer (.ok (t, l))).toNat = l := by
    rw [answer, BitVec.toNat_ofNat, Nat.mod_eq_of_lt hsmall]
  rw [den_known (by rwa [hback]), hback]

theorem den_lost (h : Closed t K) : den t K lost = ⊤ :=
  den_unknown fun hl => absurd (h.small _ hl) (by decide)

theorem den_all {ls : List Label} (hls : ∀ l ∈ ls, l.toNat ∈ K) :
    (ls.map (den t K)).foldr (· ⊔ ·) ⊥ = ↑(offsetsAll t (ls.map BitVec.toNat)) := by
  induction ls with
  | nil => rfl
  | cons l ls ih =>
    rw [List.map_cons, List.foldr_cons, ih fun x hx => hls x (List.mem_cons_of_mem _ hx),
      den_known (hls l List.mem_cons_self), ← WithTop.coe_sup]
    rfl

theorem den_some_unknown {ls : List Label} (hls : ¬ ∀ l ∈ ls, l.toNat ∈ K) :
    (ls.map (den t K)).foldr (· ⊔ ·) ⊥ = ⊤ := by
  induction ls with
  | nil => exact absurd (fun _ hl => absurd hl List.not_mem_nil) hls
  | cons l ls ih =>
    rw [List.map_cons, List.foldr_cons]
    by_cases hl : l.toNat ∈ K
    · rw [ih fun hall => hls (List.forall_mem_cons.mpr ⟨hl, hall⟩), sup_top_eq]
    · rw [den_unknown hl, top_sup_eq]

/-- The runtime on a tag set whose labels in use have their unions. -/
def tagRuntime (h : Closed t K) : Runtime (WithTop (Finset ℕ)) where
  den := den t K
  combine l1 l2 :=
    if l1.toNat ∈ K ∧ l2.toNat ∈ K then answer (combine t l1.toNat l2.toNat) else lost
  combineN ls :=
    if ∀ l ∈ ls, l.toNat ∈ K then answer (combineN t (ls.map BitVec.toNat) true) else lost
  den_zero := by
    rw [den_known h.root]
    exact congrArg _ h.empty
  den_combine := by
    intro l1 l2 _ _ _
    split_ifs with hl
    · obtain ⟨l, hin, hcombine, hunion⟩ := h.union _ hl.1 _ hl.2
      rw [hcombine, den_answer h hin, den_known hl.1, den_known hl.2, hunion, WithTop.coe_sup]
    · rw [den_lost h]
      by_cases h1 : l1.toNat ∈ K
      · rw [den_unknown fun h2 => hl ⟨h1, h2⟩, sup_top_eq]
      · rw [den_unknown h1, top_sup_eq]
  den_combineN := by
    intro ls
    split_ifs with hls
    · obtain ⟨l, hin, hcombine, hunion⟩ := combine_n_closed h (ls.map BitVec.toNat) (by
        intro x hx
        obtain ⟨y, hy, rfl⟩ := List.mem_map.mp hx
        exact hls y hy)
      rw [hcombine, den_answer h hin, den_all hls, hunion]
    · rw [den_lost h, den_some_unknown hls]

end Closed

/-- A tag set that has met two bytes, one by one and as a pair. -/
def twoBytes : TagSet :=
  match (do
    let (s, first) ← TagSetModel.insert newTagSet 0
    let (s, second) ← TagSetModel.insert s 1
    combineN s [first, second] true : Outcome (TagSet × ℕ)) with
  | .ok r => r.1
  | .error _ => newTagSet

theorem two_bytes_closed : Closed twoBytes [0, 1, 3, 4] where
  root := by decide
  small := by decide
  empty := by decide
  union := by decide
  shape := by decide

def byteRuntime : Runtime (WithTop (Finset ℕ)) := tagRuntime two_bytes_closed

end Parmesan.ShadowTags
