import Mathlib.Algebra.Order.Group.Multiset
import Mathlib.Algebra.Order.Ring.Nat
import Mathlib.Data.List.Induction
import Mathlib.Logic.Equiv.Basic
import Mathlib.Order.Defs.Unbundled
import Mathlib.Tactic.SplitIfs

/-!
# The priority queue of the difference engine

`PriorityQueue` keeps a heap in `Storage`. The engine sorts it by a count that changes
while blocks are processed, so what it may rely on under every order is that no entry
is lost or repeated. Under one strict weak order the entry removed is a least one.
-/

set_option autoImplicit false

namespace Parmesan.DiffQueue

universe u
variable {α : Type u}

/-- `Precedes(Storage[i], Storage[j])`, false where a slot is missing. -/
def slotPrecedes (Precedes : α → α → Bool) (Storage : Array α) (i j : ℕ) : Bool :=
  match Storage[i]?, Storage[j]? with
  | some a, some b => Precedes a b
  | _, _ => false

theorem target_lt {Index : ℕ} (h : Index ≠ 0) : (Index+1)/2-1 < Index := by omega

def bubbleUp (Precedes : α → α → Bool) (data : Array α) (Index : ℕ) : Array α :=
  if h : Index = 0 then data
  else
    let Target := (Index+1)/2-1
    if slotPrecedes Precedes data Index Target then
      bubbleUp Precedes (data.swapIfInBounds Index Target) Target
    else data
termination_by Index
decreasing_by exact target_lt h

def insert (Precedes : α → α → Bool) (Storage : Array α) (V : α) : Array α :=
  bubbleUp Precedes (Storage.push V) Storage.size

/-- The smaller of the children `R-1` and `R`, the right one where they tie. -/
def indexToTest (Precedes : α → α → Bool) (Storage : Array α) (R : ℕ) : ℕ :=
  if slotPrecedes Precedes Storage (R-1) R then R-1 else R

theorem index_to_test_bounds (Precedes : α → α → Bool) (Storage : Array α) (R : ℕ) :
    R-1 ≤ indexToTest Precedes Storage R ∧ indexToTest Precedes Storage R ≤ R := by
  unfold indexToTest
  split_ifs <;> omega

def bubbleDown (Precedes : α → α → Bool) (NewSize : ℕ) (Storage : Array α) (Index : ℕ) : Array α :=
  let R := (Index+1)*2
  let L := R-1
  if NewSize ≤ R then
    if NewSize ≤ L then Storage
    else if slotPrecedes Precedes Storage L Index then Storage.swapIfInBounds L Index
    else Storage
  else if slotPrecedes Precedes Storage (indexToTest Precedes Storage R) Index then
    bubbleDown Precedes NewSize (Storage.swapIfInBounds (indexToTest Precedes Storage R) Index)
      (indexToTest Precedes Storage R)
  else Storage
termination_by NewSize-Index
decreasing_by
  have hb := index_to_test_bounds Precedes Storage ((Index+1)*2)
  omega

/-- `podLike` is `isPodLike<T>::value`; `none` is the failed `assert(!empty())`. -/
def removeMin (Precedes : α → α → Bool) (podLike : Bool) (Storage : Array α) :
    Option (α × Array α) :=
  match Storage[0]? with
  | none => none
  | some tmp =>
    let NewSize := Storage.size-1
    match Storage[NewSize]? with
    | none => none
    | some last =>
      if NewSize = 0 then some (tmp, Storage.pop)
      else
        let moved := if podLike then Storage.setIfInBounds 0 last
          else Storage.swapIfInBounds 0 NewSize
        some (tmp, (bubbleDown Precedes NewSize moved 0).pop)

section Contents

/-! ## Nothing is lost or repeated, whatever the order -/

theorem swap_perm (xs : Array α) (i j : ℕ) : (xs.swapIfInBounds i j).toList.Perm xs.toList := by
  rw [Array.swapIfInBounds_def]
  split_ifs with hi hj
  · exact Array.perm_iff_toList_perm.mp (Array.swap_perm hi hj)
  · exact List.Perm.refl _
  · exact List.Perm.refl _

theorem bubble_up_perm (Precedes : α → α → Bool) (data : Array α) (Index : ℕ) :
    (bubbleUp Precedes data Index).toList.Perm data.toList := by
  induction data, Index using bubbleUp.induct Precedes with
  | case1 data => simp [bubbleUp]
  | case2 data Index h Target hp ih =>
    rw [bubbleUp, dif_neg h, if_pos hp]
    exact ih.trans (swap_perm _ _ _)
  | case3 data Index h Target hp =>
    rw [bubbleUp, dif_neg h, if_neg hp]

theorem insert_perm (Precedes : α → α → Bool) (Storage : Array α) (V : α) :
    (insert Precedes Storage V).toList.Perm (V :: Storage.toList) := by
  refine (bubble_up_perm _ _ _).trans ?_
  rw [Array.toList_push]
  exact List.perm_append_comm

theorem bubble_down_frame (Precedes : α → α → Bool) (NewSize : ℕ) (Storage : Array α) (Index : ℕ)
    (h : Index < NewSize) :
    (bubbleDown Precedes NewSize Storage Index).toList.Perm Storage.toList ∧
      ∀ k, NewSize ≤ k → (bubbleDown Precedes NewSize Storage Index)[k]? = Storage[k]? := by
  have frame : ∀ (xs : Array α) (i j k : ℕ), i < NewSize → j < NewSize → NewSize ≤ k →
      (xs.swapIfInBounds i j)[k]? = xs[k]? := by
    intro xs i j k hi hj hk
    rw [Array.swapIfInBounds_def]
    split_ifs
    · rw [Array.getElem?_swap, if_neg (by omega), if_neg (by omega)]
    · rfl
    · rfl
  induction Storage, Index using bubbleDown.induct Precedes NewSize with
  | case1 Storage Index R L hR hL =>
    rw [bubbleDown, if_pos hR, if_pos hL]
    exact ⟨List.Perm.refl _, fun _ _ => rfl⟩
  | case2 Storage Index R L hR hL hp =>
    rw [bubbleDown, if_pos hR, if_neg hL, if_pos hp]
    exact ⟨swap_perm _ _ _, fun k hk => frame _ _ _ _ (by omega) h hk⟩
  | case3 Storage Index R L hR hL hp =>
    rw [bubbleDown, if_pos hR, if_neg hL, if_neg hp]
    exact ⟨List.Perm.refl _, fun _ _ => rfl⟩
  | case4 Storage Index R hR hp ih =>
    rw [bubbleDown, if_neg hR, if_pos hp]
    have htest : indexToTest Precedes Storage R < NewSize :=
      (index_to_test_bounds Precedes Storage R).2.trans_lt (by omega)
    obtain ⟨hperm, hkeep⟩ := ih htest
    exact ⟨hperm.trans (swap_perm _ _ _),
      fun k hk => (hkeep k hk).trans (frame _ _ _ _ htest h hk)⟩
  | case5 Storage Index R hR hp =>
    rw [bubbleDown, if_neg hR, if_neg hp]
    exact ⟨List.Perm.refl _, fun _ _ => rfl⟩

theorem moved_prefix (podLike : Bool) (tmp last : α) (mid : List α) :
    (if podLike then (tmp :: (mid ++ [last])).toArray.setIfInBounds 0 last
      else (tmp :: (mid ++ [last])).toArray.swapIfInBounds 0 (mid.length+1)).toList =
        last :: (mid ++ [if podLike then last else tmp]) := by
  cases podLike with
  | true => simp
  | false =>
    rw [if_neg (by decide), Array.swapIfInBounds_def, dif_pos (by simp), dif_pos (by simp)]
    simp [Array.swap_def]

/-- Everything `remove_min` can do: refuse the empty heap, empty a heap of one entry, or
take the root and let the last entry sink from there. -/
theorem remove_min_cases (Precedes : α → α → Bool) (podLike : Bool) (Storage : Array α) :
    (Storage.toList = [] ∧ removeMin Precedes podLike Storage = none) ∨
    (∃ tmp, Storage.toList = [tmp] ∧ removeMin Precedes podLike Storage = some (tmp, #[])) ∨
    (∃ tmp mid last x, ∃ moved : Array α, Storage.toList = tmp :: (mid ++ [last]) ∧
      moved.toList = last :: (mid ++ [x]) ∧
      removeMin Precedes podLike Storage =
        some (tmp, (bubbleDown Precedes (mid.length+1) moved 0).pop)) := by
  obtain ⟨xs⟩ := Storage
  cases xs with
  | nil => exact Or.inl ⟨rfl, rfl⟩
  | cons tmp xs =>
    right
    cases xs using List.reverseRecOn with
    | nil =>
      left
      exact ⟨tmp, rfl, rfl⟩
    | append_singleton mid last =>
      right
      refine ⟨tmp, mid, last, _, _, rfl, moved_prefix podLike tmp last mid, ?_⟩
      simp [removeMin]

theorem pop_to_list {xs : Array α} {ys : List α} {x : α} (h : xs.toList = ys ++ [x]) :
    xs.pop.toList = ys := by
  simp [h]

theorem pop_perm {xs : Array α} {ys : List α} {x : α} (hperm : xs.toList.Perm (ys ++ [x]))
    (hlast : xs[ys.length]? = some x) : xs.pop.toList.Perm ys := by
  obtain ⟨zs⟩ := xs
  have hlen : zs.length = ys.length+1 := by simpa using hperm.length_eq
  cases zs using List.reverseRecOn with
  | nil => simp at hlen
  | append_singleton zs z =>
    have hz : zs.length = ys.length := by simpa using hlen
    have hzx : z = x := by simpa [← hz] using hlast
    subst hzx
    rw [pop_to_list rfl]
    exact (List.perm_append_right_iff [z]).mp hperm

theorem remove_min_perm {Precedes : α → α → Bool} {podLike : Bool} {Storage rest : Array α}
    {tmp : α} (h : removeMin Precedes podLike Storage = some (tmp, rest)) :
    Storage.toList.Perm (tmp :: rest.toList) := by
  obtain ⟨_, hnone⟩ | ⟨t, hs, hone⟩ | ⟨t, mid, last, x, moved, hs, hmoved, hmany⟩ :=
    remove_min_cases Precedes podLike Storage
  · rw [hnone] at h
    cases h
  · rw [hone] at h
    cases h
    rw [hs]
  · rw [hmany] at h
    cases h
    obtain ⟨hperm, hkeep⟩ := bubble_down_frame Precedes (mid.length+1) moved 0 (Nat.succ_pos _)
    have hrest : (bubbleDown Precedes (mid.length+1) moved 0).pop.toList.Perm (last :: mid) := by
      refine pop_perm (x := x) (hperm.trans (by rw [hmoved]; rfl)) ?_
      rw [List.length_cons, hkeep _ le_rfl, ← Array.getElem?_toList, hmoved]
      simp
    rw [hs]
    exact List.Perm.cons _ (List.perm_append_comm.trans hrest.symm)

theorem remove_min_none {Precedes : α → α → Bool} {podLike : Bool} {Storage : Array α}
    (h : removeMin Precedes podLike Storage = none) : Storage.toList = [] := by
  obtain ⟨hs, _⟩ | ⟨t, _, hone⟩ | ⟨t, mid, last, x, moved, _, _, hmany⟩ :=
    remove_min_cases Precedes podLike Storage
  · exact hs
  · rw [hone] at h
    cases h
  · rw [hmany] at h
    cases h

end Contents

section Order

/-! ## Under one strict weak order the root is least -/

structure WeakOrder (Precedes : α → α → Bool) : Prop where
  asymm : ∀ a b, Precedes a b = true → Precedes b a = false
  neg_trans : ∀ a b c, Precedes a b = false → Precedes b c = false → Precedes a c = false

variable {Precedes : α → α → Bool}

theorem slot_asymm (ho : WeakOrder Precedes) {xs : Array α} {i j : ℕ}
    (h : slotPrecedes Precedes xs i j = true) : slotPrecedes Precedes xs j i = false := by
  unfold slotPrecedes at h ⊢
  cases hi : xs[i]? with
  | none => simp [hi] at h
  | some a =>
    cases hj : xs[j]? with
    | none => simp
    | some b =>
      simp only [hi, hj] at h ⊢
      exact ho.asymm a b h

theorem slot_neg_trans (ho : WeakOrder Precedes) {xs : Array α} {i k j : ℕ} (hk : k < xs.size)
    (hik : slotPrecedes Precedes xs i k = false) (hkj : slotPrecedes Precedes xs k j = false) :
    slotPrecedes Precedes xs i j = false := by
  unfold slotPrecedes at hik hkj ⊢
  rw [Array.getElem?_eq_getElem hk] at hik hkj
  cases hi : xs[i]? with
  | none => simp
  | some a =>
    cases hj : xs[j]? with
    | none => simp
    | some b =>
      simp only [hi, hj] at hik hkj ⊢
      exact ho.neg_trans _ _ _ hik hkj

theorem slot_swap {xs : Array α} {i j : ℕ} (hi : i < xs.size) (hj : j < xs.size) (a b : ℕ) :
    slotPrecedes Precedes (xs.swapIfInBounds i j) a b =
      slotPrecedes Precedes xs (Equiv.swap i j a) (Equiv.swap i j b) := by
  have hget : ∀ k, (xs.swapIfInBounds i j)[k]? = xs[Equiv.swap i j k]? := by
    intro k
    rw [Array.swapIfInBounds_def, dif_pos hi, dif_pos hj, Array.getElem?_swap]
    by_cases hkj : j = k
    · rw [if_pos hkj, ← hkj, Equiv.swap_apply_right, Array.getElem?_eq_getElem hi]
    · by_cases hki : i = k
      · rw [if_neg hkj, if_pos hki, ← hki, Equiv.swap_apply_left, Array.getElem?_eq_getElem hj]
      · rw [if_neg hkj, if_neg hki, Equiv.swap_apply_of_ne_of_ne (Ne.symm hki) (Ne.symm hkj)]
  unfold slotPrecedes
  rw [hget, hget]

def parent (i : ℕ) : ℕ := (i+1)/2-1

def HeapOrdered (Precedes : α → α → Bool) (xs : Array α) : Prop :=
  ∀ i, 0 < i → slotPrecedes Precedes xs i (parent i) = false

/-- The order while an entry rises from `hole`: only the entry and its parent may be wrong. -/
structure Rising (Precedes : α → α → Bool) (xs : Array α) (hole : ℕ) : Prop where
  off : ∀ i, 0 < i → i ≠ hole → slotPrecedes Precedes xs i (parent i) = false
  below : ∀ c, 0 < c → parent c = hole → 0 < hole →
    slotPrecedes Precedes xs c (parent hole) = false

theorem Rising.move (ho : WeakOrder Precedes) {xs : Array α} {hole : ℕ}
    (h : Rising Precedes xs hole) (hpos : 0 < hole) (hlt : hole < xs.size)
    (hp : slotPrecedes Precedes xs hole (parent hole) = true) :
    Rising Precedes (xs.swapIfInBounds hole (parent hole)) (parent hole) := by
  have hup : parent hole < hole := by unfold parent; omega
  constructor
  · intro i hi hne
    rw [slot_swap hlt (hup.trans hlt)]
    by_cases hih : i = hole
    · subst hih
      rw [Equiv.swap_apply_left, Equiv.swap_apply_right]
      exact slot_asymm ho hp
    · rw [Equiv.swap_apply_of_ne_of_ne hih hne]
      by_cases hpar : parent i = hole
      · rw [hpar, Equiv.swap_apply_left]
        exact h.below i hi hpar hpos
      · by_cases hsib : parent i = parent hole
        · rw [hsib, Equiv.swap_apply_right]
          exact slot_neg_trans ho (hup.trans hlt) (hsib ▸ h.off i hi hih) (slot_asymm ho hp)
        · rw [Equiv.swap_apply_of_ne_of_ne hpar hsib]
          exact h.off i hi hih
  · intro c hc hpar hroot
    have habove : parent (parent hole) < parent hole := by unfold parent at hroot ⊢; omega
    have hkeep : slotPrecedes Precedes xs (parent hole) (parent (parent hole)) = false :=
      h.off _ hroot (by omega)
    rw [slot_swap hlt (hup.trans hlt),
      Equiv.swap_apply_of_ne_of_ne (a := hole) (b := parent hole) (x := parent (parent hole))
        (by omega) (by omega)]
    by_cases hch : c = hole
    · rw [hch, Equiv.swap_apply_left]
      exact hkeep
    · have hcp : c ≠ parent hole := by
        intro hcp
        rw [← hcp] at hpar
        unfold parent at hpar
        omega
      rw [Equiv.swap_apply_of_ne_of_ne hch hcp]
      exact slot_neg_trans ho (hup.trans hlt) (hpar ▸ h.off c hc hch) hkeep

theorem bubble_up_ordered (ho : WeakOrder Precedes) (xs : Array α) (hole : ℕ)
    (h : Rising Precedes xs hole) (hlt : hole < xs.size) :
    HeapOrdered Precedes (bubbleUp Precedes xs hole) := by
  induction xs, hole using bubbleUp.induct Precedes with
  | case1 xs =>
    rw [bubbleUp, dif_pos rfl]
    exact fun i hi => h.off i hi (by omega)
  | case2 xs hole hne Target hp ih =>
    rw [bubbleUp, dif_neg hne, if_pos hp]
    exact ih (h.move ho (by omega) hlt hp) (by rw [Array.size_swapIfInBounds]; omega)
  | case3 xs hole hne Target hp =>
    rw [bubbleUp, dif_neg hne, if_neg hp]
    intro i hi
    by_cases hih : i = hole
    · rw [hih]
      exact Bool.eq_false_iff.mpr hp
    · exact h.off i hi hih

/-- The order of the first `n` slots while an entry sinks from `hole`. -/
structure Sinking (Precedes : α → α → Bool) (n : ℕ) (xs : Array α) (hole : ℕ) : Prop where
  off : ∀ i, 0 < i → i < n → parent i ≠ hole → slotPrecedes Precedes xs i (parent i) = false
  below : ∀ c, 0 < c → c < n → parent c = hole → 0 < hole →
    slotPrecedes Precedes xs c (parent hole) = false

def OrderedBelow (Precedes : α → α → Bool) (n : ℕ) (xs : Array α) : Prop :=
  ∀ i, 0 < i → i < n → slotPrecedes Precedes xs i (parent i) = false

theorem Sinking.stop {n : ℕ} {xs : Array α} {hole : ℕ} (h : Sinking Precedes n xs hole)
    (hmin : ∀ c, 0 < c → c < n → parent c = hole → slotPrecedes Precedes xs c hole = false) :
    OrderedBelow Precedes n xs := by
  intro i hi hin
  by_cases hp : parent i = hole
  · rw [hp]
    exact hmin i hi hin hp
  · exact h.off i hi hin hp

theorem Sinking.move (ho : WeakOrder Precedes) {n : ℕ} {xs : Array α} {hole child : ℕ}
    (h : Sinking Precedes n xs hole) (hsize : n ≤ xs.size) (hpos : 0 < child) (hlt : child < n)
    (hpar : parent child = hole)
    (hleast : ∀ c, 0 < c → c < n → parent c = hole → slotPrecedes Precedes xs c child = false)
    (hp : slotPrecedes Precedes xs child hole = true) :
    Sinking Precedes n (xs.swapIfInBounds child hole) child := by
  have hup : hole < child := by rw [← hpar]; unfold parent; omega
  have hc : child < xs.size := hlt.trans_le hsize
  constructor
  · intro i hi hin hne
    rw [slot_swap hc (hup.trans hc)]
    by_cases hic : i = child
    · rw [hic, hpar, Equiv.swap_apply_left, Equiv.swap_apply_right]
      exact slot_asymm ho hp
    · by_cases hih : i = hole
      · have hph : parent hole < hole := by rw [hih] at hi; unfold parent; omega
        rw [hih, Equiv.swap_apply_right, Equiv.swap_apply_of_ne_of_ne (by omega) (by omega)]
        exact h.below child hpos hlt hpar (by omega)
      · rw [Equiv.swap_apply_of_ne_of_ne hic hih]
        by_cases hsib : parent i = hole
        · rw [hsib, Equiv.swap_apply_right]
          exact hleast i hi hin hsib
        · rw [Equiv.swap_apply_of_ne_of_ne hne hsib]
          exact h.off i hi hin hsib
  · intro c hcpos hcn hcpar _
    have hcgt : child < c := by rw [← hcpar]; unfold parent; omega
    rw [slot_swap hc (hup.trans hc), hpar, Equiv.swap_apply_right,
      Equiv.swap_apply_of_ne_of_ne (by omega) (by omega)]
    exact hcpar ▸ h.off c hcpos hcn (by omega)

theorem slot_irrefl (ho : WeakOrder Precedes) (xs : Array α) (i : ℕ) :
    slotPrecedes Precedes xs i i = false := by
  by_contra hne
  have htrue : slotPrecedes Precedes xs i i = true := by simpa using hne
  exact hne (slot_asymm ho htrue)

theorem index_to_test_least (ho : WeakOrder Precedes) (xs : Array α) (R : ℕ) {c : ℕ}
    (hc : c = R-1 ∨ c = R) : slotPrecedes Precedes xs c (indexToTest Precedes xs R) = false := by
  unfold indexToTest
  split_ifs with hp
  · obtain rfl | rfl := hc
    · exact slot_irrefl ho _ _
    · exact slot_asymm ho hp
  · obtain rfl | rfl := hc
    · exact Bool.eq_false_iff.mpr hp
    · exact slot_irrefl ho _ _

theorem child_cases {c i : ℕ} (hc : 0 < c) (hp : parent c = i) :
    c = (i+1)*2-1 ∨ c = (i+1)*2 := by
  unfold parent at hp
  omega

theorem bubble_down_ordered (ho : WeakOrder Precedes) (n : ℕ) (xs : Array α) (hole : ℕ)
    (h : Sinking Precedes n xs hole) (hsize : n ≤ xs.size) :
    OrderedBelow Precedes n (bubbleDown Precedes n xs hole) := by
  induction xs, hole using bubbleDown.induct Precedes n with
  | case1 xs hole R L hR hL =>
    rw [bubbleDown, if_pos hR, if_pos hL]
    refine h.stop fun c hc hcn hpar => ?_
    have hchild := child_cases hc hpar
    omega
  | case2 xs hole R L hR hL hp =>
    rw [bubbleDown, if_pos hR, if_neg hL, if_pos hp]
    have only : ∀ c, 0 < c → c < n → parent c = hole → c = L := by
      intro c hc hcn hpar
      have hchild := child_cases hc hpar
      omega
    have hpar : parent L = hole := by unfold parent; omega
    have hmoved := h.move ho hsize (by omega) (by omega) hpar
      (fun c hc hcn hpar => only c hc hcn hpar ▸ slot_irrefl ho xs c) hp
    refine hmoved.stop fun c hc hcn hpar => ?_
    have hchild := child_cases hc hpar
    omega
  | case3 xs hole R L hR hL hp =>
    rw [bubbleDown, if_pos hR, if_neg hL, if_neg hp]
    refine h.stop fun c hc hcn hpar => ?_
    obtain rfl | rfl := child_cases hc hpar
    · exact Bool.eq_false_iff.mpr hp
    · omega
  | case4 xs hole R hR hp ih =>
    rw [bubbleDown, if_neg hR, if_pos hp]
    have hb := index_to_test_bounds Precedes xs R
    refine ih (h.move ho hsize (by omega) (by omega) (by unfold parent; omega) ?_ hp)
      (by rw [Array.size_swapIfInBounds]; exact hsize)
    exact fun c hc _ hpar => index_to_test_least ho xs R (child_cases hc hpar)
  | case5 xs hole R hR hp =>
    rw [bubbleDown, if_neg hR, if_neg hp]
    have hb := index_to_test_bounds Precedes xs R
    refine h.stop fun c hc _ hpar => ?_
    exact slot_neg_trans ho (by omega) (index_to_test_least ho xs R (child_cases hc hpar))
      (Bool.eq_false_iff.mpr hp)

theorem slot_congr {xs ys : Array α} {i j : ℕ} (hi : xs[i]? = ys[i]?) (hj : xs[j]? = ys[j]?) :
    slotPrecedes Precedes xs i j = slotPrecedes Precedes ys i j := by
  unfold slotPrecedes
  rw [hi, hj]

theorem slot_beyond {xs : Array α} {i j : ℕ} (hi : xs.size ≤ i) :
    slotPrecedes Precedes xs i j = false := by
  unfold slotPrecedes
  rw [Array.getElem?_eq_none hi]

theorem insert_ordered (ho : WeakOrder Precedes) {Storage : Array α} (V : α)
    (h : HeapOrdered Precedes Storage) : HeapOrdered Precedes (insert Precedes Storage V) := by
  refine bubble_up_ordered ho _ _ ?_ (by simp)
  have inside : ∀ i, 0 < i → i ≠ Storage.size →
      slotPrecedes Precedes (Storage.push V) i (parent i) = false := by
    intro i hi hne
    by_cases hlt : i < Storage.size
    · have kept : ∀ k, k < Storage.size → (Storage.push V)[k]? = Storage[k]? := by
        intro k hk
        rw [Array.getElem?_push_lt hk, Array.getElem?_eq_getElem hk]
      rw [slot_congr (kept i hlt) (kept (parent i) (by unfold parent; omega))]
      exact h i hi
    · exact slot_beyond (by rw [Array.size_push]; omega)
  refine ⟨inside, fun c hc hpar hpos => slot_beyond ?_⟩
  have hchild := child_cases hc hpar
  rw [Array.size_push]
  omega

theorem root_least (ho : WeakOrder Precedes) {xs : Array α} (h : HeapOrdered Precedes xs) (i : ℕ) :
    slotPrecedes Precedes xs i 0 = false := by
  induction i using Nat.strongRecOn with
  | ind i ih =>
    by_cases hi : i = 0
    · rw [hi]
      exact slot_irrefl ho xs 0
    · have hup : parent i < i := by unfold parent; omega
      by_cases hlt : i < xs.size
      · exact slot_neg_trans ho (hup.trans hlt) (h i (by omega)) (ih _ hup)
      · exact slot_beyond (by omega)

theorem remove_min_ordered (ho : WeakOrder Precedes) {podLike : Bool} {Storage rest : Array α}
    {tmp : α} (h : HeapOrdered Precedes Storage)
    (hr : removeMin Precedes podLike Storage = some (tmp, rest)) : HeapOrdered Precedes rest := by
  obtain ⟨_, hnone⟩ | ⟨t, _, hone⟩ | ⟨t, mid, last, x, moved, hs, hmoved, hmany⟩ :=
    remove_min_cases Precedes podLike Storage
  · rw [hnone] at hr
    cases hr
  · rw [hone] at hr
    cases hr
    exact fun i _ => slot_beyond (Nat.zero_le i)
  · rw [hmany] at hr
    cases hr
    have kept : ∀ k, 0 < k → k < mid.length+1 → moved[k]? = Storage[k]? := by
      intro k hk hkn
      obtain ⟨k, rfl⟩ := Nat.exists_eq_succ_of_ne_zero hk.ne'
      have hlt : k < mid.length := by omega
      rw [← Array.getElem?_toList, ← Array.getElem?_toList, hmoved, hs]
      simp [List.getElem?_append_left hlt]
    have hsize : moved.size = mid.length+2 := by rw [← Array.length_toList, hmoved]; simp
    have hsink : Sinking Precedes (mid.length+1) moved 0 := by
      refine ⟨fun i hi hin hne => ?_, fun c _ _ _ hroot => absurd hroot (lt_irrefl 0)⟩
      have hup : parent i < i := by unfold parent; omega
      rw [slot_congr (kept i hi hin) (kept (parent i) (by omega) (by omega))]
      exact h i hi
    have hbelow := bubble_down_ordered ho _ moved 0 hsink (by omega)
    have hperm := (bubble_down_frame Precedes (mid.length+1) moved 0 (Nat.succ_pos _)).1
    have hdone : (bubbleDown Precedes (mid.length+1) moved 0).size = mid.length+2 := by
      rw [← hsize]
      simpa using hperm.length_eq
    intro i hi
    by_cases hin : i < mid.length+1
    · have hpop : ∀ k, k < mid.length+1 → (bubbleDown Precedes (mid.length+1) moved 0).pop[k]? =
          (bubbleDown Precedes (mid.length+1) moved 0)[k]? := by
        intro k hk
        rw [Array.getElem?_pop, if_pos (by omega)]
      rw [slot_congr (hpop i hin) (hpop (parent i) (by unfold parent; omega))]
      exact hbelow i hi hin
    · exact slot_beyond (by rw [Array.size_pop]; omega)

theorem remove_min_root {podLike : Bool} {Storage rest : Array α} {tmp : α}
    (hr : removeMin Precedes podLike Storage = some (tmp, rest)) : Storage[0]? = some tmp := by
  obtain ⟨_, hnone⟩ | ⟨t, hs, hone⟩ | ⟨t, mid, last, x, moved, hs, _, hmany⟩ :=
    remove_min_cases Precedes podLike Storage
  · rw [hnone] at hr
    cases hr
  · rw [hone] at hr
    cases hr
    rw [← Array.getElem?_toList, hs]
    rfl
  · rw [hmany] at hr
    cases hr
    rw [← Array.getElem?_toList, hs]
    rfl

theorem remove_min_least (ho : WeakOrder Precedes) {podLike : Bool} {Storage rest : Array α}
    {tmp : α} (h : HeapOrdered Precedes Storage)
    (hr : removeMin Precedes podLike Storage = some (tmp, rest)) :
    ∀ v ∈ Storage.toList, Precedes v tmp = false := by
  intro v hv
  obtain ⟨i, hi⟩ := List.mem_iff_getElem?.mp hv
  rw [Array.getElem?_toList] at hi
  have hleast := root_least ho h i
  unfold slotPrecedes at hleast
  rwa [hi, remove_min_root hr] at hleast

end Order

section Runs

inductive Event (α : Type u) where
  | inserted (v : α)
  | removed (v : α)

def insertedOf : List (Event α) → Multiset α
  | [] => 0
  | .inserted v :: events => v ::ₘ insertedOf events
  | .removed _ :: events => insertedOf events

def removedOf : List (Event α) → Multiset α
  | [] => 0
  | .inserted _ :: events => removedOf events
  | .removed v :: events => v ::ₘ removedOf events

/-- A run of the queue from its construction. Each call may find another order in place,
as the sorter reads state of the engine. -/
inductive Run (orders : (α → α → Bool) → Prop) (podLike : Bool) :
    List (Event α) → Array α → Prop where
  | start : Run orders podLike [] #[]
  | insert {events Storage Precedes} (V : α) : Run orders podLike events Storage →
      orders Precedes → Run orders podLike (.inserted V :: events) (insert Precedes Storage V)
  | removeMin {events Storage rest Precedes tmp} : Run orders podLike events Storage →
      orders Precedes → removeMin Precedes podLike Storage = some (tmp, rest) →
      Run orders podLike (.removed tmp :: events) rest

variable {orders : (α → α → Bool) → Prop} {podLike : Bool}

theorem run_balance {events : List (Event α)} {Storage : Array α}
    (h : Run orders podLike events Storage) :
    insertedOf events = removedOf events + (Storage.toList : Multiset α) := by
  induction h with
  | start => rfl
  | @insert events Storage Precedes V _ _ ih =>
    have hperm := Multiset.coe_eq_coe.mpr (insert_perm Precedes Storage V)
    rw [insertedOf, removedOf, ih, hperm, ← Multiset.cons_coe, Multiset.add_cons]
  | @removeMin events Storage rest Precedes tmp _ _ hr ih =>
    have hperm := Multiset.coe_eq_coe.mpr (remove_min_perm hr)
    rw [insertedOf, removedOf, ih, hperm, ← Multiset.cons_coe, Multiset.add_cons,
      Multiset.cons_add]

theorem run_ordered {Precedes : α → α → Bool} (ho : WeakOrder Precedes)
    (hone : ∀ Q, orders Q → Q = Precedes) {events : List (Event α)} {Storage : Array α}
    (h : Run orders podLike events Storage) : HeapOrdered Precedes Storage := by
  induction h with
  | start => exact fun i _ => slot_beyond (Nat.zero_le i)
  | insert V _ hq ih =>
    rw [hone _ hq]
    exact insert_ordered ho V ih
  | removeMin _ hq hr ih =>
    rw [hone _ hq] at hr
    exact remove_min_ordered ho ih hr

/-- Over every run the values put in are exactly those taken out and those still held,
whatever orders the calls find. Under one strict weak order `remove_min` fails only when
everything was taken out, and else takes a least value of those held. -/
theorem queue_run_exact {events : List (Event α)} {Storage : Array α}
    (h : Run orders podLike events Storage) :
    insertedOf events = removedOf events + (Storage.toList : Multiset α) ∧
    (∀ Precedes, removeMin Precedes podLike Storage = none ↔
      insertedOf events = removedOf events) ∧
    ∀ Precedes, WeakOrder Precedes → (∀ Q, orders Q → Q = Precedes) →
      ∀ tmp rest, removeMin Precedes podLike Storage = some (tmp, rest) →
        tmp ∈ Storage.toList ∧ ∀ v ∈ Storage.toList, Precedes v tmp = false := by
  refine ⟨run_balance h, fun Precedes => ?_, fun Precedes ho hone tmp rest hr => ?_⟩
  · rw [run_balance h]
    constructor
    · intro hnone
      rw [remove_min_none hnone]
      exact add_zero _
    · intro heq
      have hempty : (Storage.toList : Multiset α) = 0 := add_eq_left.mp heq
      have hstorage : Storage = #[] := by simpa using hempty
      rw [hstorage]
      rfl
  · exact ⟨(remove_min_perm hr).mem_iff.mpr List.mem_cons_self,
      remove_min_least ho (run_ordered ho hone h) hr⟩

def byNumber (a b : ℕ × ℕ) : Bool := decide (a.1 < b.1)

theorem by_number_weak_order : WeakOrder byNumber := by
  constructor
  · intro a b h
    simp only [byNumber, decide_eq_true_eq, decide_eq_false_iff_not] at h ⊢
    omega
  · intro a b c hab hbc
    simp only [byNumber, decide_eq_false_iff_not] at hab hbc ⊢
    omega

/-- Two entries go in and the smaller one comes out, under an order that never changes. -/
theorem queue_run_exact_pair : ∃ rest, Run (· = byNumber) true
      [.removed (1, 20), .inserted (1, 20), .inserted (2, 10)] rest ∧
    insertedOf [.removed (1, 20), .inserted (1, 20), .inserted (2, 10)] =
      (1, 20) ::ₘ (rest.toList : Multiset (ℕ × ℕ)) ∧
    ∀ tmp left, removeMin byNumber true rest = some (tmp, left) →
      ∀ v ∈ rest.toList, byNumber v tmp = false := by
  have hempty : Run (· = byNumber) true [] (#[] : Array (ℕ × ℕ)) := Run.start
  have hfirst := hempty.insert (2, 10) rfl
  have hsecond := hfirst.insert (1, 20) rfl
  have hstored : insert byNumber (insert byNumber #[] (2, 10)) (1, 20) = #[(1, 20), (2, 10)] := by
    simp [insert, bubbleUp, slotPrecedes, byNumber, Array.swapIfInBounds_def, Array.swap_def]
  rw [hstored] at hsecond
  have hout : removeMin byNumber true #[(1, 20), (2, 10)] = some ((1, 20), #[(2, 10)]) := by
    simp [removeMin, bubbleDown]
  have hrun := hsecond.removeMin rfl hout
  obtain ⟨hbalance, _, hleast⟩ := queue_run_exact hrun
  refine ⟨_, hrun, ?_, fun tmp left hr => (hleast byNumber by_number_weak_order
    (fun _ hq => hq) tmp left hr).2⟩
  rw [hbalance]
  simp [removedOf]

end Runs

end Parmesan.DiffQueue
