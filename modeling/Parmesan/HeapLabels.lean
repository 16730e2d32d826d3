import Mathlib.Logic.Function.Basic
import Parmesan.Execution

/-!
# The labels of heap blocks

`external_lib/stdalloc.c` and `runtime/src/heapmap.rs`, as they are built without
`ALLOC_PRELOAD`. What the allocator returns is an argument, zero for a null pointer.
Blocks lie in the application memory of the sanitizer, so no size wraps when it is
multiplied by the width of a label.
-/

set_option autoImplicit false

namespace Parmesan.HeapLabels
open Parmesan.Execution

abbrev HeapMap := ℕ → Option ℕ

def heapmapSet (h : HeapMap) (base bound : ℕ) : HeapMap := Function.update h base (some bound)

def heapmapInvalidate (h : HeapMap) (base : ℕ) : HeapMap := Function.update h base none

def heapmapGet (h : HeapMap) (base : ℕ) : ℕ := (h base).getD 0

@[simp] theorem get_set (h : HeapMap) (base bound : ℕ) :
    heapmapGet (heapmapSet h base bound) base = bound := by
  simp [heapmapGet, heapmapSet]

abbrev Labels := ℕ → ℕ

/-- `memcpy` on the labels of `n` addresses; areas that overlap are undefined. -/
def memcpy (dst src n : ℕ) (labels : Labels) : Option Labels :=
  if n = 0 ∨ dst+n ≤ src ∨ src+n ≤ dst then
    some fun a => if dst ≤ a ∧ a < dst+n then labels (src+(a-dst)) else labels a
  else none

structure Memory where
  heapmap : HeapMap
  labels : Labels

def dfswMalloc (m : Memory) (size ptr : ℕ) : Memory :=
  if ptr ≠ 0 then { m with heapmap := heapmapSet m.heapmap ptr size } else m

def dfswFree (m : Memory) (ptr : ℕ) : Memory :=
  { m with heapmap := heapmapInvalidate m.heapmap ptr }

def dfswCalloc (m : Memory) (nmemb size ptr : ℕ) : Memory :=
  if ptr ≠ 0 then { m with heapmap := heapmapSet m.heapmap ptr (nmemb*size % 2^64) } else m

/-- The labels are copied over the old size, whatever the new one is. -/
def moveLabels (m : Memory) (ptr ret oldSize : ℕ) : Option Memory :=
  if ptr ≠ 0 ∧ ret ≠ ptr then
    (memcpy ret ptr oldSize m.labels).map fun labels => ⟨heapmapInvalidate m.heapmap ptr, labels⟩
  else some m

def dfswRealloc (m : Memory) (ptr size ret : ℕ) : Option Memory :=
  let oldSize := heapmapGet m.heapmap ptr
  if ret ≠ 0 then
    (moveLabels m ptr ret oldSize).map fun m =>
      { m with heapmap := heapmapSet m.heapmap ret size }
  else some m

section Realloc
variable {m m' : Memory} {ptr size ret oldSize : ℕ}

/-- The labels went with the bytes, and no others changed. -/
structure Reallocated (m : Memory) (ptr oldSize size ret : ℕ) (m' : Memory) : Prop where
  moved : ∀ i, i < oldSize → i < size → m'.labels (ret+i) = m.labels (ptr+i)
  bound : heapmapGet m'.heapmap ret = size
  frame : ∀ a, ¬ (ret ≤ a ∧ a < ret+size) → m'.labels a = m.labels a

def Fits (labels : Labels) (ptr oldSize size ret : ℕ) : Prop :=
  oldSize ≤ size ∨ (ret+oldSize ≤ ptr ∨ ptr+oldSize ≤ ret) ∧
    ∀ i, size ≤ i → i < oldSize → labels (ret+i) = labels (ptr+i)

theorem realloc_moved_eq (hold : heapmapGet m.heapmap ptr = oldSize) (hret : ret ≠ 0)
    (hptr : ptr ≠ 0) (hmove : ret ≠ ptr) :
    dfswRealloc m ptr size ret = (memcpy ret ptr oldSize m.labels).map fun labels =>
      ⟨heapmapSet (heapmapInvalidate m.heapmap ptr) ret size, labels⟩ := by
  rw [dfswRealloc, hold, if_pos hret, moveLabels, if_pos ⟨hptr, hmove⟩, Option.map_map]
  rfl

theorem realloc_in_place (hold : heapmapGet m.heapmap ptr = oldSize) (hret : ret ≠ 0)
    (hnull : ptr = 0 → oldSize = 0) (hstay : ptr = 0 ∨ ret = ptr) :
    ∃ m', dfswRealloc m ptr size ret = some m' ∧ Reallocated m ptr oldSize size ret m' := by
  have hno : ¬ (ptr ≠ 0 ∧ ret ≠ ptr) := by
    rintro ⟨hptr, hmove⟩
    exact hstay.elim hptr hmove
  refine ⟨{ m with heapmap := heapmapSet m.heapmap ret size }, ?_, ?_, get_set _ _ _,
    fun _ _ => rfl⟩
  · rw [dfswRealloc, hold, if_pos hret, moveLabels, if_neg hno]
    rfl
  · intro i hi _
    rcases hstay with hptr | hsame
    · have hzero := hnull hptr
      omega
    · rw [hsame]

theorem memcpy_apart (labels : Labels) {dst src n : ℕ}
    (h : n = 0 ∨ dst+n ≤ src ∨ src+n ≤ dst) :
    ∃ labels', memcpy dst src n labels = some labels' := by
  rw [memcpy, if_pos h]
  exact ⟨_, rfl⟩

theorem memcpy_inside {labels labels' : Labels} {dst src n : ℕ}
    (h : memcpy dst src n labels = some labels') {i : ℕ} (hi : i < n) :
    labels' (dst+i) = labels (src+i) := by
  unfold memcpy at h
  split_ifs at h
  rw [← Option.some.inj h]
  show (if dst ≤ dst+i ∧ dst+i < dst+n then labels (src+(dst+i-dst)) else labels (dst+i)) = _
  rw [if_pos ⟨by omega, by omega⟩, Nat.add_sub_cancel_left]

theorem memcpy_outside {labels labels' : Labels} {dst src n : ℕ}
    (h : memcpy dst src n labels = some labels') {a : ℕ} (ha : ¬ (dst ≤ a ∧ a < dst+n)) :
    labels' a = labels a := by
  unfold memcpy at h
  split_ifs at h
  rw [← Option.some.inj h]
  exact if_neg ha

theorem memcpy_reallocated_iff {labels' : Labels}
    (hcopy : memcpy ret ptr oldSize m.labels = some labels') (heap : HeapMap) :
    Reallocated m ptr oldSize size ret ⟨heapmapSet heap ret size, labels'⟩ ↔
      ∀ i, size ≤ i → i < oldSize → m.labels (ret+i) = m.labels (ptr+i) := by
  constructor
  · intro h i hle hlt
    have hframe := h.frame (ret+i) (by omega)
    rw [← hframe]
    exact memcpy_inside hcopy hlt
  · intro h
    refine ⟨fun i hi _ => memcpy_inside hcopy hi, get_set _ _ _, ?_⟩
    intro a ha
    show labels' a = m.labels a
    by_cases hin : ret ≤ a ∧ a < ret+oldSize
    · obtain ⟨i, rfl⟩ := Nat.exists_eq_add_of_le hin.1
      rw [memcpy_inside hcopy (by omega), h i (by omega) (by omega)]
    · exact memcpy_outside hcopy hin

/-- `realloc` keeps the labels of every other address exactly if the block stays where it
is, does not shrink, or has equal labels behind it. -/
theorem realloc_sound_iff (hold : heapmapGet m.heapmap ptr = oldSize) (hret : ret ≠ 0)
    (hnull : ptr = 0 → oldSize = 0) (happart : ret ≠ ptr → ret+size ≤ ptr ∨ ptr+oldSize ≤ ret) :
    (∃ m', dfswRealloc m ptr size ret = some m' ∧ Reallocated m ptr oldSize size ret m') ↔
      ptr = 0 ∨ ret = ptr ∨ Fits m.labels ptr oldSize size ret := by
  by_cases hstay : ptr = 0 ∨ ret = ptr
  · exact iff_of_true (realloc_in_place hold hret hnull hstay)
      (hstay.imp_right Or.inl)
  · obtain ⟨hptr, hmove⟩ := not_or.mp hstay
    have hblocks := happart hmove
    simp only [hptr, hmove, false_or]
    rw [realloc_moved_eq hold hret hptr hmove]
    constructor
    · rintro ⟨m', hm', hmoved⟩
      obtain ⟨labels', hcopy, rfl⟩ := Option.map_eq_some_iff.mp hm'
      have hequal := (memcpy_reallocated_iff hcopy _).mp hmoved
      by_cases hle : oldSize ≤ size
      · exact Or.inl hle
      · refine Or.inr ⟨?_, hequal⟩
        unfold memcpy at hcopy
        split_ifs at hcopy with hapart
        exact hapart.resolve_left (by omega)
    · intro hfits
      have hapart : oldSize = 0 ∨ ret+oldSize ≤ ptr ∨ ptr+oldSize ≤ ret := by
        rcases hfits with hle | ⟨hapart, -⟩
        · omega
        · exact Or.inr hapart
      obtain ⟨labels', hcopy⟩ := memcpy_apart m.labels hapart
      refine ⟨_, by rw [hcopy]; rfl, ?_⟩
      apply (memcpy_reallocated_iff hcopy _).mpr
      intro i hle hlt
      rcases hfits with hsize | ⟨-, hequal⟩
      · omega
      · exact hequal i hle hlt

def fourBytes : Memory where
  heapmap := heapmapSet (heapmapSet (fun _ => none) 16 4) 33 1
  labels := fun a => if 16 ≤ a ∧ a < 20 then a-15 else if a = 33 then 9 else 0

/-- The block grows and moves. -/
theorem realloc_sound_iff_grown :
    heapmapGet fourBytes.heapmap 16 = 4 ∧
    ∃ m', dfswRealloc fourBytes 16 8 64 = some m' ∧ Reallocated fourBytes 16 4 8 64 m' :=
  ⟨rfl, (realloc_sound_iff rfl (by decide) (by decide) (by decide)).mpr
    (Or.inr (Or.inr (Or.inl (by decide))))⟩

/-- The block shrinks to one byte and moves in front of the other one, which then has
the label of the second byte. -/
theorem realloc_spills :
    heapmapGet fourBytes.heapmap 16 = 4 ∧ 16+4 ≤ 32 ∧
    (dfswRealloc fourBytes 16 1 32).map (fun m' => m'.labels 33) = some 2 ∧
    fourBytes.labels 33 = 9 ∧
    ¬ ∃ m', dfswRealloc fourBytes 16 1 32 = some m' ∧ Reallocated fourBytes 16 4 1 32 m' := by
  have hspill : (dfswRealloc fourBytes 16 1 32).map (fun m' => m'.labels 33) = some 2 := rfl
  refine ⟨rfl, by decide, hspill, rfl, ?_⟩
  rintro ⟨m', hm', hmoved⟩
  rw [hm', Option.map_some, hmoved.frame 33 (by decide)] at hspill
  exact absurd hspill (by decide)

end Realloc

section Run

/-- The blocks that the program holds are recorded beside the memory; no call reads them. -/
structure World where
  memory : Memory
  live : ℕ → Option ℕ

def newWorld (labels : Labels) : World := ⟨⟨fun _ => none, labels⟩, fun _ => none⟩

inductive Event where
  | malloc (size ret : ℕ)
  | calloc (nmemb size ret : ℕ)
  | free (ptr : ℕ)
  | realloc (ptr size ret : ℕ)

def holds (live : ℕ → Option ℕ) (ptr : ℕ) : Prop := ptr = 0 ∨ ∃ size, live ptr = some size

/-- The allocator hands out a block at an address where none is held, and `calloc` none
whose size wraps. The program gives back what it holds. -/
def Possible (w : World) : Event → Prop
  | .malloc _ ret => w.live ret = none
  | .calloc nmemb size ret => w.live ret = none ∧ (ret ≠ 0 → nmemb*size < 2^64)
  | .free ptr => holds w.live ptr
  | .realloc ptr _ ret => holds w.live ptr ∧ (ret = ptr ∨ w.live ret = none)

def grant (live : ℕ → Option ℕ) (ret size : ℕ) : ℕ → Option ℕ :=
  if ret ≠ 0 then Function.update live ret (some size) else live

/-- A block of no bytes may be given back with a null pointer. -/
def regrant (live : ℕ → Option ℕ) (ptr size ret : ℕ) : ℕ → Option ℕ :=
  if ret = 0 ∧ size ≠ 0 then live else grant (Function.update live ptr none) ret size

def next (w : World) : Event → Option World
  | .malloc size ret => some ⟨dfswMalloc w.memory size ret, grant w.live ret size⟩
  | .calloc nmemb size ret =>
    some ⟨dfswCalloc w.memory nmemb size ret, grant w.live ret (nmemb*size)⟩
  | .free ptr => some ⟨dfswFree w.memory ptr, Function.update w.live ptr none⟩
  | .realloc ptr size ret =>
    (dfswRealloc w.memory ptr size ret).map fun m => ⟨m, regrant w.live ptr size ret⟩

structure Recorded (heap : HeapMap) (live : ℕ → Option ℕ) : Prop where
  null : heap 0 = none
  live : ∀ ptr size, live ptr = some size → heap ptr = some size

variable {heap : HeapMap} {live : ℕ → Option ℕ}

theorem recorded_set (h : Recorded heap live) {ret : ℕ} (hret : ret ≠ 0) (size : ℕ) :
    Recorded (heapmapSet heap ret size) (grant live ret size) := by
  rw [grant, if_pos hret, heapmapSet]
  constructor
  · exact (Function.update_of_ne hret.symm _ _).trans h.null
  · intro ptr n hn
    by_cases hptr : ptr = ret
    · rw [hptr, Function.update_self] at hn ⊢
      exact hn
    · rw [Function.update_of_ne hptr] at hn ⊢
      exact h.live ptr n hn

theorem recorded_drop (h : Recorded heap live) (ptr : ℕ) :
    Recorded heap (Function.update live ptr none) := by
  refine ⟨h.null, ?_⟩
  intro a n hn
  by_cases ha : a = ptr
  · rw [ha, Function.update_self] at hn
    cases hn
  · rw [Function.update_of_ne ha] at hn
    exact h.live a n hn

theorem recorded_invalidate (h : Recorded heap live) (ptr : ℕ) :
    Recorded (heapmapInvalidate heap ptr) (Function.update live ptr none) := by
  rw [heapmapInvalidate]
  constructor
  · by_cases hptr : 0 = ptr
    · rw [← hptr, Function.update_self]
    · exact (Function.update_of_ne hptr _ _).trans h.null
  · intro a n hn
    by_cases ha : a = ptr
    · rw [ha, Function.update_self] at hn
      cases hn
    · rw [Function.update_of_ne ha] at hn ⊢
      exact h.live a n hn

theorem realloc_recorded {m m' : Memory} (h : Recorded m.heapmap live) {ptr size ret : ℕ}
    (hm : dfswRealloc m ptr size ret = some m') :
    Recorded m'.heapmap (regrant live ptr size ret) := by
  unfold dfswRealloc at hm
  by_cases hret : ret ≠ 0
  · rw [if_pos hret] at hm
    obtain ⟨u, hu, rfl⟩ := Option.map_eq_some_iff.mp hm
    rw [regrant, if_neg (fun hnull => hret hnull.1)]
    refine recorded_set ?_ hret size
    unfold moveLabels at hu
    split_ifs at hu with hmove
    · obtain ⟨labels, -, rfl⟩ := Option.map_eq_some_iff.mp hu
      exact recorded_invalidate h ptr
    · rw [← Option.some.inj hu]
      exact recorded_drop h ptr
  · rw [if_neg hret] at hm
    rw [← Option.some.inj hm, regrant, grant, if_neg hret]
    split_ifs
    · exact h
    · exact recorded_drop h ptr

theorem next_recorded {w w' : World} {e : Event} (h : Recorded w.memory.heapmap w.live)
    (hp : Possible w e) (hn : next w e = some w') : Recorded w'.memory.heapmap w'.live := by
  cases e with
  | malloc size ret =>
    rw [← Option.some.inj hn]
    show Recorded (dfswMalloc w.memory size ret).heapmap (grant w.live ret size)
    by_cases hret : ret ≠ 0
    · rw [dfswMalloc, if_pos hret]
      exact recorded_set h hret size
    · rw [dfswMalloc, if_neg hret, grant, if_neg hret]
      exact h
  | calloc nmemb size ret =>
    rw [← Option.some.inj hn]
    show Recorded (dfswCalloc w.memory nmemb size ret).heapmap (grant w.live ret (nmemb*size))
    by_cases hret : ret ≠ 0
    · rw [dfswCalloc, if_pos hret, Nat.mod_eq_of_lt (hp.2 hret)]
      exact recorded_set h hret (nmemb*size)
    · rw [dfswCalloc, if_neg hret, grant, if_neg hret]
      exact h
  | free ptr =>
    rw [← Option.some.inj hn]
    exact recorded_invalidate h ptr
  | realloc ptr size ret =>
    obtain ⟨m, hm, rfl⟩ := Option.map_eq_some_iff.mp hn
    exact realloc_recorded h hm

/-- In every run `heapmap_get` is the size of the block it is asked for, and zero for a
null pointer. -/
theorem heapmap_get_live {labels : Labels} {w : World}
    (h : Reachable next Possible (newWorld labels) w) :
    heapmapGet w.memory.heapmap 0 = 0 ∧
      ∀ ptr size, w.live ptr = some size → heapmapGet w.memory.heapmap ptr = size := by
  have hrec : Recorded w.memory.heapmap w.live :=
    reachable_invariant (P := fun w : World => Recorded w.memory.heapmap w.live)
      ⟨rfl, fun _ _ hn => by cases hn⟩ (fun _ _ _ hs hp hn => next_recorded hs hp hn) h
  constructor
  · rw [heapmapGet, hrec.null]
    rfl
  · intro ptr size hlive
    rw [heapmapGet, hrec.live ptr size hlive]
    rfl

end Run

end Parmesan.HeapLabels
