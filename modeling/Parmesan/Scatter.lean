import Parmesan.Bytes

/-!
# Reading and writing several windows of a buffer

A window is an offset with a length. `gather` reads the windows one after the
other into one list, `scatter` writes such a list back. Over windows that lie
apart and inside the buffer the two are a lens.
-/

set_option autoImplicit false

namespace Parmesan.Scatter
open Parmesan.Bytes

variable {α : Type}

def gather (buf : List α) (ws : List (ℕ × ℕ)) : List α := ws.flatMap fun w => slice buf w.1 w.2

def scatter : List (ℕ × ℕ) → List α → List α → List α
  | [], _, buf => buf
  | w::ws, bytes, buf => scatter ws (bytes.drop w.2) (splice buf w.1 (bytes.take w.2))

def total (ws : List (ℕ × ℕ)) : ℕ := (ws.map Prod.snd).sum

def Inside (ws : List (ℕ × ℕ)) (len : ℕ) : Prop := ∀ w ∈ ws, w.1+w.2 ≤ len

def Outside (ws : List (ℕ × ℕ)) (y : ℕ) : Prop := ∀ w ∈ ws, y < w.1 ∨ w.1+w.2 ≤ y

@[simp] theorem total_nil : total [] = 0 := rfl

@[simp] theorem total_cons (w : ℕ × ℕ) (ws : List (ℕ × ℕ)) : total (w::ws) = w.2+total ws := by
  simp [total]

theorem inside_cons (w : ℕ × ℕ) (ws : List (ℕ × ℕ)) (len : ℕ) :
    Inside (w::ws) len ↔ w.1+w.2 ≤ len ∧ Inside ws len := List.forall_mem_cons

theorem outside_cons (w : ℕ × ℕ) (ws : List (ℕ × ℕ)) (y : ℕ) :
    Outside (w::ws) y ↔ (y < w.1 ∨ w.1+w.2 ≤ y) ∧ Outside ws y := List.forall_mem_cons

theorem gather_length (buf : List α) (ws : List (ℕ × ℕ)) (h : Inside ws buf.length) :
    (gather buf ws).length = total ws := by
  induction ws with
  | nil => rfl
  | cons w ws ih =>
    obtain ⟨hw, hws⟩ := (inside_cons w ws _).mp h
    rw [gather, List.flatMap_cons, List.length_append, slice_length buf w.1 w.2 hw, total_cons]
    exact congrArg _ (ih hws)

theorem piece_length {w : ℕ × ℕ} {ws : List (ℕ × ℕ)} {bytes : List α}
    (h : bytes.length = total (w::ws)) :
    (bytes.take w.2).length = w.2 ∧ (bytes.drop w.2).length = total ws := by
  rw [total_cons] at h
  rw [List.length_take, List.length_drop]
  omega

theorem scatter_length (ws : List (ℕ × ℕ)) (bytes buf : List α) (h : Inside ws buf.length)
    (hb : bytes.length = total ws) : (scatter ws bytes buf).length = buf.length := by
  induction ws generalizing bytes buf with
  | nil => rfl
  | cons w ws ih =>
    obtain ⟨hw, hws⟩ := (inside_cons w ws _).mp h
    obtain ⟨hpiece, hrest⟩ := piece_length hb
    have hlen := splice_length buf w.1 (bytes.take w.2) (by omega)
    rw [scatter, ih _ _ (by rw [hlen]; exact hws) hrest, hlen]

theorem scatter_outside (ws : List (ℕ × ℕ)) (bytes buf : List α) (h : Inside ws buf.length)
    (hb : bytes.length = total ws) {y : ℕ} (hy : Outside ws y) :
    (scatter ws bytes buf)[y]? = buf[y]? := by
  induction ws generalizing bytes buf with
  | nil => rfl
  | cons w ws ih =>
    obtain ⟨hw, hws⟩ := (inside_cons w ws _).mp h
    obtain ⟨hout, hrestout⟩ := (outside_cons w ws y).mp hy
    obtain ⟨hpiece, hrest⟩ := piece_length hb
    have hlen := splice_length buf w.1 (bytes.take w.2) (by omega)
    rw [scatter, ih _ _ (by rw [hlen]; exact hws) hrest hrestout,
      splice_get buf w.1 _ (by omega), if_neg (by omega)]

theorem scatter_congr (ws : List (ℕ × ℕ)) (bytes buf buf' : List α) (h : Inside ws buf.length)
    (hlen : buf'.length = buf.length) (hb : bytes.length = total ws)
    (hout : ∀ y, Outside ws y → buf'[y]? = buf[y]?) :
    scatter ws bytes buf' = scatter ws bytes buf := by
  induction ws generalizing bytes buf buf' with
  | nil =>
    apply List.ext_getElem?
    intro y
    exact hout y (List.forall_mem_nil _)
  | cons w ws ih =>
    obtain ⟨hw, hws⟩ := (inside_cons w ws _).mp h
    obtain ⟨hpiece, hrest⟩ := piece_length hb
    have hl := splice_length buf w.1 (bytes.take w.2) (by omega)
    have hl' := splice_length buf' w.1 (bytes.take w.2) (by omega)
    rw [scatter, scatter]
    apply ih _ _ _ (by rw [hl]; exact hws) (by omega) hrest
    intro y hy
    rw [splice_get buf' w.1 _ (by omega), splice_get buf w.1 _ (by omega)]
    split_ifs with hin
    · rfl
    · exact hout y ((outside_cons w ws y).mpr ⟨by omega, hy⟩)

theorem scatter_gather (ws : List (ℕ × ℕ)) (buf : List α) (h : Inside ws buf.length) :
    scatter ws (gather buf ws) buf = buf := by
  induction ws with
  | nil => rfl
  | cons w ws ih =>
    obtain ⟨hw, hws⟩ := (inside_cons w ws _).mp h
    have hlen := slice_length buf w.1 w.2 hw
    rw [scatter, gather, List.flatMap_cons, List.take_left' hlen, List.drop_left' hlen,
      splice_slice_same buf w.1 w.2 hw]
    exact ih hws

theorem gather_scatter (ws : List (ℕ × ℕ)) (bytes buf : List α) (h : Inside ws buf.length)
    (hd : ws.Pairwise fun v w => v.1+v.2 ≤ w.1) (hb : bytes.length = total ws) :
    gather (scatter ws bytes buf) ws = bytes := by
  induction ws generalizing bytes buf with
  | nil => exact (List.length_eq_zero_iff.mp hb).symm
  | cons w ws ih =>
    obtain ⟨hw, hws⟩ := (inside_cons w ws _).mp h
    obtain ⟨hafter, hdrest⟩ := List.pairwise_cons.mp hd
    obtain ⟨hpiece, hrest⟩ := piece_length hb
    have hlen := splice_length buf w.1 (bytes.take w.2) (by omega)
    have hws' : Inside ws (splice buf w.1 (bytes.take w.2)).length := by rw [hlen]; exact hws
    -- the windows after `w` do not touch what was written to it
    have hfirst : slice (scatter ws (bytes.drop w.2) (splice buf w.1 (bytes.take w.2))) w.1 w.2 =
        bytes.take w.2 := by
      have hkeep : slice (scatter ws (bytes.drop w.2) (splice buf w.1 (bytes.take w.2))) w.1 w.2 =
          slice (splice buf w.1 (bytes.take w.2)) w.1 w.2 := by
        apply slice_congr
        intro k hk
        apply scatter_outside ws _ _ hws' hrest
        intro v hv
        have := hafter v hv
        omega
      have hsame := slice_splice_same buf w.1 (bytes.take w.2) (by omega)
      rw [hpiece] at hsame
      rw [hkeep, hsame]
    have htail := ih (bytes.drop w.2) (splice buf w.1 (bytes.take w.2)) hws' hdrest hrest
    rw [gather] at htail
    rw [gather, List.flatMap_cons, scatter, hfirst, htail, List.take_append_drop]

end Parmesan.Scatter
