import Parmesan.MutInputModel
import Parmesan.Scatter
import Parmesan.Segments

/-!
# Writing the mutated bytes back

`MutInput::write_to_input` and `set_bytes_by_offsets`. With segments that lie
apart, reading an input through `from` and writing it through `write_to_input`
is a lens on the input extended with zeros up to the end of the last segment.
-/

set_option autoImplicit false

namespace Parmesan.MutInputLens
open Parmesan.Bytes Parmesan.Scatter Parmesan.Segments Parmesan.MutInputModel
open Parmesan.TagSetModel Parmesan.TagSetShape

/-- The body of the loop of `set_bytes_by_offsets`: the buffer and `cmp_off.1`. -/
def setSegment (bytes : List UInt8) (st : List UInt8 × ℕ) (off : TagSeg) :
    Option (List UInt8 × ℕ) :=
  if off.start < off.stop then
    let n := off.stop-off.start
    -- both ranges are checked when they are indexed
    if off.stop ≤ st.1.length ∧ st.2+n ≤ bytes.length then
      some (splice st.1 off.start (slice bytes st.2 n), st.2+n)
    else none
  else some st

def setBytesByOffsets (offsets : List TagSeg) (bytes buf : List UInt8) : Option (List UInt8) :=
  (offsets.foldlM (setSegment bytes) (buf, 0)).map Prod.fst

def writeToInput (m : MutInput) (offsets : List TagSeg) (input : List UInt8) :
    Option (List UInt8) :=
  let input := match offsets.getLast? with
    | some last =>
      if input.length < last.stop then input ++ List.replicate (last.stop-input.length) 0
      else input
    | none => input
  setBytesByOffsets offsets m.value input

def zeroExtend (input : List UInt8) (len : ℕ) : List UInt8 :=
  input ++ List.replicate (len-input.length) 0

@[simp] theorem zero_extend_length (input : List UInt8) (len : ℕ) :
    (zeroExtend input len).length = max input.length len := by
  rw [zeroExtend, List.length_append, List.length_replicate]
  omega

theorem zero_extend_get (input : List UInt8) (len y : ℕ) :
    (zeroExtend input len)[y]? =
      if y < input.length then input[y]? else if y < len then some 0 else none := by
  unfold zeroExtend
  by_cases hy : y < input.length
  · rw [if_pos hy, List.getElem?_append_left hy]
  · rw [if_neg hy, List.getElem?_append_right (by omega), List.getElem?_replicate]
    split_ifs with h1 h2
    · rfl
    · omega
    · omega
    · rfl

theorem zero_extend_covers {input : List UInt8} {len : ℕ} (h : len ≤ input.length) :
    zeroExtend input len = input := by
  rw [zeroExtend, show len-input.length = 0 by omega, List.replicate_zero, List.append_nil]

theorem write_to_input_eq (m : MutInput) (offsets : List TagSeg) (input : List UInt8) :
    writeToInput m offsets input =
      setBytesByOffsets offsets m.value (zeroExtend input (extent offsets)) := by
  unfold writeToInput extent
  cases offsets.getLast? with
  | none =>
    simp only [Option.map_none, Option.getD_none]
    rw [zero_extend_covers (Nat.zero_le _)]
  | some last =>
    simp only [Option.map_some, Option.getD_some]
    split_ifs with hlt
    · rfl
    · rw [zero_extend_covers (by omega)]

def windowOf (off : TagSeg) : ℕ × ℕ := (off.start, off.stop-off.start)

def windowsOf (offsets : List TagSeg) : List (ℕ × ℕ) := offsets.map windowOf

/-- The entries that `from` makes depend on the segments only. -/
def metasOf : ℕ → List TagSeg → List InputMeta
  | _, [] => []
  | pos, off::offsets =>
    let n := off.stop-off.start
    (if IsWidth n then [⟨off.sign, pos, n⟩] else List.replicate n ⟨off.sign, pos, 1⟩) ++
      metasOf (pos+n) offsets

section Segment
variable {off : TagSeg} {input : List UInt8} {len : ℕ}

/-- The three cases of `from`, inside, across and past the end of the input, read
the same bytes of the input extended with zeros. -/
theorem push_segment_eq (hne : off.start < off.stop) (hlen : off.stop ≤ len) (m : MutInput) :
    pushSegment input m off = some
      (push m (slice (zeroExtend input len) off.start (off.stop-off.start)) off.sign) := by
  simp only [pushSegment, if_neg (Nat.ne_of_lt hne)]
  split_ifs with h1 h2 h3 h4
  · have hsame : slice input off.start (off.stop-off.start) =
        slice (zeroExtend input len) off.start (off.stop-off.start) := by
      apply slice_congr
      intro k hk
      rw [zero_extend_get, if_pos (by omega)]
    rw [hsame]
  · omega
  · have hsame : List.replicate (off.stop-off.start) (0 : UInt8) =
        slice (zeroExtend input len) off.start (off.stop-off.start) := by
      apply List.ext_getElem?
      intro k
      rw [List.getElem?_replicate, slice_get, zero_extend_get]
      split_ifs with hk h5 h6
      · omega
      · rfl
      · omega
      · rfl
    rw [hsame]
  · omega
  · have hsame : input.drop off.start ++ List.replicate (off.stop-input.length) 0 =
        slice (zeroExtend input len) off.start (off.stop-off.start) := by
      apply List.ext_getElem?
      intro k
      rw [slice_get, zero_extend_get]
      by_cases hk : k < input.length-off.start
      · rw [List.getElem?_append_left (by rw [List.length_drop]; exact hk), List.getElem?_drop,
          if_pos (by omega), if_pos (by omega)]
      · rw [List.getElem?_append_right (by rw [List.length_drop]; omega), List.length_drop,
          List.getElem?_replicate]
        by_cases hin : k < off.stop-off.start
        · rw [if_pos (by omega), if_pos hin, if_neg (by omega), if_pos (by omega)]
        · rw [if_neg (by omega), if_neg hin]
    rw [hsame]

end Segment

section Lens
variable {offsets : List TagSeg} {len : ℕ}

theorem windows_inside (h : ∀ off ∈ offsets, off.start < off.stop ∧ off.stop ≤ len) :
    Inside (windowsOf offsets) len := by
  intro w hw
  obtain ⟨off, hoff, rfl⟩ := List.mem_map.mp hw
  have := h off hoff
  simp only [windowOf]
  omega

theorem windows_outside (h : ∀ off ∈ offsets, off.start < off.stop) {y : ℕ} :
    Outside (windowsOf offsets) y ↔ y ∉ cover offsets := by
  constructor
  · intro hout hin
    obtain ⟨off, hoff, hlow, hhigh⟩ := hin
    have := hout (windowOf off) (List.mem_map_of_mem hoff)
    simp only [windowOf] at this
    omega
  · intro hnot w hw
    obtain ⟨off, hoff, rfl⟩ := List.mem_map.mp hw
    have hne := h off hoff
    by_contra hin
    simp only [windowOf] at hin
    exact hnot ⟨off, hoff, by omega, by omega⟩

theorem windows_apart (h : Apart offsets) :
    (windowsOf offsets).Pairwise fun v w => v.1+v.2 ≤ w.1 := by
  apply List.pairwise_map.mpr
  apply List.Pairwise.imp_of_mem _ h.disjoint
  intro t u ht _ hle
  have := h.nonempty t ht
  simp only [windowOf]
  omega

theorem push_segments_eq (h : ∀ off ∈ offsets, off.start < off.stop ∧ off.stop ≤ len)
    (input : List UInt8) (m : MutInput) :
    offsets.foldlM (pushSegment input) m = some
      ⟨m.value ++ gather (zeroExtend input len) (windowsOf offsets),
        m.metas ++ metasOf m.value.length offsets⟩ := by
  induction offsets generalizing m with
  | nil =>
    simp only [List.foldlM_nil, windowsOf, List.map_nil, gather, List.flatMap_nil,
      List.append_nil, metasOf]
    rfl
  | cons off offsets ih =>
    obtain ⟨hoff, hrest⟩ := List.forall_mem_cons.mp h
    have hfit : (slice (zeroExtend input len) off.start (off.stop-off.start)).length =
        off.stop-off.start := by
      apply slice_length
      rw [zero_extend_length]
      omega
    rw [List.foldlM_cons, push_segment_eq hoff.1 hoff.2]
    show offsets.foldlM _ _ = _
    rw [ih hrest]
    simp only [push, hfit, List.length_append, windowsOf, List.map_cons, gather, windowOf,
      List.flatMap_cons, metasOf, List.append_assoc]

theorem set_segments_eq (h : ∀ off ∈ offsets, off.start < off.stop ∧ off.stop ≤ len)
    (bytes buf : List UInt8) (pos : ℕ) (hlen : len ≤ buf.length)
    (hb : bytes.length = pos+total (windowsOf offsets)) :
    offsets.foldlM (setSegment bytes) (buf, pos) =
      some (scatter (windowsOf offsets) (bytes.drop pos) buf, bytes.length) := by
  induction offsets generalizing buf pos with
  | nil =>
    rw [hb]
    rfl
  | cons off offsets ih =>
    obtain ⟨hoff, hrest⟩ := List.forall_mem_cons.mp h
    have htotal : total (windowsOf (off::offsets)) =
        off.stop-off.start+total (windowsOf offsets) := total_cons _ _
    have hpiece : (slice bytes pos (off.stop-off.start)).length = off.stop-off.start := by
      apply slice_length
      omega
    have hl := splice_length buf off.start (slice bytes pos (off.stop-off.start)) (by omega)
    have hstep : setSegment bytes (buf, pos) off =
        some (splice buf off.start (slice bytes pos (off.stop-off.start)),
          pos+(off.stop-off.start)) := by
      simp only [setSegment, if_pos hoff.1]
      rw [if_pos (by omega)]
    rw [List.foldlM_cons, hstep]
    show offsets.foldlM _ _ = _
    rw [ih hrest _ _ (by omega) (by omega)]
    simp only [windowsOf, List.map_cons, windowOf, scatter, List.drop_drop]
    rfl

theorem segments_fit (h : Apart offsets) (input : List UInt8) :
    ∀ off ∈ offsets, off.start < off.stop ∧
      off.stop ≤ (zeroExtend input (extent offsets)).length := by
  intro off hoff
  have hstop := stop_le_extent h off hoff
  rw [zero_extend_length]
  exact ⟨h.nonempty off hoff, le_trans hstop (le_max_right _ _)⟩

theorem from_offsets_eq (h : Apart offsets) (input : List UInt8) :
    fromOffsets offsets input = some
      ⟨gather (zeroExtend input (extent offsets)) (windowsOf offsets), metasOf 0 offsets⟩ := by
  have hfit : ∀ off ∈ offsets, off.start < off.stop ∧ off.stop ≤ extent offsets :=
    fun off hoff => ⟨h.nonempty off hoff, stop_le_extent h off hoff⟩
  rw [fromOffsets, push_segments_eq hfit]
  rfl

theorem write_to_input_scatter (h : Apart offsets) (input : List UInt8) {m : MutInput}
    (hm : m.value.length = total (windowsOf offsets)) :
    writeToInput m offsets input =
      some (scatter (windowsOf offsets) m.value (zeroExtend input (extent offsets))) := by
  rw [write_to_input_eq, setBytesByOffsets,
    set_segments_eq (segments_fit h input) _ _ 0 (le_refl _) (by omega)]
  rfl

end Lens

structure SameShape (m m' : MutInput) : Prop where
  metas : m'.metas = m.metas
  length : m'.value.length = m.value.length

/-- With segments that lie apart `from` always reads and `write_to_input` always
writes: an unmodified value goes back to the same bytes, a value of the same
shape is read back, bytes outside the segments stay, and the last write wins. -/
theorem write_to_input_lens {offsets : List TagSeg} (h : Apart offsets) (input : List UInt8) :
    ∃ m, fromOffsets offsets input = some m ∧
      writeToInput m offsets input = some (zeroExtend input (extent offsets)) ∧
      ∀ m', SameShape m m' → ∃ out, writeToInput m' offsets input = some out ∧
        fromOffsets offsets out = some m' ∧
        (∀ y, y ∉ cover offsets → out[y]? = (zeroExtend input (extent offsets))[y]?) ∧
        ∀ m'', SameShape m m'' →
          writeToInput m'' offsets out = writeToInput m'' offsets input := by
  have hin := windows_inside (segments_fit h input)
  have hvalue := gather_length (zeroExtend input (extent offsets)) (windowsOf offsets) hin
  refine ⟨_, from_offsets_eq h input, ?_, ?_⟩
  · rw [write_to_input_scatter h input hvalue, scatter_gather _ _ hin]
  intro m' hm'
  have hlen : m'.value.length = total (windowsOf offsets) := hm'.length.trans hvalue
  have hout := scatter_length _ m'.value (zeroExtend input (extent offsets)) hin hlen
  have hext : extent offsets ≤
      (scatter (windowsOf offsets) m'.value (zeroExtend input (extent offsets))).length := by
    rw [hout, zero_extend_length]
    exact le_max_right _ _
  refine ⟨_, write_to_input_scatter h input hlen, ?_, ?_, ?_⟩
  · rw [from_offsets_eq h, zero_extend_covers hext,
      gather_scatter _ _ _ hin (windows_apart h) hlen]
    have hmetas : m'.metas = metasOf 0 offsets := hm'.metas
    rw [← hmetas]
  · intro y hy
    exact scatter_outside _ _ _ hin hlen ((windows_outside h.nonempty).mpr hy)
  · intro m'' hm''
    have hlen' : m''.value.length = total (windowsOf offsets) := hm''.length.trans hvalue
    rw [write_to_input_scatter h _ hlen', write_to_input_scatter h _ hlen', zero_extend_covers hext]
    apply congrArg some
    apply scatter_congr _ _ _ _ hin hout hlen'
    intro y hy
    exact scatter_outside _ _ _ hin hlen hy

def straddle : List TagSeg := [⟨false, 0, 2⟩, ⟨true, 3, 6⟩]

theorem write_to_input_lens_straddle : Apart straddle ∧
    ∃ m, fromOffsets straddle [1, 2, 3, 4] = some m ∧
      writeToInput m straddle [1, 2, 3, 4] = some (zeroExtend [1, 2, 3, 4] (extent straddle)) ∧
      ∀ m', SameShape m m' → ∃ out, writeToInput m' straddle [1, 2, 3, 4] = some out ∧
        fromOffsets straddle out = some m' ∧
        (∀ y, y ∉ cover straddle → out[y]? = (zeroExtend [1, 2, 3, 4] (extent straddle))[y]?) ∧
        ∀ m'', SameShape m m'' →
          writeToInput m'' straddle out = writeToInput m'' straddle [1, 2, 3, 4] :=
  ⟨by decide, write_to_input_lens (by decide) [1, 2, 3, 4]⟩

example : writeToInput ⟨[9, 8, 7, 6, 5], []⟩ straddle [1, 2, 3, 4] = some [9, 8, 3, 7, 6, 5] := by
  decide

end Parmesan.MutInputLens
