import Parmesan.SearchLength

/-!
# The search for a compare function

`search/cmpfn.rs`. The buffer and the segments are resized until the segments hold
as many bytes as the magic bytes have. Bytes are inserted into a buffer that was
extended first, but they are removed from the buffer as it is.
-/

set_option autoImplicit false

namespace Parmesan.CmpFn
open Parmesan.TagSetModel Parmesan.Segments Parmesan.CondModel Parmesan.DepotModel
open Parmesan.MutInputModel Parmesan.MutInputLens Parmesan.SearchModel Parmesan.SearchLength

def Narrow (offsets : List TagSeg) : Prop := ∀ t ∈ offsets, t.stop < 2^32

instance (offsets : List TagSeg) : Decidable (Narrow offsets) :=
  inferInstanceAs (Decidable (∀ t ∈ offsets, t.stop < 2^32))

section Concat

theorem narrow_concat (init : List TagSeg) (last : TagSeg) :
    Narrow (init ++ [last]) ↔ Narrow init ∧ last.stop < 2^32 := by
  unfold Narrow
  rw [List.forall_mem_append, List.forall_mem_singleton]

theorem concat_of_ne_nil {offsets : List TagSeg} (h : offsets ≠ []) :
    ∃ init last, offsets = init ++ [last] :=
  ⟨_, _, (List.dropLast_append_getLast h).symm⟩

end Concat

section Remove

def shrinkLast (init : List TagSeg) (last : TagSeg) : List TagSeg :=
  if 1 < last.stop-last.start then init ++ [{ last with stop := last.stop-1 }] else init

theorem remove_byte_eq (buf : List UInt8) {init : List TagSeg} {last : TagSeg}
    (h : Apart (init ++ [last])) (hn : Narrow (init ++ [last])) :
    removeByte ⟨buf, init ++ [last]⟩ =
      if last.start < buf.length then some ⟨buf.eraseIdx last.start, shrinkLast init last⟩
      else none := by
  have hlast := ((apart_concat init last).mp h).2.2
  have hstop := ((narrow_concat init last).mp hn).2
  have hsize : (last.stop+2^64-last.start) % 2^64 = last.stop-last.start := by omega
  simp only [removeByte, List.getLast?_concat, Option.bind_some, List.dropLast_concat, hsize,
    shrinkLast]

theorem shrink_last_apart {init : List TagSeg} {last : TagSeg} (h : Apart (init ++ [last])) :
    Apart (shrinkLast init last) := by
  have hparts := (apart_concat init last).mp h
  unfold shrinkLast
  split_ifs with hsize
  · apply (apart_concat _ _).mpr
    exact ⟨hparts.1, hparts.2.1, by show last.start < last.stop-1; omega⟩
  · exact hparts.1

theorem shrink_last_narrow {init : List TagSeg} {last : TagSeg} (h : Narrow (init ++ [last])) :
    Narrow (shrinkLast init last) := by
  have hparts := (narrow_concat init last).mp h
  unfold shrinkLast
  split_ifs
  · apply (narrow_concat _ _).mpr
    exact ⟨hparts.1, by show last.stop-1 < 2^32; omega⟩
  · exact hparts.1

theorem shrink_last_val_len {init : List TagSeg} {last : TagSeg} (h : Apart (init ++ [last])) :
    valLen (shrinkLast init last)+1 = valLen (init ++ [last]) := by
  have hlast := ((apart_concat init last).mp h).2.2
  unfold shrinkLast
  split_ifs with hsize
  · rw [val_len_append, val_len_append, val_len_single, val_len_single]
    show valLen init+(last.stop-1-last.start)+1 = _
    omega
  · rw [val_len_append, val_len_single]
    omega

/-- The bytes that are taken from the last segment lie in the buffer. -/
def Removable (buf : List UInt8) (offsets : List TagSeg) (n : ℕ) : Prop :=
  ∀ last ∈ offsets.getLast?, last.start+min n (last.stop-last.start) ≤ buf.length

/-- After the first byte the condition is the same one; once the last segment is gone,
the ones before it lie in the buffer by themselves. -/
theorem removable_succ {buf : List UInt8} {init : List TagSeg} {last : TagSeg} {n : ℕ}
    (h : Apart (init ++ [last])) :
    Removable buf (init ++ [last]) (n+1) ↔
      last.start < buf.length ∧
        (n = 0 ∨ Removable (buf.eraseIdx last.start) (shrinkLast init last) n) := by
  have hparts := (apart_concat init last).mp h
  have hlast := hparts.2.2
  have hmine : Removable buf (init ++ [last]) (n+1) ↔
      last.start+min (n+1) (last.stop-last.start) ≤ buf.length := by
    simp [Removable]
  rw [hmine]
  constructor
  · intro hfit
    have hin : last.start < buf.length := by omega
    refine ⟨hin, Or.inr ?_⟩
    intro l hl
    rw [List.length_eraseIdx_of_lt hin]
    unfold shrinkLast at hl
    split_ifs at hl with hsize
    · rw [List.getLast?_concat] at hl
      rw [← Option.some.inj hl]
      show last.start+min n (last.stop-1-last.start) ≤ buf.length-1
      omega
    · have hbefore := hparts.2.1 l (List.mem_of_getLast? hl)
      have hne := hparts.1.nonempty l (List.mem_of_getLast? hl)
      omega
  · rintro ⟨hin, hrest⟩
    rcases hrest with hn | hrest
    · rw [hn]
      omega
    · by_cases hsize : 1 < last.stop-last.start
      · have hl := hrest { last with stop := last.stop-1 } (by simp [shrinkLast, hsize])
        rw [List.length_eraseIdx_of_lt hin] at hl
        change last.start+min n (last.stop-1-last.start) ≤ buf.length-1 at hl
        omega
      · omega

theorem remove_bytes_returns (n : ℕ) (buf : List UInt8) (offsets : List TagSeg)
    (h : Apart offsets) (hnarrow : Narrow offsets) (hn : n ≤ valLen offsets) :
    (∀ h', removeBytes ⟨buf, offsets⟩ n = some h' →
      Apart h'.offsets ∧ valLen h'.offsets+n = valLen offsets) ∧
    ((removeBytes ⟨buf, offsets⟩ n).isSome ↔ n = 0 ∨ Removable buf offsets n) := by
  induction n generalizing buf offsets with
  | zero =>
    constructor
    · intro h' heq
      rw [← Option.some.inj heq]
      exact ⟨h, rfl⟩
    · simp [removeBytes]
  | succ n ih =>
    have hne : offsets ≠ [] := by
      intro hnil
      rw [hnil] at hn
      exact absurd hn (Nat.not_succ_le_zero n)
    obtain ⟨init, last, rfl⟩ := concat_of_ne_nil hne
    have hval := shrink_last_val_len h
    rw [removeBytes, remove_byte_eq buf h hnarrow, removable_succ h]
    split_ifs with hin
    · have hrest := ih (buf.eraseIdx last.start) _ (shrink_last_apart h)
        (shrink_last_narrow hnarrow) (by omega)
      rw [Option.bind_some]
      constructor
      · intro h' heq
        have hspec := hrest.1 h' heq
        exact ⟨hspec.1, by omega⟩
      · rw [hrest.2]
        simp [hin]
    · simp [hin]

end Remove

section Insert

def pushed (stop n : ℕ) : List TagSeg :=
  (List.range n).map fun i => ⟨false, stop+i, stop+i+1⟩

theorem pushed_succ (stop n : ℕ) :
    pushed stop (n+1) = pushed stop n ++ [⟨false, stop+n, stop+n+1⟩] := by
  simp [pushed, List.range_succ]

theorem pushed_val_len (stop n : ℕ) : valLen (pushed stop n) = n := by
  induction n with
  | zero => rfl
  | succ n ih =>
    rw [pushed_succ, val_len_append, val_len_single, ih]
    show n+(stop+n+1-(stop+n)) = n+1
    omega

theorem pushed_apart {offsets : List TagSeg} (h : Apart offsets) (n : ℕ) :
    Apart (offsets ++ pushed (extent offsets) n) := by
  induction n with
  | zero =>
    rw [pushed, List.range_zero, List.map_nil, List.append_nil]
    exact h
  | succ n ih =>
    rw [pushed_succ, ← List.append_assoc, apart_concat]
    refine ⟨ih, ?_, Nat.lt_succ_self _⟩
    intro t ht
    show t.stop ≤ extent offsets+n
    rcases List.mem_append.mp ht with ht | ht
    · have hle := stop_le_extent h t ht
      omega
    · obtain ⟨i, hi, rfl⟩ := List.mem_map.mp ht
      have hlt := List.mem_range.mp hi
      show extent offsets+i+1 ≤ extent offsets+n
      omega

/-- The buffer is extended first, so the byte that is repeated is there. -/
theorem insert_bytes_some (buf : List UInt8) {offsets : List TagSeg} (h : Apart offsets)
    (hne : offsets ≠ []) (n : ℕ) :
    ∃ buf', insertBytes ⟨buf, offsets⟩ n = some ⟨buf', offsets ++ (List.range n).map fun i =>
      ⟨false, (extent offsets+i) % 2^32, (extent offsets+i+1) % 2^32⟩⟩ := by
  obtain ⟨init, last, rfl⟩ := concat_of_ne_nil hne
  have hlast := ((apart_concat init last).mp h).2.2
  simp only [insertBytes, List.getLast?_concat, Option.bind_some, extent_concat]
  have hin : last.start <
      (if buf.length ≤ last.stop then zeroExtend buf (last.stop+1) else buf).length := by
    split_ifs
    · rw [zero_extend_length]
      omega
    · omega
  rw [List.getElem?_eq_getElem hin]
  exact ⟨_, rfl⟩

theorem pushed_narrow {stop n : ℕ} (h : stop+n < 2^32) :
    ((List.range n).map fun i => (⟨false, (stop+i) % 2^32, (stop+i+1) % 2^32⟩ : TagSeg)) =
      pushed stop n := by
  apply List.map_congr_left
  intro i hi
  have hlt := List.mem_range.mp hi
  rw [Nat.mod_eq_of_lt (by omega), Nat.mod_eq_of_lt (by omega)]

/-- A segment whose end overflows ends before it starts. -/
theorem pushed_wraps {stop n : ℕ} (hstop : stop < 2^32) (h : 2^32 ≤ stop+n) :
    ∃ t ∈ (List.range n).map fun i => (⟨false, (stop+i) % 2^32, (stop+i+1) % 2^32⟩ : TagSeg),
      t.stop < t.start := by
  refine ⟨_, List.mem_map_of_mem (List.mem_range.mpr (show 2^32-1-stop < n by omega)), ?_⟩
  show (stop+(2^32-1-stop)+1) % 2^32 < (stop+(2^32-1-stop)) % 2^32
  omega

end Insert

section Run

theorem assign_same_shape (m : MutInput) (val : List UInt8) :
    MutInputLens.SameShape m (assign m val) := by
  have h := apply_same_shape (show apply m (.assign val) = some (assign m val) from rfl)
  exact ⟨h.1, h.2⟩

theorem execute_returns {h : Handler} (ha : Apart h.offsets) :
    ∃ m, getFInput h = some m ∧ m.value.length = valLen h.offsets ∧
      ∀ m', MutInputLens.SameShape m m' → ∃ h', executeInput h m' = some h' := by
  obtain ⟨m, hm, -, hwrite⟩ := write_to_input_lens ha h.buf
  refine ⟨m, hm, get_f_input_length hm, ?_⟩
  intro m' hm'
  obtain ⟨out, hout, -⟩ := hwrite m' hm'
  exact ⟨{ h with buf := out }, by rw [executeInput, hout]; rfl⟩

theorem apart_readable {h : Handler} (ha : Apart h.offsets) : (getFInput h).isSome := by
  obtain ⟨m, hm, -⟩ := execute_returns ha
  rw [hm]
  rfl

/-- The value can be read after resizing exactly when `ok` holds, and then it has
`size` bytes. -/
structure Resized (r : Option Handler) (size : ℕ) (ok : Prop) : Prop where
  spec : ∀ h', r = some h' → (getFInput h').isSome → Apart h'.offsets ∧ valLen h'.offsets = size
  returns : (∃ h', r = some h' ∧ (getFInput h').isSome) ↔ ok

section Resize
variable (buf : List UInt8) {offsets : List TagSeg}

theorem insert_resized (h : Apart offsets) (hne : offsets ≠ []) (hext : extent offsets < 2^32)
    (n : ℕ) : Resized (insertBytes ⟨buf, offsets⟩ n) (valLen offsets+n)
      (extent offsets+n < 2^32) := by
  obtain ⟨buf', hins⟩ := insert_bytes_some buf h hne n
  by_cases hfit : extent offsets+n < 2^32
  · rw [pushed_narrow hfit] at hins
    have hapart := pushed_apart h n
    rw [hins]
    constructor
    · intro h' heq _
      rw [← Option.some.inj heq]
      refine ⟨hapart, ?_⟩
      show valLen (offsets ++ pushed (extent offsets) n) = valLen offsets+n
      rw [val_len_append, pushed_val_len]
    · exact ⟨fun _ => hfit, fun _ => ⟨_, rfl, apart_readable hapart⟩⟩
  · obtain ⟨t, ht, hwrap⟩ := pushed_wraps hext (show 2^32 ≤ extent offsets+n by omega)
    have hnone : ∀ h', insertBytes ⟨buf, offsets⟩ n = some h' → ¬ (getFInput h').isSome := by
      intro h' heq hsome
      rw [hins] at heq
      rw [← Option.some.inj heq] at hsome
      have hall := (from_offsets_returns _ _).mp hsome t (List.mem_append_right _ ht)
      omega
    constructor
    · exact fun h' heq hsome => absurd hsome (hnone h' heq)
    · constructor
      · rintro ⟨h', heq, hsome⟩
        exact absurd hsome (hnone h' heq)
      · exact fun hok => absurd hok hfit

theorem remove_resized (h : Apart offsets) (hn : Narrow offsets) {n : ℕ} (hpos : 0 < n)
    (hle : n ≤ valLen offsets) :
    Resized (removeBytes ⟨buf, offsets⟩ n) (valLen offsets-n) (Removable buf offsets n) := by
  have hrem := remove_bytes_returns n buf offsets h hn hle
  constructor
  · intro h' heq _
    have hspec := hrem.1 h' heq
    exact ⟨hspec.1, by omega⟩
  · constructor
    · rintro ⟨h', heq, -⟩
      rcases hrem.2.mp (by rw [heq]; rfl) with hzero | hok
      · omega
      · exact hok
    · intro hok
      obtain ⟨h', heq⟩ := Option.isSome_iff_exists.mp (hrem.2.mpr (Or.inr hok))
      exact ⟨h', heq, apart_readable (hrem.1 h' heq).1⟩

/-- What resizing needs: the pushed segments fit their type, and the removed bytes
lie in the buffer. -/
def Resizable (offsets : List TagSeg) (size : ℕ) : Prop :=
  (valLen offsets < size → extent offsets+(size-valLen offsets) < 2^32) ∧
    (size < valLen offsets → Removable buf offsets (valLen offsets-size))

theorem resize_resized (h : Apart offsets) (hne : offsets ≠ []) (hn : Narrow offsets) (size : ℕ) :
    Resized (resizeInput ⟨buf, offsets⟩ (valLen offsets) size) size
      (Resizable buf offsets size) := by
  have hext : extent offsets < 2^32 := extent_lt (by decide) hn
  rw [resizeInput]
  split_ifs with hlt hgt
  · have hins := insert_resized buf h hne hext (size-valLen offsets)
    rw [show valLen offsets+(size-valLen offsets) = size by omega] at hins
    refine ⟨hins.spec, hins.returns.trans ?_⟩
    exact ⟨fun hok => ⟨fun _ => hok, fun hgt => by omega⟩, fun hok => hok.1 hlt⟩
  · have hrem := remove_resized buf h hn (n := valLen offsets-size) (by omega) (by omega)
    rw [show valLen offsets-(valLen offsets-size) = size by omega] at hrem
    refine ⟨hrem.spec, hrem.returns.trans ?_⟩
    exact ⟨fun hok => ⟨fun hlt' => absurd hlt' hlt, fun _ => hok⟩, fun hok => hok.2 hgt⟩
  · constructor
    · intro h' heq _
      rw [← Option.some.inj heq]
      exact ⟨h, by show valLen offsets = size; omega⟩
    · exact ⟨fun _ => ⟨fun hlt' => absurd hlt' hlt, fun hgt' => absurd hgt' hgt⟩,
        fun _ => ⟨_, rfl, apart_readable h⟩⟩

end Resize

/-- `FnFuzz::run` completes, with as many bytes behind the adjusted segments as its
assertion asks for, exactly when the segments can be resized. -/
theorem fn_fuzz_safe_iff {c : CondStmt} (hne : c.offsets ≠ []) (h : Apart c.offsets)
    (hn : Narrow c.offsets) (hvars : c.base.size ≤ c.vars.length) (buf : List UInt8) :
    (∃ input h' input', getFInput ⟨buf, c.offsets⟩ = some input ∧
      resizeInput ⟨buf, c.offsets⟩ input.value.length c.base.size = some h' ∧
      getFInput h' = some input' ∧ input'.value.length = c.base.size ∧
      ∃ out, fnFuzz c buf = some out) ↔ Resizable buf c.offsets c.base.size := by
  have hresize := resize_resized buf h hne hn c.base.size
  obtain ⟨input, hinput, hlen, -⟩ := execute_returns (h := ⟨buf, c.offsets⟩) h
  constructor
  · rintro ⟨input1, h', input', hinput1, hres, hinput', -⟩
    rw [← Option.some.inj (hinput.symm.trans hinput1), hlen] at hres
    exact hresize.returns.mp ⟨h', hres, by rw [hinput']; rfl⟩
  · intro hres
    obtain ⟨h', heq, hsome⟩ := hresize.returns.mpr hres
    have hspec := hresize.spec h' heq hsome
    obtain ⟨input', hinput', hlen', hwrite⟩ := execute_returns hspec.1
    refine ⟨input, h', input', hinput, by rw [hlen]; exact heq, hinput', by rw [hlen', hspec.2], ?_⟩
    obtain ⟨h'', hexec⟩ := hwrite _ (assign_same_shape input'
      (shiftVars (c.vars.take c.base.size) (c.vars.drop c.base.size) input'.value))
    refine ⟨h''.buf, ?_⟩
    have hlen0 : input.value.length = valLen c.offsets := hlen
    simp only [fnFuzz, hinput, Option.bind_some, hlen0, heq, hinput']
    rw [if_neg (by omega), if_pos (by rw [hlen', hspec.2]), hexec]
    rfl

def fnStmt (size : ℕ) (offsets : List TagSeg) (vars : List UInt8) : CondStmt where
  base := ⟨1, 0, 0, 1, 0, COND_FALSE_ST, 0, COND_FN_OP, size, 1, 0, 0, 0⟩
  offsets := offsets
  offsetsOpt := []
  vars := vars
  speed := 0
  isDesirable := true
  state := .offset

/-- Two of four bytes are removed, the second of them across the end of a segment. -/
theorem fn_fuzz_safe_iff_shorter :
    let c := fnStmt 2 [⟨false, 0, 3⟩, ⟨false, 4, 5⟩] [7, 8]
    c.offsets ≠ [] ∧ Apart c.offsets ∧ Narrow c.offsets ∧ c.base.size ≤ c.vars.length ∧
    ∃ input h' input', getFInput ⟨[1, 2, 3, 4, 5], c.offsets⟩ = some input ∧
      resizeInput ⟨[1, 2, 3, 4, 5], c.offsets⟩ input.value.length c.base.size = some h' ∧
      getFInput h' = some input' ∧ input'.value.length = c.base.size ∧
      ∃ out, fnFuzz c [1, 2, 3, 4, 5] = some out := by
  refine ⟨by decide, by decide, by decide, by decide, ?_⟩
  apply (fn_fuzz_safe_iff (c := fnStmt 2 [⟨false, 0, 3⟩, ⟨false, 4, 5⟩] [7, 8]) (by decide)
    (by decide) (by decide) (by decide) [1, 2, 3, 4, 5]).mpr
  simp [Resizable, Removable, fnStmt, valLen]

/-- Four tainted bytes of which a file of one byte has the first only, compared with a
text of two. -/
theorem fn_fuzz_past_end_panics :
    let c := fnStmt 2 [⟨false, 0, 4⟩] [7, 8]
    c.offsets ≠ [] ∧ Apart c.offsets ∧ Narrow c.offsets ∧ c.base.size ≤ c.vars.length ∧
      fnFuzz c [1] = none := by
  decide

end Run

end Parmesan.CmpFn
