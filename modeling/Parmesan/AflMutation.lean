import Parmesan.SearchLength

/-!
# The mutations of a whole buffer

`search/afl.rs`. `splice_two_vec` joins two seeds between the first and the last
byte in which they differ, `havoc_flip` stacks small changes on one seed.
-/

set_option autoImplicit false

namespace Parmesan.AflMutation
open Parmesan.MutInputModel Parmesan.SearchModel Parmesan.SearchLength
open Parmesan.AflSync (maxInputLen)

section Splice

def diffsBelow (buf1 buf2 : List UInt8) (len : ℕ) : List ℕ :=
  (List.range len).filter fun i => buf1[i]? ≠ buf2[i]?

def diffs (buf1 buf2 : List UInt8) : List ℕ :=
  diffsBelow buf1 buf2 (min buf1.length buf2.length)

theorem mem_diffs_below {buf1 buf2 : List UInt8} {len i : ℕ} :
    i ∈ diffsBelow buf1 buf2 len ↔ i < len ∧ buf1[i]? ≠ buf2[i]? := by
  simp [diffsBelow]

theorem locate_diffs_eq (buf1 buf2 : List UInt8) (len : ℕ) :
    locateDiffs buf1 buf2 len =
      ((diffsBelow buf1 buf2 len).head?, (diffsBelow buf1 buf2 len).getLast?) := by
  induction len with
  | zero => rfl
  | succ i ih =>
    have hsucc : diffsBelow buf1 buf2 (i+1) =
        diffsBelow buf1 buf2 i ++ if buf1[i]? ≠ buf2[i]? then [i] else [] := by
      rw [diffsBelow, diffsBelow, List.range_succ, List.filter_append]
      by_cases hdiff : buf1[i]? = buf2[i]? <;> simp [hdiff]
    rw [locateDiffs, ih, hsucc]
    split_ifs with hdiff
    · rw [List.getLast?_concat]
      cases diffsBelow buf1 buf2 i <;> rfl
    · rw [List.append_nil]

theorem diffs_increasing (buf1 buf2 : List UInt8) :
    (diffs buf1 buf2).Pairwise fun i j => i < j :=
  List.Pairwise.filter _ List.pairwise_lt_range

section Ends
variable {buf1 buf2 : List UInt8} {f l : ℕ}

theorem head_le_diffs (hf : (diffs buf1 buf2).head? = some f) :
    ∀ i ∈ diffs buf1 buf2, f ≤ i := by
  have hinc := diffs_increasing buf1 buf2
  cases hlist : diffs buf1 buf2 with
  | nil => simp
  | cons d ds =>
    rw [hlist] at hf hinc
    have hd : d = f := Option.some.inj hf
    intro i hi
    rcases List.mem_cons.mp hi with heq | hi
    · omega
    · have hlt := (List.pairwise_cons.mp hinc).1 i hi
      omega

theorem ends_lt_iff (hf : (diffs buf1 buf2).head? = some f)
    (hl : (diffs buf1 buf2).getLast? = some l) : f ≠ l ↔ 2 ≤ (diffs buf1 buf2).length := by
  have hinc := diffs_increasing buf1 buf2
  cases hlist : diffs buf1 buf2 with
  | nil =>
    rw [hlist] at hf
    cases hf
  | cons d ds =>
    rw [hlist] at hf hl hinc
    have hd : d = f := Option.some.inj hf
    cases ds with
    | nil =>
      have hd' : d = l := Option.some.inj hl
      simp [← hd, ← hd']
    | cons e ds =>
      rw [List.getLast?_cons_cons] at hl
      have hlt := (List.pairwise_cons.mp hinc).1 l (List.mem_of_getLast? hl)
      simp only [List.length_cons]
      omega

theorem diffs_length_le (buf1 buf2 : List UInt8) :
    (diffs buf1 buf2).length ≤ min buf1.length buf2.length := by
  have hle := List.length_filter_le (fun i => buf1[i]? ≠ buf2[i]?)
    (List.range (min buf1.length buf2.length))
  rw [List.length_range] at hle
  exact hle

theorem splice_two_vec_some (draw : ℕ) {v : List UInt8} :
    spliceTwoVec buf1 buf2 draw = some v ↔
      ∃ f l, (diffs buf1 buf2).head? = some f ∧ (diffs buf1 buf2).getLast? = some l ∧ f ≠ l ∧
        v = buf1.take (f+draw % (l-f)) ++ buf2.drop (f+draw % (l-f)) := by
  have hlen := diffs_length_le buf1 buf2
  have hdiffs : diffsBelow buf1 buf2 (min buf1.length buf2.length) = diffs buf1 buf2 := rfl
  simp only [spliceTwoVec, locate_diffs_eq, hdiffs]
  cases hf : (diffs buf1 buf2).head? with
  | none => simp
  | some f =>
    cases hl : (diffs buf1 buf2).getLast? with
    | none => simp
    | some l =>
      have hends := ends_lt_iff hf hl
      by_cases hne : f = l
      · simp [hne]
      · have htwo := hends.mp hne
        rw [if_neg (by omega)]
        simp [hne, eq_comm]

theorem splice_two_vec_none {draw : ℕ} (h : spliceTwoVec buf1 buf2 draw = none) :
    (diffs buf1 buf2).length < 2 := by
  by_contra htwo
  have hne : diffs buf1 buf2 ≠ [] := List.ne_nil_of_length_pos (by omega)
  obtain ⟨f, hf⟩ := Option.isSome_iff_exists.mp (List.isSome_head?.mpr hne)
  obtain ⟨l, hl⟩ := Option.isSome_iff_exists.mp (List.getLast?_isSome.mpr hne)
  have hends := (ends_lt_iff hf hl).mpr (by omega)
  have hsome := (splice_two_vec_some draw).mpr ⟨f, l, hf, hl, hends, rfl⟩
  rw [h] at hsome
  cases hsome

theorem joined_get (buf2 : List UInt8) {s : ℕ} (hs : s ≤ buf1.length) (i : ℕ) :
    (buf1.take s ++ buf2.drop s)[i]? = if i < s then buf1[i]? else buf2[i]? := by
  have hlen : (buf1.take s).length = s := by rw [List.length_take, min_eq_left hs]
  split_ifs with hi
  · rw [List.getElem?_append_left (by omega), List.getElem?_take_of_lt hi]
  · rw [List.getElem?_append_right (by omega), hlen, List.getElem?_drop]
    congr 1
    omega

/-- Nothing differs before the first difference, so a split there copies the second
buffer; the last difference keeps every split apart from the first one. -/
theorem joined_new_iff {s : ℕ} (hf : (diffs buf1 buf2).head? = some f)
    (hl : (diffs buf1 buf2).getLast? = some l) (hs : f ≤ s ∧ s ≤ l) :
    buf1.take s ++ buf2.drop s ≠ buf1 ∧ (buf1.take s ++ buf2.drop s ≠ buf2 ↔ s ≠ f) := by
  have hlast := mem_diffs_below.mp (List.mem_of_getLast? hl)
  have hfirst := mem_diffs_below.mp (List.mem_of_head? hf)
  have hget := joined_get buf2 (show s ≤ buf1.length by omega)
  constructor
  · intro heq
    have hat := hget l
    rw [heq, if_neg (by omega)] at hat
    exact hlast.2 hat
  · constructor
    · intro hne heq
      apply hne
      apply List.ext_getElem?
      intro i
      rw [hget i]
      split_ifs with hi
      · by_contra hdiff
        have hmem : i ∈ diffs buf1 buf2 := mem_diffs_below.mpr ⟨by omega, hdiff⟩
        have hle := head_le_diffs hf i hmem
        omega
      · rfl
    · intro hne heq
      have hat := hget f
      rw [heq, if_pos (by omega)] at hat
      exact hfirst.2 hat.symm

end Ends

/-- What is spliced has the length of the second buffer, the bytes of the first one
before the split point and those of the second one from it on, and `None` is kept for
buffers without two differences. It is new exactly when the draw does not fall on the
first difference. -/
theorem splice_two_vec_iff (buf1 buf2 : List UInt8) (draw : ℕ) :
    ((∀ v, spliceTwoVec buf1 buf2 draw = some v →
      v.length = buf2.length ∧ (∀ i < v.length, v[i]? = buf1[i]? ∨ v[i]? = buf2[i]?) ∧
      (∃ f l, (diffs buf1 buf2).head? = some f ∧ (diffs buf1 buf2).getLast? = some l ∧
        (∀ i < f+draw % (l-f), v[i]? = buf1[i]?) ∧
        ∀ i, f+draw % (l-f) ≤ i → v[i]? = buf2[i]?) ∧
      v ≠ buf1 ∧ v ≠ buf2) ∧
    (spliceTwoVec buf1 buf2 draw = none →
      min buf1.length buf2.length < 2 ∨ (diffs buf1 buf2).length < 2)) ↔
    ∀ f l, (diffs buf1 buf2).head? = some f → (diffs buf1 buf2).getLast? = some l → f < l →
      draw % (l-f) ≠ 0 := by
  constructor
  · rintro ⟨hsome, -⟩ f l hf hl hlt hzero
    have hv := (splice_two_vec_some draw).mpr ⟨f, l, hf, hl, hlt.ne, rfl⟩
    obtain ⟨-, -, -, -, hnew⟩ := hsome _ hv
    exact ((joined_new_iff hf hl ⟨by omega, by omega⟩).2.mp hnew) (by omega)
  · intro hdraw
    refine ⟨?_, fun hnone => Or.inr (splice_two_vec_none hnone)⟩
    intro v hv
    have hlength := splice_two_vec_length hv
    obtain ⟨f, l, hf, hl, hne, hv⟩ := (splice_two_vec_some draw).mp hv
    have hle := head_le_diffs hf l (List.mem_of_getLast? hl)
    have hlast := mem_diffs_below.mp (List.mem_of_getLast? hl)
    have hmod := Nat.mod_lt draw (show 0 < l-f by omega)
    have hget := joined_get buf2 (show f+draw % (l-f) ≤ buf1.length by omega)
    have hnew := joined_new_iff hf hl (show f ≤ f+draw % (l-f) ∧ f+draw % (l-f) ≤ l by omega)
    have hoff := hdraw f l hf hl (by omega)
    rw [← hv] at hget hnew
    refine ⟨hlength, ?_, ⟨f, l, hf, hl, ?_, ?_⟩, hnew.1, hnew.2.mpr (by omega)⟩
    · intro i _
      rw [hget i]
      split_ifs
      · exact Or.inl rfl
      · exact Or.inr rfl
    · intro i hi
      rw [hget i, if_pos hi]
    · intro i hi
      rw [hget i, if_neg (by omega)]

/-- The buffers of the test of `splice_two_vec`: every draw gives the second one. -/
theorem splice_copies_parent :
    ¬ ∀ v, spliceTwoVec [1, 2, 3, 4, 5] [1, 2, 2, 2, 5, 6] 7 = some v →
      v ≠ [1, 2, 3, 4, 5] ∧ v ≠ [1, 2, 2, 2, 5, 6] := by
  intro h
  exact (h [1, 2, 2, 2, 5, 6] (by decide)).2 rfl

end Splice

section Havoc

def ENABLE_MICRO_RANDOM_LEN : Bool := true

def maxChoice : ℕ := if ENABLE_MICRO_RANDOM_LEN then 8 else 6

/-- `gen_range` of a generator whose next raw value is `raw`; an empty range panics. -/
def genRange (raw lo hi : ℕ) : Option ℕ := if lo < hi then some (lo+raw % (hi-lo)) else none

theorem gen_range_some (raw : ℕ) {lo hi : ℕ} (h : lo < hi) :
    ∃ n, genRange raw lo hi = some n ∧ lo ≤ n ∧ n < hi := by
  have hmod := Nat.mod_lt raw (show 0 < hi-lo by omega)
  exact ⟨_, if_pos h, by omega, by omega⟩

section Draw
variable (byteLen : ℕ) (raw : ℕ → ℕ)

def drawFlip : Option Havoc :=
  (genRange (raw 1) 0 byteLen).bind fun byteIdx =>
    (genRange (raw 2) 0 8).map fun bitIdx => .flip byteIdx bitIdx

def drawArith : Option Havoc :=
  (genRange (raw 1) 0 3).bind fun n =>
    IDX_TO_SIZE[n]?.bind fun size =>
      if size < byteLen then
        (genRange (raw 2) 0 (byteLen-size)).bind fun byteIdx =>
          (genRange (raw 3) 0 MUTATE_ARITH_MAX).map fun v => .arith n byteIdx v (raw 4 % 2 = 1)
      -- the guard skips the round before a position is drawn
      else some (.arith n 0 0 false)

def drawInteresting : Option Havoc :=
  (genRange (raw 1) 0 3).bind fun n =>
    IDX_TO_SIZE[n]?.bind fun size =>
      if size < byteLen then
        (genRange (raw 2) 0 (byteLen-size)).bind fun byteIdx =>
          (genRange (raw 3) 0 (getInterestingBytes size).length).map fun wh =>
            .interesting n byteIdx wh
      else some (.interesting n 0 0)

def drawRandomByte : Option Havoc :=
  (genRange (raw 1) 0 byteLen).map fun byteIdx => .randomByte byteIdx (.ofNat (raw 2))

def drawDelete : Option Havoc :=
  (genRange (raw 1) 1 5).bind fun removeLen =>
    if removeLen < byteLen then
      (genRange (raw 2) 0 (byteLen-removeLen)).map fun byteIdx => .delete removeLen byteIdx
    else some (.delete removeLen 0)

def drawInsert : Option Havoc :=
  (genRange (raw 1) 1 5).bind fun addLen =>
    if byteLen+addLen < maxInputLen then
      (genRange (raw 2) 0 byteLen).map fun byteIdx =>
        .insert addLen byteIdx fun i => .ofNat (raw (3+i))
    else some (.insert addLen 0 fun _ => 0)

def drawRound : Option Havoc :=
  (genRange (raw 0) 0 maxChoice).bind fun choice =>
    match choice with
    | 0 | 1 => drawFlip byteLen raw
    | 2 | 3 => drawArith byteLen raw
    | 4 => drawInteresting byteLen raw
    | 5 => drawRandomByte byteLen raw
    | 6 => drawDelete byteLen raw
    | _ => drawInsert byteLen raw

end Draw

def havocStep (st : List UInt8 × ℕ) (raw : ℕ → ℕ) : Option (List UInt8 × ℕ) :=
  (drawRound st.2 raw).bind (havocRound st)

def havocAt (buf : List UInt8) (raw : ℕ → ℕ → ℕ) : ℕ → Option (List UInt8 × ℕ)
  | 0 => some (buf, buf.length % 2^32)
  | k+1 => (havocAt buf raw k).bind fun st => havocStep st (raw k)

def useStacking (buf : List UInt8) (stack : ℕ) : ℕ := 1+stack % havocStacking buf

/-- `havoc_flip`, with the raw values of the generator. -/
def havocDrawn (buf : List UInt8) (stack : ℕ) (raw : ℕ → ℕ → ℕ) : Option (List UInt8) :=
  (havocAt buf raw (useStacking buf stack)).map Prod.fst

theorem havoc_at_rounds {buf : List UInt8} {raw : ℕ → ℕ → ℕ} (k : ℕ) (st : List UInt8 × ℕ)
    (h : havocAt buf raw k = some st) :
    ∃ rounds : List Havoc, rounds.length = k ∧
      rounds.foldlM havocRound (buf, buf.length % 2^32) = some st := by
  induction k generalizing st with
  | zero => exact ⟨[], rfl, h⟩
  | succ k ih =>
    obtain ⟨st', hst', h⟩ := Option.bind_eq_some_iff.mp h
    obtain ⟨rounds, hlen, hrun⟩ := ih st' hst'
    obtain ⟨r, -, hr⟩ := Option.bind_eq_some_iff.mp h
    refine ⟨rounds ++ [r], by rw [List.length_append, hlen]; rfl, ?_⟩
    rw [List.foldlM_append, hrun]
    show [r].foldlM havocRound st' = some st
    rw [List.foldlM_cons, hr]
    rfl

theorem havoc_drawn_flip {buf out : List UInt8} {stack : ℕ} {raw : ℕ → ℕ → ℕ}
    (h : havocDrawn buf stack raw = some out) : ∃ rounds, havocFlip buf rounds = some out := by
  obtain ⟨st, hst, hout⟩ := Option.map_eq_some_iff.mp h
  obtain ⟨rounds, hlen, hrun⟩ := havoc_at_rounds _ st hst
  have hstack : 0 < havocStacking buf := by
    unfold havocStacking
    split_ifs <;> decide
  have hmod := Nat.mod_lt stack hstack
  refine ⟨rounds, ?_⟩
  rw [havocFlip, if_pos (by rw [hlen, useStacking]; omega), hrun, Option.map_some, hout]

def InRange (byteLen : ℕ) : Havoc → Prop
  | .flip byteIdx bitIdx => byteIdx < byteLen ∧ bitIdx < 8
  | .arith n byteIdx v _ => ∃ size, n < 3 ∧ IDX_TO_SIZE[n]? = some size ∧ IsWidth size ∧
      (size < byteLen → byteIdx < byteLen-size ∧ v < MUTATE_ARITH_MAX)
  | .interesting n byteIdx wh => ∃ size, n < 3 ∧ IDX_TO_SIZE[n]? = some size ∧ IsWidth size ∧
      (size < byteLen → byteIdx < byteLen-size ∧ wh < (getInterestingBytes size).length)
  | .randomByte byteIdx _ => byteIdx < byteLen
  | .delete removeLen byteIdx =>
    (1 ≤ removeLen ∧ removeLen < 5) ∧ (removeLen < byteLen → byteIdx < byteLen-removeLen)
  | .insert addLen byteIdx _ =>
    (1 ≤ addLen ∧ addLen < 5) ∧ (byteLen+addLen < maxInputLen → byteIdx < byteLen)

theorem drawn_size {n : ℕ} (hn : n < 3) : ∃ size, IDX_TO_SIZE[n]? = some size ∧ IsWidth size := by
  have hcases : n = 0 ∨ n = 1 ∨ n = 2 := by omega
  rcases hcases with hn | hn | hn <;> rw [hn] <;> exact ⟨_, rfl, by decide⟩

theorem interesting_bytes_some {size : ℕ} (h : IsWidth size) :
    0 < (getInterestingBytes size).length := by
  rcases h with h | h | h | h <;> rw [h] <;> decide

section Draw
variable {byteLen : ℕ} (raw : ℕ → ℕ)

theorem draw_flip_in_range (h : 0 < byteLen) :
    ∃ r, drawFlip byteLen raw = some r ∧ InRange byteLen r := by
  obtain ⟨i, hi, -, hilt⟩ := gen_range_some (raw 1) h
  obtain ⟨b, hb, -, hblt⟩ := gen_range_some (raw 2) (show 0 < 8 by decide)
  exact ⟨.flip i b, by rw [drawFlip, hi, hb]; rfl, hilt, hblt⟩

theorem draw_arith_in_range : ∃ r, drawArith byteLen raw = some r ∧ InRange byteLen r := by
  obtain ⟨n, hn, -, hnlt⟩ := gen_range_some (raw 1) (show 0 < 3 by decide)
  obtain ⟨size, hsize, hw⟩ := drawn_size hnlt
  rw [drawArith, hn, Option.bind_some, hsize, Option.bind_some]
  split_ifs with hroom
  · obtain ⟨i, hi, -, hilt⟩ := gen_range_some (raw 2) (show 0 < byteLen-size by omega)
    obtain ⟨v, hv, -, hvlt⟩ := gen_range_some (raw 3) (show 0 < MUTATE_ARITH_MAX by decide)
    rw [hi, hv]
    exact ⟨_, rfl, size, hnlt, hsize, hw, fun _ => ⟨hilt, hvlt⟩⟩
  · exact ⟨_, rfl, size, hnlt, hsize, hw, fun hlt => absurd hlt hroom⟩

theorem draw_interesting_in_range :
    ∃ r, drawInteresting byteLen raw = some r ∧ InRange byteLen r := by
  obtain ⟨n, hn, -, hnlt⟩ := gen_range_some (raw 1) (show 0 < 3 by decide)
  obtain ⟨size, hsize, hw⟩ := drawn_size hnlt
  rw [drawInteresting, hn, Option.bind_some, hsize, Option.bind_some]
  split_ifs with hroom
  · obtain ⟨i, hi, -, hilt⟩ := gen_range_some (raw 2) (show 0 < byteLen-size by omega)
    obtain ⟨wh, hwh, -, hwhlt⟩ := gen_range_some (raw 3) (interesting_bytes_some hw)
    rw [hi, Option.bind_some, hwh]
    exact ⟨_, rfl, size, hnlt, hsize, hw, fun _ => ⟨hilt, hwhlt⟩⟩
  · exact ⟨_, rfl, size, hnlt, hsize, hw, fun hlt => absurd hlt hroom⟩

theorem draw_random_byte_in_range (h : 0 < byteLen) :
    ∃ r, drawRandomByte byteLen raw = some r ∧ InRange byteLen r := by
  obtain ⟨i, hi, -, hilt⟩ := gen_range_some (raw 1) h
  exact ⟨.randomByte i (.ofNat (raw 2)), by rw [drawRandomByte, hi]; rfl, hilt⟩

theorem draw_delete_in_range : ∃ r, drawDelete byteLen raw = some r ∧ InRange byteLen r := by
  obtain ⟨n, hn, hpos, hnlt⟩ := gen_range_some (raw 1) (show 1 < 5 by decide)
  rw [drawDelete, hn, Option.bind_some]
  split_ifs with hroom
  · obtain ⟨i, hi, -, hilt⟩ := gen_range_some (raw 2) (show 0 < byteLen-n by omega)
    rw [hi]
    exact ⟨_, rfl, ⟨hpos, hnlt⟩, fun _ => hilt⟩
  · exact ⟨_, rfl, ⟨hpos, hnlt⟩, fun hlt => absurd hlt hroom⟩

theorem draw_insert_in_range (h : 0 < byteLen) :
    ∃ r, drawInsert byteLen raw = some r ∧ InRange byteLen r := by
  obtain ⟨n, hn, hpos, hnlt⟩ := gen_range_some (raw 1) (show 1 < 5 by decide)
  obtain ⟨i, hi, -, hilt⟩ := gen_range_some (raw 2) h
  rw [drawInsert, hn, Option.bind_some]
  split_ifs with hroom
  · rw [hi]
    exact ⟨_, rfl, ⟨hpos, hnlt⟩, fun _ => hilt⟩
  · exact ⟨_, rfl, ⟨hpos, hnlt⟩, fun hlt => absurd hlt hroom⟩

theorem draw_round_in_range (h : 0 < byteLen) :
    ∃ r, drawRound byteLen raw = some r ∧ InRange byteLen r := by
  obtain ⟨choice, hchoice, -, -⟩ := gen_range_some (raw 0) (show 0 < maxChoice by decide)
  rw [drawRound, hchoice, Option.bind_some]
  split
  · exact draw_flip_in_range raw h
  · exact draw_flip_in_range raw h
  · exact draw_arith_in_range raw
  · exact draw_arith_in_range raw
  · exact draw_interesting_in_range raw
  · exact draw_random_byte_in_range raw h
  · exact draw_delete_in_range raw
  · exact draw_insert_in_range raw h

end Draw

theorem set_val_some {buf : List UInt8} {off size : ℕ} (hw : IsWidth size)
    (hfit : off+size ≤ buf.length) (val : ℕ) : ∃ buf', setValInBuf buf off size val = some buf' :=
  ⟨_, if_pos ⟨hw, hfit⟩⟩

theorem havoc_round_returns {st : List UInt8 × ℕ} (h : Tracked st) (hne : 0 < st.2) {r : Havoc}
    (hr : InRange st.2 r) : ∃ st', havocRound st r = some st' ∧ 0 < st'.2 := by
  have hlen := h.length_eq
  cases r with
  | flip byteIdx bitIdx =>
    have hdraw : byteIdx < st.2 ∧ bitIdx < 8 := hr
    rw [havocRound, if_pos hdraw, List.getElem?_eq_getElem (hlen ▸ hdraw.1)]
    exact ⟨_, rfl, hne⟩
  | arith n byteIdx v direction =>
    obtain ⟨size, hn, hsize, hw, hin⟩ := hr
    rw [havocRound, if_pos hn, hsize, Option.bind_some]
    split_ifs with hroom hdraw
    · have hfit : byteIdx+size ≤ st.1.length := by omega
      obtain ⟨buf, hbuf⟩ := set_val_some hw hfit
        (wrapping false size direction (Bytes.leValue (Bytes.slice st.1 byteIdx size)) v)
      have hupdate : updateValInBuf st.1 false byteIdx size direction v = some buf := by
        rw [updateValInBuf, readValFromBuf, if_pos ⟨hw, hfit⟩, Option.bind_some, hbuf]
      rw [hupdate]
      exact ⟨_, rfl, hne⟩
    · exact absurd (hin hroom) hdraw
    · exact ⟨_, rfl, hne⟩
  | interesting n byteIdx wh =>
    obtain ⟨size, hn, hsize, hw, hin⟩ := hr
    rw [havocRound, if_pos hn, hsize, Option.bind_some]
    split_ifs with hroom hdraw
    · have hfit : byteIdx+size ≤ st.1.length := by omega
      obtain ⟨val, hval⟩ : ∃ val, (getInterestingBytes size)[wh]? = some val :=
        ⟨_, List.getElem?_eq_getElem (hin hroom).2⟩
      obtain ⟨buf, hbuf⟩ := set_val_some hw hfit val
      rw [hval, Option.bind_some, hbuf]
      exact ⟨_, rfl, hne⟩
    · exact absurd (hin hroom).1 hdraw
    · exact ⟨_, rfl, hne⟩
  | randomByte byteIdx val =>
    have hdraw : byteIdx < st.2 := hr
    rw [havocRound, if_pos ⟨hdraw, hlen ▸ hdraw⟩]
    exact ⟨_, rfl, hne⟩
  | delete removeLen byteIdx =>
    rw [havocRound, if_pos hr.1]
    split_ifs with hroom hdraw
    · exact ⟨_, rfl, by show 0 < st.2-removeLen; omega⟩
    · have hidx := hr.2 hroom
      omega
    · exact ⟨_, rfl, hne⟩
  | insert addLen byteIdx fill =>
    rw [havocRound, if_pos hr.1]
    split_ifs with hroom hdraw
    · exact ⟨_, rfl, by show 0 < st.2+addLen; omega⟩
    · have hidx := hr.2 hroom
      omega
    · exact ⟨_, rfl, hne⟩

theorem havoc_step_returns {st : List UInt8 × ℕ} (h : Tracked st) (hne : 0 < st.2) (raw : ℕ → ℕ) :
    ∃ st', havocStep st raw = some st' ∧ Tracked st' ∧ 0 < st'.2 := by
  obtain ⟨r, hr, hin⟩ := draw_round_in_range raw hne
  obtain ⟨st', hst', hpos⟩ := havoc_round_returns h hne hin
  refine ⟨st', ?_, havoc_round_tracked r st st' hst' h, hpos⟩
  rw [havocStep, hr, Option.bind_some, hst']

theorem havoc_at_returns {buf : List UInt8} (h : buf.length < maxInputLen) (hne : buf ≠ [])
    (raw : ℕ → ℕ → ℕ) (k : ℕ) : ∃ st, havocAt buf raw k = some st ∧ Tracked st ∧ 0 < st.2 := by
  induction k with
  | zero =>
    have hstart := tracked_start h
    refine ⟨_, rfl, hstart, ?_⟩
    rw [hstart.length_eq]
    exact List.length_pos_iff.mpr hne
  | succ k ih =>
    obtain ⟨st, hst, htracked, hpos⟩ := ih
    rw [havocAt, hst, Option.bind_some]
    exact havoc_step_returns htracked hpos (raw k)

theorem havoc_round_empty {r : Havoc} {st : List UInt8 × ℕ}
    (h : havocRound ([], 0) r = some st) : st = ([], 0) := by
  cases r <;> simp only [havocRound] at h
  case flip => simp at h
  case randomByte => simp at h
  case insert =>
    split_ifs at h with h1 h2 h3
    · omega
    · exact (Option.some.inj h).symm
  case delete =>
    split_ifs at h with h1 h2 h3
    · omega
    · exact (Option.some.inj h).symm
  all_goals
    split_ifs at h
    obtain ⟨size, -, h⟩ := Option.bind_eq_some_iff.mp h
    simpa [eq_comm] using h

theorem havoc_at_empty (raw : ℕ → ℕ → ℕ) (k : ℕ) (st : List UInt8 × ℕ)
    (h : havocAt [] raw k = some st) : st = ([], 0) := by
  induction k generalizing st with
  | zero => exact (Option.some.inj h).symm
  | succ k ih =>
    obtain ⟨st', hst', h⟩ := Option.bind_eq_some_iff.mp h
    rw [ih st' hst'] at h
    obtain ⟨r, -, h⟩ := Option.bind_eq_some_iff.mp h
    exact havoc_round_empty h

/-- Whatever is drawn, `havoc_flip` keeps `byte_len` at the length of the buffer, returns
and leaves a byte exactly when it was given one. -/
theorem havoc_flip_safe_iff {buf : List UInt8} (h : buf.length < maxInputLen) (stack : ℕ)
    (raw : ℕ → ℕ → ℕ) :
    ((∀ k ≤ useStacking buf stack, ∃ st, havocAt buf raw k = some st ∧ st.2 = st.1.length) ∧
      ∃ out, havocDrawn buf stack raw = some out ∧ out ≠ []) ↔ buf ≠ [] := by
  constructor
  · rintro ⟨-, out, hout, hne⟩ hnil
    rw [hnil] at hout
    obtain ⟨st, hst, heq⟩ := Option.map_eq_some_iff.mp hout
    rw [havoc_at_empty raw _ st hst] at heq
    exact hne heq.symm
  · intro hne
    constructor
    · intro k _
      obtain ⟨st, hst, htracked, -⟩ := havoc_at_returns h hne raw k
      exact ⟨st, hst, htracked.length_eq⟩
    · obtain ⟨st, hst, htracked, hpos⟩ := havoc_at_returns h hne raw (useStacking buf stack)
      refine ⟨st.1, by rw [havocDrawn, hst]; rfl, ?_⟩
      rw [htracked.length_eq] at hpos
      exact List.length_pos_iff.mp hpos

theorem havoc_flip_safe_iff_byte :
    [7].length < maxInputLen ∧ ∃ out, havocDrawn [7] 63 (fun k i => k+i) = some out ∧ out ≠ [] := by
  have hlen : ([7] : List UInt8).length < maxInputLen := by decide
  exact ⟨hlen, ((havoc_flip_safe_iff hlen 63 fun k i => k+i).mpr (by decide)).2⟩

/-- The empty file, and a first round that flips a bit. -/
theorem havoc_flip_empty_panics : ([] : List UInt8).length < maxInputLen ∧
    havocDrawn [] 0 (fun _ _ => 0) = none := by decide

end Havoc

end Parmesan.AflMutation
