import Parmesan.CmpFn
import Parmesan.TrackMagic

/-!
# From a call of a compare function to the input that satisfies it

`__dfsw___angora_trace_fn_tt` logs a call, `get_offsets_and_variables` reads it back
as a goal followed by what was observed, and `FnFuzz::run` moves the goal by the
difference between what was observed and the input. With one tainted operand, which
is a bytewise shift of the input, the bytes that are executed shift to the goal.
-/

set_option autoImplicit false

namespace Parmesan.FnMatch
open Parmesan.Bytes Parmesan.Scatter Parmesan.Segments Parmesan.TagSetModel Parmesan.TagSetShape
open Parmesan.CondModel Parmesan.DepotModel Parmesan.CondState Parmesan.TrackModel
open Parmesan.MutInputModel Parmesan.MutInputLens Parmesan.SearchModel Parmesan.SearchLength
open Parmesan.CmpFn
open Parmesan.TrackList (loadCond)
open Parmesan.TrackMagic (fnLabel Paired fn_cond_labels)

def taintedOperand (c : FnCall) : List UInt8 :=
  if 0 < c.lb1 then (operands c).1 else (operands c).2

def otherOperand (c : FnCall) : List UInt8 :=
  if 0 < c.lb1 then (operands c).2 else (operands c).1

section Log

/-- Record `i` of the log is that of the call, and so are its magic bytes. -/
structure FnLogged (data : LogData) (i : ℕ) (c : FnCall) (record : CondStmtBase) : Prop where
  built : ∃ order, record = { fnCond c with order := order }
  listed : data.condList[i]? = some record
  magic : data.magicBytes i = some (operands c)

theorem get_len_cond_plain {lenInfo : List (ℕ × ℕ)} {cond : CondStmtBase}
    (h1 : isLenLabel cond.lb1 = false) (h2 : isLenLabel cond.lb2 = false) :
    getLenCond lenInfo cond = some (cond, none) := by
  rw [getLenCond, h1, h2]
  rfl

/-- The handler logs a call with its operands if its label is plain and the order cap
is not reached. -/
theorem trace_fn_logged {t t' : Tracker} {c : FnCall} (hl : ¬ (c.lb1 = 0 ∧ c.lb2 = 0))
    (hp : Paired t (.fn c)) (h : traceFn t c = some t') :
    ∃ record, FnLogged t'.data t.data.condList.length c record := by
  obtain ⟨hlen, hcap⟩ := hp.resolve_left hl
  rw [traceFn, if_neg hl] at h
  obtain ⟨u, hu, h⟩ := Option.bind_eq_some_iff.mp h
  obtain ⟨hlabel, hplain⟩ := fn_cond_labels hl hlen
  rw [save, if_neg hlabel, get_len_cond_plain hplain.1 hplain.2] at hu
  have hpush := push_cond_spec (show pushCond (getOrder t (fnCond c)).1 (getOrder t (fnCond c)).2.1
    none (getOrder t (fnCond c)).2.2 = some u from hu)
  have hbelow : (getOrder t (fnCond c)).2.2 ≤ MAX_COND_ORDER := hcap
  have hlist : u.data.condList = t.data.condList ++ [(getOrder t (fnCond c)).2.1] := by
    have hrest := hpush.2.2
    rw [if_pos hbelow] at hrest
    exact hrest
  have hpos : 0 < u.data.condList.length := by rw [hlist]; simp
  rw [saveMagicBytes, if_pos hpos] at h
  rw [← Option.some.inj h]
  refine ⟨(getOrder t (fnCond c)).2.1, ⟨_, rfl⟩, ?_, ?_⟩
  · show u.data.condList[t.data.condList.length]? = _
    rw [hlist, List.getElem?_concat_length]
  · show Function.update u.data.magicBytes (u.data.condList.length-1) _ _ = _
    rw [hlist]
    simp

end Log

section Shift

theorem shift_vars_goal {vars output input : List UInt8} {shift : ℕ → UInt8}
    (hshift : ∀ k : ℕ, (input[k]?).map (fun x => x+shift k) = output[k]?)
    (hlen : vars.length = input.length) (k : ℕ) :
    ((shiftVars vars output input)[k]?).map (fun x => x+shift k) = vars[k]? := by
  rw [shiftVars, List.getElem?_map]
  by_cases hk : k < vars.length
  · have hin : input[k]? = some input[k] := List.getElem?_eq_getElem (hlen ▸ hk)
    have hout := hshift k
    rw [hin, Option.map_some] at hout
    have hgoal : vars[k]? = some vars[k] := List.getElem?_eq_getElem hk
    rw [List.getElem?_range hk]
    simp only [Option.map_some, ← hout, hin, hgoal, Option.getD_some]
    rw [UInt8.add_comm input[k], UInt8.add_sub_cancel, UInt8.sub_add_cancel]
  · rw [List.getElem?_eq_none (by rw [List.length_range]; omega), List.getElem?_eq_none (by omega)]
    rfl

theorem shift_vars_length (vars output input : List UInt8) :
    (shiftVars vars output input).length = vars.length := by simp [shiftVars]

theorem assign_whole {m : MutInput} {val : List UInt8} (h : val.length = m.value.length) :
    (assign m val).value = val := by
  simp only [assign, h, min_self]
  split_ifs with hpos
  · rw [List.drop_of_length_le (le_refl _), List.append_nil, List.take_of_length_le (le_of_eq h)]
  · rw [List.length_eq_zero_iff.mp (show m.value.length = 0 by omega),
      List.length_eq_zero_iff.mp (show val.length = 0 by omega)]

end Shift

section Tainted
variable {tags : List TagSeg} {input : List UInt8}

theorem val_len_total (offsets : List TagSeg) : valLen offsets = total (windowsOf offsets) := by
  rw [valLen, total, windowsOf, List.map_map]
  rfl

theorem val_len_le_extent (h : Apart tags) : valLen tags ≤ extent tags := by
  induction tags using List.reverseRecOn with
  | nil => exact Nat.le_refl 0
  | append_singleton init last ih =>
    have hparts := (apart_concat init last).mp h
    have hinit := ih hparts.1
    have hend : extent init < last.start+1 :=
      extent_lt (Nat.succ_pos _) (fun t ht => Nat.lt_succ_of_le (hparts.2.1 t ht))
    rw [val_len_append, val_len_single, extent_concat]
    omega

theorem read_tainted (h : Apart tags) (hin : extent tags ≤ input.length) :
    fromOffsets tags input = some ⟨gather input (windowsOf tags), metasOf 0 tags⟩ := by
  rw [from_offsets_eq h, zero_extend_covers hin]

theorem tainted_length (h : Apart tags) (hin : extent tags ≤ input.length) :
    (gather input (windowsOf tags)).length = valLen tags := by
  rw [val_len_total]
  apply gather_length
  apply windows_inside
  intro off hoff
  exact ⟨h.nonempty off hoff, (stop_le_extent h off hoff).trans hin⟩

theorem fn_fuzz_writes {cond : CondStmt} {goal observed : List UInt8} (h : Apart tags)
    (hin : extent tags ≤ input.length) (hoffsets : cond.offsets = tags)
    (hvars : cond.vars = goal ++ observed) (hsize : cond.base.size = goal.length)
    (hlen : goal.length = valLen tags) :
    ∃ out, fnFuzz cond input = some out ∧ out.length = input.length ∧
      (∀ y, y ∉ cover tags → out[y]? = input[y]?) ∧
      gather out (windowsOf tags) =
        shiftVars goal observed (gather input (windowsOf tags)) := by
  obtain ⟨m, hm, -, hwrite⟩ := write_to_input_lens h input
  have hm' := Option.some.inj (hm.symm.trans (read_tainted h hin))
  have hvalue : m.value = gather input (windowsOf tags) := congrArg MutInput.value hm'
  have hmlen : m.value.length = goal.length := by rw [hvalue, tainted_length h hin, hlen]
  have htake : cond.vars.take cond.base.size = goal := by
    rw [hvars, hsize, List.take_left]
  have hdrop : cond.vars.drop cond.base.size = observed := by
    rw [hvars, hsize, List.drop_left]
  obtain ⟨out, hout, hback, hkept, -⟩ :=
    hwrite _ (assign_same_shape m (shiftVars goal observed m.value))
  have hlength : out.length = input.length := by
    rw [write_to_input_length hout, max_eq_left hin]
  refine ⟨out, ?_, hlength, ?_, ?_⟩
  · have hread : getFInput ⟨input, cond.offsets⟩ = some m := by
      rw [getFInput, hoffsets]
      exact hm
    have hresize : resizeInput ⟨input, cond.offsets⟩ m.value.length cond.base.size =
        some ⟨input, cond.offsets⟩ := by
      rw [resizeInput, if_neg (by omega), if_neg (by omega)]
    have henough : ¬ cond.vars.length < cond.base.size := by
      rw [hvars, List.length_append]
      omega
    simp only [fnFuzz, hread, hresize, Option.bind_some, htake, hdrop]
    rw [if_neg henough, if_pos (by omega), executeInput, hoffsets, hout]
    rfl
  · intro y hy
    rw [hkept y hy, zero_extend_covers hin]
  · have hread := read_tainted h (show extent tags ≤ out.length by omega)
    have hsame := congrArg MutInput.value (Option.some.inj (hback.symm.trans hread))
    have hassign := assign_whole (m := m)
      (show (shiftVars goal observed m.value).length = m.value.length by
        rw [shift_vars_length, hmlen])
    rw [hassign] at hsame
    rw [← hvalue]
    exact hsame.symm

end Tainted

section Match
variable {data : LogData} {i : ℕ} {c : FnCall} {record : CondStmtBase} {tags : List TagSeg}

def OneTainted (c : FnCall) : Prop := 0 < c.lb1 ∧ c.lb2 = 0 ∨ c.lb1 = 0 ∧ 0 < c.lb2

/-- Whichever operand was tainted, its segments are the offsets, and the variables are
the other operand followed by it. -/
theorem parse_fn (hlog : FnLogged data i c record) (h0 : data.tags 0 = none) (hone : OneTainted c)
    (htags : data.tags (fnLabel c) = some tags)
    (hempty : tags = [] → (operands c).1 = [] ∧ (operands c).2 = []) (id speed : ℕ) :
    (loadCond id speed (parseCond data i record)).offsets = tags ∧
    (loadCond id speed (parseCond data i record)).vars = otherOperand c ++ taintedOperand c := by
  obtain ⟨order, rfl⟩ := hlog.built
  show (parseCond data i { fnCond c with order := order }).offsets = tags ∧
    (parseCond data i { fnCond c with order := order }).vars = otherOperand c ++ taintedOperand c
  rcases hone with ⟨h1, h2⟩ | ⟨h1, h2⟩
  · have hlabel : fnLabel c = c.lb1 := if_pos h1
    rw [hlabel] at htags
    simp [parseCond, getOffsetsAndVariables, fromBase, fnCond, otherOperand, taintedOperand,
      hlog.magic, h0, h1, htags, COND_FN_OP, COND_LEN_OP]
  · have hlabel : fnLabel c = c.lb2 := if_neg (by omega)
    rw [hlabel] at htags
    by_cases hne : tags = []
    · simp [parseCond, getOffsetsAndVariables, fromBase, fnCond, otherOperand, taintedOperand,
        hlog.magic, h0, h1, h2, htags, hne, hempty hne, COND_FN_OP, COND_LEN_OP]
    · simp [parseCond, getOffsetsAndVariables, fromBase, fnCond, otherOperand, taintedOperand,
        hlog.magic, h0, h1, h2, htags, hne, COND_FN_OP, COND_LEN_OP]

structure OfLength (c : FnCall) (n : ℕ) : Prop where
  arglen1 : arglen c.size c.parg1 = n
  arglen2 : arglen c.size c.parg2 = n
  mapped1 : n ≤ c.parg1.length
  mapped2 : n ≤ c.parg2.length

theorem operand_lengths {n : ℕ} (h : OfLength c n) :
    (operands c).1.length = n ∧ (operands c).2.length = n := by
  rw [operands, List.length_take, List.length_take, h.arglen1, h.arglen2]
  exact ⟨min_eq_left h.mapped1, min_eq_left h.mapped2⟩

theorem fn_cond_size {n : ℕ} (h : OfLength c n) (hn : n < 2^32) : (fnCond c).size = n := by
  simp only [fnCond, h.arglen1, h.arglen2, Nat.mod_eq_of_lt hn, ite_self]

/-- The input that `FnFuzz` executes for a logged call differs in the tainted bytes
only, and the program's shift takes these to the other operand. -/
theorem fn_fuzz_matches {input : List UInt8} {n : ℕ} {shift : ℕ → UInt8}
    (hlog : FnLogged data i c record) (h0 : data.tags 0 = none) (hone : OneTainted c)
    (hlength : OfLength c n) (htags : data.tags (fnLabel c) = some tags) (ha : Apart tags)
    (hnarrow : Narrow tags) (hin : extent tags ≤ input.length) (hval : valLen tags = n)
    (hshift : ∀ k : ℕ, ((gather input (windowsOf tags))[k]?).map (fun x => x+shift k) =
      (taintedOperand c)[k]?) (id speed : ℕ) :
    ∃ out, fnFuzz (loadCond id speed (parseCond data i record)) input = some out ∧
      out.length = input.length ∧ (∀ y, y ∉ cover tags → out[y]? = input[y]?) ∧
      ∀ k : ℕ, ((gather out (windowsOf tags))[k]?).map (fun x => x+shift k) =
        (otherOperand c)[k]? := by
  have hops := operand_lengths hlength
  have hn : n < 2^32 := by
    have hle := val_len_le_extent ha
    have hext : extent tags < 2^32 := extent_lt (by decide) hnarrow
    omega
  have hempty : tags = [] → (operands c).1 = [] ∧ (operands c).2 = [] := by
    intro hnil
    rw [hnil] at hval
    have hzero : 0 = n := hval
    exact ⟨List.length_eq_zero_iff.mp (hops.1.trans hzero.symm),
      List.length_eq_zero_iff.mp (hops.2.trans hzero.symm)⟩
  have hparse := parse_fn hlog h0 hone htags hempty id speed
  have hother : (otherOperand c).length = n := by
    unfold otherOperand
    split_ifs
    · exact hops.2
    · exact hops.1
  have hsize : (loadCond id speed (parseCond data i record)).base.size =
      (otherOperand c).length := by
    show (parseCond data i record).base.size = _
    rw [parse_cond_base, hother]
    obtain ⟨order, rfl⟩ := hlog.built
    exact fn_cond_size hlength hn
  obtain ⟨out, hout, hlen, hkept, hwritten⟩ :=
    fn_fuzz_writes ha hin hparse.1 hparse.2 hsize (hother.trans hval.symm)
  refine ⟨out, hout, hlen, hkept, ?_⟩
  intro k
  rw [hwritten]
  exact shift_vars_goal hshift (by rw [hother, tainted_length ha hin, hval]) k

/-- A call with a constant first operand, whose second one is the two middle bytes of the
input with 2 added to each. -/
def keyCall : FnCall := ⟨1, 0, 0, 2, [107, 118], [5, 6], 0, 1⟩

def keyLog : LogData where
  condList := [fnCond keyCall]
  tags := fun lb => if lb = 1 then some [⟨false, 1, 3⟩] else none
  magicBytes := fun i => if i = 0 then some (operands keyCall) else none

theorem fn_fuzz_matches_key :
    FnLogged keyLog 0 keyCall (fnCond keyCall) ∧ OneTainted keyCall ∧ OfLength keyCall 2 ∧
    ∃ out, fnFuzz (loadCond 0 0 (parseCond keyLog 0 (fnCond keyCall))) [9, 3, 4, 9] = some out ∧
      out.length = 4 ∧ (∀ y, y ∉ cover [⟨false, 1, 3⟩] → out[y]? = [9, 3, 4, 9][y]?) ∧
      ∀ k : ℕ, ((gather out (windowsOf [⟨false, 1, 3⟩]))[k]?).map (fun x => x+2) =
        (otherOperand keyCall)[k]? := by
  have hlog : FnLogged keyLog 0 keyCall (fnCond keyCall) := ⟨⟨0, rfl⟩, rfl, rfl⟩
  have hone : OneTainted keyCall := Or.inr (by decide)
  have hlength : OfLength keyCall 2 := ⟨rfl, rfl, by decide, by decide⟩
  have hshift : ∀ k : ℕ,
      ((gather [9, 3, 4, 9] (windowsOf [⟨false, 1, 3⟩]))[k]?).map (fun x : UInt8 => x+2) =
        (taintedOperand keyCall)[k]? := by
    intro k
    rw [← List.getElem?_map]
    rfl
  exact ⟨hlog, hone, hlength, fn_fuzz_matches hlog rfl hone hlength rfl (by decide) (by decide)
    (by decide) rfl hshift 0 0⟩

example : fnFuzz (loadCond 0 0 (parseCond keyLog 0 (fnCond keyCall))) [9, 3, 4, 9] =
    some [9, 105, 116, 9] := by decide

end Match

end Parmesan.FnMatch
