import Parmesan.CondModel
import Mathlib.Tactic.SplitIfs
import Mathlib.Tactic.IntervalCases

/-!
# The objective of a condition

`fuzzer/src/cond_stmt/output.rs` and `get_cond_output` of `shm_conds.rs`: the
distance of the operands from the constraint that is wanted, zero once it
holds. Sums are of `u64`; a wrapped sum is flagged.
-/

set_option autoImplicit false

namespace Parmesan.CondOutput
open Parmesan.CondModel

/-- A `u64` and whether computing it overflowed. -/
structure Checked where
  val : ℕ
  overflow : Bool
  deriving DecidableEq, Repr

def addU64 (a b : ℕ) : Checked := ⟨(a+b) % 2^64, 2^64 ≤ a+b⟩

def EPS : ℕ := 1

def subAbs (arg1 arg2 : ℕ) : ℕ := if arg1 < arg2 then arg2-arg1 else arg1-arg2

def asSigned (w v : ℕ) : ℤ :=
  if v % 2^w < 2^(w-1) then (v % 2^w : ℕ) else (v % 2^w : ℕ)-2^w

/-- The signed sums of the first branch stay in the range of the type. -/
def translateWidth (w v : ℕ) : Checked :=
  let s := asSigned w v
  if s < 0 then ⟨(s+(2^(w-1)-1)+1).toNat, false⟩ else addU64 v (2^(w-1)-1+1)

def translateSignedValue (v size : ℕ) : Checked :=
  if size = 1 then translateWidth 8 v
  else if size = 2 then translateWidth 16 v
  else if size = 4 then translateWidth 32 v
  else if size = 8 then translateWidth 64 v
  else ⟨v, false⟩

def oppositeOp (op : ℕ) : ℕ :=
  if op = COND_ICMP_EQ_OP then COND_ICMP_NE_OP
  else if op = COND_ICMP_NE_OP then COND_ICMP_EQ_OP
  else if op = COND_ICMP_UGT_OP then COND_ICMP_ULE_OP
  else if op = COND_ICMP_UGE_OP then COND_ICMP_ULT_OP
  else if op = COND_ICMP_ULT_OP then COND_ICMP_UGE_OP
  else if op = COND_ICMP_ULE_OP then COND_ICMP_UGT_OP
  else if op = COND_ICMP_SGT_OP then COND_ICMP_SLE_OP
  else if op = COND_ICMP_SGE_OP then COND_ICMP_SLT_OP
  else if op = COND_ICMP_SLT_OP then COND_ICMP_SGE_OP
  else if op = COND_ICMP_SLE_OP then COND_ICMP_SGT_OP
  else op

def basicOp (c : CondStmtBase) : ℕ :=
  if c.op &&& COND_BASIC_MASK = COND_SW_OP then COND_ICMP_EQ_OP else c.op &&& COND_BASIC_MASK

def wantedOp (c : CondStmtBase) : ℕ :=
  if isExplore c && c.condition = COND_TRUE_ST then oppositeOp (basicOp c) else basicOp c

def relu (op a b : ℕ) : Checked :=
  if op = COND_ICMP_EQ_OP then ⟨subAbs a b, false⟩
  else if op = COND_ICMP_NE_OP then ⟨if a = b then 1 else 0, false⟩
  else if op = COND_ICMP_SGT_OP ∨ op = COND_ICMP_UGT_OP then
    if b < a then ⟨0, false⟩ else addU64 (b-a) EPS
  else if op = COND_ICMP_UGE_OP ∨ op = COND_ICMP_SGE_OP then
    ⟨if b ≤ a then 0 else b-a, false⟩
  else if op = COND_ICMP_ULT_OP ∨ op = COND_ICMP_SLT_OP then
    if a < b then ⟨0, false⟩ else addU64 (a-b) EPS
  else if op = COND_ICMP_ULE_OP ∨ op = COND_ICMP_SLE_OP then
    ⟨if a ≤ b then 0 else a-b, false⟩
  else ⟨subAbs a b, false⟩

def operand (c : CondStmtBase) (v : ℕ) : Checked :=
  if isSigned c then translateSignedValue v c.size else ⟨v, false⟩

def evalOutput (c : CondStmtBase) : Checked :=
  let a := operand c c.arg1
  let b := operand c c.arg2
  let output := relu (wantedOp c) a.val b.val
  ⟨output.val, a.overflow || b.overflow || output.overflow⟩

def getOutput (c : CondStmtBase) : ℕ := (evalOutput c).val

-- `lb1` is reset to `u32::MAX` before the run and overwritten when the condition is met.
def isCondReachable (c : CondStmtBase) : Bool := c.lb1 < 2^32-1

def getCondOutput (c : CondStmtBase) : ℕ :=
  if !isCondReachable c then UNREACHABLE
  else if getOutput c = UNREACHABLE then getOutput c-1
  else getOutput c

def readArg (c : CondStmtBase) (v : ℕ) : ℤ := if isSigned c then asSigned (8*c.size) v else v

def Holds (op : ℕ) (x y : ℤ) : Prop :=
  if op = COND_ICMP_EQ_OP then x = y
  else if op = COND_ICMP_NE_OP then x ≠ y
  else if op = COND_ICMP_UGT_OP ∨ op = COND_ICMP_SGT_OP then y < x
  else if op = COND_ICMP_UGE_OP ∨ op = COND_ICMP_SGE_OP then y ≤ x
  else if op = COND_ICMP_ULT_OP ∨ op = COND_ICMP_SLT_OP then x < y
  else x ≤ y

instance (op : ℕ) (x y : ℤ) : Decidable (Holds op x y) := by
  unfold Holds
  infer_instance

/-- The constraint that is wanted: the predicate after a false outcome, its
negation after a true one. -/
def Wanted (c : CondStmtBase) : Prop :=
  if c.condition = COND_TRUE_ST then ¬ Holds (basicOp c) (readArg c c.arg1) (readArg c c.arg2)
  else Holds (basicOp c) (readArg c c.arg1) (readArg c c.arg2)

instance (c : CondStmtBase) : Decidable (Wanted c) := by
  unfold Wanted
  infer_instance

structure Valid (c : CondStmtBase) : Prop where
  op : ∃ low, (32 ≤ low ∧ low ≤ 41 ∨ low = COND_SW_OP) ∧
    ∃ sign ∈ [0, COND_SIGN_MASK], ∃ bool ∈ [0, COND_BOOL_MASK], c.op = low ||| sign ||| bool
  size : c.size = 1 ∨ c.size = 2 ∨ c.size = 4 ∨ c.size = 8
  arg1 : c.arg1 < 2^(8*c.size)
  arg2 : c.arg2 < 2^(8*c.size)
  condition : c.condition = COND_FALSE_ST ∨ c.condition = COND_TRUE_ST

def IsGt (op : ℕ) : Prop := op = COND_ICMP_UGT_OP ∨ op = COND_ICMP_SGT_OP
def IsGe (op : ℕ) : Prop := op = COND_ICMP_UGE_OP ∨ op = COND_ICMP_SGE_OP
def IsLt (op : ℕ) : Prop := op = COND_ICMP_ULT_OP ∨ op = COND_ICMP_SLT_OP
def IsLe (op : ℕ) : Prop := op = COND_ICMP_ULE_OP ∨ op = COND_ICMP_SLE_OP

def least (c : CondStmtBase) : ℤ := if isSigned c then -2^63 else 0
def greatest (c : CondStmtBase) : ℤ := if isSigned c then 2^63-1 else 2^64-1

/-- A strict order is wanted of the two 64-bit operands that are furthest from it. -/
def Extreme (c : CondStmtBase) : Prop :=
  c.size = 8 ∧
    (IsGt (wantedOp c) ∧ readArg c c.arg1 = least c ∧ readArg c c.arg2 = greatest c ∨
      IsLt (wantedOp c) ∧ readArg c c.arg1 = greatest c ∧ readArg c c.arg2 = least c)

instance (op : ℕ) : Decidable (IsGt op) := inferInstanceAs (Decidable (_ ∨ _))
instance (op : ℕ) : Decidable (IsLt op) := inferInstanceAs (Decidable (_ ∨ _))
instance (c : CondStmtBase) : Decidable (Extreme c) := inferInstanceAs (Decidable (_ ∧ _))

variable {c : CondStmtBase}

theorem half_width {w : ℕ} (hw : w = 8 ∨ w = 16 ∨ w = 32 ∨ w = 64) :
    2^w = 2*2^(w-1) ∧ 2^w ≤ 2^64 := by
  rcases hw with rfl | rfl | rfl | rfl <;> decide

theorem translate_width {w v : ℕ} (hw : w = 8 ∨ w = 16 ∨ w = 32 ∨ w = 64) (hv : v < 2^w) :
    (translateWidth w v).overflow = false ∧ ((translateWidth w v).val : ℤ) = asSigned w v+2^(w-1) ∧
      (translateWidth w v).val < 2^w := by
  obtain ⟨hdouble, hmax⟩ := half_width hw
  have hpos : 0 < 2^(w-1) := Nat.two_pow_pos _
  have hcast : ((2^(w-1) : ℕ) : ℤ) = 2^(w-1) := by push_cast; rfl
  have hcast' : ((2^w : ℕ) : ℤ) = 2^w := by push_cast; rfl
  have hs : asSigned w v = if v < 2^(w-1) then (v : ℤ) else v-2^w := by
    rw [asSigned, Nat.mod_eq_of_lt hv]
  unfold translateWidth
  rw [hs]
  generalize hh : 2^(w-1) = half at *
  generalize hf : 2^w = full at *
  by_cases hlt : v < half
  · have hneg : ¬ ((v : ℤ) < 0) := by omega
    simp only [if_pos hlt, if_neg hneg, addU64]
    have hsum : v+(half-1+1) < 2^64 := by omega
    rw [Nat.mod_eq_of_lt hsum]
    refine ⟨decide_eq_false (by omega), ?_, by omega⟩
    push_cast
    omega
  · have hneg : (v : ℤ)-2^w < 0 := by omega
    simp only [if_neg hlt, if_pos hneg]
    refine ⟨trivial, ?_, ?_⟩ <;> omega

theorem mask_bits : ∀ low ∈ [32, 33, 34, 35, 36, 37, 38, 39, 40, 41, COND_SW_OP],
    ∀ sign ∈ [0, COND_SIGN_MASK], ∀ bool ∈ [0, COND_BOOL_MASK],
      (low ||| sign ||| bool) &&& COND_BASIC_MASK = low ∧
      low ||| sign ||| bool ≤ COND_MAX_EXPLORE_OP := by
  decide

theorem valid_op (h : Valid c) : 32 ≤ basicOp c ∧ basicOp c ≤ 41 ∧ isExplore c = true := by
  obtain ⟨low, hlow, sign, hsign, bool, hbool, hop⟩ := h.op
  have hmem : low ∈ [32, 33, 34, 35, 36, 37, 38, 39, 40, 41, COND_SW_OP] := by
    simp only [List.mem_cons, List.not_mem_nil, or_false]
    omega
  obtain ⟨hbasic, hmax⟩ := mask_bits low hmem sign hsign bool hbool
  refine ⟨?_, ?_, by simpa [isExplore, hop] using hmax⟩
  all_goals
    rw [basicOp, hop, hbasic]
    split_ifs with hsw
    · decide
    · omega

theorem opposite_holds {op : ℕ} (h1 : 32 ≤ op) (h2 : op ≤ 41) (x y : ℤ) :
    Holds (oppositeOp op) x y ↔ ¬ Holds op x y := by
  interval_cases op
  all_goals
    simp only [Holds, oppositeOp, COND_ICMP_EQ_OP, COND_ICMP_NE_OP, COND_ICMP_UGT_OP,
      COND_ICMP_UGE_OP, COND_ICMP_ULT_OP, COND_ICMP_ULE_OP, COND_ICMP_SGT_OP, COND_ICMP_SGE_OP,
      COND_ICMP_SLT_OP, COND_ICMP_SLE_OP]
    norm_num

theorem opposite_range {op : ℕ} (h1 : 32 ≤ op) (h2 : op ≤ 41) :
    32 ≤ oppositeOp op ∧ oppositeOp op ≤ 41 := by
  interval_cases op <;> decide

theorem wanted_op (h : Valid c) : 32 ≤ wantedOp c ∧ wantedOp c ≤ 41 ∧
    (Holds (wantedOp c) (readArg c c.arg1) (readArg c c.arg2) ↔ Wanted c) := by
  obtain ⟨h1, h2, hexp⟩ := valid_op h
  unfold wantedOp Wanted
  rw [hexp]
  by_cases hc : c.condition = COND_TRUE_ST
  · simp only [hc, decide_true, Bool.and_true, if_true]
    exact ⟨(opposite_range h1 h2).1, (opposite_range h1 h2).2, opposite_holds h1 h2 _ _⟩
  · rw [if_neg hc, if_neg (by simp [hc])]
    exact ⟨h1, h2, Iff.rfl⟩

def Wraps (op a b : ℕ) : Prop := IsGt op ∧ a = 0 ∧ b = 2^64-1 ∨ IsLt op ∧ a = 2^64-1 ∧ b = 0

theorem op_cases {op : ℕ} (h1 : 32 ≤ op) (h2 : op ≤ 41) :
    op = COND_ICMP_EQ_OP ∨ op = COND_ICMP_NE_OP ∨ IsGt op ∨ IsGe op ∨ IsLt op ∨ IsLe op := by
  unfold IsGt IsGe IsLt IsLe
  interval_cases op <;> decide

theorem relu_eq (a b : ℕ) :
    relu COND_ICMP_EQ_OP a b = ⟨subAbs a b, false⟩ ∧ (Holds COND_ICMP_EQ_OP a b ↔ a = b) := by
  simp [relu, Holds]

theorem relu_ne (a b : ℕ) : relu COND_ICMP_NE_OP a b = ⟨if a = b then 1 else 0, false⟩ ∧
    (Holds COND_ICMP_NE_OP a b ↔ a ≠ b) := by
  simp [relu, Holds, COND_ICMP_NE_OP, COND_ICMP_EQ_OP]

theorem relu_gt {op : ℕ} (h : IsGt op) (a b : ℕ) :
    relu op a b = (if b < a then ⟨0, false⟩ else addU64 (b-a) EPS) ∧ (Holds op a b ↔ b < a) := by
  rcases h with rfl | rfl <;> exact ⟨rfl, by rw [← Int.ofNat_lt]; rfl⟩

theorem relu_ge {op : ℕ} (h : IsGe op) (a b : ℕ) :
    relu op a b = ⟨if b ≤ a then 0 else b-a, false⟩ ∧ (Holds op a b ↔ b ≤ a) := by
  rcases h with rfl | rfl <;> exact ⟨rfl, by rw [← Int.ofNat_le]; rfl⟩

theorem relu_lt {op : ℕ} (h : IsLt op) (a b : ℕ) :
    relu op a b = (if a < b then ⟨0, false⟩ else addU64 (a-b) EPS) ∧ (Holds op a b ↔ a < b) := by
  rcases h with rfl | rfl <;> exact ⟨rfl, by rw [← Int.ofNat_lt]; rfl⟩

theorem relu_le {op : ℕ} (h : IsLe op) (a b : ℕ) :
    relu op a b = ⟨if a ≤ b then 0 else a-b, false⟩ ∧ (Holds op a b ↔ a ≤ b) := by
  rcases h with rfl | rfl <;> exact ⟨rfl, by rw [← Int.ofNat_le]; rfl⟩

theorem relu_exact {op a b : ℕ} (h1 : 32 ≤ op) (h2 : op ≤ 41) (ha : a < 2^64) (hb : b < 2^64)
    (hw : ¬ Wraps op a b) :
    (relu op a b).overflow = false ∧ ((relu op a b).val = 0 ↔ Holds op a b) := by
  rcases op_cases h1 h2 with rfl | rfl | hop | hop | hop | hop
  · rw [(relu_eq a b).1, (relu_eq a b).2]
    simp only [subAbs, true_and]
    split_ifs <;> omega
  · rw [(relu_ne a b).1, (relu_ne a b).2]
    by_cases hab : a = b <;> simp [hab]
  · rw [(relu_gt hop a b).1, (relu_gt hop a b).2]
    have hne : ¬ (a = 0 ∧ b = 2^64-1) := fun hab => hw (Or.inl ⟨hop, hab⟩)
    split_ifs with hba
    · exact ⟨rfl, iff_of_true rfl hba⟩
    · simp only [addU64, EPS]
      exact ⟨decide_eq_false (by omega), by omega⟩
  · rw [(relu_ge hop a b).1, (relu_ge hop a b).2]
    simp only [true_and]
    split_ifs <;> omega
  · rw [(relu_lt hop a b).1, (relu_lt hop a b).2]
    have hne : ¬ (a = 2^64-1 ∧ b = 0) := fun hab => hw (Or.inr ⟨hop, hab⟩)
    split_ifs with hab
    · exact ⟨rfl, iff_of_true rfl hab⟩
    · simp only [addU64, EPS]
      exact ⟨decide_eq_false (by omega), by omega⟩
  · rw [(relu_le hop a b).1, (relu_le hop a b).2]
    simp only [true_and]
    split_ifs <;> omega

theorem relu_wraps {op a b : ℕ} (hw : Wraps op a b) : (relu op a b).overflow = true := by
  rcases hw with ⟨hop, rfl, rfl⟩ | ⟨hop, rfl, rfl⟩
  · rw [(relu_gt hop _ _).1, if_neg (by omega)]
    have hwrap : 2^64 ≤ 2^64-1-0+1 := by omega
    exact decide_eq_true hwrap
  · rw [(relu_lt hop _ _).1, if_neg (by omega)]
    have hwrap : 2^64 ≤ 2^64-1-0+1 := by omega
    exact decide_eq_true hwrap

/-- Reading an operand shifts it by a constant, so the shifted operands compare
as the operands do. -/
def shift (c : CondStmtBase) : ℤ := if isSigned c then 2^(8*c.size-1) else 0

theorem operand_spec (h : Valid c) {v : ℕ} (hv : v < 2^(8*c.size)) :
    (operand c v).overflow = false ∧ ((operand c v).val : ℤ) = readArg c v+shift c ∧
      (operand c v).val < 2^(8*c.size) := by
  unfold operand readArg shift
  cases hs : isSigned c with
  | false => simpa using hv
  | true =>
    simp only [if_true]
    have hwidth : translateSignedValue v c.size = translateWidth (8*c.size) v := by
      rcases h.size with hsize | hsize | hsize | hsize <;> simp [translateSignedValue, hsize]
    rw [hwidth]
    apply translate_width _ hv
    have := h.size
    omega

theorem holds_shift (op : ℕ) (x y k : ℤ) : Holds op (x+k) (y+k) ↔ Holds op x y := by
  unfold Holds
  split_ifs <;> omega

theorem size_le (h : Valid c) {v : ℕ} (hv : v < 2^(8*c.size)) : v < 2^64 ∧ (v = 2^64-1 → c.size = 8) := by
  rcases h.size with hsize | hsize | hsize | hsize
  all_goals
    rw [hsize] at hv ⊢
    norm_num at hv ⊢
    omega

theorem wraps_extreme (h : Valid c) :
    Wraps (wantedOp c) (operand c c.arg1).val (operand c c.arg2).val ↔ Extreme c := by
  obtain ⟨-, ha, hal⟩ := operand_spec h h.arg1
  obtain ⟨-, hb, hbl⟩ := operand_spec h h.arg2
  have ha8 := size_le h hal
  have hb8 := size_le h hbl
  have hshift : c.size = 8 → least c+shift c = 0 ∧ greatest c+shift c = 2^64-1 := by
    intro h8
    unfold least greatest shift
    rw [h8]
    cases isSigned c <;> decide
  unfold Wraps Extreme
  constructor
  · rintro (⟨hop, h1, h2⟩ | ⟨hop, h1, h2⟩)
    · have h8 := hb8.2 h2
      have := hshift h8
      exact ⟨h8, Or.inl ⟨hop, by omega, by omega⟩⟩
    · have h8 := ha8.2 h1
      have := hshift h8
      exact ⟨h8, Or.inr ⟨hop, by omega, by omega⟩⟩
  · rintro ⟨h8, ⟨hop, h1, h2⟩ | ⟨hop, h1, h2⟩⟩
    · have := hshift h8
      exact Or.inl ⟨hop, by omega, by omega⟩
    · have := hshift h8
      exact Or.inr ⟨hop, by omega, by omega⟩

/-- `get_output` meets its contract: no overflow, and zero exactly when the
wanted constraint holds; `get_cond_output` is then zero exactly when the
condition was also reached, and `UNREACHABLE` exactly when it was not. -/
structure Contract (c : CondStmtBase) : Prop where
  exact : (evalOutput c).overflow = false
  zero : getOutput c = 0 ↔ Wanted c
  cond_zero : getCondOutput c = 0 ↔ isCondReachable c = true ∧ Wanted c
  cond_unreachable : getCondOutput c = UNREACHABLE ↔ isCondReachable c = false

theorem cond_output_spec (c : CondStmtBase) :
    (getCondOutput c = 0 ↔ isCondReachable c = true ∧ getOutput c = 0) ∧
    (getCondOutput c = UNREACHABLE ↔ isCondReachable c = false) := by
  unfold getCondOutput UNREACHABLE
  cases isCondReachable c with
  | false => simp
  | true =>
    simp only [Bool.not_true, Bool.false_eq_true, if_false, true_and, Bool.true_eq_false, iff_false]
    by_cases hu : getOutput c = 2^64-1
    · rw [if_pos hu]
      omega
    · rw [if_neg hu]
      exact ⟨Iff.rfl, hu⟩

/-- The contract fails on the extreme pairs and only there. -/
theorem output_contract_iff (h : Valid c) : Contract c ↔ ¬ Extreme c := by
  obtain ⟨hop1, hop2, hwant⟩ := wanted_op h
  obtain ⟨hoa, ha, hal⟩ := operand_spec h h.arg1
  obtain ⟨hob, hb, hbl⟩ := operand_spec h h.arg2
  rw [← wraps_extreme h]
  constructor
  · intro hc hw
    have hover := hc.exact
    simp only [evalOutput, relu_wraps hw, Bool.or_true] at hover
    cases hover
  · intro hw
    obtain ⟨hexact, hzero⟩ := relu_exact hop1 hop2 (size_le h hal).1 (size_le h hbl).1 hw
    rw [ha, hb, holds_shift, hwant] at hzero
    obtain ⟨hc0, hcu⟩ := cond_output_spec c
    have hz : getOutput c = 0 ↔ Wanted c := hzero
    exact ⟨by simp only [evalOutput, hoa, hob, hexact, Bool.or_self], hz,
      by rw [hc0, hz], hcu⟩

def extremeCond : CondStmtBase :=
  ⟨1, 0, 0, 1, 0, COND_FALSE_ST, 1, COND_ICMP_UGT_OP, 8, 1, 0, 0, 2^64-1⟩

theorem output_wraps_to_solved : Valid extremeCond ∧ isCondReachable extremeCond = true ∧
    ¬ Wanted extremeCond ∧ (evalOutput extremeCond).overflow = true ∧
    getOutput extremeCond = 0 ∧ getCondOutput extremeCond = 0 := by
  refine ⟨⟨⟨34, by omega, 0, by decide, 0, by decide, by decide⟩, by decide, by decide, by decide,
    by decide⟩, by decide, ?_, by decide, by decide, by decide⟩
  decide

theorem output_contract_near : Valid { extremeCond with arg1 := 1 } ∧
    ¬ Extreme { extremeCond with arg1 := 1 } ∧ Contract { extremeCond with arg1 := 1 } := by
  have hv : Valid { extremeCond with arg1 := 1 } :=
    ⟨⟨34, by omega, 0, by decide, 0, by decide, by decide⟩, by decide, by decide, by decide,
      by decide⟩
  have hx : ¬ Extreme { extremeCond with arg1 := 1 } := by
    decide
  exact ⟨hv, hx, (output_contract_iff hv).mpr hx⟩

end Parmesan.CondOutput
