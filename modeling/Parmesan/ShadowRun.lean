import Mathlib.Order.BoundedOrder.Basic
import Mathlib.Order.Lattice
import Mathlib.Data.BitVec
import Parmesan.ShadowModel

/-!
# What the instrumented function computes

`exec` runs one inserted operation on the labels, `shadowRun` a whole path through the
function. `plainRun` is the meaning the code is held against: along the same path it joins
the taints of the operands at every instruction, with no cache and no shared shadow. What
a run decides outside the function (the addresses, the condition of a select, what a
callee leaves behind) is an `Input`, one for each instruction.
-/

set_option autoImplicit false

namespace Parmesan.ShadowRun
open Parmesan.ShadowModel

abbrev Label := BitVec 32

/-! ## The label runtime -/

/-- The two tag set functions that the runtime calls, with the taint a label stands for.
That unions are joins is assumed: labels of the tag set may clash, and a merge may cover
bytes between its ends. -/
structure Runtime (α : Type) [SemilatticeSup α] [OrderBot α] where
  den : Label → α
  combine : Label → Label → Label
  combineN : List Label → Label
  den_zero : den 0 = ⊥
  den_combine : ∀ l1 l2, l1 ≠ 0 → l2 ≠ 0 → l1 ≠ l2 → den (combine l1 l2) = den l1 ⊔ den l2
  den_combineN : ∀ ls, den (combineN ls) = (ls.map den).foldr (· ⊔ ·) ⊥

section Runtime
variable {α : Type} [SemilatticeSup α] [OrderBot α] (R : Runtime α)

/-- `__dfsan_union` -/
def Runtime.union (l1 l2 : Label) : Label :=
  if l1 = 0 then l2 else if l2 = 0 then l1 else R.combine l1 l2

/-- `dfsan_union` -/
def Runtime.checkedUnion (l1 l2 : Label) : Label := if l1 = l2 then l1 else R.union l1 l2

theorem den_union {l1 l2 : Label} (h : l1 ≠ l2) :
    R.den (R.union l1 l2) = R.den l1 ⊔ R.den l2 := by
  unfold Runtime.union
  split_ifs with h1 h2
  · rw [h1, R.den_zero, bot_sup_eq]
  · rw [h2, R.den_zero, sup_bot_eq]
  · exact R.den_combine l1 l2 h1 h2 h

theorem den_checked (l1 l2 : Label) :
    R.den (R.checkedUnion l1 l2) = R.den l1 ⊔ R.den l2 := by
  unfold Runtime.checkedUnion
  split_ifs with h
  · rw [h, sup_idem]
  · exact den_union R h

def labels {L : Type} (mem : ℕ → L) (addr n : ℕ) : List L :=
  (List.range n).map fun i => mem (addr+i)

def joinAll : List α → α := List.foldr (· ⊔ ·) ⊥

/-- Two neighbouring labels as one word, the first one in the low half. -/
def wide (mem : ℕ → Label) (a : ℕ) : BitVec 64 := mem (a+1) ++ mem a

def wordsEqual (mem : ℕ → Label) (WideShadow : BitVec 64) : ℕ → ℕ → Bool
  | 0, _ => true
  | n+1, WideAddr =>
    wide mem (WideAddr+2) == WideShadow && wordsEqual mem WideShadow n (WideAddr+2)

/-- The fast path of `loadShadow`: one label for all bytes, or the call. -/
def fastLoad (mem : ℕ → Label) (addr Size : ℕ) : Label :=
  let WideShadow := wide mem addr
  let TruncShadow := WideShadow.setWidth 32
  let ShlShadow := WideShadow <<< 32
  let ShrShadow := WideShadow >>> (64-32)
  let RotShadow := ShlShadow ||| ShrShadow
  if WideShadow = RotShadow ∧ wordsEqual mem WideShadow (Size/2-1) addr = true then TruncShadow
  else R.combineN (labels mem addr Size)

/-- The stores of `storeShadow`: vectors of four labels, then single ones. -/
def storeLabels {L : Type} (l : L) : ℕ → ℕ → (ℕ → L) → ℕ → L
  | 0, _, mem => mem
  | n+4, a, mem => storeLabels l n (a+4) fun x => if a ≤ x ∧ x < a+4 then l else mem x
  | n+1, a, mem => storeLabels l n (a+1) fun x => if x = a then l else mem x

/-- `__dfsan_set_label` -/
def setLabel (l : Label) : ℕ → ℕ → (ℕ → Label) → ℕ → Label
  | 0, _, mem => mem
  | n+1, a, mem =>
    setLabel l n (a+1) (if l = mem a then mem else fun x => if x = a then l else mem x)

def fill {L : Type} (mem : ℕ → L) (a n : ℕ) (l : L) : ℕ → L :=
  fun x => if a ≤ x ∧ x < a+n then l else mem x

def move {L : Type} (mem : ℕ → L) (dest source n : ℕ) : ℕ → L :=
  fun x => if dest ≤ x ∧ x < dest+n then mem (source+(x-dest)) else mem x

theorem store_labels_fill {L : Type} (l : L) (n a : ℕ) (mem : ℕ → L) :
    storeLabels l n a mem = fill mem a n l := by
  induction n, a, mem using storeLabels.induct l with
  | case1 a mem =>
    funext x
    simp only [storeLabels, fill]
    rw [if_neg (by omega)]
  | case2 n a mem ih =>
    rw [storeLabels, ih]
    funext x
    simp only [fill]
    by_cases hx : a ≤ x ∧ x < a+(n+4)
    · rw [if_pos hx]
      split_ifs <;> first | rfl | omega
    · rw [if_neg hx, if_neg (by omega), if_neg (by omega)]
  | case3 n a mem h ih =>
    have hstep : storeLabels l (n+1) a mem =
        storeLabels l n (a+1) fun x => if x = a then l else mem x := by
      rw [storeLabels]
      exact h
    rw [hstep, ih]
    funext x
    simp only [fill]
    by_cases hx : a ≤ x ∧ x < a+(n+1)
    · rw [if_pos hx]
      split_ifs <;> first | rfl | omega
    · rw [if_neg hx, if_neg (by omega), if_neg (by omega)]

theorem set_label_fill (l : Label) (n a : ℕ) (mem : ℕ → Label) :
    setLabel l n a mem = fill mem a n l := by
  induction n generalizing a mem with
  | zero =>
    funext x
    simp only [setLabel, fill]
    rw [if_neg (by omega)]
  | succ n ih =>
    have hwrite : (if l = mem a then mem else fun x => if x = a then l else mem x) =
        fun x => if x = a then l else mem x := by
      split_ifs with h
      · funext x
        split_ifs with hx
        · rw [hx, h]
        · rfl
      · rfl
    rw [setLabel, hwrite, ih]
    funext x
    simp only [fill]
    by_cases hx : a ≤ x ∧ x < a+(n+1)
    · rw [if_pos hx]
      split_ifs <;> first | rfl | omega
    · rw [if_neg hx, if_neg (by omega), if_neg (by omega)]

theorem fill_map {L M : Type} (f : L → M) (mem : ℕ → L) (a n : ℕ) (l : L) (x : ℕ) :
    f (fill mem a n l x) = fill (fun y => f (mem y)) a n (f l) x := by
  unfold fill
  split_ifs <;> rfl

theorem move_map {L M : Type} (f : L → M) (mem : ℕ → L) (dest source n x : ℕ) :
    f (move mem dest source n x) = move (fun y => f (mem y)) dest source n x := by
  unfold move
  split_ifs <;> rfl

theorem labels_map {L M : Type} (f : L → M) (mem : ℕ → L) (a n : ℕ) :
    (labels mem a n).map f = labels (fun x => f (mem x)) a n := by
  simp [labels, Function.comp_def]

/-! ### The fast path -/

theorem wide_bit (mem : ℕ → Label) (a i : ℕ) :
    (wide mem a).getLsbD i =
      if i < 32 then (mem a).getLsbD i else (mem (a+1)).getLsbD (i-32) :=
  BitVec.getLsbD_append

theorem wide_low (mem : ℕ → Label) (a : ℕ) : (wide mem a).setWidth 32 = mem a := by
  apply BitVec.eq_of_getLsbD_eq
  intro i hi
  rw [BitVec.getLsbD_setWidth, wide_bit, if_pos hi]
  simp [hi]

theorem wide_high (mem : ℕ → Label) (a i : ℕ) :
    (wide mem a).getLsbD (i+32) = (mem (a+1)).getLsbD i := by
  rw [wide_bit, if_neg (by omega), Nat.add_sub_cancel]

theorem wide_inj {mem : ℕ → Label} {a c : ℕ} (h : wide mem a = wide mem c) :
    mem a = mem c ∧ mem (a+1) = mem (c+1) := by
  refine ⟨by rw [← wide_low mem a, h, wide_low], ?_⟩
  apply BitVec.eq_of_getLsbD_eq
  intro i _
  rw [← wide_high, h, wide_high]

/-- A word that its rotation by half its width leaves as it is has two equal halves. -/
theorem rotated_halves {mem : ℕ → Label} {a : ℕ}
    (h : wide mem a = wide mem a <<< 32 ||| wide mem a >>> 32) : mem (a+1) = mem a := by
  apply BitVec.eq_of_getLsbD_eq
  intro i hi
  have hout : (wide mem a).getLsbD (32+(i+32)) = false := BitVec.getLsbD_of_ge _ _ (by omega)
  rw [← wide_high, h, BitVec.getLsbD_or, BitVec.getLsbD_shiftLeft, BitVec.getLsbD_ushiftRight,
    hout, Nat.add_sub_cancel, wide_bit, if_pos hi]
  simp [show i+32 < 64 by omega]

theorem words_equal {mem : ℕ → Label} {w : BitVec 64} (n a : ℕ)
    (h : wordsEqual mem w n a = true) : ∀ i < n, wide mem (a+2*(i+1)) = w := by
  induction n generalizing a with
  | zero =>
    intro i hi
    omega
  | succ n ih =>
    rw [wordsEqual, Bool.and_eq_true, beq_iff_eq] at h
    intro i hi
    cases i with
    | zero => exact h.1
    | succ i =>
      rw [← ih (a+2) h.2 i (by omega)]
      congr 1
      omega

/-- When the comparisons succeed all bytes carry the label of the first one. -/
theorem fast_same {mem : ℕ → Label} {a n : ℕ} (h0 : n % 2 = 0)
    (hrot : wide mem a = wide mem a <<< 32 ||| wide mem a >>> 32)
    (hwords : wordsEqual mem (wide mem a) (n/2-1) a = true) : ∀ i < n, mem (a+i) = mem a := by
  have hhalves := rotated_halves hrot
  intro i hi
  have hword : wide mem (a+2*(i/2)) = wide mem a := by
    obtain hz | hz := Nat.eq_zero_or_pos (i/2)
    · rw [hz]
      rfl
    · have hw := words_equal _ _ hwords (i/2-1) (by omega)
      rwa [show i/2-1+1 = i/2 by omega] at hw
  obtain ⟨hlow, hhigh⟩ := wide_inj hword
  obtain hm | hm := Nat.mod_two_eq_zero_or_one i
  · rw [show a+i = a+2*(i/2) by omega]
    exact hlow
  · rw [show a+i = a+2*(i/2)+1 by omega]
    exact hhigh.trans hhalves

theorem join_all_const {ls : List α} {x : α} (hne : ls ≠ []) (h : ∀ y ∈ ls, y = x) :
    joinAll ls = x := by
  induction ls with
  | nil => exact absurd rfl hne
  | cons y ls ih =>
    rw [joinAll, List.foldr_cons, h y List.mem_cons_self]
    by_cases hls : ls = []
    · rw [hls]
      exact sup_bot_eq x
    · have hrest := ih hls fun z hz => h z (List.mem_cons_of_mem y hz)
      rw [joinAll] at hrest
      rw [hrest, sup_idem]

theorem den_union_load (mem : ℕ → Label) (a n : ℕ) :
    R.den (R.combineN (labels mem a n)) = joinAll (labels (fun x => R.den (mem x)) a n) := by
  rw [R.den_combineN, labels_map]
  rfl

theorem den_fast_load {mem : ℕ → Label} {a n : ℕ} (hpos : 0 < n) (h0 : n % 2 = 0) :
    R.den (fastLoad R mem a n) = joinAll (labels (fun x => R.den (mem x)) a n) := by
  unfold fastLoad
  simp only [Nat.reduceSub]
  split_ifs with h
  · have hsame := fast_same h0 h.1 h.2
    rw [wide_low, join_all_const]
    · simp only [labels, ne_eq, List.map_eq_nil_iff, List.range_eq_nil]
      omega
    · intro y hy
      obtain ⟨i, hi, rfl⟩ := List.mem_map.mp hy
      exact congrArg R.den (hsame i (List.mem_range.mp hi))
  · exact den_union_load R mem a n

end Runtime

/-! ## The two machines -/

/-- The labels of the values or shadows, of the memory and of the local variables that have
a cell of their own, what the callees were handed, and the two return slots. -/
structure Machine (N L : Type) where
  env : N → L
  mem : ℕ → L
  cells : Value → L
  passed : List (List L)
  retval : L
  labelReturn : L

/-- What the run decides for one instruction. `label` is the label a callee returns, or
what a new cell happens to hold; `after` is the memory a callee leaves behind. -/
structure Input (L : Type) where
  addr : ℕ
  source : ℕ
  length : ℕ
  taken : Bool
  label : L
  after : ℕ → L

def Input.map {L M : Type} (f : L → M) (d : Input L) : Input M where
  addr := d.addr
  source := d.source
  length := d.length
  taken := d.taken
  label := f d.label
  after := fun x => f (d.after x)

def Machine.define {N L : Type} [DecidableEq N] (m : Machine N L) (n : N) (l : L) :
    Machine N L :=
  { m with env := fun x => if x = n then l else m.env x }

def Machine.setCell {N L : Type} (m : Machine N L) (AI : Value) (l : L) : Machine N L :=
  { m with cells := fun x => if x = AI then l else m.cells x }

section Shadows
variable {α : Type} [SemilatticeSup α] [OrderBot α] (R : Runtime α)

def exec (b k i : ℕ) (d : Input Label) (m : Machine Shadow Label) :
    ShadowOp → Machine Shadow Label
  | .loadCell AI => m.define (.tmp b k i) (m.cells AI)
  | .load => m.define (.tmp b k i) (m.mem d.addr)
  | .fastLoad Size => m.define (.tmp b k i) (fastLoad R m.mem d.addr Size)
  | .unionLoad Size => m.define (.tmp b k i) (R.combineN (labels m.mem d.addr Size))
  | .storeCell AI S => m.setCell AI (m.env S)
  | .storeZero Size => { m with mem := fill m.mem d.addr Size 0 }
  | .store Size S => { m with mem := storeLabels (m.env S) Size d.addr m.mem }
  | .checkedUnion V1 V2 => m.define (.tmp b k i) (R.checkedUnion (m.env V1) (m.env V2))
  | .guardedUnion V1 V2 =>
    m.define (.tmp b k i)
      (if m.env V1 ≠ m.env V2 then R.union (m.env V1) (m.env V2) else m.env V1)
  | .select T E => m.define (.tmp b k i) (if d.taken then m.env T else m.env E)
  | .alloca I => m.setCell I d.label
  | .setLabel S => { m with mem := setLabel (m.env S) d.length d.addr m.mem }
  | .memTransfer => { m with mem := move m.mem d.addr d.source d.length }
  | .pass Ss => { m with passed := m.passed ++ [Ss.map m.env] }
  | .callee true => { m with mem := d.after, labelReturn := d.label }
  | .callee false => { m with mem := d.after, retval := d.label }
  | .loadRetval => m.define (.tmp b k i) m.retval
  | .loadLabelReturn => m.define (.tmp b k i) m.labelReturn
  | .storeRetval S => { m with retval := m.env S }
  | .unimplemented => m
  | .markSigned _ _ => m
  | .inferShape _ _ _ => m
  | .combineAnd _ => m

def execAll (b k : ℕ) (d : Input Label) :
    ℕ → List ShadowOp → Machine Shadow Label → Machine Shadow Label
  | _, [], m => m
  | i, op::ops, m => execAll b k d (i+1) ops (exec R b k i d m op)

/-- The shadow phi nodes of `b` read the shadows of the edge from `p`, all at once. -/
def enterShadows (s : DFSanFunction) (p b : ℕ) (m : Machine Shadow Label) :
    Machine Shadow Label :=
  { m with
    env := fun S =>
      match S with
      | .phi b' j =>
        if b' = b then
          match (s.phis b j).lookup p with
          | some V => m.env V
          | none => m.env (.phi b' j)
        else m.env (.phi b' j)
      | S => m.env S }

def shadowInsts (s : DFSanFunction) (b : ℕ) (ds : ℕ → Input Label) :
    ℕ → List Inst → Machine Shadow Label → Machine Shadow Label
  | _, [], m => m
  | k, _::Is, m => shadowInsts s b ds (k+1) Is (execAll R b k (ds k) 0 (s.code b k) m)

structure Visit where
  block : ℕ
  inputs : ℕ → Input Label

def shadowRun (F : Fn) (s : DFSanFunction) :
    ℕ → List Visit → Machine Shadow Label → Machine Shadow Label
  | _, [], m => m
  | p, v::vs, m =>
    shadowRun F s v.block vs
      (shadowInsts R s v.block v.inputs 0 (F.block v.block).insts
        (enterShadows s p v.block m))

end Shadows

section Plain
variable {α : Type} [SemilatticeSup α] [OrderBot α] (o : Options) (F : Fn)

def taint (t : Machine Value α) : Value → α
  | .constantInt => ⊥
  | .other => ⊥
  | V => t.env V

def promoted : Value → Bool
  | .inst b k => decide ((F.block b).insts[k]? = some .alloca) && allLoadsStores F (.inst b k)
  | _ => false

def pointerTaint (flag : Bool) (t : Machine Value α) (ptr : Value) : α :=
  if flag then taint t ptr else ⊥

def loaded (t : Machine Value α) (d : Input α) (Size : ℕ) (AllConstants : Bool)
    (ptr : Value) : α :=
  if promoted F ptr then t.cells ptr
  else if AllConstants then ⊥
  else joinAll (labels t.mem d.addr Size)

def stored (t : Machine Value α) (d : Input α) (Size : ℕ) (ptr : Value) (l : α) :
    Machine Value α :=
  if promoted F ptr then t.setCell ptr l else { t with mem := fill t.mem d.addr Size l }

/-- The taints after one instruction, which defines the value `I`. -/
def plainStep (I : Value) (d : Input α) (t : Machine Value α) : Inst → Machine Value α
  | .operands _ _ ops => t.define I (joinAll (ops.map (taint t)))
  | .select isVector c x y =>
    t.define I (taint t c ⊔
      if isVector then taint t x ⊔ taint t y else if d.taken then taint t x else taint t y)
  | .load Size AllConstants ptr =>
    t.define I (if Size = 0 then ⊥
      else loaded F t d Size AllConstants ptr ⊔
        pointerTaint o.CombinePointerLabelsOnLoad t ptr)
  | .store Size value ptr =>
    (if Size = 0 then t
      else stored F t d Size ptr
        (taint t value ⊔ pointerTaint o.CombinePointerLabelsOnStore t ptr)).define I ⊥
  | .alloca => (if allLoadsStores F I then t.setCell I d.label else t).define I ⊥
  | .memSet value _ =>
    { t with mem := fill t.mem d.addr d.length (taint t value) }.define I ⊥
  | .memTransfer _ _ => { t with mem := move t.mem d.addr d.source d.length }.define I ⊥
  | .call .warning _ _ _ => t.define I ⊥
  | .call .discard _ _ _ => t.define I ⊥
  | .call .custom isVoid params varargs =>
    { t with
      passed := t.passed ++ [(params ++ varargs).map (taint t)]
      mem := d.after
      labelReturn := d.label }.define I (if isVoid then ⊥ else d.label)
  | .call .instrumented isVoid params _ =>
    { t with
      passed := t.passed ++ [params.map (taint t)]
      mem := d.after
      retval := d.label }.define I (if isVoid then ⊥ else d.label)
  | .ret (some V) => (if o.IsNativeABI then t else { t with retval := taint t V }).define I ⊥
  | .ret none => t.define I ⊥
  | .other _ => t.define I ⊥

def enterPlain (p b : ℕ) (t : Machine Value α) : Machine Value α :=
  { t with
    env := fun V =>
      match V with
      | .phi b' j =>
        if b' = b then
          match ((F.block b).phis.getD j []).lookup p with
          | some V => taint t V
          | none => t.env (.phi b' j)
        else t.env (.phi b' j)
      | V => t.env V }

def plainInsts (b : ℕ) (ds : ℕ → Input α) :
    ℕ → List Inst → Machine Value α → Machine Value α
  | _, [], t => t
  | k, I::Is, t => plainInsts b ds (k+1) Is (plainStep o F (.inst b k) (ds k) t I)

def plainRun (f : Label → α) : ℕ → List Visit → Machine Value α → Machine Value α
  | _, [], t => t
  | p, v::vs, t =>
    plainRun f v.block vs
      (plainInsts o F v.block (fun k => (v.inputs k).map f) 0 (F.block v.block).insts
        (enterPlain F p v.block t))

end Plain

def edge (F : Fn) (p b : ℕ) : Prop := b ∈ (F.block p).succs

def Walk (F : Fn) : ℕ → List Visit → Prop
  | _, [] => True
  | p, v::vs => edge F p v.block ∧ Walk F v.block vs

end Parmesan.ShadowRun
