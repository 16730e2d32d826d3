import Parmesan.Execution
import Mathlib.Data.Nat.Bitwise
import Mathlib.Tactic.Common

/-!
# Function-call context

The code that `AngoraPass.cc` emits for calls: `processCall` stores the number
of the call site before a call, `addFnWrap` folds it into the context at the
entry of a function and stores a saved value at every return. `before`, `site`
and `restored` are records; only the statements read them.
-/

set_option autoImplicit false

namespace Parmesan.FnContext
open Parmesan.Execution

/-- A 32-bit value, or poison. -/
abbrev Value := Option ℕ

/-- A shift by the width of its operand, or more, is poison. -/
def lshr (x : Value) (k : ℕ) : Value := if k < 32 then x.map fun v => v >>> k else none

def xor (x : Value) (y : ℕ) : Value := x.map fun v => v ^^^ y

/-- `before` is the context just before the call, `saved` the register that the
returns of the function store. -/
structure Frame where
  before : Value
  saved : Value
  site : ℕ
  deriving DecidableEq, Repr

structure Thread where
  context : Value
  callSite : ℕ
  frames : List Frame
  restored : Bool
  deriving DecidableEq, Repr

def newThread : Thread := ⟨some 0, 0, [], true⟩

inductive Event where
  | call (csid : ℕ)
  | ret
  deriving DecidableEq, Repr

variable (numFnCtx : ℤ)

def processCall (s : Thread) (csid : ℕ) : Thread :=
  if numFnCtx ≠ 0 then { s with callSite := csid } else s

def oriCtxVal (context : Value) : Value :=
  if 0 < numFnCtx then lshr context (32 / numFnCtx.toNat) else context

def preFn (s : Thread) (before : Value) (site : ℕ) : Thread :=
  let saved := oriCtxVal numFnCtx s.context
  { s with
    context := if numFnCtx ≠ 0 then xor saved s.callSite else s.context
    frames := ⟨before, saved, site⟩::s.frames }

def postFn (s : Thread) (frame : Frame) (rest : List Frame) : Thread :=
  let context := if numFnCtx ≠ 0 then frame.saved else s.context
  { s with
    context := context
    frames := rest
    restored := s.restored && decide (context = frame.before ∧ frame.before.isSome = true) }

def next (s : Thread) : Event → Option Thread
  | .call csid => some (preFn numFnCtx (processCall numFnCtx s csid) s.context csid)
  | .ret =>
    match s.frames with
    | [] => none
    | frame::rest => some (postFn numFnCtx s frame rest)

/-- The context that a stack of call sites has, the last call first. -/
def contextOf : List ℕ → Value
  | [] => some 0
  | site::sites =>
    if numFnCtx ≠ 0 then xor (oriCtxVal numFnCtx (contextOf sites)) site else contextOf sites

/-- Every return so far has restored the context of its call, and the context is
that of the current stack. -/
def Sound (s : Thread) : Prop :=
  s.restored = true ∧ s.context = contextOf numFnCtx (s.frames.map Frame.site)

/-- With a bounded context a function only returns to calls made in context zero. -/
def Restoring (s : Thread) : Event → Prop
  | .call _ => True
  | .ret => ∀ frame ∈ s.frames.head?, numFnCtx ≤ 0 ∨ 2 ≤ numFnCtx ∧ frame.before = some 0

instance (s : Thread) : (e : Event) → Decidable (Restoring numFnCtx s e)
  | .call _ => instDecidableTrue
  | .ret => inferInstanceAs (Decidable (∀ frame ∈ s.frames.head?, _))

def Linked : List Frame → Prop
  | [] => True
  | frame::rest => frame.before = contextOf numFnCtx (rest.map Frame.site) ∧
      frame.saved = oriCtxVal numFnCtx frame.before ∧ Linked rest

variable {numFnCtx} {s t : Thread}

theorem context_of_some (hn : numFnCtx < 32) (h1 : numFnCtx ≠ 1) (sites : List ℕ) :
    ∃ c, contextOf numFnCtx sites = some c := by
  induction sites with
  | nil => exact ⟨0, rfl⟩
  | cons site sites ih =>
    obtain ⟨c, hc⟩ := ih
    rw [contextOf, hc]
    by_cases h0 : numFnCtx = 0
    · exact ⟨c, if_neg (not_not.mpr h0)⟩
    · rw [if_pos h0, oriCtxVal]
      by_cases hpos : 0 < numFnCtx
      · have hk : 32 / numFnCtx.toNat < 32 := by
          apply Nat.div_lt_self <;> omega
        rw [if_pos hpos, lshr, if_pos hk]
        exact ⟨_, rfl⟩
      · rw [if_neg hpos]
        exact ⟨_, rfl⟩

theorem shift_right_eq_self {c k : ℕ} (hk : 0 < k) : c >>> k = c ↔ c = 0 := by
  constructor
  · intro h
    by_contra hne
    rw [Nat.shiftRight_eq_div_pow] at h
    have hpow : 1 < 2^k := Nat.one_lt_two_pow (by omega)
    have hlt := Nat.div_lt_self (Nat.pos_of_ne_zero hne) hpow
    omega
  · rintro rfl
    exact Nat.zero_shiftRight k

theorem ori_ctx_same (hn : numFnCtx < 32) (sites : List ℕ) :
    oriCtxVal numFnCtx (contextOf numFnCtx sites) = contextOf numFnCtx sites ∧
        (contextOf numFnCtx sites).isSome = true ↔
      numFnCtx ≤ 0 ∨ 2 ≤ numFnCtx ∧ contextOf numFnCtx sites = some 0 := by
  rcases Int.lt_trichotomy numFnCtx 1 with hlt | rfl | hgt
  · obtain ⟨c, hc⟩ := context_of_some hn (by omega) sites
    refine iff_of_true ⟨?_, by rw [hc]; rfl⟩ (Or.inl (by omega))
    rw [oriCtxVal, if_neg (by omega)]
  · refine iff_of_false ?_ (by omega)
    rintro ⟨hsame, hsome⟩
    rw [← hsame] at hsome
    cases hsome
  · obtain ⟨c, hc⟩ := context_of_some hn (by omega) sites
    have hk : 32 / numFnCtx.toNat < 32 := by
      apply Nat.div_lt_self <;> omega
    have hpos : 0 < 32 / numFnCtx.toNat := by
      apply Nat.div_pos <;> omega
    rw [hc, oriCtxVal, if_pos (by omega), lshr, if_pos hk]
    simp only [Option.map_some, Option.some.injEq, Option.isSome_some, and_true]
    rw [shift_right_eq_self hpos]
    omega

theorem next_linked {e : Event} (hs : Sound numFnCtx s) (hl : Linked numFnCtx s.frames)
    (h : next numFnCtx s e = some t) : Linked numFnCtx t.frames := by
  cases e with
  | call csid =>
    obtain rfl := Option.some.inj h
    have hsame : (processCall numFnCtx s csid).context = s.context ∧
        (processCall numFnCtx s csid).frames = s.frames := by
      unfold processCall
      split_ifs <;> exact ⟨rfl, rfl⟩
    rw [preFn]
    simp only [hsame.1, hsame.2]
    exact ⟨hs.2, rfl, hl⟩
  | ret =>
    simp only [next] at h
    split at h
    · cases h
    · rename_i frame rest hframes
      obtain rfl := Option.some.inj h
      rw [hframes] at hl
      exact hl.2.2

theorem next_sound (hn : numFnCtx < 32) {e : Event} (hs : Sound numFnCtx s)
    (hl : Linked numFnCtx s.frames) (h : next numFnCtx s e = some t) :
    Sound numFnCtx t ↔ Restoring numFnCtx s e := by
  obtain ⟨hrestored, hcontext⟩ := hs
  cases e with
  | call csid =>
    obtain rfl := Option.some.inj h
    refine iff_of_true ⟨?_, ?_⟩ trivial
    · rw [preFn, processCall]
      split_ifs <;> exact hrestored
    · rw [preFn, processCall]
      by_cases h0 : numFnCtx = 0
      · simp only [h0, ne_eq, not_true_eq_false, if_false, List.map_cons, contextOf]
        rw [hcontext, h0]
      · simp only [ne_eq, h0, not_false_eq_true, if_true, List.map_cons, contextOf]
        rw [hcontext]
  | ret =>
    simp only [next] at h
    split at h
    · cases h
    · rename_i frame rest hframes
      obtain rfl := Option.some.inj h
      rw [hframes] at hl hcontext
      obtain ⟨hbefore, hsaved, -⟩ := hl
      have hvalue : (if numFnCtx ≠ 0 then frame.saved else s.context) =
          oriCtxVal numFnCtx frame.before := by
        by_cases h0 : numFnCtx = 0
        · rw [if_neg (not_not.mpr h0), hcontext, List.map_cons, contextOf,
            if_neg (not_not.mpr h0), hbefore, oriCtxVal, if_neg (by omega)]
        · rw [if_pos h0, hsaved]
      have hcond : Restoring numFnCtx s .ret ↔
          numFnCtx ≤ 0 ∨ 2 ≤ numFnCtx ∧ frame.before = some 0 := by
        simp [Restoring, hframes]
      rw [hcond, hbefore, ← ori_ctx_same hn, Sound, postFn]
      simp only [hvalue, hrestored, Bool.true_and, decide_eq_true_eq]
      rw [hbefore]
      exact ⟨fun h => h.1, fun h => ⟨h, h.1⟩⟩

/-- Over every sequence of calls and returns, each return restores the context
of its call, and the context is that of the current stack, exactly if no
context is shifted away. -/
theorem restoring_run_sound (hn : -1 ≤ numFnCtx ∧ numFnCtx < 32) (es : List Event) (s : Thread)
    (h : replay (next numFnCtx) (fun _ _ => True) newThread es = some s) :
    (∀ js t, js <+: es → replay (next numFnCtx) (fun _ _ => True) newThread js = some t →
        Sound numFnCtx t) ↔
      replay (next numFnCtx) (Restoring numFnCtx) newThread es = some s := by
  have hstart : Linked numFnCtx newThread.frames := trivial
  have hsound : Sound numFnCtx newThread := ⟨rfl, rfl⟩
  exact replay_exact_kept (K := fun u => Linked numFnCtx u.frames) hstart hsound
    (fun _ _ _ hl hs _ hstep => next_linked hs hl hstep)
    (fun _ _ _ hl hs _ hstep => next_sound hn.2 hs hl hstep) (fun _ _ _ => trivial) es s h

def nestedCalls : List Event := [.call 0, .call 9, .call 5, .ret, .call 6, .ret, .ret, .ret]

theorem restoring_run_sound_nested : ∃ s,
    replay (next (-1)) (fun _ _ => True) newThread nestedCalls = some s ∧ Sound (-1) s := by
  have hrun : replay (next (-1)) (Restoring (-1)) newThread nestedCalls =
      some ⟨some 0, 6, [], true⟩ := by decide
  have hfree : replay (next (-1)) (fun _ _ => True) newThread nestedCalls =
      some ⟨some 0, 6, [], true⟩ := replay_mono (fun _ _ _ => trivial) _ _ _ hrun
  have hall := (restoring_run_sound (by decide) nestedCalls _ hfree).mpr hrun
  exact ⟨_, hfree, hall _ _ (List.prefix_refl _) hfree⟩

/-- With four contexts the inner call returns to context 9 shifted by eight bits. -/
theorem shifted_context_returned : ∃ s t,
    replay (next 4) (fun _ _ => True) newThread [.call 0, .call 9] = some s ∧
    replay (next 4) (fun _ _ => True) s [.call 5, .ret] = some t ∧
    s.context = some 9 ∧ t.context = some 0 ∧ s.frames = t.frames := by
  have hbefore : replay (next 4) (fun _ _ => True) newThread [.call 0, .call 9] =
      some ⟨some 9, 9, [⟨some 0, some 0, 9⟩, ⟨some 0, some 0, 0⟩], true⟩ := by decide
  have hafter : replay (next 4) (fun _ _ => True)
      ⟨some 9, 9, [⟨some 0, some 0, 9⟩, ⟨some 0, some 0, 0⟩], true⟩ [.call 5, .ret] =
      some ⟨some 0, 5, [⟨some 0, some 0, 9⟩, ⟨some 0, some 0, 0⟩], false⟩ := by decide
  exact ⟨_, _, hbefore, hafter, rfl, rfl, rfl⟩

end Parmesan.FnContext
