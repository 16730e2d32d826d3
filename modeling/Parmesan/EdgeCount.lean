import Parmesan.BranchesModel
import Parmesan.FnContext

/-!
# Counted edges

The code that `countEdge` emits at the start of a block: the byte of the map at
`prev_loc xor cur_loc` is increased, and `prev_loc` becomes half the block's
number, xored with the context. `hits` records the indices; only the statements
read it.
-/

set_option autoImplicit false

namespace Parmesan.EdgeCount
open Parmesan.BranchesModel Parmesan.FnContext Parmesan.Execution

def MAP_SIZE : ℕ := 2^20

/-- The numbers that the pass draws for a block and for a call. -/
def getRandomBasicBlockId (random : ℕ) : ℕ := random % MAP_SIZE
def getRandomContextId (randomNum : ℕ) : ℕ := randomNum % MAP_SIZE

/-- `IncRet`: the counter skips zero when it wraps. -/
def incCounter (counter : Byte) : Byte :=
  let incRet := counter+1
  incRet+(if incRet = 0 then 1 else 0)

structure Process where
  thread : Thread
  prevLoc : Value
  map : BranchBuf
  hits : List ℕ

def newProcess : Process := ⟨newThread, some 0, fun _ => 0, []⟩

/-- A block is given by the number drawn for it, a call by that of its site. -/
inductive Event where
  | block (random : ℕ)
  | call (randomNum : ℕ)
  | ret

variable (numFnCtx : ℤ)

def newPrevLoc (context : Value) (curLoc : ℕ) : Value :=
  if numFnCtx ≠ 0 then xor context (curLoc >>> 1) else some (curLoc >>> 1)

/-- An access at a poison index is undefined. -/
def countEdge (s : Process) (curLoc : ℕ) : Option Process :=
  s.prevLoc.map fun prevLoc =>
    let brId := prevLoc ^^^ curLoc
    { s with
      map := Function.update s.map brId (incCounter (s.map brId))
      prevLoc := newPrevLoc numFnCtx s.thread.context curLoc
      hits := brId::s.hits }

def next (s : Process) : Event → Option Process
  | .block random => countEdge numFnCtx s (getRandomBasicBlockId random)
  | .call randomNum =>
    (FnContext.next numFnCtx s.thread (.call (getRandomContextId randomNum))).map fun t =>
      { s with thread := t }
  | .ret => (FnContext.next numFnCtx s.thread .ret).map fun t => { s with thread := t }

def Small (x : Value) : Prop := ∃ v < MAP_SIZE, x = some v

/-- What every run keeps: the numbers stay small, and a byte is zero exactly if
its index has not been hit. -/
structure Inv (s : Process) : Prop where
  context : Small s.thread.context
  saved : ∀ frame ∈ s.thread.frames, Small frame.saved
  prevLoc : Small s.prevLoc
  hits : ∀ i ∈ s.hits, i < MAP_SIZE
  counted : ∀ i, 0 < s.map i ↔ i ∈ s.hits

variable {numFnCtx} {s t : Process}

theorem inc_counter_pos (counter : Byte) : 0 < incCounter counter := by
  revert counter
  decide +kernel

theorem xor_small {v w : ℕ} (hv : v < MAP_SIZE) (hw : w < MAP_SIZE) : v ^^^ w < MAP_SIZE :=
  Nat.xor_lt_two_pow hv hw

theorem shift_small {v : ℕ} (k : ℕ) (hv : v < MAP_SIZE) : v >>> k < MAP_SIZE :=
  lt_of_le_of_lt (Nat.shiftRight_le v k) hv

theorem small_xor {x : Value} {w : ℕ} (hx : Small x) (hw : w < MAP_SIZE) : Small (xor x w) := by
  obtain ⟨v, hv, rfl⟩ := hx
  exact ⟨v ^^^ w, xor_small hv hw, rfl⟩

theorem ori_ctx_small (hn : numFnCtx < 32) (h1 : numFnCtx ≠ 1) {x : Value} (hx : Small x) :
    Small (oriCtxVal numFnCtx x) := by
  obtain ⟨v, hv, rfl⟩ := hx
  unfold oriCtxVal
  split_ifs with hpos
  · have hk : 32 / numFnCtx.toNat < 32 := by
      apply Nat.div_lt_self <;> omega
    rw [lshr, if_pos hk]
    exact ⟨_, shift_small _ hv, rfl⟩
  · exact ⟨v, hv, rfl⟩

theorem draw_small (r : ℕ) : r % MAP_SIZE < MAP_SIZE := Nat.mod_lt r (by decide)

theorem count_edge_inv {curLoc : ℕ} (hc : curLoc < MAP_SIZE) (hi : Inv s)
    (h : countEdge numFnCtx s curLoc = some t) : Inv t := by
  obtain ⟨prevLoc, hprev, rfl⟩ := Option.map_eq_some_iff.mp h
  have hhalf : curLoc >>> 1 < MAP_SIZE := shift_small 1 hc
  have hindex : prevLoc ^^^ curLoc < MAP_SIZE := by
    obtain ⟨v, hv, heq⟩ := hi.prevLoc
    rw [hprev] at heq
    obtain rfl := Option.some.inj heq
    exact xor_small hv hc
  refine ⟨hi.context, hi.saved, ?_, ?_, ?_⟩
  · simp only [newPrevLoc]
    split_ifs
    · exact small_xor hi.context hhalf
    · exact ⟨_, hhalf, rfl⟩
  · intro i hm
    rcases List.mem_cons.mp hm with rfl | hm
    · exact hindex
    · exact hi.hits i hm
  · intro i
    simp only [List.mem_cons]
    by_cases heq : i = prevLoc ^^^ curLoc
    · rw [heq, Function.update_self]
      exact iff_of_true (inc_counter_pos _) (Or.inl rfl)
    · rw [Function.update_of_ne heq, hi.counted i]
      simp [heq]

theorem thread_small (hn : numFnCtx < 32) (h1 : numFnCtx ≠ 1) {u v : Thread}
    {e : FnContext.Event} (he : ∀ csid, e = .call csid → csid < MAP_SIZE)
    (hu : Small u.context ∧ ∀ frame ∈ u.frames, Small frame.saved)
    (h : FnContext.next numFnCtx u e = some v) :
    Small v.context ∧ ∀ frame ∈ v.frames, Small frame.saved := by
  obtain ⟨hcontext, hframes⟩ := hu
  cases e with
  | call csid =>
    obtain rfl := Option.some.inj h
    have hsaved := ori_ctx_small hn h1 hcontext
    by_cases h0 : numFnCtx = 0
    · rw [processCall, if_neg (not_not.mpr h0), preFn]
      simp only [h0, ne_eq, not_true_eq_false, if_false, List.mem_cons, forall_eq_or_imp]
      rw [h0] at hsaved
      exact ⟨hcontext, hsaved, hframes⟩
    · rw [processCall, if_pos h0, preFn]
      simp only [ne_eq, h0, not_false_eq_true, if_true, List.mem_cons, forall_eq_or_imp]
      exact ⟨small_xor hsaved (he csid rfl), hsaved, hframes⟩
  | ret =>
    simp only [FnContext.next] at h
    split at h
    · cases h
    · rename_i frame rest heq
      obtain rfl := Option.some.inj h
      rw [heq] at hframes
      refine ⟨?_, fun f hf => hframes f (List.mem_cons_of_mem frame hf)⟩
      simp only [postFn]
      split_ifs
      · exact hframes frame List.mem_cons_self
      · exact hcontext

theorem next_inv (hn : numFnCtx < 32) (h1 : numFnCtx ≠ 1) {e : Event} (hi : Inv s)
    (h : next numFnCtx s e = some t) : Inv t := by
  cases e with
  | block random => exact count_edge_inv (draw_small random) hi h
  | call randomNum =>
    rw [next] at h
    obtain ⟨u, hu, rfl⟩ := Option.map_eq_some_iff.mp h
    have hsmall : ∀ csid, FnContext.Event.call (getRandomContextId randomNum) = .call csid →
        csid < MAP_SIZE := by
      rintro csid ⟨rfl⟩
      exact draw_small randomNum
    obtain ⟨hcontext, hsaved⟩ := thread_small hn h1 hsmall ⟨hi.context, hi.saved⟩ hu
    exact ⟨hcontext, hsaved, hi.prevLoc, hi.hits, hi.counted⟩
  | ret =>
    obtain ⟨u, hu, rfl⟩ := Option.map_eq_some_iff.mp h
    have hsmall : ∀ csid, FnContext.Event.ret = .call csid → csid < MAP_SIZE := by
      rintro csid ⟨⟩
    obtain ⟨hcontext, hsaved⟩ := thread_small hn h1 hsmall ⟨hi.context, hi.saved⟩ hu
    exact ⟨hcontext, hsaved, hi.prevLoc, hi.hits, hi.counted⟩

theorem new_process_inv : Inv newProcess := by
  have hzero : Small (some 0) := ⟨0, by decide, rfl⟩
  refine ⟨hzero, ?_, hzero, ?_, ?_⟩
  · intro frame hf
    cases hf
  · intro i hi
    cases hi
  · intro i
    simp [newProcess]

/-- In every run the next index is below the size of the map, and `get_path`
lists exactly the indices hit. -/
theorem counted_edges (hn : numFnCtx = 0 ∨ numFnCtx = -1 ∨ 2 ≤ numFnCtx ∧ numFnCtx ≤ 31)
    (h : Reachable (next numFnCtx) (fun _ _ => True) newProcess s) :
    MAP_SIZE = BRANCHES_SIZE ∧
    (∃ prevLoc, s.prevLoc = some prevLoc ∧
      ∀ random, prevLoc ^^^ getRandomBasicBlockId random < MAP_SIZE) ∧
    (∀ i ∈ s.hits, i < MAP_SIZE) ∧
    ∀ i, i ∈ (getPath s.map).map Prod.fst ↔ i ∈ s.hits := by
  have hinv : Inv s :=
    reachable_invariant new_process_inv (fun _ _ _ hi _ hstep => next_inv (by omega) (by omega) hi hstep) h
  refine ⟨rfl, ?_, hinv.hits, ?_⟩
  · obtain ⟨prevLoc, hlow, hprev⟩ := hinv.prevLoc
    exact ⟨prevLoc, hprev, fun random => xor_small hlow (draw_small random)⟩
  · intro i
    rw [← hinv.counted, List.mem_map]
    constructor
    · rintro ⟨br, hbr, rfl⟩
      exact ((mem_get_path s.map br).mp hbr).2.1
    · intro hpos
      have hlow : i < BRANCHES_SIZE := hinv.hits i ((hinv.counted i).mp hpos)
      exact ⟨(i, countBucket (s.map i)), (mem_get_path s.map _).mpr ⟨hlow, hpos, rfl⟩, rfl⟩

def loopEvents : List Event := [.call 3, .block 6, .block 9, .block 6, .block 9, .ret, .block 1]

theorem counted_edges_loop : ∃ s, Reachable (next 4) (fun _ _ => True) newProcess s ∧
    s.hits = [6, 9, 1, 9, 6] ∧ ∀ i, i ∈ (getPath s.map).map Prod.fst ↔ i ∈ [6, 9, 1, 9, 6] := by
  have hrun : (replay (next 4) (fun _ _ => True) newProcess loopEvents).map Process.hits =
      some [6, 9, 1, 9, 6] := by decide +kernel
  obtain ⟨s, hs, hhits⟩ := Option.map_eq_some_iff.mp hrun
  have hreach := replay_reachable _ _ _ hs
  obtain ⟨-, -, -, hpath⟩ := counted_edges (Or.inr (Or.inr (by decide))) hreach
  rw [hhits] at hpath
  exact ⟨s, hreach, hhits, hpath⟩

end Parmesan.EdgeCount
