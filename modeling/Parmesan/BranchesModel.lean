import Mathlib.Algebra.Order.Ring.Nat
import Mathlib.Data.List.Basic
import Mathlib.Data.List.Nodup
import Mathlib.Logic.Function.Basic

/-!
# Branch counting

`fuzzer/src/branches.rs`: the global maps of branches not yet seen, and the
test whether the trace of one execution has something new. A map byte starts
at 255 and loses the bit of every count bucket met. Only the indices below
`BRANCHES_SIZE` of a buffer are in use.
-/

set_option autoImplicit false

namespace Parmesan.BranchesModel

abbrev Byte := BitVec 8

def MAP_SIZE_POW2 : ℕ := 20
def BRANCHES_SIZE : ℕ := 2^MAP_SIZE_POW2
def ENTRY_SIZE : ℕ := 8

abbrev BranchBuf := ℕ → Byte

/-- Buckets `[1]`, `[2]`, `[3]`, `[4, 7]`, `[8, 15]`, `[16, 31]`, `[32, 127]`, `[128, 255]`. -/
def COUNT_LOOKUP : List Byte :=
  [0, 1, 2, 4] ++ List.replicate 4 8 ++ List.replicate 8 16 ++ List.replicate 16 32 ++
    List.replicate 96 64 ++ List.replicate 128 128

def countBucket (v : Byte) : Byte := COUNT_LOOKUP.getD v.toNat 0

def entry (buf : BranchBuf) (i : ℕ) : ℕ :=
  (List.range ENTRY_SIZE).foldr (fun j acc => acc*256+(buf (i*ENTRY_SIZE+j)).toNat) 0

def hit (buf : BranchBuf) (idx : ℕ) : Option (ℕ × Byte) :=
  if 0 < buf idx then some (idx, countBucket (buf idx)) else none

def getPath (trace : BranchBuf) : List (ℕ × Byte) :=
  (List.range (BRANCHES_SIZE / ENTRY_SIZE)).flatMap fun i =>
    if 0 < entry trace i then
      (List.range ENTRY_SIZE).filterMap fun j => hit trace (i*ENTRY_SIZE+j)
    else []

inductive StatusType where
  | normal
  | timeout
  | crash
  | skip
  | error
  deriving DecidableEq, Repr

structure GlobalBranches where
  virgin : BranchBuf
  tmouts : BranchBuf
  crashes : BranchBuf
  density : ℕ

def newGlobalBranches : GlobalBranches := ⟨fun _ => 255, fun _ => 255, fun _ => 255, 0⟩

/-- The loop under the read lock: what to write, and how many indices are new. -/
def readBranches (gb : BranchBuf) : List (ℕ × Byte) → List (ℕ × Byte) × ℕ
  | [] => ([], 0)
  | br::path =>
    let gbV := gb br.1
    let rest := readBranches gb path
    (if 0 < br.2 &&& gbV then (br.1, gbV &&& ~~~br.2)::rest.1 else rest.1,
      if gbV = 255 then rest.2+1 else rest.2)

def writeBranches (gb : BranchBuf) (toWrite : List (ℕ × Byte)) : BranchBuf :=
  toWrite.foldl (fun gb br => Function.update gb br.1 br.2) gb

-- `fetch_add` on an `AtomicUsize` wraps.
def addDensity (density numNewEdge : ℕ) : ℕ := (density+numNewEdge) % 2^64

def gbMap (g : GlobalBranches) : StatusType → Option BranchBuf
  | .normal => some g.virgin
  | .timeout => some g.tmouts
  | .crash => some g.crashes
  | .skip => none
  | .error => none

def setGbMap (g : GlobalBranches) (gb : BranchBuf) : StatusType → GlobalBranches
  | .normal => { g with virgin := gb }
  | .timeout => { g with tmouts := gb }
  | .crash => { g with crashes := gb }
  | .skip => g
  | .error => g

/-- `hasPathToTarget` is the answer of the control-flow graph. -/
def hasNew (hasPathToTarget : ℕ → Bool) (g : GlobalBranches) (trace : BranchBuf)
    (status : StatusType) (directed : Bool) : GlobalBranches × Bool × Bool × ℕ :=
  match gbMap g status with
  | none => (g, false, false, 0)
  | some gb =>
    let path := getPath trace
    let found := readBranches gb path
    let g := if 0 < found.2 ∧ status = .normal
      then { g with density := addDensity g.density found.2 } else g
    if found.1 = [] then (g, false, false, path.length)
    else (setGbMap g (writeBranches gb found.1) status,
      if !directed then true else found.1.any fun br => hasPathToTarget br.1,
      0 < found.2, path.length)

theorem foldr_word_pos (f : ℕ → Byte) (l : List ℕ) :
    0 < l.foldr (fun j acc => acc*256+(f j).toNat) 0 ↔ ∃ j ∈ l, 0 < (f j) := by
  induction l with
  | nil => simp
  | cons a l ih =>
    have hpos : 0 < (f a).toNat ↔ 0 < f a := by rw [BitVec.lt_def]; simp
    simp only [List.foldr_cons, List.mem_cons, exists_eq_or_imp, ← ih, ← hpos]
    omega

theorem scan_words (trace : BranchBuf) (n : ℕ) :
    ((List.range n).flatMap fun i => if 0 < entry trace i then
      (List.range ENTRY_SIZE).filterMap fun j => hit trace (i*ENTRY_SIZE+j) else []) =
    (List.range (n*ENTRY_SIZE)).filterMap (hit trace) := by
  induction n with
  | zero => simp
  | succ n ih =>
    have hword : (if 0 < entry trace n then
        (List.range ENTRY_SIZE).filterMap fun j => hit trace (n*ENTRY_SIZE+j) else []) =
        ((List.range ENTRY_SIZE).map fun j => n*ENTRY_SIZE+j).filterMap (hit trace) := by
      rw [List.filterMap_map]
      split_ifs with hpos
      · rfl
      · symm
        apply List.filterMap_eq_nil_iff.mpr
        intro j hj
        have hzero : ¬ 0 < trace (n*ENTRY_SIZE+j) := fun hlt =>
          hpos ((foldr_word_pos _ _).mpr ⟨j, hj, hlt⟩)
        rw [Function.comp, hit, if_neg hzero]
    rw [List.range_succ, List.flatMap_append, ih, List.flatMap_singleton, hword, Nat.succ_mul,
      List.range_add, List.filterMap_append]

/-- Skipping words of zeros leaves out nothing. -/
theorem get_path_bytewise (trace : BranchBuf) :
    getPath trace = (List.range BRANCHES_SIZE).filterMap (hit trace) := by
  have hsize : BRANCHES_SIZE / ENTRY_SIZE * ENTRY_SIZE = BRANCHES_SIZE := by decide
  rw [getPath, scan_words, hsize]

theorem hit_spec (trace : BranchBuf) (idx : ℕ) (br : ℕ × Byte) :
    hit trace idx = some br ↔ 0 < trace idx ∧ br = (idx, countBucket (trace idx)) := by
  unfold hit
  split_ifs with hpos
  · rw [Option.some.injEq]
    exact ⟨fun h => ⟨hpos, h.symm⟩, fun h => h.2.symm⟩
  · exact ⟨fun h => h.elim, fun h => absurd h.1 hpos⟩

theorem mem_get_path (trace : BranchBuf) (br : ℕ × Byte) :
    br ∈ getPath trace ↔
      br.1 < BRANCHES_SIZE ∧ 0 < trace br.1 ∧ br.2 = countBucket (trace br.1) := by
  rw [get_path_bytewise, List.mem_filterMap]
  constructor
  · rintro ⟨idx, hidx, hh⟩
    obtain ⟨hpos, rfl⟩ := (hit_spec trace idx br).mp hh
    exact ⟨List.mem_range.mp hidx, hpos, rfl⟩
  · rintro ⟨hlt, hpos, hb⟩
    exact ⟨br.1, List.mem_range.mpr hlt, (hit_spec trace br.1 br).mpr ⟨hpos, Prod.ext rfl hb⟩⟩

theorem get_path_nodup (trace : BranchBuf) : ((getPath trace).map Prod.fst).Nodup := by
  have hmap : (getPath trace).map Prod.fst =
      (List.range BRANCHES_SIZE).filter fun idx => 0 < trace idx := by
    rw [get_path_bytewise, List.map_filterMap, ← List.filterMap_eq_filter]
    congr 1
    funext idx
    simp [hit, Option.guard]
  rw [hmap]
  exact List.Nodup.filter _ List.nodup_range

theorem count_bucket_bit {v : Byte} (hv : 0 < v) : ∃ k < 8, countBucket v = BitVec.twoPow 8 k := by
  have htail : ∀ b ∈ COUNT_LOOKUP.tail, ∃ k < 8, b = BitVec.twoPow 8 k := by
    intro b hb
    simp only [COUNT_LOOKUP, List.cons_append, List.nil_append, List.tail_cons, List.mem_cons,
      List.mem_append, List.mem_replicate] at hb
    rcases hb with rfl | rfl | rfl | (((h | h) | h) | h) | h
    · exact ⟨0, by decide, by decide⟩
    · exact ⟨1, by decide, by decide⟩
    · exact ⟨2, by decide, by decide⟩
    · exact ⟨3, by decide, by rw [h.2]; decide⟩
    · exact ⟨4, by decide, by rw [h.2]; decide⟩
    · exact ⟨5, by decide, by rw [h.2]; decide⟩
    · exact ⟨6, by decide, by rw [h.2]; decide⟩
    · exact ⟨7, by decide, by rw [h.2]; decide⟩
  have hpos : 0 < v.toNat := by simpa [BitVec.lt_def] using hv
  have hlen : COUNT_LOOKUP.tail.length = 255 := by
    simp only [COUNT_LOOKUP, List.length_tail, List.length_append, List.length_replicate,
      List.length_cons, List.length_nil]
  have hlt : v.toNat-1 < COUNT_LOOKUP.tail.length := by
    have := v.isLt
    omega
  apply htail
  have hget : countBucket v = COUNT_LOOKUP.tail[v.toNat-1] := by
    rw [List.getElem_tail, countBucket, List.getD_eq_getElem?_getD,
      List.getElem?_eq_getElem (by simp only [List.length_tail] at hlt; omega), Option.getD_some]
    congr 1
    omega
  rw [hget]
  exact List.getElem_mem hlt

theorem count_bucket_ne_zero {v : Byte} (hv : 0 < v) : countBucket v ≠ 0 := by
  obtain ⟨k, hk, hb⟩ := count_bucket_bit hv
  rw [hb]
  intro h
  have hbit := congrArg (fun b => b.getLsbD k) h
  simp [hk] at hbit

def traceAtZero (v : Byte) : BranchBuf := fun i => if i = 0 then v else 0

theorem get_path_at_zero {v : Byte} (hv : 0 < v) : getPath (traceAtZero v) = [(0, countBucket v)] := by
  have hsize : BRANCHES_SIZE = (BRANCHES_SIZE-1)+1 := by decide
  have hrest : (List.map Nat.succ (List.range (BRANCHES_SIZE-1))).filterMap
      (hit (traceAtZero v)) = [] := by
    apply List.filterMap_eq_nil_iff.mpr
    intro i hi
    obtain ⟨j, -, rfl⟩ := List.mem_map.mp hi
    rw [hit, if_neg (by simp [traceAtZero])]
  rw [get_path_bytewise, hsize, List.range_succ_eq_map, List.filterMap_cons, hrest]
  simp only [hit, traceAtZero, if_true, hv]

theorem mem_read_branches (gb : BranchBuf) (path : List (ℕ × Byte)) (br : ℕ × Byte) :
    br ∈ (readBranches gb path).1 ↔
      ∃ b, (br.1, b) ∈ path ∧ 0 < b &&& gb br.1 ∧ br.2 = gb br.1 &&& ~~~b := by
  induction path with
  | nil => simp [readBranches]
  | cons a path ih =>
    have hhead : (br = (a.1, gb a.1 &&& ~~~a.2) ∧ 0 < a.2 &&& gb a.1) ↔
        ∃ b, (br.1, b) = a ∧ 0 < b &&& gb br.1 ∧ br.2 = gb br.1 &&& ~~~b := by
      constructor
      · rintro ⟨rfl, hpos⟩
        exact ⟨a.2, rfl, hpos, rfl⟩
      · rintro ⟨b, rfl, hpos, hv⟩
        exact ⟨Prod.ext rfl hv, hpos⟩
    have hsplit : br ∈ (readBranches gb (a::path)).1 ↔
        (br = (a.1, gb a.1 &&& ~~~a.2) ∧ 0 < a.2 &&& gb a.1) ∨ br ∈ (readBranches gb path).1 := by
      simp only [readBranches]
      by_cases hpos : 0 < a.2 &&& gb a.1
      · rw [if_pos hpos, List.mem_cons]
        simp only [hpos, and_true]
      · rw [if_neg hpos]
        simp only [hpos, and_false, false_or]
    rw [hsplit, hhead, ih]
    constructor
    · rintro (⟨b, hb, hrest⟩ | ⟨b, hb, hrest⟩)
      · exact ⟨b, List.mem_cons.mpr (Or.inl hb), hrest⟩
      · exact ⟨b, List.mem_cons.mpr (Or.inr hb), hrest⟩
    · rintro ⟨b, hb, hrest⟩
      rcases List.mem_cons.mp hb with hb | hb
      · exact Or.inl ⟨b, hb, hrest⟩
      · exact Or.inr ⟨b, hb, hrest⟩

theorem read_branches_sublist (gb : BranchBuf) (path : List (ℕ × Byte)) :
    ((readBranches gb path).1.map Prod.fst).Sublist (path.map Prod.fst) := by
  induction path with
  | nil => simp [readBranches]
  | cons a path ih =>
    simp only [readBranches, List.map_cons]
    split_ifs
    · exact ih.cons_cons a.1
    · exact ih.cons a.1

theorem num_new_edge_eq (gb : BranchBuf) (path : List (ℕ × Byte)) :
    (readBranches gb path).2 = ((path.map Prod.fst).filter fun i => gb i = 255).length := by
  induction path with
  | nil => rfl
  | cons a path ih =>
    simp only [readBranches, List.map_cons]
    by_cases h : gb a.1 = 255
    · rw [if_pos h, List.filter_cons_of_pos (by simpa using h), List.length_cons, ih]
    · rw [if_neg h, List.filter_cons_of_neg (by simpa using h), ih]

theorem write_branches_other (toWrite : List (ℕ × Byte)) (gb : BranchBuf) (i : ℕ)
    (hi : i ∉ toWrite.map Prod.fst) : writeBranches gb toWrite i = gb i := by
  induction toWrite generalizing gb with
  | nil => rfl
  | cons br toWrite ih =>
    simp only [List.map_cons, List.mem_cons, not_or] at hi
    have hrest := ih (Function.update gb br.1 br.2) hi.2
    rw [Function.update_of_ne hi.1] at hrest
    exact hrest

theorem write_branches_mem (toWrite : List (ℕ × Byte)) (gb : BranchBuf)
    (hn : (toWrite.map Prod.fst).Nodup) (br : ℕ × Byte) (hbr : br ∈ toWrite) :
    writeBranches gb toWrite br.1 = br.2 := by
  induction toWrite generalizing gb with
  | nil => simp at hbr
  | cons a toWrite ih =>
    rw [List.map_cons, List.nodup_cons] at hn
    rcases List.mem_cons.mp hbr with rfl | hbr
    · have hrest := write_branches_other toWrite (Function.update gb br.1 br.2) br.1 hn.1
      rw [Function.update_self] at hrest
      exact hrest
    · exact ih (Function.update gb a.1 a.2) hn.2 hbr

theorem has_new_normal (hasPathToTarget : ℕ → Bool) (g : GlobalBranches) (trace : BranchBuf)
    (directed : Bool) (hd : g.density < 2^64) :
    (hasNew hasPathToTarget g trace .normal directed).1 =
      { g with
        virgin := writeBranches g.virgin (readBranches g.virgin (getPath trace)).1
        density := addDensity g.density (readBranches g.virgin (getPath trace)).2 } := by
  simp only [hasNew, gbMap, setGbMap, and_true]
  generalize hr : readBranches g.virgin (getPath trace) = r
  have hkeep : addDensity g.density 0 = g.density := Nat.mod_eq_of_lt hd
  by_cases hz : 0 < r.2
  · by_cases hw : r.1 = []
    · simp [hz, hw, writeBranches]
    · simp [hz, hw]
  · have h0 : r.2 = 0 := by omega
    by_cases hw : r.1 = []
    · simp [h0, hw, writeBranches, hkeep]
    · simp [h0, hw, hkeep]

end Parmesan.BranchesModel
