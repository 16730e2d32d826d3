import Parmesan.BranchesModel
import Parmesan.Execution
import Mathlib.Data.Finset.Card

/-!
# Workers racing on the map of branches

`has_new` reads the virgin map under a read lock and stores the values it
computed there under a later write lock. Between the two steps another call
may read and store the same byte.
-/

set_option autoImplicit false

namespace Parmesan.BranchesRace
open Parmesan.BranchesModel Parmesan.Execution

def Below (v gb : Byte) : Prop := v &&& gb = v

theorem below_trans {u v gb : Byte} (h : Below u v) (h' : Below v gb) : Below u gb := by
  unfold Below at *
  rw [← h, BitVec.and_assoc, h']

theorem below_bit {v gb : Byte} (h : Below v gb) (k : ℕ) (hk : gb.getLsbD k = false) :
    v.getLsbD k = false := by
  rw [← h, BitVec.getLsbD_and, hk, Bool.and_false]

/-- Stores that clear bits of `gb` and mark the bytes they touch. -/
structure Waiting (gb : BranchBuf) (toWrite : List (ℕ × Byte)) : Prop where
  nodup : (toWrite.map Prod.fst).Nodup
  range : ∀ br ∈ toWrite, br.1 < BRANCHES_SIZE
  fresh : ∀ br ∈ toWrite, br.2 ≠ 255
  below : ∀ br ∈ toWrite, Below br.2 (gb br.1)

theorem byte_pos {b : Byte} (h : b ≠ 0) : 0 < b := by
  rw [BitVec.lt_def]
  have : b.toNat ≠ 0 := fun h0 => h (BitVec.eq_of_toNat_eq h0)
  exact Nat.pos_of_ne_zero this

theorem read_waiting (gb : BranchBuf) (trace : BranchBuf) :
    Waiting gb (readBranches gb (getPath trace)).1 where
  nodup := (read_branches_sublist _ _).nodup (get_path_nodup trace)
  range := by
    intro br hbr
    obtain ⟨b, hb, -, -⟩ := (mem_read_branches _ _ br).mp hbr
    exact ((mem_get_path trace _).mp hb).1
  fresh := by
    intro br hbr
    obtain ⟨b, -, hpos, hv⟩ := (mem_read_branches _ _ br).mp hbr
    rw [hv]
    intro heq
    have hnot : ~~~b = BitVec.allOnes 8 := (BitVec.and_eq_allOnes_iff.mp heq).2
    have hzero : b = 0 := by
      rw [← BitVec.not_not (b := b), hnot]
      rfl
    have hand : (0 : Byte) &&& gb br.1 = 0 := BitVec.zero_and
    rw [hzero, hand] at hpos
    exact absurd hpos (by decide)
  below := by
    intro br hbr
    obtain ⟨b, -, -, hv⟩ := (mem_read_branches _ _ br).mp hbr
    rw [Below, hv, BitVec.and_assoc, BitVec.and_comm (~~~b), ← BitVec.and_assoc, BitVec.and_self]

theorem read_unmarked (gb : BranchBuf) (trace : BranchBuf) (i : ℕ) (hi : gb i = 255) :
    i ∈ (readBranches gb (getPath trace)).1.map Prod.fst ↔ i ∈ (getPath trace).map Prod.fst := by
  constructor
  · intro h
    exact (read_branches_sublist _ _).subset h
  · intro h
    obtain ⟨⟨i', b⟩, hb, rfl⟩ := List.mem_map.mp h
    obtain ⟨-, hpos, (hbuck : b = _)⟩ := (mem_get_path trace _).mp hb
    have hne : b ≠ 0 := by
      rw [hbuck]
      exact count_bucket_ne_zero hpos
    refine List.mem_map.mpr ⟨(i', 255 &&& ~~~b), ?_, rfl⟩
    refine (mem_read_branches _ _ _).mpr ⟨b, hb, ?_, by rw [hi]⟩
    simp only at hi
    rw [hi, show (255 : Byte) = BitVec.allOnes 8 by rfl, BitVec.and_allOnes]
    exact byte_pos hne

theorem write_below {gb : BranchBuf} {toWrite : List (ℕ × Byte)} (h : Waiting gb toWrite) (i : ℕ) :
    Below (writeBranches gb toWrite i) (gb i) := by
  by_cases hi : i ∈ toWrite.map Prod.fst
  · obtain ⟨br, hbr, rfl⟩ := List.mem_map.mp hi
    rw [write_branches_mem toWrite gb h.nodup br hbr]
    exact h.below br hbr
  · rw [write_branches_other toWrite gb i hi]
    exact BitVec.and_self

def marked (gb : BranchBuf) : Finset ℕ := (Finset.range BRANCHES_SIZE).filter fun i => gb i ≠ 255

variable {ι : Type}

/-- `pending w` is what worker `w` has read and not yet stored. -/
structure State (ι : Type) where
  virgin : BranchBuf
  density : ℕ
  pending : ι → Option (List (ℕ × Byte))

/-- An index that density has counted: marked, or about to be. -/
def Claimed (s : State ι) (i : ℕ) : Prop :=
  s.virgin i ≠ 255 ∨ ∃ w toWrite, s.pending w = some toWrite ∧ i ∈ toWrite.map Prod.fst

open Classical in
noncomputable def claimed (s : State ι) : Finset ℕ := (Finset.range BRANCHES_SIZE).filter (Claimed s)

theorem mem_claimed (s : State ι) (i : ℕ) : i ∈ claimed s ↔ i < BRANCHES_SIZE ∧ Claimed s i := by
  simp [claimed]

theorem claimed_card_lt (s : State ι) : (claimed s).card < 2^64 := by
  have hsub : claimed s ⊆ Finset.range BRANCHES_SIZE := fun i hi =>
    Finset.mem_range.mpr ((mem_claimed s i).mp hi).1
  calc (claimed s).card ≤ (Finset.range BRANCHES_SIZE).card := Finset.card_le_card hsub
    _ = BRANCHES_SIZE := Finset.card_range _
    _ < 2^64 := by decide

theorem claimed_quiet (s : State ι) (h : ∀ w, s.pending w = none) : claimed s = marked s.virgin := by
  ext i
  simp [mem_claimed, marked, Claimed, h]

structure Inv (s : State ι) : Prop where
  waiting : ∀ w toWrite, s.pending w = some toWrite → Waiting s.virgin toWrite
  agree : ∀ w w' toWrite toWrite', w ≠ w' → s.pending w = some toWrite →
    s.pending w' = some toWrite' → ∀ br ∈ toWrite, ∀ br' ∈ toWrite', br.1 = br'.1 → br.2 = br'.2
  density : s.density = (claimed s).card

def initial : State ι := ⟨newGlobalBranches.virgin, newGlobalBranches.density, fun _ => none⟩

theorem initial_inv : Inv (initial : State ι) where
  waiting := by simp [initial]
  agree := by simp [initial]
  density := by
    rw [claimed_quiet _ (fun _ => rfl)]
    have hempty : marked (initial : State ι).virgin = ∅ :=
      Finset.filter_eq_empty_iff.mpr fun i _ => by simp [initial, newGlobalBranches]
    rw [hempty]
    rfl

inductive Event (ι : Type) where
  | read (w : ι) (trace : BranchBuf)
  | write (w : ι)

/-- The condition on a read: the bytes it will store are not awaiting a store of
another call, unless they are marked already and both store the same value. -/
def Exclusive (s : State ι) : Event ι → Prop
  | .read _ trace => ∀ br ∈ (readBranches s.virgin (getPath trace)).1,
      ∀ w toWrite, s.pending w = some toWrite → ∀ br' ∈ toWrite, br'.1 = br.1 →
        s.virgin br.1 ≠ 255 ∧ br'.2 = br.2
  | .write _ => True

variable [DecidableEq ι]

def next (s : State ι) : Event ι → Option (State ι)
  | .read w trace =>
    if s.pending w = none then
      let found := readBranches s.virgin (getPath trace)
      some ⟨s.virgin, addDensity s.density found.2,
        Function.update s.pending w (if found.1 = [] then none else some found.1)⟩
    else none
  | .write w => (s.pending w).map fun toWrite =>
      ⟨writeBranches s.virgin toWrite, s.density, Function.update s.pending w none⟩

/-- One call without another between its steps is `has_new`. -/
theorem alone_has_new (hasPathToTarget : ℕ → Bool) (g : GlobalBranches) (trace : BranchBuf)
    (directed : Bool) (hd : g.density < 2^64) (w : ι) (pending : ι → Option (List (ℕ × Byte)))
    (hw : pending w = none) : ∃ es u, (es = [.read w trace] ∨ es = [.read w trace, .write w]) ∧
      replay next (fun _ _ => True) ⟨g.virgin, g.density, pending⟩ es = some u ∧
      u = ⟨(hasNew hasPathToTarget g trace .normal directed).1.virgin,
        (hasNew hasPathToTarget g trace .normal directed).1.density, pending⟩ := by
  rw [has_new_normal hasPathToTarget g trace directed hd]
  generalize hr : readBranches g.virgin (getPath trace) = r
  have hself : Function.update pending w none = pending := by
    rw [← hw]
    exact Function.update_eq_self w pending
  by_cases hz : r.1 = []
  · refine ⟨[.read w trace], _, Or.inl rfl, ?_, rfl⟩
    simp [replay, next, hw, hr, hz, hself, writeBranches]
  · refine ⟨[.read w trace, .write w], _, Or.inr rfl, ?_, rfl⟩
    simp [replay, next, hw, hr, hz, hself]

variable {s t : State ι}

theorem pending_update {pending : ι → Option (List (ℕ × Byte))} {w w' : ι}
    {out : Option (List (ℕ × Byte))} {toWrite : List (ℕ × Byte)}
    (h : Function.update pending w out w' = some toWrite) :
    (w' = w ∧ out = some toWrite) ∨ (w' ≠ w ∧ pending w' = some toWrite) := by
  by_cases hw : w' = w
  · subst hw
    rw [Function.update_self] at h
    exact Or.inl ⟨rfl, h⟩
  · rw [Function.update_of_ne hw] at h
    exact Or.inr ⟨hw, h⟩

theorem read_cases {w : ι} {trace : BranchBuf} (h : next s (.read w trace) = some t) :
    ∃ out, s.pending w = none ∧ t.virgin = s.virgin ∧
      t.density = addDensity s.density (readBranches s.virgin (getPath trace)).2 ∧
      t.pending = Function.update s.pending w out ∧
      (∀ toWrite, out = some toWrite → toWrite = (readBranches s.virgin (getPath trace)).1) ∧
      (out = none → (readBranches s.virgin (getPath trace)).1 = []) := by
  by_cases hw : s.pending w = none
  · simp only [next, hw, if_true] at h
    obtain rfl := Option.some.inj h
    by_cases hz : (readBranches s.virgin (getPath trace)).1 = []
    · rw [if_pos hz]
      exact ⟨none, hw, rfl, rfl, rfl, by simp, fun _ => hz⟩
    · rw [if_neg hz]
      exact ⟨_, hw, rfl, rfl, rfl, fun _ hout => (Option.some.inj hout).symm, by simp⟩
  · simp [next, hw] at h

theorem write_cases {w : ι} (h : next s (.write w) = some t) : ∃ toWrite,
    s.pending w = some toWrite ∧ t.virgin = writeBranches s.virgin toWrite ∧
      t.density = s.density ∧ t.pending = Function.update s.pending w none := by
  simp only [next, Option.map_eq_some_iff] at h
  obtain ⟨toWrite, hw, rfl⟩ := h
  exact ⟨toWrite, hw, rfl, rfl, rfl⟩

theorem read_claimed {w : ι} {trace : BranchBuf} (h : next s (.read w trace) = some t) (i : ℕ) :
    Claimed t i ↔ Claimed s i ∨ s.virgin i = 255 ∧ i ∈ (getPath trace).map Prod.fst := by
  obtain ⟨out, hw, hvirgin, -, hpending, hout, hnone⟩ := read_cases h
  by_cases hi : s.virgin i = 255
  · rw [← read_unmarked s.virgin trace i hi]
    simp only [Claimed, hvirgin, hpending, hi, ne_eq, not_true_eq_false, false_or, true_and]
    constructor
    · rintro ⟨w', toWrite, hp, hm⟩
      rcases pending_update hp with ⟨-, ho⟩ | ⟨-, hp⟩
      · rw [hout toWrite ho] at hm
        exact Or.inr hm
      · exact Or.inl ⟨w', toWrite, hp, hm⟩
    · rintro (⟨w', toWrite, hp, hm⟩ | hm)
      · have hne : w' ≠ w := by
          rintro rfl
          rw [hw] at hp
          cases hp
        exact ⟨w', toWrite, by rw [Function.update_of_ne hne]; exact hp, hm⟩
      · cases out with
        | none =>
          rw [hnone rfl] at hm
          simp at hm
        | some toWrite =>
          rw [← hout toWrite rfl] at hm
          exact ⟨w, toWrite, Function.update_self _ _ _, hm⟩
  · apply iff_of_true
    · exact Or.inl (by rw [hvirgin]; exact hi)
    · exact Or.inl (Or.inl hi)

theorem read_inv {w : ι} {trace : BranchBuf} (hi : Inv s) (hx : Exclusive s (.read w trace))
    (h : next s (.read w trace) = some t) : Inv t := by
  have hcl := read_claimed h
  obtain ⟨out, hw, hvirgin, hdensity, hpending, hout, -⟩ := read_cases h
  constructor
  case waiting =>
    intro w' toWrite hp
    rw [hpending] at hp
    rw [hvirgin]
    rcases pending_update hp with ⟨-, ho⟩ | ⟨-, hp⟩
    · rw [hout toWrite ho]
      exact read_waiting s.virgin trace
    · exact hi.waiting w' toWrite hp
  case agree =>
    intro w1 w2 tw1 tw2 hne hp1 hp2 br1 h1 br2 h2 heq
    rw [hpending] at hp1 hp2
    rcases pending_update hp1 with ⟨e1, ho1⟩ | ⟨e1, hp1⟩
    · rcases pending_update hp2 with ⟨e2, -⟩ | ⟨-, hp2⟩
      · exact absurd (e1.trans e2.symm) hne
      · rw [hout tw1 ho1] at h1
        exact (hx br1 h1 w2 tw2 hp2 br2 h2 heq.symm).2.symm
    · rcases pending_update hp2 with ⟨-, ho2⟩ | ⟨-, hp2⟩
      · rw [hout tw2 ho2] at h2
        exact (hx br2 h2 w1 tw1 hp1 br1 h1 heq).2
      · exact hi.agree w1 w2 tw1 tw2 hne hp1 hp2 br1 h1 br2 h2 heq
  case density =>
    have hnew : claimed t = claimed s ∪
        (((getPath trace).map Prod.fst).filter fun i => s.virgin i = 255).toFinset := by
      ext i
      rw [mem_claimed, hcl i, Finset.mem_union, mem_claimed, List.mem_toFinset, List.mem_filter,
        decide_eq_true_eq]
      have hrange : i ∈ (getPath trace).map Prod.fst → i < BRANCHES_SIZE := by
        intro hm
        obtain ⟨br, hbr, rfl⟩ := List.mem_map.mp hm
        exact ((mem_get_path trace br).mp hbr).1
      constructor
      · rintro ⟨hlt, hc | ⟨hv, hm⟩⟩
        · exact Or.inl ⟨hlt, hc⟩
        · exact Or.inr ⟨hm, hv⟩
      · rintro (⟨hlt, hc⟩ | ⟨hm, hv⟩)
        · exact ⟨hlt, Or.inl hc⟩
        · exact ⟨hrange hm, Or.inr ⟨hv, hm⟩⟩
    have hdisj : Disjoint (claimed s)
        (((getPath trace).map Prod.fst).filter fun i => s.virgin i = 255).toFinset := by
      rw [Finset.disjoint_left]
      intro i hc hm
      simp only [List.mem_toFinset, List.mem_filter, decide_eq_true_eq] at hm
      rcases ((mem_claimed s i).mp hc).2 with hv | ⟨w', toWrite, hp, hk⟩
      · exact hv hm.2
      · obtain ⟨br, hbr, rfl⟩ := List.mem_map.mp ((read_unmarked s.virgin trace i hm.2).mpr hm.1)
        obtain ⟨br', hbr', heq⟩ := List.mem_map.mp hk
        exact (hx br hbr w' toWrite hp br' hbr' heq).1 hm.2
    have hcard : (claimed t).card = s.density + (readBranches s.virgin (getPath trace)).2 := by
      rw [hnew, Finset.card_union_of_disjoint hdisj, ← hi.density,
        List.toFinset_card_of_nodup ((get_path_nodup trace).filter _), num_new_edge_eq]
    have := claimed_card_lt t
    rw [hdensity, hcard, addDensity, Nat.mod_eq_of_lt (by omega)]

theorem write_claimed {w : ι} (hi : Inv s) (h : next s (.write w) = some t) (i : ℕ) :
    Claimed t i ↔ Claimed s i := by
  obtain ⟨toWrite, hw, hvirgin, -, hpending⟩ := write_cases h
  have hwait := hi.waiting w toWrite hw
  by_cases hk : i ∈ toWrite.map Prod.fst
  · obtain ⟨br, hbr, rfl⟩ := List.mem_map.mp hk
    apply iff_of_true
    · left
      rw [hvirgin, write_branches_mem toWrite s.virgin hwait.nodup br hbr]
      exact hwait.fresh br hbr
    · exact Or.inr ⟨w, toWrite, hw, hk⟩
  · unfold Claimed
    rw [hvirgin, hpending, write_branches_other toWrite s.virgin i hk]
    apply or_congr Iff.rfl
    constructor
    · rintro ⟨w', tw, hp, hm⟩
      rcases pending_update hp with ⟨-, ho⟩ | ⟨-, hp⟩
      · cases ho
      · exact ⟨w', tw, hp, hm⟩
    · rintro ⟨w', tw, hp, hm⟩
      have hne : w' ≠ w := by
        rintro rfl
        rw [hw] at hp
        rw [Option.some.inj hp] at hk
        exact hk hm
      exact ⟨w', tw, by rw [Function.update_of_ne hne]; exact hp, hm⟩

theorem write_inv {w : ι} (hi : Inv s) (h : next s (.write w) = some t) : Inv t := by
  have hcl := write_claimed hi h
  obtain ⟨toWrite, hw, hvirgin, hdensity, hpending⟩ := write_cases h
  have hwait := hi.waiting w toWrite hw
  constructor
  case waiting =>
    intro w' tw hp
    rw [hpending] at hp
    rcases pending_update hp with ⟨-, ho⟩ | ⟨hne, hp⟩
    · cases ho
    have hold := hi.waiting w' tw hp
    refine ⟨hold.nodup, hold.range, hold.fresh, ?_⟩
    intro br hbr
    rw [hvirgin]
    by_cases hk : br.1 ∈ toWrite.map Prod.fst
    · obtain ⟨br', hbr', heq⟩ := List.mem_map.mp hk
      have hval := hi.agree w' w tw toWrite hne hp hw br hbr br' hbr' heq.symm
      rw [← heq, write_branches_mem toWrite s.virgin hwait.nodup br' hbr', hval]
      exact BitVec.and_self
    · rw [write_branches_other toWrite s.virgin br.1 hk]
      exact hold.below br hbr
  case agree =>
    intro w1 w2 tw1 tw2 hne hp1 hp2
    rw [hpending] at hp1 hp2
    rcases pending_update hp1 with ⟨-, ho⟩ | ⟨-, hp1⟩
    · cases ho
    rcases pending_update hp2 with ⟨-, ho⟩ | ⟨-, hp2⟩
    · cases ho
    exact hi.agree w1 w2 tw1 tw2 hne hp1 hp2
  case density =>
    have hsame : claimed t = claimed s := by
      ext i
      rw [mem_claimed, mem_claimed, hcl i]
    rw [hdensity, hsame]
    exact hi.density

theorem next_inv (s : State ι) (e : Event ι) (t : State ι) (hi : Inv s) (hx : Exclusive s e)
    (h : next s e = some t) : Inv t := by
  cases e with
  | read w trace => exact read_inv hi hx h
  | write w => exact write_inv hi h

theorem next_below (hi : Inv s) {e : Event ι} (h : next s e = some t) (i : ℕ) :
    Below (t.virgin i) (s.virgin i) := by
  cases e with
  | read w trace =>
    obtain ⟨out, -, hvirgin, -⟩ := read_cases h
    rw [hvirgin]
    exact BitVec.and_self
  | write w =>
    obtain ⟨toWrite, hw, hvirgin, -⟩ := write_cases h
    rw [hvirgin]
    exact write_below (hi.waiting w toWrite hw) i

/-- In a run whose reads are all exclusive, no cleared bit is set again, and
density is the number of marked bytes whenever no call is between its steps. -/
theorem exclusive_run_safe (hs : Reachable next Exclusive initial s)
    (ht : Reachable next Exclusive s t) :
    (∀ i k, (s.virgin i).getLsbD k = false → (t.virgin i).getLsbD k = false) ∧
    ((∀ w, t.pending w = none) → t.density = (marked t.virgin).card) := by
  have hinv : Inv t := reachable_invariant initial_inv next_inv (reachable_trans hs ht)
  have hbelow : Inv t ∧ ∀ i, Below (t.virgin i) (s.virgin i) := by
    refine reachable_invariant (P := fun u => Inv u ∧ ∀ i, Below (u.virgin i) (s.virgin i)) ?_ ?_ ht
    · exact ⟨reachable_invariant initial_inv next_inv hs, fun i => BitVec.and_self⟩
    · rintro u e v ⟨hu, hb⟩ hx hn
      exact ⟨next_inv u e v hu hx hn, fun i => below_trans (next_below hu hn i) (hb i)⟩
  constructor
  · intro i k hk
    exact below_bit (hbelow.2 i) k hk
  · intro hq
    rw [hinv.density, claimed_quiet t hq]

def atZero (v : Byte) (density : ℕ) (p q : Option (List (ℕ × Byte))) : State Bool :=
  ⟨fun i => if i = 0 then v else 255, density, fun w => if w then p else q⟩

theorem initial_at_zero : (initial : State Bool) = atZero 255 0 none none := by
  have hv : (fun _ => 255 : BranchBuf) = fun i => if i = 0 then 255 else 255 := by
    funext i
    simp
  have hp : (fun _ => none : Bool → Option (List (ℕ × Byte))) = fun w => if w then none else none := by
    funext w
    simp
  rw [initial, newGlobalBranches, atZero, hv, hp]

theorem read_at_zero {v b : Byte} (hv : 0 < v) (hb : countBucket v = b) (hpos : 0 < b &&& 255)
    (density : ℕ) (hd : density+1 < 2^64) (p : Option (List (ℕ × Byte))) :
    next (atZero 255 density none p) (.read true (traceAtZero v)) =
      some (atZero 255 (density+1) (some [(0, 255 &&& ~~~b)]) p) ∧
    next (atZero 255 density p none) (.read false (traceAtZero v)) =
      some (atZero 255 (density+1) p (some [(0, 255 &&& ~~~b)])) := by
  have hread : readBranches (fun i => if i = 0 then 255 else 255) (getPath (traceAtZero v)) =
      ([(0, 255 &&& ~~~b)], 1) := by
    rw [get_path_at_zero hv, hb]
    simp only [readBranches, if_true, hpos]
  have hadd : addDensity density 1 = density+1 := Nat.mod_eq_of_lt hd
  have hne : [((0 : ℕ), 255 &&& ~~~b)] ≠ [] := List.cons_ne_nil _ _
  constructor
  · have hp : Function.update (fun w => if w then none else p) true (some [(0, 255 &&& ~~~b)]) =
        fun w => if w then some [(0, 255 &&& ~~~b)] else p := by
      funext w
      cases w <;> rfl
    simp only [next, atZero, if_true, hread, hadd, if_neg hne, hp]
  · have hp : Function.update (fun w => if w then p else none) false (some [(0, 255 &&& ~~~b)]) =
        fun w => if w then p else some [(0, 255 &&& ~~~b)] := by
      funext w
      cases w <;> rfl
    simp only [next, atZero, if_false, Bool.false_eq_true, if_true, hread, hadd, if_neg hne, hp]

theorem write_at_zero (v v' : Byte) (density : ℕ) (p : Option (List (ℕ × Byte))) :
    next (atZero v density (some [(0, v')]) p) (.write true) = some (atZero v' density none p) ∧
    next (atZero v density p (some [(0, v')])) (.write false) = some (atZero v' density p none) := by
  have hwrite : writeBranches (fun i => if i = 0 then v else 255) [(0, v')] =
      fun i => if i = 0 then v' else 255 := by
    funext i
    by_cases hi : i = 0 <;> simp [writeBranches, hi]
  constructor
  all_goals
    simp only [next, atZero, if_true, if_false, Bool.false_eq_true, Option.map_some, hwrite]
    congr 2
    funext w
    cases w <;> rfl

theorem exclusive_run_safe_once : (∀ i k, ((initial : State Bool).virgin i).getLsbD k = false →
      ((atZero 254 1 none none).virgin i).getLsbD k = false) ∧
    ((∀ w, (atZero 254 1 none none).pending w = none) →
      (atZero 254 1 none none).density = (marked (atZero 254 1 none none).virgin).card) := by
  have hread := (read_at_zero (v := 1) (b := 1) (by decide) (by decide) (by decide) 0 (by decide)
    none).1
  have hx : Exclusive (atZero 255 0 none none) (.read true (traceAtZero 1)) := by
    intro br _ w toWrite hp
    cases w <;> cases hp
  refine exclusive_run_safe Reachable.start ?_
  rw [initial_at_zero]
  have hwrite := (write_at_zero 255 254 1 none).1
  have hx' : Exclusive (atZero 255 1 (some [(0, 254)]) none) (.write true) := trivial
  exact Reachable.step (Reachable.step Reachable.start hx hread) hx' hwrite

/-- Two workers read the unmarked index 0 with different counts and store one
after the other: the second store sets the bit the first one cleared, and
density counts the index twice. -/
theorem race_sets_bit_again : ∃ s t : State Bool,
    Reachable next (fun _ _ => True) initial s ∧ Reachable next (fun _ _ => True) s t ∧
    (s.virgin 0).getLsbD 1 = false ∧ (t.virgin 0).getLsbD 1 = true ∧
    (∀ w, t.pending w = none) ∧ t.density = 2 ∧ (marked t.virgin).card = 1 := by
  have hread1 := (read_at_zero (v := 1) (b := 1) (by decide) (by decide) (by decide) 0 (by decide)
    none).1
  have hread2 := (read_at_zero (v := 2) (b := 2) (by decide) (by decide) (by decide) 1 (by decide)
    (some [(0, 254)])).2
  have hwrite1 := (write_at_zero 255 253 2 (some [(0, 254)])).2
  have hwrite2 := (write_at_zero 253 254 2 none).1
  refine ⟨atZero 253 2 (some [(0, 254)]) none, atZero 254 2 none none, ?_, ?_, by decide,
    by decide, by decide, rfl, ?_⟩
  · rw [initial_at_zero]
    exact Reachable.step (Reachable.step (Reachable.step Reachable.start trivial hread1) trivial
      hread2) trivial hwrite1
  · exact Reachable.step Reachable.start trivial hwrite2
  · have hone : marked (atZero 254 2 none none).virgin = {0} := by
      ext i
      have hpos : 0 < BRANCHES_SIZE := by decide
      rw [marked, Finset.mem_filter, Finset.mem_range, Finset.mem_singleton]
      by_cases hi : i = 0
      · subst hi
        exact iff_of_true ⟨hpos, by decide⟩ rfl
      · refine iff_of_false ?_ hi
        rintro ⟨-, hne⟩
        exact hne (if_neg hi)
    rw [hone, Finset.card_singleton]

end Parmesan.BranchesRace
