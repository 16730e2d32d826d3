import Mathlib.NumberTheory.Multiplicity
import Parmesan.PassIds
import Parmesan.Probing

/-!
# The search for an unused number

`h*3+1` is, at `2*h+1`, a multiplication by three. Three has order `2^31` at
`2^33`, so the search meets as many numbers before it repeats itself, and the
pass returns unless the module has as many sites.
-/

set_option autoImplicit false

namespace Parmesan.PassProbe
open Parmesan.PassModel Parmesan.PassIds Parmesan.Execution Parmesan.Probing

section Sets

/-- What a build without assertions promises: every call returns, and only numbers
inserted, and perhaps those that are no keys, are in the set. -/
structure Answers (set : DenseSet) : Prop where
  count_some : ∀ used h, ∃ b, set.count used h = some b ∧ (b = true → h ∈ used ∨ ¬isKey h)
  insert_some : ∀ used h, set.insert used h = true

/-- A set for which every number is a key. -/
def plainSet : DenseSet where
  count used h := some (decide (h ∈ used))
  insert _ _ := true

theorem plain_set_answers : Answers plainSet where
  count_some _ _ := ⟨_, rfl, fun hmem => Or.inl (of_decide_eq_true hmem)⟩
  insert_some _ _ := rfl

theorem mem_of_not_key {h : ℕ} (hkey : ¬isKey h) : h ∈ [EMPTY_KEY, TOMBSTONE_KEY] := by
  simpa [isKey, or_iff_not_imp_left] using hkey

end Sets

section Search

def probe (h : ℕ) : ℕ := (h*3+1) % 2^32

theorem probe_odd (i h : ℕ) : 2*probe^[i] h+1 ≡ 3^i*(2*h+1) [MOD 2^33] := by
  induction i with
  | zero => simp [Nat.ModEq]
  | succ i ih =>
    have hstep : 2*probe (probe^[i] h)+1 ≡ 3*(2*probe^[i] h+1) [MOD 2^33] := by
      simp only [probe, Nat.ModEq]
      omega
    rw [Function.iterate_succ_apply', pow_succ' 3 i, mul_assoc]
    exact hstep.trans (ih.mul_left 3)

theorem three_pow_period {d : ℕ} (h : 2^33 ∣ 3^d-1) : 2^31 ∣ d := by
  rcases Nat.even_or_odd d with heven | ⟨c, rfl⟩
  · have hlift : emultiplicity 2 (3^d-1^d)+1 =
        emultiplicity 2 (3+1)+emultiplicity 2 (3-1)+emultiplicity 2 d :=
      Nat.two_pow_sub_pow (by decide) (by decide) heven
    have hfour : emultiplicity 2 (3+1) = 2 :=
      Nat.Prime.emultiplicity_pow_self (n := 2) Nat.prime_two
    have htwo : emultiplicity 2 (3-1) = 1 := Nat.Prime.emultiplicity_self Nat.prime_two
    rw [pow_dvd_iff_le_emultiplicity] at h ⊢
    rw [one_pow, hfour, htwo] at hlift
    have hsum : (33:ℕ∞)+1 ≤ 2+1+emultiplicity 2 d := by
      rw [← hlift]
      gcongr
      exact h
    cases hd : emultiplicity 2 d with
    | top => exact le_top
    | coe m =>
      rw [hd] at hsum
      norm_cast at hsum ⊢
      omega
  · exfalso
    have hodd : 3^(2*c+1) % 4 = 3 := by
      rw [pow_succ, pow_mul, Nat.mul_mod, Nat.pow_mod]
      norm_num
    obtain ⟨q, hq⟩ := h
    generalize 3^(2*c+1) = x at hodd hq
    omega

theorem probe_distinct {i j h : ℕ} (hij : i ≤ j) (hj : j < 2^31)
    (heq : probe^[i] h = probe^[j] h) : i = j := by
  obtain ⟨d, rfl⟩ := Nat.exists_eq_add_of_le hij
  have hmod : 3^i*(2*h+1)*1 ≡ 3^i*(2*h+1)*3^d [MOD 2^33] := by
    have hi := probe_odd i h
    have hj := probe_odd (i+d) h
    rw [← heq] at hj
    rw [mul_one, mul_right_comm, ← pow_add]
    exact hi.symm.trans hj
  have hcoprime : Nat.gcd (2^33) (3^i*(2*h+1)) = 1 := by
    apply Nat.Coprime.pow_left
    rw [Nat.coprime_two_left]
    exact Odd.mul (Odd.pow (by decide)) (odd_two_mul_add_one h)
  have hone : 1 ≡ 3^d [MOD 2^33] := Nat.ModEq.cancel_left_of_coprime hcoprime hmod
  have hdvd : 2^31 ∣ d :=
    three_pow_period ((Nat.modEq_iff_dvd' (Nat.one_le_pow d 3 (by decide))).mp hone)
  have hzero : d = 0 := Nat.eq_zero_of_dvd_of_lt hdvd (by omega)
  omega

theorem probe_steps {n : ℕ} (hn : n < 2^31) : Distinct probe n := by
  intro h i hi j hj heq
  rcases Nat.le_total i j with hle | hle
  · exact probe_distinct hle (by omega) heq
  · exact (probe_distinct hle (by omega) heq.symm).symm

theorem probe_leaves {used : List ℕ} (hused : used.length < 2^31) (h : ℕ) :
    ∃ i ≤ used.length, probe^[i] h ∉ used := by
  by_contra hall
  have hpassed : ∀ i ≤ used.length, probe^[i] h ∈ used := by
    intro i hi
    by_contra hnot
    exact hall ⟨i, hi, hnot⟩
  have hlength := path_length (probe_steps hused) hpassed
  omega

/-- The search ends at the first of its numbers that the set does not have. -/
theorem first_free_iff {count : ℕ → Option Bool} {fuel h free : ℕ} :
    firstFree count fuel h = some free ↔ ∃ k < fuel, probe^[k] h = free ∧
      count free = some false ∧ ∀ j < k, count (probe^[j] h) = some true := by
  induction fuel generalizing h with
  | zero => simp [firstFree]
  | succ fuel ih =>
    rw [firstFree]
    constructor
    · intro hfree
      obtain ⟨used, hused, hfree⟩ := Option.bind_eq_some_iff.mp hfree
      cases used with
      | false =>
        obtain rfl := Option.some.inj hfree
        exact ⟨0, Nat.succ_pos fuel, rfl, hused, fun j hj => absurd hj (Nat.not_lt_zero j)⟩
      | true =>
        obtain ⟨k, hk, hlast, hnot, hpassed⟩ := ih.mp hfree
        refine ⟨k+1, Nat.succ_lt_succ hk, hlast, hnot, ?_⟩
        intro j hj
        cases j with
        | zero => exact hused
        | succ j => exact hpassed j (Nat.lt_of_succ_lt_succ hj)
    · rintro ⟨k, hk, hlast, hnot, hpassed⟩
      cases k with
      | zero =>
        obtain rfl : h = free := hlast
        simp [hnot]
      | succ k =>
        have hused : count h = some true := hpassed 0 (Nat.succ_pos k)
        rw [hused, Option.bind_some, if_pos rfl]
        refine ih.mpr ⟨k, Nat.lt_of_succ_lt_succ hk, hlast, hnot, ?_⟩
        exact fun j hj => hpassed (j+1) (Nat.succ_lt_succ hj)

theorem first_free_some {count : ℕ → Option Bool} {blocked : List ℕ}
    (hcount : ∀ h, ∃ b, count h = some b ∧ (b = true → h ∈ blocked))
    (hblocked : blocked.length < 2^31) (h : ℕ) : ∃ free, firstFree count (2^32) h = some free := by
  classical
  have hleaves : ∃ i, i ≤ blocked.length ∧ count (probe^[i] h) ≠ some true := by
    obtain ⟨i, hi, hnot⟩ := probe_leaves hblocked h
    refine ⟨i, hi, ?_⟩
    intro htrue
    obtain ⟨b, hb, hmem⟩ := hcount (probe^[i] h)
    exact hnot (hmem (Option.some.inj (hb.symm.trans htrue)))
  obtain ⟨hi, hnot⟩ := Nat.find_spec hleaves
  refine ⟨probe^[Nat.find hleaves] h, first_free_iff.mpr ⟨Nat.find hleaves, by omega, rfl, ?_, ?_⟩⟩
  · obtain ⟨b, hb, -⟩ := hcount (probe^[Nat.find hleaves] h)
    cases b with
    | false => exact hb
    | true => exact absurd hb hnot
  · intro j hj
    have hbefore := Nat.find_min hleaves hj
    by_contra hnot
    exact hbefore ⟨by omega, hnot⟩

end Search

section Seen

def seen (insts : List Inst) : List Inst := insts.filter fun inst => !inst.nosanitize

def visited (fns : List Fn) : List Inst :=
  fns.flatMap fun f => if isSkipped f then [] else f.blocks.flatten

theorem seen_append (insts rest : List Inst) : seen (insts ++ rest) = seen insts ++ seen rest :=
  List.filter_append insts rest

theorem seen_insert_wrap (insts : List Inst) : seen (insertWrap insts) = seen insts := by
  induction insts with
  | nil => rfl
  | cons inst insts ih =>
    rw [insertWrap]
    split_ifs
    · simp only [seen, List.filter_cons] at ih ⊢
      rw [ih]
    · simp [seen, List.filter_cons, emitted]
    · simp [seen, List.filter_cons, emitted]

theorem seen_insert_post (insts : List Inst) : seen (insertPost insts) = seen insts := by
  induction insts using insertPost.induct with
  | case1 => rfl
  | case2 inst hreturn => simp [insertPost, hreturn, seen, List.filter_cons, emitted]
  | case3 inst hreturn => simp [insertPost, hreturn]
  | case4 inst insts hne ih =>
    rw [insertPost]
    · simp only [seen, List.filter_cons] at ih ⊢
      rw [ih]
    · exact hne

def wrapBlock (cfg : Config) (entry : Bool) (insts : List Inst) : List Inst :=
  if cfg.numFnCtx = 0 then insts else insertPost (if entry then insertWrap insts else insts)

theorem seen_wrap_block (cfg : Config) (entry : Bool) (insts : List Inst) :
    seen (wrapBlock cfg entry insts) = seen insts := by
  unfold wrapBlock
  split_ifs
  · rfl
  · rw [seen_insert_post, seen_insert_wrap]
  · exact seen_insert_post insts

theorem add_fn_wrap_cons (cfg : Config) (insts : List Inst) (blocks : List (List Inst)) :
    addFnWrap cfg (insts::blocks) =
      wrapBlock cfg true insts::blocks.map (wrapBlock cfg false) := by
  unfold addFnWrap wrapBlock
  by_cases hctx : cfg.numFnCtx = 0
  · simp [hctx]
  · simp [hctx]

theorem seen_wrap (cfg : Config) (blocks : List (List Inst)) (j : ℕ) :
    seen ((addFnWrap cfg blocks).take j).flatten = seen (blocks.take j).flatten := by
  have hrest : ∀ (rest : List (List Inst)) (j : ℕ),
      seen ((rest.map (wrapBlock cfg false)).take j).flatten = seen (rest.take j).flatten := by
    intro rest
    induction rest with
    | nil => simp
    | cons insts rest ih =>
      intro j
      cases j with
      | zero => rfl
      | succ j => simp only [List.map_cons, List.take_succ_cons, List.flatten_cons, seen_append,
          seen_wrap_block, ih]
  cases blocks with
  | nil =>
    unfold addFnWrap
    split_ifs <;> rfl
  | cons insts blocks =>
    rw [add_fn_wrap_cons]
    cases j with
    | zero => rfl
    | succ j => simp only [List.take_succ_cons, List.flatten_cons, seen_append, seen_wrap_block,
        hrest]

theorem seen_wrap_all (cfg : Config) (blocks : List (List Inst)) :
    seen (addFnWrap cfg blocks).flatten = seen blocks.flatten := by
  have htake := seen_wrap cfg blocks ((addFnWrap cfg blocks).length+blocks.length)
  rwa [List.take_of_length_le (Nat.le_add_right _ _),
    List.take_of_length_le (Nat.le_add_left _ _)] at htake

theorem visited_cons (f : Fn) (fns : List Fn) :
    visited (f::fns) = (if isSkipped f then [] else f.blocks.flatten) ++ visited fns := rfl

end Seen

variable {cfg : Config}

/-- The numbers in use and the two that are no keys. -/
def inUse (n : Numbering) : ℕ := n.ids.uniqCidSet.length+2

theorem random_num_keeps (seed counter : ℕ) (used : List ℕ) :
    (getRandomNum ⟨seed, counter, used⟩).2.uniqCidSet = used := rfl

theorem random_num_used (ids : Ids) : (getRandomNum ids).2.uniqCidSet = ids.uniqCidSet := by
  cases ids with
  | mk seed counter used => exact random_num_keeps seed counter used

theorem instruction_hash_used (inst : Inst) (ids : Ids) :
    (instructionHash cfg inst ids).2.uniqCidSet = ids.uniqCidSet := by
  unfold instructionHash
  split_ifs
  · exact random_num_used ids
  · cases inst.loc with
    | none => exact random_num_used ids
    | some loc => rfl

theorem get_instruction_id_iff (hbc : cfg.isBc = false) {inst : Inst} {ids : Ids} {r : ℕ × Ids} :
    getInstructionId cfg inst ids = some r ↔
      firstFree (cfg.denseSet.count ids.uniqCidSet) (2^32) (instructionHash cfg inst ids).1 =
        some r.1 ∧ cfg.denseSet.insert ids.uniqCidSet r.1 = true ∧
      r.2 = { (instructionHash cfg inst ids).2 with uniqCidSet := r.1::ids.uniqCidSet } := by
  have hused := @instruction_hash_used cfg inst ids
  obtain ⟨h, ids'⟩ := r
  simp only [getInstructionId, hbc, Bool.false_eq_true, if_false, hused,
    Option.bind_eq_some_iff]
  constructor
  · rintro ⟨free, hfree, htaken⟩
    split_ifs at htaken with hinsert
    obtain ⟨rfl, rfl⟩ := Prod.mk.inj (Option.some.inj htaken)
    exact ⟨hfree, hinsert, rfl⟩
  · rintro ⟨hfree, hinsert, rfl⟩
    exact ⟨h, hfree, by rw [if_pos hinsert]⟩

theorem get_instruction_id_some {inst : Inst} {ids : Ids} {blocked : List ℕ}
    (hcount : ∀ h, ∃ b, cfg.denseSet.count ids.uniqCidSet h = some b ∧ (b = true → h ∈ blocked))
    (hinsert : ∀ h, cfg.denseSet.insert ids.uniqCidSet h = true)
    (hblocked : blocked.length < 2^31) :
    ∃ r, getInstructionId cfg inst ids = some r ∧
      r.2.uniqCidSet.length ≤ ids.uniqCidSet.length+1 := by
  cases hbc : cfg.isBc with
  | true => exact ⟨_, by rw [getInstructionId, if_pos hbc], Nat.le_succ _⟩
  | false =>
    obtain ⟨free, hfree⟩ := first_free_some hcount hblocked (instructionHash cfg inst ids).1
    refine ⟨(free, { (instructionHash cfg inst ids).2 with uniqCidSet := free::ids.uniqCidSet }),
      (get_instruction_id_iff hbc).mpr ⟨hfree, hinsert _, rfl⟩, le_rfl⟩

theorem assign_some (hset : Answers cfg.denseSet) (k : ℕ) (inst : Inst) (n : Numbering) (d : Draw)
    (h : inUse n+1 ≤ 2^31) :
    ∃ m, assign cfg k inst n d = some m ∧ inUse m ≤ inUse n+1 := by
  cases d with
  | instruction =>
    have hcount : ∀ h, ∃ b, cfg.denseSet.count n.ids.uniqCidSet h = some b ∧
        (b = true → h ∈ [EMPTY_KEY, TOMBSTONE_KEY] ++ n.ids.uniqCidSet) := by
      intro h
      obtain ⟨b, hb, hmem⟩ := hset.count_some n.ids.uniqCidSet h
      refine ⟨b, hb, ?_⟩
      intro htrue
      rcases hmem htrue with hin | hkey
      · exact List.mem_append_right _ hin
      · exact List.mem_append_left _ (mem_of_not_key hkey)
    obtain ⟨r, hr, hlength⟩ := @get_instruction_id_some cfg inst n.ids _ hcount
      (hset.insert_some n.ids.uniqCidSet) (by
        rw [List.length_append]
        simp only [inUse] at h
        simp only [List.length_cons, List.length_nil]
        omega)
    refine ⟨{ n with ids := r.2, sites := n.sites ++ [(k, .instruction r.1)] }, ?_, ?_⟩
    · rw [assign, hr, Option.map_some]
    · simp only [inUse]
      omega
  | context =>
    refine ⟨_, by rw [assign], ?_⟩
    simp only [inUse, getRandomContextId, random_num_used]
    exact Nat.le_succ _

theorem exploit_draws_length (inst : Inst) : (exploitDraws cfg inst).length ≤ 5 := by
  have htake := List.length_take_le MAX_EXPLOIT_CATEGORY inst.operands.zipIdx
  have hfilter := List.length_filter_le (isExploited cfg inst)
    (inst.operands.zipIdx.take MAX_EXPLOIT_CATEGORY)
  rw [exploitDraws, List.length_map]
  exact hfilter.trans htake

theorem call_draws_length (inst : Inst) (callee : Callee) :
    (callDraws cfg inst callee).length ≤ 7 := by
  have hexploit := @exploit_draws_length cfg inst
  have hcompare : (compareDraws cfg inst).length ≤ 1 := by
    unfold compareDraws
    split_ifs <;> simp
  unfold callDraws
  split
  · simp only [List.length_append, List.length_cons, List.length_nil]
    omega
  · simp

theorem draws_length (inst : Inst) : (draws cfg inst).length ≤ 7 := by
  have hexploit := @exploit_draws_length cfg inst
  have hcall := @call_draws_length cfg inst
  unfold draws
  split
  · split_ifs
    · simp
    · exact hcall _
  · exact hcall _
  · simp
  · exact hcall _
  · simp
  · split_ifs <;> simp
  · split_ifs <;> simp
  · simp
  · omega

/-- No more than seven numbers are drawn for an instruction, none if it has metadata. -/
def cost (inst : Inst) : ℕ := if inst.nosanitize then 0 else 7

theorem cost_sum (insts : List Inst) : (insts.map cost).sum = 7*(seen insts).length := by
  induction insts with
  | nil => rfl
  | cons inst insts ih =>
    rw [List.map_cons, List.sum_cons, ih, seen, seen, List.filter_cons, cost]
    cases inst.nosanitize with
    | false =>
      simp only [Bool.not_false, ↓reduceIte, List.length_cons, Bool.false_eq_true]
      omega
    | true => simp

theorem number_some (hset : Answers cfg.denseSet) (n : Numbering) (ik : Inst × ℕ)
    (h : inUse n+cost ik.1 ≤ 2^31) :
    ∃ m, number cfg n ik = some m ∧ inUse m ≤ inUse n+cost ik.1 := by
  unfold number
  split_ifs with hskip
  · exact ⟨n, rfl, Nat.le_add_right _ _⟩
  · have hseen : cost ik.1 = 7 := by
      rw [cost, if_neg]
      intro hno
      simp [hasMetadata, hno] at hskip
    have hlength := @draws_length cfg ik.1
    have hsum : ((draws cfg ik.1).map fun _ => 1).sum = (draws cfg ik.1).length := by simp
    obtain ⟨m, hm, hused⟩ := fold_budget (assign_some hset ik.2 ik.1) (draws cfg ik.1) n
      (by omega)
    refine ⟨_, by rw [hm, Option.map_some], ?_⟩
    have hmark : inUse m ≤ inUse n+cost ik.1 := by omega
    exact hmark

theorem number_block_some (hset : Answers cfg.denseSet) (insts : List Inst) (n : Numbering)
    (h : inUse n+7*(seen insts).length ≤ 2^31) :
    ∃ m, numberBlock cfg insts n = some m ∧ inUse m ≤ inUse n+7*(seen insts).length := by
  have hsum : (insts.zipIdx.map fun ik => cost ik.1).sum = 7*(seen insts).length := by
    have hfst : insts.zipIdx.map Prod.fst = insts := List.zipIdx_map_fst 0 insts
    conv_rhs => rw [← cost_sum, ← hfst, List.map_map]
    rfl
  rw [← hsum] at h ⊢
  exact fold_budget (number_some hset) insts.zipIdx _ h

theorem number_blocks_some (hset : Answers cfg.denseSet) (blocks : List (List Inst))
    (n : Numbering) (h : inUse n+7*(seen blocks.flatten).length ≤ 2^31) :
    ∃ r, numberBlocks cfg blocks n = some r ∧
      inUse r.2 ≤ inUse n+7*(seen blocks.flatten).length := by
  induction blocks generalizing n with
  | nil => exact ⟨_, rfl, Nat.le_add_right _ _⟩
  | cons b blocks ih =>
    simp only [List.flatten_cons, seen_append, List.length_append] at h ⊢
    obtain ⟨m, hm, hused⟩ := number_block_some hset b n (by omega)
    obtain ⟨r, hr, hlast⟩ := ih m (by omega)
    refine ⟨(m.sites::r.1, r.2), ?_, ?_⟩
    · rw [numberBlocks, hm, Option.bind_some, hr, Option.map_some]
    · have hsum : inUse r.2 ≤ inUse n+7*((seen b).length+(seen blocks.flatten).length) := by omega
      exact hsum

theorem number_fns_some (hset : Answers cfg.denseSet) (fns : List Fn) (n : Numbering)
    (h : inUse n+7*(seen (visited fns)).length ≤ 2^31) :
    ∃ r, numberFns cfg fns n = some r := by
  induction fns generalizing n with
  | nil => exact ⟨_, rfl⟩
  | cons f fns ih =>
    rw [visited_cons, seen_append, List.length_append] at h
    have hfn : ∃ r, numberFn cfg f n = some r ∧
        inUse r.2+7*(seen (visited fns)).length ≤ 2^31 := by
      unfold numberFn
      split_ifs at h ⊢ with hskip
      · refine ⟨_, rfl, ?_⟩
        rw [seen, List.filter_nil, List.length_nil, Nat.zero_add] at h
        exact h
      · rw [← seen_wrap_all cfg] at h
        obtain ⟨r, hr, hused⟩ := number_blocks_some hset (addFnWrap cfg f.blocks) n
          (by omega)
        exact ⟨r, hr, by omega⟩
    obtain ⟨r, hr, hused⟩ := hfn
    obtain ⟨rs, hrs⟩ := ih r.2 hused
    refine ⟨(r.1::rs.1, rs.2), ?_⟩
    rw [numberFns, hr, Option.bind_some, hrs, Option.map_some]

/-- The pass returns, if the module has no more than `2^31` numbers to draw. -/
theorem run_returns (hset : Answers cfg.denseSet) (hmode : cfg.mode ≠ .dfsan) (fns : List Fn)
    (h : 7*(seen (visited fns)).length ≤ 2^31) : ∃ out, runOnModule cfg fns = some out := by
  have hstart : inUse (view (initVariables cfg)) = 2 := rfl
  obtain ⟨r, hr⟩ := number_fns_some hset fns (view (initVariables cfg)) (by omega)
  have hrun := run_numbers hmode fns
  rw [hr, Option.map_some] at hrun
  obtain ⟨out, hout, -⟩ := Option.map_eq_some_iff.mp hrun
  exact ⟨out, hout⟩

end Parmesan.PassProbe
