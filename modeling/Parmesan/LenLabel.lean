import Parmesan.TagSetLimit
import Parmesan.TrackModel

/-!
# Labels with a length part

`runtime/src/len_label.rs` and `tag_set_wrap.rs`: the upper ten bits of a label
say that a value is an input length, the lower ones which bytes it depends on.
The wrappers split the two parts, combine the lower ones in the shared label set
and pack the result again.
-/

set_option autoImplicit false

namespace Parmesan.LenLabel
open Parmesan.TagSetModel Parmesan.TagSetInsert Parmesan.TagSetRun Parmesan.TagSetLimit
open Parmesan.TrackModel Parmesan.Outcome Parmesan.Execution

/-- A call on the static `TS`, which `__angora_tag_set_fini` empties. -/
def onShared (ts : Option TagSet) (f : TagSet → Outcome (TagSet × ℕ)) :
    Outcome (Option TagSet × ℕ) :=
  match ts with
  | some s => do
    let (s, lb) ← f s
    .ok (some s, lb % 2^32)
  | none => .ok (none, 0)

def withLen (lenLb : ℕ) (r : Outcome (Option TagSet × ℕ)) : Outcome (Option TagSet × ℕ) := do
  let (ts, lb) ← r
  .ok (ts, getFatLabel lb lenLb)

/-- `__angora_tag_set_combine`: each label is overwritten with its normal part
before its length part is read. -/
def angoraTagSetCombine (ts : Option TagSet) (lb1 lb2 : ℕ) : Outcome (Option TagSet × ℕ) :=
  let lenLb := 0
  let lb1' := if isLenLabel lb1 then getNormalLabel lb1 else lb1
  let lenLb := if isLenLabel lb1 then getLenLabel lb1' else lenLb
  let lb2' := if isLenLabel lb2 then getNormalLabel lb2 else lb2
  let lenLb := if isLenLabel lb2 then getLenLabel lb2' else lenLb
  withLen lenLb (onShared ts fun s => combine s lb1' lb2')

/-- `__angora_tag_set_combine_n`: the closure reads both parts of each label. -/
def angoraTagSetCombineN (ts : Option TagSet) (lbs : List ℕ) (inferShape : Bool) :
    Outcome (Option TagSet × ℕ) :=
  let lenLb := lbs.foldl (fun lenLb l => if isLenLabel l then getLenLabel l else lenLb) 0
  let lbs := lbs.map fun l => if isLenLabel l then getNormalLabel l else l
  withLen lenLb (onShared ts fun s => combineN s lbs inferShape)

section FatLabel
variable {n k : ℕ} (hn : n < MAX_LB) (hk : k ≤ MAX_LEN_LABEL)
include hn hk

theorem fat_label_eq : getFatLabel n k = 2^22*k+n := by
  have hn' : n < 2^22 := by
    have : MAX_LB = 2^22-1 := rfl
    omega
  have hk' : 2^22*k < 2^32 := by
    have : MAX_LEN_LABEL = 1023 := rfl
    omega
  rw [getFatLabel, NORMAL_LABEL_WIDTH, Nat.shiftLeft_eq, Nat.mul_comm, Nat.mod_eq_of_lt hk',
    Nat.two_pow_add_eq_or_of_lt hn']

theorem fat_normal : getNormalLabel (getFatLabel n k) = n := by
  rw [fat_label_eq hn hk, getNormalLabel, MAX_NORMAL_LABEL, Nat.and_two_pow_sub_one_eq_mod]
  have : MAX_LB = 2^22-1 := rfl
  omega

theorem fat_len : getLenLabel (getFatLabel n k) = k := by
  rw [fat_label_eq hn hk, getLenLabel, NORMAL_LABEL_WIDTH, MAX_LEN_LABEL, Nat.shiftRight_eq_div_pow,
    Nat.and_two_pow_sub_one_eq_mod]
  have : MAX_LB = 2^22-1 := rfl
  have : MAX_LEN_LABEL = 1023 := rfl
  omega

theorem fat_is_len : isLenLabel (getFatLabel n k) = decide (k ≠ 0) := by
  rw [fat_label_eq hn hk, isLenLabel, decide_eq_decide, MAX_NORMAL_LABEL]
  have : MAX_LB = 2^22-1 := rfl
  omega

theorem fat_stripped :
    (if isLenLabel (getFatLabel n k) then getNormalLabel (getFatLabel n k)
      else getFatLabel n k) = n := by
  split_ifs with hlen
  · exact fat_normal hn hk
  · rw [fat_is_len hn hk, decide_eq_true_eq, not_not] at hlen
    rw [fat_label_eq hn hk, hlen]
    omega

end FatLabel

theorem len_label_lt {n : ℕ} (hn : n < MAX_LB) : getLenLabel n = 0 := by
  have h := fat_len hn (Nat.zero_le MAX_LEN_LABEL)
  rw [fat_label_eq hn (Nat.zero_le _), Nat.mul_zero, Nat.zero_add] at h
  exact h

theorem combine_n_pair (s : TagSet) (l1 l2 : ℕ) : combineN s [l1, l2] false = combine s l1 l2 := by
  by_cases h1 : l1 = 0
  · subst h1
    by_cases h2 : l2 = 0
    · subst h2
      rfl
    · simp [combineN, combine, ROOT, h2]
  · have hdrop : [l1, l2].dropWhile (· = ROOT) = [l1, l2] := by
      rw [List.dropWhile_cons_of_neg (by simp [ROOT, h1])]
    simp only [combineN, hdrop, inferIf]
    show combineRest s l1 [l2] = _
    rw [combineRest]
    cases combine s l1 l2 with
    | ok r => rfl
    | error e => rfl

/-- The length part that `__angora_tag_set_combine` packs is always zero. -/
theorem combine_wrap_eq {n1 n2 k1 k2 : ℕ} (hn1 : n1 < MAX_LB) (hn2 : n2 < MAX_LB)
    (hk1 : k1 ≤ MAX_LEN_LABEL) (hk2 : k2 ≤ MAX_LEN_LABEL) (ts : Option TagSet) :
    angoraTagSetCombine ts (getFatLabel n1 k1) (getFatLabel n2 k2) =
      withLen 0 (onShared ts fun s => combine s n1 n2) := by
  simp only [angoraTagSetCombine, fat_stripped hn1 hk1, fat_stripped hn2 hk2, len_label_lt hn1,
    len_label_lt hn2, ite_self]

theorem combine_n_wrap_eq {n1 n2 k1 k2 : ℕ} (hn1 : n1 < MAX_LB) (hn2 : n2 < MAX_LB)
    (hk1 : k1 ≤ MAX_LEN_LABEL) (hk2 : k2 ≤ MAX_LEN_LABEL) (ts : Option TagSet) :
    angoraTagSetCombineN ts [getFatLabel n1 k1, getFatLabel n2 k2] false =
      withLen (if k2 ≠ 0 then k2 else k1) (onShared ts fun s => combine s n1 n2) := by
  have hlen : (if isLenLabel (getFatLabel n1 k1) then getLenLabel (getFatLabel n1 k1) else 0) =
      k1 := by
    rw [fat_is_len hn1 hk1, fat_len hn1 hk1]
    split_ifs with h
    · rfl
    · rw [decide_eq_true_eq, not_not] at h
      exact h.symm
  simp only [angoraTagSetCombineN, List.foldl_cons, List.foldl_nil, List.map_cons, List.map_nil,
    fat_stripped hn1 hk1, fat_stripped hn2 hk2, hlen, combine_n_pair]
  rw [fat_is_len hn2 hk2, fat_len hn2 hk2]
  simp only [decide_eq_true_eq]

/-- The two wrappers agree on the normal part. The union carries a length label
whenever an argument does, and agrees with the vector form, exactly when neither
argument has one. -/
theorem combine_keeps_length_iff {σ : Session} (hr : Reach σ) {n1 n2 k1 k2 : ℕ}
    (h1 : n1 ∈ issued σ) (h2 : n2 ∈ issued σ) (hk1 : k1 ≤ MAX_LEN_LABEL)
    (hk2 : k2 ≤ MAX_LEN_LABEL) :
    Ensures atLimit (angoraTagSetCombine (some σ.tags) (getFatLabel n1 k1) (getFatLabel n2 k2))
      fun r => Ensures atLimit
        (angoraTagSetCombineN (some σ.tags) [getFatLabel n1 k1, getFatLabel n2 k2] false)
        fun r' => getNormalLabel r'.2 = getNormalLabel r.2 ∧
          (((k1 ≠ 0 ∨ k2 ≠ 0) → getLenLabel r.2 ≠ 0) ∧ r.2 = r'.2 ↔ k1 = 0 ∧ k2 = 0) := by
  have hn1 := issued_lt hr h1
  have hn2 := issued_lt hr h2
  obtain ⟨m, hinv, hlabels⟩ := reach_sound hr
  rw [combine_wrap_eq hn1 hn2 hk1 hk2, combine_n_wrap_eq hn1 hn2 hk1 hk2]
  have hk : (if k2 ≠ 0 then k2 else k1) ≤ MAX_LEN_LABEL := by
    split_ifs
    · exact hk2
    · exact hk1
  have hstays := combine_stays (reach_within hr) n1 n2
  cases hc : combine σ.tags n1 n2 with
  | error e =>
    have hspec := TagSetCombine.combine_spec hinv (hlabels n1 h1) (hlabels n2 h2)
    rw [hc] at hspec
    simp only [onShared, hc]
    exact hspec
  | ok r =>
    have hspec := TagSetCombine.combine_spec hinv (hlabels n1 h1) (hlabels n2 h2)
    obtain ⟨m', hcomb⟩ := ensures_value hspec hc
    rw [hc] at hstays
    have hlt : r.2 < MAX_LB := lt_of_lt_of_le hcomb.label.1 hstays
    have hmod : r.2 % 2^32 = r.2 := by
      have : MAX_LB = 2^22-1 := rfl
      omega
    simp only [onShared, hc]
    show getNormalLabel (getFatLabel (r.2 % 2^32) _) = getNormalLabel (getFatLabel (r.2 % 2^32) 0) ∧
      (((k1 ≠ 0 ∨ k2 ≠ 0) → getLenLabel (getFatLabel (r.2 % 2^32) 0) ≠ 0) ∧
        getFatLabel (r.2 % 2^32) 0 = getFatLabel (r.2 % 2^32) _ ↔ k1 = 0 ∧ k2 = 0)
    rw [hmod, fat_normal hlt hk, fat_normal hlt (Nat.zero_le _), fat_len hlt (Nat.zero_le _)]
    refine ⟨rfl, ?_⟩
    constructor
    · rintro ⟨hlen, -⟩
      by_contra hne
      exact hlen (by omega) rfl
    · rintro ⟨rfl, rfl⟩
      simp

theorem combine_keeps_length_iff_plain : 1 ∈ issued clashSession ∧ 3 ∈ issued clashSession ∧
    Ensures atLimit (angoraTagSetCombine (some clashSession.tags) (getFatLabel 1 0)
        (getFatLabel 3 7))
      fun r => Ensures atLimit
        (angoraTagSetCombineN (some clashSession.tags) [getFatLabel 1 0, getFatLabel 3 7] false)
        fun r' => getNormalLabel r'.2 = getNormalLabel r.2 ∧
          (((0 ≠ 0 ∨ 7 ≠ 0) → getLenLabel r.2 ≠ 0) ∧ r.2 = r'.2 ↔ 0 = 0 ∧ 7 = 0) :=
  ⟨by decide +kernel, by decide +kernel, combine_keeps_length_iff clash_session_reach
    (by decide +kernel) (by decide +kernel) (by decide) (by decide)⟩

/-- The union of byte 0 with length label 1 and byte 1: label 6 without the
length label, where the vector form keeps it. -/
theorem combine_drops_length : Reach clashSession ∧
    1 ∈ issued clashSession ∧ 3 ∈ issued clashSession ∧ getLenLabel (getFatLabel 1 1) = 1 ∧
    (angoraTagSetCombine (some clashSession.tags) (getFatLabel 1 1) 3).map Prod.snd = .ok 6 ∧
    getLenLabel 6 = 0 ∧
    (angoraTagSetCombineN (some clashSession.tags) [getFatLabel 1 1, 3] false).map Prod.snd =
      .ok (getFatLabel 6 1) ∧
    getLenLabel (getFatLabel 6 1) = 1 ∧ getFatLabel 6 1 ≠ 6 :=
  ⟨clash_session_reach, by decide +kernel, by decide +kernel, by decide, by decide +kernel,
    by decide, by decide +kernel, by decide, by decide⟩

end Parmesan.LenLabel
