import Mathlib.Data.Finset.Sort
import Mathlib.Data.Prod.Lex
import Parmesan.IdAssigner
import Parmesan.JsonText

/-!
# The targets file

`DiffConsumer::printStatsJson` writes the identifiers that the analysis collected,
and `parse_targets_file` of the fuzzer reads them. The writer has signed identifiers
of 32 bits and the reader unsigned ones.
-/

set_option autoImplicit false

namespace Parmesan.StatsJson
open Parmesan.JsonText
open Parmesan.IdAssigner (targets)

def IsInt32 (v : ℤ) : Prop := -2^31 ≤ v ∧ v < 2^31

/-- What the printer reads: sets and maps over `CmpIdType` and `CallSiteIdType`. -/
structure Stats where
  cmpMap : List (ℤ × Finset ℕ)
  diffIdSet : Finset ℕ
  cmpCfg : Finset (ℤ ×ₗ ℤ)
  callSiteDominators : List (ℤ × Finset ℤ)
  cmp_ids : ∀ e ∈ cmpMap, IsInt32 e.1
  edge_ids : ∀ e ∈ cmpCfg, IsInt32 (ofLex e).1 ∧ IsInt32 (ofLex e).2
  call_site_ids : ∀ e ∈ callSiteDominators, IsInt32 e.1 ∧ ∀ id ∈ e.2, IsInt32 id
  call_sites_sorted : (callSiteDominators.map Prod.fst).Pairwise (· < ·)

section Writer

def printIds (ids : Finset ℤ) : List Char := separated (ids.sort.map intText)

def printEdge (e : ℤ ×ₗ ℤ) : List Char :=
  "[".toList ++ intText (ofLex e).1 ++ ",".toList ++ intText (ofLex e).2 ++ "]".toList

def printCallSite (e : ℤ × Finset ℤ) : List Char :=
  "\"".toList ++ intText e.1 ++ "\"".toList ++ ": [".toList ++ printIds e.2 ++ "]".toList

def headText : List Char := "\x7b\n\"targets\": [".toList
def edgesText : List Char := "],\n\"edges\": [".toList
def callSitesText : List Char := "],\n\"callsite_dominators\":\x7b".toList
def tailText : List Char := "\x7d\n\x7d".toList

def printStatsJson (s : Stats) : List Char :=
  headText ++ printIds (targets s.cmpMap s.diffIdSet) ++
  edgesText ++ separated (s.cmpCfg.sort.map printEdge) ++
  callSitesText ++ separated (s.callSiteDominators.map printCallSite) ++
  tailText

end Writer

section Reader

def deU32 : Json → Option ℕ
  | .int v => if 0 ≤ v ∧ v < 2^32 then some v.toNat else none
  | _ => none

def deEdge : Json → Option (ℕ × ℕ)
  | .array [a, b] => (deU32 a).bind fun src => (deU32 b).map fun dst => (src, dst)
  | _ => none

def deSet {α : Type} [DecidableEq α] (de : Json → Option α) : Json → Option (Finset α)
  | .array vs => (vs.mapM de).map List.toFinset
  | _ => none

/-- `u32::from_str`, which allows a plus sign and no minus sign. -/
def fromStr (s : List Char) : Option ℕ :=
  let ds := if s.head? = some '+' then s.tail else s
  if ds ≠ [] ∧ ds.all Char.isDigit = true ∧ Nat.ofDigitChars 10 ds 0 < 2^32 then
    some (Nat.ofDigitChars 10 ds 0)
  else none

abbrev Dominators := ℕ → Option (Finset ℕ)

def deEntry (m : Dominators) (f : List Char × Json) : Option Dominators :=
  (fromStr f.1).bind fun k => (deSet deU32 f.2).map fun v => Function.update m k (some v)

/-- The entries in the order of the file; the order matters only for keys that are
different texts of one number. -/
def deIntKey : Json → Option Dominators
  | .object fields => fields.foldlM deEntry fun _ => none
  | _ => none

def targetsKey : List Char := "targets".toList
def edgesKey : List Char := "edges".toList
def dominatorsKey : List Char := "callsite_dominators".toList

structure CfgFile where
  targets : Finset ℕ
  edges : Finset (ℕ × ℕ)
  callsiteDominators : Dominators

structure Fields where
  targets : Option (Finset ℕ) := none
  edges : Option (Finset (ℕ × ℕ)) := none
  callsiteDominators : Option Dominators := none

/-- A field met twice is an error, an unknown one is skipped. -/
def deField (p : Fields) (f : List Char × Json) : Option Fields :=
  if f.1 = targetsKey then
    if p.targets.isSome then none
    else (deSet deU32 f.2).map fun v => { p with targets := some v }
  else if f.1 = edgesKey then
    if p.edges.isSome then none
    else (deSet deEdge f.2).map fun v => { p with edges := some v }
  else if f.1 = dominatorsKey then
    if p.callsiteDominators.isSome then none
    else (deIntKey f.2).map fun v => { p with callsiteDominators := some v }
  else some p

/-- `targets` has no default. -/
def finish (p : Fields) : Option CfgFile :=
  p.targets.map fun ts =>
    ⟨ts, p.edges.getD ∅, p.callsiteDominators.getD fun _ => none⟩

def deCfgFile : Json → Option CfgFile
  | .object fields => (fields.foldlM deField {}).bind finish
  | .array [t] => (deSet deU32 t).bind fun ts => finish { targets := some ts }
  | .array [t, e] =>
    (deSet deU32 t).bind fun ts => (deSet deEdge e).bind fun es =>
      finish { targets := some ts, edges := some es }
  | .array [t, e, d] =>
    (deSet deU32 t).bind fun ts => (deSet deEdge e).bind fun es => (deIntKey d).bind fun ds =>
      finish { targets := some ts, edges := some es, callsiteDominators := some ds }
  | _ => none

/-- `serde_json` is the parameter that reads the text. -/
def parseTargetsFile (fromReader : List Char → Option Json) (text : List Char) : Option CfgFile :=
  (fromReader text).bind deCfgFile

/-- Every standard text of a value is read as this value. -/
def ReadsJson (fromReader : List Char → Option Json) : Prop :=
  ∀ v text, Document v text → fromReader text = some v

end Reader

/-- The cast to `uint32_t`, in which the instrumented program reports an identifier. -/
def asU32 (id : ℤ) : ℕ := (id % 2^32).toNat

def callSiteOf (s : Stats) (k : ℕ) : Option (ℤ × Finset ℤ) :=
  s.callSiteDominators.find? fun e => asU32 e.1 = k

def reported (s : Stats) : CfgFile where
  targets := (targets s.cmpMap s.diffIdSet).image asU32
  edges := s.cmpCfg.image fun e => (asU32 (ofLex e).1, asU32 (ofLex e).2)
  callsiteDominators := fun k => (callSiteOf s k).map fun e => e.2.image asU32

structure NonNegative (s : Stats) : Prop where
  targets : ∀ id ∈ targets s.cmpMap s.diffIdSet, 0 ≤ id
  edges : ∀ e ∈ s.cmpCfg, 0 ≤ (ofLex e).1 ∧ 0 ≤ (ofLex e).2
  callSites : ∀ e ∈ s.callSiteDominators, 0 ≤ e.1 ∧ ∀ id ∈ e.2, 0 ≤ id

section Spelling

def idsValue (ids : Finset ℤ) : Json := .array (ids.sort.map Json.int)

def edgeValue (e : ℤ ×ₗ ℤ) : Json := .array [.int (ofLex e).1, .int (ofLex e).2]

def statsValue (s : Stats) : Json :=
  .object [(targetsKey, idsValue (targets s.cmpMap s.diffIdSet)),
    (edgesKey, .array (s.cmpCfg.sort.map edgeValue)),
    (dominatorsKey, .object (s.callSiteDominators.map fun e => (intText e.1, idsValue e.2)))]

theorem ids_spell (ids : Finset ℤ) :
    Spells (.value (idsValue ids)) ('['::(printIds ids ++ [']'])) := by
  apply Spells.array
  exact separated_items (w := []) (fun id _ => Spells.int id) blank_nil

theorem edge_spells (e : ℤ ×ₗ ℤ) : Spells (.value (edgeValue e)) (printEdge e) := by
  have hlast := Spells.lastItem blank_nil (Spells.int (ofLex e).2) blank_nil
  have hboth := Spells.array (Spells.nextItem blank_nil (Spells.int (ofLex e).1) blank_nil hlast)
  simpa [printEdge, edgeValue] using hboth

theorem digit_plain {c : Char} (hc : c.isDigit = true) : isPlain c = true := by
  have hquote : c ≠ quote := int_head_ne (Or.inr hc) (by decide)
  have hslash : c ≠ '\x5c' := int_head_ne (Or.inr hc) (by decide)
  have hlow : 32 ≤ c.toNat := by
    simp only [Char.isDigit, ge_iff_le, Bool.and_eq_true, decide_eq_true_eq,
      UInt32.le_iff_toNat_le] at hc
    exact le_trans (by decide) hc.1
  simp [isPlain, hquote, hslash, hlow]

theorem int_text_plain (v : ℤ) : Plain (intText v) := by
  have hdigits : Plain (Nat.toDigits 10 v.natAbs) :=
    fun c hc => digit_plain (Nat.isDigit_of_mem_toDigits (by decide) (by decide) hc)
  rw [intText]
  split_ifs
  · intro c hc
    rcases List.mem_cons.mp hc with rfl | hc
    · rfl
    · exact hdigits c hc
  · exact hdigits

theorem call_site_text (e : ℤ × Finset ℤ) :
    printCallSite e = memberText (intText e.1) ('['::(printIds e.2 ++ [']'])) := by
  simp [printCallSite, memberText, strText, quote]

theorem call_sites_spell (m : List (ℤ × Finset ℤ)) :
    Spells (.value (.object (m.map fun e => (intText e.1, idsValue e.2))))
      (openBrace::(separated (m.map printCallSite) ++ [closeBrace])) := by
  apply Spells.object
  rw [funext call_site_text]
  exact separated_members (w := []) (fun e _ => ⟨int_text_plain e.1, ids_spell e.2⟩) blank_nil

theorem blank_line : Blank ['\n'] := by
  intro c hc
  rw [List.mem_singleton.mp hc]
  rfl

theorem keys_plain : Plain targetsKey ∧ Plain edgesKey ∧ Plain dominatorsKey := by
  have hplain : ∀ s : List Char, s.all isPlain = true → Plain s := fun _ => List.all_eq_true.mp
  exact ⟨hplain _ (by decide), hplain _ (by decide), hplain _ (by decide)⟩

theorem head_text : headText = openBrace :: '\n' :: (strText targetsKey ++ [':', ' ', '[']) := by
  decide

theorem edges_text : edgesText = ']' :: ',' :: '\n' :: (strText edgesKey ++ [':', ' ', '[']) := by
  decide

theorem call_sites_text :
    callSitesText = ']' :: ',' :: '\n' :: (strText dominatorsKey ++ [':', openBrace]) := by
  decide

theorem tail_text : tailText = [closeBrace, '\n', closeBrace] := by
  decide

theorem stats_document (s : Stats) : Document (statsValue s) (printStatsJson s) := by
  have hedges : Spells (.value (.array (s.cmpCfg.sort.map edgeValue)))
      ('['::(separated (s.cmpCfg.sort.map printEdge) ++ [']'])) := by
    apply Spells.array
    exact separated_items (w := []) (fun e _ => edge_spells e) blank_nil
  have hmembers := Spells.nextMember blank_line keys_plain.1 blank_nil blank_space
    (ids_spell (targets s.cmpMap s.diffIdSet)) blank_nil
    (Spells.nextMember blank_line keys_plain.2.1 blank_nil blank_space hedges blank_nil
      (Spells.lastMember blank_line keys_plain.2.2 blank_nil blank_nil
        (call_sites_spell s.callSiteDominators) blank_line))
  refine ⟨[], _, [], blank_nil, Spells.object hmembers, blank_nil, ?_⟩
  simp only [printStatsJson, head_text, edges_text, call_sites_text, tail_text, List.append_assoc,
    List.cons_append, List.nil_append, List.append_nil]

end Spelling

section Decoding

theorem as_u32_of_nonneg {id : ℤ} (h : IsInt32 id) (hpos : 0 ≤ id) : asU32 id = id.toNat := by
  unfold IsInt32 at h
  rw [asU32, Int.emod_eq_of_lt hpos (by omega)]

theorem as_u32_inj {a b : ℤ} (ha : IsInt32 a) (hb : IsInt32 b) (h : asU32 a = asU32 b) : a = b := by
  unfold IsInt32 at ha hb
  unfold asU32 at h
  omega

theorem de_u32_int {id : ℤ} (h : IsInt32 id) :
    deU32 (.int id) = if 0 ≤ id then some (asU32 id) else none := by
  unfold IsInt32 at h
  rw [deU32]
  by_cases hpos : 0 ≤ id
  · rw [if_pos ⟨hpos, by omega⟩, if_pos hpos, as_u32_of_nonneg h hpos]
  · rw [if_neg (fun hin => hpos hin.1), if_neg hpos]

theorem both_checked {α β γ : Type} {a b : Prop} [Decidable a] [Decidable b] (x : α) (y : β)
    (f : α → β → γ) :
    ((if a then some x else none).bind fun u => (if b then some y else none).map fun v => f u v) =
      if a ∧ b then some (f x y) else none := by
  by_cases ha : a
  · by_cases hb : b
    · rw [if_pos ha, if_pos hb, if_pos ⟨ha, hb⟩]
      rfl
    · have hnot : ¬ (a ∧ b) := fun hboth => hb hboth.2
      rw [if_pos ha, if_neg hb, if_neg hnot]
      rfl
  · have hnot : ¬ (a ∧ b) := fun hboth => ha hboth.1
    rw [if_neg ha, if_neg hnot]
    rfl

theorem de_edge_value {e : ℤ ×ₗ ℤ} (h : IsInt32 (ofLex e).1 ∧ IsInt32 (ofLex e).2) :
    deEdge (edgeValue e) = if 0 ≤ (ofLex e).1 ∧ 0 ≤ (ofLex e).2 then
      some (asU32 (ofLex e).1, asU32 (ofLex e).2) else none := by
  rw [edgeValue, deEdge, de_u32_int h.1, de_u32_int h.2]
  exact both_checked _ _ Prod.mk

theorem map_m_checked {α β γ : Type} {de : β → Option γ} {enc : α → β} {out : α → γ}
    {ok : α → Prop} [DecidablePred ok] {xs : List α}
    (h : ∀ x ∈ xs, de (enc x) = if ok x then some (out x) else none) :
    (xs.map enc).mapM de = if ∀ x ∈ xs, ok x then some (xs.map out) else none := by
  induction xs with
  | nil => simp
  | cons x xs ih =>
    have hrest := ih fun y hy => h y (List.mem_cons_of_mem x hy)
    rw [List.map_cons, List.mapM_cons, h x List.mem_cons_self, hrest]
    by_cases hx : ok x
    · by_cases hxs : ∀ y ∈ xs, ok y
      · rw [if_pos hx, if_pos hxs, if_pos (List.forall_mem_cons.mpr ⟨hx, hxs⟩)]
        rfl
      · rw [if_pos hx, if_neg hxs, if_neg fun hall => hxs (List.forall_mem_cons.mp hall).2]
        rfl
    · rw [if_neg hx, if_neg fun hall => hx (List.forall_mem_cons.mp hall).1]
      rfl

theorem de_set_checked {α γ : Type} [DecidableEq α] [DecidableEq γ] {de : Json → Option γ}
    {enc : α → Json} {out : α → γ} {ok : α → Prop} [DecidablePred ok] {xs : List α}
    {ids : Finset α} (hmem : xs.toFinset = ids)
    (h : ∀ x ∈ ids, de (enc x) = if ok x then some (out x) else none) :
    deSet de (.array (xs.map enc)) = if ∀ x ∈ ids, ok x then some (ids.image out) else none := by
  rw [← hmem]
  simp only [← hmem, List.mem_toFinset] at h ⊢
  rw [deSet, map_m_checked h]
  split_ifs
  · rw [Option.map_some]
    congr 1
    ext y
    simp
  · rfl

theorem de_ids {ids : Finset ℤ} (h : ∀ id ∈ ids, IsInt32 id) :
    deSet deU32 (idsValue ids) =
      if ∀ id ∈ ids, 0 ≤ id then some (ids.image asU32) else none :=
  de_set_checked (ids.sort_toFinset _) fun id hid => de_u32_int (h id hid)

theorem from_str_int {id : ℤ} (h : IsInt32 id) :
    fromStr (intText id) = if 0 ≤ id then some (asU32 id) else none := by
  have hrange := h
  unfold IsInt32 at hrange
  rw [intText]
  by_cases hpos : 0 ≤ id
  · rw [if_neg (by omega : ¬ id < 0), if_pos hpos, as_u32_of_nonneg h hpos]
    obtain ⟨c, cs, hds, hc⟩ := digits_head id.natAbs
    have hplus : (Nat.toDigits 10 id.natAbs).head? ≠ some '+' := by
      rw [hds, List.head?_cons]
      intro heq
      exact int_head_ne (Or.inr hc) (by decide) (Option.some.inj heq)
    have hdigits : (Nat.toDigits 10 id.natAbs).all Char.isDigit = true := by
      rw [List.all_eq_true]
      exact fun c hc => Nat.isDigit_of_mem_toDigits (by decide) (by decide) hc
    have hvalue : id.natAbs = id.toNat := by omega
    rw [fromStr, if_neg hplus, Nat.ofDigitChars_ten_toDigits,
      if_pos ⟨Nat.toDigits_ne_nil, hdigits, by omega⟩, hvalue]
  · rw [if_pos (by omega : id < 0), if_neg hpos]
    have hminus : ('-'::Nat.toDigits 10 id.natAbs).all Char.isDigit ≠ true := by
      rw [List.all_cons]
      exact Bool.false_ne_true
    have hplus : ('-'::Nat.toDigits 10 id.natAbs).head? ≠ some '+' := by simp
    rw [fromStr, if_neg hplus]
    exact if_neg fun hall => hminus hall.2.1

theorem fold_update_find {α : Type} {num : α → ℕ} {val : α → Finset ℕ} {m : List α}
    (h : m.Pairwise fun a b => num a ≠ num b) (d : Dominators) (k : ℕ) :
    m.foldl (fun d e => Function.update d (num e) (some (val e))) d k =
      ((m.find? fun e => num e = k).map val).or (d k) := by
  induction m generalizing d with
  | nil => rfl
  | cons e m ih =>
    obtain ⟨hne, hm⟩ := List.pairwise_cons.mp h
    rw [List.foldl_cons, ih hm]
    by_cases hk : num e = k
    · have hnone : m.find? (fun e => num e = k) = none := by
        rw [List.find?_eq_none]
        intro e' he' hk'
        exact hne e' he' (hk.trans (of_decide_eq_true hk').symm)
      have hfirst : (e::m).find? (fun e => num e = k) = some e :=
        List.find?_cons_of_pos (by simpa using hk)
      rw [hnone, hfirst, hk, Function.update_self]
      rfl
    · have hlater : (e::m).find? (fun e => num e = k) = m.find? fun e => num e = k :=
        List.find?_cons_of_neg (by simpa using hk)
      rw [hlater, Function.update_of_ne (Ne.symm hk)]

theorem de_entry_value {e : ℤ × Finset ℤ} (h : IsInt32 e.1 ∧ ∀ id ∈ e.2, IsInt32 id)
    (d : Dominators) : deEntry d (intText e.1, idsValue e.2) =
      if 0 ≤ e.1 ∧ ∀ id ∈ e.2, 0 ≤ id then
        some (Function.update d (asU32 e.1) (some (e.2.image asU32))) else none := by
  rw [deEntry, from_str_int h.1, de_ids h.2]
  exact both_checked _ _ fun k v => Function.update d k (some v)

theorem de_entries {m : List (ℤ × Finset ℤ)}
    (h : ∀ e ∈ m, IsInt32 e.1 ∧ ∀ id ∈ e.2, IsInt32 id) (d : Dominators) :
    (m.map fun e => (intText e.1, idsValue e.2)).foldlM deEntry d =
      if ∀ e ∈ m, 0 ≤ e.1 ∧ ∀ id ∈ e.2, 0 ≤ id then
        some (m.foldl (fun d e => Function.update d (asU32 e.1) (some (e.2.image asU32))) d)
      else none := by
  induction m generalizing d with
  | nil => simp
  | cons e m ih =>
    rw [List.map_cons, List.foldlM_cons, de_entry_value (h e List.mem_cons_self)]
    by_cases he : 0 ≤ e.1 ∧ ∀ id ∈ e.2, 0 ≤ id
    · rw [if_pos he]
      show List.foldlM deEntry _ _ = _
      rw [ih fun e' he' => h e' (List.mem_cons_of_mem e he'), List.foldl_cons]
      have htail : (∀ e' ∈ e::m, 0 ≤ e'.1 ∧ ∀ id ∈ e'.2, 0 ≤ id) ↔
          ∀ e' ∈ m, 0 ≤ e'.1 ∧ ∀ id ∈ e'.2, 0 ≤ id := by
        rw [List.forall_mem_cons]
        exact and_iff_right he
      exact if_congr htail.symm rfl rfl
    · have hnot : ¬ ∀ e' ∈ e::m, 0 ≤ e'.1 ∧ ∀ id ∈ e'.2, 0 ≤ id :=
        fun hall => he (hall e List.mem_cons_self)
      rw [if_neg he, if_neg hnot]
      rfl

theorem call_sites_apart (s : Stats) :
    s.callSiteDominators.Pairwise fun a b => asU32 a.1 ≠ asU32 b.1 := by
  have hsorted := List.pairwise_map.mp s.call_sites_sorted
  apply hsorted.imp_of_mem
  intro a b ha hb hlt heq
  have hsame := as_u32_inj (s.call_site_ids a ha).1 (s.call_site_ids b hb).1 heq
  omega

theorem de_call_sites (s : Stats) :
    deIntKey (.object (s.callSiteDominators.map fun e => (intText e.1, idsValue e.2))) =
      if ∀ e ∈ s.callSiteDominators, 0 ≤ e.1 ∧ ∀ id ∈ e.2, 0 ≤ id then
        some (reported s).callsiteDominators else none := by
  have hfold : s.callSiteDominators.foldl
      (fun d e => Function.update d (asU32 e.1) (some (e.2.image asU32))) (fun _ => none) =
      (reported s).callsiteDominators := by
    funext k
    rw [fold_update_find (call_sites_apart s), Option.or_none]
    rfl
  rw [deIntKey, de_entries s.call_site_ids, hfold]

theorem target_ids (s : Stats) : ∀ id ∈ targets s.cmpMap s.diffIdSet, IsInt32 id := by
  intro id hid
  rw [targets, List.mem_toFinset, List.mem_map] at hid
  obtain ⟨e, he, rfl⟩ := hid
  exact s.cmp_ids e (List.mem_of_mem_filter he)

theorem keys_apart : edgesKey ≠ targetsKey ∧ dominatorsKey ≠ targetsKey ∧
    dominatorsKey ≠ edgesKey := by
  decide

theorem de_cfg_file (ids edges sites : Json) :
    deCfgFile (.object [(targetsKey, ids), (edgesKey, edges), (dominatorsKey, sites)]) =
      (deSet deU32 ids).bind fun ts => (deSet deEdge edges).bind fun es =>
        (deIntKey sites).map fun ds => ⟨ts, es, ds⟩ := by
  obtain ⟨h1, h2, h3⟩ := keys_apart
  rw [deCfgFile]
  simp only [List.foldlM_cons, List.foldlM_nil, deField, if_true, if_neg h1, if_neg h2, if_neg h3]
  cases deSet deU32 ids with
  | none => rfl
  | some ts =>
    cases deSet deEdge edges with
    | none => rfl
    | some es =>
      cases deIntKey sites with
      | none => rfl
      | some ds => rfl

end Decoding

/-- The fuzzer reads back what was printed exactly when nothing printed is negative. -/
theorem stats_read_back_iff {fromReader : List Char → Option Json} (hread : ReadsJson fromReader)
    (s : Stats) :
    parseTargetsFile fromReader (printStatsJson s) = some (reported s) ↔ NonNegative s := by
  have hedges : deSet deEdge (.array (s.cmpCfg.sort.map edgeValue)) =
      if ∀ e ∈ s.cmpCfg, 0 ≤ (ofLex e).1 ∧ 0 ≤ (ofLex e).2 then some (reported s).edges
      else none :=
    de_set_checked (s.cmpCfg.sort_toFinset _) fun e he => de_edge_value (s.edge_ids e he)
  rw [parseTargetsFile, hread _ _ (stats_document s), Option.bind_some, statsValue,
    de_cfg_file, de_ids (target_ids s), hedges, de_call_sites]
  constructor
  · intro h
    obtain ⟨ts, hts, h⟩ := Option.bind_eq_some_iff.mp h
    obtain ⟨es, hes, h⟩ := Option.bind_eq_some_iff.mp h
    obtain ⟨ds, hds, -⟩ := Option.map_eq_some_iff.mp h
    split_ifs at hts hes hds with htargets hpairs hsites
    exact ⟨htargets, hpairs, hsites⟩
  · intro h
    rw [if_pos h.targets, if_pos h.edges, if_pos h.callSites]
    rfl

theorem reads_json_document : ReadsJson readDocument := fun _ _ h => read_document h

def oneTarget (id : ℤ) (h : IsInt32 id) : Stats where
  cmpMap := [(id, {1})]
  diffIdSet := {1}
  cmpCfg := ∅
  callSiteDominators := []
  cmp_ids := by simpa using h
  edge_ids := by simp
  call_site_ids := by simp
  call_sites_sorted := by simp

def signedStats : Stats := oneTarget (IdAssigner.toInt32 (2^31)) (by unfold IsInt32; decide)

/-- The program reports 2147483648, the file has it as -2147483648 and is rejected. -/
theorem signed_target_rejected : (reported signedStats).targets = {2147483648} ∧
    printStatsJson signedStats = ("\x7b\n\"targets\": [-2147483648],\n\"edges\": [],\n" ++
      "\"callsite_dominators\":\x7b\x7d\n\x7d").toList ∧
    parseTargetsFile readDocument (printStatsJson signedStats) = none := by
  have hneg : ¬ ∀ id ∈ targets signedStats.cmpMap signedStats.diffIdSet, 0 ≤ id := by decide
  refine ⟨by decide, by decide +kernel, ?_⟩
  rw [parseTargetsFile, reads_json_document _ _ (stats_document signedStats), Option.bind_some,
    statsValue, de_cfg_file, de_ids (target_ids signedStats), if_neg hneg]
  rfl

def plainStats : Stats where
  cmpMap := [(5, {1, 2}), (9, {3})]
  diffIdSet := {2}
  cmpCfg := {toLex (5, 9), toLex (9, 5)}
  callSiteDominators := [(3, {9}), (7, {5, 9})]
  cmp_ids := by unfold IsInt32; decide
  edge_ids := by unfold IsInt32; decide
  call_site_ids := by unfold IsInt32; decide
  call_sites_sorted := by decide

theorem stats_read_back_iff_plain : ReadsJson readDocument ∧ NonNegative plainStats ∧
    parseTargetsFile readDocument (printStatsJson plainStats) = some (reported plainStats) ∧
    (reported plainStats).targets = {5} ∧
    (reported plainStats).callsiteDominators 7 = some {5, 9} := by
  have hpos : NonNegative plainStats := ⟨by decide, by decide, by decide⟩
  exact ⟨reads_json_document, hpos, (stats_read_back_iff reads_json_document plainStats).mpr hpos,
    by decide, by decide⟩

end Parmesan.StatsJson
