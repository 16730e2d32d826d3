import Parmesan.FastCounter

/-!
# The numbering of comparisons in the two builds

The tracking build numbers the comparisons of a site that it logs, and the fast
build counts those it executes. A record is measured at the event it was logged
from exactly when the two have counted alike.
-/

set_option autoImplicit false

namespace Parmesan.TrackReplay
open Parmesan.CondModel Parmesan.Execution Parmesan.TagSetRun Parmesan.TrackModel
open Parmesan.FastCounter

/-- By how much the tracker's counter of the site moves: not at all without
taint, and once for every block of `2^16` cases of a switch. -/
def increments : Event → ℕ
  | .cmp c => if c.lb1 = 0 ∧ c.lb2 = 0 then 0
      else if c.op < COND_AFL_OP ∨ c.op = COND_FN_OP then 1 else 0
  | .switch c => if c.lb = 0 then 0 else (c.args.length+65535)/65536
  | _ => 0

def counted (key : ℕ × ℕ) (events : List Event) : ℕ :=
  ((events.filter fun e => siteKey e = some key).map increments).sum

/-- Comparisons, switches, and what happens to the labels between them. -/
def Compares : Event → Prop
  | .fn _ => False
  | .exploit _ => False
  | _ => True

instance : (e : Event) → Decidable (Compares e)
  | .fn _ => isFalse id
  | .exploit _ => isFalse id
  | .cmp _ => isTrue trivial
  | .switch _ => isTrue trivial
  | .label _ => isTrue trivial
  | .lenLabel _ _ => isTrue trivial

/-- The tracker and the conditions it is about to save, one for each case. -/
def requests (t : Tracker) : Event → Option (Tracker × List CondStmtBase)
  | .cmp c => if c.lb1 = 0 ∧ c.lb2 = 0 then some (t, []) else do
      let u ← inferShape t c.lb1 c.size
      let v ← inferShape u c.lb2 c.size
      some (v,
        [{ cmpid := c.cmpid, context := c.context, lastCallsite := c.lastCallsite, order := 0,
           belong := 0, condition := c.condition, level := 0,
           op := inferEqSign t.tagSet c.op c.lb1 c.lb2, size := c.size, lb1 := c.lb1, lb2 := c.lb2,
           arg1 := c.arg1, arg2 := c.arg2 }])
  | .switch c => if c.lb = 0 then some (t, []) else do
      let u ← inferShape t c.lb c.size
      some (u, c.args.mapIdx (switchCase c (switchOp u.tagSet c.lb)))
  | e => (handle t e).map fun u => (u, [])

theorem handle_requests {t : Tracker} {e : Event} (hc : Compares e) :
    handle t e = (requests t e).bind fun r => r.2.foldlM save r.1 := by
  cases e with
  | cmp c =>
    simp only [handle, traceCmp, requests]
    split_ifs
    · rfl
    · simp only [bind, Option.bind_assoc, Option.bind_some, List.foldlM_cons, List.foldlM_nil,
        logCmpCallsite, Option.pure_def, Option.bind_fun_some]
  | switch c =>
    simp only [handle, traceSwitch, requests]
    split_ifs
    · rfl
    · simp only [bind, Option.bind_assoc, Option.bind_some]
  | label op => simp [requests, Option.bind_map, Function.comp_def]
  | lenLabel offset size => rfl
  | fn c => exact hc.elim
  | exploit c => exact hc.elim

/-- Condition `k` of event `p` appended record `i`, which is `r`. -/
def Origin (events : List Event) (i : ℕ) (r : CondStmtBase) (p k : ℕ) : Prop :=
  ∃ t e u conds v cond w, run (events.take p) = some t ∧ events[p]? = some e ∧
    requests t e = some (u, conds) ∧ (conds.take k).foldlM save u = some v ∧
    conds[k]? = some cond ∧ save v cond = some w ∧
    v.data.condList.length ≤ i ∧ w.data.condList[i]? = some r

def number (events : List Event) (key : ℕ × ℕ) (p k : ℕ) : ℕ :=
  counted key (events.take p)+k/65536+1

/-- Up to the event of the record both builds have counted equally often, and
the fast counter does not come round to the number of the record again. -/
def Numbered (events : List Event) (r : CondStmtBase) (p k : ℕ) : Prop :=
  seen (orderKey r) (events.take (p+1)) ≤ 2^32 ∧
    seen (orderKey r) (events.take (p+1)) % 2^32 = number events (orderKey r) p k % 2^32 ∧
    (r.cmpid = 0 → seen (orderKey r) (events.drop (p+1)) <
      2^32-0x8000+number events (orderKey r) p k % 2^32)

/-- The requests of one event: the same site and operator throughout, all
tainted, and the case number in the upper half of the order. -/
structure Cases (key : ℕ × ℕ) (ordered : Bool) (conds : List CondStmtBase) : Prop where
  key : ∀ c ∈ conds, orderKey c = key
  ordered : ∀ c ∈ conds, isOrdered c = ordered
  tainted : ∀ c ∈ conds, ¬ (c.lb1 = 0 ∧ c.lb2 = 0)
  order : ∀ j c, conds[j]? = some c → c.order = (j <<< 16) % 2^32

theorem cases_nil (key : ℕ × ℕ) (ordered : Bool) : Cases key ordered [] := by
  constructor <;> simp

theorem infer_eq_sign_ordered (s : TagSetModel.TagSet) (op lb1 lb2 : ℕ) :
    inferEqSign s op lb1 lb2 < COND_AFL_OP ∨ inferEqSign s op lb1 lb2 = COND_FN_OP ↔
      op < COND_AFL_OP ∨ op = COND_FN_OP := by
  unfold inferEqSign
  split_ifs with h
  · rw [h.1]
    decide
  · exact Iff.rfl

theorem is_ordered_iff (c : CondStmtBase) :
    isOrdered c = true ↔ c.op < COND_AFL_OP ∨ c.op = COND_FN_OP := by
  simp [isOrdered]

def moved (ordered : Bool) (k : ℕ) : ℕ := if ordered then (k+65535)/65536 else 0

theorem cmp_cases {t u : Tracker} {c : CmpCall} {conds : List CondStmtBase}
    (h : requests t (.cmp c) = some (u, conds)) :
    SameLog t u ∧ ∃ ordered, Cases (c.cmpid, c.context) ordered conds ∧
      moved ordered conds.length = increments (.cmp c) := by
  simp only [requests] at h
  split_ifs at h with hl
  · obtain ⟨rfl, rfl⟩ := Prod.mk.inj (Option.some.inj h)
    refine ⟨same_log_refl t, false, cases_nil _ _, ?_⟩
    rw [increments, if_pos hl]
    rfl
  · obtain ⟨t1, h1, h⟩ := Option.bind_eq_some_iff.mp h
    obtain ⟨t2, h2, h⟩ := Option.bind_eq_some_iff.mp h
    obtain ⟨rfl, rfl⟩ := Prod.mk.inj (Option.some.inj h)
    refine ⟨same_log_trans (infer_shape_same h1) (infer_shape_same h2),
      decide (c.op < COND_AFL_OP ∨ c.op = COND_FN_OP), ⟨?_, ?_, ?_, ?_⟩, ?_⟩
    · intro c' hc'
      obtain rfl := List.mem_singleton.mp hc'
      rfl
    · intro c' hc'
      obtain rfl := List.mem_singleton.mp hc'
      rw [Bool.eq_iff_iff, is_ordered_iff, decide_eq_true_eq]
      exact infer_eq_sign_ordered t.tagSet c.op c.lb1 c.lb2
    · intro c' hc'
      obtain rfl := List.mem_singleton.mp hc'
      exact hl
    · intro j c' hj
      cases j with
      | zero =>
        obtain rfl := Option.some.inj hj
        rfl
      | succ j => simp at hj
    · rw [increments, if_neg hl]
      by_cases hop : c.op < COND_AFL_OP ∨ c.op = COND_FN_OP
      · simp [hop, moved]
      · simp [hop, moved]

theorem switch_cases {t u : Tracker} {c : SwitchCall} {conds : List CondStmtBase}
    (h : requests t (.switch c) = some (u, conds)) :
    SameLog t u ∧ ∃ ordered, Cases (c.cmpid, c.context) ordered conds ∧
      moved ordered conds.length = increments (.switch c) := by
  simp only [requests] at h
  split_ifs at h with hl
  · obtain ⟨rfl, rfl⟩ := Prod.mk.inj (Option.some.inj h)
    refine ⟨same_log_refl t, false, cases_nil _ _, ?_⟩
    rw [increments, if_pos hl]
    rfl
  · obtain ⟨t1, h1, h⟩ := Option.bind_eq_some_iff.mp h
    obtain ⟨rfl, rfl⟩ := Prod.mk.inj (Option.some.inj h)
    refine ⟨infer_shape_same h1, true, ⟨?_, ?_, ?_, ?_⟩, ?_⟩
    · intro c' hc'
      obtain ⟨i, hi, rfl⟩ := List.mem_mapIdx.mp hc'
      rfl
    · intro c' hc'
      obtain ⟨i, hi, rfl⟩ := List.mem_mapIdx.mp hc'
      rw [is_ordered_iff]
      simp only [switchCase, switchOp]
      split_ifs <;> decide
    · intro c' hc'
      obtain ⟨i, hi, rfl⟩ := List.mem_mapIdx.mp hc'
      exact fun h0 => hl h0.1
    · intro j c' hj
      rw [List.getElem?_mapIdx] at hj
      obtain ⟨arg, -, rfl⟩ := Option.map_eq_some_iff.mp hj
      rfl
    · rw [increments, if_neg hl, moved, if_pos rfl, List.length_mapIdx]

theorem requests_cases {t u : Tracker} {e : Event} {conds : List CondStmtBase} (hc : Compares e)
    (h : requests t e = some (u, conds)) : SameLog t u ∧ (siteKey e = none → conds = []) ∧
      ∀ key, siteKey e = some key → ∃ ordered, Cases key ordered conds ∧
        moved ordered conds.length = increments e := by
  cases e with
  | cmp c =>
    obtain ⟨hsame, hcases⟩ := cmp_cases h
    refine ⟨hsame, by simp [siteKey], ?_⟩
    intro key hkey
    obtain rfl := Option.some.inj hkey
    exact hcases
  | switch c =>
    obtain ⟨hsame, hcases⟩ := switch_cases h
    refine ⟨hsame, by simp [siteKey], ?_⟩
    intro key hkey
    obtain rfl := Option.some.inj hkey
    exact hcases
  | label op =>
    obtain ⟨u', hu, heq⟩ := Option.map_eq_some_iff.mp h
    obtain ⟨rfl, rfl⟩ := Prod.mk.inj heq
    exact ⟨label_step_same hu, fun _ => rfl, by simp [siteKey]⟩
  | lenLabel offset size =>
    obtain ⟨rfl, rfl⟩ := Prod.mk.inj (Option.some.inj h)
    exact ⟨new_len_label_same t offset size, fun _ => rfl, by simp [siteKey]⟩
  | fn c => exact hc.elim
  | exploit c => exact hc.elim

/-- Case `k` gets the number after those of the blocks of cases before it. -/
theorem next_number {v : Tracker} {cond : CondStmtBase} {n k : ℕ}
    (hv : v.orderMap (orderKey cond) = (n+moved true k) % 2^32)
    (ho : cond.order = (k <<< 16) % 2^32) : nextOrder v cond = (n+k/65536+1) % 2^32 := by
  rw [Nat.shiftLeft_eq] at ho
  simp only [moved, if_true] at hv
  unfold nextOrder
  split_ifs <;> omega

theorem save_frame {t t' : Tracker} {cond : CondStmtBase} {key : ℕ × ℕ} (hk : orderKey cond ≠ key)
    (h : save t cond = some t') : t'.orderMap key = t.orderMap key := by
  obtain rfl | ⟨record, extra, hs⟩ := save_cases h
  · rfl
  · rw [hs.orderMap]
    split_ifs
    · exact Function.update_of_ne hk.symm _ _
    · rfl

theorem save_all_frame {key : ℕ × ℕ} {conds : List CondStmtBase} {t t' : Tracker}
    (hk : ∀ c ∈ conds, orderKey c ≠ key) (h : conds.foldlM save t = some t') :
    t'.orderMap key = t.orderMap key := by
  refine fold_relates (R := fun s u => u.orderMap key = s.orderMap key) (fun _ => rfl) ?_ conds ?_
    t t' h
  · intro s u v h1 h2
    exact h2.trans h1
  · intro c hc s u hs
    exact save_frame (hk c hc) hs

theorem cases_moved {key : ℕ × ℕ} {ordered : Bool} {conds : List CondStmtBase} {u : Tracker} {n : ℕ}
    (hc : Cases key ordered conds) (hu : u.orderMap key = n % 2^32) (k : ℕ)
    (hk : k ≤ conds.length) (v : Tracker) (h : (conds.take k).foldlM save u = some v) :
    v.orderMap key = (n+moved ordered k) % 2^32 := by
  induction k generalizing v with
  | zero =>
    obtain rfl := Option.some.inj h
    have hzero : moved ordered 0 = 0 := by cases ordered <;> decide
    rw [hzero, Nat.add_zero]
    exact hu
  | succ k ih =>
    have hget : conds[k]? = some conds[k] := List.getElem?_eq_getElem hk
    have hmem := List.mem_of_getElem? hget
    rw [List.take_add_one, hget, List.foldlM_append] at h
    obtain ⟨w, hw, h⟩ := Option.bind_eq_some_iff.mp h
    replace h : save w conds[k] = some v := by simpa using h
    have hmoved := ih (by omega) w hw
    obtain ⟨record, extra, hs⟩ := save_spec (hc.tainted _ hmem) h
    have hord := hs.orderMap
    rw [hc.ordered _ hmem, hc.key _ hmem] at hord
    cases ordered with
    | false =>
      rw [if_neg (by decide)] at hord
      rw [hord, hmoved, moved, moved, if_neg (by decide), if_neg (by decide)]
    | true =>
      rw [if_pos rfl, next_number (by rw [hc.key _ hmem]; exact hmoved) (hc.order k _ hget)] at hord
      rw [hord, Function.update_self, moved, if_pos rfl]
      omega

def incrementsAt (key : ℕ × ℕ) (e : Event) : ℕ := if siteKey e = some key then increments e else 0

theorem counted_snoc (key : ℕ × ℕ) (events : List Event) (e : Event) :
    counted key (events ++ [e]) = counted key events+incrementsAt key e := by
  unfold counted incrementsAt
  by_cases h : siteKey e = some key <;> simp [h]

theorem handle_order {t t' : Tracker} {e : Event} {key : ℕ × ℕ} {n : ℕ} (hc : Compares e)
    (ht : t.orderMap key = n % 2^32) (h : handle t e = some t') :
    t'.orderMap key = (n+incrementsAt key e) % 2^32 := by
  rw [handle_requests hc] at h
  obtain ⟨⟨u, conds⟩, hreq, h⟩ := Option.bind_eq_some_iff.mp h
  obtain ⟨hsame, hnone, hcases⟩ := requests_cases hc hreq
  simp only at h
  unfold incrementsAt
  cases hkey : siteKey e with
  | none =>
    rw [hnone hkey] at h
    obtain rfl := Option.some.inj h
    rw [hsame.orderMap, ht, if_neg (by simp), Nat.add_zero]
  | some site =>
    obtain ⟨ordered, hc, hmoved⟩ := hcases site hkey
    rw [← List.take_length (l := conds)] at h
    by_cases hs : site = key
    · subst hs
      rw [cases_moved hc (by rw [hsame.orderMap]; exact ht) _ le_rfl t' h, if_pos rfl, hmoved]
    · rw [List.take_length] at h
      have hframe : ∀ c ∈ conds, orderKey c ≠ key := by
        intro c hmem
        rw [hc.key c hmem]
        exact hs
      rw [save_all_frame hframe h, hsame.orderMap, ht, if_neg (by simpa using hs),
        Nat.add_zero]

theorem run_order (events : List Event) (t : Tracker) (key : ℕ × ℕ)
    (h : replay handle (fun _ e => Compares e) newTracker events = some t) :
    t.orderMap key = counted key events % 2^32 := by
  refine replay_induction (P := fun events t => t.orderMap key = counted key events % 2^32)
    rfl ?_ events t h
  intro events s e t _ ih hc hn
  rw [counted_snoc]
  exact handle_order hc ih hn

theorem save_extends {t t' : Tracker} {cond : CondStmtBase} (h : save t cond = some t') :
    t.data.condList <+: t'.data.condList := by
  obtain rfl | ⟨record, extra, hs⟩ := save_cases h
  · exact List.prefix_rfl
  · exact ⟨_, hs.condList.symm⟩

theorem extends_get {l l' : List CondStmtBase} (h : l <+: l') {i : ℕ} (hi : i < l.length) :
    l'[i]? = l[i]? := by
  obtain ⟨rest, rfl⟩ := h
  exact List.getElem?_append_left hi

theorem save_all_extends {conds : List CondStmtBase} {t t' : Tracker}
    (h : conds.foldlM save t = some t') : t.data.condList <+: t'.data.condList := by
  refine fold_relates (R := fun s u => s.data.condList <+: u.data.condList)
    (fun _ => List.prefix_rfl) ?_ conds ?_ t t' h
  · intro s u v h1 h2
    exact h1.trans h2
  · intro c _ s u hs
    exact save_extends hs

theorem save_all_origin {conds : List CondStmtBase} {u t' : Tracker} {i : ℕ} {r : CondStmtBase}
    (h : conds.foldlM save u = some t') (hi : u.data.condList.length ≤ i)
    (hr : t'.data.condList[i]? = some r) :
    ∃ k v cond w, (conds.take k).foldlM save u = some v ∧ conds[k]? = some cond ∧
      save v cond = some w ∧ v.data.condList.length ≤ i ∧ w.data.condList[i]? = some r := by
  induction conds generalizing u with
  | nil =>
    obtain rfl := Option.some.inj h
    rw [List.getElem?_eq_none hi] at hr
    cases hr
  | cons cond conds ih =>
    rw [List.foldlM_cons] at h
    obtain ⟨u', hu, h⟩ := Option.bind_eq_some_iff.mp h
    by_cases hi' : i < u'.data.condList.length
    · rw [extends_get (save_all_extends h) hi'] at hr
      exact ⟨0, u, cond, u', rfl, rfl, hu, hi, hr⟩
    · obtain ⟨k, v, c, w, hv, hc, hw, hrest⟩ := ih h (by omega)
      refine ⟨k+1, v, c, w, ?_, hc, hw, hrest⟩
      rw [List.take_succ_cons, List.foldlM_cons, hu]
      exact hv

theorem origin_snoc {events : List Event} {i p k : ℕ} {r : CondStmtBase} (e : Event)
    (h : Origin events i r p k) : Origin (events ++ [e]) i r p k := by
  obtain ⟨t, e', u, conds, v, cond, w, ht, he, hrest⟩ := h
  have hp : p < events.length := (List.getElem?_eq_some_iff.mp he).1
  refine ⟨t, e', u, conds, v, cond, w, ?_, ?_, hrest⟩
  · rw [List.take_append_of_le_length (by omega)]
    exact ht
  · rw [List.getElem?_append_left hp]
    exact he

theorem origin_exists (events : List Event) (t : Tracker)
    (h : replay handle (fun _ e => Compares e) newTracker events = some t) :
    ∀ i r, t.data.condList[i]? = some r → ∃ p k, Origin events i r p k := by
  refine replay_induction
    (P := fun events t => ∀ i r, t.data.condList[i]? = some r → ∃ p k, Origin events i r p k)
    ?_ ?_ events t h
  · intro i r hr
    simp [newTracker] at hr
  intro events s e t hs ih hc hn i r hr
  rw [handle_requests hc] at hn
  obtain ⟨⟨u, conds⟩, hreq, hn⟩ := Option.bind_eq_some_iff.mp hn
  obtain ⟨hsame, -, -⟩ := requests_cases hc hreq
  by_cases hi : i < s.data.condList.length
  · have hpre := save_all_extends hn
    rw [hsame.condList] at hpre
    rw [extends_get hpre hi] at hr
    obtain ⟨p, k, ho⟩ := ih i r hr
    exact ⟨p, k, origin_snoc e ho⟩
  · obtain ⟨k, v, cond, w, horigin⟩ :=
      save_all_origin hn (by rw [hsame.condList]; omega) hr
    refine ⟨events.length, k, s, e, u, conds, v, cond, w, ?_, by simp, hreq, horigin⟩
    rw [List.take_left]
    exact replay_mono (fun _ _ _ => trivial) events _ s hs

theorem order_low {k n order : ℕ} (ho : order = ((k <<< 16) % 2^32+n) % 2^32) (hn : n < 2^16) :
    order &&& 0xFFFF = n := by
  have hand : order &&& 0xFFFF = order % 2^16 := Nat.and_two_pow_sub_one_eq_mod order 16
  rw [Nat.shiftLeft_eq] at ho
  rw [hand]
  omega

/-- The first record that `save` appends is its only explore record. -/
theorem saved_explore {t t' : Tracker} {cond r record : CondStmtBase} {extra : List CondStmtBase}
    {i : ℕ} (hs : Saved t cond t' record extra) (hi : t.data.condList.length ≤ i)
    (hr : t'.data.condList[i]? = some r) (hexp : isExplore r = true) :
    savedOrder t cond ≤ MAX_COND_ORDER ∧ r = record := by
  rw [hs.condList, List.getElem?_append_right hi] at hr
  have hin := List.mem_of_getElem? hr
  split_ifs at hin with hcap
  · rcases List.mem_cons.mp hin with hin | hin
    · exact ⟨hcap, hin⟩
    · simp only [isExplore, hs.extraOp r hin] at hexp
      exact absurd hexp (by decide)
  · cases hin

theorem explore_ordered {c : CondStmtBase} (h : isExplore c = true) : isOrdered c = true := by
  rw [is_ordered_iff]
  have hop : c.op ≤ COND_MAX_EXPLORE_OP := by simpa [isExplore] using h
  unfold COND_MAX_EXPLORE_OP at hop
  unfold COND_AFL_OP
  omega

theorem origin_saved {events : List Event} {t : Tracker} {i p k : ℕ} {r : CondStmtBase}
    (h : replay handle (fun _ e => Compares e) newTracker events = some t)
    (ho : Origin events i r p k) : ∃ e key ordered v cond w, events[p]? = some e ∧
      siteKey e = some key ∧ orderKey cond = key ∧ isOrdered cond = ordered ∧
      cond.order = (k <<< 16) % 2^32 ∧ ¬ (cond.lb1 = 0 ∧ cond.lb2 = 0) ∧
      v.orderMap key = (counted key (events.take p)+moved ordered k) % 2^32 ∧
      save v cond = some w ∧ v.data.condList.length ≤ i ∧ w.data.condList[i]? = some r := by
  obtain ⟨s, e, u, conds, v, cond, w, hs, he, hreq, hv, hcond, hw, hi, hr⟩ := ho
  obtain ⟨s', hs', hc⟩ := replay_at h he
  obtain rfl : s' = s :=
    Option.some.inj ((replay_mono (fun _ _ _ => trivial) _ _ _ hs').symm.trans hs)
  obtain ⟨hsame, hnone, hcases⟩ := requests_cases hc hreq
  have hmem := List.mem_of_getElem? hcond
  cases hkey : siteKey e with
  | none =>
    rw [hnone hkey] at hmem
    cases hmem
  | some key =>
    obtain ⟨ordered, hcs, -⟩ := hcases key hkey
    have hk : k < conds.length := (List.getElem?_eq_some_iff.mp hcond).1
    have hmap : u.orderMap key = counted key (events.take p) % 2^32 := by
      rw [hsame.orderMap]
      exact run_order _ _ key hs'
    exact ⟨e, key, ordered, v, cond, w, he, hkey, hcs.key cond hmem, hcs.ordered cond hmem,
      hcs.order k cond hcond, hcs.tainted cond hmem, cases_moved hcs hmap k (by omega) v hv, hw, hi,
      hr⟩

theorem origin_number {events : List Event} {t : Tracker} {i p k : ℕ} {r : CondStmtBase}
    (h : replay handle (fun _ e => Compares e) newTracker events = some t)
    (hexp : isExplore r = true) (ho : Origin events i r p k) :
    (∃ e, events[p]? = some e ∧ siteKey e = some (orderKey r)) ∧
    r.order &&& 0xFFFF = number events (orderKey r) p k % 2^32 ∧
    number events (orderKey r) p k % 2^32 ≤ MAX_COND_ORDER := by
  obtain ⟨e, key, ordered, v, cond, w, he, hsite, hkey, hord, horder, hl, hv, hw, hi, hr⟩ :=
    origin_saved h ho
  obtain ⟨record, extra, hs⟩ := save_spec hl hw
  obtain ⟨hcap, rfl⟩ := saved_explore hs hi hr hexp
  have hrkey : orderKey r = key := by
    rw [orderKey, hs.cmpid, hs.context]
    exact hkey
  have hcond : isOrdered cond = true := by
    rw [is_ordered_iff, ← hs.op, ← is_ordered_iff]
    exact explore_ordered hexp
  obtain rfl : true = ordered := hcond.symm.trans hord
  have hnext : nextOrder v cond = number events key p k % 2^32 :=
    next_number (by rw [hkey]; exact hv) horder
  rw [savedOrder, if_pos hcond, hnext] at hcap
  rw [hrkey]
  refine ⟨⟨e, he, hsite⟩, ?_, hcap⟩
  have hro := hs.order hcond
  rw [horder, hnext] at hro
  unfold MAX_COND_ORDER at hcap
  exact order_low hro (by omega)

/-- Every explore record has an event it was logged from, and a replay with the
record as its condition measures that event, and no other, exactly when the two
builds number it alike. -/
theorem replay_matches_iff (events : List Event) (t : Tracker)
    (h : replay handle (fun _ e => Compares e) newTracker events = some t)
    (i : ℕ) (r : CondStmtBase) (hr : t.data.condList[i]? = some r) (hexp : isExplore r = true) :
    (∃ p k, Origin events i r p k) ∧ ∀ p k, Origin events i r p k →
      ((∀ q, Matches events r q ↔ q = p) ↔ Numbered events r p k) := by
  refine ⟨origin_exists events t h i r hr, ?_⟩
  intro p k horigin
  obtain ⟨⟨e, he, hkey⟩, hnum, hcap⟩ := origin_number h hexp horigin
  have hlow : r.order &&& 0xFFFF < 0x8000 := by
    rw [hnum]
    unfold MAX_COND_ORDER at hcap
    omega
  rw [matches_only_iff he hkey hlow, hnum]
  exact Iff.rfl

def loopCmp (lb : ℕ) : Event := .cmp ⟨7, 3, 0, 4, COND_ICMP_EQ_OP, 1, 2, 0, lb, 0⟩

def loopRecord (order : ℕ) : CondStmtBase :=
  ⟨7, 3, 0, order, 0, 0, 0, COND_ICMP_EQ_OP, 4, 1, 0, 1, 2⟩

theorem replay_matches_iff_loop : ∃ t,
    replay handle (fun _ e => Compares e) newTracker
      [.label (.insert 0), loopCmp 1, loopCmp 1] = some t ∧
    t.data.condList[1]? = some (loopRecord 2) ∧
    ∀ p k, Origin [.label (.insert 0), loopCmp 1, loopCmp 1] 1 (loopRecord 2) p k →
      ((∀ q, Matches [.label (.insert 0), loopCmp 1, loopCmp 1] (loopRecord 2) q ↔ q = p) ↔
        Numbered [.label (.insert 0), loopCmp 1, loopCmp 1] (loopRecord 2) p k) := by
  have hlog : (replay handle (fun _ e => Compares e) newTracker
      [.label (.insert 0), loopCmp 1, loopCmp 1]).map (fun t => t.data.condList) =
        some [loopRecord 1, loopRecord 2] := by decide +kernel
  obtain ⟨t, ht, hlist⟩ := Option.map_eq_some_iff.mp hlog
  have hr : t.data.condList[1]? = some (loopRecord 2) := by rw [hlist]; rfl
  exact ⟨t, ht, hr, (replay_matches_iff _ t ht 1 (loopRecord 2) hr (by decide)).2⟩

/-- The first comparison of a loop is not tainted and the second one is: the
tracker logs the second as number one, and the replay measures the first. -/
theorem untainted_shifts_numbers : ∃ t p k,
    replay handle (fun _ e => Compares e) newTracker
      [.label (.insert 0), loopCmp 0, loopCmp 1] = some t ∧
    t.data.condList[0]? = some (loopRecord 1) ∧ isExplore (loopRecord 1) = true ∧
    Origin [.label (.insert 0), loopCmp 0, loopCmp 1] 0 (loopRecord 1) p k ∧
    Matches [.label (.insert 0), loopCmp 0, loopCmp 1] (loopRecord 1) 1 ∧
    ¬ ∀ q, Matches [.label (.insert 0), loopCmp 0, loopCmp 1] (loopRecord 1) q ↔ q = p := by
  have hlog : (replay handle (fun _ e => Compares e) newTracker
      [.label (.insert 0), loopCmp 0, loopCmp 1]).map (fun t => t.data.condList) =
        some [loopRecord 1] := by decide +kernel
  obtain ⟨t, ht, hlist⟩ := Option.map_eq_some_iff.mp hlog
  have hr : t.data.condList[0]? = some (loopRecord 1) := by rw [hlist]; rfl
  obtain ⟨p, k, horigin⟩ := origin_exists _ t ht 0 (loopRecord 1) hr
  have hmatch : Matches [.label (.insert 0), loopCmp 0, loopCmp 1] (loopRecord 1) 1 := by
    unfold Matches
    decide
  refine ⟨t, p, k, ht, hr, by decide, horigin, hmatch, ?_⟩
  intro hall
  obtain rfl := (hall 1).mp hmatch
  obtain ⟨s, e, u, conds, v, cond, w, -, he, hreq, -, hcond, -⟩ := horigin
  obtain rfl : loopCmp 0 = e := Option.some.inj he
  obtain ⟨-, rfl⟩ : s = u ∧ [] = conds := Prod.mk.inj (Option.some.inj hreq)
  cases hcond

end Parmesan.TrackReplay
