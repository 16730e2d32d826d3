import Parmesan.TrackReplay

/-!
# The keys of the logged records

A record is identified by its site, context and order. The order packs the
number of the comparison at its site, the case of a switch in the upper half,
and `0x10000` for the record of a length.
-/

set_option autoImplicit false

namespace Parmesan.TrackKeys
open Parmesan.CondModel Parmesan.Execution Parmesan.TrackModel Parmesan.TrackReplay

/-- What `PartialEq` of `CondStmtBase` looks at. -/
def recordKey (r : CondStmtBase) : ℕ × ℕ × ℕ := (r.cmpid, r.context, r.order)

theorem record_key_eq {r r' : CondStmtBase} (h : recordKey r = recordKey r') :
    orderKey r = orderKey r' ∧ r.order = r'.order := by
  obtain ⟨h1, h2⟩ := Prod.mk.inj h
  obtain ⟨h2, h3⟩ := Prod.mk.inj h2
  exact ⟨Prod.ext h1 h2, h3⟩

/-- Keys are distinct, the low half of an order never exceeds the counter of its
site, and it is zero only next to a record without a number. -/
structure Inv (t : Tracker) : Prop where
  nodup : (t.data.condList.map recordKey).Nodup
  counted : ∀ r ∈ t.data.condList, r.order % 65536 ≤ t.orderMap (orderKey r)
  plain : ∀ r ∈ t.data.condList, r.order % 65536 = 0 →
    ∃ r' ∈ t.data.condList, orderKey r' = orderKey r ∧ r'.order = 0

theorem new_tracker_inv : Inv newTracker := by
  constructor <;> simp [newTracker]

variable {t t' : Tracker} {cond : CondStmtBase}

theorem inv_same (hi : Inv t) (hlist : t'.data.condList = t.data.condList)
    (hmap : ∀ key, t.orderMap key ≤ t'.orderMap key) : Inv t' where
  nodup := by rw [hlist]; exact hi.nodup
  counted := by
    intro r hr
    rw [hlist] at hr
    exact (hi.counted r hr).trans (hmap _)
  plain := by
    rw [hlist]
    exact hi.plain

theorem inv_append (hi : Inv t) {new : List CondStmtBase}
    (hlist : t'.data.condList = t.data.condList ++ new)
    (hmap : ∀ key, t.orderMap key ≤ t'.orderMap key) (hnew : (new.map recordKey).Nodup)
    (hfresh : ∀ r ∈ new, ∀ r' ∈ t.data.condList, recordKey r ≠ recordKey r')
    (hcounted : ∀ r ∈ new, r.order % 65536 ≤ t'.orderMap (orderKey r))
    (hplain : ∀ r ∈ new, r.order % 65536 = 0 →
      ∃ r' ∈ new, orderKey r' = orderKey r ∧ r'.order = 0) : Inv t' where
  nodup := by
    rw [hlist, List.map_append, List.nodup_append]
    refine ⟨hi.nodup, hnew, ?_⟩
    intro k hk k' hk'
    obtain ⟨r', hr', rfl⟩ := List.mem_map.mp hk
    obtain ⟨r, hr, rfl⟩ := List.mem_map.mp hk'
    exact fun heq => hfresh r hr r' hr' heq.symm
  counted := by
    intro r hr
    rw [hlist] at hr
    rcases List.mem_append.mp hr with hr | hr
    · exact (hi.counted r hr).trans (hmap _)
    · exact hcounted r hr
  plain := by
    intro r hr h0
    rw [hlist] at hr ⊢
    rcases List.mem_append.mp hr with hr | hr
    · obtain ⟨r', hr', heq⟩ := hi.plain r hr h0
      exact ⟨r', List.mem_append_left _ hr', heq⟩
    · obtain ⟨r', hr', heq⟩ := hplain r hr h0
      exact ⟨r', List.mem_append_right _ hr', heq⟩

/-- The records of a site under its current number have an upper half below `h`. -/
def UpTo (t : Tracker) (key : ℕ × ℕ) (h : ℕ) : Prop :=
  ∀ r ∈ t.data.condList, orderKey r = key → r.order % 65536 = t.orderMap key → r.order / 65536 < h

theorem up_to_append {old added : List CondStmtBase} {key : ℕ × ℕ} {h : ℕ}
    (hlist : t.data.condList = old ++ added)
    (hold : ∀ r ∈ old, orderKey r = key → r.order % 65536 = t.orderMap key → r.order / 65536 < h)
    (hadded : ∀ r ∈ added, r.order / 65536 < h) : UpTo t key h := by
  intro r hr hk hnum
  rw [hlist] at hr
  rcases List.mem_append.mp hr with hr | hr
  · exact hold r hr hk hnum
  · exact hadded r hr

theorem extra_keys_nodup {record : CondStmtBase} {extra : List CondStmtBase}
    (hsingle : extra.length ≤ 1) (hne : ∀ r ∈ extra, r.order ≠ record.order) :
    ((record :: extra).map recordKey).Nodup := by
  match extra, hsingle, hne with
  | [], _, _ => simp
  | [c], _, hne =>
    simp only [List.map_cons, List.map_nil, List.nodup_cons, List.mem_singleton,
      List.not_mem_nil, not_false_eq_true, List.nodup_nil, and_true]
    intro heq
    exact hne c List.mem_cons_self (record_key_eq heq).2.symm

theorem saved_record_key {record : CondStmtBase} {extra : List CondStmtBase}
    (hs : Saved t cond t' record extra) : orderKey record = orderKey cond := by
  rw [orderKey, hs.cmpid, hs.context]
  rfl

theorem saved_map {record : CondStmtBase} {extra : List CondStmtBase}
    (hs : Saved t cond t' record extra)
    (hle : isOrdered cond → t.orderMap (orderKey cond) ≤ nextOrder t cond) (key : ℕ × ℕ) :
    t.orderMap key ≤ t'.orderMap key := by
  rw [hs.orderMap]
  split_ifs with ho
  · by_cases hk : key = orderKey cond
    · subst hk
      rw [Function.update_self]
      exact hle ho
    · rw [Function.update_of_ne hk]
  · exact Nat.le_refl _

theorem save_numbered (hi : Inv t) (ho : isOrdered cond = true) (hzero : cond.order = 0)
    (hl : ¬ (cond.lb1 = 0 ∧ cond.lb2 = 0)) (hwrap : t.orderMap (orderKey cond)+1 < 2^32)
    (h : save t cond = some t') : Inv t' ∧
      t'.orderMap (orderKey cond) = t.orderMap (orderKey cond)+1 ∧
      (isLenLabel cond.lb1 = false ∧ isLenLabel cond.lb2 = false ∨
        MAX_COND_ORDER < t.orderMap (orderKey cond)+1 → UpTo t' (orderKey cond) 1) := by
  obtain ⟨record, extra, hs, hx⟩ := save_full hl h
  have hnext : nextOrder t cond = t.orderMap (orderKey cond)+1 := by
    rw [nextOrder, if_pos hzero]
    exact Nat.mod_eq_of_lt hwrap
  have hsaved : savedOrder t cond = t.orderMap (orderKey cond)+1 := by
    rw [savedOrder, if_pos ho, hnext]
  have hmap : t'.orderMap (orderKey cond) = t.orderMap (orderKey cond)+1 := by
    rw [hs.orderMap, if_pos ho, Function.update_self, hnext]
  have hgrow := saved_map hs fun _ => by rw [hnext]; omega
  have hold : ∀ r ∈ t.data.condList, orderKey r = orderKey cond →
      r.order % 65536 < t.orderMap (orderKey cond)+1 := by
    intro r hr hk
    have := hi.counted r hr
    rw [hk] at this
    omega
  have hlist := hs.condList
  rw [hsaved] at hlist
  by_cases hcap : t.orderMap (orderKey cond)+1 ≤ MAX_COND_ORDER
  · have hrecord : record.order = t.orderMap (orderKey cond)+1 := by
      rw [hs.order ho, hzero, hnext, Nat.zero_add]
      exact Nat.mod_eq_of_lt hwrap
    have hkey := saved_record_key hs
    have hextra : ∀ r ∈ extra, r.order = 0x10000+(t.orderMap (orderKey cond)+1) := by
      intro r hr
      rw [hx.order r hr, hsaved]
    have hlow : ∀ r ∈ record :: extra, orderKey r = orderKey cond ∧
        r.order % 65536 = t.orderMap (orderKey cond)+1 := by
      intro r hr
      simp only [MAX_COND_ORDER] at hcap
      rcases List.mem_cons.mp hr with rfl | hr
      · exact ⟨hkey, by omega⟩
      · exact ⟨hx.key r hr, by have := hextra r hr; omega⟩
    rw [if_pos hcap] at hlist
    refine ⟨?_, hmap, ?_⟩
    · apply inv_append hi hlist hgrow
      · apply extra_keys_nodup hx.single
        intro r hr
        rw [hextra r hr, hrecord]
        omega
      · intro r hr r' hr' heq
        obtain ⟨hk, horder⟩ := record_key_eq heq
        have h1 := hlow r hr
        have h2 := hold r' hr' (hk.symm.trans h1.1)
        omega
      · intro r hr
        have h1 := hlow r hr
        rw [h1.1, hmap]
        omega
      · intro r hr h0
        have h1 := hlow r hr
        omega
    · intro hno
      have hnil : extra = [] := hs.noExtra (hno.resolve_right (by omega)).1
        (hno.resolve_right (by omega)).2
      rw [hnil] at hlist
      apply up_to_append hlist
      · intro r hr hk hnum
        rw [hmap] at hnum
        have := hold r hr hk
        omega
      · intro r hr
        obtain rfl := List.mem_singleton.mp hr
        simp only [MAX_COND_ORDER] at hcap
        omega
  · rw [if_neg hcap, List.append_nil] at hlist
    refine ⟨inv_same hi hlist hgrow, hmap, ?_⟩
    intro _ r hr hk hnum
    rw [hlist] at hr
    rw [hmap] at hnum
    have := hold r hr hk
    omega

/-- A further case of a switch, under the number of the case before. -/
theorem save_case (hi : Inv t) (ho : isOrdered cond = true) {i : ℕ}
    (horder : cond.order = (i <<< 16) % 2^32) (hne : i % 65536 ≠ 0)
    (hl : ¬ (cond.lb1 = 0 ∧ cond.lb2 = 0))
    (hno : isLenLabel cond.lb1 = false ∧ isLenLabel cond.lb2 = false ∨
      MAX_COND_ORDER < t.orderMap (orderKey cond))
    (hpos : 0 < t.orderMap (orderKey cond)) (hup : UpTo t (orderKey cond) (i % 65536))
    (h : save t cond = some t') : Inv t' ∧
      t'.orderMap (orderKey cond) = t.orderMap (orderKey cond) ∧
      UpTo t' (orderKey cond) (i % 65536+1) := by
  obtain ⟨record, extra, hs, hx⟩ := save_full hl h
  have hupper : cond.order = (i % 65536)*65536 := by
    rw [horder, Nat.shiftLeft_eq]
    omega
  have hnext : nextOrder t cond = t.orderMap (orderKey cond) := by
    rw [nextOrder, if_neg (by omega)]
  have hsaved : savedOrder t cond = t.orderMap (orderKey cond) := by
    rw [savedOrder, if_pos ho, hnext]
  have hmap : t'.orderMap (orderKey cond) = t.orderMap (orderKey cond) := by
    rw [hs.orderMap, if_pos ho, Function.update_self, hnext]
  have hgrow := saved_map hs fun _ => by rw [hnext]
  have hlist := hs.condList
  rw [hsaved] at hlist
  by_cases hcap : t.orderMap (orderKey cond) ≤ MAX_COND_ORDER
  · have hnil : extra = [] := hs.noExtra (hno.resolve_right (by omega)).1
      (hno.resolve_right (by omega)).2
    have hkey := saved_record_key hs
    have hrecord : record.order = (i % 65536)*65536+t.orderMap (orderKey cond) := by
      rw [hs.order ho, hupper, hnext]
      simp only [MAX_COND_ORDER] at hcap
      omega
    rw [if_pos hcap, hnil] at hlist
    simp only [MAX_COND_ORDER] at hcap
    refine ⟨?_, hmap, ?_⟩
    · apply inv_append hi hlist hgrow
      · simp
      · intro r hr r' hr' heq
        obtain rfl := List.mem_singleton.mp hr
        obtain ⟨hk, heq⟩ := record_key_eq heq
        have := hup r' hr' (hk.symm.trans hkey) (by omega)
        omega
      · intro r hr
        obtain rfl := List.mem_singleton.mp hr
        rw [hkey, hmap]
        omega
      · intro r hr h0
        obtain rfl := List.mem_singleton.mp hr
        omega
    · apply up_to_append hlist
      · intro r hr hk hnum
        rw [hmap] at hnum
        have := hup r hr hk hnum
        omega
      · intro r hr
        obtain rfl := List.mem_singleton.mp hr
        omega
  · rw [if_neg hcap, List.append_nil] at hlist
    refine ⟨inv_same hi hlist hgrow, hmap, ?_⟩
    intro r hr hk hnum
    rw [hlist] at hr
    rw [hmap] at hnum
    have := hup r hr hk hnum
    omega

theorem save_unordered (hi : Inv t) (ho : isOrdered cond = false) (hzero : cond.order = 0)
    (hl : ¬ (cond.lb1 = 0 ∧ cond.lb2 = 0))
    (hfirst : ∀ r ∈ t.data.condList, orderKey r = orderKey cond → r.order ≠ 0)
    (h : save t cond = some t') : Inv t' := by
  obtain ⟨record, extra, hs, hx⟩ := save_full hl h
  have hsaved : savedOrder t cond = 0 := by rw [savedOrder, ho, if_neg (by decide)]
  have hgrow := saved_map hs fun hf => absurd (ho.symm.trans hf) (by decide)
  have hrecord : record.order = 0 := (hx.unordered ho).trans hzero
  have hkey := saved_record_key hs
  have hlow : ∀ r ∈ record :: extra, orderKey r = orderKey cond ∧ r.order % 65536 = 0 := by
    intro r hr
    rcases List.mem_cons.mp hr with rfl | hr
    · exact ⟨hkey, by omega⟩
    · have := hx.order r hr
      exact ⟨hx.key r hr, by omega⟩
  have hlist := hs.condList
  rw [hsaved, if_pos (by decide)] at hlist
  apply inv_append hi hlist hgrow
  · apply extra_keys_nodup hx.single
    intro r hr
    rw [hx.order r hr, hrecord]
    omega
  · intro r hr r' hr' heq
    obtain ⟨hk, horder⟩ := record_key_eq heq
    obtain ⟨hk1, hlow1⟩ := hlow r hr
    obtain ⟨r0, hr0, hk0, h0⟩ := hi.plain r' hr' (by omega)
    exact hfirst r0 hr0 (hk0.trans (hk.symm.trans hk1)) h0
  · intro r hr
    rw [(hlow r hr).2]
    exact Nat.zero_le _
  · intro r hr _
    exact ⟨record, List.mem_cons_self, hkey.trans (hlow r hr).1.symm, hrecord⟩

def SaveOk (t : Tracker) (key : ℕ × ℕ) (op : ℕ) : Prop :=
  if op < COND_AFL_OP ∨ op = COND_FN_OP then t.orderMap key+1 < 2^32
  else ∀ r ∈ t.data.condList, orderKey r = key → r.order ≠ 0

theorem save_inv (hi : Inv t) (hzero : cond.order = 0) (hok : SaveOk t (orderKey cond) cond.op)
    (h : save t cond = some t') : Inv t' := by
  by_cases hl : cond.lb1 = 0 ∧ cond.lb2 = 0
  · rw [save, if_pos hl] at h
    rw [← Option.some.inj h]
    exact hi
  · cases ho : isOrdered cond with
    | true =>
      rw [SaveOk, if_pos ((is_ordered_iff cond).mp ho)] at hok
      exact (save_numbered hi ho hzero hl hok h).1
    | false =>
      rw [SaveOk, if_neg fun h => absurd ((is_ordered_iff cond).mpr h) (by simp [ho])] at hok
      exact save_unordered hi ho hzero hl hok h

theorem same_log_inv (hs : SameLog t t') (hi : Inv t) : Inv t' :=
  inv_same hi hs.condList fun key => by rw [hs.orderMap]

theorem same_log_ok {key : ℕ × ℕ} {op : ℕ} (hs : SameLog t t') (h : SaveOk t key op) :
    SaveOk t' key op := by
  rw [SaveOk, hs.orderMap, hs.condList]
  exact h

/-- The step appends no record under a key that the log has. A switch on a
length must have a single case, or be beyond the cap. -/
def Distinct (t : Tracker) : Event → Prop
  | .cmp c => c.lb1 = 0 ∧ c.lb2 = 0 ∨ SaveOk t (c.cmpid, c.context) c.op
  | .switch c => c.lb = 0 ∨
      t.orderMap (c.cmpid, c.context)+(c.args.length+65535)/65536 < 2^32 ∧
        (isLenLabel c.lb = true → 2 ≤ c.args.length →
          MAX_COND_ORDER < t.orderMap (c.cmpid, c.context)+1)
  | .fn c => c.lb1 = 0 ∧ c.lb2 = 0 ∨ t.orderMap (c.cmpid, c.context)+1 < 2^32
  | .exploit c => c.lb = 0 ∨ isLenLabel c.lb = true ∨ SaveOk t (c.cmpid, c.context) c.op
  | .label _ => True
  | .lenLabel _ _ => True

section Switch
variable {u v : Tracker} {c : SwitchCall} {op : ℕ}

theorem switch_case_ordered (c : SwitchCall) (s : TagSetModel.TagSet) (i arg : ℕ) :
    isOrdered (switchCase c (switchOp s c.lb) i arg) = true := by
  rw [is_ordered_iff]
  simp only [switchCase, switchOp]
  split_ifs <;> decide

structure Progress (u v : Tracker) (c : SwitchCall) (k : ℕ) : Prop where
  inv : Inv v
  number : v.orderMap (c.cmpid, c.context) = u.orderMap (c.cmpid, c.context)+moved true k
  upTo : 0 < k → k < c.args.length → UpTo v (c.cmpid, c.context) ((k-1) % 65536+1)

theorem switch_progress (hi : Inv u) (hord : ∀ i arg, isOrdered (switchCase c op i arg) = true)
    (hl : c.lb ≠ 0)
    (hwrap : u.orderMap (c.cmpid, c.context)+(c.args.length+65535)/65536 < 2^32)
    (hlen : isLenLabel c.lb = true → 2 ≤ c.args.length →
      MAX_COND_ORDER < u.orderMap (c.cmpid, c.context)+1) (k : ℕ) (hk : k ≤ c.args.length)
    (v : Tracker) (h : ((c.args.mapIdx (switchCase c op)).take k).foldlM save u = some v) :
    Progress u v c k := by
  induction k generalizing v with
  | zero =>
    obtain rfl := Option.some.inj h
    exact ⟨hi, rfl, fun h => absurd h (Nat.lt_irrefl 0)⟩
  | succ k ih =>
    have hget : (c.args.mapIdx (switchCase c op))[k]? = some (switchCase c op k c.args[k]) := by
      rw [List.getElem?_mapIdx, List.getElem?_eq_getElem hk]
      rfl
    rw [List.take_add_one, hget, List.foldlM_append] at h
    obtain ⟨w, hw, h⟩ := Option.bind_eq_some_iff.mp h
    replace h : save w (switchCase c op k c.args[k]) = some v := by simpa using h
    have hp := ih (by omega) w hw
    have htaint : ¬ ((switchCase c op k c.args[k]).lb1 = 0 ∧ (switchCase c op k c.args[k]).lb2 = 0) :=
      fun h0 => hl h0.1
    have hkey : orderKey (switchCase c op k c.args[k]) = (c.cmpid, c.context) := rfl
    have horder : (switchCase c op k c.args[k]).order = (k <<< 16) % 2^32 := rfl
    have hnum := hp.number
    simp only [moved, if_true] at hnum
    have hno : 2 ≤ c.args.length → isLenLabel c.lb = false ∧ isLenLabel 0 = false ∨
        MAX_COND_ORDER < u.orderMap (c.cmpid, c.context)+1 := by
      intro h2
      cases hcl : isLenLabel c.lb with
      | true => exact Or.inr (hlen hcl h2)
      | false => exact Or.inl ⟨rfl, by decide⟩
    by_cases hblock : k % 65536 = 0
    · have hzero : (switchCase c op k c.args[k]).order = 0 := by
        rw [horder, Nat.shiftLeft_eq]
        omega
      obtain ⟨hinv, hmap, hup⟩ := save_numbered hp.inv (hord _ _) hzero htaint
        (by rw [hkey, hnum]; omega) h
      rw [hkey] at hmap hup
      refine ⟨hinv, ?_, ?_⟩
      · rw [hmap, hnum]
        simp only [moved, if_true]
        omega
      · intro _ hlt
        have hk0 : (k+1-1) % 65536+1 = 1 := by omega
        rw [hk0]
        apply hup
        rcases hno (by omega) with h0 | h0
        · exact Or.inl h0
        · exact Or.inr (by omega)
    · have hup := hp.upTo (by omega) (by omega)
      have hup' : (k-1) % 65536+1 = k % 65536 := by omega
      rw [hup', ← hkey] at hup
      have hno' := hno (by omega)
      obtain ⟨hinv, hmap, hup⟩ := save_case hp.inv (hord _ _) horder hblock htaint
        (hno'.imp id fun h0 => by rw [hkey, hnum]; omega) (by rw [hkey, hnum]; omega) hup h
      rw [hkey] at hmap hup
      refine ⟨hinv, ?_, ?_⟩
      · rw [hmap, hnum]
        simp only [moved, if_true]
        omega
      · intro _ _
        exact hup

theorem trace_switch_inv (hi : Inv t) (hd : Distinct t (.switch c)) (h : traceSwitch t c = some t') :
    Inv t' := by
  rw [traceSwitch] at h
  split_ifs at h with hl
  · rw [← Option.some.inj h]
    exact hi
  · obtain ⟨u, hu, h⟩ := Option.bind_eq_some_iff.mp h
    have hsame := infer_shape_same hu
    obtain ⟨hwrap, hlen⟩ := hd.resolve_left hl
    rw [← hsame.orderMap] at hwrap hlen
    have hlength := List.length_mapIdx (f := switchCase c (switchOp u.tagSet c.lb)) (l := c.args)
    rw [← List.take_length (l := c.args.mapIdx _), hlength] at h
    exact (switch_progress (same_log_inv hsame hi) (switch_case_ordered c u.tagSet) hl hwrap hlen
      c.args.length (Nat.le_refl _) t' h).inv

end Switch

theorem trace_cmp_inv {c : CmpCall} (hi : Inv t) (hd : Distinct t (.cmp c))
    (h : traceCmp t c = some t') : Inv t' := by
  rw [traceCmp] at h
  split_ifs at h with hl
  · rw [← Option.some.inj h]
    exact hi
  · obtain ⟨u, hu, h⟩ := Option.bind_eq_some_iff.mp h
    obtain ⟨v, hv, h⟩ := Option.bind_eq_some_iff.mp h
    have hsame := same_log_trans (infer_shape_same hu) (infer_shape_same hv)
    have hok := same_log_ok hsame (hd.resolve_left hl)
    refine save_inv (same_log_inv hsame hi) rfl ?_ h
    simp only [SaveOk, infer_eq_sign_ordered]
    exact hok

theorem trace_fn_inv {c : FnCall} (hi : Inv t) (hd : Distinct t (.fn c))
    (h : traceFn t c = some t') : Inv t' := by
  rw [traceFn] at h
  split_ifs at h with hl
  · rw [← Option.some.inj h]
    exact hi
  · obtain ⟨u, hu, h⟩ := Option.bind_eq_some_iff.mp h
    obtain rfl := Option.some.inj h
    have hop : (fnCond c).op < COND_AFL_OP ∨ (fnCond c).op = COND_FN_OP := Or.inr rfl
    have hok : SaveOk t (orderKey (fnCond c)) (fnCond c).op := by
      rw [SaveOk, if_pos hop]
      exact hd.resolve_left hl
    have hu' := save_inv hi rfl hok hu
    unfold saveMagicBytes
    split_ifs
    · exact inv_same hu' rfl fun _ => Nat.le_refl _
    · exact hu'

theorem trace_exploit_inv {c : ExploitCall} (hi : Inv t) (hd : Distinct t (.exploit c))
    (h : traceExploitVal t c = some t') : Inv t' := by
  rw [traceExploitVal] at h
  split_ifs at h with hl
  · rw [← Option.some.inj h]
    exact hi
  · rw [not_or] at hl
    refine save_inv hi rfl ?_ h
    exact (hd.resolve_left hl.2).resolve_left hl.1

theorem handle_inv (t : Tracker) (e : Event) (t' : Tracker) (hi : Inv t) (hd : Distinct t e)
    (h : handle t e = some t') : Inv t' := by
  cases e with
  | cmp c => exact trace_cmp_inv hi hd h
  | switch c => exact trace_switch_inv hi hd h
  | fn c => exact trace_fn_inv hi hd h
  | exploit c => exact trace_exploit_inv hi hd h
  | label op => exact same_log_inv (label_step_same h) hi
  | lenLabel offset size =>
    rw [← Option.some.inj h]
    exact same_log_inv (new_len_label_same t offset size) hi

/-- In a run whose calls are all distinct, no two records have the same key. -/
theorem distinct_run_keys (h : Reachable handle Distinct newTracker t) :
    (t.data.condList.map recordKey).Nodup :=
  (reachable_invariant new_tracker_inv handle_inv h).nodup

instance (t : Tracker) (key : ℕ × ℕ) (op : ℕ) : Decidable (SaveOk t key op) :=
  inferInstanceAs (Decidable (if op < COND_AFL_OP ∨ op = COND_FN_OP then _ < _
    else ∀ r ∈ t.data.condList, orderKey r = key → r.order ≠ 0))

instance (t : Tracker) : (e : Event) → Decidable (Distinct t e)
  | .cmp _ => inferInstanceAs (Decidable (_ ∨ _))
  | .switch _ => inferInstanceAs (Decidable (_ ∨ _))
  | .fn _ => inferInstanceAs (Decidable (_ ∨ _))
  | .exploit _ => inferInstanceAs (Decidable (_ ∨ _))
  | .label _ => inferInstanceAs (Decidable True)
  | .lenLabel _ _ => inferInstanceAs (Decidable True)

def switchOn (lb : ℕ) (args : List ℕ) : Event := .switch ⟨7, 3, 0, 4, 1, args, lb⟩

theorem distinct_run_keys_switch : ∃ t,
    replay handle Distinct newTracker
      [.label (.insert 0), .lenLabel 0 4, loopCmp (2^22), switchOn 1 [1, 2]] = some t ∧
    t.data.condList.map recordKey = [(7, 3, 1), (7, 3, 65537), (7, 3, 2), (7, 3, 65538)] ∧
    (t.data.condList.map recordKey).Nodup := by
  have hlog : (replay handle Distinct newTracker
      [.label (.insert 0), .lenLabel 0 4, loopCmp (2^22), switchOn 1 [1, 2]]).map
        (fun t => t.data.condList.map recordKey) =
      some [(7, 3, 1), (7, 3, 65537), (7, 3, 2), (7, 3, 65538)] := by decide +kernel
  obtain ⟨t, ht, hlist⟩ := Option.map_eq_some_iff.mp hlog
  exact ⟨t, ht, hlist, distinct_run_keys (replay_reachable _ _ t ht)⟩

/-- A switch with two cases on a length: the second case, and the length record
of either case, have the same key. -/
theorem length_switch_repeats_key : ∃ t,
    run [.lenLabel 0 4, switchOn (2^22) [1, 2]] = some t ∧
    t.data.condList.map recordKey = [(7, 3, 1), (7, 3, 65537), (7, 3, 65537), (7, 3, 65537)] ∧
    t.data.condList.map (fun r => r.op) = [COND_SW_OP, COND_LEN_OP, COND_SW_OP, COND_LEN_OP] ∧
    ¬ (t.data.condList.map recordKey).Nodup := by
  have hlog : (run [.lenLabel 0 4, switchOn (2^22) [1, 2]]).map
      (fun t => (t.data.condList.map recordKey, t.data.condList.map fun r => r.op)) =
      some ([(7, 3, 1), (7, 3, 65537), (7, 3, 65537), (7, 3, 65537)],
        [COND_SW_OP, COND_LEN_OP, COND_SW_OP, COND_LEN_OP]) := by decide +kernel
  obtain ⟨t, ht, heq⟩ := Option.map_eq_some_iff.mp hlog
  obtain ⟨hkeys, hops⟩ := Prod.mk.inj heq
  refine ⟨t, ht, hkeys, hops, ?_⟩
  rw [hkeys]
  decide

end Parmesan.TrackKeys
