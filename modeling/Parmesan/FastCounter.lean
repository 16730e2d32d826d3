import Parmesan.TrackModel

/-!
# The counter of the fast runtime

`runtime_fast/src/shm_conds.rs` and `fast.rs`: the executions of one comparison
are counted until the counter is the order of the condition in shared memory.
The instrumented code calls the runtime only where `__angora_cond_cmpid` is its
own id.
-/

set_option autoImplicit false

namespace Parmesan.FastCounter
open Parmesan.CondModel Parmesan.TrackModel

/-- `condCmpid` is the global `__angora_cond_cmpid`. -/
structure ShmConds where
  cond : CondStmtBase
  rtOrder : ℕ
  condCmpid : ℕ
  deriving DecidableEq, Repr

def reset (cond : CondStmtBase) : ShmConds := ⟨cond, 0, cond.cmpid⟩

def checkMatch (s : ShmConds) (cmpid context : ℕ) : ShmConds × Bool :=
  if s.cond.cmpid = cmpid ∧ s.cond.context = context then
    ({ s with rtOrder := (s.rtOrder+1) % 2^32 },
      s.cond.order &&& 0xFFFF = (s.rtOrder+1) % 2^32)
  else (s, false)

def updateCmp (s : ShmConds) (condition arg1 arg2 : ℕ) : ShmConds where
  cond := { s.cond with arg1 := arg1, arg2 := arg2, lb1 := condition }
  rtOrder := 0x8000
  condCmpid := 0

def updateSwitch (s : ShmConds) (condition : ℕ) : ShmConds where
  cond := { s.cond with arg1 := condition, lb1 := if condition = s.cond.arg2 then 1 else 0 }
  rtOrder := 0x8000
  condCmpid := 0

/-- The state after the call, and what `check_match` returned in it. -/
def fastCmp (s : ShmConds) (c : CmpCall) : ShmConds × Bool :=
  let m := checkMatch s c.cmpid c.context
  (if m.2 then updateCmp m.1 c.condition c.arg1 c.arg2 else m.1, m.2)

def fastSwitch (s : ShmConds) (c : SwitchCall) : ShmConds × Bool :=
  let m := checkMatch s c.cmpid c.context
  (if m.2 then updateSwitch m.1 c.condition else m.1, m.2)

def fastStep (s : ShmConds) : Event → ShmConds × Bool
  | .cmp c => if c.cmpid = s.condCmpid then fastCmp s c else (s, false)
  | .switch c => if c.cmpid = s.condCmpid then fastSwitch s c else (s, false)
  | _ => (s, false)

def fastRun : ShmConds → List Event → ShmConds
  | s, [] => s
  | s, e::es => fastRun (fastStep s e).1 es

def flags : ShmConds → List Event → List Bool
  | _, [] => []
  | s, e::es => (fastStep s e).2 :: flags (fastStep s e).1 es

/-- `check_match` returns true on event `q` when record `r` is the condition. -/
def Matches (events : List Event) (r : CondStmtBase) (q : ℕ) : Prop :=
  (flags (reset r) events)[q]? = some true

def siteKey : Event → Option (ℕ × ℕ)
  | .cmp c => some (c.cmpid, c.context)
  | .switch c => some (c.cmpid, c.context)
  | _ => none

def seen (key : ℕ × ℕ) (events : List Event) : ℕ := events.countP fun e => siteKey e = some key

theorem fast_run_append (es fs : List Event) (s : ShmConds) :
    flags s (es ++ fs) = flags s es ++ flags (fastRun s es) fs := by
  induction es generalizing s with
  | nil => rfl
  | cons e es ih =>
    simp only [List.cons_append, flags, fastRun]
    rw [ih]

theorem flags_length (events : List Event) (s : ShmConds) :
    (flags s events).length = events.length := by
  induction events generalizing s with
  | nil => rfl
  | cons e es ih =>
    simp only [flags, List.length_cons]
    rw [ih]

structure Watching (r : CondStmtBase) (s : ShmConds) (n : ℕ) : Prop where
  cmpid : s.cond.cmpid = r.cmpid
  context : s.cond.context = r.context
  order : s.cond.order = r.order
  rtOrder : s.rtOrder = n % 2^32
  gate : s.condCmpid = r.cmpid

variable {r : CondStmtBase} {s : ShmConds} {n : ℕ}

theorem reset_watching (r : CondStmtBase) : Watching r (reset r) 0 := ⟨rfl, rfl, rfl, rfl, rfl⟩

theorem check_match_other {cmpid context : ℕ} (h : (s.cond.cmpid, s.cond.context) ≠ (cmpid, context)) :
    checkMatch s cmpid context = (s, false) := by
  rw [checkMatch, if_neg]
  rintro ⟨h1, h2⟩
  exact h (by rw [h1, h2])

theorem fast_step_other {e : Event} (h : siteKey e ≠ some (s.cond.cmpid, s.cond.context)) :
    fastStep s e = (s, false) := by
  cases e with
  | cmp c =>
    have hne : (s.cond.cmpid, s.cond.context) ≠ (c.cmpid, c.context) :=
      fun heq => h (by rw [heq]; rfl)
    simp [fastStep, fastCmp, check_match_other hne]
  | switch c =>
    have hne : (s.cond.cmpid, s.cond.context) ≠ (c.cmpid, c.context) :=
      fun heq => h (by rw [heq]; rfl)
    simp [fastStep, fastSwitch, check_match_other hne]
  | fn c => rfl
  | exploit c => rfl
  | label op => rfl
  | lenLabel offset size => rfl

theorem fast_step_closed {e : Event} (h : s.condCmpid ≠ s.cond.cmpid) :
    fastStep s e = (s, false) := by
  by_cases hkey : siteKey e = some (s.cond.cmpid, s.cond.context)
  · cases e with
    | cmp c =>
      obtain ⟨hc, -⟩ := Prod.mk.inj (Option.some.inj hkey)
      rw [fastStep, if_neg (by rw [hc]; exact h.symm)]
    | switch c =>
      obtain ⟨hc, -⟩ := Prod.mk.inj (Option.some.inj hkey)
      rw [fastStep, if_neg (by rw [hc]; exact h.symm)]
    | fn c => rfl
    | exploit c => rfl
    | label op => rfl
    | lenLabel offset size => rfl
  · exact fast_step_other hkey

structure Fired (r : CondStmtBase) (s : ShmConds) : Prop where
  cmpid : s.cond.cmpid = r.cmpid
  context : s.cond.context = r.context
  order : s.cond.order = r.order
  rtOrder : s.rtOrder = 0x8000
  gate : s.condCmpid = 0

def Answered (r : CondStmtBase) (n : ℕ) (a : ShmConds × Bool) : Prop :=
  (n+1) % 2^32 ≠ r.order &&& 0xFFFF ∧ a.2 = false ∧ Watching r a.1 (n+1) ∨
    (n+1) % 2^32 = r.order &&& 0xFFFF ∧ a.2 = true ∧ Fired r a.1

theorem check_match_site (hw : Watching r s n) (update : ShmConds → ShmConds)
    (hu : ∀ s', Watching r s' (n+1) → Fired r (update s')) :
    Answered r n (if (checkMatch s r.cmpid r.context).2 then
        update (checkMatch s r.cmpid r.context).1 else (checkMatch s r.cmpid r.context).1,
      (checkMatch s r.cmpid r.context).2) := by
  have hnext : (s.rtOrder+1) % 2^32 = (n+1) % 2^32 := by
    rw [hw.rtOrder]
    omega
  have hwait : Watching r { s with rtOrder := (n+1) % 2^32 } (n+1) :=
    ⟨hw.cmpid, hw.context, hw.order, rfl, hw.gate⟩
  have hcheck : checkMatch s r.cmpid r.context =
      ({ s with rtOrder := (n+1) % 2^32 }, decide (r.order &&& 0xFFFF = (n+1) % 2^32)) := by
    rw [checkMatch, if_pos ⟨hw.cmpid, hw.context⟩, hw.order, hnext]
  rw [hcheck]
  by_cases hm : r.order &&& 0xFFFF = (n+1) % 2^32
  · simp only [hm, decide_true, if_true]
    exact Or.inr ⟨hm.symm, rfl, hu _ hwait⟩
  · simp only [hm, decide_false, Bool.false_eq_true, if_false]
    exact Or.inl ⟨Ne.symm hm, rfl, hwait⟩

theorem fast_step_site {e : Event} (hw : Watching r s n) (he : siteKey e = some (orderKey r)) :
    Answered r n (fastStep s e) := by
  cases e with
  | cmp c =>
    obtain ⟨hc, hx⟩ := Prod.mk.inj (Option.some.inj he)
    rw [fastStep, if_pos (hc.trans hw.gate.symm), fastCmp, hc, hx]
    exact check_match_site hw (fun s' => updateCmp s' c.condition c.arg1 c.arg2)
      fun s' hs => ⟨hs.cmpid, hs.context, hs.order, rfl, rfl⟩
  | switch c =>
    obtain ⟨hc, hx⟩ := Prod.mk.inj (Option.some.inj he)
    rw [fastStep, if_pos (hc.trans hw.gate.symm), fastSwitch, hc, hx]
    exact check_match_site hw (fun s' => updateSwitch s' c.condition)
      fun s' hs => ⟨hs.cmpid, hs.context, hs.order, rfl, rfl⟩
  | fn c => cases he
  | exploit c => cases he
  | label op => cases he
  | lenLabel offset size => cases he

theorem seen_cons_site {key : ℕ × ℕ} {e : Event} (h : siteKey e = some key) (es : List Event) :
    seen key (e::es) = seen key es+1 := by
  simp [seen, h]

theorem seen_cons_other {key : ℕ × ℕ} {e : Event} (h : siteKey e ≠ some key) (es : List Event) :
    seen key (e::es) = seen key es := by
  simp [seen, h]

theorem watching_other {e : Event} (hw : Watching r s n) (h : siteKey e ≠ some (orderKey r)) :
    fastStep s e = (s, false) := by
  apply fast_step_other
  rw [hw.cmpid, hw.context]
  exact h

theorem quiet_run (events : List Event) (s : ShmConds) (n : ℕ) (hw : Watching r s n)
    (hq : ∀ j, 1 ≤ j → j ≤ seen (orderKey r) events → (n+j) % 2^32 ≠ r.order &&& 0xFFFF) :
    true ∉ flags s events ∧ Watching r (fastRun s events) (n+seen (orderKey r) events) := by
  induction events generalizing s n with
  | nil => exact ⟨List.not_mem_nil, hw⟩
  | cons e es ih =>
    simp only [flags, fastRun, List.mem_cons, not_or]
    by_cases he : siteKey e = some (orderKey r)
    · rw [seen_cons_site he] at hq ⊢
      rcases fast_step_site hw he with ⟨-, hflag, hw'⟩ | ⟨hfire, -⟩
      · obtain ⟨hrest, hend⟩ := ih _ (n+1) hw' (by
          intro j h1 hj
          have := hq (j+1) (by omega) (by omega)
          rwa [show n+(j+1) = n+1+j by omega] at this)
        refine ⟨⟨by rw [hflag]; decide, hrest⟩, ?_⟩
        rw [show n+(seen (orderKey r) es+1) = n+1+seen (orderKey r) es by omega]
        exact hend
      · exact absurd hfire (hq 1 le_rfl (by omega))
    · rw [seen_cons_other he] at hq ⊢
      rw [watching_other hw he]
      obtain ⟨hrest, hend⟩ := ih s n hw hq
      exact ⟨⟨Bool.true_eq_false.mp, hrest⟩, hend⟩

theorem loud_run (events : List Event) (s : ShmConds) (n j : ℕ) (hw : Watching r s n) (h1 : 1 ≤ j)
    (hj : j ≤ seen (orderKey r) events) (hn : (n+j) % 2^32 = r.order &&& 0xFFFF) :
    true ∈ flags s events := by
  induction events generalizing s n j with
  | nil =>
    simp [seen] at hj
    omega
  | cons e es ih =>
    simp only [flags, List.mem_cons]
    by_cases he : siteKey e = some (orderKey r)
    · rw [seen_cons_site he] at hj
      rcases fast_step_site hw he with ⟨hne, -, hw'⟩ | ⟨-, hflag, -⟩
      · right
        have hj1 : j ≠ 1 := by
          rintro rfl
          exact hne hn
        refine ih _ (n+1) (j-1) hw' (by omega) (by omega) ?_
        rw [show n+1+(j-1) = n+j by omega]
        exact hn
      · exact Or.inl hflag.symm
    · rw [seen_cons_other he] at hj
      rw [watching_other hw he]
      exact Or.inr (ih s n j hw h1 hj hn)

theorem closed_run (events : List Event) (h : s.condCmpid ≠ s.cond.cmpid) :
    true ∉ flags s events := by
  induction events with
  | nil => exact List.not_mem_nil
  | cons e es ih =>
    rw [flags, fast_step_closed h, List.mem_cons, not_or]
    exact ⟨Bool.true_eq_false.mp, ih⟩

/-- After a match only a comparison with id 0 is counted again, from `0x8000` on. -/
theorem fired_run (events : List Event) (hf : Fired r s) (ho : r.order &&& 0xFFFF < 0x8000) :
    true ∉ flags s events ↔
      (r.cmpid = 0 → seen (orderKey r) events < 2^32-0x8000+(r.order &&& 0xFFFF)) := by
  by_cases h0 : r.cmpid = 0
  · have hw : Watching r s 0x8000 :=
      ⟨hf.cmpid, hf.context, hf.order, hf.rtOrder, by rw [h0]; exact hf.gate⟩
    constructor
    · intro hquiet _
      by_contra hge
      exact hquiet (loud_run events s 0x8000 (2^32-0x8000+(r.order &&& 0xFFFF)) hw (by omega)
        (by omega) (by omega))
    · intro hlt
      have := hlt h0
      exact (quiet_run events s 0x8000 hw (by intro j h1 hj; omega)).1
  · refine iff_of_true (closed_run events ?_) (fun h => absurd h h0)
    rw [hf.gate, hf.cmpid]
    exact Ne.symm h0

theorem only_at (l l' : List Bool) (b : Bool) :
    (∀ q, (l ++ b::l')[q]? = some true ↔ q = l.length) ↔ true ∉ l ∧ b = true ∧ true ∉ l' := by
  constructor
  · intro h
    refine ⟨?_, ?_, ?_⟩
    · intro hm
      obtain ⟨q, hq⟩ := List.mem_iff_getElem?.mp hm
      have hlt : q < l.length := (List.getElem?_eq_some_iff.mp hq).1
      have := (h q).mp (by rw [List.getElem?_append_left hlt]; exact hq)
      omega
    · simpa using (h l.length).mpr rfl
    · intro hm
      obtain ⟨q, hq⟩ := List.mem_iff_getElem?.mp hm
      have := (h (l.length+1+q)).mp (by
        rw [List.getElem?_append_right (by omega), show l.length+1+q-l.length = q+1 by omega]
        exact hq)
      omega
  · rintro ⟨hl, rfl, hl'⟩ q
    constructor
    · intro hq
      rcases lt_trichotomy q l.length with hlt | heq | hgt
      · rw [List.getElem?_append_left hlt] at hq
        exact absurd (List.mem_of_getElem? hq) hl
      · exact heq
      · rw [List.getElem?_append_right (by omega), show q-l.length = q-l.length-1+1 by omega,
          List.getElem?_cons_succ] at hq
        exact absurd (List.mem_of_getElem? hq) hl'
    · rintro rfl
      simp

theorem matches_only_iff {events : List Event} {p : ℕ} {e : Event} (he : events[p]? = some e)
    (hkey : siteKey e = some (orderKey r)) (ho : r.order &&& 0xFFFF < 0x8000) :
    (∀ q, Matches events r q ↔ q = p) ↔
      seen (orderKey r) (events.take (p+1)) ≤ 2^32 ∧
      seen (orderKey r) (events.take (p+1)) % 2^32 = r.order &&& 0xFFFF ∧
      (r.cmpid = 0 →
        seen (orderKey r) (events.drop (p+1)) < 2^32-0x8000+(r.order &&& 0xFFFF)) := by
  obtain ⟨hp, rfl⟩ := List.getElem?_eq_some_iff.mp he
  have hsplit : events = events.take p ++ events[p] :: events.drop (p+1) := by
    rw [← List.drop_eq_getElem_cons hp, List.take_append_drop]
  have hupTo : seen (orderKey r) (events.take (p+1)) = seen (orderKey r) (events.take p)+1 := by
    rw [List.take_add_one, List.getElem?_eq_getElem hp, seen, List.countP_append]
    simp [hkey, seen]
  have hlen : (flags (reset r) (events.take p)).length = p := by
    rw [flags_length, List.length_take]
    omega
  have hflags : flags (reset r) events = flags (reset r) (events.take p) ++
      (fastStep (fastRun (reset r) (events.take p)) events[p]).2 ::
        flags (fastStep (fastRun (reset r) (events.take p)) events[p]).1 (events.drop (p+1)) := by
    conv_lhs => rw [hsplit, fast_run_append]
    rfl
  have honly := only_at (flags (reset r) (events.take p))
    (flags (fastStep (fastRun (reset r) (events.take p)) events[p]).1 (events.drop (p+1)))
    (fastStep (fastRun (reset r) (events.take p)) events[p]).2
  rw [← hflags, hlen] at honly
  unfold Matches
  rw [honly, hupTo]
  have hw := reset_watching r
  constructor
  · rintro ⟨hbefore, hfire, hafter⟩
    have hquiet : ∀ j, 1 ≤ j → j ≤ seen (orderKey r) (events.take p) →
        (0+j) % 2^32 ≠ r.order &&& 0xFFFF :=
      fun j h1 hj hn => hbefore (loud_run _ _ 0 j hw h1 hj hn)
    rcases fast_step_site (quiet_run _ _ 0 hw hquiet).2 hkey with ⟨-, hflag, -⟩ | ⟨hn, -, hf⟩
    · rw [hflag] at hfire
      cases hfire
    · refine ⟨?_, by rw [← hn]; omega, (fired_run _ hf ho).mp hafter⟩
      by_contra hbig
      exact hquiet (seen (orderKey r) (events.take p)+1-2^32) (by omega) (by omega) (by omega)
  · rintro ⟨hle, hn, hrest⟩
    have hquiet : ∀ j, 1 ≤ j → j ≤ seen (orderKey r) (events.take p) →
        (0+j) % 2^32 ≠ r.order &&& 0xFFFF := by
      intro j h1 hj
      omega
    obtain ⟨hbefore, hwait⟩ := quiet_run _ _ 0 hw hquiet
    rcases fast_step_site hwait hkey with ⟨hne, -, -⟩ | ⟨-, hflag, hf⟩
    · exact absurd (by rw [← hn]; omega) hne
    · exact ⟨hbefore, hflag, (fired_run _ hf ho).mpr hrest⟩

end Parmesan.FastCounter
