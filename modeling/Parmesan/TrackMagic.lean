import Parmesan.TrackModel

/-!
# The operands of compare functions

A call of a compare function appends its record and then stores its two operand
strings under the last index of the log. The strings belong to the record as
long as exactly one record was appended.
-/

set_option autoImplicit false

namespace Parmesan.TrackMagic
open Parmesan.CondModel Parmesan.TagSetRun Parmesan.TrackModel Parmesan.Execution

def LoggedBy (events : List Event) (i p : ℕ) : Prop :=
  ∃ t t', run (events.take p) = some t ∧ run (events.take (p+1)) = some t' ∧
    t.data.condList.length ≤ i ∧ i < t'.data.condList.length

/-- Exactly the records of compare functions have an entry, and it holds the
operands of the call that appended the record. -/
def MagicPaired (events : List Event) (t : Tracker) : Prop :=
  ∀ i, (t.data.magicBytes i ≠ none ↔ ∃ r, t.data.condList[i]? = some r ∧ r.op = COND_FN_OP) ∧
    ∀ bytes, t.data.magicBytes i = some bytes →
      ∃ p c, LoggedBy events i p ∧ events[p]? = some (.fn c) ∧ bytes = operands c

/-- The label that `__dfsw___angora_trace_fn_tt` puts in its record. -/
def fnLabel (c : FnCall) : ℕ := if 0 < c.lb1 then c.lb1 else c.lb2

/-- A tainted compare function has a plain label and is below the cap; the code
of its records is used by no other call. -/
def Paired (t : Tracker) : Event → Prop
  | .cmp c => c.op ≠ COND_FN_OP
  | .exploit c => c.op ≠ COND_FN_OP
  | .fn c => c.lb1 = 0 ∧ c.lb2 = 0 ∨ isLenLabel (fnLabel c) = false ∧
      (t.orderMap (c.cmpid, c.context)+1) % 2^32 ≤ MAX_COND_ORDER
  | _ => True

instance (t : Tracker) : (e : Event) → Decidable (Paired t e)
  | .cmp c => inferInstanceAs (Decidable (c.op ≠ COND_FN_OP))
  | .exploit c => inferInstanceAs (Decidable (c.op ≠ COND_FN_OP))
  | .fn _ => inferInstanceAs (Decidable (_ ∨ _))
  | .switch _ => isTrue trivial
  | .label _ => isTrue trivial
  | .lenLabel _ _ => isTrue trivial

def Grown (t t' : Tracker) : Prop :=
  t'.data.magicBytes = t.data.magicBytes ∧
    ∃ records, t'.data.condList = t.data.condList ++ records ∧ ∀ r ∈ records, r.op ≠ COND_FN_OP

theorem same_log_grown {t t' : Tracker} (h : SameLog t t') : Grown t t' :=
  ⟨h.magicBytes, [], by rw [h.condList, List.append_nil], by simp⟩

theorem grown_trans {t t' t'' : Tracker} (h : Grown t t') (h' : Grown t' t'') : Grown t t'' := by
  obtain ⟨hm, records, hlist, hop⟩ := h
  obtain ⟨hm', records', hlist', hop'⟩ := h'
  refine ⟨hm'.trans hm, records ++ records', ?_, ?_⟩
  · rw [hlist', hlist, List.append_assoc]
  · intro r hr
    rcases List.mem_append.mp hr with hr | hr
    · exact hop r hr
    · exact hop' r hr

theorem grown_refl (t : Tracker) : Grown t t := same_log_grown (same_log_refl t)

theorem save_grown {t t' : Tracker} {cond : CondStmtBase} (hop : cond.op ≠ COND_FN_OP)
    (h : save t cond = some t') : Grown t t' := by
  obtain rfl | ⟨record, extra, hs⟩ := save_cases h
  · exact grown_refl _
  · refine ⟨hs.magicBytes, _, hs.condList, ?_⟩
    intro r hr
    split_ifs at hr
    · rcases List.mem_cons.mp hr with rfl | hr
      · rw [hs.op]
        exact hop
      · rw [hs.extraOp r hr]
        decide
    · cases hr

theorem save_all_grown {conds : List CondStmtBase} {t t' : Tracker}
    (hop : ∀ c ∈ conds, c.op ≠ COND_FN_OP) (h : conds.foldlM save t = some t') : Grown t t' :=
  fold_relates grown_refl (fun _ _ _ => grown_trans) conds
    (fun c hc _ _ hs => save_grown (hop c hc) hs) t t' h

theorem infer_eq_sign_fn {s : TagSetModel.TagSet} {op lb1 lb2 : ℕ} (h : op ≠ COND_FN_OP) :
    inferEqSign s op lb1 lb2 ≠ COND_FN_OP := by
  unfold inferEqSign
  split_ifs with heq
  · rw [heq.1]
    decide
  · exact h

theorem trace_cmp_grown {t t' : Tracker} {c : CmpCall} (hop : c.op ≠ COND_FN_OP)
    (h : traceCmp t c = some t') : Grown t t' := by
  unfold traceCmp at h
  split_ifs at h
  · obtain rfl := Option.some.inj h
    exact grown_refl t
  · obtain ⟨t1, h1, h⟩ := Option.bind_eq_some_iff.mp h
    obtain ⟨t2, h2, h⟩ := Option.bind_eq_some_iff.mp h
    have hsame := same_log_trans (infer_shape_same h1) (infer_shape_same h2)
    exact grown_trans (same_log_grown hsame) (save_grown (infer_eq_sign_fn hop) h)

theorem trace_switch_grown {t t' : Tracker} {c : SwitchCall} (h : traceSwitch t c = some t') :
    Grown t t' := by
  unfold traceSwitch at h
  split_ifs at h
  · obtain rfl := Option.some.inj h
    exact grown_refl t
  · obtain ⟨t1, h1, h⟩ := Option.bind_eq_some_iff.mp h
    refine grown_trans (same_log_grown (infer_shape_same h1)) (save_all_grown ?_ h)
    intro cond hc
    obtain ⟨i, hi, rfl⟩ := List.mem_mapIdx.mp hc
    simp only [switchCase, switchOp]
    split_ifs <;> decide

theorem trace_exploit_grown {t t' : Tracker} {c : ExploitCall} (hop : c.op ≠ COND_FN_OP)
    (h : traceExploitVal t c = some t') : Grown t t' := by
  unfold traceExploitVal at h
  split_ifs at h
  · obtain rfl := Option.some.inj h
    exact grown_refl t
  · exact save_grown hop h

def Recorded (t : Tracker) (c : FnCall) (t' : Tracker) : Prop :=
  t'.data.magicBytes =
    Function.update t.data.magicBytes t.data.condList.length (some (operands c)) ∧
  ∃ record, t'.data.condList = t.data.condList ++ [record] ∧ record.op = COND_FN_OP

theorem fn_cond_labels {c : FnCall} (hl : ¬ (c.lb1 = 0 ∧ c.lb2 = 0))
    (hlen : isLenLabel (fnLabel c) = false) :
    ¬ ((fnCond c).lb1 = 0 ∧ (fnCond c).lb2 = 0) ∧
      isLenLabel (fnCond c).lb1 = false ∧ isLenLabel (fnCond c).lb2 = false := by
  constructor
  · simp only [fnCond]
    split_ifs <;> omega
  · unfold fnLabel at hlen
    simp only [fnCond]
    split_ifs at hlen ⊢ with h1
    · exact ⟨hlen, rfl⟩
    · rw [show c.lb1 = 0 by omega]
      exact ⟨rfl, hlen⟩

theorem trace_fn_recorded {t t' : Tracker} {c : FnCall} (hp : Paired t (.fn c))
    (h : traceFn t c = some t') : t' = t ∨ Recorded t c t' := by
  unfold traceFn at h
  split_ifs at h with hl
  · exact Or.inl (Option.some.inj h).symm
  · right
    obtain ⟨u, hu, h⟩ := Option.bind_eq_some_iff.mp h
    obtain rfl := Option.some.inj h
    obtain ⟨hlen, hcap⟩ := hp.resolve_left hl
    obtain ⟨hlabel, hplain⟩ := fn_cond_labels hl hlen
    obtain ⟨record, extra, hs⟩ := save_spec hlabel hu
    have hsaved : savedOrder t (fnCond c) ≤ MAX_COND_ORDER := hcap
    have hlist := hs.condList
    rw [if_pos hsaved, hs.noExtra hplain.1 hplain.2] at hlist
    have hpos : 0 < u.data.condList.length := by rw [hlist]; simp
    rw [saveMagicBytes, if_pos hpos]
    refine ⟨?_, record, hlist, hs.op⟩
    rw [hs.magicBytes, hlist]
    simp

theorem logged_by_snoc {events : List Event} {i p : ℕ} (e : Event) (h : LoggedBy events i p) :
    p < events.length ∧ LoggedBy (events ++ [e]) i p := by
  obtain ⟨t, t', ht, ht', hi, hi'⟩ := h
  have hp : p < events.length := by
    by_contra hge
    rw [List.take_of_length_le (by omega)] at ht ht'
    rw [ht] at ht'
    obtain rfl := Option.some.inj ht'
    omega
  refine ⟨hp, t, t', ?_, ?_, hi, hi'⟩
  · rw [List.take_append_of_le_length (by omega)]
    exact ht
  · rw [List.take_append_of_le_length (by omega)]
    exact ht'

theorem new_tracker_paired : MagicPaired [] newTracker := by
  intro i
  constructor
  · simp [newTracker]
  · intro bytes h
    cases h

/-- The pairs of the log so far are not touched by what a later call appends. -/
theorem grown_paired {events : List Event} {t t' : Tracker} (e : Event) (h : Grown t t')
    (hp : MagicPaired events t) : MagicPaired (events ++ [e]) t' := by
  obtain ⟨hm, records, hlist, hop⟩ := h
  intro i
  rw [hm, hlist]
  constructor
  · rw [(hp i).1]
    apply exists_congr
    intro r
    by_cases hi : i < t.data.condList.length
    · rw [List.getElem?_append_left hi]
    · rw [List.getElem?_append_right (by omega), List.getElem?_eq_none (by omega)]
      refine iff_of_false (by simp) ?_
      rintro ⟨hr, hfn⟩
      exact hop r (List.mem_of_getElem? hr) hfn
  · intro bytes hb
    obtain ⟨p, c, hl, hc, hbytes⟩ := (hp i).2 bytes hb
    obtain ⟨hlt, hl⟩ := logged_by_snoc e hl
    exact ⟨p, c, hl, by rw [List.getElem?_append_left hlt]; exact hc, hbytes⟩

theorem recorded_paired {events : List Event} {t t' : Tracker} {c : FnCall}
    (ht : run events = some t) (ht' : run (events ++ [.fn c]) = some t') (h : Recorded t c t')
    (hp : MagicPaired events t) : MagicPaired (events ++ [.fn c]) t' := by
  obtain ⟨hm, record, hlist, hop⟩ := h
  intro i
  by_cases hi : i = t.data.condList.length
  · subst hi
    rw [hm, hlist, Function.update_self]
    constructor
    · exact iff_of_true (by simp) ⟨record, by simp, hop⟩
    · intro bytes hb
      obtain rfl := Option.some.inj hb
      refine ⟨events.length, c, ⟨t, t', ?_, ?_, le_rfl, ?_⟩, by simp, rfl⟩
      · rw [List.take_left]
        exact ht
      · rw [List.take_of_length_le (by simp)]
        exact ht'
      · rw [hlist]
        simp
  · rw [hm, hlist, Function.update_of_ne hi]
    constructor
    · rw [(hp i).1]
      apply exists_congr
      intro r
      by_cases hlt : i < t.data.condList.length
      · rw [List.getElem?_append_left hlt]
      · rw [List.getElem?_eq_none (by omega), List.getElem?_eq_none (by simp; omega)]
    · intro bytes hb
      obtain ⟨p, c', hl, hc, hbytes⟩ := (hp i).2 bytes hb
      obtain ⟨hlt, hl⟩ := logged_by_snoc (.fn c) hl
      exact ⟨p, c', hl, by rw [List.getElem?_append_left hlt]; exact hc, hbytes⟩

theorem handle_paired {events : List Event} {t t' : Tracker} {e : Event}
    (ht : run events = some t) (hp : MagicPaired events t) (ha : Paired t e)
    (h : handle t e = some t') : MagicPaired (events ++ [e]) t' := by
  have ht' : run (events ++ [e]) = some t' := (replay_snoc events e _ _).mpr ⟨t, ht, trivial, h⟩
  cases e with
  | cmp c => exact grown_paired _ (trace_cmp_grown ha h) hp
  | switch c => exact grown_paired _ (trace_switch_grown h) hp
  | fn c =>
    rcases trace_fn_recorded ha h with rfl | hrec
    · exact grown_paired _ (grown_refl _) hp
    · exact recorded_paired ht ht' hrec hp
  | exploit c => exact grown_paired _ (trace_exploit_grown ha h) hp
  | label op => exact grown_paired _ (same_log_grown (label_step_same h)) hp
  | lenLabel offset size =>
    obtain rfl := Option.some.inj h
    exact grown_paired _ (same_log_grown (new_len_label_same t offset size)) hp

/-- Along every run of paired calls the operands stay with their records. -/
theorem paired_run_magic (events : List Event) (t : Tracker)
    (h : replay handle Paired newTracker events = some t) : MagicPaired events t := by
  refine replay_induction (P := MagicPaired) new_tracker_paired ?_ events t h
  intro events s e t hs hp ha hn
  exact handle_paired (replay_mono (fun _ _ _ => trivial) events _ s hs) hp ha hn

def keyword (bytes : List UInt8) : Event := .fn ⟨7, 3, 0, 2, [105, 110], bytes, 1, 0⟩

theorem paired_run_magic_once : ∃ t,
    replay handle Paired newTracker [.label (.insert 0), keyword [105, 102]] = some t ∧
    t.data.condList.length = 1 ∧ MagicPaired [.label (.insert 0), keyword [105, 102]] t := by
  have hlen : (replay handle Paired newTracker [.label (.insert 0), keyword [105, 102]]).map
      (fun t => t.data.condList.length) = some 1 := by decide +kernel
  obtain ⟨t, ht, h1⟩ := Option.map_eq_some_iff.mp hlen
  exact ⟨t, ht, h1, paired_run_magic _ t ht⟩

/-- The seventeenth call of the site is given another string. -/
def keywordLoop : List Event :=
  .label (.insert 0) :: (List.replicate 16 (keyword [105, 102]) ++ [keyword [100, 111]])

def operandsOf : Event → Option (List UInt8 × List UInt8)
  | .fn c => some (operands c)
  | _ => none

/-- Past the cap no record is appended, and the operands replace those of the
sixteenth record. -/
theorem cap_overwrites_operands : ∃ t, run keywordLoop = some t ∧
    t.data.condList.length = 16 ∧
    t.data.magicBytes 15 = some ([105, 110], [100, 111]) ∧ ¬ MagicPaired keywordLoop t := by
  have hend : (run keywordLoop).map (fun t => (t.data.condList.length, t.data.magicBytes 15)) =
      some (16, some ([105, 110], [100, 111])) := by decide +kernel
  obtain ⟨t, ht, hval⟩ := Option.map_eq_some_iff.mp hend
  obtain ⟨hlen, hmagic⟩ := Prod.mk.inj hval
  refine ⟨t, ht, hlen, hmagic, ?_⟩
  intro hp
  obtain ⟨p, c, ⟨u, u', hu, -, hi, -⟩, hc, hbytes⟩ := (hp 15).2 _ hmagic
  have hlast : ∀ q < 18, (keywordLoop[q]?).bind operandsOf = some ([105, 110], [100, 111]) →
      q = 17 := by decide
  have hp18 : p < 18 := (List.getElem?_eq_some_iff.mp hc).1
  obtain rfl := hlast p hp18 (by rw [hc, hbytes]; rfl)
  have hbefore : (run (keywordLoop.take 17)).map (fun t => t.data.condList.length) = some 16 := by
    decide +kernel
  rw [hu] at hbefore
  have : u.data.condList.length = 16 := Option.some.inj hbefore
  omega

end Parmesan.TrackMagic
