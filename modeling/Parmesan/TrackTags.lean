import Parmesan.CondState
import Parmesan.LenLabel

/-!
# The segments stored in the log

`save_tag` takes the segments of a label when the label is logged for the first
time, while the label set goes on to be split and grouped. The log then holds
the bytes that every logged label denotes, and so do the conditions parsed from
it.
-/

set_option autoImplicit false

namespace Parmesan.TrackTags
open Parmesan.CondModel Parmesan.TagSetModel Parmesan.TagSetInvariant Parmesan.TagSetInsert
open Parmesan.TagSetShape Parmesan.TagSetRun Parmesan.TrackModel Parmesan.LenLabel
open Parmesan.CondState Parmesan.Segments Parmesan.Outcome Parmesan.Execution
open Parmesan.DepotModel (CondStmt)

/-- A tracked run, with the labels that the label set has issued so far. -/
structure Tracked where
  tracker : Tracker
  labels : List ℕ

def newTracked : Tracked := ⟨newTracker, [ROOT]⟩

def returned (t : Tracker) : Event → List ℕ
  | .label op => ((TagSetRun.step t.tagSet op).toOption.map Prod.snd).getD []
  | _ => []

def track (st : Tracked) (e : Event) : Option Tracked :=
  (handle st.tracker e).map fun t => ⟨t, returned st.tracker e ++ st.labels⟩

def handled : Event → List ℕ
  | .cmp c => [c.lb1, c.lb2]
  | .switch c => [c.lb]
  | .fn c => [c.lb1, c.lb2]
  | .exploit c => [c.lb]
  | _ => []

def labelOps : Event → List Op
  | .label op => [op]
  | _ => []

/-- A handler's label is an issued label with any length part. -/
def Valid (st : Tracked) (e : Event) : Prop :=
  (∀ lb ∈ handled e, getNormalLabel lb ∈ st.labels) ∧
    ∀ op ∈ labelOps e, ∀ l ∈ opLabels op, l ∈ st.labels

def Admitted (st : Tracked) (e : Event) : Prop :=
  Valid st e ∧ ∀ op ∈ labelOps e, opOffset op < MAX_LB

instance (st : Tracked) (e : Event) : Decidable (Valid st e) :=
  inferInstanceAs (Decidable (_ ∧ _))

instance (st : Tracked) (e : Event) : Decidable (Admitted st e) :=
  inferInstanceAs (Decidable (_ ∧ _))

/-- The log knows the bytes of the labels in it. -/
structure Logged (labels : List ℕ) (t : Tracker) (m : Meaning) : Prop where
  inv : Inv MAX_LB t.tagSet m
  issued : ∀ l ∈ labels, IsLabel t.tagSet m l
  root : t.data.tags 0 = none
  stored : ∀ lb segs, t.data.tags lb = some segs →
    getNormalLabel lb ∈ labels ∧ cover segs = m.bits (getNormalLabel lb)
  keyed : ∀ c ∈ t.data.condList, c.op ≠ COND_LEN_OP → ∀ lb ∈ [c.lb1, c.lb2], lb ≠ 0 →
    t.data.tags lb ≠ none

def Sound (labels : List ℕ) (t : Tracker) : Prop := ∃ m, Logged labels t m

variable {labels : List ℕ} {t t' : Tracker}

/-- An operation on the label set leaves the bytes of the issued labels alone. -/
theorem logged_kept {m m' : Meaning} {s : TagSet} (h : Logged labels t m) (hi : Inv MAX_LB s m')
    (hk : Kept t.tagSet m s m') : Logged labels { t with tagSet := s } m' where
  inv := hi
  issued := fun l hl => label_kept hk (h.issued l hl)
  root := h.root
  stored := by
    intro lb segs hs
    obtain ⟨hl, hc⟩ := h.stored lb segs hs
    exact ⟨hl, hc.trans (hk.bits _ (h.issued _ hl).1).symm⟩
  keyed := h.keyed

theorem infer_shape_sound {lb len : ℕ} (h : Sound labels t) (hl : getNormalLabel lb ∈ labels)
    (hs : TrackModel.inferShape t lb len = some t') : Sound labels t' := by
  obtain ⟨m, hm⟩ := h
  unfold TrackModel.inferShape at hs
  split_ifs at hs
  · obtain rfl := Option.some.inj hs
    exact ⟨m, hm⟩
  · obtain rfl := Option.some.inj hs
    obtain ⟨hinv, hkept⟩ := infer_shape2_inv hm.inv (hm.issued _ hl) len
    exact ⟨m, logged_kept hm hinv hkept⟩

theorem tag_set_find_spec {s s' : TagSet} {m : Meaning} {lb : ℕ} {segs : List TagSeg}
    (hi : Inv MAX_LB s m) (hl : IsLabel s m (getNormalLabel lb))
    (hf : tagSetFind s lb = some (s', segs)) :
    ∃ m', Inv MAX_LB s' m' ∧ Kept s m s' m' ∧ cover segs = m.bits (getNormalLabel lb) := by
  unfold tagSetFind at hf
  rw [if_pos hl.1] at hf
  have hspec := find_spec hi hl
  cases hfind : find s (getNormalLabel lb) with
  | error e =>
    rw [hfind] at hf
    cases hf
  | ok r =>
    rw [hfind] at hf
    obtain rfl : r = (s', segs) := Option.some.inj hf
    rw [hfind] at hspec
    obtain ⟨m', hinv, hkept, hcover⟩ := hspec
    exact ⟨m', hinv, hkept, hcover le_rfl⟩

/-- `save_tag` keeps the log sound, keeps its keys and adds the label. -/
theorem save_tag_sound {lb : ℕ} (h : Sound labels t) (hl : getNormalLabel lb ∈ labels)
    (hs : saveTag t lb = some t') :
    Sound labels t' ∧ (∀ l, t.data.tags l ≠ none → t'.data.tags l ≠ none) ∧
      (lb ≠ 0 → t'.data.tags lb ≠ none) := by
  obtain ⟨m, hm⟩ := h
  unfold saveTag at hs
  by_cases h0 : lb = 0
  · rw [if_pos h0] at hs
    obtain rfl := Option.some.inj hs
    exact ⟨⟨m, hm⟩, fun _ hk => hk, fun hne => absurd h0 hne⟩
  rw [if_neg h0] at hs
  obtain ⟨⟨s', segs⟩, hf, rfl⟩ := Option.map_eq_some_iff.mp hs
  obtain ⟨m', hinv, hkept, hcover⟩ := tag_set_find_spec hm.inv (hm.issued _ hl) hf
  have hm' := logged_kept hm hinv hkept
  by_cases hold : t.data.tags lb = none
  · rw [← hkept.bits _ (hm.issued _ hl).1] at hcover
    have hgrow : ∀ l, t.data.tags l ≠ none → Function.update t.data.tags lb (some segs) l ≠ none := by
      intro l hk
      by_cases hlb : l = lb
      · simp [hlb]
      · rw [Function.update_of_ne hlb]
        exact hk
    simp only [hold, if_true]
    refine ⟨⟨m', hinv, hm'.issued, ?_, ?_, ?_⟩, hgrow, ?_⟩
    · simp only [Function.update_of_ne (Ne.symm h0)]
      exact hm.root
    · intro l out ho
      by_cases hlb : l = lb
      · subst hlb
        obtain rfl : segs = out := by simpa using ho
        exact ⟨hl, hcover⟩
      · simp only [Function.update_of_ne hlb] at ho
        exact hm'.stored l out ho
    · intro c hc hop l hmem hne
      exact hgrow l (hm.keyed c hc hop l hmem hne)
    · simp
  · simp only [hold, if_false]
    exact ⟨⟨m', hm'⟩, fun _ hk => hk, fun _ => hold⟩

theorem normal_normal (lb : ℕ) : getNormalLabel (getNormalLabel lb) = getNormalLabel lb := by
  simp only [getNormalLabel, MAX_NORMAL_LABEL, Nat.and_two_pow_sub_one_eq_mod, Nat.mod_mod]

theorem get_len_cond_labels {lenInfo : List (ℕ × ℕ)} {cond : CondStmtBase}
    {r : CondStmtBase × Option CondStmtBase} (h : getLenCond lenInfo cond = some r) :
    getNormalLabel r.1.lb1 = getNormalLabel cond.lb1 ∧
      getNormalLabel r.1.lb2 = getNormalLabel cond.lb2 := by
  unfold getLenCond at h
  split_ifs at h
  · rw [(len_cond_site h).1]
    exact ⟨normal_normal _, rfl⟩
  · rw [(len_cond_site h).1]
    exact ⟨rfl, normal_normal _⟩
  · obtain rfl := Option.some.inj h
    exact ⟨rfl, rfl⟩

theorem push_cond_sound {cond : CondStmtBase} {lenCond : Option CondStmtBase} {order : ℕ}
    (h : Sound labels t) (h1 : getNormalLabel cond.lb1 ∈ labels)
    (h2 : getNormalLabel cond.lb2 ∈ labels) (hlen : ∀ c ∈ lenCond, c.op = COND_LEN_OP)
    (hp : pushCond t cond lenCond order = some t') : Sound labels t' := by
  unfold pushCond at hp
  split_ifs at hp
  · simp only [bind, Option.bind_eq_some_iff] at hp
    obtain ⟨t1, ht1, t2, ht2, ht3⟩ := hp
    obtain rfl := Option.some.inj ht3
    obtain ⟨hs1, -, hkey1⟩ := save_tag_sound h h1 ht1
    obtain ⟨⟨m, hm⟩, hgrow, hkey2⟩ := save_tag_sound hs1 h2 ht2
    refine ⟨m, hm.inv, hm.issued, hm.root, hm.stored, ?_⟩
    intro c hc hop lb hlb hne
    rcases List.mem_append.mp hc with hc | hc
    · exact hm.keyed c hc hop lb hlb hne
    rcases List.mem_cons.mp hc with rfl | hc
    · simp only [List.mem_cons, List.not_mem_nil, or_false] at hlb
      rcases hlb with rfl | rfl
      · exact hgrow _ (hkey1 hne)
      · exact hkey2 hne
    · -- the record of a length is a LEN record
      obtain ⟨c', hc', rfl⟩ : ∃ c' ∈ lenCond, { c' with order := 0x10000+order } = c := by
        simpa [lenRecord] using hc
      exact absurd (hlen c' hc') hop
  · obtain rfl := Option.some.inj hp
    exact h

theorem save_sound {cond : CondStmtBase} (h : Sound labels t)
    (h1 : getNormalLabel cond.lb1 ∈ labels) (h2 : getNormalLabel cond.lb2 ∈ labels)
    (hs : save t cond = some t') : Sound labels t' := by
  unfold save at hs
  split_ifs at hs
  · obtain rfl := Option.some.inj hs
    exact h
  simp only [bind, Option.bind_eq_some_iff] at hs
  obtain ⟨r, hr, hs⟩ := hs
  obtain ⟨hl1, hl2⟩ := get_len_cond_labels hr
  have hlen := (get_len_cond_site hr).2.1
  split_ifs at hs
  · have hord : Sound labels (getOrder t r.1).1 := by
      obtain ⟨m, hm⟩ := h
      exact ⟨m, hm.inv, hm.issued, hm.root, hm.stored, hm.keyed⟩
    exact push_cond_sound hord (hl1 ▸ h1) (hl2 ▸ h2) hlen hs
  · exact push_cond_sound h (hl1 ▸ h1) (hl2 ▸ h2) hlen hs

theorem trace_cmp_sound {c : CmpCall} (h : Sound labels t)
    (h1 : getNormalLabel c.lb1 ∈ labels) (h2 : getNormalLabel c.lb2 ∈ labels)
    (hs : traceCmp t c = some t') : Sound labels t' := by
  unfold traceCmp at hs
  split_ifs at hs
  · obtain rfl := Option.some.inj hs
    exact h
  simp only [bind, Option.bind_eq_some_iff] at hs
  obtain ⟨t1, ht1, t2, ht2, hs⟩ := hs
  exact save_sound (infer_shape_sound (infer_shape_sound h h1 ht1) h2 ht2) h1 h2 hs

theorem trace_switch_sound {c : SwitchCall} (h : Sound labels t) (h0 : 0 ∈ labels)
    (hl : getNormalLabel c.lb ∈ labels) (hs : traceSwitch t c = some t') : Sound labels t' := by
  unfold traceSwitch at hs
  split_ifs at hs
  · obtain rfl := Option.some.inj hs
    exact h
  simp only [bind, Option.bind_eq_some_iff] at hs
  obtain ⟨t1, ht1, hs⟩ := hs
  have hcases : Sound labels t1 → Sound labels t' := by
    refine fold_relates (R := fun s u => Sound labels s → Sound labels u) (fun _ hx => hx)
      (fun _ _ _ hst htu hx => htu (hst hx)) _ ?_ t1 t' hs
    intro cond hcond s u hsu hx
    obtain ⟨i, hi, rfl⟩ := List.mem_mapIdx.mp hcond
    exact save_sound hx (show getNormalLabel c.lb ∈ labels from hl)
      (show getNormalLabel 0 ∈ labels from h0) hsu
  exact hcases (infer_shape_sound h hl ht1)

theorem trace_fn_sound {c : FnCall} (h : Sound labels t) (h0 : 0 ∈ labels)
    (h1 : getNormalLabel c.lb1 ∈ labels) (h2 : getNormalLabel c.lb2 ∈ labels)
    (hs : traceFn t c = some t') : Sound labels t' := by
  unfold traceFn at hs
  split_ifs at hs
  · obtain rfl := Option.some.inj hs
    exact h
  simp only [bind, Option.bind_eq_some_iff] at hs
  obtain ⟨t1, ht1, hs⟩ := hs
  obtain rfl := Option.some.inj hs
  have hlb2 : getNormalLabel (fnCond c).lb2 ∈ labels := by
    simp only [fnCond]
    split_ifs
    · exact h0
    · exact h2
  obtain ⟨m, hm⟩ := save_sound h h1 hlb2 ht1
  unfold saveMagicBytes
  split_ifs
  · exact ⟨m, hm.inv, hm.issued, hm.root, hm.stored, hm.keyed⟩
  · exact ⟨m, hm⟩

theorem trace_exploit_sound {c : ExploitCall} (h : Sound labels t) (h0 : 0 ∈ labels)
    (hl : getNormalLabel c.lb ∈ labels) (hs : traceExploitVal t c = some t') :
    Sound labels t' := by
  unfold traceExploitVal at hs
  split_ifs at hs
  · obtain rfl := Option.some.inj hs
    exact h
  · exact save_sound h hl (show getNormalLabel 0 ∈ labels from h0) hs

theorem label_step_sound {op : Op} (h : Sound labels t) (hl : ∀ l ∈ opLabels op, l ∈ labels)
    (ho : opOffset op < MAX_LB) (hs : labelStep t op = some t') :
    Sound (returned t (.label op) ++ labels) t' := by
  obtain ⟨m, hm⟩ := h
  unfold labelStep at hs
  split_ifs at hs
  obtain ⟨⟨s', out⟩, hstep, rfl⟩ := Option.map_eq_some_iff.mp hs
  have hspec := step_spec hm.inv (fun l hmem => hm.issued l (hl l hmem)) ho
  cases hres : TagSetRun.step t.tagSet op with
  | error e =>
    rw [hres] at hstep
    cases hstep
  | ok r =>
    rw [hres] at hstep
    obtain rfl : r = (s', out) := Option.some.inj hstep
    obtain ⟨m', hstepped⟩ := ensures_value hspec hres
    have hm' := logged_kept hm hstepped.inv hstepped.kept
    have hout : returned t (.label op) = out := by
      simp only [returned, hres]
      rfl
    rw [hout]
    refine ⟨m', hm'.inv, ?_, hm'.root, ?_, hm'.keyed⟩
    · intro l hmem
      rcases List.mem_append.mp hmem with hmem | hmem
      · exact hstepped.labels l hmem
      · exact hm'.issued l hmem
    · intro lb segs hseg
      obtain ⟨hlab, hc⟩ := hm'.stored lb segs hseg
      exact ⟨List.mem_append_right out hlab, hc⟩

theorem new_len_label_sound (h : Sound labels t) (offset size : ℕ) :
    Sound labels (newLenLabel t offset size).1 := by
  obtain ⟨m, hm⟩ := h
  unfold newLenLabel
  split_ifs
  · exact ⟨m, hm.inv, hm.issued, hm.root, hm.stored, hm.keyed⟩
  · exact ⟨m, hm⟩

theorem new_tracked_sound : Sound newTracked.labels newTracked.tracker := by
  obtain ⟨m, hinv, hlabels⟩ := new_session_sound MAX_LB
  refine ⟨m, hinv, hlabels, rfl, ?_, ?_⟩
  · intro lb segs hs
    cases hs
  · intro c hc
    cases hc

theorem track_sound {st st' : Tracked} {e : Event} (h : Sound st.labels st.tracker)
    (h0 : 0 ∈ st.labels) (ha : Admitted st e) (hs : track st e = some st') :
    Sound st'.labels st'.tracker ∧ 0 ∈ st'.labels := by
  obtain ⟨t, ht, rfl⟩ := Option.map_eq_some_iff.mp hs
  refine ⟨?_, List.mem_append_right _ h0⟩
  obtain ⟨⟨hlb, hop⟩, hoff⟩ := ha
  cases e with
  | cmp c => exact trace_cmp_sound h (hlb c.lb1 (by simp [handled])) (hlb c.lb2 (by simp [handled])) ht
  | switch c => exact trace_switch_sound h h0 (hlb c.lb (by simp [handled])) ht
  | fn c =>
    exact trace_fn_sound h h0 (hlb c.lb1 (by simp [handled])) (hlb c.lb2 (by simp [handled])) ht
  | exploit c => exact trace_exploit_sound h h0 (hlb c.lb (by simp [handled])) ht
  | label op =>
    exact label_step_sound h (hop op (by simp [labelOps])) (hoff op (by simp [labelOps])) ht
  | lenLabel offset size =>
    obtain rfl := Option.some.inj ht
    exact new_len_label_sound h offset size

theorem run_sound {events : List Event} {st : Tracked}
    (h : replay track Admitted newTracked events = some st) : Sound st.labels st.tracker := by
  have hreach := replay_reachable events newTracked st h
  have hinv : Sound st.labels st.tracker ∧ 0 ∈ st.labels := by
    refine reachable_invariant (P := fun st : Tracked => Sound st.labels st.tracker ∧ 0 ∈ st.labels)
      ⟨new_tracked_sound, List.mem_singleton.mpr rfl⟩ ?_ hreach
    intro st e st' hst ha hs
    exact track_sound hst.1 hst.2 ha hs
  exact hinv.1

theorem record_label {m : Meaning} (h : Logged labels t m) {c : CondStmtBase}
    (hc : c ∈ t.data.condList) (hop : c.op ≠ COND_LEN_OP) {lb : ℕ} (hlb : lb ∈ [c.lb1, c.lb2]) :
    IsLabel t.tagSet m (getNormalLabel lb) := by
  by_cases h0 : lb = 0
  · subst h0
    exact ⟨h.inv.size_pos, Or.inl rfl⟩
  · obtain ⟨segs, hsegs⟩ := Option.ne_none_iff_exists'.mp (h.keyed c hc hop lb hlb h0)
    exact h.issued _ (h.stored lb segs hsegs).1

theorem record_cover {m : Meaning} (h : Logged labels t m) {c : CondStmtBase}
    (hc : c ∈ t.data.condList) (hop : c.op ≠ COND_LEN_OP) {lb : ℕ} (hlb : lb ∈ [c.lb1, c.lb2]) :
    cover (tagsOf t.data.tags lb) = m.bits (getNormalLabel lb) := by
  by_cases h0 : lb = 0
  · subst h0
    rw [tagsOf, h.root, show getNormalLabel 0 = 0 from rfl, h.inv.root_bits]
    exact cover_nil
  · obtain ⟨segs, hsegs⟩ := Option.ne_none_iff_exists'.mp (h.keyed c hc hop lb hlb h0)
    rw [tagsOf, hsegs]
    exact (h.stored lb segs hsegs).2

/-- At the end of every run the log holds, for every label of a record that is
not a length, segments that cover what `find` returns then, and every parsed
condition has the bytes of its two labels. -/
theorem logged_tags_stable {events : List Event} {st : Tracked}
    (h : replay track Admitted newTracked events = some st) :
    (∀ c ∈ st.tracker.data.condList, c.op ≠ COND_LEN_OP → ∀ lb ∈ [c.lb1, c.lb2], lb ≠ 0 →
      ∃ segs, st.tracker.data.tags lb = some segs ∧
        Ensures atLimit (find st.tracker.tagSet (getNormalLabel lb)) fun f =>
          cover segs = cover f.2) ∧
    ∀ enableExploitation, ∀ cond ∈ readAndParse st.tracker.data enableExploitation,
      cond.base.op ≠ COND_LEN_OP →
      Ensures atLimit (find st.tracker.tagSet (getNormalLabel cond.base.lb1)) fun f1 =>
        Ensures atLimit (find st.tracker.tagSet (getNormalLabel cond.base.lb2)) fun f2 =>
          cover cond.offsets ∪ cover cond.offsetsOpt = cover f1.2 ∪ cover f2.2 := by
  obtain ⟨m, hm⟩ := run_sound h
  constructor
  · intro c hc hop lb hlb hne
    obtain ⟨segs, hsegs⟩ := Option.ne_none_iff_exists'.mp (hm.keyed c hc hop lb hlb hne)
    obtain ⟨hl, hcover⟩ := hm.stored lb segs hsegs
    refine ⟨segs, hsegs, ?_⟩
    refine ensures_mono (find_spec hm.inv (hm.issued _ hl)) ?_
    rintro f ⟨-, -, -, hf⟩
    rw [hcover, hf le_rfl]
  · intro enable cond hcond hop
    obtain ⟨⟨base, i⟩, hmem, rfl⟩ := List.mem_map.mp hcond
    rw [parse_cond_base] at hop ⊢
    have hbase : base ∈ st.tracker.data.condList :=
      (List.mem_zipIdx' (List.mem_filter.mp hmem).1).2 ▸ List.getElem_mem _
    have h1 : base.lb1 ∈ [base.lb1, base.lb2] := by simp
    have h2 : base.lb2 ∈ [base.lb1, base.lb2] := by simp
    refine ensures_mono (find_spec hm.inv (record_label hm hbase hop h1)) ?_
    rintro f1 ⟨-, -, -, hf1⟩
    refine ensures_mono (find_spec hm.inv (record_label hm hbase hop h2)) ?_
    rintro f2 ⟨-, -, -, hf2⟩
    rw [hf1 le_rfl, hf2 le_rfl, ← record_cover hm hbase hop h1, ← record_cover hm hbase hop h2]
    exact parse_cond_cover hm.root i hop

def pairCmp (lb size : ℕ) : CmpCall := ⟨1, 0, 0, size, COND_ICMP_EQ_OP, 0, 0, 0, lb, 0⟩

def pairEvents (offset : ℕ) : List Event :=
  [.label (.insert offset), .label (.insert (offset+1)), .label (.combineN [2, 4] true),
    .cmp (pairCmp 5 2), .label (.combineAnd 5)]

def pairRun : Tracked := (replay track Admitted newTracked (pairEvents 3)).getD newTracked

theorem logged_tags_stable_pair :
    replay track Admitted newTracked (pairEvents 3) = some pairRun ∧
    (pairRun.tracker.data.condList.map fun c => (c.op, c.lb1, c.lb2)) =
      [(COND_ICMP_EQ_OP, 5, 0)] ∧
    ∀ c ∈ pairRun.tracker.data.condList, c.op ≠ COND_LEN_OP → ∀ lb ∈ [c.lb1, c.lb2], lb ≠ 0 →
      ∃ segs, pairRun.tracker.data.tags lb = some segs ∧
        Ensures atLimit (find pairRun.tracker.tagSet (getNormalLabel lb)) fun f =>
          cover segs = cover f.2 := by
  have hrun : replay track Admitted newTracked (pairEvents 3) = some pairRun :=
    replay_get_d (by decide +kernel) newTracked
  exact ⟨hrun, by decide +kernel, (logged_tags_stable hrun).1⟩

def farRun : Tracked := (replay track Valid newTracked (pairEvents (MAX_LB-1))).getD newTracked

/-- `find` leaves out a segment that starts at `MAX_LB`: the pair is logged with
both bytes while it is grouped and keeps only the first one once it is split. -/
theorem stored_segments_drift :
    replay track Valid newTracked (pairEvents (MAX_LB-1)) = some farRun ∧
    (farRun.tracker.data.condList.map fun c => (c.op, c.lb1, c.lb2)) =
      [(COND_ICMP_EQ_OP, 5, 0)] ∧
    farRun.tracker.data.tags 5 = some [⟨false, MAX_LB-1, MAX_LB+1⟩] ∧
    (find farRun.tracker.tagSet (getNormalLabel 5)).map Prod.snd =
      .ok [⟨false, MAX_LB-1, MAX_LB⟩] ∧
    cover [⟨false, MAX_LB-1, MAX_LB+1⟩] ≠ cover [⟨false, MAX_LB-1, MAX_LB⟩] := by
  refine ⟨replay_get_d (by decide +kernel) newTracked, by decide +kernel, by decide +kernel,
    by decide +kernel, ?_⟩
  intro heq
  have hmem : MAX_LB ∈ cover [⟨false, MAX_LB-1, MAX_LB⟩] := by
    rw [← heq]
    exact ⟨_, List.mem_singleton.mpr rfl, by decide, by decide⟩
  obtain ⟨t, ht, -, hlt⟩ := hmem
  obtain rfl := List.mem_singleton.mp ht
  exact lt_irrefl _ hlt

end Parmesan.TrackTags
