import Parmesan.Execution
import Parmesan.TagSetCombine

/-!
# Sessions with a label set

A session is a label set with the calls made on it so far. The labels a call
may use are those returned before.
-/

set_option autoImplicit false

namespace Parmesan.TagSetRun
open Parmesan.TagSetModel Parmesan.TagSetInvariant Parmesan.TagSetInsert Parmesan.TagSetShape
open Parmesan.TagSetCanonical Parmesan.TagSetChain Parmesan.TagSetCombine
open Parmesan.Outcome Parmesan.Execution

inductive Op where
  | insert (offset : ℕ)
  | combine (l1 l2 : ℕ)
  | combineN (lbs : List ℕ) (infer : Bool)
  | inferShape2 (lb len : ℕ)
  | setSign (lb : ℕ)
  | combineAnd (lb : ℕ)
  | splitAndOp (lb : ℕ)
  | find (lb : ℕ)
  deriving DecidableEq, Repr

def opLabels : Op → List ℕ
  | .insert _ => []
  | .combine l1 l2 => [l1, l2]
  | .combineN lbs _ => lbs
  | .inferShape2 lb _ => [lb]
  | .setSign lb => [lb]
  | .combineAnd lb => [lb]
  | .splitAndOp lb => [lb]
  | .find lb => [lb]

def opOffset : Op → ℕ
  | .insert offset => offset
  | _ => 0

def issue (r : Outcome (TagSet × ℕ)) : Outcome (TagSet × List ℕ) := do
  let (s, lb) ← r
  .ok (s, [lb])

def step (s : TagSet) : Op → Outcome (TagSet × List ℕ)
  | .insert offset => issue (TagSetModel.insert s offset)
  | .combine l1 l2 => issue (combine s l1 l2)
  | .combineN lbs infer => issue (combineN s lbs infer)
  | .inferShape2 lb len => .ok (inferShape2 s lb len, [])
  | .setSign lb => .ok (setSign s lb, [])
  | .combineAnd lb => .ok (combineAnd s lb, [])
  | .splitAndOp lb => issue (splitAndOp s lb)
  | .find lb => do
    let (s, _) ← find s lb
    .ok (s, [])

structure Call where
  op : Op
  out : List ℕ
  deriving DecidableEq, Repr

structure Session where
  tags : TagSet
  calls : List Call
  deriving DecidableEq, Repr

def newSession : Session := ⟨newTagSet, []⟩

def issued (σ : Session) : List ℕ := ROOT :: σ.calls.flatMap Call.out

def Admitted (σ : Session) (op : Op) : Prop :=
  (∀ l ∈ opLabels op, l ∈ issued σ) ∧ opOffset op < MAX_LB

instance (σ : Session) (op : Op) : Decidable (Admitted σ op) :=
  inferInstanceAs (Decidable (_ ∧ _))

/-- A panic ends the session. -/
def call (σ : Session) (op : Op) : Option Session :=
  match step σ.tags op with
  | .ok (s, out) => some ⟨s, ⟨op, out⟩::σ.calls⟩
  | .error _ => none

def Reach : Session → Prop := Reachable call Admitted newSession

variable {top : ℕ} {s : TagSet} {m : Meaning}

theorem combine_rest_spec (rest : List ℕ) : ∀ (s : TagSet) (m : Meaning) (cur : ℕ), Inv top s m →
    IsLabel s m cur → (∀ l ∈ rest, IsLabel s m l) →
    Ensures atLimit (combineRest s cur rest) fun r => ∃ m', Inv top r.1 m' ∧ Kept s m r.1 m' ∧
      IsLabel r.1 m' r.2 ∧ (UnitRuns s m → UnitRuns r.1 m') := by
  induction rest with
  | nil =>
    intro s m cur h hcur _
    exact ensures_ok _ _ _ ⟨m, h, kept_refl s m, hcur, fun hu => hu⟩
  | cons next rest ih =>
    intro s m cur h hcur hrest
    refine ensures_bind (combine_spec h hcur (hrest next List.mem_cons_self)) ?_
    rintro ⟨s1, r⟩ ⟨m1, (hc : Combined top s m cur next s1 m1 r)⟩
    have hkeep : ∀ l ∈ rest, IsLabel s1 m1 l := fun l hl =>
      label_kept hc.kept (hrest l (List.mem_cons_of_mem next hl))
    refine ensures_mono (ih s1 m1 r hc.inv hc.label hkeep) ?_
    rintro ⟨s2, r2⟩ ⟨m2, hinv, hkept, hlabel, hunit⟩
    exact ⟨m2, hinv, kept_trans hc.kept hkept, hlabel, fun hu => hunit (hc.units hu)⟩

theorem mem_of_drop_roots {lbs : List ℕ} {l : ℕ} (h : l ∈ lbs.dropWhile (· = ROOT)) : l ∈ lbs :=
  (List.dropWhile_sublist _).mem h

theorem drop_roots_head {lbs rest : List ℕ} {cur : ℕ}
    (h : lbs.dropWhile (· = ROOT) = cur::rest) : cur ≠ 0 := by
  have hne : lbs.dropWhile (· = ROOT) ≠ [] := by simp [h]
  have hnot := List.head_dropWhile_not (· = ROOT) hne
  simp only [h, List.head_cons, decide_eq_false_iff_not] at hnot
  exact hnot

theorem last_mem {lbs : List ℕ} {cur : ℕ} {rest : List ℕ}
    (h : lbs.dropWhile (· = ROOT) = cur::rest) : lbs.getLastD ROOT ∈ lbs := by
  cases lbs with
  | nil => simp at h
  | cons l lbs =>
    rw [List.getLastD_eq_getLast?, List.getLast?_eq_some_getLast (List.cons_ne_nil l lbs)]
    exact List.getLast_mem _

/-- `infer_shape` groups the vector: the test on the first tainted label, the
last label and the length succeeds. -/
def Shaped (s : TagSet) (lbs : List ℕ) : Prop :=
  1 < (lbs.dropWhile (· = ROOT)).length ∧
    Groups s ((lbs.dropWhile (· = ROOT)).headD ROOT) (lbs.getLastD ROOT) lbs.length

instance (s : TagSet) (lbs : List ℕ) : Decidable (Shaped s lbs) :=
  inferInstanceAs (Decidable (_ ∧ _))

def shapeStart (s : TagSet) (lbs : List ℕ) : ℕ :=
  (node s ((lbs.dropWhile (· = ROOT)).headD ROOT)).seg.start

theorem combine_n_unshaped {lbs : List ℕ} (h : ¬ Shaped s lbs) :
    combineN s lbs true = combineN s lbs false := by
  unfold combineN
  split
  · rfl
  · rfl
  · rename_i cur next rest heq
    have hg : ¬ Groups s cur (lbs.getLastD ROOT) lbs.length := fun hg =>
      h ⟨by simp [heq], by simpa [heq] using hg⟩
    simp only [inferIf, if_true, infer_shape_declines s hg]
    rfl

theorem combine_n_shaped (h : Inv top s m) {lbs : List ℕ} (hl : ∀ l ∈ lbs, IsLabel s m l)
    (hs : Shaped s lbs) :
    Ensures atLimit (combineN s lbs true) fun r => ∃ m', Inv top r.1 m' ∧ Kept s m r.1 m' ∧
      IsLabel r.1 m' r.2 ∧
      m'.bits r.2 = Set.Ico (shapeStart s lbs) (shapeStart s lbs+lbs.length) := by
  unfold Shaped at hs
  unfold combineN shapeStart
  split
  · rename_i heq
    simp [heq] at hs
  · rename_i cur heq
    simp [heq] at hs
  · rename_i cur next rest heq
    simp only [heq, List.headD_cons] at hs
    have hcur := hl cur (mem_of_drop_roots (by rw [heq]; exact List.mem_cons_self))
    refine ensures_bind (infer_shape_groups h hcur (drop_roots_head heq) (hl _ (last_mem heq)) hs.2) ?_
    rintro ⟨s', shape⟩ ⟨lb, m', (rfl : shape = some lb), hinv, hkept, hlabel, -, hbits⟩
    simp only [heq, List.headD_cons]
    exact ensures_ok _ _ _ ⟨m', hinv, hkept, hlabel, hbits⟩

theorem combine_n_plain (h : Inv top s m) {lbs : List ℕ} (hl : ∀ l ∈ lbs, IsLabel s m l) :
    Ensures atLimit (combineN s lbs false) fun r => ∃ m', Inv top r.1 m' ∧ Kept s m r.1 m' ∧
      IsLabel r.1 m' r.2 ∧ (UnitRuns s m → UnitRuns r.1 m') := by
  unfold combineN
  have hdrop := fun l hm => hl l (mem_of_drop_roots (l := l) hm)
  split
  · exact ensures_ok _ _ _ ⟨m, h, kept_refl s m, ⟨h.size_pos, Or.inl rfl⟩, fun hu => hu⟩
  · rename_i cur heq
    rw [heq] at hdrop
    exact ensures_ok _ _ _ ⟨m, h, kept_refl s m, hdrop cur List.mem_cons_self, fun hu => hu⟩
  · rename_i cur next rest heq
    rw [heq] at hdrop
    exact combine_rest_spec (next::rest) s m cur h (hdrop cur List.mem_cons_self)
      fun l hm => hdrop l (List.mem_cons_of_mem cur hm)

theorem combine_n_spec (h : Inv top s m) {lbs : List ℕ} (hl : ∀ l ∈ lbs, IsLabel s m l) (infer : Bool) :
    Ensures atLimit (combineN s lbs infer) fun r => ∃ m', Inv top r.1 m' ∧ Kept s m r.1 m' ∧
      IsLabel r.1 m' r.2 ∧ (infer = false → UnitRuns s m → UnitRuns r.1 m') := by
  have hplain := ensures_mono (combine_n_plain h hl) fun r hr => by
    obtain ⟨m', hinv, hkept, hlabel, hunit⟩ := hr
    exact (⟨m', hinv, hkept, hlabel, fun _ => hunit⟩ : ∃ m', Inv top r.1 m' ∧ Kept s m r.1 m' ∧
      IsLabel r.1 m' r.2 ∧ (infer = false → UnitRuns s m → UnitRuns r.1 m'))
  cases infer with
  | false => exact hplain
  | true =>
    by_cases hs : Shaped s lbs
    · refine ensures_mono (combine_n_shaped h hl hs) ?_
      rintro ⟨s', r⟩ ⟨m', hinv, hkept, hlabel, -⟩
      exact ⟨m', hinv, hkept, hlabel, by simp⟩
    · rw [combine_n_unshaped hs]
      exact hplain

/-- What every call keeps: the invariant, the frame, and that it returns labels. -/
structure Stepped (top : ℕ) (s : TagSet) (m : Meaning) (s' : TagSet) (m' : Meaning)
    (out : List ℕ) : Prop where
  inv : Inv top s' m'
  kept : Kept s m s' m'
  labels : ∀ l ∈ out, IsLabel s' m' l

theorem issue_ensures {r : Outcome (TagSet × ℕ)} {P : TagSet × ℕ → Prop}
    {Q : TagSet × List ℕ → Prop} (h : Ensures atLimit r P)
    (hq : ∀ s' lb, P (s', lb) → Q (s', [lb])) : Ensures atLimit (issue r) Q := by
  refine ensures_bind h ?_
  rintro ⟨s', lb⟩ hr
  exact ensures_ok _ _ _ (hq s' lb hr)

theorem step_spec (h : Inv top s m) {op : Op} (hl : ∀ l ∈ opLabels op, IsLabel s m l)
    (ho : opOffset op < top) :
    Ensures atLimit (step s op) fun r => ∃ m', Stepped top s m r.1 m' r.2 := by
  cases op with
  | insert offset =>
    refine issue_ensures (insert_spec h ho) ?_
    rintro s' lb ⟨m', hins, hone, -⟩
    exact ⟨m', hins.inv, hins.kept, by simpa using ⟨hins.lt, Or.inr hone⟩⟩
  | combine l1 l2 =>
    refine issue_ensures (combine_spec h (hl l1 (by simp [opLabels])) (hl l2 (by simp [opLabels]))) ?_
    rintro s' lb ⟨m', hc⟩
    exact ⟨m', hc.inv, hc.kept, by simpa using hc.label⟩
  | combineN lbs infer =>
    refine issue_ensures (combine_n_spec h hl infer) ?_
    rintro s' lb ⟨m', hinv, hkept, hlabel, -⟩
    exact ⟨m', hinv, hkept, by simpa using hlabel⟩
  | inferShape2 lb len =>
    obtain ⟨hinv, hkept⟩ := infer_shape2_inv h (hl lb (by simp [opLabels])) len
    exact ensures_ok _ _ _ ⟨m, hinv, hkept, by simp⟩
  | setSign lb =>
    obtain ⟨hinv, hkept⟩ := set_sign_inv h lb
    exact ensures_ok _ _ _ ⟨m, hinv, hkept, by simp⟩
  | combineAnd lb =>
    obtain ⟨hinv, hkept⟩ := combine_and_inv h lb
    exact ensures_ok _ _ _ ⟨m, hinv, hkept, by simp⟩
  | splitAndOp lb =>
    have hlb := hl lb (by simp [opLabels])
    refine ensures_bind (split_and_op_spec h hlb) ?_
    rintro ⟨s', r⟩ ⟨(rfl : r = lb), m', (hinv : Inv top s' m'), (hkept : Kept s m s' m')⟩
    exact ensures_ok _ _ _ ⟨m', hinv, hkept, by simpa using label_kept hkept hlb⟩
  | find lb =>
    refine ensures_bind (find_spec h (hl lb (by simp [opLabels]))) ?_
    rintro ⟨s', tags⟩ ⟨m', (hinv : Inv top s' m'), (hkept : Kept s m s' m'), -⟩
    exact ensures_ok _ _ _ ⟨m', hinv, hkept, by simp⟩

/-- A session carries a meaning for the labels it has issued. -/
def Sound (top : ℕ) (σ : Session) : Prop :=
  ∃ m, Inv top σ.tags m ∧ ∀ l ∈ issued σ, IsLabel σ.tags m l

theorem new_session_sound (top : ℕ) : Sound top newSession := by
  refine ⟨⟨fun _ => ∅, fun _ => false⟩, ?_, ?_⟩
  · have h0 : ∀ i, node newTagSet i = newTagNode ROOT 0 0 := by
      intro i
      cases i with
      | zero => rfl
      | succ i => simp [node, newTagSet]
    have hs : size newTagSet = 1 := rfl
    constructor <;> simp [newSession, h0, hs, newTagNode, ROOT]
  · intro l hl
    obtain rfl : l = 0 := by simpa [issued, newSession, ROOT] using hl
    exact ⟨by decide, Or.inl rfl⟩

theorem call_cases {σ τ : Session} {op : Op} (h : call σ op = some τ) :
    ∃ s out, step σ.tags op = .ok (s, out) ∧ τ = ⟨s, ⟨op, out⟩::σ.calls⟩ := by
  unfold call at h
  split at h
  · rename_i s out heq
    exact ⟨s, out, heq, (Option.some.inj h).symm⟩
  · cases h

theorem issued_call (σ : Session) (s : TagSet) (op : Op) (out : List ℕ) (l : ℕ) :
    l ∈ issued ⟨s, ⟨op, out⟩::σ.calls⟩ ↔ l ∈ out ∨ l ∈ issued σ := by
  simp only [issued, List.flatMap_cons, List.mem_cons, List.mem_append]
  tauto

theorem call_sound {σ τ : Session} {op : Op} (h : Sound top σ)
    (hl : ∀ l ∈ opLabels op, l ∈ issued σ) (ho : opOffset op < top) (hc : call σ op = some τ) :
    Sound top τ := by
  obtain ⟨m, hinv, hlabels⟩ := h
  obtain ⟨s, out, hstep, rfl⟩ := call_cases hc
  have hspec := step_spec hinv (fun l hmem => hlabels l (hl l hmem)) ho
  obtain ⟨m', hs⟩ := ensures_value hspec hstep
  refine ⟨m', hs.inv, ?_⟩
  intro l hl
  rcases (issued_call σ s op out l).mp hl with hout | hold
  · exact hs.labels l hout
  · exact label_kept hs.kept (hlabels l hold)

theorem reach_sound {σ : Session} (h : Reach σ) : Sound MAX_LB σ :=
  reachable_invariant (new_session_sound MAX_LB)
    (fun _ _ _ hs ha hc => call_sound hs ha.1 ha.2 hc) h

/-- In every session a fresh offset is labelled by itself, and `combine` returns
a label for no more than the union, for all of it exactly when no run clashes.
Every call returns, or stops at the node limit. -/
theorem combine_union_iff {σ : Session} (hr : Reach σ) :
    (∀ offset < MAX_LB, Ensures atLimit (TagSetModel.insert σ.tags offset) fun r =>
      Ensures atLimit (find r.1 r.2) fun f => cover f.2 = {offset}) ∧
    (∀ l1 ∈ issued σ, ∀ l2 ∈ issued σ, Ensures atLimit (combine σ.tags l1 l2) fun r =>
      Ensures atLimit (find σ.tags l1) fun f1 => Ensures atLimit (find σ.tags l2) fun f2 =>
      Ensures atLimit (find r.1 r.2) fun f =>
        cover f.2 ⊆ cover f1.2 ∪ cover f2.2 ∧
        (cover f.2 = cover f1.2 ∪ cover f2.2 ↔ ¬ Clash σ.tags l1 l2)) := by
  obtain ⟨m, hinv, hlabels⟩ := reach_sound hr
  constructor
  · intro offset ho
    refine ensures_mono (insert_spec hinv ho) ?_
    rintro ⟨s', r⟩ ⟨m', hins, hone, -⟩
    refine ensures_mono (find_spec hins.inv ⟨hins.lt, Or.inr hone⟩) ?_
    rintro f ⟨-, -, -, hcover⟩
    rw [hcover le_rfl, hins.bits]
  · intro l1 hl1 l2 hl2
    refine ensures_mono (combine_spec hinv (hlabels l1 hl1) (hlabels l2 hl2)) ?_
    rintro ⟨s', r⟩ ⟨m', hc⟩
    refine ensures_mono (find_spec hinv (hlabels l1 hl1)) ?_
    rintro f1 ⟨-, -, -, hcover1⟩
    refine ensures_mono (find_spec hinv (hlabels l2 hl2)) ?_
    rintro f2 ⟨-, -, -, hcover2⟩
    refine ensures_mono (find_spec hc.inv hc.label) ?_
    rintro f ⟨-, -, -, hcover⟩
    rw [hcover1 le_rfl, hcover2 le_rfl, hcover le_rfl]
    exact ⟨hc.subset, hc.union rfl⟩

/-- Offsets 0, 1, 2 in one label and a grouped `[2, 4)` in a larger one. -/
def clashOps : List Op :=
  [.insert 0, .insert 1, .insert 2, .combineN [1, 3, 5] false, .insert 3, .combineN [5, 9] true]

def clashSession : Session := (replay call Admitted newSession clashOps).getD newSession

theorem clash_session_reach : Reach clashSession :=
  replay_reachable clashOps _ _ (by decide +kernel)

theorem combine_union_iff_units : 1 ∈ issued clashSession ∧ 3 ∈ issued clashSession ∧
    ¬ Clash clashSession.tags 1 3 ∧
    Ensures atLimit (combine clashSession.tags 1 3) fun r =>
      Ensures atLimit (find clashSession.tags 1) fun f1 =>
      Ensures atLimit (find clashSession.tags 3) fun f2 =>
      Ensures atLimit (find r.1 r.2) fun f =>
        cover f.2 ⊆ cover f1.2 ∪ cover f2.2 ∧
        (cover f.2 = cover f1.2 ∪ cover f2.2 ↔ ¬ Clash clashSession.tags 1 3) :=
  ⟨by decide +kernel, by decide +kernel, by decide +kernel,
    (combine_union_iff clash_session_reach).2 1 (by decide +kernel) 3 (by decide +kernel)⟩

/-- The run `[2, 4)` of label 10 starts where the last run of label 7 does and
is dropped with offset 3. -/
theorem combine_loses_offset : Reach clashSession ∧
    7 ∈ issued clashSession ∧ 10 ∈ issued clashSession ∧
    combine clashSession.tags 7 10 = .ok (clashSession.tags, 7) ∧
    find clashSession.tags 7 =
      .ok (clashSession.tags, [⟨false, 0, 1⟩, ⟨false, 1, 2⟩, ⟨false, 2, 3⟩]) ∧
    find clashSession.tags 10 = .ok (clashSession.tags, [⟨false, 2, 4⟩]) ∧
    cover [⟨false, 0, 1⟩, ⟨false, 1, 2⟩, ⟨false, 2, 3⟩] ≠
      cover [⟨false, 0, 1⟩, ⟨false, 1, 2⟩, ⟨false, 2, 3⟩] ∪ cover [⟨false, 2, 4⟩] := by
  refine ⟨clash_session_reach, by decide +kernel, by decide +kernel, by decide +kernel,
    by decide +kernel, by decide +kernel, ?_⟩
  intro heq
  have hmem : (3 : ℕ) ∈ cover [⟨false, 0, 1⟩, ⟨false, 1, 2⟩, ⟨false, 2, 3⟩] := by
    rw [heq]
    exact Or.inr (by simp [cover])
  simp [cover] at hmem

/-- No call changes what an issued label denotes. -/
theorem issued_label_stable {σ : Session} (hr : Reach σ) {l : ℕ} (hl : l ∈ issued σ) {op : Op}
    (ha : Admitted σ op) :
    Ensures atLimit (step σ.tags op) fun r => Ensures atLimit (find σ.tags l) fun f =>
      Ensures atLimit (find r.1 l) fun f' => cover f'.2 = cover f.2 := by
  obtain ⟨m, hinv, hlabels⟩ := reach_sound hr
  refine ensures_mono (step_spec hinv (fun l hl => hlabels l (ha.1 l hl)) ha.2) ?_
  rintro ⟨s', out⟩ ⟨m', hs⟩
  refine ensures_mono (find_spec hinv (hlabels l hl)) ?_
  rintro f ⟨-, -, -, hcover⟩
  refine ensures_mono (find_spec hs.inv (label_kept hs.kept (hlabels l hl))) ?_
  rintro f' ⟨-, -, -, hcover'⟩
  rw [hcover' le_rfl, hcover le_rfl]
  exact hs.kept.bits l (hlabels l hl).1

theorem issued_label_stable_split : 7 ∈ issued clashSession ∧
    Admitted clashSession (.combineN [1, 3] true) ∧
    Ensures atLimit (step clashSession.tags (.combineN [1, 3] true)) fun r =>
      Ensures atLimit (find clashSession.tags 7) fun f =>
      Ensures atLimit (find r.1 7) fun f' => cover f'.2 = cover f.2 :=
  ⟨by decide +kernel, by decide +kernel, issued_label_stable clash_session_reach
    (by decide +kernel) (by decide +kernel)⟩

theorem combine_rest_single (rest : List ℕ) : ∀ (s : TagSet) (m : Meaning) (cur : ℕ), Inv MAX_LB s m →
    IsLabel s m cur → (∀ l ∈ rest, IsLabel s m l ∧ (m.bits l).Subsingleton) →
    Ensures atLimit (combineRest s cur rest) fun r => ∃ m', Inv MAX_LB r.1 m' ∧ Kept s m r.1 m' ∧
      IsLabel r.1 m' r.2 ∧ m'.bits r.2 = m.bits cur ∪ {y | ∃ l ∈ rest, y ∈ m.bits l} := by
  induction rest with
  | nil =>
    intro s m cur h hcur _
    exact ensures_ok _ _ _ ⟨m, h, kept_refl s m, hcur, by simp⟩
  | cons next rest ih =>
    intro s m cur h hcur hrest
    obtain ⟨hnext, hsub⟩ := hrest next List.mem_cons_self
    refine ensures_bind (combine_spec h hcur hnext) ?_
    rintro ⟨s1, r⟩ ⟨m1, (hc : Combined MAX_LB s m cur next s1 m1 r)⟩
    have hkeep : ∀ l ∈ rest, IsLabel s1 m1 l ∧ (m1.bits l).Subsingleton := by
      intro l hl
      obtain ⟨hlabel, hsingle⟩ := hrest l (List.mem_cons_of_mem next hl)
      rw [hc.kept.bits l hlabel.1]
      exact ⟨label_kept hc.kept hlabel, hsingle⟩
    refine ensures_mono (ih s1 m1 r hc.inv hc.label hkeep) ?_
    rintro ⟨s2, r2⟩ ⟨m2, hinv, hkept, hlabel, hbits⟩
    refine ⟨m2, hinv, kept_trans hc.kept hkept, hlabel, ?_⟩
    rw [hbits, (hc.union rfl).mpr (clash_single h hcur hnext hsub), Set.union_assoc]
    congr 1
    ext y
    simp only [Set.mem_union, Set.mem_ofPred_eq, List.mem_cons, exists_eq_or_imp]
    apply or_congr Iff.rfl
    apply exists_congr
    intro l
    apply and_congr_right
    intro hl
    rw [hc.kept.bits l (hrest l (List.mem_cons_of_mem next hl)).1.1]

def byteOffsets (s : TagSet) (lbs : List ℕ) : Set ℕ :=
  {y | ∃ l ∈ lbs, l ≠ ROOT ∧ (node s l).seg.start = y}

def SingleBytes (s : TagSet) (lbs : List ℕ) : Prop :=
  ∀ l ∈ lbs, l = ROOT ∨ (node s l).parent = ROOT

instance (s : TagSet) (lbs : List ℕ) : Decidable (SingleBytes s lbs) :=
  inferInstanceAs (Decidable (∀ l ∈ lbs, _))

theorem single_byte_bits (h : Inv MAX_LB s m) {l : ℕ} (hl : IsLabel s m l)
    (hs : l = ROOT ∨ (node s l).parent = ROOT) :
    m.bits l = {y | l ≠ ROOT ∧ (node s l).seg.start = y} := by
  by_cases h0 : l = 0
  · subst h0
    simp [h.root_bits, ROOT]
  · rw [(root_label_bits h hl h0 (hs.resolve_left h0)).2]
    ext y
    simp [ROOT, h0, eq_comm]

theorem drop_roots_mem {lbs : List ℕ} {l : ℕ} (hl : l ∈ lbs) (h0 : l ≠ ROOT) :
    l ∈ lbs.dropWhile (· = ROOT) := by
  induction lbs with
  | nil => simp at hl
  | cons a lbs ih =>
    by_cases ha : a = ROOT
    · rw [List.dropWhile_cons_of_pos (by simpa using ha)]
      rcases List.mem_cons.mp hl with rfl | hl
      · exact absurd ha h0
      · exact ih hl
    · rw [List.dropWhile_cons_of_neg (by simpa using ha)]
      exact hl

theorem combine_n_single (h : Inv MAX_LB s m) {lbs : List ℕ} (hl : ∀ l ∈ lbs, IsLabel s m l)
    (hs : SingleBytes s lbs) :
    Ensures atLimit (combineN s lbs false) fun r => ∃ m', Inv MAX_LB r.1 m' ∧ Kept s m r.1 m' ∧
      IsLabel r.1 m' r.2 ∧ m'.bits r.2 = byteOffsets s lbs := by
  have hbits := fun l hm => single_byte_bits h (hl l hm) (hs l hm)
  have hdrop : byteOffsets s lbs = {y | ∃ l ∈ lbs.dropWhile (· = ROOT), y ∈ m.bits l} := by
    ext y
    constructor
    · rintro ⟨l, hm, h0, hy⟩
      exact ⟨l, drop_roots_mem hm h0, by rw [hbits l hm]; exact ⟨h0, hy⟩⟩
    · rintro ⟨l, hm, hy⟩
      rw [hbits l (mem_of_drop_roots hm)] at hy
      exact ⟨l, mem_of_drop_roots hm, hy⟩
  have hmem : ∀ l ∈ lbs.dropWhile (· = ROOT), l ∈ lbs := fun l hm => mem_of_drop_roots hm
  rw [hdrop]
  unfold combineN
  split
  · rename_i heq
    exact ensures_ok _ _ _ ⟨m, h, kept_refl s m, ⟨h.size_pos, Or.inl rfl⟩,
      by rw [heq, ROOT, h.root_bits]; simp⟩
  · rename_i cur heq
    rw [heq] at hmem
    exact ensures_ok _ _ _ ⟨m, h, kept_refl s m, hl cur (hmem cur List.mem_cons_self),
      by simp [heq]⟩
  · rename_i cur next rest heq
    rw [heq] at hmem
    have hrest : ∀ l ∈ next::rest, IsLabel s m l ∧ (m.bits l).Subsingleton := by
      intro l hm
      have hlm := hmem l (List.mem_cons_of_mem cur hm)
      refine ⟨hl l hlm, ?_⟩
      rw [hbits l hlm]
      rintro a ⟨-, ha⟩ b ⟨-, hb⟩
      exact ha.symm.trans hb
    refine ensures_mono (combine_rest_single (next::rest) s m cur h
      (hl cur (hmem cur List.mem_cons_self)) hrest) ?_
    rintro ⟨s', r⟩ ⟨m', hinv, hkept, hlabel, hb⟩
    refine ⟨m', hinv, hkept, hlabel, ?_⟩
    rw [hb, heq]
    ext y
    simp

/-- Shape inference leaves the computation alone unless it groups the vector.
A grouped vector of `n` bytes denotes `n` consecutive offsets whatever its
other labels are; on single-byte labels this is the plain union exactly when
they label these offsets. -/
theorem combine_n_shape {σ : Session} (hr : Reach σ) {lbs : List ℕ}
    (hl : ∀ l ∈ lbs, l ∈ issued σ) :
    (¬ Shaped σ.tags lbs → combineN σ.tags lbs true = combineN σ.tags lbs false) ∧
    (Shaped σ.tags lbs → Ensures atLimit (combineN σ.tags lbs true) fun r =>
      Ensures atLimit (find r.1 r.2) fun f =>
        cover f.2 = Set.Ico (shapeStart σ.tags lbs) (shapeStart σ.tags lbs+lbs.length) ∧
        (SingleBytes σ.tags lbs → Ensures atLimit (combineN σ.tags lbs false) fun r' =>
          Ensures atLimit (find r'.1 r'.2) fun f' => (cover f'.2 = cover f.2 ↔
            byteOffsets σ.tags lbs =
              Set.Ico (shapeStart σ.tags lbs) (shapeStart σ.tags lbs+lbs.length)))) := by
  obtain ⟨m, hinv, hlabels⟩ := reach_sound hr
  have hls := fun l hm => hlabels l (hl l hm)
  refine ⟨combine_n_unshaped, ?_⟩
  intro hs
  refine ensures_mono (combine_n_shaped hinv hls hs) ?_
  rintro ⟨s1, r⟩ ⟨m1, (hinv1 : Inv MAX_LB s1 m1), -, hlabel, hbits⟩
  refine ensures_mono (find_spec hinv1 hlabel) ?_
  rintro f ⟨-, -, -, hcover⟩
  rw [hcover le_rfl]
  refine ⟨hbits, ?_⟩
  intro hsingle
  refine ensures_mono (combine_n_single hinv hls hsingle) ?_
  rintro ⟨s2, r'⟩ ⟨m2, (hinv2 : Inv MAX_LB s2 m2), -, hlabel2, hbits2⟩
  refine ensures_mono (find_spec hinv2 hlabel2) ?_
  rintro f' ⟨-, -, -, hcover2⟩
  rw [hcover2 le_rfl, hbits2, hbits]

theorem combine_n_shape_pair : Shaped clashSession.tags [5, 9] ∧
    SingleBytes clashSession.tags [5, 9] ∧
    Ensures atLimit (combineN clashSession.tags [5, 9] true) fun r =>
      Ensures atLimit (find r.1 r.2) fun f =>
        cover f.2 = Set.Ico (shapeStart clashSession.tags [5, 9])
          (shapeStart clashSession.tags [5, 9]+2) ∧
        (SingleBytes clashSession.tags [5, 9] →
          Ensures atLimit (combineN clashSession.tags [5, 9] false) fun r' =>
          Ensures atLimit (find r'.1 r'.2) fun f' => (cover f'.2 = cover f.2 ↔
            byteOffsets clashSession.tags [5, 9] =
              Set.Ico (shapeStart clashSession.tags [5, 9])
                (shapeStart clashSession.tags [5, 9]+2))) := by
  have hs : Shaped clashSession.tags [5, 9] := by decide +kernel
  exact ⟨hs, by decide +kernel, (combine_n_shape clash_session_reach (by decide +kernel)).2 hs⟩

def gapSession : Session :=
  (replay call Admitted newSession [.insert 0, .insert 3]).getD newSession

def segments (r : Outcome (TagSet × ℕ)) : Outcome (List TagSeg) := do
  let (s, lb) ← r
  let (_, tags) ← find s lb
  .ok tags

/-- Two tainted ends of a four-byte vector taint the bytes between. -/
theorem combine_n_shape_adds : Reach gapSession ∧ (∀ l ∈ [1, 0, 0, 3], l ∈ issued gapSession) ∧
    segments (combineN gapSession.tags [1, 0, 0, 3] true) = .ok [⟨false, 0, 4⟩] ∧
    segments (combineN gapSession.tags [1, 0, 0, 3] false) =
      .ok [⟨false, 0, 1⟩, ⟨false, 3, 4⟩] ∧
    cover [⟨false, 0, 4⟩] ≠ cover [⟨false, 0, 1⟩, ⟨false, 3, 4⟩] := by
  refine ⟨replay_reachable [.insert 0, .insert 3] _ _ (by decide +kernel), by decide +kernel,
    by decide +kernel, by decide +kernel, ?_⟩
  intro heq
  have hmem : (1 : ℕ) ∈ cover [⟨false, 0, 1⟩, ⟨false, 3, 4⟩] := by
    rw [← heq]
    simp [cover]
  simp [cover] at hmem

end Parmesan.TagSetRun
