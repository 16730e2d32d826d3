import Parmesan.TagSetRun

/-!
# The bound on labels

Only `new_node` adds a node, and it stops at `MAX_LB`. A label is the index of
a node, so that the 22 bits of a normal label hold every label issued.
-/

set_option autoImplicit false

namespace Parmesan.TagSetLimit
open Parmesan.TagSetModel Parmesan.TagSetInsert Parmesan.TagSetRun
open Parmesan.Outcome Parmesan.Execution

def Within (s : TagSet) : Prop := size s ≤ MAX_LB

def any (_ : Fault) : Prop := True

/-- What the call returns is a label set within the limit. -/
def Stays {α : Type} (r : Outcome (TagSet × α)) : Prop := Ensures any r fun r => Within r.1

theorem stays_bind {α β : Type} {r : Outcome (TagSet × α)}
    {f : TagSet × α → Outcome (TagSet × β)} (h : Stays r)
    (hf : ∀ s a, Within s → Stays (f (s, a))) : Stays (r >>= f) :=
  ensures_bind h fun r hr => hf r.1 r.2 hr

theorem modify_within {s : TagSet} (h : Within s) (lb : ℕ) (f : TagNode → TagNode) :
    Within (modifyNode s lb f) := by
  unfold Within
  rw [size_modify_node]
  exact h

theorem new_node_stays (s : TagSet) (parent start stop : ℕ) :
    Stays (newNode s parent start stop) := by
  unfold newNode
  split_ifs with hlt
  · show size (push s _) ≤ MAX_LB
    rw [size_push]
    omega
  · exact trivial

theorem insert_zeros_loop_stays (fuel : ℕ) : ∀ (s : TagSet) (cur n last : ℕ), Within s →
    Stays (insertNZerosLoop fuel s cur n last) := by
  induction fuel with
  | zero =>
    intro s cur n last h
    rw [insertNZerosLoop]
    split_ifs
    · exact h
    · exact trivial
  | succ fuel ih =>
    intro s cur n last h
    rw [insertNZerosLoop]
    simp only
    split_ifs
    · exact h
    · apply stays_bind (new_node_stays _ _ _ _)
      intro s' lb h'
      exact modify_within h' _ _
    · apply stays_bind (new_node_stays _ _ _ _)
      intro s' lb h'
      exact modify_within (modify_within (modify_within h' _ _) _ _) _ _
    · exact ih _ _ _ _ h

theorem insert_ones_loop_stays (fuel : ℕ) : ∀ (s : TagSet) (cur n last : ℕ), Within s →
    Stays (insertNOnesLoop fuel s cur n last) := by
  induction fuel with
  | zero =>
    intro s cur n last h
    rw [insertNOnesLoop]
    split_ifs
    · exact h
    · exact trivial
  | succ fuel ih =>
    intro s cur n last h
    rw [insertNOnesLoop]
    simp only
    split_ifs
    · exact h
    · apply stays_bind (new_node_stays _ _ _ _)
      intro s' lb h'
      exact modify_within h' _ _
    · apply stays_bind (new_node_stays _ _ _ _)
      intro s' lb h'
      exact modify_within (modify_within (modify_within (modify_within h' _ _) _ _) _ _) _ _
    · exact ih _ _ _ _ h

theorem insert_stays {s : TagSet} (h : Within s) (offset : ℕ) :
    Stays (TagSetModel.insert s offset) := by
  apply stays_bind (insert_zeros_loop_stays _ _ _ _ _ h)
  intro s' cur h'
  exact insert_ones_loop_stays _ _ _ _ _ h'

theorem split_loop_stays (fuel : ℕ) : ∀ (s : TagSet) (cur lb : ℕ), Within s →
    Ensures any (splitLoop fuel s cur lb) Within := by
  induction fuel with
  | zero =>
    intro s cur lb h
    rw [splitLoop]
    split_ifs
    · exact h
    · exact trivial
  | succ fuel ih =>
    intro s cur lb h
    rw [splitLoop]
    split_ifs
    · exact h
    · apply ensures_bind (insert_ones_loop_stays _ _ _ _ _ h)
      intro r hr
      exact ih _ _ _ hr

theorem split_and_op_stays {s : TagSet} (h : Within s) (lb : ℕ) : Stays (splitAndOp s lb) := by
  simp only [splitAndOp]
  split_ifs
  · apply ensures_bind (split_loop_stays _ _ _ _ h)
    intro s' h'
    exact modify_within h' _ _
  · exact modify_within h _ _
  · exact h

theorem combine_pop_stays (st : List ℕ) : ∀ (s : TagSet) (cur : ℕ), Within s →
    Stays (combinePop s cur st) := by
  induction st with
  | nil =>
    intro s cur h
    exact h
  | cons next st ih =>
    intro s cur h
    rw [combinePop]
    have hstep : Stays (combineStep s cur next) := by
      simp only [combineStep]
      split_ifs
      · exact insert_ones_loop_stays _ _ _ _ _ h
      · exact h
      · apply stays_bind (insert_zeros_loop_stays _ _ _ _ _ h)
        intro s' gap h'
        exact insert_ones_loop_stays _ _ _ _ _ h'
    apply stays_bind hstep
    intro s' cur' h'
    apply ih
    split_ifs
    · exact modify_within h' _ _
    · exact h'

theorem combine_stays {s : TagSet} (h : Within s) (l1 l2 : ℕ) : Stays (combine s l1 l2) := by
  unfold combine
  split_ifs
  · exact h
  · exact h
  · have hwalk : ∀ r : Outcome (ℕ × ℕ × List ℕ), Ensures any r fun _ => True := by
      intro r
      cases r with
      | ok a => exact trivial
      | error e => exact trivial
    apply ensures_bind (hwalk _)
    intro r _
    exact combine_pop_stays _ _ _ h

theorem combine_rest_stays (rest : List ℕ) : ∀ (s : TagSet) (cur : ℕ), Within s →
    Stays (combineRest s cur rest) := by
  induction rest with
  | nil =>
    intro s cur h
    exact h
  | cons next rest ih =>
    intro s cur h
    rw [combineRest]
    apply stays_bind (combine_stays h _ _)
    intro s' cur' h'
    exact ih _ _ h'

theorem infer_if_stays {s : TagSet} (h : Within s) (infer : Bool) (l1 l2 len : ℕ) :
    Stays (inferIf infer s l1 l2 len) := by
  unfold inferIf inferShape
  split_ifs
  · exact h
  · apply stays_bind (insert_ones_loop_stays _ _ _ _ _ h)
    intro s' cur h'
    exact modify_within h' _ _
  · exact h
  · exact h

theorem combine_n_stays {s : TagSet} (h : Within s) (lbs : List ℕ) (infer : Bool) :
    Stays (combineN s lbs infer) := by
  unfold combineN
  split
  · exact h
  · exact h
  · apply stays_bind (infer_if_stays h _ _ _ _)
    intro s' shape h'
    cases shape with
    | some lb => exact h'
    | none => exact combine_rest_stays _ _ _ h'

theorem infer_shape2_within {s : TagSet} (h : Within s) (lb len : ℕ) :
    Within (inferShape2 s lb len) := by
  unfold inferShape2
  split_ifs
  · exact h
  · split
    · exact h
    · split_ifs
      · exact modify_within h _ _
      · exact h

theorem find_loop_stays (fuel : ℕ) : ∀ (s : TagSet) (lb : ℕ) (tags : List TagSeg)
    (lastBegin : ℕ), Within s → Stays (findLoop fuel s lb tags lastBegin) := by
  induction fuel with
  | zero =>
    intro s lb tags lastBegin h
    rw [findLoop]
    split_ifs
    · exact h
    · exact trivial
  | succ fuel ih =>
    intro s lb tags lastBegin h
    rw [findLoop]
    split_ifs
    · exact h
    · have hsplit : Stays (splitMarked s lb) := by
        unfold splitMarked
        split_ifs
        · exact split_and_op_stays h lb
        · exact h
      apply stays_bind hsplit
      intro s' lb' h'
      simp only
      split_ifs
      · exact ih _ _ _ _ h'
      · exact ih _ _ _ _ h'

theorem issue_stays {r : Outcome (TagSet × ℕ)} (h : Stays r) : Stays (issue r) :=
  stays_bind h fun _ _ h' => h'

theorem step_stays {s : TagSet} (h : Within s) (op : Op) : Stays (step s op) := by
  cases op with
  | insert offset => exact issue_stays (insert_stays h offset)
  | combine l1 l2 => exact issue_stays (combine_stays h l1 l2)
  | combineN lbs infer => exact issue_stays (combine_n_stays h lbs infer)
  | inferShape2 lb len => exact infer_shape2_within h lb len
  | setSign lb => exact modify_within h _ _
  | combineAnd lb => exact modify_within h _ _
  | splitAndOp lb => exact issue_stays (split_and_op_stays h lb)
  | find lb => exact stays_bind (find_loop_stays _ _ _ _ _ h) fun _ _ h' => h'

theorem reach_within {σ : Session} (h : Reach σ) : Within σ.tags := by
  refine reachable_invariant (P := fun σ : Session => Within σ.tags) ?_ ?_ h
  · show 1 ≤ MAX_LB
    decide
  · intro σ op τ hσ _ hc
    obtain ⟨s, out, hstep, rfl⟩ := call_cases hc
    have hstays := step_stays hσ op
    rw [hstep] at hstays
    exact hstays

theorem issued_lt {σ : Session} (h : Reach σ) {l : ℕ} (hl : l ∈ issued σ) : l < MAX_LB := by
  obtain ⟨m, -, hlabels⟩ := reach_sound h
  exact lt_of_lt_of_le (hlabels l hl).1 (reach_within h)

end Parmesan.TagSetLimit
