import Parmesan.SearchModel

/-!
# Gradient descent

`search/gd.rs`, while the handler is not stopped. Running an input is a fixed function
of its value. The percentages of a gradient are floating-point numbers and enter as
the movements that are computed from them; what a generator draws is an argument.
`none` is a panic, or a loop that goes on after its draws are used up.
-/

set_option autoImplicit false

namespace Parmesan.GdSearch
open Parmesan.MutInputModel Parmesan.Execution

def U64_MAX : ℕ := 2^64-1
def MAX_NUM_MINIMAL_OPTIMA_ROUND : ℕ := 8

def genBool (p : ℕ × ℕ) (raw : ℕ) : Bool := raw % p.2 < p.1

def GD_ESCAPE_RATIO : ℕ × ℕ := (1, 1)

theorem escape_always (raw : ℕ) : genBool GD_ESCAPE_RATIO raw = true := by
  simp [genBool, GD_ESCAPE_RATIO]
  omega

structure GradUnit where
  sign : Bool
  val : ℕ
  deriving DecidableEq, Repr

/-- What the code reads from the percentages: the movement of an entry for a step in
all dimensions or in one, and whether the dimension is skipped. -/
structure Pct where
  moveAll : ℕ → ℕ → ℕ
  moveOne : ℕ → ℕ → ℕ
  small : ℕ → Bool

def maxVal (grad : List GradUnit) : ℕ := grad.foldl (fun m g => max m g.val) 0

/-- The sum saturates. -/
def valSum (grad : List GradUnit) : ℕ := grad.foldl (fun s g => min (s+g.val) U64_MAX) 0

variable (f : List UInt8 → ℕ)

section Gradient

/-- Whether the objective is linear is also found here; only other strategies read it. -/
def partialDerivative (orig : MutInput) (i f0 : ℕ) : Option GradUnit :=
  (getEntry orig i).bind fun origVal =>
    (update orig i true 1).bind fun plus =>
      (set plus i origVal).bind fun input =>
        (update input i false 1).map fun minus =>
          let fPlus := f plus.value
          let fMinus := f minus.value
          if fMinus < f0 then
            if fPlus < f0 then
              if fMinus < fPlus then ⟨false, f0-fMinus⟩ else ⟨true, f0-fPlus⟩
            else ⟨false, f0-fMinus⟩
          else if fPlus < f0 then ⟨true, f0-fPlus⟩ else ⟨true, 0⟩

def calGradient (input : MutInput) (f0 : ℕ) : Option (List GradUnit) :=
  (List.range input.metas.length).mapM fun i => partialDerivative f input i f0

end Gradient

section Start

def setValueFromInput (m input : MutInput) : MutInput := { m with value := input.value }

def reloadInput (vars : List UInt8) (inputMin : MutInput) : MutInput × ℕ :=
  let input := assign inputMin vars
  (input, f input.value)

def better (best : MutInput × ℕ) (input : MutInput) : MutInput × ℕ :=
  if f input.value < best.2 then (setValueFromInput best.1 input, f input.value) else best

def initStartPoint (vars : List UInt8) (inputMin : MutInput) : MutInput × ℕ :=
  -- `execute_cond_direct` runs the buffer that `input_min` was read from
  let best := (inputMin, f inputMin.value)
  let input := assign inputMin vars
  let best := better f best input
  -- reverse endian
  if 1 < f input.value then better f best (assign input vars.reverse) else best

def startPoints (vars : List UInt8) (inputMin : MutInput) : List MutInput :=
  let input := assign inputMin vars
  [inputMin, input] ++ if 1 < f input.value then [assign input vars.reverse] else []

def getInterestingPoint (first : Bool) (index : ℕ × ℕ) (input : MutInput) :
    Option (Bool × MutInput × (ℕ × ℕ)) :=
  if first ∧ index.1 < input.metas.length then
    input.metas[index.1]?.bind fun info =>
      if index.2 < info.size then
        (getInterestingBytes info.size)[index.2]?.bind fun v =>
          (set input index.1 v).map fun input =>
            (true, input, if index.2+1 = info.size then (index.1+1, 0) else (index.1, index.2+1))
      else some (false, input, index)
  else some (false, input, index)

def repickStartPoint (first : Bool) (inputMin : MutInput) :
    MutInput → ℕ × ℕ → List (ℕ → UInt8) → Option (MutInput × ℕ × (ℕ × ℕ))
  | _, _, [] => none
  | input, index, fill::fills =>
    (getInterestingPoint first index input).bind fun r =>
      let input := if r.1 then r.2.1 else randomizeAllUniform r.2.1 fill
      if f input.value < U64_MAX then
        some (setValueFromInput inputMin input, f input.value, r.2.2)
      else repickStartPoint first inputMin (if r.1 then inputMin else input) r.2.2 fills

end Start

section Descend

def computeDeltaAll (grad : List GradUnit) (move : ℕ → ℕ) (input : MutInput) : Option MutInput :=
  grad.zipIdx.foldlM (fun m g => update m g.2 g.1.sign (move g.2)) input

def moveInput (grad : List GradUnit) (p : Pct) (delta : Option ℕ) (step : ℕ) (input : MutInput) :
    Option MutInput :=
  match delta with
  | some idx => grad[idx]?.bind fun g => update input idx g.sign (p.moveOne step idx)
  | none => computeDeltaAll grad (p.moveAll step) input

/-- The inner loop of `descend`. It ends because a movement is kept only if the output
gets smaller. -/
def descendInner (move : ℕ → MutInput → Option MutInput) (coins : ℕ → ℕ) (k step : ℕ)
    (input inputMin : MutInput) (fLast : ℕ) : Option (MutInput × ℕ) :=
  match move step input with
  | none => none
  | some input =>
    if fLast ≤ f input.value ∧
        (f input.value = U64_MAX ∨ genBool GD_ESCAPE_RATIO (coins k) = true) then
      some (inputMin, fLast)
    else
      descendInner move coins (k+1) (step*2 % 2^64) input (setValueFromInput inputMin input)
        (f input.value)
termination_by fLast
decreasing_by
  rename_i hkeep
  by_contra hle
  exact hkeep ⟨Nat.le_of_not_lt hle, Or.inr (escape_always _)⟩

def guessStep (grad : List GradUnit) (p : Pct) (inputMin : MutInput) (f0 : ℕ) :
    Option (MutInput × ℕ) :=
  if 0 < valSum grad then
    (computeDeltaAll grad (p.moveAll (f0 / valSum grad)) inputMin).map fun input =>
      if f0 ≤ f input.value then (inputMin, f0)
      else (setValueFromInput inputMin input, f input.value)
  else some (inputMin, f0)

/-- All dimensions first; then one by one those that are not too flat, unless there is
only one. -/
def deltas (grad : List GradUnit) (p : Pct) : List (Option ℕ) :=
  none :: if grad.length = 1 then []
    else ((List.range grad.length).filter fun i => !p.small i).map some

def descend (grad : List GradUnit) (p : Pct) (coins : Option ℕ → ℕ → ℕ) (inputMin : MutInput)
    (f0 : ℕ) : Option (MutInput × ℕ) :=
  (guessStep f grad p inputMin f0).bind fun best =>
    (deltas grad p).foldlM (fun best delta =>
      descendInner f (moveInput grad p delta) (coins delta) 0 1 best.1 best.1 best.2) best

end Descend

section Run

structure State where
  input : MutInput
  f0 : ℕ
  index : ℕ × ℕ

structure Draws where
  fills : List (List (ℕ → UInt8))
  pct : List GradUnit → Pct
  coins : Option ℕ → ℕ → ℕ

/-- The loop that leaves a flat region. `left` counts the rounds up to the limit, behind
which the run ends even if the last point is not flat. -/
def leaveOptima (first : Bool) :
    ℕ → List (List (ℕ → UInt8)) → State → List GradUnit → Option (State × List GradUnit)
  | 0, _, _, _ => none
  | left+1, fills, st, grad =>
    if maxVal grad ≠ 0 then some (st, grad)
    else match fills with
      | [] => none
      | fill::fills =>
        (repickStartPoint f first st.input st.input st.index fill).bind fun r =>
          (calGradient f r.1 r.2.1).bind fun grad =>
            leaveOptima first left fills ⟨r.1, r.2.1, r.2.2⟩ grad

/-- The body of the loop of `run`; `none` also if the loop ends here. -/
def epoch (first : Bool) (st : State) (d : Draws) : Option State :=
  (calGradient f st.input st.f0).bind fun grad =>
    (leaveOptima f first (MAX_NUM_MINIMAL_OPTIMA_ROUND+1) d.fills st grad).bind fun r =>
      (descend f r.2 (d.pct r.2) d.coins r.1.input r.1.f0).map fun best =>
        ⟨best.1, best.2, r.1.index⟩

def startState (first : Bool) (vars : List UInt8) (input : MutInput) : State :=
  let start := if first then initStartPoint f vars input else reloadInput f vars input
  ⟨start.1, start.2, (0, 0)⟩

def anyDraws (_ : State) (_ : Draws) : Prop := True

end Run

variable {f}

section StartSound

theorem assign_metas (m : MutInput) (val : List UInt8) : (assign m val).metas = m.metas := rfl

theorem set_value_of_metas {m input : MutInput} (h : input.metas = m.metas) :
    setValueFromInput m input = input := by
  rw [setValueFromInput, ← h]

structure BestOf (f : List UInt8 → ℕ) (points : List MutInput) (best : MutInput × ℕ) : Prop where
  run : best.1 ∈ points
  output : f best.1.value = best.2
  least : ∀ m ∈ points, best.2 ≤ f m.value

theorem better_best {points : List MutInput} {best : MutInput × ℕ} {input : MutInput}
    (h : BestOf f points best) (hmetas : input.metas = best.1.metas) :
    BestOf f (points ++ [input]) (better f best input) ∧
      (better f best input).1.metas = best.1.metas := by
  unfold better
  split_ifs with hlt
  · rw [set_value_of_metas hmetas]
    refine ⟨⟨by simp, rfl, ?_⟩, hmetas⟩
    intro m hm
    rcases List.mem_append.mp hm with hm | hm
    · exact hlt.le.trans (h.least m hm)
    · rw [List.mem_singleton.mp hm]
  · refine ⟨⟨List.mem_append_left _ h.run, h.output, ?_⟩, rfl⟩
    intro m hm
    rcases List.mem_append.mp hm with hm | hm
    · exact h.least m hm
    · rw [List.mem_singleton.mp hm]
      omega

theorem init_start_point_best (f : List UInt8 → ℕ) (vars : List UInt8) (inputMin : MutInput) :
    BestOf f (startPoints f vars inputMin) (initStartPoint f vars inputMin) := by
  have hfirst : BestOf f [inputMin] (inputMin, f inputMin.value) :=
    ⟨List.mem_singleton_self _, rfl, fun m hm => by rw [List.mem_singleton.mp hm]⟩
  have hsecond := better_best hfirst (assign_metas inputMin vars)
  simp only [startPoints, initStartPoint]
  split_ifs
  · exact (better_best hsecond.1 (by rw [hsecond.2]; rfl)).1
  · rw [List.append_nil]
    exact hsecond.1

theorem start_state_output (f : List UInt8 → ℕ) (first : Bool) (vars : List UInt8)
    (input : MutInput) :
    (startState f first vars input).f0 = f (startState f first vars input).input.value := by
  unfold startState
  cases first with
  | true => exact (init_start_point_best f vars input).output.symm
  | false => rfl

theorem repick_output {first : Bool} {inputMin : MutInput} {r : MutInput × ℕ × (ℕ × ℕ)}
    (fills : List (ℕ → UInt8)) (input : MutInput) (index : ℕ × ℕ)
    (h : repickStartPoint f first inputMin input index fills = some r) : r.2.1 = f r.1.value := by
  induction fills generalizing input index with
  | nil => cases h
  | cons fill fills ih =>
    rw [repickStartPoint] at h
    obtain ⟨s, -, h⟩ := Option.bind_eq_some_iff.mp h
    simp only at h
    split_ifs at h
    · rw [← Option.some.inj h]
      rfl
    · exact ih _ _ h
    · rw [← Option.some.inj h]
      rfl
    · exact ih _ _ h

end StartSound

section DescendSound

structure Descends (f : List UInt8 → ℕ) (m : MutInput) (fm : ℕ) (r : MutInput × ℕ) : Prop where
  output : f r.1.value = r.2
  le : r.2 ≤ fm
  strict : r.1 ≠ m → r.2 < fm

theorem descends_refl {m : MutInput} {fm : ℕ} (h : f m.value = fm) : Descends f m fm (m, fm) :=
  ⟨h, Nat.le_refl _, fun hne => absurd rfl hne⟩

theorem descends_trans {m : MutInput} {fm : ℕ} {r s : MutInput × ℕ} (h : Descends f m fm r)
    (h' : Descends f r.1 r.2 s) : Descends f m fm s where
  output := h'.output
  le := h'.le.trans h.le
  strict := by
    intro hne
    by_cases hmoved : r.1 = m
    · rw [← hmoved] at hne
      exact (h'.strict hne).trans_le h.le
    · exact h'.le.trans_lt (h.strict hmoved)

theorem descends_lower {m input : MutInput} {fm : ℕ} (h : f input.value < fm) :
    Descends f m fm (setValueFromInput m input, f input.value) :=
  ⟨rfl, h.le, fun _ => h⟩

theorem guess_step_descends {grad : List GradUnit} {p : Pct} {m : MutInput} {fm : ℕ}
    {r : MutInput × ℕ} (hm : f m.value = fm) (h : guessStep f grad p m fm = some r) :
    Descends f m fm r := by
  unfold guessStep at h
  split_ifs at h
  · obtain ⟨input, -, rfl⟩ := Option.map_eq_some_iff.mp h
    split_ifs with hge
    · exact descends_refl hm
    · exact descends_lower (by omega)
  · rw [← Option.some.inj h]
    exact descends_refl hm

/-- An accepted movement lowers the output, since the escape is always taken. -/
theorem descend_inner_descends (move : ℕ → MutInput → Option MutInput) (coins : ℕ → ℕ)
    (k step : ℕ) (input m : MutInput) (fm : ℕ) {r : MutInput × ℕ} (hm : f m.value = fm)
    (h : descendInner f move coins k step input m fm = some r) : Descends f m fm r := by
  fun_induction descendInner f move coins k step input m fm with
  | case1 => cases h
  | case2 k step input m fm input' hmove hstop =>
    rw [← Option.some.inj h]
    exact descends_refl hm
  | case3 k step input m fm input' hmove hkeep ih =>
    have hlower : f input'.value < fm := by
      by_contra hge
      exact hkeep ⟨Nat.le_of_not_lt hge, Or.inr (escape_always _)⟩
    exact descends_trans (descends_lower hlower) (ih rfl h)

theorem descend_descends {grad : List GradUnit} {p : Pct} {coins : Option ℕ → ℕ → ℕ} {m : MutInput}
    {fm : ℕ} {r : MutInput × ℕ} (hm : f m.value = fm) (h : descend f grad p coins m fm = some r) :
    Descends f m fm r := by
  obtain ⟨best, hbest, h⟩ := Option.bind_eq_some_iff.mp h
  have hguess := guess_step_descends hm hbest
  apply descends_trans hguess
  have hrun := fold_relates (R := fun s t : MutInput × ℕ => f s.1.value = s.2 →
      Descends f s.1 s.2 t) (fun s hs => descends_refl hs)
    (fun s t u hst htu hs => descends_trans (hst hs) (htu (hst hs).output)) (deltas grad p)
    (fun delta _ s t hstep hs => descend_inner_descends _ _ _ _ _ _ _ hs hstep) best r h
  exact hrun hguess.output

end DescendSound

section Returns

def Entries (m : MutInput) : Prop :=
  ∀ e ∈ m.metas, IsWidth e.size ∧ e.offset+e.size ≤ m.value.length

theorem push_entries {m : MutInput} (h : Entries m) {ele : List UInt8} (hne : ele ≠ [])
    (sign : Bool) : Entries (push m ele sign) := by
  have hpos := List.length_pos_iff.mpr hne
  intro e he
  have hlen : (push m ele sign).value.length = m.value.length+ele.length := List.length_append
  rw [hlen]
  rcases List.mem_append.mp he with he | he
  · have hold := h e he
    exact ⟨hold.1, by omega⟩
  · split_ifs at he with hw
    · rw [List.mem_singleton.mp he]
      exact ⟨hw, Nat.le_refl _⟩
    · rw [List.eq_of_mem_replicate he]
      exact ⟨Or.inl rfl, by show m.value.length+1 ≤ _; omega⟩

theorem push_segment_entries {input : List UInt8} {m m' : MutInput} {off : TagSetModel.TagSeg}
    (h : pushSegment input m off = some m') (hm : Entries m) : Entries m' := by
  by_cases hne : off.start = off.stop
  · have hsame : m = m' := by simpa [pushSegment, hne] using h
    rw [← hsame]
    exact hm
  · obtain ⟨ele, -, hele, rfl⟩ := push_segment_spec h hne
    exact push_entries hm hele off.sign

theorem from_offsets_entries {offsets : List TagSetModel.TagSeg} {input : List UInt8} {m : MutInput}
    (h : fromOffsets offsets input = some m) : Entries m := by
  have hrun := fold_relates (R := fun s t : MutInput => Entries s → Entries t) (fun _ hs => hs)
    (fun _ _ _ h1 h2 => h2 ∘ h1) offsets (fun off _ s t hs => push_segment_entries hs) newInput m h
  exact hrun fun e he => absurd he List.not_mem_nil

theorem same_shape_entries {m m' : MutInput} (hs : SameShape m m') (h : Entries m) :
    Entries m' := by
  rw [Entries, hs.1, hs.2]
  exact h

theorem update_returns {m : MutInput} (h : Entries m) {i : ℕ} (hi : i < m.metas.length)
    (direction : Bool) (delta : ℕ) :
    ∃ m', update m i direction delta = some m' ∧ SameShape m m' := by
  have hget := List.getElem?_eq_getElem hi
  have hfit := h _ (List.getElem_mem hi)
  have hsome : ∃ m', update m i direction delta = some m' := by
    rw [update, hget, Option.bind_some, updateValInBuf, readValFromBuf, if_pos hfit,
      Option.bind_some, setValInBuf, if_pos hfit]
    exact ⟨_, rfl⟩
  obtain ⟨m', hm'⟩ := hsome
  exact ⟨m', hm', update_same_shape hm'⟩

theorem same_shape_trans {m m' m'' : MutInput} (h : SameShape m m') (h' : SameShape m' m'') :
    SameShape m m'' := ⟨h'.1.trans h.1, h'.2.trans h.2⟩

variable {grad : List GradUnit} {p : Pct} {m : MutInput}

theorem delta_all_returns (move : ℕ → ℕ) (units : List (GradUnit × ℕ)) (m : MutInput)
    (h : Entries m) (hunits : ∀ g ∈ units, g.2 < m.metas.length) :
    ∃ m', units.foldlM (fun m g => update m g.2 g.1.sign (move g.2)) m = some m' ∧
      SameShape m m' := by
  induction units generalizing m with
  | nil => exact ⟨m, rfl, rfl, rfl⟩
  | cons g units ih =>
    obtain ⟨hg, hrest⟩ := List.forall_mem_cons.mp hunits
    obtain ⟨m1, hm1, hs1⟩ := update_returns h hg g.1.sign (move g.2)
    obtain ⟨m2, hm2, hs2⟩ := ih m1 (same_shape_entries hs1 h) (by rw [hs1.1]; exact hrest)
    refine ⟨m2, ?_, same_shape_trans hs1 hs2⟩
    rw [List.foldlM_cons, hm1]
    exact hm2

theorem compute_delta_all_returns (h : Entries m) (hgrad : grad.length ≤ m.metas.length)
    (move : ℕ → ℕ) : ∃ m', computeDeltaAll grad move m = some m' ∧ SameShape m m' := by
  apply delta_all_returns move grad.zipIdx m h
  intro g hg
  have hlt := (List.mem_zipIdx hg).2.1
  omega

theorem move_input_returns (h : Entries m) (hgrad : grad.length ≤ m.metas.length)
    {delta : Option ℕ} (hdelta : delta ∈ deltas grad p) (step : ℕ) :
    ∃ m', moveInput grad p delta step m = some m' ∧ SameShape m m' := by
  cases delta with
  | none => exact compute_delta_all_returns h hgrad _
  | some idx =>
    have hidx : idx < grad.length := by
      rw [deltas] at hdelta
      split_ifs at hdelta
      · simp at hdelta
      · have hmem : idx ∈ (List.range grad.length).filter fun i => !p.small i := by
          simpa using hdelta
        exact List.mem_range.mp (List.mem_filter.mp hmem).1
    rw [moveInput, List.getElem?_eq_getElem hidx]
    exact update_returns h (by omega) _ _

theorem descend_inner_returns (move : ℕ → MutInput → Option MutInput) {m0 : MutInput}
    (hmove : ∀ step m, SameShape m0 m → ∃ m', move step m = some m' ∧ SameShape m m')
    (coins : ℕ → ℕ) (k step : ℕ) (input m : MutInput) (fm : ℕ) (hinput : SameShape m0 input)
    (hm : SameShape m0 m) :
    ∃ r, descendInner f move coins k step input m fm = some r ∧ SameShape m0 r.1 := by
  fun_induction descendInner f move coins k step input m fm with
  | case1 k step input m fm hnone =>
    obtain ⟨m', hm', -⟩ := hmove step input hinput
    rw [hnone] at hm'
    cases hm'
  | case2 k step input m fm input' hsome hstop => exact ⟨_, rfl, hm⟩
  | case3 k step input m fm input' hsome hkeep ih =>
    obtain ⟨m', hm', hshape⟩ := hmove step input hinput
    rw [hsome] at hm'
    rw [← Option.some.inj hm'] at hshape
    have hnext := same_shape_trans hinput hshape
    exact ih hnext ⟨hm.1, hnext.2⟩

theorem descend_returns (h : Entries m) (hgrad : grad.length ≤ m.metas.length) (p : Pct)
    (coins : Option ℕ → ℕ → ℕ) (fm : ℕ) : ∃ r, descend f grad p coins m fm = some r := by
  have hguess : ∃ r, guessStep f grad p m fm = some r ∧ SameShape m r.1 := by
    unfold guessStep
    split_ifs
    · obtain ⟨input, hinput, hshape⟩ :=
        compute_delta_all_returns h hgrad (p.moveAll (fm / valSum grad))
      rw [hinput]
      refine ⟨_, rfl, ?_⟩
      show SameShape m (if fm ≤ f input.value then (m, fm)
        else (setValueFromInput m input, f input.value)).1
      split_ifs
      · exact ⟨rfl, rfl⟩
      · exact ⟨rfl, hshape.2⟩
    · exact ⟨_, rfl, rfl, rfl⟩
  have hloop : ∀ ds : List (Option ℕ), (∀ delta ∈ ds, delta ∈ deltas grad p) →
      ∀ best : MutInput × ℕ, SameShape m best.1 → ∃ r, ds.foldlM (fun best delta =>
        descendInner f (moveInput grad p delta) (coins delta) 0 1 best.1 best.1 best.2) best =
          some r := by
    intro ds
    induction ds with
    | nil => exact fun _ best _ => ⟨best, rfl⟩
    | cons delta ds ih =>
      intro hds best hbest
      obtain ⟨hdelta, hrest⟩ := List.forall_mem_cons.mp hds
      obtain ⟨r, hr, hshape⟩ := descend_inner_returns (f := f) (moveInput grad p delta)
        (fun step m' hm' => move_input_returns (same_shape_entries hm' h)
          (by rw [hm'.1]; exact hgrad) hdelta step)
        (coins delta) 0 1 best.1 best.1 best.2 hbest hbest
      rw [List.foldlM_cons, hr]
      exact ih hrest r hshape
  obtain ⟨best, hbest, hshape⟩ := hguess
  rw [descend, hbest, Option.bind_some]
  exact hloop (deltas grad p) (fun _ hd => hd) best hshape

end Returns

section RunSound

theorem leave_optima_output {first : Bool} {r : State × List GradUnit} (left : ℕ)
    (fills : List (List (ℕ → UInt8))) (st : State) (grad : List GradUnit)
    (hst : st.f0 = f st.input.value) (h : leaveOptima f first left fills st grad = some r) :
    r.1.f0 = f r.1.input.value := by
  induction left generalizing fills st grad with
  | zero => cases h
  | succ left ih =>
    unfold leaveOptima at h
    split_ifs at h
    · rw [← Option.some.inj h]
      exact hst
    · cases fills with
      | nil => cases h
      | cons fill fills =>
        obtain ⟨s, hs, h⟩ := Option.bind_eq_some_iff.mp h
        obtain ⟨grad', -, h⟩ := Option.bind_eq_some_iff.mp h
        exact ih fills _ grad' (repick_output fill _ _ hs) h

theorem epoch_output {first : Bool} {st st' : State} {d : Draws} (hst : st.f0 = f st.input.value)
    (h : epoch f first st d = some st') : st'.f0 = f st'.input.value := by
  obtain ⟨grad, -, h⟩ := Option.bind_eq_some_iff.mp h
  obtain ⟨r, hr, h⟩ := Option.bind_eq_some_iff.mp h
  obtain ⟨best, hbest, rfl⟩ := Option.map_eq_some_iff.mp h
  have hpoint := leave_optima_output _ _ _ _ hst hr
  exact (descend_descends hpoint.symm hbest).output.symm

/-- While the handler is not stopped: `f0` is the output of `input` at the head of every
epoch; `descend` returns, with the output of the point it leaves, which is lower if the
point changed; and `init_start_point` finds the least of the points it runs. -/
theorem gd_search_sound (f : List UInt8 → ℕ) :
    (∀ (first : Bool) (vars : List UInt8) (input : MutInput) (st : State),
      Reachable (epoch f first) anyDraws (startState f first vars input) st →
        st.f0 = f st.input.value) ∧
    (∀ (grad : List GradUnit) (p : Pct) (coins : Option ℕ → ℕ → ℕ) (inputMin : MutInput) (f0 : ℕ),
      Entries inputMin → grad.length ≤ inputMin.metas.length → f inputMin.value = f0 →
        ∃ r, descend f grad p coins inputMin f0 = some r ∧ f r.1.value = r.2 ∧ r.2 ≤ f0 ∧
          (r.1 ≠ inputMin → r.2 < f0)) ∧
    ∀ (vars : List UInt8) (input : MutInput),
      (initStartPoint f vars input).1 ∈ startPoints f vars input ∧
      f (initStartPoint f vars input).1.value = (initStartPoint f vars input).2 ∧
      ∀ m ∈ startPoints f vars input, (initStartPoint f vars input).2 ≤ f m.value := by
  refine ⟨?_, ?_, ?_⟩
  · intro first vars input st hreach
    exact reachable_invariant (P := fun st : State => st.f0 = f st.input.value)
      (start_state_output f first vars input) (fun _ _ _ hs _ hn => epoch_output hs hn) hreach
  · intro grad p coins inputMin f0 hentries hgrad hf0
    obtain ⟨r, hr⟩ := descend_returns (f := f) hentries hgrad p coins f0
    have hdesc := descend_descends hf0 hr
    exact ⟨r, hr, hdesc.output, hdesc.le, hdesc.strict⟩
  · intro vars input
    have hbest := init_start_point_best f vars input
    exact ⟨hbest.run, hbest.output, hbest.least⟩

/-- One byte that is to become 9. -/
theorem gd_search_sound_byte :
    let f : List UInt8 → ℕ := fun v => (v.map fun b => 9-b.toNat).sum
    let m : MutInput := ⟨[5], [⟨false, 0, 1⟩]⟩
    ∃ r, descend f [⟨true, 1⟩] ⟨fun step _ => step, fun step _ => step, fun _ => false⟩
      (fun _ _ => 0) m 4 = some r ∧ f r.1.value = r.2 ∧ r.2 ≤ 4 ∧ (r.1 ≠ m → r.2 < 4) := by
  intro f m
  have hentries : Entries m := by
    intro e he
    rw [List.mem_singleton.mp he]
    decide
  exact (gd_search_sound f).2.1 [⟨true, 1⟩] _ _ m 4 hentries (by decide) (by decide)

end RunSound

end Parmesan.GdSearch
