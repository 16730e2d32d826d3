import Parmesan.DepotFold
import Parmesan.TrackList

/-!
# The conditions fixed for indirect edges

`track` appends a copy of a condition with the offsets of the dominators of its
call site. The copy has the key, the outcome and the speed of the condition it
was made from, which stands earlier in the same list, so `add_entries` drops it.
-/

set_option autoImplicit false

namespace Parmesan.TrackFixed
open Parmesan.CondModel Parmesan.TagSetModel Parmesan.DepotModel Parmesan.DepotRun
open Parmesan.DepotFold Parmesan.CfgModel Parmesan.TrackList
open Parmesan.CfgShared (windows trackPair)
open Parmesan.Execution (fold_relates)

section Covered

def Covers (v c : CondStmt) : Prop :=
  isDone v = true ∨ v.base.condition = c.base.condition ∧ v.speed ≤ c.speed

def Covered (q : Queue) (c : CondStmt) : Prop := ∃ v, entryOf q (keyOf c) = some v ∧ Covers v c

theorem observe_covers (o : Option CondStmt) (c : CondStmt) :
    ∃ v, observe o c = some v ∧ Covers v c := by
  cases o with
  | none => exact ⟨c, rfl, Or.inr ⟨rfl, le_rfl⟩⟩
  | some v =>
    simp only [observe]
    split_ifs with hdone hcond hspeed
    · exact ⟨v, rfl, Or.inl hdone⟩
    · exact ⟨markAsDone v, rfl, Or.inl rfl⟩
    · exact ⟨c, rfl, Or.inr ⟨rfl, le_rfl⟩⟩
    · exact ⟨v, rfl, Or.inr ⟨not_not.mp hcond, not_lt.mp hspeed⟩⟩

theorem observe_keeps_cover {v c : CondStmt} (h : Covers v c) (c' : CondStmt) :
    ∃ v', observe (some v) c' = some v' ∧ Covers v' c := by
  simp only [observe]
  split_ifs with hdone hcond hspeed
  · exact ⟨v, rfl, h⟩
  · exact ⟨markAsDone v, rfl, Or.inl rfl⟩
  · obtain ⟨hsame, hle⟩ := h.resolve_left hdone
    exact ⟨c', rfl, Or.inr ⟨(not_not.mp hcond).symm.trans hsame, hspeed.le.trans hle⟩⟩
  · exact ⟨v, rfl, h⟩

theorem observe_covered {v c : CondStmt} (h : Covers v c) : observe (some v) c = some v := by
  simp only [observe]
  split_ifs with hdone hcond hspeed
  · rfl
  · exact absurd (h.resolve_left hdone).1 hcond
  · exact absurd (h.resolve_left hdone).2 (not_le.mpr hspeed)
  · rfl

theorem observes_covered {v : CondStmt} (obs : List CondStmt) (h : ∀ c ∈ obs, Covers v c) :
    obs.foldl observe (some v) = some v := by
  induction obs with
  | nil => rfl
  | cons c obs ih =>
    rw [List.foldl_cons, observe_covered (h c List.mem_cons_self)]
    exact ih fun c' hc' => h c' (List.mem_cons_of_mem c hc')

theorem observes_keep_cover {c : CondStmt} (obs : List CondStmt) {v : CondStmt} (h : Covers v c) :
    ∃ v', obs.foldl observe (some v) = some v' ∧ Covers v' c := by
  induction obs generalizing v with
  | nil => exact ⟨v, rfl, h⟩
  | cons c' obs ih =>
    obtain ⟨v', hv', hcov⟩ := observe_keeps_cover h c'
    rw [List.foldl_cons, hv']
    exact ih hcov

theorem observes_cover {obs : List CondStmt} {c : CondStmt} (hc : c ∈ obs)
    (o : Option CondStmt) : ∃ v, obs.foldl observe o = some v ∧ Covers v c := by
  obtain ⟨before, after, rfl⟩ := List.append_of_mem hc
  rw [List.foldl_append, List.foldl_cons]
  obtain ⟨v, hv, hcov⟩ := observe_covers (before.foldl observe o) c
  rw [hv]
  exact observes_keep_cover after hcov

theorem add_entries_covered (q : Queue) {conds : List (CondStmt × ℕ)} {c : CondStmt}
    (hc : c ∈ conds.map Prod.fst) (hdes : c.isDesirable = true) :
    Covered (addEntries q conds) c := by
  have hobs : c ∈ observations (conds.map Prod.fst) (keyOf c) :=
    List.mem_filter.mpr ⟨hc, by simp [hdes]⟩
  rw [Covered, add_entries_entry]
  exact observes_cover hobs _

theorem add_entry_covered {q : Queue} {c : CondStmt} (h : c.isDesirable = true → Covered q c)
    (distance : ℕ) : (addEntry q c distance).1 = q := by
  cases hdes : c.isDesirable with
  | false => exact add_entry_undesirable q distance hdes
  | true =>
    obtain ⟨v, hv, hcov⟩ := h hdes
    obtain ⟨x, hx, rfl⟩ := Option.map_eq_some_iff.mp hv
    rw [addEntry, if_pos hdes, hx]
    simp only
    split_ifs with hdone hcond hspeed
    · rfl
    · exact absurd (hcov.resolve_left hdone).1 hcond
    · exact absurd (hcov.resolve_left hdone).2 (not_le.mpr hspeed)
    · rfl

theorem add_entries_covered_all {q : Queue} (conds : List (CondStmt × ℕ))
    (h : ∀ c ∈ conds, c.1.isDesirable = true → Covered q c.1) : addEntries q conds = q := by
  induction conds with
  | nil => rfl
  | cons c conds ih =>
    rw [addEntries, List.foldl_cons, add_entry_covered (h c List.mem_cons_self)]
    exact ih fun c' hc' => h c' (List.mem_cons_of_mem c hc')

end Covered

section Leftover

theorem observes_done {v : CondStmt} (obs : List CondStmt) (h : isDone v = true) :
    obs.foldl observe (some v) = some v :=
  observes_covered obs fun _ _ => Or.inl h

/-- Another outcome among the observations leaves a done entry without offsets. -/
theorem observes_flip {obs : List CondStmt} {v : CondStmt} (hopen : isDone v = false)
    (hflip : ∃ c ∈ obs, c.base.condition ≠ v.base.condition) :
    ∃ v', obs.foldl observe (some v) = some v' ∧ v'.offsets = [] := by
  induction obs generalizing v with
  | nil =>
    obtain ⟨c, hc, -⟩ := hflip
    cases hc
  | cons c obs ih =>
    rw [List.foldl_cons]
    by_cases hcond : v.base.condition = c.base.condition
    · have hrest : ∃ c' ∈ obs, c'.base.condition ≠ v.base.condition := by
        obtain ⟨c', hc', hne⟩ := hflip
        rcases List.mem_cons.mp hc' with rfl | hc'
        · exact absurd hcond.symm hne
        · exact ⟨c', hc', hne⟩
      by_cases hspeed : c.speed < v.speed
      · have hc : isDone c = false := by rw [← hopen, isDone, isDone, hcond]
        have hstep : observe (some v) c = some c := by simp [observe, hopen, hcond, hspeed]
        rw [hstep]
        exact ih hc (by rwa [hcond] at hrest)
      · have hstep : observe (some v) c = some v := by simp [observe, hopen, hcond, hspeed]
        rw [hstep]
        exact ih hopen hrest
    · have hstep : observe (some v) c = some (markAsDone v) := by simp [observe, hopen, hcond]
      rw [hstep, observes_done obs rfl]
      exact ⟨markAsDone v, rfl, rfl⟩

/-- The offsets stand in an entry that the list keeps, or in the first of its
conditions with the key. -/
def Coincides (q : Queue) (conds : List CondStmt) (key : Key) (speed : ℕ)
    (offsets : List TagSeg) : Prop :=
  let obs := observations conds key
  match entryOf q key with
  | none => ∃ c ∈ obs.head?, c.offsets = offsets ∧
      (isDone c = true ∨ ∀ c' ∈ obs, c'.base.condition = c.base.condition)
  | some u => if isDone u then u.offsets = offsets
      else (∀ c ∈ obs, c.base.condition = u.base.condition) ∧
        if u.speed ≤ speed then u.offsets = offsets else ∃ c ∈ obs.head?, c.offsets = offsets

variable {obs : List CondStmt} {speed : ℕ} {offsets : List TagSeg}

theorem leftover_slow {u : CondStmt} (hspeed : ∀ c ∈ obs, c.speed = speed)
    (hle : u.speed ≤ speed) (hne : offsets ≠ []) :
    (∃ v, obs.foldl observe (some u) = some v ∧ v.offsets = offsets) ↔
      u.offsets = offsets ∧ (isDone u = true ∨ ∀ c ∈ obs, c.base.condition = u.base.condition) := by
  by_cases hkeep : isDone u = true ∨ ∀ c ∈ obs, c.base.condition = u.base.condition
  · have hcov : ∀ c ∈ obs, Covers u c := by
      intro c hc
      rcases hkeep with hdone | hsame
      · exact Or.inl hdone
      · exact Or.inr ⟨(hsame c hc).symm, by rw [hspeed c hc]; exact hle⟩
    rw [observes_covered obs hcov, and_iff_left hkeep]
    constructor
    · rintro ⟨v, hv, hoff⟩
      obtain rfl := Option.some.inj hv
      exact hoff
    · intro hoff
      exact ⟨u, rfl, hoff⟩
  · obtain ⟨hopen, hflip⟩ := not_or.mp hkeep
    obtain ⟨v, hv, hnil⟩ := observes_flip (Bool.eq_false_iff.mpr hopen) (by simpa using hflip)
    refine iff_of_false ?_ fun h => hkeep h.2
    rintro ⟨v', hv', hoff⟩
    obtain rfl := Option.some.inj (hv.symm.trans hv')
    exact hne (hoff.symm.trans hnil)

theorem head_leftover {c : CondStmt} {rest : List CondStmt}
    (hspeed : ∀ c' ∈ c::rest, c'.speed = speed) (hne : offsets ≠ []) :
    (∃ v, rest.foldl observe (some c) = some v ∧ v.offsets = offsets) ↔
      c.offsets = offsets ∧
        (isDone c = true ∨ ∀ c' ∈ c::rest, c'.base.condition = c.base.condition) := by
  have hrest : ∀ c' ∈ rest, c'.speed = speed :=
    fun c' hc' => hspeed c' (List.mem_cons_of_mem c hc')
  rw [leftover_slow hrest (hspeed c List.mem_cons_self).le hne]
  simp

theorem coincides_iff {q : Queue} {cs : List (CondStmt × ℕ)} {key : Key}
    (hspeed : ∀ c ∈ observations (cs.map Prod.fst) key, c.speed = speed)
    (hsome : observations (cs.map Prod.fst) key ≠ []) (hne : offsets ≠ []) :
    (∃ v, entryOf (addEntries q cs) key = some v ∧ v.offsets = offsets) ↔
      Coincides q (cs.map Prod.fst) key speed offsets := by
  rw [add_entries_entry, Coincides]
  obtain ⟨c, rest, hobs⟩ := List.exists_cons_of_ne_nil hsome
  rw [hobs] at hspeed ⊢
  cases hentry : entryOf q key with
  | none =>
    have hfold : (c::rest).foldl observe none = rest.foldl observe (some c) := rfl
    rw [hfold, head_leftover hspeed hne]
    simp
  | some u =>
    cases hdone : isDone u with
    | true =>
      rw [observes_done _ hdone]
      simp [hdone]
    | false =>
      by_cases hle : u.speed ≤ speed
      · rw [leftover_slow hspeed hle hne]
        simp only [hdone, hle, if_true, Bool.false_eq_true, if_false, false_or]
        exact and_comm
      · by_cases hcond : u.base.condition = c.base.condition
        · have hc := hspeed c List.mem_cons_self
          have hopen : isDone c = false := by rw [← hdone, isDone, isDone, hcond]
          have hfaster : c.speed < u.speed := by omega
          have hstep : observe (some u) c = some c := by simp [observe, hdone, hcond, hfaster]
          rw [List.foldl_cons, hstep, head_leftover hspeed hne]
          simp only [hdone, hopen, hle, hcond, Bool.false_eq_true, if_false, false_or]
          simp [and_comm]
        · obtain ⟨v, hv, hnil⟩ := observes_flip hdone
            ⟨c, List.mem_cons_self, fun h => hcond h.symm⟩
          apply iff_of_false
          · rintro ⟨v', hv', hoff⟩
            obtain rfl := Option.some.inj (hv.symm.trans hv')
            exact hne (hoff.symm.trans hnil)
          · simp only [hdone, Bool.false_eq_true, if_false]
            intro h
            exact hcond (h.1 c List.mem_cons_self).symm

end Leftover

section Track
variable (lib : Library) (buf : List UInt8)

def trackState (g : ControlFlowGraph) (conds : List CondStmt) (i : ℕ) : Option Tracking :=
  ((windows conds).take i).foldlM (trackWindow lib buf) ⟨g, fun _ => none, []⟩

/-- The offsets recorded for the dominators of the call site of the second condition. -/
def recordedOffsets (t : Tracking) (ab : CondStmt × CondStmt) : List TagSeg :=
  match trackPair lib buf (t.cfg, t.dominators) ab with
  | some s => (getCallsiteDominators s.1 ab.2.base.lastCallsite).flatMap fun d => (s.2 d).getD []
  | none => []

variable {lib} {buf} {t t' : Tracking} {ab : CondStmt × CondStmt}

def Copies (f b : CondStmt) : Prop :=
  f.base = b.base ∧ f.speed = b.speed ∧ f.isDesirable = b.isDesirable

theorem fix_cond_copies {g : ControlFlowGraph} {edge : Edge} {b f : CondStmt}
    {fixedOffsets : List TagSeg} (h : fixCond g edge b fixedOffsets = some f) :
    Copies f b ∧ f.offsets = b.offsets ++ fixedOffsets := by
  obtain ⟨vars, -, rfl⟩ := Option.map_eq_some_iff.mp h
  exact ⟨⟨rfl, rfl, rfl⟩, rfl⟩

theorem track_window_cases (h : trackWindow lib buf t ab = some t') :
    ab.2.base.lastCallsite = 0 ∧ t'.indConds = t.indConds ∨
      ab.2.base.lastCallsite ≠ 0 ∧ ∃ f, t'.indConds = t.indConds ++ [f] ∧ Copies f ab.2 ∧
        f.offsets = ab.2.offsets ++ recordedOffsets lib buf t ab := by
  obtain ⟨s, hs, h⟩ := Option.bind_eq_some_iff.mp h
  by_cases hcall : ab.2.base.lastCallsite = 0
  · rw [if_neg (not_not.mpr hcall)] at h
    obtain rfl := Option.some.inj h
    exact Or.inl ⟨hcall, rfl⟩
  · rw [if_pos hcall] at h
    obtain ⟨f, hf, rfl⟩ := Option.map_eq_some_iff.mp h
    obtain ⟨hcopy, hoff⟩ := fix_cond_copies hf
    refine Or.inr ⟨hcall, f, rfl, hcopy, ?_⟩
    rw [hoff, recordedOffsets, hs]

theorem track_windows_grow (abs : List (CondStmt × CondStmt))
    (h : abs.foldlM (trackWindow lib buf) t = some t') : t.indConds <+: t'.indConds := by
  refine fold_relates (R := fun s s' : Tracking => s.indConds <+: s'.indConds)
    (fun _ => List.prefix_refl _) (fun _ _ _ => List.IsPrefix.trans) abs ?_ t t' h
  intro ab _ s s' hs
  obtain ⟨-, hsame⟩ | ⟨-, f, hgrow, -⟩ := track_window_cases hs
  · rw [hsame]
  · rw [hgrow]
    exact List.prefix_append _ _

theorem track_windows_copy {conds : List CondStmt} (abs : List (CondStmt × CondStmt))
    (hin : ∀ ab ∈ abs, ab.2 ∈ conds) (h : abs.foldlM (trackWindow lib buf) t = some t')
    (ht : ∀ f ∈ t.indConds, ∃ b ∈ conds, Copies f b) :
    ∀ f ∈ t'.indConds, ∃ b ∈ conds, Copies f b := by
  refine fold_relates (R := fun s s' : Tracking => (∀ f ∈ s.indConds, ∃ b ∈ conds, Copies f b) →
    ∀ f ∈ s'.indConds, ∃ b ∈ conds, Copies f b) (fun _ hs => hs) (fun _ _ _ h h' => h' ∘ h) abs
    ?_ t t' h ht
  intro ab hab s s' hstep hs
  obtain ⟨-, hsame⟩ | ⟨-, f, hgrow, hcopy, -⟩ := track_window_cases hstep
  · rw [hsame]
    exact hs
  · rw [hgrow]
    intro f' hf'
    rcases List.mem_append.mp hf' with hf' | hf'
    · exact hs f' hf'
    · obtain rfl := List.mem_singleton.mp hf'
      exact ⟨ab.2, hin ab hab, hcopy⟩

theorem load_speed {parsed : List CondStmt} {id speed : ℕ} {c : CondStmt}
    (hc : c ∈ loadTrackData parsed id speed) : c.speed = speed := by
  have hspeed := List.mem_map_of_mem (f := CondStmt.speed) hc
  rw [loadTrackData, filterCondList, filter_loop_map (fun _ => rfl), List.map_map] at hspeed
  obtain ⟨p, -, hp⟩ := List.mem_map.mp hspeed
  exact hp.symm

theorem windows_mem {conds : List CondStmt} {ab : CondStmt × CondStmt} (h : ab ∈ windows conds) :
    ab.2 ∈ conds :=
  List.mem_of_mem_tail (List.of_mem_zip h).2

theorem copies_covered {q : Queue} {f b : CondStmt} (hcopy : Copies f b) (h : Covered q b) :
    Covered q f := by
  obtain ⟨hbase, hspeed, -⟩ := hcopy
  have hkey : keyOf f = keyOf b := by rw [keyOf, keyOf, hbase]
  obtain ⟨v, hv, hcov⟩ := h
  refine ⟨v, by rw [hkey]; exact hv, ?_⟩
  rwa [Covers, hbase, hspeed]

variable {g g' : ControlFlowGraph} {id speed : ℕ} {parsed conds : List CondStmt}

theorem fixed_conds_dropped (h : track lib g id buf speed parsed = some (g', conds)) (q : Queue)
    {cs : List (CondStmt × ℕ)} (hcs : cs.map Prod.fst = conds) :
    addEntries q cs =
      addEntries q (cs.take (loadTrackData parsed (id % 2^32) speed).length) := by
  obtain ⟨t, ht, heq⟩ := Option.map_eq_some_iff.mp h
  obtain ⟨-, hconds⟩ := Prod.mk.inj heq
  rw [← hcs] at hconds
  set loaded := loadTrackData parsed (id % 2^32) speed with hloaded
  have hfirst : (cs.take loaded.length).map Prod.fst = loaded := by
    rw [List.map_take, ← hconds, List.take_left]
  have hlast : (cs.drop loaded.length).map Prod.fst = t.indConds := by
    rw [List.map_drop, ← hconds, List.drop_left]
  have hcopy : ∀ f ∈ t.indConds, ∃ b ∈ loaded, Copies f b :=
    track_windows_copy _ (fun _ => windows_mem) ht fun f hf => absurd hf List.not_mem_nil
  have hsplit : addEntries q cs =
      addEntries (addEntries q (cs.take loaded.length)) (cs.drop loaded.length) := by
    rw [addEntries, addEntries, addEntries, ← List.foldl_append, List.take_append_drop]
  rw [hsplit]
  apply add_entries_covered_all
  intro c hc hdes
  have hin : c.1 ∈ t.indConds := by
    rw [← hlast]
    exact List.mem_map_of_mem hc
  obtain ⟨b, hb, hcop⟩ := hcopy c.1 hin
  refine copies_covered hcop (add_entries_covered q ?_ ?_)
  · rw [hfirst]
    exact hb
  · rw [← hcop.2.2]
    exact hdes

/-- No fixed condition changes the queue, so its offsets are there after the
list exactly if they are without it. -/
theorem fixed_offsets_stored_iff (h : track lib g id buf speed parsed = some (g', conds))
    (q : Queue) {cs : List (CondStmt × ℕ)} (hcs : cs.map Prod.fst = conds) (i : ℕ)
    {a b : CondStmt}
    (hpair : (windows (loadTrackData parsed (id % 2^32) speed))[i]? = some (a, b))
    (hdes : b.isDesirable = true) (hcall : b.base.lastCallsite ≠ 0) :
    addEntries q cs = addEntries q (cs.take (loadTrackData parsed (id % 2^32) speed).length) ∧
    ∃ t t' f, trackState lib buf g (loadTrackData parsed (id % 2^32) speed) i = some t ∧
      trackWindow lib buf t (a, b) = some t' ∧ t'.indConds = t.indConds ++ [f] ∧ f ∈ conds ∧
      f.offsets = b.offsets ++ recordedOffsets lib buf t (a, b) ∧
      (recordedOffsets lib buf t (a, b) ≠ [] →
        ((∃ v, entryOf (addEntries q cs) (keyOf b) = some v ∧ v.offsets = f.offsets) ↔
          Coincides q (loadTrackData parsed (id % 2^32) speed) (keyOf b) speed f.offsets)) := by
  have hdrop := fixed_conds_dropped h q hcs
  obtain ⟨u, hu, heq⟩ := Option.map_eq_some_iff.mp h
  obtain ⟨-, hconds⟩ := Prod.mk.inj heq
  set loaded := loadTrackData parsed (id % 2^32) speed with hloaded
  obtain ⟨hi, hget⟩ := List.getElem?_eq_some_iff.mp hpair
  have hfold := hu
  rw [← List.take_append_drop i (windows loaded), List.drop_eq_getElem_cons hi, hget,
    List.foldlM_append] at hfold
  obtain ⟨t, ht, hrest⟩ := Option.bind_eq_some_iff.mp hfold
  rw [List.foldlM_cons] at hrest
  obtain ⟨t', ht', hrest⟩ := Option.bind_eq_some_iff.mp hrest
  obtain ⟨hzero, -⟩ | ⟨-, f, hgrow, hcopy, hoff⟩ := track_window_cases ht'
  · exact absurd hzero hcall
  refine ⟨hdrop, t, t', f, ht, ht', hgrow, ?_, hoff, ?_⟩
  · rw [← hconds]
    refine List.mem_append_right _ ((track_windows_grow _ hrest).subset ?_)
    rw [hgrow]
    exact List.mem_append_right _ (List.mem_singleton_self f)
  · intro hrec
    have hfirst : (cs.take loaded.length).map Prod.fst = loaded := by
      rw [List.map_take, hcs, ← hconds, List.take_left]
    have hb : b ∈ loaded := windows_mem (List.mem_of_getElem? hpair)
    have hobs : b ∈ observations loaded (keyOf b) := List.mem_filter.mpr ⟨hb, by simp [hdes]⟩
    have hne : f.offsets ≠ [] := by
      rw [hoff]
      exact fun hnil => hrec (List.append_eq_nil_iff.mp hnil).2
    have hspeed : ∀ c ∈ observations ((cs.take loaded.length).map Prod.fst) (keyOf b),
        c.speed = speed := by
      rw [hfirst]
      exact fun c hc => load_speed (List.mem_filter.mp hc).1
    have hsome : observations ((cs.take loaded.length).map Prod.fst) (keyOf b) ≠ [] := by
      rw [hfirst]
      exact List.ne_nil_of_mem hobs
    have hiff := coincides_iff (q := q) hspeed hsome hne
    rw [hfirst] at hiff
    rw [hdrop]
    exact hiff

end Track

section Instance

def dominatorCond : CondStmt where
  base := ⟨7, 3, 0, 1, 0, COND_FALSE_ST, 0, COND_ICMP_EQ_OP, 4, 1, 0, 1, 2⟩
  offsets := [⟨false, 0, 2⟩]
  offsetsOpt := []
  vars := [2, 0, 0, 0]
  speed := 0
  isDesirable := true
  state := .offset

def calledCond : CondStmt where
  base := ⟨8, 3, 5, 1, 0, COND_FALSE_ST, 0, COND_ICMP_EQ_OP, 4, 2, 0, 3, 4⟩
  offsets := [⟨false, 4, 8⟩]
  offsetsOpt := []
  vars := [4, 0, 0, 0]
  speed := 0
  isDesirable := true
  state := .offset

def callGraph : ControlFlowGraph := newGraph reference ⟨{9}, [], [(5, [7])]⟩

def callInput : List UInt8 := [1, 2, 3, 4, 5, 6, 7, 8]

def callTrack : Option (ControlFlowGraph × List CondStmt) :=
  track reference callGraph 3 callInput 5 [dominatorCond, calledCond]

def calledFixed : CondStmt :=
  { loadCond 3 5 calledCond with
    offsets := [⟨false, 4, 8⟩, ⟨false, 0, 2⟩]
    vars := [1, 2, 0, 0] }

theorem fixed_offsets_stored_iff_call : ∃ g' conds, callTrack = some (g', conds) ∧
    ∃ t f, f ∈ conds ∧ recordedOffsets reference callInput t
        (loadCond 3 5 dominatorCond, loadCond 3 5 calledCond) = [⟨false, 0, 2⟩] ∧
      f.offsets = [⟨false, 4, 8⟩, ⟨false, 0, 2⟩] ∧
      ((∃ v, entryOf (addEntries ∅ (conds.map fun c => (c, 0))) (8, 3, 1) = some v ∧
        v.offsets = f.offsets) ↔
      Coincides ∅ (loadTrackData [dominatorCond, calledCond] 3 5) (8, 3, 1) 5 f.offsets) := by
  have hsome : callTrack.isSome = true := by decide +kernel
  obtain ⟨⟨g', conds⟩, hrun⟩ := Option.isSome_iff_exists.mp hsome
  have hmap : (conds.map fun c => (c, 0)).map Prod.fst = conds := by
    rw [List.map_map]
    exact List.map_id conds
  have hpair : (windows (loadTrackData [dominatorCond, calledCond] (3 % 2^32) 5))[0]? =
      some (loadCond 3 5 dominatorCond, loadCond 3 5 calledCond) := by decide +kernel
  obtain ⟨-, t, t', f, ht, -, -, hf, hoff, hiff⟩ :=
    fixed_offsets_stored_iff hrun ∅ hmap 0 hpair rfl (by decide)
  obtain rfl : _ = t := Option.some.inj ht
  have hrec : recordedOffsets reference callInput ⟨callGraph, fun _ => none, []⟩
      (loadCond 3 5 dominatorCond, loadCond 3 5 calledCond) = [⟨false, 0, 2⟩] := by decide +kernel
  refine ⟨g', conds, hrun, _, f, hf, hrec, ?_, hiff (by rw [hrec]; simp)⟩
  rw [hoff, hrec]
  rfl

/-- The fixed condition is in the list, and the queue keeps the offsets of the
condition it was made from. -/
theorem fixed_condition_lost : ∃ g' conds f v, callTrack = some (g', conds) ∧
    f ∈ conds ∧ keyOf f = (8, 3, 1) ∧ f.offsets = [⟨false, 4, 8⟩, ⟨false, 0, 2⟩] ∧
    entryOf (addEntries ∅ (conds.map fun c => (c, 0))) (8, 3, 1) = some v ∧
    isDone v = false ∧ v.offsets = [⟨false, 4, 8⟩] := by
  have hrun : callTrack.map (fun r => r.2) = some [loadCond 3 5 dominatorCond,
      loadCond 3 5 calledCond, calledFixed] := by decide +kernel
  obtain ⟨⟨g', conds⟩, htrack, hconds⟩ := Option.map_eq_some_iff.mp hrun
  obtain rfl : conds = _ := hconds
  refine ⟨g', _, calledFixed, loadCond 3 5 calledCond, htrack, ?_, rfl, rfl, ?_, rfl, rfl⟩
  · exact List.mem_cons_of_mem _ (List.mem_cons_of_mem _ List.mem_cons_self)
  · decide +kernel

end Instance

end Parmesan.TrackFixed
