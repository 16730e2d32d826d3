import Parmesan.TrackList

/-!
# The conditions that the filter keeps

`track/filter.rs`. A condition of use is kept unless an earlier one of its kind
has the same key. The two sets of the loop hold the keys of what was kept so far.
-/

set_option autoImplicit false

namespace Parmesan.CondFilter
open Parmesan.CondModel Parmesan.DepotModel Parmesan.TrackList
open Parmesan.TrackModel (MAX_COND_ORDER)

abbrev Args := ℕ × ℕ × ℕ × ℕ × ℕ

/-- Tainted or a LEN record, within the order cap, of the width of a number if it is
explored or exploited, and no test for the end of the file. -/
structure Valid (c : CondStmt) : Prop where
  tainted : c.base.op ≠ COND_LEN_OP → c.offsets ≠ []
  order : c.base.order &&& 0xFFFF ≤ MAX_COND_ORDER
  size : isExplore c.base = true ∨ isExploitable c.base = true → c.base.size ∈ [1, 2, 4, 8]
  eof : ¬ (c.base.op &&& 0xFF = COND_ICMP_EQ_OP ∧ c.base.arg2 = 2^64-1 ∧ c.offsets.length = 1 ∧
    c.base.arg1 < 256 ∧ c.base.size = 4)

theorem valid_iff (c : CondStmt) :
    Valid c ↔ ¬ (hasNoTaint c || exceedMaxOrder c || sizeNotMatch c || filterEof c) = true := by
  have htaint : hasNoTaint c = true ↔ ¬ (c.base.op ≠ COND_LEN_OP → c.offsets ≠ []) := by
    simp [hasNoTaint]
  have horder : exceedMaxOrder c = true ↔ ¬ c.base.order &&& 0xFFFF ≤ MAX_COND_ORDER := by
    simp [exceedMaxOrder]
  have hsize : sizeNotMatch c = true ↔
      ¬ (isExplore c.base = true ∨ isExploitable c.base = true → c.base.size ∈ [1, 2, 4, 8]) := by
    simp [sizeNotMatch]
  have heof : filterEof c = true ↔ (c.base.op &&& 0xFF = COND_ICMP_EQ_OP ∧ c.base.arg2 = 2^64-1 ∧
      c.offsets.length = 1 ∧ c.base.arg1 < 256 ∧ c.base.size = 4) := by
    simp [filterEof, and_assoc]
  simp only [Bool.or_eq_true, htaint, horder, hsize, heof, not_or, not_not]
  constructor
  · intro h
    exact ⟨⟨⟨h.tainted, h.order⟩, h.size⟩, h.eof⟩
  · intro h
    exact ⟨h.1.1.1, h.1.1.2, h.1.2, h.2⟩

/-- Exploitable conditions are compared by `lb1`, the others and LEN records by
`CondArgs`. -/
def dedupKey (c : CondStmt) : Option (ℕ ⊕ Args) :=
  if isExploitable c.base then some (.inl c.base.lb1)
  else if isExplore c.base || c.base.op = COND_LEN_OP then some (.inr (condArgs c))
  else none

def SameKey (c d : CondStmt) : Prop := ∃ k, dedupKey c = some k ∧ dedupKey d = some k

structure Filtered (cs : List CondStmt) : Prop where
  valid : ∀ c ∈ cs, c.isDesirable = true → Valid c
  distinct : cs.Pairwise fun c d => c.isDesirable = true → d.isDesirable = true → ¬ SameKey c d
  dropped : ∀ pre c post, cs = pre ++ c::post → c.isDesirable = false →
    ¬ Valid c ∨ ∃ d ∈ pre, d.isDesirable = true ∧ SameKey d c

section Loop
variable {labels : List ℕ} {unique : List Args}

def Seen (labels : List ℕ) (unique : List Args) : ℕ ⊕ Args → Prop
  | .inl lb1 => lb1 ∈ labels
  | .inr args => args ∈ unique

inductive Round (labels : List ℕ) (unique : List Args) (c : CondStmt) :
    CondStmt → List ℕ → List Args → Prop
  | invalid : ¬ Valid c → Round labels unique c (undesirable c) labels unique
  | again (k : ℕ ⊕ Args) : dedupKey c = some k → Seen labels unique k →
    Round labels unique c (undesirable c) labels unique
  | first (k : ℕ ⊕ Args) (labels' : List ℕ) (unique' : List Args) : Valid c →
    dedupKey c = some k → ¬ Seen labels unique k →
    (∀ k', Seen labels' unique' k' ↔ k' = k ∨ Seen labels unique k') →
    Round labels unique c c labels' unique'
  | unkeyed : Valid c → dedupKey c = none → Round labels unique c c labels unique

theorem filter_loop_round (labels : List ℕ) (unique : List Args) (c : CondStmt)
    (cs : List CondStmt) :
    ∃ c' labels' unique', Round labels unique c c' labels' unique' ∧
      filterLoop labels unique (c::cs) = c' :: filterLoop labels' unique' cs := by
  have hvalid := valid_iff c
  rw [filterLoop]
  split_ifs with hbad hexploit hlabel hexplore hargs
  · exact ⟨_, _, _, .invalid fun h => hvalid.mp h hbad, rfl⟩
  · have hkey : dedupKey c = some (.inl c.base.lb1) := by simp [dedupKey, hexploit]
    exact ⟨_, _, _, .again _ hkey hlabel, rfl⟩
  · have hkey : dedupKey c = some (.inl c.base.lb1) := by simp [dedupKey, hexploit]
    refine ⟨_, _, _, .first _ _ _ (hvalid.mpr hbad) hkey hlabel ?_, rfl⟩
    intro k
    cases k <;> simp [Seen]
  · have hkey : dedupKey c = some (.inr (condArgs c)) := by
      rw [dedupKey, if_neg hexploit, if_pos hexplore]
    exact ⟨_, _, _, .again _ hkey hargs, rfl⟩
  · have hkey : dedupKey c = some (.inr (condArgs c)) := by
      rw [dedupKey, if_neg hexploit, if_pos hexplore]
    refine ⟨_, _, _, .first _ _ _ (hvalid.mpr hbad) hkey hargs ?_, rfl⟩
    intro k
    cases k <;> simp [Seen]
  · have hkey : dedupKey c = none := by rw [dedupKey, if_neg hexploit, if_neg hexplore]
    exact ⟨_, _, _, .unkeyed (hvalid.mpr hbad) hkey, rfl⟩

def Tracks (pre : List CondStmt) (labels : List ℕ) (unique : List Args) : Prop :=
  ∀ k, Seen labels unique k ↔ ∃ d ∈ pre, d.isDesirable = true ∧ dedupKey d = some k

theorem valid_undesirable (c : CondStmt) : Valid (undesirable c) ↔ Valid c :=
  ⟨fun h => ⟨h.tainted, h.order, h.size, h.eof⟩, fun h => ⟨h.tainted, h.order, h.size, h.eof⟩⟩

theorem filtered_concat {pre : List CondStmt} {c : CondStmt} (h : Filtered pre)
    (hkept : c.isDesirable = true →
      Valid c ∧ ∀ d ∈ pre, d.isDesirable = true → ¬ SameKey d c)
    (hdropped : c.isDesirable = false →
      ¬ Valid c ∨ ∃ d ∈ pre, d.isDesirable = true ∧ SameKey d c) :
    Filtered (pre ++ [c]) where
  valid := by
    intro d hd hdes
    rcases List.mem_append.mp hd with hd | hd
    · exact h.valid d hd hdes
    · rw [List.mem_singleton.mp hd] at hdes ⊢
      exact (hkept hdes).1
  distinct := by
    apply List.pairwise_append.mpr
    refine ⟨h.distinct, List.pairwise_singleton _ c, ?_⟩
    intro d hd e he hdd hed
    rw [List.mem_singleton.mp he] at hed ⊢
    exact (hkept hed).2 d hd hdd
  dropped := by
    intro pre' d post heq hdes
    rcases List.eq_nil_or_concat post with hnil | ⟨post', e, hpost⟩
    · rw [hnil] at heq
      have hsplit := List.append_inj' heq rfl
      have hc : c = d := (List.cons.inj hsplit.2).1
      rw [← hc] at hdes ⊢
      rw [← hsplit.1]
      exact hdropped hdes
    · rw [hpost, List.concat_eq_append, ← List.cons_append, ← List.append_assoc] at heq
      exact h.dropped pre' d post' (List.append_inj' heq rfl).1 hdes

structure Progress (pre : List CondStmt) (labels : List ℕ) (unique : List Args) : Prop where
  filtered : Filtered pre
  tracks : Tracks pre labels unique

section Progress
variable {pre : List CondStmt} {c : CondStmt}

theorem progress_dropped (h : Progress pre labels unique)
    (hwhy : ¬ Valid c ∨ ∃ d ∈ pre, d.isDesirable = true ∧ SameKey d c) :
    Progress (pre ++ [undesirable c]) labels unique where
  filtered := by
    apply filtered_concat h.filtered
    · intro hkeep
      cases hkeep
    · intro _
      rw [valid_undesirable]
      exact hwhy
  tracks := by
    intro k
    rw [h.tracks k]
    constructor
    · rintro ⟨d, hd, hkey⟩
      exact ⟨d, List.mem_append_left _ hd, hkey⟩
    · rintro ⟨d, hd, hdes, hkey⟩
      rcases List.mem_append.mp hd with hd | hd
      · exact ⟨d, hd, hdes, hkey⟩
      · rw [List.mem_singleton.mp hd] at hdes
        cases hdes

theorem progress_kept {labels' : List ℕ} {unique' : List Args} (hdes : c.isDesirable = true)
    (h : Progress pre labels unique) (hvalid : Valid c)
    (hnew : ∀ d ∈ pre, d.isDesirable = true → ¬ SameKey d c)
    (hseen : ∀ k, Seen labels' unique' k ↔ dedupKey c = some k ∨ Seen labels unique k) :
    Progress (pre ++ [c]) labels' unique' where
  filtered := by
    apply filtered_concat h.filtered
    · exact fun _ => ⟨hvalid, hnew⟩
    · intro hdrop
      rw [hdes] at hdrop
      cases hdrop
  tracks := by
    intro k
    rw [hseen k, h.tracks k]
    constructor
    · rintro (hkey | ⟨d, hd, hkey⟩)
      · exact ⟨c, by simp, hdes, hkey⟩
      · exact ⟨d, List.mem_append_left _ hd, hkey⟩
    · rintro ⟨d, hd, hddes, hkey⟩
      rcases List.mem_append.mp hd with hd | hd
      · exact Or.inr ⟨d, hd, hddes, hkey⟩
      · rw [List.mem_singleton.mp hd] at hkey
        exact Or.inl hkey

theorem round_progress {c' : CondStmt} {labels' : List ℕ} {unique' : List Args}
    (hdes : c.isDesirable = true) (h : Progress pre labels unique)
    (hround : Round labels unique c c' labels' unique') :
    Progress (pre ++ [c']) labels' unique' := by
  cases hround with
  | invalid hbad => exact progress_dropped h (Or.inl hbad)
  | again k hkey hseen =>
    obtain ⟨d, hd, hddes, hdkey⟩ := (h.tracks k).mp hseen
    exact progress_dropped h (Or.inr ⟨d, hd, hddes, k, hdkey, hkey⟩)
  | first k _ _ hvalid hkey hnew hseen =>
    apply progress_kept hdes h hvalid
    · rintro d hd hddes ⟨k', hdkey, hckey⟩
      rw [hkey, Option.some.injEq] at hckey
      rw [← hckey] at hdkey
      exact hnew ((h.tracks k).mpr ⟨d, hd, hddes, hdkey⟩)
    · intro k'
      rw [hseen k', hkey, Option.some.injEq, eq_comm]
  | unkeyed hvalid hkey =>
    apply progress_kept hdes h hvalid
    · rintro d _ _ ⟨k', -, hckey⟩
      rw [hkey] at hckey
      cases hckey
    · intro k'
      simp [hkey]

end Progress

theorem filter_loop_filtered (cs pre : List CondStmt) (hdes : ∀ c ∈ cs, c.isDesirable = true)
    (h : Progress pre labels unique) : Filtered (pre ++ filterLoop labels unique cs) := by
  induction cs generalizing pre labels unique with
  | nil =>
    rw [filterLoop, List.append_nil]
    exact h.filtered
  | cons c cs ih =>
    obtain ⟨c', labels', unique', hround, heq⟩ := filter_loop_round labels unique c cs
    have hfirst := hdes c List.mem_cons_self
    rw [heq, List.append_cons]
    apply ih _ fun d hd => hdes d (List.mem_cons_of_mem c hd)
    exact round_progress hfirst h hround

theorem progress_start : Progress [] [] [] where
  filtered := ⟨by simp, List.Pairwise.nil, by simp⟩
  tracks := by
    intro k
    cases k <;> simp [Seen]

def desirable (c : CondStmt) : CondStmt := { c with isDesirable := true }

/-- The tests read every field but the flag, so a second pass repeats the first. -/
theorem filter_loop_again (labels : List ℕ) (unique : List Args) (cs : List CondStmt) :
    filterLoop labels unique (filterLoop labels unique cs) = filterLoop labels unique cs := by
  induction cs generalizing labels unique with
  | nil => rfl
  | cons c cs ih =>
    have hsame : ∀ ds, filterLoop labels unique (undesirable c::ds) =
        (filterLoop labels unique (c::ds)).modifyHead undesirable := by
      intro ds
      have htests : (hasNoTaint (undesirable c) || exceedMaxOrder (undesirable c) ||
          sizeNotMatch (undesirable c) || filterEof (undesirable c)) =
          (hasNoTaint c || exceedMaxOrder c || sizeNotMatch c || filterEof c) := rfl
      have hbase : (undesirable c).base = c.base := rfl
      have hargs : condArgs (undesirable c) = condArgs c := rfl
      rw [filterLoop, filterLoop, htests, hbase, hargs]
      split_ifs <;> rfl
    rw [filterLoop]
    split_ifs with hbad hexploit hlabel hexplore hargs
    · rw [hsame, filterLoop, if_pos hbad, ih]
      rfl
    · rw [hsame, filterLoop, if_neg hbad, if_pos hexploit, if_pos hlabel, ih]
      rfl
    · rw [filterLoop, if_neg hbad, if_pos hexploit, if_neg hlabel, ih]
    · rw [hsame, filterLoop, if_neg hbad, if_neg hexploit, if_pos hexplore, if_pos hargs, ih]
      rfl
    · rw [filterLoop, if_neg hbad, if_neg hexploit, if_pos hexplore, if_neg hargs, ih]
    · rw [filterLoop, if_neg hbad, if_neg hexploit, if_neg hexplore, ih]

end Loop

theorem exploitable_excludes {b : CondStmtBase}
    (h : (isExplore b || b.op = COND_LEN_OP) = true) : isExploitable b = false := by
  have hop : b.op ≤ 0x3FFF ∨ b.op = 0x8003 := by
    rcases Bool.or_eq_true_iff.mp h with h | h
    · exact Or.inl (of_decide_eq_true h)
    · exact Or.inr (of_decide_eq_true h)
  rw [isExploitable, Bool.and_eq_false_iff]
  rcases hop with hop | hop
  · exact Or.inl (decide_eq_false (Nat.not_lt.mpr hop))
  · rw [hop]
    exact Or.inr rfl

theorem filtered_nodup {β : Type} {cs : List CondStmt} (h : Filtered cs) {p : CondStmt → Bool}
    {part : CondStmt → β} {k : β → ℕ ⊕ Args}
    (hkey : ∀ c, p c = true → dedupKey c = some (k (part c))) :
    ((cs.filter fun c => c.isDesirable && p c).map part).Nodup := by
  rw [List.Nodup, List.pairwise_map, List.pairwise_filter]
  apply h.distinct.imp
  intro c d hdiff hc hd heq
  have hc' := Bool.and_eq_true_iff.mp hc
  have hd' := Bool.and_eq_true_iff.mp hd
  apply hdiff hc'.1 hd'.1
  exact ⟨k (part c), hkey c hc'.2, by rw [hkey d hd'.2, heq]⟩

theorem filtered_labels {cs : List CondStmt} (h : Filtered cs) :
    ((cs.filter fun c => c.isDesirable && isExploitable c.base).map fun c => c.base.lb1).Nodup := by
  apply filtered_nodup (k := Sum.inl) h
  intro c hc
  rw [dedupKey, if_pos hc]

theorem filtered_args {cs : List CondStmt} (h : Filtered cs) :
    ((cs.filter fun c => c.isDesirable && (isExplore c.base || c.base.op = COND_LEN_OP)).map
      condArgs).Nodup := by
  apply filtered_nodup (k := Sum.inr) h
  intro c hc
  rw [dedupKey, exploitable_excludes hc, if_pos hc]
  rfl

/-- `filter_cond_list` changes flags only. What it keeps is valid and has its key for
itself, what it drops is not valid or comes after a kept condition with its key, and
a second pass changes nothing. -/
theorem filter_cond_list_sound {conds : List CondStmt}
    (h : ∀ c ∈ conds, c.isDesirable = true) :
    (filterCondList conds).map desirable = conds ∧
    (∀ c ∈ filterCondList conds, c.isDesirable = true → Valid c) ∧
    (((filterCondList conds).filter fun c => c.isDesirable && isExploitable c.base).map
      fun c => c.base.lb1).Nodup ∧
    (((filterCondList conds).filter fun c =>
      c.isDesirable && (isExplore c.base || c.base.op = COND_LEN_OP)).map condArgs).Nodup ∧
    (∀ pre c post, filterCondList conds = pre ++ c::post → c.isDesirable = false →
      ¬ Valid c ∨ ∃ d ∈ pre, d.isDesirable = true ∧ SameKey d c) ∧
    filterCondList (filterCondList conds) = filterCondList conds := by
  have hf : Filtered (filterCondList conds) := filter_loop_filtered conds [] h progress_start
  have hflags : (filterCondList conds).map desirable = conds.map desirable :=
    filter_loop_map (fun _ => rfl) [] [] conds
  have hsame : conds.map desirable = conds := by
    apply (List.map_congr_left _).trans (List.map_id conds)
    intro c hc
    rw [desirable, ← h c hc]
    rfl
  exact ⟨hflags.trans hsame, hf.valid, filtered_labels hf, filtered_args hf, hf.dropped,
    filter_loop_again [] [] conds⟩

def sample (op lb1 order : ℕ) : CondStmt where
  base := ⟨1, 0, 0, order, 0, COND_FALSE_ST, 0, op, 4, lb1, 0, 5, 6⟩
  offsets := [⟨false, 0, 4⟩]
  offsetsOpt := []
  vars := []
  speed := 0
  isDesirable := true
  state := .offset

/-- An exploitable label seen twice, a record over the cap in front of the same
record below it. -/
def sampleConds : List CondStmt :=
  [sample 0x4000 3 1, sample 0x4001 3 1, sample COND_ICMP_EQ_OP 3 0xFFFF,
    sample COND_ICMP_EQ_OP 3 1]

theorem filter_cond_list_sound_sample :
    (∀ c ∈ sampleConds, c.isDesirable = true) ∧
    (filterCondList sampleConds).map CondStmt.isDesirable = [true, false, false, true] ∧
    filterCondList (filterCondList sampleConds) = filterCondList sampleConds := by
  have hall : ∀ c ∈ sampleConds, c.isDesirable = true := by decide
  exact ⟨hall, by decide, (filter_cond_list_sound hall).2.2.2.2.2⟩

end Parmesan.CondFilter
