import Parmesan.PassProbe
import Parmesan.PassVisits

/-!
# Counted blocks

A block is counted when the visited instruction is its first insertion point at
that time. The code of the counter takes that place for good, so no block is
counted twice; a block is missed when the place is taken before, or when its
instruction is skipped.
-/

set_option autoImplicit false

namespace Parmesan.PassEdges
open Parmesan.PassModel Parmesan.PassIds Parmesan.PassProbe
open Parmesan.PassVisits Parmesan.Execution

def leading : List Inst → List Inst
  | [] => []
  | inst::insts =>
    if isPhi inst.kind then inst::leading insts
    else if isEhPad inst.kind then [inst]
    else []

def body : List Inst → List Inst
  | [] => []
  | inst::insts =>
    if isPhi inst.kind then body insts
    else if isEhPad inst.kind then insts
    else inst::insts

variable (cfg : Config)

def isCasted (inst : Inst) (ci : Operand × ℕ) : Bool := isExploited cfg inst ci && isCast ci.1

def casts (inst : Inst) : Bool :=
  (inst.operands.zipIdx.take MAX_EXPLOIT_CATEGORY).any (isCasted cfg inst)

def isShifted (marked : List ℕ) (inst : Inst) : Bool :=
  !hasMetadata marked inst && casts cfg inst

def isOpen (marked : List ℕ) (insts : List Inst) : Bool :=
  match body insts with
  | [] => false
  | inst::_ => !hasMetadata marked inst && !(leading insts).any (isShifted cfg marked)

def returnsAtOnce (insts : List Inst) : Bool :=
  match body insts with
  | [inst] => isReturn inst.kind
  | _ => false

def marks (insts : List Inst) : List ℕ := (seen insts).reverse.flatMap switchMarks

/-- Whether a block is counted, given the instructions visited before it. -/
def isCounted (before : List Inst) (entry : Bool) (insts : List Inst) : Bool :=
  isOpen cfg (marks before) insts &&
    (cfg.numFnCtx = 0 || !entry && !returnsAtOnce insts)

variable {cfg}

section Leading

theorem leading_body (insts : List Inst) : leading insts ++ body insts = insts := by
  induction insts with
  | nil => rfl
  | cons inst insts ih =>
    simp only [leading, body]
    split_ifs
    · rw [List.cons_append, ih]
    · rfl
    · rfl

theorem leading_kind {insts : List Inst} {inst : Inst} (h : inst ∈ leading insts) :
    isPhi inst.kind ∨ isEhPad inst.kind := by
  induction insts with
  | nil => cases h
  | cons other insts ih =>
    rw [leading] at h
    split_ifs at h with hphi hpad
    · rcases List.mem_cons.mp h with rfl | h
      · exact Or.inl hphi
      · exact ih h
    · obtain rfl := List.mem_singleton.mp h
      exact Or.inr hpad
    · cases h

def slotsFrom (n : ℕ) (insts : List Inst) : List Slot :=
  (insts.zipIdx n).map fun ik => .old ik.2 ik.1

theorem first_slots (insts : List Inst) (n : ℕ) : getFirstInsertionPt (slotsFrom n insts) =
    (body insts).head?.map (Slot.old (n+(leading insts).length)) := by
  induction insts generalizing n with
  | nil => rfl
  | cons inst insts ih =>
    have hcons : slotsFrom n (inst::insts) = .old n inst::slotsFrom (n+1) insts := rfl
    rw [hcons, getFirstInsertionPt, leading, body]
    split_ifs
    · rw [ih, List.length_cons, Nat.add_right_comm, Nat.add_assoc]
    · cases insts <;> rfl
    · rfl

theorem first_insert_before (insts : List Inst) (n k : ℕ) (hk : k < (leading insts).length) :
    getFirstInsertionPt (insertBefore (n+k) (slotsFrom n insts)) = some .new := by
  induction insts generalizing n k with
  | nil => cases hk
  | cons inst insts ih =>
    have hcons : slotsFrom n (inst::insts) = .old n inst::slotsFrom (n+1) insts := rfl
    rw [hcons, insertBefore, editAt]
    rw [leading] at hk
    cases k with
    | zero => simp [holds, getFirstInsertionPt]
    | succ k =>
      have hother : holds (n+(k+1)) (.old n inst) = false := by simp [holds]
      rw [hother, if_neg Bool.false_ne_true, getFirstInsertionPt]
      split_ifs at hk ⊢
      · have hrest := ih (n+1) k (by simpa using hk)
        rwa [Nat.add_right_comm, Nat.add_assoc] at hrest
      · simp at hk
      · cases hk

theorem linked_slots {insts : List Inst} {ik : Inst × ℕ} (hik : ik ∈ insts.zipIdx) :
    Linked ik.2 ik.1 (slotsOf insts) := by
  intro other hother
  obtain ⟨jk, hjk, heq⟩ := List.mem_map.mp hother
  obtain ⟨hindex, hother⟩ := Slot.old.inj heq
  have hfound := List.mem_zipIdx_iff_getElem?.mp hik
  have hfound' := List.mem_zipIdx_iff_getElem?.mp hjk
  rw [hindex, hfound, hother] at hfound'
  exact (Option.some.inj hfound').symm

theorem visit_kind_leading {inst : Inst} (h : isPhi inst.kind ∨ isEhPad inst.kind) (k : ℕ)
    (s : State) : visitKind cfg k inst s = visitExploitation cfg k inst s := by
  unfold visitKind
  cases hkind : inst.kind with
  | phi ty => rfl
  | ehPad ty => rfl
  | _ => simp [hkind, isPhi, isEhPad] at h

theorem exploit_operand_block (hfast : cfg.mode = .fast) {k : ℕ} {inst : Inst} {ci : Operand × ℕ}
    {s t : State} (h : exploitOperand cfg k inst s ci = some t) :
    t.block = if isCasted cfg inst ci then insertBefore k s.block else s.block := by
  have htrack : cfg.mode ≠ .track := by
    rw [hfast]
    exact Mode.noConfusion
  unfold exploitOperand at h
  by_cases htaken : isExploited cfg inst ci
  · rw [if_pos htaken] at h
    obtain ⟨u, hu, rfl⟩ := Option.map_eq_some_iff.mp h
    obtain ⟨r, -, rfl⟩ := Option.map_eq_some_iff.mp hu
    by_cases hcast : isCast ci.1
    · simp [isCasted, htaken, hcast, htrack, emit]
    · simp [isCasted, hcast, htrack]
  · rw [if_neg htaken] at h
    obtain rfl := Option.some.inj h
    simp [isCasted, htaken]

theorem exploit_operands_block (hfast : cfg.mode = .fast) {k : ℕ} {inst : Inst}
    (operands : List (Operand × ℕ)) {s t : State}
    (h : operands.foldlM (exploitOperand cfg k inst) s = some t) :
    (operands.any (isCasted cfg inst) = false → t.block = s.block) ∧
      (operands.any (isCasted cfg inst) = true →
        getFirstInsertionPt (insertBefore k s.block) = some .new →
          getFirstInsertionPt t.block = some .new) := by
  induction operands generalizing s with
  | nil =>
    obtain rfl := Option.some.inj h
    exact ⟨fun _ => rfl, fun hany => absurd hany Bool.false_ne_true⟩
  | cons ci operands ih =>
    rw [List.foldlM_cons] at h
    obtain ⟨u, hu, h⟩ := Option.bind_eq_some_iff.mp h
    have hblock := exploit_operand_block hfast hu
    have hrest : Keeps u t := fold_relates keeps_refl (fun _ _ _ => keeps_trans) _
      (fun _ _ _ _ hstep => keeps_exploit_operand hstep) u t h
    cases hcast : isCasted cfg inst ci with
    | true =>
      rw [if_pos hcast] at hblock
      simp only [List.any_cons, hcast, Bool.true_or]
      refine ⟨fun hfalse => absurd hfalse (Bool.noConfusion), fun _ hnew => ?_⟩
      rw [← hblock] at hnew
      exact keeps_new hrest hnew
    | false =>
      rw [if_neg (Bool.eq_false_iff.mp hcast)] at hblock
      simp only [List.any_cons, hcast, Bool.false_or, ← hblock]
      exact ih h

end Leading

section Marks

theorem assign_marked {k : ℕ} {inst : Inst} {n m : Numbering} {d : Draw}
    (h : assign cfg k inst n d = some m) : m.marked = n.marked := by
  cases d with
  | instruction =>
    obtain ⟨r, -, rfl⟩ := Option.map_eq_some_iff.mp h
    rfl
  | context =>
    cases n with
    | mk ids marked sites =>
      rw [assign] at h
      obtain rfl := Option.some.inj h
      rfl

theorem number_marked {n m : Numbering} {ik : Inst × ℕ} (h : number cfg n ik = some m) :
    m.marked = (if hasMetadata n.marked ik.1 then [] else switchMarks ik.1) ++ n.marked := by
  unfold number at h
  split_ifs at h with hskip
  · obtain rfl := Option.some.inj h
    rw [if_pos hskip, List.nil_append]
  · obtain ⟨u, hu, rfl⟩ := Option.map_eq_some_iff.mp h
    have htrans : ∀ a b c : Numbering, a.marked = b.marked → b.marked = c.marked →
        a.marked = c.marked := fun _ _ _ hab hbc => hab.trans hbc
    have hsame : n.marked = u.marked := fold_relates (R := fun a b => a.marked = b.marked)
      (fun _ => rfl) htrans _ (fun _ _ _ _ hstep => (assign_marked hstep).symm) n u hu
    rw [if_neg hskip, hsame]

theorem visit_marked {s t : State} {ik : Inst × ℕ} (h : visit cfg s ik = some t) :
    t.marked = (if hasMetadata s.marked ik.1 then [] else switchMarks ik.1) ++ s.marked := by
  have hnumber := @view_visit cfg s ik
  rw [h] at hnumber
  exact number_marked hnumber.symm

theorem marks_snoc (insts : List Inst) (inst : Inst) :
    marks (insts ++ [inst]) = (if inst.nosanitize then [] else switchMarks inst) ++ marks insts := by
  simp only [marks, seen_append, List.reverse_append, List.flatMap_append]
  cases hno : inst.nosanitize <;> simp [seen, hno]

/-- A switch has no value, so only its own metadata can have it skipped. -/
theorem visit_marks {s t : State} {ik : Inst × ℕ} {before : List Inst}
    (hmarks : s.marked = marks before) (h : visit cfg s ik = some t) :
    t.marked = marks (before ++ [ik.1]) := by
  rw [visit_marked h, marks_snoc, hmarks]
  cases hkind : ik.1.kind with
  | switch c => simp [hasMetadata, hkind, valueTy]
  | _ => simp [switchMarks, hkind]

theorem visit_fold_marks (insts : List Inst) (n : ℕ) {s t : State} {before : List Inst}
    (hmarks : s.marked = marks before) (h : (insts.zipIdx n).foldlM (visit cfg) s = some t) :
    t.marked = marks (before ++ insts) := by
  induction insts generalizing n s before with
  | nil =>
    obtain rfl := Option.some.inj h
    rw [hmarks, List.append_nil]
  | cons inst insts ih =>
    rw [List.zipIdx_cons, List.foldlM_cons] at h
    obtain ⟨u, hu, h⟩ := Option.bind_eq_some_iff.mp h
    rw [← List.singleton_append, ← List.append_assoc]
    exact ih (n+1) (visit_marks hmarks hu) h

end Marks

section Blocks

theorem is_first_slots (insts : List Inst) (k : ℕ) :
    isFirst k (slotsOf insts) = true ↔ k = (leading insts).length ∧ body insts ≠ [] := by
  have hfirst : getFirstInsertionPt (slotsOf insts) =
      (body insts).head?.map (Slot.old (leading insts).length) := by
    have hslots := first_slots insts 0
    rwa [Nat.zero_add] at hslots
  rw [isFirst, hfirst]
  cases body insts with
  | nil => simp
  | cons inst rest => simp [holds, eq_comm]

theorem leading_mem {insts heads rest : List Inst} {inst : Inst}
    (h : leading insts = heads ++ inst::rest) :
    (inst, heads.length) ∈ insts.zipIdx ∧ heads.length < (leading insts).length := by
  have hin : insts = heads ++ inst::(rest ++ body insts) := by
    conv_lhs => rw [← leading_body insts, h, List.append_assoc, List.cons_append]
  constructor
  · rw [List.mem_zipIdx_iff_getElem?, hin]
    simp
  · rw [h]
    simp

theorem leading_marks {inst : Inst} (h : isPhi inst.kind ∨ isEhPad inst.kind) :
    switchMarks inst = [] := by
  cases hkind : inst.kind with
  | switch c => simp [hkind, isPhi, isEhPad] at h
  | _ => simp [switchMarks, hkind]

theorem visit_leading (hfast : cfg.mode = .fast) {insts heads rest : List Inst}
    (hheads : leading insts = heads ++ rest) {s t : State} (hblock : s.block = slotsOf insts)
    (h : heads.zipIdx.foldlM (visit cfg) s = some t) :
    Keeps s t ∧ t.marked = s.marked ∧
      (heads.any (isShifted cfg s.marked) = false → t.block = slotsOf insts) ∧
      (heads.any (isShifted cfg s.marked) = true → getFirstInsertionPt t.block = some .new) := by
  induction heads using List.reverseRecOn generalizing rest t with
  | nil =>
    obtain rfl := Option.some.inj h
    exact ⟨keeps_refl s, rfl, fun _ => hblock, fun hany => absurd hany Bool.false_ne_true⟩
  | append_singleton heads inst ih =>
    rw [List.zipIdx_append, List.foldlM_append] at h
    obtain ⟨u, hu, h⟩ := Option.bind_eq_some_iff.mp h
    rw [List.append_assoc, List.singleton_append] at hheads
    obtain ⟨hkeeps, hmarked, hsame, hnew⟩ := ih hheads hu
    obtain ⟨hmem, hlength⟩ := leading_mem hheads
    have hkind : isPhi inst.kind ∨ isEhPad inst.kind := by
      apply @leading_kind insts
      rw [hheads]
      simp
    have hvisit : visit cfg u (inst, heads.length) = some t := by simpa using h
    have hfirst : isFirst heads.length s.block = false := by
      rw [hblock, Bool.eq_false_iff, Ne, is_first_slots]
      omega
    have hsettled : Settled u.block (inst, heads.length) := by
      constructor
      · apply keeps_linked hkeeps
        rw [hblock]
        exact linked_slots hmem
      · exact keeps_not_first hkeeps hfirst
    have hstep : Keeps u t := keeps_visit hsettled hvisit
    refine ⟨keeps_trans hkeeps hstep, ?_, ?_⟩
    · rw [visit_marked hvisit, leading_marks hkind, ite_self, List.nil_append, hmarked]
    · have hany : (heads ++ [inst]).any (isShifted cfg s.marked) =
          (heads.any (isShifted cfg s.marked) || isShifted cfg u.marked inst) := by
        rw [List.any_append, List.any_cons, List.any_nil, Bool.or_false, hmarked]
      rw [hany, Bool.or_eq_false_iff, Bool.or_eq_true]
      rw [visit, if_neg (Bool.eq_false_iff.mp hsettled.2), visit_kind_leading hkind] at hvisit
      cases hskip : hasMetadata u.marked inst with
      | true =>
        rw [if_pos hskip] at hvisit
        obtain rfl := Option.some.inj hvisit
        have hshift : isShifted cfg u.marked inst = false := by simp [isShifted, hskip]
        rw [hshift]
        exact ⟨fun hnone => hsame hnone.1,
          fun hsome => hnew (hsome.resolve_right Bool.false_ne_true)⟩
      | false =>
        rw [if_neg (Bool.eq_false_iff.mp hskip)] at hvisit
        have hshift : isShifted cfg u.marked inst = casts cfg inst := by simp [isShifted, hskip]
        obtain ⟨halone, htaken⟩ := exploit_operands_block hfast _ hvisit
        rw [hshift]
        constructor
        · intro hnone
          rw [halone hnone.2, hsame hnone.1]
        · intro hsome
          cases hbefore : heads.any (isShifted cfg s.marked) with
          | true => exact keeps_new hstep (hnew hbefore)
          | false =>
            have hcasts := hsome.resolve_left (Bool.eq_false_iff.mp hbefore)
            apply htaken hcasts
            have htake := first_insert_before insts 0 heads.length hlength
            rw [hsame hbefore]
            rwa [Nat.zero_add] at htake

theorem insert_first_new {slots : List Slot} (h : getFirstInsertionPt slots ≠ none) :
    getFirstInsertionPt (insertFirst slots) = some .new := by
  induction slots with
  | nil => exact absurd rfl h
  | cons x slots ih =>
    cases x with
    | new => rfl
    | old k inst =>
      rw [insertFirst]
      rw [getFirstInsertionPt] at h
      by_cases hphi : isPhi inst.kind
      · rw [if_pos hphi] at h ⊢
        rw [getFirstInsertionPt, if_pos hphi]
        exact ih h
      · rw [if_neg hphi] at h ⊢
        by_cases hpad : isEhPad inst.kind
        · rw [if_pos hpad, getFirstInsertionPt, if_neg hphi, if_pos hpad]
          rfl
        · rw [if_neg hpad]
          rfl

theorem insert_first_mem (slots : List Slot) : ∀ x ∈ insertFirst slots, x = .new ∨ x ∈ slots := by
  induction slots with
  | nil => exact fun x hx => Or.inr hx
  | cons y slots ih =>
    intro x hx
    cases y with
    | new => simpa [insertFirst] using hx
    | old k inst =>
      rw [insertFirst] at hx
      split_ifs at hx
      · rcases List.mem_cons.mp hx with rfl | hx
        · exact Or.inr List.mem_cons_self
        · exact (ih x hx).imp_right (List.mem_cons_of_mem _)
      · simp only [List.mem_cons] at hx ⊢
        tauto
      · exact List.mem_cons.mp hx

theorem count_edge_first (hfast : cfg.mode = .fast) (hratio : cfg.instRatio = 100) {k : ℕ}
    {s : State} (hfirst : isFirst k s.block = true) :
    (countEdge cfg s).edges = s.edges+1 ∧
      getFirstInsertionPt (countEdge cfg s).block = some .new ∧
      ∀ x ∈ (countEdge cfg s).block, x = .new ∨ x ∈ s.block := by
  have hkeep : ¬cfg.instRatio ≤ cfg.random s.randomIndex % 100 := by
    rw [hratio]
    omega
  have hpoint : getFirstInsertionPt s.block ≠ none := by
    intro hnone
    rw [isFirst, hnone] at hfirst
    exact absurd hfirst Bool.false_ne_true
  rw [countEdge, if_neg (not_not.mpr hfast), if_neg hkeep]
  exact ⟨rfl, insert_first_new hpoint, insert_first_mem s.block⟩

theorem visit_first (hfast : cfg.mode = .fast) (hratio : cfg.instRatio = 100) {ik : Inst × ℕ}
    {s t : State} (hlinked : Linked ik.2 ik.1 s.block) (hfirst : isFirst ik.2 s.block = true)
    (hskip : hasMetadata s.marked ik.1 = false) (h : visit cfg s ik = some t) :
    t.edges = s.edges+1 ∧ getFirstInsertionPt t.block = some .new ∧
      ∀ x ∈ t.block, x = .new ∨ x ∈ s.block := by
  rw [visit, if_neg (Bool.eq_false_iff.mp hskip), if_pos hfirst] at h
  obtain ⟨hedges, hnew, hmem⟩ := count_edge_first hfast hratio hfirst
  have hkeeps := keeps_visit_kind (linked_of_mem hmem hlinked) (new_not_first hnew ik.2) h
  refine ⟨by rw [hkeeps.1, hedges], keeps_new hkeeps hnew, ?_⟩
  intro x hx
  rcases hkeeps.2.1 x hx with hnew | hold
  · exact Or.inl hnew
  · exact hmem x hold

theorem visit_block_edges (hfast : cfg.mode = .fast) (hratio : cfg.instRatio = 100)
    {insts : List Inst} {s t : State} (h : visitBlock cfg insts s = some t) :
    t.edges = if isOpen cfg s.marked insts then 1 else 0 := by
  have hzip : insts.zipIdx =
      (leading insts).zipIdx ++ (body insts).zipIdx (leading insts).length := by
    conv_lhs => rw [← leading_body insts, List.zipIdx_append, Nat.zero_add]
  rw [visitBlock, hzip, List.foldlM_append] at h
  obtain ⟨u, hu, h⟩ := Option.bind_eq_some_iff.mp h
  obtain ⟨hkeeps, hmarked, hsame, hnew⟩ := visit_leading hfast (List.append_nil _).symm rfl hu
  have hedges : u.edges = 0 := hkeeps.1
  have hlinked : ∀ ik ∈ (body insts).zipIdx (leading insts).length, Linked ik.2 ik.1 u.block := by
    intro ik hik
    apply keeps_linked hkeeps
    apply linked_slots
    rw [hzip]
    exact List.mem_append_right _ hik
  cases hshift : (leading insts).any (isShifted cfg s.marked) with
  | true =>
    -- the first point is taken before it is reached
    have hclosed : isOpen cfg s.marked insts = false := by
      unfold isOpen
      split
      · rfl
      · rw [hshift]
        simp
    rw [hclosed, if_neg Bool.false_ne_true, ← hedges]
    refine settled_edges _ ?_ h
    exact fun ik hik => ⟨hlinked ik hik, new_not_first (hnew hshift) ik.2⟩
  | false =>
    have hblock : u.block = slotsOf insts := hsame hshift
    cases hbody : body insts with
    | nil =>
      rw [hbody] at h
      obtain rfl := Option.some.inj h
      rw [isOpen, hbody, hedges, if_neg Bool.false_ne_true]
    | cons inst rest =>
      have hopen : isOpen cfg s.marked insts = !hasMetadata u.marked inst := by
        simp only [isOpen, hbody, hshift, Bool.not_false, Bool.and_true, hmarked]
      have hfirst : isFirst (leading insts).length u.block = true := by
        rw [hblock, is_first_slots, hbody]
        exact ⟨rfl, List.cons_ne_nil inst rest⟩
      rw [hbody, List.zipIdx_cons] at h hlinked
      rw [List.foldlM_cons] at h
      obtain ⟨v, hv, h⟩ := Option.bind_eq_some_iff.mp h
      cases hskip : hasMetadata u.marked inst with
      | true =>
        rw [visit, if_pos hskip] at hv
        obtain rfl := Option.some.inj hv
        rw [hopen, hskip, if_neg (by simp), ← hedges]
        refine settled_edges _ ?_ h
        intro ik hik
        refine ⟨hlinked ik (List.mem_cons_of_mem _ hik), ?_⟩
        have hindex := List.le_snd_of_mem_zipIdx hik
        rw [hblock, Bool.eq_false_iff, Ne, is_first_slots]
        omega
      | false =>
        obtain ⟨hcounted, htaken, hmem⟩ :=
          visit_first hfast hratio (hlinked _ List.mem_cons_self) hfirst hskip hv
        rw [hopen, hskip, if_pos (by simp), settled_edges _ ?_ h, hcounted, hedges]
        intro ik hik
        have hbefore := hlinked ik (List.mem_cons_of_mem _ hik)
        exact ⟨linked_of_mem hmem hbefore, new_not_first htaken ik.2⟩

end Blocks

section Wrapped

theorem leading_insert_post (insts : List Inst) :
    leading (insertPost insts) = leading insts ∧
      body (insertPost insts) = insertPost (body insts) := by
  induction insts using insertPost.induct with
  | case1 => exact ⟨rfl, rfl⟩
  | case2 inst hreturn =>
    cases hkind : inst.kind with
    | ret => simp [insertPost, leading, body, hkind, isReturn, isPhi, isEhPad, emitted]
    | resume => simp [insertPost, leading, body, hkind, isReturn, isPhi, isEhPad, emitted]
    | _ => simp [hkind, isReturn] at hreturn
  | case3 inst hreturn =>
    have hsame : insertPost [inst] = [inst] := by simp [insertPost, hreturn]
    rw [hsame]
    refine ⟨rfl, ?_⟩
    simp only [body]
    split_ifs
    · rfl
    · rfl
    · exact hsame.symm
  | case4 inst insts hne ih =>
    have hsame : insertPost (inst::insts) = inst::insertPost insts := by
      rw [insertPost]
      exact hne
    rw [hsame]
    simp only [leading, body]
    split_ifs
    · exact ⟨by rw [ih.1], ih.2⟩
    · exact ⟨rfl, rfl⟩
    · exact ⟨rfl, hsame.symm⟩

theorem emitted_skipped (marked : List ℕ) : hasMetadata marked emitted = true := rfl

theorem insert_post_open (marked : List ℕ) (insts : List Inst) :
    isOpen cfg marked (insertPost insts) = (isOpen cfg marked insts && !returnsAtOnce insts) := by
  have hpost := leading_insert_post insts
  simp only [isOpen, returnsAtOnce, hpost.1, hpost.2]
  cases body insts with
  | nil => rfl
  | cons inst rest =>
    cases rest with
    | nil =>
      cases hreturn : isReturn inst.kind with
      | true => simp [insertPost, hreturn, emitted_skipped]
      | false => simp [insertPost, hreturn]
    | cons other rest => simp [insertPost]

theorem insert_wrap_closed (marked : List ℕ) (insts : List Inst) :
    isOpen cfg marked (insertWrap insts) = false := by
  have hbody : body (insertWrap insts) = [] ∨ ∃ rest, body (insertWrap insts) = emitted::rest := by
    induction insts with
    | nil => exact Or.inl rfl
    | cons inst insts ih =>
      rw [insertWrap]
      split_ifs with hphi hpad
      · rw [body, if_pos hphi]
        exact ih
      · rw [body, if_neg hphi, if_pos hpad]
        exact Or.inr ⟨insts, rfl⟩
      · exact Or.inr ⟨inst::insts, rfl⟩
  rcases hbody with hnone | ⟨rest, hsome⟩
  · simp only [isOpen, hnone]
  · simp only [isOpen, hsome, emitted_skipped, Bool.not_true, Bool.false_and]

theorem wrap_block_open (before : List Inst) (entry : Bool) (insts : List Inst) :
    isOpen cfg (marks before) (wrapBlock cfg entry insts) = isCounted cfg before entry insts := by
  unfold wrapBlock isCounted
  by_cases hctx : cfg.numFnCtx = 0
  · simp [hctx]
  · rw [if_neg hctx, insert_post_open]
    cases entry with
    | true => simp [insert_wrap_closed, hctx]
    | false => simp [hctx]

end Wrapped

section Module

theorem add_fn_wrap_get (blocks : List (List Inst)) (j : ℕ) :
    (addFnWrap cfg blocks)[j]? = blocks[j]?.map (wrapBlock cfg (j = 0)) := by
  cases blocks with
  | nil =>
    unfold addFnWrap
    split_ifs <;> rfl
  | cons insts blocks =>
    rw [add_fn_wrap_cons]
    cases j with
    | zero => rfl
    | succ j => simp

theorem run_blocks_edges (hfast : cfg.mode = .fast) (hratio : cfg.instRatio = 100)
    (blocks : List (List Inst)) {s : State} {before : List Inst} {r : List Report × State}
    (hmarks : s.marked = marks before) (h : runBlocks cfg blocks s = some r) :
    r.2.marked = marks (before ++ blocks.flatten) ∧
      ∀ j, r.1[j]?.map Report.edges = blocks[j]?.map fun insts =>
        if isOpen cfg (marks (before ++ (blocks.take j).flatten)) insts then 1 else 0 := by
  induction blocks generalizing s before r with
  | nil =>
    obtain rfl := Option.some.inj h
    simp [hmarks]
  | cons insts blocks ih =>
    rw [runBlocks] at h
    obtain ⟨t, ht, h⟩ := Option.bind_eq_some_iff.mp h
    obtain ⟨q, hq, rfl⟩ := Option.map_eq_some_iff.mp h
    have hafter : t.marked = marks (before ++ insts) :=
      @visit_fold_marks cfg insts 0 { s with block := slotsOf insts, edges := 0, sites := [] } t
        before hmarks ht
    obtain ⟨hlast, hedges⟩ := ih hafter hq
    refine ⟨by rw [hlast, List.flatten_cons, List.append_assoc], ?_⟩
    intro j
    cases j with
    | zero => simp [visit_block_edges hfast hratio ht, hmarks]
    | succ j =>
      rw [List.getElem?_cons_succ, List.getElem?_cons_succ, hedges j, List.take_succ_cons,
        List.flatten_cons, List.append_assoc]

theorem marks_congr {insts insts' : List Inst} (before : List Inst) (h : seen insts = seen insts') :
    marks (before ++ insts) = marks (before ++ insts') := by
  simp only [marks, seen_append, h]

theorem run_fn_edges (hfast : cfg.mode = .fast) (hratio : cfg.instRatio = 100)
    {f : Fn} {s : State} {before : List Inst} {r : List Report × State}
    (hmarks : s.marked = marks before) (h : runFn cfg f s = some r) :
    r.2.marked = marks (before ++ visited [f]) ∧ (isSkipped f = false → ∀ j,
      r.1[j]?.map Report.edges = f.blocks[j]?.map fun insts =>
        if isCounted cfg (before ++ (f.blocks.take j).flatten) (j = 0) insts then 1 else 0) := by
  have hvisited : visited [f] = if isSkipped f then [] else f.blocks.flatten := by
    rw [visited_cons]
    exact List.append_nil _
  rw [hvisited]
  unfold runFn at h
  split_ifs at h ⊢ with hskip
  · obtain rfl := Option.some.inj h
    rw [List.append_nil]
    exact ⟨hmarks, fun hno => absurd hskip (Bool.eq_false_iff.mp hno)⟩
  · obtain ⟨hlast, hedges⟩ := run_blocks_edges hfast hratio _ hmarks h
    refine ⟨by rw [hlast, marks_congr before (seen_wrap_all cfg f.blocks)], ?_⟩
    intro _ j
    rw [hedges j, add_fn_wrap_get, Option.map_map, marks_congr before (seen_wrap cfg f.blocks j)]
    simp only [Function.comp_def, wrap_block_open]

theorem run_fns_edges (hfast : cfg.mode = .fast) (hratio : cfg.instRatio = 100)
    (fns : List Fn) {s : State} {before : List Inst} {r : List (List Report) × State}
    (hmarks : s.marked = marks before) (h : runFns cfg fns s = some r) (i : ℕ) {f : Fn}
    (hf : fns[i]? = some f) (hskip : isSkipped f = false) :
    ∃ reports, r.1[i]? = some reports ∧ ∀ j, reports[j]?.map Report.edges =
      f.blocks[j]?.map fun insts =>
        if isCounted cfg (before ++ visited (fns.take i) ++ (f.blocks.take j).flatten) (j = 0) insts
          then 1 else 0 := by
  induction fns generalizing s before r i with
  | nil => cases hf
  | cons g fns ih =>
    rw [runFns] at h
    obtain ⟨t, ht, h⟩ := Option.bind_eq_some_iff.mp h
    obtain ⟨q, hq, rfl⟩ := Option.map_eq_some_iff.mp h
    obtain ⟨hlast, hedges⟩ := run_fn_edges hfast hratio hmarks ht
    cases i with
    | zero =>
      obtain rfl := Option.some.inj hf
      refine ⟨t.1, rfl, ?_⟩
      intro j
      rw [hedges hskip j, List.take_zero, visited, List.flatMap_nil, List.append_nil]
    | succ i =>
      obtain ⟨reports, hreports, hrest⟩ := ih hlast hq i hf
      refine ⟨reports, hreports, ?_⟩
      intro j
      have hvisited : before ++ visited [g] ++ visited (fns.take i) =
          before ++ visited (g::fns.take i) := by simp [visited]
      rw [hrest j, List.take_succ_cons, hvisited]

def Covered (fns : List Fn) (out : List (List Report)) : Prop :=
  ∀ (i : ℕ) (f : Fn), fns[i]? = some f → isSkipped f = false →
    ∀ (j : ℕ) (insts : List Inst), f.blocks[j]? = some insts →
      ∃ reports : List Report, out[i]? = some reports ∧
        ∃ report : Report, reports[j]? = some report ∧ report.edges = 1

def Countable (cfg : Config) (fns : List Fn) : Prop :=
  ∀ (i : ℕ) (f : Fn), fns[i]? = some f → isSkipped f = false →
    ∀ (j : ℕ) (insts : List Inst), f.blocks[j]? = some insts →
      isCounted cfg (visited (fns.take i) ++ (f.blocks.take j).flatten) (j = 0) insts = true

/-- The pass returns for any module of a possible size, if the set of numbers
answers, and it counts all blocks exactly if the place of no counter is taken
and none is skipped. -/
theorem covered_iff_countable (hfast : cfg.mode = .fast) (hratio : cfg.instRatio = 100)
    (fns : List Fn) :
    (Answers cfg.denseSet → 7*(seen (visited fns)).length ≤ 2^31 →
      ∃ out, runOnModule cfg fns = some out) ∧
    ∀ out, runOnModule cfg fns = some out → (Covered fns out ↔ Countable cfg fns) := by
  have hmode : cfg.mode ≠ .dfsan := by
    rw [hfast]
    exact Mode.noConfusion
  refine ⟨fun hset => run_returns hset hmode fns, ?_⟩
  intro out hout
  rw [runOnModule, if_neg hmode] at hout
  obtain ⟨r, hr, rfl⟩ := Option.map_eq_some_iff.mp hout
  have hedges := @run_fns_edges cfg hfast hratio fns (initVariables cfg) [] r rfl hr
  constructor
  · intro hall i f hf hskip j insts hinsts
    obtain ⟨reports, hreports, hblocks⟩ := hedges i hf hskip
    obtain ⟨reports', hreports', report, hreport, hone⟩ := hall i f hf hskip j insts hinsts
    obtain rfl : reports = reports' := Option.some.inj (hreports.symm.trans hreports')
    have hblock := hblocks j
    rw [hreport, hinsts, Option.map_some, Option.map_some, hone, List.nil_append] at hblock
    by_contra hnot
    rw [if_neg hnot] at hblock
    cases hblock
  · intro hall i f hf hskip j insts hinsts
    obtain ⟨reports, hreports, hblocks⟩ := hedges i hf hskip
    have hblock := hblocks j
    rw [hinsts, Option.map_some, List.nil_append,
      if_pos (hall i f hf hskip j insts hinsts)] at hblock
    obtain ⟨report, hreport, hone⟩ := Option.map_eq_some_iff.mp hblock
    exact ⟨reports, hreports, report, hreport, hone⟩

def callAndReturn : Fn :=
  ⟨"main", false,
    [[⟨0, .call (.function false) true .other, "work", [], some (3, 5), false⟩,
      ⟨1, .branch none, "br", [], none, false⟩],
    [⟨2, .ret, "ret", [], none, false⟩]]⟩

def fastConfig (numFnCtx : ℤ) : Config :=
  ⟨.fast, false, false, numFnCtx, 100, 7, fun _ _ _ => false, fun i => i, plainSet⟩

theorem covered_iff_countable_no_context : ∃ out,
    runOnModule (fastConfig 0) [callAndReturn] = some out ∧ Covered [callAndReturn] out := by
  have hthm := @covered_iff_countable (fastConfig 0) rfl rfl [callAndReturn]
  obtain ⟨out, hout⟩ := hthm.1 plain_set_answers (by decide)
  refine ⟨out, hout, (hthm.2 out hout).mpr ?_⟩
  intro i f hf hskip j insts hinsts
  cases i with
  | zero =>
    obtain rfl := Option.some.inj hf
    match j, hinsts with
    | 0, hinsts =>
      obtain rfl := Option.some.inj hinsts
      decide
    | 1, hinsts =>
      obtain rfl := Option.some.inj hinsts
      decide
  | succ i => cases hf

/-- With contexts neither the entry of a function nor its return is counted. -/
theorem default_context_uncounted : ∃ out,
    runOnModule (fastConfig (-1)) [callAndReturn] = some out ∧ ¬Covered [callAndReturn] out := by
  refine ⟨[[⟨0, [(1, .context 808244)]⟩, ⟨0, []⟩]], by decide +kernel, ?_⟩
  intro hall
  obtain ⟨reports, hreports, report, hreport, hone⟩ :=
    hall 0 callAndReturn rfl (by decide) 1 _ rfl
  obtain rfl := Option.some.inj hreports
  obtain rfl := Option.some.inj hreport
  cases hone

end Module

end Parmesan.PassEdges
