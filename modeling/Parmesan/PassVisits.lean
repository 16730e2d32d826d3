import Parmesan.PassIds

/-!
# The first insertion point of a block

Whatever a visit inserts, it either leaves the first insertion point of the
block alone or takes its place; no instruction of the block comes back to it.
-/

set_option autoImplicit false

namespace Parmesan.PassVisits
open Parmesan.PassModel Parmesan.PassIds Parmesan.Execution

section Slots

/-- An edit that brings in no instruction, and that either keeps the first
insertion point or takes its place. -/
def Kept (slots slots' : List Slot) : Prop :=
  (∀ x ∈ slots', x = .new ∨ x ∈ slots) ∧
    (getFirstInsertionPt slots' = getFirstInsertionPt slots ∨
      getFirstInsertionPt slots' = some .new)

theorem kept_refl (slots : List Slot) : Kept slots slots :=
  ⟨fun _ hx => Or.inr hx, Or.inl rfl⟩

theorem kept_trans {slots slots' slots'' : List Slot} (h : Kept slots slots')
    (h' : Kept slots' slots'') : Kept slots slots'' := by
  constructor
  · intro x hx
    rcases h'.1 x hx with hnew | hold
    · exact Or.inl hnew
    · exact h.1 x hold
  · rcases h'.2 with hsame | hnew
    · rw [hsame]
      exact h.2
    · exact Or.inr hnew

theorem first_cons (x : Slot) {slots slots' : List Slot}
    (hfirst : getFirstInsertionPt slots' = getFirstInsertionPt slots ∨
      getFirstInsertionPt slots' = some .new)
    (hhead : slots'.head? = slots.head? ∨ slots'.head? = some .new) :
    getFirstInsertionPt (x::slots') = getFirstInsertionPt (x::slots) ∨
      getFirstInsertionPt (x::slots') = some .new := by
  cases x with
  | new => exact Or.inl rfl
  | old k inst =>
    simp only [getFirstInsertionPt]
    split_ifs
    · exact hfirst
    · exact hhead
    · exact Or.inl rfl

theorem edit_at_kept {edit : Slot → List Slot → List Slot}
    (hmem : ∀ x slots, ∀ y ∈ edit x slots, y = .new ∨ y ∈ x::slots)
    (hfirst : ∀ x slots, ∃ rest, edit x slots = .new::rest ∨ edit x slots = x::.new::rest)
    (k : ℕ) (slots : List Slot) :
    Kept slots (editAt edit k slots) ∧ ((editAt edit k slots).head? = slots.head? ∨
      (editAt edit k slots).head? = some .new) := by
  induction slots with
  | nil => exact ⟨kept_refl [], Or.inl rfl⟩
  | cons x slots ih =>
    rw [editAt]
    split_ifs
    · obtain ⟨rest, hnew | hold⟩ := hfirst x slots
      · exact ⟨⟨hmem x slots, Or.inr (by rw [hnew]; rfl)⟩, Or.inr (by rw [hnew]; rfl)⟩
      · refine ⟨⟨hmem x slots, ?_⟩, Or.inl (by rw [hold]; rfl)⟩
        rw [hold]
        exact first_cons x (Or.inr rfl) (Or.inr rfl)
    · refine ⟨⟨?_, first_cons x ih.1.2 ih.2⟩, Or.inl rfl⟩
      intro y hy
      rcases List.mem_cons.mp hy with rfl | hy
      · exact Or.inr List.mem_cons_self
      · exact (ih.1.1 y hy).imp_right (List.mem_cons_of_mem x)

theorem insert_before_kept (k : ℕ) (slots : List Slot) : Kept slots (insertBefore k slots) := by
  refine (edit_at_kept ?_ ?_ k slots).1
  · intro x slots y hy
    exact List.mem_cons.mp hy
  · exact fun x slots => ⟨x::slots, Or.inl rfl⟩

theorem insert_after_kept (k : ℕ) (slots : List Slot) : Kept slots (insertAfter k slots) := by
  refine (edit_at_kept ?_ ?_ k slots).1
  · intro x slots y hy
    simp only [List.mem_cons] at hy ⊢
    tauto
  · exact fun x slots => ⟨slots, Or.inr rfl⟩

theorem split_before_kept (k : ℕ) (slots : List Slot) : Kept slots (splitBefore k slots) := by
  refine (edit_at_kept ?_ ?_ k slots).1
  · intro x slots y hy
    exact Or.inl (List.mem_singleton.mp hy)
  · exact fun x slots => ⟨[], Or.inl rfl⟩

theorem split_after_kept (k : ℕ) (slots : List Slot) : Kept slots (splitAfter k slots) := by
  refine (edit_at_kept ?_ ?_ k slots).1
  · intro x slots y hy
    simp only [List.mem_cons, List.not_mem_nil] at hy ⊢
    tauto
  · exact fun x slots => ⟨[], Or.inr rfl⟩

/-- The slots that hold an instruction, if any is left, hold this one. -/
def Linked (k : ℕ) (inst : Inst) (slots : List Slot) : Prop :=
  ∀ other, Slot.old k other ∈ slots → other = inst

theorem linked_of_mem {k : ℕ} {inst : Inst} {slots slots' : List Slot}
    (hmem : ∀ x ∈ slots', x = .new ∨ x ∈ slots) (h : Linked k inst slots) :
    Linked k inst slots' := by
  intro other hother
  rcases hmem _ hother with hnew | hold
  · cases hnew
  · exact h other hold

theorem erase_kept {k : ℕ} {inst : Inst} {slots : List Slot} (hlinked : Linked k inst slots)
    (hphi : isPhi inst.kind = false) (hpad : isEhPad inst.kind = false)
    (hfirst : isFirst k slots = false) : Kept slots (eraseFromParent k slots) := by
  refine ⟨fun x hx => Or.inr (List.mem_filter.mp hx).1, Or.inl ?_⟩
  induction slots with
  | nil => rfl
  | cons x slots ih =>
    cases x with
    | new => rfl
    | old j other =>
      by_cases hj : j = k
      · subst hj
        obtain rfl := hlinked other List.mem_cons_self
        simp [isFirst, getFirstInsertionPt, hphi, hpad, holds] at hfirst
      · have hkeep : eraseFromParent k (.old j other::slots) =
            .old j other::eraseFromParent k slots := by
          simp [eraseFromParent, holds, hj]
        rw [hkeep]
        simp only [isFirst, getFirstInsertionPt] at hfirst ⊢
        split_ifs at hfirst ⊢
        · exact ih (fun other hother => hlinked other (List.mem_cons_of_mem _ hother)) hfirst
        · -- the slot after a pad is the first point, so it is not the one erased
          cases slots with
          | nil => rfl
          | cons y slots =>
            have hstays : holds k y = false := hfirst
            simp [eraseFromParent, hstays]
        · rfl

end Slots

variable {cfg : Config}

section Visits

def Keeps (s t : State) : Prop := t.edges = s.edges ∧ Kept s.block t.block

theorem keeps_refl (s : State) : Keeps s s := ⟨rfl, kept_refl s.block⟩

theorem keeps_trans {s t u : State} (h : Keeps s t) (h' : Keeps t u) : Keeps s u :=
  ⟨h'.1.trans h.1, kept_trans h.2 h'.2⟩

theorem keeps_emit {edit : List Slot → List Slot} (hedit : ∀ slots, Kept slots (edit slots))
    (s : State) : Keeps s (emit edit s) := ⟨rfl, hedit s.block⟩

theorem keeps_instrument {insert split : List Slot → List Slot}
    (hinsert : ∀ slots, Kept slots (insert slots)) (hsplit : ∀ slots, Kept slots (split slots))
    (s : State) : Keeps s (instrument cfg insert split s) := by
  unfold instrument
  split
  · exact keeps_emit hsplit s
  · exact keeps_emit hinsert s
  · exact keeps_refl s

theorem keeps_process_bool_cmp {insert split : List Slot → List Slot}
    (hinsert : ∀ slots, Kept slots (insert slots)) (hsplit : ∀ slots, Kept slots (split slots))
    (ty : Ty) (s : State) : Keeps s (processBoolCmp cfg ty insert split s) := by
  unfold processBoolCmp
  split
  · split_ifs
    · exact keeps_instrument hinsert hsplit s
    · exact keeps_refl s
  · exact keeps_refl s

theorem keeps_process_cmp (k : ℕ) (opTy ty : Ty) (s : State) :
    Keeps s (processCmp cfg k opTy ty s) := by
  have hbool : Keeps s (processBoolCmp cfg ty (insertAfter k) (splitAfter k) s) :=
    keeps_process_bool_cmp (insert_after_kept k) (split_after_kept k) ty s
  have hcmp : Keeps s (instrument cfg (insertAfter k) (splitAfter k) s) :=
    keeps_instrument (insert_after_kept k) (split_after_kept k) s
  unfold processCmp
  split
  · split_ifs
    · exact keeps_refl s
    · exact hcmp
    · exact hbool
  · exact hbool
  · exact hcmp

theorem keeps_draw {k : ℕ} {inst : Inst} {s t : State}
    (h : drawInstructionId cfg k inst s = some t) : Keeps s t := by
  obtain ⟨r, -, rfl⟩ := Option.map_eq_some_iff.mp h
  exact ⟨rfl, kept_refl s.block⟩

theorem keeps_draw_if {P : Prop} [Decidable P] {k : ℕ} {inst : Inst} {edit : State → State}
    (hedit : ∀ s, Keeps s (edit s)) {s t : State}
    (h : (if P then (drawInstructionId cfg k inst s).map edit else some s) = some t) :
    Keeps s t := by
  split_ifs at h
  · obtain ⟨u, hu, rfl⟩ := Option.map_eq_some_iff.mp h
    exact keeps_trans (keeps_draw hu) (hedit u)
  · obtain rfl := Option.some.inj h
    exact keeps_refl s

theorem keeps_exploit_operand {k : ℕ} {inst : Inst} {ci : Operand × ℕ} {s t : State}
    (h : exploitOperand cfg k inst s ci = some t) : Keeps s t := by
  refine keeps_draw_if ?_ h
  intro s
  have hemit := keeps_emit (insert_before_kept k)
  by_cases hcast : isCast ci.1
  · simp only [hcast, if_true]
    split_ifs
    · exact keeps_trans (hemit s) (hemit _)
    · exact hemit s
  · simp only [hcast, Bool.false_eq_true, if_false]
    split_ifs
    · exact hemit s
    · exact keeps_refl s

theorem keeps_visit_exploitation {k : ℕ} {inst : Inst} {s t : State}
    (h : visitExploitation cfg k inst s = some t) : Keeps s t :=
  fold_relates keeps_refl (fun _ _ _ => keeps_trans) _
    (fun _ _ _ _ hstep => keeps_exploit_operand hstep) s t h

theorem keeps_visit_compare {k : ℕ} {inst : Inst} {s t : State}
    (h : visitCompareFunc cfg k inst s = some t) : Keeps s t := by
  refine keeps_draw_if ?_ h
  intro s
  split_ifs
  · exact keeps_refl s
  · split
    · split_ifs
      · exact keeps_emit (insert_before_kept k) s
      · exact keeps_refl s
    · exact keeps_refl s

theorem draw_context_edges (k edges index : ℕ) (ids : Ids) (marked : List ℕ) (block : List Slot)
    (sites : List (ℕ × Assigned)) :
    (drawContextId k ⟨ids, marked, index, block, edges, sites⟩).edges = edges := rfl

theorem draw_context_block (k edges index : ℕ) (ids : Ids) (marked : List ℕ) (block : List Slot)
    (sites : List (ℕ × Assigned)) :
    (drawContextId k ⟨ids, marked, index, block, edges, sites⟩).block = block := rfl

theorem keeps_draw_context (k : ℕ) (s : State) : Keeps s (drawContextId k s) := by
  cases s with
  | mk ids marked index block edges sites =>
    rw [Keeps, draw_context_edges, draw_context_block]
    exact ⟨rfl, kept_refl block⟩

theorem keeps_process_call {k : ℕ} {inst : Inst} {callee : Callee} {s t : State}
    (h : processCall cfg k inst callee s = some t) : Keeps s t := by
  have hemit := keeps_emit (insert_before_kept k)
  have hstore : ∀ u : State, Keeps u
      (if cfg.numFnCtx ≠ 0 then emit (insertBefore k) (drawContextId k u)
        else drawContextId k u) := by
    intro u
    split_ifs
    · exact keeps_trans (keeps_draw_context k u) (hemit _)
    · exact keeps_draw_context k u
  unfold processCall at h
  obtain ⟨u, hu, rfl⟩ := Option.map_eq_some_iff.mp h
  cases callee with
  | function intrinsic =>
    obtain ⟨v, hv, hu⟩ := Option.bind_eq_some_iff.mp hu
    exact keeps_trans (keeps_visit_compare hv)
      (keeps_trans (keeps_visit_exploitation hu) (hstore u))
  | indirect =>
    obtain rfl := Option.some.inj hu
    exact keeps_trans (hstore s) (hemit _)
  | inlineAsm =>
    obtain rfl := Option.some.inj hu
    exact keeps_trans (hstore s) (hemit _)

theorem keeps_visit_kind {k : ℕ} {inst : Inst} {s t : State} (hlinked : Linked k inst s.block)
    (hfirst : isFirst k s.block = false) (h : visitKind cfg k inst s = some t) : Keeps s t := by
  cases hkind : inst.kind with
  | call callee useEmpty ty =>
    simp only [visitKind, hkind] at h
    cases callee with
    | function intrinsic =>
      cases intrinsic with
      | true =>
        obtain rfl := Option.some.inj h
        exact keeps_refl s
      | false =>
        simp only [visitCallInst] at h
        split_ifs at h
        · obtain rfl := Option.some.inj h
          exact ⟨rfl, erase_kept hlinked (by rw [hkind]; rfl) (by rw [hkind]; rfl) hfirst⟩
        · obtain rfl := Option.some.inj h
          exact keeps_refl s
        · exact keeps_process_call h
    | indirect =>
      have hcall : processCall cfg k inst .indirect s = some t := h
      exact keeps_process_call hcall
    | inlineAsm =>
      obtain rfl := Option.some.inj h
      exact keeps_refl s
  | invoke callee ty =>
    simp only [visitKind, hkind, visitInvokeInst] at h
    split at h
    · exact keeps_process_call h
    · obtain rfl := Option.some.inj h
      exact keeps_refl s
  | branch cond =>
    simp only [visitKind, hkind] at h
    cases cond with
    | none =>
      obtain rfl := Option.some.inj h
      exact keeps_refl s
    | some c =>
      exact keeps_draw_if
        (keeps_process_bool_cmp (insert_before_kept k) (split_before_kept k) c.1.ty) h
  | switch c =>
    simp only [visitKind, hkind, visit_switch_eq] at h
    refine keeps_draw_if ?_ h
    intro u
    have hcmp : Keeps u (instrument cfg (insertBefore k) (splitBefore k) u) :=
      keeps_instrument (insert_before_kept k) (split_before_kept k) u
    split_ifs
    · exact hcmp
    · exact hcmp
  | cmp opTy ty =>
    simp only [visitKind, hkind] at h
    obtain ⟨u, hu, rfl⟩ := Option.map_eq_some_iff.mp h
    exact keeps_trans (keeps_draw hu) (keeps_process_cmp k opTy ty u)
  | _ =>
    simp only [visitKind, hkind] at h
    exact keeps_visit_exploitation h

theorem keeps_linked {k : ℕ} {inst : Inst} {s t : State} (h : Keeps s t)
    (hlinked : Linked k inst s.block) : Linked k inst t.block := linked_of_mem h.2.1 hlinked

theorem keeps_new {s t : State} (h : Keeps s t) (hnew : getFirstInsertionPt s.block = some .new) :
    getFirstInsertionPt t.block = some .new := by
  rcases h.2.2 with hsame | hnew'
  · rw [hsame, hnew]
  · exact hnew'

theorem new_not_first {slots : List Slot} (hnew : getFirstInsertionPt slots = some .new) (k : ℕ) :
    isFirst k slots = false := by
  rw [isFirst, hnew]
  rfl

theorem keeps_not_first {k : ℕ} {s t : State} (h : Keeps s t)
    (hfirst : isFirst k s.block = false) : isFirst k t.block = false := by
  rcases h.2.2 with hsame | hnew
  · rwa [isFirst, hsame]
  · exact new_not_first hnew k

def Settled (slots : List Slot) (ik : Inst × ℕ) : Prop :=
  Linked ik.2 ik.1 slots ∧ isFirst ik.2 slots = false

theorem keeps_visit {ik : Inst × ℕ} {s t : State} (hsettled : Settled s.block ik)
    (h : visit cfg s ik = some t) : Keeps s t := by
  unfold visit at h
  rw [if_neg (Bool.eq_false_iff.mp hsettled.2)] at h
  split_ifs at h
  · obtain rfl := Option.some.inj h
    exact keeps_refl s
  · exact keeps_visit_kind hsettled.1 hsettled.2 h

theorem settled_edges (iks : List (Inst × ℕ)) {s t : State}
    (hsettled : ∀ ik ∈ iks, Settled s.block ik) (h : iks.foldlM (visit cfg) s = some t) :
    t.edges = s.edges := by
  induction iks generalizing s with
  | nil =>
    obtain rfl := Option.some.inj h
    rfl
  | cons ik iks ih =>
    rw [List.foldlM_cons] at h
    obtain ⟨u, hu, h⟩ := Option.bind_eq_some_iff.mp h
    have hkeeps := keeps_visit (hsettled ik List.mem_cons_self) hu
    have hrest : ∀ jk ∈ iks, Settled u.block jk := by
      intro jk hjk
      have hbefore := hsettled jk (List.mem_cons_of_mem ik hjk)
      exact ⟨keeps_linked hkeeps hbefore.1, keeps_not_first hkeeps hbefore.2⟩
    rw [ih hrest h, hkeeps.1]

end Visits

end Parmesan.PassVisits
