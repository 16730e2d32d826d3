import Mathlib.Data.List.Forall2
import Mathlib.Data.List.Perm.Basic
import Parmesan.DiffModel

/-!
# Equal instructions

When the engine finds no difference between two instructions, they have one kind, their
operands are equivalent in pairs and their successors are unified in pairs. The
incoming values of a phi are not compared.
-/

set_option autoImplicit false

namespace Parmesan.DiffSame
open Parmesan.DiffModel

def SameCases (succ : ℕ → ℕ → Prop) (lcases rcases : List (ℕ × ℕ)) : Prop :=
  ∃ ordered, lcases.Perm ordered ∧
    List.Forall₂ (fun l r => l.1 = r.1 ∧ succ l.2 r.2) ordered rcases

inductive SameBody (opnd : Value → Value → Prop) (succ : ℕ → ℕ → Prop) : Body → Body → Prop where
  | cmp {f p ls rs} : List.Forall₂ opnd ls rs → SameBody opnd succ (.cmp f p ls) (.cmp f p rs)
  | call {lc rc la ra} : opnd lc rc → List.Forall₂ opnd la ra →
      SameBody opnd succ (.call lc la) (.call rc ra)
  | phi {lt rt} : lt = rt ∨ lt.isPointer = true ∧ rt.isPointer = true →
      SameBody opnd succ (.phi lt) (.phi rt)
  | invoke {lc rc la ra ln rn lu ru} : opnd lc rc → List.Forall₂ opnd la ra → succ ln rn →
      succ lu ru → SameBody opnd succ (.invoke lc la ln lu) (.invoke rc ra rn ru)
  | jump {ld rd} : succ ld rd → SameBody opnd succ (.br none ld) (.br none rd)
  | branch {lc rc : Value × ℕ} {ld rd} : opnd lc.1 rc.1 → succ lc.2 rc.2 → succ ld rd →
      SameBody opnd succ (.br (some lc) ld) (.br (some rc) rd)
  | indirectBr {la ra ld rd} : opnd la ra → List.Forall₂ succ ld rd →
      SameBody opnd succ (.indirectBr la ld) (.indirectBr ra rd)
  | switch {lc rc ld rd lcases rcases} : opnd lc rc → succ ld rd → SameCases succ lcases rcases →
      SameBody opnd succ (.switch lc ld lcases) (.switch rc rd rcases)
  | unreachable : SameBody opnd succ .unreachable .unreachable
  | other {n ls rs} : List.Forall₂ opnd ls rs → SameBody opnd succ (.other n ls) (.other n rs)

def Body.CasesDistinct : Body → Prop
  | .switch _ _ cases => (cases.map Prod.fst).Nodup
  | _ => True

def Unifies (succ : ℕ → ℕ → Prop) (steps : List Step) : Prop :=
  ∀ st ∈ steps, ∃ x y, st = .unify x y ∧ succ x y

section Steps
variable {eqv : Value → Value → Bool} {succ : ℕ → ℕ → Prop}

theorem unifies_nil : Unifies succ [] := by simp [Unifies]

theorem unifies_unify {x y : ℕ} {steps : List Step} :
    Unifies succ (.unify x y :: steps) ↔ succ x y ∧ Unifies succ steps := by
  simp [Unifies]

theorem not_unifies_complain {text : String} {steps : List Step} :
    ¬ Unifies succ (.complain text :: steps) := by
  simp [Unifies]

theorem unifies_append {a b : List Step} :
    Unifies succ (a ++ b) ↔ Unifies succ a ∧ Unifies succ b := by
  simp [Unifies, or_imp, forall_and]

theorem same_operands_iff (ls rs : List Value) (h : ls.length = rs.length) :
    sameOperands eqv ls rs = true ↔ List.Forall₂ (fun a b => eqv a b = true) ls rs := by
  induction ls generalizing rs with
  | nil =>
    obtain rfl : rs = [] := by simpa using h.symm
    simp [sameOperands]
  | cons l ls ih =>
    cases rs with
    | nil => simp at h
    | cons r rs => simp [sameOperands, ih rs (by simpa using h)]

theorem diff_operands_iff (ls rs : List Value) :
    Unifies succ (diffOperands eqv ls rs) ↔ List.Forall₂ (fun a b => eqv a b = true) ls rs := by
  unfold diffOperands
  split_ifs with hlen hsame
  · exact iff_of_false not_unifies_complain fun h => hlen h.length_eq
  · rw [← same_operands_iff ls rs (by simpa using hlen)]
    exact iff_of_false not_unifies_complain (by simpa using hsame)
  · rw [← same_operands_iff ls rs (by simpa using hlen)]
    exact iff_of_true unifies_nil (by simpa using hsame)

theorem diff_call_sites_iff (lc rc : Value) (la ra : List Value) :
    diffCallSites eqv lc rc la ra = [] ↔
      eqv lc rc = true ∧ List.Forall₂ (fun a b => eqv a b = true) la ra := by
  unfold diffCallSites
  split_ifs with hc hlen hsame
  · simp at hc
    simp [hc]
  · simp only [false_iff]
    exact fun h => hlen h.2.length_eq
  · simp only [false_iff, ← same_operands_iff la ra (by simpa using hlen)]
    simp at hsame
    simp [hsame]
  · simp only [true_iff, ← same_operands_iff la ra (by simpa using hlen)]
    exact ⟨by simpa using hc, by simpa using hsame⟩

theorem diff_call_sites_unifies (lc rc : Value) (la ra : List Value) :
    Unifies succ (diffCallSites eqv lc rc la ra) ↔ diffCallSites eqv lc rc la ra = [] := by
  unfold diffCallSites
  split_ifs <;> simp [Unifies]

/-! ### Switches -/

theorem lookup_iff_mem {m : List (ℕ × ℕ)} (h : (m.map Prod.fst).Nodup) (k b : ℕ) :
    m.lookup k = some b ↔ (k, b) ∈ m := by
  induction m with
  | nil => simp
  | cons e m ih =>
    obtain ⟨k', b'⟩ := e
    rw [List.map_cons, List.nodup_cons] at h
    rw [List.lookup_cons]
    by_cases hk : k = k'
    · subst hk
      have hnot : (k, b) ∉ m := fun hm => h.1 (List.mem_map.mpr ⟨_, hm, rfl⟩)
      simp [hnot, eq_comm]
    · have hbeq : (k == k') = false := by simpa using hk
      simp [hbeq, ih h.2, hk]

theorem perm_take_case {m : List (ℕ × ℕ)} (h : (m.map Prod.fst).Nodup) {k b : ℕ}
    (hm : (k, b) ∈ m) : m.Perm ((k, b) :: m.filter fun e => e.1 != k) := by
  induction m with
  | nil => simp at hm
  | cons e m ih =>
    rw [List.map_cons, List.nodup_cons] at h
    obtain rfl | hm := List.mem_cons.mp hm
    · have hall : (m.filter fun e => e.1 != k) = m := by
        rw [List.filter_eq_self]
        intro e he
        have hne : e.1 ≠ k := fun hk => h.1 (List.mem_map.mpr ⟨e, he, hk⟩)
        simpa using hne
      simp [hall]
    · have hne : e.1 ≠ k := fun hk => h.1 (hk ▸ List.mem_map_of_mem hm)
      rw [List.filter_cons_of_pos (by simpa using hne)]
      exact ((ih h.2 hm).cons e).trans (List.Perm.swap _ _ _)

theorem filter_keys_nodup {m : List (ℕ × ℕ)} (h : (m.map Prod.fst).Nodup) (k : ℕ) :
    ((m.filter fun e => e.1 != k).map Prod.fst).Nodup :=
  h.sublist (List.filter_sublist.map _)

theorem left_cases_perm {cases : List (ℕ × ℕ)} (h : (cases.map Prod.fst).Nodup) :
    (leftCases cases).Perm cases := by
  unfold leftCases
  have general : ∀ (cs m : List (ℕ × ℕ)), ((m ++ cs).map Prod.fst).Nodup →
      (cs.foldl (fun m c => c :: m.filter fun e => e.1 != c.1) m).Perm (m ++ cs) := by
    intro cs
    induction cs with
    | nil => intro m _; simp
    | cons c cs ih =>
      intro m hm
      have hmid : (m ++ c::cs).Perm ((c::m) ++ cs) := List.perm_middle
      have hnodup : (((c::m) ++ cs).map Prod.fst).Nodup := (hmid.map _).nodup_iff.mp hm
      have hall : (m.filter fun e => e.1 != c.1) = m := by
        rw [List.filter_eq_self]
        intro e he
        rw [List.cons_append, List.map_cons, List.nodup_cons] at hnodup
        have hne : e.1 ≠ c.1 := fun hk =>
          hnodup.1 (hk ▸ List.mem_map_of_mem (List.mem_append_left cs he))
        simpa using hne
      rw [List.foldl_cons, hall]
      exact (ih (c::m) hnodup).trans hmid.symm
  simpa using general cases [] (by simpa using h)

theorem right_cases_iff (rcases m : List (ℕ × ℕ)) (h : (m.map Prod.fst).Nodup) :
    (Unifies succ (rightCases m rcases).1 ∧ (rightCases m rcases).2 = []) ↔
      SameCases succ m rcases := by
  induction rcases generalizing m with
  | nil =>
    simp only [rightCases, unifies_nil, true_and, SameCases, List.forall₂_nil_right_iff]
    constructor
    · rintro rfl
      exact ⟨[], List.Perm.refl _, rfl⟩
    · rintro ⟨_, hperm, rfl⟩
      exact hperm.eq_nil
  | cons c rcases ih =>
    rw [rightCases]
    cases hlook : m.lookup c.1 with
    | some b =>
      have hmem := (lookup_iff_mem h c.1 b).mp hlook
      have hperm := perm_take_case h hmem
      simp only [unifies_unify, and_assoc]
      rw [ih _ (filter_keys_nodup h c.1)]
      constructor
      · rintro ⟨hb, ordered, hord, hall⟩
        exact ⟨(c.1, b) :: ordered, hperm.trans (hord.cons _), List.Forall₂.cons ⟨rfl, hb⟩ hall⟩
      · rintro ⟨ordered, hord, hall⟩
        cases hall with
        | @cons a _ rest _ hab hall =>
          obtain ⟨ka, ba⟩ := a
          obtain ⟨rfl, hb⟩ := hab
          have hin : (c.1, ba) ∈ m := hord.mem_iff.mpr List.mem_cons_self
          have hbb : b = ba := by
            have hsome := (lookup_iff_mem h c.1 ba).mpr hin
            rw [hlook] at hsome
            exact Option.some.inj hsome
          subst hbb
          exact ⟨hb, rest, (hperm.symm.trans hord).cons_inv, hall⟩
    | none =>
      refine iff_of_false (fun hu => not_unifies_complain hu.1) ?_
      rintro ⟨ordered, hord, hall⟩
      cases hall with
      | @cons a _ rest _ hab hall =>
        obtain ⟨ka, ba⟩ := a
        obtain ⟨rfl, hb⟩ := hab
        have hin : (c.1, ba) ∈ m := hord.mem_iff.mpr List.mem_cons_self
        rw [(lookup_iff_mem h c.1 ba).mpr hin] at hlook
        cases hlook

theorem unifies_no_complaint {steps : List Step} (h : Unifies succ steps) :
    steps.any Step.isComplaint = false := by
  rw [List.any_eq_false]
  intro st hst
  obtain ⟨x, y, rfl, _⟩ := h st hst
  simp [Step.isComplaint]

theorem switch_cases_iff (lcases rcases : List (ℕ × ℕ)) (h : (lcases.map Prod.fst).Nodup) :
    Unifies succ (diffSwitchCases lcases rcases) ↔ SameCases succ lcases rcases := by
  have hperm := left_cases_perm h
  have hiff : (Unifies succ (rightCases (leftCases lcases) rcases).1 ∧
      (rightCases (leftCases lcases) rcases).2 = []) ↔ SameCases succ (leftCases lcases) rcases :=
    right_cases_iff rcases (leftCases lcases) ((hperm.map _).nodup_iff.mpr h)
  have hsame : SameCases succ (leftCases lcases) rcases ↔ SameCases succ lcases rcases := by
    constructor
    · rintro ⟨ordered, hord, hall⟩
      exact ⟨ordered, hperm.symm.trans hord, hall⟩
    · rintro ⟨ordered, hord, hall⟩
      exact ⟨ordered, hperm.trans hord, hall⟩
  rw [← hsame, ← hiff]
  unfold diffSwitchCases
  simp only
  split_ifs with hany
  · constructor
    · intro hu
      rw [unifies_no_complaint hu] at hany
      cases hany
    · rintro ⟨hu, _⟩
      exact hu
  · rw [unifies_append]
    refine and_congr_right fun _ => ?_
    cases (rightCases (leftCases lcases) rcases).2 with
    | nil => simp [Unifies]
    | cons e rest => simp [Unifies]

theorem diff_steps_iff (l r : Body) (hl : Body.CasesDistinct l) :
    Unifies succ (diffSteps eqv l r) ↔ SameBody (fun a b => eqv a b = true) succ l r := by
  constructor
  · intro h
    unfold diffSteps at h
    split at h
    · split_ifs at h with hf hp
      · exact absurd h not_unifies_complain
      · exact absurd h not_unifies_complain
      · obtain rfl := not_not.mp hf
        obtain rfl := not_not.mp hp
        exact SameBody.cmp ((diff_operands_iff _ _).mp h)
    · obtain ⟨hc, ha⟩ := (diff_call_sites_iff _ _ _ _).mp ((diff_call_sites_unifies _ _ _ _).mp h)
      exact SameBody.call hc ha
    · split_ifs at h with hty
      · exact absurd h not_unifies_complain
      · refine SameBody.phi ?_
        by_contra hne
        rw [not_or] at hne
        refine hty ⟨hne.1, ?_⟩
        simpa [Bool.or_eq_true] using not_and_or.mp hne.2
    · split at h
      · rename_i heq
        obtain ⟨hc, ha⟩ := (diff_call_sites_iff _ _ _ _).mp heq
        rw [unifies_unify, unifies_unify] at h
        exact SameBody.invoke hc ha h.1 h.2.1
      · rename_i hne
        exact absurd ((diff_call_sites_unifies _ _ _ _).mp h) hne
    · exact SameBody.jump (unifies_unify.mp h).1
    · split_ifs at h with hc
      · exact absurd h not_unifies_complain
      · rw [unifies_unify, unifies_unify] at h
        exact SameBody.branch (by simpa using hc) h.1 h.2.1
    · exact absurd h not_unifies_complain
    · split_ifs at h with hlen ha
      · exact absurd h not_unifies_complain
      · exact absurd h not_unifies_complain
      · refine SameBody.indirectBr (by simpa using ha) ?_
        rw [List.forall₂_iff_zip]
        refine ⟨not_not.mp hlen, fun {x y} hxy => ?_⟩
        obtain ⟨x', y', hst, hsucc⟩ := h _ (List.mem_map_of_mem hxy)
        cases hst
        exact hsucc
    · split_ifs at h with hc
      · exact absurd h not_unifies_complain
      · rw [unifies_unify, switch_cases_iff _ _ hl] at h
        exact SameBody.switch (by simpa using hc) h.1 h.2
    · exact SameBody.unreachable
    · split_ifs at h with hn
      · exact absurd h not_unifies_complain
      · obtain rfl := not_not.mp hn
        exact SameBody.other ((diff_operands_iff _ _).mp h)
    · exact absurd h not_unifies_complain
  · intro h
    cases h with
    | cmp h => simpa [diffSteps] using (diff_operands_iff _ _).mpr h
    | call hc ha =>
      exact (diff_call_sites_unifies _ _ _ _).mpr ((diff_call_sites_iff _ _ _ _).mpr ⟨hc, ha⟩)
    | phi h =>
      rw [diffSteps, if_neg]
      · exact unifies_nil
      · rintro ⟨hne, hp⟩
        obtain rfl | ⟨hl, hr⟩ := h
        · exact hne rfl
        · simp [hl, hr] at hp
    | invoke hc ha hn hu =>
      rw [diffSteps, (diff_call_sites_iff _ _ _ _).mpr ⟨hc, ha⟩]
      exact unifies_unify.mpr ⟨hn, unifies_unify.mpr ⟨hu, unifies_nil⟩⟩
    | jump h => exact unifies_unify.mpr ⟨h, unifies_nil⟩
    | branch hc hf hd =>
      rw [diffSteps, if_neg (by simpa using hc)]
      exact unifies_unify.mpr ⟨hf, unifies_unify.mpr ⟨hd, unifies_nil⟩⟩
    | indirectBr ha hd =>
      rw [diffSteps, if_neg (by simpa using hd.length_eq), if_neg (by simpa using ha)]
      intro st hst
      obtain ⟨p, hp, rfl⟩ := List.mem_map.mp hst
      exact ⟨p.1, p.2, rfl, (List.forall₂_iff_zip.mp hd).2 hp⟩
    | switch hc hd hcases =>
      rw [diffSteps, if_neg (by simpa using hc)]
      exact unifies_unify.mpr ⟨hd, (switch_cases_iff _ _ hl).mpr hcases⟩
    | unreachable => exact unifies_nil
    | other h => simpa [diffSteps] using (diff_operands_iff _ _).mpr h

end Steps

/-! ## Operands without references to blocks -/

mutual

def closedConstant : Constant → Bool
  | .blockAddress _ _ => false
  | .expr _ _ _ operands => closedConstants operands
  | .vector _ elements => closedConstants elements
  | _ => true

def closedConstants : List Constant → Bool
  | [] => true
  | c::cs => closedConstant c && closedConstants cs

end

/-- The comparison of closed constants does not look at the blocks. -/
theorem equivalent_closed (blocks blocks' : ℕ → Option ℕ) (l : Constant)
    (hl : closedConstant l = true) (r : Constant) :
    equivalentConstants blocks l r = equivalentConstants blocks' l r := by
  revert hl r
  refine @Constant.rec
    (fun l => closedConstant l = true → ∀ r,
      equivalentConstants blocks l r = equivalentConstants blocks' l r)
    (fun ls => closedConstants ls = true → ∀ rs,
      equivalentLists blocks ls rs = equivalentLists blocks' ls rs)
    ?_ ?_ ?_ ?_ ?_ ?_ ?_ ?_ l
  · intro la lv ln _ r
    cases r <;> simp [equivalentConstants]
  · intro la lo lp ls ih hl r
    rw [closedConstant] at hl
    cases r with
    | expr ra ro rp rs => simp [equivalentConstants, ih hl rs]
    | _ => simp [equivalentConstants]
  · intro la lv _ r
    cases r <;> simp [equivalentConstants]
  · intro la lb hl
    simp [closedConstant] at hl
  · intro la ls ih hl r
    rw [closedConstant] at hl
    cases r with
    | vector ra rs => simp [equivalentConstants, ih hl rs]
    | _ => simp [equivalentConstants]
  · intro la lv _ r
    cases r <;> simp [equivalentConstants]
  · intro _ rs
    cases rs <;> simp [equivalentLists]
  · intro c cs ihc ihcs hl rs
    rw [closedConstants, Bool.and_eq_true] at hl
    cases rs with
    | nil => simp [equivalentLists]
    | cons d ds => simp [equivalentLists, ihc hl.1 d, ihcs hl.2 ds]

def Value.Closed : Value → Prop
  | .const c => closedConstant c = true
  | .block _ => False
  | _ => True

/-- Operands that are equivalent when `rel` relates the local values. -/
def SameOperand (rel : Local → Local → Prop) : Value → Value → Prop
  | .const l, .const r => equivalentConstants (fun _ => none) l r = true
  | .loc (.inst lo l), .loc (.inst ro r) => lo = ro ∧ rel (.inst lo l) (.inst ro r)
  | .loc (.arg l), .loc (.arg r) => rel (.arg l) (.arg r)
  | .other l, .other r => l = r
  | _, _ => False

def known (values : Local → Option Local) (tentative : List (Local × Local)) :
    Local → Local → Prop
  | .inst o l, r => values (.inst o l) = some r ∨ (.inst o l, r) ∈ tentative
  | .arg l, r => values (.arg l) = some r

theorem equivalent_iff (values : Local → Option Local) (tentative : List (Local × Local))
    (blocks : ℕ → Option ℕ) (l r : Value) (hl : Value.Closed l) :
    equivalentAsOperands values tentative blocks l r = true ↔
      SameOperand (known values tentative) l r := by
  cases l with
  | const c =>
    cases r with
    | const d =>
      simp [equivalentAsOperands, SameOperand, equivalent_closed blocks (fun _ => none) c hl]
    | _ => simp [equivalentAsOperands, SameOperand]
  | loc a =>
    cases a with
    | inst lo l =>
      cases r with
      | loc b =>
        cases b with
        | inst ro r => simp [equivalentAsOperands, SameOperand, known]
        | arg r => simp [equivalentAsOperands, SameOperand]
      | _ => simp [equivalentAsOperands, SameOperand]
    | arg l =>
      cases r with
      | loc b =>
        cases b with
        | inst ro r => simp [equivalentAsOperands, SameOperand]
        | arg r => simp [equivalentAsOperands, SameOperand, known]
      | _ => simp [equivalentAsOperands, SameOperand]
  | block b => exact absurd hl id
  | other v =>
    cases r with
    | other w => simp [equivalentAsOperands, SameOperand]
    | _ => simp [equivalentAsOperands, SameOperand]

/-! ## What equal instructions share -/

def Body.operands : Body → List Value
  | .cmp _ _ ls => ls
  | .call callee args => callee :: args
  | .phi _ => []
  | .invoke callee args _ _ => callee :: args
  | .br none _ => []
  | .br (some c) _ => [c.1]
  | .indirectBr address _ => [address]
  | .switch cond _ _ => [cond]
  | .unreachable => []
  | .other _ ls => ls

theorem forall₂_imp_mem {α β : Type} {R S : α → β → Prop} {xs : List α} {ys : List β}
    (h : List.Forall₂ R xs ys) (himp : ∀ a ∈ xs, ∀ b, R a b → S a b) : List.Forall₂ S xs ys := by
  induction h with
  | nil => exact List.Forall₂.nil
  | @cons a b xs ys hab _ ih =>
    exact List.Forall₂.cons (himp a List.mem_cons_self b hab)
      (ih fun a' ha' => himp a' (List.mem_cons_of_mem a ha'))

theorem forall₂_exists {α β : Type} {R : α → β → Prop} {xs : List α} {ys : List β}
    (h : List.Forall₂ R xs ys) {a : α} (ha : a ∈ xs) : ∃ b, R a b := by
  induction h with
  | nil => cases ha
  | @cons a' b xs ys hab _ ih =>
    obtain rfl | ha := List.mem_cons.mp ha
    · exact ⟨b, hab⟩
    · exact ih ha

section Same
variable {opnd opnd' : Value → Value → Prop} {succ succ' : ℕ → ℕ → Prop} {l r : Body}

theorem same_body_mono (h : SameBody opnd succ l r)
    (ho : ∀ a ∈ Body.operands l, ∀ b, opnd a b → opnd' a b)
    (hs : ∀ x ∈ l.successors, ∀ y, succ x y → succ' x y) : SameBody opnd' succ' l r := by
  cases h with
  | cmp h => exact SameBody.cmp (forall₂_imp_mem h ho)
  | call hc ha =>
    exact SameBody.call (ho _ List.mem_cons_self _ hc)
      (forall₂_imp_mem ha fun a ha => ho a (List.mem_cons_of_mem _ ha))
  | phi h => exact SameBody.phi h
  | invoke hc ha hn hu =>
    exact SameBody.invoke (ho _ List.mem_cons_self _ hc)
      (forall₂_imp_mem ha fun a ha => ho a (List.mem_cons_of_mem _ ha))
      (hs _ (by simp [Body.successors]) _ hn) (hs _ (by simp [Body.successors]) _ hu)
  | jump h => exact SameBody.jump (hs _ (by simp [Body.successors]) _ h)
  | branch hc hf hd =>
    exact SameBody.branch (ho _ List.mem_cons_self _ hc) (hs _ (by simp [Body.successors]) _ hf)
      (hs _ (by simp [Body.successors]) _ hd)
  | indirectBr ha hd =>
    exact SameBody.indirectBr (ho _ List.mem_cons_self _ ha) (forall₂_imp_mem hd hs)
  | @switch _ _ _ _ lcases _ hc hd hcases =>
    obtain ⟨ordered, hperm, hall⟩ := hcases
    refine SameBody.switch (ho _ List.mem_cons_self _ hc) (hs _ (by simp [Body.successors]) _ hd)
      ⟨ordered, hperm, forall₂_imp_mem hall ?_⟩
    rintro a ha b ⟨hab, hsucc⟩
    refine ⟨hab, hs a.2 ?_ _ hsucc⟩
    exact List.mem_cons_of_mem _ (List.mem_map_of_mem (hperm.mem_iff.mpr ha))
  | unreachable => exact SameBody.unreachable
  | other h => exact SameBody.other (forall₂_imp_mem h ho)

theorem same_body_opcode (h : SameBody opnd succ l r) : l.opcode = r.opcode := by
  cases h <;> rfl

theorem same_body_successors (h : SameBody opnd succ l r) {x : ℕ} (hx : x ∈ l.successors) :
    ∃ y, succ x y := by
  cases h with
  | invoke _ _ hn hu =>
    obtain rfl | rfl : x = _ ∨ x = _ := by simpa [Body.successors] using hx
    · exact ⟨_, hn⟩
    · exact ⟨_, hu⟩
  | jump h =>
    obtain rfl : x = _ := by simpa [Body.successors] using hx
    exact ⟨_, h⟩
  | branch _ hf hd =>
    obtain rfl | rfl : x = _ ∨ x = _ := by simpa [Body.successors] using hx
    · exact ⟨_, hf⟩
    · exact ⟨_, hd⟩
  | indirectBr _ hd => exact forall₂_exists hd hx
  | @switch _ _ _ _ lcases _ _ hd hcases =>
    obtain rfl | hx := List.mem_cons.mp hx
    · exact ⟨_, hd⟩
    · obtain ⟨c, hc, rfl⟩ := List.mem_map.mp hx
      obtain ⟨ordered, hperm, hall⟩ := hcases
      obtain ⟨b, -, hb⟩ := forall₂_exists hall (hperm.mem_iff.mp hc)
      exact ⟨_, hb⟩
  | _ => simp [Body.successors] at hx

end Same

theorem left_cases_subset (cases : List (ℕ × ℕ)) {c : ℕ × ℕ} (hc : c ∈ leftCases cases) :
    c ∈ cases := by
  unfold leftCases at hc
  have general : ∀ (cs m : List (ℕ × ℕ)),
      c ∈ cs.foldl (fun m c => c :: m.filter fun e => e.1 != c.1) m → c ∈ m ∨ c ∈ cs := by
    intro cs
    induction cs with
    | nil => exact fun m hm => Or.inl hm
    | cons d cs ih =>
      intro m hm
      obtain hin | hin := ih _ hm
      · obtain rfl | hin := List.mem_cons.mp hin
        · exact Or.inr List.mem_cons_self
        · exact Or.inl (List.mem_filter.mp hin).1
      · exact Or.inr (List.mem_cons_of_mem d hin)
  exact (general cases [] hc).resolve_left (by simp)

theorem right_cases_target (rcases m : List (ℕ × ℕ)) {x y : ℕ}
    (h : .unify x y ∈ (rightCases m rcases).1) : x ∈ m.map Prod.snd := by
  induction rcases generalizing m with
  | nil => simp [rightCases] at h
  | cons c rcases ih =>
    rw [rightCases] at h
    cases hlook : m.lookup c.1 with
    | some b =>
      simp only [hlook, List.mem_cons, Step.unify.injEq] at h
      obtain ⟨rfl, -⟩ | h := h
      · obtain ⟨before, after, rfl, -⟩ := List.lookup_eq_some_iff.mp hlook
        simp
      · obtain ⟨e, he, rfl⟩ := List.mem_map.mp (ih _ h)
        exact List.mem_map_of_mem (List.mem_filter.mp he).1
    | none =>
      simp only [hlook, List.mem_cons, reduceCtorEq, false_or] at h
      exact ih m h

theorem unify_target (eqv : Value → Value → Bool) (l r : Body) {x y : ℕ}
    (h : .unify x y ∈ diffSteps eqv l r) : x ∈ l.successors := by
  unfold diffSteps diffOperands diffCallSites at h
  split at h
  · split_ifs at h <;> simp at h
  · split_ifs at h <;> simp at h
  · split_ifs at h <;> simp at h
  · split at h
    · simp only [List.mem_cons, Step.unify.injEq, List.not_mem_nil, or_false] at h
      obtain ⟨rfl, -⟩ | ⟨rfl, -⟩ := h <;> simp [Body.successors]
    · split_ifs at h <;> simp at h
  · simp only [List.mem_singleton, Step.unify.injEq] at h
    simp [Body.successors, h.1]
  · split_ifs at h
    · simp at h
    · simp only [List.mem_cons, Step.unify.injEq, List.not_mem_nil, or_false] at h
      obtain ⟨rfl, -⟩ | ⟨rfl, -⟩ := h <;> simp [Body.successors]
  · simp at h
  · split_ifs at h
    · simp at h
    · simp at h
    · obtain ⟨p, hp, hst⟩ := List.mem_map.mp h
      cases hst
      exact (List.of_mem_zip hp).1
  · split_ifs at h
    · simp at h
    · obtain hst | h := List.mem_cons.mp h
      · cases hst
        exact List.mem_cons_self
      · have htarget : ∀ lcases rcases, .unify x y ∈ (rightCases (leftCases lcases) rcases).1 →
            x ∈ lcases.map Prod.snd := by
          intro lcases rcases hmem
          obtain ⟨c, hc, rfl⟩ := List.mem_map.mp (right_cases_target _ _ hmem)
          exact List.mem_map_of_mem (left_cases_subset lcases hc)
        refine List.mem_cons_of_mem _ ?_
        unfold diffSwitchCases at h
        simp only at h
        split_ifs at h
        · exact htarget _ _ h
        · obtain h | h := List.mem_append.mp h
          · exact htarget _ _ h
          · simp at h
  · simp at h
  · split_ifs at h <;> simp at h
  · simp at h

end Parmesan.DiffSame
