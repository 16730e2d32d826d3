import Mathlib.Data.Fintype.Card
import Mathlib.Logic.Relation

/-!
# Depth-first search with one set of visited nodes

`search` visits a node unless it was seen, then its successors in order; the
set of visited nodes is handed from one successor to the next. A call counts
one unit of fuel. What a search adds is closed under successors even though
nodes above it are still in progress, so a search that starts with nothing
seen ends with the nodes reachable from its start.
-/

set_option autoImplicit false

namespace Parmesan.DepthFirst

universe u v
variable {α : Type u}

def search [DecidableEq α] (succ : α → List α) : ℕ → α → Finset α → Option (Finset α)
  | 0, x, seen => if x ∈ seen then some seen else none
  | fuel+1, x, seen =>
    if x ∈ seen then some seen
    else (succ x).foldlM (fun seen y => search succ fuel y seen) (insert x seen)

def Reaches (succ : α → List α) : α → α → Prop := Relation.ReflTransGen fun a b => b ∈ succ a

/-- What a search for `xs` makes of the visited nodes `seen`. -/
structure Searched (succ : α → List α) (xs : List α) (seen seen' : Finset α) : Prop where
  mono : seen ⊆ seen'
  roots : ∀ x ∈ xs, x ∈ seen'
  sound : ∀ y ∈ seen', y ∈ seen ∨ ∃ x ∈ xs, Reaches succ x y
  closed : ∀ y ∈ seen', y ∉ seen → ∀ z ∈ succ y, z ∈ seen'

variable {succ : α → List α} {seen seen' : Finset α}

theorem searched_nil (succ : α → List α) (seen : Finset α) : Searched succ [] seen seen where
  mono := Finset.Subset.refl seen
  roots := fun _ hx => absurd hx List.not_mem_nil
  sound := fun _ hy => Or.inl hy
  closed := fun _ hy hnew => absurd hy hnew

theorem searched_seen {x : α} (hx : x ∈ seen) : Searched succ [x] seen seen where
  mono := Finset.Subset.refl seen
  roots := fun _ hy => List.mem_singleton.mp hy ▸ hx
  sound := fun _ hy => Or.inl hy
  closed := fun _ hy hnew => absurd hy hnew

theorem searched_cons {x : α} {xs : List α} {mid : Finset α}
    (h : Searched succ [x] seen mid) (h' : Searched succ xs mid seen') :
    Searched succ (x::xs) seen seen' where
  mono := h.mono.trans h'.mono
  roots := by
    intro y hy
    rcases List.mem_cons.mp hy with rfl | hy
    · exact h'.mono (h.roots y List.mem_cons_self)
    · exact h'.roots y hy
  sound := by
    intro y hy
    rcases h'.sound y hy with hmid | ⟨w, hw, hreach⟩
    · rcases h.sound y hmid with hold | ⟨w, hw, hreach⟩
      · exact Or.inl hold
      · exact Or.inr ⟨w, List.mem_cons.mpr (Or.inl (List.mem_singleton.mp hw)), hreach⟩
    · exact Or.inr ⟨w, List.mem_cons_of_mem x hw, hreach⟩
  closed := by
    intro y hy hnew z hz
    by_cases hmid : y ∈ mid
    · exact h'.mono (h.closed y hmid hnew z hz)
    · exact h'.closed y hy hmid z hz

variable [DecidableEq α]

theorem searched_node {x : α} (hx : x ∉ seen)
    (h : Searched succ (succ x) (insert x seen) seen') : Searched succ [x] seen seen' where
  mono := (Finset.subset_insert x seen).trans h.mono
  roots := by
    intro y hy
    rw [List.mem_singleton.mp hy]
    exact h.mono (Finset.mem_insert_self x seen)
  sound := by
    intro y hy
    rcases h.sound y hy with hold | ⟨w, hw, hreach⟩
    · rcases Finset.mem_insert.mp hold with rfl | hold
      · exact Or.inr ⟨y, List.mem_singleton.mpr rfl, Relation.ReflTransGen.refl⟩
      · exact Or.inl hold
    · exact Or.inr ⟨x, List.mem_singleton.mpr rfl, Relation.ReflTransGen.head hw hreach⟩
  closed := by
    intro y hy hnew z hz
    by_cases hyx : y = x
    · subst hyx
      exact h.roots z hz
    · exact h.closed y hy (fun hmem => hnew ((Finset.mem_insert.mp hmem).resolve_left hyx)) z hz

theorem fold_searched {fuel : ℕ}
    (ih : ∀ x seen seen', search succ fuel x seen = some seen' → Searched succ [x] seen seen')
    (xs : List α) : ∀ seen seen', xs.foldlM (fun seen y => search succ fuel y seen) seen =
      some seen' → Searched succ xs seen seen' := by
  induction xs with
  | nil =>
    intro seen seen' h
    obtain rfl : seen = seen' := Option.some.inj h
    exact searched_nil succ seen
  | cons x xs ihx =>
    intro seen seen' h
    obtain ⟨mid, hmid, hrest⟩ := Option.bind_eq_some_iff.mp h
    exact searched_cons (ih x seen mid hmid) (ihx mid seen' hrest)

theorem search_searched (fuel : ℕ) : ∀ x seen seen', search succ fuel x seen = some seen' →
    Searched succ [x] seen seen' := by
  induction fuel with
  | zero =>
    intro x seen seen' h
    rw [search] at h
    split at h
    · rename_i hx
      obtain rfl : seen = seen' := Option.some.inj h
      exact searched_seen hx
    · cases h
  | succ fuel ih =>
    intro x seen seen' h
    rw [search] at h
    split at h
    · rename_i hx
      obtain rfl : seen = seen' := Option.some.inj h
      exact searched_seen hx
    · rename_i hx
      exact searched_node hx (fold_searched ih _ _ _ h)

section Finite
variable [Fintype α]

theorem compl_card_insert {x : α} (hx : x ∉ seen) :
    (insert x seen)ᶜ.card+1 = seenᶜ.card := by
  rw [Finset.compl_insert, Finset.card_erase_add_one (Finset.mem_compl.mpr hx)]

theorem fold_returns {fuel : ℕ}
    (ih : ∀ x seen, seenᶜ.card ≤ fuel → ∃ seen', search succ fuel x seen = some seen')
    (xs : List α) : ∀ seen : Finset α, seenᶜ.card ≤ fuel →
      ∃ seen', xs.foldlM (fun seen y => search succ fuel y seen) seen = some seen' := by
  induction xs with
  | nil =>
    intro seen hseen
    exact ⟨seen, rfl⟩
  | cons x xs ihx =>
    intro seen hseen
    obtain ⟨mid, hmid⟩ := ih x seen hseen
    -- the visited set only grows along the fold, so the fuel stays enough
    have hmono := (search_searched fuel x seen mid hmid).mono
    obtain ⟨last, hlast⟩ := ihx mid
      ((Finset.card_le_card (Finset.compl_subset_compl.mpr hmono)).trans hseen)
    refine ⟨last, ?_⟩
    rw [List.foldlM_cons, hmid]
    exact hlast

/-- As much fuel as there are nodes not seen is enough. -/
theorem search_returns (fuel : ℕ) : ∀ x seen, seenᶜ.card ≤ fuel →
    ∃ seen', search succ fuel x seen = some seen' := by
  induction fuel with
  | zero =>
    intro x seen hfuel
    have hx : x ∈ seen := by
      by_contra hx
      have := compl_card_insert hx
      omega
    exact ⟨seen, if_pos hx⟩
  | succ fuel ih =>
    intro x seen hfuel
    rw [search]
    by_cases hx : x ∈ seen
    · exact ⟨seen, if_pos hx⟩
    rw [if_neg hx]
    have hcard := compl_card_insert hx
    exact fold_returns ih _ _ (by omega)

theorem search_reaches {fuel : ℕ} (hfuel : Fintype.card α ≤ fuel) (x : α) :
    ∃ seen, search succ fuel x ∅ = some seen ∧ ∀ y, y ∈ seen ↔ Reaches succ x y := by
  obtain ⟨seen, hseen⟩ := @search_returns α succ _ _ fuel x ∅
    (by rw [Finset.compl_empty, Finset.card_univ]; exact hfuel)
  have h := search_searched fuel x ∅ seen hseen
  refine ⟨seen, hseen, fun y => ⟨?_, ?_⟩⟩
  · intro hy
    rcases h.sound y hy with hold | ⟨w, hw, hreach⟩
    · exact absurd hold (Finset.notMem_empty y)
    · rw [List.mem_singleton.mp hw] at hreach
      exact hreach
  · intro hreach
    induction hreach with
    | refl => exact h.roots x List.mem_cons_self
    | tail _ hstep ih => exact h.closed _ ih (Finset.notMem_empty _) _ hstep

end Finite

/-- A fold over states that carry the visited nodes is a fold over the nodes. -/
theorem fold_map {β σ τ : Type v} {f : σ → β → Option σ} {g : τ → β → Option τ} {pack : σ → τ}
    (h : ∀ s y, g (pack s) y = (f s y).map pack) (ys : List β) (s : σ) :
    ys.foldlM g (pack s) = (ys.foldlM f s).map pack := by
  induction ys generalizing s with
  | nil => rfl
  | cons y ys ih =>
    rw [List.foldlM_cons, List.foldlM_cons, h]
    cases f s y with
    | none => rfl
    | some s' => exact ih s'

end Parmesan.DepthFirst
