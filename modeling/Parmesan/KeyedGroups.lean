import Mathlib.Data.Finset.Basic

/-!
# Items collected until a key closes the group

Items are gathered in a pending set; a key stores the set under itself and starts
a new one. The closed groups form an ordered map, in which a later group under
the same key replaces the earlier one.
-/

set_option autoImplicit false

namespace Parmesan.KeyedGroups

universe u v
variable {ι : Type u} {κ : Type v} [LinearOrder κ]

def insertKey {ν : Type u} (k : κ) (x : ν) : List (κ × ν) → List (κ × ν)
  | [] => [(k, x)]
  | e::m =>
    if k < e.1 then (k, x)::e::m
    else if k = e.1 then (k, x)::m
    else e :: insertKey k x m

section InsertKey
variable {ν : Type u} {k : κ} {x : ν} {m : List (κ × ν)}

theorem mem_insert_key (k : κ) (x : ν) (m : List (κ × ν)) : (k, x) ∈ insertKey k x m := by
  induction m with
  | nil => exact List.mem_cons_self
  | cons e m ih =>
    rw [insertKey]
    split_ifs
    · exact List.mem_cons_self
    · exact List.mem_cons_self
    · exact List.mem_cons_of_mem e ih

theorem of_mem_insert_key {e : κ × ν} (h : e ∈ insertKey k x m) : e = (k, x) ∨ e ∈ m := by
  induction m with
  | nil => exact Or.inl (List.mem_singleton.mp h)
  | cons e' m ih =>
    rw [insertKey] at h
    split_ifs at h
    · exact List.mem_cons.mp h
    · rcases List.mem_cons.mp h with rfl | h
      · exact Or.inl rfl
      · exact Or.inr (List.mem_cons_of_mem e' h)
    · rcases List.mem_cons.mp h with rfl | h
      · exact Or.inr List.mem_cons_self
      · exact (ih h).imp_right (List.mem_cons_of_mem e')

theorem mem_insert_other {e : κ × ν} (h : e ∈ m) (hne : e.1 ≠ k) : e ∈ insertKey k x m := by
  induction m with
  | nil => exact absurd h List.not_mem_nil
  | cons e' m ih =>
    rw [insertKey]
    split_ifs with hlt heq
    · exact List.mem_cons_of_mem _ h
    · rcases List.mem_cons.mp h with rfl | h
      · exact absurd heq.symm hne
      · exact List.mem_cons_of_mem _ h
    · rcases List.mem_cons.mp h with rfl | h
      · exact List.mem_cons_self
      · exact List.mem_cons_of_mem _ (ih h)

theorem insert_key_sorted (h : m.Pairwise fun a b => a.1 < b.1) :
    (insertKey k x m).Pairwise fun a b => a.1 < b.1 := by
  induction m with
  | nil => exact List.pairwise_singleton _ _
  | cons e m ih =>
    obtain ⟨hfirst, hrest⟩ := List.pairwise_cons.mp h
    rw [insertKey]
    split_ifs with hlt heq
    · refine List.pairwise_cons.mpr ⟨?_, h⟩
      intro b hb
      rcases List.mem_cons.mp hb with rfl | hb
      · exact hlt
      · exact hlt.trans (hfirst b hb)
    · exact List.pairwise_cons.mpr ⟨fun b hb => heq ▸ hfirst b hb, hrest⟩
    · refine List.pairwise_cons.mpr ⟨?_, ih hrest⟩
      intro b hb
      rcases of_mem_insert_key hb with rfl | hb
      · exact lt_of_le_of_ne (not_lt.mp hlt) (Ne.symm heq)
      · exact hfirst b hb

theorem sorted_unique (h : m.Pairwise fun a b => a.1 < b.1) {e e' : κ × ν} (he : e ∈ m)
    (he' : e' ∈ m) (hkey : e.1 = e'.1) : e = e' := by
  have hnodup : (m.map Prod.fst).Nodup := List.pairwise_map.mpr (h.imp ne_of_lt)
  exact List.inj_on_of_nodup_map hnodup he he' hkey

end InsertKey

inductive Mark (ι : Type u) (κ : Type v) where
  | item (i : ι)
  | key (k : κ)

structure Groups (ι : Type u) (κ : Type v) where
  pending : Finset ι
  closed : List (κ × Finset ι)

def mark [DecidableEq ι] (g : Groups ι κ) : Mark ι κ → Groups ι κ
  | .item i => ⟨insert i g.pending, g.closed⟩
  | .key k => ⟨∅, insertKey k g.pending g.closed⟩

def items : List (Mark ι κ) → List ι
  | [] => []
  | .item i::l => i :: items l
  | .key _::l => items l

def keys : List (Mark ι κ) → List κ
  | [] => []
  | .item _::l => keys l
  | .key k::l => k :: keys l

omit [LinearOrder κ] in
theorem items_append (l l' : List (Mark ι κ)) : items (l++l') = items l ++ items l' := by
  induction l with
  | nil => rfl
  | cons a l ih =>
    cases a with
    | item i => exact congrArg (i :: ·) ih
    | key k => exact ih

omit [LinearOrder κ] in
theorem keys_append (l l' : List (Mark ι κ)) : keys (l++l') = keys l ++ keys l' := by
  induction l with
  | nil => rfl
  | cons a l ih =>
    cases a with
    | item i => exact ih
    | key k => exact congrArg (k :: ·) ih

variable [DecidableEq ι]

def collect (g : Groups ι κ) (l : List (Mark ι κ)) : Groups ι κ := l.foldl mark g

theorem pending_from (l : List (Mark ι κ)) (g : Groups ι κ) {x : ι}
    (h : x ∈ (collect g l).pending) : x ∈ g.pending ∨ x ∈ items l := by
  induction l generalizing g with
  | nil => exact Or.inl h
  | cons a l ih =>
    cases a with
    | item i =>
      rcases ih _ h with hx | hx
      · rcases Finset.mem_insert.mp hx with rfl | hx
        · exact Or.inr List.mem_cons_self
        · exact Or.inl hx
      · exact Or.inr (List.mem_cons_of_mem i hx)
    | key k =>
      rcases ih _ h with hx | hx
      · exact absurd hx (Finset.notMem_empty x)
      · exact Or.inr hx

theorem closed_from (l : List (Mark ι κ)) (g : Groups ι κ) {k : κ} {s : Finset ι}
    (h : (k, s) ∈ (collect g l).closed) :
    (k, s) ∈ g.closed ∨ k ∈ keys l ∧ ∀ x ∈ s, x ∈ g.pending ∨ x ∈ items l := by
  induction l generalizing g with
  | nil => exact Or.inl h
  | cons a l ih =>
    cases a with
    | item i =>
      rcases ih _ h with hold | ⟨hk, hs⟩
      · exact Or.inl hold
      · refine Or.inr ⟨hk, ?_⟩
        intro x hx
        rcases hs x hx with hp | hi
        · rcases Finset.mem_insert.mp hp with rfl | hp
          · exact Or.inr List.mem_cons_self
          · exact Or.inl hp
        · exact Or.inr (List.mem_cons_of_mem i hi)
    | key k' =>
      rcases ih _ h with hold | ⟨hk, hs⟩
      · rcases of_mem_insert_key hold with heq | hold
        · obtain ⟨rfl, rfl⟩ := Prod.mk.inj heq
          exact Or.inr ⟨List.mem_cons_self, fun x hx => Or.inl hx⟩
        · exact Or.inl hold
      · refine Or.inr ⟨List.mem_cons_of_mem k' hk, ?_⟩
        intro x hx
        rcases hs x hx with hp | hi
        · exact absurd hp (Finset.notMem_empty x)
        · exact Or.inr hi

theorem closed_kept (l : List (Mark ι κ)) (g : Groups ι κ) {e : κ × Finset ι} (h : e ∈ g.closed)
    (hk : e.1 ∉ keys l) : e ∈ (collect g l).closed := by
  induction l generalizing g with
  | nil => exact h
  | cons a l ih =>
    cases a with
    | item i => exact ih _ h hk
    | key k =>
      rw [keys, List.mem_cons, not_or] at hk
      exact ih _ (mem_insert_other h hk.1) hk.2

theorem pending_closed (l : List (Mark ι κ)) (g : Groups ι κ) {x : ι} (h : x ∈ g.pending)
    (hk : keys l ≠ []) (hnodup : (keys l).Nodup) :
    ∃ k ∈ keys l, ∃ s, x ∈ s ∧ (k, s) ∈ (collect g l).closed := by
  induction l generalizing g with
  | nil => exact absurd rfl hk
  | cons a l ih =>
    cases a with
    | item i => exact ih _ (Finset.mem_insert_of_mem h) hk hnodup
    | key k =>
      exact ⟨k, List.mem_cons_self, g.pending, h,
        closed_kept l _ (mem_insert_key k _ _) (List.nodup_cons.mp hnodup).1⟩

theorem pending_after_item (g : Groups ι κ) (i : ι) (ks : List κ) :
    (collect g (.item i::ks.map .key)).pending = ∅ ↔ ks ≠ [] := by
  induction ks generalizing g with
  | nil =>
    show insert i g.pending = ∅ ↔ ([] : List κ) ≠ []
    simp
  | cons k ks ih =>
    have hempty : ∀ (ks : List κ) (g : Groups ι κ), g.pending = ∅ →
        (collect g (ks.map .key)).pending = ∅ := by
      intro ks
      induction ks with
      | nil => exact fun g h => h
      | cons k ks ih' => exact fun g _ => ih' _ rfl
    exact iff_of_true (hempty ks _ rfl) (List.cons_ne_nil k ks)

def OnlyFirst (k : κ) (ks : List κ) : Prop := ∃ rest, ks = k::rest ∧ k ∉ rest

/-- The first key after the item is `k`, which does not come again. -/
def Next (x : ι) (k : κ) : List (Mark ι κ) → Prop
  | [] => False
  | .item i::l => i = x ∧ OnlyFirst k (keys l) ∨ Next x k l
  | .key _::l => Next x k l

omit [LinearOrder κ] [DecidableEq ι] in
theorem only_first_cons (k c : κ) (ks : List κ) : OnlyFirst k (c::ks) ↔ c = k ∧ k ∉ ks := by
  constructor
  · rintro ⟨rest, hrest, hnot⟩
    obtain ⟨rfl, rfl⟩ := List.cons.inj hrest
    exact ⟨rfl, hnot⟩
  · rintro ⟨rfl, hnot⟩
    exact ⟨_, rfl, hnot⟩

theorem mem_mark_key_iff {g : Groups ι κ} (hg : g.closed.Pairwise fun a b => a.1 < b.1) {x : ι}
    {k c : κ} : (∃ s, (k, s) ∈ (mark g (.key c)).closed ∧ x ∈ s) ↔
      c = k ∧ x ∈ g.pending ∨ k ≠ c ∧ ∃ s, (k, s) ∈ g.closed ∧ x ∈ s := by
  by_cases hk : k = c
  · subst hk
    have hsorted : (mark g (.key k)).closed.Pairwise fun a b => a.1 < b.1 := insert_key_sorted hg
    have hnew : (k, g.pending) ∈ (mark g (.key k)).closed := mem_insert_key k _ _
    constructor
    · rintro ⟨s, hs, hx⟩
      obtain ⟨-, rfl⟩ := Prod.mk.inj (sorted_unique hsorted hs hnew rfl)
      exact Or.inl ⟨rfl, hx⟩
    · rintro (⟨-, hx⟩ | ⟨hne, -⟩)
      · exact ⟨g.pending, hnew, hx⟩
      · exact absurd rfl hne
  · constructor
    · rintro ⟨s, hs, hx⟩
      rcases of_mem_insert_key hs with heq | hold
      · exact absurd (congrArg Prod.fst heq) hk
      · exact Or.inr ⟨hk, s, hold, hx⟩
    · rintro (⟨heq, -⟩ | ⟨-, s, hs, hx⟩)
      · exact absurd heq.symm hk
      · exact ⟨s, mem_insert_other hs hk, hx⟩

/-- A group that is kept under a key holds what the key closed when it came last. -/
theorem mem_closed_iff (l : List (Mark ι κ)) (g : Groups ι κ)
    (hg : g.closed.Pairwise fun a b => a.1 < b.1) (x : ι) (k : κ) :
    (∃ s, (k, s) ∈ (collect g l).closed ∧ x ∈ s) ↔
      Next x k l ∨ x ∈ g.pending ∧ OnlyFirst k (keys l) ∨
      k ∉ keys l ∧ ∃ s, (k, s) ∈ g.closed ∧ x ∈ s := by
  induction l generalizing g with
  | nil => simp [collect, Next, OnlyFirst, keys]
  | cons a l ih =>
    cases a with
    | item i =>
      rw [collect, List.foldl_cons, ← collect, ih (mark g (.item i)) hg]
      simp only [mark, Next, keys, Finset.mem_insert]
      constructor
      · rintro (hnext | ⟨rfl | hx, honly⟩ | hold)
        · exact Or.inl (Or.inr hnext)
        · exact Or.inl (Or.inl ⟨rfl, honly⟩)
        · exact Or.inr (Or.inl ⟨hx, honly⟩)
        · exact Or.inr (Or.inr hold)
      · rintro ((⟨rfl, honly⟩ | hnext) | ⟨hx, honly⟩ | hold)
        · exact Or.inr (Or.inl ⟨Or.inl rfl, honly⟩)
        · exact Or.inl hnext
        · exact Or.inr (Or.inl ⟨Or.inr hx, honly⟩)
        · exact Or.inr (Or.inr hold)
    | key c =>
      have hsorted : (mark g (.key c)).closed.Pairwise fun a b => a.1 < b.1 := insert_key_sorted hg
      rw [collect, List.foldl_cons, ← collect, ih (mark g (.key c)) hsorted,
        mem_mark_key_iff hg]
      have hpending : x ∉ (mark g (.key c)).pending := Finset.notMem_empty x
      simp only [Next, keys, only_first_cons, List.mem_cons, not_or, hpending, false_and, false_or]
      apply or_congr_right
      constructor
      · rintro ⟨hnot, ⟨heq, hx⟩ | ⟨hne, hold⟩⟩
        · exact Or.inl ⟨hx, heq, hnot⟩
        · exact Or.inr ⟨⟨hne, hnot⟩, hold⟩
      · rintro (⟨hx, heq, hnot⟩ | ⟨⟨hne, hnot⟩, hold⟩)
        · exact ⟨hnot, Or.inl ⟨heq, hx⟩⟩
        · exact ⟨hnot, Or.inr ⟨hne, hold⟩⟩

structure Apart (seen : ι → Prop) (g : Groups ι κ) : Prop where
  pending : ∀ x ∈ g.pending, seen x
  closed : ∀ e ∈ g.closed, ∀ x ∈ e.2, seen x ∧ x ∉ g.pending
  disjoint : ∀ e ∈ g.closed, ∀ e' ∈ g.closed, e.1 ≠ e'.1 → Disjoint e.2 e'.2

theorem mark_item_apart {seen : ι → Prop} {g : Groups ι κ} (h : Apart seen g) {i : ι}
    (hi : ¬ seen i) : Apart (fun x => seen x ∨ x = i) (mark g (.item i)) where
  pending := by
    intro x hx
    rcases Finset.mem_insert.mp hx with rfl | hx
    · exact Or.inr rfl
    · exact Or.inl (h.pending x hx)
  closed := by
    intro e he x hx
    obtain ⟨hseen, hnot⟩ := h.closed e he x hx
    refine ⟨Or.inl hseen, ?_⟩
    intro hin
    rcases Finset.mem_insert.mp hin with rfl | hin
    · exact hi hseen
    · exact hnot hin
  disjoint := h.disjoint

theorem mark_key_apart {seen : ι → Prop} {g : Groups ι κ} (h : Apart seen g) (k : κ) :
    Apart seen (mark g (.key k)) := by
  have hnew : ∀ e ∈ g.closed, Disjoint g.pending e.2 := by
    intro e he
    rw [Finset.disjoint_left]
    intro x hp hx
    exact (h.closed e he x hx).2 hp
  constructor
  case pending => exact fun x hx => absurd hx (Finset.notMem_empty x)
  case closed =>
    intro e he x hx
    refine ⟨?_, Finset.notMem_empty x⟩
    rcases of_mem_insert_key he with rfl | he
    · exact h.pending x hx
    · exact (h.closed e he x hx).1
  case disjoint =>
    intro e he e' he' hne
    rcases of_mem_insert_key he with rfl | he
    · rcases of_mem_insert_key he' with rfl | he'
      · exact absurd rfl hne
      · exact hnew e' he'
    · rcases of_mem_insert_key he' with rfl | he'
      · exact (hnew e he).symm
      · exact h.disjoint e he e' he' hne

/-- Items that come only once end up in one group at most, whatever keys repeat. -/
theorem collect_apart (l : List (Mark ι κ)) (seen : ι → Prop) (g : Groups ι κ)
    (h : Apart seen g) (hnew : ∀ x ∈ items l, ¬ seen x) (hnodup : (items l).Nodup) :
    ∃ seen', Apart seen' (collect g l) := by
  induction l generalizing seen g with
  | nil => exact ⟨seen, h⟩
  | cons a l ih =>
    cases a with
    | item i =>
      obtain ⟨hi, hrest⟩ := List.nodup_cons.mp hnodup
      apply ih _ _ (mark_item_apart h (hnew i List.mem_cons_self)) _ hrest
      intro x hx
      rintro (hs | rfl)
      · exact hnew x (List.mem_cons_of_mem i hx) hs
      · exact hi hx
    | key k => exact ih _ _ (mark_key_apart h k) hnew hnodup

end Parmesan.KeyedGroups
