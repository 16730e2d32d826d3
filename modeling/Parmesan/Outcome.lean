import Mathlib.Logic.Basic

/-!
# Computations that may stop with a fault

`Ensures allowed r Q` says that `r` stops with a fault only when `allowed`
admits it, and that a value it returns satisfies `Q`. The rules below follow
the shape of a monadic program, so a proof never inspects the faults itself.

A `Checked` computation may also leave the memory it runs in, which is no
result at all. `Agrees enough cut c r` says that `c` never does and computes
what `r` does, except that it may be cut short with the fault `cut` unless
`enough` holds.
-/

set_option autoImplicit false

namespace Parmesan.Outcome

universe u v
variable {ε : Type v} {α β : Type u}

def Ensures (allowed : ε → Prop) (r : Except ε α) (Q : α → Prop) : Prop :=
  match r with
  | .ok a => Q a
  | .error e => allowed e

theorem ensures_ok (allowed : ε → Prop) (a : α) (Q : α → Prop) (h : Q a) :
    Ensures allowed (.ok a) Q := h

theorem ensures_mono {allowed : ε → Prop} {r : Except ε α} {P Q : α → Prop}
    (h : Ensures allowed r P) (hPQ : ∀ a, P a → Q a) : Ensures allowed r Q := by
  cases r with
  | ok a => exact hPQ a h
  | error e => exact h

theorem ensures_bind {allowed : ε → Prop} {r : Except ε α} {f : α → Except ε β}
    {P : α → Prop} {Q : β → Prop} (h : Ensures allowed r P)
    (hf : ∀ a, P a → Ensures allowed (f a) Q) : Ensures allowed (r >>= f) Q := by
  cases r with
  | ok a => exact hf a h
  | error e => exact h

theorem ensures_map {allowed : ε → Prop} {r : Except ε α} {f : α → β} {P : α → Prop}
    {Q : β → Prop} (h : Ensures allowed r P) (hf : ∀ a, P a → Q (f a)) :
    Ensures allowed (r.map f) Q := by
  cases r with
  | ok a => exact hf a h
  | error e => exact h

theorem ensures_value {allowed : ε → Prop} {r : Except ε α} {Q : α → Prop} {a : α}
    (h : Ensures allowed r Q) (hr : r = .ok a) : Q a := by
  subst hr
  exact h

section Checked

variable {φ : Type u}

abbrev Checked (φ α : Type u) := ExceptT φ Option α

def checked (r : Except φ α) : Checked φ α := ExceptT.mk (some r)

def outside : Checked φ α := ExceptT.mk none

def Agrees (enough : Prop) (cut : φ) (c : Checked φ α) (r : Except φ α) : Prop :=
  c = checked r ∨ ¬ enough ∧ c = checked (.error cut)

variable {enough : Prop} {cut : φ} {c : Checked φ α} {r : Except φ α}

theorem agrees_refl (enough : Prop) (cut : φ) (r : Except φ α) : Agrees enough cut (checked r) r :=
  .inl rfl

theorem agrees_cut (h : ¬ enough) (r : Except φ α) :
    Agrees enough cut (checked (.error cut)) r :=
  .inr ⟨h, rfl⟩

theorem agrees_bind {f : α → Checked φ β} {g : α → Except φ β} (h : Agrees enough cut c r)
    (hf : ∀ a, r = .ok a → Agrees enough cut (f a) (g a)) :
    Agrees enough cut (c >>= f) (r >>= g) := by
  rcases h with rfl | ⟨hnot, rfl⟩
  · cases r with
    | ok a => exact hf a rfl
    | error e => exact .inl rfl
  · exact .inr ⟨hnot, rfl⟩

theorem agrees_ensures {allowed : φ → Prop} {P : α → Prop} {f : α → Checked φ β}
    {g : α → Except φ β} (h : Agrees enough cut c r) (hr : Ensures allowed r P)
    (hf : ∀ a, P a → Agrees enough cut (f a) (g a)) : Agrees enough cut (c >>= f) (r >>= g) :=
  agrees_bind h fun a ha => hf a (ensures_value hr ha)

theorem agrees_value {a : α} (h : Agrees enough cut c r) (hc : c = checked (.ok a)) :
    r = .ok a := by
  rcases h with rfl | ⟨-, rfl⟩
  · exact Option.some.inj hc
  · cases Option.some.inj hc

theorem agrees_inside (h : Agrees enough cut c r) : c ≠ outside := by
  rcases h with rfl | ⟨-, rfl⟩
  · exact Option.some_ne_none _
  · exact Option.some_ne_none _

theorem agrees_enough (h : Agrees enough cut c r) (he : enough) : c = checked r :=
  h.resolve_right fun hcut => hcut.1 he

end Checked

end Parmesan.Outcome
