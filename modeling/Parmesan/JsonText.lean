import Mathlib.Data.Int.Notation
import Mathlib.Data.Nat.Notation
import Mathlib.Tactic.SplitIfs

/-!
# Texts of JSON values

The part of the JSON grammar that has integers, texts without escapes, arrays and
objects. `Document v text` says that `text` spells `v`, with white space wherever the
grammar allows it. `readDocument` is a reader that accepts all of these texts.
-/

set_option autoImplicit false

namespace Parmesan.JsonText

inductive Json where
  | int (v : ℤ)
  | str (s : List Char)
  | array (vs : List Json)
  | object (fields : List (List Char × Json))

def quote : Char := '\x22'
def openBrace : Char := '\x7b'
def closeBrace : Char := '\x7d'

def isBlank (c : Char) : Bool := c = ' ' || c = '\n' || c = '\t' || c = '\r'

def Blank (w : List Char) : Prop := ∀ c ∈ w, isBlank c = true

/-- What stands in a text as it is. -/
def isPlain (c : Char) : Bool := c ≠ quote && c ≠ '\x5c' && 32 ≤ c.toNat

def Plain (s : List Char) : Prop := ∀ c ∈ s, isPlain c = true

def intText (v : ℤ) : List Char :=
  if v < 0 then '-'::Nat.toDigits 10 v.natAbs else Nat.toDigits 10 v.natAbs

def strText (s : List Char) : List Char := quote::(s ++ [quote])

inductive Piece where
  | value (v : Json)
  | items (vs : List Json)
  | members (fields : List (List Char × Json))

inductive Spells : Piece → List Char → Prop where
  | int (v : ℤ) : Spells (.value (.int v)) (intText v)
  | str {s : List Char} : Plain s → Spells (.value (.str s)) (strText s)
  | array {vs : List Json} {t : List Char} : Spells (.items vs) t →
      Spells (.value (.array vs)) ('['::(t ++ [']']))
  | object {fields : List (List Char × Json)} {t : List Char} : Spells (.members fields) t →
      Spells (.value (.object fields)) (openBrace::(t ++ [closeBrace]))
  | noItems {w : List Char} : Blank w → Spells (.items []) w
  | lastItem {v : Json} {w t w' : List Char} : Blank w → Spells (.value v) t → Blank w' →
      Spells (.items [v]) (w ++ (t ++ w'))
  | nextItem {v u : Json} {vs : List Json} {w t w' t' : List Char} : Blank w →
      Spells (.value v) t → Blank w' → Spells (.items (u::vs)) t' →
      Spells (.items (v::u::vs)) (w ++ (t ++ (w' ++ ','::t')))
  | noMembers {w : List Char} : Blank w → Spells (.members []) w
  | lastMember {s : List Char} {v : Json} {w1 w2 w3 t w4 : List Char} : Blank w1 → Plain s →
      Blank w2 → Blank w3 → Spells (.value v) t → Blank w4 →
      Spells (.members [(s, v)]) (w1 ++ (strText s ++ (w2 ++ ':'::(w3 ++ (t ++ w4)))))
  | nextMember {s : List Char} {v : Json} {f : List Char × Json} {fs : List (List Char × Json)}
      {w1 w2 w3 t w4 t' : List Char} : Blank w1 → Plain s → Blank w2 → Blank w3 →
      Spells (.value v) t → Blank w4 → Spells (.members (f::fs)) t' →
      Spells (.members ((s, v)::f::fs))
        (w1 ++ (strText s ++ (w2 ++ ':'::(w3 ++ (t ++ (w4 ++ ','::t'))))))

def Document (v : Json) (text : List Char) : Prop :=
  ∃ w t w', Blank w ∧ Spells (.value v) t ∧ Blank w' ∧ text = w ++ (t ++ w')

section Separated

def separated : List (List Char) → List Char
  | [] => []
  | [t] => t
  | t::u::ts => t ++ ", ".toList ++ separated (u::ts)

variable {α : Type*} {val : α → Json} {txt : α → List Char}

theorem blank_nil : Blank [] := by
  intro c hc
  exact absurd hc List.not_mem_nil

theorem blank_space : Blank [' '] := by
  intro c hc
  rw [List.mem_singleton.mp hc]
  rfl

theorem separated_items {xs : List α} (h : ∀ x ∈ xs, Spells (.value (val x)) (txt x))
    {w : List Char} (hw : Blank w) :
    Spells (.items (xs.map val)) (w ++ separated (xs.map txt)) := by
  induction xs generalizing w with
  | nil =>
    show Spells (.items []) (w ++ [])
    rw [List.append_nil]
    exact Spells.noItems hw
  | cons x xs ih =>
    have hx := h x List.mem_cons_self
    cases xs with
    | nil =>
      have hlast := Spells.lastItem hw hx blank_nil
      rwa [List.append_nil] at hlast
    | cons y ys =>
      have hrest := ih (fun z hz => h z (List.mem_cons_of_mem x hz)) blank_space
      have hnext := Spells.nextItem hw hx blank_nil hrest
      show Spells _ (w ++ (txt x ++ [',', ' '] ++ separated (txt y::ys.map txt)))
      rw [List.append_assoc]
      exact hnext

def memberText (s t : List Char) : List Char := strText s ++ ": ".toList ++ t

theorem separated_members {key : α → List Char} {xs : List α}
    (h : ∀ x ∈ xs, Plain (key x) ∧ Spells (.value (val x)) (txt x))
    {w : List Char} (hw : Blank w) : Spells (.members (xs.map fun x => (key x, val x)))
      (w ++ separated (xs.map fun x => memberText (key x) (txt x))) := by
  induction xs generalizing w with
  | nil =>
    show Spells (.members []) (w ++ [])
    rw [List.append_nil]
    exact Spells.noMembers hw
  | cons x xs ih =>
    obtain ⟨hkey, hx⟩ := h x List.mem_cons_self
    cases xs with
    | nil =>
      have hlast := Spells.lastMember hw hkey blank_nil blank_space hx blank_nil
      rw [List.append_nil] at hlast
      show Spells _ (w ++ (strText (key x) ++ [':', ' '] ++ txt x))
      rw [List.append_assoc]
      exact hlast
    | cons y ys =>
      have hrest := ih (fun z hz => h z (List.mem_cons_of_mem x hz)) blank_space
      have hnext := Spells.nextMember hw hkey blank_nil blank_space hx blank_nil hrest
      show Spells _ (w ++ (strText (key x) ++ [':', ' '] ++ txt x ++ [',', ' '] ++ separated _))
      rw [List.append_assoc, List.append_assoc, List.append_assoc]
      exact hnext

end Separated

section Reader

def skipBlanks (text : List Char) : List Char := text.dropWhile isBlank

def readNat (text : List Char) : Option (ℕ × List Char) :=
  let ds := text.takeWhile Char.isDigit
  if ds = [] then none else some (Nat.ofDigitChars 10 ds 0, text.dropWhile Char.isDigit)

def readInt (text : List Char) : Option (ℤ × List Char) :=
  match text with
  | '-'::rest => (readNat rest).map fun r => (-(r.1 : ℤ), r.2)
  | _ => (readNat text).map fun r => ((r.1 : ℤ), r.2)

def readStr (text : List Char) : Option (List Char × List Char) :=
  match text.dropWhile isPlain with
  | c::rest => if c = quote then some (text.takeWhile isPlain, rest) else none
  | [] => none

mutual

def readValue : ℕ → List Char → Option (Json × List Char)
  | 0, _ => none
  | n+1, text =>
    match skipBlanks text with
    | [] => none
    | c::rest =>
      if c = '[' then
        if (skipBlanks rest).head? = some ']' then some (.array [], (skipBlanks rest).tail)
        else (readItems n rest).map fun r => (.array r.1, r.2)
      else if c = openBrace then
        if (skipBlanks rest).head? = some closeBrace then
          some (.object [], (skipBlanks rest).tail)
        else (readMembers n rest).map fun r => (.object r.1, r.2)
      else if c = quote then (readStr rest).map fun r => (.str r.1, r.2)
      else (readInt (c::rest)).map fun r => (.int r.1, r.2)

def readItems : ℕ → List Char → Option (List Json × List Char)
  | 0, _ => none
  | n+1, text =>
    (readValue n text).bind fun r =>
      match skipBlanks r.2 with
      | [] => none
      | c::rest =>
        if c = ',' then (readItems n rest).map fun q => (r.1::q.1, q.2)
        else if c = ']' then some ([r.1], rest)
        else none

def readMembers : ℕ → List Char → Option (List (List Char × Json) × List Char)
  | 0, _ => none
  | n+1, text =>
    match skipBlanks text with
    | [] => none
    | c::rest =>
      if c = quote then
        (readStr rest).bind fun k =>
          match skipBlanks k.2 with
          | [] => none
          | c::rest =>
            if c = ':' then
              (readValue n rest).bind fun r =>
                match skipBlanks r.2 with
                | [] => none
                | c::rest =>
                  if c = ',' then (readMembers n rest).map fun q => ((k.1, r.1)::q.1, q.2)
                  else if c = closeBrace then some ([(k.1, r.1)], rest)
                  else none
            else none
      else none

end

def readDocument (text : List Char) : Option Json :=
  (readValue text.length text).bind fun r => if skipBlanks r.2 = [] then some r.1 else none

end Reader

section Complete

theorem skip_blanks_append {w : List Char} (hw : Blank w) (t : List Char) :
    skipBlanks (w ++ t) = skipBlanks t := List.dropWhile_append_of_pos hw

theorem skip_blanks_cons {c : Char} (hc : isBlank c = false) (t : List Char) :
    skipBlanks (c::t) = c::t := by
  rw [skipBlanks, List.dropWhile_cons, hc]
  rfl

theorem skip_to {w : List Char} (hw : Blank w) {c : Char} (hc : isBlank c = false)
    (t : List Char) : skipBlanks (w ++ c::t) = c::t := by
  rw [skip_blanks_append hw, skip_blanks_cons hc]

def Ends (rest : List Char) : Prop := ∀ c ∈ rest.head?, c.isDigit = false

theorem ends_nil : Ends [] := by
  intro c hc
  simp at hc

theorem ends_cons {c : Char} (hc : c.isDigit = false) (t : List Char) : Ends (c::t) := by
  intro d hd
  have hcd : c = d := by simpa using hd
  rw [← hcd]
  exact hc

theorem blank_not_digit {c : Char} (hc : isBlank c = true) : c.isDigit = false := by
  simp only [isBlank, Bool.or_eq_true, decide_eq_true_eq] at hc
  rcases hc with ((rfl | rfl) | rfl) | rfl
  · rfl
  · rfl
  · rfl
  · rfl

theorem ends_blank {w t : List Char} (hw : Blank w) (ht : Ends t) : Ends (w ++ t) := by
  cases w with
  | nil => exact ht
  | cons c w => exact ends_cons (blank_not_digit (hw c List.mem_cons_self)) _

theorem read_nat_digits (n : ℕ) {rest : List Char} (hrest : Ends rest) :
    readNat (Nat.toDigits 10 n ++ rest) = some (n, rest) := by
  have hdigits : ∀ c ∈ Nat.toDigits 10 n, c.isDigit = true :=
    fun c hc => Nat.isDigit_of_mem_toDigits (by decide) (by decide) hc
  have hstop : rest.takeWhile Char.isDigit = [] ∧ rest.dropWhile Char.isDigit = rest := by
    cases rest with
    | nil => exact ⟨rfl, rfl⟩
    | cons c rest =>
      have hc := hrest c rfl
      simp [hc]
  rw [readNat, List.takeWhile_append_of_pos hdigits, List.dropWhile_append_of_pos hdigits,
    hstop.1, hstop.2, List.append_nil, if_neg Nat.toDigits_ne_nil, Nat.ofDigitChars_ten_toDigits]

theorem digits_head (n : ℕ) : ∃ c cs, Nat.toDigits 10 n = c::cs ∧ c.isDigit = true := by
  cases hds : Nat.toDigits 10 n with
  | nil => exact absurd hds Nat.toDigits_ne_nil
  | cons c cs =>
    refine ⟨c, cs, rfl, ?_⟩
    apply Nat.isDigit_of_mem_toDigits (b := 10) (n := n) (by decide) (by decide)
    rw [hds]
    exact List.mem_cons_self

theorem read_int_text (v : ℤ) {rest : List Char} (hrest : Ends rest) :
    readInt (intText v ++ rest) = some (v, rest) := by
  rw [intText]
  split_ifs with hneg
  · rw [List.cons_append, readInt, read_nat_digits _ hrest, Option.map_some]
    congr 2
    show -((v.natAbs : ℕ) : ℤ) = v
    omega
  · obtain ⟨c, cs, hds, hc⟩ := digits_head v.natAbs
    have hread := read_nat_digits v.natAbs hrest
    rw [hds, List.cons_append] at hread ⊢
    rw [readInt]
    · rw [hread, Option.map_some]
      congr 2
      show ((v.natAbs : ℕ) : ℤ) = v
      omega
    · intro rest' hminus
      have hcm : c = '-' := (List.cons.inj hminus).1
      rw [hcm] at hc
      exact absurd hc (by decide)

theorem read_str_text {s : List Char} (hs : Plain s) (rest : List Char) :
    readStr (s ++ quote::rest) = some (s, rest) := by
  have hstop : isPlain quote = false := by decide
  rw [readStr, List.dropWhile_append_of_pos hs, List.dropWhile_cons, hstop,
    List.takeWhile_append_of_pos hs, List.takeWhile_cons, hstop]
  simp

theorem int_head (v : ℤ) : ∃ c cs, intText v = c::cs ∧ (c = '-' ∨ c.isDigit = true) := by
  rw [intText]
  split_ifs
  · exact ⟨_, _, rfl, Or.inl rfl⟩
  · obtain ⟨c, cs, hds, hc⟩ := digits_head v.natAbs
    exact ⟨c, cs, hds, Or.inr hc⟩

theorem int_head_ne {c d : Char} (hc : c = '-' ∨ c.isDigit = true)
    (hd : d ≠ '-' ∧ d.isDigit = false) : c ≠ d := by
  intro hcd
  rw [hcd] at hc
  rcases hc with hc | hc
  · exact hd.1 hc
  · rw [hd.2] at hc
    exact absurd hc (by decide)

theorem int_head_not_blank {c : Char} (hc : c = '-' ∨ c.isDigit = true) : isBlank c = false := by
  rcases hc with rfl | hc
  · decide
  · cases hblank : isBlank c with
    | false => rfl
    | true =>
      rw [blank_not_digit hblank] at hc
      exact absurd hc (by decide)

theorem value_head {v : Json} {t : List Char} (h : Spells (.value v) t) :
    ∃ c cs, t = c::cs ∧ isBlank c = false ∧ c ≠ ']' := by
  cases h with
  | int v =>
    obtain ⟨c, cs, ht, hc⟩ := int_head v
    exact ⟨c, cs, ht, int_head_not_blank hc, int_head_ne hc (by decide)⟩
  | str => exact ⟨_, _, rfl, by decide, by decide⟩
  | array => exact ⟨_, _, rfl, by decide, by decide⟩
  | object => exact ⟨_, _, rfl, by decide, by decide⟩

theorem read_value_blank {w : List Char} (hw : Blank w) (n : ℕ) (t : List Char) :
    readValue n (w ++ t) = readValue n t := by
  cases n with
  | zero => rfl
  | succ n => rw [readValue, readValue, skip_blanks_append hw]

theorem items_head {vs : List Json} {t : List Char} (h : Spells (.items vs) t) (hvs : vs ≠ [])
    (rest : List Char) : (skipBlanks (t ++ rest)).head? ≠ some ']' := by
  have hbegin : ∀ {v : Json} {w t' : List Char} (more : List Char), Blank w →
      Spells (.value v) t' → (skipBlanks (w ++ (t' ++ more))).head? ≠ some ']' := by
    intro v w t' more hw hv
    obtain ⟨c, cs, ht, hblank, hne⟩ := value_head hv
    rw [ht, List.cons_append, skip_to hw hblank, List.head?_cons]
    intro hc
    exact hne (Option.some.inj hc)
  cases h with
  | noItems => exact absurd rfl hvs
  | lastItem hw hv _ =>
    rw [List.append_assoc, List.append_assoc]
    exact hbegin _ hw hv
  | nextItem hw hv _ _ =>
    rw [List.append_assoc, List.append_assoc]
    exact hbegin _ hw hv

theorem members_head {fs : List (List Char × Json)} {t : List Char} (h : Spells (.members fs) t)
    (hfs : fs ≠ []) (rest : List Char) : (skipBlanks (t ++ rest)).head? ≠ some closeBrace := by
  have hbegin : ∀ {w : List Char} (more : List Char), Blank w →
      (skipBlanks (w ++ quote::more)).head? ≠ some closeBrace := by
    intro w more hw
    rw [skip_to hw (by decide), List.head?_cons]
    decide
  cases h with
  | noMembers => exact absurd rfl hfs
  | lastMember hw _ _ _ _ _ =>
    rw [List.append_assoc]
    exact hbegin _ hw
  | nextMember hw _ _ _ _ _ _ =>
    rw [List.append_assoc]
    exact hbegin _ hw

/-- What the reader makes of the text of a piece, whatever follows. -/
def ReadBack : Piece → List Char → Prop
  | .value v, t => ∀ n rest, t.length ≤ n → Ends rest → readValue n (t ++ rest) = some (v, rest)
  | .items vs, t => vs ≠ [] → ∀ n rest, t.length+1 ≤ n →
      readItems n (t ++ ']'::rest) = some (vs, rest)
  | .members fs, t => fs ≠ [] → ∀ n rest, t.length+1 ≤ n →
      readMembers n (t ++ closeBrace::rest) = some (fs, rest)

theorem read_int_back (v : ℤ) : ReadBack (.value (.int v)) (intText v) := by
  intro n rest hn hrest
  obtain ⟨c, cs, ht, hc⟩ := int_head v
  have hread := read_int_text v hrest
  rw [ht, List.cons_append] at hread ⊢
  cases n with
  | zero =>
    rw [ht] at hn
    exact absurd hn (by simp)
  | succ n =>
    rw [readValue, skip_blanks_cons (int_head_not_blank hc)]
    simp only [if_neg (int_head_ne hc (show '[' ≠ '-' ∧ _ by decide)),
      if_neg (int_head_ne hc (show openBrace ≠ '-' ∧ _ by decide)),
      if_neg (int_head_ne hc (show quote ≠ '-' ∧ _ by decide)), hread, Option.map_some]

theorem read_str_back {s : List Char} (hs : Plain s) :
    ReadBack (.value (.str s)) (strText s) := by
  intro n rest hn _
  cases n with
  | zero => exact absurd hn (by simp [strText])
  | succ n =>
    rw [strText, List.cons_append, List.append_assoc, List.singleton_append, readValue,
      skip_blanks_cons (by decide)]
    simp only [if_neg (show quote ≠ '[' by decide), if_neg (show quote ≠ openBrace by decide),
      if_true, read_str_text hs, Option.map_some]

theorem read_array_back {vs : List Json} {t : List Char} (h : Spells (.items vs) t)
    (ih : ReadBack (.items vs) t) : ReadBack (.value (.array vs)) ('['::(t ++ [']'])) := by
  intro n rest hn _
  cases n with
  | zero => exact absurd hn (by simp)
  | succ n =>
    rw [List.cons_append, List.append_assoc, List.singleton_append, readValue,
      skip_blanks_cons (by decide)]
    simp only [if_true]
    cases vs with
    | nil =>
      cases h with
      | noItems hw =>
        rw [skip_to hw (by decide)]
        rfl
    | cons v vs =>
      have hroom : t.length+1 ≤ n := by simpa using hn
      rw [if_neg (items_head h (by simp) _), ih (by simp) n rest hroom, Option.map_some]

theorem read_object_back {fs : List (List Char × Json)} {t : List Char}
    (h : Spells (.members fs) t) (ih : ReadBack (.members fs) t) :
    ReadBack (.value (.object fs)) (openBrace::(t ++ [closeBrace])) := by
  intro n rest hn _
  cases n with
  | zero => exact absurd hn (by simp)
  | succ n =>
    rw [List.cons_append, List.append_assoc, List.singleton_append, readValue,
      skip_blanks_cons (by decide)]
    simp only [if_neg (show openBrace ≠ '[' by decide), if_true]
    cases fs with
    | nil =>
      cases h with
      | noMembers hw =>
        rw [skip_to hw (by decide)]
        rfl
    | cons f fs =>
      have hroom : t.length+1 ≤ n := by simpa using hn
      rw [if_neg (members_head h (by simp) _), ih (by simp) n rest hroom, Option.map_some]

theorem read_last_item_back {v : Json} {w t w' : List Char} (hw : Blank w) (hw' : Blank w')
    (ih : ReadBack (.value v) t) : ReadBack (.items [v]) (w ++ (t ++ w')) := by
  intro _ n rest hn
  simp only [List.length_append] at hn
  cases n with
  | zero => exact absurd hn (by omega)
  | succ n =>
    have hvalue := ih n (w' ++ ']'::rest) (by omega) (ends_blank hw' (ends_cons (by decide) _))
    rw [List.append_assoc, List.append_assoc, readItems, read_value_blank hw, hvalue,
      Option.bind_some, skip_to hw' (by decide)]
    rfl

theorem read_next_item_back {v u : Json} {vs : List Json} {w t w' t' : List Char} (hw : Blank w)
    (hw' : Blank w') (ih : ReadBack (.value v) t) (ih' : ReadBack (.items (u::vs)) t') :
    ReadBack (.items (v::u::vs)) (w ++ (t ++ (w' ++ ','::t'))) := by
  intro _ n rest hn
  simp only [List.length_append, List.length_cons] at hn
  cases n with
  | zero => exact absurd hn (by omega)
  | succ n =>
    have hvalue := ih n (w' ++ ','::(t' ++ ']'::rest)) (by omega)
      (ends_blank hw' (ends_cons (by decide) _))
    have hmore := ih' (by simp) n rest (by omega)
    rw [List.append_assoc, List.append_assoc, List.append_assoc, List.cons_append, readItems,
      read_value_blank hw, hvalue, Option.bind_some, skip_to hw' (by decide)]
    simp only [if_true, hmore, Option.map_some]

theorem read_members_key {s w1 w2 w3 : List Char} (h1 : Blank w1) (hs : Plain s) (h2 : Blank w2)
    (h3 : Blank w3) {v : Json} {more rest : List Char} {n : ℕ}
    (hvalue : readValue n more = some (v, rest)) :
    readMembers (n+1) (w1 ++ (strText s ++ (w2 ++ ':'::(w3 ++ more)))) =
      match skipBlanks rest with
      | [] => none
      | c::rest =>
        if c = ',' then (readMembers n rest).map fun q => ((s, v)::q.1, q.2)
        else if c = closeBrace then some ([(s, v)], rest)
        else none := by
  rw [strText, List.cons_append, List.append_assoc, List.singleton_append, readMembers,
    skip_to h1 (by decide)]
  simp only [if_true, read_str_text hs, Option.bind_some, skip_to h2 (show isBlank ':' = false by
    decide), read_value_blank h3, hvalue]

theorem read_last_member_back {s : List Char} {v : Json} {w1 w2 w3 t w4 : List Char}
    (h1 : Blank w1) (hs : Plain s) (h2 : Blank w2) (h3 : Blank w3) (h4 : Blank w4)
    (ih : ReadBack (.value v) t) :
    ReadBack (.members [(s, v)]) (w1 ++ (strText s ++ (w2 ++ ':'::(w3 ++ (t ++ w4))))) := by
  intro _ n rest hn
  simp only [List.length_append, List.length_cons] at hn
  cases n with
  | zero => exact absurd hn (by omega)
  | succ n =>
    have hvalue := ih n (w4 ++ closeBrace::rest) (by omega)
      (ends_blank h4 (ends_cons (by decide) _))
    simp only [List.append_assoc, List.cons_append]
    rw [read_members_key h1 hs h2 h3 hvalue, skip_to h4 (by decide)]
    rfl

theorem read_next_member_back {s : List Char} {v : Json} {f : List Char × Json}
    {fs : List (List Char × Json)} {w1 w2 w3 t w4 t' : List Char} (h1 : Blank w1) (hs : Plain s)
    (h2 : Blank w2) (h3 : Blank w3) (h4 : Blank w4) (ih : ReadBack (.value v) t)
    (ih' : ReadBack (.members (f::fs)) t') : ReadBack (.members ((s, v)::f::fs))
      (w1 ++ (strText s ++ (w2 ++ ':'::(w3 ++ (t ++ (w4 ++ ','::t')))))) := by
  intro _ n rest hn
  simp only [List.length_append, List.length_cons] at hn
  cases n with
  | zero => exact absurd hn (by omega)
  | succ n =>
    have hvalue := ih n (w4 ++ ','::(t' ++ closeBrace::rest)) (by omega)
      (ends_blank h4 (ends_cons (by decide) _))
    have hmore := ih' (by simp) n rest (by omega)
    simp only [List.append_assoc, List.cons_append]
    rw [read_members_key h1 hs h2 h3 hvalue, skip_to h4 (by decide)]
    simp only [if_true, hmore, Option.map_some]

theorem spells_read_back {p : Piece} {t : List Char} (h : Spells p t) : ReadBack p t := by
  induction h with
  | int v => exact read_int_back v
  | str hs => exact read_str_back hs
  | array h ih => exact read_array_back h ih
  | object h ih => exact read_object_back h ih
  | noItems _ => exact fun hne => absurd rfl hne
  | lastItem hw _ hw' ih => exact read_last_item_back hw hw' ih
  | nextItem hw _ hw' _ ih ih' => exact read_next_item_back hw hw' ih ih'
  | noMembers _ => exact fun hne => absurd rfl hne
  | lastMember h1 hs h2 h3 _ h4 ih => exact read_last_member_back h1 hs h2 h3 h4 ih
  | nextMember h1 hs h2 h3 _ h4 _ ih ih' => exact read_next_member_back h1 hs h2 h3 h4 ih ih'

/-- The reader accepts every text of the grammar and reads the value that it spells. -/
theorem read_document {v : Json} {text : List Char} (h : Document v text) :
    readDocument text = some v := by
  obtain ⟨w, t, w', hw, ht, hw', rfl⟩ := h
  have hends : Ends w' := by
    have hblank := ends_blank hw' ends_nil
    rwa [List.append_nil] at hblank
  have hread := spells_read_back ht (w ++ (t ++ w')).length w' (by simp; omega) hends
  have hrest : skipBlanks w' = [] := by
    have hskip := skip_blanks_append hw' []
    rwa [List.append_nil] at hskip
  rw [readDocument, read_value_blank hw, hread, Option.bind_some, if_pos hrest]

end Complete

end Parmesan.JsonText
