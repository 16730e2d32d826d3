import Mathlib.Algebra.Order.Ring.Int
import Parmesan.Execution
import Mathlib.Data.Finset.Basic
import Mathlib.Data.List.Infix
import Mathlib.Logic.Function.Basic

/-!
# The descriptors of the fuzzed input

`llvm_mode/external_lib/io_func.c` and `runtime/src/ffds.rs`: the wrappers of
`open`, `fopen`, `close` and `fclose` keep the set `FFDS` of the descriptors whose
reads are tainted. What the system answers to a call is part of the event; it
hands out a descriptor that is not open, and on an error a call may have released
the descriptor all the same.
-/

set_option autoImplicit false

namespace Parmesan.InputFds
open Parmesan.Execution

def FUZZING_INPUT_FILE : List UInt8 := "cur_input".toList.map fun c => UInt8.ofNat c.toNat

/-- `strstr` finds the name. -/
def isFuzzingFile (path : List UInt8) : Bool := FUZZING_INPUT_FILE <:+: path

/-- The open descriptors with the path each was opened on, the open streams with
their descriptor, and `FFDS`. -/
structure World where
  opened : ℕ → Option (List UInt8)
  streams : ℕ → Option ℕ
  ffds : Finset ℕ

/-- The three standard descriptors are inherited and have no path. -/
def newWorld : World where
  opened := fun fd => if fd < 3 then some [] else none
  streams := fun _ => none
  ffds := {0}

def asU32 (fd : ℤ) : ℕ := (fd % 2^32).toNat

def angoraIoAddFd (w : World) (fd : ℤ) : World := { w with ffds := insert (asU32 fd) w.ffds }
def angoraIoRemoveFd (w : World) (fd : ℤ) : World := { w with ffds := w.ffds.erase (asU32 fd) }
def angoraIoFindFd (w : World) (fd : ℤ) : Bool := asU32 fd ∈ w.ffds

/-- `ok` is a return value of 0. `late` and `late'` are what the two calls of
`fileno` on the closed stream return. -/
inductive Event where
  | openFile (path : List UInt8) (fd : Option ℕ)
  | fopen (filename : List UInt8) (file : Option (ℕ × ℕ))
  | close (fd : ℤ) (ok released : Bool)
  | fclose (file : ℕ) (ok released : Bool) (late late' : ℤ)
  deriving DecidableEq, Repr

def dfswOpen (w : World) (path : List UInt8) (fd : ℕ) : World :=
  let w := { w with opened := Function.update w.opened fd (some path) }
  if isFuzzingFile path then angoraIoAddFd w fd else w

def dfswFopen (w : World) (filename : List UInt8) (file fd : ℕ) : World :=
  let w := { w with
    opened := Function.update w.opened fd (some filename)
    streams := Function.update w.streams file (some fd) }
  if isFuzzingFile filename then angoraIoAddFd w fd else w

def release (w : World) (fd : ℕ) (released : Bool) : World :=
  if released then { w with opened := Function.update w.opened fd none } else w

def dfswClose (w : World) (fd : ℤ) (ok released : Bool) : World :=
  let w := release w fd.toNat released
  if ok && angoraIoFindFd w fd then angoraIoRemoveFd w fd else w

/-- The stream is closed before its descriptor is looked up. -/
def dfswFclose (w : World) (file fd : ℕ) (ok released : Bool) (late late' : ℤ) : World :=
  let w := { release w fd released with streams := Function.update w.streams file none }
  if ok && angoraIoFindFd w late then angoraIoRemoveFd w late' else w

def next (w : World) : Event → Option World
  | .openFile path (some fd) => some (dfswOpen w path fd)
  | .openFile _ none => some w
  | .fopen filename (some (file, fd)) => some (dfswFopen w filename file fd)
  | .fopen _ none => some w
  | .close fd ok released => some (dfswClose w fd ok released)
  | .fclose file ok released late late' =>
    (w.streams file).map fun fd => dfswFclose w file fd ok released late late'

def isInt (fd : ℤ) : Prop := -2^31 ≤ fd ∧ fd < 2^31

instance (fd : ℤ) : Decidable (isInt fd) := inferInstanceAs (Decidable (_ ∧ _))

/-- A call that reports no error has released the descriptor, and only an open
descriptor is released. -/
def Closes (w : World) (fd : ℕ) (ok released : Bool) : Prop :=
  (ok = true → released = true) ∧ (released = true → w.opened fd ≠ none)

instance (w : World) (fd : ℕ) (ok released : Bool) : Decidable (Closes w fd ok released) :=
  inferInstanceAs (Decidable (_ ∧ _))

/-- What the system may answer. `fileno` on a closed stream does not return the
old descriptor. -/
def Possible (w : World) : Event → Prop
  | .openFile _ res => ∀ fd ∈ res, w.opened fd = none ∧ isInt fd
  | .fopen _ res => ∀ r ∈ res, w.opened r.2 = none ∧ isInt r.2 ∧ w.streams r.1 = none
  | .close fd ok released =>
    isInt fd ∧ Closes w fd.toNat ok released ∧ (released = true → 0 ≤ fd)
  | .fclose file ok released late late' =>
    isInt late ∧ isInt late' ∧ ∀ fd ∈ w.streams file, Closes w fd ok released ∧
      late ≠ (fd : ℤ) ∧ late' ≠ (fd : ℤ)

def onInput (w : World) (fd : ℕ) : Bool := (w.opened fd).any isFuzzingFile

/-- Apart from standard input, `FFDS` holds the descriptors open on the input. -/
def Sound (w : World) : Prop := ∀ fd, fd ≠ 0 → (fd ∈ w.ffds ↔ onInput w fd = true)

/-- No call releases a descriptor of the input and leaves it in `FFDS`, and no
late `fileno` finds another one there. -/
def Harmless (w : World) : Event → Prop
  | .close fd ok released => released = true → ok = true ∨ fd = 0 ∨ onInput w fd.toNat = false
  | .fclose file ok released late late' => ∀ fd ∈ w.streams file,
    (released = true → fd = 0 ∨ onInput w fd = false) ∧
    (ok = true → asU32 late ∈ w.ffds → asU32 late' = 0 ∨ asU32 late' ∉ w.ffds)
  | _ => True

instance (w : World) (e : Event) : Decidable (Possible w e) :=
  match e with
  | .openFile _ res => inferInstanceAs (Decidable (∀ fd ∈ res, w.opened fd = none ∧ isInt fd))
  | .fopen _ res => inferInstanceAs
    (Decidable (∀ r ∈ res, w.opened r.2 = none ∧ isInt r.2 ∧ w.streams r.1 = none))
  | .close _ _ _ => inferInstanceAs (Decidable (_ ∧ _ ∧ _))
  | .fclose file ok released late late' => inferInstanceAs
    (Decidable (isInt late ∧ isInt late' ∧ ∀ fd ∈ w.streams file, Closes w fd ok released ∧
      late ≠ (fd : ℤ) ∧ late' ≠ (fd : ℤ)))

instance (w : World) (e : Event) : Decidable (Harmless w e) :=
  match e with
  | .openFile _ _ => isTrue trivial
  | .fopen _ _ => isTrue trivial
  | .close fd ok released => inferInstanceAs
    (Decidable (released = true → ok = true ∨ fd = 0 ∨ onInput w fd.toNat = false))
  | .fclose file ok released late late' => inferInstanceAs
    (Decidable (∀ fd ∈ w.streams file, (released = true → fd = 0 ∨ onInput w fd = false) ∧
      (ok = true → asU32 late ∈ w.ffds → asU32 late' = 0 ∨ asU32 late' ∉ w.ffds)))

variable {w w' : World}

def Bounded (w : World) : Prop := ∀ fd, w.opened fd ≠ none → fd < 2^31

theorem as_u32_nat {fd : ℕ} (h : fd < 2^31) : asU32 fd = fd := by
  unfold asU32
  omega

theorem as_u32_int {fd : ℤ} (h : 0 ≤ fd) (hi : isInt fd) : asU32 fd = fd.toNat := by
  unfold isInt at hi
  unfold asU32
  omega

theorem as_u32_ne {late : ℤ} {fd : ℕ} (hl : isInt late) (hfd : fd < 2^31) (hne : late ≠ fd) :
    asU32 late ≠ fd := by
  unfold isInt at hl
  unfold asU32
  omega

theorem on_input_open {fd : ℕ} (h : onInput w fd = true) : w.opened fd ≠ none := by
  intro hnone
  rw [onInput, hnone] at h
  cases h

theorem on_input_update (w : World) (streams : ℕ → Option ℕ) (ffds : Finset ℕ) (fd : ℕ)
    (d : Option (List UInt8)) (x : ℕ) :
    onInput ⟨Function.update w.opened fd d, streams, ffds⟩ x =
      if x = fd then d.any isFuzzingFile else onInput w x := by
  unfold onInput
  by_cases hx : x = fd
  · simp only [hx, Function.update_self, if_true]
  · simp only [hx, Function.update_of_ne hx, if_false]

theorem opened_sound (hs : Sound w) {fd : ℕ} (hfree : w.opened fd = none) (hfd : fd < 2^31)
    (path : List UInt8) (streams : ℕ → Option ℕ) :
    Sound ⟨Function.update w.opened fd (some path), streams,
      if isFuzzingFile path then insert (asU32 fd) w.ffds else w.ffds⟩ := by
  intro x hx
  rw [on_input_update]
  have hold : fd ≠ 0 → fd ∉ w.ffds := by
    intro h0 hmem
    exact on_input_open ((hs fd h0).mp hmem) hfree
  by_cases hxf : x = fd
  · subst hxf
    rw [if_pos rfl, Option.any_some]
    by_cases hp : isFuzzingFile path
    · simp [hp, as_u32_nat hfd]
    · simp [hp, hold hx]
  · rw [if_neg hxf, ← hs x hx]
    split_ifs
    · rw [Finset.mem_insert, as_u32_nat hfd, or_iff_right hxf]
    · rfl

theorem released_sound (hs : Sound w) (a : ℕ) (b : Option ℕ) (hab : ∀ x ∈ b, x ≠ a)
    (streams : ℕ → Option ℕ) :
    Sound ⟨Function.update w.opened a none, streams, b.elim w.ffds w.ffds.erase⟩ ↔
      (a = 0 ∨ onInput w a = false) ∧ ∀ x ∈ b, x = 0 ∨ x ∉ w.ffds := by
  have hmem : ∀ x, x ∈ b.elim w.ffds w.ffds.erase ↔ x ∈ w.ffds ∧ b ≠ some x := by
    intro x
    cases b with
    | none => simp
    | some y => simp [and_comm, eq_comm]
  constructor
  · intro hsound
    constructor
    · by_contra hbad
      rw [not_or, Bool.not_eq_false] at hbad
      have hx := hsound a hbad.1
      rw [on_input_update, if_pos rfl, hmem, hs a hbad.1] at hx
      have hout := hx.mp ⟨hbad.2, fun hb => hab a hb rfl⟩
      cases hout
    · intro x hxb
      by_contra hbad
      rw [not_or, not_not] at hbad
      have hx := hsound x hbad.1
      rw [on_input_update, if_neg (hab x hxb), hmem, ← hs x hbad.1] at hx
      exact (hx.mpr hbad.2).2 hxb
  · intro hok x hx0
    obtain ⟨ha, hb⟩ := hok
    rw [on_input_update, hmem, hs x hx0]
    by_cases hxa : x = a
    · subst hxa
      rw [if_pos rfl, ha.resolve_left hx0]
      simp
    · rw [if_neg hxa]
      constructor
      · exact fun h => h.1
      · intro hin
        refine ⟨hin, ?_⟩
        intro hxb
        exact (hb x hxb).resolve_left hx0 ((hs x hx0).mpr hin)

theorem close_exact (hs : Sound w) {fd : ℤ} {ok released : Bool}
    (hp : Possible w (.close fd ok released)) :
    Sound (dfswClose w fd ok released) ↔ Harmless w (.close fd ok released) := by
  obtain ⟨hint, ⟨hok, hopen⟩, hpos⟩ := hp
  cases released with
  | false =>
    obtain rfl : ok = false := Bool.eq_false_iff.mpr fun h => absurd (hok h) (by decide)
    exact iff_of_true hs (fun h => by cases h)
  | true =>
    have hu := as_u32_int (hpos rfl) hint
    have h0 : fd = 0 ↔ fd.toNat = 0 := by
      have := hpos rfl
      omega
    cases ok with
    | false =>
      have hrel := released_sound hs fd.toNat none (by simp) w.streams
      simp only [Option.elim_none, Option.not_mem_none, false_implies, implies_true, and_true]
        at hrel
      show Sound ⟨_, _, _⟩ ↔ (true = true → false = true ∨ fd = 0 ∨ onInput w fd.toNat = false)
      rw [h0]
      simpa using hrel
    | true =>
      refine iff_of_true ?_ (fun _ => Or.inl rfl)
      have hclosed : dfswClose w fd true true =
          ⟨Function.update w.opened fd.toNat none, w.streams, w.ffds.erase fd.toNat⟩ := by
        simp only [dfswClose, release, angoraIoFindFd, angoraIoRemoveFd, hu, if_true,
          Bool.true_and, decide_eq_true_eq]
        split_ifs with hin
        · rfl
        · rw [Finset.erase_eq_of_notMem hin]
      rw [hclosed]
      intro x hx
      rw [on_input_update, Finset.mem_erase, hs x hx]
      by_cases hxa : x = fd.toNat
      · simp [hxa]
      · simp [hxa]

theorem fclose_exact (hs : Sound w) (hb : Bounded w) {file fd : ℕ} {ok released : Bool}
    {late late' : ℤ} (hf : w.streams file = some fd)
    (hp : Possible w (.fclose file ok released late late')) :
    Sound (dfswFclose w file fd ok released late late') ↔
      Harmless w (.fclose file ok released late late') := by
  obtain ⟨hlate, hlate', hclose⟩ := hp
  obtain ⟨⟨hok, hopen⟩, hne, hne'⟩ := hclose fd hf
  have hharm : Harmless w (.fclose file ok released late late') ↔
      (released = true → fd = 0 ∨ onInput w fd = false) ∧
      (ok = true → asU32 late ∈ w.ffds → asU32 late' = 0 ∨ asU32 late' ∉ w.ffds) := by
    simp [Harmless, hf]
  rw [hharm]
  cases released with
  | false =>
    obtain rfl : ok = false := Bool.eq_false_iff.mpr fun h => absurd (hok h) (by decide)
    exact iff_of_true hs ⟨fun h => absurd h (by decide), fun h => absurd h (by decide)⟩
  | true =>
    have hfd := hb fd (hopen rfl)
    cases ok with
    | false =>
      have hrel := released_sound hs fd none (by simp) (Function.update w.streams file none)
      simpa [dfswFclose, release] using hrel
    | true =>
      by_cases hin : asU32 late ∈ w.ffds
      · have hrel := released_sound hs fd (some (asU32 late'))
          (by simpa using as_u32_ne hlate' hfd hne') (Function.update w.streams file none)
        simpa [dfswFclose, release, angoraIoFindFd, angoraIoRemoveFd, hin] using hrel
      · have hrel := released_sound hs fd none (by simp) (Function.update w.streams file none)
        simpa [dfswFclose, release, angoraIoFindFd, hin] using hrel

theorem update_bounded (hb : Bounded w) {fd : ℕ} (hfd : fd < 2^31) (path : Option (List UInt8)) :
    ∀ x, Function.update w.opened fd path x ≠ none → x < 2^31 := by
  intro x hx
  by_cases hxf : x = fd
  · rw [hxf]
    exact hfd
  · rw [Function.update_of_ne hxf] at hx
    exact hb x hx

theorem release_bounded (hb : Bounded w) (fd : ℕ) (released : Bool) :
    Bounded (release w fd released) := by
  cases released with
  | false => exact hb
  | true =>
    intro x hx
    change Function.update w.opened fd none x ≠ none at hx
    by_cases hxf : x = fd
    · rw [hxf, Function.update_self] at hx
      exact absurd rfl hx
    · rw [Function.update_of_ne hxf] at hx
      exact hb x hx

theorem next_bounded {e : Event} (hb : Bounded w) (hp : Possible w e) (hn : next w e = some w') :
    Bounded w' := by
  cases e with
  | openFile path res =>
    cases res with
    | none =>
      obtain rfl := Option.some.inj hn
      exact hb
    | some fd =>
      obtain rfl := Option.some.inj hn
      have hfd : fd < 2^31 := by
        have := (hp fd rfl).2.2
        omega
      unfold dfswOpen
      split_ifs
      · exact update_bounded hb hfd (some path)
      · exact update_bounded hb hfd (some path)
  | fopen filename res =>
    cases res with
    | none =>
      obtain rfl := Option.some.inj hn
      exact hb
    | some r =>
      obtain rfl := Option.some.inj hn
      have hfd : r.2 < 2^31 := by
        have := (hp r rfl).2.1.2
        omega
      unfold dfswFopen
      split_ifs
      · exact update_bounded hb hfd (some filename)
      · exact update_bounded hb hfd (some filename)
  | close fd ok released =>
    obtain rfl := Option.some.inj hn
    simp only [dfswClose]
    split_ifs
    · exact release_bounded hb fd.toNat released
    · exact release_bounded hb fd.toNat released
  | fclose file ok released late late' =>
    obtain ⟨fd, -, rfl⟩ := Option.map_eq_some_iff.mp hn
    simp only [dfswFclose]
    split_ifs
    · exact release_bounded hb fd released
    · exact release_bounded hb fd released

theorem next_exact {e : Event} (hb : Bounded w) (hs : Sound w) (hp : Possible w e)
    (hn : next w e = some w') : Sound w' ↔ Harmless w e := by
  cases e with
  | openFile path res =>
    cases res with
    | none =>
      obtain rfl := Option.some.inj hn
      exact iff_of_true hs trivial
    | some fd =>
      obtain rfl := Option.some.inj hn
      obtain ⟨hfree, hfd⟩ := hp fd rfl
      refine iff_of_true ?_ trivial
      have hsound := opened_sound hs hfree (by have := hfd.2; omega) path w.streams
      unfold dfswOpen
      split_ifs at hsound ⊢
      · exact hsound
      · exact hsound
  | fopen filename res =>
    cases res with
    | none =>
      obtain rfl := Option.some.inj hn
      exact iff_of_true hs trivial
    | some r =>
      obtain rfl := Option.some.inj hn
      obtain ⟨hfree, hfd, -⟩ := hp r rfl
      refine iff_of_true ?_ trivial
      have hsound := opened_sound hs hfree (by have := hfd.2; omega) filename
        (Function.update w.streams r.1 (some r.2))
      unfold dfswFopen
      split_ifs at hsound ⊢
      · exact hsound
      · exact hsound
  | close fd ok released =>
    obtain rfl := Option.some.inj hn
    exact close_exact hs hp
  | fclose file ok released late late' =>
    obtain ⟨fd, hf, rfl⟩ := Option.map_eq_some_iff.mp hn
    exact fclose_exact hs hb hf hp

theorem new_world_sound : Sound newWorld := by
  intro fd h0
  have hpath : isFuzzingFile [] = false := by decide
  simp only [newWorld, onInput, Finset.mem_singleton]
  split_ifs <;> simp [h0, hpath]

theorem new_world_bounded : Bounded newWorld := by
  intro fd hfd
  simp only [newWorld] at hfd
  split_ifs at hfd
  · omega
  · exact absurd rfl hfd

/-- Over every sequence of calls, `FFDS` is right after each of them exactly if
no call releases a descriptor of the input without taking it out. -/
theorem ffds_sound_iff (es : List Event) (w : World)
    (h : replay next Possible newWorld es = some w) :
    (∀ js t, js <+: es → replay next Possible newWorld js = some t → Sound t) ↔
      replay next (fun t e => Possible t e ∧ Harmless t e) newWorld es = some w :=
  replay_exact_kept new_world_bounded new_world_sound
    (fun _ _ _ hb _ hp hn => next_bounded hb hp hn)
    (fun _ _ _ hb hs hp hn => (next_exact hb hs hp hn).trans (and_iff_right hp).symm)
    (fun _ _ ha => ha.1) es w h

def inputPath : List UInt8 := "/out/cur_input".toList.map fun c => UInt8.ofNat c.toNat

def otherPath : List UInt8 := "/etc/conf".toList.map fun c => UInt8.ofNat c.toNat

/-- The input is opened and closed by its descriptor, and an unrelated file gets
the same number. -/
def closeEvents : List Event :=
  [.openFile inputPath (some 3), .close 3 true true, .openFile otherPath (some 3)]

/-- The same through a stream; `fileno` on the closed stream returns -1. -/
def fcloseEvents : List Event :=
  [.fopen inputPath (some (100, 3)), .fclose 100 true true (-1) (-1),
    .openFile otherPath (some 3)]

def runOf (es : List Event) : World := (replay next Possible newWorld es).getD newWorld

theorem ffds_sound_iff_close :
    replay next Possible newWorld closeEvents = some (runOf closeEvents) ∧
    ((∀ js t, js <+: closeEvents → replay next Possible newWorld js = some t → Sound t) ↔
      replay next (fun t e => Possible t e ∧ Harmless t e) newWorld closeEvents =
        some (runOf closeEvents)) :=
  ⟨replay_get_d (by decide +kernel) newWorld,
    ffds_sound_iff closeEvents (runOf closeEvents) (replay_get_d (by decide +kernel) newWorld)⟩

/-- After `fclose` the descriptor stays in `FFDS`, and the unrelated file that
gets its number is taken for the input. -/
theorem fclose_keeps_stale :
    replay next Possible newWorld fcloseEvents = some (runOf fcloseEvents) ∧
    3 ∈ (runOf fcloseEvents).ffds ∧ (runOf fcloseEvents).opened 3 = some otherPath ∧
    isFuzzingFile otherPath = false ∧ ¬ Sound (runOf fcloseEvents) := by
  have hin : 3 ∈ (runOf fcloseEvents).ffds := by decide +kernel
  refine ⟨replay_get_d (by decide +kernel) newWorld, hin, by decide +kernel, by decide +kernel, ?_⟩
  intro hs
  have hon := (hs 3 (by decide)).mp hin
  exact absurd hon (by decide +kernel)

end Parmesan.InputFds
