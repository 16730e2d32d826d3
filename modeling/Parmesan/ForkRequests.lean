import Parmesan.Execution
import Parmesan.StreamSocket
import Mathlib.Tactic.Common

/-!
# The requests of the fork server

`Forksrv` writes four bytes for each child it wants and two when it is dropped;
`start_forkcli` reads up to four bytes at a time and forks whatever it has read.
`sent`, `consumed` and `forks` count the requests, the bytes read and the
children; nothing reads them but the statements. `fork` is taken to succeed.
-/

set_option autoImplicit false

namespace Parmesan.ForkRequests
open Parmesan.StreamSocket Parmesan.Execution

def FORKSRV_NEW_CHILD : List UInt8 := [8, 8, 8, 8]
def FIN : List UInt8 := [0, 0]

inductive Fuzzer where
  | running
  | dropping
  | closed
  deriving DecidableEq, Repr

inductive Forkcli where
  | reading
  | writingPid
  | waiting
  | writingStatus
  | exited
  deriving DecidableEq, Repr

structure Link where
  stream : List UInt8
  fuzzer : Fuzzer
  forkcli : Forkcli
  sent : ℕ
  consumed : ℕ
  forks : ℕ
  deriving DecidableEq, Repr

def newLink : Link := ⟨[], .running, .reading, 0, 0, 0⟩

/-- A write of the server and `waitpid` may fail. -/
inductive Event where
  | request
  | fin
  | close
  | read (r : Received)
  | writePid (ok : Bool)
  | waitpid (ok : Bool)
  | writeStatus (ok : Bool)
  deriving DecidableEq, Repr

/-- A server that has exited receives no more bytes, and its last write after
the fuzzer has closed the socket fails. -/
def next (s : Link) : Event → Option Link
  | .request =>
    if s.fuzzer = .running ∧ s.forkcli ≠ .exited then
      some { s with stream := s.stream ++ FORKSRV_NEW_CHILD, sent := s.sent+1 }
    else none
  | .fin =>
    if s.fuzzer = .running then
      some { s with
        fuzzer := .dropping
        stream := if s.forkcli = .exited then s.stream else s.stream ++ FIN }
    else none
  | .close => if s.fuzzer = .dropping then some { s with fuzzer := .closed } else none
  | .read r =>
    if s.forkcli = .reading then
      match r with
      | .fail => some { s with forkcli := .exited }
      | r => (receive s.stream (s.fuzzer ≠ .closed) 4 r).map fun x =>
          { s with
            stream := x.2
            forkcli := .writingPid
            consumed := s.consumed+x.1.length
            forks := s.forks+1 }
    else none
  | .writePid ok =>
    if s.forkcli = .writingPid ∧ (ok = true → s.fuzzer ≠ .closed) then
      some { s with forkcli := if ok then .waiting else .exited }
    else none
  | .waitpid ok =>
    if s.forkcli = .waiting then
      some { s with forkcli := if ok then .writingStatus else .exited }
    else none
  | .writeStatus ok =>
    if s.forkcli = .writingStatus ∧ (ok = true → s.fuzzer ≠ .closed) then
      some { s with forkcli := if ok then .reading else .exited }
    else none

/-- The requests of which a byte has been read. -/
def opened (s : Link) : ℕ := (min s.consumed (4*s.sent)+3) / 4

def Balanced (s : Link) : Prop := s.forks = opened s

/-- A read that returns gives the first byte of a request. -/
def Opening (s : Link) : Event → Prop
  | .read (.data count) => ∃ j < s.sent, s.consumed ≤ 4*j ∧ 4*j < s.consumed+count
  | .read .eof => False
  | _ => True

instance (s : Link) : (e : Event) → Decidable (Opening s e)
  | .read (.data count) =>
    inferInstanceAs (Decidable (∃ j < s.sent, s.consumed ≤ 4*j ∧ 4*j < s.consumed+count))
  | .read .eof => instDecidableFalse
  | .read .fail => instDecidableTrue
  | .request => instDecidableTrue
  | .fin => instDecidableTrue
  | .close => instDecidableTrue
  | .writePid _ => instDecidableTrue
  | .waitpid _ => instDecidableTrue
  | .writeStatus _ => instDecidableTrue

def Kept (s : Link) : Prop :=
  s.consumed+s.stream.length ≤ 4*s.sent+2 ∧
    (s.fuzzer = .running → s.consumed+s.stream.length = 4*s.sent)

variable {s t : Link}

theorem next_cases {e : Event} (h : next s e = some t) :
    (e = .request ∧ s.fuzzer = .running ∧ t.fuzzer = .running ∧ t.sent = s.sent+1 ∧
      t.consumed = s.consumed ∧ t.forks = s.forks ∧ t.stream = s.stream ++ FORKSRV_NEW_CHILD) ∨
    (∃ r bytes, e = .read r ∧ receive s.stream (s.fuzzer ≠ .closed) 4 r = some (bytes, t.stream) ∧
      t.fuzzer = s.fuzzer ∧ t.sent = s.sent ∧ t.consumed = s.consumed+bytes.length ∧
      t.forks = s.forks+1) ∨
    (Opening s e ∧ (t.fuzzer = .running → s.fuzzer = .running ∧ t.stream = s.stream) ∧
      (t.stream = s.stream ∨ s.fuzzer = .running ∧ t.stream = s.stream ++ FIN) ∧
      t.sent = s.sent ∧ t.consumed = s.consumed ∧ t.forks = s.forks) := by
  cases e with
  | request =>
    simp only [next] at h
    split_ifs at h with hopen
    obtain rfl := Option.some.inj h
    exact Or.inl ⟨rfl, hopen.1, hopen.1, rfl, rfl, rfl, rfl⟩
  | fin =>
    simp only [next] at h
    split_ifs at h with hopen hexit
    · obtain rfl := Option.some.inj h
      refine Or.inr (Or.inr ⟨trivial, ?_, Or.inl rfl, rfl, rfl, rfl⟩)
      intro hrun
      cases hrun
    · obtain rfl := Option.some.inj h
      refine Or.inr (Or.inr ⟨trivial, ?_, Or.inr ⟨hopen, rfl⟩, rfl, rfl, rfl⟩)
      intro hrun
      cases hrun
  | close =>
    simp only [next] at h
    split_ifs at h
    obtain rfl := Option.some.inj h
    refine Or.inr (Or.inr ⟨trivial, ?_, Or.inl rfl, rfl, rfl, rfl⟩)
    intro hrun
    cases hrun
  | read r =>
    simp only [next] at h
    split_ifs at h
    cases r with
    | fail =>
      obtain rfl := Option.some.inj h
      exact Or.inr (Or.inr ⟨trivial, fun hrun => ⟨hrun, rfl⟩, Or.inl rfl, rfl, rfl, rfl⟩)
    | data count =>
      obtain ⟨x, hx, rfl⟩ := Option.map_eq_some_iff.mp h
      exact Or.inr (Or.inl ⟨_, x.1, rfl, hx, rfl, rfl, rfl, rfl⟩)
    | eof =>
      obtain ⟨x, hx, rfl⟩ := Option.map_eq_some_iff.mp h
      exact Or.inr (Or.inl ⟨_, x.1, rfl, hx, rfl, rfl, rfl, rfl⟩)
  | writePid ok =>
    simp only [next] at h
    split_ifs at h <;> obtain rfl := Option.some.inj h <;>
      exact Or.inr (Or.inr ⟨trivial, fun hrun => ⟨hrun, rfl⟩, Or.inl rfl, rfl, rfl, rfl⟩)
  | waitpid ok =>
    simp only [next] at h
    split_ifs at h <;> obtain rfl := Option.some.inj h <;>
      exact Or.inr (Or.inr ⟨trivial, fun hrun => ⟨hrun, rfl⟩, Or.inl rfl, rfl, rfl, rfl⟩)
  | writeStatus ok =>
    simp only [next] at h
    split_ifs at h <;> obtain rfl := Option.some.inj h <;>
      exact Or.inr (Or.inr ⟨trivial, fun hrun => ⟨hrun, rfl⟩, Or.inl rfl, rfl, rfl, rfl⟩)

theorem next_kept {e : Event} (hk : Kept s) (h : next s e = some t) : Kept t := by
  obtain ⟨hle, hrun⟩ := hk
  rcases next_cases h with ⟨-, hopen, -, hsent, hcons, -, hstream⟩ |
    ⟨r, bytes, -, hget, hfuzzer, hsent, hcons, -⟩ | ⟨-, hfuzzer, hstream, hsent, hcons, -⟩
  · have hlen : t.stream.length = s.stream.length+4 := by
      rw [hstream, List.length_append]
      rfl
    have hsame := hrun hopen
    rw [Kept, hsent, hcons, hlen]
    omega
  · have hlen : s.stream.length = bytes.length+t.stream.length := by
      cases r with
      | data count => rw [(receive_data hget).2.2.1, List.length_append]
      | eof =>
        obtain ⟨hnil, hbytes, hrest, -⟩ := receive_eof hget
        rw [hnil, hbytes, hrest]
        rfl
      | fail => cases hget
    rw [Kept, hsent, hcons, hfuzzer]
    refine ⟨by omega, fun hopen => ?_⟩
    have hsame := hrun hopen
    omega
  · rw [Kept, hsent, hcons]
    constructor
    · rcases hstream with hsame | ⟨hopen, hfin⟩
      · rw [hsame]
        exact hle
      · have hlen : t.stream.length = s.stream.length+2 := by
          rw [hfin, List.length_append]
          rfl
        have hsame := hrun hopen
        omega
    · intro hopen
      obtain ⟨hopen', hsame⟩ := hfuzzer hopen
      rw [hsame]
      exact hrun hopen'

theorem opened_succ_iff (consumed sent count : ℕ) (hpos : 0 < count) (hle : count ≤ 4) :
    (min consumed (4*sent)+3) / 4+1 = (min (consumed+count) (4*sent)+3) / 4 ↔
      ∃ j < sent, consumed ≤ 4*j ∧ 4*j < consumed+count := by
  constructor
  · intro h
    exact ⟨(consumed+3) / 4, by omega, by omega, by omega⟩
  · rintro ⟨j, hj, hlow, hhigh⟩
    omega

theorem next_balanced {e : Event} (hk : Kept s) (hb : Balanced s) (h : next s e = some t) :
    Balanced t ↔ Opening s e := by
  have hforks : s.forks = (min s.consumed (4*s.sent)+3) / 4 := hb
  rcases next_cases h with ⟨rfl, hopen, -, hsent, hcons, hsame, -⟩ |
    ⟨r, bytes, rfl, hget, -, hsent, hcons, hone⟩ | ⟨hok, -, -, hsent, hcons, hsame⟩
  · refine iff_of_true ?_ trivial
    have hread := hk.2 hopen
    rw [Balanced, opened, hsent, hcons, hsame]
    omega
  · rw [Balanced, opened, hsent, hcons, hone, hforks]
    cases r with
    | data count =>
      obtain ⟨hpos, hlimit, -, hlen⟩ := receive_data hget
      rw [hlen]
      exact opened_succ_iff s.consumed s.sent count hpos hlimit
    | eof =>
      obtain ⟨-, rfl, -, -⟩ := receive_eof hget
      refine iff_of_false ?_ id
      simp
    | fail => cases hget
  · refine iff_of_true ?_ hok
    rw [Balanced, opened, hsent, hcons, hsame]
    exact hforks

/-- In every run a child is forked for each request read and for nothing else
exactly if every read that returns gives the first byte of a request; then, once
all requests have been read, there are as many children as requests. -/
theorem opening_run_balanced (es : List Event) (s : Link)
    (h : replay next (fun _ _ => True) newLink es = some s) :
    ((∀ js t, js <+: es → replay next (fun _ _ => True) newLink js = some t → Balanced t) ↔
      replay next Opening newLink es = some s) ∧
    (replay next Opening newLink es = some s →
      s.forks ≤ s.sent ∧ (4*s.sent ≤ s.consumed → s.forks = s.sent)) := by
  have hstart : Kept newLink := ⟨by decide, fun _ => rfl⟩
  have hbalanced : Balanced newLink := rfl
  have hexact : (∀ js t, js <+: es → replay next (fun _ _ => True) newLink js = some t →
      Balanced t) ↔ replay next Opening newLink es = some s :=
    replay_exact_kept hstart hbalanced (fun _ _ _ hk _ _ hn => next_kept hk hn)
      (fun _ _ _ hk hs _ hn => next_balanced hk hs hn) (fun _ _ _ => trivial) es s h
  refine ⟨hexact, ?_⟩
  intro hrun
  have hbal : s.forks = (min s.consumed (4*s.sent)+3) / 4 :=
    hexact.mpr hrun es s (List.prefix_refl es) h
  omega

def serve (r : Received) : List Event := [.read r, .writePid true, .waitpid true, .writeStatus true]

/-- Two requests, the first read in two parts of which the second one is joined
by the start of the other; then the socket is dropped and the server gives up. -/
def splitEvents : List Event :=
  [.request] ++ serve (.data 2) ++ [.request] ++ serve (.data 4) ++ [.fin, .read .fail]

theorem opening_run_balanced_split : ∃ s,
    replay next (fun _ _ => True) newLink splitEvents = some s ∧ Balanced s ∧ s.forks ≤ s.sent ∧
      s.sent = 2 ∧ s.forks = 2 := by
  have hrun : replay next Opening newLink splitEvents =
      some ⟨[8, 8, 0, 0], .dropping, .exited, 2, 6, 2⟩ := by decide
  have hfree : replay next (fun _ _ => True) newLink splitEvents =
      some ⟨[8, 8, 0, 0], .dropping, .exited, 2, 6, 2⟩ := replay_mono (fun _ _ _ => trivial) _ _ _ hrun
  obtain ⟨hiff, hcount⟩ := opening_run_balanced splitEvents _ hfree
  exact ⟨_, hfree, hiff.mpr hrun _ _ (List.prefix_refl _) hfree, (hcount hrun).1, rfl, rfl⟩

def dropEvents : List Event := [.request] ++ serve (.data 4) ++ [.fin, .read (.data 2)]

theorem fin_forks : ∃ s, replay next (fun _ _ => True) newLink dropEvents = some s ∧
    s.stream = [] ∧ s.sent = 1 ∧ s.forks = 2 ∧ ¬ Balanced s := by
  have hrun : replay next (fun _ _ => True) newLink dropEvents =
      some ⟨[], .dropping, .writingPid, 1, 6, 2⟩ := by decide
  refine ⟨_, hrun, rfl, rfl, rfl, ?_⟩
  intro hb
  cases hb

end Parmesan.ForkRequests
