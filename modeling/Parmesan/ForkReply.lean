import Mathlib.Algebra.Order.Ring.Int
import Parmesan.BranchesModel
import Parmesan.Bytes
import Parmesan.ForkRequests

/-!
# The replies of the fork server

`Forksrv::run` asks for a child, reads its pid and its status, and after a
timeout kills the child and reads once more. Every byte is tagged with the
number of the request it belongs to, and the model records the statuses sent
and the results returned; only the statements read tags and records.
-/

set_option autoImplicit false

namespace Parmesan.ForkReply
open Parmesan.Bytes Parmesan.StreamSocket Parmesan.Execution
open Parmesan.BranchesModel (StatusType)
open Parmesan.ForkRequests (FORKSRV_NEW_CHILD)

def MSAN_ERROR_CODE : ℕ := 86

/-- `WIFSIGNALED`: the low seven bits plus one, as a signed byte, are at least two. -/
def wifsignaled (status : ℕ) : Bool :=
  2 ≤ (status &&& 0x7f)+1 ∧ (status &&& 0x7f)+1 < 128

def wexitstatus (status : ℕ) : ℕ := (status >>> 8) &&& 0xff

def classify (usesAsan : Bool) (status : ℕ) : StatusType :=
  if wifsignaled status || (usesAsan && wexitstatus status = MSAN_ERROR_CODE) then .crash
  else .normal

/-- `read_i32`, as the number of its 32 bits. -/
def readI32 (bytes : List UInt8) : ℕ := leValue (fillBuf 4 bytes)

def notPositive (pid : ℕ) : Bool := pid = 0 || 2^31 ≤ pid

abbrev Tagged := UInt8 × ℕ

def tagged (n : ℕ) (bytes : List UInt8) : List Tagged := bytes.map fun b => (b, n)

inductive Forkcli where
  | reading
  | forked (n pid : ℕ)
  | waiting (n : ℕ)
  | reporting (n status : ℕ)
  | exited
  deriving DecidableEq, Repr

/-- Where `Forksrv::run` stands; `broken` is the state after it returned an error. -/
inductive Client where
  | idle
  | awaitPid (n : ℕ)
  | awaitStatus (n : ℕ)
  | draining (n : ℕ)
  | broken
  deriving DecidableEq, Repr

structure Link where
  up : List Tagged
  down : List Tagged
  forkcli : Forkcli
  client : Client
  requests : ℕ
  statuses : List (ℕ × ℕ)
  returns : List (ℕ × StatusType)
  deriving DecidableEq, Repr

def newLink : Link := ⟨[], [], .reading, .idle, 0, [], []⟩

/-- Steps of the server; it may also be killed. -/
inductive ServerEvent where
  | serve (r : Received) (pid : ℕ)
  | writePid (ok : Bool)
  | waitpid (status : Option ℕ)
  | writeStatus (ok : Bool)
  | die
  deriving DecidableEq, Repr

/-- Steps of `run`; `begin` is the call and the write of the request. -/
inductive ClientEvent where
  | begin
  | readPid (r : Received)
  | readStatus (r : Received)
  | drain (r : Received)
  deriving DecidableEq, Repr

inductive Event where
  | server (e : ServerEvent)
  | client (e : ClientEvent)
  deriving DecidableEq, Repr

def serverNext (s : Link) : ServerEvent → Option Link
  | .serve r pid =>
    match s.forkcli, r with
    | .reading, .fail => some { s with forkcli := .exited }
    | .reading, r =>
      (receive s.up true 4 r).map fun x =>
        { s with up := x.2, forkcli := .forked (x.1.headD (0, 0)).2 pid }
    | _, _ => none
  | .writePid ok =>
    match s.forkcli with
    | .forked n pid =>
      if ok then some { s with down := s.down ++ tagged n (leBytes 4 pid), forkcli := .waiting n }
      else some { s with forkcli := .exited }
    | _ => none
  | .waitpid status =>
    match s.forkcli, status with
    | .waiting n, some status =>
      if status < 2^32 then some { s with forkcli := .reporting n status } else none
    | .waiting _, none => some { s with forkcli := .exited }
    | _, _ => none
  | .writeStatus ok =>
    match s.forkcli with
    | .reporting n status =>
      if ok then
        some { s with
          down := s.down ++ tagged n (leBytes 4 status)
          forkcli := .reading
          statuses := (n, status)::s.statuses }
      else some { s with forkcli := .exited }
    | _ => none
  | .die => some { s with forkcli := .exited }

def finish (s : Link) (n : ℕ) (r : StatusType) : Link :=
  { s with client := if r = .error then .broken else .idle, returns := (n, r)::s.returns }

def peerOpen (s : Link) : Bool := s.forkcli ≠ .exited

/-- The request of a server that has exited cannot be written. -/
def begin (s : Link) : Link :=
  if s.forkcli = .exited then finish { s with requests := s.requests+1 } s.requests .error
  else
    { s with
      up := s.up ++ tagged s.requests FORKSRV_NEW_CHILD
      client := .awaitPid s.requests
      requests := s.requests+1 }

def clientNext (usesAsan : Bool) (s : Link) : ClientEvent → Option Link
  | .begin =>
    match s.client with
    | .idle => some (begin s)
    | .broken => some (begin s)
    | _ => none
  | .readPid r =>
    match s.client, r with
    | .awaitPid n, .fail => some (finish s n .error)
    | .awaitPid n, r =>
      (receive s.down (peerOpen s) 4 r).map fun x =>
        if notPositive (readI32 (x.1.map Prod.fst)) then finish { s with down := x.2 } n .error
        else { s with down := x.2, client := .awaitStatus n }
    | _, _ => none
  | .readStatus r =>
    match s.client, r with
    | .awaitStatus n, .fail => some { s with client := .draining n }
    | .awaitStatus n, r =>
      (receive s.down (peerOpen s) 4 r).map fun x =>
        finish { s with down := x.2 } n (classify usesAsan (readI32 (x.1.map Prod.fst)))
    | _, _ => none
  | .drain r =>
    match s.client, r with
    | .draining _, .fail => some s
    | .draining n, r =>
      (receive s.down (peerOpen s) 16 r).map fun x => finish { s with down := x.2 } n .timeout
    | _, _ => none

def next (usesAsan : Bool) (s : Link) : Event → Option Link
  | .server e => serverNext s e
  | .client e => clientNext usesAsan s e

def serving : Forkcli → Option ℕ
  | .forked n _ => some n
  | .waiting n => some n
  | .reporting n _ => some n
  | _ => none

/-- A byte of the request or of its reply is on the way, or is still to be sent. -/
def Present (s : Link) (n : ℕ) : Prop :=
  (∃ x ∈ s.up, x.2 = n) ∨ (∃ x ∈ s.down, x.2 = n) ∨ serving s.forkcli = some n

/-- A normal or crashed run is one whose status was sent, and nothing of a run
that did not fail is left. -/
structure Faithful (usesAsan : Bool) (s : Link) : Prop where
  reported : ∀ n r, (n, r) ∈ s.returns → r = .normal ∨ r = .crash →
    ∃ status, (n, status) ∈ s.statuses ∧ r = classify usesAsan status
  settled : ∀ n r, (n, r) ∈ s.returns → r ≠ .error → ¬ Present s n

/-- Reads return what the peer wrote in one piece, a status is not the end of
the stream, and after an error only a server that has exited is asked again. -/
def Whole (s : Link) : Event → Prop
  | .server (.serve (.data count) _) => count = 4
  | .client .begin => s.client = .broken → s.forkcli = .exited
  | .client (.readPid (.data count)) => count = 4
  | .client (.readStatus (.data count)) => count = 4
  | .client (.readStatus .eof) => False
  | .client (.drain (.data count)) => count = s.down.length
  | _ => True

instance (s : Link) : (e : Event) → Decidable (Whole s e)
  | .server (.serve (.data count) _) => inferInstanceAs (Decidable (count = 4))
  | .server (.serve .eof _) => instDecidableTrue
  | .server (.serve .fail _) => instDecidableTrue
  | .server (.writePid _) => instDecidableTrue
  | .server (.waitpid _) => instDecidableTrue
  | .server (.writeStatus _) => instDecidableTrue
  | .server .die => instDecidableTrue
  | .client .begin => inferInstanceAs (Decidable (_ → _))
  | .client (.readPid (.data count)) => inferInstanceAs (Decidable (count = 4))
  | .client (.readPid .eof) => instDecidableTrue
  | .client (.readPid .fail) => instDecidableTrue
  | .client (.readStatus (.data count)) => inferInstanceAs (Decidable (count = 4))
  | .client (.readStatus .eof) => instDecidableFalse
  | .client (.readStatus .fail) => instDecidableTrue
  | .client (.drain (.data count)) => inferInstanceAs (Decidable (count = s.down.length))
  | .client (.drain .eof) => instDecidableTrue
  | .client (.drain .fail) => instDecidableTrue

def Running (n : ℕ) (f : Forkcli) : Prop :=
  f = .waiting n ∨ (∃ status < 2^32, f = .reporting n status) ∨ f = .exited

def Resting (f : Forkcli) : Prop := f = .reading ∨ f = .exited

def StatusSent (n : ℕ) (statuses : List (ℕ × ℕ)) (bytes : List Tagged) : Prop :=
  ∃ status < 2^32, bytes = tagged n (leBytes 4 status) ∧ (n, status) ∈ statuses

def BeforeStatus (n : ℕ) (s : Link) : Prop :=
  s.up = [] ∧
    (s.down = [] ∧ Running n s.forkcli ∨ StatusSent n s.statuses s.down ∧ Resting s.forkcli)

def BeforePid (n : ℕ) (s : Link) : Prop :=
  s.up = tagged n FORKSRV_NEW_CHILD ∧ s.down = [] ∧ Resting s.forkcli ∨
  s.up = [] ∧ s.down = [] ∧ ((∃ pid, s.forkcli = .forked n pid) ∨ s.forkcli = .exited) ∨
  ∃ pid rest, s.down = tagged n (leBytes 4 pid) ++ rest ∧ BeforeStatus n { s with down := rest }

def InStep (s : Link) : Client → Prop
  | .idle => s.up = [] ∧ s.down = [] ∧ Resting s.forkcli
  | .awaitPid n => n < s.requests ∧ (∀ r, (n, r) ∉ s.returns) ∧ BeforePid n s
  | .awaitStatus n => n < s.requests ∧ (∀ r, (n, r) ∉ s.returns) ∧ BeforeStatus n s
  | .draining n => n < s.requests ∧ (∀ r, (n, r) ∉ s.returns) ∧ BeforeStatus n s
  | .broken => True

structure Inv (usesAsan : Bool) (s : Link) : Prop where
  faithful : Faithful usesAsan s
  past : ∀ n r, (n, r) ∈ s.returns → n < s.requests
  step : InStep s s.client

variable {usesAsan : Bool} {s t : Link} {n : ℕ}

section Server

theorem server_cases {e : ServerEvent} (h : serverNext s e = some t) :
    t = { s with forkcli := .exited } ∨
    (∃ r pid bytes rest, e = .serve r pid ∧ s.forkcli = .reading ∧
      receive s.up true 4 r = some (bytes, rest) ∧
      t = { s with up := rest, forkcli := .forked (bytes.headD (0, 0)).2 pid }) ∨
    (∃ n pid, s.forkcli = .forked n pid ∧
      t = { s with down := s.down ++ tagged n (leBytes 4 pid), forkcli := .waiting n }) ∨
    (∃ n, ∃ status < 2^32, s.forkcli = .waiting n ∧
      t = { s with forkcli := .reporting n status }) ∨
    ∃ n status, s.forkcli = .reporting n status ∧
      t = { s with
        down := s.down ++ tagged n (leBytes 4 status)
        forkcli := .reading
        statuses := (n, status)::s.statuses } := by
  cases e with
  | serve r pid =>
    simp only [serverNext] at h
    split at h
    · exact Or.inl (Option.some.inj h).symm
    · rename_i hreading _
      obtain ⟨x, hx, rfl⟩ := Option.map_eq_some_iff.mp h
      exact Or.inr (Or.inl ⟨_, pid, x.1, x.2, rfl, hreading, hx, rfl⟩)
    · cases h
  | writePid ok =>
    simp only [serverNext] at h
    split at h
    · rename_i n pid hforked
      split_ifs at h
      · exact Or.inr (Or.inr (Or.inl ⟨n, pid, hforked, (Option.some.inj h).symm⟩))
      · exact Or.inl (Option.some.inj h).symm
    · cases h
  | waitpid status =>
    simp only [serverNext] at h
    split at h
    · rename_i n status hwaiting
      split_ifs at h with hlow
      exact Or.inr (Or.inr (Or.inr (Or.inl ⟨n, status, hlow, hwaiting, (Option.some.inj h).symm⟩)))
    · exact Or.inl (Option.some.inj h).symm
    · cases h
  | writeStatus ok =>
    simp only [serverNext] at h
    split at h
    · rename_i n status hreporting
      split_ifs at h
      · exact Or.inr (Or.inr (Or.inr (Or.inr ⟨n, status, hreporting, (Option.some.inj h).symm⟩)))
      · exact Or.inl (Option.some.inj h).symm
    · cases h
  | die => exact Or.inl (Option.some.inj h).symm

theorem mem_tagged {bytes : List UInt8} {x : Tagged} (h : x ∈ tagged n bytes) : x.2 = n := by
  obtain ⟨b, -, rfl⟩ := List.mem_map.mp h
  rfl

theorem server_frame {e : ServerEvent} (h : serverNext s e = some t) :
    t.client = s.client ∧ t.requests = s.requests ∧ t.returns = s.returns ∧
      s.statuses ⊆ t.statuses := by
  obtain rfl | ⟨r, pid, bytes, rest, -, -, -, rfl⟩ | ⟨m, pid, -, rfl⟩ | ⟨m, status, -, -, rfl⟩ |
    ⟨m, status, -, rfl⟩ := server_cases h
  · exact ⟨rfl, rfl, rfl, List.Subset.refl _⟩
  · exact ⟨rfl, rfl, rfl, List.Subset.refl _⟩
  · exact ⟨rfl, rfl, rfl, List.Subset.refl _⟩
  · exact ⟨rfl, rfl, rfl, List.Subset.refl _⟩
  · exact ⟨rfl, rfl, rfl, List.subset_cons_self _ _⟩

theorem receive_head {pending bytes rest : List Tagged} {limit : ℕ} {r : Received}
    (h : receive pending true limit r = some (bytes, rest)) :
    ∃ x xs, bytes = x::xs ∧ pending = bytes ++ rest := by
  cases r with
  | data count =>
    obtain ⟨hpos, -, happ, hlen⟩ := receive_data h
    obtain ⟨x, xs, rfl⟩ := List.exists_cons_of_length_pos (by omega : 0 < bytes.length)
    exact ⟨x, xs, rfl, happ⟩
  | eof => exact absurd (receive_eof h).2.2.2 (by simp)
  | fail => cases h

theorem server_present {e : ServerEvent} (h : serverNext s e = some t) (hp : Present t n) :
    Present s n := by
  obtain rfl | ⟨r, pid, bytes, rest, -, -, hget, rfl⟩ | ⟨m, pid, hf, rfl⟩ |
    ⟨m, status, -, hf, rfl⟩ | ⟨m, status, hf, rfl⟩ := server_cases h
  · rcases hp with hup | hdown | hserving
    · exact Or.inl hup
    · exact Or.inr (Or.inl hdown)
    · cases hserving
  · obtain ⟨x, xs, rfl, hup⟩ := receive_head hget
    rcases hp with ⟨y, hy, hn⟩ | hdown | hserving
    · exact Or.inl ⟨y, by rw [hup]; exact List.mem_append_right _ hy, hn⟩
    · exact Or.inr (Or.inl hdown)
    · refine Or.inl ⟨x, by rw [hup]; simp, ?_⟩
      exact Option.some.inj hserving
  · rcases hp with hup | ⟨x, hx, hn⟩ | hserving
    · exact Or.inl hup
    · rcases List.mem_append.mp hx with hx | hx
      · exact Or.inr (Or.inl ⟨x, hx, hn⟩)
      · rw [mem_tagged hx] at hn
        exact Or.inr (Or.inr (by rw [hf, serving, hn]))
    · exact Or.inr (Or.inr (by rw [hf]; exact hserving))
  · rcases hp with hup | hdown | hserving
    · exact Or.inl hup
    · exact Or.inr (Or.inl hdown)
    · exact Or.inr (Or.inr (by rw [hf]; exact hserving))
  · rcases hp with hup | ⟨x, hx, hn⟩ | hserving
    · exact Or.inl hup
    · rcases List.mem_append.mp hx with hx | hx
      · exact Or.inr (Or.inl ⟨x, hx, hn⟩)
      · rw [mem_tagged hx] at hn
        exact Or.inr (Or.inr (by rw [hf, serving, hn]))
    · cases hserving

theorem resting_not_serving (h : Resting s.forkcli) : serving s.forkcli = none := by
  rcases h with h | h <;> rw [h] <;> rfl

theorem server_resting {e : ServerEvent} (hup : s.up = []) (hf : Resting s.forkcli)
    (h : serverNext s e = some t) : t = s ∨ t = { s with forkcli := .exited } := by
  obtain rfl | ⟨r, pid, bytes, rest, -, -, hget, -⟩ | ⟨m, pid, hm, -⟩ | ⟨m, status, -, hm, -⟩ |
    ⟨m, status, hm, -⟩ := server_cases h
  · exact Or.inr rfl
  · obtain ⟨x, xs, rfl, happ⟩ := receive_head hget
    rw [hup] at happ
    cases happ
  · have hnone := resting_not_serving hf
    rw [hm] at hnone
    cases hnone
  · have hnone := resting_not_serving hf
    rw [hm] at hnone
    cases hnone
  · have hnone := resting_not_serving hf
    rw [hm] at hnone
    cases hnone

theorem server_before_status {e : ServerEvent} (hb : BeforeStatus n s)
    (h : serverNext s e = some t) : BeforeStatus n t := by
  obtain ⟨hup, ⟨hdown, hrun⟩ | ⟨hsent, hrest⟩⟩ := hb
  · obtain rfl | ⟨r, pid, bytes, rest, -, -, hget, -⟩ | ⟨m, pid, hm, -⟩ |
      ⟨m, status, hlow, hm, rfl⟩ | ⟨m, status, hm, rfl⟩ := server_cases h
    · exact ⟨hup, Or.inl ⟨hdown, Or.inr (Or.inr rfl)⟩⟩
    · obtain ⟨x, xs, rfl, happ⟩ := receive_head hget
      rw [hup] at happ
      cases happ
    · rw [hm] at hrun
      rcases hrun with hrun | ⟨status', hlow', hrun⟩ | hrun <;> cases hrun
    · rw [hm] at hrun
      rcases hrun with hrun | ⟨status', hlow', hrun⟩ | hrun <;> cases hrun
      exact ⟨hup, Or.inl ⟨hdown, Or.inr (Or.inl ⟨status, hlow, rfl⟩)⟩⟩
    · rw [hm] at hrun
      rcases hrun with hrun | ⟨status', hlow, hrun⟩ | hrun <;> cases hrun
      refine ⟨hup, Or.inr ⟨⟨status, hlow, ?_, List.mem_cons_self⟩, Or.inl rfl⟩⟩
      exact congrArg (fun l => l ++ tagged n (leBytes 4 status)) hdown
  · rcases server_resting hup hrest h with rfl | rfl
    · exact ⟨hup, Or.inr ⟨hsent, hrest⟩⟩
    · exact ⟨hup, Or.inr ⟨hsent, Or.inr rfl⟩⟩

theorem server_appends {e : ServerEvent} (h : serverNext s e = some t) :
    ∃ extra, t.down = s.down ++ extra ∧
      ∀ d, serverNext { s with down := d } e = some { t with down := d ++ extra } := by
  cases e with
  | serve r pid =>
    refine ⟨[], ?_⟩
    simp only [serverNext, List.append_nil] at h ⊢
    split at h
    · obtain rfl := Option.some.inj h
      exact ⟨rfl, fun _ => rfl⟩
    · obtain ⟨x, hx, rfl⟩ := Option.map_eq_some_iff.mp h
      exact ⟨rfl, fun _ => Option.map_eq_some_iff.mpr ⟨x, hx, rfl⟩⟩
    · cases h
  | writePid ok =>
    simp only [serverNext] at h ⊢
    split at h
    · split_ifs at h with hok
      · obtain rfl := Option.some.inj h
        exact ⟨_, rfl, fun _ => if_pos hok⟩
      · obtain rfl := Option.some.inj h
        exact ⟨[], (List.append_nil _).symm, fun d => by rw [if_neg hok, List.append_nil]⟩
    · cases h
  | waitpid status =>
    refine ⟨[], ?_⟩
    simp only [serverNext, List.append_nil] at h ⊢
    split at h
    · split_ifs at h with hlow
      obtain rfl := Option.some.inj h
      exact ⟨rfl, fun _ => if_pos hlow⟩
    · obtain rfl := Option.some.inj h
      exact ⟨rfl, fun _ => rfl⟩
    · cases h
  | writeStatus ok =>
    simp only [serverNext] at h ⊢
    split at h
    · split_ifs at h with hok
      · obtain rfl := Option.some.inj h
        exact ⟨_, rfl, fun _ => if_pos hok⟩
      · obtain rfl := Option.some.inj h
        exact ⟨[], (List.append_nil _).symm, fun d => by rw [if_neg hok, List.append_nil]⟩
    · cases h
  | die =>
    obtain rfl := Option.some.inj h
    exact ⟨[], (List.append_nil _).symm, fun d => by rw [List.append_nil]; rfl⟩

theorem receive_whole {pending bytes rest : List Tagged} {isOpen : Bool} {limit : ℕ}
    (h : receive pending isOpen limit (.data pending.length) = some (bytes, rest)) :
    bytes = pending ∧ rest = [] := by
  obtain ⟨-, -, happ, hlen⟩ := receive_data h
  have hzero : rest.length = 0 := by
    have := congrArg List.length happ
    rw [List.length_append] at this
    omega
  have hnil := List.length_eq_zero_iff.mp hzero
  rw [hnil, List.append_nil] at happ
  exact ⟨happ.symm, hnil⟩

theorem serve_whole {r : Received} {pid : ℕ} {bytes rest : List Tagged}
    (hw : Whole s (.server (.serve r pid))) (hup : s.up = tagged n FORKSRV_NEW_CHILD)
    (hget : receive s.up true 4 r = some (bytes, rest)) :
    rest = [] ∧ (bytes.headD (0, 0)).2 = n := by
  cases r with
  | data count =>
    obtain rfl : count = 4 := hw
    rw [hup] at hget
    obtain ⟨rfl, rfl⟩ := receive_whole hget
    exact ⟨rfl, rfl⟩
  | eof => exact absurd (receive_eof hget).2.2.2 (by simp)
  | fail => cases hget

theorem server_before_pid {e : ServerEvent} (hw : Whole s (.server e)) (hb : BeforePid n s)
    (h : serverNext s e = some t) : BeforePid n t := by
  obtain ⟨hup, hdown, hrest⟩ | ⟨hup, hdown, hf⟩ | ⟨pid, rest, hdown, hb⟩ := hb
  · have hnone := resting_not_serving hrest
    obtain rfl | ⟨r, pid, bytes, rest, rfl, -, hget, rfl⟩ | ⟨m, pid, hm, -⟩ |
      ⟨m, status, -, hm, -⟩ | ⟨m, status, hm, -⟩ := server_cases h
    · exact Or.inl ⟨hup, hdown, Or.inr rfl⟩
    · obtain ⟨hnil, hhead⟩ := serve_whole hw hup hget
      exact Or.inr (Or.inl ⟨hnil, hdown, Or.inl ⟨pid, by rw [hhead]⟩⟩)
    · rw [hm] at hnone
      cases hnone
    · rw [hm] at hnone
      cases hnone
    · rw [hm] at hnone
      cases hnone
  · obtain rfl | ⟨r, pid, bytes, rest, -, -, hget, -⟩ | ⟨m, pid, hm, rfl⟩ |
      ⟨m, status, -, hm, -⟩ | ⟨m, status, hm, -⟩ := server_cases h
    · exact Or.inr (Or.inl ⟨hup, hdown, Or.inr rfl⟩)
    · obtain ⟨x, xs, rfl, happ⟩ := receive_head hget
      rw [hup] at happ
      cases happ
    · rw [hm] at hf
      rcases hf with ⟨pid', hf⟩ | hf <;> cases hf
      refine Or.inr (Or.inr ⟨pid, [], ?_, hup, Or.inl ⟨rfl, Or.inl rfl⟩⟩)
      rw [hdown, List.append_nil]
      rfl
    · rw [hm] at hf
      rcases hf with ⟨pid', hf⟩ | hf <;> cases hf
    · rw [hm] at hf
      rcases hf with ⟨pid', hf⟩ | hf <;> cases hf
  · obtain ⟨extra, happ, hsame⟩ := server_appends h
    refine Or.inr (Or.inr ⟨pid, rest ++ extra, ?_, ?_⟩)
    · rw [happ, hdown, List.append_assoc]
    · exact server_before_status hb (hsame rest)

theorem server_inv {e : ServerEvent} (hi : Inv usesAsan s) (hw : Whole s (.server e))
    (h : serverNext s e = some t) : Inv usesAsan t := by
  obtain ⟨hclient, hreq, hret, hgrow⟩ := server_frame h
  have hstep := hi.step
  constructor
  case faithful =>
    constructor
    · intro m r hm hr
      rw [hret] at hm
      obtain ⟨status, hsent, heq⟩ := hi.faithful.reported m r hm hr
      exact ⟨status, hgrow hsent, heq⟩
    · intro m r hm hr hp
      rw [hret] at hm
      exact hi.faithful.settled m r hm hr (server_present h hp)
  case past =>
    rw [hret, hreq]
    exact hi.past
  case step =>
    rw [hclient]
    cases hc : s.client with
    | idle =>
      rw [hc] at hstep
      obtain ⟨hup, hdown, hrest⟩ := hstep
      rcases server_resting hup hrest h with rfl | rfl
      · exact ⟨hup, hdown, hrest⟩
      · exact ⟨hup, hdown, Or.inr rfl⟩
    | awaitPid m =>
      rw [hc] at hstep
      rw [InStep, hreq, hret]
      exact ⟨hstep.1, hstep.2.1, server_before_pid hw hstep.2.2 h⟩
    | awaitStatus m =>
      rw [hc] at hstep
      rw [InStep, hreq, hret]
      exact ⟨hstep.1, hstep.2.1, server_before_status hstep.2.2 h⟩
    | draining m =>
      rw [hc] at hstep
      rw [InStep, hreq, hret]
      exact ⟨hstep.1, hstep.2.1, server_before_status hstep.2.2 h⟩
    | broken => trivial

end Server

section Client

theorem nothing_present (hup : s.up = []) (hdown : s.down = []) (hf : Resting s.forkcli) :
    ¬ Present s n := by
  rintro (⟨x, hx, -⟩ | ⟨x, hx, -⟩ | hserving)
  · rw [hup] at hx
    cases hx
  · rw [hdown] at hx
    cases hx
  · rw [resting_not_serving hf] at hserving
    cases hserving

/-- An error leaves what is on the way, and nothing is promised of it. -/
theorem finish_error {rest : List Tagged} (hi : Inv usesAsan s) (hn : n < s.requests)
    (hrest : rest ⊆ s.down) : Inv usesAsan (finish { s with down := rest } n .error) := by
  have hold : ∀ m r, (m, r) ∈ (n, StatusType.error)::s.returns → r ≠ .error →
      (m, r) ∈ s.returns := by
    intro m r hm hr
    rcases List.mem_cons.mp hm with heq | hm
    · exact absurd (Prod.mk.inj heq).2 hr
    · exact hm
  refine ⟨⟨?_, ?_⟩, ?_, trivial⟩
  · intro m r hm hr
    refine hi.faithful.reported m r (hold m r hm ?_) hr
    rintro rfl
    rcases hr with hr | hr <;> cases hr
  · intro m r hm hr hp
    refine hi.faithful.settled m r (hold m r hm hr) hr ?_
    rcases hp with hup | ⟨x, hx, hxm⟩ | hserving
    · exact Or.inl hup
    · exact Or.inr (Or.inl ⟨x, hrest hx, hxm⟩)
    · exact Or.inr (Or.inr hserving)
  · intro m r hm
    rcases List.mem_cons.mp hm with heq | hm
    · rw [(Prod.mk.inj heq).1]
      exact hn
    · exact hi.past m r hm

theorem finish_clean {r : StatusType} (hi : Inv usesAsan s) (hn : n < s.requests)
    (hup : s.up = []) (hf : Resting s.forkcli) (hr : r ≠ .error)
    (hreported : r = .normal ∨ r = .crash →
      ∃ status, (n, status) ∈ s.statuses ∧ r = classify usesAsan status) :
    Inv usesAsan (finish { s with down := [] } n r) := by
  refine ⟨⟨?_, ?_⟩, ?_, ?_⟩
  · intro m r' hm hr'
    rcases List.mem_cons.mp hm with heq | hm
    · obtain ⟨rfl, rfl⟩ := Prod.mk.inj heq
      exact hreported hr'
    · exact hi.faithful.reported m r' hm hr'
  · intro m r' _ _
    exact nothing_present hup rfl hf
  · intro m r' hm
    rcases List.mem_cons.mp hm with heq | hm
    · rw [(Prod.mk.inj heq).1]
      exact hn
    · exact hi.past m r' hm
  · rw [finish, if_neg hr]
    exact ⟨hup, rfl, hf⟩

theorem begin_inv (hi : Inv usesAsan s)
    (hc : s.client = .idle ∨ s.client = .broken ∧ s.forkcli = .exited) :
    Inv usesAsan (begin s) := by
  have hlater : Inv usesAsan { s with requests := s.requests+1, client := .broken } :=
    ⟨⟨hi.faithful.reported, hi.faithful.settled⟩,
      fun m r hm => Nat.lt_succ_of_lt (hi.past m r hm), trivial⟩
  by_cases hexit : s.forkcli = .exited
  · rw [begin, if_pos hexit]
    exact finish_error hlater (Nat.lt_succ_self _) (List.Subset.refl s.down)
  · have hidle : s.client = .idle := hc.resolve_right fun h => hexit h.2
    have hstep := hi.step
    rw [hidle] at hstep
    obtain ⟨hup, hdown, hrest⟩ := hstep
    rw [begin, if_neg hexit]
    refine ⟨⟨hi.faithful.reported, ?_⟩, hlater.past, Nat.lt_succ_self _, ?_, Or.inl ⟨?_, hdown, hrest⟩⟩
    · intro m r hm hr hp
      have hlt := hi.past m r hm
      rcases hp with ⟨x, hx, hxm⟩ | hdown' | hserving
      · rw [hup] at hx
        rw [mem_tagged hx] at hxm
        omega
      · exact hi.faithful.settled m r hm hr (Or.inr (Or.inl hdown'))
      · exact hi.faithful.settled m r hm hr (Or.inr (Or.inr hserving))
    · intro r hr
      exact absurd (hi.past _ r hr) (Nat.lt_irrefl _)
    · rw [hup]
      rfl

theorem read_i32_tagged {status : ℕ} (h : status < 2^32) :
    readI32 ((tagged n (leBytes 4 status)).map Prod.fst) = status := by
  have hbytes : (tagged n (leBytes 4 status)).map Prod.fst = leBytes 4 status := by
    rw [tagged, List.map_map]
    exact List.map_id _
  rw [hbytes, readI32, fill_buf_full (le_bytes_length 4 status), le_value_bytes]
  exact Nat.mod_eq_of_lt (by omega)

theorem tagged_length (bytes : List UInt8) : (tagged n bytes).length = bytes.length :=
  List.length_map _

theorem read_pid_inv {r : Received} (hi : Inv usesAsan s)
    (hw : Whole s (.client (.readPid r))) (h : clientNext usesAsan s (.readPid r) = some t) :
    Inv usesAsan t := by
  have hstep := hi.step
  cases hc : s.client with
  | awaitPid m =>
    rw [hc] at hstep
    obtain ⟨hm, hnew, hb⟩ := hstep
    simp only [clientNext, hc] at h
    cases r with
    | fail =>
      obtain rfl := Option.some.inj h
      exact finish_error hi hm (List.Subset.refl s.down)
    | data count =>
      obtain ⟨⟨bytes, rest⟩, hget, rfl⟩ := Option.map_eq_some_iff.mp h
      obtain rfl : count = 4 := hw
      obtain ⟨-, -, happ, hlen⟩ := receive_data hget
      have hpos : s.down ≠ [] := by
        intro hnil
        rw [hnil] at happ
        have := congrArg List.length happ
        rw [List.length_append, List.length_nil] at this
        omega
      obtain ⟨-, hdown, -⟩ | ⟨-, hdown, -⟩ | ⟨pid, rest', hdown, hb⟩ := hb
      · exact absurd hdown hpos
      · exact absurd hdown hpos
      · obtain ⟨-, rfl⟩ : bytes = tagged m (leBytes 4 pid) ∧ rest = rest' := by
          rw [happ] at hdown
          exact List.append_inj hdown (by rw [hlen, tagged_length, le_bytes_length])
        have hsub : rest ⊆ s.down := by
          rw [happ]
          exact List.subset_append_right _ _
        simp only
        split_ifs
        · exact finish_error hi hm hsub
        · refine ⟨⟨hi.faithful.reported, ?_⟩, hi.past, hm, hnew, hb⟩
          intro m' r' hm' hr' hp
          refine hi.faithful.settled m' r' hm' hr' ?_
          rcases hp with hup | ⟨x, hx, hxm⟩ | hserving
          · exact Or.inl hup
          · exact Or.inr (Or.inl ⟨x, hsub hx, hxm⟩)
          · exact Or.inr (Or.inr hserving)
    | eof =>
      obtain ⟨⟨bytes, rest⟩, hget, rfl⟩ := Option.map_eq_some_iff.mp h
      obtain ⟨-, rfl, rfl, -⟩ := receive_eof hget
      have hzero : notPositive (readI32 (([] : List Tagged).map Prod.fst)) = true := by decide
      simp only
      rw [if_pos hzero]
      exact finish_error hi hm (List.nil_subset _)
  | _ => simp [clientNext, hc] at h

theorem status_read {count limit : ℕ} {bytes rest : List Tagged} (hb : BeforeStatus n s)
    (hget : receive s.down (peerOpen s) limit (.data count) = some (bytes, rest))
    (hall : count = 4 ∨ count = s.down.length) :
    rest = [] ∧ s.up = [] ∧ Resting s.forkcli ∧
      ∃ status, readI32 (bytes.map Prod.fst) = status ∧ (n, status) ∈ s.statuses := by
  obtain ⟨hup, ⟨hdown, -⟩ | ⟨⟨status, hlow, hdown, hsent⟩, hrest⟩⟩ := hb
  · obtain ⟨hpos, -, happ, hlen⟩ := receive_data hget
    rw [hdown] at happ
    have := congrArg List.length happ
    rw [List.length_append, List.length_nil] at this
    omega
  · have hfour : s.down.length = 4 := by rw [hdown, tagged_length, le_bytes_length]
    obtain rfl : count = s.down.length := by omega
    obtain ⟨rfl, rfl⟩ := receive_whole hget
    refine ⟨rfl, hup, hrest, status, ?_, hsent⟩
    rw [hdown]
    exact read_i32_tagged hlow

theorem read_status_inv {r : Received} (hi : Inv usesAsan s)
    (hw : Whole s (.client (.readStatus r))) (h : clientNext usesAsan s (.readStatus r) = some t) :
    Inv usesAsan t := by
  have hstep := hi.step
  cases hc : s.client with
  | awaitStatus m =>
    rw [hc] at hstep
    simp only [clientNext, hc] at h
    cases r with
    | fail =>
      obtain rfl := Option.some.inj h
      exact ⟨⟨hi.faithful.reported, hi.faithful.settled⟩, hi.past, hstep⟩
    | data count =>
      obtain ⟨⟨bytes, rest⟩, hget, rfl⟩ := Option.map_eq_some_iff.mp h
      obtain ⟨rfl, hup, hrest, status, hstatus, hsent⟩ := status_read hstep.2.2 hget (Or.inl hw)
      refine finish_clean hi hstep.1 hup hrest ?_ fun _ => ⟨status, hsent, by rw [hstatus]⟩
      unfold classify
      split_ifs <;> simp
    | eof => exact hw.elim
  | _ => simp [clientNext, hc] at h

theorem drain_inv {r : Received} (hi : Inv usesAsan s) (hw : Whole s (.client (.drain r)))
    (h : clientNext usesAsan s (.drain r) = some t) : Inv usesAsan t := by
  have hstep := hi.step
  have hother : ¬ (StatusType.timeout = .normal ∨ StatusType.timeout = .crash) := by decide
  cases hc : s.client with
  | draining m =>
    rw [hc] at hstep
    obtain ⟨hm, -, hb⟩ := hstep
    simp only [clientNext, hc] at h
    cases r with
    | fail =>
      obtain rfl := Option.some.inj h
      exact hi
    | data count =>
      obtain ⟨⟨bytes, rest⟩, hget, rfl⟩ := Option.map_eq_some_iff.mp h
      obtain ⟨rfl, hup, hrest, -⟩ := status_read hb hget (Or.inr hw)
      exact finish_clean hi hm hup hrest (by decide) fun hr => absurd hr hother
    | eof =>
      obtain ⟨⟨bytes, rest⟩, hget, rfl⟩ := Option.map_eq_some_iff.mp h
      obtain ⟨-, -, rfl, hclosed⟩ := receive_eof hget
      have hexit : s.forkcli = .exited := by simpa [peerOpen] using hclosed
      exact finish_clean hi hm hb.1 (Or.inr hexit) (by decide) fun hr => absurd hr hother
  | _ => simp [clientNext, hc] at h

theorem client_inv {e : ClientEvent} (hi : Inv usesAsan s) (hw : Whole s (.client e))
    (h : clientNext usesAsan s e = some t) : Inv usesAsan t := by
  cases e with
  | begin =>
    simp only [clientNext] at h
    split at h
    · rename_i hc
      obtain rfl := Option.some.inj h
      exact begin_inv hi (Or.inl hc)
    · rename_i hc
      obtain rfl := Option.some.inj h
      exact begin_inv hi (Or.inr ⟨hc, hw hc⟩)
    · cases h
  | readPid r => exact read_pid_inv hi hw h
  | readStatus r => exact read_status_inv hi hw h
  | drain r => exact drain_inv hi hw h

end Client

theorem new_link_inv : Inv usesAsan newLink := by
  refine ⟨⟨?_, ?_⟩, ?_, rfl, rfl, Or.inl rfl⟩
  · intro m r hm
    cases hm
  · intro m r hm
    cases hm
  · intro m r hm
    cases hm

/-- In every run whose reads are whole the results are those of the statuses
sent, and no reply is left for a later request. -/
theorem whole_run_faithful (h : Reachable (next usesAsan) Whole newLink s) :
    Faithful usesAsan s := by
  have hinv : Inv usesAsan s := by
    refine reachable_invariant new_link_inv ?_ h
    intro u e v hu hw hn
    cases e with
    | server e => exact server_inv hu hw hn
    | client e => exact client_inv hu hw hn
  exact hinv.faithful

def untilPid : List Event :=
  [.client .begin, .server (.serve (.data 4) 1000), .server (.writePid true),
    .client (.readPid (.data 4))]

/-- A child that dies of signal 11, then one that is killed after a timeout. -/
def crashAndTimeout : List Event :=
  untilPid ++ [.server (.waitpid (some 11)), .server (.writeStatus true),
    .client (.readStatus (.data 4))] ++
  untilPid ++ [.client (.readStatus .fail), .client (.drain .fail), .server (.waitpid (some 9)),
    .server (.writeStatus true), .client (.drain (.data 4))]

theorem whole_run_faithful_crash : ∃ s, Reachable (next false) Whole newLink s ∧
    s.returns = [(1, .timeout), (0, .crash)] ∧ Faithful false s := by
  have hrun : replay (next false) Whole newLink crashAndTimeout =
      some ⟨[], [], .reading, .idle, 2, [(1, 9), (0, 11)], [(1, .timeout), (0, .crash)]⟩ := by
    decide +kernel
  have hreach := replay_reachable _ _ _ hrun
  exact ⟨_, hreach, rfl, whole_run_faithful hreach⟩

def diesEarly : List Event := untilPid ++ [.server .die, .client (.readStatus .eof)]

/-- The run is reported as normal though no status was sent. -/
theorem lost_status_is_normal : ∃ s, Reachable (next false) (fun _ _ => True) newLink s ∧
    s.returns = [(0, .normal)] ∧ s.statuses = [] ∧ ¬ Faithful false s := by
  have hrun : replay (next false) (fun _ _ => True) newLink diesEarly =
      some ⟨[], [], .exited, .idle, 1, [], [(0, .normal)]⟩ := by decide +kernel
  refine ⟨_, replay_reachable _ _ _ hrun, rfl, rfl, ?_⟩
  intro hf
  obtain ⟨status, hsent, -⟩ := hf.reported 0 .normal List.mem_cons_self (Or.inl rfl)
  cases hsent

end Parmesan.ForkReply
