import Mathlib.Data.Finset.Image
import Mathlib.Logic.Function.Basic
import NetProg.Lib.CString

/-!
# The odd-even server

The loop of `tcp_server_select_oddeven.c`, one step for `select` and `accept` and one for each round of the loop over the
clients.  `accept` returns a positive descriptor that is not open, `select` and all other calls succeed, and the
descriptors fit an `fd_set`.
-/

namespace NetProg.OddEven

open NetProg.Lib

def max_clients : ℕ := 30

/-- What the server tells the system. -/
inductive Call where
  | accept (fd : ℕ)
  | read (fd : ℕ) (chunk : List Byte)
  | close (fd : ℕ)
  | send (fd : ℕ) (b : List Byte)
  deriving DecidableEq

/-- The descriptors that have been accepted and not been closed. -/
def opened (calls : List Call) : Finset ℕ := calls.foldl (fun fds c =>
  match c with
  | .accept fd => insert fd fds
  | .close fd => fds.erase fd
  | _ => fds) ∅

/-- At the head of the outer loop, or at round `i` of the loop over the clients. -/
inductive Position where
  | selecting
  | scanning (i : ℕ) (readfds : Finset ℕ)

structure State where
  client_socket : ℕ → ℕ
  position : Position
  /-- all calls so far -/
  calls : List Call

/-- The listening socket, which is not 0. -/
structure Master where
  master_socket : ℕ
  pos : 0 < master_socket

def initial : State where
  client_socket _ := 0
  position := .selecting
  calls := []

/-- What is put into `readfds`. -/
def watched (m : Master) (client_socket : ℕ → ℕ) : Finset ℕ :=
  insert m.master_socket (((Finset.range max_clients).image client_socket).filter (0 < ·))

/-- The loop that records a new client; the first argument bounds the rounds. -/
def record (new_socket : ℕ) : ℕ → ℕ → (ℕ → ℕ) → ℕ → ℕ
  | 0, _, client_socket => client_socket
  | fuel + 1, i, client_socket =>
    if client_socket i = 0 then Function.update client_socket i new_socket
    else record new_socket fuel (i + 1) client_socket

/-- `send(.., buffer, strlen(buffer), 0)` behind `buffer[valread] = '\\0'`. -/
def upToNul (chunk : List Byte) : List Byte := (CStr.ofBytes chunk).bytes

/-- The loop that passes a chunk from `sd` on. -/
def broadcast (client_socket : ℕ → ℕ) (sd : ℕ) (chunk : List Byte) : List Call :=
  (List.range max_clients).filterMap fun k =>
    if client_socket k ≠ 0 ∧ (client_socket k + sd) % 2 = 1 then some (.send (client_socket k) (upToNul chunk)) else none

/-- Behind round `i`. -/
def next (i : ℕ) (readfds : Finset ℕ) : Position :=
  if i + 1 < max_clients then .scanning (i + 1) readfds else .selecting

/-- `select` leaves the descriptors that are ready, and `accept` returns `new_socket` if the listening one is; then a
client that is not ready is passed over, and `read` returns a chunk from one that is. -/
inductive Act where
  | select (readfds : Finset ℕ) (new_socket : ℕ)
  | skip
  | read (chunk : List Byte)
  deriving DecidableEq

def step (m : Master) (s : State) : Act → Option State
  | .select readfds new_socket =>
    match s.position with
    | .selecting =>
      if readfds ⊆ watched m s.client_socket then
        if m.master_socket ∈ readfds then
          if 0 < new_socket ∧ new_socket ≠ m.master_socket ∧ new_socket ∉ opened s.calls then some {
            client_socket := record new_socket max_clients 0 s.client_socket
            position := .scanning 0 readfds
            calls := s.calls ++ [.accept new_socket] }
          else none
        else some { s with position := .scanning 0 readfds }
      else none
    | .scanning _ _ => none
  | .skip =>
    match s.position with
    | .scanning i readfds => if s.client_socket i ∈ readfds then none else some { s with position := next i readfds }
    | .selecting => none
  | .read chunk =>
    match s.position with
    | .scanning i readfds =>
      if s.client_socket i ∈ readfds ∧ chunk.length ≤ 1024 then
        if chunk = [] then some {
          client_socket := Function.update s.client_socket i 0
          position := next i readfds
          calls := s.calls ++ [.read (s.client_socket i) [], .close (s.client_socket i)] }
        else some { s with
          position := next i readfds
          calls := s.calls ++ .read (s.client_socket i) chunk :: broadcast s.client_socket (s.client_socket i) chunk }
      else none
    | .selecting => none

/-! ### What a step can do -/

variable {m : Master} {s s' : State} {readfds : Finset ℕ} {new_socket : ℕ} {chunk : List Byte}

theorem step_select (h : step m s (.select readfds new_socket) = some s') : s.position = .selecting ∧
    readfds ⊆ watched m s.client_socket ∧
    ((m.master_socket ∈ readfds ∧ 0 < new_socket ∧ new_socket ≠ m.master_socket ∧ new_socket ∉ opened s.calls ∧ s' = {
        client_socket := record new_socket max_clients 0 s.client_socket
        position := .scanning 0 readfds
        calls := s.calls ++ [.accept new_socket] }) ∨
      (m.master_socket ∉ readfds ∧ s' = { s with position := .scanning 0 readfds })) := by
  simp only [step] at h
  split at h
  · next hp =>
    split at h
    · next hr =>
      refine ⟨hp, hr, ?_⟩
      split at h
      · next hm =>
        split at h
        · next hn => exact .inl ⟨hm, hn.1, hn.2.1, hn.2.2, (Option.some.inj h).symm⟩
        · cases h
      · next hm => exact .inr ⟨hm, (Option.some.inj h).symm⟩
    · cases h
  · cases h

theorem step_skip (h : step m s .skip = some s') : ∃ i readfds, s.position = .scanning i readfds ∧
    s.client_socket i ∉ readfds ∧ s' = { s with position := next i readfds } := by
  simp only [step] at h
  split at h
  · next i readfds hp =>
    split at h
    · cases h
    · next hr => exact ⟨i, readfds, hp, hr, (Option.some.inj h).symm⟩
  · cases h

theorem step_read (h : step m s (.read chunk) = some s') : ∃ i readfds, s.position = .scanning i readfds ∧
    s.client_socket i ∈ readfds ∧
    ((chunk = [] ∧ s' = {
        client_socket := Function.update s.client_socket i 0
        position := next i readfds
        calls := s.calls ++ [.read (s.client_socket i) [], .close (s.client_socket i)] }) ∨
      (chunk ≠ [] ∧ s' = { s with
        position := next i readfds
        calls := s.calls ++ .read (s.client_socket i) chunk :: broadcast s.client_socket (s.client_socket i) chunk })) := by
  simp only [step] at h
  split at h
  · next i readfds hp =>
    split at h
    · next hr =>
      refine ⟨i, readfds, hp, hr.1, ?_⟩
      split at h
      · next hc => exact .inl ⟨hc, (Option.some.inj h).symm⟩
      · next hc => exact .inr ⟨hc, (Option.some.inj h).symm⟩
    · cases h
  · cases h

/-- The first free entry is taken, if there is one. -/
theorem record_cases (new_socket : ℕ) (client_socket : ℕ → ℕ) (fuel i : ℕ) :
    (∃ j, i ≤ j ∧ j < i + fuel ∧ client_socket j = 0 ∧
      record new_socket fuel i client_socket = Function.update client_socket j new_socket) ∨
    ((∀ j, i ≤ j → j < i + fuel → client_socket j ≠ 0) ∧ record new_socket fuel i client_socket = client_socket) := by
  induction fuel generalizing i with
  | zero => exact .inr ⟨fun j hi hj => by omega, rfl⟩
  | succ fuel ih =>
    unfold record
    split
    · next h => exact .inl ⟨i, le_rfl, by omega, h, rfl⟩
    · next h =>
      rcases ih (i + 1) with ⟨j, hi, hj, h0, hr⟩ | ⟨hall, hr⟩
      · exact .inl ⟨j, by omega, by omega, h0, hr⟩
      · refine .inr ⟨fun j hi hj => ?_, hr⟩
        rcases Nat.eq_or_lt_of_le hi with rfl | hlt
        · exact h
        · exact hall j hlt (by omega)

end NetProg.OddEven
