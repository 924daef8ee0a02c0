import Mathlib.Data.List.Induction
import Mathlib.Data.List.Nodup
import NetProg.Lib.Run
import NetProg.OddEven.Server

/-!
# Who gets a chunk

* `inv_run`: the clients that are recorded are different and open, in every run;
* `parity_broadcast`: so that each chunk is sent once to each client of the other parity, and to nobody else.
-/

namespace NetProg.OddEven

open NetProg.Lib

variable {m : Master} {s s' : State} {a : Act} {as : List Act} {client_socket : ℕ → ℕ} {fd sd : ℕ} {chunk b : List Byte}
  {calls : List Call}

/-! ### What is open -/

@[simp] theorem opened_accept : opened (calls ++ [.accept fd]) = insert fd (opened calls) := by simp [opened]

@[simp] theorem opened_close : opened (calls ++ [.read fd [], .close fd]) = (opened calls).erase fd := by simp [opened]

/-- The client `fd` is in the table. -/
def Recorded (client_socket : ℕ → ℕ) (fd : ℕ) : Prop := fd ≠ 0 ∧ ∃ k < max_clients, client_socket k = fd

instance : DecidablePred (Recorded client_socket) := fun fd =>
  inferInstanceAs (Decidable (fd ≠ 0 ∧ ∃ k < max_clients, client_socket k = fd))

/-- What is sent of a chunk are the bytes before its first NUL. -/
theorem upToNul_eq : upToNul chunk = chunk.takeWhile (· ≠ 0) := rfl

/-- The calls of a broadcast. -/
theorem mem_broadcast {c : Call} : c ∈ broadcast client_socket sd chunk ↔
    ∃ fd, Recorded client_socket fd ∧ (fd + sd) % 2 = 1 ∧ c = .send fd (chunk.takeWhile (· ≠ 0)) := by
  rw [← upToNul_eq]
  simp only [broadcast, List.mem_filterMap, List.mem_range, Option.ite_none_right_eq_some, Option.some.injEq]
  constructor
  · rintro ⟨k, hk, ⟨h0, hp⟩, rfl⟩
    exact ⟨client_socket k, ⟨h0, k, hk, rfl⟩, hp, rfl⟩
  · rintro ⟨fd, ⟨h0, k, hk, rfl⟩, hp, rfl⟩
    exact ⟨k, hk, ⟨h0, hp⟩, rfl⟩

/-- What is read and sent opens and closes nothing. -/
@[simp] theorem opened_broadcast :
    opened (calls ++ .read fd chunk :: broadcast client_socket sd b) = opened calls := by
  have hsends (l : List Call) (hl : ∀ c ∈ l, ∃ fd b, c = .send fd b) : opened (calls ++ l) = opened calls := by
    induction l using List.reverseRecOn with
    | nil => rw [List.append_nil]
    | append_singleton l c ih =>
      obtain ⟨fd, b, rfl⟩ := hl c (by simp)
      rw [← List.append_assoc, ← ih fun c hc => hl c (List.mem_append_left _ hc)]
      simp [opened]
  rw [← hsends (broadcast client_socket sd b) fun c hc => ?_]
  · simp [opened]
  · obtain ⟨fd, -, -, rfl⟩ := mem_broadcast.1 hc
    exact ⟨fd, _, rfl⟩

/-! ### The table of clients -/

/-- The clients that are recorded are different and open; the loop over them stays inside the table, and 0 is not ready. -/
structure Inv (s : State) : Prop where
  free : ∀ i, max_clients ≤ i → s.client_socket i = 0
  distinct : ∀ i j, s.client_socket i ≠ 0 → s.client_socket i = s.client_socket j → i = j
  opened : ∀ i, s.client_socket i ≠ 0 → s.client_socket i ∈ opened s.calls
  ready : ∀ i readfds, s.position = .scanning i readfds → i < max_clients ∧ 0 ∉ readfds

theorem inv_initial : Inv initial where
  free _ _ := rfl
  distinct _ _ h := absurd rfl h
  opened _ h := absurd rfl h
  ready _ _ h := by cases h

theorem ready_next {i : ℕ} {readfds : Finset ℕ} (h : 0 ∉ readfds) :
    ∀ j fds, next i readfds = .scanning j fds → j < max_clients ∧ 0 ∉ fds := by
  intro j fds hj
  unfold next at hj
  split at hj
  · next hi =>
    cases hj
    exact ⟨hi, h⟩
  · cases hj

theorem zero_notMem_watched : 0 ∉ watched m client_socket := by
  have hpos := m.pos
  simp only [watched, Finset.mem_insert, Finset.mem_filter, not_or, not_and]
  exact ⟨by omega, fun _ => lt_irrefl 0⟩

/-- A new client is open, and so different from the recorded ones. -/
theorem Inv.accept (h : Inv s) {new_socket : ℕ} (hpos : 0 < new_socket) (hnew : new_socket ∉ OddEven.opened s.calls)
    {position : Position} (hready : ∀ i readfds, position = .scanning i readfds → i < max_clients ∧ 0 ∉ readfds) :
    Inv {
      client_socket := record new_socket max_clients 0 s.client_socket
      position := position
      calls := s.calls ++ [.accept new_socket] } := by
  rcases record_cases new_socket s.client_socket max_clients 0 with
    ⟨j, -, hj, -, hr⟩ | ⟨-, hr⟩
  · have hne (i : ℕ) : s.client_socket i ≠ new_socket := fun he =>
      hnew (he ▸ h.opened i (by omega))
    rw [hr]
    refine ⟨fun i hi => ?_, fun i k hi hik => ?_, fun i hi => ?_, hready⟩
    · have hij : i ≠ j := by omega
      exact (Function.update_of_ne hij _ _).trans (h.free i hi)
    · by_cases hij : i = j <;> by_cases hkj : k = j
      · rw [hij, hkj]
      · simp [hij, hkj, (hne k).symm] at hik
      · simp [hij, hkj, hne i] at hik
      · simp only [Function.update_of_ne hij, Function.update_of_ne hkj] at hi hik
        exact h.distinct i k hi hik
    · by_cases hij : i = j
      · simp [hij]
      · simp only [Function.update_of_ne hij] at hi ⊢
        rw [opened_accept]
        exact Finset.mem_insert_of_mem (h.opened i hi)
  · rw [hr]
    refine ⟨h.free, h.distinct, fun i hi => ?_, hready⟩
    rw [opened_accept]
    exact Finset.mem_insert_of_mem (h.opened i hi)

/-- A client that is gone is neither recorded nor open. -/
theorem Inv.close (h : Inv s) {i : ℕ} {position : Position}
    (hready : ∀ i readfds, position = .scanning i readfds → i < max_clients ∧ 0 ∉ readfds) : Inv {
      client_socket := Function.update s.client_socket i 0
      position := position
      calls := s.calls ++ [.read (s.client_socket i) [], .close (s.client_socket i)] } := by
  refine ⟨fun j hj => ?_, fun j k hj hjk => ?_, fun j hj => ?_, hready⟩
  · by_cases hji : j = i
    · simp [hji]
    · exact (Function.update_of_ne hji _ _).trans (h.free j hj)
  · have hji : j ≠ i := fun he => hj (by simp [he])
    by_cases hki : k = i
    · simp only [hki, Function.update_self] at hjk
      exact absurd hjk hj
    · simp only [Function.update_of_ne hji, Function.update_of_ne hki] at hj hjk
      exact h.distinct j k hj hjk
  · have hji : j ≠ i := fun he => hj (by simp [he])
    simp only [Function.update_of_ne hji] at hj ⊢
    rw [opened_close]
    exact Finset.mem_erase.2 ⟨fun he => hji (h.distinct j i hj he), h.opened j hj⟩

theorem Inv.step (h : Inv s) (hst : step m s a = some s') : Inv s' := by
  cases a with
  | select readfds new_socket =>
    obtain ⟨-, hsub, hcase⟩ := step_select hst
    have hready : ∀ i fds, Position.scanning 0 readfds = .scanning i fds → i < max_clients ∧ 0 ∉ fds := by
      rintro i fds hp
      cases hp
      exact ⟨by decide, fun h0 => zero_notMem_watched (hsub h0)⟩
    rcases hcase with ⟨-, hpos, -, hnew, rfl⟩ | ⟨-, rfl⟩
    · exact h.accept hpos hnew hready
    · exact ⟨h.free, h.distinct, h.opened, hready⟩
  | skip =>
    obtain ⟨i, readfds, hp, -, rfl⟩ := step_skip hst
    exact ⟨h.free, h.distinct, h.opened, ready_next (h.ready i readfds hp).2⟩
  | read chunk =>
    obtain ⟨i, readfds, hp, -, hcase⟩ := step_read hst
    have h0 := (h.ready i readfds hp).2
    rcases hcase with ⟨-, rfl⟩ | ⟨-, rfl⟩
    · exact h.close (ready_next h0)
    · refine ⟨h.free, h.distinct, fun j hj => ?_, ready_next h0⟩
      rw [opened_broadcast]
      exact h.opened j hj

theorem inv_run {P : State → Act → Prop} (h : Run (step m) P initial as s) : Inv s :=
  h.inv Inv inv_initial fun _ _ _ hi _ hst => hi.step hst

/-! ### Who gets a chunk -/

/-- Different clients get different calls. -/
theorem Inv.nodup_broadcast (h : Inv s) : (broadcast s.client_socket sd chunk).Nodup := by
  refine List.Nodup.filterMap (fun k l c hk hl => ?_) List.nodup_range
  obtain ⟨⟨h0, -⟩, hk⟩ := Option.ite_none_right_eq_some.1 (Option.mem_def.1 hk)
  obtain ⟨-, hl⟩ := Option.ite_none_right_eq_some.1 (Option.mem_def.1 hl)
  have hkl := (Option.some.inj hk).trans (Option.some.inj hl).symm
  exact h.distinct k l h0 (Call.send.inj hkl).1

/-- One call for each client of the other parity. -/
theorem Inv.count_broadcast (h : Inv s) (fd : ℕ) (b : List Byte) :
    (broadcast s.client_socket sd chunk).count (.send fd b) =
      if Recorded s.client_socket fd ∧ (fd + sd) % 2 = 1 ∧ b = chunk.takeWhile (· ≠ 0) then 1 else 0 := by
  split
  · next hc =>
    obtain ⟨hr, hp, rfl⟩ := hc
    exact List.count_eq_one_of_mem h.nodup_broadcast (mem_broadcast.2 ⟨fd, hr, hp, rfl⟩)
  · next hc =>
    refine List.count_eq_zero.2 fun hmem => hc ?_
    obtain ⟨fd', hr, hp, he⟩ := mem_broadcast.1 hmem
    obtain ⟨rfl, rfl⟩ := Call.send.inj he
    exact ⟨hr, hp, rfl⟩

/-- **The parity broadcast is exact**, in every run.  The clients in the table are different and open; a new one is recorded
unless the table is full.  A chunk is read from a recorded client, and sent once, up to its first NUL, to each client that is
recorded then and of the other parity; nothing else is sent, in any step. -/
theorem parity_broadcast (h : Run (step m) (fun _ _ => True) initial as s) :
    (∀ i j, s.client_socket i ≠ 0 → s.client_socket i = s.client_socket j → i = j) ∧
    (∀ fd, Recorded s.client_socket fd → fd ∈ opened s.calls) ∧
    (∀ readfds new_socket s', step m s (.select readfds new_socket) = some s' →
      (m.master_socket ∈ readfds → s'.calls = s.calls ++ [.accept new_socket] ∧
        (Recorded s'.client_socket new_socket ∨ ∀ i < max_clients, s.client_socket i ≠ 0)) ∧
      (m.master_socket ∉ readfds → s'.calls = s.calls)) ∧
    (∀ s', step m s .skip = some s' → s'.calls = s.calls) ∧
    ∀ chunk s', step m s (.read chunk) = some s' → ∃ sd, Recorded s.client_socket sd ∧
      (chunk = [] → s'.calls = s.calls ++ [.read sd [], .close sd]) ∧
      (chunk ≠ [] → ∃ sends, s'.calls = s.calls ++ .read sd chunk :: sends ∧ (∀ c ∈ sends, ∃ fd b, c = .send fd b) ∧
        ∀ fd b, sends.count (.send fd b) =
          if Recorded s.client_socket fd ∧ (fd + sd) % 2 = 1 ∧ b = chunk.takeWhile (· ≠ 0) then 1 else 0) := by
  have hinv := inv_run h
  refine ⟨hinv.distinct, ?_, fun readfds new_socket s' hst => ?_, fun s' hst => ?_, fun chunk s' hst => ?_⟩
  · rintro fd ⟨h0, k, -, rfl⟩
    exact hinv.opened k h0
  · obtain ⟨-, -, ⟨hm, hpos, -, -, rfl⟩ | ⟨hm, rfl⟩⟩ := step_select hst
    · refine ⟨fun _ => ⟨rfl, ?_⟩, fun hn => absurd hm hn⟩
      rcases record_cases new_socket s.client_socket max_clients 0 with
        ⟨j, -, hj, -, hr⟩ | ⟨hall, -⟩
      · refine .inl ⟨by omega, j, by omega, ?_⟩
        dsimp only
        rw [hr, Function.update_self]
      · exact .inr fun i hi => hall i (Nat.zero_le i) (by omega)
    · exact ⟨fun hmem => absurd hmem hm, fun _ => rfl⟩
  · obtain ⟨i, readfds, -, -, rfl⟩ := step_skip hst
    rfl
  · obtain ⟨i, readfds, hp, hi, hcase⟩ := step_read hst
    obtain ⟨hlt, h0⟩ := hinv.ready i readfds hp
    refine ⟨s.client_socket i, ⟨fun he => h0 (he ▸ hi), i, hlt, rfl⟩, ?_⟩
    rcases hcase with ⟨rfl, rfl⟩ | ⟨hne, rfl⟩
    · exact ⟨fun _ => rfl, fun hne => absurd rfl hne⟩
    · refine ⟨fun he => absurd he hne, fun _ => ⟨_, rfl, fun c hc => ?_, hinv.count_broadcast⟩⟩
      obtain ⟨fd, -, -, rfl⟩ := mem_broadcast.1 hc
      exact ⟨fd, _, rfl⟩

/-- Two clients, and a chunk with a NUL. -/
theorem parity_broadcast_two : ∃ s ∈ runAll (step ⟨3, by decide⟩) (fun _ _ => true) initial
    (.select {3} 4 :: List.replicate 30 .skip ++ [.select {3, 4} 5]), ∃ s' sends,
    step ⟨3, by decide⟩ s (.read [104, 0, 105]) = some s' ∧ s'.calls = s.calls ++ .read 4 [104, 0, 105] :: sends ∧
    sends.count (.send 5 [104]) = 1 := by
  have hrun : ∃ s ∈ runAll (step ⟨3, by decide⟩) (fun _ _ => true) initial
      (.select {3} 4 :: List.replicate 30 .skip ++ [.select {3, 4} 5]), Recorded s.client_socket 5 ∧
        (step ⟨3, by decide⟩ s (.read [104, 0, 105])).map State.calls =
          some (s.calls ++ .read 4 [104, 0, 105] :: [.send 5 [104]]) := by decide
  obtain ⟨s, hs, hrec, hcalls⟩ := hrun
  obtain ⟨s', hst, hcalls⟩ := Option.map_eq_some_iff.1 hcalls
  obtain ⟨-, -, -, -, hread⟩ := parity_broadcast (run_of_runAll (fun _ _ _ => trivial) hs)
  obtain ⟨sd, -, -, hsends⟩ := hread _ s' hst
  obtain ⟨sends, hc, -, hcount⟩ := hsends (by decide)
  obtain ⟨hsd, -⟩ := List.cons.inj (List.append_cancel_left (hcalls.symm.trans hc))
  obtain rfl : 4 = sd := (Call.read.inj hsd).1
  exact ⟨s, hs, s', sends, hst, hc, by rw [hcount, if_pos ⟨hrec, by decide, by decide⟩]⟩

end NetProg.OddEven
