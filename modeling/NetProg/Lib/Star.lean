import NetProg.Lib.Confluence
import NetProg.Lib.Process
import Mathlib.Logic.Function.Basic

/-!
# A client and its servers

A client that exchanges strings with servers `I`, each over one channel in each direction, and has channels `J` of its
own, read from and written to by nobody else in the system.  Each party runs a program that goes back to the head of a
loop whenever it is done: `code` and `main` say how it goes on there.

One step is one write or one read of one party.  The bytes of a channel arrive in order and none is lost; a read takes
the first string and waits until it is complete.

* `step_comm`: the steps of two parties commute, so that all runs of a system end alike;
* `Serves`: what one server does with the bytes that it has been sent, while the others rest (`serves_run`).
-/

namespace NetProg.Lib

/-! ### Queues -/

section Queues

variable {K : Type} [DecidableEq K]

/-- The queues with the bytes `b` appended to that of `c`. -/
def enqueue (q : K → List Byte) (c : K) (b : List Byte) : K → List Byte := Function.update q c (q c ++ b)

variable {q : K → List Byte} {c c' : K} {b b' r : List Byte} {m : CStr}

@[simp] theorem enqueue_self : enqueue q c b c = q c ++ b := by simp [enqueue]

theorem enqueue_of_ne (h : c' ≠ c) : enqueue q c b c' = q c' := by simp [enqueue, h]

@[simp] theorem enqueue_nil : enqueue q c [] = q := by simp [enqueue]

theorem enqueue_enqueue : enqueue (enqueue q c b) c b' = enqueue q c (b ++ b') := by simp [enqueue]

theorem enqueue_comm (h : c ≠ c') : enqueue (enqueue q c b) c' b' = enqueue (enqueue q c' b') c b := by
  simp [enqueue, h, h.symm, Function.update_comm h]

/-- What is appended to a queue does not disturb a string that is read from one. -/
theorem read_enqueue (h : readStr (q c) = some (m, r)) (c' : K) (b : List Byte) : ∃ r',
    readStr (enqueue q c' b c) = some (m, r') ∧
      Function.update (enqueue q c' b) c r' = enqueue (Function.update q c r) c' b := by
  by_cases hc : c = c'
  · subst hc
    exact ⟨r ++ b, by simpa using readStr_append h b, by simp [enqueue]⟩
  · exact ⟨r, by rwa [enqueue_of_ne hc], by simp [enqueue, Ne.symm hc, Function.update_comm hc]⟩

end Queues

/-- The programs of a client and its servers. -/
structure Star (I J : Type) where
  Fault : Type
  Label : Type
  ServerFault : I → Type
  ServerLabel : I → Type
  code : Label → Proc (I ⊕ J) Fault Label
  main : ∀ i, ServerLabel i → Proc Unit (ServerFault i) (ServerLabel i)

variable {I J : Type}

/-- The programs in progress, and the bytes on their way. -/
@[ext] structure Star.State (S : Star I J) where
  client : Proc (I ⊕ J) S.Fault S.Label
  server : ∀ i, Proc Unit (S.ServerFault i) (S.ServerLabel i)
  /-- from the client to a server -/
  sent : I → List Byte
  /-- from a server to the client -/
  replies : I → List Byte
  /-- what the client has yet to read on a channel of its own -/
  input : J → List Byte
  /-- what it has written there -/
  output : J → List Byte

namespace Star

variable [DecidableEq I] {S : Star I J}

/-- The next write or read of the client. -/
def clientStep [DecidableEq J] (x : S.State) : Option S.State :=
  match x.client.enter S.code with
  | .write (.inl i) b k => some { x with client := k, sent := enqueue x.sent i b }
  | .write (.inr j) b k => some { x with client := k, output := enqueue x.output j b }
  | .read (.inl i) k => (readStr (x.replies i)).map fun m =>
    { x with client := k m.1, replies := Function.update x.replies i m.2 }
  | .read (.inr j) k => (readStr (x.input j)).map fun m =>
    { x with client := k m.1, input := Function.update x.input j m.2 }
  | .ret _ => none
  | .halt _ _ => none

/-- The next write or read of a server. -/
def serverStep (x : S.State) (i : I) : Option S.State :=
  match (x.server i).enter (S.main i) with
  | .write _ b k => some { x with
      server := Function.update x.server i k
      replies := enqueue x.replies i b }
  | .read _ k => (readStr (x.sent i)).map fun m =>
    { x with server := Function.update x.server i (k m.1), sent := Function.update x.sent i m.2 }
  | .ret _ => none
  | .halt _ _ => none

/-- The step of a party, with `none` for the client. -/
def step [DecidableEq J] (x : S.State) : Option I → Option S.State
  | none => clientStep x
  | some i => serverStep x i

/-! ### What a step can do -/

variable {x y z : S.State} {i : I}

/-- The four kinds of steps of the client. -/
theorem clientStep_cases [DecidableEq J] (h : clientStep x = some y) :
    (∃ i b k, x.client.enter S.code = .write (.inl i) b k ∧
      y = { x with client := k, sent := enqueue x.sent i b }) ∨
    (∃ j b k, x.client.enter S.code = .write (.inr j) b k ∧
      y = { x with client := k, output := enqueue x.output j b }) ∨
    (∃ i k m r, x.client.enter S.code = .read (.inl i) k ∧ readStr (x.replies i) = some (m, r) ∧
      y = { x with client := k m, replies := Function.update x.replies i r }) ∨
    (∃ j k m r, x.client.enter S.code = .read (.inr j) k ∧ readStr (x.input j) = some (m, r) ∧
      y = { x with client := k m, input := Function.update x.input j r }) := by
  unfold clientStep at h
  split at h
  · next i b k e => exact .inl ⟨i, b, k, e, (Option.some.inj h).symm⟩
  · next j b k e => exact .inr (.inl ⟨j, b, k, e, (Option.some.inj h).symm⟩)
  · next i k e =>
    obtain ⟨⟨m, r⟩, hm, rfl⟩ := Option.map_eq_some_iff.1 h
    exact .inr (.inr (.inl ⟨i, k, m, r, e, hm, rfl⟩))
  · next j k e =>
    obtain ⟨⟨m, r⟩, hm, rfl⟩ := Option.map_eq_some_iff.1 h
    exact .inr (.inr (.inr ⟨j, k, m, r, e, hm, rfl⟩))
  · cases h
  · cases h

/-- The two kinds of steps of a server. -/
theorem serverStep_cases (h : serverStep x i = some y) :
    (∃ b k, (x.server i).enter (S.main i) = .write () b k ∧ y = { x with
      server := Function.update x.server i k, replies := enqueue x.replies i b }) ∨
    (∃ k m r, (x.server i).enter (S.main i) = .read () k ∧ readStr (x.sent i) = some (m, r) ∧ y = { x with
      server := Function.update x.server i (k m), sent := Function.update x.sent i r }) := by
  unfold serverStep at h
  split at h
  · next b k e => exact .inl ⟨b, k, e, (Option.some.inj h).symm⟩
  · next k e =>
    obtain ⟨⟨m, r⟩, hm, rfl⟩ := Option.map_eq_some_iff.1 h
    exact .inr ⟨k, m, r, e, hm, rfl⟩
  · cases h
  · cases h

section Rules

variable {b r : List Byte} {m : CStr} {k : Proc (I ⊕ J) S.Fault S.Label} {j : J}

theorem clientStep_send [DecidableEq J] (h : x.client.enter S.code = .write (.inl i) b k) :
    clientStep x = some { x with client := k, sent := enqueue x.sent i b } := by
  rw [clientStep, h]

theorem clientStep_output [DecidableEq J] (h : x.client.enter S.code = .write (.inr j) b k) :
    clientStep x = some { x with client := k, output := enqueue x.output j b } := by
  rw [clientStep, h]

theorem clientStep_reply [DecidableEq J] {k : CStr → Proc (I ⊕ J) S.Fault S.Label}
    (h : x.client.enter S.code = .read (.inl i) k)
    (hm : readStr (x.replies i) = some (m, r)) :
    clientStep x = some { x with client := k m, replies := Function.update x.replies i r } := by
  rw [clientStep, h]
  simp [hm]

theorem clientStep_input [DecidableEq J] {k : CStr → Proc (I ⊕ J) S.Fault S.Label}
    (h : x.client.enter S.code = .read (.inr j) k)
    (hm : readStr (x.input j) = some (m, r)) :
    clientStep x = some { x with client := k m, input := Function.update x.input j r } := by
  rw [clientStep, h]
  simp [hm]

theorem serverStep_write {k : Proc Unit (S.ServerFault i) (S.ServerLabel i)}
    (h : (x.server i).enter (S.main i) = .write () b k) : serverStep x i = some { x with
      server := Function.update x.server i k, replies := enqueue x.replies i b } := by
  rw [serverStep, h]

theorem serverStep_read {k : CStr → Proc Unit (S.ServerFault i) (S.ServerLabel i)}
    (h : (x.server i).enter (S.main i) = .read () k) (hm : readStr (x.sent i) = some (m, r)) :
    serverStep x i = some { x with
      server := Function.update x.server i (k m), sent := Function.update x.sent i r } := by
  rw [serverStep, h]
  simp [hm]

end Rules

/-! ### The order of steps does not matter -/

theorem client_server_comm [DecidableEq J] (hy : clientStep x = some y) (hz : serverStep x i = some z) :
    ∃ t, serverStep y i = some t ∧ clientStep z = some t := by
  rcases clientStep_cases hy with ⟨c, b, k, e, rfl⟩ | ⟨j, b, k, e, rfl⟩ | ⟨c, k, m, r, e, hm, rfl⟩ |
      ⟨j, k, m, r, e, hm, rfl⟩ <;>
    rcases serverStep_cases hz with ⟨b', k', e', rfl⟩ | ⟨k', m', r', e', hm', rfl⟩
  · exact ⟨_, serverStep_write e', clientStep_send e⟩
  · -- the client sends and the server reads, perhaps on the same channel
    obtain ⟨r₁, h₁, h₂⟩ := read_enqueue hm' c b
    exact ⟨_, serverStep_read e' h₁, (clientStep_send (by exact e)).trans (by simp only [h₂])⟩
  · exact ⟨_, serverStep_write e', clientStep_output e⟩
  · exact ⟨_, serverStep_read e' hm', clientStep_output e⟩
  · -- the server replies and the client reads
    obtain ⟨r₁, h₁, h₂⟩ := read_enqueue hm i b'
    exact ⟨_, serverStep_write e', (clientStep_reply (by exact e) h₁).trans (by simp only [h₂])⟩
  · exact ⟨_, serverStep_read e' hm', clientStep_reply e hm⟩
  · exact ⟨_, serverStep_write e', clientStep_input e hm⟩
  · exact ⟨_, serverStep_read e' hm', clientStep_input e hm⟩

theorem server_server_comm {i' : I} (hne : i ≠ i') (hy : serverStep x i = some y) (hz : serverStep x i' = some z) :
    ∃ t, serverStep y i' = some t ∧ serverStep z i = some t := by
  have hs : ∀ p, (Function.update x.server i p i').enter (S.main i') = (x.server i').enter (S.main i') := fun p => by
    rw [Function.update_of_ne hne.symm]
  have hs' : ∀ p, (Function.update x.server i' p i).enter (S.main i) = (x.server i).enter (S.main i) := fun p => by
    rw [Function.update_of_ne hne]
  rcases serverStep_cases hy with ⟨b, k, e, rfl⟩ | ⟨k, m, r, e, hm, rfl⟩ <;>
    rcases serverStep_cases hz with ⟨b', k', e', rfl⟩ | ⟨k', m', r', e', hm', rfl⟩
  · refine ⟨_, serverStep_write ((hs k).trans e'), (serverStep_write ((hs' k').trans e)).trans ?_⟩
    simp only [enqueue_comm hne, Function.update_comm hne]
  · refine ⟨_, serverStep_read ((hs k).trans e') hm', (serverStep_write ((hs' (k' m')).trans e)).trans ?_⟩
    simp only [Function.update_comm hne]
  · refine ⟨_, serverStep_write ((hs (k m)).trans e'), (serverStep_read ((hs' k').trans e) (by exact hm)).trans ?_⟩
    simp only [Function.update_comm hne]
  · refine ⟨_, serverStep_read ((hs (k m)).trans e') (m := m') (r := r') ?_,
      (serverStep_read ((hs' (k' m')).trans e) (m := m) (r := r) ?_).trans ?_⟩
    · simpa [Function.update_of_ne hne.symm] using hm'
    · simpa [Function.update_of_ne hne] using hm
    · simp only [Function.update_comm hne]

/-- **The steps of two parties commute.** -/
theorem step_comm [DecidableEq J] : Commuting (step (S := S)) := by
  rintro x (_ | i) (_ | i') y z hne hy hz
  · exact absurd rfl hne
  · exact client_server_comm hy hz
  · obtain ⟨t, h, h'⟩ := client_server_comm hz hy
    exact ⟨t, h', h⟩
  · exact server_server_comm (fun h => hne (congrArg some h)) hy hz

/-! ### Programs that have stopped -/

section Halted

variable {a : Option I}

/-- A client that has stopped takes no step. -/
theorem halted_client [DecidableEq J] {e : S.Fault} {l : S.Label} (h : x.client = .halt e l) (hy : step x a = some y) :
    y.client = .halt e l := by
  cases a with
  | none =>
    rw [step, clientStep, h] at hy
    cases hy
  | some i => rcases serverStep_cases hy with ⟨b, k, -, rfl⟩ | ⟨k, m, r, -, -, rfl⟩ <;> exact h

/-- Nor does a server. -/
theorem halted_server [DecidableEq J] {e : S.ServerFault i} {r : S.ServerLabel i} (h : x.server i = .halt e r)
    (hy : step x a = some y) : y.server i = .halt e r := by
  cases a with
  | none =>
    rcases clientStep_cases hy with ⟨c, b, k, -, rfl⟩ | ⟨j, b, k, -, rfl⟩ | ⟨c, k, m, q, -, -, rfl⟩ |
      ⟨j, k, m, q, -, -, rfl⟩ <;> exact h
  | some i' =>
    by_cases hi : i' = i
    · subst hi
      rw [step, serverStep, h] at hy
      cases hy
    · rcases serverStep_cases hy with ⟨b, k, -, rfl⟩ | ⟨k, m, q, -, -, rfl⟩ <;>
        exact (Function.update_of_ne (Ne.symm hi) _ _).trans h

end Halted

/-! ### One server by itself -/

/-- The program `p`, with the bytes `q` to read, comes to be `p'` with the bytes `q'`, and writes `out`. -/
inductive Serves {ε R : Type} (main : R → Proc Unit ε R) :
    Proc Unit ε R → List Byte → List Byte → Proc Unit ε R → List Byte → Prop where
  | rest {p q} : Serves main p q [] p q
  | write {p q b k out p' q'} : p.enter main = .write () b k → Serves main k q out p' q' →
      Serves main p q (b ++ out) p' q'
  | read {p q k m r out p' q'} : p.enter main = .read () k → readStr q = some (m, r) →
      Serves main (k m) r out p' q' → Serves main p q out p' q'

section Serves

variable {ε R : Type} {main : R → Proc Unit ε R} {p p' p'' : Proc Unit ε R} {q q' q'' out out' : List Byte}

theorem Serves.trans (h : Serves main p q out p' q') (h' : Serves main p' q' out' p'' q'') :
    Serves main p q (out ++ out') p'' q'' := by
  induction h with
  | rest => exact h'
  | write e _ ih => exact (List.append_assoc _ _ _).symm ▸ .write e (ih h')
  | read e hm _ ih => exact .read e hm (ih h')

/-- Bytes that arrive later do not change what is done with the ones before. -/
theorem Serves.append (h : Serves main p q out p' q') (b : List Byte) : Serves main p (q ++ b) out p' (q' ++ b) := by
  induction h with
  | rest => exact .rest
  | write e _ ih => exact .write e ih
  | read e hm _ ih => exact .read e (readStr_append hm b) ih

theorem serves_run (main : R → Proc Unit ε R) (p : Proc Unit ε R) (ins : List CStr) (q : List Byte) :
    Serves main p (ins.flatMap CStr.z ++ q) (p.run ins).1 (p.run ins).2.1 ((p.run ins).2.2.flatMap CStr.z ++ q) := by
  induction p generalizing ins with
  | ret r => simpa using Serves.rest
  | halt e r => simpa using Serves.rest
  | write i b k ih =>
    rw [Proc.run_write]
    exact .write rfl (ih ins)
  | read i k ih =>
    cases ins with
    | nil => simpa using Serves.rest
    | cons m ins =>
      rw [Proc.run_read]
      exact .read rfl (by simp only [List.flatMap_cons, List.append_assoc, readStr_z_append]) (ih m ins)

/-- From the head of its loop, a server deals with a string as the program at that place does. -/
theorem serves_string {m : CStr} (h : (p.enter main).run [m] = (out, p', [])) : Serves main p m.z out p' [] := by
  cases e : p.enter main with
  | ret r => simp [e] at h
  | halt f r => simp [e] at h
  | write i b k =>
    rw [e, Proc.run_write, Prod.mk.injEq] at h
    have hs := serves_run main k [m] []
    rw [h.2] at hs
    exact h.1 ▸ .write e (by simpa using hs)
  | read i k =>
    rw [e, Proc.run_read] at h
    have hs := serves_run main (k m) [] []
    rw [h] at hs
    exact .read e (m := m) (r := []) (readStr_z m) (by simpa using hs)

end Serves

/-! ### The client by itself -/

/-- The client gets from one state to the other while the servers rest. -/
def Alone [DecidableEq J] (x y : S.State) : Prop := Reaches (fun x (_ : Unit) => clientStep x) x y

section Alone

variable [DecidableEq J]

theorem Alone.refl : Alone x x := Reaches.refl

theorem Alone.single (h : clientStep x = some y) : Alone x y := Reaches.single (a := ()) h

theorem Alone.trans (h : Alone x y) (h' : Alone y z) : Alone x z := Reaches.trans h h'

theorem Alone.reaches (h : Alone x y) : Reaches step x y := Reaches.mono h fun _ _ _ hst => ⟨none, hst⟩

end Alone

/-! ### Requests -/

/-- The client with the program `p` left sends `b` to the server `i` and then has `k` left. -/
inductive Sends (S : Star I J) (i : I) : Proc (I ⊕ J) S.Fault S.Label → List Byte → Proc (I ⊕ J) S.Fault S.Label → Prop where
  | rest {p} : Sends S i p [] p
  | write {p b k b' k'} : p.enter S.code = .write (.inl i) b k → Sends S i k b' k' → Sends S i p (b ++ b') k'

end Star

end NetProg.Lib
