import NetProg.Lib.Process

/-!
# Writes that need not take everything

A write to a non-blocking socket takes any number of the bytes it is given, or fails and takes none.  `requests p` are
the bytes of the writes that a program makes before it next reads, and `wire s t p` is what of them gets onto the wire
where the first of them is the `t`-th write to `s`.  A program of `Proc` does not look at the results of its writes: it
goes on behind a short write as behind a complete one.

`wire_eq_iff`: nothing is lost only where every write takes all it is given.
-/

namespace NetProg.Lib

/-- What the writes to a socket take: `write t m` of the `m` bytes of the `t`-th one, with `none` for -1. -/
structure Socket where
  write : ℕ → ℕ → Option ℕ
  bound : ∀ t m x, write t m = some x → 0 < x ∧ x ≤ m

/-- How many of `m` bytes the `t`-th write takes. -/
def Socket.took (s : Socket) (t m : ℕ) : ℕ := (s.write t m).getD 0

theorem Socket.took_le (s : Socket) (t m : ℕ) : s.took t m ≤ m := by
  unfold took
  cases h : s.write t m with
  | none => exact Nat.zero_le m
  | some x => exact (s.bound t m x h).2

namespace Proc

variable {ι ε R : Type}

/-- What the writes up to the next read are given. -/
def requests : Proc ι ε R → List (List Byte)
  | .write _ b k => b :: requests k
  | _ => []

/-- What they put on the wire, the first one being the `t`-th write to the socket. -/
def wire (s : Socket) : ℕ → Proc ι ε R → List Byte
  | t, .write _ b k => b.take (s.took t b.length) ++ wire s (t + 1) k
  | _, _ => []

/-- Every write takes all it is given. -/
def Complete (s : Socket) (t : ℕ) (p : Proc ι ε R) : Prop :=
  ∀ i b, (requests p)[i]? = some b → s.write (t + i) b.length = some b.length

variable {s : Socket} {t : ℕ} {p k : Proc ι ε R} {c : ι} {b : List Byte}

theorem complete_write :
    Complete s t (.write c b k) ↔ s.write t b.length = some b.length ∧ Complete s (t + 1) k := by
  constructor
  · intro h
    refine ⟨h 0 b rfl, fun i b' hb => ?_⟩
    rw [Nat.add_right_comm]
    exact h (i + 1) b' hb
  · rintro ⟨h0, h⟩ i b' hb
    cases i with
    | zero =>
      cases hb
      exact h0
    | succ i =>
      have := h i b' hb
      rwa [Nat.add_right_comm] at this

theorem length_wire_le (p : Proc ι ε R) (t : ℕ) : (wire s t p).length ≤ (requests p).flatten.length := by
  induction p generalizing t with
  | ret r => exact le_rfl
  | halt e r => exact le_rfl
  | read c k => exact le_rfl
  | write c b k ih =>
    have := ih (t + 1)
    have := s.took_le t b.length
    simp only [wire, requests, List.flatten_cons, List.length_append, List.length_take]
    omega

/-- **Nothing is lost where every write is complete**, and only there. -/
theorem wire_eq_iff (hne : ∀ b ∈ requests p, b ≠ []) : wire s t p = (requests p).flatten ↔ Complete s t p := by
  induction p generalizing t with
  | ret r => simp [wire, requests, Complete]
  | halt e r => simp [wire, requests, Complete]
  | read c k => simp [wire, requests, Complete]
  | write c b k ih =>
    have hb : 0 < b.length := List.length_pos_iff.2 (hne b (by simp [requests]))
    have ih := ih (t := t + 1) fun b' hb' => hne b' (by simp [requests, hb'])
    rw [complete_write, ← ih, wire, requests, List.flatten_cons]
    constructor
    · intro h
      -- the rest is no longer than it should be, so this write must have taken everything
      have hlen : b.length ≤ s.took t b.length := by
        have := congrArg List.length h
        have := length_wire_le (s := s) k (t + 1)
        simp only [List.length_append, List.length_take] at *
        omega
      have htook : s.took t b.length = b.length := le_antisymm (s.took_le t b.length) hlen
      have hsome : s.write t b.length = some b.length := by
        unfold Socket.took at htook
        cases hw : s.write t b.length with
        | none =>
          rw [hw] at htook
          exact absurd htook hb.ne
        | some x =>
          rw [hw] at htook
          exact congrArg some htook
      rw [htook, List.take_length] at h
      exact ⟨hsome, List.append_cancel_left h⟩
    · rintro ⟨hsome, h⟩
      rw [Socket.took, hsome, Option.getD_some, List.take_length, h]

end Proc

/-- What a program writes to a socket that takes everything. -/
theorem Proc.flatten_requests {ε R : Type} (p : Proc Unit ε R) : (requests p).flatten = (p.run []).1 := by
  induction p with
  | ret r => rfl
  | halt e r => rfl
  | read c k => rfl
  | write c b k ih => simp [requests, ih]

end NetProg.Lib
