import NetProg.Lib.Star

/-!
# What programs leave behind

`Yields Q p` is the condition under which `Q r` holds whenever the program `p` is done with `r`; `yields_step` makes it
an invariant of a server.  `Leaves j Q p w` is the condition under which `Q r` holds of all that has been written to the
channel `j` whenever the program `p`, with `w` written there so far, is done with `r`; what it reads is left open.
`leaves_step` makes it an invariant of a client with a channel of its own: the channel only ever grows, and nobody else
writes to it.  What stands there already makes no difference to a run (`step_pour`).
-/

namespace NetProg.Lib

namespace Proc

variable {ι ε R α : Type} [DecidableEq ι]

/-- Where the program is done with `r`, `Q r` holds of what has been written to the channel `j`, with `w` before. -/
def Leaves (j : ι) (Q : R → List Byte → Prop) : Proc ι ε R → List Byte → Prop
  | .ret r, w => Q r w
  | .write i b k, w => Leaves j Q k (if i = j then w ++ b else w)
  | .read _ k, w => ∀ m, Leaves j Q (k m) w
  | .halt _ _, _ => True

section Rules

variable {j i : ι} {Q : R → List Byte → Prop} {b w : List Byte} {r : R} {e : ε} {k : Proc ι ε R}

@[simp] theorem leaves_ret : (Proc.ret r : Proc ι ε R).Leaves j Q w ↔ Q r w := Iff.rfl

@[simp] theorem leaves_halt : (Proc.halt e r : Proc ι ε R).Leaves j Q w := trivial

@[simp] theorem leaves_read {k : CStr → Proc ι ε R} : (Proc.read i k).Leaves j Q w ↔ ∀ m, (k m).Leaves j Q w := Iff.rfl

@[simp] theorem leaves_write_self : (Proc.write j b k).Leaves j Q w ↔ k.Leaves j Q (w ++ b) := by simp [Leaves]

theorem leaves_write_of_ne (h : i ≠ j) : (Proc.write i b k).Leaves j Q w ↔ k.Leaves j Q w := by simp [Leaves, h]

theorem Leaves.enter {code : R → Proc ι ε R} (hcode : ∀ r w, Q r w → (code r).Leaves j Q w) {p : Proc ι ε R}
    (h : p.Leaves j Q w) : (p.enter code).Leaves j Q w := by
  cases p with
  | ret r => exact hcode r w h
  | write i b k => exact h
  | read i k => exact h
  | halt e r => exact h

end Rules

/-- Where the program is done with `r`, `Q r` holds, whatever it reads. -/
def Yields (Q : R → Prop) : Proc ι ε R → Prop
  | .ret r => Q r
  | .write _ _ k => Yields Q k
  | .read _ k => ∀ m, Yields Q (k m)
  | .halt _ _ => True

section Yields

omit [DecidableEq ι]

variable {i : ι} {Q : R → Prop} {b : List Byte} {r : R}

theorem Yields.attempt {x : Except ε α} {k : α → Proc ι ε R} (h : ∀ a, (k a).Yields Q) : (Proc.attempt r x k).Yields Q := by
  cases x with
  | error e => trivial
  | ok a => exact h a

theorem Yields.enter {code : R → Proc ι ε R} (hcode : ∀ r, Q r → (code r).Yields Q) {p : Proc ι ε R} (h : p.Yields Q) :
    (p.enter code).Yields Q := by
  cases p with
  | ret r => exact hcode r h
  | write i b k => exact h
  | read i k => exact h
  | halt e r => exact h

end Yields

end Proc

namespace Star

variable {I J : Type} [DecidableEq I] [DecidableEq J] {S : Star I J} {x y : S.State} {a : Option I} {j : J}
  {Q : S.Label → List Byte → Prop}

/-- **What the client leaves on a channel of its own does not depend on the servers.** -/
theorem leaves_step (hcode : ∀ r w, Q r w → (S.code r).Leaves (.inr j) Q w)
    (h : x.client.Leaves (.inr j) Q (x.output j)) (hst : step x a = some y) :
    y.client.Leaves (.inr j) Q (y.output j) := by
  rcases a with _ | i
  · have he := h.enter hcode
    rcases clientStep_cases hst with ⟨i, b, k, e, rfl⟩ | ⟨j', b, k, e, rfl⟩ | ⟨i, k, m, r, e, -, rfl⟩ |
      ⟨j', k, m, r, e, -, rfl⟩
    · rw [e, Proc.leaves_write_of_ne (by simp)] at he
      exact he
    · rw [e] at he
      by_cases hj : j' = j
      · subst hj
        simpa using he
      · rw [Proc.leaves_write_of_ne (by simpa using hj)] at he
        simpa [enqueue_of_ne (Ne.symm hj)] using he
    · rw [e] at he
      exact he m
    · rw [e] at he
      exact he m
  · rcases serverStep_cases hst with ⟨b, k, -, rfl⟩ | ⟨k, m, r, -, -, rfl⟩
    · exact h
    · exact h

/-- **What a server leaves does not depend on what it reads.** -/
theorem yields_step {i : I} {Q : S.ServerLabel i → Prop} (hmain : ∀ r, Q r → (S.main i r).Yields Q)
    (h : (x.server i).Yields Q) (hst : step x a = some y) : (y.server i).Yields Q := by
  rcases a with _ | i'
  · rcases clientStep_cases hst with ⟨i, b, k, -, rfl⟩ | ⟨j', b, k, -, rfl⟩ | ⟨i, k, m, r, -, -, rfl⟩ |
      ⟨j', k, m, r, -, -, rfl⟩ <;> exact h
  · by_cases hi : i' = i
    · subst hi
      have he := h.enter hmain
      rcases serverStep_cases hst with ⟨b, k, e, rfl⟩ | ⟨k, m, r, e, -, rfl⟩
      · rw [e] at he
        have hk : k.Yields Q := he
        simpa using hk
      · rw [e] at he
        simpa using he m
    · rcases serverStep_cases hst with ⟨b, k, -, rfl⟩ | ⟨k, m, r, -, -, rfl⟩ <;>
        simpa [Function.update_of_ne (Ne.symm hi)] using h

/-- The state with more bytes in front of those that the client has written on its own channels. -/
def State.pour (x : S.State) (o : J → List Byte) : S.State := { x with output := fun j => o j ++ x.output j }

variable {o : J → List Byte}

/-- **The channels of the client are written to and never read.** -/
theorem step_pour : step (x.pour o) a = (step x a).map fun y => y.pour o := by
  have hout (j : J) (b : List Byte) :
      enqueue (fun j => o j ++ x.output j) j b = fun j' => o j' ++ enqueue x.output j b j' := by
    funext j'
    by_cases hj : j' = j
    · subst hj
      simp
    · simp [enqueue_of_ne hj]
  rcases a with _ | i
  · show clientStep _ = (clientStep x).map _
    have hc : (x.pour o).client.enter S.code = x.client.enter S.code := rfl
    unfold clientStep
    rw [hc]
    rcases x.client.enter S.code with r | ⟨i | j, b, k⟩ | ⟨i | j, k⟩ | ⟨e, r⟩
    · rfl
    · rfl
    · simp only [Option.map_some, State.pour, hout]
    · simp only [Option.map_map]
      rfl
    · simp only [Option.map_map]
      rfl
    · rfl
  · show serverStep _ i = (serverStep x i).map _
    have hc : ((x.pour o).server i).enter (S.main i) = (x.server i).enter (S.main i) := rfl
    unfold serverStep
    rw [hc]
    rcases (x.server i).enter (S.main i) with r | ⟨_, b, k⟩ | ⟨_, k⟩ | ⟨e, r⟩
    · rfl
    · rfl
    · simp only [Option.map_map]
      rfl
    · rfl

theorem reaches_pour (h : Reaches step x y) : Reaches step (x.pour o) (y.pour o) := by
  obtain ⟨n, h⟩ := h
  refine ⟨n, ?_⟩
  induction n generalizing x with
  | zero => exact congrArg (State.pour · o) h
  | succ n ih =>
    obtain ⟨a, s, hs, h⟩ := h
    exact ⟨a, s.pour o, by rw [step_pour, hs]; rfl, ih h⟩

theorem ended_pour (h : Ended step x) : Ended step (x.pour o) := fun a => by rw [step_pour, h a]; rfl

end Star

end NetProg.Lib
