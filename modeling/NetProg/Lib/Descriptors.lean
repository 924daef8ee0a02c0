import Mathlib.Logic.Function.Basic
import Mathlib.Data.Nat.Notation

/-!
# Tables of descriptors

A process has a table from numbers to what is open.  `pipe`, `dup2` and `close` edit it, a new process gets a copy, and
one that is gone has an empty table.  No call but `pipe` brings anything into a table that it has not held before
(`Holds`).
-/

namespace NetProg.Lib.Descriptors

/-- What the numbers of a process stand for. -/
abbrev Table (D : Type) := ℕ → Option D

variable {D : Type} {t : Table D} {a b f : ℕ} {d r w : D}

/-- The table of a process that is gone. -/
def empty : Table D := fun _ => none

def close (t : Table D) (f : ℕ) : Table D := Function.update t f none

/-- `dup2(a, b)`; nothing happens if `a` is not open. -/
def dup2 (t : Table D) (a b : ℕ) : Table D :=
  match t a with
  | some d => Function.update t b (some d)
  | none => t

/-- `pipe`, with the two numbers that it returns. -/
def pipe (t : Table D) (a b : ℕ) (r w : D) : Table D := Function.update (Function.update t a (some r)) b (some w)

/-- Some number stands for it. -/
def Holds (t : Table D) (d : D) : Prop := ∃ f, t f = some d

theorem not_holds_empty : ¬ Holds empty d := fun ⟨_, h⟩ => by cases h

theorem close_self : close t f f = none := Function.update_self ..

theorem close_of_ne (h : a ≠ f) : close t f a = t a := Function.update_of_ne h ..

theorem close_eq_some : close t f a = some d ↔ a ≠ f ∧ t a = some d := by
  by_cases h : a = f
  · rw [h, close_self]
    simp
  · rw [close_of_ne h]
    simp [h]

/-- Closing one thing leaves the numbers of the others. -/
theorem close_eq_some_of_ne {e : D} (h : t f = some e) (hne : d ≠ e) : close t f a = some d ↔ t a = some d := by
  rw [close_eq_some, and_iff_right_of_imp]
  rintro hd rfl
  exact hne (Option.some.inj (hd.symm.trans h))

theorem dup2_of_some (h : t a = some d) : dup2 t a b = Function.update t b (some d) := by
  simp only [dup2, h]

theorem dup2_of_none (h : t a = none) : dup2 t a b = t := by
  simp only [dup2, h]

theorem dup2_self (h : t a = some d) : dup2 t a b b = some d := by
  rw [dup2_of_some h, Function.update_self]

theorem dup2_of_ne (h : f ≠ b) : dup2 t a b f = t f := by
  cases ha : t a with
  | none => rw [dup2_of_none ha]
  | some d => rw [dup2_of_some ha, Function.update_of_ne h]

/-- What a number stands for after `dup2` was open before. -/
theorem eq_some_of_dup2 (h : dup2 t a b f = some d) : t f = some d ∨ f = b ∧ t a = some d := by
  by_cases hf : f = b
  · subst hf
    cases ha : t a with
    | none =>
      rw [dup2_of_none ha] at h
      exact .inl h
    | some e =>
      rw [dup2_self ha] at h
      exact .inr ⟨rfl, h⟩
  · rw [dup2_of_ne hf] at h
    exact .inl h

theorem pipe_eq_some (ha : t a = none) (hb : t b = none) (hab : a ≠ b) : pipe t a b r w f = some d ↔
    f = a ∧ d = r ∨ f = b ∧ d = w ∨ t f = some d := by
  unfold pipe
  by_cases hfb : f = b
  · subst hfb
    rw [Function.update_self]
    simp [hb, Ne.symm hab, eq_comm]
  rw [Function.update_of_ne hfb]
  by_cases hfa : f = a
  · subst hfa
    rw [Function.update_self]
    simp [ha, hab, eq_comm]
  · rw [Function.update_of_ne hfa]
    simp [hfa, hfb]

theorem pipe_of_ne (ha : f ≠ a) (hb : f ≠ b) : pipe t a b r w f = t f := by
  rw [pipe, Function.update_of_ne hb, Function.update_of_ne ha]

end NetProg.Lib.Descriptors
