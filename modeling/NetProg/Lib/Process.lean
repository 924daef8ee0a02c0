import NetProg.Lib.CString

/-!
# Programs that read strings and write bytes

`Proc ι ε R` is the rest of a program that exchanges data over channels `ι`: it writes bytes, reads the next string of
a channel, stops for good with an error of `ε`, or is done with a result of `R`.  `feed` runs a program with one
channel on a list of strings that stand ready for it, and collects what it writes; `run` does so too and keeps what is
left of the program.

The result of a program can also be the place where another one goes on: `enter code` is what a loop does at its head.
-/

namespace NetProg.Lib

/-- The rest of a program. -/
inductive Proc (ι ε R : Type) where
  | ret (r : R)
  | write (i : ι) (b : List Byte) (k : Proc ι ε R)
  | read (i : ι) (k : CStr → Proc ι ε R)
  | halt (e : ε) (r : R)

/-- How a program stands when it can make no further move. -/
inductive Outcome (ε R : Type) where
  | done (r : R)
  | waiting
  | stopped (e : ε) (r : R)

/-- What a program has left, unless it waits for more. -/
def Outcome.left {ε R : Type} : Outcome ε R → Option R
  | .done r => some r
  | .stopped _ r => some r
  | .waiting => none

/-- The error a program has stopped with. -/
def Outcome.error {ε R : Type} : Outcome ε R → Option ε
  | .stopped e _ => some e
  | _ => none

theorem except_bind_eq_error {ε α β : Type} {x : Except ε α} {f : α → Except ε β} {e : ε} :
    (x >>= f) = .error e ↔ x = .error e ∨ ∃ a, x = .ok a ∧ f a = .error e := by
  cases x with
  | error e' => simp [bind, Except.bind]
  | ok a => simp [bind, Except.bind]

theorem except_bind_eq_ok {ε α β : Type} {x : Except ε α} {f : α → Except ε β} {b : β} :
    (x >>= f) = .ok b ↔ ∃ a, x = .ok a ∧ f a = .ok b := by
  cases x with
  | error e => simp [bind, Except.bind]
  | ok a => simp [bind, Except.bind]

namespace Proc

variable {ι ε R α : Type}

/-- Go on with the value of a computation that may fail; on failure the program stops with its data as they are. -/
def attempt (r : R) : Except ε α → (α → Proc ι ε R) → Proc ι ε R
  | .error e, _ => .halt e r
  | .ok a, k => k a

@[simp] theorem attempt_ok (r : R) (a : α) (k : α → Proc ι ε R) : attempt r (.ok a) k = k a := rfl

@[simp] theorem attempt_error (r : R) (e : ε) (k : α → Proc ι ε R) :
    attempt r (.error e) k = .halt e r := rfl

/-- Run a program with one channel on the strings that stand ready: the bytes it writes, and how it ends. -/
def feed : Proc Unit ε R → List CStr → List Byte × Outcome ε R
  | .ret r, _ => ([], .done r)
  | .write _ b k, ins => (b ++ (feed k ins).1, (feed k ins).2)
  | .read _ _, [] => ([], .waiting)
  | .read _ k, s :: ins => feed (k s) ins
  | .halt e r, _ => ([], .stopped e r)

/-- Run a program with one channel on the strings that stand ready: the bytes it writes, what is left of it, and the
strings it has not read. -/
def run : Proc Unit ε R → List CStr → List Byte × Proc Unit ε R × List CStr
  | .write _ b k, ins => (b ++ (run k ins).1, (run k ins).2)
  | .read _ k, s :: ins => run (k s) ins
  | p, ins => ([], p, ins)

section Run

variable {ins : List CStr} {i : Unit} {b : List Byte} {r : R} {e : ε}

@[simp] theorem run_ret : (Proc.ret r : Proc Unit ε R).run ins = ([], .ret r, ins) := by cases ins <;> rfl

@[simp] theorem run_halt : (Proc.halt e r : Proc Unit ε R).run ins = ([], .halt e r, ins) := by cases ins <;> rfl

@[simp] theorem run_write {k : Proc Unit ε R} :
    (Proc.write i b k).run ins = (b ++ (run k ins).1, (run k ins).2) := by cases ins <;> rfl

@[simp] theorem run_read {k : CStr → Proc Unit ε R} {m : CStr} : (Proc.read i k).run (m :: ins) = (k m).run ins := rfl

@[simp] theorem run_read_nil {k : CStr → Proc Unit ε R} : (Proc.read i k).run [] = ([], .read i k, []) := rfl

@[simp] theorem run_attempt_error {k : α → Proc Unit ε R} {e : ε} :
    (attempt r (.error e) k).run ins = ([], .halt e r, ins) := run_halt

/-- Nothing is left of no strings. -/
@[simp] theorem run_nil_rest (p : Proc Unit ε R) : (p.run []).2.2 = [] := by
  induction p with
  | ret r => simp
  | halt e r => simp
  | read i k => simp
  | write i b k ih => simpa using ih

/-- A program that runs to its end does so when it is fed. -/
theorem feed_of_run {p : Proc Unit ε R} {out : List Byte} {rest : List CStr} (h : p.run ins = (out, .ret r, rest)) :
    p.feed ins = (out, .done r) := by
  induction p generalizing ins out with
  | ret r' =>
    rw [run_ret] at h
    cases h
    rfl
  | halt e r' => simp at h
  | write i b k ih =>
    simp only [run_write, Prod.mk.injEq] at h
    have := ih (Prod.ext (Eq.refl (k.run ins).1) h.2)
    rw [feed, this, ← h.1]
  | read i k ih =>
    cases ins with
    | nil => simp at h
    | cons m ins => exact ih m h

/-- A program that is fed nothing and comes to its end has only written. -/
theorem run_of_feed_nil {p : Proc Unit ε R} {out : List Byte} (h : p.feed [] = (out, .done r)) :
    p.run [] = (out, .ret r, []) := by
  induction p generalizing out with
  | ret r' =>
    cases h
    rfl
  | halt e r' => cases h
  | read i k => cases h
  | write i b k ih =>
    simp only [feed, Prod.mk.injEq] at h
    rw [run_write, ih (Prod.ext (Eq.refl (k.feed []).1) h.2), ← h.1]

/-- Strings that come later are fed to what is left. -/
theorem feed_append {p p' : Proc Unit ε R} {out : List Byte} (h : p.run ins = (out, p', [])) (ins' : List CStr) :
    p.feed (ins ++ ins') = (out ++ (p'.feed ins').1, (p'.feed ins').2) := by
  induction p generalizing ins out with
  | ret r' =>
    rw [run_ret] at h
    cases h
    rfl
  | halt e r' =>
    rw [run_halt] at h
    cases h
    rfl
  | write i b k ih =>
    simp only [run_write, Prod.mk.injEq] at h
    rw [feed, ih (Prod.ext (Eq.refl (k.run ins).1) h.2), ← h.1, List.append_assoc]
  | read i k ih =>
    cases ins with
    | nil =>
      cases h
      rfl
    | cons m ins => exact ih m h

end Run

/-- The program that goes on at `r` where this one is done with `r`. -/
def enter (code : R → Proc ι ε R) : Proc ι ε R → Proc ι ε R
  | .ret r => code r
  | p => p

@[simp] theorem enter_ret (code : R → Proc ι ε R) (r : R) : enter code (.ret r) = code r := rfl

@[simp] theorem enter_read (code : R → Proc ι ε R) (i : ι) (k : CStr → Proc ι ε R) :
    enter code (.read i k) = .read i k := rfl

@[simp] theorem enter_write (code : R → Proc ι ε R) (i : ι) (b : List Byte) (k : Proc ι ε R) :
    enter code (.write i b k) = .write i b k := rfl

@[simp] theorem enter_halt (code : R → Proc ι ε R) (e : ε) (r : R) : enter code (.halt e r) = .halt e r := rfl

/-- On `ins` the program writes `out` and then stands as `o` says. -/
def Gives (p : Proc Unit ε R) (ins : List CStr) (out : List Byte) (o : Outcome ε R) : Prop := p.feed ins = (out, o)

/-- The program runs on `ins` to its end, writes `out` and leaves `r`. -/
def Ends (p : Proc Unit ε R) (ins : List CStr) (out : List Byte) (r : R) : Prop := p.Gives ins out (.done r)

section Ends

variable {ins : List CStr} {out b : List Byte} {r r' : R} {o : Outcome ε R} {k : Proc Unit ε R}

@[simp] theorem gives_ret : (Proc.ret r : Proc Unit ε R).Gives ins out o ↔ out = [] ∧ o = .done r := by
  simp [Gives, feed, eq_comm]

@[simp] theorem gives_write : (Proc.write () b k).Gives ins out o ↔ ∃ o', out = b ++ o' ∧ k.Gives ins o' o := by
  unfold Gives
  simp only [feed, Prod.ext_iff]
  constructor
  · rintro ⟨h1, h2⟩; exact ⟨_, h1.symm, rfl, h2⟩
  · rintro ⟨o, h1, rfl, h2⟩; exact ⟨h1.symm, h2⟩

@[simp] theorem gives_read {k : CStr → Proc Unit ε R} {m : CStr} :
    (Proc.read () k).Gives (m :: ins) out o ↔ (k m).Gives ins out o := Iff.rfl

@[simp] theorem gives_read_nil {k : CStr → Proc Unit ε R} :
    (Proc.read () k).Gives [] out o ↔ out = [] ∧ o = .waiting := by
  simp [Gives, feed, eq_comm]

@[simp] theorem gives_halt {e : ε} :
    (Proc.halt e r : Proc Unit ε R).Gives ins out o ↔ out = [] ∧ o = .stopped e r := by
  simp [Gives, feed, eq_comm]

@[simp] theorem gives_attempt {x : Except ε α} {k : α → Proc Unit ε R} :
    (attempt r x k).Gives ins out o ↔
      (∃ e, x = .error e ∧ out = [] ∧ o = .stopped e r) ∨ ∃ a, x = .ok a ∧ (k a).Gives ins out o := by
  cases x <;> simp

@[simp] theorem ends_ret : (Proc.ret r : Proc Unit ε R).Ends ins out r' ↔ out = [] ∧ r' = r := by simp [Ends]

@[simp] theorem ends_write : (Proc.write () b k).Ends ins out r ↔ ∃ o, out = b ++ o ∧ k.Ends ins o r := by
  simp [Ends]

@[simp] theorem ends_read {k : CStr → Proc Unit ε R} {m : CStr} :
    (Proc.read () k).Ends (m :: ins) out r ↔ (k m).Ends ins out r := Iff.rfl

@[simp] theorem ends_read_nil {k : CStr → Proc Unit ε R} : ¬ (Proc.read () k).Ends [] out r := by simp [Ends]

@[simp] theorem ends_halt {e : ε} : ¬ (Proc.halt e r : Proc Unit ε R).Ends ins out r' := by simp [Ends]

@[simp] theorem ends_attempt {x : Except ε α} {k : α → Proc Unit ε R} :
    (attempt r x k).Ends ins out r' ↔ ∃ a, x = .ok a ∧ (k a).Ends ins out r' := by
  simp [Ends]

end Ends

/-- The program stops for good on `ins`, with the error `e`. -/
def Stops (p : Proc Unit ε R) (ins : List CStr) (e : ε) : Prop := ∃ out r, p.feed ins = (out, .stopped e r)

section Stops

variable {ins : List CStr} {b : List Byte} {r : R} {e e' : ε} {k : Proc Unit ε R}

@[simp] theorem stops_ret : ¬ (Proc.ret r : Proc Unit ε R).Stops ins e := by simp [Stops, feed]

@[simp] theorem stops_write : (Proc.write () b k).Stops ins e ↔ k.Stops ins e := by
  unfold Stops
  simp only [feed, Prod.ext_iff]
  constructor
  · rintro ⟨o, r, -, h⟩; exact ⟨_, r, rfl, h⟩
  · rintro ⟨o, r, -, h⟩; exact ⟨_, r, rfl, h⟩

@[simp] theorem stops_read {k : CStr → Proc Unit ε R} {m : CStr} :
    (Proc.read () k).Stops (m :: ins) e ↔ (k m).Stops ins e := Iff.rfl

@[simp] theorem stops_read_nil {k : CStr → Proc Unit ε R} : ¬ (Proc.read () k).Stops [] e := by
  simp [Stops, feed]

@[simp] theorem stops_halt : (Proc.halt e' r : Proc Unit ε R).Stops ins e ↔ e' = e := by simp [Stops, feed]

@[simp] theorem stops_attempt {x : Except ε α} {k : α → Proc Unit ε R} :
    (attempt r x k).Stops ins e ↔ x = .error e ∨ ∃ a, x = .ok a ∧ (k a).Stops ins e := by
  cases x <;> simp

theorem error_feed {p : Proc Unit ε R} : (p.feed ins).2.error = some e ↔ p.Stops ins e := by
  unfold Stops
  rcases p.feed ins with ⟨out, o⟩
  cases o <;> simp [Outcome.error]

end Stops

/-- Whatever the program reads, it does not stop with the error `e`. -/
def Avoids (e : ε) : Proc ι ε R → Prop
  | .ret _ => True
  | .write _ _ k => Avoids e k
  | .read _ k => ∀ m, Avoids e (k m)
  | .halt e' _ => e' ≠ e

end Proc

end NetProg.Lib
