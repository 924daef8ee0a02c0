import NetProg.Lib.CString

/-!
# Programs with an input and an output

A program goes from state to state; in each it writes some bytes, takes the next byte of its input or sees its end, or
exits.  `Yields act s w cs` says that from the state `s`, with `w` left of its input, it exits after the writes `cs`.
-/

namespace NetProg.Lib

variable {σ : Type}

/-- What a program does in a state, and the state behind it. -/
inductive Act (σ : Type) where
  | write (b : Byte) (l : List Byte) (next : σ)
  | get (next : Option Byte → σ)
  | exit

/-- With this input the program makes these writes and exits. -/
inductive Yields (act : σ → Act σ) : σ → List Byte → List (List Byte) → Prop where
  | exit {s w} : act s = .exit → Yields act s w []
  | write {s b l next w cs} : act s = .write b l next → Yields act next w cs → Yields act s w ((b :: l) :: cs)
  | get {s next b w cs} : act s = .get next → Yields act (next (some b)) w cs → Yields act s (b :: w) cs
  | eof {s next cs} : act s = .get next → Yields act (next none) [] cs → Yields act s [] cs

variable {act : σ → Act σ} {s : σ} {w : List Byte} {cs : List (List Byte)}

/-- No write is empty. -/
theorem Yields.ne_nil (h : Yields act s w cs) : ∀ c ∈ cs, c ≠ [] := by
  induction h with
  | exit _ => simp
  | write _ _ ih =>
    intro c hc
    rcases List.mem_cons.1 hc with rfl | hc
    · simp
    · exact ih c hc
  | get _ _ ih => exact ih
  | eof _ _ ih => exact ih

theorem Yields.of_write {b : Byte} {l : List Byte} {next : σ} (h : Yields act s w cs) (hs : act s = .write b l next) :
    ∃ cs', cs = (b :: l) :: cs' := by
  cases h with
  | exit hs' => rw [hs] at hs'; cases hs'
  | write hs' h =>
    rw [hs] at hs'
    cases hs'
    exact ⟨_, rfl⟩
  | get hs' h => rw [hs] at hs'; cases hs'
  | eof hs' h => rw [hs] at hs'; cases hs'

theorem Yields.of_exit (h : Yields act s w cs) (hs : act s = .exit) : cs = [] := by
  cases h with
  | exit _ => rfl
  | write hs' h => rw [hs] at hs'; cases hs'
  | get hs' h => rw [hs] at hs'; cases hs'
  | eof hs' h => rw [hs] at hs'; cases hs'

end NetProg.Lib
