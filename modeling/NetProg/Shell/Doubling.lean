import NetProg.Lib.CString
import NetProg.Lib.Confluence

/-!
# One output for two commands

`doubleMessageQueue` runs `a ## b , c`: the parent forks the first command and waits for it, reads what it has written
from the pipe, writes it to a second pipe and back to the first one, and lets the second command read the first pipe and
the third one the second pipe.  Pipes have a capacity `C`, all `execv` calls succeed, and the two commands read to the end.

* `Inv`: where the output is, at every call of the parent;
* `doubled`: every run ends, with both commands having read the output or with none of them started;
* `doubled_iff`: both read just the output if and only if it is not empty and fits the pipe and the buffer.
-/

namespace NetProg.Shell.Doubling

open NetProg.Lib

/-- The size of the buffer of the parent. -/
def MAX_BUF : ℕ := 10000

/-- The next call of the parent; it becomes the third command. -/
inductive Main where
  | fork
  | wait
  | read
  /-- `write(fd2[1], buf, num_b)`, with what has still to be written -/
  | write₂ (left : List Byte)
  /-- `write(fd[1], buf, num_b)` -/
  | write₁ (left : List Byte)
  | fork₂
  | dupIn
  | closeWrite₁
  | closeRead₁
  | closeWrite₂
  | wait₂
  | running
  | gone
  deriving DecidableEq

/-- The first command, with what it has still to write. -/
inductive First where
  | unborn
  | running (left : List Byte)
  | gone
  deriving DecidableEq

/-- The next call of the process that becomes the second command. -/
inductive Second where
  | unborn
  | dupIn
  | closeWrite₁
  | closeWrite₂
  | closeRead₂
  | running
  | gone
  deriving DecidableEq

/-- The processes, what is in the pipes and in the buffer, and what the last two commands have read. -/
structure State where
  main : Main
  first : First
  second : Second
  pipe₁ : List Byte
  pipe₂ : List Byte
  buf : List Byte
  fed₂ : List Byte
  fed₃ : List Byte

/-- The process that is the next to do something. -/
inductive Act where
  | main
  | first
  | second

def start : State := ⟨.fork, .unborn, .unborn, [], [], [], [], []⟩

/-- Somebody has the write end of the first pipe open: the parent and the second child until they close it, the first
command until it exits. -/
def State.open₁ (s : State) : Bool :=
  (match s.main with
    | .closeRead₁ | .closeWrite₂ | .wait₂ | .running | .gone => false
    | _ => true) ||
  (match s.first with
    | .running _ => true
    | _ => false) ||
  (match s.second with
    | .dupIn | .closeWrite₁ => true
    | _ => false)

/-- The write end of the second pipe, which is created when the first command is gone. -/
def State.open₂ (s : State) : Bool :=
  (match s.main with
    | .fork | .wait | .wait₂ | .running | .gone => false
    | _ => true) ||
  (match s.second with
    | .dupIn | .closeWrite₁ | .closeWrite₂ => true
    | _ => false)

def step (C : ℕ) (out : List Byte) (s : State) : Act → Option State
  | .main =>
    match s.main with
    | .fork => some { s with main := .wait, first := .running out }
    | .wait => if s.first = .gone then some { s with main := .read } else none
    -- the parent can write to the pipe itself, so that `read` does not return where it is empty
    | .read =>
      if s.pipe₁ = [] then none
      else some { s with
        main := .write₂ (s.pipe₁.take MAX_BUF)
        buf := s.pipe₁.take MAX_BUF
        pipe₁ := s.pipe₁.drop MAX_BUF }
    | .write₂ (b :: left) =>
      if s.pipe₂.length < C then some { s with main := .write₂ left, pipe₂ := s.pipe₂ ++ [b] } else none
    | .write₂ [] => some { s with main := .write₁ s.buf }
    | .write₁ (b :: left) =>
      if s.pipe₁.length < C then some { s with main := .write₁ left, pipe₁ := s.pipe₁ ++ [b] } else none
    | .write₁ [] => some { s with main := .fork₂ }
    | .fork₂ => some { s with main := .dupIn, second := .dupIn }
    | .dupIn => some { s with main := .closeWrite₁ }
    | .closeWrite₁ => some { s with main := .closeRead₁ }
    | .closeRead₁ => some { s with main := .closeWrite₂ }
    | .closeWrite₂ => some { s with main := .wait₂ }
    | .wait₂ => if s.second = .gone then some { s with main := .running } else none
    | .running =>
      match s.pipe₂ with
      | b :: q => some { s with pipe₂ := q, fed₃ := s.fed₃ ++ [b] }
      | [] => if s.open₂ then none else some { s with main := .gone }
    | .gone => none
  | .first =>
    match s.first with
    | .running (b :: left) =>
      if s.pipe₁.length < C then some { s with first := .running left, pipe₁ := s.pipe₁ ++ [b] } else none
    | .running [] => some { s with first := .gone }
    | _ => none
  | .second =>
    match s.second with
    | .unborn => none
    | .dupIn => some { s with second := .closeWrite₁ }
    | .closeWrite₁ => some { s with second := .closeWrite₂ }
    | .closeWrite₂ => some { s with second := .closeRead₂ }
    | .closeRead₂ => some { s with second := .running }
    | .running =>
      match s.pipe₁ with
      | b :: q => some { s with pipe₁ := q, fed₂ := s.fed₂ ++ [b] }
      | [] => if s.open₁ then none else some { s with second := .gone }
    | .gone => none

/-- What the second command finds in the first pipe: what the buffer had no room for stands before what it had. -/
def rotated (out : List Byte) : List Byte := out.drop MAX_BUF ++ out.take MAX_BUF

/-! ### Where the output is -/

/-- The first command has written part of it, or is gone. -/
def Writing (C : ℕ) (out : List Byte) (s : State) : First → Prop
  | .unborn => False
  | .running left => s.pipe₁ ++ left = out ∧ s.pipe₁.length ≤ C
  | .gone => s.pipe₁ = out ∧ out.length ≤ C

/-- The second command has not been forked. -/
structure Before (s : State) : Prop where
  second : s.second = .unborn
  fed₂ : s.fed₂ = []
  fed₃ : s.fed₃ = []

/-- The first command is gone, and left something that fits the pipe. -/
structure Written (C : ℕ) (out : List Byte) (s : State) : Prop where
  first : s.first = .gone
  nonempty : out ≠ []
  fits : out.length ≤ C

/-- The second command reads what is in the first pipe, to the end. -/
structure Reading (out : List Byte) (s : State) : Prop where
  born : s.second ≠ .unborn
  fed₂ : s.fed₂ ++ s.pipe₁ = rotated out
  gone : s.second = .gone → s.pipe₁ = []

/-- **Where the output is** when the parent is at a call. -/
def Inv (C : ℕ) (out : List Byte) (s : State) : Prop :=
  match s.main with
  | .fork => Before s ∧ s.first = .unborn ∧ s.pipe₁ = [] ∧ s.pipe₂ = []
  | .wait => Before s ∧ s.pipe₂ = [] ∧ Writing C out s s.first
  | .read => Before s ∧ s.pipe₂ = [] ∧ s.first = .gone ∧ s.pipe₁ = out ∧ out.length ≤ C
  | .write₂ left => Before s ∧ Written C out s ∧ s.pipe₁ = out.drop MAX_BUF ∧ s.buf = out.take MAX_BUF ∧
      s.pipe₂ ++ left = s.buf
  | .write₁ left => Before s ∧ Written C out s ∧ s.pipe₁ ++ left = rotated out ∧ s.pipe₂ = out.take MAX_BUF
  | .fork₂ => Before s ∧ Written C out s ∧ s.pipe₁ = rotated out ∧ s.pipe₂ = out.take MAX_BUF
  | .running => Written C out s ∧ Reading out s ∧ s.second = .gone ∧ s.fed₃ ++ s.pipe₂ = out.take MAX_BUF
  | .gone => Written C out s ∧ Reading out s ∧ s.second = .gone ∧ s.pipe₂ = [] ∧ s.fed₃ = out.take MAX_BUF
  | _ => Written C out s ∧ Reading out s ∧ s.pipe₂ = out.take MAX_BUF ∧ s.fed₃ = []

/-! ### What is left to be done -/

/-- At most, by the parent: `n` is the length of the output. -/
def Main.work (n m₂ : ℕ) : Main → ℕ
  | .fork => 6 * n + 40
  | .wait => 4 * n + 30
  | .read => 4 * n + 29
  | .write₂ left => 3 * n + 27 + left.length
  | .write₁ left => 2 * n + 25 + left.length
  | .fork₂ => 2 * n + 24
  | .dupIn => n + 13
  | .closeWrite₁ => n + 12
  | .closeRead₁ => n + 11
  | .closeWrite₂ => n + 10
  | .wait₂ => n + 9
  | .running => m₂ + 1
  | .gone => 0

def First.work : First → ℕ
  | .running left => left.length + 1
  | _ => 0

def Second.work (m₁ : ℕ) : Second → ℕ
  | .dupIn => m₁ + 5
  | .closeWrite₁ => m₁ + 4
  | .closeWrite₂ => m₁ + 3
  | .closeRead₂ => m₁ + 2
  | .running => m₁ + 1
  | _ => 0

def work (n : ℕ) (s : State) : ℕ :=
  s.main.work n s.pipe₂.length + s.first.work + s.second.work s.pipe₁.length

section Steps

variable {C : ℕ} {out : List Byte} {s t : State}

theorem length_rotated : (rotated out).length = out.length := by
  rw [rotated, List.length_append, List.length_drop, List.length_take]
  omega

theorem inv_start : Inv C out start := ⟨⟨rfl, rfl, rfl⟩, rfl, rfl, rfl⟩

/-- **A call of the parent.** -/
theorem inv_main (h : Inv C out s) (hst : step C out s .main = some t) :
    Inv C out t ∧ work out.length t < work out.length s := by
  obtain ⟨main, first, second, pipe₁, pipe₂, buf, fed₂, fed₃⟩ := s
  cases main with
  | fork =>
    obtain ⟨⟨rfl, rfl, rfl⟩, rfl, rfl, rfl⟩ := h
    cases hst
    refine ⟨⟨⟨rfl, rfl, rfl⟩, rfl, rfl, Nat.zero_le C⟩, ?_⟩
    simp only [work, Main.work, First.work, Second.work]
    omega
  | wait =>
    obtain ⟨hb, rfl, hw⟩ := h
    by_cases hg : first = .gone
    · subst hg
      cases hst
      refine ⟨⟨⟨hb.second, hb.fed₂, hb.fed₃⟩, rfl, rfl, hw⟩, ?_⟩
      simp only [work, Main.work]
      omega
    · simp [step, hg] at hst
  | read =>
    obtain ⟨⟨rfl, rfl, rfl⟩, rfl, rfl, rfl, hfits⟩ := h
    by_cases hne : pipe₁ = []
    · simp [step, hne] at hst
    · simp only [step, if_neg hne, Option.some.injEq] at hst
      subst hst
      refine ⟨⟨⟨rfl, rfl, rfl⟩, ⟨rfl, hne, hfits⟩, rfl, rfl, rfl⟩, ?_⟩
      simp only [work, Main.work, First.work, Second.work, List.length_take]
      omega
  | write₂ left =>
    obtain ⟨⟨rfl, rfl, rfl⟩, ⟨rfl, hne, hfits⟩, rfl, rfl, hleft⟩ := h
    cases left with
    | nil =>
      cases hst
      rw [List.append_nil] at hleft
      refine ⟨⟨⟨rfl, rfl, rfl⟩, ⟨rfl, hne, hfits⟩, rfl, hleft⟩, ?_⟩
      simp only [work, Main.work, First.work, Second.work, List.length_take, List.length_nil]
      omega
    | cons b left =>
      simp only [step, Option.ite_none_right_eq_some, Option.some.injEq] at hst
      obtain ⟨-, rfl⟩ := hst
      refine ⟨⟨⟨rfl, rfl, rfl⟩, ⟨rfl, hne, hfits⟩, rfl, rfl, (List.append_assoc ..).trans hleft⟩, ?_⟩
      simp only [work, Main.work, First.work, Second.work, List.length_cons]
      omega
  | write₁ left =>
    obtain ⟨⟨rfl, rfl, rfl⟩, ⟨rfl, hne, hfits⟩, hleft, rfl⟩ := h
    cases left with
    | nil =>
      cases hst
      rw [List.append_nil] at hleft
      refine ⟨⟨⟨rfl, rfl, rfl⟩, ⟨rfl, hne, hfits⟩, hleft, rfl⟩, ?_⟩
      simp only [work, Main.work, First.work, Second.work, List.length_nil]
      omega
    | cons b left =>
      simp only [step, Option.ite_none_right_eq_some, Option.some.injEq] at hst
      obtain ⟨-, rfl⟩ := hst
      refine ⟨⟨⟨rfl, rfl, rfl⟩, ⟨rfl, hne, hfits⟩, (List.append_assoc ..).trans hleft, rfl⟩, ?_⟩
      simp only [work, Main.work, First.work, Second.work, List.length_cons]
      omega
  | fork₂ =>
    obtain ⟨⟨rfl, rfl, rfl⟩, hw, rfl, rfl⟩ := h
    cases hst
    refine ⟨⟨⟨hw.first, hw.nonempty, hw.fits⟩, ⟨Second.noConfusion, rfl, Second.noConfusion⟩, rfl, rfl⟩, ?_⟩
    simp only [work, Main.work, Second.work, length_rotated]
    omega
  | dupIn | closeWrite₁ | closeRead₁ | closeWrite₂ =>
    obtain ⟨hw, hr, hp, hf⟩ := h
    cases hst
    refine ⟨⟨⟨hw.first, hw.nonempty, hw.fits⟩, ⟨hr.born, hr.fed₂, hr.gone⟩, hp, hf⟩, ?_⟩
    simp only [work, Main.work]
    omega
  | wait₂ =>
    obtain ⟨hw, hr, rfl, rfl⟩ := h
    simp only [step, Option.ite_none_right_eq_some, Option.some.injEq] at hst
    obtain ⟨hg, rfl⟩ := hst
    refine ⟨⟨⟨hw.first, hw.nonempty, hw.fits⟩, ⟨hr.born, hr.fed₂, hr.gone⟩, hg, rfl⟩, ?_⟩
    simp only [work, Main.work, List.length_take]
    omega
  | running =>
    obtain ⟨hw, hr, hg, hf⟩ := h
    cases pipe₂ with
    | nil =>
      simp only [step, Option.ite_none_left_eq_some, Option.some.injEq] at hst
      obtain ⟨-, rfl⟩ := hst
      refine ⟨⟨⟨hw.first, hw.nonempty, hw.fits⟩, ⟨hr.born, hr.fed₂, hr.gone⟩, hg, rfl, ?_⟩, ?_⟩
      · rwa [List.append_nil] at hf
      · simp only [work, Main.work]
        omega
    | cons b q =>
      cases hst
      refine ⟨⟨⟨hw.first, hw.nonempty, hw.fits⟩, ⟨hr.born, hr.fed₂, hr.gone⟩, hg, (List.append_assoc ..).trans hf⟩, ?_⟩
      simp only [work, Main.work, List.length_cons]
      omega
  | gone => cases hst

/-- **The first command** writes, or exits. -/
theorem inv_first (h : Inv C out s) (hst : step C out s .first = some t) :
    Inv C out t ∧ work out.length t < work out.length s := by
  obtain ⟨main, first, second, pipe₁, pipe₂, buf, fed₂, fed₃⟩ := s
  cases first with
  | unborn => cases hst
  | gone => cases hst
  | running left =>
    -- the parent waits for it
    obtain rfl : main = .wait := by
      cases main with
      | wait => rfl
      | fork => cases h.2.1
      | read => cases h.2.2.1
      | write₂ | write₁ | fork₂ => cases h.2.1.first
      | _ => cases h.1.first
    obtain ⟨⟨rfl, rfl, rfl⟩, rfl, hw, hle⟩ := h
    cases left with
    | nil =>
      cases hst
      rw [List.append_nil] at hw
      refine ⟨⟨⟨rfl, rfl, rfl⟩, rfl, hw, hw ▸ hle⟩, ?_⟩
      simp only [work, First.work]
      omega
    | cons b left =>
      simp only [step, Option.ite_none_right_eq_some, Option.some.injEq] at hst
      obtain ⟨hroom, rfl⟩ := hst
      refine ⟨⟨⟨rfl, rfl, rfl⟩, rfl, (List.append_assoc ..).trans hw, ?_⟩, ?_⟩
      · show (pipe₁ ++ [b]).length ≤ C
        rw [List.length_append]
        exact hroom
      · simp only [work, First.work, Second.work, List.length_cons]
        omega

/-- The parent has forked the second command and not seen it exit. -/
def Main.Forked₂ : Main → Prop
  | .dupIn | .closeWrite₁ | .closeRead₁ | .closeWrite₂ | .wait₂ => True
  | _ => False

theorem inv_iff (h : s.main.Forked₂) :
    Inv C out s ↔ Written C out s ∧ Reading out s ∧ s.pipe₂ = out.take MAX_BUF ∧ s.fed₃ = [] := by
  unfold Inv
  cases hm : s.main with
  | dupIn | closeWrite₁ | closeRead₁ | closeWrite₂ | wait₂ => rfl
  | _ =>
    rw [hm] at h
    cases h

theorem Inv.forked₂ (h : Inv C out s) (hborn : s.second ≠ .unborn) (hgone : s.second ≠ .gone) : s.main.Forked₂ := by
  unfold Inv at h
  cases hm : s.main with
  | dupIn | closeWrite₁ | closeRead₁ | closeWrite₂ | wait₂ => trivial
  | fork | wait | read | write₂ | write₁ | fork₂ =>
    rw [hm] at h
    exact absurd h.1.second hborn
  | running | gone =>
    rw [hm] at h
    exact absurd h.2.2.1 hgone

/-- **The second command** reads, or exits. -/
theorem inv_second (h : Inv C out s) (hst : step C out s .second = some t) :
    Inv C out t ∧ work out.length t < work out.length s := by
  have hborn : s.second ≠ .unborn := by
    intro he
    simp [step, he] at hst
  have hgone : s.second ≠ .gone := by
    intro he
    simp [step, he] at hst
  have hm := h.forked₂ hborn hgone
  obtain ⟨⟨hf, hne, hfits⟩, hr, hp, hf₃⟩ := (inv_iff hm).1 h
  obtain ⟨main, first, second, pipe₁, pipe₂, buf, fed₂, fed₃⟩ := s
  cases second with
  | unborn => exact absurd rfl hborn
  | gone => exact absurd rfl hgone
  | dupIn | closeWrite₁ | closeWrite₂ | closeRead₂ =>
    cases hst
    refine ⟨(inv_iff (by exact hm)).2 ⟨⟨hf, hne, hfits⟩, ⟨Second.noConfusion, hr.fed₂, Second.noConfusion⟩, hp, hf₃⟩, ?_⟩
    simp only [work, Second.work]
    omega
  | running =>
    cases pipe₁ with
    | nil =>
      simp only [step, Option.ite_none_left_eq_some, Option.some.injEq] at hst
      obtain ⟨-, rfl⟩ := hst
      refine ⟨(inv_iff (by exact hm)).2 ⟨⟨hf, hne, hfits⟩, ⟨Second.noConfusion, hr.fed₂, fun _ => rfl⟩, hp, hf₃⟩, ?_⟩
      simp only [work, Second.work]
      omega
    | cons b q =>
      cases hst
      refine ⟨(inv_iff (by exact hm)).2 ⟨⟨hf, hne, hfits⟩, ⟨Second.noConfusion, (List.append_assoc ..).trans hr.fed₂,
        Second.noConfusion⟩, hp, hf₃⟩, ?_⟩
      simp only [work, Second.work, List.length_cons]
      omega

theorem progressing : Progressing (step C out) (Inv C out) (work out.length) where
  keeps s a t h hst := by
    cases a with
    | main => exact (inv_main h hst).1
    | first => exact (inv_first h hst).1
    | second => exact (inv_second h hst).1
  less s a t h hst := by
    cases a with
    | main => exact (inv_main h hst).2
    | first => exact (inv_first h hst).2
    | second => exact (inv_second h hst).2

/-! ### Where runs end -/

/-- Both commands have read to the end. -/
structure Doubled (out : List Byte) (s : State) : Prop where
  main : s.main = .gone
  second : s.second = .gone
  fed₂ : s.fed₂ = rotated out
  fed₃ : s.fed₃ = out.take MAX_BUF

/-- The second command has not been forked, so that nothing reads the output. -/
structure Stalled (s : State) : Prop where
  main : s.main = .wait ∨ s.main = .read
  second : s.second = .unborn
  fed₂ : s.fed₂ = []
  fed₃ : s.fed₃ = []

/-- Where nothing is possible, everything has been read, or the first command has written too much or nothing. -/
theorem Inv.ended (h : Inv C out s) (hend : Ended (step C out) s) :
    if out ≠ [] ∧ out.length ≤ C then Doubled out s else Stalled s := by
  have hmain := hend .main
  have hfirst := hend .first
  have hsecond := hend .second
  clear hend
  obtain ⟨main, first, second, pipe₁, pipe₂, buf, fed₂, fed₃⟩ := s
  cases main with
  | fork => cases hmain
  | wait =>
    obtain ⟨⟨rfl, rfl, rfl⟩, rfl, hw⟩ := h
    cases first with
    | unborn => exact absurd hw id
    | gone => cases hmain
    | running left =>
      cases left with
      | nil => cases hfirst
      | cons b left =>
        -- the pipe is full
        simp only [step, ite_eq_right_iff, reduceCtorEq, imp_false, not_lt] at hfirst
        have hlen := congrArg List.length hw.1
        rw [List.length_append, List.length_cons] at hlen
        rw [if_neg]
        · exact ⟨.inl rfl, rfl, rfl, rfl⟩
        · rintro ⟨-, hle⟩
          dsimp only at hlen
          omega
  | read =>
    obtain ⟨⟨rfl, rfl, rfl⟩, rfl, rfl, rfl, hfits⟩ := h
    cases pipe₁ with
    | nil =>
      rw [if_neg]
      · exact ⟨.inr rfl, rfl, rfl, rfl⟩
      · exact fun hne => hne.1 rfl
    | cons b q => cases hmain
  | write₂ left =>
    obtain ⟨⟨rfl, rfl, rfl⟩, ⟨rfl, hne, hfits⟩, rfl, rfl, hleft⟩ := h
    cases left with
    | nil => cases hmain
    | cons b left =>
      simp only [step, ite_eq_right_iff, reduceCtorEq, imp_false, not_lt] at hmain
      have hlen := congrArg List.length hleft
      rw [List.length_append, List.length_cons, List.length_take] at hlen
      dsimp only at hlen
      omega
  | write₁ left =>
    obtain ⟨⟨rfl, rfl, rfl⟩, ⟨rfl, hne, hfits⟩, hleft, rfl⟩ := h
    cases left with
    | nil => cases hmain
    | cons b left =>
      simp only [step, ite_eq_right_iff, reduceCtorEq, imp_false, not_lt] at hmain
      have hlen := congrArg List.length hleft
      rw [List.length_append, List.length_cons, length_rotated] at hlen
      dsimp only at hlen
      omega
  | fork₂ | dupIn | closeWrite₁ | closeRead₁ | closeWrite₂ => cases hmain
  | wait₂ =>
    obtain ⟨hw, hr, rfl, rfl⟩ := h
    cases second with
    | unborn => exact absurd rfl hr.born
    | gone => cases hmain
    | dupIn | closeWrite₁ | closeWrite₂ | closeRead₂ => cases hsecond
    | running =>
      cases pipe₁ with
      | cons b q => cases hsecond
      | nil =>
        obtain rfl : first = .gone := hw.first
        cases hsecond
  | running =>
    obtain ⟨hw, hr, rfl, hf⟩ := h
    cases pipe₂ with
    | nil => cases hmain
    | cons b q => cases hmain
  | gone =>
    obtain ⟨⟨rfl, hne, hfits⟩, hr, rfl, rfl, hf⟩ := h
    rw [if_pos ⟨hne, hfits⟩]
    have hfed := hr.fed₂
    rw [hr.gone rfl, List.append_nil] at hfed
    exact ⟨rfl, rfl, hfed, hf⟩

end Steps

variable (C : ℕ) (out : List Byte)

/-- **Every run ends**: both commands have read to the end where the first one has written something that fits the pipe,
and the second one is never started where it has not. -/
theorem doubled : AlwaysEnds (step C out) start fun s =>
    if out ≠ [] ∧ out.length ≤ C then Doubled out s else Stalled s :=
  progressing.alwaysEnds inv_start fun _ h hend => h.ended hend

/-- **Both commands read the output**, in every run, exactly if it is not empty and fits the pipe and the buffer. -/
theorem doubled_iff : AlwaysEnds (step C out) start (fun s => s.main = .gone ∧ s.fed₂ = out ∧ s.fed₃ = out) ↔
    out ≠ [] ∧ out.length ≤ C ∧ out.length ≤ MAX_BUF := by
  constructor
  · intro h
    obtain ⟨as, t, hrun, hend, hgone, -, hfed⟩ := h.exists_end
    have hinv := hrun.inv (Inv C out) inv_start fun _ _ _ hs _ hst => progressing.keeps _ _ _ hs hst
    have hq := hinv.ended hend
    split at hq
    · next hout =>
      refine ⟨hout.1, hout.2, ?_⟩
      rw [hq.fed₃] at hfed
      have hlen := congrArg List.length hfed
      rw [List.length_take] at hlen
      omega
    · rcases hq.main with hm | hm <;> rw [hgone] at hm <;> cases hm
  · rintro ⟨hne, hfits, hbuf⟩
    refine progressing.alwaysEnds inv_start fun t ht hend => ?_
    have hq := ht.ended hend
    rw [if_pos ⟨hne, hfits⟩] at hq
    refine ⟨hq.main, ?_, ?_⟩
    · rw [hq.fed₂, rotated, List.drop_eq_nil_of_le hbuf, List.take_of_length_le hbuf, List.nil_append]
    · rw [hq.fed₃, List.take_of_length_le hbuf]

end NetProg.Shell.Doubling
