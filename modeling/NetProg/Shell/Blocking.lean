import NetProg.Lib.Confluence
import Mathlib.Data.Nat.Find
import Mathlib.Logic.Function.Basic

/-!
# The pipes of a pipeline

The parent of `pipecommand` and its stages, with pipes of a capacity `C` between them.  The parent forks one stage after
the other and waits for each before it forks the next; a stage writes to its pipe as long as there is room, reads the pipe
before it to the end, and is gone then.  Only the number of bytes in a pipe is kept.

`never_stuck_iff`: no stage is ever stuck at its pipe if and only if what each stage but the last one writes fits the pipe
behind it, since whoever would read it has not been forked yet.
-/

namespace NetProg.Shell

open NetProg.Lib

/-- `countofpipe`, the capacity of a pipe, and how many bytes each stage writes. -/
structure Pipeline where
  countofpipe : ℕ
  capacity : ℕ
  output : ℕ → ℕ

/-- Where the parent stands in round `i`: before `fork`, before it closes the pipe that stage `i` reads, in `wait`, or
behind the loop. -/
inductive Parent where
  | forking (i : ℕ)
  | closing (i : ℕ)
  | waiting (i : ℕ)
  | done
  deriving DecidableEq

/-- A stage that has not been forked, that has still to write so many bytes, or that has exited. -/
inductive Stage where
  | absent
  | running (left : ℕ)
  | gone
  deriving DecidableEq

/-- The processes, and the bytes in the pipe behind each stage. -/
@[ext] structure Flow where
  parent : Parent
  stage : ℕ → Stage
  pipe : ℕ → ℕ

/-- The next thing that the parent does, and what a stage can do. -/
inductive Move where
  | parent
  | write (i : ℕ)
  | read (i : ℕ)
  | exit (i : ℕ)

namespace Pipeline

/-- `pipecommand` begins. -/
def start : Flow where
  parent := .forking 0
  stage _ := .absent
  pipe _ := 0

/-- The parent has closed the pipe `j`, of which stage `j+1` is the reader. -/
def Closed (s : Flow) (j : ℕ) : Prop :=
  match s.parent with
  | .forking i => j + 1 < i
  | .closing i => j + 1 < i
  | .waiting i => j + 1 ≤ i
  | .done => True

instance (s : Flow) (j : ℕ) : Decidable (Closed s j) := by
  unfold Closed
  split <;> infer_instance

/-- Stage `i` has read its input to the end: its pipe is empty, and nobody is left to write to it.  The first stage does
not read a pipe. -/
def AtEnd (s : Flow) : ℕ → Prop
  | 0 => True
  | j + 1 => s.pipe j = 0 ∧ Closed s j ∧ s.stage j = .gone

instance (s : Flow) (i : ℕ) : Decidable (AtEnd s i) := by
  unfold AtEnd
  split <;> infer_instance

def step (p : Pipeline) (s : Flow) : Move → Option Flow
  | .parent =>
    match s.parent with
    | .forking i => some { s with parent := .closing i, stage := Function.update s.stage i (.running (p.output i)) }
    | .closing i => some { s with parent := .waiting i }
    | .waiting i =>
      if s.stage i = .gone then some { s with parent := if i < p.countofpipe then .forking (i + 1) else .done } else none
    | .done => none
  | .write i =>
    match s.stage i with
    | .running (left + 1) =>
      if i = p.countofpipe then some { s with stage := Function.update s.stage i (.running left) }
      else if s.pipe i < p.capacity then some { s with
        stage := Function.update s.stage i (.running left)
        pipe := Function.update s.pipe i (s.pipe i + 1) }
      else none
    | _ => none
  | .read i =>
    match i, s.stage i with
    | j + 1, .running _ =>
      if 0 < s.pipe j then some { s with pipe := Function.update s.pipe j (s.pipe j - 1) } else none
    | _, _ => none
  | .exit i =>
    if s.stage i = .running 0 ∧ AtEnd s i then some { s with stage := Function.update s.stage i .gone } else none

/-- The parent waits for a stage whose pipe is full although it has more to write, and the stage that would read it has
not been forked. -/
def Stuck (p : Pipeline) (s : Flow) : Prop :=
  ∃ i left, i < p.countofpipe ∧ s.parent = .waiting i ∧ s.stage i = .running (left + 1) ∧ p.capacity ≤ s.pipe i ∧
    s.stage (i + 1) = .absent

variable {p : Pipeline} {s t : Flow} {a : Move}

/-- The things that can happen. -/
theorem step_cases (h : p.step s a = some t) :
    (∃ i, s.parent = .forking i ∧
      t = { s with parent := .closing i, stage := Function.update s.stage i (.running (p.output i)) }) ∨
    (∃ i, s.parent = .closing i ∧ t = { s with parent := .waiting i }) ∨
    (∃ i, s.parent = .waiting i ∧ s.stage i = .gone ∧
      t = { s with parent := if i < p.countofpipe then .forking (i + 1) else .done }) ∨
    (∃ left, s.stage p.countofpipe = .running (left + 1) ∧
      t = { s with stage := Function.update s.stage p.countofpipe (.running left) }) ∨
    (∃ i left, i ≠ p.countofpipe ∧ s.stage i = .running (left + 1) ∧ s.pipe i < p.capacity ∧ t = { s with
      stage := Function.update s.stage i (.running left)
      pipe := Function.update s.pipe i (s.pipe i + 1) }) ∨
    (∃ j left, s.stage (j + 1) = .running left ∧ 0 < s.pipe j ∧
      t = { s with pipe := Function.update s.pipe j (s.pipe j - 1) }) ∨
    (∃ i, s.stage i = .running 0 ∧ AtEnd s i ∧ t = { s with stage := Function.update s.stage i .gone }) := by
  cases a with
  | parent =>
    simp only [step] at h
    split at h
    · next i hi => exact .inl ⟨i, hi, (Option.some.inj h).symm⟩
    · next i hi => exact .inr (.inl ⟨i, hi, (Option.some.inj h).symm⟩)
    · next i hi =>
      obtain ⟨hgone, ht⟩ := Option.ite_none_right_eq_some.1 h
      exact .inr (.inr (.inl ⟨i, hi, hgone, (Option.some.inj ht).symm⟩))
    · cases h
  | write i =>
    simp only [step] at h
    split at h
    · next left hl =>
      split at h
      · next hi =>
        subst hi
        exact .inr (.inr (.inr (.inl ⟨left, hl, (Option.some.inj h).symm⟩)))
      · next hi =>
        obtain ⟨hroom, ht⟩ := Option.ite_none_right_eq_some.1 h
        exact .inr (.inr (.inr (.inr (.inl ⟨i, left, hi, hl, hroom, (Option.some.inj ht).symm⟩))))
    · cases h
  | read i =>
    simp only [step] at h
    split at h
    · next j left hl =>
      obtain ⟨hpos, ht⟩ := Option.ite_none_right_eq_some.1 h
      exact .inr (.inr (.inr (.inr (.inr (.inl ⟨j, left, hl, hpos, (Option.some.inj ht).symm⟩)))))
    · cases h
  | exit i =>
    obtain ⟨⟨hl, hend⟩, ht⟩ := Option.ite_none_right_eq_some.1 h
    exact .inr (.inr (.inr (.inr (.inr (.inr ⟨i, hl, hend, (Option.some.inj ht).symm⟩)))))

/-! ### What is written stays in the pipe -/

/-- No stage ahead of the parent has been forked. -/
def Ahead (stage : ℕ → Stage) : Parent → Prop
  | .forking i => ∀ j, i ≤ j → stage j = .absent
  | .closing i => ∀ j, i < j → stage j = .absent
  | .waiting i => ∀ j, i < j → stage j = .absent
  | .done => True

/-- No stage ahead has been forked, and what a stage has written is in its pipe until the next one is. -/
structure Inv (p : Pipeline) (s : Flow) : Prop where
  ahead : Ahead s.stage s.parent
  quiet : ∀ i, s.stage i = .absent → s.pipe i = 0
  kept : ∀ i left, i ≠ p.countofpipe → s.stage i = .running left → s.stage (i + 1) = .absent →
    s.pipe i + left = p.output i

theorem inv_start : p.Inv start where
  ahead _ _ := rfl
  quiet _ _ := rfl
  kept i left _ h _ := by cases h

/-- A stage that has been forked remains so. -/
theorem update_eq_absent {f : ℕ → Stage} {i j : ℕ} {y : Stage} (hi : f i ≠ .absent) (hy : y ≠ .absent) :
    Function.update f i y j = .absent ↔ f j = .absent := by
  by_cases hj : j = i
  · subst hj
    simp [hi, hy]
  · simp [hj]

theorem Ahead.update {f : ℕ → Stage} {i : ℕ} {y : Stage} {r : Parent} (h : Ahead f r) (hi : f i ≠ .absent)
    (hy : y ≠ .absent) : Ahead (Function.update f i y) r := by
  cases r with
  | forking k => exact fun j hj => (update_eq_absent hi hy).2 (h j hj)
  | closing k => exact fun j hj => (update_eq_absent hi hy).2 (h j hj)
  | waiting k => exact fun j hj => (update_eq_absent hi hy).2 (h j hj)
  | done => trivial

/-- A fork: the pipe of the new stage is still empty. -/
theorem Inv.fork {i : ℕ} (h : p.Inv s) (hi : s.parent = .forking i) :
    p.Inv { s with parent := .closing i, stage := Function.update s.stage i (.running (p.output i)) } := by
  have hahead : ∀ j, i ≤ j → s.stage j = .absent := by
    have := h.ahead
    rwa [hi] at this
  constructor
  · intro j hj
    have hne : j ≠ i := by omega
    simpa [hne] using hahead j (by omega)
  · intro j hj
    by_cases hji : j = i
    · subst hji
      simp at hj
    · exact h.quiet j (by simpa [hji] using hj)
  · intro j left hj hl habs
    by_cases hji : j = i
    · subst hji
      have hempty := h.quiet j (hahead j (Nat.le_refl j))
      simp only [Function.update_self, Stage.running.injEq] at hl
      simp only [hempty, ← hl]
      omega
    · by_cases hji' : j + 1 = i
      · subst hji'
        simp at habs
      · exact h.kept j left hj (by simpa [hji] using hl) (by simpa [hji'] using habs)

/-- A byte that is written is in the pipe, since there is nobody to read it. -/
theorem Inv.write {i left : ℕ} (h : p.Inv s) (hl : s.stage i = .running (left + 1)) : p.Inv { s with
    stage := Function.update s.stage i (.running left)
    pipe := Function.update s.pipe i (s.pipe i + 1) } := by
  have hne : s.stage i ≠ .absent := by simp [hl]
  refine ⟨h.ahead.update hne (by simp), fun j hj => ?_, fun j left' hj hl' habs => ?_⟩
  · have habs := (update_eq_absent hne (by simp)).1 hj
    have hji : j ≠ i := by
      rintro rfl
      exact hne habs
    simpa [hji] using h.quiet j habs
  · have hnext := (update_eq_absent hne (by simp)).1 habs
    by_cases hji : j = i
    · subst hji
      have hsum := h.kept j (left + 1) hj hl hnext
      simp only [Function.update_self, Stage.running.injEq] at hl' ⊢
      omega
    · simpa [hji] using h.kept j left' hj (by simpa [hji] using hl') hnext

/-- The last stage writes to the terminal. -/
theorem Inv.print {left : ℕ} (h : p.Inv s) (hl : s.stage p.countofpipe = .running (left + 1)) :
    p.Inv { s with stage := Function.update s.stage p.countofpipe (.running left) } := by
  have hne : s.stage p.countofpipe ≠ .absent := by simp [hl]
  refine ⟨h.ahead.update hne (by simp), fun j hj => ?_, fun j left' hj hl' habs => ?_⟩
  · exact h.quiet j ((update_eq_absent hne (by simp)).1 hj)
  · exact h.kept j left' hj (by simpa [hj] using hl') ((update_eq_absent hne (by simp)).1 habs)

/-- A byte is read by a stage that has been forked. -/
theorem Inv.read {j left : ℕ} (h : p.Inv s) (hl : s.stage (j + 1) = .running left) :
    p.Inv { s with pipe := Function.update s.pipe j (s.pipe j - 1) } := by
  refine ⟨h.ahead, fun k hk => ?_, fun k left' hk hl' habs => ?_⟩
  · by_cases hkj : k = j
    · subst hkj
      simp [h.quiet k hk]
    · simpa [hkj] using h.quiet k hk
  · have hkj : k ≠ j := by
      rintro rfl
      have : s.stage (k + 1) = .absent := habs
      rw [hl] at this
      cases this
    simpa [hkj] using h.kept k left' hk hl' habs

/-- A stage exits. -/
theorem Inv.exit {i : ℕ} (h : p.Inv s) (hl : s.stage i = .running 0) :
    p.Inv { s with stage := Function.update s.stage i .gone } := by
  have hne : s.stage i ≠ .absent := by simp [hl]
  refine ⟨h.ahead.update hne (by simp), fun j hj => ?_, fun j left hj hl' habs => ?_⟩
  · exact h.quiet j ((update_eq_absent hne (by simp)).1 hj)
  · by_cases hji : j = i
    · subst hji
      simp at hl'
    · exact h.kept j left hj (by simpa [hji] using hl') ((update_eq_absent hne (by simp)).1 habs)

theorem Inv.step (h : p.Inv s) (hst : p.step s a = some t) : p.Inv t := by
  have hahead := h.ahead
  rcases step_cases hst with ⟨i, hi, rfl⟩ | ⟨i, hi, rfl⟩ | ⟨i, hi, -, rfl⟩ | ⟨left, hl, rfl⟩ |
    ⟨i, left, hi, hl, -, rfl⟩ | ⟨j, left, hl, hpos, rfl⟩ | ⟨i, hl, -, rfl⟩
  · exact h.fork hi
  · rw [hi] at hahead
    exact ⟨hahead, h.quiet, h.kept⟩
  · rw [hi] at hahead
    refine ⟨?_, h.quiet, h.kept⟩
    show Ahead s.stage (if i < p.countofpipe then .forking (i + 1) else .done)
    split
    · exact hahead
    · trivial
  · exact h.print hl
  · exact h.write hl
  · exact h.read hl
  · exact h.exit hl

/-- A pipe that what is written fits is not full before all of it is. -/
theorem Inv.not_stuck (h : p.Inv s) (hfits : ∀ i < p.countofpipe, p.output i ≤ p.capacity) : ¬ p.Stuck s := by
  rintro ⟨i, left, hi, -, hl, hfull, habs⟩
  have hsum := h.kept i (left + 1) (by omega) hl habs
  have := hfits i hi
  omega

/-- **Stuck for good**: the stage cannot write, and the parent does not fork a reader. -/
theorem Stuck.step (h : p.Stuck s) (hst : p.step s a = some t) : p.Stuck t := by
  obtain ⟨i, left, hi, hparent, hl, hfull, habs⟩ := h
  -- another stage than these two
  have hother {j k : ℕ} (hj : s.stage j = .running k) (hji : j ≠ i) (y : Stage) :
      Function.update s.stage j y i = .running (left + 1) ∧ Function.update s.stage j y (i + 1) = .absent := by
    have hji' : i + 1 ≠ j := by
      rintro rfl
      rw [habs] at hj
      cases hj
    exact ⟨by rw [Function.update_of_ne hji.symm, hl], by rw [Function.update_of_ne hji', habs]⟩
  rcases step_cases hst with ⟨k, hk, rfl⟩ | ⟨k, hk, rfl⟩ | ⟨k, hk, hgone, rfl⟩ | ⟨k, hk, rfl⟩ | ⟨j, k, hj, hk, hroom, rfl⟩ |
    ⟨j, k, hk, -, rfl⟩ | ⟨j, hk, -, rfl⟩
  · rw [hparent] at hk
    cases hk
  · rw [hparent] at hk
    cases hk
  · rw [hparent] at hk
    cases hk
    rw [hl] at hgone
    cases hgone
  · obtain ⟨h₁, h₂⟩ := hother hk (by omega) (.running k)
    exact ⟨i, left, hi, hparent, h₁, hfull, h₂⟩
  · have hji : j ≠ i := by
      rintro rfl
      omega
    obtain ⟨h₁, h₂⟩ := hother hk hji (.running k)
    exact ⟨i, left, hi, hparent, h₁, by simpa [Ne.symm hji] using hfull, h₂⟩
  · have hji : j ≠ i := by
      rintro rfl
      rw [habs] at hk
      cases hk
    exact ⟨i, left, hi, hparent, hl, by simpa [Ne.symm hji] using hfull, habs⟩
  · have hji : j ≠ i := by
      rintro rfl
      rw [hl] at hk
      cases hk
    obtain ⟨h₁, h₂⟩ := hother hk hji .gone
    exact ⟨i, left, hi, hparent, h₁, hfull, h₂⟩

/-! ### One stage after the other -/

/-- The parent is about to fork stage `i`, behind stages that have exited. -/
def ready (p : Pipeline) (i : ℕ) : Flow where
  parent := .forking i
  stage j := if j < i then .gone else .absent
  pipe j := if j + 1 = i then p.output j else 0

/-- The parent waits for stage `i`, with `q` bytes behind and `r` bytes before it. -/
def busy (i left q r : ℕ) : Flow where
  parent := .waiting i
  stage j := if j < i then .gone else if j = i then .running left else .absent
  pipe j := if j + 1 = i then r else if j = i then q else 0

variable {i left q r : ℕ}

theorem reaches_busy : Reaches p.step (p.ready i) (busy i (p.output i) 0 (p.output (i - 1))) := by
  let u : Flow := { p.ready i with
    parent := .closing i
    stage := Function.update (p.ready i).stage i (.running (p.output i)) }
  have hfork : p.step (p.ready i) .parent = some u := rfl
  have hclose : p.step u .parent = some (busy i (p.output i) 0 (p.output (i - 1))) := by
    refine congrArg some (Flow.ext rfl (funext fun j => ?_) (funext fun j => ?_))
    · by_cases hj : j = i
      · subst hj
        simp [u, busy]
      · simp [u, busy, ready, hj]
    · simp only [u, busy, ready]
      split
      · next h =>
        rw [← h]
        rfl
      · split <;> rfl
  exact (Reaches.single hfork).trans (Reaches.single hclose)

theorem reaches_write (hi : i < p.countofpipe) (hroom : q < p.capacity) :
    Reaches p.step (busy i (left + 1) q r) (busy i left (q + 1) r) := by
  have hl : (busy i (left + 1) q r).stage i = .running (left + 1) := by simp [busy]
  have hq : (busy i (left + 1) q r).pipe i = q := by simp [busy]
  refine Reaches.single (a := Move.write i) ?_
  simp only [step, hl, if_neg (Nat.ne_of_lt hi), hq, if_pos hroom]
  refine congrArg some (Flow.ext rfl (funext fun j => ?_) (funext fun j => ?_))
  · by_cases hj : j = i
    · subst hj
      simp [busy]
    · simp [busy, hj]
  · by_cases hj : j = i
    · subst hj
      simp [busy]
    · simp [busy, hj]

theorem reaches_writes (left r : ℕ) {n : ℕ} (hi : i < p.countofpipe) (hroom : q + n ≤ p.capacity) :
    Reaches p.step (busy i (left + n) q r) (busy i left (q + n) r) := by
  induction n generalizing q with
  | zero => exact Reaches.refl
  | succ n ih =>
    have hrest := ih (q := q + 1) (by omega)
    rw [show q + 1 + n = q + (n + 1) by omega] at hrest
    exact (reaches_write hi (by omega)).trans hrest

theorem reaches_read : Reaches p.step (busy (i + 1) left q (r + 1)) (busy (i + 1) left q r) := by
  have hl : (busy (i + 1) left q (r + 1)).stage (i + 1) = .running left := by simp [busy]
  have hr : (busy (i + 1) left q (r + 1)).pipe i = r + 1 := by simp [busy]
  refine Reaches.single (a := Move.read (i + 1)) ?_
  simp only [step, hl, hr, if_pos (Nat.succ_pos r)]
  refine congrArg some (Flow.ext rfl rfl (funext fun j => ?_))
  by_cases hj : j = i
  · subst hj
    simp [busy]
  · simp [busy, hj]

theorem reaches_reads : Reaches p.step (busy (i + 1) left q r) (busy (i + 1) left q 0) := by
  induction r with
  | zero => exact Reaches.refl
  | succ r ih => exact reaches_read.trans ih

/-- A stage that has written everything and read to the end exits, and the next one is forked. -/
theorem reaches_next (hi : i < p.countofpipe) (hr : i ≠ 0 → r = 0) :
    Reaches p.step (busy i 0 (p.output i) r) (p.ready (i + 1)) := by
  let u : Flow := { busy i 0 (p.output i) r with stage := Function.update (busy i 0 (p.output i) r).stage i .gone }
  have hend : AtEnd (busy i 0 (p.output i) r) i := by
    cases i with
    | zero => trivial
    | succ i =>
      refine ⟨?_, ?_, ?_⟩
      · simp [busy, hr]
      · simp [Closed, busy]
      · simp [busy]
  have hexit : p.step (busy i 0 (p.output i) r) (.exit i) = some u := if_pos ⟨by simp [busy], hend⟩
  have hwait : p.step u .parent = some (p.ready (i + 1)) := by
    have hgone : u.stage i = .gone := Function.update_self _ _ _
    simp only [step, show u.parent = .waiting i from rfl, if_pos hgone, if_pos hi]
    refine congrArg some (Flow.ext rfl (funext fun j => ?_) (funext fun j => ?_))
    · by_cases hj : j = i
      · subst hj
        simp [u, ready]
      · simp only [u, busy, ready, Function.update_of_ne hj, if_neg hj]
        by_cases hlt : j < i
        · rw [if_pos hlt, if_pos (Nat.lt_succ_of_lt hlt)]
        · rw [if_neg hlt, if_neg (by omega)]
    · by_cases hj : j = i
      · subst hj
        simp [u, busy, ready]
      · by_cases hji : j + 1 = i
        · simp [u, busy, ready, hj, hji, hr (by omega)]
        · simp [u, busy, ready, hj, hji]
  exact (Reaches.single hexit).trans (Reaches.single hwait)

/-- A round of the loop. -/
theorem reaches_round (hi : i < p.countofpipe) (hfits : p.output i ≤ p.capacity) :
    Reaches p.step (p.ready i) (p.ready (i + 1)) := by
  have hwrites := reaches_writes (p := p) (q := 0) (n := p.output i) 0 (p.output (i - 1)) hi (by omega)
  rw [Nat.zero_add] at hwrites
  refine reaches_busy.trans (hwrites.trans ?_)
  cases i with
  | zero => exact reaches_next hi (by simp)
  | succ i => exact reaches_reads.trans (reaches_next hi fun _ => rfl)

/-- The parent gets to each stage behind ones that fit their pipes. -/
theorem reaches_ready (hi : i ≤ p.countofpipe) (hfits : ∀ j < i, p.output j ≤ p.capacity) :
    Reaches p.step start (p.ready i) := by
  induction i with
  | zero => exact Reaches.refl
  | succ i ih =>
    have hbefore := ih (by omega) fun j hj => hfits j (by omega)
    exact hbefore.trans (reaches_round (by omega) (hfits i (by omega)))

/-- A stage that does not fit its pipe fills it. -/
theorem reaches_stuck (hi : i < p.countofpipe) (hlt : p.capacity < p.output i) :
    ∃ s, Reaches p.step (p.ready i) s ∧ p.Stuck s := by
  obtain ⟨left, hleft⟩ : ∃ left, p.output i = left + 1 + p.capacity := ⟨p.output i - p.capacity - 1, by omega⟩
  refine ⟨busy i (left + 1) p.capacity (p.output (i - 1)), ?_, i, left, hi, rfl, ?_, ?_, ?_⟩
  · have hwrites := reaches_writes (p := p) (q := 0) (n := p.capacity) (left + 1) (p.output (i - 1)) hi (by omega)
    rw [Nat.zero_add, ← hleft] at hwrites
    exact reaches_busy.trans hwrites
  · simp [busy]
  · simp [busy]
  · simp [busy]

end Pipeline

/-- **No stage is ever stuck** if and only if what each stage but the last one writes fits the pipe behind it. -/
theorem never_stuck_iff (p : Pipeline) :
    (∀ s, Reaches p.step Pipeline.start s → ¬ p.Stuck s) ↔ ∀ i < p.countofpipe, p.output i ≤ p.capacity := by
  constructor
  · intro h
    by_contra hne
    have hex : ∃ i, i < p.countofpipe ∧ p.capacity < p.output i := by
      by_contra hall
      exact hne fun i hi => Nat.le_of_not_lt fun hlt => hall ⟨i, hi, hlt⟩
    -- the first stage that writes too much is stuck
    obtain ⟨hi, hlt⟩ := Nat.find_spec hex
    have hbefore : ∀ j < Nat.find hex, p.output j ≤ p.capacity := by
      intro j hj
      have hmin := Nat.find_min hex hj
      apply Nat.le_of_not_lt
      exact fun hlt => hmin ⟨by omega, hlt⟩
    obtain ⟨s, hs, hstuck⟩ := Pipeline.reaches_stuck hi hlt
    exact h s ((Pipeline.reaches_ready (by omega) hbefore).trans hs) hstuck
  · intro hfits s hs
    obtain ⟨as, hrun⟩ := hs.run
    have hinv : p.Inv s := hrun.inv p.Inv Pipeline.inv_start fun _ _ _ hI _ hst => hI.step hst
    exact hinv.not_stuck hfits

/-- **A pipeline gets stuck**: two bytes for a pipe that holds one. -/
theorem stuck_two : ¬ ∀ p : Pipeline, 0 < p.capacity → ∀ s, Reaches p.step Pipeline.start s → ¬ p.Stuck s := by
  intro h
  obtain ⟨s, hs, hstuck⟩ := Pipeline.reaches_stuck (p := ⟨1, 1, fun _ => 2⟩) (i := 0) (by decide) (by decide)
  exact h ⟨1, 1, fun _ => 2⟩ (by decide) s hs hstuck

end NetProg.Shell
