import Mathlib.Logic.Function.Basic
import NetProg.Lib.Run

/-!
# The signals of the load balancer

The parent of `load_balancer.c` hands a line of the file to a worker with `SIGUSR1`, and a worker tells with `SIGUSR2`
that it has printed its line; both carry the number of the worker.  A standard signal is pending at most once at a
process, and what is queued while it is pending is lost.

The parent marks a worker as busy and signals to it in one step, and a handler of a pending signal of the parent is one
step; a worker is in its handler from the delivery of `SIGUSR1` to the call of `sigqueue`.

* `remembered_iff`: no worker is forgotten in a run if and only if no worker queues its `SIGUSR2` while another one is
  pending;
* `forgotten_run`: a worker that has been forgotten is never given a line again.
-/

namespace NetProg.LoadBalancer

open NetProg.Lib

/-- A worker is in `pause`, or in the handler of a `SIGUSR1` that carries `sival_int`. -/
inductive Worker where
  | paused
  | reading (sival_int : ℕ)
  deriving DecidableEq

structure State where
  busy : ℕ → ℕ
  ptr : ℕ
  worker : ℕ → Worker
  /-- what the pending `SIGUSR1` of each worker carries -/
  usr1 : ℕ → Option ℕ
  /-- what the pending `SIGUSR2` of the parent carries -/
  usr2 : Option ℕ
  /-- a worker has come to the end of the file -/
  eof : Bool

/-- A round of the loop of the parent, its handler of `SIGUSR2`, and what a worker does: it enters its handler, leaves it
behind a line, or comes to the end of the file, where its death ends all processes. -/
inductive Act where
  | loop
  | available
  | enter (i : ℕ)
  | finish (i : ℕ)
  | exit (i : ℕ)
  deriving DecidableEq

/-- `sigqueue`, where `pending` is what the signal carries that is pending already. -/
def sigqueue (pending : Option ℕ) (sival_int : ℕ) : Option ℕ :=
  match pending with
  | none => some sival_int
  | some sv => some sv

/-- The workers have been forked. -/
def initial : State where
  busy _ := 0
  ptr := 0
  worker _ := .paused
  usr1 _ := none
  usr2 := none
  eof := false

/-- The steps of `n` workers and their parent; without a worker, `busy[0]` and the remainder by `n` are undefined. -/
def step (n : ℕ) (s : State) (a : Act) : Option State :=
  if s.eof then none
  else match a with
  | .loop =>
    if n = 0 then none
    else if s.busy s.ptr = 0 then some { s with
      busy := Function.update s.busy s.ptr 1
      usr1 := Function.update s.usr1 s.ptr (sigqueue (s.usr1 s.ptr) s.ptr)
      ptr := (s.ptr + 1) % n }
    else some { s with ptr := (s.ptr + 1) % n }
  | .available => s.usr2.map fun sival_int => { s with usr2 := none, busy := Function.update s.busy sival_int 0 }
  | .enter i =>
    if n ≤ i then none
    else match s.worker i, s.usr1 i with
    | .paused, some sival_int => some { s with
        worker := Function.update s.worker i (.reading sival_int)
        usr1 := Function.update s.usr1 i none }
    | _, _ => none
  | .finish i =>
    if n ≤ i then none
    else match s.worker i with
    | .reading sival_int => some { s with
        worker := Function.update s.worker i .paused
        usr2 := sigqueue s.usr2 sival_int }
    | .paused => none
  | .exit i =>
    if n ≤ i then none
    else match s.worker i with
    | .reading _ => some { s with eof := true }
    | .paused => none

/-! ### What a step can do -/

variable {n : ℕ} {s s' : State} {a : Act} {as : List Act} {i : ℕ}

theorem step_eof (h : step n s a = some s') : s.eof = false := by
  unfold step at h
  split at h
  · cases h
  · next he => simpa using he

theorem step_loop (h : step n s .loop = some s') :
    (s.busy s.ptr = 0 ∧ s' = { s with
      busy := Function.update s.busy s.ptr 1
      usr1 := Function.update s.usr1 s.ptr (sigqueue (s.usr1 s.ptr) s.ptr)
      ptr := (s.ptr + 1) % n }) ∨
    (s.busy s.ptr ≠ 0 ∧ s' = { s with ptr := (s.ptr + 1) % n }) := by
  simp only [step] at h
  split at h
  · cases h
  · split at h
    · cases h
    · split at h
      · next hb => exact .inl ⟨hb, (Option.some.inj h).symm⟩
      · next hb => exact .inr ⟨hb, (Option.some.inj h).symm⟩

theorem step_available (h : step n s .available = some s') : ∃ sival_int, s.usr2 = some sival_int ∧
    s' = { s with usr2 := none, busy := Function.update s.busy sival_int 0 } := by
  simp only [step] at h
  split at h
  · cases h
  · obtain ⟨sival_int, hs, rfl⟩ := Option.map_eq_some_iff.1 h
    exact ⟨sival_int, hs, rfl⟩

theorem step_enter (h : step n s (.enter i) = some s') : ∃ sival_int, s.worker i = .paused ∧
    s.usr1 i = some sival_int ∧ s' = { s with
      worker := Function.update s.worker i (.reading sival_int)
      usr1 := Function.update s.usr1 i none } := by
  simp only [step] at h
  split at h
  · cases h
  · split at h
    · cases h
    · split at h
      · next sival_int hw hu => exact ⟨sival_int, hw, hu, (Option.some.inj h).symm⟩
      · cases h

theorem step_finish (h : step n s (.finish i) = some s') : i < n ∧ ∃ sival_int, s.worker i = .reading sival_int ∧
    s' = { s with
      worker := Function.update s.worker i .paused
      usr2 := sigqueue s.usr2 sival_int } := by
  simp only [step] at h
  split at h
  · cases h
  · split at h
    · cases h
    · next hi =>
      split at h
      · next sival_int hw => exact ⟨Nat.lt_of_not_le hi, sival_int, hw, (Option.some.inj h).symm⟩
      · cases h

theorem step_exit (h : step n s (.exit i) = some s') : s' = { s with eof := true } := by
  simp only [step] at h
  split at h
  · cases h
  · split at h
    · cases h
    · split at h
      · exact (Option.some.inj h).symm
      · cases h

/-! ### The signs of a worker -/

/-- The worker is in its handler, or has been signalled to, or its own signal is on the way. -/
def signs (s : State) (i : ℕ) : ℕ :=
  (if s.worker i = .paused then 0 else 1) + (if s.usr1 i = none then 0 else 1) + if s.usr2 = some i then 1 else 0

/-- A worker shows no more than one sign, and only while it is marked as busy; signals carry its number. -/
structure Inv (s : State) : Prop where
  busy : ∀ i, signs s i ≤ s.busy i
  flag : ∀ i, s.busy i ≤ 1
  reading : ∀ i sival_int, s.worker i = .reading sival_int → sival_int = i
  pending : ∀ i sival_int, s.usr1 i = some sival_int → sival_int = i

theorem inv_initial : Inv initial where
  busy i := by simp [signs, initial]
  flag i := Nat.zero_le 1
  reading i v h := by cases h
  pending i v h := by cases h

/-- No worker queues its signal while another one is pending. -/
def Undisturbed (s : State) (a : Act) : Prop := ∀ i, a = .finish i → s.usr2 = none

/-- A step that loses no signal keeps what is missing of the signs of each worker. -/
theorem Inv.balance (h : Inv s) (ha : Undisturbed s a) (hst : step n s a = some s') (j : ℕ) :
    signs s' j + s.busy j = signs s j + s'.busy j := by
  have hj := h.busy j
  have hflag := h.flag j
  cases a with
  | loop =>
    rcases step_loop hst with ⟨hb, rfl⟩ | ⟨-, rfl⟩
    · by_cases hp : j = s.ptr
      · subst hp
        have hu : s.usr1 s.ptr = none := by
          by_contra hu
          simp only [signs, if_neg hu] at hj
          omega
        simp only [signs, hu, sigqueue, hb, Function.update_self, if_true, reduceCtorEq, if_false]
        omega
      · simp only [signs, Function.update_of_ne hp]
    · rfl
  | available =>
    obtain ⟨v, hv, rfl⟩ := step_available hst
    by_cases hp : j = v
    · subst hp
      simp only [signs, hv, Function.update_self, if_true, reduceCtorEq, if_false] at *
      omega
    · have hne : some v ≠ some j := fun he => hp (Option.some.inj he).symm
      simp only [signs, hv, if_neg hne, Function.update_of_ne hp, reduceCtorEq, if_false]
  | enter i =>
    obtain ⟨v, hw, hu, rfl⟩ := step_enter hst
    by_cases hp : j = i
    · subst hp
      simp only [signs, hw, hu, Function.update_self, if_true, reduceCtorEq, if_false]
    · simp only [signs, Function.update_of_ne hp]
  | finish i =>
    obtain ⟨-, v, hw, rfl⟩ := step_finish hst
    obtain rfl := h.reading i v hw
    have hq : sigqueue s.usr2 v = some v := by rw [ha v rfl, sigqueue]
    rw [hq]
    by_cases hp : j = v
    · subst hp
      simp only [signs, hw, ha j rfl, Function.update_self, if_true, reduceCtorEq, if_false]
      omega
    · have hne : some v ≠ some j := fun he => hp (Option.some.inj he).symm
      simp only [signs, ha v rfl, Function.update_of_ne hp, if_neg hne, reduceCtorEq, if_false]
  | exit i =>
    rw [step_exit hst]
    rfl

/-- A signal that is lost is missing among the signs of its worker. -/
theorem lost_signs {v : ℕ} (hv : s.usr2 = some v) (hst : step n s (.finish i) = some s') :
    s'.busy = s.busy ∧ signs s' i + 1 = signs s i ∧ ∀ j, signs s' j ≤ signs s j := by
  obtain ⟨-, w, hw, rfl⟩ := step_finish hst
  have hq : sigqueue s.usr2 w = s.usr2 := by rw [hv, sigqueue]
  have hi : signs { s with worker := Function.update s.worker i .paused } i + 1 = signs s i := by
    simp only [signs, hw, Function.update_self, if_true, reduceCtorEq, if_false]
    omega
  rw [hq]
  refine ⟨rfl, hi, fun j => ?_⟩
  by_cases hp : j = i
  · subst hp
    exact Nat.le_of_succ_le (Nat.le_of_eq hi)
  · simp only [signs, Function.update_of_ne hp, Nat.le_refl]

/-- A step changes the signal of a worker only where the parent signals to it, and then to its own number. -/
theorem usr1_step (hst : step n s a = some s') {j sival_int : ℕ} (hj : s'.usr1 j = some sival_int) :
    s.usr1 j = some sival_int ∨ sival_int = j := by
  cases a with
  | loop =>
    rcases step_loop hst with ⟨-, rfl⟩ | ⟨-, rfl⟩
    · by_cases hp : j = s.ptr
      · subst hp
        cases hu : s.usr1 s.ptr with
        | none => exact .inr (by simpa [hu, sigqueue, eq_comm] using hj)
        | some v => exact .inl (by simpa [hu, sigqueue] using hj)
      · exact .inl (by simpa [hp] using hj)
    · exact .inl hj
  | available =>
    obtain ⟨v, -, rfl⟩ := step_available hst
    exact .inl hj
  | enter i =>
    obtain ⟨v, -, -, rfl⟩ := step_enter hst
    by_cases hp : j = i
    · simp [hp] at hj
    · exact .inl (by simpa [hp] using hj)
  | finish i =>
    obtain ⟨-, v, -, rfl⟩ := step_finish hst
    exact .inl hj
  | exit i =>
    obtain rfl := step_exit hst
    exact .inl hj

/-- A worker in its handler has been in it before, or has taken its signal. -/
theorem worker_step (hst : step n s a = some s') {j sival_int : ℕ} (hj : s'.worker j = .reading sival_int) :
    s.worker j = .reading sival_int ∨ s.usr1 j = some sival_int := by
  cases a with
  | loop => rcases step_loop hst with ⟨-, rfl⟩ | ⟨-, rfl⟩ <;> exact .inl hj
  | available =>
    obtain ⟨v, -, rfl⟩ := step_available hst
    exact .inl hj
  | enter i =>
    obtain ⟨v, -, hu, rfl⟩ := step_enter hst
    by_cases hp : j = i
    · subst hp
      obtain rfl : v = sival_int := by simpa using hj
      exact .inr hu
    · exact .inl (by simpa [hp] using hj)
  | finish i =>
    obtain ⟨-, v, -, rfl⟩ := step_finish hst
    by_cases hp : j = i
    · simp [hp] at hj
    · exact .inl (by simpa [hp] using hj)
  | exit i =>
    obtain rfl := step_exit hst
    exact .inl hj

/-- Marks are only ever set to 0 and 1. -/
theorem busy_step (hst : step n s a = some s') (j : ℕ) : s'.busy j = s.busy j ∨ s'.busy j ≤ 1 := by
  cases a with
  | loop =>
    rcases step_loop hst with ⟨-, rfl⟩ | ⟨-, rfl⟩
    · by_cases hp : j = s.ptr <;> simp [hp]
    · exact .inl rfl
  | available =>
    obtain ⟨v, -, rfl⟩ := step_available hst
    by_cases hp : j = v <;> simp [hp]
  | enter i =>
    obtain ⟨v, -, -, rfl⟩ := step_enter hst
    exact .inl rfl
  | finish i =>
    obtain ⟨-, v, -, rfl⟩ := step_finish hst
    exact .inl rfl
  | exit i =>
    obtain rfl := step_exit hst
    exact .inl rfl

/-- Where a signal is lost, another one is pending. -/
theorem lost_of_disturbed (h : ¬ Undisturbed s a) : ∃ i v, a = .finish i ∧ s.usr2 = some v := by
  obtain ⟨i, rfl, hne⟩ : ∃ i, a = .finish i ∧ s.usr2 ≠ none := by simpa [Undisturbed] using h
  obtain ⟨v, hv⟩ := Option.ne_none_iff_exists'.1 hne
  exact ⟨i, v, rfl, hv⟩

theorem Inv.step (h : Inv s) (hst : step n s a = some s') : Inv s' := by
  refine ⟨fun j => ?_, fun j => ?_, fun j sival_int hj => ?_, fun j sival_int hj => ?_⟩
  · have hj := h.busy j
    by_cases ha : Undisturbed s a
    · have := h.balance ha hst j
      omega
    · obtain ⟨i, v, rfl, hv⟩ := lost_of_disturbed ha
      obtain ⟨hb, -, hle⟩ := lost_signs hv hst
      exact hb ▸ Nat.le_trans (hle j) hj
  · rcases busy_step hst j with hb | hb
    · exact hb ▸ h.flag j
    · exact hb
  · rcases worker_step hst hj with hw | hu
    · exact h.reading j sival_int hw
    · exact h.pending j sival_int hu
  · rcases usr1_step hst hj with hu | he
    · exact h.pending j sival_int hu
    · exact he

theorem inv_run {P : State → Act → Prop} (h : Run (step n) P initial as s) : Inv s :=
  h.inv Inv inv_initial fun _ _ _ hi _ hst => hi.step hst

/-! ### Workers that are forgotten -/

/-- Each worker reads a line, has been signalled to, has its own signal on the way, or is free. -/
def Remembered (n : ℕ) (s : State) : Prop :=
  ∀ i < n, (∃ sival_int, s.worker i = .reading sival_int) ∨ s.usr1 i ≠ none ∨ s.usr2 = some i ∨ s.busy i = 0

theorem remembered_of_signs (h : ∀ i, s.busy i ≤ signs s i) : Remembered n s := by
  intro i _
  have hi := h i
  cases hw : s.worker i with
  | reading v => exact .inl ⟨v, rfl⟩
  | paused =>
    refine .inr ?_
    by_contra hnot
    obtain ⟨hu, h2, hb⟩ : s.usr1 i = none ∧ ¬ s.usr2 = some i ∧ s.busy i ≠ 0 := by simpa using hnot
    simp only [signs, hw, hu, if_neg h2, if_true] at hi
    omega

/-- A worker without a sign that is marked as busy has been forgotten. -/
theorem not_remembered (hi : i < n) (hsigns : signs s i = 0) (hb : s.busy i ≠ 0) : ¬ Remembered n s := by
  intro h
  rcases h i hi with ⟨v, hw⟩ | hu | h2 | h0
  · simp [signs, hw] at hsigns
  · simp [signs, hu] at hsigns
  · simp [signs, h2] at hsigns
  · exact hb h0

/-- **No worker is forgotten**, up to the end of the file, in exactly the runs where a worker queues its signal only when
none is pending at the parent. -/
theorem remembered_iff (h : Run (step n) (fun _ _ => True) initial as s) :
    (∀ bs cs t, as = bs ++ cs → Run (step n) (fun _ _ => True) initial bs t → t.eof = false → Remembered n t) ↔
      Run (step n) Undisturbed initial as s := by
  constructor
  · intro hall
    induction h with
    | nil => exact .nil
    | @snoc as a s s' h _ hst ih =>
      refine .snoc (ih fun bs cs t he => hall bs (cs ++ [a]) t (by simp [he])) ?_ hst
      rintro i rfl
      cases hu : s.usr2 with
      | none => rfl
      | some v =>
        -- the signal is lost
        have hinv := inv_run h
        obtain ⟨hi, w, -, hs'⟩ := step_finish hst
        obtain ⟨hb, hlost, -⟩ := lost_signs hu hst
        have hle := hinv.busy i
        have hflag := hinv.flag i
        refine absurd (hall _ [] s' (by simp) (h.snoc trivial hst) ?_) (not_remembered hi (by omega) ?_)
        · have he := step_eof hst
          rw [hs']
          exact he
        · rw [hb]
          omega
  · rintro hrun bs cs t rfl ht -
    obtain ⟨t', ht'⟩ := hrun.first
    obtain rfl := ht.eq ht'
    have hkept : Inv t ∧ ∀ i, t.busy i ≤ signs t i :=
      ht'.inv (fun s => Inv s ∧ ∀ i, s.busy i ≤ signs s i) ⟨inv_initial, fun _ => Nat.zero_le _⟩
        fun s a s' hs ha hst => ⟨hs.1.step hst, fun i => by
          have hbal := hs.1.balance ha hst i
          have hle := hs.2 i
          omega⟩
    exact remembered_of_signs hkept.2

/-- Two workers, one after the other. -/
theorem remembered_iff_two : ∃ s ∈ runAll (step 2) (fun _ _ => true) initial
    [.loop, .loop, .enter 1, .enter 0, .finish 0, .available, .finish 1], s.usr2 = some 1 ∧
    ((∀ bs cs t, [.loop, .loop, .enter 1, .enter 0, .finish 0, .available, .finish 1] = bs ++ cs →
        Run (step 2) (fun _ _ => True) initial bs t → t.eof = false → Remembered 2 t) ↔
      Run (step 2) Undisturbed initial [.loop, .loop, .enter 1, .enter 0, .finish 0, .available, .finish 1] s) := by
  have hrun : ∃ s ∈ runAll (step 2) (fun _ _ => true) initial
      [.loop, .loop, .enter 1, .enter 0, .finish 0, .available, .finish 1], s.usr2 = some 1 := by decide
  obtain ⟨s, hs, hu⟩ := hrun
  exact ⟨s, hs, hu, remembered_iff (run_of_runAll (fun _ _ _ => trivial) hs)⟩

/-- **A worker is forgotten**: both workers have printed a line before the parent takes the first of their signals. -/
theorem forgotten : ¬ ∀ n as s, Run (step n) (fun _ _ => True) initial as s → s.eof = false → Remembered n s := by
  intro h
  have hrun : ∃ s ∈ runAll (step 2) (fun _ _ => true) initial [.loop, .loop, .enter 0, .enter 1, .finish 0, .finish 1],
      s.eof = false ∧ signs s 1 = 0 ∧ s.busy 1 ≠ 0 := by decide
  obtain ⟨s, hs, he, hsigns, hb⟩ := hrun
  exact not_remembered (n := 2) (by omega) hsigns hb (h 2 _ s (run_of_runAll (fun _ _ _ => trivial) hs) he)

/-- A step does not bring back a worker that has been forgotten. -/
theorem stays_forgotten (h : Inv s) (hsigns : signs s i = 0) (hb : s.busy i = 1) (hst : step n s a = some s') :
    signs s' i = 0 ∧ s'.busy i = 1 := by
  have hflag := (h.step hst).flag i
  by_cases ha : Undisturbed s a
  · have hbal := h.balance ha hst i
    omega
  · obtain ⟨j, v, rfl, hv⟩ := lost_of_disturbed ha
    obtain ⟨hb', -, hle⟩ := lost_signs hv hst
    have hi := hle i
    exact ⟨by omega, by rw [hb', hb]⟩

/-- **A worker that has been forgotten** stays so in every run, and the parent gives it no line again. -/
theorem forgotten_run (h : Inv s) (hsigns : signs s i = 0) (hb : s.busy i = 1)
    (hrun : Run (step n) (fun _ _ => True) s as s') : signs s' i = 0 ∧ s'.busy i = 1 := by
  have hinv : Inv s' ∧ signs s' i = 0 ∧ s'.busy i = 1 :=
    hrun.inv (fun s => Inv s ∧ signs s i = 0 ∧ s.busy i = 1) ⟨h, hsigns, hb⟩
      fun s a s' hs _ hst => ⟨hs.1.step hst, stays_forgotten hs.1 hs.2.1 hs.2.2 hst⟩
  exact hinv.2

end NetProg.LoadBalancer
