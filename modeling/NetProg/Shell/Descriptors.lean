import NetProg.Lib.Descriptors
import NetProg.Lib.Run

/-!
# The descriptors of a pipeline

`pipecommand` creates all pipes before the first fork.  Every child gets a copy of what its parent has open, and both close
what they do not need, in any order against each other.  All `execv` calls succeed here, and a program leaves no process
behind when it exits.

`stage_sees_end`: once parent and child are through with the calls for a stage, nobody can write to its input any more.
-/

namespace NetProg.Shell.Descriptors

open NetProg.Lib NetProg.Lib.Descriptors

/-- The ends of pipe `j`, and what else is open. -/
inductive Desc where
  | read (j : ℕ)
  | write (j : ℕ)
  | other (d : ℕ)
  deriving DecidableEq

/-- The next call of the parent: in the loop that creates the pipes, or in round `i` of the other one. -/
inductive ParentPc where
  | create (k : ℕ)
  | fork (i : ℕ)
  | closeRead (i : ℕ)
  | closeWrite (i : ℕ)
  | wait (i : ℕ)
  | gone
  deriving DecidableEq

/-- The next call of a child, and what becomes of it. -/
inductive ChildPc where
  | unborn
  | dupIn
  | closeWrite
  | dupOut
  | execv
  | running
  | zombie
  | reaped
  deriving DecidableEq

structure Child where
  pc : ChildPc
  table : Table Desc

structure State where
  pc : ParentPc
  p : ℕ → ℕ × ℕ
  parent : Table Desc
  child : ℕ → Child

/-- A call of `pipe`, with the numbers that it returns; `wait`, with the child that it returns; any other call of the
parent; and what a child does next. -/
inductive Act where
  | pipe (a b : ℕ)
  | wait (j : ℕ)
  | parent
  | child (i : ℕ)

def start (table : Table Desc) : State := ⟨.create 0, fun _ => (0, 0), table, fun _ => ⟨.unborn, empty⟩⟩

/-- The next call of stage `i`. -/
def childStep (countofpipe : ℕ) (p : ℕ → ℕ × ℕ) (i : ℕ) (c : Child) : Option Child :=
  match c.pc with
  | .unborn => none
  | .dupIn => some ⟨.closeWrite, dup2 c.table (p (i - 1)).1 0⟩
  | .closeWrite => some ⟨.dupOut, close c.table (p (i - 1)).2⟩
  | .dupOut => some ⟨.execv, if i ≠ countofpipe then dup2 c.table (p i).2 1 else c.table⟩
  | .execv => some ⟨.running, c.table⟩
  | .running => some ⟨.zombie, empty⟩
  | .zombie => none
  | .reaped => none

def step (countofpipe : ℕ) (st : State) : Act → Option State
  | .pipe a b =>
    match st.pc with
    | .create k =>
      if k < countofpipe ∧ st.parent a = none ∧ st.parent b = none ∧ a ≠ b then
        some { st with pc := .create (k + 1), p := Function.update st.p k (a, b),
                       parent := Descriptors.pipe st.parent a b (.read k) (.write k) }
      else none
    | _ => none
  | .wait j =>
    match st.pc with
    | .wait i =>
      if (st.child j).pc = .zombie then
        some { st with pc := .fork (i + 1), child := Function.update st.child j ⟨.reaped, (st.child j).table⟩ }
      else none
    | _ => none
  | .parent =>
    match st.pc with
    | .create k => if k = countofpipe then some { st with pc := .fork 0 } else none
    | .fork i =>
      if i ≤ countofpipe then
        some { st with pc := if i ≠ 0 then .closeRead i else .wait i,
                       child := Function.update st.child i ⟨if i ≠ 0 then .dupIn else .dupOut, st.parent⟩ }
      else some { st with pc := .gone, parent := empty }
    | .closeRead i => some { st with pc := .closeWrite i, parent := close st.parent (st.p (i - 1)).1 }
    | .closeWrite i => some { st with pc := .wait i, parent := close st.parent (st.p (i - 1)).2 }
    | .wait _ => none
    | .gone => none
  | .child i =>
    (childStep countofpipe st.p i (st.child i)).map fun c => { st with child := Function.update st.child i c }

/-! ### What is open where -/

/-- Standard input and output are open, and not for a pipe. -/
def Std (t : Table Desc) : Prop := ∀ f ≤ 1, ∃ d, t f = some (.other d)

/-- Of the pipes, the read ends of those in `R` and the write ends of those in `W` are open, each at its number only. -/
structure Ends (p : ℕ → ℕ × ℕ) (R W : ℕ → Prop) (t : Table Desc) : Prop where
  read : ∀ f j, t f = some (.read j) ↔ R j ∧ f = (p j).1
  write : ∀ f j, t f = some (.write j) ↔ W j ∧ f = (p j).2

/-- The read ends that the parent has open. -/
def openRead (n : ℕ) : ParentPc → ℕ → Prop
  | .create k, j => j < k
  | .fork i, j => j < n ∧ i ≤ j + 1
  | .closeRead i, j => j < n ∧ i ≤ j + 1
  | .closeWrite i, j => j < n ∧ i ≤ j
  | .wait i, j => j < n ∧ i ≤ j
  | .gone, _ => False

/-- The write ends. -/
def openWrite (n : ℕ) : ParentPc → ℕ → Prop
  | .create k, j => j < k
  | .fork i, j => j < n ∧ i ≤ j + 1
  | .closeRead i, j => j < n ∧ i ≤ j + 1
  | .closeWrite i, j => j < n ∧ i ≤ j + 1
  | .wait i, j => j < n ∧ i ≤ j
  | .gone, _ => False

/-- What holds of stage `i` at each of its calls. -/
def ChildInv (n : ℕ) (p : ℕ → ℕ × ℕ) (i : ℕ) (c : Child) : Prop :=
  match c.pc with
  | .unborn => c.table = empty
  | .dupIn => 1 ≤ i ∧ i ≤ n ∧ Std c.table ∧ Ends p (fun j => j < n ∧ i ≤ j + 1) (fun j => j < n ∧ i ≤ j + 1) c.table
  | .closeWrite => 1 ≤ i ∧ c.table 0 = some (.read (i - 1)) ∧ (p (i - 1)).2 ≠ 0 ∧
      ∀ f j, c.table f = some (.write j) → i ≤ j + 1 ∧ f = (p j).2
  | .dupOut => (1 ≤ i → c.table 0 = some (.read (i - 1))) ∧ ∀ f j, c.table f = some (.write j) → i ≤ j
  | .execv => (1 ≤ i → c.table 0 = some (.read (i - 1))) ∧ ∀ f j, c.table f = some (.write j) → i ≤ j
  | .running => (1 ≤ i → c.table 0 = some (.read (i - 1))) ∧ ∀ f j, c.table f = some (.write j) → i ≤ j
  | .zombie => c.table = empty
  | .reaped => c.table = empty

/-- The first child that the parent has not waited for. -/
def firstLive (n : ℕ) : ParentPc → ℕ
  | .create _ => 0
  | .fork i => i
  | .closeRead i => i
  | .closeWrite i => i
  | .wait i => i
  | .gone => n + 1

/-- The first one that has not been forked. -/
def firstUnborn (n : ℕ) : ParentPc → ℕ
  | .create _ => 0
  | .fork i => i
  | .closeRead i => i + 1
  | .closeWrite i => i + 1
  | .wait i => i + 1
  | .gone => n + 1

def InRange (n : ℕ) : ParentPc → Prop
  | .create k => k ≤ n
  | .fork i => i ≤ n + 1
  | .closeRead i => 1 ≤ i ∧ i ≤ n
  | .closeWrite i => 1 ≤ i ∧ i ≤ n
  | .wait i => i ≤ n
  | .gone => True

/-- **The invariant.**  At most one child is alive. -/
structure Inv (n : ℕ) (st : State) : Prop where
  range : InRange n st.pc
  std : st.pc ≠ .gone → Std st.parent
  ends : Ends st.p (openRead n st.pc) (openWrite n st.pc) st.parent
  child : ∀ i, ChildInv n st.p i (st.child i)
  reaped : ∀ i < firstLive n st.pc, (st.child i).pc = .reaped
  unborn : ∀ i, firstUnborn n st.pc ≤ i → (st.child i).pc = .unborn

section Tables

variable {n i j k a b : ℕ} {p : ℕ → ℕ × ℕ} {R W R' W' : ℕ → Prop} {t : Table Desc}

theorem Ends.congr (h : Ends p R W t) (hR : ∀ j, R j ↔ R' j) (hW : ∀ j, W j ↔ W' j) : Ends p R' W' t where
  read f j := by rw [h.read, hR]
  write f j := by rw [h.write, hW]

theorem Ends.at_read (h : Ends p R W t) (hj : R j) : t (p j).1 = some (.read j) := (h.read _ _).2 ⟨hj, rfl⟩

theorem Ends.at_write (h : Ends p R W t) (hj : W j) : t (p j).2 = some (.write j) := (h.write _ _).2 ⟨hj, rfl⟩

/-- Closing the read end of a pipe. -/
theorem Ends.closeRead (h : Ends p R W t) (hk : R k) : Ends p (fun j => R j ∧ j ≠ k) W (close t (p k).1) where
  read f j := by
    by_cases hj : j = k
    · rw [hj, close_eq_some, h.read]
      tauto
    · have hne : Desc.read j ≠ .read k := fun he => hj (Desc.read.inj he)
      rw [close_eq_some_of_ne (h.at_read hk) hne, h.read, and_iff_left hj]
  write f j := by rw [close_eq_some_of_ne (h.at_read hk) Desc.noConfusion, h.write]

/-- Closing the write end. -/
theorem Ends.closeWrite (h : Ends p R W t) (hk : W k) : Ends p R (fun j => W j ∧ j ≠ k) (close t (p k).2) where
  read f j := by rw [close_eq_some_of_ne (h.at_write hk) Desc.noConfusion, h.read]
  write f j := by
    by_cases hj : j = k
    · rw [hj, close_eq_some, h.write]
      tauto
    · have hne : Desc.write j ≠ .write k := fun he => hj (Desc.write.inj he)
      rw [close_eq_some_of_ne (h.at_write hk) hne, h.write, and_iff_left hj]

/-- One more pipe. -/
theorem Ends.pipe (h : Ends p (· < k) (· < k) t) (ha : t a = none) (hb : t b = none) (hab : a ≠ b) :
    Ends (Function.update p k (a, b)) (· < k + 1) (· < k + 1) (Descriptors.pipe t a b (.read k) (.write k)) where
  read f j := by
    rw [pipe_eq_some ha hb hab, h.read]
    by_cases hj : j = k
    · subst hj
      simp
    · have hlt : j < k + 1 ↔ j < k := by omega
      simp [hj, hlt]
  write f j := by
    rw [pipe_eq_some ha hb hab, h.write]
    by_cases hj : j = k
    · subst hj
      simp
    · have hlt : j < k + 1 ↔ j < k := by omega
      simp [hj, hlt]

theorem Std.ne {f : ℕ} {d : Desc} (h : Std t) (hf : f ≤ 1) (hg : t a = some d) (hd : ∀ x, d ≠ .other x) : f ≠ a := by
  rintro rfl
  obtain ⟨x, hx⟩ := h f hf
  exact hd x (Option.some.inj (hg.symm.trans hx))

theorem Std.close {d : Desc} (h : Std t) (ha : t a = some d) (hd : ∀ x, d ≠ .other x) : Std (close t a) := by
  intro f hf
  rw [close_of_ne (h.ne hf ha hd)]
  exact h f hf

theorem Std.pipe {r w : Desc} (h : Std t) (ha : t a = none) (hb : t b = none) : Std (Descriptors.pipe t a b r w) := by
  intro f hf
  obtain ⟨d, hd⟩ := h f hf
  refine ⟨d, ?_⟩
  rw [pipe_of_ne, hd]
  · rintro rfl
    rw [ha] at hd
    cases hd
  · rintro rfl
    rw [hb] at hd
    cases hd

end Tables

/-! ### Every call keeps the invariant -/

section Steps

variable {n i j k a b : ℕ} {p : ℕ → ℕ × ℕ} {st st' : State} {c c' : Child}

/-- The calls of a child. -/
theorem childInv_step (h : ChildInv n p i c) (hs : childStep n p i c = some c') : ChildInv n p i c' := by
  unfold childStep at hs
  unfold ChildInv at h
  cases hpc : c.pc with
  | unborn => simp [hpc] at hs
  | dupIn =>
    simp only [hpc, Option.some.injEq] at h hs
    subst hs
    obtain ⟨hi, hin, hstd, hends⟩ := h
    have hopen : i - 1 < n ∧ i ≤ i - 1 + 1 := by omega
    have hread := hends.at_read hopen
    have hwrite := hends.at_write hopen
    refine ⟨hi, dup2_self hread, (hstd.ne (Nat.zero_le 1) hwrite (by simp)).symm, fun f j hf => ?_⟩
    rcases eq_some_of_dup2 hf with hf | ⟨-, hf⟩
    · obtain ⟨⟨-, hj⟩, hfj⟩ := (hends.write f j).1 hf
      exact ⟨hj, hfj⟩
    · rw [hread] at hf
      cases hf
  | closeWrite =>
    simp only [hpc, Option.some.injEq] at h hs
    subst hs
    obtain ⟨hi, hstdin, hne, hwrite⟩ := h
    refine ⟨fun _ => ?_, fun f j hf => ?_⟩
    · show close c.table (p (i - 1)).2 0 = _
      rw [close_of_ne (Ne.symm hne), hstdin]
    · obtain ⟨hfne, hf⟩ := close_eq_some.1 hf
      obtain ⟨hj, rfl⟩ := hwrite f j hf
      by_contra hlt
      have hlast : j = i - 1 := by omega
      exact hfne (by rw [hlast])
  | dupOut =>
    simp only [hpc, Option.some.injEq] at h hs
    subst hs
    obtain ⟨hstdin, hwrite⟩ := h
    by_cases hlast : i = n
    · rw [if_neg (not_not.2 hlast)]
      exact ⟨hstdin, hwrite⟩
    · rw [if_pos hlast]
      refine ⟨fun hi => ?_, fun f j hf => ?_⟩
      · show dup2 c.table (p i).2 1 0 = _
        rw [dup2_of_ne Nat.zero_ne_one, hstdin hi]
      · rcases eq_some_of_dup2 hf with hf | ⟨-, hf⟩
        · exact hwrite f j hf
        · exact hwrite _ j hf
  | execv =>
    simp only [hpc, Option.some.injEq] at h hs
    subst hs
    exact h
  | running =>
    simp only [hpc, Option.some.injEq] at hs
    subst hs
    rfl
  | zombie => simp [hpc] at hs
  | reaped => simp [hpc] at hs

/-- The child that is alive is the one that the parent has forked last. -/
theorem Inv.eq_of_childStep (h : Inv n st) (hs : childStep n st.p j (st.child j) = some c') :
    firstLive n st.pc ≤ j ∧ j < firstUnborn n st.pc := by
  constructor
  · by_contra hlt
    have hpc := h.reaped j (by omega)
    simp [childStep, hpc] at hs
  · by_contra hle
    have hpc := h.unborn j (by omega)
    simp [childStep, hpc] at hs

theorem inv_child (h : Inv n st) (hs : step n st (.child j) = some st') : Inv n st' := by
  obtain ⟨c', hc, rfl⟩ := Option.map_eq_some_iff.1 hs
  obtain ⟨hlive, hborn⟩ := h.eq_of_childStep hc
  refine ⟨h.range, h.std, h.ends, fun i => ?_, fun i hi => ?_, fun i hi => ?_⟩
  · by_cases hij : i = j
    · subst hij
      show ChildInv n st.p i (Function.update st.child i c' i)
      rw [Function.update_self]
      exact childInv_step (h.child i) hc
    · show ChildInv n st.p i (Function.update st.child j c' i)
      rw [Function.update_of_ne hij]
      exact h.child i
  · have hlt : i < firstLive n st.pc := hi
    show (Function.update st.child j c' i).pc = _
    rw [Function.update_of_ne (by omega)]
    exact h.reaped i hlt
  · have hle : firstUnborn n st.pc ≤ i := hi
    show (Function.update st.child j c' i).pc = _
    rw [Function.update_of_ne (by omega)]
    exact h.unborn i hle

theorem inv_pipe (h : Inv n st) (hs : step n st (.pipe a b) = some st') : Inv n st' := by
  cases hpc : st.pc with
  | create k =>
    simp only [step, hpc] at hs
    split at hs
    · next hok =>
      obtain ⟨hk, ha, hb, hab⟩ := hok
      obtain rfl := Option.some.inj hs
      have hends := h.ends
      rw [hpc] at hends
      have hstd := h.std (by rw [hpc]; exact ParentPc.noConfusion)
      have hunborn : ∀ i, (st.child i).pc = .unborn := fun i => h.unborn i (by rw [hpc]; exact Nat.zero_le i)
      refine ⟨hk, fun _ => hstd.pipe ha hb, Ends.pipe hends ha hb hab, fun i => ?_, fun i hi => ?_, fun i _ => hunborn i⟩
      · have hchild := h.child i
        unfold ChildInv at hchild ⊢
        rw [hunborn i] at hchild ⊢
        exact hchild
      · exact absurd hi (Nat.not_lt_zero i)
    · cases hs
  | fork i => simp [step, hpc] at hs
  | closeRead i => simp [step, hpc] at hs
  | closeWrite i => simp [step, hpc] at hs
  | wait i => simp [step, hpc] at hs
  | gone => simp [step, hpc] at hs

/-- The child that `wait` returns is the one of this round. -/
theorem inv_wait (h : Inv n st) (hs : step n st (.wait j) = some st') : Inv n st' := by
  cases hpc : st.pc with
  | wait i =>
    simp only [step, hpc] at hs
    split at hs
    · next hzombie =>
      obtain rfl := Option.some.inj hs
      have hrange := h.range
      have hends := h.ends
      have hstd := h.std (by rw [hpc]; exact ParentPc.noConfusion)
      have hreaped := h.reaped
      have hunborn := h.unborn
      simp only [hpc, InRange, firstLive, firstUnborn] at hrange hends hreaped hunborn
      have hji : j = i := by
        by_contra hne
        rcases Nat.lt_or_gt_of_ne hne with hlt | hgt
        · rw [hreaped j hlt] at hzombie
          cases hzombie
        · rw [hunborn j hgt] at hzombie
          cases hzombie
      subst hji
      refine ⟨Nat.succ_le_succ hrange, fun _ => hstd, ?_, fun i => ?_, fun i hi => ?_, fun i hi => ?_⟩
      · exact hends.congr (fun _ => and_congr_right fun _ => Nat.succ_le_succ_iff.symm)
          (fun _ => and_congr_right fun _ => Nat.succ_le_succ_iff.symm)
      · show ChildInv n st.p i (Function.update st.child j _ i)
        by_cases hij : i = j
        · subst hij
          have hchild := h.child i
          unfold ChildInv at hchild ⊢
          rw [hzombie] at hchild
          rw [Function.update_self]
          exact hchild
        · rw [Function.update_of_ne hij]
          exact h.child i
      · show (Function.update st.child j _ i).pc = _
        by_cases hij : i = j
        · rw [hij, Function.update_self]
        · have hlt : i < j + 1 := hi
          rw [Function.update_of_ne hij]
          exact hreaped i (by omega)
      · show (Function.update st.child j _ i).pc = _
        have hle : j + 1 ≤ i := hi
        rw [Function.update_of_ne (by omega)]
        exact hunborn i hle
    · cases hs
  | create k => simp [step, hpc] at hs
  | fork i => simp [step, hpc] at hs
  | closeRead i => simp [step, hpc] at hs
  | closeWrite i => simp [step, hpc] at hs
  | gone => simp [step, hpc] at hs

/-- A child starts with the table of its parent. -/
theorem inv_fork (h : Inv n st) (hpc : st.pc = .fork i) (hi : i ≤ n) : Inv n
    { st with pc := if i ≠ 0 then .closeRead i else .wait i,
              child := Function.update st.child i ⟨if i ≠ 0 then .dupIn else .dupOut, st.parent⟩ } := by
  have hends := h.ends
  have hreaped := h.reaped
  have hunborn := h.unborn
  have hstd := h.std (by rw [hpc]; exact ParentPc.noConfusion)
  simp only [hpc, firstLive, firstUnborn] at hends hreaped hunborn
  have hchild (c : Child) (hc : ChildInv n st.p i c) (j : ℕ) : ChildInv n st.p j (Function.update st.child i c j) := by
    by_cases hji : j = i
    · subst hji
      rwa [Function.update_self]
    · rw [Function.update_of_ne hji]
      exact h.child j
  have hold (c : Child) (j : ℕ) (hj : j < i) : (Function.update st.child i c j).pc = .reaped := by
    rw [Function.update_of_ne (by omega)]
    exact hreaped j hj
  have hnew (c : Child) (j : ℕ) (hj : i + 1 ≤ j) : (Function.update st.child i c j).pc = .unborn := by
    rw [Function.update_of_ne (by omega)]
    exact hunborn j (by omega)
  by_cases hi0 : i = 0
  · -- the first stage reads what the shell reads
    subst hi0
    refine ⟨hi, fun _ => hstd, ?_, hchild _ ⟨fun h0 => absurd h0 (by omega), fun _ j _ => Nat.zero_le j⟩, hold _, hnew _⟩
    refine hends.congr (fun j => ?_) (fun j => ?_)
    · show j < n ∧ 0 ≤ j + 1 ↔ j < n ∧ 0 ≤ j
      omega
    · show j < n ∧ 0 ≤ j + 1 ↔ j < n ∧ 0 ≤ j
      omega
  · have hpos : 1 ≤ i := Nat.one_le_iff_ne_zero.2 hi0
    simp only [ne_eq, hi0, not_false_eq_true, if_true]
    exact ⟨⟨hpos, hi⟩, fun _ => hstd, hends, hchild _ ⟨hpos, hi, hstd, hends⟩, hold _, hnew _⟩

theorem inv_parent (h : Inv n st) (hs : step n st .parent = some st') : Inv n st' := by
  have hrange := h.range
  have hends := h.ends
  have hreaped := h.reaped
  have hunborn := h.unborn
  cases hpc : st.pc with
  | create k =>
    have hstd := h.std (by rw [hpc]; exact ParentPc.noConfusion)
    simp only [step, hpc] at hs
    simp only [hpc, InRange, firstLive, firstUnborn] at hrange hends hreaped hunborn
    split at hs
    · next hk =>
      obtain rfl := Option.some.inj hs
      refine ⟨Nat.zero_le _, fun _ => hstd, ?_, h.child, fun i hi => absurd hi (Nat.not_lt_zero i), hunborn⟩
      refine hends.congr (fun j => ?_) (fun j => ?_)
      · show j < k ↔ j < n ∧ 0 ≤ j + 1
        omega
      · show j < k ↔ j < n ∧ 0 ≤ j + 1
        omega
    · cases hs
  | fork i =>
    simp only [step, hpc] at hs
    split at hs
    · next hi =>
      obtain rfl := Option.some.inj hs
      exact inv_fork h hpc hi
    · next hi =>
      obtain rfl := Option.some.inj hs
      simp only [hpc, InRange, firstLive, firstUnborn] at hrange hreaped hunborn
      have hlast : i = n + 1 := by omega
      subst hlast
      refine ⟨trivial, fun hne => absurd rfl hne, ⟨fun f j => ?_, fun f j => ?_⟩, h.child, hreaped, hunborn⟩
      · exact ⟨fun hf => (not_holds_empty ⟨f, hf⟩).elim, fun hf => hf.1.elim⟩
      · exact ⟨fun hf => (not_holds_empty ⟨f, hf⟩).elim, fun hf => hf.1.elim⟩
  | closeRead i =>
    have hstd := h.std (by rw [hpc]; exact ParentPc.noConfusion)
    simp only [step, hpc, Option.some.injEq] at hs
    simp only [hpc, InRange, firstLive, firstUnborn] at hrange hends hreaped hunborn
    subst hs
    have hopen : openRead n (.closeRead i) (i - 1) := ⟨by omega, by omega⟩
    refine ⟨hrange, fun _ => hstd.close (hends.at_read hopen) (by simp), ?_, h.child, hreaped, hunborn⟩
    refine (hends.closeRead hopen).congr (fun j => ?_) (fun j => Iff.rfl)
    show (j < n ∧ i ≤ j + 1) ∧ j ≠ i - 1 ↔ j < n ∧ i ≤ j
    omega
  | closeWrite i =>
    have hstd := h.std (by rw [hpc]; exact ParentPc.noConfusion)
    simp only [step, hpc, Option.some.injEq] at hs
    simp only [hpc, InRange, firstLive, firstUnborn] at hrange hends hreaped hunborn
    subst hs
    have hopen : openWrite n (.closeWrite i) (i - 1) := ⟨by omega, by omega⟩
    refine ⟨hrange.2, fun _ => hstd.close (hends.at_write hopen) (by simp), ?_, h.child, hreaped, hunborn⟩
    refine (hends.closeWrite hopen).congr (fun j => Iff.rfl) (fun j => ?_)
    show (j < n ∧ i ≤ j + 1) ∧ j ≠ i - 1 ↔ j < n ∧ i ≤ j
    omega
  | wait i => simp [step, hpc] at hs
  | gone => simp [step, hpc] at hs

theorem inv_step {act : Act} (h : Inv n st) (hs : step n st act = some st') : Inv n st' := by
  cases act with
  | pipe a b => exact inv_pipe h hs
  | wait j => exact inv_wait h hs
  | parent => exact inv_parent h hs
  | child i => exact inv_child h hs

end Steps

/-! ### All runs -/

/-- The shell at the call of `pipecommand`: its standard input and output are open, and no pipe. -/
structure Fresh (table : Table Desc) : Prop where
  std : Std table
  other : ∀ f d, table f = some d → ∃ x, d = .other x

theorem inv_start {n : ℕ} {table : Table Desc} (h : Fresh table) : Inv n (start table) where
  range := Nat.zero_le n
  std _ := h.std
  ends := by
    refine ⟨fun f j => ⟨fun hf => ?_, fun hf => absurd hf.1 (Nat.not_lt_zero j)⟩,
      fun f j => ⟨fun hf => ?_, fun hf => absurd hf.1 (Nat.not_lt_zero j)⟩⟩
    · obtain ⟨x, hx⟩ := h.other f _ hf
      cases hx
    · obtain ⟨x, hx⟩ := h.other f _ hf
      cases hx
  child _ := rfl
  reaped i hi := absurd hi (Nat.not_lt_zero i)
  unborn _ _ := rfl

/-- The parent is through with the calls of round `i`. -/
def ParentThrough (i : ℕ) : ParentPc → Prop
  | .create _ => False
  | .fork k => i < k
  | .closeRead k => i < k
  | .closeWrite k => i < k
  | .wait k => i ≤ k
  | .gone => True

/-- A child is through with them. -/
def ChildThrough : ChildPc → Prop
  | .execv => True
  | .running => True
  | .zombie => True
  | .reaped => True
  | _ => False

/-- A process that has not exited. -/
def Alive : ChildPc → Prop
  | .unborn => False
  | .zombie => False
  | .reaped => False
  | _ => True

section Runs

variable {n i : ℕ} {st : State} {table : Table Desc} {acts : List Act}

theorem Inv.parent_not_holds (h : Inv n st) (hi : 1 ≤ i) (hparent : ParentThrough i st.pc) :
    ¬ Holds st.parent (.write (i - 1)) := by
  rintro ⟨f, hf⟩
  obtain ⟨hopen, -⟩ := (h.ends.write f (i - 1)).1 hf
  cases hpc : st.pc with
  | create k => simp [hpc, ParentThrough] at hparent
  | fork k =>
    simp only [hpc, ParentThrough, openWrite] at hparent hopen
    omega
  | closeRead k =>
    simp only [hpc, ParentThrough, openWrite] at hparent hopen
    omega
  | closeWrite k =>
    simp only [hpc, ParentThrough, openWrite] at hparent hopen
    omega
  | wait k =>
    simp only [hpc, ParentThrough, openWrite] at hparent hopen
    omega
  | gone => simp [hpc, openWrite] at hopen

/-- An end that a child may write to is one of its own pipe or a later one; before it has closed the pipe that it reads
from, of that one too. -/
theorem ChildInv.le_of_write {p : ℕ → ℕ × ℕ} {c : Child} {f j : ℕ} (h : ChildInv n p i c)
    (hf : c.table f = some (.write j)) : i ≤ j + 1 ∧ (ChildThrough c.pc → i ≤ j) := by
  unfold ChildInv at h
  cases hpc : c.pc with
  | unborn =>
    simp only [hpc] at h
    exact (not_holds_empty ⟨f, h ▸ hf⟩).elim
  | dupIn =>
    simp only [hpc] at h
    exact ⟨((h.2.2.2.write f j).1 hf).1.2, fun hthrough => hthrough.elim⟩
  | closeWrite =>
    simp only [hpc] at h
    exact ⟨(h.2.2.2 f j hf).1, fun hthrough => hthrough.elim⟩
  | dupOut =>
    simp only [hpc] at h
    exact ⟨Nat.le_succ_of_le (h.2 f j hf), fun _ => h.2 f j hf⟩
  | execv =>
    simp only [hpc] at h
    exact ⟨Nat.le_succ_of_le (h.2 f j hf), fun _ => h.2 f j hf⟩
  | running =>
    simp only [hpc] at h
    exact ⟨Nat.le_succ_of_le (h.2 f j hf), fun _ => h.2 f j hf⟩
  | zombie =>
    simp only [hpc] at h
    exact (not_holds_empty ⟨f, h ▸ hf⟩).elim
  | reaped =>
    simp only [hpc] at h
    exact (not_holds_empty ⟨f, h ▸ hf⟩).elim

/-- A child that comes before the one that the parent has come to is gone. -/
theorem Inv.empty_of_lt (h : Inv n st) (hparent : ParentThrough i st.pc) {j : ℕ} (hin : i ≤ n) (hji : j < i) :
    (st.child j).table = empty := by
  have hlt : j < firstLive n st.pc := by
    cases hpc : st.pc with
    | create k => simp [hpc, ParentThrough] at hparent
    | fork k =>
      simp only [hpc, ParentThrough, firstLive] at hparent ⊢
      omega
    | closeRead k =>
      simp only [hpc, ParentThrough, firstLive] at hparent ⊢
      omega
    | closeWrite k =>
      simp only [hpc, ParentThrough, firstLive] at hparent ⊢
      omega
    | wait k =>
      simp only [hpc, ParentThrough, firstLive] at hparent ⊢
      omega
    | gone =>
      simp only [firstLive]
      omega
  have hchild := h.child j
  unfold ChildInv at hchild
  rw [h.reaped j hlt] at hchild
  exact hchild

/-- **Every stage sees the end of its input.**  In every run, whatever order the calls of the processes come in: once the
parent and stage `i` are through with their calls of round `i`, no process has the write end of pipe `i - 1` open, and
stage `i` has its read end as its standard input. -/
theorem stage_sees_end (hfresh : Fresh table) (h : Run (step n) (fun _ _ => True) (start table) acts st) (hi : 1 ≤ i)
    (hin : i ≤ n) (hparent : ParentThrough i st.pc) (hchild : ChildThrough (st.child i).pc) :
    ¬ Holds st.parent (.write (i - 1)) ∧ (∀ j, ¬ Holds (st.child j).table (.write (i - 1))) ∧
    (Alive (st.child i).pc → (st.child i).table 0 = some (.read (i - 1))) := by
  have hinv : Inv n st := h.inv (Inv n) (inv_start hfresh) fun _ _ _ hI _ hs => inv_step hI hs
  refine ⟨hinv.parent_not_holds hi hparent, fun j hj => ?_, fun halive => ?_⟩
  · obtain ⟨f, hf⟩ := hj
    obtain ⟨hle, hthrough⟩ := (hinv.child j).le_of_write hf
    rcases Nat.lt_trichotomy j i with hlt | rfl | hgt
    · rw [hinv.empty_of_lt hparent hin hlt] at hf
      exact not_holds_empty ⟨f, hf⟩
    · have := hthrough hchild
      omega
    · omega
  · have hc := hinv.child i
    unfold ChildInv at hc
    cases hpc : (st.child i).pc with
    | execv =>
      rw [hpc] at hc
      exact hc.1 hi
    | running =>
      rw [hpc] at hc
      exact hc.1 hi
    | unborn => simp [hpc, ChildThrough] at hchild
    | dupIn => simp [hpc, ChildThrough] at hchild
    | closeWrite => simp [hpc, ChildThrough] at hchild
    | dupOut => simp [hpc, ChildThrough] at hchild
    | zombie => simp [hpc, Alive] at halive
    | reaped => simp [hpc, Alive] at halive

end Runs

/-- A shell with the three standard descriptors. -/
def shellTable : Table Desc := fun f => if f ≤ 2 then some (.other f) else none

theorem fresh_shellTable : Fresh shellTable where
  std f hf := ⟨f, if_pos (by omega)⟩
  other f d hd := by
    unfold shellTable at hd
    split at hd
    · exact ⟨f, (Option.some.inj hd).symm⟩
    · cases hd

/-- Two stages, where the calls of the second one and of the parent take turns. -/
def twoStages : List Act :=
  [.pipe 3 4, .parent, .parent, .child 0, .child 0, .child 0, .wait 0, .parent, .child 1, .parent, .child 1, .parent,
    .child 1]

theorem stage_sees_end_two : ∃ st, Run (step 1) (fun _ _ => True) (start shellTable) twoStages st ∧
    (st.child 1).pc = .execv ∧ ¬ Holds st.parent (.write 0) ∧ (∀ j, ¬ Holds (st.child j).table (.write 0)) ∧
    (st.child 1).table 0 = some (.read 0) := by
  obtain ⟨st, hall, hpc, hchild⟩ : ∃ st, runAll (step 1) (fun _ _ => true) (start shellTable) twoStages = some st ∧
      st.pc = .wait 1 ∧ (st.child 1).pc = .execv := ⟨_, rfl, rfl, rfl⟩
  have hrun : Run (step 1) (fun _ _ => True) (start shellTable) twoStages st :=
    run_of_runAll (fun _ _ _ => trivial) hall
  obtain ⟨hparent, hnone, hstdin⟩ := stage_sees_end fresh_shellTable hrun (Nat.le_refl 1) (Nat.le_refl 1)
    (by rw [hpc]; exact Nat.le_refl 1) (by rw [hchild]; exact trivial)
  exact ⟨st, hrun, hchild, hparent, hnone, hstdin (by rw [hchild]; exact trivial)⟩

end NetProg.Shell.Descriptors
