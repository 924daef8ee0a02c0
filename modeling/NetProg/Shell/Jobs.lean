import Mathlib.Data.List.Count
import NetProg.Lib.Run

/-!
# The commands that the shell waits for

`main` forks a process for each line.  It gives the terminal to a command in the foreground, calls `wait`, takes the
terminal back and prints the process id of the command with the status that `wait` has stored; it does not look at what
`wait` returns, and does not wait for a command in the background.  Processes are numbered in the order in which they
are forked; they come into their own groups and terminate at any time, and `wait` takes any of the terminated ones.

* `accounted`: every status is that of one command, and what has not been waited for are the commands in the background;
* `own_iff`: in all runs the status is that of the command itself if and only if no command in the foreground comes
  after one in the background.
-/

namespace NetProg.Shell.Jobs

open NetProg.Lib

/-- A child of the shell that has not been waited for. -/
structure Child where
  pid : ℕ
  /-- it has called `setpgid` -/
  grouped : Bool
  status : Option ℕ

/-- The next call of the shell; `ret` is what `fork` has returned. -/
inductive Phase where
  | prompt
  | give (ret : ℕ)
  | wait (ret : ℕ)
  /-- the second `tcsetpgrp` and `printf`, after `wait` has returned `reaped` -/
  | takeBack (ret reaped status : ℕ)
  deriving DecidableEq

/-- What is printed, with the process that it is about. -/
structure Report where
  ret : ℕ
  reaped : ℕ
  status : ℕ

/-- The terminal belongs to the shell, or to the group of a child. -/
structure State where
  phase : Phase
  terminal : Option ℕ
  children : List Child
  forked : ℕ
  reports : List Report

inductive Event where
  /-- a line is read, with the flag of `getargv` -/
  | line (back_pr : Bool)
  | tcsetpgrp
  | wait (pid : ℕ)
  | takeBack
  | setpgid (pid : ℕ)
  | exit (pid status : ℕ)

def start : State := ⟨.prompt, none, [], 0, []⟩

/-- The process runs. -/
def Child.Runs (pid : ℕ) (c : Child) : Bool := c.pid = pid ∧ c.status = none

/-- It has terminated. -/
def Child.Ended (pid : ℕ) (c : Child) : Bool := c.pid = pid ∧ c.status ≠ none

/-- What happens to one process. -/
def State.alter (s : State) (pid : ℕ) (f : Child → Child) : State :=
  { s with children := s.children.map fun c => if c.Runs pid then f c else c }

def step (s : State) : Event → Option State
  | .line back_pr =>
    match s.phase with
    | .prompt => some { s with
        phase := if back_pr then .prompt else .give s.forked
        children := s.children ++ [⟨s.forked, false, none⟩]
        forked := s.forked + 1 }
    | _ => none
  | .tcsetpgrp =>
    match s.phase with
    -- fails as long as there is no such group
    | .give ret => some { s with
        phase := .wait ret
        terminal := if s.children.any fun c => c.pid = ret ∧ c.grouped then some ret else s.terminal }
    | _ => none
  | .wait pid =>
    match s.phase, (s.children.find? (Child.Ended pid)).bind Child.status with
    | .wait ret, some status => some { s with
        phase := .takeBack ret pid status
        children := s.children.eraseP (Child.Ended pid) }
    | _, _ => none
  | .takeBack =>
    match s.phase with
    | .takeBack ret reaped status => some { s with
        phase := .prompt
        terminal := none
        reports := s.reports ++ [⟨ret, reaped, status⟩] }
    | _ => none
  | .setpgid pid =>
    if s.children.any (Child.Runs pid) then some (s.alter pid fun c => { c with grouped := true }) else none
  | .exit pid status =>
    if s.children.any (Child.Runs pid) then some (s.alter pid fun c => { c with status := some status }) else none

/-- The lines of a run. -/
def typed (es : List Event) : List Bool :=
  es.filterMap fun
    | .line back_pr => some back_pr
    | _ => none

/-- A command in the foreground comes after one in the background. -/
def Mixed (cs : List Bool) : Prop := ∃ l₁ l₂ l₃, cs = l₁ ++ true :: (l₂ ++ false :: l₃)

/-- The processes that have been waited for. -/
def State.reaped (s : State) : List ℕ :=
  s.reports.map Report.reaped ++
    match s.phase with
    | .takeBack _ reaped _ => [reaped]
    | _ => []

/-- The command that the shell is about to wait for. -/
def Phase.current : Phase → Option ℕ
  | .give ret | .wait ret => some ret
  | _ => none

/-- The invariant of a run. -/
structure Inv (es : List Event) (s : State) : Prop where
  /-- everybody is a child or has been waited for, once -/
  perm : (s.reaped ++ s.children.map Child.pid).Perm (List.range s.forked)
  current : ∀ {ret}, s.phase.current = some ret → ret ∈ s.children.map Child.pid
  count : s.children.length = (typed es).count true + s.phase.current.toList.length
  terminal : ∀ {pid}, s.terminal = some pid →
    s.phase = .wait pid ∨ ∃ reaped status, s.phase = .takeBack pid reaped status
  ended : ∀ {c status}, c ∈ s.children → c.status = some status → .exit c.pid status ∈ es
  taken : ∀ {ret pid status}, s.phase = .takeBack ret pid status →
    .exit pid status ∈ es ∧ (pid ≠ ret → Mixed (typed es))
  reports : ∀ {r}, r ∈ s.reports → .exit r.reaped r.status ∈ es ∧ (r.reaped ≠ r.ret → Mixed (typed es))
  last : s.phase ≠ .prompt → ∃ l, typed es = l ++ [false]

variable {es : List Event} {s t : State} {e : Event} {pid ret status : ℕ} {cs l : List Bool} {b : Bool} {c : Child}

/-! ### Lines -/

theorem typed_append (es es' : List Event) : typed (es ++ es') = typed es ++ typed es' := List.filterMap_append

theorem typed_line : typed (es ++ [.line b]) = typed es ++ [b] := typed_append es [.line b]

/-- Whatever happens, other lines are not typed. -/
theorem typed_other (h : ∀ b, e ≠ .line b) : typed (es ++ [e]) = typed es := by
  rw [typed_append]
  cases e with
  | line b => exact absurd rfl (h b)
  | _ => exact List.append_nil _

theorem Mixed.append (h : Mixed cs) (l : List Bool) : Mixed (cs ++ l) := by
  obtain ⟨l₁, l₂, l₃, rfl⟩ := h
  exact ⟨l₁, l₂, l₃ ++ l, by simp⟩

theorem Mixed.typed (h : Mixed (typed es)) (e : Event) : Mixed (typed (es ++ [e])) := by
  rw [typed_append]
  exact h.append _

theorem mixed_of_mem (h : true ∈ l) : Mixed (l ++ [false]) := by
  obtain ⟨l₁, l₂, rfl⟩ := List.append_of_mem h
  exact ⟨l₁, l₂, [], by simp⟩

/-! ### Processes -/

theorem Child.runs_iff : c.Runs pid = true ↔ c.pid = pid ∧ c.status = none := decide_eq_true_iff

theorem Child.ended_iff : c.Ended pid = true ↔ c.pid = pid ∧ c.status ≠ none := decide_eq_true_iff

section Alter

variable {f : Child → Child}

theorem State.alter_pids (h : ∀ c, (f c).pid = c.pid) :
    (s.alter pid f).children.map Child.pid = s.children.map Child.pid := by
  rw [State.alter, List.map_map]
  refine List.map_congr_left fun c _ => ?_
  rw [Function.comp_apply]
  split
  · exact h c
  · rfl

theorem State.alter_length : (s.alter pid f).children.length = s.children.length := List.length_map _

theorem State.mem_alter (h : c ∈ (s.alter pid f).children) :
    c ∈ s.children ∨ ∃ d ∈ s.children, d.Runs pid = true ∧ c = f d := by
  obtain ⟨d, hd, rfl⟩ := List.mem_map.1 h
  split
  · next hr => exact .inr ⟨d, hd, hr, rfl⟩
  · exact .inl hd

/-- What happens to one process is nothing to the shell. -/
theorem Inv.alter (h : Inv es s) (he : ∀ b, e ≠ .line b) (hpid : ∀ c, (f c).pid = c.pid)
    (hstatus : ∀ {c status}, c.Runs pid = true → (f c).status = some status → .exit c.pid status ∈ es ++ [e]) :
    Inv (es ++ [e]) (s.alter pid f) where
  perm := by
    rw [State.alter_pids hpid]
    exact h.perm
  current hret := by
    rw [State.alter_pids hpid]
    exact h.current hret
  count := by
    rw [State.alter_length, typed_other he]
    exact h.count
  terminal := h.terminal
  ended hc hst := by
    rcases State.mem_alter hc with hc | ⟨d, -, hr, rfl⟩
    · exact List.mem_append_left _ (h.ended hc hst)
    · rw [hpid]
      exact hstatus hr hst
  taken hp := ⟨List.mem_append_left _ (h.taken hp).1, fun hne => ((h.taken hp).2 hne).typed e⟩
  reports hr := ⟨List.mem_append_left _ (h.reports hr).1, fun hne => ((h.reports hr).2 hne).typed e⟩
  last hne := by
    rw [typed_other he]
    exact h.last hne

end Alter

/-- What `wait` takes away. -/
theorem exists_of_wait {l : List Child} (h : (l.find? (Child.Ended pid)).bind Child.status = some status) :
    ∃ c l₁ l₂, l = l₁ ++ c :: l₂ ∧ l.eraseP (Child.Ended pid) = l₁ ++ l₂ ∧ c.pid = pid ∧ c.status = some status := by
  obtain ⟨c, hc, hst⟩ := Option.bind_eq_some_iff.1 h
  obtain ⟨hended, l₁, l₂, rfl, hno⟩ := List.find?_eq_some_iff_append.1 hc
  refine ⟨c, l₁, l₂, rfl, ?_, (Child.ended_iff.1 hended).1, hst⟩
  rw [List.eraseP_append_right _ fun a ha => by simpa using hno a ha, List.eraseP_cons_of_pos hended]

theorem inv_start : Inv [] start where
  perm := .refl _
  current h := nomatch h
  count := rfl
  terminal h := nomatch h
  ended h := nomatch h
  taken h := nomatch h
  reports h := nomatch h
  last h := absurd rfl h

theorem inv_step (h : Inv es s) (hst : step s e = some t) : Inv (es ++ [e]) t := by
  have hended : ∀ {pid status e'}, .exit pid status ∈ es → .exit pid status ∈ es ++ [e'] := fun hm =>
    List.mem_append_left _ hm
  cases e with
  | line b =>
    rw [step] at hst
    split at hst
    · next hp =>
      cases hst
      have hperm := h.perm
      have hcount := h.count
      rw [State.reaped, hp] at hperm
      rw [hp] at hcount
      refine ⟨?_, fun {ret} hret => ?_, ?_, fun hpid => ?_, fun {c status} hc hs => ?_, fun {_ _ _} htaken => ?_,
        fun hr => ?_, fun hne => ?_⟩
      · have hreaped : State.reaped ⟨if b then .prompt else .give s.forked, s.terminal,
            s.children ++ [⟨s.forked, false, none⟩], s.forked + 1, s.reports⟩ = s.reports.map Report.reaped ++ [] := by
          cases b <;> rfl
        rw [hreaped, List.map_append, ← List.append_assoc, List.range_succ]
        exact hperm.append_right _
      · cases b with
        | true => cases hret
        | false =>
          cases hret
          simp
      · rw [List.length_append, hcount, typed_line, List.count_append]
        cases b <;> rfl
      · rcases h.terminal hpid with hw | ⟨_, _, hw⟩ <;> rw [hp] at hw <;> cases hw
      · rcases List.mem_append.1 hc with hc | hc
        · exact hended (h.ended hc hs)
        · rw [List.mem_singleton] at hc
          subst hc
          cases hs
      · cases b <;> cases htaken
      · exact ⟨hended (h.reports hr).1, fun hne => ((h.reports hr).2 hne).typed _⟩
      · cases b with
        | true => exact absurd rfl hne
        | false => exact ⟨typed es, typed_line⟩
    · cases hst
  | tcsetpgrp =>
    have hother : typed (es ++ [.tcsetpgrp]) = typed es := typed_other fun b he => nomatch he
    rw [step] at hst
    split at hst
    · next ret hp =>
      cases hst
      have hperm := h.perm
      have hcount := h.count
      have hlast := h.last (by simp [hp])
      rw [State.reaped, hp] at hperm
      rw [hp] at hcount
      refine ⟨hperm, fun {ret'} hret => ?_, ?_, fun {pid} hpid => ?_, fun hc hs => hended (h.ended hc hs),
        fun {_ _ _} htaken => (nomatch htaken), fun hr => ?_, fun _ => ?_⟩
      · cases hret
        exact h.current (by rw [hp]; rfl)
      · rw [hother]
        exact hcount
      · dsimp only at hpid
        split at hpid
        · cases hpid
          exact .inl rfl
        · rcases h.terminal hpid with hw | ⟨_, _, hw⟩ <;> rw [hp] at hw <;> cases hw
      · exact ⟨hended (h.reports hr).1, fun hne => ((h.reports hr).2 hne).typed _⟩
      · rwa [hother]
    · cases hst
  | wait pid =>
    have hother : typed (es ++ [.wait pid]) = typed es := typed_other fun b he => nomatch he
    rw [step] at hst
    split at hst
    · next ret status hp hw =>
      cases hst
      obtain ⟨c, l₁, l₂, hl, herase, hpid, hstatus⟩ := exists_of_wait hw
      have hc : c ∈ s.children := hl ▸ List.mem_append_right _ (List.mem_cons_self ..)
      have hperm := h.perm
      have hcount := h.count
      have hcurrent : ret ∈ s.children.map Child.pid := h.current (by rw [hp]; rfl)
      obtain ⟨l, hlast⟩ := h.last (by simp [hp])
      rw [State.reaped, hp] at hperm
      rw [hp] at hcount
      refine ⟨?_, fun hret => (nomatch hret), ?_, fun {q} hq => ?_, fun {d status} hd hs => ?_,
        fun {_ _ _} htaken => ?_, fun hr => ?_, fun _ => ?_⟩
      · rw [List.append_nil, hl, List.map_append, List.map_cons, hpid] at hperm
        rw [State.reaped, herase, List.map_append]
        refine .trans ?_ hperm
        rw [List.append_assoc, List.singleton_append]
        exact (List.perm_middle.symm).append_left _
      · rw [hother, herase]
        rw [hl] at hcount
        simp only [List.length_append, List.length_cons, Phase.current, Option.toList_some, Option.toList_none,
          List.length_nil] at hcount ⊢
        omega
      · rcases h.terminal hq with hq | ⟨_, _, hq⟩
        · rw [hp] at hq
          cases hq
          exact .inr ⟨_, _, rfl⟩
        · rw [hp] at hq
          cases hq
      · rw [herase] at hd
        refine hended (h.ended ?_ hs)
        rw [hl]
        rcases List.mem_append.1 hd with hd | hd
        · exact List.mem_append_left _ hd
        · exact List.mem_append_right _ (List.mem_cons_of_mem _ hd)
      · cases htaken
        refine ⟨hended (hpid ▸ h.ended hc hstatus), fun hne => ?_⟩
        -- there is another child than the one in the foreground, so that a line has been for the background
        have htrue : true ∈ typed es := by
          by_contra hno
          rw [List.count_eq_zero_of_not_mem hno] at hcount
          obtain ⟨d, hd⟩ := List.length_eq_one_iff.1 hcount
          rw [hd, List.mem_singleton] at hc
          rw [hd, List.map_singleton, List.mem_singleton] at hcurrent
          exact hne (by rw [← hpid, hc, hcurrent])
        rw [hother, hlast]
        rw [hlast, List.mem_append] at htrue
        exact mixed_of_mem (htrue.resolve_right fun hm => by simp at hm)
      · exact ⟨hended (h.reports hr).1, fun hne => ((h.reports hr).2 hne).typed _⟩
      · exact ⟨l, by rw [hother, hlast]⟩
    · cases hst
  | takeBack =>
    have hother : typed (es ++ [.takeBack]) = typed es := typed_other fun b he => nomatch he
    rw [step] at hst
    split at hst
    · next ret reaped status hp =>
      cases hst
      have hperm := h.perm
      have hcount := h.count
      have htaken := h.taken hp
      rw [State.reaped, hp] at hperm
      rw [hp] at hcount
      refine ⟨?_, fun hret => (nomatch hret), ?_, fun hq => (nomatch hq), fun hc hs => hended (h.ended hc hs),
        fun {_ _ _} ht => (nomatch ht), fun {r} hr => ?_, fun hne => absurd rfl hne⟩
      · rw [State.reaped, List.map_append, List.append_nil]
        exact hperm
      · rw [hother]
        exact hcount
      · rcases List.mem_append.1 hr with hr | hr
        · exact ⟨hended (h.reports hr).1, fun hne => ((h.reports hr).2 hne).typed _⟩
        · rw [List.mem_singleton] at hr
          subst hr
          exact ⟨hended htaken.1, fun hne => (htaken.2 hne).typed _⟩
    · cases hst
  | setpgid pid =>
    rw [step] at hst
    split at hst
    · cases hst
      refine h.alter (fun b he => nomatch he) (fun _ => rfl) fun {c status} hr hs => ?_
      have hnone := (Child.runs_iff.1 hr).2
      rw [show c.status = some status from hs] at hnone
      cases hnone
    · cases hst
  | exit pid status =>
    rw [step] at hst
    split at hst
    · cases hst
      refine h.alter (fun b he => nomatch he) (fun _ => rfl) fun {c status'} hr hs => ?_
      cases hs
      rw [(Child.runs_iff.1 hr).1]
      exact List.mem_append_right _ (List.mem_singleton_self _)
    · cases hst

theorem Inv.of_run (h : Run step (fun _ _ => True) start es s) : Inv es s :=
  h.inv_trace inv_start fun _ _ _ _ hs _ hst => inv_step hs hst

/-- **Every status is that of one command.**  No two reports are about the same process, and it has terminated with the
status that is printed; at the prompt the terminal is the shell's, and as many processes have not been waited for as
there have been commands in the background. -/
theorem accounted (h : Run step (fun _ _ => True) start es s) :
    (s.reports.map Report.reaped).Nodup ∧ (∀ r ∈ s.reports, .exit r.reaped r.status ∈ es) ∧
      (s.phase = .prompt → s.terminal = none ∧ s.children.length = (typed es).count true) := by
  have hinv := Inv.of_run h
  refine ⟨?_, fun r hr => (hinv.reports hr).1, fun hp => ⟨?_, ?_⟩⟩
  · have hnodup := hinv.perm.nodup_iff.2 List.nodup_range
    rw [State.reaped, List.append_assoc] at hnodup
    exact (List.nodup_append.1 hnodup).1
  · by_contra hne
    obtain ⟨pid, hpid⟩ := Option.ne_none_iff_exists'.1 hne
    rcases hinv.terminal hpid with hw | ⟨_, _, hw⟩ <;> rw [hp] at hw <;> cases hw
  · have hcount := hinv.count
    rwa [hp] at hcount

/-- A command in the foreground after one in the background, which terminates first. -/
theorem accounted_two : ∃ es s, Run step (fun _ _ => True) start es s ∧ s.reports = [⟨1, 0, 7⟩] ∧ .exit 0 7 ∈ es := by
  have hrun : ∃ s, Run step (fun _ _ => True) start
      [.line true, .line false, .setpgid 1, .tcsetpgrp, .exit 0 7, .wait 0, .takeBack] s ∧ s.reports = [⟨1, 0, 7⟩] :=
    ⟨_, run_of_runAll (p := fun _ _ => true) (fun _ _ _ => trivial) rfl, rfl⟩
  obtain ⟨s, hrun, hreports⟩ := hrun
  exact ⟨_, s, hrun, hreports, (accounted hrun).2.1 ⟨1, 0, 7⟩ (by simp [hreports])⟩

/-! ### Runs of lines -/

theorem Inv.fresh (h : Inv es s) (hc : c ∈ s.children) : c.pid < s.forked :=
  List.mem_range.1 (h.perm.subset (List.mem_append_right _ (List.mem_map_of_mem hc)))

/-- What `exit` does to the list of children. -/
def exited (pid : ℕ) (l : List Child) : List Child :=
  l.map fun c => if c.Runs pid then { c with status := some 0 } else c

/-- A command in the foreground; the process `d` terminates, and is the one that `wait` takes. -/
theorem exists_report (hp : s.phase = .prompt) {d : Child} (hd : d ∈ s.children ++ [⟨s.forked, false, none⟩])
    (hnone : d.status = none) :
    ∃ es t status, Run step (fun _ _ => True) s es t ∧ typed es = [false] ∧ t.phase = .prompt ∧
      t.reports = s.reports ++ [⟨s.forked, d.pid, status⟩] ∧
      t.children = (exited d.pid (s.children ++ [⟨s.forked, false, none⟩])).eraseP (Child.Ended d.pid) := by
  have hruns : d.Runs d.pid = true := Child.runs_iff.2 ⟨rfl, hnone⟩
  have hmem : { d with status := some 0 } ∈ exited d.pid (s.children ++ [⟨s.forked, false, none⟩]) := by
    refine List.mem_map.2 ⟨d, hd, ?_⟩
    rw [if_pos hruns]
  have hended : ({ d with status := some 0 } : Child).Ended d.pid = true :=
    Child.ended_iff.2 ⟨rfl, Option.some_ne_none 0⟩
  obtain ⟨c, hc⟩ := Option.isSome_iff_exists.1 (List.find?_isSome.2 ⟨_, hmem, hended⟩)
  obtain ⟨status, hstatus⟩ := Option.ne_none_iff_exists'.1 (Child.ended_iff.1 (List.find?_some hc)).2
  have hline : step s (.line false) =
      some ⟨.give s.forked, s.terminal, s.children ++ [⟨s.forked, false, none⟩], s.forked + 1, s.reports⟩ := by
    rw [step, hp]
    rfl
  obtain ⟨terminal, htcsetpgrp⟩ : ∃ terminal, step ⟨.give s.forked, s.terminal,
      s.children ++ [⟨s.forked, false, none⟩], s.forked + 1, s.reports⟩ .tcsetpgrp =
        some ⟨.wait s.forked, terminal, s.children ++ [⟨s.forked, false, none⟩], s.forked + 1, s.reports⟩ := ⟨_, rfl⟩
  have hexit : step ⟨.wait s.forked, terminal, s.children ++ [⟨s.forked, false, none⟩], s.forked + 1, s.reports⟩
      (.exit d.pid 0) = some ⟨.wait s.forked, terminal, exited d.pid (s.children ++ [⟨s.forked, false, none⟩]),
        s.forked + 1, s.reports⟩ := if_pos (List.any_eq_true.2 ⟨d, hd, hruns⟩)
  have hwait : step ⟨.wait s.forked, terminal, exited d.pid (s.children ++ [⟨s.forked, false, none⟩]), s.forked + 1,
      s.reports⟩ (.wait d.pid) = some ⟨.takeBack s.forked d.pid status, terminal,
        (exited d.pid (s.children ++ [⟨s.forked, false, none⟩])).eraseP (Child.Ended d.pid), s.forked + 1,
        s.reports⟩ := by
    rw [step]
    dsimp only
    rw [hc, Option.bind_some, hstatus]
  exact ⟨_, _, status, ((((Run.nil.snoc trivial hline).snoc trivial htcsetpgrp).snoc trivial hexit).snoc trivial
    hwait).snoc (a := .takeBack) trivial rfl, rfl, rfl, rfl, rfl⟩

/-- Where the command itself terminates, nobody else is concerned. -/
theorem exited_fresh {l : List Child} {n : ℕ} (h : ∀ c ∈ l, c.pid < n) :
    (exited n (l ++ [⟨n, false, none⟩])).eraseP (Child.Ended n) = l := by
  have hl : exited n l = l := by
    refine (List.map_congr_left fun c hc => ?_).trans (List.map_id l)
    refine if_neg fun hr => ?_
    have hlt := h c hc
    rw [(Child.runs_iff.1 hr).1] at hlt
    omega
  have hnew : exited n [⟨n, false, none⟩] = [⟨n, false, some 0⟩] :=
    congrArg (fun c => [c]) (if_pos (Child.runs_iff.2 ⟨rfl, rfl⟩))
  rw [exited, List.map_append]
  show (exited n l ++ exited n [⟨n, false, none⟩]).eraseP (Child.Ended n) = l
  rw [hl, hnew, List.eraseP_append_right, List.eraseP_cons_of_pos, List.append_nil]
  · exact Child.ended_iff.2 ⟨rfl, Option.some_ne_none 0⟩
  · intro c hc hended
    have hlt := h c hc
    rw [(Child.ended_iff.1 hended).1] at hlt
    omega

/-- Lines can be typed, and the processes that there are left alone. -/
theorem exists_typed (h : Run step (fun _ _ => True) start es s) (hp : s.phase = .prompt) (cs : List Bool) :
    ∃ es' t, Run step (fun _ _ => True) start (es ++ es') t ∧ typed es' = cs ∧ t.phase = .prompt ∧
      (∀ c ∈ s.children, c ∈ t.children) ∧ ∀ r ∈ s.reports, r ∈ t.reports := by
  induction cs generalizing es s with
  | nil => exact ⟨[], s, by rwa [List.append_nil], rfl, hp, fun c hc => hc, fun r hr => hr⟩
  | cons b cs ih =>
    obtain ⟨es₁, s₁, h₁, htyped₁, hp₁, hchildren₁, hreports₁⟩ : ∃ es' t,
        Run step (fun _ _ => True) start (es ++ es') t ∧ typed es' = [b] ∧ t.phase = .prompt ∧
        (∀ c ∈ s.children, c ∈ t.children) ∧ ∀ r ∈ s.reports, r ∈ t.reports := by
      cases b with
      | true =>
        have hline : step s (.line true) = some
            ⟨.prompt, s.terminal, s.children ++ [⟨s.forked, false, none⟩], s.forked + 1, s.reports⟩ := by
          rw [step, hp]
          rfl
        exact ⟨[.line true], _, h.snoc trivial hline, rfl, rfl, fun c hc => List.mem_append_left _ hc, fun r hr => hr⟩
      | false =>
        obtain ⟨es', t, status, hrun, htyped, ht, hreports, hchildren⟩ := exists_report hp
          (d := ⟨s.forked, false, none⟩) (List.mem_append_right _ (List.mem_singleton_self _)) rfl
        rw [exited_fresh fun c hc => (Inv.of_run h).fresh hc] at hchildren
        refine ⟨es', t, h.append hrun, htyped, ht, fun c hc => hchildren ▸ hc, fun r hr => ?_⟩
        rw [hreports]
        exact List.mem_append_left _ hr
    obtain ⟨es₂, s₂, h₂, htyped₂, hp₂, hchildren₂, hreports₂⟩ := ih h₁ hp₁
    refine ⟨es₁ ++ es₂, s₂, List.append_assoc es es₁ es₂ ▸ h₂, ?_, hp₂, fun c hc => hchildren₂ c (hchildren₁ c hc),
      fun r hr => hreports₂ r (hreports₁ r hr)⟩
    rw [typed_append, htyped₁, htyped₂, List.singleton_append]

/-- **The status is that of the command**, in every run of these lines, if and only if no command in the foreground
comes after one in the background. -/
theorem own_iff : (∀ es s, Run step (fun _ _ => True) start es s → typed es = cs → ∀ r ∈ s.reports, r.reaped = r.ret) ↔
    ¬ Mixed cs := by
  constructor
  · rintro h ⟨l₁, l₂, l₃, rfl⟩
    obtain ⟨es₁, s₁, h₁, htyped₁, hp₁, -, -⟩ := exists_typed .nil rfl l₁
    have hline : step s₁ (.line true) = some
        ⟨.prompt, s₁.terminal, s₁.children ++ [⟨s₁.forked, false, none⟩], s₁.forked + 1, s₁.reports⟩ := by
      rw [step, hp₁]
      rfl
    obtain ⟨es₂, s₂, h₂, htyped₂, hp₂, hchildren₂, -⟩ := exists_typed (h₁.snoc trivial hline) rfl l₂
    have hd : (⟨s₁.forked, false, none⟩ : Child) ∈ s₂.children :=
      hchildren₂ _ (List.mem_append_right _ (List.mem_singleton_self _))
    obtain ⟨es₃, s₃, status, hrun, htyped₃, hp₃, hreports₃, -⟩ := exists_report hp₂ (List.mem_append_left _ hd) rfl
    obtain ⟨es₄, s₄, h₄, htyped₄, -, -, hreports₄⟩ := exists_typed (h₂.append hrun) hp₃ l₃
    have hown := h _ s₄ h₄ ?_ _ (hreports₄ _ (hreports₃ ▸ List.mem_append_right _ (List.mem_singleton_self _)))
    · have hlt := (Inv.of_run h₂).fresh hd
      dsimp only at hown hlt
      omega
    · simp only [typed_append, htyped₁, htyped₂, htyped₃, htyped₄]
      simp [typed]
  · intro h es s hrun htyped r hr
    by_contra hne
    exact h (htyped ▸ ((Inv.of_run hrun).reports hr).2 hne)

end NetProg.Shell.Jobs
