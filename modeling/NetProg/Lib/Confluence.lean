import Mathlib.Logic.Relation
import NetProg.Lib.Run

/-!
# Systems whose actions commute

`step s a` is the state after the action `a`.  Where two different actions that are possible in one state can be taken
in either order and lead to the same state (`Commuting`), the order in which actions are taken does not matter: once one
run from `s` has come to a state with no further action, every run from `s` is at most as long and can be continued to
that state (`Commuting.run_to_end`).  Where every action leaves less to be done, every run comes to an end as well
(`Progressing.alwaysEnds`), which need not be the same.
-/

namespace NetProg.Lib

variable {S A : Type}

/-- Any two actions that are possible in one state can be taken in either order. -/
def Commuting (step : S → A → Option S) : Prop :=
  ∀ s a b s₁ s₂, a ≠ b → step s a = some s₁ → step s b = some s₂ → ∃ t, step s₁ b = some t ∧ step s₂ a = some t

/-- No action is possible. -/
def Ended (step : S → A → Option S) (s : S) : Prop := ∀ a, step s a = none

/-- `n` actions lead from one state to the other. -/
def Steps (step : S → A → Option S) : ℕ → S → S → Prop
  | 0, s, t => s = t
  | n + 1, s, t => ∃ a s₁, step s a = some s₁ ∧ Steps step n s₁ t

/-- Some actions lead from one state to the other. -/
def Reaches (step : S → A → Option S) (s t : S) : Prop := ∃ n, Steps step n s t

variable {step : S → A → Option S} {s t u : S} {m n : ℕ} {a : A}

theorem Steps.append (h : Steps step m s t) (h' : Steps step n t u) : Steps step (m + n) s u := by
  induction m generalizing s with
  | zero => exact h ▸ (Nat.zero_add n).symm ▸ h'
  | succ m ih =>
    obtain ⟨a, s₁, hs, h⟩ := h
    exact (Nat.succ_add m n).symm ▸ ⟨a, s₁, hs, ih h⟩

theorem Reaches.refl : Reaches step s s := ⟨0, rfl⟩

theorem Reaches.single (h : step s a = some t) : Reaches step s t := ⟨1, a, t, h, rfl⟩

theorem Reaches.trans (h : Reaches step s t) (h' : Reaches step t u) : Reaches step s u := by
  obtain ⟨m, h⟩ := h
  obtain ⟨n, h'⟩ := h'
  exact ⟨m + n, h.append h'⟩

/-- What one system does, another does too that has its actions. -/
theorem Reaches.mono {B : Type} {step' : S → B → Option S} (h : Reaches step s t)
    (hstep : ∀ s a t, step s a = some t → ∃ b, step' s b = some t) : Reaches step' s t := by
  obtain ⟨n, h⟩ := h
  induction n generalizing s with
  | zero => exact ⟨0, h⟩
  | succ n ih =>
    obtain ⟨a, s₁, hs, h⟩ := h
    obtain ⟨b, hb⟩ := hstep s a s₁ hs
    exact (Reaches.single hb).trans (ih h)

/-- An action taken on the way to an end is not lost: the rest of the way is one action shorter. -/
theorem Commuting.steps_of_step (hc : Commuting step) (hn : Steps step n s t) (ht : Ended step t)
    (h : step s a = some u) : ∃ m, n = m + 1 ∧ Steps step m u t := by
  induction n generalizing s u with
  | zero =>
    cases hn
    rw [ht a] at h
    cases h
  | succ n ih =>
    obtain ⟨b, s₁, hb, hn⟩ := hn
    by_cases hab : a = b
    · subst hab
      rw [hb] at h
      cases h
      exact ⟨n, rfl, hn⟩
    · obtain ⟨w, hw, hw'⟩ := hc _ _ _ _ _ hab h hb
      obtain ⟨m, rfl, hm⟩ := ih hn hw'
      exact ⟨m + 1, rfl, b, w, hw, hm⟩

/-- **All runs end alike**: none is longer than one that has ended, and each can be continued to the same end. -/
theorem Commuting.run_to_end (hc : Commuting step) (hn : Steps step n s t) (ht : Ended step t) {P : S → A → Prop}
    {as : List A} (h : Run step P s as u) : as.length ≤ n ∧ Steps step (n - as.length) u t := by
  induction h with
  | nil => exact ⟨Nat.zero_le n, hn⟩
  | @snoc bs b v w _ _ hst ih =>
    obtain ⟨hle, hs⟩ := ih
    obtain ⟨m, hm, hs'⟩ := hc.steps_of_step hs ht hst
    have e : n - (bs ++ [b]).length = m := by simp; omega
    exact ⟨by simp; omega, e ▸ hs'⟩

/-- Every run from `s` is finite, and `Q` holds where no action is possible any more. -/
def AlwaysEnds (step : S → A → Option S) (s : S) (Q : S → Prop) : Prop :=
  ∃ n, ∀ as t, Run step (fun _ _ => True) s as t → as.length ≤ n ∧ (Ended step t → Q t)

theorem Reaches.run (h : Reaches step s t) : ∃ as, Run step (fun _ _ => True) s as t := by
  obtain ⟨n, h⟩ := h
  induction n generalizing s with
  | zero => exact h ▸ ⟨[], .nil⟩
  | succ n ih =>
    obtain ⟨a, s₁, hs, h⟩ := h
    obtain ⟨as, has⟩ := ih h
    exact ⟨[a] ++ as, (Run.snoc .nil trivial hs).append has⟩

/-- What every action keeps holds of every state that is reached. -/
theorem Reaches.inv (h : Reaches step s t) (I : S → Prop) (hs : I s)
    (hstep : ∀ s a t, I s → step s a = some t → I t) : I t := by
  obtain ⟨as, hrun⟩ := h.run
  exact hrun.inv I hs fun s a t hi _ ht => hstep s a t hi ht

/-- Where an action is always possible, runs have any length. -/
theorem exists_run (hp : ∀ as t, Run step (fun _ _ => True) s as t → ¬ Ended step t) :
    ∃ as t, Run step (fun _ _ => True) s as t ∧ as.length = n := by
  induction n with
  | zero => exact ⟨[], s, .nil, rfl⟩
  | succ n ih =>
    obtain ⟨as, t, hr, hl⟩ := ih
    obtain ⟨a, ha⟩ := not_forall.1 (hp as t hr)
    obtain ⟨u, hu⟩ := Option.ne_none_iff_exists'.1 ha
    exact ⟨as ++ [a], u, .snoc hr trivial hu, by simp [hl]⟩

/-- **No run ends well** that has come to where an invariant rules `Q` out. -/
theorem not_alwaysEnds {I Q : S → Prop} (hI : ∀ s a t, I s → step s a = some t → I t) (hQ : ∀ s, I s → ¬ Q s)
    (h : Reaches step s t) (ht : I t) : ¬ AlwaysEnds step s Q := by
  rintro ⟨n, hn⟩
  obtain ⟨as, has⟩ := h.run
  by_cases hp : ∀ bs u, Run step (fun _ _ => True) t bs u → ¬ Ended step u
  · obtain ⟨bs, u, hbs, hl⟩ := exists_run (n := n + 1) hp
    have hle := (hn _ u (has.append hbs)).1
    rw [List.length_append] at hle
    omega
  · simp only [not_forall, not_not] at hp
    obtain ⟨bs, u, hbs, hend⟩ := hp
    have hu : I u := hbs.inv I ht fun s a t hs _ hst => hI s a t hs hst
    exact hQ u hu ((hn _ u (has.append hbs)).2 hend)

/-- Some run has come to the end. -/
theorem AlwaysEnds.exists_end {Q : S → Prop} (h : AlwaysEnds step s Q) :
    ∃ as t, Run step (fun _ _ => True) s as t ∧ Ended step t ∧ Q t := by
  obtain ⟨n, hn⟩ := h
  by_contra hno
  obtain ⟨as, t, hrun, hlen⟩ := exists_run (n := n + 1) fun as t hrun hend => hno ⟨as, t, hrun, hend, (hn as t hrun).2 hend⟩
  have hle := (hn as t hrun).1
  omega

/-- Every action keeps `I`, and leaves less to be done. -/
structure Progressing (step : S → A → Option S) (I : S → Prop) (work : S → ℕ) : Prop where
  keeps : ∀ s a t, I s → step s a = some t → I t
  less : ∀ s a t, I s → step s a = some t → work t < work s

/-- **Where every action makes progress**, every run ends, and does so where `I` holds and nothing is possible. -/
theorem Progressing.alwaysEnds {I Q : S → Prop} {work : S → ℕ} (hp : Progressing step I work) (hs : I s)
    (hQ : ∀ t, I t → Ended step t → Q t) : AlwaysEnds step s Q := by
  refine ⟨work s, fun as t hrun => ?_⟩
  have hinv : I t ∧ as.length + work t ≤ work s := by
    induction hrun with
    | nil => exact ⟨hs, by simp⟩
    | @snoc bs b u v _ _ hst ih =>
      obtain ⟨hu, hle⟩ := ih
      have hlt := hp.less u b v hu hst
      refine ⟨hp.keeps u b v hu hst, ?_⟩
      rw [List.length_append, List.length_singleton]
      omega
  exact ⟨by omega, hQ t hinv.1⟩

/-- What can only go on for a while comes to an end. -/
theorem Progressing.exists_end {I : S → Prop} {work : S → ℕ} (hp : Progressing step I work) (hs : I s) :
    ∃ t, Reaches step s t ∧ Ended step t ∧ I t := by
  induction hn : work s using Nat.strongRecOn generalizing s with
  | _ n ih =>
    by_cases hend : Ended step s
    · exact ⟨s, .refl, hend, hs⟩
    · obtain ⟨a, ha⟩ := not_forall.1 hend
      obtain ⟨u, hu⟩ := Option.ne_none_iff_exists'.1 ha
      obtain ⟨t, ht, htend, hit⟩ := ih _ (hn ▸ hp.less s a u hs hu) (hp.keeps s a u hs hu) rfl
      exact ⟨t, (Reaches.single hu).trans ht, htend, hit⟩

/-- The end that one run has come to is the end of every run. -/
theorem Commuting.alwaysEnds_iff (hc : Commuting step) (h : Reaches step s t) (ht : Ended step t) {Q : S → Prop} :
    AlwaysEnds step s Q ↔ Q t := by
  obtain ⟨n, hn⟩ := h
  constructor
  · rintro ⟨k, hk⟩
    obtain ⟨as, has⟩ := Reaches.run ⟨n, hn⟩
    exact (hk as t has).2 ht
  · refine fun hq => ⟨n, fun as u hu => ?_⟩
    obtain ⟨hle, hs⟩ := hc.run_to_end hn ht hu
    refine ⟨hle, fun hend => ?_⟩
    cases e : n - as.length with
    | zero =>
      rw [e] at hs
      exact hs ▸ hq
    | succ m =>
      rw [e] at hs
      obtain ⟨a, s₁, hs, -⟩ := hs
      rw [hend a] at hs
      cases hs

end NetProg.Lib
