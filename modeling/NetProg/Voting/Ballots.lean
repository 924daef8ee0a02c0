import NetProg.Voting.Rounds

/-!
# One vote for each child

The tokens of a round are alike, and a child that has voted waits for the next one at once: it may take a second token of
the round, and another child then takes none.

* `one_vote_iff`: each child has one vote in each round of a run if and only if nobody takes a token of these rounds who
  has already voted;
* `two_votes`: a round of two children in which one of them votes twice.
-/

namespace NetProg.Voting

open NetProg.Lib

variable {n : ℕ} {s s' : State} {a : Act} {as bs cs : List Act} {l : Log} {i : ℕ} {r : Result}

/-- In every round that comes to a result, each child has cast one vote. -/
def OneVote (n : ℕ) (as : List Act) : Prop :=
  ∀ bs r cs, as = bs ++ .print r :: cs → ∀ i < n, (log bs).voters.count i = 1

/-- In every round that comes to a result, a token goes to a child that has not voted since the round began. -/
def InTurn (as : List Act) : Prop :=
  ∀ bs i cs, as = bs ++ .take i :: cs → (∃ r, .print r ∈ cs) → i ∉ (log bs).voters

/-! ### Tokens in turn -/

/-- Nobody has voted twice, nor is about to. -/
structure Once (n : ℕ) (l : Log) (s : State) : Prop where
  voters : ∀ i ∈ l.voters, i < n
  nodup : l.voters.Nodup
  voting : ∀ i, s.child i = .voting → i ∉ l.voters

theorem once_initial (n : ℕ) : Once n ⟨[], []⟩ initial where
  voters := by simp [Log.voters]
  nodup := List.nodup_nil
  voting := by simp [initial]

theorem Once.step (h : Once n l s) (ha : ∀ i, a = .take i → i ∉ l.voters) (hst : step n s a = some s') :
    Once n (record l a) s' := by
  cases a with
  | begin =>
    obtain ⟨-, rfl⟩ := step_begin hst
    exact ⟨by simp [record, Log.voters], List.nodup_nil, by simp [record, Log.voters]⟩
  | send =>
    obtain ⟨i, -, -, rfl⟩ := step_send hst
    exact ⟨h.voters, h.nodup, h.voting⟩
  | tally =>
    obtain ⟨i, -, -, rfl⟩ := step_tally hst
    exact ⟨h.voters, h.nodup, h.voting⟩
  | count m =>
    obtain ⟨c0, c1, msgid, -, -, -, rfl⟩ := step_count hst
    exact ⟨h.voters, h.nodup, h.voting⟩
  | print r =>
    obtain ⟨c0, c1, -, -, -, rfl⟩ := step_print hst
    exact ⟨h.voters, h.nodup, h.voting⟩
  | take i =>
    obtain ⟨token, msgid2, -, -, -, rfl⟩ := step_take hst
    refine ⟨h.voters, h.nodup, fun j hj => ?_⟩
    by_cases hji : j = i
    · exact hji ▸ ha i rfl
    · exact h.voting j (by simpa [hji] using hj)
  | cast i toss =>
    obtain ⟨hi, hv, -, rfl⟩ := step_cast hst
    refine ⟨?_, ?_, fun j hj => ?_⟩
    · simp only [Log.voters_cast, List.mem_append, List.mem_singleton]
      rintro j (hj | rfl)
      · exact h.voters j hj
      · exact hi
    · rw [Log.voters_cast, List.nodup_append]
      refine ⟨h.nodup, List.nodup_singleton i, ?_⟩
      rintro j hj k hk rfl
      exact h.voting i hv (List.mem_singleton.1 hk ▸ hj)
    · by_cases hji : j = i
      · simp [hji] at hj
      · rw [Log.voters_cast, List.mem_append, List.mem_singleton, not_or]
        exact ⟨h.voting j (by simpa [hji] using hj), hji⟩

/-- A run whose tokens are all taken in turn. -/
theorem once_run (h : Run (step n) (fun _ _ => True) initial as s)
    (hturn : ∀ bs i cs, as = bs ++ .take i :: cs → i ∉ (log bs).voters) : Once n (log as) s := by
  induction h with
  | nil => exact once_initial n
  | @snoc as a s s' h _ hst ih =>
    rw [log_append]
    refine (ih fun bs i cs he => hturn bs i (cs ++ [a]) (by simp [he])).step (fun i ha => ?_) hst
    exact hturn as i [] (by rw [ha])

/-- With as many votes as children, each child has one. -/
theorem Once.count_eq_one (h : Once n l s) (hlen : l.cast.length = n) {i : ℕ} (hi : i < n) : l.voters.count i = 1 := by
  have hsub : l.voters.toFinset ⊆ Finset.range n := fun j hj => by
    simpa using h.voters j (List.mem_toFinset.1 hj)
  have hcard : (Finset.range n).card ≤ l.voters.toFinset.card := by
    rw [Finset.card_range, List.toFinset_card_of_nodup h.nodup, Log.voters, List.length_map, hlen]
  have hmem : i ∈ l.voters.toFinset := Finset.eq_of_subset_of_card_le hsub hcard ▸ Finset.mem_range.2 hi
  exact List.count_eq_one_of_mem h.nodup (List.mem_toFinset.1 hmem)

/-! ### A second token -/

/-- The child `i` has voted, and has a second vote or is about to cast it, in a round that goes on. -/
structure Twice (n i : ℕ) (l : Log) (s : State) : Prop where
  child : i < n
  awake : s.parent ≠ .sleeping
  twice : 2 ≤ l.voters.count i + if s.child i = .voting then 1 else 0

theorem Twice.step (h : Twice n i l s) (ha : ∀ r, a ≠ .print r) (hst : step n s a = some s') :
    Twice n i (record l a) s' := by
  cases a with
  | begin =>
    obtain ⟨hp, -⟩ := step_begin hst
    exact absurd hp h.awake
  | send =>
    obtain ⟨j, -, -, rfl⟩ := step_send hst
    exact ⟨h.child, by simp, h.twice⟩
  | tally =>
    obtain ⟨j, -, -, rfl⟩ := step_tally hst
    exact ⟨h.child, by simp, h.twice⟩
  | count m =>
    obtain ⟨c0, c1, msgid, -, -, -, rfl⟩ := step_count hst
    refine ⟨h.child, ?_, h.twice⟩
    by_cases h0 : m = 0 <;> simp [h0]
  | print r => exact absurd rfl (ha r)
  | take j =>
    obtain ⟨token, msgid2, -, -, -, rfl⟩ := step_take hst
    refine ⟨h.child, h.awake, ?_⟩
    by_cases hji : i = j
    · have htwice := h.twice
      subst hji
      simp only [record, Function.update_self, if_true]
      split at htwice <;> omega
    · simpa [record, hji] using h.twice
  | cast j toss =>
    obtain ⟨-, hv, -, rfl⟩ := step_cast hst
    refine ⟨h.child, h.awake, ?_⟩
    by_cases hji : i = j
    · have htwice := h.twice
      subst hji
      simpa [hv] using htwice
    · simpa [List.count_append, List.count_singleton, hji, Ne.symm hji] using h.twice

/-- Whoever takes a token behind its vote has two votes once the round comes to its result. -/
theorem twice_run (h : Run (step n) (fun _ _ => True) initial as s) (he : as = bs ++ .take i :: cs)
    (hi : i ∈ (log bs).voters) : Twice n i (log as) s ∧ (∀ r, .print r ∉ cs) ∨
    ∃ ds r es, as = ds ++ .print r :: es ∧ i < n ∧ 2 ≤ (log ds).voters.count i := by
  induction h generalizing cs with
  | nil => exact absurd he (by simp)
  | @snoc as a s s' h _ hst ih =>
    rcases List.eq_nil_or_concat cs with rfl | ⟨cs, b, rfl⟩
    · -- the token is taken in the last step
      obtain ⟨rfl, hb⟩ := List.append_inj' he rfl
      obtain rfl : a = .take i := (List.cons.inj hb).1
      refine .inl ⟨?_, by simp⟩
      obtain ⟨token, msgid2, hlt, -, hm, rfl⟩ := step_take hst
      refine ⟨hlt, fun hp => ?_, ?_⟩
      · rw [((inv_run h).asleep hp).1] at hm
        cases hm
      · have hpos := List.count_pos_iff.2 hi
        simp only [log_append, record, Function.update_self, if_true]
        omega
    · rw [List.concat_eq_append, ← List.cons_append, ← List.append_assoc] at he
      obtain ⟨hes, hb⟩ := List.append_inj' he rfl
      obtain rfl : a = b := (List.cons.inj hb).1
      rcases ih hes with ⟨ht, hn⟩ | ⟨ds, r, es, rfl, hlt, h2⟩
      · by_cases hprint : ∃ r, a = .print r
        · -- the round comes to its result
          obtain ⟨r, rfl⟩ := hprint
          obtain ⟨c0, c1, hp, hc, -, -⟩ := step_print hst
          obtain ⟨-, -, hchild, -, -⟩ := (inv_run h).closed hp hc
          have htwice := ht.twice
          rw [hchild i ht.child] at htwice
          exact .inr ⟨as, r, [], rfl, ht.child, by simpa using htwice⟩
        · rw [log_append]
          refine .inl ⟨ht.step (fun r hr => hprint ⟨r, hr⟩) hst, fun r hr => ?_⟩
          rw [List.concat_eq_append, List.mem_append, List.mem_singleton] at hr
          rcases hr with hr | hr
          · exact hn r hr
          · exact hprint ⟨r, hr.symm⟩
      · exact .inr ⟨ds, r, es ++ [a], by simp, hlt, h2⟩

/-- **One vote for each child**, in every round of a run: if and only if no token of these rounds is taken by a child that
has already voted. -/
theorem one_vote_iff (h : Run (step n) (fun _ _ => True) initial as s) : OneVote n as ↔ InTurn as := by
  constructor
  · rintro hone bs i cs he ⟨r, hr⟩ hi
    rcases twice_run h he hi with ⟨-, hn⟩ | ⟨ds, r, es, hes, hlt, h2⟩
    · exact hn r hr
    · have := hone ds r es hes i hlt
      omega
  · rintro hturn bs r cs rfl i hi
    have h' : Run (step n) (fun _ _ => True) initial ((bs ++ [.print r]) ++ cs) s := by simpa using h
    obtain ⟨t', hbs⟩ := h'.first
    obtain ⟨t, hrun, -, hst⟩ := hbs.last
    obtain ⟨c0, c1, hp, hc, -, -⟩ := step_print hst
    obtain ⟨-, -, -, -, hlen⟩ := (inv_run hrun).closed hp hc
    refine (once_run hrun fun ds j es he => ?_).count_eq_one hlen hi
    exact hturn ds j (es ++ .print r :: cs) (by simp [he]) ⟨r, by simp⟩

/-- Two children that vote in turn. -/
theorem one_vote_iff_two : ∃ s ∈ runAll (step 2) (fun _ _ => true) initial
    [.begin, .send, .take 1, .send, .tally, .take 0, .cast 0 1, .cast 1 0, .count 1, .count 0, .print (.draw 1)],
    s.msgid = [] ∧ (OneVote 2
      [.begin, .send, .take 1, .send, .tally, .take 0, .cast 0 1, .cast 1 0, .count 1, .count 0, .print (.draw 1)] ↔
    InTurn [.begin, .send, .take 1, .send, .tally, .take 0, .cast 0 1, .cast 1 0, .count 1, .count 0, .print (.draw 1)]) := by
  have hrun : ∃ s ∈ runAll (step 2) (fun _ _ => true) initial
      [.begin, .send, .take 1, .send, .tally, .take 0, .cast 0 1, .cast 1 0, .count 1, .count 0, .print (.draw 1)],
      s.msgid = [] := by decide
  obtain ⟨s, hs, hm⟩ := hrun
  exact ⟨s, hs, hm, one_vote_iff (run_of_runAll (fun _ _ _ => trivial) hs)⟩

/-- A round of two children, both tokens of which are taken by the first. -/
def unequal : List Act :=
  [.begin, .send, .send, .tally, .take 0, .cast 0 0, .take 0, .cast 0 0, .count 0, .count 0]

/-- **One child votes twice**, and the other one does not. -/
theorem two_votes : ¬ ∀ n as s, Run (step n) (fun _ _ => True) initial as s → OneVote n as := by
  intro h
  have hrun : ∃ s ∈ runAll (step 2) (fun _ _ => true) initial (unequal ++ [.print (.wins 0 2 0)]), s.msgid = [] := by decide
  obtain ⟨s, hs, -⟩ := hrun
  have hone := h 2 _ s (run_of_runAll (fun _ _ _ => trivial) hs) unequal _ [] rfl 1 (by omega)
  exact absurd hone (by decide)

end NetProg.Voting
