import Mathlib.Algebra.BigOperators.Group.Finset.Piecewise
import NetProg.Lib.Run

/-!
# The rounds of a vote

The parent and the `n` children of `voting.c`, with the two message queues between them: the parent sends `n` tokens
through `msgid2` and counts `n` votes from `msgid`; a child answers each token that it receives with a vote.  A message is
neither lost nor sent twice, and the parties take their steps in any order.

* `inv_run`: what has become of the tokens of a round, after every run;
* `round_closed`: when a result is printed, nothing of the round is left, and it counts the votes of this round.
-/

namespace NetProg.Voting

open NetProg.Lib

/-! ### The processes -/

/-- Where the parent stands: in `sleep`, before it sends token `i`, or at the head of the loop that counts. -/
inductive Parent where
  | sleeping
  | sending (i : ℕ)
  | counting (c0 c1 : ℕ)
  deriving DecidableEq

/-- A child waits for a token, or has one and has still to vote. -/
inductive Child where
  | receiving
  | voting
  deriving DecidableEq

/-- The processes, and the `mesg_text` of the messages in the two queues. -/
structure State where
  parent : Parent
  child : ℕ → Child
  /-- the tokens -/
  msgid2 : List ℤ
  /-- the votes -/
  msgid : List ℤ

/-- The line that is printed at the end of a round. -/
inductive Result where
  | draw (c : ℕ)
  | wins (winner c0 c1 : ℕ)
  deriving DecidableEq

def result (c0 c1 : ℕ) : Result := if c0 = c1 then .draw c0 else .wins (if c1 > c0 then 1 else 0) c0 c1

/-- The parent begins a round, sends a token, comes to the end of this loop, counts a vote, or prints the result; a child
takes a token, or casts its vote. -/
inductive Act where
  | begin
  | send
  | tally
  | count (mesg_text : ℤ)
  | print (r : Result)
  | take (i : ℕ)
  | cast (i : ℕ) (toss : ℤ)
  deriving DecidableEq

/-- The queues have just been made, and the children forked. -/
def initial : State where
  parent := .sleeping
  child _ := .receiving
  msgid2 := []
  msgid := []

def step (n : ℕ) (s : State) : Act → Option State
  | .begin =>
    match s.parent with
    | .sleeping => some { s with parent := .sending 0 }
    | _ => none
  | .send =>
    match s.parent with
    | .sending i => if i < n then some { s with parent := .sending (i + 1), msgid2 := s.msgid2 ++ [-1] } else none
    | _ => none
  | .tally =>
    match s.parent with
    | .sending i => if i < n then none else some { s with parent := .counting 0 0 }
    | _ => none
  | .count mesg_text =>
    match s.parent, s.msgid with
    | .counting c0 c1, m :: msgid =>
      if c0 + c1 ≠ n ∧ m = mesg_text then some { s with
        parent := if m = 0 then .counting (c0 + 1) c1 else .counting c0 (c1 + 1)
        msgid := msgid }
      else none
    | _, _ => none
  | .print r =>
    match s.parent with
    | .counting c0 c1 => if c0 + c1 = n ∧ r = result c0 c1 then some { s with parent := .sleeping } else none
    | _ => none
  | .take i =>
    match s.msgid2 with
    | _ :: msgid2 =>
      if i < n ∧ s.child i = .receiving then some { s with child := Function.update s.child i .voting, msgid2 := msgid2 }
      else none
    | [] => none
  -- `toss = rand()%2`
  | .cast i toss =>
    if i < n ∧ s.child i = .voting ∧ (toss = 0 ∨ toss = 1) then some { s with
      child := Function.update s.child i .receiving
      msgid := s.msgid ++ [toss] }
    else none

/-! ### What has happened in a round -/

/-- The votes cast since the parent has begun to send tokens, with the children that have cast them, and those counted. -/
structure Log where
  cast : List (ℕ × ℤ)
  counted : List ℤ

def record (l : Log) : Act → Log
  | .begin => ⟨[], []⟩
  | .count mesg_text => { l with counted := l.counted ++ [mesg_text] }
  | .cast i toss => { l with cast := l.cast ++ [(i, toss)] }
  | _ => l

def log (as : List Act) : Log := as.foldl record ⟨[], []⟩

@[simp] theorem log_nil : log [] = ⟨[], []⟩ := rfl

@[simp] theorem log_append (as : List Act) (a : Act) : log (as ++ [a]) = record (log as) a := List.foldl_concat ..

namespace Log

/-- The votes that have been cast. -/
def votes (l : Log) : List ℤ := l.cast.map Prod.snd

/-- The children that have cast them. -/
def voters (l : Log) : List ℕ := l.cast.map Prod.fst

variable {l : Log} {i : ℕ} {toss : ℤ}

@[simp] theorem votes_cast : (record l (.cast i toss)).votes = l.votes ++ [toss] := by simp [record, votes]

@[simp] theorem voters_cast : (record l (.cast i toss)).voters = l.voters ++ [i] := by simp [record, voters]

end Log

/-! ### What a step can do -/

variable {n : ℕ} {s s' : State} {a : Act} {as : List Act} {l : Log}

theorem step_begin (h : step n s .begin = some s') : s.parent = .sleeping ∧ s' = { s with parent := .sending 0 } := by
  simp only [step] at h
  split at h
  · next hp => exact ⟨hp, (Option.some.inj h).symm⟩
  · cases h

theorem step_send (h : step n s .send = some s') :
    ∃ i < n, s.parent = .sending i ∧ s' = { s with parent := .sending (i + 1), msgid2 := s.msgid2 ++ [-1] } := by
  simp only [step] at h
  split at h
  · next i hp =>
    split at h
    · next hi => exact ⟨i, hi, hp, (Option.some.inj h).symm⟩
    · cases h
  · cases h

theorem step_tally (h : step n s .tally = some s') :
    ∃ i, n ≤ i ∧ s.parent = .sending i ∧ s' = { s with parent := .counting 0 0 } := by
  simp only [step] at h
  split at h
  · next i hp =>
    split at h
    · cases h
    · next hi => exact ⟨i, not_lt.1 hi, hp, (Option.some.inj h).symm⟩
  · cases h

theorem step_count {m : ℤ} (h : step n s (.count m) = some s') : ∃ c0 c1 msgid, s.parent = .counting c0 c1 ∧
    c0 + c1 ≠ n ∧ s.msgid = m :: msgid ∧
    s' = { s with parent := if m = 0 then .counting (c0 + 1) c1 else .counting c0 (c1 + 1), msgid := msgid } := by
  simp only [step] at h
  split at h
  · next c0 c1 _ msgid hp hm =>
    split at h
    · next hc =>
      obtain ⟨hc, rfl⟩ := hc
      exact ⟨c0, c1, msgid, hp, hc, hm, (Option.some.inj h).symm⟩
    · cases h
  · cases h

theorem step_print {r : Result} (h : step n s (.print r) = some s') : ∃ c0 c1, s.parent = .counting c0 c1 ∧
    c0 + c1 = n ∧ r = result c0 c1 ∧ s' = { s with parent := .sleeping } := by
  simp only [step] at h
  split at h
  · next c0 c1 hp =>
    split at h
    · next hc => exact ⟨c0, c1, hp, hc.1, hc.2, (Option.some.inj h).symm⟩
    · cases h
  · cases h

theorem step_take {i : ℕ} (h : step n s (.take i) = some s') : ∃ token msgid2, i < n ∧ s.child i = .receiving ∧
    s.msgid2 = token :: msgid2 ∧ s' = { s with child := Function.update s.child i .voting, msgid2 := msgid2 } := by
  simp only [step] at h
  split at h
  · next token msgid2 hm =>
    split at h
    · next hi => exact ⟨token, msgid2, hi.1, hi.2, hm, (Option.some.inj h).symm⟩
    · cases h
  · cases h

theorem step_cast {i : ℕ} {toss : ℤ} (h : step n s (.cast i toss) = some s') : i < n ∧ s.child i = .voting ∧
    (toss = 0 ∨ toss = 1) ∧
    s' = { s with child := Function.update s.child i .receiving, msgid := s.msgid ++ [toss] } := by
  simp only [step] at h
  split at h
  · next hi => exact ⟨hi.1, hi.2.1, hi.2.2, (Option.some.inj h).symm⟩
  · cases h

/-! ### The tokens of a round -/

/-- The number of children that have a token. -/
def held (n : ℕ) (child : ℕ → Child) : ℕ := ∑ i ∈ Finset.range n, if child i = .voting then 1 else 0

theorem held_eq_zero_iff {child : ℕ → Child} : held n child = 0 ↔ ∀ i < n, child i = .receiving := by
  simp only [held, Finset.sum_eq_zero_iff, Finset.mem_range, ite_eq_right_iff, one_ne_zero, imp_false]
  refine forall₂_congr fun i _ => ?_
  cases child i <;> simp

/-- A child counts on its own. -/
theorem held_update (child : ℕ → Child) {i : ℕ} (hi : i < n) (k : Child) :
    held n (Function.update child i k) + (if child i = .voting then 1 else 0) =
      held n child + if k = .voting then 1 else 0 := by
  have hmem : i ∈ Finset.range n := Finset.mem_range.2 hi
  have hrest : ∑ j ∈ (Finset.range n).erase i, (if Function.update child i k j = .voting then 1 else 0) =
      ∑ j ∈ (Finset.range n).erase i, if child j = .voting then 1 else 0 :=
    Finset.sum_congr rfl fun j hj => by rw [Function.update_of_ne (Finset.ne_of_mem_erase hj)]
  rw [held, held, ← Finset.add_sum_erase _ _ hmem, ← Finset.add_sum_erase _ _ hmem, hrest, Function.update_self]
  omega

/-- The tokens that have been sent in the round; none of them is left while the parent sleeps. -/
def sent (n : ℕ) (l : Log) : Parent → ℕ
  | .sleeping => l.cast.length
  | .sending i => i
  | .counting _ _ => n

/-- What the parent knows of the votes. -/
def Counts (n : ℕ) (l : Log) (msgid : List ℤ) : Parent → Prop
  | .sleeping => msgid = []
  | .sending i => i ≤ n ∧ l.counted = []
  | .counting c0 c1 => c0 = l.counted.count 0 ∧ c1 = l.counted.count 1

/-- Each token that has been sent is in the queue, with a child, or has been answered by a vote; and the votes that have
been cast in the round have been counted in it or are in the other queue, in this order. -/
structure Inv (n : ℕ) (l : Log) (s : State) : Prop where
  tokens : s.msgid2.length + held n s.child + l.cast.length = sent n l s.parent
  votes : l.votes = l.counted ++ s.msgid
  tosses : ∀ v ∈ l.votes, v = 0 ∨ v = 1
  counts : Counts n l s.msgid s.parent

theorem inv_initial (n : ℕ) : Inv n ⟨[], []⟩ initial where
  tokens := by simp [initial, sent, held]
  votes := rfl
  tosses := by simp [Log.votes]
  counts := rfl

/-- A list of 0s and 1s. -/
theorem count_add_count {v : List ℤ} (h : ∀ m ∈ v, m = 0 ∨ m = 1) : v.count 0 + v.count 1 = v.length := by
  induction v with
  | nil => rfl
  | cons m v ih =>
    have hv := ih fun m hm => h m (List.mem_cons_of_mem _ hm)
    rcases h m (List.mem_cons_self ..) with rfl | rfl
    · simp only [List.count_cons_self, List.length_cons, List.count_cons_of_ne (show (0 : ℤ) ≠ 1 by omega)]
      omega
    · simp only [List.count_cons_self, List.length_cons, List.count_cons_of_ne (show (1 : ℤ) ≠ 0 by omega)]
      omega

/-- **The end of a round**: all tokens have been answered, and all votes counted. -/
theorem Inv.closed {c0 c1 : ℕ} (h : Inv n l s) (hp : s.parent = .counting c0 c1) (hc : c0 + c1 = n) :
    s.msgid2 = [] ∧ s.msgid = [] ∧ (∀ i < n, s.child i = .receiving) ∧ l.counted = l.votes ∧ l.cast.length = n := by
  obtain ⟨htokens, hvotes, htosses, hcounts⟩ := h
  rw [hp] at htokens hcounts
  obtain ⟨rfl, rfl⟩ := hcounts
  have hcounted : l.counted.length = n := by
    rw [← hc, count_add_count fun m hm => htosses m (hvotes ▸ List.mem_append_left _ hm)]
  have hlen : l.cast.length = l.counted.length + s.msgid.length := by
    rw [← List.length_append, ← hvotes, Log.votes, List.length_map]
  have hsent : s.msgid2.length + held n s.child + l.cast.length = n := htokens
  have hheld : held n s.child = 0 := by omega
  have hmsgid : s.msgid = [] := List.length_eq_zero_iff.1 (by omega)
  refine ⟨List.length_eq_zero_iff.1 (by omega), hmsgid, held_eq_zero_iff.1 hheld, ?_, by omega⟩
  rw [hvotes, hmsgid, List.append_nil]

/-- While the parent sleeps, there are no tokens. -/
theorem Inv.asleep (h : Inv n l s) (hp : s.parent = .sleeping) : s.msgid2 = [] ∧ ∀ i < n, s.child i = .receiving := by
  have htokens := h.tokens
  rw [hp, sent] at htokens
  exact ⟨List.length_eq_zero_iff.1 (by omega), held_eq_zero_iff.1 (by omega)⟩

theorem Inv.step (h : Inv n l s) (hst : step n s a = some s') : Inv n (record l a) s' := by
  have hinv := h
  obtain ⟨htokens, hvotes, htosses, hcounts⟩ := h
  cases a with
  | begin =>
    obtain ⟨hp, rfl⟩ := step_begin hst
    rw [hp] at htokens hcounts
    have hm : s.msgid = [] := hcounts
    refine ⟨?_, ?_, ?_, ⟨n.zero_le, rfl⟩⟩
    · dsimp only [sent, record, List.length_nil] at *
      omega
    · simp [record, Log.votes, hm]
    · simp [record, Log.votes]
  | send =>
    obtain ⟨i, hi, hp, rfl⟩ := step_send hst
    rw [hp] at htokens hcounts
    refine ⟨?_, hvotes, htosses, ⟨hi, hcounts.2⟩⟩
    simp only [sent, record, List.length_append, List.length_singleton] at *
    omega
  | tally =>
    obtain ⟨i, hi, hp, rfl⟩ := step_tally hst
    rw [hp] at htokens hcounts
    have hn : i = n := le_antisymm hcounts.1 hi
    refine ⟨htokens.trans hn, hvotes, htosses, ?_⟩
    simp [record, Counts, hcounts.2]
  | count m =>
    obtain ⟨c0, c1, msgid, hp, -, hm, rfl⟩ := step_count hst
    rw [hp] at htokens hcounts
    obtain ⟨rfl, rfl⟩ := hcounts
    have hmem : m ∈ l.votes := by
      rw [hvotes, hm]
      exact List.mem_append_right _ (List.mem_cons_self ..)
    refine ⟨?_, ?_, htosses, ?_⟩
    · by_cases h0 : m = 0 <;> simpa [h0, sent, record] using htokens
    · simpa [hm, record, Log.votes] using hvotes
    · rcases htosses m hmem with rfl | rfl <;> simp [record, Counts]
  | print r =>
    obtain ⟨c0, c1, hp, hc, -, rfl⟩ := step_print hst
    obtain ⟨-, hmsgid, -, -, hlen⟩ := hinv.closed hp hc
    rw [hp] at htokens
    exact ⟨htokens.trans hlen.symm, hvotes, htosses, hmsgid⟩
  | take i =>
    obtain ⟨token, msgid2, hi, hr, hm, rfl⟩ := step_take hst
    refine ⟨?_, hvotes, htosses, hcounts⟩
    have hheld := held_update s.child hi .voting
    rw [hm] at htokens
    simp only [hr, record, List.length_cons, if_true, reduceCtorEq, if_false] at *
    omega
  | cast i toss =>
    obtain ⟨hi, hv, ht, rfl⟩ := step_cast hst
    have hheld := held_update s.child hi .receiving
    have hwake : s.parent ≠ .sleeping := fun hp => by
      rw [(hinv.asleep hp).2 i hi] at hv
      cases hv
    have hsent : sent n (record l (.cast i toss)) s.parent = sent n l s.parent ∧
        (Counts n l s.msgid s.parent → Counts n (record l (.cast i toss)) (s.msgid ++ [toss]) s.parent) := by
      cases hp : s.parent with
      | sleeping => exact absurd hp hwake
      | sending i => exact ⟨rfl, id⟩
      | counting c0 c1 => exact ⟨rfl, id⟩
    refine ⟨?_, ?_, ?_, hsent.2 hcounts⟩
    · rw [hsent.1, ← htokens]
      simp only [hv, record, List.length_append, List.length_singleton, if_true, reduceCtorEq, if_false] at *
      omega
    · rw [Log.votes_cast, hvotes, List.append_assoc]
      rfl
    · simp only [Log.votes_cast, List.mem_append, List.mem_singleton]
      rintro v (hm | rfl)
      · exact htosses v hm
      · exact ht

/-- What has become of the tokens of the round, in every run. -/
theorem inv_run (h : Run (step n) (fun _ _ => True) initial as s) : Inv n (log as) s :=
  h.inv_trace (I := fun as s => Inv n (log as) s) (inv_initial n) fun as _ a _ hi _ hst =>
    (log_append as a).symm ▸ hi.step hst

/-- **Rounds are closed.**  In every run, the votes counted so far are the first of those cast in the same round; and when
a result is printed, both queues are empty, no child has a token, and the result counts the votes of this round. -/
theorem round_closed (h : Run (step n) (fun _ _ => True) initial as s) :
    (log as).counted <+: (log as).votes ∧
    ∀ r s', step n s (.print r) = some s' → s.msgid2 = [] ∧ s.msgid = [] ∧ (∀ i < n, s.child i = .receiving) ∧
      (log as).counted = (log as).votes ∧
      ∃ c0 c1, s.parent = .counting c0 c1 ∧ r = result c0 c1 ∧ c0 + c1 = n ∧
        c0 = (log as).votes.count 0 ∧ c1 = (log as).votes.count 1 := by
  have hinv := inv_run h
  refine ⟨⟨_, hinv.votes.symm⟩, fun r s' hst => ?_⟩
  obtain ⟨c0, c1, hp, hc, hr, -⟩ := step_print hst
  obtain ⟨hmsgid2, hmsgid, hchild, hcounted, -⟩ := hinv.closed hp hc
  have hcounts := hinv.counts
  rw [hp] at hcounts
  exact ⟨hmsgid2, hmsgid, hchild, hcounted, c0, c1, hp, hr, hc, hcounted ▸ hcounts.1, hcounted ▸ hcounts.2⟩

/-- Two rounds of two children, a draw and a vote for 1. -/
def rounds : List Act :=
  [.begin, .send, .take 1, .send, .tally, .cast 1 0, .take 0, .count 0, .cast 0 1, .count 1, .print (.draw 1),
    .begin, .send, .send, .tally, .take 0, .take 1, .cast 1 1, .cast 0 1, .count 1, .count 1]

theorem round_closed_two : ∃ s ∈ runAll (step 2) (fun _ _ => true) initial rounds,
    (step 2 s (.print (.wins 1 0 2))).isSome ∧ s.msgid2 = [] ∧ s.msgid = [] ∧ s.child 0 = .receiving ∧
    ∃ c0 c1, s.parent = .counting c0 c1 ∧ .wins 1 0 2 = result c0 c1 := by
  have hrun : ∃ s ∈ runAll (step 2) (fun _ _ => true) initial rounds, (step 2 s (.print (.wins 1 0 2))).isSome := by
    decide
  obtain ⟨s, hs, hst⟩ := hrun
  obtain ⟨s', hprint⟩ := Option.isSome_iff_exists.1 hst
  obtain ⟨hmsgid2, hmsgid, hchild, -, c0, c1, hp, hr, -⟩ :=
    (round_closed (run_of_runAll (fun _ _ _ => trivial) hs)).2 _ s' hprint
  exact ⟨s, hs, hst, hmsgid2, hmsgid, hchild 0 (by omega), c0, c1, hp, hr⟩

end NetProg.Voting
