import NetProg.Cluster.Pipe

/-!
# Composition of the stages

`composes_iff`: whatever the order in which the helper, the stage and the parent take their turns, every stage is given what
the one before it has written, the last output is printed, and nobody waits for what is never written, if and only if every
stage is `Orderly`.  `Good` are the states that an orderly line goes through; where a stage is not orderly, there is a run
to a state that is not sound.
-/

namespace NetProg.Cluster.Pipe

open NetProg.Lib

section Text

variable {l l' : List Byte}

theorem text_of_nul_free (h : (0 : Byte) ∉ l) : text l = l := CStr.ofBytes_bytes_of_nul_free h

theorem text_take (h : (0 : Byte) ∉ l) (hl : l.length < MAX_SIZE) : text (l.take MAX_SIZE) = l := by
  rw [List.take_of_length_le (Nat.le_of_lt hl), text_of_nul_free h]

end Text

namespace Line

variable {σ : Type} {p : Line σ} {writes : ℕ → List (List Byte)} {s t : State σ} {turn : Turn}

/-- The states of a line in which everything goes well. -/
inductive Good (p : Line σ) (writes : ℕ → List (List Byte)) : State σ → Prop where
  | reading {i} : i < p.count → Good p writes (.round ⟨i + 1, (writes i).flatten, .reading, [], p.forked (i + 1)⟩)
  | writing {i buf} : i < p.count → text buf = (writes i).flatten →
      Good p writes (.round ⟨i + 1, [], .writing buf, [], p.forked (i + 1)⟩)
  | running {i fd w s cs} : i ≤ p.count → Yields p.act s w cs → fd ++ cs.flatten = (writes i).flatten →
      Good p writes (.round ⟨i, fd, .gone, w, .running s⟩)
  | asking {i} : i < p.count → (p.stage (i + 1)).remote →
      Good p writes (.round ⟨i + 1, [], .gone, (writes i).flatten, .asking (p.stage (i + 1)).prog⟩)
  | waiting {i w t s cs out} : i ≤ p.count → Yields p.act s w cs → out ++ cs.flatten = (writes i).flatten →
      out = [] ∧ cs.length ≤ 1 ∨ cs = [] → Good p writes (.round ⟨i, [], .gone, t, .waiting (some s) w out⟩)
  | exited {i w t} : i ≤ p.count → Good p writes (.round ⟨i, [], .gone, t, .waiting none w (writes i).flatten⟩)
  | printing {i t} : i ≤ p.count → Good p writes (.round ⟨i, [], .gone, t, .printing (writes i).flatten⟩)
  | gone {i t} : i ≤ p.count → Good p writes (.round ⟨i, (writes i).flatten, .gone, t, .gone⟩)
  | last : Good p writes (.last (writes p.count).flatten)
  | printed : Good p writes (.printed (writes p.count).flatten)

theorem good_start (hc : p.Composes writes) (ho : p.Orderly writes 0) : p.Good writes p.start := by
  unfold start
  cases hr : (p.stage 0).remote with
  | true => exact .waiting (Nat.zero_le _) hc.first (List.nil_append _) (Or.inl ⟨rfl, (ho.once hr).le⟩)
  | false => exact .running (Nat.zero_le _) hc.first (List.nil_append _)

/-- A stage behind a bar does nothing before the helper has written. -/
theorem idle_forked {i : ℕ} (fd : List Byte) {helper : Helper} (ho : p.Orderly writes (i + 1)) (hh : helper ≠ .gone) :
    p.step (.round ⟨i + 1, fd, helper, [], p.forked (i + 1)⟩) .program = none ∧
    p.step (.round ⟨i + 1, fd, helper, [], p.forked (i + 1)⟩) .child = none ∧
    p.step (.round ⟨i + 1, fd, helper, [], p.forked (i + 1)⟩) .parent = none := by
  unfold forked
  cases hr : (p.stage (i + 1)).remote with
  | true =>
    refine ⟨rfl, ?_, rfl⟩
    simp [step, child, hh]
  | false =>
    obtain ⟨next, hnext⟩ := ho.reads (Nat.succ_pos i) hr
    refine ⟨?_, rfl, rfl⟩
    simp [step, program, hnext, hh]

theorem forked_local {i : ℕ} (h : (p.stage i).remote = false) : p.forked i = .running (p.stage i).prog := by
  simp only [forked, h, Bool.false_eq_true, if_false]

/-! ### What happens in one turn -/

section Turns

variable {i : ℕ} {fd w temppipe out l : List Byte} {helper : Helper} {q q' : σ} {b : Byte} {next : Option Byte → σ}

theorem step_exit (hs : p.act q = .exit) : p.step (.round ⟨i, fd, helper, w, .running q⟩) .program =
    some (.round ⟨i, fd, helper, w, .gone⟩) := by
  simp only [step, program, hs, Option.map_some]

theorem step_write (hs : p.act q = .write b l q') : p.step (.round ⟨i, fd, helper, w, .running q⟩) .program =
    some (.round ⟨i, fd ++ b :: l, helper, w, .running q'⟩) := by
  simp only [step, program, hs, Option.map_some]

theorem step_get (hs : p.act q = .get next) : p.step (.round ⟨i, fd, helper, b :: w, .running q⟩) .program =
    some (.round ⟨i, fd, helper, w, .running (next (some b))⟩) := by
  simp only [step, program, hs, Option.map_some]

theorem step_eof (hs : p.act q = .get next) : p.step (.round ⟨i, fd, .gone, [], .running q⟩) .program =
    some (.round ⟨i, fd, .gone, [], .running (next none)⟩) := by
  simp only [step, program, hs, if_true, Option.map_some]

theorem step_remote_exit (hs : p.act q = .exit) :
    p.step (.round ⟨i, fd, helper, temppipe, .waiting (some q) w out⟩) .program =
      some (.round ⟨i, fd, helper, temppipe, .waiting none w out⟩) := by
  simp only [step, program, hs, Option.map_some]

theorem step_remote_write (hs : p.act q = .write b l q') :
    p.step (.round ⟨i, fd, helper, temppipe, .waiting (some q) w out⟩) .program =
      some (.round ⟨i, fd, helper, temppipe, .waiting (some q') w (out ++ b :: l)⟩) := by
  simp only [step, program, hs, Option.map_some]

theorem step_remote_get (hs : p.act q = .get next) :
    p.step (.round ⟨i, fd, helper, temppipe, .waiting (some q) (b :: w) out⟩) .program =
      some (.round ⟨i, fd, helper, temppipe, .waiting (some (next (some b))) w out⟩) := by
  simp only [step, program, hs, Option.map_some]

theorem step_remote_eof (hs : p.act q = .get next) :
    p.step (.round ⟨i, fd, helper, temppipe, .waiting (some q) [] out⟩) .program =
      some (.round ⟨i, fd, helper, temppipe, .waiting (some (next none)) [] out⟩) := by
  simp only [step, program, hs, Option.map_some]

/-- The helper takes what there is. -/
theorem step_read {child : Child σ} (h : fd ≠ []) : p.step (.round ⟨i, fd, .reading, temppipe, child⟩) .helper =
    some (.round ⟨i, fd.drop MAX_SIZE, .writing (fd.take MAX_SIZE), temppipe, child⟩) := by
  simp only [step, Line.helper, if_neg h, Option.map_some]

theorem step_ask : p.step (.round ⟨i, fd, .gone, temppipe, .asking q⟩) .child =
    some (.round ⟨i, fd, .gone, temppipe.drop MAX_SIZE, .waiting (some q) (text (temppipe.take MAX_SIZE)) []⟩) := by
  simp only [step, child, ne_eq, not_true_eq_false, and_false, if_false, Option.map_some]

/-- The child reads the output, or sees that there is none. -/
theorem step_output {r : Option σ} (h : out = [] → r = none) :
    p.step (.round ⟨i, fd, helper, temppipe, .waiting r w out⟩) .child =
      some (.round ⟨i, fd, helper, temppipe, .printing (text (out.take MAX_SIZE))⟩) := by
  have hwait : ¬(out = [] ∧ r.isSome) := by
    rintro ⟨hnil, hsome⟩
    rw [h hnil] at hsome
    cases hsome
  simp only [step, child, if_neg hwait, Option.map_some]

theorem step_next (hi : i < p.count) : p.step (.round ⟨i, fd, .gone, temppipe, .gone⟩) .parent =
    some (.round ⟨i + 1, fd, .reading, [], p.forked (i + 1)⟩) := by
  simp only [step, Line.parent, if_pos hi]

theorem step_end (hi : ¬i < p.count) : p.step (.round ⟨i, fd, .gone, temppipe, .gone⟩) .parent = some (.last fd) := by
  simp only [step, Line.parent, if_neg hi]

theorem step_last (h : fd ≠ []) : p.step (.last fd) .parent = some (.printed (text (fd.take MAX_SIZE))) := by
  simp only [step, Line.parent, if_neg h]

end Turns

/-- The program of a stage goes on. -/
theorem good_running {i : ℕ} {fd w : List Byte} {s : σ} {cs : List (List Byte)} (hi : i ≤ p.count)
    (hy : Yields p.act s w cs) (hfd : fd ++ cs.flatten = (writes i).flatten)
    (ht : p.step (.round ⟨i, fd, .gone, w, .running s⟩) .program = some t) : p.Good writes t := by
  cases hy with
  | exit hs =>
    rw [List.flatten_nil, List.append_nil] at hfd
    cases (step_exit hs).symm.trans ht
    subst hfd
    exact .gone hi
  | write hs hy =>
    cases (step_write hs).symm.trans ht
    exact .running hi hy (by rw [← hfd, List.flatten_cons, List.append_assoc])
  | get hs hy =>
    cases (step_get hs).symm.trans ht
    exact .running hi hy hfd
  | eof hs hy =>
    cases (step_eof hs).symm.trans ht
    exact .running hi hy hfd

/-- The program of a stage goes on, on another node. -/
theorem good_waiting {i : ℕ} {w t' out : List Byte} {s : σ} {cs : List (List Byte)} (hi : i ≤ p.count)
    (hy : Yields p.act s w cs) (hfd : out ++ cs.flatten = (writes i).flatten)
    (hone : out = [] ∧ cs.length ≤ 1 ∨ cs = [])
    (ht : p.step (.round ⟨i, [], .gone, t', .waiting (some s) w out⟩) .program = some t) : p.Good writes t := by
  cases hy with
  | exit hs =>
    rw [List.flatten_nil, List.append_nil] at hfd
    cases (step_remote_exit hs).symm.trans ht
    subst hfd
    exact .exited hi
  | @write _ b l next _ cs hs hy =>
    obtain ⟨rfl, hlen⟩ | hnil := hone
    · have hcs : cs = [] := by
        rw [List.length_cons] at hlen
        exact List.eq_nil_of_length_eq_zero (by omega)
      cases (step_remote_write hs).symm.trans ht
      exact .waiting hi hy (by rw [← hfd, List.flatten_cons, List.append_assoc]) (Or.inr hcs)
    · cases hnil
  | get hs hy =>
    cases (step_remote_get hs).symm.trans ht
    exact .waiting hi hy hfd hone
  | eof hs hy =>
    cases (step_remote_eof hs).symm.trans ht
    exact .waiting hi hy hfd hone

/-- **Step.**  A line of orderly stages goes from one good state to the next. -/
theorem Good.step (hc : p.Composes writes) (ho : ∀ i ≤ p.count, p.Orderly writes i)
    (hout : ∀ i ≤ p.count, (0 : Byte) ∉ (writes i).flatten ∧ (writes i).flatten.length < MAX_SIZE)
    (h : p.Good writes s) (ht : p.step s turn = some t) : p.Good writes t := by
  cases h with
  | @reading i hi =>
    obtain ⟨hprogram, hchild, hparent⟩ :=
      idle_forked (writes i).flatten (ho (i + 1) hi) (by simp : Helper.reading ≠ .gone)
    cases turn with
    | helper =>
      have hne := (ho i (Nat.le_of_lt hi)).nonempty
      obtain ⟨hnul, hlen⟩ := hout i (Nat.le_of_lt hi)
      cases (step_read hne).symm.trans ht
      rw [List.drop_of_length_le (Nat.le_of_lt hlen)]
      exact .writing hi (text_take hnul hlen)
    | program => rw [hprogram] at ht; cases ht
    | child => rw [hchild] at ht; cases ht
    | parent => rw [hparent] at ht; cases ht
  | @writing i buf hi hbuf =>
    obtain ⟨hprogram, hchild, hparent⟩ :=
      idle_forked [] (ho (i + 1) hi) (by simp : Helper.writing buf ≠ .gone)
    cases turn with
    | helper =>
      cases ht
      rw [hbuf, List.nil_append]
      unfold forked
      split
      · next hr => exact .asking hi hr
      · exact .running hi (hc.next i hi) (List.nil_append _)
    | program => rw [hprogram] at ht; cases ht
    | child => rw [hchild] at ht; cases ht
    | parent => rw [hparent] at ht; cases ht
  | @running i fd w s cs hi hy hfd =>
    cases turn with
    | program => exact good_running hi hy hfd ht
    | _ => cases ht
  | @asking i hi hr =>
    cases turn with
    | child =>
      obtain ⟨hnul, hlen⟩ := hout i (Nat.le_of_lt hi)
      cases step_ask.symm.trans ht
      rw [text_take hnul hlen]
      exact .waiting hi (hc.next i hi) (List.nil_append _) (Or.inl ⟨rfl, ((ho (i + 1) hi).once hr).le⟩)
    | _ => cases ht
  | @waiting i w t s cs out hi hy hfd hone =>
    cases turn with
    | program => exact good_waiting hi hy hfd hone ht
    | child =>
      obtain ⟨hnul, hlen⟩ := hout i hi
      by_cases hnil : out = []
      · subst hnil
        simp [Line.step, child] at ht
      · obtain ⟨h, -⟩ | rfl := hone
        · exact absurd h hnil
        · rw [List.flatten_nil, List.append_nil] at hfd
          subst hfd
          cases (step_output fun h => absurd h hnil).symm.trans ht
          rw [text_take hnul hlen]
          exact .printing hi
    | _ => cases ht
  | @exited i w t hi =>
    cases turn with
    | child =>
      obtain ⟨hnul, hlen⟩ := hout i hi
      cases (step_output fun _ => rfl).symm.trans ht
      rw [text_take hnul hlen]
      exact .printing hi
    | _ => cases ht
  | @printing i t hi =>
    cases turn with
    | child => cases ht; exact .gone hi
    | _ => cases ht
  | @gone i t hi =>
    cases turn with
    | parent =>
      by_cases hlt : i < p.count
      · cases (step_next hlt).symm.trans ht
        exact .reading hlt
      · cases (step_end hlt).symm.trans ht
        have hi' : i = p.count := by omega
        rw [hi']
        exact .last
    | _ => cases ht
  | last =>
    cases turn with
    | parent =>
      obtain ⟨hnul, hlen⟩ := hout p.count (Nat.le_refl _)
      have hne := (ho p.count (Nat.le_refl _)).nonempty
      cases (step_last hne).symm.trans ht
      rw [text_take hnul hlen]
      exact .printed
    | _ => cases ht
  | printed => cases turn <;> cases ht

theorem good_reaches (hc : p.Composes writes) (ho : ∀ i ≤ p.count, p.Orderly writes i)
    (hout : ∀ i ≤ p.count, (0 : Byte) ∉ (writes i).flatten ∧ (writes i).flatten.length < MAX_SIZE)
    (h : Reaches p.step p.start s) : p.Good writes s :=
  h.inv (p.Good writes) (good_start hc (ho 0 (Nat.zero_le _))) fun _ _ _ hs ht => hs.step hc ho hout ht

/-- A good state is sound. -/
theorem Good.sound (ho : ∀ i ≤ p.count, p.Orderly writes i) (h : p.Good writes s) : p.Sound writes s := by
  refine ⟨?_, ?_, ?_⟩
  · rintro i fd buf temppipe child rfl
    cases h with
    | writing hi hbuf => exact hbuf
  · rintro out rfl
    cases h with
    | printed => rfl
  · cases h with
    | @reading i hi =>
      have hne := (ho i (Nat.le_of_lt hi)).nonempty
      exact Or.inl ⟨.helper, _, step_read hne⟩
    | writing hi hbuf => exact Or.inl ⟨.helper, _, rfl⟩
    | running hi hy hfd =>
      left
      cases hy with
      | exit hs => exact ⟨.program, _, step_exit hs⟩
      | write hs hy => exact ⟨.program, _, step_write hs⟩
      | get hs hy => exact ⟨.program, _, step_get hs⟩
      | eof hs hy => exact ⟨.program, _, step_eof hs⟩
    | asking hi hr => exact Or.inl ⟨.child, _, step_ask⟩
    | waiting hi hy hfd hone =>
      left
      cases hy with
      | exit hs => exact ⟨.program, _, step_remote_exit hs⟩
      | write hs hy => exact ⟨.program, _, step_remote_write hs⟩
      | get hs hy => exact ⟨.program, _, step_remote_get hs⟩
      | eof hs hy => exact ⟨.program, _, step_remote_eof hs⟩
    | exited hi => exact Or.inl ⟨.child, _, step_output fun _ => rfl⟩
    | printing hi => exact Or.inl ⟨.child, _, rfl⟩
    | gone hi => exact Or.inl ⟨.parent, _, rfl⟩
    | last =>
      have hne := (ho p.count (Nat.le_refl _)).nonempty
      exact Or.inl ⟨.parent, _, step_last hne⟩
    | printed => exact Or.inr ⟨_, rfl⟩

/-! ### Runs of a line -/

section Runs

variable {i : ℕ} {fd w temppipe out : List Byte} {q : σ} {c : List Byte} {cs : List (List Byte)}

/-- The helper has written. -/
def served (p : Line σ) (writes : ℕ → List (List Byte)) : ℕ → State σ
  | 0 => p.start
  | i + 1 => .round ⟨i + 1, [], .gone, (writes i).flatten, p.forked (i + 1)⟩

theorem reaches_running (fd : List Byte) (hy : Yields p.act q w cs) :
    ∃ t, Reaches p.step (.round ⟨i, fd, .gone, w, .running q⟩) (.round ⟨i, fd ++ cs.flatten, .gone, t, .gone⟩) := by
  induction hy generalizing fd with
  | @exit q w hs =>
    rw [List.flatten_nil, List.append_nil]
    exact ⟨w, .single (step_exit hs)⟩
  | @write q b l next w cs hs hy ih =>
    obtain ⟨t, ht⟩ := ih (fd ++ b :: l)
    rw [List.append_assoc, ← List.flatten_cons] at ht
    exact ⟨t, .trans (.single (step_write hs)) ht⟩
  | get hs hy ih =>
    obtain ⟨t, ht⟩ := ih fd
    exact ⟨t, .trans (.single (step_get hs)) ht⟩
  | eof hs hy ih =>
    obtain ⟨t, ht⟩ := ih fd
    exact ⟨t, .trans (.single (step_eof hs)) ht⟩

theorem reaches_waiting (fd temppipe out : List Byte) (hy : Yields p.act q w cs) :
    ∃ w', Reaches p.step (.round ⟨i, fd, .gone, temppipe, .waiting (some q) w out⟩)
      (.round ⟨i, fd, .gone, temppipe, .waiting none w' (out ++ cs.flatten)⟩) := by
  induction hy generalizing out with
  | @exit q w hs =>
    rw [List.flatten_nil, List.append_nil]
    exact ⟨w, .single (step_remote_exit hs)⟩
  | @write q b l next w cs hs hy ih =>
    obtain ⟨w', hw⟩ := ih (out ++ b :: l)
    rw [List.append_assoc, ← List.flatten_cons] at hw
    exact ⟨w', .trans (.single (step_remote_write hs)) hw⟩
  | get hs hy ih =>
    obtain ⟨w', hw⟩ := ih out
    exact ⟨w', .trans (.single (step_remote_get hs)) hw⟩
  | eof hs hy ih =>
    obtain ⟨w', hw⟩ := ih out
    exact ⟨w', .trans (.single (step_remote_eof hs)) hw⟩

/-- The program on the other node has made its first write. -/
theorem reaches_write (fd temppipe : List Byte) {cs' : List (List Byte)} (hy : Yields p.act q w cs) (hcs : cs = c :: cs') :
    ∃ q' w', Reaches p.step (.round ⟨i, fd, .gone, temppipe, .waiting (some q) w []⟩)
      (.round ⟨i, fd, .gone, temppipe, .waiting (some q') w' c⟩) := by
  induction hy with
  | exit hs => cases hcs
  | @write q b l next w cs hs hy ih =>
    cases hcs
    exact ⟨next, w, .single (step_remote_write hs)⟩
  | get hs hy ih =>
    obtain ⟨q', w', hw⟩ := ih hcs
    exact ⟨q', w', .trans (.single (step_remote_get hs)) hw⟩
  | eof hs hy ih =>
    obtain ⟨q', w', hw⟩ := ih hcs
    exact ⟨q', w', .trans (.single (step_remote_eof hs)) hw⟩

/-- The child has read the output and printed it. -/
theorem reaches_printed (fd temppipe : List Byte) {q : Option σ} (hq : out = [] → q = none) (hnul : (0 : Byte) ∉ out)
    (hlen : out.length < MAX_SIZE) :
    Reaches p.step (.round ⟨i, fd, .gone, temppipe, .waiting q w out⟩)
      (.round ⟨i, fd ++ out, .gone, temppipe, .gone⟩) := by
  have hread : p.step (.round ⟨i, fd, .gone, temppipe, .waiting q w out⟩) .child = _ := step_output hq
  rw [text_take hnul hlen] at hread
  exact (Reaches.single hread).trans (.single (a := .child) rfl)

/-- The child for another node has read the input. -/
theorem reaches_asking (hr : (p.stage (i + 1)).remote) (hnul : (0 : Byte) ∉ (writes i).flatten)
    (hlen : (writes i).flatten.length < MAX_SIZE) : ∃ t, Reaches p.step (p.served writes (i + 1))
      (.round ⟨i + 1, [], .gone, t, .waiting (some (p.stage (i + 1)).prog) (writes i).flatten []⟩) := by
  have hask : p.step (.round ⟨i + 1, [], .gone, (writes i).flatten, .asking (p.stage (i + 1)).prog⟩) .child = _ := step_ask
  rw [text_take hnul hlen] at hask
  rw [served, forked, if_pos hr]
  exact ⟨_, .single hask⟩

/-- The child for another node is about to read what the program writes. -/
theorem reaches_remote (hc : p.Composes writes)
    (hout : ∀ i ≤ p.count, (0 : Byte) ∉ (writes i).flatten ∧ (writes i).flatten.length < MAX_SIZE)
    (hi : i ≤ p.count) (hr : (p.stage i).remote) : ∃ t w, Yields p.act (p.stage i).prog w (writes i) ∧
      Reaches p.step (p.served writes i) (.round ⟨i, [], .gone, t, .waiting (some (p.stage i).prog) w []⟩) := by
  cases i with
  | zero =>
    refine ⟨p.typed, p.typed, hc.first, ?_⟩
    rw [served, start, if_pos hr]
    exact .refl
  | succ i =>
    obtain ⟨hnul, hlen⟩ := hout i (Nat.le_of_succ_le hi)
    obtain ⟨t, ht⟩ := reaches_asking hr hnul hlen
    exact ⟨t, _, hc.next i hi, ht⟩

/-- The stage is done, and has written its output. -/
theorem reaches_done (hc : p.Composes writes)
    (hout : ∀ i ≤ p.count, (0 : Byte) ∉ (writes i).flatten ∧ (writes i).flatten.length < MAX_SIZE) (hi : i ≤ p.count) :
    ∃ t, Reaches p.step (p.served writes i) (.round ⟨i, (writes i).flatten, .gone, t, .gone⟩) := by
  obtain ⟨hnul, hlen⟩ := hout i hi
  cases hr : (p.stage i).remote with
  | true =>
    obtain ⟨t, w, hy, hasked⟩ := reaches_remote hc hout hi hr
    obtain ⟨w', hran⟩ := reaches_waiting (i := i) [] t [] hy
    exact ⟨t, (hasked.trans hran).trans (reaches_printed [] t (fun _ => rfl) hnul hlen)⟩
  | false =>
    cases i with
    | zero =>
      rw [served, start, hr]
      exact reaches_running [] hc.first
    | succ i =>
      rw [served, forked, hr]
      exact reaches_running [] (hc.next i hi)

/-- The helper has written. -/
theorem reaches_helped (hne : (writes i).flatten ≠ []) (hnul : (0 : Byte) ∉ (writes i).flatten)
    (hlen : (writes i).flatten.length < MAX_SIZE) :
    Reaches p.step (.round ⟨i + 1, (writes i).flatten, .reading, [], p.forked (i + 1)⟩) (p.served writes (i + 1)) := by
  have hread : p.step (.round ⟨i + 1, (writes i).flatten, .reading, [], p.forked (i + 1)⟩) .helper = _ := step_read hne
  rw [List.drop_of_length_le (Nat.le_of_lt hlen)] at hread
  have hwrite : p.step (.round ⟨i + 1, [], .writing ((writes i).flatten.take MAX_SIZE), [], p.forked (i + 1)⟩) .helper =
      some (p.served writes (i + 1)) := by
    simp only [step, helper, Option.map_some, List.nil_append, text_take hnul hlen, served]
  exact (Reaches.single hread).trans (.single hwrite)

theorem reaches_served (hc : p.Composes writes)
    (hout : ∀ i ≤ p.count, (0 : Byte) ∉ (writes i).flatten ∧ (writes i).flatten.length < MAX_SIZE) (hi : i ≤ p.count)
    (hne : ∀ j < i, (writes j).flatten ≠ []) : Reaches p.step p.start (p.served writes i) := by
  induction i with
  | zero => exact .refl
  | succ i ih =>
    obtain ⟨hnul, hlen⟩ := hout i (Nat.le_of_succ_le hi)
    have hserved := ih (Nat.le_of_succ_le hi) fun j hj => hne j (Nat.lt_succ_of_lt hj)
    obtain ⟨t, hdone⟩ := reaches_done hc hout (Nat.le_of_succ_le hi)
    exact ((hserved.trans hdone).trans (.single (step_next hi))).trans (reaches_helped (hne i (Nat.lt_succ_self i)) hnul hlen)

/-- The next stage begins behind stages that have all written something. -/
theorem reaches_begun (hc : p.Composes writes)
    (hout : ∀ i ≤ p.count, (0 : Byte) ∉ (writes i).flatten ∧ (writes i).flatten.length < MAX_SIZE) (hi : i < p.count)
    (hne : ∀ j < i, (writes j).flatten ≠ []) :
    Reaches p.step p.start (.round ⟨i + 1, (writes i).flatten, .reading, [], p.forked (i + 1)⟩) := by
  obtain ⟨t, hdone⟩ := reaches_done hc hout (Nat.le_of_lt hi)
  exact ((reaches_served hc hout (Nat.le_of_lt hi) hne).trans hdone).trans (.single (step_next hi))

end Runs

/-! ### Stages that are not orderly -/

section Unsound

variable {i : ℕ} {fd temppipe : List Byte}

/-- What is left in `fd` when stage `i` is done is what it should have written. -/
theorem left_eq (h : ∀ s, Reaches p.step p.start s → p.Sound writes s) (hi : i ≤ p.count) (hne : fd ≠ [])
    (hr : Reaches p.step p.start (.round ⟨i, fd, .gone, temppipe, .gone⟩)) :
    text (fd.take MAX_SIZE) = (writes i).flatten := by
  by_cases hlt : i < p.count
  · have hbegun := hr.trans (.single (step_next hlt))
    exact (h _ (hbegun.trans (.single (step_read hne)))).delivers _ _ _ _ _ rfl
  · have hlast : i = p.count := by omega
    have hbehind := hr.trans (.single (step_end hlt))
    rw [hlast]
    exact (h _ (hbehind.trans (.single (step_last hne)))).prints _ rfl

/-- A stage that writes first has its own output fed back to it. -/
theorem not_write_first (hc : p.Composes writes) (h : ∀ s, Reaches p.step p.start s → p.Sound writes s)
    (hout : ∀ i ≤ p.count, (0 : Byte) ∉ (writes i).flatten ∧ (writes i).flatten.length < MAX_SIZE) (hi : i < p.count)
    (hremote : (p.stage (i + 1)).remote = false)
    (hr : Reaches p.step p.start (.round ⟨i + 1, (writes i).flatten, .reading, [], p.forked (i + 1)⟩))
    {b : Byte} {l : List Byte} {next : σ} : p.act (p.stage (i + 1)).prog ≠ .write b l next := by
  intro hs
  obtain ⟨cs, hcs⟩ := (hc.next i hi).of_write hs
  obtain ⟨hnul, hlen⟩ := hout i (Nat.le_of_lt hi)
  rw [forked_local hremote] at hr
  have hne : (writes i).flatten ++ b :: l ≠ [] := by simp
  have htaken := (hr.trans (.single (step_write hs))).trans (.single (step_read hne))
  have htext := (h _ htaken).delivers _ _ _ _ _ rfl
  have hfree : (0 : Byte) ∉ ((writes i).flatten ++ b :: l).take MAX_SIZE := by
    intro hmem
    rcases List.mem_append.1 (List.mem_of_mem_take hmem) with hmem | hmem
    · exact hnul hmem
    · apply (hout (i + 1) hi).1
      rw [hcs, List.flatten_cons]
      exact List.mem_append_left _ hmem
  rw [text_of_nul_free hfree] at htext
  have hlength := congrArg List.length htext
  simp only [List.length_take, List.length_append, List.length_cons] at hlength
  omega

/-- The line does not get stuck. -/
theorem not_stuck (h : p.Sound writes s) (hend : ∀ out, s ≠ .printed out) : ¬ ∀ turn, p.step s turn = none := by
  intro hstuck
  rcases h.proceeds with ⟨turn, t, ht⟩ | ⟨out, hs⟩
  · rw [hstuck turn] at ht
    cases ht
  · exact hend out hs

/-- Nothing is left for a stage behind one that has written nothing. -/
theorem not_empty (hc : p.Composes writes) (h : ∀ s, Reaches p.step p.start s → p.Sound writes s)
    (hout : ∀ i ≤ p.count, (0 : Byte) ∉ (writes i).flatten ∧ (writes i).flatten.length < MAX_SIZE)
    (hr : Reaches p.step p.start (.round ⟨i, (writes i).flatten, .gone, temppipe, .gone⟩)) :
    (writes i).flatten ≠ [] := by
  intro hnil
  by_cases hlt : i < p.count
  · have hbegun := hr.trans (.single (step_next hlt))
    have hy := hc.next i hlt
    cases hremote : (p.stage (i + 1)).remote with
    | true =>
      refine not_stuck (h _ hbegun) (by simp) fun turn => ?_
      cases turn <;> simp [step, helper, program, child, Line.parent, forked, hremote, hnil]
    | false =>
      have hfirst := @not_write_first _ _ _ _ hc h hout hlt hremote hbegun
      generalize writes (i + 1) = cs at hy
      rw [hnil] at hy
      cases hy with
      | exit hs =>
        rw [forked_local hremote] at hbegun
        refine not_stuck (h _ (hbegun.trans (.single (step_exit hs)))) (by simp) fun turn => ?_
        cases turn <;> simp [step, helper, program, child, Line.parent, hnil]
      | write hs hy => exact hfirst hs
      | eof hs hy =>
        refine not_stuck (h _ hbegun) (by simp) fun turn => ?_
        cases turn <;> simp [step, helper, program, child, Line.parent, forked, hremote, hnil, hs]
  · refine not_stuck (h _ (hr.trans (.single (step_end hlt)))) (by simp) fun turn => ?_
    cases turn <;> simp [step, Line.parent, hnil]

/-- The child for another node reads only what the program writes first. -/
theorem length_eq_one (hc : p.Composes writes) (h : ∀ s, Reaches p.step p.start s → p.Sound writes s)
    (hout : ∀ i ≤ p.count, (0 : Byte) ∉ (writes i).flatten ∧ (writes i).flatten.length < MAX_SIZE) (hi : i ≤ p.count)
    (hne : (writes i).flatten ≠ []) (hremote : (p.stage i).remote) (hr : Reaches p.step p.start (p.served writes i)) :
    (writes i).length = 1 := by
  obtain ⟨t, w, hy, hasked⟩ := reaches_remote hc hout hi hremote
  obtain ⟨hnul, hlen⟩ := hout i hi
  cases hcs : writes i with
  | nil => rw [hcs] at hne; exact absurd rfl hne
  | cons c cs =>
    obtain ⟨q, w', hwrote⟩ := reaches_write (i := i) [] t hy hcs
    rw [hcs, List.flatten_cons] at hnul hlen
    have hfirst : c ≠ [] := hy.ne_nil c (by simp [hcs])
    have hnul' : (0 : Byte) ∉ c := fun hmem => hnul (List.mem_append_left _ hmem)
    have hlen' : c.length < MAX_SIZE := by
      rw [List.length_append] at hlen
      omega
    have hprinted := reaches_printed (p := p) (i := i) (w := w') (q := some q) [] t
      (fun hnil => absurd hnil hfirst) hnul' hlen'
    have hleft := left_eq h hi hfirst (((hr.trans hasked).trans hwrote).trans hprinted)
    rw [text_take hnul' hlen', hcs, List.flatten_cons] at hleft
    have hrest : cs.flatten = [] := List.append_right_eq_self.1 hleft.symm
    cases cs with
    | nil => rfl
    | cons d cs =>
      have hd : d ≠ [] := hy.ne_nil d (by simp [hcs])
      exact absurd (List.append_eq_nil_iff.1 hrest).1 hd

end Unsound

/-- **A line composes its stages**, whatever the order in which the helper, the stage and the parent take their turns, if
and only if its stages are orderly. -/
theorem composes_iff (hc : p.Composes writes)
    (hout : ∀ i ≤ p.count, (0 : Byte) ∉ (writes i).flatten ∧ (writes i).flatten.length < MAX_SIZE) :
    (∀ s, Reaches p.step p.start s → p.Sound writes s) ↔ ∀ i ≤ p.count, p.Orderly writes i := by
  constructor
  · intro h i
    induction i using Nat.strong_induction_on with
    | _ i ih =>
      intro hi
      have hserved := reaches_served hc hout hi fun j hj => (ih j hj (Nat.le_trans (Nat.le_of_lt hj) hi)).nonempty
      obtain ⟨t, hdone⟩ := reaches_done hc hout hi
      have hne := not_empty hc h hout (hserved.trans hdone)
      refine ⟨hne, fun hremote => length_eq_one hc h hout hi hne hremote hserved, fun hpos hremote => ?_⟩
      obtain ⟨i, rfl⟩ := Nat.exists_eq_succ_of_ne_zero (Nat.ne_of_gt hpos)
      have hbegun := reaches_begun hc hout hi fun j hj =>
        (ih j (Nat.lt_succ_of_lt hj) (Nat.le_trans (Nat.le_of_lt hj) (Nat.le_of_succ_le hi))).nonempty
      cases hs : p.act (p.stage (i + 1)).prog with
      | write b l next => exact absurd hs (not_write_first hc h hout hi hremote hbegun)
      | get next => exact ⟨next, rfl⟩
      | exit =>
        rw [(hc.next i hi).of_exit hs] at hne
        exact absurd rfl hne
  · intro ho s hs
    exact (good_reaches hc ho hout hs).sound ho

/-- Programs that write what they hold; those that are told to read first hold the byte they have read. -/
def script : Bool × List Byte → Act (Bool × List Byte)
  | (true, _) => .get fun b => (false, b.toList)
  | (false, b :: l) => .write b l (false, [])
  | (false, []) => .exit

/-- One program writes the byte that the other reads and writes. -/
def relayed : Line (Bool × List Byte) := ⟨script, fun i => ⟨false, (0 < i, [97])⟩, 1, []⟩

theorem composes_script : relayed.Composes (fun _ => [[97]]) ∧
    ∀ s, Reaches relayed.step relayed.start s → relayed.Sound (fun _ => [[97]]) s := by
  have hwrite : ∀ w, Yields script (false, [97]) w [[97]] := fun w => .write rfl (.exit rfl)
  have hc : relayed.Composes fun _ => [[97]] := ⟨hwrite [], fun i _ => .get rfl (hwrite [])⟩
  refine ⟨hc, (composes_iff hc fun i _ => by simp [MAX_SIZE]).2 fun i _ => ⟨by simp, nofun, fun hpos _ => ?_⟩⟩
  exact ⟨_, by simp only [relayed, hpos, decide_true]; rfl⟩

/-- **A line can fail to compose its stages**: the second of two programs that only write has its byte fed back to it. -/
theorem not_composes : ¬ ∀ (σ : Type) (p : Line σ) (writes : ℕ → List (List Byte)), 1 ≤ p.count → p.Composes writes →
    (∀ i ≤ p.count, (0 : Byte) ∉ (writes i).flatten ∧ (writes i).flatten.length < MAX_SIZE) →
    ∀ s, Reaches p.step p.start s → p.Sound writes s := by
  intro h
  have hwrite : ∀ w, Yields script (false, [97]) w [[97]] := fun w => .write rfl (.exit rfl)
  have hc : Line.Composes ⟨script, fun _ => ⟨false, (false, [97])⟩, 1, []⟩ fun _ => [[97]] :=
    ⟨hwrite [], fun i _ => hwrite [97]⟩
  have hout : ∀ i ≤ 1, (0 : Byte) ∉ [[97]].flatten ∧ ([[97]] : List (List Byte)).flatten.length < MAX_SIZE := by
    intro i _
    simp [MAX_SIZE]
  have hsound := h _ _ _ (Nat.le_refl 1) hc hout
  exact not_write_first hc hsound hout Nat.one_pos rfl (reaches_begun hc hout Nat.one_pos fun j _ => by simp) rfl

end Line

end NetProg.Cluster.Pipe
