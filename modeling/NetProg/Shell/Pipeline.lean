import NetProg.Shell.Argv

/-!
# The processes of a pipeline

The tree of processes that `parsecommand` and `pipecommand` create, and what becomes of each of them (`Life`).  A parent
waits for its child before it goes on, so that the tree in its order is also the order in time.  `life` computes the tree
of a process that stands at a `Point` of the program; it takes as many steps as `fuel` says, and a tree that is not
finite has no `life` at all.

A child whose `execv` fails returns from `parsecommand` into the loop of its parent.  `attempted_once_iff` says when every
stage is attempted exactly once: when no `execv` fails but that of the last stage, behind which the loop ends.
-/

namespace NetProg.Shell

open NetProg.Lib

/-- What the processes meet: the search path, the files there are, and the `execv` calls of processes that succeed when
they are given a path.  A process is named by the numbers of the forks that lead to it. -/
structure World where
  completepath : CStr
  access : CStr → Bool
  execv : List ℕ → Bool

def colon : Byte := 58

/-- The first file of that name on the search path; `strtok_r` leaves empty entries out. -/
def getfile (w : World) (firstarg : CStr) : Option CStr :=
  (((fields colon w.completepath).filter (· ≠ lit "")).map fun p => p.cat ((lit "/").cat firstarg)).find? w.access

/-- The loop of `pipecommand`; `start` is `prev_index+1`. -/
structure Loop where
  argv : Argv
  i : ℕ
  start : ℕ

/-- Where a process stands: at the call of `parsecommand`, with the loop it is called from (`main` calls it from no such
loop), or at the head of a loop. -/
inductive Point where
  | parse (path : Option CStr) (argv : Argv) (back : Option Loop)
  | loop (l : Loop)

/-- What a process does from some point on. -/
inductive Life where
  /-- a child is forked and waited for -/
  | fork (child rest : Life)
  /-- `execv` fails -/
  | execv (argv : Argv) (rest : Life)
  /-- `execv` succeeds -/
  | replaced (argv : Argv)
  | exit
  /-- the process returns to the loop of `main` -/
  | prompt
  /-- a NULL pointer is used as a string -/
  | crash
  /-- the process goes on in a function for another operator -/
  | away (call : Call)

namespace Life

/-- The processes that are forked. -/
def forks : Life → ℕ
  | fork child rest => 1 + child.forks + rest.forks
  | execv _ rest => rest.forks
  | _ => 0

/-- The vectors that `execv` is called with, in order. -/
def attempts : Life → List Argv
  | fork child rest => child.attempts ++ rest.attempts
  | execv argv rest => argv :: rest.attempts
  | replaced argv => [argv]
  | _ => []

/-- A child is replaced, or terminates where its `execv` fails. -/
def Ends : Life → Prop
  | replaced _ => True
  | execv _ exit => True
  | _ => False

/-- Every child that is forked ends so, and the process itself exits. -/
def Orderly : Life → Prop
  | fork child rest => child.Ends ∧ rest.Orderly
  | exit => True
  | _ => False

end Life

/-- `countofpipe` -/
def countofpipe (argv : Argv) : ℕ := argv.count (some bar)

/-- The next segment of the loop: its command, its vector, and where the one behind it starts. -/
def Loop.segment (l : Loop) : Option (CStr × Argv × ℕ) := do
  let index ← if l.i ≠ countofpipe l.argv then strinarr l.argv bar l.start else some l.argv.length
  let firstarg ← (← l.argv[l.start]?)
  return (firstarg, subarray l.argv l.start index, index + 1)

/-- What a process does: `addr` is its name, and `n` the number of its children so far. -/
def life (w : World) : ℕ → List ℕ → ℕ → Point → Option Life
  | 0, _, _, _ => none
  | fuel + 1, addr, n, .parse path argv back =>
    match parsecommand argv with
    | .pipecommand => life w fuel addr n (.loop ⟨argv, 0, 0⟩)
    | .execv =>
      if path.isSome ∧ w.execv addr then some (.replaced argv)
      else match back with
        | none => some (.execv argv .prompt)
        -- `parsecommand` returns, and the child goes on with the `i++` of the loop it was forked in
        | some l => (life w fuel addr n (.loop { l with i := l.i + 1 })).map (.execv argv)
    | call => some (.away call)
  | fuel + 1, addr, n, .loop l =>
    if l.i ≤ countofpipe l.argv then
      match l.segment with
      | none => some .crash
      | some (firstarg, argv1, next) =>
        (life w fuel (addr ++ [n]) 0 (.parse (getfile w firstarg) argv1 (some l))).bind fun child =>
        (life w fuel addr (n + 1) (.loop { l with i := l.i + 1, start := next })).map (.fork child)
    else some .exit

/-- `execv` succeeds for a stage, in the process of that name: the command is found, and the call does not fail. -/
def Succeeds (w : World) (addr : List ℕ) (seg : List CStr) : Prop :=
  (seg.head?.bind (getfile w)).isSome ∧ w.execv addr = true

instance (w : World) (addr : List ℕ) (seg : List CStr) : Decidable (Succeeds w addr seg) := by
  unfold Succeeds
  infer_instance

/-- **Each stage is attempted once**, and no child goes on in the loop of its parent. -/
structure AttemptedOnce (segs : List (List CStr)) (l : Life) : Prop where
  forks : l.forks = segs.length
  attempts : l.attempts = segs.map words
  orderly : l.Orderly

/-! ### The loop -/

/-- The loop comes to these segments. -/
structure Loop.At (l : Loop) (segs : List (List CStr)) : Prop where
  drop : l.argv.drop l.start = piped segs
  count : l.i + segs.length = countofpipe l.argv + 1

section Loop

variable {w : World} {fuel n : ℕ} {addr : List ℕ} {l : Loop} {seg seg' : List CStr} {segs : List (List CStr)}

/-- The loop behind a segment. -/
def Loop.next (l : Loop) (seg : List CStr) : Loop := { l with i := l.i + 1, start := l.start + seg.length + 1 }

theorem getElem?_of_drop {argv r : Argv} {start : ℕ} (h : argv.drop start = words seg ++ r) (hne : seg ≠ []) :
    argv[start]? = some seg.head? := by
  obtain ⟨a, seg, rfl⟩ := List.exists_cons_of_ne_nil hne
  have hget : (argv.drop start)[0]? = some (some a) := by
    rw [h]
    rfl
  simpa using hget

theorem Loop.At.segment_last (h : l.At [seg]) (hne : seg ≠ []) :
    l.segment = some (seg.head hne, words seg, l.argv.length + 1) := by
  have hdrop : l.argv.drop l.start = words seg ++ [] := by rw [h.drop, piped_singleton, List.append_nil]
  have hi : l.i = countofpipe l.argv := by
    have := h.count
    simp at this
    omega
  have hlen : l.argv.length - l.start = seg.length := by
    have := congrArg List.length hdrop
    simpa using this
  unfold Loop.segment
  rw [if_neg (not_not_intro hi), getElem?_of_drop hdrop hne, List.head?_eq_some_head hne]
  simp [subarray, hdrop, hlen, List.take_of_length_le]

theorem segment_cons {r : Argv} (hdrop : l.argv.drop l.start = words seg ++ some bar :: r) (hi : l.i ≠ countofpipe l.argv)
    (hplain : Plain seg) : l.segment = some (seg.head hplain.nonempty, words seg, l.start + seg.length + 1) := by
  have hbar : some bar ∉ words seg := fun hmem => hplain.free bar (some_mem_words.1 hmem) (by decide)
  have hindex := strinarr_eq hdrop hbar
  rw [length_words] at hindex
  unfold Loop.segment
  rw [if_pos hi, hindex, getElem?_of_drop hdrop hplain.nonempty, List.head?_eq_some_head hplain.nonempty]
  have hlen : l.start + seg.length - l.start = (words seg).length := by simp
  simp [subarray, hdrop, hlen]

theorem Loop.At.segment_cons (h : l.At (seg :: seg' :: segs)) (hplain : Plain seg) :
    l.segment = some (seg.head hplain.nonempty, words seg, l.start + seg.length + 1) := by
  have hdrop := h.drop
  rw [piped_cons_cons] at hdrop
  have hcount := h.count
  simp only [List.length_cons] at hcount
  exact Shell.segment_cons hdrop (by omega) hplain

theorem Loop.At.next (h : l.At (seg :: seg' :: segs)) : (l.next seg).At (seg' :: segs) := by
  constructor
  · have hdrop := h.drop
    rw [piped_cons_cons] at hdrop
    show l.argv.drop (l.start + seg.length + 1) = _
    have hlen : seg.length = (words seg).length := length_words.symm
    rw [Nat.add_assoc, ← List.drop_drop, hdrop, ← List.drop_drop, hlen, List.drop_left]
    rfl
  · have := h.count
    simp only [Loop.next, List.length_cons] at this ⊢
    omega

/-- The loop ends behind the last segment. -/
theorem life_end (h : countofpipe l.argv < l.i) : life w (fuel + 1) addr n (.loop l) = some .exit := by
  rw [life, if_neg (by omega)]

/-- A loop that has not come to its end forks. -/
theorem life_loop_ne_exit (h : l.i ≤ countofpipe l.argv) : life w fuel addr n (.loop l) ≠ some .exit := by
  intro hlife
  cases fuel with
  | zero => cases hlife
  | succ fuel =>
    rw [life, if_pos h] at hlife
    split at hlife
    · cases hlife
    · obtain ⟨child, -, hrest⟩ := Option.bind_eq_some_iff.1 hlife
      obtain ⟨rest, -, hfork⟩ := Option.map_eq_some_iff.1 hrest
      cases hfork

/-- The child of a stage calls `execv`; where that fails it goes on in the loop. -/
theorem life_child (h : Plain seg) :
    life w (fuel + 1) addr 0 (.parse (getfile w (seg.head h.nonempty)) (words seg) (some l)) =
    if Succeeds w addr seg then some (.replaced (words seg))
    else (life w fuel addr 0 (.loop { l with i := l.i + 1 })).map (.execv (words seg)) := by
  have hs : Succeeds w addr seg ↔ (getfile w (seg.head h.nonempty)).isSome ∧ w.execv addr = true := by
    rw [Succeeds, List.head?_eq_some_head h.nonempty]
    rfl
  simp only [life, parsecommand_words h, hs]

/-! ### Stages that succeed, but for the last -/

/-- A stage whose failure does no harm. -/
def stage (w : World) (addr : List ℕ) (seg : List CStr) : Life :=
  if Succeeds w addr seg then .replaced (words seg) else .execv (words seg) .exit

/-- The processes of a pipeline that is carried out. -/
def stages (w : World) (addr : List ℕ) : ℕ → List (List CStr) → Life
  | _, [] => .exit
  | n, seg :: segs => .fork (stage w (addr ++ [n]) seg) (stages w addr (n + 1) segs)

theorem stage_ends : (stage w addr seg).Ends := by
  unfold stage
  split <;> trivial

/-- The processes of a pipeline that is carried out attempt each stage once. -/
theorem attemptedOnce_stages : AttemptedOnce segs (stages w addr n segs) := by
  induction segs generalizing n with
  | nil => exact ⟨rfl, rfl, trivial⟩
  | cons seg segs ih =>
    have hforks : (stage w (addr ++ [n]) seg).forks = 0 := by
      unfold stage
      split <;> rfl
    have hattempts : (stage w (addr ++ [n]) seg).attempts = [words seg] := by
      unfold stage
      split <;> rfl
    have hrest := ih (n := n + 1)
    constructor
    · rw [stages, Life.forks, hforks, hrest.forks, List.length_cons]
      omega
    · rw [stages, Life.attempts, hattempts, hrest.attempts]
      rfl
    · exact ⟨stage_ends, hrest.orderly⟩

/-- The loop carries a pipeline out where no stage but the last one fails. -/
theorem life_stages (h : l.At segs) (hplain : ∀ seg ∈ segs, Plain seg)
    (hs : ∀ i (hi : i + 1 < segs.length), Succeeds w (addr ++ [n + i]) segs[i]) (hfuel : segs.length + 2 ≤ fuel) :
    life w fuel addr n (.loop l) = some (stages w addr n segs) := by
  induction segs generalizing l n fuel with
  | nil =>
    obtain ⟨fuel, rfl⟩ : ∃ f, fuel = f + 1 := ⟨fuel - 1, by omega⟩
    have hcount := h.count
    exact life_end (by simp at hcount; omega)
  | cons seg segs ih =>
    have hseg : Plain seg := hplain seg (by simp)
    obtain ⟨fuel, rfl⟩ : ∃ f, fuel = f + 1 := ⟨fuel - 1, by omega⟩
    obtain ⟨fuel, rfl⟩ : ∃ f, fuel = f + 1 := ⟨fuel - 1, by omega⟩
    have hcount := h.count
    simp only [List.length_cons] at hcount hfuel
    rw [life, if_pos (by omega)]
    cases segs with
    | nil =>
      -- the last stage: its child, too, comes to the end of the loop
      obtain ⟨fuel, rfl⟩ : ∃ f, fuel = f + 1 := ⟨fuel - 1, by omega⟩
      simp only [h.segment_last hseg.nonempty, life_child hseg]
      simp only [List.length_nil] at hcount
      rw [life_end (by simp; omega), life_end (by simp; omega)]
      simp only [stages, stage]
      split <;> rfl
    | cons seg' segs =>
      have hhead : Succeeds w (addr ++ [n]) seg := hs 0 (by simp)
      have htail : ∀ i (hi : i + 1 < (seg' :: segs).length), Succeeds w (addr ++ [n + 1 + i]) (seg' :: segs)[i] := by
        intro i hi
        have := hs (i + 1) (by simpa using hi)
        rwa [show n + (i + 1) = n + 1 + i by omega] at this
      have hrest : life w (fuel + 1) addr (n + 1) (.loop (l.next seg)) = some (stages w addr (n + 1) (seg' :: segs)) :=
        ih h.next (fun s hs => hplain s (List.mem_cons_of_mem _ hs)) htail (by simp at hfuel ⊢; omega)
      rw [Loop.next] at hrest
      simp only [h.segment_cons hseg, life_child hseg, hrest]
      simp only [stages, stage, if_pos hhead, Option.bind_some, Option.map_some]

/-! ### What fails -/

/-- In an orderly pipeline no stage fails but the last. -/
theorem succeeds_of_orderly {t : Life} (h : l.At segs) (hplain : ∀ seg ∈ segs, Plain seg)
    (hlife : life w fuel addr n (.loop l) = some t) (ht : t.Orderly) :
    ∀ i (hi : i + 1 < segs.length), Succeeds w (addr ++ [n + i]) segs[i] := by
  induction segs generalizing l n fuel t with
  | nil =>
    intro i hi
    simp at hi
  | cons seg segs ih =>
    cases segs with
    | nil =>
      intro i hi
      simp at hi
    | cons seg' segs =>
      have hseg : Plain seg := hplain seg (by simp)
      have hcount := h.count
      simp only [List.length_cons] at hcount
      cases fuel with
      | zero => cases hlife
      | succ fuel =>
        rw [life, if_pos (by omega)] at hlife
        simp only [h.segment_cons hseg] at hlife
        obtain ⟨child, hchild, hmap⟩ := Option.bind_eq_some_iff.1 hlife
        obtain ⟨rest, hrest, rfl⟩ := Option.map_eq_some_iff.1 hmap
        have hhead : Succeeds w (addr ++ [n]) seg := by
          by_contra hfail
          cases fuel with
          | zero => cases hchild
          | succ fuel =>
            rw [life_child hseg, if_neg hfail] at hchild
            obtain ⟨r, hr, rfl⟩ := Option.map_eq_some_iff.1 hchild
            -- the child forks on
            have hne : r ≠ .exit := by
              rintro rfl
              exact life_loop_ne_exit (by simp; omega) hr
            have hends : (Life.execv (words seg) r).Ends := ht.1
            cases r with
            | exit => exact hne rfl
            | _ => exact hends
        have hrec := ih h.next (fun s hs => hplain s (List.mem_cons_of_mem _ hs)) hrest ht.2
        intro i hi
        cases i with
        | zero => exact hhead
        | succ i =>
          have := hrec i (by simpa using hi)
          rwa [show n + 1 + i = n + (i + 1) by omega] at this

/-- The loop at its beginning. -/
theorem at_first (hplain : ∀ seg ∈ segs, Plain seg) (h : segs ≠ []) : (⟨piped segs, 0, 0⟩ : Loop).At segs := by
  constructor
  · rfl
  · have hpos := List.length_pos_iff.2 h
    show 0 + segs.length = countofpipe (piped segs) + 1
    rw [countofpipe, count_piped hplain]
    omega

/-- `parsecommand` leaves a pipeline to `pipecommand`. -/
theorem life_piped {path : Option CStr} {back : Option Loop} (hplain : ∀ seg ∈ segs, Plain seg) (hm : 2 ≤ segs.length) :
    life w (fuel + 1) addr n (.parse path (piped segs) back) = life w fuel addr n (.loop ⟨piped segs, 0, 0⟩) := by
  match segs, hm with
  | seg :: seg' :: rest, _ =>
    have hbar : some bar ∉ words seg := fun hmem => (hplain seg (by simp)).free bar (some_mem_words.1 hmem) (by decide)
    have hfound : (strinarr (piped (seg :: seg' :: rest)) bar 0).isSome := by
      rw [strinarr_eq (l := words seg) (r := piped (seg' :: rest)) (by rw [List.drop_zero, piped_cons_cons]) hbar]
      rfl
    have hcall : parsecommand (piped (seg :: seg' :: rest)) = .pipecommand := if_pos hfound
    simp only [life, hcall]

/-! ### Stages that fail whenever they are attempted -/

/-- The loop does not end that has come to such a stage, and not to the last one. -/
theorem life_eq_none (hdrop : l.argv.drop l.start = piped (seg :: seg' :: segs)) (hle : l.i ≤ countofpipe l.argv)
    (hplain : ∀ s ∈ seg :: seg' :: segs, Plain s) (hfail : ∀ a, ¬ Succeeds w a seg) :
    life w fuel addr n (.loop l) = none := by
  induction fuel using Nat.strong_induction_on generalizing l addr n with
  | _ fuel ih =>
    cases fuel with
    | zero => rfl
    | succ fuel =>
      have hseg : Plain seg := hplain seg (by simp)
      rw [life, if_pos hle]
      by_cases hi : l.i = countofpipe l.argv
      · -- in the last round the child is given all that is left, and begins anew
        have hdrop' : l.argv.drop l.start = words seg ++ (some bar :: piped (seg' :: segs)) := by
          rw [hdrop, piped_cons_cons]
        have hsegment : l.segment = some (seg.head hseg.nonempty, piped (seg :: seg' :: segs), l.argv.length + 1) := by
          unfold Loop.segment
          rw [if_neg (not_not_intro hi), getElem?_of_drop hdrop' hseg.nonempty, List.head?_eq_some_head hseg.nonempty]
          simp [subarray, hdrop, List.take_of_length_le, ← List.length_drop]
        rw [hsegment]
        cases fuel with
        | zero => rfl
        | succ fuel =>
          have hrec : life w fuel (addr ++ [n]) 0 (.loop ⟨piped (seg :: seg' :: segs), 0, 0⟩) = none :=
            ih fuel (by omega) rfl (Nat.zero_le _)
          simp only [life_piped hplain (show 2 ≤ (seg :: seg' :: segs).length by simp), hrec, Option.bind_none]
      · -- in the rounds before that the stage is attempted again
        rw [segment_cons (by rw [hdrop, piped_cons_cons]) hi hseg]
        cases fuel with
        | zero => rfl
        | succ fuel =>
          have hrec : life w fuel (addr ++ [n]) 0 (.loop { l with i := l.i + 1 }) = none :=
            ih fuel (by omega) hdrop (by simp; omega)
          simp only [life_child hseg, if_neg (hfail _), hrec, Option.map_none, Option.bind_none]

/-- Nor does one that comes to such a stage later. -/
theorem life_at_eq_none (h : l.At segs) (hplain : ∀ s ∈ segs, Plain s) {i : ℕ} (hi : i + 1 < segs.length)
    (hfail : ∀ a, ¬ Succeeds w a segs[i]) : life w fuel addr n (.loop l) = none := by
  induction segs generalizing l n fuel i with
  | nil => simp at hi
  | cons seg segs ih =>
    cases segs with
    | nil => simp at hi
    | cons seg' segs =>
      have hcount := h.count
      simp only [List.length_cons] at hcount
      cases i with
      | zero => exact life_eq_none h.drop (by omega) hplain hfail
      | succ i =>
        cases fuel with
        | zero => rfl
        | succ fuel =>
          have hrec : life w fuel addr (n + 1) (.loop (l.next seg)) = none :=
            ih h.next (fun s hs => hplain s (List.mem_cons_of_mem _ hs)) (by simpa using hi) hfail
          rw [Loop.next] at hrec
          rw [life, if_pos (by omega)]
          simp only [h.segment_cons (hplain seg (by simp)), hrec, Option.map_none, Option.bind_fun_none]

end Loop

/-- **Every stage is attempted once** if and only if no `execv` fails, except for that of the last stage.  `main` calls
`parsecommand` with the file `p` it has found for the first command. -/
theorem attempted_once_iff {w : World} {segs : List (List CStr)} {p : CStr} (hm : 2 ≤ segs.length)
    (hplain : ∀ seg ∈ segs, Plain seg) :
    (∃ fuel l, life w fuel [] 0 (.parse (some p) (piped segs) none) = some l ∧ AttemptedOnce segs l) ↔
      ∀ i (hi : i + 1 < segs.length), Succeeds w [i] segs[i] := by
  have hat := at_first hplain (List.ne_nil_of_length_pos (by omega))
  constructor
  · rintro ⟨fuel, l, hlife, honce⟩
    cases fuel with
    | zero => cases hlife
    | succ fuel =>
      rw [life_piped hplain hm] at hlife
      intro i hi
      have := succeeds_of_orderly hat hplain hlife honce.orderly i hi
      rwa [Nat.zero_add] at this
  · intro h
    refine ⟨segs.length + 2 + 1, stages w [] 0 segs, ?_, attemptedOnce_stages⟩
    rw [life_piped hplain hm]
    refine life_stages hat hplain (fun i hi => ?_) le_rfl
    rw [Nat.zero_add]
    exact h i hi

/-- The second command of `x | y` is not there. -/
theorem attempted_once_last : ∃ fuel l,
    life ⟨lit "/bin", (· = lit "/bin/x"), fun _ => true⟩ fuel [] 0
      (.parse (some (lit "/bin/x")) (piped [[lit "x"], [lit "y"]]) none) = some l ∧
    AttemptedOnce [[lit "x"], [lit "y"]] l := by
  have hfound : (getfile ⟨lit "/bin", (· = lit "/bin/x"), fun _ => true⟩ (lit "x")).isSome := by decide
  refine (attempted_once_iff (by decide) (by decide)).2 ?_
  intro i hi
  obtain rfl : i = 0 := by
    simp at hi
    omega
  exact ⟨hfound, rfl⟩

/-- The processes of a pipeline are without number where a stage before the last one fails at every attempt. -/
theorem endless {w : World} {segs : List (List CStr)} {p : Option CStr} (hplain : ∀ seg ∈ segs, Plain seg) {i : ℕ}
    (hi : i + 1 < segs.length) (hfail : ∀ a, ¬ Succeeds w a segs[i]) (fuel : ℕ) :
    life w fuel [] 0 (.parse p (piped segs) none) = none := by
  cases fuel with
  | zero => rfl
  | succ fuel =>
    rw [life_piped hplain (by omega)]
    exact life_at_eq_none (at_first hplain (List.ne_nil_of_length_pos (by omega))) hplain hi hfail

/-- `/bin` without a command `nosuch`. -/
def bin : World := ⟨lit "/bin", (· ∈ [lit "/bin/ls", lit "/bin/wc"]), fun _ => true⟩

/-- **Not every stage is attempted once**: the second command of `ls | nosuch | wc` is attempted without end. -/
theorem not_attempted_once : ¬ ∀ (w : World) (segs : List (List CStr)) (p : CStr), 2 ≤ segs.length →
    (∀ seg ∈ segs, Plain seg) → (segs.head?.bind List.head?).bind (getfile w) = some p →
    ∃ fuel l, life w fuel [] 0 (.parse (some p) (piped segs) none) = some l ∧ AttemptedOnce segs l := by
  intro h
  have hplain : ∀ seg ∈ [[lit "ls"], [lit "nosuch"], [lit "wc"]], Plain seg := by decide
  obtain ⟨fuel, l, hlife, -⟩ := h bin [[lit "ls"], [lit "nosuch"], [lit "wc"]] (lit "/bin/ls") (by decide) hplain (by decide)
  rw [endless (i := 1) hplain (by decide) fun a hs => absurd hs.1 (by decide)] at hlife
  cases hlife

end NetProg.Shell
