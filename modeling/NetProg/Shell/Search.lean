import NetProg.Shell.Lines
import NetProg.Shell.Pipeline
import NetProg.Shell.Redirection

/-!
# From a line to a program

`getfile` looks for a command in the directories of `PATH`, in buffers of 100 bytes, and `launch` is what `main` and the
process it forks do with a line that is neither blank nor `exit`, up to the first `execv`, or to the function for a pipe or
a queue.  `check` says which files there are.

* `getfile_eq`: the first file on the search path is found, if nothing is stored behind a buffer;
* `launch_eq`: what is executed depends on the tokens of the line alone;
* `launched`: what is typed is executed, line by line, where no line is blank or for `daemonize`.
-/

namespace NetProg.Shell.Search

open NetProg.Lib NetProg.Shell.Lines

/-- The string and its NUL fit a buffer of that size. -/
def Fits (n : ℕ) (s : CStr) : Prop := s.bytes.length < n

instance (n : ℕ) : DecidablePred (Fits n) := fun s => inferInstanceAs (Decidable (s.bytes.length < n))

/-- The loop, at the token `p` of `strtok_r`; `none` for a store behind `k`. -/
def getfile.loop (check : CStr → Bool) (temp : CStr) : ℕ → CStr → Option (Option CStr)
  | 0, _ => none
  | fuel + 1, savepath =>
    match strtok colon savepath with
    | none => some none
    | some p =>
      if Fits MAX_SIZE (p.cat temp) then
        if check (p.cat temp) then some (some (p.cat temp))
        else getfile.loop check temp fuel (strtokRest colon savepath)
      else none

/-- The path of a command, or NULL; `none` for a store behind one of the buffers. -/
def getfile (check : CStr → Bool) (fuel : ℕ) (path firstarg : CStr) : Option (Option CStr) :=
  let temp := (lit "/").cat firstarg
  if Fits 100 temp ∧ Fits MAX_SIZE path then getfile.loop check temp fuel path else none

/-- What `parsecommand` comes to first. -/
inductive Start where
  | execv (x : Exec)
  /-- `lessersign` finds no file, and exits -/
  | exits
  /-- the function for a pipe or a queue, with its vector -/
  | calls (c : Call) (argv : Argv)
  deriving DecidableEq

/-- The file behind `<`, or NULL. -/
def inputFile (argv : Argv) : Option CStr := (strinarr argv (lit "<") 0).bind fun index => (argv[index + 1]?).join

/-- `parsecommand`; `none` where a NULL is followed. -/
def start (access : CStr → Bool) (argv : Argv) : Option Start :=
  match parsecommand argv with
  | .lessersign => if (inputFile argv).any access then (lessersign access argv).map .execv else some .exits
  | .greatersign => (greatersign argv).map .execv
  | .execv => some (.execv ⟨argv, none, none⟩)
  | c => some (.calls c argv)

/-- What becomes of a line. -/
inductive Launch where
  | notFound (back_pr : Bool)
  | found (path : CStr) (s : Start) (back_pr : Bool)
  deriving DecidableEq

/-- `main` from `getcommand` on, and the process that it forks. -/
def launch (w : World) (garbage : ℕ → Option CStr) (buf : CStr) : Option Launch := do
  let (command, nofargs) ← getcommand MAX_SIZE buf 0
  let p ← getfile w.access MAX_SIZE w.completepath (← command)
  let (v, nofargs, back_pr) ← getargv (nofargs + 1) garbage buf nofargs false
  match p with
  | none => return .notFound back_pr
  | some p => return .found p (← start w.access (v.take nofargs)) back_pr

/-- What the tokens of a line come to: the first of them is the command, which is given all of them; a last `&` is left
out. -/
def program (w : World) (ts : List CStr) : Option Launch :=
  let back_pr := decide (ts.getLast? = some (lit "&"))
  match Shell.getfile w (ts.head?.getD (lit "")) with
  | none => some (.notFound back_pr)
  | some p => (start w.access (words (kept ts))).map fun s => .found p s back_pr

/-- The buffers of `getfile` are large enough. -/
structure Room (path command : CStr) : Prop where
  temp : Fits 100 ((lit "/").cat command)
  path2 : Fits MAX_SIZE path
  k : ∀ p ∈ strtokAll colon path, Fits MAX_SIZE (p.cat ((lit "/").cat command))

variable {check : CStr → Bool} {w : World} {temp path command text : CStr} {fuel : ℕ} {garbage : ℕ → Option CStr}

/-! ### One line -/

/-- `parsecommand` comes to an `execv` in the cases in which the redirections lead to one. -/
theorem start_eq_execv_iff {argv : Argv} {x : Exec} :
    start check argv = some (.execv x) ↔ execute check argv = some x := by
  have hexecv : Function.Injective Start.execv := fun _ _ h => Start.execv.inj h
  unfold start execute
  cases parsecommand argv with
  | lessersign =>
    by_cases hfile : (inputFile argv).any check
    · simp only [hfile, if_true]
      exact Option.map_injective hexecv |>.eq_iff' rfl
    · -- without the file `lessersign` has no `execv`
      have hnone : lessersign check argv = none := by
        cases hindex : strinarr argv (lit "<") 0 with
        | none => simp [lessersign, hindex]
        | some index =>
          cases hentry : argv[index + 1]? with
          | none => simp [lessersign, hindex, hentry]
          | some file =>
            cases file with
            | none => simp [lessersign, hindex, hentry]
            | some file =>
              have hno : check file = false := by simpa [inputFile, hindex, hentry] using hfile
              simp [lessersign, hindex, hentry, hno]
      simp [hfile, hnone]
  | greatersign => exact Option.map_injective hexecv |>.eq_iff' rfl
  | execv => simp
  | _ => simp

theorem length_strtokRest_lt {d : Byte} {s t : CStr} (h : strtok d s = some t) :
    (strtokRest d s).bytes.length < s.bytes.length := by
  have hne := strtok_ne_empty h
  have hsplit := congrArg List.length
    (List.takeWhile_append_dropWhile (p := (· ≠ d)) (l := s.bytes.dropWhile (· = d)))
  have hle := (List.dropWhile_sublist (· = d) (l := s.bytes)).length_le
  rw [strtok] at h
  split at h
  · cases h
  · obtain rfl := Option.some.inj h
    have hpos := List.length_pos_iff.2 hne
    rw [List.length_append] at hsplit
    simp only [CStr.part] at hpos
    show ((s.bytes.dropWhile (· = d)).dropWhile (· ≠ d)).length < s.bytes.length
    omega

/-- **The loop** goes through the directories. -/
theorem getfile_loop (hfuel : path.bytes.length < fuel)
    (h : ∀ p ∈ strtokAll colon path, Fits MAX_SIZE (p.cat temp)) : getfile.loop check temp fuel path =
      some (((strtokAll colon path).map fun p => p.cat temp).find? check) := by
  induction fuel generalizing path with
  | zero => omega
  | succ fuel ih =>
    rw [strtokAll_eq] at h ⊢
    rw [getfile.loop]
    cases hs : strtok colon path with
    | none => rfl
    | some p =>
      rw [hs, Option.elim_some, List.forall_mem_cons] at h
      have hlt := length_strtokRest_lt hs
      dsimp only
      rw [if_pos h.1, Option.elim_some, List.map_cons, List.find?_cons]
      cases check (p.cat temp) with
      | true => rfl
      | false => exact ih (by omega) h.2

theorem getfile_eq (h : Room w.completepath command) :
    getfile w.access MAX_SIZE w.completepath command = some (Shell.getfile w command) := by
  rw [getfile, if_pos ⟨h.temp, h.path2⟩, getfile_loop h.path2 h.k]
  rfl

/-- **What is executed** is a matter of the tokens alone. -/
theorem launch_eq (hlen : text.bytes.length < MAX_SIZE) (hcommand : (tokenList text).head? = some command)
    (h : Room w.completepath command) : launch w garbage text = program w (tokenList text) := by
  obtain ⟨l, hl, hmap⟩ := scan_tokenList text
  have hahead := hl.ahead
  have hfits := hl.tokens_fit hlen
  rw [hmap] at hahead hfits
  obtain ⟨⟨v, nofargs, back_pr⟩, hv, hextracted⟩ := getargv_extracted garbage false hlen hfits hahead
  have hnofargs : nofargs = (kept (tokenList text)).length := hextracted.nofargs
  have hflag : back_pr = decide ((tokenList text).getLast? = some (lit "&")) := by simpa using hextracted.flag
  have hwords : v.take nofargs = words (kept (tokenList text)) := by
    have hentries : v.take (nofargs + 1) = words (kept (tokenList text)) ++ [none] := hextracted.entries
    have htake := congrArg (List.take nofargs) hentries
    rw [List.take_take, Nat.min_eq_left (Nat.le_succ _), hnofargs, ← @length_words (kept (tokenList text)),
      List.take_left] at htake
    rw [hnofargs, ← @length_words (kept (tokenList text)), htake]
  unfold launch program
  simp only [getcommand_tokenList hlen, hcommand, getfile_eq h, hv, Option.bind_eq_bind, Option.bind_some,
    Option.getD_some, hflag, hwords]
  cases Shell.getfile w command with
  | none => rfl
  | some p => cases start w.access (words (kept (tokenList text))) <;> rfl

/-! ### What is typed -/

/-- The rounds in which something is executed. -/
def Round.runs (r : Round) : Bool := r.fate = .runs

/-- The buffers are large enough for all commands. -/
def AllRoom (path : CStr) (cmds : List (List CStr)) : Prop := ∀ ts ∈ cmds, ∀ command ∈ ts.head?, Room path command

/-- The lines that are executed. -/
def executed (cmds : List (List CStr)) : List (List CStr) := cmds.filter fun ts => ts.head? ≠ some (lit "exit")

theorem main_rounds {chunks : List Chunk} {buf : Buffer} {rounds : List Round} (h : main buf chunks = some rounds) :
    ∀ r ∈ rounds, fate r.text = some r.fate ∧ r.text.bytes.length < MAX_SIZE := by
  induction chunks generalizing buf rounds with
  | nil =>
    obtain rfl := Option.some.inj h
    exact List.forall_mem_nil _
  | cons c cs ih =>
    obtain ⟨text, f, rest, rfl, ⟨q, hread⟩, hfate, hrest⟩ := main_cons h
    rw [List.forall_mem_cons]
    refine ⟨⟨hfate, length_text hread⟩, ?_⟩
    rcases hrest with ⟨-, hrest⟩ | ⟨-, rfl⟩
    · exact ih hrest
    · exact List.forall_mem_nil _

/-- Of what is handed on, all but `exit` is executed. -/
theorem runs_iff {r : Round} (h : fate r.text = some r.fate) (hlen : r.text.bytes.length < MAX_SIZE) :
    Round.runs r = true ↔ r.fate.handed = true ∧ (tokenList r.text).head? ≠ some (lit "exit") := by
  have hne := notBlank_of_fate h
  rw [Round.runs, decide_eq_true_iff]
  by_cases hfirst : strtok space r.text = some (lit "daemonize")
  · have hhanded := fate_daemonize hfirst h
    refine ⟨fun hr => ?_, fun hr => absurd (hhanded.symm.trans hr.1) Bool.false_ne_true⟩
    rw [hr] at hhanded
    cases hhanded
  · have hfate := Option.some.inj (h.symm.trans (fate_eq hlen hne hfirst))
    have hleaves : Leaves r.text.bytes ↔ (tokenList r.text).head? = some (lit "exit") := by
      rw [Leaves, r.text.ofBytes_self]
    rw [hfate, Ne, ← hleaves]
    by_cases hl : Leaves r.text.bytes
    · rw [if_pos hl]
      refine ⟨fun hr => ?_, fun hr => absurd hl hr.2⟩
      cases hr
    · rw [if_neg hl]
      exact ⟨fun _ => ⟨rfl, hl⟩, fun _ => rfl⟩

/-- **What is typed is executed**: where every read returns one line, none of them blank or for `daemonize`, the shell runs
the lines in their order, each with the program that is found first and with its own tokens. -/
theorem launched {buf : Buffer} {chunks : List Chunk} (hnul : (0 : Byte) ∉ received chunks) (h : Whole buf chunks)
    (hroom : AllRoom w.completepath (commands (received chunks))) : ∃ rounds, main buf chunks = some rounds ∧
      (rounds.filter Round.runs).map (fun r => launch w garbage r.text) =
        (executed (commands (received chunks))).map (program w) := by
  obtain ⟨rounds, hmain, -, hhanded⟩ := executed_of_whole hnul h
  refine ⟨rounds, hmain, ?_⟩
  have hrounds := main_rounds hmain
  have hfilter : rounds.filter Round.runs =
      (rounds.filter (·.fate.handed)).filter fun r => (tokenList r.text).head? ≠ some (lit "exit") := by
    rw [List.filter_filter]
    refine List.filter_congr fun r hr => ?_
    obtain ⟨hfate, hlen⟩ := hrounds r hr
    rw [Bool.eq_iff_iff, runs_iff hfate hlen, Bool.and_eq_true, decide_eq_true_iff, and_comm]
  have hexecuted : executed (commands (received chunks)) =
      (rounds.filter Round.runs).map fun r => tokenList r.text := by
    rw [← hhanded, executed, handed, List.filter_map, hfilter]
    rfl
  rw [hexecuted, List.map_map]
  refine List.map_congr_left fun r hr => ?_
  obtain ⟨hmem, hruns⟩ := List.mem_filter.1 hr
  obtain ⟨hfate, hlen⟩ := hrounds r hmem
  have hhandedr := ((runs_iff hfate hlen).1 hruns).1
  have hin : tokenList r.text ∈ commands (received chunks) := by
    rw [← hhanded]
    exact List.mem_map_of_mem (List.mem_filter.2 ⟨hmem, hhandedr⟩)
  have hnil : tokenList r.text ≠ [] := fun hnil => by
    obtain ⟨b, hb, hne⟩ := notBlank_of_fate hfate
    exact hne (tokenList_eq_nil_iff.1 hnil b hb)
  obtain ⟨command, ts, hts⟩ := List.exists_cons_of_ne_nil hnil
  have hhead : (tokenList r.text).head? = some command := by rw [hts, List.head?_cons]
  exact launch_eq hlen hhead (hroom _ hin command hhead)

instance : Decidable (Room path command) :=
  decidable_of_iff (Fits 100 ((lit "/").cat command) ∧ Fits MAX_SIZE path ∧
    ∀ p ∈ strtokAll colon path, Fits MAX_SIZE (p.cat ((lit "/").cat command)))
    ⟨fun h => ⟨h.1, h.2.1, h.2.2⟩, fun h => ⟨h.temp, h.path2, h.k⟩⟩

instance (cmds : List (List CStr)) : Decidable (AllRoom path cmds) :=
  inferInstanceAs (Decidable (∀ ts ∈ cmds, ∀ command ∈ ts.head?, Room path command))

/-- A program in the second directory, and the end. -/
theorem launched_ls : ∃ rounds, main ⟨List.replicate MAX_SIZE 0, rfl⟩
      [⟨(lit "ls -l &\n").bytes, by decide, by decide⟩, ⟨(lit "exit\n").bytes, by decide, by decide⟩] = some rounds ∧
    (rounds.filter Round.runs).map (fun r =>
        launch ⟨lit "/usr/bin:/bin", (· = lit "/bin/ls"), fun _ => true⟩ (fun _ => none) r.text) =
      [some (.found (lit "/bin/ls") (.execv ⟨words [lit "ls", lit "-l"], none, none⟩) true)] := by
  let c : Chunk := ⟨(lit "ls -l &\n").bytes, by decide, by decide⟩
  let d : Chunk := ⟨(lit "exit\n").bytes, by decide, by decide⟩
  have hnul : (0 : Byte) ∉ received [c, d] := by decide
  have hwhole : Whole ⟨List.replicate MAX_SIZE 0, rfl⟩ [c, d] :=
    ⟨⟨by decide, by decide, by decide⟩, .inr ⟨by decide, by decide, ⟨by decide, by decide, by decide⟩,
      .inl ⟨by decide, .inl (by decide), by decide⟩⟩⟩
  have hroom : AllRoom (lit "/usr/bin:/bin") (commands (received [c, d])) := by decide
  obtain ⟨rounds, hmain, hlaunch⟩ := launched (w := ⟨lit "/usr/bin:/bin", (· = lit "/bin/ls"), fun _ => true⟩) hnul hwhole hroom
  exact ⟨rounds, hmain, hlaunch.trans (by decide)⟩

end NetProg.Shell.Search
