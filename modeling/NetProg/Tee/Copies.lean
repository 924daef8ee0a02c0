import Mathlib.Data.List.DropRight
import Mathlib.Data.List.Nodup
import Mathlib.Logic.Function.Basic
import NetProg.Lib.Gets

/-!
# What `tee` copies

The loop of `tee.c` reads with `fgets` and tests for the end of the input before it reads.  Every round closes the output
files and opens them again at their ends.

`copied_iff`: the standard output and every file hold the input if and only if the last read that returns something has
come to the end of the input, and no file is named twice (or there is only one round).
-/

namespace NetProg.Tee

open NetProg.Lib

/-- The size of `str`. -/
def strSize : ℕ := 1024

/-! ### Reading -/

structure Stdin where
  rest : List Byte
  eof : Bool

/-- `fgets(str, size, stdin)`: where nothing is read, `str` keeps what it holds. -/
def fgets (size : ℕ) (str : List Byte) (stdin : Stdin) : List Byte × Stdin :=
  let got := gets (size - 1) stdin.rest
  (if got.piece = [] then str else got.piece ++ 0 :: str.drop (got.piece.length + 1), ⟨got.rest, got.eof⟩)

/-- What `fputs(str, ..)` writes; without a NUL it would go past `str`. -/
def fputs (str : List Byte) : Option (List Byte) := (readBytes str).map Prod.fst

/-! ### Files -/

inductive Mode where
  | write
  | append

/-- `FILE`: `pending` is written when the file is closed. -/
structure Handle (F : Type) where
  name : F
  mode : Mode
  pending : List Byte

variable {F : Type} [DecidableEq F]

def fopen (mode : Mode) (name : F) : Handle F := ⟨name, mode, []⟩

/-- What opening for writing does to a file. -/
def truncate (files : F → List Byte) (name : F) : F → List Byte := Function.update files name []

/-- A handle that was opened for writing writes from the front of the file, one for appending at its end. -/
def fclose (files : F → List Byte) (h : Handle F) : F → List Byte :=
  match h.mode with
  | .write => Function.update files h.name (h.pending ++ (files h.name).drop h.pending.length)
  | .append => Function.update files h.name (files h.name ++ h.pending)

/-! ### The program -/

structure State (F : Type) where
  str : List Byte
  stdin : Stdin
  stdout : List Byte
  f : List (Handle F)
  files : F → List Byte

/-- One round of the loop. -/
def round (argv : List F) (st : State F) : Option (State F) :=
  let (str, stdin) := fgets strSize st.str st.stdin
  (fputs str).map fun text =>
    { str := str
      stdin := stdin
      stdout := st.stdout ++ text
      files := (st.f.map fun h => { h with pending := h.pending ++ text }).foldl fclose st.files
      f := argv.map (fopen .append) }

/-- The loop; the first argument bounds its rounds. -/
def loop (argv : List F) : ℕ → State F → Option (State F)
  | 0, _ => none
  | fuel + 1, st => if st.stdin.eof then some st else (round argv st).bind (loop argv fuel)

/-- The state before the loop, with what happens to be in `str`. -/
def start (str input : List Byte) (argv : List F) (files : F → List Byte) : State F where
  str := str
  stdin := ⟨input, false⟩
  stdout := []
  f := argv.map (fopen .write)
  files := argv.foldl truncate files

def tee (fuel : ℕ) (str input : List Byte) (argv : List F) (files : F → List Byte) : Option (State F) :=
  (loop argv fuel (start str input argv files)).map fun st => { st with files := st.f.foldl fclose st.files, f := [] }

/-- The program ends, and the standard output and every file hold the input. -/
def Copied (fuel : ℕ) (str input : List Byte) (argv : List F) (files : F → List Byte) : Prop :=
  ∃ st, tee fuel str input argv files = some st ∧ st.stdout = input ∧ ∀ name ∈ argv, st.files name = input

/-- The bytes behind the last newline. -/
def lastLine (input : List Byte) : List Byte := input.rtakeWhile (· ≠ newline)

/-! ### What a read takes -/

section Reading

variable {n : ℕ} {rest str : List Byte}

theorem lastLine_of_not_mem (h : newline ∉ rest) : lastLine rest = rest := by
  rw [lastLine, List.rtakeWhile_eq_self_iff]
  intro b hb
  simpa using fun he : b = newline => h (he ▸ hb)

theorem lastLine_cons_of_mem {b : Byte} (h : newline ∈ rest) : lastLine (b :: rest) = lastLine rest := by
  have hstop : ¬ (rest.reverse.takeWhile (· ≠ newline)).length = rest.reverse.length := by
    intro hlen
    have hall := List.takeWhile_eq_self_iff.1 ((List.takeWhile_prefix _).eq_of_length hlen)
    simpa using hall newline (List.mem_reverse.2 h)
  rw [lastLine, lastLine, List.rtakeWhile, List.rtakeWhile, List.reverse_cons, List.takeWhile_append, if_neg hstop]

theorem lastLine_newline : lastLine (newline :: rest) = lastLine rest := by
  by_cases h : newline ∈ rest
  · exact lastLine_cons_of_mem h
  · rw [lastLine_of_not_mem h, lastLine, List.rtakeWhile, List.reverse_cons, List.takeWhile_append_of_pos,
      List.takeWhile_cons_of_neg (by simp), List.append_nil, List.reverse_reverse]
    intro b hb
    simpa using fun he : b = newline => h (he ▸ List.mem_reverse.1 hb)

/-- A read that does not meet the end takes a line, or as much of one as it has room for. -/
theorem lastLine_gets (h : (gets n rest).eof = false) :
    newline ∈ rest ∧ lastLine rest = lastLine (gets n rest).rest ∨
    newline ∉ rest ∧ newline ∉ (gets n rest).rest ∧ rest.length = (gets n rest).rest.length + n := by
  induction n generalizing rest with
  | zero =>
    by_cases hmem : newline ∈ rest
    · exact .inl ⟨hmem, rfl⟩
    · exact .inr ⟨hmem, hmem, rfl⟩
  | succ n ih =>
    cases rest with
    | nil => cases h
    | cons b rest =>
      unfold gets at h ⊢
      split at h
      · next hb =>
        subst hb
        exact .inl ⟨List.mem_cons_self, lastLine_newline⟩
      · next hb =>
        rw [if_neg hb]
        rcases ih h with ⟨hmem, hlast⟩ | ⟨hmem, hrest, hlen⟩
        · exact .inl ⟨List.mem_cons_of_mem _ hmem, (lastLine_cons_of_mem hmem).trans hlast⟩
        · refine .inr ⟨?_, hrest, ?_⟩
          · rw [List.mem_cons, not_or]
            exact ⟨Ne.symm hb, hmem⟩
          · rw [List.length_cons, hlen]
            rfl

/-- The last read meets the end. -/
def Ends (n : ℕ) (rest : List Byte) : Prop := (lastLine rest).length % n ≠ 0

instance (n : ℕ) (rest : List Byte) : Decidable (Ends n rest) := inferInstanceAs (Decidable (_ ≠ _))

theorem ends_of_eof (h : (gets n rest).eof = true) (hrest : rest ≠ []) : Ends n rest := by
  obtain ⟨hmem, hlen⟩ := gets_eof_iff.1 h
  rw [Ends, lastLine_of_not_mem hmem, Nat.mod_eq_of_lt hlen]
  exact fun he => hrest (List.length_eq_zero_iff.1 he)

theorem ends_gets (h : (gets n rest).eof = false) : Ends n rest ↔ Ends n (gets n rest).rest := by
  rcases lastLine_gets h with ⟨-, hlast⟩ | ⟨hmem, hrest, hlen⟩
  · rw [Ends, hlast, Ends]
  · rw [Ends, Ends, lastLine_of_not_mem hmem, lastLine_of_not_mem hrest, hlen, Nat.add_mod_right]

theorem not_ends_nil : ¬ Ends n [] := fun h => h (Nat.zero_mod n)

/-- What has been read is what is written. -/
theorem fputs_fgets {size : ℕ} (hsize : 1 < size) (hrest : rest ≠ []) (hnul : (0 : Byte) ∉ rest) (eof : Bool) :
    fputs (fgets size str ⟨rest, eof⟩).1 = some (gets (size - 1) rest).piece := by
  have hne := gets_piece_ne_nil (show 0 < size - 1 by omega) hrest
  have hpiece : (0 : Byte) ∉ (gets (size - 1) rest).piece := by
    intro h
    apply hnul
    rw [← gets_append (size - 1) rest]
    exact List.mem_append_left _ h
  show fputs (if (gets (size - 1) rest).piece = [] then str else _) = _
  rw [if_neg hne, fputs, readBytes_append _ hpiece]
  rfl

end Reading

/-! ### What closing writes -/

section Closing

variable {argv : List F} {files : F → List Byte} {text : List Byte} {name : F}

theorem truncate_mem (h : name ∈ argv) : argv.foldl truncate files name = [] := by
  induction argv using List.reverseRecOn with
  | nil => cases h
  | append_singleton argv a ih =>
    rw [List.foldl_concat, truncate]
    by_cases ha : name = a
    · rw [ha, Function.update_self]
    · rw [Function.update_of_ne ha]
      exact ih ((List.mem_append.1 h).resolve_right fun hm => ha (List.mem_singleton.1 hm))

/-- Closing all handles after one text. -/
theorem foldl_fclose (mode : Mode) (argv : List F) (text : List Byte) (files : F → List Byte) :
    ((argv.map (fopen mode)).map fun h => { h with pending := h.pending ++ text }).foldl fclose files =
      argv.foldl (fun files name => fclose files ⟨name, mode, text⟩) files := by
  rw [List.foldl_map, List.foldl_map]
  rfl

/-- The first round writes its text to every file, once. -/
theorem close_write (hfile : files name = []) : argv.foldl (fun files name => fclose files ⟨name, .write, text⟩) files name =
    if name ∈ argv then text else [] := by
  induction argv using List.reverseRecOn with
  | nil => exact hfile
  | append_singleton argv a ih =>
    rw [List.foldl_concat]
    by_cases ha : name = a
    · subst ha
      show Function.update _ name _ name = _
      rw [Function.update_self, ih, if_pos (List.mem_append_right _ (List.mem_singleton_self name))]
      split
      · rw [List.drop_length, List.append_nil]
      · rw [List.drop_nil, List.append_nil]
    · show Function.update _ a _ name = _
      rw [Function.update_of_ne ha, ih]
      simp [ha]

/-- A later round puts its text behind a file as many times as the file is named. -/
theorem close_append (files : F → List Byte) (argv : List F) (text : List Byte) (name : F) :
    argv.foldl (fun files name => fclose files ⟨name, .append, text⟩) files name =
      files name ++ (List.replicate (argv.count name) text).flatten := by
  induction argv using List.reverseRecOn with
  | nil => simp
  | append_singleton argv a ih =>
    rw [List.foldl_concat, List.count_append]
    by_cases ha : name = a
    · subst ha
      show Function.update _ name _ name = _
      rw [Function.update_self, ih, List.count_singleton_self, List.replicate_succ', List.flatten_append, List.append_assoc,
        List.flatten_singleton]
    · show Function.update _ a _ name = _
      rw [Function.update_of_ne ha, ih, List.count_singleton, beq_false_of_ne (Ne.symm ha)]
      simp

/-- Closing handles that hold nothing changes nothing. -/
theorem close_nil (files : F → List Byte) (argv : List F) (name : F) :
    (argv.map (fopen .append)).foldl fclose files name = files name := by
  rw [List.foldl_map]
  show argv.foldl (fun files name => fclose files ⟨name, .append, []⟩) files name = _
  rw [close_append]
  simp

end Closing

/-! ### The loop -/

section Loop

variable {argv : List F} {st : State F} {text : List Byte} {name : F} {fuel : ℕ}

theorem round_eq (argv : List F) (h : fputs (fgets strSize st.str st.stdin).1 = some text) :
    round argv st =
    some
      { str := (fgets strSize st.str st.stdin).1
        stdin := (fgets strSize st.str st.stdin).2
        stdout := st.stdout ++ text
        files := (st.f.map fun h => { h with pending := h.pending ++ text }).foldl fclose st.files
        f := argv.map (fopen .append) } := by
  show (fputs (fgets strSize st.str st.stdin).1).map _ = _
  rw [h, Option.map_some]
  rfl

theorem loop_of_eof (heof : st.stdin.eof = true) (hfuel : 0 < fuel) : loop argv fuel st = some st := by
  obtain ⟨fuel, rfl⟩ := Nat.exists_eq_add_of_lt hfuel
  rw [Nat.zero_add, loop, if_pos heof]

/-- What the rounds after the first one do: `more` is written to the standard output, and behind every file that is named
once; more generally as much of it as the file has names. -/
structure Adds (argv : List F) (st st' : State F) (more : List Byte) : Prop where
  stdout : st'.stdout = st.stdout ++ more
  f : st'.f = argv.map (fopen .append)
  files : ∀ name, ∃ copies, st'.files name = st.files name ++ copies ∧ copies.length = argv.count name * more.length ∧
    (argv.count name = 1 → copies = more)

theorem Adds.trans {st₁ st₂ st₃ : State F} {more more' : List Byte} (h : Adds argv st₁ st₂ more)
    (h' : Adds argv st₂ st₃ more') : Adds argv st₁ st₃ (more ++ more') where
  stdout := by rw [h'.stdout, h.stdout, List.append_assoc]
  f := h'.f
  files name := by
    obtain ⟨copies, hfile, hlen, hone⟩ := h.files name
    obtain ⟨copies', hfile', hlen', hone'⟩ := h'.files name
    refine ⟨copies ++ copies', ?_, ?_, fun h1 => ?_⟩
    · rw [hfile', hfile, List.append_assoc]
    · rw [List.length_append, List.length_append, hlen, hlen', Nat.mul_add]
    · rw [hone h1, hone' h1]

theorem adds_round {st' : State F} (hf : st.f = argv.map (fopen .append))
    (htext : fputs (fgets strSize st.str st.stdin).1 = some text) (h : round argv st = some st') :
    Adds argv st st' text ∧ st'.stdin = (fgets strSize st.str st.stdin).2 ∧ st'.str = (fgets strSize st.str st.stdin).1 := by
  rw [round_eq argv htext, Option.some.injEq] at h
  subst h
  refine ⟨⟨rfl, rfl, fun name => ⟨(List.replicate (argv.count name) text).flatten, ?_, ?_, fun h1 => ?_⟩⟩, rfl, rfl⟩
  · show (st.f.map _).foldl fclose st.files name = _
    rw [hf, foldl_fclose, close_append]
  · rw [List.length_flatten, List.map_replicate, List.sum_replicate_nat]
  · rw [h1, List.replicate_one, List.flatten_singleton]

/-- **The rounds after the first one** write the rest of the input if the last read meets the end; otherwise there is one
more round, in which nothing is read. -/
theorem loop_adds (hf : st.f = argv.map (fopen .append)) (heof : st.stdin.eof = false) (hnul : (0 : Byte) ∉ st.stdin.rest)
    (hstr : fputs st.str = some text) (htext : text ≠ []) (hfuel : st.stdin.rest.length + 1 < fuel) :
    ∃ st' more, loop argv fuel st = some st' ∧ Adds argv st st' more ∧
      (more = st.stdin.rest ↔ Ends (strSize - 1) st.stdin.rest) := by
  induction fuel generalizing st text with
  | zero => omega
  | succ fuel ih =>
    have hnot : ¬ st.stdin.eof = true := by rw [heof]; exact Bool.false_ne_true
    rw [loop, if_neg hnot]
    by_cases hrest : st.stdin.rest = []
    · -- nothing is read, and `str` is written again
      have hfgets : fgets strSize st.str st.stdin = (st.str, ⟨[], true⟩) := by
        rw [fgets, hrest]
        rfl
      have htext' : fputs (fgets strSize st.str st.stdin).1 = some text := by rw [hfgets, hstr]
      have hround := round_eq argv htext'
      obtain ⟨hadds, hstdin, -⟩ := adds_round hf htext' hround
      rw [hround, Option.bind_some, loop_of_eof (by rw [hstdin, hfgets]) (by omega)]
      refine ⟨_, text, rfl, hadds, ?_⟩
      rw [hrest]
      exact ⟨fun he => absurd he htext, fun he => absurd he not_ends_nil⟩
    · -- a piece of the input is read and written
      have htext' : fputs (fgets strSize st.str st.stdin).1 = some (gets (strSize - 1) st.stdin.rest).piece :=
        fputs_fgets (by decide) hrest hnul st.stdin.eof
      have hne := gets_piece_ne_nil (show 0 < strSize - 1 by decide) hrest
      have hsplit := gets_append (strSize - 1) st.stdin.rest
      obtain ⟨st₁, hround⟩ : ∃ st₁, round argv st = some st₁ := ⟨_, round_eq argv htext'⟩
      obtain ⟨hadds, hstdin, hstr₁⟩ := adds_round hf htext' hround
      have hrest₁ : st₁.stdin.rest = (gets (strSize - 1) st.stdin.rest).rest := by rw [hstdin]; rfl
      have heof₁ : st₁.stdin.eof = (gets (strSize - 1) st.stdin.rest).eof := by rw [hstdin]; rfl
      rw [hround, Option.bind_some]
      cases hend : (gets (strSize - 1) st.stdin.rest).eof with
      | true =>
        rw [gets_rest_of_eof hend, List.append_nil] at hsplit
        rw [loop_of_eof (heof₁.trans hend) (by omega)]
        exact ⟨st₁, _, rfl, hadds, fun _ => ends_of_eof hend hrest, fun _ => hsplit⟩
      | false =>
        have hnul₁ : (0 : Byte) ∉ st₁.stdin.rest := fun h =>
          hnul (hsplit ▸ List.mem_append_right _ (hrest₁ ▸ h))
        have hlen : st₁.stdin.rest.length + 1 < fuel := by
          have hpos := List.length_pos_iff.2 hne
          have htotal := congrArg List.length hsplit
          rw [List.length_append] at htotal
          rw [hrest₁]
          omega
        obtain ⟨st', more, hloop, hmore, hiff⟩ :=
          ih hadds.f (heof₁.trans hend) hnul₁ (by rw [hstr₁, htext']) hne hlen
        refine ⟨st', _, hloop, hadds.trans hmore, ?_⟩
        rw [ends_gets hend, ← hrest₁, ← hiff, hrest₁]
        nth_rewrite 2 [← hsplit]
        exact List.append_right_inj _

end Loop

/-! ### The program -/

section Program

variable {argv : List F} {files : F → List Byte} {str input text : List Byte} {fuel : ℕ}

/-- The first round fills every file. -/
theorem round_start (argv : List F) (files : F → List Byte)
    (h : fputs (fgets strSize str ⟨input, false⟩).1 = some text) :
    ∃ st, round argv (start str input argv files) = some st ∧ st.stdout = text ∧ st.f = argv.map (fopen .append) ∧
      (∀ name ∈ argv, st.files name = text) ∧ (st.str, st.stdin) = fgets strSize str ⟨input, false⟩ := by
  refine ⟨_, round_eq argv h, List.nil_append _, rfl, fun name hname => ?_, rfl⟩
  show ((argv.map (fopen .write)).map _).foldl fclose (argv.foldl truncate files) name = text
  rw [foldl_fclose, close_write (truncate_mem hname), if_pos hname]

/-- The loop ends with handles that hold nothing. -/
theorem copied_iff_of_loop {st : State F} (hloop : loop argv fuel (start str input argv files) = some st)
    (hf : st.f = argv.map (fopen .append)) :
    Copied fuel str input argv files ↔ st.stdout = input ∧ ∀ name ∈ argv, st.files name = input := by
  have htee : tee fuel str input argv files = some { st with files := st.f.foldl fclose st.files, f := [] } := by
    show (loop argv fuel (start str input argv files)).map _ = _
    rw [hloop, Option.map_some]
  have hclose : st.f.foldl fclose st.files = st.files := by
    funext name
    rw [hf, close_nil]
  rw [Copied, htee, hclose]
  constructor
  · rintro ⟨st', hst, hcopied⟩
    obtain rfl := Option.some.inj hst
    exact hcopied
  · exact fun hcopied => ⟨_, rfl, hcopied⟩

theorem fputs_eq_nil_iff : fputs str = some [] ↔ str.head? = some 0 := by
  cases str with
  | nil => simp [fputs, readBytes]
  | cons b q =>
    by_cases hb : b = 0
    · simp [fputs, readBytes, hb]
    · simp [fputs, readBytes, hb]

/-- Without input the program writes what happens to be in `str`. -/
theorem copied_nil_iff (hfuel : 1 < fuel) : Copied fuel str [] argv files ↔ str.head? = some 0 := by
  obtain ⟨fuel, rfl⟩ := Nat.exists_eq_add_of_lt hfuel
  have hloop : loop argv (1 + fuel + 1) (start str [] argv files) =
      (round argv (start str [] argv files)).bind (loop argv (1 + fuel)) := rfl
  rw [← fputs_eq_nil_iff]
  cases hstr : fputs str with
  | none =>
    -- without a NUL the program fails
    have hround : round argv (start str [] argv files) = none := by
      show (fputs str).map _ = none
      rw [hstr, Option.map_none]
    rw [hround, Option.bind_none] at hloop
    refine ⟨?_, fun h => by cases h⟩
    rintro ⟨st, hst, -⟩
    rw [tee, hloop] at hst
    cases hst
  | some text =>
    obtain ⟨st, hround, hstdout, hf, hfiles, hstdin⟩ := round_start argv files (show fputs (fgets strSize str ⟨[], false⟩).1 = some text from hstr)
    have heof : st.stdin.eof = true := congrArg (fun r : List Byte × Stdin => r.2.eof) hstdin
    rw [hround, Option.bind_some, loop_of_eof heof (by omega)] at hloop
    rw [copied_iff_of_loop hloop hf, hstdout, Option.some.injEq]
    exact ⟨fun h => h.1, fun h => ⟨h, fun name hname => (hfiles name hname).trans h⟩⟩

/-- The first round of an input that is not empty. -/
theorem round_start_of_ne_nil (str : List Byte) (argv : List F) (files : F → List Byte) (hinput : input ≠ [])
    (hnul : (0 : Byte) ∉ input) :
    ∃ st, round argv (start str input argv files) = some st ∧ st.stdout = (gets (strSize - 1) input).piece ∧
      st.f = argv.map (fopen .append) ∧ (∀ name ∈ argv, st.files name = (gets (strSize - 1) input).piece) ∧
      st.stdin = ⟨(gets (strSize - 1) input).rest, (gets (strSize - 1) input).eof⟩ ∧
      fputs st.str = some (gets (strSize - 1) input).piece := by
  have htext : fputs (fgets strSize str ⟨input, false⟩).1 = some (gets (strSize - 1) input).piece :=
    fputs_fgets (by decide) hinput hnul false
  obtain ⟨st, hround, hstdout, hf, hfiles, hstdin⟩ := round_start argv files htext
  refine ⟨st, hround, hstdout, hf, hfiles, (Prod.ext_iff.1 hstdin).2, ?_⟩
  rw [← htext]
  exact congrArg fputs (Prod.ext_iff.1 hstdin).1

/-- If one read takes all of the input, every file gets it once. -/
theorem copied_of_one (hinput : input ≠ []) (hnul : (0 : Byte) ∉ input) (hone : newline ∉ input ∧ input.length < strSize - 1)
    (hfuel : input.length + 1 < fuel) : Copied fuel str input argv files := by
  obtain ⟨fuel, rfl⟩ := Nat.exists_eq_add_of_lt hfuel
  obtain ⟨st, hround, hstdout, hf, hfiles, hstdin, -⟩ := round_start_of_ne_nil str argv files hinput hnul
  have heof : (gets (strSize - 1) input).eof = true := gets_eof_iff.2 hone
  have hpiece := gets_append (strSize - 1) input
  rw [gets_rest_of_eof heof, List.append_nil] at hpiece
  have hloop : loop argv (input.length + 1 + fuel + 1) (start str input argv files) = some st := by
    show (round argv (start str input argv files)).bind (loop argv (input.length + 1 + fuel)) = _
    rw [hround, Option.bind_some, loop_of_eof (by rw [hstdin, heof]) (by omega)]
  rw [copied_iff_of_loop hloop hf]
  exact ⟨hstdout.trans hpiece, fun name hname => (hfiles name hname).trans hpiece⟩

/-- Otherwise the last read has to meet the end, and every file is opened for appending as often as it is named. -/
theorem copied_iff_of_more (hinput : input ≠ []) (hnul : (0 : Byte) ∉ input)
    (hmore : ¬ (newline ∉ input ∧ input.length < strSize - 1)) (hfuel : input.length + 1 < fuel) :
    Copied fuel str input argv files ↔ Ends (strSize - 1) input ∧ argv.Nodup := by
  obtain ⟨fuel, rfl⟩ := Nat.exists_eq_add_of_lt hfuel
  obtain ⟨st, hround, hstdout, hf, hfiles, hstdin, hstr⟩ := round_start_of_ne_nil str argv files hinput hnul
  have heof : (gets (strSize - 1) input).eof = false := Bool.eq_false_iff.2 fun h => hmore (gets_eof_iff.1 h)
  have hne := gets_piece_ne_nil (show 0 < strSize - 1 by decide) hinput
  have hsplit := gets_append (strSize - 1) input
  have hrest : st.stdin.rest = (gets (strSize - 1) input).rest := by rw [hstdin]
  have hnul' : (0 : Byte) ∉ st.stdin.rest := fun h => hnul (hsplit ▸ List.mem_append_right _ (hrest ▸ h))
  have hlen : st.stdin.rest.length + 1 < input.length + 1 + fuel := by
    have hpos := List.length_pos_iff.2 hne
    have htotal := congrArg List.length hsplit
    rw [List.length_append] at htotal
    rw [hrest]
    omega
  obtain ⟨st', more, hloop', hadds, hiff⟩ := loop_adds hf (by rw [hstdin, heof]) hnul' hstr hne hlen
  have hloop : loop argv (input.length + 1 + fuel + 1) (start str input argv files) = some st' := by
    show (round argv (start str input argv files)).bind (loop argv (input.length + 1 + fuel)) = _
    rw [hround, Option.bind_some, hloop']
  rw [hrest] at hiff
  rw [copied_iff_of_loop hloop hadds.f, hadds.stdout, hstdout, ends_gets heof, ← hiff]
  constructor
  · rintro ⟨hout, hall⟩
    have hmore : more = (gets (strSize - 1) input).rest := by
      nth_rewrite 2 [← hsplit] at hout
      exact List.append_cancel_left hout
    refine ⟨hmore, List.nodup_iff_count_le_one.2 fun name => ?_⟩
    by_cases hname : name ∈ argv
    · -- more names would have made the file longer
      obtain ⟨copies, hfile, hcopies, -⟩ := hadds.files name
      have hpos : 0 < more.length := by
        have hends := hiff.1 hmore
        rw [List.length_pos_iff, hmore]
        rintro hnil
        rw [hnil] at hends
        exact not_ends_nil hends
      rw [hall name hname, hfiles name hname] at hfile
      have hsame : copies = more := by
        rw [hmore]
        nth_rewrite 1 [← hsplit] at hfile
        exact (List.append_cancel_left hfile).symm
      rw [hsame] at hcopies
      have hone : argv.count name = 1 := Nat.eq_of_mul_eq_mul_right hpos (by rw [← hcopies, Nat.one_mul])
      exact hone.le
    · rw [List.count_eq_zero_of_not_mem hname]
      exact Nat.zero_le 1
  · rintro ⟨hmore, hnodup⟩
    have hout : (gets (strSize - 1) input).piece ++ more = input := by rw [hmore, hsplit]
    refine ⟨hout, fun name hname => ?_⟩
    obtain ⟨copies, hfile, -, hone⟩ := hadds.files name
    rw [hfile, hfiles name hname, hone (List.count_eq_one_of_mem hnodup hname), hout]

/-- **`tee` copies its input** if and only if there is none and `str` begins with a NUL, or the last line is there without
its newline and no multiple of what a read takes, and the output files are different ones unless a single read takes all. -/
theorem copied_iff (input : CStr) (str : List Byte) (argv : List F) (files : F → List Byte)
    (hfuel : input.bytes.length + 1 < fuel) : Copied fuel str input.bytes argv files ↔
      (input.bytes = [] ∧ str.head? = some 0) ∨
      (Ends (strSize - 1) input.bytes ∧ (argv.Nodup ∨ newline ∉ input.bytes ∧ input.bytes.length < strSize - 1)) := by
  by_cases hinput : input.bytes = []
  · rw [hinput] at hfuel ⊢
    rw [copied_nil_iff hfuel]
    simp [not_ends_nil]
  by_cases hone : newline ∉ input.bytes ∧ input.bytes.length < strSize - 1
  · have hends : Ends (strSize - 1) input.bytes := ends_of_eof (gets_eof_iff.2 hone) hinput
    exact ⟨fun _ => .inr ⟨hends, .inr hone⟩, fun _ => copied_of_one hinput input.nul_free hone hfuel⟩
  · rw [copied_iff_of_more hinput input.nul_free hone hfuel]
    refine ⟨fun h => .inr ⟨h.1, .inl h.2⟩, ?_⟩
    rintro (⟨hnil, -⟩ | ⟨hends, hnodup⟩)
    · exact absurd hnil hinput
    · exact ⟨hends, hnodup.resolve_right hone⟩

end Program

/-- Two lines, the second of them without its newline, to two files. -/
theorem copied_two : Copied 6 (List.replicate strSize 0) (lit "a\nb").bytes ["x", "y"] (fun _ => []) :=
  (copied_iff (lit "a\nb") _ _ _ (by decide)).2 (.inr ⟨by decide, .inl (by decide)⟩)

/-- The last line of a text is copied twice. -/
theorem last_line_twice : ¬ ∀ (input : CStr) (argv : List String) (files : String → List Byte),
    Copied (input.bytes.length + 2) (List.replicate strSize 0) input.bytes argv files := by
  intro h
  have hcopied := h (lit "a\n") ["x"] (fun _ => [])
  have hmore : ¬ (newline ∉ (lit "a\n").bytes ∧ (lit "a\n").bytes.length < strSize - 1) := by decide
  rw [copied_iff_of_more (by decide) (lit "a\n").nul_free hmore (Nat.lt_succ_self _)] at hcopied
  exact absurd hcopied.1 (by decide)

end NetProg.Tee
