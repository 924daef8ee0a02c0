import NetProg.Shell.Argv

/-!
# Redirections

What `parsecommand` passes to `execv`, and what standard input and standard output are by then, for a vector of words
and redirections in any order (`Item`).  The files can be opened, and a process that comes to `execv` is replaced.

`redirection_iff`: the words arrive without the redirections, and the last of these count, in the cases of `Handled` only.
-/

namespace NetProg.Shell

open NetProg.Lib

/-- The operators that a redirection starts with. -/
inductive Redirect where
  | input
  | output
  | append
  deriving DecidableEq

def Redirect.sym : Redirect → CStr
  | input => lit "<"
  | output => lit ">"
  | append => lit ">>"

/-- A token that is not an operator. -/
structure Name where
  str : CStr
  plain : str ∉ operators

theorem Name.ext {a b : Name} (h : a.str = b.str) : a = b := by
  cases a; cases b; congr

/-- A command word, or a redirection to a file. -/
inductive Item where
  | word (w : Name)
  | redirect (op : Redirect) (file : Name)

def Item.tokens : Item → List CStr
  | word w => [w.str]
  | redirect op file => [op.sym, file.str]

/-- The tokens of a command. -/
def tokens (items : List Item) : List CStr := items.flatMap Item.tokens

/-- The command words. -/
def commandWords (items : List Item) : List CStr :=
  items.filterMap fun
    | .word w => some w.str
    | .redirect _ _ => none

/-- The files behind an operator. -/
def files (op : Redirect) (items : List Item) : List CStr :=
  items.filterMap fun
    | .word _ => none
    | .redirect op' file => if op' = op then some file.str else none

/-- The files that output is redirected to. -/
def outputs (items : List Item) : List CStr :=
  items.filterMap fun
    | .word _ => none
    | .redirect op file => if op = .input then none else some file.str

/-- What `execv` is called with, and the files that the standard streams are connected to. -/
structure Exec where
  argv : Argv
  stdin : Option CStr
  stdout : Option CStr
  deriving DecidableEq

/-- The arguments that the new program is given. -/
def Exec.args (x : Exec) : Argv := x.argv.takeWhile Option.isSome

/-- `for(i=index;i<nofargs;i++) argv[i] = NULL` -/
def truncate (argv : Argv) (index : ℕ) : Argv := argv.take index ++ List.replicate (argv.length - index) none

/-- `lessersign` up to its first `execv`; `none` where it exits or follows a NULL. -/
def lessersign (access : CStr → Bool) (argv : Argv) : Option Exec := do
  let index ← strinarr argv (lit "<") 0
  let file ← (← argv[index + 1]?)
  if access file then
    match strinarr argv (lit ">") 0, strinarr argv (lit ">>") 0 with
    | none, none => some ⟨truncate argv index, some file, none⟩
    | some grtsign, _ => do
      let out ← (← argv[grtsign + 1]?)
      return ⟨truncate argv index, some file, some out⟩
    | none, some appsign => do
      let out ← (← argv[appsign + 1]?)
      return ⟨truncate argv index, some file, some out⟩
  else none

/-- `greatersign` up to its `execv`. -/
def greatersign (argv : Argv) : Option Exec := do
  let file ← (← argv[argv.length - 1]?)
  return ⟨truncate argv (argv.length - 2), none, some file⟩

/-- `parsecommand` up to the first `execv`, for a vector without pipes and queues. -/
def execute (access : CStr → Bool) (argv : Argv) : Option Exec :=
  match parsecommand argv with
  | .lessersign => lessersign access argv
  | .greatersign => greatersign argv
  | .execv => some ⟨argv, none, none⟩
  | _ => none

/-- The words arrive in their order, and the streams are connected to the last files. -/
structure Correct (items : List Item) (x : Exec) : Prop where
  args : x.args = words (commandWords items)
  stdin : x.stdin = (files .input items).getLast?
  stdout : x.stdout = (outputs items).getLast?

/-- The file that `lessersign` opens for the output: the first behind a `>`, else the first behind a `>>`. -/
def opened (items : List Item) : Option CStr := (files .output items).head?.or (files .append items).head?

/-- Words and nothing else. -/
def OnlyWords (items : List Item) : Prop := ∃ ws : List Name, items = ws.map .word

/-- **The cases in which redirections are handled.**  With an input, all words and no output stand before the first one,
which is the last file too, and the output that is opened is the last one.  Without, there is no output, or one behind
one word at least. -/
def Handled (access : CStr → Bool) (items : List Item) : Prop :=
  match (files .input items).head? with
  | none => OnlyWords items ∨ ∃ pre op file, items = pre ++ [.redirect op file] ∧ OnlyWords pre ∧ pre ≠ []
  | some file => access file = true →
    (∃ pre name post, items = pre ++ .redirect .input name :: post ∧ OnlyWords pre ∧ commandWords post = []) ∧
    (files .input items).getLast? = some file ∧ (outputs items).getLast? = opened items

/-! ### Operators in a vector -/

section Operators

variable {items pre post l : List Item} {op : Redirect} {file name w : Name} {o : CStr}

theorem Redirect.sym_mem : ∀ op : Redirect, op.sym ∈ operators := by
  intro op
  cases op <;> decide

theorem Redirect.sym_injective : Function.Injective Redirect.sym := by
  intro a b h
  cases a <;> cases b <;> first | rfl | exact absurd h (by decide)

@[simp] theorem tokens_append : tokens (pre ++ post) = tokens pre ++ tokens post := List.flatMap_append

@[simp] theorem tokens_cons {it : Item} : tokens (it :: l) = it.tokens ++ tokens l := List.flatMap_cons

/-- The operators of a vector are those of its redirections. -/
theorem operator_mem_tokens (ho : o ∈ operators) : o ∈ tokens items ↔ ∃ op file, .redirect op file ∈ items ∧ o = op.sym := by
  unfold tokens
  rw [List.mem_flatMap]
  constructor
  · rintro ⟨it, hit, hmem⟩
    cases it with
    | word w =>
      obtain rfl := List.mem_singleton.1 hmem
      exact absurd ho w.plain
    | redirect op file =>
      rcases List.mem_cons.1 hmem with rfl | hmem
      · exact ⟨op, file, hit, rfl⟩
      · obtain rfl := List.mem_singleton.1 hmem
        exact absurd ho file.plain
  · rintro ⟨op, file, hit, rfl⟩
    exact ⟨_, hit, List.mem_cons_self ..⟩

theorem sym_mem_tokens : op.sym ∈ tokens items ↔ ∃ file, .redirect op file ∈ items := by
  rw [operator_mem_tokens op.sym_mem]
  constructor
  · rintro ⟨op', file, hit, heq⟩
    obtain rfl := Redirect.sym_injective heq
    exact ⟨file, hit⟩
  · rintro ⟨file, hit⟩
    exact ⟨op, file, hit, rfl⟩

theorem mem_files {f : CStr} : f ∈ files op items ↔ ∃ file : Name, .redirect op file ∈ items ∧ file.str = f := by
  unfold files
  rw [List.mem_filterMap]
  constructor
  · rintro ⟨it, hit, hf⟩
    cases it with
    | word w => cases hf
    | redirect op' file =>
      dsimp only at hf
      split_ifs at hf with hop
      subst hop
      exact ⟨file, hit, Option.some.inj hf⟩
  · rintro ⟨file, hit, rfl⟩
    exact ⟨_, hit, by simp⟩

/-- No redirection of a kind: its operator is not found. -/
theorem strinarr_none (h : files op items = []) : strinarr (words (tokens items)) op.sym 0 = none := by
  apply strinarr_eq_none
  rw [List.drop_zero, some_mem_words, sym_mem_tokens]
  rintro ⟨file, hit⟩
  have : file.str ∈ files op items := mem_files.2 ⟨file, hit, rfl⟩
  simp [h] at this

/-- The first redirection of a kind. -/
structure First (op : Redirect) (items pre : List Item) (name : Name) (post : List Item) : Prop where
  eq : items = pre ++ .redirect op name :: post
  none : files op pre = []

theorem exists_first (h : files op items ≠ []) : ∃ pre name post, First op items pre name post := by
  induction items with
  | nil => exact absurd rfl h
  | cons it items ih =>
    by_cases hit : ∃ name, it = .redirect op name
    · obtain ⟨name, rfl⟩ := hit
      exact ⟨[], name, items, rfl, rfl⟩
    · have hcons : ∀ l, files op (it :: l) = files op l := by
        intro l
        cases it with
        | word w => rfl
        | redirect op' file =>
          have hne : op' ≠ op := fun heq => hit ⟨file, by rw [heq]⟩
          simp [files, hne]
      rw [hcons] at h
      obtain ⟨pre, name, post, rfl, hnone⟩ := ih h
      exact ⟨it :: pre, name, post, rfl, by rw [hcons, hnone]⟩

theorem files_append : files op (pre ++ post) = files op pre ++ files op post := List.filterMap_append

theorem First.head (h : First op items pre name post) : (files op items).head? = some name.str := by
  rw [h.eq, files_append, h.none]
  simp [files]

theorem First.tokens (h : First op items pre name post) :
    words (Shell.tokens items) = words (Shell.tokens pre) ++ some op.sym :: some name.str :: words (Shell.tokens post) := by
  rw [h.eq]
  simp [words, Item.tokens]

/-- The index of the first redirection of a kind, and the file behind it. -/
theorem First.strinarr (h : First op items pre name post) :
    Shell.strinarr (words (Shell.tokens items)) op.sym 0 = some (Shell.tokens pre).length ∧
    (words (Shell.tokens items))[(Shell.tokens pre).length + 1]? = some (some name.str) := by
  have hnot : some op.sym ∉ words (Shell.tokens pre) := by
    rw [some_mem_words, sym_mem_tokens]
    rintro ⟨file, hit⟩
    have : file.str ∈ files op pre := mem_files.2 ⟨file, hit, rfl⟩
    simp [h.none] at this
  constructor
  · have hdrop : (words (Shell.tokens items)).drop 0 = _ := h.tokens
    simpa using strinarr_eq hdrop hnot
  · rw [h.tokens, ← length_words, List.getElem?_append_right (by omega)]
    simp

end Operators

/-! ### What is executed -/

section Execute

variable {access : CStr → Bool} {items pre post : List Item} {op : Redirect} {file name : Name}

theorem args_truncate (t : List CStr) (r : Argv) (stdin stdout : Option CStr) :
    (Exec.mk (truncate (words t ++ r) t.length) stdin stdout).args = words t := by
  have htake : (words t ++ r).take t.length = words t := by
    rw [← length_words, List.take_left]
  show List.takeWhile Option.isSome (truncate (words t ++ r) t.length) = words t
  rw [truncate, htake, List.takeWhile_append_of_pos (by simp [words])]
  cases (words t ++ r).length - t.length with
  | zero => simp
  | succ n => simp [List.replicate_succ]

theorem args_words (t : List CStr) (stdin stdout : Option CStr) : (Exec.mk (words t) stdin stdout).args = words t :=
  List.takeWhile_eq_self_iff.2 (by simp [words])

/-- **With an input**, what stands before the first one is executed. -/
theorem lessersign_eq (h : First .input items pre name post) : lessersign access (words (tokens items)) =
    if access name.str then some ⟨truncate (words (tokens items)) (tokens pre).length, some name.str, opened items⟩
    else none := by
  obtain ⟨hindex, hfile⟩ := h.strinarr
  change strinarr _ (lit "<") 0 = _ at hindex
  unfold lessersign opened
  rw [hindex]
  simp only [Option.bind_eq_bind, Option.bind_some, hfile]
  congr 1
  by_cases hout : files .output items = []
  · have hnone : strinarr (words (tokens items)) (lit ">") 0 = none := strinarr_none hout
    rw [hnone, hout]
    by_cases happ : files .append items = []
    · have hnone' : strinarr (words (tokens items)) (lit ">>") 0 = none := strinarr_none happ
      rw [hnone', happ]
      rfl
    · obtain ⟨pre', name', post', hfirst⟩ := exists_first happ
      obtain ⟨hindex', hfile'⟩ := hfirst.strinarr
      change strinarr _ (lit ">>") 0 = _ at hindex'
      rw [hindex', hfirst.head]
      simp [hfile']
  · obtain ⟨pre', name', post', hfirst⟩ := exists_first hout
    obtain ⟨hindex', hfile'⟩ := hfirst.strinarr
    change strinarr _ (lit ">") 0 = _ at hindex'
    rw [hindex', hfirst.head]
    simp [hfile']

/-- What `parsecommand` tests: an operator of the output stands before the last token. -/
def SecondLast (t : List CStr) : Prop := 2 < t.length ∧ (t[t.length - 2]? = some (lit ">") ∨ t[t.length - 2]? = some (lit ">>"))

instance : DecidablePred SecondLast := fun _ => inferInstanceAs (Decidable (_ ∧ _))

/-- The choice of `parsecommand` for a vector without pipes and queues. -/
theorem parsecommand_eq : parsecommand (words (tokens items)) =
    if files .input items = [] then if SecondLast (tokens items) then .greatersign else .execv else .lessersign := by
  have hnone : ∀ o ∈ [bar, lit "#", lit "##", lit "S"], strinarr (words (tokens items)) o 0 = none := by
    intro o ho
    apply strinarr_eq_none
    rw [List.drop_zero, some_mem_words]
    intro hmem
    have hall : ∀ o ∈ [bar, lit "#", lit "##", lit "S"], o ∈ operators := by decide
    have hop := hall o ho
    obtain ⟨op, file, -, rfl⟩ := (operator_mem_tokens hop).1 hmem
    cases op <;> exact absurd ho (by decide)
  have hget : ∀ (i : ℕ) (o : CStr), (words (tokens items))[i]? = some (some o) ↔ (tokens items)[i]? = some o := by
    intro i o
    simp [words]
  unfold parsecommand
  rw [hnone bar (by simp), hnone (lit "#") (by simp), hnone (lit "##") (by simp), hnone (lit "S") (by simp)]
  simp only [Option.isSome_none, Bool.false_eq_true, if_false, length_words, hget]
  by_cases hin : files .input items = []
  · have hno : strinarr (words (tokens items)) (lit "<") 0 = none := strinarr_none hin
    simp only [hno, hin, Option.isSome_none, Bool.false_eq_true, if_false, if_true]
    exact if_congr Iff.rfl rfl rfl
  · obtain ⟨pre, name, post, hfirst⟩ := exists_first hin
    have hsome : strinarr (words (tokens items)) (lit "<") 0 = _ := hfirst.strinarr.1
    simp [hsome, hin]

/-- The last token is not an operator. -/
theorem last_not_operator : ∀ t ∈ (tokens items).getLast?, t ∉ operators := by
  intro t ht
  rcases List.eq_nil_or_concat items with rfl | ⟨pre, it, rfl⟩
  · cases ht
  · cases it with
    | word w =>
      obtain rfl : w.str = t := by simpa [tokens, Item.tokens] using ht
      exact w.plain
    | redirect op file =>
      obtain rfl : file.str = t := by simpa [tokens, Item.tokens] using ht
      exact file.plain

/-- A redirection of the output that is the last of several items. -/
def EndsInOutput (items : List Item) : Prop := ∃ pre op file, items = pre ++ [.redirect op file] ∧ pre ≠ []

theorem tokens_ne_nil (h : items ≠ []) : 0 < (tokens items).length := by
  obtain ⟨it, items, rfl⟩ := List.exists_cons_of_ne_nil h
  cases it <;> simp [Item.tokens]

/-- A word at the end stands behind no operator. -/
theorem not_secondLast_word (w : Name) : ¬ SecondLast (tokens (pre ++ [.word w])) := by
  have hops : lit ">" ∈ operators ∧ lit ">>" ∈ operators := by decide
  have htok : tokens (pre ++ [.word w]) = tokens pre ++ [w.str] := by simp [tokens, Item.tokens]
  rintro ⟨hlt, hop⟩
  rw [htok, List.length_append, List.length_singleton] at hlt hop
  have hlast : (tokens pre ++ [w.str])[(tokens pre).length + 1 - 2]? = (tokens pre).getLast? := by
    rw [List.getElem?_append_left (by omega), List.getLast?_eq_getElem?]
    rfl
  rw [hlast] at hop
  rcases hop with hop | hop
  · exact last_not_operator _ hop hops.1
  · exact last_not_operator _ hop hops.2

/-- A redirection of the output at the end does, unless it stands alone. -/
theorem secondLast_redirect (hop : op.sym = lit ">" ∨ op.sym = lit ">>") :
    SecondLast (tokens (pre ++ [.redirect op file])) ↔ pre ≠ [] := by
  have htok : tokens (pre ++ [.redirect op file]) = tokens pre ++ [op.sym, file.str] := by simp [tokens, Item.tokens]
  have hget : (tokens pre ++ [op.sym, file.str])[(tokens pre).length]? = some op.sym := by simp
  rw [SecondLast, htok, List.length_append,
    show (tokens pre).length + [op.sym, file.str].length - 2 = (tokens pre).length from rfl, hget]
  constructor
  · rintro ⟨hlt, -⟩ rfl
    simp [tokens] at hlt
  · intro hne
    have := tokens_ne_nil hne
    refine ⟨by simp; omega, by simpa using hop⟩

/-- What the test for an output at the end tells. -/
theorem secondLast_iff (hin : files .input items = []) : SecondLast (tokens items) ↔ EndsInOutput items := by
  rcases List.eq_nil_or_concat items with rfl | ⟨pre, it, rfl⟩
  · simp [SecondLast, tokens, EndsInOutput]
  · rw [List.concat_eq_append] at hin ⊢
    cases it with
    | word w =>
      refine iff_of_false (not_secondLast_word w) ?_
      rintro ⟨pre', op, file, heq, -⟩
      have := List.append_inj_right' heq rfl
      simp at this
    | redirect op file =>
      have hop : op.sym = lit ">" ∨ op.sym = lit ">>" := by
        cases op with
        | input => simp [files] at hin
        | output => exact Or.inl rfl
        | append => exact Or.inr rfl
      rw [secondLast_redirect hop]
      constructor
      · intro hne
        exact ⟨pre, op, file, rfl, hne⟩
      · rintro ⟨pre', op', file', heq, hne⟩
        obtain rfl := List.append_inj_left' heq rfl
        exact hne

/-- What is executed. -/
theorem execute_eq_lessersign (h : First .input items pre name post) :
    execute access (words (tokens items)) = lessersign access (words (tokens items)) := by
  have hne : files .input items ≠ [] := by
    have := h.head
    rintro hnil
    simp [hnil] at this
  rw [execute, parsecommand_eq, if_neg hne]

theorem execute_eq_greatersign (hin : files .input (pre ++ [.redirect op file]) = []) (hne : pre ≠ []) :
    execute access (words (tokens (pre ++ [.redirect op file]))) =
      some ⟨truncate (words (tokens pre) ++ [some op.sym, some file.str]) (tokens pre).length, none, some file.str⟩ := by
  have htok : words (tokens (pre ++ [.redirect op file])) = words (tokens pre) ++ [some op.sym, some file.str] := by
    simp [tokens, Item.tokens, words]
  have hends : EndsInOutput (pre ++ [.redirect op file]) := ⟨pre, op, file, rfl, hne⟩
  rw [execute, parsecommand_eq, if_pos hin, if_pos ((secondLast_iff hin).2 hends), htok]
  simp [greatersign]

theorem execute_eq_execv (hin : files .input items = []) (hends : ¬ EndsInOutput items) :
    execute access (words (tokens items)) = some ⟨words (tokens items), none, none⟩ := by
  rw [execute, parsecommand_eq, if_pos hin, if_neg fun h => hends ((secondLast_iff hin).1 h)]

/-! ### When redirections are handled -/

theorem commandWords_append : commandWords (pre ++ post) = commandWords pre ++ commandWords post := List.filterMap_append

/-- A command word is not an operator. -/
theorem commandWords_plain : ∀ t ∈ commandWords items, t ∉ operators := by
  intro t ht
  obtain ⟨it, -, hit⟩ := List.mem_filterMap.1 ht
  cases it with
  | word w =>
    obtain rfl := Option.some.inj hit
    exact w.plain
  | redirect op file => cases hit

theorem OnlyWords.tokens (h : OnlyWords items) : Shell.tokens items = commandWords items := by
  obtain ⟨ws, rfl⟩ := h
  induction ws with
  | nil => rfl
  | cons w ws ih => simpa [Item.tokens, commandWords] using ih

/-- Tokens among which no operator is are words. -/
theorem onlyWords_of_tokens (h : ∀ t ∈ tokens items, t ∉ operators) : OnlyWords items := by
  induction items with
  | nil => exact ⟨[], rfl⟩
  | cons it items ih =>
    rw [tokens_cons, List.forall_mem_append] at h
    obtain ⟨ws, rfl⟩ := ih h.2
    cases it with
    | word w => exact ⟨w :: ws, rfl⟩
    | redirect op file => exact absurd op.sym_mem (h.1 op.sym (List.mem_cons_self ..))

/-- Where the tokens before a point are all the command words, there are only words before it and none behind. -/
theorem tokens_eq_commandWords_iff :
    tokens pre = commandWords (pre ++ post) ↔ OnlyWords pre ∧ commandWords post = [] := by
  constructor
  · intro h
    have hwords : OnlyWords pre := onlyWords_of_tokens (h ▸ commandWords_plain)
    rw [commandWords_append, hwords.tokens] at h
    exact ⟨hwords, List.append_right_eq_self.1 h.symm⟩
  · rintro ⟨hwords, hpost⟩
    rw [commandWords_append, hpost, List.append_nil, hwords.tokens]

theorem words_injective : Function.Injective words := List.map_injective_iff.2 fun _ _ => Option.some.inj

theorem OnlyWords.files (h : OnlyWords items) (op : Redirect) : Shell.files op items = [] := by
  obtain ⟨ws, rfl⟩ := h
  simp [Shell.files]

theorem OnlyWords.outputs (h : OnlyWords items) : Shell.outputs items = [] := by
  obtain ⟨ws, rfl⟩ := h
  simp [Shell.outputs]

theorem not_onlyWords : ¬ OnlyWords (pre ++ [.redirect op file]) := by
  rintro ⟨ws, heq⟩
  have hmem : Item.redirect op file ∈ ws.map Item.word := heq ▸ List.mem_append_right _ (List.mem_singleton_self _)
  simp at hmem

/-- The output that `greatersign` sets up, behind words only. -/
theorem correct_greatersign_iff (hin : files .input (pre ++ [.redirect op file]) = []) :
    Correct (pre ++ [.redirect op file])
      ⟨truncate (words (tokens pre) ++ [some op.sym, some file.str]) (tokens pre).length, none, some file.str⟩ ↔
    OnlyWords pre := by
  have hop : op ≠ .input := by
    rintro rfl
    simp [files] at hin
  have hout : (outputs (pre ++ [.redirect op file])).getLast? = some file.str := by
    simp [outputs, hop]
  have hiff := @tokens_eq_commandWords_iff pre [.redirect op file]
  constructor
  · intro h
    have hargs := h.args
    rw [args_truncate] at hargs
    exact (hiff.1 (words_injective hargs)).1
  · intro h
    refine ⟨?_, by rw [hin]; rfl, hout.symm⟩
    rw [args_truncate, hiff.2 ⟨h, rfl⟩]

theorem correct_execv_iff (hin : files .input items = []) :
    Correct items ⟨words (tokens items), none, none⟩ ↔ OnlyWords items := by
  have hiff := @tokens_eq_commandWords_iff items []
  rw [List.append_nil] at hiff
  constructor
  · intro h
    have hargs := h.args
    rw [args_words] at hargs
    exact (hiff.1 (words_injective hargs)).1
  · intro h
    refine ⟨?_, by rw [hin]; rfl, by rw [h.outputs]; rfl⟩
    rw [args_words, hiff.2 ⟨h, rfl⟩]

theorem correct_lessersign_iff (h : First .input items pre name post) :
    Correct items ⟨truncate (words (tokens items)) (tokens pre).length, some name.str, opened items⟩ ↔
    (OnlyWords pre ∧ commandWords post = []) ∧ (files .input items).getLast? = some name.str ∧
      (outputs items).getLast? = opened items := by
  have hargs : (Exec.mk (truncate (words (tokens items)) (tokens pre).length) (some name.str) (opened items)).args =
      words (tokens pre) := by
    rw [h.tokens, args_truncate]
  have hiff : tokens pre = commandWords items ↔ OnlyWords pre ∧ commandWords post = [] := by
    rw [h.eq, tokens_eq_commandWords_iff]
    rfl
  constructor
  · intro hc
    exact ⟨hiff.1 (words_injective (hargs.symm.trans hc.args)), hc.stdin.symm, hc.stdout.symm⟩
  · rintro ⟨hwords, hin, hout⟩
    exact ⟨hargs.trans (congrArg words (hiff.2 hwords)), hin.symm, hout.symm⟩

/-- Without an input, what is executed is right for words alone, and for words with one output behind them. -/
theorem plain_iff (access : CStr → Bool) (hin : files .input items = []) :
    (∀ x, execute access (words (tokens items)) = some x → Correct items x) ↔
      OnlyWords items ∨ ∃ pre op file, items = pre ++ [.redirect op file] ∧ OnlyWords pre ∧ pre ≠ [] := by
  by_cases hends : EndsInOutput items
  · obtain ⟨pre, op, file, rfl, hne⟩ := hends
    rw [execute_eq_greatersign hin hne]
    simp only [Option.some.injEq, forall_eq', correct_greatersign_iff hin, not_onlyWords, false_or]
    constructor
    · intro h
      exact ⟨pre, op, file, rfl, h, hne⟩
    · rintro ⟨pre', op', file', heq, h, -⟩
      rwa [List.append_inj_left' heq rfl]
  · rw [execute_eq_execv hin hends]
    simp only [Option.some.injEq, forall_eq', correct_execv_iff hin]
    constructor
    · exact Or.inl
    · rintro (h | ⟨pre, op, file, heq, -, hne⟩)
      · exact h
      · exact absurd ⟨pre, op, file, heq, hne⟩ hends

/-- With an input, what is executed is right where the first redirection of it is behind all words, and the files that
are opened are the last ones. -/
theorem input_iff (access : CStr → Bool) (hfirst : First .input items pre name post) :
    (∀ x, execute access (words (tokens items)) = some x → Correct items x) ↔ (access name.str = true →
      (∃ pre name post, items = pre ++ .redirect .input name :: post ∧ OnlyWords pre ∧ commandWords post = []) ∧
      (files .input items).getLast? = some name.str ∧ (outputs items).getLast? = opened items) := by
  rw [execute_eq_lessersign hfirst, lessersign_eq hfirst]
  constructor
  · intro h haccess
    rw [if_pos haccess] at h
    obtain ⟨hwords, hlast, hout⟩ := (correct_lessersign_iff hfirst).1 (h _ rfl)
    exact ⟨⟨pre, name, post, hfirst.eq, hwords⟩, hlast, hout⟩
  · intro h x hx
    split_ifs at hx with haccess
    obtain rfl := Option.some.inj hx
    obtain ⟨⟨pre', name', post', heq, hwords, hpost⟩, hlast, hout⟩ := h haccess
    -- only words stand before it, so that it is the first one
    have hfirst' : First .input items pre' name' post' := ⟨heq, hwords.files .input⟩
    have hname : name' = name := Name.ext (Option.some.inj (hfirst'.head.symm.trans hfirst.head))
    have hlen : (tokens pre').length = (tokens pre).length :=
      Option.some.inj (hfirst'.strinarr.1.symm.trans hfirst.strinarr.1)
    subst hname
    rw [← hlen]
    exact (correct_lessersign_iff hfirst').2 ⟨⟨hwords, hpost⟩, hlast, hout⟩

/-- **The redirections.**  What `execv` is called with is right in the cases that `Handled` lists, and in no others. -/
theorem redirection_iff (access : CStr → Bool) (items : List Item) :
    (∀ x, execute access (words (tokens items)) = some x → Correct items x) ↔ Handled access items := by
  unfold Handled
  by_cases hin : files .input items = []
  · rw [hin]
    exact plain_iff access hin
  · obtain ⟨pre, name, post, hfirst⟩ := exists_first hin
    rw [hfirst.head]
    exact input_iff access hfirst

/-- `cat > x f` passes the redirection on, and `cat < x f` loses an argument. -/
theorem redirection_leaks : ∃ cat x f : Name, cat.str = lit "cat" ∧ x.str = lit "x" ∧ f.str = lit "f" ∧
    (∃ e, execute (fun _ => true) (words (tokens [.word cat, .redirect .output x, .word f])) = some e ∧
      ¬ Correct [.word cat, .redirect .output x, .word f] e) ∧
    ∃ e, execute (fun _ => true) (words (tokens [.word cat, .redirect .input x, .word f])) = some e ∧
      ¬ Correct [.word cat, .redirect .input x, .word f] e := by
  refine ⟨⟨lit "cat", by decide⟩, ⟨lit "x", by decide⟩, ⟨lit "f", by decide⟩, rfl, rfl, rfl, ⟨_, rfl, fun h => ?_⟩,
    ⟨_, rfl, fun h => ?_⟩⟩
  · have hargs := h.args
    revert hargs
    decide
  · have hargs := h.args
    revert hargs
    decide

end Execute

end NetProg.Shell
