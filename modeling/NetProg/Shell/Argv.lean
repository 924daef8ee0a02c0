import NetProg.Lib.CString

/-!
# The argument vectors of the shell

The vectors that the shell cuts a line into and looks for operators in: `strinarr` and `subarray`, the choice that
`parsecommand` makes, and `piped`, the vector of a pipeline.  An entry can be NULL; the NULL behind the last entry is not
part of a vector, so that its length is `nofargs`.
-/

namespace NetProg.Shell

open NetProg.Lib

/-- The entries of a vector of arguments. -/
abbrev Argv := List (Option CStr)

def bar : CStr := lit "|"

/-- What `parsecommand` looks for. -/
def operators : List CStr := [bar, lit "<", lit "#", lit "##", lit "S", lit ">", lit ">>"]

/-- The index from `start_index` on at which `sym` stands. -/
def strinarr (argv : Argv) (sym : CStr) (start_index : ℕ) : Option ℕ :=
  ((argv.drop start_index).idxOf? (some sym)).map (· + start_index)

/-- `subarray(argv, start, index-1)`. -/
def subarray (argv : Argv) (start index : ℕ) : Argv := (argv.drop start).take (index - start)

/-- The functions that `parsecommand` calls. -/
inductive Call where
  | pipecommand
  | lessersign
  | messageQueuePipe
  | doubleMessageQueue
  | shmPipe
  | greatersign
  | execv
  deriving DecidableEq

/-- The call that `parsecommand` makes first.  It makes a further one only where this one returns. -/
def parsecommand (argv : Argv) : Call :=
  if (strinarr argv bar 0).isSome then .pipecommand
  else if (strinarr argv (lit "<") 0).isSome then .lessersign
  else if (strinarr argv (lit "#") 0).isSome then .messageQueuePipe
  else if (strinarr argv (lit "##") 0).isSome then .doubleMessageQueue
  else if (strinarr argv (lit "S") 0).isSome then .shmPipe
  else if 2 < argv.length ∧
      (argv[argv.length - 2]? = some (some (lit ">")) ∨ argv[argv.length - 2]? = some (some (lit ">>"))) then .greatersign
  else .execv

/-! ### Segments -/

/-- The vector of a segment. -/
def words (seg : List CStr) : Argv := seg.map some

/-- The vector of a pipeline. -/
def piped (segs : List (List CStr)) : Argv := [some bar].intercalate (segs.map words)

/-- A command and its arguments, none of them an operator. -/
structure Plain (seg : List CStr) : Prop where
  nonempty : seg ≠ []
  free : ∀ w ∈ seg, w ∉ operators

instance (seg : List CStr) : Decidable (Plain seg) :=
  decidable_of_iff (seg ≠ [] ∧ ∀ w ∈ seg, w ∉ operators) ⟨fun h => ⟨h.1, h.2⟩, fun h => ⟨h.nonempty, h.free⟩⟩

section Segments

variable {argv : Argv} {sym : CStr} {seg seg' : List CStr} {segs : List (List CStr)} {start : ℕ}

@[simp] theorem some_mem_words {w : CStr} : some w ∈ words seg ↔ w ∈ seg := by simp [words]

@[simp] theorem length_words : (words seg).length = seg.length := List.length_map _

theorem strinarr_eq_none (h : some sym ∉ argv.drop start) : strinarr argv sym start = none := by
  rw [strinarr, List.idxOf?_eq_none_iff.2 h, Option.map_none]

/-- The symbol is found behind what does not hold it. -/
theorem strinarr_eq {l r : Argv} (h : argv.drop start = l ++ some sym :: r) (hl : some sym ∉ l) :
    strinarr argv sym start = some (start + l.length) := by
  have hidx : (l ++ some sym :: r).idxOf? (some sym) = some l.length := by
    have hnone : l.findIdx? (· == some sym) = none := List.idxOf?_eq_none_iff.2 hl
    rw [List.idxOf?, List.findIdx?_append, hnone, List.findIdx?_cons]
    simp
  rw [strinarr, h, hidx, Option.map_some, Nat.add_comm]

theorem piped_singleton : piped [seg] = words seg := by simp [piped]

theorem piped_cons_cons : piped (seg :: seg' :: segs) = words seg ++ some bar :: piped (seg' :: segs) := by
  simp [piped, List.intercalate_cons_cons]

/-- A vector has a bar less than it has segments. -/
theorem count_piped (h : ∀ seg ∈ segs, Plain seg) : (piped segs).count (some bar) = segs.length - 1 := by
  have hzero : ∀ seg ∈ segs, (words seg).count (some bar) = 0 := by
    intro seg hseg
    apply List.count_eq_zero.2
    intro hmem
    exact (h seg hseg).free bar (some_mem_words.1 hmem) (by decide)
  induction segs with
  | nil => rfl
  | cons seg segs ih =>
    cases segs with
    | nil => simp [piped_singleton, hzero seg]
    | cons seg' segs =>
      have hrest := ih (fun s hs => h s (List.mem_cons_of_mem _ hs)) fun s hs => hzero s (List.mem_cons_of_mem _ hs)
      rw [piped_cons_cons, List.count_append, hzero seg (by simp), List.count_cons_self, hrest]
      simp

theorem Plain.strinarr (h : Plain seg) (hsym : sym ∈ operators) : Shell.strinarr (words seg) sym 0 = none := by
  apply strinarr_eq_none
  intro hmem
  exact h.free sym (some_mem_words.1 hmem) hsym

/-- A segment is executed. -/
theorem parsecommand_words (h : Plain seg) : parsecommand (words seg) = .execv := by
  have hlast : ∀ i : ℕ, ∀ w ∈ operators, (words seg)[i]? ≠ some (some w) := by
    intro i w hw hi
    exact h.free w (some_mem_words.1 (List.mem_of_getElem? hi)) hw
  have hnone : ∀ w ∈ operators, (Shell.strinarr (words seg) w 0).isSome = false := by
    intro w hw
    rw [h.strinarr hw]
    rfl
  unfold parsecommand
  rw [hnone bar (by decide), hnone (lit "<") (by decide), hnone (lit "#") (by decide), hnone (lit "##") (by decide),
    hnone (lit "S") (by decide)]
  simp only [Bool.false_eq_true, if_false]
  apply if_neg
  rintro ⟨-, hgt | hgt⟩
  · exact hlast _ _ (by decide) hgt
  · exact hlast _ _ (by decide) hgt

end Segments

end NetProg.Shell
