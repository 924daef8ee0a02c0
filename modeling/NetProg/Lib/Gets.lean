import NetProg.Lib.CString

/-!
# What `fgets` takes off its input

`gets n rest` is what a call with room for `n` bytes takes off the bytes that are left, and whether it meets their end.

* `gets_append`: nothing is lost;
* `gets_line`: a line that there is room for is taken whole, with its newline.
-/

namespace NetProg.Lib

def newline : Byte := 10

/-- What a call of `fgets` takes off the input, what it leaves, and whether it has met the end. -/
structure Got where
  piece : List Byte
  rest : List Byte
  eof : Bool

/-- At most `n` bytes, up to a newline. -/
def gets : ℕ → List Byte → Got
  | 0, rest => ⟨[], rest, false⟩
  | _ + 1, [] => ⟨[], [], true⟩
  | n + 1, b :: rest =>
    if b = newline then ⟨[b], rest, false⟩
    else let got := gets n rest; ⟨b :: got.piece, got.rest, got.eof⟩

variable {n : ℕ} {rest l : List Byte}

theorem gets_append (n : ℕ) (rest : List Byte) : (gets n rest).piece ++ (gets n rest).rest = rest := by
  induction n generalizing rest with
  | zero => rfl
  | succ n ih =>
    cases rest with
    | nil => rfl
    | cons b rest =>
      unfold gets
      split
      · rfl
      · exact congrArg (b :: ·) (ih rest)

theorem gets_piece_ne_nil (hn : 0 < n) (h : rest ≠ []) : (gets n rest).piece ≠ [] := by
  obtain ⟨n, rfl⟩ := Nat.exists_eq_add_of_lt hn
  obtain ⟨b, rest, rfl⟩ := List.exists_cons_of_ne_nil h
  rw [Nat.zero_add, gets]
  split
  · exact List.cons_ne_nil _ _
  · exact List.cons_ne_nil _ _

/-- The end is met if there is no newline and room is left. -/
theorem gets_eof_iff : (gets n rest).eof = true ↔ newline ∉ rest ∧ rest.length < n := by
  induction n generalizing rest with
  | zero => simp [gets]
  | succ n ih =>
    cases rest with
    | nil => simp [gets]
    | cons b rest =>
      unfold gets
      split
      · next hb => simp [hb]
      · next hb => simp [ih, Ne.symm hb]

theorem gets_rest_of_eof (h : (gets n rest).eof = true) : (gets n rest).rest = [] := by
  induction n generalizing rest with
  | zero => cases h
  | succ n ih =>
    cases rest with
    | nil => rfl
    | cons b rest =>
      unfold gets at h ⊢
      split at h
      · cases h
      · next hb =>
        rw [if_neg hb]
        exact ih h

/-- A line with its newline. -/
theorem gets_line (hl : newline ∉ l) (hn : l.length < n) : gets n (l ++ newline :: rest) = ⟨l ++ [newline], rest, false⟩ := by
  induction l generalizing n with
  | nil =>
    obtain ⟨n, rfl⟩ := Nat.exists_eq_add_of_lt hn
    rw [List.nil_append, gets, if_pos rfl]
    rfl
  | cons b l ih =>
    rw [List.mem_cons, not_or] at hl
    rw [List.length_cons] at hn
    obtain ⟨n, rfl⟩ := Nat.exists_eq_add_of_lt hn
    rw [List.cons_append, gets, if_neg (Ne.symm hl.1), ih hl.2 (by omega)]
    rfl

/-- A last line without one. -/
theorem gets_last (hl : newline ∉ l) (hn : l.length < n) : gets n l = ⟨l, [], true⟩ := by
  have heof : (gets n l).eof = true := gets_eof_iff.2 ⟨hl, hn⟩
  have hrest := gets_rest_of_eof heof
  have hpiece := gets_append n l
  rw [hrest, List.append_nil] at hpiece
  calc gets n l = ⟨(gets n l).piece, (gets n l).rest, (gets n l).eof⟩ := rfl
    _ = ⟨l, [], true⟩ := by rw [hpiece, hrest, heof]

end NetProg.Lib
