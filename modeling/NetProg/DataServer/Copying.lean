import NetProg.DataServer.Names

/-!
# Free names, and the copy of a chunk

* `free_names`: what the two searches for a free name answer with;
* `copyLoop`: the loop of `copyfile` over the bytes of a chunk, with the conversions of `fgetc` and `fputc`;
* `copy_exact_iff`: when a chunk is copied as it is.
-/

namespace NetProg.DataServer

open NetProg.Lib NetProg.Receive

/-! ### Free names -/

/-- The least number that gives a free name gives `p`. -/
def LeastFree (s : Store) (dir p : CStr) : Prop :=
  ∃ n, p = numbered dir n ∧ ¬ s.Exists (numbered dir n) ∧ ∀ m < n, s.Exists (numbered dir m)

theorem leastFree_firstFree (s : Store) (dir : CStr) : LeastFree s dir (firstFree s dir) := firstFree_eq s dir

section FreeNames

variable {s : Store} {name chunks : CStr}

/-- A search that is answered, whether the source exists or not. -/
theorem copy_answer (s : Store) (name : CStr) : ((dispatch s (lit "cp")).run [name, lit "0"]).1 = (firstFree s name).z ∧
    ∃ s', ((dispatch s (lit "cp")).run [name, lit "0"]).2.1 = .ret s' ∨
      ((dispatch s (lit "cp")).run [name, lit "0"]).2.1 = .halt .exit s' := by
  cases h : s.get (name.cat (lit "0")) with
  | some b =>
    rw [copy_run_first h]
    exact ⟨rfl, _, Or.inl rfl⟩
  | none =>
    have h1 : lit "cp" ≠ lit "tobigfs" := by decide
    have h2 : lit "cp" ≠ lit "cat" := by decide
    have h3 : lit "cp" ≠ lit "rm" := by decide
    have hrun : (dispatch s (lit "cp")).run [name, lit "0"] = ((firstFree s name).z, .halt .exit s, []) := by
      simp [dispatch, h1, h2, h3, copyfile, freeName_eq_ok, reply, copyTo, h]
    rw [hrun]
    exact ⟨rfl, s, Or.inr rfl⟩

/-- **The search for a free name** ends for any files and any name.  `tobigfs` keeps a path that is free, and else it, and
always `copyfile`, take the least number that gives a free path; the source of a copy may be missing. -/
theorem free_names (s : Store) (name : CStr) :
    (∀ temp_buf num, ∃ dir s', (dispatch s (lit "tobigfs")).run [temp_buf, name, lit "0", num] = (dir.z, .ret s', []) ∧
      ¬ s.Exists dir ∧ (dir = location name ↔ ¬ s.Exists (location name)) ∧
      (s.Exists (location name) → LeastFree s (location name) dir)) ∧
    ∃ str, ((dispatch s (lit "cp")).run [name, lit "0"]).1 = str.z ∧ ¬ s.Exists str ∧ LeastFree s name str ∧
      ∃ s', ((dispatch s (lit "cp")).run [name, lit "0"]).2.1 = .ret s' ∨
        ((dispatch s (lit "cp")).run [name, lit "0"]).2.1 = .halt .exit s' := by
  refine ⟨fun temp_buf num => ⟨pick s (location name), _, store_run, not_exists_pick, pick_eq_self_iff, fun h => ?_⟩, ?_⟩
  · rw [pick, if_pos h]
    exact leastFree_firstFree s _
  · obtain ⟨hout, hend⟩ := copy_answer s name
    exact ⟨firstFree s name, hout, not_exists_firstFree, leastFree_firstFree s name, hend⟩

end FreeNames

/-! ### The loop over the bytes -/

/-- `EOF` -/
def eof : ℤ := -1

/-- `fgetc`: the next byte as an `unsigned char`, or `EOF`. -/
def fgetc : List Byte → ℤ × List Byte
  | [] => (eof, [])
  | b :: rest => (b.toNat, rest)

/-- The conversion of an `int` to a `char` that is signed and has eight bits. -/
def toChar (i : ℤ) : ℤ := i.bmod 256

/-- `fputc`, which writes the character as an `unsigned char`. -/
def fputc (ch : ℤ) (target : List Byte) : List Byte := target ++ [(ch % 256).toNat.toUInt8]

/-- `while((ch = fgetc(source1)) != EOF) fputc(ch, target);` -/
def copyLoop : ℕ → List Byte → List Byte → Option (List Byte)
  | 0, _, _ => none
  | fuel + 1, source, target =>
    let ch := toChar (fgetc source).1
    if ch = eof then some target else copyLoop fuel (fgetc source).2 (fputc ch target)

section CopyLoop

variable {b : Byte} {content source target : List Byte} {fuel : ℕ}

theorem toChar_eof : toChar eof = eof := by decide

/-- One byte is read as `EOF`. -/
theorem toChar_eq_eof_iff : toChar (b.toNat : ℤ) = eof ↔ b = 255 := by
  have hlt := b.toNat_lt
  have h255 : b = 255 ↔ b.toNat = 255 := by
    rw [← UInt8.toNat_inj]
    rfl
  unfold toChar eof
  rw [h255, Int.bmod_def]
  split_ifs <;> omega

/-- What is written for a byte is the byte. -/
theorem fputc_toChar : fputc (toChar (b.toNat : ℤ)) target = target ++ [b] := by
  have hlt := b.toNat_lt
  have hmod : toChar (b.toNat : ℤ) % 256 = b.toNat := by
    unfold toChar
    rw [Int.bmod_def]
    split_ifs <;> omega
  rw [fputc, hmod]
  simp

/-- **The loop** stops at the first byte 255. -/
theorem copyLoop_eq (h : source.length < fuel) : copyLoop fuel source target = some (target ++ copyBytes source) := by
  induction fuel generalizing source target with
  | zero => omega
  | succ fuel ih =>
    cases source with
    | nil => simp [copyLoop, fgetc, toChar_eof, copyBytes]
    | cons b source =>
      change (if toChar (b.toNat : ℤ) = eof then some target
        else copyLoop fuel source (fputc (toChar b.toNat) target)) = _
      by_cases hb : b = 255
      · rw [if_pos (toChar_eq_eof_iff.2 hb)]
        simp [copyBytes, hb]
      · rw [if_neg fun he => hb (toChar_eq_eof_iff.1 he), fputc_toChar, ih (by simpa using h)]
        simp [copyBytes, hb]

theorem copyBytes_eq_self_iff : copyBytes content = content ↔ (255 : Byte) ∉ content := by
  rw [copyBytes, List.takeWhile_eq_self_iff]
  constructor
  · intro h hmem
    simpa using h 255 hmem
  · intro h b hb
    simpa using fun he : b = 255 => h (he ▸ hb)

end CopyLoop

/-! ### The copy of a chunk -/

section CopyChunk

variable {s : Store} {name : CStr} {content : List Byte} {i j : ℕ}

/-- The strings behind `cp` for the chunk `i` of `name`: the name of the copy is sent along with every chunk but the
first, for which the data server makes it up. -/
def copyRequest (name : CStr) (i j : ℕ) : List CStr :=
  if i = 0 then [name, decimal i] else [name, decimal i, numbered name j]

/-- The name of the copy. -/
def copyName (s : Store) (name : CStr) (i j : ℕ) : CStr := if i = 0 then firstFree s name else numbered name j

theorem exists_copyName (s : Store) (name : CStr) (i j : ℕ) : ∃ n, copyName s name i j = numbered name n := by
  unfold copyName
  split
  · obtain ⟨n, hn, -⟩ := firstFree_eq s name
    exact ⟨n, hn⟩
  · exact ⟨j, rfl⟩

theorem lit_zero : lit "0" = decimal (0 : ℕ) := by decide

theorem copyRequest_run (h : s.get (name.cat (decimal i)) = some content) :
    ∃ out, (dispatch s (lit "cp")).run (copyRequest name i j) =
      (out, .ret (copied s (name.cat (decimal i)) (copyName s name i j) (decimal i)), []) := by
  by_cases hi : i = 0
  · subst hi
    rw [copyRequest, copyName, if_pos rfl, if_pos rfl]
    exact ⟨_, copy_run_first h⟩
  · have hne : decimal i ≠ lit "0" := by
      rw [lit_zero]
      intro heq
      exact hi (decBytes_injective (congrArg CStr.bytes heq))
    rw [copyRequest, copyName, if_neg hi, if_neg hi]
    exact ⟨_, copy_run hne h⟩

/-- The source is none of the files that are opened for writing. -/
theorem get_copied {n : ℕ} (h : s.get (name.cat (decimal i)) = some content) :
    (copied s (name.cat (decimal i)) (numbered name n) (decimal i)).get ((numbered name n).cat (decimal i)) =
      some (copyBytes content) := by
  have h1 : name.cat (decimal i) ≠ (numbered name n).cat (decimal i) := (numbered_cat_ne name _ n i).symm
  have h2 : name.cat (decimal i) ≠ numbered name n := (numbered_ne_chunk name name n i).symm
  rw [copied, Store.get_put_self, Store.get_put_of_ne h1, Store.get_put_of_ne h2, h]
  rfl

/-- **A chunk is copied as it is** if and only if no byte of it is 255.  The copy is what the loop writes; a byte 255
ends the loop. -/
theorem copy_exact_iff (h : s.get (name.cat (decimal i)) = some content) : ∃ out s',
    (dispatch s (lit "cp")).run (copyRequest name i j) = (out, .ret s', []) ∧
    s'.get ((copyName s name i j).cat (decimal i)) = copyLoop (content.length + 1) content [] ∧
    (s'.get ((copyName s name i j).cat (decimal i)) = some content ↔ (255 : Byte) ∉ content) := by
  obtain ⟨out, hrun⟩ := copyRequest_run (j := j) h
  obtain ⟨n, hn⟩ := exists_copyName s name i j
  have hget := get_copied (n := n) h
  rw [← hn] at hget
  refine ⟨out, _, hrun, ?_, ?_⟩
  · rw [hget, copyLoop_eq (Nat.lt_succ_self _)]
    rfl
  · rw [hget, Option.some.injEq, copyBytes_eq_self_iff]

/-- A chunk of one byte is copied. -/
theorem copy_exact_iff_byte : ∃ out s',
    (dispatch [(lit "data/f0", [97])] (lit "cp")).run (copyRequest (lit "data/f") 0 0) = (out, .ret s', []) ∧
    s'.get ((copyName [(lit "data/f0", [97])] (lit "data/f") 0 0).cat (decimal (0 : ℕ))) = copyLoop 2 [97] [] ∧
    (s'.get ((copyName [(lit "data/f0", [97])] (lit "data/f") 0 0).cat (decimal (0 : ℕ))) = some [97] ↔
      (255 : Byte) ∉ [97]) :=
  copy_exact_iff (by decide)

/-- The bytes `a`, 255, `b`: only the first one is copied. -/
theorem copy_truncates : copyLoop 4 [97, 255, 98] [] = some [97] ∧
    ∃ out s', (dispatch [(lit "data/f0", [97, 255, 98])] (lit "cp")).run (copyRequest (lit "data/f") 0 0) =
      (out, .ret s', []) ∧ s'.get (lit "data/f(0)0") = some [97] := by
  have hget : Store.get [(lit "data/f0", [97, 255, 98])] ((lit "data/f").cat (decimal (0 : ℕ))) = some [97, 255, 98] := by
    decide
  obtain ⟨out, hrun⟩ := copyRequest_run (j := 0) hget
  exact ⟨by decide, out, _, hrun, by decide⟩

end CopyChunk

end NetProg.DataServer
