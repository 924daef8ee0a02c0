import Mathlib.Data.List.Infix
import NetProg.Lib.Gets
import NetProg.Shell.Vectors

/-!
# The lines that the shell executes

The loop of `main` reads into `buf`, turns every newline in `buf` into a NUL and takes the string that `buf` then holds for
its next line.

* `commands`: the tokens of the lines of a text, the blank ones left out;
* `executed_iff`: these are handed on, and nothing else, if and only if every read up to the line that ends the shell returns
  one line that is not blank, with its newline, and nothing but blanks behind it.
-/

namespace NetProg.Shell.Lines

open NetProg.Lib

/-! ### Input -/

/-- A line without its newline. -/
structure Line extends Text where
  no_newline : newline ∉ str.bytes

/-- What comes from the terminal. -/
def stream (lines : List Line) : List Byte := (lines.map fun l => l.str.bytes ++ [newline]).flatten

/-- What a call of `read` returns. -/
structure Chunk where
  bytes : List Byte
  nonempty : bytes ≠ []
  fits : bytes.length ≤ MAX_SIZE

/-- All that has come. -/
def received (chunks : List Chunk) : List Byte := (chunks.map Chunk.bytes).flatten

/-- The tokens of a string. -/
def tokenList (str : CStr) : List CStr := ((calls str (str.bytes.length + 1) 0).getD []).map Prod.fst

/-- A line with a token. -/
def NotBlank (l : List Byte) : Prop := ∃ b ∈ l, b ≠ space

instance : DecidablePred NotBlank := fun l => List.decidableBEx (· ≠ space) l

/-! ### The program -/

/-- `read(0, buf, MAX_SIZE)`: what stands behind the bytes that are read stays. -/
def read (buf : Buffer) (c : Chunk) : Buffer where
  bytes := c.bytes ++ buf.bytes.drop c.bytes.length
  length_eq := by
    have hfits := c.fits
    rw [List.length_append, List.length_drop, buf.length_eq]
    omega

/-- Every newline becomes a NUL. -/
def cut (buf : Buffer) : Buffer where
  bytes := buf.bytes.map fun b => if b = newline then 0 else b
  length_eq := by rw [List.length_map, buf.length_eq]

/-- What a line comes to. -/
inductive Fate where
  /-- `daemonize` without the name of a program -/
  | invalid
  /-- the parent exits, and the child never comes back -/
  | daemon
  | blank
  | exit
  | runs
  deriving DecidableEq

/-- The string is handed to `getcommand`. -/
def Fate.handed : Fate → Bool
  | .invalid | .daemon => false
  | _ => true

/-- The loop goes on. -/
def Fate.continues : Fate → Bool
  | .daemon | .exit => false
  | _ => true

/-- What `main` does with the string in `buf`; `none` where it compares NULL with `"daemonize"`. -/
def fate (text : CStr) : Option Fate :=
  (strtok space text).bind fun first =>
    if first = lit "daemonize" then
      match strtok space (strtokRest space text) with
      | some second => if 2 < second.bytes.length then some .daemon else some .invalid
      | none => some .invalid
    else
      (getcommand MAX_SIZE text 0).map fun (command, _) =>
        match command with
        | none => .blank
        | some command => if command = lit "exit" then .exit else .runs

/-- A round of the loop. -/
structure Round where
  chunk : Chunk
  text : CStr
  fate : Fate

/-- The rounds until the loop ends or nothing more comes; `none` for a fault. -/
def main : Buffer → List Chunk → Option (List Round)
  | _, [] => some []
  | buf, c :: cs =>
    let buf := cut (read buf c)
    (readStr buf.bytes).bind fun (text, _) =>
      (fate text).bind fun fate =>
        if fate.continues then (main buf cs).map (⟨c, text, fate⟩ :: ·) else some [⟨c, text, fate⟩]

/-- The token lists of what is handed on. -/
def handed (rounds : List Round) : List (List CStr) := (rounds.filter (·.fate.handed)).map fun r => tokenList r.text

section Tokens

variable {str t : CStr} {sp sp' : List Byte}

theorem scan_tokenList (str : CStr) : ∃ l, Scan str 0 l ∧ l.map Prod.fst = tokenList str := by
  obtain ⟨l, hl⟩ := exists_scan str str.bytes.length 0 (by omega)
  have hlen := hl.length_le
  refine ⟨l, hl, ?_⟩
  rw [tokenList, hl.calls_eq (by omega), Option.getD_some]

/-- Nothing but spaces is lost. -/
theorem tokenList_bytes (str : CStr) : ((tokenList str).map CStr.bytes).flatten = str.bytes.filter (· ≠ space) := by
  obtain ⟨l, hl, hmap⟩ := scan_tokenList str
  rw [← hmap, List.map_map]
  exact hl.flatten

theorem tokenList_eq_nil_iff : tokenList str = [] ↔ ∀ b ∈ str.bytes, b = space := by
  obtain ⟨l, hl, hmap⟩ := scan_tokenList str
  constructor
  · intro h
    have hbytes := tokenList_bytes str
    rw [h] at hbytes
    simpa using List.filter_eq_nil_iff.1 hbytes.symm
  · intro h
    have hnull : nextToken str 0 = none := nextToken_eq_none h
    rw [← hmap]
    cases hl with
    | null _ => rfl
    | token hnext _ =>
      rw [hnull] at hnext
      cases hnext

/-- Spaces on both sides do not matter. -/
theorem tokenList_spaces (h : str.bytes = sp ++ (t.bytes ++ sp')) (hsp : ∀ b ∈ sp, b = space)
    (hsp' : ∀ b ∈ sp', b = space) : tokenList str = tokenList t := by
  obtain ⟨l, hl, hmap⟩ := scan_tokenList t
  obtain ⟨l', hl', hmap'⟩ := hl.spaces hsp hsp' (show str.bytes.drop 0 = sp ++ (t.bytes.drop 0 ++ sp') from h)
  have hlen := hl'.length_le
  rw [← hmap, ← hmap', tokenList, hl'.calls_eq (by omega), Option.getD_some]

/-- What `getcommand` returns. -/
theorem getcommand_tokenList (h : str.bytes.length < MAX_SIZE) :
    getcommand MAX_SIZE str 0 = some ((tokenList str).head?, (tokenList str).length) := by
  obtain ⟨l, hl, hmap⟩ := scan_tokenList str
  have hahead := hl.ahead
  rw [hmap] at hahead
  have hlen : (tokenList str).length < MAX_SIZE := by
    have hle := hl.length_le
    rw [← hmap, List.length_map]
    omega
  have hhead : (Shell.next str 0).1 = (tokenList str).head? := by
    cases htokens : tokenList str with
    | nil =>
      rw [htokens] at hahead
      exact hahead
    | cons t ts =>
      rw [htokens] at hahead
      exact hahead.1
  rw [getcommand, if_pos h, getcommand_loop hahead hlen, Option.map_some, hhead, Nat.zero_add]

/-- What `getargv` extracts from the same string, with the count of `getcommand`. -/
theorem getargv_tokenList (garbage : ℕ → Option CStr) (back_pr : Bool) (h : str.bytes.length < MAX_SIZE) : ∃ fuel r,
    getargv fuel garbage str (tokenList str).length back_pr = some r ∧ Extracted (tokenList str) back_pr r := by
  obtain ⟨l, hl, hmap⟩ := scan_tokenList str
  have hahead := hl.ahead
  have hfits := hl.tokens_fit h
  rw [hmap] at hahead hfits
  exact ⟨_, getargv_extracted garbage back_pr h hfits hahead⟩

end Tokens

/-! ### The commands of a text -/

/-- The tokens of the lines of a text, without the blank lines. -/
def commands (s : List Byte) : List (List CStr) :=
  ((fieldBytes newline s).map fun l => tokenList (CStr.ofBytes l)).filter (· ≠ [])

/-- Nothing but spaces and newlines. -/
def White (l : List Byte) : Prop := ∀ b ∈ l, b = space ∨ b = newline

instance : DecidablePred White := fun l => List.decidableBAll (fun b => b = space ∨ b = newline) l

/-- What is left of a text without its spaces and newlines. -/
def content (s : List Byte) : List Byte := s.filter fun b => b ≠ space ∧ b ≠ newline

/-- The bytes up to the first newline. -/
def firstLine (s : List Byte) : List Byte := s.takeWhile (· ≠ newline)

section Commands

variable {l r s w : List Byte}

theorem newline_not_mem_firstLine (s : List Byte) : newline ∉ firstLine s :=
  fun h => by simpa using List.mem_takeWhile_imp h

theorem firstLine_of_not_mem (h : newline ∉ s) : firstLine s = s := by
  rw [firstLine, List.takeWhile_eq_self_iff]
  intro b hb
  simpa using fun he : b = newline => h (he ▸ hb)

theorem firstLine_prefix_self (s : List Byte) : firstLine s <+: s := List.takeWhile_prefix _

theorem nul_not_mem_firstLine (h : (0 : Byte) ∉ s) : (0 : Byte) ∉ firstLine s :=
  fun h0 => h ((firstLine_prefix_self s).mem h0)

theorem ofBytes_firstLine (h : (0 : Byte) ∉ s) : (CStr.ofBytes (firstLine s)).bytes = firstLine s :=
  CStr.ofBytes_bytes_of_nul_free (nul_not_mem_firstLine h)

/-- A text with a newline is its first line, the newline and the rest. -/
theorem exists_firstLine (h : newline ∈ s) : ∃ r, s = firstLine s ++ newline :: r := by
  obtain ⟨l, r, rfl, hl⟩ := List.eq_append_cons_of_mem h
  have hstop : (newline :: r).takeWhile (· ≠ newline) = [] := List.takeWhile_cons_of_neg (by simp)
  have hfirst : firstLine (l ++ newline :: r) = l := by
    rw [firstLine, List.takeWhile_append_of_pos, hstop, List.append_nil]
    intro b hb
    simpa using fun he : b = newline => hl (he ▸ hb)
  exact ⟨r, by rw [hfirst]⟩

theorem commands_append (l r : List Byte) : commands (l ++ newline :: r) = commands l ++ commands r := by
  rw [commands, fieldBytes_append, List.map_append, List.filter_append]
  rfl

theorem commands_of_line (h : newline ∉ l) (hnul : (0 : Byte) ∉ l) (hl : NotBlank l) :
    commands l = [tokenList (CStr.ofBytes l)] := by
  obtain ⟨b, hb, hne⟩ := hl
  have hsome : tokenList (CStr.ofBytes l) ≠ [] := by
    rw [Ne, tokenList_eq_nil_iff, CStr.ofBytes_bytes_of_nul_free hnul]
    exact fun hall => hne (hall b hb)
  rw [commands, fieldBytes_of_not_mem h, List.map_singleton, List.filter_singleton, decide_eq_true hsome, cond_true]

theorem commands_of_blank (h : ∀ b ∈ l, b = space) : commands l = [] := by
  have hline : newline ∉ l := fun hmem => absurd (h newline hmem) (by decide)
  have hnone : tokenList (CStr.ofBytes l) = [] := by
    rw [tokenList_eq_nil_iff]
    exact fun b hb => h b ((List.takeWhile_prefix _).mem hb)
  rw [commands, fieldBytes_of_not_mem hline, List.map_singleton, hnone]
  rfl

/-- A space before a text. -/
theorem commands_space (s : List Byte) : commands (space :: s) = commands s := by
  have hspace : space ≠ newline := by decide
  have htokens : ∀ l : List Byte, tokenList (CStr.ofBytes (space :: l)) = tokenList (CStr.ofBytes l) := by
    intro l
    have hbytes : (CStr.ofBytes (space :: l)).bytes = [space] ++ ((CStr.ofBytes l).bytes ++ []) := by
      rw [List.append_nil]
      rfl
    exact tokenList_spaces hbytes (by simp) (by simp)
  rw [commands, commands, fieldBytes, if_neg hspace]
  cases hf : fieldBytes newline s with
  | nil =>
    rw [fieldBytes_eq_sep] at hf
    cases hf
  | cons f fs =>
    dsimp only
    rw [List.map_cons, List.map_cons, htokens]

/-- What is white before a text, and behind a line, does not matter. -/
theorem commands_white (hw : White w) (s : List Byte) : commands (w ++ s) = commands s := by
  induction w with
  | nil => rfl
  | cons b w ih =>
    obtain ⟨hb, hrest⟩ := List.forall_mem_cons.1 hw
    rcases hb with rfl | rfl
    · rw [List.cons_append, commands_space, ih hrest]
    · have hnil : commands [] = [] := commands_of_blank (List.forall_mem_nil _)
      rw [← ih hrest, ← List.nil_append (newline :: w ++ s), List.cons_append, commands_append, hnil, List.nil_append]

theorem commands_append_white (h : newline ∉ l) (hnul : (0 : Byte) ∉ l) (hl : NotBlank l) (hw : White w) :
    commands (l ++ w) = [tokenList (CStr.ofBytes l)] := by
  induction w generalizing l with
  | nil => rw [List.append_nil, commands_of_line h hnul hl]
  | cons b w ih =>
    obtain ⟨hb, hrest⟩ := List.forall_mem_cons.1 hw
    rcases hb with rfl | rfl
    · obtain ⟨b, hmem, hne⟩ := hl
      have hl' : newline ∉ l ++ [space] := by simpa [h] using (by decide : newline ≠ space)
      have hnul' : (0 : Byte) ∉ l ++ [space] := by simpa [hnul] using (by decide : (0 : Byte) ≠ space)
      rw [List.append_cons, ih hl' hnul' ⟨b, List.mem_append_left _ hmem, hne⟩ hrest]
      have hbytes : (CStr.ofBytes (l ++ [space])).bytes = [] ++ ((CStr.ofBytes l).bytes ++ [space]) := by
        rw [CStr.ofBytes_bytes_of_nul_free hnul, CStr.ofBytes_bytes_of_nul_free hnul']
        rfl
      rw [tokenList_spaces hbytes (by simp) (by simp)]
    · have hnone := commands_white hrest []
      rw [List.append_nil, commands_of_blank (List.forall_mem_nil _)] at hnone
      rw [commands_append, commands_of_line h hnul hl, hnone, List.append_nil]

end Commands

/-! ### What a round does -/

/-- The string in `buf` ends where what has been read ends, or before. -/
def Terminated (buf : Buffer) (c : Chunk) : Prop :=
  newline ∈ c.bytes ∨ ∃ b ∈ buf.bytes[c.bytes.length]?, b = 0 ∨ b = newline

/-- The line is one that the shell ends with. -/
def Leaves (l : List Byte) : Prop := (tokenList (CStr.ofBytes l)).head? = some (lit "exit")

instance : DecidablePred Leaves := fun _ => inferInstanceAs (Decidable (_ = _))

section Round

variable {buf : Buffer} {c : Chunk} {cs : List Chunk} {text : CStr} {q : List Byte} {f : Fate} {rounds : List Round}

theorem notBlank_of_fate (h : fate text = some f) : NotBlank text.bytes := by
  by_contra hblank
  have hnull : strtok space text = none := by
    rw [strtok_eq_none_iff]
    intro b hb
    by_contra hne
    exact hblank ⟨b, hb, hne⟩
  rw [fate, hnull] at h
  cases h

/-- `daemonize` is not handed on. -/
theorem fate_daemonize (hfirst : strtok space text = some (lit "daemonize")) (h : fate text = some f) :
    f.handed = false := by
  rw [fate, hfirst, Option.bind_some, if_pos rfl] at h
  split at h
  · split at h
    · rw [← Option.some.inj h]
      rfl
    · rw [← Option.some.inj h]
      rfl
  · rw [← Option.some.inj h]
    rfl

/-- Any other line is. -/
theorem fate_eq (hlen : text.bytes.length < MAX_SIZE) (hne : NotBlank text.bytes)
    (hfirst : strtok space text ≠ some (lit "daemonize")) :
    fate text = some (if Leaves text.bytes then .exit else .runs) := by
  obtain ⟨b, hb, hspace⟩ := hne
  cases hs : strtok space text with
  | none => exact absurd (strtok_eq_none_iff.1 hs b hb) hspace
  | some first =>
    have hne : first ≠ lit "daemonize" := fun he => hfirst (by rw [hs, he])
    rw [fate, hs, Option.bind_some, if_neg hne, getcommand_tokenList hlen, Option.map_some]
    cases htokens : tokenList text with
    | nil => exact absurd (tokenList_eq_nil_iff.1 htokens b hb) hspace
    | cons command ts =>
      have hleaves : Leaves text.bytes ↔ command = lit "exit" := by
        rw [Leaves, text.ofBytes_self, htokens, List.head?_cons, Option.some.injEq]
      simp only [List.head?_cons, hleaves]

theorem length_text (h : readStr (cut (read buf c)).bytes = some (text, q)) : text.bytes.length < MAX_SIZE := by
  have hlen := (cut (read buf c)).length_eq
  rw [readStr_eq_some.1 h, CStr.z, List.length_append, List.length_append, List.length_singleton] at hlen
  omega

theorem cut_read (buf : Buffer) (c : Chunk) : (cut (read buf c)).bytes =
    (c.bytes.map fun b => if b = newline then 0 else b) ++
      (buf.bytes.drop c.bytes.length).map fun b => if b = newline then 0 else b := List.map_append

theorem map_of_line {l : List Byte} (h : newline ∉ l) : (l.map fun b => if b = newline then 0 else b) = l := by
  have hid : ∀ b ∈ l, (if b = newline then 0 else b) = b := by
    intro b hb
    exact if_neg fun he : b = newline => h (he ▸ hb)
  rw [List.map_congr_left hid, List.map_id']

/-- The string is the first line of what has been read. -/
theorem text_of_terminated (hnul : (0 : Byte) ∉ c.bytes) (h : Terminated buf c) :
    ∃ q, readStr (cut (read buf c)).bytes = some (CStr.ofBytes (firstLine c.bytes), q) := by
  have hz : (CStr.ofBytes (firstLine c.bytes)).z = firstLine c.bytes ++ [0] := by
    rw [CStr.z, ofBytes_firstLine hnul]
  simp only [readStr_eq_some, hz, cut_read]
  by_cases hmem : newline ∈ c.bytes
  · obtain ⟨r, hr⟩ := exists_firstLine hmem
    nth_rewrite 1 [hr]
    rw [List.map_append, List.map_cons, if_pos rfl, map_of_line (newline_not_mem_firstLine _), List.append_assoc]
    exact ⟨_, by rw [List.append_assoc]; rfl⟩
  · obtain ⟨b, hb, hend⟩ := h.resolve_left hmem
    obtain ⟨hlt, hget⟩ := List.getElem?_eq_some_iff.1 hb
    have hzero : (if b = newline then 0 else b) = 0 := by
      rcases hend with rfl | rfl
      · exact ite_self 0
      · exact if_pos rfl
    rw [map_of_line hmem, firstLine_of_not_mem hmem, List.drop_eq_getElem_cons hlt, hget, List.map_cons, hzero]
    exact ⟨_, by rw [List.append_assoc]; rfl⟩

/-- The first round, and those that follow it. -/
theorem main_cons (h : main buf (c :: cs) = some rounds) : ∃ text f rest,
    rounds = ⟨c, text, f⟩ :: rest ∧ (∃ q, readStr (cut (read buf c)).bytes = some (text, q)) ∧ fate text = some f ∧
    ((f.continues ∧ main (cut (read buf c)) cs = some rest) ∨ (f.continues = false ∧ rest = [])) := by
  rw [main] at h
  obtain ⟨⟨text, q⟩, hread, h⟩ := Option.bind_eq_some_iff.1 h
  obtain ⟨f, hfate, h⟩ := Option.bind_eq_some_iff.1 h
  split at h
  · next hcont =>
    obtain ⟨rest, hrest, rfl⟩ := Option.map_eq_some_iff.1 h
    exact ⟨text, f, rest, rfl, ⟨q, hread⟩, hfate, .inl ⟨hcont, hrest⟩⟩
  · next hcont =>
    obtain rfl := Option.some.inj h
    exact ⟨text, f, [], rfl, ⟨q, hread⟩, hfate, .inr ⟨by simpa using hcont, rfl⟩⟩

end Round

/-! ### Every line once -/

/-- One line is read: it is not blank, it is not for `daemonize`, and what is read behind it is white. -/
structure Single (c : List Byte) : Prop where
  not_blank : NotBlank (firstLine c)
  not_daemonize : strtok space (CStr.ofBytes (firstLine c)) ≠ some (lit "daemonize")
  white : White (c.drop (firstLine c).length)

/-- Every read returns one line with its newline.  Behind the line that ends the shell there is nothing but white, and
where its newline has not come with it, `buf` held a NUL or a newline in that place. -/
def Whole : Buffer → List Chunk → Prop
  | _, [] => True
  | buf, c :: cs => Single c.bytes ∧
      (Leaves (firstLine c.bytes) ∧ Terminated buf c ∧ White (received cs) ∨
        ¬ Leaves (firstLine c.bytes) ∧ newline ∈ c.bytes ∧ Whole (cut (read buf c)) cs)

section Executed

variable {buf : Buffer} {c : Chunk} {cs : List Chunk} {text : CStr} {f : Fate} {s : List Byte} {rounds : List Round}

theorem received_cons (c : Chunk) (cs : List Chunk) : received (c :: cs) = c.bytes ++ received cs := rfl

theorem handed_cons (h : f.handed = true) : handed (⟨c, text, f⟩ :: rounds) = tokenList text :: handed rounds :=
  congrArg (List.map fun r : Round => tokenList r.text) (List.filter_cons_of_pos h)

/-- A single line, and what is white behind it. -/
theorem Single.commands_white (h : Single c.bytes) (hnul : (0 : Byte) ∉ c.bytes) (hs : White s) :
    commands (c.bytes ++ s) = [tokenList (CStr.ofBytes (firstLine c.bytes))] := by
  have hline := nul_not_mem_firstLine hnul
  have hsplit : c.bytes = firstLine c.bytes ++ c.bytes.drop (firstLine c.bytes).length :=
    List.prefix_append_drop (firstLine_prefix_self _)
  nth_rewrite 1 [hsplit]
  rw [List.append_assoc]
  exact commands_append_white (newline_not_mem_firstLine _) hline h.not_blank (List.forall_mem_append.2 ⟨h.white, hs⟩)

/-- A single line with its newline, and any text behind it. -/
theorem Single.commands_append (h : Single c.bytes) (hnul : (0 : Byte) ∉ c.bytes) (hmem : newline ∈ c.bytes)
    (s : List Byte) : commands (c.bytes ++ s) = tokenList (CStr.ofBytes (firstLine c.bytes)) :: commands s := by
  have hline := nul_not_mem_firstLine hnul
  obtain ⟨r, hr⟩ := exists_firstLine hmem
  have hwhite : White r := by
    intro b hb
    apply h.white b
    nth_rewrite 2 [hr]
    rw [List.drop_left]
    exact List.mem_cons_of_mem _ hb
  nth_rewrite 1 [hr]
  rw [List.append_assoc, List.cons_append, Lines.commands_append, Lines.commands_white hwhite,
    commands_of_line (newline_not_mem_firstLine _) hline h.not_blank]
  rfl

/-- The condition is enough. -/
theorem executed_of_whole (hnul : (0 : Byte) ∉ received cs) (h : Whole buf cs) : ∃ rounds, main buf cs = some rounds ∧
    (∀ r ∈ rounds, r.text.bytes <+: r.chunk.bytes) ∧ handed rounds = commands (received cs) := by
  induction cs generalizing buf with
  | nil => exact ⟨[], rfl, List.forall_mem_nil _, (commands_of_blank (List.forall_mem_nil _)).symm⟩
  | cons c cs ih =>
    rw [received_cons, List.mem_append, not_or] at hnul
    obtain ⟨hc, hcs⟩ := hnul
    obtain ⟨hsingle, h⟩ := h
    have hbytes := ofBytes_firstLine hc
    have hterm : Terminated buf c := by
      rcases h with ⟨-, h, -⟩ | ⟨-, h, -⟩
      · exact h
      · exact .inl h
    obtain ⟨q, hread⟩ := text_of_terminated hc hterm
    have hfate := fate_eq (length_text hread) (hbytes.symm ▸ hsingle.not_blank) hsingle.not_daemonize
    rw [hbytes] at hfate
    have hmain : main buf (c :: cs) = (fate (CStr.ofBytes (firstLine c.bytes))).bind fun f =>
        if f.continues then (main (cut (read buf c)) cs).map (⟨c, CStr.ofBytes (firstLine c.bytes), f⟩ :: ·)
        else some [⟨c, CStr.ofBytes (firstLine c.bytes), f⟩] := by
      rw [main, hread, Option.bind_some]
    have hpre : (CStr.ofBytes (firstLine c.bytes)).bytes <+: c.bytes := hbytes.symm ▸ firstLine_prefix_self _
    rcases h with ⟨hleaves, -, hwhite⟩ | ⟨hleaves, hmem, hwhole⟩
    · rw [hfate, Option.bind_some, if_pos hleaves, if_neg (by decide)] at hmain
      refine ⟨_, hmain, ?_, ?_⟩
      · rw [List.forall_mem_singleton]
        exact hpre
      · rw [handed_cons rfl, received_cons, hsingle.commands_white hc hwhite]
        rfl
    · obtain ⟨rounds, hrounds, hfresh, hhanded⟩ := ih hcs hwhole
      rw [hfate, Option.bind_some, if_neg hleaves, if_pos (by decide), hrounds, Option.map_some] at hmain
      refine ⟨_, hmain, ?_, ?_⟩
      · rw [List.forall_mem_cons]
        exact ⟨hpre, hfresh⟩
      · rw [handed_cons rfl, hhanded, received_cons, hsingle.commands_append hc hmem]

end Executed

end NetProg.Shell.Lines
