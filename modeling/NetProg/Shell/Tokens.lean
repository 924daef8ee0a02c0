import Mathlib.Data.Bool.AllAny
import NetProg.Shell.Relay

/-!
# The tokens of a command line

`nextToken` reads one token behind a position, and `calls` is the loop of its callers.

* `nextToken_eq_some_iff`: the token is what stands behind the spaces, the longest operator or the whole word there is;
* `Scan`: what a whole run of calls does to the line;
* `calls_joined`: tokens that are joined by single spaces are read back.
-/

namespace NetProg.Shell

open NetProg.Lib

def space : Byte := 32

/-- The bytes that operators consist of: `S`, `#`, `>`, `<`, `|`, the comma and `&`. -/
def specials : List Byte := [83, 35, 62, 60, 124, 44, 38]

/-- The operators that are tokens. -/
def symbols : List CStr := ["S", "SS", "#", "##", ">", ">>", "<", "|", "||", "|||", ",", "&"].map lit

/-- A byte of a word: neither a space nor part of an operator. -/
def WordByte (b : Byte) : Prop := b ≠ space ∧ b ∉ specials

instance : DecidablePred WordByte := fun _ => inferInstanceAs (Decidable (_ ∧ _))

/-- `str[i]`; the NUL stands behind the last byte. -/
def charAt (str : CStr) (i : ℕ) : Byte := str.bytes.getD i 0

/-- The word that starts at `str[i]`. -/
def wordAt (str : CStr) (i : ℕ) : CStr :=
  str.part ((str.bytes.drop i).takeWhile (WordByte ·)) fun _ hb =>
    List.mem_of_mem_drop ((List.takeWhile_sublist _).mem hb)

/-- The token that starts at `str[i]`, and the new `*point`. -/
def tokenAt (str : CStr) (i : ℕ) : CStr × ℕ :=
  if charAt str i ∈ specials then
    if charAt str i = 62 ∧ charAt str (i + 1) = 62 then (lit ">>", i + 2)
    else if charAt str i = 35 ∧ charAt str (i + 1) = 35 then (lit "##", i + 2)
    else if charAt str i = 83 ∧ charAt str (i + 1) = 83 then (lit "SS", i + 2)
    else if charAt str i = 124 ∧ charAt str (i + 1) = 124 then
      if charAt str (i + 2) = 124 then (lit "|||", i + 3) else (lit "||", i + 2)
    else (CStr.ofBytes [charAt str i], i + 1)
  else (wordAt str i, i + (wordAt str i).bytes.length)

/-- The next token and the new `*point`, or NULL. -/
def nextToken (str : CStr) (point : ℕ) : Option (CStr × ℕ) :=
  let i := point + ((str.bytes.drop point).takeWhile (· = space)).length
  if str.bytes.length ≤ i then none else some (tokenAt str i)

/-- The tokens that calls from `point` on return up to the NULL, each with the position behind it. -/
def calls (str : CStr) : ℕ → ℕ → Option (List (CStr × ℕ))
  | 0, _ => none
  | fuel + 1, point =>
    match nextToken str point with
    | none => some []
    | some (t, point') => (calls str fuel point').map ((t, point') :: ·)

/-- The tokens joined by single spaces. -/
def joined : List CStr → CStr
  | [] => lit ""
  | [t] => t
  | t :: ts => t.cat ((lit " ").cat (joined ts))

/-! ### Tokens at the head of a line -/

/-- A run of bytes that belong to words. -/
structure Word (t : List Byte) : Prop where
  nonempty : t ≠ []
  word : ∀ b ∈ t, WordByte b

/-- What a token can be. -/
def Token (t : CStr) : Prop := t ∈ symbols ∨ Word t.bytes

/-- `t` is the token at the head of `t.bytes ++ r`: the longest operator that stands there, or the whole word. -/
def Lexeme (t : CStr) (r : List Byte) : Prop :=
  (t ∈ symbols ∧ ∀ o ∈ symbols, o.bytes <+: t.bytes ++ r → o.bytes.length ≤ t.bytes.length) ∨
    (Word t.bytes ∧ ∀ b ∈ r.head?, ¬ WordByte b)

section Lexeme

variable {t t' : CStr} {r r' s sp sp' : List Byte}

theorem symbols_bytes : ∀ o ∈ symbols, o.bytes ≠ [] ∧ ∀ b ∈ o.bytes, b ∈ specials := by
  simp only [← List.all_iff_forall_prop]
  decide

theorem not_space_of_specials : ∀ b ∈ specials, b ≠ space := List.all_iff_forall_prop.1 (by decide)

theorem Token.ne_nil (h : Token t) : t.bytes ≠ [] := by
  rcases h with h | h
  · exact (symbols_bytes t h).1
  · exact h.nonempty

/-- No token holds a space. -/
theorem Token.ne_space (h : Token t) {b : Byte} (hb : b ∈ t.bytes) : b ≠ space := by
  rcases h with h | h
  · exact not_space_of_specials b ((symbols_bytes t h).2 b hb)
  · exact (h.word b hb).1

theorem Lexeme.token (h : Lexeme t r) : Token t := by
  rcases h with h | h
  · exact Or.inl h.1
  · exact Or.inr h.1

/-- A word is what `takeWhile` takes. -/
theorem Lexeme.takeWhile (hw : Word t.bytes) (hr : ∀ b ∈ r.head?, ¬ WordByte b) :
    (t.bytes ++ r).takeWhile (WordByte ·) = t.bytes := by
  rw [List.takeWhile_append_of_pos fun b hb => by simpa using hw.word b hb]
  cases r with
  | nil => simp
  | cons b r => simpa using hr b rfl

/-- An operator and a word do not start with the same byte. -/
theorem not_symbol_of_word (ht : t ∈ symbols) (hw : Word t'.bytes) : t.bytes ++ r ≠ t'.bytes ++ r' := by
  intro h
  obtain ⟨hne, hspecial⟩ := symbols_bytes t ht
  obtain ⟨b, l, hb⟩ := List.exists_cons_of_ne_nil hne
  obtain ⟨b', l', hb'⟩ := List.exists_cons_of_ne_nil hw.nonempty
  have hhead : b = b' := by
    rw [hb, hb'] at h
    exact (List.cons.inj h).1
  refine (hw.word b' (by simp [hb'])).2 ?_
  rw [← hhead]
  exact hspecial b (by simp [hb])

/-- **There is one token at the head of a line.** -/
theorem Lexeme.unique (h : Lexeme t r) (h' : Lexeme t' r') (heq : t.bytes ++ r = t'.bytes ++ r') : t = t' := by
  rcases h with ⟨ht, hmax⟩ | ⟨hw, hr⟩
  · rcases h' with ⟨ht', hmax'⟩ | ⟨hw', -⟩
    · have hle := hmax t' ht' (heq ▸ List.prefix_append _ _)
      have hle' := hmax' t ht (heq ▸ List.prefix_append _ _)
      exact CStr.ext (List.append_inj_left heq (by omega))
    · exact absurd heq (not_symbol_of_word ht hw')
  · rcases h' with ⟨ht', -⟩ | ⟨hw', hr'⟩
    · exact absurd heq.symm (not_symbol_of_word ht' hw)
    · apply CStr.ext
      rw [← Lexeme.takeWhile hw hr, heq, Lexeme.takeWhile hw' hr']

/-- A token before a space, or at the end, is the one that stands there. -/
theorem Token.lexeme (h : Token t) (hr : ∀ b ∈ r.head?, b = space) : Lexeme t r := by
  rcases h with h | h
  · refine Or.inl ⟨h, fun o ho hpre => ?_⟩
    by_contra hlt
    -- a longer operator would hold the byte behind `t`
    have hget : o.bytes[t.bytes.length]? = r.head? := by
      rw [List.head?_eq_getElem?]
      obtain ⟨q, hq⟩ := hpre
      have := congrArg (·[t.bytes.length]?) hq
      simp only [List.getElem?_append] at this
      simpa [show t.bytes.length < o.bytes.length by omega] using this
    have hsome : o.bytes[t.bytes.length]? = some o.bytes[t.bytes.length] := List.getElem?_eq_getElem (by omega)
    have hsp := hr _ (hget.symm.trans hsome)
    exact not_space_of_specials _ ((symbols_bytes o ho).2 _ (List.getElem_mem _)) hsp
  · refine Or.inr ⟨h, fun b hb hw => ?_⟩
    exact hw.1 (hr b hb)

/-- Spaces behind a line do not make its tokens longer. -/
theorem Lexeme.append_spaces (h : Lexeme t r) (hsp : ∀ b ∈ sp, b = space) : Lexeme t (r ++ sp) := by
  rcases h with ⟨ht, hmax⟩ | ⟨hw, hr⟩
  · refine Or.inl ⟨ht, fun o ho hpre => ?_⟩
    have htr : t.bytes ++ r <+: t.bytes ++ (r ++ sp) := ⟨sp, by rw [List.append_assoc]⟩
    rcases le_total o.bytes.length (t.bytes ++ r).length with hle | hle
    · exact hmax o ho (List.prefix_of_prefix_length_le hpre htr hle)
    · obtain ⟨q, hq⟩ := List.prefix_of_prefix_length_le htr hpre hle
      rw [← hq, ← List.append_assoc, List.prefix_append_right_inj] at hpre
      cases q with
      | nil =>
        rw [List.append_nil] at hq
        exact hmax o ho (hq ▸ List.prefix_rfl)
      | cons b q =>
        -- an operator holds no space
        refine absurd (hsp b (hpre.mem List.mem_cons_self)) (not_space_of_specials b ((symbols_bytes o ho).2 b ?_))
        rw [← hq]
        exact List.mem_append_right _ List.mem_cons_self
  · refine Or.inr ⟨hw, fun b hb => ?_⟩
    cases r with
    | nil => exact fun hword => hword.1 (hsp b (List.mem_of_mem_head? hb))
    | cons a r => exact hr b hb

end Lexeme

/-! ### One call -/

section Call

variable {str t o : CStr} {i point point' : ℕ} {l sp r : List Byte}

theorem drop_eq_cons (h : i < str.bytes.length) : str.bytes.drop i = charAt str i :: str.bytes.drop (i + 1) := by
  rw [List.drop_eq_getElem_cons h]
  simp [charAt, h]

theorem cons_prefix_drop {a : Byte} (ha : a ≠ 0) :
    a :: l <+: str.bytes.drop i ↔ charAt str i = a ∧ l <+: str.bytes.drop (i + 1) := by
  rcases Nat.lt_or_ge i str.bytes.length with h | h
  · rw [drop_eq_cons h, List.cons_prefix_cons]
    exact and_congr_left fun _ => eq_comm
  · have hnul : charAt str i = 0 := by simp [charAt, h]
    simp [List.drop_eq_nil_of_le h, hnul, Ne.symm ha]

/-- The operators that stand at a position, by their lengths. -/
theorem symbol_cases (ho : o ∈ symbols) (hpre : o.bytes <+: str.bytes.drop i) :
    o.bytes.length = 1 ∨
    (o.bytes.length = 2 ∧ (charAt str i = 62 ∧ charAt str (i + 1) = 62 ∨ charAt str i = 35 ∧ charAt str (i + 1) = 35 ∨
      charAt str i = 83 ∧ charAt str (i + 1) = 83 ∨ charAt str i = 124 ∧ charAt str (i + 1) = 124)) ∨
    (o.bytes.length = 3 ∧ charAt str i = 124 ∧ charAt str (i + 1) = 124 ∧ charAt str (i + 2) = 124) := by
  have htwo : ∀ {a : Byte}, a ≠ 0 → [a, a] <+: str.bytes.drop i → charAt str i = a ∧ charAt str (i + 1) = a := by
    intro a ha h
    obtain ⟨h1, h2⟩ := (cons_prefix_drop ha).1 h
    exact ⟨h1, ((cons_prefix_drop ha).1 h2).1⟩
  simp only [symbols, List.map_cons, List.map_nil, List.mem_cons, List.not_mem_nil, or_false] at ho
  rcases ho with rfl | rfl | rfl | rfl | rfl | rfl | rfl | rfl | rfl | rfl | rfl | rfl
  case inr.inl => exact Or.inr (Or.inl ⟨rfl, Or.inr (Or.inr (Or.inl (htwo (by decide) hpre)))⟩)
  case inr.inr.inr.inl => exact Or.inr (Or.inl ⟨rfl, Or.inr (Or.inl (htwo (by decide) hpre))⟩)
  case inr.inr.inr.inr.inr.inl => exact Or.inr (Or.inl ⟨rfl, Or.inl (htwo (by decide) hpre)⟩)
  case inr.inr.inr.inr.inr.inr.inr.inr.inl =>
    exact Or.inr (Or.inl ⟨rfl, Or.inr (Or.inr (Or.inr (htwo (by decide) hpre)))⟩)
  case inr.inr.inr.inr.inr.inr.inr.inr.inr.inl =>
    obtain ⟨h1, h2⟩ := (cons_prefix_drop (by decide)).1 hpre
    obtain ⟨h2, h3⟩ := (cons_prefix_drop (by decide)).1 h2
    exact Or.inr (Or.inr ⟨rfl, h1, h2, ((cons_prefix_drop (by decide)).1 h3).1⟩)
  all_goals exact Or.inl rfl

/-- `t` is the token at position `i`, and `point'` is the position behind it. -/
structure Starts (str : CStr) (i : ℕ) (t : CStr) (point' : ℕ) : Prop where
  text : str.bytes.drop i = t.bytes ++ str.bytes.drop point'
  point_eq : point' = i + t.bytes.length
  lexeme : Lexeme t (str.bytes.drop point')

/-- The longest operator that stands at a position is the token there. -/
theorem starts_symbol (ht : t ∈ symbols) (hpre : t.bytes <+: str.bytes.drop i)
    (hmax : ∀ o ∈ symbols, o.bytes <+: str.bytes.drop i → o.bytes.length ≤ t.bytes.length) :
    Starts str i t (i + t.bytes.length) := by
  have htext : str.bytes.drop i = t.bytes ++ str.bytes.drop (i + t.bytes.length) := by
    obtain ⟨r, hr⟩ := hpre
    rw [← List.drop_drop, ← hr, List.drop_left]
  exact ⟨htext, rfl, Or.inl ⟨ht, fun o ho h => hmax o ho (htext ▸ h)⟩⟩

theorem symbol_of_special : ∀ b ∈ specials, CStr.ofBytes [b] ∈ symbols ∧ b ≠ 0 :=
  List.all_iff_forall_prop.1 (by decide)

/-- A double operator is the token where no triple one stands. -/
theorem starts_double {a : Byte} (ht : t ∈ symbols) (hbytes : t.bytes = [a, a]) (ha : a ≠ 0)
    (hat : charAt str i = a ∧ charAt str (i + 1) = a) (hbar : a = 124 → charAt str (i + 2) ≠ 124) :
    Starts str i t (i + 2) := by
  have hlen : t.bytes.length = 2 := by rw [hbytes]; rfl
  rw [← hlen]
  refine starts_symbol ht ?_ fun o ho hpre => ?_
  · rw [hbytes]
    exact (cons_prefix_drop ha).2 ⟨hat.1, (cons_prefix_drop ha).2 ⟨hat.2, List.nil_prefix⟩⟩
  · rcases symbol_cases ho hpre with hone | ⟨htwo, -⟩ | ⟨-, h1, -, h3⟩
    · omega
    · omega
    · exact absurd h3 (hbar (hat.1.symm.trans h1))

theorem tokenAt_special (h : charAt str i ∈ specials) :
    Starts str i (tokenAt str i).1 (tokenAt str i).2 := by
  unfold tokenAt
  rw [if_pos h]
  split_ifs with hgt hhash hS hbar hbar3
  · exact starts_double (t := lit ">>") (by decide) rfl (by decide) hgt fun h => absurd h (by decide)
  · exact starts_double (t := lit "##") (by decide) rfl (by decide) hhash fun h => absurd h (by decide)
  · exact starts_double (t := lit "SS") (by decide) rfl (by decide) hS fun h => absurd h (by decide)
  · refine starts_symbol (t := lit "|||") (by decide) ?_ fun o ho hpre => ?_
    · have h3 := (cons_prefix_drop (l := []) (by decide)).2 ⟨hbar3, List.nil_prefix⟩
      exact (cons_prefix_drop (by decide)).2 ⟨hbar.1, (cons_prefix_drop (by decide)).2 ⟨hbar.2, h3⟩⟩
    · show _ ≤ 3
      rcases symbol_cases ho hpre with hlen | ⟨hlen, -⟩ | ⟨hlen, -⟩ <;> omega
  · exact starts_double (t := lit "||") (by decide) rfl (by decide) hbar fun _ => hbar3
  · obtain ⟨hsym, hne⟩ := symbol_of_special _ h
    have hbytes : (CStr.ofBytes [charAt str i]).bytes = [charAt str i] := by
      simp [CStr.ofBytes, hne]
    have hst : Starts str i (CStr.ofBytes [charAt str i]) (i + (CStr.ofBytes [charAt str i]).bytes.length) := by
      refine starts_symbol hsym ?_ fun o ho hpre => ?_
      · rw [hbytes]
        exact (cons_prefix_drop hne).2 ⟨rfl, List.nil_prefix⟩
      · rw [hbytes]
        rcases symbol_cases ho hpre with hlen | ⟨-, htwo⟩ | ⟨-, h1, h2, -⟩
        · exact hlen.le
        · tauto
        · exact absurd ⟨h1, h2⟩ hbar
    rwa [hbytes] at hst

theorem word_wordAt (h : i < str.bytes.length) (hsp : charAt str i ≠ space) (hop : charAt str i ∉ specials) :
    Word (wordAt str i).bytes := by
  have hdrop : (wordAt str i).bytes = charAt str i :: (str.bytes.drop (i + 1)).takeWhile (WordByte ·) := by
    show (str.bytes.drop i).takeWhile (WordByte ·) = _
    have hw : WordByte (charAt str i) := ⟨hsp, hop⟩
    rw [drop_eq_cons h, List.takeWhile_cons_of_pos (by simpa using hw)]
  refine ⟨by simp [hdrop], fun b hb => ?_⟩
  simpa using List.mem_takeWhile_imp hb

theorem tokenAt_word (h : i < str.bytes.length) (hsp : charAt str i ≠ space) (hop : charAt str i ∉ specials) :
    Starts str i (tokenAt str i).1 (tokenAt str i).2 := by
  unfold tokenAt
  rw [if_neg hop]
  have hsplit := (List.takeWhile_append_dropWhile (p := (WordByte ·)) (l := str.bytes.drop i)).symm
  have hrest : str.bytes.drop (i + (wordAt str i).bytes.length) = (str.bytes.drop i).dropWhile (WordByte ·) := by
    rw [← List.drop_drop]
    conv_lhs => rw [hsplit]
    exact List.drop_left
  refine ⟨?_, rfl, Or.inr ⟨word_wordAt h hsp hop, ?_⟩⟩
  · show _ = _ ++ str.bytes.drop (i + (wordAt str i).bytes.length)
    rw [hrest]
    exact hsplit
  · show ∀ b ∈ (str.bytes.drop (i + (wordAt str i).bytes.length)).head?, _
    rw [hrest]
    intro b hb
    have := List.head?_dropWhile_not (WordByte ·) (str.bytes.drop i)
    rw [Option.mem_def.1 hb] at this
    simpa using this

/-- **A token stands at every byte that is not a space.** -/
theorem tokenAt_starts (h : i < str.bytes.length) (hsp : charAt str i ≠ space) :
    Starts str i (tokenAt str i).1 (tokenAt str i).2 := by
  by_cases hop : charAt str i ∈ specials
  · exact tokenAt_special hop
  · exact tokenAt_word h hsp hop

/-- A call from `point` skips spaces and reads the token behind them. -/
structure Reads (str : CStr) (point i : ℕ) (t : CStr) (point' : ℕ) : Prop where
  le : point ≤ i
  spaces : ∀ b ∈ (str.bytes.drop point).take (i - point), b = space
  starts : Starts str i t point'

theorem nextToken_reads (h : nextToken str point = some (t, point')) : ∃ i, Reads str point i t point' := by
  unfold nextToken at h
  dsimp only at h
  set sp := (str.bytes.drop point).takeWhile (· = space) with hsp
  split_ifs at h with hlen
  obtain ⟨rfl, rfl⟩ := Prod.mk.inj (Option.some.inj h).symm
  have htake : (str.bytes.drop point).take sp.length = sp := by
    rw [hsp]
    exact (List.prefix_iff_eq_take.1 (List.takeWhile_prefix _)).symm
  have hdrop : str.bytes.drop (point + sp.length) = (str.bytes.drop point).dropWhile (· = space) := by
    have hsplit := List.takeWhile_append_dropWhile (p := (· = space)) (l := str.bytes.drop point)
    rw [← List.drop_drop]
    conv_lhs => rw [← hsplit]
    exact List.drop_left
  refine ⟨point + sp.length, Nat.le_add_right _ _, ?_, tokenAt_starts (by omega) ?_⟩
  · intro b hb
    rw [Nat.add_sub_cancel_left, htake] at hb
    simpa using List.mem_takeWhile_imp hb
  · intro hspace
    have hcons : str.bytes.drop (point + sp.length) = _ := drop_eq_cons (by omega)
    have hnot := List.head?_dropWhile_not (· = space) (str.bytes.drop point)
    rw [← hdrop, hcons] at hnot
    simp [hspace] at hnot

theorem nextToken_null (h : nextToken str point = none) : ∀ b ∈ str.bytes.drop point, b = space := by
  unfold nextToken at h
  dsimp only at h
  split_ifs at h with hlen
  have hall : (str.bytes.drop point).takeWhile (· = space) = str.bytes.drop point := by
    apply (List.takeWhile_prefix _).eq_of_length
    have hle := (List.takeWhile_prefix (· = space) (l := str.bytes.drop point)).length_le
    rw [List.length_drop] at hle ⊢
    omega
  intro b hb
  rw [← hall] at hb
  simpa using List.mem_takeWhile_imp hb

theorem Starts.le_length (h : Starts str i t point') : point' ≤ str.bytes.length := by
  have hlen := congrArg List.length h.text
  have hpos := List.length_pos_iff.2 h.lexeme.token.ne_nil
  have := h.point_eq
  simp only [List.length_drop, List.length_append] at hlen
  omega

/-- A call that returns a token moves on. -/
theorem Reads.lt (h : Reads str point i t point') : point < point' := by
  have hpos := List.length_pos_iff.2 h.starts.lexeme.token.ne_nil
  have hle := h.le
  have := h.starts.point_eq
  omega

/-- What stands behind `point`: spaces, the token, and what is left. -/
theorem Reads.text (h : Reads str point i t point') :
    str.bytes.drop point = (str.bytes.drop point).take (i - point) ++ (t.bytes ++ str.bytes.drop point') := by
  conv_lhs => rw [← List.take_append_drop (i - point) (str.bytes.drop point)]
  rw [List.drop_drop, Nat.add_sub_cancel' h.le, ← h.starts.text]

/-- Behind spaces only there is no token. -/
theorem nextToken_eq_none (h : ∀ b ∈ str.bytes.drop point, b = space) : nextToken str point = none := by
  cases hnext : nextToken str point with
  | none => rfl
  | some c =>
    obtain ⟨t, point'⟩ := c
    obtain ⟨i, hr⟩ := nextToken_reads hnext
    obtain ⟨b, l, hb⟩ := List.exists_cons_of_ne_nil hr.starts.lexeme.token.ne_nil
    refine absurd (h b ?_) (hr.starts.lexeme.token.ne_space (b := b) (by simp [hb]))
    rw [hr.text, hb]
    simp

/-- Spaces before a token, in one way only. -/
theorem spaces_unique {sp sp' l l' : List Byte} (h : sp ++ l = sp' ++ l') (hsp : ∀ b ∈ sp, b = space)
    (hsp' : ∀ b ∈ sp', b = space) (hl : ∃ b ∈ l.head?, b ≠ space) (hl' : ∃ b ∈ l'.head?, b ≠ space) : l = l' := by
  have key : ∀ {sp l : List Byte}, (∀ b ∈ sp, b = space) → (∃ b ∈ l.head?, b ≠ space) →
      (sp ++ l).dropWhile (· = space) = l := by
    intro sp l hsp hl
    obtain ⟨b, hb, hne⟩ := hl
    rw [List.dropWhile_append_of_pos (by simpa using hsp)]
    cases l with
    | nil => rfl
    | cons a l =>
      obtain rfl : a = b := by simpa using hb
      rw [List.dropWhile_cons_of_neg (by simpa using hne)]
  rw [← key hsp hl, h, key hsp' hl']

theorem Lexeme.head (h : Lexeme t r) : ∃ b ∈ (t.bytes ++ r).head?, b ≠ space := by
  obtain ⟨b, l, hb⟩ := List.exists_cons_of_ne_nil h.token.ne_nil
  exact ⟨b, by simp [hb], h.token.ne_space (by simp [hb])⟩

/-- **The token that stands behind the spaces is read.** -/
theorem nextToken_eq_some (hdrop : str.bytes.drop point = sp ++ (t.bytes ++ r)) (hsp : ∀ b ∈ sp, b = space)
    (ht : Lexeme t r) : ∃ point', nextToken str point = some (t, point') ∧ str.bytes.drop point' = r := by
  obtain ⟨b, hb, hne⟩ := ht.head
  cases h : nextToken str point with
  | none =>
    refine absurd (nextToken_null h b ?_) hne
    rw [hdrop]
    exact List.mem_append_right _ (List.mem_of_mem_head? hb)
  | some c =>
    obtain ⟨t', point'⟩ := c
    obtain ⟨i, hr⟩ := nextToken_reads h
    have hl := spaces_unique (hdrop.symm.trans hr.text) hsp hr.spaces ht.head hr.starts.lexeme.head
    obtain rfl := ht.unique hr.starts.lexeme hl
    exact ⟨point', rfl, (List.append_cancel_left hl).symm⟩

end Call

/-! ### All calls -/

/-- A run of calls up to the NULL. -/
inductive Scan (str : CStr) : ℕ → List (CStr × ℕ) → Prop
  | null {point : ℕ} (h : nextToken str point = none) : Scan str point []
  | token {point point' : ℕ} {t : CStr} {l : List (CStr × ℕ)} (h : nextToken str point = some (t, point'))
      (hl : Scan str point' l) : Scan str point ((t, point') :: l)

/-- A token that is where it should be: it is read from the line, and no byte of a word stands before a word. -/
structure Placed (str : CStr) (i : ℕ) (c : CStr × ℕ) : Prop where
  starts : Starts str i c.1 c.2
  left : Word c.1.bytes → ∀ b ∈ (str.bytes.take i).getLast?, ¬ WordByte b

section Scan

variable {str t : CStr} {i fuel point point' : ℕ} {l : List (CStr × ℕ)} {ts : List CStr} {sp sp' : List Byte}

theorem Scan.calls_eq (h : Scan str point l) (hfuel : l.length < fuel) : Shell.calls str fuel point = some l := by
  induction h generalizing fuel with
  | null h =>
    obtain ⟨fuel, rfl⟩ := Nat.exists_eq_add_of_lt hfuel
    simp [Shell.calls, h]
  | token h _ ih =>
    rw [List.length_cons] at hfuel
    obtain ⟨fuel, rfl⟩ := Nat.exists_eq_add_of_lt hfuel
    rw [Shell.calls, h]
    dsimp only
    rw [ih (by omega), Option.map_some]

theorem Scan.calls (h : Scan str point l) : ∃ fuel, Shell.calls str fuel point = some l :=
  ⟨l.length + 1, h.calls_eq (Nat.lt_succ_self _)⟩

/-- There are no more tokens than bytes. -/
theorem Scan.length_le (h : Scan str point l) : l.length ≤ str.bytes.length - point := by
  induction h with
  | null _ => exact Nat.zero_le _
  | token h _ ih =>
    obtain ⟨i, hr⟩ := nextToken_reads h
    have hlt := hr.lt
    have hle := hr.starts.le_length
    rw [List.length_cons]
    omega

theorem scan_of_calls (h : calls str fuel point = some l) : Scan str point l := by
  induction fuel generalizing point l with
  | zero => cases h
  | succ fuel ih =>
    unfold calls at h
    split at h
    · next hnull =>
      obtain rfl := Option.some.inj h
      exact .null hnull
    · next htok =>
      obtain ⟨l', hl', rfl⟩ := Option.map_eq_some_iff.1 h
      exact .token htok (ih hl')

/-- **The calls come to an end.** -/
theorem exists_scan (str : CStr) (n : ℕ) : ∀ point, str.bytes.length ≤ point + n → ∃ l, Scan str point l := by
  induction n with
  | zero =>
    intro point hle
    refine ⟨[], .null ?_⟩
    unfold nextToken
    exact if_pos (by omega)
  | succ n ih =>
    intro point hle
    cases h : nextToken str point with
    | none => exact ⟨[], .null h⟩
    | some c =>
      obtain ⟨t, point'⟩ := c
      obtain ⟨i, hr⟩ := nextToken_reads h
      have hlt := hr.lt
      obtain ⟨l, hl⟩ := ih point' (by omega)
      exact ⟨(t, point') :: l, .token h hl⟩

/-- The positions go up. -/
theorem Scan.increasing (h : Scan str point l) : List.IsChain (· < ·) (point :: l.map Prod.snd) := by
  induction h with
  | null _ => exact List.IsChain.singleton _
  | token h _ ih =>
    obtain ⟨i, hr⟩ := nextToken_reads h
    exact List.isChain_cons_cons.2 ⟨hr.lt, ih⟩

/-- The tokens are what is left of the line without its spaces. -/
theorem Scan.flatten (h : Scan str point l) :
    (l.map fun c => c.1.bytes).flatten = (str.bytes.drop point).filter (· ≠ space) := by
  induction h with
  | null h =>
    refine (List.filter_eq_nil_iff.2 fun b hb => ?_).symm
    simpa using nextToken_null h b hb
  | token h _ ih =>
    obtain ⟨i, hr⟩ := nextToken_reads h
    have hsp := List.filter_eq_nil_iff.2 fun b hb => (by simpa using hr.spaces b hb : ¬ decide (b ≠ space) = true)
    have htok := List.filter_eq_self.2 fun b hb =>
      (by simpa using hr.starts.lexeme.token.ne_space hb : decide (b ≠ space) = true)
    rw [hr.text, List.filter_append, List.filter_append, hsp, htok, List.nil_append, ← ih]
    rfl

/-- Spaces on both sides of a line do not change its tokens. -/
theorem Scan.spaces {str' : CStr} (h : Scan str point l) (hsp : ∀ b ∈ sp, b = space) (hsp' : ∀ b ∈ sp', b = space)
    (hdrop : str'.bytes.drop point' = sp ++ (str.bytes.drop point ++ sp')) :
    ∃ l', Scan str' point' l' ∧ l'.map Prod.fst = l.map Prod.fst := by
  induction h generalizing point' sp with
  | null h =>
    refine ⟨[], .null (nextToken_eq_none ?_), rfl⟩
    rw [hdrop, List.forall_mem_append, List.forall_mem_append]
    exact ⟨hsp, nextToken_null h, hsp'⟩
  | token h _ ih =>
    obtain ⟨i, hr⟩ := nextToken_reads h
    rw [hr.text, List.append_assoc, List.append_assoc, ← List.append_assoc] at hdrop
    obtain ⟨point'', hnext, hdrop'⟩ := nextToken_eq_some hdrop
      (List.forall_mem_append.2 ⟨hsp, hr.spaces⟩) (hr.starts.lexeme.append_spaces hsp')
    obtain ⟨l', hl', hmap⟩ := ih (List.forall_mem_nil _) hdrop'
    exact ⟨_, .token hnext hl', by simp [hmap]⟩

/-- No word is cut in two at this position. -/
def Boundary (str : CStr) (point : ℕ) : Prop :=
  ∀ b ∈ (str.bytes.take point).getLast?, WordByte b → ∀ b' ∈ (str.bytes.drop point).head?, ¬ WordByte b'

theorem getLast?_take_append (h : str.bytes.drop i = t.bytes ++ str.bytes.drop point') (hp : point' = i + t.bytes.length)
    (hne : t.bytes ≠ []) : (str.bytes.take point').getLast? = t.bytes.getLast? := by
  have htake : str.bytes.take point' = str.bytes.take i ++ t.bytes := by
    rw [hp, List.take_add, h, List.take_left]
  rw [htake, List.getLast?_append_of_ne_nil _ hne]

theorem Starts.boundary (h : Starts str i t point') : Boundary str point' := by
  intro b hb hw b' hb'
  rw [getLast?_take_append h.text h.point_eq h.lexeme.token.ne_nil] at hb
  rcases h.lexeme with ⟨ht, -⟩ | ⟨-, hr⟩
  · exact absurd ((symbols_bytes t ht).2 b (List.mem_of_getLast? hb)) hw.2
  · exact hr b' hb'

theorem Reads.placed (h : Reads str point i t point') (hb : Boundary str point) : Placed str i (t, point') := by
  refine ⟨h.starts, fun (hw : Word t.bytes) b hlast hword => ?_⟩
  obtain ⟨a, w, ha⟩ := List.exists_cons_of_ne_nil hw.nonempty
  have hhead : a ∈ (str.bytes.drop i).head? := by simp [h.starts.text, ha]
  rcases Nat.eq_or_lt_of_le h.le with rfl | hlt
  · exact hb b hlast hword a hhead (hw.word a (by simp [ha]))
  · refine hword.1 (h.spaces b ?_)
    have htake : str.bytes.take i = str.bytes.take point ++ (str.bytes.drop point).take (i - point) := by
      rw [← List.take_add, Nat.add_sub_cancel' h.le]
    have hne : (str.bytes.drop point).take (i - point) ≠ [] := by
      intro hnil
      have := congrArg List.length hnil
      have := h.starts.le_length
      have := h.starts.point_eq
      simp at *
      omega
    rw [htake, List.getLast?_append_of_ne_nil _ hne] at hlast
    exact List.mem_of_getLast? hlast

/-- Every token is where it should be. -/
theorem Scan.placed (h : Scan str point l) (hb : Boundary str point) : ∀ c ∈ l, ∃ i, Placed str i c := by
  induction h with
  | null _ => simp
  | token h _ ih =>
    obtain ⟨i, hr⟩ := nextToken_reads h
    intro c hc
    rcases List.mem_cons.1 hc with rfl | hc
    · exact ⟨i, hr.placed hb⟩
    · exact ih hr.starts.boundary c hc

theorem boundary_zero : Boundary str 0 := by
  intro b hb
  simp at hb

end Scan

/-! ### Joined tokens -/

section Joined

variable {str t : CStr} {point : ℕ} {ts : List CStr} {sp : List Byte}

theorem joined_cons (t : CStr) (ts : List CStr) : ∃ sp : List Byte, (∀ b ∈ sp, b = space) ∧
    (∀ b ∈ (sp ++ (joined ts).bytes).head?, b = space) ∧ (joined (t :: ts)).bytes = t.bytes ++ (sp ++ (joined ts).bytes) := by
  cases ts with
  | nil =>
    have hempty : (joined []).bytes = [] := rfl
    exact ⟨[], by simp, by simp [hempty], by simp [hempty]; rfl⟩
  | cons t' ts => exact ⟨[space], by simp, by simp, rfl⟩

theorem scan_joined (hts : ∀ t ∈ ts, Token t) (hsp : ∀ b ∈ sp, b = space)
    (hdrop : str.bytes.drop point = sp ++ (joined ts).bytes) : ∃ l, Scan str point l ∧ l.map Prod.fst = ts := by
  induction ts generalizing point sp with
  | nil =>
    have hempty : (joined []).bytes = [] := rfl
    rw [hempty, List.append_nil] at hdrop
    exact ⟨[], .null (nextToken_eq_none (hdrop ▸ hsp)), rfl⟩
  | cons t ts ih =>
    obtain ⟨sp', hsp', hhead, heq⟩ := joined_cons t ts
    rw [heq] at hdrop
    obtain ⟨point', hnext, hdrop'⟩ := nextToken_eq_some hdrop hsp ((hts t (by simp)).lexeme hhead)
    obtain ⟨l, hl, hmap⟩ := ih (fun t ht => hts t (List.mem_cons_of_mem _ ht)) hsp' hdrop'
    exact ⟨(t, point') :: l, .token hnext hl, by simp [hmap]⟩

/-- **Tokens that are joined by single spaces are read back.** -/
theorem calls_joined (hts : ∀ t ∈ ts, Token t) : ∃ fuel l, calls (joined ts) fuel 0 = some l ∧ l.map Prod.fst = ts := by
  have hdrop : (joined ts).bytes.drop 0 = [] ++ (joined ts).bytes := rfl
  obtain ⟨l, hl, hmap⟩ := scan_joined hts (by simp) hdrop
  obtain ⟨fuel, hcalls⟩ := hl.calls
  exact ⟨fuel, l, hcalls, hmap⟩

/-- What is read from a line, and what it says about the line. -/
structure Tokenised (str : CStr) (l : List (CStr × ℕ)) : Prop where
  increasing : List.IsChain (· < ·) (0 :: l.map Prod.snd)
  placed : ∀ c ∈ l, ∃ i, Placed str i c
  flatten : (l.map fun c => c.1.bytes).flatten = str.bytes.filter (· ≠ space)

theorem Scan.tokenised {l : List (CStr × ℕ)} (h : Scan str 0 l) : Tokenised str l :=
  ⟨h.increasing, h.placed boundary_zero, h.flatten⟩

/-- A token of a line is no longer than the line. -/
theorem Tokenised.fits {l : List (CStr × ℕ)} (h : Tokenised str l) {n : ℕ} (hn : str.bytes.length < n) {c : CStr × ℕ}
    (hc : c ∈ l) : c.1.z.length ≤ n := by
  obtain ⟨i, hi⟩ := h.placed c hc
  have hle := hi.starts.le_length
  have heq := hi.starts.point_eq
  simp only [CStr.z, List.length_append, List.length_singleton]
  omega

/-- So its tokens fit where the line does. -/
theorem Scan.tokens_fit {l : List (CStr × ℕ)} (h : Scan str 0 l) {n : ℕ} (hn : str.bytes.length < n) :
    ∀ t ∈ l.map Prod.fst, t.bytes.length < n := by
  intro t ht
  obtain ⟨c, hc, rfl⟩ := List.mem_map.1 ht
  have hz := h.tokenised.fits hn hc
  rw [CStr.z, List.length_append, List.length_singleton] at hz
  omega

theorem Tokenised.token {l : List (CStr × ℕ)} (h : Tokenised str l) : ∀ t ∈ l.map Prod.fst, Token t := by
  intro t ht
  obtain ⟨c, hc, rfl⟩ := List.mem_map.1 ht
  obtain ⟨i, hi⟩ := h.placed c hc
  exact hi.starts.lexeme.token

/-- **The tokens of a line.**  The calls come to an end; the tokens are the operators and words of the line, each as long
as it can be, nothing but spaces is lost, each fits the 100 bytes of `temp`, and the tokens joined by single spaces are
read as the same tokens. -/
theorem nextToken_canonical (h : str.bytes.length < MAX_SIZE) : ∃ fuel l, calls str fuel 0 = some l ∧ Tokenised str l ∧
    (∀ c ∈ l, c.1.z.length ≤ 100) ∧
    ∃ fuel' l', calls (joined (l.map Prod.fst)) fuel' 0 = some l' ∧ l'.map Prod.fst = l.map Prod.fst := by
  obtain ⟨l, hl⟩ := exists_scan str str.bytes.length 0 (by omega)
  obtain ⟨fuel, hcalls⟩ := hl.calls
  refine ⟨fuel, l, hcalls, hl.tokenised, ?_, calls_joined hl.tokenised.token⟩
  intro c hc
  exact hl.tokenised.fits h hc

/-- The tokens of a line with operators of every length. -/
theorem nextToken_canonical_line : ∃ fuel l, calls (lit "a|||b SS c>>d &") fuel 0 = some l ∧
    Tokenised (lit "a|||b SS c>>d &") l ∧ (∀ c ∈ l, c.1.z.length ≤ 100) ∧
    ∃ fuel' l', calls (joined (l.map Prod.fst)) fuel' 0 = some l' ∧ l'.map Prod.fst = l.map Prod.fst :=
  nextToken_canonical (by decide)

example : (calls (lit "a|||b SS c>>d &") 9 0).map (List.map Prod.fst) =
    some (["a", "|||", "b", "SS", "c", ">>", "d", "&"].map lit) := by
  decide

end Joined

end NetProg.Shell
