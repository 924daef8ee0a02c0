import Mathlib.Data.List.TakeWhile
import Mathlib.Data.List.Basic

/-!
# NUL-terminated strings

* `CStr`: the bytes of a C string before its NUL, with the proof that none of them is one; `z` is the string
  with its NUL, as it is written to a channel, and `readStr` takes the first string off a byte queue;
* `fields d s`: what a loop of `strsep(&p, d)` calls returns, up to the `NULL` (`fields_eq_strsep`);
* `strtokAll d s`: what a loop of `strtok` calls returns (`strtokAll_eq`).
-/

namespace NetProg.Lib

/-- A byte of a C program (`char`, read as its unsigned value). -/
abbrev Byte := UInt8

/-- A C string: the bytes before the NUL. -/
structure CStr where
  bytes : List Byte
  nul_free : (0 : Byte) ∉ bytes
  deriving DecidableEq

namespace CStr

@[ext] theorem ext {s t : CStr} (h : s.bytes = t.bytes) : s = t := by
  cases s; cases t; congr

theorem map_bytes_injective : Function.Injective (List.map CStr.bytes) :=
  List.map_injective_iff.2 fun _ _ => ext

/-- The string that starts at the first of these bytes. -/
def ofBytes (l : List Byte) : CStr where
  bytes := l.takeWhile (· ≠ 0)
  nul_free := fun h => by simpa using List.mem_takeWhile_imp h

/-- The string with its NUL. -/
def z (s : CStr) : List Byte := s.bytes ++ [0]

/-- `strcat`. -/
def cat (s t : CStr) : CStr where
  bytes := s.bytes ++ t.bytes
  nul_free := by simp [s.nul_free, t.nul_free]

/-- A string with one more byte. -/
def push (s : CStr) (b : Byte) (hb : b ≠ 0) : CStr where
  bytes := s.bytes ++ [b]
  nul_free := by simp [s.nul_free, Ne.symm hb]

/-- A part of a string is a string. -/
def part (s : CStr) (l : List Byte) (h : ∀ b ∈ l, b ∈ s.bytes) : CStr where
  bytes := l
  nul_free := fun h0 => s.nul_free (h 0 h0)

theorem ofBytes_bytes_of_nul_free {l : List Byte} (h : (0 : Byte) ∉ l) : (ofBytes l).bytes = l := by
  show l.takeWhile (· ≠ 0) = l
  rw [List.takeWhile_eq_self_iff]
  intro b hb
  simpa using fun h0 : b = 0 => h (h0 ▸ hb)

theorem ofBytes_self (s : CStr) : ofBytes s.bytes = s := ext (ofBytes_bytes_of_nul_free s.nul_free)

theorem takeWhile_bytes_append (s : CStr) (l : List Byte) :
    (s.bytes ++ l).takeWhile (· ≠ 0) = s.bytes ++ l.takeWhile (· ≠ 0) := by
  apply List.takeWhile_append_of_pos
  intro b hb
  simpa using fun h0 : b = 0 => s.nul_free (h0 ▸ hb)

/-- What stands behind the NUL does not matter. -/
theorem ofBytes_z_append (s : CStr) (l : List Byte) : ofBytes (s.z ++ l) = s := by
  apply ext
  show (s.bytes ++ [0] ++ l).takeWhile (· ≠ 0) = s.bytes
  rw [List.append_assoc, takeWhile_bytes_append]
  simp

/-- A string that goes on where another ends is a different one. -/
theorem ofBytes_append_ne {s : CStr} {b : Byte} (hb : b ≠ 0) (l : List Byte) : ofBytes (s.bytes ++ b :: l) ≠ s := by
  intro h
  have hbytes : (s.bytes ++ b :: l).takeWhile (· ≠ 0) = s.bytes := congrArg CStr.bytes h
  rw [takeWhile_bytes_append, List.takeWhile_cons_of_pos (by simpa using hb)] at hbytes
  exact List.cons_ne_nil _ _ (List.append_right_eq_self.1 hbytes)

end CStr

/-- A string literal. -/
def lit (s : String) : CStr := CStr.ofBytes (s.toList.map fun c => c.toNat.toUInt8)

theorem eq_empty_iff {s : CStr} : s = lit "" ↔ s.bytes = [] := CStr.ext_iff

/-! ### Reading a string off a byte queue -/

/-- The bytes before the first NUL, and those behind it; `none` while no NUL has arrived. -/
def readBytes : List Byte → Option (List Byte × List Byte)
  | [] => none
  | b :: q => if b = 0 then some ([], q) else (readBytes q).map fun r => (b :: r.1, r.2)

/-- The first string of a queue and what stands behind its NUL. -/
def readStr (q : List Byte) : Option (CStr × List Byte) :=
  (readBytes q).map fun r => (CStr.ofBytes r.1, r.2)

theorem readBytes_append (r : List Byte) : ∀ {l : List Byte}, (0 : Byte) ∉ l →
    readBytes (l ++ 0 :: r) = some (l, r)
  | [], _ => by simp [readBytes]
  | b :: l, h => by
    simp only [List.mem_cons, not_or] at h
    simp [readBytes, Ne.symm h.1, readBytes_append r h.2]

theorem readBytes_eq_some {r : List Byte × List Byte} : ∀ {q : List Byte}, readBytes q = some r →
    q = r.1 ++ 0 :: r.2 ∧ (0 : Byte) ∉ r.1
  | [], h => by simp [readBytes] at h
  | b :: q, h => by
    unfold readBytes at h
    split at h
    · next hb =>
      simp only [Option.some.injEq] at h
      subst h; simp [hb]
    · next hb =>
      obtain ⟨r', hr, rfl⟩ := Option.map_eq_some_iff.1 h
      obtain ⟨e, hn⟩ := readBytes_eq_some hr
      exact ⟨by simp [e], by simp [Ne.symm hb, hn]⟩

theorem readStr_eq_some {q r : List Byte} {s : CStr} : readStr q = some (s, r) ↔ q = s.z ++ r := by
  constructor
  · intro h
    obtain ⟨r', hr, e⟩ := Option.map_eq_some_iff.1 h
    simp only [Prod.mk.injEq] at e
    obtain ⟨rfl, rfl⟩ := e
    obtain ⟨hq, hn⟩ := readBytes_eq_some hr
    rw [CStr.z, CStr.ofBytes_bytes_of_nul_free hn]
    simpa using hq
  · rintro rfl
    have h : s.z ++ r = s.bytes ++ 0 :: r := by simp [CStr.z]
    rw [readStr, h, readBytes_append r s.nul_free]
    exact congrArg some (Prod.ext s.ofBytes_self rfl)

@[simp] theorem readStr_nil : readStr [] = none := rfl

@[simp] theorem readStr_z_append (s : CStr) (q : List Byte) : readStr (s.z ++ q) = some (s, q) :=
  readStr_eq_some.2 rfl

@[simp] theorem readStr_z (s : CStr) : readStr s.z = some (s, []) := by simpa using readStr_z_append s []

theorem readBytes_of_nul_free : ∀ {q : List Byte}, (0 : Byte) ∉ q → readBytes q = none
  | [], _ => rfl
  | b :: q, h => by
    simp only [List.mem_cons, not_or] at h
    simp [readBytes, Ne.symm h.1, readBytes_of_nul_free h.2]

/-- Without a NUL there is no string to read. -/
theorem readStr_of_nul_free {q : List Byte} (h : (0 : Byte) ∉ q) : readStr q = none := by
  simp [readStr, readBytes_of_nul_free h]

theorem isSome_readBytes : ∀ {q : List Byte}, (0 : Byte) ∈ q → (readBytes q).isSome
  | b :: q, h => by
    unfold readBytes
    split
    · rfl
    · next hb => simpa using isSome_readBytes ((List.mem_cons.1 h).resolve_left (Ne.symm hb))

/-- With a NUL there is one. -/
theorem exists_readStr {q : List Byte} (h : (0 : Byte) ∈ q) : ∃ m r, readStr q = some (m, r) := by
  obtain ⟨r, hr⟩ := Option.isSome_iff_exists.1 (isSome_readBytes h)
  exact ⟨CStr.ofBytes r.1, r.2, by rw [readStr, hr]; rfl⟩

/-- Bytes that arrive behind a complete string do not change it. -/
theorem readStr_append {q r : List Byte} {s : CStr} (h : readStr q = some (s, r)) (b : List Byte) :
    readStr (q ++ b) = some (s, r ++ b) := by
  rw [readStr_eq_some] at h ⊢
  rw [h, List.append_assoc]

/-! ### `strsep` -/

/-- The bytes before the first delimiter, and those behind it. -/
def sepBytes (d : Byte) : List Byte → List Byte × Option (List Byte)
  | [] => ([], none)
  | b :: s => if b = d then ([], some s) else (b :: (sepBytes d s).1, (sepBytes d s).2)

theorem mem_of_mem_sepBytes_fst (d : Byte) : ∀ s : List Byte, ∀ b ∈ (sepBytes d s).1, b ∈ s
  | [], b, h => by simp [sepBytes] at h
  | x :: s, b, h => by
    unfold sepBytes at h
    split at h
    · simp at h
    · rcases List.mem_cons.1 h with rfl | h
      · simp
      · exact List.mem_cons_of_mem _ (mem_of_mem_sepBytes_fst d s b h)

theorem mem_of_mem_sepBytes_snd (d : Byte) : ∀ s r : List Byte, (sepBytes d s).2 = some r → ∀ b ∈ r, b ∈ s
  | [], r, h => by simp [sepBytes] at h
  | x :: s, r, h => by
    unfold sepBytes at h
    split at h
    · simp only [Option.some.injEq] at h
      subst h
      exact fun b hb => List.mem_cons_of_mem _ hb
    · exact fun b hb => List.mem_cons_of_mem _ (mem_of_mem_sepBytes_snd d s r h b hb)

/-- `found = strsep(&p, d)`: the token and the new value of `p`, with `none` for `NULL`. -/
def strsep (d : Byte) : Option CStr → Option CStr × Option CStr
  | none => (none, none)
  | some p =>
    (some (p.part (sepBytes d p.bytes).1 (mem_of_mem_sepBytes_fst d p.bytes)),
      (sepBytes d p.bytes).2.attach.map fun r => p.part r.1 (mem_of_mem_sepBytes_snd d p.bytes r.1 r.2))

theorem strsep_snd_bytes (d : Byte) (s : CStr) :
    (strsep d (some s)).2.map CStr.bytes = (sepBytes d s.bytes).2 := by
  unfold strsep
  rw [Option.map_map]
  exact Option.attach_map_subtype_val _

theorem sepBytes_append {d : Byte} {r : List Byte} : ∀ {l : List Byte}, d ∉ l →
    sepBytes d (l ++ d :: r) = (l, some r)
  | [], _ => by simp [sepBytes]
  | b :: l, h => by
    simp only [List.mem_cons, not_or] at h
    simp [sepBytes, Ne.symm h.1, sepBytes_append h.2]

/-- The first token of a string, and what stands behind the delimiter. -/
theorem strsep_eq {d : Byte} {s p r : CStr} (h : s.bytes = p.bytes ++ d :: r.bytes) (hd : d ∉ p.bytes) :
    strsep d (some s) = (some p, some r) := by
  have hs : sepBytes d s.bytes = (p.bytes, some r.bytes) := by rw [h, sepBytes_append hd]
  have h1 : (strsep d (some s)).1 = some p := congrArg some (CStr.ext (congrArg Prod.fst hs))
  have h2 : (strsep d (some s)).2.map CStr.bytes = some r.bytes :=
    (strsep_snd_bytes d s).trans (congrArg Prod.snd hs)
  obtain ⟨r', hr, e⟩ := Option.map_eq_some_iff.1 h2
  exact Prod.ext h1 (hr.trans (congrArg some (CStr.ext e)))

/-- The pieces of a byte sequence between the delimiters. -/
def fieldBytes (d : Byte) : List Byte → List (List Byte)
  | [] => [[]]
  | b :: s =>
    if b = d then [] :: fieldBytes d s
    else match fieldBytes d s with
      | [] => [[b]]
      | f :: fs => (b :: f) :: fs

theorem mem_of_mem_fieldBytes (d : Byte) : ∀ s : List Byte, ∀ f ∈ fieldBytes d s, ∀ b ∈ f, b ∈ s
  | [], f, hf, b, hb => by
    simp only [fieldBytes, List.mem_singleton] at hf
    simp [hf] at hb
  | x :: s, f, hf, b, hb => by
    have ih := mem_of_mem_fieldBytes d s
    unfold fieldBytes at hf
    split at hf
    · rcases List.mem_cons.1 hf with rfl | hf
      · simp at hb
      · exact List.mem_cons_of_mem _ (ih f hf b hb)
    · split at hf
      · simp only [List.mem_singleton] at hf
        subst hf
        exact List.mem_cons.2 (Or.inl (List.mem_singleton.1 hb))
      · next g gs e =>
        rcases List.mem_cons.1 hf with rfl | hf
        · rcases List.mem_cons.1 hb with rfl | hb
          · simp
          · exact List.mem_cons_of_mem _ (ih g (by simp [e]) b hb)
        · exact List.mem_cons_of_mem _ (ih f (by simp [e, hf]) b hb)

/-- The tokens a loop of `strsep` calls goes through. -/
def fields (d : Byte) (s : CStr) : List CStr :=
  (fieldBytes d s.bytes).attach.map fun f => s.part f.1 (mem_of_mem_fieldBytes d s.bytes f.1 f.2)

theorem fields_bytes (d : Byte) (s : CStr) : (fields d s).map CStr.bytes = fieldBytes d s.bytes := by
  unfold fields
  rw [List.map_map]
  exact List.attach_map_subtype_val (fieldBytes d s.bytes)

theorem fieldBytes_eq_sep (d : Byte) : ∀ s : List Byte,
    fieldBytes d s = (sepBytes d s).1 :: ((sepBytes d s).2.elim [] (fieldBytes d))
  | [] => rfl
  | b :: s => by
    unfold fieldBytes sepBytes
    split
    · rfl
    · rw [fieldBytes_eq_sep d s]

/-- **The loop of `strsep` calls**: the first token, and the tokens of what is left. -/
theorem fields_eq_strsep (d : Byte) (s : CStr) :
    fields d s = (strsep d (some s)).1.toList ++ (strsep d (some s)).2.elim [] (fields d) := by
  apply CStr.map_bytes_injective
  rw [fields_bytes, fieldBytes_eq_sep, ← strsep_snd_bytes, List.map_append]
  refine congrArg₂ _ rfl ?_
  cases (strsep d (some s)).2 with
  | none => rfl
  | some r => exact (fields_bytes d r).symm

theorem strsep_fst (d : Byte) (s : CStr) : (strsep d (some s)).1 = (fields d s).head? := by
  rw [fields_eq_strsep]
  rfl

theorem fields_ne_nil (d : Byte) (s : CStr) : fields d s ≠ [] := by
  intro h
  have := fields_bytes d s
  rw [h, fieldBytes_eq_sep] at this
  simp at this

/-- The pieces on both sides of a delimiter. -/
theorem fieldBytes_append (d : Byte) {r : List Byte} : ∀ l : List Byte,
    fieldBytes d (l ++ d :: r) = fieldBytes d l ++ fieldBytes d r
  | [] => by simp [fieldBytes]
  | b :: l => by
    rw [List.cons_append, fieldBytes, fieldBytes]
    split
    · rw [fieldBytes_append, List.cons_append]
    · rw [fieldBytes_append]
      cases he : fieldBytes d l with
      | nil =>
        rw [fieldBytes_eq_sep] at he
        cases he
      | cons f fs => rfl

theorem fieldBytes_of_not_mem {d : Byte} : ∀ {l : List Byte}, d ∉ l → fieldBytes d l = [l]
  | [], _ => rfl
  | b :: l, h => by
    simp only [List.mem_cons, not_or] at h
    unfold fieldBytes
    rw [if_neg (Ne.symm h.1), fieldBytes_of_not_mem h.2]

/-- The pieces are empty if there is nothing but delimiters. -/
theorem fieldBytes_forall_nil_iff {d : Byte} {l : List Byte} : (∀ f ∈ fieldBytes d l, f = []) ↔ ∀ b ∈ l, b = d := by
  induction l with
  | nil => simp [fieldBytes]
  | cons b l ih =>
    unfold fieldBytes
    by_cases hb : b = d
    · rw [if_pos hb, List.forall_mem_cons, List.forall_mem_cons, ih]
      simp [hb]
    · rw [if_neg hb, List.forall_mem_cons]
      refine ⟨fun h => ?_, fun h => absurd h.1 hb⟩
      cases he : fieldBytes d l with
      | nil =>
        rw [he] at h
        exact absurd (h [b] List.mem_cons_self) (List.cons_ne_nil _ _)
      | cons f fs =>
        rw [he] at h
        exact absurd (h (b :: f) List.mem_cons_self) (List.cons_ne_nil _ _)

/-- A string without the delimiter is its only token. -/
theorem fields_of_not_mem {d : Byte} {s : CStr} (h : d ∉ s.bytes) : fields d s = [s] := by
  apply CStr.map_bytes_injective
  rw [fields_bytes, fieldBytes_of_not_mem h]
  rfl

/-! ### The string before a delimiter, and behind it -/

/-- What `strsep` returns. -/
def upTo (d : Byte) (s : CStr) : CStr := s.part (sepBytes d s.bytes).1 (mem_of_mem_sepBytes_fst d s.bytes)

/-- What is left behind the delimiter; `none` where there is no delimiter. -/
def past (d : Byte) (s : CStr) : Option CStr := (strsep d (some s)).2

theorem strsep_some (d : Byte) (s : CStr) : strsep d (some s) = (some (upTo d s), past d s) := rfl

theorem not_mem_upTo (d : Byte) (s : CStr) : d ∉ (upTo d s).bytes := by
  have hgen : ∀ l : List Byte, d ∉ (sepBytes d l).1 := by
    intro l
    induction l with
    | nil => exact List.not_mem_nil
    | cons b l ih =>
      unfold sepBytes
      split
      · exact List.not_mem_nil
      · next hb =>
        rw [List.mem_cons, not_or]
        exact ⟨Ne.symm hb, ih⟩
  exact hgen s.bytes

theorem past_eq_none {d : Byte} {s : CStr} (h : past d s = none) : upTo d s = s := by
  have hgen : ∀ l : List Byte, (sepBytes d l).2 = none → (sepBytes d l).1 = l := by
    intro l
    induction l with
    | nil => exact fun _ => rfl
    | cons b l ih =>
      unfold sepBytes
      split
      · exact fun h => by cases h
      · exact fun h => congrArg (b :: ·) (ih h)
  apply CStr.ext
  refine hgen s.bytes ?_
  rw [← strsep_snd_bytes]
  exact congrArg (Option.map CStr.bytes) h

theorem bytes_of_past {d : Byte} {s r : CStr} (h : past d s = some r) : s.bytes = (upTo d s).bytes ++ d :: r.bytes := by
  have hgen : ∀ l r : List Byte, (sepBytes d l).2 = some r → l = (sepBytes d l).1 ++ d :: r := by
    intro l r
    induction l with
    | nil => exact fun h => by cases h
    | cons b l ih =>
      unfold sepBytes
      split
      · next hb => exact fun h => by rw [hb, Option.some.inj h]; rfl
      · exact fun h => congrArg (b :: ·) (ih h)
  refine hgen s.bytes r.bytes ?_
  rw [← strsep_snd_bytes]
  exact congrArg (Option.map CStr.bytes) h

theorem length_lt_of_past {d : Byte} {s r : CStr} (h : past d s = some r) : r.bytes.length < s.bytes.length := by
  rw [bytes_of_past h, List.length_append, List.length_cons]
  omega

theorem past_eq_none_iff {d : Byte} {s : CStr} : past d s = none ↔ d ∉ s.bytes := by
  constructor
  · intro h
    rw [← past_eq_none h]
    exact not_mem_upTo d s
  · intro h
    cases hp : past d s with
    | none => rfl
    | some r =>
      rw [bytes_of_past hp] at h
      exact absurd (List.mem_append_right _ List.mem_cons_self) h

theorem upTo_eq {d : Byte} {s t r : CStr} (h : s.bytes = t.bytes ++ d :: r.bytes) (hd : d ∉ t.bytes) : upTo d s = t :=
  Option.some.inj (congrArg Prod.fst (strsep_eq h hd))

theorem past_eq {d : Byte} {s t r : CStr} (h : s.bytes = t.bytes ++ d :: r.bytes) (hd : d ∉ t.bytes) : past d s = some r :=
  congrArg Prod.snd (strsep_eq h hd)

theorem upTo_bytes (d : Byte) (s : CStr) : (upTo d s).bytes = s.bytes.takeWhile (· ≠ d) := by
  have hgen : ∀ l : List Byte, (sepBytes d l).1 = l.takeWhile (· ≠ d) := by
    intro l
    induction l with
    | nil => rfl
    | cons b l ih =>
      unfold sepBytes
      by_cases hb : b = d
      · rw [if_pos hb, List.takeWhile_cons_of_neg (by simpa using hb)]
      · rw [if_neg hb, List.takeWhile_cons_of_pos (by simpa using hb)]
        exact congrArg (b :: ·) ih
  exact hgen s.bytes

theorem upTo_prefix_self (d : Byte) (s : CStr) : (upTo d s).bytes <+: s.bytes := by
  rw [upTo_bytes]
  exact List.takeWhile_prefix _

theorem past_suffix {d : Byte} {s r : CStr} (h : past d s = some r) : r.bytes <:+ s.bytes :=
  ⟨(upTo d s).bytes ++ [d], by rw [bytes_of_past h, List.append_assoc, List.singleton_append]⟩

/-! ### `strtok` -/

/-- What the first call of `strtok` returns for one delimiter: the first run of other bytes, or `NULL`. -/
def strtok (d : Byte) (s : CStr) : Option CStr :=
  if s.bytes.dropWhile (· = d) = [] then none
  else some (s.part ((s.bytes.dropWhile (· = d)).takeWhile (· ≠ d)) fun _ hb =>
    (List.dropWhile_sublist _).mem ((List.takeWhile_sublist _).mem hb))

/-- What stands behind the first token, for the calls that follow. -/
def strtokRest (d : Byte) (s : CStr) : CStr := s.part ((s.bytes.dropWhile (· = d)).dropWhile (· ≠ d)) fun _ hb =>
  (List.dropWhile_sublist _).mem ((List.dropWhile_sublist _).mem hb)

theorem strtok_eq_none_iff {d : Byte} {s : CStr} : strtok d s = none ↔ ∀ b ∈ s.bytes, b = d := by
  simp [strtok, List.dropWhile_eq_nil_iff]

/-- A token is not empty. -/
theorem strtok_ne_empty {d : Byte} {s t : CStr} (h : strtok d s = some t) : t.bytes ≠ [] := by
  unfold strtok at h
  split at h
  · cases h
  · next hne =>
    obtain rfl := Option.some.inj h
    have hhead := List.head_dropWhile_not (· = d) hne
    intro he
    rw [CStr.part, List.takeWhile_eq_nil_iff] at he
    exact he (List.length_pos_iff.2 hne) (by simpa [List.head_eq_getElem] using hhead)

/-- What a loop of `strtok` calls returns, up to the `NULL`. -/
def strtokAll (d : Byte) (s : CStr) : List CStr := (fields d s).filter (· ≠ lit "")

theorem strtokAll_bytes (d : Byte) (s : CStr) :
    (strtokAll d s).map CStr.bytes = (fieldBytes d s.bytes).filter fun f => f ≠ [] := by
  rw [← fields_bytes, List.filter_map, strtokAll]
  simp only [ne_eq, eq_empty_iff]
  rfl

theorem filter_fieldBytes_cons (d : Byte) (l : List Byte) :
    (fieldBytes d (d :: l)).filter (fun f => f ≠ []) = (fieldBytes d l).filter fun f => f ≠ [] := by
  rw [fieldBytes, if_pos rfl, List.filter_cons_of_neg (by simp)]

/-- Delimiters in front do not matter. -/
theorem filter_fieldBytes_dropWhile (d : Byte) (l : List Byte) :
    (fieldBytes d (l.dropWhile (· = d))).filter (fun f => f ≠ []) = (fieldBytes d l).filter fun f => f ≠ [] := by
  induction l with
  | nil => rfl
  | cons b l ih =>
    by_cases hb : b = d
    · subst hb
      rw [List.dropWhile_cons_of_pos (by simp), ih, filter_fieldBytes_cons]
    · rw [List.dropWhile_cons_of_neg (by simpa using hb)]

/-- The first token, and those that follow it. -/
theorem filter_fieldBytes_append {d : Byte} {t : List Byte} (ht : t ≠ []) (hd : d ∉ t) {r : List Byte}
    (hr : ∀ b ∈ r.head?, b = d) : (fieldBytes d (t ++ r)).filter (fun f => f ≠ []) =
      t :: (fieldBytes d r).filter fun f => f ≠ [] := by
  cases r with
  | nil =>
    rw [List.append_nil, fieldBytes_of_not_mem hd]
    simp [ht, fieldBytes]
  | cons b r =>
    obtain rfl : b = d := hr b rfl
    rw [fieldBytes_append, fieldBytes_of_not_mem hd, filter_fieldBytes_cons, List.singleton_append,
      List.filter_cons_of_pos (by simpa using ht)]

/-- **The loop of `strtok` calls**: the first token, and the tokens of what is left. -/
theorem strtokAll_eq (d : Byte) (s : CStr) :
    strtokAll d s = (strtok d s).elim [] fun t => t :: strtokAll d (strtokRest d s) := by
  apply CStr.map_bytes_injective
  rw [strtokAll_bytes, ← filter_fieldBytes_dropWhile]
  unfold strtok
  split
  · next hnil => rw [hnil]; simp [fieldBytes]
  · next hne =>
    rw [Option.elim_some, List.map_cons, strtokAll_bytes]
    conv_lhs => rw [← List.takeWhile_append_dropWhile (p := (· ≠ d)) (l := s.bytes.dropWhile (· = d))]
    refine filter_fieldBytes_append ?_ (fun hd => by simpa using List.mem_takeWhile_imp hd) fun b hb => ?_
    · have hhead := List.head_dropWhile_not (· = d) hne
      intro he
      rw [List.takeWhile_eq_nil_iff] at he
      exact he (List.length_pos_iff.2 hne) (by simpa [List.head_eq_getElem] using hhead)
    · have hhead := List.head?_dropWhile_not (fun b => decide (b ≠ d)) (s.bytes.dropWhile (· = d))
      rw [Option.mem_def.1 hb] at hhead
      simpa using hhead

end NetProg.Lib
