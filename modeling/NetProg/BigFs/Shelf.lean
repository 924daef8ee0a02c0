import Mathlib.Data.List.DropRight
import NetProg.BigFs.Placement
import NetProg.DataServer.Copying

/-!
# The data servers as a shelf of files

A location that does not end with a digit is no path of a chunk, and its chunks are those of no other such location.
Where all names are of this kind, the files on the data servers are what they are for: a list of contents, to which an
upload and a copy add one, and from which a removal takes one.

* `Shelved k σ files`: the data servers hold `files`, by location, and nothing else has a location on them;
* `shelf`: the operations on the contents alone;
* `shelf_refines`: the files of the system and the contents go through the same runs.
-/

namespace NetProg.BigFs

open NetProg.Lib NetProg.Client NetProg.Receive NetProg.DataServer

/-! ### Names that do not end with a digit -/

/-- The name does not end with a digit. -/
def Plain (p : CStr) : Prop := p.bytes.getLast?.any isDigit = false

instance (p : CStr) : Decidable (Plain p) := inferInstanceAs (Decidable (_ = _))

section Plain

variable {p q : CStr} {i j : ℕ}

theorem rdropWhile_decimal (p : CStr) (i : ℕ) :
    (p.cat (decimal i)).bytes.rdropWhile isDigit = p.bytes.rdropWhile isDigit := by
  show (p.bytes ++ decBytes i).rdropWhile isDigit = _
  unfold List.rdropWhile
  rw [List.reverse_append, List.dropWhile_append_of_pos]
  intro b hb
  exact isDigit_of_mem_digits (List.mem_reverse.1 hb)

theorem Plain.rdropWhile (hp : Plain p) : p.bytes.rdropWhile isDigit = p.bytes := by
  apply List.rdropWhile_eq_self_iff.2
  intro hne
  have hlast : p.bytes.getLast?.any isDigit = false := hp
  rw [List.getLast?_eq_some_getLast hne] at hlast
  simpa using hlast

/-- The chunks of two locations are different. -/
theorem Plain.cat_inj (hp : Plain p) (hq : Plain q) (h : p.cat (decimal i) = q.cat (decimal j)) : p = q := by
  apply CStr.ext
  rw [← hp.rdropWhile, ← hq.rdropWhile, ← rdropWhile_decimal p i, ← rdropWhile_decimal q j, h]

/-- And no chunk is a location. -/
theorem Plain.ne_chunk (hp : Plain p) : p ≠ q.cat (decimal i) := by
  intro h
  have hlen := (List.rdropWhile_prefix isDigit (l := q.bytes)).length_le
  rw [← rdropWhile_decimal q i, ← h, hp.rdropWhile, h] at hlen
  have hpos := List.length_pos_iff.2 (decBytes_ne_nil i)
  have hcat : (q.cat (decimal i)).bytes.length = q.bytes.length + (decBytes i).length := List.length_append
  omega

theorem plain_numbered (dir : CStr) (n : ℕ) : Plain (numbered dir n) := by
  have hl : (lit ")").bytes = [41] := by decide
  have hb : (numbered dir n).bytes = ((dir.cat (lit "(")).cat (decimal n)).bytes ++ [41] := by
    rw [← hl]
    rfl
  rw [Plain, hb, List.getLast?_concat]
  rfl

theorem plain_location (h : Plain p) : Plain (location p) := by
  have hb : (location p).bytes = (lit "data/").bytes ++ p.bytes := rfl
  rw [Plain, hb, List.getLast?_append]
  cases hp : p.bytes.getLast? with
  | none => decide
  | some b =>
    rw [Plain, hp] at h
    exact h

theorem plain_pick {s : Store} (h : Plain p) : Plain (pick s p) := by
  unfold pick
  split
  · obtain ⟨n, hn, -⟩ := firstFree_eq s p
    rw [hn]
    exact plain_numbered p n
  · exact h

end Plain

/-! ### Files by location -/

/-- What is in the chunks of a file. -/
abbrev Parts := List (List Byte)

/-- A content as it is cut into `n` parts. -/
def cutInto (n : ℕ) (content : List Byte) : Parts := (List.range n).map (block BLOCKSIZE content)

@[simp] theorem length_cutInto (n : ℕ) (content : List Byte) : (cutInto n content).length = n := by simp [cutInto]

theorem getElem?_cutInto {content b : List Byte} {n i : ℕ} (h : (cutInto n content)[i]? = some b) :
    i < n ∧ block BLOCKSIZE content i = b := by
  obtain ⟨hi, hb⟩ := List.getElem?_eq_some_iff.1 h
  rw [length_cutInto] at hi
  refine ⟨hi, ?_⟩
  rw [← hb]
  simp [cutInto]

/-- A content as it is cut into its own parts. -/
def cut (content : List Byte) : Parts := cutInto (partsOf content) content

@[simp] theorem length_cut (content : List Byte) : (cut content).length = partsOf content := length_cutInto _ _

/-- The data servers hold the files, by location, and have no path but theirs. -/
structure Shelved (k : ℕ) (σ : ℕ → Store) (files : CStr → Option Parts) : Prop where
  plain : ∀ {p ps}, files p = some ps → Plain p
  nonempty : ∀ {p ps}, files p = some ps → ps ≠ []
  used : ∀ {p ps i}, files p = some ps → i < ps.length → (σ (i % k)).Exists p
  part : ∀ {p ps i b}, files p = some ps → ps[i]? = some b → (σ (i % k)).get (p.cat (decimal i)) = some b
  only : ∀ {j q}, (σ j).Exists q → ∃ p ps i, files p = some ps ∧ i < ps.length ∧ i % k = j ∧
    (q = p ∨ q = p.cat (decimal i))

namespace Shelved

variable {k : ℕ} {σ : ℕ → Store} {files : CStr → Option Parts} {p : CStr} {ps : Parts}

/-- Nothing is stored. -/
theorem empty : Shelved k (fun _ => []) fun _ => none where
  plain h := nomatch h
  nonempty h := nomatch h
  used h := nomatch h
  part h := nomatch h
  only h := nomatch h

theorem exists_zero (h : Shelved k σ files) (hp : files p = some ps) : (σ 0).Exists p := by
  have hu := h.used (i := 0) hp (List.length_pos_iff.2 (h.nonempty hp))
  rwa [Nat.zero_mod] at hu

/-- A location that the first server does not have is on none. -/
theorem not_exists (h : Shelved k σ files) (hp : Plain p) (h0 : ¬ (σ 0).Exists p) (j : ℕ) : ¬ (σ j).Exists p := by
  intro he
  obtain ⟨q, qs, i, hq, -, -, rfl | rfl⟩ := h.only he
  · exact h0 (h.exists_zero hq)
  · exact hp.ne_chunk rfl

theorem eq_none (h : Shelved k σ files) (h0 : ¬ (σ 0).Exists p) : files p = none := by
  cases hp : files p with
  | none => rfl
  | some ps => exact absurd (h.exists_zero hp) h0

end Shelved

/-! ### What the operations leave -/

section Paths

variable {k n i j : ℕ} {σ : ℕ → Store} {loc p q : CStr} {content : List Byte}

theorem exists_put {s : Store} {b : List Byte} (h : s.Exists p) : (s.put q b).Exists p := by
  by_cases hq : p = q
  · subst hq
    simp [Store.Exists]
  · rwa [Store.Exists, Store.get_put_of_ne hq]

theorem exists_put_self {s : Store} {b : List Byte} : (s.put p b).Exists p := by simp [Store.Exists]

theorem not_exists_remove {s : Store} (h : ¬ s.Exists p) : ¬ (s.remove q).Exists p := by
  by_cases hq : p = q
  · subst hq
    simp [Store.Exists]
  · rwa [Store.Exists, Store.get_remove_of_ne hq]

/-- An upload opens the location on every server that gets a part. -/
theorem exists_uploaded (hloc : ∀ i < n, partLoc k σ loc i = loc) (hi : i < n) :
    (uploaded k σ loc content n (i % k)).Exists loc := by
  refine inTurn_keeps (Q := fun s : Store => s.Exists loc) hi rfl (fun s => ?_) fun m s hs => exists_put (exists_put hs)
  rw [hloc i hi]
  exact exists_put exists_put_self

/-- And no path but the location and the part. -/
theorem of_exists_uploaded (hloc : ∀ i < n, partLoc k σ loc i = loc) (h : (uploaded k σ loc content n j).Exists q) :
    (σ j).Exists q ∨ ∃ i < n, i % k = j ∧ (q = loc ∨ q = loc.cat (decimal i)) := by
  by_contra hno
  push Not at hno
  refine hno.1 ?_
  rwa [Store.Exists, get_uploaded_of_ne fun i hi hj => ?_] at h
  rw [hloc i hi]
  exact hno.2 i hi hj

theorem exists_copied {new : CStr} (hi : i < n) : (copiedParts k σ loc new n (i % k)).Exists new :=
  inTurn_keeps (Q := fun s : Store => s.Exists new) hi rfl (fun _ => exists_put (exists_put exists_put_self))
    fun _ _ hs => exists_put (exists_put (exists_put hs))

theorem of_exists_copied {new : CStr} (h : (copiedParts k σ loc new n j).Exists q) :
    (σ j).Exists q ∨ ∃ i < n, i % k = j ∧ (q = new ∨ q = new.cat (decimal i)) := by
  by_contra hno
  push Not at hno
  refine hno.1 ?_
  rwa [Store.Exists, get_copiedParts_of_ne fun i hi hj => hno.2 i hi hj] at h

/-- A chunk that is copied is there, up to the first byte that reads as the end of the file. -/
theorem get_copiedParts_self {b : List Byte} (hi : i < n) (h : (σ (i % k)).get (loc.cat (decimal i)) = some b) :
    (copiedParts k σ loc (copyLoc σ loc) n (i % k)).get ((copyLoc σ loc).cat (decimal i)) = some (copyBytes b) := by
  obtain ⟨m, hm, -⟩ := firstFree_eq (σ 0) loc
  have hnew : copyLoc σ loc = numbered loc m := hm
  have hlater : ∀ i' < n, i + 1 ≤ i' → i' % k = i % k → ∀ s : Store,
      (copied s (loc.cat (decimal i')) (copyLoc σ loc) (decimal i')).get ((copyLoc σ loc).cat (decimal i)) =
        s.get ((copyLoc σ loc).cat (decimal i)) := by
    intro i' _ hlt _ s
    refine get_copied_of_ne (cat_decimal_ne _ i) fun he => ?_
    have := cat_decimal_injective _ he
    omega
  have hget := inTurn_congr (σ := σ) (k := k) (j := i % k) (g := fun s : Store => s.get ((copyLoc σ loc).cat (decimal i)))
    (f := fun i s => copied s (loc.cat (decimal i)) (copyLoc σ loc) (decimal i)) (Nat.succ_le_of_lt hi) hlater
  refine hget.trans ?_
  have hsrc : (copiedParts k σ loc (copyLoc σ loc) i (i % k)).get (loc.cat (decimal i)) = some b := by
    rw [get_copiedParts, h]
  have hne : loc.cat (decimal i) ≠ copyLoc σ loc := by
    rw [hnew]
    exact (numbered_ne_chunk loc loc m i).symm
  have hne' : loc.cat (decimal i) ≠ (copyLoc σ loc).cat (decimal i) := by
    rw [hnew]
    exact (numbered_cat_ne loc (decimal i) m i).symm
  rw [inTurn_succ_self, copied, Store.get_put_self, Store.get_put_of_ne hne', Store.get_put_of_ne hne]
  exact congrArg (fun o => some (copyBytes (Option.getD o []))) hsrc

/-- A removal leaves neither the location nor a chunk of the file. -/
theorem not_exists_removed (hi : i < n) (hq : q = loc ∨ q = loc.cat (decimal i)) :
    ¬ (removed k σ loc n (i % k)).Exists q := by
  refine inTurn_keeps (Q := fun s : Store => ¬ s.Exists q) hi rfl (fun s => ?_)
    fun m s hs => not_exists_remove (not_exists_remove hs)
  rcases hq with rfl | rfl
  · apply not_exists_remove
    simp [Store.Exists]
  · simp [Store.Exists]

/-- It adds no path. -/
theorem of_exists_removed (h : (removed k σ loc n j).Exists q) : (σ j).Exists q := by
  by_contra hno
  exact inTurn_inv (Q := fun s : Store => ¬ s.Exists q) hno (fun _ _ hs => not_exists_remove (not_exists_remove hs)) h

end Paths

namespace Shelved

variable {k : ℕ} {σ : ℕ → Store} {files : CStr → Option Parts} {p name : CStr} {ps qs : Parts}

/-- A file is added at a location that no server has. -/
theorem insert (h : Shelved k σ files) {σ' : ℕ → Store} (hp : Plain p) (hfree : ∀ j, ¬ (σ j).Exists p) (hne : ps ≠ [])
    (hused : ∀ i < ps.length, (σ' (i % k)).Exists p)
    (hpart : ∀ i b, ps[i]? = some b → (σ' (i % k)).get (p.cat (decimal i)) = some b)
    (hkeep : ∀ j q, q ≠ p → (∀ i : ℕ, q ≠ p.cat (decimal i)) → (σ' j).get q = (σ j).get q)
    (honly : ∀ j q, (σ' j).Exists q → (σ j).Exists q ∨ ∃ i < ps.length, i % k = j ∧ (q = p ∨ q = p.cat (decimal i))) :
    Shelved k σ' (Function.update files p (some ps)) := by
  have hold : ∀ {q qs}, q ≠ p → Function.update files p (some ps) q = some qs → files q = some qs := by
    intro q qs hq hf
    rwa [Function.update_of_ne hq] at hf
  have hself : ∀ {qs}, Function.update files p (some ps) p = some qs → ps = qs := by
    intro qs hf
    rw [Function.update_self] at hf
    exact Option.some.inj hf
  -- the paths of the other files are not concerned
  have hget : ∀ {q qs}, q ≠ p → files q = some qs → ∀ j, (σ' j).get q = (σ j).get q ∧
      ∀ i : ℕ, (σ' j).get (q.cat (decimal i)) = (σ j).get (q.cat (decimal i)) := by
    intro q qs hq hf j
    refine ⟨hkeep j q hq fun i => (h.plain hf).ne_chunk, fun i => ?_⟩
    exact hkeep j _ hp.ne_chunk.symm fun i' he => hq ((h.plain hf).cat_inj hp he)
  constructor
  · intro q qs hf
    by_cases hq : q = p
    · exact hq ▸ hp
    · exact h.plain (hold hq hf)
  · intro q qs hf
    by_cases hq : q = p
    · subst hq
      exact hself hf ▸ hne
    · exact h.nonempty (hold hq hf)
  · intro q qs i hf hi
    by_cases hq : q = p
    · subst hq
      exact hused i (hself hf ▸ hi)
    · rw [Store.Exists, (hget hq (hold hq hf) _).1]
      exact h.used (hold hq hf) hi
  · intro q qs i b hf hb
    by_cases hq : q = p
    · subst hq
      exact hpart i b (hself hf ▸ hb)
    · rw [(hget hq (hold hq hf) _).2]
      exact h.part (hold hq hf) hb
  · intro j q he
    rcases honly j q he with hold | ⟨i, hi, hj, hq⟩
    · obtain ⟨r, rs, i, hf, hi, hj, hq⟩ := h.only hold
      have hr : r ≠ p := by
        rintro rfl
        exact hfree 0 (h.exists_zero hf)
      exact ⟨r, rs, i, by rw [Function.update_of_ne hr, hf], hi, hj, hq⟩
    · exact ⟨p, ps, i, Function.update_self .., hi, hj, hq⟩

theorem plain_newLoc (h : Plain name) : Plain (newLoc σ name) := plain_pick (plain_location h)

/-- Every server finds the new location free. -/
theorem partLoc_newLoc (h : Shelved k σ files) (hn : Plain name) (i : ℕ) :
    partLoc k σ (newLoc σ name) i = newLoc σ name := by
  by_cases hi : i < k
  · rw [partLoc_eq_iff hi]
    exact h.not_exists (plain_newLoc hn) not_exists_pick i
  · exact if_neg hi

/-- **An upload** adds the content. -/
theorem upload (h : Shelved k σ files) (hn : Plain name) (content : List Byte) {n : ℕ} (hpos : 0 < n) :
    Shelved k (uploaded k σ (newLoc σ name) content n)
      (Function.update files (newLoc σ name) (some (cutInto n content))) := by
  have hloc : ∀ i < n, partLoc k σ (newLoc σ name) i = newLoc σ name :=
    fun i _ => h.partLoc_newLoc hn i
  refine h.insert (plain_newLoc hn) (h.not_exists (plain_newLoc hn) not_exists_pick) ?_ ?_ ?_ ?_ ?_
  · apply List.ne_nil_of_length_pos
    rwa [length_cutInto]
  · intro i hi
    rw [length_cutInto] at hi
    exact exists_uploaded hloc hi
  · intro i b hb
    obtain ⟨hi, rfl⟩ := getElem?_cutInto hb
    exact get_uploaded_self hi (hloc i hi)
  · intro j q hq hqi
    refine get_uploaded_of_ne fun i hi _ => ?_
    rw [hloc i hi]
    exact ⟨hq, hqi i⟩
  · intro j q he
    rw [length_cutInto]
    exact of_exists_uploaded hloc he

/-- **A copy** adds what can be read of the parts. -/
theorem copy (h : Shelved k σ files) (hp : files p = some ps) :
    Shelved k (copiedParts k σ p (copyLoc σ p) ps.length)
      (Function.update files (copyLoc σ p) (some (ps.map copyBytes))) := by
  have hplain : Plain (copyLoc σ p) := by
    obtain ⟨m, hm, -⟩ := firstFree_eq (σ 0) p
    rw [copyLoc, hm]
    exact plain_numbered p m
  refine h.insert hplain (h.not_exists hplain not_exists_firstFree) ?_ ?_ ?_ ?_ ?_
  · exact fun he => h.nonempty hp (List.map_eq_nil_iff.1 he)
  · intro i hi
    rw [List.length_map] at hi
    exact exists_copied hi
  · intro i b hb
    rw [List.getElem?_map, Option.map_eq_some_iff] at hb
    obtain ⟨b, hb, rfl⟩ := hb
    exact get_copiedParts_self (List.getElem?_eq_some_iff.1 hb).1 (h.part hp hb)
  · intro j q hq hqi
    exact get_copiedParts_of_ne fun i _ _ => ⟨hq, hqi i⟩
  · intro j q he
    rw [List.length_map]
    exact of_exists_copied he

/-- **A removal** takes the file from the servers, with all of its paths. -/
theorem remove (h : Shelved k σ files) (hp : files p = some ps) :
    Shelved k (removed k σ p ps.length) (Function.update files p none) := by
  have hold : ∀ {q qs}, Function.update files p none q = some qs → q ≠ p ∧ files q = some qs := by
    intro q qs hf
    have hq : q ≠ p := by
      rintro rfl
      rw [Function.update_self] at hf
      cases hf
    exact ⟨hq, by rwa [Function.update_of_ne hq] at hf⟩
  have hget : ∀ {q qs}, q ≠ p → files q = some qs → ∀ j, (removed k σ p ps.length j).get q = (σ j).get q ∧
      ∀ i : ℕ, (removed k σ p ps.length j).get (q.cat (decimal i)) = (σ j).get (q.cat (decimal i)) := by
    intro q qs hq hf j
    refine ⟨get_removed_of_ne fun i _ _ => ⟨hq, (h.plain hf).ne_chunk⟩, fun i => ?_⟩
    exact get_removed_of_ne fun i' _ _ =>
      ⟨(h.plain hp).ne_chunk.symm, fun he => hq ((h.plain hf).cat_inj (h.plain hp) he)⟩
  constructor
  · exact fun hf => h.plain (hold hf).2
  · exact fun hf => h.nonempty (hold hf).2
  · intro q qs i hf hi
    rw [Store.Exists, (hget (hold hf).1 (hold hf).2 _).1]
    exact h.used (hold hf).2 hi
  · intro q qs i b hf hb
    rw [(hget (hold hf).1 (hold hf).2 _).2]
    exact h.part (hold hf).2 hb
  · intro j q he
    -- a path that is left was there before, and is none of the file
    obtain ⟨r, rs, i, hf, hi, hj, hq⟩ := h.only (of_exists_removed he)
    have hr : r ≠ p := by
      rintro rfl
      rw [hp] at hf
      cases hf
      exact not_exists_removed hi hq (hj ▸ he)
    exact ⟨r, rs, i, by rw [Function.update_of_ne hr, hf], hi, hj, hq⟩

end Shelved

/-! ### The contents alone -/

section Forall₂

variable {α β : Type} {R : α → β → Prop} {l : List α} {m : List β} {i : ℕ}

theorem forall₂_getElem? (h : List.Forall₂ R l m) {a : α} (ha : l[i]? = some a) : ∃ b, m[i]? = some b ∧ R a b := by
  obtain ⟨hi, rfl⟩ := List.getElem?_eq_some_iff.1 ha
  obtain ⟨hlen, hget⟩ := List.forall₂_iff_get.1 h
  have hi' : i < m.length := hlen ▸ hi
  exact ⟨m[i], List.getElem?_eq_getElem hi', hget i hi hi'⟩

theorem forall₂_exists (h : List.Forall₂ R l m) {a : α} (ha : a ∈ l) : ∃ b, R a b := by
  obtain ⟨i, hi⟩ := List.mem_iff_getElem?.1 ha
  obtain ⟨b, -, hab⟩ := forall₂_getElem? h hi
  exact ⟨b, hab⟩

theorem forall₂_eraseIdx (h : List.Forall₂ R l m) (i : ℕ) : List.Forall₂ R (l.eraseIdx i) (m.eraseIdx i) := by
  rw [List.eraseIdx_eq_take_drop_succ, List.eraseIdx_eq_take_drop_succ]
  exact List.rel_append (List.forall₂_take i h) (List.forall₂_drop (i + 1) h)

end Forall₂

/-- The file that is stored has a name that does not end with a digit. -/
def FileOp.Plain : FileOp → Prop
  | .tobigfs name _ => BigFs.Plain name
  | _ => True

instance : DecidablePred FileOp.Plain
  | .tobigfs name _ => inferInstanceAs (Decidable (BigFs.Plain name))
  | .cp _ => .isTrue trivial
  | .rm _ => .isTrue trivial

/-- The operations on the contents alone, the last one first. -/
def shelf (m : List Parts) : FileOp → Option (List Parts)
  | .tobigfs name content =>
    if Client.slash ∉ name.bytes ∧ (0 : Byte) ∉ content ∧ partsOf content < 10 ^ 9 then some (cut content :: m) else none
  | .cp a => m[a]?.map fun ps => ps.map copyBytes :: m
  | .rm a => m[a]?.map fun _ => m.eraseIdx a

/-- The registered files have these contents, and their paths are all that is on the data servers. -/
structure FileSystem.Holds (k : ℕ) (x : FileSystem) (m : List Parts) : Prop where
  parts : List.Forall₂ (fun f ps => f.parts = ps.length ∧
    ∀ i b, ps[i]? = some b → (x.store (i % k)).get (f.loc.cat (decimal i)) = some b) x.live m
  paths : ∀ j p, (x.store j).Exists p ↔
    ∃ f ∈ x.live, ∃ i < f.parts, i % k = j ∧ (p = f.loc ∨ p = f.loc.cat (decimal i))

section Refinement

variable {k : ℕ} {x y : FileSystem} {m : List Parts} {ops : List FileOp} {op : FileOp}

/-- The registered files are those on the shelf, and none is registered twice. -/
structure OnShelf (k : ℕ) (files : CStr → Option Parts) (x : FileSystem) (m : List Parts) : Prop where
  shelved : Shelved k x.store files
  parts : List.Forall₂ (fun f ps => f.parts = ps.length ∧ ps.length < 10 ^ 9 ∧ files f.loc = some ps) x.live m
  locs : (x.live.map File.loc).Nodup
  registered : ∀ {p ps}, files p = some ps → p ∈ x.live.map File.loc

namespace OnShelf

variable {files : CStr → Option Parts} {f : File} {ps : Parts} {loc : CStr} {store : ℕ → Store} {a : ℕ}

theorem empty : OnShelf k (fun _ => none) .empty [] where
  shelved := .empty
  parts := .nil
  locs := List.nodup_nil
  registered h := nomatch h

theorem exists_parts (h : OnShelf k files x m) (hf : f ∈ x.live) : ∃ ps, f.parts = ps.length ∧ files f.loc = some ps := by
  obtain ⟨ps, hlen, -, hps⟩ := forall₂_exists h.parts hf
  exact ⟨ps, hlen, hps⟩

theorem holds (h : OnShelf k files x m) : x.Holds k m where
  parts := h.parts.imp fun _ _ hf => ⟨hf.1, fun _ _ hb => h.shelved.part hf.2.2 hb⟩
  paths j p := by
    constructor
    · intro hex
      obtain ⟨loc, ps, i, hloc, hi, hj, hp⟩ := h.shelved.only hex
      obtain ⟨f, hf, rfl⟩ := List.mem_map.1 (h.registered hloc)
      obtain ⟨ps', hlen, hps'⟩ := h.exists_parts hf
      rw [hloc, Option.some.injEq] at hps'
      subst hps'
      exact ⟨f, hf, i, hlen ▸ hi, hj, hp⟩
    · rintro ⟨f, hf, i, hi, rfl, hp⟩
      obtain ⟨ps, hlen, hps⟩ := h.exists_parts hf
      rw [hlen] at hi
      rcases hp with rfl | rfl
      · exact h.shelved.used hps hi
      · rw [Store.Exists, h.shelved.part hps (List.getElem?_eq_getElem hi)]
        rfl

/-- A file is registered that is new on the shelf. -/
theorem register (h : OnShelf k files x m) (hloc : files loc = none) (hlt : ps.length < 10 ^ 9)
    (hs : Shelved k store (Function.update files loc (some ps))) :
    OnShelf k (Function.update files loc (some ps)) (x.register k store loc ps.length) (ps :: m) where
  shelved := hs
  parts := by
    refine .cons ⟨rfl, hlt, Function.update_self ..⟩ (h.parts.imp fun f qs hf => ⟨hf.1, hf.2.1, ?_⟩)
    have hne : f.loc ≠ loc := by
      rintro he
      rw [he, hloc] at hf
      exact nomatch hf.2.2
    rw [Function.update_of_ne hne, hf.2.2]
  locs := by
    refine List.nodup_cons.2 ⟨fun hmem => ?_, h.locs⟩
    obtain ⟨f, hf, he⟩ := List.mem_map.1 hmem
    obtain ⟨qs, -, hqs⟩ := h.exists_parts hf
    rw [he, hloc] at hqs
    cases hqs
  registered {p qs} hp := by
    by_cases hne : p = loc
    · exact List.mem_cons.2 (.inl hne)
    · rw [Function.update_of_ne hne] at hp
      exact List.mem_cons.2 (.inr (h.registered hp))

/-- The other files have other locations. -/
theorem loc_ne (h : OnShelf k files x m) (hf : x.live[a]? = some f) {g : File} (hg : g ∈ x.live.eraseIdx a) :
    g.loc ≠ f.loc := by
  obtain ⟨i, hia, hi⟩ := List.mem_eraseIdx_iff_getElem?.1 hg
  obtain ⟨hlt, hget⟩ := List.getElem?_eq_some_iff.1 hi
  intro he
  have hlocs : (x.live.map File.loc)[i]? = (x.live.map File.loc)[a]? := by
    rw [List.getElem?_map, List.getElem?_map, hi, hf]
    exact congrArg some he
  exact hia ((List.getElem?_inj (by simpa using hlt) h.locs).1 hlocs)

/-- A file is taken from the shelf. -/
theorem erase (h : OnShelf k files x m) (hf : x.live[a]? = some f)
    (hs : Shelved k store (Function.update files f.loc none)) :
    OnShelf k (Function.update files f.loc none) ⟨store, x.live.eraseIdx a⟩ (m.eraseIdx a) where
  shelved := hs
  parts := by
    have hall := (List.forall₂_and_left _ _).2 ⟨fun g hg => h.loc_ne hf hg, forall₂_eraseIdx h.parts a⟩
    exact hall.imp fun g qs hg => ⟨hg.2.1, hg.2.2.1, by rw [Function.update_of_ne hg.1, hg.2.2.2]⟩
  locs := by
    rw [← List.eraseIdx_map]
    exact h.locs.eraseIdx a
  registered {p qs} hp := by
    have hne : p ≠ f.loc := by
      rintro rfl
      rw [Function.update_self] at hp
      cases hp
    rw [Function.update_of_ne hne] at hp
    obtain ⟨g, hg, rfl⟩ := List.mem_map.1 (h.registered hp)
    obtain ⟨i, hi⟩ := List.mem_iff_getElem?.1 hg
    have hia : i ≠ a := by
      rintro rfl
      rw [hf] at hi
      exact hne (Option.some.inj hi ▸ rfl)
    exact List.mem_map_of_mem (List.mem_eraseIdx_iff_getElem?.2 ⟨i, hia, hi⟩)

end OnShelf

end Refinement

section Refines

variable {k : ℕ} {x y : FileSystem} {m m' : List Parts} {ops : List FileOp} {op : FileOp} {files : CStr → Option Parts}

/-- **One operation** of the system is one on the contents. -/
theorem OnShelf.step (h : OnShelf k files x m) (hop : op.Plain) (hst : x.step k op = some y) :
    ∃ m', shelf m op = some m' ∧ ∃ files', OnShelf k files' y m' := by
  cases op with
  | tobigfs name content =>
    simp only [FileSystem.step] at hst
    split at hst
    · next hc =>
      cases hst
      have hreg := h.register (h.shelved.eq_none not_exists_pick) (by rw [length_cutInto]; exact hc.2.2)
        (h.shelved.upload hop content (Nat.succ_pos _))
      rw [length_cutInto] at hreg
      exact ⟨cut content :: m, if_pos hc, _, hreg⟩
    · cases hst
  | cp a =>
    obtain ⟨f, hf, hst⟩ := Option.bind_eq_some_iff.1 hst
    obtain ⟨ps, hps, hlen, hlt, hloc⟩ := forall₂_getElem? h.parts hf
    split at hst
    · cases hst
      have hs := h.shelved.copy hloc
      have hreg := h.register (h.shelved.eq_none not_exists_firstFree) (by rw [List.length_map]; exact hlt) hs
      rw [List.length_map, ← hlen] at hreg
      exact ⟨ps.map copyBytes :: m, by rw [shelf, hps]; rfl, _, hreg⟩
    · cases hst
  | rm a =>
    obtain ⟨f, hf, hst⟩ := Option.bind_eq_some_iff.1 hst
    obtain ⟨ps, hps, hlen, hlt, hloc⟩ := forall₂_getElem? h.parts hf
    split at hst
    · cases hst
      have hs := h.shelved.remove hloc
      rw [← hlen] at hs
      exact ⟨m.eraseIdx a, by rw [shelf, hps]; rfl, _, h.erase hf hs⟩
    · cases hst

end Refines

end NetProg.BigFs
