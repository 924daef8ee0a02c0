import NetProg.DataServer.Transfers
import Mathlib.Data.List.Nodup
import Mathlib.Data.List.Perm.Subperm
import Mathlib.Data.Nat.Find

/-!
# Where a data server puts a file

A name that is taken is numbered: `firstFree s dir` is the first of `dir(0)`, `dir(1)`, … that is free, and `pick s dir`
is `dir` itself where it is free.  The search always ends (`freeName_eq_ok`).  With it each operation has a lemma that
says what it leaves of the files: `store_run`, `remove_run` and `copy_run`.
-/

namespace NetProg.DataServer

open NetProg.Lib NetProg.Receive

/-! ### Files by path -/

namespace Store

variable {s : Store} {p q : CStr} {b : List Byte}

@[simp] theorem get_put_self : (s.put p b).get p = some b := by simp [put, get]

theorem get_put_of_ne (h : q ≠ p) : (s.put p b).get q = s.get q := by
  simp [put, get, List.lookup_cons, beq_eq_false_iff_ne.2 h]

@[simp] theorem get_remove_self : (s.remove p).get p = none := by
  rw [remove, get, List.lookup_eq_none_iff]
  intro f hf
  have := (List.mem_filter.1 hf).2
  simpa using Ne.symm (by simpa using this)

theorem get_remove_of_ne (h : q ≠ p) : (s.remove p).get q = s.get q := by
  unfold remove get
  induction s with
  | nil => rfl
  | cons f s ih =>
    by_cases hf : f.1 = p
    · have hq : (q == f.1) = false := beq_eq_false_iff_ne.2 (hf ▸ h)
      rw [List.filter_cons_of_neg (by simpa using hf), ih, List.lookup_cons, hq]
    · rw [List.filter_cons_of_pos (by simpa using hf), List.lookup_cons, List.lookup_cons, ih]

theorem exists_iff : s.Exists p ↔ p ∈ s.map Prod.fst := by
  simp [Exists, get, List.lookup_isSome_iff]

theorem not_exists_iff : ¬ s.Exists p ↔ s.get p = none := by simp [Exists]

end Store

/-! ### Numbered names -/

theorem numbered_injective (dir : CStr) : Function.Injective (numbered dir) := by
  intro i j h
  have hb := congrArg CStr.bytes h
  simp only [numbered, CStr.cat, List.append_assoc, List.append_cancel_left_eq, List.append_cancel_right_eq] at hb
  exact decBytes_injective hb

/-- A numbered name ends with a bracket, and a chunk with a digit. -/
theorem numbered_ne_chunk (dir p : CStr) (n i : ℕ) : numbered dir n ≠ p.cat (decimal i) := by
  intro h
  have hb := congrArg CStr.bytes h
  have hl : (lit ")").bytes = [41] := by decide
  have hd := List.dropLast_append_getLast (decBytes_ne_nil i)
  simp only [numbered, CStr.cat, hl, decimal] at hb
  rw [← hd, ← List.append_assoc] at hb
  have hlast := List.append_inj_right' hb rfl
  have hdig := isDigit_of_mem_digits (List.getLast_mem (decBytes_ne_nil i))
  rw [← (List.cons.inj hlast).1] at hdig
  exact absurd hdig (by decide)

/-- The chunks of a numbered name are not those of the name. -/
theorem numbered_cat_ne (dir q : CStr) (n i : ℕ) : (numbered dir n).cat q ≠ dir.cat (decimal i) := by
  intro h
  have hb := congrArg CStr.bytes h
  have hl : (lit "(").bytes = [40] := by decide
  simp only [numbered, CStr.cat, List.append_assoc, List.append_cancel_left_eq, hl, decimal, List.singleton_append] at hb
  have hmem : (40 : Byte) ∈ decBytes i := by
    rw [← hb]
    exact List.mem_cons_self
  exact absurd (isDigit_of_mem_digits hmem) (by decide)

theorem cat_decimal_ne (p : CStr) (i : ℕ) : p.cat (decimal i) ≠ p := by
  intro h
  exact decBytes_ne_nil i (by simpa [CStr.cat, decimal] using congrArg CStr.bytes h)

theorem cat_decimal_injective (p : CStr) {i j : ℕ} (h : p.cat (decimal i) = p.cat (decimal j)) : i = j := by
  have := congrArg CStr.bytes h
  simp only [CStr.cat, List.append_cancel_left_eq] at this
  exact decBytes_injective this

/-- Among as many members of a sequence as a list has elements, and one more, one is not in the list. -/
theorem exists_not_mem {α : Type} {f : ℕ → α} (hf : Function.Injective f) (l : List α) : ∃ n ≤ l.length, f n ∉ l := by
  by_contra hn
  push Not at hn
  have hnd : ((List.range (l.length + 1)).map f).Nodup := List.nodup_range.map hf
  have hsub : (List.range (l.length + 1)).map f ⊆ l := by
    intro a ha
    obtain ⟨n, hn', rfl⟩ := List.mem_map.1 ha
    rw [List.mem_range] at hn'
    exact hn n (by omega)
  have hle := (hnd.subperm hsub).length_le
  rw [List.length_map, List.length_range] at hle
  omega

theorem freeName_eq_of_least {s : Store} {dir : CStr} {fuel i n : ℕ} (hi : i ≤ n) (hn : n < i + fuel)
    (hfree : ¬ s.Exists (numbered dir n)) (hleast : ∀ m < n, s.Exists (numbered dir m)) :
    freeName s dir fuel i = .ok (numbered dir n) := by
  induction fuel generalizing i with
  | zero => omega
  | succ fuel ih =>
    unfold freeName
    split
    · next he =>
      have hne : i ≠ n := by
        rintro rfl
        exact hfree he
      exact ih (by omega) (by omega)
    · next he =>
      have hin : i = n := by
        by_contra hne
        exact he (hleast i (by omega))
      rw [hin]

/-- The first of `dir(0)`, `dir(1)`, … that is free. -/
def firstFree (s : Store) (dir : CStr) : CStr := (freeName s dir (s.length + 1) 0).toOption.getD dir

section FirstFree

variable {s : Store} {dir : CStr}

theorem exists_firstFree (s : Store) (dir : CStr) : ∃ n ≤ s.length, ¬ s.Exists (numbered dir n) ∧
    (∀ m < n, s.Exists (numbered dir m)) ∧ freeName s dir (s.length + 1) 0 = .ok (numbered dir n) := by
  obtain ⟨n, hn, hfree⟩ := exists_not_mem (numbered_injective dir) (s.map Prod.fst)
  rw [List.length_map] at hn
  rw [← Store.exists_iff] at hfree
  have hex : ∃ n, ¬ s.Exists (numbered dir n) := ⟨n, hfree⟩
  have hle : Nat.find hex ≤ n := Nat.find_min' hex hfree
  have hleast : ∀ m < Nat.find hex, s.Exists (numbered dir m) := fun m hm => not_not.1 (Nat.find_min hex hm)
  exact ⟨Nat.find hex, by omega, Nat.find_spec hex, hleast,
    freeName_eq_of_least (Nat.zero_le _) (by omega) (Nat.find_spec hex) hleast⟩

/-- **The search for a free name ends.** -/
theorem freeName_eq_ok (s : Store) (dir : CStr) : freeName s dir (s.length + 1) 0 = .ok (firstFree s dir) := by
  obtain ⟨n, -, -, -, h⟩ := exists_firstFree s dir
  rw [firstFree, h]
  rfl

/-- It is the least number that gives a free name. -/
theorem firstFree_eq (s : Store) (dir : CStr) :
    ∃ n, firstFree s dir = numbered dir n ∧ ¬ s.Exists (numbered dir n) ∧ ∀ m < n, s.Exists (numbered dir m) := by
  obtain ⟨n, -, hfree, hleast, h⟩ := exists_firstFree s dir
  exact ⟨n, by rw [firstFree, h]; rfl, hfree, hleast⟩

theorem not_exists_firstFree : ¬ s.Exists (firstFree s dir) := by
  obtain ⟨n, h, hfree, -⟩ := firstFree_eq s dir
  rwa [h]

/-- The path under which `tobigfs` stores the first part that a server gets of a file. -/
def pick (s : Store) (dir : CStr) : CStr := if s.Exists dir then firstFree s dir else dir

theorem pick_of_not_exists (h : ¬ s.Exists dir) : pick s dir = dir := if_neg h

theorem not_exists_pick : ¬ s.Exists (pick s dir) := by
  unfold pick
  split
  · exact not_exists_firstFree
  · assumption

theorem pick_eq_self_iff : pick s dir = dir ↔ ¬ s.Exists dir := by
  constructor
  · intro h
    rw [← h]
    exact not_exists_pick
  · exact pick_of_not_exists

end FirstFree

/-! ### The operations -/

section Operations

variable {s : Store} {name count num chunks new : CStr}

/-- The path that `tobigfs` answers with. -/
def placed (s : Store) (name count : CStr) : CStr := if count = lit "0" then pick s (location name) else location name

/-- The files with a part stored behind `loc`, and the file that stands for `loc` emptied. -/
def storedAt (s : Store) (loc num : CStr) (block : List Byte) : Store := (s.put loc []).put (loc.cat num) block

/-- A part is stored behind the path that is answered. -/
theorem store_run {temp_buf : CStr} : (dispatch s (lit "tobigfs")).run [temp_buf, name, count, num] =
    ((placed s name count).z, .ret (storedAt s (placed s name count) num temp_buf.bytes), []) := by
  have hp : (if count = lit "0" ∧ s.Exists (location name) then freeName s (location name) (s.length + 1) 0
      else .ok (location name)) = .ok (placed s name count) := by
    unfold placed pick
    rw [freeName_eq_ok]
    split_ifs <;> simp_all
  unfold location at hp
  simp [dispatch, tobigfs, hp, reply, storedAt]

/-- A chunk is removed, and the file that stands for the name if there is one. -/
theorem remove_run : (dispatch s (lit "rm")).run [name, chunks] =
    ([], .ret ((s.remove name).remove (name.cat chunks)), []) := by
  have h1 : lit "rm" ≠ lit "tobigfs" := by decide
  have h2 : lit "rm" ≠ lit "cat" := by decide
  have hs : (if s.Exists name then s.remove name else s) = s.remove name := by
    split
    · rfl
    · next h =>
      rw [Store.exists_iff] at h
      refine (List.filter_eq_self.2 fun f hf => ?_).symm
      simpa using fun he : f.1 = name => h (he ▸ List.mem_map_of_mem hf)
  simp [dispatch, h1, h2, removefile, hs]

/-- What `copyfile` leaves of the files: the source is read behind both calls of `fopen`. -/
def copied (s : Store) (source new chunks : CStr) : Store :=
  ((s.put new []).put (new.cat chunks) []).put (new.cat chunks)
    (copyBytes ((((s.put new []).put (new.cat chunks) []).get source).getD []))

/-- The first chunk is copied behind a new name, which is answered. -/
theorem copy_run_first {b : List Byte} (h : s.get (name.cat (lit "0")) = some b) :
    (dispatch s (lit "cp")).run [name, lit "0"] = ((firstFree s name).z,
      .ret (copied s (name.cat (lit "0")) (firstFree s name) (lit "0")), []) := by
  have h1 : lit "cp" ≠ lit "tobigfs" := by decide
  have h2 : lit "cp" ≠ lit "cat" := by decide
  have h3 : lit "cp" ≠ lit "rm" := by decide
  simp [dispatch, h1, h2, h3, copyfile, freeName_eq_ok, reply, copyTo, h, copied]

/-- Every other one behind the name that is sent along. -/
theorem copy_run {b : List Byte} (hc : chunks ≠ lit "0") (h : s.get (name.cat chunks) = some b) :
    (dispatch s (lit "cp")).run [name, chunks, new] = ([], .ret (copied s (name.cat chunks) new chunks), []) := by
  have h1 : lit "cp" ≠ lit "tobigfs" := by decide
  have h2 : lit "cp" ≠ lit "cat" := by decide
  have h3 : lit "cp" ≠ lit "rm" := by decide
  simp [dispatch, h1, h2, h3, copyfile, hc, copyTo, h, copied]

end Operations

end NetProg.DataServer
