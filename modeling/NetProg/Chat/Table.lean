import Mathlib.Data.List.Nodup
import Mathlib.Data.List.Induction
import NetProg.Chat.Courses

/-!
# What the table says of the messages

`tableOf msgs` is what the messages that have been received make of an empty table: the first hundred courses, in the order
in which they were first named, each with the flags of its messages.

* `recvMessages_eq`: the receiver keeps exactly this table;
* `table_faithful`: what it holds, slot for slot, and what the menu finds in it.
-/

namespace NetProg.Chat

open NetProg.Lib

/-- The course that a message names. -/
def word (msg : CStr) : CStr := (strtok space msg).getD (lit "")

/-- The message is a question, not an answer. -/
def IsQuestion (msg : CStr) : Prop := msg.bytes.getLast? = some questionMark

instance (msg : CStr) : Decidable (IsQuestion msg) := by
  unfold IsQuestion
  infer_instance

/-- A message that names a course whose name fits its field. -/
structure WellFormed (msg : CStr) : Prop where
  nonblank : ∃ b ∈ msg.bytes, b ≠ space
  short : (word msg).bytes.length < nameSize

/-- The courses that have been named, in the order in which they were first. -/
def named (msgs : List CStr) : List CStr := (msgs.map word).eraseDups

/-- Those that the table has room for. -/
def courses (msgs : List CStr) : List CStr := (named msgs).take NO_OF_COURSES

/-- The entry of a course. -/
def entry (msgs : List CStr) (name : CStr) : Course where
  name := name
  recv := if ∃ m ∈ msgs, word m = name ∧ ¬ IsQuestion m then 1 else 0
  send := if ∃ m ∈ msgs, word m = name ∧ IsQuestion m then 1 else 0

@[simp] theorem entry_name (msgs : List CStr) (name : CStr) : (entry msgs name).name = name := rfl

def tableOf (msgs : List CStr) : Table := fun i =>
  match (courses msgs)[i]? with
  | some name => entry msgs name
  | none => ⟨lit "", 0, 0⟩

/-- What a message does to its course. -/
def mark (msg : CStr) : Course → Course := if IsQuestion msg then setSend else setRecv

variable {msgs : List CStr} {msg name : CStr} {i : ℕ}

/-! ### One more message -/

section Message

theorem eraseDups_concat {α : Type} [DecidableEq α] (l : List α) (a : α) :
    (l ++ [a]).eraseDups = l.eraseDups ++ if a ∈ l then [] else [a] := by
  rw [List.eraseDups_append]
  by_cases h : a ∈ l <;> simp [List.removeAll, h, List.eraseDups_cons]

theorem named_append : named (msgs ++ [msg]) = named msgs ++ if word msg ∈ named msgs then [] else [word msg] := by
  rw [named, List.map_append, List.map_singleton, eraseDups_concat]
  simp only [named, List.mem_eraseDups]

theorem nodup_named : (named msgs).Nodup := by
  induction msgs using List.reverseRecOn with
  | nil => exact List.nodup_nil
  | append_singleton msgs m ih =>
    rw [named_append]
    split
    · simpa using ih
    · next h =>
      rw [List.nodup_append]
      refine ⟨ih, List.nodup_singleton _, fun a ha b hb => ?_⟩
      rintro rfl
      exact h (List.mem_singleton.1 hb ▸ ha)

theorem nodup_courses : (courses msgs).Nodup := nodup_named.sublist (List.take_sublist _ _)

/-- A course that is already in the table, or for which there is no room, changes nothing. -/
theorem courses_append_of_full (h : word msg ∈ named msgs ∨ NO_OF_COURSES ≤ (named msgs).length) :
    courses (msgs ++ [msg]) = courses msgs := by
  rw [courses, named_append]
  split
  · rw [List.append_nil, courses]
  · next hn => rw [List.take_append_of_le_length (h.resolve_left hn), courses]

theorem courses_append_of_new (h : word msg ∉ named msgs) (hlen : (named msgs).length < NO_OF_COURSES) :
    courses (msgs ++ [msg]) = courses msgs ++ [word msg] := by
  rw [courses, named_append, if_neg h, courses, List.take_of_length_le (Nat.le_of_lt hlen), List.take_of_length_le]
  rw [List.length_append, List.length_singleton]
  exact hlen

/-- A message sets the flag of the course that it names. -/
theorem entry_append : entry (msgs ++ [msg]) name =
    if word msg = name then mark msg (entry msgs name) else entry msgs name := by
  by_cases hw : word msg = name
  · by_cases hq : IsQuestion msg <;> simp [entry, mark, setSend, setRecv, hw, hq, or_and_right, exists_or]
  · simp [entry, hw, or_and_right, exists_or]

theorem entry_append_of_ne (h : word msg ≠ name) : entry (msgs ++ [msg]) name = entry msgs name := by
  rw [entry_append, if_neg h]

theorem entry_of_not_named (h : name ∉ named msgs) : entry msgs name = ⟨name, 0, 0⟩ := by
  have hno : ∀ m ∈ msgs, word m ≠ name := fun m hm he =>
    h (List.mem_eraseDups.2 (List.mem_map.2 ⟨m, hm, he⟩))
  have hnone {p : CStr → Prop} : ¬ ∃ m ∈ msgs, word m = name ∧ p m := fun ⟨m, hm, he, _⟩ => hno m hm he
  simp only [entry, if_neg hnone]

end Message

/-! ### The slots -/

section Slots

theorem tableOf_of_lt (h : i < (courses msgs).length) : tableOf msgs i = entry msgs (courses msgs)[i] := by
  rw [tableOf, List.getElem?_eq_getElem h]

theorem tableOf_of_le (h : (courses msgs).length ≤ i) : tableOf msgs i = ⟨lit "", 0, 0⟩ := by
  rw [tableOf, List.getElem?_eq_none h]

theorem length_courses_le (msgs : List CStr) : (courses msgs).length ≤ NO_OF_COURSES := List.length_take_le _ _

theorem WellFormed.strtok_eq (h : WellFormed msg) : strtok space msg = some (word msg) := by
  cases hs : strtok space msg with
  | none =>
    obtain ⟨b, hb, hne⟩ := h.nonblank
    exact absurd (strtok_eq_none_iff.1 hs b hb) hne
  | some w => rw [word, hs, Option.getD_some]

theorem WellFormed.word_ne (h : WellFormed msg) : word msg ≠ lit "" := fun he =>
  strtok_ne_empty h.strtok_eq (eq_empty_iff.1 he)

theorem ne_empty_of_mem (hmsgs : ∀ m ∈ msgs, WellFormed m) (h : name ∈ courses msgs) : name ≠ lit "" := by
  obtain ⟨m, hm, rfl⟩ := List.mem_map.1 (List.mem_eraseDups.1 (List.mem_of_mem_take h))
  exact (hmsgs m hm).word_ne

/-- A slot is free if and only if it is behind the courses. -/
theorem name_tableOf_eq_empty_iff (hmsgs : ∀ m ∈ msgs, WellFormed m) :
    (tableOf msgs i).name = lit "" ↔ (courses msgs).length ≤ i := by
  refine ⟨fun h => ?_, fun h => by rw [tableOf_of_le h]⟩
  by_contra hlt
  rw [tableOf_of_lt (not_le.1 hlt)] at h
  exact ne_empty_of_mem hmsgs (List.getElem_mem _) h

/-- The loops pass the slot of another course. -/
theorem not_stops (hmsgs : ∀ m ∈ msgs, WellFormed m) (hi : i < (courses msgs).length) (hne : (courses msgs)[i] ≠ name) :
    ¬ ((tableOf msgs i).name = lit "" ∨ (tableOf msgs i).name = name) := by
  rw [name_tableOf_eq_empty_iff hmsgs, tableOf_of_lt hi, entry_name, not_or]
  exact ⟨not_le.2 hi, hne⟩

/-- A message leaves the slots of other courses as they are, and those that stay free. -/
theorem tableOf_append_of_ne (hslot : (courses (msgs ++ [msg]))[i]? = (courses msgs)[i]?)
    (hne : (courses msgs)[i]? ≠ some (word msg)) : tableOf (msgs ++ [msg]) i = tableOf msgs i := by
  rw [tableOf, tableOf, hslot]
  cases hi : (courses msgs)[i]? with
  | none => rfl
  | some name => exact entry_append_of_ne fun he => hne (by rw [hi, he])

end Slots

/-! ### What a message does to the table -/

section Receiver

variable {set : Course → Course}

/-- The first slot where the loop stops is the one that is changed. -/
theorem note_of_stops {data : Table} (hi : i < NO_OF_COURSES) (hstop : (data i).name = lit "" ∨ (data i).name = name)
    (hpass : ∀ j < i, ¬ ((data j).name = lit "" ∨ (data j).name = name)) : note set data name =
      Function.update data i (set (if (data i).name = lit "" then { data i with name := name } else data i)) := by
  have hfind : (List.range' 0 NO_OF_COURSES).find? (fun j => (data j).name = lit "" ∨ (data j).name = name) = some i := by
    rw [List.find?_range'_eq_some]
    refine ⟨decide_eq_true hstop, by simpa using hi, fun j _ hj => ?_⟩
    rw [decide_eq_false (hpass j hj), Bool.not_false]
  rw [note, courseLoop_eq, hfind]
  dsimp only
  by_cases hfree : (data i).name = lit ""
  · rw [if_pos hfree, if_pos hfree]
  · rw [if_neg hfree, if_neg hfree]

/-- Where the loop stops nowhere, nothing is changed. -/
theorem note_of_passes {data : Table}
    (hpass : ∀ j < NO_OF_COURSES, ¬ ((data j).name = lit "" ∨ (data j).name = name)) : note set data name = data := by
  have hfind : (List.range' 0 NO_OF_COURSES).find? (fun j => (data j).name = lit "" ∨ (data j).name = name) = none := by
    rw [List.find?_range'_eq_none]
    intro j _ hj
    rw [decide_eq_false (hpass j (by omega)), Bool.not_false]
  rw [note, courseLoop_eq, hfind]

/-- A course that is in the table has its flag set. -/
theorem note_of_mem (hmsgs : ∀ m ∈ msgs, WellFormed m) (hi : i < (courses msgs).length) :
    note set (tableOf msgs) (courses msgs)[i] =
      Function.update (tableOf msgs) i (set (entry msgs (courses msgs)[i])) := by
  have hle := length_courses_le msgs
  have hslot := tableOf_of_lt hi
  have hname : (entry msgs (courses msgs)[i]).name ≠ lit "" := ne_empty_of_mem hmsgs (List.getElem_mem hi)
  have hpass : ∀ j < i, ¬ ((tableOf msgs j).name = lit "" ∨ (tableOf msgs j).name = (courses msgs)[i]) := fun j hj =>
    not_stops hmsgs (by omega) fun he => absurd ((List.Nodup.getElem_inj_iff nodup_courses).1 he) (by omega)
  rw [note_of_stops (by omega) (.inr (by rw [hslot, entry_name])) hpass, hslot, if_neg hname]

/-- A new course gets the first free slot. -/
theorem note_of_new (hmsgs : ∀ m ∈ msgs, WellFormed m) (h : name ∉ courses msgs)
    (hlt : (courses msgs).length < NO_OF_COURSES) : note set (tableOf msgs) name =
      Function.update (tableOf msgs) (courses msgs).length (set ⟨name, 0, 0⟩) := by
  have hslot := tableOf_of_le (le_refl (courses msgs).length)
  have hpass : ∀ j < (courses msgs).length, ¬ ((tableOf msgs j).name = lit "" ∨ (tableOf msgs j).name = name) :=
    fun j hj => not_stops hmsgs hj fun he => h (he ▸ List.getElem_mem hj)
  rw [note_of_stops hlt (.inl (by rw [hslot])) hpass, hslot, if_pos rfl]

/-- A full table stays as it is. -/
theorem note_of_full (hmsgs : ∀ m ∈ msgs, WellFormed m) (h : name ∉ courses msgs)
    (hfull : (courses msgs).length = NO_OF_COURSES) : note set (tableOf msgs) name = tableOf msgs :=
  note_of_passes fun j hj =>
    have hlt : j < (courses msgs).length := hfull ▸ hj
    not_stops hmsgs hlt fun he => h (he ▸ List.getElem_mem hlt)

/-- **One message**: the table is again the one of all messages. -/
theorem note_word (hmsgs : ∀ m ∈ msgs, WellFormed m) :
    note (mark msg) (tableOf msgs) (word msg) = tableOf (msgs ++ [msg]) := by
  by_cases hmem : word msg ∈ courses msgs
  · -- the course has a slot
    obtain ⟨k, hk, hword⟩ := List.getElem_of_mem hmem
    have hcourses : courses (msgs ++ [msg]) = courses msgs :=
      courses_append_of_full (.inl (List.mem_of_mem_take hmem))
    rw [← hword, note_of_mem hmsgs hk, hword]
    funext i
    by_cases hik : i = k
    · subst hik
      rw [Function.update_self, tableOf_of_lt (by rwa [hcourses])]
      simp only [hcourses, hword, entry_append, if_true]
    · rw [Function.update_of_ne hik, tableOf_append_of_ne (by rw [hcourses])]
      intro he
      obtain ⟨hi, he⟩ := List.getElem?_eq_some_iff.1 he
      exact hik ((List.Nodup.getElem_inj_iff nodup_courses).1 (he.trans hword.symm))
  have hother (i : ℕ) : (courses msgs)[i]? ≠ some (word msg) := fun he => hmem (List.mem_of_getElem? he)
  by_cases hlt : (courses msgs).length < NO_OF_COURSES
  · -- the course gets the first free slot
    have hlen : (named msgs).length < NO_OF_COURSES := by
      rw [courses, List.length_take] at hlt
      omega
    have hnew : word msg ∉ named msgs := by
      rwa [courses, List.take_of_length_le (Nat.le_of_lt hlen)] at hmem
    have hcourses := courses_append_of_new hnew hlen
    rw [note_of_new hmsgs hmem hlt]
    funext i
    by_cases hik : i = (courses msgs).length
    · subst hik
      rw [Function.update_self, tableOf_of_lt (by simp [hcourses])]
      simp [hcourses, entry_append, entry_of_not_named hnew]
    · rw [Function.update_of_ne hik, tableOf_append_of_ne _ (hother i)]
      rw [hcourses, List.getElem?_append, List.getElem?_singleton]
      split
      · rfl
      · next hi => rw [if_neg (by omega), List.getElem?_eq_none (not_lt.1 hi)]
  · -- there is no room for the course
    have hfull : (courses msgs).length = NO_OF_COURSES := le_antisymm (length_courses_le msgs) (not_lt.1 hlt)
    have hcourses : courses (msgs ++ [msg]) = courses msgs := by
      refine courses_append_of_full (.inr ?_)
      rw [courses, List.length_take] at hfull
      omega
    rw [note_of_full hmsgs hmem hfull]
    funext i
    rw [tableOf_append_of_ne (by rw [hcourses]) (hother i)]

theorem recvMessage_tableOf (hmsgs : ∀ m ∈ msgs, WellFormed m) (hm : WellFormed msg) :
    recvMessage (tableOf msgs) msg = .ok (tableOf (msgs ++ [msg])) := by
  have hcopy : strcpyName (strtok space msg) = .ok (word msg) := by
    rw [hm.strtok_eq, strcpyName, if_pos hm.short]
  rw [← note_word hmsgs, recvMessage, hcopy]
  cases hlast : msg.bytes.getLast? with
  | none =>
    obtain ⟨b, hb, -⟩ := hm.nonblank
    rw [List.getLast?_eq_none_iff.1 hlast] at hb
    cases hb
  | some b =>
    have hq : IsQuestion msg ↔ b = questionMark := by rw [IsQuestion, hlast, Option.some.injEq]
    by_cases h : b = questionMark <;> simp [h, hq, mark, Except.map]

/-- **The receiver** makes of an empty table the one of its messages. -/
theorem recvMessages_eq (hmsgs : ∀ m ∈ msgs, WellFormed m) : recvMessages zeroed msgs = .ok (tableOf msgs) := by
  induction msgs using List.reverseRecOn with
  | nil => rfl
  | append_singleton msgs msg ih =>
    have hm : WellFormed msg := hmsgs msg (by simp)
    have hinit : ∀ m ∈ msgs, WellFormed m := fun m hm => hmsgs m (List.mem_append_left _ hm)
    rw [recvMessages, List.foldlM_append, ← recvMessages, ih hinit]
    simp only [List.foldlM_cons, List.foldlM_nil, bind, Except.bind, recvMessage_tableOf hinit hm]
    rfl

end Receiver

/-! ### What the menu finds -/

/-- The flag of a course that is in the table. -/
theorem lookup_tableOf {field : Course → ℤ} (hmsgs : ∀ m ∈ msgs, WellFormed m) (h : name ∈ courses msgs) :
    lookup field (tableOf msgs) name NO_OF_COURSES 0 = true ↔ field (entry msgs name) = 1 := by
  obtain ⟨k, hk, rfl⟩ := List.getElem_of_mem h
  have hslot := tableOf_of_lt hk
  rw [lookup_eq]
  cases hfind : (List.range' 0 NO_OF_COURSES).find? fun j => (tableOf msgs j).name = lit "" ∨
      ((tableOf msgs j).name = (courses msgs)[k] ∧ field (tableOf msgs j) = 1) with
  | none =>
    -- the loop has passed the course
    have hle := length_courses_le msgs
    have hpass := List.find?_range'_eq_none.1 hfind k (Nat.zero_le k) (by omega)
    have hno : ¬ field (entry msgs (courses msgs)[k]) = 1 := fun h1 => by simp [hslot, h1] at hpass
    simp [hno]
  | some j =>
    obtain ⟨hstop, -, hpass⟩ := List.find?_range'_eq_some.1 hfind
    by_cases hj : (courses msgs).length ≤ j
    · -- it has come to a free slot behind the course
      have hno : ¬ field (entry msgs (courses msgs)[k]) = 1 := fun h1 => by
        have := hpass k (Nat.zero_le k) (by omega)
        simp [hslot, h1] at this
      simp [hno, (name_tableOf_eq_empty_iff hmsgs).2 hj]
    · have hfull : ¬ (tableOf msgs j).name = lit "" := by rwa [name_tableOf_eq_empty_iff hmsgs]
      obtain ⟨hname, h1⟩ : (tableOf msgs j).name = (courses msgs)[k] ∧ field (tableOf msgs j) = 1 := by
        simpa [hfull] using hstop
      rw [tableOf_of_lt (not_le.1 hj)] at hname h1
      have hcourse : (courses msgs)[j] = (courses msgs)[k] := hname
      rw [hcourse] at h1
      simp [hfull, h1]

/-- **The table is faithful.**  Its slots hold the first hundred courses in the order in which they were first named, each
once, with `send` set if there was a question about the course, and `recv` if there was an answer; all other slots are
empty.  So the menu finds out, for a course in the table, whether there was an answer or a question. -/
theorem table_faithful (hmsgs : ∀ m ∈ msgs, WellFormed m) : ∃ data, recvMessages zeroed msgs = .ok data ∧
    (courses msgs).Nodup ∧ (courses msgs).length = min NO_OF_COURSES (named msgs).length ∧
    (∀ i, (h : i < (courses msgs).length) → (data i).name = (courses msgs)[i] ∧ (data i).name ≠ lit "" ∧
      (data i).send = (if ∃ m ∈ msgs, word m = (data i).name ∧ IsQuestion m then 1 else 0) ∧
      (data i).recv = (if ∃ m ∈ msgs, word m = (data i).name ∧ ¬ IsQuestion m then 1 else 0)) ∧
    (∀ i, (courses msgs).length ≤ i → data i = ⟨lit "", 0, 0⟩) ∧
    ∀ name ∈ courses msgs,
      (alreadySent data name ↔ ∃ m ∈ msgs, word m = name ∧ ¬ IsQuestion m) ∧
      (hasBeenAsked data name ↔ ∃ m ∈ msgs, word m = name ∧ IsQuestion m) := by
  refine ⟨tableOf msgs, recvMessages_eq hmsgs, nodup_courses, List.length_take, fun i h => ?_, fun i h => tableOf_of_le h,
    fun name h => ?_⟩
  · rw [tableOf_of_lt h]
    exact ⟨rfl, ne_empty_of_mem hmsgs (List.getElem_mem h), rfl, rfl⟩
  · rw [alreadySent, hasBeenAsked, lookup_tableOf hmsgs h, lookup_tableOf hmsgs h]
    simp [entry]

/-- Three messages about two courses. -/
theorem table_faithful_three : ∃ data, recvMessages zeroed [lit "os test date?", lit "db 12", lit "os 9"] = .ok data ∧
    (data 0).name = lit "os" ∧ (data 1).name = lit "db" ∧ alreadySent data (lit "os") ∧ ¬ hasBeenAsked data (lit "db") := by
  have hcourses : courses [lit "os test date?", lit "db 12", lit "os 9"] = [lit "os", lit "db"] := by decide
  have hmsgs : ∀ m ∈ [lit "os test date?", lit "db 12", lit "os 9"], WellFormed m := by
    simp only [List.mem_cons, List.not_mem_nil, or_false]
    rintro m (rfl | rfl | rfl) <;> exact ⟨by decide, by decide⟩
  obtain ⟨data, hrecv, -, -, hslots, -, hmenu⟩ := table_faithful hmsgs
  have hlen : (courses [lit "os test date?", lit "db 12", lit "os 9"]).length = 2 := by rw [hcourses]; rfl
  have h0 := (hslots 0 (by omega)).1
  have h1 := (hslots 1 (by omega)).1
  simp only [hcourses] at h0 h1 hmenu
  refine ⟨data, hrecv, h0, h1, (hmenu (lit "os") (by simp)).1.2 ?_, fun hasked => ?_⟩
  · exact ⟨lit "os 9", by simp, by decide, by decide⟩
  · have hno : ¬ ∃ m ∈ [lit "os test date?", lit "db 12", lit "os 9"], word m = lit "db" ∧ IsQuestion m := by decide
    exact hno ((hmenu (lit "db") (by simp)).2.1 hasked)

end NetProg.Chat
