import NetProg.Chat.Table
import NetProg.Lib.Decimal
import Mathlib.Data.Bool.AllAny
import Mathlib.Data.Nat.Find

/-!
# The messages of the multicast chat

What the two entries of the menu send, as text that the receiver takes apart again: the course is the first word, and a
question mark at the end makes it a question.

`classified_iff`: a question is always taken for one, and an answer unless it ends in a question mark itself.
-/

namespace NetProg.Chat

open NetProg.Lib

/-- The sizes of `msg` and of `ans`. -/
def msgSize : ℕ := 100
def ansSize : ℕ := 20

/-- `strcpy(msg, ..)` and `strcat(msg, ..)` -/
def strcatMsg (msg s : CStr) : Except Fault CStr :=
  if (msg.cat s).z.length ≤ msgSize then .ok (msg.cat s) else .error .overflow

/-- The message of the first entry. -/
def ask (name : Word nameSize) : Except Fault CStr := do
  let msg ← strcatMsg (lit "") name.str
  strcatMsg msg (lit " test date?")

/-- The message of the second entry. -/
def tell (name : Word nameSize) (ans : Word ansSize) : Except Fault CStr := do
  let msg ← strcatMsg (lit "") name.str
  let msg ← strcatMsg msg (lit " ")
  strcatMsg msg ans.str

/-- The array that is sent: behind the NUL are bytes of earlier messages. -/
def datagram (old : List Byte) (msg : CStr) : List Byte := msg.z ++ old.drop msg.z.length

/-- The receiver takes the message for one about that course and sets its flag, whatever the table holds: no other course is
touched. -/
def NotedAs (set : Course → Course) (name msg : CStr) : Prop :=
  ∀ data old, recvMessage data (CStr.ofBytes (datagram old msg)) = .ok (note set data name) ∧
    ∀ i, note set data name i ≠ data i → (note set data name i).name = name

section Messages

variable {size : ℕ} {name : Word nameSize} {ans : Word ansSize} {msg s : CStr} {data : Table} {set : Course → Course}

theorem space_not_mem (w : Word size) : space ∉ w.str.bytes := by
  intro h
  have hsolid := w.solid space h
  exact absurd hsolid (by decide)

theorem strcatMsg_of_lt (h : msg.bytes.length + s.bytes.length < msgSize) : strcatMsg msg s = .ok (msg.cat s) := by
  apply if_pos
  rw [CStr.z, CStr.cat, List.length_append, List.length_append, List.length_singleton]
  omega

/-! ### What is sent -/

/-- A message begins with the course. -/
theorem strcpy_course (name : Word nameSize) : strcatMsg (lit "") name.str = .ok name.str := by
  have hname : name.str.bytes.length < 50 := name.short
  have hempty : (lit "").cat name.str = name.str := rfl
  rw [strcatMsg_of_lt, hempty]
  show 0 + name.str.bytes.length < 100
  omega

/-- A question fits `msg`. -/
theorem ask_eq (name : Word nameSize) : ask name = .ok (name.str.cat (lit " test date?")) := by
  have hname : name.str.bytes.length < 50 := name.short
  have hlit : (lit " test date?").bytes.length = 11 := by decide
  have hcat : strcatMsg name.str (lit " test date?") = .ok (name.str.cat (lit " test date?")) := by
    apply strcatMsg_of_lt
    rw [hlit]
    show _ < 100
    omega
  rw [ask, strcpy_course]
  exact hcat

/-- And so does an answer. -/
theorem tell_eq (name : Word nameSize) (ans : Word ansSize) :
    tell name ans = .ok ((name.str.cat (lit " ")).cat ans.str) := by
  have hname : name.str.bytes.length < 50 := name.short
  have hans : ans.str.bytes.length < 20 := ans.short
  have hlen : (name.str.cat (lit " ")).bytes.length = name.str.bytes.length + 1 := List.length_append
  have hblank : strcatMsg name.str (lit " ") = .ok (name.str.cat (lit " ")) := by
    apply strcatMsg_of_lt
    show name.str.bytes.length + 1 < 100
    omega
  have hcat : strcatMsg (name.str.cat (lit " ")) ans.str = .ok ((name.str.cat (lit " ")).cat ans.str) := by
    apply strcatMsg_of_lt
    rw [hlen]
    show _ < 100
    omega
  rw [tell, strcpy_course]
  show (strcatMsg name.str (lit " ") >>= fun msg => strcatMsg msg ans.str) = _
  rw [hblank]
  exact hcat

/-! ### What the receiver makes of it -/

/-- The course is the first word of the message. -/
theorem strtok_word (name : Word nameSize) {r : List Byte} (h : msg.bytes = name.str.bytes ++ space :: r) :
    strtok space msg = some name.str := by
  have hspace : ∀ b ∈ name.str.bytes, b ≠ space := fun b hb he => space_not_mem name (he ▸ hb)
  have hdrop : msg.bytes.dropWhile (· = space) = name.str.bytes ++ space :: r := by
    rw [h]
    obtain ⟨b, l, hl⟩ := List.exists_cons_of_ne_nil name.nonempty
    rw [hl, List.cons_append, List.dropWhile_cons_of_neg]
    simpa using hspace b (by rw [hl]; exact List.mem_cons_self)
  have htake : (name.str.bytes ++ space :: r).takeWhile (· ≠ space) = name.str.bytes := by
    rw [List.takeWhile_append_of_pos, List.takeWhile_cons_of_neg, List.append_nil]
    · simp
    · intro b hb
      simpa using hspace b hb
  rw [strtok, if_neg]
  · refine congrArg some (CStr.ext ?_)
    show (msg.bytes.dropWhile (· = space)).takeWhile (· ≠ space) = name.str.bytes
    rw [hdrop, htake]
  · rw [hdrop]
    exact List.append_ne_nil_of_left_ne_nil name.nonempty _

/-- A slot that a message changes bears the name of its course. -/
theorem name_of_note_ne (hset : ∀ c, (set c).name = c.name) {i : ℕ}
    (hne : note set data name.str i ≠ data i) : (note set data name.str i).name = name.str := by
  by_cases hstop : ∃ j, j < NO_OF_COURSES ∧ ((data j).name = lit "" ∨ (data j).name = name.str)
  · -- the first slot where the loop stops is the only one that is changed
    obtain ⟨hlt, hj⟩ := Nat.find_spec hstop
    have hpass : ∀ k < Nat.find hstop, ¬ ((data k).name = lit "" ∨ (data k).name = name.str) := by
      intro k hk hk'
      exact Nat.find_min hstop hk ⟨by omega, hk'⟩
    rw [note_of_stops hlt hj hpass] at hne ⊢
    by_cases hi : i = Nat.find hstop
    · rw [hi, Function.update_self, hset]
      split
      · rfl
      · next hfree => exact hj.resolve_left hfree
    · rw [Function.update_of_ne hi] at hne
      exact absurd rfl hne
  · rw [note_of_passes fun j hj hj' => hstop ⟨j, hj, hj'⟩] at hne
    exact absurd rfl hne

/-- The receiver goes by the last character. -/
theorem recvMessage_eq {r : List Byte} {b : Byte} (hword : msg.bytes = name.str.bytes ++ space :: r)
    (hlast : msg.bytes.getLast? = some b) :
    recvMessage data msg = .ok (note (if b = questionMark then setSend else setRecv) data name.str) := by
  have hcpy : strcpyName (strtok space msg) = .ok name.str := by
    rw [strtok_word name hword]
    exact if_pos name.short
  rw [recvMessage, hlast, hcpy]
  by_cases hb : b = questionMark
  · simp [hb, Except.map]
  · simp [hb, Except.map]

theorem notedAs_of_last {r : List Byte} {b : Byte} (hword : msg.bytes = name.str.bytes ++ space :: r)
    (hlast : msg.bytes.getLast? = some b) : NotedAs (if b = questionMark then setSend else setRecv) name.str msg := by
  intro data old
  rw [datagram, CStr.ofBytes_z_append]
  refine ⟨recvMessage_eq hword hlast, fun i => name_of_note_ne fun c => ?_⟩
  split <;> rfl

/-- Nothing is taken for both. -/
theorem not_notedAs_both (hsend : NotedAs setSend name.str msg) : ¬ NotedAs setRecv name.str msg := by
  intro hrecv
  have he := Except.ok.inj ((hsend zeroed []).1.symm.trans (hrecv zeroed []).1)
  have hpass : ∀ j < 0, ¬ ((zeroed j).name = lit "" ∨ (zeroed j).name = name.str) := fun j hj => absurd hj (Nat.not_lt_zero j)
  rw [note_of_stops (by decide) (.inl rfl) hpass, note_of_stops (by decide) (.inl rfl) hpass] at he
  have hslot := congrArg Course.send (congrFun he 0)
  have hfree : (zeroed 0).name = lit "" := rfl
  rw [Function.update_self, Function.update_self, if_pos hfree] at hslot
  have hflag : (1 : ℤ) = 0 := hslot
  exact absurd hflag (by decide)

/-- What an answer is noted as depends on how its word ends. -/
theorem notedAs_tell (name : Word nameSize) {ans : Word ansSize} {b : Byte} (hb : ans.str.bytes.getLast? = some b) :
    NotedAs (if b = questionMark then setSend else setRecv) name.str ((name.str.cat (lit " ")).cat ans.str) := by
  have htext : ((name.str.cat (lit " ")).cat ans.str).bytes = name.str.bytes ++ space :: ans.str.bytes := by
    show name.str.bytes ++ [space] ++ ans.str.bytes = _
    rw [List.append_assoc, List.singleton_append]
  have hlast : ((name.str.cat (lit " ")).cat ans.str).bytes.getLast? = some b := by
    show (_ ++ ans.str.bytes).getLast? = _
    rw [List.getLast?_append, hb]
    rfl
  exact notedAs_of_last htext hlast

/-- **How the messages are taken.**  A question about a course is always noted as a question about it; an answer is noted as
an answer if and only if its word does not end in a question mark. -/
theorem classified_iff (name : Word nameSize) (ans : Word ansSize) :
    (∃ msg, ask name = .ok msg ∧ NotedAs setSend name.str msg) ∧
    ((∃ msg, tell name ans = .ok msg ∧ NotedAs setRecv name.str msg) ↔
      ans.str.bytes.getLast? ≠ some questionMark) := by
  have hnoted := notedAs_tell name (List.getLast?_eq_some_getLast ans.nonempty)
  rw [List.getLast?_eq_some_getLast ans.nonempty, ne_eq, Option.some.injEq]
  refine ⟨⟨_, ask_eq name, ?_⟩, ?_, ?_⟩
  · have hq : (name.str.cat (lit " test date?")).bytes.getLast? = some questionMark := by
      show (name.str.bytes ++ _).getLast? = _
      rw [List.getLast?_append]
      rfl
    have hword : (name.str.cat (lit " test date?")).bytes = name.str.bytes ++ space :: (lit "test date?").bytes := rfl
    have hask := notedAs_of_last hword hq
    rwa [if_pos rfl] at hask
  · rintro ⟨msg, htell, hrecv⟩ hmark
    obtain rfl := Except.ok.inj ((tell_eq name ans).symm.trans htell)
    rw [if_pos hmark] at hnoted
    exact not_notedAs_both hnoted hrecv
  · intro hmark
    rw [if_neg hmark] at hnoted
    exact ⟨_, tell_eq name ans, hnoted⟩

/-- An answer with a question mark is taken for a question. -/
theorem answer_as_question : ¬ ∀ (name : Word nameSize) (ans : Word ansSize),
    (∃ msg, ask name = .ok msg ∧ NotedAs setSend name.str msg) ∧
    (∃ msg, tell name ans = .ok msg ∧ NotedAs setRecv name.str msg) := by
  intro h
  let os : Word nameSize := ⟨lit "os", by decide, List.all_iff_forall_prop.1 (by decide), by decide⟩
  let monday : Word ansSize := ⟨lit "monday?", by decide, List.all_iff_forall_prop.1 (by decide), by decide⟩
  obtain ⟨-, msg, htell, hrecv⟩ := h os monday
  obtain rfl := Except.ok.inj ((tell_eq os monday).symm.trans htell)
  have hnoted := notedAs_tell os (show monday.str.bytes.getLast? = some questionMark by decide)
  rw [if_pos rfl] at hnoted
  exact not_notedAs_both hnoted hrecv

end Messages

end NetProg.Chat
