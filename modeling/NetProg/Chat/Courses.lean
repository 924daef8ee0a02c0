import Mathlib.Logic.Function.Basic
import NetProg.Lib.CString

/-!
# The courses of the multicast chat

The table of `multicast_chat_client.c` that one process keeps and the other one looks into.  The process that receives
messages has the same loop twice, for questions and for answers, and the menu another loop twice; each is one definition
here, with the flag of a course that it sets or reads.
-/

namespace NetProg.Chat

open NetProg.Lib

def NO_OF_COURSES : ℕ := 100

/-- The size of the field for the name. -/
def nameSize : ℕ := 50

structure Course where
  name : CStr
  recv : ℤ
  send : ℤ
  deriving DecidableEq

/-- The shared memory `data`. -/
abbrev Table := ℕ → Course

/-- A segment that has just been made. -/
def zeroed : Table := fun _ => ⟨lit "", 0, 0⟩

/-- What ends the receiver: a character before the message, a message without a word, or a name that is too long. -/
inductive Fault where
  | bounds
  | null
  | overflow
  deriving DecidableEq

def space : Byte := 32
def questionMark : Byte := 63

/-! ### The receiver -/

/-- The loop over the courses: `pos`, and the table, where the flag of a course of this name has been set.  The first
argument bounds the rounds. -/
def courseLoop (set : Course → Course) (name : CStr) : ℕ → ℕ → Table → Option ℕ × Table
  | 0, _, data => (none, data)
  | fuel + 1, i, data =>
    if (data i).name = lit "" then (some i, data)
    else if (data i).name = name then (none, Function.update data i (set (data i)))
    else courseLoop set name fuel (i + 1) data

/-- The loop and what is done at `pos`. -/
def note (set : Course → Course) (data : Table) (name : CStr) : Table :=
  match courseLoop set name NO_OF_COURSES 0 data with
  | (some pos, data) => Function.update data pos (set { data pos with name := name })
  | (none, data) => data

def setSend (c : Course) : Course := { c with send := 1 }
def setRecv (c : Course) : Course := { c with recv := 1 }

/-- `strcpy(name, ..)` of a word that may be `NULL`. -/
def strcpyName : Option CStr → Except Fault CStr
  | none => .error .null
  | some s => if s.bytes.length < nameSize then .ok s else .error .overflow

/-- What is done with a message. -/
def recvMessage (data : Table) (msg : CStr) : Except Fault Table :=
  match msg.bytes.getLast? with
  | none => .error .bounds
  | some b =>
    if b = questionMark then (strcpyName (strtok space msg)).map (note setSend data)
    else (strcpyName (strtok space msg)).map (note setRecv data)

/-- The loop of the receiver over the messages that arrive. -/
def recvMessages (data : Table) (msgs : List CStr) : Except Fault Table := msgs.foldlM recvMessage data

/-! ### The menu -/

/-- The loop that sets `flag`. -/
def lookup (field : Course → ℤ) (data : Table) (name : CStr) : ℕ → ℕ → Bool
  | 0, _ => false
  | fuel + 1, i =>
    if (data i).name = lit "" then false
    else if (data i).name = name ∧ field (data i) = 1 then true
    else lookup field data name fuel (i + 1)

/-- Somebody has already sent the answer. -/
def alreadySent (data : Table) (name : CStr) : Bool := lookup Course.recv data name NO_OF_COURSES 0

/-- Somebody has asked for this course. -/
def hasBeenAsked (data : Table) (name : CStr) : Bool := lookup Course.send data name NO_OF_COURSES 0

/-! ### Where the loops stop -/

variable {set : Course → Course} {field : Course → ℤ} {data : Table} {name : CStr} {fuel i : ℕ}

/-- The receiver stops at a free slot, or at the name. -/
theorem courseLoop_eq : courseLoop set name fuel i data =
    match (List.range' i fuel).find? fun j => (data j).name = lit "" ∨ (data j).name = name with
    | none => (none, data)
    | some j => if (data j).name = lit "" then (some j, data) else (none, Function.update data j (set (data j))) := by
  induction fuel generalizing i with
  | zero => rfl
  | succ fuel ih =>
    rw [courseLoop, List.range'_succ, List.find?_cons]
    split
    · next h => simp [h]
    · next h =>
      split
      · next hn =>
        subst hn
        simp [h]
      · next hn => simp [hn, h, ih]

/-- The menu stops at a free slot, or where the flag of the name is set. -/
theorem lookup_eq : lookup field data name fuel i =
    match (List.range' i fuel).find? fun j => (data j).name = lit "" ∨ ((data j).name = name ∧ field (data j) = 1) with
    | none => false
    | some j => decide ((data j).name ≠ lit "") := by
  induction fuel generalizing i with
  | zero => rfl
  | succ fuel ih =>
    rw [lookup, List.range'_succ, List.find?_cons]
    split
    · next h => simp [h]
    · next h =>
      split
      · next hn =>
        obtain ⟨rfl, hf⟩ := hn
        simp [h, hf]
      · next hn => simp [hn, h, ih]

end NetProg.Chat
