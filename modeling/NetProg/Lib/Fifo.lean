import NetProg.Lib.CString

/-!
# A queue of bytes read as strings

`Fifo` is a channel without a fault: bytes are put in at one end, a reader takes them out one by one at the other and
cuts them into strings at the NULs.  `passed` is everything that was ever put in, in order: `put` appends to it and
`take` leaves it as it is, so that the strings returned are the first ones of it.
-/

namespace NetProg.Lib

/-- The bytes on their way, what the reader has of the current string, and the strings it has returned. -/
structure Fifo where
  queue : List Byte
  buf : CStr
  strings : List CStr

namespace Fifo

def empty : Fifo := ⟨[], lit "", []⟩

def put (f : Fifo) (chunk : List Byte) : Fifo := { f with queue := f.queue ++ chunk }

/-- The reader takes the next byte. -/
def take (f : Fifo) : Option Fifo :=
  match f.queue with
  | [] => none
  | b :: q => some (if hb : b = 0 then ⟨q, lit "", f.strings ++ [f.buf]⟩ else ⟨q, f.buf.push b hb, f.strings⟩)

theorem take_of_queue {f : Fifo} {b : Byte} {q : List Byte} (h : f.queue = b :: q) : f.take =
    some (if hb : b = 0 then ⟨q, lit "", f.strings ++ [f.buf]⟩ else ⟨q, f.buf.push b hb, f.strings⟩) := by
  rw [take, h]

/-- The bytes put in so far. -/
def passed (f : Fifo) : List Byte := f.strings.flatMap CStr.z ++ f.buf.bytes ++ f.queue

@[simp] theorem passed_empty : empty.passed = [] := rfl

@[simp] theorem passed_put (f : Fifo) (chunk : List Byte) : (f.put chunk).passed = f.passed ++ chunk := by
  simp [passed, put]

theorem passed_take {f f' : Fifo} (h : f.take = some f') : f'.passed = f.passed := by
  obtain ⟨q, buf, strings⟩ := f
  cases q with
  | nil => cases h
  | cons b q =>
    simp only [take, Option.some.injEq] at h
    subst h
    by_cases hb : b = 0
    · have he : (lit "").bytes = [] := rfl
      simp [passed, hb, CStr.z, he]
    · simp [passed, hb, CStr.push]

end Fifo

end NetProg.Lib
