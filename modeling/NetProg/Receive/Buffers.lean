import NetProg.Lib.CString
import NetProg.Lib.Run

/-!
# The double buffer between a socket and `copyToString`

`readfromClient` and `copyToString` as `fileNameServer.c` and `fileDataServer.c` have them: the same text with the
threshold `MAX_SIZE` in the one and `BLOCKSIZE` in the other, which is the parameter `T` here.  The two halves of each
function are the same code with the two buffers exchanged; a buffer, its fill level and its cursor are therefore
functions of a selector.

* `Act.recv`: one round of the loop of `readfromClient`, with the bytes that its `read` delivers;
* `Act.inspect`: one inspection of a byte by `copyToString`, behind the `while` loop that waits for it;
* `step`: what the two do to the buffers.
-/

namespace NetProg.Receive

open NetProg.Lib

/-- The thresholds of the two programs. -/
def MAX_SIZE : ℕ := 1024
def BLOCKSIZE : ℕ := 1024000

/-- Which of the two buffers: the values 0 and 1 of `bufsel` and `cursel`. -/
inductive Sel where
  | rbuf1
  | rbuf2
  deriving DecidableEq

def Sel.other : Sel → Sel
  | .rbuf1 => .rbuf2
  | .rbuf2 => .rbuf1

/-- Where a call of `copyToString` waits: at its first loop, or at the one behind `cur++`. -/
inductive Place where
  | top
  | inner
  deriving DecidableEq

/-- The variables the two threads share. -/
structure Buffers where
  /-- `rbuf1` and `rbuf2`; nothing is ever written behind the `2T` bytes of one -/
  rbuf : Sel → ℕ → Byte
  /-- `start1` and `start2` -/
  start : Sel → ℕ
  /-- `cur1` and `cur2` -/
  cur : Sel → ℕ
  bufsel : Sel
  cursel : Sel
  /-- how often `bufsel` has changed; the program does not keep this number -/
  flips : ℕ
  /-- how often `cursel` has changed; the program does not keep this number either -/
  switches : ℕ

/-- The two threads between their steps. -/
structure State where
  shared : Buffers
  /-- every byte the reads have delivered -/
  received : List Byte
  place : Place
  /-- what the current call of `copyToString` has copied so far -/
  buf : CStr
  /-- what the finished calls have returned -/
  strings : List CStr

/-- Before the first read. -/
def initial : State where
  shared :=
    { rbuf := fun _ _ => 0, start := fun _ => 0, cur := fun _ => 0
      bufsel := .rbuf1, cursel := .rbuf1, flips := 0, switches := 0 }
  received := []
  place := .top
  buf := lit ""
  strings := []

/-! ### The writer -/

/-- The bytes `chunk` are written to the positions from `i` on. -/
def store (data : ℕ → Byte) (i : ℕ) (chunk : List Byte) : ℕ → Byte := fun j =>
  if j < i then data j else (chunk[j - i]?).getD (data j)

/-- The two tests at the top of the loop of `readfromClient`. -/
def Full (T : ℕ) (b : Buffers) : Prop := T < b.start b.bufsel

instance (T : ℕ) (b : Buffers) : Decidable (Full T b) := inferInstanceAs (Decidable (_ < _))

/-- `bufsel=1; start2=0;` and the same the other way round, where the tests say so. -/
def flip (T : ℕ) (b : Buffers) : Buffers :=
  if Full T b then
    { b with
      bufsel := b.bufsel.other
      start := Function.update b.start b.bufsel.other 0
      flips := b.flips + 1 }
  else b

/-- The room that `read(connfd, rbuf1+start1, sizeof(rbuf1)-start1)` has. -/
def room (T : ℕ) (b : Buffers) : ℕ := 2 * T - b.start b.bufsel

/-- The read delivers `chunk`, and `start1+=n`. -/
def fill (b : Buffers) (chunk : List Byte) : Buffers :=
  { b with
    rbuf := Function.update b.rbuf b.bufsel (store (b.rbuf b.bufsel) (b.start b.bufsel) chunk)
    start := Function.update b.start b.bufsel (b.start b.bufsel + chunk.length) }

/-- One round of `readfromClient`.  A read that delivers nothing, or fails, is one with an empty `chunk`. -/
def recv (T : ℕ) (s : State) (chunk : List Byte) : Option State :=
  if chunk.length ≤ room T (flip T s.shared) then
    some { s with shared := fill (flip T s.shared) chunk, received := s.received ++ chunk }
  else none

/-! ### The reader -/

/-- The conditions of the two loops of `copyToString` that wait. -/
def Waits (T : ℕ) (b : Buffers) : Place → Prop
  | .top => b.start b.cursel < T ∧ b.start b.cursel ≤ b.cur b.cursel
  | .inner => b.start b.cursel ≤ b.cur b.cursel

instance (T : ℕ) (b : Buffers) : ∀ p, Decidable (Waits T b p)
  | .top => inferInstanceAs (Decidable (_ ∧ _))
  | .inner => inferInstanceAs (Decidable (_ ≤ _))

/-- The byte at the cursor. -/
def byte (b : Buffers) : Byte := b.rbuf b.cursel (b.cur b.cursel)

/-- The test behind `cur++`: the byte at the cursor is the last one of a buffer filled beyond the threshold. -/
def Last (T : ℕ) (b : Buffers) : Prop := b.start b.cursel ≤ b.cur b.cursel + 1 ∧ T < b.start b.cursel

instance (T : ℕ) (b : Buffers) : Decidable (Last T b) := inferInstanceAs (Decidable (_ ∧ _))

/-- `cur++`, with the cursors `cur` behind it, and the change of `cursel` where the test says so. -/
def advance (T : ℕ) (b : Buffers) (cur : Sel → ℕ) : Buffers :=
  { b with
    cur := cur
    cursel := if Last T b then b.cursel.other else b.cursel
    switches := if Last T b then b.switches + 1 else b.switches }

/-- The cursors behind `cur1++`. -/
def incr (b : Buffers) : Sel → ℕ := Function.update b.cur b.cursel (b.cur b.cursel + 1)

/-- `buf[i] = rbuf1[cur1]`: behind the last byte of a buffer the function calls itself for the other one. -/
def takeByte (T : ℕ) (s : State) (hb : byte s.shared ≠ 0) : State :=
  { s with
    shared := advance T s.shared (incr s.shared)
    buf := s.buf.push (byte s.shared) hb
    place := if Last T s.shared then .top else .inner }

/-- `buf[i]='\0'; cur1++; cur2=0;`: the call returns, and the cursor of the other buffer is reset. -/
def endString (T : ℕ) (s : State) : State :=
  { s with
    shared := advance T s.shared (Function.update (incr s.shared) s.shared.cursel.other 0)
    buf := lit ""
    strings := s.strings ++ [s.buf]
    place := .top }

/-- One inspection of a byte. -/
def inspect (T : ℕ) (s : State) : Option State :=
  if Waits T s.shared s.place then none
  else some (if hb : byte s.shared = 0 then endString T s else takeByte T s hb)

/-! ### Interleavings -/

inductive Act where
  | recv (chunk : List Byte)
  | inspect

def step (T : ℕ) (s : State) : Act → Option State
  | .recv chunk => recv T s chunk
  | .inspect => inspect T s

end NetProg.Receive
