import NetProg.Cluster.Session
import NetProg.Lib.Program
import NetProg.Lib.Confluence

/-!
# The pipes of a cluster shell line

The loop of `executeshell` over the stages of a line, with the two pipes it works with: every stage writes to `fd`, and
before a stage but the first a helper child is forked that reads `fd` once and writes what it has read to `temppipe`, from
which the stage reads.  The helper and the stage run at the same time.  A stage for this node is a program on the two pipes;
for another node it is the child of `runcommand`, which reads its input once, has the program run on the node, and prints
what it reads once of the output.
-/

namespace NetProg.Cluster.Pipe

open NetProg.Lib

/-- The string that a buffer holds. -/
def text (buf : List Byte) : List Byte := (CStr.ofBytes buf).bytes

/-- A stage: whether it is for another node, and the state its program starts in. -/
structure Stage (σ : Type) where
  remote : Bool
  prog : σ

/-- A line: its stages, of which `count` have a bar before them, and what the first of them can read. -/
structure Line (σ : Type) where
  act : σ → Act σ
  stage : ℕ → Stage σ
  count : ℕ
  typed : List Byte

/-- The helper: before its `read`, before its `write`, or gone, and the writing end of `temppipe` with it. -/
inductive Helper where
  | reading
  | writing (buf : List Byte)
  | gone
  deriving DecidableEq

/-- The child of `runcommand`: the program; or, with the program on the other node, before it reads the input, before it
reads the output (the program that runs there, its input, and what it has written), or before it prints; or gone. -/
inductive Child (σ : Type) where
  | running (s : σ)
  | asking (s : σ)
  | waiting (s : Option σ) (input out : List Byte)
  | printing (out : List Byte)
  | gone
  deriving DecidableEq

/-- Stage `i`: what is in the two pipes, the helper and the child. -/
structure Round (σ : Type) where
  i : ℕ
  fd : List Byte
  helper : Helper
  temppipe : List Byte
  child : Child σ
  deriving DecidableEq

/-- In the loop, behind it, or at the end, with what has been printed. -/
inductive State (σ : Type) where
  | round (r : Round σ)
  | last (fd : List Byte)
  | printed (out : List Byte)
  deriving DecidableEq

/-- What goes on: the helper, the program of the stage, the child of `runcommand` for another node, or the parent. -/
inductive Turn where
  | helper
  | program
  | child
  | parent

variable {σ : Type}

namespace Line

/-- The stage behind a bar begins. -/
def forked (p : Line σ) (i : ℕ) : Child σ :=
  if (p.stage i).remote then .asking (p.stage i).prog else .running (p.stage i).prog

/-- The first stage begins; its helper exits at once. -/
def start (p : Line σ) : State σ :=
  .round ⟨0, [], .gone, p.typed,
    if (p.stage 0).remote then .waiting (some (p.stage 0).prog) p.typed [] else .running (p.stage 0).prog⟩

/-- The `read`, and the `write` up to the NUL. -/
def helper (r : Round σ) : Option (Round σ) :=
  match r.helper with
  | .reading =>
    if r.fd = [] then none else some { r with fd := r.fd.drop MAX_SIZE, helper := .writing (r.fd.take MAX_SIZE) }
  | .writing buf => some { r with helper := .gone, temppipe := r.temppipe ++ text buf }
  | .gone => none

def program (p : Line σ) (r : Round σ) : Option (Round σ) :=
  match r.child with
  | .running s =>
    match p.act s with
    | .write b l next => some { r with fd := r.fd ++ b :: l, child := .running next }
    | .get next =>
      match r.temppipe with
      | b :: w => some { r with temppipe := w, child := .running (next (some b)) }
      | [] => if r.helper = .gone then some { r with child := .running (next none) } else none
    | .exit => some { r with child := .gone }
  | .waiting (some s) input out =>
    match p.act s with
    | .write b l next => some { r with child := .waiting (some next) input (out ++ b :: l) }
    | .get next =>
      match input with
      | b :: w => some { r with child := .waiting (some (next (some b))) w out }
      | [] => some { r with child := .waiting (some (next none)) [] out }
    | .exit => some { r with child := .waiting none input out }
  | _ => none

def child (r : Round σ) : Option (Round σ) :=
  match r.child with
  | .asking s =>
    if r.temppipe = [] ∧ r.helper ≠ .gone then none
    else some { r with
      temppipe := r.temppipe.drop MAX_SIZE
      child := .waiting (some s) (text (r.temppipe.take MAX_SIZE)) [] }
  | .waiting s _ out =>
    if out = [] ∧ s.isSome then none else some { r with child := .printing (text (out.take MAX_SIZE)) }
  | .printing out => some { r with fd := r.fd ++ out, child := .gone }
  | _ => none

/-- `waitpid` for the stage and `wait` for the helper, and the next stage; behind the last one, the `read` of `fd`. -/
def parent (p : Line σ) : State σ → Option (State σ)
  | .round r =>
    match r.child, r.helper with
    | .gone, .gone =>
      some (if r.i < p.count then .round ⟨r.i + 1, r.fd, .reading, [], p.forked (r.i + 1)⟩ else .last r.fd)
    | _, _ => none
  | .last fd => if fd = [] then none else some (.printed (text (fd.take MAX_SIZE)))
  | .printed _ => none

def step (p : Line σ) (s : State σ) : Turn → Option (State σ)
  | .parent => p.parent s
  | turn =>
    match s with
    | .round r =>
      (match turn with
        | .helper => helper r
        | .program => p.program r
        | _ => child r).map .round
    | _ => none

/-! ### What a line should do -/

/-- With these writes each stage, given what the one before it writes, exits. -/
structure Composes (p : Line σ) (writes : ℕ → List (List Byte)) : Prop where
  first : Yields p.act (p.stage 0).prog p.typed (writes 0)
  next : ∀ i < p.count, Yields p.act (p.stage (i + 1)).prog (writes i).flatten (writes (i + 1))

/-- A state is sound: what the helper takes for a stage is what the stage before it has written, what is printed is what the
last stage has written, and unless it has been printed something goes on. -/
structure Sound (p : Line σ) (writes : ℕ → List (List Byte)) (s : State σ) : Prop where
  delivers : ∀ i fd buf temppipe child, s = .round ⟨i + 1, fd, .writing buf, temppipe, child⟩ →
    text buf = (writes i).flatten
  prints : ∀ out, s = .printed out → out = (writes p.count).flatten
  proceeds : (∃ turn t, p.step s turn = some t) ∨ ∃ out, s = .printed out

/-- Stage `i` writes something.  For another node it does so with one write; behind a bar and for this node, the first
thing it does is to read. -/
structure Orderly (p : Line σ) (writes : ℕ → List (List Byte)) (i : ℕ) : Prop where
  nonempty : (writes i).flatten ≠ []
  once : (p.stage i).remote → (writes i).length = 1
  reads : 0 < i → (p.stage i).remote = false → ∃ next, p.act (p.stage i).prog = .get next

end Line

end NetProg.Cluster.Pipe
