import NetProg.Lib.Decimal
import NetProg.NameServer.Walk

/-!
# The commands of the name server

Each operation of `fileNameServer.c` as the program it runs against its client: `read` is `copyToString`, `write` is
`write(connfd, ...)`.  An operation starts with the memory of the server and ends with the memory it leaves.

`Mem.garbage` stands for what `malloc` finds in the memory of a new node: the fields `no_of_chunks` and `loc_name` of
a directory keep it, and `cp` writes them to the client.  The string buffers other than `struct node`'s `name` and the
ten characters a chunk count is printed to are taken to be large enough.

`exec` runs one whole command, its arguments standing ready; `Step` and `Run` are the commands of a server one after
another, from the tree whose only node is `home`.
-/

namespace NetProg.NameServer

open NetProg.Lib

/-- The memory of the server: the nodes, the current directory, and what `malloc` returns. -/
structure Mem where
  heap : Heap
  cur : Ptr ℕ
  garbage : ℕ → Node

/-- An operation of the server. -/
abbrev Op := Proc Unit Fault Mem

/-- `write(connfd, s, strlen(s)+1)`. -/
def reply (s : CStr) (k : Op) : Op := .write () s.z k

/-- `sprintf(chunks, "%d", n)` into `char chunks[10]`. -/
def sprintfChunks (n : ℤ) : Except Fault CStr :=
  if (decimal n).bytes.length < 10 then .ok (decimal n) else .error .overflow

/-- The two strings about a file that `cat`, `frombigfs`, `rm` and `cp` send. -/
def sendLocation (s : Mem) (n : Node) (k : Op) : Op :=
  reply n.loc_name <| .attempt s (sprintfChunks n.no_of_chunks) fun chunks => reply chunks k

/-- The loop of `listDirectory`. -/
def listLoop (s : Mem) : ℕ → Ptr ℕ → Op
  | 0, _ => .halt .diverge s
  | _ + 1, .null => .write () [0] (.ret s)
  | fuel + 1, temp => .attempt s (deref s.heap temp) fun (_, n) =>
    .write () n.name.bytes <| .write () [10] <| listLoop s fuel n.next

def listDirectory (s : Mem) : Op :=
  .attempt s (deref s.heap s.cur) fun (_, c) => listLoop s (rounds s.heap) c.child

/-- The node `makeDirectory` fills in. -/
def newDirectory (s : Mem) (name : CStr) : Node :=
  { s.garbage s.heap.length with
    next := .null, child := .null, parent := s.cur, no_of_chunks := 0, name := name, type := .directory }

def makeDirectory (s : Mem) : Op :=
  .read () fun dirname =>
  .attempt { s with heap := s.heap ++ [(newDirectory s dirname).overrun dirname] } (strcpyName dirname) fun name =>
  .attempt s (attach (s.heap ++ [newDirectory s name]) s.cur s.heap.length) fun heap =>
  .ret { s with heap := heap }

def changeDirectory (s : Mem) : Op :=
  .read () fun dirname =>
  .attempt s (cdWalk s.heap (fields slash dirname) s.cur) fun
    | some temp_cur => reply (lit "0") (.ret { s with cur := temp_cur })
    | none => reply (lit "1") (.ret s)

/-- The last component of a path, which the loops over `strsep` leave in `found2` or `dir`. -/
def baseName (filename : CStr) : CStr := (fields slash filename).getLast (fields_ne_nil slash filename)

/-- The node `tobigfs` fills in, before it has a name. -/
def nameless (s : Mem) : Node :=
  { s.garbage s.heap.length with next := .null, child := .null, parent := s.cur, type := .file }

/-- The node before it is linked in. -/
def newFile (s : Mem) (name no_of_chunks : CStr) : Node :=
  { nameless s with name := name, no_of_chunks := atoi no_of_chunks }

def tobigfs (s : Mem) : Op :=
  .read () fun filename =>
  .attempt s (deref s.heap s.cur) fun (_, c) =>
  .attempt s (lookup s.heap (baseName filename) c.child) fun
    | some _ => reply (lit "1") (.ret s)
    | none => reply (lit "0") <|
      .attempt { s with heap := s.heap ++ [(nameless s).overrun (baseName filename)] } (strcpyName (baseName filename))
        fun name =>
      .read () fun no_of_chunks =>
      .attempt s (attach (s.heap ++ [newFile s name no_of_chunks]) s.cur s.heap.length) fun heap =>
      .read () fun loc =>
      .ret { s with heap := setLocName heap s.heap.length loc }

/-- What `catfile` and `frombigfs` do. -/
def sendFile (s : Mem) : Op :=
  .read () fun file =>
  .attempt s (deref s.heap s.cur) fun (_, c) =>
  .attempt s (lookupFile s.heap file c.child) fun
    -- `temp` is NULL behind the loop, and `temp->loc_name` is read all the same
    | none => reply (lit "0") (.halt .null s)
    | some a => reply (lit "1") <| .attempt s (deref s.heap (.node a)) fun (_, n) => sendLocation s n (.ret s)

def catfile (s : Mem) : Op := sendFile s

def frombigfs (s : Mem) : Op := sendFile s

def removefile (s : Mem) : Op :=
  .read () fun file =>
  .attempt s (removeChild s.heap s.cur file) fun
    -- `temp` is NULL here as well
    | none => reply (lit "0") (.halt .null s)
    | some (a, heap) =>
      let s' := { s with heap := heap }
      reply (lit "1") <| .attempt s' (deref heap (.node a)) fun (_, n) => sendLocation s' n (.ret s')

def movefile (s : Mem) : Op :=
  .read () fun source =>
  .read () fun destination =>
  .attempt s (walkSource s.heap (fields slash source) s.cur) fun
    | none => reply (lit "1") (.ret s)
    | some temp_cur =>
      .attempt s (deref s.heap temp_cur) fun (x, _) =>
      .attempt s (unlink s.heap x) fun h₁ =>
      -- the source is off its chain from here on, whatever becomes of the destination
      let s₁ := { s with heap := h₁ }
      .attempt s₁ (walkDestination h₁ (fields slash destination) s.cur) fun dst =>
      .attempt s₁ (deref h₁ dst.temp_cur2) fun (_, d) =>
      if d.type = .file ∨ dst.flag then reply (lit "1") (.ret s₁)
      else
        let h₂ := setParent h₁ x dst.temp_cur2
        .attempt { s with heap := h₂ } (attach h₂ dst.temp_cur2 x) fun h₃ =>
        match dst.found2 with
        | none => reply (lit "0") (.ret { s with heap := h₃ })
        | some found2 =>
          .attempt { s with heap := overrun h₃ x found2 } (strcpyName found2) fun name =>
          reply (lit "0") (.ret { s with heap := setName h₃ x name })

/-- The node `copyfile` fills in before the destination is resolved.  Its field `parent` is never assigned, its fields
`name`, `child` and `loc_name` are later. -/
def newCopy (s : Mem) (xn : Node) : Node :=
  { s.garbage s.heap.length with
    next := .null, child := .unassigned, parent := .unassigned, no_of_chunks := xn.no_of_chunks, type := xn.type }

def copyfile (s : Mem) : Op :=
  .read () fun source =>
  .read () fun destination =>
  .attempt s (walkSource s.heap (fields slash source) s.cur) fun
    | none => reply (lit "1") (.ret s)
    | some temp_cur =>
      .attempt s (deref s.heap temp_cur) fun (x, xn) =>
      let sourcenode := s.heap.length
      let h₁ := s.heap ++ [newCopy s xn]
      let s₁ := { s with heap := h₁ }
      .attempt s₁ (walkDestination h₁ (fields slash destination) s.cur) fun dst =>
      .attempt s₁ (deref h₁ dst.temp_cur2) fun (_, d) =>
      if d.type = .file ∨ dst.flag then reply (lit "1") (.ret s₁)
      else
        let h₂ := setParent h₁ x dst.temp_cur2
        .attempt { s with heap := h₂ } (attach h₂ dst.temp_cur2 sourcenode) fun h₃ =>
        .attempt { s with heap := overrun h₃ sourcenode (dst.found2.getD xn.name) }
          (dst.found2.elim (.ok xn.name) strcpyName) fun name =>
        let s₄ := { s with heap := setChild (setName h₃ sourcenode name) sourcenode .null }
        reply (lit "0") <| sendLocation s₄ xn <|
        .read () fun datalocation =>
        .ret { s with heap := setLocName s₄.heap sourcenode datalocation }

/-- The `if` chain of `main`. -/
def dispatch (s : Mem) (choice : CStr) : Op :=
  if choice = lit "ls" then listDirectory s
  else if choice = lit "mkdir" then makeDirectory s
  else if choice = lit "cd" then changeDirectory s
  else if choice = lit "tobigfs" then tobigfs s
  else if choice = lit "mv" then movefile s
  else if choice = lit "cat" then catfile s
  else if choice = lit "frombigfs" then frombigfs s
  else if choice = lit "rm" then removefile s
  else if choice = lit "cp" then copyfile s
  else .ret s

/-! ### Whole commands -/

/-- A command with the strings its operation reads, as far as it reads them. -/
inductive Cmd where
  | ls
  | mkdir (dirname : CStr)
  | cd (dirname : CStr)
  | tobigfs (filename no_of_chunks loc : CStr)
  | cat (file : CStr)
  | frombigfs (file : CStr)
  | rm (file : CStr)
  | mv (source destination : CStr)
  | cp (source destination datalocation : CStr)

/-- The strings of a command, its name first. -/
def Cmd.strings : Cmd → List CStr
  | .ls => [lit "ls"]
  | .mkdir dirname => [lit "mkdir", dirname]
  | .cd dirname => [lit "cd", dirname]
  | .tobigfs filename no_of_chunks loc => [lit "tobigfs", filename, no_of_chunks, loc]
  | .cat file => [lit "cat", file]
  | .frombigfs file => [lit "frombigfs", file]
  | .rm file => [lit "rm", file]
  | .mv source destination => [lit "mv", source, destination]
  | .cp source destination datalocation => [lit "cp", source, destination, datalocation]

/-- One round of the loop of `main`: what a command writes, and how it ends. -/
def exec (s : Mem) (c : Cmd) : List Byte × Outcome Fault Mem :=
  (Proc.read () (dispatch s) : Op).feed c.strings

/-- The tree before the first command. -/
def fresh (garbage : ℕ → Node) : Mem where
  heap := [{ garbage 0 with name := lit "home", type := .directory, child := .null, parent := .null, next := .null }]
  cur := .node 0
  garbage := garbage

/-- The address of `home`. -/
def home : ℕ := 0

/-- The command `c` is carried out to its end and answered with `out`. -/
def Step (s : Mem) (c : Cmd) (out : List Byte) (s' : Mem) : Prop := exec s c = (out, .done s')

/-- The commands `cs` are carried out one after another, each in a state where `P` holds of it. -/
inductive Run (P : Mem → Cmd → Prop) (s : Mem) : List Cmd → Mem → Prop where
  | nil : Run P s [] s
  | snoc {cs c out s' s''} : Run P s cs s' → P s' c → Step s' c out s'' → Run P s (cs ++ [c]) s''

/-- `s` is reached from the tree with `home` alone, whatever `malloc` returns, by commands that are carried out to their
end. -/
def Reachable (s : Mem) : Prop := ∃ garbage cs, Run (fun _ _ => True) (fresh garbage) cs s

variable {P : Mem → Cmd → Prop} {s s' : Mem} {cs : List Cmd}

/-- **Invariants.**  What every step keeps holds after every run. -/
theorem Run.inv (I : Mem → Prop) (hs : I s) (hstep : ∀ s c out s', I s → P s c → Step s c out s' → I s')
    (h : Run P s cs s') : I s' := by
  induction h with
  | nil => exact hs
  | snoc _ hp hst ih => exact hstep _ _ _ _ ih hp hst

theorem Run.mono {Q : Mem → Cmd → Prop} (hPQ : ∀ s c, P s c → Q s c) (h : Run P s cs s') : Run Q s cs s' := by
  induction h with
  | nil => exact .nil
  | snoc _ hp hst ih => exact .snoc ih (hPQ _ _ hp) hst

/-- The memory after the commands `cs`, if all of them are carried out to their end. -/
def serve (s : Mem) : List Cmd → Option Mem
  | [] => some s
  | c :: cs => match exec s c with
    | (_, .done s') => serve s' cs
    | _ => none

theorem Run.serve {cs' : List Cmd} (hP : ∀ c ∈ cs', ∀ s, P s c) {s'' : Mem} (h : Run P s cs s')
    (e : NameServer.serve s' cs' = some s'') : Run P s (cs ++ cs') s'' := by
  induction cs' generalizing cs s' with
  | nil =>
    cases e
    simpa using h
  | cons c cs' ih =>
    rw [NameServer.serve] at e
    split at e
    · next out s₁ he =>
      simpa using ih (fun c hc => hP c (List.mem_cons_of_mem _ hc)) (.snoc h (hP c (by simp) _) he) e
    · cases e

theorem step_of_serve {c : Cmd} {out : List Byte} (h : NameServer.serve s [c] = some s') (ho : (exec s c).1 = out) :
    Step s c out s' := by
  simp only [NameServer.serve] at h
  split at h
  · next out' s₁ he =>
    cases h
    rw [he] at ho
    exact ho ▸ he
  · cases h

theorem Run.snoc_serve {c : Cmd} {s'' : Mem} (h : Run P s cs s') (hp : P s' c)
    (e : NameServer.serve s' [c] = some s'') : Run P s (cs ++ [c]) s'' := by
  simp only [NameServer.serve] at e
  split at e
  · next out s₁ he =>
    cases e
    exact .snoc h hp he
  · cases e

/-- Memory that `malloc` finds zeroed. -/
def zeroed (_ : ℕ) : Node := ⟨lit "", .unassigned, .unassigned, .unassigned, .file, 0, lit ""⟩

/-- What `serve` computes is reached. -/
theorem reachable_serve {cs : List Cmd} {s : Mem} (h : serve (fresh zeroed) cs = some s) : Reachable s :=
  ⟨zeroed, _, Run.nil.serve (fun _ _ _ => trivial) h⟩

end NetProg.NameServer
