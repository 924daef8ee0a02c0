import NetProg.Lib.Decimal
import NetProg.Lib.Process
import NetProg.Receive.Buffers

/-!
# The commands of a data server

Each operation of `fileDataServer.c` as the program it runs against the client, on the files of its directory.  `access`
and `fopen` go by the path as it is written; paths lead to files and can be created, a write takes all of its bytes, and
the string buffers are large enough.
-/

namespace NetProg.DataServer

open NetProg.Lib NetProg.Receive

/-- The files by path, the last one written first. -/
abbrev Store := List (CStr × List Byte)

namespace Store

/-- The content of a file. -/
def get (s : Store) (path : CStr) : Option (List Byte) := s.lookup path

/-- `access(path, F_OK) != -1`. -/
def Exists (s : Store) (path : CStr) : Prop := (s.get path).isSome

instance (s : Store) (path : CStr) : Decidable (s.Exists path) := inferInstanceAs (Decidable (_ = true))

/-- `fopen(path, "w")`, the bytes `content` written to it, and `fclose`. -/
def put (s : Store) (path : CStr) (content : List Byte) : Store := (path, content) :: s

/-- `remove(path)`. -/
def remove (s : Store) (path : CStr) : Store := s.filter fun f => f.1 ≠ path

end Store

/-- What ends a data server: `fileno(NULL)`, `exit`, or a search for a free name that never ends. -/
inductive Fault where
  | null
  | exit
  | diverge
  deriving DecidableEq

/-- An operation of a data server. -/
abbrev Op := Proc Unit Fault Store

/-- `write(clientconn, s, strlen(s)+1)`. -/
def reply (s : CStr) (k : Op) : Op := .write () s.z k

/-- `sprintf(str, "%s(%d)", dir, i)`. -/
def numbered (dir : CStr) (i : ℕ) : CStr := ((dir.cat (lit "(")).cat (decimal i)).cat (lit ")")

/-- `while(access(str,F_OK)!=-1) { i++; sprintf(str, "%s(%d)", dir,i); }`, with a bound on its rounds. -/
def freeName (s : Store) (dir : CStr) : ℕ → ℕ → Except Fault CStr
  | 0, _ => .error .diverge
  | fuel + 1, i => if s.Exists (numbered dir i) then freeName s dir fuel (i + 1) else .ok (numbered dir i)

/-- The loop of `printfile` that sends a block in pieces, each with a NUL and the last one with two; the first argument
bounds the rounds. -/
def printLoop : ℕ → List Byte → Op → Op
  | 0, _, k => k
  | fuel + 1, rest, k =>
    if rest = [] then k
    else if rest.length ≤ BLOCKSIZE / 1000 then
      .write () rest <| .write () [0, 0] <| printLoop fuel (rest.drop (BLOCKSIZE / 1000)) k
    else
      .write () (rest.take (BLOCKSIZE / 1000)) <| .write () [0] <| printLoop fuel (rest.drop (BLOCKSIZE / 1000)) k

def printfile (s : Store) : Op :=
  .read () fun data_loc =>
  match s.get data_loc with
  | none => .halt .null s
  | some content => printLoop (content.take BLOCKSIZE).length (content.take BLOCKSIZE) (.ret s)

def tobigfs (s : Store) : Op :=
  .read () fun temp_buf =>
  .read () fun name =>
  .read () fun count =>
  .read () fun num =>
  let dir := (lit "data/").cat name
  .attempt s (if count = lit "0" ∧ s.Exists dir then freeName s dir (s.length + 1) 0 else .ok dir) fun dir =>
  let s := s.put dir []
  reply dir <| .ret (s.put (dir.cat num) temp_buf.bytes)

def removefile (s : Store) : Op :=
  .read () fun name =>
  .read () fun chunks =>
  .ret ((if s.Exists name then s.remove name else s).remove (name.cat chunks))

/-- The loop `while((ch = fgetc(source1)) != EOF) fputc(ch, target)`: the byte 255 is `EOF` as a `char`. -/
def copyBytes (content : List Byte) : List Byte := content.takeWhile (· ≠ 255)

/-- What `copyfile` does once it knows the new name. -/
def copyTo (s : Store) (source name chunks : CStr) : Op :=
  match s.get source with
  | none => .halt .exit s
  | some _ =>
    -- `source` is read behind both calls of `fopen(.., "w")`
    let s := (s.put name []).put (name.cat chunks) []
    .ret (s.put (name.cat chunks) (copyBytes ((s.get source).getD [])))

def copyfile (s : Store) : Op :=
  .read () fun name =>
  .read () fun chunks =>
  if chunks = lit "0" then
    .attempt s (freeName s name (s.length + 1) 0) fun str => reply str <| copyTo s (name.cat chunks) str chunks
  else .read () fun new => copyTo s (name.cat chunks) new chunks

/-- The `if` chain of `main`. -/
def dispatch (s : Store) (choice : CStr) : Op :=
  if choice = lit "tobigfs" then tobigfs s
  else if choice = lit "cat" then printfile s
  else if choice = lit "rm" then removefile s
  else if choice = lit "cp" then copyfile s
  else .ret s

end NetProg.DataServer
