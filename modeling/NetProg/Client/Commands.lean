import NetProg.Lib.Decimal
import NetProg.Lib.Process
import NetProg.Receive.Buffers

/-!
# The commands of the client

Each function of `Client.c` that carries out a line typed at the prompt, as the program it runs against the name server
and the data servers: `receive` is `copyToString` or `datacopyToString`, `send` is `write(fd, s, strlen(s)+1)`.  The
text of the prompt itself is not printed.

The local files are those of `Config.disk`, whatever changes them from one line to the next.  A write takes all of its
bytes, a local file can be created, and the string buffers are large enough, except for the ten characters a number is
printed to.  A `FILE` that is written to keeps what does not overflow its buffer.
-/

namespace NetProg.Client

open NetProg.Lib NetProg.Receive

/-- The peers of the client: `sockfd` and the entries of `datafds`. -/
inductive Server where
  | name
  | data (ptr : ℕ)
  deriving DecidableEq

/-- What the client reads and writes on its own machine: the terminal, and the file that the `t`-th line creates. -/
inductive Local where
  | terminal
  | file (t : ℕ) (name : CStr)
  deriving DecidableEq

/-- What ends the client: `strlen(NULL)`, a number that does not fit its buffer, a division by zero, or `exit`. -/
inductive Stop where
  | null
  | overflow
  | divide
  | exit
  deriving DecidableEq

/-- What the client finds when it is started. -/
structure Config where
  no_of_dataservers : ℕ
  /-- the local files when the `t`-th line is typed -/
  disk : ℕ → CStr → Option (List Byte)
  /-- the size of the buffer of a `FILE` -/
  streamSize : ℕ

/-- Where `printfile` and `savefile` put what they receive: the terminal, or a file with the bytes its buffer holds. -/
inductive Stream where
  | stdout
  | file (name : CStr) (pending : List Byte)

/-- The heads of the loops that are not bounded by what they are given: the loop of `main`, with the number of lines
read before, and those that print chunk after chunk, up to an empty string each. -/
inductive Label where
  | prompt (t : ℕ)
  | receiving (t : ℕ) (out : Stream) (no_of_chunks i ptr : ℕ)

abbrev Op := Proc (Server ⊕ Local) Stop Label

/-- `write(fd, s, strlen(s)+1)`. -/
def send (fd : Server) (s : CStr) (k : Op) : Op := .write (.inl fd) s.z k

/-- `copyToString(s)` and `datacopyToString(s, ptr)`. -/
def receive (fd : Server) (k : CStr → Op) : Op := .read (.inl fd) k

def printf (s : CStr) (k : Op) : Op := .write (.inr .terminal) s.bytes k

/-- The delimiter of the words of a line, and of paths. -/
def space : Byte := 32
def slash : Byte := 47

/-- The size of the pieces that a block is sent in. -/
def PIECE : ℕ := BLOCKSIZE / 1000

/-- `sprintf(s, "%d", n)` into `char s[10]`. -/
def sprintf (n : ℤ) : Except Stop CStr :=
  if (decimal n).bytes.length < 10 then .ok (decimal n) else .error .overflow

/-- The last component of a path, which the loops over `strsep` leave behind. -/
def baseName (file_name : CStr) : CStr := (fields slash file_name).getLast (fields_ne_nil slash file_name)

section Commands

variable (c : Config) (t : ℕ)

/-- The function returns, and the next line is read. -/
def done : Op := .ret (.prompt (t + 1))

/-- The use of a word of the line: `strlen(found)` stops the client where there is none. -/
def word (found : Option CStr) (k : CStr → Op) : Op :=
  match found with
  | none => .halt .null (.prompt t)
  | some found => k found

/-- `ptr = (ptr+1)%(no_of_dataservers)`. -/
def advance (ptr : ℕ) (k : ℕ → Op) : Op :=
  if c.no_of_dataservers = 0 then .halt .divide (.prompt t) else k ((ptr + 1) % c.no_of_dataservers)

def listDirectory : Op :=
  send .name (lit "ls") <| receive .name fun readbuffer => printf readbuffer (done t)

def makeDirectory (command : Option CStr) : Op :=
  match (strsep space command).1 with
  | none => printf (lit "No directory Specified\n") (done t)
  | some commandfound => send .name (lit "mkdir") <| send .name commandfound (done t)

def changeDirectory (command : Option CStr) : Op :=
  send .name (lit "cd") <|
  match (strsep space command).1 with
  | none => printf (lit "No directory Specified\n") (done t)
  | some commandfound => send .name commandfound <|
    receive .name fun choice => if choice = lit "1" then printf (lit "Directory not present\n") (done t) else done t

/-! ### Uploading -/

/-- The loop that sends a block in pieces, with the part of it that is left; the first argument bounds the rounds. -/
def sendPieces (fd : Server) : ℕ → List Byte → Op → Op
  | 0, _, k => k
  | fuel + 1, rest, k =>
    if rest = [] then k else .write (.inl fd) (rest.take PIECE) (sendPieces fd fuel (rest.drop PIECE) k)

/-- The loop of `transfertoBigFS`, with the number of parts left and what is left to read of the file. -/
def sendParts : ℕ → ℕ → ℕ → ℕ → CStr → List Byte → Op
  | 0, _, _, _, _, _ => done t
  | n + 1, i, ptr, count, dir, rest =>
    send (.data ptr) (lit "tobigfs") <|
    sendPieces (.data ptr) (rest.take BLOCKSIZE).length (rest.take BLOCKSIZE) <| .write (.inl (.data ptr)) [0] <|
    send (.data ptr) dir <|
    .attempt (.prompt t) (sprintf count) fun strcount => send (.data ptr) strcount <|
    .attempt (.prompt t) (sprintf i) fun strcount => send (.data ptr) strcount <|
    receive (.data ptr) fun data_loc =>
    let next (dir : CStr) : Op := advance c t ptr fun ptr' =>
      sendParts n (i + 1) ptr' (if ptr + 1 = c.no_of_dataservers then count + 1 else count) dir (rest.drop BLOCKSIZE)
    if i = 0 then send .name data_loc (next (baseName data_loc)) else next dir

/-- What `read(fileno(fp), ..)` finds once the file has been measured.  `fseek(fp, 0, SEEK_END)` reads what lies behind
the last full buffer.  If that is the whole file, `fseek(fp, 0, SEEK_SET)` goes back in the buffer only, and the
descriptor stays at the end of the file. -/
def readable (content : List Byte) : List Byte := if content.length < c.streamSize then [] else content

def transfertoBigFS (file_name : CStr) : Op :=
  match c.disk t file_name with
  | none => printf (lit "File Not Found!\n") (done t)
  | some content =>
    let no_of_parts := 1 + content.length / BLOCKSIZE
    .attempt (.prompt t) (sprintf no_of_parts) fun strparts => send .name strparts <|
    sendParts c t no_of_parts 0 0 0 (baseName file_name) (readable c content)

def tobigfs (command : Option CStr) : Op :=
  send .name (lit "tobigfs") <|
  word t (strsep space command).1 fun commandfound => send .name commandfound <|
  receive .name fun temp =>
  if temp = lit "1" then printf (lit "File/Directory with the same name exists\n") (done t)
  else transfertoBigFS c t commandfound

/-! ### Reading files -/

/-- The first loop of `printfile` and `savefile`: every chunk is asked for. -/
def requestChunks (file_name : CStr) : ℕ → ℕ → ℕ → Op → Op
  | 0, _, _, k => k
  | n + 1, i, ptr, k =>
    send (.data ptr) (lit "cat") <| .write (.inl (.data ptr)) file_name.bytes <|
    .attempt (.prompt t) (sprintf i) fun chunks => send (.data ptr) chunks <|
    advance c t ptr fun ptr' => requestChunks file_name n (i + 1) ptr' k

/-- How many of `n` bytes have left the buffer of a `FILE`: a full one is written out when one more byte comes. -/
def flushed (n : ℕ) : ℕ := if c.streamSize = 0 then n else (n - 1) / c.streamSize * c.streamSize

/-- `fprintf(fp,"%s",temp_buf)`: the bytes that go to the file, and those that the buffer of `fp` keeps. -/
def fprintf (pending temp_buf : List Byte) : List Byte × List Byte :=
  (pending ++ temp_buf).splitAt (flushed c (pending ++ temp_buf).length)

/-- One string of the second loop, and what is done behind it. -/
def receiveChunks (out : Stream) (no_of_chunks i ptr : ℕ) : Op :=
  if i < no_of_chunks then
    receive (.data ptr) fun temp_buf =>
    if temp_buf = lit "" then advance c t ptr fun ptr' => .ret (.receiving t out no_of_chunks (i + 1) ptr')
    else match out with
      | .stdout => printf temp_buf (.ret (.receiving t out no_of_chunks i ptr))
      | .file name pending => .write (.inr (.file t name)) (fprintf c pending temp_buf.bytes).1
          (.ret (.receiving t (.file name (fprintf c pending temp_buf.bytes).2) no_of_chunks i ptr))
  else match out with
    | .stdout => printf (lit "\n") (done t)
    -- `write(fd,"\0",1)` goes past the buffer, which `fclose` empties behind it
    | .file name pending => .write (.inr (.file t name)) [0] <| .write (.inr (.file t name)) pending (done t)

/-- What `catfile`, `savefile` and `removefile` begin with: the answer about a file of the current directory. -/
def locate (choice : CStr) (command : Option CStr) (k : CStr → CStr → ℕ → Op) : Op :=
  send .name choice <|
  word t (strsep space command).1 fun found => send .name found <|
  receive .name fun temp =>
  if temp = lit "0" then printf (lit "File not found in current directory\n") (done t)
  else receive .name fun loc => receive .name fun chunks => k found loc (atoi chunks).toNat

def printfile (file_name : CStr) (no_of_chunks : ℕ) : Op :=
  requestChunks c t file_name no_of_chunks 0 0 (.ret (.receiving t .stdout no_of_chunks 0 0))

def catfile (command : Option CStr) : Op :=
  locate t (lit "cat") command fun _ loc no_of_chunks => printfile c t loc no_of_chunks

def savefile (command : Option CStr) : Op :=
  locate t (lit "frombigfs") command fun found loc no_of_chunks =>
  requestChunks c t loc no_of_chunks 0 0 (.ret (.receiving t (.file (baseName found) []) no_of_chunks 0 0))

/-! ### Removing, copying and moving files -/

/-- The loop of `removefile`. -/
def removeChunks (loc : CStr) : ℕ → ℕ → ℕ → Op
  | 0, _, _ => done t
  | n + 1, i, ptr =>
    send (.data ptr) (lit "rm") <| send (.data ptr) loc <|
    .attempt (.prompt t) (sprintf i) fun chunks => send (.data ptr) chunks <|
    advance c t ptr fun ptr' => removeChunks loc n (i + 1) ptr'

def removefile (command : Option CStr) : Op :=
  locate t (lit "rm") command fun _ loc no_of_chunks => removeChunks c t loc no_of_chunks 0 0

/-- The loop of `copyfile`; `loca` is what the first data server has answered. -/
def copyChunks (loc : CStr) : ℕ → ℕ → ℕ → CStr → Op
  | 0, _, _, _ => done t
  | n + 1, i, ptr, loca =>
    send (.data ptr) (lit "cp") <| send (.data ptr) loc <|
    .attempt (.prompt t) (sprintf i) fun chunks => send (.data ptr) chunks <|
    let next (loca : CStr) : Op := advance c t ptr fun ptr' => copyChunks loc n (i + 1) ptr' loca
    if i = 0 then receive (.data ptr) fun loca => send .name loca (next loca) else send (.data ptr) loca (next loca)

/-- The words of the line that `copyfile` and `movefile` send, one after the other. -/
def sendPaths (choice : CStr) (command : Option CStr) (k : Op) : Op :=
  send .name choice <|
  word t (strsep space command).1 fun found => send .name found <|
  word t (strsep space (strsep space command).2).1 fun found => send .name found k

def copyfile (command : Option CStr) : Op :=
  sendPaths t (lit "cp") command <| receive .name fun temp =>
  if temp = lit "1" then printf (lit "Invalid copy\n") (done t)
  else receive .name fun loc => receive .name fun chunks => copyChunks c t loc (atoi chunks).toNat 0 0 (lit "")

def movefile (command : Option CStr) : Op :=
  sendPaths t (lit "mv") command <| receive .name fun temp =>
  if temp = lit "1" then printf (lit "Invalid move\n") (done t) else done t

/-- The `if` chain of `main`, on a line without its newline. -/
def command (line : CStr) : Op :=
  let found := (strsep space (some line)).1
  let rest := (strsep space (some line)).2
  if found = some (lit "ls") then listDirectory t
  else if found = some (lit "mkdir") then makeDirectory t rest
  else if found = some (lit "cd") then changeDirectory t rest
  else if found = some (lit "cat") then catfile c t rest
  else if found = some (lit "mv") then movefile t rest
  else if found = some (lit "cp") then copyfile c t rest
  else if found = some (lit "rm") then removefile c t rest
  else if found = some (lit "tobigfs") then tobigfs c t rest
  else if found = some (lit "frombigfs") then savefile c t rest
  else if found = some (lit "exit") then printf (lit "Exiting\n") (.halt .exit (.prompt t))
  else printf (lit "Invalid command\n") (done t)

variable {c t}

theorem readable_of_le {content : List Byte} (h : c.streamSize ≤ content.length) : readable c content = content :=
  if_neg (Nat.not_lt.2 h)

theorem mem_of_mem_readable {content : List Byte} {b : Byte} (h : b ∈ readable c content) : b ∈ content := by
  unfold readable at h
  split at h
  · cases h
  · exact h

theorem length_readable_le {content : List Byte} : (readable c content).length ≤ content.length := by
  unfold readable
  split
  · exact Nat.zero_le _
  · exact le_rfl

/-- The files that are read as they are. -/
theorem readable_eq_iff {content : List Byte} :
    readable c content = content ↔ content = [] ∨ c.streamSize ≤ content.length := by
  unfold readable
  split
  · next h => exact ⟨fun e => .inl e.symm, fun e => (e.resolve_right (Nat.not_le.2 h)).symm⟩
  · next h => exact iff_of_true rfl (.inr (Nat.not_lt.1 h))

/-- One case for each branch of the `if` chain. -/
theorem command_cases {P : Op → Prop} {line : CStr}
    (ls : P (listDirectory t))
    (mkdir : (strsep space (some line)).1 = some (lit "mkdir") → P (makeDirectory t (strsep space (some line)).2))
    (cd : (strsep space (some line)).1 = some (lit "cd") → P (changeDirectory t (strsep space (some line)).2))
    (cat : (strsep space (some line)).1 = some (lit "cat") → P (catfile c t (strsep space (some line)).2))
    (mv : (strsep space (some line)).1 = some (lit "mv") → P (movefile t (strsep space (some line)).2))
    (cp : (strsep space (some line)).1 = some (lit "cp") → P (copyfile c t (strsep space (some line)).2))
    (rm : (strsep space (some line)).1 = some (lit "rm") → P (removefile c t (strsep space (some line)).2))
    (tobigfs : (strsep space (some line)).1 = some (lit "tobigfs") → P (tobigfs c t (strsep space (some line)).2))
    (frombigfs : (strsep space (some line)).1 = some (lit "frombigfs") → P (savefile c t (strsep space (some line)).2))
    (exit : P (printf (lit "Exiting\n") (.halt .exit (.prompt t))))
    (invalid : P (printf (lit "Invalid command\n") (done t))) : P (command c t line) := by
  unfold command
  refine iteInduction (fun _ => ls) fun _ => ?_
  refine iteInduction mkdir fun _ => iteInduction cd fun _ => iteInduction cat fun _ => ?_
  refine iteInduction mv fun _ => iteInduction cp fun _ => iteInduction rm fun _ => ?_
  exact iteInduction tobigfs fun _ => iteInduction frombigfs fun _ => iteInduction (fun _ => exit) fun _ => invalid

end Commands

/-- What the client does at the head of a loop. -/
def code (c : Config) : Label → Op
  | .prompt t => .read (.inr .terminal) (command c t)
  | .receiving t out no_of_chunks i ptr => receiveChunks c t out no_of_chunks i ptr

end NetProg.Client
