import NetProg.Lib.CString
import NetProg.Lib.Reader
import Mathlib.Logic.Function.Basic

/-!
# A session of the cluster shell

The client's connect loop, its SIGUSR1 handler and the servers of the nodes, as far as they decide what is sent and read on
the connections between them.  A message arrives as it was sent.  A connection keeps which statement made it, all that the
client has sent on it, and what the server has read and taken it for.
-/

namespace NetProg.Cluster

open NetProg.Lib

def MAX_SIZE : ℕ := 1024

def space : Byte := 32

/-- What a message is. -/
inductive Kind where
  | home
  | flag
  | command
  | input
  deriving DecidableEq

structure Msg where
  kind : Kind
  text : CStr
  deriving DecidableEq

/-- A command for a node: its text, and the input it is sent with if `ispipe` is 1. -/
structure Command where
  msg : CStr
  input : Option CStr

/-- What the child of `runcommand` sends. -/
def Command.msgs (c : Command) : List Msg :=
  ⟨.flag, if c.input.isSome then lit "1" else lit "0"⟩ :: ⟨.command, c.msg⟩ :: c.input.toList.map (Msg.mk .input)

/-! ### The server -/

/-- Where the server is with a connection: at one of its reads, or past them, in `cd` or waiting for the program. -/
inductive Phase where
  | home
  | flag
  | command (ispipe : Bool)
  | input
  | running
  deriving DecidableEq

/-- `arg[0]`: the first word that is not empty. -/
def arg0 (msg : CStr) : Option CStr := ((fields space msg).filter (·.bytes ≠ [])).head?

/-- The phase behind a read; without a word in the command, `strcmp` is called with NULL. -/
def after : Phase → CStr → Option Phase
  | .home, _ => some .flag
  | .flag, temppipe => some (.command (temppipe ≠ lit "0"))
  | .command ispipe, msg =>
    (arg0 msg).map fun arg => if arg = lit "cd" then .running else if ispipe then .input else .running
  | .input, _ => some .running
  | .running, _ => some .running

def expects : Phase → Option Kind
  | .home => some .home
  | .flag => some .flag
  | .command _ => some .command
  | .input => some .input
  | .running => none

def server : Reader Phase Msg Kind := ⟨expects, Msg.kind, fun p m => after p m.text⟩

/-! ### Connections -/

/-- A connection made by `initializesockets` or by `runcommand`; `phase` is `none` until it is accepted. -/
structure Conn where
  byLoop : Bool
  sent : List Msg
  got : List Msg
  phase : Option Phase
  deriving DecidableEq

namespace Conn

def fresh (byLoop : Bool) : Conn := ⟨byLoop, [], [], none⟩

/-- What the server has not read yet. -/
def unread (c : Conn) : List Msg := c.sent.drop c.got.length

def send (m : Msg) (c : Conn) : Conn := { c with sent := c.sent ++ [m] }

end Conn

/-- `sockfds[i]`: not connected, connected, connected to a process that is gone, or queued at a listening socket that
nobody accepts from any more. -/
inductive Sock where
  | fresh
  | live (c : Conn)
  | reset
  | stray
  deriving DecidableEq

def Sock.conn : Sock → List Conn
  | .live c => [c]
  | _ => []

def Sock.send (m : Msg) : Sock → Sock
  | .live c => .live (c.send m)
  | s => s

/-! ### Nodes -/

/-- A node: `list[i].active` and `sockfds[i]` of the client; the connections that the client has closed and the server has
still to deal with, and those the server is done with; whether the server runs, and whether this process has accepted a
connection before; and whether a listening socket of an earlier process is left. -/
structure Node where
  active : Bool
  sock : Sock
  closed : List Conn
  past : List Conn
  up : Bool
  greeted : Bool
  leftover : Bool

/-- What `connect` meets: the server, the leftover listening socket, or neither. -/
inductive Reach where
  | server
  | leftover
  | refused
  deriving DecidableEq

namespace Node

/-- The connection that the server is at, or accepts next. -/
def front (nd : Node) : Option Conn := (nd.closed ++ nd.sock.conn).head?

def conns (nd : Node) : List Conn := nd.past ++ nd.closed ++ nd.sock.conn

def setFront (nd : Node) (c : Conn) : Node :=
  match nd.closed with
  | [] => { nd with sock := .live c }
  | _ :: cs => { nd with closed := c :: cs }

/-- `close(connfd)`. -/
def dropFront (nd : Node) : Node :=
  match nd.closed with
  | [] => { nd with sock := .reset, past := nd.past ++ nd.sock.conn }
  | c :: cs => { nd with closed := cs, past := nd.past ++ [c] }

/-- The process is gone and all its sockets with it. -/
def crash (nd : Node) : Node :=
  { nd with sock := if nd.sock = .fresh then .fresh else .reset, closed := [], past := nd.conns, up := false,
            greeted := false, leftover := false }

/-- `execvp("bash", …)`: the process is gone, but not its sockets. -/
def restart (nd : Node) : Node :=
  { nd with sock := if nd.sock = .fresh ∨ nd.sock = .reset then nd.sock else .stray, closed := [], past := nd.conns,
            up := false, greeted := false, leftover := true }

/-- `connect`, where it returns 0. -/
def connect (nd : Node) (byLoop : Bool) : Reach → Option Node
  | .server => if nd.up ∧ nd.sock = .fresh then some { nd with sock := .live (.fresh byLoop) } else none
  | .leftover => if nd.leftover ∧ nd.sock = .fresh then some { nd with sock := .stray } else none
  | .refused => none

def send (nd : Node) (m : Msg) : Node := { nd with sock := nd.sock.send m }

/-- `close(sockfds[i])`, and the socket that replaces it. -/
def close (nd : Node) : Node := { nd with sock := .fresh, closed := nd.closed ++ nd.sock.conn }

/-- The client's `read` returns: there is output, or the connection is closed at the other end. -/
def Answered (nd : Node) : Prop :=
  match nd.sock with
  | .live c => c.phase = some .running
  | .stray => False
  | _ => True

instance (nd : Node) : Decidable nd.Answered := by
  unfold Answered
  split <;> infer_instance

def accept (nd : Node) : Option Node :=
  match nd.front with
  | some c =>
    if nd.up ∧ c.phase = none then
      some { nd.setFront { c with phase := some (if nd.greeted then .flag else .home) } with greeted := true }
    else none
  | none => none

/-- A `read` of the server.  It blocks while nothing has come, unless the client has closed the connection: then the
server restarts if it expects a flag, and goes on with an empty string if not. -/
def read (nd : Node) : Option Node :=
  match nd.front with
  | some c =>
    match c.phase with
    | some p =>
      match expects p, c.unread with
      | some k, m :: _ =>
        some (match after p m.text with
          | some p' => nd.setFront { c with got := c.got ++ [⟨k, m.text⟩], phase := some p' }
          | none => (nd.setFront { c with got := c.got ++ [⟨k, m.text⟩] }).crash)
      | some k, [] =>
        if nd.closed = [] then none
        else if k = .flag then some nd.restart
        else some (match after p (lit "") with
          | some p' => nd.setFront { c with phase := some p' }
          | none => nd.crash)
      | none, _ => none
    | none => none
  | none => none

/-- The command is done. -/
def finish (nd : Node) : Option Node :=
  match nd.front with
  | some c => if c.phase = some .running then some nd.dropFront else none
  | none => none

end Node

/-! ### The client -/

/-- Where `initializesockets` is with the node `i`: before its `connect`, or behind it, before `active = 1` or before
`send`. -/
inductive Point where
  | checking
  | connected
  | marked
  deriving DecidableEq

/-- Where `runcommand` is with a node: its child has these messages to send and then reads the output; `close`; the
`connect` behind it. -/
inductive Job where
  | child (rest : List Msg)
  | close
  | reconnect
  deriving DecidableEq

/-- The client process; `job` is what its signal handler does, and with which node. -/
structure Client where
  home : CStr
  i : ℕ
  point : Point
  job : Option (ℕ × Job)

structure State where
  client : Client
  node : ℕ → Node

/-- A client process starts. -/
def Client.start (home : CStr) : Client := ⟨home, 0, .checking, none⟩

/-- The own node, which counts as active from the start; its commands do not go through a socket. -/
def idx : ℕ := 0 -- the search for the own address tests the result of `strcpy` and never succeeds

def start (home : CStr) : State where
  client := .start home
  node i := ⟨i = idx, .fresh, [], [], false, false, false⟩

/-- What happens next: a statement of the connect loop; a command that the handler begins, and the statements of
`runcommand`; the client ends and a new one starts; the server of a node does something, ends or starts. -/
inductive Event where
  | skip
  | connect (r : Reach)
  | mark
  | greet
  | command (i : ℕ) (c : Command)
  | send
  | output
  | close
  | reconnect (r : Reach)
  | restart (home : CStr)
  | accept (i : ℕ)
  | read (i : ℕ)
  | finish (i : ℕ)
  | crash (i : ℕ)
  | up (i : ℕ)

/-- The next node of the loop. -/
def Client.next (n : ℕ) (cl : Client) : Client :=
  { cl with i := if cl.i + 1 < n then cl.i + 1 else 0, point := .checking }

namespace State

/-- The client goes on, and something happens at node `i`. -/
def set (s : State) (cl : Client) (i : ℕ) (nd : Node) : State := ⟨cl, Function.update s.node i nd⟩

/-- The server of node `i` does something. -/
def serve (s : State) (i : ℕ) (nd : Option Node) : Option State := nd.map (s.set s.client i)

/-- The loop goes on: the handler is not running. -/
def loop (n : ℕ) (s : State) : Event → Option State
  | .skip =>
    if s.client.point = .checking ∧ (s.node s.client.i).active then some { s with client := s.client.next n } else none
  | .connect r =>
    if s.client.point = .checking ∧ ¬(s.node s.client.i).active then
      if r = .refused then some { s with client := s.client.next n }
      else ((s.node s.client.i).connect true r).map (s.set { s.client with point := .connected } s.client.i)
    else none
  | .mark =>
    if s.client.point = .connected then
      some (s.set { s.client with point := .marked } s.client.i { s.node s.client.i with active := true })
    else none
  | .greet =>
    if s.client.point = .marked then
      some (s.set (s.client.next n) s.client.i ((s.node s.client.i).send ⟨.home, s.client.home⟩))
    else none
  | .command i c =>
    if i ≠ idx ∧ i < n ∧ (s.node i).active then
      some { s with client := { s.client with job := some (i, .child c.msgs) } }
    else none
  | _ => none

/-- `runcommand` goes on with the node `i`. -/
def handler (s : State) (i : ℕ) : Job → Event → Option State
  | .child (m :: rest), .send =>
    some (s.set { s.client with job := some (i, .child rest) } i ((s.node i).send m))
  | .child [], .output =>
    if (s.node i).Answered then some { s with client := { s.client with job := some (i, .close) } } else none
  | .close, .close => some (s.set { s.client with job := some (i, .reconnect) } i (s.node i).close)
  | .reconnect, .reconnect r =>
    if r = .refused then some (s.set { s.client with job := none } i { s.node i with active := false, sock := .fresh })
    else ((s.node i).connect false r).map (s.set { s.client with job := none } i)
  | _, _ => none

/-- The client goes on. -/
def proceed (n : ℕ) (s : State) (e : Event) : Option State :=
  match s.client.job with
  | none => s.loop n e
  | some (i, job) => s.handler i job e

def step (n : ℕ) (s : State) : Event → Option State
  | .restart home => some ⟨.start home, fun i => { (s.node i).close with active := i = idx }⟩
  | .accept i => s.serve i (s.node i).accept
  | .read i => s.serve i (s.node i).read
  | .finish i => s.serve i (s.node i).finish
  | .crash i => s.serve i (if (s.node i).up then some (s.node i).crash else none)
  | .up i => s.serve i (if (s.node i).up then none else some { s.node i with up := true })
  | e => s.proceed n e

/-- The session is in step: on every connection the server has taken every message it has read for what the client sent
it as, in the order in which the client sent them. -/
def Aligned (s : State) : Prop := ∀ i, ∀ c ∈ (s.node i).conns, c.got <+: c.sent

end State

end NetProg.Cluster
