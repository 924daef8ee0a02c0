import NetProg.Client.Commands
import NetProg.DataServer.Commands
import NetProg.Lib.Star
import NetProg.NameServer.Commands

/-!
# The file system: a client, the name server and the data servers

The three programs put together: the client is connected to the name server and to the data servers, and these to
nobody else.
-/

namespace NetProg.BigFs

open NetProg.Lib NetProg.Client

/-- The programs of the file system. -/
def bigfs (c : Config) : Star Server Local where
  Fault := Stop
  Label := Label
  ServerFault
    | .name => NameServer.Fault
    | .data _ => DataServer.Fault
  ServerLabel
    | .name => NameServer.Mem
    | .data _ => DataServer.Store
  code := code c
  main
    | .name, s => .read () (NameServer.dispatch s)
    | .data _, s => .read () (DataServer.dispatch s)

variable {c : Config}

/-- The programs are started, the data servers with what they have stored, and `lines` are going to be typed. -/
def start (c : Config) (garbage : ℕ → NameServer.Node) (store : ℕ → DataServer.Store) (lines : List CStr) :
    (bigfs c).State where
  client := .ret (.prompt 0)
  server
    | .name => .ret (NameServer.fresh garbage)
    | .data ptr => .ret (store ptr)
  sent _ := []
  replies _ := []
  input
    | .terminal => lines.flatMap CStr.z
    | .file .. => []
  output _ := []

/-- A server waits for a command at the head of the loop of `main`. -/
def Idle (x : (bigfs c).State) (i : Server) : Prop := ∃ s, x.server i = .ret s

end NetProg.BigFs
