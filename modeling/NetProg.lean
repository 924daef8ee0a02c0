import NetProg.Lib.Decimal
import NetProg.NameServer.Names
import NetProg.NameServer.Resolution
import NetProg.NameServer.Moves
import NetProg.NameServer.Safety
import NetProg.NameServer.Removal
import NetProg.NameServer.Copies
import NetProg.NameServer.Tree
import NetProg.Receive.Inspection
import NetProg.DataServer.Copying
import NetProg.BigFs.Framing
import NetProg.BigFs.Save
import NetProg.BigFs.Decoding
import NetProg.BigFs.Placement
import NetProg.BigFs.ShortWrites
import NetProg.BigFs.Startup
import NetProg.BigFs.FileSystem
import NetProg.Voting.Ballots
import NetProg.LoadBalancer.Signals
import NetProg.Chat.Messages
import NetProg.Chat.Group
import NetProg.Sniffer.Isolation
import NetProg.Tee.Copies
import NetProg.OddEven.Broadcast
import NetProg.Shell.Pipeline
import NetProg.Shell.Blocking
import NetProg.Shell.Vectors
import NetProg.Shell.Redirection
import NetProg.Shell.Splitting
import NetProg.Shell.Relay
import NetProg.Shell.Descriptors
import NetProg.Shell.Lines
import NetProg.Shell.Doubling
import NetProg.Shell.Jobs
import NetProg.Shell.Search
import NetProg.Cluster.Handshake
import NetProg.Cluster.Composition
import NetProg.Cluster.Segments
import NetProg.Cluster.Config
import NetProg.Cluster.Routing
import NetProg.Echo.Capacity
import NetProg.SharedMemory.Semaphores
