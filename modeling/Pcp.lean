import Pcp.CLib
import Pcp.Apteryx
import Pcp.Inet
import Pcp.Mapping
import Pcp.Paths
import Pcp.Table
import Pcp.Store
import Pcp.NextId
import Pcp.InetRoundTrip
import Pcp.Refinement
import Pcp.Allocator
import Pcp.Lifetime
import Pcp.SpecStore
import Pcp.GetAll
import Pcp.Config
import Pcp.Daemon
import Pcp.Watch
import Pcp.Lossy
import Pcp.Interleave
import Pcp.Disjoint
import Pcp.Initialize
import Pcp.System
import Pcp.Report
import Pcp.Snapshot
import Pcp.Race
import Pcp.MainLoop
import Pcp.Linearizable
import Pcp.Startup
import Pcp.Clients
