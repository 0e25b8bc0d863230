import Serie.Fd.Clean
import Serie.Fd.Ownership
import Serie.Fd.Snapshot
import Serie.Json.Accept
import Serie.Json.Print
import Serie.Json.Unicode
import Serie.Lib.Trace
import Serie.Log.Clock
import Serie.Log.Framing
import Serie.Log.HeapFlush
import Serie.Log.Line
import Serie.Log.Rebuild
import Serie.Log.Resolution
import Serie.Log.Shutdown
import Serie.Log.Ticks
import Serie.Mirror.Lives
import Serie.Mirror.Sync
import Serie.Model.Conn
import Serie.Model.Runs
import Serie.Proto.Lookup
import Serie.Proto.Tokenx
import Serie.Proto.Tree
import Serie.Records.BirthParent
import Serie.Records.Death
import Serie.Records.Lifetime
import Serie.Records.Refusal
import Serie.Records.StatText
import Serie.Records.StatusText
import Serie.Records.Touched
import Serie.System.LogFile
import Serie.System.Stop
import Serie.Table.BirthKey
import Serie.Table.Commute
import Serie.Table.Dangling
import Serie.Table.Incarnation
import Serie.Table.Newest
import Serie.Table.Owner
import Serie.Tree.Cycle
import Serie.Tree.Detach
import Serie.Tree.Handover
import Serie.Tree.Invariant
import Serie.Tree.Isolation
import Serie.Tree.Lists
import Serie.Tree.Ppid
import Serie.Tree.Shape
import Serie.Wire.Dispatch
import Serie.Wire.Extent
