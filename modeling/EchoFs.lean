import EchoFs.Library.Transition
import EchoFs.Library.Service
import EchoFs.Library.Checked
import EchoFs.Library.Linked
import EchoFs.Library.Loop
import EchoFs.Library.Intervals
import EchoFs.Library.IntervalMap
import EchoFs.Library.Memory
import EchoFs.Library.Slots
import EchoFs.Library.SideTree
import EchoFs.Library.Double
import EchoFs.Library.Strtod
import EchoFs.Library.ByteOrder
import EchoFs.RangeLock.Table
import EchoFs.RangeLock.Ops
import EchoFs.RangeLock.Share
import EchoFs.RangeLock.Lock
import EchoFs.RangeLock.Unlock
import EchoFs.RangeLock.Handles
import EchoFs.RangeLock.Manager
import EchoFs.RangeLock.Safety
import EchoFs.RangeLock.Resume
import EchoFs.RangeLock.Consumed
import EchoFs.RangeLock.Empty
import EchoFs.RangeLock.Asserts
import EchoFs.RangeLock.Waiting
import EchoFs.Mdds.Leaves
import EchoFs.Mdds.Insert
import EchoFs.Mdds.Tree
import EchoFs.Mdds.Runs
import EchoFs.Nvml.Attributes
import EchoFs.Nvml.Segments
import EchoFs.Nvml.SegmentTree
import EchoFs.Nvml.Layout
import EchoFs.Nvml.Storage
import EchoFs.Nvml.BufCopy
import EchoFs.Nvml.CopyRegions
import EchoFs.Nvml.ReadWrite
import EchoFs.Nvml.Gaps
import EchoFs.Nvml.Partition
import EchoFs.Nvml.Visits
import EchoFs.Nvml.Regions
import EchoFs.Nvml.Shrink
import EchoFs.Nvml.Unmaps
import EchoFs.Nvml.Bounds
import EchoFs.Nvml.Truncate
import EchoFs.Nvml.Unload
import EchoFs.Nvml.ShortWrites
import EchoFs.Nvml.Populate
import EchoFs.Library.Throws
import EchoFs.Nvml.FailedPools
import EchoFs.Nvml.Pieces
import EchoFs.Nvml.Appends
import EchoFs.Nvml.Linearize
import EchoFs.Avl.Heap
import EchoFs.Avl.Rep
import EchoFs.Avl.Rotation
import EchoFs.Avl.Insert
import EchoFs.Avl.Search
import EchoFs.Avl.Remove
import EchoFs.Avl.Runs
import EchoFs.Avl.Walk
import EchoFs.Avl.Destroy
import EchoFs.RangeLock.TreeTable
import EchoFs.Api.Requests
import EchoFs.Api.Tracker
import EchoFs.Api.ThreadPool
import EchoFs.Api.PoolOrder
import EchoFs.Api.Receive
import EchoFs.Api.Session
import EchoFs.Api.SessionRuns
import EchoFs.Api.Calls
import EchoFs.Api.Tasks
import EchoFs.Library.LockOrder
import EchoFs.Nvml.Locks
import EchoFs.Nvml.PoolDir
import EchoFs.Library.Bitmap
import EchoFs.DevDax.BigPool
import EchoFs.DevDax.Files
import EchoFs.DevDax.Ledger
import EchoFs.DevDax.FullDevice
import EchoFs.DevDax.Extents
import EchoFs.DevDax.TwoRuns
import EchoFs.DevDax.Provenance
import EchoFs.DevDax.Space
import EchoFs.Library.PathString
import EchoFs.Library.NameTree
import EchoFs.Nvml.Backend
import EchoFs.Nvml.Namespace
import EchoFs.Nvml.Consistent
import EchoFs.Nvml.Loads
import EchoFs.Nvml.PoolNames
import EchoFs.Nvml.Subtrees
import EchoFs.Nvml.LoadRoots
import EchoFs.Nvml.Results
import EchoFs.Settings.Sizes
import EchoFs.Settings.Schema
import EchoFs.Nvml.Alignment
