import FastParse.Framework.Run
import FastParse.Framework.Ring
import FastParse.Framework.Fifo
import FastParse.Framework.Bytes
import FastParse.Framework.Runs
import FastParse.Framework.Chain
import FastParse.Framework.LinkedStack
import FastParse.Framework.FreeLists
import FastParse.Framework.RefCount
import FastParse.Framework.FlagQueue
import FastParse.Framework.SlotTable
import FastParse.Framework.SharedTable
import FastParse.Framework.Unwinding
import FastParse.Framework.Renaming
import FastParse.Framework.Records
import FastParse.Framework.Assign
import FastParse.Framework.Loop
import FastParse.Framework.BigEndian
import FastParse.Framework.Critical
import FastParse.Base
import FastParse.Nlri
import FastParse.Table.Bigtable
import FastParse.Table.Bounds
import FastParse.Table.Concurrent
import FastParse.Locrib.Journal
import FastParse.Locrib.Capacity
import FastParse.Locrib.Fifo
import FastParse.Locrib.Sequential
import FastParse.Locrib.Concurrent
import FastParse.Locrib.Accesses
import FastParse.Slab.Alloc
import FastParse.Slab.Pools
import FastParse.Slab.Stack
import FastParse.Slab.Counts
import FastParse.Slab.Live
import FastParse.Update.Attributes
import FastParse.Phase3.Serialize
import FastParse.Phase3.Emit
import FastParse.Phase3.Schedule
import FastParse.Phase3.Drain
import FastParse.Phase3.WakeUp
import FastParse.Phase3.Layout
import FastParse.Phase3.Withdrawal
import FastParse.Phase3.Exported
import FastParse.Phase3.Prefixes
import FastParse.Phase3.Sentinel
import FastParse.Phase3.ReadBack
import FastParse.Phase3.ExportLength
import FastParse.Update.Parse
import FastParse.Update.Calls
import FastParse.Update.Messages
import FastParse.Update.Buffer
import FastParse.Update.Split
import FastParse.Update.Sections
import FastParse.Update.Block
import FastParse.Update.Accepted
import FastParse.Update.Segments
import FastParse.Update.PathWalk
import FastParse.Update.Decoded
import FastParse.Update.Boundaries
import FastParse.Update.Framing
import FastParse.Update.Entries
import FastParse.Update.Walks
import FastParse.Phase3.Blocks
import FastParse.Phase3.Canonical
import FastParse.Phase3.Cursor
import FastParse.Phase3.Completion
import FastParse.Phase3.CopyExport
import FastParse.Phase3.Partition
import FastParse.Phase3.Halting
import FastParse.Update.Rounds
import FastParse.Phase3.CopyOrder
import FastParse.Phase3.Ordered
import FastParse.Routes.RefCounts
import FastParse.Routes.BestRoute
import FastParse.Routes.Reachable
import FastParse.Routes.Withdraw
import FastParse.Routes.Replacement
import FastParse.Routes.Dissemination
import FastParse.Routes.Repeat
import FastParse.Routes.Phase3Calls
import FastParse.Routes.MessageLoop
import FastParse.Routes.Oversized
import FastParse.Routes.ByPrefix
import FastParse.Routes.Contents
import FastParse.Routes.Twins
import FastParse.Routes.Interleaved
import FastParse.Routes.Selection
import FastParse.Routes.Exportable
import FastParse.Phase3.LocalPref
import FastParse.Phase3.Prepend
import FastParse.Phase3.PathShift
import FastParse.Routes.Leaks
import FastParse.Routes.AdjRibIn
import FastParse.Phase3.Stream
import FastParse.Routes.Announcements
import FastParse.Phase3.PeerProgram
import FastParse.Phase3.Interleavings
import FastParse.Phase3.LastFlush
import FastParse.Routes.Output
import FastParse.Routes.Neighbours
import FastParse.Routes.Network
import FastParse.Routes.Hops
import FastParse.Routes.Copies
import FastParse.Routes.Paths
import FastParse.Routes.Latest
import FastParse.Framework.Stock
import FastParse.Slab.Peaks
import FastParse.Framework.Serial
import FastParse.Slab.Threads
import FastParse.Slab.Linear
import FastParse.Slab.Serialized
