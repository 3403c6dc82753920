import LazyLog.Lib.Bytes
import LazyLog.Lib.Run
import LazyLog.Lib.Circular
import LazyLog.Lib.Tiling
import LazyLog.Lib.Stride
import LazyLog.Lib.Windows
import LazyLog.Lib.Disk
import LazyLog.Lib.Streams
import LazyLog.Lib.Transition
import LazyLog.Lib.Threads
import LazyLog.Lib.Objects
import LazyLog.Rpc.Entry
import LazyLog.Rpc.Multi
import LazyLog.Rpc.RoundTrip
import LazyLog.Rpc.Offsets
import LazyLog.Rpc.Guarded
import LazyLog.Rpc.ReqIds
import LazyLog.DurLog.Flat
import LazyLog.DurLog.Space
import LazyLog.DurLog.Ranges
import LazyLog.DurLog.Ring
import LazyLog.DurLog.FlatCli
import LazyLog.DurLog.Snapshot
import LazyLog.DurLog.GetTail
import LazyLog.DurLog.DelEntries
import LazyLog.DurLog.SpecRead
import LazyLog.DurLog.SpecRace
import LazyLog.DurLog.GcMessage
import LazyLog.DurLog.Layout
import LazyLog.DurLog.Interleaved
import LazyLog.DurLog.ServerFetch
import LazyLog.DurLog.Collections
import LazyLog.DurLog.Rest
import LazyLog.DurLog.ReqidMap
import LazyLog.DurLog.Conservation
import LazyLog.DurLog.Processed
import LazyLog.ConsLog.Batches
import LazyLog.ConsLog.Link
import LazyLog.ConsLog.Spec
import LazyLog.ConsLog.FetchAndStore
import LazyLog.ConsLog.Pipeline
import LazyLog.ConsLog.Shutdown
import LazyLog.ConsLog.Progress
import LazyLog.ConsLog.Drain
import LazyLog.ConsLog.Cursor
import LazyLog.ConsLog.Order
import LazyLog.ConsLog.Watermarks
import LazyLog.Storage.ShardServer
import LazyLog.Storage.NaiveBackend
import LazyLog.Storage.Partition
import LazyLog.Storage.KafkaBackend
import LazyLog.Storage.Replication
import LazyLog.Storage.Store
import LazyLog.Storage.Completion
import LazyLog.Storage.Reads
import LazyLog.Storage.Unoptimized
import LazyLog.Storage.Restart
import LazyLog.Storage.Corfu
import LazyLog.Storage.WakeUps
import LazyLog.Storage.TornTail
import LazyLog.Storage.FailedOpen
import LazyLog.Client.LazyLogCli
import LazyLog.Client.Buffers
import LazyLog.Client.ClientIds
import LazyLog.Client.Positions
import LazyLog.Service.Tail
import LazyLog.Service.Appends
import LazyLog.Service.Collection
import LazyLog.Service.Runs
import LazyLog.Service.Pending
import LazyLog.Service.Stall
import LazyLog.Service.Returns
import LazyLog.Service.Messages
import LazyLog.Service.CorfuReads
import LazyLog.Service.Linear
import LazyLog.Service.Readable
import LazyLog.App.KvStore
import LazyLog.Service.CorfuAppends
import LazyLog.App.Replicas
import LazyLog.Utils.Properties
import LazyLog.Utils.CommandLine
