import SevenDB.Emission.Watermarks
import SevenDB.Emission.Delivery
import SevenDB.Emission.Resume
import SevenDB.Emission.Reconnect
import SevenDB.Emission.DeliveredPosition
import SevenDB.Emission.Purged
import SevenDB.Raft.CommitIndex
import SevenDB.Raft.OwnResult
import SevenDB.ShardManager.LeaderGate
import SevenDB.Ironhawk.TargetedDelivery
import SevenDB.RaftWal.PruneSafety
import SevenDB.Wal.CoFsync
import SevenDB.Wal.WriterLimit
import SevenDB.Wal.ReaderTotality
import SevenDB.Wal.DetectedFormat
import SevenDB.Bucket.FailedAppend
import SevenDB.Bucket.CompleteRead
import SevenDB.ShardManager.Routing
import SevenDB.Cmd.Counters
import SevenDB.Cmd.OptionPanics
import SevenDB.Cmd.KeptExpiry
import SevenDB.Cmd.FailedCommands
import SevenDB.Cmd.ExpiryUnits
import SevenDB.Cmd.ExpiredKeys
import SevenDB.Server.TimeFaithful
import SevenDB.Server.RejectedWatch
import SevenDB.Bucket.RaftBucketLog
import SevenDB.Wal.EnvelopeReading
import SevenDB.Store.ConditionalExpiry
import SevenDB.Store.PutExpiry
import SevenDB.Types.RangeRanks
import SevenDB.Eval.BitfieldParser
import SevenDB.Eval.BitPos
import SevenDB.Eval.CountMinSketch
import SevenDB.Eval.JSONArray
import SevenDB.Regex.WildCard
import SevenDB.Dencoding.ReverseVarint
import SevenDB.Wal.PruneCovered
import SevenDB.Types.ZAddOptions
import SevenDB.Server.Notified
import SevenDB.Server.DurableSet
import SevenDB.Emission.TickIsolation
import SevenDB.Emission.Handover
import SevenDB.Wal.StagedHardState
import SevenDB.Raft.PersistedLog
import SevenDB.Raft.PruneFloor
import SevenDB.Raft.ShadowTail
