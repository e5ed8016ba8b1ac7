import RedisServer.Machine.Run
import RedisServer.Machine.Circular
import RedisServer.Machine.Table
import RedisServer.Machine.Probing
import RedisServer.Machine.Blocks
import RedisServer.Machine.CText
import RedisServer.Storage.RingBuffer
import RedisServer.Machine.Links
import RedisServer.Storage.LinkedList
import RedisServer.Storage.NodeList
import RedisServer.Storage.Database
import RedisServer.Storage.KeyMap
import RedisServer.Storage.Ownership
import RedisServer.Storage.Khash
import RedisServer.Storage.KhashSearch
import RedisServer.Storage.KhashResize
import RedisServer.Storage.KhashMap
import RedisServer.Storage.KhashDb
import RedisServer.Storage.Counters
import RedisServer.Storage.LiveKeys
import RedisServer.Machine.ByteCodec
import RedisServer.Snapshot.RdbString
import RedisServer.Snapshot.Rdb
import RedisServer.Snapshot.RdbRecords
import RedisServer.Snapshot.RdbExpiry
import RedisServer.Snapshot.RdbTruncated
import RedisServer.Snapshot.RdbRoundTrip
import RedisServer.Machine.Loop
import RedisServer.Snapshot.RdbLoader
import RedisServer.Protocol.Resp
import RedisServer.Protocol.InlineTokens
import RedisServer.Protocol.InlineCount
import RedisServer.Protocol.Frames
import RedisServer.Protocol.ParserStack
import RedisServer.Protocol.ParserBounds
import RedisServer.Protocol.CommandHandler
import RedisServer.Protocol.Gathering
import RedisServer.Protocol.Pipeline
import RedisServer.Protocol.InlineCommand
import RedisServer.Protocol.ClientInput
import RedisServer.Protocol.LengthHeader
import RedisServer.Protocol.Chunking
import RedisServer.Protocol.HandlerBounds
import RedisServer.Protocol.Dispatch
import RedisServer.Protocol.BenignInput
import RedisServer.Protocol.Completed
import RedisServer.Replication.Propagation
import RedisServer.Replication.Sequential
import RedisServer.Protocol.Replies
import RedisServer.Protocol.ReplyReader
import RedisServer.Commands.Handlers
import RedisServer.Commands.Answers
import RedisServer.Commands.ValueTypes
import RedisServer.Commands.OneReply
import RedisServer.Commands.BinarySafe
import RedisServer.Commands.SetOptions
import RedisServer.Commands.SetCommand
import RedisServer.Commands.Expiry
import RedisServer.Commands.EagerExpiry
import RedisServer.Commands.Errors
import RedisServer.Snapshot.Restart
import RedisServer.Commands.Counting
import RedisServer.Commands.ListCommands
import RedisServer.Replication.Convergence
import RedisServer.Replication.ReplicaTable
import RedisServer.Replication.Backlog
import RedisServer.Replication.BacklogContent
import RedisServer.Replication.ReplicaService
import RedisServer.Replication.ReplicaLink
import RedisServer.Commands.Conversation
import RedisServer.Replication.PartialResync
import RedisServer.Replication.FullResync
import RedisServer.Replication.MasterLink
import RedisServer.Replication.Handshake
import RedisServer.Replication.ResyncLine
import RedisServer.Replication.SnapshotReception
import RedisServer.Replication.ReplicaOffset
import RedisServer.Replication.ResyncReply
import RedisServer.Replication.FullReload
import RedisServer.Replication.FullSync
import RedisServer.Events.EventLoop
import RedisServer.Events.LoopHandlers
import RedisServer.Events.LoopSafety
import RedisServer.Events.ReplicaSlots
