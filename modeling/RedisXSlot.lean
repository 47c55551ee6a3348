import RedisXSlot.Lib.Batch
import RedisXSlot.Lib.Chain
import RedisXSlot.Delivery
import RedisXSlot.Slot
import RedisXSlot.DictProofs
import RedisXSlot.Skiplist
import RedisXSlot.SkiplistProofs
import RedisXSlot.SlotIndex
import RedisXSlot.SlotIndexProofs
import RedisXSlot.Notify
import RedisXSlot.Commands
import RedisXSlot.Coverage
import RedisXSlot.Tag
import RedisXSlot.Source
import RedisXSlot.Intact
import RedisXSlot.Expiry
import RedisXSlot.Async
import RedisXSlot.TagProofs
import RedisXSlot.SourceProofs
import RedisXSlot.Left
import RedisXSlot.Acknowledged
import RedisXSlot.Replay
import RedisXSlot.ScanClient
import RedisXSlot.Cron
import RedisXSlot.EntryNames
import RedisXSlot.Balance
import RedisXSlot.Connections
import RedisXSlot.Workers
import RedisXSlot.Group
import RedisXSlot.Checksum
import RedisXSlot.Route
import RedisXSlot.Info
import RedisXSlot.Delete
import RedisXSlot.Arguments
import RedisXSlot.Cache
import RedisXSlot.Announce
import RedisXSlot.Release
import RedisXSlot.Draw
import RedisXSlot.Drain
import RedisXSlot.Unreliable
import RedisXSlot.RanksProofs
import RedisXSlot.Iterator
import RedisXSlot.AsyncBlockProofs
import RedisXSlot.Numerals
import RedisXSlot.AdListRuns
import RedisXSlot.Hash
import RedisXSlot.CpuList
