import Teleno.StateDb.RocksdbBackend
import Teleno.StateDb.Replay
import Teleno.StateDb.Irreversible
import Teleno.StateDb.ForkHeads
import Teleno.StateDb.ForkChoice
import Teleno.StateDb.DoubleProducer
import Teleno.Mempool.Removed
import Teleno.Mempool.AtomicAdd
import Teleno.P2p.SelfDelimiting
import Teleno.P2p.PeerRpc
import Teleno.P2p.PeerErrors
import Teleno.P2p.ForkWatchdog
import Teleno.AccountHistory.Exactness
import Teleno.Backup.NoLoss
import Teleno.Backup.ObserverFirst
import Teleno.Chain.StorageMetering
import Teleno.Chain.Attribution
import Teleno.Chain.Payment
import Teleno.BlockStore.HeightRange
import Teleno.BlockStore.Retention
import Teleno.BlockStore.HighestBlock
import Teleno.Chain.ForkData
import Teleno.Backup.RepositorySound
import Teleno.Backup.SignedRestore
import Teleno.Backup.SftpCommands
import Teleno.Chain.MeterExact
import Teleno.StateDb.ByteAccounting
import Teleno.StateDb.AnonymousNode
import Teleno.StateDb.Neighbours
import Teleno.Storage.Reversible
import Teleno.Backup.WorkerExclusion
import Teleno.BlockProduction.FillBlock
import Teleno.BlockProduction.SubmitBlock
import Teleno.Mempool.BlockApplicator
import Teleno.P2p.LegacySeed
import Teleno.Chain.MeterTicks
import Teleno.Backup.ScheduleInterval
