import ConcurrentComputing.Runs
import ConcurrentComputing.Placement
import ConcurrentComputing.CuckooPath
import ConcurrentComputing.CuckooSearch
import ConcurrentComputing.TwoTable
import ConcurrentComputing.TwoTableSections
import ConcurrentComputing.TwoTableResize
import ConcurrentComputing.TwoTableSet
import ConcurrentComputing.TwoTableInsert
import ConcurrentComputing.TwoTableGrowth
import ConcurrentComputing.TwoTableThreads
import ConcurrentComputing.TwoTableUnique
import ConcurrentComputing.Store
import ConcurrentComputing.StoreSections
import ConcurrentComputing.StoreMap
import ConcurrentComputing.StoreMemory
import ConcurrentComputing.StoreSearch
import ConcurrentComputing.NodeBytes
import ConcurrentComputing.RemoteGet
import ConcurrentComputing.RemoteAgreement
import ConcurrentComputing.LockClients
import ConcurrentComputing.RemoteInsert
import ConcurrentComputing.ReplicatedStore
import ConcurrentComputing.ReplicaAgreement
import ConcurrentComputing.AcknowledgedInserts
import ConcurrentComputing.LazyList
import ConcurrentComputing.LazyListMemory
import ConcurrentComputing.LazyListThreads
import ConcurrentComputing.Timeline
import ConcurrentComputing.LazyListSet
import ConcurrentComputing.LazyListLinear
import ConcurrentComputing.LazyListAlone
import ConcurrentComputing.ConcurrentHashMap
import ConcurrentComputing.Connection
import ConcurrentComputing.Decimal
import ConcurrentComputing.Message
import ConcurrentComputing.Barrier
import ConcurrentComputing.BufferGrowth
import ConcurrentComputing.RoundTrip
import ConcurrentComputing.MessageBounds
import ConcurrentComputing.Environment
import ConcurrentComputing.TcpServer
import ConcurrentComputing.PartitionedSet
import ConcurrentComputing.SimpleMap
import ConcurrentComputing.SimpleMapRefinement
import ConcurrentComputing.Bank
import ConcurrentComputing.BankConservation
import ConcurrentComputing.BankDeadlock
import ConcurrentComputing.FirstMinimum
import ConcurrentComputing.KMeans
import ConcurrentComputing.TruncatedSum
import ConcurrentComputing.ParallelKMeans
import ConcurrentComputing.KMeansPass
import ConcurrentComputing.KMeansAgreement
import ConcurrentComputing.KMeansPartition
import ConcurrentComputing.LeastSquares
import ConcurrentComputing.KMeansDescent
import ConcurrentComputing.TMCuckoo
import ConcurrentComputing.TMPathcode
import ConcurrentComputing.TMInserts
import ConcurrentComputing.StoreThreads
import ConcurrentComputing.StoreUnique
import ConcurrentComputing.BucketLocks
import ConcurrentComputing.LockDiscipline
import ConcurrentComputing.StoreWorkers
import ConcurrentComputing.RemoteLookup
import ConcurrentComputing.RemoteAlone
import ConcurrentComputing.KMeansTermination
import ConcurrentComputing.BankSerial
import ConcurrentComputing.Locality
import ConcurrentComputing.LazyListRest
import ConcurrentComputing.LazyListProgress
import ConcurrentComputing.HashMapThreads
import ConcurrentComputing.WorkerDiscipline
import ConcurrentComputing.ClientLookups
import ConcurrentComputing.ReceiveBuffers
import ConcurrentComputing.Completions
import ConcurrentComputing.CompletedWaits
import ConcurrentComputing.BarrierProgress
import ConcurrentComputing.WireBytes
import ConcurrentComputing.WireLines
import ConcurrentComputing.WireProgress
import ConcurrentComputing.WireBarrier
