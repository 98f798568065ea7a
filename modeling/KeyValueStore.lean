import KeyValueStore.Lib.ByteBuffer
import KeyValueStore.Lib.Ring
import KeyValueStore.Lib.DoublyLinked
import KeyValueStore.Lib.Run
import KeyValueStore.Lib.Linearizable
import KeyValueStore.Message
import KeyValueStore.Fault
import KeyValueStore.Store
import KeyValueStore.StoreInvariant
import KeyValueStore.StoreEdits
import KeyValueStore.StoreRefinement
import KeyValueStore.StoreRuns
import KeyValueStore.Cache
import KeyValueStore.CacheInvariant
import KeyValueStore.CacheRefinement
import KeyValueStore.CacheOperations
import KeyValueStore.CacheRuns
import KeyValueStore.Session
import KeyValueStore.Threads
import KeyValueStore.ThreadInvariant
import KeyValueStore.ThreadSafety
import KeyValueStore.ThreadRuns
import KeyValueStore.Dispatcher
import KeyValueStore.DispatcherRuns
import KeyValueStore.CachePointers
import KeyValueStore.ThreadCapacity
import KeyValueStore.Lib.SegmentedStream
import KeyValueStore.Sockets
import KeyValueStore.StoreOpens
import KeyValueStore.StoreTracks
import KeyValueStore.StoreInterrupted
import KeyValueStore.StoreStreams
import KeyValueStore.Lib.Lru
import KeyValueStore.CacheRecency
import KeyValueStore.Lib.Locking
import KeyValueStore.Locks
import KeyValueStore.LockOrder
import KeyValueStore.KeyPadding
import KeyValueStore.PoolOwnership
import KeyValueStore.AcceptPass
import KeyValueStore.CacheVictim
import KeyValueStore.QueueIndices
import KeyValueStore.Lib.TextStream
import KeyValueStore.ServerConfigFile
import KeyValueStore.Client
import KeyValueStore.ClientRequests
import KeyValueStore.SolutionsGenerator
import KeyValueStore.ClientOracle
import KeyValueStore.CacheJournal
import KeyValueStore.CacheWrites
import KeyValueStore.CacheReads
import KeyValueStore.CacheDurability
import KeyValueStore.TruncatedRequests
import KeyValueStore.StoreDump
import KeyValueStore.TestingDatabase
import KeyValueStore.Processes
import KeyValueStore.AutoTest
import KeyValueStore.RequestsGenerator
import KeyValueStore.EventLoop
import KeyValueStore.EventLoopRuns
import KeyValueStore.EventLoopProgress
import KeyValueStore.StoreSpace
import KeyValueStore.FileRoom
import KeyValueStore.EventLoopDurability
import KeyValueStore.Server
import KeyValueStore.ServerRuns
import KeyValueStore.ThreadTurns
import KeyValueStore.ServerTurns
import KeyValueStore.ServerShutdown
import KeyValueStore.ThreadSequential
