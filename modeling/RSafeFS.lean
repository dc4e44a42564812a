import RSafeFS.Lib.Transition
import RSafeFS.Lib.Budget
import RSafeFS.Lib.Loop
import RSafeFS.Lib.ByteFile
import RSafeFS.Lib.Trace
import RSafeFS.Lib.History
import RSafeFS.Lib.AssocList
import RSafeFS.Lib.SharedMutex
import RSafeFS.Fuse
import RSafeFS.Config.Layers
import RSafeFS.Config.Stack
import RSafeFS.Config.Composition
import RSafeFS.Config.Requests
import RSafeFS.PathName
import RSafeFS.Cache.EvictionPolicy
import RSafeFS.Cache.LruManager
import RSafeFS.Cache.ReadLayer
import RSafeFS.MetadataCache.Cache
import RSafeFS.MetadataCache.Hooks
import RSafeFS.MetadataCache.Coherence
import RSafeFS.MetadataCache.Rename
import RSafeFS.MetadataCache.Race
import RSafeFS.MetadataCache.Threads
import RSafeFS.MetadataCache.LatestPut
import RSafeFS.DataCache.Cache
import RSafeFS.DataCache.ReadLoop
import RSafeFS.DataCache.Transparency
import RSafeFS.DataCache.CloseToOpen
import RSafeFS.DataCache.Outdated
import RSafeFS.DataCache.Identity
import RSafeFS.DataCache.Balance
import RSafeFS.DataCache.Iterations
import RSafeFS.DataCache.CacheSize
import RSafeFS.DataCache.Termination
import RSafeFS.DataCache.Threads
import RSafeFS.DataCache.Refresh
import RSafeFS.DataCache.Bookkeeping
import RSafeFS.DataCache.SharedSize
import RSafeFS.DataCache.SharedBound
import RSafeFS.DataCache.BlockLocks
import RSafeFS.DataCache.Guarded
import RSafeFS.DataCache.ReadProgress
import RSafeFS.DataCache.SharedVersions
import RSafeFS.DataCache.ConcurrentReads
import RSafeFS.ReadAhead.Cache
import RSafeFS.ReadAhead.Handles
import RSafeFS.ReadAhead.Threads
import RSafeFS.ReadAhead.Sequential
import RSafeFS.ReadAhead.Freshness
import RSafeFS.ReadYourWrites
import RSafeFS.SyncClient.Streams
import RSafeFS.SyncClient.Locks
import RSafeFS.SyncClient.Matching
import RSafeFS.SyncClient.Lifetime
import RSafeFS.SyncClient.ExactlyOnce
import RSafeFS.SyncClient.FailedOpens
import RSafeFS.SyncClient.Tables
import RSafeFS.SyncClient.Progress
import RSafeFS.SyncClient.Completion
import RSafeFS.Rpc.Structs
import RSafeFS.Rpc.Attributes
import RSafeFS.Rpc.Messages
import RSafeFS.Rpc.Calls
import RSafeFS.Rpc.Transparency
import RSafeFS.Rpc.FileAttributes
import RSafeFS.Rpc.Readdir
import RSafeFS.Rpc.Handlers
import RSafeFS.Rpc.LifeCycle
import RSafeFS.AsyncClient.Blocks
import RSafeFS.AsyncClient.Pipeline
import RSafeFS.AsyncClient.Coalescing
import RSafeFS.AsyncClient.Invariant
import RSafeFS.AsyncClient.WriteBehind
import RSafeFS.AsyncClient.Scheduler
import RSafeFS.AsyncClient.Accounting
import RSafeFS.AsyncClient.Session
import RSafeFS.AsyncClient.Progress
import RSafeFS.AsyncClient.Refinement
import RSafeFS.AsyncClient.Channel
import RSafeFS.Local.Directory
import RSafeFS.Local.Syscalls
import RSafeFS.Local.LocalOperations
import RSafeFS.Local.NfsOperations
import RSafeFS.Local.Stability
import RSafeFS.Local.Errors
import RSafeFS.Local.Symlinks
import RSafeFS.Stack.ClientStack
import RSafeFS.Stack.Freshness
