import SyncLib.Barrier.Reuse
import SyncLib.Barrier.Flex
import SyncLib.Latch.Waiters
import SyncLib.CallOnce
import SyncLib.UniqueLock
import SyncLib.Lock.Deadlock
import SyncLib.StopToken.Counting
import SyncLib.StopToken.Refinement
import SyncLib.SharedMutex.Word
import SyncLib.SharedMutex.Exclusion
import SyncLib.SharedMutex.Waiters
import SyncLib.Core.Interleaving
import SyncLib.FastMutex
import SyncLib.FastSharedMutex.Basic
import SyncLib.FastSharedMutex.Balance
import SyncLib.FastSharedMutex.Steps
import SyncLib.FastSharedMutex.Exclusion
import SyncLib.FastSharedMutex.Tokens
import SyncLib.FastSharedMutex.TryLock
import SyncLib.Core.Ring
import SyncLib.Queue.Basic
import SyncLib.Queue.Blocking
import SyncLib.Queue.LockFree
import SyncLib.Core.Handoff
import SyncLib.Queue.Slots
import SyncLib.Queue.SimpleBlocking
import SyncLib.ThreadPool.Conservation
import SyncLib.ThreadPool.Shutdown
import SyncLib.TimedMutex.Timed
import SyncLib.Semaphore.Counting
import SyncLib.Semaphore.Fast
import SyncLib.TimedMutex.Recursive
import SyncLib.ThreadPool.Basic
import SyncLib.Thread.Posix
import SyncLib.Thread.JThread
import SyncLib.StopToken.References
import SyncLib.SharedLock
import SyncLib.UniqueLock.Locking
import SyncLib.Latch.Accounting
import SyncLib.Queue.Delivery
import SyncLib.Queue.Sequential
import SyncLib.Lock.Attempts
import SyncLib.Lock.Rotation
import SyncLib.StopToken.Programs
import SyncLib.StopToken.Sequential
import SyncLib.Core.Marks
import SyncLib.Event
import SyncLib.SharedMutex.Readers
import SyncLib.StopToken.Linking
import SyncLib.ThreadPool.Posting
import SyncLib.Core.Clock
import SyncLib.ConditionVariable
import SyncLib.TimedMutex.Deadline
import SyncLib.ThreadPool.Capture
import SyncLib.Barrier.Os
import SyncLib.Core.Simulation
import SyncLib.Core.Part
import SyncLib.FastMutex.WithEvent
import SyncLib.Semaphore.WithInner
import SyncLib.FastSharedMutex.WithParts
import SyncLib.FastSharedMutex.Whole
import SyncLib.ManualEvent
import SyncLib.Core.MutexCode
import SyncLib.Lock.WithMutexes
import SyncLib.Lock.Custody
import SyncLib.Lock.FastMutexes
import SyncLib.Lock.TimedMutexes
import SyncLib.Core.Settling
import SyncLib.Queue.WithSemaphores
import SyncLib.ThreadPool.WithQueues
import SyncLib.SharedMutex.Progress
import SyncLib.TimedMutex.Progress
import SyncLib.Thread.Launch
import SyncLib.Thread.Cooperation
import SyncLib.Thread.Sleep
import SyncLib.Queue.LockFreedom
import SyncLib.Queue.Tickets
import SyncLib.Queue.Turns
import SyncLib.Lock.Spinlocks
import SyncLib.Barrier.Progress
