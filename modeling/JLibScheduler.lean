import JLibScheduler.Lib.Lts
import JLibScheduler.Lib.AtomicObject
import JLibScheduler.Lib.SizeT
import JLibScheduler.Lib.Update
import JLibScheduler.Lib.Sums
import JLibScheduler.TaskDeque.Basic
import JLibScheduler.TaskDeque.Spec
import JLibScheduler.TaskDeque.Refine
import JLibScheduler.Lib.Adjacent
import JLibScheduler.TaskMPSCQueue.Basic
import JLibScheduler.TaskMPSCQueue.Order
import JLibScheduler.Epochs.Basic
import JLibScheduler.Epochs.Safe
import JLibScheduler.TaskDAG.Basic
import JLibScheduler.TaskDAG.HasCycle
import JLibScheduler.TaskDAG.Run
import JLibScheduler.TaskDAG.Laws
import JLibScheduler.TaskDAG.Fires
import JLibScheduler.TaskDAG.Complete
import JLibScheduler.TaskDAG.Reclaim
import JLibScheduler.TaskDAG.Guards
import JLibScheduler.TaskScheduler.Push
import JLibScheduler.TaskDAG.Route
import JLibScheduler.Fiber.Basic
import JLibScheduler.Fiber.Phase
import JLibScheduler.Fiber.Wake
import JLibScheduler.Thread.Basic
import JLibScheduler.Thread.Places
import JLibScheduler.Thread.OnePlace
import JLibScheduler.Sync.Basic
import JLibScheduler.Sync.HandOff
import JLibScheduler.Lib.PackedWord
import JLibScheduler.WaitGroup.Basic
import JLibScheduler.WaitGroup.Waiters
import JLibScheduler.Fiber.Events
import JLibScheduler.WaitGroup.Early
import JLibScheduler.WaitGroup.Join
import JLibScheduler.ParallelFor.Basic
import JLibScheduler.ParallelFor.Join
import JLibScheduler.Submission.Basic
import JLibScheduler.Submission.Accounts
import JLibScheduler.Submission.Pending
import JLibScheduler.Submission.Slots
import JLibScheduler.Submission.Reserved
import JLibScheduler.Submission.Cores
import JLibScheduler.Sleep.Inboxes
import JLibScheduler.Helping.Stranded
import JLibScheduler.Helping.Deadlock
import JLibScheduler.Mutex.Owner
import JLibScheduler.Mutex.Priority
import JLibScheduler.ConditionVariable.Notify
import JLibScheduler.Lib.Memory
import JLibScheduler.ContextSwitch.Preserves
import JLibScheduler.TaskDAG.Edges
import JLibScheduler.Lib.Intervals
import JLibScheduler.ParallelFor.Ranges
import JLibScheduler.Lib.Slab
import JLibScheduler.TaskDAG.Reject
import JLibScheduler.TaskScheduler.Fork
import JLibScheduler.TaskMPSCQueue.Whole
import JLibScheduler.TaskScheduler.Placement
import JLibScheduler.TaskScheduler.GetTask
import JLibScheduler.Lib.CInt
import JLibScheduler.Thread.Fallback
import JLibScheduler.TaskScheduler.Topology
import JLibScheduler.GlobalFiberPool.Conserved
import JLibScheduler.GlobalFiberPool.FiberSize
import JLibScheduler.GlobalFiberPool.EventPool
import JLibScheduler.Fiber.Handles
import JLibScheduler.Lib.Chain
import JLibScheduler.LockFreeList.Set
import JLibScheduler.LockFreeList.Insert
import JLibScheduler.LockFreeList.Remove
import JLibScheduler.LockFreeList.Get
import JLibScheduler.LockFreeList.ForEach
import JLibScheduler.TaskScheduler.RoundRobin
import JLibScheduler.Mutex.Boost
import JLibScheduler.Epochs.Reclaim
import JLibScheduler.Epochs.Count
import JLibScheduler.TaskMPSCQueue.Unlinked
import JLibScheduler.TaskDeque.Owner
import JLibScheduler.WorkerLoop.Basic
import JLibScheduler.WorkerLoop.Drain
import JLibScheduler.WorkerLoop.Wrap
import JLibScheduler.ContextSwitch.Fresh
import JLibScheduler.Sync.Semaphore
import JLibScheduler.TaskAllocator.Chains
import JLibScheduler.TaskAllocator.Slab
import JLibScheduler.TaskAllocator.Whole
import JLibScheduler.TaskScheduler.Fairness
import JLibScheduler.TaskMPSCQueue.Gaps
import JLibScheduler.TaskScheduler.ImmediateDrain
import JLibScheduler.TaskScheduler.ImmediateSlot
import JLibScheduler.TaskMPSCQueue.Stalls
import JLibScheduler.TaskScheduler.MainQueue
import JLibScheduler.Sleep.Control
import JLibScheduler.Sleep.Notified
import JLibScheduler.Sleep.Joins
import JLibScheduler.TaskAllocator.Bounds
import JLibScheduler.ParallelFor.Balance
