import AstraLib.Interleaving.System
import AstraLib.Interleaving.Linearizability
import AstraLib.Interleaving.Conservation
import AstraLib.Interleaving.Ensures
import AstraLib.Interleaving.Fairness
import AstraLib.Interleaving.Lifetimes
import AstraLib.Interleaving.ReleaseAcquire
import AstraLib.Interleaving.RaceFreedom
import AstraLib.Interleaving.Ownership
import AstraLib.Words
import AstraLib.Spinlock
import AstraLib.Spinlock.BackOff
import AstraLib.Spinlock.WeakMemory
import AstraLib.Ring.Model
import AstraLib.Ring.Step
import AstraLib.Ring.Tickets
import AstraLib.Ring.Contents
import AstraLib.Ring.Batch
import AstraLib.Ring.Progress
import AstraLib.Ring.Linearizable
import AstraLib.Ring.MachineWord
import AstraLib.Ring.Transit
import AstraLib.Ring.IsEmpty
import AstraLib.Ring.Stream
import AstraLib.Ring.Sequential
import AstraLib.Ring.Throwing
import AstraLib.Ring.BatchDequeue
import AstraLib.Ring.Clear
import AstraLib.Ring.Liveness
import AstraLib.Ring.WeakMemory
import AstraLib.Ring.Ownership
import AstraLib.Spsc.Model
import AstraLib.Spsc.Fifo
import AstraLib.Spsc.Capacity
import AstraLib.Spsc.Throwing
import AstraLib.Spsc.WeakMemory
import AstraLib.Lifetimes
import AstraLib.IndexPool.Model
import AstraLib.IndexPool.Ownership
import AstraLib.IndexPool.Progress
import AstraLib.IndexPool.Reinitialize
import AstraLib.Futex.Model
import AstraLib.Futex.HandOver
import AstraLib.Futex.Release
import AstraLib.Debug.Stream
import AstraLib.Debug.Message
import AstraLib.Debug.Concurrent
import AstraLib.ThreadPool.Model
import AstraLib.ThreadPool.Step
import AstraLib.ThreadPool.RoundRobin
import AstraLib.ThreadPool.Wakeup
import AstraLib.ThreadPool.Log
import AstraLib.ThreadPool.HandOff
import AstraLib.ThreadPool.Tasks
import AstraLib.ThreadPool.Availability
import AstraLib.ThreadPool.Order
import AstraLib.ThreadPool.Shutdown
import AstraLib.ThreadPool.Completion
import AstraLib.ThreadPool.Fair
import AstraLib.ThreadPool.Liveness
import AstraLib.ThreadPool.Termination
