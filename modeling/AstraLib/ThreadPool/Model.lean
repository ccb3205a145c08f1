import AstraLib.Ring.Transit

/-!
# `ThreadPool`: the program

`include/AstraLib/Threading/ThreadPool.hpp`: the threads that call `assignTask` (the producers), the
dispatcher thread, the worker threads and the thread that runs `~ThreadPool`, step by step.

* `taskQueue` is the ring of `AstraLib.Ring.Model`, with the producers and the dispatcher as its
  threads.  Its payload is a `std::function<void()>`.  A function is the name of its task, or `none`
  if it is empty; the tasks of a producer are numbered in the order of its calls.
* `FUTEX_WAIT` compares and goes to sleep in one step, and may return at any time
  (`Micro.spurious`).  `FUTEX_WAKE` wakes the one thread that sleeps on the flag, if it does.
* A task runs for as long as it likes and then ends: `Loop.executing` is left by a step of its own.
  What it does meanwhile, calls of `assignTask` included, is up to the producers.
* A statement about local variables only is one step together with the shared access next to it.
-/

namespace AstraLib.ThreadPool

open Interleaving

/-- The template argument, with the `static_assert` of the class. -/
structure Config where
  THREAD_COUNT : ℕ
  pos : 0 < THREAD_COUNT

/-- `AtomicRingBuffer<std::function<void()>,1024>` -/
def taskQueueConfig : Ring.Config := ⟨1024, 50, false, by decide, by decide, by decide⟩

/-- A task is named by the thread that assigned it and by the number of the call. -/
abbrev Task (Tid : Type) := Tid × ℕ

/-- `std::function<void()>`; `none` is the empty function. -/
abbrev Fn (Tid : Type) := Option (Task Tid)

/-- The threads that use `taskQueue`. -/
inductive Party (Tid : Type)
  | producer (p : Tid)
  | dispatcher
  deriving DecidableEq

/-- The state of `taskQueue`. -/
abbrev Queue (Tid : Type) := Ring.State (Party Tid) ℕ ℕ (Fn Tid) 1

/-- The threads. -/
inductive Thread (Tid : Type)
  | producer (p : Tid)
  | dispatcher
  | worker (i : ℕ)
  | destructor

/-- The atomic steps of the threads. -/
inductive Micro (Tid : Type)
  /-- call of `assignTask`, possibly with an empty function -/
  | assignTask (empty : Bool)
  /-- call of `~ThreadPool` -/
  | destroy
  /-- the next statement -/
  | go
  /-- `FUTEX_WAIT` returns without having been woken -/
  | spurious
  /-- call of a member function of `taskQueue` -/
  | call
  /-- a step of the member function of `taskQueue` in progress -/
  | queue (a : Ring.Micro (Fn Tid) 1)
  /-- return from a member function of `taskQueue` -/
  | ret
  /-- move assignment of a function; the moved-from one may hold anything (`left`) -/
  | move (left : Fn Tid)

/-! ### `ThreadGate` -/

/-- Where a thread is in `waiter()`. -/
inductive Waiter
  /-- before the load of the flag -/
  | load
  /-- before `FUTEX_WAIT` -/
  | wait
  /-- in `FUTEX_WAIT` -/
  | asleep
  deriving DecidableEq

/-- One step of `waiter()`; `none` when it returns. -/
def Waiter.step {Tid : Type} (flag : ℕ) : Waiter → Micro Tid → Option (Option Waiter)
  | .load, .go => if flag = 1 then some none else some (some .wait)
  | .wait, .go => if flag = 0 then some (some .asleep) else some (some .load)
  | .asleep, .spurious => some (some .load)
  | _, _ => none

/-- The effect of a `FUTEX_WAKE`. -/
def Waiter.woken : Waiter → Waiter
  | .asleep => .load
  | g => g

/-! ### `Worker` -/

/-- Where a worker thread is in `thread_loop()`. -/
inductive Loop (Tid : Type)
  /-- `while (running)` -/
  | loopTest
  /-- `gate.waiter()` -/
  | waiter (g : Waiter)
  /-- `if (task)` -/
  | test
  /-- before the call of `task()` -/
  | call
  /-- in `task()` -/
  | executing (t : Task Tid)
  /-- `task = nullptr` -/
  | clear
  /-- `gate.reset()` -/
  | reset
  /-- `poolFlag.store(0)` -/
  | release
  | exited

/-- A `Worker`: its members and its thread. -/
structure Worker (Tid : Type) where
  flag : ℕ
  task : Fn Tid
  poolFlag : ℕ
  running : Bool
  pc : Loop Tid

/-- A newly constructed `Worker`. -/
def Worker.fresh {Tid : Type} : Worker Tid := ⟨0, none, 0, true, .loopTest⟩

/-- The effect of a `FUTEX_WAKE` on the flag of the worker. -/
def Loop.woken {Tid : Type} : Loop Tid → Loop Tid
  | .waiter g => .waiter g.woken
  | p => p

/-- One step of a worker thread. -/
def Worker.step {Tid : Type} (w : Worker Tid) (a : Micro Tid) : Option (Worker Tid) :=
  match w.pc, a with
  | .loopTest, .go => some { w with pc := if w.running then .waiter .load else .exited }
  | .waiter g, a => (g.step w.flag a).map fun o => { w with pc := o.elim .test .waiter }
  | .test, .go => some { w with pc := if w.task.isSome then .call else .loopTest }
  | .call, .go => w.task.map fun t => { w with pc := .executing t }
  | .executing _, .go => some { w with pc := .clear }
  | .clear, .go => some { w with task := none, pc := .reset }
  | .reset, .go => some { w with flag := 0, pc := .release }
  | .release, .go => some { w with poolFlag := 0, pc := .loopTest }
  | _, _ => none

/-! ### `ThreadPool` -/

/-- The calls of `taskQueue.isEmpty()`. -/
inductive Check
  /-- in the test of the inner loop -/
  | drain
  /-- after the inner loop -/
  | reset
  /-- after `taskGate.reset()` -/
  | recheck
  deriving DecidableEq

/-- Where the dispatcher is in `taskDispatcher`. -/
inductive Dispatcher
  /-- `while (running)` -/
  | loopTest
  /-- `taskGate.waiter()` -/
  | waiter (g : Waiter)
  /-- `running` in the test of the inner loop -/
  | drainTest
  /-- `taskQueue.isEmpty()` -/
  | isEmpty (k : Check)
  /-- `taskQueue.dequeue()` -/
  | dequeue
  /-- before a `compare_exchange_strong`, in the first pass over the workers or in a later one -/
  | scan (first : Bool) (start : ℕ)
  /-- `activateWorker`, before `task = std::move(task_)` -/
  | write
  /-- `activateWorker`, before the store of `gate.signaler()` -/
  | store
  /-- `activateWorker`, before the `FUTEX_WAKE` of `gate.signaler()` -/
  | wake
  /-- `taskGate.reset()` -/
  | reset
  /-- `taskGate.signaler()` after the second check -/
  | signalStore
  | signalWake
  | exited

/-- Where a producer is in `assignTask`. -/
inductive Producer
  | idle
  /-- in `taskQueue.enqueue` -/
  | enqueue
  /-- before the store of `taskGate.signaler()` -/
  | store
  /-- before the `FUTEX_WAKE` of `taskGate.signaler()` -/
  | wake
  deriving DecidableEq

/-- Where `~ThreadPool` is. The workers are destroyed from the last one to the first. -/
inductive Destructor
  /-- not called yet -/
  | idle
  /-- before `running = false` -/
  | setRunning
  | store
  | wake
  /-- `dispatcherThread.join()` -/
  | join
  /-- `~Worker` of worker `i`, before `running = false` -/
  | workerSet (i : ℕ)
  | workerStore (i : ℕ)
  | workerWake (i : ℕ)
  | workerJoin (i : ℕ)
  | done
  deriving DecidableEq

/-- The pool and its threads. `task` is the local variable of `taskDispatcher`. -/
structure State (Tid : Type) where
  queue : Queue Tid
  taskFlag : ℕ
  running : Bool
  lastIdDispatched : ℕ
  task : Fn Tid
  workers : ℕ → Worker Tid
  dispatcher : Dispatcher
  producer : Tid → Producer
  /-- the number of calls of `assignTask` that a thread has made -/
  calls : Tid → ℕ
  destructor : Destructor

/-- The effect of a `FUTEX_WAKE` on `taskFlag`. -/
def Dispatcher.woken : Dispatcher → Dispatcher
  | .waiter g => .waiter g.woken
  | p => p

/-- What the dispatcher does with the answer of `isEmpty()`. -/
def Check.next : Check → Bool → Dispatcher
  | .drain, b => if b then .isEmpty .reset else .dequeue
  | .reset, b => if b then .reset else .loopTest
  | .recheck, b => if b then .loopTest else .signalStore

section Program

variable {Tid : Type} [DecidableEq Tid] (cfg : Config) (s : State Tid)

/-- A step of `taskQueue`. -/
def queueStep (θ : Party Tid) (a : Ring.Micro (Fn Tid) 1) : Option (Queue Tid) :=
  Ring.step (Ring.unbounded taskQueueConfig) taskQueueConfig s.queue (θ, a)

/-- A step of `taskQueue` between the call and the return of a member function. -/
def queueInside (θ : Party Tid) : Ring.Micro (Fn Tid) 1 → Option (Queue Tid)
  | .call _ => none
  | .ret => none
  | a => queueStep s θ a

/-- Replace the worker `i`. -/
def State.setWorker (i : ℕ) (w : Worker Tid) : State Tid :=
  { s with workers := Function.update s.workers i w }

/-- One step of producer `p`. -/
def producerStep (p : Tid) : Producer → Micro Tid → Option (State Tid)
  | .idle, .assignTask empty =>
      (queueStep s (.producer p)
        (.call (.enqueue .move fun _ => if empty then none else some (p, s.calls p)))).map fun q =>
          { s with
            queue := q
            calls := Function.update s.calls p (s.calls p + 1)
            producer := Function.update s.producer p .enqueue }
  | .enqueue, .queue a => (queueInside s (.producer p) a).map fun q => { s with queue := q }
  | .enqueue, .ret =>
      (queueStep s (.producer p) .ret).map fun q =>
        { s with queue := q, producer := Function.update s.producer p .store }
  | .store, .go => some { s with taskFlag := 1, producer := Function.update s.producer p .wake }
  | .wake, .go =>
      some
        { s with
          dispatcher := s.dispatcher.woken
          producer := Function.update s.producer p .idle }
  | _, _ => none

/-- `(id + 1) % THREAD_COUNT` -/
def nextId : ℕ := (s.lastIdDispatched + 1) % cfg.THREAD_COUNT

/-- The worker `threads[id]`. -/
def State.candidate : Worker Tid := s.workers s.lastIdDispatched

/-- One step of the dispatcher. A failed `compare_exchange_strong` moves on to the next worker; the
first pass ends when that is the one it began with, and the passes after it are repeated forever. -/
def dispatcherStep : Dispatcher → Micro Tid → Option (State Tid)
  | .loopTest, .go => some { s with dispatcher := if s.running then .waiter .load else .exited }
  | .waiter g, a =>
      (g.step s.taskFlag a).map fun o => { s with dispatcher := o.elim .drainTest .waiter }
  | .drainTest, .go =>
      some { s with dispatcher := if s.running then .isEmpty .drain else .isEmpty .reset }
  | .isEmpty _, .call =>
      (queueStep s .dispatcher (.call .isEmpty)).map fun q => { s with queue := q }
  | .isEmpty _, .queue a => (queueInside s .dispatcher a).map fun q => { s with queue := q }
  | .isEmpty k, .ret =>
      match s.queue.pc .dispatcher with
      | .isEmptyReturn b =>
          (queueStep s .dispatcher .ret).map fun q => { s with queue := q, dispatcher := k.next b }
      | _ => none
  | .dequeue, .call => (queueStep s .dispatcher (.call .dequeue)).map fun q => { s with queue := q }
  | .dequeue, .queue a => (queueInside s .dispatcher a).map fun q => { s with queue := q }
  | .dequeue, .ret =>
      match s.queue.pc .dispatcher with
      | .deqReturn _ v =>
          (queueStep s .dispatcher .ret).map fun q =>
            { s with queue := q, task := v 0, dispatcher := .scan true s.lastIdDispatched }
      | _ => none
  | .scan first start, .go =>
      if s.candidate.poolFlag = 0 then
        some
          { s.setWorker s.lastIdDispatched { s.candidate with poolFlag := 1 } with
            dispatcher := .write }
      else
        some
          { s with
            lastIdDispatched := nextId cfg s
            dispatcher := .scan (first && decide (nextId cfg s ≠ start)) start }
  | .write, .move left =>
      some
        { s.setWorker s.lastIdDispatched { s.candidate with task := s.task } with
          task := left
          dispatcher := .store }
  | .store, .go =>
      some
        { s.setWorker s.lastIdDispatched { s.candidate with flag := 1 } with dispatcher := .wake }
  | .wake, .go =>
      some
        { s.setWorker s.lastIdDispatched { s.candidate with pc := s.candidate.pc.woken } with
          lastIdDispatched := nextId cfg s
          dispatcher := .drainTest }
  | .reset, .go => some { s with taskFlag := 0, dispatcher := .isEmpty .recheck }
  | .signalStore, .go => some { s with taskFlag := 1, dispatcher := .signalWake }
  | .signalWake, .go => some { s with dispatcher := .loopTest }
  | _, _ => none

/-- One step of the thread that runs `~ThreadPool`. -/
def destructorStep : Destructor → Micro Tid → Option (State Tid)
  | .idle, .destroy => some { s with destructor := .setRunning }
  | .setRunning, .go => some { s with running := false, destructor := .store }
  | .store, .go => some { s with taskFlag := 1, destructor := .wake }
  | .wake, .go => some { s with dispatcher := s.dispatcher.woken, destructor := .join }
  | .join, .go =>
      match s.dispatcher with
      | .exited => some { s with destructor := .workerSet (cfg.THREAD_COUNT - 1) }
      | _ => none
  | .workerSet i, .go =>
      some { s.setWorker i { s.workers i with running := false } with destructor := .workerStore i }
  | .workerStore i, .go =>
      some { s.setWorker i { s.workers i with flag := 1 } with destructor := .workerWake i }
  | .workerWake i, .go =>
      some
        { s.setWorker i { s.workers i with pc := (s.workers i).pc.woken } with
          destructor := .workerJoin i }
  | .workerJoin i, .go =>
      match (s.workers i).pc with
      | .exited => some { s with destructor := if i = 0 then .done else .workerSet (i - 1) }
      | _ => none
  | _, _ => none

/-- A thread takes an atomic step. -/
def step : Thread Tid × Micro Tid → Option (State Tid)
  | (.producer p, a) => producerStep s p (s.producer p) a
  | (.dispatcher, a) => dispatcherStep cfg s s.dispatcher a
  | (.worker i, a) =>
      if i < cfg.THREAD_COUNT then ((s.workers i).step a).map fun w => s.setWorker i w else none
  | (.destructor, a) => destructorStep cfg s s.destructor a

/-- A newly constructed pool: the threads have been started and have not done anything yet. -/
def fresh (data array : ℕ → Payload (Fn Tid) 1) : State Tid where
  queue := Ring.fresh (Ring.unbounded taskQueueConfig) taskQueueConfig data array
  taskFlag := 0
  running := true
  lastIdDispatched := 0
  task := none
  workers _ := .fresh
  dispatcher := .loopTest
  producer _ := .idle
  calls _ := 0
  destructor := .idle

/-- The pool under any number of threads that assign tasks. -/
def system : System (State Tid) (Thread Tid × Micro Tid) :=
  .ofFun (fun s => ∃ data array, s = fresh data array) (step cfg)

end Program

/-- A pool with one worker. -/
def single : Config := ⟨1, by decide⟩

end AstraLib.ThreadPool
