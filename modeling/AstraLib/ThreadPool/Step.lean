import AstraLib.ThreadPool.Model

/-!
# `ThreadPool`: what a step does

`Step` lists the atomic steps of the threads one by one, with the test that each of them passes, and
`step_cases` says that there are no others.  The proofs about the pool go by cases on it and never
unfold `step`.

The steps of `taskQueue` are steps of the ring (`queue_reachable`), so that everything that is known
of the ring holds here.  A producer is in no other function of the queue than `enqueue`, and the
dispatcher is only in `isEmpty` or in `dequeue` (`Agree`).
-/

namespace AstraLib.ThreadPool

open Interleaving

variable {Tid : Type}

/-! ### The gate -/

/-- The steps of `waiter()`. -/
inductive WaiterStep (flag : ℕ) : Waiter → Option Waiter → Prop
  | pass (h : flag = 1) : WaiterStep flag .load none
  | miss (h : flag ≠ 1) : WaiterStep flag .load (some .wait)
  | sleep (h : flag = 0) : WaiterStep flag .wait (some .asleep)
  | again (h : flag ≠ 0) : WaiterStep flag .wait (some .load)
  | spurious : WaiterStep flag .asleep (some .load)

theorem Waiter.step_cases {flag : ℕ} {g : Waiter} {a : Micro Tid} {o : Option Waiter}
    (h : g.step flag a = some o) : WaiterStep flag g o := by
  unfold Waiter.step at h
  split at h
  · split_ifs at h with hf
    · cases h; exact .pass hf
    · cases h; exact .miss hf
  · split_ifs at h with hf
    · cases h; exact .sleep hf
    · cases h; exact .again hf
  · cases h; exact .spurious
  · cases h

theorem Waiter.woken_ne_asleep (g : Waiter) : g.woken ≠ .asleep := by
  cases g <;> simp [Waiter.woken]

/-! ### The workers -/

/-- The steps of a worker thread. -/
inductive WorkerStep (w : Worker Tid) : Worker Tid → Prop
  | enter (hp : w.pc = .loopTest) (hr : w.running = true) :
      WorkerStep w { w with pc := .waiter .load }
  | exit (hp : w.pc = .loopTest) (hr : w.running = false) : WorkerStep w { w with pc := .exited }
  | wait (g g' : Waiter) (hp : w.pc = .waiter g) (h : WaiterStep w.flag g (some g')) :
      WorkerStep w { w with pc := .waiter g' }
  | pass (hp : w.pc = .waiter .load) (hf : w.flag = 1) : WorkerStep w { w with pc := .test }
  | accept (t : Task Tid) (hp : w.pc = .test) (ht : w.task = some t) :
      WorkerStep w { w with pc := .call }
  | skip (hp : w.pc = .test) (ht : w.task = none) : WorkerStep w { w with pc := .loopTest }
  | start (t : Task Tid) (hp : w.pc = .call) (ht : w.task = some t) :
      WorkerStep w { w with pc := .executing t }
  | finish (t : Task Tid) (hp : w.pc = .executing t) : WorkerStep w { w with pc := .clear }
  | clear (hp : w.pc = .clear) : WorkerStep w { w with task := none, pc := .reset }
  | reset (hp : w.pc = .reset) : WorkerStep w { w with flag := 0, pc := .release }
  | release (hp : w.pc = .release) : WorkerStep w { w with poolFlag := 0, pc := .loopTest }

theorem Worker.step_cases {w w' : Worker Tid} {a : Micro Tid} (h : w.step a = some w') :
    WorkerStep w w' := by
  unfold Worker.step at h
  split at h
  next hp =>
    cases h
    by_cases hr : w.running = true
    · rw [if_pos hr]; exact .enter hp hr
    · rw [if_neg hr]; exact .exit hp (by simpa using hr)
  next g hp =>
    obtain ⟨o, ho, rfl⟩ := Option.map_eq_some_iff.1 h
    have hw := Waiter.step_cases ho
    cases o with
    | none =>
      cases hw with
      | pass hf => exact .pass hp hf
    | some g' => exact .wait g g' hp hw
  next hp =>
    cases h
    by_cases ht : w.task.isSome = true
    · obtain ⟨t, ht'⟩ := Option.isSome_iff_exists.1 ht
      rw [if_pos ht]
      exact .accept t hp ht'
    · rw [if_neg ht]
      exact .skip hp (by simpa using ht)
  next hp =>
    obtain ⟨t, ht, rfl⟩ := Option.map_eq_some_iff.1 h
    exact .start t hp ht
  next t hp => cases h; exact .finish t hp
  next hp => cases h; exact .clear hp
  next hp => cases h; exact .reset hp
  next hp => cases h; exact .release hp
  next => cases h

/-- All of these can be taken. -/
theorem WorkerStep.exists_step {w w' : Worker Tid} (h : WorkerStep w w') :
    ∃ a : Micro Tid, w.step a = some w' := by
  cases h with
  | wait g g' hp hg =>
    cases hg with
    | spurious => exact ⟨.spurious, by simp [Worker.step, Waiter.step, hp]⟩
    | miss hf | sleep hf | again hf => exact ⟨.go, by simp [Worker.step, Waiter.step, hp, hf]⟩
  | pass hp hf => exact ⟨.go, by simp [Worker.step, Waiter.step, hp, hf]⟩
  | enter hp hr | exit hp hr => exact ⟨.go, by simp [Worker.step, hp, hr]⟩
  | accept t hp ht => exact ⟨.go, by simp [Worker.step, hp, ht]⟩
  | skip hp ht => exact ⟨.go, by simp [Worker.step, hp, ht]⟩
  | start t hp ht => exact ⟨.go, by simp [Worker.step, hp, ht]⟩
  | finish t hp => exact ⟨.go, by simp [Worker.step, hp]⟩
  | clear hp | reset hp | release hp => exact ⟨.go, by simp [Worker.step, hp]⟩

/-! ### The pool -/

/-- The member function of `taskQueue` that the dispatcher is in. -/
def Dispatcher.op : Dispatcher → Option Ring.Op
  | .isEmpty _ => some .isEmpty
  | .dequeue => some .dequeue
  | _ => none

/-- The dispatcher never enqueues. -/
theorem Dispatcher.op_eq_some {d : Dispatcher} {op : Ring.Op} (h : d.op = some op) :
    op = .isEmpty ∧ (∃ k, d = .isEmpty k) ∨ op = .dequeue ∧ d = .dequeue := by
  cases d with
  | isEmpty k =>
    cases h
    exact Or.inl ⟨rfl, k, rfl⟩
  | dequeue =>
    cases h
    exact Or.inr ⟨rfl, rfl⟩
  | _ => cases h

/-- A wake-up only matters to a thread in `waiter()`. -/
theorem Dispatcher.eq_of_woken_eq {d d' : Dispatcher} (h : d.woken = d')
    (hd : ∀ g, d' ≠ .waiter g) : d = d' := by
  cases d with
  | waiter g => exact absurd h.symm (hd _)
  | _ => exact h

theorem Dispatcher.woken_ne_asleep (d : Dispatcher) : d.woken ≠ .waiter .asleep := by
  cases d with
  | waiter g => exact fun h => g.woken_ne_asleep (Dispatcher.waiter.inj h)
  | _ => simp [Dispatcher.woken]

theorem Dispatcher.woken_op (d : Dispatcher) : d.woken.op = d.op := by
  cases d <;> rfl

/-- The steps of `~ThreadPool`. -/
inductive DestructorStep (cfg : Config) (s : State Tid) : Micro Tid → State Tid → Prop
  | destroy (hp : s.destructor = .idle) :
      DestructorStep cfg s .destroy { s with destructor := .setRunning }
  | setRunning (hp : s.destructor = .setRunning) :
      DestructorStep cfg s .go { s with running := false, destructor := .store }
  | store (hp : s.destructor = .store) :
      DestructorStep cfg s .go { s with taskFlag := 1, destructor := .wake }
  | wake (hp : s.destructor = .wake) :
      DestructorStep cfg s .go { s with dispatcher := s.dispatcher.woken, destructor := .join }
  | join (hp : s.destructor = .join) (hd : s.dispatcher = .exited) :
      DestructorStep cfg s .go { s with destructor := .workerSet (cfg.THREAD_COUNT - 1) }
  | workerSet (i : ℕ) (hp : s.destructor = .workerSet i) :
      DestructorStep cfg s .go
        { s.setWorker i { s.workers i with running := false } with destructor := .workerStore i }
  | workerStore (i : ℕ) (hp : s.destructor = .workerStore i) :
      DestructorStep cfg s .go
        { s.setWorker i { s.workers i with flag := 1 } with destructor := .workerWake i }
  | workerWake (i : ℕ) (hp : s.destructor = .workerWake i) :
      DestructorStep cfg s .go
        { s.setWorker i { s.workers i with pc := (s.workers i).pc.woken } with
          destructor := .workerJoin i }
  | workerJoin (i : ℕ) (hp : s.destructor = .workerJoin i) (he : (s.workers i).pc = .exited) :
      DestructorStep cfg s .go
        { s with destructor := if i = 0 then .done else .workerSet (i - 1) }

theorem destructorStep_cases {cfg : Config} {s s' : State Tid} {a : Micro Tid}
    (h : destructorStep cfg s s.destructor a = some s') : DestructorStep cfg s a s' := by
  unfold destructorStep at h
  split at h
  next hp => cases h; exact .destroy hp
  next hp => cases h; exact .setRunning hp
  next hp => cases h; exact .store hp
  next hp => cases h; exact .wake hp
  next hp =>
    split at h
    next hd => cases h; exact .join hp hd
    next => cases h
  next i hp => cases h; exact .workerSet i hp
  next i hp => cases h; exact .workerStore i hp
  next i hp => cases h; exact .workerWake i hp
  next i hp =>
    split at h
    next he => cases h; exact .workerJoin i hp he
    next => cases h
  next => cases h

section Steps

variable [DecidableEq Tid]

/-- The steps of a producer. -/
inductive ProducerStep (s : State Tid) (p : Tid) : Micro Tid → State Tid → Prop
  | assignTask (empty : Bool) (q : Queue Tid) (hp : s.producer p = .idle)
      (hq : queueStep s (.producer p)
        (.call (.enqueue .move fun _ => if empty then none else some (p, s.calls p))) = some q) :
      ProducerStep s p (.assignTask empty)
        { s with
          queue := q
          calls := Function.update s.calls p (s.calls p + 1)
          producer := Function.update s.producer p .enqueue }
  | inside (a : Ring.Micro (Fn Tid) 1) (q : Queue Tid) (hp : s.producer p = .enqueue)
      (hcall : ∀ c, a ≠ .call c) (hret : a ≠ .ret) (hq : queueStep s (.producer p) a = some q) :
      ProducerStep s p (.queue a) { s with queue := q }
  | ret (q : Queue Tid) (hp : s.producer p = .enqueue)
      (hq : queueStep s (.producer p) .ret = some q) :
      ProducerStep s p .ret
        { s with queue := q, producer := Function.update s.producer p .store }
  | store (hp : s.producer p = .store) :
      ProducerStep s p .go
        { s with taskFlag := 1, producer := Function.update s.producer p .wake }
  | wake (hp : s.producer p = .wake) :
      ProducerStep s p .go
        { s with
          dispatcher := s.dispatcher.woken
          producer := Function.update s.producer p .idle }

/-- The steps of the dispatcher. -/
inductive DispatcherStep (cfg : Config) (s : State Tid) : State Tid → Prop
  | enter (hp : s.dispatcher = .loopTest) (hr : s.running = true) :
      DispatcherStep cfg s { s with dispatcher := .waiter .load }
  | exit (hp : s.dispatcher = .loopTest) (hr : s.running = false) :
      DispatcherStep cfg s { s with dispatcher := .exited }
  | wait (g g' : Waiter) (hp : s.dispatcher = .waiter g) (h : WaiterStep s.taskFlag g (some g')) :
      DispatcherStep cfg s { s with dispatcher := .waiter g' }
  | pass (hp : s.dispatcher = .waiter .load) (hf : s.taskFlag = 1) :
      DispatcherStep cfg s { s with dispatcher := .drainTest }
  | drain (hp : s.dispatcher = .drainTest) (hr : s.running = true) :
      DispatcherStep cfg s { s with dispatcher := .isEmpty .drain }
  | stop (hp : s.dispatcher = .drainTest) (hr : s.running = false) :
      DispatcherStep cfg s { s with dispatcher := .isEmpty .reset }
  | inside (op : Ring.Op) (a : Ring.Micro (Fn Tid) 1) (q : Queue Tid)
      (hp : s.dispatcher.op = some op) (hcall : ∀ c, a = .call c → c.op = op) (hret : a ≠ .ret)
      (hq : queueStep s .dispatcher a = some q) : DispatcherStep cfg s { s with queue := q }
  | answer (k : Check) (b : Bool) (q : Queue Tid) (hp : s.dispatcher = .isEmpty k)
      (hb : s.queue.pc .dispatcher = .isEmptyReturn b)
      (hq : queueStep s .dispatcher .ret = some q) :
      DispatcherStep cfg s { s with queue := q, dispatcher := k.next b }
  | take (t : ℕ) (v : Payload (Fn Tid) 1) (q : Queue Tid) (hp : s.dispatcher = .dequeue)
      (hv : s.queue.pc .dispatcher = .deqReturn t v) (hq : queueStep s .dispatcher .ret = some q) :
      DispatcherStep cfg s
        { s with queue := q, task := v 0, dispatcher := .scan true s.lastIdDispatched }
  | claim (first : Bool) (start : ℕ) (hp : s.dispatcher = .scan first start)
      (hf : s.candidate.poolFlag = 0) :
      DispatcherStep cfg s
        { s.setWorker s.lastIdDispatched { s.candidate with poolFlag := 1 } with
          dispatcher := .write }
  | next (first first' : Bool) (start : ℕ) (hp : s.dispatcher = .scan first start)
      (hf : s.candidate.poolFlag ≠ 0) :
      DispatcherStep cfg s
        { s with lastIdDispatched := nextId cfg s, dispatcher := .scan first' start }
  | write (left : Fn Tid) (hp : s.dispatcher = .write) :
      DispatcherStep cfg s
        { s.setWorker s.lastIdDispatched { s.candidate with task := s.task } with
          task := left
          dispatcher := .store }
  | store (hp : s.dispatcher = .store) :
      DispatcherStep cfg s
        { s.setWorker s.lastIdDispatched { s.candidate with flag := 1 } with dispatcher := .wake }
  | wake (hp : s.dispatcher = .wake) :
      DispatcherStep cfg s
        { s.setWorker s.lastIdDispatched { s.candidate with pc := s.candidate.pc.woken } with
          lastIdDispatched := nextId cfg s
          dispatcher := .drainTest }
  | reset (hp : s.dispatcher = .reset) :
      DispatcherStep cfg s { s with taskFlag := 0, dispatcher := .isEmpty .recheck }
  | signalStore (hp : s.dispatcher = .signalStore) :
      DispatcherStep cfg s { s with taskFlag := 1, dispatcher := .signalWake }
  | signalWake (hp : s.dispatcher = .signalWake) :
      DispatcherStep cfg s { s with dispatcher := .loopTest }

/-- The steps of all threads. -/
inductive Step (cfg : Config) (s : State Tid) : Thread Tid × Micro Tid → State Tid → Prop
  | producer {p : Tid} {a : Micro Tid} {s' : State Tid} (h : ProducerStep s p a s') :
      Step cfg s (.producer p, a) s'
  | dispatcher {a : Micro Tid} {s' : State Tid} (h : DispatcherStep cfg s s') :
      Step cfg s (.dispatcher, a) s'
  | worker {i : ℕ} {a : Micro Tid} {w : Worker Tid} (hi : i < cfg.THREAD_COUNT)
      (h : WorkerStep (s.workers i) w) : Step cfg s (.worker i, a) (s.setWorker i w)
  | destructor {a : Micro Tid} {s' : State Tid} (h : DestructorStep cfg s a s') :
      Step cfg s (.destructor, a) s'

variable {cfg : Config} {s s' : State Tid}

theorem queueStep_eq_some {θ : Party Tid} {a : Ring.Micro (Fn Tid) 1} {q : Queue Tid} :
    queueStep s θ a = some q ↔ ∃ m p, Ring.Exec (Ring.unbounded taskQueueConfig) taskQueueConfig
      s.queue.mem (s.queue.pc θ) a m p ∧ q = s.queue.put θ m p :=
  Ring.step_eq_some

/-- A step of the queue leaves the other threads where they are. -/
theorem queueStep_pc_of_ne {θ θ' : Party Tid} {a : Ring.Micro (Fn Tid) 1} {q : Queue Tid}
    (h : queueStep s θ a = some q) (hne : θ' ≠ θ) : q.pc θ' = s.queue.pc θ' := by
  obtain ⟨m, pc, -, rfl⟩ := queueStep_eq_some.1 h
  exact Ring.put_pc_of_ne hne _ _ _

theorem queueInside_eq_some {θ : Party Tid} {a : Ring.Micro (Fn Tid) 1} {q : Queue Tid}
    (h : queueInside s θ a = some q) :
    (∀ c, a ≠ .call c) ∧ a ≠ .ret ∧ queueStep s θ a = some q := by
  unfold queueInside at h
  split at h
  · cases h
  · cases h
  next hcall hret => exact ⟨hcall, hret, h⟩

theorem producerStep_cases {p : Tid} {a : Micro Tid}
    (h : producerStep s p (s.producer p) a = some s') : ProducerStep s p a s' := by
  unfold producerStep at h
  split at h
  next empty hp =>
    obtain ⟨q, hq, rfl⟩ := Option.map_eq_some_iff.1 h
    exact .assignTask empty q hp hq
  next a hp =>
    obtain ⟨q, hq, rfl⟩ := Option.map_eq_some_iff.1 h
    obtain ⟨hcall, hret, hq⟩ := queueInside_eq_some hq
    exact .inside a q hp hcall hret hq
  next hp =>
    obtain ⟨q, hq, rfl⟩ := Option.map_eq_some_iff.1 h
    exact .ret q hp hq
  next hp => cases h; exact .store hp
  next hp => cases h; exact .wake hp
  next => cases h

theorem dispatcherStep_cases {a : Micro Tid}
    (h : dispatcherStep cfg s s.dispatcher a = some s') : DispatcherStep cfg s s' := by
  unfold dispatcherStep at h
  split at h
  next hp =>
    cases h
    by_cases hr : s.running = true
    · rw [if_pos hr]; exact .enter hp hr
    · rw [if_neg hr]; exact .exit hp (by simpa using hr)
  next g hp =>
    obtain ⟨o, ho, rfl⟩ := Option.map_eq_some_iff.1 h
    have hw := Waiter.step_cases ho
    cases o with
    | none =>
      cases hw with
      | pass hf => exact .pass hp hf
    | some g' => exact .wait g g' hp hw
  next hp =>
    cases h
    by_cases hr : s.running = true
    · rw [if_pos hr]; exact .drain hp hr
    · rw [if_neg hr]; exact .stop hp (by simpa using hr)
  next k hp =>
    obtain ⟨q, hq, rfl⟩ := Option.map_eq_some_iff.1 h
    exact .inside .isEmpty _ q (by rw [hp]; rfl) (by rintro c ⟨⟩; rfl) (by simp) hq
  next k a hp =>
    obtain ⟨q, hq, rfl⟩ := Option.map_eq_some_iff.1 h
    obtain ⟨hcall, hret, hq⟩ := queueInside_eq_some hq
    exact .inside .isEmpty a q (by rw [hp]; rfl) (fun c hc => absurd hc (hcall c)) hret hq
  next k hp =>
    split at h
    next b hb =>
      obtain ⟨q, hq, rfl⟩ := Option.map_eq_some_iff.1 h
      exact .answer k b q hp hb hq
    next => cases h
  next hp =>
    obtain ⟨q, hq, rfl⟩ := Option.map_eq_some_iff.1 h
    exact .inside .dequeue _ q (by rw [hp]; rfl) (by rintro c ⟨⟩; rfl) (by simp) hq
  next a hp =>
    obtain ⟨q, hq, rfl⟩ := Option.map_eq_some_iff.1 h
    obtain ⟨hcall, hret, hq⟩ := queueInside_eq_some hq
    exact .inside .dequeue a q (by rw [hp]; rfl) (fun c hc => absurd hc (hcall c)) hret hq
  next hp =>
    split at h
    next t v hv =>
      obtain ⟨q, hq, rfl⟩ := Option.map_eq_some_iff.1 h
      exact .take t v q hp hv hq
    next => cases h
  next first start hp =>
    split_ifs at h with hf
    · cases h; exact .claim first start hp hf
    · cases h; exact .next first _ start hp hf
  next left hp => cases h; exact .write left hp
  next hp => cases h; exact .store hp
  next hp => cases h; exact .wake hp
  next hp => cases h; exact .reset hp
  next hp => cases h; exact .signalStore hp
  next hp => cases h; exact .signalWake hp
  next => cases h

/-- There are no other steps. -/
theorem step_cases {a : Thread Tid × Micro Tid} (h : step cfg s a = some s') : Step cfg s a s' := by
  obtain ⟨θ, a⟩ := a
  cases θ with
  | producer p => exact .producer (producerStep_cases h)
  | dispatcher => exact .dispatcher (dispatcherStep_cases h)
  | worker i =>
    simp only [step] at h
    split_ifs at h with hi
    obtain ⟨w, hw, rfl⟩ := Option.map_eq_some_iff.1 h
    exact .worker hi (Worker.step_cases hw)
  | destructor => exact .destructor (destructorStep_cases h)

end Steps

/-! ### The state after a step -/

section Workers

variable (s : State Tid) (i : ℕ) (w : Worker Tid)

@[simp] theorem setWorker_queue : (s.setWorker i w).queue = s.queue := rfl
@[simp] theorem setWorker_task : (s.setWorker i w).task = s.task := rfl
@[simp] theorem setWorker_dispatcher : (s.setWorker i w).dispatcher = s.dispatcher := rfl

@[simp] theorem setWorker_workers_self : (s.setWorker i w).workers i = w :=
  Function.update_self _ _ _

theorem setWorker_workers_of_ne {i j : ℕ} (h : j ≠ i) : (s.setWorker i w).workers j = s.workers j :=
  Function.update_of_ne h _ _

end Workers

/-- What a step of thread `θ` does to worker `i`. -/
inductive Touch (s : State Tid) (i : ℕ) (θ : Thread Tid) : Worker Tid → Prop
  | same : Touch s i θ (s.workers i)
  | own {w : Worker Tid} (hθ : θ = .worker i) (h : WorkerStep (s.workers i) w) : Touch s i θ w
  | claim (first : Bool) (start : ℕ) (hθ : θ = .dispatcher) (hp : s.dispatcher = .scan first start)
      (hid : s.lastIdDispatched = i) (hf : (s.workers i).poolFlag = 0) :
      Touch s i θ { s.workers i with poolFlag := 1 }
  | write (hθ : θ = .dispatcher) (hp : s.dispatcher = .write) (hid : s.lastIdDispatched = i) :
      Touch s i θ { s.workers i with task := s.task }
  | store (hθ : θ = .dispatcher) (hp : s.dispatcher = .store) (hid : s.lastIdDispatched = i) :
      Touch s i θ { s.workers i with flag := 1 }
  | wake (hθ : θ = .dispatcher) (hp : s.dispatcher = .wake) (hid : s.lastIdDispatched = i) :
      Touch s i θ { s.workers i with pc := (s.workers i).pc.woken }
  | workerSet (hθ : θ = .destructor) (hp : s.destructor = .workerSet i) :
      Touch s i θ { s.workers i with running := false }
  | workerStore (hθ : θ = .destructor) (hp : s.destructor = .workerStore i) :
      Touch s i θ { s.workers i with flag := 1 }
  | workerWake (hθ : θ = .destructor) (hp : s.destructor = .workerWake i) :
      Touch s i θ { s.workers i with pc := (s.workers i).pc.woken }

theorem Step.touch [DecidableEq Tid] {cfg : Config} {s s' : State Tid} {a : Thread Tid × Micro Tid}
    (hs : Step cfg s a s') (i : ℕ) : Touch s i a.1 (s'.workers i) := by
  have hput : ∀ {j w}, s'.workers = Function.update s.workers j w → (j = i → Touch s i a.1 w) →
      Touch s i a.1 (s'.workers i) := by
    intro j w hw hself
    rw [hw]
    by_cases hji : j = i
    · subst hji
      rw [Function.update_self]
      exact hself rfl
    · rw [Function.update_of_ne (Ne.symm hji)]
      exact .same
  cases hs with
  | producer hs => cases hs <;> exact .same
  | worker hj hw => exact hput rfl (by rintro rfl; exact .own rfl hw)
  | dispatcher hs =>
    cases hs with
    | claim first start hp hf =>
      exact hput rfl (by rintro rfl; exact .claim first start rfl hp rfl hf)
    | write left hp => exact hput rfl (by rintro rfl; exact .write rfl hp rfl)
    | store hp => exact hput rfl (by rintro rfl; exact .store rfl hp rfl)
    | wake hp => exact hput rfl (by rintro rfl; exact .wake rfl hp rfl)
    | _ => exact .same
  | destructor hs =>
    cases hs with
    | workerSet j hp => exact hput rfl (by rintro rfl; exact .workerSet rfl hp)
    | workerStore j hp => exact hput rfl (by rintro rfl; exact .workerStore rfl hp)
    | workerWake j hp => exact hput rfl (by rintro rfl; exact .workerWake rfl hp)
    | _ => exact .same

/-! ### The queue -/

section Queue

variable [DecidableEq Tid] {cfg : Config} {s s' : State Tid}

/-- What a step does to the queue: nothing, or a step of one of its member functions. -/
theorem Step.queue {a : Thread Tid × Micro Tid} (h : Step cfg s a s') :
    s'.queue = s.queue ∨ ∃ θ b, queueStep s θ b = some s'.queue := by
  cases h with
  | producer h =>
    cases h with
    | assignTask empty q hp hq => exact Or.inr ⟨_, _, hq⟩
    | inside a q hp hcall hret hq => exact Or.inr ⟨_, _, hq⟩
    | ret q hp hq => exact Or.inr ⟨_, _, hq⟩
    | _ => exact Or.inl rfl
  | dispatcher h =>
    cases h with
    | inside op a q hp hcall hret hq => exact Or.inr ⟨_, _, hq⟩
    | answer k b q hp hb hq => exact Or.inr ⟨_, _, hq⟩
    | take t v q hp hv hq => exact Or.inr ⟨_, _, hq⟩
    | _ => exact Or.inl rfl
  | worker hi h => exact Or.inl rfl
  | destructor h => cases h <;> exact Or.inl rfl

/-- A run of the pool is, seen from the queue, a run of the ring. -/
theorem queue_projects : System.Projects (system cfg : System (State Tid) _)
    (Ring.system (Ring.unbounded taskQueueConfig) taskQueueConfig) State.queue := by
  constructor
  · rintro s ⟨data, array, rfl⟩
    exact .init ⟨data, array, rfl⟩
  · intro s a s' _ hstep
    rcases (step_cases hstep).queue with heq | ⟨θ, b, hb⟩
    · exact Or.inl heq
    · exact Or.inr ⟨(θ, b), hb⟩

theorem exists_queue_log (h : (system cfg).Reachable s) :
    ∃ l, Ring.Tickets taskQueueConfig s.queue l ∧ Ring.Contents taskQueueConfig s.queue l := by
  obtain ⟨l, hl⟩ := (queue_projects.reachable h).exists_log Ring.Log.empty Ring.logNote
  exact ⟨l, Ring.invariants hl⟩

/-- The member functions of the queue in progress are those that the threads have called. -/
structure Agree (s : State Tid) : Prop where
  producer : ∀ p, (s.queue.pc (.producer p)).op =
    if s.producer p = .enqueue then some .enqueue else none
  dispatcher : s.queue.pc .dispatcher = .idle ∨ (s.queue.pc .dispatcher).op = s.dispatcher.op

namespace Agree

omit [DecidableEq Tid] in
theorem frame (h : Agree s) (hq : s'.queue = s.queue)
    (hp : ∀ p, s'.producer p = .enqueue ↔ s.producer p = .enqueue)
    (hd : s'.dispatcher.op = s.dispatcher.op ∨ s.dispatcher.op = none) : Agree s' := by
  constructor
  · intro p
    rw [hq, h.producer p]
    simp only [hp p]
  · rw [hq]
    rcases h.dispatcher with hidle | hop
    · exact Or.inl hidle
    · rcases hd with hd | hd
      · exact Or.inr (hop.trans hd.symm)
      · exact Or.inl (Ring.Pc.op_eq_none.1 (hop.trans hd))

/-- A step of the queue in the hands of the dispatcher. -/
theorem dispatch (h : Agree s) {m : Ring.Mem ℕ (Fn Tid) 1} {p : Ring.Pc ℕ ℕ (Fn Tid) 1}
    (hq : s'.queue = s.queue.put .dispatcher m p) (hp : s'.producer = s.producer)
    (hd : p = .idle ∨ p.op = s'.dispatcher.op) : Agree s' := by
  constructor
  · intro p'
    rw [hq, hp, Ring.put_pc_of_ne (by simp), h.producer p']
  · rw [hq, Ring.put_pc_self]
    exact hd

/-- A step of the queue in the hands of a producer. -/
theorem produce (h : Agree s) {p : Tid} {m : Ring.Mem ℕ (Fn Tid) 1} {pc : Ring.Pc ℕ ℕ (Fn Tid) 1}
    (hq : s'.queue = s.queue.put (.producer p) m pc) (hd : s'.dispatcher = s.dispatcher)
    (hne : ∀ p', p' ≠ p → s'.producer p' = s.producer p')
    (hp : pc.op = if s'.producer p = .enqueue then some .enqueue else none) : Agree s' := by
  constructor
  · intro p'
    rw [hq]
    by_cases hpp : p' = p
    · subst hpp
      rw [Ring.put_pc_self, hp]
    · rw [Ring.put_pc_of_ne (by simpa using hpp), hne p' hpp, h.producer p']
  · rw [hq, hd, Ring.put_pc_of_ne (by simp)]
    exact h.dispatcher

theorem step (h : Agree s) {a : Thread Tid × Micro Tid} (hs : Step cfg s a s') : Agree s' := by
  cases hs with
  | worker hi hw => exact h.frame rfl (fun _ => Iff.rfl) (Or.inl rfl)
  | destructor hs =>
    cases hs with
    | wake hp => exact h.frame rfl (fun _ => Iff.rfl) (Or.inl (Dispatcher.woken_op _))
    | _ => exact h.frame rfl (fun _ => Iff.rfl) (Or.inl rfl)
  | @producer p _ _ hs =>
    cases hs with
    | assignTask empty q hp hq =>
      obtain ⟨m, pc, hx, rfl⟩ := queueStep_eq_some.1 hq
      obtain ⟨-, -, rfl⟩ := hx.call_inv
      exact h.produce rfl rfl (fun p' hne => Function.update_of_ne hne _ _)
        (by simp [Ring.entry_op, Ring.Call.op])
    | inside b q hp hcall hret hq =>
      obtain ⟨m, pc, hx, rfl⟩ := queueStep_eq_some.1 hq
      exact h.produce rfl rfl (fun _ _ => rfl) ((hx.op_eq hcall hret).trans (h.producer p))
    | ret q hp hq =>
      obtain ⟨m, pc, hx, rfl⟩ := queueStep_eq_some.1 hq
      obtain ⟨-, rfl⟩ := hx.ret_inv
      exact h.produce rfl rfl (fun p' hne => Function.update_of_ne hne _ _) (by simp [Ring.Pc.op])
    | store hp =>
      refine h.frame rfl (fun p' => ?_) (Or.inl rfl)
      by_cases hpp : p' = p
      · subst hpp; simp [hp]
      · simp [Function.update_of_ne hpp]
    | wake hp =>
      refine h.frame rfl (fun p' => ?_) (Or.inl (Dispatcher.woken_op _))
      by_cases hpp : p' = p
      · subst hpp; simp [hp]
      · simp [Function.update_of_ne hpp]
  | dispatcher hs =>
    cases hs with
    | inside op b q hp hcall hret hq =>
      obtain ⟨m, pc, hx, rfl⟩ := queueStep_eq_some.1 hq
      refine h.dispatch rfl rfl (Or.inr ?_)
      by_cases hc : ∃ c, b = .call c
      · obtain ⟨c, rfl⟩ := hc
        obtain ⟨-, -, rfl⟩ := hx.call_inv
        rw [Ring.entry_op, hcall c rfl, hp]
      · have hcall' : ∀ c, b ≠ .call c := fun c hbc => hc ⟨c, hbc⟩
        rw [hx.op_eq hcall' hret]
        exact h.dispatcher.resolve_left (hx.ne_idle hcall')
    | answer k b q hp hb hq =>
      obtain ⟨m, pc, hx, rfl⟩ := queueStep_eq_some.1 hq
      obtain ⟨-, rfl⟩ := hx.ret_inv
      exact h.dispatch rfl rfl (Or.inl rfl)
    | take t v q hp hv hq =>
      obtain ⟨m, pc, hx, rfl⟩ := queueStep_eq_some.1 hq
      obtain ⟨-, rfl⟩ := hx.ret_inv
      exact h.dispatch rfl rfl (Or.inl rfl)
    | wait g g' hp hw => exact h.frame rfl (fun _ => Iff.rfl) (Or.inl (by rw [hp]; rfl))
    | next first first' start hp hf =>
      exact h.frame rfl (fun _ => Iff.rfl) (Or.inr (by rw [hp]; rfl))
    | claim first start hp hf => exact h.frame rfl (fun _ => Iff.rfl) (Or.inr (by rw [hp]; rfl))
    | write left hp => exact h.frame rfl (fun _ => Iff.rfl) (Or.inr (by rw [hp]; rfl))
    | _ hp => exact h.frame rfl (fun _ => Iff.rfl) (Or.inr (by rw [hp]; rfl))

theorem reachable (h : (system cfg).Reachable s) : Agree s := by
  have hI : (system cfg).IsInvariant (Agree : State Tid → Prop) := by
    constructor
    · rintro s ⟨data, array, rfl⟩
      exact ⟨fun _ => rfl, Or.inl rfl⟩
    · intro s a s' _ ih hstep
      exact ih.step (step_cases hstep)
  exact hI.reachable h

omit [DecidableEq Tid] in
/-- The dispatcher is in no other function than `isEmpty` and `dequeue`. -/
theorem dispatcher_op (h : Agree s) {op : Ring.Op} (hop : (s.queue.pc .dispatcher).op = some op) :
    op = .isEmpty ∨ op = .dequeue := by
  rcases h.dispatcher with hidle | hd
  · rw [hidle] at hop
    cases hop
  · rw [hd] at hop
    cases hs : s.dispatcher with
    | isEmpty k => rw [hs] at hop; cases hop; exact Or.inl rfl
    | dequeue => rw [hs] at hop; cases hop; exact Or.inr rfl
    | _ => rw [hs] at hop; cases hop

omit [DecidableEq Tid] in
/-- Nobody calls `batchDequeue`. -/
theorem inBatch_eq_false (h : Agree s) (θ : Party Tid) : (s.queue.pc θ).inBatch = false := by
  refine Ring.Pc.inBatch_of_op fun hop => ?_
  cases θ with
  | producer p =>
    rw [h.producer p] at hop
    split_ifs at hop
    cases hop
  | dispatcher => rcases h.dispatcher_op hop with hop | hop <;> cases hop

omit [DecidableEq Tid] in
theorem idle_of_ne_enqueue (h : Agree s) {p : Tid} (hp : s.producer p ≠ .enqueue) :
    s.queue.pc (.producer p) = .idle := by
  have hop := h.producer p
  rw [if_neg hp] at hop
  exact Ring.Pc.op_eq_none.1 hop

omit [DecidableEq Tid] in
theorem idle_of_op_eq_none (h : Agree s) (hd : s.dispatcher.op = none) :
    s.queue.pc .dispatcher = .idle := by
  rcases h.dispatcher with hidle | hop
  · exact hidle
  · exact Ring.Pc.op_eq_none.1 (hop.trans hd)

end Agree

/-- What a step of the queue does to the functions on their way through it. -/
theorem queue_transit (h : (system cfg).Reachable s) {θ : Party Tid} {a : Ring.Micro (Fn Tid) 1}
    {q : Queue Tid} (hq : queueStep s θ a = some q) :
    Ring.Transit taskQueueConfig θ (s.queue.pc θ) a s.queue q := by
  obtain ⟨l, ht, hc⟩ := exists_queue_log h
  obtain ⟨m, pc, hx, rfl⟩ := queueStep_eq_some.1 hq
  exact hx.transit ht hc ((Agree.reachable h).inBatch_eq_false θ)

/-- What a step of a producer does to the tickets. -/
theorem ProducerStep.tickets {p : Tid} {a : Micro Tid} (h : ProducerStep s p a s') (ha : Agree s) :
    s'.queue.mem.readTicket = s.queue.mem.readTicket ∧
    (s'.queue.mem.writeTicket = s.queue.mem.writeTicket ∨
      s'.queue.mem.writeTicket = s.queue.mem.writeTicket + 1 ∧
        (s'.queue.pc (.producer p)).claimed = true) := by
  cases h with
  | assignTask empty q hp hq =>
    obtain ⟨m, pc, hx, rfl⟩ := queueStep_eq_some.1 hq
    obtain ⟨-, rfl, -⟩ := hx.call_inv
    exact ⟨rfl, Or.inl rfl⟩
  | inside b q hp hcall hret hq =>
    obtain ⟨m, pc, hx, rfl⟩ := queueStep_eq_some.1 hq
    refine ⟨hx.readTicket_of_enqueue (by rw [ha.producer p, if_pos hp]), ?_⟩
    simp only [Ring.put_pc_self, Ring.put_mem]
    exact hx.writeTicket
  | ret q hp hq =>
    obtain ⟨m, pc, hx, rfl⟩ := queueStep_eq_some.1 hq
    obtain ⟨rfl, -⟩ := hx.ret_inv
    exact ⟨rfl, Or.inl rfl⟩
  | _ => exact ⟨rfl, Or.inl rfl⟩

theorem ProducerStep.dispatcher {p : Tid} {a : Micro Tid} (h : ProducerStep s p a s') :
    s'.dispatcher = s.dispatcher ∨ s'.dispatcher = s.dispatcher.woken := by
  cases h with
  | wake hp => exact Or.inr rfl
  | _ => exact Or.inl rfl

/-- A producer leaves the other threads alone. -/
theorem ProducerStep.others {p : Tid} {a : Micro Tid} (h : ProducerStep s p a s') :
    s'.queue.pc .dispatcher = s.queue.pc .dispatcher ∧
    ∀ p', p' ≠ p → s'.queue.pc (.producer p') = s.queue.pc (.producer p') ∧
      s'.producer p' = s.producer p' := by
  have hput : ∀ {b q}, queueStep s (.producer p) b = some q →
      q.pc .dispatcher = s.queue.pc .dispatcher ∧
      ∀ p', p' ≠ p → q.pc (.producer p') = s.queue.pc (.producer p') := by
    intro b q hq
    exact ⟨queueStep_pc_of_ne hq (by simp),
      fun p' hne => queueStep_pc_of_ne hq (by simpa using hne)⟩
  cases h with
  | assignTask empty q hp hq =>
    exact ⟨(hput hq).1, fun p' hne => ⟨(hput hq).2 p' hne, Function.update_of_ne hne _ _⟩⟩
  | inside b q hp hcall hret hq => exact ⟨(hput hq).1, fun p' hne => ⟨(hput hq).2 p' hne, rfl⟩⟩
  | ret q hp hq =>
    exact ⟨(hput hq).1, fun p' hne => ⟨(hput hq).2 p' hne, Function.update_of_ne hne _ _⟩⟩
  | store hp => exact ⟨rfl, fun p' hne => ⟨rfl, Function.update_of_ne hne _ _⟩⟩
  | wake hp => exact ⟨rfl, fun p' hne => ⟨rfl, Function.update_of_ne hne _ _⟩⟩

end Queue

end AstraLib.ThreadPool
