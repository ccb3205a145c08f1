import AstraLib.Ring.Liveness
import AstraLib.ThreadPool.Completion

/-!
# `ThreadPool`: fair executions

An execution is fair if every thread goes on as long as it has something to do.  Nobody has to call
`assignTask` or `~ThreadPool`, and nobody counts on a `FUTEX_WAIT` that returns by itself
(`Obliged`).  A task that runs is treated like any other statement of its worker, so it ends.

`taskQueue` takes part in a fair execution of the ring (`Fair.queue`), which is all that
is needed to know of it.  A busy worker becomes available again, so the dispatcher finds
one in the end (`Fair.scan_ends`).
-/

namespace AstraLib.ThreadPool

open Interleaving System

variable {Tid : Type}

/-- What thread `θ` does of its own accord. -/
def Obliged (θ : Thread Tid) (b : Thread Tid × Micro Tid) : Prop :=
  b.1 = θ ∧ (∀ empty, b.2 ≠ .assignTask empty) ∧ b.2 ≠ .destroy ∧ b.2 ≠ .spurious

section Fairness

variable [DecidableEq Tid] {cfg : Config} {s s' : State Tid} {l : Log Tid}

/-- The steps of the threads are treated fairly. -/
structure Fair (cfg : Config) (z : ℕ → State Tid × Log Tid)
    (a : ℕ → Option (Thread Tid × Micro Tid)) : Prop where
  execution : (logged Tid cfg).Execution z a
  obliged : ∀ θ, (logged Tid cfg).WeaklyFair (Obliged θ) z a

theorem enabled_of_step {θ : Thread Tid} {m : Micro Tid} (hs : step cfg s (θ, m) = some s')
    (hm : Obliged θ (θ, m)) : (logged Tid cfg).Enabled (Obliged θ) (s, l) := by
  refine ⟨(θ, m), (s', l.note s (θ, m)), hm, ⟨fun p hp => ?_, hs⟩, rfl⟩
  cases hp
  exact hm.2.1 true rfl

/-! ### The queue -/

/-- The step of `taskQueue` that a step of the pool contains. -/
def queueLabel (s : State Tid) : Thread Tid × Micro Tid → Option (Party Tid × Ring.Micro (Fn Tid) 1)
  | (.producer p, .assignTask empty) =>
      some (.producer p, .call (.enqueue .move fun _ => if empty then none
        else some (p, s.calls p)))
  | (.producer p, .queue b) => some (.producer p, b)
  | (.producer p, .ret) => some (.producer p, .ret)
  | (.dispatcher, .call) =>
      some (.dispatcher, .call (match s.dispatcher with | .dequeue => .dequeue | _ => .isEmpty))
  | (.dispatcher, .queue b) => some (.dispatcher, b)
  | (.dispatcher, .ret) => some (.dispatcher, .ret)
  | _ => none

/-- What a step of the pool does to the queue. -/
def QueueStep (s : State Tid) (o : Option (Party Tid × Ring.Micro (Fn Tid) 1))
    (q : Queue Tid) : Prop :=
  match o with
  | some c => queueStep s c.1 c.2 = some q
  | none => q = s.queue

theorem producerStep_queue {p : Tid} {a : Micro Tid} (hs : ProducerStep s p a s') :
    QueueStep s (queueLabel s (.producer p, a)) s'.queue := by
  cases hs with
  | assignTask empty q hp hq => exact hq
  | inside b q hp hcall hret hq => exact hq
  | ret q hp hq => exact hq
  | store hp => rfl
  | wake hp => rfl

theorem dispatcherStep_queue {a : Micro Tid} (h : dispatcherStep cfg s s.dispatcher a = some s') :
    QueueStep s (queueLabel s (.dispatcher, a)) s'.queue := by
  unfold dispatcherStep at h
  split at h
  next hp => cases h; rfl
  next g hp =>
    obtain ⟨o, ho, rfl⟩ := Option.map_eq_some_iff.1 h
    unfold Waiter.step at ho
    split at ho
    · rfl
    · rfl
    · rfl
    · cases ho
  next hp => cases h; rfl
  next k hp =>
    obtain ⟨q, hq, rfl⟩ := Option.map_eq_some_iff.1 h
    simpa only [QueueStep, queueLabel, hp] using hq
  next k a hp =>
    obtain ⟨q, hq, rfl⟩ := Option.map_eq_some_iff.1 h
    exact (queueInside_eq_some hq).2.2
  next k hp =>
    split at h
    · obtain ⟨q, hq, rfl⟩ := Option.map_eq_some_iff.1 h
      exact hq
    · cases h
  next hp =>
    obtain ⟨q, hq, rfl⟩ := Option.map_eq_some_iff.1 h
    simpa only [QueueStep, queueLabel, hp] using hq
  next a hp =>
    obtain ⟨q, hq, rfl⟩ := Option.map_eq_some_iff.1 h
    exact (queueInside_eq_some hq).2.2
  next hp =>
    split at h
    · obtain ⟨q, hq, rfl⟩ := Option.map_eq_some_iff.1 h
      exact hq
    · cases h
  next first start hp =>
    split_ifs at h with hf
    · cases h; rfl
    · cases h; rfl
  next left hp => cases h; rfl
  next hp => cases h; rfl
  next hp => cases h; rfl
  next hp => cases h; rfl
  next hp => cases h; rfl
  next hp => cases h; rfl
  next => cases h

theorem step_queue {b : Thread Tid × Micro Tid} (h : step cfg s b = some s') :
    QueueStep s (queueLabel s b) s'.queue := by
  obtain ⟨θ, a⟩ := b
  cases θ with
  | producer p => exact producerStep_queue (producerStep_cases h)
  | dispatcher => exact dispatcherStep_queue h
  | worker i =>
    cases step_cases h with
    | worker hi hw => rfl
  | destructor =>
    cases step_cases h with
    | destructor hs => cases hs <;> rfl

/-- A producer inside `enqueue` goes on when the queue lets it. -/
theorem exists_producer_step (ha : Agree s) {p : Tid} {b : Ring.Micro (Fn Tid) 1} {q : Queue Tid}
    (hq : queueStep s (.producer p) b = some q) (hcall : ∀ c, b ≠ .call c) :
    ∃ m s', step cfg s (.producer p, m) = some s' ∧ Obliged (.producer p) (.producer p, m) := by
  have hp : s.producer p = .enqueue := by
    by_contra hne
    obtain ⟨m, pc, hx, -⟩ := queueStep_eq_some.1 hq
    exact hx.ne_idle hcall (ha.idle_of_ne_enqueue hne)
  by_cases hret : b = .ret
  · subst hret
    exact ⟨.ret, _, by simp [step, producerStep, hp, hq]; rfl, by simp [Obliged]⟩
  · have hinside : queueInside s (.producer p) b = some q := by
      cases b with
      | call c => exact absurd rfl (hcall c)
      | ret => exact absurd rfl hret
      | _ => exact hq
    exact ⟨.queue b, _, by simp [step, producerStep, hp, hinside]; rfl, by simp [Obliged]⟩

/-- The dispatcher inside a member function goes on when the queue lets it. -/
theorem exists_dispatcher_step (ha : Agree s) {b : Ring.Micro (Fn Tid) 1} {q : Queue Tid}
    (hq : queueStep s .dispatcher b = some q) (hcall : ∀ c, b ≠ .call c) :
    ∃ m s', step cfg s (.dispatcher, m) = some s' ∧ Obliged .dispatcher (.dispatcher, m) := by
  obtain ⟨m, pc, hx, -⟩ := queueStep_eq_some.1 hq
  have hpc := ha.dispatcher.resolve_left (hx.ne_idle hcall)
  by_cases hret : b = .ret
  · subst hret
    cases hd : s.dispatcher with
    | isEmpty k =>
      obtain ⟨r, hr⟩ : ∃ r, s.queue.pc .dispatcher = .isEmptyReturn r := by
        rw [hd] at hpc
        generalize s.queue.pc .dispatcher = pc₀ at hx hpc
        cases hx with
        | isEmptyRet r => exact ⟨r, rfl⟩
        | _ => cases hpc
      exact ⟨.ret, _, by simp [step, dispatcherStep, hd, hr, hq]; rfl, by simp [Obliged]⟩
    | dequeue =>
      obtain ⟨t, v, hv⟩ : ∃ t v, s.queue.pc .dispatcher = .deqReturn t v := by
        rw [hd] at hpc
        generalize s.queue.pc .dispatcher = pc₀ at hx hpc
        cases hx with
        | deqRet t v => exact ⟨t, v, rfl⟩
        | _ => cases hpc
      exact ⟨.ret, _, by simp [step, dispatcherStep, hd, hv, hq]; rfl, by simp [Obliged]⟩
    | _ =>
      rw [hd] at hpc
      exact absurd (Ring.Pc.op_eq_none.1 hpc) (hx.ne_idle hcall)
  · have hinside : queueInside s .dispatcher b = some q := by
      cases b with
      | call c => exact absurd rfl (hcall c)
      | ret => exact absurd rfl hret
      | _ => exact hq
    cases hd : s.dispatcher with
    | isEmpty k =>
      exact ⟨.queue b, _, by simp [step, dispatcherStep, hd, hinside]; rfl, by simp [Obliged]⟩
    | dequeue =>
      exact ⟨.queue b, _, by simp [step, dispatcherStep, hd, hinside]; rfl, by simp [Obliged]⟩
    | _ =>
      rw [hd] at hpc
      exact absurd (Ring.Pc.op_eq_none.1 hpc) (hx.ne_idle hcall)

/-- In a member function of the queue the dispatcher does nothing else. -/
theorem micro_of_op {m : Micro Tid} (hs : step cfg s (.dispatcher, m) = some s') {op : Ring.Op}
    (hop : s.dispatcher.op = some op) :
    m = .call ∨ m = .ret ∨ ∃ b, m = .queue b ∧ ∀ c, b ≠ .call c := by
  have hinside : ∀ {b q}, queueInside s .dispatcher b = some q → ∀ c, b ≠ .call c :=
    fun hq => (queueInside_eq_some hq).1
  cases hd : s.dispatcher with
  | isEmpty k =>
    cases m with
    | call => exact Or.inl rfl
    | ret => exact Or.inr (Or.inl rfl)
    | queue b =>
      simp only [step, dispatcherStep, hd, Option.map_eq_some_iff] at hs
      obtain ⟨q, hq, -⟩ := hs
      exact Or.inr (Or.inr ⟨b, rfl, hinside hq⟩)
    | _ => simp [step, dispatcherStep, hd] at hs
  | dequeue =>
    cases m with
    | call => exact Or.inl rfl
    | ret => exact Or.inr (Or.inl rfl)
    | queue b =>
      simp only [step, dispatcherStep, hd, Option.map_eq_some_iff] at hs
      obtain ⟨q, hq, -⟩ := hs
      exact Or.inr (Or.inr ⟨b, rfl, hinside hq⟩)
    | _ => simp [step, dispatcherStep, hd] at hs
  | _ => rw [hd] at hop; cases hop

/-- In `enqueue` a producer does nothing else. -/
theorem micro_of_enqueue {p : Tid} {m : Micro Tid} (hs : ProducerStep s p m s')
    (hp : s.producer p = .enqueue) : m = .ret ∨ ∃ b, m = .queue b ∧ ∀ c, b ≠ .call c := by
  cases hs with
  | assignTask empty q hp' => cases hp.symm.trans hp'
  | inside b q _ hcall hret hq => exact Or.inr ⟨b, rfl, hcall⟩
  | ret q _ hq => exact Or.inl rfl
  | store hp' => cases hp.symm.trans hp'
  | wake hp' => cases hp.symm.trans hp'

/-- What a step means to producer `p`: it is its own, or it leaves it alone. -/
theorem Step.of_producer {b : Thread Tid × Micro Tid} (hs : Step cfg s b s') (p : Tid) :
    (b.1 = .producer p ∧ ∃ m, ProducerStep s p m s') ∨
    (b.1 ≠ .producer p ∧ s'.producer p = s.producer p ∧
      s'.queue.pc (.producer p) = s.queue.pc (.producer p) ∧ s'.calls p = s.calls p) := by
  cases hs with
  | @producer p' m _ hs =>
    by_cases hpp : p' = p
    · subst hpp
      exact Or.inl ⟨rfl, m, hs⟩
    · obtain ⟨hpc, hp⟩ := hs.others.2 p (Ne.symm hpp)
      refine Or.inr ⟨by simpa using hpp, hp, hpc, ?_⟩
      cases hs with
      | assignTask empty q _ _ => exact Function.update_of_ne (Ne.symm hpp) _ _
      | _ => rfl
  | dispatcher hs =>
    right
    cases hs with
    | inside op b q _ _ _ hq => exact ⟨by simp, rfl, queueStep_pc_of_ne hq (by simp), rfl⟩
    | answer k b q _ _ hq => exact ⟨by simp, rfl, queueStep_pc_of_ne hq (by simp), rfl⟩
    | take t v q _ _ hq => exact ⟨by simp, rfl, queueStep_pc_of_ne hq (by simp), rfl⟩
    | _ => exact ⟨by simp, rfl, rfl, rfl⟩
  | worker hi hw => exact Or.inr ⟨by simp, rfl, rfl, rfl⟩
  | destructor hs => exact Or.inr ⟨by simp, by cases hs <;> exact ⟨rfl, rfl, rfl⟩⟩

/-- A producer leaves `enqueue` for the store to the flag. -/
theorem Step.producer_enqueue {b : Thread Tid × Micro Tid} (hs : Step cfg s b s') {p : Tid}
    (hp : s.producer p = .enqueue) : s'.producer p = .enqueue ∨ s'.producer p = .store := by
  rcases hs.of_producer p with ⟨-, m, hs⟩ | ⟨-, hsame, -⟩
  · cases hs with
    | assignTask empty q hp' => cases hp.symm.trans hp'
    | inside b q _ _ _ _ => exact Or.inl hp
    | ret q _ hq => exact Or.inr (Function.update_self _ _ _)
    | store hp' => cases hp.symm.trans hp'
    | wake hp' => cases hp.symm.trans hp'
  · exact Or.inl (hsame.trans hp)

/-! ### The dispatcher -/

/-- What a step means to the dispatcher: it is its own, or it does no more than to open its gate. -/
theorem Step.of_dispatcher {b : Thread Tid × Micro Tid} (hs : Step cfg s b s') (ha : Agree s) :
    (b.1 = .dispatcher ∧ DispatcherStep cfg s s') ∨
    (b.1 ≠ .dispatcher ∧ (s'.dispatcher = s.dispatcher ∨ s'.dispatcher = s.dispatcher.woken) ∧
      s'.queue.pc .dispatcher = s.queue.pc .dispatcher ∧
      s'.queue.mem.readTicket = s.queue.mem.readTicket ∧
      (s'.taskFlag = s.taskFlag ∨ s'.taskFlag = 1)) := by
  cases hs with
  | producer hs =>
    refine Or.inr ⟨by simp, hs.dispatcher, hs.others.1, (hs.tickets ha).1, ?_⟩
    cases hs with
    | store hp => exact Or.inr rfl
    | _ => exact Or.inl rfl
  | dispatcher hs => exact Or.inl ⟨rfl, hs⟩
  | worker hi hw => exact Or.inr ⟨by simp, Or.inl rfl, rfl, rfl, Or.inl rfl⟩
  | destructor hs =>
    cases hs with
    | store hp => exact Or.inr ⟨by simp, Or.inl rfl, rfl, rfl, Or.inr rfl⟩
    | wake hp => exact Or.inr ⟨by simp, Or.inr rfl, rfl, rfl, Or.inl rfl⟩
    | _ => exact Or.inr ⟨by simp, Or.inl rfl, rfl, rfl, Or.inl rfl⟩

omit [DecidableEq Tid] in
/-- Nothing happens to a dispatcher that is awake. -/
theorem Dispatcher.woken_of_ne_asleep {d : Dispatcher}
    (hd : d ≠ .waiter .asleep) : d.woken = d := by
  cases d with
  | waiter g =>
    cases g with
    | asleep => exact absurd rfl hd
    | _ => rfl
  | _ => rfl

/-- The dispatcher goes on, unless it has exited or sleeps. -/
theorem exists_dispatcher_go (ha : Agree s) (hexit : s.dispatcher ≠ .exited)
    (hawake : s.dispatcher ≠ .waiter .asleep) :
    ∃ m s', step cfg s (.dispatcher, m) = some s' ∧ Obliged .dispatcher (.dispatcher, m) := by
  by_cases hidle : s.queue.pc .dispatcher = .idle
  · have hcall : ∀ c, queueStep s .dispatcher (.call c) =
        some (s.queue.put .dispatcher s.queue.mem (c.entry taskQueueConfig)) := fun c =>
      queueStep_eq_some.2 ⟨_, _, by rw [hidle]; exact .call c, rfl⟩
    cases hd : s.dispatcher with
    | exited => exact absurd hd hexit
    | waiter g =>
      cases g with
      | asleep => exact absurd hd hawake
      | load =>
        by_cases hf : s.taskFlag = 1
        · exact ⟨.go, _, by simp [step, dispatcherStep, hd, Waiter.step, hf]; rfl,
            by simp [Obliged]⟩
        · exact ⟨.go, _, by simp [step, dispatcherStep, hd, Waiter.step, hf]; rfl,
            by simp [Obliged]⟩
      | wait =>
        by_cases hf : s.taskFlag = 0
        · exact ⟨.go, _, by simp [step, dispatcherStep, hd, Waiter.step, hf]; rfl,
            by simp [Obliged]⟩
        · exact ⟨.go, _, by simp [step, dispatcherStep, hd, Waiter.step, hf]; rfl,
            by simp [Obliged]⟩
    | isEmpty k =>
      exact ⟨.call, _, by simp [step, dispatcherStep, hd, hcall]; rfl, by simp [Obliged]⟩
    | dequeue => exact ⟨.call, _, by simp [step, dispatcherStep, hd, hcall]; rfl, by simp [Obliged]⟩
    | scan first start =>
      by_cases hf : s.candidate.poolFlag = 0
      · exact ⟨.go, _, by simp [step, dispatcherStep, hd, hf]; rfl, by simp [Obliged]⟩
      · exact ⟨.go, _, by simp [step, dispatcherStep, hd, hf]; rfl, by simp [Obliged]⟩
    | write => exact ⟨.move none, _, by simp [step, dispatcherStep, hd]; rfl, by simp [Obliged]⟩
    | _ => exact ⟨.go, _, by simp [step, dispatcherStep, hd]; rfl, by simp [Obliged]⟩
  · have hon := Ring.enabled_of_ne_idle taskQueueConfig hidle
    obtain ⟨⟨θ, b⟩, q, ⟨rfl, hcall⟩, hq⟩ := hon
    exact exists_dispatcher_step ha hq hcall

/-! ### The workers -/

omit [DecidableEq Tid] in
/-- A worker goes on, unless it has exited or sleeps. -/
theorem Worker.exists_go {w : Worker Tid} (hexit : w.pc ≠ .exited) (hawake : w.pc ≠ .waiter .asleep)
    (hcall : w.pc = .call → w.task ≠ none) : ∃ w', w.step .go = some w' := by
  cases hp : w.pc with
  | exited => exact absurd hp hexit
  | call =>
    obtain ⟨t, ht⟩ := Option.ne_none_iff_exists'.1 (hcall hp)
    exact ⟨_, by simp only [Worker.step, hp, ht]; rfl⟩
  | waiter g =>
    cases g with
    | asleep => exact absurd hp hawake
    | load =>
      by_cases hf : w.flag = 1
      · exact ⟨_, by simp only [Worker.step, hp, Waiter.step, if_pos hf]; rfl⟩
      · exact ⟨_, by simp only [Worker.step, hp, Waiter.step, if_neg hf]; rfl⟩
    | wait =>
      by_cases hf : w.flag = 0
      · exact ⟨_, by simp only [Worker.step, hp, Waiter.step, if_pos hf]; rfl⟩
      · exact ⟨_, by simp only [Worker.step, hp, Waiter.step, if_neg hf]; rfl⟩
  | _ => exact ⟨_, by simp only [Worker.step, hp]; rfl⟩

theorem exists_worker_step {i : ℕ} (hi : i < cfg.THREAD_COUNT) (hexit : (s.workers i).pc ≠ .exited)
    (hawake : (s.workers i).pc ≠ .waiter .asleep)
    (hcall : (s.workers i).pc = .call → (s.workers i).task ≠ none) :
    ∃ m s', step cfg s (.worker i, m) = some s' ∧ Obliged (.worker i) (.worker i, m) := by
  obtain ⟨w, hw⟩ := Worker.exists_go hexit hawake hcall
  exact ⟨.go, s.setWorker i w, by simp [step, hi, hw], by simp [Obliged]⟩

/-- The number of steps until a worker has been through its loop, if its gate is open. `first`
stands for the way from `while (running)` on. -/
def Loop.remaining (first : ℕ) : Loop Tid → ℕ
  | .loopTest => first
  | .waiter .wait | .waiter .asleep => 9
  | .waiter .load => 8
  | .test => 7
  | .call => 6
  | .executing _ => 5
  | .clear => 4
  | .reset => 3
  | .release => 2
  | .exited => 0

omit [DecidableEq Tid] in
/-- A busy worker finds its gate open and its slot filled. -/
theorem Phase.of_busy {w : Worker Tid} (h : Phase .away w) (hpool : w.poolFlag ≠ 0) :
    w.pc ≠ .exited ∧ w.pc ≠ .waiter .asleep ∧
    (w.pc.awaits = true → w.flag = 1 ∧ w.task ≠ none) := by
  cases h with
  | free _ hz => exact absurd hz hpool
  | claimed hg => cases hg
  | filled x hg => cases hg
  | signalled x _ _ hflag htask hpc hasleep =>
    refine ⟨fun hp => ?_, fun hp => ?_, fun _ => ⟨hflag, by simp [htask]⟩⟩
    · rw [hp] at hpc
      cases hpc
    · cases hasleep hp
  | executing x _ _ _ _ hpc => rcases hpc with hpc | hpc <;> simp [hpc, Loop.awaits]
  | cleared _ _ _ _ hpc => simp [hpc, Loop.awaits]
  | closed _ _ _ _ hpc => simp [hpc, Loop.awaits]

omit [DecidableEq Tid] in
/-- Each step of a busy worker brings it nearer to the end of its loop. -/
theorem WorkerStep.remaining_lt {w w' : Worker Tid} (hs : WorkerStep w w') (h : Phase .away w)
    (hr : w.running = true) (hpool : w.poolFlag ≠ 0) :
    w'.poolFlag = 0 ∨ w'.pc.remaining 10 < w.pc.remaining 10 := by
  obtain ⟨-, -, hopen⟩ := h.of_busy hpool
  cases hs with
  | release hp => exact Or.inl rfl
  | exit hp hr' => cases hr.symm.trans hr'
  | wait g g' hp hw =>
    obtain ⟨hflag, -⟩ := hopen (by rw [hp]; rfl)
    rw [hp]
    cases hw with
    | miss hf => exact absurd hflag hf
    | sleep hz => cases hflag.symm.trans hz
    | again hf => exact Or.inr (Nat.lt_succ_self 8)
    | spurious => exact Or.inr (Nat.lt_succ_self 8)
  | skip hp ht => exact absurd ht (hopen (by rw [hp]; rfl)).2
  | enter hp _ => simp [hp, Loop.remaining]
  | pass hp _ => simp [hp, Loop.remaining]
  | accept t hp _ => simp [hp, Loop.remaining]
  | start t hp _ => simp [hp, Loop.remaining]
  | finish t hp => simp [hp, Loop.remaining]
  | clear hp => simp [hp, Loop.remaining]
  | reset hp => simp [hp, Loop.remaining]

omit [DecidableEq Tid] in
theorem WorkerStep.poolFlag {w w' : Worker Tid} (hs : WorkerStep w w') :
    w'.poolFlag = w.poolFlag ∨ w'.poolFlag = 0 := by
  cases hs with
  | release hp => exact Or.inr rfl
  | _ => exact Or.inl rfl

/-- What a step means to worker `i`: it is its own, or it is one of those listed in `Touch`. -/
theorem Step.of_worker {b : Thread Tid × Micro Tid} (hs : Step cfg s b s') (i : ℕ) :
    (b.1 = .worker i ∧ WorkerStep (s.workers i) (s'.workers i)) ∨
      (b.1 ≠ .worker i ∧ Touch s i b.1 (s'.workers i)) := by
  have htouch := hs.touch i
  cases hs with
  | @worker j m w hj hw =>
    by_cases hij : i = j
    · subst hij
      exact Or.inl ⟨rfl, by rw [setWorker_workers_self]; exact hw⟩
    · exact Or.inr ⟨by simpa using Ne.symm hij, htouch⟩
  | _ => exact Or.inr ⟨by simp, htouch⟩

/-- The dispatcher looks for a worker. -/
def State.Scans (s : State Tid) : Prop := ∃ first start, s.dispatcher = .scan first start

omit [DecidableEq Tid] in
theorem State.Scans.away {s : State Tid} (h : s.Scans) (i : ℕ) : s.grip i = .away := by
  obtain ⟨first, start, hp⟩ := h
  exact State.grip_eq_away (by rw [hp]; rfl) i

/-- While the dispatcher looks for a worker, the workers are left alone. -/
theorem Step.workers_of_scan {b : Thread Tid × Micro Tid} (hs : Step cfg s b s')
    (hr : (system cfg).Reachable s) (hscan : s.Scans) (hscan' : s'.Scans) (i : ℕ) :
    (b.1 ≠ .worker i ∧ s'.workers i = s.workers i) ∨
      b.1 = .worker i ∧ WorkerStep (s.workers i) (s'.workers i) := by
  obtain ⟨first, start, hd⟩ := hscan
  obtain ⟨first', start', hd'⟩ := hscan'
  cases hs with
  | producer hs => exact Or.inl ⟨by simp, by cases hs <;> rfl⟩
  | @worker j m w hj hw =>
    by_cases hij : i = j
    · subst hij
      exact Or.inr ⟨rfl, by rw [setWorker_workers_self]; exact hw⟩
    · exact Or.inl ⟨by simpa using Ne.symm hij, setWorker_workers_of_ne s w hij⟩
  | dispatcher hs =>
    cases hs with
    | claim first start hp _ => cases hd'
    | write left hp => cases hd.symm.trans hp
    | store hp => cases hd.symm.trans hp
    | wake hp => cases hd.symm.trans hp
    | _ => exact Or.inl ⟨by simp, rfl⟩
  | destructor hs =>
    have hspares : s.destructor.spares = true := spares_of_ne_exited hr (by rw [hd]; simp)
    cases hs with
    | workerSet j hp => rw [hp] at hspares; cases hspares
    | workerStore j hp => rw [hp] at hspares; cases hspares
    | workerWake j hp => rw [hp] at hspares; cases hspares
    | _ => exact Or.inl ⟨by simp, rfl⟩

/-- The dispatcher goes on looking for a worker until it finds one. -/
theorem Step.scans {b : Thread Tid × Micro Tid} (hs : Step cfg s b s') (hscan : s.Scans) :
    s'.dispatcher = .write ∨ s'.Scans ∧ (b.1 = .dispatcher → s.candidate.poolFlag ≠ 0) := by
  obtain ⟨first, start, hp⟩ := hscan
  cases hs with
  | producer hs =>
    cases hs with
    | wake _ => exact Or.inr ⟨⟨first, start, by simp only [hp]; rfl⟩, by simp⟩
    | _ => exact Or.inr ⟨⟨first, start, hp⟩, by simp⟩
  | worker hi hw => exact Or.inr ⟨⟨first, start, hp⟩, by simp⟩
  | dispatcher hs =>
    cases hs with
    | claim _ _ _ _ => exact Or.inl rfl
    | next _ first' start' _ hpool => exact Or.inr ⟨⟨first', start', rfl⟩, fun _ => hpool⟩
    | inside op b q hp' => rw [hp] at hp'; cases hp'
    | wait g g' hp' _ => cases hp.symm.trans hp'
    | answer k b q hp' _ _ => cases hp.symm.trans hp'
    | take t v q hp' _ _ => cases hp.symm.trans hp'
    | write left hp' => cases hp.symm.trans hp'
    | _ hp' => cases hp.symm.trans hp'
  | destructor hs =>
    cases hs with
    | wake _ => exact Or.inr ⟨⟨first, start, by simp only [hp]; rfl⟩, by simp⟩
    | _ => exact Or.inr ⟨⟨first, start, hp⟩, by simp⟩

/-! ### What happens in the end -/

namespace Fair

variable {z : ℕ → State Tid × Log Tid} {a : ℕ → Option (Thread Tid × Micro Tid)}

theorem reachable (h : Fair cfg z a) (j : ℕ) : (logged Tid cfg).Reachable (z j) :=
  h.execution.reachable j

theorem stays (h : Fair cfg z a) {I P : State Tid × Log Tid → Prop} {k : ℕ} (hI : ∀ j ≥ k, I (z j))
    (hP : P (z k))
    (hstep : ∀ s l b s', (logged Tid cfg).Reachable (s, l) → I (s, l) →
      I (s', l.note s b) → P (s, l) →
      Step cfg s b s' → P (s', l.note s b)) : ∀ j ≥ k, P (z j) := by
  refine h.execution.stays (I := fun q => (logged Tid cfg).Reachable q ∧ I q)
    (fun j hj => ⟨h.reachable j, hI j hj⟩) hP ?_
  rintro ⟨s, l⟩ b ⟨s', l'⟩ ⟨hr, hIs⟩ ⟨-, hIs'⟩ hPs ⟨⟨-, hs⟩, rfl⟩
  exact hstep s l b s' hr hIs hIs' hPs (step_cases hs)

/-- **Progress.** Until `Q` is reached, thread `θ` can take a step, and lowers the rank by
it; the others do not raise it. -/
theorem progress (h : Fair cfg z a) (θ : Thread Tid) {I P Q : State Tid × Log Tid → Prop}
    (r : State Tid × Log Tid → ℕ) {k : ℕ} (hI : ∀ j ≥ k, I (z j)) (hP : P (z k))
    (hstep : ∀ s l b s', (logged Tid cfg).Reachable (s, l) → I (s, l) →
      I (s', l.note s b) → P (s, l) →
      Step cfg s b s' → Q (s', l.note s b) ∨ P (s', l.note s b) ∧
        r (s', l.note s b) ≤ r (s, l) ∧ (b.1 = θ → r (s', l.note s b) < r (s, l)))
    (hen : ∀ s l, (logged Tid cfg).Reachable (s, l) → I (s, l) → P (s, l) →
      ∃ m s', step cfg s (θ, m) = some s' ∧ Obliged θ (θ, m)) : ∃ j ≥ k, Q (z j) := by
  refine h.execution.eventually (h.obliged θ) (I := fun q => (logged Tid cfg).Reachable q ∧ I q) r
    (fun j hj => ⟨h.reachable j, hI j hj⟩) hP ?_ ?_
  · rintro ⟨s, l⟩ b ⟨s', l'⟩ ⟨hr, hIs⟩ ⟨-, hIs'⟩ hPs ⟨⟨-, hs⟩, rfl⟩
    exact (hstep s l b s' hr hIs hIs' hPs (step_cases hs)).imp id fun hkeep =>
      ⟨hkeep.1, hkeep.2.1, fun hob => hkeep.2.2 hob.1⟩
  · rintro ⟨s, l⟩ ⟨hr, hIs⟩ hPs
    obtain ⟨m, s', hs, hob⟩ := hen s l hr hIs hPs
    exact enabled_of_step hs hob

/-- **The queue takes part in a fair execution of the ring.** -/
theorem queue (h : Fair cfg z a) : Ring.Fair taskQueueConfig (fun j => (z j).1.queue)
    fun j => (a j).bind (queueLabel (z j).1) := by
  constructor
  · refine h.execution.project (fun q => q.1.queue) (fun q => queueLabel q.1) ?_ ?_ ?_
    · rintro ⟨s, l⟩ ⟨⟨data, array, rfl⟩, -⟩
      exact ⟨data, array, rfl⟩
    · rintro ⟨s, l⟩ b ⟨s', l'⟩ c ⟨⟨-, hs⟩, -⟩ hc
      have hq := step_queue hs
      rw [show queueLabel s b = some c from hc] at hq
      exact hq
    · rintro ⟨s, l⟩ b ⟨s', l'⟩ ⟨⟨-, hs⟩, -⟩ hc
      have hq := step_queue hs
      rw [show queueLabel s b = none from hc] at hq
      exact hq
  · intro θ k hk
    have hen : ∀ j ≥ k, Agree (z j).1 ∧ ∃ b q, queueStep (z j).1 θ b = some q ∧
        ∀ c, b ≠ .call c := by
      intro j hj
      obtain ⟨⟨θ', b⟩, q, ⟨rfl, hcall⟩, hq⟩ := hk j hj
      exact ⟨Agree.reachable (h.reachable j).of_log.of_restrict, b, q, hq, hcall⟩
    have hpc : ∀ j ≥ k, (z j).1.queue.pc θ ≠ .idle := by
      intro j hj
      obtain ⟨-, b, q, hq, hcall⟩ := hen j hj
      obtain ⟨m, pc, hx, -⟩ := queueStep_eq_some.1 hq
      exact hx.ne_idle hcall
    cases θ with
    | producer p =>
      obtain ⟨j, hj, ⟨θ, m⟩, hb, rfl, -⟩ := h.obliged (.producer p) k fun j hj => by
        obtain ⟨ha, b, q, hq, hcall⟩ := hen j hj
        obtain ⟨m, s', hs, hob⟩ := exists_producer_step ha hq hcall
        exact enabled_of_step hs hob
      obtain ⟨⟨-, hs⟩, -⟩ := h.execution.step j _ hb
      have hp : (z j).1.producer p = .enqueue := by
        by_contra hne
        exact hpc j hj ((hen j hj).1.idle_of_ne_enqueue hne)
      refine ⟨j, hj, ?_⟩
      show ∃ c, (a j).bind (queueLabel (z j).1) = some c ∧ Ring.Inside (.producer p) c
      rw [hb]
      rcases micro_of_enqueue (producerStep_cases hs) hp with rfl | ⟨b, rfl, hcall⟩
      · exact ⟨_, rfl, rfl, by simp⟩
      · exact ⟨_, rfl, rfl, hcall⟩
    | dispatcher =>
      obtain ⟨j, hj, ⟨θ, m⟩, hb, rfl, -⟩ := h.obliged .dispatcher k fun j hj => by
        obtain ⟨ha, b, q, hq, hcall⟩ := hen j hj
        obtain ⟨m, s', hs, hob⟩ := exists_dispatcher_step ha hq hcall
        exact enabled_of_step hs hob
      obtain ⟨⟨-, hs⟩, -⟩ := h.execution.step j _ hb
      obtain ⟨op, hop⟩ : ∃ op, (z j).1.dispatcher.op = some op := by
        rw [← (hen j hj).1.dispatcher.resolve_left (hpc j hj)]
        exact Option.ne_none_iff_exists'.1 fun hnone => hpc j hj (Ring.Pc.op_eq_none.1 hnone)
      refine ⟨j, hj, ?_⟩
      show ∃ c, (a j).bind (queueLabel (z j).1) = some c ∧ Ring.Inside .dispatcher c
      rw [hb]
      rcases micro_of_op hs hop with rfl | rfl | ⟨b, rfl, hcall⟩
      · -- a second call is not possible
        have hq : queueStep (z j).1 .dispatcher (.call _) = some _ := step_queue hs
        obtain ⟨m, pc, hx, -⟩ := queueStep_eq_some.1 hq
        exact absurd hx.call_inv.1 (hpc j hj)
      · exact ⟨_, rfl, rfl, by simp⟩
      · exact ⟨_, rfl, rfl, hcall⟩

/-! ### Calls of member functions of the queue -/

/-- The dispatcher never claims a read ticket before the write ticket, so it does not
wait for long. -/
theorem dispatcher_returns (h : Fair cfg z a) (k : ℕ) :
    ∃ j ≥ k, (z j).1.queue.pc .dispatcher = .idle := by
  by_contra hnever
  obtain ⟨m, -, htest, hconst⟩ := h.queue.stuck_at_test (θ := .dispatcher) (k := k)
    fun j hj hidle => hnever ⟨j, hj, hidle⟩
  have hr := (h.reachable m).of_log.of_restrict
  rcases htest with ⟨kind, v, t, hp⟩ | ⟨d, t, hp⟩
  · rcases (Agree.reachable hr).dispatcher_op (by rw [hp]; rfl) with hop | hop <;> cases hop
  · have hlt : t < (z m).1.queue.mem.writeTicket := by
      have hknows := (Counters.reachable hr).knows
      rw [hp] at hknows
      exact hknows
    exact absurd (h.queue.writeTicket_le_of_stuck (fun j hj => (hconst j hj).trans hp) m)
      (not_le.2 hlt)

/-- An `enqueue` returns, if the queue is not full forever. -/
theorem enqueue_returns (h : Fair cfg z a) {p : Tid} {k : ℕ} (hp : (z k).1.producer p = .enqueue)
    (hroom : ∀ j ≥ k, (z j).1.producer p = .enqueue →
      ∀ t v, ((z j).1.queue.pc (.producer p)).writing = some (t, v) →
      ∃ i, t < (z i).1.queue.mem.readTicket + 1024) : ∃ j ≥ k, (z j).1.producer p = .store := by
  by_contra hnever
  have hkeep : ∀ j ≥ k, (z j).1.producer p = .enqueue := by
    refine h.stays (I := fun q => q.1.producer p ≠ .store) (P := fun q => q.1.producer p = .enqueue)
      (fun j hj hstore => hnever ⟨j, hj, hstore⟩) hp ?_
    intro s l b s' _ _ hI hP hs
    exact (Step.producer_enqueue hs hP).resolve_right hI
  have hop : ∀ j ≥ k, ((z j).1.queue.pc (.producer p)).op = some .enqueue := by
    intro j hj
    rw [(Agree.reachable (h.reachable j).of_log.of_restrict).producer p, if_pos (hkeep j hj)]
  obtain ⟨m, hm, htest, hconst⟩ := h.queue.stuck_at_test (θ := .producer p) (k := k)
    fun j hj hidle => by
    have := hop j hj
    rw [hidle] at this
    cases this
  rcases htest with ⟨kind, v, t, hpc⟩ | ⟨d, t, hpc⟩
  · obtain ⟨i, hi⟩ := hroom m hm (hkeep m hm) t v (by rw [hpc]; rfl)
    exact absurd (h.queue.readTicket_le_of_stuck (fun j hj => (hconst j hj).trans hpc) i)
      (not_le.2 hi)
  · have := hop m hm
    rw [hpc] at this
    cases d <;> cases this

/-- After its `seq` store an enqueue returns. -/
theorem returns (h : Fair cfg z a) {p : Tid} {k : ℕ}
    (hp : (z k).1.queue.pc (.producer p) = .enqReturn) : ∃ j ≥ k, (z j).1.producer p = .store := by
  have henq : ∀ {s : State Tid}, Agree s → s.queue.pc (.producer p) = .enqReturn →
      s.producer p = .enqueue := by
    intro s ha hpc
    by_contra hne
    rw [ha.idle_of_ne_enqueue hne] at hpc
    cases hpc
  refine h.progress (.producer p) (I := fun _ => True)
    (P := fun q => q.1.queue.pc (.producer p) = .enqReturn) (Q := fun q => q.1.producer p = .store)
    (fun _ => 0) (fun _ _ => trivial) hp ?_ ?_
  · intro s l b s' hr _ _ hP hs
    have hen := henq (Agree.reachable hr.of_log.of_restrict) hP
    rcases hs.of_producer p with ⟨-, m, hs⟩ | ⟨hne, -, hpc, -⟩
    · left
      cases hs with
      | assignTask empty q hp' => cases hen.symm.trans hp'
      | inside b q _ hcall hret hq =>
        obtain ⟨m, pc, hx, -⟩ := queueStep_eq_some.1 hq
        rw [show s.queue.pc (.producer p) = .enqReturn from hP] at hx
        cases hx
        exact absurd rfl hret
      | ret q _ hq => exact Function.update_self _ _ _
      | store hp' => cases hen.symm.trans hp'
      | wake hp' => cases hen.symm.trans hp'
    · exact Or.inr ⟨hpc.trans hP, le_rfl, fun hb => absurd hb hne⟩
  · intro s l hr _ hP
    have ha : Agree s := Agree.reachable hr.of_log.of_restrict
    have hret : queueStep s (.producer p) .ret =
        some (s.queue.put (.producer p) s.queue.mem .idle) := by
      refine queueStep_eq_some.2 ⟨_, _, ?_, rfl⟩
      rw [show s.queue.pc (.producer p) = .enqReturn from hP]
      exact .enqRet
    exact exists_producer_step ha hret (by simp)

/-- After its `enqueue` a producer opens the gate of the dispatcher. -/
theorem signals (h : Fair cfg z a) {p : Tid} {k : ℕ} (hp : (z k).1.producer p = .store) :
    ∃ j ≥ k, (z j).1.taskFlag = 1 := by
  refine h.progress (.producer p) (I := fun _ => True) (P := fun q => q.1.producer p = .store)
    (Q := fun q => q.1.taskFlag = 1) (fun _ => 0) (fun _ _ => trivial) hp ?_ ?_
  · intro s l b s' _ _ _ hP hs
    rcases hs.of_producer p with ⟨-, m, hs⟩ | ⟨hne, hsame, -⟩
    · left
      cases hs with
      | store _ => rfl
      | assignTask empty q hp' => cases hP.symm.trans hp'
      | inside b q hp' => cases hP.symm.trans hp'
      | ret q hp' => cases hP.symm.trans hp'
      | wake hp' => cases hP.symm.trans hp'
    · exact Or.inr ⟨hsame.trans hP, le_rfl, fun hb => absurd hb hne⟩
  · intro s l _ _ hP
    have hP : s.producer p = .store := hP
    exact ⟨.go, _, by simp [step, producerStep, hP]; rfl, by simp [Obliged]⟩

/-! ### The search for a worker -/

/-- While the dispatcher looks for a worker, each of them becomes available and stays so. -/
theorem freed (h : Fair cfg z a) {i k : ℕ} (hi : i < cfg.THREAD_COUNT)
    (hscan : ∀ j ≥ k, (z j).1.Scans) : ∃ m ≥ k, ∀ j ≥ m, ((z j).1.workers i).poolFlag = 0 := by
  have hphase : ∀ {s : State Tid} {l : Log Tid}, (logged Tid cfg).Reachable (s, l) → s.Scans →
      (s.workers i).running = true ∧ Phase .away (s.workers i) := by
    intro s l hr hs
    have hspares : s.destructor.spares = true := by
      obtain ⟨first, start, hp⟩ := hs
      exact spares_of_ne_exited hr.of_log.of_restrict (by rw [hp]; simp)
    have hrun := workers_running hr.of_log.of_restrict hspares i
    exact ⟨hrun, hs.away i ▸ (HandOff.reachable hr.of_log).phase i hrun⟩
  obtain ⟨m, hm, hfree⟩ : ∃ m ≥ k, ((z m).1.workers i).poolFlag = 0 := by
    by_contra hbusy
    refine hbusy (h.progress (.worker i) (I := fun q => q.1.Scans)
      (P := fun q => (q.1.workers i).poolFlag ≠ 0) (Q := fun q => (q.1.workers i).poolFlag = 0)
      (fun q => (q.1.workers i).pc.remaining 10) hscan (fun hz => hbusy ⟨k, le_rfl, hz⟩) ?_ ?_)
    · intro s l b s' hr hd hd' hpool hs
      rcases hs.workers_of_scan hr.of_log.of_restrict hd hd' i with ⟨hb, heq⟩ | ⟨-, hw⟩
      · right
        simp only [heq]
        exact ⟨hpool, le_rfl, fun hb' => absurd hb' hb⟩
      · rw [or_iff_not_imp_left]
        intro hpool'
        obtain ⟨hrun, hph⟩ := hphase hr hd
        have hlt := (hw.remaining_lt hph hrun hpool).resolve_left hpool'
        exact ⟨hpool', hlt.le, fun _ => hlt⟩
    · intro s l hr hd hpool
      obtain ⟨-, hph⟩ := hphase hr hd
      obtain ⟨hexit, hawake, hopen⟩ := hph.of_busy hpool
      exact exists_worker_step hi hexit hawake fun hp => (hopen (by rw [hp]; rfl)).2
  refine ⟨m, hm, h.stays (I := fun q => q.1.Scans) (P := fun q => (q.1.workers i).poolFlag = 0)
    (fun j hj => hscan j (by omega)) hfree ?_⟩
  intro s l b s' hr hd hd' hP hs
  rcases hs.workers_of_scan hr.of_log.of_restrict hd hd' i with ⟨-, heq⟩ | ⟨-, hw⟩
  · simp only [heq]
    exact hP
  · exact hw.poolFlag.elim (fun heq => heq.trans hP) id

/-- **The search for a worker ends.** -/
theorem scan_ends (h : Fair cfg z a) {k : ℕ} (hk : (z k).1.Scans) :
    ∃ j ≥ k, (z j).1.dispatcher = .write := by
  by_contra hnever
  have hscan : ∀ j ≥ k, (z j).1.Scans :=
    h.stays (I := fun q => q.1.dispatcher ≠ .write) (P := fun q => q.1.Scans)
      (fun j hj hw => hnever ⟨j, hj, hw⟩) hk
      fun s l b s' _ _ hne hP hs => ((hs.scans hP).resolve_left hne).1
  -- all workers are available from some time on
  obtain ⟨m, hm⟩ : ∃ m, ∀ j ≥ m, ∀ i ∈ Finset.range cfg.THREAD_COUNT,
      ((z j).1.workers i).poolFlag = 0 := by
    rw [← Filter.eventually_atTop, Filter.eventually_all_finset]
    intro i hi
    obtain ⟨m, -, hfree⟩ := h.freed (Finset.mem_range.1 hi) hscan
    exact Filter.eventually_atTop.2 ⟨m, hfree⟩
  have hfound : ∃ j ≥ max k m, (z j).1.dispatcher = .write := by
    refine h.progress .dispatcher (I := fun q => q.1.candidate.poolFlag = 0)
      (P := fun q => q.1.Scans) (Q := fun q => q.1.dispatcher = .write) (fun _ => 0)
      (fun j hj => hm j (by omega) _ ?_) (hscan _ (le_max_left k m)) ?_ ?_
    · exact Finset.mem_range.2 (lastIdDispatched_lt (h.reachable j).of_log.of_restrict)
    · intro s l b s' _ hfree _ hd hs
      exact (hs.scans hd).imp id fun hkeep => ⟨hkeep.1, le_rfl, fun hb => absurd hfree (hkeep.2 hb)⟩
    · rintro s l _ hfree ⟨first, start, hp⟩
      have hp : s.dispatcher = .scan first start := hp
      have hfree : s.candidate.poolFlag = 0 := hfree
      exact ⟨.go, _, by simp [step, dispatcherStep, hp, hfree]; rfl, by simp [Obliged]⟩
  obtain ⟨j, hj, hw⟩ := hfound
  exact hnever ⟨j, by omega, hw⟩

end Fair

end Fairness

end AstraLib.ThreadPool
