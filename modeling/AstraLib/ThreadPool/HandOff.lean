import AstraLib.ThreadPool.Log

/-!
# `ThreadPool`: from the dispatcher to a worker

The dispatcher claims a worker with a compare-and-exchange on `poolFlag`, writes the task slot and
opens the gate; the worker runs the task, empties the slot, closes the gate and resets `poolFlag`.
`Phase` lists the combinations of the two flags, the slot and the two program counters that occur,
and `WorkerStep.phase` says that the worker goes from one of them to another.  `Handed` follows the
tasks that were handed over until they are started.

All of this is for functions that are not empty (`NonEmpty`): a worker goes back to its gate with an
empty function in its slot, without ever resetting `poolFlag`.
-/

namespace AstraLib.ThreadPool

open Interleaving

variable {Tid : Type}

/-! ### The phases of a worker -/

/-- How far the dispatcher is with a worker. -/
inductive Grip
  | away
  | write
  | store
  | wake
  deriving DecidableEq

/-- How far the dispatcher is with the worker that it has claimed. -/
def Dispatcher.grip : Dispatcher → Grip
  | .write => .write
  | .store => .store
  | .wake => .wake
  | _ => .away

/-- How far the dispatcher is with worker `i`. -/
def State.grip (s : State Tid) (i : ℕ) : Grip :=
  if s.lastIdDispatched = i then s.dispatcher.grip else .away

/-- Outside the section from leaving `waiter()` to `poolFlag.store(0)`. -/
def Loop.outside : Loop Tid → Bool
  | .loopTest | .waiter _ => true
  | _ => false

/-- The task in the slot has not been started yet. -/
def Loop.awaits : Loop Tid → Bool
  | .loopTest | .waiter _ | .test | .call => true
  | _ => false

theorem Loop.awaits_of_outside {p : Loop Tid} (h : p.outside = true) : p.awaits = true := by
  cases p <;> first | rfl | cases h

theorem Loop.woken_outside (p : Loop Tid) : p.woken.outside = p.outside := by
  cases p <;> rfl

theorem Loop.woken_awaits (p : Loop Tid) : p.woken.awaits = p.awaits := by
  cases p <;> rfl

theorem Loop.eq_of_woken_eq {p p' : Loop Tid} (h : p.woken = p')
    (hp : ∀ g, p' ≠ .waiter g) : p = p' := by
  cases p with
  | waiter g => exact absurd h.symm (hp _)
  | _ => exact h

theorem Loop.woken_ne_asleep (p : Loop Tid) : p.woken ≠ .waiter .asleep := by
  cases p with
  | waiter g => exact fun h => g.woken_ne_asleep (Loop.waiter.inj h)
  | _ => simp [Loop.woken]

/-- The combinations of flags, slot and program counters that occur, for a worker that is not being
destroyed. -/
inductive Phase (g : Grip) (w : Worker Tid) : Prop
  | free (hg : g = .away ∨ g = .wake) (hpool : w.poolFlag = 0) (hflag : w.flag = 0)
      (htask : w.task = none) (hpc : w.pc.outside = true)
  | claimed (hg : g = .write) (hpool : w.poolFlag = 1) (hflag : w.flag = 0) (htask : w.task = none)
      (hpc : w.pc.outside = true)
  | filled (x : Task Tid) (hg : g = .store) (hpool : w.poolFlag = 1) (hflag : w.flag = 0)
      (htask : w.task = some x) (hpc : w.pc.outside = true)
  | signalled (x : Task Tid) (hg : g = .away ∨ g = .wake) (hpool : w.poolFlag = 1)
    (hflag : w.flag = 1)
      (htask : w.task = some x) (hpc : w.pc.awaits = true)
      (hasleep : w.pc = .waiter .asleep → g = .wake)
  | executing (x : Task Tid) (hg : g = .away ∨ g = .wake) (hpool : w.poolFlag = 1)
    (hflag : w.flag = 1)
      (htask : w.task = some x) (hpc : w.pc = .executing x ∨ w.pc = .clear)
  | cleared (hg : g = .away ∨ g = .wake) (hpool : w.poolFlag = 1) (hflag : w.flag = 1)
      (htask : w.task = none) (hpc : w.pc = .reset)
  | closed (hg : g = .away ∨ g = .wake) (hpool : w.poolFlag = 1) (hflag : w.flag = 0)
      (htask : w.task = none) (hpc : w.pc = .release)

theorem Phase.of_poolFlag_eq_zero {g : Grip} {w : Worker Tid} (h : Phase g w)
    (hpool : w.poolFlag = 0) : w.flag = 0 ∧ w.task = none ∧ w.pc.outside = true := by
  cases h with
  | free _ _ hflag htask hpc => exact ⟨hflag, htask, hpc⟩
  | _ => simp_all

theorem Phase.of_write {w : Worker Tid} (h : Phase .write w) :
    w.poolFlag = 1 ∧ w.task = none ∧ w.pc.outside = true := by
  cases h with
  | claimed _ hpool _ htask hpc => exact ⟨hpool, htask, hpc⟩
  | _ => simp_all

/-- **The worker goes from phase to phase.** -/
theorem WorkerStep.phase {g : Grip} {w w' : Worker Tid} (hs : WorkerStep w w') (h : Phase g w)
    (hr : w.running = true) : Phase g w' := by
  cases hs with
  | enter hp _ =>
    cases h with
    | free hg hpool hflag htask _ => exact .free hg hpool hflag htask rfl
    | claimed hg hpool hflag htask _ => exact .claimed hg hpool hflag htask rfl
    | filled x hg hpool hflag htask _ => exact .filled x hg hpool hflag htask rfl
    | signalled x hg hpool hflag htask _ _ => exact .signalled x hg hpool hflag htask rfl (by simp)
    | executing x hg hpool hflag htask hpc => simp [hp] at hpc
    | cleared hg hpool hflag htask hpc => simp [hp] at hpc
    | closed hg hpool hflag htask hpc => simp [hp] at hpc
  | exit hp hr' => rw [hr] at hr'; cases hr'
  | wait gt gt' hp hw =>
    cases h with
    | free hg hpool hflag htask _ => exact .free hg hpool hflag htask rfl
    | claimed hg hpool hflag htask _ => exact .claimed hg hpool hflag htask rfl
    | filled x hg hpool hflag htask _ => exact .filled x hg hpool hflag htask rfl
    | signalled x hg hpool hflag htask _ _ =>
      refine .signalled x hg hpool hflag htask rfl fun hasleep => ?_
      -- nobody falls asleep while the flag is up
      cases hw with
      | sleep hz => rw [hflag] at hz; cases hz
      | _ => cases hasleep
    | executing x hg hpool hflag htask hpc => simp [hp] at hpc
    | cleared hg hpool hflag htask hpc => simp [hp] at hpc
    | closed hg hpool hflag htask hpc => simp [hp] at hpc
  | pass hp hf =>
    cases h with
    | signalled x hg hpool hflag htask _ _ => exact .signalled x hg hpool hflag htask rfl (by simp)
    | free hg hpool hflag htask hpc => rw [hf] at hflag; cases hflag
    | claimed hg hpool hflag htask hpc => rw [hf] at hflag; cases hflag
    | filled x hg hpool hflag htask hpc => rw [hf] at hflag; cases hflag
    | _ => simp_all
  | accept t hp ht =>
    cases h with
    | signalled x hg hpool hflag htask _ _ => exact .signalled x hg hpool hflag htask rfl (by simp)
    | _ => simp_all [Loop.outside]
  | skip hp ht =>
    cases h <;> simp_all [Loop.outside]
  | start t hp ht =>
    cases h with
    | signalled x hg hpool hflag htask _ _ =>
      obtain rfl : t = x := Option.some.inj (ht.symm.trans htask)
      exact .executing t hg hpool hflag htask (Or.inl rfl)
    | _ => simp_all [Loop.outside]
  | finish t hp =>
    cases h with
    | executing x hg hpool hflag htask _ => exact .executing x hg hpool hflag htask (Or.inr rfl)
    | _ => simp_all [Loop.outside, Loop.awaits]
  | clear hp =>
    cases h with
    | executing x hg hpool hflag htask _ => exact .cleared hg hpool hflag rfl rfl
    | _ => simp_all [Loop.outside, Loop.awaits]
  | reset hp =>
    cases h with
    | cleared hg hpool hflag htask _ => exact .closed hg hpool rfl htask rfl
    | _ => simp_all [Loop.outside, Loop.awaits]
  | release hp =>
    cases h with
    | closed hg hpool hflag htask _ => exact .free hg rfl hflag htask rfl
    | _ => simp_all [Loop.outside, Loop.awaits]

/-- The dispatcher claims the worker. -/
theorem Phase.claim {w : Worker Tid} (h : Phase .away w) (hpool : w.poolFlag = 0) :
    Phase .write { w with poolFlag := 1 } := by
  cases h with
  | free hg _ hflag htask hpc => exact .claimed rfl rfl hflag htask hpc
  | _ => simp_all

/-- The dispatcher fills the slot. -/
theorem Phase.write {w : Worker Tid} (h : Phase .write w) {f : Fn Tid} (hf : f ≠ none) :
    Phase .store { w with task := f } := by
  obtain ⟨x, rfl⟩ := Option.ne_none_iff_exists'.1 hf
  cases h with
  | claimed hg hpool hflag htask hpc => exact .filled x rfl hpool hflag rfl hpc
  | _ => simp_all

/-- The dispatcher opens the gate. -/
theorem Phase.store {w : Worker Tid} (h : Phase .store w) : Phase .wake { w with flag := 1 } := by
  cases h with
  | filled x hg hpool hflag htask hpc =>
    exact .signalled x (Or.inr rfl) hpool rfl htask (Loop.awaits_of_outside hpc) fun _ => rfl
  | _ => simp_all

/-- The dispatcher wakes the worker. It may have been through the whole task by then. -/
theorem Phase.wake {w : Worker Tid} (h : Phase .wake w) :
    Phase .away { w with pc := w.pc.woken } := by
  cases h with
  | free hg hpool hflag htask hpc =>
    exact .free (Or.inl rfl) hpool hflag htask (by rw [Loop.woken_outside]; exact hpc)
  | signalled x hg hpool hflag htask hpc _ =>
    exact .signalled x (Or.inl rfl) hpool hflag htask (by rw [Loop.woken_awaits]; exact hpc)
      fun hasleep => absurd hasleep (Loop.woken_ne_asleep _)
  | executing x hg hpool hflag htask hpc =>
    exact .executing x (Or.inl rfl) hpool hflag htask (hpc.imp (by rw [·]; rfl) (by rw [·]; rfl))
  | cleared hg hpool hflag htask hpc =>
    exact .cleared (Or.inl rfl) hpool hflag htask (by rw [hpc]; rfl)
  | closed hg hpool hflag htask hpc =>
    exact .closed (Or.inl rfl) hpool hflag htask (by rw [hpc]; rfl)
  | claimed hg => cases hg
  | filled x hg => cases hg

/-- The worker that `~ThreadPool` is destroying, once its `running` is `false`. -/
def Destructor.destroys : Destructor → Option ℕ
  | .workerStore i | .workerWake i | .workerJoin i => some i
  | _ => none

/-- The hand-off invariant. -/
structure HandOff (cfg : Config) (s : State Tid) : Prop where
  id_lt : s.lastIdDispatched < cfg.THREAD_COUNT
  phase : ∀ i, (s.workers i).running = true → Phase (s.grip i) (s.workers i)
  destroyed : ∀ i, s.destructor.destroys = some i → (s.workers i).running = false

theorem WorkerStep.running_eq {w w' : Worker Tid} (h : WorkerStep w w') :
    w'.running = w.running := by
  cases h <;> rfl

theorem Dispatcher.woken_grip (d : Dispatcher) : d.woken.grip = d.grip := by
  cases d <;> rfl

theorem State.grip_eq_away {s : State Tid} (h : s.dispatcher.grip = .away) (i : ℕ) :
    s.grip i = .away := by
  unfold State.grip
  rw [h, ite_self]

theorem State.grip_congr {s s' : State Tid} (hid : s'.lastIdDispatched = s.lastIdDispatched)
    (hd : s'.dispatcher.grip = s.dispatcher.grip) (i : ℕ) : s'.grip i = s.grip i := by
  unfold State.grip
  rw [hid, hd]

theorem State.grip_self (s : State Tid) : s.grip s.lastIdDispatched = s.dispatcher.grip :=
  if_pos rfl

theorem State.grip_of_ne {s : State Tid} {i : ℕ} (h : i ≠ s.lastIdDispatched) : s.grip i = .away :=
  if_neg (Ne.symm h)

theorem State.grip_eq_iff {s : State Tid} {i : ℕ} {g : Grip} (hg : g ≠ .away) :
    s.grip i = g ↔ s.lastIdDispatched = i ∧ s.dispatcher.grip = g := by
  unfold State.grip
  split_ifs with hid
  · simp [hid]
  · simp [hid, hg.symm]

theorem State.grip_eq_write {s : State Tid} {i : ℕ} :
    s.grip i = .write ↔ s.lastIdDispatched = i ∧ s.dispatcher = .write := by
  rw [State.grip_eq_iff (by simp)]
  cases s.dispatcher <;> simp [Dispatcher.grip]

theorem State.grip_eq_store {s : State Tid} {i : ℕ} :
    s.grip i = .store ↔ s.lastIdDispatched = i ∧ s.dispatcher = .store := by
  rw [State.grip_eq_iff (by simp)]
  cases s.dispatcher <;> simp [Dispatcher.grip]

theorem State.grip_eq_wake {s : State Tid} {i : ℕ} :
    s.grip i = .wake ↔ s.lastIdDispatched = i ∧ s.dispatcher = .wake := by
  rw [State.grip_eq_iff (by simp)]
  cases s.dispatcher <;> simp [Dispatcher.grip]

theorem nextId_lt (cfg : Config) (s : State Tid) : nextId cfg s < cfg.THREAD_COUNT :=
  Nat.mod_lt _ cfg.pos

section Dispatch

variable [DecidableEq Tid] {cfg : Config} {s s' : State Tid}

theorem DispatcherStep.id_lt (hs : DispatcherStep cfg s s')
    (h : s.lastIdDispatched < cfg.THREAD_COUNT) : s'.lastIdDispatched < cfg.THREAD_COUNT := by
  cases hs with
  | next => exact nextId_lt cfg s
  | wake => exact nextId_lt cfg s
  | _ => exact h

/-- The dispatcher does not stop anybody. -/
theorem DispatcherStep.running (hs : DispatcherStep cfg s s') :
    s'.destructor = s.destructor ∧ ∀ i, (s'.workers i).running = (s.workers i).running := by
  have hput : ∀ w, w.running = s.candidate.running →
      ∀ i, (Function.update s.workers s.lastIdDispatched w i).running = (s.workers i).running := by
    intro w hw
    apply (Function.forall_update_iff s.workers fun i w => w.running = (s.workers i).running).2
    exact ⟨hw, fun _ _ => rfl⟩
  cases hs with
  | claim => exact ⟨rfl, hput _ rfl⟩
  | write => exact ⟨rfl, hput _ rfl⟩
  | store => exact ⟨rfl, hput _ rfl⟩
  | wake => exact ⟨rfl, hput _ rfl⟩
  | _ => exact ⟨rfl, fun _ => rfl⟩

/-- **The dispatcher takes the worker from phase to phase.** -/
theorem Phase.dispatch {i : ℕ} (h : Phase (s.grip i) (s.workers i))
    (hc : s.dispatcher = .write → s.lastIdDispatched = i → s.task ≠ none)
    (hs : DispatcherStep cfg s s') : Phase (s'.grip i) (s'.workers i) := by
  -- outside `activateWorker` the dispatcher is away from all workers
  have haway : s.dispatcher.grip = .away → s'.dispatcher.grip = .away → s'.workers = s.workers →
      Phase (s'.grip i) (s'.workers i) := by
    intro h1 h2 hw
    rw [State.grip_eq_away h2, hw, ← State.grip_eq_away h1 i]
    exact h
  -- inside it is concerned with one of them
  have hgrasp : ∀ {w g}, s'.workers = Function.update s.workers s.lastIdDispatched w →
      s'.grip s.lastIdDispatched = g → (∀ j, j ≠ s.lastIdDispatched → s'.grip j = .away) →
      (s.lastIdDispatched = i → Phase s.dispatcher.grip s.candidate → Phase g w) →
      Phase (s'.grip i) (s'.workers i) := by
    intro w g hw hself hothers hphase
    by_cases hi : i = s.lastIdDispatched
    · subst hi
      rw [hw, Function.update_self, hself]
      exact hphase rfl (s.grip_self ▸ h)
    · rw [hw, Function.update_of_ne hi, hothers i hi, ← State.grip_of_ne hi]
      exact h
  cases hs with
  | inside op b q hp hcall hret hq => exact h
  | answer k b q hp hb hq => exact haway (by rw [hp]; rfl) (by cases k <;> cases b <;> rfl) rfl
  | claim first start hp hpool =>
    refine hgrasp rfl (if_pos rfl) (fun j hj => State.grip_of_ne hj) fun _ hphase => ?_
    rw [hp] at hphase
    exact hphase.claim hpool
  | write left hp =>
    refine hgrasp rfl (if_pos rfl) (fun j hj => State.grip_of_ne hj) fun hid hphase => ?_
    rw [hp] at hphase
    exact hphase.write (hc hp hid)
  | store hp =>
    refine hgrasp rfl (if_pos rfl) (fun j hj => State.grip_of_ne hj) fun _ hphase => ?_
    rw [hp] at hphase
    exact hphase.store
  | wake hp =>
    refine hgrasp rfl (State.grip_eq_away rfl _) (fun j hj => State.grip_eq_away rfl j)
      fun _ hphase => ?_
    rw [hp] at hphase
    exact hphase.wake
  | wait g g' hp hw => exact haway (by rw [hp]; rfl) rfl rfl
  | take t v q hp hv hq => exact haway (by rw [hp]; rfl) rfl rfl
  | next first first' start hp hf => exact haway (by rw [hp]; rfl) rfl rfl
  | _ hp => exact haway (by rw [hp]; rfl) rfl rfl

end Dispatch

namespace HandOff

variable {cfg : Config} {s s' : State Tid}

theorem frame (h : HandOff cfg s) (hid : s'.lastIdDispatched < cfg.THREAD_COUNT)
    (hw : s'.workers = s.workers) (hg : ∀ i, s'.grip i = s.grip i)
    (hd : ∀ i, s'.destructor.destroys = some i → s.destructor.destroys = some i) :
    HandOff cfg s' := by
  refine ⟨hid, fun i hr => ?_, fun i hi => ?_⟩
  · rw [hw] at hr ⊢
    rw [hg]
    exact h.phase i hr
  · rw [hw]
    exact h.destroyed i (hd i hi)

/-- A step that changes one worker. -/
theorem put (h : HandOff cfg s) {i : ℕ} {w : Worker Tid}
    (hid : s'.lastIdDispatched < cfg.THREAD_COUNT) (hw : s'.workers = Function.update s.workers i w)
    (hg : ∀ j, j ≠ i → s'.grip j = s.grip j) (hphase : w.running = true → Phase (s'.grip i) w)
    (hi : (s.workers i).running = false → w.running = false)
    (hd : ∀ j, s'.destructor.destroys = some j → s.destructor.destroys = some j ∨ j = i ∧
      w.running = false) :
    HandOff cfg s' := by
  refine ⟨hid, fun j hr => ?_, fun j hj => ?_⟩
  · rw [hw] at hr ⊢
    by_cases hji : j = i
    · subst hji
      rw [Function.update_self] at hr ⊢
      exact hphase hr
    · rw [Function.update_of_ne hji] at hr ⊢
      rw [hg j hji]
      exact h.phase j hr
  · rw [hw]
    by_cases hji : j = i
    · subst hji
      rw [Function.update_self]
      rcases hd j hj with hj' | ⟨-, hr⟩
      · exact hi (h.destroyed j hj')
      · exact hr
    · rw [Function.update_of_ne hji]
      exact h.destroyed j ((hd j hj).resolve_right fun hj' => hji hj'.1)

variable [DecidableEq Tid]

theorem dispatch (h : HandOff cfg s) (hc : s.dispatcher = .write → s.task ≠ none)
    (hs : DispatcherStep cfg s s') : HandOff cfg s' := by
  obtain ⟨hdest, hrun⟩ := hs.running
  refine ⟨hs.id_lt h.id_lt, fun i hr => ?_, fun i hi => ?_⟩
  · exact (h.phase i (hrun i ▸ hr)).dispatch (fun hd _ => hc hd) hs
  · rw [hrun]
    exact h.destroyed i (hdest ▸ hi)

/-- **Every step keeps the hand-off in order.** -/
theorem step (h : HandOff cfg s) (hc : s.dispatcher = .write → s.task ≠ none)
    {a : Thread Tid × Micro Tid} (hs : Step cfg s a s') : HandOff cfg s' := by
  have hwoken : s'.lastIdDispatched = s.lastIdDispatched → s'.dispatcher = s.dispatcher.woken →
      ∀ i, s'.grip i = s.grip i :=
    fun hid hd => State.grip_congr hid (by rw [hd, Dispatcher.woken_grip])
  cases hs with
  | dispatcher hs => exact h.dispatch hc hs
  | @worker i _ w hi hw =>
    exact h.put h.id_lt rfl (fun _ _ => rfl) (fun hr => hw.phase (h.phase i (hw.running_eq ▸ hr))
      (hw.running_eq ▸ hr)) (fun hr => hw.running_eq.trans hr) fun _ => Or.inl
  | producer hs =>
    cases hs with
    | wake hp => exact h.frame h.id_lt rfl (hwoken rfl rfl) fun _ => id
    | _ => exact h.frame h.id_lt rfl (fun _ => rfl) fun _ => id
  | destructor hs =>
    cases hs with
    | destroy hp => exact h.frame h.id_lt rfl (fun _ => rfl) (by simp [Destructor.destroys])
    | setRunning hp => exact h.frame h.id_lt rfl (fun _ => rfl) (by simp [Destructor.destroys])
    | store hp => exact h.frame h.id_lt rfl (fun _ => rfl) (by simp [Destructor.destroys])
    | wake hp => exact h.frame h.id_lt rfl (hwoken rfl rfl) (by simp [Destructor.destroys])
    | join hp hd => exact h.frame h.id_lt rfl (fun _ => rfl) (by simp [Destructor.destroys])
    | workerSet i hp =>
      exact h.put h.id_lt rfl (fun _ _ => rfl) (by simp) (fun _ => rfl)
        fun j hj => Or.inr ⟨(Option.some.inj hj).symm, rfl⟩
    | workerStore i hp =>
      have hr := h.destroyed i (by rw [hp]; rfl)
      exact h.put h.id_lt rfl (fun _ _ => rfl) (fun hr' => by cases hr.symm.trans hr') (fun _ => hr)
        fun j hj => Or.inl (by rw [hp]; exact hj)
    | workerWake i hp =>
      have hr := h.destroyed i (by rw [hp]; rfl)
      exact h.put h.id_lt rfl (fun _ _ => rfl) (fun hr' => by cases hr.symm.trans hr') (fun _ => hr)
        fun j hj => Or.inl (by rw [hp]; exact hj)
    | workerJoin i hp he =>
      refine h.frame h.id_lt rfl (fun _ => rfl) fun j hj => ?_
      split_ifs at hj <;> cases hj

omit [DecidableEq Tid] in
theorem init (data array : ℕ → Payload (Fn Tid) 1) : HandOff cfg (fresh data array) := by
  refine ⟨cfg.pos, fun i _ => ?_, by simp [fresh, Destructor.destroys]⟩
  exact .free (Or.inl (State.grip_eq_away rfl i)) rfl rfl rfl rfl

theorem reachable (hr : ((system cfg).restrict NonEmpty).Reachable s) : HandOff cfg s := by
  have hI : ((system cfg).restrict NonEmpty).IsInvariant (HandOff cfg : State Tid → Prop) := by
    constructor
    · rintro s ⟨data, array, rfl⟩
      exact init data array
    · rintro s a s' hs ih ⟨-, hstep⟩
      exact ih.step (fun hd => (Filled.reachable hs).carried (by rw [hd]; rfl)) (step_cases hstep)
  exact hI.reachable hr

end HandOff

/-! ### Tasks that were handed over -/

/-- The slot of the worker holds the task `x`, which has not been started. -/
def Pending (w : Worker Tid) (x : Task Tid) : Prop :=
  w.task = some x ∧ w.pc.awaits = true

theorem WorkerStep.pending {w w' : Worker Tid} {x : Task Tid} (hs : WorkerStep w w')
    (h : Pending w x) (hr : w.running = true) : Pending w' x ∨ w.pc = .call := by
  obtain ⟨htask, hpc⟩ := h
  cases hs with
  | enter hp _ => exact Or.inl ⟨htask, rfl⟩
  | exit hp hr' => cases hr.symm.trans hr'
  | wait g g' hp _ => exact Or.inl ⟨htask, rfl⟩
  | pass hp _ => exact Or.inl ⟨htask, rfl⟩
  | accept t hp _ => exact Or.inl ⟨htask, rfl⟩
  | skip hp ht => cases htask.symm.trans ht
  | start t hp _ => exact Or.inr hp
  | finish t hp => rw [hp] at hpc; cases hpc
  | clear hp => rw [hp] at hpc; cases hpc
  | reset hp => rw [hp] at hpc; cases hpc
  | release hp => rw [hp] at hpc; cases hpc

/-- A task in the slot finds the gate open, once the dispatcher is done with the worker. -/
theorem Phase.of_pending {w : Worker Tid} {x : Task Tid} (h : Phase .away w) (hx : Pending w x) :
    w.flag = 1 ∧ w.pc ≠ .waiter .asleep := by
  obtain ⟨htask, hpc⟩ := hx
  cases h with
  | signalled y _ _ hflag _ _ hasleep => exact ⟨hflag, fun ha => by cases hasleep ha⟩
  | executing y _ _ _ _ hpc' => rcases hpc' with hpc' | hpc' <;> rw [hpc'] at hpc <;> cases hpc
  | _ => simp_all

/-- Each task that was handed over has been started, or it is still in the slot. -/
structure Handed (s : State Tid) (l : Log Tid) : Prop where
  activating : s.dispatcher.grip = .store ∨ s.dispatcher.grip = .wake → s.candidate.running = true →
    ∃ x, l.activating = some x ∧ (x ∈ l.started ∨ Pending s.candidate x)
  handed : ∀ i x, (i, x) ∈ l.handed → (s.workers i).running = true →
    x ∈ l.started ∨ Pending (s.workers i) x ∧ s.grip i = .away

namespace Handed

variable {cfg : Config} {s s' : State Tid} {l l' : Log Tid}

theorem frame (h : Handed s l) (hact : l'.activating = l.activating) (hh : l'.handed = l.handed)
    (hst : ∀ x ∈ l.started, x ∈ l'.started)
    (hw : ∀ i, (s'.workers i).running = true → (s.workers i).running = true ∧
      ∀ x, Pending (s.workers i) x → x ∈ l'.started ∨ Pending (s'.workers i) x)
    (hd : s'.dispatcher.grip = .store ∨ s'.dispatcher.grip = .wake →
      s.dispatcher.grip = s'.dispatcher.grip ∧ s'.lastIdDispatched = s.lastIdDispatched)
    (hg : ∀ i, s'.grip i = s.grip i) : Handed s' l' := by
  constructor
  · intro hgrip hr
    obtain ⟨hgrip', hid⟩ := hd hgrip
    rw [State.candidate, hid] at hr ⊢
    obtain ⟨hr', hp⟩ := hw _ hr
    obtain ⟨x, hx, hcase⟩ := h.activating (hgrip' ▸ hgrip) hr'
    refine ⟨x, hact.trans hx, ?_⟩
    rcases hcase with hmem | hpend
    · exact Or.inl (hst x hmem)
    · exact hp x hpend
  · intro i x hmem hr
    rw [hh] at hmem
    obtain ⟨hr', hp⟩ := hw i hr
    rcases h.handed i x hmem hr' with hmem' | ⟨hpend, haway⟩
    · exact Or.inl (hst x hmem')
    · exact (hp x hpend).imp id fun hpend' => ⟨hpend', (hg i).trans haway⟩

/-- A step of the dispatcher that changes the worker it has claimed. -/
theorem grasp (h : Handed s l) {w : Worker Tid}
    (hw : s'.workers = Function.update s.workers s.lastIdDispatched w)
    (hg : ∀ j, j ≠ s.lastIdDispatched → s'.grip j = .away) (hr : w.running = s.candidate.running)
    (hst : l'.started = l.started)
    (hh : ∀ i x, (i, x) ∈ l'.handed → (i, x) ∈ l.handed ∨ i = s.lastIdDispatched)
    (hself : s.candidate.running = true → ∀ x, (s.lastIdDispatched, x) ∈ l'.handed →
      x ∈ l.started ∨ Pending w x ∧ s'.grip s.lastIdDispatched = .away)
    (hact : s'.dispatcher.grip = .store ∨ s'.dispatcher.grip = .wake →
      s'.lastIdDispatched = s.lastIdDispatched ∧ (s.candidate.running = true →
        ∃ x, l'.activating = some x ∧ (x ∈ l.started ∨ Pending w x))) : Handed s' l' := by
  have hwid : s'.workers s.lastIdDispatched = w := by rw [hw, Function.update_self]
  constructor
  · intro hgrip hr'
    obtain ⟨hid, hx⟩ := hact hgrip
    rw [State.candidate, hid, hwid] at hr' ⊢
    rw [hst]
    exact hx (hr.symm.trans hr')
  · intro i x hmem hr'
    rw [hst]
    by_cases hi : i = s.lastIdDispatched
    · subst hi
      rw [hwid] at hr' ⊢
      exact hself (hr.symm.trans hr') x hmem
    · have heq : s'.workers i = s.workers i := by rw [hw, Function.update_of_ne hi]
      rw [heq] at hr' ⊢
      rcases h.handed i x ((hh i x hmem).resolve_right hi) hr' with hmem' | ⟨hpend, -⟩
      · exact Or.inl hmem'
      · exact Or.inr ⟨hpend, hg i hi⟩

/-- What was handed over to the worker that the dispatcher is busy with has been started. -/
theorem started_of_grip (h : Handed s l) (hgrip : s.dispatcher.grip ≠ .away)
    (hr : s.candidate.running = true) {x : Task Tid} (hx : (s.lastIdDispatched, x) ∈ l.handed) :
    x ∈ l.started :=
  (h.handed _ x hx hr).resolve_right fun hp => hgrip (s.grip_self ▸ hp.2)

variable [DecidableEq Tid]

theorem dispatch (h : Handed s l) (hf : Filled s) (ho : HandOff cfg s) {a : Micro Tid}
    (hs : DispatcherStep cfg s s') : Handed s' (l.note s (.dispatcher, a)) := by
  have haway : s.dispatcher.grip = .away → s'.dispatcher.grip = .away → s'.workers = s.workers →
      Handed s' l := by
    intro h1 h2 hw
    refine h.frame rfl rfl (fun _ => id) (fun i hr => ⟨hw ▸ hr, fun x hx => Or.inr (hw ▸ hx)⟩) ?_
      fun i => (State.grip_eq_away h2 i).trans (State.grip_eq_away h1 i).symm
    rw [h2]
    rintro (h3 | h3) <;> cases h3
  have hphase : s.candidate.running = true → Phase s.dispatcher.grip s.candidate :=
    fun hr => s.grip_self ▸ ho.phase _ hr
  cases hs with
  | inside op b q hp hcall hret hq =>
    rw [l.note_of_op hp]
    exact h.frame rfl rfl (fun _ => id) (fun i hr => ⟨hr, fun x => Or.inr⟩) (fun _ => ⟨rfl, rfl⟩)
      fun _ => rfl
  | claim first start hp hpool =>
    simp only [Log.note, hp]
    refine h.grasp rfl (fun j hj => State.grip_of_ne hj) rfl rfl (fun _ _ => Or.inl)
      (fun hr x hx => ?_) (by rintro (h3 | h3) <;> cases h3)
    refine Or.inl ((h.handed _ x hx hr).resolve_right fun hpend => ?_)
    cases hpend.1.1.symm.trans ((hphase hr).of_poolFlag_eq_zero hpool).2.1
  | write left hp =>
    have hgrip : s.dispatcher.grip = .write := by rw [hp]; rfl
    simp only [Log.note, hp]
    refine h.grasp rfl (fun j hj => State.grip_of_ne hj) rfl rfl (fun _ _ => Or.inl)
      (fun hr x hx => Or.inl (h.started_of_grip (by rw [hgrip]; simp) hr hx))
      fun _ => ⟨rfl, fun hr => ?_⟩
    obtain ⟨x, hx⟩ := Option.ne_none_iff_exists.1 (hf.carried (by rw [hp]; rfl))
    refine ⟨x, hx.symm, Or.inr ⟨hx.symm, ?_⟩⟩
    exact Loop.awaits_of_outside (hgrip ▸ hphase hr).of_write.2.2
  | store hp =>
    have hgrip : s.dispatcher.grip = .store := by rw [hp]; rfl
    simp only [Log.note, hp]
    exact h.grasp rfl (fun j hj => State.grip_of_ne hj) rfl rfl (fun _ _ => Or.inl)
      (fun hr x hx => Or.inl (h.started_of_grip (by rw [hgrip]; simp) hr hx))
      fun _ => ⟨rfl, h.activating (Or.inl hgrip)⟩
  | wake hp =>
    have hgrip : s.dispatcher.grip = .wake := by rw [hp]; rfl
    simp only [Log.note, hp]
    refine h.grasp rfl (fun j hj => State.grip_eq_away rfl j) rfl rfl (fun i x hx => ?_)
      (fun hr x hx => ?_) (by rintro (h3 | h3) <;> cases h3)
    · rcases List.mem_append.1 hx with hx | hx
      · exact Or.inl hx
      · simp only [Option.mem_toList, Option.map_eq_some_iff, Prod.mk.injEq] at hx
        obtain ⟨y, -, hi, -⟩ := hx
        exact Or.inr hi.symm
    · rcases List.mem_append.1 hx with hx | hx
      · exact Or.inl (h.started_of_grip (by rw [hgrip]; simp) hr hx)
      · -- the task of the `activateWorker` that returns
        simp only [Option.mem_toList, Option.map_eq_some_iff, Prod.mk.injEq] at hx
        obtain ⟨y, hy, -, rfl⟩ := hx
        obtain ⟨z, hz, hcase⟩ := h.activating (Or.inr hgrip) hr
        obtain rfl : z = y := Option.some.inj (hz.symm.trans hy)
        exact hcase.imp id fun hpend =>
          ⟨⟨hpend.1, (Loop.woken_awaits _).trans hpend.2⟩, State.grip_eq_away rfl _⟩
  | wait g g' hp hw => simp only [Log.note, hp]; exact haway (by rw [hp]; rfl) rfl rfl
  | answer k b q hp hb hq =>
    simp only [Log.note, hp]
    exact haway (by rw [hp]; rfl) (by cases k <;> cases b <;> rfl) rfl
  | take t v q hp hv hq => simp only [Log.note, hp]; exact haway (by rw [hp]; rfl) rfl rfl
  | next first first' start hp hf => simp only [Log.note, hp]; exact haway (by rw [hp]; rfl) rfl rfl
  | _ hp => simp only [Log.note, hp]; exact haway (by rw [hp]; rfl) rfl rfl

theorem step (h : Handed s l) (hf : Filled s) (ho : HandOff cfg s) {a : Thread Tid × Micro Tid}
    (hs : Step cfg s a s') : Handed s' (l.note s a) := by
  have hquiet : ∀ {l'}, l'.activating = l.activating → l'.handed = l.handed →
      l'.started = l.started → s'.workers = s.workers → s'.lastIdDispatched = s.lastIdDispatched →
      s'.dispatcher.grip = s.dispatcher.grip → Handed s' l' := by
    intro l' h1 h2 h3 hw hid hd
    refine h.frame h1 h2 (fun x => h3 ▸ id) (fun i hr => ⟨hw ▸ hr, fun x hx => Or.inr (hw ▸ hx)⟩)
      (fun _ => ⟨hd.symm, hid⟩) (State.grip_congr hid hd)
  cases hs with
  | dispatcher hs => exact h.dispatch hf ho hs
  | @worker i a w hi hw =>
    obtain ⟨-, hact, hh⟩ := l.note_worker s i a
    have hst : ∀ x ∈ l.started, x ∈ (l.note s (.worker i, a)).started := by
      cases hpc : (s.workers i).pc <;> simp +contextual [Log.note, hpc]
    refine h.frame hact hh hst (fun j hr => ?_) (fun _ => ⟨rfl, rfl⟩) fun _ => rfl
    by_cases hji : j = i
    · subst hji
      rw [setWorker_workers_self] at hr ⊢
      have hr' : (s.workers j).running = true := hw.running_eq ▸ hr
      refine ⟨hr', fun x hx => ?_⟩
      rcases hw.pending hx hr' with hx' | hcall
      · exact Or.inr hx'
      · exact Or.inl (by simp [Log.note, hcall, hx.1])
    · rw [setWorker_workers_of_ne s w hji] at hr ⊢
      exact ⟨hr, fun x => Or.inr⟩
  | @producer p a _ hs =>
    have hnote : (l.note s (.producer p, a)).activating = l.activating ∧
        (l.note s (.producer p, a)).handed = l.handed ∧
        (l.note s (.producer p, a)).started = l.started := by
      cases a with
      | queue b => cases b <;> exact ⟨rfl, rfl, rfl⟩
      | _ => exact ⟨rfl, rfl, rfl⟩
    cases hs with
    | wake hp => exact hquiet hnote.1 hnote.2.1 hnote.2.2 rfl rfl (Dispatcher.woken_grip _)
    | _ => exact hquiet hnote.1 hnote.2.1 hnote.2.2 rfl rfl rfl
  | destructor hs =>
    have hdestroy : ∀ {i w}, s'.workers = Function.update s.workers i w → w.running = false →
        s'.dispatcher = s.dispatcher → s'.lastIdDispatched = s.lastIdDispatched → Handed s' l := by
      intro i w hw hw' hd hid
      refine h.frame rfl rfl (fun _ => id) (fun j hr => ?_) (fun _ => ⟨by rw [hd], hid⟩)
        (State.grip_congr hid (by rw [hd]))
      have hji : j ≠ i := by
        rintro rfl
        rw [hw, Function.update_self, hw'] at hr
        cases hr
      rw [hw, Function.update_of_ne hji] at hr ⊢
      exact ⟨hr, fun x => Or.inr⟩
    cases hs with
    | wake hp => exact hquiet rfl rfl rfl rfl rfl (Dispatcher.woken_grip _)
    | workerSet i hp => exact hdestroy rfl rfl rfl rfl
    | workerStore i hp => exact hdestroy rfl (ho.destroyed i (by rw [hp]; rfl)) rfl rfl
    | workerWake i hp => exact hdestroy rfl (ho.destroyed i (by rw [hp]; rfl)) rfl rfl
    | _ => exact hquiet rfl rfl rfl rfl rfl rfl

end Handed

section Reachable

variable [DecidableEq Tid] {cfg : Config} {s : State Tid} {l : Log Tid}

theorem Handed.reachable (h : (logged Tid cfg).Reachable (s, l)) : Handed s l := by
  have hI : (logged Tid cfg).IsInvariant fun q : State Tid × Log Tid => Handed q.1 q.2 := by
    constructor
    · rintro ⟨s, l⟩ ⟨⟨data, array, rfl⟩, rfl⟩
      exact ⟨by simp [fresh, Dispatcher.grip], by simp [fresh, Log.empty]⟩
    · rintro ⟨s, l⟩ a ⟨s', l'⟩ hs ih ⟨⟨-, hstep⟩, rfl⟩
      exact ih.step (Filled.reachable hs.of_log) (HandOff.reachable hs.of_log) (step_cases hstep)
  exact hI.reachable h

/-- **The hand-off is safe.** As long as a worker is not being destroyed, in every reachable state:
if `poolFlag` is `0` then the gate is closed, the slot is empty and the worker is outside the
section from leaving `waiter()` to `poolFlag.store(0)`; the dispatcher writes the slot only while
the worker is outside that section; and a task that `activateWorker` has handed over and that has
not been started finds the gate open and the worker not asleep. -/
theorem handoff_safe (h : (logged Tid cfg).Reachable (s, l)) {i : ℕ}
    (halive : (s.workers i).running = true) :
    ((s.workers i).poolFlag = 0 → (s.workers i).flag = 0 ∧ (s.workers i).task = none ∧
      (s.workers i).pc.outside = true) ∧
    (s.dispatcher = .write → s.lastIdDispatched = i → (s.workers i).pc.outside = true) ∧
    (∀ x, (i, x) ∈ l.handed → x ∉ l.started →
      (s.workers i).flag = 1 ∧ (s.workers i).pc ≠ .waiter .asleep) := by
  have hphase : Phase (s.grip i) (s.workers i) := (HandOff.reachable h.of_log).phase i halive
  refine ⟨hphase.of_poolFlag_eq_zero, fun hd hid => ?_, fun x hx hns => ?_⟩
  · have hgrip : s.grip i = .write := by rw [State.grip, if_pos hid, hd]; rfl
    exact (hgrip ▸ hphase).of_write.2.2
  · obtain ⟨hpend, haway⟩ := ((Handed.reachable h).handed i x hx halive).resolve_left hns
    exact (haway ▸ hphase).of_pending hpend

end Reachable

/-- A thread goes on for `n` statements. -/
def goesOn (θ : Thread Tid) (n : ℕ) : List (Thread Tid × Micro Tid) := List.replicate n (θ, .go)

/-- A call of `assignTask`, from beginning to end. -/
def assigns (p : Tid) : List (Thread Tid × Micro Tid) :=
  [(.producer p, .assignTask false), (.producer p, .queue .claim), (.producer p, .queue .spin),
   (.producer p, .queue (.copy 0 none)), (.producer p, .queue .publish), (.producer p, .ret),
   (.producer p, .go), (.producer p, .go)]

/-- The dispatcher takes a task out of the queue. -/
def dequeues : List (Thread Tid × Micro Tid) :=
  [(.dispatcher, .go), (.dispatcher, .call), (.dispatcher, .queue .loadWrite),
   (.dispatcher, .queue .loadRead), (.dispatcher, .ret), (.dispatcher, .call),
   (.dispatcher, .queue .claim), (.dispatcher, .queue .spin), (.dispatcher, .queue (.copy 0 none)),
   (.dispatcher, .queue .publish), (.dispatcher, .ret)]

/-- Worker `0` and the dispatcher go to sleep. -/
def fallAsleep : List (Thread Tid × Micro Tid) :=
  [(.worker 0, .go), (.worker 0, .go), (.worker 0, .go), (.dispatcher, .go), (.dispatcher, .go),
   (.dispatcher, .go)]

/-- The dispatcher hands its task over to a free worker. -/
def activates : List (Thread Tid × Micro Tid) :=
  [(.dispatcher, .go), (.dispatcher, .move none), (.dispatcher, .go), (.dispatcher, .go)]

/-- All go to sleep, a thread assigns a task, and the dispatcher wakes up and hands it over. -/
def oneTask (p : Tid) : List (Thread Tid × Micro Tid) :=
  fallAsleep ++ assigns p ++ (.dispatcher, .go) :: dequeues ++ activates

/-- The first task of thread `0` was handed over to worker `0` and has not been started. -/
def handedOver (q : State ℕ × Log ℕ) : Bool :=
  q.2.handed == [(0, (0, 0))] && q.2.started == [] && (q.1.workers 0).running

/-- The pool with one worker, and the log. -/
def loggedStep (q : State ℕ × Log ℕ) (a : Thread ℕ × Micro ℕ) : Option (State ℕ × Log ℕ) :=
  (step single q.1 a).map fun s => (s, q.2.note q.1 a)

theorem oneTask_handedOver : ((oneTask 0).foldlM loggedStep
    (fresh (fun _ _ => none) fun _ _ => none, Log.empty)).map handedOver = some true := by
  decide +kernel

/-- Not an `assignTask` of an empty function. -/
def keepsNonEmpty (a : Thread ℕ × Micro ℕ) : Bool := !(a.2 matches .assignTask true)

theorem loggedStep_sound {acts : List (Thread ℕ × Micro ℕ)} (hne : acts.all keepsNonEmpty = true)
    (q : State ℕ × Log ℕ) (a : Thread ℕ × Micro ℕ) (ha : a ∈ acts) (q' : State ℕ × Log ℕ)
    (h : loggedStep q a = some q') : (logged ℕ single).step q a q' := by
  obtain ⟨s, hs, rfl⟩ := Option.map_eq_some_iff.1 h
  refine ⟨⟨?_, hs⟩, rfl⟩
  rintro p rfl
  cases List.all_eq_true.1 hne _ ha

theorem handoff_safe_oneTask : ∃ (s : State ℕ) (l : Log ℕ), handedOver (s, l) = true ∧
    ((s.workers 0).poolFlag = 0 → (s.workers 0).flag = 0 ∧ (s.workers 0).task = none ∧
      (s.workers 0).pc.outside = true) ∧
    (s.dispatcher = .write → s.lastIdDispatched = 0 → (s.workers 0).pc.outside = true) ∧
    (∀ x, (0, x) ∈ l.handed → x ∉ l.started →
      (s.workers 0).flag = 1 ∧ (s.workers 0).pc ≠ .waiter .asleep) := by
  have hinit : (logged ℕ single).init (fresh (fun _ _ => none) fun _ _ => none, Log.empty) :=
    ⟨⟨_, _, rfl⟩, rfl⟩
  obtain ⟨⟨s, l⟩, hr, hp⟩ := System.exists_reachable_of_schedule hinit oneTask_handedOver
    (loggedStep_sound (by decide))
  have halive : (s.workers 0).running = true := by
    simp only [handedOver, Bool.and_eq_true] at hp
    exact hp.2
  exact ⟨s, l, hp, handoff_safe hr halive⟩

end AstraLib.ThreadPool
