import AstraLib.ThreadPool.Tasks

/-!
# `ThreadPool`: is a claimed worker ever free again?

The worker resets `poolFlag` inside `if (task)`, after it has run the task.  With an empty function
in its slot it skips that branch and goes round its loop with the gate open.  The dispatcher has
claimed it and will never claim it again: the worker is lost (`Doomed`).

So everything depends on the functions for which the dispatcher claims a worker (`Laden`).  In a run
in which none of them is empty, a claimed worker is being filled, or has a task, or is about to
reset `poolFlag`, and there is a way back to `poolFlag = 0`.  Conversely the first empty function
that gets a worker ruins it (`worker_never_lost_iff`).
-/

namespace AstraLib.ThreadPool

open Interleaving

variable {Tid : Type}

/-- Between the end of the task and `poolFlag.store(0)`. -/
def Loop.settling : Loop Tid → Bool
  | .clear | .reset | .release => true
  | _ => false

/-- A worker for which something is under way: the dispatcher is between its compare-and-exchange
and the end of `activateWorker`, or the task slot is not empty, or the task is over and
`poolFlag` is about to be reset. -/
def State.Busy (s : State Tid) (i : ℕ) : Prop :=
  s.grip i ≠ .away ∨ (s.workers i).task ≠ none ∨ (s.workers i).pc.settling = true

section Pool

variable [DecidableEq Tid]

/-- There is a path to a state in which the worker is free, without `~ThreadPool`. -/
inductive Back (cfg : Config) (i : ℕ) : State Tid → Prop
  | free {s : State Tid} (h : (s.workers i).poolFlag = 0) : Back cfg i s
  | step {s s' : State Tid} {a : Thread Tid × Micro Tid} (hstep : step cfg s a = some s')
      (ha : a.1 ≠ .destructor) (h : Back cfg i s') : Back cfg i s

/-- The dispatcher claims a worker only for a function that is not empty. -/
def Laden (s : State Tid) (a : Thread Tid × Micro Tid) : Prop :=
  ∀ first start, a.1 = .dispatcher → s.dispatcher = .scan first start → s.candidate.poolFlag = 0 →
    s.task ≠ none

variable {cfg : Config} {s s' : State Tid} {i : ℕ}

/-! ### The way back -/

namespace Back

/-- A step of the worker. -/
theorem worker (hi : i < cfg.THREAD_COUNT) {w : Worker Tid} (hw : WorkerStep (s.workers i) w)
    (h : Back cfg i (s.setWorker i w)) : Back cfg i s := by
  obtain ⟨a, ha⟩ := hw.exists_step
  have hstep : ThreadPool.step cfg s (.worker i, a) = some (s.setWorker i w) := by
    simp [ThreadPool.step, hi, ha]
  exact .step hstep (by simp) h

theorem release (hi : i < cfg.THREAD_COUNT) (hp : (s.workers i).pc = .release) : Back cfg i s := by
  refine .worker hi (.release hp) (.free ?_)
  simp

theorem reset (hi : i < cfg.THREAD_COUNT) (hp : (s.workers i).pc = .reset) : Back cfg i s := by
  refine .worker hi (.reset hp) (release hi ?_)
  simp

theorem clear (hi : i < cfg.THREAD_COUNT) (hp : (s.workers i).pc = .clear) : Back cfg i s := by
  refine .worker hi (.clear hp) (reset hi ?_)
  simp

theorem executing (hi : i < cfg.THREAD_COUNT) {t : Task Tid}
    (hp : (s.workers i).pc = .executing t) : Back cfg i s := by
  refine .worker hi (.finish t hp) (clear hi ?_)
  simp

variable {t : Task Tid}

theorem call (hi : i < cfg.THREAD_COUNT) (ht : (s.workers i).task = some t)
    (hp : (s.workers i).pc = .call) : Back cfg i s := by
  refine .worker hi (.start t hp ht) (executing (t := t) hi ?_)
  simp

theorem test (hi : i < cfg.THREAD_COUNT) (ht : (s.workers i).task = some t)
    (hp : (s.workers i).pc = .test) : Back cfg i s := by
  refine .worker hi (.accept t hp ht) (call (t := t) hi ?_ ?_)
  · simp [ht]
  · simp

theorem load (hi : i < cfg.THREAD_COUNT) (ht : (s.workers i).task = some t)
    (hf : (s.workers i).flag = 1) (hp : (s.workers i).pc = .waiter .load) : Back cfg i s := by
  refine .worker hi (.pass hp hf) (test (t := t) hi ?_ ?_)
  · simp [ht]
  · simp

/-- The gate is open, there is a task in the slot, and the worker is awake. -/
theorem signalled (hi : i < cfg.THREAD_COUNT) (hr : (s.workers i).running = true)
    (ht : (s.workers i).task = some t) (hf : (s.workers i).flag = 1)
    (hpc : (s.workers i).pc.awaits = true) (hawake : (s.workers i).pc ≠ .waiter .asleep) :
    Back cfg i s := by
  cases hp : (s.workers i).pc with
  | loopTest =>
    refine .worker hi (.enter hp hr) (load (t := t) hi ?_ ?_ ?_)
    · simp [ht]
    · simp [hf]
    · simp
  | waiter g =>
    cases g with
    | load => exact load hi ht hf hp
    | wait =>
      have hagain : WaiterStep (s.workers i).flag .wait (some .load) := .again (by rw [hf]; decide)
      refine .worker hi (.wait .wait .load hp hagain) (load (t := t) hi ?_ ?_ ?_)
      · simp [ht]
      · simp [hf]
      · simp
    | asleep => exact absurd hp hawake
  | test => exact test hi ht hp
  | call => exact call hi ht hp
  | _ => rw [hp] at hpc; cases hpc

/-- A step of the dispatcher. -/
theorem dispatch {a : Micro Tid} (hs : dispatcherStep cfg s s.dispatcher a = some s')
    (h : Back cfg i s') : Back cfg i s :=
  .step (a := (.dispatcher, a)) hs (by simp) h

/-- The dispatcher ends `activateWorker` with its `FUTEX_WAKE`. -/
theorem wake (hi : i < cfg.THREAD_COUNT) (hd : s.dispatcher = .wake) (hid : s.lastIdDispatched = i)
    (hr : (s.workers i).running = true) (ht : (s.workers i).task = some t)
    (hf : (s.workers i).flag = 1) (hpc : (s.workers i).pc.awaits = true) : Back cfg i s := by
  subst hid
  refine dispatch (a := .go) (by rw [hd]; rfl) ?_
  refine signalled (t := t) hi ?_ ?_ ?_ ?_ ?_
  · simp [State.setWorker, State.candidate, hr]
  · simp [State.setWorker, State.candidate, ht]
  · simp [State.setWorker, State.candidate, hf]
  · simp [State.setWorker, State.candidate, Loop.woken_awaits, hpc]
  · simp [State.setWorker, Loop.woken_ne_asleep]

theorem store (hi : i < cfg.THREAD_COUNT) (hd : s.dispatcher = .store)
    (hid : s.lastIdDispatched = i) (hr : (s.workers i).running = true)
    (ht : (s.workers i).task = some t) (hpc : (s.workers i).pc.awaits = true) : Back cfg i s := by
  subst hid
  refine dispatch (a := .go) (by rw [hd]; rfl) ?_
  refine wake (t := t) hi rfl rfl ?_ ?_ ?_ ?_
  · simp [State.setWorker, State.candidate, hr]
  · simp [State.setWorker, State.candidate, ht]
  · simp [State.setWorker]
  · simp [State.setWorker, State.candidate, hpc]

theorem write (hi : i < cfg.THREAD_COUNT) (hd : s.dispatcher = .write)
    (hid : s.lastIdDispatched = i) (hr : (s.workers i).running = true) (ht : s.task = some t)
    (hpc : (s.workers i).pc.awaits = true) : Back cfg i s := by
  subst hid
  refine dispatch (a := .move none) (by rw [hd]; rfl) ?_
  refine store (t := t) hi rfl rfl ?_ ?_ ?_
  · simp [State.setWorker, State.candidate, hr]
  · simp [State.setWorker, ht]
  · simp [State.setWorker, State.candidate, hpc]

/-- From every phase there is a way back. -/
theorem of_handOff (ho : HandOff cfg s) (hc : s.dispatcher = .write → s.task ≠ none)
    (hi : i < cfg.THREAD_COUNT) (hr : (s.workers i).running = true) : Back cfg i s := by
  cases ho.phase i hr with
  | free _ hpool => exact .free hpool
  | claimed hg _ _ _ hpc =>
    obtain ⟨hid, hd⟩ := State.grip_eq_write.1 hg
    obtain ⟨t, ht⟩ := Option.ne_none_iff_exists'.1 (hc hd)
    exact write hi hd hid hr ht (Loop.awaits_of_outside hpc)
  | filled x hg _ _ ht hpc =>
    obtain ⟨hid, hd⟩ := State.grip_eq_store.1 hg
    exact store hi hd hid hr ht (Loop.awaits_of_outside hpc)
  | signalled x hg _ hf ht hpc hasleep =>
    rcases hg with hg | hg
    · exact signalled hi hr ht hf hpc fun hp => by cases hg.symm.trans (hasleep hp)
    · obtain ⟨hid, hd⟩ := State.grip_eq_wake.1 hg
      exact wake hi hd hid hr ht hf hpc
  | executing x _ _ _ _ hpc => exact hpc.elim (executing hi) (clear hi)
  | cleared _ _ _ _ hpc => exact reset hi hpc
  | closed _ _ _ _ hpc => exact release hi hpc

end Back

/-! ### A run in which no empty function gets a worker -/

omit [DecidableEq Tid] in
theorem busy_of_phase (h : Phase (s.grip i) (s.workers i)) (hpool : (s.workers i).poolFlag = 1) :
    s.Busy i := by
  cases h with
  | free _ hz => cases hz.symm.trans hpool
  | claimed hg => exact Or.inl (by rw [hg]; simp)
  | filled x _ _ _ ht => exact Or.inr (Or.inl (by rw [ht]; simp))
  | signalled x _ _ _ ht => exact Or.inr (Or.inl (by rw [ht]; simp))
  | executing x _ _ _ ht => exact Or.inr (Or.inl (by rw [ht]; simp))
  | cleared _ _ _ _ hpc => exact Or.inr (Or.inr (by rw [hpc]; rfl))
  | closed _ _ _ _ hpc => exact Or.inr (Or.inr (by rw [hpc]; rfl))

/-- The function that the dispatcher is about to move into a slot has been there since
the worker was claimed. -/
theorem Step.task_of_write {a : Thread Tid × Micro Tid} (hs : Step cfg s a s')
    (hd : s'.dispatcher = .write) : s'.task = s.task ∧ (s.dispatcher = .write ∨
      a.1 = .dispatcher ∧ s.candidate.poolFlag = 0 ∧
      ∃ first start, s.dispatcher = .scan first start) := by
  cases hs with
  | producer hs =>
    cases hs with
    | wake hp => exact ⟨rfl, Or.inl (Dispatcher.eq_of_woken_eq hd (by simp))⟩
    | _ => exact ⟨rfl, Or.inl hd⟩
  | dispatcher hs =>
    cases hs with
    | inside op b q hp hcall hret hq => exact ⟨rfl, Or.inl hd⟩
    | answer k b q hp hb hq => cases k <;> cases b <;> cases hd
    | claim first start hp hpool => exact ⟨rfl, Or.inr ⟨rfl, hpool, first, start, hp⟩⟩
    | _ => cases hd
  | worker hi hw => exact ⟨rfl, Or.inl hd⟩
  | destructor hs =>
    cases hs with
    | wake hp => exact ⟨rfl, Or.inl (Dispatcher.eq_of_woken_eq hd (by simp))⟩
    | _ => exact ⟨rfl, Or.inl hd⟩

theorem handOff_of_laden (h : ((system cfg).restrict Laden).Reachable s) :
    HandOff cfg s ∧ (s.dispatcher = .write → s.task ≠ none) := by
  have hI : ((system cfg).restrict Laden).IsInvariant fun s : State Tid =>
      HandOff cfg s ∧ (s.dispatcher = .write → s.task ≠ none) := by
    constructor
    · rintro s ⟨data, array, rfl⟩
      exact ⟨HandOff.init data array, by simp [fresh]⟩
    · rintro s a s' _ ⟨ho, hc⟩ ⟨hladen, hstep⟩
      have hs := step_cases hstep
      refine ⟨ho.step hc hs, fun hd => ?_⟩
      obtain ⟨htask, hd' | ⟨ha, hpool, first, start, hscan⟩⟩ := hs.task_of_write hd
      · rw [htask]; exact hc hd'
      · rw [htask]; exact hladen first start ha hscan hpool
  exact hI.reachable h

/-- It is enough that nobody assigns an empty function. -/
theorem laden_of_nonEmpty (h : ((system cfg).restrict NonEmpty).Reachable s)
    (a : Thread Tid × Micro Tid) : Laden s a := by
  intro first start _ hscan _
  exact (Filled.reachable h).carried (by rw [hscan]; rfl)

/-! ### A worker that is lost -/

/-- Claimed for an empty function: the slot is empty and stays so, and the worker goes round its
loop without ever resetting `poolFlag`. -/
structure Doomed (s : State Tid) (i : ℕ) : Prop where
  poolFlag : (s.workers i).poolFlag = 1
  task : (s.workers i).task = none
  pc : (s.workers i).pc.outside = true ∨ (s.workers i).pc = .test ∨ (s.workers i).pc = .exited
  carried : s.grip i = .write → s.task = none

namespace Doomed

omit [DecidableEq Tid] in
theorem frame (h : Doomed s i) (hw : s'.workers i = s.workers i)
    (hg : s'.grip i = .write → s.grip i = .write ∧ s'.task = s.task) : Doomed s' i := by
  refine ⟨?_, ?_, ?_, fun hgrip => ?_⟩
  · rw [hw]; exact h.poolFlag
  · rw [hw]; exact h.task
  · rw [hw]; exact h.pc
  · obtain ⟨hgrip', htask⟩ := hg hgrip
    exact htask.trans (h.carried hgrip')

omit [DecidableEq Tid] in
/-- A step that changes one worker. -/
theorem put {j : ℕ} {w : Worker Tid} (h : Doomed s i)
    (hw : s'.workers = Function.update s.workers j w)
    (hg : s'.grip i = .write → s.grip i = .write ∧ s'.task = s.task)
    (hi : i = j → w.poolFlag = 1 ∧ w.task = none ∧
      (w.pc.outside = true ∨ w.pc = .test ∨ w.pc = .exited)) : Doomed s' i := by
  by_cases hij : i = j
  · subst hij
    obtain ⟨h1, h2, h3⟩ := hi rfl
    have hself : s'.workers i = w := by rw [hw, Function.update_self]
    refine ⟨by rw [hself]; exact h1, by rw [hself]; exact h2, by rw [hself]; exact h3,
      fun hgrip => ?_⟩
    obtain ⟨hgrip', htask⟩ := hg hgrip
    exact htask.trans (h.carried hgrip')
  · exact h.frame (by rw [hw, Function.update_of_ne hij]) hg

omit [DecidableEq Tid] in
theorem work {w : Worker Tid} (h : Doomed s i) (hw : WorkerStep (s.workers i) w) :
    Doomed (s.setWorker i w) i := by
  have hput : w.poolFlag = 1 → w.task = none →
      (w.pc.outside = true ∨ w.pc = .test ∨ w.pc = .exited) → Doomed (s.setWorker i w) i :=
    fun h1 h2 h3 => h.put rfl (fun hgrip => ⟨hgrip, rfl⟩) fun _ => ⟨h1, h2, h3⟩
  have hpc := h.pc
  cases hw with
  | enter hp hr => exact hput h.poolFlag h.task (Or.inl rfl)
  | exit hp hr => exact hput h.poolFlag h.task (Or.inr (Or.inr rfl))
  | wait g g' hp hg => exact hput h.poolFlag h.task (Or.inl rfl)
  | pass hp hf => exact hput h.poolFlag h.task (Or.inr (Or.inl rfl))
  | accept t hp ht => cases h.task.symm.trans ht
  | skip hp ht => exact hput h.poolFlag h.task (Or.inl rfl)
  | start t hp ht => cases h.task.symm.trans ht
  | finish t hp => simp [hp, Loop.outside] at hpc
  | clear hp => simp [hp, Loop.outside] at hpc
  | reset hp => simp [hp, Loop.outside] at hpc
  | release hp => simp [hp, Loop.outside] at hpc

theorem dispatch (h : Doomed s i) (hs : DispatcherStep cfg s s') : Doomed s' i := by
  -- outside `activateWorker` the dispatcher holds nobody
  have haway : s'.dispatcher.grip = .away → s'.grip i = .write → s.grip i = .write ∧
      s'.task = s.task := by
    intro hd hgrip
    cases (State.grip_eq_away hd i).symm.trans hgrip
  have hnot : s'.dispatcher ≠ .write → s'.grip i = .write → s.grip i = .write ∧ s'.task = s.task :=
    fun hd hgrip => absurd (State.grip_eq_write.1 hgrip).2 hd
  cases hs with
  | inside op b q hp hcall hret hq => exact h.frame rfl fun hgrip => ⟨hgrip, rfl⟩
  | answer k b q hp hb hq => exact h.frame rfl (haway (by cases k <;> cases b <;> rfl))
  | claim first start hp hpool =>
    have hne : i ≠ s.lastIdDispatched := by
      rintro rfl
      cases hpool.symm.trans h.poolFlag
    refine h.put rfl (fun hgrip => ?_) fun hij => absurd hij hne
    exact absurd (State.grip_eq_write.1 hgrip).1.symm hne
  | write left hp =>
    refine h.put rfl (hnot (by simp)) ?_
    rintro rfl
    exact ⟨h.poolFlag, h.carried (State.grip_eq_write.2 ⟨rfl, hp⟩), h.pc⟩
  | store hp =>
    refine h.put rfl (hnot (by simp)) ?_
    rintro rfl
    exact ⟨h.poolFlag, h.task, h.pc⟩
  | wake hp =>
    refine h.put rfl (hnot (by simp)) ?_
    rintro rfl
    refine ⟨h.poolFlag, h.task, h.pc.imp ?_ (Or.imp ?_ ?_)⟩
    · intro hpc
      exact (Loop.woken_outside _).trans hpc
    · intro hpc
      exact congrArg Loop.woken hpc
    · intro hpc
      exact congrArg Loop.woken hpc
  | _ => exact h.frame rfl (haway rfl)

/-- No thread that uses the pool gets the worker out of it. -/
theorem step (h : Doomed s i) {a : Thread Tid × Micro Tid} (hs : Step cfg s a s')
    (ha : a.1 ≠ .destructor) : Doomed s' i := by
  cases hs with
  | dispatcher hs => exact h.dispatch hs
  | producer hs =>
    cases hs with
    | wake hp =>
      refine h.frame rfl fun hgrip => ⟨?_, rfl⟩
      rw [State.grip_eq_write] at hgrip ⊢
      exact ⟨hgrip.1, Dispatcher.eq_of_woken_eq hgrip.2 (by simp)⟩
    | _ => exact h.frame rfl fun hgrip => ⟨hgrip, rfl⟩
  | @worker j _ w hj hw =>
    by_cases hij : i = j
    · subst hij
      exact h.work hw
    · exact h.frame (setWorker_workers_of_ne s w hij) fun hgrip => ⟨hgrip, rfl⟩
  | destructor hs => exact absurd rfl ha

theorem not_back (h : Doomed s i) : ¬ Back cfg i s := by
  intro hb
  induction hb with
  | free hpool => cases hpool.symm.trans h.poolFlag
  | step hstep ha _ ih => exact ih (h.step (step_cases hstep) ha)

/-- The dispatcher claims a worker for an empty function. -/
theorem of_claim (ho : HandOff cfg s) (hr : s.candidate.running = true)
    (hpool : s.candidate.poolFlag = 0) (htask : s.task = none) (hs : DispatcherStep cfg s s')
    {first : Bool} {start : ℕ} (hp : s.dispatcher = .scan first start) :
    Doomed s' s.lastIdDispatched := by
  obtain ⟨-, hslot, hpc⟩ := (ho.phase _ hr).of_poolFlag_eq_zero hpool
  cases hs with
  | claim =>
    refine ⟨?_, ?_, Or.inl ?_, fun _ => htask⟩
    · simp [State.setWorker]
    · simpa [State.setWorker, State.candidate] using hslot
    · simpa [State.setWorker, State.candidate] using hpc
  | next _ _ _ _ hf => exact absurd hpool hf
  | inside op b q hp' hcall hret hq => rw [hp] at hp'; cases hp'
  | _ => simp_all

end Doomed

/-! ### The exact condition -/

omit [DecidableEq Tid] in
theorem exists_of_not_laden {a : Thread Tid × Micro Tid} (h : ¬ Laden s a) :
    ∃ first start, a.1 = .dispatcher ∧ s.dispatcher = .scan first start ∧ s.candidate.poolFlag = 0 ∧
      s.task = none := by
  unfold Laden at h
  push Not at h
  exact h

/-- **When the pool loses a worker.** Take any run in which `~ThreadPool` is not called. Then in all
of its states every worker with `poolFlag = 1` is being filled by the dispatcher, has a task in its
slot or is between the end of its task and `poolFlag.store(0)`, and has a way back to
`poolFlag = 0`, if and only if the dispatcher never claims a worker for an empty function. -/
theorem worker_never_lost_iff {x : ℕ → State Tid} {a : ℕ → Thread Tid × Micro Tid} {n : ℕ}
    (hrun : (system cfg).Run x a n) (hidle : ∀ k ≤ n, (x k).destructor = .idle) :
    (∀ k ≤ n, ∀ i < cfg.THREAD_COUNT, ((x k).workers i).poolFlag = 1 →
      (x k).Busy i ∧ Back cfg i (x k)) ↔
    ∀ k < n, Laden (x k) (a k) := by
  have halive : ∀ k ≤ n, ∀ i, ((x k).workers i).running = true := fun k hk i =>
    workers_running (hrun.reachable k hk) (by rw [hidle k hk]; rfl) i
  refine hrun.forall_iff_allow (P := fun s => ∀ i < cfg.THREAD_COUNT, (s.workers i).poolFlag = 1 →
    s.Busy i ∧ Back cfg i s) (fun k hk hs i hi hpool => ?_) fun k hk hs hna hP => ?_
  · obtain ⟨ho, hc⟩ := handOff_of_laden hs
    exact ⟨busy_of_phase (ho.phase i (halive k hk i)) hpool, .of_handOff ho hc hi (halive k hk i)⟩
  · obtain ⟨ho, -⟩ := handOff_of_laden hs
    obtain ⟨first, start, ha, hscan, hpool, htask⟩ := exists_of_not_laden hna
    have hdoomed : Doomed (x (k + 1)) (x k).lastIdDispatched := by
      have hstep := step_cases (hrun.step k hk)
      cases hak : a k with
      | mk θ b =>
        rw [hak] at ha hstep
        cases ha
        cases hstep with
        | dispatcher hs => exact .of_claim ho (halive k hk.le _) hpool htask hs hscan
    exact hdoomed.not_back (hP _ ho.id_lt hdoomed.poolFlag).2

end Pool

/-- No worker is being claimed for an empty function, and at the end of the schedule
worker `0` is taken. -/
def claimedForTask (k : ℕ) (s : State ℕ) : Bool :=
  (s.destructor matches .idle) && (!s.dispatcher.carries || s.task.isSome) &&
    (decide (k < (oneTask 0 : List (Thread ℕ × Micro ℕ)).length) || (s.workers 0).poolFlag == 1)

theorem oneTask_claimedForTask : ∀ k ≤ (oneTask 0 : List (Thread ℕ × Micro ℕ)).length,
    (((oneTask 0).take k).foldlM (step single) (fresh (fun _ _ => none) fun _ _ => none)).map
      (claimedForTask k) = some true := by
  decide +kernel

theorem worker_never_lost_oneTask : ∃ x : ℕ → State ℕ,
    ((x (oneTask 0 : List (Thread ℕ × Micro ℕ)).length).workers 0).poolFlag = 1 ∧
    ∀ k ≤ (oneTask 0 : List (Thread ℕ × Micro ℕ)).length, ∀ i < single.THREAD_COUNT,
      ((x k).workers i).poolFlag = 1 → (x k).Busy i ∧ Back single i (x k) := by
  have hinit : (system single).init (fresh (fun _ _ => (none : Fn ℕ)) fun _ _ => none) :=
    ⟨_, _, rfl⟩
  obtain ⟨x, hx, hp⟩ := System.exists_run_of_checks hinit (.dispatcher, .go) oneTask_claimedForTask
    fun s a _ s' hs => hs
  simp only [claimedForTask, Bool.and_eq_true] at hp
  refine ⟨x, by simpa using (hp _ le_rfl).2, ?_⟩
  refine (worker_never_lost_iff hx fun k hk => ?_).2 fun k hk first start _ hscan _ htask => ?_
  · have hidle := (hp k hk).1.1
    cases hd : (x k).destructor <;> simp [hd] at hidle ⊢
  · have hladen := (hp k hk.le).1.2
    simp [hscan, htask, Dispatcher.carries] at hladen

/-- A thread assigns an empty function, and the dispatcher hands it over to worker `0`. -/
def oneEmpty (p : Tid) : List (Thread Tid × Micro Tid) :=
  fallAsleep ++ (.producer p, .assignTask true) :: (assigns p).tail ++
  (.dispatcher, .go) :: dequeues ++
    activates

/-- Worker `0` is claimed, and nothing is going on. -/
def claimedForNothing (s : State ℕ) : Bool :=
  (s.destructor matches .idle) && (s.dispatcher matches .drainTest) &&
  (s.workers 0).poolFlag == 1 &&
    (s.workers 0).task == none && (s.workers 0).pc.outside

theorem oneEmpty_claimedForNothing : ((oneEmpty 0).foldlM (step single)
    (fresh (fun _ _ => none) fun _ _ => none)).map claimedForNothing = some true := by
  decide +kernel

/-- An empty function is enough to lose the only worker. -/
theorem worker_lost : ∃ s : State ℕ, (system single).Reachable s ∧ s.destructor = .idle ∧
    (s.workers 0).poolFlag = 1 ∧ ¬ s.Busy 0 ∧ ¬ Back single 0 s := by
  have hinit : (system single).init (fresh (fun _ _ => (none : Fn ℕ)) fun _ _ => none) :=
    ⟨_, _, rfl⟩
  obtain ⟨s, hr, hp⟩ := System.exists_reachable_of_schedule hinit oneEmpty_claimedForNothing
    fun s a _ s' hs => hs
  simp only [claimedForNothing, Bool.and_eq_true, beq_iff_eq] at hp
  obtain ⟨⟨⟨⟨hidle, hd⟩, hpool⟩, htask⟩, hpc⟩ := hp
  have haway : s.grip 0 = .away := by
    refine State.grip_eq_away ?_ 0
    cases hs : s.dispatcher <;> simp [hs, Dispatcher.grip] at hd ⊢
  refine ⟨s, hr, ?_, hpool, ?_, ?_⟩
  · cases hs : s.destructor <;> simp [hs] at hidle ⊢
  · rintro (hg | ht | hsettling)
    · exact hg haway
    · exact ht htask
    · cases hs : (s.workers 0).pc <;> simp [hs, Loop.outside, Loop.settling] at hpc hsettling
  · have hdoomed : Doomed s 0 := ⟨hpool, htask, Or.inl hpc, by simp [haway]⟩
    exact hdoomed.not_back

end AstraLib.ThreadPool
