import AstraLib.ThreadPool.Availability
import AstraLib.ThreadPool.Order
import AstraLib.ThreadPool.Shutdown

/-!
# `ThreadPool`: tasks at shutdown

`~ThreadPool` joins the dispatcher first, and the dispatcher hands the task in its hands over before
it exits.  So from then on the slots do not change hands, and every task that was handed over has
been started or is still in its slot (`Ledger`).

But a worker tests `running` before it looks at its slot.  A worker in `waiter()` runs the
task in its slot and exits afterwards; a worker that is found at `while (running)` exits
and drops it (`Dropped`).  Whether one is found there is the only thing that matters
(`Patient`, `handed_tasks_complete_iff`).

Here functions may be empty, so a worker may also be lost (`Doomed`).
-/

namespace AstraLib.ThreadPool

open Interleaving

variable {Tid : Type}

section Pool

variable [DecidableEq Tid] {cfg : Config} {s s' : State Tid}

/-! ### The slots -/

theorem lastIdDispatched_lt (h : (system cfg).Reachable s) :
    s.lastIdDispatched < cfg.THREAD_COUNT := by
  have hI : (system cfg).IsInvariant
      fun s : State Tid => s.lastIdDispatched < cfg.THREAD_COUNT := by
    constructor
    · rintro s ⟨data, array, rfl⟩
      exact cfg.pos
    · intro s a s' _ ih hstep
      cases step_cases hstep with
      | producer hs => cases hs <;> exact ih
      | dispatcher hs => exact hs.id_lt ih
      | worker hi hw => exact ih
      | destructor hs => cases hs <;> exact ih
  exact hI.reachable h

theorem DispatcherStep.ne_exited (hs : DispatcherStep cfg s s') : s.dispatcher ≠ .exited := by
  cases hs with
  | inside op b q hp => exact fun hd => by rw [hd] at hp; cases hp
  | _ => simp [*]

/-- `~ThreadPool` gets to the workers after the dispatcher has exited. -/
theorem dispatcher_exited (h : (system cfg).Reachable s) (hd : s.destructor.spares = false) :
    s.dispatcher = .exited := by
  have hI : (system cfg).IsInvariant fun s : State Tid =>
      s.destructor.spares = false → s.dispatcher = .exited := by
    constructor
    · rintro s ⟨data, array, rfl⟩ hd
      cases hd
    · intro s a s' _ ih hstep hd
      cases step_cases hstep with
      | producer hs =>
        cases hs with
        | wake hp => exact congrArg Dispatcher.woken (ih hd)
        | _ => exact ih hd
      | dispatcher hs =>
        rw [hs.running.1] at hd
        exact absurd (ih hd) hs.ne_exited
      | worker hi hw => exact ih hd
      | destructor hs =>
        cases hs with
        | join hp hexit => exact hexit
        | workerSet i hp => exact ih (by rw [hp]; rfl)
        | workerStore i hp => exact ih (by rw [hp]; rfl)
        | workerWake i hp => exact ih (by rw [hp]; rfl)
        | workerJoin i hp he => exact ih (by rw [hp]; rfl)
        | _ => cases hd
  exact hI.reachable h hd

theorem spares_of_ne_exited (h : (system cfg).Reachable s) (hd : s.dispatcher ≠ .exited) :
    s.destructor.spares = true := by
  by_contra hspares
  exact hd (dispatcher_exited h (by simpa using hspares))

/-- With empty functions about, a worker is in one of the phases of the hand-off, or it is lost. -/
def Placed (s : State Tid) (i : ℕ) : Prop := Phase (s.grip i) (s.workers i) ∨ Doomed s i

namespace Placed

variable {i : ℕ}

omit [DecidableEq Tid] in
/-- Steps that leave the workers alone. -/
theorem frame (h : Placed s i) (hw : s'.workers = s.workers)
    (hid : s'.lastIdDispatched = s.lastIdDispatched) (hd : s'.dispatcher.grip = s.dispatcher.grip)
    (htask : s'.task = s.task) : Placed s' i := by
  have hgrip := State.grip_congr hid hd i
  refine h.imp (fun hphase => ?_) fun hdoomed => ?_
  · rw [hgrip, hw]
    exact hphase
  · exact hdoomed.frame (by rw [hw]) fun hg => ⟨hgrip ▸ hg, htask⟩

/-- A worker that has been claimed for an empty function is lost. -/
theorem dispatch (h : Placed s i) (hs : DispatcherStep cfg s s') : Placed s' i := by
  rcases h with hphase | hdoomed
  · by_cases hc : s.dispatcher = .write ∧ s.lastIdDispatched = i ∧ s.task = none
    · obtain ⟨hd, hid, htask⟩ := hc
      have hgrip : s.grip i = .write := State.grip_eq_write.2 ⟨hid, hd⟩
      obtain ⟨hpool, hslot, hpc⟩ := (hgrip ▸ hphase).of_write
      have hdoomed : Doomed s i := ⟨hpool, hslot, Or.inl hpc, fun _ => htask⟩
      exact Or.inr (hdoomed.dispatch hs)
    · exact Or.inl (hphase.dispatch (fun hd hid htask => hc ⟨hd, hid, htask⟩) hs)
  · exact Or.inr (hdoomed.dispatch hs)

theorem step (h : Placed s i) (hr : (s.workers i).running = true) {a : Thread Tid × Micro Tid}
    (hs : Step cfg s a s') (hd : s'.destructor.spares = true) : Placed s' i := by
  cases hs with
  | producer hs =>
    cases hs with
    | wake hp => exact h.frame rfl rfl (Dispatcher.woken_grip _) rfl
    | _ => exact h.frame rfl rfl rfl rfl
  | dispatcher hs => exact h.dispatch hs
  | @worker j _ w hj hw =>
    by_cases hij : i = j
    · subst hij
      refine h.imp (fun hphase => ?_) fun hdoomed => hdoomed.work hw
      rw [setWorker_workers_self]
      exact hw.phase hphase hr
    · have hself := setWorker_workers_of_ne s w hij
      refine h.imp (fun hphase => ?_) fun hdoomed => hdoomed.frame hself fun hg => ⟨hg, rfl⟩
      rw [hself]
      exact hphase
  | destructor hs =>
    cases hs with
    | destroy hp => exact h.frame rfl rfl rfl rfl
    | setRunning hp => exact h.frame rfl rfl rfl rfl
    | store hp => exact h.frame rfl rfl rfl rfl
    | wake hp => exact h.frame rfl rfl (Dispatcher.woken_grip _) rfl
    | join hp _ => cases hd
    | workerJoin j hp _ =>
      simp only at hd
      split_ifs at hd <;> cases hd
    | _ => cases hd

theorem reachable (h : (system cfg).Reachable s) (hd : s.destructor.spares = true)
    (i : ℕ) : Placed s i := by
  have hI : (system cfg).IsInvariant
      fun s : State Tid => s.destructor.spares = true → ∀ i, Placed s i := by
    constructor
    · rintro s ⟨data, array, rfl⟩ - i
      have hinit : HandOff cfg (fresh data array) := HandOff.init data array
      exact Or.inl (hinit.phase i rfl)
    · intro s a s' hr ih hstep hd' i
      have hs := step_cases hstep
      obtain ⟨hd, -⟩ := hs.running hd'
      exact (ih hd i).step (workers_running hr hd i) hs hd'
  exact hI.reachable h hd i

omit [DecidableEq Tid] in
/-- The dispatcher writes into an empty slot, before the worker looks at it. -/
theorem of_write (h : Placed s s.lastIdDispatched) (hd : s.dispatcher = .write) :
    s.candidate.task = none ∧ (s.candidate.pc.outside = true ∨ s.candidate.pc = .test ∨
      s.candidate.pc = .exited) := by
  rcases h with hphase | hdoomed
  · rw [State.grip_eq_write.2 ⟨rfl, hd⟩] at hphase
    obtain ⟨-, hslot, hpc⟩ := hphase.of_write
    exact ⟨hslot, Or.inl hpc⟩
  · exact ⟨hdoomed.task, hdoomed.pc⟩

end Placed

/-- A worker that has emptied its slot finds it empty until it is available again. -/
theorem task_eq_none_of_settling (h : (system cfg).Reachable s) (i : ℕ)
    (hpc : (s.workers i).pc = .reset ∨ (s.workers i).pc = .release) :
    (s.workers i).task = none := by
  have hI : (system cfg).IsInvariant fun s : State Tid => ∀ i,
      (s.workers i).pc = .reset ∨ (s.workers i).pc = .release → (s.workers i).task = none := by
    constructor
    · rintro s ⟨data, array, rfl⟩ i -
      rfl
    · intro s a s' hr ih hstep i
      have hwoken : (s.workers i).pc.woken = .reset ∨ (s.workers i).pc.woken = .release →
          (s.workers i).task = none := by
        rintro (hpc | hpc)
        · exact ih i (Or.inl (Loop.eq_of_woken_eq hpc (by simp)))
        · exact ih i (Or.inr (Loop.eq_of_woken_eq hpc (by simp)))
      have htouch := (step_cases hstep).touch i
      generalize s'.workers i = w at htouch ⊢
      cases htouch with
      | own _ hw =>
        cases hw with
        | clear => exact fun _ => rfl
        | reset hp => exact fun _ => ih i (Or.inl hp)
        | _ => simp
      | write _ hp hid =>
        subst hid
        intro hpc
        have hspares := spares_of_ne_exited hr (by rw [hp]; simp)
        obtain ⟨-, hpc'⟩ := (Placed.reachable hr hspares s.lastIdDispatched).of_write hp
        unfold State.candidate at hpc'
        rcases hpc with hpc | hpc <;> simp only at hpc <;> simp [hpc, Loop.outside] at hpc'
      | wake => exact hwoken
      | workerWake => exact hwoken
      | _ => exact ih i
  exact hI.reachable h i hpc

/-! ### The ledger -/

omit [DecidableEq Tid] in
/-- A change of one worker changes one summand. -/
theorem sum_update {n i : ℕ} (hi : i < n) (f : Worker Tid → ℕ) (g : ℕ → Worker Tid)
    (w : Worker Tid) :
    ∑ j ∈ Finset.range n, f (Function.update g i w j) + f (g i) =
      ∑ j ∈ Finset.range n, f (g j) + f w := by
  have hmem : i ∈ Finset.range n := Finset.mem_range.2 hi
  have hnew : ∑ j ∈ Finset.range n, f (Function.update g i w j) =
      f w + ∑ j ∈ Finset.range n \ {i}, f (g j) := by
    simp only [Function.apply_update (fun _ => f)]
    exact Finset.sum_update_of_mem hmem _ _
  have hold := Finset.sum_eq_add_sum_sdiff_singleton_of_mem hmem fun j => f (g j)
  omega

/-- Each task that got a slot has been started or is in the slot, and each task that has
been started runs or has ended. -/
structure Ledger (cfg : Config) (s : State Tid) (l : Log Tid) : Prop where
  slots : ∀ x, l.started.count x + ∑ i ∈ Finset.range cfg.THREAD_COUNT,
    (s.workers i).unstarted.count x =
    (l.activated s.dispatcher).count x
  runs : ∀ x, l.finished.count x +
    ∑ i ∈ Finset.range cfg.THREAD_COUNT, (s.workers i).pc.runs.toList.count x = l.started.count x

namespace Ledger

variable {l l' : Log Tid}

/-- Steps that are about no task. -/
theorem frame (h : Ledger cfg s l) (hw : ∀ i, (s'.workers i).unstarted = (s.workers i).unstarted ∧
      (s'.workers i).pc.runs = (s.workers i).pc.runs)
    (hact : l'.activated s'.dispatcher = l.activated s.dispatcher) (hst : l'.started = l.started)
    (hfin : l'.finished = l.finished) : Ledger cfg s' l' := by
  refine ⟨fun x => ?_, fun x => ?_⟩
  · simp only [hw, hact, hst]
    exact h.slots x
  · simp only [hw, hst, hfin]
    exact h.runs x

/-- A step that changes one worker, but not the task in its slot. -/
theorem touch (h : Ledger cfg s l) {i : ℕ} {w : Worker Tid}
    (hw : s'.workers = Function.update s.workers i w)
    (hunstarted : w.unstarted = (s.workers i).unstarted) (hruns : w.pc.runs = (s.workers i).pc.runs)
    (hact : l'.activated s'.dispatcher = l.activated s.dispatcher) (hst : l'.started = l.started)
    (hfin : l'.finished = l.finished) : Ledger cfg s' l' := by
  refine h.frame ?_ hact hst hfin
  rw [hw]
  apply (Function.forall_update_iff s.workers fun j w =>
    w.unstarted = (s.workers j).unstarted ∧ w.pc.runs = (s.workers j).pc.runs).2
  exact ⟨⟨hunstarted, hruns⟩, fun _ _ => ⟨rfl, rfl⟩⟩

/-- A step that changes one worker. -/
theorem put (h : Ledger cfg s l) {i : ℕ} (hi : i < cfg.THREAD_COUNT) {w : Worker Tid}
    (hw : s'.workers = Function.update s.workers i w)
    (hslots : ∀ x, l'.started.count x + w.unstarted.count x + (l.activated s.dispatcher).count x =
      l.started.count x + (s.workers i).unstarted.count x + (l'.activated s'.dispatcher).count x)
    (hruns : ∀ x, l'.finished.count x + w.pc.runs.toList.count x + l.started.count x =
      l.finished.count x + (s.workers i).pc.runs.toList.count x + l'.started.count x) :
    Ledger cfg s' l' := by
  refine ⟨fun x => ?_, fun x => ?_⟩
  · have hsum := sum_update hi (fun w => w.unstarted.count x) s.workers w
    have hslots := hslots x
    have hold := h.slots x
    rw [hw]
    omega
  · have hsum := sum_update hi (fun w => w.pc.runs.toList.count x) s.workers w
    have hruns := hruns x
    have hold := h.runs x
    rw [hw]
    omega

theorem work (h : Ledger cfg s l) (hr : (system cfg).Reachable s) {i : ℕ}
    (hi : i < cfg.THREAD_COUNT) {w : Worker Tid} {a : Micro Tid} (hw : WorkerStep (s.workers i) w) :
    Ledger cfg (s.setWorker i w) (l.note s (.worker i, a)) := by
  have hact : (l.note s (.worker i, a)).activated s.dispatcher = l.activated s.dispatcher := by
    obtain ⟨-, hact, hh⟩ := l.note_worker s i a
    unfold Log.activated
    rw [hact, hh]
  refine h.put hi rfl (fun x => ?_) fun x => ?_
  · rw [setWorker_dispatcher, hact]
    cases hw with
    | release hp =>
      have hnone := task_eq_none_of_settling hr i (Or.inr hp)
      simp [Log.note, hp, Worker.unstarted, Loop.unstarted, hnone]
    | start t hp ht => simp [Log.note, hp, ht, Worker.unstarted, Loop.unstarted]
    | finish t hp => simp [Log.note, hp, Worker.unstarted, Loop.unstarted]
    | wait g g' hp _ => simp [Log.note, hp, Worker.unstarted, Loop.unstarted]
    | accept t hp _ => simp [Log.note, hp, Worker.unstarted, Loop.unstarted]
    | _ hp => simp [Log.note, hp, Worker.unstarted, Loop.unstarted]
  · cases hw with
    | start t hp ht => simp [Log.note, hp, ht, Loop.runs]; omega
    | finish t hp => simp [Log.note, hp, Loop.runs]
    | wait g g' hp _ => simp [Log.note, hp, Loop.runs]
    | accept t hp _ => simp [Log.note, hp, Loop.runs]
    | _ hp => simp [Log.note, hp, Loop.runs]

theorem dispatch (h : Ledger cfg s l) (hr : (system cfg).Reachable s) {a : Micro Tid}
    (hs : DispatcherStep cfg s s') : Ledger cfg s' (l.note s (.dispatcher, a)) := by
  have hid := lastIdDispatched_lt hr
  -- outside `activateWorker`
  have haway : s'.workers = s.workers → s.dispatcher.grip = .away → s'.dispatcher.grip = .away →
      Ledger cfg s' l := by
    intro hw hg hg'
    refine h.frame (fun i => by rw [hw]; exact ⟨rfl, rfl⟩) ?_ rfl rfl
    simp [Log.activated, hg, hg']
  cases hs with
  | inside op b q hp hcall hret hq =>
    rw [l.note_of_op hp]
    exact h.frame (fun _ => ⟨rfl, rfl⟩) rfl rfl rfl
  | answer k b q hp hb hq =>
    simp only [Log.note, hp]
    exact haway rfl (by rw [hp]; rfl) (by cases k <;> cases b <;> rfl)
  | claim first start hp hpool =>
    simp only [Log.note, hp]
    exact h.touch rfl rfl rfl (by simp [Log.activated, hp, Dispatcher.grip]) rfl rfl
  | write left hp =>
    have hspares := spares_of_ne_exited hr (by rw [hp]; simp)
    obtain ⟨hslot, hpc⟩ := (Placed.reachable hr hspares s.lastIdDispatched).of_write hp
    have hunstarted : s.candidate.pc.unstarted = true := by
      rcases hpc with hpc | hpc | hpc
      · exact Loop.unstarted_of_outside hpc
      · rw [hpc]; rfl
      · rw [hpc]; rfl
    unfold State.candidate at hslot hunstarted
    simp only [Log.note, hp]
    refine h.put hid rfl (fun x => ?_) fun x => by simp [State.candidate]
    simp [Log.activated, hp, Dispatcher.grip, Worker.unstarted, State.candidate, hslot, hunstarted]
    omega
  | store hp =>
    simp only [Log.note, hp]
    exact h.touch rfl rfl rfl (by simp [Log.activated, hp, Dispatcher.grip]) rfl rfl
  | wake hp =>
    simp only [Log.note, hp]
    refine h.touch rfl (Worker.woken_unstarted _) (Loop.woken_runs _) ?_ rfl rfl
    cases hx : l.activating <;> simp [Log.activated, hp, hx, Dispatcher.grip]
  | wait g g' hp hw => simp only [Log.note, hp]; exact haway rfl (by rw [hp]; rfl) rfl
  | take t v q hp hv hq => simp only [Log.note, hp]; exact haway rfl (by rw [hp]; rfl) rfl
  | next first first' start hp hpool =>
    simp only [Log.note, hp]; exact haway rfl (by rw [hp]; rfl) rfl
  | _ hp => simp only [Log.note, hp]; exact haway rfl (by rw [hp]; rfl) rfl

theorem step (h : Ledger cfg s l) (hr : (system cfg).Reachable s) {a : Thread Tid × Micro Tid}
    (hs : Step cfg s a s') : Ledger cfg s' (l.note s a) := by
  cases hs with
  | producer hs =>
    cases hs with
    | inside b => refine h.frame (fun _ => ⟨rfl, rfl⟩) ?_ ?_ ?_ <;> cases b <;> rfl
    | wake =>
      refine h.frame (fun _ => ⟨rfl, rfl⟩) ?_ rfl rfl
      simp only [Log.activated, Dispatcher.woken_grip]
      rfl
    | _ => exact h.frame (fun _ => ⟨rfl, rfl⟩) rfl rfl rfl
  | dispatcher hs => exact h.dispatch hr hs
  | worker hi hw => exact h.work hr hi hw
  | destructor hs =>
    cases hs with
    | wake =>
      refine h.frame (fun _ => ⟨rfl, rfl⟩) ?_ rfl rfl
      simp only [Log.activated, Dispatcher.woken_grip]
      rfl
    | workerSet i => exact h.touch rfl rfl rfl rfl rfl rfl
    | workerStore i => exact h.touch rfl rfl rfl rfl rfl rfl
    | workerWake i => exact h.touch rfl (Worker.woken_unstarted _) (Loop.woken_runs _) rfl rfl rfl
    | _ => exact h.frame (fun _ => ⟨rfl, rfl⟩) rfl rfl rfl

theorem reachable (h : (history Tid cfg).Reachable (s, l)) : Ledger cfg s l := by
  have hI : (history Tid cfg).IsInvariant fun z : State Tid × Log Tid => Ledger cfg z.1 z.2 := by
    constructor
    · rintro ⟨s, l⟩ ⟨⟨data, array, rfl⟩, rfl⟩
      refine ⟨fun x => ?_, fun x => ?_⟩
      · simp [fresh, Worker.fresh, Worker.unstarted, Loop.unstarted, Log.empty, Log.activated,
          Dispatcher.grip]
      · simp [fresh, Worker.fresh, Loop.runs, Log.empty]
    · rintro ⟨s, l⟩ a ⟨s', l'⟩ hs ih ⟨hstep, rfl⟩
      exact ih.step hs.of_log (step_cases hstep)
  exact hI.reachable h

end Ledger

/-! ### The workers leave -/

/-- The worker will not look at its slot again. -/
def Worker.Leaving (w : Worker Tid) : Prop :=
  w.running = false ∧ (w.pc = .loopTest ∨ w.pc = .exited)

omit [DecidableEq Tid] in
theorem Worker.leaving_woken {w : Worker Tid} :
    { w with pc := w.pc.woken }.Leaving ↔ w.Leaving := by
  cases hp : w.pc <;> simp [Worker.Leaving, Loop.woken, hp]

theorem running_of_exited (h : (system cfg).Reachable s) (i : ℕ)
    (hpc : (s.workers i).pc = .exited) : (s.workers i).running = false := by
  have hI : (system cfg).IsInvariant fun s : State Tid =>
      ∀ i, (s.workers i).pc = .exited → (s.workers i).running = false := by
    constructor
    · rintro s ⟨data, array, rfl⟩ i hpc
      cases hpc
    · intro s a s' hr ih hstep i
      have hwoken : (s.workers i).pc.woken = .exited → (s.workers i).running = false := fun hpc =>
        ih i (Loop.eq_of_woken_eq hpc (by simp))
      have htouch := (step_cases hstep).touch i
      generalize s'.workers i = w at htouch ⊢
      cases htouch with
      | own _ hw =>
        cases hw with
        | exit hp hr' => exact fun _ => hr'
        | _ => simp
      | wake => exact hwoken
      | workerSet => exact fun _ => rfl
      | workerWake => exact hwoken
      | _ => exact ih i
  exact hI.reachable h i hpc

/-- Once a worker has been told to stop, the dispatcher is gone. -/
theorem exited_of_not_running (hr : (system cfg).Reachable s) {i : ℕ}
    (h : (s.workers i).running = false) : s.dispatcher = .exited := by
  by_contra hd
  cases h.symm.trans (workers_running hr (spares_of_ne_exited hr hd) i)

/-- A worker that is leaving goes on leaving, and nobody touches its slot. -/
theorem Step.leaving (hr : (system cfg).Reachable s) {a : Thread Tid × Micro Tid}
    (hs : Step cfg s a s') {i : ℕ} (h : (s.workers i).Leaving) :
    (s'.workers i).Leaving ∧ (s'.workers i).task = (s.workers i).task := by
  obtain ⟨hrun, hpc⟩ := h
  have hexit := exited_of_not_running hr hrun
  have htouch := hs.touch i
  generalize s'.workers i = w at htouch ⊢
  cases htouch with
  | own _ hw =>
    cases hw with
    | enter hp hr' => cases hrun.symm.trans hr'
    | exit hp hr' => exact ⟨⟨hr', Or.inr rfl⟩, rfl⟩
    | wait g g' hp _ => simp [hp] at hpc
    | accept t hp _ => simp [hp] at hpc
    | start t hp _ => simp [hp] at hpc
    | finish t hp => simp [hp] at hpc
    | _ hp => simp [hp] at hpc
  | claim first start _ hp => cases hexit.symm.trans hp
  | write _ hp => cases hexit.symm.trans hp
  | store _ hp => cases hexit.symm.trans hp
  | wake _ hp => cases hexit.symm.trans hp
  | workerWake => exact ⟨Worker.leaving_woken.2 ⟨hrun, hpc⟩, rfl⟩
  | workerSet => exact ⟨⟨rfl, hpc⟩, rfl⟩
  | _ => exact ⟨⟨hrun, hpc⟩, rfl⟩

/-- A worker starts to leave with an empty slot, or because it is told to stop where
it tests `running`. -/
theorem Step.leaving_inv (hr : (system cfg).Reachable s) {a : Thread Tid × Micro Tid}
    (hs : Step cfg s a s') {i : ℕ} (h : ¬ (s.workers i).Leaving) (h' : (s'.workers i).Leaving) :
    (s'.workers i).task = none ∨ (s'.workers i).task = (s.workers i).task ∧ a.1 = .destructor ∧
      s.destructor = .workerSet i ∧ (s.workers i).pc = .loopTest := by
  have hgone : (s.workers i).running = false → s.dispatcher = .exited := exited_of_not_running hr
  have htouch := hs.touch i
  generalize s'.workers i = w at htouch h' ⊢
  cases htouch with
  | same => exact absurd h' h
  | own _ hw =>
    cases hw with
    | enter hp hr' => cases h'.1.symm.trans hr'
    | exit hp hr' => exact absurd ⟨hr', Or.inl hp⟩ h
    | skip hp ht => exact Or.inl ht
    | release hp => exact Or.inl (task_eq_none_of_settling hr i (Or.inr hp))
    | _ => simp [Worker.Leaving] at h'
  | claim first start _ hp => cases (hgone h'.1).symm.trans hp
  | write _ hp => cases (hgone h'.1).symm.trans hp
  | store _ hp => cases (hgone h'.1).symm.trans hp
  | wake _ hp => cases (hgone h'.1).symm.trans hp
  | workerSet hθ hp =>
    obtain ⟨-, hpc | hpc⟩ := h'
    · exact Or.inr ⟨rfl, hθ, hp, hpc⟩
    · exact absurd ⟨running_of_exited hr i hpc, Or.inr hpc⟩ h
  | workerStore => exact absurd h' h
  | workerWake => exact absurd (Worker.leaving_woken.1 h') h

theorem Step.leaving_of_workerSet {a : Thread Tid × Micro Tid} (hs : Step cfg s a s') {i : ℕ}
    (ha : a.1 = .destructor) (hd : s.destructor = .workerSet i)
    (hpc : (s.workers i).pc = .loopTest) :
    (s'.workers i).Leaving ∧ (s'.workers i).task = (s.workers i).task := by
  cases hs with
  | destructor hs =>
    cases hs with
    | workerSet j hp =>
      obtain rfl : i = j := Destructor.workerSet.inj (hd.symm.trans hp)
      exact ⟨⟨by simp [State.setWorker], Or.inl (by simpa [State.setWorker] using hpc)⟩,
        by simp [State.setWorker]⟩
    | workerStore j hp => cases hd.symm.trans hp
    | workerWake j hp => cases hd.symm.trans hp
    | workerJoin j hp => cases hd.symm.trans hp
    | _ hp => cases hd.symm.trans hp
  | _ => cases ha

theorem Step.exited {a : Thread Tid × Micro Tid} (hs : Step cfg s a s') {i : ℕ}
    (h : (s.workers i).pc = .exited) : (s'.workers i).pc = .exited := by
  have htouch := hs.touch i
  generalize s'.workers i = w at htouch ⊢
  cases htouch with
  | own _ hw =>
    cases hw with
    | wait g g' hp _ => cases h.symm.trans hp
    | accept t hp _ => cases h.symm.trans hp
    | start t hp _ => cases h.symm.trans hp
    | finish t hp => cases h.symm.trans hp
    | _ hp => cases h.symm.trans hp
  | wake => exact congrArg Loop.woken h
  | workerWake => exact congrArg Loop.woken h
  | _ => exact h

/-- The workers that have been joined have exited. -/
structure Joined (cfg : Config) (s : State Tid) : Prop where
  lt : ∀ i, s.destructor.worker = some i → i < cfg.THREAD_COUNT
  exited : ∀ i < cfg.THREAD_COUNT, s.destructor = .done ∨ (∃ j < i, s.destructor.worker = some j) →
    (s.workers i).pc = .exited

namespace Joined

theorem frame (h : Joined cfg s) {a : Thread Tid × Micro Tid} (hs : Step cfg s a s')
    (hd : s'.destructor.worker = s.destructor.worker)
    (hdone : s'.destructor = .done → s.destructor = .done) : Joined cfg s' := by
  refine ⟨fun i hi => h.lt i (hd ▸ hi), fun i hi hpast => hs.exited (h.exited i hi ?_)⟩
  rw [hd] at hpast
  exact hpast.imp hdone id

theorem step (h : Joined cfg s) {a : Thread Tid × Micro Tid}
    (hs : Step cfg s a s') : Joined cfg s' := by
  have hquiet : s'.destructor = s.destructor → Joined cfg s' :=
    fun hd => h.frame hs (by rw [hd]) (by rw [hd]; exact id)
  have hs' := hs
  cases hs with
  | producer hp => cases hp <;> exact hquiet rfl
  | dispatcher hp => exact hquiet hp.running.1
  | worker hi hw => exact hquiet rfl
  | destructor hp =>
    cases hp with
    | join hp _ =>
      refine ⟨fun i hi => ?_, fun i hi hpast => ?_⟩
      · have := cfg.pos
        cases hi
        omega
      · rcases hpast with hpast | ⟨j, hj, hpast⟩
        · cases hpast
        · cases hpast
          omega
    | workerJoin i hp he =>
      have hlt : i < cfg.THREAD_COUNT := h.lt i (by rw [hp]; rfl)
      refine ⟨fun j hj => ?_, fun j hj hpast => ?_⟩
      · split_ifs at hj with h0
        · cases hj
        · simp only [Destructor.worker, Option.some.injEq] at hj
          omega
      · by_cases hji : j = i
        · subst hji
          exact he
        · refine h.exited j hj (Or.inr ⟨i, ?_, by rw [hp]; rfl⟩)
          split_ifs at hpast with h0
          · omega
          · rcases hpast with hpast | ⟨k, hk, hpast⟩
            · cases hpast
            · simp only [Destructor.worker, Option.some.injEq] at hpast
              omega
    | workerSet i hp => exact h.frame hs' (by rw [hp]; rfl) (by simp)
    | workerStore i hp => exact h.frame hs' (by rw [hp]; rfl) (by simp)
    | workerWake i hp => exact h.frame hs' (by rw [hp]; rfl) (by simp)
    | _ hp => exact h.frame hs' (by rw [hp]; rfl) (by simp)

theorem reachable (h : (system cfg).Reachable s) : Joined cfg s := by
  have hI : (system cfg).IsInvariant (Joined cfg : State Tid → Prop) := by
    constructor
    · rintro s ⟨data, array, rfl⟩
      exact ⟨by simp [fresh, Destructor.worker], by simp [fresh, Destructor.worker]⟩
    · intro s a s' _ ih hstep
      exact ih.step (step_cases hstep)
  exact hI.reachable h

end Joined

/-! ### The exact condition -/

/-- No worker is told to stop where it tests `running`, with a task in its slot. -/
def Patient (s : State Tid) (a : Thread Tid × Micro Tid) : Prop :=
  ∀ i, a.1 = .destructor → s.destructor = .workerSet i → (s.workers i).pc = .loopTest →
    (s.workers i).task = none

theorem slot_empty_of_patient (h : ((system cfg).restrict Patient).Reachable s) {i : ℕ}
    (hleave : (s.workers i).Leaving) : (s.workers i).task = none := by
  have hI : ((system cfg).restrict Patient).IsInvariant fun s : State Tid =>
      ∀ i, (s.workers i).Leaving → (s.workers i).task = none := by
    constructor
    · rintro s ⟨data, array, rfl⟩ i -
      rfl
    · rintro s a s' hr ih ⟨hpatient, hstep⟩ i hleave
      have hs := step_cases hstep
      by_cases hold : (s.workers i).Leaving
      · rw [(hs.leaving hr.of_restrict hold).2]
        exact ih i hold
      · rcases hs.leaving_inv hr.of_restrict hold hleave with hnone | ⟨htask, ha, hd, hpc⟩
        · exact hnone
        · rw [htask]
          exact hpatient i ha hd hpc
  exact hI.reachable h i hleave

omit [DecidableEq Tid] in
theorem activated_of_exited {l : Log Tid} (hd : s.dispatcher = .exited) :
    l.activated s.dispatcher = l.handed.map Prod.snd := by
  simp [Log.activated, hd, Dispatcher.grip]

/-- The books at the end of `~ThreadPool`. -/
theorem count_of_done {l : Log Tid} (h : (history Tid cfg).Reachable (s, l))
    (hdone : s.destructor = .done) (x : Task Tid) :
    l.finished.count x = l.started.count x ∧ (l.handed.map Prod.snd).count x ≤ 1 ∧
    l.started.count x + ∑ i ∈ Finset.range cfg.THREAD_COUNT, (s.workers i).task.toList.count x =
      (l.handed.map Prod.snd).count x := by
  have hledger := Ledger.reachable h
  have hexit : ∀ i ∈ Finset.range cfg.THREAD_COUNT, (s.workers i).pc = .exited := fun i hi =>
    (Joined.reachable h.of_log).exited i (Finset.mem_range.1 hi) (Or.inl hdone)
  have hact : l.activated s.dispatcher = l.handed.map Prod.snd :=
    activated_of_exited (dispatcher_exited h.of_log (by rw [hdone]; rfl))
  refine ⟨?_, ?_, ?_⟩
  · rw [← hledger.runs x, Finset.sum_eq_zero, Nat.add_zero]
    intro i hi
    simp [hexit i hi, Loop.runs]
  · have hinit := activated_isPrefix h
    rw [hact] at hinit
    exact List.nodup_iff_count_le_one.1 (hinit.sublist.nodup (Named.reachable h).nodup) x
  · rw [← hact, ← hledger.slots x]
    congr 1
    refine Finset.sum_congr rfl fun i hi => ?_
    simp [Worker.unstarted, hexit i hi, Loop.unstarted]

/-- A task in the slot of a worker that is leaving is lost. -/
theorem dropped {x : ℕ → State Tid} {a : ℕ → Thread Tid × Micro Tid} {n k : ℕ}
    (hrun : (system cfg).Run x a n) {i : ℕ} {t : Task Tid} (hk : k ≤ n)
    (hleave : ((x k).workers i).Leaving) (ht : ((x k).workers i).task = some t) :
    ((x n).workers i).task = some t := by
  have hkeep : ∀ m ≤ n, k ≤ m → ((x m).workers i).Leaving ∧ ((x m).workers i).task = some t := by
    intro m hm hkm
    induction m, hkm using Nat.le_induction with
    | base => exact ⟨hleave, ht⟩
    | succ m _ ih =>
      obtain ⟨hleave', ht'⟩ := ih (by omega)
      obtain ⟨h1, h2⟩ := (step_cases (hrun.step m hm)).leaving (hrun.reachable m (by omega)) hleave'
      exact ⟨h1, h2.trans ht'⟩
  exact (hkeep n le_rfl hk).2

/-- **Which tasks shutdown drops.** Take any run at the end of which `~ThreadPool` has returned.
Then every task that was handed over to a worker has been executed exactly once, if and only if no
worker was told to stop while it was at `while (running)` with a task in its slot. -/
theorem handed_tasks_complete_iff {x : ℕ → State Tid × Log Tid} {a : ℕ → Thread Tid × Micro Tid}
    {n : ℕ} (hrun : (history Tid cfg).Run x a n) (hdone : (x n).1.destructor = .done) :
    (∀ i t, (i, t) ∈ (x n).2.handed → (x n).2.started.count t = 1 ∧ (x n).2.finished.count t = 1) ↔
    ∀ k < n, Patient (x k).1 (a k) := by
  have hbooks := count_of_done (hrun.reachable n le_rfl) hdone
  have hrun' := hrun.of_log
  have hjoined := Joined.reachable (hrun'.reachable n le_rfl)
  constructor
  · intro hall k hk i ha hd hpc
    by_contra hne
    obtain ⟨t, ht⟩ := Option.ne_none_iff_exists'.1 hne
    have hi : i < cfg.THREAD_COUNT :=
      (Joined.reachable (hrun'.reachable k hk.le)).lt i (by rw [hd]; rfl)
    -- the worker leaves without its task
    obtain ⟨hleave, htask⟩ := (step_cases (hrun'.step k hk)).leaving_of_workerSet ha hd hpc
    have hlost := dropped hrun' hk hleave (htask.trans ht)
    obtain ⟨-, hle, hsum⟩ := hbooks t
    have hslot : 1 ≤ ∑ i ∈ Finset.range cfg.THREAD_COUNT,
        ((x n).1.workers i).task.toList.count t := by
      calc 1 = ((x n).1.workers i).task.toList.count t := by simp [hlost]
        _ ≤ _ := Finset.single_le_sum (f := fun i => ((x n).1.workers i).task.toList.count t)
          (fun _ _ => Nat.zero_le _) (Finset.mem_range.2 hi)
    have hmem : t ∈ (x n).2.handed.map Prod.snd := List.count_pos_iff.1 (by omega)
    obtain ⟨⟨j, _⟩, hj, rfl⟩ := List.mem_map.1 hmem
    have hone := (hall j _ hj).1
    simp only at hle hsum hslot
    omega
  · intro hpatient i t hmem
    have hr := hrun'.reachable_restrict le_rfl hpatient
    obtain ⟨hfin, hle, hsum⟩ := hbooks t
    have hslots :
        ∑ i ∈ Finset.range cfg.THREAD_COUNT, ((x n).1.workers i).task.toList.count t = 0 := by
      refine Finset.sum_eq_zero fun j hj => ?_
      have hexit := hjoined.exited j (Finset.mem_range.1 hj) (Or.inl hdone)
      have hnone := slot_empty_of_patient hr (i := j)
        ⟨running_of_exited (hrun'.reachable n le_rfl) j hexit, Or.inr hexit⟩
      simp [hnone]
    have hpos : 0 < ((x n).2.handed.map Prod.snd).count t :=
      List.count_pos_iff.2 (List.mem_map.2 ⟨(i, t), hmem, rfl⟩)
    omega

end Pool

/-- The dispatcher finds the queue empty twice, and exits. -/
def dispatcherExits : List (Thread Tid × Micro Tid) :=
  [(.dispatcher, .call), (.dispatcher, .queue .loadWrite), (.dispatcher, .queue .loadRead),
   (.dispatcher, .ret), (.dispatcher, .go), (.dispatcher, .call), (.dispatcher, .queue .loadWrite),
   (.dispatcher, .queue .loadRead), (.dispatcher, .ret), (.dispatcher, .go)]

/-- The pool is destroyed while worker `0` is on its way out of `waiter()` with a task
in its slot. -/
def destroyWhileWaking : List (Thread ℕ × Micro ℕ) :=
  oneTask 0 ++ destroys ++ dispatcherExits ++ goesOn .destructor 2 ++ goesOn (.worker 0) 8 ++
    goesOn .destructor 3

/-- `~Worker` is patient with the worker, and at the end `~ThreadPool` has returned. -/
def patientCheck (k : ℕ) (z : State ℕ × Log ℕ) : Bool :=
  (!decide (z.1.destructor = .workerSet 0) || !((z.1.workers 0).pc matches .loopTest)) &&
    (k != destroyWhileWaking.length || z.1.destructor == .done && z.2.handed == [(0, (0, 0))])

theorem destroyWhileWaking_patientCheck : ∀ k ≤ destroyWhileWaking.length,
    ((destroyWhileWaking.take k).foldlM loggedStep
      (fresh (fun _ _ => none) fun _ _ => none, Log.empty)).map (patientCheck k) = some true := by
  decide +kernel

theorem loggedStep_history {q q' : State ℕ × Log ℕ} {a : Thread ℕ × Micro ℕ}
    (h : loggedStep q a = some q') : (history ℕ single).step q a q' := by
  obtain ⟨s, hs, rfl⟩ := Option.map_eq_some_iff.1 h
  exact ⟨hs, rfl⟩

theorem handed_tasks_complete_destroyWhileWaking : ∃ z : State ℕ × Log ℕ, z.1.destructor = .done ∧
    z.2.handed = [(0, (0, 0))] ∧
    ∀ i t, (i, t) ∈ z.2.handed → z.2.started.count t = 1 ∧ z.2.finished.count t = 1 := by
  have hinit : (history ℕ single).init (fresh (fun _ _ => none) fun _ _ => none, Log.empty) :=
    ⟨⟨_, _, rfl⟩, rfl⟩
  obtain ⟨x, hx, hp⟩ :=
    System.exists_run_of_checks hinit (.dispatcher, .go) destroyWhileWaking_patientCheck
    fun _ _ _ _ => loggedStep_history
  simp only [patientCheck, Bool.and_eq_true] at hp
  obtain ⟨hdone, hhanded⟩ : (x destroyWhileWaking.length).1.destructor = .done ∧
      (x destroyWhileWaking.length).2.handed = [(0, (0, 0))] := by
    simpa using (hp _ le_rfl).2
  refine ⟨_, hdone, hhanded, (handed_tasks_complete_iff hx hdone).2 fun k hk i _ hd hpc => ?_⟩
  -- there is no other worker than worker `0`
  have hi : i < single.THREAD_COUNT :=
    (Joined.reachable (hx.of_log.reachable k hk.le)).lt i (by rw [hd]; rfl)
  obtain rfl : i = 0 := Nat.lt_one_iff.1 hi
  simpa [hd, hpc] using (hp k hk.le).1

/-- The pool is destroyed before worker `0` has taken its first step, with a task in its slot. -/
def destroyBeforeStart : List (Thread ℕ × Micro ℕ) :=
  assigns 0 ++ goesOn .dispatcher 2 ++ dequeues ++ activates ++ destroys ++ dispatcherExits ++
    goesOn .destructor 2 ++ goesOn (.worker 0) 1 ++ goesOn .destructor 3

/-- `~ThreadPool` has returned, and the task that was handed over has not been started. -/
def droppedHanded (z : State ℕ × Log ℕ) : Bool :=
  z.1.destructor == .done && z.2.handed == [(0, (0, 0))] && z.2.started == []

theorem destroyBeforeStart_droppedHanded : (destroyBeforeStart.foldlM loggedStep
    (fresh (fun _ _ => none) fun _ _ => none, Log.empty)).map droppedHanded = some true := by
  decide +kernel

/-- A task that was handed over is dropped at shutdown. -/
theorem handed_task_dropped : ∃ z : State ℕ × Log ℕ, (history ℕ single).Reachable z ∧
    z.1.destructor = .done ∧ (0, (0, 0)) ∈ z.2.handed ∧ z.2.started.count (0, 0) = 0 := by
  have hinit : (history ℕ single).init (fresh (fun _ _ => none) fun _ _ => none, Log.empty) :=
    ⟨⟨_, _, rfl⟩, rfl⟩
  obtain ⟨z, hr, hp⟩ := System.exists_reachable_of_schedule hinit destroyBeforeStart_droppedHanded
    fun _ _ _ _ => loggedStep_history
  simp only [droppedHanded, Bool.and_eq_true, beq_iff_eq] at hp
  obtain ⟨⟨hdone, hhanded⟩, hstarted⟩ := hp
  exact ⟨z, hr, hdone, by simp [hhanded], by simp [hstarted]⟩

end AstraLib.ThreadPool
