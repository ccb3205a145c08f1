import AstraLib.ThreadPool.Tasks
import AstraLib.ThreadPool.Wakeup

/-!
# `ThreadPool`: the destructor does not hang

`~ThreadPool` clears `running`, opens the gate of the dispatcher and joins it, and then does the
same with each worker.  Both kinds of threads close that very gate themselves.  But they go through
the test of `running` before they wait for it again, so whoever is found in `waiter()` afterwards
has been there since before the gate was opened (`DispatcherStops`, `WorkerStops`).

A thread is stuck if all it can do is to repeat a test that has just failed (`State.Retries`).  The
dispatcher may have to wait for a worker that is busy, and that worker is not stuck; and its dequeue
does not spin, since every ticket that it takes belongs to an enqueue that has returned.
-/

namespace AstraLib.ThreadPool

open Interleaving

variable {Tid : Type}

/-- The pool is destroyed once, after all calls of `assignTask` have returned, and no
function is empty. -/
def Orderly (s : State Tid) : Thread Tid × Micro Tid → Prop
  | (.producer _, .assignTask empty) => empty = false ∧ s.destructor = .idle
  | (.destructor, .destroy) => ∀ p, s.producer p = .idle
  | _ => True

instance [Fintype Tid] (s : State Tid) : (a : Thread Tid × Micro Tid) → Decidable (Orderly s a)
  | (.producer _, .assignTask empty) =>
      inferInstanceAs (Decidable (empty = false ∧ s.destructor = .idle))
  | (.destructor, .destroy) => inferInstanceAs (Decidable (∀ p, s.producer p = .idle))
  | (.producer _, .destroy) | (.producer _, .go) | (.producer _, .spurious) | (.producer _, .call)
  | (.producer _, .queue _) | (.producer _, .ret) | (.producer _, .move _)
  | (.dispatcher, _) | (.worker _, _)
  | (.destructor, .assignTask _) | (.destructor, .go) | (.destructor, .spurious) |
      (.destructor, .call)
  | (.destructor, .queue _) | (.destructor, .ret) | (.destructor, .move _) => .isTrue trivial

theorem Orderly.nonEmpty {s : State Tid} {a : Thread Tid × Micro Tid} (h : Orderly s a) :
    NonEmpty s a := by
  rintro p rfl
  cases h.1

/-! ### Stuck threads -/

/-- The next step of `waiter()` waits, or wakes up for nothing. -/
def Waiter.Retries (flag : ℕ) : Waiter → Prop
  | .load => flag ≠ 1
  | .wait => flag = 0
  | .asleep => True

/-- All that the thread can do next is to repeat a test that fails, or to wait. -/
def State.Retries (s : State Tid) : Thread Tid → Prop
  | .producer p => s.queue.Spins taskQueueConfig (.producer p)
  | .dispatcher =>
      s.queue.Spins taskQueueConfig .dispatcher ∨
      (∃ g, s.dispatcher = .waiter g ∧ g.Retries s.taskFlag) ∨
      (∃ first start, s.dispatcher = .scan first start ∧ s.candidate.poolFlag ≠ 0)
  | .worker i => ∃ g, (s.workers i).pc = .waiter g ∧ g.Retries (s.workers i).flag
  | .destructor => False

/-- The thread can take a step that is not a retry. -/
def State.Moves [DecidableEq Tid] (cfg : Config) (s : State Tid) (θ : Thread Tid) : Prop :=
  ¬ s.Retries θ ∧ ∃ a s', step cfg s (θ, a) = some s'

/-! ### The dispatcher -/

/-- How far `~ThreadPool` is. -/
def Destructor.stage : Destructor → ℕ
  | .idle => 0
  | .setRunning => 1
  | .store => 2
  | .wake => 3
  | .join => 4
  | _ => 5

/-- The dispatcher is on its way out. -/
structure DispatcherStops (s : State Tid) : Prop where
  running : 2 ≤ s.destructor.stage → s.running = false
  flag : 3 ≤ s.destructor.stage → ∀ g, s.dispatcher = .waiter g → s.taskFlag = 1
  awake : 4 ≤ s.destructor.stage → s.dispatcher ≠ .waiter .asleep

namespace DispatcherStops

variable {s s' : State Tid}

theorem frame (h : DispatcherStops s)
    (hst : s'.destructor.stage = s.destructor.stage ∨ 4 ≤ s.destructor.stage)
    (hr : s'.running = s.running)
    (hd : (s'.dispatcher = s.dispatcher ∧ (s'.taskFlag = s.taskFlag ∨ s'.taskFlag = 1)) ∨
      ∀ g, s'.dispatcher ≠ .waiter g) : DispatcherStops s' := by
  refine ⟨fun hle => ?_, fun hle g hg => ?_, fun hle hg => ?_⟩
  · rw [hr]
    exact h.running (by omega)
  · rcases hd with ⟨hd, hf⟩ | hd
    · exact hf.elim (fun hf => hf.trans (h.flag (by omega) g (hd ▸ hg))) id
    · exact absurd hg (hd g)
  · rcases hd with ⟨hd, -⟩ | hd
    · exact h.awake (by omega) (hd ▸ hg)
    · exact hd _ hg

/-- A wake-up of the dispatcher. -/
theorem woken (h : DispatcherStops s) (hr : s'.running = s.running) (hf : s'.taskFlag = s.taskFlag)
    (hd : s'.dispatcher = s.dispatcher.woken)
    (hst : s'.destructor.stage = s.destructor.stage ∨ 3 ≤ s.destructor.stage) :
    DispatcherStops s' := by
  refine ⟨fun hle => ?_, fun hle g hg => ?_, fun _ hg => ?_⟩
  · rw [hr]
    exact h.running (by omega)
  · rw [hd] at hg
    rw [hf]
    cases hs : s.dispatcher with
    | waiter g' => exact h.flag (by omega) g' hs
    | _ => rw [hs] at hg; cases hg
  · rw [hd] at hg
    exact s.dispatcher.woken_ne_asleep hg

variable [DecidableEq Tid] {cfg : Config}

theorem step (h : DispatcherStops s) {a : Thread Tid × Micro Tid} (hs : Step cfg s a s') :
    DispatcherStops s' := by
  cases hs with
  | worker hi hw => exact h.frame (Or.inl rfl) rfl (Or.inl ⟨rfl, Or.inl rfl⟩)
  | producer hs =>
    cases hs with
    | store hp => exact h.frame (Or.inl rfl) rfl (Or.inl ⟨rfl, Or.inr rfl⟩)
    | wake hp => exact h.woken rfl rfl rfl (Or.inl rfl)
    | _ => exact h.frame (Or.inl rfl) rfl (Or.inl ⟨rfl, Or.inl rfl⟩)
  | dispatcher hs =>
    cases hs with
    | enter hp hr =>
      -- it can only be here before `running` is cleared
      have hlt : ¬ 2 ≤ s.destructor.stage := fun hle => by cases hr.symm.trans (h.running hle)
      exact ⟨fun hle => absurd hle hlt, fun hle => absurd (le_trans (by decide) hle) hlt,
        fun hle => absurd (le_trans (by decide) hle) hlt⟩
    | wait g g' hp hw =>
      refine ⟨h.running, fun hle _ _ => h.flag hle g hp, fun hle hg => ?_⟩
      have hf := h.flag (le_trans (by decide) hle) g hp
      cases hw with
      | sleep hz => rw [hf] at hz; cases hz
      | _ => cases hg
    | inside op b q hp hcall hret hq => exact h.frame (Or.inl rfl) rfl (Or.inl ⟨rfl, Or.inl rfl⟩)
    | answer k b q hp hb hq =>
      exact h.frame (Or.inl rfl) rfl (Or.inr (by cases k <;> cases b <;> simp [Check.next]))
    | _ => exact h.frame (Or.inl rfl) rfl (Or.inr (by simp))
  | destructor hs =>
    have hlate : ∀ d : Destructor, s.destructor = d → d.stage = 5 → 4 ≤ s.destructor.stage := by
      rintro d rfl hd
      omega
    cases hs with
    | destroy hp =>
      exact ⟨by simp [Destructor.stage], by simp [Destructor.stage], by simp [Destructor.stage]⟩
    | setRunning hp => exact ⟨fun _ => rfl, by simp [Destructor.stage], by simp [Destructor.stage]⟩
    | store hp => exact ⟨fun _ => h.running (by rw [hp]; exact le_rfl), fun _ _ _ => rfl,
        by simp [Destructor.stage]⟩
    | wake hp => exact h.woken rfl rfl rfl (Or.inr (by rw [hp]; exact le_rfl))
    | join hp hd =>
      exact h.frame (Or.inr (by rw [hp]; exact le_rfl)) rfl (Or.inl ⟨rfl, Or.inl rfl⟩)
    | _ i hp => exact h.frame (Or.inr (hlate _ hp rfl)) rfl (Or.inl ⟨rfl, Or.inl rfl⟩)

theorem reachable (h : (system cfg).Reachable s) : DispatcherStops s := by
  have hI : (system cfg).IsInvariant (DispatcherStops : State Tid → Prop) := by
    constructor
    · rintro s ⟨data, array, rfl⟩
      exact ⟨by simp [fresh, Destructor.stage], by simp [fresh, Destructor.stage], by simp [fresh]⟩
    · intro s a s' _ ih hstep
      exact ih.step (step_cases hstep)
  exact hI.reachable h

end DispatcherStops

/-! ### The workers -/

/-- Worker `i` is on its way out. -/
structure WorkerStops (d : Destructor) (i : ℕ) (w : Worker Tid) : Prop where
  flag : d = .workerWake i ∨ d = .workerJoin i → ∀ g, w.pc = .waiter g → w.flag = 1
  awake : d = .workerJoin i → w.pc ≠ .waiter .asleep
  call : w.pc = .call → w.task ≠ none

namespace WorkerStops

variable {d d' : Destructor} {i : ℕ} {w w' : Worker Tid}

theorem step (h : WorkerStops d i w) (hs : WorkerStep w w')
    (hr : d.destroys = some i → w.running = false) : WorkerStops d i w' := by
  have hrun : d = .workerWake i ∨ d = .workerJoin i → w.running = false := by
    rintro (rfl | rfl) <;> exact hr rfl
  cases hs with
  | enter hp hr' =>
    refine ⟨fun hd => ?_, fun _ => (by simp), by simp⟩
    cases hr'.symm.trans (hrun hd)
  | wait g g' hp hw =>
    refine ⟨fun hd _ _ => h.flag hd g hp, fun hd hg => ?_, by simp⟩
    have hf := h.flag (Or.inr hd) g hp
    cases hw with
    | sleep hz => rw [hf] at hz; cases hz
    | _ => cases hg
  | accept t hp ht => exact ⟨fun _ => (by simp), fun _ => (by simp), fun _ => by simp [ht]⟩
  | _ => exact ⟨fun _ => (by simp), fun _ => (by simp), by simp⟩

/-- The destructor is not waiting for this worker. -/
theorem of_ne (hd : d ≠ .workerWake i ∧ d ≠ .workerJoin i) (hcall : w.pc = .call → w.task ≠ none) :
    WorkerStops d i w :=
  ⟨fun h => absurd h (not_or.2 hd), fun h => absurd h hd.2, hcall⟩

/-- The dispatcher changes the worker. -/
theorem touch (h : WorkerStops d i w) (hpc : w'.pc = w.pc) (hf : w'.flag = w.flag ∨ w'.flag = 1)
    (ht : w.task ≠ none → w'.task ≠ none) : WorkerStops d i w' := by
  refine ⟨fun hd g hg => ?_, fun hd => hpc ▸ h.awake hd, fun hc => ht (h.call (hpc ▸ hc))⟩
  exact hf.elim (fun hf => hf.trans (h.flag hd g (hpc ▸ hg))) id

/-- A wake-up of the worker. -/
theorem woken (h : WorkerStops d i w) (hd : d' = d ∨ d = .workerWake i) :
    WorkerStops d' i { w with pc := w.pc.woken } := by
  refine ⟨fun hd' g hg => ?_, fun _ => w.pc.woken_ne_asleep,
    fun hc => h.call (Loop.eq_of_woken_eq hc (by simp))⟩
  have hd₀ : d = .workerWake i ∨ d = .workerJoin i := by
    rcases hd with rfl | rfl
    · exact hd'
    · exact Or.inl rfl
  cases hp : w.pc with
  | waiter g' => exact h.flag hd₀ g' hp
  | _ => simp [hp, Loop.woken] at hg

end WorkerStops

/-- The worker that `~ThreadPool` is about to destroy, or is destroying. -/
def Destructor.worker : Destructor → Option ℕ
  | .workerSet i | .workerStore i | .workerWake i | .workerJoin i => some i
  | _ => none

/-- All workers are on their way out when their turn comes. -/
structure WorkersStop (cfg : Config) (s : State Tid) : Prop where
  lt : ∀ i, s.destructor.worker = some i → i < cfg.THREAD_COUNT
  stops : ∀ i, WorkerStops s.destructor i (s.workers i)

namespace WorkersStop

variable {cfg : Config} {s s' : State Tid}

/-- A step that changes one worker. -/
theorem put (h : WorkersStop cfg s) {i : ℕ} {w : Worker Tid} (hd : s'.destructor = s.destructor)
    (hw : s'.workers = Function.update s.workers i w) (hs : WorkerStops s.destructor i w) :
    WorkersStop cfg s' := by
  refine ⟨hd ▸ h.lt, ?_⟩
  rw [hd, hw]
  apply (Function.forall_update_iff s.workers fun j w => WorkerStops s.destructor j w).2
  exact ⟨hs, fun j _ => h.stops j⟩

/-- A step of the destructor that does not change the workers. -/
theorem advance (h : WorkersStop cfg s) (hw : s'.workers = s.workers)
    (hlt : ∀ i, s'.destructor.worker = some i → i < cfg.THREAD_COUNT)
    (hd : ∀ i, s'.destructor ≠ .workerWake i ∧ s'.destructor ≠ .workerJoin i) :
    WorkersStop cfg s' := by
  refine ⟨hlt, fun i => ?_⟩
  rw [hw]
  exact .of_ne (hd i) (h.stops i).call

/-- A step of `~Worker` on worker `i`. -/
theorem destroy (h : WorkersStop cfg s) {i : ℕ} {w : Worker Tid}
    (hw : s'.workers = Function.update s.workers i w)
    (hlt : ∀ j, s'.destructor.worker = some j → j < cfg.THREAD_COUNT)
    (hd : ∀ j, j ≠ i → s'.destructor ≠ .workerWake j ∧ s'.destructor ≠ .workerJoin j)
    (hstop : WorkerStops s'.destructor i w) : WorkersStop cfg s' := by
  refine ⟨hlt, ?_⟩
  rw [hw]
  apply (Function.forall_update_iff s.workers fun j w => WorkerStops s'.destructor j w).2
  exact ⟨hstop, fun j hji => .of_ne (hd j hji) (h.stops j).call⟩

variable [DecidableEq Tid]

theorem step (h : WorkersStop cfg s) (hf : Filled s) (ho : HandOff cfg s)
    {a : Thread Tid × Micro Tid} (hs : Step cfg s a s') : WorkersStop cfg s' := by
  cases hs with
  | @worker i _ w hi hw => exact h.put rfl rfl ((h.stops i).step hw (ho.destroyed i))
  | producer hs => cases hs <;> exact ⟨h.lt, h.stops⟩
  | dispatcher hs =>
    cases hs with
    | claim first start hp _ => exact h.put rfl rfl ((h.stops _).touch rfl (Or.inl rfl) id)
    | write left hp =>
      exact h.put rfl rfl ((h.stops _).touch rfl (Or.inl rfl) fun _ => hf.carried (by rw [hp]; rfl))
    | store hp => exact h.put rfl rfl ((h.stops _).touch rfl (Or.inr rfl) id)
    | wake hp => exact h.put rfl rfl ((h.stops _).woken (Or.inl rfl))
    | _ => exact ⟨h.lt, h.stops⟩
  | destructor hs =>
    cases hs with
    | destroy hp => exact h.advance rfl (by simp [Destructor.worker]) (by simp)
    | setRunning hp => exact h.advance rfl (by simp [Destructor.worker]) (by simp)
    | store hp => exact h.advance rfl (by simp [Destructor.worker]) (by simp)
    | wake hp => exact h.advance rfl (by simp [Destructor.worker]) (by simp)
    | join hp hd =>
      refine h.advance rfl (fun i hi => ?_) (by simp)
      have := cfg.pos
      cases hi
      omega
    | workerSet i hp =>
      have hlt : i < cfg.THREAD_COUNT := h.lt i (by rw [hp]; rfl)
      exact h.destroy rfl (fun j hj => by cases hj; exact hlt) (by simp)
        (.of_ne (by simp) (h.stops i).call)
    | workerStore i hp =>
      have hlt : i < cfg.THREAD_COUNT := h.lt i (by rw [hp]; rfl)
      exact h.destroy rfl (fun j hj => by cases hj; exact hlt) (fun j hj => by simp [Ne.symm hj])
        ⟨fun _ _ _ => rfl, by simp, (h.stops i).call⟩
    | workerWake i hp =>
      have hlt : i < cfg.THREAD_COUNT := h.lt i (by rw [hp]; rfl)
      exact h.destroy rfl (fun j hj => by cases hj; exact hlt) (fun j hj => by simp [Ne.symm hj])
        ((h.stops i).woken (Or.inr hp))
    | workerJoin i hp he =>
      have hlt : i < cfg.THREAD_COUNT := h.lt i (by rw [hp]; rfl)
      refine h.advance rfl (fun j hj => ?_) (fun j => ?_)
      · split_ifs at hj with h0
        · cases hj
        · simp only [Destructor.worker, Option.some.injEq] at hj
          omega
      · split_ifs <;> simp

theorem reachable (hr : ((system cfg).restrict NonEmpty).Reachable s) : WorkersStop cfg s := by
  have hI : ((system cfg).restrict NonEmpty).IsInvariant (WorkersStop cfg : State Tid → Prop) := by
    constructor
    · rintro s ⟨data, array, rfl⟩
      refine ⟨by simp [fresh, Destructor.worker], fun i => .of_ne ?_ ?_⟩
      · simp [fresh]
      · simp [fresh, Worker.fresh]
    · rintro s a s' hs ih ⟨-, hstep⟩
      exact ih.step (Filled.reachable hs) (HandOff.reachable hs) (step_cases hstep)
  exact hI.reachable hr

end WorkersStop

/-! ### Progress -/

section Progress

variable [DecidableEq Tid] {cfg : Config} {s s' : State Tid}

/-- A worker that is neither in vain in `waiter()` nor done can go on. -/
theorem State.moves_worker {i : ℕ} (hi : i < cfg.THREAD_COUNT) (hexit : (s.workers i).pc ≠ .exited)
    (hcall : (s.workers i).pc = .call → (s.workers i).task ≠ none)
    (hflag : ∀ g, (s.workers i).pc = .waiter g → (s.workers i).flag = 1)
    (hawake : (s.workers i).pc ≠ .waiter .asleep) : s.Moves cfg (.worker i) := by
  constructor
  · rintro ⟨g, hg, hr⟩
    have hf := hflag g hg
    cases g with
    | load => exact hr hf
    | wait => cases hf.symm.trans hr
    | asleep => exact hawake hg
  · suffices hstep : ∃ w, WorkerStep (s.workers i) w by
      obtain ⟨w, hw⟩ := hstep
      obtain ⟨a, ha⟩ := hw.exists_step
      exact ⟨a, s.setWorker i w, by simp [step, hi, ha]⟩
    cases hp : (s.workers i).pc with
    | exited => exact absurd hp hexit
    | loopTest =>
      cases hr : (s.workers i).running with
      | true => exact ⟨_, .enter hp hr⟩
      | false => exact ⟨_, .exit hp hr⟩
    | waiter g =>
      have hf := hflag g hp
      cases g with
      | load => exact ⟨_, .pass hp hf⟩
      | wait => exact ⟨_, .wait .wait .load hp (.again (by rw [hf]; decide))⟩
      | asleep => exact absurd hp hawake
    | test =>
      cases ht : (s.workers i).task with
      | none => exact ⟨_, .skip hp ht⟩
      | some x => exact ⟨_, .accept x hp ht⟩
    | call =>
      obtain ⟨x, hx⟩ := Option.ne_none_iff_exists'.1 (hcall hp)
      exact ⟨_, .start x hp hx⟩
    | executing x => exact ⟨_, .finish x hp⟩
    | clear => exact ⟨_, .clear hp⟩
    | reset => exact ⟨_, .reset hp⟩
    | release => exact ⟨_, .release hp⟩

/-- A worker that is busy is not stuck. -/
theorem State.moves_of_phase {i : ℕ} (hi : i < cfg.THREAD_COUNT) (h : Phase .away (s.workers i))
    (hpool : (s.workers i).poolFlag ≠ 0) : s.Moves cfg (.worker i) := by
  cases h with
  | free _ hz => exact absurd hz hpool
  | claimed hg => cases hg
  | filled x hg => cases hg
  | signalled x _ _ hflag htask hpc hasleep =>
    refine s.moves_worker hi ?_ (fun _ => by simp [htask]) (fun _ _ => hflag) fun ha => ?_
    · intro hp; rw [hp] at hpc; cases hpc
    · cases hasleep ha
  | executing x _ _ hflag htask hpc =>
    exact s.moves_worker hi (by rcases hpc with hpc | hpc <;> simp [hpc]) (fun _ => by simp [htask])
      (fun _ _ => hflag) (by rcases hpc with hpc | hpc <;> simp [hpc])
  | cleared _ _ _ _ hpc =>
    exact s.moves_worker hi (by simp [hpc]) (by simp [hpc]) (by simp [hpc]) (by simp [hpc])
  | closed _ _ _ _ hpc =>
    exact s.moves_worker hi (by simp [hpc]) (by simp [hpc]) (by simp [hpc]) (by simp [hpc])

/-- Without an enqueue in progress, the dispatcher does not spin. -/
theorem State.not_spins (h : (system cfg).Reachable s) (hidle : ∀ p, s.producer p = .idle) :
    ¬ s.queue.Spins taskQueueConfig .dispatcher := by
  have ha := Agree.reachable h
  obtain ⟨l, ht, -⟩ := exists_queue_log h
  rintro (⟨k, v, t, hp, -⟩ | ⟨d, t, hp, hne⟩)
  · rcases ha.dispatcher_op (by rw [hp]; rfl) with hop | hop <;> cases hop
  · have hr : (s.queue.pc .dispatcher).reading = some t := by rw [hp]; rfl
    have hle := ((ht.reading_iff _ t).1 hr).2
    have hlt : t < s.queue.mem.writeTicket := by
      have := (Counters.reachable h).knows
      rw [hp] at this
      exact this
    obtain ⟨θ, v, hw⟩ := ht.exists_writing hlt (by omega)
    cases θ with
    | producer p =>
      rw [ha.idle_of_ne_enqueue (by rw [hidle p]; simp)] at hw
      cases hw
    | dispatcher =>
      rw [hp] at hw
      cases hw

/-- A step of the queue is a step of the pool. -/
theorem exists_step_of_queue (ha : Agree s) {op : Ring.Op} (hop : s.dispatcher.op = some op)
    (hm : s.queue.Moves taskQueueConfig .dispatcher) :
    ∃ a s', step cfg s (.dispatcher, a) = some s' := by
  obtain ⟨hidle, b, q, hq, -⟩ := hm
  have hq : queueStep s .dispatcher b = some q := hq
  have hpc := ha.dispatcher.resolve_left hidle
  obtain ⟨m, pc, hx, -⟩ := queueStep_eq_some.1 hq
  by_cases hcall : ∃ c, b = .call c
  · obtain ⟨c, rfl⟩ := hcall
    exact absurd hx.call_inv.1 hidle
  have hinside : b ≠ .ret → queueInside s .dispatcher b = some q := by
    intro hret
    cases b with
    | call c => exact absurd ⟨c, rfl⟩ hcall
    | ret => exact absurd rfl hret
    | _ => exact hq
  by_cases hret : b = .ret
  · subst hret
    cases hd : s.dispatcher with
    | isEmpty k =>
      obtain ⟨r, hr⟩ : ∃ r, s.queue.pc .dispatcher = .isEmptyReturn r := by
        rw [hd] at hpc
        generalize s.queue.pc .dispatcher = pc₀ at hx hpc
        cases hx with
        | isEmptyRet r => exact ⟨r, rfl⟩
        | _ => cases hpc
      exact ⟨.ret, _, by simp [step, dispatcherStep, hd, hr, hq]; rfl⟩
    | dequeue =>
      obtain ⟨t, v, hv⟩ : ∃ t v, s.queue.pc .dispatcher = .deqReturn t v := by
        rw [hd] at hpc
        generalize s.queue.pc .dispatcher = pc₀ at hx hpc
        cases hx with
        | deqRet t v => exact ⟨t, v, rfl⟩
        | _ => cases hpc
      exact ⟨.ret, _, by simp [step, dispatcherStep, hd, hv, hq]; rfl⟩
    | _ => rw [hd] at hop; cases hop
  · cases hd : s.dispatcher with
    | isEmpty k => exact ⟨.queue b, _, by simp [step, dispatcherStep, hd, hinside hret]; rfl⟩
    | dequeue => exact ⟨.queue b, _, by simp [step, dispatcherStep, hd, hinside hret]; rfl⟩
    | _ => rw [hd] at hop; cases hop

/-- Once it has been told to stop and the producers are done, the dispatcher can go on, unless it
waits for a worker that is busy. -/
theorem State.moves_dispatcher (h : (system cfg).Reachable s) (hidle : ∀ p, s.producer p = .idle)
    (hstage : 4 ≤ s.destructor.stage) (hexit : s.dispatcher ≠ .exited)
    (hscan : ∀ first start, s.dispatcher = .scan first start → s.candidate.poolFlag = 0) :
    s.Moves cfg .dispatcher := by
  have hstops := DispatcherStops.reachable h
  have hflag := hstops.flag (le_trans (by decide) hstage)
  have hawake := hstops.awake hstage
  have hspins := s.not_spins h hidle
  constructor
  · rintro (hs | ⟨g, hg, hr⟩ | ⟨first, start, hp, hpool⟩)
    · exact hspins hs
    · have hf := hflag g hg
      cases g with
      | load => exact hr hf
      | wait => cases hf.symm.trans hr
      | asleep => exact hawake hg
    · exact hpool (hscan first start hp)
  · -- inside the queue, or about to call one of its functions
    have hqueue : ∀ op, s.dispatcher.op = some op →
        ∃ a s', step cfg s (.dispatcher, a) = some s' := by
      intro op hop
      by_cases hpc : s.queue.pc .dispatcher = .idle
      · have hcall : ∀ c, queueStep s .dispatcher (.call c) =
            some (s.queue.put .dispatcher s.queue.mem (c.entry taskQueueConfig)) := fun c =>
          queueStep_eq_some.2 ⟨_, _, by rw [hpc]; exact .call c, rfl⟩
        cases hd : s.dispatcher with
        | isEmpty k => exact ⟨.call, _, by simp [step, dispatcherStep, hd, hcall]; rfl⟩
        | dequeue => exact ⟨.call, _, by simp [step, dispatcherStep, hd, hcall]; rfl⟩
        | _ => rw [hd] at hop; cases hop
      · exact exists_step_of_queue (Agree.reachable h) hop
          ((s.queue.moves_or_spins hpc).resolve_right hspins)
    cases hd : s.dispatcher with
    | exited => exact absurd hd hexit
    | waiter g =>
      have hf := hflag g hd
      cases g with
      | asleep => exact absurd hd hawake
      | load => exact ⟨.go, _, by simp [step, dispatcherStep, hd, Waiter.step, hf]; rfl⟩
      | wait => exact ⟨.go, _, by simp [step, dispatcherStep, hd, Waiter.step, hf]; rfl⟩
    | isEmpty k => exact hqueue .isEmpty (by rw [hd]; rfl)
    | dequeue => exact hqueue .dequeue (by rw [hd]; rfl)
    | scan first start =>
      exact ⟨.go, _, by simp [step, dispatcherStep, hd, hscan first start hd]; rfl⟩
    | write => exact ⟨.move none, _, by simp [step, dispatcherStep, hd]; rfl⟩
    | _ => exact ⟨.go, _, by simp [step, dispatcherStep, hd]; rfl⟩

/-- No call of `assignTask` overlaps with the destructor. -/
theorem producers_idle (h : ((system cfg).restrict Orderly).Reachable s) (hd : s.destructor ≠ .idle)
    (p : Tid) : s.producer p = .idle := by
  have hI : ((system cfg).restrict Orderly).IsInvariant fun s : State Tid =>
      s.destructor ≠ .idle → ∀ p, s.producer p = .idle := by
    constructor
    · rintro s ⟨data, array, rfl⟩ _ p
      rfl
    · rintro s a s' _ ih ⟨horderly, hstep⟩ hd'
      cases step_cases hstep with
      | worker hi hw => exact ih hd'
      | dispatcher hs => cases hs <;> exact ih hd'
      | @producer p _ _ hs =>
        have hne : s.destructor ≠ .idle := by cases hs <;> exact hd'
        have hidle := ih hne p
        cases hs with
        | assignTask empty q hp hq => exact absurd horderly.2 hne
        | inside b q hp hcall hret hq => cases hp.symm.trans hidle
        | ret q hp hq => cases hp.symm.trans hidle
        | store hp => cases hp.symm.trans hidle
        | wake hp => cases hp.symm.trans hidle
      | destructor hs =>
        cases hs with
        | destroy hp => exact horderly
        | setRunning hp => exact ih (by rw [hp]; simp)
        | store hp => exact ih (by rw [hp]; simp)
        | wake hp => exact ih (by rw [hp]; simp)
        | join hp hd => exact ih (by rw [hp]; simp)
        | _ i hp => exact ih (by rw [hp]; simp)
  exact hI.reachable h hd p

/-- **`~ThreadPool` cannot hang.** While it joins the dispatcher, the dispatcher has exited or
can take a step that is not a retry, or it waits for a worker that can take such a step, and
it is not asleep. While it joins a worker, the worker has exited or can take a step that is
not a retry, and it is not asleep. -/
theorem destructor_never_hangs (h : ((system cfg).restrict Orderly).Reachable s) :
    (s.destructor = .join →
      (s.dispatcher = .exited ∨ s.Moves cfg .dispatcher ∨
        (∃ first start, s.dispatcher = .scan first start) ∧
        s.Moves cfg (.worker s.lastIdDispatched)) ∧
      s.dispatcher ≠ .waiter .asleep) ∧
    (∀ i, s.destructor = .workerJoin i →
      ((s.workers i).pc = .exited ∨ s.Moves cfg (.worker i)) ∧
      (s.workers i).pc ≠ .waiter .asleep) := by
  have hne := h.restrict_mono fun _ _ => Orderly.nonEmpty
  have hr := h.of_restrict
  constructor
  · intro hd
    have hstage : 4 ≤ s.destructor.stage := by rw [hd]; exact le_rfl
    refine ⟨?_, (DispatcherStops.reachable hr).awake hstage⟩
    by_cases hexit : s.dispatcher = .exited
    · exact Or.inl hexit
    by_cases hbusy : (∃ first start, s.dispatcher = .scan first start) ∧ s.candidate.poolFlag ≠ 0
    · obtain ⟨⟨first, start, hp⟩, hpool⟩ := hbusy
      have ho := HandOff.reachable hne
      have hphase := ho.phase s.lastIdDispatched (workers_running hr (by rw [hd]; rfl) _)
      rw [State.grip_eq_away (by rw [hp]; rfl)] at hphase
      exact Or.inr (Or.inr ⟨⟨first, start, hp⟩, s.moves_of_phase ho.id_lt hphase hpool⟩)
    · refine Or.inr (Or.inl (s.moves_dispatcher hr
        (producers_idle h (by rw [hd]; simp)) hstage hexit ?_))
      intro first start hp
      by_contra hpool
      exact hbusy ⟨⟨first, start, hp⟩, hpool⟩
  · intro i hd
    have hw := WorkersStop.reachable hne
    have hstops := hw.stops i
    refine ⟨?_, hstops.awake hd⟩
    by_cases hexit : (s.workers i).pc = .exited
    · exact Or.inl hexit
    · exact Or.inr (s.moves_worker (hw.lt i (by rw [hd]; rfl)) hexit hstops.call
        (hstops.flag (Or.inr hd)) (hstops.awake hd))

end Progress

/-- Worker `0` starts its task. -/
def starts : List (Thread Tid × Micro Tid) :=
  [(.worker 0, .go), (.worker 0, .go), (.worker 0, .go)]

/-- The pool is destroyed, up to the join of the dispatcher. -/
def destroys : List (Thread Tid × Micro Tid) :=
  [(.destructor, .destroy), (.destructor, .go), (.dispatcher, .go), (.destructor, .go),
    (.destructor, .go)]

/-- Worker `0` runs the task of one thread, the dispatcher has the one of another in hand and finds
no free worker, and the pool is destroyed. -/
def destroyWhileBusy : List (Thread Bool × Micro Bool) :=
  oneTask false ++ starts ++ assigns true ++ dequeues ++ destroys

/-- The destructor joins the dispatcher, which waits for worker `0`. -/
def joinsBusy (s : State Bool) : Bool :=
  decide (s.destructor = .join) && (s.dispatcher matches .scan ..) &&
    decide ((s.workers s.lastIdDispatched).poolFlag = 1)

/-- The pool with one worker, and the steps that an orderly program takes. -/
def orderlyStep (s : State Bool) (a : Thread Bool × Micro Bool) : Option (State Bool) :=
  if Orderly s a then step single s a else none

theorem destroyWhileBusy_joinsBusy : (destroyWhileBusy.foldlM orderlyStep
    (fresh (fun _ _ => none) fun _ _ => none)).map joinsBusy = some true := by
  decide +kernel

theorem destructor_never_hangs_destroyWhileBusy : ∃ s : State Bool, joinsBusy s = true ∧
    (s.destructor = .join →
      (s.dispatcher = .exited ∨ s.Moves single .dispatcher ∨
        (∃ first start, s.dispatcher = .scan first start) ∧
          s.Moves single (.worker s.lastIdDispatched)) ∧
      s.dispatcher ≠ .waiter .asleep) ∧
    (∀ i, s.destructor = .workerJoin i →
      ((s.workers i).pc = .exited ∨ s.Moves single (.worker i)) ∧
      (s.workers i).pc ≠ .waiter .asleep) := by
  have hinit : ((system single).restrict Orderly).init
      (fresh (fun _ _ => none) fun _ _ => none : State Bool) := ⟨_, _, rfl⟩
  obtain ⟨s, hr, hp⟩ := System.exists_reachable_of_schedule hinit destroyWhileBusy_joinsBusy (by
    intro s a _ s' hst
    unfold orderlyStep at hst
    split_ifs at hst with ho
    exact ⟨ho, hst⟩)
  exact ⟨s, hp, destructor_never_hangs hr⟩

end AstraLib.ThreadPool
