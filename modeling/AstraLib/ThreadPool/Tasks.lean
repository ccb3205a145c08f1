import AstraLib.Interleaving.Conservation
import AstraLib.ThreadPool.HandOff

/-!
# `ThreadPool`: no task is lost or run twice

While the pool is alive, every task that has claimed a ticket is at exactly one place: in the
queue, with the dispatcher, in the slot of one worker, running on one worker, or finished.  Each
step passes one task on from one place to the next, or leaves all of them where they are; the way
through the queue is that of `AstraLib.Ring.Transit`, and `AstraLib.ThreadPool.HandOff` says that
the dispatcher finds the slot empty.
-/

namespace AstraLib.ThreadPool

open Interleaving

variable {Tid : Type}

/-- Where a task can be. -/
inductive Place (Tid : Type)
  /-- in the queue, in flight or published -/
  | queue (q : Ring.Place (Party Tid))
  /-- in the local variable of the dispatcher -/
  | dispatcher
  /-- in the slot of worker `i`, not started yet -/
  | slot (i : ℕ)
  /-- running on worker `i` -/
  | running (i : ℕ)
  | finished

/-- The task `x` is at the given place. -/
def At (cfg : Config) (s : State Tid) (l : Log Tid) : Place Tid → Task Tid → Prop
  | .queue q, x => Ring.At taskQueueConfig s.queue q (some x)
  | .dispatcher, x => s.dispatcher.carries = true ∧ s.task = some x
  | .slot i, x => i < cfg.THREAD_COUNT ∧ Pending (s.workers i) x
  | .running i, x => i < cfg.THREAD_COUNT ∧ (s.workers i).pc = .executing x
  | .finished, x => x ∈ l.finished

/-! ### The pool is alive -/

/-- `~ThreadPool` has not got to the workers yet. -/
def Destructor.spares : Destructor → Bool
  | .idle | .setRunning | .store | .wake | .join => true
  | _ => false

section Alive

variable [DecidableEq Tid] {cfg : Config} {s s' : State Tid}

theorem Step.running {a : Thread Tid × Micro Tid} (h : Step cfg s a s')
    (hd : s'.destructor.spares = true) :
    s.destructor.spares = true ∧ ∀ i, (s'.workers i).running = (s.workers i).running := by
  cases h with
  | producer h => cases h <;> exact ⟨hd, fun _ => rfl⟩
  | dispatcher h => exact ⟨h.running.1 ▸ hd, h.running.2⟩
  | worker hi hw =>
    refine ⟨hd, ?_⟩
    apply (Function.forall_update_iff s.workers fun j w => w.running = (s.workers j).running).2
    exact ⟨hw.running_eq, fun _ _ => rfl⟩
  | destructor h =>
    cases h with
    | destroy hp => exact ⟨by rw [hp]; rfl, fun _ => rfl⟩
    | setRunning hp => exact ⟨by rw [hp]; rfl, fun _ => rfl⟩
    | store hp => exact ⟨by rw [hp]; rfl, fun _ => rfl⟩
    | wake hp => exact ⟨by rw [hp]; rfl, fun _ => rfl⟩
    | join hp _ => cases hd
    | workerJoin i hp _ =>
      simp only at hd
      split_ifs at hd <;> cases hd
    | _ => cases hd

/-- Nobody but the thread that runs `~ThreadPool` starts it. -/
theorem Step.idle {a : Thread Tid × Micro Tid} (h : Step cfg s a s') (hd : s'.destructor = .idle) :
    s.destructor = .idle ∧ a.1 ≠ .destructor := by
  cases h with
  | producer h => cases h <;> exact ⟨hd, by simp⟩
  | dispatcher h => cases h <;> exact ⟨hd, by simp⟩
  | worker hi hw => exact ⟨hd, by simp⟩
  | destructor h =>
    cases h with
    | workerJoin i hp _ =>
      simp only at hd
      split_ifs at hd
    | _ => cases hd

theorem workers_running (h : (system cfg).Reachable s) (hd : s.destructor.spares = true) (i : ℕ) :
    (s.workers i).running = true := by
  have hI : (system cfg).IsInvariant fun s : State Tid =>
      s.destructor.spares = true → ∀ i, (s.workers i).running = true := by
    constructor
    · rintro s ⟨data, array, rfl⟩ _ i
      rfl
    · intro s a s' _ ih hstep hd' i
      obtain ⟨hd, heq⟩ := (step_cases hstep).running hd'
      rw [heq]
      exact ih hd i
  exact hI.reachable h hd i

end Alive

/-! ### The steps -/

/-- Every task is at one place, and the tasks that have been started are those that run or ran. -/
structure Tasks (cfg : Config) (s : State Tid) (l : Log Tid) : Prop where
  conserved : Conserved (At cfg s l) {x | x ∈ l.claimed}
  nodup : l.started.Nodup
  started : ∀ x, x ∈ l.started ↔ (∃ i, At cfg s l (.running i) x) ∨ At cfg s l .finished x
  /-- a call of `assignTask` claims its ticket once -/
  fresh : ∀ p k, (p, k) ∈ l.claimed →
    k < s.calls p ∧ ((s.queue.pc (.producer p)).claiming ≠ none → k + 1 < s.calls p)

section Steps

variable {cfg : Config} {s s' : State Tid} {l l' : Log Tid} {A A' : Set (Task Tid)}

theorem At.unique {q : Place Tid} {x y : Task Tid} (hq : q ≠ .finished) (h : At cfg s l q x)
    (h' : At cfg s l q y) : x = y := by
  cases q with
  | queue q => exact Option.some.inj (Ring.At.unique h h')
  | dispatcher => exact Option.some.inj (h.2.symm.trans h'.2)
  | slot i => exact Option.some.inj (h.2.1.symm.trans h'.2.1)
  | running i => exact Loop.executing.inj (h.2.symm.trans h'.2)
  | finished => exact absurd rfl hq

/-- A step outside the queue that leaves every task where it is. -/
theorem Tasks.frame (h : Tasks cfg s l) (hq : s'.queue = s.queue) (hcalls : s'.calls = s.calls)
    (hd : ∀ x, At cfg s' l' .dispatcher x ↔ At cfg s l .dispatcher x)
    (hw : ∀ i x, Pending (s'.workers i) x ↔ Pending (s.workers i) x)
    (he : ∀ i x, (s'.workers i).pc = .executing x ↔ (s.workers i).pc = .executing x)
    (hl : l'.claimed = l.claimed ∧ l'.started = l.started ∧ l'.finished = l.finished) :
    Tasks cfg s' l' := by
  obtain ⟨hl₁, hl₂, hl₃⟩ := hl
  have hat : ∀ q x, At cfg s' l' q x ↔ At cfg s l q x := by
    intro q x
    cases q with
    | queue q => simp only [At, hq]
    | dispatcher => exact hd x
    | slot i => simp only [At, hw]
    | running i => simp only [At, he]
    | finished => simp only [At, hl₃]
  refine ⟨?_, hl₂ ▸ h.nodup, fun x => ?_, ?_⟩
  · rw [hl₁]
    exact h.conserved.congr hat
  · simp only [hl₂, hat]
    exact h.started x
  · rw [hl₁, hq, hcalls]
    exact h.fresh

/-- A step in the queue that no function leaves. -/
theorem conserved_of_transit (h : Conserved (At cfg s l) A) {θ : Party Tid}
    {a : Ring.Micro (Fn Tid) 1}
    (ht : Ring.Transit taskQueueConfig θ (s.queue.pc θ) a s.queue s'.queue) (hf : Filled s)
    (hleave : ∀ t v, s.queue.pc θ = .deqReturn t v → a ≠ .ret)
    (hother : ∀ q x, (∀ r, q ≠ .queue r) → (At cfg s' l' q x ↔ At cfg s l q x))
    (hnew : ∀ k v, s.queue.pc θ = .enqClaim k v → a = .claim →
      ∃ x, v 0 = some x ∧ x ∉ A ∧ A' = insert x A)
    (hold : (∀ k v, s.queue.pc θ = .enqClaim k v → a ≠ .claim) → A' = A) :
    Conserved (At cfg s' l') A' := by
  cases ht with
  | stays hat hclaim _ =>
    rw [hold hclaim]
    refine h.congr fun q x => ?_
    cases q with
    | queue q => exact hat q (some x)
    | _ => exact hother _ x (by simp)
  | enters k v hp ha _ hat =>
    obtain ⟨x, hx, hxA, rfl⟩ := hnew k v hp ha
    refine h.insert (.queue (.writing θ)) hxA fun q y => ?_
    cases q with
    | queue q => simp [At, hat, hx]
    | _ => simp [hother]
  | moves q q' f hq hat hclaim _ =>
    rw [hold hclaim]
    cases f with
    | none => exact absurd hq (hf.queue q)
    | some x =>
      refine h.move (.queue q) (.queue q') hq
        (fun y hy => At.unique (q := .queue q) (by simp) hy hq) fun q₁ y => ?_
      cases q₁ with
      | queue q₁ => simp [At, hat]
      | _ => simp [hother]
  | leaves t v hp ha => exact absurd ha (hleave t v hp)

/-- A step in the queue that leaves the threads outside it alone. -/
theorem Tasks.pass (h : Tasks cfg s l) (hf : Filled s) {θ : Party Tid} {b : Ring.Micro (Fn Tid) 1}
    (ht : Ring.Transit taskQueueConfig θ (s.queue.pc θ) b s.queue s'.queue)
    (hleave : ∀ t v, s.queue.pc θ = .deqReturn t v → b ≠ .ret) (hw : s'.workers = s.workers)
    (hd : ∀ x, At cfg s' l' .dispatcher x ↔ At cfg s l .dispatcher x)
    (hl : l'.started = l.started ∧ l'.finished = l.finished)
    (hnew : ∀ k v, s.queue.pc θ = .enqClaim k v → b = .claim →
      ∃ x, v 0 = some x ∧ x ∉ l.claimed ∧ l'.claimed = l.claimed ++ [x])
    (hold : (∀ k v, s.queue.pc θ = .enqClaim k v → b ≠ .claim) → l'.claimed = l.claimed)
    (hfresh : ∀ p k, (p, k) ∈ l'.claimed →
      k < s'.calls p ∧ ((s'.queue.pc (.producer p)).claiming ≠ none → k + 1 < s'.calls p)) :
    Tasks cfg s' l' := by
  have hother : ∀ q x, (∀ r, q ≠ .queue r) → (At cfg s' l' q x ↔ At cfg s l q x) := by
    intro q x hq
    cases q with
    | queue q => exact absurd rfl (hq q)
    | dispatcher => exact hd x
    | slot i => simp only [At, hw]
    | running i => simp only [At, hw]
    | finished => simp only [At, hl.2]
  refine ⟨?_, hl.1 ▸ h.nodup, fun x => ?_, hfresh⟩
  · refine conserved_of_transit h.conserved ht hf hleave hother (fun k v hp hb => ?_) fun hb => ?_
    · obtain ⟨x, hx, hmem, hcl⟩ := hnew k v hp hb
      refine ⟨x, hx, hmem, ?_⟩
      ext y
      simp [hcl, or_comm]
    · rw [hold hb]
  · rw [hl.1, h.started x]
    exact or_congr (exists_congr fun i => (hother (.running i) x (by simp)).symm)
      (hother .finished x (by simp)).symm

/-- A step that changes one worker and leaves every task where it is. -/
theorem Tasks.put (h : Tasks cfg s l) {i : ℕ} {w : Worker Tid} (hq : s'.queue = s.queue)
    (hcalls : s'.calls = s.calls) (hw : s'.workers = Function.update s.workers i w)
    (hd : ∀ x, At cfg s' l' .dispatcher x ↔ At cfg s l .dispatcher x)
    (hpend : ∀ x, Pending w x ↔ Pending (s.workers i) x)
    (hexec : ∀ x, w.pc = .executing x ↔ (s.workers i).pc = .executing x)
    (hl : l'.claimed = l.claimed ∧ l'.started = l.started ∧ l'.finished = l.finished) :
    Tasks cfg s' l' := by
  refine h.frame hq hcalls hd ?_ ?_ hl
  · rw [hw]
    apply (Function.forall_update_iff s.workers fun j w => ∀ x, Pending w x ↔
      Pending (s.workers j) x).2
    exact ⟨hpend, fun _ _ _ => Iff.rfl⟩
  · rw [hw]
    apply (Function.forall_update_iff s.workers fun j w =>
      ∀ x, w.pc = .executing x ↔ (s.workers j).pc = .executing x).2
    exact ⟨hexec, fun _ _ _ => Iff.rfl⟩

/-- A worker starts the task in its slot. -/
theorem Tasks.start (h : Tasks cfg s l) {i : ℕ} (hi : i < cfg.THREAD_COUNT) {t : Task Tid}
    (hx : Pending (s.workers i) t) (hp : (s.workers i).pc = .call) :
    Tasks cfg (s.setWorker i { s.workers i with pc := .executing t })
      { l with started := l.started ++ [t] } := by
  have hslot : At cfg s l (.slot i) t := ⟨hi, hx⟩
  have hnew : t ∉ l.started := by
    intro hmem
    rcases (h.started t).1 hmem with ⟨j, hj⟩ | hfin
    · cases h.conserved.eq hslot hj
    · cases h.conserved.eq hslot hfin
  have hrun : ∀ j x, At cfg (s.setWorker i { s.workers i with pc := .executing t })
      { l with started := l.started ++ [t] } (.running j) x ↔
        (j = i ∧ x = t) ∨ At cfg s l (.running j) x := by
    intro j x
    by_cases hji : j = i
    · subst hji
      simp [At, hi, hp, eq_comm]
    · simp [At, hji, setWorker_workers_of_ne]
  refine ⟨?_, ?_, fun x => ?_, h.fresh⟩
  · refine h.conserved.move (.slot i) (.running i) hslot
      (fun y hy => At.unique (q := .slot i) (by simp) hy hslot) fun q y => ?_
    cases q with
    | running j => rw [hrun]; simp
    | slot j =>
      by_cases hji : j = i
      · subst hji
        simp [At, Pending, Loop.awaits]
      · simp [At, hji, setWorker_workers_of_ne]
    | _ => simp [At]
  · rw [← List.concat_eq_append]
    exact h.nodup.concat hnew
  · rw [List.mem_append, List.mem_singleton, h.started x]
    simp only [hrun]
    constructor
    · rintro ((⟨j, hj⟩ | hfin) | rfl)
      · exact Or.inl ⟨j, Or.inr hj⟩
      · exact Or.inr hfin
      · exact Or.inl ⟨i, Or.inl ⟨rfl, rfl⟩⟩
    · rintro (⟨j, ⟨-, rfl⟩ | hj⟩ | hfin)
      · exact Or.inr rfl
      · exact Or.inl (Or.inl ⟨j, hj⟩)
      · exact Or.inl (Or.inr hfin)

/-- A task ends. -/
theorem Tasks.finish (h : Tasks cfg s l) {i : ℕ} (hi : i < cfg.THREAD_COUNT) {t : Task Tid}
    (hp : (s.workers i).pc = .executing t) :
    Tasks cfg (s.setWorker i { s.workers i with pc := .clear })
      { l with finished := l.finished ++ [t] } := by
  have hat : At cfg s l (.running i) t := ⟨hi, hp⟩
  have hrun : ∀ j x, At cfg (s.setWorker i { s.workers i with pc := .clear })
      { l with finished := l.finished ++ [t] } (.running j) x ↔
        j ≠ i ∧ At cfg s l (.running j) x := by
    intro j x
    by_cases hji : j = i
    · subst hji
      simp [At]
    · simp [At, hji, setWorker_workers_of_ne]
  refine ⟨?_, h.nodup, fun x => ?_, h.fresh⟩
  · refine h.conserved.move (.running i) .finished hat
      (fun y hy => At.unique (q := .running i) (by simp) hy hat) fun q y => ?_
    cases q with
    | running j => rw [hrun]; simp
    | slot j =>
      by_cases hji : j = i
      · subst hji
        simp [At, Pending, Loop.awaits, hp]
      · simp [At, hji, setWorker_workers_of_ne]
    | finished => simp [At, or_comm]
    | _ => simp [At]
  · rw [h.started x]
    simp only [hrun]
    constructor
    · rintro (⟨j, hj⟩ | hfin)
      · by_cases hji : j = i
        · subst hji
          obtain rfl := At.unique (q := .running j) (by simp) hj hat
          exact Or.inr (List.mem_append_right _ (List.mem_singleton_self x))
        · exact Or.inl ⟨j, hji, hj⟩
      · exact Or.inr (List.mem_append_left _ hfin)
    · rintro (⟨j, -, hj⟩ | hfin)
      · exact Or.inl ⟨j, hj⟩
      · rcases List.mem_append.1 hfin with hfin | hfin
        · exact Or.inr hfin
        · obtain rfl := List.mem_singleton.1 hfin
          exact Or.inl ⟨i, hat⟩

theorem Tasks.work (h : Tasks cfg s l) {g : Grip} {i : ℕ} {w : Worker Tid} {a : Micro Tid}
    (hi : i < cfg.THREAD_COUNT) (hphase : Phase g (s.workers i)) (hr : (s.workers i).running = true)
    (hw : WorkerStep (s.workers i) w) : Tasks cfg (s.setWorker i w) (l.note s (.worker i, a)) := by
  have hquiet : (∀ x, Pending w x ↔ Pending (s.workers i) x) →
      (∀ x, w.pc = .executing x ↔ (s.workers i).pc = .executing x) →
      Tasks cfg (s.setWorker i w) l :=
    fun h1 h2 => h.put rfl rfl rfl (fun _ => Iff.rfl) h1 h2 ⟨rfl, rfl, rfl⟩
  cases hw with
  | start t hp ht =>
    have hnote : l.note s (.worker i, a) = { l with started := l.started ++ [t] } := by
      simp [Log.note, hp, ht]
    rw [hnote]
    exact h.start hi ⟨ht, by rw [hp]; rfl⟩ hp
  | finish t hp =>
    simp only [Log.note, hp]
    exact h.finish hi hp
  | exit hp hr' => cases hr.symm.trans hr'
  | release hp =>
    simp only [Log.note, hp]
    have htask : (s.workers i).task = none := by
      cases hphase <;> simp_all [Loop.outside, Loop.awaits]
    exact hquiet (by simp [Pending, htask]) (by simp [hp])
  | enter hp _ =>
    simp only [Log.note, hp]; exact hquiet (by simp [Pending, hp, Loop.awaits]) (by simp [hp])
  | wait g g' hp _ =>
    simp only [Log.note, hp]; exact hquiet (by simp [Pending, hp, Loop.awaits]) (by simp [hp])
  | pass hp _ =>
    simp only [Log.note, hp]; exact hquiet (by simp [Pending, hp, Loop.awaits]) (by simp [hp])
  | accept t hp _ =>
    simp only [Log.note, hp]; exact hquiet (by simp [Pending, hp, Loop.awaits]) (by simp [hp])
  | skip hp ht => simp only [Log.note, hp]; exact hquiet (by simp [Pending, ht]) (by simp [hp])
  | clear hp =>
    simp only [Log.note, hp]; exact hquiet (by simp [Pending, hp, Loop.awaits]) (by simp [hp])
  | reset hp =>
    simp only [Log.note, hp]; exact hquiet (by simp [Pending, hp, Loop.awaits]) (by simp [hp])

/-- The dispatcher returns from `dequeue` with a task. -/
theorem Tasks.take (h : Tasks cfg s l) (hf : Filled s) {t : ℕ} {v : Payload (Fn Tid) 1}
    (hv : s.queue.pc .dispatcher = .deqReturn t v) (hp : s.dispatcher.carries = false)
    (ht : Ring.Transit taskQueueConfig .dispatcher (s.queue.pc .dispatcher) .ret s.queue s'.queue)
    (hpc : ∀ p, s'.queue.pc (.producer p) = s.queue.pc (.producer p)) (hcalls : s'.calls = s.calls)
    (hw : s'.workers = s.workers) (htask : s'.task = v 0) (hp' : s'.dispatcher.carries = true)
    (hl : l'.claimed = l.claimed ∧ l'.started = l.started ∧ l'.finished = l.finished) :
    Tasks cfg s' l' := by
  obtain ⟨hl₁, hl₂, hl₃⟩ := hl
  cases ht with
  | stays _ _ hret => exact absurd hv (hret t v)
  | enters k v' hp _ => cases hv.symm.trans hp
  | moves _ _ _ _ _ _ hret => exact absurd hv (hret t v)
  | leaves t' v' hv' _ hq hat =>
    obtain ⟨rfl, rfl⟩ := Ring.Pc.deqReturn.inj (hv.symm.trans hv')
    cases hx : v 0 with
    | none => exact absurd (hx ▸ hq) (hf.queue _)
    | some x =>
      rw [hx] at hq htask
      refine ⟨?_, hl₂ ▸ h.nodup, fun y => ?_, fun p k hk => ?_⟩
      · rw [hl₁]
        refine h.conserved.move (.queue (.reading .dispatcher)) .dispatcher hq
          (fun y hy => At.unique (q := .queue (.reading .dispatcher)) (by simp) hy hq) fun q y => ?_
        cases q with
        | queue q => simp [At, hat]
        | dispatcher => simp [At, hp, hp', htask, eq_comm]
        | finished => simp [At, hl₃]
        | _ => simp [At, hw]
      · rw [hl₂, h.started y]
        simp only [At, hw, hl₃]
      · rw [hl₁] at hk
        rw [hpc, hcalls]
        exact h.fresh p k hk

/-- The dispatcher puts its task into the slot of a worker that it has claimed. -/
theorem Tasks.fill (h : Tasks cfg s l) {i : ℕ} (hi : i < cfg.THREAD_COUNT) {w : Worker Tid}
    {x : Task Tid} (hp : s.dispatcher.carries = true) (htask : s.task = some x)
    (hslot : (s.workers i).task = none) (hpc : (s.workers i).pc.outside = true)
    (hw : s'.workers = Function.update s.workers i w) (hwtask : w.task = some x)
    (hwpc : w.pc = (s.workers i).pc) (hq : s'.queue = s.queue) (hcalls : s'.calls = s.calls)
    (hp' : s'.dispatcher.carries = false)
    (hl : l'.claimed = l.claimed ∧ l'.started = l.started ∧ l'.finished = l.finished) :
    Tasks cfg s' l' := by
  obtain ⟨hl₁, hl₂, hl₃⟩ := hl
  have hat : At cfg s l .dispatcher x := ⟨hp, htask⟩
  have hrun : ∀ j y, At cfg s' l' (.running j) y ↔ At cfg s l (.running j) y := by
    intro j y
    by_cases hji : j = i
    · subst hji; simp [At, hw, hwpc]
    · simp [At, hw, Function.update_of_ne hji]
  refine ⟨?_, hl₂ ▸ h.nodup, fun y => ?_, ?_⟩
  · rw [hl₁]
    refine h.conserved.move .dispatcher (.slot i) hat
      (fun y hy => At.unique (q := .dispatcher) (by simp) hy hat) fun q y => ?_
    cases q with
    | queue q => simp [At, hq]
    | dispatcher => simp [At, hp']
    | slot j =>
      by_cases hji : j = i
      · subst hji
        simp [At, hw, Pending, hwtask, hwpc, Loop.awaits_of_outside hpc, hslot, hi, eq_comm]
      · simp [At, hw, hji]
    | running j => simp [hrun]
    | finished => simp [At, hl₃]
  · rw [hl₂, h.started y]
    simp only [hrun]
    simp only [At, hl₃]
  · rw [hl₁, hq, hcalls]
    exact h.fresh

theorem not_at_fresh (data array : ℕ → Payload (Fn Tid) 1) (q : Place Tid) (x : Task Tid) :
    ¬ At cfg (fresh data array) Log.empty q x := by
  cases q with
  | queue q => exact Ring.not_at_fresh data array q (some x)
  | _ => simp [At, fresh, Log.empty, Dispatcher.carries, Pending, Worker.fresh]

variable [DecidableEq Tid] {p : Tid}

theorem Tasks.produce (h : Tasks cfg s l) (hr : (system cfg).Reachable s) (hf : Filled s)
    (hn : Named s l) {a : Micro Tid} (hs : ProducerStep s p a s') :
    Tasks cfg s' (l.note s (.producer p, a)) := by
  have hfresh := (hn.produce hs).fresh
  -- a producer never dequeues
  have hleave : ∀ t v, s.queue.pc (.producer p) ≠ .deqReturn t v := by
    intro t v hp
    have hop := (Agree.reachable hr).producer p
    rw [hp] at hop
    split_ifs at hop <;> cases hop
  cases hs with
  | assignTask empty q hp hq =>
    exact h.pass hf (queue_transit hr hq) (fun t v hv => absurd hv (hleave t v)) rfl
      (fun _ => Iff.rfl) ⟨rfl, rfl⟩ (by simp) (fun _ => rfl) hfresh
  | inside b q hp hcall hret hq =>
    have hnote := l.note_queue hq hcall
    refine h.pass hf (queue_transit hr hq) (fun t v hv => absurd hv (hleave t v)) rfl
      (fun _ => Iff.rfl) (by cases b <;> exact ⟨rfl, rfl⟩) (fun k v hp' _ => ?_)
      (fun hclaim => ?_) hfresh
    · have hv : (s.queue.pc (.producer p)).claiming = some v := by rw [hp']; rfl
      obtain ⟨k', hk', hcalls⟩ := hf.claiming p v hv
      refine ⟨(p, k'), hk', fun hold => ?_, by rw [hnote, hv]; simp [hk']⟩
      have := (h.fresh p k' hold).2 (by rw [hv]; simp)
      omega
    · obtain ⟨m, pc, hx, -⟩ := queueStep_eq_some.1 hq
      rw [hnote, (hx.claiming_eq_none hcall).2 hclaim]
      simp
  | ret q hp hq =>
    exact h.pass hf (queue_transit hr hq) (fun t v hv => absurd hv (hleave t v)) rfl
      (fun _ => Iff.rfl) ⟨rfl, rfl⟩ (by simp) (fun _ => rfl) hfresh
  | store hp =>
    exact h.frame rfl rfl (fun _ => Iff.rfl) (fun _ _ => Iff.rfl)
      (fun _ _ => Iff.rfl) ⟨rfl, rfl, rfl⟩
  | wake hp =>
    refine h.frame rfl rfl (fun x => ?_) (fun _ _ => Iff.rfl) (fun _ _ => Iff.rfl) ⟨rfl, rfl, rfl⟩
    simp only [At, Dispatcher.woken_carries]

theorem Tasks.dispatch (h : Tasks cfg s l) (hr : (system cfg).Reachable s) (hf : Filled s)
    (ho : HandOff cfg s) (halive : s.candidate.running = true) {a : Micro Tid}
    (hs : DispatcherStep cfg s s') : Tasks cfg s' (l.note s (.dispatcher, a)) := by
  have hl : (l.note s (.dispatcher, a)).claimed = l.claimed ∧
      (l.note s (.dispatcher, a)).started = l.started ∧
      (l.note s (.dispatcher, a)).finished = l.finished := by
    cases hd : s.dispatcher <;> simp [Log.note, hd]
  have hphase : Phase s.dispatcher.grip s.candidate := s.grip_self ▸ ho.phase _ halive
  have ha := Agree.reachable hr
  -- the dispatcher never enqueues, and it leaves the producers alone
  have henq : ∀ k v, s.queue.pc .dispatcher ≠ .enqClaim k v := by
    intro k v hp
    rcases ha.dispatcher_op (by rw [hp]; rfl) with hop | hop <;> cases hop
  have hpc : ∀ {b q}, queueStep s .dispatcher b = some q →
      ∀ p, q.pc (.producer p) = s.queue.pc (.producer p) :=
    fun hq p => queueStep_pc_of_ne hq (by simp)
  have hquiet : s.dispatcher.carries = false → s'.dispatcher.carries = false →
      ∀ x, At cfg s' (l.note s (.dispatcher, a)) .dispatcher x ↔ At cfg s l .dispatcher x := by
    intro h1 h2 x
    simp [At, h1, h2]
  have hpass : ∀ {b}, queueStep s .dispatcher b = some s'.queue →
      (∀ t v, s.queue.pc .dispatcher = .deqReturn t v → b ≠ .ret) → s'.workers = s.workers →
      s'.calls = s.calls →
      (∀ x, At cfg s' (l.note s (.dispatcher, a)) .dispatcher x ↔ At cfg s l .dispatcher x) →
      Tasks cfg s' (l.note s (.dispatcher, a)) := by
    intro b hq hleave hw hcalls hd
    refine h.pass hf (queue_transit hr hq) hleave hw hd hl.2 (fun k v hp => absurd hp (henq k v))
      (fun _ => hl.1) fun p k hk => ?_
    rw [hl.1] at hk
    rw [hpc hq, hcalls]
    exact h.fresh p k hk
  cases hs with
  | inside op b q hp hcall hret hq => exact hpass hq (fun _ _ _ => hret) rfl rfl fun _ => Iff.rfl
  | answer k b q hp hb hq =>
    refine hpass hq (fun t v hv => by cases hb.symm.trans hv) rfl rfl (hquiet (by rw [hp]; rfl) ?_)
    cases k <;> cases b <;> rfl
  | take t v q hp hv hq =>
    exact h.take hf hv (by rw [hp]; rfl) (queue_transit hr hq) (hpc hq) rfl rfl rfl rfl hl
  | claim first start hp hf =>
    exact h.put rfl rfl rfl (fun x => by simp [At, hp, Dispatcher.carries]) (fun _ => Iff.rfl)
      (fun _ => Iff.rfl) hl
  | next first first' start hp hf =>
    exact h.frame rfl rfl (fun x => by simp [At, hp, Dispatcher.carries]) (fun _ _ => Iff.rfl)
      (fun _ _ => Iff.rfl) hl
  | write left hp =>
    rw [hp] at hphase
    obtain ⟨-, hslot, hpc'⟩ := hphase.of_write
    obtain ⟨x, hx⟩ := Option.ne_none_iff_exists.1 (hf.carried (by rw [hp]; rfl))
    exact h.fill ho.id_lt (by rw [hp]; rfl) hx.symm hslot hpc' rfl hx.symm rfl rfl rfl rfl hl
  | store hp =>
    exact h.put rfl rfl rfl (hquiet (by rw [hp]; rfl) rfl) (fun _ => Iff.rfl) (fun _ => Iff.rfl) hl
  | wake hp =>
    refine h.put rfl rfl rfl (hquiet (by rw [hp]; rfl) rfl) (fun x => ?_) (fun x => ?_) hl
    · simp only [Pending, Loop.woken_awaits, State.candidate]
    · exact ⟨fun hx => Loop.eq_of_woken_eq hx (by simp), congrArg Loop.woken⟩
  | wait g g' hp hw =>
    exact h.frame rfl rfl (hquiet (by rw [hp]; rfl) rfl) (fun _ _ => Iff.rfl)
      (fun _ _ => Iff.rfl) hl
  | _ hp =>
    exact h.frame rfl rfl (hquiet (by rw [hp]; rfl) rfl) (fun _ _ => Iff.rfl)
      (fun _ _ => Iff.rfl) hl

theorem Tasks.step (h : s.destructor = .idle → Tasks cfg s l) (hr : (system cfg).Reachable s)
    (hf : Filled s) (hn : Named s l) (ho : HandOff cfg s) {a : Thread Tid × Micro Tid}
    (hs : Step cfg s a s') (hidle : s'.destructor = .idle) : Tasks cfg s' (l.note s a) := by
  obtain ⟨hidle', hne⟩ := hs.idle hidle
  have hrun := workers_running hr (by rw [hidle']; rfl)
  cases hs with
  | producer hs => exact (h hidle').produce hr hf hn hs
  | @dispatcher a _ hs => exact (h hidle').dispatch hr hf ho (hrun _) (a := a) hs
  | @worker i _ w hi hw => exact (h hidle').work hi (ho.phase i (hrun i)) (hrun i) hw
  | destructor hs => exact absurd rfl hne

end Steps

/-! ### Every reachable state -/

section Reachable

variable [DecidableEq Tid] {cfg : Config} {s : State Tid} {l : Log Tid}

theorem Tasks.reachable (h : (logged Tid cfg).Reachable (s, l)) (halive : s.destructor = .idle) :
    Tasks cfg s l := by
  have hI : (logged Tid cfg).IsInvariant
      fun q : State Tid × Log Tid => q.1.destructor = .idle → Tasks cfg q.1 q.2 := by
    constructor
    · rintro ⟨s, l⟩ ⟨⟨data, array, rfl⟩, rfl⟩ -
      refine ⟨⟨fun q x hx => absurd hx (not_at_fresh data array q x), by simp [Log.empty]⟩,
        List.nodup_nil, fun x => ?_, by simp [Log.empty]⟩
      refine ⟨by simp [Log.empty], ?_⟩
      rintro (⟨i, hx⟩ | hx)
      · exact absurd hx (not_at_fresh data array _ x)
      · exact absurd hx (not_at_fresh data array _ x)
    · rintro ⟨s, l⟩ a ⟨s', l'⟩ hlog ih ⟨⟨-, hstep⟩, rfl⟩
      exact Tasks.step ih hlog.of_log.of_restrict (Filled.reachable hlog.of_log)
        (Named.reachable hlog.log_of_restrict) (HandOff.reachable hlog.of_log) (step_cases hstep)
  exact hI.reachable h halive

/-- **No task is lost or duplicated.** Before `~ThreadPool` starts, every task whose enqueue has
claimed a ticket is at exactly one place: in the queue, with the dispatcher, in the slot of one
worker, running on one worker, or finished. No task is started twice, and those that have been
started are the ones that run or ran. -/
theorem no_task_lost_or_duplicated (h : (logged Tid cfg).Reachable (s, l))
    (halive : s.destructor = .idle) :
    (∀ x ∈ l.claimed, ∃! q, At cfg s l q x) ∧ (∀ q x, At cfg s l q x → x ∈ l.claimed) ∧
    (∀ q x y, q ≠ .finished → At cfg s l q x → At cfg s l q y → x = y) ∧
    l.started.Nodup ∧
    (∀ x, x ∈ l.started ↔ (∃ i, At cfg s l (.running i) x) ∨ At cfg s l .finished x) := by
  have ht := Tasks.reachable h halive
  exact ⟨ht.conserved.existsUnique, ht.conserved.mem, fun q x y => At.unique, ht.nodup, ht.started⟩

end Reachable

/-- Worker `0` starts its task while thread `1` claims a ticket for another one. -/
def startAndClaim : List (Thread ℕ × Micro ℕ) :=
  [(.worker 0, .go), (.producer 1, .assignTask false), (.worker 0, .go),
   (.producer 1, .queue .claim), (.worker 0, .go)]

/-- One task runs and another one is on its way. -/
def oneRuns (q : State ℕ × Log ℕ) : Bool :=
  q.2.claimed == [(0, 0), (1, 0)] && q.2.started == [(0, 0)] && q.2.finished == [] &&
    (q.1.destructor matches .idle)

theorem startAndClaim_oneRuns : ((oneTask 0 ++ startAndClaim).foldlM loggedStep
    (fresh (fun _ _ => none) fun _ _ => none, Log.empty)).map oneRuns = some true := by
  decide +kernel

theorem no_task_lost_or_duplicated_startAndClaim :
    ∃ (s : State ℕ) (l : Log ℕ), oneRuns (s, l) = true ∧
    (∀ x ∈ l.claimed, ∃! q, At single s l q x) ∧ (∀ q x, At single s l q x → x ∈ l.claimed) ∧
    (∀ q x y, q ≠ .finished → At single s l q x → At single s l q y → x = y) ∧
    l.started.Nodup ∧
    (∀ x, x ∈ l.started ↔ (∃ i, At single s l (.running i) x) ∨ At single s l .finished x) := by
  have hinit : (logged ℕ single).init (fresh (fun _ _ => none) fun _ _ => none, Log.empty) :=
    ⟨⟨_, _, rfl⟩, rfl⟩
  obtain ⟨⟨s, l⟩, hr, hp⟩ := System.exists_reachable_of_schedule hinit startAndClaim_oneRuns
    (loggedStep_sound (by decide))
  have halive : s.destructor = .idle := by
    simp only [oneRuns, Bool.and_eq_true] at hp
    cases hd : s.destructor <;> simp [hd] at hp ⊢
  exact ⟨s, l, hp, no_task_lost_or_duplicated hr halive⟩

end AstraLib.ThreadPool
