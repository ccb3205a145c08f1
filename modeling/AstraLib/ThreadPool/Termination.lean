import AstraLib.ThreadPool.Liveness

/-!
# `ThreadPool`: the destructor returns

Once `~ThreadPool` joins the dispatcher, `running` is clear, and whoever is in `waiter()` finds the
gate open (`DispatcherStops`).  The dispatcher takes at most one more task out of the queue: then it
goes through `if (taskQueue.isEmpty())` and back to `while (running)` (`Dispatcher.exitDistance`).
It may have to look for a worker before, but the search ends.  The workers are joined one after
another, and each of them exits, whatever it was doing when `~Worker` began.

Calls of `assignTask` that go on while the destructor waits for the dispatcher do not prevent this.
After the join the gate and the queue are destroyed, and no call may be under way.
-/

namespace AstraLib.ThreadPool

open Interleaving System

variable {Tid : Type} [DecidableEq Tid] {cfg : Config} {s s' : State Tid} {l : Log Tid}

/-! ### One step -/

/-- What a step means to `~ThreadPool`: it is its own, or it leaves it where it is. -/
theorem Step.of_destructor {b : Thread Tid × Micro Tid} (hs : Step cfg s b s') :
    (b.1 = .destructor ∧ DestructorStep cfg s b.2 s') ∨
      (b.1 ≠ .destructor ∧ s'.destructor = s.destructor) := by
  cases hs with
  | producer hs => exact Or.inr ⟨by simp, by cases hs <;> rfl⟩
  | dispatcher hs => exact Or.inr ⟨by simp, hs.running.1⟩
  | worker hi hw => exact Or.inr ⟨by simp, rfl⟩
  | destructor hs => exact Or.inl ⟨rfl, hs⟩

/-- Where `~ThreadPool` is after its next step. -/
def Destructor.next (cfg : Config) : Destructor → Destructor
  | .idle => .setRunning
  | .setRunning => .store
  | .store => .wake
  | .wake => .join
  | .join => .workerSet (cfg.THREAD_COUNT - 1)
  | .workerSet i => .workerStore i
  | .workerStore i => .workerWake i
  | .workerWake i => .workerJoin i
  | .workerJoin i => if i = 0 then .done else .workerSet (i - 1)
  | .done => .done

/-- The number of steps that `~ThreadPool` has yet to make. -/
def Destructor.remaining (cfg : Config) : Destructor → ℕ
  | .idle => 4 * cfg.THREAD_COUNT + 5
  | .setRunning => 4 * cfg.THREAD_COUNT + 4
  | .store => 4 * cfg.THREAD_COUNT + 3
  | .wake => 4 * cfg.THREAD_COUNT + 2
  | .join => 4 * cfg.THREAD_COUNT + 1
  | .workerSet i => 4 * i + 4
  | .workerStore i => 4 * i + 3
  | .workerWake i => 4 * i + 2
  | .workerJoin i => 4 * i + 1
  | .done => 0

theorem Destructor.remaining_next_lt (cfg : Config) {d : Destructor} (hd : d ≠ .done) :
    (d.next cfg).remaining cfg < d.remaining cfg := by
  have hpos := cfg.pos
  cases d with
  | done => exact absurd rfl hd
  | workerJoin i =>
    show (if i = 0 then done else workerSet (i - 1)).remaining cfg < 4 * i + 1
    split_ifs with hi
    · simp [remaining]
    · simp only [remaining]
      omega
  | _ =>
    simp only [next, remaining]
    omega

theorem Destructor.next_ne_idle (cfg : Config) {d : Destructor} : d.next cfg ≠ .idle := by
  cases d with
  | workerJoin i =>
    show (if i = 0 then done else workerSet (i - 1)) ≠ idle
    split_ifs <;> simp
  | _ => nofun

omit [DecidableEq Tid] in
theorem DestructorStep.next {m : Micro Tid} (hs : DestructorStep cfg s m s') :
    s'.destructor = s.destructor.next cfg := by
  cases hs with
  | join hp _ => rw [hp]; rfl
  | workerJoin i hp _ => rw [hp]; rfl
  | workerSet i hp => rw [hp]; rfl
  | workerStore i hp => rw [hp]; rfl
  | workerWake i hp => rw [hp]; rfl
  | _ hp => rw [hp]; rfl

/-- `~ThreadPool` can take its next step, unless it waits for a thread. -/
theorem State.exists_destructor_go (s : State Tid) {d : Destructor} (hd : s.destructor = d)
    (hidle : d ≠ .idle) (hdone : d ≠ .done) (hjoin : d = .join → s.dispatcher = .exited)
    (hworker : ∀ i, d = .workerJoin i → (s.workers i).pc = .exited) :
    ∃ s', step cfg s (.destructor, .go) = some s' ∧
    Obliged .destructor (.destructor, (.go : Micro Tid)) := by
  cases d with
  | idle => exact absurd rfl hidle
  | done => exact absurd rfl hdone
  | join => exact ⟨_, by simp [step, destructorStep, hd, hjoin rfl]; rfl, by simp [Obliged]⟩
  | workerJoin i =>
    exact ⟨_, by simp [step, destructorStep, hd, hworker i rfl]; rfl, by simp [Obliged]⟩
  | _ => exact ⟨_, by simp [step, destructorStep, hd]; rfl, by simp [Obliged]⟩

/-- The number of steps of the dispatcher until it exits, when it has been told to. `dequeue` and
the search for a worker are not counted. -/
def Dispatcher.exitDistance (p : Ring.Pc ℕ ℕ (Fn Tid) 1) : Dispatcher → ℕ
  | .exited => 0
  | .loopTest => 1
  | .signalWake => 2
  | .signalStore => 3
  | .isEmpty .recheck => 3 + asked p
  | .reset => 10
  | .isEmpty .reset => 10 + asked p
  | .drainTest => 17
  | .waiter .load | .wake => 18
  | .waiter .wait | .waiter .asleep | .store => 19
  | .write => 20
  | .scan .. | .dequeue => 21
  | .isEmpty .drain => 22 + asked p
where
  /-- the steps of `isEmpty` -/
  asked : Ring.Pc ℕ ℕ (Fn Tid) 1 → ℕ
    | .idle => 6
    | p => p.remaining

/-- The dispatcher is in the part of its loop where it does not wait for anybody. -/
def State.Leaves (s : State Tid) : Prop := ¬ s.Scans ∧ s.dispatcher ≠ .dequeue

omit [DecidableEq Tid] in
theorem State.exitDistance_of_not_leaves {s : State Tid} (h : ¬ s.Leaves)
    (p : Ring.Pc ℕ ℕ (Fn Tid) 1) : s.dispatcher.exitDistance p = 21 := by
  by_cases hd : s.dispatcher = .dequeue
  · rw [hd]
    rfl
  · obtain ⟨first, start, hp⟩ : s.Scans := by
      by_contra hscan
      exact h ⟨hscan, hd⟩
    rw [hp]
    rfl

omit [DecidableEq Tid] in
theorem asked_lt {m m' : Ring.Mem ℕ (Fn Tid) 1} {p p' : Ring.Pc ℕ ℕ (Fn Tid) 1}
    {b : Ring.Micro (Fn Tid) 1}
    (hx : Ring.Exec (Ring.unbounded taskQueueConfig) taskQueueConfig m p b m' p')
    (hop : ∀ op, p.op = some op → op = .isEmpty) (hcall : ∀ c, b = .call c → c.op = .isEmpty)
    (hret : b ≠ .ret) :
    Dispatcher.exitDistance.asked p' < Dispatcher.exitDistance.asked p := by
  cases hx with
  | call c =>
    cases c with
    | isEmpty => exact (by decide : 3 < 6)
    | _ => cases hcall _ rfl
  | firstWrite => exact Nat.lt_succ_self 2
  | firstRead => exact Nat.lt_succ_self 2
  | thenRead w b _ => exact Nat.lt_succ_self 1
  | thenWrite r b _ => exact Nat.lt_succ_self 1
  | enqRet => exact absurd rfl hret
  | deqRet t v => exact absurd rfl hret
  | batchRet => exact absurd rfl hret
  | isEmptyRet b => exact absurd rfl hret
  | deqClaim d => cases d <;> cases hop _ rfl
  | deqPass d t _ => cases d <;> cases hop _ rfl
  | deqRetry d t _ => cases d <;> cases hop _ rfl
  | deqCopy d t buf j left _ => cases d <;> cases hop _ rfl
  | deqPublish d t buf v _ => cases d <;> cases hop _ rfl
  | loopNext i count _ => cases hop _ rfl
  | loopEnd i count _ => cases hop _ rfl
  | _ => cases hop _ rfl

omit [DecidableEq Tid] in
/-- A thread is in a member function of the queue until it returns. -/
theorem ne_idle_of_ne_ret {m m' : Ring.Mem ℕ (Fn Tid) 1} {p p' : Ring.Pc ℕ ℕ (Fn Tid) 1}
    {b : Ring.Micro (Fn Tid) 1}
    (hx : Ring.Exec (Ring.unbounded taskQueueConfig) taskQueueConfig m p b m' p')
    (hret : b ≠ .ret) : p' ≠ .idle := by
  cases hx with
  | call c => cases c <;> nofun
  | enqPass k v t _ => unfold Ring.Pc.enqPast; split_ifs <;> nofun
  | deqPublish d t buf v _ => cases d <;> nofun
  | enqRet => exact absurd rfl hret
  | deqRet t v => exact absurd rfl hret
  | batchRet => exact absurd rfl hret
  | isEmptyRet b => exact absurd rfl hret
  | _ => nofun

/-- Each step of the dispatcher brings it nearer to its exit, once it has been told to stop. -/
theorem DispatcherStep.exitDistance_lt (hs : DispatcherStep cfg s s') (ha : Agree s)
    (hstops : DispatcherStops s) (hstage : 4 ≤ s.destructor.stage) (hleaves : s.Leaves) :
    s'.dispatcher.exitDistance (s'.queue.pc .dispatcher) <
      s.dispatcher.exitDistance (s.queue.pc .dispatcher) := by
  have hrun := hstops.running (le_trans (by decide) hstage)
  have hidle : s.dispatcher.op = none → s.queue.pc .dispatcher = .idle := ha.idle_of_op_eq_none
  obtain ⟨hscan, hdeq⟩ := hleaves
  cases hs with
  | enter hp hr => cases hrun.symm.trans hr
  | exit hp hr => simp [hp, Dispatcher.exitDistance]
  | wait g g' hp hw =>
    have hf := hstops.flag (le_trans (by decide) hstage) g hp
    cases hw with
    | miss hne => exact absurd hf hne
    | sleep hz => cases hf.symm.trans hz
    | again _ => simp [hp, Dispatcher.exitDistance]
    | spurious => simp [hp, Dispatcher.exitDistance]
  | pass hp _ => simp [hp, Dispatcher.exitDistance]
  | drain hp hr => cases hrun.symm.trans hr
  | stop hp hr =>
    simp [hp, Dispatcher.exitDistance, Dispatcher.exitDistance.asked, hidle (by rw [hp]; rfl)]
  | inside op b q hp hcall hret hq =>
    obtain ⟨m, pc, hx, rfl⟩ := queueStep_eq_some.1 hq
    rcases Dispatcher.op_eq_some hp with ⟨rfl, k, hd⟩ | ⟨-, hd⟩
    · have hop : ∀ op, (s.queue.pc .dispatcher).op = some op → op = .isEmpty := by
        intro op hop
        rcases ha.dispatcher with hi | hi
        · rw [hi] at hop
          cases hop
        · exact Option.some.inj (hop.symm.trans (hi.trans hp))
      have hlt := asked_lt hx hop hcall hret
      cases k <;> simp [hd, Dispatcher.exitDistance, hlt]
    · exact absurd hd hdeq
  | answer k b q hp hb hq =>
    obtain ⟨m, pc, hx, rfl⟩ := queueStep_eq_some.1 hq
    simp only [Ring.put_pc_self, hx.ret_inv.2, hp, hb]
    cases k <;> cases b <;> simp [Check.next, Dispatcher.exitDistance,
      Dispatcher.exitDistance.asked, Ring.Pc.remaining]
  | take t v q hp hv hq => exact absurd hp hdeq
  | claim first start hp _ => exact absurd ⟨first, start, hp⟩ hscan
  | next first _ start hp _ => exact absurd ⟨first, start, hp⟩ hscan
  | write left hp => simp [hp, Dispatcher.exitDistance]
  | store hp => simp [hp, Dispatcher.exitDistance]
  | wake hp => simp [hp, Dispatcher.exitDistance]
  | reset hp =>
    simp [hp, Dispatcher.exitDistance, Dispatcher.exitDistance.asked, hidle (by rw [hp]; rfl)]
  | signalStore hp => simp [hp, Dispatcher.exitDistance]
  | signalWake hp => simp [hp, Dispatcher.exitDistance]

omit [DecidableEq Tid] in
/-- Each step of a worker brings it nearer to its exit, once it has been told to stop. -/
theorem WorkerStep.remaining_lt_of_stopped {w w' : Worker Tid} (hs : WorkerStep w w')
    (hrun : w.running = false) (hflag : ∀ g, w.pc = .waiter g → w.flag = 1) :
    w'.pc.remaining 1 < w.pc.remaining 1 := by
  cases hs with
  | enter hp hr => cases hrun.symm.trans hr
  | wait g g' hp hw =>
    rw [hp]
    cases hw with
    | miss hne => exact absurd (hflag _ hp) hne
    | sleep hz => cases (hflag _ hp).symm.trans hz
    | again _ => exact Nat.lt_succ_self 8
    | spurious => exact Nat.lt_succ_self 8
  | exit hp _ => simp [hp, Loop.remaining]
  | pass hp _ => simp [hp, Loop.remaining]
  | accept t hp _ => simp [hp, Loop.remaining]
  | skip hp _ => simp [hp, Loop.remaining]
  | start t hp _ => simp [hp, Loop.remaining]
  | finish t hp => simp [hp, Loop.remaining]
  | clear hp => simp [hp, Loop.remaining]
  | reset hp => simp [hp, Loop.remaining]
  | release hp => simp [hp, Loop.remaining]

/-! ### The run -/

namespace Fair

variable {z : ℕ → State Tid × Log Tid} {a : ℕ → Option (Thread Tid × Micro Tid)}

/-- A `dequeue` of the dispatcher ends, and the search for a worker begins. -/
theorem dequeue_ends (h : Fair cfg z a) {k : ℕ} (hd : (z k).1.dispatcher = .dequeue) :
    ∃ j ≥ k, (z j).1.Scans := by
  by_contra hnever
  have hstep : ∀ {s s' : State Tid} {b}, Step cfg s b s' → Agree s →
      s.dispatcher = .dequeue → ¬ s'.Scans → s'.dispatcher = .dequeue ∧
        (s.queue.pc .dispatcher ≠ .idle ∨ b.1 = .dispatcher → s'.queue.pc .dispatcher ≠ .idle) := by
    intro s s' b hs ha hd hscan
    rcases hs.of_dispatcher ha with ⟨-, hs⟩ | ⟨hne, hd', hpc, -⟩
    · cases hs with
      | inside op b q hp hcall hret hq =>
        refine ⟨hd, fun _ => ?_⟩
        obtain ⟨m, pc, hx, rfl⟩ := queueStep_eq_some.1 hq
        rw [Ring.put_pc_self]
        exact ne_idle_of_ne_ret hx hret
      | take t v q hp hv hq => exact absurd ⟨true, _, rfl⟩ hscan
      | wait g g' hp hw => cases hd.symm.trans hp
      | answer k b q hp _ _ => cases hd.symm.trans hp
      | claim _ _ hp _ => cases hd.symm.trans hp
      | next _ _ _ hp _ => cases hd.symm.trans hp
      | write left hp => cases hd.symm.trans hp
      | _ hp => cases hd.symm.trans hp
    · refine ⟨?_, fun h => hpc ▸ h.resolve_right hne⟩
      rcases hd' with hd' | hd' <;> rw [hd', hd]
      rfl
  have hdequeues : ∀ j ≥ k, (z j).1.dispatcher = .dequeue ∧ ¬ (z j).1.Scans := by
    refine fun j hj => ⟨?_, fun hs => hnever ⟨j, hj, hs⟩⟩
    exact h.stays (I := fun q => ¬ q.1.Scans) (P := fun q => q.1.dispatcher = .dequeue)
      (fun j hj hs => hnever ⟨j, hj, hs⟩) hd (fun s l b s' hr _ hI' hP hs =>
        (hstep hs (Agree.reachable hr.of_log.of_restrict) hP hI').1) j hj
  -- the call is made, and does not return
  obtain ⟨m, hm, hcalled⟩ : ∃ m ≥ k, (z m).1.queue.pc .dispatcher ≠ .idle := by
    by_cases hidle : (z k).1.queue.pc .dispatcher = .idle
    · refine h.progress .dispatcher (I := fun q => q.1.dispatcher = .dequeue ∧ ¬ q.1.Scans)
        (P := fun q => q.1.queue.pc .dispatcher = .idle)
        (Q := fun q => q.1.queue.pc .dispatcher ≠ .idle) (fun _ => 0) hdequeues hidle ?_ ?_
      · rintro s l b s' hr ⟨hI, -⟩ ⟨-, hI'⟩ hP hs
        have ha := Agree.reachable hr.of_log.of_restrict
        by_cases hb : b.1 = .dispatcher
        · exact Or.inl ((hstep hs ha hI hI').2 (Or.inr hb))
        · rcases hs.of_dispatcher ha with ⟨hb', -⟩ | ⟨-, -, hpc, -⟩
          · exact absurd hb' hb
          · exact Or.inr ⟨hpc.trans hP, le_rfl, fun hb' => absurd hb' hb⟩
      · rintro s l hr ⟨hI, -⟩ -
        exact exists_dispatcher_go (Agree.reachable hr.of_log.of_restrict) (by rw [hI]; simp)
          (by rw [hI]; simp)
    · exact ⟨k, le_rfl, hidle⟩
  obtain ⟨j, hj, hidle⟩ := h.dispatcher_returns m
  refine h.stays (I := fun q => q.1.dispatcher = .dequeue ∧ ¬ q.1.Scans)
    (P := fun q => q.1.queue.pc .dispatcher ≠ .idle)
    (fun j hj => hdequeues j (by omega)) hcalled ?_ j hj hidle
  rintro s l b s' hr ⟨hI, -⟩ ⟨-, hI'⟩ hP hs
  exact (hstep hs (Agree.reachable hr.of_log.of_restrict) hI hI').2 (Or.inl hP)

/-- Once it has been told to stop, the dispatcher exits, or it goes to look for a
worker, or into `dequeue`. -/
theorem exits_or_takes (h : Fair cfg z a) {k : ℕ} (hjoin : ∀ j ≥ k, (z j).1.destructor = .join)
    (hleaves : (z k).1.Leaves) :
    ∃ j ≥ k, (z j).1.dispatcher = .exited ∨ ¬ (z j).1.Leaves ∧
      21 < (z k).1.dispatcher.exitDistance ((z k).1.queue.pc .dispatcher) := by
  set n := (z k).1.dispatcher.exitDistance ((z k).1.queue.pc .dispatcher) with hn
  by_contra hnever
  refine hnever (h.progress .dispatcher (I := fun q => q.1.destructor = .join ∧
    q.1.dispatcher ≠ .exited)
    (P := fun q => q.1.Leaves ∧ q.1.dispatcher.exitDistance (q.1.queue.pc .dispatcher) ≤ n)
    (Q := fun q => q.1.dispatcher = .exited ∨ ¬ q.1.Leaves ∧ 21 < n)
    (fun q => q.1.dispatcher.exitDistance (q.1.queue.pc .dispatcher))
    (fun j hj => ⟨hjoin j hj, fun he => hnever ⟨j, hj, Or.inl he⟩⟩) ⟨hleaves, hn.ge⟩ ?_ ?_)
  · rintro s l b s' hr ⟨hd, -⟩ - ⟨hleaves, hle⟩ hs
    have hr := hr.of_log.of_restrict
    have ha := Agree.reachable hr
    have hstops := DispatcherStops.reachable hr
    have hstage : 4 ≤ s.destructor.stage := by rw [show s.destructor = .join from hd]; exact le_rfl
    rcases hs.of_dispatcher ha with ⟨-, hs⟩ | ⟨hne, hd', hpc, -⟩
    · have hlt := hs.exitDistance_lt ha hstops hstage hleaves
      by_cases hleaves' : s'.Leaves
      · exact Or.inr ⟨⟨hleaves', hlt.le.trans hle⟩, hlt.le, fun _ => hlt⟩
      · rw [State.exitDistance_of_not_leaves hleaves'] at hlt
        exact Or.inl (Or.inr ⟨hleaves', hlt.trans_le hle⟩)
    · have hsame : s'.dispatcher = s.dispatcher :=
        hd'.elim id fun hd' => hd'.trans (Dispatcher.woken_of_ne_asleep (hstops.awake hstage))
      right
      simp only [State.Leaves, State.Scans, hsame, hpc]
      exact ⟨⟨hleaves, hle⟩, le_rfl, fun hb => absurd hb hne⟩
  · rintro s l hr ⟨hd, hexit⟩ -
    have hr := hr.of_log.of_restrict
    refine exists_dispatcher_go (Agree.reachable hr) hexit ((DispatcherStops.reachable hr).awake ?_)
    rw [show s.destructor = .join from hd]
    exact le_rfl

/-- **The dispatcher exits**, when `~ThreadPool` waits for it. -/
theorem dispatcher_exits (h : Fair cfg z a) {k : ℕ} (hjoin : ∀ j ≥ k, (z j).1.destructor = .join) :
    ∃ m ≥ k, ∀ j ≥ m, (z j).1.dispatcher = .exited := by
  have hstays : ∀ m, (z m).1.dispatcher = .exited → ∀ j ≥ m, (z j).1.dispatcher = .exited := by
    intro m hm
    refine h.stays (I := fun _ => True) (P := fun q => q.1.dispatcher = .exited)
      (fun _ _ => trivial) hm ?_
    intro s l b s' hr _ _ hP hs
    have hP : s.dispatcher = .exited := hP
    rcases hs.of_dispatcher (Agree.reachable hr.of_log.of_restrict) with ⟨-, hs⟩ | ⟨-, hd, -⟩
    · exact absurd hP hs.ne_exited
    · rcases hd with hd | hd <;> simp [hd, hP, Dispatcher.woken]
  suffices hexit : ∃ j ≥ k, (z j).1.dispatcher = .exited by
    obtain ⟨m, hm, he⟩ := hexit
    exact ⟨m, hm, hstays m he⟩
  by_contra hnever
  -- it may take a task once more
  obtain ⟨m₁, h₁, hstop⟩ : ∃ j ≥ k, ¬ (z j).1.Leaves := by
    by_cases hleaves : (z k).1.Leaves
    · obtain ⟨j, hj, he | ⟨hl, -⟩⟩ := h.exits_or_takes hjoin hleaves
      · exact absurd ⟨j, hj, he⟩ hnever
      · exact ⟨j, hj, hl⟩
    · exact ⟨k, le_rfl, hleaves⟩
  obtain ⟨m₂, h₂, hscan⟩ : ∃ j ≥ m₁, (z j).1.Scans := by
    by_cases hscan : (z m₁).1.Scans
    · exact ⟨m₁, le_rfl, hscan⟩
    · exact h.dequeue_ends (by by_contra hne; exact hstop ⟨hscan, hne⟩)
  obtain ⟨m₃, h₃, hwrite⟩ := h.scan_ends hscan
  have hleaves : (z m₃).1.Leaves := by
    refine ⟨?_, by rw [hwrite]; simp⟩
    rintro ⟨_, _, hp⟩
    rw [hwrite] at hp
    cases hp
  obtain ⟨j, hj, he | ⟨-, hlt⟩⟩ := h.exits_or_takes (fun j hj => hjoin j (by omega)) hleaves
  · exact hnever ⟨j, by omega, he⟩
  · rw [hwrite] at hlt
    exact absurd hlt (by decide : ¬ 21 < 20)

/-- **A worker exits**, when `~Worker` waits for it. -/
theorem worker_exits (h : Fair cfg z a) {k i : ℕ}
    (hjoin : ∀ j ≥ k, (z j).1.destructor = .workerJoin i) :
    ∃ m ≥ k, ∀ j ≥ m, ((z j).1.workers i).pc = .exited := by
  have hdest : ∀ {s : State Tid} {l : Log Tid}, (logged Tid cfg).Reachable (s, l) →
      s.destructor = .workerJoin i → i < cfg.THREAD_COUNT ∧ (s.workers i).running = false ∧
      WorkerStops (.workerJoin i) i (s.workers i) ∧
        s.dispatcher = .exited := by
    intro s l hr hd
    have hw := WorkersStop.reachable hr.of_log
    refine ⟨hw.lt i (by rw [hd]; rfl), (HandOff.reachable hr.of_log).destroyed i (by rw [hd]; rfl),
      ?_, ?_⟩
    · exact hd ▸ hw.stops i
    · exact dispatcher_exited hr.of_log.of_restrict (by rw [hd]; rfl)
  obtain ⟨m, hm, hexit⟩ : ∃ j ≥ k, ((z j).1.workers i).pc = .exited := by
    by_contra hnever
    refine hnever (h.progress (.worker i)
      (I := fun q => q.1.destructor = .workerJoin i ∧ (q.1.workers i).pc ≠ .exited)
      (P := fun _ => True) (Q := fun q => (q.1.workers i).pc = .exited)
      (fun q => (q.1.workers i).pc.remaining 1)
      (fun j hj => ⟨hjoin j hj, fun he => hnever ⟨j, hj, he⟩⟩) trivial ?_ ?_)
    · rintro s l b s' hr ⟨hd, -⟩ - - hs
      obtain ⟨-, hrun, hstops, hexit⟩ := hdest hr hd
      right
      rcases hs.of_worker i with ⟨-, hw⟩ | ⟨hne, ht⟩
      · have hlt := hw.remaining_lt_of_stopped hrun (hstops.flag (Or.inr rfl))
        exact ⟨trivial, hlt.le, fun _ => hlt⟩
      · have hsame : s'.workers i = s.workers i := by
          generalize s'.workers i = w at ht
          cases ht with
          | same => rfl
          | own hθ _ => exact absurd hθ hne
          | claim _ _ _ hp _ _ => cases hexit.symm.trans hp
          | write _ hp _ => cases hexit.symm.trans hp
          | store _ hp _ => cases hexit.symm.trans hp
          | wake _ hp _ => cases hexit.symm.trans hp
          | workerSet _ hp => cases hd.symm.trans hp
          | workerStore _ hp => cases hd.symm.trans hp
          | workerWake _ hp => cases hd.symm.trans hp
        simp only [hsame]
        exact ⟨trivial, le_rfl, fun hb => absurd hb hne⟩
    · rintro s l hr ⟨hd, hexit⟩ -
      obtain ⟨hi, -, hstops, -⟩ := hdest hr hd
      exact exists_worker_step hi hexit (hstops.awake rfl) hstops.call
  exact ⟨m, hm, h.stays (I := fun _ => True) (P := fun q => (q.1.workers i).pc = .exited)
    (fun _ _ => trivial) hexit fun s l b s' _ _ _ hP hs => hs.exited hP⟩

/-- **`~ThreadPool` goes on.** What it waits for comes to pass. -/
theorem destructor_goes (h : Fair cfg z a) {k : ℕ} (hidle : (z k).1.destructor ≠ .idle)
    (hdone : (z k).1.destructor ≠ .done) :
    ∃ j ≥ k, (z j).1.destructor = (z k).1.destructor.next cfg := by
  set d := (z k).1.destructor with hd
  have hstep : ∀ {s s' : State Tid} {b}, Step cfg s b s' → s.destructor = d →
      s'.destructor = d.next cfg ∨ s'.destructor = d ∧ b.1 ≠ .destructor := by
    intro s s' b hs hP
    rcases hs.of_destructor with ⟨-, hs⟩ | ⟨hne, hsame⟩
    · exact Or.inl (hs.next.trans (congrArg _ hP))
    · exact Or.inr ⟨hsame.trans hP, hne⟩
  by_contra hnever
  have hstays : ∀ j ≥ k, (z j).1.destructor = d :=
    h.stays (I := fun q => q.1.destructor ≠ d.next cfg) (P := fun q => q.1.destructor = d)
      (fun j hj hn => hnever ⟨j, hj, hn⟩) hd.symm
      fun s l b s' _ _ hne hP hs => ((hstep hs hP).resolve_left hne).1
  -- from some time on the threads that are joined have exited
  obtain ⟨m, hm, hready⟩ : ∃ m ≥ k, ∀ j ≥ m, (d = .join → (z j).1.dispatcher = .exited) ∧
      ∀ i, d = .workerJoin i → ((z j).1.workers i).pc = .exited := by
    cases hc : d with
    | join =>
      obtain ⟨m, hm, hexit⟩ := h.dispatcher_exits fun j hj => (hstays j hj).trans hc
      exact ⟨m, hm, fun j hj => ⟨fun _ => hexit j hj, by simp⟩⟩
    | workerJoin i =>
      obtain ⟨m, hm, hexit⟩ := h.worker_exits fun j hj => (hstays j hj).trans hc
      refine ⟨m, hm, fun j hj => ⟨by simp, ?_⟩⟩
      rintro i ⟨⟩
      exact hexit j hj
    | _ => exact ⟨k, le_rfl, fun _ _ => ⟨by simp, by simp⟩⟩
  obtain ⟨j, hj, hn⟩ := h.progress .destructor
    (I := fun q => (d = .join → q.1.dispatcher = .exited) ∧ ∀ i, d = .workerJoin i →
      (q.1.workers i).pc = .exited)
    (P := fun q => q.1.destructor = d) (Q := fun q => q.1.destructor = d.next cfg)
    (fun _ => 0) hready (hstays m hm) (fun s l b s' _ _ _ hP hs => (hstep hs hP).imp id
      fun hkeep => ⟨hkeep.1, le_rfl, fun hb => absurd hb hkeep.2⟩)
    fun s l _ hI hP => ⟨.go, s.exists_destructor_go hP hidle hdone hI.1 hI.2⟩
  exact hnever ⟨j, by omega, hn⟩

/-- `~ThreadPool` returns. -/
theorem exists_done (h : Fair cfg z a) {k : ℕ} (hd : (z k).1.destructor ≠ .idle) :
    ∃ j ≥ k, (z j).1.destructor = .done := by
  induction hn : (z k).1.destructor.remaining cfg using Nat.strong_induction_on generalizing k with
  | _ n ih =>
    by_cases hdone : (z k).1.destructor = .done
    · exact ⟨k, le_rfl, hdone⟩
    · obtain ⟨m, hm, hnext⟩ := h.destructor_goes hd hdone
      have hlt := Destructor.remaining_next_lt cfg hdone
      rw [hn, ← hnext] at hlt
      obtain ⟨j, hj, hdone'⟩ := ih _ hlt (k := m) (hnext ▸ Destructor.next_ne_idle cfg) rfl
      exact ⟨j, by omega, hdone'⟩

end Fair

/-- **`~ThreadPool` returns.** Take a fair execution in which functions are not empty.  Once the
destructor has been called, it returns, and from then on no thread of the pool is left. -/
theorem destructor_returns {z : ℕ → State Tid × Log Tid} {a : ℕ → Option (Thread Tid × Micro Tid)}
    (h : Fair cfg z a) {k : ℕ} (hd : (z k).1.destructor ≠ .idle) :
    ∃ j ≥ k, ∀ i ≥ j, (z i).1.destructor = .done ∧ (z i).1.dispatcher = .exited ∧
      ∀ w < cfg.THREAD_COUNT, ((z i).1.workers w).pc = .exited := by
  obtain ⟨j, hj, hdone⟩ := h.exists_done hd
  have hstays : ∀ i ≥ j, (z i).1.destructor = .done := by
    refine h.stays (I := fun _ => True) (P := fun q => q.1.destructor = .done)
      (fun _ _ => trivial) hdone ?_
    intro s l b s' _ _ _ hP hs
    rcases hs.of_destructor with ⟨-, hs⟩ | ⟨-, hsame⟩
    · exact hs.next.trans (congrArg (Destructor.next cfg) hP)
    · exact hsame.trans hP
  refine ⟨j, hj, fun i hi => ⟨hstays i hi, ?_, fun w hw => ?_⟩⟩
  · exact dispatcher_exited (h.reachable i).of_log.of_restrict (by rw [hstays i hi]; rfl)
  · exact (Joined.reachable (h.reachable i).of_log.of_restrict).exited w hw (Or.inl (hstays i hi))

/-- The pool has been destroyed, and nobody is in `assignTask`. -/
structure State.AtEnd (cfg : Config) (s : State Tid) : Prop where
  dispatcher : s.dispatcher = .exited
  workers : ∀ i < cfg.THREAD_COUNT, (s.workers i).pc = .exited
  producers : ∀ p, s.producer p = .idle
  destructor : s.destructor = .done

/-- Of a destroyed pool nothing is left that could go on. -/
theorem State.AtEnd.not_enabled (h : s.AtEnd cfg) (θ : Thread Tid) :
    ¬ (logged Tid cfg).Enabled (Obliged θ) (s, l) := by
  rintro ⟨⟨θ, m⟩, ⟨s', l'⟩, ⟨rfl, hassign, -⟩, ⟨-, hs⟩, -⟩
  have hs : step cfg s (θ, m) = some s' := hs
  cases θ with
  | producer p =>
    cases m with
    | assignTask empty => exact hassign empty rfl
    | _ => simp [step, producerStep, h.producers p] at hs
  | dispatcher => cases m <;> simp [step, dispatcherStep, h.dispatcher] at hs
  | worker i =>
    simp only [step] at hs
    split_ifs at hs with hi
    cases m <;> simp [Worker.step, h.workers i hi] at hs
  | destructor => cases m <;> simp [step, destructorStep, h.destructor] at hs

/-- One task is assigned, and the pool is destroyed while the worker is on its way to it. -/
def inAndOut : List (Thread Unit × Micro Unit) :=
  oneTask () ++ destroys ++ dispatcherExits ++ goesOn .destructor 2 ++ goesOn (.worker 0) 8 ++
  goesOn .destructor 3

/-- After the call `~ThreadPool` has begun, and at the end all threads have exited. -/
def leaves (k : ℕ) (q : State Unit × Log Unit) : Bool :=
  (k != (oneTask () : List (Thread Unit × Micro Unit)).length + 1 ||
    q.1.destructor == .setRunning) &&
  (k != inAndOut.length || (q.1.destructor == .done) && (q.1.dispatcher matches .exited) &&
    ((q.1.workers 0).pc matches .exited) && q.1.producer () == .idle)

theorem inAndOut_leaves : ∀ k ≤ inAndOut.length, ((inAndOut.take k).foldlM soleStep
    (fresh (fun _ _ => none) fun _ _ => none, Log.empty)).map (leaves k) = some true := by
  decide +kernel

theorem destructor_returns_inAndOut :
    ∃ (z : ℕ → State Unit × Log Unit) (a : ℕ → Option (Thread Unit × Micro Unit)),
      Fair single z a ∧
      ∃ k, (z k).1.destructor = .setRunning ∧
      ∃ j ≥ k, ∀ i ≥ j, (z i).1.destructor = .done ∧ (z i).1.dispatcher = .exited ∧
        ∀ w < single.THREAD_COUNT, ((z i).1.workers w).pc = .exited := by
  have hinit : (logged Unit single).init (fresh (fun _ _ => none) fun _ _ => none, Log.empty) :=
    ⟨⟨_, _, rfl⟩, rfl⟩
  have hne : inAndOut.all (fun a => !assignsEmpty a) = true := by decide
  obtain ⟨x, hx, hp⟩ := exists_run_of_checks hinit (.dispatcher, .go) inAndOut_leaves
    fun q a ha q' h => by
      obtain ⟨s, hs, rfl⟩ := Option.map_eq_some_iff.1 h
      refine ⟨⟨?_, hs⟩, rfl⟩
      rintro p rfl
      cases List.all_eq_true.1 hne _ ha
  have hlt : (oneTask () : List (Thread Unit × Micro Unit)).length + 1 ≤ inAndOut.length := by
    decide
  have hcalled : (x ((oneTask () : List (Thread Unit × Micro Unit)).length + 1)).1.destructor =
      .setRunning := by
    have := hp _ hlt
    simp only [leaves, Bool.and_eq_true, bne_self_eq_false, Bool.false_or, beq_iff_eq] at this
    exact this.1
  have hend := hp _ le_rfl
  simp only [leaves, Bool.and_eq_true, bne_self_eq_false, Bool.false_or, beq_iff_eq] at hend
  obtain ⟨-, ⟨⟨hdone, hd⟩, hw⟩, hidle⟩ := hend
  have hrest : (x inAndOut.length).1.AtEnd single := by
    refine ⟨?_, fun i hi => ?_, fun _ => hidle, hdone⟩
    · cases hc : (x inAndOut.length).1.dispatcher with
      | exited => rfl
      | _ => simp [hc] at hd
    · obtain rfl : i = 0 := Nat.lt_one_iff.1 hi
      cases hc : ((x inAndOut.length).1.workers 0).pc with
      | exited => rfl
      | _ => simp [hc] at hw
  obtain ⟨z, d, hz, hbefore, hafter⟩ := hx.exists_execution (c := none) (by simp)
  have hfair : Fair single z d :=
    ⟨hz, fun θ => weaklyFair_of_loop hafter fun hen => absurd hen (hrest.not_enabled θ)⟩
  have hcalled' := (congrArg (fun q => q.1.destructor) (hbefore _ hlt)).trans hcalled
  exact ⟨z, d, hfair, _, hcalled', destructor_returns hfair (by rw [hcalled']; simp)⟩

end AstraLib.ThreadPool
