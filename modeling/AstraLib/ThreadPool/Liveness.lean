import AstraLib.ThreadPool.Fair

/-!
# `ThreadPool`: every task is executed

Take a fair execution in which `~ThreadPool` is not called.  As long as a claimed ticket has not
been taken out of the queue, the dispatcher cannot come to rest.  The thread that claimed the ticket
opens the gate after it has published its task (`Fair.exists_signal`), and from then on the gate
stays open, or the dispatcher is about to open it again itself, because its second check does not
find the queue empty (`Lit`).  So it takes the ticket in the end (`Fair.taken`).  The rest of the
way leads from the dispatcher to the slot of a worker, and through its loop.
-/

namespace AstraLib.ThreadPool

open Interleaving System

variable {Tid : Type} [DecidableEq Tid] {cfg : Config} {s s' : State Tid} {l : Log Tid}

/-! ### The dispatcher -/

/-- Before the shutdown the dispatcher goes round its loop. -/
theorem running_of_idle (h : (system cfg).Reachable s) (hd : s.destructor = .idle) :
    s.running = true ∧ s.dispatcher ≠ .exited := by
  have hI : (system cfg).IsInvariant fun s : State Tid =>
      s.destructor = .idle → s.running = true ∧ s.dispatcher ≠ .exited := by
    constructor
    · rintro s ⟨data, array, rfl⟩ -
      exact ⟨rfl, by simp [fresh]⟩
    · intro s b s' _ ih hstep hd
      have hs := step_cases hstep
      obtain ⟨hd, hne⟩ := hs.idle hd
      obtain ⟨hrun, hexit⟩ := ih hd
      cases hs with
      | producer hs =>
        cases hs with
        | wake hp => exact ⟨hrun, fun hw => hexit (Dispatcher.eq_of_woken_eq hw (by simp))⟩
        | _ => exact ⟨hrun, hexit⟩
      | worker hi hw => exact ⟨hrun, hexit⟩
      | dispatcher hs =>
        cases hs with
        | exit hp hr => cases hrun.symm.trans hr
        | inside op b q hp => exact ⟨hrun, hexit⟩
        | answer k b q hp _ _ => exact ⟨hrun, by cases k <;> cases b <;> simp [Check.next]⟩
        | _ => exact ⟨hrun, by simp⟩
      | destructor hs => exact absurd rfl hne
  exact hI.reachable h hd

/-- The dispatcher holds no task and no read ticket. -/
def State.Settled (s : State Tid) : Prop :=
  s.dispatcher.carries = false ∧ (s.queue.pc .dispatcher).held = []

/-- What the dispatcher has to do to take a ticket, if it does not find the queue empty. -/
def Dispatcher.distance (p : Ring.Pc ℕ ℕ (Fn Tid) 1) : Dispatcher → ℕ
  | .dequeue => inside p
  | .isEmpty .drain => 4 + inside p
  | .drainTest => 9
  | .waiter .load | .wake => 10
  | .waiter .wait | .store => 11
  | .loopTest => 12
  | .signalWake => 13
  | .signalStore => 14
  | .isEmpty .recheck => 14 + inside p
  | .isEmpty .reset => 12 + inside p
  | .reset => 19
  | _ => 0
where
  /-- the steps of `isEmpty`, and of `dequeue` up to its claim -/
  inside : Ring.Pc ℕ ℕ (Fn Tid) 1 → ℕ
    | .idle => 4
    | .isEmptyCall => 3
    | .isEmptyWrite _ | .isEmptyRead _ => 2
    | _ => 1

/-- The next answer of `isEmpty` is `false`, for the ticket `r` is in the queue. -/
def Fresh (r : ℕ) : Ring.Pc ℕ ℕ (Fn Tid) 1 → Prop
  | .isEmptyWrite w => r < w
  | .isEmptyReturn b => b = false
  | _ => True

omit [DecidableEq Tid] in
theorem Fresh.step {r : ℕ} {m m' : Ring.Mem ℕ (Fn Tid) 1} {p p' : Ring.Pc ℕ ℕ (Fn Tid) 1}
    {b : Ring.Micro (Fn Tid) 1} (h : Fresh r p)
    (hx : Ring.Exec (Ring.unbounded taskQueueConfig) taskQueueConfig m p b m' p')
    (hread : m.readTicket ≤ r) (hwrite : r < m.writeTicket)
    (hknows : Knows m.readTicket m.writeTicket p) :
    Fresh r p' := by
  cases hx with
  | firstWrite => exact hwrite
  | thenRead w b hb =>
    have hw : r < w := h
    exact Bool.eq_false_iff.2 fun ht => by have := hb.1 ht; omega
  | thenWrite r' b hb =>
    have hr : r' = m.readTicket := hknows
    exact Bool.eq_false_iff.2 fun ht => by have := hb.1 ht; omega
  | call c => cases c <;> trivial
  | enqPass k v t _ => unfold Ring.Pc.enqPast; split_ifs <;> trivial
  | deqPublish d t buf v _ => cases d <;> trivial
  | _ => trivial

/-- The gate of the dispatcher is open, or it is going to open it itself. -/
def Lit (r : ℕ) (s : State Tid) : Prop :=
  s.taskFlag = 1 ∨ s.dispatcher = .signalStore ∨
    s.dispatcher = .isEmpty .recheck ∧ Fresh r (s.queue.pc .dispatcher)

theorem Lit.step {r : ℕ} {b : Thread Tid × Micro Tid} (h : Lit r s) (hr : (system cfg).Reachable s)
    (hread : s.queue.mem.readTicket ≤ r) (hwrite : r < s.queue.mem.writeTicket)
    (hs : Step cfg s b s') : Lit r s' := by
  have ha := Agree.reachable hr
  rcases hs.of_dispatcher ha with ⟨-, hs⟩ | ⟨-, hd, hpc, -, hf⟩
  · -- everywhere else the gate is open
    have hquiet : s'.taskFlag = s.taskFlag → s.dispatcher.op = none →
        s.dispatcher ≠ .signalStore → Lit r s' := by
      intro hf hop hne
      rcases h with hf' | hd | ⟨hd, -⟩
      · exact Or.inl (hf.trans hf')
      · exact absurd hd hne
      · rw [hd] at hop
        cases hop
    cases hs with
    | reset hp =>
      refine Or.inr (Or.inr ⟨rfl, ?_⟩)
      rw [show s.queue.pc .dispatcher = .idle from ha.idle_of_op_eq_none (by rw [hp]; rfl)]
      trivial
    | signalStore hp => exact Or.inl rfl
    | inside op b q hp hcall hret hq =>
      rcases h with hf | hd | ⟨hd, hfresh⟩
      · exact Or.inl hf
      · rw [hd] at hp
        cases hp
      · obtain ⟨m, pc, hx, rfl⟩ := queueStep_eq_some.1 hq
        refine Or.inr (Or.inr ⟨hd, ?_⟩)
        rw [Ring.put_pc_self]
        exact hfresh.step hx hread hwrite (Counters.reachable hr).knows
    | answer k b q hp hb hq =>
      rcases h with hf | hd | ⟨hd, hfresh⟩
      · exact Or.inl hf
      · cases hd.symm.trans hp
      · cases hd.symm.trans hp
        rw [hb] at hfresh
        obtain rfl : b = false := hfresh
        exact Or.inr (Or.inl rfl)
    | take t v q hp _ _ =>
      rcases h with hf | hd | ⟨hd, -⟩
      · exact Or.inl hf
      · cases hd.symm.trans hp
      · cases hd.symm.trans hp
    | wait g g' hp hw => exact hquiet rfl (by rw [hp]; rfl) (by simp [hp])
    | claim _ _ hp _ => exact hquiet rfl (by rw [hp]; rfl) (by simp [hp])
    | next _ _ _ hp _ => exact hquiet rfl (by rw [hp]; rfl) (by simp [hp])
    | write left hp => exact hquiet rfl (by rw [hp]; rfl) (by simp [hp])
    | _ hp => exact hquiet rfl (by rw [hp]; rfl) (by simp [hp])
  · rcases h with hf' | hd' | ⟨hd', hfresh⟩
    · exact Or.inl (hf.elim (fun hf => hf.trans hf') id)
    · exact Or.inr (Or.inl (by rcases hd with hd | hd <;> rw [hd, hd']; rfl))
    · exact Or.inr (Or.inr ⟨by rcases hd with hd | hd <;> rw [hd, hd']; rfl, hpc ▸ hfresh⟩)

/-- As long as no ticket is taken, the dispatcher stays without one, and without a task. -/
theorem State.Settled.step {b : Thread Tid × Micro Tid} (h : s.Settled) (ha : Agree s)
    (hs : Step cfg s b s')
    (hread : s'.queue.mem.readTicket = s.queue.mem.readTicket) : s'.Settled := by
  obtain ⟨hcarries, hheld⟩ := h
  rcases hs.of_dispatcher ha with ⟨-, hs⟩ | ⟨-, hd, hpc, -⟩
  · cases hs with
    | inside op b q hp hcall hret hq =>
      obtain ⟨m, pc, hx, rfl⟩ := queueStep_eq_some.1 hq
      refine ⟨hcarries, ?_⟩
      rw [Ring.put_pc_self]
      generalize s.queue.pc .dispatcher = pc₀ at hx hheld
      cases hx with
      | call c => cases c <;> rfl
      | enqPass k v t _ => unfold Ring.Pc.enqPast; split_ifs <;> rfl
      | deqClaim d => exact absurd hread (Nat.succ_ne_self _)
      | deqPass d t _ => cases hheld
      | deqRetry d t _ => cases hheld
      | deqCopy d t buf j left _ => cases hheld
      | deqPublish d t buf v _ => cases hheld
      | _ => rfl
    | answer k b q hp hb hq =>
      obtain ⟨m, pc, hx, rfl⟩ := queueStep_eq_some.1 hq
      refine ⟨by cases k <;> cases b <;> rfl, ?_⟩
      rw [Ring.put_pc_self, hx.ret_inv.2]
      rfl
    | take t v q hp hv hq =>
      rw [hv] at hheld
      cases hheld
    | claim _ _ hp _ => rw [hp] at hcarries; cases hcarries
    | next _ _ _ hp _ => rw [hp] at hcarries; cases hcarries
    | _ => exact ⟨rfl, hheld⟩
  · refine ⟨?_, hpc ▸ hheld⟩
    rcases hd with hd | hd
    · rw [hd]; exact hcarries
    · rw [hd, Dispatcher.woken_carries]; exact hcarries

theorem Fresh.pool_step {r : ℕ} {b : Thread Tid × Micro Tid} (h : Fresh r (s.queue.pc .dispatcher))
    (hr : (system cfg).Reachable s) (hs : Step cfg s b s') (hread : s.queue.mem.readTicket ≤ r)
    (hwrite : r < s.queue.mem.writeTicket) : Fresh r (s'.queue.pc .dispatcher) := by
  rcases hs.of_dispatcher (Agree.reachable hr) with ⟨-, hs⟩ | ⟨-, -, hpc, -⟩
  · have hqueue : ∀ {b}, queueStep s .dispatcher b = some s'.queue →
        Fresh r (s'.queue.pc .dispatcher) := by
      intro b hq
      obtain ⟨m, pc, hx, heq⟩ := queueStep_eq_some.1 hq
      rw [heq, Ring.put_pc_self]
      exact h.step hx hread hwrite (Counters.reachable hr).knows
    cases hs with
    | inside op b q hp hcall hret hq => exact hqueue hq
    | answer k b q hp hb hq => exact hqueue hq
    | take t v q hp hv hq => exact hqueue hq
    | _ => exact h
  · rw [hpc]
    exact h

omit [DecidableEq Tid] in
theorem inside_lt {m m' : Ring.Mem ℕ (Fn Tid) 1} {p p' : Ring.Pc ℕ ℕ (Fn Tid) 1}
    {b : Ring.Micro (Fn Tid) 1}
    (hx : Ring.Exec (Ring.unbounded taskQueueConfig) taskQueueConfig m p b m' p')
    (hop : ∀ op, p.op = some op → op = .isEmpty ∨ op = .dequeue) (hret : b ≠ .ret)
    (hheld : p.held = []) (hread : m'.readTicket = m.readTicket) :
    Dispatcher.distance.inside p' < Dispatcher.distance.inside p := by
  cases hx with
  | call c => cases c <;> simp [Ring.Call.entry, Dispatcher.distance.inside]
  | firstWrite => exact Nat.lt_succ_self 2
  | firstRead => exact Nat.lt_succ_self 2
  | thenRead w b _ => exact Nat.lt_succ_self 1
  | thenWrite r b _ => exact Nat.lt_succ_self 1
  | deqClaim d => exact absurd hread (Nat.succ_ne_self _)
  | deqPass d t _ => cases hheld
  | deqRetry d t _ => cases hheld
  | deqCopy d t buf j left _ => cases hheld
  | deqPublish d t buf v _ => cases hheld
  | enqRet => exact absurd rfl hret
  | deqRet t v => exact absurd rfl hret
  | batchRet => exact absurd rfl hret
  | isEmptyRet b => exact absurd rfl hret
  | loopNext i count _ => rcases hop _ rfl with h | h <;> cases h
  | loopEnd i count _ => rcases hop _ rfl with h | h <;> cases h
  | _ => rcases hop _ rfl with h | h <;> cases h

/-- The dispatcher comes nearer to the next claim by each of its steps. -/
theorem DispatcherStep.distance_lt {r : ℕ} (hs : DispatcherStep cfg s s') (ha : Agree s)
    (hrun : s.running = true) (hawake : s.dispatcher ≠ .waiter .asleep) (hset : s.Settled)
    (hfresh : Fresh r (s.queue.pc .dispatcher)) (hlit : Lit r s)
    (hread : s'.queue.mem.readTicket = s.queue.mem.readTicket) : s'.dispatcher ≠ .waiter .asleep ∧
      s'.dispatcher.distance (s'.queue.pc .dispatcher) <
        s.dispatcher.distance (s.queue.pc .dispatcher) := by
  obtain ⟨hcarries, hheld⟩ := hset
  have hidle : s.dispatcher.op = none → s.queue.pc .dispatcher = .idle := ha.idle_of_op_eq_none
  cases hs with
  | enter hp _ => simp [hp, Dispatcher.distance]
  | exit hp hr => cases hrun.symm.trans hr
  | wait g g' hp hw =>
    have hf : s.taskFlag = 1 := by
      rcases hlit with hf | hd | ⟨hd, -⟩
      · exact hf
      · cases hd.symm.trans hp
      · cases hd.symm.trans hp
    cases hw with
    | miss hne => exact absurd hf hne
    | sleep hz => cases hf.symm.trans hz
    | again _ => simp [hp, Dispatcher.distance]
    | spurious => exact absurd hp hawake
  | pass hp _ => simp [hp, Dispatcher.distance]
  | drain hp _ =>
    simp [hp, Dispatcher.distance, Dispatcher.distance.inside, hidle (by rw [hp]; rfl)]
  | stop hp hr => cases hrun.symm.trans hr
  | inside op b q hp hcall hret hq =>
    refine ⟨hawake, ?_⟩
    have hlt : Dispatcher.distance.inside (q.pc .dispatcher) <
        Dispatcher.distance.inside (s.queue.pc .dispatcher) := by
      obtain ⟨m, pc, hx, rfl⟩ := queueStep_eq_some.1 hq
      rw [Ring.put_pc_self]
      exact inside_lt hx (fun o ho => ha.dispatcher_op ho) hret hheld hread
    rcases Dispatcher.op_eq_some hp with ⟨-, k, hd⟩ | ⟨-, hd⟩
    · cases k <;> simp [hd, Dispatcher.distance, hlt]
    · simp [hd, Dispatcher.distance, hlt]
  | answer k b q hp hb hq =>
    obtain ⟨m, pc, hx, rfl⟩ := queueStep_eq_some.1 hq
    rw [hb] at hfresh
    obtain rfl : b = false := hfresh
    simp only [Ring.put_pc_self, hx.ret_inv.2, hp, hb]
    cases k <;> simp [Check.next, Dispatcher.distance, Dispatcher.distance.inside]
  | take t v q hp hv hq =>
    rw [hv] at hheld
    cases hheld
  | claim _ _ hp _ => rw [hp] at hcarries; cases hcarries
  | next _ _ _ hp _ => rw [hp] at hcarries; cases hcarries
  | write left hp => rw [hp] at hcarries; cases hcarries
  | store hp => simp [hp, Dispatcher.distance]
  | wake hp => simp [hp, Dispatcher.distance]
  | reset hp => simp [hp, Dispatcher.distance, Dispatcher.distance.inside, hidle (by rw [hp]; rfl)]
  | signalStore hp => simp [hp, Dispatcher.distance]
  | signalWake hp => simp [hp, Dispatcher.distance]

/-! ### The logs -/

omit [DecidableEq Tid] in
theorem Log.note_finished (s : State Tid) (b : Thread Tid × Micro Tid) (l : Log Tid) :
    l.finished ⊆ (l.note s b).finished := by
  unfold Log.note
  split
  · exact fun _ => id
  · split <;> exact fun _ => id
  · split
    · exact fun _ => id
    · exact List.subset_append_left _ _
    · exact fun _ => id
  · exact fun _ => id

omit [DecidableEq Tid] in
theorem Log.note_handed (s : State Tid) (b : Thread Tid × Micro Tid) (l : Log Tid) :
    l.handed ⊆ (l.note s b).handed := by
  unfold Log.note
  split
  · exact fun _ => id
  · split
    · exact fun _ => id
    · exact List.subset_append_left _ _
    · exact fun _ => id
  · split <;> exact fun _ => id
  · exact fun _ => id

omit [DecidableEq Tid] in
/-- Only the dispatcher activates workers. -/
theorem Log.note_activating {b : Thread Tid × Micro Tid} (hb : b.1 ≠ .dispatcher) (l : Log Tid) :
    (l.note s b).activating = l.activating := by
  unfold Log.note
  split
  · rfl
  · exact absurd rfl hb
  · split <;> rfl
  · rfl

/-- When the dispatcher holds nothing, all the tasks that it has taken out of the
queue have got a worker. -/
theorem activated_length (h : (logged Tid cfg).Reachable (s, l)) (hset : s.Settled) :
    (l.activated s.dispatcher).length = s.queue.mem.readTicket := by
  obtain ⟨hcarries, hheld⟩ := hset
  obtain ⟨q, r, hord, hfull⟩ := exists_ordered h
  have hstream : Ring.Streaming s.queue.mem (s.queue.pc .dispatcher) q r :=
    Ring.streaming (by decide) hord.reachable
  have hread : s.queue.mem.readTicket = r.values.length := by
    have hflow := hstream.flow
    have hop : ∀ op, (s.queue.pc .dispatcher).op = some op → op = .isEmpty ∨ op = .dequeue :=
      fun op => (Agree.reachable h.of_log.of_restrict).dispatcher_op
    generalize s.queue.pc .dispatcher = p at hflow hheld hop
    cases p with
    | deqSpin d t => cases hheld
    | deqCopy d t buf => cases hheld
    | deqReturn t v => cases hheld
    | batchLoop i count => rcases hop _ rfl with h | h <;> cases h
    | batchReturn => rcases hop _ rfl with h | h <;> cases h
    | deqClaim d =>
      cases d with
      | result => exact hflow
      | batch i count => rcases hop _ rfl with h | h <;> cases h
    | _ => exact hflow
  have hvalues := hord.values
  rw [show s.carried = [] by rw [State.carried, hcarries]; rfl, List.append_nil] at hvalues
  rw [← hvalues, hread, List.filterMap_length_eq_length]
  intro v hv
  obtain ⟨e, he, rfl⟩ := List.mem_map.1 (hstream.isPrefix.subset hv)
  exact Option.isSome_iff_ne_none.2 (hfull e he)

/-- Tasks are handed over to workers that exist. -/
theorem handed_lt (h : (history Tid cfg).Reachable (s, l)) :
    ∀ e ∈ l.handed, e.1 < cfg.THREAD_COUNT := by
  have hI : (history Tid cfg).IsInvariant
      fun q : State Tid × Log Tid => ∀ e ∈ q.2.handed, e.1 < cfg.THREAD_COUNT := by
    constructor
    · rintro ⟨s, l⟩ ⟨-, rfl⟩ e he
      cases he
    · rintro ⟨s, l⟩ b ⟨s', l'⟩ hr ih ⟨-, rfl⟩ e he
      simp only [Log.note] at he
      split at he
      · exact ih e he
      · split at he
        · exact ih e he
        · rcases List.mem_append.1 he with he | he
          · exact ih e he
          · obtain ⟨x, -, rfl⟩ := Option.map_eq_some_iff.1 (Option.mem_toList.1 he)
            exact lastIdDispatched_lt hr.of_log
        · exact ih e he
      · split at he <;> exact ih e he
      · exact ih e he
  exact hI.reachable h

/-! ### The next ticket is taken -/

namespace Fair

variable {z : ℕ → State Tid × Log Tid} {a : ℕ → Option (Thread Tid × Micro Tid)}

theorem agree (h : Fair cfg z a) (j : ℕ) : Agree (z j).1 :=
  Agree.reachable (h.reachable j).of_log.of_restrict

/-- The dispatcher writes the task into the slot that it has claimed. -/
theorem writes (h : Fair cfg z a) {k : ℕ} (hk : (z k).1.dispatcher = .write) :
    ∃ j ≥ k, (z j).1.dispatcher = .store := by
  refine h.progress .dispatcher (I := fun _ => True) (P := fun q => q.1.dispatcher = .write)
    (Q := fun q => q.1.dispatcher = .store) (fun _ => 0) (fun _ _ => trivial) hk ?_ ?_
  · intro s l b s' hr _ _ hP hs
    rcases hs.of_dispatcher (Agree.reachable hr.of_log.of_restrict) with ⟨-, hs⟩ | ⟨hne, hd, -⟩
    · left
      cases hs with
      | write left _ => rfl
      | inside op b q hp => rw [show s.dispatcher = .write from hP] at hp; cases hp
      | wait g g' hp _ => cases hP.symm.trans hp
      | answer k b q hp _ _ => cases hP.symm.trans hp
      | take t v q hp _ _ => cases hP.symm.trans hp
      | claim _ _ hp _ => cases hP.symm.trans hp
      | next _ _ _ hp _ => cases hP.symm.trans hp
      | _ hp => cases hP.symm.trans hp
    · refine Or.inr ⟨?_, le_rfl, fun hb => absurd hb hne⟩
      rcases hd with hd | hd
      · exact hd.trans hP
      · exact hd.trans (congrArg Dispatcher.woken hP)
  · intro s l hr _ hP
    have hP : s.dispatcher = .write := hP
    exact exists_dispatcher_go (Agree.reachable hr.of_log.of_restrict) (by simp [hP]) (by simp [hP])

/-- The dispatcher hands over what it holds. -/
theorem settles (h : Fair cfg z a) (k : ℕ) : ∃ j ≥ k, (z j).1.Settled := by
  obtain ⟨j, hj, hidle⟩ := h.dispatcher_returns k
  have hstore : (∃ i ≥ j, (z i).1.dispatcher = .write) → ∃ i ≥ k, (z i).1.Settled := by
    rintro ⟨i, hi, hw⟩
    obtain ⟨i', hi', hs⟩ := h.writes hw
    refine ⟨i', by omega, by rw [hs]; rfl, ?_⟩
    rw [(h.agree i').idle_of_op_eq_none (by rw [hs]; rfl)]
    rfl
  cases hd : (z j).1.dispatcher with
  | scan first start => exact hstore (h.scan_ends ⟨first, start, hd⟩)
  | write => exact hstore ⟨j, le_rfl, hd⟩
  | _ => exact ⟨j, hj, by rw [hd]; rfl, by rw [hidle]; rfl⟩

/-- The thread that has claimed a ticket opens the gate after that. -/
theorem exists_signal (h : Fair cfg z a) {r k : ℕ} (hw : r < (z k).1.queue.mem.writeTicket)
    (hr : (z k).1.queue.mem.readTicket = r) :
    ∃ j, r < (z j).1.queue.mem.writeTicket ∧ (z j).1.taskFlag = 1 := by
  have hpub : ∃ n, r < (z n).1.queue.seqOf taskQueueConfig r :=
    h.queue.published (i := k) (j := k) hw
      (by rw [hr]; exact Nat.lt_add_of_pos_right taskQueueConfig.size_pos)
  have hinit : ¬ r < (z 0).1.queue.seqOf taskQueueConfig r := by
    obtain ⟨⟨data, array, hz⟩, -⟩ := h.execution.init
    have hlt := Nat.mod_lt r taskQueueConfig.size_pos
    have hle := Nat.mod_le r taskQueueConfig.SIZE
    simp [hz, fresh, Ring.fresh, Ring.State.seqOf, Ring.prepareBuffer_apply, hlt, hle]
  -- the step that publishes the task
  obtain ⟨n, b, hb, hn, hn'⟩ := h.execution.exists_step_of_not
    (P := fun q => r < q.1.queue.seqOf taskQueueConfig r) hinit hpub
  obtain ⟨⟨-, hs⟩, -⟩ := h.execution.step n b hb
  obtain ⟨lq, ht, -⟩ := exists_queue_log (h.reachable n).of_log.of_restrict
  obtain ⟨lq', ht', -⟩ := exists_queue_log (h.reachable (n + 1)).of_log.of_restrict
  have hclaimed := ht'.published_lt r hn'
  rcases (step_cases hs).queue with heq | ⟨θ, c, hc⟩
  · rw [heq] at hn'
    exact absurd hn' hn
  · obtain ⟨m, pc, hx, heq⟩ := queueStep_eq_some.1 hc
    rw [heq] at hn'
    have hpc : (z (n + 1)).1.queue.pc θ = .enqReturn := by
      rw [heq, Ring.put_pc_self]
      exact hx.publishes ht (not_lt.1 hn) hn'
    cases θ with
    | dispatcher =>
      rcases (h.agree (n + 1)).dispatcher_op (by rw [hpc]; rfl) with hop | hop <;> cases hop
    | producer p =>
      obtain ⟨i, hi, hstore⟩ := h.returns hpc
      obtain ⟨j, hj, hf⟩ := h.signals hstore
      exact ⟨j, hclaimed.trans_le (h.queue.writeTicket_mono (by omega : n + 1 ≤ j)), hf⟩

/-- A thread whose store to the flag the dispatcher has missed wakes it up. -/
theorem awakes (h : Fair cfg z a) {k : ℕ} (hk : (z k).1.destructor = .idle)
    (hf : (z k).1.taskFlag = 1) : ∃ j ≥ k, (z j).1.dispatcher ≠ .waiter .asleep := by
  by_cases hd : (z k).1.dispatcher = .waiter .asleep
  · have hwake :=
      (Wakeful.reachable (h.reachable k).of_log.of_restrict).asleep hd (by rw [hf]; decide)
    obtain ⟨p, hp⟩ := hwake.resolve_right (by rw [hk]; simp)
    refine h.progress (.producer p) (I := fun _ => True) (P := fun q => q.1.producer p = .wake)
      (Q := fun q => q.1.dispatcher ≠ .waiter .asleep) (fun _ => 0) (fun _ _ => trivial) hp ?_ ?_
    · intro s l b s' _ _ _ hP hs
      rcases hs.of_producer p with ⟨-, m, hs⟩ | ⟨hne, hsame, -⟩
      · left
        cases hs with
        | wake _ => exact s.dispatcher.woken_ne_asleep
        | assignTask empty q hp' => cases hP.symm.trans hp'
        | inside b q hp' => cases hP.symm.trans hp'
        | ret q hp' => cases hP.symm.trans hp'
        | store hp' => cases hP.symm.trans hp'
      · exact Or.inr ⟨hsame.trans hP, le_rfl, fun hb => absurd hb hne⟩
    · intro s l _ _ hP
      have hP : s.producer p = .wake := hP
      exact ⟨.go, _, by simp [step, producerStep, hP]; rfl, by simp [Obliged]⟩
  · exact ⟨k, le_rfl, hd⟩

/-- **A claimed ticket is taken.** -/
theorem taken (h : Fair cfg z a) (halive : ∀ j, (z j).1.destructor = .idle) {k : ℕ}
    (hk : (z k).1.queue.mem.readTicket < (z k).1.queue.mem.writeTicket) :
    ∃ j ≥ k, (z k).1.queue.mem.readTicket < (z j).1.queue.mem.readTicket := by
  by_contra hnever
  obtain ⟨r, hr⟩ : ∃ r, (z k).1.queue.mem.readTicket = r := ⟨_, rfl⟩
  rw [hr] at hk
  have hread : ∀ j ≥ k, (z j).1.queue.mem.readTicket = r := by
    intro j hj
    refine le_antisymm (not_lt.1 fun hlt => hnever ⟨j, hj, hr ▸ hlt⟩) ?_
    exact hr.ge.trans (h.queue.readTicket_mono hj)
  have hle : ∀ j, (z j).1.queue.mem.readTicket ≤ r := fun j =>
    (h.queue.readTicket_mono (le_max_left j k)).trans (hread _ (le_max_right j k)).le
  obtain ⟨i, hi, hf⟩ := h.exists_signal hk hr
  have hwrite : ∀ j ≥ i, r < (z j).1.queue.mem.writeTicket :=
    fun j hj => hi.trans_le (h.queue.writeTicket_mono hj)
  have hlit : ∀ j ≥ i, Lit r (z j).1 := by
    refine h.stays (I := fun q => q.1.queue.mem.readTicket ≤ r ∧ r < q.1.queue.mem.writeTicket)
      (P := fun q => Lit r q.1) (fun j hj => ⟨hle j, hwrite j hj⟩) (Or.inl hf) ?_
    intro s l b s' hr' hI _ hP hs
    exact hP.step hr'.of_log.of_restrict hI.1 hI.2 hs
  obtain ⟨m, hm, hset⟩ := h.settles (max i k)
  have hset : ∀ j ≥ m, (z j).1.Settled := by
    refine h.stays (I := fun q => q.1.queue.mem.readTicket = r) (P := fun q => q.1.Settled)
      (fun j hj => hread j (by omega)) hset ?_
    intro s l b s' hr' hI hI' hP hs
    exact hP.step (Agree.reachable hr'.of_log.of_restrict) hs (hI'.trans hI.symm)
  obtain ⟨n, hn, hidle⟩ := h.dispatcher_returns m
  have hfresh : ∀ j ≥ n, Fresh r ((z j).1.queue.pc .dispatcher) := by
    refine h.stays (I := fun q => q.1.queue.mem.readTicket ≤ r ∧ r < q.1.queue.mem.writeTicket)
      (P := fun q => Fresh r (q.1.queue.pc .dispatcher)) (fun j hj => ⟨hle j, hwrite j (by omega)⟩)
      (by rw [hidle]; trivial) ?_
    intro s l b s' hr' hI _ hP hs
    exact Fresh.pool_step hP hr'.of_log.of_restrict hs hI.1 hI.2
  obtain ⟨n', hn', hawake⟩ : ∃ j ≥ n, (z j).1.dispatcher ≠ .waiter .asleep := by
    rcases hlit n (by omega) with hf | hd | ⟨hd, -⟩
    · exact h.awakes (halive n) hf
    · exact ⟨n, le_rfl, by simp [hd]⟩
    · exact ⟨n, le_rfl, by simp [hd]⟩
  -- from now on each step of the dispatcher brings it nearer to a claim that it never makes
  have hfalse : ∃ j ≥ n', False := by
    refine h.progress .dispatcher
      (I := fun q => q.1.destructor = .idle ∧ q.1.queue.mem.readTicket = r ∧ q.1.Settled ∧
        Fresh r (q.1.queue.pc .dispatcher) ∧ Lit r q.1)
      (P := fun q => q.1.dispatcher ≠ .waiter .asleep) (Q := fun _ => False)
      (fun q => q.1.dispatcher.distance (q.1.queue.pc .dispatcher))
      (fun j hj => ⟨halive j, hread j (by omega), hset j (by omega), hfresh j (by omega),
        hlit j (by omega)⟩)
      hawake ?_ ?_
    · rintro s l b s' hr' ⟨hidle, hread, hset, hfresh, hlit⟩ ⟨-, hread', -⟩ hP hs
      have ha : Agree s := Agree.reachable hr'.of_log.of_restrict
      right
      rcases hs.of_dispatcher ha with ⟨-, hs⟩ | ⟨hne, hd, hpc, -⟩
      · obtain ⟨hrun, -⟩ := running_of_idle hr'.of_log.of_restrict hidle
        obtain ⟨hP', hlt⟩ := hs.distance_lt ha hrun hP hset hfresh hlit (hread'.trans hread.symm)
        exact ⟨hP', hlt.le, fun _ => hlt⟩
      · have hd' : s'.dispatcher = s.dispatcher :=
          hd.elim id fun hd => hd.trans (Dispatcher.woken_of_ne_asleep hP)
        simp only [hd', hpc]
        exact ⟨hP, le_rfl, fun hb => absurd hb hne⟩
    · rintro s l hr' ⟨hidle, -⟩ hP
      exact exists_dispatcher_go (Agree.reachable hr'.of_log.of_restrict)
        (running_of_idle hr'.of_log.of_restrict hidle).2 hP
  obtain ⟨-, -, hfalse⟩ := hfalse
  exact hfalse

theorem taken_le (h : Fair cfg z a) (halive : ∀ j, (z j).1.destructor = .idle) {n k : ℕ}
    (hk : n < (z k).1.queue.mem.writeTicket) : ∃ j ≥ k, n < (z j).1.queue.mem.readTicket := by
  have hstep : ∀ d, ∃ j ≥ k, n < (z j).1.queue.mem.readTicket ∨
      d ≤ (z j).1.queue.mem.readTicket := by
    intro d
    induction d with
    | zero => exact ⟨k, le_rfl, Or.inr (Nat.zero_le _)⟩
    | succ d ih =>
      obtain ⟨j, hj, hlt | hle⟩ := ih
      · exact ⟨j, hj, Or.inl hlt⟩
      · by_cases hn : n < (z j).1.queue.mem.readTicket
        · exact ⟨j, hj, Or.inl hn⟩
        · have hw : (z k).1.queue.mem.writeTicket ≤ (z j).1.queue.mem.writeTicket :=
            h.queue.writeTicket_mono hj
          obtain ⟨i, hi, hlt⟩ := h.taken halive (k := j) (by omega)
          exact ⟨i, by omega, Or.inr (by omega)⟩
  obtain ⟨j, hj, hlt | hle⟩ := hstep (n + 1)
  · exact ⟨j, hj, hlt⟩
  · exact ⟨j, hj, hle⟩

/-! ### From the queue to the end -/

/-- The tasks are claimed one after the other. -/
theorem claimed_isPrefix (h : Fair cfg z a) {j k : ℕ} (hjk : j ≤ k) :
    (z j).2.claimed <+: (z k).2.claimed :=
  h.stays (I := fun _ => True) (P := fun q => (z j).2.claimed <+: q.2.claimed) (fun _ _ => trivial)
    List.prefix_rfl (fun _ l _ _ _ _ _ hP _ => hP.trans (Log.note_claimed _ _ l)) k hjk

/-- The log of the finished tasks grows. -/
theorem finished_stays (h : Fair cfg z a) {x : Task Tid} {k : ℕ} (hx : x ∈ (z k).2.finished) :
    ∀ j ≥ k, x ∈ (z j).2.finished := by
  refine h.stays (I := fun _ => True) (P := fun q => x ∈ q.2.finished) (fun _ _ => trivial) hx ?_
  intro s l b s' _ _ _ hP _
  exact Log.note_finished s b l hP

/-- A task that has got a ticket gets a worker. -/
theorem gets_worker (h : Fair cfg z a) (halive : ∀ j, (z j).1.destructor = .idle) {k : ℕ}
    {x : Task Tid} (hx : x ∈ (z k).2.claimed) :
    ∃ j ≥ k, x ∈ (z j).2.activated (z j).1.dispatcher := by
  obtain ⟨n, hn, hget⟩ := List.mem_iff_getElem.1 hx
  obtain ⟨i, hi, hlt⟩ :=
    h.taken_le halive (n := n) (k := k) (by rw [(claimed_tickets (h.reachable k)).1]; exact hn)
  obtain ⟨j, hj, hset⟩ := h.settles i
  refine ⟨j, by omega, ?_⟩
  have hlen := activated_length (h.reachable j) hset
  have hmono : (z i).1.queue.mem.readTicket ≤ (z j).1.queue.mem.readTicket :=
    h.queue.readTicket_mono hj
  -- the tasks that have got a worker are the first ones
  have hact := activated_isPrefix (h.reachable j).log_of_restrict
  have hclaimed := h.claimed_isPrefix (by omega : k ≤ j)
  have hlt' : n < ((z j).2.activated (z j).1.dispatcher).length := by omega
  have hnth : ((z j).2.activated (z j).1.dispatcher)[n] = x := by
    rw [hact.getElem hlt', ← hclaimed.getElem hn, hget]
  exact hnth ▸ List.getElem_mem hlt'

/-- The dispatcher hands the task over. -/
theorem hands_over (h : Fair cfg z a) (halive : ∀ j, (z j).1.destructor = .idle) {k : ℕ}
    {x : Task Tid} (hx : x ∈ (z k).2.activated (z k).1.dispatcher) :
    ∃ j ≥ k, ∃ i, (i, x) ∈ (z j).2.handed := by
  unfold Log.activated at hx
  rcases List.mem_append.1 hx with hx | hx
  · obtain ⟨⟨i, y⟩, hmem, rfl⟩ := List.mem_map.1 hx
    exact ⟨k, le_rfl, i, hmem⟩
  · split_ifs at hx with hgrip
    · refine h.progress .dispatcher (I := fun q => q.1.destructor = .idle)
        (P := fun q => q.2.activating = some x ∧ (q.1.dispatcher = .store ∨ q.1.dispatcher = .wake))
        (Q := fun q => ∃ i, (i, x) ∈ q.2.handed)
        (fun q => match q.1.dispatcher with | .store => 1 | _ => 0) (fun j _ => halive j)
        ⟨Option.mem_toList.1 hx, ?_⟩ ?_ ?_
      · cases hd : (z k).1.dispatcher <;> simp [hd, Dispatcher.grip] at hgrip ⊢
      · rintro s l ⟨θ, m⟩ s' hr - - ⟨hact, hd⟩ hs
        rcases hs.of_dispatcher (Agree.reachable hr.of_log.of_restrict) with
          ⟨rfl, hds⟩ | ⟨hne, hd', -⟩
        · rcases hd with hd | hd
          · right
            cases hds with
            | store hp => simp [Log.note, hp, show l.activating = some x from hact]
            | inside op b q hp => rw [show s.dispatcher = .store from hd] at hp; cases hp
            | wait g g' hp _ => cases hd.symm.trans hp
            | answer k b q hp _ _ => cases hd.symm.trans hp
            | take t v q hp _ _ => cases hd.symm.trans hp
            | claim _ _ hp _ => cases hd.symm.trans hp
            | next _ _ _ hp _ => cases hd.symm.trans hp
            | write left hp => cases hd.symm.trans hp
            | _ hp => cases hd.symm.trans hp
          · left
            have hd : s.dispatcher = .wake := hd
            have hact : l.activating = some x := hact
            exact ⟨s.lastIdDispatched, by simp [Log.note, hd, hact]⟩
        · right
          have hsame : s'.dispatcher = s.dispatcher := by
            refine hd'.elim id fun hd' => hd'.trans (Dispatcher.woken_of_ne_asleep ?_)
            rcases hd with hd | hd <;> simp [show s.dispatcher = _ from hd]
          simp only [Log.note_activating hne, hsame]
          exact ⟨⟨hact, hd⟩, le_rfl, fun hb => absurd hb hne⟩
      · rintro s l hr hidle ⟨-, hd⟩
        refine exists_dispatcher_go (Agree.reachable hr.of_log.of_restrict) ?_ ?_
        · exact (running_of_idle hr.of_log.of_restrict hidle).2
        · rcases hd with hd | hd <;> simp [show s.dispatcher = _ from hd]
    · cases hx

/-- The worker starts the task in its slot. -/
theorem starts (h : Fair cfg z a) (halive : ∀ j, (z j).1.destructor = .idle) {i k : ℕ}
    {x : Task Tid} (hx : (i, x) ∈ (z k).2.handed) : ∃ j ≥ k, x ∈ (z j).2.started := by
  have hi : i < cfg.THREAD_COUNT := handed_lt (h.reachable k).log_of_restrict _ hx
  -- until then it is in its slot, and the dispatcher is away
  have hslot : ∀ {s : State Tid} {l : Log Tid}, (logged Tid cfg).Reachable (s, l) →
      s.destructor = .idle → (i, x) ∈ l.handed → x ∉ l.started → (s.workers i).running = true ∧
      Pending (s.workers i) x ∧
        s.grip i = .away ∧ Phase .away (s.workers i) ∧ (s.workers i).poolFlag ≠ 0 := by
    intro s l hr hidle hmem hst
    have hrun := workers_running hr.of_log.of_restrict (by rw [hidle]; rfl) i
    obtain ⟨hpend, haway⟩ := ((Handed.reachable hr).handed i x hmem hrun).resolve_left hst
    have hphase := haway ▸ (HandOff.reachable hr.of_log).phase i hrun
    refine ⟨hrun, hpend, haway, hphase, fun hz => ?_⟩
    cases hpend.1.symm.trans (hphase.of_poolFlag_eq_zero hz).2.1
  by_contra hnever
  refine hnever (h.progress (.worker i)
    (I := fun q => (logged Tid cfg).Reachable q ∧ q.1.destructor = .idle ∧ x ∉ q.2.started)
    (P := fun q => (i, x) ∈ q.2.handed) (Q := fun q => x ∈ q.2.started)
    (fun q => (q.1.workers i).pc.remaining 10)
    (fun j hj => ⟨h.reachable j, halive j, fun hst => hnever ⟨j, hj, hst⟩⟩) hx ?_ ?_)
  · rintro s l b s' - ⟨hr, hidle, hst⟩ ⟨hr', hidle', hst'⟩ hP hs
    obtain ⟨hrun, hpend, haway, hphase, hpool⟩ := hslot hr hidle hP hst
    have hP' := Log.note_handed s b l hP
    refine Or.inr ⟨hP', ?_⟩
    rcases hs.of_worker i with ⟨-, hw⟩ | ⟨hne, ht⟩
    · have hpool' := (hslot hr' hidle' hP' hst').2.2.2.2
      have hlt := (hw.remaining_lt hphase hrun hpool).resolve_left hpool'
      exact ⟨hlt.le, fun _ => hlt⟩
    · have hsame : s'.workers i = s.workers i := by
        generalize s'.workers i = w at ht
        cases ht with
        | same => rfl
        | own hθ _ => exact absurd hθ hne
        | claim _ _ _ _ _ hz => exact absurd hz hpool
        | write _ hp hid => cases haway.symm.trans (State.grip_eq_write.2 ⟨hid, hp⟩)
        | store _ hp hid => cases haway.symm.trans (State.grip_eq_store.2 ⟨hid, hp⟩)
        | wake _ hp hid => cases haway.symm.trans (State.grip_eq_wake.2 ⟨hid, hp⟩)
        | workerSet _ hp => cases hidle.symm.trans hp
        | workerStore _ hp => cases hidle.symm.trans hp
        | workerWake _ hp => cases hidle.symm.trans hp
      simp only [hsame]
      exact ⟨le_rfl, fun hb => absurd hb hne⟩
  · rintro s l hr ⟨-, hidle, hst⟩ hP
    obtain ⟨hrun, hpend, haway, hphase, hpool⟩ := hslot hr hidle hP hst
    obtain ⟨hexit, hawake, hopen⟩ := hphase.of_busy hpool
    exact exists_worker_step hi hexit hawake fun hp => (hopen (by rw [hp]; rfl)).2

/-- A task that has been started ends. -/
theorem ends (h : Fair cfg z a) (halive : ∀ j, (z j).1.destructor = .idle) {k : ℕ} {x : Task Tid}
    (hx : x ∈ (z k).2.started) : ∃ j ≥ k, x ∈ (z j).2.finished := by
  rcases ((Tasks.reachable (h.reachable k) (halive k)).started x).1 hx with ⟨i, hi, hp⟩ | hfin
  · refine h.progress (.worker i) (I := fun _ => True)
      (P := fun q => (q.1.workers i).pc = .executing x) (Q := fun q => x ∈ q.2.finished)
      (fun _ => 0) (fun _ _ => trivial) hp ?_ ?_
    · rintro s l ⟨θ, m⟩ s' - - - hP hs
      have hP : (s.workers i).pc = .executing x := hP
      rcases hs.of_worker i with ⟨hθ, hw⟩ | ⟨hne, ht⟩
      · left
        have hθ : θ = .worker i := hθ
        subst hθ
        simp [Log.note, hP]
      · refine Or.inr ⟨?_, le_rfl, fun hb => absurd hb hne⟩
        show (s'.workers i).pc = .executing x
        generalize s'.workers i = w at ht
        cases ht with
        | own hθ _ => exact absurd hθ hne
        | wake _ _ _ => exact congrArg Loop.woken hP
        | workerWake _ _ => exact congrArg Loop.woken hP
        | _ => exact hP
    · intro s l _ _ hP
      have hP : (s.workers i).pc = .executing x := hP
      exact exists_worker_step hi (by simp [hP]) (by simp [hP]) (by simp [hP])
  · exact ⟨k, le_rfl, hfin⟩

/-! ### Calls of `assignTask` -/

/-- Every call of `assignTask` returns. -/
theorem idles (h : Fair cfg z a) (halive : ∀ j, (z j).1.destructor = .idle) (p : Tid) (k : ℕ) :
    ∃ j ≥ k, (z j).1.producer p = .idle := by
  have hafter : ∀ m, (z m).1.producer p = .store ∨ (z m).1.producer p = .wake →
      ∃ j ≥ m, (z j).1.producer p = .idle := by
    intro m hm
    refine h.progress (.producer p) (I := fun _ => True)
      (P := fun q => q.1.producer p = .store ∨ q.1.producer p = .wake)
      (Q := fun q => q.1.producer p = .idle) (fun q => if q.1.producer p = .store then 1 else 0)
      (fun _ _ => trivial) hm ?_ ?_
    · intro s l b s' _ _ _ hP hs
      rcases hs.of_producer p with ⟨-, m, hs⟩ | ⟨hne, hsame, -⟩
      · cases hs with
        | assignTask empty q hp => rw [show s.producer p = .idle from hp] at hP; simp at hP
        | inside b q hp => rw [show s.producer p = .enqueue from hp] at hP; simp at hP
        | ret q hp => rw [show s.producer p = .enqueue from hp] at hP; simp at hP
        | store hp => right; simp [hp]
        | wake hp => left; exact Function.update_self _ _ _
      · right
        simp only [hsame]
        exact ⟨hP, le_rfl, fun hb => absurd hb hne⟩
    · intro s l _ _ hP
      rcases hP with hp | hp
      · have hp : s.producer p = .store := hp
        exact ⟨.go, _, by simp [step, producerStep, hp]; rfl, by simp [Obliged]⟩
      · have hp : s.producer p = .wake := hp
        exact ⟨.go, _, by simp [step, producerStep, hp]; rfl, by simp [Obliged]⟩
  cases hp : (z k).1.producer p with
  | idle => exact ⟨k, le_rfl, hp⟩
  | store => exact hafter k (Or.inl hp)
  | wake => exact hafter k (Or.inr hp)
  | enqueue =>
    -- the queue does not stay full
    obtain ⟨m, hm, hstore⟩ := h.enqueue_returns hp fun j _ _ t v hw => by
      obtain ⟨lq, ht, -⟩ := exists_queue_log (h.reachable j).of_log.of_restrict
      obtain ⟨i, -, hi⟩ := h.taken_le halive (ht.lt_writeTicket hw)
      exact ⟨i, by omega⟩
    obtain ⟨j, hj, hidle⟩ := hafter m (Or.inl hstore)
    exact ⟨j, by omega, hidle⟩

theorem called_stays (h : Fair cfg z a) {x : Task Tid} {k : ℕ} (hx : (z k).1.Called x) :
    ∀ j ≥ k, (z j).1.Called x := by
  refine h.stays (I := fun _ => True) (P := fun q => q.1.Called x) (fun _ _ => trivial) hx ?_
  intro s l b s' _ _ _ hP hs
  simp only [State.Called] at hP ⊢
  rcases hs.of_producer x.1 with ⟨-, m, hs⟩ | ⟨-, -, -, hcalls⟩
  · cases hs with
    | assignTask empty q hp => simp; omega
    | _ => exact hP
  · rw [hcalls]
    exact hP

/-- A call that has returned stays so. -/
theorem returned_stays (h : Fair cfg z a) {x : Task Tid} {k : ℕ} (hx : (z k).1.Returned x) :
    ∀ j ≥ k, (z j).1.Returned x := by
  have hcalled := h.called_stays hx.1
  have hret : ∀ j ≥ k, (z j).1.producer x.1 = .idle ∨ x.2 + 1 < (z j).1.calls x.1 := by
    refine h.stays (I := fun q => q.1.Called x)
      (P := fun q => q.1.producer x.1 = .idle ∨ x.2 + 1 < q.1.calls x.1) hcalled hx.2 ?_
    intro s l b s' _ hI _ hP hs
    simp only [State.Called] at hI hP ⊢
    rcases hs.of_producer x.1 with ⟨-, m, hs⟩ | ⟨-, hsame, -, hcalls⟩
    · cases hs with
      | assignTask empty q hp => simp; omega
      | inside b q hp => exact hP
      | ret q hp => exact Or.inr (hP.resolve_left (by simp [hp]))
      | store hp => exact Or.inr (hP.resolve_left (by simp [hp]))
      | wake hp => exact Or.inr (hP.resolve_left (by simp [hp]))
    · rw [hsame, hcalls]
      exact hP
  exact fun j hj => ⟨hcalled j hj, hret j hj⟩

end Fair

/-- **Every task is executed.** Take a fair execution in which functions are not empty and
`~ThreadPool` is not called. Once `assignTask` has been called for a task, the call returns, and
from some time on the task has been executed, once and no more. -/
theorem every_task_executed {z : ℕ → State Tid × Log Tid} {a : ℕ → Option (Thread Tid × Micro Tid)}
    (h : Fair cfg z a) (halive : ∀ j, (z j).1.destructor = .idle) {x : Task Tid} {k : ℕ}
    (hx : (z k).1.Called x) :
    ∃ j ≥ k, ∀ i ≥ j, (z i).1.Returned x ∧ (z i).2.finished.count x = 1 := by
  obtain ⟨n₁, h₁, hidle⟩ := h.idles halive x.1 k
  have hret : (z n₁).1.Returned x := ⟨h.called_stays hx n₁ h₁, Or.inl hidle⟩
  obtain ⟨n₂, h₂, hact⟩ := h.gets_worker halive (mem_claimed_of_returned (h.reachable n₁) hret)
  obtain ⟨n₃, h₃, i, hhanded⟩ := h.hands_over halive hact
  obtain ⟨n₄, h₄, hstarted⟩ := h.starts halive hhanded
  obtain ⟨n₅, h₅, hfinished⟩ := h.ends halive hstarted
  refine ⟨n₅, by omega, fun j hj => ⟨h.returned_stays hret j (by omega), le_antisymm ?_ ?_⟩⟩
  · have hruns := (Ledger.reachable (h.reachable j).log_of_restrict).runs x
    have hnodup :=
      List.nodup_iff_count_le_one.1 (Tasks.reachable (h.reachable j) (halive j)).nodup x
    omega
  · exact List.count_pos_iff.2 (h.finished_stays hfinished j hj)

/-- All sleep, and nobody is in `assignTask` or in `~ThreadPool`. -/
structure State.AtRest (cfg : Config) (s : State Tid) : Prop where
  dispatcher : s.dispatcher = .waiter .asleep
  workers : ∀ i < cfg.THREAD_COUNT, (s.workers i).pc = .waiter .asleep
  producers : ∀ p, s.producer p = .idle
  destructor : s.destructor = .idle

/-- A pool at rest has nothing to do. -/
theorem State.AtRest.not_enabled (h : s.AtRest cfg) (θ : Thread Tid) :
    ¬ (logged Tid cfg).Enabled (Obliged θ) (s, l) := by
  rintro ⟨⟨θ, m⟩, ⟨s', l'⟩, ⟨rfl, hassign, hdestroy, hspurious⟩, ⟨-, hs⟩, -⟩
  have hs : step cfg s (θ, m) = some s' := hs
  cases step_cases hs with
  | @producer p _ _ hs =>
    have hidle := h.producers p
    cases hs with
    | assignTask empty q hp => exact hassign empty rfl
    | inside b q hp => cases hidle.symm.trans hp
    | ret q hp => cases hidle.symm.trans hp
    | store hp => cases hidle.symm.trans hp
    | wake hp => cases hidle.symm.trans hp
  | dispatcher _ =>
    cases m with
    | spurious => exact hspurious rfl
    | _ => simp [step, dispatcherStep, h.dispatcher, Waiter.step] at hs
  | @worker i _ w hi _ =>
    cases m with
    | spurious => exact hspurious rfl
    | _ => simp [step, Worker.step, h.workers i hi, Waiter.step] at hs
  | destructor hs =>
    have hidle := h.destructor
    cases hs with
    | destroy hp => exact hdestroy rfl
    | setRunning hp => cases hidle.symm.trans hp
    | store hp => cases hidle.symm.trans hp
    | wake hp => cases hidle.symm.trans hp
    | join hp => cases hidle.symm.trans hp
    | workerSet i hp => cases hidle.symm.trans hp
    | workerStore i hp => cases hidle.symm.trans hp
    | workerWake i hp => cases hidle.symm.trans hp
    | workerJoin i hp => cases hidle.symm.trans hp

/-- The dispatcher asks whether the queue is empty. -/
def asks {Tid : Type} : List (Thread Tid × Micro Tid) :=
  [(.dispatcher, .call), (.dispatcher, .queue .loadWrite), (.dispatcher, .queue .loadRead),
    (.dispatcher, .ret)]

/-- One task is assigned and executed, and all go to sleep again. -/
def thereAndBack : List (Thread Unit × Micro Unit) :=
  oneTask () ++ goesOn (.worker 0) 10 ++ goesOn .dispatcher 1 ++ asks ++ asks ++
  goesOn .dispatcher 1 ++ asks ++
    goesOn .dispatcher 3

/-- The pool with one worker and one thread that assigns tasks, and the log. -/
def soleStep (q : State Unit × Log Unit) (a : Thread Unit × Micro Unit) :
    Option (State Unit × Log Unit) :=
  (step single q.1 a).map fun s => (s, q.2.note q.1 a)

/-- The step is a call of `assignTask` with an empty function. -/
def assignsEmpty (a : Thread Unit × Micro Unit) : Bool := a.2 matches .assignTask true

/-- `~ThreadPool` is not called, and at the end all sleep, and one task has been assigned. -/
def sleepsAgain (k : ℕ) (q : State Unit × Log Unit) : Bool :=
  (q.1.destructor matches .idle) && (k != thereAndBack.length ||
    (q.1.dispatcher matches .waiter .asleep) && ((q.1.workers 0).pc matches .waiter .asleep) &&
      q.1.producer () == .idle && q.1.calls () == 1)

theorem thereAndBack_sleepsAgain : ∀ k ≤ thereAndBack.length, ((thereAndBack.take k).foldlM soleStep
    (fresh (fun _ _ => none) fun _ _ => none, Log.empty)).map (sleepsAgain k) = some true := by
  decide +kernel

theorem every_task_executed_thereAndBack :
    ∃ (z : ℕ → State Unit × Log Unit) (a : ℕ → Option (Thread Unit × Micro Unit)),
      Fair single z a ∧ ∃ k, (z k).1.Called ((), 0) ∧
      ∃ j ≥ k, ∀ i ≥ j, (z i).1.Returned ((), 0) ∧ (z i).2.finished.count ((), 0) = 1 := by
  have hinit : (logged Unit single).init (fresh (fun _ _ => none) fun _ _ => none, Log.empty) :=
    ⟨⟨_, _, rfl⟩, rfl⟩
  have hne : thereAndBack.all (fun a => !assignsEmpty a) = true := by decide
  obtain ⟨x, hx, hp⟩ := exists_run_of_checks hinit (.dispatcher, .go) thereAndBack_sleepsAgain
    fun q a ha q' h => by
      obtain ⟨s, hs, rfl⟩ := Option.map_eq_some_iff.1 h
      refine ⟨⟨?_, hs⟩, rfl⟩
      rintro p rfl
      cases List.all_eq_true.1 hne _ ha
  have halive : ∀ k ≤ thereAndBack.length, (x k).1.destructor = .idle := by
    intro k hk
    have hidle := hp k hk
    simp only [sleepsAgain, Bool.and_eq_true] at hidle
    cases hd : (x k).1.destructor <;> simp [hd] at hidle ⊢
  have hend := hp _ le_rfl
  simp only [sleepsAgain, Bool.and_eq_true, bne_self_eq_false, Bool.false_or, beq_iff_eq] at hend
  obtain ⟨-, ⟨⟨hd, hw⟩, hidle⟩, hcalls⟩ := hend
  have hrest : (x thereAndBack.length).1.AtRest single := by
    refine ⟨?_, fun i hi => ?_, fun _ => hidle, halive _ le_rfl⟩
    · cases hc : (x thereAndBack.length).1.dispatcher with
      | waiter g => cases g <;> simp [hc] at hd ⊢
      | _ => simp [hc] at hd
    · obtain rfl : i = 0 := Nat.lt_one_iff.1 hi
      cases hc : ((x thereAndBack.length).1.workers 0).pc with
      | waiter g => cases g <;> simp [hc] at hw ⊢
      | _ => simp [hc] at hw
  obtain ⟨z, d, hz, hbefore, hafter⟩ := hx.exists_execution (c := none) (by simp)
  have hfair : Fair single z d :=
    ⟨hz, fun θ => weaklyFair_of_loop hafter fun hen => absurd hen (hrest.not_enabled θ)⟩
  have halive' : ∀ j, (z j).1.destructor = .idle := by
    intro j
    rcases le_total j thereAndBack.length with hj | hj
    · rw [hbefore j hj]
      exact halive j hj
    · rw [(hafter j hj).1]
      exact halive _ le_rfl
  have hcalled : (z thereAndBack.length).1.Called ((), 0) := by
    rw [hbefore _ le_rfl]
    simp [State.Called, hcalls]
  exact ⟨z, d, hfair, thereAndBack.length, hcalled, every_task_executed hfair halive' hcalled⟩

end AstraLib.ThreadPool
