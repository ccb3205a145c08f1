import AstraLib.Ring.Stream
import AstraLib.ThreadPool.Tasks

/-!
# `ThreadPool`: tasks are dispatched in the order of submission

The dispatcher is the only consumer of `taskQueue`, so it receives the tasks in the order of
their write tickets (`AstraLib.Ring.Stream`).  It carries one task at a time and does not look
for the next one before it has handed that one over, however often it goes round the workers.
`Ordered` puts the two together: what was handed over, and the task that is on its way to a
worker, are the first results of `dequeue`.

With a single worker nothing can be handed over before the last task is done, and the
executions are in the same order (`Serial`).
-/

namespace AstraLib.ThreadPool

open Interleaving

variable {Tid : Type}

/-- The tasks that `activateWorker` has put into a slot, those of a call in progress included. -/
def Log.activated (l : Log Tid) (d : Dispatcher) : List (Task Tid) :=
  l.handed.map Prod.snd ++ if d.grip = .store ∨ d.grip = .wake then l.activating.toList else []

/-- The tasks whose call has begun and has not ended. -/
def Log.running (l : Log Tid) : Set (Task Tid) := {x | x ∈ l.started ∧ x ∉ l.finished}

/-- The call of `assignTask` for this task has begun. -/
def State.Called (s : State Tid) (x : Task Tid) : Prop := x.2 < s.calls x.1

/-- The call of `assignTask` for this task has returned. -/
def State.Returned (s : State Tid) (x : Task Tid) : Prop :=
  s.Called x ∧ (s.producer x.1 = .idle ∨ x.2 + 1 < s.calls x.1)

/-! ### The way through the queue -/

/-- What the dispatcher has in its local variable. -/
def State.carried (s : State Tid) : List (Task Tid) :=
  if s.dispatcher.carries then s.task.toList else []

section Pool

variable [DecidableEq Tid]

/-- The write tickets belong to the tasks in the order of the log, and the results of
`dequeue` are the tasks that have got a worker, followed by the one that has not got one
yet. Empty functions do not count. -/
structure Ordered (s : State Tid) (l : Log Tid) (q : Ring.Log (Party Tid) (Fn Tid) 1)
    (r : Ring.Stream (Fn Tid) 1) : Prop where
  reachable : (Ring.streamSystem taskQueueConfig .dispatcher).Reachable ((s.queue, q), r)
  writers : q.writers.filterMap (·.2 0) = l.claimed
  values : r.values.filterMap (· 0) = l.activated s.dispatcher ++ s.carried

/-- The entries that a step adds to the log of the write tickets. -/
def Grows (s : State Tid) (q q' : Ring.Log (Party Tid) (Fn Tid) 1) : Prop :=
  ∀ e ∈ q'.writers, e ∈ q.writers ∨ ∃ p, (s.queue.pc (.producer p)).claiming = some e.2

namespace Ordered

variable {cfg : Config} {s s' : State Tid} {l l' : Log Tid} {q : Ring.Log (Party Tid) (Fn Tid) 1}
  {r : Ring.Stream (Fn Tid) 1}

theorem frame (h : Ordered s l q r) (hq : s'.queue = s.queue) (hl : l'.claimed = l.claimed)
    (hd : l'.activated s'.dispatcher ++ s'.carried = l.activated s.dispatcher ++ s.carried) :
    Ordered s' l' q r := by
  refine ⟨?_, ?_, ?_⟩
  · rw [hq]; exact h.reachable
  · rw [hl]; exact h.writers
  · rw [hd]; exact h.values

/-- A producer takes a step in the queue. -/
theorem produce (h : Ordered s l q r) {p : Tid} {b : Ring.Micro (Fn Tid) 1}
    (hq : queueStep s (.producer p) b = some s'.queue) (hcall : ∀ c, b = .call c → c.op = .enqueue)
    (hl : l'.claimed = l.claimed ++ ((s.queue.pc (.producer p)).claiming.bind (· 0)).toList)
    (hd : l'.activated s'.dispatcher ++ s'.carried = l.activated s.dispatcher ++ s.carried) :
    ∃ q', Ordered s' l' q' r ∧ Grows s q q' := by
  obtain ⟨m, pc, hx, -⟩ := queueStep_eq_some.1 hq
  have hwriters := hx.note_writers q (.producer p)
  refine ⟨q.note (.producer p) (s.queue.pc (.producer p)) b,
    ⟨.step h.reachable (a := (.producer p, b)) ⟨⟨⟨fun c hc => ?_, hq⟩, rfl⟩, ?_⟩, ?_, ?_⟩,
    fun e he => ?_⟩
  · have hop := hcall c hc
    refine ⟨fun hop' => ?_, fun n hn => ?_⟩
    · rw [hop] at hop'
      rcases hop' with hop' | hop' <;> cases hop'
    · rw [hn] at hop
      cases hop
  · simp [Ring.streamNote]
  · rw [hwriters, hl, List.filterMap_append, h.writers]
    cases (s.queue.pc (.producer p)).claiming with
    | none => rfl
    | some v => cases hv : v 0 <;> simp [hv]
  · rw [hd]; exact h.values
  · rw [hwriters, List.mem_append] at he
    refine he.imp id fun he => ⟨p, ?_⟩
    simp only [Option.mem_toList, Option.map_eq_some_iff] at he
    obtain ⟨v, hv, rfl⟩ := he
    exact hv

/-- The dispatcher takes a step in the queue. -/
theorem dispatch (h : Ordered s l q r) (ha : Agree s) {b : Ring.Micro (Fn Tid) 1}
    (hq : queueStep s .dispatcher b = some s'.queue)
    (hcall : ∀ c, b = .call c → c.op = .isEmpty ∨ c.op = .dequeue) (hl : l'.claimed = l.claimed)
    (hr : (r.note taskQueueConfig (s.queue.pc .dispatcher) b
      s.queue.mem.batchDequeueArray).values.filterMap (· 0) =
      l'.activated s'.dispatcher ++ s'.carried) :
    ∃ q' r', Ordered s' l' q' r' ∧ Grows s q q' := by
  obtain ⟨m, pc, hx, -⟩ := queueStep_eq_some.1 hq
  -- the dispatcher never enqueues
  have hnone : (s.queue.pc .dispatcher).claiming = none := by
    cases hp : s.queue.pc .dispatcher with
    | enqClaim k v => rcases ha.dispatcher_op (by rw [hp]; rfl) with hop | hop <;> cases hop
    | _ => rfl
  have hwriters : (q.note .dispatcher (s.queue.pc .dispatcher) b).writers = q.writers := by
    rw [hx.note_writers q .dispatcher, hnone]
    simp
  refine ⟨q.note .dispatcher (s.queue.pc .dispatcher) b,
    r.note taskQueueConfig (s.queue.pc .dispatcher) b s.queue.mem.batchDequeueArray,
    ⟨.step h.reachable (a := (.dispatcher, b)) ⟨⟨⟨fun c hc => ?_, hq⟩, rfl⟩, ?_⟩, ?_, hr⟩,
    fun e he => ?_⟩
  · refine ⟨fun _ => rfl, fun n hn => ?_⟩
    have hop := hcall c hc
    rw [hn] at hop
    rcases hop with hop | hop <;> cases hop
  · simp [Ring.streamNote]
  · rw [hwriters, hl]; exact h.writers
  · rw [hwriters] at he; exact Or.inl he

theorem produceStep (h : Ordered s l q r) {p : Tid} {a : Micro Tid} (hs : ProducerStep s p a s') :
    ∃ q', Ordered s' (l.note s (.producer p, a)) q' r ∧ Grows s q q' := by
  cases hs with
  | assignTask empty q' hp hq =>
    refine h.produce hq (by rintro c ⟨⟩; rfl) ?_ rfl
    obtain ⟨m, pc, hx, -⟩ := queueStep_eq_some.1 hq
    simp [Log.note, hx.call_inv.1, Ring.Pc.claiming]
  | inside b q' hp hcall hret hq =>
    refine h.produce hq (fun c hc => absurd hc (hcall c)) (l.note_queue hq hcall) ?_
    cases b <;> rfl
  | ret q' hp hq =>
    refine h.produce hq (by simp) ?_ rfl
    obtain ⟨m, pc, hx, -⟩ := queueStep_eq_some.1 hq
    simp [Log.note, (hx.claiming_eq_none (by simp)).2 (by simp)]
  | store hp => exact ⟨q, h.frame rfl rfl rfl, fun _ => Or.inl⟩
  | wake hp =>
    refine ⟨q, h.frame rfl rfl ?_, fun _ => Or.inl⟩
    simp only [State.carried, Log.activated, Dispatcher.woken_carries, Dispatcher.woken_grip]
    rfl

theorem dispatchStep (h : Ordered s l q r) (ha : Agree s) {a : Micro Tid}
    (hs : DispatcherStep cfg s s') :
    ∃ q' r', Ordered s' (l.note s (.dispatcher, a)) q' r' ∧ Grows s q q' := by
  have hframe : ∀ {l'}, s'.queue = s.queue → l'.claimed = l.claimed →
      l'.activated s'.dispatcher ++ s'.carried = l.activated s.dispatcher ++ s.carried →
      ∃ q' r', Ordered s' l' q' r' ∧ Grows s q q' :=
    fun hq hl hd => ⟨q, r, h.frame hq hl hd, fun _ => Or.inl⟩
  cases hs with
  | inside op b q' hp hcall hret hq =>
    rw [l.note_of_op hp]
    refine h.dispatch ha hq (fun c hc => ?_) rfl ?_
    · rw [hcall c hc]
      exact (Dispatcher.op_eq_some hp).imp And.left And.left
    · rw [Ring.Stream.note_values r hret]
      exact h.values
  | answer k b q' hp hb hq =>
    simp only [Log.note, hp]
    refine h.dispatch ha hq (by simp) rfl ?_
    rw [hb, show (r.note taskQueueConfig (.isEmptyReturn b) .ret s.queue.mem.batchDequeueArray) =
      r from rfl, h.values]
    cases k <;> cases b <;>
      simp [Log.activated, State.carried, Check.next, Dispatcher.grip, Dispatcher.carries, hp]
  | take t v q' hp hv hq =>
    simp only [Log.note, hp]
    refine h.dispatch ha hq (by simp) rfl ?_
    rw [hv, show r.note taskQueueConfig (.deqReturn t v) .ret s.queue.mem.batchDequeueArray =
      { r with values := r.values ++ [v] } from rfl, List.filterMap_append, h.values]
    cases hx : v 0 <;>
      simp [Log.activated, State.carried, Dispatcher.grip, Dispatcher.carries, hp, hx]
  | wake hp =>
    simp only [Log.note, hp]
    refine hframe rfl rfl ?_
    cases hx : l.activating <;>
      simp [Log.activated, State.carried, hp, hx, Dispatcher.grip, Dispatcher.carries]
  | wait g g' hp hw =>
    simp only [Log.note, hp]
    exact hframe rfl rfl
      (by simp [Log.activated, State.carried, hp, Dispatcher.grip, Dispatcher.carries])
  | claim first start hp hpool =>
    simp only [Log.note, hp]
    exact hframe rfl rfl
      (by simp [Log.activated, State.carried, hp, Dispatcher.grip, Dispatcher.carries])
  | next first first' start hp hpool =>
    simp only [Log.note, hp]
    exact hframe rfl rfl
      (by simp [Log.activated, State.carried, hp, Dispatcher.grip, Dispatcher.carries])
  | write left hp =>
    simp only [Log.note, hp]
    exact hframe rfl rfl
      (by simp [Log.activated, State.carried, hp, Dispatcher.grip, Dispatcher.carries])
  | _ hp =>
    simp only [Log.note, hp]
    exact hframe rfl rfl
      (by simp [Log.activated, State.carried, hp, Dispatcher.grip, Dispatcher.carries])

theorem step (h : Ordered s l q r) (ha : Agree s) {a : Thread Tid × Micro Tid}
    (hs : Step cfg s a s') : ∃ q' r', Ordered s' (l.note s a) q' r' ∧ Grows s q q' := by
  cases hs with
  | producer hs =>
    obtain ⟨q', hq'⟩ := h.produceStep hs
    exact ⟨q', r, hq'⟩
  | dispatcher hs => exact h.dispatchStep ha hs
  | @worker i b w hi hw =>
    obtain ⟨hcl, hact, hh⟩ := l.note_worker s i b
    refine ⟨q, r, h.frame rfl hcl ?_, fun _ => Or.inl⟩
    simp only [Log.activated, hact, hh]
    rfl
  | destructor hs =>
    cases hs with
    | wake hp =>
      refine ⟨q, r, h.frame rfl rfl ?_, fun _ => Or.inl⟩
      simp only [State.carried, Log.activated, Dispatcher.woken_carries, Dispatcher.woken_grip]
      rfl
    | _ => exact ⟨q, r, h.frame rfl rfl rfl, fun _ => Or.inl⟩

theorem init (data array : ℕ → Payload (Fn Tid) 1) :
    Ordered (fresh data array) Log.empty Ring.Log.empty Ring.Stream.empty :=
  ⟨.init ⟨⟨⟨data, array, rfl⟩, rfl⟩, rfl⟩, rfl, rfl⟩

end Ordered

section Consequences

variable {cfg : Config} {s : State Tid} {l : Log Tid}

/-- **The tasks get their workers in the order of their tickets.** -/
theorem activated_isPrefix (h : (history Tid cfg).Reachable (s, l)) :
    l.activated s.dispatcher <+: l.claimed := by
  have hI : (history Tid cfg).IsInvariant
      fun z : State Tid × Log Tid => ∃ q r, Ordered z.1 z.2 q r := by
    constructor
    · rintro ⟨s, l⟩ ⟨⟨data, array, rfl⟩, rfl⟩
      exact ⟨_, _, .init data array⟩
    · rintro ⟨s, l⟩ a ⟨s', l'⟩ hs ⟨q, r, ih⟩ ⟨hstep, rfl⟩
      obtain ⟨q', r', h', -⟩ := ih.step (Agree.reachable hs.of_log) (step_cases hstep)
      exact ⟨q', r', h'⟩
  obtain ⟨q, r, hord⟩ := hI.reachable h
  have hstream : Ring.Streaming s.queue.mem (s.queue.pc .dispatcher) q r :=
    Ring.streaming (by decide) hord.reachable
  have hprefix : r.values.filterMap (· 0) <+: (q.writers.map Prod.snd).filterMap (· 0) :=
    hstream.isPrefix.filterMap _
  rw [List.filterMap_map, hord.values] at hprefix
  rw [← hord.writers]
  exact (List.prefix_append _ _).trans hprefix

/-- If no function is empty, then there is none among those that have got a ticket. -/
theorem exists_ordered (h : (logged Tid cfg).Reachable (s, l)) :
    ∃ q r, Ordered s l q r ∧ ∀ e ∈ q.writers, e.2 0 ≠ none := by
  have hI : (logged Tid cfg).IsInvariant fun z : State Tid × Log Tid =>
      ∃ q r, Ordered z.1 z.2 q r ∧ ∀ e ∈ q.writers, e.2 0 ≠ none := by
    constructor
    · rintro ⟨s, l⟩ ⟨⟨data, array, rfl⟩, rfl⟩
      exact ⟨_, _, .init data array, by simp [Ring.Log.empty]⟩
    · rintro ⟨s, l⟩ a ⟨s', l'⟩ hs ⟨q, r, ih, hfull⟩ ⟨⟨-, hstep⟩, rfl⟩
      obtain ⟨q', r', h', hgrows⟩ :=
        ih.step (Agree.reachable hs.of_log.of_restrict) (step_cases hstep)
      refine ⟨q', r', h', fun e he => ?_⟩
      rcases hgrows e he with hold | ⟨p, hp⟩
      · exact hfull e hold
      · obtain ⟨k, hk, -⟩ := (Filled.reachable hs.of_log).claiming p e.2 hp
        rw [hk]
        simp
  exact hI.reachable h

/-- If no function is empty, then the log of the tasks has an entry for each write ticket. -/
theorem claimed_tickets (h : (logged Tid cfg).Reachable (s, l)) :
    s.queue.mem.writeTicket = l.claimed.length ∧
    ∀ p t v, (s.queue.pc (.producer p)).writing = some (t, v) → l.claimed[t]? = v 0 := by
  obtain ⟨q, r, hord, hfull⟩ := exists_ordered h
  obtain ⟨ht, -⟩ := Ring.invariants hord.reachable.of_log.log_of_restrict
  have heq : l.claimed.map some = q.writers.map (·.2 0) := by
    rw [← hord.writers, List.map_filterMap_some_eq_filter_map_isSome, List.filter_eq_self]
    intro f hf
    obtain ⟨e, he, rfl⟩ := List.mem_map.1 hf
    exact Option.isSome_iff_ne_none.2 (hfull e he)
  constructor
  · rw [ht.writeTicket_eq, ← List.length_map (·.2 0), ← heq, List.length_map]
  · intro p t v hv
    have hw := ((ht.writing_iff _ _ _).1 hv).1
    have hget : (l.claimed.map some)[t]? = some (v 0) := by
      rw [heq, List.getElem?_map, hw]
      rfl
    rw [List.getElem?_map, Option.map_eq_some_iff] at hget
    obtain ⟨x, hx, hxv⟩ := hget
    rw [hx, hxv]

end Consequences

/-! ### Calls that have returned -/

/-- A call of `assignTask` has its ticket, or it is about to take one. -/
def Submitted (s : State Tid) (l : Log Tid) : Prop :=
  ∀ x, s.Called x → x ∈ l.claimed ∨
    x.2 + 1 = s.calls x.1 ∧ (s.queue.pc (.producer x.1)).claiming ≠ none

namespace Submitted

variable {cfg : Config} {s s' : State Tid} {l l' : Log Tid}

omit [DecidableEq Tid] in
/-- Steps that leave the calls of a thread alone. -/
theorem frame (h : Submitted s l) (hl : l.claimed <+: l'.claimed) {x : Task Tid}
    (hcalls : s'.calls x.1 = s.calls x.1)
    (hpc : (s.queue.pc (.producer x.1)).claiming ≠ none → x.2 + 1 = s.calls x.1 →
      x ∈ l'.claimed ∨ (s'.queue.pc (.producer x.1)).claiming ≠ none) (hx : s'.Called x) :
    x ∈ l'.claimed ∨ x.2 + 1 = s'.calls x.1 ∧ (s'.queue.pc (.producer x.1)).claiming ≠ none := by
  have hx' : s.Called x := by
    unfold State.Called at hx ⊢
    rw [← hcalls]
    exact hx
  rcases h x hx' with hmem | ⟨hlast, hclaim⟩
  · exact Or.inl (hl.subset hmem)
  · rw [hcalls]
    exact (hpc hclaim hlast).imp id fun hc => ⟨hlast, hc⟩

theorem produce (h : Submitted s l) (ha : Agree s) (hf : Filled s) {p : Tid} {a : Micro Tid}
    (hs : ProducerStep s p a s') : Submitted s' (l.note s (.producer p, a)) := by
  intro x hx
  have hl := Log.note_claimed s (.producer p, a) l
  by_cases hxp : x.1 = p
  · subst hxp
    cases hs with
    | assignTask empty q hp hq =>
      have hidle := ha.idle_of_ne_enqueue (p := x.1) (by rw [hp]; simp)
      obtain ⟨m, pc, hx', rfl⟩ := queueStep_eq_some.1 hq
      by_cases hlast : x.2 = s.calls x.1
      · right
        refine ⟨by simp [hlast], ?_⟩
        rw [Ring.put_pc_self, hx'.call_inv.2.2]
        simp [Ring.Call.entry, Ring.Pc.claiming]
      · left
        have hcalled : s.Called x := by
          simp only [State.Called, Function.update_self] at hx ⊢
          omega
        refine hl.subset ((h x hcalled).resolve_right fun hc => hc.2 ?_)
        rw [hidle]
        rfl
    | inside b q hp hcall hret hq =>
      refine h.frame hl rfl (fun hclaim hlast => Or.inl ?_) hx
      obtain ⟨m, pc, hx', rfl⟩ := queueStep_eq_some.1 hq
      obtain ⟨v, hv⟩ := Option.ne_none_iff_exists'.1 hclaim
      obtain ⟨k, hk, hcalls⟩ := hf.claiming x.1 v hv
      obtain ⟨kind, hpc⟩ := Ring.Pc.claiming_eq_some.1 hv
      have hkx : (x.1, k) = x := Prod.ext rfl (by simp only; omega)
      rw [hpc] at hx'
      cases hx' with
      | enqClaim => simp [Log.note, hv, hk, hkx]
    | ret q hp hq =>
      refine h.frame hl rfl (fun hclaim _ => ?_) hx
      obtain ⟨m, pc, hx', rfl⟩ := queueStep_eq_some.1 hq
      exact absurd ((hx'.claiming_eq_none (by simp)).2 (by simp)) hclaim
    | store hp => exact h.frame hl rfl (fun hclaim _ => Or.inr hclaim) hx
    | wake hp => exact h.frame hl rfl (fun hclaim _ => Or.inr hclaim) hx
  · refine h.frame hl ?_ (fun hclaim _ => Or.inr ?_) hx
    · cases hs with
      | assignTask => exact Function.update_of_ne hxp _ _
      | _ => rfl
    · rw [(hs.others.2 _ hxp).1]
      exact hclaim

theorem step (h : Submitted s l) (ha : Agree s) (hf : Filled s) {a : Thread Tid × Micro Tid}
    (hs : Step cfg s a s') : Submitted s' (l.note s a) := by
  have hl := Log.note_claimed s a l
  have hquiet : s'.calls = s.calls →
      (∀ p, s'.queue.pc (.producer p) = s.queue.pc (.producer p)) → Submitted s' (l.note s a) := by
    intro hcalls hpc x hx
    refine h.frame hl (by rw [hcalls]) (fun hclaim _ => Or.inr ?_) hx
    rw [hpc]
    exact hclaim
  have hdispatch : ∀ {b}, queueStep s .dispatcher b = some s'.queue →
      ∀ p, s'.queue.pc (.producer p) = s.queue.pc (.producer p) :=
    fun hq p => queueStep_pc_of_ne hq (by simp)
  cases hs with
  | producer hs => exact h.produce ha hf hs
  | dispatcher hs =>
    cases hs with
    | inside op b q hp hcall hret hq => exact hquiet rfl (hdispatch hq)
    | answer k b q hp hb hq => exact hquiet rfl (hdispatch hq)
    | take t v q hp hv hq => exact hquiet rfl (hdispatch hq)
    | _ => exact hquiet rfl fun _ => rfl
  | worker hi hw => exact hquiet rfl fun _ => rfl
  | destructor hs => cases hs <;> exact hquiet rfl fun _ => rfl

theorem reachable (h : (logged Tid cfg).Reachable (s, l)) : Submitted s l := by
  have hI : (logged Tid cfg).IsInvariant fun z : State Tid × Log Tid => Submitted z.1 z.2 := by
    constructor
    · rintro ⟨s, l⟩ ⟨⟨data, array, rfl⟩, rfl⟩ x hx
      simp [State.Called, fresh] at hx
    · rintro ⟨s, l⟩ a ⟨s', l'⟩ hs ih ⟨⟨-, hstep⟩, rfl⟩
      exact ih.step (Agree.reachable hs.of_log.of_restrict) (Filled.reachable hs.of_log)
        (step_cases hstep)
  exact hI.reachable h

end Submitted

/-- The task of a call that has returned has its ticket. -/
theorem mem_claimed_of_returned {cfg : Config} {s : State Tid} {l : Log Tid}
    (h : (logged Tid cfg).Reachable (s, l)) {x : Task Tid} (hx : s.Returned x) : x ∈ l.claimed := by
  obtain ⟨hcalled, hret⟩ := hx
  refine (Submitted.reachable h x hcalled).resolve_right ?_
  rintro ⟨hlast, hclaim⟩
  have hidle : s.producer x.1 = .idle := hret.resolve_right (by omega)
  have ha : Agree s := Agree.reachable h.of_log.of_restrict
  rw [ha.idle_of_ne_enqueue (by rw [hidle]; simp)] at hclaim
  exact hclaim rfl

/-! ### A single worker -/

/-- The task in the slot has not been started. If the worker has exited, it never will be. -/
def Loop.unstarted : Loop Tid → Bool
  | .loopTest | .waiter _ | .test | .call | .exited => true
  | _ => false

omit [DecidableEq Tid] in
theorem Loop.unstarted_of_outside {p : Loop Tid} (h : p.outside = true) : p.unstarted = true := by
  cases p <;> first | rfl | cases h

omit [DecidableEq Tid] in
theorem Loop.woken_unstarted (p : Loop Tid) : p.woken.unstarted = p.unstarted := by
  cases p <;> rfl

/-- The task in the slot, if it has not been started. -/
def Worker.unstarted (w : Worker Tid) : List (Task Tid) :=
  if w.pc.unstarted then w.task.toList else []

omit [DecidableEq Tid] in
theorem Worker.woken_unstarted (w : Worker Tid) :
    { w with pc := w.pc.woken }.unstarted = w.unstarted := by
  simp only [Worker.unstarted, Loop.woken_unstarted]

/-- The only worker has started all tasks that it was given, except for the one in its slot. -/
def Serial (s : State Tid) (l : Log Tid) : Prop :=
  l.started ++ (s.workers 0).unstarted = l.activated s.dispatcher

namespace Serial

variable {cfg : Config} {s s' : State Tid} {l l' : Log Tid}

omit [DecidableEq Tid] in
theorem frame (h : Serial s l) (hw : (s'.workers 0).unstarted = (s.workers 0).unstarted)
    (hst : l'.started = l.started) (hact : l'.activated s'.dispatcher = l.activated s.dispatcher) :
    Serial s' l' := by
  unfold Serial
  rw [hst, hw, hact]
  exact h

omit [DecidableEq Tid] in
theorem work (h : Serial s l) {w : Worker Tid} (hphase : Phase (s.grip 0) (s.workers 0))
    (hr : (s.workers 0).running = true) {a : Micro Tid} (hw : WorkerStep (s.workers 0) w) :
    Serial (s.setWorker 0 w) (l.note s (.worker 0, a)) := by
  have hact : (l.note s (.worker 0, a)).activated s.dispatcher = l.activated s.dispatcher := by
    obtain ⟨-, hact, hh⟩ := l.note_worker s 0 a
    unfold Log.activated
    rw [hact, hh]
  have hquiet : (∀ t, (s.workers 0).pc ≠ .executing t) → (s.workers 0).pc ≠ .call →
      w.unstarted = (s.workers 0).unstarted →
      Serial (s.setWorker 0 w) (l.note s (.worker 0, a)) := by
    intro hne hcall hwait
    refine h.frame (by rw [setWorker_workers_self, hwait]) ?_ hact
    cases hpc : (s.workers 0).pc with
    | executing t => exact absurd hpc (hne t)
    | call => exact absurd hpc hcall
    | _ => simp [Log.note, hpc]
  cases hw with
  | enter hp _ =>
    exact hquiet (by simp [hp]) (by simp [hp]) (by simp [Worker.unstarted, hp, Loop.unstarted])
  | exit hp hr' => cases hr.symm.trans hr'
  | wait g g' hp _ =>
    exact hquiet (by simp [hp]) (by simp [hp]) (by simp [Worker.unstarted, hp, Loop.unstarted])
  | pass hp _ =>
    exact hquiet (by simp [hp]) (by simp [hp]) (by simp [Worker.unstarted, hp, Loop.unstarted])
  | accept t hp _ =>
    exact hquiet (by simp [hp]) (by simp [hp]) (by simp [Worker.unstarted, hp, Loop.unstarted])
  | skip hp _ =>
    exact hquiet (by simp [hp]) (by simp [hp]) (by simp [Worker.unstarted, hp, Loop.unstarted])
  | start t hp ht =>
    -- the task leaves the slot
    unfold Serial at h ⊢
    rw [setWorker_dispatcher, hact, ← h, setWorker_workers_self]
    simp [Log.note, hp, ht, Worker.unstarted, Loop.unstarted]
  | finish t hp =>
    refine h.frame ?_ (by simp [Log.note, hp]) hact
    rw [setWorker_workers_self]
    simp [Worker.unstarted, hp, Loop.unstarted]
  | clear hp =>
    exact hquiet (by simp [hp]) (by simp [hp]) (by simp [Worker.unstarted, hp, Loop.unstarted])
  | reset hp =>
    exact hquiet (by simp [hp]) (by simp [hp]) (by simp [Worker.unstarted, hp, Loop.unstarted])
  | release hp =>
    -- the slot has been emptied
    have hnone : (s.workers 0).task = none := by
      cases hphase with
      | closed _ _ _ htask _ => exact htask
      | _ => simp_all [Loop.outside, Loop.awaits]
    exact hquiet (by simp [hp]) (by simp [hp]) (by simp [Worker.unstarted, hp, hnone])

theorem dispatch (h : Serial s l) (hf : Filled s) (hid : s.lastIdDispatched = 0)
    (hphase : Phase (s.grip 0) (s.workers 0)) {a : Micro Tid} (hs : DispatcherStep cfg s s') :
    Serial s' (l.note s (.dispatcher, a)) := by
  have hcand : s.candidate = s.workers 0 := by rw [State.candidate, hid]
  have haway : s'.workers = s.workers → s.dispatcher.grip = .away → s'.dispatcher.grip = .away →
      Serial s' l := by
    intro hw hg hg'
    refine h.frame (by rw [hw]) rfl ?_
    simp [Log.activated, hg, hg']
  cases hs with
  | inside op b q hp hcall hret hq =>
    rw [l.note_of_op hp]
    exact h.frame rfl rfl rfl
  | answer k b q hp hb hq =>
    simp only [Log.note, hp]
    exact haway rfl (by rw [hp]; rfl) (by cases k <;> cases b <;> rfl)
  | claim first start hp hpool =>
    simp only [Log.note, hp]
    refine h.frame ?_ rfl ?_
    · simp [State.setWorker, hid, hcand, Worker.unstarted]
    · simp [Log.activated, hp, Dispatcher.grip]
  | write left hp =>
    rw [State.grip_eq_write.2 ⟨hid, hp⟩] at hphase
    obtain ⟨-, hnone, hpc⟩ := hphase.of_write
    have hunstarted := Loop.unstarted_of_outside hpc
    obtain ⟨x, hx⟩ := Option.ne_none_iff_exists'.1 (hf.carried (by rw [hp]; rfl))
    have hstarted : l.started = l.handed.map Prod.snd := by
      unfold Serial at h
      simpa [Log.activated, Worker.unstarted, hp, hnone, Dispatcher.grip] using h
    unfold Serial
    simp [Log.note, hp, hx, Log.activated, Dispatcher.grip, State.setWorker, hid, hcand,
      Worker.unstarted, hunstarted, hstarted]
  | store hp =>
    simp only [Log.note, hp]
    refine h.frame ?_ rfl ?_
    · simp [State.setWorker, hid, hcand, Worker.unstarted]
    · simp [Log.activated, hp, Dispatcher.grip]
  | wake hp =>
    simp only [Log.note, hp]
    refine h.frame ?_ rfl ?_
    · simp [State.setWorker, hid, hcand, Worker.unstarted, Loop.woken_unstarted]
    · cases hx : l.activating <;> simp [Log.activated, hp, hx, Dispatcher.grip]
  | wait g g' hp hw => simp only [Log.note, hp]; exact haway rfl (by rw [hp]; rfl) rfl
  | take t v q hp hv hq => simp only [Log.note, hp]; exact haway rfl (by rw [hp]; rfl) rfl
  | next first first' start hp hpool =>
    simp only [Log.note, hp]; exact haway rfl (by rw [hp]; rfl) rfl
  | _ hp => simp only [Log.note, hp]; exact haway rfl (by rw [hp]; rfl) rfl

theorem step (h : Serial s l) (hf : Filled s) (ho : HandOff cfg s) (hT : cfg.THREAD_COUNT = 1)
    (hr : (s.workers 0).running = true) {a : Thread Tid × Micro Tid} (hs : Step cfg s a s')
    (ha : a.1 ≠ .destructor) : Serial s' (l.note s a) := by
  have hphase := ho.phase 0 hr
  have hid : s.lastIdDispatched = 0 := by
    have := ho.id_lt
    omega
  cases hs with
  | producer hs =>
    cases hs with
    | inside b => refine h.frame rfl ?_ ?_ <;> cases b <;> rfl
    | wake =>
      refine h.frame rfl rfl ?_
      simp only [Log.activated, Dispatcher.woken_grip]
      rfl
    | _ => exact h.frame rfl rfl rfl
  | dispatcher hs => exact h.dispatch hf hid hphase hs
  | @worker i _ _ hi hw =>
    obtain rfl : i = 0 := by omega
    exact h.work hphase hr hw
  | destructor hs => exact absurd rfl ha

theorem reachable (h : (logged Tid cfg).Reachable (s, l)) (hT : cfg.THREAD_COUNT = 1)
    (hidle : s.destructor = .idle) : Serial s l := by
  have hI : (logged Tid cfg).IsInvariant
      fun z : State Tid × Log Tid => z.1.destructor = .idle → Serial z.1 z.2 := by
    constructor
    · rintro ⟨s, l⟩ ⟨⟨data, array, rfl⟩, rfl⟩ -
      rfl
    · rintro ⟨s, l⟩ a ⟨s', l'⟩ hs ih ⟨⟨-, hstep⟩, rfl⟩ hidle
      have hst := step_cases hstep
      obtain ⟨hidle', hne⟩ := hst.idle hidle
      have hr := workers_running hs.of_log.of_restrict (by rw [hidle']; rfl) 0
      exact (ih hidle').step (Filled.reachable hs.of_log)
        (HandOff.reachable hs.of_log) hT hr hst hne
  exact hI.reachable h hidle

end Serial

/-! ### The order of the tasks -/

/-- The task that a worker runs. -/
def Loop.runs : Loop Tid → Option (Task Tid)
  | .executing t => some t
  | _ => none

omit [DecidableEq Tid] in
theorem Loop.woken_runs (p : Loop Tid) : p.woken.runs = p.runs := by
  cases p <;> rfl

omit [DecidableEq Tid] in
/-- Each worker runs at most one task. -/
theorem Tasks.running_encard_le {cfg : Config} {s : State Tid} {l : Log Tid} (h : Tasks cfg s l) :
    l.running.encard ≤ cfg.THREAD_COUNT := by
  have hsub : some '' l.running ⊆
      (fun i => (s.workers i).pc.runs) '' (Finset.range cfg.THREAD_COUNT : Set ℕ) := by
    rintro _ ⟨x, ⟨hst, hfin⟩, rfl⟩
    obtain ⟨i, hi, hpc⟩ := ((h.started x).1 hst).resolve_right hfin
    exact ⟨i, by simpa using hi, by simp [hpc, Loop.runs]⟩
  calc l.running.encard
      = (some '' l.running).encard := ((Option.some_injective _).encard_image _).symm
    _ ≤ ((fun i => (s.workers i).pc.runs) '' (Finset.range cfg.THREAD_COUNT : Set ℕ)).encard :=
        Set.encard_mono hsub
    _ ≤ (Finset.range cfg.THREAD_COUNT : Set ℕ).encard := Set.encard_image_le _ _
    _ = cfg.THREAD_COUNT := by rw [Set.encard_coe_eq_coe_finsetCard, Finset.card_range]

/-- What comes later in a list, seen from two of its initial segments. -/
theorem pair_sublist_of_isPrefix {α : Type} {c h l : List α} {t u : α} (hc : c <+: l) (hh : h <+: l)
    (ht : t ∈ c) (hu : u ∉ c) (hu' : u ∈ h) : [t, u].Sublist h := by
  rcases List.prefix_or_prefix_of_prefix hc hh with hle | hle
  · obtain ⟨rest, rfl⟩ := hle
    have hu'' : u ∈ rest := (List.mem_append.1 hu').resolve_left hu
    exact (List.singleton_sublist.2 ht).append (List.singleton_sublist.2 hu'')
  · exact absurd (hle.subset hu') hu

theorem claimed_mono {cfg : Config} {x : ℕ → State Tid × Log Tid} {a : ℕ → Thread Tid × Micro Tid}
    {n : ℕ} (hrun : (logged Tid cfg).Run x a n) {j k : ℕ} (hjk : j ≤ k) (hk : k ≤ n) :
    (x j).2.claimed <+: (x k).2.claimed := by
  induction k, hjk using Nat.le_induction with
  | base => exact List.prefix_rfl
  | succ k _ ih =>
    refine (ih (by omega)).trans ?_
    rw [(hrun.step k (by omega)).2]
    exact Log.note_claimed _ _ _

/-- **Tasks are dispatched in the order of submission.** Take any run with tasks that are not empty
in which `~ThreadPool` has not been called. The log `claimed` is in the order of the write tickets,
and the tasks handed over to workers are a prefix of it. So if one call of `assignTask` had returned
when another one had not begun, then the task of the first is handed over before that of the second.
At most `THREAD_COUNT` tasks are running, and with one worker the executions are themselves in the
order of the tickets, one after the other. -/
theorem dispatches_in_submission_order {cfg : Config} {x : ℕ → State Tid × Log Tid}
    {a : ℕ → Thread Tid × Micro Tid} {n : ℕ} (hrun : (logged Tid cfg).Run x a n)
    (hidle : ∀ k ≤ n, (x k).1.destructor = .idle) :
    ((x n).1.queue.mem.writeTicket = (x n).2.claimed.length ∧
      ∀ p t v, ((x n).1.queue.pc (.producer p)).writing = some (t, v) → (x n).2.claimed[t]? = v 0) ∧
    (x n).2.handed.map Prod.snd <+: (x n).2.claimed ∧
    (∀ k ≤ n, ∀ t u, (x k).1.Returned t → ¬ (x k).1.Called u → u ∈ (x n).2.handed.map Prod.snd →
      [t, u].Sublist ((x n).2.handed.map Prod.snd)) ∧
    (x n).2.running.encard ≤ cfg.THREAD_COUNT ∧
    (cfg.THREAD_COUNT = 1 → (x n).2.started <+: (x n).2.claimed ∧
      (x n).2.running.Subsingleton) := by
  have hreach := hrun.reachable n le_rfl
  have hact := activated_isPrefix hreach.log_of_restrict
  have hcard := (Tasks.reachable hreach (hidle n le_rfl)).running_encard_le
  have hhanded : (x n).2.handed.map Prod.snd <+: (x n).2.claimed :=
    (List.prefix_append _ _).trans hact
  refine ⟨claimed_tickets hreach, hhanded, fun k hk t u ht hu hmem => ?_, hcard, fun hT => ⟨?_, ?_⟩⟩
  · have hreach' := hrun.reachable k hk
    have hu' : u ∉ (x k).2.claimed := fun hold =>
      hu ((Tasks.reachable hreach' (hidle k hk)).fresh u.1 u.2 hold).1
    exact pair_sublist_of_isPrefix (claimed_mono hrun hk le_rfl) hhanded
      (mem_claimed_of_returned hreach' ht) hu' hmem
  · have hserial := Serial.reachable hreach hT (hidle n le_rfl)
    unfold Serial at hserial
    exact (hserial ▸ List.prefix_append _ _ : (x n).2.started <+: _).trans hact
  · rw [hT] at hcard
    exact Set.encard_le_one_iff_subsingleton.1 hcard

end Pool

/-- The first task is run, and then thread `1` assigns another one, which is handed over too. -/
def twoTasks : List (Thread ℕ × Micro ℕ) :=
  oneTask 0 ++ goesOn (.worker 0) 7 ++ assigns 1 ++ dequeues ++ activates

/-- Thread `0` has returned from `assignTask` before thread `1` has called it, and at the end
both tasks have been handed over. -/
def oneByOne (k : ℕ) (z : State ℕ × Log ℕ) : Bool :=
  (z.1.destructor matches .idle) &&
    (k != (oneTask 0 : List (Thread ℕ × Micro ℕ)).length ||
      z.1.calls 0 == 1 && z.1.producer 0 == .idle && z.1.calls 1 == 0) &&
    (k != twoTasks.length || z.2.handed == [(0, (0, 0)), (0, (1, 0))])

theorem twoTasks_oneByOne : ∀ k ≤ twoTasks.length, ((twoTasks.take k).foldlM loggedStep
    (fresh (fun _ _ => none) fun _ _ => none, Log.empty)).map (oneByOne k) = some true := by
  decide +kernel

theorem dispatches_in_submission_order_twoTasks : ∃ z : State ℕ × Log ℕ,
    z.2.handed = [(0, (0, 0)), (0, (1, 0))] ∧ z.2.handed.map Prod.snd <+: z.2.claimed ∧
    [(0, 0), (1, 0)].Sublist (z.2.handed.map Prod.snd) ∧ z.2.running.encard ≤ 1 ∧
    z.2.started <+: z.2.claimed ∧ z.2.running.Subsingleton := by
  have hinit : (logged ℕ single).init (fresh (fun _ _ => none) fun _ _ => none, Log.empty) :=
    ⟨⟨_, _, rfl⟩, rfl⟩
  obtain ⟨x, hx, hp⟩ := System.exists_run_of_checks hinit (.dispatcher, .go) twoTasks_oneByOne
    (loggedStep_sound (by decide))
  simp only [oneByOne, Bool.and_eq_true] at hp
  have hhanded : (x twoTasks.length).2.handed = [(0, (0, 0)), (0, (1, 0))] := by
    simpa using (hp _ le_rfl).2
  have hle : (oneTask 0 : List (Thread ℕ × Micro ℕ)).length ≤ twoTasks.length := by decide
  have hmid := (hp _ hle).1.2
  simp only [bne_self_eq_false, Bool.false_or, Bool.and_eq_true, beq_iff_eq] at hmid
  obtain ⟨-, hprefix, horder, hcard, hserial⟩ := dispatches_in_submission_order hx fun k hk => by
    have hidle := (hp k hk).1.1
    cases hd : (x k).1.destructor <;> simp [hd] at hidle ⊢
  refine ⟨_, hhanded, hprefix, ?_, hcard, hserial rfl⟩
  refine horder _ hle (0, 0) (1, 0) ?_ ?_ (by simp [hhanded])
  · exact ⟨by simp [State.Called, hmid.1.1], Or.inl hmid.1.2⟩
  · simp [State.Called, hmid.2]

end AstraLib.ThreadPool
