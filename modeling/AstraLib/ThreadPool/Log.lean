import AstraLib.ThreadPool.Step

/-!
# `ThreadPool`: tasks and their log

The log records the tasks that have claimed a ticket, that were handed over, started and finished.

A task has the name of its call, and a call claims one ticket, so no task is in the
log of the tickets twice (`Named`).

An empty function is a legal argument of `assignTask`.  `NonEmpty` is the discipline not to pass
one, and `Filled` says that then no empty function is on its way, from `assignTask` through the
queue to the local variable of the dispatcher, and that the functions have the names of their calls.
-/

namespace AstraLib.ThreadPool

open Interleaving

variable {Tid : Type}

/-! ### The log -/

/-- Tasks in the order of the events. -/
structure Log (Tid : Type) where
  /-- the enqueue has claimed a ticket -/
  claimed : List (Task Tid)
  /-- the argument of the last `activateWorker` -/
  activating : Fn Tid
  /-- `activateWorker` has returned -/
  handed : List (ℕ × Task Tid)
  /-- the call of the function has begun -/
  started : List (Task Tid)
  /-- the call of the function has ended -/
  finished : List (Task Tid)

/-- Nothing has happened yet. -/
def Log.empty : Log Tid := ⟨[], none, [], [], []⟩

/-- The log after a step. -/
def Log.note (s : State Tid) (a : Thread Tid × Micro Tid) (l : Log Tid) : Log Tid :=
  match a with
  | (.producer p, .queue .claim) =>
      { l with claimed := l.claimed ++ ((s.queue.pc (.producer p)).claiming.bind (· 0)).toList }
  | (.dispatcher, _) =>
      match s.dispatcher with
      | .write => { l with activating := s.task }
      | .wake => { l with handed := l.handed ++ (l.activating.map (s.lastIdDispatched, ·)).toList }
      | _ => l
  | (.worker i, _) =>
      match (s.workers i).pc with
      | .call => { l with started := l.started ++ (s.workers i).task.toList }
      | .executing t => { l with finished := l.finished ++ [t] }
      | _ => l
  | _ => l

/-- A worker starts and finishes tasks. -/
theorem Log.note_worker (l : Log Tid) (s : State Tid) (i : ℕ) (a : Micro Tid) :
    (l.note s (.worker i, a)).claimed = l.claimed ∧
    (l.note s (.worker i, a)).activating = l.activating ∧
    (l.note s (.worker i, a)).handed = l.handed := by
  cases hpc : (s.workers i).pc <;> simp [Log.note, hpc]

/-- What the dispatcher does in the queue is not logged. -/
theorem Log.note_of_op (l : Log Tid) {s : State Tid} {op : Ring.Op} (h : s.dispatcher.op = some op)
    (a : Micro Tid) : l.note s (.dispatcher, a) = l := by
  rcases Dispatcher.op_eq_some h with ⟨-, k, hd⟩ | ⟨-, hd⟩
  · simp only [Log.note, hd]
  · simp only [Log.note, hd]

/-- The tickets are claimed one after the other. -/
theorem Log.note_claimed (s : State Tid) (a : Thread Tid × Micro Tid) (l : Log Tid) :
    l.claimed <+: (l.note s a).claimed := by
  obtain ⟨θ, a⟩ := a
  cases θ with
  | producer p =>
    cases a with
    | queue b =>
      cases b with
      | claim => exact List.prefix_append _ _
      | _ => exact List.prefix_rfl
    | _ => exact List.prefix_rfl
  | dispatcher => cases hd : s.dispatcher <;> simp [Log.note, hd]
  | worker i => rw [(l.note_worker s i a).1]
  | destructor => exact List.prefix_rfl

/-- The log of the tickets after a step of `enqueue`. -/
theorem Log.note_queue [DecidableEq Tid] (l : Log Tid) {s : State Tid} {p : Tid}
    {b : Ring.Micro (Fn Tid) 1} {q : Queue Tid} (hq : queueStep s (.producer p) b = some q)
    (hcall : ∀ c, b ≠ .call c) :
    (l.note s (.producer p, .queue b)).claimed =
      l.claimed ++ ((s.queue.pc (.producer p)).claiming.bind (· 0)).toList := by
  obtain ⟨m, pc, hx, -⟩ := queueStep_eq_some.1 hq
  by_cases hb : b = .claim
  · subst hb
    rfl
  · rw [(hx.claiming_eq_none hcall).2 fun _ _ _ => hb]
    cases b <;> simp [Log.note] at hb ⊢

/-- All runs, and their logs. -/
abbrev history (Tid : Type) [DecidableEq Tid] (cfg : Config) :
    System (State Tid × Log Tid) (Thread Tid × Micro Tid) :=
  (system cfg).withLog Log.empty fun s a l => l.note s a

/-- No thread assigns an empty function. -/
def NonEmpty (_ : State Tid) (a : Thread Tid × Micro Tid) : Prop :=
  ∀ p, a ≠ (.producer p, .assignTask true)

/-- The runs with functions that are not empty, and their logs. -/
abbrev logged (Tid : Type) [DecidableEq Tid] (cfg : Config) :
    System (State Tid × Log Tid) (Thread Tid × Micro Tid) :=
  ((system cfg).restrict NonEmpty).withLog Log.empty fun s a l => l.note s a

/-! ### The names of the tasks -/

/-- A function has the name of its call, and a call claims its ticket once. -/
structure Named (s : State Tid) (l : Log Tid) : Prop where
  claiming : ∀ p v x, (s.queue.pc (.producer p)).claiming = some v → v 0 = some x →
    x.1 = p ∧ x.2 + 1 = s.calls p
  fresh : ∀ p k, (p, k) ∈ l.claimed →
    k < s.calls p ∧ ((s.queue.pc (.producer p)).claiming ≠ none → k + 1 < s.calls p)
  nodup : l.claimed.Nodup

namespace Named

variable {s s' : State Tid} {l l' : Log Tid}

theorem frame (h : Named s l) (hcalls : s'.calls = s.calls)
    (hpc : ∀ p, s'.queue.pc (.producer p) = s.queue.pc (.producer p))
    (hl : l'.claimed = l.claimed) : Named s' l' := by
  refine ⟨fun p v x => ?_, fun p k => ?_, ?_⟩
  · rw [hpc, hcalls]; exact h.claiming p v x
  · rw [hpc, hcalls, hl]; exact h.fresh p k
  · rw [hl]; exact h.nodup

/-- A step of producer `p`. -/
theorem put (h : Named s l) {p : Tid} (hcalls : ∀ p', p' ≠ p → s'.calls p' = s.calls p')
    (hpc : ∀ p', p' ≠ p → s'.queue.pc (.producer p') = s.queue.pc (.producer p'))
    (hself : ∀ v x, (s'.queue.pc (.producer p)).claiming = some v → v 0 = some x →
      x.1 = p ∧ x.2 + 1 = s'.calls p)
    (hl : ∀ p' k, (p', k) ∈ l'.claimed → (p', k) ∈ l.claimed ∨ p' = p)
    (hfresh : ∀ k, (p, k) ∈ l'.claimed →
      k < s'.calls p ∧ ((s'.queue.pc (.producer p)).claiming ≠ none → k + 1 < s'.calls p))
    (hnodup : l'.claimed.Nodup) : Named s' l' := by
  refine ⟨fun p' v x hv hx => ?_, fun p' k hk => ?_, hnodup⟩
  · by_cases hp : p' = p
    · subst hp
      exact hself v x hv hx
    · rw [hcalls p' hp]
      rw [hpc p' hp] at hv
      exact h.claiming p' v x hv hx
  · by_cases hp : p' = p
    · subst hp
      exact hfresh k hk
    · rw [hcalls p' hp, hpc p' hp]
      exact h.fresh p' k ((hl p' k hk).resolve_right hp)

variable [DecidableEq Tid] {cfg : Config}

theorem produce (h : Named s l) {p : Tid} {a : Micro Tid} (hs : ProducerStep s p a s') :
    Named s' (l.note s (.producer p, a)) := by
  have hothers := fun p' hne => (hs.others.2 p' hne).1
  cases hs with
  | assignTask empty q hp hq =>
    obtain ⟨m, pc, hx, rfl⟩ := queueStep_eq_some.1 hq
    obtain ⟨-, -, rfl⟩ := hx.call_inv
    refine h.put (fun p' hne => Function.update_of_ne hne _ _) hothers (fun v x hv hx => ?_)
      (fun _ _ => Or.inl) (fun k hk => ?_) h.nodup
    · simp only [Ring.put_pc_self, Ring.Call.entry, Ring.Pc.claiming, Option.some.injEq] at hv
      subst hv
      cases empty <;> simp at hx
      subst hx
      simp
    · have := (h.fresh p k hk).1
      simp only [Function.update_self]
      omega
  | inside b q hp hcall hret hq =>
    have hnote := l.note_queue hq hcall
    obtain ⟨m, pc, hx, rfl⟩ := queueStep_eq_some.1 hq
    have hnone : pc.claiming = none := (hx.claiming_eq_none hcall).1
    -- the ticket is for the task of this call
    have hnew : ∀ y, ((s.queue.pc (.producer p)).claiming.bind (· 0)) = some y →
        y.1 = p ∧ y.2 + 1 = s.calls p ∧ y ∉ l.claimed := by
      intro y hy
      obtain ⟨v, hv, hvy⟩ := Option.bind_eq_some_iff.1 hy
      obtain ⟨rfl, hcalls⟩ := h.claiming p v y hv hvy
      refine ⟨rfl, hcalls, fun hmem => ?_⟩
      have := (h.fresh y.1 y.2 hmem).2 (by rw [hv]; simp)
      omega
    have hmem : ∀ y ∈ (l.note s (.producer p, .queue b)).claimed,
        y ∈ l.claimed ∨ y.1 = p ∧ y.2 + 1 = s.calls p := by
      intro y hy
      rw [hnote, List.mem_append, Option.mem_toList] at hy
      exact hy.imp id fun hy => ⟨(hnew y hy).1, (hnew y hy).2.1⟩
    refine h.put (fun _ _ => rfl) hothers (by simp [hnone])
      (fun p' k hk => (hmem _ hk).imp id And.left) (fun k hk => ⟨?_, by simp [hnone]⟩) ?_
    · rcases hmem _ hk with hold | ⟨-, hk'⟩
      · exact (h.fresh p k hold).1
      · exact Nat.lt_of_succ_le hk'.le
    · rw [hnote, List.nodup_append]
      refine ⟨h.nodup, by cases ((s.queue.pc (.producer p)).claiming.bind (· 0)) <;> simp, ?_⟩
      rintro y hy z hz rfl
      exact (hnew y (Option.mem_toList.1 hz)).2.2 hy
  | ret q hp hq =>
    obtain ⟨m, pc, hx, rfl⟩ := queueStep_eq_some.1 hq
    refine h.put (fun _ _ => rfl) hothers ?_ (fun _ _ => Or.inl)
      (fun k hk => ⟨(h.fresh p k hk).1, ?_⟩) h.nodup
    all_goals simp [hx.ret_inv.2, Ring.Pc.claiming]
  | store hp => exact h.frame rfl (fun _ => rfl) rfl
  | wake hp => exact h.frame rfl (fun _ => rfl) rfl

theorem step (h : Named s l) {a : Thread Tid × Micro Tid} (hs : Step cfg s a s') :
    Named s' (l.note s a) := by
  cases hs with
  | producer hs => exact h.produce hs
  | @dispatcher a _ hs =>
    have hl : (l.note s (.dispatcher, a)).claimed = l.claimed := by
      cases hd : s.dispatcher <;> simp [Log.note, hd]
    have hqueue : ∀ {b}, queueStep s .dispatcher b = some s'.queue → s'.calls = s.calls →
        Named s' (l.note s (.dispatcher, a)) :=
      fun hq hcalls => h.frame hcalls (fun p => queueStep_pc_of_ne hq (by simp)) hl
    cases hs with
    | inside op b q hp hcall hret hq => exact hqueue hq rfl
    | answer k b q hp hb hq => exact hqueue hq rfl
    | take t v q hp hv hq => exact hqueue hq rfl
    | _ => exact h.frame rfl (fun _ => rfl) hl
  | @worker i a w hi hw => exact h.frame rfl (fun _ => rfl) (l.note_worker s i a).1
  | destructor hs => cases hs <;> exact h.frame rfl (fun _ => rfl) rfl

theorem reachable (h : (history Tid cfg).Reachable (s, l)) : Named s l := by
  have hI : (history Tid cfg).IsInvariant fun z : State Tid × Log Tid => Named z.1 z.2 := by
    constructor
    · rintro ⟨s, l⟩ ⟨⟨data, array, rfl⟩, rfl⟩
      exact ⟨by simp [ThreadPool.fresh, Ring.fresh, Ring.Pc.claiming], by simp [Log.empty],
        List.nodup_nil⟩
    · rintro ⟨s, l⟩ a ⟨s', l'⟩ - ih ⟨hstep, rfl⟩
      exact ih.step (step_cases hstep)
  exact hI.reachable h

end Named

/-! ### Functions on their way to a worker -/

/-- The dispatcher has a function to hand over. -/
def Dispatcher.carries : Dispatcher → Bool
  | .scan .. | .write => true
  | _ => false

theorem Dispatcher.woken_carries (d : Dispatcher) : d.woken.carries = d.carries := by
  cases d <;> rfl

/-- The functions on their way are not empty, and they are named after their calls. -/
structure Filled (s : State Tid) : Prop where
  claiming : ∀ p v, (s.queue.pc (.producer p)).claiming = some v →
    ∃ k, v 0 = some (p, k) ∧ s.calls p = k + 1
  queue : ∀ q, ¬ Ring.At taskQueueConfig s.queue q none
  carried : s.dispatcher.carries = true → s.task ≠ none

namespace Filled

variable {s s' : State Tid}

theorem frame (h : Filled s) (hq : s'.queue = s.queue) (hc : s'.calls = s.calls)
    (hd : s'.dispatcher.carries = true → s.dispatcher.carries = true ∧ s'.task = s.task) :
    Filled s' := by
  constructor
  · rw [hq, hc]; exact h.claiming
  · rw [hq]; exact h.queue
  · intro hd'
    rw [(hd hd').2]
    exact h.carried (hd hd').1

/-- A step of the queue keeps empty functions out of it, if it does not bring one in. -/
theorem queue_of_transit (h : Filled s) (ha : Agree s) {θ : Party Tid} {a : Ring.Micro (Fn Tid) 1}
    {q : Queue Tid} (ht : Ring.Transit taskQueueConfig θ (s.queue.pc θ) a s.queue q)
    (q' : Ring.Place (Party Tid)) : ¬ Ring.At taskQueueConfig q q' none := by
  cases ht with
  | stays hat => rw [hat]; exact h.queue q'
  | enters k v hp _ _ hat =>
    rw [hat]
    rintro (⟨-, hv⟩ | hq')
    · cases θ with
      | producer p =>
        obtain ⟨k, hv', -⟩ := h.claiming p v (by rw [hp]; rfl)
        cases hv.trans hv'
      | dispatcher => rcases ha.dispatcher_op (by rw [hp]; rfl) with hop | hop <;> cases hop
    · exact h.queue q' hq'
  | moves q₁ q₂ x hq hat =>
    rw [hat]
    rintro (⟨-, rfl⟩ | ⟨-, hq'⟩)
    · exact h.queue q₁ hq
    · exact h.queue q' hq'
  | leaves t v _ _ _ hat =>
    rw [hat]
    exact fun hq' => h.queue q' hq'.2

variable [DecidableEq Tid] {cfg : Config}

/-- A step of the dispatcher in the queue. -/
theorem dispatch (h : Filled s) (hr : (system cfg).Reachable s) {b : Ring.Micro (Fn Tid) 1}
    (hq : queueStep s .dispatcher b = some s'.queue) (hc : s'.calls = s.calls)
    (hd : s'.dispatcher.carries = true → s'.task ≠ none) : Filled s' := by
  refine ⟨fun p v hv => ?_, h.queue_of_transit (Agree.reachable hr) (queue_transit hr hq), hd⟩
  rw [queueStep_pc_of_ne hq (by simp)] at hv
  rw [hc]
  exact h.claiming p v hv

theorem step (h : Filled s) (hr : (system cfg).Reachable s) {a : Thread Tid × Micro Tid}
    (hne : NonEmpty s a) (hs : Step cfg s a s') : Filled s' := by
  have ha := Agree.reachable hr
  cases hs with
  | worker hi hw => exact h.frame rfl rfl fun hd => ⟨hd, rfl⟩
  | destructor hs =>
    cases hs with
    | wake hp => exact h.frame rfl rfl fun hd => ⟨(Dispatcher.woken_carries _).symm.trans hd, rfl⟩
    | _ => exact h.frame rfl rfl fun hd => ⟨hd, rfl⟩
  | @producer p _ _ hs =>
    have hclaim : (∀ p', p' ≠ p → s'.calls p' = s.calls p') →
        (∀ v, (s'.queue.pc (.producer p)).claiming = some v →
          ∃ k, v 0 = some (p, k) ∧ s'.calls p = k + 1) →
        ∀ p' v, (s'.queue.pc (.producer p')).claiming = some v →
          ∃ k, v 0 = some (p', k) ∧ s'.calls p' = k + 1 := by
      intro hcalls hself p' v hv
      by_cases hpp : p' = p
      · subst hpp; exact hself v hv
      · rw [(hs.others.2 p' hpp).1] at hv
        rw [hcalls p' hpp]
        exact h.claiming p' v hv
    cases hs with
    | assignTask empty q hp hq =>
      refine ⟨hclaim (fun p' hpp => Function.update_of_ne hpp _ _) fun v hv => ?_, ?_, h.carried⟩
      · obtain ⟨m, pc, hx, rfl⟩ := queueStep_eq_some.1 hq
        obtain ⟨-, -, rfl⟩ := hx.call_inv
        have hempty : empty = false := by
          cases empty with
          | true => exact absurd rfl (hne p)
          | false => rfl
        simp only [Ring.put_pc_self, Ring.Call.entry, Ring.Pc.claiming, Option.some.injEq] at hv
        subst hv
        exact ⟨s.calls p, by simp [hempty], by simp⟩
      · exact h.queue_of_transit ha (queue_transit hr hq)
    | inside b q hp hcall hret hq =>
      refine ⟨hclaim (fun _ _ => rfl) fun v hv => ?_, ?_, h.carried⟩
      · obtain ⟨m, pc, hx, rfl⟩ := queueStep_eq_some.1 hq
        rw [Ring.put_pc_self, (hx.claiming_eq_none hcall).1] at hv
        cases hv
      · exact h.queue_of_transit ha (queue_transit hr hq)
    | ret q hp hq =>
      refine ⟨hclaim (fun _ _ => rfl) fun v hv => ?_, ?_, h.carried⟩
      · obtain ⟨m, pc, hx, rfl⟩ := queueStep_eq_some.1 hq
        rw [Ring.put_pc_self, hx.ret_inv.2] at hv
        cases hv
      · exact h.queue_of_transit ha (queue_transit hr hq)
    | store hp => exact h.frame rfl rfl fun hd => ⟨hd, rfl⟩
    | wake hp => exact h.frame rfl rfl fun hd => ⟨(Dispatcher.woken_carries _).symm.trans hd, rfl⟩
  | dispatcher hs =>
    cases hs with
    | inside op b q hp hcall hret hq => exact h.dispatch hr hq rfl h.carried
    | answer k b q hp hb hq =>
      exact h.dispatch hr hq rfl (by cases k <;> cases b <;> simp [Check.next, Dispatcher.carries])
    | take t v q hp hv hq =>
      refine h.dispatch hr hq rfl fun _ hnone => h.queue (.reading .dispatcher) ?_
      have hnone : v 0 = none := hnone
      simp [Ring.At, Ring.taking, hv, hnone]
    | claim first start hp hf => exact h.frame rfl rfl fun _ => ⟨by rw [hp]; rfl, rfl⟩
    | next first first' start hp hf => exact h.frame rfl rfl fun _ => ⟨by rw [hp]; rfl, rfl⟩
    | _ => exact h.frame rfl rfl (by simp [Dispatcher.carries])

theorem reachable (hr : ((system cfg).restrict NonEmpty).Reachable s) : Filled s := by
  have hI : ((system cfg).restrict NonEmpty).IsInvariant (Filled : State Tid → Prop) := by
    constructor
    · rintro s ⟨data, array, rfl⟩
      exact ⟨by simp [fresh, Ring.fresh, Ring.Pc.claiming], fun q => Ring.not_at_fresh _ _ q none,
        by simp [fresh, Dispatcher.carries]⟩
    · rintro s a s' hs ih ⟨hne, hstep⟩
      exact ih.step hs.of_restrict hne (step_cases hstep)
  exact hI.reachable hr

end Filled

end AstraLib.ThreadPool
