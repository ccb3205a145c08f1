import AstraLib.Ring.IsEmpty
import AstraLib.ThreadPool.Step

/-!
# `ThreadPool`: no lost wake-up

The dispatcher clears `taskFlag` after the queue looked empty, and looks once more before it goes
back to sleep.  `Wakeful` says why that is enough.  As long as the flag is `0`, the queue has been
seen empty at a moment after the flag was cleared (`emptyAt` is the value that `writeTicket` had
then), and any ticket claimed since belongs to a thread that has yet to set the flag.  As long as
the dispatcher sleeps and the flag is `1`, the thread that set it has yet to do its `FUTEX_WAKE`.

`Counters` keeps track of the two tickets.  The dispatcher is the only consumer and
asks `isEmpty` before each `dequeue` (`dispatcher_polite`), so it never claims a read
ticket without a matching write ticket.
-/

namespace AstraLib.ThreadPool

open Interleaving

variable {Tid : Type}

/-! ### The tickets -/

/-- What a consumer at `p` knows of the tickets, if it is the only one. -/
def Knows (r w : ℕ) : Ring.Pc ℕ ℕ (Fn Tid) 1 → Prop
  | .isEmptyWrite w' => r ≤ w' ∧ w' ≤ w
  | .isEmptyRead r' => r' = r
  | .isEmptyReturn b => b = false → r < w
  | .deqClaim _ => r < w
  | .deqSpin _ t | .deqCopy _ t _ => t < w
  | _ => True

/-- The tickets and the dispatcher. -/
structure Counters (s : State Tid) : Prop where
  le : s.queue.mem.readTicket ≤ s.queue.mem.writeTicket
  knows : Knows s.queue.mem.readTicket s.queue.mem.writeTicket (s.queue.pc .dispatcher)
  /-- before the call of `dequeue` -/
  ready : s.dispatcher = .dequeue → s.queue.pc .dispatcher = .idle →
    s.queue.mem.readTicket < s.queue.mem.writeTicket

section Polite

variable [DecidableEq Tid] {cfg : Config} {s s' : State Tid}

/-- The dispatcher follows the discipline of `AstraLib.Ring.IsEmpty`, with an answer `false` at hand
when it is about to call `dequeue`. -/
def PoliteAt (s : State Tid) (l : Ring.Watch) : Prop :=
  (Ring.politeSystem taskQueueConfig .dispatcher).Reachable (s.queue, l) ∧
    (s.dispatcher = .dequeue → s.queue.pc .dispatcher = .idle → l.armed = true)

namespace PoliteAt

variable {l : Ring.Watch}

theorem frame (h : PoliteAt s l) (hq : s'.queue = s.queue)
    (hd : s'.dispatcher = .dequeue → s.dispatcher = .dequeue) : PoliteAt s' l := by
  refine ⟨hq ▸ h.1, fun hd' hidle => ?_⟩
  rw [hq] at hidle
  exact h.2 (hd hd') hidle

/-- A producer calls nothing but `enqueue`. -/
theorem produce (h : PoliteAt s l) {p : Tid} {b : Ring.Micro (Fn Tid) 1}
    (hq : queueStep s (.producer p) b = some s'.queue) (hcall : ∀ c, b = .call c → c.op = .enqueue)
    (hd : s'.dispatcher = s.dispatcher) : PoliteAt s' l := by
  have hpc : s'.queue.pc .dispatcher = s.queue.pc .dispatcher := queueStep_pc_of_ne hq (by simp)
  refine ⟨.step h.1 (a := (.producer p, b)) ⟨fun c hc => ?_, hq, ?_⟩, fun hd' hidle => ?_⟩
  · rw [hcall c hc]
    simp
  · simp [Ring.watchNote]
  · rw [hpc] at hidle
    exact h.2 (hd ▸ hd') hidle

/-- A step of the dispatcher in the queue. -/
theorem dispatch (h : PoliteAt s l) {b : Ring.Micro (Fn Tid) 1}
    (hq : queueStep s .dispatcher b = some s'.queue)
    (hcall : ∀ c, b = .call c → c.op = .isEmpty ∨ c.op = .dequeue ∧ s.dispatcher = .dequeue)
    (hready : s'.dispatcher = .dequeue → s'.queue.pc .dispatcher = .idle →
      (l.note (s.queue.pc .dispatcher) b s.queue.mem.writeTicket).armed = true) :
    PoliteAt s' (l.note (s.queue.pc .dispatcher) b s.queue.mem.writeTicket) := by
  refine ⟨.step h.1 (a := (.dispatcher, b)) ⟨fun c hc => ?_, hq, ?_⟩, hready⟩
  · rcases hcall c hc with hop | ⟨hop, hd⟩
    · rw [hop]
      simp
    · rw [hop]
      refine ⟨by simp, fun _ => ⟨rfl, h.2 hd ?_⟩⟩
      obtain ⟨m, pc, hx, -⟩ := queueStep_eq_some.1 hq
      rw [show b = .call c from hc] at hx
      exact hx.call_inv.1
  · simp [Ring.watchNote]

theorem step (h : PoliteAt s l) {a : Thread Tid × Micro Tid} (hs : Step cfg s a s') :
    ∃ l', PoliteAt s' l' := by
  cases hs with
  | worker hi hw => exact ⟨l, h.frame rfl id⟩
  | destructor hs =>
    cases hs with
    | wake hp => exact ⟨l, h.frame rfl fun hd => Dispatcher.eq_of_woken_eq hd (by simp)⟩
    | _ => exact ⟨l, h.frame rfl id⟩
  | producer hs =>
    cases hs with
    | assignTask empty q hp hq => exact ⟨l, h.produce hq (by rintro c ⟨⟩; rfl) rfl⟩
    | inside b q hp hcall hret hq => exact ⟨l, h.produce hq (fun c hc => absurd hc (hcall c)) rfl⟩
    | ret q hp hq => exact ⟨l, h.produce hq (by simp) rfl⟩
    | store hp => exact ⟨l, h.frame rfl id⟩
    | wake hp => exact ⟨l, h.frame rfl fun hd => Dispatcher.eq_of_woken_eq hd (by simp)⟩
  | dispatcher hs =>
    cases hs with
    | inside op b q hp hcall hret hq =>
      refine ⟨_, h.dispatch hq (fun c hc => ?_) fun _ hidle => ?_⟩
      · rw [hcall c hc]
        exact (Dispatcher.op_eq_some hp).imp_left And.left
      · obtain ⟨m, pc, hx, rfl⟩ := queueStep_eq_some.1 hq
        rw [Ring.put_pc_self] at hidle
        exact absurd hidle (hx.ne_idle_of_ne_ret hret)
    | answer k b q hp hb hq =>
      refine ⟨_, h.dispatch hq (by simp) fun hd _ => ?_⟩
      rw [hb]
      cases k <;> cases b <;> simp_all [Check.next, Ring.Watch.note]
    | take t v q hp hv hq => exact ⟨_, h.dispatch hq (by simp) (by simp)⟩
    | _ => exact ⟨l, h.frame rfl (by simp)⟩

end PoliteAt

/-- **The dispatcher asks before it dequeues.** -/
theorem dispatcher_polite (h : (system cfg).Reachable s) : ∃ l, PoliteAt s l := by
  induction h with
  | init hi =>
    obtain ⟨data, array, rfl⟩ := hi
    exact ⟨_, .init ⟨⟨data, array, rfl⟩, rfl⟩, by simp [fresh]⟩
  | step _ hstep ih =>
    obtain ⟨l, hl⟩ := ih
    exact hl.step (step_cases hstep)

theorem Counters.reachable (h : (system cfg).Reachable s) : Counters s := by
  obtain ⟨l, hl, hready⟩ := dispatcher_polite h
  obtain ⟨hw, -⟩ := Ring.watched hl
  refine ⟨hw.le, ?_, fun hd hidle => hw.armed (hready hd hidle)⟩
  have haware := hw.aware
  have htaken := hw.taken
  -- a ticket that the dispatcher holds is one of those below `readTicket`
  have hheld : ∀ t ∈ (s.queue.pc .dispatcher).held, t < s.queue.mem.writeTicket := by
    intro t ht
    have hmem : t ∈ List.range s.queue.mem.readTicket := htaken ▸ List.mem_append_right _ ht
    exact (List.mem_range.1 hmem).trans_le hw.le
  generalize s.queue.pc .dispatcher = p at haware hheld
  cases p with
  | isEmptyWrite w => exact ⟨haware.1, haware.2.1⟩
  | isEmptyRead r => exact haware
  | isEmptyReturn b =>
    rintro rfl
    exact haware
  | deqClaim d => exact haware
  | deqSpin d t => exact hheld t (by simp [Ring.Pc.held])
  | deqCopy d t buf => exact hheld t (by simp [Ring.Pc.held])
  | _ => trivial

end Polite

/-! ### The flag -/

/-- The dispatcher works through the queue. -/
def Dispatcher.drains : Dispatcher → Bool
  | .drainTest | .isEmpty .drain | .isEmpty .reset | .dequeue | .scan .. | .write | .store | .wake
  | .reset => true
  | _ => false

/-- The value of `writeTicket` when the queue was last seen empty, with the flag cleared before. -/
def State.emptyAt (s : State Tid) : Option ℕ :=
  match s.dispatcher, s.queue.pc .dispatcher with
  | .isEmpty .recheck, .isEmptyWrite w => some w
  | .isEmpty .recheck, .isEmptyReturn true => some s.queue.mem.readTicket
  | .isEmpty .recheck, _ => none
  | .signalStore, _ => none
  | _, _ => some s.queue.mem.readTicket

/-- The thread is inside `assignTask`, between the claim of its ticket and the store to the flag. -/
def State.Unsignalled (s : State Tid) (p : Tid) : Prop :=
  (s.queue.pc (.producer p)).claimed = true ∨ s.producer p = .store

/-- The thread is inside `assignTask`, between the claim of its ticket and the end of
its `FUTEX_WAKE`. -/
def State.Assigning (s : State Tid) (p : Tid) : Prop :=
  s.Unsignalled p ∨ s.producer p = .wake

/-- Why the dispatcher may sleep. -/
structure Wakeful (s : State Tid) : Prop where
  drains : s.dispatcher.drains = true → s.taskFlag = 1
  emptyAt : ∀ n, s.emptyAt = some n → s.taskFlag = 0 → n < s.queue.mem.writeTicket →
    ∃ p, s.Unsignalled p
  asleep : s.dispatcher = .waiter .asleep → s.taskFlag ≠ 0 →
    (∃ p, s.producer p = .wake) ∨ s.destructor = .wake

namespace Wakeful

variable {s s' : State Tid}

/-- The flag is up and the dispatcher is not asleep. -/
theorem of_flag (hf : s.taskFlag = 1) (hd : s.dispatcher ≠ .waiter .asleep) : Wakeful s :=
  ⟨fun _ => hf, fun _ _ hz => absurd (hf.symm.trans hz) one_ne_zero, fun h => absurd h hd⟩

/-- Steps that leave the flag alone. -/
theorem frame (h : Wakeful s) (hf : s'.taskFlag = s.taskFlag)
    (hw : s'.queue.mem.writeTicket = s.queue.mem.writeTicket ∨ ∃ p, s'.Unsignalled p)
    (hdr : s'.dispatcher.drains = true → s.dispatcher.drains = true)
    (he : ∀ n, s'.emptyAt = some n → s.emptyAt = some n)
    (hu : ∀ p, s.Unsignalled p → s'.Unsignalled p)
    (ha : s'.dispatcher = .waiter .asleep → s.dispatcher = .waiter .asleep)
    (hp : ∀ p, s.producer p = .wake → s'.producer p = .wake)
    (hd : s.destructor = .wake → s'.destructor = .wake) : Wakeful s' := by
  constructor
  · intro hd'
    rw [hf]
    exact h.drains (hdr hd')
  · intro n hn hz hlt
    rcases hw with hw | hclaimed
    · rw [hf] at hz
      rw [hw] at hlt
      obtain ⟨p, hp⟩ := h.emptyAt n (he n hn) hz hlt
      exact ⟨p, hu p hp⟩
    · exact hclaimed
  · intro has hz
    rw [hf] at hz
    rcases h.asleep (ha has) hz with ⟨p, hp'⟩ | hd'
    · exact Or.inl ⟨p, hp p hp'⟩
    · exact Or.inr (hd hd')

/-- A wake-up of the dispatcher. -/
theorem woken (h : Wakeful s) (hq : s'.queue = s.queue) (hf : s'.taskFlag = s.taskFlag)
    (hd : s'.dispatcher = s.dispatcher.woken) (hu : ∀ p, s.Unsignalled p → s'.Unsignalled p) :
    Wakeful s' := by
  constructor
  · intro hd'
    rw [hf]
    refine h.drains ?_
    rw [hd] at hd'
    cases hs : s.dispatcher <;> simp_all [Dispatcher.woken, Dispatcher.drains]
  · intro n hn hz hlt
    rw [hf] at hz
    rw [hq] at hlt
    have hn' : s.emptyAt = some n := by
      rw [← hn]
      unfold State.emptyAt
      rw [hd, hq]
      cases s.dispatcher <;> rfl
    obtain ⟨p, hp⟩ := h.emptyAt n hn' hz hlt
    exact ⟨p, hu p hp⟩
  · intro has
    rw [hd] at has
    exact absurd has s.dispatcher.woken_ne_asleep

variable [DecidableEq Tid] {cfg : Config} {p : Tid} {a : Micro Tid}

/-- A thread stays unsignalled until its store to the flag. -/
theorem unsignalled_of_step (ha : Agree s) (hs : ProducerStep s p a s') (hp : s.producer p ≠ .store)
    (p' : Tid) (hu : s.Unsignalled p') : s'.Unsignalled p' := by
  by_cases hpp : p' = p
  · subst hpp
    have hclaimed : (s.queue.pc (.producer p')).claimed = true := hu.resolve_right hp
    have hen : s.producer p' = .enqueue := by
      by_contra hne
      rw [ha.idle_of_ne_enqueue hne] at hclaimed
      cases hclaimed
    cases hs with
    | inside b q _ hcall hret hq =>
      obtain ⟨m, pc, hx, rfl⟩ := queueStep_eq_some.1 hq
      refine Or.inl ?_
      rw [Ring.put_pc_self]
      exact hx.claimed hret hclaimed
    | ret q _ hq => exact Or.inr (Function.update_self _ _ _)
    | assignTask empty q hp' => rw [hen] at hp'; cases hp'
    | store hp' => rw [hen] at hp'; cases hp'
    | wake hp' => rw [hen] at hp'; cases hp'
  · obtain ⟨hpc, hpr⟩ := hs.others.2 p' hpp
    unfold State.Unsignalled
    rw [hpc, hpr]
    exact hu

theorem produce (h : Wakeful s) (ha : Agree s) (hs : ProducerStep s p a s') : Wakeful s' := by
  have hu := unsignalled_of_step ha hs
  have hw : s'.queue.mem.writeTicket = s.queue.mem.writeTicket ∨ ∃ p, s'.Unsignalled p := by
    rcases (hs.tickets ha).2 with hw | ⟨-, hc⟩
    · exact Or.inl hw
    · exact Or.inr ⟨p, Or.inl hc⟩
  have he : s'.dispatcher = s.dispatcher → ∀ n, s'.emptyAt = some n → s.emptyAt = some n := by
    intro hd n hn
    unfold State.emptyAt at hn ⊢
    rwa [hd, hs.others.1, (hs.tickets ha).1] at hn
  have hwake : s.producer p ≠ .wake → ∀ p', s.producer p' = .wake → s'.producer p' = .wake := by
    intro hne p' hp'
    rw [(hs.others.2 p' (by rintro rfl; exact hne hp')).2]
    exact hp'
  cases hs with
  | store hp =>
    exact ⟨fun _ => rfl, fun _ _ hz => absurd hz one_ne_zero,
      fun _ _ => Or.inl ⟨p, Function.update_self _ _ _⟩⟩
  | wake hp => exact h.woken rfl rfl rfl (hu (by rw [hp]; simp))
  | assignTask empty q hp hq =>
    exact h.frame rfl hw id (he rfl) (hu (by rw [hp]; simp)) id (hwake (by rw [hp]; simp)) id
  | inside b q hp hcall hret hq =>
    exact h.frame rfl hw id (he rfl) (hu (by rw [hp]; simp)) id (hwake (by rw [hp]; simp)) id
  | ret q hp hq =>
    exact h.frame rfl hw id (he rfl) (hu (by rw [hp]; simp)) id (hwake (by rw [hp]; simp)) id

omit [DecidableEq Tid] in
/-- The dispatcher goes on, without having looked at the flag or the queue. -/
theorem goto (h : Wakeful s) {d : Dispatcher} (hdr : d.drains = false) (has : d ≠ .waiter .asleep)
    (he : ∀ n, ({ s with dispatcher := d } : State Tid).emptyAt = some n → s.emptyAt = some n) :
    Wakeful { s with dispatcher := d } :=
  h.frame rfl (Or.inl rfl) (fun hd => by rw [hdr] at hd; cases hd) he (fun _ => id)
    (fun h' => absurd h' has) (fun _ => id) id

/-- The dispatcher is in a member function of the queue. Only the second check matters here. -/
theorem inside (h : Wakeful s) (hc : Counters s) {b : Ring.Micro (Fn Tid) 1} {op : Ring.Op}
    {m : Ring.Mem ℕ (Fn Tid) 1} {pc : Ring.Pc ℕ ℕ (Fn Tid) 1} (hop : s.dispatcher.op = some op)
    (hx : Ring.Exec (Ring.unbounded taskQueueConfig) taskQueueConfig s.queue.mem
      (s.queue.pc .dispatcher) b m pc) :
    Wakeful { s with queue := s.queue.put .dispatcher m pc } := by
  by_cases hdr : s.dispatcher.drains = true
  · refine of_flag (h.drains hdr) fun hd => ?_
    rw [hd] at hdr
    cases hdr
  have hk : s.dispatcher = .isEmpty .recheck := by
    cases hd : s.dispatcher with
    | isEmpty k => cases k <;> simp_all [Dispatcher.drains]
    | _ => simp_all [Dispatcher.op, Dispatcher.drains]
  have hknows := hc.knows
  have hempty := h.emptyAt
  refine ⟨fun hd => absurd hd hdr, fun n hn hz hlt => ?_, fun hd => ?_⟩
  · simp only [State.emptyAt, hk, Ring.put_pc_self, Ring.put_mem] at hn hempty hlt
    have hpc : ∀ p, (s.queue.put .dispatcher m pc).pc (.producer p) = s.queue.pc (.producer p) :=
      fun p => Ring.put_pc_of_ne (by simp) _ _ _
    simp only [State.Unsignalled, hpc]
    generalize s.queue.pc .dispatcher = pc₀ at hx hknows hempty
    cases hx with
    | firstWrite =>
      cases hn
      exact absurd hlt (lt_irrefl _)
    | thenRead w b hb =>
      cases b with
      | true =>
        have hw : w = s.queue.mem.readTicket := hb.1 rfl
        cases hn
        exact hempty w rfl hz (hw ▸ hlt)
      | false => cases hn
    | thenWrite r b hb =>
      cases b with
      | true =>
        have hr : r = s.queue.mem.readTicket := hknows
        have hw : s.queue.mem.writeTicket = r := hb.1 rfl
        cases hn
        omega
      | false => cases hn
    | call c => cases c <;> cases hn
    | enqPass k v t _ => unfold Ring.Pc.enqPast at hn; split_ifs at hn
    | deqPublish d t buf v _ => cases d <;> cases hn
    | _ => cases hn
  · rw [hk] at hd
    cases hd

theorem dispatch (h : Wakeful s) (ha : Agree s) (hc : Counters s) (hs : DispatcherStep cfg s s') :
    Wakeful s' := by
  have hflag : s.dispatcher.drains = true → s'.taskFlag = s.taskFlag →
      s'.dispatcher ≠ .waiter .asleep → Wakeful s' :=
    fun hdr hf => of_flag (hf.trans (h.drains hdr))
  cases hs with
  | enter hp hr => exact h.goto rfl (by simp) (by simp [State.emptyAt, hp])
  | exit hp hr => exact h.goto rfl (by simp) (by simp [State.emptyAt, hp])
  | wait g g' hp hw =>
    cases hw with
    | sleep hz =>
      refine ⟨by simp [Dispatcher.drains], fun n hn => h.emptyAt n ?_, fun _ hne => absurd hz hne⟩
      rw [← hn]
      simp [State.emptyAt, hp]
    | _ => exact h.goto rfl (by simp) (by simp [State.emptyAt, hp])
  | pass hp hf => exact of_flag hf (by simp)
  | inside op b q hp hcall hret hq =>
    obtain ⟨m, pc, hx, rfl⟩ := queueStep_eq_some.1 hq
    exact h.inside hc hp hx
  | answer k b q hp hb hq =>
    obtain ⟨m, pc, hx, rfl⟩ := queueStep_eq_some.1 hq
    obtain ⟨rfl, rfl⟩ := hx.ret_inv
    cases k with
    | drain => exact hflag (by rw [hp]; rfl) rfl (by cases b <;> simp [Check.next])
    | reset => exact hflag (by rw [hp]; rfl) rfl (by cases b <;> simp [Check.next])
    | recheck =>
      refine h.frame rfl (Or.inl rfl) (by cases b <;> simp [Check.next, Dispatcher.drains]) ?_ ?_
        (by cases b <;> simp [Check.next]) (fun _ => id) id
      · cases b <;> simp [State.emptyAt, Check.next, hp, hb]
      · simp [State.Unsignalled, Ring.put_pc_of_ne]
  | reset hp =>
    refine ⟨by simp [Dispatcher.drains], fun n hn => ?_, by simp⟩
    simp [State.emptyAt, ha.idle_of_op_eq_none (by rw [hp]; rfl)] at hn
  | signalStore hp => exact of_flag rfl (by simp)
  | signalWake hp => exact h.goto rfl (by simp) (by simp [State.emptyAt, hp])
  | drain hp hr => exact hflag (by rw [hp]; rfl) rfl (by simp)
  | stop hp hr => exact hflag (by rw [hp]; rfl) rfl (by simp)
  | take t v q hp hv hq => exact hflag (by rw [hp]; rfl) rfl (by simp)
  | claim first start hp hf => exact hflag (by rw [hp]; rfl) rfl (by simp)
  | next first first' start hp hf => exact hflag (by rw [hp]; rfl) rfl (by simp)
  | write left hp => exact hflag (by rw [hp]; rfl) rfl (by simp)
  | store hp => exact hflag (by rw [hp]; rfl) rfl (by simp)
  | wake hp => exact hflag (by rw [hp]; rfl) rfl (by simp)

theorem step (h : Wakeful s) (ha : Agree s) (hc : Counters s) {a : Thread Tid × Micro Tid}
    (hs : Step cfg s a s') : Wakeful s' := by
  cases hs with
  | worker hi hw =>
    exact h.frame rfl (Or.inl rfl) id (fun _ => id) (fun _ => id) id (fun _ => id) id
  | producer hs => exact h.produce ha hs
  | dispatcher hs => exact h.dispatch ha hc hs
  | destructor hs =>
    cases hs with
    | store hp => exact ⟨fun _ => rfl, fun _ _ hz => absurd hz one_ne_zero, fun _ _ => Or.inr rfl⟩
    | wake hp => exact h.woken rfl rfl rfl fun _ => id
    | destroy hp =>
      exact h.frame rfl (Or.inl rfl) id (fun _ => id) (fun _ => id) id (fun _ => id)
        (by rw [hp]; simp)
    | setRunning hp =>
      exact h.frame rfl (Or.inl rfl) id (fun _ => id) (fun _ => id) id (fun _ => id)
        (by rw [hp]; simp)
    | join hp hd =>
      exact h.frame rfl (Or.inl rfl) id (fun _ => id) (fun _ => id) id (fun _ => id)
        (by rw [hp]; simp)
    | _ i hp =>
      exact h.frame rfl (Or.inl rfl) id (fun _ => id) (fun _ => id) id (fun _ => id)
        (by rw [hp]; simp)

end Wakeful

/-! ### Every reachable state -/

section Reachable

variable [DecidableEq Tid] {cfg : Config} {s : State Tid}

theorem Wakeful.reachable (h : (system cfg).Reachable s) : Wakeful s := by
  have hI : (system cfg).IsInvariant (Wakeful : State Tid → Prop) := by
    constructor
    · rintro s ⟨data, array, rfl⟩
      refine ⟨by simp [fresh, Dispatcher.drains], fun n hn _ hlt => ?_, by simp [fresh]⟩
      cases hn
      exact absurd hlt (lt_irrefl _)
    · intro s a s' hs ih hstep
      exact ih.step (Agree.reachable hs) (Counters.reachable hs) (step_cases hstep)
  exact hI.reachable h

/-- **The dispatcher never misses a wake-up.** If it is asleep before the shutdown while a claimed
ticket has not been taken, then some thread is still inside `assignTask`, between the claim of its
ticket and the end of its `FUTEX_WAKE`. -/
theorem no_missed_wakeup (h : (system cfg).Reachable s) (halive : s.destructor = .idle)
    (hasleep : s.dispatcher = .waiter .asleep)
    (hticket : s.queue.mem.readTicket < s.queue.mem.writeTicket) : ∃ p, s.Assigning p := by
  have hw := Wakeful.reachable h
  by_cases hz : s.taskFlag = 0
  · have he : s.emptyAt = some s.queue.mem.readTicket := by simp [State.emptyAt, hasleep]
    obtain ⟨p, hp⟩ := hw.emptyAt _ he hz hticket
    exact ⟨p, Or.inl hp⟩
  · rcases hw.asleep hasleep hz with ⟨p, hp⟩ | hd
    · exact ⟨p, Or.inr hp⟩
    · rw [halive] at hd
      cases hd

end Reachable

/-- The dispatcher goes to sleep, and then a thread claims a ticket. -/
def claimWhileAsleep : List (Thread ℕ × Micro ℕ) :=
  [(.dispatcher, .go), (.producer 0, .assignTask false), (.dispatcher, .go), (.dispatcher, .go),
   (.producer 0, .queue .claim)]

/-- The dispatcher is asleep before the shutdown, and a claimed ticket has not been taken. -/
def sleepsOnTicket (s : State ℕ) : Bool :=
  (s.destructor matches .idle) && (s.dispatcher matches .waiter .asleep) &&
    decide (s.queue.mem.readTicket < s.queue.mem.writeTicket)

theorem claimWhileAsleep_sleepsOnTicket : (claimWhileAsleep.foldlM (step single)
    (fresh (fun _ _ => none) fun _ _ => none)).map sleepsOnTicket = some true := by
  decide +kernel

theorem no_missed_wakeup_claimWhileAsleep : ∃ s : State ℕ, s.dispatcher = .waiter .asleep ∧
    s.queue.mem.readTicket < s.queue.mem.writeTicket ∧ ∃ p, s.Assigning p := by
  have hinit : (system single).init (fresh (fun _ _ => none) fun _ _ => none : State ℕ) :=
    ⟨_, _, rfl⟩
  obtain ⟨s, hs, hp⟩ := System.exists_reachable_of_schedule hinit claimWhileAsleep_sleepsOnTicket
    fun _ _ _ _ hst => hst
  simp only [sleepsOnTicket, Bool.and_eq_true, decide_eq_true_eq] at hp
  obtain ⟨⟨hd, ha⟩, ht⟩ := hp
  have halive : s.destructor = .idle := by
    cases hc : s.destructor <;> simp [hc] at hd ⊢
  have hasleep : s.dispatcher = .waiter .asleep := by
    cases hc : s.dispatcher with
    | waiter g => cases g <;> simp [hc] at ha ⊢
    | _ => simp [hc] at ha
  exact ⟨s, hasleep, ht, no_missed_wakeup hs halive hasleep ht⟩

end AstraLib.ThreadPool
