import AstraLib.Interleaving.RaceFreedom
import AstraLib.Spsc.Capacity

/-!
# `spscRingBuffer` under release and acquire

The two threads on weak memory, with the memory orders of the code.  The `ticket` of a slot goes up
and down, so an old message may have the very value that a thread waits for.  What excludes it is
that the thread itself has ended that turn of the slot: the producer stores `1` before it waits for
`0` again, and all messages `0` but the newest are older than its own store.  In the same way all
messages `1` but the newest are older than a store of the consumer.

So a spin test that succeeds has read the newest message, and no access of a payload
or of a cursor is a data race.
-/

namespace AstraLib.Spsc

open Interleaving Interleaving.ReleaseAcquire

inductive Thread
  | producer
  | consumer
  deriving DecidableEq

/-- The words of the payloads, and the cursors. -/
inductive Cell (W : ℕ)
  | data (i : ℕ) (j : Fin W)
  | lastWritten
  | lastRead
  deriving DecidableEq

section Program

variable {ω : Type} {W : ℕ}

/-- The thread that a step belongs to. -/
def Micro.thread : Micro ω W → Thread
  | .enqueue .. | .advanceWritten | .testEmpty | .destroy _ | .write _ | .throw | .fill |
      .enqueueRet => .producer
  | .dequeue | .advanceRead | .testFilled | .read .. | .release | .dequeueRet => .consumer

/-- The accesses of the atomic steps of the producer. The location of a slot's
`ticket` is the index of the slot. -/
def Producer.footprint (m : Mem ω W) : Producer ω W → Micro ω W → Footprint ℕ (Cell W)
  | .advance _ _, .advanceWritten => ⟨[(.lastWritten, .read), (.lastWritten, .write)], none⟩
  | .spin _ _, .testEmpty => ⟨[(.lastWritten, .read)], some (.load .acquire m.writeIndex)⟩
  | .destroy _, .destroy _ =>
      ⟨(.lastWritten, .read) :: (List.finRange W).map fun j => (.data m.writeIndex j, .write), none⟩
  | .copy _ _ _, .write j => ⟨[(.lastWritten, .read), (.data m.writeIndex j, .write)], none⟩
  | .copy _ _ _, .fill => ⟨[(.lastWritten, .read)], some (.store .release m.writeIndex)⟩
  | _, _ => ⟨[], none⟩

/-- The accesses of the atomic steps of the consumer. -/
def Consumer.footprint (m : Mem ω W) : Consumer ω W → Micro ω W → Footprint ℕ (Cell W)
  | .advance, .advanceRead => ⟨[(.lastRead, .read), (.lastRead, .write)], none⟩
  | .spin, .testFilled => ⟨[(.lastRead, .read)], some (.load .acquire m.readIndex)⟩
  | .copy _, .read j _ =>
      ⟨[(.lastRead, .read), (.data m.readIndex j, .read), (.data m.readIndex j, .write)], none⟩
  | .copy _, .release => ⟨[(.lastRead, .read)], some (.store .release m.readIndex)⟩
  | _, _ => ⟨[], none⟩

def State.footprint (s : State ω W) (b : Thread × Micro ω W) : Footprint ℕ (Cell W) :=
  match b.1 with
  | .producer => s.producer.footprint s.mem b.2
  | .consumer => s.consumer.footprint s.mem b.2

/-- The buffer, for weak memory. -/
def program (cfg : Config) : Program (State ω W) Thread (Micro ω W) ℕ (Cell W) ℤ where
  init s := ∃ data, s = fresh data
  step s b := if b.2.thread = b.1 then step cfg s b.2 else none
  get s i := (s.mem.buffer i).ticket
  set s i x := { s with mem := s.mem.setTicket i x }
  footprint := State.footprint

/-- The values of a `ticket` that a thread waits for. -/
def Thread.WaitsFor : Thread → ℤ → Prop
  | .producer, x => x = 0
  | .consumer, x => x ≠ 0

/-- A thread between its spin test and its store holds the slot. -/
def State.Holds (s : State ω W) : Thread → ℕ → Prop
  | .producer, i => s.producer.accesses = true ∧ s.mem.writeIndex = i
  | .consumer, i => s.consumer.accesses = true ∧ s.mem.readIndex = i

/-- The slots are passed on, each cursor belongs to a thread. -/
def guard : Cell W → Guard Thread ℕ
  | .data i _ => .loc i
  | .lastWritten => .own .producer
  | .lastRead => .own .consumer

end Program

/-! ### The footprints -/

section Lawful

variable {ω : Type} {W : ℕ} {cfg : Config} {m m' : Mem ω W} {a : Micro ω W}

theorem Produce.thread {p p' : Producer ω W} (hx : Produce cfg m p a m' p') :
    a.thread = .producer := by
  cases hx <;> rfl

theorem Consume.thread {c c' : Consumer ω W} (hx : Consume cfg m c a m' c') :
    a.thread = .consumer := by
  cases hx <;> rfl

theorem program_step {s s' : State ω W} {θ : Thread} (h : (program cfg).step s (θ, a) = some s') :
    a.thread = θ ∧ step cfg s a = some s' := by
  have h : (if a.thread = θ then step cfg s a else none) = some s' := h
  split_ifs at h with hθ
  exact ⟨hθ, h⟩

/-- The steps of the two threads. -/
theorem program_step_cases {s s' : State ω W} {θ : Thread}
    (h : (program cfg).step s (θ, a) = some s') :
    (∃ m p, θ = .producer ∧ Produce cfg s.mem s.producer a m p ∧
      s' = { s with mem := m, producer := p }) ∨
    (∃ m c, θ = .consumer ∧ Consume cfg s.mem s.consumer a m c ∧
      s' = { s with mem := m, consumer := c }) := by
  obtain ⟨rfl, hs⟩ := program_step h
  rcases step_cases hs with ⟨m, p, hx, rfl⟩ | ⟨m, c, hx, rfl⟩
  · exact Or.inl ⟨m, p, hx.thread, hx, rfl⟩
  · exact Or.inr ⟨m, c, hx.thread, hx, rfl⟩

theorem Produce.ticket_eq {p p' : Producer ω W} (hx : Produce cfg m p a m' p') (i : ℕ) :
    (m'.buffer i).ticket = (m.buffer i).ticket ∨
      (p.footprint m a).atomic = some (.store .release m.writeIndex) ∧ i = m.writeIndex := by
  cases hx with
  | fill k v =>
    by_cases hi : i = m.writeIndex
    · exact Or.inr ⟨rfl, hi⟩
    · rw [setTicket_ticket, if_neg hi]
      exact Or.inl rfl
  | destroy v junk => exact Or.inl (setData_ticket _ _ _ _)
  | write k v done j _ => exact Or.inl (setData_ticket _ _ _ _)
  | _ => exact Or.inl rfl

theorem Consume.ticket_eq {c c' : Consumer ω W} (hx : Consume cfg m c a m' c') (i : ℕ) :
    (m'.buffer i).ticket = (m.buffer i).ticket ∨
      (c.footprint m a).atomic = some (.store .release m.readIndex) ∧ i = m.readIndex := by
  cases hx with
  | release buf v _ =>
    by_cases hi : i = m.readIndex
    · exact Or.inr ⟨rfl, hi⟩
    · rw [setTicket_ticket, if_neg hi]
      exact Or.inl rfl
  | read buf j left _ => exact Or.inl (setData_ticket _ _ _ _)
  | _ => exact Or.inl rfl

/-- Only the store of a step changes a `ticket`. -/
theorem program_ticket_eq {s s' : State ω W} {b : Thread × Micro ω W}
    (h : (program cfg).step s b = some s') (i : ℕ) :
    (s'.mem.buffer i).ticket = (s.mem.buffer i).ticket ∨
    (s.footprint b).atomic = some (.store .release i) := by
  obtain ⟨θ, a⟩ := b
  rcases program_step_cases h with ⟨m, p, rfl, hx, rfl⟩ | ⟨m, c, rfl, hx, rfl⟩
  · refine (hx.ticket_eq i).imp id ?_
    rintro ⟨hf, rfl⟩
    exact hf
  · refine (hx.ticket_eq i).imp id ?_
    rintro ⟨hf, rfl⟩
    exact hf

theorem setTicket_setTicket (m : Mem ω W) (i : ℕ) (x y : ℤ) :
    (m.setTicket i x).setTicket i y = m.setTicket i y := by
  simp [Mem.setTicket]

theorem setTicket_self (m : Mem ω W) (i : ℕ) : m.setTicket i (m.buffer i).ticket = m := by
  simp [Mem.setTicket]

theorem lawful : (program cfg : Program (State ω W) _ _ _ (Cell W) _).Lawful where
  get_set_self s i x := by
    show ((s.mem.setTicket i x).buffer i).ticket = x
    rw [setTicket_ticket, if_pos rfl]
  get_set_of_ne s i i' x h := by
    show ((s.mem.setTicket i x).buffer i').ticket = _
    rw [setTicket_ticket, if_neg h]
    rfl
  set_get s i := congrArg (fun m => { s with mem := m }) (setTicket_self s.mem i)
  set_set s i x y := congrArg (fun m => { s with mem := m }) (setTicket_setTicket s.mem i x y)
  keeps s b s' hs hstore _ i := (program_ticket_eq hs i).resolve_right (hstore _ i)
  keeps_others s b s' o i hs hf i' hne := by
    refine (program_ticket_eq hs i').resolve_right fun hf' => ?_
    have hf : (s.footprint b).atomic = some (.store o i) ∨
        (s.footprint b).atomic = some (.update o i) := hf
    rcases hf with hf | hf <;> rw [hf'] at hf <;> cases hf
    exact hne rfl
  footprint_set _ _ _ _ := rfl

end Lawful

/-! ### The invariant -/

/-- Either thread waits for what the other one stores. -/
theorem Thread.waitsFor_iff_not {θ θ' : Thread} (h : θ' ≠ θ) {x : ℤ} :
    θ'.WaitsFor x ↔ ¬ θ.WaitsFor x := by
  cases θ <;> cases θ' <;> simp_all [Thread.WaitsFor]

/-- What holds of the weak memory. -/
structure Tame {ω τ : Type} {W : ℕ} [LinearOrder τ] [OrderBot τ] (s : State ω W)
    (M : Memory Thread ℕ (Cell W) ℤ τ) : Prop where
  /-- what a thread waits for, and can still load, is the newest message -/
  passes : ∀ θ i, ∀ m ∈ M.history i, θ.WaitsFor m.value → M.Newest i m ∨ m.time < (M.view θ).front i
  upToDate : ∀ θ i, s.Holds θ i → M.UpToDate θ i
  handed : M.HandedOver guard s.Holds

section Invariant

variable {ω τ : Type} {W : ℕ} [LinearOrder τ] [OrderBot τ] {s s' : State ω W}
  {M : Memory Thread ℕ (Cell W) ℤ τ} {θ : Thread} {i : ℕ}

theorem Tame.fresh (data : ℕ → Payload ω W) :
    Tame (Spsc.fresh data) (.fresh fun i => ((Spsc.fresh data).mem.buffer i).ticket :
      Memory Thread ℕ (Cell W) ℤ τ) := by
  have hidle : ∀ θ i, ¬ (Spsc.fresh data : State ω W).Holds θ i := by
    rintro (_ | _) i ⟨ha, -⟩ <;> cases ha
  refine ⟨fun θ i m hm _ => Or.inl ⟨hm, fun m' hm' => Or.inl ?_⟩,
    fun θ i hh => absurd hh (hidle θ i), .fresh _ _ hidle⟩
  rw [List.mem_singleton.1 hm, List.mem_singleton.1 hm']

theorem Tame.plain (h : Tame s M) (hholds : ∀ θ i, s'.Holds θ i ↔ s.Holds θ i) : Tame s' M :=
  ⟨h.passes, fun θ i hh => h.upToDate θ i ((hholds θ i).1 hh), h.handed.congr hholds⟩

theorem Tame.touches (h : Tame s M) {l : List (Cell W × Access)}
    (hl : ∀ c ∈ l, (guard c.1).Permits s.Holds θ) : Tame s (M.touches θ l) := by
  refine ⟨fun θ' i m hm hw => ?_, fun θ' i hh => (h.upToDate θ' i hh).touches l,
    h.handed.touches hl⟩
  rw [Memory.touches_history] at hm
  rw [Memory.touches_front]
  exact (h.passes θ' i m hm hw).imp (fun hn => hn.congr (congrFun (Memory.touches_history l) i)) id

/-- A load. Only a load of the newest message lets the thread get hold of a slot. -/
theorem Tame.load (h : Tame s M) {o : MemoryOrder} {m : Message Thread ℕ ℤ τ}
    (hgets : ∀ θ' i', s'.Holds θ' i' → s.Holds θ' i' ∨ θ' = θ ∧ i' = i ∧
      o.acquires = true ∧ M.Newest i m)
    (hkeeps : ∀ θ' i', s.Holds θ' i' → s'.Holds θ' i') : Tame s' (M.load o θ i m) := by
  refine ⟨fun θ' i' m' hm' hw => ?_, fun θ' i' hh => ?_, h.handed.load hgets hkeeps⟩
  · exact (h.passes θ' i' m' hm' hw).imp (fun hn => hn.congr rfl)
      fun hlt => hlt.trans_le (Memory.le_load_front i')
  · rcases hgets θ' i' hh with hold | ⟨rfl, rfl, -, hm⟩
    · exact (h.upToDate θ' i' hold).load
    · exact .of_load hm

/-- **The store of a thread that holds the slot.** From now on the thread waits for
the other one. -/
theorem Tame.publish (h : Tame s M) (hsound : M.Sound fun i => (s.mem.buffer i).ticket) {x : ℤ}
    {t : τ} (hholds : s.Holds θ i) (honly : ∀ θ', s.Holds θ' i → θ' = θ)
    (hold : θ.WaitsFor (s.mem.buffer i).ticket) (hx : ¬ θ.WaitsFor x) (ht : (M.view θ).front i < t)
    (hgives : ∀ θ' i', s'.Holds θ' i' ↔ s.Holds θ' i' ∧ i' ≠ i) :
    Tame s' (M.add .release θ i x t t .bot) := by
  have htop := (h.upToDate θ i hholds).lt_of_front_lt ht
  refine ⟨fun θ' i' m hm hw => ?_, fun θ' i' hh => ?_,
    h.handed.release (fun i => ?_) rfl htop hholds honly hgives⟩
  · by_cases hi : i' = i
    · subst hi
      rcases Memory.newest_or_mem_of_add htop hm with hn | hm₁
      · exact Or.inl hn
      · by_cases hθ : θ' = θ
        · subst hθ
          exact Or.inr ((htop m hm₁).trans_le Memory.time_le_add_front)
        · -- the newest message was one that `θ` has waited for
          rcases h.passes θ' i' m hm₁ hw with hn | hlt
          · have hv : m.value = (s.mem.buffer i').ticket := hsound.value_eq hn
            exact absurd (hv ▸ hold) ((Thread.waitsFor_iff_not hθ).1 hw)
          · exact Or.inr (hlt.trans_le (Memory.le_add_front i'))
    · rw [Memory.add_history_of_ne hi] at hm
      exact (h.passes θ' i' m hm hw).imp (fun hn => hn.congr (Memory.add_history_of_ne hi))
        fun hlt => hlt.trans_le (Memory.le_add_front i')
  · obtain ⟨hh, hne⟩ := (hgives θ' i').1 hh
    exact (h.upToDate θ' i' hh).add_of_ne hne
  · obtain ⟨m, hm, -⟩ := hsound.newest i
    exact ⟨m, hm⟩

end Invariant

/-! ### The steps of the threads -/

section Steps

variable {ω τ : Type} {W : ℕ} [LinearOrder τ] [OrderBot τ] {cfg : Config} {s s' : State ω W}
  {l : Log ω W} {M M' : Memory Thread ℕ (Cell W) ℤ τ} {θ : Thread} {a : Micro ω W}

omit [LinearOrder τ] [OrderBot τ] in
/-- One thread holds a slot. -/
theorem Inv.holds_unique (h : Inv cfg s l) {θ θ' : Thread} {i : ℕ} (hh : s.Holds θ i)
    (hh' : s.Holds θ' i) : θ' = θ := by
  cases θ <;> cases θ'
  · rfl
  · exact absurd (hh.2.trans hh'.2.symm) (h.writeIndex_ne_readIndex hh.1 hh'.1)
  · exact absurd (hh'.2.trans hh.2.symm) (h.writeIndex_ne_readIndex hh'.1 hh.1)
  · rfl

omit [LinearOrder τ] [OrderBot τ] in
/-- While a thread holds a slot the `ticket` has the value that it has waited for. -/
theorem Inv.waitsFor_of_holds (h : Inv cfg s l) {i : ℕ} (hh : s.Holds θ i) :
    θ.WaitsFor (s.mem.buffer i).ticket := by
  cases θ with
  | producer =>
    obtain ⟨ha, rfl⟩ := hh
    obtain ⟨hindex, hroom⟩ := h.writeIndex_of_accesses ha
    rw [hindex]
    exact h.slots.empty l.published le_rfl hroom
  | consumer =>
    obtain ⟨ha, rfl⟩ := hh
    have hc := h.consumer
    cases hq : s.consumer with
    | copy buf =>
      rw [hq] at hc
      rw [Mem.readIndex_eq hc.2.1]
      show (s.mem.slotOf cfg l.consumed).ticket ≠ 0
      rw [h.slots.filled l.consumed le_rfl hc.2.2.1]
      exact one_ne_zero
    | _ => rw [hq] at ha; cases ha

omit [LinearOrder τ] [OrderBot τ] in
/-- **The plain accesses of a step are permitted.** -/
theorem Inv.permits (h : Inv cfg s l) {c : Cell W × Access} (hc : c ∈ (s.footprint (θ, a)).plain) :
    (guard c.1).Permits s.Holds θ := by
  have hslot : ∀ {i} (j : Fin W), s.Holds θ i → (guard (.data i j)).Permits s.Holds θ := fun j hh =>
    ⟨hh, fun θ' hh' => h.holds_unique hh hh'⟩
  cases θ with
  | producer =>
    have hc : c ∈ (s.producer.footprint s.mem a).plain := hc
    have hholds : s.producer.accesses = true → s.Holds .producer s.mem.writeIndex :=
      fun ha => ⟨ha, rfl⟩
    generalize s.producer = p at hc hholds
    unfold Producer.footprint at hc
    split at hc
    all_goals simp only [List.mem_cons, List.mem_map, List.not_mem_nil, or_false] at hc
    case h_1 => rcases hc with rfl | rfl <;> rfl
    case h_2 => rcases hc with rfl; rfl
    case h_3 =>
      rcases hc with rfl | ⟨j, -, rfl⟩
      · rfl
      · exact hslot j (hholds rfl)
    case h_4 =>
      rcases hc with rfl | rfl
      · rfl
      · exact hslot _ (hholds rfl)
    case h_5 => rcases hc with rfl; rfl
  | consumer =>
    have hc : c ∈ (s.consumer.footprint s.mem a).plain := hc
    have hholds : s.consumer.accesses = true → s.Holds .consumer s.mem.readIndex :=
      fun ha => ⟨ha, rfl⟩
    generalize s.consumer = q at hc hholds
    unfold Consumer.footprint at hc
    split at hc
    all_goals simp only [List.mem_cons, List.not_mem_nil, or_false] at hc
    case h_1 => rcases hc with rfl | rfl <;> rfl
    case h_2 => rcases hc with rfl; rfl
    case h_3 =>
      rcases hc with rfl | rfl | rfl
      · rfl
      · exact hslot _ (hholds rfl)
      · exact hslot _ (hholds rfl)
    case h_4 => rcases hc with rfl; rfl

omit [LinearOrder τ] [OrderBot τ] in
/-- A store ends the turn of the thread, and leaves the slot of the other thread alone. -/
theorem Inv.holds_publish (h : Inv cfg s l) {i : ℕ} (hh : s.Holds θ i)
    (hnone : ∀ i', ¬ s'.Holds θ i') (hothers : ∀ θ' i', θ' ≠ θ → (s'.Holds θ' i' ↔ s.Holds θ' i'))
    (θ' : Thread) (i' : ℕ) : s'.Holds θ' i' ↔ s.Holds θ' i' ∧ i' ≠ i := by
  by_cases hθ : θ' = θ
  · subst hθ
    refine iff_of_false (hnone i') ?_
    rintro ⟨hh', hne⟩
    cases θ' with
    | producer => exact hne (hh'.2.symm.trans hh.2)
    | consumer => exact hne (hh'.2.symm.trans hh.2)
  · rw [hothers θ' i' hθ]
    refine ⟨fun hh' => ⟨hh', ?_⟩, And.left⟩
    rintro rfl
    exact hθ (h.holds_unique hh hh')

variable {m' : Mem ω W} {p' : Producer ω W} {c' : Consumer ω W}

omit [LinearOrder τ] [OrderBot τ] in
/-- Steps without a load or store let no thread get hold of a slot. -/
theorem Produce.holds_iff (hx : Produce cfg s.mem s.producer a m' p')
    (hf : (s.producer.footprint s.mem a).atomic = none) (hthrow : a ≠ .throw) (θ : Thread) (i : ℕ) :
    ({ s with mem := m', producer := p' } : State ω W).Holds θ i ↔ s.Holds θ i := by
  cases θ with
  | producer =>
    show p'.accesses = true ∧ m'.writeIndex = i ↔ s.producer.accesses = true ∧ s.mem.writeIndex = i
    generalize s.producer = p at hx hf
    cases hx with
    | advance k v =>
      exact iff_of_false (fun hh => Bool.false_ne_true hh.1) fun hh => Bool.false_ne_true hh.1
    | throw => exact absurd rfl hthrow
    | _ => first | exact Iff.rfl | cases hf
  | consumer =>
    have hread : m'.lastRead = s.mem.lastRead := by
      generalize s.producer = p at hx
      cases hx <;> rfl
    show s.consumer.accesses = true ∧ m'.lastRead.toNat = i ↔ s.consumer.accesses = true ∧
      s.mem.lastRead.toNat = i
    rw [hread]

omit [LinearOrder τ] [OrderBot τ] in
theorem Consume.holds_iff (hx : Consume cfg s.mem s.consumer a m' c')
    (hf : (s.consumer.footprint s.mem a).atomic = none) (θ : Thread) (i : ℕ) :
    ({ s with mem := m', consumer := c' } : State ω W).Holds θ i ↔ s.Holds θ i := by
  cases θ with
  | producer =>
    have hwritten : m'.lastWritten = s.mem.lastWritten := by
      generalize s.consumer = c at hx
      cases hx <;> rfl
    show s.producer.accesses = true ∧ m'.lastWritten.toNat = i ↔
      s.producer.accesses = true ∧ s.mem.lastWritten.toNat = i
    rw [hwritten]
  | consumer =>
    show c'.accesses = true ∧ m'.readIndex = i ↔ s.consumer.accesses = true ∧ s.mem.readIndex = i
    generalize s.consumer = c at hx hf
    cases hx with
    | advance =>
      exact iff_of_false (fun hh => Bool.false_ne_true hh.1) fun hh => Bool.false_ne_true hh.1
    | _ => first | exact Iff.rfl | cases hf

/-- What the thread waits for, and can load, is the newest message. -/
theorem Tame.newest_of_waitsFor (h : Tame s M) {i : ℕ} {m : Message Thread ℕ ℤ τ}
    (hm : m ∈ M.history i) (hr : (M.view θ).front i ≤ m.time)
    (hw : θ.WaitsFor m.value) : M.Newest i m :=
  (h.passes θ i m hm hw).resolve_right (not_lt.2 hr)

/-- The loads of the producer. -/
theorem Tame.produce_load (h : Tame s M) {o : MemoryOrder} {i : ℕ} {m : Message Thread ℕ ℤ τ}
    (hf : (s.producer.footprint s.mem a).atomic = some (.load o i)) (hm : m ∈ M.history i)
    (hr : (M.view .producer).front i ≤ m.time)
    (hx : Produce cfg (s.mem.setTicket i m.value) s.producer a m' p') :
    m' = s.mem.setTicket i m.value ∧ Tame { s with producer := p' } (M.load o .producer i m) ∧
      (M.Newest i m ∨ p' = s.producer ∧ a = .testEmpty) := by
  have hload : ∀ {p}, s.producer = p → p.accesses = false →
      (p'.accesses = true → i = s.mem.writeIndex ∧ o.acquires = true ∧ M.Newest i m) →
      Tame { s with producer := p' } (M.load o .producer i m) := by
    rintro p rfl hp hp'
    refine h.load (fun θ' i' hh => ?_) fun θ' i' hh => ?_
    · cases θ' with
      | producer =>
        obtain ⟨hi, ho, hn⟩ := hp' hh.1
        exact Or.inr ⟨rfl, hh.2.symm.trans hi.symm, ho, hn⟩
      | consumer => exact Or.inl hh
    · cases θ' with
      | producer => exact absurd hh.1 (by rw [hp]; exact Bool.false_ne_true)
      | consumer => exact hh
  generalize hp : s.producer = p at hf hx
  cases hx with
  | retry k v _ =>
    cases hf
    exact ⟨rfl, hload hp rfl fun ha => absurd ha Bool.false_ne_true, Or.inr ⟨rfl, rfl⟩⟩
  | pass k v htest =>
    cases hf
    have hindex : (s.mem.setTicket s.mem.writeIndex m.value).writeIndex = s.mem.writeIndex := rfl
    rw [hindex, setTicket_ticket, if_pos rfl] at htest
    have hn := h.newest_of_waitsFor (θ := .producer) hm hr htest
    exact ⟨rfl, hload hp rfl fun _ => ⟨rfl, rfl, hn⟩, Or.inl hn⟩
  | _ => cases hf

/-- The loads of the consumer. -/
theorem Tame.consume_load (h : Tame s M) {o : MemoryOrder} {i : ℕ} {m : Message Thread ℕ ℤ τ}
    (hf : (s.consumer.footprint s.mem a).atomic = some (.load o i)) (hm : m ∈ M.history i)
    (hr : (M.view .consumer).front i ≤ m.time)
    (hx : Consume cfg (s.mem.setTicket i m.value) s.consumer a m' c') :
    m' = s.mem.setTicket i m.value ∧ Tame { s with consumer := c' } (M.load o .consumer i m) ∧
      (M.Newest i m ∨ c' = s.consumer ∧ a = .testFilled) := by
  have hload : ∀ {c}, s.consumer = c → c.accesses = false →
      (c'.accesses = true → i = s.mem.readIndex ∧ o.acquires = true ∧ M.Newest i m) →
      Tame { s with consumer := c' } (M.load o .consumer i m) := by
    rintro c rfl hc hc'
    refine h.load (fun θ' i' hh => ?_) fun θ' i' hh => ?_
    · cases θ' with
      | producer => exact Or.inl hh
      | consumer =>
        obtain ⟨hi, ho, hn⟩ := hc' hh.1
        exact Or.inr ⟨rfl, hh.2.symm.trans hi.symm, ho, hn⟩
    · cases θ' with
      | producer => exact hh
      | consumer => exact absurd hh.1 (by rw [hc]; exact Bool.false_ne_true)
  generalize hc : s.consumer = c at hf hx
  cases hx with
  | retry _ =>
    cases hf
    exact ⟨rfl, hload hc rfl fun ha => absurd ha Bool.false_ne_true, Or.inr ⟨rfl, rfl⟩⟩
  | pass htest =>
    cases hf
    have hindex : (s.mem.setTicket s.mem.readIndex m.value).readIndex = s.mem.readIndex := rfl
    rw [hindex, setTicket_ticket, if_pos rfl] at htest
    have hn := h.newest_of_waitsFor (θ := .consumer) hm hr htest
    exact ⟨rfl, hload hc rfl fun _ => ⟨rfl, rfl, hn⟩, Or.inl hn⟩
  | _ => cases hf

/-- `ticket.store(1)` -/
theorem Tame.produce_store (h : Tame s M) (hsound : M.Sound fun i => (s.mem.buffer i).ticket)
    (hinv : Inv cfg s l) {o : MemoryOrder} {i : ℕ} {t : τ}
    (hf : (s.producer.footprint s.mem a).atomic = some (.store o i))
    (ht : (M.view .producer).front i < t) (hx : Produce cfg s.mem s.producer a m' p') :
    (∀ m ∈ M.history i, m.time < t) ∧
      Tame { s with mem := m', producer := p' }
        (M.add o .producer i (m'.buffer i).ticket t t .bot) := by
  generalize hp : s.producer = p at hf hx
  cases hx with
  | fill k v =>
    cases hf
    have hholds : s.Holds .producer s.mem.writeIndex := ⟨by rw [hp]; rfl, rfl⟩
    refine ⟨(h.upToDate _ _ hholds).lt_of_front_lt ht, ?_⟩
    rw [setTicket_ticket, if_pos rfl]
    refine h.publish hsound hholds (fun θ' hh' => hinv.holds_unique hholds hh')
      (hinv.waitsFor_of_holds hholds) one_ne_zero ht
      (hinv.holds_publish hholds (fun i' hh' => Bool.false_ne_true hh'.1) fun θ' i' hne => ?_)
    cases θ' with
    | producer => exact absurd rfl hne
    | consumer => exact Iff.rfl
  | _ => cases hf

/-- `ticket.store(0)` -/
theorem Tame.consume_store (h : Tame s M) (hsound : M.Sound fun i => (s.mem.buffer i).ticket)
    (hinv : Inv cfg s l) {o : MemoryOrder} {i : ℕ} {t : τ}
    (hf : (s.consumer.footprint s.mem a).atomic = some (.store o i))
    (ht : (M.view .consumer).front i < t) (hx : Consume cfg s.mem s.consumer a m' c') :
    (∀ m ∈ M.history i, m.time < t) ∧
      Tame { s with mem := m', consumer := c' }
        (M.add o .consumer i (m'.buffer i).ticket t t .bot) := by
  generalize hc : s.consumer = c at hf hx
  cases hx with
  | release buf v _ =>
    cases hf
    have hholds : s.Holds .consumer s.mem.readIndex := ⟨by rw [hc]; rfl, rfl⟩
    refine ⟨(h.upToDate _ _ hholds).lt_of_front_lt ht, ?_⟩
    rw [setTicket_ticket, if_pos rfl]
    refine h.publish hsound hholds (fun θ' hh' => hinv.holds_unique hholds hh')
      (hinv.waitsFor_of_holds hholds) (fun hw => hw rfl) ht
      (hinv.holds_publish hholds (fun i' hh' => Bool.false_ne_true hh'.1) fun θ' i' hne => ?_)
    cases θ' with
    | producer => exact Iff.rfl
    | consumer => exact absurd rfl hne
  | _ => cases hf

/-- **What a step on weak memory does.** -/
theorem Tame.step (h : Tame s M) (hsound : M.Sound fun i => (s.mem.buffer i).ticket)
    (hinv : Inv cfg s l) (hthrow : a ≠ .throw) {r t : τ}
    (hs : (program cfg).WeakStep s M θ a r t s' M') :
    Tame s' M' ∧ (Spsc.step cfg s a = some s' ∨ s' = s ∧ (a = .testEmpty ∨ a = .testFilled)) := by
  have htouch := h.touches fun c hc => hinv.permits (θ := θ) (a := a) hc
  have hhist : (M.touches θ (s.footprint (θ, a)).plain).history = M.history :=
    Memory.touches_history _
  have hsound' : (M.touches θ (s.footprint (θ, a)).plain).Sound fun i => (s.mem.buffer i).ticket :=
    hsound.congr hhist
  have hfront : ∀ i, ((M.touches θ (s.footprint (θ, a)).plain).view θ).front i =
      (M.view θ).front i := fun i =>
    congrFun (Memory.touches_front _) i
  cases hs with
  | plain hf hs =>
    refine ⟨htouch.plain ?_, Or.inl (program_step hs).2⟩
    rcases program_step_cases hs with ⟨m', p', rfl, hx, rfl⟩ | ⟨m', c', rfl, hx, rfl⟩
    · exact hx.holds_iff hf hthrow
    · exact hx.holds_iff hf
  | @load o i m s₁ _ hf hm hr hs =>
    have hm' : m ∈ (M.touches θ (s.footprint (θ, a)).plain).history i := by rw [hhist]; exact hm
    have hend : M.Newest i m → Spsc.step cfg s a =
        some ((program cfg).set s₁ i ((program cfg).get s i)) := by
      intro hn
      obtain ⟨hs', heq⟩ := Program.set_of_load_newest lawful hsound hn hf hs
      rw [heq]
      exact (program_step hs').2
    have hback : ∀ p c, (program cfg).set (⟨s.mem.setTicket i m.value, p, c⟩ : State ω W) i
        ((program cfg).get s i) = ⟨s.mem, p, c⟩ := by
      intro p c
      show (⟨(s.mem.setTicket i m.value).setTicket i (s.mem.buffer i).ticket, p, c⟩ : State ω W) = _
      rw [setTicket_setTicket, setTicket_self]
    rcases program_step_cases hs with ⟨m', p', rfl, hx, rfl⟩ | ⟨m', c', rfl, hx, rfl⟩
    · obtain ⟨rfl, htame, hpast⟩ := htouch.produce_load hf hm' (by rw [hfront]; exact hr) hx
      refine ⟨(hback p' s.consumer).symm ▸ htame, ?_⟩
      rcases hpast with hn | ⟨rfl, ha⟩
      · exact Or.inl (hend (hn.congr (congrFun hhist i).symm))
      · exact Or.inr ⟨hback s.producer s.consumer, Or.inl ha⟩
    · obtain ⟨rfl, htame, hpast⟩ := htouch.consume_load hf hm' (by rw [hfront]; exact hr) hx
      refine ⟨(hback s.producer c').symm ▸ htame, ?_⟩
      rcases hpast with hn | ⟨rfl, ha⟩
      · exact Or.inl (hend (hn.congr (congrFun hhist i).symm))
      · exact Or.inr ⟨hback s.producer s.consumer, Or.inr ha⟩
  | @store o i s₁ _ _ hf hs ht hfree =>
    have htop : (∀ m ∈ M.history i, m.time < t) ∧
        Tame s₁ ((M.touches θ (s.footprint (θ, a)).plain).add o θ i
          (s₁.mem.buffer i).ticket t t .bot) := by
      rw [← hhist]
      rcases program_step_cases hs with ⟨m', p', rfl, hx, rfl⟩ | ⟨m', c', rfl, hx, rfl⟩
      · exact htouch.produce_store hsound' hinv hf (by rw [hfront]; exact ht) hx
      · exact htouch.consume_store hsound' hinv hf (by rw [hfront]; exact ht) hx
    rw [Program.settle_of_top htop.1]
    exact ⟨htop.2, Or.inl (program_step hs).2⟩
  | @update o i m s₁ _ hf hm hr hs ht =>
    -- there are no read-modify-writes
    have hf : (s.footprint (θ, a)).atomic = some (.update o i) := hf
    cases θ with
    | producer =>
      have hf : (s.producer.footprint s.mem a).atomic = some (.update o i) := hf
      unfold Producer.footprint at hf
      split at hf <;> cases hf
    | consumer =>
      have hf : (s.consumer.footprint s.mem a).atomic = some (.update o i) := hf
      unfold Consumer.footprint at hf
      split at hf <;> cases hf

end Steps

/-! ### Every run on weak memory -/

section Refinement

variable {ω τ L : Type} {W : ℕ} [LinearOrder τ] [OrderBot τ] {cfg : Config}

/-- No payload operation throws. -/
def NoThrowWeak (_ : State ω W × Memory Thread ℕ (Cell W) ℤ τ)
    (b : (Thread × Micro ω W) × τ × τ) : Prop :=
  b.1.2 ≠ .throw

/-- What holds in all runs on weak memory, with a log that does not record spin tests. -/
theorem weak_invariant {note : State ω W → Micro ω W → L → L}
    (hnote : ∀ s l, note s .testEmpty l = l ∧ note s .testFilled l = l) {l₀ : L}
    {x : (State ω W × Memory Thread ℕ (Cell W) ℤ τ) × L}
    (hx : ((((program cfg).weak τ).restrict NoThrowWeak).withLog l₀
      fun w b l => note w.1 b.1.2 l).Reachable x) :
    (((system cfg).restrict NoThrow).withLog l₀ note).Reachable (x.1.1, x.2) ∧
      x.1.2.Sound (fun i => (x.1.1.mem.buffer i).ticket) ∧ Tame x.1.1 x.1.2 := by
  refine System.Reachable.log_of_simulation (f := Prod.fst)
    (g := fun b : (Thread × Micro ω W) × τ × τ => b.1.2)
    (I := fun w => w.2.Sound (fun i => (w.1.mem.buffer i).ticket) ∧ Tame w.1 w.2) ?_ ?_ hx
  · rintro ⟨s, M⟩ ⟨⟨data, rfl⟩, hM⟩
    obtain rfl : M = .fresh fun i => ((fresh data).mem.buffer i).ticket := hM
    exact ⟨⟨data, rfl⟩, Memory.sound_fresh _, .fresh data⟩
  · rintro ⟨s, M⟩ ⟨⟨θ, a⟩, r, t⟩ ⟨s', M'⟩ ⟨hsound, htame⟩ hreach ⟨hthrow, hstep⟩
    have hweak := Program.weakStep_cases hstep
    obtain ⟨l, hl⟩ := hreach.exists_log Log.empty Spsc.note
    obtain ⟨htame', hs | ⟨rfl, ha⟩⟩ := htame.step hsound (invariant hl) hthrow hweak
    · exact ⟨⟨hweak.sound lawful hsound, htame'⟩, Or.inl ⟨hthrow, hs⟩⟩
    · refine ⟨⟨hweak.sound lawful hsound, htame'⟩, Or.inr ⟨rfl, fun l => ?_⟩⟩
      rcases ha with rfl | rfl
      · exact (hnote _ l).1
      · exact (hnote _ l).2

/-- **The memory orders of the buffer are strong enough.** Take any run on weak memory in which no
payload operation throws, with any log that does not record spin tests. Its last state and its log
are those of a run in which the two threads are interleaved on one memory; and no access of a
payload or of a cursor, by the next step of a thread, is a data race. -/
theorem ticket_orders_suffice {note : State ω W → Micro ω W → L → L}
    (hnote : ∀ s l, note s .testEmpty l = l ∧ note s .testFilled l = l) {l₀ l : L} {s : State ω W}
    {M : Memory Thread ℕ (Cell W) ℤ τ}
    (h : ((((program cfg).weak τ).restrict NoThrowWeak).withLog l₀
      fun w b l => note w.1 b.1.2 l).Reachable ((s, M), l)) :
    (((system cfg).restrict NoThrow).withLog l₀ note).Reachable (s, l) ∧
      ∀ b, ∀ c ∈ (s.footprint b).plain, M.Ordered b.1 c.1 c.2 := by
  obtain ⟨hreach, hsound, htame⟩ := weak_invariant hnote h
  refine ⟨hreach, ?_⟩
  rintro ⟨θ, a⟩ c hc
  obtain ⟨l₁, hl₁⟩ := hreach.of_log.exists_log Log.empty Spsc.note
  refine htame.handed.ordered (fun i => ?_) ((invariant hl₁).permits hc) c.2
  obtain ⟨m, hm, -⟩ := hsound.newest i
  exact ⟨m, hm⟩

/-- One value goes through a buffer of one slot, and each thread misses the store of
the other one once. -/
def staleTests : List ((Thread × Micro ℕ 1) × ℕ × ℕ) :=
  [((.consumer, .dequeue), 0, 0), ((.consumer, .advanceRead), 0, 0),
   ((.producer, .enqueue .move ![7]), 0, 0), ((.producer, .advanceWritten), 0, 0),
   ((.producer, .testEmpty), 0, 0), ((.producer, .write 0), 0, 0), ((.producer, .fill), 0, 1),
   ((.producer, .enqueueRet), 0, 0), ((.consumer, .testFilled), 0, 0),
   ((.producer, .enqueue .emplace ![8]), 0, 0), ((.producer, .advanceWritten), 0, 0),
   ((.consumer, .testFilled), 1, 0), ((.consumer, .read 0 0), 0, 0), ((.consumer, .release), 0, 2),
   ((.producer, .testEmpty), 1, 0), ((.producer, .testEmpty), 2, 0),
   ((.consumer, .dequeueRet), 0, 0)]

theorem staleTests_received : (staleTests.foldlM
    (fun q b => ((program oneSlot).weakStep q.1 b).map fun w => (w, note q.1.1 b.1.2 q.2))
    ((fresh fun _ => ![0],
      .fresh fun i => ((fresh fun _ => ![0] : State ℕ 1).mem.buffer i).ticket), Log.empty)).map
      (fun q => q.2.received == [![7]] && q.2.sent == [![7], ![8]]) = some true := by
  decide +kernel

theorem ticket_orders_suffice_staleTests :
    ∃ (s : State ℕ 1) (M : Memory Thread ℕ (Cell 1) ℤ ℕ) (l : Log ℕ 1),
    l.received = [![7]] ∧ l.sent = [![7], ![8]] ∧
    (((system oneSlot).restrict NoThrow).withLog Log.empty note).Reachable (s, l) ∧
      ∀ b, ∀ c ∈ (s.footprint b).plain, M.Ordered b.1 c.1 c.2 := by
  have honly : ∀ w, ∀ b ∈ staleTests, NoThrowWeak w b := by
    intro w b hb
    fin_cases hb <;> simp [NoThrowWeak]
  have hinit : ((((program oneSlot).weak ℕ).restrict NoThrowWeak).withLog Log.empty
      fun w b l => note w.1 b.1.2 l).init ((fresh fun _ => ![0],
        .fresh fun i => ((fresh fun _ => ![0] : State ℕ 1).mem.buffer i).ticket), Log.empty) :=
    ⟨⟨⟨_, rfl⟩, rfl⟩, rfl⟩
  obtain ⟨⟨⟨s, M⟩, l⟩, hr, hp⟩ := System.exists_reachable_of_schedule hinit staleTests_received (by
    rintro ⟨w, l⟩ b hb ⟨w', l'⟩ hst
    obtain ⟨w₁, hw₁, heq⟩ := Option.map_eq_some_iff.1 hst
    cases heq
    exact ⟨⟨honly w b hb, hw₁⟩, rfl⟩)
  simp only [Bool.and_eq_true, beq_iff_eq] at hp
  exact ⟨s, M, l, hp.1, hp.2, ticket_orders_suffice (fun s l => ⟨rfl, rfl⟩) hr⟩

end Refinement

end AstraLib.Spsc
