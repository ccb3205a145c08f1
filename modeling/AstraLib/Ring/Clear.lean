import AstraLib.Ring.MachineWord

/-!
# `AtomicRingBuffer`: clearing

`clearBuffer` resets the two counters and every `seq`, and leaves the payloads where they are.  It
is called while no operation is in flight.  The cleared queue and a newly constructed one differ in
the payloads of all their slots, and in nothing else; and a `dequeue` gets to a slot only after an
`enqueue` has written the payload there.
-/

namespace AstraLib.Ring

open Interleaving

section Clear

variable {κ τ ω : Type} {W : ℕ}

/-- `clearBuffer`. -/
def clearBuffer (ar : TicketArith κ τ) (cfg : Config) (m : Mem κ ω W) : Mem κ ω W :=
  { m with
    writeTicket := ar.ofInt 0
    readTicket := ar.ofInt 0
    buffer := prepareBuffer ar cfg m.buffer }

variable {Tid : Type}

/-- The object after `clearBuffer`, among the same threads. -/
def State.clear (ar : TicketArith κ τ) (cfg : Config) (s : State Tid κ τ ω W) : State Tid κ τ ω W :=
  { s with mem := clearBuffer ar cfg s.mem }

/-- Every thread is at the same place, with the same ticket, payload or answer, and
the same spin tests pass. -/
def SameView (ar : TicketArith κ τ) (s t : State Tid κ τ ω W) : Prop :=
  s.pc = t.pc ∧ ∀ θ, s.Passes ar θ ↔ t.Passes ar θ

end Clear

section Alike

variable {Tid ω : Type} {W : ℕ} {cfg : Config} {s t : State Tid ℕ ℕ ω W} {l : Log Tid ω W}

/-- The counters and the sequence numbers agree. -/
structure Mem.Alike (cfg : Config) (m m' : Mem ℕ ω W) : Prop where
  writeTicket : m.writeTicket = m'.writeTicket
  readTicket : m.readTicket = m'.readTicket
  seq : ∀ i < cfg.SIZE, (m.buffer i).seq = (m'.buffer i).seq

namespace Mem.Alike

variable {m m' : Mem ℕ ω W}

theorem symm (h : Alike cfg m m') : Alike cfg m' m :=
  ⟨h.writeTicket.symm, h.readTicket.symm, fun i hi => (h.seq i hi).symm⟩

/-- A store of `seq` on both sides. -/
theorem setSeq (h : Alike cfg m m') (i x : ℕ) : Alike cfg (m.setSeq i x) (m'.setSeq i x) := by
  refine ⟨h.writeTicket, h.readTicket, fun i' hi' => ?_⟩
  by_cases heq : i' = i
  · rw [heq, setSeq_seq_self, setSeq_seq_self]
  · rw [setSeq_seq_of_ne _ _ heq, setSeq_seq_of_ne _ _ heq]
    exact h.seq i' hi'

/-- The payloads may be anything. -/
theorem setData (h : Alike cfg m m') (i : ℕ) (v v' : Payload ω W) :
    Alike cfg (m.setData i v) (m'.setData i v') := by
  refine ⟨h.writeTicket, h.readTicket, fun i' hi' => ?_⟩
  rw [setData_seq, setData_seq]
  exact h.seq i' hi'

theorem deliver (h : Alike cfg m m') (j : Fin W) (x : ω) (d : Dest) :
    Alike cfg (m.deliver j x d) (m'.deliver j x d) := by
  refine ⟨by simpa using h.writeTicket, by simpa using h.readTicket, fun i hi => ?_⟩
  rw [deliver_buffer, deliver_buffer]
  exact h.seq i hi

theorem seqOf (h : Alike cfg m m') (t : ℕ) :
    (m.buffer (t % cfg.SIZE)).seq = (m'.buffer (t % cfg.SIZE)).seq :=
  h.seq _ (Nat.mod_lt t cfg.size_pos)

/-- **A step does the same in memories that are alike**, provided that it reads no
word in which they differ. -/
theorem exec (h : Alike cfg m m') {p p' : Pc ℕ ℕ ω W} {a : Micro ω W} {m₁ : Mem ℕ ω W}
    (hx : Exec (unbounded cfg) cfg m p a m₁ p')
    (hread : ∀ d t buf j, p = .deqCopy d t buf → buf j = none →
      (m.buffer (t % cfg.SIZE)).data j = (m'.buffer (t % cfg.SIZE)).data j) :
    ∃ m₁', Exec (unbounded cfg) cfg m' p a m₁' p' ∧ Alike cfg m₁ m₁' := by
  cases hx with
  | call c => exact ⟨m', .call c, h⟩
  | enqClaim k v =>
    refine ⟨{ m' with writeTicket := m'.writeTicket + 1 }, ?_,
      ⟨congrArg (· + 1) h.writeTicket, h.readTicket, h.seq⟩⟩
    rw [h.writeTicket]
    exact .enqClaim k v
  | enqPass k v t hseq =>
    refine ⟨m', .enqPass k v t ?_, h⟩
    simp only [unbounded_ticket, unbounded_index] at hseq ⊢
    rw [← h.seqOf]
    exact hseq
  | enqRetry k v t hseq =>
    refine ⟨m', .enqRetry k v t ?_, h⟩
    simp only [unbounded_ticket, unbounded_index] at hseq ⊢
    rw [← h.seqOf]
    exact hseq
  | destroy v t junk => exact ⟨_, .destroy v t junk, h.setData _ _ _⟩
  | enqCopy k v t done j left hj => exact ⟨_, .enqCopy k v t done j left hj, h.setData _ _ _⟩
  | enqPublish k v t => exact ⟨_, .enqPublish k v t, h.setSeq _ _⟩
  | enqRet => exact ⟨m', .enqRet, h⟩
  | loopNext i count hi => exact ⟨m', .loopNext i count hi, h⟩
  | loopEnd i count hi => exact ⟨m', .loopEnd i count hi, h⟩
  | deqClaim d =>
    refine ⟨{ m' with readTicket := m'.readTicket + 1 }, ?_,
      ⟨h.writeTicket, congrArg (· + 1) h.readTicket, h.seq⟩⟩
    rw [h.readTicket]
    exact .deqClaim d
  | deqPass d t hseq =>
    refine ⟨m', .deqPass d t ?_, h⟩
    simp only [unbounded_ticket, unbounded_index] at hseq ⊢
    rw [← h.seqOf]
    exact hseq
  | deqRetry d t hseq =>
    refine ⟨m', .deqRetry d t ?_, h⟩
    simp only [unbounded_ticket, unbounded_index] at hseq ⊢
    rw [← h.seqOf]
    exact hseq
  | deqCopy d t buf j left hj =>
    have hword := hread d t buf j rfl hj
    rw [← unbounded_index cfg] at hword
    rw [hword]
    exact ⟨_, .deqCopy d t buf j left hj, (h.setData _ _ _).deliver j _ d⟩
  | deqPublish d t buf v hv => exact ⟨_, .deqPublish d t buf v hv, h.setSeq _ _⟩
  | deqRet t v => exact ⟨m', .deqRet t v, h⟩
  | batchRet => exact ⟨m', .batchRet, h⟩
  | firstWrite =>
    rw [h.writeTicket]
    exact ⟨m', .firstWrite, h⟩
  | firstRead =>
    rw [h.readTicket]
    exact ⟨m', .firstRead, h⟩
  | thenRead w b hb =>
    rw [h.readTicket] at hb
    exact ⟨m', .thenRead w b hb, h⟩
  | thenWrite r b hb =>
    rw [h.writeTicket] at hb
    exact ⟨m', .thenWrite r b hb, h⟩
  | isEmptyRet b => exact ⟨m', .isEmptyRet b, h⟩

end Mem.Alike

/-- The ticket invariant is about the counters and the sequence numbers. -/
theorem Tickets.of_alike (h : Tickets cfg s l) (halike : Mem.Alike cfg s.mem t.mem)
    (hpc : s.pc = t.pc) : Tickets cfg t l := by
  obtain ⟨h1, h2, h3, h4, h5, h6, h7, h8, h9⟩ := h
  have hseq : ∀ u, s.seqOf cfg u = t.seqOf cfg u := halike.seqOf
  simp only [hseq, halike.writeTicket, halike.readTicket, hpc] at h1 h2 h3 h4 h5 h6 h7 h8 h9
  exact ⟨h1, h2, h3, h4, h5, h6, h7, h8, h9⟩

/-- Two queues with one history. -/
structure SameHistory (cfg : Config) (s t : State Tid ℕ ℕ ω W) (l : Log Tid ω W) : Prop where
  pc : s.pc = t.pc
  alike : Mem.Alike cfg s.mem t.mem
  tickets : Tickets cfg s l
  contents : Contents cfg s l
  contents' : Contents cfg t l

namespace SameHistory

theorem symm (h : SameHistory cfg s t l) : SameHistory cfg t s l :=
  ⟨h.pc.symm, h.alike.symm, h.tickets.of_alike h.alike h.pc, h.contents', h.contents⟩

/-- The same spin tests pass. -/
theorem sameView (h : SameHistory cfg s t l) : SameView (unbounded cfg) s t := by
  refine ⟨h.pc, fun θ => ?_⟩
  simp only [State.Passes, unbounded_ticket, unbounded_index, h.pc, h.alike.seqOf]

/-- The words that a dequeue has still to read are those that the enqueue has written,
in both queues. -/
theorem data_eq (h : SameHistory cfg s t l) {θ : Tid} {d : Dest} {u : ℕ} {buf : Fin W → Option ω}
    {j : Fin W} (hp : s.pc θ = .deqCopy d u buf) (hj : buf j = none) :
    (s.mem.buffer (u % cfg.SIZE)).data j = (t.mem.buffer (u % cfg.SIZE)).data j := by
  have htickets := h.tickets
  have hdrain : (s.pc θ).draining = some u := by rw [hp]; rfl
  have hseq : s.seqOf cfg u = u + 1 := htickets.draining_eq θ u hdrain
  obtain ⟨θ₀, v, hv⟩ := htickets.exists_writer (t := u) (by omega)
  -- nobody else reads from the slot
  have hnone : ∀ θ' d' buf', s.pc θ' = .deqCopy d' u buf' → buf' j = none := by
    intro θ' d' buf' hp'
    have hdrain' : (s.pc θ').draining = some u := by rw [hp']; rfl
    obtain rfl := htickets.draining_unique hdrain' hdrain rfl
    cases hp.symm.trans hp'
    exact hj
  have hleft := h.contents.full u θ₀ v hv hseq j hnone
  have hright := h.contents'.full u θ₀ v hv ((h.alike.seqOf u).symm.trans hseq) j (h.pc ▸ hnone)
  exact hleft.trans hright.symm

/-- **What is done with the one queue can be done with the other**, to the same effect. -/
theorem step [DecidableEq Tid] (h : SameHistory cfg s t l) {a : Tid × Micro ω W}
    {s' : State Tid ℕ ℕ ω W} (hstep : Ring.step (unbounded cfg) cfg s a = some s') :
    ∃ t', Ring.step (unbounded cfg) cfg t a = some t' ∧ SameHistory cfg s' t' (logNote s a l) := by
  obtain ⟨θ, a⟩ := a
  obtain ⟨m, p, hx, rfl⟩ := step_eq_some.1 hstep
  obtain ⟨m', hx', halike⟩ := h.alike.exec hx fun d u buf j hp hj => h.data_eq hp hj
  rw [h.pc] at hx'
  have htickets := h.tickets.of_alike h.alike h.pc
  refine ⟨t.put θ m' p, step_eq_some.2 ⟨m', p, hx', rfl⟩, ?_, halike, h.tickets.step hx.effect,
    h.contents.step h.tickets hx, ?_⟩
  · exact congrArg (Function.update · θ p) h.pc
  · rw [logNote, h.pc]
    exact h.contents'.step htickets hx'

/-- A cleared queue has the history of a new one. -/
theorem clear (hidle : ∀ θ, s.pc θ = .idle) (data array : ℕ → Payload ω W) :
    SameHistory cfg (s.clear (unbounded cfg) cfg)
      (fresh (unbounded cfg) cfg data array) Log.empty := by
  have hpc : s.pc = (fresh (unbounded cfg) cfg data array : State Tid ℕ ℕ ω W).pc := funext hidle
  have halike : Mem.Alike cfg (s.clear (unbounded cfg) cfg).mem
      (fresh (unbounded cfg) cfg data array : State Tid ℕ ℕ ω W).mem := by
    refine ⟨rfl, rfl, fun i hi => ?_⟩
    simp [State.clear, clearBuffer, fresh, prepareBuffer_apply, hi]
  refine ⟨hpc, halike, (Tickets.init data array).of_alike halike.symm hpc.symm, ⟨?_, ?_, ?_, ?_⟩,
    Contents.init data array⟩
  all_goals simp [State.clear, hidle, Log.empty]

end SameHistory

end Alike

/-- **A cleared queue cannot be told from a new one.** Whatever has been done with the queue before,
if no operation is in flight when `clearBuffer` is called, then in every later interleaving of calls
the threads get to the same places with the same values, and the same spin tests pass, as in a newly
constructed queue, whatever payloads that one holds. -/
theorem clearBuffer_bisimilar {Tid ω : Type} {W : ℕ} [DecidableEq Tid] {cfg : Config}
    {s : State Tid ℕ ℕ ω W} (hidle : ∀ θ, s.pc θ = .idle) (data array : ℕ → Payload ω W) :
    System.Bisimilar (system (unbounded cfg) cfg) (system (unbounded cfg) cfg)
      (SameView (unbounded cfg))
      (s.clear (unbounded cfg) cfg) (fresh (unbounded cfg) cfg data array) := by
  refine ⟨fun s t => ∃ l, SameHistory cfg s t l, .of_symm ?_ ?_, ?_, _, .clear hidle data array⟩
  · rintro s t ⟨l, h⟩
    exact ⟨l, h.symm⟩
  · rintro s t a s' ⟨l, h⟩ hstep
    obtain ⟨t', ht', h'⟩ := h.step hstep
    exact ⟨t', ht', _, h'⟩
  · rintro s t ⟨l, h⟩
    exact h.sameView

/-- A thread enqueues a value. -/
def leavesOne : List (Unit × Micro ℕ 1) :=
  [((), .call (.enqueue .move ![7])), ((), .claim), ((), .spin), ((), .copy 0 0),
    ((), .publish), ((), .ret)]

/-- The value is in slot `0`, and nobody is in an operation. -/
def oneLeft (s : State Unit ℕ ℕ ℕ 1) : Bool :=
  (s.pc () matches .idle) && s.mem.writeTicket == 1 && (s.mem.buffer 0).data == ![7]

theorem leavesOne_oneLeft : (leavesOne.foldlM (step (unbounded smallest) smallest)
    (fresh (unbounded smallest) smallest (fun _ => ![0]) (fun _ => ![0]))).map oneLeft =
      some true := by
  decide +kernel

theorem clearBuffer_bisimilar_oneLeft : ∃ s : State Unit ℕ ℕ ℕ 1,
    (system (unbounded smallest) smallest).Reachable s ∧ s.mem.writeTicket = 1 ∧
    ((s.clear (unbounded smallest) smallest).mem.buffer 0).data = ![7] ∧
    System.Bisimilar (system (unbounded smallest) smallest) (system (unbounded smallest) smallest)
      (SameView (unbounded smallest)) (s.clear (unbounded smallest) smallest)
      (fresh (unbounded smallest) smallest (fun _ => ![0]) fun _ => ![0]) := by
  have hinit : (system (unbounded smallest) smallest).init
      (fresh (unbounded smallest) smallest (fun _ => ![0]) (fun _ => ![0]) : State Unit ℕ ℕ ℕ 1) :=
    ⟨_, _, rfl⟩
  obtain ⟨s, hs, hp⟩ :=
    System.exists_reachable_of_schedule hinit leavesOne_oneLeft fun _ _ _ _ hst => hst
  simp only [oneLeft, Bool.and_eq_true, beq_iff_eq] at hp
  obtain ⟨⟨hpc, hwrite⟩, hdata⟩ := hp
  have hidle : ∀ θ, s.pc θ = .idle := by
    intro θ
    cases hθ : s.pc () <;> simp [hθ] at hpc ⊢
  refine ⟨s, hs, hwrite, ?_, clearBuffer_bisimilar hidle _ _⟩
  simp only [State.clear, clearBuffer, prepareBuffer_apply]
  split_ifs <;> exact hdata

end AstraLib.Ring
