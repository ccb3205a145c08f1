import AstraLib.Spsc.Fifo

/-!
# `spscRingBuffer`: capacity

The buffer has no counter of its items.  A thread tells from one flag whether it may go on, and
by the invariant of `AstraLib.Spsc.Fifo` that flag is the one of the slot that decides: the slot
of the next item to be published is filled only if it is the slot of the next item to be
consumed as well, a whole round behind.
-/

namespace AstraLib.Spsc

open Interleaving

section Capacity

variable {ω : Type} {W : ℕ} {cfg : Config} {s : State ω W} {l : Log ω W}

/-- The producer is at its spin test, and the test fails. -/
def State.ProducerBlocked (s : State ω W) : Prop :=
  (∃ k v, s.producer = .spin k v) ∧ (s.mem.buffer s.mem.writeIndex).ticket ≠ 0

/-- The consumer is at its spin test, and the test fails. -/
def State.ConsumerBlocked (s : State ω W) : Prop :=
  s.consumer = .spin ∧ (s.mem.buffer s.mem.readIndex).ticket = 0

/-- The slot of the next item to be published is filled if and only if there is no room. -/
theorem Slots.filled_iff {m : Mem ω W} {moved : Fin W → Bool} (h : Slots cfg m l moved) :
    (m.slotOf cfg l.published).ticket ≠ 0 ↔ l.published = l.consumed + cfg.BUFFER_SIZE := by
  have hle := h.published_le
  constructor
  · intro hne
    by_contra hlt
    exact hne (h.empty l.published le_rfl (by omega))
  · intro heq hz
    have hlt := h.lt_of_empty hz
    omega

/-- The slot of the next item to be consumed is empty if and only if there is no item. -/
theorem Slots.empty_iff {m : Mem ω W} {moved : Fin W → Bool} (h : Slots cfg m l moved) :
    (m.slotOf cfg l.consumed).ticket = 0 ↔ l.published = l.consumed := by
  have hle := h.consumed_le
  constructor
  · intro hz
    by_contra hlt
    rw [h.filled l.consumed le_rfl (by omega)] at hz
    cases hz
  · intro heq
    by_contra hne
    have hlt := h.lt_of_filled hne
    omega

theorem Inv.producerBlocked_iff (h : Inv cfg s l) {k : EnqKind} {v : Payload ω W}
    (hp : s.producer = .spin k v) :
    s.ProducerBlocked ↔ l.published = l.consumed + cfg.BUFFER_SIZE := by
  have hok := h.producer
  rw [hp] at hok
  rw [← h.slots.filled_iff, State.ProducerBlocked, Mem.writeIndex_eq hok.2]
  exact and_iff_right ⟨k, v, hp⟩

theorem Inv.consumerBlocked_iff (h : Inv cfg s l) (hc : s.consumer = .spin) :
    s.ConsumerBlocked ↔ l.published = l.consumed := by
  have hok := h.consumer
  rw [hc] at hok
  rw [← h.slots.empty_iff, State.ConsumerBlocked, Mem.readIndex_eq hok.2]
  exact and_iff_right hc

/-- **The capacity is exactly `BUFFER_SIZE`, and there is no deadlock.** With `p` items published
and `c` consumed, `0 ≤ p - c ≤ BUFFER_SIZE` in every reachable state; at its spin test the
producer is blocked if and only if `p - c = BUFFER_SIZE`, and the consumer if and only if
`p = c`; they are never both blocked. -/
theorem capacity_exact
    (h : (((system cfg).restrict NoThrow).withLog Log.empty note).Reachable (s, l)) :
    l.consumed ≤ l.published ∧ l.published ≤ l.consumed + cfg.BUFFER_SIZE ∧
    (∀ k v, s.producer = .spin k v →
      (s.ProducerBlocked ↔ l.published = l.consumed + cfg.BUFFER_SIZE)) ∧
    (s.consumer = .spin → (s.ConsumerBlocked ↔ l.published = l.consumed)) ∧
    ¬ (s.ProducerBlocked ∧ s.ConsumerBlocked) := by
  have hinv := invariant h
  refine ⟨hinv.slots.consumed_le, hinv.slots.published_le, fun k v => hinv.producerBlocked_iff,
    hinv.consumerBlocked_iff, ?_⟩
  rintro ⟨hp, hc⟩
  obtain ⟨k, v, hspin⟩ := hp.1
  have hfull := (hinv.producerBlocked_iff hspin).1 hp
  have hempty := (hinv.consumerBlocked_iff hc.1).1 hc
  have hpos := cfg.size_pos
  omega

end Capacity

/-- A buffer of one slot. -/
def oneSlot : Config := ⟨1, true, by decide, by decide⟩

/-- One item fills the buffer, and the producer is stuck with the next. -/
def fillUp : List (Micro ℕ 1) :=
  [.enqueue .move ![7], .advanceWritten, .testEmpty, .write 0, .fill, .enqueueRet,
   .enqueue .emplace ![8], .advanceWritten, .testEmpty]

/-- The producer is at its spin test, with one item published. -/
def filledUp (q : State ℕ 1 × Log ℕ 1) : Bool :=
  (q.1.producer matches .spin .emplace _) && q.2.published == 1 && q.2.consumed == 0

theorem fillUp_filledUp : (fillUp.foldlM
    (fun q a => (step oneSlot q.1 a).map fun s => (s, note q.1 a q.2))
    ((fresh fun _ => ![0]), Log.empty)).map filledUp = some true := by
  decide +kernel

theorem capacity_exact_fillUp : ∃ (s : State ℕ 1) (l : Log ℕ 1), filledUp (s, l) = true ∧
    l.consumed ≤ l.published ∧ l.published ≤ l.consumed + oneSlot.BUFFER_SIZE ∧
    (∀ k v, s.producer = .spin k v →
      (s.ProducerBlocked ↔ l.published = l.consumed + oneSlot.BUFFER_SIZE)) ∧
    (s.consumer = .spin → (s.ConsumerBlocked ↔ l.published = l.consumed)) ∧
    ¬ (s.ProducerBlocked ∧ s.ConsumerBlocked) := by
  have honly : ∀ s : State ℕ 1, ∀ a ∈ fillUp, NoThrow s a := by
    intro s a ha
    fin_cases ha <;> simp [NoThrow]
  have hinit :
      ((system oneSlot).restrict NoThrow).init (fresh fun _ => ![0] : State ℕ 1) := ⟨_, rfl⟩
  obtain ⟨s, l, hr, hp⟩ := System.exists_logged_of_schedule hinit fillUp_filledUp
    fun s a ha _ hst => ⟨honly s a ha, hst⟩
  exact ⟨s, l, hp, capacity_exact hr⟩

end AstraLib.Spsc
