import AstraLib.Spsc.Capacity

/-!
# `spscRingBuffer`: payloads that throw

The producer moves its cursor on before it writes the payload.  If that throws, the cursor stays
where it is and the next item goes into the slot after it, while the consumer looks for the item in
the slot that was left out.  After `f` failures the producer is `f` slots ahead of the consumer's
count, and the two agree on the slot of an item if and only if `f` is a multiple of `BUFFER_SIZE`
(`Aligned`).  With a single slot they always do.

An assignment that throws leaves an object in the slot, if with any value.  An `emplaceEnqueue` that
throws does not: the old object has been destroyed, or its storage reused, and the new one has not
been constructed.  A later call that assigns to such a dead object or destroys it once more has no
defined behaviour; `Defined` says that a step does not.
-/

namespace AstraLib.Spsc

open Interleaving

variable {ω : Type} {W : ℕ}

/-- The values whose `enqueue` calls have succeeded, the number of calls that have thrown, the
number of items consumed, and the values that `dequeue` has returned. -/
structure Deliveries (ω : Type) (W : ℕ) where
  succeeded : List (Payload ω W)
  failed : ℕ
  consumed : ℕ
  received : List (Payload ω W)
  /-- the slots without a live object, between an `emplaceEnqueue` that throws and one
  that succeeds -/
  dead : Finset ℕ

/-- Nothing has happened yet. -/
def Deliveries.none : Deliveries ω W := ⟨[], 0, 0, [], ∅⟩

/-- The deliveries after a step. -/
def deliver (s : State ω W) (a : Micro ω W) (d : Deliveries ω W) : Deliveries ω W :=
  match a, s.producer, s.consumer with
  | .fill, .copy .move v _, _ => { d with succeeded := d.succeeded ++ [v] }
  | .fill, .copy .emplace v _, _ =>
      { d with succeeded := d.succeeded ++ [v], dead := d.dead.erase s.mem.writeIndex }
  | .throw, .copy .move _ _, _ => { d with failed := d.failed + 1 }
  | .throw, .copy .emplace _ _, _ =>
      { d with failed := d.failed + 1, dead := insert s.mem.writeIndex d.dead }
  | .release, _, _ => { d with consumed := d.consumed + 1 }
  | .dequeueRet, _, .ret v => { d with received := d.received ++ [v] }
  | _, _, _ => d

/-- The log of a buffer on which only the successful calls have been made. -/
def Deliveries.log (d : Deliveries ω W) : Log ω W :=
  ⟨d.succeeded, d.succeeded.length, d.consumed, d.received⟩

/-- The step belongs to an assignment to the object in the slot, or to its destruction. -/
def Producer.uses : Producer ω W → Micro ω W → Bool
  | .destroy _, .destroy _ => true
  | .copy .move _ _, .write _ | .copy .move _ _, .throw | .copy .move _ _, .fill => true
  | _, _ => false

/-- No dead object is assigned to, and none is destroyed. -/
def Defined (p : State ω W × Deliveries ω W) (a : Micro ω W) : Prop :=
  p.1.producer.uses a = true → p.1.mem.writeIndex ∉ p.2.dead

instance (p : State ω W × Deliveries ω W) (a : Micro ω W) : Decidable (Defined p a) :=
  inferInstanceAs (Decidable (_ → _))

/-- The runs that are defined. -/
def throwing (cfg : Config) : System (State ω W × Deliveries ω W) (Micro ω W) :=
  ((system cfg).withLog Deliveries.none deliver).restrict Defined

/-- When an item is published, the number of failures so far is a multiple of `BUFFER_SIZE`. -/
def Aligned (cfg : Config) (p : State ω W × Deliveries ω W) (a : Micro ω W) : Prop :=
  a = .fill → cfg.BUFFER_SIZE ∣ p.2.failed

/-- What is known of the producer. The slot that it writes to is empty. -/
def Producer.Ahead (cfg : Config) (m : Mem ω W) (n : ℕ) : Producer ω W → Prop
  | .idle | .ret | .advance _ _ => m.lastWritten = (n % cfg.BUFFER_SIZE : ℕ)
  | .spin _ _ => m.lastWritten = ((n + 1) % cfg.BUFFER_SIZE : ℕ)
  | .destroy _ =>
      m.lastWritten = ((n + 1) % cfg.BUFFER_SIZE : ℕ) ∧ (m.buffer m.writeIndex).ticket = 0
  | .copy _ v done =>
      m.lastWritten = ((n + 1) % cfg.BUFFER_SIZE : ℕ) ∧ (m.buffer m.writeIndex).ticket = 0 ∧
      ∀ j ∈ done, (m.buffer m.writeIndex).data j = v j

/-- The invariant of the runs with failures. -/
structure Skips (cfg : Config) (s : State ω W) (d : Deliveries ω W) : Prop where
  slots : Slots cfg s.mem d.log s.consumer.moved
  producer : s.producer.Ahead cfg s.mem (d.succeeded.length + d.failed)
  consumer : s.consumer.Ok cfg s.mem d.log
  /-- the items that are unread are live objects -/
  live : ∀ k, d.consumed ≤ k → k < d.succeeded.length → (k + 1) % cfg.BUFFER_SIZE ∉ d.dead

variable {cfg : Config} {s : State ω W} {d : Deliveries ω W} {m : Mem ω W} {a : Micro ω W}

/-- No item is in a slot that is empty. -/
theorem Slots.ne_of_empty {l : Log ω W} {moved : Fin W → Bool} (h : Slots cfg m l moved) {i k : ℕ}
    (hi : (m.buffer i).ticket = 0) (h1 : l.consumed ≤ k) (h2 : k < l.published) :
    (k + 1) % cfg.BUFFER_SIZE ≠ i := by
  rintro rfl
  cases (h.filled k h1 h2).symm.trans hi

/-- Whatever is written to a slot that is empty, the items are not touched. -/
theorem Slots.write_empty {l : Log ω W} {moved : Fin W → Bool} (h : Slots cfg m l moved) {i : ℕ}
    (hi : (m.buffer i).ticket = 0) (v : Payload ω W) : Slots cfg (m.setData i v) l moved := by
  refine ⟨h.consumed_le, h.published_le, h.le_length, fun k h1 h2 => ?_, fun k h1 h2 => ?_, ?_⟩
  · rw [Mem.slotOf, setData_ticket]; exact h.filled k h1 h2
  · rw [Mem.slotOf, setData_ticket]; exact h.empty k h1 h2
  · intro k v' h1 h2 hv j hj
    rw [Mem.slotOf, setData_data, if_neg (h.ne_of_empty hi h1 h2)]
    exact h.data k v' h1 h2 hv j hj

/-- The producer is not disturbed by steps that leave its slot alone. -/
theorem Producer.Ahead.mono {p : Producer ω W} {m' : Mem ω W} {n : ℕ} (h : p.Ahead cfg m n)
    (hw : m'.lastWritten = m.lastWritten)
    (hslot : (m.buffer m.writeIndex).ticket = 0 → (m'.buffer m.writeIndex).ticket = 0 ∧
      (m'.buffer m.writeIndex).data = (m.buffer m.writeIndex).data) : p.Ahead cfg m' n := by
  have hindex : m'.writeIndex = m.writeIndex := by rw [Mem.writeIndex, hw]; rfl
  cases p with
  | destroy v =>
    obtain ⟨h1, h2⟩ := h
    exact ⟨hw.trans h1, by rw [hindex]; exact (hslot h2).1⟩
  | copy k v done =>
    obtain ⟨h1, h2, h3⟩ := h
    refine ⟨hw.trans h1, by rw [hindex]; exact (hslot h2).1, fun j hj => ?_⟩
    rw [hindex, (hslot h2).2]
    exact h3 j hj
  | _ => exact hw.trans h

namespace Skips

theorem init (data : ℕ → Payload ω W) : Skips cfg (fresh data) Deliveries.none := by
  refine ⟨⟨le_rfl, Nat.zero_le _, le_rfl, by simp [Deliveries.none, Deliveries.log],
    fun _ _ _ => rfl, by simp [Deliveries.none, Deliveries.log]⟩, ?_, ⟨rfl, ?_⟩,
    fun _ _ _ => by simp [Deliveries.none]⟩
  · show (fresh data).mem.lastWritten = _
    simp [fresh, Deliveries.none]
  · simp [fresh, Deliveries.none, Deliveries.log]

/-- **Every step of the producer keeps the invariant**, as long as it publishes
nothing out of turn. -/
theorem produce (h : Skips cfg s d) {p : Producer ω W} (hx : Produce cfg s.mem s.producer a m p)
    (hdefined : Defined (s, d) a) (haligned : Aligned cfg (s, d) a) :
    Skips cfg { s with mem := m, producer := p } (deliver s a d) := by
  obtain ⟨hs, hp, hc, hlive⟩ := h
  have hlen : d.log.consumed ≤ d.log.sent.length := hs.consumed_le
  unfold deliver
  unfold Defined at hdefined
  simp only at hdefined
  generalize s.producer = q at hx hp hdefined
  cases hx with
  | call k v => exact ⟨hs, hp, hc, hlive⟩
  | advance k v =>
    refine ⟨hs.frame rfl (fun _ => id) rfl rfl List.prefix_rfl, ?_,
      hc.mono rfl rfl rfl le_rfl hlen List.prefix_rfl, hlive⟩
    show Spsc.advance cfg s.mem.lastWritten = _
    rw [show s.mem.lastWritten = _ from hp]
    exact advance_mod cfg _
  | retry k v _ => exact ⟨hs, hp, hc, hlive⟩
  | pass k v htest =>
    refine ⟨hs, ?_, hc, hlive⟩
    show (Producer.past cfg k v).Ahead cfg s.mem _
    unfold Producer.past
    split_ifs
    · exact ⟨hp, htest⟩
    · exact ⟨hp, htest, by simp⟩
  | destroy v junk =>
    refine ⟨hs.write_empty hp.2 junk, ⟨hp.1, ?_, by simp⟩,
      hc.mono rfl rfl rfl le_rfl hlen List.prefix_rfl, hlive⟩
    rw [setData_ticket]
    exact hp.2
  | write k v done j hj =>
    obtain ⟨h1, h2, h3⟩ := hp
    refine ⟨hs.write_empty h2 _, ⟨h1, ?_, fun j' hj' => ?_⟩,
      hc.mono rfl rfl rfl le_rfl hlen List.prefix_rfl, hlive⟩
    · rw [Mem.setWord, setData_ticket]
      exact h2
    · show ((s.mem.setWord s.mem.writeIndex j (v j)).buffer s.mem.writeIndex).data j' = _
      rw [Mem.setWord, setData_data, if_pos rfl]
      by_cases hne : j' = j
      · rw [hne, Function.update_self]
      · rw [Function.update_of_ne hne]
        exact h3 j' (Finset.mem_of_mem_insert_of_ne hj' hne)
  | throw k v done =>
    cases k with
    | move => exact ⟨hs, hp.1, hc, hlive⟩
    | emplace =>
      refine ⟨hs, hp.1, hc, fun k h1 h2 hk => ?_⟩
      rcases Finset.mem_insert.1 hk with heq | hk
      · exact hs.ne_of_empty hp.2.1 h1 h2 heq
      · exact hlive k h1 h2 hk
  | fill k v =>
    obtain ⟨h1, h2, h3⟩ := hp
    -- the slot is the one in which the consumer expects the item
    have hindex : s.mem.writeIndex = (d.log.published + 1) % cfg.BUFFER_SIZE := by
      obtain ⟨c, hc⟩ := haligned rfl
      rw [Mem.writeIndex_eq h1]
      simp only at hc
      rw [hc, Nat.add_right_comm, Nat.add_mul_mod_self_left]
      rfl
    have hroom := hs.lt_of_empty (by rw [hindex] at h2; exact h2)
    have hsent : d.succeeded <+: d.succeeded ++ [v] := List.prefix_append _ _
    have hs' : Slots cfg s.mem { d.log with sent := d.succeeded ++ [v] } s.consumer.moved :=
      hs.frame rfl (fun _ => id) rfl rfl hsent
    have hnext : ({ d.log with sent := d.succeeded ++ [v] } : Log ω W).Next v :=
      ⟨by simp [Deliveries.log], by simp [Deliveries.log]⟩
    have hdata : ∀ j, (s.mem.slotOf cfg d.log.published).data j = v j := by
      intro j
      rw [Mem.slotOf, ← hindex]
      exact h3 j (Finset.mem_univ j)
    have hfill := hs'.fill hnext hroom hdata
    have hpast : s.mem.lastWritten =
        (((d.succeeded ++ [v]).length + d.failed) % cfg.BUFFER_SIZE : ℕ) := by
      rw [h1, List.length_append, List.length_singleton, Nat.add_right_comm]
    have hc' : s.consumer.Ok cfg (s.mem.setTicket s.mem.writeIndex 1)
        { d with succeeded := d.succeeded ++ [v] }.log :=
      hc.mono rfl rfl rfl (by simp [Deliveries.log]) hlen hsent
    -- so is the item that is published
    have hlive' : ∀ dead ⊆ d.dead, s.mem.writeIndex ∉ dead → ∀ k, d.consumed ≤ k →
        k < (d.succeeded ++ [v]).length → (k + 1) % cfg.BUFFER_SIZE ∉ dead := by
      intro dead hdead hfilled k hk hlt
      rw [List.length_append, List.length_singleton] at hlt
      rcases Nat.lt_succ_iff_lt_or_eq.1 hlt with hlt | rfl
      · exact fun hmem => hlive k hk hlt (hdead hmem)
      · rw [hindex] at hfilled
        exact hfilled
    cases k with
    | move =>
      refine ⟨?_, hpast, hc', hlive' _ subset_rfl (hdefined rfl)⟩
      rw [hindex]
      simpa [Deliveries.log] using hfill
    | emplace =>
      refine ⟨?_, hpast, hc', hlive' _ (Finset.erase_subset _ _) (Finset.notMem_erase _ _)⟩
      rw [hindex]
      simpa [Deliveries.log] using hfill
  | ret => exact ⟨hs, hp, hc, hlive⟩

/-- **Every step of the consumer keeps the invariant.** -/
theorem consume (h : Skips cfg s d) {c : Consumer ω W} (hx : Consume cfg s.mem s.consumer a m c) :
    Skips cfg { s with mem := m, consumer := c } (deliver s a d) := by
  obtain ⟨hs, hp, hc, hlive⟩ := h
  obtain ⟨hs', hc'⟩ := hs.consume hc hx
  have hlog : (deliver s a d).log = d.log.consume s.consumer a ∧
      (deliver s a d).succeeded = d.succeeded ∧ (deliver s a d).failed = d.failed ∧
      (deliver s a d).dead = d.dead ∧ d.consumed ≤ (deliver s a d).consumed := by
    unfold deliver Log.consume
    generalize s.consumer = q at hx
    cases hx
    case release => exact ⟨rfl, rfl, rfl, rfl, Nat.le_succ _⟩
    all_goals exact ⟨rfl, rfl, rfl, rfl, le_rfl⟩
  obtain ⟨hlog, hsucceeded, hfailed, hdead, hconsumed⟩ := hlog
  refine ⟨hlog ▸ hs', ?_, hlog ▸ hc', fun k h1 h2 => ?_⟩
  swap
  · rw [hdead]
    exact hlive k (hconsumed.trans h1) (hsucceeded ▸ h2)
  rw [hsucceeded, hfailed]
  generalize s.consumer = q at hx hc hs
  cases hx with
  | read buf j left hj =>
    obtain ⟨-, h2, h3, -⟩ := hc
    refine hp.mono rfl fun h0 => ?_
    -- the slot of the consumer is filled, the one of the producer is not
    have hne : s.mem.writeIndex ≠ s.mem.readIndex := by
      intro heq
      have hone := hs.filled d.log.consumed le_rfl h3
      rw [Mem.slotOf, ← Mem.readIndex_eq h2, ← heq] at hone
      cases hone.symm.trans h0
    rw [Mem.setWord, setData_ticket, setData_data, if_neg hne]
    exact ⟨h0, rfl⟩
  | release buf v hv =>
    refine hp.mono rfl fun h0 => ?_
    rw [setTicket_ticket, setTicket_data, h0]
    exact ⟨ite_self 0, rfl⟩
  | _ => exact hp.mono rfl fun h0 => ⟨h0, rfl⟩

theorem reachable {p : State ω W × Deliveries ω W}
    (h : ((throwing cfg).restrict (Aligned cfg)).Reachable p) : Skips cfg p.1 p.2 := by
  have hI : ((throwing cfg).restrict (Aligned cfg)).IsInvariant
      fun p : State ω W × Deliveries ω W => Skips cfg p.1 p.2 := by
    constructor
    · rintro ⟨s, d⟩ ⟨⟨data, rfl⟩, rfl⟩
      exact .init data
    · rintro ⟨s, d⟩ a ⟨s', d'⟩ - hinv ⟨haligned, hdefined, hstep, rfl⟩
      rcases step_cases hstep with ⟨m, p, hx, rfl⟩ | ⟨m, c, hx, rfl⟩
      · exact hinv.produce hx hdefined haligned
      · exact hinv.consume hx
  exact hI.reachable h

end Skips

/-- Nor does the consumer move from a dead object in these runs. -/
theorem readIndex_notMem_dead {p : State ω W × Deliveries ω W}
    (h : ((throwing cfg).restrict (Aligned cfg)).Reachable p) {buf : Fin W → Option ω}
    (hbuf : p.1.consumer = .copy buf) : p.1.mem.readIndex ∉ p.2.dead := by
  have hinv := Skips.reachable h
  have hc := hinv.consumer
  rw [hbuf] at hc
  obtain ⟨-, hread, hlt, -⟩ := hc
  rw [Mem.readIndex_eq hread]
  exact hinv.live _ le_rfl hlt

end AstraLib.Spsc
