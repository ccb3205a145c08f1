import AstraLib.Spsc.Model

/-!
# `spscRingBuffer`: first in, first out

Number the items in the order of the `enqueue` calls.  Item `k` goes through slot `k + 1` modulo
`BUFFER_SIZE` on both sides, since both cursors start at `0` and are moved on before they are used.
With `p` items published and `c` consumed, the items from `c` to `p` are in their slots and these
are marked filled, and the slots of the items from `p` to `c + BUFFER_SIZE` are marked empty.  So
the flag that a thread looks at tells it that its slot is not among those of the other thread,
although the two cursors are never compared.

The three parts of the invariant are what is known of the slots (`Slots`), of the producer
(`Producer.Ok`) and of the consumer (`Consumer.Ok`).
-/

namespace AstraLib.Spsc

open Interleaving

section Fifo

variable {ω : Type} {W : ℕ}

/-- The values passed to the `enqueue` calls, the number of items published, the number consumed,
and the values that `dequeue` has returned. -/
structure Log (ω : Type) (W : ℕ) where
  sent : List (Payload ω W)
  published : ℕ
  consumed : ℕ
  received : List (Payload ω W)

/-- Nothing has happened yet. -/
def Log.empty : Log ω W := ⟨[], 0, 0, []⟩

/-- The log after a step. -/
def note (s : State ω W) (a : Micro ω W) (l : Log ω W) : Log ω W :=
  match a, s.consumer with
  | .enqueue _ v, _ => { l with sent := l.sent ++ [v] }
  | .fill, _ => { l with published := l.published + 1 }
  | .release, _ => { l with consumed := l.consumed + 1 }
  | .dequeueRet, .ret v => { l with received := l.received ++ [v] }
  | _, _ => l

/-- No payload operation throws. -/
def NoThrow (_ : State ω W) (a : Micro ω W) : Prop := a ≠ .throw

/-- The slot of item `k`. -/
def Mem.slotOf (cfg : Config) (m : Mem ω W) (k : ℕ) : Slot ω W :=
  m.buffer ((k + 1) % cfg.BUFFER_SIZE)

/-- The words that the consumer has moved out of its slot. -/
def Consumer.moved : Consumer ω W → Fin W → Bool
  | .copy buf, j => (buf j).isSome
  | _, _ => false

/-- What is in the slots. -/
structure Slots (cfg : Config) (m : Mem ω W) (l : Log ω W) (moved : Fin W → Bool) : Prop where
  consumed_le : l.consumed ≤ l.published
  published_le : l.published ≤ l.consumed + cfg.BUFFER_SIZE
  le_length : l.published ≤ l.sent.length
  filled : ∀ k, l.consumed ≤ k → k < l.published → (m.slotOf cfg k).ticket = 1
  empty : ∀ k, l.published ≤ k → k < l.consumed + cfg.BUFFER_SIZE → (m.slotOf cfg k).ticket = 0
  /-- the published items are in their slots, but for the words that the consumer has moved out -/
  data : ∀ k v, l.consumed ≤ k → k < l.published → l.sent[k]? = some v →
    ∀ j, (k = l.consumed → moved j = false) → (m.slotOf cfg k).data j = v j

/-- The value that the producer has been called with is the next one to be published. -/
structure Log.Next (l : Log ω W) (v : Payload ω W) : Prop where
  length : l.sent.length = l.published + 1
  last : l.sent[l.published]? = some v

/-- What is known of the producer. -/
def Producer.Ok (cfg : Config) (m : Mem ω W) (l : Log ω W) : Producer ω W → Prop
  | .idle | .ret =>
      l.sent.length = l.published ∧ m.lastWritten = (l.published % cfg.BUFFER_SIZE : ℕ)
  | .advance _ v => l.Next v ∧ m.lastWritten = (l.published % cfg.BUFFER_SIZE : ℕ)
  | .spin _ v => l.Next v ∧ m.lastWritten = ((l.published + 1) % cfg.BUFFER_SIZE : ℕ)
  | .destroy v =>
      l.Next v ∧ m.lastWritten = ((l.published + 1) % cfg.BUFFER_SIZE : ℕ) ∧
      l.published < l.consumed + cfg.BUFFER_SIZE
  | .copy _ v done =>
      l.Next v ∧ m.lastWritten = ((l.published + 1) % cfg.BUFFER_SIZE : ℕ) ∧
      l.published < l.consumed + cfg.BUFFER_SIZE ∧
      ∀ j ∈ done, (m.slotOf cfg l.published).data j = v j

/-- What is known of the consumer. -/
def Consumer.Ok (cfg : Config) (m : Mem ω W) (l : Log ω W) : Consumer ω W → Prop
  | .idle | .advance =>
      l.received = l.sent.take l.consumed ∧ m.lastRead = (l.consumed % cfg.BUFFER_SIZE : ℕ)
  | .spin =>
      l.received = l.sent.take l.consumed ∧ m.lastRead = ((l.consumed + 1) % cfg.BUFFER_SIZE : ℕ)
  | .copy buf =>
      l.received = l.sent.take l.consumed ∧ m.lastRead = ((l.consumed + 1) % cfg.BUFFER_SIZE : ℕ) ∧
      l.consumed < l.published ∧
      ∀ j x, buf j = some x → ∃ v, l.sent[l.consumed]? = some v ∧ v j = x
  | .ret v =>
      l.received ++ [v] = l.sent.take l.consumed ∧ m.lastRead = (l.consumed % cfg.BUFFER_SIZE : ℕ)

/-- The invariant. -/
structure Inv (cfg : Config) (s : State ω W) (l : Log ω W) : Prop where
  slots : Slots cfg s.mem l s.consumer.moved
  producer : s.producer.Ok cfg s.mem l
  consumer : s.consumer.Ok cfg s.mem l

/-! ### Slots of items -/

/-- Fewer than `BUFFER_SIZE` apart, different items have different slots. -/
theorem slot_ne {cfg : Config} {k k' c : ℕ} (hk : c ≤ k) (hk' : k' < c + cfg.BUFFER_SIZE)
    (hlt : k < k') : (k + 1) % cfg.BUFFER_SIZE ≠ (k' + 1) % cfg.BUFFER_SIZE := by
  intro heq
  have hdvd : cfg.BUFFER_SIZE ∣ k' + 1 - (k + 1) := (Nat.modEq_iff_dvd' (by omega)).1 heq
  have := Nat.le_of_dvd (by omega) hdvd
  omega

theorem slotOf_add_size {cfg : Config} (m : Mem ω W) (k : ℕ) :
    m.slotOf cfg (k + cfg.BUFFER_SIZE) = m.slotOf cfg k := by
  rw [Mem.slotOf, Mem.slotOf, Nat.add_right_comm, Nat.add_mod_right]

variable {cfg : Config} {m m' : Mem ω W} {l l' : Log ω W}

/-- Another item's slot is not touched by a store into the slot of item `n`. -/
theorem slotOf_setTicket_of_ne {n k : ℕ} {x : ℤ}
    (h : (k + 1) % cfg.BUFFER_SIZE ≠ (n + 1) % cfg.BUFFER_SIZE) :
    ((m.setTicket ((n + 1) % cfg.BUFFER_SIZE) x).slotOf cfg k).ticket =
      (m.slotOf cfg k).ticket := by
  rw [Mem.slotOf, setTicket_ticket, if_neg h]; rfl

theorem slotOf_setTicket_self {n : ℕ} {x : ℤ} :
    ((m.setTicket ((n + 1) % cfg.BUFFER_SIZE) x).slotOf cfg n).ticket = x := by
  rw [Mem.slotOf, setTicket_ticket, if_pos rfl]

theorem slotOf_setTicket_data {n k : ℕ} {x : ℤ} :
    ((m.setTicket ((n + 1) % cfg.BUFFER_SIZE) x).slotOf cfg k).data = (m.slotOf cfg k).data :=
  setTicket_data _ _ _ _

theorem slotOf_setData_of_ne {n k : ℕ} {v : Payload ω W}
    (h : (k + 1) % cfg.BUFFER_SIZE ≠ (n + 1) % cfg.BUFFER_SIZE) :
    ((m.setData ((n + 1) % cfg.BUFFER_SIZE) v).slotOf cfg k).data = (m.slotOf cfg k).data := by
  rw [Mem.slotOf, setData_data, if_neg h]; rfl

theorem slotOf_setData_self {n : ℕ} {v : Payload ω W} :
    ((m.setData ((n + 1) % cfg.BUFFER_SIZE) v).slotOf cfg n).data = v := by
  rw [Mem.slotOf, setData_data, if_pos rfl]

/-! ### What one thread knows is not disturbed by the other -/

theorem Consumer.Ok.mono {c : Consumer ω W} (h : c.Ok cfg m l) (hread : m'.lastRead = m.lastRead)
    (hcons : l'.consumed = l.consumed) (hrec : l'.received = l.received)
    (hpub : l.published ≤ l'.published) (hlen : l.consumed ≤ l.sent.length)
    (hsent : l.sent <+: l'.sent) : c.Ok cfg m' l' := by
  have htake : l'.sent.take l.consumed = l.sent.take l.consumed := by
    obtain ⟨r, hr⟩ := hsent
    rw [← hr, List.take_append_of_le_length hlen]
  cases c with
  | copy buf =>
    obtain ⟨h1, h2, h3, h4⟩ := h
    refine ⟨by rw [hrec, hcons, htake, h1], by rw [hread, hcons, h2], by omega, fun j x hx => ?_⟩
    obtain ⟨v, hv, hj⟩ := h4 j x hx
    refine ⟨v, ?_, hj⟩
    obtain ⟨hlt, rfl⟩ := List.getElem?_eq_some_iff.1 hv
    rw [hcons, List.getElem?_eq_some_iff]
    exact ⟨hlt.trans_le hsent.length_le, (hsent.getElem hlt).symm⟩
  | _ => exact ⟨by rw [hrec, hcons, htake, h.1], by rw [hread, hcons, h.2]⟩

theorem Producer.Ok.mono {p : Producer ω W} (h : p.Ok cfg m l)
    (hwr : m'.lastWritten = m.lastWritten) (hpub : l'.published = l.published)
    (hsent : l'.sent = l.sent) (hcons : l.consumed ≤ l'.consumed)
    (hdata : l.published < l.consumed + cfg.BUFFER_SIZE →
      (m'.slotOf cfg l.published).data = (m.slotOf cfg l.published).data) :
    p.Ok cfg m' l' := by
  have hnext : ∀ v, l.Next v → l'.Next v := fun v hv =>
    ⟨by rw [hsent, hpub, hv.length], by rw [hsent, hpub, hv.last]⟩
  cases p with
  | idle => exact ⟨by rw [hsent, hpub, h.1], by rw [hwr, hpub, h.2]⟩
  | ret => exact ⟨by rw [hsent, hpub, h.1], by rw [hwr, hpub, h.2]⟩
  | advance k v => exact ⟨hnext v h.1, by rw [hwr, hpub, h.2]⟩
  | spin k v => exact ⟨hnext v h.1, by rw [hwr, hpub, h.2]⟩
  | destroy v => exact ⟨hnext v h.1, by rw [hwr, hpub, h.2.1], by have := h.2.2; omega⟩
  | copy k v done =>
    obtain ⟨h1, h2, h3, h4⟩ := h
    refine ⟨hnext v h1, by rw [hwr, hpub, h2], by omega, fun j hj => ?_⟩
    rw [hpub, hdata h3]
    exact h4 j hj

/-! ### The slots along the steps of the threads -/

namespace Slots

variable {moved moved' : Fin W → Bool}

theorem frame (h : Slots cfg m l moved) (hbuf : m'.buffer = m.buffer)
    (hmoved : ∀ j, moved' j = false → moved j = false) (hcons : l'.consumed = l.consumed)
    (hpub : l'.published = l.published) (hsent : l.sent <+: l'.sent) : Slots cfg m' l' moved' := by
  have hslot : ∀ k, m'.slotOf cfg k = m.slotOf cfg k := fun k => by rw [Mem.slotOf, hbuf]; rfl
  constructor
  · rw [hcons, hpub]; exact h.consumed_le
  · rw [hcons, hpub]; exact h.published_le
  · rw [hpub]; exact h.le_length.trans hsent.length_le
  · intro k h1 h2
    rw [hslot]
    exact h.filled k (by omega) (by omega)
  · intro k h1 h2
    rw [hslot]
    exact h.empty k (by omega) (by omega)
  · intro k v h1 h2 hv j hj
    rw [hslot]
    have hlt : k < l.sent.length := (hpub ▸ h2).trans_le h.le_length
    refine h.data k v (by omega) (by omega) ?_ j fun hk => hmoved j (hj (by omega))
    rw [List.getElem?_eq_getElem hlt, hsent.getElem hlt]
    rwa [List.getElem?_eq_getElem (hlt.trans_le hsent.length_le)] at hv

/-- The producer finds its slot empty only if there is room. -/
theorem lt_of_empty (h : Slots cfg m l moved) (ht : (m.slotOf cfg l.published).ticket = 0) :
    l.published < l.consumed + cfg.BUFFER_SIZE := by
  by_contra hge
  have heq : l.published = l.consumed + cfg.BUFFER_SIZE := by
    have := h.published_le
    omega
  have hone := h.filled l.consumed le_rfl (by have := cfg.size_pos; omega)
  rw [heq, slotOf_add_size, hone] at ht
  cases ht

/-- The consumer finds its slot filled only if there is an item. -/
theorem lt_of_filled (h : Slots cfg m l moved) (ht : (m.slotOf cfg l.consumed).ticket ≠ 0) :
    l.consumed < l.published := by
  by_contra hge
  have hle := h.consumed_le
  exact ht (h.empty l.consumed (by omega) (by have := cfg.size_pos; omega))

/-- The producer overwrites the payload of an empty slot. -/
theorem write (h : Slots cfg m l moved) (hroom : l.published < l.consumed + cfg.BUFFER_SIZE)
    (v : Payload ω W) : Slots cfg (m.setData ((l.published + 1) % cfg.BUFFER_SIZE) v) l moved := by
  refine ⟨h.consumed_le, h.published_le, h.le_length, fun k h1 h2 => ?_, fun k h1 h2 => ?_, ?_⟩
  · rw [Mem.slotOf, setData_ticket]; exact h.filled k h1 h2
  · rw [Mem.slotOf, setData_ticket]; exact h.empty k h1 h2
  · intro k v' h1 h2 hv j hj
    rw [slotOf_setData_of_ne (slot_ne h1 hroom h2)]
    exact h.data k v' h1 h2 hv j hj

/-- The producer publishes the item that it has written. -/
theorem fill (h : Slots cfg m l moved) {v : Payload ω W} (hnext : l.Next v)
    (hroom : l.published < l.consumed + cfg.BUFFER_SIZE)
    (hv : ∀ j, (m.slotOf cfg l.published).data j = v j) :
    Slots cfg (m.setTicket ((l.published + 1) % cfg.BUFFER_SIZE) 1)
      { l with published := l.published + 1 } moved := by
  constructor
  · exact h.consumed_le.trans (Nat.le_succ _)
  · exact hroom
  · exact hnext.length.ge
  · intro k h1 h2
    rcases Nat.eq_or_lt_of_le (Nat.le_of_lt_succ h2) with rfl | hlt
    · exact slotOf_setTicket_self
    · rw [slotOf_setTicket_of_ne (slot_ne h1 hroom hlt)]
      exact h.filled k h1 hlt
  · intro k h1 h2
    rw [slotOf_setTicket_of_ne (slot_ne h.consumed_le h2 h1).symm]
    exact h.empty k (Nat.le_of_succ_le h1) h2
  · intro k v' h1 h2 hv' j hj
    rw [slotOf_setTicket_data]
    rcases Nat.eq_or_lt_of_le (Nat.le_of_lt_succ h2) with rfl | hlt
    · rw [hnext.last] at hv'
      cases hv'
      exact hv j
    · exact h.data k v' h1 hlt hv' j hj

/-- The consumer moves a word out of its slot. -/
theorem read (h : Slots cfg m l moved) (j₀ : Fin W) (left : ω)
    (hmoved : ∀ j, moved' j = false → j ≠ j₀ ∧ moved j = false) :
    Slots cfg (m.setWord ((l.consumed + 1) % cfg.BUFFER_SIZE) j₀ left) l moved' := by
  refine ⟨h.consumed_le, h.published_le, h.le_length, fun k h1 h2 => ?_, fun k h1 h2 => ?_, ?_⟩
  · rw [Mem.slotOf, Mem.setWord, setData_ticket]; exact h.filled k h1 h2
  · rw [Mem.slotOf, Mem.setWord, setData_ticket]; exact h.empty k h1 h2
  · intro k v h1 h2 hv j hj
    rcases Nat.eq_or_lt_of_le h1 with rfl | hlt
    · obtain ⟨hne, hold⟩ := hmoved j (hj rfl)
      rw [Mem.setWord, slotOf_setData_self, Function.update_of_ne hne]
      exact h.data _ v h1 h2 hv j fun _ => hold
    · have hle := h.published_le
      rw [Mem.setWord, slotOf_setData_of_ne (slot_ne le_rfl (h2.trans_le hle) hlt).symm]
      exact h.data k v h1 h2 hv j fun hk => absurd hk (by omega)

/-- The consumer gives its slot back. -/
theorem release (h : Slots cfg m l moved) (hitem : l.consumed < l.published) :
    Slots cfg (m.setTicket ((l.consumed + 1) % cfg.BUFFER_SIZE) 0)
      { l with consumed := l.consumed + 1 } fun _ => false := by
  have hle := h.published_le
  constructor
  · exact hitem
  · show l.published ≤ l.consumed + 1 + cfg.BUFFER_SIZE
    omega
  · exact h.le_length
  · intro k h1 h2
    rw [slotOf_setTicket_of_ne (slot_ne le_rfl (h2.trans_le hle) h1).symm]
    exact h.filled k (Nat.le_of_succ_le h1) h2
  · intro k h1 h2
    replace h2 : k < l.consumed + 1 + cfg.BUFFER_SIZE := h2
    rcases Nat.lt_or_ge k (l.consumed + cfg.BUFFER_SIZE) with hlt | hge
    · rw [slotOf_setTicket_of_ne (slot_ne le_rfl hlt (hitem.trans_le h1)).symm]
      exact h.empty k h1 hlt
    · obtain rfl : k = l.consumed + cfg.BUFFER_SIZE := by omega
      rw [slotOf_add_size]
      exact slotOf_setTicket_self
  · intro k v h1 h2 hv j _
    replace h1 : l.consumed + 1 ≤ k := h1
    rw [slotOf_setTicket_data]
    exact h.data k v (by omega) h2 hv j fun hk => absurd hk (by omega)

end Slots

/-! ### The cursors -/

theorem Mem.writeIndex_eq {n : ℕ} (h : m.lastWritten = (n % cfg.BUFFER_SIZE : ℕ)) :
    m.writeIndex = n % cfg.BUFFER_SIZE := by
  rw [Mem.writeIndex, h, Int.toNat_natCast]

theorem Mem.readIndex_eq {n : ℕ} (h : m.lastRead = (n % cfg.BUFFER_SIZE : ℕ)) :
    m.readIndex = n % cfg.BUFFER_SIZE := by
  rw [Mem.readIndex, h, Int.toNat_natCast]

/-! ### The consumer -/

/-- What a step of the consumer adds to the log. -/
def Log.consume (q : Consumer ω W) (a : Micro ω W) (l : Log ω W) : Log ω W :=
  match a, q with
  | .release, _ => { l with consumed := l.consumed + 1 }
  | .dequeueRet, .ret v => { l with received := l.received ++ [v] }
  | _, _ => l

/-- A step of the consumer, as far as the slots and the consumer itself are concerned. -/
theorem Slots.consume {q c : Consumer ω W} {a : Micro ω W} (hs : Slots cfg m l q.moved)
    (hc : q.Ok cfg m l) (hx : Consume cfg m q a m' c) :
    Slots cfg m' (l.consume q a) c.moved ∧ c.Ok cfg m' (l.consume q a) := by
  cases hx with
  | call => exact ⟨hs, hc⟩
  | advance =>
    refine ⟨hs.frame rfl (fun _ => id) rfl rfl List.prefix_rfl, hc.1, ?_⟩
    show Spsc.advance cfg m.lastRead = _
    rw [hc.2]
    exact advance_mod cfg l.consumed
  | retry _ => exact ⟨hs, hc⟩
  | pass htest =>
    rw [Mem.readIndex_eq hc.2] at htest
    exact ⟨hs, hc.1, hc.2, hs.lt_of_filled htest, by simp⟩
  | read buf j left hj =>
    obtain ⟨h1, h2, h3, h4⟩ := hc
    rw [Mem.readIndex_eq h2]
    refine ⟨hs.read j left fun j' hj' => ?_, h1, h2, h3, ?_⟩
    · by_cases hne : j' = j
      · subst hne
        simp [Consumer.moved] at hj'
      · exact ⟨hne, by simpa [Consumer.moved, Function.update_of_ne hne] using hj'⟩
    · intro j' x hx
      by_cases hne : j' = j
      · subst hne
        rw [Function.update_self] at hx
        cases hx
        -- the word is read from the item in the slot
        have hlt : l.consumed < l.sent.length := h3.trans_le hs.le_length
        refine ⟨_, List.getElem?_eq_getElem hlt, ?_⟩
        exact (hs.data _ _ le_rfl h3 (List.getElem?_eq_getElem hlt) j' fun _ => by
          simp [Consumer.moved, hj]).symm
      · rw [Function.update_of_ne hne] at hx
        exact h4 j' x hx
  | release buf v hv =>
    obtain ⟨h1, h2, h3, h4⟩ := hc
    rw [Mem.readIndex_eq h2]
    have hlt : l.consumed < l.sent.length := h3.trans_le hs.le_length
    have heq : l.sent[l.consumed] = v := by
      funext j
      obtain ⟨v', hv', hj⟩ := h4 j (v j) (hv j)
      rw [List.getElem?_eq_getElem hlt] at hv'
      cases hv'
      exact hj
    refine ⟨hs.release h3, ?_, h2⟩
    show l.received ++ [v] = l.sent.take (l.consumed + 1)
    rw [List.take_succ_eq_append_getElem hlt, heq, h1]
  | ret v => exact ⟨hs.frame rfl (fun _ => id) rfl rfl List.prefix_rfl, hc.1, hc.2⟩

/-! ### The invariant along a run -/

namespace Inv

variable {s : State ω W} {a : Micro ω W}

theorem init (data : ℕ → Payload ω W) : Inv cfg (fresh data) Log.empty := by
  refine ⟨⟨le_rfl, Nat.zero_le _, le_rfl, by simp [Log.empty], fun _ _ _ => rfl,
    by simp [Log.empty]⟩, ⟨rfl, ?_⟩, ⟨rfl, ?_⟩⟩
  · simp [fresh, Log.empty]
  · simp [fresh, Log.empty]

/-- **Every step of the producer keeps the invariant.** -/
theorem produce (h : Inv cfg s l) {p : Producer ω W} (hx : Produce cfg s.mem s.producer a m p)
    (hthrow : a ≠ .throw) : Inv cfg { s with mem := m, producer := p } (note s a l) := by
  obtain ⟨hs, hp, hc⟩ := h
  have hlen : l.consumed ≤ l.sent.length := hs.consumed_le.trans hs.le_length
  generalize s.producer = q at hx hp
  cases hx with
  | call k v =>
    have hsent : l.sent <+: l.sent ++ [v] := List.prefix_append _ _
    refine ⟨hs.frame rfl (fun _ => id) rfl rfl hsent, ⟨⟨?_, ?_⟩, hp.2⟩,
      hc.mono rfl rfl rfl le_rfl hlen hsent⟩
    · simp [note, hp.1]
    · simp [note, ← hp.1]
  | advance k v =>
    refine ⟨hs.frame rfl (fun _ => id) rfl rfl List.prefix_rfl, ⟨hp.1, ?_⟩,
      hc.mono rfl rfl rfl le_rfl hlen List.prefix_rfl⟩
    show Spsc.advance cfg s.mem.lastWritten = _
    rw [hp.2]
    exact advance_mod cfg l.published
  | retry k v _ => exact ⟨hs, hp, hc⟩
  | pass k v htest =>
    rw [Mem.writeIndex_eq hp.2] at htest
    have hroom := hs.lt_of_empty htest
    refine ⟨hs, ?_, hc⟩
    show (Producer.past cfg k v).Ok cfg s.mem l
    unfold Producer.past
    split_ifs
    · exact ⟨hp.1, hp.2, hroom⟩
    · exact ⟨hp.1, hp.2, hroom, by simp⟩
  | destroy v junk =>
    rw [Mem.writeIndex_eq hp.2.1]
    exact ⟨hs.write hp.2.2 junk, ⟨hp.1, hp.2.1, hp.2.2, by simp⟩,
      hc.mono rfl rfl rfl le_rfl hlen List.prefix_rfl⟩
  | write k v done j hj =>
    obtain ⟨h1, h2, h3, h4⟩ := hp
    rw [Mem.writeIndex_eq h2]
    refine ⟨hs.write h3 _, ⟨h1, h2, h3, fun j' hj' => ?_⟩,
      hc.mono rfl rfl rfl le_rfl hlen List.prefix_rfl⟩
    show ((s.mem.setWord ((l.published + 1) % cfg.BUFFER_SIZE) j (v j)).slotOf cfg
      l.published).data j' = _
    rw [Mem.setWord, slotOf_setData_self]
    rcases Finset.mem_insert.1 hj' with rfl | hdone
    · rw [Function.update_self]
    · have hne : j' ≠ j := by
        rintro rfl
        exact hj hdone
      rw [Function.update_of_ne hne]
      exact h4 j' hdone
  | throw => exact absurd rfl hthrow
  | fill k v =>
    obtain ⟨h1, h2, h3, h4⟩ := hp
    rw [Mem.writeIndex_eq h2]
    exact ⟨hs.fill h1 h3 fun j => h4 j (Finset.mem_univ j), ⟨h1.length, h2⟩,
      hc.mono rfl rfl rfl (Nat.le_succ _) hlen List.prefix_rfl⟩
  | ret => exact ⟨hs, hp, hc⟩

/-- **Every step of the consumer keeps the invariant.** -/
theorem consume (h : Inv cfg s l) {c : Consumer ω W} (hx : Consume cfg s.mem s.consumer a m c) :
    Inv cfg { s with mem := m, consumer := c } (note s a l) := by
  obtain ⟨hs, hp, hc⟩ := h
  obtain ⟨hs', hc'⟩ := hs.consume hc hx
  have hnote : note s a l = l.consume s.consumer a := by
    unfold note Log.consume
    generalize s.consumer = q at hx
    cases hx <;> rfl
  rw [hnote]
  refine ⟨hs', ?_, hc'⟩
  generalize s.consumer = q at hx hc hs
  cases hx with
  | read buf j left hj =>
    obtain ⟨-, h2, h3, -⟩ := hc
    refine hp.mono rfl rfl rfl le_rfl fun hroom => ?_
    rw [Mem.readIndex_eq h2]
    exact slotOf_setData_of_ne (slot_ne le_rfl hroom h3).symm
  | release buf v hv =>
    refine hp.mono rfl rfl rfl (Nat.le_succ _) fun _ => ?_
    rw [Mem.readIndex_eq hc.2.1]
    exact slotOf_setTicket_data
  | _ => exact hp.mono rfl rfl rfl le_rfl fun _ => rfl

end Inv

theorem invariant {s : State ω W}
    (h : (((system cfg).restrict NoThrow).withLog Log.empty note).Reachable (s, l)) :
    Inv cfg s l := by
  have hI : (((system cfg).restrict NoThrow).withLog Log.empty note).IsInvariant
      fun p : State ω W × Log ω W => Inv cfg p.1 p.2 := by
    constructor
    · rintro ⟨s, l⟩ ⟨⟨data, rfl⟩, rfl⟩
      exact .init data
    · rintro ⟨s, l⟩ a ⟨s', l'⟩ - hinv ⟨⟨hthrow, hstep⟩, rfl⟩
      rcases step_cases hstep with ⟨m, p, hx, rfl⟩ | ⟨m, c, hx, rfl⟩
      · exact hinv.produce hx hthrow
      · exact hinv.consume hx
  exact hI.reachable h

/-- The producer is in its payload access. -/
def Producer.accesses : Producer ω W → Bool
  | .destroy _ | .copy _ _ _ => true
  | _ => false

/-- The consumer is in its payload access. -/
def Consumer.accesses : Consumer ω W → Bool
  | .copy _ => true
  | _ => false

/-- The slot that the producer accesses is the one of the next item to be published. -/
theorem Inv.writeIndex_of_accesses {s : State ω W} (h : Inv cfg s l)
    (hpa : s.producer.accesses = true) :
    s.mem.writeIndex = (l.published + 1) % cfg.BUFFER_SIZE ∧
    l.published < l.consumed + cfg.BUFFER_SIZE := by
  have hp := h.producer
  cases hr : s.producer with
  | destroy v => rw [hr] at hp; exact ⟨Mem.writeIndex_eq hp.2.1, hp.2.2⟩
  | copy k v done => rw [hr] at hp; exact ⟨Mem.writeIndex_eq hp.2.1, hp.2.2.1⟩
  | _ => rw [hr] at hpa; cases hpa

/-- The two threads do not access one slot. -/
theorem Inv.writeIndex_ne_readIndex {s : State ω W} (h : Inv cfg s l)
    (hpa : s.producer.accesses = true) (hca : s.consumer.accesses = true) :
    s.mem.writeIndex ≠ s.mem.readIndex := by
  have hc := h.consumer
  obtain ⟨hw, hroom⟩ := h.writeIndex_of_accesses hpa
  cases hq : s.consumer with
  | copy buf =>
    rw [hq] at hc
    obtain ⟨-, hread, hitem, -⟩ := hc
    rw [hw, Mem.readIndex_eq hread]
    exact (slot_ne le_rfl hroom hitem).symm
  | _ => rw [hq] at hca; cases hca

/-- What has been received are the first items. -/
theorem Consumer.Ok.received_isPrefix {m : Mem ω W} {c : Consumer ω W} (h : c.Ok cfg m l) :
    l.received <+: l.sent := by
  cases c with
  | ret v => exact (List.prefix_append _ _).trans (h.1 ▸ List.take_prefix _ _)
  | _ => exact h.1 ▸ List.take_prefix _ _

/-- **First in, first out, with whole payloads.** In every reachable state the values that `dequeue`
has returned are the first ones that were passed to `enqueue` and `emplaceEnqueue`, in the same
order and word for word, and the two threads are not in the payload access of one slot. -/
theorem fifo_whole_payloads {s : State ω W}
    (h : (((system cfg).restrict NoThrow).withLog Log.empty note).Reachable (s, l)) :
    l.received <+: l.sent ∧
    (s.producer.accesses = true → s.consumer.accesses = true →
      s.mem.writeIndex ≠ s.mem.readIndex) := by
  have hinv := invariant h
  exact ⟨hinv.consumer.received_isPrefix, hinv.writeIndex_ne_readIndex⟩

end Fifo

/-- A buffer of three slots, for payloads with a destructor. -/
def threeSlots : Config := ⟨3, false, by decide, by decide⟩

/-- One value goes through the buffer, and the consumer waits for it before and after. -/
def oneItem : List (Micro ℕ 2) :=
  [.dequeue, .advanceRead, .enqueue .emplace ![7, 8], .advanceWritten, .testEmpty, .testFilled,
   .destroy ![0, 0], .write 1, .write 0, .fill, .testFilled, .read 0 0, .enqueueRet,
   .enqueue .move ![9, 9], .advanceWritten, .testEmpty, .write 0, .read 1 0, .release, .dequeueRet]

theorem oneItem_received : (oneItem.foldlM
    (fun q a => (step threeSlots q.1 a).map fun s => (s, note q.1 a q.2))
    ((fresh fun _ => ![0, 0]), Log.empty)).map
      (fun q => q.2.received == [![7, 8]] && q.2.sent == [![7, 8], ![9, 9]]) = some true := by
  decide +kernel

theorem fifo_whole_payloads_oneItem : ∃ (s : State ℕ 2) (l : Log ℕ 2),
    l.received = [![7, 8]] ∧ l.sent = [![7, 8], ![9, 9]] ∧ l.received <+: l.sent ∧
    (s.producer.accesses = true → s.consumer.accesses = true →
      s.mem.writeIndex ≠ s.mem.readIndex) := by
  have honly : ∀ s : State ℕ 2, ∀ a ∈ oneItem, NoThrow s a := by
    intro s a ha
    fin_cases ha <;> simp [NoThrow]
  have hinit : ((system threeSlots).restrict NoThrow).init (fresh fun _ => ![0, 0] : State ℕ 2) :=
    ⟨_, rfl⟩
  obtain ⟨s, l, hr, hp⟩ := System.exists_logged_of_schedule hinit oneItem_received
    fun s a ha _ hst => ⟨honly s a ha, hst⟩
  simp only [Bool.and_eq_true, beq_iff_eq] at hp
  exact ⟨s, l, hp.1, hp.2, fifo_whole_payloads hr⟩

end AstraLib.Spsc
