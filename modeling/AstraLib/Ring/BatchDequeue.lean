import AstraLib.Ring.Sequential
import AstraLib.Ring.Stream

/-!
# `AtomicRingBuffer`: `batchDequeue` and `dequeue`

The loop of `batchDequeue` is the body of `dequeue`, so that a batch leaves the queue as that many
calls of `dequeue` do.  How many is up to the clamp, `if(count > BATCH_SIZE) count = BATCH_SIZE;`,
which compares an `int` with a `std::size_t`: the conversion makes a negative count a huge one, and
`BATCH_SIZE` items are taken instead of none.
-/

namespace AstraLib.Ring

open Interleaving Relation

variable {ω : Type} {W : ℕ} {cfg : Config}

/-- Calls of `dequeue()`, one after the other, and the values that they return. -/
inductive Dequeues (cfg : Config) : Mem ℕ ω W → List (Payload ω W) → Mem ℕ ω W → Prop
  | nil {m : Mem ℕ ω W} : Dequeues cfg m [] m
  | cons {m m' m'' : Mem ℕ ω W} {t : ℕ} {v : Payload ω W} {vs : List (Payload ω W)}
      (hpath : ReflTransGen (Alone cfg) (m, .deqClaim .result) (m', .deqReturn t v))
      (h : Dequeues cfg m' vs m'') : Dequeues cfg m (v :: vs) m''

/-- The two objects hold the same items at the same positions: the counters, the sequence numbers
and the payloads that have not been dequeued are the same. -/
structure SameItems (cfg : Config) (m m' : Mem ℕ ω W) : Prop where
  writeTicket : m'.writeTicket = m.writeTicket
  readTicket : m'.readTicket = m.readTicket
  seq : ∀ i < cfg.SIZE, (m'.buffer i).seq = (m.buffer i).seq
  data : ∀ t, m.readTicket ≤ t → t < m.writeTicket → (m'.slotOf cfg t).data = (m.slotOf cfg t).data

/-- `batchDequeue(count)` does what `n` calls of `dequeue()` do. Both complete, and
however the words of the payloads are moved they leave the same items, with the values in
the array that the calls return. -/
structure Agrees (cfg : Config) (m : Mem ℕ ω W) (count : ℤ) (n : ℕ) : Prop where
  batchDequeue : Ensures (Alone cfg) (fun q => q.2 = .batchReturn)
    (m, (Call.batchDequeue count).entry cfg)
  dequeue : ∃ vs m', vs.length = n ∧ Dequeues cfg m vs m'
  same : ∀ m₁ vs m₂, ReflTransGen (Alone cfg) (m, (Call.batchDequeue count).entry cfg)
    (m₁, .batchReturn) →
    Dequeues cfg m vs m₂ → vs.length = n →
    SameItems cfg m₂ m₁ ∧ ∀ i v, vs[i]? = some v → m₁.batchDequeueArray i = v

namespace Holds

variable {m m' : Mem ℕ ω W} {o : List (Option (Payload ω W))} {vs : List (Payload ω W)}

theorem sameItems (h : Holds cfg m (vs.map some)) (h' : Holds cfg m' (vs.map some))
    (hr : m'.readTicket = m.readTicket) : SameItems cfg m m' := by
  obtain ⟨hw, hseq⟩ := h.unique h' hr
  refine ⟨hw, hr, hseq, fun t hle hlt => ?_⟩
  -- both slots hold the payload of ticket `t`
  have hlen := h.writeTicket_eq
  rw [List.length_map] at hlen
  obtain ⟨i, rfl⟩ := Nat.exists_eq_add_of_le hle
  have hi : i < vs.length := by omega
  have hv : (vs.map some)[i]?.join = some vs[i] := by simp [hi]
  have h1 := h.full i _ hv
  have h2 := h'.full i _ hv
  rw [hr] at h2
  rw [h1, h2]

/-- The calls return the oldest payloads in order. -/
theorem dequeues {us : List (Payload ω W)} (h : Holds cfg m (vs.map some ++ o))
    (hd : Dequeues cfg m us m') (hlen : us.length = vs.length) :
    us = vs ∧ Holds cfg m' o ∧ m'.readTicket = m.readTicket + vs.length := by
  induction hd generalizing vs with
  | nil =>
    obtain rfl : vs = [] := List.eq_nil_of_length_eq_zero hlen.symm
    exact ⟨rfl, h, rfl⟩
  | @cons m m₁ m' t u us hpath _ ih =>
    cases vs with
    | nil => cases hlen
    | cons v vs =>
      obtain ⟨hp, hm₁, hr₁, -⟩ :=
        ensured (h.dequeue .result) (by rintro q ⟨hq, -⟩; rw [hq]; rfl) hpath rfl
      obtain ⟨-, rfl⟩ : t = m.readTicket ∧ u = v := by simpa [Pc.deqPast] using hp
      obtain ⟨rfl, hm', hr'⟩ := ih hm₁ (Nat.succ.inj hlen)
      refine ⟨rfl, hm', ?_⟩
      rw [List.length_cons]
      simp only at hr₁
      omega

theorem exists_dequeues (h : Holds cfg m (vs.map some ++ o)) : ∃ m', Dequeues cfg m vs m' := by
  induction vs generalizing m with
  | nil => exact ⟨m, .nil⟩
  | cons v vs ih =>
    obtain ⟨⟨m₁, p₁⟩, hpath, rfl, hm₁, -⟩ := (h.dequeue .result).exists_path
    obtain ⟨m', hm'⟩ := ih hm₁
    exact ⟨m', .cons hpath hm'⟩

/-- A batch does what as many calls of `dequeue()` do as the clamp lets through. -/
theorem agrees {us : List (Payload ω W)} (h : Holds cfg m (vs.map some ++ us.map some)) {count : ℤ}
    (hlen : vs.length = (clampCount cfg count).toNat) : Agrees cfg m count vs.length := by
  have hbatch := h.batchLoop 0 (clampCount cfg count) (by simp [hlen])
  refine ⟨hbatch.mono fun q hq => hq.1, ?_, fun m₁ vs' m₂ hpath hd hlen' => ?_⟩
  · obtain ⟨m', hd⟩ := h.exists_dequeues
    exact ⟨vs, m', rfl, hd⟩
  · obtain ⟨-, hm₁, hr₁, -, harr⟩ := ensured hbatch (by rintro q ⟨hq, -⟩; rw [hq]; rfl) hpath rfl
    obtain ⟨rfl, hm₂, hr₂⟩ := h.dequeues hd hlen'
    refine ⟨hm₂.sameItems hm₁ (hr₁.trans hr₂.symm), fun i v hv => ?_⟩
    have hi := harr i
    rwa [hv, Nat.zero_add] at hi

end Holds

/-- The comparison takes a negative count for a huge one. -/
theorem clampCount_of_neg (hcfg : cfg.BATCH_SIZE < 2 ^ 31) {n : ℤ} (h0 : n < 0) (hn : -2 ^ 31 ≤ n) :
    clampCount cfg n = cfg.BATCH_SIZE := by
  have hsize : toSize n = n + 2 ^ 64 := by
    unfold toSize
    omega
  unfold clampCount
  rw [hsize, toInt_of_lt hcfg, if_pos (by omega)]

/-- A negative count takes items all the same. -/
theorem Holds.not_agrees {m : Mem ℕ ω W} {vs : List (Payload ω W)} {o : List (Option (Payload ω W))}
    (h : Holds cfg m (vs.map some ++ o)) (hlen : vs.length = cfg.BATCH_SIZE)
    (hpos : 1 ≤ cfg.BATCH_SIZE) (hcfg : cfg.BATCH_SIZE < 2 ^ 31) {count : ℤ} (h0 : count < 0)
    (hlow : -2 ^ 31 ≤ count) : ¬ Agrees cfg m count 0 := by
  intro hagrees
  have hclamp := clampCount_of_neg hcfg h0 hlow
  have hbatch := h.batchLoop 0 (clampCount cfg count) (by rw [hclamp, hlen]; simp)
  obtain ⟨⟨m₁, p₁⟩, hpath, rfl, -, hr₁, -⟩ := hbatch.exists_path
  obtain ⟨hsame, -⟩ := hagrees.same m₁ [] m hpath .nil rfl
  have hr := hsame.readTicket
  simp only at hr₁
  omega

/-- The items in the queue, split after the first `n`. -/
theorem exists_holds {Tid : Type} [DecidableEq Tid] {s : State Tid ℕ ℕ ω W}
    (h : (system (unbounded cfg) cfg).Reachable s) (hidle : ∀ θ, s.pc θ = .idle) {n : ℕ}
    (hn : s.mem.readTicket + n ≤ s.mem.writeTicket) :
    ∃ vs us : List (Payload ω W), vs.length = n ∧ Holds cfg s.mem (vs.map some ++ us.map some) := by
  obtain ⟨l, hl⟩ := h.exists_log Log.empty logNote
  obtain ⟨ht, hc⟩ := invariants hl
  refine ⟨((l.writers.drop s.mem.readTicket).map Prod.snd).take n,
    ((l.writers.drop s.mem.readTicket).map Prod.snd).drop n, ?_, ?_⟩
  · have := ht.writeTicket_eq
    simp only [List.length_take, List.length_map, List.length_drop]
    omega
  · rw [← List.map_append, List.take_append_drop, List.map_map]
    exact ht.holds hc hidle

/-- **`batchDequeue` against `dequeue`.** With at least `BATCH_SIZE` items in the queue and no other
call in progress, `batchDequeue(count)` does what `max(0, min(count, BATCH_SIZE))` calls of
`dequeue()` do, if and only if the count is not negative. -/
theorem batchDequeue_agrees_iff {Tid : Type} [DecidableEq Tid] {s : State Tid ℕ ℕ ω W}
    (h : (system (unbounded cfg) cfg).Reachable s) (hidle : ∀ θ, s.pc θ = .idle)
    (hitems : s.mem.readTicket + cfg.BATCH_SIZE ≤ s.mem.writeTicket) (hpos : 1 ≤ cfg.BATCH_SIZE)
    (hmax : cfg.BATCH_SIZE ≤ 2 ^ 31 - 1) {count : ℤ} (hlow : -2 ^ 31 ≤ count)
    (hhigh : count < 2 ^ 31) :
    Agrees cfg s.mem count (max 0 (min count cfg.BATCH_SIZE)).toNat ↔ 0 ≤ count := by
  have hcfg : cfg.BATCH_SIZE < 2 ^ 31 := by omega
  constructor
  · intro hagrees
    by_contra hneg
    have hzero : (max 0 (min count cfg.BATCH_SIZE)).toNat = 0 := by omega
    rw [hzero] at hagrees
    obtain ⟨vs, us, hlen, hvs⟩ := exists_holds h hidle hitems
    exact hvs.not_agrees hlen hpos hcfg (not_le.1 hneg) hlow hagrees
  · intro h0
    have hclamp := clampCount_eq hcfg h0 hhigh
    have hcount : (max 0 (min count cfg.BATCH_SIZE)).toNat = (min count cfg.BATCH_SIZE).toNat := by
      omega
    have hle : (min count cfg.BATCH_SIZE).toNat ≤ cfg.BATCH_SIZE := by omega
    obtain ⟨vs, us, hlen, hvs⟩ := exists_holds h hidle ((Nat.add_le_add_left hle _).trans hitems)
    rw [hcount, ← hlen]
    exact hvs.agrees (by rw [hclamp, hlen]; rfl)

/-- Two slots, and batches of one item. -/
def oneByOne : Config := { smallest with BATCH_SIZE := 1 }

/-- One item is enqueued. -/
def enqueueSeven : List (Unit × Micro ℕ 1) :=
  [((), .call (.enqueue .move ![7])), ((), .claim), ((), .spin), ((), .copy 0 0),
    ((), .publish), ((), .ret)]

/-- There is one item, and no call is in progress. -/
def holdsOne (s : State Unit ℕ ℕ ℕ 1) : Bool :=
  (s.pc () matches .idle) && s.mem.readTicket == 0 && s.mem.writeTicket == 1

theorem enqueueSeven_holdsOne : (enqueueSeven.foldlM (step (unbounded oneByOne) oneByOne)
    (fresh (unbounded oneByOne) oneByOne (fun _ => ![0]) fun _ => ![0])).map holdsOne =
      some true := by
  decide +kernel

theorem exists_holdsOne : ∃ s : State Unit ℕ ℕ ℕ 1,
    (system (unbounded oneByOne) oneByOne).Reachable s ∧
    (∀ θ, s.pc θ = .idle) ∧ s.mem.readTicket = 0 ∧ s.mem.writeTicket = 1 := by
  have hinit : (system (unbounded oneByOne) oneByOne).init
      (fresh (unbounded oneByOne) oneByOne (fun _ => ![0]) fun _ => ![0] : State Unit ℕ ℕ ℕ 1) :=
    ⟨_, _, rfl⟩
  obtain ⟨s, hs, hp⟩ :=
    System.exists_reachable_of_schedule hinit enqueueSeven_holdsOne fun _ _ _ _ hst => hst
  simp only [holdsOne, Bool.and_eq_true, beq_iff_eq] at hp
  refine ⟨s, hs, fun θ => ?_, hp.1.2, hp.2⟩
  cases hpc : s.pc θ with
  | idle => rfl
  | _ =>
    rw [hpc] at hp
    cases hp.1.1

theorem batchDequeue_agrees_seven : ∃ s : State Unit ℕ ℕ ℕ 1,
    (system (unbounded oneByOne) oneByOne).Reachable s ∧ Agrees oneByOne s.mem 5 1 := by
  obtain ⟨s, hs, hidle, hr, hw⟩ := exists_holdsOne
  exact ⟨s, hs, (batchDequeue_agrees_iff hs hidle (by rw [hr, hw]; decide) (by decide)
    (by decide) (by decide) (by decide)).2 (by decide)⟩

/-- `batchDequeue(-1)` takes an item. -/
theorem batchDequeue_negative_disagrees : ∃ s : State Unit ℕ ℕ ℕ 1,
    (system (unbounded oneByOne) oneByOne).Reachable s ∧ (∀ θ, s.pc θ = .idle) ∧
    s.mem.readTicket + oneByOne.BATCH_SIZE ≤ s.mem.writeTicket ∧
    ¬ Agrees oneByOne s.mem (-1) (max 0 (min (-1) (oneByOne.BATCH_SIZE : ℤ))).toNat := by
  obtain ⟨s, hs, hidle, hr, hw⟩ := exists_holdsOne
  have hitems : s.mem.readTicket + oneByOne.BATCH_SIZE ≤ s.mem.writeTicket := by
    rw [hr, hw]
    decide
  obtain ⟨vs, us, hlen, hvs⟩ := exists_holds hs hidle hitems
  exact ⟨s, hs, hidle, hitems, hvs.not_agrees hlen (by decide) (by decide) (by decide) (by decide)⟩

end AstraLib.Ring
