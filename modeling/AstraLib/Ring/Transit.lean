import AstraLib.Ring.Progress

/-!
# `AtomicRingBuffer`: a payload on its way

Where a payload is between the `fetch_add` of its enqueue and the return of the dequeue that takes
it: with the enqueue, published under its ticket, or with the dequeue.  `Exec.transit` says what
each step does to that.  It brings in the payload of a claimed write ticket, lets the payload of a
dequeue go, passes one payload on, or leaves all of them where they are.  Containers and schedulers
that pass tokens through the queue use this and no more.

The payload is a single word here, so that it is in one piece.  `batchDequeue` is left out.
-/

namespace AstraLib.Ring

/-! ### The member functions -/

/-- The member functions. -/
inductive Op
  | enqueue
  | dequeue
  | batchDequeue
  | isEmpty
  deriving DecidableEq

section Functions

variable {κ τ ω : Type} {W : ℕ}

/-- The function that a call calls. -/
def Call.op : Call ω W → Op
  | .enqueue .. => .enqueue
  | .dequeue => .dequeue
  | .batchDequeue _ => .batchDequeue
  | .isEmpty => .isEmpty

/-- The function that a dequeue belongs to. -/
def Dest.op : Dest → Op
  | .result => .dequeue
  | .batch .. => .batchDequeue

/-- The function that a thread is in. -/
def Pc.op : Pc κ τ ω W → Option Op
  | .idle => none
  | .enqClaim .. | .enqSpin .. | .enqDestroy .. | .enqCopy .. | .enqReturn => some .enqueue
  | .batchLoop .. | .batchReturn => some .batchDequeue
  | .deqClaim d | .deqSpin d _ | .deqCopy d .. => some d.op
  | .deqReturn .. => some .dequeue
  | .isEmptyCall | .isEmptyWrite _ | .isEmptyRead _ | .isEmptyReturn _ => some .isEmpty

variable {ar : TicketArith κ τ} {cfg : Config} {m m' : Mem κ ω W} {p p' : Pc κ τ ω W}
  {a : Micro ω W}

theorem Pc.op_eq_none : p.op = none ↔ p = .idle := by
  cases p <;> simp [Pc.op]

theorem Pc.inBatch_of_op (h : p.op ≠ some .batchDequeue) : p.inBatch = false := by
  cases p with
  | deqClaim d => cases d <;> simp_all [Pc.op, Dest.op, Pc.inBatch, Pc.batchIndex]
  | deqSpin d t => cases d <;> simp_all [Pc.op, Dest.op, Pc.inBatch, Pc.batchIndex]
  | deqCopy d t buf => cases d <;> simp_all [Pc.op, Dest.op, Pc.inBatch, Pc.batchIndex]
  | _ => simp_all [Pc.op, Pc.inBatch, Pc.batchIndex]

theorem Exec.call_inv {c : Call ω W} (h : Exec ar cfg m p (.call c) m' p') :
    p = .idle ∧ m' = m ∧ p' = c.entry cfg := by
  cases h
  exact ⟨rfl, rfl, rfl⟩

theorem Exec.ne_idle (h : Exec ar cfg m p a m' p') (hcall : ∀ c, a ≠ .call c) : p ≠ .idle := by
  rintro rfl
  cases h
  exact hcall _ rfl

theorem Exec.ret_inv (h : Exec ar cfg m p .ret m' p') : m' = m ∧ p' = .idle := by
  cases h <;> exact ⟨rfl, rfl⟩

theorem Exec.ne_idle_of_ne_ret (h : Exec ar cfg m p a m' p') (hret : a ≠ .ret) : p' ≠ .idle := by
  cases h with
  | call c => cases c <;> simp [Call.entry]
  | enqPass k v t _ => unfold Pc.enqPast; split_ifs <;> simp
  | deqPublish d t buf v _ => cases d <;> simp [Pc.deqPast]
  | enqRet => exact absurd rfl hret
  | deqRet => exact absurd rfl hret
  | batchRet => exact absurd rfl hret
  | isEmptyRet => exact absurd rfl hret
  | _ => simp

theorem entry_op (c : Call ω W) : (c.entry cfg : Pc κ τ ω W).op = some c.op := by
  cases c <;> rfl

/-- Between the call and the return a thread stays in its function. -/
theorem Exec.op_eq (h : Exec ar cfg m p a m' p') (hcall : ∀ c, a ≠ .call c) (hret : a ≠ .ret) :
    p'.op = p.op := by
  cases h with
  | call c => exact absurd rfl (hcall c)
  | enqPass k v t _ => unfold Pc.enqPast; split_ifs <;> rfl
  | deqPublish d t buf v _ => cases d <;> rfl
  | enqRet => exact absurd rfl hret
  | deqRet => exact absurd rfl hret
  | batchRet => exact absurd rfl hret
  | isEmptyRet => exact absurd rfl hret
  | _ => rfl

/-- The payload for which a thread is about to claim a ticket. -/
def Pc.claiming : Pc κ τ ω W → Option (Payload ω W)
  | .enqClaim _ v => some v
  | _ => none

/-- Only a call gives a thread a payload to claim a ticket for, and only the claim takes it away. -/
theorem Pc.claiming_eq_some {v : Payload ω W} : p.claiming = some v ↔ ∃ k, p = .enqClaim k v := by
  cases p <;> simp [Pc.claiming]

theorem Exec.claiming_eq_none (h : Exec ar cfg m p a m' p') (hcall : ∀ c, a ≠ .call c) :
    p'.claiming = none ∧ ((∀ k v, p = .enqClaim k v → a ≠ .claim) → p.claiming = none) := by
  cases h with
  | call c => exact absurd rfl (hcall c)
  | enqClaim k v => exact ⟨rfl, fun h => absurd rfl (h k v rfl)⟩
  | enqPass k v t _ => exact ⟨by unfold Pc.enqPast; split_ifs <;> rfl, fun _ => rfl⟩
  | deqPublish d t buf v _ => exact ⟨by cases d <;> rfl, fun _ => rfl⟩
  | _ => exact ⟨rfl, fun _ => rfl⟩

/-- A thread that has claimed a write ticket and has not returned from its enqueue yet. -/
def Pc.claimed : Pc κ τ ω W → Bool
  | .enqSpin .. | .enqDestroy .. | .enqCopy .. | .enqReturn => true
  | _ => false

theorem Exec.claimed (h : Exec ar cfg m p a m' p') (hret : a ≠ .ret) (hp : p.claimed = true) :
    p'.claimed = true := by
  cases h with
  | enqPass k v t _ => unfold Pc.enqPast; split_ifs <;> rfl
  | enqRet => exact absurd rfl hret
  | _ => first | rfl | cases hp

/-- Only the claim of an enqueue changes `writeTicket`. -/
theorem Exec.writeTicket (h : Exec ar cfg m p a m' p') :
    m'.writeTicket = m.writeTicket ∨ m'.writeTicket = ar.fetchAdd m.writeTicket ∧
    p'.claimed = true := by
  cases h with
  | enqClaim k v => exact Or.inr ⟨rfl, rfl⟩
  | deqCopy d t buf j left _ => cases d <;> exact Or.inl rfl
  | _ => exact Or.inl rfl

/-- An enqueue leaves `readTicket` alone. -/
theorem Exec.readTicket_of_enqueue (h : Exec ar cfg m p a m' p') (hp : p.op = some .enqueue) :
    m'.readTicket = m.readTicket := by
  cases h with
  | deqClaim d => cases d <;> cases hp
  | deqCopy d => cases d <;> cases hp
  | _ => rfl

/-- The counters move at the two `fetch_add`s, one at a time. -/
theorem Exec.counters (h : Exec ar cfg m p a m' p') :
    (m'.writeTicket = m.writeTicket ∧ m'.readTicket = m.readTicket) ∨
    (∃ k v, p = .enqClaim k v ∧ m'.writeTicket = ar.fetchAdd m.writeTicket ∧
      m'.readTicket = m.readTicket) ∨
    (∃ d, p = .deqClaim d ∧ a = .claim ∧ m'.writeTicket = m.writeTicket ∧
      m'.readTicket = ar.fetchAdd m.readTicket) := by
  cases h with
  | enqClaim k v => exact Or.inr (Or.inl ⟨k, v, rfl, rfl, rfl⟩)
  | deqClaim d => exact Or.inr (Or.inr ⟨d, rfl, rfl, rfl, rfl⟩)
  | deqCopy d t buf j left _ => exact Or.inl ⟨by simp [Mem.setWord], by simp [Mem.setWord]⟩
  | _ => exact Or.inl ⟨rfl, rfl⟩

/-- The thread is in one of the functions that take payloads out. -/
def Pc.Consuming (p : Pc κ τ ω W) : Prop := p.op = some .dequeue ∨ p.op = some .batchDequeue

theorem Pc.consuming_deqClaim (d : Dest) : (.deqClaim d : Pc κ τ ω W).Consuming := by
  cases d with
  | result => exact Or.inl rfl
  | batch i count => exact Or.inr rfl

/-- A thread consumes only if it has called a function that does. -/
theorem Exec.consuming (h : Exec ar cfg m p a m' p') (hp' : p'.Consuming) :
    p.Consuming ∨ ∃ call, a = .call call ∧ (call.op = .dequeue ∨ call.op = .batchDequeue) := by
  by_cases hcall : ∃ call, a = .call call
  · obtain ⟨call, rfl⟩ := hcall
    obtain ⟨-, -, rfl⟩ := h.call_inv
    simp only [Pc.Consuming, entry_op, Option.some.injEq] at hp'
    exact Or.inr ⟨call, rfl, hp'⟩
  by_cases hret : a = .ret
  · subst hret
    rw [h.ret_inv.2] at hp'
    simp [Pc.Consuming, Pc.op] at hp'
  · have hop := h.op_eq (fun call hc => hcall ⟨call, hc⟩) hret
    exact Or.inl (by rwa [Pc.Consuming, ← hop])

end Functions

/-! ### Places -/

/-- Where a payload on its way can be. -/
inductive Place (Tid : Type)
  /-- with an enqueue that has claimed its ticket -/
  | writing (θ : Tid)
  /-- published with the given ticket, and not being taken -/
  | published (ticket : ℕ)
  /-- with a dequeue that has passed its spin test, up to its return -/
  | reading (θ : Tid)

section Transit

variable {Tid ω : Type}

/-- The payload of ticket `t` is published, and no thread is taking it. -/
structure Free (cfg : Config) (s : State Tid ℕ ℕ ω 1) (t : ℕ) : Prop where
  seq : s.seqOf cfg t = t + 1
  draining : ∀ θ, (s.pc θ).draining ≠ some t

/-- The payload that a thread is taking, in the slot of its ticket or already out of it. -/
def taking (cfg : Config) (s : State Tid ℕ ℕ ω 1) : Pc ℕ ℕ ω 1 → Option ω
  | .deqCopy _ t buf => some ((buf 0).getD (s.dataOf cfg t 0))
  | .deqReturn _ v => some (v 0)
  | _ => none

/-- The payload that a thread is writing. -/
def Pc.puts (p : Pc ℕ ℕ ω 1) : Option ω := p.writing.map fun x => x.2 0

/-- The payload `x` is at the given place. -/
def At (cfg : Config) (s : State Tid ℕ ℕ ω 1) : Place Tid → ω → Prop
  | .writing θ, x => (s.pc θ).puts = some x
  | .published t, x => Free cfg s t ∧ s.dataOf cfg t 0 = x
  | .reading θ, x => taking cfg s (s.pc θ) = some x

variable {cfg : Config} {s : State Tid ℕ ℕ ω 1}

/-- A place holds one payload at a time. -/
theorem At.unique {q : Place Tid} {x y : ω} (h : At cfg s q x) (h' : At cfg s q y) : x = y := by
  cases q with
  | writing θ => exact Option.some.inj (h.symm.trans h')
  | published t => exact h.2.symm.trans h'.2
  | reading θ => exact Option.some.inj (h.symm.trans h')

/-- Nothing is on its way in a new queue. -/
theorem not_at_fresh (data array : ℕ → Payload ω 1) (q : Place Tid) (x : ω) :
    ¬ At cfg (fresh (unbounded cfg) cfg data array : State Tid ℕ ℕ ω 1) q x := by
  cases q with
  | writing θ => simp [At, fresh, Pc.puts, Pc.writing]
  | published t =>
    rintro ⟨⟨hseq, -⟩, -⟩
    have hle := Nat.mod_le t cfg.SIZE
    simp [State.seqOf, fresh, prepareBuffer_apply, Nat.mod_lt t cfg.size_pos] at hseq
    omega
  | reading θ => simp [At, fresh, taking]

theorem taking_congr {s' : State Tid ℕ ℕ ω 1} {p : Pc ℕ ℕ ω 1}
    (h : ∀ t, p.draining = some t → s'.dataOf cfg t = s.dataOf cfg t) :
    taking cfg s' p = taking cfg s p := by
  cases p with
  | deqCopy d t buf => simp only [taking, h t rfl]
  | _ => rfl

/-- What a step of thread `θ` does to the payloads on their way. -/
inductive Transit (cfg : Config) (θ : Tid) (p : Pc ℕ ℕ ω 1) (a : Micro ω 1)
    (s s' : State Tid ℕ ℕ ω 1) : Prop
  | stays (h : ∀ q x, At cfg s' q x ↔ At cfg s q x) (hclaim : ∀ k v, p = .enqClaim k v → a ≠ .claim)
      (hret : ∀ t v, p ≠ .deqReturn t v)
  | enters (k : EnqKind) (v : Payload ω 1) (hp : p = .enqClaim k v) (ha : a = .claim)
      (hnew : ∀ x, ¬ At cfg s (.writing θ) x)
      (h : ∀ q x, At cfg s' q x ↔ (q = .writing θ ∧ x = v 0) ∨ At cfg s q x)
  | moves (q q' : Place Tid) (x : ω) (hq : At cfg s q x)
      (h : ∀ q₁ y, At cfg s' q₁ y ↔ (q₁ = q' ∧ y = x) ∨ (q₁ ≠ q ∧ At cfg s q₁ y))
      (hclaim : ∀ k v, p = .enqClaim k v → a ≠ .claim) (hret : ∀ t v, p ≠ .deqReturn t v)
  | leaves (t : ℕ) (v : Payload ω 1) (hp : p = .deqReturn t v) (ha : a = .ret)
      (hq : At cfg s (.reading θ) (v 0))
      (h : ∀ q x, At cfg s' q x ↔ q ≠ .reading θ ∧ At cfg s q x)

variable [DecidableEq Tid] {l : Log Tid ω 1} {θ : Tid} {m' : Mem ℕ ω 1} {p' : Pc ℕ ℕ ω 1}

/-- What the other threads take is not disturbed, if their slots are not. -/
theorem at_reading_of_ne (hothers : ∀ θ' t, θ' ≠ θ → (s.pc θ').draining = some t →
      (s.put θ m' p').dataOf cfg t = s.dataOf cfg t) {θ' : Tid} (hθ : θ' ≠ θ) {x : ω} :
    At cfg (s.put θ m' p') (.reading θ') x ↔ At cfg s (.reading θ') x := by
  simp only [At, put_pc_of_ne hθ]
  rw [taking_congr fun t => hothers θ' t hθ]

theorem at_writing_of_ne {θ' : Tid} (hθ : θ' ≠ θ) {x : ω} :
    At cfg (s.put θ m' p') (.writing θ') x ↔ At cfg s (.writing θ') x := by
  simp only [At, put_pc_of_ne hθ]

/-- Without a step into or out of a payload access, the same tickets are free. -/
theorem free_put (hseq : ∀ t, (s.put θ m' p').seqOf cfg t = s.seqOf cfg t)
    (hdr : p'.draining = (s.pc θ).draining) (t : ℕ) :
    Free cfg (s.put θ m' p') t ↔ Free cfg s t := by
  have hpc : ∀ θ', ((s.put θ m' p').pc θ').draining = (s.pc θ').draining := by
    intro θ'
    by_cases hθ : θ' = θ
    · subst hθ; rw [put_pc_self, hdr]
    · rw [put_pc_of_ne hθ]
  constructor
  · rintro ⟨h1, h2⟩
    exact ⟨(hseq t).symm.trans h1, fun θ' => hpc θ' ▸ h2 θ'⟩
  · rintro ⟨h1, h2⟩
    exact ⟨(hseq t).trans h1, fun θ' => (hpc θ').symm ▸ h2 θ'⟩

/-! ### Steps that move no payload -/

theorem at_frame (hfree : ∀ t, Free cfg (s.put θ m' p') t ↔ Free cfg s t)
    (hdata : ∀ t, Free cfg s t → (s.put θ m' p').dataOf cfg t = s.dataOf cfg t)
    (hothers : ∀ θ' t, θ' ≠ θ → (s.pc θ').draining = some t →
      (s.put θ m' p').dataOf cfg t = s.dataOf cfg t)
    (hputs : p'.puts = (s.pc θ).puts)
    (htake : taking cfg (s.put θ m' p') p' = taking cfg s (s.pc θ)) (q : Place Tid) (x : ω) :
    At cfg (s.put θ m' p') q x ↔ At cfg s q x := by
  cases q with
  | writing θ' =>
    by_cases hθ : θ' = θ
    · subst hθ; simp only [At, put_pc_self, hputs]
    · exact at_writing_of_ne hθ
  | published t =>
    simp only [At, hfree]
    exact and_congr_right fun ht => by rw [hdata t ht]
  | reading θ' =>
    by_cases hθ : θ' = θ
    · subst hθ; simp only [At, put_pc_self, htake]
    · exact at_reading_of_ne hothers hθ

/-- Steps that leave the slots alone. -/
theorem at_quiet (hbuf : m'.buffer = s.mem.buffer) (hdr : p'.draining = (s.pc θ).draining)
    (hputs : p'.puts = (s.pc θ).puts) (htake : taking cfg s p' = taking cfg s (s.pc θ))
    (q : Place Tid) (x : ω) : At cfg (s.put θ m' p') q x ↔ At cfg s q x := by
  have hdata : ∀ t, (s.put θ m' p').dataOf cfg t = s.dataOf cfg t := fun t => by
    simp [State.dataOf, hbuf]
  refine at_frame (free_put (fun t => by simp [State.seqOf, hbuf]) hdr) (fun t _ => hdata t)
    (fun _ t _ _ => hdata t) hputs ?_ q x
  rw [taking_congr fun t _ => hdata t, htake]

/-- An enqueue writes into its slot, where nothing is free and nobody takes. -/
theorem at_fill (ht : Tickets cfg s l) {t : ℕ} {v : Payload ω 1} (hf : (s.pc θ).filling = some t)
    (hdr : p'.draining = (s.pc θ).draining) (hputs : p'.puts = (s.pc θ).puts)
    (htake : taking cfg s p' = taking cfg s (s.pc θ)) (q : Place Tid) (x : ω) :
    At cfg (s.put θ (s.mem.setData (t % cfg.SIZE) v) p') q x ↔ At cfg s q x := by
  have hne : ∀ u, u % cfg.SIZE ≠ t % cfg.SIZE →
      (s.put θ (s.mem.setData (t % cfg.SIZE) v) p').dataOf cfg u = s.dataOf cfg u := by
    intro u hut
    rw [Contents.dataOf_setData, if_neg hut]
  have hnd : (s.pc θ).draining = none := by
    cases hp : s.pc θ <;> simp_all [Pc.filling, Pc.draining]
  refine at_frame (free_put (fun u => by simp [State.seqOf]) hdr) (fun u hu => hne u fun hut => ?_)
    (fun θ' u _ hd => hne u fun hut => ht.not_filling_draining hf hd hut) hputs ?_ q x
  · have heq := ht.filling_eq θ t hf
    rw [State.seqOf, ← hut, ← State.seqOf, hu.seq] at heq
    exact Config.ne_succ hut.symm heq.symm
  · rw [taking_congr fun u hd => ?_, htake]
    rw [hdr, hnd] at hd
    cases hd

/-- A dequeue reads the payload out of its slot. -/
theorem at_drain (ht : Tickets cfg s l) {d : Dest} {t : ℕ} {buf : Fin 1 → Option ω} {left : ω}
    (hp : s.pc θ = .deqCopy d t buf) (hbuf : buf 0 = none)
    (hm : m'.buffer = (s.mem.setWord (t % cfg.SIZE) 0 left).buffer) (q : Place Tid) (x : ω) :
    At cfg (s.put θ m' (.deqCopy d t (Function.update buf 0 (some (s.dataOf cfg t 0))))) q x ↔
      At cfg s q x := by
  have hdrain : (s.pc θ).draining = some t := by rw [hp]; rfl
  have hne : ∀ p u, u % cfg.SIZE ≠ t % cfg.SIZE → (s.put θ m' p).dataOf cfg u = s.dataOf cfg u := by
    intro p u hut
    rw [State.dataOf, put_mem, hm, Mem.setWord, setData_data_of_ne _ _ hut]
    rfl
  refine at_frame (free_put (fun u => ?_) (by rw [hp]; rfl)) (fun u hu => hne _ u fun hut => ?_)
    (fun θ' u hθ hd => hne _ u fun hut => hθ (ht.draining_unique hdrain hd hut).symm)
    (by rw [hp]; rfl) ?_ q x
  · simp [State.seqOf, hm, Mem.setWord]
  · -- the slot holds one payload, and it is the one being taken
    have heq := ht.draining_eq θ t hdrain
    rw [State.seqOf, ← hut, ← State.seqOf, hu.seq] at heq
    obtain rfl : u = t := by omega
    exact hu.draining θ hdrain
  · simp [taking, hp, hbuf]

/-- A dequeue gives its slot back. -/
theorem at_release (ht : Tickets cfg s l) {t : ℕ} {buf : Fin 1 → Option ω} {v : Payload ω 1}
    (hp : s.pc θ = .deqCopy .result t buf) (hv : ∀ j, buf j = some (v j)) (q : Place Tid) (x : ω) :
    At cfg (s.put θ (s.mem.setSeq (t % cfg.SIZE) (t + cfg.SIZE)) (.deqReturn t v)) q x ↔
      At cfg s q x := by
  have hdrain : (s.pc θ).draining = some t := by rw [hp]; rfl
  have hdata : ∀ u, (s.put θ (s.mem.setSeq (t % cfg.SIZE) (t + cfg.SIZE))
      (.deqReturn t v)).dataOf cfg u =
      s.dataOf cfg u := fun u => by simp [State.dataOf]
  refine at_frame (fun u => ?_) (fun u _ => hdata u) (fun _ u _ _ => hdata u)
    (by rw [hp]; rfl) ?_ q x
  · constructor
    · rintro ⟨h1, h2⟩
      rw [Tickets.seqOf_setSeq] at h1
      split_ifs at h1 with hut
      · have hlap : (t + cfg.SIZE) % cfg.SIZE = u % cfg.SIZE := by rw [Nat.add_mod_right, hut]
        exact absurd h1 (Config.ne_succ hlap)
      · refine ⟨h1, fun θ' hd => ?_⟩
        by_cases hθ : θ' = θ
        · subst hθ
          rw [hdrain] at hd
          cases hd
          exact hut rfl
        · exact h2 θ' (by rwa [put_pc_of_ne hθ])
    · rintro ⟨h1, h2⟩
      refine ⟨?_, fun θ' hd => ?_⟩
      · rw [Tickets.seqOf_setSeq, if_neg fun hut => ?_, h1]
        have heq := ht.draining_eq θ t hdrain
        rw [State.seqOf, ← hut, ← State.seqOf, h1] at heq
        obtain rfl : u = t := by omega
        exact h2 θ hdrain
      · by_cases hθ : θ' = θ
        · subst hθ
          rw [put_pc_self] at hd
          cases hd
        · exact h2 θ' (by rwa [put_pc_of_ne hθ] at hd)
  · simp [taking, hp, hv 0]

/-! ### Steps that move a payload -/

/-- The payload of an enqueue sets out when its ticket is claimed. -/
theorem at_claimWrite {k : EnqKind} {v : Payload ω 1} (hp : s.pc θ = .enqClaim k v) {n : ℕ}
    (hbuf : m'.buffer = s.mem.buffer) (q : Place Tid) (x : ω) :
    At cfg (s.put θ m' (.enqSpin k v n)) q x ↔ (q = .writing θ ∧ x = v 0) ∨ At cfg s q x := by
  have hdata : ∀ t, (s.put θ m' (.enqSpin k v n)).dataOf cfg t = s.dataOf cfg t := fun t => by
    simp [State.dataOf, hbuf]
  cases q with
  | writing θ' =>
    by_cases hθ : θ' = θ
    · subst hθ
      simp [At, Pc.puts, Pc.writing, hp, eq_comm]
    · rw [at_writing_of_ne hθ]
      simp [hθ]
  | published t =>
    have hfree : Free cfg (s.put θ m' (.enqSpin k v n)) t ↔ Free cfg s t :=
      free_put (fun u => by simp [State.seqOf, hbuf]) (by rw [hp]; rfl) t
    simp [At, hfree, hdata]
  | reading θ' =>
    by_cases hθ : θ' = θ
    · subst hθ
      simp [At, taking, hp]
    · rw [at_reading_of_ne (fun _ t _ _ => hdata t) hθ]
      simp

/-- The `seq` store of an enqueue publishes the payload. -/
theorem at_publish (ht : Tickets cfg s l) (hc : Contents cfg s l) {k : EnqKind} {v : Payload ω 1}
    {t : ℕ} (hp : s.pc θ = .enqCopy k v t Finset.univ) (q : Place Tid) (x : ω) :
    At cfg (s.put θ (s.mem.setSeq (t % cfg.SIZE) (t + 1)) .enqReturn) q x ↔
      (q = .published t ∧ x = v 0) ∨ (q ≠ .writing θ ∧ At cfg s q x) := by
  have hfill : (s.pc θ).filling = some t := by rw [hp]; rfl
  have hword : s.dataOf cfg t 0 = v 0 := hc.filled θ k v t _ hp 0 (Finset.mem_univ 0)
  have hdata : ∀ u, (s.put θ (s.mem.setSeq (t % cfg.SIZE) (t + 1)) .enqReturn).dataOf cfg u =
      s.dataOf cfg u := fun u => by simp [State.dataOf]
  have hdr : ∀ θ', ((s.put θ (s.mem.setSeq (t % cfg.SIZE) (t + 1)) .enqReturn).pc θ').draining =
      (s.pc θ').draining := by
    intro θ'
    by_cases hθ : θ' = θ
    · subst hθ; rw [put_pc_self, hp]; rfl
    · rw [put_pc_of_ne hθ]
  cases q with
  | writing θ' =>
    by_cases hθ : θ' = θ
    · subst hθ
      simp [At, Pc.puts, Pc.writing]
    · rw [at_writing_of_ne hθ]
      simp [hθ]
  | published u =>
    have hiff : Free cfg (s.put θ (s.mem.setSeq (t % cfg.SIZE) (t + 1)) .enqReturn) u ↔
        u = t ∨ Free cfg s u := by
      constructor
      · rintro ⟨h1, h2⟩
        rw [Tickets.seqOf_setSeq] at h1
        split_ifs at h1 with hut
        · exact Or.inl (by omega)
        · exact Or.inr ⟨h1, fun θ' => hdr θ' ▸ h2 θ'⟩
      · rintro (rfl | ⟨h1, h2⟩)
        · refine ⟨by rw [Tickets.seqOf_setSeq, if_pos rfl], fun θ' hd => ?_⟩
          rw [hdr] at hd
          exact ht.not_filling_draining hfill hd rfl
        · refine ⟨?_, fun θ' => (hdr θ').symm ▸ h2 θ'⟩
          rw [Tickets.seqOf_setSeq, if_neg fun hut => ?_, h1]
          -- the slot of `t` is still waiting for its write
          have heq := ht.filling_eq θ t hfill
          rw [State.seqOf, ← hut, ← State.seqOf, h1] at heq
          exact Config.ne_succ hut.symm heq.symm
    have hnot : ¬ Free cfg s t := by
      intro hfree
      have := ht.filling_eq θ t hfill
      have := hfree.seq
      omega
    by_cases hut : u = t
    · subst hut
      simp [At, hiff, hdata, hword, hnot, eq_comm]
    · simp [At, hiff, hdata, hut]
  | reading θ' =>
    by_cases hθ : θ' = θ
    · subst hθ
      simp [At, taking, hp]
    · rw [at_reading_of_ne (fun _ t _ _ => hdata t) hθ]
      simp

/-- A dequeue passes its spin test: the payload in the slot is being taken. -/
theorem at_take {d : Dest} {t : ℕ} (hp : s.pc θ = .deqSpin d t) (q : Place Tid) (x : ω) :
    At cfg (s.put θ s.mem (.deqCopy d t fun _ => none)) q x ↔
      (q = .reading θ ∧ x = s.dataOf cfg t 0) ∨ (q ≠ .published t ∧ At cfg s q x) := by
  have hdata : ∀ u, (s.put θ s.mem (.deqCopy d t fun _ => none)).dataOf cfg u = s.dataOf cfg u :=
    fun _ => rfl
  cases q with
  | writing θ' =>
    by_cases hθ : θ' = θ
    · subst hθ
      simp [At, Pc.puts, Pc.writing, hp]
    · rw [at_writing_of_ne hθ]
      simp
  | published u =>
    have hiff : Free cfg (s.put θ s.mem (.deqCopy d t fun _ => none)) u ↔ u ≠ t ∧ Free cfg s u := by
      constructor
      · rintro ⟨h1, h2⟩
        have hne : u ≠ t := by
          rintro rfl
          exact h2 θ (by rw [put_pc_self]; rfl)
        refine ⟨hne, h1, fun θ' hd => ?_⟩
        by_cases hθ : θ' = θ
        · subst hθ
          rw [hp] at hd
          cases hd
        · exact h2 θ' (by rwa [put_pc_of_ne hθ])
      · rintro ⟨hne, h1, h2⟩
        refine ⟨h1, fun θ' hd => ?_⟩
        by_cases hθ : θ' = θ
        · subst hθ
          rw [put_pc_self] at hd
          exact hne (Option.some.inj hd).symm
        · exact h2 θ' (by rwa [put_pc_of_ne hθ] at hd)
    simp [At, hiff, hdata, and_assoc]
  | reading θ' =>
    by_cases hθ : θ' = θ
    · subst hθ
      simp [At, taking, hp, hdata, eq_comm]
    · rw [at_reading_of_ne (fun _ t _ _ => hdata t) hθ]
      simp [hθ]

/-- A dequeue returns. -/
theorem at_return {t : ℕ} {v : Payload ω 1} (hp : s.pc θ = .deqReturn t v) (q : Place Tid) (x : ω) :
    At cfg (s.put θ s.mem .idle) q x ↔ q ≠ .reading θ ∧ At cfg s q x := by
  have hdata : ∀ u, (s.put θ s.mem .idle).dataOf cfg u = s.dataOf cfg u := fun _ => rfl
  cases q with
  | writing θ' =>
    by_cases hθ : θ' = θ
    · subst hθ
      simp [At, Pc.puts, Pc.writing, hp]
    · rw [at_writing_of_ne hθ]
      simp
  | published u =>
    have hfree : Free cfg (s.put θ s.mem .idle) u ↔ Free cfg s u :=
      free_put (fun _ => rfl) (by rw [hp]; rfl) u
    simp [At, hfree, hdata]
  | reading θ' =>
    by_cases hθ : θ' = θ
    · subst hθ
      simp [At, taking]
    · rw [at_reading_of_ne (fun _ t _ _ => hdata t) hθ]
      simp [hθ]

/-- **What a step does to the payloads on their way.** -/
theorem Exec.transit {a : Micro ω 1} (hx : Exec (unbounded cfg) cfg s.mem (s.pc θ) a m' p')
    (ht : Tickets cfg s l) (hc : Contents cfg s l) (hb : (s.pc θ).inBatch = false) :
    Transit cfg θ (s.pc θ) a s (s.put θ m' p') := by
  generalize hp : s.pc θ = p at hx hb
  cases hx with
  | call c =>
    refine .stays (at_quiet rfl ?_ ?_ ?_) (by simp) (by simp)
    · rw [hp]; cases c <;> rfl
    · rw [hp]; cases c <;> rfl
    · rw [hp]; cases c <;> rfl
  | enqClaim k v =>
    exact .enters k v rfl rfl (by simp [At, Pc.puts, Pc.writing, hp]) (at_claimWrite hp rfl)
  | enqPass k v t _ =>
    refine .stays (at_quiet rfl ?_ ?_ ?_) (by simp) (by simp)
    · rw [enqPast_draining, hp]; rfl
    · rw [hp, Pc.puts, enqPast_writing]; rfl
    · rw [hp]; unfold Pc.enqPast; split_ifs <;> rfl
  | enqRetry k v t _ =>
    exact .stays (at_quiet rfl (by rw [hp]) (by rw [hp]) (by rw [hp])) (by simp) (by simp)
  | deqRetry d t _ =>
    exact .stays (at_quiet rfl (by rw [hp]) (by rw [hp]) (by rw [hp])) (by simp) (by simp)
  | destroy v t junk =>
    rw [unbounded_index]
    exact .stays (at_fill ht (by rw [hp]; rfl) (by rw [hp]; rfl) (by rw [hp]; rfl)
      (by rw [hp]; rfl))
      (by simp) (by simp)
  | enqCopy k v t done j left _ =>
    rw [unbounded_index]
    exact .stays (at_fill ht (by rw [hp]; rfl) (by rw [hp]; rfl) (by rw [hp]; rfl)
      (by rw [hp]; rfl))
      (by simp) (by simp)
  | enqPublish k v t =>
    rw [unbounded_index]
    exact .moves (.writing θ) (.published t) (v 0) (by simp [At, Pc.puts, Pc.writing, hp])
      (at_publish ht hc hp) (by simp) (by simp)
  | deqPass d t hseq =>
    rw [unbounded_index] at hseq
    refine .moves (.published t) (.reading θ) (s.dataOf cfg t 0) ⟨⟨hseq, fun θ' hd => ?_⟩, rfl⟩
      (at_take hp) (by simp) (by simp)
    have hr : (s.pc θ).reading = some t := by rw [hp]; rfl
    obtain rfl := ht.reading_unique (Pc.reading_of_draining hd) hr
    rw [hp] at hd
    cases hd
  | deqCopy d t buf j left hj =>
    rw [Subsingleton.elim j 0] at hj ⊢
    simp only [unbounded_index]
    exact .stays (at_drain ht hp hj (deliver_buffer _ _ _ _)) (by simp) (by simp)
  | deqPublish d t buf v hv =>
    cases d with
    | result =>
      simp only [unbounded_index]
      exact .stays (at_release ht hp hv) (by simp) (by simp)
    | batch i count => cases hb
  | deqRet t v => exact .leaves t v rfl rfl (by simp [At, taking, hp]) (at_return hp)
  | _ =>
    exact .stays (at_quiet rfl (by rw [hp]; rfl) (by rw [hp]; rfl) (by rw [hp]; rfl))
      (by simp) (by simp)

end Transit

end AstraLib.Ring
