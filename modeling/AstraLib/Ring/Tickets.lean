import AstraLib.Ring.Step

/-!
# `AtomicRingBuffer`: the ticket invariant

The life of a ticket `t` is read off the `seq` of its slot: the write is published once `t < seq`,
the read is consumed once `t + 1 < seq`.  The invariant `Tickets` says that a claimed ticket whose
turn is not over has a thread that holds it, that nobody else does, and that a thread gets past its
spin test only when its turn has come.  Everything else about the protocol, from mutual exclusion to
the absence of deadlock, is arithmetic on top of it.

The log records who claimed each ticket, and with what payload.  `Effect` forgets everything about
a step but what it does to tickets and log: most steps do nothing to them (`Effect.silent`).
-/

namespace AstraLib.Ring

open Interleaving

/-! ### Threads and their tickets -/

section Views

variable {κ τ ω : Type} {W : ℕ}

/-- The write ticket that a thread has claimed and not yet published, with its payload. -/
def Pc.writing : Pc κ τ ω W → Option (τ × Payload ω W)
  | .enqSpin _ v t | .enqDestroy v t | .enqCopy _ v t _ => some (t, v)
  | _ => none

/-- The read ticket that a thread has claimed and whose slot it has not yet released. -/
def Pc.reading : Pc κ τ ω W → Option τ
  | .deqSpin _ t | .deqCopy _ t _ => some t
  | _ => none

/-- The write ticket of a thread between its spin test and its `seq` store. -/
def Pc.filling : Pc κ τ ω W → Option τ
  | .enqDestroy _ t | .enqCopy _ _ t _ => some t
  | _ => none

/-- The read ticket of a thread between its spin test and its `seq` store. -/
def Pc.draining : Pc κ τ ω W → Option τ
  | .deqCopy _ t _ => some t
  | _ => none

@[simp] theorem enqPast_writing (cfg : Config) (k : EnqKind) (v : Payload ω W) (t : τ) :
    (Pc.enqPast cfg k v t : Pc κ τ ω W).writing = some (t, v) := by
  unfold Pc.enqPast; split_ifs <;> rfl

@[simp] theorem enqPast_reading (cfg : Config) (k : EnqKind) (v : Payload ω W) (t : τ) :
    (Pc.enqPast cfg k v t : Pc κ τ ω W).reading = none := by
  unfold Pc.enqPast; split_ifs <;> rfl

@[simp] theorem enqPast_filling (cfg : Config) (k : EnqKind) (v : Payload ω W) (t : τ) :
    (Pc.enqPast cfg k v t : Pc κ τ ω W).filling = some t := by
  unfold Pc.enqPast; split_ifs <;> rfl

@[simp] theorem enqPast_draining (cfg : Config) (k : EnqKind) (v : Payload ω W) (t : τ) :
    (Pc.enqPast cfg k v t : Pc κ τ ω W).draining = none := by
  unfold Pc.enqPast; split_ifs <;> rfl

/-- A thread that holds no ticket. -/
def Pc.Quiet (p : Pc κ τ ω W) : Prop := p.writing = none ∧ p.reading = none

theorem Pc.Quiet.filling {p : Pc κ τ ω W} (h : p.Quiet) : p.filling = none := by
  cases p <;> simp_all [Pc.Quiet, Pc.writing, Pc.filling]

theorem Pc.Quiet.draining {p : Pc κ τ ω W} (h : p.Quiet) : p.draining = none := by
  cases p <;> simp_all [Pc.Quiet, Pc.reading, Pc.draining]

theorem deqPast_quiet (t : τ) (v : Payload ω W) (d : Dest) :
    (Pc.deqPast t v d : Pc κ τ ω W).Quiet := by
  cases d <;> exact ⟨rfl, rfl⟩

end Views

/-! ### The log -/

/-- Who claimed each write ticket, and with what payload; who claimed each read ticket; and the
tickets whose payloads the last `batchDequeue` has put in the array, in order. -/
structure Log (Tid ω : Type) (W : ℕ) where
  writers : List (Tid × Payload ω W)
  readers : List Tid
  batch : List ℕ

/-- Nothing has been claimed yet. -/
def Log.empty {Tid ω : Type} {W : ℕ} : Log Tid ω W := ⟨[], [], []⟩

section Effects

variable {Tid ω : Type} {W : ℕ}

/-- The log after a thread's step. -/
def Log.note (θ : Tid) (p : Pc ℕ ℕ ω W) (a : Micro ω W) (l : Log Tid ω W) : Log Tid ω W :=
  match p, a with
  | .enqClaim _ v, .claim => { l with writers := l.writers ++ [(θ, v)] }
  | .deqClaim _, .claim => { l with readers := l.readers ++ [θ] }
  | .idle, .call (.batchDequeue _) => { l with batch := [] }
  | .deqCopy (.batch _ _) t _, .publish => { l with batch := l.batch ++ [t] }
  | _, _ => l

/-- What a step of the unbounded protocol does to the tickets. The steps that neither claim
nor publish, nor pass a spin test, leave the counters and every `seq` as they are. -/
inductive Effect (cfg : Config) (θ : Tid) (m : Mem ℕ ω W) (p : Pc ℕ ℕ ω W) (l : Log Tid ω W)
    (m' : Mem ℕ ω W) (p' : Pc ℕ ℕ ω W) (l' : Log Tid ω W) : Prop
  | silent (hw : m'.writeTicket = m.writeTicket) (hr : m'.readTicket = m.readTicket)
      (hseq : ∀ i, (m'.buffer i).seq = (m.buffer i).seq) (hpw : p'.writing = p.writing)
      (hpr : p'.reading = p.reading) (hpf : p'.filling = p.filling) (hpd : p'.draining = p.draining)
      (hlw : l'.writers = l.writers) (hlr : l'.readers = l.readers)
  | claimWrite (k : EnqKind) (v : Payload ω W) (hp : p = .enqClaim k v)
      (hp' : p' = .enqSpin k v m.writeTicket)
      (hm : m' = { m with writeTicket := m.writeTicket + 1 })
      (hl : l' = { l with writers := l.writers ++ [(θ, v)] })
  | claimRead (d : Dest) (hp : p = .deqClaim d) (hp' : p' = .deqSpin d m.readTicket)
      (hm : m' = { m with readTicket := m.readTicket + 1 })
      (hl : l' = { l with readers := l.readers ++ [θ] })
  | passWrite (k : EnqKind) (v : Payload ω W) (t : ℕ) (hp : p = .enqSpin k v t)
      (hseq : (m.buffer (t % cfg.SIZE)).seq = t) (hp' : p' = Pc.enqPast cfg k v t) (hm : m' = m)
      (hl : l' = l)
  | passRead (d : Dest) (t : ℕ) (hp : p = .deqSpin d t)
      (hseq : (m.buffer (t % cfg.SIZE)).seq = t + 1) (hp' : p' = .deqCopy d t fun _ => none)
      (hm : m' = m) (hl : l' = l)
  | publishWrite (k : EnqKind) (v : Payload ω W) (t : ℕ) (hp : p = .enqCopy k v t Finset.univ)
      (hp' : p' = .enqReturn) (hm : m' = m.setSeq (t % cfg.SIZE) (t + 1)) (hl : l' = l)
  | publishRead (d : Dest) (t : ℕ) (buf : Fin W → Option ω) (v : Payload ω W)
      (hp : p = .deqCopy d t buf) (hv : ∀ j, buf j = some (v j)) (hp' : p' = Pc.deqPast t v d)
      (hm : m' = m.setSeq (t % cfg.SIZE) (t + cfg.SIZE)) (hlw : l'.writers = l.writers)
      (hlr : l'.readers = l.readers)

variable {cfg : Config} {θ : Tid} {m m' : Mem ℕ ω W} {p p' : Pc ℕ ℕ ω W} {l l' : Log Tid ω W}

theorem Effect.quiet (hp : p.Quiet) (hp' : p'.Quiet) (hlw : l'.writers = l.writers)
    (hlr : l'.readers = l.readers) : Effect cfg θ m p l m p' l' :=
  .silent rfl rfl (fun _ => rfl) (hp'.1.trans hp.1.symm) (hp'.2.trans hp.2.symm)
    (hp'.filling.trans hp.filling.symm) (hp'.draining.trans hp.draining.symm) hlw hlr

theorem Exec.effect {a : Micro ω W} (h : Exec (unbounded cfg) cfg m p a m' p') :
    Effect cfg θ m p l m' p' (l.note θ p a) := by
  cases h with
  | call c => cases c <;> exact .quiet ⟨rfl, rfl⟩ ⟨rfl, rfl⟩ rfl rfl
  | enqClaim k v => exact .claimWrite k v rfl rfl rfl rfl
  | enqPass k v t h => exact .passWrite k v t rfl (by simpa using h) rfl rfl rfl
  | enqRetry k v t h => exact .silent rfl rfl (fun _ => rfl) rfl rfl rfl rfl rfl rfl
  | destroy v t junk => exact .silent rfl rfl (by simp) rfl rfl rfl rfl rfl rfl
  | enqCopy k v t done j left h =>
    exact .silent rfl rfl (by simp [Mem.setWord]) rfl rfl rfl rfl rfl rfl
  | enqPublish k v t => exact .publishWrite k v t rfl rfl (by simp) rfl
  | deqClaim d => exact .claimRead d rfl rfl rfl rfl
  | deqPass d t h => exact .passRead d t rfl (by simpa using h) rfl rfl rfl
  | deqRetry d t h => exact .silent rfl rfl (fun _ => rfl) rfl rfl rfl rfl rfl rfl
  | deqCopy d t buf j left h =>
    exact .silent (by simp [Mem.setWord]) (by simp [Mem.setWord])
      (by simp [Mem.setWord]) rfl rfl rfl rfl (by cases d <;> rfl) (by cases d <;> rfl)
  | deqPublish d t buf v h =>
    cases d <;> exact .publishRead _ t buf v rfl h rfl (by simp) rfl rfl
  | _ => exact .quiet ⟨rfl, rfl⟩ ⟨rfl, rfl⟩ rfl rfl

end Effects

/-! ### The invariant -/

section Invariant

variable {Tid ω : Type} {W : ℕ}

/-- The sequence number of the slot of ticket `t`. -/
def State.seqOf (cfg : Config) (s : State Tid ℕ ℕ ω W) (t : ℕ) : ℕ :=
  (s.mem.buffer (t % cfg.SIZE)).seq

/-- The ticket invariant. -/
structure Tickets (cfg : Config) (s : State Tid ℕ ℕ ω W) (l : Log Tid ω W) : Prop where
  writeTicket_eq : s.mem.writeTicket = l.writers.length
  readTicket_eq : s.mem.readTicket = l.readers.length
  /-- the claimed write tickets that are not published are held, each by its claimant -/
  writing_iff : ∀ θ t v, (s.pc θ).writing = some (t, v) ↔
    l.writers[t]? = some (θ, v) ∧ s.seqOf cfg t ≤ t
  /-- the claimed read tickets that are not consumed are held, each by its claimant -/
  reading_iff : ∀ θ t, (s.pc θ).reading = some t ↔
    l.readers[t]? = some θ ∧ s.seqOf cfg t ≤ t + 1
  filling_eq : ∀ θ t, (s.pc θ).filling = some t → s.seqOf cfg t = t
  draining_eq : ∀ θ t, (s.pc θ).draining = some t → s.seqOf cfg t = t + 1
  published_lt : ∀ t, t < s.seqOf cfg t → t < s.mem.writeTicket
  consumed_lt : ∀ t, t + 1 < s.seqOf cfg t → t < s.mem.readTicket
  /-- a slot waits for the write or for the read of one of its own tickets -/
  turn : ∀ t, ∃ u, u % cfg.SIZE = t % cfg.SIZE ∧ (s.seqOf cfg t = u ∨ s.seqOf cfg t = u + 1)

variable {cfg : Config}

theorem Pc.writing_of_filling {p : Pc ℕ ℕ ω W} {t : ℕ} (h : p.filling = some t) :
    ∃ v, p.writing = some (t, v) := by
  cases p <;> simp_all [Pc.filling, Pc.writing]

theorem Pc.reading_of_draining {p : Pc ℕ ℕ ω W} {t : ℕ} (h : p.draining = some t) :
    p.reading = some t := by
  cases p <;> simp_all [Pc.draining, Pc.reading]

theorem getElem?_concat_eq_some {α : Type} {l : List α} {x y : α} {t : ℕ} :
    (l ++ [x])[t]? = some y ↔ l[t]? = some y ∨ t = l.length ∧ x = y := by
  rw [List.getElem?_append]
  split_ifs with h
  · constructor
    · exact Or.inl
    · rintro (h' | ⟨h', -⟩)
      · exact h'
      · omega
  · rw [List.getElem?_singleton, List.getElem?_eq_none (by omega)]
    split_ifs with h'
    · simp [show t = l.length by omega]
    · simp [show t ≠ l.length by omega]

namespace Tickets

variable {s : State Tid ℕ ℕ ω W} {l : Log Tid ω W}

theorem lt_writeTicket (h : Tickets cfg s l) {θ : Tid} {t : ℕ} {v : Payload ω W}
    (hw : (s.pc θ).writing = some (t, v)) : t < s.mem.writeTicket := by
  rw [h.writeTicket_eq]
  exact (List.getElem?_eq_some_iff.1 ((h.writing_iff θ t v).1 hw).1).1

theorem lt_readTicket (h : Tickets cfg s l) {θ : Tid} {t : ℕ} (hr : (s.pc θ).reading = some t) :
    t < s.mem.readTicket := by
  rw [h.readTicket_eq]
  exact (List.getElem?_eq_some_iff.1 ((h.reading_iff θ t).1 hr).1).1

/-- A write ticket has one holder. -/
theorem writing_unique (h : Tickets cfg s l) {θ θ' : Tid} {t : ℕ} {v v' : Payload ω W}
    (hw : (s.pc θ).writing = some (t, v)) (hw' : (s.pc θ').writing = some (t, v')) : θ = θ' := by
  have h1 := ((h.writing_iff θ t v).1 hw).1
  have h2 := ((h.writing_iff θ' t v').1 hw').1
  rw [h1] at h2
  cases h2
  rfl

/-- A read ticket has one holder. -/
theorem reading_unique (h : Tickets cfg s l) {θ θ' : Tid} {t : ℕ}
    (hr : (s.pc θ).reading = some t) (hr' : (s.pc θ').reading = some t) : θ = θ' := by
  have h1 := ((h.reading_iff θ t).1 hr).1
  have h2 := ((h.reading_iff θ' t).1 hr').1
  rw [h1] at h2
  cases h2
  rfl

theorem init (data array : ℕ → Payload ω W) :
    Tickets cfg (fresh (unbounded cfg) cfg data array : State Tid ℕ ℕ ω W) Log.empty := by
  have hseq : ∀ t, (fresh (unbounded cfg) cfg data array : State Tid ℕ ℕ ω W).seqOf cfg t =
      t % cfg.SIZE := by
    intro t
    simp [State.seqOf, fresh, prepareBuffer_apply, Nat.mod_lt t cfg.size_pos]
  have hle : ∀ t, t % cfg.SIZE ≤ t := fun t => Nat.mod_le t cfg.SIZE
  constructor
  · rfl
  · rfl
  · intro θ t v
    simp [fresh, Pc.writing, Log.empty]
  · intro θ t
    simp [fresh, Pc.reading, Log.empty]
  · intro θ t ht
    simp [fresh, Pc.filling] at ht
  · intro θ t ht
    simp [fresh, Pc.draining] at ht
  · intro t ht
    have := hle t
    rw [hseq] at ht
    omega
  · intro t ht
    have := hle t
    rw [hseq] at ht
    omega
  · intro t
    exact ⟨t % cfg.SIZE, Nat.mod_mod _ _, Or.inl (hseq t)⟩

variable [DecidableEq Tid] {θ : Tid} {m' : Mem ℕ ω W} {p' : Pc ℕ ℕ ω W} {l' : Log Tid ω W}

/-- Steps that leave the counters, the sequence numbers and the held tickets alone. -/
theorem silent (h : Tickets cfg s l) (hw : m'.writeTicket = s.mem.writeTicket)
    (hr : m'.readTicket = s.mem.readTicket) (hseq : ∀ i, (m'.buffer i).seq = (s.mem.buffer i).seq)
    (hpw : p'.writing = (s.pc θ).writing) (hpr : p'.reading = (s.pc θ).reading)
    (hpf : ∀ t, p'.filling = some t → s.seqOf cfg t = t)
    (hpd : ∀ t, p'.draining = some t → s.seqOf cfg t = t + 1)
    (hlw : l'.writers = l.writers) (hlr : l'.readers = l.readers) :
    Tickets cfg (s.put θ m' p') l' := by
  have hs : ∀ t, (s.put θ m' p').seqOf cfg t = s.seqOf cfg t :=
    fun t => hseq _
  constructor
  · rw [hlw]; exact hw.trans h.writeTicket_eq
  · rw [hlr]; exact hr.trans h.readTicket_eq
  · intro θ' t v
    rw [hs, hlw, ← h.writing_iff]
    by_cases hθ : θ' = θ
    · subst hθ; simp [hpw]
    · simp [put_pc_of_ne hθ]
  · intro θ' t
    rw [hs, hlr, ← h.reading_iff]
    by_cases hθ : θ' = θ
    · subst hθ; simp [hpr]
    · simp [put_pc_of_ne hθ]
  · intro θ' t ht
    rw [hs]
    by_cases hθ : θ' = θ
    · subst hθ; exact hpf t (by simpa using ht)
    · exact h.filling_eq θ' t (by simpa [put_pc_of_ne hθ] using ht)
  · intro θ' t ht
    rw [hs]
    by_cases hθ : θ' = θ
    · subst hθ; exact hpd t (by simpa using ht)
    · exact h.draining_eq θ' t (by simpa [put_pc_of_ne hθ] using ht)
  · intro t ht
    rw [hs] at ht
    exact (h.published_lt t ht).trans_eq hw.symm
  · intro t ht
    rw [hs] at ht
    exact (h.consumed_lt t ht).trans_eq hr.symm
  · intro t
    rw [hs]
    exact h.turn t

/-- A write ticket is claimed. It cannot have been published before. -/
theorem claimWrite (h : Tickets cfg s l) {k : EnqKind} {v : Payload ω W}
    (hp : s.pc θ = .enqClaim k v) :
    Tickets cfg (s.put θ { s.mem with writeTicket := s.mem.writeTicket + 1 }
      (.enqSpin k v s.mem.writeTicket)) { l with writers := l.writers ++ [(θ, v)] } := by
  have hnew : s.seqOf cfg s.mem.writeTicket ≤ s.mem.writeTicket := by
    by_contra hlt
    exact absurd (h.published_lt _ (by omega)) (lt_irrefl _)
  constructor
  · simp [h.writeTicket_eq]
  · exact h.readTicket_eq
  · intro θ' t v'
    show _ ↔ (l.writers ++ [(θ, v)])[t]? = some (θ', v') ∧ s.seqOf cfg t ≤ t
    rw [getElem?_concat_eq_some, ← h.writeTicket_eq]
    by_cases hθ : θ' = θ
    · subst hθ
      have hold : ¬ (l.writers[t]? = some (θ', v') ∧ s.seqOf cfg t ≤ t) := by
        rw [← h.writing_iff, hp]; simp [Pc.writing]
      simp only [put_pc_self, Pc.writing, Option.some.injEq, Prod.mk.injEq, true_and]
      constructor
      · rintro ⟨rfl, rfl⟩
        exact ⟨Or.inr ⟨rfl, rfl⟩, hnew⟩
      · rintro ⟨hw | ⟨rfl, rfl⟩, hle⟩
        · exact absurd ⟨hw, hle⟩ hold
        · exact ⟨rfl, rfl⟩
    · simp only [put_pc_of_ne hθ, h.writing_iff, Prod.mk.injEq, Ne.symm hθ, false_and,
        and_false, or_false]
  · intro θ' t
    show _ ↔ l.readers[t]? = some θ' ∧ s.seqOf cfg t ≤ t + 1
    rw [← h.reading_iff]
    by_cases hθ : θ' = θ
    · subst hθ; simp [hp, Pc.reading]
    · simp [put_pc_of_ne hθ]
  · intro θ' t ht
    by_cases hθ : θ' = θ
    · subst hθ; simp [Pc.filling] at ht
    · exact h.filling_eq θ' t (by simpa [put_pc_of_ne hθ] using ht)
  · intro θ' t ht
    by_cases hθ : θ' = θ
    · subst hθ; simp [Pc.draining] at ht
    · exact h.draining_eq θ' t (by simpa [put_pc_of_ne hθ] using ht)
  · intro t ht
    exact Nat.lt_succ_of_lt (h.published_lt t ht)
  · exact h.consumed_lt
  · exact h.turn

/-- A read ticket is claimed. -/
theorem claimRead (h : Tickets cfg s l) {d : Dest} (hp : s.pc θ = .deqClaim d) :
    Tickets cfg (s.put θ { s.mem with readTicket := s.mem.readTicket + 1 }
      (.deqSpin d s.mem.readTicket)) { l with readers := l.readers ++ [θ] } := by
  have hnew : s.seqOf cfg s.mem.readTicket ≤ s.mem.readTicket + 1 := by
    by_contra hlt
    exact absurd (h.consumed_lt _ (by omega)) (lt_irrefl _)
  constructor
  · exact h.writeTicket_eq
  · simp [h.readTicket_eq]
  · intro θ' t v'
    show _ ↔ l.writers[t]? = some (θ', v') ∧ s.seqOf cfg t ≤ t
    rw [← h.writing_iff]
    by_cases hθ : θ' = θ
    · subst hθ; simp [hp, Pc.writing]
    · simp [put_pc_of_ne hθ]
  · intro θ' t
    show _ ↔ (l.readers ++ [θ])[t]? = some θ' ∧ s.seqOf cfg t ≤ t + 1
    rw [getElem?_concat_eq_some, ← h.readTicket_eq]
    by_cases hθ : θ' = θ
    · subst hθ
      have hold : ¬ (l.readers[t]? = some θ' ∧ s.seqOf cfg t ≤ t + 1) := by
        rw [← h.reading_iff, hp]; simp [Pc.reading]
      simp only [put_pc_self, Pc.reading, Option.some.injEq, and_true]
      constructor
      · rintro rfl
        exact ⟨Or.inr rfl, hnew⟩
      · rintro ⟨hr | rfl, hle⟩
        · exact absurd ⟨hr, hle⟩ hold
        · rfl
    · simp only [put_pc_of_ne hθ, h.reading_iff, Ne.symm hθ, and_false, or_false]
  · intro θ' t ht
    by_cases hθ : θ' = θ
    · subst hθ; simp [Pc.filling] at ht
    · exact h.filling_eq θ' t (by simpa [put_pc_of_ne hθ] using ht)
  · intro θ' t ht
    by_cases hθ : θ' = θ
    · subst hθ; simp [Pc.draining] at ht
    · exact h.draining_eq θ' t (by simpa [put_pc_of_ne hθ] using ht)
  · exact h.published_lt
  · intro t ht
    exact Nat.lt_succ_of_lt (h.consumed_lt t ht)
  · exact h.turn

theorem seqOf_setSeq (t u x : ℕ) :
    (s.put θ (s.mem.setSeq (t % cfg.SIZE) x) p').seqOf cfg u =
      if u % cfg.SIZE = t % cfg.SIZE then x else s.seqOf cfg u := by
  unfold State.seqOf
  split_ifs with h
  · simp [h]
  · simp [setSeq_seq_of_ne _ _ h]

/-- A `seq` store, from `y` to `x`, by the thread whose turn it is. It concerns the tickets of one
slot only: those of the thread itself are done, and those of the others are later ones. -/
theorem publish (h : Tickets cfg s l) {t x y : ℕ} (hp' : p'.Quiet) (hlw : l'.writers = l.writers)
    (hlr : l'.readers = l.readers) (hsame : ∀ u, u % cfg.SIZE = t % cfg.SIZE → s.seqOf cfg u = y)
    (hyx : y < x) (hwrite : ∀ u v, (s.pc θ).writing = some (u, v) → u = t ∧ t < x)
    (hread : ∀ u, (s.pc θ).reading = some u → u = t ∧ t + 1 < x)
    (hwrites : ∀ θ' ≠ θ, ∀ u v, u % cfg.SIZE = t % cfg.SIZE →
      l.writers[u]? = some (θ', v) → y ≤ u → x ≤ u)
    (hreads : ∀ θ' ≠ θ, ∀ u, u % cfg.SIZE = t % cfg.SIZE → l.readers[u]? = some θ' →
      y ≤ u + 1 → x ≤ u + 1)
    (hpub : ∀ u, u % cfg.SIZE = t % cfg.SIZE → u < x → u < s.mem.writeTicket)
    (hcons : ∀ u, u % cfg.SIZE = t % cfg.SIZE → u + 1 < x → u < s.mem.readTicket)
    (hturn : ∃ u, u % cfg.SIZE = t % cfg.SIZE ∧ (x = u ∨ x = u + 1)) :
    Tickets cfg (s.put θ (s.mem.setSeq (t % cfg.SIZE) x) p') l' := by
  -- what is past its turn after the store was so before
  have hmono : ∀ u n, (if u % cfg.SIZE = t % cfg.SIZE then x else s.seqOf cfg u) ≤ n →
      s.seqOf cfg u ≤ n := by
    intro u n hle
    split_ifs at hle with hut
    · rw [hsame u hut]
      omega
    · exact hle
  constructor
  · rw [hlw]; exact h.writeTicket_eq
  · rw [hlr]; exact h.readTicket_eq
  · intro θ' u v
    rw [seqOf_setSeq, hlw]
    by_cases hθ : θ' = θ
    · subst hθ
      simp only [put_pc_self, hp'.1, reduceCtorEq, false_iff, not_and]
      intro hu hle
      obtain ⟨rfl, hlt⟩ := hwrite u v ((h.writing_iff θ' u v).2 ⟨hu, hmono u u hle⟩)
      rw [if_pos rfl] at hle
      omega
    · simp only [put_pc_of_ne hθ, h.writing_iff]
      refine and_congr_right fun hu => ⟨fun hle => ?_, hmono u u⟩
      split_ifs with hut
      · exact hwrites θ' hθ u v hut hu (hsame u hut ▸ hle)
      · exact hle
  · intro θ' u
    rw [seqOf_setSeq, hlr]
    by_cases hθ : θ' = θ
    · subst hθ
      simp only [put_pc_self, hp'.2, reduceCtorEq, false_iff, not_and]
      intro hu hle
      obtain ⟨rfl, hlt⟩ := hread u ((h.reading_iff θ' u).2 ⟨hu, hmono u (u + 1) hle⟩)
      rw [if_pos rfl] at hle
      omega
    · simp only [put_pc_of_ne hθ, h.reading_iff]
      refine and_congr_right fun hu => ⟨fun hle => ?_, hmono u (u + 1)⟩
      split_ifs with hut
      · exact hreads θ' hθ u hut hu (hsame u hut ▸ hle)
      · exact hle
  · intro θ' u hu
    rw [seqOf_setSeq]
    by_cases hθ : θ' = θ
    · subst hθ; simp [hp'.filling] at hu
    · rw [put_pc_of_ne hθ] at hu
      have hfill := h.filling_eq θ' u hu
      split_ifs with hut
      · obtain ⟨v, hv⟩ := Pc.writing_of_filling hu
        rw [hsame u hut] at hfill
        have hle := hwrites θ' hθ u v hut ((h.writing_iff θ' u v).1 hv).1 hfill.le
        omega
      · exact hfill
  · intro θ' u hu
    rw [seqOf_setSeq]
    by_cases hθ : θ' = θ
    · subst hθ; simp [hp'.draining] at hu
    · rw [put_pc_of_ne hθ] at hu
      have hdrain := h.draining_eq θ' u hu
      split_ifs with hut
      · rw [hsame u hut] at hdrain
        have hr := (h.reading_iff θ' u).1 (Pc.reading_of_draining hu)
        have hle := hreads θ' hθ u hut hr.1 hdrain.le
        omega
      · exact hdrain
  · intro u hu
    rw [seqOf_setSeq] at hu
    split_ifs at hu with hut
    · exact hpub u hut hu
    · exact h.published_lt u hu
  · intro u hu
    rw [seqOf_setSeq] at hu
    split_ifs at hu with hut
    · exact hcons u hut hu
    · exact h.consumed_lt u hu
  · intro u
    rw [seqOf_setSeq]
    split_ifs with hut
    · obtain ⟨u', hu', hx⟩ := hturn
      exact ⟨u', hu'.trans hut.symm, hx⟩
    · exact h.turn u

/-- The `seq` store of an enqueue: the turn of its slot passes from the write to the read. -/
theorem publishWrite (h : Tickets cfg s l) {k : EnqKind} {v : Payload ω W} {t : ℕ}
    {done : Finset (Fin W)} (hp : s.pc θ = .enqCopy k v t done) :
    Tickets cfg (s.put θ (s.mem.setSeq (t % cfg.SIZE) (t + 1)) .enqReturn) l := by
  have hw : (s.pc θ).writing = some (t, v) := by rw [hp]; rfl
  have hseq : s.seqOf cfg t = t := h.filling_eq θ t (by rw [hp]; rfl)
  have hsame : ∀ u, u % cfg.SIZE = t % cfg.SIZE → s.seqOf cfg u = t := by
    intro u hu
    rw [State.seqOf, hu]; exact hseq
  have ht := h.lt_writeTicket hw
  refine h.publish ⟨rfl, rfl⟩ rfl rfl hsame (Nat.lt_succ_self t) (fun u v' hu => ?_)
    (fun u hu => ?_) (fun θ' hθ u v' _ hu hle => ?_) (fun θ' _ u hut _ hle => ?_)
    (fun u _ hu => by omega) (fun u hut hu => ?_) ⟨t, rfl, Or.inr rfl⟩
  · rw [hw] at hu
    cases hu
    exact ⟨rfl, Nat.lt_succ_self t⟩
  · rw [hp] at hu
    cases hu
  · -- the ticket `t` itself belongs to `θ`
    refine lt_of_le_of_ne hle ?_
    rintro rfl
    rw [((h.writing_iff θ t v).1 hw).1] at hu
    cases hu
    exact hθ rfl
  · have hne := Config.ne_succ hut.symm
    omega
  · have hround := Config.add_size_le hut (by omega)
    have hsize := cfg.two_le
    exact h.consumed_lt u (by rw [hsame u hut]; omega)

/-- The `seq` store of a dequeue: the turn of its slot passes to the write one lap later. -/
theorem publishRead (h : Tickets cfg s l) {d : Dest} {t : ℕ} {buf : Fin W → Option ω}
    (hp : s.pc θ = .deqCopy d t buf) (hp' : p'.Quiet) (hlw : l'.writers = l.writers)
    (hlr : l'.readers = l.readers) :
    Tickets cfg (s.put θ (s.mem.setSeq (t % cfg.SIZE) (t + cfg.SIZE)) p') l' := by
  have hr : (s.pc θ).reading = some t := by rw [hp]; rfl
  have hseq : s.seqOf cfg t = t + 1 := h.draining_eq θ t (by rw [hp]; rfl)
  have hsame : ∀ u, u % cfg.SIZE = t % cfg.SIZE → s.seqOf cfg u = t + 1 := by
    intro u hu
    rw [State.seqOf, hu]; exact hseq
  have hsize := cfg.two_le
  -- an earlier or a later ticket of the slot is a lap away
  have hlap : ∀ u, u % cfg.SIZE = t % cfg.SIZE → u = t ∨ u + cfg.SIZE ≤ t ∨ t + cfg.SIZE ≤ u := by
    intro u hut
    rcases lt_trichotomy u t with hlt | heq | hgt
    · exact Or.inr (Or.inl (Config.add_size_le hut hlt))
    · exact Or.inl heq
    · exact Or.inr (Or.inr (Config.add_size_le hut.symm hgt))
  refine h.publish hp' hlw hlr hsame (by omega) (fun u v hu => ?_) (fun u hu => ?_)
    (fun θ' _ u v hut _ hle => ?_) (fun θ' hθ u hut hu hle => ?_) (fun u hut hu => ?_)
    (fun u hut hu => ?_) ⟨t + cfg.SIZE, Nat.add_mod_right t cfg.SIZE, Or.inl rfl⟩
  · rw [hp] at hu
    cases hu
  · rw [hr] at hu
    cases hu
    exact ⟨rfl, by omega⟩
  · have hlaps := hlap u hut
    omega
  · -- the ticket `t` itself belongs to `θ`
    have hne : u ≠ t := by
      rintro rfl
      rw [((h.reading_iff θ u).1 hr).1] at hu
      cases hu
      exact hθ rfl
    have hlaps := hlap u hut
    omega
  · have hlaps := hlap u hut
    exact h.published_lt u (by rw [hsame u hut]; omega)
  · rcases hlap u hut with rfl | hlt | hgt
    · exact h.lt_readTicket hr
    · exact h.consumed_lt u (by rw [hsame u hut]; omega)
    · omega

/-- **Every step keeps the ticket invariant.** -/
theorem step (h : Tickets cfg s l) (he : Effect cfg θ s.mem (s.pc θ) l m' p' l') :
    Tickets cfg (s.put θ m' p') l' := by
  cases he with
  | silent hw hr hseq hpw hpr hpf hpd hlw hlr =>
    exact h.silent hw hr hseq hpw hpr (fun t ht => h.filling_eq θ t (hpf ▸ ht))
      (fun t ht => h.draining_eq θ t (hpd ▸ ht)) hlw hlr
  | claimWrite k v hp hp' hm hl => subst hm hp' hl; exact h.claimWrite hp
  | claimRead d hp hp' hm hl => subst hm hp' hl; exact h.claimRead hp
  | passWrite k v t hp hseq hp' hm hl =>
    subst hm hl
    refine h.silent rfl rfl (fun _ => rfl) ?_ ?_ ?_ ?_ rfl rfl
    · rw [hp, hp', enqPast_writing]; rfl
    · rw [hp, hp', enqPast_reading]; rfl
    · intro u hu
      rw [hp', enqPast_filling] at hu
      cases hu
      exact hseq
    · intro u hu
      rw [hp', enqPast_draining] at hu
      cases hu
  | passRead d t hp hseq hp' hm hl =>
    subst hm hl
    refine h.silent rfl rfl (fun _ => rfl) ?_ ?_ ?_ ?_ rfl rfl
    · rw [hp, hp']; rfl
    · rw [hp, hp']; rfl
    · intro u hu
      rw [hp'] at hu
      cases hu
    · intro u hu
      rw [hp'] at hu
      cases hu
      exact hseq
  | publishWrite k v t hp hp' hm hl => subst hm hp' hl; exact h.publishWrite hp
  | publishRead d t buf v hp hv hp' hm hlw hlr =>
    subst hm hp'
    exact h.publishRead hp (deqPast_quiet t v d) hlw hlr

end Tickets

end Invariant

end AstraLib.Ring
