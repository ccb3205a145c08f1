import AstraLib.Ring.Progress

/-!
# `AtomicRingBuffer`: 64-bit tickets

The queue as coded: the counters and the sequence numbers are `int64_t`, a ticket is a `uint64_t`,
and all of them wrap.  Every run of it in which few enough operations are in flight is a run of the
protocol with unbounded tickets, step by step.

* Reduction modulo `2 ^ 64` commutes with everything that is computed with tickets (`IsHom`), so
  that the two runs can only come apart at a comparison.
* A spin test compares a pending ticket with the `seq` of its slot.  Every ticket of the
  slot between the two is pending too, each in a thread of its own.  With at most `T`
  operations in flight the two are thus less than `T * SIZE` apart, and if they agree
  modulo `2 ^ 64` then they are equal.
* The two loads of `isEmpty` may be arbitrarily far apart in time.  It is carried along, its answer
  is not: it may report a queue as empty after `2 ^ 64` operations between the loads.
-/

namespace AstraLib.Ring

open Interleaving

/-- Tickets as coded. `fetch_add` on an `int64_t` wraps; a comparison of a `seq` with a ticket is
one of `uint64_t`. -/
def machine (cfg : Config) : TicketArith Int64 UInt64 where
  ofInt i := .ofNat i
  fetchAdd c := c + 1
  ticket c := c.toUInt64
  add t n := t + .ofNat n
  store t := t.toInt64
  index t := (toInt ((t &&& .ofNat (cfg.SIZE - 1)).toNat : ℤ)).toNat

/-! ### Changing the words -/

section Words

variable {κ τ κ' τ' ω : Type} {W : ℕ} (f : κ → κ') (g : τ → τ')

/-- Replace the words in which the tickets are stored. -/
def Mem.map (m : Mem κ ω W) : Mem κ' ω W where
  batchDequeueArray := m.batchDequeueArray
  buffer i := ⟨f (m.buffer i).seq, (m.buffer i).data⟩
  writeTicket := f m.writeTicket
  readTicket := f m.readTicket

/-- Replace the words in which the tickets are held. -/
def Pc.map : Pc κ τ ω W → Pc κ' τ' ω W
  | .idle => .idle
  | .enqClaim k v => .enqClaim k v
  | .enqSpin k v t => .enqSpin k v (g t)
  | .enqDestroy v t => .enqDestroy v (g t)
  | .enqCopy k v t done => .enqCopy k v (g t) done
  | .enqReturn => .enqReturn
  | .batchLoop i count => .batchLoop i count
  | .deqClaim d => .deqClaim d
  | .deqSpin d t => .deqSpin d (g t)
  | .deqCopy d t buf => .deqCopy d (g t) buf
  | .deqReturn t v => .deqReturn (g t) v
  | .batchReturn => .batchReturn
  | .isEmptyCall => .isEmptyCall
  | .isEmptyWrite w => .isEmptyWrite (f w)
  | .isEmptyRead r => .isEmptyRead (f r)
  | .isEmptyReturn b => .isEmptyReturn b

variable (m : Mem κ ω W)

theorem map_setSeq (i : ℕ) (x : κ) : (m.setSeq i x).map f = (m.map f).setSeq i (f x) := by
  simp only [Mem.map, Mem.setSeq, Mem.mk.injEq, true_and, and_true]
  funext i'
  by_cases h : i' = i
  · subst h; simp
  · simp [Function.update_of_ne h]

theorem map_setData (i : ℕ) (v : Payload ω W) : (m.setData i v).map f = (m.map f).setData i v := by
  simp only [Mem.map, Mem.setData, Mem.mk.injEq, true_and, and_true]
  funext i'
  by_cases h : i' = i
  · subst h; simp
  · simp [Function.update_of_ne h]

theorem map_setWord (i : ℕ) (j : Fin W) (x : ω) :
    (m.setWord i j x).map f = (m.map f).setWord i j x :=
  map_setData f m i _

theorem map_deliver (j : Fin W) (x : ω) (d : Dest) :
    (m.deliver j x d).map f = (m.map f).deliver j x d := by
  cases d <;> rfl

theorem map_entry (cfg : Config) (c : Call ω W) :
    (c.entry cfg : Pc κ τ ω W).map f g = c.entry cfg := by
  cases c <;> rfl

theorem map_enqPast (cfg : Config) (k : EnqKind) (v : Payload ω W) (t : τ) :
    (Pc.enqPast cfg k v t : Pc κ τ ω W).map f g = Pc.enqPast cfg k v (g t) := by
  unfold Pc.enqPast
  split_ifs <;> rfl

theorem map_deqPast (t : τ) (v : Payload ω W) (d : Dest) :
    (Pc.deqPast t v d : Pc κ τ ω W).map f g = Pc.deqPast (g t) v d := by
  cases d <;> rfl

/-- The arithmetic of `ar'` is that of `ar` seen through `f` and `g`. -/
structure IsHom (ar : TicketArith κ τ) (ar' : TicketArith κ' τ') : Prop where
  ofInt : ∀ i, ar'.ofInt i = f (ar.ofInt i)
  fetchAdd : ∀ c, ar'.fetchAdd (f c) = f (ar.fetchAdd c)
  ticket : ∀ c, ar'.ticket (f c) = g (ar.ticket c)
  add : ∀ t n, ar'.add (g t) n = g (ar.add t n)
  store : ∀ t, ar'.store (g t) = f (ar.store t)
  index : ∀ t, ar'.index (g t) = ar.index t

/-- The program counters agree, but for the answer of an `isEmpty`. -/
inductive Pc.Matches : Pc κ' τ' ω W → Pc κ τ ω W → Prop
  | same (q : Pc κ τ ω W) : Matches (q.map f g) q
  | isEmptyReturn (b b' : Bool) (h : b' = true → b = true) :
      Matches (.isEmptyReturn b) (.isEmptyReturn b')

variable {f g m}

/-- The program with the words changed does what the program does, provided that no comparison of
tickets identifies words that differ. -/
theorem Exec.reflect {ar : TicketArith κ τ} {ar' : TicketArith κ' τ'} (hom : IsHom f g ar ar')
    [DecidableEq κ] {cfg : Config} {q : Pc κ τ ω W} {a : Micro ω W} {m₁ : Mem κ' ω W}
    {p₁ : Pc κ' τ' ω W} (h : Exec ar' cfg (m.map f) (q.map f g) a m₁ p₁)
    (hw : ∀ k v t, q = .enqSpin k v t → g (ar.ticket (m.buffer (ar.index t)).seq) = g t →
      ar.ticket (m.buffer (ar.index t)).seq = t)
    (hr : ∀ d t, q = .deqSpin d t → g (ar.ticket (m.buffer (ar.index t)).seq) = g (ar.add t 1) →
      ar.ticket (m.buffer (ar.index t)).seq = ar.add t 1) :
    ∃ m' q', Exec ar cfg m q a m' q' ∧ m₁ = m'.map f ∧ p₁.Matches f g q' := by
  cases q with
  | idle =>
    cases h with
    | call c => exact ⟨m, _, .call c, rfl, map_entry f g cfg c ▸ .same _⟩
  | enqClaim k v =>
    cases h
    refine ⟨_, _, .enqClaim k v, ?_, ?_⟩
    · simp [Mem.map, hom.fetchAdd]
    · rw [show (m.map f).writeTicket = f m.writeTicket from rfl, hom.ticket]
      exact .same (.enqSpin k v _)
  | enqSpin k v t =>
    cases h with
    | enqPass _ _ _ h =>
      rw [hom.index, Mem.map, hom.ticket] at h
      exact ⟨m, _, .enqPass k v t (hw k v t rfl h), rfl, map_enqPast f g cfg k v t ▸ .same _⟩
    | enqRetry _ _ _ h =>
      rw [hom.index, Mem.map, hom.ticket] at h
      exact ⟨m, _, .enqRetry k v t fun heq => h (congrArg g heq), rfl, .same (.enqSpin k v t)⟩
  | enqDestroy v t =>
    cases h with
    | destroy _ _ junk =>
      refine ⟨_, _, .destroy v t junk, ?_, .same (.enqCopy .emplace v t ∅)⟩
      rw [map_setData, hom.index]
  | enqCopy k v t done =>
    cases h with
    | enqCopy _ _ _ _ j left h =>
      refine ⟨_, _, .enqCopy k v t done j left h, ?_, .same (.enqCopy k v t (insert j done))⟩
      rw [map_setWord, hom.index]
    | enqPublish =>
      refine ⟨_, _, .enqPublish k v t, ?_, .same .enqReturn⟩
      rw [map_setSeq, hom.index, hom.add, hom.store]
  | enqReturn => cases h; exact ⟨m, _, .enqRet, rfl, .same .idle⟩
  | batchLoop i count =>
    cases h with
    | loopNext _ _ h => exact ⟨m, _, .loopNext i count h, rfl, .same (.deqClaim (.batch i count))⟩
    | loopEnd _ _ h => exact ⟨m, _, .loopEnd i count h, rfl, .same .batchReturn⟩
  | deqClaim d =>
    cases h
    refine ⟨_, _, .deqClaim d, ?_, ?_⟩
    · simp [Mem.map, hom.fetchAdd]
    · rw [show (m.map f).readTicket = f m.readTicket from rfl, hom.ticket]
      exact .same (.deqSpin d _)
  | deqSpin d t =>
    cases h with
    | deqPass _ _ h =>
      rw [hom.index, Mem.map, hom.ticket, hom.add] at h
      exact ⟨m, _, .deqPass d t (hr d t rfl h), rfl, .same (.deqCopy d t _)⟩
    | deqRetry _ _ h =>
      rw [hom.index, Mem.map, hom.ticket, hom.add] at h
      exact ⟨m, _, .deqRetry d t fun heq => h (congrArg g heq), rfl, .same (.deqSpin d t)⟩
  | deqCopy d t buf =>
    cases h with
    | deqCopy _ _ _ j left h =>
      refine ⟨_, _, .deqCopy d t buf j left h, ?_, ?_⟩
      · rw [map_deliver, map_setWord, hom.index]; rfl
      · rw [hom.index]; exact .same (.deqCopy d t _)
    | deqPublish _ _ _ v h =>
      refine ⟨_, _, .deqPublish d t buf v h, ?_, map_deqPast f g t v d ▸ .same _⟩
      rw [map_setSeq, hom.index, hom.add, hom.store]
  | deqReturn t v => cases h; exact ⟨m, _, .deqRet t v, rfl, .same .idle⟩
  | batchReturn => cases h; exact ⟨m, _, .batchRet, rfl, .same .idle⟩
  | isEmptyCall =>
    cases h with
    | firstWrite => exact ⟨m, _, .firstWrite, rfl, .same (.isEmptyWrite m.writeTicket)⟩
    | firstRead => exact ⟨m, _, .firstRead, rfl, .same (.isEmptyRead m.readTicket)⟩
  | isEmptyWrite w =>
    cases h with
    | thenRead _ b h =>
      refine ⟨m, _, .thenRead w (decide (w = m.readTicket)) (by simp), rfl, .isEmptyReturn _ _ ?_⟩
      exact fun heq => h.2 (congrArg f (of_decide_eq_true heq))
  | isEmptyRead r =>
    cases h with
    | thenWrite _ b h =>
      refine ⟨m, _, .thenWrite r (decide (m.writeTicket = r)) (by simp), rfl, .isEmptyReturn _ _ ?_⟩
      exact fun heq => h.2 (congrArg f (of_decide_eq_true heq))
  | isEmptyReturn b => cases h; exact ⟨m, _, .isEmptyRet b, rfl, .same .idle⟩

end Words

/-! ### Reduction modulo `2 ^ 64` -/

/-- A natural number in the word of a counter or of a `seq`. -/
def toCounter (n : ℕ) : Int64 := .ofNat n

/-- A natural number in the word of a ticket. -/
def toTicket (n : ℕ) : UInt64 := .ofNat n

theorem toTicket_eq_iff {m n : ℕ} : toTicket m = toTicket n ↔ m % 2 ^ 64 = n % 2 ^ 64 := by
  rw [toTicket, toTicket, ← UInt64.toNat_inj, UInt64.toNat_ofNat', UInt64.toNat_ofNat']

theorem Config.size_dvd (cfg : Config) : cfg.SIZE ∣ 2 ^ 64 := by
  obtain ⟨k, hk⟩ := cfg.exists_pow
  have hle := cfg.le_int
  rw [hk] at hle ⊢
  have : k ≤ 30 := (Nat.pow_le_pow_iff_right (by omega)).1 hle
  exact Nat.pow_dvd_pow 2 (by omega)

theorem machine_isHom (cfg : Config) : IsHom toCounter toTicket (unbounded cfg) (machine cfg) where
  ofInt _ := rfl
  fetchAdd c := (Int64.ofNat_add c 1).symm
  ticket _ := rfl
  add t n := (UInt64.ofNat_add t n).symm
  store _ := rfl
  index t := by
    have hle := cfg.le_int
    have hsize : (cfg.SIZE - 1) % 2 ^ 64 = cfg.SIZE - 1 := Nat.mod_eq_of_lt (by omega)
    simp only [machine, unbounded, toTicket, UInt64.toNat_and, UInt64.toNat_ofNat', hsize,
      cfg.land_mask, Nat.mod_mod_of_dvd t cfg.size_dvd]

/-! ### How far a pending ticket can run ahead -/

section InFlight

variable {Tid κ τ ω : Type} {W : ℕ}

/-- At most `T` operations are in flight. -/
def State.InFlight (T : ℕ) (s : State Tid κ τ ω W) : Prop :=
  {θ | s.pc θ ≠ .idle}.encard ≤ T

/-- If the first `n` laps of a slot from ticket `c` on are all held, then by as many threads. `view`
is the ticket of a thread. -/
theorem State.InFlight.laps_le {T : ℕ} {s : State Tid κ τ ω W} (h : s.InFlight T) (cfg : Config)
    (view : Pc κ τ ω W → Option ℕ) (hidle : view .idle = none) (c : ℕ) {n : ℕ}
    (hex : ∀ i < n, ∃ θ, view (s.pc θ) = some (c + i * cfg.SIZE)) : n ≤ T := by
  choose holder hholder using fun i : Fin n => hex i i.2
  have hinj : Function.Injective holder := by
    intro i j hij
    have heq := hholder i
    rw [hij, hholder j] at heq
    simp only [Option.some.injEq, Nat.add_left_cancel_iff] at heq
    exact Fin.ext (Nat.eq_of_mul_eq_mul_right cfg.size_pos heq).symm
  have h1 : ((n : ℕ) : ℕ∞) ≤ (Set.range holder).encard := by
    simpa using hinj.encard_range
  have h2 : Set.range holder ⊆ {θ | s.pc θ ≠ .idle} := by
    rintro _ ⟨i, rfl⟩ hi
    have heq := hholder i
    rw [hi, hidle] at heq
    cases heq
  exact_mod_cast h1.trans ((Set.encard_le_encard h2).trans h)

variable {cfg : Config} {T : ℕ} {s : State Tid ℕ ℕ ω W} {l : Log Tid ω W}

/-- The pending write tickets of a slot: from the `seq` on, every claimed one. -/
theorem Tickets.pending_writes_le (h : Tickets cfg s l) (hfl : s.InFlight T) {c n : ℕ}
    (hlast : ∀ i < n, c + i * cfg.SIZE < s.mem.writeTicket) (hseq : s.seqOf cfg c ≤ c) : n ≤ T := by
  refine hfl.laps_le cfg (fun p => p.writing.map Prod.fst) rfl c fun i hi => ?_
  obtain ⟨θ, v, hw⟩ := h.exists_writing (hlast i hi)
    (by rw [State.seqOf, Nat.add_mul_mod_self_right, ← State.seqOf]; omega)
  exact ⟨θ, by rw [hw]; rfl⟩

/-- The pending read tickets of a slot. -/
theorem Tickets.pending_reads_le (h : Tickets cfg s l) (hfl : s.InFlight T) {c n : ℕ}
    (hlast : ∀ i < n, c + i * cfg.SIZE < s.mem.readTicket) (hseq : s.seqOf cfg c ≤ c + 1) :
    n ≤ T := by
  refine hfl.laps_le cfg Pc.reading rfl c fun i hi => ?_
  exact h.exists_reading (hlast i hi)
    (by rw [State.seqOf, Nat.add_mul_mod_self_right, ← State.seqOf]; omega)

/-- Two tickets of one slot are a number of laps apart. -/
theorem Config.exists_laps {t u : ℕ} (h : u % cfg.SIZE = t % cfg.SIZE) (hle : u ≤ t) :
    ∃ n, t = u + n * cfg.SIZE := by
  obtain ⟨n, hn⟩ := (Nat.modEq_iff_dvd' hle).1 h
  exact ⟨n, by rw [Nat.mul_comm]; omega⟩

theorem Tickets.write_distance (h : Tickets cfg s l) (hfl : s.InFlight T) {θ : Tid} {t : ℕ}
    {v : Payload ω W} (hw : (s.pc θ).writing = some (t, v)) :
    s.seqOf cfg t ≤ t ∧ t - s.seqOf cfg t < T * cfg.SIZE := by
  have hle := ((h.writing_iff θ t v).1 hw).2
  have hlt := h.lt_writeTicket hw
  have hpos := cfg.size_pos
  refine ⟨hle, ?_⟩
  have hsame : ∀ u, u % cfg.SIZE = t % cfg.SIZE → s.seqOf cfg u = s.seqOf cfg t := by
    intro u hu
    rw [State.seqOf, State.seqOf, hu]
  obtain ⟨u, hut, hu | hu⟩ := h.turn t
  · -- the slot waits for the write of `u`, and every later lap up to `t` is pending
    obtain ⟨n, rfl⟩ := Config.exists_laps hut (by omega)
    have hn : n + 1 ≤ T := by
      refine h.pending_writes_le hfl (c := u) (fun i hi => ?_) (by rw [hsame u hut]; omega)
      have : i * cfg.SIZE ≤ n * cfg.SIZE := Nat.mul_le_mul_right _ (by omega)
      omega
    have : (n + 1) * cfg.SIZE ≤ T * cfg.SIZE := Nat.mul_le_mul_right _ hn
    rw [Nat.add_mul] at this
    omega
  · -- the slot waits for the read of `u`, and the write one lap later is the first pending one
    obtain ⟨n, rfl⟩ := Config.exists_laps hut (by omega)
    have hlap : (u + cfg.SIZE) % cfg.SIZE = (u + n * cfg.SIZE) % cfg.SIZE := by
      rw [Nat.add_mod_right, hut]
    have htwo := cfg.two_le
    have hn : n ≤ T := by
      refine h.pending_writes_le hfl (c := u + cfg.SIZE) (fun i hi => ?_)
        (by rw [hsame _ hlap]; omega)
      have : (i + 1) * cfg.SIZE ≤ n * cfg.SIZE := Nat.mul_le_mul_right _ hi
      rw [Nat.add_mul] at this
      omega
    have : n * cfg.SIZE ≤ T * cfg.SIZE := Nat.mul_le_mul_right _ hn
    omega

theorem Tickets.read_distance (h : Tickets cfg s l) (hfl : s.InFlight T) {θ : Tid} {t : ℕ}
    (hr : (s.pc θ).reading = some t) :
    s.seqOf cfg t ≤ t + 1 ∧ t + 1 - s.seqOf cfg t < T * cfg.SIZE := by
  have hle := ((h.reading_iff θ t).1 hr).2
  have hlt := h.lt_readTicket hr
  have htwo := cfg.two_le
  refine ⟨hle, ?_⟩
  obtain ⟨u, hut, hu⟩ := h.turn t
  have hsame : s.seqOf cfg u = s.seqOf cfg t := by rw [State.seqOf, State.seqOf, hut]
  -- whether the slot waits for the write or for the read of `u`, its reads are pending from `u` on
  have hne := Config.ne_succ hut
  obtain ⟨n, rfl⟩ := Config.exists_laps hut (by omega)
  have hn : n + 1 ≤ T := by
    refine h.pending_reads_le hfl (c := u) (fun i hi => ?_) (by omega)
    have : i * cfg.SIZE ≤ n * cfg.SIZE := Nat.mul_le_mul_right _ (by omega)
    omega
  have : (n + 1) * cfg.SIZE ≤ T * cfg.SIZE := Nat.mul_le_mul_right _ hn
  rw [Nat.add_mul] at this
  omega

/-- Pending tickets are told apart from the `seq` of their slot by their last 64 bits. -/
theorem eq_of_toTicket_eq {m n : ℕ} (h : toTicket m = toTicket n) (hle : m ≤ n)
    (hlt : n - m < 2 ^ 64) : m = n := by
  rw [toTicket_eq_iff] at h
  have := (Nat.modEq_iff_dvd' hle).1 h
  by_contra hne
  have := Nat.le_of_dvd (by omega) this
  omega

/-! ### The simulation -/

/-- The machine state `s` is the unbounded state `u`, seen through its words. -/
structure Simulates (s : State Tid Int64 UInt64 ω W) (u : State Tid ℕ ℕ ω W) : Prop where
  mem : s.mem = u.mem.map toCounter
  pc : ∀ θ, (s.pc θ).Matches toCounter toTicket (u.pc θ)

/-- Thread `θ` is at its spin test, and the test passes. -/
def State.Passes (ar : TicketArith κ τ) (s : State Tid κ τ ω W) (θ : Tid) : Prop :=
  (∃ k v t, s.pc θ = .enqSpin k v t ∧ ar.ticket (s.mem.buffer (ar.index t)).seq = t) ∨
  (∃ d t, s.pc θ = .deqSpin d t ∧ ar.ticket (s.mem.buffer (ar.index t)).seq = ar.add t 1)

theorem Pc.Matches.eq_idle_iff {p : Pc Int64 UInt64 ω W} {q : Pc ℕ ℕ ω W}
    (h : p.Matches toCounter toTicket q) : p = .idle ↔ q = .idle := by
  cases h with
  | same => cases q <;> simp [Pc.map]
  | isEmptyReturn b b' h => simp

theorem Pc.Matches.deqReturn_iff {p : Pc Int64 UInt64 ω W} {q : Pc ℕ ℕ ω W}
    (h : p.Matches toCounter toTicket q) (v : Payload ω W) :
    (∃ t, p = .deqReturn t v) ↔ ∃ t, q = .deqReturn t v := by
  cases h with
  | same => cases q <;> simp [Pc.map]
  | isEmptyReturn b b' h => simp

variable {x : State Tid Int64 UInt64 ω W}

theorem Simulates.inFlight (h : Simulates x s) (hx : x.InFlight T) : s.InFlight T := by
  have heq : {θ | s.pc θ ≠ .idle} = {θ | x.pc θ ≠ .idle} := by
    ext θ
    exact not_congr (h.pc θ).eq_idle_iff.symm
  rw [State.InFlight, heq]
  exact hx

theorem Tickets.write_test (h : Tickets cfg s l) (hfl : s.InFlight T) (hT : T * cfg.SIZE < 2 ^ 64)
    {θ : Tid} {k : EnqKind} {v : Payload ω W} {t : ℕ} (hp : s.pc θ = .enqSpin k v t) :
    toTicket (s.seqOf cfg t) = toTicket t → s.seqOf cfg t = t := by
  intro heq
  obtain ⟨hle, hlt⟩ := h.write_distance hfl (θ := θ) (t := t) (v := v) (by rw [hp]; rfl)
  exact eq_of_toTicket_eq heq hle (by omega)

theorem Tickets.read_test (h : Tickets cfg s l) (hfl : s.InFlight T) (hT : T * cfg.SIZE < 2 ^ 64)
    {θ : Tid} {d : Dest} {t : ℕ} (hp : s.pc θ = .deqSpin d t) :
    toTicket (s.seqOf cfg t) = toTicket (t + 1) → s.seqOf cfg t = t + 1 := by
  intro heq
  obtain ⟨hle, hlt⟩ := h.read_distance hfl (θ := θ) (t := t) (by rw [hp]; rfl)
  exact eq_of_toTicket_eq heq hle (by omega)

section Passes

variable {ar : TicketArith κ τ} {u : State Tid κ τ ω W} {θ : Tid}

theorem State.passes_enqSpin {k : EnqKind} {v : Payload ω W} {t : τ} (h : u.pc θ = .enqSpin k v t) :
    u.Passes ar θ ↔ ar.ticket (u.mem.buffer (ar.index t)).seq = t := by
  constructor
  · rintro (⟨k', v', t', hp, heq⟩ | ⟨d, t', hp, -⟩)
    · cases h.symm.trans hp
      exact heq
    · cases h.symm.trans hp
  · exact fun heq => .inl ⟨k, v, t, h, heq⟩

theorem State.passes_deqSpin {d : Dest} {t : τ} (h : u.pc θ = .deqSpin d t) :
    u.Passes ar θ ↔ ar.ticket (u.mem.buffer (ar.index t)).seq = ar.add t 1 := by
  constructor
  · rintro (⟨k, v, t', hp, -⟩ | ⟨d', t', hp, heq⟩)
    · cases h.symm.trans hp
    · cases h.symm.trans hp
      exact heq
  · exact fun heq => .inr ⟨d, t, h, heq⟩

end Passes

theorem Simulates.passes_iff (h : Simulates x s) (ht : Tickets cfg s l) (hfl : s.InFlight T)
    (hT : T * cfg.SIZE < 2 ^ 64) (θ : Tid) :
    x.Passes (machine cfg) θ ↔ s.Passes (unbounded cfg) θ := by
  have hom := machine_isHom cfg
  have hpc := h.pc θ
  have hseq (t : ℕ) : (s.mem.buffer ((unbounded cfg).index t)).seq = s.seqOf cfg t := by
    rw [unbounded_index]; rfl
  generalize hp : x.pc θ = p at hpc
  generalize hq : s.pc θ = q at hpc
  cases hpc with
  | isEmptyReturn b b' _ =>
    refine iff_of_false ?_ ?_ <;> rintro (⟨k, v, t, hs, -⟩ | ⟨d, t, hs, -⟩)
    iterate 2 cases hp.symm.trans hs
    iterate 2 cases hq.symm.trans hs
  | same =>
    cases q with
    | enqSpin k v t =>
      rw [State.passes_enqSpin hp, State.passes_enqSpin hq, h.mem, hom.index, Mem.map, hom.ticket,
        unbounded_ticket, hseq]
      exact ⟨ht.write_test hfl hT hq, congrArg toTicket⟩
    | deqSpin d t =>
      rw [State.passes_deqSpin hp, State.passes_deqSpin hq, h.mem, hom.index, Mem.map,
        hom.ticket, hom.add, unbounded_ticket, unbounded_add, hseq]
      exact ⟨ht.read_test hfl hT hq, congrArg toTicket⟩
    | _ =>
      -- no loop to pass
      refine iff_of_false ?_ ?_ <;> rintro (⟨k, v, t, hs, -⟩ | ⟨d, t, hs, -⟩)
      iterate 2 cases hp.symm.trans hs
      iterate 2 cases hq.symm.trans hs

theorem Simulates.fresh (data array : ℕ → Payload ω W) :
    Simulates (fresh (machine cfg) cfg data array : State Tid Int64 UInt64 ω W)
      (fresh (unbounded cfg) cfg data array) := by
  refine ⟨?_, fun _ => .same .idle⟩
  simp only [Ring.fresh, Mem.map, Mem.mk.injEq, true_and]
  refine ⟨funext fun i => ?_, rfl, rfl⟩
  rw [prepareBuffer_apply, prepareBuffer_apply]
  split_ifs <;> rfl

variable [DecidableEq Tid]

theorem Simulates.step (h : Simulates x s) (ht : Tickets cfg s l) (hfl : s.InFlight T)
    (hT : T * cfg.SIZE < 2 ^ 64) {a : Tid × Micro ω W} {x' : State Tid Int64 UInt64 ω W}
    (hstep : step (machine cfg) cfg x a = some x') :
    ∃ s', step (unbounded cfg) cfg s a = some s' ∧ Simulates x' s' := by
  obtain ⟨θ, a⟩ := a
  obtain ⟨m₁, p₁, hx, rfl⟩ := step_eq_some.1 hstep
  suffices hex : ∃ m' q', Exec (unbounded cfg) cfg s.mem (s.pc θ) a m' q' ∧ m₁ = m'.map toCounter ∧
      p₁.Matches toCounter toTicket q' by
    obtain ⟨m', q', hx', hm, hq⟩ := hex
    refine ⟨s.put θ m' q', step_eq_some.2 ⟨m', q', hx', rfl⟩, hm, fun θ' => ?_⟩
    by_cases hθ : θ' = θ
    · subst hθ; rwa [put_pc_self, put_pc_self]
    · rw [put_pc_of_ne hθ, put_pc_of_ne hθ]; exact h.pc θ'
  have hpc := h.pc θ
  rw [h.mem] at hx
  generalize hp : x.pc θ = p at hpc hx
  generalize hq : s.pc θ = q at hpc
  cases hpc with
  | isEmptyReturn b b' _ =>
    cases hx
    exact ⟨s.mem, _, .isEmptyRet b', rfl, .same .idle⟩
  | same =>
    refine hx.reflect (machine_isHom cfg) ?_ ?_
    · rintro k v t rfl
      rw [unbounded_index]
      exact ht.write_test hfl hT hq
    · rintro d t rfl
      rw [unbounded_index]
      exact ht.read_test hfl hT hq

/-- **Ticket wrap-around is harmless.** Every run of the queue as coded, of any length, in which at
most `T` operations are in flight at any moment is followed step by step, with the same labels, by a
run with unbounded tickets. In every state of it the words are the same modulo `2 ^ 64`, a spin test
passes in the one run exactly if it does in the other, and a dequeue returns the same value. -/
theorem wrap_around_harmless (hT : T * cfg.SIZE < 2 ^ 64) {x : ℕ → State Tid Int64 UInt64 ω W}
    {a : ℕ → Tid × Micro ω W} {n : ℕ}
    (hx : ((system (machine cfg) cfg).constrain (State.InFlight T)).Run x a n) :
    ∃ y, (system (unbounded cfg) cfg).Run y a n ∧ ∀ k ≤ n, Simulates (x k) (y k) ∧ ∀ θ,
      ((x k).Passes (machine cfg) θ ↔ (y k).Passes (unbounded cfg) θ) ∧
      ∀ v, (∃ t, (x k).pc θ = .deqReturn t v) ↔ ∃ t, (y k).pc θ = .deqReturn t v := by
  have htickets : ∀ u : State Tid ℕ ℕ ω W, (system (unbounded cfg) cfg).Reachable u →
      ∃ l, Tickets cfg u l := by
    intro u hu
    obtain ⟨l, hl⟩ := hu.exists_log Log.empty logNote
    exact ⟨l, (invariants hl).1⟩
  obtain ⟨y, hy, hR⟩ := hx.lift (T := system (unbounded cfg) cfg) (R := Simulates)
    (by
      rintro s ⟨⟨data, array, rfl⟩, -⟩
      exact ⟨fresh (unbounded cfg) cfg data array, ⟨data, array, rfl⟩, .fresh data array⟩)
    (by
      rintro s a s' u hs hu hsim ⟨hstep, -⟩
      obtain ⟨l, ht⟩ := htickets u hu
      exact hsim.step ht (hsim.inFlight hs.of_constrain.2) hT hstep)
  refine ⟨y, hy, fun k hk => ⟨hR k hk, fun θ => ⟨?_, fun v => ((hR k hk).pc θ).deqReturn_iff v⟩⟩⟩
  obtain ⟨l, ht⟩ := htickets (y k) (hy.reachable k hk)
  exact (hR k hk).passes_iff ht ((hR k hk).inFlight (hx.reachable k hk).of_constrain.2) hT θ

end InFlight

/-- Thread `false` enqueues a value while thread `true` dequeues it, up to its return. -/
def relay : List (Bool × Micro ℕ 1) :=
  [(true, .call .dequeue), (true, .claim), (false, .call (.enqueue .copy ![7])), (false, .claim),
   (true, .spin), (false, .spin), (false, .copy 0 0), (false, .publish),
   (false, .ret), (true, .spin), (true, .copy 0 0), (true, .publish)]

/-- Thread `true` is about to return the value. -/
def relayed (s : State Bool Int64 UInt64 ℕ 1) : Bool :=
  match s.pc true with
  | .deqReturn t v => t == 0 && v 0 == 7
  | _ => false

theorem relay_relayed : (relay.foldlM (step (machine smallest) smallest)
    (fresh (machine smallest) smallest (fun _ => ![0]) (fun _ => ![0]))).map relayed =
      some true := by
  decide +kernel

theorem wrap_around_harmless_relay : 2 * smallest.SIZE < 2 ^ 64 ∧
    ∃ (x : ℕ → State Bool Int64 UInt64 ℕ 1) (a : ℕ → Bool × Micro ℕ 1),
      relayed (x relay.length) = true ∧
      ∃ y, (system (unbounded smallest) smallest).Run y a relay.length ∧ ∀ k ≤ relay.length,
        Simulates (x k) (y k) ∧ ∀ θ,
          ((x k).Passes (machine smallest) θ ↔ (y k).Passes (unbounded smallest) θ) ∧
          ∀ v, (∃ t, (x k).pc θ = .deqReturn t v) ↔ ∃ t, (y k).pc θ = .deqReturn t v := by
  have hT : 2 * smallest.SIZE < 2 ^ 64 := by decide
  have hfl : ∀ s : State Bool Int64 UInt64 ℕ 1, s.InFlight 2 := by
    intro s
    refine (Set.encard_le_encard (Set.subset_univ _)).trans ?_
    rw [Set.encard_univ]
    simp
  have hinit : ((system (machine smallest) smallest).constrain (State.InFlight 2)).init
      (fresh (machine smallest) smallest (fun _ => ![0]) (fun _ => ![0]) :
        State Bool Int64 UInt64 ℕ 1) :=
    ⟨⟨_, _, rfl⟩, hfl _⟩
  obtain ⟨x, hx, hp⟩ := System.exists_run_of_schedule hinit (false, .claim) relay_relayed
    fun _ _ _ s' hst => ⟨hst, hfl s'⟩
  exact ⟨hT, x, _, hp, wrap_around_harmless hT hx⟩

end AstraLib.Ring
