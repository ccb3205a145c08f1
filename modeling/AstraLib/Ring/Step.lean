import AstraLib.Ring.Model

/-!
# `AtomicRingBuffer`: what a step does

`Exec` lists the atomic steps of the program one by one, with the test that each of them
passes, and `exec_iff` says that these are all of them.  The proofs about the protocol go by
cases on `Exec` and never unfold `exec`.
-/

namespace AstraLib.Ring

/-! ### Slots of tickets -/

section Arithmetic

variable (cfg : Config)

theorem Config.size_pos : 0 < cfg.SIZE := Nat.lt_of_lt_of_le Nat.zero_lt_two cfg.two_le

theorem Config.exists_pow : ∃ k, cfg.SIZE = 2 ^ k :=
  Nat.ne_zero_and_sub_one_eq_zero_iff_isPowerOfTwo.1 cfg.pow_two

theorem Config.land_mask (t : ℕ) : t &&& (cfg.SIZE - 1) = t % cfg.SIZE := by
  obtain ⟨k, hk⟩ := cfg.exists_pow
  rw [hk, Nat.and_two_pow_sub_one_eq_mod]

/-- The conversion to `int` does not change an index. -/
theorem Config.toInt_mod (t : ℕ) : (toInt ((t % cfg.SIZE : ℕ) : ℤ)).toNat = t % cfg.SIZE := by
  have hlt := Nat.mod_lt t cfg.size_pos
  have hle := cfg.le_int
  rw [toInt_of_lt (by omega)]
  rfl

variable {cfg}

/-- Two tickets of one slot are never neighbours. -/
theorem Config.ne_succ {t u : ℕ} (h : t % cfg.SIZE = u % cfg.SIZE) : t ≠ u + 1 := by
  rintro rfl
  have h1 : cfg.SIZE ∣ u + 1 - u := (Nat.modEq_iff_dvd' (by omega)).1 h.symm
  have := Nat.le_of_dvd (by omega) h1
  have := cfg.two_le
  omega

/-- Different tickets of one slot are at least a lap apart. -/
theorem Config.add_size_le {t u : ℕ} (h : t % cfg.SIZE = u % cfg.SIZE) (hlt : t < u) :
    t + cfg.SIZE ≤ u := by
  have h1 : cfg.SIZE ∣ u - t := (Nat.modEq_iff_dvd' hlt.le).1 h
  have := Nat.le_of_dvd (by omega) h1
  omega

end Arithmetic

section Unbounded

variable (cfg : Config)

@[simp] theorem unbounded_ofInt (i : ℕ) : (unbounded cfg).ofInt i = i := rfl
@[simp] theorem unbounded_fetchAdd (c : ℕ) : (unbounded cfg).fetchAdd c = c + 1 := rfl
@[simp] theorem unbounded_ticket (c : ℕ) : (unbounded cfg).ticket c = c := rfl
@[simp] theorem unbounded_add (t n : ℕ) : (unbounded cfg).add t n = t + n := rfl
@[simp] theorem unbounded_store (t : ℕ) : (unbounded cfg).store t = t := rfl

@[simp] theorem unbounded_index (t : ℕ) : (unbounded cfg).index t = t % cfg.SIZE := by
  simp only [unbounded, cfg.land_mask, cfg.toInt_mod]

end Unbounded

/-! ### Memory -/

section Memory

variable {κ τ ω : Type} {W : ℕ} (m : Mem κ ω W)

@[simp] theorem setSeq_writeTicket (i : ℕ) (x : κ) :
    (m.setSeq i x).writeTicket = m.writeTicket := rfl
@[simp] theorem setSeq_readTicket (i : ℕ) (x : κ) : (m.setSeq i x).readTicket = m.readTicket := rfl
@[simp] theorem setSeq_array (i : ℕ) (x : κ) :
    (m.setSeq i x).batchDequeueArray = m.batchDequeueArray := rfl

@[simp] theorem setSeq_seq_self (i : ℕ) (x : κ) : ((m.setSeq i x).buffer i).seq = x := by
  simp [Mem.setSeq]

theorem setSeq_seq_of_ne {i i' : ℕ} (x : κ) (h : i' ≠ i) :
    ((m.setSeq i x).buffer i').seq = (m.buffer i').seq := by
  simp [Mem.setSeq, Function.update_of_ne h]

@[simp] theorem setSeq_data (i : ℕ) (x : κ) (i' : ℕ) :
    ((m.setSeq i x).buffer i').data = (m.buffer i').data := by
  by_cases h : i' = i
  · subst h; simp [Mem.setSeq]
  · simp [Mem.setSeq, Function.update_of_ne h]

@[simp] theorem setData_writeTicket (i : ℕ) (v : Payload ω W) :
    (m.setData i v).writeTicket = m.writeTicket := rfl
@[simp] theorem setData_readTicket (i : ℕ) (v : Payload ω W) :
    (m.setData i v).readTicket = m.readTicket := rfl
@[simp] theorem setData_array (i : ℕ) (v : Payload ω W) :
    (m.setData i v).batchDequeueArray = m.batchDequeueArray := rfl

@[simp] theorem setData_seq (i : ℕ) (v : Payload ω W) (i' : ℕ) :
    ((m.setData i v).buffer i').seq = (m.buffer i').seq := by
  by_cases h : i' = i
  · subst h; simp [Mem.setData]
  · simp [Mem.setData, Function.update_of_ne h]

@[simp] theorem setData_data_self (i : ℕ) (v : Payload ω W) :
    ((m.setData i v).buffer i).data = v := by
  simp [Mem.setData]

theorem setData_data_of_ne {i i' : ℕ} (v : Payload ω W) (h : i' ≠ i) :
    ((m.setData i v).buffer i').data = (m.buffer i').data := by
  simp [Mem.setData, Function.update_of_ne h]

@[simp] theorem deliver_writeTicket (j : Fin W) (x : ω) (d : Dest) :
    (m.deliver j x d).writeTicket = m.writeTicket := by
  cases d <;> rfl

@[simp] theorem deliver_readTicket (j : Fin W) (x : ω) (d : Dest) :
    (m.deliver j x d).readTicket = m.readTicket := by
  cases d <;> rfl

@[simp] theorem deliver_buffer (j : Fin W) (x : ω) (d : Dest) :
    (m.deliver j x d).buffer = m.buffer := by
  cases d <;> rfl

/-- `prepareBuffer` gives slot `i` the sequence number `i` and leaves the payloads alone. -/
theorem prepareBuffer_apply (ar : TicketArith κ τ) (cfg : Config) (buffer : ℕ → Slot κ ω W)
    (i : ℕ) : prepareBuffer ar cfg buffer i =
      if i < cfg.SIZE then { buffer i with seq := ar.ofInt i } else buffer i := by
  unfold prepareBuffer
  generalize cfg.SIZE = n
  induction n with
  | zero => simp
  | succ n ih =>
    rw [List.range_succ, List.foldl_append]
    simp only [List.foldl_cons, List.foldl_nil]
    by_cases hi : i = n
    · subst hi
      rw [Function.update_self, ih]
      simp
    · rw [Function.update_of_ne hi, ih]
      have : i < n ↔ i < n + 1 := by omega
      simp only [this]

end Memory

/-! ### The steps of the program -/

section Steps

variable {κ τ ω : Type} {W : ℕ}

/-- The atomic steps, one constructor for each way a step can go. -/
inductive Exec (ar : TicketArith κ τ) (cfg : Config) (m : Mem κ ω W) :
    Pc κ τ ω W → Micro ω W → Mem κ ω W → Pc κ τ ω W → Prop
  | call (c : Call ω W) : Exec ar cfg m .idle (.call c) m (c.entry cfg)
  | enqClaim (k : EnqKind) (v : Payload ω W) :
      Exec ar cfg m (.enqClaim k v) .claim { m with writeTicket := ar.fetchAdd m.writeTicket }
        (.enqSpin k v (ar.ticket m.writeTicket))
  | enqPass (k : EnqKind) (v : Payload ω W) (t : τ)
    (h : ar.ticket (m.buffer (ar.index t)).seq = t) :
      Exec ar cfg m (.enqSpin k v t) .spin m (Pc.enqPast cfg k v t)
  | enqRetry (k : EnqKind) (v : Payload ω W) (t : τ)
    (h : ar.ticket (m.buffer (ar.index t)).seq ≠ t) :
      Exec ar cfg m (.enqSpin k v t) .spin m (.enqSpin k v t)
  | destroy (v : Payload ω W) (t : τ) (junk : Payload ω W) :
      Exec ar cfg m (.enqDestroy v t) (.destroy junk) (m.setData (ar.index t) junk)
        (.enqCopy .emplace v t ∅)
  | enqCopy (k : EnqKind) (v : Payload ω W) (t : τ) (done : Finset (Fin W)) (j : Fin W) (left : ω)
      (h : j ∉ done) :
      Exec ar cfg m (.enqCopy k v t done) (.copy j left) (m.setWord (ar.index t) j (v j))
        (.enqCopy k v t (insert j done))
  | enqPublish (k : EnqKind) (v : Payload ω W) (t : τ) :
      Exec ar cfg m (.enqCopy k v t Finset.univ) .publish
        (m.setSeq (ar.index t) (ar.store (ar.add t 1))) .enqReturn
  | enqRet : Exec ar cfg m .enqReturn .ret m .idle
  | loopNext (i : ℕ) (count : ℤ) (h : (i : ℤ) < count) :
      Exec ar cfg m (.batchLoop i count) .loop m (.deqClaim (.batch i count))
  | loopEnd (i : ℕ) (count : ℤ) (h : ¬ (i : ℤ) < count) :
      Exec ar cfg m (.batchLoop i count) .loop m .batchReturn
  | deqClaim (d : Dest) :
      Exec ar cfg m (.deqClaim d) .claim { m with readTicket := ar.fetchAdd m.readTicket }
        (.deqSpin d (ar.ticket m.readTicket))
  | deqPass (d : Dest) (t : τ) (h : ar.ticket (m.buffer (ar.index t)).seq = ar.add t 1) :
      Exec ar cfg m (.deqSpin d t) .spin m (.deqCopy d t fun _ => none)
  | deqRetry (d : Dest) (t : τ) (h : ar.ticket (m.buffer (ar.index t)).seq ≠ ar.add t 1) :
      Exec ar cfg m (.deqSpin d t) .spin m (.deqSpin d t)
  | deqCopy (d : Dest) (t : τ) (buf : Fin W → Option ω) (j : Fin W) (left : ω) (h : buf j = none) :
      Exec ar cfg m (.deqCopy d t buf) (.copy j left)
        ((m.setWord (ar.index t) j left).deliver j ((m.buffer (ar.index t)).data j) d)
        (.deqCopy d t (Function.update buf j (some ((m.buffer (ar.index t)).data j))))
  | deqPublish (d : Dest) (t : τ) (buf : Fin W → Option ω) (v : Payload ω W)
      (h : ∀ j, buf j = some (v j)) :
      Exec ar cfg m (.deqCopy d t buf) .publish
        (m.setSeq (ar.index t) (ar.store (ar.add t cfg.SIZE))) (Pc.deqPast t v d)
  | deqRet (t : τ) (v : Payload ω W) : Exec ar cfg m (.deqReturn t v) .ret m .idle
  | batchRet : Exec ar cfg m .batchReturn .ret m .idle
  | firstWrite : Exec ar cfg m .isEmptyCall .loadWrite m (.isEmptyWrite m.writeTicket)
  | firstRead : Exec ar cfg m .isEmptyCall .loadRead m (.isEmptyRead m.readTicket)
  | thenRead (w : κ) (b : Bool) (h : b = true ↔ w = m.readTicket) :
      Exec ar cfg m (.isEmptyWrite w) .loadRead m (.isEmptyReturn b)
  | thenWrite (r : κ) (b : Bool) (h : b = true ↔ m.writeTicket = r) :
      Exec ar cfg m (.isEmptyRead r) .loadWrite m (.isEmptyReturn b)
  | isEmptyRet (b : Bool) : Exec ar cfg m (.isEmptyReturn b) .ret m .idle

variable {Tid : Type} [DecidableEq Tid]

/-- The state after a step of thread `θ`. -/
def State.put (s : State Tid κ τ ω W) (θ : Tid) (m : Mem κ ω W) (p : Pc κ τ ω W) :
    State Tid κ τ ω W :=
  ⟨m, Function.update s.pc θ p⟩

@[simp] theorem put_mem (s : State Tid κ τ ω W) (θ : Tid) (m : Mem κ ω W) (p : Pc κ τ ω W) :
    (s.put θ m p).mem = m := rfl

@[simp] theorem put_pc_self (s : State Tid κ τ ω W) (θ : Tid) (m : Mem κ ω W) (p : Pc κ τ ω W) :
    (s.put θ m p).pc θ = p :=
  Function.update_self _ _ _

theorem put_pc_of_ne {θ θ' : Tid} (h : θ' ≠ θ) (s : State Tid κ τ ω W) (m : Mem κ ω W)
    (p : Pc κ τ ω W) : (s.put θ m p).pc θ' = s.pc θ' :=
  Function.update_of_ne h _ _

variable [DecidableEq κ] [DecidableEq τ]

/-- `Exec` lists the steps of `exec`, all of them and no others. -/
theorem exec_iff {ar : TicketArith κ τ} {cfg : Config} {m m' : Mem κ ω W} {p p' : Pc κ τ ω W}
    {a : Micro ω W} : exec ar cfg m p a = some (m', p') ↔ Exec ar cfg m p a m' p' := by
  constructor
  · fun_cases exec ar cfg m p a
    all_goals intro h
    -- the test of the loop stands inside the result, the collected payload under a `map`
    case case11 i count =>
      by_cases hi : (i : ℤ) < count
      · rw [if_pos hi] at h; cases h; exact .loopNext i count hi
      · rw [if_neg hi] at h; cases h; exact .loopEnd i count hi
    case case17 d t buf =>
      obtain ⟨v, hv, hr⟩ := Option.map_eq_some_iff.1 h
      cases hr
      exact .deqPublish d t buf v (collect_eq_some.1 hv)
    case case16 d t buf j left hj x =>
      cases h
      exact .deqCopy d t buf j left (by simpa using hj)
    case case22 w => cases h; exact .thenRead w _ (by simp)
    case case23 r => cases h; exact .thenWrite r _ (by simp)
    all_goals first
      | cases h; constructor; assumption
      | cases h; constructor
      | cases h
  · intro h
    cases h with
    | deqPublish d t buf v h => simp [exec, collect_eq_some.2 h]
    | thenRead w b h => simp [exec, ← h]
    | thenWrite r b h => simp [exec, ← h]
    | _ => simp_all [exec]

theorem step_eq_some {ar : TicketArith κ τ} {cfg : Config} {s s' : State Tid κ τ ω W} {θ : Tid}
    {a : Micro ω W} : step ar cfg s (θ, a) = some s' ↔
      ∃ m p, Exec ar cfg s.mem (s.pc θ) a m p ∧ s' = s.put θ m p := by
  simp only [step, Option.map_eq_some_iff, Prod.exists, exec_iff]
  constructor
  · rintro ⟨m, p, h, rfl⟩; exact ⟨m, p, h, rfl⟩
  · rintro ⟨m, p, h, rfl⟩; exact ⟨m, p, h, rfl⟩

/-- One thread goes on while the others stay where they are. -/
theorem Exec.step_put {ar : TicketArith κ τ} {cfg : Config} {m m' : Mem κ ω W} {p p' : Pc κ τ ω W}
    {a : Micro ω W} (hx : Exec ar cfg m p a m' p') (s : State Tid κ τ ω W) (θ : Tid) :
    step ar cfg (s.put θ m p) (θ, a) = some (s.put θ m' p') := by
  refine step_eq_some.2 ⟨m', p', by simpa using hx, ?_⟩
  simp [State.put]

end Steps

end AstraLib.Ring
