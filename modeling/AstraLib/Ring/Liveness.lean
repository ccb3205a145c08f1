import AstraLib.Interleaving.Fairness
import AstraLib.Ring.Transit

/-!
# `AtomicRingBuffer`: no operation starves

A ticket is served in its turn: `seq` never goes back, and once it is the turn of a claimed
ticket, the thread that holds it passes its spin test and publishes, if it is scheduled fairly.
By induction on the ticket every write is published whose ticket is less than
`readTicket + SIZE` at some time, and every read is done whose ticket is less than `writeTicket`
at some time.  Hence an operation is in flight forever if and only if it waits for a ticket of
the other side that nobody ever claims.

The threads are not obliged to make calls; once inside a member function they go on.
-/

namespace AstraLib.Ring

open Interleaving System

section Liveness

variable {Tid ω : Type} {W : ℕ} {cfg : Config}

/-! ### One step -/

/-- The words that have been read. -/
def filled (buf : Fin W → Option ω) : Finset (Fin W) := Finset.univ.filter fun j => (buf j).isSome

theorem card_filled_update {buf : Fin W → Option ω} {j : Fin W} (h : buf j = none) (x : ω) :
    (filled (Function.update buf j (some x))).card = (filled buf).card + 1 ∧
    (filled buf).card < W := by
  have hins : filled (Function.update buf j (some x)) = insert j (filled buf) := by
    ext i
    by_cases hij : i = j
    · subst hij; simp [filled]
    · simp [filled, hij]
  have hcard := Finset.card_insert_of_notMem (a := j) (s := filled buf) (by simp [filled, h])
  have hle := Finset.card_le_univ (insert j (filled buf))
  rw [Fintype.card_fin] at hle
  rw [hins]
  omega

/-- The number of steps from here to the `seq` store of an enqueue, if the spin test passes. -/
def Pc.untilWrite : Pc ℕ ℕ ω W → ℕ
  | .enqSpin .. => W + 3
  | .enqDestroy .. => W + 2
  | .enqCopy _ _ _ done => W + 1 - done.card
  | _ => 0

/-- The number of steps from here to the `seq` store of a dequeue, if the spin test passes. -/
def Pc.untilRead : Pc ℕ ℕ ω W → ℕ
  | .deqSpin .. => W + 2
  | .deqCopy _ _ buf => W + 1 - (filled buf).card
  | _ => 0

variable {s : State Tid ℕ ℕ ω W} {l : Log Tid ω W} {θ : Tid} {m' : Mem ℕ ω W} {p' : Pc ℕ ℕ ω W}
  {a : Micro ω W}

/-- It is not the turn of a write whose slot nobody has claimed for the read a lap before. -/
theorem Tickets.seqOf_ne_of_readTicket (ht : Tickets cfg s l) {t : ℕ}
    (hr : s.mem.readTicket + cfg.SIZE ≤ t) : s.seqOf cfg t ≠ t := by
  intro hseq
  have hsize := cfg.two_le
  have hmod : (t - cfg.SIZE) % cfg.SIZE = t % cfg.SIZE := by
    rw [← Nat.add_mod_right, Nat.sub_add_cancel (by omega)]
  have hlap : s.seqOf cfg (t - cfg.SIZE) = t := by
    rw [State.seqOf, hmod]
    exact hseq
  have := ht.consumed_lt (t - cfg.SIZE) (by omega)
  omega

/-- It is not the turn of a read whose ticket nobody has claimed for the write. -/
theorem Tickets.seqOf_ne_of_writeTicket (ht : Tickets cfg s l) {t : ℕ}
    (hw : s.mem.writeTicket ≤ t) : s.seqOf cfg t ≠ t + 1 := by
  intro hseq
  have := ht.published_lt t (by omega)
  omega

variable [DecidableEq Tid]

/-- The counters and the sequence numbers never go back. -/
theorem Exec.progresses (ht : Tickets cfg s l)
    (hx : Exec (unbounded cfg) cfg s.mem (s.pc θ) a m' p') :
    s.mem.writeTicket ≤ m'.writeTicket ∧ s.mem.readTicket ≤ m'.readTicket ∧
    ∀ t, s.seqOf cfg t ≤ (s.put θ m' p').seqOf cfg t := by
  have hsize := cfg.size_pos
  have hstore : ∀ {t n : ℕ}, s.seqOf cfg t ≤ n →
      ∀ u, s.seqOf cfg u ≤ ((s.mem.setSeq (t % cfg.SIZE) n).buffer (u % cfg.SIZE)).seq := by
    intro t n hle u
    by_cases hu : u % cfg.SIZE = t % cfg.SIZE
    · rw [hu, setSeq_seq_self, State.seqOf, hu]
      exact hle
    · rw [setSeq_seq_of_ne _ _ hu]
      exact le_rfl
  cases hx.effect (θ := θ) (l := l) with
  | silent hw hr hseq => exact ⟨hw.ge, hr.ge, fun t => (hseq _).ge⟩
  | claimWrite k v hp hp' hm hl => subst hm; exact ⟨Nat.le_succ _, le_rfl, fun t => le_rfl⟩
  | claimRead d hp hp' hm hl => subst hm; exact ⟨le_rfl, Nat.le_succ _, fun t => le_rfl⟩
  | passWrite k v t hp hseq hp' hm hl => subst hm; exact ⟨le_rfl, le_rfl, fun t => le_rfl⟩
  | passRead d t hp hseq hp' hm hl => subst hm; exact ⟨le_rfl, le_rfl, fun t => le_rfl⟩
  | publishWrite k v t hp hp' hm hl =>
    subst hm
    have hseq := ht.filling_eq θ t (by rw [hp]; rfl)
    exact ⟨le_rfl, le_rfl, hstore (by omega)⟩
  | publishRead d t buf v hp hv hp' hm hlw hlr =>
    subst hm
    have hseq := ht.draining_eq θ t (by rw [hp]; rfl)
    exact ⟨le_rfl, le_rfl, hstore (by omega)⟩

/-- After the step that publishes a write, nothing is left of the enqueue but its return. -/
theorem Exec.publishes (ht : Tickets cfg s l) (hx : Exec (unbounded cfg) cfg s.mem (s.pc θ) a m' p')
    {t : ℕ} (hle : s.seqOf cfg t ≤ t)
    (hlt : t < (s.put θ m' p').seqOf cfg t) : p' = .enqReturn := by
  have hsame : (s.put θ m' p').seqOf cfg t = s.seqOf cfg t → p' = .enqReturn := fun heq => by omega
  cases hx.effect (θ := θ) (l := l) with
  | silent hw hr hseq => exact hsame (hseq _)
  | claimWrite k v hp hp' hm hl => subst hm; exact hsame rfl
  | claimRead d hp hp' hm hl => subst hm; exact hsame rfl
  | passWrite k v u hp hseq hp' hm hl => subst hm; exact hsame rfl
  | passRead d u hp hseq hp' hm hl => subst hm; exact hsame rfl
  | publishWrite k v u hp hp' hm hl => exact hp'
  | publishRead d u buf v hp hv hp' hm hlw hlr =>
    subst hm
    by_cases hu : t % cfg.SIZE = u % cfg.SIZE
    · -- the slot goes to the ticket of the next lap
      have hnow : (s.put θ (s.mem.setSeq (u % cfg.SIZE) (u + cfg.SIZE)) p').seqOf cfg t =
          u + cfg.SIZE := by
        rw [State.seqOf, put_mem, hu, setSeq_seq_self]
      have hseq := ht.draining_eq θ u (by rw [hp]; rfl)
      rw [State.seqOf, ← hu] at hseq
      have hlap := Config.add_size_le hu.symm (Nat.lt_of_succ_le (hseq.ge.trans hle))
      omega
    · exact hsame (setSeq_seq_of_ne _ _ hu)

/-- Once it is the turn of a write, each step of its thread brings the `seq` store nearer. -/
theorem Exec.write_turn (hx : Exec (unbounded cfg) cfg s.mem (s.pc θ) a m' p') {t : ℕ}
    {v : Payload ω W} (hw : (s.pc θ).writing = some (t, v)) (hseq : s.seqOf cfg t = t) :
    t < (s.put θ m' p').seqOf cfg t ∨ p'.writing = some (t, v) ∧
    p'.untilWrite < (s.pc θ).untilWrite := by
  generalize s.pc θ = p at hx hw
  cases hx with
  | enqPass k v' u h =>
    cases hw
    refine Or.inr ⟨enqPast_writing cfg k v t, ?_⟩
    unfold Pc.enqPast
    split_ifs <;> simp [Pc.untilWrite]
  | enqRetry k v' u h =>
    cases hw
    rw [unbounded_index] at h
    exact absurd hseq h
  | destroy v' u junk =>
    cases hw
    exact Or.inr ⟨rfl, by simp [Pc.untilWrite]⟩
  | enqCopy k v' u done j left h =>
    cases hw
    have hcard := Finset.card_insert_of_notMem h
    have hle := Finset.card_le_univ (insert j done)
    rw [Fintype.card_fin] at hle
    exact Or.inr ⟨rfl, by simp only [Pc.untilWrite]; omega⟩
  | enqPublish k v' u =>
    cases hw
    left
    simp [State.seqOf]
  | _ => cases hw

/-- Once it is the turn of a read, each step of its thread brings the `seq` store nearer. -/
theorem Exec.read_turn (hx : Exec (unbounded cfg) cfg s.mem (s.pc θ) a m' p') {t : ℕ}
    (hr : (s.pc θ).reading = some t) (hseq : s.seqOf cfg t = t + 1) :
    t + 1 < (s.put θ m' p').seqOf cfg t ∨ p'.reading = some t ∧
    p'.untilRead < (s.pc θ).untilRead := by
  generalize s.pc θ = p at hx hr
  cases hx with
  | deqPass d u h =>
    cases hr
    exact Or.inr ⟨rfl, by simp only [Pc.untilRead]; omega⟩
  | deqRetry d u h =>
    cases hr
    rw [unbounded_index] at h
    exact absurd hseq h
  | deqCopy d u buf j left h =>
    cases hr
    obtain ⟨hcard, hlt⟩ := card_filled_update h ((s.mem.buffer ((unbounded cfg).index t)).data j)
    refine Or.inr ⟨rfl, ?_⟩
    simp only [Pc.untilRead, hcard]
    omega
  | deqPublish d u buf v h =>
    cases hr
    left
    have hsize := cfg.two_le
    simp [State.seqOf]
    omega
  | _ => cases hr

/-- The number of steps that `batchDequeue` has yet to make at its loop test. -/
def batchRemaining (W i : ℕ) (count : ℤ) : ℕ := (count - i).toNat * (W + 5) + 2

/-- The number of steps that a dequeue has yet to make after its `seq` store. -/
def Dest.remaining (W : ℕ) : Dest → ℕ
  | .result => 1
  | .batch i count => batchRemaining W (i + 1) count

/-- The number of steps that a member function has yet to make, without failed spin tests. -/
def Pc.remaining : Pc ℕ ℕ ω W → ℕ
  | .idle => 0
  | .enqClaim .. => W + 5
  | .enqSpin .. => W + 4
  | .enqDestroy .. => W + 3
  | .enqCopy _ _ _ done => W + 2 - done.card
  | .batchLoop i count => batchRemaining W i count
  | .deqClaim d => W + 3 + d.remaining W
  | .deqSpin d _ => W + 2 + d.remaining W
  | .deqCopy d _ buf => W + 1 - (filled buf).card + d.remaining W
  | .isEmptyCall => 3
  | .isEmptyWrite _ | .isEmptyRead _ => 2
  | .enqReturn | .deqReturn .. | .batchReturn | .isEmptyReturn _ => 1

/-- The thread is at a spin test. -/
def Pc.AtTest (p : Pc ℕ ℕ ω W) : Prop := (∃ k v t, p = .enqSpin k v t) ∨ ∃ d t, p = .deqSpin d t

omit [DecidableEq Tid] in
/-- Every step but a failed spin test brings the return nearer. -/
theorem Exec.remaining_lt {m : Mem ℕ ω W} {p : Pc ℕ ℕ ω W}
    (hx : Exec (unbounded cfg) cfg m p a m' p') (hcall : ∀ c, a ≠ .call c) :
    p' = p ∧ p.AtTest ∨ p'.remaining < p.remaining := by
  cases hx with
  | call c => exact absurd rfl (hcall c)
  | enqRetry k v t h => exact Or.inl ⟨rfl, Or.inl ⟨k, v, t, rfl⟩⟩
  | deqRetry d t h => exact Or.inl ⟨rfl, Or.inr ⟨d, t, rfl⟩⟩
  | enqPass k v t h =>
    right
    unfold Pc.enqPast
    split_ifs <;> simp [Pc.remaining]
  | enqCopy k v t done j left h =>
    have hcard := Finset.card_insert_of_notMem h
    have hle := Finset.card_le_univ (insert j done)
    rw [Fintype.card_fin] at hle
    right
    simp only [Pc.remaining]
    omega
  | enqPublish k v t => exact Or.inr (by simp [Pc.remaining])
  | loopNext i count h =>
    obtain ⟨n, hn⟩ : ∃ n : ℕ, count - i = n + 1 := ⟨(count - i - 1).toNat, by omega⟩
    have hnext : count - (i + 1 : ℕ) = n := by push_cast; omega
    right
    simp only [Pc.remaining, Dest.remaining, batchRemaining, hn, hnext]
    rw [Int.toNat_natCast, show ((n : ℤ) + 1).toNat = n + 1 from rfl, Nat.add_mul]
    omega
  | loopEnd i count h => exact Or.inr (by simp [Pc.remaining, batchRemaining])
  | deqPass d t h => exact Or.inr (by simp only [Pc.remaining]; omega)
  | deqCopy d t buf j left h =>
    obtain ⟨hcard, hlt⟩ := card_filled_update h ((m.buffer ((unbounded cfg).index t)).data j)
    right
    simp only [Pc.remaining, hcard]
    omega
  | deqPublish d t buf v h =>
    have hle := Finset.card_le_univ (filled buf)
    rw [Fintype.card_fin] at hle
    right
    cases d with
    | result => simp only [Pc.deqPast, Pc.remaining, Dest.remaining]; omega
    | batch i count => simp only [Pc.deqPast, Pc.remaining, Dest.remaining]; omega
  | _ => exact Or.inr (by simp [Pc.remaining])

/-- No step takes a thread past a spin test that fails. -/
theorem State.Spins.pc_eq (h : s.Spins cfg θ) {c : Tid × Micro ω W} {s' : State Tid ℕ ℕ ω W}
    (hs : (system (unbounded cfg) cfg).step s c s') : s'.pc θ = s.pc θ := by
  obtain ⟨θ', a⟩ := c
  obtain ⟨m, p, hx, rfl⟩ := step_eq_some.1 hs
  by_cases hθ : θ' = θ
  · subst hθ
    rw [put_pc_self]
    rcases h with ⟨k, v, t, hp, hne⟩ | ⟨d, t, hp, hne⟩
    · rw [hp] at hx ⊢
      cases hx with
      | enqRetry _ _ _ _ => rfl
      | enqPass _ _ _ hseq => exact absurd (by simpa [State.seqOf] using hseq) hne
    · rw [hp] at hx ⊢
      cases hx with
      | deqRetry _ _ _ => rfl
      | deqPass _ _ hseq => exact absurd (by simpa [State.seqOf] using hseq) hne
  · exact put_pc_of_ne (Ne.symm hθ) _ _ _

/-! ### Fair executions -/

/-- A step of thread `θ` inside a member function. -/
def Inside (θ : Tid) (b : Tid × Micro ω W) : Prop := b.1 = θ ∧ ∀ c, b.2 ≠ .call c

/-- A thread inside a member function can always go on, if only by trying its spin test again. -/
theorem enabled_of_ne_idle (cfg : Config) (hidle : s.pc θ ≠ .idle) :
    (system (unbounded cfg) cfg).Enabled (Inside θ) s := by
  have hmoves : s.Moves cfg θ ∨ s.Spins cfg θ := s.moves_or_spins hidle
  rcases hmoves with ⟨-, a, s', hs, -⟩ | hspins
  · refine ⟨(θ, a), s', ⟨rfl, ?_⟩, hs⟩
    rintro c rfl
    obtain ⟨m, p, hx, -⟩ := step_eq_some.1 hs
    exact hidle hx.call_inv.1
  · rcases hspins with ⟨k, v, t, hp, hne⟩ | ⟨d, t, hp, hne⟩
    · have hx : Exec (unbounded cfg) cfg s.mem (s.pc θ) .spin s.mem (.enqSpin k v t) := by
        rw [hp]
        exact .enqRetry k v t (by rw [unbounded_index]; exact hne)
      exact ⟨(θ, .spin), _, ⟨rfl, by simp⟩, step_eq_some.2 ⟨_, _, hx, rfl⟩⟩
    · have hx : Exec (unbounded cfg) cfg s.mem (s.pc θ) .spin s.mem (.deqSpin d t) := by
        rw [hp]
        exact .deqRetry d t (by rw [unbounded_index]; exact hne)
      exact ⟨(θ, .spin), _, ⟨rfl, by simp⟩, step_eq_some.2 ⟨_, _, hx, rfl⟩⟩

/-- The threads inside member functions are treated fairly. -/
structure Fair (cfg : Config) (x : ℕ → State Tid ℕ ℕ ω W)
    (a : ℕ → Option (Tid × Micro ω W)) : Prop where
  execution : (system (unbounded cfg) cfg).Execution x a
  inside : ∀ θ, (system (unbounded cfg) cfg).WeaklyFair (Inside θ) x a

namespace Fair

variable {x : ℕ → State Tid ℕ ℕ ω W} {b : ℕ → Option (Tid × Micro ω W)}

theorem tickets (h : Fair cfg x b) (j : ℕ) : ∃ l, Tickets cfg (x j) l := by
  obtain ⟨l, hl⟩ := (h.execution.reachable j).exists_log Log.empty logNote
  exact ⟨l, (invariants hl).1⟩

theorem step_progresses {s s' : State Tid ℕ ℕ ω W} {c : Tid × Micro ω W}
    (hs : (system (unbounded cfg) cfg).Reachable s)
    (hstep : (system (unbounded cfg) cfg).step s c s') :
    s.mem.writeTicket ≤ s'.mem.writeTicket ∧ s.mem.readTicket ≤ s'.mem.readTicket ∧
    ∀ t, s.seqOf cfg t ≤ s'.seqOf cfg t := by
  obtain ⟨l, hl⟩ := hs.exists_log Log.empty logNote
  obtain ⟨m, p, hx, rfl⟩ := step_eq_some.1 hstep
  exact hx.progresses (invariants hl).1

theorem writeTicket_mono (h : Fair cfg x b) : Monotone fun j => (x j).mem.writeTicket :=
  h.execution.monotone fun _ _ _ hs hstep => (step_progresses hs hstep).1

theorem readTicket_mono (h : Fair cfg x b) : Monotone fun j => (x j).mem.readTicket :=
  h.execution.monotone fun _ _ _ hs hstep => (step_progresses hs hstep).2.1

theorem seqOf_mono (h : Fair cfg x b) (t : ℕ) : Monotone fun j => (x j).seqOf cfg t :=
  h.execution.monotone fun _ _ _ hs hstep => (step_progresses hs hstep).2.2 t

/-- A write whose turn has come is published. -/
theorem published_of_turn (h : Fair cfg x b) {t k : ℕ} (ht : t < (x k).mem.writeTicket)
    (hseq : t ≤ (x k).seqOf cfg t) : ∃ j ≥ k, t < (x j).seqOf cfg t := by
  rcases Nat.eq_or_lt_of_le hseq with heq | hlt
  · obtain ⟨l, hl⟩ := h.tickets k
    obtain ⟨θ, v, hw⟩ := hl.exists_writing ht heq.ge
    refine h.execution.eventually (h.inside θ) (I := fun s => ∃ l, Tickets cfg s l)
      (P := fun s => (s.pc θ).writing = some (t, v) ∧ s.seqOf cfg t = t)
      (Q := fun s => t < s.seqOf cfg t) (fun s => (s.pc θ).untilWrite) (fun j _ => h.tickets j)
      ⟨hw, heq.symm⟩ ?_ ?_
    · rintro s ⟨θ', c⟩ s' ⟨l, hs⟩ ⟨l', hs'⟩ ⟨hw, hseq⟩ hstep
      obtain ⟨m, p, hx, rfl⟩ := step_eq_some.1 hstep
      by_cases hθ : θ' = θ
      · subst hθ
        simp only [put_pc_self]
        refine (hx.write_turn hw hseq).imp id fun hw' => ⟨⟨hw'.1, ?_⟩, hw'.2.le, fun _ => hw'.2⟩
        have hle := ((hs'.writing_iff θ' t v).1 (by rw [put_pc_self]; exact hw'.1)).2
        have hge := (hx.progresses hs).2.2 t
        omega
      · have hpc : (s.put θ' m p).pc θ = s.pc θ := put_pc_of_ne (Ne.symm hθ) _ _ _
        rw [hpc]
        have hle := ((hs'.writing_iff θ t v).1 (by rw [hpc]; exact hw)).2
        have hge := (hx.progresses hs).2.2 t
        exact Or.inr ⟨⟨hw, by omega⟩, le_rfl, fun hA => absurd hA.1 hθ⟩
    · rintro s - ⟨hw, -⟩
      refine enabled_of_ne_idle cfg fun hidle => ?_
      rw [hidle] at hw
      cases hw
  · exact ⟨k, le_rfl, hlt⟩

/-- A read whose turn has come is done. -/
theorem consumed_of_turn (h : Fair cfg x b) {t k : ℕ} (ht : t < (x k).mem.readTicket)
    (hseq : t + 1 ≤ (x k).seqOf cfg t) : ∃ j ≥ k, t + 1 < (x j).seqOf cfg t := by
  rcases Nat.eq_or_lt_of_le hseq with heq | hlt
  · obtain ⟨l, hl⟩ := h.tickets k
    obtain ⟨θ, hr⟩ := hl.exists_reading ht heq.ge
    refine h.execution.eventually (h.inside θ) (I := fun s => ∃ l, Tickets cfg s l)
      (P := fun s => (s.pc θ).reading = some t ∧ s.seqOf cfg t = t + 1)
      (Q := fun s => t + 1 < s.seqOf cfg t) (fun s => (s.pc θ).untilRead) (fun j _ => h.tickets j)
      ⟨hr, heq.symm⟩ ?_ ?_
    · rintro s ⟨θ', c⟩ s' ⟨l, hs⟩ ⟨l', hs'⟩ ⟨hr, hseq⟩ hstep
      obtain ⟨m, p, hx, rfl⟩ := step_eq_some.1 hstep
      by_cases hθ : θ' = θ
      · subst hθ
        simp only [put_pc_self]
        refine (hx.read_turn hr hseq).imp id fun hr' => ⟨⟨hr'.1, ?_⟩, hr'.2.le, fun _ => hr'.2⟩
        have hle := ((hs'.reading_iff θ' t).1 (by rw [put_pc_self]; exact hr'.1)).2
        have hge := (hx.progresses hs).2.2 t
        omega
      · have hpc : (s.put θ' m p).pc θ = s.pc θ := put_pc_of_ne (Ne.symm hθ) _ _ _
        rw [hpc]
        have hle := ((hs'.reading_iff θ t).1 (by rw [hpc]; exact hr)).2
        have hge := (hx.progresses hs).2.2 t
        exact Or.inr ⟨⟨hr, by omega⟩, le_rfl, fun hA => absurd hA.1 hθ⟩
    · rintro s - ⟨hr, -⟩
      refine enabled_of_ne_idle cfg fun hidle => ?_
      rw [hidle] at hr
      cases hr
  · exact ⟨k, le_rfl, hlt⟩

/-- A slot begins with its first ticket. -/
theorem mod_le_seqOf (h : Fair cfg x b) (t j : ℕ) : t % cfg.SIZE ≤ (x j).seqOf cfg t := by
  refine le_trans ?_ (h.seqOf_mono t (Nat.zero_le j))
  obtain ⟨data, array, hinit⟩ := h.execution.init
  simp [hinit, State.seqOf, fresh, prepareBuffer_apply, Nat.mod_lt t cfg.size_pos]

/-- A read is done if both of its tickets are claimed at some time and the write has
been published. -/
theorem consumed_of_published (h : Fair cfg x b) {t i j : ℕ} (hr : t < (x i).mem.readTicket)
    (hseq : t < (x j).seqOf cfg t) : ∃ k, t + 1 < (x k).seqOf cfg t := by
  obtain ⟨k, -, hk⟩ :=
    h.consumed_of_turn (k := max i j) (hr.trans_le (h.readTicket_mono (le_max_left i j)))
    (Nat.succ_le_of_lt (hseq.trans_le (h.seqOf_mono t (le_max_right i j))))
  exact ⟨k, hk⟩

/-- **Every write is published** whose ticket is claimed, as soon as the ticket a lap
before has been claimed by a dequeue. -/
theorem published (h : Fair cfg x b) {t i j : ℕ} (hw : t < (x i).mem.writeTicket)
    (hr : t < (x j).mem.readTicket + cfg.SIZE) : ∃ k, t < (x k).seqOf cfg t := by
  induction t using Nat.strong_induction_on generalizing i j with
  | _ t ih =>
    suffices hturn : ∃ k, t ≤ (x k).seqOf cfg t by
      obtain ⟨k, hk⟩ := hturn
      obtain ⟨k', -, hk'⟩ :=
        h.published_of_turn (k := max i k) (hw.trans_le (h.writeTicket_mono (le_max_left i k)))
        (hk.trans (h.seqOf_mono t (le_max_right i k)))
      exact ⟨k', hk'⟩
    by_cases hlap : t < cfg.SIZE
    · refine ⟨0, le_trans ?_ (h.mod_le_seqOf t 0)⟩
      rw [Nat.mod_eq_of_lt hlap]
    · -- the turn of `t` comes when the read of the lap before is done
      have hsize := cfg.size_pos
      obtain ⟨k, hk⟩ := ih (t - cfg.SIZE) (by omega) (i := i) (j := j) (by omega) (by omega)
      obtain ⟨k', hk'⟩ := h.consumed_of_published (t := t - cfg.SIZE) (i := j) (by omega) hk
      have hmod : (t - cfg.SIZE) % cfg.SIZE = t % cfg.SIZE := by
        conv_rhs => rw [← Nat.sub_add_cancel (not_lt.1 hlap), Nat.add_mod_right]
      have hseq : (x k').seqOf cfg (t - cfg.SIZE) = (x k').seqOf cfg t := by
        rw [State.seqOf, State.seqOf, hmod]
      obtain ⟨l, hl⟩ := h.tickets k'
      obtain ⟨u, hu, hu'⟩ := hl.turn t
      refine ⟨k', ?_⟩
      have hlt : t - cfg.SIZE < u := by omega
      have := Config.add_size_le (hmod.trans hu.symm) hlt
      omega

/-- **Every read is done** whose ticket is claimed, as soon as the same ticket has
been claimed by an enqueue. -/
theorem consumed (h : Fair cfg x b) {t i j : ℕ} (hr : t < (x i).mem.readTicket)
    (hw : t < (x j).mem.writeTicket) : ∃ k, t + 1 < (x k).seqOf cfg t := by
  obtain ⟨k, hk⟩ := h.published hw (Nat.lt_add_right _ hr)
  exact h.consumed_of_published hr hk

/-- A thread that stays inside a member function comes to a spin test that it never passes. -/
theorem stuck_at_test (h : Fair cfg x b) {θ : Tid} {k : ℕ} (hk : ∀ j ≥ k, (x j).pc θ ≠ .idle) :
    ∃ m ≥ k, ((x m).pc θ).AtTest ∧ ∀ j ≥ m, (x j).pc θ = (x m).pc θ := by
  have hstep : ∀ j ≥ k, (x (j + 1)).pc θ = (x j).pc θ ∧
      (∀ c, b j = some c → Inside θ c → ((x j).pc θ).AtTest) ∨
      ((x (j + 1)).pc θ).remaining < ((x j).pc θ).remaining := by
    intro j hj
    cases hb : b j with
    | none => exact Or.inl ⟨by rw [h.execution.rest j hb], by simp⟩
    | some c =>
      obtain ⟨θ', a⟩ := c
      obtain ⟨m, p, hx, heq⟩ := step_eq_some.1 (h.execution.step j _ hb)
      rw [heq]
      by_cases hθ : θ' = θ
      · subst hθ
        rw [put_pc_self]
        have hcall : ∀ c, a ≠ .call c := by
          rintro c rfl
          exact hk j hj hx.call_inv.1
        exact (hx.remaining_lt hcall).imp (fun hsame => ⟨hsame.1, fun _ _ _ => hsame.2⟩) id
      · left
        refine ⟨put_pc_of_ne (Ne.symm hθ) _ _ _, ?_⟩
        rintro c ⟨⟩ hin
        exact absurd hin.1 hθ
  obtain ⟨m, hm, hmin⟩ :=
    exists_min_rank (f := fun j => ((x j).pc θ).remaining) (k := k) fun j hj => by
      rcases hstep j hj with ⟨hpc, -⟩ | hlt
      · exact (congrArg Pc.remaining hpc).le
      · exact hlt.le
  -- from `m` on the thread makes no steps but failed tests
  have hsame : ∀ j ≥ m, (x (j + 1)).pc θ = (x j).pc θ ∧
      ∀ c, b j = some c → Inside θ c → ((x j).pc θ).AtTest := by
    intro j hj
    refine (hstep j (by omega)).resolve_right fun hlt => ?_
    have h1 := hmin j hj
    have h2 := hmin (j + 1) (by omega)
    omega
  have hconst : ∀ j ≥ m, (x j).pc θ = (x m).pc θ := by
    intro j hj
    induction j, hj using Nat.le_induction with
    | base => rfl
    | succ j hj ih => exact (hsame j hj).1.trans ih
  obtain ⟨j, hj, c, hc, hin⟩ := h.inside θ m fun j hj => enabled_of_ne_idle cfg (hk j (by omega))
  exact ⟨m, hm, hconst j hj ▸ (hsame j hj).2 c hc hin, hconst⟩

/-- An enqueue at its spin test passes it, if the ticket a lap before is claimed by a
dequeue at some time. -/
theorem readTicket_le_of_stuck (h : Fair cfg x b) {θ : Tid} {m : ℕ} {kind : EnqKind}
    {v : Payload ω W} {t : ℕ} (hstuck : ∀ j ≥ m, (x j).pc θ = .enqSpin kind v t) (j : ℕ) :
    (x j).mem.readTicket + cfg.SIZE ≤ t := by
  by_contra hlt
  have hw : ∀ i ≥ m, ((x i).pc θ).writing = some (t, v) := fun i hi => by rw [hstuck i hi]; rfl
  obtain ⟨l, hl⟩ := h.tickets m
  obtain ⟨i, hi⟩ := h.published (hl.lt_writeTicket (hw m le_rfl)) (not_le.1 hlt)
  obtain ⟨l', hl'⟩ := h.tickets (max m i)
  have hle := ((hl'.writing_iff θ t v).1 (hw _ (le_max_left m i))).2
  have hmono : (x i).seqOf cfg t ≤ (x (max m i)).seqOf cfg t := h.seqOf_mono t (le_max_right m i)
  omega

/-- A dequeue at its spin test passes it, if the same ticket is claimed by an enqueue
at some time. -/
theorem writeTicket_le_of_stuck (h : Fair cfg x b) {θ : Tid} {m : ℕ} {d : Dest} {t : ℕ}
    (hstuck : ∀ j ≥ m, (x j).pc θ = .deqSpin d t) (j : ℕ) : (x j).mem.writeTicket ≤ t := by
  by_contra hlt
  have hr : ∀ i ≥ m, ((x i).pc θ).reading = some t := fun i hi => by rw [hstuck i hi]; rfl
  obtain ⟨l, hl⟩ := h.tickets m
  obtain ⟨i, hi⟩ := h.consumed (hl.lt_readTicket (hr m le_rfl)) (not_le.1 hlt)
  obtain ⟨l', hl'⟩ := h.tickets (max m i)
  have hle := ((hl'.reading_iff θ t).1 (hr _ (le_max_left m i))).2
  have hmono : (x i).seqOf cfg t ≤ (x (max m i)).seqOf cfg t := h.seqOf_mono t (le_max_right m i)
  omega

/-- A thread stays at a spin test that fails whenever the thread is there. -/
theorem stays_at_test (h : Fair cfg x b) {θ : Tid} {m : ℕ}
    (hspins : ∀ j, (x j).pc θ = (x m).pc θ → (x j).Spins cfg θ) :
    ∀ j ≥ m, (x j).pc θ = (x m).pc θ :=
  h.execution.stays (I := fun s => s.pc θ = (x m).pc θ → s.Spins cfg θ)
    (P := fun s => s.pc θ = (x m).pc θ)
    (fun j _ => hspins j) rfl fun _ _ _ hI _ hP hs => ((hI hP).pc_eq hs).trans hP

/-- An enqueue at its spin test waits forever if and only if no dequeue ever claims the ticket a lap
before. -/
theorem enqueue_waits_iff (h : Fair cfg x b) {θ : Tid} {m : ℕ} {kind : EnqKind} {v : Payload ω W}
    {t : ℕ} (hp : (x m).pc θ = .enqSpin kind v t) :
    (∀ j ≥ m, (x j).pc θ = .enqSpin kind v t) ↔ ∀ j, (x j).mem.readTicket + cfg.SIZE ≤ t := by
  constructor
  · exact h.readTicket_le_of_stuck
  · intro hr j hj
    refine (h.stays_at_test (fun i hi => Or.inl ⟨kind, v, t, hi.trans hp, ?_⟩) j hj).trans hp
    obtain ⟨l, hl⟩ := h.tickets i
    exact hl.seqOf_ne_of_readTicket (hr i)

/-- A dequeue at its spin test waits forever if and only if no enqueue ever claims its ticket. -/
theorem dequeue_waits_iff (h : Fair cfg x b) {θ : Tid} {m : ℕ} {d : Dest} {t : ℕ}
    (hp : (x m).pc θ = .deqSpin d t) :
    (∀ j ≥ m, (x j).pc θ = .deqSpin d t) ↔ ∀ j, (x j).mem.writeTicket ≤ t := by
  constructor
  · exact h.writeTicket_le_of_stuck
  · intro hw j hj
    refine (h.stays_at_test (fun i hi => Or.inr ⟨d, t, hi.trans hp, ?_⟩) j hj).trans hp
    obtain ⟨l, hl⟩ := h.tickets i
    exact hl.seqOf_ne_of_writeTicket (hw i)

end Fair

/-- **No operation starves.** In a fair execution a thread is inside a member function forever if
and only if at some time it is at the spin test of an enqueue of a ticket `t` such that no dequeue
ever claims the ticket `t - SIZE`, or at the spin test of a dequeue of a ticket that no enqueue ever
claims. That is also exactly when it never leaves the spin test that it is at. -/
theorem in_flight_forever_iff {x : ℕ → State Tid ℕ ℕ ω W} {b : ℕ → Option (Tid × Micro ω W)}
    (h : Fair cfg x b) (θ : Tid) :
    ((∃ k, ∀ j ≥ k, (x j).pc θ ≠ .idle) ↔
      ∃ m t, ((∃ k v, (x m).pc θ = .enqSpin k v t) ∧ ∀ j, (x j).mem.readTicket + cfg.SIZE ≤ t) ∨
        ((∃ d, (x m).pc θ = .deqSpin d t) ∧ ∀ j, (x j).mem.writeTicket ≤ t)) ∧
    (∀ m k v t, (x m).pc θ = .enqSpin k v t →
      ((∀ j ≥ m, (x j).pc θ = .enqSpin k v t) ↔ ∀ j, (x j).mem.readTicket + cfg.SIZE ≤ t)) ∧
    ∀ m d t, (x m).pc θ = .deqSpin d t →
      ((∀ j ≥ m, (x j).pc θ = .deqSpin d t) ↔ ∀ j, (x j).mem.writeTicket ≤ t) := by
  refine ⟨⟨?_, ?_⟩, fun m k v t => h.enqueue_waits_iff, fun m d t => h.dequeue_waits_iff⟩
  · rintro ⟨k, hk⟩
    obtain ⟨m, -, htest, hconst⟩ := h.stuck_at_test hk
    rcases htest with ⟨kind, v, t, hp⟩ | ⟨d, t, hp⟩
    · have hstuck : ∀ j ≥ m, (x j).pc θ = .enqSpin kind v t := fun j hj => (hconst j hj).trans hp
      exact ⟨m, t, Or.inl ⟨⟨kind, v, hp⟩, h.readTicket_le_of_stuck hstuck⟩⟩
    · have hstuck : ∀ j ≥ m, (x j).pc θ = .deqSpin d t := fun j hj => (hconst j hj).trans hp
      exact ⟨m, t, Or.inr ⟨⟨d, hp⟩, h.writeTicket_le_of_stuck hstuck⟩⟩
  · rintro ⟨m, t, ⟨⟨k, v, hp⟩, hr⟩ | ⟨⟨d, hp⟩, hw⟩⟩
    · exact ⟨m, fun j hj => by rw [(h.enqueue_waits_iff hp).2 hr j hj]; simp⟩
    · exact ⟨m, fun j hj => by rw [(h.dequeue_waits_iff hp).2 hw j hj]; simp⟩

/-- The only thread calls `dequeue` of an empty queue. -/
def lonelySchedule : List (Unit × Micro ℕ 1) := [((), .call .dequeue), ((), .claim)]

theorem lonelySchedule_spins : (lonelySchedule.foldlM (step (unbounded smallest) smallest)
    (fresh (unbounded smallest) smallest (fun _ => ![0]) (fun _ => ![0]))).map
      (fun s => decide ((s.mem.buffer 0).seq ≠ 1) && match s.pc () with
        | .deqSpin .result 0 => true
        | _ => false) = some true := by
  decide +kernel

theorem in_flight_forever_lonely :
    ∃ (x : ℕ → State Unit ℕ ℕ ℕ 1) (b : ℕ → Option (Unit × Micro ℕ 1)), Fair smallest x b ∧
    (∃ k, ∀ j ≥ k, (x j).pc () ≠ .idle) ∧ (∀ j, (x j).mem.writeTicket ≤ 0) ∧
    ∃ m t, ((∃ k v, (x m).pc () = .enqSpin k v t) ∧ ∀ j, (x j).mem.readTicket + 2 ≤ t) ∨
      ((∃ d, (x m).pc () = .deqSpin d t) ∧ ∀ j, (x j).mem.writeTicket ≤ t) := by
  have hinit : (system (unbounded smallest) smallest).init
      (fresh (unbounded smallest) smallest (fun _ => ![0]) (fun _ => ![0]) : State Unit ℕ ℕ ℕ 1) :=
    ⟨_, _, rfl⟩
  obtain ⟨x, hx, hp⟩ :=
    exists_run_of_schedule hinit ((), .ret) lonelySchedule_spins fun s a _ s' hst => hst
  simp only [Bool.and_eq_true, decide_eq_true_eq] at hp
  obtain ⟨hseq, hp⟩ := hp
  split at hp
  · rename_i hpc
    -- from now on the test fails again and again
    have hspin : step (unbounded smallest) smallest (x lonelySchedule.length) ((), .spin) =
        some (x lonelySchedule.length) := by
      have hx : Exec (unbounded smallest) smallest (x lonelySchedule.length).mem
          ((x lonelySchedule.length).pc ()) .spin (x lonelySchedule.length).mem
          ((x lonelySchedule.length).pc ()) := by
        rw [hpc]
        exact .deqRetry .result 0 (by simpa using hseq)
      refine step_eq_some.2 ⟨_, _, hx, ?_⟩
      simp [State.put]
    obtain ⟨y, d, hy, -, hloop⟩ :=
      hx.exists_execution (c := some ((), .spin)) (by rintro b ⟨⟩; exact hspin)
    have hfair : Fair smallest y d :=
      ⟨hy, fun θ => weaklyFair_of_loop hloop fun _ => ⟨_, rfl, rfl, by simp⟩⟩
    obtain ⟨hiff, -, hdequeue⟩ := in_flight_forever_iff hfair ()
    have hstay : ∀ j ≥ lonelySchedule.length, (y j).pc () = .deqSpin .result 0 := fun j hj => by
      rw [(hloop j hj).1, hpc]
    have hin : ∃ k, ∀ j ≥ k, (y j).pc () ≠ .idle := ⟨_, fun j hj => by rw [hstay j hj]; simp⟩
    exact ⟨y, d, hfair, hin, (hdequeue _ _ _ (hstay _ le_rfl)).1 hstay, hiff.1 hin⟩
  · cases hp

end Liveness

end AstraLib.Ring
