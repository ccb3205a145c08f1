import AstraLib.Ring.Batch

/-!
# `AtomicRingBuffer`: the queue never wedges

A slot waits for the write or for the read of one of its tickets (`Tickets.turn`).  If that ticket
has been claimed then somebody holds it (`writing_iff`, `reading_iff`), and the spin test of that
thread passes.  So when every thread in flight is stuck at its spin test, every slot that anybody
waits for waits for a ticket that has not been claimed, which is to say that the queue is empty with
only dequeues pending, or full with only enqueues pending.
-/

namespace AstraLib.Ring

open Interleaving

section Progress

variable {Tid ω : Type} {W : ℕ} {cfg : Config} {s : State Tid ℕ ℕ ω W} {l : Log Tid ω W}

theorem Tickets.exists_writing (h : Tickets cfg s l) {t : ℕ} (ht : t < s.mem.writeTicket)
    (hseq : s.seqOf cfg t ≤ t) : ∃ θ v, (s.pc θ).writing = some (t, v) := by
  rw [h.writeTicket_eq] at ht
  exact ⟨_, _, (h.writing_iff l.writers[t].1 t l.writers[t].2).2
    ⟨List.getElem?_eq_getElem ht, hseq⟩⟩

theorem Tickets.exists_reading (h : Tickets cfg s l) {t : ℕ} (ht : t < s.mem.readTicket)
    (hseq : s.seqOf cfg t ≤ t + 1) : ∃ θ, (s.pc θ).reading = some t := by
  rw [h.readTicket_eq] at ht
  exact ⟨l.readers[t], (h.reading_iff _ t).2 ⟨List.getElem?_eq_getElem ht, hseq⟩⟩

/-- The thread is at its spin test, and the test fails. -/
def State.Spins (cfg : Config) (s : State Tid ℕ ℕ ω W) (θ : Tid) : Prop :=
  (∃ k v t, s.pc θ = .enqSpin k v t ∧ s.seqOf cfg t ≠ t) ∨
  (∃ d t, s.pc θ = .deqSpin d t ∧ s.seqOf cfg t ≠ t + 1)

/-- The turn of every slot on which a thread waits in vain is a ticket nobody has claimed. -/
theorem Tickets.turn_unclaimed (h : Tickets cfg s l)
    (hall : ∀ θ, s.pc θ ≠ .idle → s.Spins cfg θ) {t u : ℕ} (hut : u % cfg.SIZE = t % cfg.SIZE) :
    (s.seqOf cfg t = u → s.mem.writeTicket ≤ u) ∧
    (s.seqOf cfg t = u + 1 → s.mem.readTicket ≤ u) := by
  have hseq : s.seqOf cfg u = s.seqOf cfg t := by rw [State.seqOf, State.seqOf, hut]
  constructor
  · intro hu
    by_contra hlt
    obtain ⟨θ, v, hw⟩ := h.exists_writing (t := u) (by omega) (by omega)
    rcases hall θ (by intro hidle; rw [hidle] at hw; cases hw) with
      ⟨k, v', t', hp, hne⟩ | ⟨d, t', hp, -⟩
    · rw [hp] at hw
      cases hw
      omega
    · rw [hp] at hw
      cases hw
  · intro hu
    by_contra hlt
    obtain ⟨θ, hr⟩ := h.exists_reading (t := u) (by omega) (by omega)
    rcases hall θ (by intro hidle; rw [hidle] at hr; cases hr) with
      ⟨k, v', t', hp, -⟩ | ⟨d, t', hp, hne⟩
    · rw [hp] at hr
      cases hr
    · rw [hp] at hr
      cases hr
      omega

theorem Tickets.writeTicket_le_of_spins (h : Tickets cfg s l)
    (hall : ∀ θ, s.pc θ ≠ .idle → s.Spins cfg θ) {θ : Tid} {d : Dest} {t : ℕ}
    (hp : s.pc θ = .deqSpin d t) : s.mem.writeTicket ≤ t := by
  have hr : (s.pc θ).reading = some t := by rw [hp]; rfl
  have hle := ((h.reading_iff θ t).1 hr).2
  have hlt := h.lt_readTicket hr
  obtain ⟨u, hut, hu | hu⟩ := h.turn t
  · have := (h.turn_unclaimed hall hut).1 hu
    have := Config.ne_succ hut
    omega
  · have := (h.turn_unclaimed hall hut).2 hu
    omega

theorem Tickets.readTicket_add_size_le_of_spins (h : Tickets cfg s l)
    (hall : ∀ θ, s.pc θ ≠ .idle → s.Spins cfg θ) {θ : Tid} {k : EnqKind} {v : Payload ω W} {t : ℕ}
    (hp : s.pc θ = .enqSpin k v t) : s.mem.readTicket + cfg.SIZE ≤ t := by
  have hw : (s.pc θ).writing = some (t, v) := by rw [hp]; rfl
  have hle := ((h.writing_iff θ t v).1 hw).2
  have hlt := h.lt_writeTicket hw
  obtain ⟨u, hut, hu | hu⟩ := h.turn t
  · have := (h.turn_unclaimed hall hut).1 hu
    omega
  · have := (h.turn_unclaimed hall hut).2 hu
    have := Config.add_size_le hut (by omega)
    omega

variable [DecidableEq Tid]

/-- A thread in flight can take a step that moves its program counter. A failed spin test does
not, every other step does. -/
def State.Moves (cfg : Config) (s : State Tid ℕ ℕ ω W) (θ : Tid) : Prop :=
  s.pc θ ≠ .idle ∧ ∃ a s', step (unbounded cfg) cfg s (θ, a) = some s' ∧ s'.pc θ ≠ s.pc θ

theorem State.moves_of_exec {θ : Tid} {a : Micro ω W} {m' : Mem ℕ ω W} {p' : Pc ℕ ℕ ω W}
    (h : Exec (unbounded cfg) cfg s.mem (s.pc θ) a m' p') (hidle : s.pc θ ≠ .idle)
    (hne : p' ≠ s.pc θ) : s.Moves cfg θ :=
  ⟨hidle, a, s.put θ m' p', step_eq_some.2 ⟨m', p', h, rfl⟩, by rwa [put_pc_self]⟩

/-- Only a failed spin test stops a thread. -/
theorem State.moves_or_spins (s : State Tid ℕ ℕ ω W) {θ : Tid} (hidle : s.pc θ ≠ .idle) :
    s.Moves cfg θ ∨ s.Spins cfg θ := by
  have hgo : ∀ p a m' p', s.pc θ = p → Exec (unbounded cfg) cfg s.mem p a m' p' → p' ≠ p →
      s.Moves cfg θ ∨ s.Spins cfg θ := by
    rintro p a m' p' rfl hx hne
    exact Or.inl (State.moves_of_exec hx hidle hne)
  cases hp : s.pc θ with
  | idle => exact absurd hp hidle
  | enqClaim k v => exact hgo _ _ _ _ hp (.enqClaim k v) (by simp)
  | enqSpin k v t =>
    by_cases hseq : s.seqOf cfg t = t
    · refine hgo _ _ _ _ hp (.enqPass k v t (by rw [unbounded_index]; exact hseq)) ?_
      unfold Pc.enqPast
      split_ifs <;> simp
    · exact Or.inr (Or.inl ⟨k, v, t, hp, hseq⟩)
  | enqDestroy v t => exact hgo _ _ _ _ hp (.destroy v t v) (by simp)
  | enqCopy k v t done =>
    by_cases hdone : done = Finset.univ
    · subst hdone
      exact hgo _ _ _ _ hp (.enqPublish k v t) (by simp)
    · obtain ⟨j, hj⟩ : ∃ j, j ∉ done := by
        by_contra hall
        exact hdone (Finset.eq_univ_iff_forall.2 (by simpa using hall))
      refine hgo _ _ _ _ hp (.enqCopy k v t done j (v j) hj) fun heq => ?_
      injection heq with _ _ _ hins
      exact hj (hins ▸ Finset.mem_insert_self j done)
  | enqReturn => exact hgo _ _ _ _ hp .enqRet (by simp)
  | batchLoop i count =>
    by_cases hi : (i : ℤ) < count
    · exact hgo _ _ _ _ hp (.loopNext i count hi) (by simp)
    · exact hgo _ _ _ _ hp (.loopEnd i count hi) (by simp)
  | deqClaim d => exact hgo _ _ _ _ hp (.deqClaim d) (by simp)
  | deqSpin d t =>
    by_cases hseq : s.seqOf cfg t = t + 1
    · exact hgo _ _ _ _ hp (.deqPass d t (by rw [unbounded_index]; exact hseq)) (by simp)
    · exact Or.inr (Or.inr ⟨d, t, hp, hseq⟩)
  | deqCopy d t buf =>
    cases hc : collect buf with
    | some v =>
      refine hgo _ _ _ _ hp (.deqPublish d t buf v (collect_eq_some.1 hc)) ?_
      cases d <;> simp [Pc.deqPast]
    | none =>
      obtain ⟨j, hj⟩ : ∃ j, buf j = none := by
        by_contra hall
        have hsome : ∀ j, (buf j).isSome := fun j =>
          Option.isSome_iff_ne_none.2 fun hn => hall ⟨j, hn⟩
        unfold collect at hc
        rw [dif_pos hsome] at hc
        cases hc
      refine hgo _ _ _ _ hp (.deqCopy d t buf j (s.dataOf cfg t j) hj) fun heq => ?_
      injection heq with _ _ hbuf
      have := congrFun hbuf j
      rw [Function.update_self, hj] at this
      cases this
  | deqReturn t v => exact hgo _ _ _ _ hp (.deqRet t v) (by simp)
  | batchReturn => exact hgo _ _ _ _ hp .batchRet (by simp)
  | isEmptyCall => exact hgo _ _ _ _ hp .firstWrite (by simp)
  | isEmptyWrite w =>
    exact hgo _ _ _ _ hp (.thenRead w (decide (w = s.mem.readTicket)) (by simp)) (by simp)
  | isEmptyRead r =>
    exact hgo _ _ _ _ hp (.thenWrite r (decide (s.mem.writeTicket = r)) (by simp)) (by simp)
  | isEmptyReturn b => exact hgo _ _ _ _ hp (.isEmptyRet b) (by simp)

/-- **The queue never wedges.** If an operation is in flight, then one of them can take a step other
than a failed spin test, or they are all dequeues of tickets that no enqueue has claimed, or all
enqueues of tickets whose slot still waits for an unclaimed read. -/
theorem never_wedges (h : (system (unbounded cfg) cfg).Reachable s) (hfl : ∃ θ, s.pc θ ≠ .idle) :
    (∃ θ, s.Moves cfg θ) ∨
    (∀ θ, s.pc θ ≠ .idle → ∃ d t, s.pc θ = .deqSpin d t ∧ s.mem.writeTicket ≤ t) ∨
    (∀ θ, s.pc θ ≠ .idle → ∃ k v t, s.pc θ = .enqSpin k v t ∧ s.mem.readTicket + cfg.SIZE ≤ t) := by
  obtain ⟨l, hl⟩ := h.exists_log Log.empty logNote
  have ht := (invariants hl).1
  by_cases hm : ∃ θ, s.Moves cfg θ
  · exact Or.inl hm
  have hall : ∀ θ, s.pc θ ≠ .idle → s.Spins cfg θ := fun θ hθ =>
    (s.moves_or_spins hθ).resolve_left fun hθ' => hm ⟨θ, hθ'⟩
  obtain ⟨θ, hθ⟩ := hfl
  -- a stuck enqueue and a stuck dequeue contradict each other
  have hnot : ∀ θ₁ θ₂ k v t₁ d t₂, s.pc θ₁ = .enqSpin k v t₁ → s.pc θ₂ ≠ .deqSpin d t₂ := by
    intro θ₁ θ₂ k v t₁ d t₂ hp₁ hp₂
    have h1 := ht.readTicket_add_size_le_of_spins hall hp₁
    have h2 := ht.writeTicket_le_of_spins hall hp₂
    have h3 : t₁ < s.mem.writeTicket := ht.lt_writeTicket (θ := θ₁) (v := v) (by rw [hp₁]; rfl)
    have h4 : t₂ < s.mem.readTicket := ht.lt_readTicket (θ := θ₂) (by rw [hp₂]; rfl)
    omega
  right
  rcases hall θ hθ with ⟨k, v, t, hp, -⟩ | ⟨d, t, hp, -⟩
  · right
    intro θ' hθ'
    rcases hall θ' hθ' with ⟨k', v', t', hp', -⟩ | ⟨d', t', hp', -⟩
    · exact ⟨k', v', t', hp', ht.readTicket_add_size_le_of_spins hall hp'⟩
    · exact absurd hp' (hnot θ θ' k v t d' t' hp)
  · left
    intro θ' hθ'
    rcases hall θ' hθ' with ⟨k', v', t', hp', -⟩ | ⟨d', t', hp', -⟩
    · exact absurd hp (hnot θ' θ k' v' t' d t hp')
    · exact ⟨d', t', hp', ht.writeTicket_le_of_spins hall hp'⟩

end Progress

/-- Two enqueues fill the smallest buffer, and two more are stuck behind them. -/
def overfull : List (ℕ × Micro ℕ 1) :=
  ((List.range 2).flatMap fun θ =>
    [(θ, .call (.enqueue .copy ![θ])), (θ, .claim), (θ, .spin), (θ, .copy 0 0),
      (θ, .publish), (θ, .ret)]) ++
  [(2, .call (.enqueue .copy ![2])), (3, .call (.enqueue .emplace ![3])), (3, .claim), (2, .claim)]

/-- Four enqueues have claimed their tickets, no dequeue has, and thread `2` is at its spin test. -/
def stuckBehind (s : State ℕ ℕ ℕ ℕ 1) : Bool :=
  s.mem.writeTicket == 4 && s.mem.readTicket == 0 && s.pc 2 matches .enqSpin ..

theorem overfull_stuckBehind : (overfull.foldlM (step (unbounded smallest) smallest)
    (fresh (unbounded smallest) smallest (fun _ => ![0]) (fun _ => ![0]))).map stuckBehind =
      some true := by
  decide +kernel

theorem never_wedges_overfull : ∃ s : State ℕ ℕ ℕ ℕ 1, (∃ θ, s.pc θ ≠ .idle) ∧
    s.mem.writeTicket = 4 ∧ s.mem.readTicket = 0 ∧
    ((∃ θ, s.Moves smallest θ) ∨
    (∀ θ, s.pc θ ≠ .idle → ∃ d t, s.pc θ = .deqSpin d t ∧ s.mem.writeTicket ≤ t) ∨
    (∀ θ, s.pc θ ≠ .idle → ∃ k v t, s.pc θ = .enqSpin k v t ∧
      s.mem.readTicket + smallest.SIZE ≤ t)) := by
  have hinit : (system (unbounded smallest) smallest).init
      (fresh (unbounded smallest) smallest (fun _ => ![0]) (fun _ => ![0]) : State ℕ ℕ ℕ ℕ 1) :=
    ⟨_, _, rfl⟩
  obtain ⟨s, hs, hp⟩ := System.exists_reachable_of_schedule hinit overfull_stuckBehind
    fun _ _ _ _ hst => hst
  simp only [stuckBehind, Bool.and_eq_true, beq_iff_eq] at hp
  have hfl : ∃ θ, s.pc θ ≠ .idle := ⟨2, fun hidle => by simp [hidle] at hp⟩
  exact ⟨s, hfl, hp.1.1, hp.1.2, never_wedges hs hfl⟩

end AstraLib.Ring
