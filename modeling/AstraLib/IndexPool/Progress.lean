import AstraLib.IndexPool.Ownership

/-!
# `ThreadSafeIndexPool`: returning an index never deadlocks

The ring of the pool starts full, so a `returnIndex` may have to wait for the `getIndex` that
empties its slot.  It never waits for one that has not begun: every ticket between the two
counters stands for an index, in its slot or with the `returnIndex` that has claimed it, and
there are only `SIZE` indices.  So the counters are at most `SIZE` apart (`writeTicket_le`), and
the ring is never wedged by enqueues.
-/

namespace AstraLib.IndexPool

open Interleaving

section Progress

variable {Tid : Type} {cfg : Ring.Config} {s : State Tid} {l : Checkouts Tid}
  {lg : Ring.Log Tid ℤ 1}

/-- The write ticket under which the index at the given place is in the ring. -/
def Place.ticket (s : State Tid) : Place Tid → Option ℕ
  | .ring (.writing θ) => (s.pc θ).writing.map Prod.fst
  | .ring (.published t) => some t
  | _ => none

/-- Every ticket between the two counters stands for an index. -/
theorem exists_at (ht : Ring.Tickets cfg s lg) {t : ℕ} (hr : s.mem.readTicket ≤ t)
    (hw : t < s.mem.writeTicket) : ∃ q n, At cfg s l q n ∧ q.ticket s = some t := by
  by_cases hseq : s.seqOf cfg t ≤ t
  · obtain ⟨θ, v, hwr⟩ := ht.exists_writing hw hseq
    exact ⟨.ring (.writing θ), v 0,
      by simp [At, Ring.At, Ring.Pc.puts, hwr], by simp [Place.ticket, hwr]⟩
  · have hle : s.seqOf cfg t ≤ t + 1 := by
      by_contra hlt
      have := ht.consumed_lt t (by omega)
      omega
    refine ⟨.ring (.published t), s.dataOf cfg t 0, ⟨⟨by omega, fun θ hd => ?_⟩, rfl⟩, rfl⟩
    have := ht.lt_readTicket (Ring.Pc.reading_of_draining hd)
    omega

/-- **The counters are at most `SIZE` apart.** -/
theorem writeTicket_le (hcons : Conserved (At cfg s l) (Set.Ico 0 (cfg.SIZE : ℤ)))
    (ht : Ring.Tickets cfg s lg) : s.mem.writeTicket ≤ s.mem.readTicket + cfg.SIZE := by
  have hcard := hcons.card_le (Set.finite_Ico _ _) (Place.ticket s)
    (Finset.Ico s.mem.readTicket s.mem.writeTicket) fun t ht' => by
      obtain ⟨hr, hw⟩ := Finset.mem_Ico.1 ht'
      exact exists_at ht hr hw
  have hsize : (Set.Ico 0 (cfg.SIZE : ℤ)).ncard = cfg.SIZE := by
    rw [← Finset.coe_Ico, Set.ncard_coe_finset, Int.card_Ico]
    simp
  rw [hsize, Nat.card_Ico] at hcard
  omega

/-- Nobody holds an index of the ring while all wait for one. -/
theorem held_of_stuck (hcons : Conserved (At cfg s l) (Set.Ico 0 (cfg.SIZE : ℤ)))
    (ht : Ring.Tickets cfg s lg) {θ₀ : Tid} (hfl : s.pc θ₀ ≠ .idle)
    (hstuck : ∀ θ, s.pc θ ≠ .idle → ∃ d t, s.pc θ = .deqSpin d t ∧ s.seqOf cfg t ≠ t + 1)
    {n : ℤ} (hn : n ∈ Set.Ico 0 (cfg.SIZE : ℤ)) : ∃ θ k, At cfg s l (.held θ k) n := by
  have hall : ∀ θ, s.pc θ ≠ .idle → s.Spins cfg θ := fun θ hθ => Or.inr (hstuck θ hθ)
  have hpc : ∀ θ, s.pc θ = .idle ∨ ∃ d t, s.pc θ = .deqSpin d t ∧ s.seqOf cfg t ≠ t + 1 := fun θ =>
    or_iff_not_imp_left.2 (hstuck θ)
  obtain ⟨q, hq, -⟩ := hcons.existsUnique n hn
  cases q with
  | held θ k => exact ⟨θ, k, hq⟩
  | returning θ =>
    rcases hpc θ with hp | ⟨d, t, hp, -⟩ <;> simp [At, hp, Ring.Pc.claiming] at hq
  | ring q =>
    cases q with
    | writing θ =>
      rcases hpc θ with hp | ⟨d, t, hp, -⟩ <;>
        simp [At, Ring.At, Ring.Pc.puts, hp, Ring.Pc.writing] at hq
    | reading θ =>
      rcases hpc θ with hp | ⟨d, t, hp, -⟩ <;> simp [At, Ring.At, hp, Ring.taking] at hq
    | published t =>
      obtain ⟨⟨hseq, -⟩, -⟩ := hq
      have hw := ht.published_lt t (by omega)
      rcases Nat.lt_or_ge t s.mem.readTicket with hlt | hge
      · -- the holder of the read ticket passes its spin test
        obtain ⟨θ, hr⟩ := ht.exists_reading hlt (by omega)
        rcases hpc θ with hp | ⟨d, u, hp, hne⟩
        · rw [hp] at hr; cases hr
        · rw [hp] at hr
          cases hr
          exact absurd hseq hne
      · obtain ⟨d, u, hp, -⟩ := hstuck θ₀ hfl
        have h1 := ht.writeTicket_le_of_spins hall hp
        have h2 := ht.lt_readTicket (θ := θ₀) (t := u) (by rw [hp]; rfl)
        omega

variable [DecidableEq Tid]

/-- The constructor has used up the first `SIZE` write tickets. -/
theorem size_le (h : (system (Ring.unbounded cfg) cfg).Reachable s) :
    cfg.SIZE ≤ s.mem.writeTicket ∧ ∀ θ t v, (s.pc θ).writing = some (t, v) → cfg.SIZE ≤ t := by
  have hI : (system (Ring.unbounded cfg) cfg).IsInvariant fun s : State Tid =>
      cfg.SIZE ≤ s.mem.writeTicket ∧ ∀ θ t v, (s.pc θ).writing = some (t, v) → cfg.SIZE ≤ t := by
    constructor
    · rintro s ⟨θ, data, array, hinit⟩
      rw [initializeIndexes_fresh] at hinit
      cases hinit
      exact ⟨le_rfl, by simp [full, Ring.Pc.writing]⟩
    · rintro s ⟨θ, a⟩ s' - ⟨hw, hall⟩ hstep
      obtain ⟨b, -, hring⟩ := step_ring hstep
      obtain ⟨m, p, hx, rfl⟩ := Ring.step_eq_some.1 hring
      have hput : cfg.SIZE ≤ m.writeTicket → (∀ t v, p.writing = some (t, v) → cfg.SIZE ≤ t) →
          cfg.SIZE ≤ (s.put θ m p).mem.writeTicket ∧
            ∀ θ' t v, ((s.put θ m p).pc θ').writing = some (t, v) → cfg.SIZE ≤ t := by
        intro hm hp
        refine ⟨hm, fun θ' t v hv => ?_⟩
        by_cases hθ : θ' = θ
        · subst hθ
          rw [Ring.put_pc_self] at hv
          exact hp t v hv
        · rw [Ring.put_pc_of_ne hθ] at hv
          exact hall θ' t v hv
      cases hx.effect (θ := θ) (l := Ring.Log.empty) with
      | silent hw' _ _ hpw => exact hput (hw'.ge.trans' hw) fun t v hv => hall θ t v (hpw ▸ hv)
      | claimWrite k v _ hp' hm =>
        subst hm hp'
        refine hput (Nat.le_succ_of_le hw) fun t v hv => ?_
        cases hv
        exact hw
      | claimRead d _ hp' hm => subst hm hp'; exact hput hw (by simp [Ring.Pc.writing])
      | passWrite k v t hp _ hp' hm =>
        subst hm hp'
        refine hput hw fun t' v' hv => hall θ t' v' ?_
        rw [Ring.enqPast_writing] at hv
        rw [hp]
        exact hv
      | passRead d t _ _ hp' hm => subst hm hp'; exact hput hw (by simp [Ring.Pc.writing])
      | publishWrite k v t _ hp' hm => subst hm hp'; exact hput hw (by simp [Ring.Pc.writing])
      | publishRead d t buf v _ _ hp' hm =>
        subst hm hp'
        exact hput hw (by simp [(Ring.deqPast_quiet t v d).1])
  exact hI.reachable h

/-- An operation in flight can take a step that is not a failed spin test. -/
def Moves (cfg : Ring.Config) (s : State Tid) (θ : Tid) : Prop :=
  s.pc θ ≠ .idle ∧
  ∃ a s', step (Ring.unbounded cfg) cfg s (θ, .run a) = some s' ∧ s'.pc θ ≠ s.pc θ

theorem moves_of_ring {θ : Tid} (h : s.Moves cfg θ) : Moves cfg s θ := by
  obtain ⟨hidle, a, s', hstep, hne⟩ := h
  refine ⟨hidle, a, s', ?_, hne⟩
  cases a with
  | call c =>
    obtain ⟨m, p, hx, -⟩ := Ring.step_eq_some.1 hstep
    exact absurd hx.call_inv.1 hidle
  | _ => exact hstep

/-- **Returning an index never deadlocks the pool.** In every reachable state `writeTicket` is at
most `SIZE` ahead of `readTicket`, and the ticket `t - SIZE` before that of a `returnIndex` in
flight has been claimed by a `getIndex`. If a `returnIndex` is in flight then some operation can
take a step other than a failed spin test; and if all operations in flight are stuck at their spin
tests, then they are calls of `getIndex` and the clients hold all indices. -/
theorem returnIndex_never_deadlocks
    (h : (((system (Ring.unbounded cfg) cfg).withLog (fun _ => []) note).restrict
      Disciplined).Reachable (s, l)) :
    s.mem.writeTicket ≤ s.mem.readTicket + cfg.SIZE ∧
    (∀ θ t v, (s.pc θ).writing = some (t, v) → cfg.SIZE ≤ t ∧ t - cfg.SIZE < s.mem.readTicket) ∧
    ((∃ θ, (s.pc θ).op = some .enqueue) → ∃ θ, Moves cfg s θ) ∧
    ((∃ θ, s.pc θ ≠ .idle) → (∀ θ, s.pc θ ≠ .idle → s.Spins cfg θ) →
      (∀ θ, s.pc θ ≠ .idle → (s.pc θ).op = some .dequeue) ∧
      ∀ n : ℤ, 0 ≤ n → n < cfg.SIZE → ∃ (θ : Tid) (k : ℕ), (l θ)[k]? = some (some n)) := by
  have hreach : (system (Ring.unbounded cfg) cfg).Reachable s := h.of_restrict.of_log
  have hcons := conserved_reachable h
  obtain ⟨hring, hb⟩ := ring_reachable hreach
  obtain ⟨lg, hlg⟩ := hring.exists_log Ring.Log.empty Ring.logNote
  have ht := (Ring.invariants hlg).1
  have hle := writeTicket_le hcons ht
  -- no enqueue is stuck when everybody is
  have hnoEnq : (∀ θ, s.pc θ ≠ .idle → s.Spins cfg θ) → ∀ θ k v t, s.pc θ ≠ .enqSpin k v t := by
    intro hall θ k v t hp
    have h1 := ht.readTicket_add_size_le_of_spins hall hp
    have h2 := ht.lt_writeTicket (θ := θ) (t := t) (v := v) (by rw [hp]; rfl)
    omega
  refine ⟨hle, fun θ t v hw => ?_, ?_, ?_⟩
  · have hlt := ht.lt_writeTicket hw
    have hsize := (size_le hreach).2 θ t v hw
    exact ⟨hsize, by omega⟩
  · rintro ⟨θ, hop⟩
    by_contra hnone
    have hall : ∀ θ, s.pc θ ≠ .idle → s.Spins cfg θ := fun θ hθ =>
      (s.moves_or_spins hθ).resolve_left fun hm => hnone ⟨θ, moves_of_ring hm⟩
    rcases hall θ (by intro hidle; rw [hidle] at hop; cases hop) with
      ⟨k, v, t, hp, -⟩ | ⟨d, t, hp, -⟩
    · exact hnoEnq hall θ k v t hp
    · rw [hp] at hop
      cases d <;> cases hop
  · rintro ⟨θ₀, hfl⟩ hall
    have hstuck : ∀ θ, s.pc θ ≠ .idle → ∃ d t, s.pc θ = .deqSpin d t ∧ s.seqOf cfg t ≠ t + 1 := by
      intro θ hθ
      rcases hall θ hθ with ⟨k, v, t, hp, -⟩ | hd
      · exact absurd hp (hnoEnq hall θ k v t)
      · exact hd
    refine ⟨fun θ hθ => ?_, fun n h0 hn => held_of_stuck hcons ht hfl hstuck ⟨h0, hn⟩⟩
    obtain ⟨d, t, hp, -⟩ := hstuck θ hθ
    have hbatch := hb θ
    rw [hp] at hbatch ⊢
    cases d with
    | result => rfl
    | batch i count => cases hbatch

end Progress

/-- Thread `2` begins a `getIndex`. Then thread `1` checks out the other index and returns it,
and has to wait for thread `2`. -/
def behind : List (ℕ × Micro) :=
  [(2, .getIndex), (2, .run .claim), (1, .getIndex), (1, .run .claim), (1, .run .spin),
   (1, .run (.copy 0 0)), (1, .run .publish), (1, .run .ret), (1, .returnIndex 1), (1, .run .claim),
   (1, .run .spin)]

/-- Thread `1` is at the spin test of its `returnIndex`, with ticket `2`. -/
def waitsBehind (q : State ℕ × Checkouts ℕ) : Bool :=
  (q.1.pc 1 matches .enqSpin .move _ 2) && q.1.mem.writeTicket == 3 && q.1.mem.readTicket == 2

theorem behind_waitsBehind : (behind.foldlM disciplinedStep
    (full Ring.smallest (fun _ => ofIndex 0) fun _ => ofIndex 0, fun _ => [])).map waitsBehind =
      some true := by
  decide +kernel

theorem returnIndex_never_deadlocks_behind : ∃ (s : State ℕ) (l : Checkouts ℕ),
    waitsBehind (s, l) = true ∧
    s.mem.writeTicket ≤ s.mem.readTicket + Ring.smallest.SIZE ∧
    (∀ θ t v, (s.pc θ).writing = some (t, v) →
      Ring.smallest.SIZE ≤ t ∧ t - Ring.smallest.SIZE < s.mem.readTicket) ∧
    ((∃ θ, (s.pc θ).op = some .enqueue) → ∃ θ, Moves Ring.smallest s θ) ∧
    ((∃ θ, s.pc θ ≠ .idle) → (∀ θ, s.pc θ ≠ .idle → s.Spins Ring.smallest θ) →
      (∀ θ, s.pc θ ≠ .idle → (s.pc θ).op = some .dequeue) ∧
      ∀ n : ℤ, 0 ≤ n → n < Ring.smallest.SIZE → ∃ (θ : ℕ) (k : ℕ), (l θ)[k]? = some (some n)) := by
  obtain ⟨s, l, hr, hp⟩ := disciplined_of_schedule behind_waitsBehind
  exact ⟨s, l, hp, returnIndex_never_deadlocks hr⟩

end AstraLib.IndexPool
