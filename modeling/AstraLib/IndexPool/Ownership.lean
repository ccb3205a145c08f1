import AstraLib.IndexPool.Model
import AstraLib.Interleaving.Conservation
import AstraLib.Ring.Transit

/-!
# `ThreadSafeIndexPool`: exclusive ownership

Every index is at exactly one place at every moment: free in the ring under some ticket, in the
hands of a `returnIndex` or of a `getIndex` in progress, or checked out by a client.  Clients keep
to the contract of the pool, to return only what they hold and each checkout once.  The way through
the ring is that of `AstraLib.Ring.Transit`.

The log numbers the checkouts of every thread and records what each of them holds, or
that it has been returned.
-/

namespace AstraLib.IndexPool

open Interleaving

section Ownership

variable {Tid : Type}

/-- The state of the ring of the pool. -/
abbrev State (Tid : Type) := Ring.State Tid ℕ ℕ ℤ 1

/-- The checkouts of the threads, in order; `none` once the index has been returned. -/
abbrev Checkouts (Tid : Type) := Tid → List (Option ℤ)

/-- Where an index can be. -/
inductive Place (Tid : Type)
  /-- with a `returnIndex` that has no ticket yet -/
  | returning (θ : Tid)
  /-- in the ring: with a `returnIndex` that has a ticket, free, or with a `getIndex` -/
  | ring (q : Ring.Place Tid)
  /-- with a client: the `k`-th checkout of the thread -/
  | held (θ : Tid) (k : ℕ)

/-- The index `n` is at the given place. -/
def At (cfg : Ring.Config) (s : State Tid) (l : Checkouts Tid) : Place Tid → ℤ → Prop
  | .returning θ, n => (s.pc θ).claiming.map (· 0) = some n
  | .ring q, n => Ring.At cfg s q n
  | .held θ k, n => (l θ)[k]? = some (some n)

/-- A place holds one index at a time. -/
theorem At.unique {cfg : Ring.Config} {s : State Tid} {l : Checkouts Tid} {q : Place Tid} {n n' : ℤ}
    (h : At cfg s l q n) (h' : At cfg s l q n') : n = n' := by
  cases q with
  | returning θ => exact Option.some.inj (h.symm.trans h')
  | ring q => exact Ring.At.unique h h'
  | held θ k => exact Option.some.inj (Option.some.inj (h.symm.trans h'))

/-- The constructor puts every index in the ring. -/
theorem conserved_init {cfg : Ring.Config} (data array : ℕ → Payload ℤ 1) :
    Conserved (At cfg (full cfg data array : State Tid) fun _ => [])
      (Set.Ico 0 (cfg.SIZE : ℤ)) := by
  have hseq : ∀ t, (full cfg data array : State Tid).seqOf cfg t = t % cfg.SIZE + 1 := fun t => by
    simp [Ring.State.seqOf, full, Nat.mod_lt t cfg.size_pos]
  have hdata : ∀ t,
      (full cfg data array : State Tid).dataOf cfg t 0 = (t % cfg.SIZE : ℕ) := fun t => by
    simp [Ring.State.dataOf, full, Nat.mod_lt t cfg.size_pos, ofIndex]
  have hfree : ∀ t, Ring.Free cfg (full cfg data array : State Tid) t ↔ t < cfg.SIZE := by
    intro t
    constructor
    · rintro ⟨h1, -⟩
      rw [hseq] at h1
      have := Nat.mod_lt t cfg.size_pos
      omega
    · intro ht
      exact ⟨by rw [hseq, Nat.mod_eq_of_lt ht], fun θ => by simp [full, Ring.Pc.draining]⟩
  have hat : ∀ q n, At cfg (full cfg data array : State Tid) (fun _ => []) q n ↔
      ∃ t < cfg.SIZE, q = .ring (.published t) ∧ n = (t : ℕ) := by
    intro q n
    cases q with
    | returning θ => simp [At, full, Ring.Pc.claiming]
    | ring q =>
      cases q with
      | writing θ => simp [At, Ring.At, full, Ring.Pc.puts, Ring.Pc.writing]
      | published t =>
        simp only [At, Ring.At, hfree, hdata]
        constructor
        · rintro ⟨ht, rfl⟩
          exact ⟨t, ht, rfl, by rw [Nat.mod_eq_of_lt ht]⟩
        · rintro ⟨u, hu, hq, rfl⟩
          cases hq
          exact ⟨hu, by rw [Nat.mod_eq_of_lt hu]⟩
      | reading θ => simp [At, Ring.At, full, Ring.taking]
    | held θ k => simp [At]
  constructor
  · intro q n hn
    obtain ⟨t, ht, -, rfl⟩ := (hat q n).1 hn
    exact ⟨by omega, by omega⟩
  · rintro n ⟨h0, hn⟩
    obtain ⟨t, rfl⟩ := Int.eq_ofNat_of_zero_le h0
    refine ⟨.ring (.published t), (hat _ _).2 ⟨t, by omega, rfl, rfl⟩, fun q hq => ?_⟩
    obtain ⟨u, -, rfl, hu⟩ := (hat q _).1 hq
    rw [show u = t by omega]

variable [DecidableEq Tid]

/-- The checkouts after a step. -/
def note (s : State Tid) (a : Tid × Micro) (l : Checkouts Tid) : Checkouts Tid :=
  match a.2, s.pc a.1 with
  | .returnIndex i, _ => Function.update l a.1 ((l a.1).set ((l a.1).idxOf (some i)) none)
  | .run .ret, .deqReturn _ v => Function.update l a.1 (l a.1 ++ [some (v 0)])
  | _, _ => l

/-- A thread returns only what it holds, and each checkout once. -/
def Disciplined (p : State Tid × Checkouts Tid) : Tid × Micro → Prop
  | (θ, .returnIndex i) => some i ∈ p.2 θ
  | _ => True

instance (p : State Tid × Checkouts Tid) : (a : Tid × Micro) → Decidable (Disciplined p a)
  | (θ, .returnIndex i) => inferInstanceAs (Decidable (some i ∈ p.2 θ))
  | (_, .getIndex) => .isTrue trivial
  | (_, .run _) => .isTrue trivial

/-! ### The steps -/

section Steps

variable {cfg : Ring.Config} {s : State Tid} {l : Checkouts Tid} {lg : Ring.Log Tid ℤ 1} {θ : Tid}
  {m' : Ring.Mem ℕ ℤ 1} {p' : Ring.Pc ℕ ℕ ℤ 1} {A : Set ℤ}

/-- A `returnIndex` takes the index from the client. -/
theorem giveBack (h : Conserved (At cfg s l) A) (hp : s.pc θ = .idle) {i : ℤ} (hi : some i ∈ l θ)
    {k : Ring.EnqKind} : Conserved (At cfg (s.put θ s.mem (.enqClaim k (ofIndex i)))
      (Function.update l θ ((l θ).set ((l θ).idxOf (some i)) none))) A := by
  have hget : (l θ)[(l θ).idxOf (some i)]? = some (some i) := List.getElem?_idxOf hi
  refine h.move (.held θ ((l θ).idxOf (some i))) (.returning θ) hget
    (fun v hv => At.unique hv hget) fun q n => ?_
  cases q with
  | returning θ' =>
    by_cases hθ : θ' = θ
    · subst hθ
      simp [At, Ring.Pc.claiming, hp, ofIndex, eq_comm]
    · simp [At, Ring.put_pc_of_ne hθ, hθ]
  | ring q =>
    have hring : Ring.At cfg (s.put θ s.mem (.enqClaim k (ofIndex i))) q n ↔ Ring.At cfg s q n :=
      Ring.at_quiet rfl (by rw [hp]; rfl) (by rw [hp]; rfl) (by rw [hp]; rfl) q n
    simp [At, hring]
  | held θ' k' =>
    by_cases hθ : θ' = θ
    · subst hθ
      by_cases hk : k' = (l θ').idxOf (some i)
      · subst hk
        simp [At, List.getElem?_set]
      · simp [At, Ne.symm hk, hk]
    · simp [At, hθ]

/-- **Every step of a ring operation passes an index on, or leaves all of them where they are.** -/
theorem run (h : Conserved (At cfg s l) A) (ht : Ring.Tickets cfg s lg)
    (hc : Ring.Contents cfg s lg) (hb : (s.pc θ).inBatch = false) {a : Ring.Micro ℤ 1}
    (ha : ∀ c, a ≠ .call c) (hx : Ring.Exec (Ring.unbounded cfg) cfg s.mem (s.pc θ) a m' p') :
    Conserved (At cfg (s.put θ m' p') (note s (θ, .run a) l)) A := by
  obtain ⟨hnone, hold⟩ := hx.claiming_eq_none ha
  have hothers : ∀ θ' n l', θ' ≠ θ →
      (At cfg (s.put θ m' p') l' (.returning θ') n ↔ At cfg s l (.returning θ') n) := by
    intro θ' n l' hθ
    simp only [At, Ring.put_pc_of_ne hθ]
  have hnote : (∀ t v, s.pc θ ≠ .deqReturn t v) → note s (θ, .run a) l = l := by
    intro hret
    cases hp : s.pc θ with
    | deqReturn t v => exact absurd hp (hret t v)
    | _ => cases a <;> simp [note, hp]
  cases hx.transit ht hc hb with
  | stays hat hclaim hret =>
    refine h.congr fun q n => ?_
    rw [hnote hret]
    cases q with
    | returning θ' =>
      by_cases hθ : θ' = θ
      · subst hθ; simp only [At, Ring.put_pc_self, hnone, hold hclaim]
      · exact hothers θ' n l hθ
    | ring q => exact hat q n
    | held θ' k => rfl
  | enters k v hp hac hnew hat =>
    rw [hnote (by simp [hp])]
    have hq : At cfg s l (.returning θ) (v 0) := by simp [At, Ring.Pc.claiming, hp]
    refine h.move (.returning θ) (.ring (.writing θ)) hq (fun n hn => At.unique hn hq) fun q n => ?_
    cases q with
    | returning θ' =>
      by_cases hθ : θ' = θ
      · subst hθ; simp [At, hnone]
      · rw [hothers θ' n l hθ]
        simp [hθ]
    | ring q => simp [At, hat]
    | held θ' k => simp [At]
  | moves q q' x hq hat hclaim hret =>
    rw [hnote hret]
    refine h.move (.ring q) (.ring q') hq (fun n hn => Ring.At.unique hn hq) fun q₁ n => ?_
    cases q₁ with
    | returning θ' =>
      by_cases hθ : θ' = θ
      · subst hθ; simp [At, hnone, hold hclaim]
      · rw [hothers θ' n l hθ]
        simp
    | ring q₁ => simp [At, hat]
    | held θ' k => simp [At]
  | leaves t v hp hret hq hat =>
    subst hret
    have hl : note s (θ, .run .ret) l = Function.update l θ (l θ ++ [some (v 0)]) := by
      simp [note, hp]
    rw [hl]
    refine h.move (.ring (.reading θ)) (.held θ (l θ).length) hq
      (fun n hn => At.unique (q := .ring (.reading θ)) hn hq) fun q n => ?_
    cases q with
    | returning θ' =>
      by_cases hθ : θ' = θ
      · subst hθ; simp [At, hnone, hold (by simp)]
      · rw [hothers θ' n _ hθ]
        simp
    | ring q => simp [At, hat]
    | held θ' k =>
      by_cases hθ : θ' = θ
      · subst hθ
        simp only [At, Function.update_self, Ring.getElem?_concat_eq_some, Option.some.injEq]
        simp [or_comm, eq_comm]
      · simp [At, hθ]

end Steps

/-! ### Every reachable state -/

variable {cfg : Ring.Config} {s : State Tid} {l : Checkouts Tid}

/-- A run of the pool is a run of its ring. -/
theorem ring_reachable (h : (system (Ring.unbounded cfg) cfg).Reachable s) :
    (Ring.system (Ring.unbounded cfg) cfg).Reachable s ∧ ∀ θ, (s.pc θ).inBatch = false := by
  induction h with
  | @init s hs =>
    obtain ⟨θ, data, array, hinit⟩ := hs
    constructor
    · refine System.foldlM_preserves (fun s i s' hs h => ?_) (.init ⟨data, array, rfl⟩) hinit
      exact System.foldlM_preserves (fun s a s' hs h => .step hs h) hs h
    · rw [initializeIndexes_fresh] at hinit
      cases hinit
      exact fun _ => rfl
  | @step s s' a hs hstep ih =>
    obtain ⟨θ, a⟩ := a
    obtain ⟨b, hb, hring⟩ := step_ring hstep
    refine ⟨.step ih.1 hring, fun θ' => ?_⟩
    obtain ⟨m, p, hx, rfl⟩ := Ring.step_eq_some.1 hring
    by_cases hθ : θ' = θ
    · subst hθ
      rw [Ring.put_pc_self]
      exact hx.inBatch_eq_false (ih.2 θ') hb
    · rw [Ring.put_pc_of_ne hθ]
      exact ih.2 θ'

/-- In every reachable state each of the indices is at one place. -/
theorem conserved_reachable
    (h : (((system (Ring.unbounded cfg) cfg).withLog (fun _ => []) note).restrict
      Disciplined).Reachable (s, l)) : Conserved (At cfg s l) (Set.Ico 0 (cfg.SIZE : ℤ)) := by
  have hI : (((system (Ring.unbounded cfg) cfg).withLog (fun _ => []) note).restrict
      Disciplined).IsInvariant fun p : State Tid × Checkouts Tid =>
        Conserved (At cfg p.1 p.2) (Set.Ico 0 (cfg.SIZE : ℤ)) := by
    constructor
    · rintro ⟨s, l⟩ ⟨⟨θ, data, array, hinit⟩, rfl⟩
      rw [initializeIndexes_fresh] at hinit
      cases hinit
      exact conserved_init data array
    · rintro ⟨s, l⟩ ⟨θ, a⟩ ⟨s', l'⟩ hreach hcons ⟨hdisc, hstep, rfl⟩
      obtain ⟨hring, hb⟩ := ring_reachable hreach.of_restrict.of_log
      obtain ⟨lg, hlg⟩ := hring.exists_log Ring.Log.empty Ring.logNote
      obtain ⟨ht, hc⟩ := Ring.invariants hlg
      cases a with
      | getIndex =>
        obtain ⟨m, p, hx, rfl⟩ := Ring.step_eq_some.1 hstep
        generalize hp : s.pc θ = q at hx
        cases hx
        refine hcons.congr fun q n => ?_
        cases q with
        | returning θ' =>
          by_cases hθ : θ' = θ
          · subst hθ; simp [At, Ring.Pc.claiming, hp, Ring.Call.entry]
          · simp [At, Ring.put_pc_of_ne hθ]
        | ring q =>
          exact Ring.at_quiet rfl (by rw [hp]; rfl) (by rw [hp]; rfl) (by rw [hp]; rfl) q n
        | held θ' k => rfl
      | returnIndex i =>
        obtain ⟨m, p, hx, rfl⟩ := Ring.step_eq_some.1 hstep
        generalize hp : s.pc θ = q at hx
        cases hx
        exact giveBack hcons hp hdisc
      | run a =>
        cases a with
        | call c => cases hstep
        | _ =>
          obtain ⟨m, p, hx, rfl⟩ := Ring.step_eq_some.1 hstep
          exact run hcons ht hc (hb θ) (by simp) hx
  exact hI.reachable h

/-- **Exclusive ownership.** In every reachable state the indices that are free in the ring, being
returned, being taken and held by clients are exactly `0, …, SIZE - 1`, each at one place and no two
at the same. So a `getIndex` returns an index in range, and one that nobody holds. -/
theorem exclusive_ownership
    (h : (((system (Ring.unbounded cfg) cfg).withLog (fun _ => []) note).restrict
      Disciplined).Reachable (s, l)) :
    Conserved (At cfg s l) (Set.Ico 0 (cfg.SIZE : ℤ)) ∧
    (∀ q n n', At cfg s l q n → At cfg s l q n' → n = n') ∧
    (∀ θ t v, s.pc θ = .deqReturn t v →
      0 ≤ v 0 ∧ v 0 < cfg.SIZE ∧ ∀ θ' (k : ℕ), (l θ')[k]? ≠ some (some (v 0))) := by
  have hcons := conserved_reachable h
  refine ⟨hcons, fun q n n' => At.unique, fun θ t v hp => ?_⟩
  have hq : At cfg s l (.ring (.reading θ)) (v 0) := by simp [At, Ring.At, Ring.taking, hp]
  obtain ⟨h0, hlt⟩ := hcons.mem _ _ hq
  refine ⟨h0, hlt, fun θ' k hheld => ?_⟩
  cases hcons.eq hq (q := .held θ' k) hheld

end Ownership

/-- Thread `1` checks out an index. Then thread `0` checks out the other one while
thread `1` returns its own. -/
def crossing : List (ℕ × Micro) :=
  [(1, .getIndex), (1, .run .claim), (1, .run .spin), (1, .run (.copy 0 0)), (1, .run .publish),
   (1, .run .ret), (0, .getIndex), (0, .run .claim), (1, .returnIndex 0), (1, .run .claim),
   (0, .run .spin), (1, .run .spin), (0, .run (.copy 0 0)), (1, .run (.copy 0 0)),
   (0, .run .publish)]

/-- Thread `0` is about to return `1` from `getIndex`, and thread `1` has given back
its checkout. -/
def crossed (q : State ℕ × Checkouts ℕ) : Bool :=
  q.2 1 == [none] && match q.1.pc 0 with
    | .deqReturn 1 v => v 0 == 1
    | _ => false

/-- The pool and the checkouts, with the steps that the clients may take. -/
def disciplinedStep (q : State ℕ × Checkouts ℕ) (a : ℕ × Micro) : Option (State ℕ × Checkouts ℕ) :=
  if Disciplined q a then
    (step (Ring.unbounded Ring.smallest) Ring.smallest q.1 a).map fun s => (s, note q.1 a q.2)
  else none

theorem disciplined_of_schedule {acts : List (ℕ × Micro)} {p : State ℕ × Checkouts ℕ → Bool}
    (h : (acts.foldlM disciplinedStep
      (full Ring.smallest (fun _ => ofIndex 0) fun _ => ofIndex 0, fun _ => [])).map p =
        some true) :
    ∃ s l, (((system (Ring.unbounded Ring.smallest) Ring.smallest).withLog (fun _ => [])
      note).restrict Disciplined).Reachable (s, l) ∧ p (s, l) = true := by
  have hinit : (((system (Ring.unbounded Ring.smallest) Ring.smallest).withLog (fun _ => [])
      note).restrict Disciplined).init
      ((full Ring.smallest (fun _ => ofIndex 0) fun _ => ofIndex 0 : State ℕ), fun _ => []) :=
    ⟨⟨0, _, _, initializeIndexes_fresh 0 _ _⟩, rfl⟩
  obtain ⟨⟨s, l⟩, hr, hp⟩ := System.exists_reachable_of_schedule hinit h (by
    rintro ⟨s, l⟩ a ha ⟨s', l'⟩ hst
    unfold disciplinedStep at hst
    split_ifs at hst with hd
    obtain ⟨t, ht, heq⟩ := Option.map_eq_some_iff.1 hst
    cases heq
    exact ⟨hd, ht, rfl⟩)
  exact ⟨s, l, hr, hp⟩

theorem crossing_crossed : (crossing.foldlM disciplinedStep
    (full Ring.smallest (fun _ => ofIndex 0) fun _ => ofIndex 0, fun _ => [])).map crossed =
      some true := by
  decide +kernel

theorem exclusive_ownership_crossing : ∃ (s : State ℕ) (l : Checkouts ℕ),
    crossed (s, l) = true ∧ Conserved (At Ring.smallest s l) (Set.Ico 0 (Ring.smallest.SIZE : ℤ)) ∧
    (∀ q n n', At Ring.smallest s l q n → At Ring.smallest s l q n' → n = n') ∧
    (∀ θ t v, s.pc θ = .deqReturn t v →
      0 ≤ v 0 ∧ v 0 < Ring.smallest.SIZE ∧ ∀ θ' (k : ℕ), (l θ')[k]? ≠ some (some (v 0))) := by
  obtain ⟨s, l, hr, hp⟩ := disciplined_of_schedule crossing_crossed
  exact ⟨s, l, hp, exclusive_ownership hr⟩

end AstraLib.IndexPool
