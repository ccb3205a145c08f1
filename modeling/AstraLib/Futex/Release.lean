import AstraLib.Futex.Model

/-!
# `AtomicFutex`: how many waiters a wake releases

`wake` passes `1` to `FUTEX_WAKE`, but a `wait` is not released by `FUTEX_WAKE` alone.  It returns
as soon as it finds that the value is not its snapshot, and one `fetch_add` changes the value for
every `wait` that has taken its snapshot: those that have not gone to sleep yet, and those whose
sleep is interrupted, return as well.  `Affordable` says when that does no harm to the count: the
`wait` calls that a `fetch_add` lets go, those that have been let go before, and those that have
returned are no more than the `fetch_add`s.
-/

namespace AstraLib.Futex

open Interleaving Relation

/-- If the value is `v`, the `wait` at `p` needs no other `wake` to return. -/
def Pc.Released (v : ℤ) : Pc → Prop
  | .futexWait e | .asleep e | .reload e => e ≠ v
  | .waitReturn => True
  | _ => False

section Release

variable {Tid : Type}

/-- The threads that need no other `wake` to return from `wait`, if the value is `v`. -/
def State.released (s : State Tid) (v : ℤ) : Set Tid := {θ | (s.pc θ).Released v}

/-- At a `fetch_add`: the `wait` calls that have returned, and those past their first load whose
snapshot is not the new value, are no more than the `fetch_add`s with this one. -/
def Affordable (q : State Tid × Counts Tid) (a : Tid × Micro Tid) : Prop :=
  a.2 = .fetchAdd → (q.2.returned : ℕ∞) + (q.1.released (toInt (q.1.futexVal + 1))).encard ≤
    q.2.adds + 1

/-- The `wait` calls that have returned or can return are paid for. -/
def Paid (q : State Tid × Counts Tid) : Prop :=
  (q.2.returned : ℕ∞) + (q.1.released q.1.futexVal).encard ≤ q.2.adds

theorem Paid.init : Paid ((fresh : State Tid), Counts.zero) := by
  simp [Paid, State.released, fresh, Pc.Released, Counts.zero]

theorem Paid.returned_le {q : State Tid × Counts Tid} (h : Paid q) : q.2.returned ≤ q.2.adds := by
  have hle : (q.2.returned : ℕ∞) ≤ q.2.adds := le_self_add.trans h
  exact_mod_cast hle

variable [DecidableEq Tid]

/-- The futex with its counts. -/
def counted : System (State Tid × Counts Tid) (Tid × Micro Tid) := system.withLog Counts.zero count

/-- A step other than a `fetch_add`. -/
def Quiet (q q' : State Tid × Counts Tid) : Prop := ∃ a, a.2 ≠ .fetchAdd ∧ counted.step q a q'

variable {s s' : State Tid} {c : Counts Tid} {θ : Tid} {a : Micro Tid}

/-- The others are released or not as before. -/
theorem Step.released_eq (hx : Step s θ a s') {v : ℤ}
    (hθ : (s'.pc θ).Released v ↔ (s.pc θ).Released v) : s'.released v = s.released v := by
  ext θ'
  by_cases heq : θ' = θ
  · rw [heq]
    exact hθ
  · exact Iff.of_eq (hx.view_eq (Pc.Released v) (fun _ => rfl) heq)

/-- A `wait` returns. -/
theorem Step.released_ret (hx : Step s θ .ret s') (hp : s.pc θ = .waitReturn) (v : ℤ) :
    s'.released v = s.released v \ {θ} := by
  have hp' : s'.pc θ = .idle := by
    cases hx <;> exact goto_pc_self _ _ _
  ext θ'
  by_cases heq : θ' = θ
  · subst heq
    simp [State.released, hp', Pc.Released]
  · have hview := Iff.of_eq (hx.view_eq (Pc.Released v) (fun _ => rfl) heq)
    simpa [State.released, heq] using hview

/-- The steps that neither let a `wait` go nor return from one. -/
theorem Step.quiet (hx : Step s θ a s') (hadd : a ≠ .fetchAdd)
    (hret : a = .ret → s.pc θ ≠ .waitReturn) (c : Counts Tid) :
    s'.futexVal = s.futexVal ∧ s'.released s.futexVal = s.released s.futexVal ∧
      (count s (θ, a) c).adds = c.adds ∧ (count s (θ, a) c).returned = c.returned := by
  suffices hθ : s'.futexVal = s.futexVal ∧
      ((s'.pc θ).Released s.futexVal ↔ (s.pc θ).Released s.futexVal) ∧
      (count s (θ, a) c).adds = c.adds ∧ (count s (θ, a) c).returned = c.returned by
    exact ⟨hθ.1, hx.released_eq hθ.2.1, hθ.2.2⟩
  cases hx with
  | leave e hp hne => simp [count, hp, Pc.Released, Ne.symm hne]
  | _ => simp_all [count, Pc.Released]

/-- The count comes out after a `fetch_add` that can be afforded, and after no other. -/
theorem Step.paid_fetchAdd_iff (hx : Step s θ .fetchAdd s') :
    Paid (s', count s (θ, .fetchAdd) c) ↔ Affordable (s, c) (θ, .fetchAdd) := by
  cases hx with
  | fetchAdd hp =>
    have hset :=
      (Step.fetchAdd hp).released_eq (v := toInt (s.futexVal + 1)) (by simp [hp, Pc.Released])
    have hadds : (count s (θ, .fetchAdd) c).adds = c.adds + 1 := by simp [count, hp]
    have hreturned : (count s (θ, .fetchAdd) c).returned = c.returned := by simp [count, hp]
    rw [Paid, hset, hadds, hreturned, Affordable, forall_prop_of_true rfl]
    push_cast
    rfl

/-- **A `fetch_add` that can be afforded keeps the count**, and so does every other step. -/
theorem Paid.step (h : Paid (s, c)) (hx : Step s θ a s') (hafford : Affordable (s, c) (θ, a)) :
    Paid (s', count s (θ, a) c) := by
  by_cases hadd : a = .fetchAdd
  · subst hadd
    exact hx.paid_fetchAdd_iff.2 hafford
  · by_cases hret : a = .ret ∧ s.pc θ = .waitReturn
    · obtain ⟨rfl, hp⟩ := hret
      have hmem : θ ∈ s.released s.futexVal := by simp [State.released, hp, Pc.Released]
      have hval : s'.futexVal = s.futexVal := by cases hx <;> rfl
      have hadds : (count s (θ, .ret) c).adds = c.adds := by simp [count, hp]
      have hreturned : (count s (θ, .ret) c).returned = c.returned + 1 := by simp [count, hp]
      rw [Paid, hval, hx.released_ret hp, hadds, hreturned]
      calc ((c.returned + 1 : ℕ) : ℕ∞) + (s.released s.futexVal \ {θ}).encard
          = c.returned + ((s.released s.futexVal \ {θ}).encard + 1) := by push_cast; ring
        _ = c.returned + (s.released s.futexVal).encard := by
          rw [Set.encard_sdiff_singleton_add_one hmem]
        _ ≤ c.adds := h
    · obtain ⟨hval, hset, hadds, hreturned⟩ := hx.quiet hadd (fun ha hp => hret ⟨ha, hp⟩) c
      rw [Paid, hval, hset, hadds, hreturned]
      exact h

theorem Paid.reachable {q : State Tid × Counts Tid}
    (h : (counted.restrict Affordable).Reachable q) : Paid q := by
  have hI : (counted.restrict Affordable).IsInvariant fun q : State Tid × Counts Tid => Paid q := by
    constructor
    · rintro ⟨s, c⟩ ⟨rfl, rfl⟩
      exact .init
    · rintro ⟨s, c⟩ ⟨θ, a⟩ ⟨s', c'⟩ - hpaid ⟨hafford, hstep, rfl⟩
      exact hpaid.step (step_iff.1 hstep) hafford
  exact hI.reachable h

/-- Before the next `fetch_add`, whatever returns is paid for. -/
theorem Paid.quiet {q q' : State Tid × Counts Tid} (h : Paid q)
    (hpath : ReflTransGen Quiet q q') : Paid q' := by
  induction hpath with
  | refl => exact h
  | @tail q₁ q₂ _ hq ih =>
    obtain ⟨s₁, c₁⟩ := q₁
    obtain ⟨s₂, c₂⟩ := q₂
    obtain ⟨⟨θ, a⟩, hadd, hstep, rfl⟩ := hq
    exact ih.step (step_iff.1 hstep) fun ha => absurd ha hadd

/-! ### What can return does return -/

/-- The `wait` of thread `θ` returns without any `fetch_add`, and nobody else does. -/
structure Returns (θ : Tid) (q q' : State Tid × Counts Tid) : Prop where
  path : ReflTransGen Quiet q q'
  futexVal : q'.1.futexVal = q.1.futexVal
  released : q'.1.released q.1.futexVal = q.1.released q.1.futexVal \ {θ}
  adds : q'.2.adds = q.2.adds
  returned : q'.2.returned = q.2.returned + 1

/-- One more step in front. -/
theorem Returns.head (hx : Step s θ a s') (hadd : a ≠ .fetchAdd)
    (hret : a = .ret → s.pc θ ≠ .waitReturn) {q : State Tid × Counts Tid}
    (h : Returns θ (s', count s (θ, a) c) q) : Returns θ (s, c) q := by
  obtain ⟨hval, hset, hadds, hreturned⟩ := hx.quiet hadd hret c
  obtain ⟨h1, h2, h3, h4, h5⟩ := h
  simp only [hval, hset, hadds, hreturned] at h2 h3 h4 h5
  exact ⟨.head ⟨(θ, a), hadd, step_iff.2 hx, rfl⟩ h1, h2, h3, h4, h5⟩

theorem exists_returns_of_waitReturn (hp : s.pc θ = .waitReturn) (c : Counts Tid) :
    ∃ q, Returns θ (s, c) q := by
  have hx : Step s θ .ret (s.goto θ .idle) := .waitRet hp
  refine ⟨(s.goto θ .idle, count s (θ, .ret) c),
    .single ⟨(θ, .ret), by simp, step_iff.2 hx, rfl⟩, rfl, hx.released_ret hp _, ?_, ?_⟩
  all_goals simp [count, hp]

theorem exists_returns_of_reload {e : ℤ} (hp : s.pc θ = .reload e) (hne : e ≠ s.futexVal)
    (c : Counts Tid) : ∃ q, Returns θ (s, c) q := by
  obtain ⟨q, hq⟩ := exists_returns_of_waitReturn (s := s.goto θ .waitReturn) (goto_pc_self _ _ _)
    (count s (θ, .load) c)
  exact ⟨q, .head (.leave e hp hne.symm) (by simp) (by simp) hq⟩

/-- **A `wait` whose snapshot is not the value any more can return**, whether it sleeps or not. -/
theorem exists_returns (hθ : θ ∈ s.released s.futexVal) (c : Counts Tid) :
    ∃ q, Returns θ (s, c) q := by
  have hreleased : (s.pc θ).Released s.futexVal := hθ
  cases hp : s.pc θ with
  | waitReturn => exact exists_returns_of_waitReturn hp c
  | reload e =>
    rw [hp] at hreleased
    exact exists_returns_of_reload hp hreleased c
  | futexWait e =>
    rw [hp] at hreleased
    obtain ⟨q, hq⟩ :=
      exists_returns_of_reload (s := s.goto θ (.reload e)) (goto_pc_self _ _ _) hreleased
      (count s (θ, .result .EAGAIN) c)
    exact ⟨q, .head (.refuse e .EAGAIN hp (by decide)) (by simp) (by simp) hq⟩
  | asleep e =>
    rw [hp] at hreleased
    obtain ⟨q, hq⟩ := exists_returns_of_reload
      (s := { s.goto θ (.reload e) with queue := s.queue.erase θ }) (goto_pc_self _ _ _) hreleased
      (count s (θ, .result .EINTR) c)
    exact ⟨q, .head (.spurious e .EINTR hp (by decide)) (by simp) (by simp) hq⟩
  | _ =>
    rw [hp] at hreleased
    exact absurd hreleased not_false

/-- As many as can return do so, one after the other. -/
theorem exists_returned {n : ℕ} {q : State Tid × Counts Tid}
    (hn : n ≤ (q.1.released q.1.futexVal).encard) :
    ∃ q', ReflTransGen Quiet q q' ∧ q'.2.adds = q.2.adds ∧ q'.2.returned = q.2.returned + n := by
  induction n generalizing q with
  | zero => exact ⟨q, .refl, rfl, rfl⟩
  | succ n ih =>
    have hne : (q.1.released q.1.futexVal).encard ≠ 0 := by
      intro hzero
      rw [hzero] at hn
      simp at hn
    obtain ⟨θ, hθ⟩ := Set.encard_ne_zero.1 hne
    obtain ⟨q₁, hq₁⟩ := exists_returns hθ q.2
    have hrest : n ≤ (q₁.1.released q₁.1.futexVal).encard := by
      rw [hq₁.futexVal, hq₁.released]
      rw [← Set.encard_sdiff_singleton_add_one hθ] at hn
      push_cast at hn
      exact (ENat.add_le_add_iff_right (by simp)).1 hn
    obtain ⟨q', hpath, hadds, hreturned⟩ := ih hrest
    have hone : q₁.2.returned = q.2.returned + 1 := hq₁.returned
    exact ⟨q', hq₁.path.trans hpath, hadds.trans hq₁.adds, by omega⟩

/-- If the count does not come out, it is exceeded before the next `fetch_add`. -/
theorem exists_overdrawn {q : State Tid × Counts Tid} (h : ¬ Paid q) :
    ∃ q', ReflTransGen Quiet q q' ∧ q'.2.adds < q'.2.returned := by
  have hn : ((q.2.adds + 1 - q.2.returned : ℕ) : ℕ∞) ≤ (q.1.released q.1.futexVal).encard := by
    unfold Paid at h
    cases hcard : (q.1.released q.1.futexVal).encard with
    | top => exact le_top
    | coe m =>
      rw [hcard] at h
      norm_cast at h ⊢
      omega
  obtain ⟨q', hpath, hadds, hreturned⟩ := exists_returned hn
  exact ⟨q', hpath, by omega⟩

/-- **When a wake releases at most one waiter.** In a run, the `wait` calls that have
returned are at every moment no more than the `fetch_add`s of the `wake` calls, and they
stay so however the threads go on before the next `fetch_add`, if and only if every
`fetch_add` of the run can be afforded. -/
theorem returned_le_adds_iff {x : ℕ → State Tid × Counts Tid} {b : ℕ → Tid × Micro Tid} {n : ℕ}
    (h : counted.Run x b n) :
    (∀ k ≤ n, ∀ q, ReflTransGen Quiet (x k) q → q.2.returned ≤ q.2.adds) ↔
      ∀ k < n, Affordable (x k) (b k) := by
  refine h.forall_iff_allow (P := fun p => ∀ q, ReflTransGen Quiet p q → q.2.returned ≤ q.2.adds)
    (fun k hk hreach q hpath => ?_) fun k hk _ hafford hall => ?_
  · exact ((Paid.reachable hreach).quiet hpath).returned_le
  · have hadd : (b k).2 = .fetchAdd := by
      by_contra hne
      exact hafford fun ha => absurd ha hne
    have hstep := h.step k hk
    obtain ⟨q', hpath, hlt⟩ : ∃ q', ReflTransGen Quiet (x (k + 1)) q' ∧
        q'.2.adds < q'.2.returned := by
      refine exists_overdrawn ?_
      generalize x (k + 1) = q, x k = q₀, b k = l at hstep hafford hadd
      obtain ⟨s, c⟩ := q₀
      obtain ⟨s', c'⟩ := q
      obtain ⟨θ, a⟩ := l
      obtain rfl : a = .fetchAdd := hadd
      obtain ⟨hx, rfl⟩ := hstep
      exact mt (Step.paid_fetchAdd_iff (step_iff.1 hx)).1 hafford
    exact absurd (hall q' hpath) (by omega)

end Release

/-- Thread `false` waits, and thread `true` wakes it before it has gone to sleep. -/
def takesTurns : List (Bool × Micro Bool) :=
  [(false, .wait), (false, .load), (true, .wake), (true, .fetchAdd),
   (false, .result .EAGAIN), (false, .load), (false, .ret)]

/-- One step together with its counts. -/
def countStep {Tid : Type} [DecidableEq Tid] (q : State Tid × Counts Tid) (a : Tid × Micro Tid) :
    Option (State Tid × Counts Tid) :=
  (step q.1 a).map fun s => (s, count q.1 a q.2)

theorem countStep_sound {Tid : Type} [DecidableEq Tid] {q q' : State Tid × Counts Tid}
    {a : Tid × Micro Tid} (hno : a.2 ≠ .result .error) (h : countStep q a = some q') :
    counted.step q a q' := by
  obtain ⟨s, hs, rfl⟩ := Option.map_eq_some_iff.1 h
  exact ⟨⟨hno, hs⟩, rfl⟩

/-- After `k` steps: the state before the `fetch_add`, and the counts in the end. -/
def takesTurnsCheck (k : ℕ) (q : State Bool × Counts Bool) : Bool :=
  (k != 3 || q.1.pc true == .fetchAdd && q.2.returned == 0) &&
    (k != takesTurns.length || q.2.returned == 1 && q.2.adds == 1)

theorem takesTurns_check : ∀ k ≤ takesTurns.length,
    ((takesTurns.take k).foldlM countStep (fresh, Counts.zero)).map
      (takesTurnsCheck k) = some true := by
  decide +kernel

theorem returned_le_adds_iff_takesTurns : ∃ x : ℕ → State Bool × Counts Bool,
    (x takesTurns.length).2.returned = 1 ∧ (x takesTurns.length).2.adds = 1 ∧
    ∀ k ≤ takesTurns.length, ∀ q, ReflTransGen Quiet (x k) q → q.2.returned ≤ q.2.adds := by
  have hno : ∀ a ∈ takesTurns, a.2 ≠ .result .error := by
    intro a ha
    fin_cases ha <;> simp
  have hinit : counted.init ((fresh : State Bool), (Counts.zero : Counts Bool)) := ⟨rfl, rfl⟩
  obtain ⟨x, hx, hp⟩ := System.exists_run_of_checks hinit (false, .ret) takesTurns_check
    fun _ a ha _ => countStep_sound (hno a ha)
  simp only [takesTurnsCheck, Bool.and_eq_true] at hp
  have hend := (hp _ le_rfl).2
  simp only [bne_self_eq_false, Bool.false_or, Bool.and_eq_true, beq_iff_eq] at hend
  refine ⟨x, hend.1, hend.2, (returned_le_adds_iff hx).2 fun k hk hadd => ?_⟩
  -- the one `fetch_add` is the fourth step
  obtain rfl : k = 3 := by
    have hlt : k < 7 := hk
    interval_cases k <;> simp [takesTurns] at hadd ⊢
  have hmid := (hp 3 hk.le).1
  simp only [bne_self_eq_false, Bool.false_or, Bool.and_eq_true, beq_iff_eq] at hmid
  have hsub : (x 3).1.released (toInt ((x 3).1.futexVal + 1)) ⊆ {false} := by
    intro θ hθ
    cases θ with
    | false => rfl
    | true =>
      have hreleased : ((x 3).1.pc true).Released (toInt ((x 3).1.futexVal + 1)) := hθ
      rw [hmid.1] at hreleased
      exact absurd hreleased not_false
  have hcard := Set.encard_le_encard hsub
  rw [Set.encard_singleton] at hcard
  rw [hmid.2, Nat.cast_zero, zero_add]
  exact hcard.trans le_add_self

/-- Two threads take their snapshots, a third one calls `wake` once, and both of the
first two return. -/
def oneWakeTwoReturns : List (ℕ × Micro ℕ) :=
  [(0, .wait), (0, .load), (1, .wait), (1, .load), (2, .wake), (2, .fetchAdd),
   (2, .futexWake none), (2, .ret), (0, .result .EAGAIN), (0, .load), (0, .ret),
   (1, .result .EAGAIN), (1, .load), (1, .ret)]

theorem oneWakeTwoReturns_counts : (oneWakeTwoReturns.foldlM countStep (fresh, Counts.zero)).map
    (fun q => q.2.returned == 2 && q.2.adds == 1) = some true := by
  decide +kernel

/-- One `wake` releases two waiters. -/
theorem two_returned_one_added : ∃ q : State ℕ × Counts ℕ,
    counted.Reachable q ∧ q.2.returned = 2 ∧ q.2.adds = 1 := by
  have hno : ∀ a ∈ oneWakeTwoReturns, a.2 ≠ .result .error := by
    intro a ha
    fin_cases ha <;> simp
  have hinit : counted.init ((fresh : State ℕ), (Counts.zero : Counts ℕ)) := ⟨rfl, rfl⟩
  obtain ⟨q, hq, hp⟩ := System.exists_reachable_of_schedule hinit oneWakeTwoReturns_counts
    fun _ a ha _ => countStep_sound (hno a ha)
  simp only [Bool.and_eq_true, beq_iff_eq] at hp
  exact ⟨q, hq, hp.1, hp.2⟩

end AstraLib.Futex
