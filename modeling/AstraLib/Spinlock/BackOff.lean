import AstraLib.Spinlock
import Mathlib.Data.Nat.Count

/-!
# `Spinlock`: the back-off

After a failed `exchange` comes `for (int i = 0; i < waitTime; ++i)`.  The constructor takes any
`int64_t` for `waitTime`, and the counter is an `int`.

`BacksOff` says what the loop is there for: it is over after `max 0 waitTime` iterations, with all
the values of the counter in the range of `int`, and the thread is back at its `exchange`.  The loop
does this if and only if `waitTime` is not greater than the greatest `int`.  Otherwise `++i`
overflows, which is undefined.  In two's complement the counter is then negative, and since no `int`
reaches `waitTime` the loop never ends.
-/

namespace AstraLib.Spinlock

open Interleaving

section BackOff

variable {Tid Loc Val : Type} [DecidableEq Tid]

/-- The number of steps that thread `θ` has made before step `k`. -/
def stepsOf (a : ℕ → Tid × Micro Loc Val) (θ : Tid) (k : ℕ) : ℕ :=
  Nat.count (fun j => (a j).1 = θ) k

/-- Step `k` is an `exchange` of thread `θ`, and the lock is taken. -/
structure FailsAt (x : ℕ → State Tid Loc Val) (a : ℕ → Tid × Micro Loc Val) (k : ℕ) (θ : Tid)
    (h : Holder) : Prop where
  label : a k = (θ, .exchange)
  pc : (x k).pc θ = .exchange h
  atomic : (x k).atomic = true

variable [DecidableEq Loc]

/-- In the run `x` of length `n`, the loop after every failed `exchange` is what it is
meant to be. -/
structure BacksOff (waitTime : ℤ) (x : ℕ → State Tid Loc Val) (a : ℕ → Tid × Micro Loc Val)
    (n : ℕ) : Prop where
  /-- the thread in the loop can always go on -/
  moves : ∀ m ≤ n, ∀ θ h i, (x m).pc θ = .pause h i →
    ∃ s', step waitTime (x m) (θ, .pause) = some s'
  /-- `++i` stays in the range of `int` -/
  inRange : ∀ m ≤ n, ∀ θ h i, (x m).pc θ = .pause h i → i < waitTime → i + 1 < 2 ^ 31
  /-- `c` steps of the thread after the failed `exchange`, it has made `c` iterations,
  and the counter says so -/
  iterates : ∀ k m c θ h, FailsAt x a k θ h → k < m → m ≤ n →
    stepsOf a θ m = stepsOf a θ (k + 1) + c →
    c ≤ waitTime.toNat → (x m).pc θ = .pause h c
  /-- after `max 0 waitTime` iterations the next test ends the loop -/
  returns : ∀ k m θ h, FailsAt x a k θ h → k < m → m ≤ n →
    stepsOf a θ m = stepsOf a θ (k + 1) + (waitTime.toNat + 1) → (x m).pc θ = .exchange h

/-! ### The loop -/

variable {waitTime : ℤ} {s s' : State Tid Loc Val} {θ : Tid} {h : Holder}

/-- The other threads do not move a thread. -/
theorem pc_of_ne {a : Micro Loc Val} (hs : step waitTime s (θ, a) = some s') {θ' : Tid}
    (hne : θ' ≠ θ) : s'.pc θ' = s.pc θ' := by
  cases step_cases hs with
  | read k r y hp => rfl
  | write k r y v hp => rfl
  | _ => exact goto_pc_of_ne hne _

/-- What a thread in the loop does. -/
theorem pc_of_pause {a : Micro Loc Val} (hs : step waitTime s (θ, a) = some s') {i : ℤ}
    (hp : s.pc θ = .pause h i) :
    s'.pc θ = if i < waitTime then .pause h (toInt (i + 1)) else .exchange h := by
  simp only [step, hp] at hs
  cases a with
  | pause =>
    cases hs
    exact goto_pc_self _
  | _ => cases hs

variable {x : ℕ → State Tid Loc Val} {a : ℕ → Tid × Micro Loc Val} {n : ℕ}

/-- The loop begins with `0`. -/
theorem FailsAt.pc_succ {k : ℕ} (hf : FailsAt x a k θ h) (hx : (system waitTime).Run x a n)
    (hk : k < n) : (x (k + 1)).pc θ = .pause h 0 := by
  have hs : step waitTime (x k) (θ, .exchange) = some (x (k + 1)) := hf.label ▸ hx.step k hk
  generalize x (k + 1) = s' at hs ⊢
  cases step_cases hs with
  | acquire k' hp hfree => cases hf.atomic.symm.trans hfree
  | fail k' hp hheld =>
    cases hf.pc.symm.trans hp
    exact goto_pc_self _

/-- **With a bound that an `int` can reach, the loop counts.** -/
theorem FailsAt.counts {k : ℕ} (hf : FailsAt x a k θ h) (hx : (system waitTime).Run x a n)
    (hbound : waitTime < 2 ^ 31) {m : ℕ} (hkm : k < m) (hm : m ≤ n) :
    ∃ c, stepsOf a θ m = stepsOf a θ (k + 1) + c ∧
      (c ≤ waitTime.toNat + 1 → (x m).pc θ = if c ≤ waitTime.toNat then .pause h c
        else .exchange h) := by
  induction m, hkm using Nat.le_induction with
  | base => exact ⟨0, rfl, fun _ => hf.pc_succ hx hm⟩
  | succ m hkm ih =>
    obtain ⟨c, hc, hpc⟩ := ih (by omega)
    have hs := hx.step m hm
    rcases ham : a m with ⟨θ', b⟩
    rw [ham] at hs
    have hcount : stepsOf a θ (m + 1) = stepsOf a θ m + if θ' = θ then 1 else 0 := by
      rw [stepsOf, Nat.count_succ, ham]
      rfl
    by_cases hθ : θ' = θ
    · -- an iteration, or the test that ends the loop
      subst hθ
      refine ⟨c + 1, by rw [hcount, if_pos rfl, hc, Nat.add_assoc], fun hle => ?_⟩
      have hpause : (x m).pc θ' = .pause h c := by rw [hpc (by omega), if_pos (by omega)]
      rw [pc_of_pause hs hpause]
      by_cases hlt : (c : ℤ) < waitTime
      · have hmore : c + 1 ≤ waitTime.toNat := by omega
        have hint : toInt ((c : ℤ) + 1) = (c + 1 : ℕ) := by
          exact_mod_cast toInt_of_lt (n := c + 1) (by omega)
        rw [if_pos hlt, if_pos hmore, hint]
      · have hend : waitTime.toNat ≤ c := Int.toNat_le.2 (not_lt.1 hlt)
        rw [if_neg hlt, if_neg (Nat.not_le_of_lt (Nat.lt_succ_of_le hend))]
    · refine ⟨c, by rw [hcount, if_neg hθ, hc, Nat.add_zero], fun hle => ?_⟩
      rw [pc_of_ne hs (Ne.symm hθ)]
      exact hpc hle

theorem backsOff_of_lt (hx : (system waitTime).Run x a n) (hbound : waitTime < 2 ^ 31) :
    BacksOff waitTime x a n where
  moves m _ θ h i hp := by
    simp only [step, hp, exec]
    exact ⟨_, rfl⟩
  inRange m _ θ h i _ hlt := by omega
  iterates k m c θ h hf hkm hm hc hle := by
    obtain ⟨c', hc', hpc⟩ := hf.counts hx hbound hkm hm
    obtain rfl : c' = c := by omega
    rw [hpc (by omega), if_pos hle]
  returns k m θ h hf hkm hm hc := by
    obtain ⟨c', hc', hpc⟩ := hf.counts hx hbound hkm hm
    obtain rfl : c' = waitTime.toNat + 1 := by omega
    rw [hpc le_rfl, if_neg (by omega)]

end BackOff

/-! ### A bound that no `int` reaches -/

/-- The counter after `j` iterations, if no test ends the loop. -/
def counter (j : ℕ) : ℤ := (fun i => toInt (i + 1))^[j] 0

theorem counter_succ (j : ℕ) : counter (j + 1) = toInt (counter j + 1) :=
  Function.iterate_succ_apply' _ _ _

theorem counter_lt (j : ℕ) : counter j < 2 ^ 31 := by
  cases j with
  | zero => decide
  | succ j =>
    rw [counter_succ, toInt]
    exact Int.bmod_lt (by decide)

theorem counter_of_lt {j : ℕ} (hj : j < 2 ^ 31) : counter j = j := by
  induction j with
  | zero => rfl
  | succ j ih =>
    rw [counter_succ, ih (by omega)]
    exact_mod_cast toInt_of_lt hj

/-- Thread `false` has the lock and keeps it. -/
def held : State Bool Unit Unit :=
  { (fresh fun _ => ()).goto false (.inside .raw none) with atomic := true }

/-- Thread `true` fails to get the lock, and is in its loop from then on. -/
def spinning : ℕ → State Bool Unit Unit
  | 0 => fresh fun _ => ()
  | 1 => (fresh fun _ => ()).goto false (.exchange .raw)
  | 2 => held
  | 3 => held.goto true (.exchange .raw)
  | j + 4 => held.goto true (.pause .raw (counter j))

/-- The steps between them. -/
def spins : ℕ → Bool × Micro Unit Unit
  | 0 => (false, .lock .raw)
  | 1 => (false, .exchange)
  | 2 => (true, .lock .raw)
  | 3 => (true, .exchange)
  | _ + 4 => (true, .pause)

theorem goto_goto {Tid Loc Val : Type} [DecidableEq Tid] (s : State Tid Loc Val) (θ : Tid)
    (p q : Pc) : (s.goto θ p).goto θ q = s.goto θ q := by
  simp only [State.goto, Function.update_idem]

theorem spinning_run {waitTime : ℤ} (hbound : 2 ^ 31 ≤ waitTime) (n : ℕ) :
    (system waitTime).Run spinning spins n := by
  refine ⟨⟨_, rfl⟩, fun k _ => ?_⟩
  match k with
  | 0 => rfl
  | 1 =>
    show some { ((fresh fun _ => ()).goto false (.exchange .raw)).goto false
      (.inside .raw none) with atomic := true } = some held
    rw [goto_goto]
    rfl
  | 2 => rfl
  | 3 =>
    show some
      { (held.goto true (.exchange .raw)).goto true (.pause .raw 0) with atomic := true } = _
    rw [goto_goto]
    rfl
  | j + 4 =>
    have hlt : counter j < waitTime := (counter_lt j).trans_le hbound
    show some ((held.goto true (.pause .raw (counter j))).goto true
      (if counter j < waitTime then .pause .raw (toInt (counter j + 1)) else .exchange .raw)) = _
    rw [goto_goto, if_pos hlt, ← counter_succ]
    rfl

theorem spinning_failsAt : FailsAt spinning spins 3 true .raw := ⟨rfl, rfl, rfl⟩

theorem spinning_pc (j : ℕ) : (spinning (j + 4)).pc true = .pause .raw (counter j) := rfl

theorem stepsOf_spins (j : ℕ) : stepsOf spins true (j + 4) = stepsOf spins true 4 + j := by
  induction j with
  | zero => rfl
  | succ j ih =>
    have hcount : stepsOf spins true (j + 4 + 1) = stepsOf spins true (j + 4) + 1 :=
      Nat.count_succ _ _
    rw [Nat.add_right_comm, hcount, ih, Nat.add_assoc]

/-- The thread is not back at its `exchange` when it should be. -/
theorem not_backsOff {waitTime : ℤ} :
    ¬ BacksOff waitTime spinning spins (waitTime.toNat + 1 + 4) := by
  intro hb
  have hback := hb.returns 3 (waitTime.toNat + 1 + 4) true .raw spinning_failsAt (by omega) le_rfl
    (stepsOf_spins _)
  rw [spinning_pc] at hback
  cases hback

/-- **When the back-off ends.** In all runs, of any number of threads, every failed `exchange` of
`lock()` is followed by `max 0 waitTime` iterations, with no overflow of the counter, and then by
the next `exchange`, if and only if `waitTime` is less than `2 ^ 31`. -/
theorem back_off_ends_iff (waitTime : ℤ) :
    (∀ (Tid Loc Val : Type) [DecidableEq Tid] [DecidableEq Loc] (x : ℕ → State Tid Loc Val)
      (a : ℕ → Tid × Micro Loc Val)
      (n : ℕ), (system waitTime).Run x a n → BacksOff waitTime x a n) ↔ waitTime < 2 ^ 31 := by
  constructor
  · intro hall
    by_contra hge
    exact not_backsOff (hall Bool Unit Unit spinning spins _ (spinning_run (not_lt.1 hge) _))
  · intro hbound Tid Loc Val _ _ x a n hx
    exact backsOff_of_lt hx hbound

/-- With `waitTime = 2 ^ 31` the counter comes to the greatest `int`, is incremented,
and the loop never ends. -/
theorem back_off_of_two_pow_never_ends : (∀ n, (system (2 ^ 31)).Run spinning spins n) ∧
    FailsAt spinning spins 3 true .raw ∧
    (∀ j < 2 ^ 31, (spinning (j + 4)).pc true = .pause .raw j) ∧
    (∀ j, ∃ i < 2 ^ 31, (spinning (j + 4)).pc true = .pause .raw i) ∧
    ∃ n, ¬ BacksOff (2 ^ 31) spinning spins n := by
  refine ⟨spinning_run le_rfl, spinning_failsAt, fun j hj => ?_,
    fun j => ⟨_, counter_lt j, spinning_pc j⟩, ⟨_, not_backsOff⟩⟩
  rw [spinning_pc, counter_of_lt hj]

end AstraLib.Spinlock
