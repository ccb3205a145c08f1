import AstraLib.Interleaving.System
import AstraLib.Words

/-!
# `Spinlock` and `SpinlockGuard`

`include/AstraLib/Atomic/spinlock.hpp`: a flag that `lock()` sets with an `exchange`
and `unlock()` clears with a store, and a guard that calls the one in its constructor
and the other in its destructor.

The threads run critical sections, as many as they like and as long as they like.  In them they read
and write shared variables that are not atomic; one of these, `counter`, is only ever incremented,
by a read and a write that are two steps.  A critical section may end at any point.
-/

namespace AstraLib.Spinlock

open Interleaving

/-- How the lock is taken: by a call of `lock()`, or by the constructor of a `SpinlockGuard`. -/
inductive Holder
  | raw
  | guard
  deriving DecidableEq

/-- Where a thread is. -/
inductive Pc
  | outside
  /-- before the `exchange` of `lock()` -/
  | exchange (k : Holder)
  /-- in the loop after a failed `exchange`, before the test `i < waitTime` -/
  | pause (k : Holder) (i : ℤ)
  /-- in the critical section, with the value of `counter` if that has been read and
  not yet written -/
  | inside (k : Holder) (read : Option ℕ)
  /-- before the store of `unlock()`, which the code or `~SpinlockGuard` has called -/
  | unlock (k : Holder)
  deriving DecidableEq

/-- The atomic steps of a thread. -/
inductive Micro (Loc Val : Type)
  /-- call of `lock()`, or construction of a `SpinlockGuard` -/
  | lock (k : Holder)
  | exchange
  /-- the test of the loop, and the iteration if it succeeds -/
  | pause
  /-- read of a shared variable -/
  | read (x : Loc)
  /-- write of a shared variable -/
  | write (x : Loc) (v : Val)
  | readCounter
  /-- the value that was read is written back, incremented -/
  | writeCounter
  /-- call of `unlock()`, or end of the scope of the guard -/
  | leave
  /-- the store of `unlock()` -/
  | store

/-- The flag of the lock, the shared variables and the threads. -/
structure State (Tid Loc Val : Type) where
  atomic : Bool
  counter : ℕ
  data : Loc → Val
  pc : Tid → Pc

section Program

variable {Tid Loc Val : Type} [DecidableEq Tid] [DecidableEq Loc] (waitTime : ℤ)
  (s : State Tid Loc Val)

/-- Thread `θ` goes to `p`. -/
def State.goto (θ : Tid) (p : Pc) : State Tid Loc Val := { s with pc := Function.update s.pc θ p }

/-- One atomic step of thread `θ`. The counter of the loop is an `int`. -/
def exec (θ : Tid) : Pc → Micro Loc Val → Option (State Tid Loc Val)
  | .outside, .lock k => some (s.goto θ (.exchange k))
  | .exchange k, .exchange =>
      some { s.goto θ (if s.atomic then .pause k 0 else .inside k none) with atomic := true }
  | .pause k i, .pause =>
      some (s.goto θ (if i < waitTime then .pause k (toInt (i + 1)) else .exchange k))
  | .inside _ _, .read _ => some s
  | .inside _ _, .write x v => some { s with data := Function.update s.data x v }
  | .inside k _, .readCounter => some (s.goto θ (.inside k (some s.counter)))
  | .inside k (some n), .writeCounter => some { s.goto θ (.inside k none) with counter := n + 1 }
  | .inside k _, .leave => some (s.goto θ (.unlock k))
  | .unlock _, .store => some { s.goto θ .outside with atomic := false }
  | _, _ => none

/-- Thread `a.1` takes the atomic step `a.2`. -/
def step (a : Tid × Micro Loc Val) : Option (State Tid Loc Val) :=
  exec waitTime s a.1 (s.pc a.1) a.2

/-- A new lock. -/
def fresh (data : Loc → Val) : State Tid Loc Val := ⟨false, 0, data, fun _ => .outside⟩

/-- The lock under any number of threads. -/
def system : System (State Tid Loc Val) (Tid × Micro Loc Val) :=
  .ofFun (fun s => ∃ data, s = fresh data) (step waitTime)

/-- The number of increments of `counter` that have been completed. -/
def note (_ : State Tid Loc Val) (a : Tid × Micro Loc Val) (n : ℕ) : ℕ :=
  match a.2 with
  | .writeCounter => n + 1
  | _ => n

end Program

/-! ### The steps of the program -/

section Steps

variable {Tid Loc Val : Type} [DecidableEq Tid] {waitTime : ℤ} {s s' : State Tid Loc Val} {θ : Tid}

@[simp] theorem goto_pc_self (p : Pc) : (s.goto θ p).pc θ = p := Function.update_self _ _ _

theorem goto_pc_of_ne {θ' : Tid} (h : θ' ≠ θ) (p : Pc) : (s.goto θ p).pc θ' = s.pc θ' :=
  Function.update_of_ne h _ _

variable [DecidableEq Loc]

/-- The atomic steps of thread `θ`, one constructor for each way a step can go. -/
inductive Exec (waitTime : ℤ) (s : State Tid Loc Val) (θ : Tid) :
    Micro Loc Val → State Tid Loc Val → Prop
  | lock (k : Holder) (hp : s.pc θ = .outside) :
      Exec waitTime s θ (.lock k) (s.goto θ (.exchange k))
  | acquire (k : Holder) (hp : s.pc θ = .exchange k) (h : s.atomic = false) :
      Exec waitTime s θ .exchange { s.goto θ (.inside k none) with atomic := true }
  | fail (k : Holder) (hp : s.pc θ = .exchange k) (h : s.atomic = true) :
      Exec waitTime s θ .exchange (s.goto θ (.pause k 0))
  | pause (k : Holder) (i : ℤ) (hp : s.pc θ = .pause k i) (h : i < waitTime) :
      Exec waitTime s θ .pause (s.goto θ (.pause k (toInt (i + 1))))
  | again (k : Holder) (i : ℤ) (hp : s.pc θ = .pause k i) (h : ¬ i < waitTime) :
      Exec waitTime s θ .pause (s.goto θ (.exchange k))
  | read (k : Holder) (r : Option ℕ) (x : Loc) (hp : s.pc θ = .inside k r) :
      Exec waitTime s θ (.read x) s
  | write (k : Holder) (r : Option ℕ) (x : Loc) (v : Val) (hp : s.pc θ = .inside k r) :
      Exec waitTime s θ (.write x v) { s with data := Function.update s.data x v }
  | readCounter (k : Holder) (r : Option ℕ) (hp : s.pc θ = .inside k r) :
      Exec waitTime s θ .readCounter (s.goto θ (.inside k (some s.counter)))
  | writeCounter (k : Holder) (n : ℕ) (hp : s.pc θ = .inside k (some n)) :
      Exec waitTime s θ .writeCounter { s.goto θ (.inside k none) with counter := n + 1 }
  | leave (k : Holder) (r : Option ℕ) (hp : s.pc θ = .inside k r) :
      Exec waitTime s θ .leave (s.goto θ (.unlock k))
  | unlock (k : Holder) (hp : s.pc θ = .unlock k) :
      Exec waitTime s θ .store { s.goto θ .outside with atomic := false }

theorem step_cases {a : Micro Loc Val} (h : step waitTime s (θ, a) = some s') :
    Exec waitTime s θ a s' := by
  unfold step at h
  generalize hp : s.pc θ = p at h
  revert h
  fun_cases exec waitTime s θ p a
  all_goals intro h
  case case2 k =>
    cases h
    cases ha : s.atomic with
    | false => exact .acquire k hp ha
    | true =>
      have heq : ({ s.goto θ (.pause k 0) with atomic := true } : State Tid Loc Val) =
          s.goto θ (.pause k 0) := by
        simp only [State.goto, ha]
      simp only [if_true]
      rw [heq]
      exact .fail k hp ha
  case case3 k i =>
    cases h
    by_cases hi : i < waitTime
    · rw [if_pos hi]; exact .pause k i hp hi
    · rw [if_neg hi]; exact .again k i hp hi
  all_goals first
    | cases h; exact .lock _ hp
    | cases h; exact .read _ _ _ hp
    | cases h; exact .write _ _ _ _ hp
    | cases h; exact .readCounter _ _ hp
    | cases h; exact .writeCounter _ _ hp
    | cases h; exact .leave _ _ hp
    | cases h; exact .unlock _ hp
    | cases h

end Steps

/-! ### Mutual exclusion -/

section Exclusion

variable {Tid Loc Val : Type} {s s' : State Tid Loc Val} {n n' : ℕ}

/-- The thread is between its successful `exchange` and its store in `unlock()`. -/
def Pc.holds : Pc → Bool
  | .inside _ _ | .unlock _ => true
  | _ => false

/-- One thread at most holds the lock, the flag says whether there is one, and a value of `counter`
that a thread has read is the current one. -/
structure Exclusive (s : State Tid Loc Val) (n : ℕ) : Prop where
  one : ∀ θ θ', (s.pc θ).holds = true → (s.pc θ').holds = true → θ = θ'
  atomic : s.atomic = true ↔ ∃ θ, (s.pc θ).holds = true
  counter : s.counter = n
  read : ∀ θ k r, s.pc θ = .inside k (some r) → r = s.counter

namespace Exclusive

theorem init (data : Loc → Val) : Exclusive (fresh data : State Tid Loc Val) 0 := by
  refine ⟨?_, ?_, rfl, ?_⟩ <;> simp [fresh, Pc.holds]

/-- A holder of the lock is alone with it. -/
theorem eq_of_holds (h : Exclusive s n) {θ θ' : Tid} (hθ : (s.pc θ).holds = true)
    (hne : θ' ≠ θ) : (s.pc θ').holds = false := by
  by_contra hθ'
  exact hne (h.one θ' θ (by simpa using hθ') hθ)

variable [DecidableEq Tid] {θ : Tid} {p : Pc}

/-- A step that neither takes the lock nor gives it back. -/
theorem move (h : Exclusive s n) (hpc : s'.pc = Function.update s.pc θ p)
    (hat : s'.atomic = s.atomic) (hp : p.holds = (s.pc θ).holds) (hc : s'.counter = n')
    (hold : (s.pc θ).holds = false → s'.counter = s.counter)
    (hread : ∀ k r, p = .inside k (some r) → r = s'.counter) : Exclusive s' n' := by
  have hholds : ∀ θ', (s'.pc θ').holds = (s.pc θ').holds := by
    rw [hpc]
    apply (Function.forall_update_iff s.pc fun θ' q => q.holds = (s.pc θ').holds).2
    exact ⟨hp, fun _ _ => rfl⟩
  refine ⟨fun θ₁ θ₂ => ?_, ?_, hc, fun θ' k r hr => ?_⟩
  · rw [hholds, hholds]
    exact h.one θ₁ θ₂
  · simp only [hat, hholds]
    exact h.atomic
  · by_cases hθ : θ' = θ
    · subst hθ
      rw [hpc, Function.update_self] at hr
      exact hread k r hr
    · rw [hpc, Function.update_of_ne hθ] at hr
      -- somebody else holds the lock, so this thread does not write
      have hother : (s.pc θ').holds = true := by rw [hr]; rfl
      rw [hold (h.eq_of_holds hother (Ne.symm hθ))]
      exact h.read θ' k r hr

/-- The lock is free, and a thread takes it. -/
theorem acquire (h : Exclusive s n) (hfree : s.atomic = false) {k : Holder} :
    Exclusive { s.goto θ (.inside k none) with atomic := true } n := by
  have hnone : ∀ θ', (s.pc θ').holds = false := by
    intro θ'
    by_contra hθ'
    have htrue := h.atomic.2 ⟨θ', by simpa using hθ'⟩
    rw [hfree] at htrue
    cases htrue
  have honly : ∀ θ', ((s.goto θ (.inside k none)).pc θ').holds = true → θ' = θ := by
    intro θ' hθ'
    by_contra hne
    rw [goto_pc_of_ne hne, hnone θ'] at hθ'
    cases hθ'
  refine ⟨fun θ₁ θ₂ h₁ h₂ => (honly θ₁ h₁).trans (honly θ₂ h₂).symm, ?_, h.counter,
    fun θ' k' r hr => ?_⟩
  · simp only [true_iff]
    exact ⟨θ, by rw [goto_pc_self]; rfl⟩
  · obtain rfl := honly θ' (by rw [hr]; rfl)
    rw [goto_pc_self] at hr
    cases hr

/-- The holder gives the lock back. -/
theorem release (h : Exclusive s n) (hθ : (s.pc θ).holds = true) :
    Exclusive { s.goto θ .outside with atomic := false } n := by
  have hnone : ∀ θ', ((s.goto θ .outside).pc θ').holds = false := by
    intro θ'
    by_cases hne : θ' = θ
    · subst hne
      rw [goto_pc_self]
      rfl
    · rw [goto_pc_of_ne hne]
      exact h.eq_of_holds hθ hne
  refine ⟨fun θ₁ _ h₁ => ?_, ?_, h.counter, fun θ' k r hr => ?_⟩
  · rw [hnone θ₁] at h₁
    cases h₁
  · simp [hnone]
  · have hθ' := hnone θ'
    rw [hr] at hθ'
    cases hθ'

variable [DecidableEq Loc] {waitTime : ℤ}

/-- **Every step keeps the exclusion.** -/
theorem step (h : Exclusive s n) {a : Micro Loc Val} (hs : Exec waitTime s θ a s') :
    Exclusive s' (note s (θ, a) n) := by
  cases hs with
  | lock k hp => exact h.move rfl rfl (by rw [hp]; rfl) h.counter (fun _ => rfl) (by simp)
  | acquire k hp hfree => exact h.acquire hfree
  | fail k hp _ => exact h.move rfl rfl (by rw [hp]; rfl) h.counter (fun _ => rfl) (by simp)
  | pause k i hp _ => exact h.move rfl rfl (by rw [hp]; rfl) h.counter (fun _ => rfl) (by simp)
  | again k i hp _ => exact h.move rfl rfl (by rw [hp]; rfl) h.counter (fun _ => rfl) (by simp)
  | read k r x hp => exact h
  | write k r x v hp => exact ⟨h.one, h.atomic, h.counter, h.read⟩
  | readCounter k r hp =>
    refine h.move rfl rfl (by rw [hp]; rfl) h.counter (fun _ => rfl) fun k' r' hr => ?_
    cases hr
    rfl
  | writeCounter k m hp =>
    -- the value that is written back is one more than the current one
    refine h.move rfl rfl (by rw [hp]; rfl) ?_ (by rw [hp]; simp [Pc.holds]) (by simp)
    show m + 1 = n + 1
    rw [h.read θ k m hp, h.counter]
  | leave k r hp => exact h.move rfl rfl (by rw [hp]; rfl) h.counter (fun _ => rfl) (by simp)
  | unlock k hp => exact h.release (by rw [hp]; rfl)

end Exclusive

variable [DecidableEq Tid] [DecidableEq Loc] {waitTime : ℤ}

theorem Exclusive.reachable (h : ((system waitTime).withLog 0 note).Reachable (s, n)) :
    Exclusive s n := by
  have hI : ((system waitTime).withLog 0 note).IsInvariant
      fun p : State Tid Loc Val × ℕ => Exclusive p.1 p.2 := by
    constructor
    · rintro ⟨s, n⟩ ⟨⟨data, rfl⟩, rfl⟩
      exact .init data
    · rintro ⟨s, n⟩ ⟨θ, a⟩ ⟨s', n'⟩ - ih ⟨hstep, rfl⟩
      exact ih.step (step_cases hstep)
  exact hI.reachable h

/-- **Mutual exclusion, and no lost update.** In every reachable state at most one thread is between
its successful `exchange` in `lock()` and its store in `unlock()`, the flag is set if and only if
there is such a thread, and `counter` equals the number of increments that have been completed. -/
theorem mutual_exclusion_no_lost_update
    (h : ((system waitTime).withLog 0 note).Reachable (s, n)) :
    (∀ θ θ', (s.pc θ).holds = true → (s.pc θ').holds = true → θ = θ') ∧
    (s.atomic = true ↔ ∃ θ, (s.pc θ).holds = true) ∧ s.counter = n := by
  have hex := Exclusive.reachable h
  exact ⟨hex.one, hex.atomic, hex.counter⟩

end Exclusion

/-- Thread `0` increments `counter`; thread `1` fails to get the lock meanwhile, gets
it through a guard afterwards, reads `counter`, and leaves its critical section early;
then thread `0` is in again. -/
def contention : List (ℕ × Micro ℕ ℕ) :=
  [(0, .lock .raw), (1, .lock .guard), (0, .exchange), (1, .exchange),
   (0, .readCounter), (1, .pause), (0, .write 3 7), (0, .writeCounter), (1, .pause), (0, .leave),
   (1, .exchange), (0, .store), (1, .pause), (1, .pause), (1, .exchange), (1, .readCounter),
   (1, .leave), (0, .lock .raw), (1, .store), (0, .exchange), (0, .readCounter)]

/-- Thread `0` holds the lock and has read `counter`, which has been incremented once. -/
def readAgain (q : State ℕ ℕ ℕ × ℕ) : Bool :=
  q.1.atomic && decide (q.1.pc 0 = .inside .raw (some 1)) &&
  decide (q.1.pc 1 = .outside) && q.2 == 1

theorem contention_readAgain : (contention.foldlM
    (fun q a => (step 1 q.1 a).map fun s => (s, note q.1 a q.2))
    (fresh fun _ => 0, 0)).map readAgain = some true := by
  decide +kernel

theorem mutual_exclusion_no_lost_update_contention : ∃ (s : State ℕ ℕ ℕ) (n : ℕ),
    readAgain (s, n) = true ∧
    (∀ θ θ', (s.pc θ).holds = true → (s.pc θ').holds = true → θ = θ') ∧
    (s.atomic = true ↔ ∃ θ, (s.pc θ).holds = true) ∧ s.counter = n := by
  have hinit : (system 1).init (fresh fun _ => 0 : State ℕ ℕ ℕ) := ⟨_, rfl⟩
  obtain ⟨s, n, hr, hp⟩ := System.exists_logged_of_schedule hinit contention_readAgain
    fun _ _ _ _ hst => hst
  exact ⟨s, n, hp, mutual_exclusion_no_lost_update hr⟩

end AstraLib.Spinlock
