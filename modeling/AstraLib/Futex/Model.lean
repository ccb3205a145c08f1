import AstraLib.Interleaving.System
import AstraLib.Words

/-!
# `AtomicFutex`: the program

`include/AstraLib/Atomic/atomicFutex.hpp`: `wait` takes a snapshot of `futex_val` and sleeps in the
kernel until the value has changed; `wake` increments the value and wakes one sleeper.

The kernel is described as the code may rely on it.  `FUTEX_WAIT` puts the thread to sleep only if
the value is still the expected one, and test and sleep are one step.  It may return at any time,
with or without having slept, and the result says nothing; what it must do is not to sleep on a
value that has changed.  `FUTEX_WAKE` releases one of the sleepers, whichever it likes, and it may
leave them all asleep only if there are none.
-/

namespace AstraLib.Futex

open Interleaving

/-- How `FUTEX_WAIT` returns. -/
inductive Result
  | zero
  | EAGAIN
  | EINTR
  /-- any other error -/
  | error
  deriving DecidableEq

/-- Where a thread is. -/
inductive Pc
  | idle
  /-- `wait`, before the load of `expected` -/
  | load
  /-- before `FUTEX_WAIT` -/
  | futexWait (expected : ℤ)
  | asleep (expected : ℤ)
  /-- after `FUTEX_WAIT`, before the load of `current` -/
  | reload (expected : ℤ)
  | waitReturn
  /-- `wake`, before `fetch_add` -/
  | fetchAdd
  /-- before `FUTEX_WAKE` -/
  | futexWake
  | wakeReturn
  deriving DecidableEq

/-- The object, the sleepers that the kernel has queued for it, and the threads. -/
structure State (Tid : Type) where
  futexVal : ℤ
  queue : Finset Tid
  pc : Tid → Pc

/-- The atomic steps. -/
inductive Micro (Tid : Type)
  /-- call of `wait` -/
  | wait
  /-- call of `wake` -/
  | wake
  /-- a load of `futex_val` -/
  | load
  /-- `FUTEX_WAIT` finds the expected value and puts the thread to sleep -/
  | sleep
  /-- `FUTEX_WAIT` returns without having been asked to by a `FUTEX_WAKE` -/
  | result (r : Result)
  | fetchAdd
  /-- `FUTEX_WAKE`, with the sleeper that it releases -/
  | futexWake (θ : Option Tid)
  | ret

section Program

variable {Tid : Type}

/-- A newly constructed object. -/
def fresh : State Tid := ⟨0, ∅, fun _ => .idle⟩

/-- `if (res == -1 && errno != EAGAIN && errno != EINTR) return;` -/
def Pc.past (expected : ℤ) : Result → Pc
  | .error => .waitReturn
  | .zero | .EAGAIN | .EINTR => .reload expected

/-- A sleeper that is released: `FUTEX_WAIT` returns `0`. -/
def Pc.woken : Pc → Pc
  | .asleep expected => .past expected .zero
  | p => p

variable [DecidableEq Tid]

/-- Thread `θ` goes to `p`. -/
def State.goto (s : State Tid) (θ : Tid) (p : Pc) : State Tid :=
  { s with pc := Function.update s.pc θ p }

/-- One atomic step of a thread. -/
def step (s : State Tid) : Tid × Micro Tid → Option (State Tid)
  | (θ, a) =>
    match s.pc θ, a with
    -- wait
    | .idle, .wait => some (s.goto θ .load)
    | .load, .load => some (s.goto θ (.futexWait s.futexVal))
    | .futexWait e, .sleep =>
        if s.futexVal = e then some { s.goto θ (.asleep e) with queue := insert θ s.queue }
        else none
    | .futexWait e, .result r => some (s.goto θ (.past e r))
    | .asleep e, .result r => some { s.goto θ (.past e r) with queue := s.queue.erase θ }
    | .reload e, .load => some (s.goto θ (if s.futexVal ≠ e then .waitReturn else .futexWait e))
    | .waitReturn, .ret => some (s.goto θ .idle)
    -- wake
    | .idle, .wake => some (s.goto θ .fetchAdd)
    | .fetchAdd, .fetchAdd => some { s.goto θ .futexWake with futexVal := toInt (s.futexVal + 1) }
    | .futexWake, .futexWake none => if s.queue = ∅ then some (s.goto θ .wakeReturn) else none
    | .futexWake, .futexWake (some θ') =>
        if θ' ∈ s.queue then
          some { (s.goto θ' (s.pc θ').woken).goto θ .wakeReturn with queue := s.queue.erase θ' }
        else none
    | .wakeReturn, .ret => some (s.goto θ .idle)
    | _, _ => none

/-- The kernel reports none of the errors that `wait` gives up on. -/
def NoError {Tid : Type} (_ : State Tid) (a : Tid × Micro Tid) : Prop := a.2 ≠ .result .error

/-- The futex under any number of threads. -/
def system : System (State Tid) (Tid × Micro Tid) :=
  (System.ofFun (· = fresh) step).restrict NoError

/-! ### The steps of the program -/

/-- The atomic steps, one constructor for each way a step can go. -/
inductive Step (s : State Tid) (θ : Tid) : Micro Tid → State Tid → Prop
  | wait (h : s.pc θ = .idle) : Step s θ .wait (s.goto θ .load)
  | load (h : s.pc θ = .load) : Step s θ .load (s.goto θ (.futexWait s.futexVal))
  | sleep (h : s.pc θ = .futexWait s.futexVal) :
      Step s θ .sleep { s.goto θ (.asleep s.futexVal) with queue := insert θ s.queue }
  | refuse (e : ℤ) (r : Result) (h : s.pc θ = .futexWait e) (hr : r ≠ .error) :
      Step s θ (.result r) (s.goto θ (.reload e))
  | spurious (e : ℤ) (r : Result) (h : s.pc θ = .asleep e) (hr : r ≠ .error) :
      Step s θ (.result r) { s.goto θ (.reload e) with queue := s.queue.erase θ }
  | leave (e : ℤ) (h : s.pc θ = .reload e) (hne : s.futexVal ≠ e) :
    Step s θ .load (s.goto θ .waitReturn)
  | again (e : ℤ) (h : s.pc θ = .reload e) (heq : s.futexVal = e) :
    Step s θ .load (s.goto θ (.futexWait e))
  | waitRet (h : s.pc θ = .waitReturn) : Step s θ .ret (s.goto θ .idle)
  | wake (h : s.pc θ = .idle) : Step s θ .wake (s.goto θ .fetchAdd)
  | fetchAdd (h : s.pc θ = .fetchAdd) :
      Step s θ .fetchAdd { s.goto θ .futexWake with futexVal := toInt (s.futexVal + 1) }
  | wakeNone (h : s.pc θ = .futexWake) (hq : s.queue = ∅) :
    Step s θ (.futexWake none) (s.goto θ .wakeReturn)
  | wakeOne (h : s.pc θ = .futexWake) (θ' : Tid) (hq : θ' ∈ s.queue) :
      Step s θ (.futexWake (some θ'))
        { (s.goto θ' (s.pc θ').woken).goto θ .wakeReturn with queue := s.queue.erase θ' }
  | wakeRet (h : s.pc θ = .wakeReturn) : Step s θ .ret (s.goto θ .idle)

theorem Pc.past_of_ne {e : ℤ} {r : Result} (h : r ≠ .error) : Pc.past e r = .reload e := by
  cases r with
  | error => exact absurd rfl h
  | _ => rfl

/-- `Step` lists the steps of the system, all of them and no others. -/
theorem step_iff {s s' : State Tid} {θ : Tid} {a : Micro Tid} :
    system.step s (θ, a) s' ↔ Step s θ a s' := by
  have hnext : system.step s (θ, a) s' ↔ a ≠ .result .error ∧ step s (θ, a) = some s' := Iff.rfl
  rw [hnext]
  constructor
  · rintro ⟨hno, hstep⟩
    revert hstep
    have hr : ∀ r, a = .result r → r ≠ .error := by
      rintro r rfl rfl
      exact hno rfl
    clear hno hnext
    unfold step
    dsimp only
    split
    case h_3 e hp =>
      split_ifs with he
      · subst he; rintro ⟨⟩; exact .sleep hp
      · rintro ⟨⟩
    case h_4 e r hp => rintro ⟨⟩; rw [Pc.past_of_ne (hr r rfl)]; exact .refuse e r hp (hr r rfl)
    case h_5 e r hp => rintro ⟨⟩; rw [Pc.past_of_ne (hr r rfl)]; exact .spurious e r hp (hr r rfl)
    case h_6 e hp =>
      split_ifs with he
      · rintro ⟨⟩; exact .leave e hp he
      · rintro ⟨⟩; exact .again e hp (not_not.1 he)
    case h_10 hp =>
      split_ifs with hq
      · rintro ⟨⟩; exact .wakeNone hp hq
      · rintro ⟨⟩
    case h_11 θ' hp =>
      split_ifs with hq
      · rintro ⟨⟩; exact .wakeOne hp θ' hq
      · rintro ⟨⟩
    case h_12 hp => rintro ⟨⟩; exact .wakeRet hp
    all_goals rintro ⟨⟩
    all_goals constructor; assumption
  · intro h
    cases h with
    | refuse e r h hr => exact ⟨by simpa using hr, by simp [step, h, Pc.past_of_ne hr]⟩
    | spurious e r h hr => exact ⟨by simpa using hr, by simp [step, h, Pc.past_of_ne hr]⟩
    | _ => simp_all [step]

@[simp] theorem goto_pc_self (s : State Tid) (θ : Tid) (p : Pc) : (s.goto θ p).pc θ = p :=
  Function.update_self _ _ _

theorem goto_pc_of_ne {θ θ' : Tid} (h : θ' ≠ θ) (s : State Tid) (p : Pc) :
    (s.goto θ p).pc θ' = s.pc θ' :=
  Function.update_of_ne h _ _

@[simp] theorem goto_futexVal (s : State Tid) (θ : Tid) (p : Pc) :
    (s.goto θ p).futexVal = s.futexVal := rfl

@[simp] theorem goto_queue (s : State Tid) (θ : Tid) (p : Pc) : (s.goto θ p).queue = s.queue := rfl

/-- A step of thread `θ` does to another thread nothing but release it from the queue. -/
theorem Step.other {s s' : State Tid} {θ θ' : Tid} {a : Micro Tid} (h : Step s θ a s')
    (hne : θ' ≠ θ) :
    s'.pc θ' = s.pc θ' ∨ a = .futexWake (some θ') ∧ s'.pc θ' = (s.pc θ').woken := by
  cases h with
  | wakeOne h θ₁ hq =>
    by_cases heq : θ' = θ₁
    · subst heq
      exact Or.inr ⟨rfl, (goto_pc_of_ne hne _ _).trans (goto_pc_self _ _ _)⟩
    · exact Or.inl ((goto_pc_of_ne hne _ _).trans (goto_pc_of_ne heq _ _))
  | _ => exact Or.inl (goto_pc_of_ne hne _ _)

/-- What does not tell a sleeper from a thread that has been released is not changed
by other threads. -/
theorem Step.view_eq {β : Type} (f : Pc → β) (hf : ∀ e, f (.asleep e) = f (.reload e))
    {s s' : State Tid} {θ θ' : Tid} {a : Micro Tid} (h : Step s θ a s') (hne : θ' ≠ θ) :
    f (s'.pc θ') = f (s.pc θ') := by
  rcases h.other hne with heq | ⟨-, heq⟩
  · rw [heq]
  · rw [heq]
    cases s.pc θ' with
    | asleep e => exact (hf e).symm
    | _ => rfl

/-! ### What has happened -/

/-- The number of `fetch_add`s of `wake` calls, the number of `wait` calls that have returned, and
for each thread the number of `fetch_add`s that came before the first load of its `wait`. -/
structure Counts (Tid : Type) where
  adds : ℕ
  returned : ℕ
  loaded : Tid → ℕ

/-- Nothing has happened yet. -/
def Counts.zero {Tid : Type} : Counts Tid := ⟨0, 0, fun _ => 0⟩

/-- The counts after a step. -/
def count (s : State Tid) (a : Tid × Micro Tid) (c : Counts Tid) : Counts Tid :=
  match s.pc a.1, a.2 with
  | .load, .load => { c with loaded := Function.update c.loaded a.1 c.adds }
  | .fetchAdd, .fetchAdd => { c with adds := c.adds + 1 }
  | .waitReturn, .ret => { c with returned := c.returned + 1 }
  | _, _ => c

end Program

end AstraLib.Futex
