import AstraLib.Futex.Model
import AstraLib.Interleaving.Ensures

/-!
# `AtomicFutex`: one waiter

With one thread at a time in `wait`, and any number of them in `wake`.  A `wait` does not
return before a `fetch_add` that came after its snapshot (`Snapshots`).  A sleeper whose value
has changed is about to be woken: a `wake` has its `FUTEX_WAKE` still before it, and finds
nobody else in the queue (`Wakeful`).
-/

namespace AstraLib.Futex

open Interleaving

/-- What a thread in `wait` knows, if there were `loaded` `fetch_add`s before its snapshot and
there have been `adds` until now. -/
def Pc.Knows (loaded adds : ℕ) : Pc → Prop
  | .futexWait e | .asleep e | .reload e => e = toInt loaded ∧ loaded ≤ adds
  | .waitReturn => loaded < adds
  | _ => True

/-- The snapshot of a thread in the loop of `wait`. -/
def Pc.snapshot : Pc → Option ℤ
  | .futexWait e | .asleep e | .reload e => some e
  | _ => none

/-- The thread is in `wait`. -/
def Pc.waiting : Pc → Bool
  | .load | .futexWait _ | .asleep _ | .reload _ | .waitReturn => true
  | _ => false

/-- The thread sleeps. -/
def Pc.sleeping : Pc → Bool
  | .asleep _ => true
  | _ => false

theorem Pc.Knows.mono {p : Pc} {n m m' : ℕ} (h : p.Knows n m) (hle : m ≤ m') : p.Knows n m' := by
  cases p with
  | futexWait e => exact ⟨h.1, h.2.trans hle⟩
  | asleep e => exact ⟨h.1, h.2.trans hle⟩
  | reload e => exact ⟨h.1, h.2.trans hle⟩
  | waitReturn => exact Nat.lt_of_lt_of_le h hle
  | _ => exact trivial

/-- The snapshot is the value that was loaded. -/
theorem Pc.Knows.snapshot_eq {p : Pc} {n m : ℕ} (h : p.Knows n m) {e : ℤ}
    (he : p.snapshot = some e) : e = toInt n := by
  cases p with
  | futexWait e' | asleep e' | reload e' =>
    cases he
    exact h.1
  | _ => cases he

/-! ### Snapshots -/

theorem toInt_add_one (n : ℕ) : toInt (toInt n + 1) = toInt (n + 1 : ℕ) := by
  unfold toInt
  rw [Int.bmod_add_bmod]
  rfl

/-- Numbers that are less than `2 ^ 32` apart are told apart by their last 32 bits. -/
theorem toInt_ne {m n : ℕ} (hlt : m < n) (hle : n < m + 2 ^ 32) : toInt n ≠ toInt m := by
  intro heq
  have hmod := congrArg (· % (2 ^ 32 : ℤ)) heq
  simp only [toInt] at hmod
  rw [show ((2 : ℤ) ^ 32) = ((2 ^ 32 : ℕ) : ℤ) from rfl, Int.bmod_emod, Int.bmod_emod] at hmod
  omega

section HandOver

variable {Tid : Type}

/-- The value is the number of `fetch_add`s, and every thread in `wait` knows what it should. -/
structure Snapshots (s : State Tid) (c : Counts Tid) : Prop where
  futexVal_eq : s.futexVal = toInt c.adds
  knows : ∀ θ, (s.pc θ).Knows (c.loaded θ) c.adds

/-- At most one thread is in `wait`, the queue holds it if it sleeps, and it does not sleep on a
value that has changed unless a `FUTEX_WAKE` is to come. -/
structure Wakeful (s : State Tid) : Prop where
  one : ∀ θ θ', (s.pc θ).waiting = true → (s.pc θ').waiting = true → θ = θ'
  mem_queue : ∀ θ, θ ∈ s.queue ↔ (s.pc θ).sleeping = true
  pending : ∀ θ e, s.pc θ = .asleep e → s.futexVal ≠ e → ∃ θ', s.pc θ' = .futexWake

/-- `wait` is called only if no thread is in `wait`. -/
def OneWaiter (s : State Tid) (a : Tid × Micro Tid) : Prop :=
  a.2 = .wait → ∀ θ, (s.pc θ).waiting = false

theorem Wakeful.init : Wakeful (fresh : State Tid) := by
  refine ⟨fun θ θ' h => ?_, fun θ => ?_, fun θ e h => ?_⟩
  · cases h
  · simp [fresh, Pc.sleeping]
  · cases h

theorem Snapshots.init : Snapshots (fresh : State Tid) Counts.zero :=
  ⟨by simp [fresh, Counts.zero, toInt], fun _ => trivial⟩

variable {s s' : State Tid} {c : Counts Tid} {θ : Tid} {a : Micro Tid} [DecidableEq Tid]

theorem le_count_adds : c.adds ≤ (count s (θ, a) c).adds := by
  unfold count
  split <;> simp

theorem count_loaded_of_ne {θ' : Tid} (hne : θ' ≠ θ) :
    (count s (θ, a) c).loaded θ' = c.loaded θ' := by
  unfold count
  split
  · exact Function.update_of_ne hne _ _
  all_goals rfl

/-- **Every step keeps what the snapshots say.** -/
theorem Snapshots.step (h : Snapshots s c) (hx : Step s θ a s') :
    Snapshots s' (count s (θ, a) c) := by
  have hval := h.futexVal_eq
  have hθ := h.knows θ
  -- the other threads
  have hother : ∀ θ' ≠ θ, (s'.pc θ').Knows ((count s (θ, a) c).loaded θ')
      (count s (θ, a) c).adds := by
    intro θ' hne
    have hview := hx.view_eq (Pc.Knows (c.loaded θ') c.adds) (fun _ => rfl) hne
    rw [count_loaded_of_ne hne]
    exact (hview.mpr (h.knows θ')).mono le_count_adds
  suffices hself : s'.futexVal = toInt (count s (θ, a) c).adds ∧
      (s'.pc θ).Knows ((count s (θ, a) c).loaded θ) (count s (θ, a) c).adds by
    refine ⟨hself.1, fun θ' => ?_⟩
    by_cases heq : θ' = θ
    · rw [heq]
      exact hself.2
    · exact hother θ' heq
  clear hother
  cases hx with
  | load hp => simp [count, hp, Pc.Knows, hval]
  | sleep hp => simpa [count, hp, Pc.Knows, hval] using hθ
  | refuse e r hp hr => simpa [count, hp, Pc.Knows, hval] using hθ
  | spurious e r hp hr => simpa [count, hp, Pc.Knows, hval] using hθ
  | leave e hp hne =>
    rw [hp] at hθ
    obtain ⟨he, hle⟩ : e = toInt (c.loaded θ) ∧ c.loaded θ ≤ c.adds := hθ
    have hlt : c.loaded θ ≠ c.adds := by
      intro heq
      exact hne (by rw [hval, he, heq])
    simp only [count, hp, goto_futexVal, goto_pc_self]
    exact ⟨hval, lt_of_le_of_ne hle hlt⟩
  | again e hp heq => simpa [count, hp, Pc.Knows, hval] using hθ
  | fetchAdd hp => simp [count, hp, Pc.Knows, hval, toInt_add_one]
  | _ => simp_all [count, Pc.Knows]

/-! ### Sleepers -/

theorem Pc.waiting_of_sleeping {p : Pc} (h : p.sleeping = true) : p.waiting = true := by
  cases p with
  | asleep e => rfl
  | _ => cases h

/-- Nobody starts to wait but by a call of `wait`. -/
theorem Step.waiting_of (hx : Step s θ a s') {θ' : Tid} (h : (s'.pc θ').waiting = true) :
    (s.pc θ').waiting = true ∨ a = .wait ∧ θ' = θ := by
  by_cases heq : θ' = θ
  · subst heq
    cases hx with
    | wait hp => exact Or.inr ⟨rfl, rfl⟩
    | _ => simp_all [Pc.waiting]
  · rw [hx.view_eq Pc.waiting (fun _ => rfl) heq] at h
    exact Or.inl h

/-- Nobody goes to sleep but by a `FUTEX_WAIT` that finds the expected value. -/
theorem Step.asleep_of (hx : Step s θ a s') {θ' : Tid} {e : ℤ} (h : s'.pc θ' = .asleep e) :
    s.pc θ' = .asleep e ∨ s'.futexVal = e := by
  by_cases heq : θ' = θ
  · subst heq
    cases hx <;> simp_all
  · rcases hx.other heq with hpc | ⟨-, hpc⟩
    · exact Or.inl (hpc ▸ h)
    · rw [hpc] at h
      cases hp : s.pc θ' <;> simp_all [Pc.woken, Pc.past]

/-- The queue is kept by those that go to sleep and those that release them. -/
theorem Step.mem_queue (hx : Step s θ a s') (h : ∀ θ', θ' ∈ s.queue ↔ (s.pc θ').sleeping = true)
    (θ' : Tid) : θ' ∈ s'.queue ↔ (s'.pc θ').sleeping = true := by
  have hθ := h θ
  have hθ' := h θ'
  by_cases heq : θ' = θ
  · subst heq
    -- a thread that sleeps neither before the step nor after it
    have hawake : s'.queue = s.queue → (s.pc θ').sleeping = false → (s'.pc θ').sleeping = false →
        (θ' ∈ s'.queue ↔ (s'.pc θ').sleeping = true) := by
      intro hq hold hnew
      rw [hq, hθ, hold, hnew]
    cases hx with
    | sleep hp => simp [Pc.sleeping]
    | spurious e r hp hr => simp [Pc.sleeping]
    | wakeOne hp θ₁ hq =>
      have hnot : θ' ∉ s.queue := by simp [hθ, hp, Pc.sleeping]
      simp [hnot, Pc.sleeping]
    | refuse e r hp hr => exact hawake rfl (by rw [hp]; rfl) (by rw [goto_pc_self]; rfl)
    | leave e hp hne | again e hp hne =>
      exact hawake rfl (by rw [hp]; rfl) (by rw [goto_pc_self]; rfl)
    | wakeNone hp hq => exact hawake rfl (by rw [hp]; rfl) (by rw [goto_pc_self]; rfl)
    | fetchAdd hp => exact hawake rfl (by rw [hp]; rfl) (by simp [Pc.sleeping])
    | wait hp | load hp | waitRet hp | wake hp | wakeRet hp =>
      exact hawake rfl (by rw [hp]; rfl) (by rw [goto_pc_self]; rfl)
  · cases hx with
    | sleep hp => simpa [goto_pc_of_ne heq, heq] using hθ'
    | spurious e r hp hr => simpa [goto_pc_of_ne heq, heq] using hθ'
    | wakeOne hp θ₁ hq =>
      by_cases heq' : θ' = θ₁
      · subst heq'
        have hs := hθ'.1 hq
        cases hp' : s.pc θ' <;> simp_all [Pc.sleeping, Pc.woken, Pc.past, State.goto]
      · simpa [goto_pc_of_ne heq, goto_pc_of_ne heq', heq'] using hθ'
    | _ => simpa [goto_pc_of_ne heq] using hθ'

/-- With one waiter, `FUTEX_WAKE` releases it if it sleeps. -/
theorem Wakeful.release (h : Wakeful s) (hp : s.pc θ = .futexWake) (hx : Step s θ a s') {θ' : Tid}
    {e : ℤ} (hsleep : s.pc θ' = .asleep e) : s'.pc θ' = .reload e := by
  have hmem : θ' ∈ s.queue := (h.mem_queue θ').2 (by rw [hsleep]; rfl)
  have hne : θ' ≠ θ := by
    rintro rfl
    cases hsleep.symm.trans hp
  cases hx with
  | wakeNone hp hq =>
    rw [hq] at hmem
    cases hmem
  | wakeOne hp θ₁ hq =>
    -- the thread that is released is the only one in the queue
    obtain rfl : θ₁ = θ' := by
      refine h.one θ₁ θ' (Pc.waiting_of_sleeping ((h.mem_queue θ₁).1 hq)) ?_
      rw [hsleep]
      rfl
    show ((s.goto θ₁ (s.pc θ₁).woken).goto θ .wakeReturn).pc θ₁ = _
    rw [goto_pc_of_ne hne, goto_pc_self, hsleep]
    rfl
  | _ => simp_all

/-- **Every step keeps the waiter wakeful.** -/
theorem Wakeful.step (h : Wakeful s) (hx : Step s θ a s')
    (hone : OneWaiter s (θ, a)) : Wakeful s' := by
  refine ⟨fun θ₁ θ₂ h₁ h₂ => ?_, hx.mem_queue h.mem_queue, fun θ₁ e hp hne => ?_⟩
  · rcases hx.waiting_of h₁ with h₁ | ⟨ha, rfl⟩
    · rcases hx.waiting_of h₂ with h₂ | ⟨ha, rfl⟩
      · exact h.one θ₁ θ₂ h₁ h₂
      · cases h₁.symm.trans (hone ha θ₁)
    · rcases hx.waiting_of h₂ with h₂ | ⟨-, rfl⟩
      · cases h₂.symm.trans (hone ha θ₂)
      · rfl
  · have hold : s.pc θ₁ = .asleep e := (hx.asleep_of hp).resolve_right hne
    by_cases hval : s.futexVal = e
    · -- the value changes now
      cases hx with
      | fetchAdd hp' => exact ⟨θ, goto_pc_self _ _ _⟩
      | _ => exact absurd hval hne
    · obtain ⟨θ₂, hθ₂⟩ := h.pending θ₁ e hold hval
      by_cases heq : θ₂ = θ
      · subst heq
        cases hp.symm.trans (h.release hθ₂ hx hold)
      · refine ⟨θ₂, ?_⟩
        have hview := hx.view_eq (· = Pc.futexWake) (fun _ => by simp) heq
        exact hview.mpr hθ₂

/-! ### Waking up -/

/-- Thread `θ` takes its next step; if it sleeps, a `FUTEX_WAKE` is carried out. -/
def Serves (θ : Tid) (s s' : State Tid) : Prop :=
  ∃ θ' a, system.step s (θ', a) s' ∧
  if (s.pc θ).sleeping = true then s.pc θ' = .futexWake else θ' = θ

/-- After `FUTEX_WAIT`, a `wait` that finds another value returns. -/
theorem ensures_reload {e : ℤ} (hp : s.pc θ = .reload e) (hne : s.futexVal ≠ e) :
    Ensures (Serves θ) (fun t => t.pc θ = .waitReturn) s := by
  have hawake : ¬ (s.pc θ).sleeping = true := by simp [hp, Pc.sleeping]
  refine .next (t := s.goto θ .waitReturn) ⟨θ, .load, step_iff.2 (.leave e hp hne),
    by rw [if_neg hawake]⟩ ?_
  rintro u ⟨θ', a, hx, hθ⟩
  rw [if_neg hawake] at hθ
  subst hθ
  refine .done ?_
  cases step_iff.1 hx <;> simp_all

/-- Before `FUTEX_WAIT`, a `wait` whose value has changed does not go to sleep any more. -/
theorem ensures_futexWait {e : ℤ} (hp : s.pc θ = .futexWait e) (hne : s.futexVal ≠ e) :
    Ensures (Serves θ) (fun t => t.pc θ = .waitReturn) s := by
  have hawake : ¬ (s.pc θ).sleeping = true := by simp [hp, Pc.sleeping]
  refine .next (t := s.goto θ (.reload e))
    ⟨θ, .result .EAGAIN, step_iff.2 (.refuse e _ hp (by decide)),
    by rw [if_neg hawake]⟩ ?_
  rintro u ⟨θ', a, hx, hθ⟩
  rw [if_neg hawake] at hθ
  subst hθ
  cases step_iff.1 hx with
  | refuse e' r hp' hr =>
    obtain rfl : e = e' := by simpa using hp.symm.trans hp'
    exact ensures_reload (goto_pc_self _ _ _) hne
  | _ => simp_all

/-- A sleeper whose value has changed is woken. -/
theorem Wakeful.ensures_asleep (h : Wakeful s) {e : ℤ} (hp : s.pc θ = .asleep e)
    (hne : s.futexVal ≠ e) : Ensures (Serves θ) (fun t => t.pc θ = .waitReturn) s := by
  have hsleep : (s.pc θ).sleeping = true := by rw [hp]; rfl
  obtain ⟨θ₁, hθ₁⟩ := h.pending θ e hp hne
  refine .next ⟨θ₁, .futexWake (some θ), step_iff.2 (.wakeOne hθ₁ θ ((h.mem_queue θ).2 hsleep)),
    by rw [if_pos hsleep]; exact hθ₁⟩ ?_
  rintro u ⟨θ', a, hx, hθ'⟩
  rw [if_pos hsleep] at hθ'
  have hx := step_iff.1 hx
  refine ensures_reload (h.release hθ' hx hp) ?_
  cases hx <;> simp_all

theorem invariants_reachable {q : State Tid × Counts Tid}
    (h : ((system.restrict OneWaiter).withLog Counts.zero count).Reachable q) :
    Snapshots q.1 q.2 ∧ Wakeful q.1 := by
  have hI : ((system.restrict OneWaiter).withLog Counts.zero count).IsInvariant
      fun q : State Tid × Counts Tid => Snapshots q.1 q.2 ∧ Wakeful q.1 := by
    constructor
    · rintro ⟨s, c⟩ ⟨rfl, rfl⟩
      exact ⟨.init, .init⟩
    · rintro ⟨s, c⟩ ⟨θ, a⟩ ⟨s', c'⟩ - ⟨hsnap, hwake⟩ ⟨⟨hone, hstep⟩, rfl⟩
      have hx := step_iff.1 hstep
      exact ⟨hsnap.step hx, hwake.step hx hone⟩
  exact hI.reachable h

/-- **One waiter is handed over to correctly.** With one thread at a time in `wait`, in every
reachable state: a `wait` that returns has been preceded by a `fetch_add` after its first
load; a waiter that sleeps although the value is not its snapshot any more has a `FUTEX_WAKE`
coming; and if there has been a `fetch_add` after the first load, and fewer than `2 ^ 32` of
them, then the waiter goes on to return. -/
theorem hand_over {q : State Tid × Counts Tid}
    (h : ((system.restrict OneWaiter).withLog Counts.zero count).Reachable q) (θ : Tid) :
    (q.1.pc θ = .waitReturn → q.2.loaded θ < q.2.adds) ∧
    (∀ e, q.1.pc θ = .asleep e → q.1.futexVal ≠ e → ∃ θ', q.1.pc θ' = .futexWake) ∧
    (∀ e, (q.1.pc θ).snapshot = some e → q.2.loaded θ < q.2.adds →
      q.2.adds < q.2.loaded θ + 2 ^ 32 →
      q.1.futexVal ≠ e ∧ Ensures (Serves θ) (fun t => t.pc θ = .waitReturn) q.1) := by
  obtain ⟨hsnap, hwake⟩ := invariants_reachable h
  have hknows := hsnap.knows θ
  refine ⟨fun hp => ?_, hwake.pending θ, fun e he hlt hle => ?_⟩
  · rw [hp] at hknows
    exact hknows
  · have hother : q.1.futexVal ≠ e := by
      rw [hsnap.futexVal_eq, hknows.snapshot_eq he]
      exact toInt_ne hlt hle
    refine ⟨hother, ?_⟩
    cases hp : q.1.pc θ with
    | futexWait e' =>
      rw [hp] at he
      cases he
      exact ensures_futexWait hp hother
    | asleep e' =>
      rw [hp] at he
      cases he
      exact hwake.ensures_asleep hp hother
    | reload e' =>
      rw [hp] at he
      cases he
      exact ensures_reload hp hother
    | _ =>
      rw [hp] at he
      cases he

end HandOver

/-- A thread falls asleep, and another one changes the value. -/
def overtaken : List (Bool × Micro Bool) :=
  [(false, .wait), (false, .load), (false, .sleep), (true, .wake), (true, .fetchAdd)]

/-- Thread `false` sleeps on the old value. -/
def oversleeps (q : State Bool × Counts Bool) : Bool :=
  q.1.pc false == .asleep 0 && q.1.futexVal == 1 && q.2.loaded false == 0 && q.2.adds == 1

/-- The steps that may be taken with one waiter. -/
def oneWaiterStep (s : State Bool) (a : Bool × Micro Bool) : Option (State Bool) :=
  if (a.2 matches .wait) && ((s.pc false).waiting || (s.pc true).waiting) then none else step s a

theorem oneWaiterStep_sound {s s' : State Bool} {a : Bool × Micro Bool} (hno : NoError s a)
    (h : oneWaiterStep s a = some s') : (system.restrict OneWaiter).step s a s' := by
  unfold oneWaiterStep at h
  split_ifs at h with hcall
  refine ⟨fun hwait θ => ?_, hno, h⟩
  simp only [hwait, Bool.true_and, Bool.not_eq_true, Bool.or_eq_false_iff] at hcall
  cases θ with
  | false => exact hcall.1
  | true => exact hcall.2

theorem overtaken_oversleeps : (overtaken.foldlM
    (fun q a => (oneWaiterStep q.1 a).map fun s => (s, count q.1 a q.2))
    (fresh, Counts.zero)).map oversleeps = some true := by
  decide +kernel

theorem hand_over_overtaken : ∃ q : State Bool × Counts Bool,
    oversleeps q = true ∧ (∃ θ', q.1.pc θ' = .futexWake) ∧
    Ensures (Serves false) (fun t => t.pc false = .waitReturn) q.1 := by
  have hno : ∀ s : State Bool, ∀ a ∈ overtaken, NoError s a := by
    intro s a ha
    fin_cases ha <;> simp [NoError]
  have hinit : (system.restrict OneWaiter).init (fresh : State Bool) := rfl
  obtain ⟨s, c, hr, hp⟩ := System.exists_logged_of_schedule hinit overtaken_oversleeps
    fun s a ha _ hst => oneWaiterStep_sound (hno s a ha) hst
  obtain ⟨-, hpending, hreturns⟩ := hand_over hr false
  refine ⟨(s, c), hp, ?_⟩
  simp only [oversleeps, Bool.and_eq_true, beq_iff_eq] at hp
  obtain ⟨⟨⟨hpc, hval⟩, hloaded⟩, hadds⟩ := hp
  simp only [hpc, hval, hloaded, hadds] at hpending hreturns
  exact ⟨hpending 0 rfl (by decide), (hreturns 0 rfl (by decide) (by decide)).2⟩

end AstraLib.Futex
