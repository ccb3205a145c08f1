import AstraLib.Interleaving.System

/-!
# Fair executions

An infinite run in which the system may also rest, so that a run that comes to its end is one
of them.  A class of steps is treated fairly if it does not stay enabled forever without one of
its steps being taken (`WeaklyFair`).

* `Execution.stays`: what every step keeps, holds from then on;
* `Execution.eventually`: the rule for progress.  Steps of the fair class lower a rank, and the
  other steps do not raise it, until the goal is reached;
* `Execution.project`: what an execution of the whole is for one of its components;
* `exists_min_rank`: a rank that is never raised does not change anymore from some point on;
* `Execution.exists_log`: history variables along an execution.
-/

namespace Interleaving

namespace System

variable {σ α τ β L : Type*}

/-- The states `x 0, x 1, …`. At time `k` the step `a k` is taken, or none. -/
structure Execution (S : System σ α) (x : ℕ → σ) (a : ℕ → Option α) : Prop where
  init : S.init (x 0)
  step : ∀ k b, a k = some b → S.step (x k) b (x (k + 1))
  rest : ∀ k, a k = none → x (k + 1) = x k

/-- One of the steps in `A` can be taken. -/
def Enabled (S : System σ α) (A : α → Prop) (s : σ) : Prop := ∃ b s', A b ∧ S.step s b s'

/-- If the steps in `A` are enabled from some point on, one of them is taken. -/
def WeaklyFair (S : System σ α) (A : α → Prop) (x : ℕ → σ) (a : ℕ → Option α) : Prop :=
  ∀ k, (∀ j ≥ k, S.Enabled A (x j)) → ∃ j ≥ k, ∃ b, a j = some b ∧ A b

variable {S : System σ α} {x : ℕ → σ} {a : ℕ → Option α}

namespace Execution

/-- What holds at the beginning and is kept by every step from then on. -/
theorem stays (hx : S.Execution x a) {I P : σ → Prop} {k : ℕ} (hI : ∀ j ≥ k, I (x j)) (hP : P (x k))
    (hstep : ∀ s b s', I s → I s' → P s → S.step s b s' → P s') : ∀ j ≥ k, P (x j) := by
  intro j hj
  induction j, hj using Nat.le_induction with
  | base => exact hP
  | succ j hj ih =>
    cases hb : a j with
    | none => rw [hx.rest j hb]; exact ih
    | some b => exact hstep _ b _ (hI j hj) (hI (j + 1) (by omega)) ih (hx.step j b hb)

theorem reachable (hx : S.Execution x a) (j : ℕ) : S.Reachable (x j) := by
  induction j with
  | zero => exact .init hx.init
  | succ j ih =>
    cases hb : a j with
    | none => rw [hx.rest j hb]; exact ih
    | some b => exact .step ih (hx.step j b hb)

/-- What does not hold at the beginning is brought about by a step. -/
theorem exists_step_of_not (hx : S.Execution x a) {P : σ → Prop} (hinit : ¬ P (x 0))
    (hP : ∃ k, P (x k)) : ∃ k b, a k = some b ∧ ¬ P (x k) ∧ P (x (k + 1)) := by
  by_contra hno
  obtain ⟨k, hk⟩ := hP
  have hnot : ∀ j, ¬ P (x j) := by
    intro j
    induction j with
    | zero => exact hinit
    | succ j ih =>
      cases hb : a j with
      | none => rw [hx.rest j hb]; exact ih
      | some b => exact fun hj => hno ⟨j, b, hb, ih, hj⟩
  exact hnot k hk

/-- What no step lowers. -/
theorem monotone (hx : S.Execution x a) {f : σ → ℕ}
    (hstep : ∀ s b s', S.Reachable s → S.step s b s' → f s ≤ f s') : Monotone fun k => f (x k) := by
  refine monotone_nat_of_le_succ fun k => ?_
  cases hb : a k with
  | none => rw [hx.rest k hb]
  | some b => exact hstep _ b _ (hx.reachable k) (hx.step k b hb)

/-- **Progress.** Until the goal `Q` is reached the steps in `A` lower the rank, no other step
raises it, and a step in `A` can be taken. `I` is what is known to hold anyway. -/
theorem eventually (hx : S.Execution x a) {A : α → Prop} (hfair : S.WeaklyFair A x a)
    {I P Q : σ → Prop} (r : σ → ℕ) {k : ℕ} (hI : ∀ j ≥ k, I (x j)) (hP : P (x k))
    (hstep : ∀ s b s', I s → I s' → P s → S.step s b s' → Q s' ∨ P s' ∧ r s' ≤ r s ∧
      (A b → r s' < r s))
    (hen : ∀ s, I s → P s → S.Enabled A s) : ∃ j ≥ k, Q (x j) := by
  induction hn : r (x k) using Nat.strong_induction_on generalizing k with
  | _ n ih =>
    by_contra hnever
    have hnot : ∀ j ≥ k, ¬ Q (x j) := fun j hj hQ => hnever ⟨j, hj, hQ⟩
    have hkeep : ∀ j ≥ k, P (x j) ∧ r (x j) ≤ n := by
      refine hx.stays (I := fun s => I s ∧ ¬ Q s) (P := fun s => P s ∧ r s ≤ n)
        (fun j hj => ⟨hI j hj, hnot j hj⟩) ⟨hP, hn.le⟩ ?_
      rintro s b s' ⟨hIs, -⟩ ⟨hIs', hQ⟩ ⟨hPs, hle⟩ hs
      obtain ⟨hP', hle', -⟩ := (hstep s b s' hIs hIs' hPs hs).resolve_left hQ
      exact ⟨hP', hle'.trans hle⟩
    obtain ⟨j, hj, b, hb, hA⟩ := hfair k fun j hj => hen _ (hI j hj) (hkeep j hj).1
    -- a step of the fair class brings the rank below `n`
    obtain ⟨hP', -, hlt⟩ := (hstep _ b _ (hI j hj) (hI (j + 1) (by omega)) (hkeep j hj).1
      (hx.step j b hb)).resolve_left (hnot (j + 1) (by omega))
    obtain ⟨i, hi, hQ⟩ := ih _ ((hlt hA).trans_le (hkeep j hj).2) (k := j + 1)
      (fun i hi => hI i (by omega)) hP' rfl
    exact hnot i (by omega) hQ

/-- A component takes the steps that `label` assigns to it, and rests otherwise. -/
theorem project (hx : S.Execution x a) {T : System τ β} (f : σ → τ) (label : σ → α → Option β)
    (hinit : ∀ s, S.init s → T.init (f s))
    (hstep : ∀ s b s' c, S.step s b s' → label s b = some c → T.step (f s) c (f s'))
    (hrest : ∀ s b s', S.step s b s' → label s b = none → f s' = f s) :
    T.Execution (fun k => f (x k)) fun k => (a k).bind (label (x k)) := by
  refine ⟨hinit _ hx.init, fun k c hc => ?_, fun k hc => ?_⟩
  · obtain ⟨b, hb, hlabel⟩ := Option.bind_eq_some_iff.1 hc
    exact hstep _ b _ c (hx.step k b hb) hlabel
  · cases hb : a k with
    | none => exact congrArg f (hx.rest k hb)
    | some b =>
      rw [hb] at hc
      exact hrest _ b _ (hx.step k b hb) hc

/-- The history variables along an execution. -/
theorem exists_log (hx : S.Execution x a) (l₀ : L) (note : σ → α → L → L) :
    ∃ l : ℕ → L, (S.withLog l₀ note).Execution (fun k => (x k, l k)) a := by
  let l : ℕ → L := fun n => n.rec l₀ fun k acc => (a k).elim acc fun b => note (x k) b acc
  refine ⟨l, ⟨hx.init, rfl⟩, fun k b hb => ⟨hx.step k b hb, ?_⟩,
    fun k hb => Prod.ext (hx.rest k hb) ?_⟩
  · show (a k).elim (l k) _ = _
    rw [hb]
    rfl
  · show (a k).elim (l k) _ = _
    rw [hb]
    rfl

end Execution

/-- A run that comes to a state where one step can be repeated, or where nothing more is done. -/
theorem Run.exists_execution {x : ℕ → σ} {a : ℕ → α} {n : ℕ} (h : S.Run x a n) {c : Option α}
    (hc : ∀ b, c = some b → S.step (x n) b (x n)) :
    ∃ y d, S.Execution y d ∧ (∀ j ≤ n, y j = x j) ∧ ∀ j ≥ n, y j = x n ∧ d j = c := by
  let y : ℕ → σ := fun j => x (min j n)
  let d : ℕ → Option α := fun j => if j < n then some (a j) else c
  have hbefore : ∀ j ≤ n, y j = x j := fun j hj => congrArg x (Nat.min_eq_left hj)
  have hafter : ∀ j ≥ n, y j = x n ∧ d j = c :=
    fun j hj => ⟨congrArg x (Nat.min_eq_right hj), if_neg (by omega)⟩
  refine ⟨y, d, ⟨h.init, ?_, ?_⟩, hbefore, hafter⟩
  · intro j b hb
    by_cases hj : j < n
    · have hlabel : d j = some (a j) := if_pos hj
      rw [hb] at hlabel
      cases hlabel
      rw [hbefore j hj.le, hbefore (j + 1) hj]
      exact h.step j hj
    · rw [(hafter j (by omega)).1, (hafter (j + 1) (by omega)).1]
      exact hc b ((hafter j (by omega)).2 ▸ hb)
  · intro j hb
    by_cases hj : j < n
    · have hlabel : d j = some (a j) := if_pos hj
      rw [hb] at hlabel
      cases hlabel
    · rw [(hafter j (by omega)).1, (hafter (j + 1) (by omega)).1]

/-- Such an execution is fair if the repeated step is of the class, or the class is
not enabled at the end. -/
theorem weaklyFair_of_loop {A : α → Prop} {n : ℕ} {s : σ} {c : Option α}
    (hx : ∀ j ≥ n, x j = s ∧ a j = c) (hA : S.Enabled A s → ∃ b, c = some b ∧ A b) :
    S.WeaklyFair A x a := by
  intro k hk
  obtain ⟨hxj, haj⟩ := hx (max k n) (le_max_right k n)
  obtain ⟨b, hb, hAb⟩ := hA (hxj ▸ hk _ (le_max_left k n))
  exact ⟨_, le_max_left k n, b, haj.trans hb, hAb⟩

/-- A rank that is never raised does not change anymore from some point on. -/
theorem exists_min_rank {f : ℕ → ℕ} {k : ℕ} (hf : ∀ j ≥ k, f (j + 1) ≤ f j) :
    ∃ m ≥ k, ∀ j ≥ m, f j = f m := by
  have hanti : ∀ i ≥ k, ∀ j ≥ i, f j ≤ f i := by
    intro i hi j hj
    induction j, hj using Nat.le_induction with
    | base => exact le_rfl
    | succ j hj ih => exact (hf j (by omega)).trans ih
  obtain ⟨m, hm, hmin⟩ : ∃ m ≥ k, ∀ j ≥ k, f m ≤ f j := by
    let g : Set.Ici k → ℕ := fun j => f j
    have : Nonempty (Set.Ici k) := ⟨⟨k, Set.self_mem_Ici⟩⟩
    exact ⟨_, (Function.argmin g).2, fun j hj => Function.argmin_le g (⟨j, hj⟩ : Set.Ici k)⟩
  exact ⟨m, hm, fun j hj => le_antisymm (hanti m hm j hj) (hmin j (by omega))⟩

end System

end Interleaving
