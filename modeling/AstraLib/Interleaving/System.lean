import Mathlib.Tactic

/-!
# Interleaved systems

A concurrent program as a labelled transition system: the states, the initial states and the
atomic steps, each labelled with the thread that takes it and the choice it makes.  Everything
said about "every interleaving" is said about `System.Reachable` or about `System.Run`.

* `System.restrict`: only the steps that a client discipline allows;
* `System.constrain`: only the states that meet a standing assumption;
* `System.withLog`: history variables.  A log is written by every step and read by none, so
  it neither adds nor removes runs (`exists_log`, `Reachable.of_log`);
* `IsInvariant`: the induction rule;
* `Projects`: a refinement map, by which a composite system inherits what is known of a component;
* `Run.lift`: lock-step forward simulation, label by label;
* `Bisimilar`: two states that cannot be told apart by what is done with them.
-/

namespace Interleaving

/-- A labelled transition system. -/
structure System (σ α : Type*) where
  init : σ → Prop
  step : σ → α → σ → Prop

namespace System

variable {σ α τ β L : Type*}

/-- The system of a partial step function. -/
def ofFun (init : σ → Prop) (step : σ → α → Option σ) : System σ α where
  init := init
  step s a s' := step s a = some s'

/-- Keep the steps that the discipline `allow` admits. -/
def restrict (S : System σ α) (allow : σ → α → Prop) : System σ α where
  init := S.init
  step s a s' := allow s a ∧ S.step s a s'

/-- Keep the states that satisfy the standing assumption `P`. -/
def constrain (S : System σ α) (P : σ → Prop) : System σ α where
  init s := S.init s ∧ P s
  step s a s' := S.step s a s' ∧ P s'

/-- Add history variables: `note s a l` is the log after the step `a` from `s`. -/
def withLog (S : System σ α) (l₀ : L) (note : σ → α → L → L) : System (σ × L) α where
  init p := S.init p.1 ∧ p.2 = l₀
  step p a q := S.step p.1 a q.1 ∧ q.2 = note p.1 a p.2

/-- The states that some run reaches. -/
inductive Reachable (S : System σ α) : σ → Prop
  | init {s : σ} (h : S.init s) : Reachable S s
  | step {s s' : σ} {a : α} (hs : Reachable S s) (h : S.step s a s') : Reachable S s'

/-- What each step of a loop keeps, the loop keeps. -/
theorem foldlM_preserves {P : σ → Prop} {f : σ → β → Option σ}
    (hf : ∀ s b s', P s → f s b = some s' → P s') {l : List β} {s s' : σ} (hs : P s)
    (h : l.foldlM f s = some s') : P s' := by
  induction l generalizing s with
  | nil => cases h; exact hs
  | cons b l ih =>
    rw [List.foldlM_cons] at h
    obtain ⟨t, ht, hrest⟩ := Option.bind_eq_some_iff.1 h
    exact ih (hf s b t hs ht) hrest

/-! ### Invariants -/

/-- `I` holds initially and every step from a reachable state keeps it. -/
structure IsInvariant (S : System σ α) (I : σ → Prop) : Prop where
  init : ∀ s, S.init s → I s
  step : ∀ s a s', S.Reachable s → I s → S.step s a s' → I s'

theorem IsInvariant.reachable {S : System σ α} {I : σ → Prop} (hI : S.IsInvariant I) {s : σ}
    (hs : S.Reachable s) : I s := by
  induction hs with
  | init h => exact hI.init _ h
  | step hs h ih => exact hI.step _ _ _ hs ih h

theorem Reachable.of_restrict {S : System σ α} {allow : σ → α → Prop} {s : σ}
    (hs : (S.restrict allow).Reachable s) : S.Reachable s := by
  induction hs with
  | init h => exact .init h
  | step _ h ih => exact .step ih h.2

/-- A weaker discipline keeps more runs. -/
theorem Reachable.restrict_mono {S : System σ α} {allow allow' : σ → α → Prop}
    (hle : ∀ s a, allow s a → allow' s a) {s : σ} (hs : (S.restrict allow).Reachable s) :
    (S.restrict allow').Reachable s := by
  induction hs with
  | init h => exact .init h
  | step _ h ih => exact .step ih ⟨hle _ _ h.1, h.2⟩

theorem Reachable.of_constrain {S : System σ α} {P : σ → Prop} {s : σ}
    (hs : (S.constrain P).Reachable s) : S.Reachable s ∧ P s := by
  induction hs with
  | init h => exact ⟨.init h.1, h.2⟩
  | step _ h ih => exact ⟨.step ih.1 h.1, h.2⟩

/-! ### History variables -/

theorem Reachable.of_log {S : System σ α} {l₀ : L} {note : σ → α → L → L} {p : σ × L}
    (hp : (S.withLog l₀ note).Reachable p) : S.Reachable p.1 := by
  induction hp with
  | init h => exact .init h.1
  | step _ h ih => exact .step ih h.1

theorem Reachable.exists_log {S : System σ α} (l₀ : L) (note : σ → α → L → L) {s : σ}
    (hs : S.Reachable s) : ∃ l, (S.withLog l₀ note).Reachable (s, l) := by
  induction hs with
  | init h => exact ⟨l₀, .init ⟨h, rfl⟩⟩
  | @step s s' a _ h ih =>
    obtain ⟨l, hl⟩ := ih
    exact ⟨note s a l, .step hl ⟨h, rfl⟩⟩

/-- A discipline only removes runs. -/
theorem Reachable.log_of_restrict {S : System σ α} {allow : σ → α → Prop} {l₀ : L}
    {note : σ → α → L → L} {p : σ × L} (hp : ((S.restrict allow).withLog l₀ note).Reachable p) :
    (S.withLog l₀ note).Reachable p := by
  induction hp with
  | init h => exact .init h
  | step _ h ih => exact .step ih ⟨h.1.2, h.2⟩

/-- A discipline that implies another one, in the states that its own runs reach. -/
theorem Reachable.log_restrict_mono {S : System σ α} {allow allow' : σ → α → Prop} {l₀ : L}
    {note : σ → α → L → L}
    (hle : ∀ s a s', (S.restrict allow).Reachable s → allow s a → S.step s a s' → allow' s a)
    {p : σ × L} (hp : ((S.restrict allow).withLog l₀ note).Reachable p) :
    ((S.restrict allow').withLog l₀ note).Reachable p := by
  induction hp with
  | init h => exact .init h
  | step hs h ih => exact .step ih ⟨⟨hle _ _ _ hs.of_log h.1.1 h.1.2, h.1.2⟩, h.2⟩

/-! ### Components -/

/-- Every step of `S` is, seen through `f`, a step of `T` or no step at all. -/
structure Projects (S : System σ α) (T : System τ β) (f : σ → τ) : Prop where
  init : ∀ s, S.init s → T.Reachable (f s)
  step : ∀ s a s', S.Reachable s → S.step s a s' → f s' = f s ∨ ∃ b, T.step (f s) b (f s')

theorem Projects.reachable {S : System σ α} {T : System τ β} {f : σ → τ} (h : Projects S T f)
    {s : σ} (hs : S.Reachable s) : T.Reachable (f s) := by
  induction hs with
  | init hi => exact h.init _ hi
  | step hs hst ih =>
    rcases h.step _ _ _ hs hst with heq | ⟨b, hb⟩
    · rw [heq]; exact ih
    · exact .step ih hb

/-- The same with logs, where the step `a` becomes the step `g a`, and with an invariant of `S`. A
step of `S` that is no step of `T` is not recorded. -/
theorem Reachable.log_of_simulation {S : System σ α} {T : System τ β} {f : σ → τ} {g : α → β}
    {I : σ → Prop} {l₀ : L} {note : τ → β → L → L} (hinit : ∀ s, S.init s → T.init (f s) ∧ I s)
    (hstep : ∀ s a s', I s → T.Reachable (f s) → S.step s a s' →
      I s' ∧ (T.step (f s) (g a) (f s') ∨ f s' = f s ∧ ∀ l, note (f s) (g a) l = l)) {x : σ × L}
    (hx : (S.withLog l₀ fun s a l => note (f s) (g a) l).Reachable x) :
    (T.withLog l₀ note).Reachable (f x.1, x.2) ∧ I x.1 := by
  induction hx with
  | @init x h =>
    obtain ⟨s, l⟩ := x
    obtain ⟨h, rfl⟩ := h
    exact ⟨.init ⟨(hinit s h).1, rfl⟩, (hinit s h).2⟩
  | @step x y a _ h ih =>
    obtain ⟨s, l⟩ := x
    obtain ⟨s', l'⟩ := y
    obtain ⟨h, rfl⟩ := h
    obtain ⟨hI, hs | ⟨heq, hskip⟩⟩ := hstep s a s' ih.2 ih.1.of_log h
    · exact ⟨.step ih.1 ⟨hs, rfl⟩, hI⟩
    · refine ⟨?_, hI⟩
      show (T.withLog l₀ note).Reachable (f s', note (f s) (g a) l)
      rw [heq, hskip]
      exact ih.1

/-! ### Bisimulation -/

/-- Whatever one of two related states can do, the other can do as well, and they stay related. -/
structure IsBisimulation (S : System σ α) (T : System τ α) (R : σ → τ → Prop) : Prop where
  forth : ∀ s t a s', R s t → S.step s a s' → ∃ t', T.step t a t' ∧ R s' t'
  back : ∀ s t a t', R s t → T.step t a t' → ∃ s', S.step s a s' ∧ R s' t'

/-- Two states are bisimilar if a bisimulation relates them, all of whose pairs look the same. -/
def Bisimilar (S : System σ α) (T : System τ α) (look : σ → τ → Prop) (s : σ) (t : τ) : Prop :=
  ∃ R, IsBisimulation S T R ∧ (∀ s t, R s t → look s t) ∧ R s t

/-- For a symmetric relation one direction is enough. -/
theorem IsBisimulation.of_symm {S : System σ α} {R : σ → σ → Prop} (hsymm : ∀ s t, R s t → R t s)
    (hforth : ∀ s t a s', R s t → S.step s a s' → ∃ t', S.step t a t' ∧ R s' t') :
    IsBisimulation S S R := by
  refine ⟨hforth, fun s t a t' hR hstep => ?_⟩
  obtain ⟨s', hs', hR'⟩ := hforth t s a t' (hsymm s t hR) hstep
  exact ⟨s', hs', hsymm t' s' hR'⟩

/-! ### Runs -/

/-- The states `x 0, …, x n` form a run whose `k`-th step has the label `a k`. -/
structure Run (S : System σ α) (x : ℕ → σ) (a : ℕ → α) (n : ℕ) : Prop where
  init : S.init (x 0)
  step : ∀ k < n, S.step (x k) (a k) (x (k + 1))

theorem Run.reachable {S : System σ α} {x : ℕ → σ} {a : ℕ → α} {n : ℕ} (h : S.Run x a n) :
    ∀ k ≤ n, S.Reachable (x k) := by
  intro k hk
  induction k with
  | zero => exact .init h.init
  | succ k ih => exact .step (ih (by omega)) (h.step k (by omega))

theorem Run.of_log {S : System σ α} {l₀ : L} {note : σ → α → L → L} {x : ℕ → σ × L} {a : ℕ → α}
    {n : ℕ} (h : (S.withLog l₀ note).Run x a n) : S.Run (fun k => (x k).1) a n :=
  ⟨h.init.1, fun k hk => (h.step k hk).1⟩

theorem Run.snoc {S : System σ α} {x : ℕ → σ} {a : ℕ → α} {n : ℕ} (h : S.Run x a n) {t : σ}
    (ht : S.step (x n) (a n) t) : S.Run (Function.update x (n + 1) t) a (n + 1) := by
  refine ⟨?_, fun k hk => ?_⟩
  · rw [Function.update_of_ne (by omega)]; exact h.init
  · rw [Function.update_of_ne (by omega : k ≠ n + 1)]
    rcases Nat.eq_or_lt_of_le (Nat.le_of_lt_succ hk) with rfl | hlt
    · rw [Function.update_self]; exact ht
    · rw [Function.update_of_ne (by omega)]; exact h.step k hlt

/-- As long as its steps obey the discipline, a run is one of the restricted system. -/
theorem Run.reachable_restrict {S : System σ α} {allow : σ → α → Prop} {x : ℕ → σ} {a : ℕ → α}
    {n : ℕ} (h : S.Run x a n) {k : ℕ} (hk : k ≤ n) (hallow : ∀ m < k, allow (x m) (a m)) :
    (S.restrict allow).Reachable (x k) := by
  induction k with
  | zero => exact .init h.init
  | succ k ih =>
    have hs := ih (by omega) fun m hm => hallow m (by omega)
    exact .step hs ⟨hallow k (by omega), h.step k (by omega)⟩

/-- What the discipline keeps, and what the first step against it destroys, holds along a run if and
only if the run obeys the discipline. -/
theorem Run.forall_iff_allow {S : System σ α} {allow : σ → α → Prop} {P : σ → Prop} {x : ℕ → σ}
    {a : ℕ → α} {n : ℕ} (h : S.Run x a n)
    (hkeep : ∀ k ≤ n, (S.restrict allow).Reachable (x k) → P (x k))
    (hbreak : ∀ k < n, (S.restrict allow).Reachable (x k) → ¬ allow (x k) (a k) → ¬ P (x (k + 1))) :
    (∀ k ≤ n, P (x k)) ↔ ∀ k < n, allow (x k) (a k) := by
  constructor
  · intro hP k
    induction k using Nat.strong_induction_on with
    | _ k ih =>
      intro hk
      have hs : (S.restrict allow).Reachable (x k) :=
        h.reachable_restrict hk.le fun m hm => ih m hm (by omega)
      by_contra hna
      exact hbreak k hk hs hna (hP (k + 1) hk)
  · intro hallow k hk
    exact hkeep k hk (h.reachable_restrict hk fun m hm => hallow m (by omega))

/-- Lock-step forward simulation: a relation that `T` can follow step by step, with the same
labels, carries every run of `S` to a run of `T`. -/
theorem Run.lift {S : System σ α} {T : System τ α} {R : σ → τ → Prop}
    (hinit : ∀ s, S.init s → ∃ u, T.init u ∧ R s u)
    (hstep : ∀ s a s' u, S.Reachable s → T.Reachable u → R s u → S.step s a s' →
      ∃ u', T.step u a u' ∧ R s' u')
    {x : ℕ → σ} {a : ℕ → α} {n : ℕ} (h : S.Run x a n) :
    ∃ y, T.Run y a n ∧ ∀ k ≤ n, R (x k) (y k) := by
  induction n with
  | zero =>
    obtain ⟨u, hu, hR⟩ := hinit _ h.init
    refine ⟨fun _ => u, ⟨hu, fun k hk => absurd hk (by omega)⟩, fun k hk => ?_⟩
    obtain rfl : k = 0 := by omega
    exact hR
  | succ n ih =>
    obtain ⟨y, hy, hR⟩ := ih ⟨h.init, fun k hk => h.step k (by omega)⟩
    obtain ⟨u', hu', hR'⟩ := hstep _ _ _ _ (h.reachable n (by omega)) (hy.reachable n le_rfl)
      (hR n le_rfl) (h.step n (by omega))
    refine ⟨Function.update y (n + 1) u', hy.snoc hu', fun k hk => ?_⟩
    rcases Nat.eq_or_lt_of_le hk with rfl | hlt
    · rw [Function.update_self]; exact hR'
    · rw [Function.update_of_ne (by omega)]; exact hR k (by omega)

/-- A schedule that a step function executes is a run. The labels after its end do not matter. -/
theorem run_of_foldlM {S : System σ α} {s t : σ} (hs : S.init s) (b : α) {f : σ → α → Option σ}
    {acts : List α} (ht : acts.foldlM f s = some t)
    (hf : ∀ s, ∀ a ∈ acts, ∀ s', f s a = some s' → S.step s a s') :
    ∀ n ≤ acts.length, ∃ x, S.Run x (acts.getD · b) n ∧
      ∀ k ≤ n, (acts.take k).foldlM f s = some (x k) := by
  intro n hn
  induction n with
  | zero =>
    refine ⟨fun _ => s, ⟨hs, fun k hk => absurd hk (Nat.not_lt_zero k)⟩, fun k hk => ?_⟩
    obtain rfl : k = 0 := by omega
    rfl
  | succ n ih =>
    obtain ⟨x, hx, heq⟩ := ih (by omega)
    have hlast : acts.getD n b = acts[n] := by simp [List.getElem?_eq_getElem hn]
    -- the schedule goes on from `x n` with its `n`-th label
    have hrest : (acts.drop n).foldlM f (x n) = some t := by
      rw [← ht, ← List.take_append_drop n acts, List.foldlM_append,
        List.take_append_drop, heq n le_rfl]
      rfl
    rw [List.drop_eq_getElem_cons hn, List.foldlM_cons] at hrest
    obtain ⟨u, hu, -⟩ := Option.bind_eq_some_iff.1 hrest
    refine ⟨Function.update x (n + 1) u, hx.snoc ?_, fun k hk => ?_⟩
    · rw [hlast]; exact hf _ _ (List.getElem_mem hn) _ hu
    · rcases Nat.eq_or_lt_of_le hk with rfl | hlt
      · rw [Function.update_self, List.take_succ_eq_append_getElem hn,
          List.foldlM_append, heq n le_rfl]
        simp [hu]
      · rw [Function.update_of_ne (by omega)]
        exact heq k (by omega)

/-- What is checked of a schedule after each of its steps holds along a run. -/
theorem exists_run_of_checks {S : System σ α} {s : σ} (hs : S.init s) (b : α)
    {f : σ → α → Option σ} {acts : List α} {p : ℕ → σ → Bool}
    (h : ∀ k ≤ acts.length, ((acts.take k).foldlM f s).map (p k) = some true)
    (hf : ∀ s, ∀ a ∈ acts, ∀ s', f s a = some s' → S.step s a s') :
    ∃ x, S.Run x (acts.getD · b) acts.length ∧ ∀ k ≤ acts.length, p k (x k) = true := by
  obtain ⟨t, ht, -⟩ := Option.map_eq_some_iff.1 (h acts.length le_rfl)
  rw [List.take_length] at ht
  obtain ⟨x, hx, heq⟩ := run_of_foldlM hs b ht hf acts.length le_rfl
  refine ⟨x, hx, fun k hk => ?_⟩
  have hk' := h k hk
  rw [heq k hk, Option.map_some] at hk'
  exact Option.some.inj hk'

theorem exists_run_of_schedule {S : System σ α} {s : σ} (hs : S.init s) (b : α)
    {f : σ → α → Option σ} {acts : List α} {p : σ → Bool}
    (h : (acts.foldlM f s).map p = some true)
    (hf : ∀ s, ∀ a ∈ acts, ∀ s', f s a = some s' → S.step s a s') :
    ∃ x, S.Run x (acts.getD · b) acts.length ∧ p (x acts.length) = true := by
  obtain ⟨t, ht, hp⟩ := Option.map_eq_some_iff.1 h
  obtain ⟨x, hx, heq⟩ := run_of_foldlM hs b ht hf acts.length le_rfl
  have hlast := heq acts.length le_rfl
  rw [List.take_length, ht] at hlast
  cases hlast
  exact ⟨x, hx, hp⟩

/-- A schedule that a step function executes ends in a reachable state. -/
theorem exists_reachable_of_schedule {S : System σ α} {s : σ} (hs : S.init s)
    {f : σ → α → Option σ} {acts : List α} {p : σ → Bool}
    (h : (acts.foldlM f s).map p = some true)
    (hf : ∀ s, ∀ a ∈ acts, ∀ s', f s a = some s' → S.step s a s') :
    ∃ s', S.Reachable s' ∧ p s' = true := by
  cases acts with
  | nil => exact ⟨s, .init hs, by simpa using h⟩
  | cons a acts =>
    obtain ⟨x, hx, hp⟩ := exists_run_of_schedule hs a h hf
    exact ⟨_, hx.reachable _ le_rfl, hp⟩

/-- The same for a schedule that is executed together with its log. -/
theorem exists_logged_of_schedule {S : System σ α} {s : σ} (hs : S.init s) {l₀ : L}
    {note : σ → α → L → L} {f : σ → α → Option σ} {acts : List α} {p : σ × L → Bool}
    (h : (acts.foldlM (fun q a => (f q.1 a).map fun s => (s, note q.1 a q.2)) (s, l₀)).map p =
      some true)
    (hf : ∀ s, ∀ a ∈ acts, ∀ s', f s a = some s' → S.step s a s') :
    ∃ s' l, (S.withLog l₀ note).Reachable (s', l) ∧ p (s', l) = true := by
  have hinit : (S.withLog l₀ note).init (s, l₀) := ⟨hs, rfl⟩
  obtain ⟨⟨s', l⟩, hr, hp⟩ := exists_reachable_of_schedule hinit h (by
    rintro ⟨s, l⟩ a ha ⟨s', l'⟩ hst
    obtain ⟨t, ht, heq⟩ := Option.map_eq_some_iff.1 hst
    cases heq
    exact ⟨hf s a ha _ ht, rfl⟩)
  exact ⟨s', l, hr, hp⟩

end System

end Interleaving
