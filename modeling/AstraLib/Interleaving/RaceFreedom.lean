import AstraLib.Interleaving.ReleaseAcquire

/-!
# Handing cells over

A discipline under which there are no data races.  A cell belongs to one thread, or it is guarded
by a location, and then it is passed from thread to thread: who holds the location may access the
cells that it guards.  A thread gets hold of a location by an acquire load of its newest message,
and gives it up by a release store.

The invariant (`HandedOver`) says that the newest message of a location hands over all accesses of
those threads that do not hold it.
-/

namespace Interleaving

namespace ReleaseAcquire

section HandedOver

variable {Tid Loc Cell V τ : Type*} [LinearOrder τ] [OrderBot τ]

/-- Who may access a cell. -/
inductive Guard (Tid Loc : Type*)
  /-- the thread that it belongs to -/
  | own (θ : Tid)
  /-- the thread that holds the location -/
  | loc (ℓ : Loc)

/-- Thread `θ` may access a cell. -/
def Guard.Permits (holds : Tid → Loc → Prop) (θ : Tid) : Guard Tid Loc → Prop
  | .own θ' => θ' = θ
  | .loc ℓ => holds θ ℓ ∧ ∀ θ', holds θ' ℓ → θ' = θ

namespace Memory

/-- The accesses of the cells, and what the messages hand over. -/
structure HandedOver (M : Memory Tid Loc Cell V τ) (guard : Cell → Guard Tid Loc)
    (holds : Tid → Loc → Prop) : Prop where
  /-- a thread knows of its own accesses -/
  own : ∀ c θ, M.accessed c θ ≤ (M.view θ).clock θ
  written_le : ∀ c θ, M.written c θ ≤ M.accessed c θ
  /-- nobody else has accessed a cell that belongs to a thread -/
  alone : ∀ c θ θ', guard c = .own θ → θ' ≠ θ → M.accessed c θ' = 0
  /-- the newest message hands over the accesses of those that do not hold the location -/
  passed : ∀ c ℓ m θ, guard c = .loc ℓ → M.Newest ℓ m → ¬ holds θ ℓ →
    M.accessed c θ ≤ m.view.clock θ
  /-- who holds the location has got what it hands over -/
  held : ∀ ℓ m θ θ', M.Newest ℓ m → holds θ ℓ → m.view.clock θ' ≤ (M.view θ).clock θ'

namespace HandedOver

variable {M M' : Memory Tid Loc Cell V τ} {guard : Cell → Guard Tid Loc}
  {holds holds' : Tid → Loc → Prop} {θ : Tid} {c : Cell} {ℓ : Loc} {m : Message Tid Loc V τ} {t : τ}

theorem fresh (init : Loc → V) (guard : Cell → Guard Tid Loc) (hno : ∀ θ ℓ, ¬ holds θ ℓ) :
    (Memory.fresh init : Memory Tid Loc Cell V τ).HandedOver guard holds :=
  ⟨fun _ _ => le_rfl, fun _ _ => le_rfl, fun _ _ _ _ _ => rfl, fun _ _ _ _ _ _ _ => Nat.zero_le _,
    fun ℓ _ θ _ _ hθ => absurd hθ (hno θ ℓ)⟩

omit [OrderBot τ] in
theorem congr (h : M.HandedOver guard holds) (heq : ∀ θ ℓ, holds' θ ℓ ↔ holds θ ℓ) :
    M.HandedOver guard holds' := by
  obtain rfl : holds' = holds := funext fun θ => funext fun ℓ => propext (heq θ ℓ)
  exact h

omit [OrderBot τ] in
/-- **No data race.** What is permitted comes after all accesses of the other threads. -/
theorem accessed_le (h : M.HandedOver guard holds) (hsound : ∀ ℓ, ∃ m, M.Newest ℓ m)
    (hc : (guard c).Permits holds θ) (θ' : Tid) : M.accessed c θ' ≤ (M.view θ).clock θ' := by
  by_cases hθ : θ' = θ
  · subst hθ
    exact h.own c θ'
  cases hg : guard c with
  | own θ₀ =>
    rw [hg] at hc
    obtain rfl : θ₀ = θ := hc
    rw [h.alone c θ₀ θ' hg hθ]
    exact Nat.zero_le _
  | loc ℓ =>
    rw [hg] at hc
    obtain ⟨hholds, honly⟩ := hc
    obtain ⟨m, hm⟩ := hsound ℓ
    calc M.accessed c θ' ≤ m.view.clock θ' := h.passed c ℓ m θ' hg hm fun hθ' => hθ (honly θ' hθ')
      _ ≤ (M.view θ).clock θ' := h.held ℓ m θ θ' hm hholds

omit [OrderBot τ] in
theorem ordered (h : M.HandedOver guard holds) (hsound : ∀ ℓ, ∃ m, M.Newest ℓ m)
    (hc : (guard c).Permits holds θ) (x : Access) : M.Ordered θ c x := by
  cases x with
  | read => exact fun θ' => (h.written_le c θ').trans (h.accessed_le hsound hc θ')
  | write => exact h.accessed_le hsound hc

variable [DecidableEq Tid]

omit [OrderBot τ] in
theorem touch [DecidableEq Cell] (h : M.HandedOver guard holds) (hc : (guard c).Permits holds θ)
    (x : Access) : (M.touch θ c x).HandedOver guard holds := by
  have hclock : ∀ θ₁ θ₂, (M.view θ₁).clock θ₂ ≤ ((M.touch θ c x).view θ₁).clock θ₂ := by
    intro θ₁ θ₂
    by_cases h₁ : θ₁ = θ
    · subst h₁
      by_cases h₂ : θ₂ = θ₁
      · subst h₂
        simp [Memory.touch, setView, ticked]
      · simp [Memory.touch, setView, ticked, h₂]
    · simp [Memory.touch, setView, h₁]
  have hacc : ∀ c' θ', (M.touch θ c x).accessed c' θ' = M.accessed c' θ' ∨ c' = c ∧ θ' = θ := by
    intro c' θ'
    by_cases hc' : c' = c
    · by_cases hθ : θ' = θ
      · exact Or.inr ⟨hc', hθ⟩
      · subst hc'
        exact Or.inl (by simp [Memory.touch, hθ])
    · exact Or.inl (by simp [Memory.touch, hc'])
  have hnow : (M.touch θ c x).accessed c θ = (M.view θ).clock θ + 1 := by simp [Memory.touch]
  constructor
  · intro c' θ'
    rcases hacc c' θ' with heq | ⟨rfl, rfl⟩
    · exact heq ▸ (h.own c' θ').trans (hclock θ' θ')
    · rw [hnow]
      simp [Memory.touch, setView, ticked]
  · intro c' θ'
    have hw : (M.touch θ c x).written c' θ' = M.written c' θ' ∨
        c' = c ∧ θ' = θ ∧ (M.touch θ c x).written c' θ' = (M.view θ).clock θ + 1 := by
      cases x with
      | read => exact Or.inl rfl
      | write =>
        by_cases hc' : c' = c
        · subst hc'
          by_cases hθ : θ' = θ
          · subst hθ
            exact Or.inr ⟨rfl, rfl, by simp [Memory.touch]⟩
          · exact Or.inl (by simp [Memory.touch, hθ])
        · exact Or.inl (by simp [Memory.touch, hc'])
    rcases hw with hw | ⟨rfl, rfl, hw⟩
    · rw [hw]
      rcases hacc c' θ' with heq | ⟨rfl, rfl⟩
      · exact heq ▸ h.written_le c' θ'
      · rw [hnow]
        exact (h.written_le c' θ').trans ((h.own c' θ').trans (Nat.le_succ _))
    · rw [hw, hnow]
  · intro c' θ₁ θ₂ hg hne
    rcases hacc c' θ₂ with heq | ⟨rfl, rfl⟩
    · exact heq.trans (h.alone c' θ₁ θ₂ hg hne)
    · rw [hg] at hc
      exact absurd hc.symm hne
  · intro c' ℓ m θ' hg hm hno
    rcases hacc c' θ' with heq | ⟨rfl, rfl⟩
    · exact heq ▸ h.passed c' ℓ m θ' hg hm hno
    · rw [hg] at hc
      exact absurd hc.1 hno
  · intro ℓ m θ₁ θ₂ hm hholds
    exact (h.held ℓ m θ₁ θ₂ hm hholds).trans (hclock θ₁ θ₂)

omit [OrderBot τ] in
theorem touches [DecidableEq Cell] (h : M.HandedOver guard holds) {l : List (Cell × Access)}
    (hl : ∀ c ∈ l, (guard c.1).Permits holds θ) : (M.touches θ l).HandedOver guard holds := by
  induction l generalizing M with
  | nil => exact h
  | cons c l ih =>
    exact ih (h.touch (hl c (by simp)) c.2) fun c' hc' => hl c' (by simp [hc'])

variable [DecidableEq Loc] {o : MemoryOrder} {x : V} {after : τ} {base : View Tid Loc τ}

/-- A thread gets hold of a location by an acquire load of its newest message, and
otherwise only loads. -/
theorem load (h : M.HandedOver guard holds)
    (hgets : ∀ θ' ℓ', holds' θ' ℓ' → holds θ' ℓ' ∨ θ' = θ ∧ ℓ' = ℓ ∧
      o.acquires = true ∧ M.Newest ℓ m)
    (hkeeps : ∀ θ' ℓ', holds θ' ℓ' → holds' θ' ℓ') : (M.load o θ ℓ m).HandedOver guard holds' := by
  refine ⟨fun c θ' => (h.own c θ').trans (le_load_clock θ'), h.written_le, h.alone, ?_, ?_⟩
  · intro c ℓ' m' θ' hg hm' hno
    exact h.passed c ℓ' m' θ' hg hm' fun hh => hno (hkeeps θ' ℓ' hh)
  · intro ℓ' m' θ₁ θ₂ hm' hholds
    rcases hgets θ₁ ℓ' hholds with hold | ⟨rfl, rfl, ho, hm⟩
    · exact (h.held ℓ' m' θ₁ θ₂ hm' hold).trans (le_load_clock θ₂)
    · obtain rfl := hm.unique hm'
      exact load_clock_of_acquires ho θ₂

/-- A store into a location that guards nothing. -/
theorem add_unguarded (h : M.HandedOver guard holds) (hfree : ∀ c, guard c ≠ .loc ℓ)
    (hno : ∀ θ', ¬ holds θ' ℓ) : (M.add o θ ℓ x t after base).HandedOver guard holds := by
  refine ⟨fun c θ' => ?_, h.written_le, h.alone, ?_, ?_⟩
  · rw [add_clock]
    exact h.own c θ'
  · intro c ℓ' m' θ' hg hm' hh
    have hne : ℓ' ≠ ℓ := fun heq => hfree c (heq ▸ hg)
    exact h.passed c ℓ' m' θ' hg (hm'.congr (add_history_of_ne hne).symm) hh
  · intro ℓ' m' θ₁ θ₂ hm' hholds
    have hne : ℓ' ≠ ℓ := fun heq => hno θ₁ (heq ▸ hholds)
    rw [add_clock]
    exact h.held ℓ' m' θ₁ θ₂ (hm'.congr (add_history_of_ne hne).symm) hholds

/-- The thread that holds a location gives it up by a release store of its newest message. -/
theorem release (h : M.HandedOver guard holds) (hsound : ∀ ℓ, ∃ m, M.Newest ℓ m)
    (ho : o.releases = true) (htop : ∀ m ∈ M.history ℓ, m.time < t) (hholds : holds θ ℓ)
    (honly : ∀ θ', holds θ' ℓ → θ' = θ) (hgives : ∀ θ' ℓ', holds' θ' ℓ' ↔ holds θ' ℓ' ∧ ℓ' ≠ ℓ) :
    (M.add o θ ℓ x t after base).HandedOver guard holds' := by
  have hnew : ∀ {m'}, (M.add o θ ℓ x t after base).Newest ℓ m' →
      ∀ θ', (M.view θ).clock θ' ≤ m'.view.clock θ' := by
    intro m' hm' θ'
    rw [hm'.view_of_add htop, if_pos ho]
    simp [View.join]
  refine ⟨fun c θ' => ?_, h.written_le, h.alone, ?_, ?_⟩
  · rw [add_clock]
    exact h.own c θ'
  · intro c ℓ' m' θ' hg hm' hno
    by_cases hℓ : ℓ' = ℓ
    · subst hℓ
      refine le_trans ?_ (hnew hm' θ')
      exact h.accessed_le hsound (by rw [hg]; exact ⟨hholds, honly⟩) θ'
    · have hm := hm'.congr (add_history_of_ne hℓ).symm
      exact h.passed c ℓ' m' θ' hg hm fun hh => hno ((hgives θ' ℓ').2 ⟨hh, hℓ⟩)
  · intro ℓ' m' θ₁ θ₂ hm' hh
    obtain ⟨hh, hℓ⟩ := (hgives θ₁ ℓ').1 hh
    rw [add_clock]
    exact h.held ℓ' m' θ₁ θ₂ (hm'.congr (add_history_of_ne hℓ).symm) hh

/-- A message below the newest one. -/
theorem add_below (h : M.HandedOver guard holds) (hm : M.Newest ℓ m) (hlt : t < m.time) :
    (M.add o θ ℓ x t after base).HandedOver guard holds := by
  have hold : ∀ {ℓ' m'}, (M.add o θ ℓ x t after base).Newest ℓ' m' → M.Newest ℓ' m' := by
    intro ℓ' m' hm'
    by_cases hℓ : ℓ' = ℓ
    · subst hℓ
      rw [(hm.add_of_lt hlt).unique hm']
      exact hm
    · exact hm'.congr (add_history_of_ne hℓ).symm
  refine ⟨fun c θ' => ?_, h.written_le, h.alone,
    fun c ℓ' m' θ' hg hm' => h.passed c ℓ' m' θ' hg (hold hm'), fun ℓ' m' θ₁ θ₂ hm' hh => ?_⟩
  · rw [add_clock]
    exact h.own c θ'
  · rw [add_clock]
    exact h.held ℓ' m' θ₁ θ₂ (hold hm') hh

/-- A read-modify-write of the newest message hands on what that one hands over, but nothing of its
own if it is no release. By an acquire the thread may get hold of the location. -/
theorem update (h : M.HandedOver guard holds) (hm : M.Newest ℓ m) (ht : m.time < t)
    (ho : o.releases = false)
    (hgets : ∀ θ' ℓ', holds' θ' ℓ' → holds θ' ℓ' ∨ θ' = θ ∧ ℓ' = ℓ ∧ o.acquires = true)
    (hkeeps : ∀ θ' ℓ', holds θ' ℓ' → holds' θ' ℓ') :
    ((M.load o θ ℓ m).add o θ ℓ x t m.time m.view).HandedOver guard holds' := by
  have hload : (M.load o θ ℓ m).HandedOver guard holds' := by
    refine h.load (fun θ' ℓ' hh => ?_) hkeeps
    rcases hgets θ' ℓ' hh with hold | ⟨h₁, h₂, h₃⟩
    · exact Or.inl hold
    · exact Or.inr ⟨h₁, h₂, h₃, hm⟩
  have htop : ∀ m' ∈ (M.load o θ ℓ m).history ℓ, m'.time < t :=
    fun m' hm' => (hm.time_le hm').trans_lt ht
  have hnew : ∀ {m'}, ((M.load o θ ℓ m).add o θ ℓ x t m.time m.view).Newest ℓ m' →
      m'.view.clock = m.view.clock := by
    intro m' hm'
    rw [hm'.view_of_add htop, if_neg (by rw [ho]; exact Bool.false_ne_true)]
    funext θ'
    simp [View.join, View.single]
  refine ⟨fun c θ' => ?_, hload.written_le, hload.alone, fun c ℓ' m' θ' hg hm' hno => ?_,
    fun ℓ' m' θ₁ θ₂ hm' hh => ?_⟩
  · rw [add_clock]
    exact hload.own c θ'
  · by_cases hℓ : ℓ' = ℓ
    · subst hℓ
      rw [hnew hm']
      exact hload.passed c ℓ' m θ' hg (hm.congr rfl) hno
    · exact hload.passed c ℓ' m' θ' hg (hm'.congr (add_history_of_ne hℓ).symm) hno
  · rw [add_clock]
    by_cases hℓ : ℓ' = ℓ
    · subst hℓ
      rw [hnew hm']
      exact hload.held ℓ' m θ₁ θ₂ (hm.congr rfl) hh
    · exact hload.held ℓ' m' θ₁ θ₂ (hm'.congr (add_history_of_ne hℓ).symm) hh

end HandedOver

end Memory

end HandedOver

end ReleaseAcquire

end Interleaving
