import AstraLib.Interleaving.RaceFreedom

/-!
# Objects that change hands

The threads that use a program on weak memory have objects of their own, of which the program knows
nothing, and they may hand these to one another by means of the program.  `Program.clients` runs a
program among such threads: a thread that is outside of it may access an object.

`Memory.Covers` says where an object is safe: all its accesses so far come before what a certain
thread does next, or before what a thread does once it has loaded the newest message of a
location.  A release store carries an object from the thread to the location, and an acquire
load from there to another thread.
-/

namespace Interleaving

namespace ReleaseAcquire

section Comap

variable {Tid Loc Cell Cell' V τ : Type*}

/-- What a memory shows of the cells that `f` names. -/
def Memory.comap (f : Cell → Cell') (M : Memory Tid Loc Cell' V τ) : Memory Tid Loc Cell V τ where
  history := M.history
  view := M.view
  written c := M.written (f c)
  accessed c := M.accessed (f c)

/-- An access of a cell that `f` does not name. -/
theorem Memory.comap_touch_of_ne [DecidableEq Tid] [DecidableEq Cell'] {f : Cell → Cell'}
    {c' : Cell'} (hc : ∀ c, f c ≠ c') (M : Memory Tid Loc Cell' V τ) (θ : Tid) (x : Access) :
    (M.touch θ c' x).comap f = (M.comap f).setView θ ((M.comap f).ticked θ) := by
  unfold touch comap setView
  congr 1
  · funext c
    cases x with
    | read => rfl
    | write => exact Function.update_of_ne (hc c) _ _
  · funext c
    exact Function.update_of_ne (hc c) _ _

variable [DecidableEq Tid] [DecidableEq Cell] [DecidableEq Cell'] {f : Cell → Cell'}

theorem Memory.comap_touch (hf : Function.Injective f) (M : Memory Tid Loc Cell' V τ) (θ : Tid)
    (c : Cell) (x : Access) : (M.touch θ (f c) x).comap f = (M.comap f).touch θ c x := by
  unfold touch comap
  congr 1
  · funext c'
    cases x with
    | read => rfl
    | write =>
      by_cases hc : c' = c
      · subst hc
        simp
      · simp [hc, hf.eq_iff]
  · funext c'
    by_cases hc : c' = c
    · subst hc
      simp
    · simp [hc, hf.eq_iff]

theorem Memory.comap_touches (hf : Function.Injective f) (M : Memory Tid Loc Cell' V τ) (θ : Tid)
    (l : List (Cell × Access)) : (M.touches θ (l.map (Prod.map f id))).comap f =
      (M.comap f).touches θ l := by
  induction l generalizing M with
  | nil => rfl
  | cons c l ih =>
    refine (ih (M.touch θ (f c.1) c.2)).trans ?_
    rw [comap_touch hf]
    rfl

end Comap

/-! ### Where the accesses of an object come before -/

section Covers

variable {Tid Loc Cell V τ : Type*} [LinearOrder τ]

/-- The first `n θ'` accesses of each thread `θ'` come before what thread `θ` does next, or before
what a thread does once it has loaded the newest message of location `ℓ`. -/
def Memory.Covers (M : Memory Tid Loc Cell V τ) (n : Tid → ℕ) : Guard Tid Loc → Prop
  | .own θ => n ≤ (M.view θ).clock
  | .loc ℓ => ∀ m, M.Newest ℓ m → n ≤ m.view.clock

namespace Memory

variable {M M' : Memory Tid Loc Cell V τ} {n : Tid → ℕ} {g : Guard Tid Loc} {θ : Tid} {ℓ : Loc}
  {m : Message Tid Loc V τ} {c : Cell}

theorem Covers.mono (h : M.Covers n g) (hview : ∀ θ, (M.view θ).clock ≤ (M'.view θ).clock)
    (hhist : ∀ ℓ, g = .loc ℓ → M'.history ℓ = M.history ℓ) : M'.Covers n g := by
  cases g with
  | own θ => exact h.trans (hview θ)
  | loc ℓ => exact fun m hm => h m (hm.congr (hhist ℓ rfl).symm)

/-- **No data race.** A thread that knows of all accesses of an object may access it. -/
theorem Covers.ordered (h : M.Covers (M.accessed c) (.own θ)) (hle : M.written c ≤ M.accessed c)
    (x : Access) : M.Ordered θ c x := by
  cases x with
  | read => exact fun θ' => (hle θ').trans (h θ')
  | write => exact h

variable [DecidableEq Tid]

omit [LinearOrder τ] in
theorem clock_le_touch [DecidableEq Cell] (M : Memory Tid Loc Cell V τ) (θ θ' : Tid) (c : Cell)
    (x : Access) : (M.view θ').clock ≤ ((M.touch θ c x).view θ').clock := by
  intro θ''
  by_cases hθ : θ' = θ
  · subst hθ
    by_cases hθ' : θ'' = θ'
    · subst hθ'
      simp [touch, setView, ticked]
    · simp [touch, setView, ticked, hθ']
  · simp [touch, setView, hθ]

omit [LinearOrder τ] in
theorem clock_le_touches [DecidableEq Cell] (M : Memory Tid Loc Cell V τ) (θ θ' : Tid)
    (l : List (Cell × Access)) : (M.view θ').clock ≤ ((M.touches θ l).view θ').clock := by
  induction l generalizing M with
  | nil => exact le_rfl
  | cons c l ih => exact (M.clock_le_touch θ θ' c.1 c.2).trans (ih _)

omit [LinearOrder τ] in
theorem touches_accessed [DecidableEq Cell] (M : Memory Tid Loc Cell V τ) (θ : Tid)
    {l : List (Cell × Access)} (hl : ∀ c' ∈ l, c'.1 ≠ c) :
    (M.touches θ l).accessed c = M.accessed c ∧ (M.touches θ l).written c = M.written c := by
  induction l generalizing M with
  | nil => exact ⟨rfl, rfl⟩
  | cons c' l ih =>
    obtain ⟨hacc, hwr⟩ := ih (M.touch θ c'.1 c'.2) fun c'' hc'' => hl c'' (by simp [hc''])
    have hne : c ≠ c'.1 := (hl c' (by simp)).symm
    refine ⟨hacc.trans (Function.update_of_ne hne _ _), hwr.trans ?_⟩
    unfold touch
    cases c'.2 with
    | read => rfl
    | write => exact Function.update_of_ne hne _ _

omit [LinearOrder τ] in
theorem clock_le_tick (M : Memory Tid Loc Cell V τ) (θ θ' : Tid) :
    (M.view θ').clock ≤ ((M.setView θ (M.ticked θ)).view θ').clock := by
  intro θ''
  by_cases hθ : θ' = θ
  · subst hθ
    by_cases hθ' : θ'' = θ'
    · subst hθ'
      simp [setView, ticked]
    · simp [setView, ticked, hθ']
  · simp [setView, hθ]

/-- The accesses of other cells do not matter. -/
theorem HandedOver.tick {guard : Cell → Guard Tid Loc} {holds : Tid → Loc → Prop}
    (h : M.HandedOver guard holds) (θ : Tid) :
    (M.setView θ (M.ticked θ)).HandedOver guard holds where
  own c θ' := (h.own c θ').trans (M.clock_le_tick θ θ' θ')
  written_le := h.written_le
  alone := h.alone
  passed := h.passed
  held ℓ m θ₁ θ₂ hm hh := (h.held ℓ m θ₁ θ₂ hm hh).trans (M.clock_le_tick θ θ₁ θ₂)

/-- A thread that knows of all accesses of an object knows of its own next access as well. -/
theorem Covers.touch [DecidableEq Cell] (h : M.Covers (M.accessed c) (.own θ)) (x : Access) :
    (M.touch θ c x).Covers ((M.touch θ c x).accessed c) (.own θ) := by
  intro θ'
  by_cases hθ : θ' = θ
  · subst hθ
    simp [Memory.touch, setView, ticked]
  · simpa [Memory.touch, setView, ticked, hθ] using h θ'

omit [LinearOrder τ] in
theorem written_le_touch [DecidableEq Cell] (hle : M.written c ≤ M.accessed c)
    (h : M.accessed c θ ≤ (M.view θ).clock θ) (x : Access) :
    (M.touch θ c x).written c ≤ (M.touch θ c x).accessed c := by
  intro θ'
  cases x with
  | read =>
    by_cases hθ : θ' = θ
    · subst hθ
      simpa [Memory.touch, setView] using ((hle θ').trans h).trans (Nat.le_succ _)
    · simpa [Memory.touch, setView, hθ] using hle θ'
  | write =>
    by_cases hθ : θ' = θ
    · subst hθ
      simp [Memory.touch, setView]
    · simpa [Memory.touch, setView, hθ] using hle θ'

variable [OrderBot τ] [DecidableEq Loc] {o : MemoryOrder} {x : V} {t after : τ}
  {base : View Tid Loc τ}

/-- An acquire load takes the object from the location. -/
theorem Covers.acquire (h : M.Covers n (.loc ℓ)) (hm : M.Newest ℓ m) (ho : o.acquires = true) :
    (M.load o θ ℓ m).Covers n (.own θ) := fun θ' => (h m hm θ').trans (load_clock_of_acquires ho θ')

/-- A release store carries the object to the location. -/
theorem Covers.release (h : M.Covers n (.own θ)) (htop : ∀ m ∈ M.history ℓ, m.time < t)
    (ho : o.releases = true) : (M.add o θ ℓ x t after base).Covers n (.loc ℓ) := by
  intro m' hm' θ'
  rw [hm'.view_of_add htop, if_pos ho]
  exact (h θ').trans (by simp [View.join])

end Memory

end Covers

/-! ### Clients of a program -/

section Clients

variable {σ Tid α Loc Cell V τ C : Type*}

/-- The program among other cells. -/
def Program.mapCells {Cell' : Type*} (P : Program σ Tid α Loc Cell V) (f : Cell → Cell') :
    Program σ Tid α Loc Cell' V where
  init := P.init
  step := P.step
  get := P.get
  set := P.set
  footprint s b := ⟨(P.footprint s b).plain.map (Prod.map f id), (P.footprint s b).atomic⟩

/-- A step of the program, or an access of an object. -/
inductive ClientAct (Tid α τ C : Type*)
  | run (b : (Tid × α) × τ × τ)
  | access (θ : Tid) (c : C) (x : Access)

variable [LinearOrder τ] [OrderBot τ] [DecidableEq Tid] [DecidableEq Loc] [DecidableEq Cell]
  [DecidableEq C]

/-- A thread that is outside of the program (`idle`) may access an object. -/
def Program.clientStep (P : Program σ Tid α Loc Cell V) (idle : σ → Tid → Bool)
    (w : σ × Memory Tid Loc (Cell ⊕ C) V τ) :
    ClientAct Tid α τ C → Option (σ × Memory Tid Loc (Cell ⊕ C) V τ)
  | .run b => (P.mapCells Sum.inl).weakStep w b
  | .access θ c x => if idle w.1 θ then some (w.1, w.2.touch θ (.inr c) x) else none

/-- The program and its clients on weak memory. -/
def Program.clients (P : Program σ Tid α Loc Cell V) (idle : σ → Tid → Bool) (τ C : Type*)
    [LinearOrder τ] [OrderBot τ] [DecidableEq C] :
    System (σ × Memory Tid Loc (Cell ⊕ C) V τ) (ClientAct Tid α τ C) :=
  .ofFun (fun w => P.init w.1 ∧ w.2 = .fresh (P.get w.1)) (P.clientStep idle)

namespace Program

variable {P : Program σ Tid α Loc Cell V} {s s' : σ} {θ : Tid} {a : α} {r t : τ}
  {M M' : Memory Tid Loc (Cell ⊕ C) V τ}

/-- A program does not notice other cells. -/
theorem WeakStep.comap (hs : (P.mapCells Sum.inl).WeakStep s M θ a r t s' M') :
    P.WeakStep s (M.comap Sum.inl) θ a r t s' (M'.comap Sum.inl) := by
  have hplain := Memory.comap_touches Sum.inl_injective M θ (P.footprint s (θ, a)).plain
  cases hs with
  | plain hf hs => exact hplain ▸ .plain hf hs
  | @load o ℓ m s₁ _ hf hm hr hs =>
    have heq :
        (((M.touches θ ((P.mapCells Sum.inl).footprint s (θ, a)).plain).load o θ ℓ m).comap
          Sum.inl : Memory Tid Loc Cell V τ) =
          ((M.comap Sum.inl).touches θ (P.footprint s (θ, a)).plain).load o θ ℓ m := by
      rw [← hplain]
      rfl
    rw [heq]
    exact .load hf hm hr hs
  | @store o ℓ s₁ _ _ hf hs ht hfree =>
    have heq : (((M.touches θ ((P.mapCells Sum.inl).footprint s (θ, a)).plain).add o θ ℓ
        (P.get s₁ ℓ) t t .bot).comap Sum.inl : Memory Tid Loc Cell V τ) =
          ((M.comap Sum.inl).touches θ (P.footprint s (θ, a)).plain).add o θ ℓ
            (P.get s₁ ℓ) t t .bot := by
      rw [← hplain]
      rfl
    exact heq ▸ .store hf hs ht hfree
  | @update o ℓ m s₁ _ hf hm hr hs ht =>
    have heq : ((((M.touches θ ((P.mapCells Sum.inl).footprint s (θ, a)).plain).load o θ ℓ m).add o
        θ ℓ (P.get s₁ ℓ) t m.time m.view).comap Sum.inl : Memory Tid Loc Cell V τ) =
          (((M.comap Sum.inl).touches θ (P.footprint s (θ, a)).plain).load o θ ℓ m).add o θ ℓ
            (P.get s₁ ℓ) t m.time m.view := by
      rw [← hplain]
      rfl
    exact heq ▸ .update hf hm hr hs ht

/-- What threads know is not forgotten. -/
theorem WeakStep.clock_le {M M' : Memory Tid Loc Cell V τ} (hs : P.WeakStep s M θ a r t s' M')
    (θ' : Tid) : (M.view θ').clock ≤ (M'.view θ').clock := by
  refine (M.clock_le_touches θ θ' (P.footprint s (θ, a)).plain).trans ?_
  cases hs with
  | plain hf hs => exact le_rfl
  | load hf hm hr hs => exact Memory.le_load_clock
  | store hf hs ht hfree => rw [Memory.add_clock]
  | update hf hm hr hs ht =>
    rw [Memory.add_clock]
    exact Memory.le_load_clock

/-- Only a store into a location changes its messages. -/
theorem WeakStep.history_eq {M M' : Memory Tid Loc Cell V τ} (hs : P.WeakStep s M θ a r t s' M')
    {ℓ : Loc} (hstore : ∀ o, (P.footprint s (θ, a)).atomic ≠ some (.store o ℓ))
    (hupdate : ∀ o, (P.footprint s (θ, a)).atomic ≠ some (.update o ℓ)) :
    M'.history ℓ = M.history ℓ := by
  have htouch := congrFun (Memory.touches_history (M := M) (θ := θ) (P.footprint s (θ, a)).plain) ℓ
  cases hs with
  | plain hf hs => exact htouch
  | load hf hm hr hs => exact htouch
  | @store o ℓ' _ _ _ hf hs ht hfree =>
    have hne : ℓ ≠ ℓ' := by
      rintro rfl
      exact hstore o hf
    rw [Memory.add_history_of_ne hne]
    exact htouch
  | @update o ℓ' _ _ _ hf hm hr hs ht =>
    have hne : ℓ ≠ ℓ' := by
      rintro rfl
      exact hupdate o hf
    rw [Memory.add_history_of_ne hne]
    exact htouch

/-- The program does not access the objects. -/
theorem WeakStep.objects (hs : (P.mapCells Sum.inl).WeakStep s M θ a r t s' M') (c : C) :
    M'.accessed (.inr c) = M.accessed (.inr c) ∧ M'.written (.inr c) = M.written (.inr c) := by
  have htouch : ((M.touches θ ((P.mapCells Sum.inl).footprint s (θ, a)).plain).accessed (.inr c) =
      M.accessed (.inr c)) ∧
      (M.touches θ ((P.mapCells Sum.inl).footprint s (θ, a)).plain).written (.inr c) =
        M.written (.inr c) := by
    refine M.touches_accessed θ fun c' hc' => ?_
    obtain ⟨c₀, -, rfl⟩ := List.mem_map.1 hc'
    simp
  cases hs with
  | plain hf hs => exact htouch
  | load hf hm hr hs => exact htouch
  | store hf hs ht hfree => exact htouch
  | update hf hm hr hs ht => exact htouch

end Program

end Clients

end ReleaseAcquire

end Interleaving
