import AstraLib.Interleaving.System

/-!
# Release and acquire

Operational semantics of the memory orders `relaxed`, `acquire`, `release` and `acq_rel`.  A
location keeps all the messages that have been stored into it, and a thread may load any of them
that is not older than what it knows of.  A store may go between older messages, a read-modify-write
goes right behind the message that it has read (`Memory.Free`, `Memory.Behind`).  What a thread
knows is its `View`; a release store hands it over to the acquire loads that read the message.

A view also counts the plain accesses that come before.  Two plain accesses of a cell, one of them a
write, are a data race unless the first comes before the second (`Memory.Ordered`).

`Program.weak` runs a program on this memory: `Program.footprint` tells what a step does to the
locations and the cells, and each load is answered by a message.
-/

namespace Interleaving

namespace ReleaseAcquire

/-- `std::memory_order` -/
inductive MemoryOrder
  | relaxed
  | acquire
  | release
  | acq_rel
  deriving DecidableEq

def MemoryOrder.acquires : MemoryOrder → Bool
  | .acquire | .acq_rel => true
  | _ => false

def MemoryOrder.releases : MemoryOrder → Bool
  | .release | .acq_rel => true
  | _ => false

section Memory

variable {Tid Loc Cell V τ : Type*} [LinearOrder τ] [OrderBot τ]

/-- The number of plain accesses of each thread that come before, and the messages
behind which there is no going back. -/
structure View (Tid Loc τ : Type*) where
  clock : Tid → ℕ
  front : Loc → τ

namespace View

/-- Nothing is known. -/
def bot : View Tid Loc τ := ⟨fun _ => 0, fun _ => ⊥⟩

def join (v w : View Tid Loc τ) : View Tid Loc τ :=
  ⟨fun θ => max (v.clock θ) (w.clock θ), fun ℓ => max (v.front ℓ) (w.front ℓ)⟩

/-- No more than the message of location `ℓ` at time `t`. -/
def single [DecidableEq Loc] (ℓ : Loc) (t : τ) : View Tid Loc τ :=
  ⟨fun _ => 0, Function.update (fun _ => ⊥) ℓ t⟩

end View

/-- A value in a location. -/
structure Message (Tid Loc V τ : Type*) where
  value : V
  time : τ
  /-- there is no room between this time and `time` -/
  after : τ
  view : View Tid Loc τ

/-- The messages, what the threads know, and the last writes and accesses of each cell
by each thread. -/
structure Memory (Tid Loc Cell V τ : Type*) where
  history : Loc → List (Message Tid Loc V τ)
  view : Tid → View Tid Loc τ
  written : Cell → Tid → ℕ
  accessed : Cell → Tid → ℕ

/-- Plain accesses. -/
inductive Access
  | read
  | write
  deriving DecidableEq

namespace Memory

variable (M : Memory Tid Loc Cell V τ)

/-- The locations have been initialised, and this comes before everything. -/
def fresh (init : Loc → V) : Memory Tid Loc Cell V τ :=
  ⟨fun ℓ => [⟨init ℓ, ⊥, ⊥, .bot⟩], fun _ => .bot, fun _ _ => 0, fun _ _ => 0⟩

/-- The message is the newest one in its location. -/
def Newest (ℓ : Loc) (m : Message Tid Loc V τ) : Prop :=
  m ∈ M.history ℓ ∧ ∀ m' ∈ M.history ℓ, m' = m ∨ m'.time < m.time

/-- An access of cell `c` by thread `θ` is no data race: the conflicting ones come before it. -/
def Ordered (θ : Tid) (c : Cell) : Access → Prop
  | .read => ∀ θ', M.written c θ' ≤ (M.view θ).clock θ'
  | .write => ∀ θ', M.accessed c θ' ≤ (M.view θ).clock θ'

/-- There is room for a store at time `t`. -/
def Free (ℓ : Loc) (t : τ) : Prop := ∀ m ∈ M.history ℓ, t < m.after ∨ m.time < t

/-- There is room for a read-modify-write at time `t` that has read message `m`. -/
def Behind (ℓ : Loc) (m : Message Tid Loc V τ) (t : τ) : Prop :=
  m.time < t ∧ ∀ m' ∈ M.history ℓ, m'.time ≤ m.time ∨ t < m'.after

instance (ℓ : Loc) (t : τ) : Decidable (M.Free ℓ t) :=
  inferInstanceAs (Decidable (∀ m ∈ M.history ℓ, _))

instance (ℓ : Loc) (m : Message Tid Loc V τ) (t : τ) : Decidable (M.Behind ℓ m t) :=
  inferInstanceAs (Decidable (_ ∧ ∀ m' ∈ M.history ℓ, _))

variable [DecidableEq Tid]

/-- Thread `θ` knows `v`. -/
def setView (θ : Tid) (v : View Tid Loc τ) : Memory Tid Loc Cell V τ :=
  { M with view := Function.update M.view θ v }

/-- The view of thread `θ` after its next plain access. -/
def ticked (θ : Tid) : View Tid Loc τ :=
  { M.view θ with clock := Function.update (M.view θ).clock θ ((M.view θ).clock θ + 1) }

/-- A plain access of cell `c`. -/
def touch [DecidableEq Cell] (θ : Tid) (c : Cell) (x : Access) : Memory Tid Loc Cell V τ :=
  let n := (M.view θ).clock θ + 1
  { M.setView θ (M.ticked θ) with
    written := match x with
      | .read => M.written
      | .write => Function.update M.written c (Function.update (M.written c) θ n)
    accessed := Function.update M.accessed c (Function.update (M.accessed c) θ n) }

/-- Plain accesses one after another. -/
def touches [DecidableEq Cell] (θ : Tid) (l : List (Cell × Access)) : Memory Tid Loc Cell V τ :=
  l.foldl (fun M c => M.touch θ c.1 c.2) M

variable [DecidableEq Loc]

/-- The message at time `r`, if the thread may still load it. -/
def message? (θ : Tid) (ℓ : Loc) (r : τ) : Option (Message Tid Loc V τ) :=
  (M.history ℓ).find? fun m => m.time = r ∧ (M.view θ).front ℓ ≤ r

/-- Thread `θ` loads message `m`. -/
def load (o : MemoryOrder) (θ : Tid) (ℓ : Loc) (m : Message Tid Loc V τ) :
    Memory Tid Loc Cell V τ :=
  M.setView θ (((M.view θ).join (.single ℓ m.time)).join (if o.acquires then m.view else .bot))

/-- Thread `θ` adds a message. -/
def add (o : MemoryOrder) (θ : Tid) (ℓ : Loc) (x : V) (t after : τ) (base : View Tid Loc τ) :
    Memory Tid Loc Cell V τ :=
  let v := (M.view θ).join (.single ℓ t)
  { M.setView θ v with
    history := Function.update M.history ℓ
      (⟨x, t, after, (if o.releases then v else .single ℓ t).join base⟩ :: M.history ℓ) }

/-- Thread `θ` stores `x` at time `t`. -/
def store (o : MemoryOrder) (θ : Tid) (ℓ : Loc) (x : V) (t : τ) :
    Option (Memory Tid Loc Cell V τ) :=
  if (M.view θ).front ℓ < t ∧ M.Free ℓ t then some (M.add o θ ℓ x t t .bot) else none

/-- Thread `θ` reads message `m` and stores `x` right behind it, at time `t`. What `m`
has handed over is handed on. -/
def update (o : MemoryOrder) (θ : Tid) (ℓ : Loc) (m : Message Tid Loc V τ) (x : V) (t : τ) :
    Option (Memory Tid Loc Cell V τ) :=
  if M.Behind ℓ m t then some ((M.load o θ ℓ m).add o θ ℓ x t m.time m.view) else none

end Memory

/-! ### What the accesses do to the memory -/

namespace Memory

variable {M : Memory Tid Loc Cell V τ} {ℓ ℓ' : Loc} {m m' : Message Tid Loc V τ} {θ θ' : Tid}
  {t : τ}

omit [OrderBot τ] in
theorem Newest.unique (h : M.Newest ℓ m) (h' : M.Newest ℓ m') : m' = m :=
  (h.2 m' h'.1).resolve_right fun hlt => by
    rcases h'.2 m h.1 with rfl | hlt'
    · exact lt_irrefl _ hlt
    · exact lt_asymm hlt hlt'

omit [OrderBot τ] in
theorem Newest.time_le (h : M.Newest ℓ m) (hm : m' ∈ M.history ℓ) : m'.time ≤ m.time := by
  rcases h.2 m' hm with rfl | hlt
  · exact le_rfl
  · exact hlt.le

omit [OrderBot τ] in
theorem Newest.congr {M' : Memory Tid Loc Cell V τ} (h : M.Newest ℓ m)
    (heq : M'.history ℓ = M.history ℓ) : M'.Newest ℓ m := by
  unfold Newest
  rw [heq]
  exact h

section Touches

variable [DecidableEq Tid] [DecidableEq Cell]

omit [LinearOrder τ] [OrderBot τ] in
@[simp] theorem touches_history (l : List (Cell × Access)) :
    (M.touches θ l).history = M.history := by
  induction l generalizing M with
  | nil => rfl
  | cons c l ih => exact ih

omit [LinearOrder τ] [OrderBot τ] in
@[simp] theorem touches_front (l : List (Cell × Access)) :
    ((M.touches θ l).view θ').front = (M.view θ').front := by
  induction l generalizing M with
  | nil => rfl
  | cons c l ih =>
    refine ih.trans ?_
    by_cases hθ : θ' = θ
    · subst hθ
      simp [touch, setView, ticked]
    · exact congrArg View.front (Function.update_of_ne hθ _ _)

end Touches

section Messages

variable [DecidableEq Tid] [DecidableEq Loc] {o : MemoryOrder} {x : V} {after : τ}
  {base : View Tid Loc τ}

@[simp] theorem load_history : (M.load o θ ℓ m).history = M.history := rfl

theorem load_view_of_ne (hne : θ' ≠ θ) : (M.load o θ ℓ m).view θ' = M.view θ' :=
  Function.update_of_ne hne _ _

theorem le_load_clock (θ'' : Tid) :
    (M.view θ').clock θ'' ≤ ((M.load o θ ℓ m).view θ').clock θ'' := by
  by_cases hθ : θ' = θ
  · subst hθ
    simp [load, setView, View.join]
  · rw [load_view_of_ne hθ]

theorem le_load_front (ℓ'' : Loc) :
    (M.view θ').front ℓ'' ≤ ((M.load o θ ℓ m).view θ').front ℓ'' := by
  by_cases hθ : θ' = θ
  · subst hθ
    simp [load, setView, View.join]
  · rw [load_view_of_ne hθ]

theorem time_le_load_front : m.time ≤ ((M.load o θ ℓ m).view θ).front ℓ := by
  simp [load, setView, View.join, View.single]

/-- An acquire load takes over what the message hands over. -/
theorem load_clock_of_acquires (ho : o.acquires = true) (θ' : Tid) :
    m.view.clock θ' ≤ ((M.load o θ ℓ m).view θ).clock θ' := by
  simp [load, setView, View.join, ho]

theorem add_view_of_ne (hne : θ' ≠ θ) : (M.add o θ ℓ x t after base).view θ' = M.view θ' :=
  Function.update_of_ne hne _ _

@[simp] theorem add_clock : ((M.add o θ ℓ x t after base).view θ').clock = (M.view θ').clock := by
  by_cases hθ : θ' = θ
  · subst hθ
    simp [add, setView, View.join, View.single]
  · rw [add_view_of_ne hθ]

theorem le_add_front (ℓ'' : Loc) :
    (M.view θ').front ℓ'' ≤ ((M.add o θ ℓ x t after base).view θ').front ℓ'' := by
  by_cases hθ : θ' = θ
  · subst hθ
    simp [add, setView, View.join]
  · rw [add_view_of_ne hθ]

theorem time_le_add_front : t ≤ ((M.add o θ ℓ x t after base).view θ).front ℓ := by
  simp [add, setView, View.join, View.single]

theorem add_history_of_ne (hne : ℓ' ≠ ℓ) : (M.add o θ ℓ x t after base).history ℓ' = M.history ℓ' :=
  Function.update_of_ne hne _ _

theorem mem_add_history : m ∈ (M.add o θ ℓ x t after base).history ℓ ↔
    (m.value = x ∧ m.time = t ∧ m.after = after ∧
      m.view = (if o.releases then (M.view θ).join (.single ℓ t) else .single ℓ t).join base) ∨
      m ∈ M.history ℓ := by
  obtain ⟨value, time, after', view⟩ := m
  simp [add, setView]

end Messages

/-! ### The newest messages -/

/-- Every location has a newest message, and it has the value `f ℓ`. -/
structure Sound (M : Memory Tid Loc Cell V τ) (f : Loc → V) : Prop where
  newest : ∀ ℓ, ∃ m, M.Newest ℓ m ∧ m.value = f ℓ
  after_le : ∀ ℓ, ∀ m ∈ M.history ℓ, m.after ≤ m.time

theorem sound_fresh (f : Loc → V) : (fresh f : Memory Tid Loc Cell V τ).Sound f := by
  constructor
  · intro ℓ
    exact ⟨⟨f ℓ, ⊥, ⊥, .bot⟩, ⟨by simp [fresh], by simp [fresh]⟩, rfl⟩
  · intro ℓ m hm
    obtain rfl : m = _ := List.mem_singleton.1 hm
    exact le_rfl

omit [OrderBot τ] in
theorem Sound.value_eq {f : Loc → V} (h : M.Sound f) (hm : M.Newest ℓ m) : m.value = f ℓ := by
  obtain ⟨m₀, hm₀, hv⟩ := h.newest ℓ
  obtain rfl := hm.unique hm₀
  exact hv

omit [OrderBot τ] in
theorem Sound.congr {M' : Memory Tid Loc Cell V τ} {f : Loc → V} (h : M.Sound f)
    (heq : M'.history = M.history) : M'.Sound f := by
  refine ⟨fun ℓ => ?_, fun ℓ => heq ▸ h.after_le ℓ⟩
  obtain ⟨m, hm, hv⟩ := h.newest ℓ
  exact ⟨m, hm.congr (congrFun heq ℓ), hv⟩

omit [OrderBot τ] in
theorem Sound.free {f : Loc → V} (h : M.Sound f) (hfree : M.Free ℓ t) :
    ∀ m ∈ M.history ℓ, t < m.time ∨ m.time < t := fun m hm =>
  (hfree m hm).imp (fun hlt => hlt.trans_le (h.after_le ℓ m hm)) id

omit [OrderBot τ] in
theorem Sound.behind {f : Loc → V} (h : M.Sound f) (hb : M.Behind ℓ m t) :
    ∀ m' ∈ M.history ℓ, t < m'.time ∨ m'.time < t := fun m' hm' =>
  (hb.2 m' hm').elim (fun hle => Or.inr (hle.trans_lt hb.1))
    fun hlt => Or.inl (hlt.trans_le (h.after_le ℓ m' hm'))

omit [OrderBot τ] in
/-- A read-modify-write reads the newest message, or it puts its own below that one. -/
theorem Sound.newest_or_below {f : Loc → V} (h : M.Sound f) (hm : m ∈ M.history ℓ)
    (hb : M.Behind ℓ m t) : M.Newest ℓ m ∨ ∃ m₀, M.Newest ℓ m₀ ∧ t < m₀.time := by
  obtain ⟨m₀, hm₀, -⟩ := h.newest ℓ
  rcases hm₀.2 m hm with rfl | hlt
  · exact Or.inl hm₀
  · refine Or.inr ⟨m₀, hm₀, ?_⟩
    exact ((hb.2 m₀ hm₀.1).resolve_left (not_le.2 hlt)).trans_le (h.after_le ℓ m₀ hm₀.1)

section Add

variable [DecidableEq Tid] [DecidableEq Loc] {o : MemoryOrder} {x : V} {after : τ}
  {base : View Tid Loc τ}

/-- A message with a greater time than the others is the newest one. -/
theorem newest_add (htop : ∀ m ∈ M.history ℓ, m.time < t) (θ : Tid) (o : MemoryOrder) (x : V)
    (after : τ) (base : View Tid Loc τ) :
    ∃ m, (M.add o θ ℓ x t after base).Newest ℓ m ∧ m.value = x ∧ m.time = t ∧ m.after = after := by
  refine ⟨⟨x, t, after, _⟩, ⟨mem_add_history.2 (Or.inl ⟨rfl, rfl, rfl, rfl⟩), fun m' hm' => ?_⟩,
    rfl, rfl, rfl⟩
  rcases mem_add_history.1 hm' with ⟨hx, ht, ha, hv⟩ | hold
  · left
    obtain ⟨value, time, after', view⟩ := m'
    simp only at hx ht ha hv
    subst hx ht ha hv
    rfl
  · exact Or.inr (htop m' hold)

/-- A message is that one, or it has been there before. -/
theorem newest_or_mem_of_add (htop : ∀ m ∈ M.history ℓ, m.time < t)
    (hm : m ∈ (M.add o θ ℓ x t after base).history ℓ) :
    (M.add o θ ℓ x t after base).Newest ℓ m ∨ m ∈ M.history ℓ := by
  obtain ⟨m₁, hm₁, -, htime, -⟩ := newest_add htop θ o x after base
  refine (mem_add_history.1 hm).imp (fun hnew => ?_) id
  rcases hm₁.2 m hm with rfl | hlt
  · exact hm₁
  · exact absurd hlt (by rw [hnew.2.1, htime]; exact lt_irrefl t)

theorem Newest.view_of_add (hm : (M.add o θ ℓ x t after base).Newest ℓ m)
    (htop : ∀ m ∈ M.history ℓ, m.time < t) :
    m.view = (if o.releases then (M.view θ).join (.single ℓ t) else .single ℓ t).join base := by
  rcases mem_add_history.1 hm.1 with ⟨-, -, -, hv⟩ | hold
  · exact hv
  · -- the new message is newer
    obtain ⟨m₁, hm₁, -, htime, -⟩ := newest_add htop θ o x after base
    exact absurd (htop m hold) (not_lt.2 (htime ▸ hm.time_le hm₁.1))

theorem Newest.add_of_lt (h : M.Newest ℓ m) (hlt : t < m.time) :
    (M.add o θ ℓ x t after base).Newest ℓ m := by
  refine ⟨mem_add_history.2 (Or.inr h.1), fun m' hm' => ?_⟩
  rcases mem_add_history.1 hm' with ⟨-, ht, -, -⟩ | hold
  · exact Or.inr (ht ▸ hlt)
  · exact h.2 m' hold

theorem Sound.add {f : Loc → V} (h : M.Sound f) (hfree : ∀ m ∈ M.history ℓ, t < m.time ∨ m.time < t)
    (ht : after ≤ t) (θ : Tid) (o : MemoryOrder) (x : V) (base : View Tid Loc τ) :
    (M.add o θ ℓ x t after base).Sound
      (if ∀ m ∈ M.history ℓ, m.time < t then Function.update f ℓ x else f) := by
  constructor
  · intro ℓ'
    by_cases hℓ : ℓ' = ℓ
    · subst hℓ
      split_ifs with htop
      · obtain ⟨m, hm, hx, -⟩ := newest_add htop θ o x after base
        exact ⟨m, hm, by rw [hx, Function.update_self]⟩
      · obtain ⟨m, hm, hv⟩ := h.newest ℓ'
        refine ⟨m, hm.add_of_lt ((hfree m hm.1).resolve_right fun hlt => htop fun m' hm' => ?_), hv⟩
        exact (hm.time_le hm').trans_lt hlt
    · obtain ⟨m, hm, hv⟩ := h.newest ℓ'
      refine ⟨m, hm.congr (add_history_of_ne hℓ), hv.trans ?_⟩
      split_ifs
      · exact (Function.update_of_ne hℓ _ _).symm
      · rfl
  · intro ℓ' m' hm'
    by_cases hℓ : ℓ' = ℓ
    · subst hℓ
      rcases mem_add_history.1 hm' with ⟨-, h₁, h₂, -⟩ | hold
      · rw [h₁, h₂]
        exact ht
      · exact h.after_le ℓ' m' hold
    · rw [add_history_of_ne hℓ] at hm'
      exact h.after_le ℓ' m' hm'

end Add

/-! ### Threads that know all messages -/

/-- The thread knows of all messages of the location. -/
def UpToDate (M : Memory Tid Loc Cell V τ) (θ : Tid) (ℓ : Loc) : Prop :=
  ∀ m ∈ M.history ℓ, m.time ≤ (M.view θ).front ℓ

namespace UpToDate

omit [OrderBot τ] in
theorem touches [DecidableEq Tid] [DecidableEq Cell] (h : M.UpToDate θ ℓ)
    (l : List (Cell × Access)) : (M.touches θ' l).UpToDate θ ℓ := by
  intro m hm
  rw [touches_history] at hm
  rw [touches_front]
  exact h m hm

variable [DecidableEq Tid] [DecidableEq Loc] {o : MemoryOrder} {x : V} {after : τ}
  {base : View Tid Loc τ}

theorem load (h : M.UpToDate θ ℓ) : (M.load o θ' ℓ' m).UpToDate θ ℓ :=
  fun m' hm' => (h m' hm').trans (le_load_front ℓ)

theorem of_load (hm : M.Newest ℓ m) : (M.load o θ ℓ m).UpToDate θ ℓ :=
  fun _ hm' => (hm.time_le hm').trans time_le_load_front

theorem add_of_ne (h : M.UpToDate θ ℓ) (hne : ℓ ≠ ℓ') :
    (M.add o θ' ℓ' x t after base).UpToDate θ ℓ := by
  intro m' hm'
  rw [add_history_of_ne hne] at hm'
  exact (h m' hm').trans (le_add_front ℓ)

omit [OrderBot τ] [DecidableEq Tid] [DecidableEq Loc] in
theorem lt_of_front_lt (h : M.UpToDate θ ℓ) (ht : (M.view θ).front ℓ < t) :
    ∀ m ∈ M.history ℓ, m.time < t :=
  fun m hm => (h m hm).trans_lt ht

end UpToDate

/-! ### Messages with a successor -/

/-- Each message with property `P` but the newest has a successor that leaves no room between. If
only read-modify-writes change the location, all messages are chained. -/
def Chained (M : Memory Tid Loc Cell V τ) (ℓ : Loc) (P : Message Tid Loc V τ → Prop) : Prop :=
  ∀ m ∈ M.history ℓ, P m → M.Newest ℓ m ∨ ∃ m' ∈ M.history ℓ, m'.after = m.time ∧ m.time < m'.time

section Chained

variable {P : Message Tid Loc V τ → Prop}

omit [OrderBot τ] in
/-- A read-modify-write of a chained message reads the newest one. -/
theorem Chained.newest_of_behind (h : M.Chained ℓ P) (hm : m ∈ M.history ℓ) (hP : P m)
    (ht : M.Behind ℓ m t) : M.Newest ℓ m := by
  refine (h m hm hP).resolve_right ?_
  rintro ⟨m', hm', hafter, hlt⟩
  rcases ht.2 m' hm' with hle | hlt'
  · exact absurd hlt (not_lt.2 hle)
  · rw [hafter] at hlt'
    exact lt_asymm ht.1 hlt'

omit [OrderBot τ] in
/-- There is no room behind one of the messages, if these are chained, but on top of them. -/
theorem Chained.top_of_free {b : τ} (h : M.Chained ℓ fun m => b ≤ m.time) (hm : m ∈ M.history ℓ)
    (hb : m.time = b) (ht : b < t) (hfree : M.Free ℓ t) : ∀ m' ∈ M.history ℓ, m'.time < t := by
  classical
  -- the last one before `t` is the newest
  obtain ⟨m₁, hm₁, hmax⟩ :=
    ((M.history ℓ).toFinset.filter fun m' => m'.time < t).exists_max_image Message.time
    ⟨m, by simp [hm, hb, ht]⟩
  simp only [Finset.mem_filter, List.mem_toFinset] at hm₁ hmax
  have hle : b ≤ m₁.time := hb ▸ hmax m ⟨hm, hb ▸ ht⟩
  rcases h m₁ hm₁.1 hle with hn | ⟨m₂, hm₂, hafter, hlt⟩
  · exact fun m' hm' => (hn.time_le hm').trans_lt hm₁.2
  · rcases hfree m₂ hm₂ with hlt' | hlt'
    · rw [hafter] at hlt'
      exact absurd hlt' (lt_asymm hm₁.2)
    · exact absurd (hmax m₂ ⟨hm₂, hlt'⟩) (not_le.2 hlt)

theorem chained_fresh (f : Loc → V) (P : Message Tid Loc V τ → Prop) :
    (fresh f : Memory Tid Loc Cell V τ).Chained ℓ P := by
  intro m hm _
  refine Or.inl ⟨hm, fun m' hm' => Or.inl ?_⟩
  rw [List.mem_singleton.1 hm, List.mem_singleton.1 hm']

omit [OrderBot τ] in
theorem Chained.congr {M' : Memory Tid Loc Cell V τ} (h : M.Chained ℓ P)
    (heq : M'.history ℓ = M.history ℓ) : M'.Chained ℓ P := by
  intro m hm hP
  rw [heq] at hm ⊢
  exact (h m hm hP).imp (fun hn => hn.congr heq) id

variable [DecidableEq Tid] [DecidableEq Loc] {o : MemoryOrder} {x : V} {after : τ}
  {base : View Tid Loc τ}

/-- A message on top of those that are chained or without the property. -/
theorem Chained.add_top (h : M.Chained ℓ P) (htop : ∀ m ∈ M.history ℓ, m.time < t)
    (hlast : ∀ m, M.Newest ℓ m → P m → after = m.time) :
    (M.add o θ ℓ x t after base).Chained ℓ P := by
  obtain ⟨m₁, hm₁, -, htime, hafter⟩ := newest_add htop θ o x after base
  intro m' hm' hP
  rcases newest_or_mem_of_add htop hm' with hnew | hold
  · exact Or.inl hnew
  · right
    rcases h m' hold hP with hn | ⟨m₂, hm₂, hafter₂, hlt⟩
    · exact ⟨m₁, hm₁.1, hafter.trans (hlast m' hn hP), by rw [htime]; exact htop m' hold⟩
    · exact ⟨m₂, mem_add_history.2 (Or.inr hm₂), hafter₂, hlt⟩

/-- From the newest message on there is only one. -/
theorem chained_add (htop : ∀ m ∈ M.history ℓ, m.time < t) :
    (M.add o θ ℓ x t after base).Chained ℓ fun m => t ≤ m.time := fun m hm hle =>
  (newest_or_mem_of_add htop hm).imp id fun hold => absurd (htop m hold) (not_lt.2 hle)

/-- A message without the property, below the newest one. -/
theorem Chained.add_below (h : M.Chained ℓ P) (hm : M.Newest ℓ m) (hlt : t < m.time)
    (hP : ∀ m', m'.value = x → m'.time = t → ¬ P m') :
    (M.add o θ ℓ x t after base).Chained ℓ P := by
  intro m' hm' hP'
  rcases mem_add_history.1 hm' with ⟨hx, ht, -, -⟩ | hold
  · exact absurd hP' (hP m' hx ht)
  · refine (h m' hold hP').imp (fun hn => ?_) ?_
    · obtain rfl := hm.unique hn
      exact hn.add_of_lt hlt
    · rintro ⟨m₂, hm₂, hafter₂, hlt₂⟩
      exact ⟨m₂, mem_add_history.2 (Or.inr hm₂), hafter₂, hlt₂⟩

/-- A read-modify-write of the newest message keeps all chains. -/
theorem Chained.update (h : M.Chained ℓ' P) (hm : M.Newest ℓ m) (ht : m.time < t) :
    ((M.load o θ ℓ m).add o θ ℓ x t m.time m.view).Chained ℓ' P := by
  have hload : (M.load o θ ℓ m).Chained ℓ' P := h.congr rfl
  by_cases hℓ : ℓ' = ℓ
  · subst hℓ
    refine hload.add_top (fun m' hm' => (hm.time_le hm').trans_lt ht) fun m' hn _ => ?_
    rw [(hm.congr rfl).unique hn]
  · exact hload.congr (add_history_of_ne hℓ)

end Chained

end Memory

end Memory

/-! ### Programs -/

/-- The access of a step to a location. -/
inductive Atomic (Loc : Type*)
  | load (o : MemoryOrder) (ℓ : Loc)
  | store (o : MemoryOrder) (ℓ : Loc)
  /-- read-modify-write -/
  | update (o : MemoryOrder) (ℓ : Loc)

/-- The accesses of a step: some to plain cells, and then one to a location, if any. -/
structure Footprint (Loc Cell : Type*) where
  plain : List (Cell × Access)
  atomic : Option (Atomic Loc)

/-- A program for sequentially consistent memory. `get` and `set` are the locations of a state. -/
structure Program (σ Tid α Loc Cell V : Type*) where
  init : σ → Prop
  step : σ → Tid × α → Option σ
  get : σ → Loc → V
  set : σ → Loc → V → σ
  footprint : σ → Tid × α → Footprint Loc Cell

namespace Program

variable {σ Tid α Loc Cell V τ : Type*} (P : Program σ Tid α Loc Cell V)

/-- The program on sequentially consistent memory. -/
def system : System σ (Tid × α) := .ofFun P.init P.step

/-- The locations of a state are independent of one another, and a step changes those
that its footprint names. -/
structure Lawful : Prop where
  get_set_self : ∀ s ℓ x, P.get (P.set s ℓ x) ℓ = x
  get_set_of_ne : ∀ s ℓ ℓ' x, ℓ' ≠ ℓ → P.get (P.set s ℓ x) ℓ' = P.get s ℓ'
  set_get : ∀ s ℓ, P.set s ℓ (P.get s ℓ) = s
  set_set : ∀ s ℓ x y, P.set (P.set s ℓ x) ℓ y = P.set s ℓ y
  /-- a step that stores into no location leaves all as they are -/
  keeps : ∀ s b s', P.step s b = some s' → (∀ o ℓ, (P.footprint s b).atomic ≠ some (.store o ℓ)) →
    (∀ o ℓ, (P.footprint s b).atomic ≠ some (.update o ℓ)) → ∀ ℓ, P.get s' ℓ = P.get s ℓ
  keeps_others : ∀ s b s' o ℓ, P.step s b = some s' → (P.footprint s b).atomic = some (.store o ℓ) ∨
    (P.footprint s b).atomic = some (.update o ℓ) → ∀ ℓ', ℓ' ≠ ℓ → P.get s' ℓ' = P.get s ℓ'
  /-- the values of the locations do not matter to the footprint -/
  footprint_set : ∀ s b ℓ x, P.footprint (P.set s ℓ x) b = P.footprint s b

variable [LinearOrder τ] [OrderBot τ] [DecidableEq Tid] [DecidableEq Loc] [DecidableEq Cell]

/-- A state shows the newest value of each location: it keeps `s'` if the store into `ℓ` at time `t`
is newer than the other messages. -/
def settle (M : Memory Tid Loc Cell V τ) (s s' : σ) (ℓ : Loc) (t : τ) : σ :=
  if ∀ m ∈ M.history ℓ, m.time < t then s' else P.set s' ℓ (P.get s ℓ)

/-- A step on weak memory. A load is answered by the message at time `b.2.1`, a store
goes to time `b.2.2`. -/
def weakStep (w : σ × Memory Tid Loc Cell V τ) (b : (Tid × α) × τ × τ) :
    Option (σ × Memory Tid Loc Cell V τ) :=
  let θ := b.1.1
  let M := w.2.touches θ (P.footprint w.1 b.1).plain
  match (P.footprint w.1 b.1).atomic with
  | none => (P.step w.1 b.1).map fun s => (s, M)
  | some (.load o ℓ) =>
      (M.message? θ ℓ b.2.1).bind fun m => (P.step (P.set w.1 ℓ m.value) b.1).map fun s =>
        (P.set s ℓ (P.get w.1 ℓ), M.load o θ ℓ m)
  | some (.store o ℓ) =>
      (P.step w.1 b.1).bind fun s => (M.store o θ ℓ (P.get s ℓ) b.2.2).map fun M' =>
        (P.settle M w.1 s ℓ b.2.2, M')
  | some (.update o ℓ) =>
      (M.message? θ ℓ b.2.1).bind fun m => (P.step (P.set w.1 ℓ m.value) b.1).bind fun s =>
        (M.update o θ ℓ m (P.get s ℓ) b.2.2).map fun M' => (P.settle M w.1 s ℓ b.2.2, M')

/-- The program on weak memory. -/
def weak (τ : Type*) [LinearOrder τ] [OrderBot τ] :
    System (σ × Memory Tid Loc Cell V τ) ((Tid × α) × τ × τ) :=
  .ofFun (fun w => P.init w.1 ∧ w.2 = .fresh (P.get w.1)) P.weakStep

/-- The steps on weak memory. -/
inductive WeakStep (s : σ) (M : Memory Tid Loc Cell V τ) (θ : Tid) (a : α) :
    τ → τ → σ → Memory Tid Loc Cell V τ → Prop
  | plain {s' : σ} {r t : τ} (hf : (P.footprint s (θ, a)).atomic = none)
    (hs : P.step s (θ, a) = some s') :
      WeakStep s M θ a r t s' (M.touches θ (P.footprint s (θ, a)).plain)
  | load {o : MemoryOrder} {ℓ : Loc} {m : Message Tid Loc V τ} {s' : σ} {t : τ}
      (hf : (P.footprint s (θ, a)).atomic = some (.load o ℓ)) (hm : m ∈ M.history ℓ)
      (hr : (M.view θ).front ℓ ≤ m.time) (hs : P.step (P.set s ℓ m.value) (θ, a) = some s') :
      WeakStep s M θ a m.time t (P.set s' ℓ (P.get s ℓ))
        ((M.touches θ (P.footprint s (θ, a)).plain).load o θ ℓ m)
  | store {o : MemoryOrder} {ℓ : Loc} {s' : σ} {r t : τ}
    (hf : (P.footprint s (θ, a)).atomic = some (.store o ℓ))
      (hs : P.step s (θ, a) = some s') (ht : (M.view θ).front ℓ < t) (hfree : M.Free ℓ t) :
      WeakStep s M θ a r t (P.settle M s s' ℓ t)
        ((M.touches θ (P.footprint s (θ, a)).plain).add o θ ℓ (P.get s' ℓ) t t .bot)
  | update {o : MemoryOrder} {ℓ : Loc} {m : Message Tid Loc V τ} {s' : σ} {t : τ}
      (hf : (P.footprint s (θ, a)).atomic = some (.update o ℓ)) (hm : m ∈ M.history ℓ)
      (hr : (M.view θ).front ℓ ≤ m.time) (hs : P.step (P.set s ℓ m.value) (θ, a) = some s')
      (ht : M.Behind ℓ m t) : WeakStep s M θ a m.time t (P.settle M s s' ℓ t)
        (((M.touches θ (P.footprint s (θ, a)).plain).load o θ ℓ m).add o θ ℓ
          (P.get s' ℓ) t m.time m.view)

variable {P} {s s' : σ} {M M' : Memory Tid Loc Cell V τ} {θ : Tid} {a : α} {r t : τ}

theorem weakStep_cases (h : P.weakStep (s, M) ((θ, a), r, t) = some (s', M')) :
    P.WeakStep s M θ a r t s' M' := by
  have hmsg : ∀ {ℓ m}, (M.touches θ (P.footprint s (θ, a)).plain).message? θ ℓ r = some m →
      m ∈ M.history ℓ ∧ m.time = r ∧ (M.view θ).front ℓ ≤ m.time := by
    intro ℓ m hm
    have hmem := List.mem_of_find?_eq_some hm
    have hp := List.find?_some hm
    rw [Memory.touches_history] at hmem
    simp only [Memory.touches_front, Bool.decide_and, Bool.and_eq_true, decide_eq_true_eq] at hp
    exact ⟨hmem, hp.1, hp.1 ▸ hp.2⟩
  unfold weakStep at h
  split at h
  next hf =>
    obtain ⟨s₁, hs, heq⟩ := Option.map_eq_some_iff.1 h
    cases heq
    exact .plain hf hs
  next o ℓ hf =>
    obtain ⟨m, hm, h⟩ := Option.bind_eq_some_iff.1 h
    obtain ⟨s₁, hs, heq⟩ := Option.map_eq_some_iff.1 h
    cases heq
    obtain ⟨hmem, rfl, hr⟩ := hmsg hm
    exact .load hf hmem hr hs
  next o ℓ hf =>
    obtain ⟨s₁, hs, h⟩ := Option.bind_eq_some_iff.1 h
    obtain ⟨M₁, hM, heq⟩ := Option.map_eq_some_iff.1 h
    cases heq
    unfold Memory.store at hM
    split_ifs at hM with ht
    cases hM
    rw [Memory.touches_front, Memory.Free, Memory.touches_history] at ht
    have hsettle : P.settle (M.touches θ (P.footprint s (θ, a)).plain) s s₁ ℓ t =
        P.settle M s s₁ ℓ t := by
      unfold settle
      rw [Memory.touches_history]
    rw [hsettle]
    exact .store hf hs ht.1 ht.2
  next o ℓ hf =>
    obtain ⟨m, hm, h⟩ := Option.bind_eq_some_iff.1 h
    obtain ⟨s₁, hs, h⟩ := Option.bind_eq_some_iff.1 h
    obtain ⟨M₁, hM, heq⟩ := Option.map_eq_some_iff.1 h
    cases heq
    obtain ⟨hmem, rfl, hr⟩ := hmsg hm
    unfold Memory.update at hM
    split_ifs at hM with ht
    cases hM
    rw [Memory.Behind, Memory.touches_history] at ht
    have hsettle : P.settle (M.touches θ (P.footprint s (θ, a)).plain) s s₁ ℓ t =
        P.settle M s s₁ ℓ t := by
      unfold settle
      rw [Memory.touches_history]
    rw [hsettle]
    exact .update hf hmem hr hs ht

omit [OrderBot τ] [DecidableEq Tid] [DecidableEq Cell] in
/-- A step shows the newest values again. -/
theorem settle_get (hP : P.Lawful) {s₀ : σ} {o : MemoryOrder} {ℓ : Loc}
    (hs : P.step s₀ (θ, a) = some s')
    (hf : (P.footprint s₀ (θ, a)).atomic = some (.store o ℓ) ∨
      (P.footprint s₀ (θ, a)).atomic = some (.update o ℓ))
    (hget : ∀ ℓ', ℓ' ≠ ℓ → P.get s₀ ℓ' = P.get s ℓ') :
    P.get (P.settle M s s' ℓ t) =
      if ∀ m ∈ M.history ℓ, m.time < t then Function.update (P.get s) ℓ (P.get s' ℓ)
      else P.get s := by
  have hothers : ∀ ℓ', ℓ' ≠ ℓ → P.get s' ℓ' = P.get s ℓ' := fun ℓ' hne =>
    (hP.keeps_others s₀ (θ, a) s' o ℓ hs hf ℓ' hne).trans (hget ℓ' hne)
  funext ℓ'
  unfold settle
  split_ifs
  · by_cases hℓ : ℓ' = ℓ
    · subst hℓ
      rw [Function.update_self]
    · rw [Function.update_of_ne hℓ, hothers ℓ' hℓ]
  · by_cases hℓ : ℓ' = ℓ
    · subst hℓ
      exact hP.get_set_self _ _ _
    · rw [hP.get_set_of_ne _ _ _ _ hℓ, hothers ℓ' hℓ]

omit [DecidableEq Tid] [DecidableEq Cell] in
/-- A load does not change what a state shows. -/
theorem load_get (hP : P.Lawful) {o : MemoryOrder} {ℓ : Loc} {x : V}
    (hf : (P.footprint s (θ, a)).atomic = some (.load o ℓ))
    (hs : P.step (P.set s ℓ x) (θ, a) = some s') : P.get (P.set s' ℓ (P.get s ℓ)) = P.get s := by
  rw [← hP.footprint_set s (θ, a) ℓ x] at hf
  funext ℓ'
  by_cases hℓ : ℓ' = ℓ
  · subst hℓ
    exact hP.get_set_self _ _ _
  · rw [hP.get_set_of_ne _ _ _ _ hℓ, hP.keeps _ _ _ hs (by simp [hf]) (by simp [hf]),
      hP.get_set_of_ne _ _ _ _ hℓ]

omit [DecidableEq Tid] [DecidableEq Loc] [DecidableEq Cell] [OrderBot τ] in
/-- A load of the newest message, or a read-modify-write, reads what the state shows. -/
theorem set_newest (hP : P.Lawful) {ℓ : Loc} {m : Message Tid Loc V τ} (h : M.Sound (P.get s))
    (hm : M.Newest ℓ m) : P.set s ℓ m.value = s := by
  rw [h.value_eq hm]
  exact hP.set_get s ℓ

omit [DecidableEq Tid] [DecidableEq Loc] [DecidableEq Cell] [OrderBot τ] in
theorem set_of_load_newest (hP : P.Lawful) {o : MemoryOrder} {ℓ : Loc} {m : Message Tid Loc V τ}
    (h : M.Sound (P.get s)) (hm : M.Newest ℓ m)
    (hf : (P.footprint s (θ, a)).atomic = some (.load o ℓ))
    (hs : P.step (P.set s ℓ m.value) (θ, a) = some s') :
    P.step s (θ, a) = some s' ∧ P.set s' ℓ (P.get s ℓ) = s' := by
  rw [set_newest hP h hm] at hs
  refine ⟨hs, ?_⟩
  rw [← hP.keeps s (θ, a) s' hs (by simp [hf]) (by simp [hf]) ℓ]
  exact hP.set_get s' ℓ

omit [DecidableEq Tid] [DecidableEq Loc] [DecidableEq Cell] [OrderBot τ] in
theorem settle_of_top {ℓ : Loc} (htop : ∀ m ∈ M.history ℓ, m.time < t) : P.settle M s s' ℓ t = s' :=
  if_pos htop

/-- **The state of the program shows the newest values.** -/
theorem WeakStep.sound (hP : P.Lawful) (h : M.Sound (P.get s)) (hs : P.WeakStep s M θ a r t s' M') :
    M'.Sound (P.get s') := by
  have htouch : (M.touches θ (P.footprint s (θ, a)).plain).Sound (P.get s) :=
    h.congr (Memory.touches_history _)
  cases hs with
  | plain hf hs =>
    have hget : P.get s' = P.get s := funext (hP.keeps s (θ, a) s' hs (by simp [hf]) (by simp [hf]))
    rw [hget]
    exact htouch
  | load hf hm hr hs =>
    rw [load_get hP hf hs]
    exact htouch.congr rfl
  | @store o ℓ s₁ _ _ hf hs ht hfree =>
    have hfree' : ∀ m ∈ (M.touches θ (P.footprint s (θ, a)).plain).history ℓ, t < m.time ∨
        m.time < t := by
      rw [Memory.touches_history]
      exact h.free hfree
    have hadd := htouch.add hfree' (le_refl t) θ o (P.get s₁ ℓ) .bot
    rw [Memory.touches_history] at hadd
    rw [settle_get hP hs (Or.inl hf) fun _ _ => rfl]
    exact hadd
  | @update o ℓ m s₁ _ hf hm hr hs ht =>
    have hload : ((M.touches θ (P.footprint s (θ, a)).plain).load o θ ℓ m).Sound (P.get s) :=
      htouch.congr rfl
    have hfree : ∀ m' ∈ ((M.touches θ (P.footprint s (θ, a)).plain).load o θ ℓ m).history ℓ,
        t < m'.time ∨ m'.time < t := by
      rw [Memory.load_history, Memory.touches_history]
      exact h.behind ht
    have hadd := hload.add hfree ht.1.le θ o (P.get s₁ ℓ) m.view
    rw [Memory.load_history, Memory.touches_history] at hadd
    rw [← hP.footprint_set s (θ, a) ℓ m.value] at hf
    rw [settle_get hP hs (Or.inr hf) fun ℓ' hne => hP.get_set_of_ne _ _ _ _ hne]
    exact hadd

end Program

end ReleaseAcquire

end Interleaving
