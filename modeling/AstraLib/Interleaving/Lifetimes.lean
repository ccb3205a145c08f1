import AstraLib.Interleaving.System

/-!
# Lifetimes of the objects in an array

The objects in a fixed array of storage locations, each of them live or dead.  A step of a
program does something to some of them: it assigns to one or moves from it, destroys it, or
constructs it anew in its place.  `Lifetimes` keeps the account, and `Accounted` says that the
account is in order along every run.

The rule is `accounted_of_follows`.  It asks for the set of live objects as a function of the state
alone, and that each step changes it as its events say.
-/

namespace Interleaving

/-- What a step does to the object in location `i`. -/
inductive ObjectEvent
  /-- it is assigned to or moved from -/
  | use (i : ℕ)
  | destroy (i : ℕ)
  /-- a part of the construction of a new object, which goes on after it -/
  | build (i : ℕ)
  /-- the end of the construction -/
  | construct (i : ℕ)

/-- The live objects, and how many have been constructed and destroyed so far. -/
structure Lifetimes where
  live : Finset ℕ
  constructed : ℕ
  destroyed : ℕ

namespace ObjectEvent

/-- A dead object is not used and not destroyed, and nothing is constructed over a live one. -/
def Legal (live : ℕ → Prop) : ObjectEvent → Prop
  | use i | destroy i => live i
  | build i | construct i => ¬ live i

/-- The objects that are live afterwards. -/
def after (live : ℕ → Prop) : ObjectEvent → ℕ → Prop
  | destroy i, j => live j ∧ j ≠ i
  | construct i, j => live j ∨ j = i
  | _, j => live j

/-- The events of a step, one after the other. They are legal and lead from `live` to `live'`. -/
def Follows (live live' : ℕ → Prop) : List ObjectEvent → Prop
  | [] => ∀ i, live' i ↔ live i
  | e :: es => e.Legal live ∧ Follows (e.after live) live' es

end ObjectEvent

namespace Lifetimes

/-- Every object has been constructed. -/
def start (n : ℕ) : Lifetimes := ⟨Finset.range n, n, 0⟩

/-- The account after an event. -/
def apply (l : Lifetimes) : ObjectEvent → Lifetimes
  | .destroy i => { l with live := l.live.erase i, destroyed := l.destroyed + 1 }
  | .construct i => { l with live := insert i l.live, constructed := l.constructed + 1 }
  | _ => l

/-- The events of a step are legal, each in its turn. -/
def Legal (l : Lifetimes) : List ObjectEvent → Prop
  | [] => True
  | e :: es => e.Legal (· ∈ l.live) ∧ (l.apply e).Legal es

/-- Constructions minus destructions is the number of live objects. -/
def Balanced (l : Lifetimes) : Prop := (l.constructed : ℤ) - l.destroyed = l.live.card

theorem balanced_start (n : ℕ) : (start n).Balanced := by
  simp [Balanced, start]

theorem mem_apply (l : Lifetimes) (e : ObjectEvent) (i : ℕ) :
    i ∈ (l.apply e).live ↔ e.after (· ∈ l.live) i := by
  cases e with
  | destroy j => simp [apply, ObjectEvent.after, and_comm]
  | construct j => simp [apply, ObjectEvent.after, or_comm]
  | _ => rfl

theorem Balanced.apply {l : Lifetimes} (h : l.Balanced) {e : ObjectEvent}
    (he : e.Legal (· ∈ l.live)) : (l.apply e).Balanced := by
  unfold Balanced at h ⊢
  cases e with
  | destroy i =>
    have hmem : i ∈ l.live := he
    have hcard := Finset.card_erase_add_one hmem
    simp only [Lifetimes.apply]
    push_cast
    omega
  | construct i =>
    have hmem : i ∉ l.live := he
    simp only [Lifetimes.apply, Finset.card_insert_of_notMem hmem]
    push_cast
    omega
  | _ => exact h

/-- An account that has the right objects live keeps it so. -/
theorem follows {es : List ObjectEvent} {live live' : ℕ → Prop} {l : Lifetimes}
    (h : ObjectEvent.Follows live live' es) (hl : ∀ i, i ∈ l.live ↔ live i) (hb : l.Balanced) :
    l.Legal es ∧ (∀ i, i ∈ (es.foldl apply l).live ↔ live' i) ∧ (es.foldl apply l).Balanced := by
  induction es generalizing l live with
  | nil => exact ⟨trivial, fun i => (hl i).trans (h i).symm, hb⟩
  | cons e es ih =>
    obtain rfl : live = (· ∈ l.live) := funext fun i => propext (hl i).symm
    obtain ⟨hlegal, hrest⟩ := ih h.2 (l.mem_apply e) (hb.apply h.1)
    exact ⟨⟨h.1, hlegal⟩, hrest⟩

end Lifetimes

section Systems

variable {σ α : Type*}

/-- The account after a step. -/
def Lifetimes.note (events : σ → α → List ObjectEvent) (s : σ) (a : α)
    (l : Lifetimes) : Lifetimes :=
  (events s a).foldl Lifetimes.apply l

/-- The account along a run. -/
def System.withLifetimes (S : System σ α) (events : σ → α → List ObjectEvent) (n : ℕ) :
    System (σ × Lifetimes) α :=
  S.withLog (.start n) (Lifetimes.note events)

/-- The account of the `n` objects is in order along every run: all that is done to them
is legal, those that are dead are the ones of `dead`, and constructions minus
destructions is the number of live ones. -/
structure Accounted (S : System σ α) (events : σ → α → List ObjectEvent) (dead : σ → ℕ → Prop)
    (n : ℕ) : Prop where
  legal : ∀ s l, (S.withLifetimes events n).Reachable (s, l) → ∀ a s', S.step s a s' →
    l.Legal (events s a)
  mem_live : ∀ s l, (S.withLifetimes events n).Reachable (s, l) → ∀ i, i ∈ l.live ↔
    i < n ∧ ¬ dead s i
  balanced : ∀ s l, (S.withLifetimes events n).Reachable (s, l) → l.Balanced

theorem accounted_of_follows {S : System σ α} {events : σ → α → List ObjectEvent}
    {dead : σ → ℕ → Prop} {n : ℕ} (hinit : ∀ s, S.init s → ∀ i, ¬ dead s i)
    (hstep : ∀ s a s', S.Reachable s → S.step s a s' →
      ObjectEvent.Follows (fun i => i < n ∧ ¬ dead s i) (fun i => i < n ∧ ¬ dead s' i)
        (events s a)) :
    Accounted S events dead n := by
  have hI : (S.withLifetimes events n).IsInvariant fun q =>
      (∀ i, i ∈ q.2.live ↔ i < n ∧ ¬ dead q.1 i) ∧ q.2.Balanced := by
    constructor
    · rintro ⟨s, l⟩ ⟨hs, rfl⟩
      refine ⟨fun i => ?_, Lifetimes.balanced_start n⟩
      simp [Lifetimes.start, hinit s hs i]
    · rintro ⟨s, l⟩ a ⟨s', l'⟩ hreach ⟨hl, hb⟩ ⟨hst, rfl⟩
      exact (Lifetimes.follows (hstep s a s' (System.Reachable.of_log hreach) hst) hl hb).2
  refine ⟨fun s l h a s' hst => ?_, fun s l h => (hI.reachable h).1,
    fun s l h => (hI.reachable h).2⟩
  obtain ⟨hl, hb⟩ := hI.reachable h
  exact (Lifetimes.follows (hstep s a s' (System.Reachable.of_log h) hst) hl hb).1

end Systems

end Interleaving
