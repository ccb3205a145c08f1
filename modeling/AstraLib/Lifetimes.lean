import AstraLib.Interleaving.Lifetimes
import AstraLib.Ring.Batch
import AstraLib.Spsc.Fifo

/-!
# The objects in the slots of the two rings

`emplaceEnqueue` destroys the object in its slot and constructs a new one in its place, and
nothing but the `seq` or ticket protocol keeps the other threads away meanwhile.  Here the
slots are followed as objects, live or dead.  The dead one of an `emplaceEnqueue` is in the
slot that it accesses, between the two steps, and the exclusion results of both rings say
that nobody else accesses that slot.

The default constructors have made every slot object when the buffer is there.  A placement-new ends
with the last word of its payload.
-/

namespace AstraLib

open Interleaving

/-- The events of a destructor call that is followed by a placement-new of `W` words. -/
def destroyEvents (W i : ℕ) : List ObjectEvent :=
  if (∅ : Finset (Fin W)) = Finset.univ then [.destroy i, .construct i] else [.destroy i]

/-- The event of a word of a placement-new, which ends when the words `done` are all of them. -/
def buildEvent {W : ℕ} (done : Finset (Fin W)) (i : ℕ) : ObjectEvent :=
  if done = Finset.univ then .construct i else .build i

section Follows

variable {n i : ℕ} {dead dead' : ℕ → Prop}

/-- No object comes or goes. -/
theorem follows_nil (h : ∀ j, dead' j ↔ dead j) :
    ObjectEvent.Follows (fun j => j < n ∧ ¬ dead j) (fun j => j < n ∧ ¬ dead' j) [] := by
  intro j
  simp only [h]

theorem follows_use (hi : i < n) (hdead : ¬ dead i) (h : ∀ j, dead' j ↔ dead j) :
    ObjectEvent.Follows (fun j => j < n ∧ ¬ dead j) (fun j => j < n ∧ ¬ dead' j) [.use i] :=
  ⟨⟨hi, hdead⟩, follows_nil h⟩

theorem follows_destroy {W : ℕ} (hi : i < n) (hdead : ¬ dead i)
    (h : ∀ j, dead' j ↔ dead j ∨ j = i ∧ (∅ : Finset (Fin W)) ≠ Finset.univ) :
    ObjectEvent.Follows (fun j => j < n ∧ ¬ dead j) (fun j => j < n ∧ ¬ dead' j)
      (destroyEvents W i) := by
  unfold destroyEvents
  split_ifs with hW
  · refine ⟨⟨hi, hdead⟩, by simp [ObjectEvent.Legal, ObjectEvent.after], fun j => ?_⟩
    simp only [ObjectEvent.after, h, hW, ne_eq, not_true_eq_false, and_false, or_false]
    by_cases hj : j = i
    · subst hj; simp [hi, hdead]
    · simp [hj]
  · refine ⟨⟨hi, hdead⟩, fun j => ?_⟩
    simp only [ObjectEvent.after, h, hW, ne_eq, not_false_eq_true, and_true]
    tauto

theorem follows_build {W : ℕ} {done : Finset (Fin W)} (hi : i < n) (hdead : dead i)
    (h : ∀ j, dead' j ↔ dead j ∧ (j = i → done ≠ Finset.univ)) :
    ObjectEvent.Follows (fun j => j < n ∧ ¬ dead j) (fun j => j < n ∧ ¬ dead' j)
      [buildEvent done i] := by
  unfold buildEvent
  split_ifs with hW
  · refine ⟨fun hlive => hlive.2 hdead, fun j => ?_⟩
    simp only [ObjectEvent.after, h, hW, ne_eq, not_true_eq_false]
    by_cases hj : j = i
    · subst hj; simp [hi]
    · simp [hj]
  · refine ⟨fun hlive => hlive.2 hdead, fun j => ?_⟩
    simp [ObjectEvent.after, h, hW]

end Follows

/-! ### `AtomicRingBuffer` -/

namespace Ring

section Objects

variable {Tid ω : Type} {W : ℕ}

/-- The ticket of an `emplaceEnqueue` between its destructor call and the end of its
placement-new. -/
def Pc.rebuilding : Pc ℕ ℕ ω W → Option ℕ
  | .enqCopy k _ t done => if k = .emplace ∧ done ≠ Finset.univ then some t else none
  | _ => none

/-- An `emplaceEnqueue` has destroyed the object in slot `i` and has not constructed
the new one yet. -/
def Rebuilding (cfg : Config) (s : State Tid ℕ ℕ ω W) (i : ℕ) : Prop :=
  ∃ θ t, (s.pc θ).rebuilding = some t ∧ t % cfg.SIZE = i

/-- What a step does to the objects in the slots. -/
def objectEvents (cfg : Config) (s : State Tid ℕ ℕ ω W) (a : Tid × Micro ω W) : List ObjectEvent :=
  match s.pc a.1, a.2 with
  | .enqDestroy _ t, .destroy _ => destroyEvents W ((unbounded cfg).index t)
  | .enqCopy k _ t done, .copy j _ =>
      if k = .emplace then [buildEvent (insert j done) ((unbounded cfg).index t)]
      else [.use ((unbounded cfg).index t)]
  | .deqCopy _ t _, .copy _ _ => [.use ((unbounded cfg).index t)]
  | _, _ => []

variable {cfg : Config} {s : State Tid ℕ ℕ ω W} {l : Log Tid ω W} {θ : Tid}

theorem Pc.filling_of_rebuilding {p : Pc ℕ ℕ ω W} {t : ℕ} (h : p.rebuilding = some t) :
    p.filling = some t := by
  cases p with
  | enqCopy k v u done =>
    simp only [Pc.rebuilding] at h
    split_ifs at h
    exact h
  | _ => cases h

@[simp] theorem rebuilding_emplace {v : Payload ω W} {t u : ℕ} {done : Finset (Fin W)} :
    (Pc.enqCopy .emplace v t done : Pc ℕ ℕ ω W).rebuilding = some u ↔ u = t ∧
    done ≠ Finset.univ := by
  simp only [Pc.rebuilding, true_and]
  split_ifs with hW
  · simp [hW, eq_comm]
  · simp [hW]

/-- Whoever rebuilds a slot is the one thread that accesses it. -/
theorem Tickets.rebuilding_unique (ht : Tickets cfg s l) {θ' : Tid} {t u : ℕ}
    (ha : (s.pc θ).filling = some t ∨ (s.pc θ).draining = some t)
    (hr : (s.pc θ').rebuilding = some u) (hut : u % cfg.SIZE = t % cfg.SIZE) : θ' = θ :=
  ht.accesses_unique ⟨u, Or.inl (Pc.filling_of_rebuilding hr), hut⟩ ⟨t, ha, rfl⟩

theorem Tickets.not_rebuilding (ht : Tickets cfg s l) {t : ℕ}
    (ha : (s.pc θ).filling = some t ∨ (s.pc θ).draining = some t)
    (hnone : (s.pc θ).rebuilding = none) : ¬ Rebuilding cfg s (t % cfg.SIZE) := by
  rintro ⟨θ', u, hu, hut⟩
  obtain rfl := ht.rebuilding_unique ha hu hut
  rw [hnone] at hu
  cases hu

variable [DecidableEq Tid] {m' : Mem ℕ ω W} {p' : Pc ℕ ℕ ω W}

theorem rebuilding_put {i : ℕ} : Rebuilding cfg (s.put θ m' p') i ↔
    (∃ t, p'.rebuilding = some t ∧ t % cfg.SIZE = i) ∨
      ∃ θ' t, θ' ≠ θ ∧ (s.pc θ').rebuilding = some t ∧ t % cfg.SIZE = i := by
  constructor
  · rintro ⟨θ', t, hr, ht⟩
    by_cases hθ : θ' = θ
    · subst hθ
      rw [put_pc_self] at hr
      exact Or.inl ⟨t, hr, ht⟩
    · rw [put_pc_of_ne hθ] at hr
      exact Or.inr ⟨θ', t, hθ, hr, ht⟩
  · rintro (⟨t, hr, ht⟩ | ⟨θ', t, hθ, hr, ht⟩)
    · exact ⟨θ, t, by rwa [put_pc_self], ht⟩
    · exact ⟨θ', t, by rwa [put_pc_of_ne hθ], ht⟩

/-- A step after which the same slots are being rebuilt. -/
theorem rebuilding_frame (h : p'.rebuilding = (s.pc θ).rebuilding) (i : ℕ) :
    Rebuilding cfg (s.put θ m' p') i ↔ Rebuilding cfg s i := by
  rw [rebuilding_put, h]
  constructor
  · rintro (⟨t, hr, ht⟩ | ⟨θ', t, -, hr, ht⟩)
    · exact ⟨θ, t, hr, ht⟩
    · exact ⟨θ', t, hr, ht⟩
  · rintro ⟨θ', t, hr, ht⟩
    by_cases hθ : θ' = θ
    · subst hθ; exact Or.inl ⟨t, hr, ht⟩
    · exact Or.inr ⟨θ', t, hθ, hr, ht⟩

/-- The slot of a thread that was not rebuilding it. -/
theorem rebuilding_start (hold : (s.pc θ).rebuilding = none) {v : Payload ω W} {t : ℕ} (i : ℕ) :
    Rebuilding cfg (s.put θ m' (.enqCopy .emplace v t ∅)) i ↔
      Rebuilding cfg s i ∨ i = t % cfg.SIZE ∧ (∅ : Finset (Fin W)) ≠ Finset.univ := by
  rw [rebuilding_put]
  constructor
  · rintro (⟨u, hu, rfl⟩ | ⟨θ', u, -, hr, hu⟩)
    · obtain ⟨rfl, hW⟩ := rebuilding_emplace.1 hu
      exact Or.inr ⟨rfl, hW⟩
    · exact Or.inl ⟨θ', u, hr, hu⟩
  · rintro (⟨θ', u, hr, hu⟩ | ⟨rfl, hW⟩)
    · refine Or.inr ⟨θ', u, ?_, hr, hu⟩
      rintro rfl
      rw [hold] at hr
      cases hr
    · exact Or.inl ⟨t, rebuilding_emplace.2 ⟨rfl, hW⟩, rfl⟩

/-- A word of a placement-new, possibly the last one. -/
theorem rebuilding_word (ht : Tickets cfg s l) {v : Payload ω W} {t : ℕ} {done : Finset (Fin W)}
    (hp : (s.pc θ).rebuilding = some t) (i : ℕ) :
    Rebuilding cfg (s.put θ m' (.enqCopy .emplace v t done)) i ↔
      Rebuilding cfg s i ∧ (i = t % cfg.SIZE → done ≠ Finset.univ) := by
  rw [rebuilding_put]
  have hfill := Or.inl (b := (s.pc θ).draining = some t) (Pc.filling_of_rebuilding hp)
  constructor
  · rintro (⟨u, hu, rfl⟩ | ⟨θ', u, hθ, hr, rfl⟩)
    · obtain ⟨rfl, hW⟩ := rebuilding_emplace.1 hu
      exact ⟨⟨θ, u, hp, rfl⟩, fun _ => hW⟩
    · exact ⟨⟨θ', u, hr, rfl⟩, fun hut => absurd (ht.rebuilding_unique hfill hr hut) hθ⟩
  · rintro ⟨⟨θ', u, hr, rfl⟩, hW⟩
    by_cases hθ : θ' = θ
    · subst hθ
      rw [hp] at hr
      cases hr
      exact Or.inl ⟨t, rebuilding_emplace.2 ⟨rfl, hW rfl⟩, rfl⟩
    · exact Or.inr ⟨θ', u, hθ, hr, rfl⟩

/-- **Every step keeps the account of the slots.** -/
theorem Exec.follows {a : Micro ω W} (hx : Exec (unbounded cfg) cfg s.mem (s.pc θ) a m' p')
    (hcfg : cfg.trivial = false) (ht : Tickets cfg s l) :
    ObjectEvent.Follows (fun i => i < cfg.SIZE ∧ ¬ Rebuilding cfg s i)
      (fun i => i < cfg.SIZE ∧ ¬ Rebuilding cfg (s.put θ m' p') i) (objectEvents cfg s (θ, a)) := by
  have hlt : ∀ t, t % cfg.SIZE < cfg.SIZE := fun t => Nat.mod_lt t cfg.size_pos
  -- the access of a thread that is not rebuilding its slot
  have huse : ∀ t, ((s.pc θ).filling = some t ∨ (s.pc θ).draining = some t) →
      (s.pc θ).rebuilding = none → p'.rebuilding = none →
      ObjectEvent.Follows (fun i => i < cfg.SIZE ∧ ¬ Rebuilding cfg s i)
        (fun i => i < cfg.SIZE ∧ ¬ Rebuilding cfg (s.put θ m' p') i) [.use (t % cfg.SIZE)] :=
    fun t ha hold hnew =>
      follows_use (hlt t) (ht.not_rebuilding ha hold) (rebuilding_frame (hnew.trans hold.symm))
  simp only [objectEvents]
  generalize hp : s.pc θ = p at hx huse
  cases hx with
  | destroy v t junk =>
    have hnone : (s.pc θ).rebuilding = none := by rw [hp]; rfl
    have hfill : (s.pc θ).filling = some t := by rw [hp]; rfl
    show ObjectEvent.Follows _ _ (destroyEvents W ((unbounded cfg).index t))
    rw [unbounded_index]
    exact follows_destroy (hlt t) (ht.not_rebuilding (Or.inl hfill) hnone) (rebuilding_start hnone)
  | enqCopy k v t done j left hj =>
    by_cases hk : k = .emplace
    · subst hk
      have hdone : done ≠ Finset.univ := by
        rintro rfl
        exact hj (Finset.mem_univ j)
      have hr : (s.pc θ).rebuilding = some t := by rw [hp]; exact rebuilding_emplace.2 ⟨rfl, hdone⟩
      show ObjectEvent.Follows _ _ [buildEvent (insert j done) ((unbounded cfg).index t)]
      rw [unbounded_index]
      exact follows_build (hlt t) ⟨θ, t, hr, rfl⟩ (rebuilding_word ht hr)
    · simp only [if_neg hk, unbounded_index] at huse ⊢
      exact huse t (Or.inl rfl) (by simp [Pc.rebuilding, hk]) (by simp [Pc.rebuilding, hk])
  | deqCopy d t buf j left _ =>
    simp only [unbounded_index] at huse ⊢
    exact huse t (Or.inr rfl) rfl rfl
  | enqPass k v t _ =>
    refine follows_nil (rebuilding_frame ?_)
    rw [hp]
    unfold Pc.enqPast
    split_ifs with hk
    · rfl
    · have hne : k ≠ .emplace := fun heq => hk ⟨heq, hcfg⟩
      simp [Pc.rebuilding, hne]
  | enqPublish k v t =>
    refine follows_nil (rebuilding_frame ?_)
    rw [hp]
    simp [Pc.rebuilding]
  | call c =>
    refine follows_nil (rebuilding_frame ?_)
    rw [hp]
    cases c <;> rfl
  | deqPublish d t buf v _ =>
    refine follows_nil (rebuilding_frame ?_)
    rw [hp]
    cases d <;> rfl
  | enqRetry k v t _ => exact follows_nil (rebuilding_frame (by rw [hp]))
  | deqRetry d t _ => exact follows_nil (rebuilding_frame (by rw [hp]))
  | _ => exact follows_nil (rebuilding_frame (by rw [hp]; rfl))

theorem accounted (hcfg : cfg.trivial = false) :
    Accounted (system (unbounded cfg) cfg : System (State Tid ℕ ℕ ω W) _) (objectEvents cfg)
      (Rebuilding cfg) cfg.SIZE := by
  refine accounted_of_follows ?_ ?_
  · rintro s ⟨data, array, rfl⟩ i ⟨θ, t, hr, -⟩
    cases hr
  · rintro s ⟨θ, a⟩ s' hreach hstep
    obtain ⟨l, hl⟩ := hreach.exists_log Log.empty logNote
    obtain ⟨m, p, hx, rfl⟩ := step_eq_some.1 hstep
    exact hx.follows hcfg (invariants hl).1

end Objects

end Ring

/-! ### `spscRingBuffer` -/

namespace Spsc

section Objects

variable {ω : Type} {W : ℕ}

/-- `emplaceEnqueue` is between its destructor call and the end of its placement-new. -/
def Producer.rebuilding : Producer ω W → Prop
  | .copy k _ done => k = .emplace ∧ done ≠ Finset.univ
  | _ => False

/-- `emplaceEnqueue` has destroyed the object in slot `i` and has not constructed the
new one yet. -/
def Rebuilding (s : State ω W) (i : ℕ) : Prop := s.producer.rebuilding ∧ i = s.mem.writeIndex

/-- What a step does to the objects in the slots. -/
def objectEvents (s : State ω W) (a : Micro ω W) : List ObjectEvent :=
  match a, s.producer with
  | .destroy _, .destroy _ => destroyEvents W s.mem.writeIndex
  | .write j, .copy k _ done =>
      if k = .emplace then [buildEvent (insert j done) s.mem.writeIndex]
      else [.use s.mem.writeIndex]
  | .read _ _, _ => [.use s.mem.readIndex]
  | _, _ => []

variable {cfg : Config} {s : State ω W} {l : Log ω W} {m : Mem ω W} {a : Micro ω W}

theorem Producer.accesses_of_rebuilding {p : Producer ω W} (h : p.rebuilding) :
    p.accesses = true := by
  cases p with
  | copy k v done => rfl
  | _ => exact h.elim

theorem Produce.follows {p : Producer ω W} (hx : Produce cfg s.mem s.producer a m p)
    (hcfg : cfg.trivial = false) (hinv : Inv cfg s l) (hthrow : a ≠ .throw) :
    ObjectEvent.Follows (fun i => i < cfg.BUFFER_SIZE ∧ ¬ Rebuilding s i)
      (fun i => i < cfg.BUFFER_SIZE ∧ ¬ Rebuilding { s with mem := m, producer := p } i)
      (objectEvents s a) := by
  have hlt : s.producer.accesses = true → s.mem.writeIndex < cfg.BUFFER_SIZE := by
    intro hpa
    rw [(hinv.writeIndex_of_accesses hpa).1]
    exact Nat.mod_lt _ cfg.size_pos
  -- neither before the step nor after it is an object missing
  have hquiet : ¬ s.producer.rebuilding → ¬ p.rebuilding →
      ∀ i, Rebuilding { s with mem := m, producer := p } i ↔ Rebuilding s i := by
    intro hold hnew i
    exact iff_of_false (fun h => hnew h.1) fun h => hold h.1
  simp only [objectEvents]
  generalize hp : s.producer = q at hx hlt hquiet
  cases hx with
  | destroy v junk =>
    have hold : ¬ s.producer.rebuilding := by rw [hp]; exact id
    refine follows_destroy (hlt rfl) (fun h => hold h.1) fun i => ?_
    simp [Rebuilding, hp, Producer.rebuilding, Mem.writeIndex, and_comm]
  | write k v done j hj =>
    by_cases hk : k = .emplace
    · subst hk
      have hdone : done ≠ Finset.univ := by
        rintro rfl
        exact hj (Finset.mem_univ j)
      have hold : s.producer.rebuilding := by rw [hp]; exact ⟨rfl, hdone⟩
      refine follows_build (hlt rfl) ⟨hold, rfl⟩ fun i => ?_
      simp only [Rebuilding, hp, Producer.rebuilding, Mem.writeIndex, true_and]
      constructor
      · rintro ⟨hW, hi⟩
        exact ⟨⟨hdone, hi⟩, fun _ => hW⟩
      · rintro ⟨⟨-, hi⟩, hW⟩
        exact ⟨hW hi, hi⟩
    · simp only [if_neg hk]
      have hnot : ∀ d, ¬ (Producer.copy k v d : Producer ω W).rebuilding := fun d h => hk h.1
      exact follows_use (hlt rfl) (fun h => hnot done (hp ▸ h.1)) (hquiet (hnot done) (hnot _))
  | pass k v _ =>
    refine follows_nil (hquiet id ?_)
    unfold Producer.past
    split_ifs with hk
    · exact id
    · exact fun h => hk ⟨h.1, hcfg⟩
  | throw k v done => exact absurd rfl hthrow
  | fill k v => exact follows_nil (hquiet (fun h => h.2 rfl) id)
  | _ => exact follows_nil (hquiet id id)

theorem Consume.follows {c : Consumer ω W} (hx : Consume cfg s.mem s.consumer a m c)
    (hinv : Inv cfg s l) :
    ObjectEvent.Follows (fun i => i < cfg.BUFFER_SIZE ∧ ¬ Rebuilding s i)
      (fun i => i < cfg.BUFFER_SIZE ∧ ¬ Rebuilding { s with mem := m, consumer := c } i)
      (objectEvents s a) := by
  have hc := hinv.consumer
  have hne := hinv.writeIndex_ne_readIndex
  have hframe : m.lastWritten = s.mem.lastWritten →
      ∀ i, Rebuilding { s with mem := m, consumer := c } i ↔ Rebuilding s i := by
    intro hw i
    simp only [Rebuilding, Mem.writeIndex, hw]
  generalize hp : s.consumer = q at hx hc hne
  cases hx with
  | read buf j left _ =>
    have hread : s.mem.readIndex < cfg.BUFFER_SIZE := by
      rw [Mem.readIndex_eq hc.2.1]
      exact Nat.mod_lt _ cfg.size_pos
    refine follows_use hread (fun h => ?_) (hframe rfl)
    exact hne (Producer.accesses_of_rebuilding h.1) rfl h.2.symm
  | _ => exact follows_nil (hframe rfl)

theorem accounted (hcfg : cfg.trivial = false) :
    Accounted ((system cfg).restrict NoThrow : System (State ω W) _) objectEvents Rebuilding
      cfg.BUFFER_SIZE := by
  refine accounted_of_follows ?_ ?_
  · rintro s ⟨data, rfl⟩ i ⟨hr, -⟩
    exact hr
  · rintro s a s' hreach ⟨hthrow, hstep⟩
    obtain ⟨l, hl⟩ := hreach.exists_log Log.empty note
    have hinv := invariant hl
    rcases step_cases hstep with ⟨m, p, hx, rfl⟩ | ⟨m, c, hx, rfl⟩
    · exact hx.follows hcfg hinv hthrow
    · exact hx.follows hinv

end Objects

end Spsc

/-! ### Both rings -/

/-- **Object lifetimes balance in both rings.** For payloads with a destructor, no dead slot object
is assigned to, moved from or destroyed, and nothing is constructed over a live one. In every
reachable state the dead slot objects are those of an `emplaceEnqueue` between its destructor call
and its placement-new, and constructions minus destructions is the number of live ones. -/
theorem object_lifetimes_balance {Tid ω ω' : Type} [DecidableEq Tid] {W W' : ℕ} {rcfg : Ring.Config}
    {scfg : Spsc.Config} (hr : rcfg.trivial = false) (hs : scfg.trivial = false) :
    Accounted (Ring.system (Ring.unbounded rcfg) rcfg : System (Ring.State Tid ℕ ℕ ω W) _)
      (Ring.objectEvents rcfg) (Ring.Rebuilding rcfg) rcfg.SIZE ∧
    Accounted ((Spsc.system scfg).restrict Spsc.NoThrow : System (Spsc.State ω' W') _)
      Spsc.objectEvents Spsc.Rebuilding scfg.BUFFER_SIZE :=
  ⟨Ring.accounted hr, Spsc.accounted hs⟩

/-- A ring of two slots, for payloads with a destructor. -/
def destructible : Ring.Config := { Ring.smallest with trivial := false }

/-- `emplaceEnqueue` is interrupted in its placement-new. -/
def ringEmplaceSchedule : List (ℕ × Ring.Micro ℕ 2) :=
  [(0, .call (.enqueue .emplace ![7, 8])), (0, .claim), (0, .spin),
    (0, .destroy ![0, 0]), (0, .copy 1 0)]

def spscEmplaceSchedule : List (Spsc.Micro ℕ 2) :=
  [.enqueue .emplace ![7, 8], .advanceWritten, .testEmpty, .destroy ![0, 0], .write 0]

theorem ringEmplaceSchedule_live : (ringEmplaceSchedule.foldlM
    (fun q a => (Ring.step (Ring.unbounded destructible) destructible q.1 a).map fun s =>
      (s, Lifetimes.note (Ring.objectEvents destructible) q.1 a q.2))
    (Ring.fresh (Ring.unbounded destructible) destructible (fun _ => ![0, 0]) (fun _ => ![0, 0]),
      Lifetimes.start 2)).map (fun q => decide (q.2.live = {1})) = some true := by
  decide +kernel

theorem spscEmplaceSchedule_live : (spscEmplaceSchedule.foldlM
    (fun q a => (Spsc.step Spsc.threeSlots q.1 a).map fun s =>
      (s, Lifetimes.note Spsc.objectEvents q.1 a q.2))
    (Spsc.fresh fun _ => ![0, 0], Lifetimes.start 3)).map (fun q => decide (q.2.live = {0, 2})) =
      some true := by
  decide +kernel

theorem object_lifetimes_balance_rebuilding :
    (∃ (s : Ring.State ℕ ℕ ℕ ℕ 2) (l : Lifetimes),
      ((Ring.system (Ring.unbounded destructible) destructible).withLifetimes
        (Ring.objectEvents destructible) 2).Reachable (s, l) ∧
      Ring.Rebuilding destructible s 0 ∧ l.live = {1} ∧ l.Balanced ∧
      ∀ a s', (Ring.system (Ring.unbounded destructible) destructible).step s a s' →
        l.Legal (Ring.objectEvents destructible s a)) ∧
    ∃ (s : Spsc.State ℕ 2) (l : Lifetimes),
      (((Spsc.system Spsc.threeSlots).restrict Spsc.NoThrow).withLifetimes
        Spsc.objectEvents 3).Reachable (s, l) ∧
      Spsc.Rebuilding s 1 ∧ l.live = {0, 2} ∧ l.Balanced ∧
      ∀ a s', ((Spsc.system Spsc.threeSlots).restrict Spsc.NoThrow).step s a s' →
        l.Legal (Spsc.objectEvents s a) := by
  obtain ⟨hring, hspsc⟩ :=
    @object_lifetimes_balance ℕ ℕ ℕ _ 2 2 destructible Spsc.threeSlots rfl rfl
  constructor
  · have hinit : (Ring.system (Ring.unbounded destructible) destructible).init
        (Ring.fresh (Ring.unbounded destructible) destructible (fun _ => ![0, 0])
          (fun _ => ![0, 0]) :
          Ring.State ℕ ℕ ℕ ℕ 2) := ⟨_, _, rfl⟩
    obtain ⟨s, l, hl, hp⟩ := System.exists_logged_of_schedule hinit ringEmplaceSchedule_live
      fun _ _ _ _ hst => hst
    have hlive : l.live = {1} := of_decide_eq_true hp
    have hmem := hring.mem_live s l hl 0
    rw [hlive] at hmem
    have hdead : Ring.Rebuilding destructible s 0 := by
      by_contra hdead
      simpa using hmem.2 ⟨destructible.size_pos, hdead⟩
    exact ⟨s, l, hl, hdead, hlive, hring.balanced s l hl, hring.legal s l hl⟩
  · have hinit : ((Spsc.system Spsc.threeSlots).restrict Spsc.NoThrow).init
        (Spsc.fresh fun _ => ![0, 0] : Spsc.State ℕ 2) := ⟨_, rfl⟩
    have honly : ∀ s : Spsc.State ℕ 2, ∀ a ∈ spscEmplaceSchedule, Spsc.NoThrow s a := by
      intro s a ha
      fin_cases ha <;> simp [Spsc.NoThrow]
    obtain ⟨s, l, hl, hp⟩ := System.exists_logged_of_schedule hinit spscEmplaceSchedule_live
      fun s a ha _ hst => ⟨honly s a ha, hst⟩
    have hlive : l.live = {0, 2} := of_decide_eq_true hp
    have hmem := hspsc.mem_live s l hl 1
    rw [hlive] at hmem
    have hdead : Spsc.Rebuilding s 1 := by
      by_contra hdead
      simpa using hmem.2 ⟨by decide, hdead⟩
    exact ⟨s, l, hl, hdead, hlive, hspsc.balanced s l hl, hspsc.legal s l hl⟩

end AstraLib
