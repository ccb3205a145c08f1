import AstraLib.Interleaving.Ownership
import AstraLib.Ring.WeakMemory

/-!
# `AtomicRingBuffer`: objects that are handed over

The threads that use the queue have objects of their own, and a payload may carry some of them: it
is a pointer to them, or an index, or a function that is going to access them.  A thread gives away
what it enqueues, and the thread that dequeues the payload owns it from then on.

On weak memory, a thread that accesses objects only while it owns them, and enqueues only
what it owns, takes part in no data race.  An object is with its owner; or with the enqueue
that carries it, until the `seq` store; or with the newest message of the slot's `seq`; or
with the dequeue that has passed its spin test.  On each of these ways the accesses made so
far are handed over (`Owned.sent`).
-/

namespace AstraLib.Ring

open Interleaving Interleaving.ReleaseAcquire

section Owners

variable {Tid ω τ C : Type} {W : ℕ} [DecidableEq Tid] (carries : Payload ω W → C → Bool)

/-- The thread is in no member function. -/
def State.idle (s : State Tid ℕ ℕ ω W) (θ : Tid) : Bool :=
  match s.pc θ with
  | .idle => true
  | _ => false

/-- The owners of the objects after a step of the queue. What is in the queue has no owner. -/
def ownersAfter (θ : Tid) (p : Pc ℕ ℕ ω W) (a : Micro ω W)
    (own : C → Option Tid) : C → Option Tid :=
  match p, a with
  | .enqClaim _ v, .claim => fun c => if carries v c then none else own c
  | .deqCopy _ _ buf, .publish => fun c => if (collect buf).any (carries · c) then some θ else own c
  | _, _ => own

def noteOwners (w : State Tid ℕ ℕ ω W × Memory Tid Loc (Cell W ⊕ C) ℕ τ)
    (a : ClientAct Tid (Micro ω W) τ C) (own : C → Option Tid) : C → Option Tid :=
  match a with
  | .run b => ownersAfter carries b.1.1 (w.1.pc b.1.1) b.1.2 own
  | .access .. => own

/-- A thread accesses what it owns, and enqueues what it owns. Only thread `b` calls
`batchDequeue`. -/
def Careful (b : Tid)
    (x : (State Tid ℕ ℕ ω W × Memory Tid Loc (Cell W ⊕ C) ℕ τ) × (C → Option Tid)) :
    ClientAct Tid (Micro ω W) τ C → Prop
  | .run ((θ, .call (.enqueue _ v)), _) => ∀ c, carries v c = true → x.2 c = some θ
  | .run ((θ, .call (.batchDequeue _)), _) => θ = b
  | .run _ => True
  | .access θ c _ => x.2 c = some θ

/-- Who has the payload with ticket `t` that thread `θ` enqueues. -/
def State.With (cfg : Config) (s : State Tid ℕ ℕ ω W) (t : ℕ) (θ : Tid) : Guard Tid Loc → Prop
  | .own θ' => s.seqOf cfg t ≤ t ∧ θ' = θ ∨ (s.pc θ').draining = some t
  | .loc ℓ => ℓ = .seq (t % cfg.SIZE) ∧ s.seqOf cfg t = t + 1 ∧ ∀ θ', (s.pc θ').draining ≠ some t

/-- What holds of the objects. -/
structure Owned (cfg : Config) (s : State Tid ℕ ℕ ω W) (M : Memory Tid Loc (Cell W ⊕ C) ℕ τ)
    [LinearOrder τ] (l : Log Tid ω W) (own : C → Option Tid) : Prop where
  written_le : ∀ c, M.written (.inr c) ≤ M.accessed (.inr c)
  /-- an owner knows of all accesses -/
  kept : ∀ c θ, own c = some θ → M.Covers (M.accessed (.inr c)) (.own θ)
  /-- an object in the queue goes with a ticket, and who has the payload knows of all accesses -/
  sent : ∀ c, own c = none → ∃ t θ v g, l.writers[t]? = some (θ, v) ∧ carries v c = true ∧
    s.With cfg t θ g ∧
    M.Covers (M.accessed (.inr c)) g
  /-- what a payload in the queue carries has no owner, and no other payload carries it -/
  only : ∀ t θ v c, l.writers[t]? = some (θ, v) → carries v c = true →
    s.seqOf cfg t ≤ t + 1 → own c = none
  once : ∀ t t' θ θ' v v' c, l.writers[t]? = some (θ, v) → l.writers[t']? = some (θ', v') →
    carries v c = true →
    carries v' c = true → s.seqOf cfg t ≤ t + 1 → s.seqOf cfg t' ≤ t' + 1 → t = t'
  claiming : ∀ θ v c, (s.pc θ).claiming = some v → carries v c = true → own c = some θ

end Owners

/-! ### The invariant -/

section Invariant

variable {Tid ω τ C : Type} {W : ℕ} [LinearOrder τ] {carries : Payload ω W → C → Bool}
  {cfg : Config} {s s' : State Tid ℕ ℕ ω W} {M M' : Memory Tid Loc (Cell W ⊕ C) ℕ τ}
  {l l' : Log Tid ω W} {own : C → Option Tid} {θ : Tid} {t : ℕ} {v : Payload ω W}

omit [LinearOrder τ] in
theorem State.with_own {θ' : Tid} :
    s.With cfg t θ (.own θ') ↔ s.seqOf cfg t ≤ t ∧ θ' = θ ∨ (s.pc θ').draining = some t := Iff.rfl

omit [LinearOrder τ] in
theorem State.with_loc {ℓ : Loc} : s.With cfg t θ (.loc ℓ) ↔
    ℓ = .seq (t % cfg.SIZE) ∧ s.seqOf cfg t = t + 1 ∧ ∀ θ', (s.pc θ').draining ≠ some t := Iff.rfl

omit [LinearOrder τ] in
/-- The turn of a payload in the queue is not over. -/
theorem Tickets.seqOf_le_of_with (hT : Tickets cfg s l) {g : Guard Tid Loc} (h : s.With cfg t θ g) :
    s.seqOf cfg t ≤ t + 1 := by
  cases g with
  | own θ' =>
    rcases h with ⟨hle, -⟩ | hd
    · exact hle.trans (Nat.le_succ t)
    · exact (hT.draining_eq θ' t hd).le
  | loc ℓ => exact h.2.1.le

/-- What a step of the program leaves as it is. -/
structure Unshared (M M' : Memory Tid Loc (Cell W ⊕ C) ℕ τ) : Prop where
  accessed : ∀ c : C, M'.accessed (.inr c) = M.accessed (.inr c)
  written : ∀ c : C, M'.written (.inr c) = M.written (.inr c)
  clock_le : ∀ θ, (M.view θ).clock ≤ (M'.view θ).clock

omit [LinearOrder τ] in
theorem Unshared.written_le (hM : Unshared M M') {c : C}
    (h : M.written (.inr c) ≤ M.accessed (.inr c)) :
    M'.written (.inr c) ≤ M'.accessed (.inr c) := by
  rw [hM.written, hM.accessed]
  exact h

theorem Unshared.kept (hM : Unshared M M') {c : C} (h : M.Covers (M.accessed (.inr c)) (.own θ)) :
    M'.Covers (M'.accessed (.inr c)) (.own θ) := by
  rw [hM.accessed]
  exact h.mono hM.clock_le (by simp)

namespace Owned

/-- Steps that pass no payload on. -/
theorem frame (h : Owned carries cfg s M l own) (hM : Unshared M M')
    (hhist : ∀ i, M'.history (.seq i) = M.history (.seq i))
    (hseq : ∀ t, s'.seqOf cfg t = s.seqOf cfg t)
    (hdrain : ∀ θ, (s'.pc θ).draining = (s.pc θ).draining) (hl : l'.writers = l.writers)
    (hclaim : ∀ θ v c, (s'.pc θ).claiming = some v → carries v c = true → own c = some θ) :
    Owned carries cfg s' M' l' own := by
  have hcovers : ∀ {t θ g n}, s.With cfg t θ g → M.Covers n g → s'.With cfg t θ g ∧
      M'.Covers n g := by
    intro t θ g n hg hn
    cases g with
    | own θ' =>
      refine ⟨?_, hn.mono hM.clock_le (by simp)⟩
      rw [State.with_own, hseq, hdrain]
      exact hg
    | loc ℓ =>
      obtain ⟨rfl, hg⟩ := hg
      refine ⟨⟨rfl, ?_⟩, hn.mono hM.clock_le fun ℓ hℓ => ?_⟩
      · simp only [hseq, hdrain]
        exact hg
      · cases hℓ
        exact hhist _
  constructor
  · exact fun c => hM.written_le (h.written_le c)
  · exact fun c θ hc => hM.kept (h.kept c θ hc)
  · intro c hc
    obtain ⟨t, θ, v, g, hv, hvc, hg, hn⟩ := h.sent c hc
    rw [hl, hM.accessed]
    exact ⟨t, θ, v, g, hv, hvc, hcovers hg hn⟩
  · rw [hl]
    simp only [hseq]
    exact h.only
  · rw [hl]
    simp only [hseq]
    exact h.once
  · exact hclaim

/-- A `fetch_add` of `writeTicket`: the objects go with the ticket. -/
theorem claim (h : Owned carries cfg s M l own) (hM : Unshared M M')
    (hhist : ∀ i, M'.history (.seq i) = M.history (.seq i))
    (hseq : ∀ t, s'.seqOf cfg t = s.seqOf cfg t)
    (hdrain : ∀ θ, (s'.pc θ).draining = (s.pc θ).draining) (hp : (s.pc θ).claiming = some v)
    (hl : l'.writers = l.writers ++ [(θ, v)])
    (hnew : s.seqOf cfg l.writers.length ≤ l.writers.length)
    (hclaim : ∀ θ' v', (s'.pc θ').claiming = some v' → θ' ≠ θ ∧ (s.pc θ').claiming = some v') :
    Owned carries cfg s' M' l' fun c => if carries v c then none else own c := by
  have hmine : ∀ c, carries v c = true → own c = some θ := fun c => h.claiming θ v c hp
  have hwith : ∀ {t θ g}, s.With cfg t θ g → s'.With cfg t θ g := by
    intro t θ g hg
    cases g with
    | own θ' =>
      rw [State.with_own, hseq, hdrain]
      exact hg
    | loc ℓ =>
      simp only [State.with_loc, hseq, hdrain]
      exact hg
  -- a payload that was there before carries nothing of the new one
  have hold : ∀ {t θ₁ v₁ c}, l.writers[t]? = some (θ₁, v₁) → carries v₁ c = true →
      s.seqOf cfg t ≤ t + 1 → carries v c = false := by
    intro t θ₁ v₁ c hv hvc hle
    by_contra hc
    rw [Bool.not_eq_false] at hc
    have hnone := h.only t θ₁ v₁ c hv hvc hle
    rw [hmine c hc] at hnone
    cases hnone
  constructor
  · exact fun c => hM.written_le (h.written_le c)
  · intro c θ' hc
    split_ifs at hc
    exact hM.kept (h.kept c θ' hc)
  · intro c hc
    rw [hl, hM.accessed]
    split_ifs at hc with hvc
    · refine ⟨l.writers.length, θ, v, .own θ, getElem?_concat_eq_some.2 (Or.inr ⟨rfl, rfl⟩), hvc,
        hwith (Or.inl ⟨hnew, rfl⟩), (h.kept c θ (hmine c hvc)).mono hM.clock_le (by simp)⟩
    · obtain ⟨t, θ₁, v₁, g, hv, hvc₁, hg, hn⟩ := h.sent c hc
      refine ⟨t, θ₁, v₁, g, getElem?_concat_eq_some.2 (Or.inl hv), hvc₁, hwith hg,
        hn.mono hM.clock_le fun ℓ hℓ => ?_⟩
      subst hℓ
      obtain ⟨rfl, -⟩ := hg
      exact hhist _
  · intro t θ₁ v₁ c hv hvc hle
    rw [hl] at hv
    rw [hseq] at hle
    split_ifs with hc
    · rfl
    · rcases getElem?_concat_eq_some.1 hv with hv | ⟨-, heq⟩
      · exact h.only t θ₁ v₁ c hv hvc hle
      · cases heq
        exact absurd hvc hc
  · intro t t' θ₁ θ₂ v₁ v₂ c hv hv' hvc hvc' hle hle'
    rw [hl] at hv hv'
    rw [hseq] at hle hle'
    rcases getElem?_concat_eq_some.1 hv with hv | ⟨rfl, heq⟩
    · rcases getElem?_concat_eq_some.1 hv' with hv' | ⟨rfl, heq'⟩
      · exact h.once t t' θ₁ θ₂ v₁ v₂ c hv hv' hvc hvc' hle hle'
      · cases heq'
        rw [hold hv hvc hle] at hvc'
        cases hvc'
    · cases heq
      rcases getElem?_concat_eq_some.1 hv' with hv' | ⟨rfl, -⟩
      · rw [hold hv' hvc' hle'] at hvc
        cases hvc
      · rfl
  · intro θ' v' c hv' hvc
    obtain ⟨hne, hv'⟩ := hclaim θ' v' hv'
    have hc := h.claiming θ' v' c hv' hvc
    rw [if_neg, hc]
    intro hvc'
    rw [hmine c hvc'] at hc
    cases hc
    exact hne rfl

/-- The `seq` store of an enqueue: the objects go from the thread to the message. -/
theorem publishWrite (h : Owned carries cfg s M l own) (hT : Tickets cfg s l) (hM : Unshared M M')
    (hhist : ∀ i, i ≠ t % cfg.SIZE → M'.history (.seq i) = M.history (.seq i))
    (hseq : ∀ u, s'.seqOf cfg u = if u % cfg.SIZE = t % cfg.SIZE then t + 1 else s.seqOf cfg u)
    (hdrain : ∀ θ, (s'.pc θ).draining = (s.pc θ).draining) (hl : l'.writers = l.writers)
    (hfill : (s.pc θ).filling = some t)
    (hrelease : ∀ n, M.Covers n (.own θ) → M'.Covers n (.loc (.seq (t % cfg.SIZE))))
    (hclaim : ∀ θ v, (s'.pc θ).claiming = some v → (s.pc θ).claiming = some v) :
    Owned carries cfg s' M' l' own := by
  have hat : ∀ {u}, u % cfg.SIZE = t % cfg.SIZE → s.seqOf cfg u = t := by
    intro u hu
    rw [State.seqOf, hu]
    exact hT.filling_eq θ t hfill
  obtain ⟨v₀, hv₀⟩ := Pc.writing_of_filling hfill
  have hwriter := ((hT.writing_iff θ t v₀).1 hv₀).1
  have hmono : ∀ {u}, s'.seqOf cfg u ≤ u + 1 → s.seqOf cfg u ≤ u + 1 := by
    intro u hle
    rw [hseq] at hle
    split_ifs at hle with hu
    · rw [hat hu]
      omega
    · exact hle
  constructor
  · exact fun c => hM.written_le (h.written_le c)
  · exact fun c θ' hc => hM.kept (h.kept c θ' hc)
  · intro c hc
    rw [hl, hM.accessed]
    obtain ⟨u, θ₁, v₁, g, hv, hvc, hg, hn⟩ := h.sent c hc
    by_cases hut : u = t
    · subst hut
      rw [hwriter] at hv
      cases hv
      have hno : ∀ θ', (s.pc θ').draining ≠ some u :=
        fun θ' hd => hT.not_filling_draining hfill hd rfl
      refine ⟨u, θ, v₀, .loc (.seq (u % cfg.SIZE)), hwriter, hvc, ⟨rfl, ?_, ?_⟩, hrelease _ ?_⟩
      · rw [hseq, if_pos rfl]
      · intro θ'
        rw [hdrain]
        exact hno θ'
      · cases g with
        | own θ' =>
          rcases hg with ⟨-, rfl⟩ | hd
          · exact hn
          · exact absurd hd (hno θ')
        | loc ℓ =>
          have heq := hg.2.1
          rw [hat rfl] at heq
          omega
    · refine ⟨u, θ₁, v₁, g, hv, hvc, ?_⟩
      cases g with
      | own θ' =>
        refine ⟨?_, hn.mono hM.clock_le (by simp)⟩
        rw [State.with_own, hseq, hdrain]
        refine hg.imp (fun hle => ⟨?_, hle.2⟩) id
        split_ifs with hu
        · have hle := hle.1
          rw [hat hu] at hle
          omega
        · exact hle.1
      | loc ℓ =>
        obtain ⟨rfl, heq, hno⟩ := hg
        have hu : ¬ u % cfg.SIZE = t % cfg.SIZE := by
          intro hu
          rw [hat hu] at heq
          exact Config.ne_succ hu.symm heq
        refine ⟨⟨rfl, ?_, ?_⟩, hn.mono hM.clock_le fun ℓ hℓ => ?_⟩
        · rw [hseq, if_neg hu, heq]
        · intro θ'
          rw [hdrain]
          exact hno θ'
        · cases hℓ
          exact hhist _ hu
  · intro u θ₁ v₁ c hv hvc hle
    rw [hl] at hv
    exact h.only u θ₁ v₁ c hv hvc (hmono hle)
  · intro u u' θ₁ θ₂ v₁ v₂ c hv hv' hvc hvc' hle hle'
    rw [hl] at hv hv'
    exact h.once u u' θ₁ θ₂ v₁ v₂ c hv hv' hvc hvc' (hmono hle) (hmono hle')
  · exact fun θ' v' c hv' hvc => h.claiming θ' v' c (hclaim θ' v' hv') hvc

/-- A dequeue passes its spin test: the objects go from the message to the thread. -/
theorem pass (h : Owned carries cfg s M l own) (hM : Unshared M M')
    (hhist : ∀ i, M'.history (.seq i) = M.history (.seq i))
    (hseq : ∀ t, s'.seqOf cfg t = s.seqOf cfg t) (hl : l'.writers = l.writers)
    (hd : (s.pc θ).draining = none) (hd' : (s'.pc θ).draining = some t)
    (hothers : ∀ θ', θ' ≠ θ → (s'.pc θ').draining = (s.pc θ').draining)
    (hacquire : ∀ n, M.Covers n (.loc (.seq (t % cfg.SIZE))) → M'.Covers n (.own θ))
    (hclaim : ∀ θ v, (s'.pc θ).claiming = some v → (s.pc θ).claiming = some v) :
    Owned carries cfg s' M' l' own := by
  constructor
  · exact fun c => hM.written_le (h.written_le c)
  · exact fun c θ' hc => hM.kept (h.kept c θ' hc)
  · intro c hc
    rw [hl, hM.accessed]
    obtain ⟨u, θ₁, v₁, g, hv, hvc, hg, hn⟩ := h.sent c hc
    cases g with
    | own θ' =>
      refine ⟨u, θ₁, v₁, .own θ', hv, hvc, ?_, hn.mono hM.clock_le (by simp)⟩
      rw [State.with_own, hseq]
      refine hg.imp id fun hdu => ?_
      have hne : θ' ≠ θ := by
        rintro rfl
        rw [hd] at hdu
        cases hdu
      rw [hothers θ' hne]
      exact hdu
    | loc ℓ =>
      obtain ⟨rfl, heq, hno⟩ := hg
      by_cases hut : u = t
      · subst hut
        exact ⟨u, θ₁, v₁, .own θ, hv, hvc, Or.inr hd', hacquire _ hn⟩
      · refine ⟨u, θ₁, v₁, .loc (.seq (u % cfg.SIZE)), hv, hvc,
          ⟨rfl, (hseq u).trans heq, fun θ' => ?_⟩, hn.mono hM.clock_le fun ℓ hℓ => ?_⟩
        · by_cases hθ : θ' = θ
          · subst hθ
            rw [hd']
            simpa using Ne.symm hut
          · rw [hothers θ' hθ]
            exact hno θ'
        · cases hℓ
          exact hhist _
  · rw [hl]
    simp only [hseq]
    exact h.only
  · rw [hl]
    simp only [hseq]
    exact h.once
  · exact fun θ' v' c hv' hvc => h.claiming θ' v' c (hclaim θ' v' hv') hvc

/-- The `seq` store of a dequeue: the thread owns what the payload carries. -/
theorem publishRead (h : Owned carries cfg s M l own) (hT : Tickets cfg s l) (hM : Unshared M M')
    (hhist : ∀ i, i ≠ t % cfg.SIZE → M'.history (.seq i) = M.history (.seq i))
    (hseq : ∀ u, s'.seqOf cfg u = if u % cfg.SIZE = t % cfg.SIZE then t + cfg.SIZE
      else s.seqOf cfg u)
    (hl : l'.writers = l.writers) (hdrain : (s.pc θ).draining = some t)
    (hd' : (s'.pc θ).draining = none)
    (hothers : ∀ θ', θ' ≠ θ → (s'.pc θ').draining = (s.pc θ').draining) {θ₀ : Tid}
    (hv₀ : l.writers[t]? = some (θ₀, v))
    (hclaim : ∀ θ v, (s'.pc θ).claiming = some v → (s.pc θ).claiming = some v) :
    Owned carries cfg s' M' l' fun c => if carries v c then some θ else own c := by
  have hsize := cfg.two_le
  have hat : ∀ {u}, u % cfg.SIZE = t % cfg.SIZE → s.seqOf cfg u = t + 1 := by
    intro u hu
    rw [State.seqOf, hu]
    exact hT.draining_eq θ t hdrain
  have hnone : ∀ {c}, carries v c = true → own c = none :=
    fun hvc => h.only t θ₀ v _ hv₀ hvc (hat rfl).le
  have hmono : ∀ {u}, s'.seqOf cfg u ≤ u + 1 → s.seqOf cfg u ≤ u + 1 ∧ u ≠ t := by
    intro u hle
    rw [hseq] at hle
    split_ifs at hle with hu
    · rw [hat hu]
      omega
    · refine ⟨hle, ?_⟩
      rintro rfl
      exact hu rfl
  constructor
  · exact fun c => hM.written_le (h.written_le c)
  · intro c θ' hc
    split_ifs at hc with hvc
    · cases hc
      obtain ⟨u, θ₁, v₁, g, hv, hvc₁, hg, hn⟩ := h.sent c (hnone hvc)
      obtain rfl := h.once u t θ₁ θ₀ v₁ v c hv hv₀ hvc₁ hvc (hT.seqOf_le_of_with hg) (hat rfl).le
      refine hM.kept ?_
      cases g with
      | own θ' =>
        rcases hg with ⟨hle, -⟩ | hdu
        · rw [hat rfl] at hle
          omega
        · rw [hT.draining_unique hdrain hdu rfl]
          exact hn
      | loc ℓ => exact absurd hdrain (hg.2.2 θ)
    · exact hM.kept (h.kept c θ' hc)
  · intro c hc
    rw [hl, hM.accessed]
    split_ifs at hc with hvc
    obtain ⟨u, θ₁, v₁, g, hv, hvc₁, hg, hn⟩ := h.sent c hc
    have hut : u ≠ t := by
      rintro rfl
      rw [hv₀] at hv
      cases hv
      exact hvc hvc₁
    refine ⟨u, θ₁, v₁, g, hv, hvc₁, ?_⟩
    cases g with
    | own θ' =>
      refine ⟨?_, hn.mono hM.clock_le (by simp)⟩
      refine hg.imp (fun hle => ⟨?_, hle.2⟩) fun hdu => ?_
      · rw [hseq]
        split_ifs with hu
        · have hle := hle.1
          rw [hat hu] at hle
          exact Config.add_size_le hu.symm (by omega)
        · exact hle.1
      · have hne : θ' ≠ θ := by
          rintro rfl
          rw [hdrain] at hdu
          cases hdu
          exact hut rfl
        rw [hothers θ' hne]
        exact hdu
    | loc ℓ =>
      obtain ⟨rfl, heq, hno⟩ := hg
      have hu : ¬ u % cfg.SIZE = t % cfg.SIZE := by
        intro hu
        rw [hat hu] at heq
        exact hut (by omega)
      refine ⟨⟨rfl, ?_, fun θ' => ?_⟩, hn.mono hM.clock_le fun ℓ hℓ => ?_⟩
      · rw [hseq, if_neg hu, heq]
      · by_cases hθ : θ' = θ
        · subst hθ
          rw [hd']
          simp
        · rw [hothers θ' hθ]
          exact hno θ'
      · cases hℓ
        exact hhist _ hu
  · intro u θ₁ v₁ c hv hvc hle
    rw [hl] at hv
    obtain ⟨hle, hut⟩ := hmono hle
    rw [if_neg, h.only u θ₁ v₁ c hv hvc hle]
    intro hvc'
    exact hut (h.once u t θ₁ θ₀ v₁ v c hv hv₀ hvc hvc' hle (hat rfl).le)
  · intro u u' θ₁ θ₂ v₁ v₂ c hv hv' hvc hvc' hle hle'
    rw [hl] at hv hv'
    exact h.once u u' θ₁ θ₂ v₁ v₂ c hv hv' hvc hvc' (hmono hle).1 (hmono hle').1
  · intro θ' v' c hv' hvc
    have hc := h.claiming θ' v' c (hclaim θ' v' hv') hvc
    rw [if_neg, hc]
    intro hvc'
    rw [hnone hvc'] at hc
    cases hc

/-- The owner of an object accesses it. -/
theorem access [DecidableEq Tid] [DecidableEq C] (h : Owned carries cfg s M l own) {c : C}
    (hc : own c = some θ) (x : Access) : Owned carries cfg s (M.touch θ (.inr c) x) l own := by
  have hne : ∀ {c' : C}, c' ≠ c → (Sum.inr c : Cell W ⊕ C) ≠ .inr c' :=
    fun hne heq => hne (Sum.inr.inj heq).symm
  have htouch : ∀ {c'}, c' ≠ c → (M.touch θ (.inr c) x).accessed (.inr c') = M.accessed (.inr c') ∧
      (M.touch θ (.inr c) x).written (.inr c') = M.written (.inr c') := fun hc' =>
    M.touches_accessed θ (l := [(.inr c, x)]) (by simpa using hne hc')
  have hcovers : ∀ {n g}, M.Covers n g → (M.touch θ (.inr c) x).Covers n g := fun hn =>
    hn.mono (fun θ' => M.clock_le_touch θ θ' (.inr c) x) fun _ _ => rfl
  refine ⟨fun c' => ?_, fun c' θ' hc' => ?_, fun c' hc' => ?_, h.only, h.once, h.claiming⟩
  · by_cases hcc : c' = c
    · subst hcc
      exact Memory.written_le_touch (h.written_le c') (h.kept c' θ hc θ) x
    · rw [(htouch hcc).1, (htouch hcc).2]
      exact h.written_le c'
  · by_cases hcc : c' = c
    · subst hcc
      rw [hc] at hc'
      cases hc'
      exact (h.kept c' θ hc).touch x
    · rw [(htouch hcc).1]
      exact hcovers (h.kept c' θ' hc')
  · have hcc : c' ≠ c := by
      rintro rfl
      rw [hc] at hc'
      cases hc'
    obtain ⟨t, θ₁, v₁, g, hv, hvc, hg, hn⟩ := h.sent c' hc'
    rw [(htouch hcc).1]
    exact ⟨t, θ₁, v₁, g, hv, hvc, hg, hcovers hn⟩

end Owned

end Invariant

/-! ### The steps -/

section Steps

variable {Tid ω τ C : Type} {W : ℕ} [DecidableEq Tid] [LinearOrder τ]
  {carries : Payload ω W → C → Bool} {cfg : Config} {b : Tid} {s s' : State Tid ℕ ℕ ω W}
  {M M' : Memory Tid Loc (Cell W ⊕ C) ℕ τ} {l l' : Log Tid ω W} {own : C → Option Tid} {θ : Tid}
  {a : Micro ω W} {m' : Mem ℕ ω W} {p' : Pc ℕ ℕ ω W}

omit [DecidableEq Tid] in
/-- What can be left out is not recorded. -/
theorem logNote_skips (hs : Skips s θ a) : logNote s (θ, a) l = l := by
  unfold logNote
  rcases hs with rfl | ⟨hp, hcall⟩
  · cases s.pc θ with
    | deqCopy d t buf => cases d <;> rfl
    | _ => rfl
  · rw [show s.pc (θ, a).1 = .idle from hp]
    cases a with
    | call c =>
      rw [hcall c rfl]
      rfl
    | _ => rfl

omit [DecidableEq Tid] in
/-- Only the claim of an enqueue adds a writer. -/
theorem logNote_writers (hp : ∀ k v, s.pc θ = .enqClaim k v → a ≠ .claim) :
    (logNote s.erase (θ, a) l).writers = l.writers := by
  show (l.note θ (s.pc θ).erase a).writers = l.writers
  by_cases hop : (s.pc θ).op = some .isEmpty
  · rw [Pc.erase_of_isEmpty hop]
    cases a with
    | call c => cases c <;> rfl
    | _ => rfl
  · rw [Pc.erase_of_ne hop]
    unfold Log.note
    split
    next k v hpc => exact absurd rfl (hp k v hpc)
    all_goals rfl

/-- A load leaves the queue alone. -/
theorem Exec.load_mem {m : Mem ℕ ω W} {p : Pc ℕ ℕ ω W} {o : MemoryOrder} {ℓ : Loc}
    (hf : (footprint cfg p a).atomic = some (.load o ℓ))
    (hx : Exec (unbounded cfg) cfg m p a m' p') : m' = m := by
  cases hx with
  | enqClaim k v => cases hf
  | deqClaim d => cases hf
  | destroy v t junk => cases hf
  | enqCopy k v t done j left _ => cases hf
  | enqPublish k v t => cases hf
  | deqCopy d t buf j left _ => cases hf
  | deqPublish d t buf v _ => cases hf
  | _ => rfl

/-- All loads are acquire loads. -/
theorem footprint_load_acquires {p : Pc ℕ ℕ ω W} {o : MemoryOrder} {ℓ : Loc}
    (hf : (footprint cfg p a).atomic = some (.load o ℓ)) : o.acquires = true := by
  unfold footprint at hf
  split at hf <;> cases hf <;> rfl

omit [DecidableEq Tid] in
/-- The stores are release stores, of threads that are between the spin test and the `seq` store. -/
theorem Exec.store_accesses {m : Mem ℕ ω W} {o : MemoryOrder} {ℓ : Loc}
    (hx : Exec (unbounded cfg) cfg m (s.pc θ) a m' p')
    (hf : (footprint cfg (s.pc θ) a).atomic = some (.store o ℓ)) :
    o.releases = true ∧ ∃ i, ℓ = .seq i ∧ s.Accesses cfg θ i := by
  generalize hp : s.pc θ = p at hx hf
  cases hx with
  | enqPublish k v u =>
    cases hf
    exact ⟨rfl, _, rfl, u, Or.inl (by rw [hp]; rfl), rfl⟩
  | deqPublish d u buf v _ =>
    cases hf
    exact ⟨rfl, _, rfl, u, Or.inr (by rw [hp]; rfl), rfl⟩
  | _ => cases hf

omit [LinearOrder τ] in
theorem draining_put_of_eq (hd : p'.draining = (s.pc θ).draining) (θ' : Tid) :
    ((s.put θ m' p').pc θ').draining = (s.pc θ').draining := by
  by_cases hθ : θ' = θ
  · subst hθ
    rw [put_pc_self, hd]
  · rw [put_pc_of_ne hθ]

/-- Steps of a thread that pass no payload on. -/
theorem Owned.quiet (h : Owned carries cfg s M l own) (hM : Unshared M M')
    (hhist : ∀ i, M'.history (.seq i) = M.history (.seq i))
    (hseq : ∀ i, (m'.buffer i).seq = (s.mem.buffer i).seq) (hd : p'.draining = (s.pc θ).draining)
    (hl : l'.writers = l.writers)
    (hclaim : ∀ v c, p'.claiming = some v → carries v c = true → own c = some θ) :
    Owned carries cfg (s.put θ m' p') M' l' own := by
  refine h.frame hM hhist (fun t => hseq _) (draining_put_of_eq hd) hl fun θ' v c hv hvc => ?_
  by_cases hθ : θ' = θ
  · subst hθ
    exact hclaim v c (by rwa [put_pc_self] at hv) hvc
  · exact h.claiming θ' v c (by rwa [put_pc_of_ne hθ] at hv) hvc

omit [LinearOrder τ] in
/-- A step that ends outside of a claim. -/
theorem claiming_put (hp : p'.claiming = none) {θ' : Tid} {v : Payload ω W}
    (hv : ((s.put θ m' p').pc θ').claiming = some v) : θ' ≠ θ ∧ (s.pc θ').claiming = some v := by
  by_cases hθ : θ' = θ
  · subst hθ
    rw [put_pc_self, hp] at hv
    cases hv
  · exact ⟨hθ, by rwa [put_pc_of_ne hθ] at hv⟩

/-- A thread that enqueues owns what the payload carries. -/
def Brings (carries : Payload ω W → C → Bool) (own : C → Option Tid) (θ : Tid)
    (a : Micro ω W) : Prop :=
  ∀ k v, a = .call (.enqueue k v) → ∀ c, carries v c = true → own c = some θ

omit [DecidableEq Tid] in
theorem Brings.claiming (h : Brings carries own θ a) {m : Mem ℕ ω W} {c : Call ω W}
    (ha : a = .call c) (hx : Exec (unbounded cfg) cfg m (s.pc θ) a m' p') (v : Payload ω W) (x : C)
    (hv : p'.claiming = some v) (hvx : carries v x = true) : own x = some θ := by
  subst ha
  obtain ⟨-, -, rfl⟩ := hx.call_inv
  cases c with
  | enqueue k v' =>
    cases hv
    exact h k v rfl x hvx
  | _ => cases hv

/-- Steps that access no location. -/
theorem Owned.plain_step (h : Owned carries cfg s M l own) (hM : Unshared M M')
    (hhist : ∀ i, M'.history (.seq i) = M.history (.seq i)) (hbrings : Brings carries own θ a)
    (hf : (footprint cfg (s.pc θ) a).atomic = none)
    (hx : Exec (unbounded cfg) cfg s.mem (s.pc θ) a m' p') :
    Owned carries cfg (s.put θ m' p') M' (logNote s.erase (θ, a) l)
      (ownersAfter carries θ (s.pc θ) a own) := by
  by_cases hcall : ∃ c, a = .call c
  · obtain ⟨c, rfl⟩ := hcall
    obtain ⟨hidle, rfl, rfl⟩ := hx.call_inv
    rw [hidle]
    refine h.quiet hM hhist (fun _ => rfl) ?_ (logNote_writers (by simp)) (hbrings.claiming rfl hx)
    rw [hidle]
    cases c <;> rfl
  generalize hp : s.pc θ = p at hx hf ⊢
  cases hx with
  | call c => exact absurd ⟨c, rfl⟩ hcall
  | destroy | enqCopy | enqRet | loopNext | loopEnd | deqCopy | deqRet | batchRet | isEmptyRet =>
    exact h.quiet hM hhist (by simp [Mem.setWord]) (by rw [hp]; rfl) (logNote_writers (by simp))
      (by simp [Pc.claiming])
  | _ => cases hf

/-- Loads. A dequeue that passes its spin test takes over what the message carries. -/
theorem Owned.load_step (h : Owned carries cfg s M l own) (hM : Unshared M M')
    (hhist : ∀ i, M'.history (.seq i) = M.history (.seq i)) {o : MemoryOrder} {ℓ : Loc} {x : ℕ}
    (hf : (footprint cfg (s.pc θ) a).atomic = some (.load o ℓ))
    (hacquire : ∀ t, (s.pc θ).reading = some t → ℓ = .seq (t % cfg.SIZE) → x = t + 1 →
      ∀ n, M.Covers n (.loc ℓ) →
      M'.Covers n (.own θ))
    (hx : Exec (unbounded cfg) cfg (s.mem.set x ℓ) (s.pc θ) a m' p') :
    Owned carries cfg (s.put θ s.mem p') M' (logNote s.erase (θ, a) l)
      (ownersAfter carries θ (s.pc θ) a own) := by
  generalize hp : s.pc θ = p at hx hf hacquire ⊢
  cases hx with
  | deqPass d u hv =>
    cases hf
    refine h.pass hM hhist (fun _ => rfl) (logNote_writers (by simp)) (by rw [hp]; rfl)
      (by rw [put_pc_self]; rfl) (fun θ' hθ => by rw [put_pc_of_ne hθ]) (hacquire u rfl rfl ?_)
      fun θ' v' hv' => (claiming_put rfl hv').2
    simpa [Mem.set] using hv
  | enqPass k v u _ =>
    refine h.quiet hM hhist (fun _ => rfl) ?_ (logNote_writers (by simp)) fun v' c hv' => ?_
    · rw [hp, enqPast_draining]
      rfl
    · unfold Pc.enqPast at hv'
      split_ifs at hv' <;> cases hv'
  | enqRetry | deqRetry =>
    exact h.quiet hM hhist (fun _ => rfl) (by rw [hp]) (logNote_writers (by simp))
      (by simp [Pc.claiming])
  | firstWrite | firstRead | thenRead | thenWrite =>
    exact h.quiet hM hhist (fun _ => rfl) (by rw [hp]; rfl) (logNote_writers (by simp))
      (by simp [Pc.claiming])
  | _ => cases hf

/-- Stores. They pass the objects of an enqueue on, and make the thread of a dequeue the owner. -/
theorem Owned.store_step (h : Owned carries cfg s M l own) (hM : Unshared M M')
    (hT : Tickets cfg s l)
    (hcollected : ∀ d t buf v, s.pc θ = .deqCopy d t buf → (∀ j, buf j = some (v j)) →
      ∃ θ', l.writers[t]? = some (θ', v))
    {o : MemoryOrder} {ℓ : Loc} (hhist : ∀ i, .seq i ≠ ℓ → M'.history (.seq i) = M.history (.seq i))
    (hf : (footprint cfg (s.pc θ) a).atomic = some (.store o ℓ))
    (hrelease : ∀ n, M.Covers n (.own θ) → M'.Covers n (.loc ℓ))
    (hx : Exec (unbounded cfg) cfg s.mem (s.pc θ) a m' p') :
    Owned carries cfg (s.put θ m' p') M' (logNote s.erase (θ, a) l)
      (ownersAfter carries θ (s.pc θ) a own) := by
  generalize hp : s.pc θ = p at hx hf hcollected ⊢
  cases hx with
  | enqPublish k v u =>
    cases hf
    refine h.publishWrite hT hM (fun i hi => hhist i fun heq => hi (Loc.seq.inj heq)) (fun u' => ?_)
      (draining_put_of_eq (by rw [hp]; rfl)) (logNote_writers (by simp)) (by rw [hp]; rfl) hrelease
      fun θ' v' hv' => (claiming_put rfl hv').2
    rw [unbounded_index]
    exact Tickets.seqOf_setSeq u u' (u + 1)
  | deqPublish d u buf v hv =>
    cases hf
    obtain ⟨θ₀, hv₀⟩ := hcollected d u buf v rfl hv
    have hown : ownersAfter carries θ (.deqCopy d u buf) .publish own =
        fun c => if carries v c then some θ else own c := by
      simp [ownersAfter, collect_eq_some.2 hv]
    rw [hown]
    refine h.publishRead hT hM (fun i hi => hhist i fun heq => hi (Loc.seq.inj heq)) (fun u' => ?_)
      (logNote_writers (by simp)) (by rw [hp]; rfl) ?_ (fun θ' hθ => by rw [put_pc_of_ne hθ]) hv₀
      fun θ' v' hv' => (claiming_put ?_ hv').2
    · rw [unbounded_index]
      exact Tickets.seqOf_setSeq u u' (u + cfg.SIZE)
    · rw [put_pc_self]
      exact (deqPast_quiet u v d).draining
    · cases d <;> rfl
  | _ => cases hf

/-- The two `fetch_add`s. -/
theorem Owned.update_step (h : Owned carries cfg s M l own) (hM : Unshared M M')
    (hT : Tickets cfg s l) {o : MemoryOrder} {ℓ : Loc} {x : ℕ}
    (hhist : ∀ i, .seq i ≠ ℓ → M'.history (.seq i) = M.history (.seq i))
    (hf : (footprint cfg (s.pc θ) a).atomic = some (.update o ℓ))
    (hx : Exec (unbounded cfg) cfg (s.mem.set x ℓ) (s.pc θ) a m' p') :
    Owned carries cfg (s.put θ m' p') M' (logNote s.erase (θ, a) l)
      (ownersAfter carries θ (s.pc θ) a own) := by
  generalize hp : s.pc θ = p at hx hf ⊢
  cases hx with
  | enqClaim k v =>
    cases hf
    refine h.claim hM (fun i => hhist i (by simp)) (fun _ => rfl)
      (draining_put_of_eq (by rw [hp]; rfl)) (by rw [hp]; rfl) ?_ ?_
      fun θ' v' hv' => claiming_put rfl hv'
    · show (l.note θ (s.pc θ).erase .claim).writers = _
      rw [Pc.erase_of_ne (by simp [hp, Pc.op]), hp]
      rfl
    · rw [← hT.writeTicket_eq]
      by_contra hlt
      exact absurd (hT.published_lt _ (by omega)) (lt_irrefl _)
  | deqClaim d =>
    cases hf
    exact h.quiet hM (fun i => hhist i (by simp)) (fun _ => rfl) (by rw [hp]; rfl)
      (logNote_writers (by simp [hp])) (by simp [Pc.claiming])
  | _ => cases hf

variable [OrderBot τ]

omit [DecidableEq Tid] in
/-- A `fetch_add` reads the newest value of its counter. -/
theorem Tame.newest_of_behind {N : Memory Tid Loc (Cell W) ℕ τ} (h : Tame cfg b s N)
    {o : MemoryOrder} {ℓ : Loc} {m : Message Tid Loc ℕ τ} {t : τ}
    (hf : (footprint cfg (s.pc θ) a).atomic = some (.update o ℓ)) (hm : m ∈ N.history ℓ)
    (ht : N.Behind ℓ m t) : N.Newest ℓ m := by
  generalize s.pc θ = p at hf
  unfold footprint at hf
  split at hf <;> cases hf
  · exact h.write.newest_of_behind hm trivial ht
  · exact h.read.newest_of_behind hm trivial ht

/-- **What a step of the queue does to the objects.** -/
theorem Owned.step [DecidableEq C] (h : Owned carries cfg s M l own)
    (hsound : (M.comap Sum.inl : Memory Tid Loc (Cell W) ℕ τ).Sound s.mem.get)
    (htame : Tame cfg b s (M.comap Sum.inl)) (hT : Tickets cfg s l)
    (hcollected : ∀ d t buf v, s.pc θ = .deqCopy d t buf → (∀ j, buf j = some (v j)) →
      ∃ θ', l.writers[t]? = some (θ', v))
    (hbrings : Brings carries own θ a) {r t : τ}
    (hs : ((program Tid cfg).mapCells Sum.inl).WeakStep s M θ a r t s' M') :
    Owned carries cfg s' M' (logNote s.erase (θ, a) l) (ownersAfter carries θ (s.pc θ) a own) := by
  have hM : Unshared M M' := ⟨fun c => (hs.objects c).1, fun c => (hs.objects c).2, hs.clock_le⟩
  have hhist : ∀ i, (∀ o, (footprint cfg (s.pc θ) a).atomic ≠ some (.store o (.seq i))) →
      (∀ o, (footprint cfg (s.pc θ) a).atomic ≠ some (.update o (.seq i))) →
      M'.history (.seq i) = M.history (.seq i) :=
    fun i hstore hupdate => hs.history_eq hstore hupdate
  have hclock := fun θ' => M.clock_le_touches θ θ'
    (((program Tid cfg).mapCells Sum.inl).footprint s (θ, a)).plain
  have htouch := Memory.touches_history (M := M) (θ := θ)
    (((program Tid cfg).mapCells (Sum.inl : Cell W → Cell W ⊕ C)).footprint s (θ, a)).plain
  cases hs with
  | plain hf hs =>
    obtain ⟨m₁, p₁, hx, rfl⟩ := step_eq_some.1 hs
    have hf : (footprint cfg (s.pc θ) a).atomic = none := hf
    exact h.plain_step hM (fun i => hhist i (by simp [hf]) (by simp [hf])) hbrings hf hx
  | @load o ℓ m s₁ _ hf hm hr hs =>
    obtain ⟨m₁, p₁, hx, rfl⟩ := step_eq_some.1 hs
    have hf : (footprint cfg (s.pc θ) a).atomic = some (.load o ℓ) := hf
    have hx : Exec (unbounded cfg) cfg (s.mem.set m.value ℓ) (s.pc θ) a m₁ p₁ := hx
    have hput : (program Tid cfg).set (((program Tid cfg).set s ℓ m.value).put θ m₁ p₁) ℓ
        ((program Tid cfg).get s ℓ) = s.put θ s.mem p₁ := by
      rw [hx.load_mem hf]
      exact load_put ℓ m.value
    refine hput ▸ h.load_step hM (fun i => hhist i (by simp [hf]) (by simp [hf])) hf ?_ hx
    rintro u hu rfl hv n hn
    -- only the newest message lets the dequeue pass
    have hle : (s.mem.buffer (u % cfg.SIZE)).seq ≤ u + 1 := ((hT.reading_iff θ u).1 hu).2
    have hnew : M.Newest (.seq (u % cfg.SIZE)) m := htame.newest_of_le hsound hm (hv ▸ hle)
    refine Memory.Covers.acquire (hn.mono hclock fun ℓ' _ => congrFun htouch ℓ')
      (hnew.congr (congrFun htouch _)) ?_
    exact footprint_load_acquires hf
  | @store o ℓ s₁ _ _ hf hs ht hfree =>
    obtain ⟨m₁, p₁, hx, rfl⟩ := step_eq_some.1 hs
    have hf : (footprint cfg (s.pc θ) a).atomic = some (.store o ℓ) := hf
    obtain ⟨ho, i, rfl, ha⟩ := hx.store_accesses hf
    have htop : ∀ m ∈ M.history (.seq i), m.time < t := (htame.upToDate θ i ha).lt_of_front_lt ht
    rw [Program.settle, if_pos htop]
    refine h.store_step hM hT hcollected (fun i' hi => hhist i' ?_ ?_) hf (fun n hn => ?_) hx
    · simpa [hf] using fun heq => hi (congrArg Loc.seq heq.symm)
    · simp [hf]
    · refine Memory.Covers.release (hn.mono hclock (by simp)) ?_ ho
      rw [htouch]
      exact htop
  | @update o ℓ m s₁ _ hf hm hr hs ht =>
    obtain ⟨m₁, p₁, hx, rfl⟩ := step_eq_some.1 hs
    have hf : (footprint cfg (s.pc θ) a).atomic = some (.update o ℓ) := hf
    have hx : Exec (unbounded cfg) cfg (s.mem.set m.value ℓ) (s.pc θ) a m₁ p₁ := hx
    have hnew : M.Newest ℓ m := htame.newest_of_behind hf hm ht
    have htop : ∀ m₀ ∈ M.history ℓ, m₀.time < t := fun m₀ hm₀ => (hnew.time_le hm₀).trans_lt ht.1
    rw [Program.settle, if_pos htop]
    refine h.update_step hM hT (fun i hi => hhist i (by simp [hf]) ?_) hf hx
    simpa [hf] using fun heq => hi heq.symm

/-- An access of an object does not concern the queue. -/
theorem Tame.tick {N : Memory Tid Loc (Cell W) ℕ τ} (h : Tame cfg b s N) (θ : Tid) :
    Tame cfg b s (N.setView θ (N.ticked θ)) := by
  refine ⟨h.grows, h.write.congr rfl, h.read.congr rfl, fun θ' i ha m hm => ?_,
    h.handed.tick θ, h.batch⟩
  have hfront : ((N.setView θ (N.ticked θ)).view θ').front = (N.view θ').front := by
    by_cases hθ : θ' = θ
    · subst hθ
      simp [Memory.setView, Memory.ticked]
    · simp [Memory.setView, hθ]
  rw [hfront]
  exact h.upToDate θ' i ha m hm

end Steps

/-! ### Every run -/

section Runs

variable {Tid ω τ C : Type} {W : ℕ} [DecidableEq Tid] [DecidableEq C] [LinearOrder τ] [OrderBot τ]
  {carries : Payload ω W → C → Bool} {cfg : Config} {b : Tid}

/-- The queue on weak memory with its clients, and the owners of the objects. -/
def clients (cfg : Config) (carries : Payload ω W → C → Bool) (b : Tid) (own₀ : C → Tid) :
    System ((State Tid ℕ ℕ ω W × Memory Tid Loc (Cell W ⊕ C) ℕ τ) × (C → Option Tid))
      (ClientAct Tid (Micro ω W) τ C) :=
  (((program Tid cfg).clients State.idle τ C).withLog (fun c => some (own₀ c))
    (noteOwners carries)).restrict (Careful carries b)

theorem clients_invariant {own₀ : C → Tid}
    {x : (State Tid ℕ ℕ ω W × Memory Tid Loc (Cell W ⊕ C) ℕ τ) × (C → Option Tid)}
    (hx : (clients cfg carries b own₀).Reachable x) :
    ∃ l, ((system (unbounded cfg) cfg).withLog Log.empty logNote).Reachable (x.1.1.erase, l) ∧
      (x.1.2.comap Sum.inl : Memory Tid Loc (Cell W) ℕ τ).Sound x.1.1.mem.get ∧
      Tame cfg b x.1.1 (x.1.2.comap Sum.inl) ∧ Owned carries cfg x.1.1 x.1.2 l x.2 := by
  induction hx with
  | @init x h =>
    obtain ⟨⟨s, M⟩, own⟩ := x
    obtain ⟨⟨⟨data, array, rfl⟩, hM⟩, rfl⟩ := h
    obtain rfl : M = .fresh (fresh (unbounded cfg) cfg data array : State Tid ℕ ℕ ω W).mem.get := hM
    refine ⟨Log.empty, .init ⟨⟨data, array, rfl⟩, rfl⟩, Memory.sound_fresh _, .fresh data array, ?_⟩
    refine ⟨fun c => le_rfl, fun c θ _ θ' => Nat.zero_le _, fun c hc => ?_, fun t θ v c hv => ?_,
      fun t t' θ θ' v v' c hv => ?_, fun θ v c hv => ?_⟩
    · cases hc
    · simp [Log.empty] at hv
    · simp [Log.empty] at hv
    · cases hv
  | @step x y a _ h ih =>
    obtain ⟨⟨s, M⟩, own⟩ := x
    obtain ⟨⟨s', M'⟩, own'⟩ := y
    obtain ⟨l, hl, hsound, htame, howned⟩ := ih
    obtain ⟨hcare, hstep, rfl⟩ := h
    obtain ⟨hT, hC⟩ := invariants hl
    have hT := hT.of_erase
    cases a with
    | run b' =>
      obtain ⟨⟨θ, a⟩, r, t⟩ := b'
      have hweak := Program.weakStep_cases hstep
      have hb : ∀ count, a = .call (.batchDequeue count) → θ = b := by
        rintro count rfl
        exact hcare
      have hbrings : Brings carries own θ a := by
        rintro k v rfl
        exact hcare
      obtain ⟨htame', hsim⟩ := htame.step hsound hT hb hweak.comap
      refine ⟨logNote s.erase (θ, a) l, ?_, hweak.comap.sound lawful hsound, htame',
        howned.step hsound htame hT (fun d t buf v hp hv => ?_) hbrings hweak⟩
      · rcases hsim with ⟨heq, hskip⟩ | hs
        · show ((system (unbounded cfg) cfg).withLog Log.empty logNote).Reachable
            (s'.erase, logNote s.erase (θ, a) l)
          rw [heq, logNote_skips hskip]
          exact hl
        · exact .step hl ⟨hs, rfl⟩
      · refine hC.collected (invariants hl).1 (θ := θ) (d := d) ?_ hv
        show (s.pc θ).erase = _
        rw [hp, Pc.erase_of_ne (by cases d <;> simp [Pc.op, Dest.op])]
    | access θ c x =>
      have hstep : (if s.idle θ then some (s, M.touch θ (.inr c) x) else none) =
          some (s', M') := hstep
      split_ifs at hstep
      cases hstep
      have heq :=
        M.comap_touch_of_ne (show ∀ c₀ : Cell W, (Sum.inl c₀ : Cell W ⊕ C) ≠ .inr c by simp) θ x
      refine ⟨l, hl, ?_, ?_, howned.access hcare x⟩
      · exact hsound.congr rfl
      · show Tame cfg b s ((M.touch θ (.inr c) x).comap Sum.inl)
        rw [heq]
        exact htame.tick θ

/-- **The objects that are handed over through the queue.** On weak memory, when each thread
accesses and enqueues only what it owns, no access of an object by its owner is a data race, and no
access of a payload by the next step of a thread. -/
theorem handed_over_without_race {own₀ : C → Tid} {s : State Tid ℕ ℕ ω W}
    {M : Memory Tid Loc (Cell W ⊕ C) ℕ τ} {own : C → Option Tid}
    (h : (clients cfg carries b own₀).Reachable ((s, M), own)) :
    (∀ c θ x, own c = some θ → M.Ordered θ (.inr c) x) ∧
      ∀ θ a, ∀ c ∈ (footprint cfg (s.pc θ) a).plain, M.Ordered θ (.inl c.1) c.2 := by
  obtain ⟨l, hl, hsound, htame, howned⟩ := clients_invariant h
  refine ⟨fun c θ x hc => (howned.kept c θ hc).ordered (howned.written_le c) x, fun θ a c hc => ?_⟩
  have hordered : (M.comap Sum.inl : Memory Tid Loc (Cell W) ℕ τ).Ordered θ c.1 c.2 := by
    refine htame.handed.ordered (fun ℓ => ?_) (htame.permits (.of_erase (invariants hl).1) hc) c.2
    obtain ⟨m, hm, -⟩ := hsound.newest ℓ
    exact ⟨m, hm⟩
  revert hordered
  cases c.2 <;> exact id

/-- Thread `0` writes to the object that all payloads carry and enqueues one; thread `1` dequeues it
and writes to the object as well. -/
def handsOver : List (ClientAct ℕ (Micro ℕ 1) ℕ Unit) :=
  [.access 0 () .write, .run ((0, .call (.enqueue .move ![7])), 0, 0), .run ((0, .claim), 0, 1),
    .run ((1, .call .dequeue), 0, 0), .run ((1, .claim), 0, 1), .run ((1, .spin), 0, 0),
    .run ((0, .spin), 0, 0), .run ((0, .copy 0 0), 0, 0), .run ((0, .publish), 0, 1),
    .run ((1, .spin), 1, 0), .run ((1, .copy 0 0), 0, 0), .run ((1, .publish), 0, 2),
    .run ((1, .ret), 0, 0), .access 1 () .write]

/-- Who must own the object for a step. -/
def needs : ClientAct ℕ (Micro ℕ 1) ℕ Unit → Option ℕ
  | .run ((θ, .call (.enqueue _ _)), _) => some θ
  | .access θ _ _ => some θ
  | _ => none

def carefulStep (x : (State ℕ ℕ ℕ ℕ 1 × Memory ℕ Loc (Cell 1 ⊕ Unit) ℕ ℕ) × (Unit → Option ℕ))
    (a : ClientAct ℕ (Micro ℕ 1) ℕ Unit) :
    Option ((State ℕ ℕ ℕ ℕ 1 × Memory ℕ Loc (Cell 1 ⊕ Unit) ℕ ℕ) × (Unit → Option ℕ)) :=
  if needs a = none ∨ needs a = x.2 () then
    ((program ℕ smallest).clientStep State.idle x.1 a).map
      fun w => (w, noteOwners (fun _ _ => true) x.1 a x.2)
  else none

theorem careful_of_needs
    {x : (State ℕ ℕ ℕ ℕ 1 × Memory ℕ Loc (Cell 1 ⊕ Unit) ℕ ℕ) × (Unit → Option ℕ)}
    {a : ClientAct ℕ (Micro ℕ 1) ℕ Unit} (ha : a ∈ handsOver)
    (h : needs a = none ∨ needs a = x.2 ()) :
    Careful (fun _ _ => true) 1 x a := by
  fin_cases ha <;> simp_all [Careful, needs]

theorem handsOver_owner : (handsOver.foldlM carefulStep
    ((fresh (unbounded smallest) smallest (fun _ => ![0]) (fun _ => ![0]),
      .fresh (fresh (unbounded smallest) smallest (fun _ => ![0]) (fun _ => ![0]) :
        State ℕ ℕ ℕ ℕ 1).mem.get),
      fun _ => some 0)).map (fun q => q.2 () == some 1) = some true := by
  decide +kernel

theorem handed_over_without_race_handsOver :
    ∃ (s : State ℕ ℕ ℕ ℕ 1) (M : Memory ℕ Loc (Cell 1 ⊕ Unit) ℕ ℕ) (own : Unit → Option ℕ),
    own () = some 1 ∧ (∀ c θ x, own c = some θ → M.Ordered θ (.inr c) x) ∧
      ∀ θ a, ∀ c ∈ (footprint smallest (s.pc θ) a).plain, M.Ordered θ (.inl c.1) c.2 := by
  have hinit : (clients (τ := ℕ) smallest (fun (_ : Payload ℕ 1) (_ : Unit) => true) 1
      fun _ => 0).init
      ((fresh (unbounded smallest) smallest (fun _ => ![0]) (fun _ => ![0]),
        .fresh (fresh (unbounded smallest) smallest (fun _ => ![0]) (fun _ => ![0]) :
          State ℕ ℕ ℕ ℕ 1).mem.get),
        fun _ => some 0) := ⟨⟨⟨_, _, rfl⟩, rfl⟩, rfl⟩
  obtain ⟨⟨⟨s, M⟩, own⟩, hr, hp⟩ := System.exists_reachable_of_schedule hinit handsOver_owner (by
    rintro ⟨w, own⟩ a ha ⟨w', own'⟩ hst
    unfold carefulStep at hst
    split_ifs at hst with hneeds
    obtain ⟨w₁, hw₁, heq⟩ := Option.map_eq_some_iff.1 hst
    cases heq
    exact ⟨careful_of_needs ha hneeds, hw₁, rfl⟩)
  exact ⟨s, M, own, by simpa using hp, handed_over_without_race hr⟩

end Runs

end AstraLib.Ring
