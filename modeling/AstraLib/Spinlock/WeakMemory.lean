import AstraLib.Interleaving.RaceFreedom
import AstraLib.Spinlock

/-!
# `Spinlock` under release and acquire

The lock on weak memory, with the memory orders of the code.  The `exchange` of `lock()` may read an
old message, as long as there is room right behind it.  So it may fail although the lock is free,
which costs a turn of the waiting loop.  It cannot succeed that way, since right behind each old
`false` stands the `true` of the thread that has taken the lock.

The `true`s of the threads that wait leave no room between them and that of the holder, so the
`false` of `unlock()` is the newest message.  It hands over what the holder has done, also to the
threads that read it after others, and no access in a critical section is a data race.
-/

namespace AstraLib.Spinlock

open Interleaving Interleaving.ReleaseAcquire

/-- The shared variables of the critical sections. -/
inductive Cell (Loc : Type)
  | counter
  | data (x : Loc)
  deriving DecidableEq

section Program

variable {Tid Loc Val : Type}

/-- The accesses of the atomic steps, with the memory orders. -/
def footprint : Pc → Micro Loc Val → Footprint Unit (Cell Loc)
  | .exchange _, .exchange => ⟨[], some (.update .acquire ())⟩
  | .inside _ _, .read x => ⟨[(.data x, .read)], none⟩
  | .inside _ _, .write x _ => ⟨[(.data x, .write)], none⟩
  | .inside _ _, .readCounter => ⟨[(.counter, .read)], none⟩
  | .inside _ (some _), .writeCounter => ⟨[(.counter, .write)], none⟩
  | .unlock _, .store => ⟨[], some (.store .release ())⟩
  | _, _ => ⟨[], none⟩

/-- The lock, for weak memory. -/
def program (Tid : Type) [DecidableEq Tid] [DecidableEq Loc] (waitTime : ℤ) :
    Program (State Tid Loc Val) Tid (Micro Loc Val) Unit (Cell Loc) Bool where
  init s := ∃ data, s = fresh data
  step := step waitTime
  get s _ := s.atomic
  set s _ x := { s with atomic := x }
  footprint s b := footprint (s.pc b.1) b.2

/-- Leave the waiting between two `exchange`s out. -/
def Pc.erase : Pc → Pc
  | .pause k _ => .exchange k
  | p => p

def State.erase (s : State Tid Loc Val) : State Tid Loc Val :=
  { s with pc := fun θ => (s.pc θ).erase }

/-- The critical sections are handed over with the lock. -/
def guard (_ : Cell Loc) : Guard Tid Unit := .loc ()

def State.Holds (s : State Tid Loc Val) (θ : Tid) (_ : Unit) : Prop := (s.pc θ).holds = true

/-- What holds of the weak memory. -/
structure Tame {τ : Type} [LinearOrder τ] [OrderBot τ] (s : State Tid Loc Val)
    (M : Memory Tid Unit (Cell Loc) Bool τ) : Prop where
  /-- the lock has been taken right behind each `false` but the newest -/
  taken : M.Chained () fun m => m.value = false
  /-- the holder knows of a message from which on there is no room -/
  locked : ∀ θ, s.Holds θ () →
    ∃ m ∈ M.history (), m.time ≤ (M.view θ).front () ∧ M.Chained () fun m' => m.time ≤ m'.time
  handed : M.HandedOver guard s.Holds

end Program

/-! ### The footprints, and the waiting -/

section Erase

variable {Tid Loc Val : Type} [DecidableEq Tid] [DecidableEq Loc] {waitTime : ℤ}
  {s s' : State Tid Loc Val} {θ : Tid} {a : Micro Loc Val} {n : ℕ}

theorem lawful : (program Tid waitTime : Program (State Tid Loc Val) _ _ _ _ _).Lawful where
  get_set_self _ _ _ := rfl
  get_set_of_ne _ _ _ _ h := absurd rfl h
  set_get _ _ := rfl
  set_set _ _ _ _ := rfl
  keeps := by
    rintro s ⟨θ, a⟩ s' hs hstore hupdate _
    have hstore : (footprint (s.pc θ) a).atomic ≠ some (.store .release ()) := hstore _ _
    have hupdate : (footprint (s.pc θ) a).atomic ≠ some (.update .acquire ()) := hupdate _ _
    cases step_cases hs with
    | acquire k hp _ => exact absurd (by rw [hp]; rfl) hupdate
    | unlock k hp => exact absurd (by rw [hp]; rfl) hstore
    | _ => rfl
  keeps_others _ _ _ _ _ _ _ _ h := absurd rfl h
  footprint_set _ _ _ _ := rfl

omit [DecidableEq Tid] [DecidableEq Loc] in
@[simp] theorem erase_holds (p : Pc) : p.erase.holds = p.holds := by
  cases p <;> rfl

omit [DecidableEq Loc] in
theorem erase_goto (s : State Tid Loc Val) (θ : Tid) (p : Pc) :
    (s.goto θ p).erase = s.erase.goto θ p.erase := by
  unfold State.erase State.goto
  congr 1
  funext θ'
  exact Function.apply_update (fun _ p => Pc.erase p) s.pc θ p θ'

omit [DecidableEq Loc] in
theorem erase_goto_of_erase_eq {p : Pc} (h : p.erase = (s.pc θ).erase) :
    (s.goto θ p).erase = s.erase := by
  rw [erase_goto s θ p, h]
  show ({ s.erase with pc := Function.update s.erase.pc θ (s.erase.pc θ) } : State Tid Loc Val) = _
  rw [Function.update_eq_self]

/-- The steps of the program, without the waiting. -/
theorem Exec.erase (hx : Exec waitTime s θ a s') :
    step waitTime s.erase (θ, a) = some s'.erase ∨ s'.erase = s.erase ∧
    (a = .exchange ∨ a = .pause) := by
  have hpc : ∀ {p : Pc}, s.pc θ = p → s.erase.pc θ = p.erase := fun hp => congrArg Pc.erase hp
  unfold step
  cases hx with
  | fail k hp _ => exact Or.inr ⟨erase_goto_of_erase_eq (by rw [hp]; rfl), Or.inl rfl⟩
  | pause k i hp _ => exact Or.inr ⟨erase_goto_of_erase_eq (by rw [hp]; rfl), Or.inr rfl⟩
  | again k i hp _ => exact Or.inr ⟨erase_goto_of_erase_eq (by rw [hp]; rfl), Or.inr rfl⟩
  | acquire k hp hfree =>
    left
    rw [hpc hp]
    show some ({ s.erase.goto θ (if s.atomic then _ else _) with atomic := true } :
      State Tid Loc Val) = _
    rw [hfree]
    exact congrArg (fun s : State Tid Loc Val => some { s with atomic := true })
      (erase_goto s θ (.inside k none)).symm
  | writeCounter k n hp =>
    left
    rw [hpc hp]
    exact congrArg (fun s : State Tid Loc Val => some { s with counter := n + 1 })
      (erase_goto s θ (.inside k none)).symm
  | unlock k hp =>
    left
    rw [hpc hp]
    exact congrArg (fun s : State Tid Loc Val => some { s with atomic := false })
      (erase_goto s θ .outside).symm
  | read k r x hp => left; rw [hpc hp]; rfl
  | write k r x v hp => left; rw [hpc hp]; rfl
  | lock k hp => left; rw [hpc hp]; exact congrArg some (erase_goto s θ (.exchange k)).symm
  | readCounter k r hp =>
    left; rw [hpc hp]; exact congrArg some (erase_goto s θ (.inside k (some s.counter))).symm
  | leave k r hp => left; rw [hpc hp]; exact congrArg some (erase_goto s θ (.unlock k)).symm

omit [DecidableEq Tid] [DecidableEq Loc] in
theorem Exclusive.of_erase (h : Exclusive s.erase n) :
    (∀ θ θ', (s.pc θ).holds = true → (s.pc θ').holds = true → θ = θ') ∧
      (s.atomic = true ↔ ∃ θ, (s.pc θ).holds = true) := by
  have hholds : ∀ θ, (s.erase.pc θ).holds = (s.pc θ).holds := fun θ => erase_holds (s.pc θ)
  have hone := h.one
  have hatomic := h.atomic
  simp only [hholds] at hone hatomic
  exact ⟨hone, hatomic⟩

end Erase

/-! ### The steps on weak memory -/

section Steps

variable {Tid Loc Val τ : Type} [DecidableEq Tid] [DecidableEq Loc] [LinearOrder τ] [OrderBot τ]
  {waitTime : ℤ} {s s' : State Tid Loc Val} {M M' : Memory Tid Unit (Cell Loc) Bool τ} {θ : Tid}
  {a : Micro Loc Val} {n : ℕ}

omit [DecidableEq Tid] [DecidableEq Loc] in
theorem Tame.fresh (data : Loc → Val) : Tame (Spinlock.fresh data : State Tid Loc Val)
    (.fresh fun _ => false : Memory Tid Unit (Cell Loc) Bool τ) :=
  ⟨Memory.chained_fresh _ _, fun _ hh => absurd hh Bool.false_ne_true,
    .fresh _ _ fun _ _ hh => absurd hh Bool.false_ne_true⟩

omit [DecidableEq Tid] [DecidableEq Loc] in
theorem Tame.plain (h : Tame s M) (hholds : ∀ θ ℓ, s'.Holds θ ℓ ↔ s.Holds θ ℓ) : Tame s' M :=
  ⟨h.taken, fun θ hh => h.locked θ ((hholds θ ()).1 hh), h.handed.congr hholds⟩

theorem Tame.touches (h : Tame s M) {l : List (Cell Loc × Access)}
    (hl : ∀ c ∈ l, (guard c.1).Permits s.Holds θ) : Tame s (M.touches θ l) := by
  have hhist : (M.touches θ l).history () = M.history () := congrFun (Memory.touches_history l) ()
  refine ⟨h.taken.congr hhist, fun θ' hh => ?_, h.handed.touches hl⟩
  obtain ⟨m, hm, hfront, hchain⟩ := h.locked θ' hh
  refine ⟨m, by rw [hhist]; exact hm, ?_, hchain.congr hhist⟩
  rw [Memory.touches_front]
  exact hfront

omit [DecidableEq Tid] [DecidableEq Loc] in
/-- **The plain accesses of a step are permitted.** -/
theorem permits (hone : ∀ θ θ', (s.pc θ).holds = true → (s.pc θ').holds = true → θ = θ')
    {c : Cell Loc × Access} (hc : c ∈ (footprint (s.pc θ) a).plain) :
    (guard c.1 : Guard Tid Unit).Permits s.Holds θ := by
  have hholds : (s.pc θ).holds = true := by
    generalize s.pc θ = p at hc
    unfold footprint at hc
    split at hc
    all_goals first | rfl | cases hc
  exact ⟨hholds, fun θ' hθ' => hone θ' θ hθ' hholds⟩

omit [DecidableEq Loc] in
theorem holds_goto {p : Pc} {θ' : Tid} {ℓ : Unit} (hp : p.holds = (s.pc θ).holds) :
    (s.goto θ p).Holds θ' ℓ ↔ s.Holds θ' ℓ := by
  show ((s.goto θ p).pc θ').holds = true ↔ (s.pc θ').holds = true
  by_cases hθ : θ' = θ
  · subst hθ
    rw [goto_pc_self, hp]
  · rw [goto_pc_of_ne hθ]

omit [DecidableEq Loc] in
/-- **An `exchange` that succeeds** has read the newest message. -/
theorem Tame.acquire (h : Tame s M) {m : Message Tid Unit Bool τ} {t : τ} (hm : M.Newest () m)
    (ht : m.time < t) (hnone : ∀ θ ℓ, ¬ s.Holds θ ℓ) (hgets : ∀ θ' ℓ, s'.Holds θ' ℓ → θ' = θ) :
    Tame s' ((M.load .acquire θ () m).add .acquire θ () true t m.time m.view) := by
  have htop : ∀ m' ∈ (M.load .acquire θ () m).history (), m'.time < t :=
    fun m' hm' => (hm.time_le hm').trans_lt ht
  refine ⟨h.taken.update hm ht, fun θ' hh => ?_, h.handed.update hm ht rfl ?_
    fun θ' ℓ hh => absurd hh (hnone θ' ℓ)⟩
  · obtain rfl := hgets θ' () hh
    obtain ⟨m₁, hm₁, -, htime, -⟩ := Memory.newest_add htop θ' .acquire true m.time m.view
    refine ⟨m₁, hm₁.1, ?_, ?_⟩
    · rw [htime]
      exact Memory.time_le_add_front
    · rw [htime]
      exact Memory.chained_add htop
  · exact fun θ' ℓ hh => Or.inr ⟨hgets θ' ℓ hh, rfl, rfl⟩

omit [DecidableEq Loc] in
/-- **An `exchange` that fails** leaves no room where there has been none. -/
theorem Tame.fail (h : Tame s M) (hsound : M.Sound fun _ => s.atomic) {m : Message Tid Unit Bool τ}
    {t : τ} (hm : m ∈ M.history ()) (ht : M.Behind () m t)
    (hholds : ∀ θ ℓ, s'.Holds θ ℓ ↔ s.Holds θ ℓ) :
    Tame s' ((M.load .acquire θ () m).add .acquire θ () true t m.time m.view) := by
  refine Tame.plain ?_ hholds
  rcases hsound.newest_or_below hm ht with hn | ⟨m₀, hm₀, hlt⟩
  · refine ⟨h.taken.update hn ht.1, fun θ' hh => ?_,
      h.handed.update hn ht.1 rfl (fun _ _ hh => Or.inl hh) fun _ _ hh => hh⟩
    obtain ⟨m₁, hm₁, hfront, hchain⟩ := h.locked θ' hh
    exact ⟨m₁, Memory.mem_add_history.2 (Or.inr hm₁),
      (hfront.trans (Memory.le_load_front ())).trans (Memory.le_add_front ()),
      hchain.update hn ht.1⟩
  · have hload : (M.load .acquire θ () m).Newest () m₀ := hm₀.congr rfl
    refine ⟨?_, fun θ' hh => ?_, ?_⟩
    · have htaken : (M.load .acquire θ () m).Chained () fun m => m.value = false :=
        h.taken.congr rfl
      refine htaken.add_below hload hlt fun m' hm' _ => ?_
      rw [hm']
      exact Bool.false_ne_true.symm
    · obtain ⟨m₁, hm₁, hfront, hchain⟩ := h.locked θ' hh
      refine ⟨m₁, Memory.mem_add_history.2 (Or.inr hm₁),
        (hfront.trans (Memory.le_load_front ())).trans (Memory.le_add_front ()), ?_⟩
      have hload' : (M.load .acquire θ () m).Chained () fun m' => m₁.time ≤ m'.time :=
        hchain.congr rfl
      refine hload'.add_below hload hlt fun m' _ htime => ?_
      -- the message that has been read is older than that of the holder
      have hold : m.time < m₁.time := by
        by_contra hle
        have hn := hchain.newest_of_behind hm (not_lt.1 hle) ht
        rw [hn.unique hm₀] at hlt
        exact absurd ht.1 (lt_asymm hlt)
      have hbelow :=
        ((ht.2 m₁ hm₁).resolve_left (not_le.2 hold)).trans_le (hsound.after_le () m₁ hm₁)
      rw [htime]
      exact not_le.2 hbelow
    · have hhanded : (M.load .acquire θ () m).HandedOver guard s.Holds :=
        h.handed.load (fun _ _ hh => Or.inl hh) fun _ _ hh => hh
      exact hhanded.add_below hload hlt

omit [DecidableEq Loc] in
/-- **`unlock()`** puts its `false` on top. -/
theorem Tame.unlock (h : Tame s M) (hsound : M.Sound fun _ => s.atomic)
    (hone : ∀ θ θ', (s.pc θ).holds = true → (s.pc θ').holds = true → θ = θ') {t : τ}
    (hholds : s.Holds θ ()) (hatomic : s.atomic = true) (ht : (M.view θ).front () < t)
    (hfree : M.Free () t) (hnone : ∀ θ' ℓ, ¬ s'.Holds θ' ℓ) :
    (∀ m ∈ M.history (), m.time < t) ∧ Tame s' (M.add .release θ () false t t .bot) := by
  obtain ⟨m₁, hm₁, hfront, hchain⟩ := h.locked θ hholds
  have htop := hchain.top_of_free hm₁ rfl (hfront.trans_lt ht) hfree
  refine ⟨htop, h.taken.add_top htop fun m hm hv => ?_, fun θ' hh => absurd hh (hnone θ' ()), ?_⟩
  · have hval : m.value = s.atomic := hsound.value_eq hm
    rw [hatomic, hv] at hval
    cases hval
  · refine h.handed.release (fun ℓ => ?_) rfl htop hholds (fun θ' hh => hone θ' θ hh hholds)
      fun θ' ℓ => iff_of_false (hnone θ' ℓ) fun hh => hh.2 rfl
    obtain ⟨m, hm, -⟩ := hsound.newest ℓ
    exact ⟨m, hm⟩

omit [DecidableEq Tid] [DecidableEq Loc] [LinearOrder τ] [OrderBot τ] in
theorem footprint_atomic {p : Pc} {x : Atomic Unit} (h : (footprint p a).atomic = some x) :
    (a = .exchange ∧ x = .update .acquire ()) ∨ (a = .store ∧ x = .store .release ()) := by
  unfold footprint at h
  split at h
  case h_1 => cases h; exact Or.inl ⟨rfl, rfl⟩
  case h_6 => cases h; exact Or.inr ⟨rfl, rfl⟩
  all_goals cases h

omit [DecidableEq Loc] [OrderBot τ] in
/-- A failed `exchange` leaves the newest value as it is. -/
theorem settle_fail (hsound : M.Sound fun _ => s.atomic) {m : Message Tid Unit Bool τ} {t : τ}
    {p : Pc} (hm : m ∈ M.history ()) (ht : M.Behind () m t) :
    (if ∀ m' ∈ M.history (), m'.time < t
      then ({ s with atomic := m.value }.goto θ p : State Tid Loc Val)
      else { ({ s with atomic := m.value }.goto θ p : State Tid Loc Val) with
        atomic := s.atomic }) = s.goto θ p := by
  rcases hsound.newest_or_below hm ht with hn | ⟨m₀, hm₀, hlt⟩
  · have hval : m.value = s.atomic := hsound.value_eq hn
    rw [if_pos fun m' hm' => (hn.time_le hm').trans_lt ht.1, hval]
  · rw [if_neg fun htop => lt_asymm hlt (htop m₀ hm₀.1)]
    rfl

/-- **What a step on weak memory does.** -/
theorem Tame.step (h : Tame s M) (hsound : M.Sound fun _ => s.atomic) (hex : Exclusive s.erase n)
    {r t : τ} (hs : (program Tid waitTime).WeakStep s M θ a r t s' M') :
    Tame s' M' ∧ (Spinlock.step waitTime s.erase (θ, a) = some s'.erase ∨
      s'.erase = s.erase ∧ (a = .exchange ∨ a = .pause)) := by
  obtain ⟨hone, hatomic⟩ := hex.of_erase
  have htouch := h.touches fun c hc => permits (θ := θ) (a := a) hone hc
  have hhist : (M.touches θ (footprint (s.pc θ) a).plain).history = M.history :=
    Memory.touches_history _
  have hsound' : (M.touches θ (footprint (s.pc θ) a).plain).Sound fun _ => s.atomic :=
    hsound.congr hhist
  have hbehind : ∀ {m t}, M.Behind () m t →
      (M.touches θ (footprint (s.pc θ) a).plain).Behind () m t := fun ht => by
    rw [Memory.Behind, hhist]
    exact ht
  cases hs with
  | plain hf hs =>
    have hf : (footprint (s.pc θ) a).atomic = none := hf
    have hx := step_cases hs
    refine ⟨htouch.plain fun θ' ℓ => ?_, hx.erase⟩
    cases hx with
    | acquire k hp _ => rw [hp] at hf; cases hf
    | fail k hp _ => rw [hp] at hf; cases hf
    | unlock k hp => rw [hp] at hf; cases hf
    | read | write => exact Iff.rfl
    | writeCounter k n hp => exact holds_goto (by rw [hp]; rfl)
    | lock k hp | pause k i hp _ | again k i hp _ | readCounter k r hp | leave k r hp =>
      exact holds_goto (by rw [hp]; rfl)
  | load hf hm hr hs => rcases footprint_atomic hf with ⟨-, hx⟩ | ⟨-, hx⟩ <;> cases hx
  | store hf hs ht hfree =>
    obtain ⟨rfl, hx⟩ := (footprint_atomic hf).resolve_left (by simp)
    cases hx
    cases step_cases hs with
    | unlock k hp =>
      have hholds : s.Holds θ () := by
        show (s.pc θ).holds = true
        rw [hp]
        rfl
      have hnone : ∀ θ' ℓ, ¬ ({ s.goto θ .outside with atomic := false } :
        State Tid Loc Val).Holds θ' ℓ := by
        intro θ' ℓ hh
        have hh : ((s.goto θ .outside).pc θ').holds = true := hh
        by_cases hθ : θ' = θ
        · subst hθ
          rw [goto_pc_self] at hh
          cases hh
        · rw [goto_pc_of_ne hθ] at hh
          exact hθ (hone θ' θ hh hholds)
      obtain ⟨htop, htame⟩ := htouch.unlock hsound' hone hholds (hatomic.2 ⟨θ, hholds⟩)
        (by rw [Memory.touches_front]; exact ht) (by rw [Memory.Free, hhist]; exact hfree) hnone
      rw [hhist] at htop
      have hrelease : Exec waitTime s θ .store { s.goto θ .outside with atomic := false } :=
        .unlock k hp
      rw [Program.settle_of_top htop]
      exact ⟨htame, hrelease.erase⟩
  | @update o ℓ m s₁ _ hf hm hr hs ht =>
    obtain ⟨rfl, hx⟩ := (footprint_atomic hf).resolve_right (by simp)
    cases hx
    cases step_cases hs with
    | acquire k hp hv =>
      have hv : m.value = false := hv
      have hp : s.pc θ = .exchange k := hp
      have hn := h.taken.newest_of_behind hm hv ht
      have hfree : s.atomic = false := (hsound.value_eq hn).symm.trans hv
      have hnone : ∀ θ' ℓ, ¬ s.Holds θ' ℓ := fun θ' ℓ hh => by
        have htrue := hatomic.2 ⟨θ', hh⟩
        rw [hfree] at htrue
        cases htrue
      have htake : Exec waitTime s θ .exchange { s.goto θ (.inside k none) with atomic := true } :=
        .acquire k hp hfree
      rw [Program.settle_of_top fun m' hm' => (hn.time_le hm').trans_lt ht.1]
      refine ⟨htouch.acquire (hn.congr (congrFun hhist ())) ht.1 hnone
        fun θ' ℓ hh => ?_, htake.erase⟩
      by_contra hθ
      have hh : ((s.goto θ (.inside k none)).pc θ').holds = true := hh
      rw [goto_pc_of_ne hθ] at hh
      exact hnone θ' ℓ hh
    | fail k hp hv =>
      have hp : s.pc θ = .exchange k := hp
      have hsettle : (program Tid waitTime).settle M s
          ({ s with atomic := m.value }.goto θ (.pause k 0)) () t =
          s.goto θ (.pause k 0) := settle_fail hsound hm ht
      rw [show (program Tid waitTime).settle M s
        (((program Tid waitTime).set s () m.value).goto θ (.pause k 0)) () t = _ from hsettle]
      refine ⟨?_, Or.inr ⟨erase_goto_of_erase_eq (by rw [hp]; rfl), Or.inl rfl⟩⟩
      have hval : (program Tid waitTime).get
          (((program Tid waitTime).set s () m.value).goto θ (.pause k 0)) () = true := hv
      rw [hval]
      exact htouch.fail hsound' (by rw [hhist]; exact hm) (hbehind ht)
        fun θ' ℓ => holds_goto (by rw [hp]; rfl)

end Steps

/-! ### Every run on weak memory -/

section Refinement

variable {Tid Loc Val τ L : Type} [DecidableEq Tid] [DecidableEq Loc] [LinearOrder τ] [OrderBot τ]
  {waitTime : ℤ}

/-- What holds in all runs on weak memory, with a log that does not record the waiting. -/
theorem weak_invariant {note : State Tid Loc Val → Tid × Micro Loc Val → L → L}
    (hnote : ∀ s θ l, note s (θ, .exchange) l = l ∧ note s (θ, .pause) l = l) {l₀ : L}
    {x : (State Tid Loc Val × Memory Tid Unit (Cell Loc) Bool τ) × L}
    (hx : (((program Tid waitTime).weak τ).withLog l₀
      fun w b l => note w.1.erase b.1 l).Reachable x) :
    ((system waitTime).withLog l₀ note).Reachable (x.1.1.erase, x.2) ∧
      x.1.2.Sound (fun _ => x.1.1.atomic) ∧ Tame x.1.1 x.1.2 := by
  refine System.Reachable.log_of_simulation
    (f := fun w : State Tid Loc Val × Memory Tid Unit (Cell Loc) Bool τ => w.1.erase)
    (g := Prod.fst) (I := fun w => w.2.Sound (fun _ => w.1.atomic) ∧ Tame w.1 w.2) ?_ ?_ hx
  · rintro ⟨s, M⟩ ⟨⟨data, rfl⟩, hM⟩
    obtain rfl : M = .fresh fun _ => false := hM
    exact ⟨⟨data, rfl⟩, Memory.sound_fresh _, .fresh data⟩
  · rintro ⟨s, M⟩ ⟨⟨θ, a⟩, r, t⟩ ⟨s', M'⟩ ⟨hsound, htame⟩ hreach hstep
    have hweak := Program.weakStep_cases hstep
    obtain ⟨n, hn⟩ := hreach.exists_log 0 Spinlock.note
    obtain ⟨htame', hsim⟩ := htame.step hsound (Exclusive.reachable hn) hweak
    refine ⟨⟨hweak.sound lawful hsound, htame'⟩, hsim.imp id (And.imp id fun ha l => ?_)⟩
    rcases ha with rfl | rfl
    · exact (hnote _ θ l).1
    · exact (hnote _ θ l).2

/-- **The memory orders of the lock are strong enough.** Take any run on weak memory, with any log
that records neither `exchange`s nor pauses. Without the pauses, its last state and its log are
those of a run in which the threads are interleaved on one memory; and no access in a critical
section, by the next step of a thread, is a data race. -/
theorem exchange_orders_suffice {note : State Tid Loc Val → Tid × Micro Loc Val → L → L}
    (hnote : ∀ s θ l, note s (θ, .exchange) l = l ∧ note s (θ, .pause) l = l) {l₀ l : L}
    {s : State Tid Loc Val} {M : Memory Tid Unit (Cell Loc) Bool τ}
    (h : (((program Tid waitTime).weak τ).withLog l₀ fun w b l => note w.1.erase b.1 l).Reachable
      ((s, M), l)) :
    ((system waitTime).withLog l₀ note).Reachable (s.erase, l) ∧
      ∀ θ (a : Micro Loc Val), ∀ c ∈ (footprint (s.pc θ) a).plain, M.Ordered θ c.1 c.2 := by
  obtain ⟨hreach, hsound, htame⟩ := weak_invariant hnote h
  refine ⟨hreach, fun θ a c hc => ?_⟩
  obtain ⟨n, hn⟩ := hreach.of_log.exists_log 0 Spinlock.note
  refine htame.handed.ordered (fun ℓ => ?_) (permits (Exclusive.reachable hn).of_erase.1 hc) c.2
  obtain ⟨m, hm, -⟩ := hsound.newest ℓ
  exact ⟨m, hm⟩

/-- Thread `0` increments `counter` while thread `1` waits. Thread `2` fails to get the lock when it
is free, since it reads what thread `1` has left. Then thread `1` gets it, and reads `counter`. -/
def staleExchange : List ((ℕ × Micro ℕ ℕ) × ℕ × ℕ) :=
  [((0, .lock .raw), 0, 0), ((1, .lock .guard), 0, 0), ((2, .lock .raw), 0, 0),
   ((0, .exchange), 0, 10), ((1, .exchange), 10, 20), ((0, .readCounter), 0, 0),
   ((0, .writeCounter), 0, 0), ((0, .leave), 0, 0), ((0, .store), 0, 30), ((2, .exchange), 20, 25),
   ((1, .pause), 0, 0), ((1, .exchange), 30, 40), ((1, .readCounter), 0, 0)]

/-- Thread `1` has got what thread `0` has written, and thread `2` waits. -/
def handedOver (q : (State ℕ ℕ ℕ × Memory ℕ Unit (Cell ℕ) Bool ℕ) × ℕ) : Bool :=
  decide (q.1.1.pc 1 = .inside .guard (some 1)) && decide (q.1.1.pc 2 = .pause .raw 0) && q.2 == 1

theorem staleExchange_handedOver : (staleExchange.foldlM
    (fun q b => ((program ℕ 0).weakStep q.1 b).map fun w => (w, note q.1.1.erase b.1 q.2))
    ((fresh fun _ => 0, .fresh fun _ => false), 0)).map handedOver = some true := by
  decide +kernel

theorem exchange_orders_suffice_staleExchange :
    ∃ (s : State ℕ ℕ ℕ) (M : Memory ℕ Unit (Cell ℕ) Bool ℕ) (n : ℕ),
      handedOver ((s, M), n) = true ∧ ((system 0).withLog 0 note).Reachable (s.erase, n) ∧
      ∀ θ (a : Micro ℕ ℕ), ∀ c ∈ (footprint (s.pc θ) a).plain, M.Ordered θ c.1 c.2 := by
  have hinit : (((program ℕ 0).weak ℕ).withLog 0 fun w b n => note w.1.erase b.1 n).init
      (((fresh fun _ => 0 : State ℕ ℕ ℕ), .fresh fun _ => false), 0) := ⟨⟨⟨_, rfl⟩, rfl⟩, rfl⟩
  obtain ⟨⟨⟨s, M⟩, n⟩, hr, hp⟩ :=
    System.exists_reachable_of_schedule hinit staleExchange_handedOver (by
      rintro ⟨w, n⟩ b hb ⟨w', n'⟩ hst
      obtain ⟨w₁, hw₁, heq⟩ := Option.map_eq_some_iff.1 hst
      cases heq
      exact ⟨hw₁, rfl⟩)
  exact ⟨s, M, n, hp, exchange_orders_suffice (fun _ _ _ => ⟨rfl, rfl⟩) hr⟩

end Refinement

end AstraLib.Spinlock
