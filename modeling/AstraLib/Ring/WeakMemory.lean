import AstraLib.Interleaving.RaceFreedom
import AstraLib.Ring.Batch
import AstraLib.Ring.Linearizable
import AstraLib.Ring.Transit

/-!
# `AtomicRingBuffer` under release and acquire

Everywhere else the atomic steps of the threads are interleaved on one memory.  Here the loads
and stores have the memory orders that stand in the code, so that a load may return a value
that has been overwritten long ago.

* The counters are changed by `fetch_add` only, so each `fetch_add` reads the newest value.
* The values of a `seq` grow, and while a ticket is claimed, `seq` does not go beyond
  it.  So a spin test that succeeds has read the newest message, and one that has read
  an old message fails and is repeated.
* The `seq` store of a thread hands its payload accesses over to the thread that
  passes its spin test next.

Hence nothing can be observed of the weak memory but more failed spin tests, and no payload access
is a data race.  The answers of `isEmpty` are not part of this: its loads may be stale, and the
calls of `isEmpty` are left out of the interleavings that are compared with.
-/

namespace AstraLib.Ring

open Interleaving Interleaving.ReleaseAcquire

/-- The atomic variables. -/
inductive Loc
  | writeTicket
  | readTicket
  | seq (i : ℕ)
  deriving DecidableEq

/-- The words of the slots and of `batchDequeueArray`. -/
inductive Cell (W : ℕ)
  | data (i : ℕ) (j : Fin W)
  | array (i : ℕ) (j : Fin W)
  deriving DecidableEq

section Program

variable {ω : Type} {W : ℕ}

/-- The value of an atomic variable. -/
def Mem.get (m : Mem ℕ ω W) : Loc → ℕ
  | .writeTicket => m.writeTicket
  | .readTicket => m.readTicket
  | .seq i => (m.buffer i).seq

/-- Another value for an atomic variable. -/
def Mem.set (m : Mem ℕ ω W) (x : ℕ) : Loc → Mem ℕ ω W
  | .writeTicket => { m with writeTicket := x }
  | .readTicket => { m with readTicket := x }
  | .seq i => m.setSeq i x

/-- The words of the array that a word is delivered to. -/
def Dest.cells (j : Fin W) : Dest → List (Cell W × Access)
  | .result => []
  | .batch i _ => [(.array i j, .write)]

/-- The accesses of the atomic steps, with the memory orders. -/
def footprint (cfg : Config) : Pc ℕ ℕ ω W → Micro ω W → Footprint Loc (Cell W)
  | .enqClaim _ _, .claim => ⟨[], some (.update .acq_rel .writeTicket)⟩
  | .enqSpin _ _ t, .spin => ⟨[], some (.load .acquire (.seq (t % cfg.SIZE)))⟩
  | .enqDestroy _ t, .destroy _ =>
      ⟨(List.finRange W).map fun j => (.data (t % cfg.SIZE) j, .write), none⟩
  | .enqCopy _ _ t _, .copy j _ => ⟨[(.data (t % cfg.SIZE) j, .write)], none⟩
  | .enqCopy _ _ t _, .publish => ⟨[], some (.store .release (.seq (t % cfg.SIZE)))⟩
  | .deqClaim _, .claim => ⟨[], some (.update .acq_rel .readTicket)⟩
  | .deqSpin _ t, .spin => ⟨[], some (.load .acquire (.seq (t % cfg.SIZE)))⟩
  | .deqCopy d t _, .copy j _ =>
      ⟨[(.data (t % cfg.SIZE) j, .read), (.data (t % cfg.SIZE) j, .write)] ++ d.cells j, none⟩
  | .deqCopy _ t _, .publish => ⟨[], some (.store .release (.seq (t % cfg.SIZE)))⟩
  | .isEmptyCall, .loadWrite => ⟨[], some (.load .acquire .writeTicket)⟩
  | .isEmptyCall, .loadRead => ⟨[], some (.load .acquire .readTicket)⟩
  | .isEmptyWrite _, .loadRead => ⟨[], some (.load .acquire .readTicket)⟩
  | .isEmptyRead _, .loadWrite => ⟨[], some (.load .acquire .writeTicket)⟩
  | _, _ => ⟨[], none⟩

variable (Tid : Type) [DecidableEq Tid]

/-- The queue, for weak memory. -/
def program (cfg : Config) : Program (State Tid ℕ ℕ ω W) Tid (Micro ω W) Loc (Cell W) ℕ where
  init s := ∃ data array, s = fresh (unbounded cfg) cfg data array
  step := step (unbounded cfg) cfg
  get s := s.mem.get
  set s ℓ x := { s with mem := s.mem.set x ℓ }
  footprint s a := footprint cfg (s.pc a.1) a.2

variable {Tid}

/-- Only thread `b` calls `batchDequeue`. -/
def Batcher (τ : Type) (b : Tid) (_ : State Tid ℕ ℕ ω W × Memory Tid Loc (Cell W) ℕ τ)
    (a : (Tid × Micro ω W) × τ × τ) : Prop :=
  ∀ count, a.1.2 = .call (.batchDequeue count) → a.1.1 = b

/-- Leave the calls of `isEmpty` out. -/
def Pc.erase (p : Pc ℕ ℕ ω W) : Pc ℕ ℕ ω W := if p.op = some .isEmpty then .idle else p

def State.erase (s : State Tid ℕ ℕ ω W) : State Tid ℕ ℕ ω W := ⟨s.mem, fun θ => (s.pc θ).erase⟩

/-- The slots are passed on, the array belongs to `b`. -/
def guard (b : Tid) : Cell W → Guard Tid Loc
  | .data i _ => .loc (.seq i)
  | .array _ _ => .own b

/-- Who is between a spin test and the `seq` store holds the slot. -/
def State.Holds (cfg : Config) (s : State Tid ℕ ℕ ω W) (θ : Tid) : Loc → Prop
  | .seq i => s.Accesses cfg θ i
  | _ => False

end Program

/-! ### The footprints -/

section Lawful

variable {Tid ω : Type} {W : ℕ} [DecidableEq Tid] {cfg : Config}

theorem set_get (m : Mem ℕ ω W) (ℓ : Loc) : m.set (m.get ℓ) ℓ = m := by
  cases ℓ with
  | seq i => simp [Mem.set, Mem.get, Mem.setSeq]
  | _ => rfl

theorem get_set_self (m : Mem ℕ ω W) (ℓ : Loc) (x : ℕ) : (m.set x ℓ).get ℓ = x := by
  cases ℓ with
  | seq i => exact setSeq_seq_self m i x
  | _ => rfl

theorem get_set_of_ne (m : Mem ℕ ω W) {ℓ ℓ' : Loc} (x : ℕ) (h : ℓ' ≠ ℓ) :
    (m.set x ℓ).get ℓ' = m.get ℓ' := by
  cases ℓ with
  | seq i =>
    cases ℓ' with
    | seq i' => exact setSeq_seq_of_ne m x fun hi => h (congrArg _ hi)
    | _ => rfl
  | writeTicket =>
    cases ℓ' with
    | writeTicket => exact absurd rfl h
    | _ => rfl
  | readTicket =>
    cases ℓ' with
    | readTicket => exact absurd rfl h
    | _ => rfl

theorem set_set (m : Mem ℕ ω W) (ℓ : Loc) (x y : ℕ) : (m.set x ℓ).set y ℓ = m.set y ℓ := by
  cases ℓ with
  | seq i => simp [Mem.set, Mem.setSeq]
  | _ => rfl

theorem get_congr {m m' : Mem ℕ ω W} (hw : m'.writeTicket = m.writeTicket)
    (hr : m'.readTicket = m.readTicket) (hs : ∀ i, (m'.buffer i).seq = (m.buffer i).seq) (ℓ : Loc) :
    m'.get ℓ = m.get ℓ := by
  cases ℓ with
  | writeTicket => exact hw
  | readTicket => exact hr
  | seq i => exact hs i

section Exec

variable {m m' : Mem ℕ ω W} {p p' : Pc ℕ ℕ ω W} {a : Micro ω W}

/-- The steps that store into an atomic variable. -/
theorem Exec.get_eq (hx : Exec (unbounded cfg) cfg m p a m' p') :
    (∀ ℓ, m'.get ℓ = m.get ℓ) ∨ ∃ ℓ, (∀ ℓ', ℓ' ≠ ℓ → m'.get ℓ' = m.get ℓ') ∧
      ((footprint cfg p a).atomic = some (.store .release ℓ) ∨
        (footprint cfg p a).atomic = some (.update .acq_rel ℓ)) := by
  cases hx with
  | enqClaim k v =>
    refine Or.inr ⟨.writeTicket, fun ℓ' hne => ?_, Or.inr rfl⟩
    exact get_set_of_ne m (m.writeTicket + 1) hne
  | deqClaim d =>
    refine Or.inr ⟨.readTicket, fun ℓ' hne => ?_, Or.inr rfl⟩
    exact get_set_of_ne m (m.readTicket + 1) hne
  | enqPublish k v t =>
    rw [unbounded_index]
    exact Or.inr ⟨.seq (t % cfg.SIZE), fun ℓ' hne => get_set_of_ne m _ hne, Or.inl rfl⟩
  | deqPublish d t buf v hv =>
    rw [unbounded_index]
    exact Or.inr ⟨.seq (t % cfg.SIZE), fun ℓ' hne => get_set_of_ne m _ hne, Or.inl rfl⟩
  | destroy v t junk => exact Or.inl (get_congr rfl rfl (by simp))
  | enqCopy k v t done j left _ => exact Or.inl (get_congr rfl rfl (by simp [Mem.setWord]))
  | deqCopy d t buf j left _ =>
    exact Or.inl (get_congr (by simp [Mem.setWord]) (by simp [Mem.setWord]) (by simp [Mem.setWord]))
  | _ => exact Or.inl fun _ => rfl

end Exec

theorem lawful : (program Tid cfg : Program (State Tid ℕ ℕ ω W) Tid _ _ (Cell W) _).Lawful where
  get_set_self s ℓ x := get_set_self s.mem ℓ x
  get_set_of_ne s ℓ ℓ' x h := get_set_of_ne s.mem x h
  set_get s ℓ := congrArg (fun m => (⟨m, s.pc⟩ : State Tid ℕ ℕ ω W)) (set_get s.mem ℓ)
  set_set s ℓ x y := congrArg (fun m => (⟨m, s.pc⟩ : State Tid ℕ ℕ ω W)) (set_set s.mem ℓ x y)
  keeps := by
    rintro s ⟨θ, a⟩ s' hs hstore hupdate ℓ
    obtain ⟨m, p, hx, rfl⟩ := step_eq_some.1 hs
    rcases hx.get_eq with hsame | ⟨ℓ, -, hf | hf⟩
    · exact hsame ℓ
    · exact absurd hf (hstore _ _)
    · exact absurd hf (hupdate _ _)
  keeps_others := by
    rintro s ⟨θ, a⟩ s' o ℓ hs hf ℓ' hne
    obtain ⟨m, p, hx, rfl⟩ := step_eq_some.1 hs
    rcases hx.get_eq with hsame | ⟨ℓ₀, hsame, hf'⟩
    · exact hsame ℓ'
    · obtain rfl : ℓ₀ = ℓ := by
        have hf : (footprint cfg (s.pc θ) a).atomic = _ ∨
            (footprint cfg (s.pc θ) a).atomic = _ := hf
        rcases hf with hf | hf <;> rcases hf' with hf' | hf' <;> rw [hf] at hf' <;> cases hf'
        · rfl
        · rfl
      exact hsame ℓ' hne
  footprint_set _ _ _ _ := rfl

end Lawful

/-! ### Without the calls of `isEmpty` -/

section Erase

variable {Tid ω : Type} {W : ℕ} {cfg : Config} {s : State Tid ℕ ℕ ω W}

theorem Pc.erase_of_ne {p : Pc ℕ ℕ ω W} (h : p.op ≠ some .isEmpty) : p.erase = p := if_neg h

theorem Pc.erase_of_isEmpty {p : Pc ℕ ℕ ω W} (h : p.op = some .isEmpty) :
    p.erase = .idle := if_pos h

theorem Pc.erase_tickets (p : Pc ℕ ℕ ω W) :
    p.erase.writing = p.writing ∧ p.erase.reading = p.reading ∧
    p.erase.filling = p.filling ∧ p.erase.draining = p.draining := by
  by_cases h : p.op = some .isEmpty
  · rw [Pc.erase_of_isEmpty h]
    cases p with
    | isEmptyCall | isEmptyWrite _ | isEmptyRead _ | isEmptyReturn _ => exact ⟨rfl, rfl, rfl, rfl⟩
    | deqClaim d => cases d <;> cases h
    | deqSpin d t => cases d <;> cases h
    | deqCopy d t buf => cases d <;> cases h
    | _ => cases h
  · rw [Pc.erase_of_ne h]
    exact ⟨rfl, rfl, rfl, rfl⟩

/-- The tickets are the same with and without the calls of `isEmpty`. -/
theorem Tickets.of_erase {l : Log Tid ω W} (h : Tickets cfg s.erase l) : Tickets cfg s l := by
  have hpc := fun θ => (s.pc θ).erase_tickets
  refine ⟨h.writeTicket_eq, h.readTicket_eq, fun θ t v => ?_, fun θ t => ?_, fun θ t hf => ?_,
    fun θ t hd => ?_, h.published_lt, h.consumed_lt, h.turn⟩
  · rw [← (hpc θ).1]
    exact h.writing_iff θ t v
  · rw [← (hpc θ).2.1]
    exact h.reading_iff θ t
  · exact h.filling_eq θ t ((hpc θ).2.2.1.trans hf)
  · exact h.draining_eq θ t ((hpc θ).2.2.2.trans hd)

variable [DecidableEq Tid] {θ : Tid} {m' : Mem ℕ ω W} {p' : Pc ℕ ℕ ω W} {a : Micro ω W}

theorem erase_put : (s.put θ m' p').erase = s.erase.put θ m' p'.erase := by
  unfold State.erase State.put
  congr 1
  funext θ'
  exact Function.apply_update (fun _ p => Pc.erase p) s.pc θ p' θ'

theorem Exec.erase_step (hx : Exec (unbounded cfg) cfg s.mem (s.pc θ) a m' p')
    (hp : (s.pc θ).op ≠ some .isEmpty) (hp' : p'.op ≠ some .isEmpty) :
    step (unbounded cfg) cfg s.erase (θ, a) = some (s.put θ m' p').erase := by
  refine step_eq_some.2 ⟨m', p', ?_, by rw [erase_put, Pc.erase_of_ne hp']⟩
  show Exec _ _ s.mem (s.pc θ).erase a m' p'
  rw [Pc.erase_of_ne hp]
  exact hx

theorem erase_put_of_erase_eq (h : p'.erase = (s.pc θ).erase) :
    (s.put θ s.mem p').erase = s.erase := by
  rw [erase_put, h]
  show State.put _ θ s.mem (s.erase.pc θ) = _
  unfold State.put
  rw [Function.update_eq_self]
  rfl

end Erase

/-! ### The invariant -/

/-- What holds of the weak memory. -/
structure Tame {Tid ω τ : Type} {W : ℕ} [LinearOrder τ] [OrderBot τ] (cfg : Config) (b : Tid)
    (s : State Tid ℕ ℕ ω W) (M : Memory Tid Loc (Cell W) ℕ τ) : Prop where
  /-- the values of a `seq` grow -/
  grows : ∀ i, ∀ m ∈ M.history (.seq i), ∀ m' ∈ M.history (.seq i), m.time < m'.time →
    m.value < m'.value
  /-- the counters are changed by `fetch_add` only -/
  write : M.Chained .writeTicket fun _ => True
  read : M.Chained .readTicket fun _ => True
  upToDate : ∀ θ i, s.Accesses cfg θ i → M.UpToDate θ (.seq i)
  handed : M.HandedOver (guard b) (s.Holds cfg)
  batch : ∀ θ, (s.pc θ).op = some .batchDequeue → θ = b

section Invariant

variable {Tid ω τ : Type} {W : ℕ} [LinearOrder τ] [OrderBot τ] {cfg : Config} {b : Tid}
  {s : State Tid ℕ ℕ ω W} {M : Memory Tid Loc (Cell W) ℕ τ}

theorem Tame.fresh (data array : ℕ → Payload ω W) :
    Tame cfg b (Ring.fresh (unbounded cfg) cfg data array : State Tid ℕ ℕ ω W)
      (.fresh (Ring.fresh (unbounded cfg) cfg data array : State Tid ℕ ℕ ω W).mem.get :
        Memory Tid Loc (Cell W) ℕ τ) := by
  have hidle : ∀ θ i, ¬ (Ring.fresh (unbounded cfg) cfg data array :
      State Tid ℕ ℕ ω W).Accesses cfg θ i := by
    rintro θ i ⟨t, ht | ht, -⟩ <;> cases ht
  refine ⟨fun i m hm m' hm' hlt => ?_, Memory.chained_fresh _ _, Memory.chained_fresh _ _,
    fun θ i ha => ?_, .fresh _ _ fun θ ℓ hh => ?_, fun θ hθ => ?_⟩
  · rw [List.mem_singleton.1 hm, List.mem_singleton.1 hm'] at hlt
    exact absurd hlt (lt_irrefl _)
  · exact absurd ha (hidle θ i)
  · cases ℓ with
    | seq i => exact hidle θ i hh
    | _ => exact hh
  · cases hθ

/-- No message of a slot has a greater value than the newest. -/
theorem Tame.value_le (h : Tame cfg b s M) (hsound : M.Sound s.mem.get) {i : ℕ}
    {m : Message Tid Loc ℕ τ} (hm : m ∈ M.history (.seq i)) : m.value ≤ (s.mem.buffer i).seq := by
  obtain ⟨m₀, hm₀, hv⟩ := hsound.newest (.seq i)
  rw [show (s.mem.buffer i).seq = m₀.value from hv.symm]
  rcases hm₀.2 m hm with rfl | hlt
  · exact le_rfl
  · exact (h.grows i m hm m₀ hm₀.1 hlt).le

/-- A message that is not older than the value that the slot has is the newest one. -/
theorem Tame.newest_of_le (h : Tame cfg b s M) (hsound : M.Sound s.mem.get) {i : ℕ}
    {m : Message Tid Loc ℕ τ} (hm : m ∈ M.history (.seq i)) (hle : (s.mem.buffer i).seq ≤ m.value) :
    M.Newest (.seq i) m := by
  obtain ⟨m₀, hm₀, hv⟩ := hsound.newest (.seq i)
  rcases hm₀.2 m hm with rfl | hlt
  · exact hm₀
  · have hgrows := h.grows i m hm m₀ hm₀.1 hlt
    have hv : m₀.value = (s.mem.buffer i).seq := hv
    omega

variable [DecidableEq Tid] {θ : Tid} {m' : Mem ℕ ω W} {p' : Pc ℕ ℕ ω W} {a : Micro ω W}

omit [LinearOrder τ] [OrderBot τ] in
theorem accesses_put {θ' : Tid} {i : ℕ} : (s.put θ m' p').Accesses cfg θ' i ↔
    θ' ≠ θ ∧ s.Accesses cfg θ' i ∨
      θ' = θ ∧ ∃ t, (p'.filling = some t ∨ p'.draining = some t) ∧ t % cfg.SIZE = i := by
  by_cases hθ : θ' = θ
  · subst hθ
    simp [State.Accesses]
  · simp [State.Accesses, put_pc_of_ne hθ, hθ]

omit [LinearOrder τ] [OrderBot τ] in
/-- Most steps leave it as it is who holds the slots. -/
theorem accesses_put_of_eq (hf : p'.filling = (s.pc θ).filling)
    (hd : p'.draining = (s.pc θ).draining) {θ' : Tid} {i : ℕ} :
    (s.put θ m' p').Accesses cfg θ' i ↔ s.Accesses cfg θ' i := by
  rw [accesses_put, hf, hd]
  by_cases hθ : θ' = θ
  · subst hθ
    simp [State.Accesses]
  · simp [hθ]

omit [LinearOrder τ] [OrderBot τ] in
theorem holds_put_of_eq (hf : p'.filling = (s.pc θ).filling) (hd : p'.draining = (s.pc θ).draining)
    (θ' : Tid) (ℓ : Loc) : (s.put θ m' p').Holds cfg θ' ℓ ↔ s.Holds cfg θ' ℓ := by
  cases ℓ with
  | seq i => exact accesses_put_of_eq hf hd
  | _ => exact Iff.rfl

/-- A thread that is in `batchDequeue` is the one that may be. -/
theorem Tame.batch_put (h : Tame cfg b s M) {m : Mem ℕ ω W}
    (hx : Exec (unbounded cfg) cfg m (s.pc θ) a m' p')
    (hb : ∀ count, a = .call (.batchDequeue count) → θ = b) {m₁ : Mem ℕ ω W} (θ' : Tid)
    (hθ' : ((s.put θ m₁ p').pc θ').op = some .batchDequeue) : θ' = b := by
  by_cases hθ : θ' = θ
  · subst hθ
    rw [put_pc_self] at hθ'
    by_cases hcall : ∃ c, a = .call c
    · obtain ⟨c, rfl⟩ := hcall
      obtain ⟨-, -, rfl⟩ := hx.call_inv
      rw [entry_op] at hθ'
      cases c with
      | batchDequeue count => exact hb count rfl
      | _ => cases hθ'
    by_cases hret : a = .ret
    · subst hret
      obtain ⟨-, rfl⟩ := hx.ret_inv
      cases hθ'
    · rw [hx.op_eq (fun c hc => hcall ⟨c, hc⟩) hret] at hθ'
      exact h.batch θ' hθ'
  · rw [put_pc_of_ne hθ] at hθ'
    exact h.batch θ' hθ'

omit [DecidableEq Tid] in
/-- **The plain accesses of a step are permitted.** -/
theorem Tame.permits {l : Log Tid ω W} (h : Tame cfg b s M) (hT : Tickets cfg s l)
    {c : Cell W × Access} (hc : c ∈ (footprint cfg (s.pc θ) a).plain) :
    (guard b c.1).Permits (s.Holds cfg) θ := by
  have hslot : ∀ {t} (j : Fin W), (s.pc θ).filling = some t ∨ (s.pc θ).draining = some t →
      (guard b (.data (t % cfg.SIZE) j)).Permits (s.Holds cfg) θ := by
    intro t j ht
    have ha : s.Accesses cfg θ (t % cfg.SIZE) := ⟨t, ht, rfl⟩
    exact ⟨ha, fun θ' ha' => hT.accesses_unique ha' ha⟩
  generalize hp : s.pc θ = p at hc hslot
  unfold footprint at hc
  split at hc
  case h_3 =>
    obtain ⟨j, -, rfl⟩ := List.mem_map.1 hc
    exact hslot j (Or.inl rfl)
  case h_4 =>
    obtain rfl := List.mem_singleton.1 hc
    exact hslot _ (Or.inl rfl)
  case h_8 d t buf j left =>
    rcases List.mem_append.1 hc with hc | hc
    · have hcell : c.1 = .data (t % cfg.SIZE) j := by
        rcases List.mem_pair.1 hc with rfl | rfl <;> rfl
      rw [hcell]
      exact hslot j (Or.inr rfl)
    · cases d with
      | result => cases hc
      | batch i count =>
        obtain rfl := List.mem_singleton.1 hc
        exact (h.batch θ (by rw [hp]; rfl)).symm
  all_goals cases hc

omit [DecidableEq Tid] in
theorem Tame.touches [DecidableEq Tid] (h : Tame cfg b s M) {l : List (Cell W × Access)}
    (hl : ∀ c ∈ l, (guard b c.1).Permits (s.Holds cfg) θ) : Tame cfg b s (M.touches θ l) := by
  refine ⟨fun i => ?_, h.write.congr (congrFun (Memory.touches_history _) _),
    h.read.congr (congrFun (Memory.touches_history _) _),
    fun θ' i ha => (h.upToDate θ' i ha).touches l, h.handed.touches hl, h.batch⟩
  rw [Memory.touches_history]
  exact h.grows i

/-- Steps that leave the locations alone, and let no thread get hold of a slot. -/
theorem Tame.plain (h : Tame cfg b s M) (hf : p'.filling = (s.pc θ).filling)
    (hd : p'.draining = (s.pc θ).draining)
    (hbatch : ∀ θ', ((s.put θ m' p').pc θ').op = some .batchDequeue → θ' = b) :
    Tame cfg b (s.put θ m' p') M :=
  ⟨h.grows, h.write, h.read, fun θ' i ha => h.upToDate θ' i ((accesses_put_of_eq hf hd).1 ha),
    h.handed.congr (holds_put_of_eq hf hd), hbatch⟩

/-- A load. Only a load of the newest message lets the thread get hold of a slot. -/
theorem Tame.load (h : Tame cfg b s M) {o : MemoryOrder} {ℓ : Loc} {m : Message Tid Loc ℕ τ}
    (hgets : ∀ θ' i, (s.put θ m' p').Accesses cfg θ' i → s.Accesses cfg θ' i ∨
      θ' = θ ∧ .seq i = ℓ ∧ o.acquires = true ∧ M.Newest ℓ m)
    (hkeeps : ∀ θ' i, s.Accesses cfg θ' i → (s.put θ m' p').Accesses cfg θ' i)
    (hbatch : ∀ θ', ((s.put θ m' p').pc θ').op = some .batchDequeue → θ' = b) :
    Tame cfg b (s.put θ m' p') (M.load o θ ℓ m) := by
  refine ⟨h.grows, h.write.congr rfl, h.read.congr rfl, fun θ' i ha => ?_,
    h.handed.load ?_ ?_, hbatch⟩
  · rcases hgets θ' i ha with hold | ⟨rfl, rfl, -, hm⟩
    · exact (h.upToDate θ' i hold).load
    · exact .of_load hm
  · intro θ' ℓ' hh
    cases ℓ' with
    | seq i => exact hgets θ' i hh
    | _ => exact hh.elim
  · intro θ' ℓ' hh
    cases ℓ' with
    | seq i => exact hkeeps θ' i hh
    | _ => exact hh

/-- A thread that passes its spin test gets hold of the slot. -/
theorem Tame.pass (h : Tame cfg b s M) {t : ℕ} {m : Message Tid Loc ℕ τ}
    (hm : M.Newest (.seq (t % cfg.SIZE)) m) (hf : (s.pc θ).filling = none)
    (hd : (s.pc θ).draining = none)
    (hput : p'.filling = some t ∧ p'.draining = none ∨ p'.filling = none ∧ p'.draining = some t)
    (hbatch : ∀ θ', ((s.put θ m' p').pc θ').op = some .batchDequeue → θ' = b) :
    Tame cfg b (s.put θ m' p') (M.load .acquire θ (.seq (t % cfg.SIZE)) m) := by
  have hno : ∀ i, ¬ s.Accesses cfg θ i := by
    rintro i ⟨u, hu | hu, -⟩
    · rw [hf] at hu
      cases hu
    · rw [hd] at hu
      cases hu
  refine h.load (fun θ' i ha => ?_) (fun θ' i ha => ?_) hbatch
  · rcases accesses_put.1 ha with ⟨-, hold⟩ | ⟨rfl, u, hu, rfl⟩
    · exact Or.inl hold
    · obtain rfl : t = u := by
        rcases hput with ⟨h₁, h₂⟩ | ⟨h₁, h₂⟩ <;> rw [h₁, h₂] at hu <;> simpa using hu
      exact Or.inr ⟨rfl, rfl, rfl, hm⟩
  · refine accesses_put.2 (Or.inl ⟨?_, ha⟩)
    rintro rfl
    exact hno i ha

/-- The `seq` store gives the slot up. -/
theorem Tame.publish {l : Log Tid ω W} (h : Tame cfg b s M) (hsound : M.Sound s.mem.get)
    (hT : Tickets cfg s l) {t x : ℕ} {r : τ}
    (ht : (s.pc θ).filling = some t ∨ (s.pc θ).draining = some t)
    (hx : (s.mem.buffer (t % cfg.SIZE)).seq < x)
    (hr : ∀ m ∈ M.history (.seq (t % cfg.SIZE)), m.time < r) (hf' : p'.filling = none)
    (hd' : p'.draining = none)
    (hbatch : ∀ θ', ((s.put θ m' p').pc θ').op = some .batchDequeue → θ' = b) :
    Tame cfg b (s.put θ m' p') (M.add .release θ (.seq (t % cfg.SIZE)) x r r .bot) := by
  have hθ : s.Accesses cfg θ (t % cfg.SIZE) := ⟨t, ht, rfl⟩
  have honly : ∀ {i}, s.Accesses cfg θ i → i = t % cfg.SIZE := by
    rintro i ⟨u, hu, rfl⟩
    obtain rfl : u = t := by
      generalize s.pc θ = p at ht hu
      cases p <;> simp_all [Pc.filling, Pc.draining]
    rfl
  have hput : ∀ {θ' i}, (s.put θ m' p').Accesses cfg θ' i ↔ s.Accesses cfg θ' i ∧
      i ≠ t % cfg.SIZE := by
    intro θ' i
    rw [accesses_put, hf', hd']
    constructor
    · rintro (⟨hne, hold⟩ | ⟨-, u, hu, -⟩)
      · refine ⟨hold, ?_⟩
        rintro rfl
        exact hne (hT.accesses_unique hold hθ)
      · rcases hu with hu | hu <;> cases hu
    · rintro ⟨hold, hne⟩
      refine Or.inl ⟨?_, hold⟩
      rintro rfl
      exact hne (honly hold)
  refine ⟨fun i m hm m₁ hm₁ hlt => ?_, h.write.congr (Memory.add_history_of_ne (by simp)),
    h.read.congr (Memory.add_history_of_ne (by simp)), fun θ' i ha => ?_, ?_, hbatch⟩
  · by_cases hi : i = t % cfg.SIZE
    · subst hi
      rcases Memory.mem_add_history.1 hm with ⟨-, htime, -, -⟩ | hold
      · rcases Memory.mem_add_history.1 hm₁ with ⟨-, htime₁, -, -⟩ | hold₁
        · exact absurd hlt (by rw [htime, htime₁]; exact lt_irrefl r)
        · exact absurd (hr m₁ hold₁) (by rw [← htime]; exact lt_asymm hlt)
      · rcases Memory.mem_add_history.1 hm₁ with ⟨hv, -, -, -⟩ | hold₁
        · exact hv ▸ (h.value_le hsound hold).trans_lt hx
        · exact h.grows _ m hold m₁ hold₁ hlt
    · have hne : Loc.seq i ≠ .seq (t % cfg.SIZE) := fun heq => hi (Loc.seq.inj heq)
      rw [Memory.add_history_of_ne hne] at hm hm₁
      exact h.grows i m hm m₁ hm₁ hlt
  · obtain ⟨hold, hne⟩ := hput.1 ha
    exact (h.upToDate θ' i hold).add_of_ne fun heq => hne (Loc.seq.inj heq)
  · refine h.handed.release (fun ℓ => ?_) rfl hr hθ (fun θ' ha => hT.accesses_unique ha hθ)
      fun θ' ℓ => ?_
    · obtain ⟨m, hm, -⟩ := hsound.newest ℓ
      exact ⟨m, hm⟩
    · cases ℓ with
      | seq i =>
        refine hput.trans (and_congr_right fun _ => ?_)
        simp
      | _ => exact ⟨False.elim, fun hh => hh.1⟩

/-- A `fetch_add` on a counter. -/
theorem Tame.claim (h : Tame cfg b s M) {ℓ : Loc} {m : Message Tid Loc ℕ τ} {x : ℕ} {t : τ}
    (hm : M.Newest ℓ m) (hℓ : ∀ i, ℓ ≠ .seq i) (ht : m.time < t)
    (hf : p'.filling = (s.pc θ).filling) (hd : p'.draining = (s.pc θ).draining)
    (hbatch : ∀ θ', ((s.put θ m' p').pc θ').op = some .batchDequeue → θ' = b) :
    Tame cfg b (s.put θ m' p') ((M.load .acq_rel θ ℓ m).add .acq_rel θ ℓ x t m.time m.view) := by
  have hacc : ∀ {θ' i}, (s.put θ m' p').Accesses cfg θ' i ↔ s.Accesses cfg θ' i :=
    accesses_put_of_eq hf hd
  have hload : Tame cfg b (s.put θ m' p') (M.load .acq_rel θ ℓ m) :=
    h.load (fun θ' i ha => Or.inl (hacc.1 ha)) (fun θ' i ha => hacc.2 ha) hbatch
  have hne : ∀ i, Loc.seq i ≠ ℓ := fun i => (hℓ i).symm
  refine ⟨fun i => ?_, h.write.update hm ht, h.read.update hm ht, fun θ' i ha =>
    (hload.upToDate θ' i ha).add_of_ne (hne i),
    hload.handed.add_unguarded (fun c => ?_) (fun θ' hh => ?_), hbatch⟩
  · rw [Memory.add_history_of_ne (hne i)]
    exact hload.grows i
  · cases c with
    | data i j => exact fun heq => hne i (Guard.loc.inj heq)
    | array i j => simp [guard]
  · cases ℓ with
    | seq i => exact hne i rfl
    | _ => exact hh

end Invariant

/-! ### The steps on weak memory -/

section Steps

variable {Tid ω τ : Type} {W : ℕ} [DecidableEq Tid] [LinearOrder τ] [OrderBot τ] {cfg : Config}
  {b : Tid} {s s' : State Tid ℕ ℕ ω W} {M M' : Memory Tid Loc (Cell W) ℕ τ} {θ : Tid}
  {m' : Mem ℕ ω W} {p' : Pc ℕ ℕ ω W} {a : Micro ω W}

/-- The steps that the interleavings need not have: spin tests and the steps of `isEmpty`. -/
def Skips (s : State Tid ℕ ℕ ω W) (θ : Tid) (a : Micro ω W) : Prop :=
  a = .spin ∨ s.pc θ = .idle ∧ ∀ c, a = .call c → c = .isEmpty

/-- A step on weak memory is a step of an interleaving, or it can be left out. -/
def Simulated (cfg : Config) (s s' : State Tid ℕ ℕ ω W) (θ : Tid) (a : Micro ω W) : Prop :=
  s'.erase = s.erase ∧ Skips s.erase θ a ∨ step (unbounded cfg) cfg s.erase (θ, a) = some s'.erase

omit [DecidableEq Tid] in
theorem skips_of_isEmpty (hx : (s.pc θ).op = some .isEmpty)
    (hcall : ∀ c, a ≠ .call c) : Skips s.erase θ a :=
  Or.inr ⟨Pc.erase_of_isEmpty hx, fun c hc => absurd hc (hcall c)⟩

/-- A step of the program is simulated by itself. -/
theorem Exec.simulated (hx : Exec (unbounded cfg) cfg s.mem (s.pc θ) a m' p') :
    Simulated cfg s (s.put θ m' p') θ a := by
  by_cases hp : (s.pc θ).op = some .isEmpty
  · have hcall : ∀ c, a ≠ .call c := by
      rintro c rfl
      rw [hx.call_inv.1] at hp
      cases hp
    refine Or.inl ⟨?_, skips_of_isEmpty hp hcall⟩
    have hm : m' = s.mem := by
      generalize s.pc θ = p at hx hp
      cases hx with
      | deqClaim d | deqPublish d | deqCopy d => cases d <;> cases hp
      | firstWrite | firstRead | thenRead | thenWrite | isEmptyRet => rfl
      | _ => first | rfl | cases hp
    subst hm
    refine erase_put_of_erase_eq ?_
    rw [Pc.erase_of_isEmpty hp]
    by_cases hret : a = .ret
    · subst hret
      rw [hx.ret_inv.2]
      rfl
    · exact Pc.erase_of_isEmpty ((hx.op_eq hcall hret).trans hp)
  by_cases hp' : p'.op = some .isEmpty
  · -- a call of `isEmpty`
    by_cases hcall : ∃ c, a = .call c
    · obtain ⟨c, rfl⟩ := hcall
      obtain ⟨hidle, rfl, rfl⟩ := hx.call_inv
      have herase : (s.pc θ).erase = .idle := by rw [hidle]; rfl
      refine Or.inl ⟨erase_put_of_erase_eq ?_, Or.inr ⟨herase, fun c' hc' => ?_⟩⟩
      · rw [herase, Pc.erase_of_isEmpty hp']
      · cases hc'
        rw [entry_op] at hp'
        cases c with
        | isEmpty => rfl
        | _ => cases hp'
    · by_cases hret : a = .ret
      · subst hret
        rw [hx.ret_inv.2] at hp'
        cases hp'
      · rw [hx.op_eq (fun c hc => hcall ⟨c, hc⟩) hret] at hp'
        exact absurd hp' hp
  · exact Or.inr (hx.erase_step hp hp')

/-- A load shows the thread another value, and the others nothing. -/
theorem load_put (ℓ : Loc) (x : ℕ) :
    (⟨(s.mem.set x ℓ).set (s.mem.get ℓ) ℓ, Function.update s.pc θ p'⟩ :
    State Tid ℕ ℕ ω W) = s.put θ s.mem p' := by
  rw [set_set, set_get]
  rfl

/-- The loads of `isEmpty`. -/
theorem simulated_isEmpty (hp : (s.pc θ).op = some .isEmpty) (hp' : p'.op = some .isEmpty)
    (hcall : ∀ c, a ≠ .call c) : Simulated cfg s (s.put θ s.mem p') θ a := by
  refine Or.inl ⟨erase_put_of_erase_eq ?_, skips_of_isEmpty hp hcall⟩
  rw [Pc.erase_of_isEmpty hp, Pc.erase_of_isEmpty hp']

/-- **Loads.** A spin test that succeeds has read the newest message. -/
theorem Tame.load_step {l : Log Tid ω W} (h : Tame cfg b s M) (hsound : M.Sound s.mem.get)
    (hT : Tickets cfg s l) (hb : ∀ count, a = .call (.batchDequeue count) → θ = b) {o : MemoryOrder}
    {ℓ : Loc} {m : Message Tid Loc ℕ τ} (hf : (footprint cfg (s.pc θ) a).atomic = some (.load o ℓ))
    (hm : m ∈ M.history ℓ) (hx : Exec (unbounded cfg) cfg (s.mem.set m.value ℓ) (s.pc θ) a m' p') :
    m' = s.mem.set m.value ℓ ∧ Tame cfg b (s.put θ s.mem p') (M.load o θ ℓ m) ∧
      Simulated cfg s (s.put θ s.mem p') θ a := by
  have hbatch : ∀ θ', ((s.put θ s.mem p').pc θ').op = some .batchDequeue → θ' = b :=
    h.batch_put hx hb
  have hstays : p'.filling = (s.pc θ).filling → p'.draining = (s.pc θ).draining →
      Tame cfg b (s.put θ s.mem p') (M.load o θ ℓ m) := fun hfill hdrain =>
    h.load (fun _ _ ha => Or.inl ((accesses_put_of_eq hfill hdrain).1 ha))
      (fun _ _ ha => (accesses_put_of_eq hfill hdrain).2 ha) hbatch
  generalize hp : s.pc θ = p at hf hx hstays
  cases hx with
  | enqPass k v t hv =>
    cases hf
    have hv : m.value = t := by simpa [Mem.set] using hv
    have hle : (s.mem.buffer (t % cfg.SIZE)).seq ≤ t :=
      ((hT.writing_iff θ t v).1 (by rw [hp]; rfl)).2
    have hnew := h.newest_of_le hsound hm (hv ▸ hle)
    have hseq : (s.mem.buffer (t % cfg.SIZE)).seq = t := (hsound.value_eq hnew).symm.trans hv
    refine ⟨rfl, h.pass hnew (by rw [hp]; rfl) (by rw [hp]; rfl) (Or.inl ⟨by simp, by simp⟩) hbatch,
      ?_⟩
    exact Exec.simulated (hp ▸ .enqPass k v t (by simpa using hseq))
  | deqPass d t hv =>
    cases hf
    have hv : m.value = t + 1 := by simpa [Mem.set] using hv
    have hle : (s.mem.buffer (t % cfg.SIZE)).seq ≤ t + 1 :=
      ((hT.reading_iff θ t).1 (by rw [hp]; rfl)).2
    have hnew := h.newest_of_le hsound hm (hv ▸ hle)
    have hseq : (s.mem.buffer (t % cfg.SIZE)).seq = t + 1 := (hsound.value_eq hnew).symm.trans hv
    refine ⟨rfl, h.pass hnew (by rw [hp]; rfl) (by rw [hp]; rfl) (Or.inr ⟨rfl, rfl⟩) hbatch, ?_⟩
    exact Exec.simulated (hp ▸ .deqPass d t (by simpa using hseq))
  | enqRetry k v t _ =>
    exact ⟨rfl, hstays rfl rfl, Or.inl ⟨erase_put_of_erase_eq (by rw [hp]), Or.inl rfl⟩⟩
  | deqRetry d t _ =>
    exact ⟨rfl, hstays rfl rfl, Or.inl ⟨erase_put_of_erase_eq (by rw [hp]), Or.inl rfl⟩⟩
  | firstWrite => exact ⟨rfl, hstays rfl rfl, simulated_isEmpty (by rw [hp]; rfl) rfl (by simp)⟩
  | firstRead => exact ⟨rfl, hstays rfl rfl, simulated_isEmpty (by rw [hp]; rfl) rfl (by simp)⟩
  | thenRead w => exact ⟨rfl, hstays rfl rfl, simulated_isEmpty (by rw [hp]; rfl) rfl (by simp)⟩
  | thenWrite r => exact ⟨rfl, hstays rfl rfl, simulated_isEmpty (by rw [hp]; rfl) rfl (by simp)⟩
  | _ => cases hf

/-- **Stores.** The `seq` store of the thread that has the slot is newer than all others. -/
theorem Tame.store_step {l : Log Tid ω W} (h : Tame cfg b s M) (hsound : M.Sound s.mem.get)
    (hT : Tickets cfg s l) (hb : ∀ count, a = .call (.batchDequeue count) → θ = b) {o : MemoryOrder}
    {ℓ : Loc} {t : τ} (hf : (footprint cfg (s.pc θ) a).atomic = some (.store o ℓ))
    (ht : (M.view θ).front ℓ < t) (hx : Exec (unbounded cfg) cfg s.mem (s.pc θ) a m' p') :
    (∀ m ∈ M.history ℓ, m.time < t) ∧ Tame cfg b (s.put θ m' p')
    (M.add o θ ℓ (m'.get ℓ) t t .bot) := by
  have hbatch : ∀ θ', ((s.put θ m' p').pc θ').op = some .batchDequeue → θ' = b := h.batch_put hx hb
  generalize hp : s.pc θ = p at hf hx
  cases hx with
  | enqPublish k v u =>
    cases hf
    have hfill : (s.pc θ).filling = some u := by rw [hp]; rfl
    have htop := (h.upToDate θ (u % cfg.SIZE) ⟨u, Or.inl hfill, rfl⟩).lt_of_front_lt ht
    have hseq : (s.mem.buffer (u % cfg.SIZE)).seq = u := hT.filling_eq θ u hfill
    refine ⟨htop, h.publish hsound hT (Or.inl hfill) ?_ htop rfl rfl hbatch⟩
    simp [Mem.get, hseq]
  | deqPublish d u buf v hv =>
    cases hf
    have hdrain : (s.pc θ).draining = some u := by rw [hp]; rfl
    have htop := (h.upToDate θ (u % cfg.SIZE) ⟨u, Or.inr hdrain, rfl⟩).lt_of_front_lt ht
    have hseq : (s.mem.buffer (u % cfg.SIZE)).seq = u + 1 := hT.draining_eq θ u hdrain
    refine ⟨htop, h.publish hsound hT (Or.inr hdrain) ?_ htop (deqPast_quiet u v d).filling
      (deqPast_quiet u v d).draining hbatch⟩
    have := cfg.two_le
    simp only [Mem.get, unbounded_index, unbounded_store, unbounded_add, setSeq_seq_self, hseq]
    omega
  | _ => cases hf

/-- **`fetch_add`.** It reads the newest value of the counter. -/
theorem Tame.update_step (h : Tame cfg b s M)
    (hb : ∀ count, a = .call (.batchDequeue count) → θ = b) {o : MemoryOrder} {ℓ : Loc}
    {m : Message Tid Loc ℕ τ} {t : τ} (hf : (footprint cfg (s.pc θ) a).atomic = some (.update o ℓ))
    (hm : m ∈ M.history ℓ) (ht : M.Behind ℓ m t)
    (hx : Exec (unbounded cfg) cfg (s.mem.set m.value ℓ) (s.pc θ) a m' p') :
    M.Newest ℓ m ∧ Tame cfg b (s.put θ m' p')
      ((M.load o θ ℓ m).add o θ ℓ (m'.get ℓ) t m.time m.view) := by
  have hbatch : ∀ θ', ((s.put θ m' p').pc θ').op = some .batchDequeue → θ' = b := h.batch_put hx hb
  generalize hp : s.pc θ = p at hf hx
  cases hx with
  | enqClaim k v =>
    cases hf
    have hnew := h.write.newest_of_behind hm trivial ht
    exact ⟨hnew, h.claim hnew (by simp) ht.1 (by rw [hp]; rfl) (by rw [hp]; rfl) hbatch⟩
  | deqClaim d =>
    cases hf
    have hnew := h.read.newest_of_behind hm trivial ht
    exact ⟨hnew, h.claim hnew (by simp) ht.1 (by rw [hp]; rfl) (by rw [hp]; rfl) hbatch⟩
  | _ => cases hf

/-- **What a step on weak memory does.** -/
theorem Tame.step {l : Log Tid ω W} (h : Tame cfg b s M) (hsound : M.Sound s.mem.get)
    (hT : Tickets cfg s l) (hb : ∀ count, a = .call (.batchDequeue count) → θ = b) {r t : τ}
    (hs : (program Tid cfg).WeakStep s M θ a r t s' M') :
    Tame cfg b s' M' ∧ Simulated cfg s s' θ a := by
  have hplain := h.touches fun c hc => h.permits (θ := θ) (a := a) hT hc
  have hhist : (M.touches θ (footprint cfg (s.pc θ) a).plain).history = M.history :=
    Memory.touches_history _
  have hsound' : (M.touches θ (footprint cfg (s.pc θ) a).plain).Sound s.mem.get :=
    hsound.congr hhist
  cases hs with
  | plain hf hs =>
    obtain ⟨m₁, p₁, hx, rfl⟩ := step_eq_some.1 hs
    refine ⟨?_, hx.simulated⟩
    have hbatch : ∀ θ', ((s.put θ m₁ p₁).pc θ').op = some .batchDequeue → θ' = b :=
      h.batch_put hx hb
    have hf : (footprint cfg (s.pc θ) a).atomic = none := hf
    refine Tame.plain hplain ?_ ?_ hbatch
    all_goals
      generalize s.pc θ = p at hx hf
      cases hx with
      | call c => cases c <;> rfl
      | enqPass k v t _ => cases hf
      | deqPublish d t buf v _ => cases hf
      | _ => first | rfl | cases hf
  | @load o ℓ m s₁ _ hf hm hr hs =>
    obtain ⟨m₁, p₁, hx, rfl⟩ := step_eq_some.1 hs
    obtain ⟨rfl, htame, hsim⟩ := hplain.load_step hsound' hT hb hf (by rw [hhist]; exact hm) hx
    have hput : (program Tid cfg).set
        (((program Tid cfg).set s ℓ m.value).put θ (s.mem.set m.value ℓ) p₁) ℓ
        ((program Tid cfg).get s ℓ) = s.put θ s.mem p₁ := load_put ℓ m.value
    rw [hput]
    exact ⟨htame, hsim⟩
  | @store o ℓ s₁ _ _ hf hs ht hfree =>
    obtain ⟨m₁, p₁, hx, rfl⟩ := step_eq_some.1 hs
    obtain ⟨htop, htame⟩ :=
      hplain.store_step hsound' hT hb hf (by rw [Memory.touches_front]; exact ht) hx
    rw [hhist] at htop
    rw [Program.settle, if_pos htop]
    exact ⟨htame, hx.simulated⟩
  | @update o ℓ m s₁ _ hf hm hr hs ht =>
    obtain ⟨m₁, p₁, hx, rfl⟩ := step_eq_some.1 hs
    obtain ⟨hnew, htame⟩ := hplain.update_step hb hf (by rw [hhist]; exact hm)
      (by rw [Memory.Behind, hhist]; exact ht) hx
    have hnew := hnew.congr (congrFun hhist ℓ).symm
    have hmem : s.mem.set m.value ℓ = s.mem := by
      rw [hsound.value_eq hnew]
      exact set_get s.mem ℓ
    have htop : ∀ m₀ ∈ M.history ℓ, m₀.time < t := fun m₀ hm₀ => (hnew.time_le hm₀).trans_lt ht.1
    rw [Program.settle, if_pos htop]
    have hx : Exec (unbounded cfg) cfg (s.mem.set m.value ℓ) (s.pc θ) a m₁ p₁ := hx
    rw [hmem] at hx
    exact ⟨htame, hx.simulated⟩

end Steps

/-! ### Every run on weak memory -/

section Refinement

variable {Tid ω τ L : Type} {W : ℕ} [DecidableEq Tid] [LinearOrder τ] [OrderBot τ] {cfg : Config}
  {b : Tid}

/-- What holds in all runs on weak memory, with a log that does not record what can be left out. -/
theorem weak_invariant {note : State Tid ℕ ℕ ω W → Tid × Micro ω W → L → L}
    (hnote : ∀ s θ a l, Skips s θ a → note s (θ, a) l = l) {l₀ : L}
    {x : (State Tid ℕ ℕ ω W × Memory Tid Loc (Cell W) ℕ τ) × L}
    (hx : ((((program Tid cfg).weak τ).restrict (Batcher τ b)).withLog l₀
      fun w a l => note w.1.erase a.1 l).Reachable x) :
    ((system (unbounded cfg) cfg).withLog l₀ note).Reachable (x.1.1.erase, x.2) ∧
      x.1.2.Sound x.1.1.mem.get ∧ Tame cfg b x.1.1 x.1.2 := by
  refine System.Reachable.log_of_simulation
    (f := fun w : State Tid ℕ ℕ ω W × Memory Tid Loc (Cell W) ℕ τ => w.1.erase) (g := Prod.fst)
    (I := fun w => w.2.Sound w.1.mem.get ∧ Tame cfg b w.1 w.2) ?_ ?_ hx
  · rintro ⟨s, M⟩ ⟨⟨data, array, rfl⟩, hM⟩
    obtain rfl : M = .fresh (fresh (unbounded cfg) cfg data array : State Tid ℕ ℕ ω W).mem.get := hM
    exact ⟨⟨data, array, rfl⟩, Memory.sound_fresh _, .fresh data array⟩
  · rintro ⟨s, M⟩ ⟨⟨θ, a⟩, r, t⟩ ⟨s', M'⟩ ⟨hsound, htame⟩ hreach ⟨hb, hstep⟩
    have hweak := Program.weakStep_cases hstep
    obtain ⟨l, hl⟩ := hreach.exists_log Log.empty logNote
    obtain ⟨htame', hsim⟩ := htame.step hsound (.of_erase (invariants hl).1) hb hweak
    exact ⟨⟨hweak.sound lawful hsound, htame'⟩,
      hsim.symm.imp id (And.imp id fun hskip l => hnote _ _ _ l hskip)⟩

/-- **The memory orders of the queue are strong enough.** Take any run on weak memory, with any log
that records neither spin tests nor calls of `isEmpty`. Without the calls of `isEmpty`, its last
state and its log are those of a run in which the threads are interleaved on one memory; and no
access of a payload, by the next step of a thread, is a data race. -/
theorem fetch_add_and_seq_orders_suffice {note : State Tid ℕ ℕ ω W → Tid × Micro ω W → L → L}
    (hnote : ∀ s θ a l, Skips s θ a → note s (θ, a) l = l) {l₀ l : L} {s : State Tid ℕ ℕ ω W}
    {M : Memory Tid Loc (Cell W) ℕ τ}
    (h : ((((program Tid cfg).weak τ).restrict (Batcher τ b)).withLog l₀
      fun w a l => note w.1.erase a.1 l).Reachable ((s, M), l)) :
    ((system (unbounded cfg) cfg).withLog l₀ note).Reachable (s.erase, l) ∧
      ∀ θ a, ∀ c ∈ (footprint cfg (s.pc θ) a).plain, M.Ordered θ c.1 c.2 := by
  obtain ⟨hreach, hsound, htame⟩ := weak_invariant hnote h
  refine ⟨hreach, fun θ a c hc => ?_⟩
  obtain ⟨l₁, hl₁⟩ := hreach.of_log.exists_log Log.empty logNote
  refine htame.handed.ordered (fun ℓ => ?_) (htame.permits (.of_erase (invariants hl₁).1) hc) c.2
  obtain ⟨m, hm, -⟩ := hsound.newest ℓ
  exact ⟨m, hm⟩

omit [DecidableEq Tid] in
theorem history_skips (s : State Tid ℕ ℕ ω W) (θ : Tid) (a : Micro ω W)
    (h : List (Interleaving.Event Tid (Operation ω W) (Result ω W))) (hs : Skips s θ a) :
    history s (θ, a) h = h := by
  unfold history
  rcases hs with rfl | ⟨hp, hcall⟩
  · cases s.pc θ <;> rfl
  · rw [show s.pc (θ, a).1 = .idle from hp]
    cases a with
    | call c =>
      rw [hcall c rfl]
    | _ => rfl

/-- Thread `1` waits for thread `0`, and misses the `seq` store once: it loads the old
value again. -/
def staleSpin : List ((ℕ × Micro ℕ 1) × ℕ × ℕ) :=
  [((1, .call .dequeue), 0, 0), ((1, .claim), 0, 1), ((1, .spin), 0, 0),
   ((0, .call (.enqueue .move ![7])), 0, 0), ((0, .claim), 0, 1), ((0, .spin), 0, 0),
   ((0, .copy 0 0), 0, 0), ((0, .publish), 0, 1), ((0, .ret), 0, 0), ((1, .spin), 0, 0),
   ((1, .spin), 1, 0), ((1, .copy 0 0), 0, 0), ((1, .publish), 0, 2), ((1, .ret), 0, 0)]

theorem staleSpin_seen : (staleSpin.foldlM
    (fun q a => ((program ℕ smallest).weakStep q.1 a).map fun w => (w, history q.1.1.erase a.1 q.2))
    ((fresh (unbounded smallest) smallest (fun _ => ![0]) (fun _ => ![0]),
      .fresh (fresh (unbounded smallest) smallest (fun _ => ![0]) (fun _ => ![0]) :
        State ℕ ℕ ℕ ℕ 1).mem.get), [])).map
      (fun q => seen q.2 == [(1, none), (0, some 7), (0, none), (1, some 7)]) = some true := by
  decide +kernel

theorem fetch_add_and_seq_orders_suffice_staleSpin :
    ∃ (s : State ℕ ℕ ℕ ℕ 1) (M : Memory ℕ Loc (Cell 1) ℕ ℕ)
    (h : List (Interleaving.Event ℕ (Operation ℕ 1) (Result ℕ 1))),
    seen h = [(1, none), (0, some 7), (0, none), (1, some 7)] ∧
    ((system (unbounded smallest) smallest).withLog [] history).Reachable (s.erase, h) ∧
      ∀ θ a, ∀ c ∈ (footprint smallest (s.pc θ) a).plain, M.Ordered θ c.1 c.2 := by
  have honly : ∀ w, ∀ a ∈ staleSpin, Batcher ℕ 1 w a := by
    intro w a ha count
    fin_cases ha <;> simp
  have hinit : ((((program ℕ smallest).weak ℕ).restrict (Batcher ℕ 1)).withLog []
      fun w a h => history w.1.erase a.1 h).init
      ((fresh (unbounded smallest) smallest (fun _ => ![0]) (fun _ => ![0]),
        .fresh (fresh (unbounded smallest) smallest (fun _ => ![0]) (fun _ => ![0]) :
          State ℕ ℕ ℕ ℕ 1).mem.get), []) :=
    ⟨⟨⟨_, _, rfl⟩, rfl⟩, rfl⟩
  obtain ⟨⟨⟨s, M⟩, h⟩, hr, hp⟩ := System.exists_reachable_of_schedule hinit staleSpin_seen (by
    rintro ⟨w, h⟩ a ha ⟨w', h'⟩ hst
    obtain ⟨w₁, hw₁, heq⟩ := Option.map_eq_some_iff.1 hst
    cases heq
    exact ⟨⟨honly w a ha, hw₁⟩, rfl⟩)
  exact ⟨s, M, h, by simpa using hp, fetch_add_and_seq_orders_suffice history_skips hr⟩

end Refinement

end AstraLib.Ring
