import AstraLib.Ring.Transit

/-!
# `AtomicRingBuffer`: what `isEmpty` tells

`isEmpty` loads the two counters one after the other, and both of them move meanwhile.  It compares
values of different instants.  Its answer can be wrong at every instant of the call: `true` when a
dequeue carries `readTicket` up to the value of `writeTicket` that was loaded first, while
`writeTicket` has moved on; `false` when consumers wait and `readTicket` is ahead of `writeTicket`
all the time (`isEmpty_not_linearizable`).  These are the only two ways to be wrong
(`isEmpty_linearizable_of_considerate`).

The second half is about the way in which `ThreadPool::taskDispatcher` uses it: one consumer, which
calls `dequeue` only after an `isEmpty` of its own that returned `false` (`Polite`).
-/

namespace AstraLib.Ring

open Interleaving

/-! ### Right answers -/

section Linearizability

variable {Tid ω : Type} {W : ℕ}

/-- Every claimed enqueue ticket has been claimed by a dequeue. -/
def State.Drained (s : State Tid ℕ ℕ ω W) : Prop := s.mem.writeTicket ≤ s.mem.readTicket

instance (s : State Tid ℕ ℕ ω W) : Decidable s.Drained := inferInstanceAs (Decidable (_ ≤ _))

/-- The answer `b` is right at some instant after step `j` and not after instant `k`. -/
def Answered (x : ℕ → State Tid ℕ ℕ ω W) (j k : ℕ) (b : Bool) : Prop :=
  ∃ i, j < i ∧ i ≤ k ∧ (b = true ↔ (x i).Drained)

theorem Answered.mono {x : ℕ → State Tid ℕ ℕ ω W} {j k k' : ℕ} {b : Bool} (h : Answered x j k b)
    (hk : k ≤ k') : Answered x j k' b := by
  obtain ⟨i, hj, hi, hb⟩ := h
  exact ⟨i, hj, hi.trans hk, hb⟩

/-- Whenever `isEmpty` returns `b`, that was right at an instant between its start (step
`j`) and its return (step `k`). -/
def IsEmptyLinearizable (S : System (State Tid ℕ ℕ ω W) (Tid × Micro ω W)) (b : Bool) : Prop :=
  ∀ x a n, S.Run x a n → ∀ θ j k, j < k → k < n → a j = (θ, .call .isEmpty) → a k = (θ, .ret) →
    (∀ i, j < i → i < k → a i ≠ (θ, .ret)) → (x k).pc θ = .isEmptyReturn b → Answered x j k b

/-- The thread is in `isEmpty`, before the second load. -/
def Pc.testing : Pc ℕ ℕ ω W → Bool
  | .isEmptyCall | .isEmptyWrite _ | .isEmptyRead _ => true
  | _ => false

/-- The value of `writeTicket` that an `isEmpty` has loaded first. -/
def Pc.loadedWrite : Pc ℕ ℕ ω W → Option ℕ
  | .isEmptyWrite w => some w
  | _ => none

/-- `isEmpty` is not called while consumers wait for tickets that nobody has claimed. While a thread
is in `isEmpty`, no dequeue claims such a ticket, and none carries `readTicket` up to the value of
`writeTicket` that the thread has loaded, unless that is still the value of `writeTicket`. -/
def Considerate (s : State Tid ℕ ℕ ω W) (a : Tid × Micro ω W) : Prop :=
  match s.pc a.1, a.2 with
  | .idle, .call .isEmpty => s.mem.readTicket ≤ s.mem.writeTicket
  | .deqClaim _, .claim => ∀ θ, (s.pc θ).testing = true → s.mem.readTicket < s.mem.writeTicket ∧
      ((s.pc θ).loadedWrite = some (s.mem.readTicket + 1) →
        s.mem.writeTicket = s.mem.readTicket + 1)
  | _, _ => True

/-- What a thread in `isEmpty` has to go by. `seen b` says that the answer `b` was right
at some instant since its call. -/
def Pc.Recalls (r w : ℕ) (seen : Bool → Prop) : Pc ℕ ℕ ω W → Prop
  | .isEmptyCall => r ≤ w
  | .isEmptyWrite w' => r ≤ w ∧ (w' ≤ r → seen true) ∧ (w' ≠ r → seen false)
  | .isEmptyRead r' => r ≤ w ∧ r' ≤ r ∧ (w ≤ r' → seen true) ∧ (w ≠ r' → seen false)
  | .isEmptyReturn b => seen b
  | _ => True

theorem Pc.recalls_of_op {p : Pc ℕ ℕ ω W} {r w : ℕ} {seen : Bool → Prop}
    (h : p.op ≠ some .isEmpty) : p.Recalls r w seen := by
  cases p <;> trivial

section Steps

variable {cfg : Config} {p p' : Pc ℕ ℕ ω W} {m m' : Mem ℕ ω W} {a : Micro ω W}
  {seen seen' : Bool → Prop}

/-- A step of another thread. -/
theorem Pc.Recalls.other (h : p.Recalls m.readTicket m.writeTicket seen)
    {q q' : Pc ℕ ℕ ω W} (hx : Exec (unbounded cfg) cfg m q a m' q')
    (hclaim : ∀ d, q = .deqClaim d → a = .claim → p.testing = true → m.readTicket < m.writeTicket ∧
      (p.loadedWrite = some (m.readTicket + 1) → m.writeTicket = m.readTicket + 1))
    (hmono : ∀ b, seen b → seen' b) (hnow : m.readTicket < m.writeTicket → seen' false)
    (htrue : m'.writeTicket ≤ m'.readTicket → seen' true)
    (hfalse : m'.readTicket < m'.writeTicket → seen' false) :
    p.Recalls m'.readTicket m'.writeTicket seen' := by
  rcases hx.counters with ⟨hw, hr⟩ | ⟨k, v, -, hw, hr⟩ | ⟨d, hq, ha, hw, hr⟩
  · rw [hw, hr]
    cases p with
    | isEmptyCall => exact h
    | isEmptyWrite w => exact ⟨h.1, fun h' => hmono _ (h.2.1 h'), fun h' => hmono _ (h.2.2 h')⟩
    | isEmptyRead r =>
      exact ⟨h.1, h.2.1, fun h' => hmono _ (h.2.2.1 h'), fun h' => hmono _ (h.2.2.2 h')⟩
    | isEmptyReturn b => exact hmono _ h
    | _ => trivial
  · rw [unbounded_fetchAdd] at hw
    rw [hw, hr] at hfalse
    rw [hw, hr]
    cases p with
    | isEmptyCall => exact Nat.le_succ_of_le h
    | isEmptyWrite w =>
      exact ⟨Nat.le_succ_of_le h.1, fun h' => hmono _ (h.2.1 h'), fun h' => hmono _ (h.2.2 h')⟩
    | isEmptyRead r =>
      obtain ⟨hrw, hle, ht, -⟩ := h
      refine ⟨by omega, hle, fun h' => hmono _ (ht (by omega)), fun _ => hfalse (by omega)⟩
    | isEmptyReturn b => exact hmono _ h
    | _ => trivial
  · rw [unbounded_fetchAdd] at hr
    rw [hw, hr] at htrue
    rw [hw, hr]
    have hcl := hclaim d hq ha
    cases p with
    | isEmptyCall => exact (hcl rfl).1
    | isEmptyWrite w =>
      obtain ⟨hlt, hstale⟩ := hcl rfl
      refine ⟨hlt, fun h' => ?_, fun _ => hnow hlt⟩
      rcases Nat.lt_or_eq_of_le h' with hlow | rfl
      · exact hmono _ (h.2.1 (by omega))
      · exact htrue (hstale rfl).le
    | isEmptyRead r =>
      obtain ⟨hrw, hle, ht, hf⟩ := h
      exact ⟨(hcl rfl).1, by omega, fun h' => hmono _ (ht h'), fun h' => hmono _ (hf h')⟩
    | isEmptyReturn b => exact hmono _ h
    | _ => trivial

/-- A step of the thread itself. -/
theorem Pc.Recalls.own (h : p.Recalls m.readTicket m.writeTicket seen)
    (hx : Exec (unbounded cfg) cfg m p a m' p')
    (hcall : a = .call .isEmpty → m.readTicket ≤ m.writeTicket)
    (hmono : ∀ b, seen b → seen' b) (htrue : m.writeTicket ≤ m.readTicket → seen' true)
    (hfalse : m.readTicket < m.writeTicket → seen' false) :
    p'.Recalls m'.readTicket m'.writeTicket seen' := by
  cases hx with
  | call c =>
    cases c with
    | isEmpty => exact hcall rfl
    | _ => trivial
  | firstWrite => exact ⟨h, htrue, fun hne => hfalse (lt_of_le_of_ne h hne.symm)⟩
  | firstRead => exact ⟨h, le_rfl, htrue, fun hne => hfalse (lt_of_le_of_ne h hne.symm)⟩
  | thenRead w b hb =>
    obtain ⟨-, ht, hf⟩ := h
    cases b with
    | true => exact hmono _ (ht (hb.1 rfl).le)
    | false => exact hmono _ (hf fun hw => absurd (hb.2 hw) (by simp))
  | thenWrite r b hb =>
    obtain ⟨-, -, ht, hf⟩ := h
    cases b with
    | true => exact hmono _ (ht (hb.1 rfl).le)
    | false => exact hmono _ (hf fun hw => absurd (hb.2 hw) (by simp))
  | enqPass k v t _ => exact Pc.recalls_of_op (by unfold Pc.enqPast; split_ifs <;> simp [Pc.op])
  | deqPublish d t buf v _ => cases d <;> trivial
  | _ => trivial

end Steps

variable [DecidableEq Tid] {cfg : Config} {x : ℕ → State Tid ℕ ℕ ω W} {a : ℕ → Tid × Micro ω W}
  {n : ℕ}

/-- One step of a run. -/
theorem recalls_step {k : ℕ} (hok : Considerate (x k) (a k))
    (hst : step (unbounded cfg) cfg (x k) (a k) = some (x (k + 1))) {θ : Tid} {j : ℕ} (hj : j < k)
    (h : ((x k).pc θ).Recalls (x k).mem.readTicket (x k).mem.writeTicket (Answered x j k)) :
    ((x (k + 1)).pc θ).Recalls (x (k + 1)).mem.readTicket (x (k + 1)).mem.writeTicket
      (Answered x j (k + 1)) := by
  have hmono : ∀ b, Answered x j k b → Answered x j (k + 1) b := fun b hb => hb.mono (Nat.le_succ k)
  have hat : ∀ i, j < i → i ≤ k + 1 → ∀ b, (b = true ↔ (x i).Drained) → Answered x j (k + 1) b :=
    fun i hj hi b hb => ⟨i, hj, hi, hb⟩
  have htrue : ∀ i, j < i → i ≤ k + 1 → (x i).Drained → Answered x j (k + 1) true :=
    fun i hj hi hd => hat i hj hi true (by simp [hd])
  have hfalse : ∀ i, j < i → i ≤ k + 1 → (x i).mem.readTicket < (x i).mem.writeTicket →
      Answered x j (k + 1) false :=
    fun i hj hi hd => hat i hj hi false (by simp [State.Drained, hd])
  rcases hb : a k with ⟨θ', b⟩
  rw [hb] at hok hst
  obtain ⟨m, p, hx, hs'⟩ := step_eq_some.1 hst
  by_cases hθ : θ = θ'
  · subst hθ
    rw [hs', put_pc_self, put_mem]
    refine h.own hx (fun hc => ?_) hmono (htrue k hj (by omega)) (hfalse k hj (by omega))
    subst hc
    have hidle := hx.call_inv.1
    simpa [Considerate, hidle] using hok
  · have hnow := hfalse k hj (by omega)
    have ht := htrue (k + 1) (by omega) le_rfl
    have hf := hfalse (k + 1) (by omega) le_rfl
    rw [hs'] at ht hf ⊢
    rw [put_pc_of_ne hθ, put_mem]
    refine h.other hx (fun d hq hc htest => ?_) hmono hnow ht hf
    subst hc
    simp only [Considerate, hq] at hok
    exact hok θ htest

theorem recalls_run (h : ((system (unbounded cfg) cfg).restrict Considerate).Run x a n) {θ : Tid}
    {j : ℕ} (hcall : a j = (θ, .call .isEmpty)) :
    ∀ k, j < k → k ≤ n →
      ((x k).pc θ).Recalls (x k).mem.readTicket (x k).mem.writeTicket (Answered x j k) := by
  intro k hk
  induction k, hk using Nat.le_induction with
  | base =>
    intro hn
    obtain ⟨hok, hst⟩ := h.step j (by omega)
    rw [hcall] at hok hst
    obtain ⟨m, p, hx, hs'⟩ := step_eq_some.1 hst
    obtain ⟨hidle, rfl, rfl⟩ := hx.call_inv
    rw [hs', put_pc_self, put_mem]
    show (x j).mem.readTicket ≤ (x j).mem.writeTicket
    simpa [Considerate, hidle] using hok
  | succ k hk ih =>
    intro hn
    obtain ⟨hok, hst⟩ := h.step k (by omega)
    exact recalls_step hok hst hk (ih (by omega))

/-- **`isEmpty` among considerate consumers.** In every run whose steps are considerate, the answer
of `isEmpty` was right at an instant between its start and its return. -/
theorem isEmpty_linearizable_of_considerate (b : Bool) :
    IsEmptyLinearizable ((system (unbounded cfg) cfg).restrict Considerate :
      System (State Tid ℕ ℕ ω W) (Tid × Micro ω W)) b := by
  intro x a n h θ j k hjk hkn hcall _ _ hp
  have hrec := recalls_run h hcall k hjk hkn.le
  rw [hp] at hrec
  exact hrec

/-- A dequeue overlaps with `isEmpty` and takes the only ticket, between the two loads. -/
def considerateSchedule : List (Bool × Micro ℕ 1) :=
  [(true, .call (.enqueue .move ![7])), (true, .claim), (true, .spin), (true, .copy 0 0),
   (true, .publish), (true, .ret), (false, .call .isEmpty), (false, .loadWrite),
   (true, .call .dequeue), (true, .claim), (false, .loadRead), (false, .ret)]

instance [Fintype Tid] (s : State Tid ℕ ℕ ω W) (a : Tid × Micro ω W) :
    Decidable (Considerate s a) := by
  unfold Considerate
  split <;> infer_instance

def isEmptyAnswer {Tid : Type} (s : State Tid ℕ ℕ ℕ 1) (θ : Tid) : Option Bool :=
  match s.pc θ with
  | .isEmptyReturn b => some b
  | _ => none

theorem isEmptyAnswer_eq_some {Tid : Type} {s : State Tid ℕ ℕ ℕ 1} {θ : Tid} {b : Bool}
    (h : isEmptyAnswer s θ = some b) : s.pc θ = .isEmptyReturn b := by
  unfold isEmptyAnswer at h
  split at h
  · rename_i b' hp
    cases h
    exact hp
  · cases h

/-- The steps of a considerate run. -/
def considerateStep (s : State Bool ℕ ℕ ℕ 1) (a : Bool × Micro ℕ 1) : Option (State Bool ℕ ℕ ℕ 1) :=
  if Considerate s a then step (unbounded smallest) smallest s a else none

theorem considerateSchedule_answer : ∀ k ≤ considerateSchedule.length,
    ((considerateSchedule.take k).foldlM considerateStep
      (fresh (unbounded smallest) smallest (fun _ => ![0]) (fun _ => ![0]))).map
        (fun s => k != 11 || isEmptyAnswer s false == some true) = some true := by
  decide +kernel

theorem isEmpty_considerate_overlap : ∃ (x : ℕ → State Bool ℕ ℕ ℕ 1) (a : ℕ → Bool × Micro ℕ 1),
    ((system (unbounded smallest) smallest).restrict Considerate).Run x a
      considerateSchedule.length ∧
      a 6 = (false, .call .isEmpty) ∧ a 9 = (true, .claim) ∧ (x 11).pc false = .isEmptyReturn true ∧
      Answered x 6 11 true := by
  have hinit : ((system (unbounded smallest) smallest).restrict Considerate).init
      (fresh (unbounded smallest) smallest (fun _ => ![0]) (fun _ => ![0]) : State Bool ℕ ℕ ℕ 1) :=
    ⟨_, _, rfl⟩
  obtain ⟨x, hx, hp⟩ := System.exists_run_of_checks hinit
    (true, .spin) considerateSchedule_answer (by
      intro s a _ s' hst
      unfold considerateStep at hst
      split_ifs at hst with hok
      exact ⟨hok, hst⟩)
  have hans : (x 11).pc false = .isEmptyReturn true :=
    isEmptyAnswer_eq_some (by simpa using hp 11 (by decide))
  refine ⟨x, _, hx, rfl, rfl, hans, ?_⟩
  exact isEmpty_linearizable_of_considerate true x _ _ hx false 6 11 (by decide) (by decide) rfl rfl
    (by
      intro i hj hk
      interval_cases i <;> simp [considerateSchedule]) hans

/-! ### Wrong answers -/

/-- A schedule that ends with the return of an `isEmpty` called at step `j`, with the answer `b`,
wrong at every instant after `j`. -/
theorem not_linearizable_of_schedule (acts : List (ℕ × Micro ℕ 1)) (θ j k : ℕ) {b : Bool}
    (h : ∀ i ≤ acts.length, ((acts.take i).foldlM (step (unbounded smallest) smallest)
      (fresh (unbounded smallest) smallest (fun _ => ![0]) (fun _ => ![0]))).map
        (fun s => (decide (i ≤ j) || decide s.Drained != b) &&
          (i != k || isEmptyAnswer s θ == some b)) =
          some true)
    (hjk : j < k) (hk : k < acts.length) (hcall : acts[j]? = some (θ, .call .isEmpty))
    (hret : acts[k]? = some (θ, .ret)) (hfirst : ∀ i, j < i → i < k → acts[i]? ≠ some (θ, .ret)) :
    ¬ IsEmptyLinearizable (system (unbounded smallest) smallest :
      System (State ℕ ℕ ℕ ℕ 1) _) b := by
  intro hlin
  have hinit : (system (unbounded smallest) smallest).init
      (fresh (unbounded smallest) smallest (fun _ => ![0]) (fun _ => ![0]) : State ℕ ℕ ℕ ℕ 1) :=
    ⟨_, _, rfl⟩
  obtain ⟨x, hx, hp⟩ := System.exists_run_of_checks hinit (θ, .spin) h fun _ _ _ _ hst => hst
  have hlabel : ∀ i c, acts[i]? = some c → acts.getD i (θ, .spin) = c := by
    intro i c hi
    rw [List.getD_eq_getElem?_getD, hi]
    rfl
  have hat : ∀ i, j < i → i ≤ k → acts.getD i (θ, .spin) = (θ, .ret) →
      acts[i]? = some (θ, .ret) := by
    intro i _ hi heq
    rw [List.getD_eq_getElem?_getD, List.getElem?_eq_getElem (by omega)] at heq
    rw [List.getElem?_eq_getElem (by omega)]
    exact congrArg some heq
  have hans : (x k).pc θ = .isEmptyReturn b := by
    have hpk := hp k hk.le
    simp only [bne_self_eq_false, Bool.false_or, Bool.and_eq_true, beq_iff_eq] at hpk
    exact isEmptyAnswer_eq_some hpk.2
  obtain ⟨i, hji, hik, hright⟩ := hlin x _ _ hx θ j k hjk hk (hlabel j _ hcall) (hlabel k _ hret)
    (fun i hi hik heq => hfirst i hi hik (hat i hi hik.le heq)) hans
  have hpi := hp i (by omega)
  have hd : decide (x i).Drained = b := by
    cases b <;> simp_all
  simp [hd, show ¬ i ≤ j by omega] at hpi

/-- `isEmpty` loads `writeTicket = 1`. Then `writeTicket` goes on to `2`, and a
dequeue carries `readTicket` to `1`. -/
def staleSchedule : List (ℕ × Micro ℕ 1) :=
  [(0, .call (.enqueue .move ![7])), (0, .claim), (2, .call .isEmpty), (2, .loadWrite),
   (3, .call (.enqueue .move ![8])), (3, .claim), (1, .call .dequeue), (1, .claim),
   (2, .loadRead), (2, .ret)]

/-- A consumer waits for the first ticket. -/
def waitingSchedule : List (ℕ × Micro ℕ 1) :=
  [(1, .call .dequeue), (1, .claim), (2, .call .isEmpty), (2, .loadWrite),
    (2, .loadRead), (2, .ret)]

/-- **Neither answer of `isEmpty` can be relied on.** -/
theorem isEmpty_not_linearizable :
    ¬ IsEmptyLinearizable (system (unbounded smallest) smallest : System (State ℕ ℕ ℕ ℕ 1) _) true ∧
    ¬ IsEmptyLinearizable (system (unbounded smallest) smallest :
      System (State ℕ ℕ ℕ ℕ 1) _) false := by
  constructor
  · refine not_linearizable_of_schedule staleSchedule 2 2 9 (by decide +kernel)
      (by decide) (by decide)
      rfl rfl fun i hj hk => ?_
    interval_cases i <;> simp [staleSchedule]
  · refine not_linearizable_of_schedule waitingSchedule 2 2 5 (by decide +kernel)
      (by decide) (by decide)
      rfl rfl fun i hj hk => ?_
    interval_cases i <;> simp [waitingSchedule]

end Linearizability

/-! ### A consumer that asks first -/

/-- What the only consumer has seen and done: whether an `isEmpty` of its own has returned `false`
since it last called `dequeue`, the value of `writeTicket` that its last `isEmpty` has loaded, and
the tickets of the dequeues that have returned. -/
structure Watch where
  armed : Bool
  loaded : ℕ
  taken : List ℕ

section Consumer

variable {Tid ω : Type} {W : ℕ}

/-- The log after a step of the consumer. -/
def Watch.note (p : Pc ℕ ℕ ω W) (a : Micro ω W) (w : ℕ) (l : Watch) : Watch :=
  match p, a with
  | .idle, .call .dequeue => { l with armed := false }
  | .isEmptyReturn b, .ret => { l with armed := l.armed || !b }
  | .isEmptyCall, .loadWrite | .isEmptyRead _, .loadWrite => { l with loaded := w }
  | .deqReturn t _, .ret => { l with taken := l.taken ++ [t] }
  | _, _ => l

/-- Thread `c` is the only consumer. It calls `dequeue` only after an `isEmpty` of its own that
returned `false`, with no `dequeue` in between. -/
def Polite (c : Tid) (q : State Tid ℕ ℕ ω W × Watch) (a : Tid × Micro ω W) : Prop :=
  ∀ call, a.2 = .call call → call.op ≠ .batchDequeue ∧
    (call.op = .dequeue → a.1 = c ∧ q.2.armed = true)

/-- The tickets that a thread has claimed for a `dequeue` that has not returned. -/
def Pc.held : Pc ℕ ℕ ω W → List ℕ
  | .deqSpin _ t | .deqCopy _ t _ | .deqReturn t _ => [t]
  | _ => []

/-- What the only consumer knows of the tickets. -/
def Pc.Aware (r w loaded : ℕ) : Pc ℕ ℕ ω W → Prop
  | .deqClaim _ => r < w
  | .isEmptyWrite w' => r ≤ w' ∧ w' ≤ w ∧ loaded = w'
  | .isEmptyRead r' => r' = r
  | .isEmptyReturn true => loaded = r
  | .isEmptyReturn false => r < w
  | _ => True

theorem Pc.Aware.mono {p : Pc ℕ ℕ ω W} {r w w' loaded : ℕ} (h : p.Aware r w loaded) (hw : w ≤ w') :
    p.Aware r w' loaded := by
  cases p with
  | deqClaim d => exact lt_of_lt_of_le h hw
  | isEmptyWrite w₀ => exact ⟨h.1, h.2.1.trans hw, h.2.2⟩
  | isEmptyRead r₀ => exact h
  | isEmptyReturn b =>
    cases b with
    | true => exact h
    | false => exact lt_of_lt_of_le h hw
  | _ => trivial

/-- The tickets and the only consumer, which is at `p`. -/
structure Watching (m : Mem ℕ ω W) (p : Pc ℕ ℕ ω W) (l : Watch) : Prop where
  le : m.readTicket ≤ m.writeTicket
  single : p.op ≠ some .batchDequeue
  armed : l.armed = true → m.readTicket < m.writeTicket
  spent : p.op = some .dequeue → l.armed = false
  taken : l.taken ++ p.held = List.range m.readTicket
  aware : p.Aware m.readTicket m.writeTicket l.loaded

/-- The others have nothing to do with the dequeues. -/
structure Watched (c : Tid) (s : State Tid ℕ ℕ ω W) (l : Watch) : Prop where
  watching : Watching s.mem (s.pc c) l
  others : ∀ θ, θ ≠ c → ¬ (s.pc θ).Consuming

namespace Watching

variable {cfg : Config} {l : Watch} {m m' : Mem ℕ ω W} {p p' : Pc ℕ ℕ ω W} {a : Micro ω W}

/-- Another thread has claimed a write ticket, or done nothing to the tickets. -/
theorem frame (h : Watching m p l) (hr : m'.readTicket = m.readTicket)
    (hw : m.writeTicket ≤ m'.writeTicket) : Watching m' p l := by
  constructor
  · rw [hr]; exact h.le.trans hw
  · exact h.single
  · rw [hr]; exact fun ha => (h.armed ha).trans_le hw
  · exact h.spent
  · rw [hr]; exact h.taken
  · rw [hr]; exact h.aware.mono hw

/-- A step of the consumer that does not concern its tickets. -/
theorem move (h : Watching m p l) (hr : m'.readTicket = m.readTicket)
    (hw : m'.writeTicket = m.writeTicket) (hop : p'.op ≠ some .batchDequeue)
    (hspent : p'.op = some .dequeue → p.op = some .dequeue) (hheld : p'.held = p.held)
    (haware : p'.Aware m.readTicket m.writeTicket l.loaded) : Watching m' p' l := by
  constructor
  · rw [hr, hw]; exact h.le
  · exact hop
  · rw [hr, hw]; exact h.armed
  · exact fun hd => h.spent (hspent hd)
  · rw [hr, hheld]; exact h.taken
  · rw [hr, hw]; exact haware

/-- A step of the consumer. -/
theorem own (h : Watching m p l) (hx : Exec (unbounded cfg) cfg m p a m' p')
    (hcall : ∀ call, a = .call call → call.op ≠ .batchDequeue ∧
      (call.op = .dequeue → l.armed = true)) :
    Watching m' p' (l.note p a m.writeTicket) := by
  have hsingle := h.single
  have haware := h.aware
  cases hx with
  | call call =>
    cases call with
    | dequeue =>
      exact ⟨h.le, by simp [Call.entry, Pc.op, Dest.op], by simp [Watch.note], fun _ => rfl,
        h.taken, h.armed ((hcall _ rfl).2 rfl)⟩
    | batchDequeue count => exact absurd rfl (hcall _ rfl).1
    | enqueue k v =>
      exact h.move rfl rfl (by simp [Call.entry, Pc.op]) (by simp [Call.entry, Pc.op]) rfl trivial
    | isEmpty =>
      exact h.move rfl rfl (by simp [Call.entry, Pc.op]) (by simp [Call.entry, Pc.op]) rfl trivial
  | enqClaim k v =>
    have hnext : Watching m (.enqSpin k v m.writeTicket) l :=
      h.move rfl rfl (by simp [Pc.op]) (by simp [Pc.op]) rfl trivial
    exact hnext.frame rfl (Nat.le_succ _)
  | enqPass k v t _ =>
    unfold Pc.enqPast
    split_ifs <;> exact h.move rfl rfl (by simp [Pc.op]) (by simp [Pc.op]) rfl trivial
  | deqClaim d =>
    cases d with
    | result =>
      have hoff : l.armed = false := h.spent rfl
      refine ⟨haware, hsingle, fun ha => ?_, fun _ => hoff, ?_, trivial⟩
      · exact absurd (hoff.symm.trans ha) (by simp)
      · show l.taken ++ [m.readTicket] = List.range (m.readTicket + 1)
        rw [List.range_succ, ← h.taken]
        simp [Pc.held]
    | batch i count => exact absurd rfl hsingle
  | deqCopy d t buf j left _ =>
    exact h.move (by simp [Mem.setWord]) (by simp [Mem.setWord]) hsingle id rfl trivial
  | deqPublish d t buf v _ =>
    cases d with
    | result => exact h.move rfl rfl (by simp [Pc.deqPast, Pc.op]) (fun _ => rfl) rfl trivial
    | batch i count => exact absurd rfl hsingle
  | deqRet t v =>
    exact ⟨h.le, by simp [Pc.op], h.armed, by simp [Pc.op],
      by simpa [Watch.note, Pc.held] using h.taken, trivial⟩
  | firstWrite =>
    exact ⟨h.le, by simp [Pc.op], h.armed, by simp [Pc.op], h.taken, h.le, le_rfl, rfl⟩
  | firstRead => exact h.move rfl rfl (by simp [Pc.op]) (by simp [Pc.op]) rfl rfl
  | thenRead w b hb =>
    obtain ⟨hr, hw, hload⟩ := haware
    refine h.move rfl rfl (by simp [Pc.op]) (by simp [Pc.op]) rfl ?_
    cases b with
    | true => exact hload.trans (hb.1 rfl)
    | false =>
      have hne : w ≠ m.readTicket := fun heq => absurd (hb.2 heq) (by simp)
      exact lt_of_lt_of_le (lt_of_le_of_ne hr hne.symm) hw
  | thenWrite r b hb =>
    have hr : r = m.readTicket := haware
    refine ⟨h.le, by simp [Pc.op], h.armed, by simp [Pc.op], h.taken, ?_⟩
    cases b with
    | true => exact (hb.1 rfl).trans hr
    | false =>
      have hne : m.writeTicket ≠ r := fun heq => absurd (hb.2 heq) (by simp)
      exact lt_of_le_of_ne h.le (hr ▸ hne.symm)
  | isEmptyRet b =>
    refine ⟨h.le, by simp [Pc.op], fun ha => ?_, by simp [Pc.op], h.taken, trivial⟩
    cases b with
    | true => exact h.armed (by simpa [Watch.note] using ha)
    | false => exact haware
  | loopNext i count _ => exact absurd rfl hsingle
  | loopEnd i count _ => exact absurd rfl hsingle
  | batchRet => exact absurd rfl hsingle
  | deqPass d t _ => exact h.move rfl rfl hsingle id rfl trivial
  | deqRetry d t _ => exact h
  | enqRetry k v t _ => exact h
  | _ => exact h.move rfl rfl (by simp [Pc.op]) (by simp [Pc.op]) rfl trivial

end Watching

namespace Watched

variable {cfg : Config} {c : Tid} {s : State Tid ℕ ℕ ω W} {l : Watch}

theorem init (c : Tid) (data array : ℕ → Payload ω W) :
    Watched c (fresh (unbounded cfg) cfg data array) ⟨false, 0, []⟩ :=
  ⟨⟨le_rfl, by simp [fresh, Pc.op], by simp, fun _ => rfl, rfl, trivial⟩,
    by simp [fresh, Pc.Consuming, Pc.op]⟩

variable [DecidableEq Tid] {θ : Tid} {a : Micro ω W} {m' : Mem ℕ ω W} {p' : Pc ℕ ℕ ω W}

theorem step (h : Watched c s l) (hpol : Polite c (s, l) (θ, a))
    (hx : Exec (unbounded cfg) cfg s.mem (s.pc θ) a m' p') :
    Watched c (s.put θ m' p') (if θ = c then l.note (s.pc θ) a s.mem.writeTicket else l) := by
  by_cases hθ : θ = c
  · subst hθ
    rw [if_pos rfl]
    refine ⟨?_, fun θ' hne => ?_⟩
    · rw [put_mem, put_pc_self]
      exact h.watching.own hx fun call hc => ⟨(hpol call hc).1, fun hd => ((hpol call hc).2 hd).2⟩
    · rw [put_pc_of_ne hne]
      exact h.others θ' hne
  · rw [if_neg hθ]
    refine ⟨?_, fun θ' hne => ?_⟩
    · rw [put_mem, put_pc_of_ne (Ne.symm hθ)]
      rcases hx.counters with ⟨hw, hr⟩ | ⟨k, v, -, hw, hr⟩ | ⟨d, hp, -⟩
      · exact h.watching.frame hr hw.ge
      · exact h.watching.frame hr (by rw [hw]; exact Nat.le_succ _)
      · exact absurd (hp ▸ Pc.consuming_deqClaim d) (h.others θ hθ)
    · by_cases hself : θ' = θ
      · subst hself
        rw [put_pc_self]
        intro hcons
        rcases hx.consuming hcons with hold | ⟨call, rfl, hdeq | hbatch⟩
        · exact h.others θ' hne hold
        · exact hne ((hpol call rfl).2 hdeq).1
        · exact (hpol call rfl).1 hbatch
      · rw [put_pc_of_ne hself]
        exact h.others θ' hne

end Watched

variable [DecidableEq Tid]

/-- The consumer writes the log. -/
def watchNote (c : Tid) (s : State Tid ℕ ℕ ω W) (a : Tid × Micro ω W) (l : Watch) : Watch :=
  if a.1 = c then l.note (s.pc a.1) a.2 s.mem.writeTicket else l

/-- The queue with the polite consumer `c`, and any number of producers. -/
def politeSystem (cfg : Config) (c : Tid) : System (State Tid ℕ ℕ ω W × Watch) (Tid × Micro ω W) :=
  ((system (unbounded cfg) cfg).withLog ⟨false, 0, []⟩ (watchNote c)).restrict (Polite c)

theorem watched {cfg : Config} {c : Tid} {s : State Tid ℕ ℕ ω W} {l : Watch}
    (h : (politeSystem cfg c).Reachable (s, l)) : Watched c s l := by
  have hI : (politeSystem cfg c).IsInvariant
      fun q : State Tid ℕ ℕ ω W × Watch => Watched c q.1 q.2 := by
    constructor
    · rintro ⟨s, l⟩ ⟨⟨data, array, rfl⟩, rfl⟩
      exact Watched.init c data array
    · rintro ⟨s, l⟩ ⟨θ, a⟩ ⟨s', l'⟩ - hw ⟨hpol, hstep, rfl⟩
      obtain ⟨m, p, hx, rfl⟩ := step_eq_some.1 hstep
      exact hw.step hpol hx
  exact hI.reachable h

/-- **A consumer that asks first never waits for a ticket that nobody has claimed.** In every
reachable state, a dequeue that is about to claim its ticket finds `readTicket < writeTicket`, and
`readTicket` is never ahead. When an `isEmpty` of the consumer returns `true`, the tickets claimed
before it loaded `writeTicket` have all been dequeued. -/
theorem polite_consumer_never_waits {cfg : Config} {c : Tid} {s : State Tid ℕ ℕ ω W} {l : Watch}
    (h : (politeSystem cfg c).Reachable (s, l)) :
    (∀ θ d, s.pc θ = .deqClaim d → s.mem.readTicket < s.mem.writeTicket) ∧
    s.mem.readTicket ≤ s.mem.writeTicket ∧
    (s.pc c = .isEmptyReturn true → ∀ t < l.loaded, t ∈ l.taken) := by
  obtain ⟨hw, hothers⟩ := watched h
  refine ⟨fun θ d hp => ?_, hw.le, fun hp t ht => ?_⟩
  · have hθ : θ = c := by
      by_contra hne
      exact hothers θ hne (hp ▸ Pc.consuming_deqClaim d)
    subst hθ
    have haware := hw.aware
    rw [hp] at haware
    exact haware
  · have haware := hw.aware
    rw [hp] at haware
    have hload : l.loaded = s.mem.readTicket := haware
    have htaken : l.taken = List.range s.mem.readTicket := by
      have := hw.taken
      rw [hp] at this
      simpa [Pc.held] using this
    rw [htaken, List.mem_range, ← hload]
    exact ht

/-- A producer claims a ticket, the consumer takes it and finds the queue empty. -/
def politeSchedule : List (ℕ × Micro ℕ 1) :=
  [(1, .call (.enqueue .move ![7])), (0, .call .isEmpty), (0, .loadRead), (1, .claim),
   (0, .loadWrite), (0, .ret), (0, .call .dequeue), (0, .claim), (0, .spin), (1, .spin),
   (1, .copy 0 0), (1, .publish), (0, .spin), (0, .copy 0 0), (0, .publish), (0, .ret),
   (0, .call .isEmpty), (0, .loadWrite), (0, .loadRead)]

instance (c : Tid) (q : State Tid ℕ ℕ ω W × Watch) (a : Tid × Micro ω W) :
    Decidable (Polite c q a) :=
  match h : a.2 with
  | .call call =>
    decidable_of_iff
      (call.op ≠ .batchDequeue ∧ (call.op = .dequeue → a.1 = c ∧ q.2.armed = true))
      (by simp [Polite, h])
  | .claim | .spin | .destroy _ | .copy _ _ | .publish | .loop | .loadWrite | .loadRead | .ret =>
    isTrue (by simp [Polite, h])

/-- The steps of the queue with the polite consumer `0`. -/
def politeStep (q : State ℕ ℕ ℕ ℕ 1 × Watch) (a : ℕ × Micro ℕ 1) :
    Option (State ℕ ℕ ℕ ℕ 1 × Watch) :=
  if Polite 0 q a then
    (Ring.step (unbounded smallest) smallest q.1 a).map fun s => (s, watchNote 0 q.1 a q.2)
  else none

theorem politeSchedule_answer : (politeSchedule.foldlM politeStep
    (fresh (unbounded smallest) smallest (fun _ => ![0]) (fun _ => ![0]), ⟨false, 0, []⟩)).map
      (fun q => isEmptyAnswer q.1 0 == some true && q.2.loaded == 1) = some true := by
  decide +kernel

theorem polite_consumer_takes_one : ∃ (s : State ℕ ℕ ℕ ℕ 1) (l : Watch),
    s.pc 0 = .isEmptyReturn true ∧ l.loaded = 1 ∧ s.mem.readTicket ≤ s.mem.writeTicket ∧
    0 ∈ l.taken := by
  have hinit : (politeSystem smallest 0).init
      ((fresh (unbounded smallest) smallest (fun _ => ![0]) (fun _ => ![0]), ⟨false, 0, []⟩) :
        State ℕ ℕ ℕ ℕ 1 × Watch) := ⟨⟨_, _, rfl⟩, rfl⟩
  obtain ⟨⟨s, l⟩, hs, hp⟩ := System.exists_reachable_of_schedule hinit politeSchedule_answer (by
    intro q a _ q' hst
    unfold politeStep at hst
    split_ifs at hst with hpol
    obtain ⟨s', hs', rfl⟩ := Option.map_eq_some_iff.1 hst
    exact ⟨hpol, hs', rfl⟩)
  simp only [Bool.and_eq_true, beq_iff_eq] at hp
  have hans := isEmptyAnswer_eq_some hp.1
  obtain ⟨-, hle, htaken⟩ := polite_consumer_never_waits hs
  exact ⟨s, l, hans, hp.2, hle, htaken hans 0 (by omega)⟩

end Consumer

end AstraLib.Ring
