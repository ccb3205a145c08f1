import AstraLib.Ring.Contents

/-!
# `AtomicRingBuffer`: `batchDequeue` and the exclusion theorem

`batchDequeue` writes the payloads straight into `batchDequeueArray`, one array for all
callers.  `Batch` says what the entries hold, provided that at most one thread runs it at
any moment.  Together with the ticket and the payload invariants this gives the exclusion
theorem `slot_exclusion_whole_payloads`.
-/

namespace AstraLib.Ring

open Interleaving

section Batches

variable {Tid κ τ ω : Type} {W : ℕ}

/-- The number of finished iterations of the `batchDequeue` that a thread is in. -/
def Pc.batchIndex : Pc κ τ ω W → Option ℕ
  | .batchLoop i _ | .deqClaim (.batch i _) | .deqSpin (.batch i _) _ | .deqCopy (.batch i _) _ _ =>
      some i
  | _ => none

/-- The thread is inside `batchDequeue`. -/
def Pc.inBatch : Pc κ τ ω W → Bool
  | .batchReturn => true
  | p => p.batchIndex.isSome

/-- `batchDequeue` is called only while no thread is inside it. -/
def OneBatch (s : State Tid κ τ ω W) (a : Tid × Micro ω W) : Prop :=
  ∀ count, a.2 = .call (.batchDequeue count) → ∀ θ, (s.pc θ).inBatch = false

theorem Pc.inBatch_of_batchIndex {p : Pc κ τ ω W} {i : ℕ} (h : p.batchIndex = some i) :
    p.inBatch = true := by
  cases p <;> simp_all [Pc.inBatch, Pc.batchIndex]

/-- Only a call of `batchDequeue` puts a thread inside it. -/
theorem Exec.inBatch_eq_false {ar : TicketArith κ τ} {cfg : Config} {m m' : Mem κ ω W}
    {p p' : Pc κ τ ω W} {a : Micro ω W} (h : Exec ar cfg m p a m' p') (hp : p.inBatch = false)
    (ha : ∀ count, a ≠ .call (.batchDequeue count)) : p'.inBatch = false := by
  cases h with
  | call c =>
    cases c with
    | batchDequeue count => exact absurd rfl (ha count)
    | _ => rfl
  | enqPass k v t _ => unfold Pc.enqPast; split_ifs <;> rfl
  | loopNext i count _ => exact hp
  | loopEnd i count _ => cases hp
  | deqClaim d => cases d <;> exact hp
  | deqPass d t _ => cases d <;> exact hp
  | deqRetry d t _ => exact hp
  | deqCopy d t buf j left _ => cases d <;> exact hp
  | deqPublish d t buf v _ =>
    cases d with
    | result => rfl
    | batch i count => cases hp
  | _ => rfl

/-- What `batchDequeueArray` holds. -/
structure Batch (s : State Tid ℕ ℕ ω W) (l : Log Tid ω W) : Prop where
  one : ∀ θ θ', (s.pc θ).inBatch = true → (s.pc θ').inBatch = true → θ = θ'
  length : ∀ θ i, (s.pc θ).batchIndex = some i → l.batch.length = i
  /-- the entries of the finished iterations -/
  array : ∀ k t, l.batch[k]? = some t →
    ∃ θ, l.writers[t]? = some (θ, s.mem.batchDequeueArray k)
  /-- the words of the current iteration -/
  entry : ∀ θ i count t buf, s.pc θ = .deqCopy (.batch i count) t buf → ∀ j x, buf j = some x →
    s.mem.batchDequeueArray i j = x

namespace Batch

variable {cfg : Config} {s : State Tid ℕ ℕ ω W} {l : Log Tid ω W}

theorem init (data array : ℕ → Payload ω W) :
    Batch (fresh (unbounded cfg) cfg data array : State Tid ℕ ℕ ω W) Log.empty := by
  constructor
  · intro θ θ' h; simp [fresh, Pc.inBatch, Pc.batchIndex] at h
  · intro θ i h; simp [fresh, Pc.batchIndex] at h
  · intro k t h; simp [Log.empty] at h
  · intro θ i count t buf h; simp [fresh] at h

variable [DecidableEq Tid] {θ : Tid} {m' : Mem ℕ ω W} {p' : Pc ℕ ℕ ω W} {l' : Log Tid ω W}

/-- Steps that leave the array alone. -/
theorem frame (h : Batch s l) (harr : m'.batchDequeueArray = s.mem.batchDequeueArray)
    (hb : l'.batch = l.batch) (hext : ∀ (t : ℕ) e, l.writers[t]? = some e → l'.writers[t]? = some e)
    (hin : p'.inBatch = true → (s.pc θ).inBatch = true)
    (hidx : ∀ i, p'.batchIndex = some i → (s.pc θ).batchIndex = some i)
    (hent : ∀ i count t buf, p' = .deqCopy (.batch i count) t buf → ∀ j x, buf j = some x →
      s.mem.batchDequeueArray i j = x) :
    Batch (s.put θ m' p') l' := by
  have hin' : ∀ θ', ((s.put θ m' p').pc θ').inBatch = true → (s.pc θ').inBatch = true := by
    intro θ' hθ'
    by_cases hθ : θ' = θ
    · subst hθ; exact hin (by rwa [put_pc_self] at hθ')
    · rwa [put_pc_of_ne hθ] at hθ'
  constructor
  · intro θ₁ θ₂ h₁ h₂
    exact h.one θ₁ θ₂ (hin' θ₁ h₁) (hin' θ₂ h₂)
  · intro θ' i hi
    rw [hb]
    by_cases hθ : θ' = θ
    · subst hθ; exact h.length θ' i (hidx i (by rwa [put_pc_self] at hi))
    · exact h.length θ' i (by rwa [put_pc_of_ne hθ] at hi)
  · intro k t ht
    rw [hb] at ht
    obtain ⟨θ₀, hv⟩ := h.array k t ht
    exact ⟨θ₀, by rw [put_mem, harr]; exact hext t _ hv⟩
  · intro θ' i count t buf hp j x hx
    rw [put_mem, harr]
    by_cases hθ : θ' = θ
    · subst hθ; exact hent i count t buf (by rwa [put_pc_self] at hp) j x hx
    · exact h.entry θ' i count t buf (by rwa [put_pc_of_ne hθ] at hp) j x hx

/-- A call of `batchDequeue` starts a new batch. -/
theorem start (_h : Batch s l) (hone : ∀ θ', (s.pc θ').inBatch = false) {count : ℤ} :
    Batch (s.put θ s.mem (.batchLoop 0 count)) { l with batch := [] } := by
  have hθ : ∀ θ', ((s.put θ s.mem (.batchLoop 0 count)).pc θ').inBatch = true → θ' = θ := by
    intro θ' h'
    by_contra hne
    rw [put_pc_of_ne hne, hone θ'] at h'
    cases h'
  constructor
  · intro θ₁ θ₂ h₁ h₂
    rw [hθ θ₁ h₁, hθ θ₂ h₂]
  · intro θ' i hi
    obtain rfl := hθ θ' (Pc.inBatch_of_batchIndex hi)
    rw [put_pc_self] at hi
    cases hi
    rfl
  · intro k t ht
    simp at ht
  · intro θ' i count' t buf hp
    obtain rfl := hθ θ' (by rw [hp]; rfl)
    rw [put_pc_self] at hp
    cases hp

/-- One word goes into the array. The entries of the finished iterations are other entries. -/
theorem deliver (h : Batch s l) {i : ℕ} {count : ℤ} {t : ℕ} {buf : Fin W → Option ω} {j₀ : Fin W}
    {x₀ : ω} (hp : s.pc θ = .deqCopy (.batch i count) t buf)
    (harr : m'.batchDequeueArray = Function.update s.mem.batchDequeueArray i
      (Function.update (s.mem.batchDequeueArray i) j₀ x₀)) :
    Batch (s.put θ m' (.deqCopy (.batch i count) t (Function.update buf j₀ (some x₀)))) l := by
  have hlen : l.batch.length = i := h.length θ i (by rw [hp]; rfl)
  have hone : ∀ θ', (s.pc θ').inBatch = true → θ' = θ := fun θ' h' =>
    h.one θ' θ h' (by rw [hp]; rfl)
  have hin : ∀ θ', ((s.put θ m' (.deqCopy (.batch i count) t (Function.update buf j₀ (some x₀)))).pc
      θ').inBatch = true → θ' = θ := by
    intro θ' h'
    by_contra hne
    rw [put_pc_of_ne hne] at h'
    exact hne (hone θ' h')
  constructor
  · intro θ₁ θ₂ h₁ h₂
    rw [hin θ₁ h₁, hin θ₂ h₂]
  · intro θ' i' hi'
    obtain rfl := hin θ' (Pc.inBatch_of_batchIndex hi')
    rw [put_pc_self] at hi'
    cases hi'
    exact hlen
  · intro k u hu
    have hk : k ≠ i := by
      have := (List.getElem?_eq_some_iff.1 hu).1
      omega
    obtain ⟨θ₀, hv⟩ := h.array k u hu
    exact ⟨θ₀, by rw [put_mem, harr, Function.update_of_ne hk]; exact hv⟩
  · intro θ' i' count' u buf' hp' j x hx
    obtain rfl := hin θ' (by rw [hp']; rfl)
    rw [put_pc_self] at hp'
    cases hp'
    rw [put_mem, harr, Function.update_self]
    by_cases hj : j = j₀
    · subst hj
      rw [Function.update_self] at hx ⊢
      cases hx
      rfl
    · rw [Function.update_of_ne hj] at hx ⊢
      exact h.entry θ' i count t buf hp j x hx

/-- An iteration is finished: its entry is the payload with its ticket. -/
theorem finish (h : Batch s l) (hc : Contents cfg s l) (ht : Tickets cfg s l) {i : ℕ} {count : ℤ}
    {t : ℕ} {buf : Fin W → Option ω} {v : Payload ω W}
    (hp : s.pc θ = .deqCopy (.batch i count) t buf) (hv : ∀ j, buf j = some (v j))
    (harr : m'.batchDequeueArray = s.mem.batchDequeueArray) :
    Batch (s.put θ m' (.batchLoop (i + 1) count)) { l with batch := l.batch ++ [t] } := by
  have hlen : l.batch.length = i := h.length θ i (by rw [hp]; rfl)
  have hin : ∀ θ', ((s.put θ m' (.batchLoop (i + 1) count)).pc θ').inBatch = true → θ' = θ := by
    intro θ' h'
    by_contra hne
    rw [put_pc_of_ne hne] at h'
    exact hne (h.one θ' θ h' (by rw [hp]; rfl))
  constructor
  · intro θ₁ θ₂ h₁ h₂
    rw [hin θ₁ h₁, hin θ₂ h₂]
  · intro θ' i' hi'
    obtain rfl := hin θ' (Pc.inBatch_of_batchIndex hi')
    rw [put_pc_self] at hi'
    cases hi'
    simp [hlen]
  · intro k u hu
    rw [put_mem, harr]
    rcases getElem?_concat_eq_some.1 hu with hu | ⟨rfl, rfl⟩
    · exact h.array k u hu
    · obtain ⟨θ₀, hw⟩ := hc.collected ht hp hv
      have heq : s.mem.batchDequeueArray l.batch.length = v := by
        funext j
        rw [hlen]
        exact h.entry θ i count t buf hp j (v j) (hv j)
      exact ⟨θ₀, by rw [heq]; exact hw⟩
  · intro θ' i' count' u buf' hp'
    obtain rfl := hin θ' (by rw [hp']; rfl)
    rw [put_pc_self] at hp'
    cases hp'

/-- A step that is not inside `batchDequeue`, before or after. -/
theorem outside (h : Batch s l) (harr : m'.batchDequeueArray = s.mem.batchDequeueArray)
    (hb : l'.batch = l.batch) (hext : ∀ (t : ℕ) e, l.writers[t]? = some e → l'.writers[t]? = some e)
    (hp' : p'.inBatch = false) : Batch (s.put θ m' p') l' := by
  refine h.frame harr hb hext (fun h' => ?_) (fun i hi => ?_) (fun i count t buf hq => ?_)
  · rw [hp'] at h'; cases h'
  · rw [Pc.inBatch_of_batchIndex hi] at hp'; cases hp'
  · rw [hq] at hp'; cases hp'

/-- **Every step keeps the entries of the array**, as long as one thread at a time runs
`batchDequeue`. -/
theorem step (h : Batch s l) (hc : Contents cfg s l) (ht : Tickets cfg s l) {a : Micro ω W}
    (hone : OneBatch s (θ, a)) (hx : Exec (unbounded cfg) cfg s.mem (s.pc θ) a m' p') :
    Batch (s.put θ m' p') (l.note θ (s.pc θ) a) := by
  generalize hp : s.pc θ = p at hx
  cases hx with
  | call c =>
    cases c with
    | batchDequeue count => exact h.start (hone count rfl)
    | _ => exact h.outside rfl rfl (fun _ _ => id) rfl
  | enqClaim k v =>
    exact h.outside rfl rfl (fun t e he => getElem?_concat_eq_some.2 (Or.inl he)) rfl
  | enqPass k v t hseq =>
    refine h.outside rfl rfl (fun _ _ => id) ?_
    unfold Pc.enqPast
    split_ifs <;> rfl
  | loopNext i count hi =>
    exact h.frame rfl rfl (fun _ _ => id) (fun _ => by rw [hp]; rfl)
      (by rw [hp]; exact fun _ => id) (by simp)
  | loopEnd i count hi =>
    exact h.frame rfl rfl (fun _ _ => id) (fun _ => by rw [hp]; rfl)
      (by simp [Pc.batchIndex]) (by simp)
  | deqClaim d =>
    cases d with
    | result => exact h.outside rfl rfl (fun _ _ => id) rfl
    | batch i count =>
      exact h.frame rfl rfl (fun _ _ => id) (fun _ => by rw [hp]; rfl)
        (by rw [hp]; exact fun _ => id) (by simp)
  | deqPass d t hseq =>
    cases d with
    | result => exact h.outside rfl rfl (fun _ _ => id) rfl
    | batch i count =>
      refine h.frame rfl rfl (fun _ _ => id) (fun _ => by rw [hp]; rfl)
        (by rw [hp]; exact fun _ => id) fun i' count' t' buf hq j x hx => ?_
      cases hq
      cases hx
  | deqRetry d t hseq =>
    exact h.frame rfl rfl (fun _ _ => id) (by rw [hp]; exact id)
      (by rw [hp]; exact fun _ => id) (by simp)
  | deqCopy d t buf j left hj =>
    cases d with
    | result => exact h.outside rfl rfl (fun _ _ => id) rfl
    | batch i count => exact h.deliver hp rfl
  | deqPublish d t buf v hv =>
    cases d with
    | result => exact h.outside rfl rfl (fun _ _ => id) rfl
    | batch i count => exact h.finish hc ht hp hv rfl
  | _ => exact h.outside rfl rfl (fun _ _ => id) rfl

end Batch

end Batches

/-! ### The exclusion theorem -/

section Exclusion

variable {Tid ω : Type} {W : ℕ} [DecidableEq Tid]

theorem batch_invariant {cfg : Config} {s : State Tid ℕ ℕ ω W} {l : Log Tid ω W}
    (h : (((system (unbounded cfg) cfg).restrict OneBatch).withLog Log.empty logNote).Reachable
      (s, l)) :
    Batch s l := by
  have hI : (((system (unbounded cfg) cfg).restrict OneBatch).withLog Log.empty logNote).IsInvariant
      fun p : State Tid ℕ ℕ ω W × Log Tid ω W => Batch p.1 p.2 := by
    constructor
    · rintro ⟨s, l⟩ ⟨⟨data, array, rfl⟩, rfl⟩
      exact Batch.init data array
    · rintro ⟨s, l⟩ ⟨θ, a⟩ ⟨s', l'⟩ hreach hb ⟨⟨hone, hstep⟩, rfl⟩
      obtain ⟨ht, hc⟩ := invariants hreach.log_of_restrict
      obtain ⟨m, p, hx, rfl⟩ := step_eq_some.1 hstep
      exact hb.step hc ht hone hx
  exact hI.reachable h

/-- **Slot exclusion and whole payloads.** In every reachable state at most one thread is
between its spin test and its `seq` store on any slot. A dequeue that holds read ticket `t`
has read, and will find in its slot, the words of the payload enqueued with write ticket
`t` and no others; it returns that payload, and the finished entries of a batch are the
payloads with the tickets of the batch. -/
theorem slot_exclusion_whole_payloads {cfg : Config} {s : State Tid ℕ ℕ ω W} {l : Log Tid ω W}
    (h : (((system (unbounded cfg) cfg).restrict OneBatch).withLog Log.empty logNote).Reachable
      (s, l)) :
    (∀ θ θ' i, s.Accesses cfg θ i → s.Accesses cfg θ' i → θ = θ') ∧
    (∀ θ d t buf, s.pc θ = .deqCopy d t buf → ∃ θ' v, l.writers[t]? = some (θ', v) ∧
      ∀ j, (∀ x, buf j = some x → x = v j) ∧ (buf j = none → s.dataOf cfg t j = v j)) ∧
    (∀ θ t v, s.pc θ = .deqReturn t v → ∃ θ', l.writers[t]? = some (θ', v)) ∧
    (∀ θ i count, s.pc θ = .batchLoop i count → l.batch.length = i) ∧
    (∀ k t, l.batch[k]? = some t → ∃ θ', l.writers[t]? = some (θ', s.mem.batchDequeueArray k)) := by
  obtain ⟨ht, hc⟩ := invariants h.log_of_restrict
  have hb := batch_invariant h
  refine ⟨fun θ θ' i => ht.accesses_unique, ?_, hc.returned, ?_, hb.array⟩
  · intro θ d t buf hp
    have hd : (s.pc θ).draining = some t := by rw [hp]; rfl
    have hseq := ht.draining_eq θ t hd
    obtain ⟨θ', v, hv⟩ := ht.exists_writer (t := t) (by omega)
    refine ⟨θ', v, hv, fun j => ⟨fun x hx => ?_, fun hnone => ?_⟩⟩
    · obtain ⟨θ₁, v₁, hv₁, hj⟩ := hc.taken θ d t buf hp j x hx
      rw [hv] at hv₁
      cases hv₁
      exact hj.symm
    · refine hc.full t θ' v hv hseq j fun θ₁ d₁ buf₁ hp₁ => ?_
      -- the only reader of this ticket is `θ` itself
      have hd₁ : (s.pc θ₁).draining = some t := by rw [hp₁]; rfl
      obtain rfl := ht.draining_unique hd hd₁ rfl
      rw [hp] at hp₁
      cases hp₁
      exact hnone
  · intro θ i count hp
    exact hb.length θ i (by rw [hp]; rfl)

/-- The smallest buffer that the `static_assert`s admit. -/
def smallest : Config := ⟨2, 50, true, by decide, by decide, by decide⟩

/-- One value is enqueued by thread `0` and read, but for one of its two words, by thread `1`. -/
def tornSchedule : List (ℕ × Micro ℕ 2) :=
  [(0, .call (.enqueue .move ![7, 8])), (1, .call .dequeue), (1, .claim), (1, .spin), (0, .claim),
   (0, .spin), (0, .copy 1 0), (0, .copy 0 0), (0, .publish), (1, .spin), (1, .copy 0 0)]

/-- Thread `1` has read the first word of the payload with its ticket, and only that one. -/
def halfRead (s : State ℕ ℕ ℕ ℕ 2) : Bool :=
  match s.pc 1 with
  | .deqCopy .result 0 buf => buf 0 == some 7 && buf 1 == none
  | _ => false

theorem tornSchedule_halfRead : (tornSchedule.foldlM (step (unbounded smallest) smallest)
    (fresh (unbounded smallest) smallest (fun _ => ![0, 0]) (fun _ => ![0, 0]))).map halfRead =
      some true := by
  decide +kernel

theorem slot_exclusion_half_read : ∃ (s : State ℕ ℕ ℕ ℕ 2) (l : Log ℕ ℕ 2),
    halfRead s = true ∧ ∃ θ v, l.writers[0]? = some (θ, v) ∧ 7 = v 0 ∧
    s.dataOf smallest 0 1 = v 1 := by
  have hinit : ((system (unbounded smallest) smallest).restrict OneBatch).init
      (fresh (unbounded smallest) smallest (fun _ => ![0, 0]) (fun _ => ![0, 0]) :
        State ℕ ℕ ℕ ℕ 2) :=
    ⟨_, _, rfl⟩
  have honly : ∀ s : State ℕ ℕ ℕ ℕ 2, ∀ a ∈ tornSchedule, OneBatch s a := by
    intro s a ha count
    fin_cases ha <;> simp
  obtain ⟨s, hs, hp⟩ := System.exists_reachable_of_schedule hinit tornSchedule_halfRead
    fun s a ha s' hst => ⟨honly s a ha, hst⟩
  obtain ⟨l, hl⟩ := hs.exists_log Log.empty logNote
  refine ⟨s, l, hp, ?_⟩
  unfold halfRead at hp
  split at hp
  · rename_i buf hpc
    simp only [Bool.and_eq_true, beq_iff_eq] at hp
    obtain ⟨θ, v, hv, hj⟩ := (slot_exclusion_whole_payloads hl).2.1 1 .result 0 buf hpc
    exact ⟨θ, v, hv, (hj 0).1 7 hp.1, (hj 1).2 hp.2⟩
  · cases hp

end Exclusion

end AstraLib.Ring
