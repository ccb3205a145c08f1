import AstraLib.Interleaving.Linearizability
import AstraLib.Ring.Progress

/-!
# `AtomicRingBuffer`: linearizability

The queue is linearizable to a blocking first-in first-out queue of capacity `SIZE`.

An enqueue takes effect when its ticket is claimed, unless the abstract queue is full then; in that
case it takes effect when the read ticket of the slot's previous occupant is claimed.  A dequeue
takes effect when its ticket is claimed, unless the matching write ticket is not claimed yet; in
that case it takes effect together with that claim.  So a `fetch_add` of one thread commits its own
operation, or none, or its own and then the one of a thread that has been waiting for it.

With `w` write tickets and `r` read tickets claimed, the abstract queue holds the payloads with
tickets from `r` to `min w (r + SIZE)`, and whether the operation of a thread is committed can be
read off its ticket (`Pc.status`).
-/

namespace AstraLib.Ring

open Interleaving

section Linearizability

variable {Tid ω : Type} {W : ℕ}

/-- The member functions of the queue, as their clients see them. -/
abbrev Operation (ω : Type) (W : ℕ) := QueueOp (Payload ω W)

/-- The results of the member functions. -/
abbrev Result (ω : Type) (W : ℕ) := QueueRet (Payload ω W)

/-- The calls and the returns in a run. -/
def history (s : State Tid ℕ ℕ ω W) (a : Tid × Micro ω W)
    (h : List (Event Tid (Operation ω W) (Result ω W))) :
    List (Event Tid (Operation ω W) (Result ω W)) :=
  match s.pc a.1, a.2 with
  | .idle, .call (.enqueue _ v) => h ++ [.call a.1 (.enqueue v)]
  | .idle, .call .dequeue => h ++ [.call a.1 .dequeue]
  | .enqReturn, .ret => h ++ [.ret a.1 .done]
  | .deqReturn _ v, .ret => h ++ [.ret a.1 (.value v)]
  | _, _ => h

/-- No thread calls `batchDequeue`. -/
def NoBatch (_ : State Tid ℕ ℕ ω W) (a : Tid × Micro ω W) : Prop :=
  ∀ count, a.2 ≠ .call (.batchDequeue count)

/-- How far a thread is, when the payloads `vs` have write tickets and the first `r` read tickets
are claimed. -/
def Pc.status (cfg : Config) (vs : List (Payload ω W)) (r : ℕ) :
    Pc ℕ ℕ ω W → Status (Operation ω W) (Result ω W)
  | .enqClaim _ v => .called (.enqueue v)
  | .enqSpin _ v t | .enqDestroy v t | .enqCopy _ v t _ =>
      if t < r + cfg.SIZE then .committed .done else .called (.enqueue v)
  | .enqReturn => .committed .done
  | .deqClaim .result => .called .dequeue
  | .deqSpin .result t | .deqCopy .result t _ =>
      match vs[t]? with
      | some v => .committed (.value v)
      | none => .called .dequeue
  | .deqReturn _ v => .committed (.value v)
  | _ => .idle

/-- The payloads in the abstract queue. -/
def contents (cfg : Config) (vs : List (Payload ω W)) (r : ℕ) : List (Payload ω W) :=
  (vs.take (r + cfg.SIZE)).drop r

theorem Pc.status_of_writing {cfg : Config} {vs : List (Payload ω W)} {r : ℕ} {p : Pc ℕ ℕ ω W}
    {t : ℕ} {v : Payload ω W} (hp : p.writing = some (t, v)) :
    p.status cfg vs r = if t < r + cfg.SIZE then .committed .done else .called (.enqueue v) := by
  cases p <;> simp_all [Pc.writing, Pc.status]

theorem Pc.status_of_reading {cfg : Config} {vs : List (Payload ω W)} {r : ℕ} {p : Pc ℕ ℕ ω W}
    {t : ℕ} (hp : p.reading = some t) (hb : p.inBatch = false) :
    p.status cfg vs r = match vs[t]? with
      | some v => .committed (.value v)
      | none => .called .dequeue := by
  cases p with
  | deqSpin d u => cases d <;> simp_all [Pc.reading, Pc.status, Pc.inBatch, Pc.batchIndex]
  | deqCopy d u buf => cases d <;> simp_all [Pc.reading, Pc.status, Pc.inBatch, Pc.batchIndex]
  | _ => cases hp

/-- A claimed write ticket matters to the thread that waits for its payload, and to no other. -/
theorem Pc.status_concat {cfg : Config} {vs : List (Payload ω W)} (v : Payload ω W) {r : ℕ}
    {p : Pc ℕ ℕ ω W} (hp : p.reading ≠ some vs.length) :
    p.status cfg (vs ++ [v]) r = p.status cfg vs r := by
  have hget : ∀ t, t ≠ vs.length → (vs ++ [v])[t]? = vs[t]? := by
    intro t ht
    rcases lt_or_gt_of_ne ht with hlt | hgt
    · exact List.getElem?_append_left hlt
    · rw [List.getElem?_eq_none (by simp; omega), List.getElem?_eq_none hgt.le]
  cases p with
  | deqClaim d => cases d <;> rfl
  | deqSpin d t =>
    cases d with
    | result => simp only [Pc.status, hget t fun heq => hp (by rw [← heq]; rfl)]
    | batch i count => rfl
  | deqCopy d t buf =>
    cases d with
    | result => simp only [Pc.status, hget t fun heq => hp (by rw [← heq]; rfl)]
    | batch i count => rfl
  | _ => rfl

/-- A claimed read ticket matters to the thread that waits for its slot, and to no other. -/
theorem Pc.status_succ {cfg : Config} {vs : List (Payload ω W)} {r : ℕ} {p : Pc ℕ ℕ ω W}
    (hp : ∀ v, p.writing ≠ some (r + cfg.SIZE, v)) :
    p.status cfg vs (r + 1) = p.status cfg vs r := by
  have hlt : ∀ t v, p.writing = some (t, v) → (t < r + 1 + cfg.SIZE ↔ t < r + cfg.SIZE) := by
    intro t v ht
    have : t ≠ r + cfg.SIZE := by rintro rfl; exact hp v ht
    omega
  cases p with
  | enqSpin k v t => simp only [Pc.status, hlt t v rfl]
  | enqDestroy v t => simp only [Pc.status, hlt t v rfl]
  | enqCopy k v t done => simp only [Pc.status, hlt t v rfl]
  | deqClaim d => cases d <;> rfl
  | deqSpin d t => cases d <;> rfl
  | deqCopy d t buf => cases d <;> rfl
  | _ => rfl

/-! ### The abstract queue -/

section Contents

variable {cfg : Config} {vs : List (Payload ω W)} {r : ℕ}

theorem length_contents : (contents cfg vs r).length = min (r + cfg.SIZE) vs.length - r := by
  simp [contents]

theorem contents_eq_nil (h : vs.length ≤ r) : contents cfg vs r = [] := by
  apply List.eq_nil_of_length_eq_zero
  rw [length_contents]
  omega

theorem contents_concat_of_full (v : Payload ω W) (h : r + cfg.SIZE ≤ vs.length) :
    contents cfg (vs ++ [v]) r = contents cfg vs r := by
  unfold contents
  rw [List.take_append_of_le_length h]

theorem contents_concat (v : Payload ω W) (h : vs.length < r + cfg.SIZE) (hr : r ≤ vs.length) :
    contents cfg (vs ++ [v]) r = contents cfg vs r ++ [v] := by
  unfold contents
  rw [List.take_of_length_le (by simp; omega), List.take_of_length_le h.le,
    List.drop_append_of_le_length hr]

/-- Taking the first payload out makes room for the one with ticket `r + SIZE`, if there is one. -/
theorem contents_succ (cfg : Config) {v : Payload ω W} (hv : vs[r]? = some v) :
    ∃ rest, contents cfg vs r = v :: rest ∧
      contents cfg vs (r + 1) = rest ++ (vs[r + cfg.SIZE]?).toList := by
  obtain ⟨hr, rfl⟩ := List.getElem?_eq_some_iff.1 hv
  have hlen : r < (vs.take (r + cfg.SIZE)).length := by
    have := cfg.size_pos
    simp
    omega
  refine ⟨(vs.take (r + cfg.SIZE)).drop (r + 1), ?_, ?_⟩
  · unfold contents
    rw [List.drop_eq_getElem_cons hlen]
    simp
  · unfold contents
    rw [show r + 1 + cfg.SIZE = r + cfg.SIZE + 1 by omega, List.take_add_one,
      List.drop_append_of_le_length hlen]

end Contents

/-! ### The invariant -/

/-- The payloads that have write tickets, in the order of the tickets. -/
def Log.payloads (l : Log Tid ω W) : List (Payload ω W) := l.writers.map Prod.snd

theorem Log.payloads_eq_some {l : Log Tid ω W} {t : ℕ} {v : Payload ω W} :
    l.payloads[t]? = some v ↔ ∃ θ, l.writers[t]? = some (θ, v) := by
  simp [Log.payloads, List.getElem?_map]

/-- An enqueue past its spin test has room in the abstract queue. -/
theorem Tickets.lt_of_filling {cfg : Config} {s : State Tid ℕ ℕ ω W} {l : Log Tid ω W}
    (ht : Tickets cfg s l) {θ : Tid} {t : ℕ} (hf : (s.pc θ).filling = some t) :
    t < s.mem.readTicket + cfg.SIZE := by
  have hseq := ht.filling_eq θ t hf
  have hsize := cfg.two_le
  by_contra hle
  have hslot : (t - cfg.SIZE) % cfg.SIZE = t % cfg.SIZE := (Nat.mod_eq_sub_mod (by omega)).symm
  have hlt := ht.consumed_lt (t - cfg.SIZE) (by rw [State.seqOf, hslot, ← State.seqOf, hseq]; omega)
  omega

variable [DecidableEq Tid]

/-- `S` linearizes the history so far. -/
structure Linearized (cfg : Config) (s : State Tid ℕ ℕ ω W) (l : Log Tid ω W)
    (h : List (Event Tid (Operation ω W) (Result ω W)))
    (S : List (Entry Tid (Operation ω W) (Result ω W))) : Prop where
  noBatch : ∀ θ, (s.pc θ).inBatch = false
  linearizing : Linearizing (boundedQueue (Payload ω W) cfg.SIZE) h S
    (contents cfg l.payloads s.mem.readTicket)
    fun θ => (s.pc θ).status cfg l.payloads s.mem.readTicket

namespace Linearized

variable {cfg : Config} {s : State Tid ℕ ℕ ω W} {l : Log Tid ω W} {θ : Tid} {m' : Mem ℕ ω W}
  {p' : Pc ℕ ℕ ω W} {h : List (Event Tid (Operation ω W) (Result ω W))}
  {S : List (Entry Tid (Operation ω W) (Result ω W))}

theorem init (data array : ℕ → Payload ω W) :
    Linearized cfg (fresh (unbounded cfg) cfg data array : State Tid ℕ ℕ ω W) Log.empty [] [] :=
  ⟨fun _ => rfl, Linearizing.nil.congr (by simp [Log.payloads, Log.empty, contents, boundedQueue])
    fun _ => rfl⟩

theorem noBatch_put (hS : Linearized cfg s l h S) (hb : p'.inBatch = false) (θ' : Tid) :
    ((s.put θ m' p').pc θ').inBatch = false := by
  by_cases hθ : θ' = θ
  · subst hθ; rwa [put_pc_self]
  · rw [put_pc_of_ne hθ]; exact hS.noBatch θ'

/-- The status of the threads after a step that claims no ticket. -/
theorem status_put {vs : List (Payload ω W)} {r : ℕ} {st : Status (Operation ω W) (Result ω W)}
    (hst : p'.status cfg vs r = st) (θ' : Tid) : ((s.put θ m' p').pc θ').status cfg vs r =
      Function.update (fun θ' => (s.pc θ').status cfg vs r) θ st θ' := by
  by_cases hθ : θ' = θ
  · subst hθ; rw [put_pc_self, Function.update_self, hst]
  · rw [put_pc_of_ne hθ, Function.update_of_ne hθ]

/-- Steps that claim no ticket and change the status of no operation. -/
theorem frame (hS : Linearized cfg s l h S) (hr : m'.readTicket = s.mem.readTicket)
    (hb : p'.inBatch = false)
    (hst : p'.status cfg l.payloads s.mem.readTicket =
      (s.pc θ).status cfg l.payloads s.mem.readTicket) :
    Linearized cfg (s.put θ m' p') l h S := by
  refine ⟨hS.noBatch_put hb, hS.linearizing.congr (by rw [put_mem, hr]) fun θ' => ?_⟩
  rw [put_mem, hr, status_put hst]
  exact congrFun (Function.update_eq_self θ
    fun θ' => (s.pc θ').status cfg l.payloads s.mem.readTicket) θ'

theorem call (hS : Linearized cfg s l h S) {op : Operation ω W} (hb : p'.inBatch = false)
    (hst : p'.status cfg l.payloads s.mem.readTicket = .called op) :
    Linearized cfg (s.put θ s.mem p') l (h ++ [.call θ op]) S :=
  ⟨hS.noBatch_put hb, (hS.linearizing.call θ op).congr rfl (status_put hst)⟩

theorem ret (hS : Linearized cfg s l h S) {r : Result ω W}
    (hst : (s.pc θ).status cfg l.payloads s.mem.readTicket = .committed r) :
    Linearized cfg (s.put θ s.mem .idle) l (h ++ [.ret θ r]) S :=
  ⟨hS.noBatch_put rfl, (hS.linearizing.ret hst).congr rfl (status_put rfl)⟩

/-- A claimed write ticket commits its enqueue if there is room, and then the dequeue that has been
waiting for it. -/
theorem claimWrite (hS : Linearized cfg s l h S) (ht : Tickets cfg s l) {k : EnqKind}
    {v : Payload ω W} (hp : s.pc θ = .enqClaim k v) :
    ∃ S', Linearized cfg (s.put θ { s.mem with writeTicket := s.mem.writeTicket + 1 }
      (.enqSpin k v s.mem.writeTicket)) { l with writers := l.writers ++ [(θ, v)] } h S' := by
  have hlen : l.payloads.length = s.mem.writeTicket := by
    rw [ht.writeTicket_eq, Log.payloads, List.length_map]
  have hpay : Log.payloads { l with writers := l.writers ++ [(θ, v)] } = l.payloads ++ [v] := by
    simp [Log.payloads]
  have hθ : (s.pc θ).status cfg l.payloads s.mem.readTicket = .called (.enqueue v) := by
    rw [hp]; rfl
  have hnb : (Pc.enqSpin k v s.mem.writeTicket : Pc ℕ ℕ ω W).inBatch = false := rfl
  -- the claim changes the status of this thread, and of the one that waits for the payload
  have hothers : ∀ θ₁, (θ₁ ≠ θ → (s.pc θ₁).reading ≠ some s.mem.writeTicket) →
      ∀ m', ((s.put θ m' (.enqSpin k v s.mem.writeTicket)).pc θ₁).status cfg (l.payloads ++ [v])
        s.mem.readTicket =
        Function.update (fun θ' => (s.pc θ').status cfg l.payloads s.mem.readTicket)
          θ (if s.mem.writeTicket < s.mem.readTicket + cfg.SIZE then .committed .done
            else .called (.enqueue v)) θ₁ := by
    intro θ₁ hr m'
    by_cases h₁ : θ₁ = θ
    · subst h₁; rw [put_pc_self, Function.update_self]; rfl
    · rw [put_pc_of_ne h₁, Function.update_of_ne h₁]
      exact Pc.status_concat v (by rw [hlen]; exact hr h₁)
  have hlate : s.mem.readTicket ≤ s.mem.writeTicket → ∀ θ₁,
      θ₁ ≠ θ → (s.pc θ₁).reading ≠ some s.mem.writeTicket := by
    intro hle θ₁ _ hr
    exact absurd (ht.lt_readTicket hr) (by omega)
  rcases Nat.lt_or_ge s.mem.writeTicket (s.mem.readTicket + cfg.SIZE) with hroom | hfull
  · rw [if_pos hroom] at hothers
    rcases Nat.lt_or_ge s.mem.writeTicket s.mem.readTicket with hwait | hqueue
    · -- a dequeue has been waiting
      have hseq : s.seqOf cfg s.mem.writeTicket ≤ s.mem.writeTicket := by
        by_contra hlt
        exact absurd (ht.published_lt _ (by omega)) (lt_irrefl _)
      obtain ⟨θ', hr⟩ := ht.exists_reading hwait (by omega)
      have hne : θ' ≠ θ := by
        rintro rfl
        rw [hp] at hr
        cases hr
      have hθ' : (s.pc θ').status cfg l.payloads s.mem.readTicket = .called .dequeue := by
        rw [Pc.status_of_reading hr (hS.noBatch θ'), List.getElem?_eq_none hlen.le]
      have hnil : contents cfg l.payloads s.mem.readTicket = [] := contents_eq_nil (by omega)
      have h1 := (hS.linearizing.congr hnil.symm fun _ => rfl).commit (.enqueue cfg.size_pos) hθ
      have h2 := h1.commit .dequeue (by rw [Function.update_of_ne hne]; exact hθ')
      refine ⟨_, hS.noBatch_put hnb, h2.congr ?_ fun θ₁ => ?_⟩
      · rw [hpay]; exact contents_eq_nil (by rw [List.length_append, hlen]; exact hwait)
      rw [hpay]
      by_cases h₁ : θ₁ = θ'
      · subst h₁
        rw [Function.update_self, put_pc_of_ne hne, Pc.status_of_reading hr (hS.noBatch θ₁), ← hlen,
          List.getElem?_concat_length]
      · rw [Function.update_of_ne h₁]
        exact hothers θ₁ (fun _ hr' => h₁ (ht.reading_unique hr' hr)) _
    · -- the payload goes to the end of the queue
      have h1 := hS.linearizing.commit
        (.enqueue (by rw [length_contents]; have := cfg.size_pos; omega)) hθ
      refine ⟨_, hS.noBatch_put hnb, h1.congr ?_ fun θ₁ => ?_⟩
      · rw [hpay]; exact contents_concat v (hlen.trans_lt hroom) (hqueue.trans_eq hlen.symm)
      · rw [hpay]; exact hothers θ₁ (hlate hqueue θ₁) _
  · -- the abstract queue is full
    rw [if_neg (by omega)] at hothers
    refine ⟨S, hS.noBatch_put hnb, hS.linearizing.congr ?_ fun θ₁ => ?_⟩
    · rw [hpay]; exact contents_concat_of_full v (hfull.trans_eq hlen.symm)
    · rw [hpay, put_mem, hothers θ₁ (hlate (by omega) θ₁), ← hθ]
      exact congrFun (Function.update_eq_self θ
        fun θ' => (s.pc θ').status cfg l.payloads s.mem.readTicket) θ₁

/-- A claimed read ticket commits its dequeue if there is a payload for it, and then the enqueue
that has been waiting for the room. -/
theorem claimRead (hS : Linearized cfg s l h S) (ht : Tickets cfg s l)
    (hp : s.pc θ = .deqClaim .result) :
    ∃ S', Linearized cfg (s.put θ { s.mem with readTicket := s.mem.readTicket + 1 }
      (.deqSpin .result s.mem.readTicket)) { l with readers := l.readers ++ [θ] } h S' := by
  have hlen : l.payloads.length = s.mem.writeTicket := by
    rw [ht.writeTicket_eq, Log.payloads, List.length_map]
  have hθ : (s.pc θ).status cfg l.payloads s.mem.readTicket = .called .dequeue := by
    rw [hp]; rfl
  have hnb : (Pc.deqSpin .result s.mem.readTicket : Pc ℕ ℕ ω W).inBatch = false := rfl
  -- the claim changes the status of this thread, and of the one that waits for the slot
  have hothers : ∀ st, (Pc.deqSpin .result s.mem.readTicket : Pc ℕ ℕ ω W).status cfg l.payloads
      (s.mem.readTicket + 1) = st → ∀ θ₁,
      (θ₁ ≠ θ → ∀ v, (s.pc θ₁).writing ≠ some (s.mem.readTicket + cfg.SIZE, v)) →
      ∀ m', ((s.put θ m' (.deqSpin .result s.mem.readTicket)).pc θ₁).status cfg l.payloads
        (s.mem.readTicket + 1) =
          Function.update (fun θ' => (s.pc θ').status cfg l.payloads s.mem.readTicket) θ st θ₁ := by
    intro st hst θ₁ hw m'
    by_cases h₁ : θ₁ = θ
    · subst h₁; rw [put_pc_self, Function.update_self, hst]
    · rw [put_pc_of_ne h₁, Function.update_of_ne h₁]
      exact Pc.status_succ (hw h₁)
  have hearly : s.mem.writeTicket ≤ s.mem.readTicket + cfg.SIZE → ∀ θ₁,
      θ₁ ≠ θ → ∀ v, (s.pc θ₁).writing ≠ some (s.mem.readTicket + cfg.SIZE, v) := by
    intro hle θ₁ _ v hw
    exact absurd (ht.lt_writeTicket hw) (by omega)
  rcases Nat.lt_or_ge s.mem.readTicket s.mem.writeTicket with hsome | hnone
  · -- there is a payload
    obtain ⟨v, hv⟩ : ∃ v, l.payloads[s.mem.readTicket]? = some v :=
      ⟨_, List.getElem?_eq_getElem (hlen ▸ hsome)⟩
    obtain ⟨rest, hold, hnew⟩ := contents_succ cfg hv
    have hself : (Pc.deqSpin .result s.mem.readTicket : Pc ℕ ℕ ω W).status cfg l.payloads
        (s.mem.readTicket + 1) = .committed (.value v) := by
      simp [Pc.status, hv]
    have h1 := (hS.linearizing.congr hold.symm fun _ => rfl).commit .dequeue hθ
    rcases Nat.lt_or_ge (s.mem.readTicket + cfg.SIZE) s.mem.writeTicket with hwait | hroom
    · -- an enqueue has been waiting
      have hslot : s.seqOf cfg (s.mem.readTicket + cfg.SIZE) = s.seqOf cfg s.mem.readTicket := by
        rw [State.seqOf, State.seqOf, Nat.add_mod_right]
      have hseq : s.seqOf cfg (s.mem.readTicket + cfg.SIZE) ≤ s.mem.readTicket + cfg.SIZE := by
        by_contra hlt
        have := cfg.two_le
        exact absurd (ht.consumed_lt s.mem.readTicket (by omega)) (lt_irrefl _)
      obtain ⟨θ', v', hw⟩ := ht.exists_writing hwait hseq
      have hne : θ' ≠ θ := by
        rintro rfl
        rw [hp] at hw
        cases hw
      have hθ' : (s.pc θ').status cfg l.payloads s.mem.readTicket = .called (.enqueue v') := by
        rw [Pc.status_of_writing hw, if_neg (lt_irrefl _)]
      have hv' : l.payloads[s.mem.readTicket + cfg.SIZE]? = some v' :=
        Log.payloads_eq_some.2 ⟨θ', ((ht.writing_iff θ' _ v').1 hw).1⟩
      have hrest : rest.length < cfg.SIZE := by
        have := congrArg List.length hold
        rw [length_contents, List.length_cons] at this
        omega
      have h2 := h1.commit (.enqueue hrest) (by rw [Function.update_of_ne hne]; exact hθ')
      refine ⟨_, hS.noBatch_put hnb, h2.congr ?_ fun θ₁ => ?_⟩
      · rw [hv'] at hnew; exact hnew
      by_cases h₁ : θ₁ = θ'
      · subst h₁
        rw [Function.update_self, put_pc_of_ne hne, Pc.status_of_writing hw, if_pos]
        simp only [put_mem]
        omega
      · rw [Function.update_of_ne h₁]
        exact hothers _ hself θ₁ (fun _ v₁ hw' => h₁ (ht.writing_unique hw' hw)) _
    · refine ⟨_, hS.noBatch_put hnb, h1.congr ?_ (fun θ₁ => hothers _ hself θ₁ (hearly hroom θ₁) _)⟩
      rw [List.getElem?_eq_none (by omega)] at hnew
      rw [← List.append_nil rest]
      exact hnew
  · -- the abstract queue is empty
    have hself : (Pc.deqSpin .result s.mem.readTicket : Pc ℕ ℕ ω W).status cfg l.payloads
        (s.mem.readTicket + 1) = .called .dequeue := by
      simp [Pc.status, List.getElem?_eq_none (hlen ▸ hnone)]
    refine ⟨S, hS.noBatch_put hnb, hS.linearizing.congr ?_ fun θ₁ => ?_⟩
    · exact (contents_eq_nil (hlen.trans_le (Nat.le_succ_of_le hnone))).trans
        (contents_eq_nil (hlen.trans_le hnone)).symm
    · show _ = (s.pc θ₁).status cfg l.payloads s.mem.readTicket
      rw [put_mem]
      refine (hothers _ hself θ₁ (hearly (by omega) θ₁) _).trans ?_
      rw [← hθ]
      exact congrFun (Function.update_eq_self θ
        fun θ' => (s.pc θ').status cfg l.payloads s.mem.readTicket) θ₁

/-- **Every step keeps the history linearized.** -/
theorem step (hS : Linearized cfg s l h S) (ht : Tickets cfg s l) (hc : Contents cfg s l)
    {a : Micro ω W} (hb : NoBatch s (θ, a)) (hx : Exec (unbounded cfg) cfg s.mem (s.pc θ) a m' p') :
    ∃ S', Linearized cfg (s.put θ m' p') (l.note θ (s.pc θ) a) (history s (θ, a) h) S' := by
  have hold := hS.noBatch θ
  unfold history
  generalize hp : s.pc θ = p at hx hold
  cases hx with
  | call c =>
    cases c with
    | enqueue k v => exact ⟨S, hS.call rfl rfl⟩
    | dequeue => exact ⟨S, hS.call rfl rfl⟩
    | batchDequeue count => exact absurd rfl (hb count)
    | isEmpty => exact ⟨S, hS.frame rfl rfl (by rw [hp]; rfl)⟩
  | enqClaim k v => exact hS.claimWrite ht hp
  | enqPass k v t _ =>
    refine ⟨S, hS.frame rfl ?_ ?_⟩
    · unfold Pc.enqPast; split_ifs <;> rfl
    · rw [hp]; unfold Pc.enqPast; split_ifs <;> rfl
  | enqPublish k v t =>
    refine ⟨S, hS.frame rfl rfl ?_⟩
    have hlt : t < s.mem.readTicket + cfg.SIZE := ht.lt_of_filling (θ := θ) (by rw [hp]; rfl)
    rw [hp]
    simp [Pc.status, hlt]
  | enqRet => exact ⟨S, hS.ret (by rw [hp]; rfl)⟩
  | deqClaim d =>
    cases d with
    | result => exact hS.claimRead ht hp
    | batch i count => cases hold
  | enqRetry k v t _ => exact ⟨S, hS.frame rfl hold (by rw [hp])⟩
  | deqRetry d t _ => exact ⟨S, hS.frame rfl hold (by rw [hp])⟩
  | deqPass d t _ =>
    cases d with
    | result => exact ⟨S, hS.frame rfl rfl (by rw [hp]; rfl)⟩
    | batch i count => cases hold
  | deqCopy d t buf j left _ =>
    cases d with
    | result => exact ⟨S, hS.frame rfl rfl (by rw [hp]; rfl)⟩
    | batch i count => cases hold
  | deqPublish d t buf v hv =>
    cases d with
    | result =>
      refine ⟨S, hS.frame rfl rfl ?_⟩
      have hget : l.payloads[t]? = some v := Log.payloads_eq_some.2 (hc.collected ht hp hv)
      rw [hp]
      simp [Pc.status, Pc.deqPast, hget]
    | batch i count => cases hold
  | deqRet t v => exact ⟨S, hS.ret (by rw [hp]; rfl)⟩
  | loopNext i count _ => cases hold
  | loopEnd i count _ => cases hold
  | batchRet => cases hold
  | _ => exact ⟨S, hS.frame rfl hold (by rw [hp]; rfl)⟩

end Linearized

/-- Some order of the operations linearizes the history of every run. -/
theorem exists_linearized {cfg : Config} {s : State Tid ℕ ℕ ω W}
    {h : List (Event Tid (Operation ω W) (Result ω W))}
    (hr : (((system (unbounded cfg) cfg).restrict NoBatch).withLog [] history).Reachable (s, h)) :
    ∃ l S, Linearized cfg s l h S := by
  -- the tickets are recorded next to the history
  obtain ⟨l, hl⟩ := hr.exists_log Log.empty fun p a l => logNote p.1 a l
  refine ⟨l, ?_⟩
  have hI : ((((system (unbounded cfg) cfg).restrict NoBatch).withLog [] history).withLog Log.empty
      fun p a l => logNote p.1 a l).IsInvariant
        fun p : (State Tid ℕ ℕ ω W × List (Event Tid (Operation ω W) (Result ω W))) × Log Tid ω W =>
          Tickets cfg p.1.1 p.2 ∧ Contents cfg p.1.1 p.2 ∧
          ∃ S, Linearized cfg p.1.1 p.2 p.1.2 S := by
    constructor
    · rintro ⟨⟨s, h⟩, l⟩ ⟨⟨⟨data, array, rfl⟩, rfl⟩, rfl⟩
      exact ⟨.init data array, .init data array, [], .init data array⟩
    · rintro ⟨⟨s, h⟩, l⟩ ⟨θ, a⟩ ⟨⟨s', h'⟩, l'⟩ - ⟨ht, hc, S, hS⟩ ⟨⟨⟨hb, hstep⟩, rfl⟩, rfl⟩
      obtain ⟨m, p, hx, rfl⟩ := step_eq_some.1 hstep
      exact ⟨ht.step hx.effect, hc.step ht hx, hS.step ht hc hb hx⟩
  exact (hI.reachable hl).2.2

/-- **The queue is linearizable to a blocking first-in first-out queue of capacity
`SIZE`.** For the history of every run there is an order of its operations that respects
real time, and that is a history of the sequential queue: at every moment of it the values
dequeued are the first ones enqueued, in the same order and each once, and at most `SIZE`
more have been enqueued than dequeued. -/
theorem linearizable_to_fifo {cfg : Config} {s : State Tid ℕ ℕ ω W}
    {h : List (Event Tid (Operation ω W) (Result ω W))}
    (hr : (((system (unbounded cfg) cfg).restrict NoBatch).withLog [] history).Reachable (s, h)) :
    ∃ S, IsLinearization (boundedQueue (Payload ω W) cfg.SIZE) h S ∧
      ∀ P, P <+: S → P.filterMap Entry.dequeued <+: P.filterMap Entry.enqueued ∧
        (P.filterMap Entry.enqueued).length ≤ (P.filterMap Entry.dequeued).length + cfg.SIZE := by
  obtain ⟨l, S, hS⟩ := exists_linearized hr
  refine ⟨S, hS.linearizing.isLinearization, fun P hP => ?_⟩
  obtain ⟨q, hq⟩ := hS.linearizing.legal.of_prefix hP
  obtain ⟨hfifo, hlen⟩ := boundedQueue_fifo hq
  rw [hfifo]
  refine ⟨List.prefix_append _ _, ?_⟩
  rw [List.length_append]
  omega

/-- Thread `1` claims its read ticket before anything is enqueued, thread `0` enqueues and
returns, and then thread `1` returns. -/
def earlyDequeue : List (ℕ × Micro ℕ 1) :=
  [(1, .call .dequeue), (1, .claim), (1, .spin), (0, .call (.enqueue .move ![7])), (0, .claim),
   (0, .spin), (0, .copy 0 0), (0, .publish), (0, .ret), (1, .spin), (1, .copy 0 0), (1, .publish),
   (1, .ret)]

/-- What the clients have seen of a run. -/
def seen (h : List (Event ℕ (Operation ℕ 1) (Result ℕ 1))) : List (ℕ × Option ℕ) :=
  h.map fun
    | .call θ (.enqueue v) => (θ, some (v 0))
    | .call θ .dequeue => (θ, none)
    | .ret θ .done => (θ, none)
    | .ret θ (.value v) => (θ, some (v 0))

theorem earlyDequeue_seen : (earlyDequeue.foldlM
    (fun q a => (step (unbounded smallest) smallest q.1 a).map fun s => (s, history q.1 a q.2))
    ((fresh (unbounded smallest) smallest (fun _ => ![0]) (fun _ => ![0])), [])).map
      (fun q => seen q.2 == [(1, none), (0, some 7), (0, none), (1, some 7)]) = some true := by
  decide +kernel

theorem linearizable_to_fifo_earlyDequeue : ∃ h : List (Event ℕ (Operation ℕ 1) (Result ℕ 1)),
    seen h = [(1, none), (0, some 7), (0, none), (1, some 7)] ∧
    ∃ S, IsLinearization (boundedQueue (Payload ℕ 1) smallest.SIZE) h S ∧
      ∀ P, P <+: S → P.filterMap Entry.dequeued <+: P.filterMap Entry.enqueued ∧
        (P.filterMap Entry.enqueued).length ≤
          (P.filterMap Entry.dequeued).length + smallest.SIZE := by
  have honly : ∀ s : State ℕ ℕ ℕ ℕ 1, ∀ a ∈ earlyDequeue, NoBatch s a := by
    intro s a ha count
    fin_cases ha <;> simp
  have hinit : (((system (unbounded smallest) smallest).restrict NoBatch).withLog [] history).init
      ((fresh (unbounded smallest) smallest (fun _ => ![0]) (fun _ => ![0]) : State ℕ ℕ ℕ ℕ 1),
        []) :=
    ⟨⟨_, _, rfl⟩, rfl⟩
  obtain ⟨⟨s, h⟩, hr, hp⟩ := System.exists_reachable_of_schedule hinit earlyDequeue_seen (by
    rintro ⟨s, h⟩ a ha ⟨s', h'⟩ hst
    obtain ⟨t, ht, heq⟩ := Option.map_eq_some_iff.1 hst
    cases heq
    exact ⟨⟨honly s a ha, ht⟩, rfl⟩)
  exact ⟨h, by simpa using hp, linearizable_to_fifo hr⟩

end Linearizability

end AstraLib.Ring
