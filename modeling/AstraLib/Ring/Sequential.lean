import AstraLib.Interleaving.Ensures
import AstraLib.Ring.Contents

/-!
# `AtomicRingBuffer`: one call at a time

What the member functions do when no other thread interferes.  The class does not ask
that the payload operations are `noexcept`, and an assignment or a constructor that
throws leaves `enqueue` or `emplaceEnqueue` between the spin test and the `seq` store,
with the ticket taken (`Alone.throw`).

With no call in progress the queue is a list (`Holds`): for each ticket from `readTicket` on,
the payload that was enqueued with it, or nothing if that enqueue threw.  The specifications of
the calls are in terms of this list.
-/

namespace AstraLib.Ring

open Interleaving Relation

variable {ω : Type} {W : ℕ} {cfg : Config}

/-! ### Calls that run alone -/

/-- A step of the member function in progress, of a thread that runs alone. -/
inductive Alone (cfg : Config) : Mem ℕ ω W × Pc ℕ ℕ ω W → Mem ℕ ω W × Pc ℕ ℕ ω W → Prop
  | inside {m m' : Mem ℕ ω W} {p p' : Pc ℕ ℕ ω W} (a : Micro ω W) (hcall : ∀ c, a ≠ .call c)
    (hret : a ≠ .ret)
      (h : exec (unbounded cfg) cfg m p a = some (m', p')) : Alone cfg (m, p) (m', p')
  /-- the assignment or the constructor of the payload throws, whatever it has written so far -/
  | throw {m : Mem ℕ ω W} {k : EnqKind} {v : Payload ω W} {t : ℕ} {done : Finset (Fin W)} :
      Alone cfg (m, .enqCopy k v t done) (m, .idle)

/-- The function has returned or thrown, but for the way back to the caller. -/
def Pc.final {κ τ : Type} : Pc κ τ ω W → Bool
  | .idle | .enqReturn | .deqReturn _ _ | .batchReturn | .isEmptyReturn _ => true
  | _ => false

theorem Alone.not_final {q q' : Mem ℕ ω W × Pc ℕ ℕ ω W} (h : Alone cfg q q') :
    q.2.final = false := by
  cases h with
  | inside a hcall hret hx =>
    cases exec_iff.1 hx with
    | call c => exact absurd rfl (hcall c)
    | enqRet => exact absurd rfl hret
    | deqRet => exact absurd rfl hret
    | batchRet => exact absurd rfl hret
    | isEmptyRet => exact absurd rfl hret
    | _ => rfl
  | throw => rfl

theorem Alone.of_exec {m m' : Mem ℕ ω W} {p p' : Pc ℕ ℕ ω W} {a : Micro ω W} (hp : p.final = false)
    (hx : Exec (unbounded cfg) cfg m p a m' p') : Alone cfg (m, p) (m', p') := by
  refine .inside a ?_ ?_ (exec_iff.2 hx)
  · rintro c rfl
    cases hx
    cases hp
  · rintro rfl
    cases hx <;> cases hp

/-- The steps of a function that is not in its payload access are those of `Exec`. -/
theorem ensures_of_exec {Q : Mem ℕ ω W × Pc ℕ ℕ ω W → Prop} {m m' : Mem ℕ ω W} {p p' : Pc ℕ ℕ ω W}
    {a : Micro ω W} (hp : p.final = false) (hcopy : ∀ k v t done, p ≠ .enqCopy k v t done)
    (hx : Exec (unbounded cfg) cfg m p a m' p')
    (h : ∀ b m' p', Exec (unbounded cfg) cfg m p b m' p' → Ensures (Alone cfg) Q (m', p')) :
    Ensures (Alone cfg) Q (m, p) := by
  refine .next (.of_exec hp hx) fun q hq => ?_
  cases hq with
  | inside b _ _ hx' => exact h b _ _ (exec_iff.1 hx')
  | throw => exact absurd rfl (hcopy _ _ _ _)

/-- What a call ensures is true once it has come to its end. -/
theorem ensured {Q : Mem ℕ ω W × Pc ℕ ℕ ω W → Prop} {q q' : Mem ℕ ω W × Pc ℕ ℕ ω W}
    (h : Ensures (Alone cfg) Q q) (hQ : ∀ q, Q q → q.2.final = true)
    (hpath : ReflTransGen (Alone cfg) q q') (hq : q'.2.final = true) : Q q' :=
  h.of_path (fun t u ht hu => by cases (hQ t ht).symm.trans hu.not_final) hpath
    fun u hu => by cases hq.symm.trans hu.not_final

/-! ### Payloads -/

theorem setData_setWord (m : Mem ℕ ω W) (i : ℕ) (x : Payload ω W) (j : Fin W) (y : ω) :
    (m.setData i x).setWord i j y = m.setData i (Function.update x j y) := by
  simp [Mem.setWord, Mem.setData]

/-- Writing the payload comes to an end: the ticket is published, or the enqueue has thrown. -/
theorem ensures_enqCopy (cfg : Config) (m : Mem ℕ ω W) (k : EnqKind) (v : Payload ω W) (t : ℕ)
    (done : Finset (Fin W)) (x : Payload ω W) (hx : ∀ j ∈ done, x j = v j) :
    Ensures (Alone cfg)
      (fun q => q = ((m.setData (t % cfg.SIZE) v).setSeq (t % cfg.SIZE) (t + 1), .enqReturn) ∨
        ∃ x, q = (m.setData (t % cfg.SIZE) x, .idle))
      (m.setData (t % cfg.SIZE) x, .enqCopy k v t done) := by
  -- the number of words that are still to be written
  induction hn : doneᶜ.card generalizing done x with
  | zero =>
    obtain rfl : done = Finset.univ := by simpa using hn
    obtain rfl : x = v := funext fun j => hx j (Finset.mem_univ j)
    refine .next .throw fun q hq => .done ?_
    cases hq with
    | inside a _ _ h =>
      cases exec_iff.1 h with
      | enqCopy _ _ _ _ j _ hj => exact absurd (Finset.mem_univ j) hj
      | enqPublish => exact Or.inl (by simp)
    | throw => exact Or.inr ⟨x, rfl⟩
  | succ n ih =>
    refine .next .throw fun q hq => ?_
    cases hq with
    | inside a _ _ h =>
      cases exec_iff.1 h with
      | enqCopy _ _ _ _ j _ hj =>
        rw [unbounded_index, setData_setWord]
        refine ih (insert j done) _ (fun i hi => ?_) ?_
        · by_cases hij : i = j
          · rw [hij, Function.update_self]
          · rw [Function.update_of_ne hij]
            exact hx i (Finset.mem_of_mem_insert_of_ne hi hij)
        · rw [Finset.compl_insert, Finset.card_erase_of_mem (Finset.mem_compl.2 hj), hn,
            Nat.add_sub_cancel]
      | enqPublish => simp at hn
    | throw => exact .done (Or.inr ⟨x, rfl⟩)

/-- The array after a `batchDequeue` has received the words `z`. -/
def Mem.receive (m : Mem ℕ ω W) (z : Payload ω W) : Dest → Mem ℕ ω W
  | .result => m
  | .batch i _ => { m with batchDequeueArray := Function.update m.batchDequeueArray i z }

@[simp] theorem receive_writeTicket (m : Mem ℕ ω W) (z : Payload ω W) (d : Dest) :
    (m.receive z d).writeTicket = m.writeTicket := by
  cases d <;> rfl

@[simp] theorem receive_readTicket (m : Mem ℕ ω W) (z : Payload ω W) (d : Dest) :
    (m.receive z d).readTicket = m.readTicket := by
  cases d <;> rfl

@[simp] theorem receive_buffer (m : Mem ℕ ω W) (z : Payload ω W) (d : Dest) :
    (m.receive z d).buffer = m.buffer := by
  cases d <;> rfl

theorem receive_deliver (m : Mem ℕ ω W) (i : ℕ) (x z : Payload ω W) (d : Dest) (j : Fin W)
    (left y : ω) : (((m.setData i x).receive z d).setWord i j left).deliver j y d =
      (m.setData i (Function.update x j left)).receive (Function.update z j y) d := by
  cases d <;> simp [Mem.receive, Mem.deliver, Mem.setWord, Mem.setData]

/-- Reading the payload comes to an end, and the slot is released. -/
theorem ensures_deqCopy (cfg : Config) (m : Mem ℕ ω W) (d : Dest) (t : ℕ) (v : Payload ω W)
    (buf : Fin W → Option ω) (x z : Payload ω W)
    (h : ∀ j, buf j = none ∧ x j = v j ∨ buf j = some (v j) ∧ z j = v j) :
    Ensures (Alone cfg)
      (fun q => ∃ x, q = (((m.setData (t % cfg.SIZE) x).receive v d).setSeq (t % cfg.SIZE)
        (t + cfg.SIZE), Pc.deqPast t v d))
      ((m.setData (t % cfg.SIZE) x).receive z d, .deqCopy d t buf) := by
  -- the number of words that are still to be read
  induction hn : (Finset.univ.filter fun j => (buf j).isNone).card generalizing buf x z with
  | zero =>
    have hall : ∀ j, buf j = some (v j) ∧ z j = v j := by
      intro j
      refine (h j).resolve_left fun hj => ?_
      exact Finset.notMem_empty j (Finset.card_eq_zero.1 hn ▸ by simp [hj.1])
    obtain rfl : z = v := funext fun j => (hall j).2
    have hpublish : Exec (unbounded cfg) cfg ((m.setData (t % cfg.SIZE) x).receive z d)
        (.deqCopy d t buf) .publish _ _ := .deqPublish d t buf z fun j => (hall j).1
    refine .next (.inside .publish (by simp) (by simp) (exec_iff.2 hpublish)) fun q hq => ?_
    cases hq with
    | inside a _ _ hx =>
      cases exec_iff.1 hx with
      | deqCopy _ _ _ j _ hj => simp [(hall j).1] at hj
      | deqPublish _ _ _ v' hv' =>
        obtain rfl : v' = z := funext fun j => Option.some.inj ((hv' j).symm.trans (hall j).1)
        exact .done ⟨x, by simp⟩
  | succ n ih =>
    obtain ⟨j₀, hj₀⟩ : ∃ j, buf j = none := by
      have hpos : 0 < (Finset.univ.filter fun j => (buf j).isNone).card := by omega
      obtain ⟨j, hj⟩ := Finset.card_pos.1 hpos
      exact ⟨j, by simpa using hj⟩
    have hmove : Exec (unbounded cfg) cfg ((m.setData (t % cfg.SIZE) x).receive z d)
        (.deqCopy d t buf) (.copy j₀ (x j₀)) _ _ := .deqCopy d t buf j₀ (x j₀) hj₀
    refine .next (.inside (.copy j₀ (x j₀)) (by simp) (by simp) (exec_iff.2 hmove)) fun q hq => ?_
    cases hq with
    | inside a _ _ hx =>
      cases exec_iff.1 hx with
      | deqCopy _ _ _ j left hj =>
        rw [unbounded_index, receive_deliver, receive_buffer, setData_data_self]
        refine ih _ _ _ (fun i => ?_) ?_
        · by_cases hij : i = j
          · subst hij
            have hword : x i = v i := ((h i).resolve_right fun hi => by simp [hj] at hi).2
            exact Or.inr ⟨by rw [Function.update_self, hword], by rw [Function.update_self, hword]⟩
          · simp only [Function.update_of_ne hij]
            exact h i
        · have herase : (Finset.univ.filter
              fun i => (Function.update buf j (some (x j)) i).isNone) =
              (Finset.univ.filter fun i => (buf i).isNone).erase j := by
            ext i
            by_cases hij : i = j
            · subst hij; simp
            · simp [hij]
          rw [herase, Finset.card_erase_of_mem (by simp [hj]), hn, Nat.add_sub_cancel]
      | deqPublish _ _ _ v' hv' => exact absurd (hv' j₀) (by simp [hj₀])

/-! ### The calls -/

/-- The slot of ticket `t`. -/
def Mem.slotOf (cfg : Config) (m : Mem ℕ ω W) (t : ℕ) : Slot ℕ ω W := m.buffer (t % cfg.SIZE)

theorem setData_self (m : Mem ℕ ω W) (i : ℕ) : m.setData i (m.buffer i).data = m := by
  simp [Mem.setData]

/-- An enqueue that finds its slot ready. -/
theorem ensures_enqueue (m : Mem ℕ ω W) (k : EnqKind) (v : Payload ω W)
    (hseq : (m.slotOf cfg m.writeTicket).seq = m.writeTicket) :
    Ensures (Alone cfg) (fun q =>
        q = (({ m with writeTicket := m.writeTicket + 1 }.setData
          (m.writeTicket % cfg.SIZE) v).setSeq
          (m.writeTicket % cfg.SIZE) (m.writeTicket + 1), .enqReturn) ∨
        ∃ x, q = ({ m with writeTicket := m.writeTicket + 1 }.setData (m.writeTicket % cfg.SIZE) x,
          .idle))
      (m, .enqClaim k v) := by
  refine ensures_of_exec rfl (by simp) (.enqClaim k v) fun a m₁ p₁ hx => ?_
  cases hx with
  | enqClaim =>
    rw [unbounded_fetchAdd, unbounded_ticket]
    generalize hm : { m with writeTicket := m.writeTicket + 1 } = m₁
    generalize m.writeTicket = t at hseq hm
    have hready : (unbounded cfg).ticket (m₁.buffer ((unbounded cfg).index t)).seq = t := by
      rw [← hm, unbounded_index]
      exact hseq
    refine ensures_of_exec rfl (by simp) (.enqPass k v t hready) fun a m₂ p₂ hx => ?_
    cases hx with
    | enqRetry _ _ _ hne => exact absurd hready hne
    | enqPass =>
      unfold Pc.enqPast
      split_ifs
      · -- `emplaceEnqueue` destroys the object in the slot first
        refine ensures_of_exec rfl (by simp) (.destroy v t v) fun a m₂ p₂ hx => ?_
        cases hx with
        | destroy _ _ junk =>
          rw [unbounded_index]
          exact ensures_enqCopy cfg m₁ .emplace v t ∅ junk (by simp)
      · have hcopy := ensures_enqCopy cfg m₁ k v t ∅ (m₁.buffer (t % cfg.SIZE)).data (by simp)
        rwa [setData_self] at hcopy

/-- An enqueue that does not find its slot ready spins forever. -/
theorem enqueue_spins {m : Mem ℕ ω W} {k : EnqKind} {v : Payload ω W} {q : Mem ℕ ω W × Pc ℕ ℕ ω W}
    (hseq : (m.slotOf cfg m.writeTicket).seq ≠ m.writeTicket)
    (hpath : ReflTransGen (Alone cfg) (m, .enqClaim k v) q) : q.2.final = false := by
  have hq : q = (m, .enqClaim k v) ∨
      q = ({ m with writeTicket := m.writeTicket + 1 }, .enqSpin k v m.writeTicket) := by
    induction hpath with
    | refl => exact Or.inl rfl
    | tail _ hstep ih =>
      rcases ih with rfl | rfl
      · cases hstep with
        | inside a _ _ hx =>
          cases exec_iff.1 hx with
          | enqClaim => exact Or.inr rfl
      · cases hstep with
        | inside a _ _ hx =>
          cases exec_iff.1 hx with
          | enqPass _ _ _ h => exact absurd (by rwa [unbounded_index] at h) hseq
          | enqRetry => exact Or.inr rfl
  rcases hq with rfl | rfl <;> rfl

theorem exists_receive_eq (m : Mem ℕ ω W) (v : Payload ω W) (d : Dest) :
    ∃ z, m.receive z d = m := by
  cases d with
  | result => exact ⟨v, rfl⟩
  | batch i count => exact ⟨m.batchDequeueArray i, by simp [Mem.receive]⟩

/-- A dequeue that finds its payload. -/
theorem ensures_dequeue (m : Mem ℕ ω W) (d : Dest) (v : Payload ω W)
    (hslot : m.slotOf cfg m.readTicket = ⟨m.readTicket + 1, v⟩) :
    Ensures (Alone cfg) (fun q => ∃ x,
        q = ((({ m with readTicket := m.readTicket + 1 }.setData
          (m.readTicket % cfg.SIZE) x).receive v d).setSeq
          (m.readTicket % cfg.SIZE) (m.readTicket + cfg.SIZE), Pc.deqPast m.readTicket v d))
      (m, .deqClaim d) := by
  refine ensures_of_exec rfl (by simp) (.deqClaim d) fun a m₁ p₁ hx => ?_
  cases hx with
  | deqClaim =>
    rw [unbounded_fetchAdd, unbounded_ticket]
    generalize hm : { m with readTicket := m.readTicket + 1 } = m₁
    generalize m.readTicket = t at hslot hm
    have hslot₁ : m₁.buffer (t % cfg.SIZE) = ⟨t + 1, v⟩ := by
      rw [← hm]
      exact hslot
    have hready : (unbounded cfg).ticket (m₁.buffer ((unbounded cfg).index t)).seq =
        (unbounded cfg).add t 1 := by
      rw [unbounded_index, hslot₁]
      rfl
    refine ensures_of_exec rfl (by simp) (.deqPass d t hready) fun a m₂ p₂ hx => ?_
    cases hx with
    | deqRetry _ _ hne => exact absurd hready hne
    | deqPass =>
      obtain ⟨z, hz⟩ := exists_receive_eq m₁ v d
      have hcopy := ensures_deqCopy cfg m₁ d t v (fun _ => none) v z fun j => Or.inl ⟨rfl, rfl⟩
      have hself : m₁.setData (t % cfg.SIZE) v = m₁ := by
        conv_rhs => rw [← setData_self m₁ (t % cfg.SIZE), hslot₁]
      rw [hself, hz] at hcopy
      exact hcopy

/-- A dequeue that does not find a payload spins forever. -/
theorem dequeue_spins {m : Mem ℕ ω W} {d : Dest} {q : Mem ℕ ω W × Pc ℕ ℕ ω W}
    (hseq : (m.slotOf cfg m.readTicket).seq ≠ m.readTicket + 1)
    (hpath : ReflTransGen (Alone cfg) (m, .deqClaim d) q) : q.2.final = false := by
  have hq : q = (m, .deqClaim d) ∨
      q = ({ m with readTicket := m.readTicket + 1 }, .deqSpin d m.readTicket) := by
    induction hpath with
    | refl => exact Or.inl rfl
    | tail _ hstep ih =>
      rcases ih with rfl | rfl
      · cases hstep with
        | inside a _ _ hx =>
          cases exec_iff.1 hx with
          | deqClaim => exact Or.inr rfl
      · cases hstep with
        | inside a _ _ hx =>
          cases exec_iff.1 hx with
          | deqPass _ _ h => exact absurd (by rwa [unbounded_index] at h) hseq
          | deqRetry => exact Or.inr rfl
  rcases hq with rfl | rfl <;> rfl

/-! ### The queue as a list -/

/-- The queue with no call in progress: for each ticket from `readTicket` on, the payload that was
enqueued with it, or nothing if the enqueue threw. -/
structure Holds (cfg : Config) (m : Mem ℕ ω W) (o : List (Option (Payload ω W))) : Prop where
  writeTicket_eq : m.writeTicket = m.readTicket + o.length
  length_le : o.length ≤ cfg.SIZE
  full : ∀ i v, o[i]?.join = some v → m.slotOf cfg (m.readTicket + i) = ⟨m.readTicket + i + 1, v⟩
  /-- the slots of the failed enqueues, and the free ones -/
  waiting : ∀ i < cfg.SIZE, o[i]?.join = none →
    (m.slotOf cfg (m.readTicket + i)).seq = m.readTicket + i

/-- Fewer than `SIZE` apart, different tickets have different slots. -/
theorem Config.mod_ne (cfg : Config) {r i j : ℕ} (hi : i < cfg.SIZE) (hj : j < cfg.SIZE)
    (hne : i ≠ j) : (r + i) % cfg.SIZE ≠ (r + j) % cfg.SIZE := by
  intro heq
  rcases Nat.lt_or_gt_of_ne hne with hlt | hgt
  · have := Config.add_size_le heq (by omega)
    omega
  · have := Config.add_size_le heq.symm (by omega)
    omega

namespace Holds

variable {m m' : Mem ℕ ω W} {o : List (Option (Payload ω W))}

theorem init (data array : ℕ → Payload ω W) :
    Holds cfg (fresh (unbounded cfg) cfg data array : State Unit ℕ ℕ ω W).mem [] := by
  refine ⟨rfl, Nat.zero_le _, by simp, fun i hi _ => ?_⟩
  simp [fresh, Mem.slotOf, prepareBuffer_apply, Nat.mod_eq_of_lt hi, hi]

/-- The next ticket to be written finds its slot ready if and only if there is room. -/
theorem writeTicket_iff (h : Holds cfg m o) :
    (m.slotOf cfg m.writeTicket).seq = m.writeTicket ↔ o.length < cfg.SIZE := by
  have hw := h.writeTicket_eq
  constructor
  · intro hseq
    by_contra hge
    -- a full ring: the slot is the one of the oldest ticket
    have hlen : o.length = cfg.SIZE := le_antisymm h.length_le (by omega)
    have hpos := cfg.two_le
    rw [hw, hlen, Mem.slotOf, Nat.add_mod_right] at hseq
    cases hx : o[0]?.join with
    | none =>
      have hold := h.waiting 0 (by omega) hx
      rw [Mem.slotOf, Nat.add_zero] at hold
      omega
    | some v =>
      have hold := congrArg Slot.seq (h.full 0 v hx)
      rw [Mem.slotOf, Nat.add_zero] at hold
      simp only at hold
      omega
  · intro hlt
    have hfree := h.waiting o.length hlt (by simp)
    rwa [← hw] at hfree

/-- The next ticket to be read finds its payload if and only if its enqueue has succeeded. -/
theorem readTicket_iff (h : Holds cfg m o) :
    (m.slotOf cfg m.readTicket).seq = m.readTicket + 1 ↔ ∃ v o', o = some v :: o' := by
  have hpos := cfg.size_pos
  constructor
  · intro hseq
    cases hx : o[0]?.join with
    | none =>
      have hold := h.waiting 0 hpos hx
      rw [Nat.add_zero] at hold
      omega
    | some v =>
      cases o with
      | nil => cases hx
      | cons x o' =>
        obtain rfl : x = some v := hx
        exact ⟨v, o', rfl⟩
  · rintro ⟨v, o', rfl⟩
    exact congrArg Slot.seq (h.full 0 v rfl)

/-- An enqueue that has come to its end has found room. -/
theorem of_enqueue (h : Holds cfg m o) {k : EnqKind} {v : Payload ω W} {q : Mem ℕ ω W × Pc ℕ ℕ ω W}
    (hpath : ReflTransGen (Alone cfg) (m, .enqClaim k v) q) (hq : q.2.final = true) :
    o.length < cfg.SIZE := by
  by_contra hge
  have hne := fun hseq => hge (h.writeTicket_iff.1 hseq)
  cases hq.symm.trans (enqueue_spins hne hpath)

/-- A dequeue that has come to its end has found a payload. -/
theorem of_dequeue (h : Holds cfg m o) {d : Dest} {q : Mem ℕ ω W × Pc ℕ ℕ ω W}
    (hpath : ReflTransGen (Alone cfg) (m, .deqClaim d) q) (hq : q.2.final = true) :
    ∃ v o', o = some v :: o' := by
  by_contra hnone
  have hne := fun hseq => hnone (h.readTicket_iff.1 hseq)
  cases hq.symm.trans (dequeue_spins hne hpath)

/-- A ticket is taken by an enqueue, which has put the payload `x` in the slot or has thrown. -/
theorem push (h : Holds cfg m o) (hlt : o.length < cfg.SIZE) (x : Option (Payload ω W))
    (hw : m'.writeTicket = m.writeTicket + 1) (hr : m'.readTicket = m.readTicket)
    (hslot : ∀ i, i ≠ m.writeTicket % cfg.SIZE → m'.buffer i = m.buffer i)
    (hfull : ∀ v, x = some v → m'.slotOf cfg m.writeTicket = ⟨m.writeTicket + 1, v⟩)
    (hwait : x = none → (m'.slotOf cfg m.writeTicket).seq = m.writeTicket) :
    Holds cfg m' (o ++ [x]) := by
  have hwr := h.writeTicket_eq
  have hother : ∀ i < cfg.SIZE, i ≠ o.length →
      m'.slotOf cfg (m.readTicket + i) = m.slotOf cfg (m.readTicket + i) := by
    intro i hi hne
    exact hslot _ (hwr ▸ cfg.mod_ne hi hlt hne)
  have hget : ∀ i, i ≠ o.length → (o ++ [x])[i]?.join = o[i]?.join := by
    intro i hne
    rcases Nat.lt_or_gt_of_ne hne with hi | hi
    · rw [List.getElem?_append_left hi]
    · rw [List.getElem?_eq_none (by simp; omega), List.getElem?_eq_none (by omega)]
  have hlast : (o ++ [x])[o.length]?.join = x := by simp
  refine ⟨?_, ?_, fun i v hv => ?_, fun i hi hnone => ?_⟩
  · rw [hw, hr, hwr, List.length_append, List.length_singleton, Nat.add_assoc]
  · rw [List.length_append, List.length_singleton]
    exact hlt
  · rw [hr]
    by_cases hne : i = o.length
    · subst hne
      rw [← hwr]
      exact hfull v (hlast ▸ hv)
    · have hi : i < o.length := by
        by_contra hge
        rw [hget i hne, List.getElem?_eq_none (by omega)] at hv
        cases hv
      rw [hother i (by omega) hne]
      exact h.full i v (hget i hne ▸ hv)
  · rw [hr]
    by_cases hne : i = o.length
    · subst hne
      rw [← hwr]
      exact hwait (hlast ▸ hnone)
    · rw [hother i hi hne]
      exact h.waiting i hi (hget i hne ▸ hnone)

/-- The oldest payload is taken by a dequeue. -/
theorem pop {v : Payload ω W} (h : Holds cfg m (some v :: o)) (hw : m'.writeTicket = m.writeTicket)
    (hr : m'.readTicket = m.readTicket + 1)
    (hslot : ∀ i, i ≠ m.readTicket % cfg.SIZE → m'.buffer i = m.buffer i)
    (hseq : (m'.slotOf cfg m.readTicket).seq = m.readTicket + cfg.SIZE) : Holds cfg m' o := by
  have hwr := h.writeTicket_eq
  have hle := h.length_le
  rw [List.length_cons] at hwr hle
  have hother : ∀ i, i + 1 < cfg.SIZE →
      m'.slotOf cfg (m.readTicket + (i + 1)) = m.slotOf cfg (m.readTicket + (i + 1)) := by
    intro i hi
    exact hslot _ (cfg.mod_ne (j := 0) hi cfg.size_pos (Nat.succ_ne_zero i))
  have hticket : ∀ i, m'.readTicket + i = m.readTicket + (i + 1) := fun i => by omega
  refine ⟨by omega, by omega, fun i v hv => ?_, fun i hi hnone => ?_⟩
  · have hi : i < o.length := by
      by_contra hge
      rw [List.getElem?_eq_none (by omega)] at hv
      cases hv
    rw [hticket, hother i (by omega)]
    exact h.full (i + 1) v (by simpa using hv)
  · rw [hticket]
    rcases Nat.lt_or_ge (i + 1) cfg.SIZE with hlt | hge
    · rw [hother i hlt]
      exact h.waiting (i + 1) hlt (by simpa using hnone)
    · -- the slot that has just been released
      have hlast : i + 1 = cfg.SIZE := by omega
      rw [hlast, Mem.slotOf, Nat.add_mod_right]
      exact hseq

/-- **An enqueue while there is room** completes: it puts the payload at the end of the list, or it
throws and leaves its ticket behind. -/
theorem enqueue (h : Holds cfg m o) (hlt : o.length < cfg.SIZE) (k : EnqKind) (v : Payload ω W) :
    Ensures (Alone cfg) (fun q => q.2 = .enqReturn ∧ Holds cfg q.1 (o ++ [some v]) ∨
      q.2 = .idle ∧ Holds cfg q.1 (o ++ [none])) (m, .enqClaim k v) := by
  have hseq := h.writeTicket_iff.2 hlt
  refine (ensures_enqueue m k v hseq).mono fun q hq => ?_
  rcases hq with rfl | ⟨x, rfl⟩
  · refine Or.inl ⟨rfl, h.push hlt (some v) rfl rfl (fun i hi => ?_) ?_ (by simp)⟩
    · simp [Mem.setSeq, Mem.setData, Function.update_of_ne hi]
    · rintro _ ⟨⟩
      simp [Mem.slotOf, Mem.setSeq, Mem.setData]
  · refine Or.inr ⟨rfl, h.push hlt none rfl rfl (fun i hi => ?_) (by simp) fun _ => ?_⟩
    · simp [Mem.setData, Function.update_of_ne hi]
    · rw [Mem.slotOf, setData_seq]
      exact hseq

/-- **A dequeue of a payload** completes: it takes the oldest one. -/
theorem dequeue {v : Payload ω W} (h : Holds cfg m (some v :: o)) (d : Dest) :
    Ensures (Alone cfg) (fun q => q.2 = Pc.deqPast m.readTicket v d ∧ Holds cfg q.1 o ∧
      q.1.readTicket = m.readTicket + 1 ∧ q.1.batchDequeueArray = (m.receive v d).batchDequeueArray)
      (m, .deqClaim d) := by
  refine (ensures_dequeue m d v (h.full 0 v rfl)).mono fun q hq => ?_
  obtain ⟨x, rfl⟩ := hq
  refine ⟨rfl, h.pop (by simp) (by simp) (fun i hi => ?_) (by simp [Mem.slotOf]), by simp, ?_⟩
  · simp [Mem.setSeq, Mem.setData, Function.update_of_ne hi]
  · cases d <;> rfl

/-- **The loop of `batchDequeue`**, from iteration `i` on, takes the oldest payloads
and puts them in the array. -/
theorem batchLoop {vs : List (Payload ω W)} (h : Holds cfg m (vs.map some ++ o)) (i : ℕ) (count : ℤ)
    (hlen : vs.length = (count - i).toNat) :
    Ensures (Alone cfg) (fun q => q.2 = .batchReturn ∧ Holds cfg q.1 o ∧
      q.1.readTicket = m.readTicket + vs.length ∧
      (∀ j < i, q.1.batchDequeueArray j = m.batchDequeueArray j) ∧
      ∀ j, q.1.batchDequeueArray (i + j) = vs[j]?.getD (m.batchDequeueArray (i + j)))
        (m, .batchLoop i count) := by
  induction vs generalizing m i with
  | nil =>
    have hend : ¬ (i : ℤ) < count := by
      simp only [List.length_nil] at hlen
      omega
    refine ensures_of_exec rfl (by simp) (.loopEnd i count hend) fun a m' p' hx => ?_
    cases hx with
    | loopNext _ _ hlt => exact absurd hlt hend
    | loopEnd => exact .done ⟨rfl, h, rfl, fun _ _ => rfl, fun _ => rfl⟩
  | cons v vs ih =>
    rw [List.length_cons] at hlen
    have hlt : (i : ℤ) < count := by omega
    refine ensures_of_exec rfl (by simp) (.loopNext i count hlt) fun a m' p' hx => ?_
    cases hx with
    | loopEnd _ _ hend => exact absurd hlt hend
    | loopNext =>
      refine (h.dequeue (.batch i count)).bind ?_
      rintro ⟨m₁, p₁⟩ ⟨rfl, hm₁, hr₁, harr₁⟩
      have hstart : ∀ j, m₁.batchDequeueArray j = if j = i then v else m.batchDequeueArray j := by
        intro j
        rw [← Function.update_apply]
        exact congrFun harr₁ j
      refine (ih hm₁ (i + 1) (by omega)).mono ?_
      rintro ⟨m₂, p₂⟩ ⟨hp₂, hm₂, hr₂, hbefore, hafter⟩
      refine ⟨hp₂, hm₂, ?_, fun j hj => ?_, fun j => ?_⟩
      · simp only [List.length_cons] at hr₁ hr₂ ⊢
        omega
      · rw [hbefore j (by omega), hstart, if_neg (by omega)]
      · cases j with
        | zero => rw [Nat.add_zero, hbefore i (by omega), hstart, if_pos rfl]; rfl
        | succ j =>
          have hj := hafter j
          rw [hstart, if_neg (by omega)] at hj
          rw [List.getElem?_cons_succ, ← Nat.add_assoc, Nat.add_right_comm]
          exact hj

/-- A `batchDequeue` that has returned has found as many payloads as it was to take. -/
theorem of_batchLoop {i : ℕ} {count : ℤ} (h : Holds cfg m o) {q : Mem ℕ ω W × Pc ℕ ℕ ω W}
    (hpath : ReflTransGen (Alone cfg) (m, .batchLoop i count) q) (hq : q.2.final = true) :
    ∃ (vs : List (Payload ω W)) (o' : List (Option (Payload ω W))),
      o = vs.map some ++ o' ∧ vs.length = (count - i).toNat := by
  induction hn : (count - i).toNat generalizing m o i with
  | zero => exact ⟨[], o, rfl, rfl⟩
  | succ n ih =>
    have hlt : (i : ℤ) < count := by omega
    have hstop : ∀ u, ¬ Alone cfg q u := fun u hu => by cases hq.symm.trans hu.not_final
    rcases hpath.cases_head with rfl | ⟨u, hu, hrest⟩
    · cases hq
    cases hu with
    | inside a _ _ hx =>
      cases exec_iff.1 hx with
      | loopEnd _ _ hend => exact absurd hlt hend
      | loopNext =>
        obtain ⟨v, o₁, rfl⟩ := h.of_dequeue hrest hq
        obtain ⟨⟨m₁, p₁⟩, ⟨rfl, hm₁, -⟩, hrest₁⟩ := (h.dequeue (.batch i count)).through hrest hstop
        obtain ⟨vs, o', rfl, hlen⟩ := ih hm₁ hrest₁ (by omega)
        exact ⟨v :: vs, o', rfl, by rw [List.length_cons, hlen]⟩

/-- The list and the position of the first ticket determine the counters and every
sequence number. -/
theorem unique (h : Holds cfg m o) (h' : Holds cfg m' o) (hr : m'.readTicket = m.readTicket) :
    m'.writeTicket = m.writeTicket ∧ ∀ i < cfg.SIZE, (m'.buffer i).seq = (m.buffer i).seq := by
  refine ⟨by rw [h.writeTicket_eq, h'.writeTicket_eq, hr], fun i hi => ?_⟩
  -- slot `i` is the one of some ticket of the round that begins with `readTicket`
  obtain ⟨j, hj, rfl⟩ : ∃ j < cfg.SIZE, (m.readTicket + j) % cfg.SIZE = i := by
    refine ⟨(i + (cfg.SIZE - m.readTicket % cfg.SIZE)) % cfg.SIZE, Nat.mod_lt _ cfg.size_pos, ?_⟩
    have hlt := Nat.mod_lt m.readTicket cfg.size_pos
    have hdiv := Nat.div_add_mod m.readTicket cfg.SIZE
    have hsum : m.readTicket + (i + (cfg.SIZE - m.readTicket % cfg.SIZE)) =
        i + cfg.SIZE * (m.readTicket / cfg.SIZE + 1) := by
      rw [Nat.mul_add, Nat.mul_one]
      omega
    rw [Nat.add_mod_mod, hsum, Nat.add_mul_mod_self_left, Nat.mod_eq_of_lt hi]
  cases hx : o[j]?.join with
  | none =>
    have h1 := h.waiting j hj hx
    have h2 := h'.waiting j hj hx
    rw [hr] at h2
    exact h2.trans h1.symm
  | some v =>
    have h1 := h.full j v hx
    have h2 := h'.full j v hx
    rw [hr] at h2
    exact congrArg Slot.seq (h2.trans h1.symm)

end Holds

/-! ### Between two calls -/

namespace Tickets

variable {Tid : Type} {s : State Tid ℕ ℕ ω W} {l : Log Tid ω W}

/-- Every write ticket that has been claimed is published. -/
theorem lt_seqOf_of_idle (h : Tickets cfg s l) (hidle : ∀ θ, s.pc θ = .idle) {t : ℕ}
    (ht : t < s.mem.writeTicket) : t < s.seqOf cfg t := by
  by_contra hle
  have hlt : t < l.writers.length := h.writeTicket_eq ▸ ht
  have hw := (h.writing_iff _ t _).2 ⟨List.getElem?_eq_getElem hlt, by omega⟩
  rw [hidle] at hw
  cases hw

/-- Every read ticket that has been claimed is consumed. -/
theorem succ_lt_seqOf_of_idle (h : Tickets cfg s l) (hidle : ∀ θ, s.pc θ = .idle) {t : ℕ}
    (ht : t < s.mem.readTicket) : t + 1 < s.seqOf cfg t := by
  by_contra hle
  have hlt : t < l.readers.length := h.readTicket_eq ▸ ht
  have hr := (h.reading_iff _ t).2 ⟨List.getElem?_eq_getElem hlt, by omega⟩
  rw [hidle] at hr
  cases hr

theorem readTicket_le_of_idle (h : Tickets cfg s l) (hidle : ∀ θ, s.pc θ = .idle) :
    s.mem.readTicket ≤ s.mem.writeTicket := by
  by_contra hlt
  have hpast := h.succ_lt_seqOf_of_idle hidle (t := s.mem.writeTicket) (by omega)
  exact absurd (h.published_lt _ (by omega)) (lt_irrefl _)

/-- The slots from the read ticket to the write ticket are full. -/
theorem seqOf_eq_succ_of_idle (h : Tickets cfg s l) (hidle : ∀ θ, s.pc θ = .idle) {t : ℕ}
    (hr : s.mem.readTicket ≤ t) (hw : t < s.mem.writeTicket) : s.seqOf cfg t = t + 1 := by
  by_contra hne
  have hlt := h.lt_seqOf_of_idle hidle hw
  have hconsumed := h.consumed_lt t (by omega)
  omega

theorem writeTicket_le_of_idle (h : Tickets cfg s l) (hidle : ∀ θ, s.pc θ = .idle) :
    s.mem.writeTicket ≤ s.mem.readTicket + cfg.SIZE := by
  by_contra hlt
  have hpos := cfg.size_pos
  have h1 := h.seqOf_eq_succ_of_idle hidle (t := s.mem.readTicket) le_rfl (by omega)
  have h2 := h.seqOf_eq_succ_of_idle hidle (t := s.mem.readTicket + cfg.SIZE) (by omega) (by omega)
  rw [State.seqOf, Nat.add_mod_right] at h2
  rw [State.seqOf] at h1
  omega

/-- The slots from the write ticket on are free. -/
theorem seqOf_eq_of_idle (h : Tickets cfg s l) (hidle : ∀ θ, s.pc θ = .idle) {t : ℕ}
    (hw : s.mem.writeTicket ≤ t) (hlt : t < s.mem.readTicket + cfg.SIZE) : s.seqOf cfg t = t := by
  have hseq : s.seqOf cfg t ≤ t := by
    by_contra hgt
    have hclaimed := h.published_lt t (by omega)
    omega
  -- the ticket one round before has been consumed
  have hprev : cfg.SIZE ≤ t → t + 1 < s.seqOf cfg t + cfg.SIZE := by
    intro hbig
    have hpast := h.succ_lt_seqOf_of_idle hidle (t := t - cfg.SIZE) (by omega)
    have hslot : s.seqOf cfg (t - cfg.SIZE) = s.seqOf cfg t := by
      rw [State.seqOf, State.seqOf, ← Nat.add_mod_right (t - cfg.SIZE), Nat.sub_add_cancel hbig]
    omega
  obtain ⟨u, hu, heq⟩ := h.turn t
  have hut : ¬ u < t := by
    intro hlt'
    have hround := Config.add_size_le hu hlt'
    omega
  omega

/-- The queue holds what has been enqueued and not yet dequeued, whenever no call is in progress. -/
theorem holds (h : Tickets cfg s l) (hc : Contents cfg s l) (hidle : ∀ θ, s.pc θ = .idle) :
    Holds cfg s.mem ((l.writers.drop s.mem.readTicket).map fun e => some e.2) := by
  have hwl := h.writeTicket_eq
  have hle := h.readTicket_le_of_idle hidle
  have hroom := h.writeTicket_le_of_idle hidle
  have hlen : ((l.writers.drop s.mem.readTicket).map fun e => some e.2).length =
      s.mem.writeTicket - s.mem.readTicket := by simp [hwl]
  refine ⟨by omega, by omega, fun i v hv => ?_, fun i hi hnone => ?_⟩
  · obtain ⟨e, he, hv⟩ : ∃ e, l.writers[s.mem.readTicket + i]? = some e ∧ e.2 = v := by
      simpa [Option.join_eq_some_iff] using hv
    have hlt : s.mem.readTicket + i < s.mem.writeTicket := hwl ▸ (List.getElem?_eq_some_iff.1 he).1
    have hseq := h.seqOf_eq_succ_of_idle hidle (Nat.le_add_right _ _) hlt
    have hdata : s.dataOf cfg (s.mem.readTicket + i) = v := by
      funext j
      subst hv
      exact hc.full _ e.1 e.2 he hseq j fun θ d buf hp => by simp [hidle] at hp
    exact congrArg₂ Slot.mk hseq hdata
  · refine h.seqOf_eq_of_idle hidle ?_ (by omega)
    by_contra hlt
    rw [List.getElem?_eq_getElem (by omega)] at hnone
    simp at hnone

end Tickets

end AstraLib.Ring
