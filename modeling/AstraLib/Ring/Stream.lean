import AstraLib.Ring.Transit

/-!
# `AtomicRingBuffer`: one consumer drains the stream in order

One consumer calls `dequeue` and `batchDequeue` in any mix, while any number of producers enqueue.
It claims one read ticket after the other, so its next result is the payload of the ticket whose
number is the number of results so far (`Pc.Flow`).  `batchDequeueArray` is written by the consumer
alone, below the clamped count, and only while it is inside `batchDequeue`.
-/

namespace AstraLib.Ring

open Interleaving

/-- What the consumer has received: the payloads in the order of its calls, those of a
`batchDequeue` read off the returned array; the number of entries that its last `batchDequeue` is to
fill; and the array as it was when that call began or, if it is over, when it returned. -/
structure Stream (ω : Type) (W : ℕ) where
  values : List (Payload ω W)
  size : ℕ
  array : Option (ℕ → Payload ω W)

section Consumer

variable {Tid ω : Type} {W : ℕ}

/-- Nothing has been received yet. -/
def Stream.empty : Stream ω W := ⟨[], 0, none⟩

/-- The log after a step of the consumer. -/
def Stream.note (cfg : Config) (p : Pc ℕ ℕ ω W) (a : Micro ω W) (array : ℕ → Payload ω W)
    (r : Stream ω W) : Stream ω W :=
  match p, a with
  | .idle, .call (.batchDequeue n) =>
      { r with size := (min n cfg.BATCH_SIZE).toNat, array := some array }
  | .deqReturn _ v, .ret => { r with values := r.values ++ [v] }
  | .batchReturn, .ret =>
      { r with values := r.values ++ (List.range r.size).map array, array := some array }
  | _, _ => r

/-- Thread `c` is the only consumer. The argument of `batchDequeue` is an `int` and not negative. -/
def SoleConsumer (c : Tid) (_ : State Tid ℕ ℕ ω W) (a : Tid × Micro ω W) : Prop :=
  ∀ call, a.2 = .call call → (call.op = .dequeue ∨ call.op = .batchDequeue → a.1 = c) ∧
    ∀ n, call = .batchDequeue n → 0 ≤ n ∧ n < 2 ^ 31

theorem clampCount_eq {cfg : Config} (hcfg : cfg.BATCH_SIZE < 2 ^ 31) {n : ℤ} (h0 : 0 ≤ n)
    (hn : n < 2 ^ 31) : clampCount cfg n = ((min n cfg.BATCH_SIZE).toNat : ℤ) := by
  have hsize : toSize n = n := Int.emod_eq_of_lt h0 (by omega)
  unfold clampCount
  rw [hsize, toInt_of_lt hcfg]
  split_ifs <;> omega

/-! ### Tickets of the consumer -/

/-- Where the consumer is in the stream. `r` is `readTicket`, `n` the number of payloads received,
`size` the clamped count and `batch` the tickets of the running `batchDequeue`. -/
def Pc.Flow (r n size : ℕ) (batch : List ℕ) : Pc ℕ ℕ ω W → Prop
  | .deqSpin .result t | .deqCopy .result t _ | .deqReturn t _ => t = n ∧ r = n + 1
  | .batchLoop i count => count = size ∧ i ≤ size ∧ r = n + i ∧ batch = List.range' n i
  | .deqClaim (.batch i count) => count = size ∧ i < size ∧ r = n + i ∧ batch = List.range' n i
  | .deqSpin (.batch i count) t | .deqCopy (.batch i count) t _ =>
      count = size ∧ i < size ∧ t = n + i ∧ r = n + i + 1 ∧ batch = List.range' n i
  | .batchReturn => r = n + size ∧ batch = List.range' n size
  | _ => r = n

/-- The consumer, which is at `p`, and what it has received. -/
structure Streaming (m : Mem ℕ ω W) (p : Pc ℕ ℕ ω W) (l : Log Tid ω W) (r : Stream ω W) : Prop where
  flow : p.Flow m.readTicket r.values.length r.size l.batch
  values : ∀ (k : ℕ) v, r.values[k]? = some v → ∃ θ, l.writers[k]? = some (θ, v)
  inside : p.inBatch = true → ∀ A, r.array = some A → ∀ k, r.size ≤ k → m.batchDequeueArray k = A k
  outside : p.inBatch = false → ∀ A, r.array = some A → m.batchDequeueArray = A

namespace Streaming

variable {cfg : Config} {m m' : Mem ℕ ω W} {p p' : Pc ℕ ℕ ω W} {l l' : Log Tid ω W} {r : Stream ω W}

/-- Steps that are not about the results. -/
theorem frame (h : Streaming m p l r) (harr : m'.batchDequeueArray = m.batchDequeueArray)
    (hext : ∀ (t : ℕ) e, l.writers[t]? = some e → l'.writers[t]? = some e)
    (hin : p'.inBatch = p.inBatch)
    (hflow : p'.Flow m'.readTicket r.values.length r.size l'.batch) : Streaming m' p' l' r := by
  refine ⟨hflow, fun k v hk => ?_, ?_, ?_⟩
  · obtain ⟨θ, hθ⟩ := h.values k v hk
    exact ⟨θ, hext k _ hθ⟩
  · rw [hin, harr]; exact h.inside
  · rw [hin, harr]; exact h.outside

theorem isPrefix (h : Streaming m p l r) : r.values <+: l.writers.map Prod.snd := by
  refine List.prefix_iff_getElem?.2 fun k hk => ?_
  obtain ⟨θ, hθ⟩ := h.values k _ (List.getElem?_eq_getElem hk)
  rw [List.getElem?_map, hθ]
  rfl

/-- The next payloads are those of the next tickets. -/
theorem values_append (h : ∀ (k : ℕ) v, r.values[k]? = some v → ∃ θ, l.writers[k]? = some (θ, v))
    {xs : List (Payload ω W)}
    (hxs : ∀ (k : ℕ) v, xs[k]? = some v → ∃ θ, l.writers[r.values.length + k]? = some (θ, v))
    (k : ℕ) (v : Payload ω W) (hk : (r.values ++ xs)[k]? = some v) :
    ∃ θ, l.writers[k]? = some (θ, v) := by
  rw [List.getElem?_append] at hk
  split_ifs at hk with hlt
  · exact h k v hk
  · obtain ⟨θ, hθ⟩ := hxs _ v hk
    rw [Nat.add_sub_cancel' (by omega)] at hθ
    exact ⟨θ, hθ⟩

variable {c : Tid} {s : State Tid ℕ ℕ ω W} {a : Micro ω W}

/-- A call of the consumer. -/
theorem call (h : Streaming s.mem .idle l r) (hcfg : cfg.BATCH_SIZE < 2 ^ 31) {call : Call ω W}
    (hsole : SoleConsumer c s (c, .call call)) :
    Streaming s.mem (call.entry cfg) (l.note c .idle (.call call))
      (r.note cfg .idle (.call call) s.mem.batchDequeueArray) := by
  have hread : s.mem.readTicket = r.values.length := h.flow
  cases call with
  | batchDequeue n =>
    obtain ⟨h0, hn⟩ := (hsole _ rfl).2 n rfl
    refine ⟨⟨clampCount_eq hcfg h0 hn, Nat.zero_le _, hread, rfl⟩, h.values, ?_, ?_⟩
    · rintro - A hA k -
      cases hA
      rfl
    · rintro ⟨⟩
  | _ => exact h.frame rfl (fun _ _ => id) rfl hread

/-- A step of the consumer. -/
theorem own (h : Streaming s.mem (s.pc c) l r) (hcfg : cfg.BATCH_SIZE < 2 ^ 31)
    (hc : Contents cfg s l) (hb : Batch s l) (hsole : SoleConsumer c s (c, a))
    (hx : Exec (unbounded cfg) cfg s.mem (s.pc c) a m' p') :
    Streaming m' p' (l.note c (s.pc c) a) (r.note cfg (s.pc c) a s.mem.batchDequeueArray) := by
  have hflow := h.flow
  generalize hp : s.pc c = p at hx h hflow
  cases hx with
  | call call => exact h.call hcfg hsole
  | enqClaim k v =>
    exact h.frame rfl (fun t e he => getElem?_concat_eq_some.2 (Or.inl he)) rfl hflow
  | enqPass k v t _ =>
    unfold Pc.enqPast
    split_ifs <;> exact h.frame rfl (fun _ _ => id) rfl hflow
  | loopNext i count hi =>
    obtain ⟨rfl, -, hr, hbatch⟩ := hflow
    exact h.frame rfl (fun _ _ => id) rfl ⟨rfl, by omega, hr, hbatch⟩
  | loopEnd i count hi =>
    obtain ⟨rfl, hle, hr, hbatch⟩ := hflow
    obtain rfl : i = r.size := by omega
    exact h.frame rfl (fun _ _ => id) rfl ⟨hr, hbatch⟩
  | deqClaim d =>
    cases d with
    | result =>
      have hr : s.mem.readTicket = r.values.length := hflow
      exact h.frame rfl (fun _ _ => id) rfl ⟨hr, congrArg Nat.succ hr⟩
    | batch i count =>
      obtain ⟨hcount, hi, hr, hbatch⟩ := hflow
      exact h.frame rfl (fun _ _ => id) rfl ⟨hcount, hi, hr, congrArg Nat.succ hr, hbatch⟩
  | deqPass d t _ => cases d <;> exact h.frame rfl (fun _ _ => id) rfl hflow
  | deqRetry d t _ => exact h
  | deqCopy d t buf j left _ =>
    cases d with
    | result => exact h.frame rfl (fun _ _ => id) rfl hflow
    | batch i count =>
      -- the entry that is written is one of those to be filled
      refine ⟨hflow, h.values, fun _ A hA k hk => ?_, ?_⟩
      · have hne : k ≠ i := (hflow.2.1.trans_le hk).ne'
        simp only [Mem.deliver, Function.update_of_ne hne]
        exact h.inside rfl A hA k hk
      · rintro ⟨⟩
  | deqPublish d t buf v _ =>
    cases d with
    | result => exact h.frame rfl (fun _ _ => id) rfl hflow
    | batch i count =>
      obtain ⟨hcount, hi, rfl, hr, hbatch⟩ := hflow
      refine h.frame rfl (fun _ _ => id) rfl ⟨hcount, hi, hr, ?_⟩
      show l.batch ++ [r.values.length + i] = _
      rw [hbatch, List.range'_1_concat]
  | deqRet t v =>
    obtain ⟨rfl, hr⟩ := hflow
    refine ⟨?_, values_append h.values fun k v' hk => ?_, h.inside, h.outside⟩
    · simpa [Pc.Flow, Stream.note] using hr
    · obtain ⟨rfl, rfl⟩ : k = 0 ∧ v' = v := by
        cases k <;> simp_all
      exact hc.returned c _ _ hp
  | batchRet =>
    obtain ⟨hr, hbatch⟩ := hflow
    refine ⟨?_, values_append h.values fun k v hk => ?_, ?_, ?_⟩
    · simpa [Pc.Flow, Stream.note] using hr
    · simp only [List.getElem?_map, Option.map_eq_some_iff] at hk
      obtain ⟨k', hk', rfl⟩ := hk
      obtain ⟨hlt, rfl⟩ : k < r.size ∧ k' = k := by
        rw [List.getElem?_eq_some_iff] at hk'
        obtain ⟨hlen, heq⟩ := hk'
        simp only [List.length_range, List.getElem_range] at hlen heq
        exact ⟨hlen, heq.symm⟩
      exact hb.array k' _ (by rw [hbatch, List.getElem?_range' hlt, one_mul])
    · rintro ⟨⟩
    · rintro - A hA
      cases hA
      rfl
  | _ => exact h.frame rfl (fun _ _ => id) rfl hflow

end Streaming

/-! ### The other threads -/

section Others

variable {cfg : Config} {θ : Tid} {m m' : Mem ℕ ω W} {p p' : Pc ℕ ℕ ω W} {a : Micro ω W}

/-- A thread that does not consume leaves the array and `readTicket` alone. -/
theorem Exec.array_of_not_consuming (h : Exec (unbounded cfg) cfg m p a m' p')
    (hp : ¬ p.Consuming) :
    m'.batchDequeueArray = m.batchDequeueArray ∧ m'.readTicket = m.readTicket := by
  cases h with
  | deqClaim d => exact absurd (Pc.consuming_deqClaim d) hp
  | deqCopy d t buf j left _ =>
    cases d with
    | result => exact absurd (Or.inl rfl) hp
    | batch i count => exact absurd (Or.inr rfl) hp
  | _ => exact ⟨rfl, rfl⟩

theorem Log.note_writers (l : Log Tid ω W) (θ : Tid) (p : Pc ℕ ℕ ω W) (a : Micro ω W) (t : ℕ)
    (e : Tid × Payload ω W) (he : l.writers[t]? = some e) :
    (l.note θ p a).writers[t]? = some e := by
  unfold Log.note
  split
  · exact getElem?_concat_eq_some.2 (Or.inl he)
  all_goals exact he

/-- Only a claim adds to the log of the write tickets. -/
theorem Exec.note_writers (h : Exec (unbounded cfg) cfg m p a m' p') (l : Log Tid ω W) (θ : Tid) :
    (l.note θ p a).writers = l.writers ++ (p.claiming.map (θ, ·)).toList := by
  cases h with
  | call c => cases c <;> simp [Log.note, Pc.claiming]
  | deqPublish d => cases d <;> simp [Log.note, Pc.claiming]
  | _ => simp [Log.note, Pc.claiming]

theorem Stream.note_values (r : Stream ω W) (ha : a ≠ .ret) (array : ℕ → Payload ω W) :
    (r.note cfg p a array).values = r.values := by
  unfold Stream.note
  split
  · rfl
  · exact absurd rfl ha
  · exact absurd rfl ha
  · rfl

theorem Log.note_batch (l : Log Tid ω W) (θ : Tid) (hp : ¬ p.Consuming)
    (ha : ∀ n, a ≠ .call (.batchDequeue n)) : (l.note θ p a).batch = l.batch := by
  unfold Log.note
  split
  · rfl
  · rfl
  · exact absurd rfl (ha _)
  · exact absurd (Or.inr rfl) hp
  · rfl

end Others

variable [DecidableEq Tid]

/-- Nobody but the consumer is in `dequeue` or `batchDequeue`. -/
theorem not_consuming {cfg : Config} {c : Tid} {s : State Tid ℕ ℕ ω W}
    (h : ((system (unbounded cfg) cfg).restrict (SoleConsumer c)).Reachable s) :
    ∀ θ, θ ≠ c → ¬ (s.pc θ).Consuming := by
  have hI : ((system (unbounded cfg) cfg).restrict (SoleConsumer c)).IsInvariant
      fun s : State Tid ℕ ℕ ω W => ∀ θ, θ ≠ c → ¬ (s.pc θ).Consuming := by
    constructor
    · rintro s ⟨data, array, rfl⟩
      simp [fresh, Pc.Consuming, Pc.op]
    · rintro s ⟨θ, a⟩ s' - ih ⟨hsole, hstep⟩ θ' hne hcons
      obtain ⟨m, p, hx, rfl⟩ := step_eq_some.1 hstep
      by_cases hself : θ' = θ
      · subst hself
        rw [put_pc_self] at hcons
        rcases hx.consuming hcons with hold | ⟨call, rfl, hop⟩
        · exact ih θ' hne hold
        · exact hne ((hsole call rfl).1 hop)
      · rw [put_pc_of_ne hself] at hcons
        exact ih θ' hne hcons
  exact hI.reachable h

/-- The only consumer is in one `batchDequeue` at a time. -/
theorem oneBatch_of_sole {cfg : Config} {c : Tid} {s s' : State Tid ℕ ℕ ω W} {a : Tid × Micro ω W}
    (h : ((system (unbounded cfg) cfg).restrict (SoleConsumer c)).Reachable s)
    (ha : SoleConsumer c s a)
    (hstep : (system (unbounded cfg) cfg).step s a s') : OneBatch s a := by
  obtain ⟨θ, a⟩ := a
  intro count hcall θ'
  obtain rfl : a = .call (.batchDequeue count) := hcall
  obtain rfl : θ = c := (ha _ rfl).1 (Or.inr rfl)
  obtain ⟨m, p, hx, -⟩ := step_eq_some.1 hstep
  by_cases hθ : θ' = θ
  · rw [hθ, hx.call_inv.1]
    rfl
  · exact Pc.inBatch_of_op fun hop => not_consuming h θ' hθ (Or.inr hop)

/-- The consumer writes the log. -/
def streamNote (cfg : Config) (c : Tid) (q : State Tid ℕ ℕ ω W × Log Tid ω W) (a : Tid × Micro ω W)
    (r : Stream ω W) : Stream ω W :=
  if a.1 = c then r.note cfg (q.1.pc c) a.2 q.1.mem.batchDequeueArray else r

/-- The queue with the only consumer `c`, the log of the tickets and the log of the results. -/
def streamSystem (cfg : Config) (c : Tid) :
    System ((State Tid ℕ ℕ ω W × Log Tid ω W) × Stream ω W) (Tid × Micro ω W) :=
  (((system (unbounded cfg) cfg).restrict (SoleConsumer c)).withLog Log.empty logNote).withLog
    Stream.empty (streamNote cfg c)

theorem streaming {cfg : Config} (hcfg : cfg.BATCH_SIZE < 2 ^ 31) {c : Tid} {s : State Tid ℕ ℕ ω W}
    {l : Log Tid ω W} {r : Stream ω W} (h : (streamSystem cfg c).Reachable ((s, l), r)) :
    Streaming s.mem (s.pc c) l r := by
  have hI : (streamSystem cfg c).IsInvariant
      fun q : (State Tid ℕ ℕ ω W × Log Tid ω W) × Stream ω W =>
        Streaming q.1.1.mem (q.1.1.pc c) q.1.2 q.2 := by
    constructor
    · rintro ⟨⟨s, l⟩, r⟩ ⟨⟨⟨data, array, rfl⟩, rfl⟩, rfl⟩
      exact ⟨rfl, by simp [Stream.empty], by simp [Stream.empty], by simp [Stream.empty]⟩
    · rintro ⟨⟨s, l⟩, r⟩ ⟨θ, a⟩ ⟨⟨s', l'⟩, r'⟩ hreach ih ⟨⟨⟨hsole, hstep⟩, rfl⟩, rfl⟩
      obtain ⟨m, p, hx, rfl⟩ := step_eq_some.1 hstep
      have hlog := System.Reachable.of_log hreach
      have hplain := System.Reachable.of_log hlog
      by_cases hθ : θ = c
      · subst hθ
        obtain ⟨-, hc⟩ := invariants hlog.log_of_restrict
        have hb := batch_invariant (hlog.log_restrict_mono fun s a s' => oneBatch_of_sole)
        simp only [streamNote, logNote, if_pos, put_pc_self, put_mem]
        exact Streaming.own ih hcfg hc hb hsole hx
      · have hnot := not_consuming hplain θ hθ
        obtain ⟨harr, hr⟩ := hx.array_of_not_consuming hnot
        have hbatch : (l.note θ (s.pc θ) a).batch = l.batch :=
          Log.note_batch l θ hnot fun n hn => hθ ((hsole _ hn).1 (Or.inr rfl))
        simp only [streamNote, logNote, if_neg hθ, put_pc_of_ne (Ne.symm hθ), put_mem]
        refine Streaming.frame ih harr (Log.note_writers l θ _ a) rfl ?_
        rw [hr, hbatch]
        exact ih.flow
  exact hI.reachable h

/-- **`batchDequeue` drains the stream in order.** In every reachable state the results of the
only consumer, those of its `dequeue`s and the first `min(n, BATCH_SIZE)` entries of each
returned array, are a prefix of the payloads in the order of their write tickets. The entries
from `min(n, BATCH_SIZE)` on are as they were when the call began, and the whole array stays as
it was returned until the next call. -/
theorem batchDequeue_drains_in_order {cfg : Config} (hcfg : cfg.BATCH_SIZE < 2 ^ 31) {c : Tid}
    {s : State Tid ℕ ℕ ω W} {l : Log Tid ω W} {r : Stream ω W}
    (h : (streamSystem cfg c).Reachable ((s, l), r)) :
    r.values <+: l.writers.map Prod.snd ∧
    ((s.pc c).inBatch = true → ∀ A, r.array = some A → ∀ k, r.size ≤ k →
      s.mem.batchDequeueArray k = A k) ∧
    ((s.pc c).inBatch = false → ∀ A, r.array = some A → s.mem.batchDequeueArray = A) := by
  have hs := streaming hcfg h
  exact ⟨hs.isPrefix, hs.inside, hs.outside⟩

/-- Thread `θ` enqueues `v`. -/
def enqueueSteps (θ v : ℕ) : List (ℕ × Micro ℕ 1) :=
  [(θ, .call (.enqueue .move ![v])), (θ, .claim), (θ, .spin), (θ, .copy 0 0),
    (θ, .publish), (θ, .ret)]

/-- The consumer `0` takes the next item of its batch. -/
def batchItemSteps : List (ℕ × Micro ℕ 1) :=
  [(0, .loop), (0, .claim), (0, .spin), (0, .copy 0 0), (0, .publish)]

/-- A batch of three items from a ring of two slots. -/
def wideBatchSchedule : List (ℕ × Micro ℕ 1) :=
  enqueueSteps 1 7 ++ enqueueSteps 2 8 ++ [(0, .call (.batchDequeue 3))] ++ batchItemSteps ++
  batchItemSteps ++
    enqueueSteps 1 9 ++ batchItemSteps ++ [(0, .loop), (0, .ret)]

theorem enqueueSteps_sole (s : State ℕ ℕ ℕ ℕ 1) (θ v : ℕ) :
    ∀ a ∈ enqueueSteps θ v, SoleConsumer 0 s a := by
  simp only [enqueueSteps, List.forall_mem_cons]
  refine ⟨?_, ?_, ?_, ?_, ?_, ?_, List.forall_mem_nil _⟩
  · rintro call ⟨⟩
    simp [Call.op]
  all_goals rintro call ⟨⟩

theorem batchItemSteps_sole (s : State ℕ ℕ ℕ ℕ 1) : ∀ a ∈ batchItemSteps, SoleConsumer 0 s a := by
  simp only [batchItemSteps, List.forall_mem_cons]
  refine ⟨?_, ?_, ?_, ?_, ?_, List.forall_mem_nil _⟩ <;> rintro call ⟨⟩

theorem wideBatchSchedule_sole (s : State ℕ ℕ ℕ ℕ 1) :
    ∀ a ∈ wideBatchSchedule, SoleConsumer 0 s a := by
  have henqueue := enqueueSteps_sole s
  have hitem := batchItemSteps_sole s
  have hcall : SoleConsumer 0 s (0, .call (.batchDequeue 3)) := by
    rintro call ⟨⟩
    exact ⟨fun _ => rfl, by rintro n ⟨⟩; decide⟩
  simp only [wideBatchSchedule, List.forall_mem_append, List.forall_mem_cons]
  refine ⟨⟨⟨⟨⟨⟨⟨henqueue 1 7, henqueue 2 8⟩, hcall, List.forall_mem_nil _⟩, hitem⟩, hitem⟩,
    henqueue 1 9⟩, hitem⟩,
    ?_, ?_, List.forall_mem_nil _⟩
  all_goals rintro call ⟨⟩

/-- The steps of the queue together with both logs. -/
def streamStep (q : (State ℕ ℕ ℕ ℕ 1 × Log ℕ ℕ 1) × Stream ℕ 1) (a : ℕ × Micro ℕ 1) :
    Option ((State ℕ ℕ ℕ ℕ 1 × Log ℕ ℕ 1) × Stream ℕ 1) :=
  (step (unbounded smallest) smallest q.1.1 a).map fun s =>
    ((s, logNote q.1.1 a q.1.2), streamNote smallest 0 q.1 a q.2)

theorem wideBatchSchedule_values : (wideBatchSchedule.foldlM streamStep
    ((fresh (unbounded smallest) smallest (fun _ => ![0]) (fun _ => ![0]), Log.empty),
      Stream.empty)).map
      (fun q => decide (q.2.values = [![7], ![8], ![9]])) = some true := by
  decide +kernel

theorem batchDequeue_drains_wide_batch : ∃ (l : Log ℕ ℕ 1) (r : Stream ℕ 1),
    r.values = [![7], ![8], ![9]] ∧ r.values <+: l.writers.map Prod.snd := by
  have hinit : (streamSystem smallest 0).init
      (((fresh (unbounded smallest) smallest (fun _ => ![0]) (fun _ => ![0]), Log.empty),
        Stream.empty) : (State ℕ ℕ ℕ ℕ 1 × Log ℕ ℕ 1) × Stream ℕ 1) := ⟨⟨⟨_, _, rfl⟩, rfl⟩, rfl⟩
  obtain ⟨⟨⟨s, l⟩, r⟩, hs, hp⟩ :=
    System.exists_reachable_of_schedule hinit wideBatchSchedule_values (by
      intro q a ha q' hst
      obtain ⟨s', hs', rfl⟩ := Option.map_eq_some_iff.1 hst
      exact ⟨⟨⟨wideBatchSchedule_sole _ a ha, hs'⟩, rfl⟩, rfl⟩)
  exact ⟨l, r, of_decide_eq_true hp, (batchDequeue_drains_in_order (by decide) hs).1⟩

end Consumer

end AstraLib.Ring
