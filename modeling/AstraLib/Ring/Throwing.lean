import Mathlib.Data.List.ReduceOption
import AstraLib.Ring.Batch
import AstraLib.Ring.Sequential

/-!
# `AtomicRingBuffer`: payloads that throw

An enqueue claims its ticket before it writes the payload, and stores the `seq` after that.  If
writing the payload throws, the ticket is gone and its slot is never published: the dequeue with the
same ticket waits for it forever, and so does the enqueue one round later.  Until one of the two
comes, nothing is to be seen of the failure.

`Sequence` lists the calls that have been made on a queue, one after the other, with
their outcomes.  `unread` is what a caller expects to be in the queue, and `backlog`
the tickets that are really there.
-/

namespace AstraLib.Ring

open Interleaving Relation

/-- What a call has done to the queue. -/
inductive Event (ω : Type) (W : ℕ)
  /-- an `enqueue` or `emplaceEnqueue` has returned -/
  | enqueued (v : Payload ω W)
  /-- an `enqueue` or `emplaceEnqueue` has thrown -/
  | failed
  /-- a `dequeue` has returned `v`, or a `batchDequeue` has put it in the array -/
  | dequeued (v : Payload ω W)

variable {ω : Type} {W : ℕ} {cfg : Config}

/-- Calls on a newly constructed queue, one after the other, each of which has
returned or thrown. -/
inductive Sequence (cfg : Config) : Mem ℕ ω W → List (Event ω W) → Prop
  | construct (data array : ℕ → Payload ω W) :
      Sequence cfg (fresh (unbounded cfg) cfg data array : State Unit ℕ ℕ ω W).mem []
  | enqueue {m m' : Mem ℕ ω W} {es : List (Event ω W)} {k : EnqKind} {v : Payload ω W}
    (h : Sequence cfg m es)
      (hpath : ReflTransGen (Alone cfg) (m, .enqClaim k v) (m', .enqReturn)) :
      Sequence cfg m' (es ++ [.enqueued v])
  | throw {m m' : Mem ℕ ω W} {es : List (Event ω W)} {k : EnqKind} {v : Payload ω W}
    (h : Sequence cfg m es)
      (hpath : ReflTransGen (Alone cfg) (m, .enqClaim k v) (m', .idle)) :
      Sequence cfg m' (es ++ [.failed])
  | dequeue {m m' : Mem ℕ ω W} {es : List (Event ω W)} {t : ℕ} {v : Payload ω W}
    (h : Sequence cfg m es)
      (hpath : ReflTransGen (Alone cfg) (m, .deqClaim .result) (m', .deqReturn t v)) :
      Sequence cfg m' (es ++ [.dequeued v])
  | batchDequeue {m m' : Mem ℕ ω W} {es : List (Event ω W)} (count : ℤ) (h : Sequence cfg m es)
      (hpath : ReflTransGen (Alone cfg) (m, .batchLoop 0 (clampCount cfg count))
        (m', .batchReturn)) :
      Sequence cfg m' (es ++ (List.range (clampCount cfg count).toNat).map fun i =>
        .dequeued (m'.batchDequeueArray i))
  | isEmpty {m m' : Mem ℕ ω W} {es : List (Event ω W)} {b : Bool} (h : Sequence cfg m es)
      (hpath : ReflTransGen (Alone cfg) (m, .isEmptyCall) (m', .isEmptyReturn b)) :
      Sequence cfg m' es

/-- The effect of a call on the values that are unread. -/
def Event.onUnread (u : List (Payload ω W)) : Event ω W → List (Payload ω W)
  | .enqueued v => u ++ [v]
  | .failed => u
  | .dequeued _ => u.tail

/-- The values that have been enqueued successfully and not dequeued yet. -/
def unread (es : List (Event ω W)) : List (Payload ω W) := es.foldl Event.onUnread []

/-- The effect of a call on the tickets in the queue. -/
def Event.onBacklog (o : List (Option (Payload ω W))) : Event ω W → List (Option (Payload ω W))
  | .enqueued v => o ++ [some v]
  | .failed => o ++ [none]
  | .dequeued _ => o.tail

/-- The tickets that have been taken by enqueues and not by dequeues, with their payloads. The
ticket of a failed enqueue has none. -/
def backlog (es : List (Event ω W)) : List (Option (Payload ω W)) := es.foldl Event.onBacklog []

/-- What a caller relies on: while fewer than `SIZE` values are unread an enqueue completes, and
while there is an unread value a dequeue completes and returns the oldest one. -/
structure Usable (cfg : Config) (m : Mem ℕ ω W) (u : List (Payload ω W)) : Prop where
  enqueue : u.length < cfg.SIZE →
    ∀ k v, Ensures (Alone cfg) (fun q => q.2.final = true) (m, .enqClaim k v)
  dequeue : ∀ v u', u = v :: u' →
    Ensures (Alone cfg) (fun q => ∃ t, q.2 = .deqReturn t v) (m, .deqClaim .result)

/-- If there are tickets of failed enqueues in the backlog, then it has fewer than `SIZE` tickets;
and if the oldest ticket is one, then so are all of them. -/
def Harmless (cfg : Config) (o : List (Option (Payload ω W))) : Prop :=
  (none ∈ o → o.length < cfg.SIZE) ∧ (o.head? = some none → ∀ x ∈ o, x = none)

/-! ### The tickets and the values -/

theorem unread_append (es es' : List (Event ω W)) :
    unread (es ++ es') = es'.foldl Event.onUnread (unread es) :=
  List.foldl_append

theorem backlog_append (es es' : List (Event ω W)) :
    backlog (es ++ es') = es'.foldl Event.onBacklog (backlog es) :=
  List.foldl_append

theorem foldl_dequeued_unread (u : List (Payload ω W)) (vs : List (Payload ω W)) :
    (vs.map Event.dequeued).foldl Event.onUnread u = u.drop vs.length := by
  induction vs generalizing u with
  | nil => rfl
  | cons v vs ih =>
    rw [List.map_cons, List.foldl_cons, ih, List.length_cons, Event.onUnread, List.drop_tail]

theorem foldl_dequeued_backlog (o : List (Option (Payload ω W))) (vs : List (Payload ω W)) :
    (vs.map Event.dequeued).foldl Event.onBacklog o = o.drop vs.length := by
  induction vs generalizing o with
  | nil => rfl
  | cons v vs ih =>
    rw [List.map_cons, List.foldl_cons, ih, List.length_cons, Event.onBacklog, List.drop_tail]

/-- A thread is in `isEmpty()`. -/
def Pc.asks : Pc ℕ ℕ ω W → Bool
  | .isEmptyCall | .isEmptyWrite _ | .isEmptyRead _ | .isEmptyReturn _ => true
  | _ => false

/-- `isEmpty()` changes nothing. -/
theorem isEmpty_mem {m : Mem ℕ ω W} {q : Mem ℕ ω W × Pc ℕ ℕ ω W}
    (hpath : ReflTransGen (Alone cfg) (m, .isEmptyCall) q) : q.1 = m ∧ q.2.asks = true := by
  induction hpath with
  | refl => exact ⟨rfl, rfl⟩
  | tail _ hstep ih =>
    obtain ⟨hm, hp⟩ := ih
    cases hstep with
    | inside a _ hret hx =>
      cases exec_iff.1 hx with
      | firstWrite => exact ⟨hm, rfl⟩
      | firstRead => exact ⟨hm, rfl⟩
      | thenRead => exact ⟨hm, rfl⟩
      | thenWrite => exact ⟨hm, rfl⟩
      | isEmptyRet => exact absurd rfl hret
      | _ => cases hp
    | throw => cases hp

/-- The queue holds the backlog, and what is unread are the payloads in it. -/
theorem Sequence.holds {m : Mem ℕ ω W} {es : List (Event ω W)} (h : Sequence cfg m es) :
    Holds cfg m (backlog es) ∧ unread es = (backlog es).reduceOption := by
  induction h with
  | construct data array => exact ⟨.init data array, rfl⟩
  | @enqueue m m' es k v _ hpath ih =>
    obtain ⟨hm, hu⟩ := ih
    have hroom := hm.of_enqueue hpath rfl
    have hout :=
      ensured (hm.enqueue hroom k v) (by rintro q (⟨h, -⟩ | ⟨h, -⟩) <;> rw [h] <;> rfl) hpath rfl
    rw [backlog_append, unread_append]
    refine ⟨(hout.resolve_right (by simp)).2, ?_⟩
    simp [Event.onUnread, Event.onBacklog, hu, List.reduceOption_append]
  | @throw m m' es k v _ hpath ih =>
    obtain ⟨hm, hu⟩ := ih
    have hroom := hm.of_enqueue hpath rfl
    have hout :=
      ensured (hm.enqueue hroom k v) (by rintro q (⟨h, -⟩ | ⟨h, -⟩) <;> rw [h] <;> rfl) hpath rfl
    rw [backlog_append, unread_append]
    refine ⟨(hout.resolve_left (by simp)).2, ?_⟩
    simp [Event.onUnread, Event.onBacklog, hu, List.reduceOption_append]
  | @dequeue m m' es t v _ hpath ih =>
    obtain ⟨hm, hu⟩ := ih
    obtain ⟨v', o', ho⟩ := hm.of_dequeue hpath rfl
    rw [ho] at hm hu
    have hout := ensured (hm.dequeue .result) (by rintro q ⟨h, -⟩; rw [h]; rfl) hpath rfl
    rw [backlog_append, unread_append, hu, ho]
    exact ⟨hout.2.1, by simp [Event.onUnread, Event.onBacklog]⟩
  | @batchDequeue m m' es count _ hpath ih =>
    obtain ⟨hm, hu⟩ := ih
    obtain ⟨vs, o', ho, hlen⟩ := hm.of_batchLoop hpath rfl
    rw [ho] at hm hu
    have hout := ensured (hm.batchLoop 0 _ hlen) (by rintro q ⟨h, -⟩; rw [h]; rfl) hpath rfl
    have hevents : ((List.range (clampCount cfg count).toNat).map fun i =>
        Event.dequeued (m'.batchDequeueArray i)) = (((List.range (clampCount cfg count).toNat).map
          m'.batchDequeueArray).map Event.dequeued) := by simp
    have hcount : (clampCount cfg count).toNat = vs.length := by simpa using hlen.symm
    rw [backlog_append, unread_append, hevents, foldl_dequeued_unread,
      foldl_dequeued_backlog, hu, ho]
    simp only [List.length_map, List.length_range, hcount]
    refine ⟨?_, ?_⟩
    · rw [List.drop_left' (by simp)]
      exact hout.2.1
    · rw [List.drop_left' (by simp), List.reduceOption_append, List.drop_left']
      simp [List.reduceOption]
  | @isEmpty m m' es b _ hpath ih =>
    obtain rfl : m' = m := (isEmpty_mem hpath).1
    exact ih

/-- **What a failed enqueue leaves behind.** After any calls, one after the other, some of which may
have thrown, the queue does what its callers rely on if and only if the tickets of the failed
enqueues in the backlog are harmless. -/
theorem usable_iff_harmless {m : Mem ℕ ω W} {es : List (Event ω W)} (h : Sequence cfg m es) :
    Usable cfg m (unread es) ↔ Harmless cfg (backlog es) := by
  obtain ⟨hm, hu⟩ := h.holds
  rw [hu]
  constructor
  · rintro ⟨henq, hdeq⟩
    constructor
    · intro hnone
      by_contra hge
      have hlt : (backlog es).reduceOption.length < cfg.SIZE :=
        (List.reduceOption_length_lt_iff.2 hnone).trans_le hm.length_le
      obtain ⟨q, hpath, hq⟩ := (henq hlt .move (m.buffer 0).data).exists_path
      exact hge (hm.of_enqueue hpath hq)
    · intro hhead x hx
      by_contra hne
      obtain ⟨v, rfl⟩ := Option.ne_none_iff_exists'.1 hne
      obtain ⟨v₀, u', hu'⟩ := List.exists_cons_of_ne_nil
        (List.ne_nil_of_mem (List.reduceOption_mem_iff.2 hx))
      obtain ⟨q, hpath, t, hq⟩ := (hdeq v₀ u' hu').exists_path
      obtain ⟨v₁, o', ho⟩ := hm.of_dequeue hpath (by rw [hq]; rfl)
      rw [ho] at hhead
      cases hhead
  · rintro ⟨hlen, hhead⟩
    constructor
    · intro hlt k v
      have hroom : (backlog es).length < cfg.SIZE := by
        by_cases hnone : none ∈ backlog es
        · exact hlen hnone
        · have := mt List.reduceOption_length_lt_iff.1 hnone
          omega
      refine (hm.enqueue hroom k v).mono ?_
      rintro q (⟨hq, -⟩ | ⟨hq, -⟩) <;> rw [hq] <;> rfl
    · intro v u' hcons
      cases ho : backlog es with
      | nil =>
        rw [ho] at hcons
        cases hcons
      | cons x o' =>
        cases x with
        | none =>
          -- a ticket of a failed enqueue comes first, and there is no value behind it
          have hmem : some v ∈ backlog es :=
            List.reduceOption_mem_iff.1 (hcons ▸ List.mem_cons_self)
          cases hhead (by rw [ho]; rfl) _ hmem
        | some v₀ =>
          rw [ho] at hcons hm
          obtain rfl : v₀ = v := by simpa using congrArg List.head? hcons
          exact (hm.dequeue .result).mono fun q hq => ⟨m.readTicket, hq.1⟩

/-- The steps of a schedule, taken by a thread that runs alone. -/
theorem path_of_foldlM {acts : List (Micro ω W)} {q q' : Mem ℕ ω W × Pc ℕ ℕ ω W}
    (h : acts.foldlM (fun q a => exec (unbounded cfg) cfg q.1 q.2 a) q = some q')
    (hacts : ∀ a ∈ acts, (∀ c, a ≠ .call c) ∧ a ≠ .ret) : ReflTransGen (Alone cfg) q q' := by
  induction acts generalizing q with
  | nil =>
    cases h
    exact .refl
  | cons a acts ih =>
    rw [List.foldlM_cons] at h
    obtain ⟨q₁, h₁, hrest⟩ := Option.bind_eq_some_iff.1 h
    obtain ⟨hcall, hret⟩ := hacts a List.mem_cons_self
    exact .head (.inside a hcall hret h₁) (ih hrest fun b hb => hacts b (List.mem_cons_of_mem a hb))

/-- An enqueue up to its payload access. -/
def claims : List (Micro ℕ 1) := [.claim, .spin]

/-- The payload access and the `seq` store. -/
def publishes : List (Micro ℕ 1) := [.copy 0 0, .publish]

/-- A newly constructed queue of two slots. -/
def constructed : Mem ℕ ℕ 1 :=
  (fresh (unbounded smallest) smallest (fun _ => ![0]) fun _ => ![0] : State Unit ℕ ℕ ℕ 1).mem

/-- An enqueue that is about to write its payload, and one that is made in its place
if it throws. -/
theorem claims_publishes : ((claims.foldlM (fun q a => exec (unbounded smallest) smallest q.1 q.2 a)
      (constructed, .enqClaim .copy ![7])).bind fun q =>
    ((claims ++ publishes).foldlM (fun q a => exec (unbounded smallest) smallest q.1 q.2 a)
      (q.1, .enqClaim .copy ![8])).map fun q' =>
        (q.2 matches .enqCopy _ _ _ _) && (q'.2 matches .enqReturn)) = some true := by
  decide +kernel

/-- The first enqueue throws, and the second one does not. -/
theorem exists_failed_enqueued : ∃ m m' : Mem ℕ ℕ 1, Sequence smallest m [.failed] ∧
    Sequence smallest m' [.failed, .enqueued ![8]] := by
  obtain ⟨⟨m, p⟩, hfirst, hsecond⟩ := Option.bind_eq_some_iff.1 claims_publishes
  obtain ⟨⟨m', p'⟩, hsecond, hp⟩ := Option.map_eq_some_iff.1 hsecond
  have hfirst := path_of_foldlM hfirst (by simp [claims])
  have hsecond := path_of_foldlM hsecond (by simp [claims, publishes])
  rw [Bool.and_eq_true] at hp
  obtain ⟨hp, hp'⟩ := hp
  cases p with
  | enqCopy k v t done =>
    have hm : Sequence smallest m [.failed] := .throw (.construct _ _) (hfirst.tail .throw)
    cases p' with
    | enqReturn => exact ⟨m, m', hm, .enqueue hm hsecond⟩
    | _ => cases hp'
  | _ => cases hp

/-- Nothing is amiss as long as nothing comes after the failed enqueue. -/
theorem usable_iff_harmless_failed : ∃ m : Mem ℕ ℕ 1, Sequence smallest m [.failed] ∧
    Usable smallest m (unread [.failed]) := by
  obtain ⟨m, -, hm, -⟩ := exists_failed_enqueued
  refine ⟨m, hm, (usable_iff_harmless hm).2 ⟨fun _ => by decide, fun _ => ?_⟩⟩
  simp [backlog, Event.onBacklog]

/-- After a failed enqueue, the next value is not to be had. -/
theorem not_usable_after_failure :
    ∃ (m : Mem ℕ ℕ 1) (es : List (Event ℕ 1)), Sequence smallest m es ∧
    unread es = [![8]] ∧ ¬ Usable smallest m (unread es) := by
  obtain ⟨-, m, -, hm⟩ := exists_failed_enqueued
  refine ⟨m, _, hm, rfl, fun husable => ?_⟩
  obtain ⟨q, hpath, t, hq⟩ := (husable.dequeue ![8] [] rfl).exists_path
  obtain ⟨v, o', ho⟩ := hm.holds.1.of_dequeue hpath (by rw [hq]; rfl)
  cases ho

end AstraLib.Ring
