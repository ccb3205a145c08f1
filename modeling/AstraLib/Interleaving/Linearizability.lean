import Mathlib.Tactic

/-!
# Linearizability

Histories of calls and returns, sequential specifications, and linearizations of the first to the
second.  An operation is named by its thread and by its number among the calls of that thread.

A linearization is built along a run (`Commits`).  An operation is appended to it, *committed*, at
some moment when it has been called and has not been committed before; it may return once it has
been committed.  No matter which thread's step does the committing, the order of the commits
respects real time (`Commits.commit`), so what remains to be shown of a concurrent object is that
the commits are legal for its specification.

The specification that is used here is the blocking bounded queue.
-/

namespace Interleaving

/-- What a client sees of a run. -/
inductive Event (Tid Op Ret : Type*)
  | call (θ : Tid) (op : Op)
  | ret (θ : Tid) (r : Ret)

/-- An operation of a sequential history. -/
structure Entry (Tid Op Ret : Type*) where
  id : Tid × ℕ
  op : Op
  ret : Ret

section Histories

variable {Tid Op Ret : Type*} [DecidableEq Tid]

/-- The number of calls that thread `θ` has made. -/
def calls (h : List (Event Tid Op Ret)) (θ : Tid) : ℕ :=
  h.countP fun
    | .call θ' _ => θ' = θ
    | .ret _ _ => false

/-- The event number `i` is the call of the operation `x`. -/
structure CalledAt (h : List (Event Tid Op Ret)) (i : ℕ) (x : Tid × ℕ) (op : Op) : Prop where
  event : h[i]? = some (.call x.1 op)
  nth : calls (h.take i) x.1 = x.2

/-- The event number `i` is the return of the operation `x`. -/
structure ReturnedAt (h : List (Event Tid Op Ret)) (i : ℕ) (x : Tid × ℕ) (r : Ret) : Prop where
  event : h[i]? = some (.ret x.1 r)
  nth : calls (h.take i) x.1 = x.2 + 1

/-- Real-time order: `x` returned before `y` was called. -/
def Precedes (h : List (Event Tid Op Ret)) (x y : Tid × ℕ) : Prop :=
  ∃ i j r op, i < j ∧ ReturnedAt h i x r ∧ CalledAt h j y op

/-- The operation that thread `θ` called last. -/
def current (h : List (Event Tid Op Ret)) (θ : Tid) : Tid × ℕ := (θ, calls h θ - 1)

/-- `S` is an order of operations of `h`: every operation that returned is there, with the result
that it returned, pending ones may be there, and real time is respected. -/
structure Commits (h : List (Event Tid Op Ret)) (S : List (Entry Tid Op Ret)) : Prop where
  nodup : (S.map Entry.id).Nodup
  called : ∀ e ∈ S, ∃ i, CalledAt h i e.id e.op
  returned : ∀ x r i, ReturnedAt h i x r → ∃ op, ⟨x, op, r⟩ ∈ S
  order : S.Pairwise fun a b => ¬ Precedes h b.id a.id

@[simp] theorem calls_nil (θ : Tid) : calls ([] : List (Event Tid Op Ret)) θ = 0 := rfl

@[simp] theorem calls_call_self (h : List (Event Tid Op Ret)) (θ : Tid) (op : Op) :
    calls (h ++ [.call θ op]) θ = calls h θ + 1 := by
  simp [calls, List.countP_append]

theorem calls_call_of_ne (h : List (Event Tid Op Ret)) {θ θ' : Tid} (op : Op) (hne : θ' ≠ θ) :
    calls (h ++ [.call θ op]) θ' = calls h θ' := by
  simp [calls, List.countP_append, Ne.symm hne]

@[simp] theorem calls_ret (h : List (Event Tid Op Ret)) (θ θ' : Tid) (r : Ret) :
    calls (h ++ [.ret θ r]) θ' = calls h θ' := by
  simp [calls, List.countP_append]

theorem current_call_self (h : List (Event Tid Op Ret)) (θ : Tid) (op : Op) :
    current (h ++ [.call θ op]) θ = (θ, calls h θ) := by
  simp [current]

theorem current_call_of_ne (h : List (Event Tid Op Ret)) {θ θ' : Tid} (op : Op) (hne : θ' ≠ θ) :
    current (h ++ [.call θ op]) θ' = current h θ' := by
  simp [current, calls_call_of_ne h op hne]

@[simp] theorem current_ret (h : List (Event Tid Op Ret)) (θ θ' : Tid) (r : Ret) :
    current (h ++ [.ret θ r]) θ' = current h θ' := by
  simp [current]

theorem current_ne (h : List (Event Tid Op Ret)) {θ θ' : Tid} (hne : θ' ≠ θ) :
    current h θ' ≠ current h θ := fun heq => hne (congrArg Prod.fst heq)

/-- Appending an event does not change what the earlier ones are. -/
theorem event_append {h : List (Event Tid Op Ret)} {e e' : Event Tid Op Ret} {i n : ℕ} {θ : Tid} :
    (h ++ [e])[i]? = some e' ∧ calls ((h ++ [e]).take i) θ = n ↔
      (h[i]? = some e' ∧ calls (h.take i) θ = n) ∨ i = h.length ∧ e = e' ∧ calls h θ = n := by
  rcases lt_trichotomy i h.length with hlt | rfl | hgt
  · rw [List.getElem?_append_left hlt, List.take_append_of_le_length hlt.le]
    simp [hlt.ne]
  · rw [List.getElem?_concat_length, List.take_left, List.getElem?_eq_none le_rfl]
    simp
  · rw [List.getElem?_eq_none (by simp; omega), List.getElem?_eq_none (by omega)]
    simp [hgt.ne']

theorem calledAt_append {h : List (Event Tid Op Ret)} {e : Event Tid Op Ret} {i : ℕ} {x : Tid × ℕ}
    {op : Op} : CalledAt (h ++ [e]) i x op ↔
      CalledAt h i x op ∨ i = h.length ∧ e = .call x.1 op ∧ calls h x.1 = x.2 := by
  constructor
  · rintro ⟨h1, h2⟩
    exact (event_append.1 ⟨h1, h2⟩).imp (fun h => ⟨h.1, h.2⟩) id
  · intro h'
    obtain ⟨h1, h2⟩ := event_append.2 (h'.imp (fun h => ⟨h.event, h.nth⟩) id)
    exact ⟨h1, h2⟩

theorem returnedAt_append {h : List (Event Tid Op Ret)} {e : Event Tid Op Ret} {i : ℕ} {x : Tid × ℕ}
    {r : Ret} : ReturnedAt (h ++ [e]) i x r ↔
      ReturnedAt h i x r ∨ i = h.length ∧ e = .ret x.1 r ∧ calls h x.1 = x.2 + 1 := by
  constructor
  · rintro ⟨h1, h2⟩
    exact (event_append.1 ⟨h1, h2⟩).imp (fun h => ⟨h.1, h.2⟩) id
  · intro h'
    obtain ⟨h1, h2⟩ := event_append.2 (h'.imp (fun h => ⟨h.event, h.nth⟩) id)
    exact ⟨h1, h2⟩

/-- The number of an operation that was called is below the number of calls. -/
theorem CalledAt.lt_calls {h : List (Event Tid Op Ret)} {i : ℕ} {x : Tid × ℕ} {op : Op}
    (hx : CalledAt h i x op) : x.2 < calls h x.1 := by
  obtain ⟨h1, h2⟩ := hx
  obtain ⟨hi, heq⟩ := List.getElem?_eq_some_iff.1 h1
  have hsplit : h = h.take i ++ (.call x.1 op :: h.drop (i + 1)) := by
    rw [← heq, List.cons_getElem_drop_succ, List.take_append_drop]
  rw [hsplit]
  simp only [calls, List.countP_append] at h2 ⊢
  rw [List.countP_cons_of_pos (by simp)]
  omega

/-! ### Commits along a run -/

namespace Commits

variable {h : List (Event Tid Op Ret)} {S : List (Entry Tid Op Ret)}

theorem nil : Commits ([] : List (Event Tid Op Ret)) [] := by
  constructor
  · exact List.nodup_nil
  · simp
  · rintro x r i ⟨h1, -⟩
    simp at h1
  · exact List.Pairwise.nil

/-- The operation that a thread calls next has not been committed. -/
theorem next_not_mem (hS : Commits h S) (θ : Tid) : (θ, calls h θ) ∉ S.map Entry.id := by
  intro hmem
  obtain ⟨e, he, hid⟩ := List.mem_map.1 hmem
  obtain ⟨i, hi⟩ := hS.called e he
  have hlt := hi.lt_calls
  rw [hid] at hlt
  exact lt_irrefl _ hlt

theorem call (hS : Commits h S) (θ : Tid) (op : Op) : Commits (h ++ [.call θ op]) S := by
  constructor
  · exact hS.nodup
  · intro e he
    obtain ⟨i, hi⟩ := hS.called e he
    exact ⟨i, calledAt_append.2 (Or.inl hi)⟩
  · intro x r i hi
    rcases returnedAt_append.1 hi with hi | ⟨-, hev, -⟩
    · exact hS.returned x r i hi
    · cases hev
  · refine hS.order.imp_of_mem fun {a b} ha hb hnot => ?_
    rintro ⟨i, j, r, op', hij, hr, hc⟩
    rcases returnedAt_append.1 hr with hr | ⟨-, hev, -⟩
    · rcases calledAt_append.1 hc with hc | ⟨-, hev, hn⟩
      · exact hnot ⟨i, j, r, op', hij, hr, hc⟩
      · -- the new call is of an operation that is not in `S`
        obtain ⟨i', hi'⟩ := hS.called a ha
        have := hi'.lt_calls
        omega
    · cases hev

theorem ret (hS : Commits h S) {θ : Tid} {r : Ret} (hpos : 0 < calls h θ)
    (hmem : ∃ op, ⟨current h θ, op, r⟩ ∈ S) : Commits (h ++ [.ret θ r]) S := by
  constructor
  · exact hS.nodup
  · intro e he
    obtain ⟨i, hi⟩ := hS.called e he
    exact ⟨i, calledAt_append.2 (Or.inl hi)⟩
  · intro x r' i hi
    rcases returnedAt_append.1 hi with hi | ⟨-, hev, hn⟩
    · exact hS.returned x r' i hi
    · cases hev
      obtain ⟨op, hop⟩ := hmem
      have hx : current h x.1 = x := Prod.ext rfl (by simp only [current]; omega)
      exact ⟨op, by rwa [hx] at hop⟩
  · refine hS.order.imp_of_mem fun {a b} ha hb hnot => ?_
    rintro ⟨i, j, r', op', hij, hr, hc⟩
    rcases calledAt_append.1 hc with hc | ⟨-, hev, -⟩
    · rcases returnedAt_append.1 hr with hr | ⟨rfl, -, -⟩
      · exact hnot ⟨i, j, r', op', hij, hr, hc⟩
      · have := (List.getElem?_eq_some_iff.1 hc.event).1
        omega
    · cases hev

/-- Committing an operation that has been called and not yet been committed respects real time:
it has not returned, so it precedes nothing. -/
theorem commit (hS : Commits h S) {x : Tid × ℕ} {op : Op} {i : ℕ} (hc : CalledAt h i x op)
    (hnew : x ∉ S.map Entry.id) (r : Ret) : Commits h (S ++ [⟨x, op, r⟩]) := by
  constructor
  · rw [List.map_append, List.nodup_append]
    refine ⟨hS.nodup, by simp, ?_⟩
    intro a ha b hb heq
    simp only [List.map_cons, List.map_nil, List.mem_singleton] at hb
    subst hb heq
    exact hnew ha
  · intro e he
    rcases List.mem_append.1 he with he | he
    · exact hS.called e he
    · rw [List.mem_singleton] at he
      subst he
      exact ⟨i, hc⟩
  · intro x' r' j hj
    obtain ⟨op', hop'⟩ := hS.returned x' r' j hj
    exact ⟨op', List.mem_append_left _ hop'⟩
  · refine List.pairwise_append.2 ⟨hS.order, List.pairwise_singleton _ _, ?_⟩
    intro a _ b hb
    rw [List.mem_singleton] at hb
    subst hb
    rintro ⟨j, _, r', _, _, hr, _⟩
    obtain ⟨op', hop'⟩ := hS.returned x r' j hr
    exact hnew (List.mem_map.2 ⟨_, hop', rfl⟩)

end Commits

end Histories

/-! ### Sequential specifications -/

/-- A sequential object: `next q op r q'` if `op` may return `r` in state `q` and leaves `q'`. -/
structure SeqSpec (Op Ret σ : Type*) where
  init : σ
  next : σ → Op → Ret → σ → Prop

section Specifications

variable {Tid Op Ret σ : Type*}

/-- The sequential history `S` is one of the object, and ends in the given state. -/
inductive SeqSpec.Legal (spec : SeqSpec Op Ret σ) : List (Entry Tid Op Ret) → σ → Prop
  | nil : Legal spec [] spec.init
  | snoc {S : List (Entry Tid Op Ret)} {q q' : σ} {e : Entry Tid Op Ret} (hS : Legal spec S q)
      (h : spec.next q e.op e.ret q') : Legal spec (S ++ [e]) q'

theorem SeqSpec.Legal.of_prefix {spec : SeqSpec Op Ret σ} {S : List (Entry Tid Op Ret)} {q : σ}
    (h : spec.Legal S q) {P : List (Entry Tid Op Ret)} (hP : P <+: S) : ∃ q', spec.Legal P q' := by
  induction h with
  | nil =>
    rw [List.prefix_nil.1 hP]
    exact ⟨_, .nil⟩
  | @snoc S q q' e hS hn ih =>
    rcases List.prefix_concat_iff.1 hP with rfl | hP
    · exact ⟨q', .snoc hS hn⟩
    · exact ih hP

/-- `S` linearizes `h` to the specification. -/
structure IsLinearization [DecidableEq Tid] (spec : SeqSpec Op Ret σ) (h : List (Event Tid Op Ret))
    (S : List (Entry Tid Op Ret)) : Prop where
  commits : Commits h S
  legal : ∃ q, spec.Legal S q

end Specifications

/-! ### Linearizing along a run -/

/-- How far a thread is with its operation: it has none, it has called one that is not committed
yet, or its operation is committed with a result. -/
inductive Status (Op Ret : Type*)
  | idle
  | called (op : Op)
  | committed (r : Ret)

/-- `S` is a linearization of `h` that ends in `q`, and the threads are as far as `status` says. -/
structure Linearizing {Tid Op Ret σ : Type*} [DecidableEq Tid] (spec : SeqSpec Op Ret σ)
    (h : List (Event Tid Op Ret)) (S : List (Entry Tid Op Ret)) (q : σ)
    (status : Tid → Status Op Ret) : Prop where
  commits : Commits h S
  legal : spec.Legal S q
  called : ∀ θ op, status θ = .called op →
    (∃ i, CalledAt h i (current h θ) op) ∧ current h θ ∉ S.map Entry.id
  committed : ∀ θ r, status θ = .committed r → 0 < calls h θ ∧ ∃ op, ⟨current h θ, op, r⟩ ∈ S

namespace Linearizing

variable {Tid Op Ret σ : Type*} [DecidableEq Tid] {spec : SeqSpec Op Ret σ}
  {h : List (Event Tid Op Ret)} {S : List (Entry Tid Op Ret)} {q : σ} {status : Tid → Status Op Ret}

theorem nil : Linearizing spec ([] : List (Event Tid Op Ret)) [] spec.init fun _ => .idle :=
  ⟨.nil, .nil, by simp, by simp⟩

theorem call (hS : Linearizing spec h S q status) (θ : Tid) (op : Op) :
    Linearizing spec (h ++ [.call θ op]) S q (Function.update status θ (.called op)) := by
  refine ⟨hS.commits.call θ op, hS.legal, fun θ' op' hst => ?_, fun θ' r hst => ?_⟩
  · by_cases hθ : θ' = θ
    · subst hθ
      rw [Function.update_self] at hst
      cases hst
      rw [current_call_self]
      exact ⟨⟨h.length, calledAt_append.2 (Or.inr ⟨rfl, rfl, rfl⟩)⟩, hS.commits.next_not_mem θ'⟩
    · rw [Function.update_of_ne hθ] at hst
      obtain ⟨⟨i, hi⟩, hnew⟩ := hS.called θ' op' hst
      rw [current_call_of_ne h op hθ]
      exact ⟨⟨i, calledAt_append.2 (Or.inl hi)⟩, hnew⟩
  · by_cases hθ : θ' = θ
    · subst hθ
      rw [Function.update_self] at hst
      cases hst
    · rw [Function.update_of_ne hθ] at hst
      rw [current_call_of_ne h op hθ, calls_call_of_ne h op hθ]
      exact hS.committed θ' r hst

theorem ret (hS : Linearizing spec h S q status) {θ : Tid} {r : Ret}
    (hθ : status θ = .committed r) :
    Linearizing spec (h ++ [.ret θ r]) S q (Function.update status θ .idle) := by
  obtain ⟨hpos, hmem⟩ := hS.committed θ r hθ
  have hold : ∀ θ' st, Function.update status θ .idle θ' = st → st ≠ .idle → status θ' = st := by
    rintro θ' st hst hne
    by_cases heq : θ' = θ
    · subst heq
      rw [Function.update_self] at hst
      exact absurd hst.symm hne
    · rwa [Function.update_of_ne heq] at hst
  refine ⟨hS.commits.ret hpos hmem, hS.legal, fun θ' op hst => ?_, fun θ' r' hst => ?_⟩
  · obtain ⟨⟨i, hi⟩, hnew⟩ := hS.called θ' op (hold θ' _ hst (by simp))
    rw [current_ret]
    exact ⟨⟨i, calledAt_append.2 (Or.inl hi)⟩, hnew⟩
  · rw [current_ret, calls_ret]
    exact hS.committed θ' r' (hold θ' _ hst (by simp))

/-- A step of any thread may commit the operation of `θ`, if the specification allows it now. -/
theorem commit (hS : Linearizing spec h S q status) {θ : Tid} {op : Op} {r : Ret} {q' : σ}
    (hq : spec.next q op r q') (hθ : status θ = .called op) :
    Linearizing spec h (S ++ [⟨current h θ, op, r⟩]) q'
      (Function.update status θ (.committed r)) := by
  obtain ⟨⟨i, hi⟩, hnew⟩ := hS.called θ op hθ
  refine ⟨hS.commits.commit hi hnew r, .snoc hS.legal hq, fun θ' op' hst => ?_, fun θ' r' hst => ?_⟩
  · by_cases heq : θ' = θ
    · subst heq
      rw [Function.update_self] at hst
      cases hst
    · rw [Function.update_of_ne heq] at hst
      obtain ⟨hcalled, hnew'⟩ := hS.called θ' op' hst
      refine ⟨hcalled, ?_⟩
      simp only [List.map_append, List.map_cons, List.map_nil, List.mem_append, List.mem_singleton]
      exact not_or.2 ⟨hnew', current_ne h heq⟩
  · by_cases heq : θ' = θ
    · subst heq
      rw [Function.update_self] at hst
      cases hst
      exact ⟨Nat.zero_lt_of_lt hi.lt_calls, op, List.mem_append_right _ (List.mem_singleton_self _)⟩
    · rw [Function.update_of_ne heq] at hst
      obtain ⟨hpos, op', hmem⟩ := hS.committed θ' r' hst
      exact ⟨hpos, op', List.mem_append_left _ hmem⟩

theorem congr (hS : Linearizing spec h S q status) {q' : σ} {status' : Tid → Status Op Ret}
    (hq : q' = q) (hst : ∀ θ, status' θ = status θ) : Linearizing spec h S q' status' := by
  obtain rfl : status' = status := funext hst
  rwa [hq]

theorem isLinearization (hS : Linearizing spec h S q status) : IsLinearization spec h S :=
  ⟨hS.commits, q, hS.legal⟩

end Linearizing

/-! ### The blocking bounded queue -/

/-- The operations of a queue. -/
inductive QueueOp (A : Type*)
  | enqueue (v : A)
  | dequeue

/-- The results of the operations of a queue. -/
inductive QueueRet (A : Type*)
  | done
  | value (v : A)

/-- A first-in first-out queue of bounded capacity, on which an operation that cannot be carried out
does not take place. -/
inductive QueueNext {A : Type*} (capacity : ℕ) : List A → QueueOp A → QueueRet A → List A → Prop
  | enqueue {q : List A} {v : A} (h : q.length < capacity) :
      QueueNext capacity q (.enqueue v) .done (q ++ [v])
  | dequeue {q : List A} {v : A} : QueueNext capacity (v :: q) .dequeue (.value v) q

/-- The blocking queue of the given capacity, initially empty. -/
def boundedQueue (A : Type*) (capacity : ℕ) : SeqSpec (QueueOp A) (QueueRet A) (List A) where
  init := []
  next := QueueNext capacity

section Queues

variable {Tid A : Type*}

/-- The value that an entry puts in the queue. -/
def Entry.enqueued : Entry Tid (QueueOp A) (QueueRet A) → Option A
  | ⟨_, .enqueue v, _⟩ => some v
  | _ => none

/-- The value that an entry takes out of the queue. -/
def Entry.dequeued : Entry Tid (QueueOp A) (QueueRet A) → Option A
  | ⟨_, .dequeue, .value v⟩ => some v
  | _ => none

/-- What has been enqueued is what has been dequeued, followed by the contents. -/
theorem boundedQueue_fifo {capacity : ℕ} {S : List (Entry Tid (QueueOp A) (QueueRet A))}
    {q : List A} (h : (boundedQueue A capacity).Legal S q) :
    S.filterMap Entry.enqueued = S.filterMap Entry.dequeued ++ q ∧ q.length ≤ capacity := by
  induction h with
  | nil => exact ⟨rfl, Nat.zero_le _⟩
  | @snoc S q q' e hS hn ih =>
    obtain ⟨id, op, ret⟩ := e
    obtain ⟨ih1, ih2⟩ := ih
    cases hn with
    | @enqueue _ v hlt =>
      let e : Entry Tid (QueueOp A) (QueueRet A) := ⟨id, .enqueue v, .done⟩
      have hin : (S ++ [e]).filterMap Entry.enqueued = S.filterMap Entry.enqueued ++ [v] :=
        List.filterMap_append
      have hout : (S ++ [e]).filterMap Entry.dequeued = S.filterMap Entry.dequeued :=
        List.filterMap_append.trans (List.append_nil _)
      refine ⟨?_, ?_⟩
      · rw [hin, hout, ih1, List.append_assoc]
      · rw [List.length_append, List.length_singleton]
        exact hlt
    | @dequeue _ v =>
      let e : Entry Tid (QueueOp A) (QueueRet A) := ⟨id, .dequeue, .value v⟩
      have hin : (S ++ [e]).filterMap Entry.enqueued = S.filterMap Entry.enqueued :=
        List.filterMap_append.trans (List.append_nil _)
      have hout : (S ++ [e]).filterMap Entry.dequeued = S.filterMap Entry.dequeued ++ [v] :=
        List.filterMap_append
      refine ⟨?_, (Nat.le_succ _).trans ih2⟩
      rw [hin, hout, ih1, List.append_assoc, List.singleton_append]

end Queues

end Interleaving
