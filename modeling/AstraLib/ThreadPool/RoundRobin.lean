import AstraLib.ThreadPool.HandOff

/-!
# `ThreadPool`: the round robin of the dispatcher

For each task that it takes from the queue, `taskDispatcher` tries the workers in turn, from `id`
on, until a `compare_exchange_strong` succeeds.  The source has two loops for it, the first pass and
the passes after it, which share `id` and the value `start` that it had before the first pass.  A
pass ends when `id` is `start` again.

`Scan` is the record of such a search.  Whatever the workers do meanwhile, after `k` attempts the
dispatcher is at `(start + k) % THREAD_COUNT`, so every pass begins at `start` and goes once around.
-/

namespace AstraLib.ThreadPool

open Interleaving

/-- The search for a worker: where it began, and for each `compare_exchange_strong` the worker and
the `poolFlag` that was found there. -/
structure Scan where
  start : ℕ
  attempts : List (ℕ × ℕ)

/-- No attempt has succeeded yet. -/
def Scan.Failed (c : Scan) : Prop := ∀ e ∈ c.attempts, e.2 ≠ 0

/-- The last attempt has succeeded, with worker `w`, and no other one has. -/
def Scan.Won (c : Scan) (w : ℕ) : Prop :=
  ∃ failed, c.attempts = failed ++ [(w, 0)] ∧ ∀ e ∈ failed, e.2 ≠ 0

section Cycle

variable (cfg : Config)

/-- All workers, in the order in which a pass tries them. -/
def cycle (start : ℕ) : List ℕ :=
  (List.range cfg.THREAD_COUNT).map fun k => (start + k) % cfg.THREAD_COUNT

/-- The workers that are tried in pass `j`. -/
def Scan.pass (c : Scan) (j : ℕ) : List ℕ :=
  ((c.attempts.map Prod.fst).drop (j * cfg.THREAD_COUNT)).take cfg.THREAD_COUNT

/-- `id = (id + 1) % THREAD_COUNT` as coded. The sum is one of `int`, the remainder
one of `std::size_t`. -/
def advanceId (id : ℤ) : ℤ := toInt (toSize (toInt (id + 1)) % cfg.THREAD_COUNT)

/-- The search has gone around from `start` on. -/
structure Scan.InTurn (c : Scan) : Prop where
  start_lt : c.start < cfg.THREAD_COUNT
  workers_eq : c.attempts.map Prod.fst =
    (List.range c.attempts.length).map fun k => (c.start + k) % cfg.THREAD_COUNT

variable {cfg}

/-- As long as the sum is an `int`, no conversion changes a value. -/
theorem advanceId_eq {id : ℕ} (hid : id + 1 < 2 ^ 31) :
    advanceId cfg id = ((id + 1) % cfg.THREAD_COUNT : ℕ) := by
  have hint : toInt ((id : ℤ) + 1) = (id + 1 : ℕ) := by exact_mod_cast toInt_of_lt hid
  have hsize : toSize (id + 1 : ℕ) = (id + 1 : ℕ) := by
    unfold toSize
    omega
  have hlt : (id + 1) % cfg.THREAD_COUNT < 2 ^ 31 := (Nat.mod_le _ _).trans_lt hid
  rw [advanceId, hint, hsize]
  exact_mod_cast toInt_of_lt hlt

/-- Once around, every worker is tried exactly once. -/
theorem cycle_perm (start : ℕ) : (cycle cfg start).Perm (List.range cfg.THREAD_COUNT) := by
  have hnodup : (cycle cfg start).Nodup := by
    refine List.Nodup.map_on (fun i hi j hj heq => ?_) List.nodup_range
    have hmod : i ≡ j [MOD cfg.THREAD_COUNT] := Nat.ModEq.add_left_cancel' start heq
    exact hmod.eq_of_lt_of_lt (List.mem_range.1 hi) (List.mem_range.1 hj)
  have hsub : cycle cfg start ⊆ List.range cfg.THREAD_COUNT := by
    intro w hw
    obtain ⟨k, -, rfl⟩ := List.mem_map.1 hw
    exact List.mem_range.2 (Nat.mod_lt _ cfg.pos)
  exact (List.subperm_of_subset hnodup hsub).perm_of_length_le (by simp [cycle])

/-- After `k` failed attempts the dispatcher is back where it began if and only if `k`
is a number of whole passes. -/
theorem add_mod_eq_iff {start : ℕ} (hstart : start < cfg.THREAD_COUNT) (k : ℕ) :
    (start + k) % cfg.THREAD_COUNT = start ↔ cfg.THREAD_COUNT ∣ k := by
  constructor
  · intro heq
    have hmod : start + k ≡ start + 0 [MOD cfg.THREAD_COUNT] := by
      rw [Nat.ModEq, heq, Nat.add_zero, Nat.mod_eq_of_lt hstart]
    exact (Nat.modEq_zero_iff_dvd).1 (Nat.ModEq.add_left_cancel' start hmod)
  · rintro ⟨j, rfl⟩
    rw [Nat.add_mul_mod_self_left, Nat.mod_eq_of_lt hstart]

namespace Scan.InTurn

variable {c : Scan}

/-- One more attempt, at the worker whose turn it is. -/
theorem attempt (h : c.InTurn cfg) (flag : ℕ) :
    InTurn cfg { c with
      attempts := c.attempts ++ [((c.start + c.attempts.length) % cfg.THREAD_COUNT, flag)] } := by
  refine ⟨h.start_lt, ?_⟩
  simp only [List.map_append, List.map_cons, List.map_nil, List.length_append,
    List.length_singleton, h.workers_eq, List.range_succ]

/-- **Every pass begins at `start` and goes around.** -/
theorem pass_isPrefix (h : c.InTurn cfg) (j : ℕ) : c.pass cfg j <+: cycle cfg c.start := by
  rw [Scan.pass, h.workers_eq, List.prefix_iff_getElem?]
  intro i hi
  simp only [List.length_take, List.length_drop, List.length_map, List.length_range] at hi
  have hiN : i < cfg.THREAD_COUNT := by omega
  simp only [cycle, List.getElem?_map, List.getElem?_range hiN, Option.map_some, List.getElem_take,
    List.getElem_drop, List.getElem_map, List.getElem_range, Option.some.injEq]
  rw [Nat.add_left_comm, Nat.mul_comm, Nat.mul_add_mod]

/-- A pass without success goes all the way around. -/
theorem pass_eq_cycle (h : c.InTurn cfg) {j : ℕ}
    (hj : (j + 1) * cfg.THREAD_COUNT ≤ c.attempts.length) : c.pass cfg j = cycle cfg c.start := by
  refine (h.pass_isPrefix j).eq_of_length ?_
  rw [Nat.add_mul, Nat.one_mul] at hj
  simp only [Scan.pass, cycle, List.length_take, List.length_drop, List.length_map,
    List.length_range]
  omega

end Scan.InTurn

end Cycle

/-! ### The dispatcher -/

section Dispatcher

variable {Tid : Type}

/-- A step of a thread, or a worker that sets its `poolFlag` from `1` to `0` where it likes. -/
def scanStep [DecidableEq Tid] (cfg : Config) (s : State Tid) :
    (Thread Tid × Micro Tid) ⊕ ℕ → Option (State Tid)
  | .inl a => step cfg s a
  | .inr i =>
      if (s.workers i).poolFlag = 1 then some (s.setWorker i { s.workers i with poolFlag := 0 })
      else none

/-- The dispatcher begins `taskDispatcher` with any `id`, in any state of the pool. -/
def scanSystem [DecidableEq Tid] (cfg : Config) :
    System (State Tid) ((Thread Tid × Micro Tid) ⊕ ℕ) :=
  .ofFun (fun s => s.dispatcher = .loopTest ∧ s.lastIdDispatched < cfg.THREAD_COUNT) (scanStep cfg)

/-- The steps of the dispatcher. -/
def dispatches : (Thread Tid × Micro Tid) ⊕ ℕ → Bool
  | .inl (.dispatcher, _) => true
  | _ => false

/-- The searches so far, the last one first. -/
def noteScan (s : State Tid) (a : (Thread Tid × Micro Tid) ⊕ ℕ) (l : List Scan) : List Scan :=
  match a with
  | .inl (.dispatcher, a) =>
    match s.dispatcher, a with
    | .dequeue, .ret => ⟨s.lastIdDispatched, []⟩ :: l
    | .scan _ _, .go =>
        l.modifyHead fun c => { c with attempts :=
          c.attempts ++ [(s.lastIdDispatched, s.candidate.poolFlag)] }
    | _, _ => l
  | _ => l

variable (cfg : Config)

/-- Where the search stands. Between two searches, `id` is the successor of the worker
that was found last. -/
def Dispatcher.Follows (id : ℕ) (l : List Scan) : Dispatcher → Prop
  | .scan first start => ∃ c rest, l = c :: rest ∧ c.start = start ∧ c.Failed ∧
      id = (start + c.attempts.length) % cfg.THREAD_COUNT ∧
      (first = true ↔ c.attempts.length < cfg.THREAD_COUNT)
  | .write | .store | .wake => ∃ c rest, l = c :: rest ∧ c.Won id
  | _ => ∀ c rest, l = c :: rest → ∃ w, c.Won w ∧ id = (w + 1) % cfg.THREAD_COUNT

/-- The dispatcher is between two searches. -/
def Dispatcher.rests : Dispatcher → Bool
  | .scan _ _ | .write | .store | .wake => false
  | _ => true

/-- A search begins where the one before it has ended. -/
def Scan.Succeeds (c c' : Scan) : Prop := ∃ w, c'.Won w ∧ c.start = (w + 1) % cfg.THREAD_COUNT

/-- The invariant. -/
structure RoundRobin (s : State Tid) (l : List Scan) : Prop where
  id_lt : s.lastIdDispatched < cfg.THREAD_COUNT
  inTurn : ∀ c ∈ l, c.InTurn cfg
  chain : l.IsChain (Scan.Succeeds cfg)
  follows : s.dispatcher.Follows cfg s.lastIdDispatched l

variable {cfg} {s s' : State Tid} {l : List Scan}

theorem Dispatcher.follows_iff_of_rests {d : Dispatcher} (hd : d.rests = true)
    {id : ℕ} : d.Follows cfg id l ↔ ∀ c rest, l = c :: rest → ∃ w, c.Won w ∧
    id = (w + 1) % cfg.THREAD_COUNT := by
  cases d <;> first | rfl | cases hd

theorem Dispatcher.woken_follows (d : Dispatcher) {id : ℕ} :
    d.woken.Follows cfg id l ↔ d.Follows cfg id l := by
  cases d <;> rfl

/-- The other threads leave the `id` alone, and the dispatcher where it is unless it sleeps. -/
theorem scanStep_frame [DecidableEq Tid] {a : (Thread Tid × Micro Tid) ⊕ ℕ}
    (hs : scanStep cfg s a = some s') (ha : dispatches a = false) :
    s'.lastIdDispatched = s.lastIdDispatched ∧
      (s'.dispatcher = s.dispatcher ∨ s'.dispatcher = s.dispatcher.woken) := by
  rcases a with ⟨θ, a⟩ | i
  · have hs : ThreadPool.step cfg s (θ, a) = some s' := hs
    cases step_cases hs with
    | dispatcher hx => cases ha
    | producer hx =>
      refine ⟨?_, hx.dispatcher⟩
      cases hx <;> rfl
    | worker hi hx => exact ⟨rfl, Or.inl rfl⟩
    | destructor hx =>
      cases hx with
      | wake hp => exact ⟨rfl, Or.inr rfl⟩
      | _ => exact ⟨rfl, Or.inl rfl⟩
  · simp only [scanStep] at hs
    split_ifs at hs
    cases hs
    exact ⟨rfl, Or.inl rfl⟩

theorem noteScan_of_not_dispatches {a : (Thread Tid × Micro Tid) ⊕ ℕ} (ha : dispatches a = false) :
    noteScan s a l = l := by
  rcases a with ⟨θ, a⟩ | i
  · cases θ with
    | dispatcher => cases ha
    | _ => rfl
  · rfl

theorem exists_of_dispatches {a : (Thread Tid × Micro Tid) ⊕ ℕ} (ha : dispatches a = true) :
    ∃ b, a = .inl (.dispatcher, b) := by
  rcases a with ⟨θ, a⟩ | i
  · cases θ with
    | dispatcher => exact ⟨a, rfl⟩
    | _ => cases ha
  · cases ha

namespace RoundRobin

/-- A step that leaves the `id` and the searches alone. -/
theorem keep (h : RoundRobin cfg s l) (hid : s'.lastIdDispatched = s.lastIdDispatched)
    (hd : ∀ id, s.dispatcher.Follows cfg id l → s'.dispatcher.Follows cfg id l) :
    RoundRobin cfg s' l := by
  refine ⟨hid ▸ h.id_lt, h.inTurn, h.chain, ?_⟩
  rw [hid]
  exact hd _ h.follows

/-- A step of another thread. -/
theorem frame (h : RoundRobin cfg s l) (hid : s'.lastIdDispatched = s.lastIdDispatched)
    (hd : s'.dispatcher = s.dispatcher ∨ s'.dispatcher = s.dispatcher.woken) :
    RoundRobin cfg s' l := by
  refine h.keep hid fun id hfollows => ?_
  rcases hd with hd | hd
  · rw [hd]
    exact hfollows
  · rw [hd, Dispatcher.woken_follows]
    exact hfollows

/-- A step between two searches. -/
theorem rest (h : RoundRobin cfg s l) (hid : s'.lastIdDispatched = s.lastIdDispatched)
    (hd : s.dispatcher.rests = true) (hd' : s'.dispatcher.rests = true) : RoundRobin cfg s' l := by
  refine h.keep hid fun id hfollows => ?_
  rw [Dispatcher.follows_iff_of_rests hd']
  exact (Dispatcher.follows_iff_of_rests hd).1 hfollows

/-- A task has been taken from the queue. -/
theorem take (h : RoundRobin cfg s l) (hd : s.dispatcher.rests = true)
    (hid : s'.lastIdDispatched = s.lastIdDispatched)
    (hd' : s'.dispatcher = .scan true s.lastIdDispatched) :
    RoundRobin cfg s' (⟨s.lastIdDispatched, []⟩ :: l) := by
  refine ⟨hid ▸ h.id_lt, fun c hc => ?_, ?_, ?_⟩
  · rcases List.mem_cons.1 hc with rfl | hc
    · exact ⟨h.id_lt, rfl⟩
    · exact h.inTurn c hc
  · cases l with
    | nil => simp
    | cons c rest =>
      refine List.isChain_cons_cons.2 ⟨?_, h.chain⟩
      exact (Dispatcher.follows_iff_of_rests hd).1 h.follows c rest rfl
  · rw [hd', hid]
    refine ⟨_, l, rfl, rfl, by simp [Scan.Failed], ?_, by simpa using cfg.pos⟩
    exact (Nat.mod_eq_of_lt h.id_lt).symm

/-- An attempt, whatever comes of it. -/
theorem attempt {c : Scan} {rest : List Scan} {id : ℕ} (h : RoundRobin cfg s (c :: rest))
    (hid : id = (c.start + c.attempts.length) % cfg.THREAD_COUNT) (flag : ℕ) :
    (∀ c' ∈ { c with attempts := c.attempts ++ [(id, flag)] } :: rest, c'.InTurn cfg) ∧
    List.IsChain (Scan.Succeeds cfg)
      ({ c with attempts := c.attempts ++ [(id, flag)] } :: rest) := by
  constructor
  · intro c' hc'
    rcases List.mem_cons.1 hc' with rfl | hc'
    · rw [hid]
      exact (h.inTurn c List.mem_cons_self).attempt flag
    · exact h.inTurn c' (List.mem_cons_of_mem c hc')
  · have hchain := h.chain
    cases rest with
    | nil => simp
    | cons c' rest =>
      exact List.isChain_cons_cons.2 ⟨(List.isChain_cons_cons.1 hchain).1, hchain.of_cons⟩

/-- A `compare_exchange_strong`. -/
theorem scan (h : RoundRobin cfg s l) {first : Bool} {start : ℕ}
    (hp : s.dispatcher = .scan first start)
    (hs : s'.lastIdDispatched = s.lastIdDispatched ∧ s'.dispatcher = .write ∧
      s.candidate.poolFlag = 0 ∨
      s'.lastIdDispatched = nextId cfg s ∧
        s'.dispatcher = .scan (first && decide (nextId cfg s ≠ start)) start ∧
        s.candidate.poolFlag ≠ 0) :
    RoundRobin cfg s' (l.modifyHead fun c =>
      { c with attempts := c.attempts ++ [(s.lastIdDispatched, s.candidate.poolFlag)] }) := by
  have hfollows := h.follows
  rw [hp] at hfollows
  obtain ⟨c, rest, rfl, rfl, hfailed, hid, hfirst⟩ := hfollows
  obtain ⟨hturn, hchain⟩ := h.attempt hid s.candidate.poolFlag
  rcases hs with ⟨hid', hd', hflag⟩ | ⟨hid', hd', hflag⟩
  · refine ⟨hid' ▸ h.id_lt, hturn, hchain, ?_⟩
    rw [hd', hid']
    exact ⟨_, rest, rfl, c.attempts, by rw [hflag], hfailed⟩
  · have hnext : nextId cfg s = (c.start + (c.attempts.length + 1)) % cfg.THREAD_COUNT := by
      rw [nextId, hid, Nat.mod_add_mod, Nat.add_assoc]
    have hstart := (h.inTurn c List.mem_cons_self).start_lt
    refine ⟨hid' ▸ Nat.mod_lt _ cfg.pos, hturn, hchain, ?_⟩
    rw [hd', hid']
    refine ⟨_, rest, rfl, rfl, ?_, ?_, ?_⟩
    · intro e he
      rcases List.mem_append.1 he with he | he
      · exact hfailed e he
      · obtain rfl := List.mem_singleton.1 he
        exact hflag
    · rw [hnext, List.length_append, List.length_singleton]
    · rw [Bool.and_eq_true, decide_eq_true_iff, hfirst, hnext, ne_eq, add_mod_eq_iff hstart,
        List.length_append, List.length_singleton]
      -- before the end of the first pass, only its last attempt ends at `start`
      constructor
      · rintro ⟨hlt, hndvd⟩
        refine lt_of_le_of_ne hlt fun heq => hndvd ?_
        rw [heq]
      · intro hlt
        exact ⟨by omega, fun hdvd => absurd (Nat.le_of_dvd (by omega) hdvd) (by omega)⟩

/-- **Every step of the dispatcher keeps the turn.** -/
theorem dispatch [DecidableEq Tid] (h : RoundRobin cfg s l) {a : Micro Tid}
    (hs : dispatcherStep cfg s s.dispatcher a = some s') :
    RoundRobin cfg s' (noteScan s (.inl (.dispatcher, a)) l) := by
  -- the steps between two searches
  have hrest : s'.lastIdDispatched = s.lastIdDispatched → s.dispatcher.rests = true →
      s'.dispatcher.rests = true → noteScan s (.inl (.dispatcher, a)) l = l →
      RoundRobin cfg s' (noteScan s (.inl (.dispatcher, a)) l) := by
    intro hid hd hd' hlog
    rw [hlog]
    exact h.rest hid hd hd'
  unfold dispatcherStep at hs
  split at hs
  next hp =>
    cases hs
    refine hrest rfl (by rw [hp]; rfl) ?_ (by simp [noteScan, hp])
    show (if s.running = true then Dispatcher.waiter .load else .exited).rests = true
    split_ifs <;> rfl
  next g hp =>
    obtain ⟨o, -, rfl⟩ := Option.map_eq_some_iff.1 hs
    refine hrest rfl (by rw [hp]; rfl) ?_ (by simp [noteScan, hp])
    cases o <;> rfl
  next hp =>
    cases hs
    refine hrest rfl (by rw [hp]; rfl) ?_ (by simp [noteScan, hp])
    show (if s.running = true then Dispatcher.isEmpty .drain else .isEmpty .reset).rests = true
    split_ifs <;> rfl
  next k hp =>
    obtain ⟨q, -, rfl⟩ := Option.map_eq_some_iff.1 hs
    exact hrest rfl (by rw [hp]; rfl) (by rw [hp]; rfl) (by simp [noteScan, hp])
  next k a hp =>
    obtain ⟨q, -, rfl⟩ := Option.map_eq_some_iff.1 hs
    exact hrest rfl (by rw [hp]; rfl) (by rw [hp]; rfl) (by simp [noteScan, hp])
  next k hp =>
    split at hs
    next b hb =>
      obtain ⟨q, -, rfl⟩ := Option.map_eq_some_iff.1 hs
      refine hrest rfl (by rw [hp]; rfl) ?_ (by simp [noteScan, hp])
      cases k <;> cases b <;> rfl
    next => cases hs
  next hp =>
    obtain ⟨q, -, rfl⟩ := Option.map_eq_some_iff.1 hs
    exact hrest rfl (by rw [hp]; rfl) (by rw [hp]; rfl) (by simp [noteScan, hp])
  next a hp =>
    obtain ⟨q, -, rfl⟩ := Option.map_eq_some_iff.1 hs
    exact hrest rfl (by rw [hp]; rfl) (by rw [hp]; rfl) (by simp [noteScan, hp])
  next hp =>
    split at hs
    next t v hv =>
      obtain ⟨q, -, rfl⟩ := Option.map_eq_some_iff.1 hs
      have hlog : noteScan s (.inl (.dispatcher, .ret)) l = ⟨s.lastIdDispatched, []⟩ :: l := by
        simp [noteScan, hp]
      rw [hlog]
      exact h.take (by rw [hp]; rfl) rfl rfl
    next => cases hs
  next first start hp =>
    have hlog : noteScan s (.inl (.dispatcher, .go)) l = l.modifyHead fun c =>
        { c with attempts := c.attempts ++ [(s.lastIdDispatched, s.candidate.poolFlag)] } := by
          simp [noteScan, hp]
    rw [hlog]
    refine h.scan hp ?_
    split_ifs at hs with hf
    · cases hs
      exact Or.inl ⟨rfl, rfl, hf⟩
    · cases hs
      exact Or.inr ⟨rfl, rfl, hf⟩
  next left hp =>
    cases hs
    have hlog : noteScan s (.inl (.dispatcher, .move left)) l = l := by simp [noteScan, hp]
    rw [hlog]
    exact h.keep rfl fun id hfollows => by rwa [hp] at hfollows
  next hp =>
    cases hs
    have hlog : noteScan s (.inl (.dispatcher, .go)) l = l := by simp [noteScan, hp]
    rw [hlog]
    exact h.keep rfl fun id hfollows => by rwa [hp] at hfollows
  next hp =>
    cases hs
    have hlog : noteScan s (.inl (.dispatcher, .go)) l = l := by simp [noteScan, hp]
    have hfollows := h.follows
    rw [hp] at hfollows
    obtain ⟨c, rest, rfl, hwon⟩ := hfollows
    rw [hlog]
    refine ⟨Nat.mod_lt _ cfg.pos, h.inTurn, h.chain, fun c' rest' heq => ?_⟩
    cases heq
    exact ⟨s.lastIdDispatched, hwon, rfl⟩
  next hp =>
    cases hs
    exact hrest rfl (by rw [hp]; rfl) rfl (by simp [noteScan, hp])
  next hp =>
    cases hs
    exact hrest rfl (by rw [hp]; rfl) rfl (by simp [noteScan, hp])
  next hp =>
    cases hs
    exact hrest rfl (by rw [hp]; rfl) rfl (by simp [noteScan, hp])
  next => cases hs

theorem reachable [DecidableEq Tid] {q : State Tid × List Scan}
    (h : ((scanSystem cfg).withLog [] noteScan).Reachable q) : RoundRobin cfg q.1 q.2 := by
  have hI : ((scanSystem cfg).withLog [] noteScan).IsInvariant
      fun q : State Tid × List Scan => RoundRobin cfg q.1 q.2 := by
    constructor
    · rintro ⟨s, l⟩ ⟨⟨hd, hid⟩, rfl⟩
      refine ⟨hid, by simp, .nil, ?_⟩
      rw [Dispatcher.follows_iff_of_rests (by rw [hd]; rfl)]
      simp
    · rintro ⟨s, l⟩ a ⟨s', l'⟩ - hinv ⟨hs, rfl⟩
      by_cases ha : dispatches a = true
      · obtain ⟨b, rfl⟩ := exists_of_dispatches ha
        exact hinv.dispatch hs
      · obtain ⟨hid, hd⟩ := scanStep_frame hs (by simpa using ha)
        rw [noteScan_of_not_dispatches (by simpa using ha)]
        exact hinv.frame hid hd
  exact hI.reachable h

end RoundRobin

/-- All searches but the last one have found a worker. -/
theorem exists_won_of_chain {c c' : Scan} {rest : List Scan}
    (h : List.IsChain (Scan.Succeeds cfg) (c :: rest)) (hc' : c' ∈ rest) : ∃ w, c'.Won w := by
  induction rest generalizing c with
  | nil => cases hc'
  | cons c₁ rest ih =>
    obtain ⟨⟨w, hw, -⟩, hrest⟩ := List.isChain_cons_cons.1 h
    rcases List.mem_cons.1 hc' with rfl | hc'
    · exact ⟨w, hw⟩
    · exact ih hrest hc'

/-! ### A free worker is found -/

section Free

variable (cfg)

/-- How many attempts there are before worker `i` is tried. -/
def distance (id i : ℕ) : ℕ := if id ≤ i then i - id else i + cfg.THREAD_COUNT - id

/-- The dispatcher searches, worker `i` is free, and after `n` attempts it has not
been reached yet. -/
structure Approaches (i n : ℕ) (s : State Tid) : Prop where
  scans : ∃ first start, s.dispatcher = .scan first start
  id_lt : s.lastIdDispatched < cfg.THREAD_COUNT
  free : (s.workers i).poolFlag = 0
  attempts_lt : distance cfg s.lastIdDispatched i + n < cfg.THREAD_COUNT

variable {cfg} {i n : ℕ}

theorem distance_lt {id : ℕ} (hid : id < cfg.THREAD_COUNT) (hi : i < cfg.THREAD_COUNT) :
    distance cfg id i < cfg.THREAD_COUNT := by
  unfold distance
  split_ifs <;> omega

theorem distance_succ {id : ℕ} (hid : id < cfg.THREAD_COUNT) (hi : i < cfg.THREAD_COUNT)
    (hne : id ≠ i) : distance cfg ((id + 1) % cfg.THREAD_COUNT) i + 1 = distance cfg id i := by
  unfold distance
  rcases Nat.eq_or_lt_of_le (Nat.succ_le_of_lt hid) with heq | hlt
  · rw [show id + 1 = cfg.THREAD_COUNT from heq, Nat.mod_self]
    split_ifs <;> omega
  · rw [Nat.mod_eq_of_lt hlt]
    split_ifs <;> omega

variable [DecidableEq Tid]

/-- Only the dispatcher takes a free worker. -/
theorem poolFlag_of_not_dispatches {a : (Thread Tid × Micro Tid) ⊕ ℕ}
    (hs : scanStep cfg s a = some s') (ha : dispatches a = false)
    (hfree : (s.workers i).poolFlag = 0) : (s'.workers i).poolFlag = 0 := by
  rcases a with ⟨θ, a⟩ | j
  · have htouch := (step_cases (show ThreadPool.step cfg s (θ, a) = some s' from hs)).touch i
    generalize s'.workers i = w at htouch
    cases htouch with
    | own hθ hw => cases hw <;> first | exact hfree | rfl
    | claim first start hθ hp hid hf =>
      cases hθ
      cases ha
    | _ => exact hfree
  · simp only [scanStep] at hs
    split_ifs at hs
    cases hs
    by_cases hij : i = j
    · subst hij
      rw [setWorker_workers_self]
    · rw [setWorker_workers_of_ne _ _ hij]
      exact hfree

/-- With every attempt the dispatcher comes closer, until one succeeds. -/
theorem Approaches.step (h : Approaches cfg i n s) (hi : i < cfg.THREAD_COUNT)
    {a : (Thread Tid × Micro Tid) ⊕ ℕ} (hs : scanStep cfg s a = some s') :
    s'.dispatcher = .write ∨ Approaches cfg i (n + if dispatches a = true then 1 else 0) s' := by
  obtain ⟨first, start, hp⟩ := h.scans
  by_cases ha : dispatches a = true
  · rw [if_pos ha]
    obtain ⟨b, rfl⟩ := exists_of_dispatches ha
    have hs : dispatcherStep cfg s s.dispatcher b = some s' := hs
    rw [hp] at hs
    cases b with
    | go =>
      simp only [dispatcherStep] at hs
      split_ifs at hs with hf
      · cases hs
        exact Or.inl rfl
      · cases hs
        -- worker `i` is free, so it was another one
        have hne : s.lastIdDispatched ≠ i := by
          rintro rfl
          exact hf h.free
        have hlt := h.attempts_lt
        rw [← distance_succ h.id_lt hi hne] at hlt
        refine Or.inr ⟨⟨_, start, rfl⟩, Nat.mod_lt _ cfg.pos, h.free, ?_⟩
        show distance cfg ((s.lastIdDispatched + 1) % cfg.THREAD_COUNT) i + (n + 1) <
          cfg.THREAD_COUNT
        omega
    | _ => cases hs
  · rw [if_neg ha]
    have ha : dispatches a = false := by simpa using ha
    obtain ⟨hid, hd⟩ := scanStep_frame hs ha
    refine Or.inr ⟨⟨first, start, ?_⟩, hid ▸ h.id_lt, poolFlag_of_not_dispatches hs ha h.free, ?_⟩
    · rcases hd with hd | hd
      · rw [hd, hp]
      · rw [hd, hp]
        rfl
    · rw [hid]
      exact h.attempts_lt

/-- **A worker that is free is not passed over**: as many attempts as there are
workers are enough. -/
theorem exists_write_of_free {x : ℕ → State Tid} {a : ℕ → (Thread Tid × Micro Tid) ⊕ ℕ} {m : ℕ}
    (hx : (scanSystem cfg).Run x a m) {k : ℕ} (hkm : k ≤ m) (hi : i < cfg.THREAD_COUNT)
    (hid : (x k).lastIdDispatched < cfg.THREAD_COUNT)
    (hscan : ∃ first start, (x k).dispatcher = .scan first start)
    (hfree : ((x k).workers i).poolFlag = 0)
    (hmany : Nat.count (fun j => dispatches (a j) = true) k + cfg.THREAD_COUNT ≤
      Nat.count (fun j => dispatches (a j) = true) m) :
      ∃ j ≤ m, k < j ∧ (x j).dispatcher = .write := by
  by_contra hnone
  -- as long as nobody has been found, each step of the dispatcher is an attempt
  have happroach : ∀ j ≤ m, k ≤ j → ∃ n, Approaches cfg i n (x j) ∧
      Nat.count (fun j => dispatches (a j) = true) k + n =
        Nat.count (fun j => dispatches (a j) = true) j := by
    intro j hj hkj
    induction j, hkj using Nat.le_induction with
    | base => exact ⟨0, ⟨hscan, hid, hfree, distance_lt hid hi⟩, rfl⟩
    | succ j hkj ih =>
      obtain ⟨n, hn, hcount⟩ := ih (by omega)
      have hnot : (x (j + 1)).dispatcher ≠ .write := fun hw => hnone ⟨j + 1, hj, by omega, hw⟩
      refine ⟨_, (hn.step hi (hx.step j (by omega))).resolve_left hnot, ?_⟩
      rw [Nat.count_succ, ← hcount, Nat.add_assoc]
  obtain ⟨n, hn, hcount⟩ := happroach m le_rfl hkm
  have hlt := hn.attempts_lt
  omega

end Free

/-! ### The scan is exact -/

variable (cfg s l) in
/-- The searches up to a state, the last one first. -/
structure ExactScans : Prop where
  id_lt : s.lastIdDispatched < cfg.THREAD_COUNT
  start_lt : ∀ c ∈ l, c.start < cfg.THREAD_COUNT
  /-- every pass begins at `start` and takes the workers in cyclic order -/
  pass : ∀ c ∈ l, ∀ j, c.pass cfg j <+: cycle cfg c.start
  /-- a pass after which the search goes on has taken all of them -/
  whole : ∀ c ∈ l, ∀ j, (j + 1) * cfg.THREAD_COUNT ≤ c.attempts.length →
    c.pass cfg j = cycle cfg c.start
  /-- a search in progress has had no success, and it is at the end of a pass when
  `id` is `start` -/
  scanning : ∀ first start, s.dispatcher = .scan first start → ∃ c rest, l = c :: rest ∧
    c.start = start ∧
    c.Failed ∧ s.lastIdDispatched = (start + c.attempts.length) % cfg.THREAD_COUNT ∧
    (s.lastIdDispatched = start ↔ cfg.THREAD_COUNT ∣ c.attempts.length) ∧
    (first = true ↔ c.attempts.length < cfg.THREAD_COUNT)
  /-- a search that is over has had one success, and that was its last attempt -/
  earlier : ∀ c rest, l = c :: rest → ∀ c' ∈ rest, ∃ w, c'.Won w
  activating : s.dispatcher = .write ∨ s.dispatcher = .store ∨ s.dispatcher = .wake →
    ∃ c rest, l = c :: rest ∧ c.Won s.lastIdDispatched
  /-- `id` is then the successor of the worker that was found, and the next search begins there -/
  resting : s.dispatcher.rests = true → ∀ c rest, l = c :: rest →
    ∃ w, c.Won w ∧ s.lastIdDispatched = (w + 1) % cfg.THREAD_COUNT
  succeeds : l.IsChain (Scan.Succeeds cfg)

theorem RoundRobin.exactScans (h : RoundRobin cfg s l) : ExactScans cfg s l where
  id_lt := h.id_lt
  start_lt c hc := (h.inTurn c hc).start_lt
  pass c hc j := (h.inTurn c hc).pass_isPrefix j
  whole c hc j hj := (h.inTurn c hc).pass_eq_cycle hj
  scanning first start hp := by
    have hfollows := h.follows
    rw [hp] at hfollows
    obtain ⟨c, rest, rfl, rfl, hfailed, hid, hfirst⟩ := hfollows
    refine ⟨c, rest, rfl, rfl, hfailed, hid, ?_, hfirst⟩
    rw [hid]
    exact add_mod_eq_iff (h.inTurn c List.mem_cons_self).start_lt _
  earlier c rest heq c' hc' := by
    subst heq
    exact exists_won_of_chain h.chain hc'
  activating hd := by
    have hfollows := h.follows
    rcases hd with hd | hd | hd
    all_goals
      rw [hd] at hfollows
      exact hfollows
  resting hd := (Dispatcher.follows_iff_of_rests hd).1 h.follows
  succeeds := h.chain

/-- **The round robin of `taskDispatcher` is exact**, for every number of workers, every `id` to
begin with and every order of the steps. The `id` is always one of a worker. Every pass of a
search begins at `start` and tries the workers in cyclic order, each at most once, and all of them
before it ends with `id = start`. A search has one success, with the first worker that is found
free, and then `id` is the next one after it. An attempt can always be made, and once some worker
is free at most `THREAD_COUNT` more are. As long as `id + 1` is an `int`, the conversions between
`int` and `std::size_t` change nothing. -/
theorem round_robin_exact [DecidableEq Tid] {x : ℕ → State Tid × List Scan}
    {a : ℕ → (Thread Tid × Micro Tid) ⊕ ℕ} {n : ℕ}
    (hx : ((scanSystem cfg).withLog [] noteScan).Run x a n) :
    (∀ k ≤ n, ExactScans cfg (x k).1 (x k).2) ∧
    (∀ start, (cycle cfg start).Perm (List.range cfg.THREAD_COUNT)) ∧
    (∀ k ≤ n, ∀ first start, (x k).1.dispatcher = .scan first start →
      ∃ s', scanStep cfg (x k).1 (.inl (.dispatcher, .go)) = some s') ∧
    (∀ k m i, k ≤ m → m ≤ n → i < cfg.THREAD_COUNT →
      (∃ first start, (x k).1.dispatcher = .scan first start) →
      ((x k).1.workers i).poolFlag = 0 →
      Nat.count (fun j => dispatches (a j) = true) k + cfg.THREAD_COUNT ≤
        Nat.count (fun j => dispatches (a j) = true) m →
      ∃ j ≤ m, k < j ∧ (x j).1.dispatcher = .write) ∧
    (∀ id : ℕ, id + 1 < 2 ^ 31 → advanceId cfg id = ((id + 1) % cfg.THREAD_COUNT : ℕ)) ∧
    ∀ id start : ℕ, id < 2 ^ 31 → start < 2 ^ 31 → (toSize id = toSize start ↔ id = start) := by
  refine ⟨fun k hk => ?_, cycle_perm, fun k hk first start hp => ?_,
    fun k m i hkm hm hi hscan hfree hmany => ?_, fun id hid => advanceId_eq hid,
    fun id start hid hstart => ?_⟩
  · exact (RoundRobin.reachable (hx.reachable k hk)).exactScans
  · simp only [scanStep, ThreadPool.step, hp, dispatcherStep]
    split_ifs
    · exact ⟨_, rfl⟩
    · exact ⟨_, rfl⟩
  · have hrun : (scanSystem cfg).Run (fun k => (x k).1) a m :=
      ⟨hx.of_log.init, fun j hj => hx.of_log.step j (by omega)⟩
    have hid := (RoundRobin.reachable (hx.reachable k (by omega))).id_lt
    exact exists_write_of_free hrun hkm hi hid hscan hfree hmany
  · unfold toSize
    omega

end Dispatcher

/-- A pool with two workers. -/
def double : Config := ⟨2, by decide⟩

/-- Both workers are taken, and it is the turn of worker `1`. -/
def bothTaken : State ℕ :=
  { fresh (fun _ _ => none) fun _ _ => none with
    lastIdDispatched := 1
    workers _ := { Worker.fresh with poolFlag := 1 } }

/-- A task is assigned, the dispatcher takes it and goes around once, and then worker
`1` becomes free. -/
def twoPasses : List ((Thread ℕ × Micro ℕ) ⊕ ℕ) :=
  (assigns 0 ++ goesOn .dispatcher 2 ++ dequeues ++ goesOn .dispatcher 2).map .inl ++
    [.inr 1, .inl (.dispatcher, .go)]

/-- The search has failed at worker `1` and at worker `0` before it has succeeded at worker `1`. -/
def foundOne (q : State ℕ × List Scan) : Bool :=
  q.2.map (fun c => (c.start, c.attempts)) == [(1, [(1, 1), (0, 1), (1, 0)])]

theorem twoPasses_foundOne : (twoPasses.foldlM
    (fun q a => (scanStep double q.1 a).map fun s => (s, noteScan q.1 a q.2))
    (bothTaken, [])).map foundOne = some true := by
  decide +kernel

theorem round_robin_exact_twoPasses : ∃ x : ℕ → State ℕ × List Scan,
    foundOne (x twoPasses.length) = true ∧
    ∀ k ≤ twoPasses.length, ExactScans double (x k).1 (x k).2 := by
  have hinit : ((scanSystem double).withLog [] noteScan).init (bothTaken, []) :=
    ⟨⟨rfl, by decide⟩, rfl⟩
  obtain ⟨x, hx, hp⟩ := System.exists_run_of_schedule hinit (.inr 0) twoPasses_foundOne (by
    intro q a _ q' hq
    obtain ⟨s, hs, rfl⟩ := Option.map_eq_some_iff.1 hq
    exact ⟨hs, rfl⟩)
  exact ⟨x, hp, (round_robin_exact hx).1⟩

end AstraLib.ThreadPool
