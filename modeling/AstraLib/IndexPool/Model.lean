import AstraLib.Ring.Progress

/-!
# `ThreadSafeIndexPool`: the program

`include/AstraLib/Pools/threadSafeIndexPool.hpp`: an `AtomicRingBuffer<int, SIZE>` that the
constructor fills with `0, …, SIZE - 1`.  `getIndex` is a `dequeue` and `returnIndex` an `enqueue`.

The constructor runs before the pool is shared.  `initializeIndexes` is its loop: the
steps of one thread, one enqueue after the other, each of which passes its spin test
at once or else never returns.
-/

namespace AstraLib.IndexPool

open Interleaving

variable {Tid κ τ : Type} [DecidableEq Tid] [DecidableEq κ] [DecidableEq τ]

/-- The payload of an `int`. -/
def ofIndex (i : ℤ) : Payload ℤ 1 := fun _ => i

/-- The atomic steps of the pool. -/
inductive Micro
  /-- call of `getIndex` -/
  | getIndex
  /-- call of `returnIndex` -/
  | returnIndex (i : ℤ)
  /-- a step of the ring operation in progress, up to its return -/
  | run (a : Ring.Micro ℤ 1)

/-- Thread `θ` takes an atomic step. -/
def step (ar : Ring.TicketArith κ τ) (cfg : Ring.Config) (s : Ring.State Tid κ τ ℤ 1) :
    Tid × Micro → Option (Ring.State Tid κ τ ℤ 1)
  | (θ, .getIndex) => Ring.step ar cfg s (θ, .call .dequeue)
  | (θ, .returnIndex i) => Ring.step ar cfg s (θ, .call (.enqueue .move (ofIndex i)))
  | (_, .run (.call _)) => none
  | (θ, .run a) => Ring.step ar cfg s (θ, a)

/-- `IndexPool.enqueue(std::move(i))`, run to its end by one thread. -/
def enqueueAlone (ar : Ring.TicketArith κ τ) (cfg : Ring.Config) (θ : Tid)
    (s : Ring.State Tid κ τ ℤ 1) (i : ℤ) : Option (Ring.State Tid κ τ ℤ 1) :=
  [(θ, .call (.enqueue .move (ofIndex i))), (θ, .claim), (θ, .spin), (θ, .copy 0 i), (θ, .publish),
    (θ, .ret)].foldlM (Ring.step ar cfg) s

/-- `initializeIndexes`, run by thread `θ` before the pool is shared. -/
def initializeIndexes (ar : Ring.TicketArith κ τ) (cfg : Ring.Config) (θ : Tid)
    (s : Ring.State Tid κ τ ℤ 1) : Option (Ring.State Tid κ τ ℤ 1) :=
  (List.range cfg.SIZE).foldlM (fun s i => enqueueAlone ar cfg θ s (i : ℕ)) s

/-- The pool under any number of threads. -/
def system (ar : Ring.TicketArith κ τ) (cfg : Ring.Config) :
    System (Ring.State Tid κ τ ℤ 1) (Tid × Micro) :=
  .ofFun
    (fun s => ∃ θ data array, initializeIndexes ar cfg θ (Ring.fresh ar cfg data array) = some s)
    (step ar cfg)

/-! ### The pool and its ring -/

/-- A step of the pool is a step of the ring, and never a `batchDequeue`. -/
theorem step_ring {ar : Ring.TicketArith κ τ} {cfg : Ring.Config} {s s' : Ring.State Tid κ τ ℤ 1}
    {θ : Tid} {a : Micro} (h : step ar cfg s (θ, a) = some s') :
    ∃ b, (∀ count, b ≠ .call (.batchDequeue count)) ∧ Ring.step ar cfg s (θ, b) = some s' := by
  cases a with
  | getIndex => exact ⟨.call .dequeue, by simp, h⟩
  | returnIndex i => exact ⟨.call (.enqueue .move (ofIndex i)), by simp, h⟩
  | run b =>
    refine ⟨b, ?_, ?_⟩
    · rintro count rfl
      cases h
    · cases b with
      | call c => cases h
      | _ => exact h

section Constructor

variable {cfg : Ring.Config}

/-- The steps of an enqueue that finds its slot ready. -/
theorem enqueueAlone_eq {s : Ring.State Tid ℕ ℕ ℤ 1} {θ : Tid} (hidle : s.pc θ = .idle)
    (hseq : s.seqOf cfg s.mem.writeTicket = s.mem.writeTicket) (i : ℤ) :
    enqueueAlone (Ring.unbounded cfg) cfg θ s i = some
      { s with
        mem :=
          { s.mem with
            buffer := Function.update s.mem.buffer (s.mem.writeTicket % cfg.SIZE)
              ⟨s.mem.writeTicket + 1, ofIndex i⟩
            writeTicket := s.mem.writeTicket + 1 } } := by
  have hput : s.put θ s.mem .idle = s := by rw [← hidle, Ring.State.put, Function.update_eq_self]
  -- the slot is ready for the ticket that has been claimed
  have hpass : Ring.Exec (Ring.unbounded cfg) cfg
      { s.mem with writeTicket := s.mem.writeTicket + 1 }
      (.enqSpin .move (ofIndex i) s.mem.writeTicket) .spin
      { s.mem with writeTicket := s.mem.writeTicket + 1 }
      (.enqCopy .move (ofIndex i) s.mem.writeTicket ∅) := by
    have hpast : (Ring.Pc.enqPast cfg .move (ofIndex i) s.mem.writeTicket : Ring.Pc ℕ ℕ ℤ 1) =
        .enqCopy .move (ofIndex i) s.mem.writeTicket ∅ := by simp [Ring.Pc.enqPast]
    rw [← hpast]
    refine .enqPass .move (ofIndex i) s.mem.writeTicket ?_
    rw [Ring.unbounded_ticket, Ring.unbounded_index]
    exact hseq
  have hdone : insert (0 : Fin 1) ∅ = (Finset.univ : Finset (Fin 1)) := rfl
  have hword : ∀ w : Payload ℤ 1, Function.update w 0 (ofIndex i 0) = ofIndex i := by
    intro w
    funext j
    rw [Subsingleton.elim j 0, Function.update_self]
  -- one step after the other
  conv_lhs => rw [enqueueAlone, ← hput]
  rw [List.foldlM_cons, (Ring.Exec.call _).step_put, Option.bind_eq_bind, Option.bind_some,
    Ring.Call.entry]
  rw [List.foldlM_cons, (Ring.Exec.enqClaim _ _).step_put, Option.bind_eq_bind, Option.bind_some,
    Ring.unbounded_ticket, Ring.unbounded_fetchAdd]
  rw [List.foldlM_cons, hpass.step_put, Option.bind_eq_bind, Option.bind_some]
  rw [List.foldlM_cons, (Ring.Exec.enqCopy _ _ _ _ 0 i (Finset.notMem_empty 0)).step_put,
    Option.bind_eq_bind, Option.bind_some, hdone]
  rw [List.foldlM_cons, (Ring.Exec.enqPublish _ _ _).step_put, Option.bind_eq_bind,
    Option.bind_some]
  rw [List.foldlM_cons, Ring.Exec.enqRet.step_put, Option.bind_eq_bind, Option.bind_some,
    List.foldlM_nil]
  have hpc : Function.update s.pc θ .idle = s.pc := by rw [← hidle, Function.update_eq_self]
  simp [Ring.State.put, hpc, Ring.Mem.setWord, Ring.Mem.setData, Ring.Mem.setSeq, hword]

/-- The pool as the constructor leaves it: slot `i` holds `i` and waits for a `getIndex`. -/
def full (cfg : Ring.Config) (data array : ℕ → Payload ℤ 1) : Ring.State Tid ℕ ℕ ℤ 1 where
  mem :=
    { batchDequeueArray := array
      buffer := fun i => if i < cfg.SIZE then ⟨i + 1, ofIndex i⟩ else ⟨0, data i⟩
      writeTicket := cfg.SIZE
      readTicket := 0 }
  pc _ := .idle

/-- **None of the enqueues of the loop spins**, if it begins with the counters and the
sequence numbers of a new ring. -/
theorem initializeIndexes_of_ready {s : Ring.State Tid ℕ ℕ ℤ 1} {θ : Tid} (hidle : s.pc θ = .idle)
    (hwrite : s.mem.writeTicket = 0) (hseq : ∀ i < cfg.SIZE, (s.mem.buffer i).seq = i) :
    initializeIndexes (Ring.unbounded cfg) cfg θ s = some
      { s with
        mem :=
          { s.mem with
            buffer := fun i => if i < cfg.SIZE then ⟨i + 1, ofIndex i⟩ else s.mem.buffer i
            writeTicket := cfg.SIZE } } := by
  obtain ⟨⟨array, buffer, w, r⟩, pc⟩ := s
  -- after `n` enqueues
  have hn : ∀ n ≤ cfg.SIZE, (List.range n).foldlM
      (fun s i => enqueueAlone (Ring.unbounded cfg) cfg θ s (i : ℕ)) ⟨⟨array, buffer, w, r⟩, pc⟩ =
        some ⟨⟨array, fun i => if i < n then ⟨i + 1, ofIndex i⟩ else buffer i, n, r⟩, pc⟩ := by
    intro n hn
    induction n with
    | zero =>
      obtain rfl : w = 0 := hwrite
      simp
    | succ n ih =>
      rw [List.range_succ, List.foldlM_append, ih (by omega)]
      have hlt : n < cfg.SIZE := hn
      have hmod : n % cfg.SIZE = n := Nat.mod_eq_of_lt hlt
      simp only [Option.bind_eq_bind, Option.bind_some, List.foldlM_cons, List.foldlM_nil]
      rw [enqueueAlone_eq (by exact hidle) (by simpa [Ring.State.seqOf, hmod] using hseq n hlt)]
      simp only [Option.bind_some, hmod, Option.pure_def, Option.some.injEq, Ring.State.mk.injEq,
        Ring.Mem.mk.injEq, true_and, and_true]
      funext i
      rcases lt_trichotomy i n with hi | rfl | hi
      · rw [Function.update_of_ne hi.ne, if_pos hi, if_pos (by omega)]
      · rw [Function.update_self, if_pos (by omega)]
      · rw [Function.update_of_ne hi.ne', if_neg (by omega), if_neg (by omega : ¬ i < n + 1)]
  rw [initializeIndexes, hn cfg.SIZE le_rfl]

theorem initializeIndexes_fresh (θ : Tid) (data array : ℕ → Payload ℤ 1) :
    initializeIndexes (Ring.unbounded cfg) cfg θ (Ring.fresh (Ring.unbounded cfg) cfg data array) =
      some (full cfg data array) := by
  rw [initializeIndexes_of_ready rfl rfl
    fun i hi => by simp [Ring.fresh, Ring.prepareBuffer_apply, hi]]
  simp only [full, Ring.fresh, Ring.prepareBuffer_apply, Option.some.injEq, Ring.State.mk.injEq,
    Ring.Mem.mk.injEq, true_and, and_true]
  refine ⟨funext fun i => ?_, rfl⟩
  split_ifs <;> rfl

end Constructor

end AstraLib.IndexPool
