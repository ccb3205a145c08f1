import AstraLib.Interleaving.System
import AstraLib.Words

/-!
# `AtomicRingBuffer`: the program

`include/AstraLib/Buffers/atomicRingBuffer.hpp`, thread by thread and atomic step by atomic step.
A member function is a little program whose program counter is a `Pc`; `exec` runs one atomic
step of it against the shared members of the object (`Mem`), and `step` lets any thread take
its next step.

* The payload type `A` is `Payload ω W`: a value is its `W` words.  Moving a payload into or out of
  a slot is `W` separate steps, in any order, so that a torn or stale payload can be expressed.
  `W = 1` is the reading in which the payload access is one step.
* The arithmetic of tickets is a parameter (`TicketArith`).  `unbounded` runs the protocol with
  natural numbers, which is the program for as long as no ticket wraps; the 64-bit words
  of the code are in `AstraLib.Ring.MachineWord`.
* `enqueue(A&&)`, `enqueue(const A&)` and `emplaceEnqueue` follow one protocol and
  differ in what they do with the slot's object between the spin test and the `seq`
  store, which is what `EnqKind` keeps.
-/

namespace AstraLib.Ring

open Interleaving

/-- The template arguments, with the `static_assert`s of the class. `trivial` is
`std::is_trivially_destructible_v<A>`. The slots are indexed by an `int`, hence `le_int`. -/
structure Config where
  SIZE : ℕ
  BATCH_SIZE : ℕ
  trivial : Bool
  pow_two : SIZE ≠ 0 ∧ SIZE &&& (SIZE - 1) = 0
  two_le : 2 ≤ SIZE
  le_int : SIZE ≤ 2 ^ 30

/-- How tickets are computed with. `κ` is the type of the atomic `int64_t` variables (the two
counters and every `seq`), `τ` that of a local `uint64_t ticket`. -/
structure TicketArith (κ τ : Type) where
  /-- an `int` stored in an atomic variable -/
  ofInt : ℕ → κ
  /-- the new value of a counter after `fetch_add(1)` -/
  fetchAdd : κ → κ
  /-- the conversion of `uint64_t ticket = …` and of the comparisons with a `seq` -/
  ticket : κ → τ
  /-- `ticket + n` -/
  add : τ → ℕ → τ
  /-- the conversion of `seq.store(ticket + n)` -/
  store : τ → κ
  /-- `int index = ticket & (SIZE - 1)` -/
  index : τ → ℕ

/-- Tickets that never wrap. -/
def unbounded (cfg : Config) : TicketArith ℕ ℕ where
  ofInt i := i
  fetchAdd c := c + 1
  ticket c := c
  add t n := t + n
  store t := t
  index t := (toInt ((t &&& (cfg.SIZE - 1) : ℕ) : ℤ)).toNat

/-- `Slot`: the sequence number and the payload. -/
structure Slot (κ ω : Type) (W : ℕ) where
  seq : κ
  data : Payload ω W

/-- The members of the object. -/
structure Mem (κ ω : Type) (W : ℕ) where
  batchDequeueArray : ℕ → Payload ω W
  buffer : ℕ → Slot κ ω W
  writeTicket : κ
  readTicket : κ

/-- The three ways in: `enqueue(A&&)`, `enqueue(const A&)` and `emplaceEnqueue`. -/
inductive EnqKind
  | move
  | copy
  | emplace
  deriving DecidableEq

/-- Where a dequeued payload goes: the result of `dequeue`, or entry `i` of the array in a
`batchDequeue` of `count` items. -/
inductive Dest
  | result
  | batch (i : ℕ) (count : ℤ)
  deriving DecidableEq

/-- A call of a member function. The arguments of `emplaceEnqueue` are given by the value that
they construct. -/
inductive Call (ω : Type) (W : ℕ)
  | enqueue (k : EnqKind) (v : Payload ω W)
  | dequeue
  | batchDequeue (count : ℤ)
  | isEmpty

/-- Where a thread is. -/
inductive Pc (κ τ ω : Type) (W : ℕ)
  | idle
  /-- before `writeTicket.fetch_add` -/
  | enqClaim (k : EnqKind) (v : Payload ω W)
  /-- at the load of `seq` in the spin loop -/
  | enqSpin (k : EnqKind) (v : Payload ω W) (ticket : τ)
  /-- `emplaceEnqueue`, before `data.~A()` -/
  | enqDestroy (v : Payload ω W) (ticket : τ)
  /-- writing the payload; the words in `done` are in the slot -/
  | enqCopy (k : EnqKind) (v : Payload ω W) (ticket : τ) (done : Finset (Fin W))
  | enqReturn
  /-- at the loop test of `batchDequeue` -/
  | batchLoop (i : ℕ) (count : ℤ)
  /-- before `readTicket.fetch_add` -/
  | deqClaim (d : Dest)
  | deqSpin (d : Dest) (ticket : τ)
  /-- reading the payload; `buf` has the words read so far -/
  | deqCopy (d : Dest) (ticket : τ) (buf : Fin W → Option ω)
  | deqReturn (ticket : τ) (data : Payload ω W)
  | batchReturn
  | isEmptyCall
  /-- `isEmpty` has loaded `writeTicket`, and `readTicket` comes next -/
  | isEmptyWrite (w : κ)
  /-- `isEmpty` has loaded `readTicket`, and `writeTicket` comes next -/
  | isEmptyRead (r : κ)
  | isEmptyReturn (b : Bool)

/-- The atomic steps of the member functions. -/
inductive Micro (ω : Type) (W : ℕ)
  | call (c : Call ω W)
  /-- `fetch_add` on a ticket counter -/
  | claim
  /-- load of `seq` and comparison -/
  | spin
  /-- `data.~A()`, which may leave anything in the bytes of the slot -/
  | destroy (junk : Payload ω W)
  /-- one word of the payload; a moved-from word may hold anything (`left`) -/
  | copy (j : Fin W) (left : ω)
  /-- store of `seq` -/
  | publish
  /-- the test `i < count` -/
  | loop
  | loadWrite
  | loadRead
  | ret

section Program

variable {κ τ ω : Type} {W : ℕ}

/-- `seq.store(x)` on slot `i`. -/
def Mem.setSeq (m : Mem κ ω W) (i : ℕ) (x : κ) : Mem κ ω W :=
  { m with buffer := Function.update m.buffer i { m.buffer i with seq := x } }

/-- Overwrite the payload of slot `i`. -/
def Mem.setData (m : Mem κ ω W) (i : ℕ) (v : Payload ω W) : Mem κ ω W :=
  { m with buffer := Function.update m.buffer i { m.buffer i with data := v } }

/-- Overwrite one word of the payload of slot `i`. -/
def Mem.setWord (m : Mem κ ω W) (i : ℕ) (j : Fin W) (x : ω) : Mem κ ω W :=
  m.setData i (Function.update (m.buffer i).data j x)

/-- A word that was read goes to the array in a `batchDequeue`, to a local variable otherwise. -/
def Mem.deliver (m : Mem κ ω W) (j : Fin W) (x : ω) : Dest → Mem κ ω W
  | .result => m
  | .batch i _ =>
      { m with
        batchDequeueArray :=
          Function.update m.batchDequeueArray i (Function.update (m.batchDequeueArray i) j x) }

/-- `if(count > BATCH_SIZE) count = BATCH_SIZE;` The comparison of an `int` with a `std::size_t`
converts the `int`, the assignment converts back. -/
def clampCount (cfg : Config) (count : ℤ) : ℤ :=
  if (cfg.BATCH_SIZE : ℤ) < toSize count then toInt cfg.BATCH_SIZE else count

/-- The first atomic step of a member function. -/
def Call.entry (cfg : Config) : Call ω W → Pc κ τ ω W
  | .enqueue k v => .enqClaim k v
  | .dequeue => .deqClaim .result
  | .batchDequeue count => .batchLoop 0 (clampCount cfg count)
  | .isEmpty => .isEmptyCall

/-- Past the spin test of an enqueue: `emplaceEnqueue` of a payload with a destructor destroys
the slot's object first. -/
def Pc.enqPast (cfg : Config) (k : EnqKind) (v : Payload ω W) (ticket : τ) : Pc κ τ ω W :=
  if k = .emplace ∧ cfg.trivial = false then .enqDestroy v ticket else .enqCopy k v ticket ∅

/-- After the `seq` store of a dequeue. -/
def Pc.deqPast (ticket : τ) (v : Payload ω W) : Dest → Pc κ τ ω W
  | .result => .deqReturn ticket v
  | .batch i count => .batchLoop (i + 1) count

/-- One atomic step of a thread. -/
def exec [DecidableEq κ] [DecidableEq τ] (ar : TicketArith κ τ) (cfg : Config) (m : Mem κ ω W) :
    Pc κ τ ω W → Micro ω W → Option (Mem κ ω W × Pc κ τ ω W)
  | .idle, .call c => some (m, c.entry cfg)
  -- enqueue, emplaceEnqueue
  | .enqClaim k v, .claim =>
      some ({ m with writeTicket := ar.fetchAdd m.writeTicket },
        .enqSpin k v (ar.ticket m.writeTicket))
  | .enqSpin k v t, .spin =>
      if ar.ticket (m.buffer (ar.index t)).seq = t then some (m, Pc.enqPast cfg k v t)
      else some (m, .enqSpin k v t)
  | .enqDestroy v t, .destroy junk => some (m.setData (ar.index t) junk, .enqCopy .emplace v t ∅)
  | .enqCopy k v t done, .copy j _ =>
      if j ∈ done then none
      else some (m.setWord (ar.index t) j (v j), .enqCopy k v t (insert j done))
  | .enqCopy _ _ t done, .publish =>
      if done = Finset.univ then some (m.setSeq (ar.index t) (ar.store (ar.add t 1)), .enqReturn)
      else none
  | .enqReturn, .ret => some (m, .idle)
  -- dequeue, and the loop of batchDequeue
  | .batchLoop i count, .loop =>
      some (m, if (i : ℤ) < count then .deqClaim (.batch i count) else .batchReturn)
  | .deqClaim d, .claim =>
      some ({ m with readTicket := ar.fetchAdd m.readTicket }, .deqSpin d (ar.ticket m.readTicket))
  | .deqSpin d t, .spin =>
      if ar.ticket (m.buffer (ar.index t)).seq = ar.add t 1 then
        some (m, .deqCopy d t fun _ => none)
      else some (m, .deqSpin d t)
  | .deqCopy d t buf, .copy j left =>
      if (buf j).isSome then none
      else
        let x := (m.buffer (ar.index t)).data j
        some ((m.setWord (ar.index t) j left).deliver j x d,
          .deqCopy d t (Function.update buf j (some x)))
  | .deqCopy d t buf, .publish =>
      (collect buf).map fun v =>
        (m.setSeq (ar.index t) (ar.store (ar.add t cfg.SIZE)), Pc.deqPast t v d)
  | .deqReturn _ _, .ret => some (m, .idle)
  | .batchReturn, .ret => some (m, .idle)
  -- isEmpty: the order of the two loads is not specified
  | .isEmptyCall, .loadWrite => some (m, .isEmptyWrite m.writeTicket)
  | .isEmptyCall, .loadRead => some (m, .isEmptyRead m.readTicket)
  | .isEmptyWrite w, .loadRead => some (m, .isEmptyReturn (decide (w = m.readTicket)))
  | .isEmptyRead r, .loadWrite => some (m, .isEmptyReturn (decide (m.writeTicket = r)))
  | .isEmptyReturn _, .ret => some (m, .idle)
  | _, _ => none

/-- The object and the threads that use it. -/
structure State (Tid κ τ ω : Type) (W : ℕ) where
  mem : Mem κ ω W
  pc : Tid → Pc κ τ ω W

variable {Tid : Type} [DecidableEq Tid] [DecidableEq κ] [DecidableEq τ]

/-- Thread `a.1` takes the atomic step `a.2`. -/
def step (ar : TicketArith κ τ) (cfg : Config) (s : State Tid κ τ ω W) (a : Tid × Micro ω W) :
    Option (State Tid κ τ ω W) :=
  (exec ar cfg s.mem (s.pc a.1) a.2).map fun r => ⟨r.1, Function.update s.pc a.1 r.2⟩

/-- `prepareBuffer`. -/
def prepareBuffer (ar : TicketArith κ τ) (cfg : Config)
    (buffer : ℕ → Slot κ ω W) : ℕ → Slot κ ω W :=
  (List.range cfg.SIZE).foldl
    (fun b i => Function.update b i { b i with seq := ar.ofInt i }) buffer

/-- A newly constructed object. The payloads of the slots and of the array are whatever the default
initialisation of `A` leaves there. -/
def fresh (ar : TicketArith κ τ) (cfg : Config) (data array : ℕ → Payload ω W) :
    State Tid κ τ ω W where
  mem :=
    { batchDequeueArray := array
      buffer := prepareBuffer ar cfg fun i => ⟨ar.ofInt 0, data i⟩
      writeTicket := ar.ofInt 0
      readTicket := ar.ofInt 0 }
  pc _ := .idle

/-- The queue under any number of threads. -/
def system (ar : TicketArith κ τ) (cfg : Config) :
    System (State Tid κ τ ω W) (Tid × Micro ω W) :=
  .ofFun (fun s => ∃ data array, s = fresh ar cfg data array) (step ar cfg)

end Program

end AstraLib.Ring
