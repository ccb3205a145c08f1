import AstraLib.Interleaving.System
import AstraLib.Words

/-!
# `spscRingBuffer`: the program

`include/AstraLib/Buffers/spscRingBuffer.hpp`: one producer thread, which calls `enqueue` and
`emplaceEnqueue`, and one consumer thread, which calls `dequeue`.  The producer alone uses
`lastWritten`, the consumer alone `lastRead`; what they share are the slots.

A payload is moved into and out of its slot word by word, in any order.  `step` is the program,
`Step` lists its atomic steps one by one with the test that each of them passes.
-/

namespace AstraLib.Spsc

open Interleaving

/-- The template arguments. `trivial` is `std::is_trivially_destructible_v<A>`. -/
structure Config where
  BUFFER_SIZE : ℕ
  trivial : Bool
  pos : 1 ≤ BUFFER_SIZE
  le_int : BUFFER_SIZE ≤ 2 ^ 31 - 1

/-- `spscSlot`. The ticket is `0` if the slot is empty and `1` if it is filled. -/
structure Slot (ω : Type) (W : ℕ) where
  data : Payload ω W
  ticket : ℤ

/-- The members of the object. -/
structure Mem (ω : Type) (W : ℕ) where
  buffer : ℕ → Slot ω W
  lastRead : ℤ
  lastWritten : ℤ

/-- `enqueue(A&&)` or `emplaceEnqueue`. -/
inductive EnqKind
  | move
  | emplace
  deriving DecidableEq

/-- Where the producer is. -/
inductive Producer (ω : Type) (W : ℕ)
  | idle
  /-- before `lastWritten` is moved on -/
  | advance (k : EnqKind) (v : Payload ω W)
  /-- at the load of `ticket` in the spin loop -/
  | spin (k : EnqKind) (v : Payload ω W)
  /-- `emplaceEnqueue`, before `data.~A()` -/
  | destroy (v : Payload ω W)
  /-- writing the payload; the words in `done` are in the slot -/
  | copy (k : EnqKind) (v : Payload ω W) (done : Finset (Fin W))
  | ret

/-- Where the consumer is. -/
inductive Consumer (ω : Type) (W : ℕ)
  | idle
  /-- before `lastRead` is moved on -/
  | advance
  | spin
  /-- reading the payload; `buf` has the words read so far -/
  | copy (buf : Fin W → Option ω)
  | ret (data : Payload ω W)

/-- The object and its two threads. -/
structure State (ω : Type) (W : ℕ) where
  mem : Mem ω W
  producer : Producer ω W
  consumer : Consumer ω W

/-- The atomic steps of the two threads. -/
inductive Micro (ω : Type) (W : ℕ)
  /-- call of `enqueue` or `emplaceEnqueue`; the arguments of the latter are given by the value that
  they construct -/
  | enqueue (k : EnqKind) (v : Payload ω W)
  | advanceWritten
  /-- the producer loads `ticket` and compares -/
  | testEmpty
  /-- `data.~A()`, which may leave anything in the bytes of the slot -/
  | destroy (junk : Payload ω W)
  /-- one word of the payload is written -/
  | write (j : Fin W)
  /-- the assignment or the constructor of the payload throws -/
  | throw
  /-- `ticket.store(1)` -/
  | fill
  | enqueueRet
  /-- call of `dequeue` -/
  | dequeue
  | advanceRead
  /-- the consumer loads `ticket` and compares -/
  | testFilled
  /-- one word of the payload is read; a moved-from word may hold anything (`left`) -/
  | read (j : Fin W) (left : ω)
  /-- `ticket.store(0)` -/
  | release
  | dequeueRet

section Program

variable {ω : Type} {W : ℕ}

/-- Store into the `ticket` of slot `i`. -/
def Mem.setTicket (m : Mem ω W) (i : ℕ) (x : ℤ) : Mem ω W :=
  { m with buffer := Function.update m.buffer i { m.buffer i with ticket := x } }

/-- Overwrite the payload of slot `i`. -/
def Mem.setData (m : Mem ω W) (i : ℕ) (v : Payload ω W) : Mem ω W :=
  { m with buffer := Function.update m.buffer i { m.buffer i with data := v } }

/-- Overwrite one word of the payload of slot `i`. -/
def Mem.setWord (m : Mem ω W) (i : ℕ) (j : Fin W) (x : ω) : Mem ω W :=
  m.setData i (Function.update (m.buffer i).data j x)

/-- `if(cursor+1 < BUFFER_SIZE) cursor += 1; else cursor = 0;` The addition is one of `int`, the
comparison with the `std::size_t` converts its result. -/
def advance (cfg : Config) (cursor : ℤ) : ℤ :=
  if toSize (toInt (cursor + 1)) < cfg.BUFFER_SIZE then toInt (cursor + 1) else 0

/-- Past the spin test: `emplaceEnqueue` of a payload with a destructor destroys the slot's object
first. -/
def Producer.past (cfg : Config) (k : EnqKind) (v : Payload ω W) : Producer ω W :=
  if k = .emplace ∧ cfg.trivial = false then .destroy v else .copy k v ∅

/-- The slot of the producer. -/
def Mem.writeIndex (m : Mem ω W) : ℕ := m.lastWritten.toNat

/-- The slot of the consumer. -/
def Mem.readIndex (m : Mem ω W) : ℕ := m.lastRead.toNat

/-- One atomic step of the producer. -/
def produce (cfg : Config) (m : Mem ω W) :
    Producer ω W → Micro ω W → Option (Mem ω W × Producer ω W)
  | .idle, .enqueue k v => some (m, .advance k v)
  | .advance k v, .advanceWritten =>
      some ({ m with lastWritten := advance cfg m.lastWritten }, .spin k v)
  | .spin k v, .testEmpty =>
      if (m.buffer m.writeIndex).ticket ≠ 0 then some (m, .spin k v) else some (m, .past cfg k v)
  | .destroy v, .destroy junk => some (m.setData m.writeIndex junk, .copy .emplace v ∅)
  | .copy k v done, .write j =>
      if j ∈ done then none else some (m.setWord m.writeIndex j (v j), .copy k v (insert j done))
  | .copy _ _ _, .throw => some (m, .idle)
  | .copy _ _ done, .fill =>
      if done = Finset.univ then some (m.setTicket m.writeIndex 1, .ret) else none
  | .ret, .enqueueRet => some (m, .idle)
  | _, _ => none

/-- One atomic step of the consumer. -/
def consume (cfg : Config) (m : Mem ω W) :
    Consumer ω W → Micro ω W → Option (Mem ω W × Consumer ω W)
  | .idle, .dequeue => some (m, .advance)
  | .advance, .advanceRead => some ({ m with lastRead := advance cfg m.lastRead }, .spin)
  | .spin, .testFilled =>
      if (m.buffer m.readIndex).ticket = 0 then some (m, .spin) else some (m, .copy fun _ => none)
  | .copy buf, .read j left =>
      if (buf j).isSome then none
      else
        some (m.setWord m.readIndex j left,
          .copy (Function.update buf j (some ((m.buffer m.readIndex).data j))))
  | .copy buf, .release => (collect buf).map fun v => (m.setTicket m.readIndex 0, .ret v)
  | .ret _, .dequeueRet => some (m, .idle)
  | _, _ => none

/-- One of the two threads takes a step. No step belongs to both. -/
def step (cfg : Config) (s : State ω W) (a : Micro ω W) : Option (State ω W) :=
  match produce cfg s.mem s.producer a with
  | some (m, p) => some { s with mem := m, producer := p }
  | none => (consume cfg s.mem s.consumer a).map fun r => { s with mem := r.1, consumer := r.2 }

/-- A newly constructed object. The payloads are whatever the default initialisation
of `A` leaves. -/
def fresh (data : ℕ → Payload ω W) : State ω W where
  mem := ⟨fun i => ⟨data i, 0⟩, 0, 0⟩
  producer := .idle
  consumer := .idle

/-- The buffer under its two threads. -/
def system (cfg : Config) : System (State ω W) (Micro ω W) :=
  .ofFun (fun s => ∃ data, s = fresh data) (step cfg)

/-! ### The steps of the program -/

/-- The steps of the producer, one constructor for each way a step can go. -/
inductive Produce (cfg : Config) (m : Mem ω W) :
    Producer ω W → Micro ω W → Mem ω W → Producer ω W → Prop
  | call (k : EnqKind) (v : Payload ω W) : Produce cfg m .idle (.enqueue k v) m (.advance k v)
  | advance (k : EnqKind) (v : Payload ω W) :
      Produce cfg m (.advance k v) .advanceWritten
        { m with lastWritten := Spsc.advance cfg m.lastWritten }
        (.spin k v)
  | retry (k : EnqKind) (v : Payload ω W) (h : (m.buffer m.writeIndex).ticket ≠ 0) :
      Produce cfg m (.spin k v) .testEmpty m (.spin k v)
  | pass (k : EnqKind) (v : Payload ω W) (h : (m.buffer m.writeIndex).ticket = 0) :
      Produce cfg m (.spin k v) .testEmpty m (.past cfg k v)
  | destroy (v junk : Payload ω W) :
      Produce cfg m (.destroy v) (.destroy junk) (m.setData m.writeIndex junk) (.copy .emplace v ∅)
  | write (k : EnqKind) (v : Payload ω W) (done : Finset (Fin W)) (j : Fin W) (h : j ∉ done) :
      Produce cfg m (.copy k v done) (.write j) (m.setWord m.writeIndex j (v j))
        (.copy k v (insert j done))
  | throw (k : EnqKind) (v : Payload ω W) (done : Finset (Fin W)) :
      Produce cfg m (.copy k v done) .throw m .idle
  | fill (k : EnqKind) (v : Payload ω W) :
      Produce cfg m (.copy k v Finset.univ) .fill (m.setTicket m.writeIndex 1) .ret
  | ret : Produce cfg m .ret .enqueueRet m .idle

/-- The steps of the consumer. -/
inductive Consume (cfg : Config) (m : Mem ω W) :
    Consumer ω W → Micro ω W → Mem ω W → Consumer ω W → Prop
  | call : Consume cfg m .idle .dequeue m .advance
  | advance :
      Consume cfg m .advance .advanceRead { m with lastRead := Spsc.advance cfg m.lastRead } .spin
  | retry (h : (m.buffer m.readIndex).ticket = 0) : Consume cfg m .spin .testFilled m .spin
  | pass (h : (m.buffer m.readIndex).ticket ≠ 0) :
      Consume cfg m .spin .testFilled m (.copy fun _ => none)
  | read (buf : Fin W → Option ω) (j : Fin W) (left : ω) (h : buf j = none) :
      Consume cfg m (.copy buf) (.read j left) (m.setWord m.readIndex j left)
        (.copy (Function.update buf j (some ((m.buffer m.readIndex).data j))))
  | release (buf : Fin W → Option ω) (v : Payload ω W) (h : ∀ j, buf j = some (v j)) :
      Consume cfg m (.copy buf) .release (m.setTicket m.readIndex 0) (.ret v)
  | ret (v : Payload ω W) : Consume cfg m (.ret v) .dequeueRet m .idle

theorem produce_eq_some {cfg : Config} {m m' : Mem ω W} {p p' : Producer ω W} {a : Micro ω W}
    (h : produce cfg m p a = some (m', p')) : Produce cfg m p a m' p' := by
  revert h
  fun_cases produce cfg m p a
  all_goals intro h
  case case4 k v hz => cases h; exact .pass k v (not_not.1 hz)
  all_goals first
    | cases h; constructor; assumption
    | cases h; constructor
    | cases h

theorem consume_eq_some {cfg : Config} {m m' : Mem ω W} {p p' : Consumer ω W} {a : Micro ω W}
    (h : consume cfg m p a = some (m', p')) : Consume cfg m p a m' p' := by
  revert h
  fun_cases consume cfg m p a
  all_goals intro h
  case case6 buf j left hj => cases h; exact .read buf j left (by simpa using hj)
  case case7 buf =>
    obtain ⟨v, hv, hr⟩ := Option.map_eq_some_iff.1 h
    cases hr
    exact .release buf v (collect_eq_some.1 hv)
  all_goals first
    | cases h; constructor; assumption
    | cases h; constructor
    | cases h

/-- A step is one of the producer or one of the consumer. -/
theorem step_cases {cfg : Config} {s s' : State ω W} {a : Micro ω W} (h : step cfg s a = some s') :
    (∃ m p, Produce cfg s.mem s.producer a m p ∧ s' = { s with mem := m, producer := p }) ∨
    (∃ m c, Consume cfg s.mem s.consumer a m c ∧ s' = { s with mem := m, consumer := c }) := by
  unfold step at h
  split at h
  · rename_i m p hp
    cases h
    exact Or.inl ⟨m, p, produce_eq_some hp, rfl⟩
  · obtain ⟨⟨m, c⟩, hc, rfl⟩ := Option.map_eq_some_iff.1 h
    exact Or.inr ⟨m, c, consume_eq_some hc, rfl⟩

/-! ### Cursors and memory -/

theorem Config.size_pos (cfg : Config) : 0 < cfg.BUFFER_SIZE := cfg.pos

/-- The cursors run through the slots in turn. -/
theorem advance_mod (cfg : Config) (n : ℕ) :
    advance cfg ((n % cfg.BUFFER_SIZE : ℕ) : ℤ) = ((n + 1) % cfg.BUFFER_SIZE : ℕ) := by
  have hlt := Nat.mod_lt n cfg.size_pos
  have hle := cfg.le_int
  rw [← Nat.mod_add_mod n cfg.BUFFER_SIZE 1]
  generalize n % cfg.BUFFER_SIZE = i at hlt ⊢
  have hint : toInt ((i : ℤ) + 1) = (i + 1 : ℕ) := by
    exact_mod_cast toInt_of_lt (n := i + 1) (by omega)
  have hsize : toSize (i + 1 : ℕ) = (i + 1 : ℕ) := by
    unfold toSize
    omega
  unfold advance
  rw [hint, hsize]
  split_ifs with h
  · rw [Nat.mod_eq_of_lt (by exact_mod_cast h)]
  · have hlast : i + 1 = cfg.BUFFER_SIZE := by omega
    rw [hlast, Nat.mod_self]
    rfl

variable (m : Mem ω W)

@[simp] theorem setTicket_lastRead (i : ℕ) (x : ℤ) : (m.setTicket i x).lastRead = m.lastRead := rfl
@[simp] theorem setTicket_lastWritten (i : ℕ) (x : ℤ) :
    (m.setTicket i x).lastWritten = m.lastWritten := rfl

theorem setTicket_ticket (i : ℕ) (x : ℤ) (i' : ℕ) :
    ((m.setTicket i x).buffer i').ticket = if i' = i then x else (m.buffer i').ticket := by
  by_cases h : i' = i
  · subst h; simp [Mem.setTicket]
  · simp [Mem.setTicket, h]

@[simp] theorem setTicket_data (i : ℕ) (x : ℤ) (i' : ℕ) :
    ((m.setTicket i x).buffer i').data = (m.buffer i').data := by
  by_cases h : i' = i
  · subst h; simp [Mem.setTicket]
  · simp [Mem.setTicket, Function.update_of_ne h]

@[simp] theorem setData_lastRead (i : ℕ) (v : Payload ω W) :
    (m.setData i v).lastRead = m.lastRead := rfl
@[simp] theorem setData_lastWritten (i : ℕ) (v : Payload ω W) :
    (m.setData i v).lastWritten = m.lastWritten := rfl

@[simp] theorem setData_ticket (i : ℕ) (v : Payload ω W) (i' : ℕ) :
    ((m.setData i v).buffer i').ticket = (m.buffer i').ticket := by
  by_cases h : i' = i
  · subst h; simp [Mem.setData]
  · simp [Mem.setData, Function.update_of_ne h]

theorem setData_data (i : ℕ) (v : Payload ω W) (i' : ℕ) :
    ((m.setData i v).buffer i').data = if i' = i then v else (m.buffer i').data := by
  by_cases h : i' = i
  · subst h; simp [Mem.setData]
  · simp [Mem.setData, h]

end Program

end AstraLib.Spsc
