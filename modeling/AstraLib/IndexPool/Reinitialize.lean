import AstraLib.IndexPool.Model
import AstraLib.Ring.Clear
import AstraLib.Ring.Sequential

/-!
# `ThreadSafeIndexPool`: starting over

`reInitializePool` clears the ring and runs the loop of the constructor again.  The indices that are
checked out at that time are forgotten: the pool hands out `0, …, SIZE - 1` once more.
-/

namespace AstraLib.IndexPool

open Interleaving

section Reinitialize

variable {Tid : Type} [DecidableEq Tid]

/-- `reInitializePool`, run by thread `θ`. The fence between the two parts orders what
is in order here already. -/
def reInitializePool {κ τ : Type} [DecidableEq κ] [DecidableEq τ] (ar : Ring.TicketArith κ τ)
    (cfg : Ring.Config) (θ : Tid) (s : Ring.State Tid κ τ ℤ 1) : Option (Ring.State Tid κ τ ℤ 1) :=
  initializeIndexes ar cfg θ (s.clear ar cfg)

/-- Each of the next `getIndex` calls comes to its end, and they return the given indices. -/
def Yields (cfg : Ring.Config) : Ring.Mem ℕ ℤ 1 → List ℤ → Prop
  | _, [] => True
  | m, i :: is =>
      Ensures (Ring.Alone cfg) (fun q => (∃ t, q.2 = .deqReturn t (ofIndex i)) ∧ Yields cfg q.1 is)
        (m, .deqClaim .result)

variable {cfg : Ring.Config}

/-- The indices come out in the order in which the ring holds them. -/
theorem yields_of_holds {m : Ring.Mem ℕ ℤ 1} {is : List ℤ}
    (h : Ring.Holds cfg m (is.map fun i => some (ofIndex i))) : Yields cfg m is := by
  induction is generalizing m with
  | nil => exact trivial
  | cons i is ih =>
    refine (h.dequeue .result).mono fun q hq => ?_
    obtain ⟨hret, hrest, -⟩ := hq
    exact ⟨⟨m.readTicket, hret⟩, ih hrest⟩

/-- What a ring with `i` in slot `i` holds. -/
theorem holds_of_full {m : Ring.Mem ℕ ℤ 1} (hwrite : m.writeTicket = cfg.SIZE)
    (hread : m.readTicket = 0) (hslot : ∀ i < cfg.SIZE, m.buffer i = ⟨i + 1, ofIndex i⟩) :
    Ring.Holds cfg m (((List.range cfg.SIZE).map fun i : ℕ => (i : ℤ)).map
      fun i => some (ofIndex i)) := by
  refine ⟨by simp [hwrite, hread], by simp, fun i v hv => ?_, fun i hi hnone => ?_⟩
  · have hi : i < cfg.SIZE := by
      by_contra hge
      simp [hge] at hv
    rw [List.getElem?_map, List.getElem?_map, List.getElem?_range hi] at hv
    cases hv
    rw [hread, Nat.zero_add, Ring.Mem.slotOf, Nat.mod_eq_of_lt hi, hslot i hi]
  · simp [hi] at hnone

/-- **The pool starts over.** Whatever has been done with the pool before, if no operation is in
flight then `reInitializePool` comes to its end with every enqueue passing its first spin test. The
counters, the sequence numbers and the payloads are those of a newly constructed pool, and the next
`SIZE` calls of `getIndex` return `0, …, SIZE - 1`. -/
theorem reInitializePool_restores {s : Ring.State Tid ℕ ℕ ℤ 1} (hidle : ∀ θ, s.pc θ = .idle)
    (θ : Tid) :
    ∃ s', reInitializePool (Ring.unbounded cfg) cfg θ s = some s' ∧ (∀ θ', s'.pc θ' = .idle) ∧
      (∀ new : Ring.State Tid ℕ ℕ ℤ 1, (system (Ring.unbounded cfg) cfg).init new →
        s'.mem.writeTicket = new.mem.writeTicket ∧ s'.mem.readTicket = new.mem.readTicket ∧
        ∀ i < cfg.SIZE, s'.mem.buffer i = new.mem.buffer i) ∧
      Yields cfg s'.mem ((List.range cfg.SIZE).map fun i : ℕ => (i : ℤ)) := by
  have hseq : ∀ i < cfg.SIZE, ((s.clear (Ring.unbounded cfg) cfg).mem.buffer i).seq = i := by
    intro i hi
    simp [Ring.State.clear, Ring.clearBuffer, Ring.prepareBuffer_apply, hi]
  refine ⟨_, initializeIndexes_of_ready (hidle θ) rfl hseq, hidle, fun new hnew => ?_, ?_⟩
  · obtain ⟨θ', data, array, hnew⟩ := hnew
    rw [initializeIndexes_fresh] at hnew
    cases hnew
    refine ⟨rfl, rfl, fun i hi => ?_⟩
    simp only [full, if_pos hi]
  · exact yields_of_holds (holds_of_full rfl rfl fun i hi => if_pos hi)

end Reinitialize

/-- A thread takes out an index and keeps it. -/
def takesOne : List (Unit × Micro) :=
  [((), .getIndex), ((), .run .claim), ((), .run .spin), ((), .run (.copy 0 0)),
   ((), .run .publish), ((), .run .ret)]

/-- The first index is out, and nobody is in an operation. -/
def oneTaken (s : Ring.State Unit ℕ ℕ ℤ 1) : Bool :=
  (s.pc () matches .idle) && s.mem.readTicket == 1

theorem takesOne_oneTaken : (takesOne.foldlM (step (Ring.unbounded Ring.smallest) Ring.smallest)
    (full Ring.smallest (fun _ => ofIndex 0) fun _ => ofIndex 0)).map oneTaken = some true := by
  decide +kernel

theorem reInitializePool_restores_oneTaken : ∃ s s' : Ring.State Unit ℕ ℕ ℤ 1,
    (system (Ring.unbounded Ring.smallest) Ring.smallest).Reachable s ∧ s.mem.readTicket = 1 ∧
    reInitializePool (Ring.unbounded Ring.smallest) Ring.smallest () s = some s' ∧
    Yields Ring.smallest s'.mem [0, 1] := by
  have hinit : (system (Ring.unbounded Ring.smallest) Ring.smallest).init
      (full Ring.smallest (fun _ => ofIndex 0) fun _ => ofIndex 0 : Ring.State Unit ℕ ℕ ℤ 1) :=
    ⟨(), _, _, initializeIndexes_fresh () _ _⟩
  obtain ⟨s, hs, hp⟩ :=
    System.exists_reachable_of_schedule hinit takesOne_oneTaken fun _ _ _ _ hst => hst
  simp only [oneTaken, Bool.and_eq_true, beq_iff_eq] at hp
  have hidle : ∀ θ, s.pc θ = .idle := by
    intro θ
    cases hθ : s.pc () <;> simp [hθ] at hp ⊢
  obtain ⟨s', hs', -, -, hyields⟩ := reInitializePool_restores hidle ()
  exact ⟨s, s', hs, hp.2, hs', hyields⟩

end AstraLib.IndexPool
