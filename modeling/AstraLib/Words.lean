import Mathlib.Tactic

/-!
# Words

What the containers have in common: the conversions of C++ that their index arithmetic
goes through, and payloads.

A value of the payload type is its `W` words.  Copying or moving a payload is then a matter of
single words, and a copy that is interrupted by another thread can be told from a whole one.
-/

namespace AstraLib

/-! ### Integers -/

/-- Conversion to `int`: 32 bits, two's complement. -/
def toInt (n : ℤ) : ℤ := n.bmod (2 ^ 32)

/-- Conversion to `std::size_t`: 64 bits, unsigned. -/
def toSize (n : ℤ) : ℤ := n % 2 ^ 64

theorem toInt_of_lt {n : ℕ} (h : n < 2 ^ 31) : toInt n = n := by
  unfold toInt
  rw [Int.bmod_eq_of_le] <;> omega

/-! ### Payloads -/

/-- A payload of a single word has a word `0`. -/
instance neZero_one : NeZero (1 : ℕ) := ⟨one_ne_zero⟩

instance neZero_two : NeZero (2 : ℕ) := ⟨two_ne_zero⟩

/-- A value of the payload type: its `W` words. -/
abbrev Payload (ω : Type) (W : ℕ) := Fin W → ω

section Payloads

variable {ω : Type} {W : ℕ}

/-- The whole payload, once every word has been read. -/
def collect (buf : Fin W → Option ω) : Option (Payload ω W) :=
  if h : ∀ j, (buf j).isSome then some fun j => (buf j).get (h j) else none

theorem collect_eq_some {buf : Fin W → Option ω} {v : Payload ω W} :
    collect buf = some v ↔ ∀ j, buf j = some (v j) := by
  unfold collect
  split_ifs with h
  · constructor
    · intro hv j
      cases hv
      simp
    · intro hv
      congr 1
      funext j
      simp [hv j]
  · constructor
    · intro hv; cases hv
    · intro hv
      exact absurd (fun j => by simp [hv j]) h

end Payloads

end AstraLib
