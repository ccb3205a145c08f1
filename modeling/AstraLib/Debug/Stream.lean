import Mathlib.Tactic

/-!
# Formatted output

The part of `std::ostream` that formatted insertions go through: its base, adjustment, fill
character and width.  An insertion `os << x` writes characters and may change the format; the next
one finds the format as it was left.  Most insertions use up the width, and a manipulator changes
the format without writing anything.
-/

namespace AstraLib.Debug

/-- `std::ios_base::basefield`. -/
inductive Base
  | oct
  | dec
  | hex
  deriving DecidableEq

/-- `std::ios_base::adjustfield`. -/
inductive Adjust
  | left
  | right
  | internal
  deriving DecidableEq

/-- The format of a stream. -/
@[ext] structure Format where
  base : Base
  adjust : Adjust
  fill : Char
  width : ℕ
  deriving DecidableEq

/-- The format of a stream that nobody has changed. -/
def Format.default : Format := ⟨.dec, .right, ' ', 0⟩

/-- What `os << x` does: the format that it leaves, and the characters that it writes. -/
abbrev Insertion := Format → Format × List Char

def Base.radix : Base → ℕ
  | .oct => 8
  | .dec => 10
  | .hex => 16

/-- Fill characters up to the width. There is neither a sign nor a base in front of what is padded
here, so `internal` is the same as `right`. -/
def pad (f : Format) (cs : List Char) : List Char :=
  if f.adjust = .left then cs ++ List.replicate (f.width - cs.length) f.fill
  else List.replicate (f.width - cs.length) f.fill ++ cs

/-- Insertion of a string. -/
def text (cs : List Char) : Insertion := fun f => ({ f with width := 0 }, pad f cs)

/-- Insertion of an integer that is not negative. -/
def number (n : ℕ) : Insertion :=
  fun f => ({ f with width := 0 }, pad f (Nat.toDigits f.base.radix n))

/-- Output that is not formatted: `std::put_time` and `std::endl`. -/
def raw (cs : List Char) : Insertion := fun f => (f, cs)

/-- `std::setw`. -/
def setw (n : ℕ) : Insertion := fun f => ({ f with width := n }, [])

/-- `std::setfill`. -/
def setfill (c : Char) : Insertion := fun f => ({ f with fill := c }, [])

/-- `std::oct`, `std::dec` and `std::hex`. -/
def setBase (b : Base) : Insertion := fun f => ({ f with base := b }, [])

/-- Several insertions, one after the other. -/
def emit : List Insertion → Insertion
  | [], f => (f, [])
  | i :: is, f => ((emit is (i f).1).1, (i f).2 ++ (emit is (i f).1).2)

/-- The insertion of a plain value leaves the format alone, but for a width that it uses up. -/
def Plain (i : Insertion) : Prop := ∀ f, f.width = 0 → (i f).1 = f

theorem plain_text (cs : List Char) : Plain (text cs) := by
  intro f hf
  ext <;> simp [text, hf]

@[simp] theorem emit_nil (f : Format) : emit [] f = (f, []) := rfl

theorem emit_cons (i : Insertion) (is : List Insertion) (f : Format) :
    emit (i :: is) f = ((emit is (i f).1).1, (i f).2 ++ (emit is (i f).1).2) := rfl

theorem emit_append (is js : List Insertion) (f : Format) :
    emit (is ++ js) f = ((emit js (emit is f).1).1,
      (emit is f).2 ++ (emit js (emit is f).1).2) := by
  induction is generalizing f with
  | nil => simp
  | cons i is ih =>
    rw [List.cons_append, emit_cons, ih, emit_cons]
    simp only [List.append_assoc]

/-- What a part of the insertions has written is the beginning of what all of them write. -/
theorem emit_isPrefix (is js : List Insertion) (f : Format) :
    (emit is f).2 <+: (emit (is ++ js) f).2 := by
  rw [emit_append]
  exact List.prefix_append _ _

/-- Plain values are written one by one, in one format. -/
theorem emit_plain {is : List Insertion} (h : ∀ i ∈ is, Plain i) {f : Format} (hf : f.width = 0) :
    emit is f = (f, is.flatMap fun i => (i f).2) := by
  induction is with
  | nil => rfl
  | cons i is ih =>
    rw [emit_cons, h i List.mem_cons_self f hf, ih fun j hj => h j (List.mem_cons_of_mem i hj)]
    simp

@[simp] theorem pad_of_width_eq_zero {f : Format} (hf : f.width = 0)
    (cs : List Char) : pad f cs = cs := by
  simp [pad, hf]

theorem length_pad (f : Format) (cs : List Char) : (pad f cs).length = max f.width cs.length := by
  unfold pad
  split_ifs
  · rw [List.length_append, List.length_replicate]
    omega
  · rw [List.length_append, List.length_replicate]
    omega

/-- In one adjustment, the padding is the same if and only if the width and the fill
character are, or nothing is padded. -/
theorem pad_eq_pad_iff {f g : Format} (hadjust : f.adjust = g.adjust)
    (cs : List Char) : pad f cs = pad g cs ↔
    f.width ≤ cs.length ∧ g.width ≤ cs.length ∨ f.width = g.width ∧ f.fill = g.fill := by
  constructor
  · intro h
    have hlen := congrArg List.length h
    rw [length_pad, length_pad] at hlen
    by_cases hle : f.width ≤ cs.length
    · exact Or.inl ⟨hle, by omega⟩
    · have hwidth : f.width = g.width := by omega
      refine Or.inr ⟨hwidth, ?_⟩
      have hgap : List.replicate (f.width - cs.length) f.fill =
          List.replicate (f.width - cs.length) g.fill := by
        unfold pad at h
        rw [← hadjust, ← hwidth] at h
        split_ifs at h
        · exact List.append_cancel_left h
        · exact List.append_cancel_right h
      exact (List.replicate_right_inj (by omega)).1 hgap
  · rintro (⟨hf, hg⟩ | ⟨hwidth, hfill⟩)
    · simp [pad, Nat.sub_eq_zero_of_le hf, Nat.sub_eq_zero_of_le hg]
    · rw [pad, pad, hadjust, hwidth, hfill]

end AstraLib.Debug
