import Mathlib.Tactic

/-!
# Conservation

Tokens that are passed around between places.  `At p v` says that the token `v` is at the place `p`.
A set of tokens is conserved if each of them is at exactly one place and no other token is anywhere.

A step of a system moves a token (`Conserved.move`), brings in a new one (`Conserved.insert`),
or leaves everything where it is (`Conserved.congr`).  There are never more places in use than
there are tokens (`Conserved.card_le`).
-/

namespace Interleaving

variable {Place Token : Type*}

/-- The tokens in `A` are each at exactly one place, and there are no others. -/
structure Conserved (At : Place → Token → Prop) (A : Set Token) : Prop where
  mem : ∀ p v, At p v → v ∈ A
  existsUnique : ∀ v ∈ A, ∃! p, At p v

namespace Conserved

variable {At At' : Place → Token → Prop} {A : Set Token}

theorem eq (h : Conserved At A) {p q : Place} {v : Token} (hp : At p v) (hq : At q v) : p = q :=
  (h.existsUnique v (h.mem p v hp)).unique hp hq

theorem congr (h : Conserved At A) (heq : ∀ p v, At' p v ↔ At p v) : Conserved At' A := by
  obtain rfl : At' = At := funext fun p => funext fun v => propext (heq p v)
  exact h

/-- The token `x` moves from `q` to `q'`. -/
theorem move (h : Conserved At A) {x : Token} (q q' : Place) (hq : At q x)
    (hone : ∀ v, At q v → v = x)
    (heq : ∀ p v, At' p v ↔ (p = q' ∧ v = x) ∨ (p ≠ q ∧ At p v)) : Conserved At' A := by
  constructor
  · intro p v hv
    rcases (heq p v).1 hv with ⟨-, rfl⟩ | ⟨-, hv⟩
    · exact h.mem q v hq
    · exact h.mem p v hv
  · intro v hv
    by_cases hvx : v = x
    · subst hvx
      refine ⟨q', (heq q' v).2 (Or.inl ⟨rfl, rfl⟩), fun p hp => ?_⟩
      rcases (heq p v).1 hp with ⟨hp, -⟩ | ⟨hne, hp⟩
      · exact hp
      · exact absurd (h.eq hp hq) hne
    · obtain ⟨p, hp, huniq⟩ := h.existsUnique v hv
      have hne : p ≠ q := by
        rintro rfl
        exact hvx (hone v hp)
      refine ⟨p, (heq p v).2 (Or.inr ⟨hne, hp⟩), fun p' hp' => ?_⟩
      rcases (heq p' v).1 hp' with ⟨-, hx⟩ | ⟨-, hp'⟩
      · exact absurd hx hvx
      · exact huniq p' hp'

/-- The new token `x` appears at `q`. -/
theorem insert (h : Conserved At A) {x : Token} (q : Place) (hx : x ∉ A)
    (heq : ∀ p v, At' p v ↔ (p = q ∧ v = x) ∨ At p v) : Conserved At' (insert x A) := by
  constructor
  · intro p v hv
    rcases (heq p v).1 hv with ⟨-, rfl⟩ | hv
    · exact Set.mem_insert v A
    · exact Set.mem_insert_of_mem x (h.mem p v hv)
  · intro v hv
    rcases Set.mem_insert_iff.1 hv with rfl | hmem
    · refine ⟨q, (heq q v).2 (Or.inl ⟨rfl, rfl⟩), fun p hp => ?_⟩
      rcases (heq p v).1 hp with ⟨hp, -⟩ | hp
      · exact hp
      · exact absurd (h.mem p v hp) hx
    · obtain ⟨p, hp, huniq⟩ := h.existsUnique v hmem
      refine ⟨p, (heq p v).2 (Or.inr hp), fun p' hp' => ?_⟩
      rcases (heq p' v).1 hp' with ⟨-, rfl⟩ | hp'
      · exact absurd hmem hx
      · exact huniq p' hp'

/-- Pigeonhole: if each of the labels in `T` is on a place with a token, then there
are no more labels than tokens. -/
theorem card_le (h : Conserved At A) (hA : A.Finite) {ι : Type*} (label : Place → Option ι)
    (T : Finset ι) (hT : ∀ t ∈ T, ∃ p v, At p v ∧ label p = some t) : T.card ≤ A.ncard := by
  choose p v hat hlabel using hT
  have hinj : Function.Injective fun t : T => (⟨v t t.2, h.mem _ _ (hat t t.2)⟩ : A) := by
    intro t t' heq
    -- the same token is at the same place, and so it has the same label
    have hv : v t t.2 = v t' t'.2 := congrArg Subtype.val heq
    have hat' := hat t' t'.2
    rw [← hv] at hat'
    have hp : p t t.2 = p t' t'.2 := h.eq (hat t t.2) hat'
    have hlab := hlabel t t.2
    rw [hp, hlabel t' t'.2] at hlab
    exact Subtype.ext (Option.some.inj hlab).symm
  have := hA.to_subtype
  have hcard := Nat.card_le_card_of_injective _ hinj
  rwa [Nat.card_coe_set_eq, Nat.card_eq_fintype_card, Fintype.card_coe] at hcard

end Conserved

end Interleaving
