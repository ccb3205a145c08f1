import Mathlib.Tactic

/-!
# What a program ensures

Total correctness of a program whose steps are not determined: `Ensures step Q s` says that
whichever steps are taken from `s`, a state with `Q` is reached.  It excludes getting stuck before,
and going on forever: a loop that can repeat its own state is not passed.

* `Ensures.bind`: one part of the program after the other;
* `Ensures.exists_path`: what is ensured does happen;
* `Ensures.through`, `Ensures.of_path`: what is known of a run that has come to its end.
-/

namespace Interleaving

open Relation

variable {σ : Type*}

/-- Whichever steps are taken from `s`, a state with `Q` is reached. -/
inductive Ensures (step : σ → σ → Prop) (Q : σ → Prop) : σ → Prop
  | done {s : σ} (h : Q s) : Ensures step Q s
  | next {s t : σ} (hmove : step s t) (h : ∀ u, step s u → Ensures step Q u) : Ensures step Q s

namespace Ensures

variable {step : σ → σ → Prop} {P Q : σ → Prop} {s t : σ}

theorem bind (h : Ensures step P s) (hPQ : ∀ t, P t → Ensures step Q t) : Ensures step Q s := by
  induction h with
  | done h => exact hPQ _ h
  | next hmove _ ih => exact .next hmove ih

theorem mono (h : Ensures step P s) (hPQ : ∀ t, P t → Q t) : Ensures step Q s :=
  h.bind fun t ht => .done (hPQ t ht)

/-- What is ensured does happen. -/
theorem exists_path (h : Ensures step Q s) : ∃ t, ReflTransGen step s t ∧ Q t := by
  induction h with
  | done h => exact ⟨_, .refl, h⟩
  | next hmove _ ih =>
    obtain ⟨t, hpath, hQ⟩ := ih _ hmove
    exact ⟨t, .head hmove hpath, hQ⟩

/-- A program that has stopped has come through `Q`. -/
theorem through (h : Ensures step Q s) (hpath : ReflTransGen step s t) (hstop : ∀ u, ¬ step t u) :
    ∃ u, Q u ∧ ReflTransGen step u t := by
  induction h with
  | done h => exact ⟨_, h, hpath⟩
  | next hmove _ ih =>
    rcases hpath.cases_head with rfl | ⟨u, hu, hrest⟩
    · exact absurd hmove (hstop _)
    · exact ih u hu hrest

/-- If the program stops where `Q` holds, it stops nowhere else. -/
theorem of_path (h : Ensures step Q s) (hfinal : ∀ t u, Q t → ¬ step t u)
    (hpath : ReflTransGen step s t) (hstop : ∀ u, ¬ step t u) : Q t := by
  obtain ⟨u, hQ, hrest⟩ := h.through hpath hstop
  rcases hrest.cases_head with rfl | ⟨w, hw, -⟩
  · exact hQ
  · exact absurd hw (hfinal _ _ hQ)

end Ensures

end Interleaving
