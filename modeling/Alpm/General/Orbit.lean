import Mathlib.Computability.StateTransition
import Mathlib.Data.Fintype.Card
import Mathlib.Data.Set.Finite.Basic
import Mathlib.Order.WellFounded

/-!
# Runs that end

A deterministic system that can reach only finitely many states ends if and only if it returns to no
state (`ends_iff`).  One direction is clear: from a state that comes again all that follows comes
again.  The other is the pigeonhole principle.

When most steps raise a measure, a run that does not end takes one of the others again and again
(`ends_iff_of_measure`), since a measure that is never lowered can be raised only finitely often in
a finite set of states.  A program whose position moves forward in almost every step is of this
kind, and its steps that do not move it forward are those to look at.
-/

namespace Alpm.Orbit

open StateTransition Relation

variable {σ : Type*} {next : σ → Option σ} {s t u : σ}

/-- The run from a state ends: it reaches a state that has no next one.  As the system is
deterministic there is one run, so this does not depend on a choice. -/
def Ends (next : σ → Option σ) (s : σ) : Prop := ∃ t, Reaches next s t ∧ next t = none

/-- A state that is returned to is returned to from all that comes after it. -/
theorem returns (hstep : next t = some u) (hback : Reaches next u t) {v : σ}
    (h : Reaches next t v) : Reaches next v t := by
  induction h with
  | refl => exact ReflTransGen.refl
  | @tail v w _ hvw ih =>
    rcases ReflTransGen.cases_head ih with rfl | ⟨w', hvw', hw't⟩
    · rwa [Option.mem_unique hvw hstep]
    · rwa [Option.mem_unique hvw hvw']

theorem not_ends_of_returns (hreach : Reaches next s t) (hstep : next t = some u)
    (hback : Reaches next u t) : ¬ Ends next s := by
  rintro ⟨last, hlast, hnone⟩
  have hstuck : ∀ v, Reaches next last v → v = last := by
    intro v hv
    rcases ReflTransGen.cases_head hv with rfl | ⟨w, hw, -⟩
    · rfl
    · rw [Option.mem_def, hnone] at hw
      cases hw
  have htlast : t = last := by
    rcases reaches_total hreach hlast with h | h
    · exact hstuck t (returns hstep hback h)
    · exact hstuck t h
  rw [htlast, hnone] at hstep
  cases hstep

theorem ends_of_not_returns (hfinite : {t | Reaches next s t}.Finite)
    (hcycle : ¬ ∃ t u, Reaches next s t ∧ next t = some u ∧ Reaches next u t) :
    Ends next s := by
  by_contra hends
  have : Finite {t // Reaches next s t} := hfinite
  let later : {t // Reaches next s t} → {t // Reaches next s t} → Prop :=
    fun a b => Reaches₁ next b.1 a.1
  have : IsTrans _ later := ⟨fun a b c hab hbc => hbc.trans hab⟩
  have : Std.Irrefl later := ⟨fun a ha => by
    obtain ⟨u, hu, hback⟩ := TransGen.head'_iff.mp ha
    exact hcycle ⟨a.1, u, a.2, hu, hback⟩⟩
  have hwf := Finite.wellFounded_of_trans_of_irrefl later
  obtain ⟨last, -, hlast⟩ := hwf.has_min Set.univ ⟨⟨s, ReflTransGen.refl⟩, trivial⟩
  cases hnext : next last.1 with
  | none => exact hends ⟨last.1, last.2, hnext⟩
  | some u => exact hlast ⟨u, last.2.tail hnext⟩ trivial (TransGen.single hnext)

/-- The run ends if and only if it returns to no state. -/
theorem ends_iff (hfinite : {t | Reaches next s t}.Finite) :
    Ends next s ↔ ¬ ∃ t u, Reaches next s t ∧ next t = some u ∧ Reaches next u t := by
  refine ⟨?_, ends_of_not_returns hfinite⟩
  rintro hends ⟨t, u, hreach, hstep, hback⟩
  exact not_ends_of_returns hreach hstep hback hends

/-- The run ends if and only if no step that does not raise the measure is taken again. -/
theorem ends_iff_of_measure {α : Type*} [Preorder α] (f : σ → α)
    (hfinite : {t | Reaches next s t}.Finite) :
    Ends next s ↔
      ¬ ∃ t u, Reaches next s t ∧ next t = some u ∧ ¬ f t < f u ∧ Reaches next u t := by
  rw [ends_iff hfinite]
  refine not_congr ⟨?_, ?_⟩
  · rintro ⟨t, u, hreach, hstep, hback⟩
    by_contra hnone
    push Not at hnone
    -- otherwise every step from the state raises the measure, and it is above itself
    have hup : ∀ v, Reaches next u v → f t < f v := by
      intro v hv
      have hends : ∀ {v}, Reaches next t v → Reaches next v t := returns hstep hback
      induction hv with
      | refl => exact by_contra fun hlt => hnone t u hreach hstep hlt hback
      | @tail v w huv hvw ih =>
        refine ih.trans (by_contra fun hlt => ?_)
        have htv : Reaches next t v := ReflTransGen.head hstep huv
        exact hnone v w (hreach.trans htv) hvw hlt
          ((hends (htv.tail hvw)).trans htv)
    exact lt_irrefl _ (hup t hback)
  · rintro ⟨t, u, hreach, hstep, -, hback⟩
    exact ⟨t, u, hreach, hstep, hback⟩

end Alpm.Orbit
