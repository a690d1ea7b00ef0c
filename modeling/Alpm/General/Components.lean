import Mathlib.Data.List.Basic
import Mathlib.Logic.Function.Basic

/-!
# Runs on the components of a state

A state is a family of components, and an event changes the component of its key only, or fails.
What a run ends with is then decided for each component by its own events
(`foldlM_componentStep_eq_some_iff`), so events of different keys may be interleaved in any way
(`foldlM_componentStep_congr`).

Failure is part of the statement: a run as a whole has a result if and only if the run of every
component has one.  Where an event of one key fails in one order of the run, it fails in every other
order that has the same events of that key before it.
-/

namespace Alpm

variable {κ τ ε : Type*} [DecidableEq κ] {key : ε → κ} {f : ε → τ → Option τ}

/-- An event on the component of its key. -/
def componentStep (key : ε → κ) (f : ε → τ → Option τ) (s : κ → τ) (e : ε) : Option (κ → τ) :=
  (f e (s (key e))).map (Function.update s (key e))

/-- The events of one key. -/
def eventsOf (key : ε → κ) (k : κ) (events : List ε) : List ε := events.filter (key · = k)

theorem eventsOf_cons_self (e : ε) (events : List ε) :
    eventsOf key (key e) (e :: events) = e :: eventsOf key (key e) events :=
  List.filter_cons_of_pos (by simp)

theorem eventsOf_cons_of_ne {e : ε} {k : κ} (h : key e ≠ k) (events : List ε) :
    eventsOf key k (e :: events) = eventsOf key k events :=
  List.filter_cons_of_neg (by simpa using h)

/-- **A run component by component.**  The run has a result if and only if the events of every key
have one on their component, and the components of the result are theirs.  An induction over the
events: the first event belongs to the run of its key and to no other one. -/
theorem foldlM_componentStep_eq_some_iff {s t : κ → τ} {events : List ε} :
    events.foldlM (componentStep key f) s = some t ↔
      ∀ k, (eventsOf key k events).foldlM (fun x e => f e x) (s k) = some (t k) := by
  induction events generalizing s with
  | nil =>
    have hnil : ∀ k, eventsOf key k ([] : List ε) = [] := fun _ => rfl
    simp only [hnil, List.foldlM_nil, Option.pure_def, Option.some.injEq]
    exact funext_iff
  | cons e events ih =>
    rw [List.foldlM_cons, Option.bind_eq_bind, componentStep]
    cases hstep : f e (s (key e)) with
    | none =>
      rw [Option.map_none, Option.bind_none]
      constructor
      · intro h
        cases h
      · intro h
        have hkey := h (key e)
        rw [eventsOf_cons_self, List.foldlM_cons, hstep] at hkey
        cases hkey
    | some x =>
      rw [Option.map_some, Option.bind_some, ih]
      refine forall_congr' fun k => ?_
      by_cases hk : key e = k
      · subst hk
        rw [Function.update_self, eventsOf_cons_self, List.foldlM_cons, hstep]
        rfl
      · rw [Function.update_of_ne (Ne.symm hk), eventsOf_cons_of_ne hk]

/-- **Events of different keys** may come in any order: two runs with the same events of each key,
in the same order, have the same result, or both have none. -/
theorem foldlM_componentStep_congr {events events' : List ε}
    (h : ∀ k, eventsOf key k events = eventsOf key k events') (s : κ → τ) :
    events.foldlM (componentStep key f) s = events'.foldlM (componentStep key f) s := by
  refine Option.ext fun t => ?_
  rw [foldlM_componentStep_eq_some_iff, foldlM_componentStep_eq_some_iff]
  simp only [h]

end Alpm
