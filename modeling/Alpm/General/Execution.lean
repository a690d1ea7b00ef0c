import Mathlib.Data.Option.Basic

/-!
# Runs of a state machine

A machine is a partial step function on states and events: a step that is `none` cannot happen in
that state.  `Execution` is the set of states that its runs reach when every event meets a condition
on the state before it, and `Execution.invariant` is the rule by which a property of all of them is
proved: it holds at the start, and every allowed event keeps it.

The condition belongs to the relation and not to the machine, because the same machine is run with
and without it: a property that fails in some run of the machine may hold in every run whose events
all meet the condition, and `Execution.of_guard` turns a machine that refuses the other events into
such runs.

Properties that count events are proved with a potential instead of an invariant: if a counted event
lowers it and no event raises it, its value at the start bounds the number of counted events
(`potential_add_countP_le`).
-/

namespace Alpm

variable {σ ε : Type*} {step : σ → ε → Option σ} {allowed : σ → ε → Prop} {s t : σ}

/-- The states reached from `s` by events that are allowed where they happen. -/
inductive Execution (step : σ → ε → Option σ) (allowed : σ → ε → Prop) (s : σ) : σ → Prop
  | start : Execution step allowed s s
  | next {t u : σ} {e : ε} (hrun : Execution step allowed s t) (hallowed : allowed t e)
      (hstep : step t e = some u) : Execution step allowed s u

/-- What holds at the start and is kept by every allowed event holds along every run. -/
theorem Execution.invariant {I : σ → Prop} (hrun : Execution step allowed s t) (hstart : I s)
    (hkeep : ∀ t e u, I t → allowed t e → step t e = some u → I u) : I t := by
  induction hrun with
  | start => exact hstart
  | next _ hallowed hstep ih => exact hkeep _ _ _ ih hallowed hstep

theorem Execution.mono {allowed' : σ → ε → Prop} (h : ∀ s e, allowed s e → allowed' s e)
    (hrun : Execution step allowed s t) : Execution step allowed' s t := by
  induction hrun with
  | start => exact .start
  | next _ hallowed hstep ih => exact ih.next (h _ _ hallowed) hstep

/-- A run of the machine that makes only the steps that are allowed. -/
theorem Execution.of_guard [∀ s e, Decidable (allowed s e)]
    (h : Execution (fun s e => if allowed s e then step s e else none) (fun _ _ => True) s t) :
    Execution step allowed s t := by
  induction h with
  | start => exact .start
  | next _ _ hstep ih =>
    obtain ⟨hallowed, hstep⟩ := Option.ite_none_right_eq_some.mp hstep
    exact ih.next hallowed hstep

/-- The state after a list of events. -/
def execute (step : σ → ε → Option σ) (s : σ) (events : List ε) : Option σ :=
  events.foldlM step s

theorem execution_of_execute {events : List ε} (h : execute step s events = some t) :
    Execution step (fun _ _ => True) s t := by
  suffices hfrom : ∀ r, Execution step (fun _ _ => True) s r →
      execute step r events = some t → Execution step (fun _ _ => True) s t from
    hfrom s .start h
  clear h
  induction events with
  | nil =>
    intro r hr h
    obtain rfl : r = t := Option.some.inj h
    exact hr
  | cons e events ih =>
    intro r hr h
    rw [execute, List.foldlM_cons] at h
    obtain ⟨u, hu, h⟩ := Option.bind_eq_some_iff.mp h
    exact ih u (hr.next trivial hu) h

/-- A potential that every counted event lowers, and no event raises, bounds their number. -/
theorem potential_add_countP_le {potential : σ → Nat} {counted : ε → Bool}
    (hstep : ∀ s e t, step s e = some t →
      potential t + (if counted e then 1 else 0) ≤ potential s)
    {events : List ε} (h : execute step s events = some t) :
    potential t + events.countP counted ≤ potential s := by
  induction events generalizing s with
  | nil =>
    obtain rfl : s = t := Option.some.inj h
    exact Nat.le_refl _
  | cons e events ih =>
    rw [execute, List.foldlM_cons] at h
    obtain ⟨u, hu, h⟩ := Option.bind_eq_some_iff.mp h
    have hrest := ih h
    have hhead := hstep s e u hu
    rw [List.countP_cons]
    omega

end Alpm
