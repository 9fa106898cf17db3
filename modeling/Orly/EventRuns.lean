import Mathlib

/-!
# Runs of an event-driven machine

A machine is a partial step function.  A run takes events that the machine accepts
and that a discipline on the environment allows; an invariant that every such step
preserves holds in every state a run reaches.
-/

namespace EventRuns

variable {State Event : Type*}

/-- The states that allowed events lead to from a start state. -/
inductive Reaches (step : State → Event → Option State) (Allowed : State → Event → Prop)
    (start : State) : State → Prop
  | refl : Reaches step Allowed start start
  | tail
      {before after : State}
      {event : Event}
      (reached : Reaches step Allowed start before)
      (allowed : Allowed before event)
      (stepped : step before event = some after) :
      Reaches step Allowed start after

section Rules

variable {step : State → Event → Option State} {Allowed : State → Event → Prop}
  {start middle final : State}

/-- The invariant rule. -/
theorem Reaches.invariant {Invariant : State → Prop} (initial : Invariant start)
    (preserved : ∀ before event after, Invariant before → Allowed before event →
        step before event = some after → Invariant after)
    (reached : Reaches step Allowed start final) :
    Invariant final := by
  induction reached with
  | refl => exact initial
  | tail _ allowed stepped ih =>
    exact preserved _ _ _ ih allowed stepped

theorem Reaches.trans (first : Reaches step Allowed start middle)
    (second : Reaches step Allowed middle final) :
    Reaches step Allowed start final := by
  induction second with
  | refl => exact first
  | tail _ allowed stepped ih =>
    exact ih.tail allowed stepped

theorem Reaches.mono {Weaker : State → Event → Prop}
    (weaken : ∀ state event, Allowed state event → Weaker state event)
    (reached : Reaches step Allowed start final) :
    Reaches step Weaker start final := by
  induction reached with
  | refl => exact .refl
  | tail _ allowed stepped ih =>
    exact ih.tail (weaken _ _ allowed) stepped

end Rules

section Execution

variable (step : State → Event → Option State) (Allowed : State → Event → Prop)
  [∀ state event, Decidable (Allowed state event)]

/-- Run a list of events, as long as each is allowed and accepted. -/
def run (state : State) : List Event → Option State
  | [] => some state
  | event :: events =>
    if Allowed state event then
      (step state event).bind fun next => run next events
    else
      none

variable {step Allowed}

/-- What a list of events runs to is reached. -/
theorem reaches_of_run {state final : State} {events : List Event}
    (ran : run step Allowed state events = some final) :
    Reaches step Allowed state final := by
  induction events generalizing state with
  | nil =>
    obtain rfl : state = final := Option.some.inj ran
    exact .refl
  | cons event events ih =>
    rw [run] at ran
    obtain ⟨allowed, ran⟩ := Option.ite_none_right_eq_some.mp ran
    obtain ⟨next, stepped, rest⟩ := Option.bind_eq_some_iff.mp ran
    exact (Reaches.refl.tail allowed stepped).trans (ih rest)

end Execution

/-- A computation that goes through goes through each of its parts. -/
theorem exists_of_bind_ok {ε α β : Type} {first : Except ε α} {next : α → Except ε β} {result : β}
    (ok : (first >>= next) = .ok result) :
    ∃ value, first = .ok value ∧ next value = .ok result := by
  cases first with
  | error error => contradiction
  | ok value => exact ⟨value, rfl, ok⟩

end EventRuns
