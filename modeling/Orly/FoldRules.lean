import Mathlib

/-!
# Rules for left folds

An invariant that every turn keeps holds at the end; a property that one turn
establishes and every later turn keeps holds at the end too.
-/

namespace FoldRules

open List

variable {State Item : Type*} {step : State → Item → State}

/-- What every turn keeps, the fold keeps. -/
theorem foldl_keeps (Invariant : State → Prop) (items : List Item)
    (keeps : ∀ item ∈ items, ∀ state, Invariant state → Invariant (step state item)) {start : State}
    (initial : Invariant start) :
    Invariant (items.foldl step start) := by
  induction items generalizing start with
  | nil => exact initial
  | cons item items ih =>
    rw [foldl_cons]
    refine ih ?_ (keeps item mem_cons_self start initial)
    exact fun other mem => keeps other (mem_cons_of_mem _ mem)

/-- What one turn establishes, under an invariant, and the others keep, holds at the
end. -/
theorem foldl_establishes (Invariant Property : State → Prop) (items : List Item)
    (keeps : ∀ item ∈ items, ∀ state, Invariant state → Invariant (step state item))
    (stays : ∀ item ∈ items, ∀ state, Invariant state → Property state → Property (step state item))
    {turn : Item} (mem : turn ∈ items)
    (establishes : ∀ state, Invariant state → Property (step state turn)) {start : State}
    (initial : Invariant start) :
    Property (items.foldl step start) := by
  obtain ⟨earlier, later, rfl⟩ := append_of_mem mem
  rw [foldl_append, foldl_cons]
  have reached : Invariant (earlier.foldl step start) :=
    foldl_keeps Invariant earlier
      (fun item inEarlier => keeps item (mem_append_left _ inEarlier)) initial
  let Both := fun state => Invariant state ∧ Property state
  have atTurn : Both (step (earlier.foldl step start) turn) :=
    ⟨keeps turn mem _ reached, establishes _ reached⟩
  have atEnd : Both (later.foldl step (step (earlier.foldl step start) turn)) := by
    refine foldl_keeps Both later (fun item inLater state both => ?_) atTurn
    have inItems : item ∈ earlier ++ turn :: later := mem_append_right _ (mem_cons_of_mem _ inLater)
    exact ⟨keeps item inItems state both.1, stays item inItems state both.1 both.2⟩
  exact atEnd.2

end FoldRules
