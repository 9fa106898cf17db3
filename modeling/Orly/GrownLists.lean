import Mathlib

/-!
# Lists grown at their end

A history is a list that only grows at its end.  What each item owes to the items
before it then stays true.
-/

namespace GrownLists

open List

variable {Item : Type*} {Follows : List Item → Item → Prop}

/-- Every item stands in the relation to the items before it. -/
def Grown (Follows : List Item → Item → Prop) (items : List Item) : Prop :=
  ∀ before item after, items = before ++ item :: after → Follows before item

theorem grown_nil : Grown Follows [] := by
  intro before item after split
  simp at split

namespace Grown

variable {items first second : List Item} {item : Item}

theorem left (grown : Grown Follows (first ++ second)) : Grown Follows first := by
  intro before item after split
  refine grown before item (after ++ second) ?_
  rw [split, append_assoc, cons_append]

/-- One more item needs to follow those that are there. -/
theorem concat (grown : Grown Follows items) (follows : Follows items item) :
    Grown Follows (items ++ [item]) := by
  intro before other after split
  rcases eq_nil_or_concat after with rfl | ⟨after, last, rfl⟩
  · obtain ⟨rfl, itemEq⟩ := append_inj' split rfl
    obtain rfl : item = other := by simpa using itemEq
    exact follows
  · have regrouped : items ++ [item] = (before ++ other :: after) ++ [last] := by
      rw [split, concat_eq_append, append_assoc, cons_append]
    exact grown before other after (append_inj' regrouped rfl).1

theorem last (grown : Grown Follows (items ++ [item])) : Follows items item :=
  grown items item [] rfl

end Grown

end GrownLists
