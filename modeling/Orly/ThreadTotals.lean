import Mathlib

/-!
# Totals over threads

Any number of threads, each at a place of its program, and a counter that each of them
raises and lowers as it moves.  The counter is right when it is the total of what the
threads stand for at their places; a move of one thread changes the total by what that
thread's place stands for.
-/

namespace ThreadTotals

open scoped BigOperators

variable {Thread Place Amount : Type} [Fintype Thread] [DecidableEq Thread]

/-- What all threads together stand for. -/
def total [AddCommMonoid Amount] (weight : Place → Amount) (place : Thread → Place) : Amount :=
  ∑ thread, weight (place thread)

/-- One thread moves. -/
theorem total_update [AddCommMonoid Amount] (weight : Place → Amount) (place : Thread → Place)
    (thread : Thread) (next : Place) :
    total weight (Function.update place thread next) + weight (place thread) =
      total weight place + weight next := by
  have after : total weight (Function.update place thread next) =
      weight next + ∑ other ∈ Finset.univ \ {thread}, weight (place other) := by
    have moved : ∀ other, weight (Function.update place thread next other) =
        Function.update (fun other => weight (place other)) thread (weight next) other := by
      intro other
      by_cases same : other = thread
      · rw [same, Function.update_self, Function.update_self]
      · rw [Function.update_of_ne same, Function.update_of_ne same]
    rw [total, Finset.sum_congr rfl fun other _ => moved other,
      Finset.sum_update_of_mem (Finset.mem_univ thread)]
  have before : total weight place =
      weight (place thread) + ∑ other ∈ Finset.univ \ {thread}, weight (place other) := by
    rw [total, ← Finset.add_sum_erase _ _ (Finset.mem_univ thread), Finset.sdiff_singleton_eq_erase]
  rw [after, before]
  ac_rfl

omit [DecidableEq Thread] in
/-- A thread stands for no more than all of them. -/
theorem le_total (weight : Place → Nat) (place : Thread → Place) (thread : Thread) :
    weight (place thread) ≤ total weight place := by
  have nonnegative : ∀ other ∈ Finset.univ, 0 ≤ weight (place other) := fun _ _ => Nat.zero_le _
  exact Finset.single_le_sum nonnegative (Finset.mem_univ thread)

omit [DecidableEq Thread] in
theorem total_eq_zero_iff {weight : Place → Nat} {place : Thread → Place} :
    total weight place = 0 ↔ ∀ thread, weight (place thread) = 0 := by
  rw [total, Finset.sum_eq_zero_iff]
  simp

end ThreadTotals
