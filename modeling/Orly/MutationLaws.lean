import Orly.Mutation

namespace Orly

/-!
# Algebra of type-checked deferred mutations

On operands the type checker accepts, `mutate` never raises and computes a
total operation of the operand kind.  That operation is associative on every
kind.  It is commutative on integers, booleans and sets, and it is not on
strings, lists and dictionaries, whose `Add` keeps the order of its operands.
-/

/-- The integer operation of a deferred mutator. -/
def combineInt : Mutator → Int64 → Int64 → Int64
  | .mult, value, other => value * other
  | .max, value, other => if value < other then other else value
  | .min, value, other => if other < value then other else value
  | _, value, other => value + other

/-- The boolean operation of a deferred mutator. -/
def combineBool : Mutator → Bool → Bool → Bool
  | .and, value, other => value && other
  | .or, value, other => value || other
  | _, value, other => value ^^ other

/-- The set operation of a deferred mutator. -/
def combineSet [DecidableEq α] : Mutator → Finset α → Finset α → Finset α
  | .union, elements, other => elements ∪ other
  | .intersection, elements, other => elements ∩ other
  | _, elements, other => symmDiff elements other

/-- The value of a type-checked deferred mutation. -/
def combine [DecidableEq α] (mutator : Mutator) : Var α → Var α → Var α
  | .int value, .int other => .int (combineInt mutator value other)
  | .bool value, .bool other => .bool (combineBool mutator value other)
  | .set elements, .set other => .set (combineSet mutator elements other)
  | .str bytes, .str other => .str (bytes ++ other)
  | .list elements, .list other => .list (elements ++ other)
  | .dict entries, .dict other => .dict (other ∪ entries)
  | lhs, _ => lhs

section IntegerOperations

theorem combineInt_max_toInt (value other : Int64) :
    (combineInt .max value other).toInt = max value.toInt other.toInt := by
  simp only [combineInt, Int64.lt_iff_toInt_lt]
  split <;> omega

theorem combineInt_min_toInt (value other : Int64) :
    (combineInt .min value other).toInt = min value.toInt other.toInt := by
  simp only [combineInt, Int64.lt_iff_toInt_lt]
  split <;> omega

theorem combineInt_comm (mutator : Mutator) (value other : Int64) :
    combineInt mutator value other = combineInt mutator other value := by
  cases mutator with
  | mult => exact Int64.mul_comm value other
  | max =>
    apply Int64.toInt_inj.mp
    rw [combineInt_max_toInt, combineInt_max_toInt, max_comm]
  | min =>
    apply Int64.toInt_inj.mp
    rw [combineInt_min_toInt, combineInt_min_toInt, min_comm]
  | _ => exact Int64.add_comm value other

theorem combineInt_assoc (mutator : Mutator) (first second third : Int64) :
    combineInt mutator (combineInt mutator first second) third =
      combineInt mutator first (combineInt mutator second third) := by
  cases mutator with
  | mult => exact Int64.mul_assoc first second third
  | max =>
    apply Int64.toInt_inj.mp
    simp only [combineInt_max_toInt, max_assoc]
  | min =>
    apply Int64.toInt_inj.mp
    simp only [combineInt_min_toInt, min_assoc]
  | _ => exact Int64.add_assoc first second third

end IntegerOperations

theorem combineBool_comm (mutator : Mutator) (value other : Bool) :
    combineBool mutator value other = combineBool mutator other value := by
  cases mutator <;> cases value <;> cases other <;> rfl

theorem combineBool_assoc (mutator : Mutator) (first second third : Bool) :
    combineBool mutator (combineBool mutator first second) third =
      combineBool mutator first (combineBool mutator second third) := by
  cases mutator <;> cases first <;> cases second <;> cases third <;> rfl

section SetOperations

variable [DecidableEq α]

theorem combineSet_comm (mutator : Mutator) (elements other : Finset α) :
    combineSet mutator elements other = combineSet mutator other elements := by
  cases mutator with
  | union => exact Finset.union_comm elements other
  | intersection => exact Finset.inter_comm elements other
  | _ => exact symmDiff_comm elements other

theorem combineSet_assoc (mutator : Mutator) (first second third : Finset α) :
    combineSet mutator (combineSet mutator first second) third =
      combineSet mutator first (combineSet mutator second third) := by
  cases mutator with
  | union => exact Finset.union_assoc first second third
  | intersection => exact Finset.inter_assoc first second third
  | _ => exact symmDiff_assoc first second third

end SetOperations

section TypedOperands

variable [DecidableEq α] {mutator : Mutator}

/-- A combination has the kind of its left operand. -/
theorem combine_kind (lhs rhs : Var α) : (combine mutator lhs rhs).kind = lhs.kind := by
  cases lhs <;> cases rhs <;> rfl

/-- On operands the type checker accepts, the dispatch returns `combine`. -/
theorem mutate_eq_combine {lhs rhs : Var α} (accepted : deferOperand mutator lhs.kind = true)
    (sameKind : rhs.kind = lhs.kind) :
    mutate lhs mutator rhs = .ok (combine mutator lhs rhs) := by
  cases lhs <;> cases rhs <;> first
      | contradiction
      | cases mutator <;> first | rfl | contradiction | (rename_i value _; cases value <;> rfl)

theorem combine_assoc {first second third : Var α} (secondKind : second.kind = first.kind)
    (thirdKind : third.kind = first.kind) :
    combine mutator (combine mutator first second) third =
      combine mutator first (combine mutator second third) := by
  cases first <;> cases second <;> first
      | contradiction
      | cases third <;>
        first
          | contradiction
          | simp [combine, combineInt_assoc, combineBool_assoc,
              combineSet_assoc, Finmap.union_assoc]

theorem combine_comm {lhs rhs : Var α} (orderFree : lhs.kind.orderFree = true)
    (sameKind : rhs.kind = lhs.kind) :
    combine mutator lhs rhs = combine mutator rhs lhs := by
  cases lhs <;> cases rhs <;> first
      | contradiction
      | simp [combine, combineInt_comm mutator, combineBool_comm mutator,
          combineSet_comm mutator]

end TypedOperands

end Orly
