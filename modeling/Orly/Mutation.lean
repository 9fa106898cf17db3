import Mathlib

namespace Orly

/-!
# Mutators and the values they act on

`Rt::Mutate` dispatches one mutation `lhs OP rhs` on run-time typed values.
This module embeds the value kinds a stored key can hold, the dispatch with
its error texts, and the two tables that decide which mutators may be committed
without reading the key first.

Container elements are opaque to every mutator: they are only ever compared
for equality.  The model therefore keeps them as an arbitrary type.
-/

/-- The mutators of `TMutator`, in the order of the source enumeration. -/
inductive Mutator where
  | add
  | and
  | assign
  | div
  | exp
  | intersection
  | max
  | min
  | mod
  | mult
  | or
  | symmetricDiff
  | sub
  | union
  | xor
  deriving Repr, DecidableEq

/-- What a failed dispatch raises. -/
inductive RuntimeError where
  /-- `Rt::TSystemError` with its message. -/
  | systemError (message : String)
  /-- Integer division the machine refuses. -/
  | arithmetic
  /-- Integer power, which the source computes through a double. -/
  | floatingPoint
  deriving Repr, DecidableEq

/-- A stored value.  `str` is the byte string of `std::string`. -/
inductive Var (α : Type) where
  | bool (value : Bool)
  | int (value : Int64)
  | str (bytes : List UInt8)
  | list (elements : List α)
  | set (elements : Finset α)
  | dict (entries : Finmap fun _ : α => α)
  deriving DecidableEq

/-- The run-time type of a value, up to its element type. -/
inductive VarKind where
  | bool
  | int
  | str
  | list
  | set
  | dict
  deriving Repr, DecidableEq

namespace Var

/-- The kind `GetType` reports. -/
def kind : Var α → VarKind
  | .bool _ => .bool
  | .int _ => .int
  | .str _ => .str
  | .list _ => .list
  | .set _ => .set
  | .dict _ => .dict

end Var

/-- The name an error text gives to a kind. -/
def VarKind.errorName : VarKind → String
  | .bool => "Bool"
  | .int => "Int"
  | .str => "str"
  | .list => "list"
  | .set => "Set"
  | .dict => "Dict"

/-- The name an error text gives to a mutator; three texts have slips of their own. -/
def Mutator.errorName : Mutator → VarKind → String
  | .add, _ => "Add"
  | .and, _ => "And"
  | .assign, _ => "Assign"
  | .div, _ => "Div"
  | .exp, _ => "Exp"
  | .intersection, _ => "Intersection"
  | .max, _ => "Max"
  | .min, _ => "Min"
  | .mod, _ => "Mod"
  | .mult, .bool => "Mul"
  | .mult, .str => "Mul"
  | .mult, _ => "Mult"
  | .or, _ => "Or"
  | .symmetricDiff, .str => "SymmetricDiff Xor"
  | .symmetricDiff, _ => "SymmetricDiff"
  | .sub, _ => "Sub"
  | .union, .str => "Union Or"
  | .union, _ => "Union"
  | .xor, _ => "Xor"

/-- The error of a mutator its left operand does not support. -/
def notSupported (mutator : Mutator) (kind : VarKind) : RuntimeError :=
  match mutator with
  | .max => .systemError "Max (>?=) is only supported on int and real values."
  | .min => .systemError "Min (<?=) is only supported on int and real values."
  | _ =>
    .systemError
      (mutator.errorName kind ++ " not supported on " ++ kind.errorName ++ ".")

/-- The error of a right operand of the wrong kind (`TVar::TDt<TVal>::As`). -/
def badCast : VarKind → RuntimeError
  | .bool => .systemError "Trying to cast dynamic Var to bool. Var is not a bool."
  | .int => .systemError "Trying to cast dynamic Var to int. Var is not an int."
  | .str => .systemError "Trying to cast dynamic Var to string. Var is not a string."
  | .list => .systemError "Trying to cast dynamic Var to list. Var is not a list."
  | .set => .systemError "Trying to cast dynamic Var to set. Var is not a set."
  | .dict => .systemError "Trying to cast dynamic Var to map. Var is not a map."

namespace Var

/-- `TDt<bool>::As`. -/
def asBool : Var α → Except RuntimeError Bool
  | .bool value => .ok value
  | _ => .error (badCast .bool)

/-- `TDt<int64_t>::As`. -/
def asInt : Var α → Except RuntimeError Int64
  | .int value => .ok value
  | _ => .error (badCast .int)

/-- `TDt<std::string>::As`. -/
def asStr : Var α → Except RuntimeError (List UInt8)
  | .str bytes => .ok bytes
  | _ => .error (badCast .str)

/-- `TDt<TListType>::As`. -/
def asList : Var α → Except RuntimeError (List α)
  | .list elements => .ok elements
  | _ => .error (badCast .list)

/-- `TDt<TSetType>::As`. -/
def asSet : Var α → Except RuntimeError (Finset α)
  | .set elements => .ok elements
  | _ => .error (badCast .set)

/-- `TDt<TDictType>::As`. -/
def asDict : Var α → Except RuntimeError (Finmap fun _ : α => α)
  | .dict entries => .ok entries
  | _ => .error (badCast .dict)

end Var

/-- The mutators of `TBool`. -/
def mutateBool (value : Bool) (mutator : Mutator) (rhs : Var α) : Except RuntimeError (Var α) :=
  match mutator with
  | .and => if value then return .bool (← rhs.asBool) else return .bool false
  | .or => if value then return .bool true else return .bool (← rhs.asBool)
  | .xor => return .bool (value ^^ (← rhs.asBool))
  | .assign => return rhs
  | _ => throw (notSupported mutator .bool)

/-- The mutators of `TInt`.  Sums and products wrap around, and a power is a `double` that is
exact up to `2 ^ 53`. -/
def mutateInt (value : Int64) (mutator : Mutator) (rhs : Var α) : Except RuntimeError (Var α) :=
  match mutator with
  | .add => return .int (value + (← rhs.asInt))
  | .sub => return .int (value - (← rhs.asInt))
  | .mult => return .int (value * (← rhs.asInt))
  | .div => do
      let divisor ← rhs.asInt
      if divisor = 0 ∨ (value = Int64.minValue ∧ divisor = -1) then
        throw .arithmetic
      return .int (value / divisor)
  | .mod => do
      let divisor ← rhs.asInt
      if divisor = 0 ∨ (value = Int64.minValue ∧ divisor = -1) then
        throw .arithmetic
      return .int (value % divisor)
  | .exp => do
      let exponent ← rhs.asInt
      let power := value.toInt ^ exponent.toInt.toNat
      if exponent < 0 ∨ 2 ^ 53 < power.natAbs then
        throw .floatingPoint
      return .int (.ofInt power)
  | .max => do
      let other ← rhs.asInt
      return .int (if value < other then other else value)
  | .min => do
      let other ← rhs.asInt
      return .int (if other < value then other else value)
  | .assign => return rhs
  | _ => throw (notSupported mutator .int)

/-- The mutators of `TStr`. -/
def mutateStr (bytes : List UInt8) (mutator : Mutator)
    (rhs : Var α) : Except RuntimeError (Var α) :=
  match mutator with
  | .add => return .str (bytes ++ (← rhs.asStr))
  | .assign => return rhs
  | _ => throw (notSupported mutator .str)

/-- The mutators of `TList`. -/
def mutateList (elements : List α) (mutator : Mutator)
    (rhs : Var α) : Except RuntimeError (Var α) :=
  match mutator with
  | .add => return .list (elements ++ (← rhs.asList))
  | .assign => return rhs
  | _ => throw (notSupported mutator .list)

/-- The mutators of `TSet`. -/
def mutateSet [DecidableEq α] (elements : Finset α) (mutator : Mutator)
    (rhs : Var α) : Except RuntimeError (Var α) :=
  match mutator with
  | .union => return .set (elements ∪ (← rhs.asSet))
  | .intersection => return .set (elements ∩ (← rhs.asSet))
  | .symmetricDiff => return .set (symmDiff elements (← rhs.asSet))
  | .sub => return .set (elements \ (← rhs.asSet))
  | .assign => return rhs
  | _ => throw (notSupported mutator .set)

/-- Erasing two keys of a dictionary may be done in either order. -/
instance erase_rightCommutative [DecidableEq α] : RightCommutative
      (fun (entries : Finmap fun _ : α => α) (key : α) => entries.erase key) where
  right_comm entries first second := by
    rw [Finmap.erase_erase]

/-- Erase every key of a set, as `TDict::Sub` does. -/
def eraseAll [DecidableEq α] (entries : Finmap fun _ : α => α)
    (keys : Finset α) : Finmap fun _ : α => α :=
  keys.val.foldl (fun remaining key => remaining.erase key) entries

/--
The mutators of `TDict`.  `Add` inserts every pair of the right operand and
overwrites the pairs already there, so the right operand wins.
-/
def mutateDict [DecidableEq α] (entries : Finmap fun _ : α => α) (mutator : Mutator)
    (rhs : Var α) : Except RuntimeError (Var α) :=
  match mutator with
  | .add => return .dict ((← rhs.asDict) ∪ entries)
  | .sub => return .dict (eraseAll entries (← rhs.asSet))
  | .assign => return rhs
  | _ => throw (notSupported mutator .dict)

/-- `Rt::Mutate`: dispatch on the kind of the left operand. -/
def mutate [DecidableEq α] (lhs : Var α) (mutator : Mutator)
    (rhs : Var α) : Except RuntimeError (Var α) :=
  match lhs with
  | .bool value => mutateBool value mutator rhs
  | .int value => mutateInt value mutator rhs
  | .str bytes => mutateStr bytes mutator rhs
  | .list elements => mutateList elements mutator rhs
  | .set elements => mutateSet elements mutator rhs
  | .dict entries => mutateDict entries mutator rhs

/--
`IsDeferSafeCommutative`: the mutators a session commits as `{OP, rhs}`
without reading the key.
-/
def isDeferSafeCommutative : Mutator → Bool
  | .add => true
  | .mult => true
  | .and => true
  | .or => true
  | .xor => true
  | .union => true
  | .intersection => true
  | .symmetricDiff => true
  | .min => true
  | .max => true
  | .assign => false
  | .sub => false
  | .div => false
  | .mod => false
  | .exp => false

/--
The kinds `TMutate::TypeCheck` accepts on both sides of a defer-safe mutator:
`TAddVisitor`, `TLogicalOpsVisitor`, `TSetOpsVisitor`, `TMultVisitor` and
`TMinMaxVisitor` restricted to the kinds modelled here.
-/
def deferOperand : Mutator → VarKind → Bool
  | .add, .int => true
  | .add, .str => true
  | .add, .list => true
  | .add, .dict => true
  | .and, .bool => true
  | .or, .bool => true
  | .xor, .bool => true
  | .union, .set => true
  | .intersection, .set => true
  | .symmetricDiff, .set => true
  | .mult, .int => true
  | .min, .int => true
  | .max, .int => true
  | _, _ => false

/-- A type-checked operand kind belongs to a mutator that may be deferred. -/
theorem isDeferSafeCommutative_of_deferOperand {mutator : Mutator} {kind : VarKind}
    (accepted : deferOperand mutator kind = true) :
    isDeferSafeCommutative mutator = true := by
  cases mutator <;> first | rfl | simp [deferOperand] at accepted

/-- A deferred mutator is never the assignment. -/
theorem ne_assign_of_isDeferSafeCommutative {mutator : Mutator}
    (safe : isDeferSafeCommutative mutator = true) :
    mutator ≠ .assign := by
  rintro rfl
  simp [isDeferSafeCommutative] at safe

/-- The kinds on which every accepted deferred mutator is commutative. -/
def VarKind.orderFree : VarKind → Bool
  | .bool => true
  | .int => true
  | .set => true
  | .str => false
  | .list => false
  | .dict => false

end Orly
