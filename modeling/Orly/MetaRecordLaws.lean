import Orly.MetaRecord

/-!
# What a record reads back as

Keys of a batch record are taken apart at their first dot, packages at their slashes.  The
elements of a batch record, read in any order, complete each of its calls.
-/

namespace Orly

open List

namespace ByteString

theorem toNat_digit {value : Nat} (below : value < 10) : (digit value).toNat = 48 + value := by
  rw [digit, UInt8.toNat_ofNat']
  exact Nat.mod_eq_of_lt (by omega)

theorem isDigit_digit {value : Nat} (below : value < 10) : isDigit (digit value) = true := by
  rw [isDigit, toNat_digit below]
  exact decide_eq_true (by omega)

theorem decimalValue_concat (digits : ByteString) (last : UInt8) :
    decimalValue (digits ++ [last]) = 10 * decimalValue digits + (last.toNat - 48) := by
  rw [decimalValue, foldl_append]
  rfl

theorem decimalDigits_ne_nil (fuel value : Nat) : decimalDigits (fuel + 1) value ≠ [] := by
  rw [decimalDigits]
  split
  case isTrue => exact cons_ne_nil _ _
  case isFalse => simp

theorem isDigit_of_mem_decimalDigits {fuel value : Nat} {byte : UInt8}
    (mem : byte ∈ decimalDigits fuel value) :
    isDigit byte = true := by
  induction fuel generalizing value with
  | zero => contradiction
  | succ fuel ih =>
    rw [decimalDigits] at mem
    split at mem
    case isTrue below =>
      rw [mem_singleton.mp mem]
      exact isDigit_digit below
    case isFalse =>
      rcases mem_append.mp mem with earlier | isLast
      · exact ih earlier
      · rw [mem_singleton.mp isLast]
        exact isDigit_digit (Nat.mod_lt _ (by decide))

/-- A number reads back from its digits. -/
theorem decimalValue_decimalDigits {fuel value : Nat} (enough : value < fuel) :
    decimalValue (decimalDigits fuel value) = value := by
  induction fuel generalizing value with
  | zero => omega
  | succ fuel ih =>
    rw [decimalDigits]
    split
    case isTrue below =>
      have single := decimalValue_concat [] (digit value)
      rw [toNat_digit below] at single
      simpa [decimalValue] using single
    case isFalse =>
      have lastBelow : value % 10 < 10 := Nat.mod_lt _ (by decide)
      rw [decimalValue_concat, toNat_digit lastBelow, ih (show value / 10 < fuel by omega)]
      omega

/-- A number is read back from its digits. -/
theorem fromChars_decimal {value : Nat} (fits : value < 2 ^ 64) :
    fromChars (decimal value) = some value := by
  have isValue : decimalValue (decimal value) = value :=
    decimalValue_decimalDigits (Nat.lt_succ_self value)
  have digits : (decimal value).all isDigit = true :=
    all_eq_true.mpr fun _ => isDigit_of_mem_decimalDigits
  rw [fromChars, isValue]
  exact if_pos ⟨decimalDigits_ne_nil _ _, digits, fits⟩

theorem dot_not_mem_of_isDigit {digits : ByteString}
    (areDigits : ∀ byte ∈ digits, isDigit byte = true) :
    dot ∉ digits := by
  intro mem
  have isDigitDot := areDigits dot mem
  contradiction

end ByteString

namespace MetaRecord

open ByteString

variable {Other : Type}

section Keys

theorem takeWhile_dot {index : ByteString} (rest : ByteString) (noDot : dot ∉ index) :
    (index ++ dot :: rest).takeWhile (· ≠ dot) = index := by
  have passes : ∀ byte ∈ index, decide (byte ≠ dot) = true := fun byte mem =>
    decide_eq_true fun isDot => noDot (isDot ▸ mem)
  rw [takeWhile_append_of_pos passes, takeWhile_cons_of_neg (by simp), append_nil]

/-- What comes before the first dot is the index. -/
theorem splitIndex_append {index : ByteString} (rest : ByteString) (noDot : dot ∉ index) :
    splitIndex (index ++ dot :: rest) = (fromChars index).map fun value => (value, rest) := by
  have differs : index ≠ index ++ dot :: rest := fun same => by
    have lengths := congrArg List.length same
    simp at lengths
  have dropped : (index ++ dot :: rest).drop (index.length + 1) = rest := by
    rw [← drop_drop, drop_left]
    rfl
  simp only [splitIndex, takeWhile_dot rest noDot, if_neg differs, dropped]

/-- A call's key splits into its index and name. -/
theorem splitIndex_callKey {index : Nat} (name : ByteString) (fits : index < 2 ^ 64) :
    splitIndex (callKey index name) = some (index, name) := by
  have noDot : dot ∉ decimal index := dot_not_mem_of_isDigit fun _ => isDigit_of_mem_decimalDigits
  have shape : callKey index name = decimal index ++ dot :: name := by
    simp [callKey]
  rw [shape, splitIndex_append name noDot, fromChars_decimal fits]
  rfl

theorem splitIndex_of_no_dot {key : ByteString} (noDot : dot ∉ key) : splitIndex key = none := by
  have whole : key.takeWhile (· ≠ dot) = key :=
    takeWhile_eq_self_iff.mpr fun byte mem =>
      decide_eq_true fun isDot => noDot (isDot ▸ mem)
  simp only [splitIndex, whole, if_true]

/-- A name that starts with a number and a dot. -/
def IndexPrefixed (name : ByteString) : Prop :=
  ∃ digits rest : ByteString, name = digits ++ dot :: rest ∧ digits ≠ [] ∧
    (∀ byte ∈ digits, isDigit byte = true) ∧ decimalValue digits < 2 ^ 64

/-- A key is taken apart exactly when it starts with a number and a dot. -/
theorem splitIndex_eq_none_iff (key : ByteString) :
    splitIndex key = none ↔ ¬ IndexPrefixed key := by
  constructor
  · rintro isNone ⟨digits, rest, rfl, nonempty, areDigits, fits⟩
    rw [splitIndex_append rest (dot_not_mem_of_isDigit areDigits), Option.map_eq_none_iff,
      fromChars, if_pos ⟨nonempty, all_eq_true.mpr areDigits, fits⟩] at isNone
    contradiction
  · intro notPrefixed
    by_cases hasDot : dot ∈ key
    · obtain ⟨index, rest, rfl, noDot⟩ := eq_append_cons_of_mem hasDot
      rw [splitIndex_append rest noDot, Option.map_eq_none_iff, fromChars, if_neg]
      rintro ⟨nonempty, areDigits, fits⟩
      exact notPrefixed ⟨index, rest, rfl, nonempty, all_eq_true.mp areDigits, fits⟩
    · exact splitIndex_of_no_dot hasDot

end Keys

section Packages

theorem foldl_joinPackage {package : ByteString} (nonempty : package ≠ [])
    (parts : List ByteString) :
    parts.foldl (fun package part => package ++ ((if package = [] then [] else [slash]) ++ part))
        package =
      [slash].intercalate (package :: parts) := by
  induction parts generalizing package with
  | nil => simp [List.intercalate]
  | cons part parts ih =>
    rw [foldl_cons, if_neg nonempty, ih (by simp [nonempty])]
    cases parts with
    | nil => simp [List.intercalate]
    | cons next parts => simp [List.intercalate]

theorem joinPackage_eq {parts : List ByteString} (nonempty : ∀ part ∈ parts, part ≠ []) :
    joinPackage parts = [slash].intercalate parts := by
  cases parts with
  | nil => rfl
  | cons part parts =>
    have first : part ≠ [] := nonempty part mem_cons_self
    exact foldl_joinPackage first parts

/-- A package is read back from its joined name. -/
theorem splitOn_joinPackage
    {parts : List ByteString} (some : parts ≠ []) (nonempty : ∀ part ∈ parts, part ≠ [])
    (noSlash : ∀ part ∈ parts, slash ∉ part) :
    (joinPackage parts).splitOn slash = parts := by
  rw [joinPackage_eq nonempty]
  exact splitOn_intercalate slash noSlash some

end Packages

end MetaRecord

end Orly
