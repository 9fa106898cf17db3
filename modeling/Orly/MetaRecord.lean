import Orly.LittleEndian
import Orly.SortedMap

/-!
# The recorded calls of a transaction

An entry of a transaction's metadata records the calls that ran: one call as its own
package, method and arguments, a batch of them in one flat argument map under the keys of
`encodeBatch`.  `getCalls` reads the calls back, and `hashedBytes` is what the hash of a
list of calls is taken over.
-/

namespace Orly

open LittleEndian

/-- Bytes, as `std::string` holds them. -/
abbrev ByteString := List UInt8

namespace ByteString

/-- Bytes in the order `std::string` compares them in. -/
scoped instance byteOrder : LinearOrder UInt8 where
  le_refl := UInt8.le_refl
  le_trans := fun _ _ _ => UInt8.le_trans
  le_antisymm := fun _ _ => UInt8.le_antisymm
  le_total := UInt8.le_total
  lt_iff_le_not_ge := fun _ _ =>
    ⟨fun below => ⟨UInt8.le_of_lt below, UInt8.not_le.mpr below⟩,
      fun below => UInt8.not_le.mp below.2⟩
  toDecidableLE := inferInstance
  toDecidableLT := inferInstance
  toDecidableEq := inferInstance

/-- The bytes of a literal. -/
def text (literal : String) : ByteString :=
  literal.toList.map fun char => UInt8.ofNat char.toNat

def dot : UInt8 := 46

def slash : UInt8 := 47

def dollar : UInt8 := 36

/-- The digit of a number below ten. -/
def digit (value : Nat) : UInt8 :=
  UInt8.ofNat (48 + value)

def isDigit (byte : UInt8) : Bool :=
  48 ≤ byte.toNat ∧ byte.toNat ≤ 57

/-- The last `fuel` digits of a number. -/
def decimalDigits : Nat → Nat → ByteString
  | 0, _ => []
  | fuel + 1, value =>
    if value < 10 then
      [digit value]
    else
      decimalDigits fuel (value / 10) ++ [digit (value % 10)]

/-- `std::to_string`. -/
def decimal (value : Nat) : ByteString :=
  decimalDigits (value + 1) value

/-- The number that digits stand for. -/
def decimalValue (digits : ByteString) : Nat :=
  digits.foldl (fun value byte => 10 * value + (byte.toNat - 48)) 0

/-- `std::from_chars` of a `size_t` that has to take the whole text. -/
def fromChars (digits : ByteString) : Option Nat :=
  if digits ≠ [] ∧ digits.all isDigit ∧ decimalValue digits < 2 ^ 64 then
    some (decimalValue digits)
  else
    none

end ByteString

open ByteString

namespace MetaRecord

/-- A value of the language, told apart as far as the record reads it. -/
inductive Var (Other : Type) where
  | int (value : Int)
  | str (value : ByteString)
  | other (value : Other)

/-- `TArgByName`. -/
abbrev ArgByName (Other : Type) := SortedMap ByteString (Var Other)

/-- `TCall`: one method call. -/
structure Call (Other : Type) where
  packageFqName : List ByteString
  methodName : ByteString
  argByName : ArgByName Other

/-- `TMetaRecord::TEntry`, as far as its calls go. -/
structure MetaEntry (Other : Type) where
  packageFqName : List ByteString
  methodName : ByteString
  argByName : ArgByName Other

/-- Why a record does not read back. -/
inductive MetaRecordError where
  | countNotPositive
  | notStr (key : ByteString)
  | noCallIndex (key : ByteString)
  | pastCount (key : ByteString) (count : Nat)

/-- The text of the exception. -/
def MetaRecordError.what (error : MetaRecordError) : ByteString :=
  let why :=
    match error with
    | .countNotPositive => text "\"$calls\" is not a positive int"
    | .notStr key => text "\"" ++ key ++ text "\" is not a str"
    | .noCallIndex key => text "batch arg \"" ++ key ++ text "\" has no call index"
    | .pastCount key count =>
      text "batch arg \"" ++ key ++ text "\" names a call past the " ++ decimal count ++
        text " recorded"
  text "malformed meta record (#751): " ++ why

variable {Other : Type}

def callsKey : ByteString := text "$calls"

def packageKey : ByteString := text "$package"

def methodKey : ByteString := text "$method"

def opIdKey : ByteString := text "$op_id"

def opOutcomeKey : ByteString := text "$op_outcome"

/-- `SplitIndex`: a key "<i>.<rest>" as its index and the rest. -/
def splitIndex (key : ByteString) : Option (Nat × ByteString) :=
  let index := key.takeWhile (· ≠ dot)
  if index = key then
    none
  else
    (fromChars index).map fun value => (value, key.drop (index.length + 1))

/-- The parts of a package joined with slashes. -/
def joinPackage (parts : List ByteString) : ByteString :=
  parts.foldl (fun package part => package ++ ((if package = [] then [] else [slash]) ++ part)) []

/-- The key of something that belongs to a call. -/
def callKey (index : Nat) (name : ByteString) : ByteString :=
  decimal index ++ [dot] ++ name

/-- The elements that `EncodeBatch` inserts for one call. -/
def callPairs (mixed : Bool) (call : Call Other) (index : Nat) : List (ByteString × Var Other) :=
  (call.argByName.entries.map fun item => (callKey index item.1, item.2)) ++
    if mixed then
      [(callKey index packageKey, .str (joinPackage call.packageFqName)),
        (callKey index methodKey, .str call.methodName)]
    else
      []

/-- Whether the calls are not all of one method. -/
def isMixed (calls : List (Call Other)) : Bool :=
  match calls with
  | [] => false
  | first :: _ =>
    calls.any fun call =>
      call.packageFqName ≠ first.packageFqName ∨ call.methodName ≠ first.methodName

/-- All elements that `EncodeBatch` inserts, in order. -/
def batchPairs (calls : List (Call Other)) : List (ByteString × Var Other) :=
  (callsKey, .int (Int.bmod calls.length (2 ^ 64))) ::
    calls.zipIdx.flatMap fun call => callPairs (isMixed calls) call.1 call.2

/-- `TEntry::EncodeBatch`. -/
def encodeBatch (calls : List (Call Other)) : ArgByName Other :=
  SortedMap.empty.insertAll (batchPairs calls)

/-- The keys that record an operation id and its outcome. -/
def IsOperationKey (key : ByteString) : Prop :=
  key = opIdKey ∨ key = opOutcomeKey

instance (key : ByteString) : Decidable (IsOperationKey key) :=
  inferInstanceAs (Decidable (_ ∨ _))

/-- `AsStr`. -/
def asStr (value : Var Other) (key : ByteString) : Except MetaRecordError ByteString :=
  match value with
  | .str value => .ok value
  | _ => .error (.notStr key)

/-- What an element of a batch record says about its call. -/
def Call.put (call : Call Other) (key rest : ByteString) (value : Var Other) :
    Except MetaRecordError (Call Other) :=
  if rest = packageKey then do
    let package ← asStr value key
    pure { call with packageFqName := package.splitOn slash }
  else if rest = methodKey then do
    let method ← asStr value key
    pure { call with methodName := method }
  else
    pure { call with argByName := call.argByName.insert rest value }

/-- One turn of the loop of `GetCalls` over a batch record. -/
def takeArg (calls : List (Call Other)) (item : ByteString × Var Other) :
    Except MetaRecordError (List (Call Other)) :=
  if item.1 = callsKey ∨ IsOperationKey item.1 then
    pure calls
  else
    match splitIndex item.1 with
    | none => .error (.noCallIndex item.1)
    | some (index, rest) =>
      match calls[index]? with
      | none => .error (.pastCount item.1 calls.length)
      | some call => do
          let changed ← Call.put call item.1 rest item.2
          pure (calls.set index changed)

/-- The number of calls that the index prefixes of a map speak of, if it has any. -/
def prefixedCount (args : ArgByName Other) : Option Nat :=
  let indices := args.entries.filterMap fun item => splitIndex item.1
  if indices = [] then
    none
  else
    some (indices.foldl (fun count index => max count ((index.1 + 1) % 2 ^ 64)) 0)

/-- How many calls a batch record holds; none if the record is of one call. -/
def batchCount (args : ArgByName Other) : Except MetaRecordError (Option Nat) :=
  match args.find? callsKey with
  | some (.int value) =>
    if value < 1 then .error .countNotPositive else .ok (some value.toNat)
  | some _ => .error .countNotPositive
  | none => .ok (prefixedCount args)

/-- `TEntry::GetCalls`. -/
def getCalls (entry : MetaEntry Other) : Except MetaRecordError (List (Call Other)) := do
  match ← batchCount entry.argByName with
  | none =>
    pure [{
      packageFqName := entry.packageFqName
      methodName := entry.methodName
      argByName := (entry.argByName.erase opIdKey).erase opOutcomeKey }]
  | some count =>
    let blank : Call Other :=
      { packageFqName := entry.packageFqName
        methodName := entry.methodName
        argByName := SortedMap.empty }
    entry.argByName.entries.foldlM takeArg (List.replicate count blank)

section Hash

/-- `PutBytes`: the length in four bytes, and the bytes. -/
def putBytes (bytes : ByteString) : List UInt8 :=
  toBytes 4 bytes.length ++ bytes

/-- The arguments of a call that are hashed. -/
def hashedArgs (call : Call Other) : List (ByteString × Var Other) :=
  call.argByName.entries.filter fun item => ¬ IsOperationKey item.1

variable (encodeResult : Var Other → ByteString)

/-- What `HashCalls` takes of one call. -/
def callBytes (call : Call Other) : List UInt8 :=
  toBytes 4 call.packageFqName.length ++ call.packageFqName.flatMap putBytes ++
    putBytes call.methodName ++ toBytes 4 (hashedArgs call).length ++
    (hashedArgs call).flatMap fun item => putBytes item.1 ++ putBytes (encodeResult item.2)

/-- The bytes that `HashCalls` takes the checksum of. -/
def hashedBytes (calls : List (Call Other)) : List UInt8 :=
  toBytes 4 calls.length ++ calls.flatMap (callBytes encodeResult)

/-- `HashCalls`, over a checksum. -/
def hashCalls {Hash : Type} (computeChecksum64 : List UInt8 → Hash)
    (calls : List (Call Other)) : Hash :=
  computeChecksum64 (hashedBytes encodeResult calls)

end Hash

end MetaRecord

end Orly
