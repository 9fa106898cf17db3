import Orly.ByteReader
import Orly.MetaRecordReplay

/-!
# What the hash of a request is taken over

`HashCalls` writes every count and length in four bytes.  As long as they fit, the bytes
can be read back, so that different calls have different bytes.
-/

namespace Orly

open List

namespace MetaRecord

open ByteReader ByteString LittleEndian

variable {Other : Type} (encodeResult : Var Other → ByteString)

/-- All counts and lengths of a call fit in four bytes. -/
structure CallFits (call : Call Other) : Prop where
  parts : call.packageFqName.length < 2 ^ 32
  partLengths : ∀ part ∈ call.packageFqName, part.length < 2 ^ 32
  method : call.methodName.length < 2 ^ 32
  args : call.argByName.entries.length < 2 ^ 32
  nameLengths : ∀ item ∈ call.argByName.entries, item.1.length < 2 ^ 32
  valueLengths : ∀ item ∈ call.argByName.entries, (encodeResult item.2).length < 2 ^ 32

/-- A call as its hashed bytes show it. -/
structure HashedCall where
  packageFqName : List ByteString
  methodName : ByteString
  args : List (ByteString × ByteString)

def hashedCall (call : Call Other) : HashedCall where
  packageFqName := call.packageFqName
  methodName := call.methodName
  args := (hashedArgs call).map fun item => (item.1, encodeResult item.2)

/-- Read a length and as many bytes. -/
def readString : Reader ByteString := do
  let length ← number 4
  bytes length

def readArg : Reader (ByteString × ByteString) := do
  let name ← readString
  let value ← readString
  pure (name, value)

def readHashedCall : Reader HashedCall := do
  let parts ← number 4
  let packageFqName ← times readString parts
  let methodName ← readString
  let count ← number 4
  let args ← times readArg count
  pure { packageFqName, methodName, args }

def readHashedCalls : Reader (List HashedCall) := do
  let count ← number 4
  times readHashedCall count

variable {encodeResult}

theorem reads_count {count : Nat} (fits : count < 2 ^ 32) :
    Reads (number 4) (toBytes 4 count) count :=
  reads_number (lt_of_lt_of_eq fits (by decide))

theorem reads_putBytes {string : ByteString} (fits : string.length < 2 ^ 32) :
    Reads readString (putBytes string) string :=
  (reads_count fits).bind (reads_bytes string)

theorem reads_call {call : Call Other} (fits : CallFits encodeResult call) :
    Reads readHashedCall (callBytes encodeResult call) (hashedCall encodeResult call) := by
  have isEntry : ∀ item ∈ hashedArgs call, item ∈ call.argByName.entries :=
    fun _ mem => (mem_filter.mp mem).1
  have argCount : (hashedArgs call).length < 2 ^ 32 :=
    lt_of_le_of_lt (length_filter_le ..) fits.args
  have package := reads_times call.packageFqName fun part mem =>
    reads_putBytes (fits.partLengths part mem)
  have args : Reads (times readArg (hashedArgs call).length) _
      ((hashedArgs call).map fun item => (item.1, encodeResult item.2)) :=
    reads_times_map (hashedArgs call) fun item mem =>
      (reads_putBytes (fits.nameLengths item (isEntry item mem))).bind
        ((reads_putBytes (fits.valueLengths item (isEntry item mem))).bind_pure (reads_pure _))
  simp only [callBytes, append_assoc]
  exact (reads_count fits.parts).bind (package.bind ((reads_putBytes fits.method).bind
    ((reads_count argCount).bind (args.bind_pure (reads_pure _)))))

theorem reads_hashedBytes {calls : List (Call Other)} (count : calls.length < 2 ^ 32)
    (fits : ∀ call ∈ calls, CallFits encodeResult call) :
    Reads readHashedCalls (hashedBytes encodeResult calls) (calls.map (hashedCall encodeResult)) :=
  (reads_count count).bind (reads_times_map calls fun call mem => reads_call (fits call mem))

/-- No argument of a call is left out of its hash. -/
theorem WellNamed.hashedArgs_eq {call : Call Other} (named : WellNamed call) :
    hashedArgs call = call.argByName.entries := by
  refine filter_eq_self.mpr ?_
  intro item mem
  refine decide_eq_true ?_
  rintro (isId | isOutcome)
  · exact named.namesPlain item mem (isId ▸ by decide)
  · exact named.namesPlain item mem (isOutcome ▸ by decide)

theorem eq_of_hashedCall_eq {call other : Call Other} (injective : Function.Injective encodeResult)
    (named : WellNamed call) (otherNamed : WellNamed other)
    (same : hashedCall encodeResult call = hashedCall encodeResult other) :
    call = other := by
  have package : call.packageFqName = other.packageFqName := congrArg HashedCall.packageFqName same
  have method : call.methodName = other.methodName := congrArg HashedCall.methodName same
  have hashed := congrArg HashedCall.args same
  have pairInjective : Function.Injective fun item : ByteString × Var Other =>
      (item.1, encodeResult item.2) := by
    rintro ⟨name, value⟩ ⟨otherName, otherValue⟩ equal
    obtain ⟨sameName, sameValue⟩ := Prod.mk.inj equal
    exact Prod.ext sameName (injective sameValue)
  simp only [hashedCall, named.hashedArgs_eq, otherNamed.hashedArgs_eq] at hashed
  have entries := pairInjective.list_map hashed
  have args : call.argByName = other.argByName := by
    refine SortedMap.ext_find ?_
    intro name
    rw [SortedMap.find?, SortedMap.find?, entries]
  obtain ⟨_, _, _⟩ := call
  obtain ⟨_, _, _⟩ := other
  obtain rfl := package
  obtain rfl := method
  obtain rfl := args
  rfl

theorem map_hashedCall_injective
    {calls others : List (Call Other)} (injective : Function.Injective encodeResult)
    (named : ∀ call ∈ calls, WellNamed call) (othersNamed : ∀ call ∈ others, WellNamed call)
    (same : calls.map (hashedCall encodeResult) = others.map (hashedCall encodeResult)) :
    calls = others := by
  induction calls generalizing others with
  | nil => exact (map_eq_nil_iff.mp same.symm).symm
  | cons call calls ih =>
    cases others with
    | nil => exact absurd (map_eq_nil_iff.mp same) (cons_ne_nil _ _)
    | cons other others =>
      obtain ⟨sameFirst, sameRest⟩ := List.cons.inj same
      rw [eq_of_hashedCall_eq injective (named _ mem_cons_self)
          (othersNamed _ mem_cons_self) sameFirst,
        ih (fun later mem => named later (mem_cons_of_mem _ mem))
          (fun later mem => othersNamed later (mem_cons_of_mem _ mem))
          sameRest]

/-- Calls whose counts and lengths fit are known from their hashed bytes. -/
theorem hashedBytes_injective
    {calls others : List (Call Other)} (injective : Function.Injective encodeResult)
    (named : ∀ call ∈ calls, WellNamed call) (othersNamed : ∀ call ∈ others, WellNamed call)
    (count : calls.length < 2 ^ 32) (othersCount : others.length < 2 ^ 32)
    (fits : ∀ call ∈ calls, CallFits encodeResult call)
    (othersFit : ∀ call ∈ others, CallFits encodeResult call)
    (same : hashedBytes encodeResult calls = hashedBytes encodeResult others) :
    calls = others := by
  have here := reads_hashedBytes count fits
  have there := reads_hashedBytes othersCount othersFit
  rw [← same] at there
  exact map_hashedCall_injective injective named othersNamed (here.eq there)

/-- A record reads back as the calls that ran, unless it is of one call with a name that
looks like a call's index, and their hash is the same; calls with the same hashed bytes are
the same, as long as their counts and lengths fit in four bytes. -/
theorem record_replays_its_calls {Hash : Type} (encodeResult : Var Other → ByteString)
    (computeChecksum64 : List UInt8 → Hash) :
    (∀ (entry : MetaEntry Other) (calls : List (Call Other)), (RecordsBatch entry calls ∨
        ∃ call, calls = [call] ∧ RecordsCall entry call ∧
          ∀ item ∈ call.argByName.entries, ¬ IndexPrefixed item.1) →
      (∀ call ∈ calls, WellNamed call) →
      calls.length < 2 ^ 63 →
      getCalls entry = .ok calls ∧ (getCalls entry).map (hashCalls encodeResult computeChecksum64) =
          .ok (hashCalls encodeResult computeChecksum64 calls)) ∧
    (Function.Injective encodeResult → ∀ calls others : List (Call Other),
      (∀ call ∈ calls ++ others, WellNamed call ∧ CallFits encodeResult call) →
      calls.length < 2 ^ 32 → others.length < 2 ^ 32 →
      hashedBytes encodeResult calls = hashedBytes encodeResult others → calls = others) := by
  constructor
  · intro entry calls isRecord named fits
    have replayed : getCalls entry = .ok calls := by
      rcases isRecord with isBatch | ⟨call, rfl, isCall, unindexed⟩
      · exact isBatch.getCalls_eq named fits
      · exact isCall.getCalls_eq (named call mem_cons_self) unindexed
    exact ⟨replayed, by rw [replayed]; rfl⟩
  · intro injective calls others both count othersCount same
    have left := fun call mem => both call (mem_append_left others mem)
    have right := fun call mem => both call (mem_append_right calls mem)
    exact hashedBytes_injective injective
      (fun call mem => (left call mem).1) (fun call mem => (right call mem).1)
      count othersCount
      (fun call mem => (left call mem).2) (fun call mem => (right call mem).2) same

section Samples

/-- An encoding of values: a kind, and a number in unary or a string. -/
def encodeUnary : Var Empty → ByteString
  | .int (Int.ofNat value) => 0 :: List.replicate value 0
  | .int (Int.negSucc value) => 1 :: List.replicate value 0
  | .str value => 2 :: value

theorem encodeUnary_injective : Function.Injective encodeUnary := by
  have length : ∀ {first second : Nat},
      List.replicate first (0 : UInt8) = List.replicate second 0 → first = second :=
    fun same => by simpa using congrArg List.length same
  intro value other same
  match value, other with
  | .int (Int.ofNat _), .int (Int.ofNat _) => rw [length (List.cons.inj same).2]
  | .int (Int.negSucc _), .int (Int.negSucc _) => rw [length (List.cons.inj same).2]
  | .str _, .str _ => rw [(List.cons.inj same).2]
  | .int (Int.ofNat _), .int (Int.negSucc _) => exact absurd (List.cons.inj same).1 (by decide)
  | .int (Int.negSucc _), .int (Int.ofNat _) => exact absurd (List.cons.inj same).1 (by decide)
  | .int (Int.ofNat _), .str _ => exact absurd (List.cons.inj same).1 (by decide)
  | .int (Int.negSucc _), .str _ => exact absurd (List.cons.inj same).1 (by decide)
  | .str _, .int (Int.ofNat _) => exact absurd (List.cons.inj same).1 (by decide)
  | .str _, .int (Int.negSucc _) => exact absurd (List.cons.inj same).1 (by decide)

/-- Two calls of different packages. -/
def guardAndPut : List (Call Empty) :=
  [{ packageFqName := [text "sample"]
     methodName := text "guard"
     argByName := SortedMap.empty.insert (text "k") (.str (text "g")) },
   { packageFqName := [text "some", text "where"]
     methodName := text "put"
     argByName := SortedMap.empty.insert (text "x") (.int 3) }]

/-- Their record, with an operation id. -/
def guardAndPutEntry : MetaEntry Empty where
  packageFqName := [text "sample"]
  methodName := text "guard"
  argByName := (encodeBatch guardAndPut).insertAll [(opIdKey, .str (text "id"))]

theorem wellNamed_guardAndPut : ∀ call ∈ guardAndPut, WellNamed call := by
  simp only [guardAndPut, forall_mem_cons]
  refine ⟨⟨?_, ?_, ?_, ?_⟩, ⟨?_, ?_, ?_, ?_⟩, by simp⟩ <;> decide

/-- Two calls replay, and are hashed apart from the second alone. -/
theorem record_replays_its_calls_mixed : (getCalls guardAndPutEntry = .ok guardAndPut ∧
      (getCalls guardAndPutEntry).map (hashCalls encodeUnary id) =
        .ok (hashCalls encodeUnary id guardAndPut)) ∧
      hashedBytes encodeUnary guardAndPut ≠ hashedBytes encodeUnary guardAndPut.tail := by
  constructor
  · refine (record_replays_its_calls encodeUnary id).1 _ _ (Or.inl ?_) wellNamed_guardAndPut
      (by decide)
    exact ⟨⟨_, rfl, rfl, rfl⟩, ⟨_, by decide, rfl⟩⟩
  · intro same
    have named : ∀ call ∈ guardAndPut, WellNamed call ∧ CallFits encodeUnary call := by
      refine fun call mem => ⟨wellNamed_guardAndPut call mem, ?_⟩
      revert call
      simp only [guardAndPut, forall_mem_cons]
      refine ⟨⟨?_, ?_, ?_, ?_, ?_, ?_⟩, ⟨?_, ?_, ?_, ?_, ?_, ?_⟩, by simp⟩ <;> decide
    have equal := (record_replays_its_calls encodeUnary id).2 encodeUnary_injective guardAndPut
      guardAndPut.tail (forall_mem_append.mpr ⟨named, fun call later =>
        named call (mem_of_mem_tail later)⟩) (by decide) (by decide) same
    exact absurd (congrArg List.length equal) (by decide)

end Samples

section Counterexamples

/-- A call whose argument is named like an argument of a batch. -/
def dottedCall : Call Empty where
  packageFqName := [text "sample"]
  methodName := text "put"
  argByName := SortedMap.empty.insert (text "0.x") (.int 3)

/-- A call of the package with a method name and no arguments. -/
def bareCall (methodName : ByteString) : Call Empty where
  packageFqName := [text "p"]
  methodName := methodName
  argByName := SortedMap.empty

theorem wellNamed_bareCall (methodName : ByteString) : WellNamed (bareCall methodName) where
  hasPackage := cons_ne_nil _ _
  partsNonempty := show ∀ part ∈ [text "p"], part ≠ [] by decide
  partsPlain := show ∀ part ∈ [text "p"], slash ∉ part by decide
  namesPlain := fun _ mem => absurd mem not_mem_nil

/-- What the hashed bytes have from one bare call's method name to the next. -/
def betweenNames : List UInt8 :=
  toBytes 4 0 ++ (toBytes 4 1 ++ putBytes (text "p"))

/-- A method name of 2^32 bytes, its length written as zero, that holds what follows an
empty one. -/
def longName (padding : List UInt8) : ByteString :=
  betweenNames ++ (toBytes 4 0 ++ padding)

def shiftedName (padding : List UInt8) : ByteString :=
  padding ++ (betweenNames ++ toBytes 4 0)

theorem callBytes_bareCall (encodeResult : Var Empty → ByteString) (methodName : ByteString) :
    callBytes encodeResult (bareCall methodName) =
      toBytes 4 1 ++ (putBytes (text "p") ++ (putBytes methodName ++ toBytes 4 0)) := by
  have noArgs : hashedArgs (bareCall methodName) = [] := rfl
  rw [callBytes, noArgs]
  simp [bareCall]

theorem putBytes_wrapped {name : ByteString} (long : name.length = 2 ^ 32) :
    putBytes name = toBytes 4 0 ++ name := by
  have wraps : toBytes 4 (2 ^ 32) = toBytes 4 0 := by decide
  rw [putBytes, long, wraps]

/-- With a name of 2^32 bytes, the bytes do not say which call is which. -/
theorem hashedBytes_long_name (encodeResult : Var Empty → ByteString) {padding : List UInt8}
    (padded : padding.length = 2 ^ 32 - 17) :
    hashedBytes encodeResult [bareCall (longName padding), bareCall []] =
      hashedBytes encodeResult [bareCall [], bareCall (shiftedName padding)] := by
  have between : betweenNames.length = 13 := by decide
  have longLength : (longName padding).length = 13 + (4 + padding.length) := by
    rw [longName, length_append, length_append, between, length_toBytes]
  have shiftedLength : (shiftedName padding).length = padding.length + (13 + 4) := by
    rw [shiftedName, length_append, length_append, between, length_toBytes]
  have long : (longName padding).length = 2 ^ 32 := by omega
  have shifted : (shiftedName padding).length = 2 ^ 32 := by omega
  have short : putBytes [] = toBytes 4 0 := rfl
  simp only [hashedBytes, flatMap_cons, flatMap_nil, callBytes_bareCall,
    putBytes_wrapped long, putBytes_wrapped shifted, short, append_nil]
  simp only [longName, shiftedName, betweenNames, append_assoc, length_cons, length_nil]

/-- One call with an argument named like a batch's is recorded and does not read back, and
two lists of calls with a name of 2^32 bytes have the same hashed bytes. -/
theorem dotted_name_and_long_name :
    (∃ entry : MetaEntry Empty, RecordsCall entry dottedCall ∧ WellNamed dottedCall ∧
      getCalls entry ≠ .ok [dottedCall]) ∧
    ∃ calls others : List (Call Empty), calls ≠ others ∧
      (∀ call ∈ calls ++ others, WellNamed call) ∧
      hashedBytes encodeUnary calls = hashedBytes encodeUnary others := by
  constructor
  · refine ⟨⟨_, _, _⟩, ⟨rfl, rfl, [], by decide, rfl⟩, ⟨by decide, by decide, by decide, by decide⟩,
      ?_⟩
    intro replayed
    have names := congrArg (fun result => result.toOption.map fun calls =>
      calls.map fun call => call.argByName.entries.map Prod.fst) replayed
    revert names
    decide
  · refine ⟨_, _, ?_, ?_, hashedBytes_long_name encodeUnary
        (length_replicate : (List.replicate (2 ^ 32 - 17) (0 : UInt8)).length = _)⟩
    · intro same
      have names := congrArg Call.methodName (List.cons.inj same).1
      have lengths := congrArg List.length names
      simp only [bareCall, longName, length_append, length_toBytes, length_nil]
        at lengths
      omega
    · intro call mem
      simp only [cons_append, nil_append, mem_cons, not_mem_nil, or_false] at mem
      rcases mem with rfl | rfl | rfl | rfl
      · exact wellNamed_bareCall _
      · exact wellNamed_bareCall _
      · exact wellNamed_bareCall _
      · exact wellNamed_bareCall _

end Counterexamples

end MetaRecord

end Orly
