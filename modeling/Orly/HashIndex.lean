import Orly.TwoPassTable

namespace Orly

/-!
# The hash index of a data file

`TIndexFile::PushKey` records, for every prefix length, each new prefix of the sorted
keys of one index with the offset of the key it came from.  `FlushHashes` writes one
table per prefix length in two passes, and `TReadFile::TIndexFile::FindInHash` probes it.

Values are compared by equality.  The members of the keys of one index have the same
types position by position, so the type half of a match only looks at the lengths and at
the free members that are left over.  Streams, arenas and blocks are left out: a table is
the list of its slots, and a key's record is named by its offset.
-/

/-- `Sabot::TMatchResult`. -/
inductive MatchResult where
  | noMatch
  | prefixMatch
  | unifies
  deriving DecidableEq, Repr

/-- `Sabot::IsPrefixMatch`. -/
def isPrefixMatch : MatchResult → Bool
  | .noMatch => false
  | .prefixMatch => true
  | .unifies => true

section Match

variable {Value : Type} [DecidableEq Value]

/-- `Sabot::MatchPrefixType`: a pattern with members left over must have them free. -/
def matchPrefixType (pattern : List (Option Value)) (entry : List Value) : MatchResult :=
  if pattern.length = entry.length then
    .unifies
  else if entry.length < pattern.length then
    if (pattern.drop entry.length).all (·.isNone) then .prefixMatch else .noMatch
  else
    .prefixMatch

/-- One visit of `TMatchPrefixStateVisitor`: a free member leaves the result alone. -/
def matchMember (result : MatchResult) : Option Value → Value → MatchResult
  | none, _ => result
  | some wanted, value => if wanted = value then result else .noMatch

/-- The loop of `Sabot::MatchPrefixState`, which goes on only while the members unify. -/
def matchMembers (result : MatchResult) : List (Option Value) → List Value → MatchResult
  | wanted :: pattern, value :: entry =>
    match matchMember result wanted value with
    | .noMatch => .noMatch
    | .prefixMatch => .prefixMatch
    | .unifies => matchMembers .unifies pattern entry
  | _, _ => result

/-- `Sabot::MatchPrefixState`: the loop starts from the result of the types. -/
def matchPrefixState (pattern : List (Option Value)) (entry : List Value) : MatchResult :=
  match matchPrefixType pattern entry with
  | .noMatch => .noMatch
  | comp => matchMembers comp pattern entry

/-- `TNote::GetTupleNumNonFree`: the members before the first free one. -/
def tupleNumNonFree (pattern : List (Option Value)) : Nat :=
  (pattern.takeWhile (·.isSome)).length

end Match

/-- A tuple core with its stored hash. -/
structure PrefixCore (Value : Type) where
  members : List Value
  storedHash : Nat
  deriving DecidableEq, Repr

/-- `THashObj`: what a hash collector holds. -/
structure HashObj (Value : Type) where
  core : PrefixCore Value
  hash : Nat
  offset : Nat
  deriving DecidableEq, Repr

/-- A taken slot of a hash table on disk. -/
structure HashSlot (Value : Type) where
  core : PrefixCore Value
  offset : Nat
  deriving DecidableEq, Repr

/-- `TKey::GetHash`.  Free members at the end of a tuple do not change its hash, so equal
prefixes hash equally. -/
structure TupleHash (Value : Type) where
  hash : List (Option Value) → Nat
  hash_frees : ∀ (members : List Value) (frees : Nat),
    hash (members.map some ++ List.replicate frees none) = hash (members.map some)

/-- `SuggestHashSize`. -/
structure HashSizes where
  suggestHashSize : Nat → Nat
  room : ∀ count, count < suggestHashSize count

/-- The cursor of a `THashCollector`: its objects by hash, equal hashes in the order
`std::sort` happens to leave them. -/
structure HashCursor (Value : Type) where
  walk : List (HashObj Value) → List (HashObj Value)
  perm : ∀ objs, (walk objs).Perm objs
  sorted : ∀ objs, (walk objs).Pairwise (fun first second => first.hash ≤ second.hash)

/-- `sizeof(TCore)`. -/
def coreSize : Nat := 24

/-- The bytes `PushKey` writes for a current key: sequence number, key and value. -/
def keyHeadSize : Nat := 8 + coreSize + coreSize

/-- The bytes that close the record of a current key: the number and the offset of its
history elements, the mutator and four bytes of padding. -/
def keyTailSize : Nat := 8 + 8 + 4 + 4

/-- `TData::KeyEntrySize`. -/
def keyEntrySize : Nat := 8 + coreSize + coreSize + 8 + 8 + 8

/-- The part of `TIndexFile` that `PushKey` reads and writes. -/
structure IndexWriter (Value : Type) where
  prevKeyWritten : Option (List Value)
  numCurKeys : Nat
  numHistKeys : Nat
  streamOffset : Nat
  seenPrefix : Nat → Option (List Value)
  hashCollectorVec : List (List (HashObj Value))

namespace IndexWriter

variable {Value : Type}

/-- A writer whose key index starts here, with one collector per member of a key. -/
def new (byteOffsetOfKeyIndex numHashTables : Nat) : IndexWriter Value where
  prevKeyWritten := none
  numCurKeys := 0
  numHistKeys := 0
  streamOffset := byteOffsetOfKeyIndex
  seenPrefix := fun _ => none
  hashCollectorVec := List.replicate numHashTables []

variable (tupleHash : TupleHash Value)

/-- The object `PushKey` collects for a prefix. -/
def hashObj (members : List Value) (curKeyOffset : Nat) : HashObj Value where
  core := ⟨members, tupleHash.hash (members.map some)⟩
  hash := tupleHash.hash (members.map some)
  offset := curKeyOffset

/-- The prefix of this size is new: it is seen and collected. -/
def collectPrefix (writer : IndexWriter Value) (key : List Value) (curKeyOffset size : Nat) :
    IndexWriter Value :=
  { writer with
    seenPrefix := Function.update writer.seenPrefix (size + 1) (some (key.take (size + 1)))
    hashCollectorVec :=
      writer.hashCollectorVec.modify size
        (· ++ [hashObj tupleHash (key.take (size + 1)) curKeyOffset]) }

variable [DecidableEq Value]

/-- The loop of `PushKey` over the prefixes of a key, the longest first: it stops at the
first prefix that was the last seen of its size. -/
def pushPrefixes (key : List Value) (curKeyOffset : Nat) :
    Nat → IndexWriter Value → IndexWriter Value
  | 0, writer => writer
  | size + 1, writer =>
    if writer.seenPrefix (size + 1) = some (key.take (size + 1)) then
      writer
    else
      pushPrefixes key curKeyOffset size (writer.collectPrefix tupleHash key curKeyOffset size)

/-- The offset at which the record of the next current key begins. -/
def nextKeyOffset (writer : IndexWriter Value) : Nat :=
  if writer.prevKeyWritten.isSome then
    writer.streamOffset + keyTailSize
  else
    writer.streamOffset

/-- `TIndexFile::PushKey`.  A key equal to the one before it is a history key, which the
hash tables do not know. -/
def pushKey (writer : IndexWriter Value) (key : List Value) : IndexWriter Value :=
  if writer.prevKeyWritten = some key then
    { writer with numHistKeys := writer.numHistKeys + 1 }
  else
    pushPrefixes tupleHash key writer.nextKeyOffset key.length
      { writer with
        prevKeyWritten := some key
        numCurKeys := writer.numCurKeys + 1
        streamOffset := writer.nextKeyOffset + keyHeadSize }

/-- The keys pushed one after another. -/
def pushKeys (writer : IndexWriter Value) (keys : List (List Value)) : IndexWriter Value :=
  keys.foldl (pushKey tupleHash) writer

end IndexWriter

/-- What `TReadFile::TIndexFile` knows of an index. -/
structure HashIndexFile (Value : Type) where
  byteOffsetOfKeyIndex : Nat
  numCurKeys : Nat
  hashTables : List (List (Option (HashSlot Value)))

section Flush

variable {Value : Type}

/-- The object of the second collector of `FlushHashes`, with its hash cut to a slot. -/
def HashObj.modded (numHashFields : Nat) (obj : HashObj Value) : HashObj Value :=
  { obj with hash := obj.hash % numHashFields }

/-- What is written of an object. -/
def HashObj.slot (obj : HashObj Value) : HashSlot Value :=
  ⟨obj.core, obj.offset⟩

/-- `FlushHashes` for one prefix length. -/
def flushTable (sizes : HashSizes) (cursor : HashCursor Value) (collection : List (HashObj Value)) :
    List (Option (HashSlot Value)) :=
  let numHashFields := sizes.suggestHashSize collection.length
  (TwoPassTable.table HashObj.hash numHashFields
    (cursor.walk (collection.map (HashObj.modded numHashFields)))).map (Option.map HashObj.slot)

/-- `TIndexFile::FlushHashes`. -/
def flushHashes (sizes : HashSizes) (cursor : HashCursor Value) (byteOffsetOfKeyIndex : Nat)
    (writer : IndexWriter Value) :
    HashIndexFile Value where
  byteOffsetOfKeyIndex := byteOffsetOfKeyIndex
  numCurKeys := writer.numCurKeys
  hashTables := writer.hashCollectorVec.map (flushTable sizes cursor)

end Flush

/-- How a lookup ends: with an offset, without one, or by the exception for a table that
is completely full. -/
inductive LookupOutcome where
  | found (offset : Nat)
  | absent
  | tableFull
  deriving DecidableEq, Repr

section Find

variable {Value : Type} [DecidableEq Value]

/-- What `FindInHash` makes of one taken slot. -/
def judgeSlot (pattern : List (Option Value)) (numHashFields hashToLookFor : Nat)
    (slot : HashSlot Value) :
    TwoPassTable.Judgement :=
  if slot.core.storedHash = hashToLookFor then
    if isPrefixMatch (matchPrefixState pattern slot.core.members) then .hit else .pass
  else if hashToLookFor % numHashFields < slot.core.storedHash % numHashFields then
    .stop
  else
    .pass

/-- The two probe loops of `FindInHash` over one table. -/
def probeTable (tupleHash : TupleHash Value) (pattern : List (Option Value))
    (table : List (Option (HashSlot Value))) :
    LookupOutcome :=
  let hashToLookFor := tupleHash.hash pattern
  let moddedHash := hashToLookFor % table.length
  match TwoPassTable.probe (judgeSlot pattern table.length hashToLookFor)
      (TwoPassTable.around table moddedHash)
  with
  | none => .tableFull
  | some none => .absent
  | some (some slot) => .found slot.offset

/-- `TReadFile::TIndexFile::FindInHash`. -/
def findInHash (tupleHash : TupleHash Value) (file : HashIndexFile Value)
    (pattern : List (Option Value)) :
    LookupOutcome :=
  if tupleNumNonFree pattern ≠ 0 then
    probeTable tupleHash pattern (file.hashTables.getD (tupleNumNonFree pattern - 1) [])
  else if 0 < file.numCurKeys then
    .found file.byteOffsetOfKeyIndex
  else
    .absent

/-- What a lookup is for: the offset of the first key that starts with these members. -/
def firstKeyOffset (byteOffsetOfKeyIndex : Nat) (keys : List (List Value)) (members : List Value) :
    LookupOutcome :=
  match keys.findIdx? (members.isPrefixOf ·) with
  | some rank => .found (byteOffsetOfKeyIndex + keyEntrySize * rank)
  | none => .absent

end Find

end Orly
