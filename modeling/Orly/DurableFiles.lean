import Orly.NewestFirst
import Orly.TwoPassTable

namespace Orly

/-!
# Durable entries, memory layers and files

A save of a durable is an entry with the next sequence number.  A memory layer holds its
entries by id, the newest of an id first.  `TSortedByIdFile` writes the newest entry of
each id of a layer, unless it has expired, and `TMergeSortedByIdFile` does the same for
the entries of several files.  A file has a hash index, through which a load finds the one
entry of an id.

Byte offsets are counts of entries here, and an id is never the null id, which marks a
free slot of the index.
-/

/-- What a file holds of one save. -/
structure DurableEntry (Id Form : Type) where
  id : Id
  seqNum : Nat
  deadlineCount : Nat
  serializedForm : Form
  deriving DecidableEq, Repr

/-- `TDurableEntry`: an entry of a memory layer, with the semaphore of its saver. -/
structure SlushEntry (Id Form : Type) where
  entry : DurableEntry Id Form
  sem : Option Nat
  deriving DecidableEq, Repr

/-- The locals of `TryLoad`. -/
structure LoadCursor (Form : Type) where
  curMaxSeqNum : Nat
  serializedForm : Option Form
  deriving DecidableEq, Repr

/-- What the hash index needs to know: the hash of an id, `SuggestHashSize`, and the order
in which the sorter returns objects of one hash. -/
structure DurableIndexing (Id : Type) where
  idHash : Id → Nat
  suggestHashSize : Nat → Nat
  room : ∀ count, count < suggestHashSize count
  walk : (Id × Nat → Nat) → List (Id × Nat) → List (Id × Nat)
  perm : ∀ home slots, (walk home slots).Perm slots
  sorted : ∀ home slots, (walk home slots).Pairwise fun first second =>
    home first ≤ home second

section Entries

variable {Id Form : Type} [LinearOrder Id]

/-- The order of a run of entries: by id, and the newest of an id first. -/
def EntryBefore : DurableEntry Id Form → DurableEntry Id Form → Prop :=
  NewestFirst.Before DurableEntry.id DurableEntry.seqNum

/-- `TKey::operator<=` for the keys of different entries. -/
def slushKeyLe (first second : SlushEntry Id Form) : Bool :=
  decide (first.entry.id < second.entry.id ∨
    first.entry.id = second.entry.id ∧ second.entry.seqNum < first.entry.seqNum)

/-- Insert an entry into the ordered list of a memory layer. -/
def insertSlush (new : SlushEntry Id Form) : List (SlushEntry Id Form) → List (SlushEntry Id Form)
  | [] => [new]
  | entry :: layer =>
    if slushKeyLe new entry = true then
      new :: entry :: layer
    else
      entry :: insertSlush new layer

/-- A load looks at an entry of its id. -/
def LoadCursor.see (cursor : LoadCursor Form) (entry : DurableEntry Id Form) : LoadCursor Form :=
  if cursor.curMaxSeqNum < entry.seqNum then
    ⟨entry.seqNum, some entry.serializedForm⟩
  else
    cursor

/-- `TMemSlushLayer::FindMax`, which stops past the id. -/
def slushFindMax (id : Id) : List (SlushEntry Id Form) → LoadCursor Form → LoadCursor Form
  | [], cursor => cursor
  | slush :: layer, cursor =>
    if id < slush.entry.id then
      cursor
    else if slush.entry.id = id then
      slushFindMax id layer (cursor.see slush.entry)
    else
      slushFindMax id layer cursor

/-- The loop of both `Write` functions: the first entry of each id, if its deadline has
not passed. -/
def newestUnexpired (latestDeadlineCount : Nat) (run : List (DurableEntry Id Form)) :
    List (DurableEntry Id Form) :=
  NewestFirst.firsts DurableEntry.id
    (fun entry => decide (latestDeadlineCount ≤ entry.deadlineCount)) none run

/-- The entries `TSortedByIdFile::Write` writes for a memory layer. -/
def writeSortedById (latestDeadlineCount : Nat) (layer : List (SlushEntry Id Form)) :
    List (DurableEntry Id Form) :=
  newestUnexpired latestDeadlineCount (layer.map SlushEntry.entry)

/-- The entries `TMergeSortedByIdFile::Write` writes for some files, which
`TDurableSorter` merges. -/
def mergeSortedById (latestDeadlineCount : Nat) (files : List (List (DurableEntry Id Form))) :
    List (DurableEntry Id Form) :=
  newestUnexpired latestDeadlineCount
    (NewestFirst.mergeRuns DurableEntry.id DurableEntry.seqNum files)

end Entries

section Index

variable {Id Form : Type} [LinearOrder Id] (indexing : DurableIndexing Id)

/-- The slot an id belongs to in a table of some size. -/
def homeSlot (numHashFields : Nat) (slot : Id × Nat) : Nat :=
  indexing.idHash slot.1 % numHashFields

/-- The hash index of a file: the id and the place of every entry. -/
def durableHashTable (entries : List (DurableEntry Id Form)) : List (Option (Id × Nat)) :=
  let numHashFields := indexing.suggestHashSize entries.length
  TwoPassTable.table (homeSlot indexing numHashFields) numHashFields
    (indexing.walk (homeSlot indexing numHashFields)
      ((entries.map DurableEntry.id).zip (List.range entries.length)))

/-- What `FindInHash` makes of one taken slot. -/
def judgeId (numHashFields : Nat) (id : Id) (slot : Id × Nat) : TwoPassTable.Judgement :=
  if id = slot.1 then
    .hit
  else if indexing.idHash id % numHashFields < indexing.idHash slot.1 % numHashFields then
    .stop
  else
    .pass

/-- The two loops of `TSortedInFile::FindInHash` over the index. -/
def findOffset (table : List (Option (Id × Nat))) (id : Id) : Option Nat :=
  match TwoPassTable.probe (judgeId indexing table.length id)
      (TwoPassTable.around table (indexing.idHash id % table.length))
  with
  | some (some slot) => some slot.2
  | _ => none

/-- `TSortedInFile::FindInHash`: the entry at the offset, if it is newer. -/
def durableFindInHash (entries : List (DurableEntry Id Form)) (id : Id) (cursor : LoadCursor Form) :
    LoadCursor Form :=
  match (findOffset indexing (durableHashTable indexing entries) id).bind (entries[·]?) with
  | some entry => cursor.see entry
  | none => cursor

end Index

/-- `GenSizeSet`. -/
def genSizes : List Nat :=
  [64, 4096, 32768, 262144, 2097152, 8388608, 33554432, 134217728, 268435456, 536870912,
    1073741824, 2147483648, 4294967296, 8589934592, 34359738368, 137438953472,
    549755813888, 2199023255552]

/-- `SuggestGeneration`: the first size above this number of keys. -/
def suggestGeneration (numKeys : Nat) : Option Nat :=
  genSizes.find? (numKeys < ·)

end Orly
