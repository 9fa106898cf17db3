import Orly.ByteReader
import Orly.FoldRules
import Orly.OperationAnswers

namespace Orly

/-!
# Snapshots of the operation table

`Snapshot` writes the entries whose log records a checkpoint gives up, trimmed to a
budget, and `Load` reads them back.  An operation the table has settled is settled by
what a snapshot holds of it: by its entry, or by a watermark over the entry that was
trimmed.
-/

open LittleEndian ByteReader FoldRules

variable (table : OperationTable)

/-- An entry of a snapshot. -/
structure SnapshotEntry where
  opId : OperationId
  sequenceNumber : UInt64
  result : Option (List UInt8)
  hash : UInt64
  deriving DecidableEq

/-- The outcome that `LoadOperations` restores. -/
def SnapshotEntry.outcome (entry : SnapshotEntry) : Outcome where
  sequenceNumber := entry.sequenceNumber
  lsn := 0
  persistent := true
  result := entry.result
  hash := entry.hash

/-- `EncodeEntry`. -/
def SnapshotEntry.encode (entry : SnapshotEntry) : List UInt8 :=
  let result := entry.result.getD []
  entry.opId.val.val ++
    (toBytes 8 entry.sequenceNumber.toNat ++
      (toBytes 1 (if entry.result.isSome then 0 else 1) ++
        (toBytes 2 result.length ++ (result ++ toBytes 8 entry.hash.toNat))))

/-- `TItem`: an entry and the point of view it is of. -/
structure SnapshotItem where
  povId : Uuid
  entry : SnapshotEntry
  deriving DecidableEq

/-- What a snapshot holds of a point of view. -/
structure SnapshotPov where
  povId : Uuid
  watermark : Nat
  entries : List SnapshotEntry
  deriving DecidableEq

/-- A point of view's header and entries. -/
def SnapshotPov.encode (pov : SnapshotPov) : List UInt8 :=
  pov.povId.val ++
    (toBytes 8 pov.watermark ++
      (toBytes 4 pov.entries.length ++ pov.entries.flatMap SnapshotEntry.encode))

/-- `PayloadVersion`. -/
def payloadVersion : Nat := 1

/-- `OperationsSection`. -/
def operationsSection : Nat := 1

/-- `SectionRequired`. -/
def sectionRequired : Nat := 1

/-- The body of the operations section. -/
def encodeOperations (povs : List SnapshotPov) : List UInt8 :=
  toBytes 4 povs.length ++ povs.flatMap SnapshotPov.encode

/-- A payload with the operations section alone. -/
def encodePayload (povs : List SnapshotPov) : List UInt8 :=
  let body := encodeOperations povs
  toBytes 2 payloadVersion ++
    (toBytes 2 1 ++ (toBytes 2 operationsSection ++ (toBytes 2 sectionRequired ++
          (toBytes 4 body.length ++ body))))

/-! ## Writing -/

/-- The watermarks a snapshot gathers. -/
abbrev Watermarks := AList (fun _ : Uuid => Nat)

/-- A watermark; a point of view without one has 0. -/
def Watermarks.mark (marks : Watermarks) (povId : Uuid) : Nat :=
  (marks.lookup povId).getD 0

/-- Raise a watermark. -/
def Watermarks.raise (marks : Watermarks) (povId : Uuid) (ms : Nat) : Watermarks :=
  marks.insert povId (max (marks.mark povId) ms)

namespace OperationTable

/-- The items of a snapshot at a head: the completed persistent entries whose records
are below it. -/
def snapshotItems (table : OperationTable) (headLsn : Nat) : List SnapshotItem :=
  table.tableByPov.entries.flatMap fun pov =>
    pov.2.slotByOp.entries.filterMap fun slot =>
      let outcome := slot.2.outcome
      if slot.2.isDone ∧ outcome.persistent ∧ outcome.lsn < headLsn then
        some
          { povId := pov.1
            entry :=
              { opId := slot.1
                sequenceNumber := outcome.sequenceNumber
                result := outcome.result
                hash := outcome.hash } }
      else
        none

/-- The watermarks of the table; each point of view is met once. -/
def watermarks (table : OperationTable) : Watermarks :=
  table.tableByPov.entries.foldl
    (fun marks pov =>
      if pov.2.expiredBeforeMs ≠ 0 then
        marks.raise pov.1 pov.2.expiredBeforeMs
      else
        marks)
    ∅

end OperationTable

/-- The bytes of an item. -/
def SnapshotItem.size (item : SnapshotItem) : Nat :=
  item.entry.encode.length

/-- The size of a snapshot before it is trimmed. -/
def snapshotSize (items : List SnapshotItem) (marks : Watermarks) : Nat :=
  16 + (items.map SnapshotItem.size).sum +
    (items.map SnapshotItem.povId ++ marks.keys).dedup.length * 28

/-- The trimming loop: the oldest items go while the snapshot is over the budget. -/
def trimItems (budget : Nat) : List SnapshotItem → Nat → Watermarks → List SnapshotItem × Watermarks
  | [], _, marks => ([], marks)
  | item :: rest, total, marks =>
    if budget < total then
      trimItems budget rest (total - item.size) (marks.raise item.povId item.entry.opId.timestampMs)
    else
      (item :: rest, marks)

/-- What is left, by point of view, in the order of their uuids. -/
def groupItems (items : List SnapshotItem) (marks : Watermarks) : List SnapshotPov :=
  let povIds := (items.map SnapshotItem.povId ++ marks.keys).dedup
  (povIds.insertionSort (·.val ≤ ·.val)).map fun povId =>
    { povId
      watermark := marks.mark povId
      entries := (items.filter fun item => item.povId = povId).map SnapshotItem.entry }

/-- An order `sort` may leave the items in: by timestamp, ties in any order. -/
def ByTimestamp (sorted items : List SnapshotItem) : Prop :=
  sorted.Perm items ∧
    sorted.Pairwise fun left right =>
      left.entry.opId.timestampMs ≤ right.entry.opId.timestampMs

instance (sorted items : List SnapshotItem) : Decidable (ByTimestamp sorted items) :=
  inferInstanceAs (Decidable (_ ∧ _))

/-- The points of view in a snapshot of a table, from its sorted items. -/
def OperationTable.snapshotPovs (budget : Nat) (sorted : List SnapshotItem) : List SnapshotPov :=
  let trimmed := trimItems budget sorted (snapshotSize sorted table.watermarks) table.watermarks
  groupItems trimmed.1 trimmed.2

/-- `Snapshot`, from the sorted items. -/
def OperationTable.snapshot (budget : Nat) (sorted : List SnapshotItem) : List UInt8 :=
  encodePayload (table.snapshotPovs budget sorted)

/-! ## Reading -/

/-- `GetUuid`. -/
def readUuid : Reader Uuid := do
  let raw ← bytes 16
  check (if sixteen : raw.length = 16 then some ⟨raw, sixteen⟩ else none)

/-- An entry; an id that is not an operation id makes `Restore` throw. -/
def readEntry : Reader SnapshotEntry := do
  let rawId ← readUuid
  let sequenceNumber ← number 8
  let status ← number 1
  let length ← number 2
  let result ← bytes length
  let hash ← number 8
  let opId ← check (OperationId.ofUuid? rawId)
  pure
    { opId
      sequenceNumber := UInt64.ofNat sequenceNumber
      result := if status = 0 then some result else none
      hash := UInt64.ofNat hash }

/-- A point of view. -/
def readPov : Reader SnapshotPov := do
  let povId ← readUuid
  let watermark ← number 8
  let count ← number 4
  let entries ← times readEntry count
  pure { povId, watermark, entries }

/-- The body of the operations section. -/
def readOperations : Reader (List SnapshotPov) := do
  let count ← number 4
  times readPov count

/-- One section; one that is not known is skipped unless it is required. -/
def readSection : Reader (List SnapshotPov) := do
  let kind ← number 2
  let flags ← number 2
  let length ← number 4
  let body ← bytes length
  check
    (if kind = operationsSection then
      (readOperations body).map Prod.fst
    else if flags % 2 = sectionRequired then
      none
    else
      some [])

/-- A payload of a version that is known. -/
def readPayload : Reader (List SnapshotPov) := do
  let version ← number 2
  let _ ← check (if version = payloadVersion then some () else none)
  let count ← number 2
  let sections ← times readSection count
  pure sections.flatten

/-- Raise a point of view's watermark, making its table if there is none. -/
def OperationTable.raiseWatermark (povId : Uuid) (watermark : Nat) : OperationTable :=
  let pov := table.povTable povId
  table.setPov povId { pov with expiredBeforeMs := max pov.expiredBeforeMs watermark }

/-- What the clock shows when an entry is restored. -/
abbrev RestoreClock := Uuid → OperationId → Nat

/-- One point of view of a snapshot into the table. -/
def OperationTable.loadPov (clock : RestoreClock) (table : OperationTable)
    (pov : SnapshotPov) : OperationTable :=
  pov.entries.foldl
    (fun loaded entry =>
      loaded.restore pov.povId entry.opId entry.outcome (clock pov.povId entry.opId))
    (table.raiseWatermark pov.povId pov.watermark)

/-- `Load`; `none` where the source throws. -/
def OperationTable.load (payload : List UInt8) (clock : RestoreClock) : Option OperationTable :=
  (readPayload payload).map fun read => read.1.foldl (OperationTable.loadPov clock) table

end Orly
