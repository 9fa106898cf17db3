import Orly.WalFormat

namespace Orly

/-!
# The table of keyed operations

`TOperationTable`: a request that names an operation id claims a slot, and the outcome
it leaves there answers every retry.  A completed entry that retention drops raises the
watermark of its point of view, below which ids without an entry are refused.
-/

open List

/-- `TUuid`: sixteen bytes. -/
abbrev Uuid := StoreId

/-- The version nibble of a uuid. -/
def Uuid.version (id : Uuid) : Nat :=
  (id.val.getD 6 0).toNat / 16

/-- An operation id is a version 7 uuid. -/
def OperationId := { id : Uuid // id.version = 7 }

instance : DecidableEq OperationId :=
  inferInstanceAs (DecidableEq { id : Uuid // id.version = 7 })

/-- The check of `GetTimestampMs`, which throws for any other uuid. -/
def OperationId.ofUuid? (id : Uuid) : Option OperationId :=
  if isSeven : id.version = 7 then some ⟨id, isSeven⟩ else none

@[simp]
theorem OperationId.ofUuid?_val (id : OperationId) : OperationId.ofUuid? id.val = some id := by
  rw [OperationId.ofUuid?, dif_pos id.property]
  rfl

/-- `GetTimestampMs`: the first 48 bits, most significant byte first. -/
def OperationId.timestampMs (id : OperationId) : Nat :=
  (id.val.val.take 6).foldl (fun ms byte => ms * 256 + byte.toNat) 0

theorem foldl_bytes_lt (bytes : List UInt8) (start bound : Nat) (startLt : start < bound) :
    bytes.foldl (fun ms byte => ms * 256 + byte.toNat) start < bound * 256 ^ bytes.length := by
  induction bytes generalizing start bound with
  | nil => simpa using startLt
  | cons byte bytes ih =>
    have byteLt := byte.toNat_lt
    have next := ih (start * 256 + byte.toNat) (bound * 256) (by omega)
    rw [foldl_cons, length_cons, Nat.pow_succ']
    rw [Nat.mul_assoc] at next
    exact next

theorem OperationId.timestampMs_lt (id : OperationId) : id.timestampMs < 2 ^ 64 := by
  have bound := foldl_bytes_lt (id.val.val.take 6) 0 1 Nat.one_pos
  have short : (id.val.val.take 6).length ≤ 6 := length_take_le ..
  calc id.timestampMs
      < 1 * 256 ^ (id.val.val.take 6).length := bound
    _ ≤ 1 * 256 ^ 6 := Nat.mul_le_mul_left 1 (Nat.pow_le_pow_right (by decide) short)
    _ < 2 ^ 64 := by decide

/-- `TOperationTable::TConfig`, less its clock, which each call takes as an argument. -/
structure OperationConfig where
  retentionCount : Nat := 4096
  retentionAgeSeconds : Nat := 3600
  resultBytes : Nat := 256
  deriving Repr, DecidableEq

/-- The age in milliseconds, as the source's 64-bit product. -/
def OperationConfig.ageMs (config : OperationConfig) : Nat :=
  config.retentionAgeSeconds * 1000 % 2 ^ 64

/-- `TOutcome`. -/
structure Outcome where
  sequenceNumber : UInt64 := 0
  lsn : Nat := 0
  persistent : Bool := false
  result : Option (List UInt8) := none
  hash : UInt64 := 0
  deriving Repr, DecidableEq

/-- `TSlot`. -/
structure Slot where
  isDone : Bool := false
  outcome : Outcome := {}
  floorLsn : Nat := 0
  deriving Repr, DecidableEq

/-- `TPovTable`. -/
structure PovTable where
  slotByOp : AList (fun _ : OperationId => Slot) := ∅
  expiredBeforeMs : Nat := 0

/-- Erase the slot of an operation unless it is complete. -/
def PovTable.release (pov : PovTable) (opId : OperationId) : PovTable :=
  match pov.slotByOp.lookup opId with
  | none => pov
  | some slot =>
    if slot.isDone then pov else { pov with slotByOp := pov.slotByOp.erase opId }

/-- An element of `Done`; its first component is the timestamp of the id. -/
structure DoneKey where
  povId : Uuid
  opId : OperationId
  deriving DecidableEq

/-- The order of `Done`: by timestamp, then by the two ids. -/
def DoneKey.rank (key : DoneKey) : List Nat :=
  key.opId.timestampMs :: (key.povId.val.map UInt8.toNat ++ key.opId.val.val.map UInt8.toNat)

/-- `Done.emplace`: an element that is there already is left. -/
def insertDone (key : DoneKey) (done : List DoneKey) : List DoneKey :=
  if key ∈ done then
    done
  else
    done.orderedInsert (fun left right => left.rank ≤ right.rank) key

/-- The members of `TOperationTable`. -/
structure OperationTable where
  config : OperationConfig
  tableByPov : AList (fun _ : Uuid => PovTable) := ∅
  unknownBeforeMs : Nat := 0
  heldFloors : List Nat := []
  done : List DoneKey := []

/-- What makes `Reserve` throw. -/
inductive ReserveError where
  | invalidId
  | idReused
  | inFlight
  | expired
  deriving Repr, DecidableEq

/-- The text of each exception. -/
def ReserveError.what : ReserveError → String
  | .invalidId =>
    "an operation id must be a version 7 UUID (its first 48 bits are the time in ms)"
  | .idReused => "operation id reused: this id already names a different request"
  | .inFlight => "operation in flight: this request is still running; retry shortly"
  | .expired =>
    "operation expired: this id is older than the server keeps outcomes, so it can't say whether the write ran"

/-- What `Reserve` answers: `isNew`, an earlier outcome, or an exception. -/
inductive OperationReservation where
  | isNew
  | known (outcome : Outcome)
  | refused (error : ReserveError)
  deriving Repr, DecidableEq

namespace OperationTable

variable (table : OperationTable)

/-- What `TableByPov[pov_id]` refers to; a missing table is made empty. -/
def povTable (povId : Uuid) : PovTable :=
  (table.tableByPov.lookup povId).getD {}

/-- Write a point of view's table back. -/
def setPov (povId : Uuid) (pov : PovTable) : OperationTable :=
  { table with tableByPov := table.tableByPov.insert povId pov }

/-- The slot of an operation. -/
def slot? (povId : Uuid) (opId : OperationId) : Option Slot :=
  (table.povTable povId).slotByOp.lookup opId

/-- The watermark of a point of view. -/
def expiredBefore (povId : Uuid) : Nat :=
  (table.povTable povId).expiredBeforeMs

/-- Put a slot under an operation. -/
def setSlot (povId : Uuid) (opId : OperationId) (slot : Slot) : OperationTable :=
  let pov := table.povTable povId
  table.setPov povId { pov with slotByOp := pov.slotByOp.insert opId slot }

/-- `Reserve`, with the time `now` on the clock. -/
def reserve (povId rawId : Uuid) (hash : UInt64)
    (now : Nat) : OperationTable × OperationReservation :=
  match OperationId.ofUuid? rawId with
  | none => (table, .refused .invalidId)
  | some opId =>
    let ts := opId.timestampMs
    let touched := table.setPov povId (table.povTable povId)
    match table.slot? povId opId with
    | some slot =>
      if slot.outcome.hash ≠ hash then
        (touched, .refused .idReused)
      else if slot.isDone then
        (touched, .known slot.outcome)
      else
        (touched, .refused .inFlight)
    | none =>
      if ts ≤ table.expiredBefore povId ∨ ts ≤ table.unknownBeforeMs ∨
          (ts + table.config.ageMs) % 2 ^ 64 < now then
        (touched, .refused .expired)
      else
        (table.setSlot povId opId { outcome := { hash } }, .isNew)

/-- One turn of the loop of `Prune`: the oldest completed entry goes, and the watermark
of its point of view rises to it. -/
def dropOldest (key : DoneKey) (rest : List DoneKey) : OperationTable :=
  let tableByPov :=
    match table.tableByPov.lookup key.povId with
    | none => table.tableByPov
    | some pov =>
      table.tableByPov.insert key.povId
        { slotByOp := pov.slotByOp.erase key.opId
          expiredBeforeMs := max pov.expiredBeforeMs key.opId.timestampMs }
  { table with tableByPov, done := rest }

/-- The loop of `Prune`, over the elements of `Done`. -/
def pruneLoop (cutoff : Nat) : List DoneKey → OperationTable → OperationTable
  | [], table => table
  | key :: rest, table =>
    if rest.length + 1 ≤ table.config.retentionCount ∧ cutoff ≤ key.opId.timestampMs then
      table
    else
      pruneLoop cutoff rest (table.dropOldest key rest)

/-- `Prune`, with the time `now` on the clock. -/
def prune (now : Nat) : OperationTable :=
  let ageMs := table.config.ageMs
  pruneLoop (if ageMs < now then now - ageMs else 0) table.done table

/-- `Complete`. -/
def complete (povId : Uuid) (opId : OperationId) (outcome : Outcome) (now : Nat) : OperationTable :=
  let stored := table.setSlot povId opId { isDone := true, outcome, floorLsn := 0 }
  { stored with done := insertDone ⟨povId, opId⟩ stored.done }.prune now

/-- `Restore`. -/
def restore (povId : Uuid) (opId : OperationId) (outcome : Outcome) (now : Nat) : OperationTable :=
  table.complete povId opId outcome now

/-- `BeginCommit`. -/
def beginCommit (povId : Uuid) (opId : OperationId) (floorLsn : Nat) : OperationTable :=
  match table.slot? povId opId with
  | none => table
  | some slot =>
    if slot.isDone then
      table
    else
      table.setSlot povId opId { slot with floorLsn := max floorLsn 1 }

/-- The floors of the slots that are committing. -/
def slotFloors : List Nat :=
  table.tableByPov.entries.flatMap fun pov =>
    pov.2.slotByOp.entries.filterMap fun slot =>
      if !slot.2.isDone && slot.2.floorLsn ≠ 0 then some slot.2.floorLsn else none

/-- `HeadFloor`; `UINT64_MAX` when nothing holds the head. -/
def headFloor : Nat :=
  (table.heldFloors ++ table.slotFloors).foldr min (2 ^ 64 - 1)

/-- `HoldHead`; the token is the floor that was put in. -/
def holdHead (floorLsn : Nat) : OperationTable × Nat :=
  ({ table with heldFloors := max floorLsn 1 :: table.heldFloors }, max floorLsn 1)

/-- `ReleaseHead`. -/
def releaseHead (token : Nat) : OperationTable :=
  { table with heldFloors := table.heldFloors.erase token }

/-- `Release`; a table left empty and without a watermark is forgotten. -/
def release (povId : Uuid) (opId : OperationId) : OperationTable :=
  match table.tableByPov.lookup povId with
  | none => table
  | some pov =>
    let left := pov.release opId
    if left.slotByOp.entries = [] ∧ left.expiredBeforeMs = 0 then
      { table with tableByPov := table.tableByPov.erase povId }
    else
      table.setPov povId left

/-- `RefuseUnknownBefore`. -/
def refuseUnknownBefore (ms : Nat) : OperationTable :=
  { table with unknownBeforeMs := max table.unknownBeforeMs ms }

end OperationTable

/-! ## What each function does to a slot and a watermark -/

namespace OperationTable

variable {table : OperationTable} {povId otherPov : Uuid} {opId otherOp : OperationId} {slot : Slot}
  {pov : PovTable}

theorem povTable_setPov : (table.setPov povId pov).povTable otherPov =
      if otherPov = povId then pov else table.povTable otherPov := by
  unfold povTable setPov
  split
  case isTrue same => rw [same, AList.lookup_insert, Option.getD_some]
  case isFalse differs => rw [AList.lookup_insert_ne differs]

theorem slot?_setSlot : (table.setSlot povId opId slot).slot? otherPov otherOp =
      if otherPov = povId ∧ otherOp = opId then some slot
      else table.slot? otherPov otherOp := by
  unfold slot? setSlot
  rw [povTable_setPov]
  by_cases samePov : otherPov = povId
  · by_cases sameOp : otherOp = opId
    · subst sameOp
      simp [samePov, AList.lookup_insert]
    · simp [samePov, sameOp, AList.lookup_insert_ne sameOp]
  · simp [samePov]

theorem expiredBefore_setSlot : (table.setSlot povId opId slot).expiredBefore otherPov =
      table.expiredBefore otherPov := by
  unfold expiredBefore setSlot
  rw [povTable_setPov]
  split
  case isTrue same => rw [same]
  case isFalse => rfl

/-- Making a table that is missing changes nothing a lookup sees. -/
theorem povTable_touch : (table.setPov povId (table.povTable povId)).povTable otherPov =
      table.povTable otherPov := by
  rw [povTable_setPov]
  split
  case isTrue same => rw [same]
  case isFalse => rfl

theorem mem_insertDone {key other : DoneKey} {done : List DoneKey} :
    other ∈ insertDone key done ↔ other = key ∨ other ∈ done := by
  rw [insertDone]
  split
  case isTrue present =>
    constructor
    · exact .inr
    · rintro (rfl | mem)
      · exact present
      · exact mem
  case isFalse => exact mem_orderedInsert ..

theorem nodup_insertDone {key : DoneKey} {done : List DoneKey} (nodup : done.Nodup) :
    (insertDone key done).Nodup := by
  rw [insertDone]
  split
  case isTrue => exact nodup
  case isFalse fresh =>
    exact (perm_orderedInsert _ key done).nodup_iff.mpr (nodup_cons.mpr ⟨fresh, nodup⟩)

end OperationTable

end Orly
