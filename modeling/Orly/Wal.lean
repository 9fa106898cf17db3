import Orly.EventRuns
import Orly.WalRing

namespace Orly

/-!
# The write-ahead log

`TWal` as a state machine.  Callers, the leader thread, the syncer thread and the
checkpoint each take one step for a section they run under the log's mutex; what
the device does in between is left to the step that learns of it.
-/

open GreedyBatches

/-- What the log's operations throw. -/
inductive WalError where
  | ioError (message : String)
  | recordTooLarge (message : String)
  | ringFull (message : String)
  | lengthError (message : String)
  deriving Repr, DecidableEq

/-- `TWalReservation`; its group bytes are those of its size. -/
structure Reservation where
  size : Nat
  owes : List PromotionDebt
  deriving Repr, DecidableEq

/-- `TWalReservation::GroupBytes`. -/
def Reservation.groupBytes (reservation : Reservation) : Nat :=
  recordGroupBytes reservation.size

/-- `TPromotionDebtChange`. -/
structure PromotionDebtChange where
  owed : List PromotionDebt
  repaid : List PromotionDebt
  deriving Repr, DecidableEq

/-- `TGroupSummary`. -/
structure GroupSummary where
  groupNum : Nat
  firstLsn : Nat
  lastLsn : Nat
  lap : Nat
  offset : Nat
  headerChecksum : Nat
  chain : Nat
  deriving Repr, DecidableEq

/-- `TInFlightGroup`. -/
structure InFlightGroup where
  groupNum : Nat
  firstLsn : Nat
  lastLsn : Nat
  sealedThrough : Nat
  lap : Nat
  offset : Nat
  size : Nat
  isSealOnly : Bool
  deriving Repr, DecidableEq

/-- `TGroupLocation`: a group that recovery found. -/
structure GroupLocation where
  groupNum : Nat
  lap : Nat
  offset : Nat
  chain : Nat
  firstLsn : Nat
  lastLsn : Nat
  deriving Repr, DecidableEq

/-- The payload bytes of some records. -/
def payloadBytes (records : List WalRecord) : Nat :=
  load WalRecord.encodedSize records

/-- A group the leader has built, with the offset it was given. -/
structure Group where
  header : GroupHeader
  records : List WalRecord
  offset : Nat
  lastLsn : Nat
  deriving DecidableEq

namespace Group

/-- The bytes a group takes on the ring. -/
def size (group : Group) : Nat :=
  groupBytesOf (payloadBytes group.records)

def isSealOnly (group : Group) : Bool :=
  group.records.isEmpty

/-- The summary `ActiveGroups` keeps. -/
def summary (group : Group) : GroupSummary where
  groupNum := group.header.groupNum
  firstLsn := group.header.firstLsn
  lastLsn := group.lastLsn
  lap := group.header.lap
  offset := group.offset
  headerChecksum := group.header.headerChecksum
  chain := group.header.chain

/-- What the syncer learns of a written group. -/
def inFlight (group : Group) : InFlightGroup where
  groupNum := group.header.groupNum
  firstLsn := group.header.firstLsn
  lastLsn := group.lastLsn
  sealedThrough := group.header.sealedThrough
  lap := group.header.lap
  offset := group.offset
  size := group.size
  isSealOnly := group.isSealOnly

end Group

/-- The head of the log: `HeadLsn` and the group that recovery scans from. -/
structure HeadMark where
  lsn : Nat
  groupNum : Nat
  lap : Nat
  ringOffset : Nat
  chain : Nat
  deriving Repr, DecidableEq

/-- `TCheckpoint`. -/
structure Checkpoint where
  checkpointNum : Nat
  head : HeadMark
  durableLsn : Nat
  globalFlushedSeq : Nat
  payload : List UInt8
  deriving Repr, DecidableEq

/-- Where the leader thread is. -/
inductive LeaderPhase where
  /-- In the loop, until there is something to build. -/
  | ready
  /-- Stopping with every in-flight slot taken. -/
  | slotWait
  /-- With a group that does not fit, until a checkpoint moves the head. -/
  | waiting (batch : List WalRecord)
  | writing (group : Group)
  | stopped
  deriving DecidableEq

/-- Where the syncer thread is. -/
inductive SyncerPhase where
  | idle
  | syncing (groups : Nat)
  | stopped
  deriving Repr, DecidableEq

/-- Where the caller of `Checkpoint` that holds `CheckpointMutex` is. -/
inductive CheckpointPhase where
  | idle
  | captured (durableLsn globalFlushedSeq : Nat) (payload : List UInt8)
  | writing (checkpoint : Checkpoint)
  | syncing (checkpoint : Checkpoint)
  deriving Repr, DecidableEq

/-- The state of `TWal` that its mutexes guard. -/
structure WalState where
  ledger : RoomLedger
  cursor : RingCursor
  promotions : PromotionRoom
  reservations : List Reservation
  pendingRecords : List WalRecord
  nextLsn : Nat
  nextGroupNum : Nat
  previousGroupChecksum : Nat
  highestSyncedLsn : Nat
  highestSealedLsn : Nat
  durableLsn : Nat
  head : HeadMark
  activeGroups : List GroupSummary
  inFlightGroups : List InFlightGroup
  lastCheckpointNum : Option Nat
  autoSealOnQuiet : Bool
  stopping : Bool
  failed : Bool
  leader : LeaderPhase
  syncer : SyncerPhase
  checkpointer : CheckpointPhase
  deriving DecidableEq

/-- The arguments of the constructor of `TWal`. -/
structure WalStart where
  startLsn : Nat
  startGroupNum : Nat
  startLap : Nat
  startRingOffset : Nat
  previousChecksum : Nat
  head : HeadMark
  retainedGroups : List GroupLocation
  deriving Repr, DecidableEq

namespace WalStart

/-- The log of a new store. -/
def newStore : WalStart where
  startLsn := 1
  startGroupNum := 1
  startLap := 1
  startRingOffset := 0
  previousChecksum := 0
  head := { lsn := 0, groupNum := 0, lap := 0, ringOffset := 0, chain := 0 }
  retainedGroups := []

/-- The head the constructor starts with; group number 0 stands for none given. -/
def headMark (start : WalStart) : HeadMark where
  lsn := if 0 < start.head.lsn then start.head.lsn else start.startLsn
  groupNum :=
    if 0 < start.head.groupNum then
      start.head.groupNum
    else if 0 < start.startGroupNum then
      start.startGroupNum
    else
      1
  lap := if 0 < start.head.groupNum then start.head.lap else start.startLap
  ringOffset :=
    if 0 < start.head.groupNum then start.head.ringOffset else start.startRingOffset
  chain := if 0 < start.head.groupNum then start.head.chain else start.previousChecksum

/-- Summaries of the retained groups; a seal-only group retires with the records before it. -/
def summaries (previousChecksum : Nat) : Nat → List GroupLocation → List GroupSummary
  | _, [] => []
  | lastLsnSoFar, location :: locations =>
    let lastLsn := if 0 < location.firstLsn then location.lastLsn else lastLsnSoFar
    { groupNum := location.groupNum
      firstLsn := location.firstLsn
      lastLsn := lastLsn
      lap := location.lap
      offset := location.offset
      headerChecksum := (locations.head?.map GroupLocation.chain).getD previousChecksum
      chain := location.chain } ::
      summaries previousChecksum (max lastLsnSoFar lastLsn) locations

end WalStart

namespace WalState

/-- The constructor of `TWal`. -/
def start (config : WalConfig) (start : WalStart) : WalState where
  ledger :=
    { reservedGroupBytes := 0
      reservedGroupBytesSum := 0
      pendingGroupPayloads := []
      pendingGroupBytes := 0
      pendingGroupBytesSum := 0
      unsealed := false }
  cursor :=
    { currentLap := start.startLap
      currentRingOffset := start.startRingOffset
      checkpointedHeadLap := start.headMark.lap
      checkpointedHeadRingOffset := start.headMark.ringOffset }
  promotions := { debtGroupBytes := 0, debtBytesSum := 0 }
  reservations := []
  pendingRecords := []
  nextLsn := start.startLsn - 1
  nextGroupNum := start.startGroupNum - 1
  previousGroupChecksum := start.previousChecksum
  highestSyncedLsn := start.startLsn - 1
  highestSealedLsn := start.startLsn - 1
  durableLsn := start.startLsn - 1
  head := start.headMark
  activeGroups :=
    WalStart.summaries start.previousChecksum (start.headMark.lsn - 1) start.retainedGroups
  inFlightGroups := []
  lastCheckpointNum := none
  autoSealOnQuiet := config.autoSealOnQuiet
  stopping := false
  failed := false
  leader := .ready
  syncer := .idle
  checkpointer := .idle

section Callers

variable (config : WalConfig) (wal : WalState)

/-- `CheckAppendableLocked`. -/
def checkAppendable (size : Nat) : Except WalError Unit :=
  if wal.failed then
    .error (.ioError "WAL is in failed state")
  else if wal.stopping then
    .error (.ioError "WAL is stopping")
  else if config.capacityBytes < recordGroupBytes size then
    .error (.ioError ("WAL record of " ++ toString size ++ " bytes is bigger than the ring"))
  else
    .ok ()

/-- `AdmitsLocked` in this state. -/
def admits (groupBytes : Nat) (room : Room) (credit newDebt newDebtGroup : Nat)
    (biggestGroup : Option Nat) : Bool :=
  Orly.admits config wal.ledger wal.cursor wal.promotions groupBytes room credit newDebt
    newDebtGroup biggestGroup

/-- What `ThrowRingFullLocked` throws. -/
def ringFull (size : Nat) : WalError :=
  .ringFull ("the WAL ring is full up to its checkpointed head; refused a record of " ++
    toString size ++ " bytes, and nothing was appended; retry once a root flush and " ++
    "checkpoint have made room")

/-- `Reserve`, as far as its last test of admission. -/
def reserve (size : Nat) (room : Room) (credit : Nat)
    (owes : List PromotionDebt) : Except WalError WalState := do
  wal.checkAppendable config size
  let groupBytes := recordGroupBytes size
  if room = .keepHeadroom ∧ config.headroomBytes / 2 < groupBytes then
    .error (.recordTooLarge ("write too large: its WAL record of " ++ toString size ++
      " bytes is more than half the " ++ toString (config.headroomBytes / 1024) ++
      " KiB the WAL keeps for promotions (an eighth of --wal_mb), so it could be accepted " ++
      "and never promoted; retrying won't help, split it into smaller batches or raise --wal_mb"))
  else if wal.admits config groupBytes room credit (sumDebtBytes owes)
      (maxDebtGroupBytes owes) none then
    .ok
      { wal with
        ledger := wal.ledger.charge groupBytes
        promotions := wal.promotions.owe owes
        reservations := wal.reservations ++ [{ size := size, owes := owes }] }
  else
    .error (ringFull size)

/-- The bigger of the group found so far and that of a record, with the size it is for. -/
def biggerRecord (found : Nat × Nat) (size : Nat) : Nat × Nat :=
  if found.1 < recordGroupBytes size then (recordGroupBytes size, size) else found

/-- The biggest group `ReserveGroup` finds among its records, and the size it is for. -/
def biggestRecord (sizes : List Nat) : Nat × Nat :=
  sizes.foldl biggerRecord (0, 0)

/-- `ReserveGroup`: room for every record or for none. -/
def reserveGroup (sizes : List Nat) (spend : List PromotionDebt) : Except WalError WalState := do
  sizes.forM (wal.checkAppendable config)
  let groupBytes := (sizes.map recordGroupBytes).sum
  let (biggest, biggestSize) := biggestRecord sizes
  let seals := (sizes.length - 1) * walAlignment
  if wal.admits config (groupBytes + seals) .all (sumDebtBytes spend) 0 0 (some biggest) then
    .ok
      { wal with
        ledger := (sizes.map recordGroupBytes).foldl RoomLedger.charge wal.ledger
        promotions := wal.promotions.repay spend
        reservations :=
          wal.reservations ++ sizes.map fun size => { size := size, owes := [] } }
  else
    .error (.ringFull ("the WAL ring has no room yet for " ++ toString sizes.length ++
      " records of up to " ++ toString biggestSize ++ " bytes; nothing was appended"))

/-- `ReleaseReservation`, of a reservation that is held. -/
def releaseReservation (reservation : Reservation) : WalState :=
  { wal with
    ledger := wal.ledger.uncharge reservation.groupBytes
    promotions := wal.promotions.repay reservation.owes
    reservations := wal.reservations.erase reservation }

/-- `ChangePromotionDebt`. -/
def changePromotionDebt (debt : PromotionDebtChange) : WalState :=
  { wal with promotions := (wal.promotions.owe debt.owed).repay debt.repaid }

/-- `AppendLocked`. -/
def appendLocked (type : WalRecordType) (body : List UInt8) (flags : UInt8) : WalState :=
  let record : WalRecord :=
    { lsn := wal.nextLsn + 1, type := type, flags := flags, body := body }
  { wal with
    nextLsn := wal.nextLsn + 1
    ledger := wal.ledger.queueRecord config record.encodedSize
    pendingRecords := wal.pendingRecords ++ [record] }

/-- `Append`, without a reservation. -/
def append (type : WalRecordType) (body : List UInt8) (flags : UInt8)
    (debt : PromotionDebtChange) : Except WalError WalState := do
  wal.checkAppendable config body.length
  if wal.admits config (recordGroupBytes body.length) .all (sumDebtBytes debt.repaid)
      (sumDebtBytes debt.owed) (maxDebtGroupBytes debt.owed) none then
    .ok ((wal.changePromotionDebt debt).appendLocked config type body flags)
  else
    .error (ringFull body.length)

/--
`Append` into a reservation that is held.  A record bigger than what was reserved
goes in all the same: the source only logs it.
-/
def appendReserved (reservation : Reservation) (type : WalRecordType) (body : List UInt8)
    (flags : UInt8)
    (debt : PromotionDebtChange) : Except WalError WalState := do
  wal.checkAppendable config body.length
  .ok (((wal.releaseReservation reservation).changePromotionDebt debt).appendLocked
    config type body flags)

end Callers

section Leader

variable (config : WalConfig) (sums : Checksums) (wal : WalState)

/-- Something has been synced that no group has sealed yet. -/
def sealDue : Bool :=
  wal.highestSealedLsn < wal.highestSyncedLsn

/-- The leader may build a group with records. -/
def haveRecords : Bool :=
  !wal.pendingRecords.isEmpty && wal.inFlightGroups.length < config.maxInFlightGroups

/-- The leader may build a seal-only group. -/
def needSeal : Bool :=
  !wal.haveRecords config && (wal.autoSealOnQuiet || wal.stopping) && wal.sealDue &&
    wal.inFlightGroups.length < config.maxInFlightGroups

/-- The leader's inner loop is over. -/
def leaderWakes : Bool :=
  wal.stopping || wal.haveRecords config ||
    (wal.autoSealOnQuiet && wal.sealDue && wal.inFlightGroups.isEmpty)

/-- Where the leader is after the condition at the top of its loop. -/
def leaderTop : LeaderPhase :=
  if !wal.stopping || !wal.pendingRecords.isEmpty ||
      (wal.sealDue && wal.inFlightGroups.isEmpty) then
    .ready
  else
    .stopped

/-- The header of the next group, at the lap the cursor has wrapped to. -/
def groupHeader (batch : List WalRecord) (lap : Nat) : GroupHeader :=
  let payload := batch.flatMap (WalRecord.encoded sums)
  let unchecked : GroupHeader :=
    { formatVersion := walFormatVersion
      flags := if batch.isEmpty then sealOnlyFlag else 0
      storeId := config.storeId
      lap := lap
      groupNum := wal.nextGroupNum + 1
      firstLsn := (batch.head?.map WalRecord.lsn).getD 0
      recordCount := batch.length
      payloadLen := payloadBytes batch
      sealedThrough := wal.highestSyncedLsn
      chain := wal.previousGroupChecksum
      payloadChecksum :=
        if 0 < payloadBytes batch then (sums.checksum64 payload).toNat else 0
      headerChecksum := 0 }
  { unchecked with headerChecksum := (sums.checksum64 unchecked.coveredBytes).toNat }

/-- The next group, at the position the cursor gives it. -/
def nextGroup (batch : List WalRecord) : Group :=
  let wrapped := wal.cursor.wrapFor config (groupBytesOf (payloadBytes batch))
  { header := wal.groupHeader config sums batch wrapped.currentLap
    records := batch
    offset := wrapped.currentRingOffset
    lastLsn := (batch.getLast?.map WalRecord.lsn).getD wal.highestSyncedLsn }

/-- The leader gives a group its number and position and starts to write it. -/
def placeGroup (batch : List WalRecord) : WalState :=
  let group := wal.nextGroup config sums batch
  { wal with
    nextGroupNum := wal.nextGroupNum + 1
    cursor := wal.cursor.place config group.size
    ledger :=
      { (if batch.isEmpty then wal.ledger else wal.ledger.dequeueGroup) with
        unsealed := !batch.isEmpty }
    previousGroupChecksum := group.header.headerChecksum
    activeGroups := wal.activeGroups ++ [group.summary]
    leader := .writing group }

/-- The records the leader takes for the group it builds now, and what it leaves. -/
def leaderBatch : Option (List WalRecord × List WalRecord) :=
  if wal.haveRecords config then
    some (take WalRecord.encodedSize config.maxGroupPayload 0 wal.pendingRecords)
  else if wal.needSeal config then
    some ([], wal.pendingRecords)
  else
    none

/-- The leader has a group: place it, or wait for room. -/
def buildGroup (batch left : List WalRecord) : WalState :=
  let taken := { wal with pendingRecords := left }
  if wal.cursor.fits config (groupBytesOf (payloadBytes batch)) then
    taken.placeGroup config sums batch
  else
    { taken with leader := .waiting batch }

/-- `LeaderMain`, from one wait to the next or to the write of a group. -/
def leaderTurn : Option WalState :=
  match wal.leader with
  | .ready =>
    if !wal.leaderWakes config then
      none
    else if wal.failed then
      some { wal with leader := .stopped }
    else if wal.stopping && wal.pendingRecords.isEmpty && !wal.sealDue &&
        wal.inFlightGroups.isEmpty then
      some { wal with leader := .stopped }
    else
      match wal.leaderBatch config with
      | some (batch, left) => some (wal.buildGroup config sums batch left)
      | none => some { wal with leader := .slotWait }
  | .slotWait => some { wal with leader := wal.leaderTop }
  | .waiting batch =>
    if wal.cursor.fits config (groupBytesOf (payloadBytes batch)) then
      some (wal.placeGroup config sums batch)
    else if wal.stopping || wal.failed then
      some { wal with failed := true, leader := .stopped }
    else
      none
  | .writing _ => none
  | .stopped => none

/-- With `EarlyAck`, a written group is acknowledged before it is synced. -/
def earlyAck (group : Group) : WalState :=
  let sealed := max wal.highestSealedLsn group.lastLsn
  { wal with
    highestSyncedLsn :=
      if group.isSealOnly then wal.highestSyncedLsn
      else max wal.highestSyncedLsn group.lastLsn
    highestSealedLsn := sealed
    durableLsn := sealed }

/-- A group has been written: the syncer may sync it. -/
def afterWrite (group : Group) : WalState :=
  let written := { wal with inFlightGroups := wal.inFlightGroups ++ [group.inFlight] }
  if config.earlyAck then written.earlyAck group else written

/-- The leader's write has ended. -/
def leaderWrote (writeOk : Bool) : Option WalState :=
  match wal.leader with
  | .writing group =>
    if writeOk then
      let written := wal.afterWrite config group
      some { written with leader := written.leaderTop }
    else
      some { wal with failed := true, leader := .stopped }
  | _ => none

end Leader

section Syncer

variable (config : WalConfig) (wal : WalState)

/-- The syncer accounts for one synced group. -/
def noteSynced (group : InFlightGroup) : WalState :=
  { wal with
    highestSyncedLsn :=
      if group.isSealOnly then wal.highestSyncedLsn
      else max wal.highestSyncedLsn group.lastLsn
    highestSealedLsn := max wal.highestSealedLsn group.sealedThrough }

/-- `SyncerMain`, up to the sync: it will cover the groups in flight now. -/
def syncerTurn : Option WalState :=
  match wal.syncer with
  | .idle =>
    if wal.failed then
      some { wal with syncer := .stopped }
    else if wal.inFlightGroups.isEmpty then
      if wal.leader = .stopped then some { wal with syncer := .stopped } else none
    else
      some { wal with syncer := .syncing wal.inFlightGroups.length }
  | _ => none

/-- A sync has covered the first groups in flight. -/
def afterSync (groups : Nat) : WalState :=
  let noted := (wal.inFlightGroups.take groups).foldl noteSynced wal
  { noted with
    inFlightGroups := wal.inFlightGroups.drop groups
    durableLsn := noted.highestSealedLsn
    syncer := .idle }

/-- The syncer's sync has ended. -/
def syncerSynced (syncOk : Bool) : Option WalState :=
  match wal.syncer with
  | .syncing groups =>
    if syncOk || config.noSync then
      some (wal.afterSync groups)
    else
      some { wal with failed := true, syncer := .stopped }
  | _ => none

end Syncer

section Checkpoints

variable (config : WalConfig) (wal : WalState)

/-- The head that a checkpoint at this LSN names, and the groups it leaves. -/
def moveHead (headLsn : Nat) : WalState :=
  let lsn := min (max wal.head.lsn headLsn) (wal.nextLsn + 1)
  let active := wal.activeGroups.dropWhile fun group => group.lastLsn < lsn
  { wal with
    activeGroups := active
    head :=
      match active with
      | group :: _ =>
        { lsn := lsn
          groupNum := group.groupNum
          lap := group.lap
          ringOffset := group.offset
          chain := group.chain }
      | [] =>
        { lsn := lsn
          groupNum := wal.nextGroupNum + 1
          lap := wal.cursor.currentLap
          ringOffset := wal.cursor.currentRingOffset
          chain := wal.previousGroupChecksum } }

/--
`Checkpoint`, its first section under the mutex, with what it throws.  One caller
at a time holds `CheckpointMutex`.
-/
def captureHead (headLsn globalFlushedSeq : Nat)
    (payload : List UInt8) : Option (WalState × Option WalError) :=
  match wal.checkpointer with
  | .idle =>
    if wal.failed then
      some (wal, some (.ioError "WAL is in failed state"))
    else
      some
        ({ wal.moveHead headLsn with
            checkpointer := .captured wal.durableLsn globalFlushedSeq payload },
          none)
  | _ => none

/--
`Checkpoint`, up to its write, with what it throws; `newest` is the number of the
newest checkpoint on the device, which the first one of this log goes on from.
-/
def writeCheckpoint (newest : Option Nat) : Option (WalState × Option WalError) :=
  match wal.checkpointer with
  | .captured durableLsn globalFlushedSeq payload =>
    let last := wal.lastCheckpointNum.getD (newest.getD 0)
    let totalBytes := alignToWal (checkpointHeaderBytes + payload.length)
    if config.checkpointSlotBytes ≠ 0 ∧ config.checkpointSlotBytes < totalBytes then
      some
        ({ wal with lastCheckpointNum := some last, checkpointer := .idle },
          some (.lengthError ("checkpoint payload of " ++ toString payload.length ++
            " bytes does not fit a checkpoint slot of " ++
            toString config.checkpointSlotBytes ++ " bytes")))
    else
      some
        ({ wal with
            lastCheckpointNum := some last
            checkpointer :=
              .writing
                { checkpointNum := last + 1
                  head := wal.head
                  durableLsn := durableLsn
                  globalFlushedSeq := globalFlushedSeq
                  payload := payload } },
          none)
  | _ => none

/-- `Checkpoint` has failed at its write or its sync. -/
def failCheckpoint : WalState × Option WalError :=
  ({ wal with failed := true, checkpointer := .idle },
    some (.ioError "Failed to write checkpoint slot"))

/-- The write of the checkpoint has ended. -/
def checkpointWrote (writeOk : Bool) : Option (WalState × Option WalError) :=
  match wal.checkpointer with
  | .writing checkpoint =>
    if writeOk then
      some ({ wal with checkpointer := .syncing checkpoint }, none)
    else
      some wal.failCheckpoint
  | _ => none

/-- The sync of the checkpoint has ended: recovery now scans from its head. -/
def checkpointSynced (syncOk : Bool) : Option (WalState × Option WalError) :=
  match wal.checkpointer with
  | .syncing checkpoint =>
    if syncOk || config.noSync then
      some
        ({ wal with
            lastCheckpointNum := some checkpoint.checkpointNum
            cursor :=
              wal.cursor.landCheckpoint checkpoint.head.lap checkpoint.head.ringOffset
            checkpointer := .idle },
          none)
    else
      some wal.failCheckpoint
  | _ => none

end Checkpoints

end WalState

/-- One step of the log: a caller's call, or a section of one of its threads. -/
inductive WalEvent where
  | reserve (size : Nat) (room : Room) (credit : Nat) (owes : List PromotionDebt)
  | reserveGroup (sizes : List Nat) (spend : List PromotionDebt)
  | release (reservation : Reservation)
  | append
      (type : WalRecordType) (body : List UInt8) (flags : UInt8) (debt : PromotionDebtChange)
  | appendReserved
      (reservation : Reservation)
      (type : WalRecordType) (body : List UInt8) (flags : UInt8) (debt : PromotionDebtChange)
  | changePromotionDebt (debt : PromotionDebtChange)
  | leaderTurn
  | leaderWrote (writeOk : Bool)
  | syncerTurn
  | syncerSynced (syncOk : Bool)
  | captureHead (headLsn globalFlushedSeq : Nat) (payload : List UInt8)
  | writeCheckpoint (newest : Option Nat)
  | checkpointWrote (writeOk : Bool)
  | checkpointSynced (syncOk : Bool)
  | setAutoSealOnQuiet (on : Bool)
  | stop
  deriving Repr, DecidableEq

/-- A refused call leaves the log as it was. -/
def WalState.orUnchanged (wal : WalState) : Except WalError WalState → WalState
  | .ok accepted => accepted
  | .error _ => wal

/-- The step an event is, if the log is at a place to take it. -/
def walStep (config : WalConfig) (sums : Checksums) (wal : WalState) : WalEvent → Option WalState
  | .reserve size room credit owes =>
    some (wal.orUnchanged (wal.reserve config size room credit owes))
  | .reserveGroup sizes spend =>
    some (wal.orUnchanged (wal.reserveGroup config sizes spend))
  | .release reservation =>
    if reservation ∈ wal.reservations then
      some (wal.releaseReservation reservation)
    else
      none
  | .append type body flags debt =>
    some (wal.orUnchanged (wal.append config type body flags debt))
  | .appendReserved reservation type body flags debt =>
    if reservation ∈ wal.reservations then
      some (wal.orUnchanged (wal.appendReserved config reservation type body flags debt))
    else
      none
  | .changePromotionDebt debt => some (wal.changePromotionDebt debt)
  | .leaderTurn => wal.leaderTurn config sums
  | .leaderWrote writeOk => wal.leaderWrote config writeOk
  | .syncerTurn => wal.syncerTurn
  | .syncerSynced syncOk => wal.syncerSynced config syncOk
  | .captureHead headLsn globalFlushedSeq payload =>
    (wal.captureHead headLsn globalFlushedSeq payload).map Prod.fst
  | .writeCheckpoint newest => (wal.writeCheckpoint config newest).map Prod.fst
  | .checkpointWrote writeOk => (wal.checkpointWrote writeOk).map Prod.fst
  | .checkpointSynced syncOk => (wal.checkpointSynced config syncOk).map Prod.fst
  | .setAutoSealOnQuiet on => some { wal with autoSealOnQuiet := on }
  | .stop => some { wal with stopping := true }

end Orly
