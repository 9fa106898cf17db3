import Orly.EventRuns
import Orly.OperationReload

namespace Orly

/-!
# Runs of the operation table, with checkpoints and crashes

The sessions that reserve, log and complete keyed operations, the checkpointer that
saves a snapshot with a head, and a crash after which the table is loaded from the last
saved snapshot and the records of the log from its head on are restored.
-/

/-- The server's configuration of the table: a result is capped at 8192 bytes. -/
def serverOperationConfig
    (retentionCount retentionSeconds outcomeBytes : Nat) : OperationConfig where
  retentionCount := retentionCount
  retentionAgeSeconds := retentionSeconds
  resultBytes := min outcomeBytes 8192

/-- `SetOperationResult`: a result over the cap is not kept. -/
def setOperationResult (config : OperationConfig) (bytes : List UInt8) : Option (List UInt8) :=
  if bytes.length ≤ config.resultBytes then some bytes else none

/-- A keyed commit record of the log. -/
structure KeyedRecord where
  lsn : Nat
  povId : Uuid
  opId : OperationId
  sequenceNumber : UInt64
  result : Option (List UInt8)
  hash : UInt64
  deriving DecidableEq

/-- The outcome a record carries: what `CompleteOperation` stores when it is written and
`RestoreOperation` when it is replayed. -/
def KeyedRecord.outcome (record : KeyedRecord) : Outcome where
  sequenceNumber := record.sequenceNumber
  lsn := record.lsn
  persistent := true
  result := record.result
  hash := record.hash

/-- An outcome is the recorded one; its log position may have been forgotten. -/
def KeyedRecord.Recorded (record : KeyedRecord) (outcome : Outcome) : Prop :=
  outcome = record.outcome ∨ outcome = { record.outcome with lsn := 0 }

instance (record : KeyedRecord) (outcome : Outcome) : Decidable (record.Recorded outcome) :=
  inferInstanceAs (Decidable (_ ∨ _))

/-- How far a request has come. -/
inductive RequestPhase where
  | reserved
  | committing (result : Option (List UInt8))
  | logged (record : KeyedRecord)
  deriving DecidableEq

/-- `TSession::TOperation`: a request that has reserved its operation. -/
structure OperationRequest where
  povId : Uuid
  opId : OperationId
  hash : UInt64
  persistent : Bool
  phase : RequestPhase := .reserved
  deriving DecidableEq

/-- A request is of an operation. -/
def OperationRequest.Names (request : OperationRequest) (povId : Uuid)
    (opId : OperationId) : Prop :=
  request.povId = povId ∧ request.opId = opId

instance (request : OperationRequest) (povId : Uuid) (opId : OperationId) :
    Decidable (request.Names povId opId) :=
  inferInstanceAs (Decidable (_ ∧ _))

/-- How far the checkpointer has come. -/
inductive SnapshotPhase where
  | idle
  | headChosen (headLsn : Nat)
  | snapshotTaken (headLsn : Nat) (payload : List UInt8)
  deriving DecidableEq

/-- A checkpoint on disk. -/
structure SavedCheckpoint where
  headLsn : Nat
  payload : List UInt8
  deriving DecidableEq

/-- The table, the running requests, the keyed records of the log and the checkpoints.
`headLsn` is the log's own head, `completed` are the operations that completed since the
server started. -/
structure OperationSystem where
  table : OperationTable
  requests : List OperationRequest := []
  log : List KeyedRecord := []
  nextLsn : Nat := 1
  headLsn : Nat := 0
  checkpoint : SnapshotPhase := .idle
  saved : Option SavedCheckpoint := none
  completed : List DoneKey := []

/-- What happens, with the clock where a call reads it. -/
inductive OperationEvent where
  | reserve (povId : Uuid) (opId : OperationId) (hash : UInt64) (persistent : Bool)
      (now : Nat)
  | beginCommit (povId : Uuid) (opId : OperationId) (floorLsn : Nat)
      (bytes : List UInt8)
  | append (povId : Uuid) (opId : OperationId) (sequenceNumber : UInt64)
  | complete (povId : Uuid) (opId : OperationId) (now : Nat)
  | completeUnlogged (povId : Uuid) (opId : OperationId) (sequenceNumber : UInt64)
      (bytes : List UInt8) (now : Nat)
  | release (povId : Uuid) (opId : OperationId)
  | appendOther
  | prune (now : Nat)
  | refuseUnknownBefore (ms : Nat)
  | holdHead (floorLsn : Nat)
  | releaseHead (token : Nat)
  | chooseHead (headLsn : Nat)
  | takeSnapshot (budget : Nat) (sorted : List SnapshotItem)
  | saveCheckpoint
  | checkpointFails
  | abandonCheckpoint
  | crash (lost : List Nat) (nextLsn : Nat)
      (retentionCount retentionSeconds outcomeBytes : Nat)
      (loadClock replayClock : RestoreClock)

/-- The table after a restart: `Load` of the saved payload, then `Restore` of the records
from the head on.  `none` where `Load` throws. -/
def recoverOperations
    (config : OperationConfig) (saved : Option SavedCheckpoint) (log : List KeyedRecord)
    (loadClock replayClock : RestoreClock) : Option OperationTable :=
  let fresh : OperationTable := { config := config }
  let headLsn := (saved.map SavedCheckpoint.headLsn).getD 0
  let loaded :=
    match saved with
    | none => some fresh
    | some checkpoint => fresh.load checkpoint.payload loadClock
  loaded.map fun table =>
    (log.filter fun record => headLsn ≤ record.lsn).foldl
      (fun restored record =>
        restored.restore record.povId record.opId record.outcome
          (replayClock record.povId record.opId))
      table

namespace OperationSystem

/-- The running request of an operation. -/
def request? (system : OperationSystem) (povId : Uuid) (opId : OperationId) :
    Option OperationRequest :=
  system.requests.find? fun request => request.Names povId opId

/-- The other running requests. -/
def otherRequests (system : OperationSystem) (povId : Uuid) (opId : OperationId) :
    List OperationRequest :=
  system.requests.filter fun request => ¬ request.Names povId opId

/-- The log's head once `TWal::Checkpoint` is given one: it never moves back. -/
def movedHead (system : OperationSystem) (headLsn : Nat) : Nat :=
  min (max system.headLsn headLsn) system.nextLsn

/-- A checkpoint is saved under the head its snapshot is for. -/
def savesItsHead (system : OperationSystem) : OperationEvent → Bool
  | .saveCheckpoint =>
    match system.checkpoint with
    | .snapshotTaken headLsn _ => system.headLsn ≤ headLsn
    | _ => true
  | _ => true

end OperationSystem

/-- One event.  `none` where it cannot happen: a session begins a commit with a floor at
or below the next LSN, logs, and only then completes; it releases a request that logged
nothing; a head is at or below the next LSN and `HeadFloor`; a saved payload fits the
32-bit length of the checkpoint's header; and the LSNs after a crash go on behind the
records that are left and the saved head. -/
def operationStep (system : OperationSystem) : OperationEvent → Option OperationSystem
  | .reserve povId opId hash persistent now =>
    let (table, answer) := system.table.reserve povId opId.val hash now
    match answer with
    | .isNew =>
      some
        { system with
          table
          requests := { povId, opId, hash, persistent } :: system.requests }
    | .known _ => some { system with table }
    | .refused _ => some { system with table }
  | .beginCommit povId opId floorLsn bytes =>
    (system.request? povId opId).bind fun request =>
      if request.phase = .reserved ∧ request.persistent ∧ floorLsn ≤ system.nextLsn then
        let result := setOperationResult system.table.config bytes
        some
          { system with
            table := system.table.beginCommit povId opId floorLsn
            requests :=
              { request with phase := .committing result } ::
                system.otherRequests povId opId }
      else
        none
  | .append povId opId sequenceNumber =>
    (system.request? povId opId).bind fun request =>
      match request.phase with
      | .committing result =>
        let record :=
          { lsn := system.nextLsn, povId, opId, sequenceNumber, result,
            hash := request.hash : KeyedRecord }
        some
          { system with
            log := system.log ++ [record]
            nextLsn := system.nextLsn + 1
            requests :=
              { request with phase := .logged record } ::
                system.otherRequests povId opId }
      | .reserved => none
      | .logged _ => none
  | .complete povId opId now =>
    (system.request? povId opId).bind fun request =>
      match request.phase with
      | .logged record =>
        some
          { system with
            table := system.table.complete povId opId record.outcome now
            requests := system.otherRequests povId opId
            completed := ⟨povId, opId⟩ :: system.completed }
      | .reserved => none
      | .committing _ => none
  | .completeUnlogged povId opId sequenceNumber bytes now =>
    (system.request? povId opId).bind fun request =>
      if request.phase = .reserved ∧ ¬ request.persistent then
        let outcome :=
          { sequenceNumber
            result := setOperationResult system.table.config bytes
            hash := request.hash : Outcome }
        some
          { system with
            table := system.table.complete povId opId outcome now
            requests := system.otherRequests povId opId
            completed := ⟨povId, opId⟩ :: system.completed }
      else
        none
  | .release povId opId =>
    (system.request? povId opId).bind fun request =>
      match request.phase with
      | .logged _ => none
      | .reserved | .committing _ =>
        some
          { system with
            table := system.table.release povId opId
            requests := system.otherRequests povId opId }
  | .appendOther => some { system with nextLsn := system.nextLsn + 1 }
  | .prune now => some { system with table := system.table.prune now }
  | .refuseUnknownBefore ms =>
    some { system with table := system.table.refuseUnknownBefore ms }
  | .holdHead floorLsn =>
    some { system with table := (system.table.holdHead floorLsn).1 }
  | .releaseHead token =>
    some { system with table := system.table.releaseHead token }
  | .chooseHead headLsn =>
    if system.checkpoint = .idle ∧ headLsn ≤ system.nextLsn ∧ headLsn ≤ system.table.headFloor then
      some { system with checkpoint := .headChosen headLsn }
    else
      none
  | .takeSnapshot budget sorted =>
    match system.checkpoint with
    | .headChosen headLsn =>
      if ByTimestamp sorted (system.table.snapshotItems headLsn) then
        some
          { system with
            checkpoint := .snapshotTaken headLsn (system.table.snapshot budget sorted) }
      else
        none
    | .idle => none
    | .snapshotTaken _ _ => none
  | .saveCheckpoint =>
    match system.checkpoint with
    | .snapshotTaken headLsn payload =>
      if payload.length < 2 ^ 32 then
        some
          { system with
            headLsn := system.movedHead headLsn
            checkpoint := .idle
            saved := some { headLsn := system.movedHead headLsn, payload } }
      else
        none
    | .idle => none
    | .headChosen _ => none
  | .checkpointFails =>
    match system.checkpoint with
    | .snapshotTaken headLsn _ =>
      some { system with headLsn := system.movedHead headLsn, checkpoint := .idle }
    | .idle => none
    | .headChosen _ => none
  | .abandonCheckpoint => some { system with checkpoint := .idle }
  | .crash lost nextLsn retentionCount retentionSeconds outcomeBytes loadClock
      replayClock =>
      let config := serverOperationConfig retentionCount retentionSeconds outcomeBytes
      let log := system.log.filter fun record => record.lsn ∉ lost
      if 0 < nextLsn ∧ (∀ record ∈ log, record.lsn < nextLsn) ∧
          (∀ checkpoint ∈ system.saved, checkpoint.headLsn ≤ nextLsn) then
        (recoverOperations config system.saved log loadClock replayClock).map fun table =>
          { table, log, nextLsn, saved := system.saved
            headLsn := (system.saved.map SavedCheckpoint.headLsn).getD 0 }
      else
        none

/-- A new store: an empty table and an empty log. -/
def OperationSystem.initial
    (retentionCount retentionSeconds outcomeBytes : Nat) : OperationSystem where
  table :=
    { config := serverOperationConfig retentionCount retentionSeconds outcomeBytes }

/-! ## What holds in every run -/

/-- The operation of a record is settled with its outcome. -/
abbrev RecordSettled (table : OperationTable) (record : KeyedRecord) : Prop :=
  Settled record.Recorded table record.povId record.opId

/-- A payload holds every record of the log below its head. -/
structure PayloadHolds (log : List KeyedRecord) (nextLsn headLsn : Nat)
    (payload : List UInt8) : Prop where
  head : headLsn ≤ nextLsn
  holds : ∃ povs, payload = encodePayload povs ∧ (∀ pov ∈ povs, pov.InRange) ∧
    ∀ record ∈ log, record.lsn < headLsn → HeldBy record.Recorded povs record.povId record.opId

/-- The slot of a running request, and the floor it holds once it commits. -/
structure RequestSlot
    (table : OperationTable) (log : List KeyedRecord) (nextLsn : Nat) (request : OperationRequest)
    (slot : Slot) : Prop where
  found : table.slot? request.povId request.opId = some slot
  notDone : slot.isDone = false
  hash : slot.outcome.hash = request.hash
  committing : ∀ result, request.phase = .committing result →
    0 < slot.floorLsn ∧ slot.floorLsn ≤ nextLsn ∧ ∀ bytes ∈ result, bytes.length < 2 ^ 16
  logged : ∀ record, request.phase = .logged record →
    0 < slot.floorLsn ∧ slot.floorLsn ≤ record.lsn ∧
      record ∈ log ∧ request.Names record.povId record.opId ∧ request.hash = record.hash

/-- The invariant of the system. -/
structure OperationInvariant (system : OperationSystem) : Prop where
  bookkeeping : TableInvariant system.table
  requests : ∀ request ∈ system.requests, ∃ slot,
    RequestSlot system.table system.log system.nextLsn request slot
  distinct : system.requests.Pairwise fun left right =>
    ¬ left.Names right.povId right.opId
  positive : 0 < system.nextLsn
  lsns : ∀ record ∈ system.log, record.lsn < system.nextLsn
  results : ∀ record ∈ system.log, ∀ bytes ∈ record.result, bytes.length < 2 ^ 16
  keys : system.log.Pairwise fun left right =>
    ¬ (left.povId = right.povId ∧ left.opId = right.opId)
  settled : ∀ record ∈ system.log, RecordSettled system.table record ∨
    ∃ request ∈ system.requests, request.phase = .logged record
  headChosen : ∀ headLsn, system.checkpoint = .headChosen headLsn →
    headLsn ≤ system.nextLsn ∧ ∀ record ∈ system.log, record.lsn < headLsn →
      RecordSettled system.table record
  snapshotTaken : ∀ headLsn payload, system.checkpoint = .snapshotTaken headLsn payload →
      PayloadHolds system.log system.nextLsn headLsn payload
  saved : ∀ checkpoint ∈ system.saved,
    PayloadHolds system.log system.nextLsn checkpoint.headLsn checkpoint.payload ∧
      checkpoint.payload.length < 2 ^ 32
  completed : ∀ key ∈ system.completed, Settled (fun _ => True) system.table key.povId key.opId

end Orly
