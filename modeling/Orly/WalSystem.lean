import Orly.CrashDisk
import Orly.WalPages

namespace Orly

/-!
# The log on its device

The log together with the device it writes to: which writes have ended, which of
them a completed sync covers, what a crash may leave, and the recovery from it.
Next to them the system keeps the history that recovery is to give back: the
records that were appended and the groups that were given a position.
-/

open CrashDisk

/-- A page of the device: of the ring, or of a checkpoint slot. -/
inductive DeviceAddress where
  | ring (page : Nat)
  | slot0 (page : Nat)
  | slot1 (page : Nat)
  deriving Repr, DecidableEq

/-- What each page of the device holds. -/
abbrev DeviceImage := DeviceAddress → Page

namespace DeviceImage

def ring (image : DeviceImage) : RingImage := fun page => some (image (.ring page))

def slot0 (image : DeviceImage) : RingImage := fun page => some (image (.slot0 page))

def slot1 (image : DeviceImage) : RingImage := fun page => some (image (.slot1 page))

end DeviceImage

/-- Odd checkpoints go to slot 0 and even ones to slot 1. -/
def slotAddress (checkpointNum page : Nat) : DeviceAddress :=
  if checkpointNum % 2 = 1 then .slot0 page else .slot1 page

/-- A write the log makes to the device. -/
inductive WalWrite where
  | group (group : Group)
  | checkpoint (checkpoint : Checkpoint)
  deriving DecidableEq

namespace WalWrite

def group? : WalWrite → Option Group
  | .group written => some written
  | .checkpoint _ => none

def checkpoint? : WalWrite → Option Checkpoint
  | .group _ => none
  | .checkpoint written => some written

/-- The pages a write puts on the device. -/
def pages (config : WalConfig) (sums : Checksums) : WalWrite → List (DeviceAddress × Page)
  | .group written =>
    (List.range written.pages).map fun index =>
      (.ring (written.offset / walAlignment + index), pageAt (written.bytes sums) index)
  | .checkpoint written =>
    (List.range written.pages).map fun index =>
      (slotAddress written.checkpointNum index, pageAt (written.bytes config sums) index)

end WalWrite

/-- The log, its device and the history of both. -/
structure WalSystem where
  wal : WalState
  /-- Every record that was appended, oldest first. -/
  appended : List WalRecord
  /-- Every group that was given a position, oldest first. -/
  placed : List Group
  /-- The writes that have ended well, oldest first. -/
  writes : List WalWrite
  /-- The group that is being written, or whose write failed. -/
  writingGroup : Option Group
  /-- The checkpoint that is being written, or whose write failed. -/
  writingCheckpoint : Option Checkpoint
  /-- A completed sync covers so many of the writes. -/
  covered : Nat
  /-- So many writes had ended when the syncer's sync began. -/
  syncMark : Nat
  /-- So many writes had ended when the checkpoint's sync began. -/
  checkpointMark : Nat

namespace WalSystem

variable (system : WalSystem)

/-- The log of a new store. -/
def start (config : WalConfig) : WalSystem where
  wal := .start config .newStore
  appended := []
  placed := []
  writes := []
  writingGroup := none
  writingCheckpoint := none
  covered := 0
  syncMark := 0
  checkpointMark := 0

/-- A call that may have appended a record. -/
def noteAppend (type : WalRecordType) (body : List UInt8) (flags : UInt8)
    (after : WalState) : WalSystem :=
  { system with
    wal := after
    appended :=
      if system.wal.nextLsn < after.nextLsn then
        system.appended ++
          [{ lsn := after.nextLsn, type := type, flags := flags, body := body }]
      else
        system.appended }

/-- A turn of the leader that may have begun to write a group. -/
def noteTurn (after : WalState) : WalSystem :=
  match after.leader with
  | .writing group =>
    { system with
      wal := after
      placed := system.placed ++ [group]
      writingGroup := some group }
  | _ => { system with wal := after }

/-- The leader's write has ended well: its pages are all on the device. -/
def noteWritten (after : WalState) : WalSystem :=
  { system with
    wal := after
    writes := system.writes ++ system.writingGroup.toList.map WalWrite.group
    writingGroup := none }

/-- A turn of the checkpoint that may have begun to write. -/
def noteCheckpoint (after : WalState) : WalSystem :=
  match after.checkpointer with
  | .writing checkpoint =>
    { system with wal := after, writingCheckpoint := some checkpoint }
  | _ => { system with wal := after }

/-- The checkpoint's write has ended well, and its sync begins. -/
def noteCheckpointWritten (after : WalState) : WalSystem :=
  { system with
    wal := after
    writes := system.writes ++ system.writingCheckpoint.toList.map WalWrite.checkpoint
    writingCheckpoint := none
    checkpointMark := system.writes.length + 1 }

/-- What the device and the history learn of a step of the log. -/
def note (config : WalConfig) (system : WalSystem) (after : WalState) : WalEvent → WalSystem
  | .append type body flags _ => system.noteAppend type body flags after
  | .appendReserved _ type body flags _ => system.noteAppend type body flags after
  | .leaderTurn => system.noteTurn after
  | .leaderWrote true => system.noteWritten after
  | .syncerTurn => { system with wal := after, syncMark := system.writes.length }
  | .syncerSynced true =>
    { system with
      wal := after
      covered :=
        if config.noSync then system.covered else max system.covered system.syncMark }
  | .writeCheckpoint _ => system.noteCheckpoint after
  | .checkpointWrote true => system.noteCheckpointWritten after
  | .checkpointSynced true =>
    { system with
      wal := after
      covered :=
        if config.noSync then system.covered
        else max system.covered system.checkpointMark }
  | _ => { system with wal := after }

section Device

variable (config : WalConfig) (sums : Checksums) (disk : DeviceImage) (system : WalSystem)

/-- The pages of some writes. -/
def pagesOf (writes : List WalWrite) : List (DeviceAddress × Page) :=
  writes.flatMap (WalWrite.pages config sums)

/-- The writes that have not ended well. -/
def unfinished : List WalWrite :=
  system.writingGroup.toList.map WalWrite.group ++
    system.writingCheckpoint.toList.map WalWrite.checkpoint

/-- What reading the device gives once every write so far has ended. -/
def content : DeviceImage :=
  writeAll disk (pagesOf config sums system.writes)

/--
A crash keeps every write that a completed sync covers, and any of the pages of
the others and of those that have not ended.
-/
def Crashes (image : DeviceImage) : Prop :=
  CrashImage disk (pagesOf config sums (system.writes.take system.covered))
    (pagesOf config sums (system.writes.drop system.covered ++ system.unfinished)) image

end Device

end WalSystem

/-- The newest checkpoint on a device. -/
def newestCheckpoint (config : WalConfig) (sums : Checksums)
    (image : DeviceImage) : Option Checkpoint :=
  readNewestCheckpoint config sums image.slot0 image.slot1

/-- The number of the newest checkpoint on the device. -/
def WalSystem.newestNum (config : WalConfig) (sums : Checksums) (disk : DeviceImage)
    (system : WalSystem) : Option Nat :=
  (newestCheckpoint config sums (system.content config sums disk)).map Checkpoint.checkpointNum

/-- What an event says was read from the device is on it. -/
def WalSystem.reads (config : WalConfig) (sums : Checksums) (disk : DeviceImage)
    (system : WalSystem) : WalEvent → Bool
  | .writeCheckpoint newest => newest = system.newestNum config sums disk
  | _ => true

/-- One step of the log on its device. -/
def systemStep (config : WalConfig) (sums : Checksums) (disk : DeviceImage) (system : WalSystem)
    (event : WalEvent) : Option WalSystem :=
  if system.reads config sums disk event then
    (walStep config sums system.wal event).map fun after => system.note config after event
  else
    none

/-- Where the server starts its scan: at the head of the checkpoint it found, if any. -/
def recoveryStart (found : Option Checkpoint) : ScanStart :=
  match found with
  | none => { groupNum := 1, lsn := 1, lap := 1, ringOffset := 0, chain := 0 }
  | some checkpoint =>
    if 0 < checkpoint.head.groupNum then
      { groupNum := checkpoint.head.groupNum
        lsn := checkpoint.head.lsn
        lap := checkpoint.head.lap
        ringOffset := checkpoint.head.ringOffset
        chain := checkpoint.head.chain }
    else
      { groupNum := 1, lsn := checkpoint.head.lsn, lap := 1, ringOffset := 0, chain := 0 }

/-- Recovery: `ReadNewestCheckpoint`, and `Scan` from its head. -/
def recoveryScan (config : WalConfig) (sums : Checksums)
    (image : DeviceImage) : Option ScanResult :=
  scan config sums image.ring (recoveryStart (newestCheckpoint config sums image))

end Orly
