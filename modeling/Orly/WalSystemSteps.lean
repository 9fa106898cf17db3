import Orly.WalOrder
import Orly.WalSystem

namespace Orly

/-!
# What each step of the log on its device does

The steps of the log come down to a few changes of what matters to recovery.  Every
invariant of a run is shown over these.
-/

open GreedyBatches WalState

/-- The records the leader has taken and not placed. -/
def LeaderPhase.taken : LeaderPhase → List WalRecord
  | .waiting batch => batch
  | _ => []

/-- The leader is not writing a group. -/
def LeaderPhase.NotWriting (leader : LeaderPhase) : Prop :=
  ∀ group, leader ≠ .writing group

/-- What a step changes, without `NoSync` and `EarlyAck`. -/
inductive SystemStep (config : WalConfig) (sums : Checksums) (disk : DeviceImage)
    (system : WalSystem) : WalSystem → Prop
  /-- Room is accounted for, or a setting changes. -/
  | accounts
      (ledger : RoomLedger)
      (promotions : PromotionRoom)
      (reservations : List Reservation)
      (autoSealOnQuiet stopping : Bool) :
      SystemStep config sums disk system
        { system with
          wal :=
            { system.wal with
              ledger := ledger
              promotions := promotions
              reservations := reservations
              autoSealOnQuiet := autoSealOnQuiet
              stopping := stopping } }
  | appends
      (ledger : RoomLedger)
      (promotions : PromotionRoom)
      (reservations : List Reservation)
      (record : WalRecord)
      (lsn : record.lsn = system.wal.nextLsn + 1) :
      SystemStep config sums disk system
        { system with
          wal :=
            { system.wal with
              ledger := ledger
              promotions := promotions
              reservations := reservations
              nextLsn := system.wal.nextLsn + 1
              pendingRecords := system.wal.pendingRecords ++ [record] }
          appended := system.appended ++ [record] }
  /-- The leader moves on without a group. -/
  | leaderMoves
      (leader : LeaderPhase)
      (failed : Bool)
      (notWriting : system.wal.leader.NotWriting)
      (stillFailed : system.wal.failed = true → failed = true)
      (idle : leader = .stopped ∨
          (leader.NotWriting ∧ leader.taken = [] ∧ system.wal.leader.taken = [] ∧
            system.wal.leader ≠ .stopped)) :
      SystemStep config sums disk system
        { system with wal := { system.wal with leader := leader, failed := failed } }
  /-- The leader takes records that do not fit the ring yet. -/
  | leaderTakes
      (batch left : List WalRecord)
      (ready : system.wal.leader = .ready)
      (split : system.wal.pendingRecords = batch ++ left) :
      SystemStep config sums disk system
        { system with
          wal := { system.wal with pendingRecords := left, leader := .waiting batch } }
  | places
      (batch left : List WalRecord)
      (notWriting : system.wal.leader.NotWriting)
      (running : system.wal.leader ≠ .stopped)
      (split : system.wal.leader.taken ++ system.wal.pendingRecords = batch ++ left)
      (fit : system.wal.cursor.fits config (groupBytesOf (payloadBytes batch)) = true) :
      SystemStep config sums disk system
        { system with
          wal := { system.wal with pendingRecords := left }.placeGroup config sums batch
          placed := system.placed ++ [system.wal.nextGroup config sums batch]
          writingGroup := some (system.wal.nextGroup config sums batch) }
  | groupWritten
      (group : Group)
      (leader : LeaderPhase)
      (writing : system.wal.leader = .writing group)
      (notWriting : leader.NotWriting)
      (nothingTaken : leader.taken = []) :
      SystemStep config sums disk system
        { system with
          wal :=
            { system.wal with
              inFlightGroups := system.wal.inFlightGroups ++ [group.inFlight]
              leader := leader }
          writes := system.writes ++ system.writingGroup.toList.map WalWrite.group
          writingGroup := none }
  | groupFails
      (group : Group)
      (writing : system.wal.leader = .writing group) :
      SystemStep config sums disk system
        { system with wal := { system.wal with failed := true, leader := .stopped } }
  | syncBegins :
      SystemStep config sums disk system
        { system with
          wal := { system.wal with syncer := .syncing system.wal.inFlightGroups.length }
          syncMark := system.writes.length }
  | syncerStops
      (failed : Bool)
      (syncMark : Nat)
      (stillFailed : system.wal.failed = true → failed = true) :
      SystemStep config sums disk system
        { system with
          wal := { system.wal with syncer := .stopped, failed := failed }
          syncMark := syncMark }
  | syncEnds
      (groups : Nat)
      (syncing : system.wal.syncer = .syncing groups) :
      SystemStep config sums disk system
        { system with
          wal := system.wal.afterSync groups
          covered := max system.covered system.syncMark }
  | captures
      (headLsn globalFlushedSeq : Nat)
      (payload : List UInt8)
      (idle : system.wal.checkpointer = .idle)
      (running : system.wal.failed = false) :
      SystemStep config sums disk system
        { system with
          wal :=
            { system.wal.moveHead headLsn with
              checkpointer :=
                .captured system.wal.durableLsn globalFlushedSeq payload } }
  | checkpointTooLong
      (durableLsn globalFlushedSeq : Nat)
      (payload : List UInt8)
      (captured : system.wal.checkpointer = .captured durableLsn globalFlushedSeq payload) :
      SystemStep config sums disk system
        { system with
          wal :=
            { system.wal with
              lastCheckpointNum :=
                some (system.wal.lastCheckpointNum.getD
                  ((system.newestNum config sums disk).getD 0))
              checkpointer := .idle } }
  | checkpointBegins
      (checkpoint : Checkpoint)
      (durableLsn globalFlushedSeq : Nat)
      (payload : List UInt8)
      (captured : system.wal.checkpointer = .captured durableLsn globalFlushedSeq payload)
      (checkpointEq : checkpoint =
          system.wal.nextCheckpoint (system.newestNum config sums disk) durableLsn
            globalFlushedSeq payload)
      (fits : checkpoint.FitsSlot config) :
      SystemStep config sums disk system
        { system with
          wal :=
            { system.wal with
              lastCheckpointNum :=
                some (system.wal.lastCheckpointNum.getD
                  ((system.newestNum config sums disk).getD 0))
              checkpointer := .writing checkpoint }
          writingCheckpoint := some checkpoint }
  | checkpointWritten
      (checkpoint : Checkpoint)
      (writing : system.wal.checkpointer = .writing checkpoint) :
      SystemStep config sums disk system
        { system with
          wal := { system.wal with checkpointer := .syncing checkpoint }
          writes :=
            system.writes ++ system.writingCheckpoint.toList.map WalWrite.checkpoint
          writingCheckpoint := none
          checkpointMark := system.writes.length + 1 }
  | checkpointFails :
      SystemStep config sums disk system
        { system with wal := { system.wal with failed := true, checkpointer := .idle } }
  | checkpointLands
      (checkpoint : Checkpoint)
      (syncing : system.wal.checkpointer = .syncing checkpoint) :
      SystemStep config sums disk system
        { system with
          wal :=
            { system.wal with
              lastCheckpointNum := some checkpoint.checkpointNum
              cursor :=
                system.wal.cursor.landCheckpoint checkpoint.head.lap
                  checkpoint.head.ringOffset
              checkpointer := .idle }
          covered := max system.covered system.checkpointMark }

section Inversion

variable {config : WalConfig} {sums : Checksums} {disk : DeviceImage} {system : WalSystem}
  {after : WalState}

theorem leaderTop_cases (wal : WalState) : wal.leaderTop.NotWriting ∧ wal.leaderTop.taken = [] := by
  refine ⟨wal.leaderTop_ne_writing, ?_⟩
  rw [leaderTop]
  split <;> rfl

/-- A refused call changes nothing. -/
theorem systemStep_account {outcome : Except WalError WalState}
    (accepted : ∀ next, outcome = .ok next →
      SystemStep config sums disk system { system with wal := next }) :
    SystemStep config sums disk system
      { system with wal := system.wal.orUnchanged outcome } := by
  cases outcome with
  | error error =>
    exact .accounts system.wal.ledger system.wal.promotions system.wal.reservations
      system.wal.autoSealOnQuiet system.wal.stopping
  | ok next => exact accepted next rfl

/-- A refused call changes nothing, and an accepted one appends its record. -/
theorem systemStep_append (type : WalRecordType) (body : List UInt8) (flags : UInt8)
    {outcome : Except WalError WalState}
    (accepted : ∀ next, outcome = .ok next → ∃ ledger promotions reservations, next =
          { system.wal with
            ledger := ledger
            promotions := promotions
            reservations := reservations
            nextLsn := system.wal.nextLsn + 1
            pendingRecords :=
              system.wal.pendingRecords ++
                [{ lsn := system.wal.nextLsn + 1
                   type := type
                   flags := flags
                   body := body }] }) :
    SystemStep config sums disk system
      (system.noteAppend type body flags (system.wal.orUnchanged outcome)) := by
  cases outcome with
  | error error =>
    have unchanged : system.noteAppend type body flags system.wal = system := by
      simp [WalSystem.noteAppend]
    rw [orUnchanged, unchanged]
    exact .accounts system.wal.ledger system.wal.promotions system.wal.reservations
      system.wal.autoSealOnQuiet system.wal.stopping
  | ok next =>
    obtain ⟨ledger, promotions, reservations, rfl⟩ := accepted next rfl
    rw [orUnchanged, WalSystem.noteAppend, if_pos (Nat.lt_succ_self _)]
    exact .appends ledger promotions reservations _ rfl

/-- A batch is the front of the queue. -/
theorem leaderBatch_split {wal : WalState} {batch left : List WalRecord}
    (built : wal.leaderBatch config = some (batch, left)) :
    wal.pendingRecords = batch ++ left := by
  simp only [leaderBatch] at built
  split_ifs at built
  · have taken : (take WalRecord.encodedSize config.maxGroupPayload 0 wal.pendingRecords).1 ++
          (take WalRecord.encodedSize config.maxGroupPayload 0 wal.pendingRecords).2 =
            wal.pendingRecords :=
      take_append WalRecord.encodedSize config.maxGroupPayload 0 wal.pendingRecords
    rw [Option.some.inj built] at taken
    exact taken.symm
  · obtain ⟨rfl, rfl⟩ := Prod.mk.inj (Option.some.inj built)
    rfl

theorem noteTurn_of_notWriting (notWriting : after.leader.NotWriting) :
    system.noteTurn after = { system with wal := after } := by
  rw [WalSystem.noteTurn]
  split
  case h_1 group writing => exact absurd writing (notWriting group)
  case h_2 => rfl

theorem systemStep_leaderTurn (turn : system.wal.leaderTurn config sums = some after) :
    SystemStep config sums disk system (system.noteTurn after) := by
  cases leaderTurn_some turn with
  | stops ready finished =>
    exact .leaderMoves .stopped _ (by simp [LeaderPhase.NotWriting, ready]) id (Or.inl rfl)
  | @builds batch left ready wakes running built =>
    have split := leaderBatch_split built
    rw [buildGroup]
    split
    case isTrue fit =>
      exact .places batch left (by simp [LeaderPhase.NotWriting, ready]) (by simp [ready])
        (by rw [ready]; exact split) fit
    case isFalse => exact .leaderTakes batch left ready split
  | waitsForSlot ready =>
    refine .leaderMoves .slotWait _ (by simp [LeaderPhase.NotWriting, ready]) id (Or.inr ?_)
    simp [LeaderPhase.NotWriting, LeaderPhase.taken, ready]
  | resumes slotWait =>
    obtain ⟨notWriting, nothingTaken⟩ := leaderTop_cases system.wal
    rw [noteTurn_of_notWriting notWriting]
    refine .leaderMoves _ _ (by simp [LeaderPhase.NotWriting, slotWait]) id (Or.inr ?_)
    exact ⟨notWriting, nothingTaken, by simp [LeaderPhase.taken, slotWait],
      by simp [slotWait]⟩
  | @placesLate batch waiting fit =>
    exact .places batch system.wal.pendingRecords
      (by simp [LeaderPhase.NotWriting, waiting]) (by simp [waiting])
      (by rw [waiting]; rfl) fit
  | @givesUp batch waiting =>
    exact .leaderMoves .stopped true (by simp [LeaderPhase.NotWriting, waiting])
      (fun _ => rfl) (Or.inl rfl)

theorem systemStep_leaderWrote (noEarlyAck : config.earlyAck = false) {writeOk : Bool}
    (wrote : system.wal.leaderWrote config writeOk = some after) :
    SystemStep config sums disk system (system.note config after (.leaderWrote writeOk)) := by
  obtain ⟨group, writing, ⟨rfl, rfl⟩ | ⟨rfl, rfl⟩⟩ := leaderWrote_some wrote
  · obtain ⟨notWriting, nothingTaken⟩ := leaderTop_cases (system.wal.afterWrite config group)
    generalize (system.wal.afterWrite config group).leaderTop = top at *
    rw [afterWrite_eq]
    simp only [noEarlyAck, Bool.false_and, Bool.false_eq_true, if_false]
    exact .groupWritten group top writing notWriting nothingTaken
  · exact .groupFails group writing

theorem systemStep_syncerSynced (syncs : config.noSync = false) {syncOk : Bool}
    (synced : system.wal.syncerSynced config syncOk = some after) :
    SystemStep config sums disk system (system.note config after (.syncerSynced syncOk)) := by
  obtain ⟨groups, syncing, ⟨ok, rfl⟩ | ⟨failed, rfl⟩⟩ := syncerSynced_some synced
  · obtain rfl : syncOk = true := by simpa [syncs] using ok
    simp only [WalSystem.note, syncs, Bool.false_eq_true, if_false]
    exact .syncEnds groups syncing
  · obtain rfl : syncOk = false := by simpa [syncs] using failed
    exact .syncerStops true system.syncMark fun _ => rfl

theorem systemStep_checkpointSynced (syncs : config.noSync = false) {syncOk : Bool}
    (synced : (system.wal.checkpointSynced config syncOk).map Prod.fst = some after) :
    SystemStep config sums disk system (system.note config after (.checkpointSynced syncOk)) := by
  obtain ⟨checkpoint, syncing, ⟨ok, rfl⟩ | ⟨failed, rfl⟩⟩ := checkpointSynced_some synced
  · obtain rfl : syncOk = true := by simpa [syncs] using ok
    simp only [WalSystem.note, syncs, Bool.false_eq_true, if_false]
    exact .checkpointLands checkpoint syncing
  · obtain rfl : syncOk = false := by simpa [syncs] using failed
    exact .checkpointFails

theorem systemStep_some
    (syncs : config.noSync = false) (noEarlyAck : config.earlyAck = false) {event : WalEvent}
    {next : WalSystem} (stepped : systemStep config sums disk system event = some next) :
    SystemStep config sums disk system next := by
  rw [systemStep] at stepped
  split_ifs at stepped with reads
  obtain ⟨after, walStepped, rfl⟩ := Option.map_eq_some_iff.mp stepped
  cases event with
  | reserve =>
    cases walStepped
    refine systemStep_account fun next ok => ?_
    obtain ⟨-, rfl⟩ := reserve_ok ok
    exact .accounts _ _ _ _ _
  | reserveGroup =>
    cases walStepped
    refine systemStep_account fun next ok => ?_
    obtain ⟨-, rfl⟩ := reserveGroup_ok ok
    exact .accounts _ _ _ _ _
  | release =>
    rw [walStep] at walStepped
    split_ifs at walStepped
    cases walStepped
    exact .accounts _ _ _ _ _
  | append =>
    cases walStepped
    refine systemStep_append _ _ _ fun next ok => ?_
    obtain ⟨-, -, rfl⟩ := append_ok ok
    exact ⟨_, _, _, rfl⟩
  | appendReserved =>
    rw [walStep] at walStepped
    split_ifs at walStepped
    cases walStepped
    refine systemStep_append _ _ _ fun next ok => ?_
    obtain ⟨-, rfl⟩ := appendReserved_ok ok
    exact ⟨_, _, _, rfl⟩
  | changePromotionDebt | setAutoSealOnQuiet | stop =>
    cases walStepped
    exact .accounts _ _ _ _ _
  | leaderTurn => exact systemStep_leaderTurn walStepped
  | leaderWrote => exact systemStep_leaderWrote noEarlyAck walStepped
  | syncerTurn =>
    obtain ⟨-, ⟨-, rfl⟩ | ⟨-, rfl⟩⟩ := syncerTurn_some walStepped
    · exact .syncerStops _ _ id
    · exact .syncBegins
  | syncerSynced => exact systemStep_syncerSynced syncs walStepped
  | captureHead =>
    obtain ⟨idle, rfl | ⟨running, rfl⟩⟩ := captureHead_some walStepped
    · exact .accounts _ _ _ _ _
    · exact .captures _ _ _ idle running
  | writeCheckpoint newest =>
    obtain rfl : newest = system.newestNum config sums disk := by
      simpa [WalSystem.reads] using reads
    obtain ⟨_, _, _, captured, rfl | ⟨fits, rfl⟩⟩ := writeCheckpoint_some walStepped
    · exact .checkpointTooLong _ _ _ captured
    · exact .checkpointBegins _ _ _ _ captured rfl fits
  | checkpointWrote =>
    obtain ⟨checkpoint, writing, ⟨rfl, rfl⟩ | ⟨rfl, rfl⟩⟩ := checkpointWrote_some walStepped
    · exact .checkpointWritten checkpoint writing
    · exact .checkpointFails
  | checkpointSynced => exact systemStep_checkpointSynced syncs walStepped

end Inversion

end Orly
