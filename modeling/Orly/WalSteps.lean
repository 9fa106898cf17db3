import Orly.Wal

namespace Orly

/-!
# What each step of the log does

One lemma for each operation of the log: what must have held for it to succeed,
and the state it leads to.
-/

open EventRuns GreedyBatches

namespace WalState

variable {config : WalConfig} {sums : Checksums} {wal after : WalState}

section Callers

theorem checkAppendable_ok {size : Nat} {value : Unit}
    (ok : wal.checkAppendable config size = .ok value) :
    wal.failed = false ∧ wal.stopping = false ∧ recordGroupBytes size ≤ config.capacityBytes := by
  simp only [checkAppendable] at ok
  split_ifs at ok with failed stopping big
  exact ⟨by simpa using failed, by simpa using stopping, by omega⟩

theorem reserve_ok {size credit : Nat} {room : Room} {owes : List PromotionDebt}
    (ok : wal.reserve config size room credit owes = .ok after) :
    wal.admits config (recordGroupBytes size) room credit (sumDebtBytes owes)
        (maxDebtGroupBytes owes) none = true ∧
      after =
        { wal with
          ledger := wal.ledger.charge (recordGroupBytes size)
          promotions := wal.promotions.owe owes
          reservations := wal.reservations ++ [{ size := size, owes := owes }] } := by
  obtain ⟨_, -, charged⟩ := exists_of_bind_ok ok
  dsimp only at charged
  split_ifs at charged with tooLarge admitted
  exact ⟨admitted, (Except.ok.inj charged).symm⟩

theorem reserveGroup_ok {sizes : List Nat} {spend : List PromotionDebt}
    (ok : wal.reserveGroup config sizes spend = .ok after) :
    wal.admits config ((sizes.map recordGroupBytes).sum + (sizes.length - 1) * walAlignment) .all
        (sumDebtBytes spend) 0 0 (some (biggestRecord sizes).1) = true ∧
      after =
        { wal with
          ledger := (sizes.map recordGroupBytes).foldl RoomLedger.charge wal.ledger
          promotions := wal.promotions.repay spend
          reservations :=
            wal.reservations ++ sizes.map fun size => { size := size, owes := [] } } := by
  obtain ⟨_, -, charged⟩ := exists_of_bind_ok ok
  change (if _ then _ else _) = _ at charged
  split_ifs at charged with admitted
  exact ⟨admitted, (Except.ok.inj charged).symm⟩

theorem append_ok
    {type : WalRecordType} {body : List UInt8} {flags : UInt8} {debt : PromotionDebtChange}
    (ok : wal.append config type body flags debt = .ok after) :
    wal.failed = false ∧
      wal.admits config (recordGroupBytes body.length) .all (sumDebtBytes debt.repaid)
        (sumDebtBytes debt.owed) (maxDebtGroupBytes debt.owed) none = true ∧
      after = (wal.changePromotionDebt debt).appendLocked config type body flags := by
  obtain ⟨_, appendable, appended⟩ := exists_of_bind_ok ok
  split_ifs at appended with admitted
  exact ⟨(checkAppendable_ok appendable).1, admitted, (Except.ok.inj appended).symm⟩

theorem appendReserved_ok
    {reservation : Reservation} {type : WalRecordType} {body : List UInt8} {flags : UInt8}
    {debt : PromotionDebtChange}
    (ok : wal.appendReserved config reservation type body flags debt = .ok after) :
    wal.failed = false ∧ after =
        ((wal.releaseReservation reservation).changePromotionDebt debt).appendLocked
          config type body flags := by
  obtain ⟨_, appendable, appended⟩ := exists_of_bind_ok ok
  exact ⟨(checkAppendable_ok appendable).1, (Except.ok.inj appended).symm⟩

/-- A property that a refused call cannot break needs a look at accepted ones only. -/
theorem orUnchanged_induction
    {Holds : WalState → Prop} {outcome : Except WalError WalState} (refused : Holds wal)
    (accepted : ∀ next, outcome = .ok next → Holds next) :
    Holds (wal.orUnchanged outcome) := by
  cases outcome with
  | error error => exact refused
  | ok next => exact accepted next rfl

end Callers

section Threads

/-- What a turn of the leader does. -/
inductive LeaderTurn (config : WalConfig) (sums : Checksums) (wal : WalState) : WalState → Prop
  | stops
      (ready : wal.leader = .ready)
      (finished : wal.failed = true ∨ wal.stopping = true) :
      LeaderTurn config sums wal { wal with leader := .stopped }
  | builds
      {batch left : List WalRecord}
      (ready : wal.leader = .ready)
      (wakes : wal.leaderWakes config = true)
      (running : wal.failed = false)
      (built : wal.leaderBatch config = some (batch, left)) :
      LeaderTurn config sums wal (wal.buildGroup config sums batch left)
  | waitsForSlot
      (ready : wal.leader = .ready) :
      LeaderTurn config sums wal { wal with leader := .slotWait }
  | resumes
      (slotWait : wal.leader = .slotWait) :
      LeaderTurn config sums wal { wal with leader := wal.leaderTop }
  | placesLate
      {batch : List WalRecord}
      (waiting : wal.leader = .waiting batch)
      (fit : wal.cursor.fits config (groupBytesOf (payloadBytes batch)) = true) :
      LeaderTurn config sums wal (wal.placeGroup config sums batch)
  | givesUp
      {batch : List WalRecord}
      (waiting : wal.leader = .waiting batch) :
      LeaderTurn config sums wal { wal with failed := true, leader := .stopped }

theorem leaderTurn_some (turn : wal.leaderTurn config sums = some after) :
    LeaderTurn config sums wal after := by
  cases phase : wal.leader with
  | ready =>
    simp only [leaderTurn, phase] at turn
    split_ifs at turn with asleep failed done
    · cases turn
      exact .stops phase (Or.inl failed)
    · cases turn
      simp only [Bool.and_eq_true] at done
      exact .stops phase (Or.inr done.1.1.1)
    · cases built : wal.leaderBatch config with
      | none =>
        rw [built] at turn
        cases turn
        exact .waitsForSlot phase
      | some taken =>
        rw [built] at turn
        cases turn
        exact .builds phase (by simpa using asleep) (by simpa using failed) built
  | slotWait =>
    simp only [leaderTurn, phase] at turn
    cases turn
    exact .resumes phase
  | waiting batch =>
    simp only [leaderTurn, phase] at turn
    split_ifs at turn with fit finished
    · cases turn
      exact .placesLate phase fit
    · cases turn
      exact .givesUp phase
  | writing | stopped => simp [leaderTurn, phase] at turn

/-- Only `EarlyAck` makes a write more than one more group in flight. -/
theorem afterWrite_eq (config : WalConfig) (wal : WalState) (group : Group) :
    wal.afterWrite config group =
      { wal with
        inFlightGroups := wal.inFlightGroups ++ [group.inFlight]
        highestSyncedLsn :=
          if config.earlyAck && !group.isSealOnly then
            max wal.highestSyncedLsn group.lastLsn
          else
            wal.highestSyncedLsn
        highestSealedLsn :=
          if config.earlyAck then max wal.highestSealedLsn group.lastLsn
          else wal.highestSealedLsn
        durableLsn :=
          if config.earlyAck then max wal.highestSealedLsn group.lastLsn
          else wal.durableLsn } := by
  cases early : config.earlyAck <;> cases sealOnly : group.isSealOnly <;>
    simp [afterWrite, earlyAck, early, sealOnly]

theorem leaderWrote_some {writeOk : Bool} (wrote : wal.leaderWrote config writeOk = some after) :
    ∃ group, wal.leader = .writing group ∧
      ((writeOk = true ∧
          after = { wal.afterWrite config group with
            leader := (wal.afterWrite config group).leaderTop }) ∨
        (writeOk = false ∧ after = { wal with failed := true, leader := .stopped })) := by
  cases phase : wal.leader with
  | writing group =>
    refine ⟨group, rfl, ?_⟩
    simp only [leaderWrote, phase] at wrote
    split_ifs at wrote with ok
    · exact Or.inl ⟨ok, (Option.some.inj wrote).symm⟩
    · exact Or.inr ⟨by simpa using ok, (Option.some.inj wrote).symm⟩
  | ready | slotWait | waiting | stopped => simp [leaderWrote, phase] at wrote

theorem syncerTurn_some (turn : wal.syncerTurn = some after) : wal.syncer = .idle ∧
      (((wal.failed = true ∨ wal.leader = .stopped) ∧
          after = { wal with syncer := .stopped }) ∨
        (wal.failed = false ∧
          after = { wal with syncer := .syncing wal.inFlightGroups.length })) := by
  cases phase : wal.syncer with
  | idle =>
    refine ⟨rfl, ?_⟩
    simp only [syncerTurn, phase] at turn
    split_ifs at turn with failed empty stopped
    · exact Or.inl ⟨Or.inl failed, (Option.some.inj turn).symm⟩
    · exact Or.inl ⟨Or.inr stopped, (Option.some.inj turn).symm⟩
    · exact Or.inr ⟨by simpa using failed, (Option.some.inj turn).symm⟩
  | syncing | stopped => simp [syncerTurn, phase] at turn

/-- The highest LSN synced once these groups are. -/
def syncedThrough (synced : Nat) (groups : List InFlightGroup) : Nat :=
  groups.foldl (fun synced group => if group.isSealOnly then synced else max synced group.lastLsn)
    synced

/-- The highest LSN sealed once these groups are synced. -/
def sealedThrough (sealed : Nat) (groups : List InFlightGroup) : Nat :=
  groups.foldl (fun sealed group => max sealed group.sealedThrough) sealed

theorem foldl_noteSynced (wal : WalState) (groups : List InFlightGroup) :
    groups.foldl noteSynced wal =
      { wal with
        highestSyncedLsn := syncedThrough wal.highestSyncedLsn groups
        highestSealedLsn := sealedThrough wal.highestSealedLsn groups } := by
  induction groups generalizing wal with
  | nil => rfl
  | cons group groups ih =>
    rw [List.foldl_cons, ih]
    rfl

theorem afterSync_eq (wal : WalState) (groups : Nat) : wal.afterSync groups =
      { wal with
        highestSyncedLsn :=
          syncedThrough wal.highestSyncedLsn (wal.inFlightGroups.take groups)
        highestSealedLsn :=
          sealedThrough wal.highestSealedLsn (wal.inFlightGroups.take groups)
        durableLsn :=
          sealedThrough wal.highestSealedLsn (wal.inFlightGroups.take groups)
        inFlightGroups := wal.inFlightGroups.drop groups
        syncer := .idle } := by
  rw [afterSync, foldl_noteSynced]

theorem syncerSynced_some {syncOk : Bool} (synced : wal.syncerSynced config syncOk = some after) :
    ∃ groups, wal.syncer = .syncing groups ∧
      (((syncOk || config.noSync) = true ∧ after = wal.afterSync groups) ∨
        ((syncOk || config.noSync) = false ∧
          after = { wal with failed := true, syncer := .stopped })) := by
  cases phase : wal.syncer with
  | syncing groups =>
    refine ⟨groups, rfl, ?_⟩
    simp only [syncerSynced, phase] at synced
    split_ifs at synced with ok
    · exact Or.inl ⟨ok, (Option.some.inj synced).symm⟩
    · exact Or.inr ⟨by simpa using ok, (Option.some.inj synced).symm⟩
  | idle | stopped => simp [syncerSynced, phase] at synced

end Threads

section Checkpoints

/-- The head is the oldest group still needed, or the next one wherever it goes. -/
theorem moveHead_cases (wal : WalState) (headLsn : Nat) :
    (∃ group groups, (wal.moveHead headLsn).activeGroups = group :: groups ∧
          (wal.moveHead headLsn).head =
            { lsn := min (max wal.head.lsn headLsn) (wal.nextLsn + 1)
              groupNum := group.groupNum
              lap := group.lap
              ringOffset := group.offset
              chain := group.chain }) ∨
      ((wal.moveHead headLsn).activeGroups = [] ∧ (wal.moveHead headLsn).head =
          { lsn := min (max wal.head.lsn headLsn) (wal.nextLsn + 1)
            groupNum := wal.nextGroupNum + 1
            lap := wal.cursor.currentLap
            ringOffset := wal.cursor.currentRingOffset
            chain := wal.previousGroupChecksum }) := by
  simp only [moveHead]
  split
  case h_1 group groups kept => exact Or.inl ⟨group, groups, kept, rfl⟩
  case h_2 retired => exact Or.inr ⟨retired, rfl⟩

theorem captureHead_some {headLsn globalFlushedSeq : Nat} {payload : List UInt8}
    (captured : (wal.captureHead headLsn globalFlushedSeq payload).map Prod.fst = some after) :
    wal.checkpointer = .idle ∧
      (after = wal ∨ (wal.failed = false ∧ after =
            { wal.moveHead headLsn with
              checkpointer := .captured wal.durableLsn globalFlushedSeq payload })) := by
  cases phase : wal.checkpointer with
  | idle =>
    refine ⟨rfl, ?_⟩
    simp only [captureHead, phase] at captured
    split_ifs at captured with failed
    · exact Or.inl (Option.some.inj captured).symm
    · exact Or.inr ⟨by simpa using failed, (Option.some.inj captured).symm⟩
  | captured | writing | syncing => simp [captureHead, phase] at captured

/-- The checkpoint that is written for what was captured. -/
def nextCheckpoint (wal : WalState) (newest : Option Nat) (durableLsn globalFlushedSeq : Nat)
    (payload : List UInt8) : Checkpoint where
  checkpointNum := wal.lastCheckpointNum.getD (newest.getD 0) + 1
  head := wal.head
  durableLsn := durableLsn
  globalFlushedSeq := globalFlushedSeq
  payload := payload

theorem writeCheckpoint_some {newest : Option Nat}
    (wrote : (wal.writeCheckpoint config newest).map Prod.fst = some after) :
    ∃ durableLsn globalFlushedSeq payload,
      wal.checkpointer = .captured durableLsn globalFlushedSeq payload ∧
        (after =
            { wal with
              lastCheckpointNum := some (wal.lastCheckpointNum.getD (newest.getD 0))
              checkpointer := .idle } ∨
          ((config.checkpointSlotBytes = 0 ∨ alignToWal (checkpointHeaderBytes + payload.length) ≤
                config.checkpointSlotBytes) ∧
            after =
              { wal with
                lastCheckpointNum := some (wal.lastCheckpointNum.getD (newest.getD 0))
                checkpointer :=
                  .writing
                    (wal.nextCheckpoint newest durableLsn globalFlushedSeq payload) })) := by
  cases phase : wal.checkpointer with
  | captured durableLsn globalFlushedSeq payload =>
    refine ⟨durableLsn, globalFlushedSeq, payload, rfl, ?_⟩
    simp only [writeCheckpoint, phase] at wrote
    split_ifs at wrote with tooLong
    · exact Or.inl (Option.some.inj wrote).symm
    · exact Or.inr ⟨by omega, (Option.some.inj wrote).symm⟩
  | idle | writing | syncing => simp [writeCheckpoint, phase] at wrote

theorem checkpointWrote_some {writeOk : Bool}
    (wrote : (wal.checkpointWrote writeOk).map Prod.fst = some after) :
    ∃ checkpoint, wal.checkpointer = .writing checkpoint ∧
      ((writeOk = true ∧ after = { wal with checkpointer := .syncing checkpoint }) ∨
        (writeOk = false ∧ after = { wal with failed := true, checkpointer := .idle })) := by
  cases phase : wal.checkpointer with
  | writing checkpoint =>
    refine ⟨checkpoint, rfl, ?_⟩
    simp only [checkpointWrote, phase] at wrote
    split_ifs at wrote with ok
    · exact Or.inl ⟨ok, (Option.some.inj wrote).symm⟩
    · exact Or.inr ⟨by simpa using ok, (Option.some.inj wrote).symm⟩
  | idle | captured | syncing => simp [checkpointWrote, phase] at wrote

theorem checkpointSynced_some {syncOk : Bool}
    (synced : (wal.checkpointSynced config syncOk).map Prod.fst = some after) :
    ∃ checkpoint, wal.checkpointer = .syncing checkpoint ∧
      (((syncOk || config.noSync) = true ∧ after =
            { wal with
              lastCheckpointNum := some checkpoint.checkpointNum
              cursor :=
                wal.cursor.landCheckpoint checkpoint.head.lap checkpoint.head.ringOffset
              checkpointer := .idle }) ∨
        ((syncOk || config.noSync) = false ∧
          after = { wal with failed := true, checkpointer := .idle })) := by
  cases phase : wal.checkpointer with
  | syncing checkpoint =>
    refine ⟨checkpoint, rfl, ?_⟩
    simp only [checkpointSynced, phase] at synced
    split_ifs at synced with ok
    · exact Or.inl ⟨ok, (Option.some.inj synced).symm⟩
    · exact Or.inr ⟨by simpa using ok, (Option.some.inj synced).symm⟩
  | idle | captured | writing => simp [checkpointSynced, phase] at synced

end Checkpoints

end WalState

end Orly
