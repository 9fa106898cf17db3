import Orly.WalRecovery

namespace Orly

/-!
# No acknowledged record is lost

Recovery after a crash gives back every acknowledged record from the head of its
checkpoint on, in every run whose groups are ordinary.  A group with a record that
puts the magic of a group at the start of a page is not: long after its lap is
over, that page may stand where the scan expects the next group, and passes for a
damaged header of it.
-/

open CrashDisk GrownLists List

variable {config : WalConfig} {sums : Checksums} {disk image : DeviceImage} {system : WalSystem}

/-- Every record from the head on that a crash may not lose is given back, and no other. -/
structure RecoversAll (system : WalSystem) (start : ScanStart) (result : ScanResult) : Prop where
  notDamaged : result.status ≠ .damagedAcknowledged
  notCorrupt : result.status ≠ .corrupt
  inOrder : result.records.Pairwise fun first second => first.lsn < second.lsn
  acknowledged : ∀ record ∈ system.appended,
      start.lsn ≤ record.lsn → record.lsn ≤ system.wal.durableLsn → record.scanned ∈ result.records
  appended : ∀ found ∈ result.records, ∃ record ∈ system.appended, found = record.scanned

/-- A head that recovery may start from is a place the scan may come to. -/
theorem scanPoint_of_head
    (history : LogHistory config sums system) {head : HeadMark} {before after : List Group}
    (split : system.placed = before ++ after) (headAt : HeadAt head before after)
    (checkpointed : system.wal.cursor.checkpointedHead ≤ head.position) :
    ScanPoint config system.wal.cursor head.lap head.ringOffset before after := by
  have grown := history.grown
  rw [split] at grown
  rcases headAt.position with atEnd | ⟨group, rest, rfl, atGroup⟩
  · obtain ⟨lapEq, offsetEq⟩ := Prod.mk.inj (toLex_inj.mp atEnd)
    exact {
      head := checkpointed
      behind := fun group mem =>
        (ringEnd_le_ringEndOf grown.left mem).trans_eq atEnd.symm
      aligned := by
        rw [offsetEq]
        exact (ringEndOf_mem_ring grown.left).1
      next := by
        rintro group rest rfl
        have position := (grown before group rest rfl).position
        rw [← lapEq, ← offsetEq] at position
        rw [Group.position]
        split at position
        case isTrue beyond => exact Or.inr ⟨by rw [position.1, position.2], beyond⟩
        case isFalse => exact Or.inl (by rw [position.1, position.2]) }
  · obtain ⟨-, offsetEq⟩ := Prod.mk.inj (toLex_inj.mp atGroup)
    exact {
      head := checkpointed
      behind := fun other mem => (ringEnd_le_position grown mem).trans_eq atGroup.symm
      aligned := by
        rw [offsetEq]
        exact (grown before group rest rfl).aligned
      next := by
        rintro other others eq
        obtain ⟨rfl, -⟩ := List.cons.inj eq
        exact Or.inl atGroup.symm }

/-- The lap of a head has a next one. -/
theorem headLap_fits (ordinary : system.Ordinary sums) {head : HeadMark} {before after : List Group}
    (split : system.placed = before ++ after) (headAt : HeadAt head before after) :
    head.lap + 1 < 2 ^ 32 := by
  rcases headAt.position with atEnd | ⟨group, rest, rfl, atGroup⟩
  · obtain ⟨lapEq, -⟩ := Prod.mk.inj (toLex_inj.mp atEnd)
    rw [lapEq]
    rcases eq_nil_or_concat' before with rfl | ⟨groups, last, rfl⟩
    · decide
    · rw [ringEndOf_concat]
      exact ordinary.laps last (by simp [split])
  · obtain ⟨lapEq, -⟩ := Prod.mk.inj (toLex_inj.mp atGroup)
    rw [lapEq]
    exact ordinary.laps group (by simp [split])

/-- Where a scan from a head starts. -/
def HeadMark.scanStart (head : HeadMark) : ScanStart where
  groupNum := head.groupNum
  lsn := head.lsn
  lap := head.lap
  ringOffset := head.ringOffset
  chain := head.chain

/-- Recovery starts from a head that splits the groups, at or after the checkpointed one. -/
theorem recoveryStart_cases {landed pending : List Checkpoint}
    (checkpoints : CheckpointProgress config system landed pending) (fresh : FreshDisk disk)
    (crash : system.Crashes config sums disk image) (ordinary : system.Ordinary sums)
    (noCollision : system.NoCollision sums image) :
    ∃ head : HeadMark, recoveryStart (newestCheckpoint config sums image) = head.scanStart ∧
        HeadOf system.placed head ∧
        system.wal.cursor.checkpointedHead ≤ head.position ∧
        head.groupNum < 2 ^ 64 := by
  have begunEq : system.begun = landed ++ pending := checkpoints.begun
  have fromCheckpoint : ∀ checkpoint ∈ landed ++ pending,
      newestCheckpoint config sums image = some checkpoint →
        system.wal.cursor.checkpointedHead ≤ checkpoint.head.position → ∃ head : HeadMark,
            recoveryStart (newestCheckpoint config sums image) = head.scanStart ∧
              HeadOf system.placed head ∧
              system.wal.cursor.checkpointedHead ≤ head.position ∧
              head.groupNum < 2 ^ 64 := by
    intro checkpoint mem found checkpointed
    have headOf := checkpoints.heads checkpoint mem
    have inRange := ordinary.checkpoints checkpoint (begunEq ▸ mem)
    refine ⟨checkpoint.head, ?_, headOf, checkpointed, inRange.headGroupNum⟩
    obtain ⟨before, after, -, headAt⟩ := headOf
    rw [found, recoveryStart, if_pos (by rw [headAt.groupNum]; exact Nat.succ_pos _)]
    rfl
  rcases newestCheckpoint_cases checkpoints fresh crash ordinary noCollision with
    last | ⟨checkpoint, mem, found⟩
  · rcases eq_nil_or_concat' landed with rfl | ⟨earlier, checkpoint, rfl⟩
    · refine ⟨{ lsn := 1, groupNum := 1, lap := 1, ringOffset := 0, chain := 0 }, ?_,
        ⟨[], system.placed, rfl, ⟨rfl, rfl, Nat.zero_lt_one, Or.inl rfl⟩⟩,
        checkpoints.checkpointed.le, by decide⟩
      rw [last]
      rfl
    · rw [getLast?_concat] at last
      refine fromCheckpoint checkpoint (by simp) last ?_
      rw [checkpoints.checkpointed, headPositionOf, getLast?_concat]
      exact le_refl _
  · exact fromCheckpoint checkpoint (mem_append_right _ mem) found
      (checkpoints.pendingHead checkpoint mem)

/-- The scan starts at the head with nothing accepted. -/
theorem atPoint_init
    (history : LogHistory config sums system) (ordinary : system.Ordinary sums) {head : HeadMark}
    {before after : List Group} (split : system.placed = before ++ after)
    (headAt : HeadAt head before after)
    (checkpointed : system.wal.cursor.checkpointedHead ≤ head.position) :
    AtPoint config system.wal.cursor head.scanStart before [] after (.init head.scanStart) where
  point := by
    rw [append_nil]
    exact scanPoint_of_head history split headAt checkpointed
  groupNum := by
    rw [append_nil]
    exact headAt.groupNum
  chain := by
    rw [append_nil]
    exact headAt.chain
  records := rfl
  lastLsn := rfl
  startLsn := headAt.lsn
  lapFits := fun _ => headLap_fits ordinary split headAt

/-- A scan that accepts every synced group gives back what was acknowledged. -/
theorem recoversAll_of_recovers
    (history : LogHistory config sums system) {synced flying retired : List Group}
    (progress : SyncProgress system synced flying) {start : ScanStart}
    (retiredLt : (recordsOf retired).length < start.lsn) {final : ScanState}
    (recovers : Recovers system synced retired final) :
    RecoversAll system start (final.finish config) := by
  obtain ⟨status, accepted, after, split, passed, records⟩ := recovers
  obtain ⟨rest, appendedEq⟩ := history.placedFirst
  rw [split, recordsOf_append, recordsOf_append,
    append_assoc (recordsOf retired ++ recordsOf accepted)] at appendedEq
  have order := history.ordered
  rw [← appendedEq] at order
  have found : (final.finish config).records = (recordsOf accepted).map WalRecord.scanned := by
    rw [ScanState.finish_records, records]
  have syncedLe : (recordsOf synced).length ≤ (recordsOf retired ++ recordsOf accepted).length := by
    have syncedFirst : synced <+: system.placed := by
      rw [progress.placed, append_assoc]
      exact List.prefix_append _ _
    have passedFirst : retired ++ accepted <+: system.placed := by
      rw [split]
      exact List.prefix_append _ _
    obtain ⟨more, passedEq⟩ := List.prefix_of_prefix_length_le syncedFirst passedFirst passed
    rw [← recordsOf_append, ← passedEq]
    exact recordsOf_length_le synced more
  have durable := progress.durable.trans_eq progress.highestSynced
  refine ⟨?_, ?_, ?_, ?_, ?_⟩
  · rw [ScanState.finish_status]
    exact status.1
  · rw [ScanState.finish_status]
    exact status.2
  · rw [found, pairwise_map]
    exact (InLsnOrder.pairwise_lt order.left).sublist (sublist_append_right _ _)
  · intro record mem headLe lsnLe
    rw [found]
    refine mem_map_of_mem ?_
    rw [← appendedEq] at mem
    rcases mem_append.mp mem with placed | later
    · rcases mem_append.mp placed with older | here
      · have lsnBelow := InLsnOrder.lsn_le (order.left) older
        omega
      · exact here
    · have lsnAbove := InLsnOrder.lt_lsn order later
      omega
  · intro scanned mem
    rw [found] at mem
    obtain ⟨record, recordMember, rfl⟩ := mem_map.mp mem
    refine ⟨record, ?_, rfl⟩
    rw [← appendedEq]
    simp [recordMember]

/--
Recovery after a crash loses no acknowledged record and reports no damage, in every
run from a new store with ordinary groups and checkpoints.
-/
theorem recovery_keeps_acknowledged
    (config : WalConfig) (sums : Checksums) (disk image : DeviceImage) (system : WalSystem)
    (syncs : config.noSync = false) (noEarlyAck : config.earlyAck = false)
    (fresh : FreshDisk disk)
    (reached : EventRuns.Reaches (systemStep config sums disk) (fun _ _ => True) (.start config)
        system)
    (ordinary : system.Ordinary sums)
    (crash : system.Crashes config sums disk image)
    (noCollision : system.NoCollision sums image) :
    ∃ result, recoveryScan config sums image = some result ∧
      RecoversAll system (recoveryStart (newestCheckpoint config sums image)) result := by
  have invariant : SystemInvariant config sums system :=
    reached.invariant (.start config sums) fun _ _ _ holds _ stepped =>
      holds.step syncs noEarlyAck fresh stepped
  obtain ⟨synced, flying, progress⟩ := invariant.syncs
  obtain ⟨landed, pending, checkpoints⟩ := invariant.checkpoints
  have crashed : CrashOf config sums disk system synced flying image :=
    ⟨invariant.history, invariant.ordered, progress, fresh, crash, ordinary, noCollision⟩
  obtain ⟨head, startEq, ⟨before, after, split, headAt⟩, checkpointed, numFits⟩ :=
    recoveryStart_cases checkpoints fresh crash ordinary noCollision
  have atPoint := atPoint_init invariant.history ordinary split headAt checkpointed
  obtain ⟨last, final, passes, stopped, recovers⟩ :=
    crashed.endsWell atPoint (by rw [split, append_nil])
  obtain ⟨result, scanned⟩ := scan_ends config sums image.ring head.scanStart numFits
  rw [recoveryScan, startEq]
  refine ⟨result, scanned, ?_⟩
  rw [ScanState.loop_of_passes passes stopped scanned]
  exact recoversAll_of_recovers invariant.history progress headAt.lsn recovers

/-! ## Two runs -/

/-- A ring of five pages. -/
def fivePages : WalConfig where
  capacityBytes := 20480
  storeId := ⟨List.replicate 16 0, length_zeroBytes⟩
  maxInFlightGroups := 2
  autoSealOnQuiet := true
  noSync := false
  earlyAck := false
  checkpointSlotBytes := 0
  capacityAligned := by decide
  capacityHoldsPage := by decide
  capacityFits := by decide

/-- A device of zeros. -/
def blankDisk : DeviceImage := fun _ => zeroPage

theorem zeroPage_noMagic : zeroPage.hasMagic = false := by
  decide +kernel

theorem freshDisk_blankDisk : FreshDisk blankDisk where
  ring := fun _ => zeroPage_noMagic
  slot0 := by decide +kernel
  slot1 := by decide +kernel

/-- A record is appended, written, synced and sealed. -/
def appendAndSeal (body : List UInt8) : List WalEvent :=
  [.append .txn body 0 { owed := [], repaid := [] }, .leaderTurn, .leaderWrote true,
    .syncerTurn, .syncerSynced true, .leaderTurn, .leaderWrote true, .syncerTurn,
    .syncerSynced true]

/-- A checkpoint moves the head to this LSN. -/
def checkpointAt (headLsn : Nat) (newest : Option Nat) : List WalEvent :=
  [.captureHead headLsn 0 [], .writeCheckpoint newest, .checkpointWrote true,
    .checkpointSynced true]

/-- The system that events run to from a new store on a device of zeros. -/
def runOnBlank (events : List WalEvent) : Option WalSystem :=
  EventRuns.run (systemStep fivePages polynomialSums blankDisk) (fun _ _ => True)
    (.start fivePages) events

/-- The image on which a crash has lost nothing. -/
def WalSystem.nothingLost (system : WalSystem) : DeviceImage :=
  writeAll blankDisk
    (pagesOf fivePages polynomialSums (system.writes.take system.covered) ++
      pagesOf fivePages polynomialSums (system.writes.drop system.covered ++ system.unfinished))

/-- A crash may lose nothing. -/
theorem crashes_nothingLost (system : WalSystem) :
    system.Crashes fivePages polynomialSums blankDisk system.nothingLost :=
  CrashImage.all _ _ _

/-- Two records are acknowledged, one of them under a checkpoint; a third is being written. -/
def plainEvents : List WalEvent :=
  appendAndSeal [1, 2, 3] ++ checkpointAt 2 none ++ appendAndSeal [4, 5] ++
    [.append .txn [6] 0 { owed := [], repaid := [] }, .leaderTurn]

/-- Two rounds around a checkpoint, and a crash that loses nothing. -/
theorem recovery_keeps_plainEvents : ∃ system, runOnBlank plainEvents = some system ∧
      ∃ result, recoveryScan fivePages polynomialSums system.nothingLost = some result ∧
        RecoversAll system
          (recoveryStart (newestCheckpoint fivePages polynomialSums system.nothingLost))
          result := by
  have ran : (runOnBlank plainEvents).any (fun system =>
      decide (system.Ordinary polynomialSums) &&
        decide (system.NoCollision polynomialSums system.nothingLost)) = true := by
    decide +kernel
  obtain ⟨system, runs, holds⟩ := (Option.any_eq_true _ _).mp ran
  simp only [Bool.and_eq_true, decide_eq_true_eq] at holds
  exact ⟨system, runs,
    recovery_keeps_acknowledged fivePages polynomialSums blankDisk system.nothingLost system
      rfl rfl freshDisk_blankDisk (EventRuns.reaches_of_run runs) holds.1
      (crashes_nothingLost system) holds.2⟩

/-- A record of a group of two pages. -/
def plainBody : List UInt8 := List.replicate 4020 0

/-- A record that puts the magic of a group at the start of its group's second page. -/
def magicBody : List UInt8 :=
  List.replicate 3988 0 ++ walMagic ++ List.replicate 24 255

/--
The magic is written to the last page of the ring in lap 1.  In lap 2 the log ends
before that page, under a checkpoint, and the next group wraps to lap 3.
-/
def staleMagicEvents : List WalEvent :=
  appendAndSeal plainBody ++ checkpointAt 2 none ++ appendAndSeal magicBody ++
    checkpointAt 3 (some 1) ++ appendAndSeal plainBody ++ checkpointAt 4 (some 2) ++
    appendAndSeal plainBody

/-- The device has lost nothing, and recovery reports acknowledged damage. -/
theorem recovery_reports_stale_magic : FreshDisk blankDisk ∧
      ∃ system, runOnBlank staleMagicEvents = some system ∧
        system.Crashes fivePages polynomialSums blankDisk system.nothingLost ∧
        system.NoCollision polynomialSums system.nothingLost ∧
        (recoveryScan fivePages polynomialSums system.nothingLost).map ScanResult.status =
          some .damagedAcknowledged := by
  have ran : (runOnBlank staleMagicEvents).any (fun system =>
      decide (system.NoCollision polynomialSums system.nothingLost) &&
        decide ((recoveryScan fivePages polynomialSums system.nothingLost).map
          ScanResult.status = some .damagedAcknowledged)) = true := by
    decide +kernel
  obtain ⟨system, runs, holds⟩ := (Option.any_eq_true _ _).mp ran
  simp only [Bool.and_eq_true, decide_eq_true_eq] at holds
  exact ⟨freshDisk_blankDisk, system, runs, crashes_nothingLost system, holds.1, holds.2⟩

/-! ## On the device -/

/-- Whatever the records hold, a crash leaves the group of each acknowledged one, from the
head on, whole on the device. -/
theorem acknowledged_on_device
    (syncs : config.noSync = false) (noEarlyAck : config.earlyAck = false) (fresh : FreshDisk disk)
    (reached :
      EventRuns.Reaches (systemStep config sums disk) (fun _ _ => True) (.start config) system)
    (crash : system.Crashes config sums disk image) :
    ∀ record ∈ system.appended, record.lsn ≤ system.wal.durableLsn →
      ∃ group ∈ system.placed, record ∈ group.records ∧
        (system.wal.cursor.checkpointedHead ≤ group.position → ∀ index < group.pages,
          image (.ring (group.offset / walAlignment + index)) =
            pageAt (group.bytes sums) index) := by
  intro record appended acknowledged
  have invariant : SystemInvariant config sums system :=
    reached.invariant (.start config sums) fun _ _ _ holds _ stepped =>
      holds.step syncs noEarlyAck fresh stepped
  obtain ⟨synced, flying, progress⟩ := invariant.syncs
  obtain ⟨rest, all⟩ := invariant.history.placedFirst
  have order := invariant.history.ordered
  rw [← all, progress.placed, append_assoc, recordsOf_append, append_assoc] at order appended
  rcases mem_append.mp appended with isSynced | later
  · obtain ⟨group, mem, inGroup⟩ := mem_flatMap.mp isSynced
    obtain ⟨before, after, split⟩ := append_of_mem mem
    refine ⟨group, by simp [progress.placed, mem], inGroup, fun headLe index lt => ?_⟩
    exact ring_intact progress invariant.history invariant.ordered crash split headLe lt
  · have unsynced := order.lt_lsn later
    have durable := progress.durable
    rw [progress.highestSynced] at durable
    omega

/-- One record, acknowledged and on the device. -/
theorem acknowledged_on_device_once : ∃ system, runOnBlank (appendAndSeal [1]) = some system ∧
      ∃ group ∈ system.placed, ∀ index < group.pages,
        system.nothingLost (.ring (group.offset / walAlignment + index)) =
          pageAt (group.bytes polynomialSums) index := by
  have ran : (runOnBlank (appendAndSeal [1])).any (fun system =>
      (∀ group ∈ system.placed, system.wal.cursor.checkpointedHead ≤ group.position) ∧
        ∃ record ∈ system.appended, record.lsn ≤ system.wal.durableLsn) = true := by
    decide +kernel
  obtain ⟨system, runs, holds⟩ := (Option.any_eq_true _ _).mp ran
  obtain ⟨heads, record, appended, acknowledged⟩ := of_decide_eq_true holds
  obtain ⟨group, placed, _, onDevice⟩ := acknowledged_on_device rfl rfl freshDisk_blankDisk
    (EventRuns.reaches_of_run runs) (crashes_nothingLost system) record appended acknowledged
  exact ⟨system, runs, group, placed, onDevice (heads group placed)⟩

end Orly
