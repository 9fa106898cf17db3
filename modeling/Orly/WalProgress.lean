import Orly.WalHistory

namespace Orly

/-!
# Synced groups and landed checkpoints

In every run, the groups whose records count as synced are covered by a completed
sync, and so is the checkpoint whose head bounds the ring.
-/

open GrownLists List

/-- The groups among some writes. -/
def groupsOf (writes : List WalWrite) : List Group :=
  writes.filterMap WalWrite.group?

/-- The checkpoints among some writes. -/
def checkpointsOf (writes : List WalWrite) : List Checkpoint :=
  writes.filterMap WalWrite.checkpoint?

section Writes

variable {first second : List WalWrite} {fewer more : Nat}

@[simp]
theorem groupsOf_append : groupsOf (first ++ second) = groupsOf first ++ groupsOf second :=
  filterMap_append

@[simp]
theorem checkpointsOf_append :
    checkpointsOf (first ++ second) = checkpointsOf first ++ checkpointsOf second :=
  filterMap_append

@[simp]
theorem groupsOf_map_group (groups : List Group) :
    groupsOf (groups.map WalWrite.group) = groups := by
  rw [groupsOf, filterMap_map]
  exact filterMap_some

@[simp]
theorem checkpointsOf_map_checkpoint (checkpoints : List Checkpoint) :
    checkpointsOf (checkpoints.map WalWrite.checkpoint) = checkpoints := by
  rw [checkpointsOf, filterMap_map]
  exact filterMap_some

@[simp]
theorem groupsOf_map_checkpoint (checkpoints : List Checkpoint) :
    groupsOf (checkpoints.map WalWrite.checkpoint) = [] := by
  simp [groupsOf, filterMap_eq_nil_iff, WalWrite.group?]

@[simp]
theorem checkpointsOf_map_group (groups : List Group) :
    checkpointsOf (groups.map WalWrite.group) = [] := by
  simp [checkpointsOf, filterMap_eq_nil_iff, WalWrite.checkpoint?]

theorem take_prefix_take (writes later : List WalWrite) (le : fewer ≤ more) :
    writes.take fewer <+: (writes ++ later).take more :=
  (List.take_prefix_take_left le).trans (List.IsPrefix.take (List.prefix_append _ _) more)

/-- More writes and a later mark leave the groups up to a mark in place. -/
theorem groupsOf_take_mono (writes later : List WalWrite) (le : fewer ≤ more) :
    groupsOf (writes.take fewer) <+: groupsOf ((writes ++ later).take more) :=
  (take_prefix_take writes later le).filterMap _

theorem checkpointsOf_take_mono (writes later : List WalWrite) (le : fewer ≤ more) :
    checkpointsOf (writes.take fewer) <+: checkpointsOf ((writes ++ later).take more) :=
  (take_prefix_take writes later le).filterMap _

end Writes

/-- Of the groups that are placed, these are synced and those are in flight. -/
structure SyncProgress (system : WalSystem) (synced flying : List Group) : Prop where
  placed : system.placed = synced ++ flying ++ system.writingGroup.toList
  written : groupsOf system.writes = synced ++ flying
  inFlight : system.wal.inFlightGroups = flying.map Group.inFlight
  writing : ∀ group, system.wal.leader = .writing group → system.writingGroup = some group
  notWriting : system.wal.leader.NotWriting → system.wal.leader ≠ .stopped →
      system.writingGroup = none
  highestSynced : system.wal.highestSyncedLsn = (recordsOf synced).length
  highestSealed : system.wal.highestSealedLsn ≤ system.wal.highestSyncedLsn
  durable : system.wal.durableLsn ≤ system.wal.highestSyncedLsn
  covered : synced <+: groupsOf (system.writes.take system.covered)
  syncing : ∀ groups, system.wal.syncer = .syncing groups → groups ≤ flying.length ∧
        synced ++ flying.take groups <+: groupsOf (system.writes.take system.syncMark)

namespace SyncProgress

variable {config : WalConfig} {sums : Checksums} {disk : DeviceImage} {system next : WalSystem}
  {synced flying : List Group}

section

variable (progress : SyncProgress system synced flying)

include progress

/-- A sync that ends covers the groups that were in flight when it began. -/
theorem syncEnds (history : LogHistory config sums system) {groups : Nat}
    (syncing : system.wal.syncer = .syncing groups) :
    SyncProgress
      { system with
        wal := system.wal.afterSync groups
        covered := max system.covered system.syncMark }
      (synced ++ flying.take groups) (flying.drop groups) := by
  obtain ⟨-, marked⟩ := progress.syncing groups syncing
  have split : synced ++ flying.take groups ++ flying.drop groups = synced ++ flying := by
    rw [append_assoc, take_append_drop]
  have grown : Grown (Follows config sums) (synced ++ flying.take groups) := by
    have all := history.grown
    rw [progress.placed, ← split] at all
    exact all.left.left
  have flyingSync : WalState.syncedThrough system.wal.highestSyncedLsn
          (system.wal.inFlightGroups.take groups) =
        (recordsOf (synced ++ flying.take groups)).length := by
    rw [progress.inFlight, ← map_take, progress.highestSynced, syncedThrough_inFlight grown]
  have flyingSeal : WalState.sealedThrough system.wal.highestSealedLsn
          (system.wal.inFlightGroups.take groups) ≤
        (recordsOf (synced ++ flying.take groups)).length := by
    rw [progress.inFlight, ← map_take]
    have le := recordsOf_length_le synced (flying.take groups)
    rw [← progress.highestSynced] at le
    refine sealedThrough_inFlight_le (progress.highestSealed.trans le) fun group mem => ?_
    refine (history.sealed group ?_).trans le
    rw [progress.placed]
    simp [mem_of_mem_take mem]
  rw [WalState.afterSync_eq]
  exact {
    placed := by rw [split]; exact progress.placed
    written := by rw [split]; exact progress.written
    inFlight := by
      rw [map_drop, ← progress.inFlight]
    writing := progress.writing
    notWriting := progress.notWriting
    highestSynced := flyingSync
    highestSealed := flyingSeal.trans flyingSync.ge
    durable := flyingSeal.trans flyingSync.ge
    covered := by
      have later := groupsOf_take_mono system.writes []
        (le_max_right system.covered system.syncMark)
      rw [append_nil] at later
      exact marked.trans later
    syncing := fun _ idle => by contradiction }

/-- A group that is written is in flight. -/
theorem groupWritten {group : Group} {leader : LeaderPhase}
    (writing : system.wal.leader = .writing group) (notWriting : leader.NotWriting) :
    SyncProgress
      { system with
        wal :=
          { system.wal with
            inFlightGroups := system.wal.inFlightGroups ++ [group.inFlight]
            leader := leader }
        writes := system.writes ++ system.writingGroup.toList.map WalWrite.group
        writingGroup := none }
      synced (flying ++ [group]) := by
  have current := progress.writing group writing
  exact { progress with
    placed := by simp [progress.placed, current]
    written := groupsOf_append.trans (by
      rw [groupsOf_map_group, progress.written, current, append_assoc]
      rfl)
    inFlight := by simp [progress.inFlight]
    writing := fun other again => absurd again (notWriting other)
    notWriting := fun _ _ => rfl
    covered := progress.covered.trans (groupsOf_take_mono _ _ le_rfl)
    syncing := fun groups syncing => by
      obtain ⟨le, marked⟩ := progress.syncing groups syncing
      rw [take_append_of_le_length le, length_append]
      exact ⟨Nat.le_add_right_of_le le, marked.trans (groupsOf_take_mono _ _ le_rfl)⟩ }

/-- The group that is placed is being written. -/
theorem places (notWriting : system.wal.leader.NotWriting) (running : system.wal.leader ≠ .stopped)
    (batch left : List WalRecord) :
    SyncProgress
      { system with
        wal := { system.wal with pendingRecords := left }.placeGroup config sums batch
        placed := system.placed ++ [system.wal.nextGroup config sums batch]
        writingGroup := some (system.wal.nextGroup config sums batch) }
      synced flying := by
  have noneBefore := progress.notWriting notWriting running
  exact { progress with
    placed := by simp [progress.placed, noneBefore]
    writing := fun group writing => congrArg some (LeaderPhase.writing.inj writing)
    notWriting := fun notWriting _ => absurd rfl (notWriting _) }

/-- Every step keeps the groups that are synced covered. -/
theorem step (history : LogHistory config sums system)
    (stepped : SystemStep config sums disk system next) :
    ∃ more flying', SyncProgress next (synced ++ more) flying' := by
  have unchanged : SyncProgress next synced flying →
        ∃ more flying', SyncProgress next (synced ++ more) flying' :=
    fun same => ⟨[], flying, by rwa [append_nil]⟩
  cases stepped with
  | accounts | appends | captures | checkpointTooLong | checkpointBegins | checkpointFails =>
    exact unchanged { progress with }
  | leaderMoves leader failed notWriting stillFailed idle =>
    refine unchanged { progress with
      writing := fun group writing => ?_
      notWriting := fun _ running => ?_ }
    · rcases idle with rfl | ⟨notWriting, -⟩
      · contradiction
      · exact absurd writing (notWriting group)
    · obtain ⟨-, -, -, ran⟩ := idle.resolve_left running
      exact progress.notWriting notWriting ran
  | leaderTakes batch left ready split =>
    refine unchanged { progress with
      writing := fun _ _ => by contradiction
      notWriting := fun _ _ =>
        progress.notWriting (by simp [LeaderPhase.NotWriting, ready]) (by simp [ready]) }
  | places batch left notWriting running split fit =>
    exact unchanged (progress.places notWriting running batch left)
  | groupWritten group leader writing notWriting nothingTaken =>
    exact ⟨[], _, by rw [append_nil]; exact progress.groupWritten writing notWriting⟩
  | groupFails group writing =>
    exact unchanged { progress with
      writing := fun _ _ => by contradiction
      notWriting := fun _ running => absurd rfl running }
  | syncBegins =>
    refine unchanged { progress with syncing := fun groups syncing => ?_ }
    obtain rfl : system.wal.inFlightGroups.length = groups := SyncerPhase.syncing.inj syncing
    rw [progress.inFlight, length_map, take_length, take_length, progress.written]
    exact ⟨le_refl _, List.prefix_refl _⟩
  | syncerStops =>
    exact unchanged { progress with syncing := fun _ _ => by contradiction }
  | syncEnds groups syncing => exact ⟨_, _, progress.syncEnds history syncing⟩
  | checkpointWritten checkpoint writing =>
    refine unchanged { progress with
      written := by simp [progress.written]
      covered := progress.covered.trans (groupsOf_take_mono _ _ le_rfl)
      syncing := fun groups syncing => ?_ }
    obtain ⟨le, marked⟩ := progress.syncing groups syncing
    exact ⟨le, marked.trans (groupsOf_take_mono _ _ le_rfl)⟩
  | checkpointLands checkpoint syncing =>
    have later := groupsOf_take_mono system.writes []
      (le_max_left system.covered system.checkpointMark)
    rw [append_nil] at later
    exact unchanged { progress with covered := progress.covered.trans later }

end

end SyncProgress

end Orly
