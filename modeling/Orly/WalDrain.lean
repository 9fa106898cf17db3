import Orly.WalPromise

namespace Orly

/-!
# No accepted record is stranded

In every run that keeps to its reservations the group the leader builds fits at
once, and from every state the leader and the syncer alone, with the head standing
still, write, sync and seal every record the log has taken.
-/

open EventRuns

namespace WalState

/-- A thread of the log stops only when it is told to or has failed. -/
structure ThreadsRun (wal : WalState) : Prop where
  leader : wal.leader = .stopped → wal.failed = true ∨ wal.stopping = true
  syncer : wal.syncer = .stopped → wal.failed = true ∨ wal.stopping = true

/-- What every run that keeps to its reservations keeps. -/
structure Sound (config : WalConfig) (wal : WalState) : Prop where
  keeps : wal.KeepsPromise config
  ordered : wal.InRingOrder config
  running : wal.ThreadsRun

variable {wal : WalState} {config : WalConfig} {sums : Checksums} {after : WalState}
  {event : WalEvent}

theorem leaderTop_stopped (top : wal.leaderTop = .stopped) : wal.stopping = true := by
  rw [leaderTop] at top
  split at top
  · contradiction
  case isFalse finished =>
    simp only [Bool.or_eq_true, not_or] at finished
    simpa using finished.1.1

theorem ThreadsRun.step
    (running : wal.ThreadsRun) (stepped : walStep config sums wal event = some after) :
    after.ThreadsRun := by
  have same : ∀ next : WalState, next.leader = wal.leader → next.syncer = wal.syncer →
      next.failed = wal.failed → next.stopping = wal.stopping → next.ThreadsRun := by
    intro next leader syncer failed stopping
    exact ⟨fun finished => by rw [failed, stopping]; exact running.leader (leader ▸ finished),
      fun finished => by rw [failed, stopping]; exact running.syncer (syncer ▸ finished)⟩
  have failure : ∀ next : WalState, next.failed = true → next.ThreadsRun :=
    fun next failed => ⟨fun _ => Or.inl failed, fun _ => Or.inl failed⟩
  cases event with
  | reserve =>
    cases stepped
    refine orUnchanged_induction running fun next ok => ?_
    obtain ⟨-, rfl⟩ := reserve_ok ok
    exact same _ rfl rfl rfl rfl
  | reserveGroup =>
    cases stepped
    refine orUnchanged_induction running fun next ok => ?_
    obtain ⟨-, rfl⟩ := reserveGroup_ok ok
    exact same _ rfl rfl rfl rfl
  | release =>
    rw [walStep] at stepped
    split_ifs at stepped
    cases stepped
    exact same _ rfl rfl rfl rfl
  | append =>
    cases stepped
    refine orUnchanged_induction running fun next ok => ?_
    obtain ⟨-, -, rfl⟩ := append_ok ok
    exact same _ rfl rfl rfl rfl
  | appendReserved =>
    rw [walStep] at stepped
    split_ifs at stepped
    cases stepped
    refine orUnchanged_induction running fun next ok => ?_
    obtain ⟨-, rfl⟩ := appendReserved_ok ok
    exact same _ rfl rfl rfl rfl
  | changePromotionDebt | setAutoSealOnQuiet =>
    cases stepped
    exact same _ rfl rfl rfl rfl
  | leaderTurn =>
    cases leaderTurn_some stepped with
    | stops _ finished => exact ⟨fun _ => finished, running.syncer⟩
    | @builds batch left =>
      rw [buildGroup]
      split <;> exact ⟨fun stopped => LeaderPhase.noConfusion stopped, running.syncer⟩
    | waitsForSlot | placesLate =>
      exact ⟨fun stopped => LeaderPhase.noConfusion stopped, running.syncer⟩
    | resumes => exact ⟨fun stopped => Or.inr (leaderTop_stopped stopped), running.syncer⟩
    | givesUp => exact failure _ rfl
  | leaderWrote =>
    obtain ⟨group, -, ⟨-, rfl⟩ | ⟨-, rfl⟩⟩ := leaderWrote_some stepped
    · refine ⟨fun stopped => Or.inr ?_, ?_⟩
      · have stopping := leaderTop_stopped stopped
        rw [afterWrite_eq] at stopping ⊢
        exact stopping
      · generalize (wal.afterWrite config group).leaderTop = top
        rw [afterWrite_eq]
        exact running.syncer
    · exact failure _ rfl
  | syncerTurn =>
    obtain ⟨-, ⟨finished, rfl⟩ | ⟨-, rfl⟩⟩ := syncerTurn_some stepped
    · exact ⟨running.leader, fun _ => finished.elim Or.inl running.leader⟩
    · exact ⟨running.leader, fun stopped => SyncerPhase.noConfusion stopped⟩
  | syncerSynced =>
    obtain ⟨groups, -, ⟨-, rfl⟩ | ⟨-, rfl⟩⟩ := syncerSynced_some stepped
    · rw [afterSync_eq]
      exact ⟨running.leader, fun stopped => SyncerPhase.noConfusion stopped⟩
    · exact failure _ rfl
  | captureHead =>
    obtain ⟨-, rfl | ⟨-, rfl⟩⟩ := captureHead_some stepped
    · exact running
    · exact same _ rfl rfl rfl rfl
  | writeCheckpoint =>
    obtain ⟨_, _, _, -, rfl | ⟨-, rfl⟩⟩ := writeCheckpoint_some stepped <;>
      exact same _ rfl rfl rfl rfl
  | checkpointWrote =>
    obtain ⟨_, -, ⟨-, rfl⟩ | ⟨-, rfl⟩⟩ := checkpointWrote_some stepped
    · exact same _ rfl rfl rfl rfl
    · exact failure _ rfl
  | checkpointSynced =>
    obtain ⟨_, -, ⟨-, rfl⟩ | ⟨-, rfl⟩⟩ := checkpointSynced_some stepped
    · exact same _ rfl rfl rfl rfl
    · exact failure _ rfl
  | stop =>
    cases stepped
    exact ⟨fun _ => Or.inr rfl, fun _ => Or.inr rfl⟩

/-- Every step keeps the log sound. -/
theorem Sound.step (sound : wal.Sound config) (allowed : wal.KeepsReservations event)
    (stepped : walStep config sums wal event = some after) :
    after.Sound config :=
  ⟨sound.keeps.step sound.ordered allowed stepped, sound.ordered.step stepped,
    sound.running.step stepped⟩

/-- The recovered head, groups and write position are in ring order. -/
theorem sound_start
    {start : WalStart} (order : RingOrder config (WalState.start config start).cursor
        (WalState.start config start).head (WalState.start config start).activeGroups) :
    (WalState.start config start).Sound config :=
  ⟨keepsPromise_start config start, ⟨order, trivial⟩,
    ⟨fun stopped => LeaderPhase.noConfusion stopped,
      fun stopped => SyncerPhase.noConfusion stopped⟩⟩

/-- The log's own threads take a step, and the device does what they ask of it. -/
inductive ThreadsOnly (wal : WalState) : WalEvent → Prop
  | leaderTurn : ThreadsOnly wal .leaderTurn
  | leaderWrote : ThreadsOnly wal (.leaderWrote true)
  | syncerTurn : ThreadsOnly wal .syncerTurn
  | syncerSynced : ThreadsOnly wal (.syncerSynced true)

theorem ThreadsOnly.keepsReservations (threads : wal.ThreadsOnly event) :
    wal.KeepsReservations event := by
  cases threads <;> trivial

theorem Sound.reaches
    (sound : wal.Sound config) (reached : Reaches (walStep config sums) ThreadsOnly wal after) :
    after.Sound config :=
  reached.invariant sound fun _ _ _ sound threads stepped =>
    sound.step threads.keepsReservations stepped

/-- Both threads wait, and nothing is in flight. -/
structure Quiet (wal : WalState) : Prop where
  leader : wal.leader = .ready
  syncer : wal.syncer = .idle
  inFlight : wal.inFlightGroups = []
  running : wal.failed = false

/-- The records to write and the seal to come are as they were. -/
structure SameWork (wal after : WalState) : Prop where
  pending : after.pendingRecords = wal.pendingRecords
  unsealed : after.ledger.unsealed = wal.ledger.unsealed
  autoSeal : after.autoSealOnQuiet = wal.autoSealOnQuiet

theorem SameWork.trans
    {middle : WalState} (first : wal.SameWork middle) (second : middle.SameWork after) :
    wal.SameWork after :=
  ⟨second.pending.trans first.pending, second.unsealed.trans first.unsealed,
    second.autoSeal.trans first.autoSeal⟩

section Drain

variable {config : WalConfig} {sums : Checksums} {wal : WalState}

theorem leaderTop_ready (notStopping : wal.stopping = false) : wal.leaderTop = .ready := by
  simp [leaderTop, notStopping]

/-- The leader finishes the write it is at. -/
theorem Sound.finishWrite (sums : Checksums) (sound : wal.Sound config)
    (running : wal.failed = false) :
    ∃ after, Reaches (walStep config sums) ThreadsOnly wal after ∧
      after.leader = .ready ∧ after.failed = false ∧ wal.SameWork after := by
  have notStopping := sound.keeps.notStopping
  cases phase : wal.leader with
  | ready => exact ⟨wal, .refl, phase, running, rfl, rfl, rfl⟩
  | slotWait =>
    have stepped : walStep config sums wal .leaderTurn =
        some { wal with leader := wal.leaderTop } := by
      simp [walStep, leaderTurn, phase]
    exact ⟨_, Reaches.refl.tail .leaderTurn stepped, leaderTop_ready notStopping, running,
      rfl, rfl, rfl⟩
  | waiting batch => exact absurd phase (sound.keeps.notWaiting batch)
  | writing group =>
    have stepped : walStep config sums wal (.leaderWrote true) =
        some { wal.afterWrite config group with
          leader := (wal.afterWrite config group).leaderTop } := by
      simp [walStep, leaderWrote, phase]
    have top : (wal.afterWrite config group).leaderTop = .ready := by
      apply leaderTop_ready
      rw [afterWrite_eq]
      exact notStopping
    refine ⟨_, Reaches.refl.tail .leaderWrote stepped, top, ?_, ?_⟩
    · rw [afterWrite_eq]
      exact running
    · rw [afterWrite_eq]
      exact ⟨rfl, rfl, rfl⟩
  | stopped => simpa [running, notStopping] using sound.running.leader phase

/-- A sync that is under way ends, and covers the groups it began with. -/
theorem finishSync (config : WalConfig) (sums : Checksums) (wal : WalState) {groups : Nat}
    (leader : wal.leader = .ready) (running : wal.failed = false)
    (syncing : wal.syncer = .syncing groups) :
    ∃ after, Reaches (walStep config sums) ThreadsOnly wal after ∧
      after.leader = .ready ∧ after.failed = false ∧ after.syncer = .idle ∧
      after.inFlightGroups = wal.inFlightGroups.drop groups ∧ wal.SameWork after := by
  have stepped : walStep config sums wal (.syncerSynced true) = some (wal.afterSync groups) := by
    simp [walStep, syncerSynced, syncing]
  refine ⟨_, Reaches.refl.tail .syncerSynced stepped, ?_⟩
  rw [afterSync_eq]
  exact ⟨leader, running, rfl, rfl, rfl, rfl, rfl⟩

/-- From an idle syncer, one sync covers everything in flight. -/
theorem finishSync_idle (config : WalConfig) (sums : Checksums) (leader : wal.leader = .ready)
    (running : wal.failed = false) (idle : wal.syncer = .idle) :
    ∃ after, Reaches (walStep config sums) ThreadsOnly wal after ∧
      after.Quiet ∧ wal.SameWork after := by
  by_cases empty : wal.inFlightGroups = []
  · exact ⟨wal, .refl, ⟨leader, idle, empty, running⟩, rfl, rfl, rfl⟩
  · have begins : walStep config sums wal .syncerTurn =
        some { wal with syncer := .syncing wal.inFlightGroups.length } := by
      simp [walStep, syncerTurn, idle, running, empty]
    obtain ⟨after, reached, ready, notFailed, idle, inFlight, same⟩ :=
      finishSync config sums { wal with syncer := .syncing wal.inFlightGroups.length }
        leader running rfl
    rw [List.drop_length] at inFlight
    exact ⟨after, (Reaches.refl.tail .syncerTurn begins).trans reached,
      ⟨ready, idle, inFlight, notFailed⟩, same.pending, same.unsealed, same.autoSeal⟩

section Settling

variable (sums) (sound : wal.Sound config)

include sound

/-- The threads finish what they are at. -/
theorem Sound.settle (running : wal.failed = false) :
    ∃ after, Reaches (walStep config sums) ThreadsOnly wal after ∧
      after.Quiet ∧ wal.SameWork after := by
  obtain ⟨ready, toReady, leader, readyRunning, readySame⟩ := sound.finishWrite sums running
  cases phase : ready.syncer with
  | idle =>
    obtain ⟨after, toAfter, quiet, same⟩ := finishSync_idle config sums leader readyRunning phase
    exact ⟨after, toReady.trans toAfter, quiet, readySame.trans same⟩
  | syncing groups =>
    obtain ⟨synced, toSynced, leader, syncedRunning, idle, -, syncedSame⟩ :=
      finishSync config sums ready leader readyRunning phase
    obtain ⟨after, toAfter, quiet, same⟩ := finishSync_idle config sums leader syncedRunning idle
    exact ⟨after, (toReady.trans toSynced).trans toAfter, quiet,
      (readySame.trans syncedSame).trans same⟩
  | stopped =>
    have readySound := sound.reaches toReady
    simpa [readyRunning, readySound.keeps.notStopping] using readySound.running.syncer phase

/-- A quiet log that has a group to build places, writes and syncs it. -/
theorem Sound.build (quiet : wal.Quiet)
    {batch left : List WalRecord} (wakes : wal.leaderWakes config = true)
    (built : wal.leaderBatch config = some (batch, left)) :
    ∃ after, Reaches (walStep config sums) ThreadsOnly wal after ∧ after.Quiet ∧
      after.pendingRecords = left ∧ after.ledger.unsealed = !batch.isEmpty ∧
      after.autoSealOnQuiet = wal.autoSealOnQuiet := by
  have fit := (sound.keeps.builds sums sound.ordered.order.positioned quiet.leader wakes built).1
  have stepped : walStep config sums wal .leaderTurn =
      some ({ wal with pendingRecords := left }.placeGroup config sums batch) := by
    simp [walStep, WalState.leaderTurn, quiet.leader, wakes, quiet.running,
      sound.keeps.notStopping, built, buildGroup, fit]
  have placed := sound.reaches (Reaches.refl.tail .leaderTurn stepped)
  obtain ⟨after, reached, afterQuiet, same⟩ := placed.settle sums quiet.running
  exact ⟨after, (Reaches.refl.tail .leaderTurn stepped).trans reached, afterQuiet,
    same.pending, same.unsealed, same.autoSeal⟩

/-- A quiet log with records pending writes a group of them. -/
theorem Sound.writePending (quiet : wal.Quiet)
    (slots : 0 < config.maxInFlightGroups) (pending : wal.pendingRecords ≠ []) :
    ∃ after, Reaches (walStep config sums) ThreadsOnly wal after ∧ after.Quiet ∧
      after.pendingRecords.length < wal.pendingRecords.length ∧
      after.autoSealOnQuiet = wal.autoSealOnQuiet := by
  have records : wal.haveRecords config = true := by
    simp [haveRecords, quiet.inFlight, slots, pending]
  have wakes : wal.leaderWakes config = true := by
    simp [leaderWakes, records]
  have built : wal.leaderBatch config =
      some (GreedyBatches.take WalRecord.encodedSize config.maxGroupPayload 0
        wal.pendingRecords) := by
    rw [leaderBatch, if_pos records]
  obtain ⟨after, reached, afterQuiet, left, -, autoSeal⟩ := sound.build sums quiet wakes built
  refine ⟨after, reached, afterQuiet, ?_, autoSeal⟩
  obtain ⟨nonempty, -⟩ := KeepsPromise.payloads_of_leaderBatch records built
  have split := congrArg List.length (GreedyBatches.take_append WalRecord.encodedSize
    config.maxGroupPayload 0 wal.pendingRecords)
  have positive := List.length_pos_iff.mpr nonempty
  rw [List.length_append] at split
  rw [left]
  omega

/-- A quiet log with everything written seals what is synced. -/
theorem Sound.sealPending (quiet : wal.Quiet)
    (slots : 0 < config.maxInFlightGroups) (written : wal.pendingRecords = [])
    (autoSeal : wal.autoSealOnQuiet = true) :
    ∃ after, Reaches (walStep config sums) ThreadsOnly wal after ∧ after.Quiet ∧
      after.pendingRecords = [] ∧ after.highestSyncedLsn ≤ after.highestSealedLsn := by
  cases due : wal.sealDue with
  | false =>
    refine ⟨wal, .refl, quiet, written, ?_⟩
    simpa [sealDue] using due
  | true =>
    have noRecords : wal.haveRecords config = false := by
      simp [haveRecords, written]
    have wakes : wal.leaderWakes config = true := by
      simp [leaderWakes, autoSeal, due, quiet.inFlight]
    have built : wal.leaderBatch config = some ([], []) := by
      simp [leaderBatch, needSeal, noRecords, autoSeal, due, quiet.inFlight, slots, written]
    obtain ⟨after, reached, afterQuiet, left, sealed, -⟩ := sound.build sums quiet wakes built
    refine ⟨after, reached, afterQuiet, left, ?_⟩
    have page := (sound.reaches reached).keeps.sealPage
    rw [sealed, afterQuiet.leader, afterQuiet.inFlight] at page
    cases page with
    | quiet _ through => exact through

/-- The threads alone write every pending record, and seal them if seals are on. -/
theorem Sound.drain (running : wal.failed = false)
    (slots : 0 < config.maxInFlightGroups) :
    ∃ after, Reaches (walStep config sums) ThreadsOnly wal after ∧ after.Quiet ∧
      after.pendingRecords = [] ∧
      (wal.autoSealOnQuiet = true → after.highestSyncedLsn ≤ after.highestSealedLsn) := by
  obtain ⟨settled, toSettled, quiet, same⟩ := sound.settle sums running
  have settledSound := sound.reaches toSettled
  rw [← same.autoSeal]
  clear sound running same
  induction count : settled.pendingRecords.length using Nat.strong_induction_on
    generalizing settled with
  | _ count ih =>
    by_cases written : settled.pendingRecords = []
    case neg =>
      obtain ⟨next, toNext, nextQuiet, fewer, autoSeal⟩ :=
        settledSound.writePending sums quiet slots written
      rw [← autoSeal]
      exact ih _ (count ▸ fewer) next (toSettled.trans toNext) nextQuiet
        (settledSound.reaches toNext) rfl
    case pos =>
      cases autoSeal : settled.autoSealOnQuiet with
      | false => exact ⟨settled, toSettled, quiet, written, fun on => by contradiction⟩
      | true =>
        obtain ⟨after, reached, afterQuiet, left, through⟩ :=
          settledSound.sealPending sums quiet slots written autoSeal
        exact ⟨after, toSettled.trans reached, afterQuiet, left, fun _ => through⟩

end Settling

/-- Neither thread moves the checkpointed head. -/
theorem checkpointedHead_of_threads {after : WalState}
    (reached : Reaches (walStep config sums) ThreadsOnly wal after) :
    after.cursor.checkpointedHead = wal.cursor.checkpointedHead := by
  induction reached with
  | refl => rfl
  | @tail before next event _ threads stepped ih =>
    rw [← ih]
    cases threads with
    | leaderTurn =>
      cases leaderTurn_some stepped with
      | @builds batch left =>
        rw [buildGroup]
        split
        · exact RingCursor.checkpointedHead_place config before.cursor _
        · rfl
      | placesLate => exact RingCursor.checkpointedHead_place config before.cursor _
      | stops | waitsForSlot | resumes | givesUp => rfl
    | leaderWrote =>
      obtain ⟨group, -, ⟨-, rfl⟩ | ⟨-, rfl⟩⟩ := leaderWrote_some stepped
      · generalize (before.afterWrite config group).leaderTop = top
        rw [afterWrite_eq]
      · rfl
    | syncerTurn =>
      obtain ⟨-, ⟨-, rfl⟩ | ⟨-, rfl⟩⟩ := syncerTurn_some stepped <;> rfl
    | syncerSynced =>
      obtain ⟨groups, -, ⟨-, rfl⟩ | ⟨-, rfl⟩⟩ := syncerSynced_some stepped
      · rw [afterSync_eq]
      · rfl

end Drain

end WalState

open WalState in
/--
The ring's promise.  In every run that keeps to its reservations, what is owed fits
in what is usable before the checkpointed head; so the leader never waits for
room, the group it builds fits at once, and the threads alone write, sync and seal
every record taken, with the checkpointed head where it is.
-/
theorem ring_keeps_promise
    (config : WalConfig) (sums : Checksums) (start : WalStart) (wal : WalState)
    (order : RingOrder config (WalState.start config start).cursor
        (WalState.start config start).head (WalState.start config start).activeGroups)
    (reached : Reaches (walStep config sums) KeepsReservations (WalState.start config start) wal) :
    wal.ledger.owedBytes ≤ wal.cursor.usableBytes config (wal.ledger.maxGroup config 0 none) ∧
      (∀ batch, wal.leader ≠ .waiting batch) ∧
      (∀ batch left, wal.leader = .ready → wal.leaderWakes config = true →
        wal.leaderBatch config = some (batch, left) →
          wal.cursor.fits config (groupBytesOf (payloadBytes batch)) = true) ∧
      (wal.failed = false → 0 < config.maxInFlightGroups →
        ∃ after, Reaches (walStep config sums) ThreadsOnly wal after ∧
          after.cursor.checkpointedHead = wal.cursor.checkpointedHead ∧
          after.pendingRecords = [] ∧ after.inFlightGroups = [] ∧ after.leader = .ready ∧
          (wal.autoSealOnQuiet = true → after.highestSyncedLsn ≤ after.highestSealedLsn)) := by
  have sound : wal.Sound config :=
    reached.invariant (sound_start order) fun _ _ _ sound allowed stepped =>
      sound.step allowed stepped
  refine ⟨?_, sound.keeps.notWaiting, ?_, ?_⟩
  · rw [sound.keeps.ledger]
    exact sound.keeps.promised
  · intro batch left ready wakes built
    exact (sound.keeps.builds sums sound.ordered.order.positioned ready wakes built).1
  · intro running slots
    obtain ⟨after, toAfter, quiet, written, through⟩ := sound.drain sums running slots
    exact ⟨after, toAfter, checkpointedHead_of_threads toAfter, written, quiet.inFlight,
      quiet.leader, through⟩

/-- Two records, one of them reserved, written, sealed and retired by a checkpoint, and another. -/
def promiseEvents : List WalEvent :=
  [.reserve 100 .all 0 [], .append .txn [1, 2, 3] 0 ⟨[], []⟩,
    .appendReserved ⟨100, []⟩ .txn [4] 0 ⟨[], []⟩,
    .leaderTurn, .leaderWrote true, .syncerTurn,
    .reserveGroup [10, 20] [],
    .syncerSynced true, .leaderTurn, .leaderWrote true,
    .captureHead 3 0 [], .writeCheckpoint none, .checkpointWrote true, .checkpointSynced true,
    .append .pov [5] 0 ⟨[], []⟩]

open WalState in
/-- The run keeps the promise to the record it has still to write. -/
theorem promiseEvents_keep_promise : ∃ wal,
      run (walStep eightPages ⟨fun _ => 0, fun _ => 0⟩) KeepsReservations
          (WalState.start eightPages .newStore) promiseEvents = some wal ∧
        wal.pendingRecords.length = 1 ∧
        wal.ledger.owedBytes ≤
          wal.cursor.usableBytes eightPages (wal.ledger.maxGroup eightPages 0 none) := by
  have runs : ((run (walStep eightPages ⟨fun _ => 0, fun _ => 0⟩) KeepsReservations
      (WalState.start eightPages .newStore) promiseEvents).map
        fun wal => wal.pendingRecords.length) = some 1 := by
    decide
  obtain ⟨wal, ran, length⟩ := Option.map_eq_some_iff.mp runs
  exact ⟨wal, ran, length, (ring_keeps_promise eightPages _ .newStore wal
    (ringOrder_newStore eightPages) (reaches_of_run ran)).1⟩

end Orly
