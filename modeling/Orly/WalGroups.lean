import Orly.WalPromise

namespace Orly

/-!
# The groups the leader writes

A record is charged to a group when it is queued, and put in a group when the leader
takes a batch.  A leader whose batch does not fit waits with the mutex released, and
uncharges its group only afterwards: a record queued meanwhile may be charged to the group
already taken.  Otherwise the charges are, group for group, those of the batches.
-/

open EventRuns GreedyBatches List

namespace RoomLedger

/-- The part of the ledger that is for queued records. -/
def pending (ledger : RoomLedger) : RoomLedger :=
  { ledger with reservedGroupBytes := 0, reservedGroupBytesSum := 0, unsealed := false }

/-- Queued records are charged for these groups and no others. -/
def ChargesFor (ledger : RoomLedger) (groups : List (List WalRecord)) : Prop :=
  ledger.pending = PromisedGroups.ledger ⟨0, groups.map payloadBytes, false⟩

variable {ledger : RoomLedger} {groups : List (List WalRecord)}

theorem pending_uncharge (groupBytes : Nat) :
    (ledger.uncharge groupBytes).pending = ledger.pending := by
  rw [uncharge]
  split <;> rfl

theorem pending_foldl_charge (bytes : List Nat) :
    (bytes.foldl charge ledger).pending = ledger.pending := by
  induction bytes generalizing ledger with
  | nil => rfl
  | cons first bytes ih => exact ih

theorem pending_queueRecord (config : WalConfig) (encoded : Nat) :
    (ledger.queueRecord config encoded).pending = ledger.pending.queueRecord config encoded := by
  simp only [queueRecord, pending]
  split
  · split
    · split <;> rfl
    · rfl
  · rfl

theorem pending_dequeueGroup : ledger.dequeueGroup.pending = ledger.pending.dequeueGroup := by
  simp only [dequeueGroup, pending]
  split <;> rfl

/-- A queued record is charged to the group it is predicted to join. -/
theorem ChargesFor.queueRecord (charges : ledger.ChargesFor groups) (config : WalConfig)
    (record : WalRecord) :
    (ledger.queueRecord config record.encodedSize).ChargesFor
      (join WalRecord.encodedSize config.maxGroupPayload groups record) := by
  rw [ChargesFor, pending_queueRecord, charges, PromisedGroups.queueRecord_ledger]
  exact congrArg (fun payloads => PromisedGroups.ledger ⟨0, payloads, false⟩)
    (map_load_join WalRecord.encodedSize config.maxGroupPayload groups record).symm

/-- The first group's charge goes, and no other. -/
theorem ChargesFor.dequeueGroup {first : List WalRecord}
    (charges : ledger.ChargesFor (first :: groups)) :
    ledger.dequeueGroup.ChargesFor groups := by
  rw [ChargesFor, pending_dequeueGroup, charges]
  exact PromisedGroups.dequeueGroup_ledger rfl

end RoomLedger

namespace WalState

variable (config : WalConfig)

/-- The group with records that a batch makes, if it has any. -/
def groupOf (batch : List WalRecord) : List (List WalRecord) :=
  if batch.isEmpty then [] else [batch]

/-- The group the leader has taken and waits with for room. -/
def taken (wal : WalState) : List (List WalRecord) :=
  match wal.leader with
  | .waiting batch => groupOf batch
  | _ => []

/-- The groups with records still to be written: the one taken, and what `LeaderMain` will cut
the queue into. -/
def comingGroups (wal : WalState) : List (List WalRecord) :=
  wal.taken ++ batches WalRecord.encodedSize config.maxGroupPayload wal.pendingRecords

/-- Until the leader stops, the ledger charges for the groups to come and no others. -/
def Accounted (wal : WalState) : Prop :=
  wal.leader ≠ .stopped → wal.ledger.ChargesFor (wal.comingGroups config)

/-- A group with records that the leader writes is the first of those to come; the others remain. -/
def WritesFirst (before after : WalState) : Prop :=
  ∀ group, after.leader = .writing group → group.records ≠ [] →
    before.comingGroups config = group.records :: after.comingGroups config

/-- The leader waits for room with the whole queue, and its group would hold this body too. -/
def waitsWithRoom (wal : WalState) (body : List UInt8) : Bool :=
  match wal.leader with
  | .waiting batch =>
    !batch.isEmpty && wal.pendingRecords.isEmpty &&
      payloadBytes batch + (recordHeaderBytes + body.length) ≤ config.maxGroupPayload
  | _ => false

/-- No record is appended that would be charged to a group already taken. -/
def keepsApart (wal : WalState) : WalEvent → Bool
  | .append _ body .. | .appendReserved _ _ body .. => !wal.waitsWithRoom config body
  | _ => true

variable {config} {sums : Checksums} {wal after : WalState}

theorem taken_eq_nil (notWaiting : ∀ batch, wal.leader ≠ .waiting batch) : wal.taken = [] := by
  rw [taken]
  split
  case h_1 waiting => exact absurd waiting (notWaiting _)
  case h_2 => rfl

/-- A record that does not join the group taken is charged as if none were taken. -/
theorem join_comingGroups {body : List UInt8} (apart : wal.waitsWithRoom config body = false)
    {record : WalRecord} (size : record.encodedSize = recordHeaderBytes + body.length) :
    join WalRecord.encodedSize config.maxGroupPayload (wal.comingGroups config) record =
      { wal with pendingRecords := wal.pendingRecords ++ [record] }.comingGroups config := by
  have concat := batches_concat WalRecord.encodedSize config.maxGroupPayload wal.pendingRecords
    (fun record _ => record.encodedSize_pos) record
  simp only [comingGroups, taken, concat]
  split
  case h_1 batch waiting =>
    rw [groupOf]
    split
    case isTrue => rfl
    case isFalse nonempty =>
      by_cases queue : wal.pendingRecords = []
      · have full : ¬payloadBytes batch + record.encodedSize ≤ config.maxGroupPayload := by
          simpa [waitsWithRoom, waiting, nonempty, queue, size] using apart
        simp only [queue, batches, append_nil, join, getLast?_singleton, getLast?_nil]
        exact if_neg full
      · exact join_cons _ _ _ (batches_ne_nil _ _ queue) _
  case h_2 => rfl

/-- The batch the leader takes is the first of the groups to come. -/
theorem comingGroups_of_leaderBatch {batch left : List WalRecord} (ready : wal.leader = .ready)
    (built : wal.leaderBatch config = some (batch, left)) :
    wal.comingGroups config =
      groupOf batch ++ batches WalRecord.encodedSize config.maxGroupPayload left := by
  rw [comingGroups, taken_eq_nil (by simp [ready]), nil_append]
  rw [leaderBatch] at built
  split_ifs at built with records
  · have cut := Option.some.inj built
    cases pending : wal.pendingRecords with
    | nil => simp [haveRecords, pending] at records
    | cons record records =>
      rw [pending, take_zero_cons] at cut
      obtain ⟨rfl, rfl⟩ := Prod.mk.inj cut
      rw [batches]
      rfl
  · cases built
    rfl

namespace Accounted

section

variable (accounted : wal.Accounted config)
include accounted

/-- What leaves the queue, its charges and the group taken keeps the account. -/
theorem of_same (pending : after.pendingRecords = wal.pendingRecords)
    (charges : after.ledger.pending = wal.ledger.pending)
    (leader : after.leader ≠ .stopped → wal.leader ≠ .stopped ∧ after.taken = wal.taken) :
    after.Accounted config := by
  intro running
  obtain ⟨running, taken⟩ := leader running
  rw [comingGroups, taken, pending]
  exact charges.trans (accounted running)

/-- The leader goes from one phase without a batch to another. -/
theorem withLeader {phase : LeaderPhase} (running : wal.leader ≠ .stopped)
    (notWaiting : ∀ batch, wal.leader ≠ .waiting batch)
    (stillNot : ∀ batch, phase ≠ .waiting batch) :
    { wal with leader := phase }.Accounted config :=
  accounted.of_same rfl rfl fun _ =>
    ⟨running, (taken_eq_nil stillNot).trans (taken_eq_nil notWaiting).symm⟩

theorem release (reservation : Reservation) :
    (wal.releaseReservation reservation).Accounted config :=
  accounted.of_same rfl (RoomLedger.pending_uncharge _) fun running => ⟨running, rfl⟩

theorem reserveGroup {sizes : List Nat} {spend : List PromotionDebt}
    (ok : wal.reserveGroup config sizes spend = .ok after) : after.Accounted config := by
  obtain ⟨-, rfl⟩ := reserveGroup_ok ok
  exact accounted.of_same rfl (RoomLedger.pending_foldl_charge _) fun running => ⟨running, rfl⟩

theorem reserve {size credit : Nat} {room : Room} {owes : List PromotionDebt}
    (ok : wal.reserve config size room credit owes = .ok after) : after.Accounted config := by
  obtain ⟨-, rfl⟩ := reserve_ok ok
  exact accounted

/-- An append is charged to the last group to come. -/
theorem appendLocked {type : WalRecordType} {body : List UInt8} {flags : UInt8}
    (apart : wal.waitsWithRoom config body = false) :
    (wal.appendLocked config type body flags).Accounted config := by
  intro running
  have charges := (accounted running).queueRecord config
    { lsn := wal.nextLsn + 1, type := type, flags := flags, body := body }
  rw [join_comingGroups apart rfl] at charges
  exact charges

/-- Placing the first group takes its charge off the ledger; a seal-only one has none. -/
theorem placeGroup {batch left : List WalRecord} (running : wal.leader ≠ .stopped)
    (first : wal.comingGroups config =
      groupOf batch ++ batches WalRecord.encodedSize config.maxGroupPayload left) :
    ({ wal with pendingRecords := left }.placeGroup config sums batch).Accounted config ∧
      WritesFirst config wal
        ({ wal with pendingRecords := left }.placeGroup config sums batch) := by
  have charges := accounted running
  rw [first] at charges
  cases batch with
  | nil => exact ⟨fun _ => charges, fun group => by rintro ⟨⟩ nonempty; exact absurd rfl nonempty⟩
  | cons record batch =>
    exact ⟨fun _ => charges.dequeueGroup, fun group => by rintro ⟨⟩ -; exact first⟩

/-- A turn of the leader keeps the account, and what it writes is the first group to come. -/
theorem leaderTurn (turn : wal.leaderTurn config sums = some after) :
    after.Accounted config ∧ WritesFirst config wal after := by
  cases leaderTurn_some turn with
  | stops | givesUp => exact ⟨fun running => absurd rfl running, fun _ => LeaderPhase.noConfusion⟩
  | @builds batch left ready wakes running built =>
    have first := comingGroups_of_leaderBatch ready built
    rw [buildGroup]
    split
    · exact accounted.placeGroup (by simp [ready]) first
    · refine ⟨fun _ => ?_, fun _ => LeaderPhase.noConfusion⟩
      have charges := accounted (by simp [ready])
      rw [first] at charges
      exact charges
  | waitsForSlot ready =>
    exact ⟨accounted.withLeader (by simp [ready]) (by simp [ready])
      fun _ => LeaderPhase.noConfusion, fun _ => LeaderPhase.noConfusion⟩
  | resumes slotWait =>
    exact ⟨accounted.withLeader (by simp [slotWait]) (by simp [slotWait])
      wal.leaderTop_ne_waiting, fun _ writing => absurd writing (wal.leaderTop_ne_writing _)⟩
  | @placesLate batch waiting =>
    exact accounted.placeGroup (by simp [waiting]) (by rw [comingGroups, taken, waiting])

/-- A write changes no charge. -/
theorem leaderWrote {writeOk : Bool} (wrote : wal.leaderWrote config writeOk = some after) :
    after.Accounted config := by
  obtain ⟨group, writing, ⟨-, rfl⟩ | ⟨-, rfl⟩⟩ := leaderWrote_some wrote
  · have notWaiting := (wal.afterWrite config group).leaderTop_ne_waiting
    generalize (wal.afterWrite config group).leaderTop = top at notWaiting
    rw [afterWrite_eq]
    exact accounted.withLeader (by simp [writing]) (by simp [writing]) notWaiting
  · exact fun running => absurd rfl running

/-- Every step that keeps to the condition keeps the account. -/
theorem step {event : WalEvent} (apart : wal.keepsApart config event = true)
    (stepped : walStep config sums wal event = some after) : after.Accounted config := by
  cases event with
  | reserve =>
    cases stepped
    exact orUnchanged_induction accounted fun next ok => accounted.reserve ok
  | reserveGroup =>
    cases stepped
    exact orUnchanged_induction accounted fun next ok => accounted.reserveGroup ok
  | release reservation =>
    rw [walStep] at stepped
    split_ifs at stepped
    cases stepped
    exact accounted.release reservation
  | append _ body =>
    have apart : wal.waitsWithRoom config body = false := by simpa [keepsApart] using apart
    cases stepped
    refine orUnchanged_induction accounted fun next ok => ?_
    obtain ⟨-, -, rfl⟩ := append_ok ok
    exact accounted.appendLocked apart
  | appendReserved reservation _ body =>
    have apart : wal.waitsWithRoom config body = false := by simpa [keepsApart] using apart
    rw [walStep] at stepped
    split_ifs at stepped
    cases stepped
    refine orUnchanged_induction accounted fun next ok => ?_
    obtain ⟨-, rfl⟩ := appendReserved_ok ok
    exact (accounted.release reservation).appendLocked apart
  | leaderTurn => exact (accounted.leaderTurn stepped).1
  | leaderWrote => exact accounted.leaderWrote stepped
  | syncerTurn => obtain ⟨-, ⟨-, rfl⟩ | ⟨-, rfl⟩⟩ := syncerTurn_some stepped <;> exact accounted
  | syncerSynced =>
    obtain ⟨groups, -, ⟨-, rfl⟩ | ⟨-, rfl⟩⟩ := syncerSynced_some stepped
    · rw [afterSync_eq]
      exact accounted
    · exact accounted
  | captureHead => obtain ⟨-, rfl | ⟨-, rfl⟩⟩ := captureHead_some stepped <;> exact accounted
  | writeCheckpoint =>
    obtain ⟨_, _, _, -, rfl | ⟨-, rfl⟩⟩ := writeCheckpoint_some stepped <;> exact accounted
  | checkpointWrote =>
    obtain ⟨_, -, ⟨-, rfl⟩ | ⟨-, rfl⟩⟩ := checkpointWrote_some stepped <;> exact accounted
  | checkpointSynced =>
    obtain ⟨_, -, ⟨-, rfl⟩ | ⟨-, rfl⟩⟩ := checkpointSynced_some stepped <;> exact accounted
  | changePromotionDebt | setAutoSealOnQuiet | stop =>
    cases stepped
    exact accounted

end

end Accounted

end WalState

/--
In every run in which no record is charged to a group already taken, until the leader stops:
the queued records are charged for exactly the groups to come, no other split of them has
these payloads, and a group with records that the leader writes is the first of them, after
which only its charge is gone.
-/
theorem leader_writes_charged_groups
    (config : WalConfig) (sums : Checksums) (start : WalStart) (wal : WalState)
    (reached : Reaches (walStep config sums) (fun wal event => wal.keepsApart config event = true)
      (WalState.start config start) wal) (running : wal.leader ≠ .stopped) :
    wal.ledger.ChargesFor (wal.comingGroups config) ∧
      (∀ groups, groups.flatten = (wal.comingGroups config).flatten →
        groups.map payloadBytes = wal.ledger.pendingGroupPayloads →
          groups = wal.comingGroups config) ∧
      ∀ after group, walStep config sums wal .leaderTurn = some after →
        after.leader = .writing group → group.records ≠ [] →
          wal.comingGroups config = group.records :: after.comingGroups config ∧
            after.ledger.ChargesFor (after.comingGroups config) := by
  have accounted : wal.Accounted config :=
    reached.invariant (fun _ => by simp [RoomLedger.ChargesFor, WalState.comingGroups,
      WalState.start, WalState.taken, batches]; rfl) fun _ _ _ accounted apart stepped =>
        accounted.step apart stepped
  refine ⟨accounted running, fun groups flat payloads => ?_,
    fun after group turn writing records => ?_⟩
  · refine eq_of_loads WalRecord.encodedSize_pos flat (payloads.trans ?_)
    exact congrArg RoomLedger.pendingGroupPayloads (accounted running)
  · obtain ⟨next, first⟩ := accounted.leaderTurn turn
    exact ⟨first group writing records, next (by simp [writing])⟩

/--
A big record is written; the next does not fit behind it, and the leader waits with it until
a checkpoint makes room.  A third is queued before it waits, or while it does.
-/
def waitEvents (before during : List WalEvent) : List WalEvent :=
  [.reserve 0 .all 0 [], .reserve 0 .all 0 [], .reserve 0 .all 0 [],
    .appendReserved ⟨0, []⟩ .txn (replicate 17000 0) 0 ⟨[], []⟩, .leaderTurn, .leaderWrote true,
    .appendReserved ⟨0, []⟩ .txn (replicate 13000 0) 0 ⟨[], []⟩] ++ before ++ [.leaderTurn] ++
    during ++
    [.captureHead 2 0 [], .writeCheckpoint none, .checkpointWrote true, .checkpointSynced true]

/-- The third record. -/
def thirdRecord : WalEvent :=
  .appendReserved ⟨0, []⟩ .txn [] 0 ⟨[], []⟩

/-- The records of the group being written. -/
def LeaderPhase.written : LeaderPhase → List WalRecord
  | .writing group => group.records
  | _ => []

/-- Queued before the leader waits, the third record is written with the second. -/
theorem leader_writes_waiting_group : ∃ wal after group,
      run (walStep eightPages ⟨fun _ => 0, fun _ => 0⟩)
        (fun wal event => wal.keepsApart eightPages event)
        (WalState.start eightPages .newStore) (waitEvents [thirdRecord] []) = some wal ∧
      walStep eightPages ⟨fun _ => 0, fun _ => 0⟩ wal .leaderTurn = some after ∧
      after.leader = .writing group ∧ group.records.length = 2 ∧
      wal.comingGroups eightPages = group.records :: after.comingGroups eightPages := by
  have runs : ((run (walStep eightPages ⟨fun _ => 0, fun _ => 0⟩)
      (fun wal event => wal.keepsApart eightPages event)
      (WalState.start eightPages .newStore) (waitEvents [thirdRecord] [])).bind fun wal =>
        (walStep eightPages ⟨fun _ => 0, fun _ => 0⟩ wal .leaderTurn).map fun after =>
          (decide (wal.leader ≠ .stopped), after.leader.written.length)) = some (true, 2) := by
    decide +kernel
  obtain ⟨wal, ran, stepped⟩ := Option.bind_eq_some_iff.mp runs
  obtain ⟨after, turn, written⟩ := Option.map_eq_some_iff.mp stepped
  obtain ⟨running, two⟩ := Prod.mk.inj written
  cases writing : after.leader with
  | writing group =>
    rw [writing] at two
    have first := (leader_writes_charged_groups _ _ .newStore wal (reaches_of_run ran)
      (of_decide_eq_true running)).2.2 after group turn writing (ne_nil_of_length_eq_add_one two)
    exact ⟨wal, after, group, ran, turn, writing, two, first.1⟩
  | ready | slotWait | waiting | stopped => simp [writing, LeaderPhase.written] at two

/-- Queued while the leader waits, it is charged to the group taken, and is left in the queue
with no charge once that group is placed. -/
theorem record_left_uncharged :
    let ran events := (run (walStep eightPages ⟨fun _ => 0, fun _ => 0⟩) (fun _ _ => True)
      (WalState.start eightPages .newStore) (waitEvents [] [thirdRecord] ++ events)).map fun wal =>
        (wal.pendingRecords.length, wal.ledger.pendingGroupPayloads)
    ran [] = some (1, [13040]) ∧ ran [.leaderTurn] = some (1, []) := by
  decide +kernel

end Orly
