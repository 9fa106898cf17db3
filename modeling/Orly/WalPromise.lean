import Orly.WalOrder

namespace Orly

/-!
# The ring's promise over whole runs

A record the log has taken gets a position, and the seal that makes it durable,
with the checkpointed head where it is.  The invariant ties the ledger to the
reservations and records it stands for, orders the head, the groups still needed
and the write position around the ring, and accounts for the page of the next seal.
-/

open EventRuns GreedyBatches List PromisedGroups

/-- Why a seal-only group, if one is due, has its page. -/
inductive SealPage (synced sealed : Nat) : Bool → LeaderPhase → List InFlightGroup → Prop
  /-- A group with records was placed since the last seal-only one. -/
  | owed
      {leader : LeaderPhase}
      {inFlight : List InFlightGroup} :
      SealPage synced sealed true leader inFlight
  | stopped
      {inFlight : List InFlightGroup} :
      SealPage synced sealed false .stopped inFlight
  /-- Everything synced is sealed. -/
  | quiet
      {leader : LeaderPhase}
      (notWriting : ∀ group, leader ≠ .writing group)
      (through : synced ≤ sealed) :
      SealPage synced sealed false leader []
  /-- The seal of everything synced is being written. -/
  | writing
      {group : Group}
      (sealOnly : group.isSealOnly = true)
      (through : group.header.sealedThrough = synced) :
      SealPage synced sealed false (.writing group) []
  /-- The seal of everything synced has been written. -/
  | written
      {leader : LeaderPhase}
      {group : InFlightGroup}
      (notWriting : ∀ group, leader ≠ .writing group)
      (sealOnly : group.isSealOnly = true)
      (through : group.sealedThrough = synced) :
      SealPage synced sealed false leader [group]

namespace SealPage

variable {synced sealed : Nat} {unsealed : Bool} {leader next : LeaderPhase}
  {inFlight : List InFlightGroup}

/-- A leader that is not writing may go on to another such phase. -/
theorem withLeader (page : SealPage synced sealed unsealed leader inFlight)
    (ready : leader = .ready ∨ leader = .slotWait) (notWriting : ∀ group, next ≠ .writing group) :
    SealPage synced sealed unsealed next inFlight := by
  cases page with
  | owed => exact .owed
  | stopped => simp at ready
  | quiet _ through => exact .quiet notWriting through
  | writing => simp at ready
  | written _ sealOnly through => exact .written notWriting sealOnly through

theorem stop (page : SealPage synced sealed unsealed leader inFlight) :
    SealPage synced sealed unsealed .stopped inFlight := by
  cases unsealed with
  | true => exact .owed
  | false => exact .stopped

/-- The write of a seal-only group leaves it in flight, and nothing newly synced. -/
theorem wrote {group : Group} (page : SealPage synced sealed unsealed (.writing group) inFlight)
    (notWriting : ∀ group, next ≠ .writing group) {synced' sealed' : Nat}
    (kept : group.isSealOnly = true → synced' = synced) :
    SealPage synced' sealed' unsealed next (inFlight ++ [group.inFlight]) := by
  cases page with
  | owed => exact .owed
  | quiet notWriting => exact absurd rfl (notWriting group)
  | writing sealOnly through =>
    exact .written notWriting sealOnly (through.trans (kept sealOnly).symm)
  | written notWriting => exact absurd rfl (notWriting group)

/-- A sync of a seal-only group seals everything synced. -/
theorem sync (page : SealPage synced sealed unsealed leader inFlight) (groups : Nat) :
    SealPage (WalState.syncedThrough synced (inFlight.take groups))
      (WalState.sealedThrough sealed (inFlight.take groups)) unsealed leader
      (inFlight.drop groups) := by
  cases page with
  | owed => exact .owed
  | stopped => exact .stopped
  | quiet notWriting through =>
    rw [take_nil, drop_nil]
    exact .quiet notWriting through
  | writing sealOnly through =>
    rw [take_nil, drop_nil]
    exact .writing sealOnly through
  | @written _ group notWriting sealOnly through =>
    cases groups with
    | zero => exact .written notWriting sealOnly through
    | succ groups =>
      rw [take_succ_cons, take_nil, drop_succ_cons, drop_nil]
      refine .quiet notWriting ?_
      simp only [WalState.syncedThrough, WalState.sealedThrough, foldl_cons,
        foldl_nil, sealOnly, if_true, through]
      exact le_max_right _ _

end SealPage

namespace WalState

/-- The groups the log has promised room. -/
def promisedGroups (config : WalConfig) (wal : WalState) : PromisedGroups where
  reserved := (wal.reservations.map Reservation.groupBytes : List Nat)
  payloads := loads WalRecord.encodedSize config.maxGroupPayload wal.pendingRecords
  unsealed := wal.ledger.unsealed

/-- What holds in every state of a run that keeps to its reservations. -/
structure KeepsPromise (config : WalConfig) (wal : WalState) : Prop where
  ledger : wal.ledger = (wal.promisedGroups config).ledger
  promised : (wal.promisedGroups config).Promised config wal.cursor
  sealPage : SealPage wal.highestSyncedLsn wal.highestSealedLsn wal.ledger.unsealed wal.leader
      wal.inFlightGroups
  notWaiting : ∀ batch, wal.leader ≠ .waiting batch
  notStopping : wal.stopping = false

section Groups

variable {config : WalConfig} {wal : WalState}

theorem unsealed_uncharge (ledger : RoomLedger) (groupBytes : Nat) :
    (ledger.uncharge groupBytes).unsealed = ledger.unsealed := by
  rw [RoomLedger.uncharge]
  split <;> rfl

/-- A held reservation is one of the promised groups. -/
theorem promisedGroups_release {reservation : Reservation} (held : reservation ∈ wal.reservations) :
    wal.promisedGroups config = ((wal.releaseReservation reservation).promisedGroups config).reserve
        {reservation.groupBytes} := by
  have split : ((wal.reservations.map Reservation.groupBytes : List Nat) : Multiset Nat) =
      reservation.groupBytes ::ₘ
        ((wal.reservations.erase reservation).map Reservation.groupBytes : List Nat) :=
    Multiset.coe_eq_coe.mpr ((perm_cons_erase held).map _)
  simp [promisedGroups, PromisedGroups.reserve, releaseReservation, split, unsealed_uncharge]

theorem unsealed_queueRecord (ledger : RoomLedger) (encoded : Nat) :
    (ledger.queueRecord config encoded).unsealed = ledger.unsealed := by
  rw [RoomLedger.queueRecord]
  split
  · split
    · dsimp only
      split <;> rfl
    · rfl
  · rfl

theorem promisedGroups_appendLocked (type : WalRecordType) (body : List UInt8) (flags : UInt8) :
    (wal.appendLocked config type body flags).promisedGroups config =
      (wal.promisedGroups config).queue config (recordHeaderBytes + body.length) := by
  simp [promisedGroups, queue, appendLocked, loads_append_singleton,
    WalRecord.encodedSize, unsealed_queueRecord]

/-- Appending keeps the ledger true to the records it stands for. -/
theorem ledger_appendLocked
    (ledger : wal.ledger = (wal.promisedGroups config).ledger) (type : WalRecordType)
    (body : List UInt8) (flags : UInt8) :
    (wal.appendLocked config type body flags).ledger =
      ((wal.appendLocked config type body flags).promisedGroups config).ledger := by
  rw [promisedGroups_appendLocked, ← queueRecord_ledger, ← ledger]
  rfl

/-- Releasing a reservation keeps the ledger true to those that are held. -/
theorem ledger_release
    (ledger : wal.ledger = (wal.promisedGroups config).ledger) {reservation : Reservation}
    (held : reservation ∈ wal.reservations) :
    (wal.releaseReservation reservation).ledger =
      ((wal.releaseReservation reservation).promisedGroups config).ledger := by
  rw [← uncharge_ledger _ reservation.groupBytes, ← promisedGroups_release held, ← ledger]
  rfl

end Groups

theorem le_foldl_biggerRecord (sizes : List Nat) (found : Nat × Nat) :
    found.1 ≤ (sizes.foldl biggerRecord found).1 ∧
      ∀ size ∈ sizes, recordGroupBytes size ≤ (sizes.foldl biggerRecord found).1 := by
  induction sizes generalizing found with
  | nil => simp
  | cons size sizes ih =>
    obtain ⟨start, members⟩ := ih (biggerRecord found size)
    have bigger : found.1 ≤ (biggerRecord found size).1 ∧
        recordGroupBytes size ≤ (biggerRecord found size).1 := by
      rw [biggerRecord]
      split
      case isTrue bigger => exact ⟨bigger.le, le_refl _⟩
      case isFalse notBigger => exact ⟨le_refl _, Nat.le_of_not_lt notBigger⟩
    exact ⟨bigger.1.trans start, forall_mem_cons.mpr ⟨bigger.2.trans start, members⟩⟩

/-- No record is bigger than the biggest one found. -/
theorem le_biggestRecord {sizes : List Nat} {size : Nat} (mem : size ∈ sizes) :
    recordGroupBytes size ≤ (biggestRecord sizes).1 :=
  (le_foldl_biggerRecord sizes (0, 0)).2 size mem

namespace KeepsPromise

variable {config : WalConfig} {sums : Checksums} {wal after : WalState}
  (keeps : wal.KeepsPromise config)

include keeps

section Callers

theorem reserve {size credit : Nat} {room : Room} {owes : List PromotionDebt}
    (ok : wal.reserve config size room credit owes = .ok after) :
    after.KeepsPromise config := by
  obtain ⟨admitted, rfl⟩ := reserve_ok ok
  have groupsEq : promisedGroups config
          { wal with
            ledger := wal.ledger.charge (recordGroupBytes size)
            promotions := wal.promotions.owe owes
            reservations := wal.reservations ++ [{ size := size, owes := owes }] } =
        (wal.promisedGroups config).reserve {recordGroupBytes size} := by
    simp [promisedGroups, PromisedGroups.reserve, coe_concat,
      RoomLedger.charge, Reservation.groupBytes]
  rw [WalState.admits, keeps.ledger] at admitted
  refine { keeps with ledger := ?_, promised := ?_ }
  · rw [groupsEq, ← charge_ledger, ← keeps.ledger]
  · rw [groupsEq]
    apply promised_of_admits admitted
    · rw [owedBytes_reserve]
      simp
    · apply maxGroup_reserve_le <;> simp

theorem reserveGroup {sizes : List Nat} {spend : List PromotionDebt}
    (ok : wal.reserveGroup config sizes spend = .ok after) :
    after.KeepsPromise config := by
  obtain ⟨admitted, rfl⟩ := reserveGroup_ok ok
  have ledgerEq : (sizes.map recordGroupBytes).foldl RoomLedger.charge wal.ledger =
        ((wal.promisedGroups config).reserve (sizes.map recordGroupBytes : List Nat)).ledger := by
    rw [keeps.ledger, foldl_charge_ledger]
  have groupsEq : promisedGroups config
          { wal with
            ledger := (sizes.map recordGroupBytes).foldl RoomLedger.charge wal.ledger
            promotions := wal.promotions.repay spend
            reservations :=
              wal.reservations ++ sizes.map fun size => { size := size, owes := [] } } =
        (wal.promisedGroups config).reserve (sizes.map recordGroupBytes : List Nat) := by
    have bytesEq : (Reservation.groupBytes ∘ fun size => ⟨size, []⟩) = recordGroupBytes := rfl
    simp only [promisedGroups, ledgerEq, PromisedGroups.reserve, PromisedGroups.ledger,
      map_append, map_map, bytesEq, ← Multiset.coe_add, Multiset.add_comm]
  rw [WalState.admits, keeps.ledger] at admitted
  have sealPage := keeps.sealPage
  refine { keeps with ledger := ?_, promised := ?_, sealPage := ?_ }
  · rw [groupsEq]
    exact ledgerEq
  · rw [groupsEq]
    apply promised_of_admits admitted
    · rw [owedBytes_reserve]
      simp only [Multiset.sum_coe, Multiset.coe_card, length_map, Nat.sub_mul, Nat.one_mul]
      omega
    · apply maxGroup_reserve_le
      · simp
      · rintro limit ⟨⟩
        refine Multiset.sup_le.mpr fun bytes mem => ?_
        obtain ⟨size, sizeMember, rfl⟩ := mem_map.mp (Multiset.mem_coe.mp mem)
        exact le_biggestRecord sizeMember
  · simp only [ledgerEq]
    exact sealPage

variable {reservation : Reservation} {type : WalRecordType} {body : List UInt8} {flags : UInt8}

/-- What a released reservation was owed is no longer. -/
theorem promised_release (held : reservation ∈ wal.reservations) :
    ((wal.releaseReservation reservation).promisedGroups config).Promised config wal.cursor := by
  have promised := keeps.promised
  rw [promisedGroups_release held] at promised
  apply promised.of_le
  · rw [owedBytes_reserve]
    omega
  · exact maxGroup_le_reserve _ _

theorem release (held : reservation ∈ wal.reservations) :
    (wal.releaseReservation reservation).KeepsPromise config := by
  refine { keeps with
    ledger := ledger_release keeps.ledger held
    promised := keeps.promised_release held
    sealPage := ?_ }
  have unsealedEq : (wal.releaseReservation reservation).ledger.unsealed = wal.ledger.unsealed :=
    unsealed_uncharge _ _
  rw [unsealedEq]
  exact keeps.sealPage

theorem changePromotionDebt (debt : PromotionDebtChange) :
    (wal.changePromotionDebt debt).KeepsPromise config :=
  { keeps with }

/-- Appending keeps the promise if the queued record was counted. -/
theorem appendLocked
    (promised : ((wal.promisedGroups config).queue config
        (recordHeaderBytes + body.length)).Promised config wal.cursor) :
    (wal.appendLocked config type body flags).KeepsPromise config := by
  refine { keeps with
    ledger := ledger_appendLocked keeps.ledger type body flags
    promised := ?_
    sealPage := ?_ }
  · rw [promisedGroups_appendLocked]
    exact promised
  · have unsealedEq : (wal.appendLocked config type body flags).ledger.unsealed =
        wal.ledger.unsealed :=
      unsealed_queueRecord _ _
    rw [unsealedEq]
    exact keeps.sealPage

/-- An append takes room that was admitted. -/
theorem append {debt : PromotionDebtChange}
    (ok : wal.append config type body flags debt = .ok after) :
    after.KeepsPromise config := by
  obtain ⟨-, admitted, rfl⟩ := append_ok ok
  apply (keeps.changePromotionDebt debt).appendLocked
  rw [WalState.admits, keeps.ledger, recordGroupBytes_eq] at admitted
  exact promised_of_admits admitted (owedBytes_queue _ _) (maxGroup_queue_le _ (le_refl _))

/-- A record no bigger than its reservation costs no more than the charge. -/
theorem appendReserved (held : reservation ∈ wal.reservations)
    {debt : PromotionDebtChange} (within : body.length ≤ reservation.size)
    (ok : wal.appendReserved config reservation type body flags debt = .ok after) :
    after.KeepsPromise config := by
  obtain ⟨-, rfl⟩ := appendReserved_ok ok
  apply ((keeps.release held).changePromotionDebt debt).appendLocked
  have charge : groupBytesOf (recordHeaderBytes + body.length) ≤ reservation.groupBytes := by
    rw [← recordGroupBytes_eq]
    exact recordGroupBytes_mono within
  have promised := keeps.promised
  rw [promisedGroups_release held] at promised
  apply promised.of_le
  · refine (owedBytes_queue _ _).trans ?_
    rw [owedBytes_reserve, Multiset.sum_singleton, Multiset.card_singleton, Nat.one_mul]
    exact Nat.add_le_add_right (Nat.add_le_add_left charge _) _
  · rw [maxGroup_reserve_singleton]
    exact maxGroup_queue_le _ charge

end Callers

section Leader

variable {batch left : List WalRecord}

omit keeps in
/-- A batch of records is the first predicted group. -/
theorem payloads_of_leaderBatch (records : wal.haveRecords config = true)
    (built : wal.leaderBatch config = some (batch, left)) :
    batch ≠ [] ∧ (wal.promisedGroups config).payloads = payloadBytes batch ::
          loads WalRecord.encodedSize config.maxGroupPayload left := by
  rw [leaderBatch, if_pos records] at built
  have taken := Option.some.inj built
  have pending : wal.pendingRecords ≠ [] := by
    simp only [haveRecords, Bool.and_eq_true, Bool.not_eq_true', isEmpty_eq_false_iff]
      at records
    exact records.1
  obtain ⟨record, records, cons⟩ := exists_cons_of_ne_nil pending
  constructor
  · rw [cons, take_zero_cons] at taken
    rw [← (Prod.mk.inj taken).1]
    exact cons_ne_nil _ _
  · have split := loads_eq_cons WalRecord.encodedSize config.maxGroupPayload pending
      fun record _ => record.encodedSize_pos
    rw [taken] at split
    exact split

/-- A seal is due only while its page is owed. -/
theorem unsealed_of_needSeal (ready : wal.leader = .ready)
    (wakes : wal.leaderWakes config = true) (noRecords : wal.haveRecords config = false)
    (due : wal.sealDue = true) :
    wal.inFlightGroups = [] ∧ wal.ledger.unsealed = true := by
  have quiet : wal.inFlightGroups = [] := by
    simp only [leaderWakes, keeps.notStopping, noRecords, Bool.or_eq_true, Bool.and_eq_true,
      Bool.false_eq_true, false_or, List.isEmpty_iff] at wakes
    exact wakes.2
  refine ⟨quiet, ?_⟩
  have sealPage := keeps.sealPage
  simp only [sealDue, decide_eq_true_eq] at due
  rw [ready, quiet] at sealPage
  cases unsealed : wal.ledger.unsealed with
  | true => rfl
  | false =>
    rw [unsealed] at sealPage
    cases sealPage with
    | quiet _ through => omega

omit keeps in
theorem placeGroup_records (nonempty : batch ≠ []) : (wal.placeGroup config sums batch).ledger =
      { wal.ledger.dequeueGroup with unsealed := true } := by
  simp [placeGroup, isEmpty_eq_false_iff.mpr nonempty]

omit keeps in
/-- Placing the first predicted group takes its charge off the ledger. -/
theorem ledger_placeRecords (sums : Checksums)
    (ledger : wal.ledger = (wal.promisedGroups config).ledger) (nonempty : batch ≠ [])
    (payloads : (wal.promisedGroups config).payloads =
      payloadBytes batch :: loads WalRecord.encodedSize config.maxGroupPayload left) :
    ({ wal with pendingRecords := left }.placeGroup config sums batch).ledger =
      { wal.promisedGroups config with
        payloads := loads WalRecord.encodedSize config.maxGroupPayload left
        unsealed := true }.ledger := by
  rw [placeGroup_records nonempty, ledger, dequeueGroup_ledger payloads]
  rfl

omit keeps in
theorem promisedGroups_placeRecords (sums : Checksums)
    (ledger : wal.ledger = (wal.promisedGroups config).ledger) (nonempty : batch ≠ [])
    (payloads : (wal.promisedGroups config).payloads =
      payloadBytes batch :: loads WalRecord.encodedSize config.maxGroupPayload left) :
    ({ wal with pendingRecords := left }.placeGroup config sums batch).promisedGroups config =
      { wal.promisedGroups config with
        payloads := loads WalRecord.encodedSize config.maxGroupPayload left
        unsealed := true } := by
  rw [promisedGroups, ledger_placeRecords sums ledger nonempty payloads]
  rfl

/-- A group with records fits at once, and placing it keeps the promise. -/
theorem placeRecords (sums : Checksums)
    (positioned : wal.cursor.Positioned config) (nonempty : batch ≠ [])
    (payloads : (wal.promisedGroups config).payloads =
      payloadBytes batch :: loads WalRecord.encodedSize config.maxGroupPayload left) :
    wal.cursor.fits config (groupBytesOf (payloadBytes batch)) = true ∧
      ({ wal with pendingRecords := left }.placeGroup config sums batch).KeepsPromise config := by
  obtain ⟨fit, promised⟩ := keeps.promised.placeFirst positioned payloads
  have ledgerEq := ledger_placeRecords sums keeps.ledger nonempty payloads
  have groupsEq := promisedGroups_placeRecords sums keeps.ledger nonempty payloads
  refine ⟨fit, ?_, ?_, ?_, fun other => LeaderPhase.noConfusion, keeps.notStopping⟩
  · rw [groupsEq, ledgerEq]
  · rw [groupsEq]
    exact promised
  · rw [ledgerEq]
    exact .owed

/-- A seal-only group fits at once in its page, and placing it keeps the promise. -/
theorem placeSeal (sums : Checksums)
    (positioned : wal.cursor.Positioned config) (quiet : wal.inFlightGroups = [])
    (unsealed : wal.ledger.unsealed = true) :
    wal.cursor.fits config (groupBytesOf (payloadBytes [])) = true ∧
      (wal.placeGroup config sums []).KeepsPromise config := by
  obtain ⟨fit, promised⟩ := keeps.promised.placeSeal positioned unsealed
  have ledgerEq : (wal.placeGroup config sums []).ledger =
      { wal.promisedGroups config with unsealed := false }.ledger := by
    calc
      (wal.placeGroup config sums []).ledger
          = { wal.ledger with unsealed := false } := rfl
      _ = _ := by rw [keeps.ledger]; rfl
  refine ⟨fit, ledgerEq, promised, ?_, fun other => LeaderPhase.noConfusion, keeps.notStopping⟩
  change SealPage wal.highestSyncedLsn wal.highestSealedLsn false
    (.writing (wal.nextGroup config sums [])) wal.inFlightGroups
  rw [quiet]
  exact .writing rfl rfl

/-- The group the leader builds fits at once, and placing it keeps the promise. -/
theorem builds (sums : Checksums)
    (positioned : wal.cursor.Positioned config) (ready : wal.leader = .ready)
    (wakes : wal.leaderWakes config = true) (built : wal.leaderBatch config = some (batch, left)) :
    wal.cursor.fits config (groupBytesOf (payloadBytes batch)) = true ∧
      (wal.buildGroup config sums batch left).KeepsPromise config := by
  cases records : wal.haveRecords config with
  | true =>
    obtain ⟨nonempty, payloads⟩ := payloads_of_leaderBatch records built
    obtain ⟨fit, placed⟩ := keeps.placeRecords sums positioned nonempty payloads
    rw [buildGroup, if_pos fit]
    exact ⟨fit, placed⟩
  | false =>
    rw [leaderBatch, records, if_neg Bool.false_ne_true] at built
    split_ifs at built with need
    obtain ⟨rfl, rfl⟩ := Prod.mk.inj (Option.some.inj built)
    have due : wal.sealDue = true := by
      simp only [needSeal, Bool.and_eq_true] at need
      exact need.1.2
    obtain ⟨quiet, unsealed⟩ := keeps.unsealed_of_needSeal ready wakes records due
    obtain ⟨fit, placed⟩ := keeps.placeSeal sums positioned quiet unsealed
    rw [buildGroup, if_pos fit]
    exact ⟨fit, placed⟩

/-- A new phase of the leader that is neither a write nor a wait for room keeps the promise. -/
theorem withLeader {phase : LeaderPhase} (notWaiting : ∀ batch, phase ≠ .waiting batch)
    (sealPage : SealPage wal.highestSyncedLsn wal.highestSealedLsn wal.ledger.unsealed phase
        wal.inFlightGroups) :
    { wal with leader := phase }.KeepsPromise config :=
  { keeps with sealPage, notWaiting }

end Leader

section Threads

/-- A placed group takes the room it was promised. -/
theorem leaderTurn (positioned : wal.cursor.Positioned config)
    (turn : wal.leaderTurn config sums = some after) :
    after.KeepsPromise config := by
  cases leaderTurn_some turn with
  | stops ready =>
    exact keeps.withLeader (fun _ => LeaderPhase.noConfusion)
      (keeps.sealPage.withLeader (Or.inl ready) fun _ => LeaderPhase.noConfusion)
  | builds ready wakes running built => exact (keeps.builds sums positioned ready wakes built).2
  | waitsForSlot ready =>
    exact keeps.withLeader (fun _ => LeaderPhase.noConfusion)
      (keeps.sealPage.withLeader (Or.inl ready) fun _ => LeaderPhase.noConfusion)
  | resumes slotWait =>
    exact keeps.withLeader wal.leaderTop_ne_waiting
      (keeps.sealPage.withLeader (Or.inr slotWait) wal.leaderTop_ne_writing)
  | placesLate waiting => exact absurd waiting (keeps.notWaiting _)
  | givesUp waiting => exact absurd waiting (keeps.notWaiting _)

theorem fail : { wal with failed := true }.KeepsPromise config :=
  { keeps with }

theorem leaderWrote {writeOk : Bool} (wrote : wal.leaderWrote config writeOk = some after) :
    after.KeepsPromise config := by
  obtain ⟨group, writing, ⟨-, rfl⟩ | ⟨-, rfl⟩⟩ := leaderWrote_some wrote
  · have sealPage := keeps.sealPage
    rw [writing] at sealPage
    have notWriting := (wal.afterWrite config group).leaderTop_ne_writing
    have notWaiting := (wal.afterWrite config group).leaderTop_ne_waiting
    generalize (wal.afterWrite config group).leaderTop = top at notWriting notWaiting
    rw [afterWrite_eq]
    refine { keeps with sealPage := sealPage.wrote notWriting ?_, notWaiting }
    intro sealOnly
    simp [sealOnly]
  · exact keeps.fail.withLeader (fun _ => LeaderPhase.noConfusion) keeps.sealPage.stop

theorem syncerSynced {syncOk : Bool} (synced : wal.syncerSynced config syncOk = some after) :
    after.KeepsPromise config := by
  obtain ⟨groups, -, ⟨-, rfl⟩ | ⟨-, rfl⟩⟩ := syncerSynced_some synced
  · rw [afterSync_eq]
    exact { keeps with sealPage := keeps.sealPage.sync groups }
  · exact { keeps with }

end Threads

section Checkpoints

theorem captureHead {headLsn globalFlushedSeq : Nat} {payload : List UInt8}
    (captured : (wal.captureHead headLsn globalFlushedSeq payload).map Prod.fst = some after) :
    after.KeepsPromise config := by
  obtain ⟨-, rfl | ⟨-, rfl⟩⟩ := captureHead_some captured
  · exact keeps
  · exact { keeps with }

theorem writeCheckpoint {newest : Option Nat}
    (wrote : (wal.writeCheckpoint config newest).map Prod.fst = some after) :
    after.KeepsPromise config := by
  obtain ⟨_, _, _, -, rfl | ⟨-, rfl⟩⟩ := writeCheckpoint_some wrote <;>
    exact { keeps with }

theorem checkpointWrote {writeOk : Bool}
    (wrote : (wal.checkpointWrote writeOk).map Prod.fst = some after) :
    after.KeepsPromise config := by
  obtain ⟨_, -, ⟨-, rfl⟩ | ⟨-, rfl⟩⟩ := checkpointWrote_some wrote <;>
    exact { keeps with }

/-- A landed checkpoint only adds usable room. -/
theorem checkpointSynced (ordered : wal.InRingOrder config) {syncOk : Bool}
    (synced : (wal.checkpointSynced config syncOk).map Prod.fst = some after) :
    after.KeepsPromise config := by
  obtain ⟨checkpoint, syncing, ⟨-, rfl⟩ | ⟨-, rfl⟩⟩ := checkpointSynced_some synced
  · have names := ordered.names
    rw [syncing] at names
    have headEq : checkpoint.head = wal.head := names
    rw [headEq]
    refine { keeps with promised := keeps.promised.trans ?_ }
    exact RingCursor.usableBytes_landCheckpoint ordered.order.positioned
      ordered.order.checkpointed ordered.order.head_le_current _
  · exact { keeps with }

end Checkpoints

end KeepsPromise

/-- Records appended into a reservation are no bigger than it; the log is not stopped. -/
def KeepsReservations (_ : WalState) : WalEvent → Prop
  | .appendReserved reservation _ body _ _ => body.length ≤ reservation.size
  | .stop => False
  | _ => True

instance (wal : WalState) (event : WalEvent) : Decidable (wal.KeepsReservations event) :=
  match event with
  | .appendReserved reservation _ body _ _ =>
    inferInstanceAs (Decidable (body.length ≤ reservation.size))
  | .stop => inferInstanceAs (Decidable False)
  | .reserve .. | .reserveGroup .. | .release .. | .append .. | .changePromotionDebt ..
  | .leaderTurn | .leaderWrote .. | .syncerTurn | .syncerSynced .. | .captureHead ..
  | .writeCheckpoint .. | .checkpointWrote .. | .checkpointSynced ..
  | .setAutoSealOnQuiet .. => inferInstanceAs (Decidable True)

/-- Every step of a run that keeps to its reservations keeps the promise. -/
theorem KeepsPromise.step
    {config : WalConfig} {sums : Checksums} {wal after : WalState} {event : WalEvent}
    (keeps : wal.KeepsPromise config) (ordered : wal.InRingOrder config)
    (allowed : wal.KeepsReservations event) (stepped : walStep config sums wal event = some after) :
    after.KeepsPromise config := by
  cases event with
  | reserve =>
    cases stepped
    exact orUnchanged_induction keeps fun next ok => keeps.reserve ok
  | reserveGroup =>
    cases stepped
    exact orUnchanged_induction keeps fun next ok => keeps.reserveGroup ok
  | release =>
    rw [walStep] at stepped
    split_ifs at stepped with held
    cases stepped
    exact keeps.release held
  | append =>
    cases stepped
    exact orUnchanged_induction keeps fun next ok => keeps.append ok
  | appendReserved =>
    rw [walStep] at stepped
    split_ifs at stepped with held
    cases stepped
    exact orUnchanged_induction keeps fun next ok => keeps.appendReserved held allowed ok
  | changePromotionDebt =>
    cases stepped
    exact keeps.changePromotionDebt _
  | leaderTurn => exact keeps.leaderTurn ordered.order.positioned stepped
  | leaderWrote => exact keeps.leaderWrote stepped
  | syncerTurn =>
    obtain ⟨-, ⟨-, rfl⟩ | ⟨-, rfl⟩⟩ := syncerTurn_some stepped <;>
      exact { keeps with }
  | syncerSynced => exact keeps.syncerSynced stepped
  | captureHead => exact keeps.captureHead stepped
  | writeCheckpoint => exact keeps.writeCheckpoint stepped
  | checkpointWrote => exact keeps.checkpointWrote stepped
  | checkpointSynced => exact keeps.checkpointSynced ordered stepped
  | setAutoSealOnQuiet =>
    cases stepped
    exact { keeps with }
  | stop => exact allowed.elim

/-- Nothing is owed when the log starts. -/
theorem keepsPromise_start (config : WalConfig) (start : WalStart) :
    (WalState.start config start).KeepsPromise config where
  ledger := rfl
  promised := by
    have owed : ((WalState.start config start).promisedGroups config).ledger.owedBytes = 0 := by
      simp [owedBytes_ledger, pendingBytes, sealRoom, promisedGroups, loads, WalState.start]
    rw [PromisedGroups.Promised, owed]
    exact Nat.zero_le _
  sealPage := .quiet (fun _ => LeaderPhase.noConfusion) (le_refl _)
  notWaiting := fun _ => LeaderPhase.noConfusion
  notStopping := rfl

end WalState

end Orly
