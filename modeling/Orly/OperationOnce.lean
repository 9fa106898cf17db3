import Orly.OperationRuns

namespace Orly

/-!
# Keyed operations take effect at most once

Each event preserves the invariant of the operation table, its requests, the log and the
checkpoints; a crash re-establishes it from what was saved.  So no operation whose record
survived, and none that completed, is ever taken for a new one.
-/

open List OperationSystem OperationTable RecoveryAction

section Invariant

variable {system : OperationSystem} {povId : Uuid} {opId : OperationId} {request : OperationRequest}

theorem OperationSystem.request?_some (found : system.request? povId opId = some request) :
    request ∈ system.requests ∧ request.Names povId opId :=
  ⟨mem_of_find?_eq_some found, by simpa using find?_some found⟩

theorem OperationSystem.mem_otherRequests : request ∈ system.otherRequests povId opId ↔
      request ∈ system.requests ∧ ¬ request.Names povId opId := by
  simp [otherRequests]

/-- A record that is appended is not below a head that was chosen before. -/
theorem PayloadHolds.grow {headLsn : Nat} {payload : List UInt8} {record : KeyedRecord}
    (holds : PayloadHolds system.log system.nextLsn headLsn payload)
    (lsn : record.lsn = system.nextLsn) :
    PayloadHolds (system.log ++ [record]) (system.nextLsn + 1) headLsn payload := by
  obtain ⟨head, povs, isPayload, inRange, held⟩ := holds
  refine ⟨head.trans (Nat.le_succ _), povs, isPayload, inRange, ?_⟩
  intro other inLog below
  rcases mem_append.mp inLog with earlier | isLast
  · exact held other earlier below
  · rw [mem_singleton.mp isLast, lsn] at below
    omega

namespace OperationInvariant

section

variable (inv : OperationInvariant system)

include inv

/-- A running request's operation is not settled. -/
theorem unsettled {Good : Outcome → Prop} (running : request ∈ system.requests)
    (names : request.Names povId opId) :
    ¬ Settled Good system.table povId opId := by
  obtain ⟨rfl, rfl⟩ := names
  obtain ⟨slot, isSlot⟩ := inv.requests request running
  intro settled
  have isDone := (settled.slot slot isSlot.found).1
  simp [isSlot.notDone] at isDone

/-- An operation has one running request. -/
theorem request_unique {other : OperationRequest}
    (running : request ∈ system.requests) (otherRunning : other ∈ system.requests)
    (names : request.Names povId opId) (otherNames : other.Names povId opId) :
    request = other := by
  by_contra differs
  have symmetric : Std.Symm fun left right : OperationRequest =>
      ¬ left.Names right.povId right.opId :=
    ⟨fun _ _ notNames names => notNames ⟨names.1.symm, names.2.symm⟩⟩
  exact inv.distinct.forall running otherRunning differs
    ⟨names.1.trans otherNames.1.symm, names.2.trans otherNames.2.symm⟩

/-- A record of a running request's operation is the one the request logged. -/
theorem logged_of_names {record : KeyedRecord} (running : request ∈ system.requests)
    (inLog : record ∈ system.log) (names : request.Names record.povId record.opId) :
    request.phase = .logged record := by
  rcases inv.settled record inLog with settled | ⟨other, otherRunning, logged⟩
  · exact absurd settled (inv.unsettled running names)
  · obtain ⟨slot, isSlot⟩ := inv.requests other otherRunning
    have otherNames := (isSlot.logged record logged).2.2.2.1
    rw [inv.request_unique running otherRunning names otherNames]
    exact logged

/-- A change of the table and the requests that settled operations outlive. -/
theorem change
    {table : OperationTable} {requests : List OperationRequest} {completed : List DoneKey}
    (bookkeeping : TableInvariant table)
    (stay : ∀ Good povId opId, Settled Good system.table povId opId → Settled Good table povId opId)
    (running : ∀ request ∈ requests, ∃ slot,
      RequestSlot table system.log system.nextLsn request slot)
    (distinct : requests.Pairwise fun left right => ¬ left.Names right.povId right.opId)
    (logged : ∀ request ∈ system.requests, ∀ record ∈ system.log,
      request.phase = .logged record → RecordSettled table record ∨
        ∃ request ∈ requests, request.phase = .logged record)
    (done : ∀ key ∈ completed, key ∈ system.completed ∨
      Settled (fun _ => True) table key.povId key.opId) :
    OperationInvariant { system with table, requests, completed } :=
  { inv with
    bookkeeping
    requests := running
    distinct
    settled := fun record inLog => by
      rcases inv.settled record inLog with settled | ⟨request, running, isLogged⟩
      · exact .inl (stay _ _ _ settled)
      · exact logged request running record inLog isLogged
    headChosen := fun headLsn chosen => by
      obtain ⟨headLe, settled⟩ := inv.headChosen headLsn chosen
      exact ⟨headLe, fun record inLog below => stay _ _ _ (settled record inLog below)⟩
    completed := fun key mem => by
      rcases done key mem with earlier | settled
      · exact stay _ _ _ (inv.completed key earlier)
      · exact settled }

/-- A call on the table that names no operation. -/
theorem changeTable {table : OperationTable} (bookkeeping : TableInvariant table)
    (keeps : ∀ povId opId, Keeps system.table table povId opId) :
    OperationInvariant { system with table } := by
  refine inv.change bookkeeping (fun _ povId opId settled => settled.keeps (keeps povId opId))
    ?_ inv.distinct (fun request running _ _ isLogged => .inr ⟨request, running, isLogged⟩)
    (fun _ mem => .inl mem)
  intro request running
  obtain ⟨slot, isSlot⟩ := inv.requests request running
  have found := (keeps request.povId request.opId).inFlight isSlot.found isSlot.notDone
  exact ⟨slot, { isSlot with found := found }⟩

end

/-- A call on the operation of a running request: the others keep their slots. -/
theorem changeRequest
    {table : OperationTable} {completed : List DoneKey} (others : List OperationRequest)
    (inv : OperationInvariant system) (running : request ∈ system.requests)
    (names : request.Names povId opId) (bookkeeping : TableInvariant table)
    (keeps : ∀ otherPov otherOp, ¬ (otherPov = povId ∧ otherOp = opId) →
      Keeps system.table table otherPov otherOp)
    (own : ∀ request ∈ others, request.Names povId opId ∧
      ∃ slot, RequestSlot table system.log system.nextLsn request slot)
    (atMostOne : others.length ≤ 1)
    (logged : ∀ record, request.phase = .logged record →
      RecordSettled table record ∨ ∃ request ∈ others, request.phase = .logged record)
    (done : ∀ key ∈ completed, key ∈ system.completed ∨
      Settled (fun _ => True) table key.povId key.opId) :
    OperationInvariant
      { system with
        table
        requests := others ++ system.otherRequests povId opId
        completed } := by
  have otherPairs :
      (system.otherRequests povId opId).Pairwise fun left right =>
        ¬ left.Names right.povId right.opId :=
    inv.distinct.filter _
  refine inv.change bookkeeping ?_ ?_ ?_ ?_ done
  · intro Good otherPov otherOp settled
    refine settled.keeps (keeps otherPov otherOp ?_)
    rintro ⟨rfl, rfl⟩
    exact inv.unsettled running names settled
  · intro other mem
    rcases mem_append.mp mem with isOwn | isOther
    · exact (own other isOwn).2
    · obtain ⟨otherRunning, otherNames⟩ := mem_otherRequests.mp isOther
      obtain ⟨slot, isSlot⟩ := inv.requests other otherRunning
      have found := (keeps _ _ otherNames).inFlight isSlot.found isSlot.notDone
      exact ⟨slot, { isSlot with found := found }⟩
  · refine pairwise_append.mpr ⟨?_, otherPairs, ?_⟩
    · match others, atMostOne with
      | [], _ => exact .nil
      | [_], _ => exact pairwise_singleton ..
    · intro left isOwn right isOther sameNames
      have leftNames := (own left isOwn).1
      refine (mem_otherRequests.mp isOther).2 ?_
      exact ⟨sameNames.1.symm.trans leftNames.1, sameNames.2.symm.trans leftNames.2⟩
  · intro other otherRunning record inLog isLogged
    by_cases otherNames : other.Names povId opId
    · have same := inv.request_unique running otherRunning names otherNames
      rcases logged record (same ▸ isLogged) with settled | ⟨next, isOwn, nextLogged⟩
      · exact .inl settled
      · exact .inr ⟨next, mem_append_left _ isOwn, nextLogged⟩
    · exact .inr ⟨other, mem_append_right _
        (mem_otherRequests.mpr ⟨otherRunning, otherNames⟩), isLogged⟩

end OperationInvariant

/-! ## One event -/

variable {next : OperationSystem}

theorem small_setOperationResult {config : OperationConfig} {content : List UInt8}
    (capped : config.resultBytes < 2 ^ 16) :
    ∀ bytes ∈ setOperationResult config content, bytes.length < 2 ^ 16 := by
  intro bytes kept
  rw [setOperationResult] at kept
  obtain ⟨fits, kept⟩ := Option.ite_none_right_eq_some.mp kept
  cases kept
  omega

namespace OperationInvariant

section

variable (inv : OperationInvariant system)

include inv

theorem reserve {hash : UInt64} {persistent : Bool} {now : Nat}
    (stepped : operationStep system (.reserve povId opId hash persistent now) = some next) :
    OperationInvariant next := by
  have bookkeeping : TableInvariant (system.table.reserve povId opId.val hash now).1 :=
    inv.bookkeeping.reserve
  rcases reserve_cases system.table povId opId hash now with
    ⟨missing, fresh, isNew⟩ | ⟨same, notNew⟩
  · simp only [operationStep, isNew, Option.some.injEq] at stepped
    subst stepped
    rw [isNew] at bookkeeping
    have unsettled : ∀ Good, ¬ Settled Good system.table povId opId :=
      fun Good settled => fresh (settled.refused missing)
    have unnamed : ∀ request ∈ system.requests, ¬ request.Names povId opId := by
      rintro request running ⟨rfl, rfl⟩
      obtain ⟨slot, isSlot⟩ := inv.requests request running
      simp [isSlot.found] at missing
    refine inv.change bookkeeping ?_ ?_ ?_ ?_ (fun _ mem => .inl mem)
    · intro Good otherPov otherOp settled
      refine settled.keeps (keeps_setSlot ?_)
      rintro ⟨rfl, rfl⟩
      exact unsettled Good settled
    · intro request mem
      rcases mem_cons.mp mem with rfl | running
      · refine ⟨{ outcome := { hash } }, ?_, rfl, rfl, by simp, by simp⟩
        exact slot?_setSlot.trans (if_pos ⟨rfl, rfl⟩)
      · obtain ⟨slot, isSlot⟩ := inv.requests request running
        exact ⟨slot, { isSlot with
          found := (keeps_setSlot (unnamed request running)).inFlight isSlot.found
            isSlot.notDone }⟩
    · exact pairwise_cons.mpr ⟨fun request running names =>
        unnamed request running ⟨names.1.symm, names.2.symm⟩, inv.distinct⟩
    · exact fun request running _ _ isLogged =>
        .inr ⟨request, mem_cons_of_mem _ running, isLogged⟩
  · have changed := inv.changeTable bookkeeping fun _ _ => same.keeps
    simp only [operationStep] at stepped
    split at stepped
    case h_1 isNew => exact absurd isNew notNew
    case h_2 | h_3 => exact Option.some.inj stepped ▸ changed

theorem beginCommit {floorLsn : Nat} {bytes : List UInt8}
    (stepped : operationStep system (.beginCommit povId opId floorLsn bytes) = some next) :
    OperationInvariant next := by
  obtain ⟨request, found, stepped⟩ := Option.bind_eq_some_iff.mp stepped
  obtain ⟨⟨reserved, _, floorLe⟩, stepped⟩ := Option.ite_none_right_eq_some.mp stepped
  obtain ⟨running, names⟩ := request?_some found
  obtain ⟨slot, isSlot⟩ := inv.requests request running
  rcases names with ⟨rfl, rfl⟩
  rcases beginCommit_cases system.table request.povId request.opId floorLsn with
    ⟨marked, isMarked, notDone, table⟩ | ⟨allDone, _⟩
  · obtain rfl := Option.some.inj (isMarked.symm.trans isSlot.found)
    cases stepped
    refine changeRequest [_] inv running ⟨rfl, rfl⟩
      inv.bookkeeping.beginCommit (fun _ _ differs => keeps_beginCommit differs)
      ?_ (by simp) (by simp [reserved]) (fun _ mem => .inl mem)
    intro own isOwn
    obtain rfl := mem_singleton.mp isOwn
    refine ⟨⟨rfl, rfl⟩, { marked with floorLsn := max floorLsn 1 }, ?_, notDone,
      isSlot.hash, ?_, by simp⟩
    · rw [table]
      exact slot?_setSlot.trans (if_pos ⟨rfl, rfl⟩)
    · intro result isResult
      obtain rfl := RequestPhase.committing.inj isResult
      exact ⟨by simp, max_le floorLe inv.positive, small_setOperationResult inv.bookkeeping.capped⟩
  · have isDone := allDone slot isSlot.found
    simp [isSlot.notDone] at isDone

/-- A request completes, with an outcome that is the recorded one if it logged. -/
theorem completeRequest {outcome : Outcome} {now : Nat} (running : request ∈ system.requests)
    (small : ∀ bytes ∈ outcome.result, bytes.length < 2 ^ 16)
    (recorded : ∀ record, request.phase = .logged record → outcome = record.outcome) :
    OperationInvariant
      { system with
        table := system.table.complete request.povId request.opId outcome now
        requests := system.otherRequests request.povId request.opId
        completed := ⟨request.povId, request.opId⟩ :: system.completed } := by
  refine changeRequest [] inv running ⟨rfl, rfl⟩ (inv.bookkeeping.complete small)
    (fun _ _ differs => inv.bookkeeping.keeps_complete small differs) (by simp) (by simp)
    ?_ ?_
  · intro record isLogged
    obtain ⟨slot, isSlot⟩ := inv.requests request running
    obtain ⟨samePov, sameOp⟩ := (isSlot.logged record isLogged).2.2.2.1
    left
    rw [RecordSettled, ← samePov, ← sameOp]
    exact inv.bookkeeping.settled_complete small (.inl (recorded record isLogged))
  · intro key mem
    rcases mem_cons.mp mem with rfl | earlier
    · exact .inr (inv.bookkeeping.settled_complete small trivial)
    · exact .inl earlier

theorem complete {now : Nat}
    (stepped : operationStep system (.complete povId opId now) = some next) :
    OperationInvariant next := by
  obtain ⟨request, found, stepped⟩ := Option.bind_eq_some_iff.mp stepped
  obtain ⟨running, rfl, rfl⟩ := request?_some found
  split at stepped
  case h_1 record isLogged =>
    cases stepped
    obtain ⟨slot, isSlot⟩ := inv.requests request running
    have inLog := (isSlot.logged record isLogged).2.2.1
    refine inv.completeRequest running (inv.results record inLog) fun other isOther => ?_
    rw [isLogged] at isOther
    rw [RequestPhase.logged.inj isOther]
  case h_2 | h_3 => contradiction

theorem completeUnlogged {sequenceNumber : UInt64} {bytes : List UInt8} {now : Nat}
    (stepped : operationStep system
      (.completeUnlogged povId opId sequenceNumber bytes now) = some next) :
    OperationInvariant next := by
  obtain ⟨request, found, stepped⟩ := Option.bind_eq_some_iff.mp stepped
  obtain ⟨running, rfl, rfl⟩ := request?_some found
  obtain ⟨guard, stepped⟩ := Option.ite_none_right_eq_some.mp stepped
  cases stepped
  exact inv.completeRequest running
    (small_setOperationResult inv.bookkeeping.capped) (by simp [guard.1])

theorem release (stepped : operationStep system (.release povId opId) = some next) :
    OperationInvariant next := by
  obtain ⟨request, found, stepped⟩ := Option.bind_eq_some_iff.mp stepped
  obtain ⟨running, rfl, rfl⟩ := request?_some found
  have released : (∀ record, request.phase ≠ .logged record) → OperationInvariant
        { system with
          table := system.table.release request.povId request.opId
          requests := system.otherRequests request.povId request.opId } := by
    intro notLogged
    exact changeRequest [] inv running ⟨rfl, rfl⟩ inv.bookkeeping.release
      (fun _ _ differs => keeps_release (.inl differs)) (by simp) (by simp)
      (fun record isLogged => absurd isLogged (notLogged record))
      (fun _ mem => .inl mem)
  split at stepped
  case h_1 => contradiction
  case h_2 reserved => exact Option.some.inj stepped ▸ released (by simp [reserved])
  case h_3 committing => exact Option.some.inj stepped ▸ released (by simp [committing])

/-- A request that is committing appends its record. -/
theorem appendRecord {slot : Slot} {record : KeyedRecord}
    (running : request ∈ system.requests) (notLogged : ∀ record, request.phase ≠ .logged record)
    (isSlot : RequestSlot system.table system.log system.nextLsn request slot)
    (lsn : record.lsn = system.nextLsn) (names : request.Names record.povId record.opId)
    (hash : request.hash = record.hash) (small : ∀ bytes ∈ record.result, bytes.length < 2 ^ 16)
    (floor : 0 < slot.floorLsn ∧ slot.floorLsn ≤ system.nextLsn)
    (unlogged : ∀ record ∈ system.log, ¬ request.Names record.povId record.opId) :
    OperationInvariant
      { system with
        log := system.log ++ [record]
        nextLsn := system.nextLsn + 1
        requests :=
          { request with phase := .logged record } ::
            system.otherRequests request.povId request.opId } where
  bookkeeping := inv.bookkeeping
  requests := fun other mem => by
    rcases mem_cons.mp mem with rfl | isOther
    · refine ⟨slot, isSlot.found, isSlot.notDone, isSlot.hash, by simp, ?_⟩
      intro logged isLogged
      obtain rfl := RequestPhase.logged.inj isLogged
      exact ⟨floor.1, lsn ▸ floor.2, by simp, names, hash⟩
    · obtain ⟨otherRunning, _⟩ := mem_otherRequests.mp isOther
      obtain ⟨otherSlot, isOtherSlot⟩ := inv.requests other otherRunning
      refine ⟨otherSlot, { isOtherSlot with committing := ?_, logged := ?_ }⟩
      · intro result committing
        obtain ⟨floorPos, floorLe, small⟩ := isOtherSlot.committing result committing
        exact ⟨floorPos, floorLe.trans (Nat.le_succ _), small⟩
      · intro logged isLogged
        obtain ⟨floorPos, floorLe, inLog, names⟩ := isOtherSlot.logged logged isLogged
        exact ⟨floorPos, floorLe, mem_append_left _ inLog, names⟩
  distinct := by
    refine pairwise_cons.mpr ⟨fun other isOther sameNames => ?_, inv.distinct.filter _⟩
    exact (mem_otherRequests.mp isOther).2 ⟨sameNames.1.symm, sameNames.2.symm⟩
  positive := Nat.succ_pos _
  lsns := fun other inLog => by
    rcases mem_append.mp inLog with earlier | isLast
    · exact (inv.lsns other earlier).trans (Nat.lt_succ_self _)
    · rw [mem_singleton.mp isLast, lsn]
      exact Nat.lt_succ_self _
  results := fun other inLog => by
    rcases mem_append.mp inLog with earlier | isLast
    · exact inv.results other earlier
    · exact mem_singleton.mp isLast ▸ small
  keys := by
    refine pairwise_append.mpr ⟨inv.keys, pairwise_singleton .., ?_⟩
    intro other earlier last isLast same
    rw [mem_singleton.mp isLast] at same
    exact unlogged other earlier ⟨names.1.trans same.1.symm, names.2.trans same.2.symm⟩
  settled := fun other inLog => by
    rcases mem_append.mp inLog with earlier | isLast
    · rcases inv.settled other earlier with settled | ⟨holder, isRunning, isLogged⟩
      · exact .inl settled
      · refine .inr ⟨holder, mem_cons_of_mem _ ?_, isLogged⟩
        refine mem_otherRequests.mpr ⟨isRunning, fun holderNames => ?_⟩
        have same := inv.request_unique running isRunning ⟨rfl, rfl⟩ holderNames
        exact notLogged other (same ▸ isLogged)
    · rw [mem_singleton.mp isLast]
      exact .inr ⟨_, mem_cons_self, rfl⟩
  headChosen := fun headLsn chosen => by
    obtain ⟨headLe, settled⟩ := inv.headChosen headLsn chosen
    refine ⟨headLe.trans (Nat.le_succ _), fun other inLog below => ?_⟩
    rcases mem_append.mp inLog with earlier | isLast
    · exact settled other earlier below
    · rw [mem_singleton.mp isLast, lsn] at below
      omega
  snapshotTaken := fun headLsn payload taken =>
    (inv.snapshotTaken headLsn payload taken).grow lsn
  saved := fun checkpoint isSaved =>
    ⟨(inv.saved checkpoint isSaved).1.grow lsn, (inv.saved checkpoint isSaved).2⟩
  completed := inv.completed

theorem append {sequenceNumber : UInt64}
    (stepped : operationStep system (.append povId opId sequenceNumber) = some next) :
    OperationInvariant next := by
  obtain ⟨request, found, stepped⟩ := Option.bind_eq_some_iff.mp stepped
  obtain ⟨running, rfl, rfl⟩ := request?_some found
  obtain ⟨slot, isSlot⟩ := inv.requests request running
  split at stepped
  case h_2 | h_3 => contradiction
  case h_1 result committing =>
    obtain ⟨floorPos, floorLe, small⟩ := isSlot.committing result committing
    cases stepped
    have unlogged : ∀ record ∈ system.log, ¬ request.Names record.povId record.opId := by
      intro record inLog names
      have isLogged := inv.logged_of_names running inLog names
      simp [committing] at isLogged
    exact inv.appendRecord running (by simp [committing]) isSlot rfl ⟨rfl, rfl⟩ rfl small
      ⟨floorPos, floorLe⟩ unlogged

theorem chooseHead {headLsn : Nat}
    (stepped : operationStep system (.chooseHead headLsn) = some next) :
    OperationInvariant next := by
  simp only [operationStep] at stepped
  obtain ⟨⟨idle, headLe, floorLe⟩, stepped⟩ := Option.ite_none_right_eq_some.mp stepped
  cases stepped
  refine { inv with headChosen := ?_, snapshotTaken := by simp }
  intro chosen isChosen
  obtain rfl := SnapshotPhase.headChosen.inj isChosen
  refine ⟨headLe, fun record inLog below => ?_⟩
  rcases inv.settled record inLog with settled | ⟨request, running, isLogged⟩
  · exact settled
  · obtain ⟨slot, isSlot⟩ := inv.requests request running
    obtain ⟨floorPos, floorLeLsn, _⟩ := isSlot.logged record isLogged
    have held := headFloor_le isSlot.found isSlot.notDone floorPos.ne'
    omega

/-- A snapshot answers for what is below its head. -/
theorem takeSnapshot {budget : Nat} {sorted : List SnapshotItem}
    (stepped : operationStep system (.takeSnapshot budget sorted) = some next) :
    OperationInvariant next := by
  simp only [operationStep] at stepped
  split at stepped
  case h_2 | h_3 => contradiction
  case h_1 headLsn chosen =>
    obtain ⟨arranged, stepped⟩ := Option.ite_none_right_eq_some.mp stepped
    cases stepped
    obtain ⟨headLe, settled⟩ := inv.headChosen headLsn chosen
    refine { inv with headChosen := by simp, snapshotTaken := ?_ }
    intro head payload taken
    obtain ⟨rfl, rfl⟩ := SnapshotPhase.snapshotTaken.inj taken
    refine ⟨headLe, _, rfl, snapshotPovs_inRange inv.bookkeeping arranged, ?_⟩
    intro record inLog below
    refine (settled record inLog below).heldBy_snapshot ?_ ?_ arranged
    · rintro outcome (rfl | rfl)
      · exact ⟨rfl, below⟩
      · exact ⟨rfl, Nat.zero_lt_of_lt below⟩
    · rintro outcome (rfl | rfl) <;> exact .inr rfl

/-- The saved head is the snapshot's. -/
theorem saveCheckpoint (own : system.savesItsHead .saveCheckpoint = true)
    (stepped : operationStep system .saveCheckpoint = some next) : OperationInvariant next := by
  simp only [operationStep] at stepped
  split at stepped
  case h_2 | h_3 => contradiction
  case h_1 headLsn payload taken =>
    obtain ⟨short, stepped⟩ := Option.ite_none_right_eq_some.mp stepped
    cases stepped
    have holds := inv.snapshotTaken headLsn payload taken
    have notBelow : system.headLsn ≤ headLsn := by simpa [savesItsHead, taken] using own
    have isHead : system.movedHead headLsn = headLsn := by
      rw [movedHead, max_eq_right notBelow, min_eq_left holds.head]
    refine { inv with headChosen := by simp, snapshotTaken := by simp, saved := ?_ }
    intro checkpoint isSaved
    cases isSaved
    rw [isHead]
    exact ⟨holds, short⟩

theorem checkpointFails (stepped : operationStep system .checkpointFails = some next) :
    OperationInvariant next := by
  simp only [operationStep] at stepped
  split at stepped
  case h_2 | h_3 => contradiction
  case h_1 =>
    cases stepped
    exact { inv with headChosen := by simp, snapshotTaken := by simp }

theorem appendOther : OperationInvariant { system with nextLsn := system.nextLsn + 1 } := by
  have later : ∀ {bound : Nat}, bound ≤ system.nextLsn → bound ≤ system.nextLsn + 1 :=
    fun le => le.trans (Nat.le_succ _)
  refine { inv with
    requests := fun request running => ?_
    positive := Nat.succ_pos _
    lsns := fun record inLog => later (inv.lsns record inLog)
    headChosen := fun headLsn chosen => ?_
    snapshotTaken := fun headLsn payload taken => ?_
    saved := fun checkpoint isSaved => ?_ }
  · obtain ⟨slot, isSlot⟩ := inv.requests request running
    refine ⟨slot, { isSlot with committing := fun result committing => ?_ }⟩
    obtain ⟨floorPos, floorLe, small⟩ := isSlot.committing result committing
    exact ⟨floorPos, later floorLe, small⟩
  · obtain ⟨headLe, settled⟩ := inv.headChosen headLsn chosen
    exact ⟨later headLe, settled⟩
  · obtain ⟨head, holds⟩ := inv.snapshotTaken headLsn payload taken
    exact ⟨later head, holds⟩
  · obtain ⟨⟨head, holds⟩, short⟩ := inv.saved checkpoint isSaved
    exact ⟨⟨later head, holds⟩, short⟩

end

end OperationInvariant

/-! ## Recovery -/

section Recovery

variable {config : OperationConfig} {log : List KeyedRecord} {loadClock replayClock : RestoreClock}

/-- The actions that replay the log from a head on. -/
def replayActions (headLsn : Nat) (log : List KeyedRecord)
    (replayClock : RestoreClock) : List RecoveryAction :=
  (log.filter fun record => headLsn ≤ record.lsn).map fun record =>
    .restore record.povId record.opId record.outcome (replayClock record.povId record.opId)

theorem replay_eq (headLsn : Nat) (table : OperationTable) :
    (log.filter fun record => headLsn ≤ record.lsn).foldl
        (fun restored record =>
          restored.restore record.povId record.opId record.outcome
            (replayClock record.povId record.opId))
        table =
      (replayActions headLsn log replayClock).foldl apply table := by
  rw [replayActions, foldl_map]
  rfl

/-- Replay is sound for the operation of each record: no other record is of it. -/
theorem replay_sound {headLsn : Nat} {record : KeyedRecord}
    (results : ∀ record ∈ log, ∀ bytes ∈ record.result, bytes.length < 2 ^ 16)
    (keys : log.Pairwise fun left right =>
      ¬ (left.povId = right.povId ∧ left.opId = right.opId)) (inLog : record ∈ log) :
    ∀ action ∈ replayActions headLsn log replayClock,
      action.Sound record.Recorded record.povId record.opId := by
  intro action mem
  obtain ⟨other, isOther, rfl⟩ := mem_map.mp mem
  have otherInLog := mem_of_mem_filter isOther
  refine ⟨results other otherInLog, fun outcome now isRestore => ?_⟩
  obtain ⟨samePov, sameOp, rfl, _⟩ := RecoveryAction.restore.inj isRestore
  have symmetric : Std.Symm fun left right : KeyedRecord =>
      ¬ (left.povId = right.povId ∧ left.opId = right.opId) :=
    ⟨fun _ _ differ same => differ ⟨same.1.symm, same.2.symm⟩⟩
  have isRecord : record = other := by
    by_contra differs
    exact keys.forall inLog otherInLog differs ⟨samePov.symm, sameOp.symm⟩
  exact .inl (isRecord ▸ rfl)

theorem tableInvariant_fresh (capped : config.resultBytes ≤ 8192) :
    TableInvariant { config := config } where
  nodup := nodup_nil
  done := by simp
  watermarks := fun povId => by
    simp [expiredBefore, povTable]
  results := fun povId opId slot found => by
    simp [slot?, povTable] at found
  capped := by
    show config.resultBytes < 2 ^ 16
    omega

/-- Loading a payload settles the records below its head. -/
theorem load_settles {nextLsn headLsn : Nat} {payload : List UInt8} (loadClock : RestoreClock)
    (capped : config.resultBytes ≤ 8192) (holds : PayloadHolds log nextLsn headLsn payload)
    (short : payload.length < 2 ^ 32) :
    ∃ loaded, load { config := config } payload loadClock = some loaded ∧ TableInvariant loaded ∧
      ∀ record ∈ log, record.lsn < headLsn → RecordSettled loaded record := by
  obtain ⟨_, povs, rfl, inRange, held⟩ := holds
  have fresh := tableInvariant_fresh capped
  have isLoaded : load { config := config } (encodePayload povs) loadClock =
      some ((povs.flatMap (SnapshotPov.actions loadClock)).foldl apply
        { config := config }) := by
    rw [load, readPayload_encode inRange short, Option.map_some, loadPovs_eq]
  refine ⟨_, isLoaded, foldl_bookkeeping (fits_actions inRange) fresh, ?_⟩
  intro record inLog below
  have isHeld := held record inLog below
  have inv : LoadInvariant record.Recorded record.povId record.opId
      { config := config } :=
    ⟨fresh, fun slot found => by
      simp [slot?, povTable] at found⟩
  rcases isHeld.settles loadClock with zero | settles
  · refine ⟨(foldl_inv (isHeld.sound inRange) inv).slot, fun _ => ?_⟩
    rw [zero]
    exact Nat.zero_le _
  · exact foldl_settles (isHeld.sound inRange) settles inv

/-- Recovery does not fail, and settles every record that is left. -/
theorem recoverOperations_settles
    {nextLsn : Nat} {saved : Option SavedCheckpoint} (capped : config.resultBytes ≤ 8192)
    (holds : ∀ checkpoint ∈ saved, PayloadHolds log nextLsn checkpoint.headLsn checkpoint.payload ∧
        checkpoint.payload.length < 2 ^ 32)
    (results : ∀ record ∈ log, ∀ bytes ∈ record.result, bytes.length < 2 ^ 16)
    (keys : log.Pairwise fun left right =>
      ¬ (left.povId = right.povId ∧ left.opId = right.opId)) :
    ∃ table, recoverOperations config saved log loadClock replayClock = some table ∧
      TableInvariant table ∧ ∀ record ∈ log, RecordSettled table record := by
  have loads : ∃ loaded headLsn, recoverOperations config saved log loadClock replayClock =
        some ((replayActions headLsn log replayClock).foldl apply loaded) ∧
      TableInvariant loaded ∧
      ∀ record ∈ log, record.lsn < headLsn → RecordSettled loaded record := by
    cases saved with
    | none =>
      refine ⟨{ config := config }, 0, ?_, tableInvariant_fresh capped, by simp⟩
      rw [← replay_eq]
      rfl
    | some checkpoint =>
      obtain ⟨isHeld, short⟩ := holds checkpoint rfl
      obtain ⟨loaded, isLoaded, inv, settled⟩ := load_settles loadClock capped isHeld short
      refine ⟨loaded, checkpoint.headLsn, ?_, inv, settled⟩
      rw [← replay_eq]
      simp only [recoverOperations, isLoaded, Option.map_some, Option.getD_some]
  obtain ⟨loaded, headLsn, recovered, inv, settled⟩ := loads
  have fits : ∀ action ∈ replayActions headLsn log replayClock, action.Fits := by
    intro action mem
    obtain ⟨record, isRecord, rfl⟩ := mem_map.mp mem
    exact results record (mem_of_mem_filter isRecord)
  refine ⟨_, recovered, foldl_bookkeeping fits inv, fun record inLog => ?_⟩
  have sound : ∀ action ∈ replayActions headLsn log replayClock,
      action.Sound record.Recorded record.povId record.opId :=
    replay_sound results keys inLog
  rcases Nat.lt_or_ge record.lsn headLsn with below | above
  · exact foldl_settled sound inv (settled record inLog below)
  · refine foldl_restores sound (mem_map.mpr ⟨record, ?_, rfl⟩) inv
    simp [inLog, above]

end Recovery

section Crash

variable {lost : List Nat} {nextLsn retentionCount retentionSeconds outcomeBytes : Nat}
  {loadClock replayClock : RestoreClock}

/-- The records a crash leaves are still held by what was saved. -/
theorem PayloadHolds.filter {headLsn : Nat} {payload : List UInt8} (kept : KeyedRecord → Bool)
    (holds : PayloadHolds system.log system.nextLsn headLsn payload) (headLe : headLsn ≤ nextLsn) :
    PayloadHolds (system.log.filter kept) nextLsn headLsn payload := by
  obtain ⟨_, povs, isPayload, inRange, held⟩ := holds
  exact ⟨headLe, povs, isPayload, inRange, fun record inLog =>
    held record (mem_of_mem_filter inLog)⟩

/-- A crash after which the LSNs go on behind the records and the head that are left is
recovered from. -/
theorem OperationInvariant.crash (inv : OperationInvariant system) (positive : 0 < nextLsn)
    (above : ∀ record ∈ system.log, record.lsn ∉ lost → record.lsn < nextLsn)
    (heads : ∀ checkpoint ∈ system.saved, checkpoint.headLsn ≤ nextLsn) :
    ∃ next, operationStep system
        (.crash lost nextLsn retentionCount retentionSeconds outcomeBytes loadClock
          replayClock) = some next ∧
      next.requests = [] ∧
      next.log = system.log.filter (fun record => record.lsn ∉ lost) ∧
      OperationInvariant next := by
  let config := serverOperationConfig retentionCount retentionSeconds outcomeBytes
  let log := system.log.filter fun record => record.lsn ∉ lost
  have capped : config.resultBytes ≤ 8192 := Nat.min_le_right ..
  have inLog : ∀ record ∈ log, record ∈ system.log ∧ record.lsn ∉ lost := by
    intro record mem
    simpa using mem_filter.mp mem
  have lsns : ∀ record ∈ log, record.lsn < nextLsn :=
    fun record mem => above record (inLog record mem).1 (inLog record mem).2
  have results : ∀ record ∈ log, ∀ bytes ∈ record.result, bytes.length < 2 ^ 16 :=
    fun record mem => inv.results record (inLog record mem).1
  have keys := inv.keys.filter fun record => record.lsn ∉ lost
  have saved : ∀ checkpoint ∈ system.saved,
      PayloadHolds log nextLsn checkpoint.headLsn checkpoint.payload ∧
        checkpoint.payload.length < 2 ^ 32 := by
    intro checkpoint isSaved
    obtain ⟨holds, short⟩ := inv.saved checkpoint isSaved
    exact ⟨holds.filter _ (heads checkpoint isSaved), short⟩
  obtain ⟨table, recovered, bookkeeping, settled⟩ :=
    recoverOperations_settles capped saved results keys
  let headLsn := (system.saved.map SavedCheckpoint.headLsn).getD 0
  refine ⟨{ table, log, nextLsn, headLsn, saved := system.saved }, ?_, rfl, rfl, ?_⟩
  · rw [operationStep]
    rw [if_pos ⟨positive, lsns, heads⟩, recovered, Option.map_some]
  · exact
      { bookkeeping := bookkeeping
        requests := by simp
        distinct := List.Pairwise.nil
        positive := positive
        lsns := lsns
        results := results
        keys := keys
        settled := fun record mem => .inl (settled record mem)
        headChosen := by simp
        snapshotTaken := by simp
        saved := saved
        completed := by simp }

end Crash

/-- Every event preserves the invariant. -/
theorem OperationInvariant.step {event : OperationEvent} (inv : OperationInvariant system)
    (own : system.savesItsHead event = true) (stepped : operationStep system event = some next) :
    OperationInvariant next := by
  have sameTable : ∀ {table : OperationTable}, SameSlots system.table table →
      OperationInvariant { system with table } :=
    fun same => inv.changeTable (same.invariant inv.bookkeeping) fun _ _ => same.keeps
  cases event with
  | reserve => exact inv.reserve stepped
  | beginCommit => exact inv.beginCommit stepped
  | append => exact inv.append stepped
  | complete => exact inv.complete stepped
  | completeUnlogged => exact inv.completeUnlogged stepped
  | release => exact inv.release stepped
  | appendOther => exact Option.some.inj stepped ▸ inv.appendOther
  | prune now =>
    exact Option.some.inj stepped ▸
      inv.changeTable (inv.bookkeeping.prune now) fun _ _ =>
        inv.bookkeeping.keeps_prune now
  | refuseUnknownBefore =>
    exact Option.some.inj stepped ▸ sameTable ⟨fun _ => rfl, rfl, rfl⟩
  | holdHead | releaseHead => exact Option.some.inj stepped ▸ sameTable ⟨fun _ => rfl, rfl, rfl⟩
  | chooseHead => exact inv.chooseHead stepped
  | takeSnapshot => exact inv.takeSnapshot stepped
  | saveCheckpoint => exact inv.saveCheckpoint own stepped
  | checkpointFails => exact inv.checkpointFails stepped
  | abandonCheckpoint =>
    cases stepped
    exact { inv with headChosen := by simp, snapshotTaken := by simp }
  | crash lost nextLsn retentionCount retentionSeconds outcomeBytes loadClock
      replayClock =>
      have guard : 0 < nextLsn ∧
          (∀ record ∈ system.log.filter (fun record => record.lsn ∉ lost), record.lsn < nextLsn) ∧
          (∀ checkpoint ∈ system.saved, checkpoint.headLsn ≤ nextLsn) := by
        by_contra refused
        rw [operationStep, if_neg refused] at stepped
        contradiction
      have above : ∀ record ∈ system.log, record.lsn ∉ lost → record.lsn < nextLsn :=
        fun record inLog kept => guard.2.1 record (by simp [inLog, kept])
      obtain ⟨after, isAfter, _, _, afterInv⟩ := inv.crash guard.1 above guard.2.2
      rw [stepped] at isAfter
      exact Option.some.inj isAfter ▸ afterInv

end Invariant

theorem operationInvariant_initial (retentionCount retentionSeconds outcomeBytes : Nat) :
    OperationInvariant (.initial retentionCount retentionSeconds outcomeBytes) where
  bookkeeping := tableInvariant_fresh (Nat.min_le_right ..)
  requests := by simp [initial]
  distinct := List.Pairwise.nil
  positive := Nat.one_pos
  lsns := by simp [initial]
  results := by simp [initial]
  keys := List.Pairwise.nil
  settled := by simp [initial]
  headChosen := by simp [initial]
  snapshotTaken := by simp [initial]
  saved := by simp [initial]
  completed := by simp [initial]

/-- The states of a store that runs, checkpoints and crashes, and whose checkpoints are saved
under the heads their snapshots are for. -/
abbrev OperationReaches
    (retentionCount retentionSeconds outcomeBytes : Nat) : OperationSystem → Prop :=
  EventRuns.Reaches operationStep (fun system event => system.savesItsHead event = true)
    (.initial retentionCount retentionSeconds outcomeBytes)

/-- The invariant holds in every run. -/
theorem OperationReaches.invariant
    {retentionCount retentionSeconds outcomeBytes : Nat} {system : OperationSystem}
    (reached : OperationReaches retentionCount retentionSeconds outcomeBytes system) :
    OperationInvariant system :=
  EventRuns.Reaches.invariant
    (operationInvariant_initial retentionCount retentionSeconds outcomeBytes)
    (fun _ _ _ inv own stepped => inv.step own stepped) reached

/-- Keyed operations take effect at most once, in every run.  A crash is recovered from,
and no request runs after it.  A retry of an operation whose record is left in the log
is answered with the recorded outcome or refused as expired, or is refused as in flight
while the request that logged it runs.  An operation that has completed since the server
started is not new. -/
theorem operations_at_most_once
    {retentionCount retentionSeconds outcomeBytes : Nat} {system : OperationSystem}
    (reached : OperationReaches retentionCount retentionSeconds outcomeBytes system) :
    (∀ lost nextLsn count seconds bytes loadClock replayClock, 0 < nextLsn →
      (∀ record ∈ system.log, record.lsn ∉ lost → record.lsn < nextLsn) →
      (∀ checkpoint ∈ system.saved, checkpoint.headLsn ≤ nextLsn) →
      ∃ next, operationStep system
          (.crash lost nextLsn count seconds bytes loadClock replayClock) = some next ∧
        next.requests = [] ∧
        next.log = system.log.filter fun record => record.lsn ∉ lost) ∧
    (∀ record ∈ system.log, ∀ now,
      let answer := (system.table.reserve record.povId record.opId.val record.hash now).2
      (∃ outcome, record.Recorded outcome ∧ answer = .known outcome) ∨ answer = .refused .expired ∨
        (answer = .refused .inFlight ∧
          ∃ request ∈ system.requests, request.phase = .logged record)) ∧
    (∀ key ∈ system.completed, ∀ hash now,
      (system.table.reserve key.povId key.opId.val hash now).2 ≠ .isNew) := by
  have inv := reached.invariant
  refine ⟨?_, ?_, ?_⟩
  · intro lost nextLsn count seconds bytes loadClock replayClock positive above heads
    obtain ⟨next, stepped, noRequests, log, _⟩ := inv.crash positive above heads
    exact ⟨next, stepped, noRequests, log⟩
  · intro record inLog now
    rcases inv.settled record inLog with settled | ⟨request, running, isLogged⟩
    · rcases settled.reserve record.hash now with
        ⟨outcome, recorded, _, isKnown⟩ | ⟨outcome, recorded, differs, _⟩ | isExpired
      · exact .inl ⟨outcome, recorded, isKnown⟩
      · rcases recorded with rfl | rfl <;> exact absurd rfl differs
      · exact .inr (.inl isExpired)
    · obtain ⟨slot, isSlot⟩ := inv.requests request running
      obtain ⟨_, _, _, ⟨samePov, sameOp⟩, sameHash⟩ := isSlot.logged record isLogged
      have found := isSlot.found
      rw [samePov, sameOp] at found
      have answer := reserve_inFlight now found isSlot.notDone
      rw [isSlot.hash, sameHash] at answer
      exact .inr (.inr ⟨answer, request, running, isLogged⟩)
  · intro key isCompleted hash now isNew
    rcases (inv.completed key isCompleted).reserve hash now with
      ⟨_, _, _, isKnown⟩ | ⟨_, _, _, isReused⟩ | isExpired
    · simp [isKnown] at isNew
    · simp [isReused] at isNew
    · simp [isExpired] at isNew

/-- A point of view and two operation ids, the second a millisecond after the first. -/
def samplePov : Uuid := ⟨[1, 2, 3, 4, 5, 6, 7, 8, 9, 10, 11, 12, 13, 14, 15, 16], rfl⟩

def olderOperation : OperationId :=
  ⟨⟨[0, 0, 0, 0, 1, 0, 112, 0, 0, 0, 0, 0, 0, 0, 0, 1], rfl⟩, by decide⟩

def newerOperation : OperationId :=
  ⟨⟨[0, 0, 0, 0, 1, 1, 112, 0, 0, 0, 0, 0, 0, 0, 0, 2], rfl⟩, by decide⟩

/-- The items of the snapshot below, oldest first. -/
def sampleItems : List SnapshotItem :=
  [itemOf samplePov olderOperation { sequenceNumber := 7, result := some [1], hash := 10 },
    itemOf samplePov newerOperation { sequenceNumber := 8, result := some [2], hash := 20 }]

/-- Two operations commit, a checkpoint has room for one of them, and the server
crashes. -/
def sampleRun : List OperationEvent :=
  [.reserve samplePov olderOperation 10 true 300, .reserve samplePov newerOperation 20 true 300,
    .beginCommit samplePov olderOperation 1 [1],
    .append samplePov olderOperation 7,
    .beginCommit samplePov newerOperation 2 [2],
    .append samplePov newerOperation 8,
    .complete samplePov olderOperation 300,
    .complete samplePov newerOperation 300,
    .chooseHead 3,
    .takeSnapshot 90 sampleItems,
    .saveCheckpoint,
    .crash [] 3 4096 3600 256 (fun _ _ => 300) (fun _ _ => 300)]

/-- After the run the older operation is refused and the newer one answered, and neither
is new. -/
theorem operations_at_most_once_sampleRun : ∃ system, OperationReaches 4096 3600 256 system ∧
      system.log.map KeyedRecord.opId = [olderOperation, newerOperation] ∧
      (system.table.reserve samplePov olderOperation.val 10 300).2 = .refused .expired ∧
      (system.table.reserve samplePov newerOperation.val 20 300).2 = .known
          { sequenceNumber := 8, lsn := 0, persistent := true, result := some [2],
            hash := 20 } ∧
      ∀ record ∈ system.log, ∀ now,
        (system.table.reserve record.povId record.opId.val record.hash now).2 ≠ .isNew := by
  have checked :
      (EventRuns.run operationStep (fun system event => system.savesItsHead event)
        (.initial 4096 3600 256) sampleRun).any (fun system =>
          decide (system.log.map KeyedRecord.opId = [olderOperation, newerOperation] ∧
            (system.table.reserve samplePov olderOperation.val 10 300).2 = .refused .expired ∧
            (system.table.reserve samplePov newerOperation.val 20 300).2 = .known
                { sequenceNumber := 8, lsn := 0, persistent := true, result := some [2],
                  hash := 20 })) = true := by
    decide +kernel
  obtain ⟨system, ran, answers⟩ := Option.any_eq_true _ _ |>.mp checked
  obtain ⟨log, older, newer⟩ := of_decide_eq_true answers
  have reached := EventRuns.reaches_of_run ran
  refine ⟨system, reached, log, older, newer, fun record inLog now isNew => ?_⟩
  rcases (operations_at_most_once reached).2.1 record inLog now with
    ⟨_, _, isKnown⟩ | isExpired | ⟨isInFlight, _⟩
  · simp [isKnown] at isNew
  · simp [isExpired] at isNew
  · simp [isInFlight] at isNew

/-- No run logs an operation twice, whatever is retried, lost or restored, and no two requests
run for one operation. -/
theorem operations_logged_once
    {retentionCount retentionSeconds outcomeBytes : Nat} {system : OperationSystem}
    (reached : OperationReaches retentionCount retentionSeconds outcomeBytes system) :
    (system.log.Pairwise fun left right =>
      ¬ (left.povId = right.povId ∧ left.opId = right.opId)) ∧
    system.requests.Pairwise fun left right => ¬ left.Names right.povId right.opId :=
  ⟨reached.invariant.keys, reached.invariant.distinct⟩

/-- Both operations of the sample are logged once. -/
theorem operations_logged_once_sampleRun :
    ∃ system, OperationReaches 4096 3600 256 system ∧ system.log.length = 2 ∧
      system.log.Pairwise fun left right =>
        ¬ (left.povId = right.povId ∧ left.opId = right.opId) := by
  have checked : (EventRuns.run operationStep (fun system event => system.savesItsHead event)
      (.initial 4096 3600 256) sampleRun).any (·.log.length = 2) = true := by
    decide +kernel
  obtain ⟨system, ran, two⟩ := (Option.any_eq_true _ _).mp checked
  have reached := EventRuns.reaches_of_run ran
  exact ⟨system, reached, of_decide_eq_true two, (operations_logged_once reached).1⟩

end Orly
