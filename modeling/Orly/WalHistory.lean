import Orly.GrownLists
import Orly.WalSystemSteps

namespace Orly

/-!
# The history of the log

What holds in every run of the log on its device: the groups follow each other
around the ring, with their numbers, chain and records in order; a sync covers the
groups it is said to cover; and a checkpoint names a head that recovery can start
from.
-/

open GrownLists List

/-- A place where a group may follow, and what its chain is to be. -/
structure RingPoint where
  lap : Nat
  offset : Nat
  chain : Nat

/-- The place in ring order. -/
def RingPoint.position (point : RingPoint) : Nat ×ₗ Nat :=
  toLex (point.lap, point.offset)

namespace Group

/-- The start of the group in ring order. -/
def position (group : Group) : Nat ×ₗ Nat :=
  toLex (group.header.lap, group.offset)

/-- Where the group ends. -/
def ringEnd (group : Group) : RingPoint where
  lap := group.header.lap
  offset := group.offset + group.size
  chain := group.header.headerChecksum

end Group

/-- Where the next group may follow after these, from the start of a new store. -/
def ringEndOf (groups : List Group) : RingPoint :=
  (groups.getLast?.map Group.ringEnd).getD { lap := 1, offset := 0, chain := 0 }

@[simp]
theorem ringEndOf_concat (groups : List Group) (group : Group) :
    ringEndOf (groups ++ [group]) = group.ringEnd := by
  simp [ringEndOf]

/-- The records of some groups. -/
def recordsOf (groups : List Group) : List WalRecord :=
  groups.flatMap Group.records

@[simp]
theorem recordsOf_append (first second : List Group) :
    recordsOf (first ++ second) = recordsOf first ++ recordsOf second :=
  flatMap_append

@[simp]
theorem recordsOf_singleton (group : Group) : recordsOf [group] = group.records := append_nil _

theorem recordsOf_length_le (first second : List Group) :
    (recordsOf first).length ≤ (recordsOf (first ++ second)).length := by
  rw [recordsOf_append, length_append]
  exact Nat.le_add_right _ _

/-- Records have their LSNs in the order in which they were appended. -/
def InLsnOrder (records : List WalRecord) : Prop :=
  Grown (fun before record => record.lsn = before.length + 1) records

namespace InLsnOrder

variable {first batch rest : List WalRecord} {record : WalRecord}

theorem lsn_le (order : InLsnOrder (first ++ rest)) (mem : record ∈ first) :
    record.lsn ≤ first.length := by
  obtain ⟨before, after, rfl⟩ := append_of_mem mem
  rw [order.left before record after rfl]
  simp

theorem lt_lsn (order : InLsnOrder (first ++ rest)) (mem : record ∈ rest) :
    first.length < record.lsn := by
  obtain ⟨before, after, rfl⟩ := append_of_mem mem
  rw [order (first ++ before) record after (append_assoc first before _).symm, length_append]
  omega

theorem pairwise_lt {records : List WalRecord} (order : InLsnOrder records) :
    records.Pairwise fun first second => first.lsn < second.lsn := by
  induction records using List.reverseRecOn with
  | nil => exact List.Pairwise.nil
  | append_singleton records last ih =>
    refine pairwise_append.mpr ⟨ih order.left, pairwise_singleton _ _, ?_⟩
    intro record mem other otherLast
    rw [mem_singleton.mp otherLast]
    exact lt_of_le_of_lt (order.lsn_le mem) (order.lt_lsn (mem_singleton_self last))

/-- The first LSN of a batch follows the records before it. -/
theorem firstLsn (order : InLsnOrder (first ++ batch ++ rest)) (nonempty : batch ≠ []) :
    (batch.head?.map WalRecord.lsn).getD 0 = first.length + 1 := by
  obtain ⟨record, batch, rfl⟩ := exists_cons_of_ne_nil nonempty
  exact order.left first record batch rfl

/-- The last LSN of a batch counts the records up to it. -/
theorem lastLsn (order : InLsnOrder (first ++ batch ++ rest)) (nonempty : batch ≠ [])
    (other : Nat) :
    (batch.getLast?.map WalRecord.lsn).getD other = (first ++ batch).length := by
  obtain ⟨batch, record, rfl⟩ := eq_nil_or_concat' batch |>.resolve_left nonempty
  have lsn := order.left (first ++ batch) record [] (by simp)
  simp only [getLast?_append, getLast?_singleton, Option.some_or, Option.map_some,
    Option.getD_some, lsn, length_append, length_singleton]
  omega

end InLsnOrder

/-- How a group that is placed follows those before it. -/
structure Follows (config : WalConfig) (sums : Checksums) (before : List Group)
    (group : Group) : Prop where
  version : group.header.formatVersion = walFormatVersion
  flags : group.header.flags < 2 ^ 16
  storeId : group.header.storeId = config.storeId
  groupNum : group.header.groupNum = before.length + 1
  recordCount : group.header.recordCount = group.records.length
  payloadLen : group.header.payloadLen = payloadBytes group.records
  chain : group.header.chain = (ringEndOf before).chain
  payloadChecksum : group.header.payloadChecksum =
      if 0 < payloadBytes group.records then (sums.checksum64 (group.payload sums)).toNat
      else 0
  headerChecksum : group.header.headerChecksum = (sums.checksum64 group.header.coveredBytes).toNat
  firstLsn : group.records ≠ [] → group.header.firstLsn = (recordsOf before).length + 1
  lastLsn : group.records ≠ [] → group.lastLsn = (recordsOf (before ++ [group])).length
  position :
    if config.capacityBytes < (ringEndOf before).offset + group.size then
      group.header.lap = (ringEndOf before).lap + 1 ∧ group.offset = 0
    else
      group.header.lap = (ringEndOf before).lap ∧ group.offset = (ringEndOf before).offset
  inside : group.offset + group.size ≤ config.capacityBytes
  aligned : group.offset % walAlignment = 0

namespace Group

variable (group : Group)

theorem size_aligned : group.size % walAlignment = 0 := alignToWal_mod _

theorem walAlignment_le_size : walAlignment ≤ group.size := walAlignment_le_groupBytesOf _

theorem position_lt_ringEnd : group.position < group.ringEnd.position := by
  have size : 0 < group.size := lt_of_lt_of_le (by decide) group.walAlignment_le_size
  exact Prod.Lex.toLex_lt_toLex.mpr (Or.inr ⟨rfl, Nat.lt_add_of_pos_right size⟩)

end Group

section Placed

variable {config : WalConfig} {sums : Checksums} {before groups more : List Group} {group : Group}

theorem Follows.ringEndOf_le (follows : Follows config sums before group) :
    (ringEndOf before).position ≤ group.position := by
  have position := follows.position
  simp only [RingPoint.position, Group.position, Prod.Lex.toLex_le_toLex]
  split at position <;> omega

/-- The next place for a group is on a page and in the ring. -/
theorem ringEndOf_mem_ring (grown : Grown (Follows config sums) groups) :
    (ringEndOf groups).offset % walAlignment = 0 ∧
      (ringEndOf groups).offset ≤ config.capacityBytes := by
  rcases eq_nil_or_concat' groups with rfl | ⟨groups, group, rfl⟩
  · exact ⟨rfl, Nat.zero_le _⟩
  · rw [ringEndOf_concat]
    refine ⟨?_, grown.last.inside⟩
    have offset := grown.last.aligned
    have size := group.size_aligned
    simp only [Group.ringEnd, walAlignment] at *
    omega

/-- Every group ends at or before the next place for one. -/
theorem ringEnd_le_ringEndOf (grown : Grown (Follows config sums) groups) (mem : group ∈ groups) :
    group.ringEnd.position ≤ (ringEndOf groups).position := by
  induction groups using List.reverseRecOn with
  | nil => contradiction
  | append_singleton groups last ih =>
    rw [ringEndOf_concat]
    rcases mem_append.mp mem with earlier | here
    · calc
        group.ringEnd.position ≤ (ringEndOf groups).position := ih grown.left earlier
        _ ≤ last.position := grown.last.ringEndOf_le
        _ ≤ last.ringEnd.position := last.position_lt_ringEnd.le
    · rw [mem_singleton.mp here]

/-- Of two groups, the first ends at or before the start of the second. -/
theorem ringEnd_le_position
    (grown : Grown (Follows config sums) (before ++ group :: more)) {earlier : Group}
    (mem : earlier ∈ before) :
    earlier.ringEnd.position ≤ group.position :=
  (ringEnd_le_ringEndOf grown.left mem).trans (grown before group more rfl).ringEndOf_le

/-- Once these groups are synced, so are their records. -/
theorem syncedThrough_inFlight (grown : Grown (Follows config sums) (before ++ more)) :
    WalState.syncedThrough (recordsOf before).length (more.map Group.inFlight) =
      (recordsOf (before ++ more)).length := by
  induction more generalizing before with
  | nil => simp [WalState.syncedThrough]
  | cons group more ih =>
    have regrouped : before ++ group :: more = (before ++ [group]) ++ more := by simp
    have rest := ih (regrouped ▸ grown)
    rw [regrouped, ← rest]
    have one : (if group.isSealOnly then (recordsOf before).length
        else max (recordsOf before).length group.lastLsn) =
        (recordsOf (before ++ [group])).length := by
      by_cases sealOnly : group.records = []
      · simp [Group.isSealOnly, sealOnly]
      · have last := (grown before group more rfl).lastLsn sealOnly
        have le := recordsOf_length_le before [group]
        rw [if_neg (by simpa [Group.isSealOnly] using sealOnly), last, max_eq_right le]
    rw [← one]
    rfl

theorem sealedThrough_inFlight_le {sealed bound : Nat} (sealedLe : sealed ≤ bound)
    (each : ∀ group ∈ more, group.header.sealedThrough ≤ bound) :
    WalState.sealedThrough sealed (more.map Group.inFlight) ≤ bound := by
  induction more generalizing sealed with
  | nil => exact sealedLe
  | cons group more ih =>
    exact ih (max_le sealedLe (each group mem_cons_self))
      fun other mem => each other (mem_cons_of_mem _ mem)

end Placed

/-- The write position is the end of the groups that are placed. -/
structure WritesAt (nextGroupNum : Nat) (cursor : RingCursor) (checksum : Nat)
    (placed : List Group) : Prop where
  groupNum : nextGroupNum = placed.length
  lap : cursor.currentLap = (ringEndOf placed).lap
  offset : cursor.currentRingOffset = (ringEndOf placed).offset
  chain : checksum = (ringEndOf placed).chain

theorem RingCursor.wrapFor_cases (config : WalConfig) (cursor : RingCursor) (groupSize : Nat) :
    if config.capacityBytes < cursor.currentRingOffset + groupSize then
      (cursor.wrapFor config groupSize).currentLap = cursor.currentLap + 1 ∧
        (cursor.wrapFor config groupSize).currentRingOffset = 0
    else
      (cursor.wrapFor config groupSize).currentLap = cursor.currentLap ∧
        (cursor.wrapFor config groupSize).currentRingOffset = cursor.currentRingOffset := by
  rw [wrapFor]
  split <;> exact ⟨rfl, rfl⟩

section Placing

variable {config : WalConfig} {sums : Checksums} {wal : WalState} {placed : List Group}
  {batch rest : List WalRecord}

/-- The group the leader places follows those that are placed. -/
theorem follows_nextGroup (grown : Grown (Follows config sums) placed)
    (writesAt : WritesAt wal.nextGroupNum wal.cursor wal.previousGroupChecksum placed)
    (positioned : wal.cursor.Positioned config)
    (fit : wal.cursor.fits config (groupBytesOf (payloadBytes batch)) = true)
    (order : InLsnOrder (recordsOf placed ++ batch ++ rest)) :
    Follows config sums placed (wal.nextGroup config sums batch) where
  version := rfl
  flags := by
    simp only [WalState.nextGroup, WalState.groupHeader]
    split <;> decide
  storeId := rfl
  groupNum := congrArg (· + 1) writesAt.groupNum
  recordCount := rfl
  payloadLen := rfl
  chain := writesAt.chain
  payloadChecksum := rfl
  headerChecksum := rfl
  firstLsn := fun nonempty => order.firstLsn nonempty
  lastLsn := fun nonempty => by
    rw [recordsOf_append, recordsOf_singleton]
    exact order.lastLsn nonempty _
  position := by
    rw [← writesAt.lap, ← writesAt.offset]
    exact RingCursor.wrapFor_cases config wal.cursor (groupBytesOf (payloadBytes batch))
  inside := by
    have inside := (RingCursor.positioned_place positioned fit).currentInside
    exact inside
  aligned := by
    have wrapped := RingCursor.wrapFor_cases config wal.cursor (groupBytesOf (payloadBytes batch))
    have offset : (wal.nextGroup config sums batch).offset =
      (wal.cursor.wrapFor config (groupBytesOf (payloadBytes batch))).currentRingOffset := rfl
    split at wrapped
    · rw [offset, wrapped.2]
      rfl
    · rw [offset, wrapped.2, writesAt.offset]
      exact (ringEndOf_mem_ring grown).1

/-- The next group follows the one that was placed. -/
theorem WritesAt.place
    (writesAt : WritesAt wal.nextGroupNum wal.cursor wal.previousGroupChecksum placed) :
    WritesAt (wal.nextGroupNum + 1) (wal.cursor.place config (groupBytesOf (payloadBytes batch)))
      (wal.nextGroup config sums batch).header.headerChecksum
      (placed ++ [wal.nextGroup config sums batch]) where
  groupNum := by
    rw [length_append, writesAt.groupNum]
    rfl
  lap := by
    rw [ringEndOf_concat]
    rfl
  offset := by
    rw [ringEndOf_concat]
    rfl
  chain := by
    rw [ringEndOf_concat]
    rfl

end Placing

/-- The groups and records of a run, and where the log is with them. -/
structure LogHistory (config : WalConfig) (sums : Checksums) (system : WalSystem) : Prop where
  ordered : InLsnOrder system.appended
  counted : system.wal.nextLsn = system.appended.length
  grown : Grown (Follows config sums) system.placed
  writesAt : WritesAt system.wal.nextGroupNum system.wal.cursor system.wal.previousGroupChecksum
      system.placed
  sealed : ∀ group ∈ system.placed, group.header.sealedThrough ≤ system.wal.highestSyncedLsn
  placedFirst : recordsOf system.placed <+: system.appended
  /-- As long as the leader runs, every other record waits for it. -/
  queued : system.wal.leader ≠ .stopped → system.appended =
        recordsOf system.placed ++ (system.wal.leader.taken ++ system.wal.pendingRecords)

namespace LogHistory

variable {config : WalConfig} {sums : Checksums} {disk : DeviceImage} {system next : WalSystem}

/-- Every step keeps the history in order, if it lets no LSN become unsynced. -/
theorem step (history : LogHistory config sums system) (ordered : system.wal.InRingOrder config)
    (synced : system.wal.highestSyncedLsn ≤ next.wal.highestSyncedLsn)
    (stepped : SystemStep config sums disk system next) :
    LogHistory config sums next := by
  cases stepped with
  | accounts | syncBegins | syncerStops | captures | checkpointTooLong | checkpointBegins
  | checkpointWritten | checkpointFails => exact { history with }
  | appends ledger promotions reservations record lsn =>
    exact { history with
      ordered := history.ordered.concat (by rw [lsn, history.counted])
      counted := by simp [history.counted]
      placedFirst := history.placedFirst.trans (List.prefix_append _ _)
      queued := fun running => by
        rw [history.queued running]
        simp }
  | leaderMoves leader failed notWriting stillFailed idle =>
    refine { history with queued := fun running => ?_ }
    obtain ⟨-, nothing, nothingBefore, ran⟩ := idle.resolve_left running
    rw [history.queued ran, nothingBefore, nothing]
  | leaderTakes batch left ready split =>
    refine { history with queued := fun _ => ?_ }
    rw [history.queued (by simp [ready]), ready, split]
    rfl
  | places batch left notWriting running split fit =>
    have queued := history.queued running
    rw [split, ← append_assoc] at queued
    have records : recordsOf (system.placed ++ [system.wal.nextGroup config sums batch]) =
        recordsOf system.placed ++ batch := by
      rw [recordsOf_append, recordsOf_singleton]
      rfl
    have follows :=
      follows_nextGroup history.grown history.writesAt ordered.order.positioned fit
        (queued ▸ history.ordered)
    exact { history with
      grown := history.grown.concat follows
      writesAt := history.writesAt.place
      sealed := by
        intro group mem
        rcases mem_append.mp mem with earlier | new
        · exact history.sealed group earlier
        · rw [mem_singleton.mp new]
          exact le_refl system.wal.highestSyncedLsn
      placedFirst := by
        rw [records, queued]
        exact List.prefix_append _ _
      queued := fun _ => by
        rw [records, queued]
        rfl }
  | groupWritten group leader writing notWriting nothingTaken =>
    refine { history with queued := fun _ => ?_ }
    rw [history.queued (by simp [writing]), writing, nothingTaken]
    rfl
  | groupFails group writing =>
    exact { history with queued := fun running => absurd rfl running }
  | syncEnds groups syncing =>
    rw [WalState.afterSync_eq] at *
    exact { history with
      sealed := fun group mem => (history.sealed group mem).trans synced }
  | checkpointLands =>
    obtain ⟨groupNum, lap, offset, chain⟩ := history.writesAt
    exact { history with writesAt := ⟨groupNum, lap, offset, chain⟩ }

end LogHistory

end Orly
