import Orly.WalSteps
import Orly.WalRingLaws

namespace Orly

/-!
# Order around the ring

In every run of the log, the checkpointed head, the head, the groups still needed
and the write position follow each other around the ring, at most a lap apart.
-/

open List

/-- The start of a group in ring order. -/
def GroupSummary.position (group : GroupSummary) : Nat ×ₗ Nat :=
  toLex (group.lap, group.offset)

/-- The start of the head in ring order. -/
def HeadMark.position (head : HeadMark) : Nat ×ₗ Nat :=
  toLex (head.lap, head.ringOffset)

/-- The groups still needed, oldest first, and then the write position. -/
def ringMarks (cursor : RingCursor) (active : List GroupSummary) : List (Nat ×ₗ Nat) :=
  active.map GroupSummary.position ++ [cursor.current]

/-- Checkpointed head, head, groups still needed and write position follow each other. -/
structure RingOrder (config : WalConfig) (cursor : RingCursor) (head : HeadMark)
    (active : List GroupSummary) : Prop where
  positioned : cursor.Positioned config
  headInside : head.ringOffset ≤ config.capacityBytes
  activeInside : ∀ group ∈ active, group.offset ≤ config.capacityBytes
  checkpointed : cursor.checkpointedHead ≤ head.position
  marks : (head.position :: ringMarks cursor active).Pairwise (· ≤ ·)

namespace RingOrder

variable {config : WalConfig} {cursor : RingCursor} {head : HeadMark} {active : List GroupSummary}

theorem head_le_current (order : RingOrder config cursor head active) :
    head.position ≤ cursor.current :=
  rel_of_pairwise_cons order.marks (by simp [ringMarks])

/-- A group that fits takes its place after every other. -/
theorem place (order : RingOrder config cursor head active) {group : GroupSummary} {groupSize : Nat}
    (fit : cursor.fits config groupSize = true)
    (positionEq : group.position = (cursor.wrapFor config groupSize).current)
    (offsetEq : group.offset = (cursor.wrapFor config groupSize).currentRingOffset) :
    RingOrder config (cursor.place config groupSize) head (active ++ [group]) where
  positioned := RingCursor.positioned_place order.positioned fit
  headInside := order.headInside
  activeInside := by
    intro other mem
    rcases mem_append.mp mem with earlier | new
    · exact order.activeInside other earlier
    · rw [mem_singleton.mp new, offsetEq, RingCursor.wrapFor]
      split
      · exact Nat.zero_le _
      · exact order.positioned.currentInside
  checkpointed := by
    rw [RingCursor.checkpointedHead_place]
    exact order.checkpointed
  marks := by
    have wrapped := RingCursor.current_le_wrapFor config cursor groupSize
    have placed := RingCursor.wrapFor_le_place config cursor groupSize
    have marks := order.marks
    rw [ringMarks, ← cons_append, pairwise_append] at marks
    obtain ⟨before, -, toCurrent⟩ := marks
    have beforeCurrent : ∀ mark ∈ head.position :: active.map GroupSummary.position,
        mark ≤ cursor.current :=
      fun mark mem => toCurrent mark mem _ (mem_singleton_self _)
    rw [ringMarks, map_append, map_singleton, positionEq, append_assoc,
      ← cons_append, pairwise_append]
    refine ⟨before, ?_, ?_⟩
    · simpa using placed
    · intro mark mem later laterMember
      have le := (beforeCurrent mark mem).trans wrapped
      rcases mem_cons.mp laterMember with rfl | last
      · exact le
      · rw [mem_singleton.mp last]
        exact le.trans placed

/-- A synced checkpoint of the head makes it the checkpointed one. -/
theorem land (order : RingOrder config cursor head active) :
    RingOrder config (cursor.landCheckpoint head.lap head.ringOffset) head active :=
  { order with
    positioned := RingCursor.positioned_landCheckpoint order.positioned order.checkpointed
      order.head_le_current order.headInside
    checkpointed := le_refl head.position }

end RingOrder

/-- A checkpoint that is being written names the head. -/
def CheckpointPhase.Names (head : HeadMark) : CheckpointPhase → Prop
  | .writing checkpoint => checkpoint.head = head
  | .syncing checkpoint => checkpoint.head = head
  | .idle => True
  | .captured .. => True

namespace WalState

theorem leaderTop_ne_writing (wal : WalState) (group : Group) : wal.leaderTop ≠ .writing group := by
  rw [leaderTop]
  split <;> exact LeaderPhase.noConfusion

theorem leaderTop_ne_waiting (wal : WalState) (batch : List WalRecord) :
    wal.leaderTop ≠ .waiting batch := by
  rw [leaderTop]
  split <;> exact LeaderPhase.noConfusion

/-- The head and the groups still needed are in ring order; a checkpoint names the head. -/
structure InRingOrder (config : WalConfig) (wal : WalState) : Prop where
  order : RingOrder config wal.cursor wal.head wal.activeGroups
  names : wal.checkpointer.Names wal.head

namespace InRingOrder

variable {config : WalConfig} {sums : Checksums} {wal after : WalState}

section

variable (ordered : wal.InRingOrder config)

include ordered

/-- A group that fits does not pass the head. -/
theorem placeGroup {batch : List WalRecord}
    (fit : wal.cursor.fits config (groupBytesOf (payloadBytes batch)) = true) :
    (wal.placeGroup config sums batch).InRingOrder config :=
  ⟨ordered.order.place fit rfl rfl, ordered.names⟩

theorem leaderTurn (turn : wal.leaderTurn config sums = some after) : after.InRingOrder config := by
  cases leaderTurn_some turn with
  | stops | waitsForSlot | resumes | givesUp => exact ⟨ordered.order, ordered.names⟩
  | @builds batch left =>
    have taken : { wal with pendingRecords := left }.InRingOrder config :=
      ⟨ordered.order, ordered.names⟩
    rw [buildGroup]
    split
    case isTrue fit => exact taken.placeGroup fit
    case isFalse => exact ⟨ordered.order, ordered.names⟩
  | placesLate _ fit => exact ordered.placeGroup fit

theorem leaderWrote {writeOk : Bool} (wrote : wal.leaderWrote config writeOk = some after) :
    after.InRingOrder config := by
  obtain ⟨group, -, ⟨-, rfl⟩ | ⟨-, rfl⟩⟩ := leaderWrote_some wrote
  · generalize (wal.afterWrite config group).leaderTop = top
    rw [afterWrite_eq]
    exact ⟨ordered.order, ordered.names⟩
  · exact ⟨ordered.order, ordered.names⟩

theorem syncerTurn (turn : wal.syncerTurn = some after) : after.InRingOrder config := by
  obtain ⟨-, ⟨-, rfl⟩ | ⟨-, rfl⟩⟩ := syncerTurn_some turn <;>
    exact ⟨ordered.order, ordered.names⟩

theorem syncerSynced {syncOk : Bool} (synced : wal.syncerSynced config syncOk = some after) :
    after.InRingOrder config := by
  obtain ⟨groups, -, ⟨-, rfl⟩ | ⟨-, rfl⟩⟩ := syncerSynced_some synced
  · rw [afterSync_eq]
    exact ⟨ordered.order, ordered.names⟩
  · exact ⟨ordered.order, ordered.names⟩

/-- The head a checkpoint names is a group still needed, or the write position. -/
theorem moveHead (headLsn : Nat) : RingOrder config wal.cursor (wal.moveHead headLsn).head
      (wal.moveHead headLsn).activeGroups := by
  have order := ordered.order
  have suffix : (wal.moveHead headLsn).activeGroups <:+ wal.activeGroups := List.dropWhile_suffix _
  have marksSuffix : ringMarks wal.cursor (wal.moveHead headLsn).activeGroups <:+
        ringMarks wal.cursor wal.activeGroups := by
    obtain ⟨earlier, split⟩ := suffix
    exact ⟨earlier.map GroupSummary.position, by simp [ringMarks, ← split]⟩
  have sorted : (ringMarks wal.cursor (wal.moveHead headLsn).activeGroups).Pairwise (· ≤ ·) :=
    order.marks.tail.sublist marksSuffix.sublist
  have forward : ∀ mark ∈ ringMarks wal.cursor (wal.moveHead headLsn).activeGroups,
      wal.head.position ≤ mark :=
    fun mark mem => rel_of_pairwise_cons order.marks (marksSuffix.mem mem)
  have activeInside : ∀ group ∈ (wal.moveHead headLsn).activeGroups,
      group.offset ≤ config.capacityBytes :=
    fun group mem => order.activeInside group (suffix.mem mem)
  obtain ⟨inside, rest, first⟩ : (wal.moveHead headLsn).head.ringOffset ≤ config.capacityBytes ∧
        ∃ rest, ringMarks wal.cursor (wal.moveHead headLsn).activeGroups =
          (wal.moveHead headLsn).head.position :: rest := by
    rcases wal.moveHead_cases headLsn with ⟨group, groups, kept, headEq⟩ | ⟨retired, headEq⟩
    · rw [kept, headEq]
      exact ⟨activeInside group (by simp [kept]), _, rfl⟩
    · rw [retired, headEq]
      exact ⟨order.positioned.currentInside, _, rfl⟩
  rw [first] at sorted forward
  refine ⟨order.positioned, inside, activeInside,
    order.checkpointed.trans (forward _ (mem_cons_self)), ?_⟩
  rw [first]
  exact pairwise_cons.mpr ⟨forall_mem_cons.mpr ⟨le_refl _, (pairwise_cons.mp sorted).1⟩, sorted⟩

theorem captureHead {headLsn globalFlushedSeq : Nat} {payload : List UInt8}
    (captured : (wal.captureHead headLsn globalFlushedSeq payload).map Prod.fst = some after) :
    after.InRingOrder config := by
  obtain ⟨-, rfl | ⟨-, rfl⟩⟩ := captureHead_some captured
  · exact ordered
  · exact ⟨ordered.moveHead headLsn, trivial⟩

theorem writeCheckpoint {newest : Option Nat}
    (wrote : (wal.writeCheckpoint config newest).map Prod.fst = some after) :
    after.InRingOrder config := by
  obtain ⟨_, _, _, -, rfl | ⟨-, rfl⟩⟩ := writeCheckpoint_some wrote
  · exact ⟨ordered.order, trivial⟩
  · exact ⟨ordered.order, rfl⟩

theorem checkpointWrote {writeOk : Bool}
    (wrote : (wal.checkpointWrote writeOk).map Prod.fst = some after) :
    after.InRingOrder config := by
  obtain ⟨checkpoint, writing, ⟨-, rfl⟩ | ⟨-, rfl⟩⟩ := checkpointWrote_some wrote
  · have names := ordered.names
    rw [writing] at names
    exact ⟨ordered.order, names⟩
  · exact ⟨ordered.order, trivial⟩

/-- A landed checkpoint moves the head forward. -/
theorem checkpointSynced {syncOk : Bool}
    (synced : (wal.checkpointSynced config syncOk).map Prod.fst = some after) :
    after.InRingOrder config := by
  obtain ⟨checkpoint, syncing, ⟨-, rfl⟩ | ⟨-, rfl⟩⟩ := checkpointSynced_some synced
  · have names := ordered.names
    rw [syncing] at names
    have headEq : checkpoint.head = wal.head := names
    rw [headEq]
    exact ⟨ordered.order.land, trivial⟩
  · exact ⟨ordered.order, trivial⟩

/-- Every step of the log keeps the ring in order. -/
theorem step {event : WalEvent} (stepped : walStep config sums wal event = some after) :
    after.InRingOrder config := by
  cases event with
  | reserve =>
    cases stepped
    refine orUnchanged_induction ordered fun next ok => ?_
    obtain ⟨-, rfl⟩ := reserve_ok ok
    exact ⟨ordered.order, ordered.names⟩
  | reserveGroup =>
    cases stepped
    refine orUnchanged_induction ordered fun next ok => ?_
    obtain ⟨-, rfl⟩ := reserveGroup_ok ok
    exact ⟨ordered.order, ordered.names⟩
  | release =>
    rw [walStep] at stepped
    split_ifs at stepped
    cases stepped
    exact ⟨ordered.order, ordered.names⟩
  | append =>
    cases stepped
    refine orUnchanged_induction ordered fun next ok => ?_
    obtain ⟨-, -, rfl⟩ := append_ok ok
    exact ⟨ordered.order, ordered.names⟩
  | appendReserved =>
    rw [walStep] at stepped
    split_ifs at stepped
    cases stepped
    refine orUnchanged_induction ordered fun next ok => ?_
    obtain ⟨-, rfl⟩ := appendReserved_ok ok
    exact ⟨ordered.order, ordered.names⟩
  | changePromotionDebt | setAutoSealOnQuiet | stop =>
    cases stepped
    exact ⟨ordered.order, ordered.names⟩
  | leaderTurn => exact ordered.leaderTurn stepped
  | leaderWrote => exact ordered.leaderWrote stepped
  | syncerTurn => exact ordered.syncerTurn stepped
  | syncerSynced => exact ordered.syncerSynced stepped
  | captureHead => exact ordered.captureHead stepped
  | writeCheckpoint => exact ordered.writeCheckpoint stepped
  | checkpointWrote => exact ordered.checkpointWrote stepped
  | checkpointSynced => exact ordered.checkpointSynced stepped

end

end InRingOrder

end WalState

/-- A new store's log starts in ring order. -/
theorem ringOrder_newStore (config : WalConfig) :
    RingOrder config (WalState.start config .newStore).cursor (WalState.start config .newStore).head
      (WalState.start config .newStore).activeGroups where
  positioned := ⟨Nat.zero_le _, Nat.zero_le _, Or.inl ⟨rfl, le_refl 0⟩⟩
  headInside := Nat.zero_le _
  activeInside := fun _ mem => absurd mem (not_mem_nil)
  checkpointed := le_refl _
  marks := by
    refine pairwise_cons.mpr ⟨?_, pairwise_singleton _ _⟩
    intro mark mem
    rw [mem_singleton.mp mem]
    exact le_refl _

end Orly
