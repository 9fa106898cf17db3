import Orly.SealedAhead
import Orly.WalHeads

namespace Orly

/-!
# What a crash leaves of the log

The groups that a completed sync covers and that recovery starts at or before are
whole on every image that a crash may leave; every other ring page is one of some
group, or as it was in the new store; and the newest checkpoint on the image is the
last that landed, or the one that was being written.
-/

open CrashDisk GrownLists List

/-- The slot of a checkpoint. -/
def DeviceImage.slot (image : DeviceImage) (checkpointNum : Nat) : RingImage :=
  fun page => some (image (slotAddress checkpointNum page))

/-- What is read of the payload of a group has its checksum only if it is the payload. -/
def Group.SoundOn (sums : Checksums) (group : Group) (ring : RingImage) : Prop :=
  ∀ bytes ∈ readPages ring (group.offset / walAlignment) group.pages,
    sums.checksum64 ((bytes.drop groupHeaderBytes).take (payloadBytes group.records)) =
        sums.checksum64 (group.payload sums) →
      (bytes.drop groupHeaderBytes).take (payloadBytes group.records) = group.payload sums

instance (sums : Checksums) (group : Group) (ring : RingImage) :
    Decidable (group.SoundOn sums ring) :=
  inferInstanceAs (Decidable
    (∀ bytes ∈ readPages ring (group.offset / walAlignment) group.pages, _ → _))

namespace WalSystem

/-- Every checkpoint that was begun, oldest first. -/
def begun (system : WalSystem) : List Checkpoint :=
  checkpointsOf system.writes ++ system.writingCheckpoint.toList

/-- Different contents have different checksums where they may be taken for each other. -/
@[mk_iff]
structure NoCollision (sums : Checksums) (system : WalSystem) (image : DeviceImage) : Prop where
  groups : ∀ group ∈ system.placed, group.SoundOn sums image.ring
  checkpoints : ∀ checkpoint ∈ system.begun,
      checkpoint.SlotSound sums (image.slot checkpoint.checkpointNum)

/--
No page of a group but its first begins with the magic of a group, and every number
that was written fits its field, with room for the next.
-/
@[mk_iff]
structure Ordinary (sums : Checksums) (system : WalSystem) : Prop where
  magic : ∀ group ∈ system.placed, ∀ index < group.pages, 0 < index →
      (pageAt (group.bytes sums) index).hasMagic = false
  headers : ∀ group ∈ system.placed, group.header.InRange
  records : ∀ group ∈ system.placed, ∀ record ∈ group.records, record.InRange
  laps : ∀ group ∈ system.placed, group.header.lap + 1 < 2 ^ 32
  groupNums : ∀ group ∈ system.placed, group.header.groupNum + 1 < 2 ^ 64
  lsns : system.wal.nextLsn + 1 < 2 ^ 64
  checkpoints : ∀ checkpoint ∈ system.begun, checkpoint.InRange

instance (sums : Checksums) (system : WalSystem) (image : DeviceImage) :
    Decidable (system.NoCollision sums image) :=
  decidable_of_iff' _ (noCollision_iff sums system image)

instance (sums : Checksums) (system : WalSystem) : Decidable (system.Ordinary sums) :=
  decidable_of_iff' _ (ordinary_iff sums system)

end WalSystem

section Ring

variable {config : WalConfig} {sums : Checksums} {disk image : DeviceImage} {system : WalSystem}
  {synced flying : List Group}

theorem pagesOf_append (first second : List WalWrite) :
    WalSystem.pagesOf config sums (first ++ second) =
      WalSystem.pagesOf config sums first ++ WalSystem.pagesOf config sums second :=
  flatMap_append

/-- The groups of all writes are those that are placed. -/
theorem SyncProgress.groupsOf_all (progress : SyncProgress system synced flying) :
    groupsOf (system.writes.take system.covered ++
      (system.writes.drop system.covered ++ system.unfinished)) = system.placed := by
  rw [← append_assoc, take_append_drop, groupsOf_append, progress.written,
    WalSystem.unfinished, groupsOf_append, groupsOf_map_group, groupsOf_map_checkpoint,
    append_nil, progress.placed]

/-- A ring page is as it was in the new store, or one of a group. -/
theorem ring_cases
    (progress : SyncProgress system synced flying) (crash : system.Crashes config sums disk image)
    (index : Nat) :
    image (.ring index) = disk (.ring index) ∨ ∃ group ∈ system.placed, ∃ offset < group.pages,
        index = group.offset / walAlignment + offset ∧
          image (.ring index) = pageAt (group.bytes sums) offset := by
  rcases crash.cases (.ring index) with untouched | written
  · exact Or.inl untouched
  · right
    rw [← pagesOf_append, mem_pagesOf_ring, progress.groupsOf_all] at written
    exact written

variable {group : Group} {offset : Nat} {before after : List Group}

/-- Every group ends within a lap of the checkpointed head. -/
theorem ringEnd_le_lap
    (history : LogHistory config sums system) (ordered : system.wal.InRingOrder config)
    (mem : group ∈ system.placed) :
    group.ringEnd.position ≤
      toLex (system.wal.cursor.checkpointedHeadLap + 1,
        system.wal.cursor.checkpointedHeadRingOffset) := by
  refine (ringEnd_le_ringEndOf history.grown mem).trans ?_
  have positioned := ordered.order.positioned.ordered
  rw [history.writesAt.lap, history.writesAt.offset] at positioned
  rw [RingPoint.position, Prod.Lex.toLex_le_toLex]
  omega

/-- A page of a group, as a range of bytes. -/
theorem page_mem_group (aligned : group.offset % walAlignment = 0) (lt : offset < group.pages) :
    group.offset ≤ (group.offset / walAlignment + offset) * walAlignment ∧
      (group.offset / walAlignment + offset) * walAlignment < group.offset + group.size := by
  have size := group.size_eq
  have positive : 0 < walAlignment := by decide
  have start : group.offset / walAlignment * walAlignment = group.offset :=
    Nat.div_mul_cancel (Nat.dvd_of_mod_eq_zero aligned)
  have step : offset * walAlignment < group.pages * walAlignment :=
    Nat.mul_lt_mul_of_pos_right lt positive
  rw [Nat.add_mul, start]
  omega

/-- A group that covers a page at or after a point no older than the head is of its lap at most. -/
theorem lap_le_of_covers
    (history : LogHistory config sums system) (ordered : system.wal.InRingOrder config)
    (mem : group ∈ system.placed) {lap byte : Nat}
    (headLe : system.wal.cursor.checkpointedHead ≤ toLex (lap, offset))
    (atOrAfter : offset ≤ byte) (covers : byte < group.offset + group.size) :
    group.header.lap ≤ lap := by
  have ends := ringEnd_le_lap history ordered mem
  rw [RingPoint.position, Prod.Lex.toLex_le_toLex] at ends
  rw [RingCursor.checkpointedHead, Prod.Lex.toLex_le_toLex] at headLe
  simp only [Group.ringEnd] at *
  omega

/-- Where a group is among some writes. -/
theorem split_at_group
    {writes : List WalWrite} (split : groupsOf writes = before ++ group :: after) :
    ∃ earlier later, writes = earlier ++ .group group :: later ∧ groupsOf later = after := by
  obtain ⟨first, rest, rfl, -, restEq⟩ := filterMap_eq_append_iff.mp split
  obtain ⟨skipped, write, later, rfl, -, writeEq, laterEq⟩ := filterMap_eq_cons_iff.mp restEq
  cases write with
  | group written =>
    cases writeEq
    exact ⟨first ++ skipped, later, (append_assoc _ _ _).symm, laterEq⟩
  | checkpoint written => contradiction

/-- No later group takes a page of one that is no older than the head. -/
theorem page_ne_of_later
    (history : LogHistory config sums system) (ordered : system.wal.InRingOrder config)
    {other : Group} (split : system.placed = before ++ group :: after)
    (headLe : system.wal.cursor.checkpointedHead ≤ group.position) (later : other ∈ after)
    {otherOffset : Nat} (lt : offset < group.pages) (otherLt : otherOffset < other.pages) :
    group.offset / walAlignment + offset ≠ other.offset / walAlignment + otherOffset := by
  intro same
  obtain ⟨between, rest, rfl⟩ := append_of_mem later
  have grown := history.grown
  have regrouped : system.placed = (before ++ group :: between) ++ other :: rest := by
    rw [split, append_assoc, cons_append]
  have aligned := (grown _ _ _ split).aligned
  have otherAligned := (grown _ _ _ regrouped).aligned
  obtain ⟨low, high⟩ := page_mem_group aligned lt
  obtain ⟨otherLow, otherHigh⟩ := page_mem_group otherAligned otherLt
  rw [← same] at otherLow otherHigh
  have lapLe := lap_le_of_covers history ordered (by simp [regrouped]) headLe low otherHigh
  rw [regrouped] at grown
  have order : group.ringEnd.position ≤ other.position := ringEnd_le_position grown (by simp)
  rw [RingPoint.position, Group.position, Prod.Lex.toLex_le_toLex] at order
  simp only [Group.ringEnd] at order
  omega

/-- A group that is synced and no older than the head is whole on the image. -/
theorem ring_intact
    (progress : SyncProgress system synced flying) (history : LogHistory config sums system)
    (ordered : system.wal.InRingOrder config) (crash : system.Crashes config sums disk image)
    (split : synced = before ++ group :: after)
    (headLe : system.wal.cursor.checkpointedHead ≤ group.position) (lt : offset < group.pages) :
    image (.ring (group.offset / walAlignment + offset)) = pageAt (group.bytes sums) offset := by
  obtain ⟨rest, coveredEq⟩ := progress.covered
  rw [split, append_assoc, cons_append] at coveredEq
  obtain ⟨earlier, later, writesEq, laterEq⟩ := split_at_group coveredEq.symm
  have placed := progress.groupsOf_all
  rw [groupsOf_append, ← coveredEq, append_assoc, cons_append] at placed
  rw [WalSystem.Crashes, writesEq, pagesOf_append] at crash
  refine crash.survives ?_ ?_
  · exact ⟨(_, pageAt (group.bytes sums) offset),
      mem_pagesOf_ring.mpr ⟨group, mem_groupsOf.mpr mem_cons_self, offset, lt, rfl, rfl⟩,
      rfl⟩
  · rintro ⟨address, page⟩ mem rfl
    rw [← pagesOf_append, mem_pagesOf_ring] at mem
    obtain ⟨other, otherMember, otherOffset, otherLt, same, rfl⟩ := mem
    rw [cons_append, mem_groupsOf, mem_cons] at otherMember
    rcases otherMember with here | further
    · obtain rfl := WalWrite.group.inj here
      rw [Nat.add_left_cancel same]
    · rw [← mem_groupsOf, groupsOf_append, laterEq] at further
      exact absurd same (page_ne_of_later history ordered placed.symm headLe further lt otherLt)

end Ring

section Slots

variable {config : WalConfig} {sums : Checksums} {disk image : DeviceImage} {system : WalSystem}
  {landed pending : List Checkpoint}

theorem DeviceImage.slot_of_parity (image : DeviceImage) {first second : Nat}
    (parity : first % 2 = second % 2) :
    image.slot first = image.slot second := by
  funext page
  simp only [slot, slotAddress, parity]

variable {checkpoint : Checkpoint}

/-- Of the two slots, the one with the later checkpoint counts. -/
theorem newest_of_slot {checkpointNum : Nat}
    (here : readSlot config sums (image.slot checkpointNum) = some checkpoint) (there :
      ∀ other, readSlot config sums (image.slot (checkpointNum + 1)) = some other →
        other.checkpointNum < checkpoint.checkpointNum) :
    newestCheckpoint config sums image = some checkpoint := by
  rcases Nat.mod_two_eq_zero_or_one checkpointNum with even | odd
  · rw [image.slot_of_parity (show checkpointNum % 2 = 0 % 2 by omega)] at here
    rw [image.slot_of_parity (show (checkpointNum + 1) % 2 = 1 % 2 by omega)] at there
    have second : readSlot config sums image.slot1 = some checkpoint := here
    rw [newestCheckpoint, readNewestCheckpoint, second]
    cases first : readSlot config sums image.slot0 with
    | none => rfl
    | some other =>
      have lt := there other first
      simp only [if_neg (Nat.not_le.mpr lt)]
  · rw [image.slot_of_parity (show checkpointNum % 2 = 1 % 2 by omega)] at here
    rw [image.slot_of_parity (show (checkpointNum + 1) % 2 = 0 % 2 by omega)] at there
    have first : readSlot config sums image.slot0 = some checkpoint := here
    rw [newestCheckpoint, readNewestCheckpoint, first]
    cases second : readSlot config sums image.slot1 with
    | none => rfl
    | some other =>
      have lt := there other second
      simp only [if_pos lt.le]

theorem exists_slot_of_newest (found : newestCheckpoint config sums image = some checkpoint) :
    ∃ checkpointNum, readSlot config sums (image.slot checkpointNum) = some checkpoint := by
  have slot0 : image.slot0 = image.slot 1 := rfl
  have slot1 : image.slot1 = image.slot 0 := rfl
  rw [newestCheckpoint, readNewestCheckpoint, slot0, slot1] at found
  split at found
  case h_1 first second firstRead secondRead =>
    split at found
    · exact ⟨1, firstRead.trans found⟩
    · exact ⟨0, secondRead.trans found⟩
  case h_2 first firstRead _ => exact ⟨1, firstRead.trans found⟩
  case h_3 => exact ⟨0, found⟩

/-- The checkpoints of all writes are those that were begun. -/
theorem checkpointsOf_all (system : WalSystem) :
    checkpointsOf (system.writes.take system.covered ++
      (system.writes.drop system.covered ++ system.unfinished)) = system.begun := by
  rw [← append_assoc, take_append_drop, checkpointsOf_append,
    WalSystem.unfinished, checkpointsOf_append, checkpointsOf_map_group,
    checkpointsOf_map_checkpoint, nil_append, WalSystem.begun]

/-- A slot holds a checkpoint that was begun for it, or none. -/
theorem readSlot_cases (fresh : FreshDisk disk) (crash : system.Crashes config sums disk image)
    (ordinary : system.Ordinary sums) (noCollision : system.NoCollision sums image)
    (checkpointNum : Nat) :
    readSlot config sums (image.slot checkpointNum) = none ∨
      ∃ checkpoint ∈ system.begun, checkpoint.checkpointNum % 2 = checkpointNum % 2 ∧
        readSlot config sums (image.slot checkpointNum) = some checkpoint := by
  rcases crash.cases (slotAddress checkpointNum 0) with untouched | written
  · left
    refine Checkpoint.readSlot_of_not_magic (congrArg some untouched) ?_
    rw [slotAddress]
    split
    · exact fresh.slot0
    · exact fresh.slot1
  · rw [← pagesOf_append, mem_pagesOf_slot, checkpointsOf_all] at written
    obtain ⟨checkpoint, begun, parity, -, pageEq⟩ := written
    obtain ⟨tail, begins⟩ := checkpoint.pageAt_zero config sums
    have read := Checkpoint.readAs_of_bytes (ordinary.checkpoints checkpoint begun) begins
    have sound := noCollision.checkpoints checkpoint begun
    rw [image.slot_of_parity parity] at sound
    rcases Checkpoint.readSlot_of_readAs read (congrArg some pageEq) sound with nothing | whole
    · exact Or.inl nothing
    · exact Or.inr ⟨checkpoint, begun, parity, whole⟩

/-- Where a checkpoint is among some writes. -/
theorem split_at_checkpoint {writes : List WalWrite} {before after : List Checkpoint}
    (split : checkpointsOf writes = before ++ checkpoint :: after) :
    ∃ earlier later,
      writes = earlier ++ .checkpoint checkpoint :: later ∧ checkpointsOf later = after := by
  obtain ⟨first, rest, rfl, -, restEq⟩ := filterMap_eq_append_iff.mp split
  obtain ⟨skipped, write, later, rfl, -, writeEq, laterEq⟩ := filterMap_eq_cons_iff.mp restEq
  cases write with
  | group written => contradiction
  | checkpoint written =>
    cases writeEq
    exact ⟨first ++ skipped, later, (append_assoc _ _ _).symm, laterEq⟩

/-- The last checkpoint that landed is whole on the image. -/
theorem readSlot_landed
    (progress : CheckpointProgress config system (landed ++ [checkpoint]) pending)
    (crash : system.Crashes config sums disk image) (ordinary : system.Ordinary sums) :
    readSlot config sums (image.slot checkpoint.checkpointNum) = some checkpoint := by
  have begunEq : system.begun = landed ++ [checkpoint] ++ pending := progress.begun
  have begun : checkpoint ∈ system.begun := by simp [begunEq]
  refine Checkpoint.readSlot_of_pages (ordinary.checkpoints checkpoint begun)
    (progress.fits checkpoint (by simp)) fun index lt => congrArg some ?_
  obtain ⟨rest, coveredEq⟩ := progress.covered
  rw [append_assoc, singleton_append] at coveredEq
  obtain ⟨earlier, later, writesEq, laterEq⟩ := split_at_checkpoint coveredEq.symm
  have all := checkpointsOf_all system
  rw [begunEq, checkpointsOf_append, ← coveredEq, append_assoc, cons_append,
    append_assoc landed, singleton_append] at all
  have pendingEq := List.cons.inj (append_cancel_left all) |>.2
  rw [WalSystem.Crashes, writesEq, pagesOf_append] at crash
  refine crash.survives ?_ ?_
  · exact ⟨(_, pageAt (checkpoint.bytes config sums) index), mem_pagesOf_slot.mpr
        ⟨checkpoint, mem_checkpointsOf.mpr mem_cons_self, rfl, lt, rfl⟩,
      rfl⟩
  · rintro ⟨address, page⟩ mem rfl
    rw [← pagesOf_append, mem_pagesOf_slot] at mem
    obtain ⟨other, otherMember, parity, -, rfl⟩ := mem
    rw [cons_append, mem_checkpointsOf, mem_cons] at otherMember
    rcases otherMember with here | further
    · rw [WalWrite.checkpoint.inj here]
    · rw [← mem_checkpointsOf, checkpointsOf_append, laterEq, pendingEq] at further
      obtain ⟨first, last, rfl⟩ := append_of_mem further
      have number := progress.numbered.left.last
      have otherNumber := progress.numbered (landed ++ [checkpoint] ++ first) other last
        (append_assoc _ _ _).symm
      have one := progress.onePending
      simp only [length_append, length_cons, length_nil] at *
      omega

/-- Recovery finds the last checkpoint that landed, or one that was being written. -/
theorem newestCheckpoint_cases
    (progress : CheckpointProgress config system landed pending) (fresh : FreshDisk disk)
    (crash : system.Crashes config sums disk image) (ordinary : system.Ordinary sums)
    (noCollision : system.NoCollision sums image) :
    newestCheckpoint config sums image = landed.getLast? ∨
      ∃ checkpoint ∈ pending, newestCheckpoint config sums image = some checkpoint := by
  have begunEq : system.begun = landed ++ pending := progress.begun
  have slots := readSlot_cases fresh crash ordinary noCollision
  rcases eq_nil_or_concat' landed with rfl | ⟨earlier, last, rfl⟩
  · rw [nil_append] at begunEq
    rw [begunEq] at slots
    cases found : newestCheckpoint config sums image with
    | none => exact Or.inl rfl
    | some checkpoint =>
      right
      obtain ⟨checkpointNum, read⟩ := exists_slot_of_newest found
      rcases slots checkpointNum with nothing | ⟨other, mem, -, whole⟩
      · exact absurd (nothing.symm.trans read) (by simp)
      · obtain rfl := Option.some.inj (whole.symm.trans read)
        exact ⟨other, mem, rfl⟩
  · have here := readSlot_landed progress crash ordinary
    have number := progress.numbered.left.last
    rcases slots (last.checkpointNum + 1) with nothing | ⟨other, mem, parity, whole⟩
    · left
      rw [getLast?_concat]
      exact newest_of_slot here fun other there => by rw [nothing] at there; contradiction
    · rw [begunEq] at mem
      rcases mem_append.mp mem with older | newer
      · left
        rw [getLast?_concat]
        refine newest_of_slot here fun found there => ?_
        obtain rfl := Option.some.inj (whole.symm.trans there)
        obtain ⟨first, rest, split⟩ := append_of_mem older
        have otherNumber := progress.numbered.left first other rest split
        have lengths := congrArg List.length split
        simp only [length_append, length_cons, length_nil] at lengths
        omega
      · right
        refine ⟨other, newer, newest_of_slot whole fun found there => ?_⟩
        rw [image.slot_of_parity
          (show (last.checkpointNum + 1 + 1) % 2 = last.checkpointNum % 2 by omega)] at there
        obtain rfl := Option.some.inj (here.symm.trans there)
        obtain ⟨first, rest, rfl⟩ := append_of_mem newer
        have otherNumber := progress.numbered (earlier ++ [last] ++ first) other rest
          (append_assoc _ _ _).symm
        simp only [length_append, length_cons, length_nil] at otherNumber
        omega

end Slots

end Orly
