import Orly.VolumeManagerRuns

namespace Orly

/-!
# Block ranges are given back

The volume manager finds the volume of a range again when the chunk of the exclusive end
is one of the volume's, which it is unless the range ends where an extent of whole chunks
does.
-/

open List VolumeManager

/-- A range of free blocks can be marked. -/
theorem marksAll_of_free {layout : VolumeLayout} {blockId count : Nat} {maps : BlockMaps}
    (inside : blockId + count ≤ layout.numBlocks)
    (free : ∀ block, blockId ≤ block → block < blockId + count → maps.blockMap block = false) :
    BlockMaps.marksAll layout blockId count maps = true := by
  induction count generalizing blockId maps with
  | zero => rfl
  | succ count ih =>
    have isFree := free blockId (Nat.le_refl _) (by omega)
    rw [BlockMaps.marksAll, if_neg]
    · refine ih (by omega) ?_
      intro block above below
      have differs : block ≠ blockId := by omega
      simp only [BlockMaps.setBlockBuf, if_true, Function.update_of_ne differs]
      exact free block (by omega) (by omega)
    · rw [isFree]
      rintro (used | past)
      · contradiction
      · omega

/-- A block is marked as used in the maps of its volume. -/
def VolumeManager.InUse (manager : VolumeManager) (block : Nat) : Prop :=
  ∃ volume ∈ manager.volumes, ∃ extentNum, volume.layout.findExtent block 1 = some extentNum ∧
      volume.state.maps.blockMap (volume.layout.mapBlock extentNum block) = true

/-- The extent of a range that a volume holds. -/
theorem PlacedExtents.findExtent_of_holds
    {layout : VolumeLayout} (placed : PlacedExtents layout) {start count : Nat}
    (someBlocks : 0 < count) (holds : layout.Holds start count) :
    ∃ extentNum extentStart, layout.extentStarts[extentNum]? = some extentStart ∧
        extentStart ≤ start ∧ start + count ≤ extentStart + layout.spanBlocks ∧
        layout.findExtent start count = some extentNum ∧
        layout.mapBlock extentNum start + count ≤ layout.numBlocks := by
  obtain ⟨extentNum, extentStart, atExtent, above, below, inMaps⟩ := holds
  refine ⟨extentNum, extentStart, atExtent, above, below, ?_, ?_⟩
  · cases found : layout.findExtent start count with
    | none =>
      have missed := findIdx?_eq_none_iff.mp found extentStart (mem_of_getElem? atExtent)
      simp only [decide_eq_false_iff_not] at missed
      omega
    | some other =>
      obtain ⟨otherStart, atOther, otherAbove, otherBelow⟩ := findExtent_some found
      have inOther : otherStart ≤ start ∧ start < otherStart + layout.spanBlocks := by omega
      rw [placed.extent_unique atOther atExtent inOther (by omega)]
  · rw [VolumeLayout.mapBlock, getD_of_getElem? atExtent]
    exact inMaps

section GivingBack

variable {manager : VolumeManager} {volume : ManagedVolume} {start count : Nat}

/-- Volumes are found by their ids. -/
theorem volume?_eq (apart : VolumesApart manager) (isVolume : volume ∈ manager.volumes) :
    manager.volume? volume.id = some volume := by
  cases found : manager.volume? volume.id with
  | none =>
    have missed := List.find?_eq_none.mp found volume isVolume
    simp at missed
  | some other =>
    have isOther := mem_of_find?_eq_some found
    have same : other.id = volume.id := by simpa using find?_some found
    rw [apart.unique isOther isVolume same]

variable (apart : VolumesApart manager) (mapped : ChunksMapped manager)
  (isVolume : volume ∈ manager.volumes) (someBlocks : 0 < count)
  (holds : volume.place.Holds start count)

include apart mapped isVolume someBlocks holds

/-- The volume that holds a range is found if the end of the range is inside, and otherwise
none is. -/
theorem findVolume_cases : manager.EndsInside start count ∧
        manager.findVolume start count = (manager, some volume.id) ∧
        manager.volume? volume.id = some volume ∨
      ¬ manager.EndsInside start count ∧
        ∃ looked, manager.findVolume start count = (looked, none) := by
  have isPlace : volume.place ∈ manager.places := mem_map_of_mem isVolume
  obtain ⟨_, extentStart, atExtent, above, below, _⟩ :=
    (apart.sound _ isPlace).placedExtents.findExtent_of_holds someBlocks holds
  obtain ⟨finds, inside⟩ := findVolume_of_inExtent apart mapped isPlace
    (mem_of_getElem? atExtent) above below someBlocks
  by_cases endsInside : manager.EndsInside start count
  · exact .inl ⟨endsInside, finds endsInside, volume?_eq apart isVolume⟩
  · exact .inr ⟨endsInside, _, Prod.ext rfl (not_not.mp (mt inside endsInside))⟩

/-- A range that a volume holds is freed if and only if its end is inside. -/
theorem freed_iff :
    (manager.freeSequentialBlocks start count).2 = true ↔ manager.EndsInside start count := by
  have isPlace : volume.place ∈ manager.places := mem_map_of_mem isVolume
  obtain ⟨extentNum, _, _, _, _, found, _⟩ :=
    (apart.sound _ isPlace).placedExtents.findExtent_of_holds someBlocks holds
  have isFound : volume.layout.findExtent start count = some extentNum := found
  rcases findVolume_cases apart mapped isVolume someBlocks holds with
    ⟨endsInside, finds, isManaged⟩ | ⟨outside, looked, lost⟩
  · refine iff_of_true ?_ endsInside
    simp only [freeSequentialBlocks, finds, isManaged, BlockMaps.freeSequentialBlocks, isFound,
      Option.map_some]
  · simp [freeSequentialBlocks, lost, outside]

/-- It is marked if and only if its end is inside, when none of its blocks is in use. -/
theorem marked_iff
    (unused : ∀ block, start ≤ block → block < start + count → ¬ manager.InUse block) :
    (manager.markBlockRangeUsed start count).2 = true ↔ manager.EndsInside start count := by
  have isPlace : volume.place ∈ manager.places := mem_map_of_mem isVolume
  have placed : PlacedExtents volume.layout := (apart.sound _ isPlace).placedExtents
  obtain ⟨extentNum, extentStart, atExtent, above, below, found, inMaps⟩ :=
    placed.findExtent_of_holds someBlocks holds
  rcases findVolume_cases apart mapped isVolume someBlocks holds with
    ⟨endsInside, finds, isManaged⟩ | ⟨outside, looked, lost⟩
  · refine iff_of_true ?_ endsInside
    simp only [markBlockRangeUsed, finds, isManaged, found]
    refine marksAll_of_free inMaps ?_
    intro blockId isAbove isBelow
    have startEq := PlacedExtents.getD_of_getElem? atExtent
    set block := start + (blockId - volume.layout.mapBlock extentNum start) with isBlock
    have blockFound : volume.layout.findExtent block 1 = some extentNum :=
      placed.findExtent_block atExtent (by omega)
    have sameId : volume.layout.mapBlock extentNum block = blockId := by
      simp only [VolumeLayout.mapBlock, startEq] at isAbove isBelow isBlock ⊢
      omega
    have notUsed := unused block (by omega) (by omega)
    refine Bool.eq_false_iff.mpr ?_
    intro used
    exact notUsed ⟨volume, isVolume, extentNum, blockFound, sameId ▸ used⟩
  · simp [markBlockRangeUsed, lost, outside]

end GivingBack

/-- Extents of different volumes have no block in common. -/
def VolumeManager.ExtentsApart (manager : VolumeManager) : Prop :=
  manager.volumes.Pairwise fun first second =>
    ∀ firstStart ∈ first.extentStarts, ∀ secondStart ∈ second.extentStarts, ∀ block,
      firstStart ≤ block ∧ block < firstStart + first.shape.capacityBlocks →
        ¬ (secondStart ≤ block ∧ block < secondStart + second.shape.capacityBlocks)

theorem VolumesApart.extentsApart {manager : VolumeManager} (apart : VolumesApart manager) :
    manager.ExtentsApart := by
  refine (pairwise_map.mp apart.separate).imp_of_mem ?_
  intro first second isFirst isSecond separate firstStart atFirst secondStart atSecond block
    inFirst inSecond
  have firstAligned := (apart.sound _ (mem_map_of_mem isFirst)).aligned firstStart atFirst
  have secondAligned := (apart.sound _ (mem_map_of_mem isSecond)).aligned secondStart atSecond
  exact separate.2 _ (chunk_of_block atFirst firstAligned inFirst.1 inFirst.2)
    (chunk_of_block atSecond secondAligned inSecond.1 inSecond.2)

/-- A store gives back a range: it can free it now, and mark it where it is not in use. -/
structure BlockStore.GivesBack (store : BlockStore) (start count : Nat) : Prop where
  frees : (store.manager.freeSequentialBlocks start count).2 = true
  marks : (∀ block, start ≤ block → block < start + count → ¬ store.manager.InUse block) →
    (store.manager.markBlockRangeUsed start count).2 = true

/-- In every run the extents of different volumes stay apart, and a new process can add
the volumes again, in any order, if and only if none has replicas.  In every run whose
calls are on ranges that end inside the chunks of their volume, a part of a range that was
handed out, before or after a restart, can be given back if and only if it ends inside too. -/
theorem givesBack_iff_endsInside (store : BlockStore) :
    (EventRuns.Reaches BlockStore.step BlockStore.AnyCall .new store → store.manager.ExtentsApart ∧
        ∀ order, order.Perm store.manager.volumes → ((store.step (.restart order)).isSome = true ↔
          ∀ volume ∈ store.manager.volumes, volume.shape.replicationFactor = 1)) ∧
    (EventRuns.Reaches BlockStore.step BlockStore.EndsInside .new store →
      ∀ range ∈ store.handedOut, ∀ start count, 0 < count →
        range.1 ≤ start → start + count ≤ range.1 + range.2 →
          (store.GivesBack start count ↔ store.manager.EndsInside start count)) := by
  constructor
  · intro reached
    have sound := StoreSound.reaches reached
    refine ⟨sound.apart.extentsApart, ?_⟩
    intro order same
    rw [BlockStore.step, Option.isSome_map]
    exact (sound.apart.canReopen same).isSome_reopen_iff.trans (by simp [same.mem_iff])
  · intro reached range isHandedOut start count someBlocks above below
    have sound := StoreSound.reaches (reached.mono fun _ _ => BlockStore.EndsInside.anyCall)
    have mapped := ChunksMapped.reaches reached
    obtain ⟨place, isPlace, holds⟩ := sound.held range isHandedOut
    obtain ⟨volume, isVolume, rfl⟩ := mem_map.mp isPlace
    have holdsPart : volume.place.Holds start count := holds.part above below
    constructor
    · intro givesBack
      exact (freed_iff sound.apart mapped isVolume someBlocks holdsPart).mp givesBack.frees
    · intro endsInside
      exact
        { frees := (freed_iff sound.apart mapped isVolume someBlocks holdsPart).mpr endsInside
          marks := fun unused =>
            (marked_iff sound.apart mapped isVolume someBlocks holdsPart unused).mpr endsInside }

/-- A volume of one extent. -/
def oneExtent (capacityBlocks : Nat) : VolumeShape where
  storageSpeed := .fast
  numLogicalExtent := 1
  replicationFactor := 1
  capacityBlocks := capacityBlocks
  minDiscardAllocBlocks := 8
  blockMapBytesPerDiscardRange := 1

/-- Three of ten blocks handed out can be given back. -/
theorem givesBack_iff_endsInside_small :
    ∃ store, EventRuns.Reaches BlockStore.step BlockStore.EndsInside .new store ∧
      (0, 10) ∈ store.handedOut ∧ store.GivesBack 2 3 := by
  have ran : ∃ store, (BlockStore.new.step (.addNewVolume (oneExtent 100) true)).bind
      (fun store => store.step (.allocate .fast 10 0)) = some store ∧ (0, 10) ∈ store.handedOut :=
    ⟨_, rfl, by decide +kernel⟩
  obtain ⟨store, ran, isHandedOut⟩ := ran
  obtain ⟨added, isAdded, isAllocated⟩ := Option.bind_eq_some_iff.mp ran
  have afterAdding : EventRuns.Reaches BlockStore.step BlockStore.EndsInside .new added :=
    EventRuns.Reaches.refl.tail
      (show BlockStore.EndsInside .new (.addNewVolume (oneExtent 100) true) from trivial) isAdded
  have reached : EventRuns.Reaches BlockStore.step BlockStore.EndsInside .new store :=
    afterAdding.tail (show added.EndsInside (.allocate .fast 10 0) from trivial) isAllocated
  refine ⟨store, reached, isHandedOut, ?_⟩
  refine ((givesBack_iff_endsInside store).2 reached (0, 10) isHandedOut 2 3 (by decide)
    (by decide) (by decide)).mpr ?_
  exact Or.inl (by decide)

section WholeChunk

/-- A volume of one extent that is one whole chunk. -/
def wholeChunk : VolumeShape := oneExtent chunkBlocks

/-- A store with only that volume, whose used blocks have all been handed out. -/
structure Filling (store : BlockStore) (state : VolumeState) : Prop where
  volumes : store.manager.volumes = [⟨0, wholeChunk, [0], state⟩]
  sound : VolumeSound (wholeChunk.layout [0]) state
  noneWaiting : ∀ block, state.maps.discardMap block = false
  covered : ∀ block, state.maps.blockMap block = true →
    ∃ range ∈ store.handedOut, range.1 ≤ block ∧ block < range.1 + range.2

theorem numBlocks_wholeChunk : (wholeChunk.layout [0]).numBlocks = chunkBlocks := by
  decide

theorem volumeBlock_wholeChunk {block : Nat} (inside : block < chunkBlocks) :
    (wholeChunk.layout [0]).volumeBlock block = block := by
  have perExtent : (wholeChunk.layout [0]).numBlocksPerExtent = chunkBlocks := by decide
  rw [VolumeLayout.volumeBlock, perExtent, Nat.div_eq_of_lt inside, Nat.mod_eq_of_lt inside]
  exact Nat.zero_add block

theorem wholeBlocks_wholeChunk : WholeBlocks (wholeChunk.layout [0]) where
  enough := by decide
  blocks := by decide
  apart := by decide
  span := by decide

/-- An allocation takes one more block, as long as there is one. -/
theorem Filling.allocate
    {store : BlockStore} {state : VolumeState} (filling : Filling store state) {free : Nat}
    (inside : free < chunkBlocks) (isFree : state.maps.blockMap free = false) :
    ∃ next after, store.step (.allocate .fast 1 0) = some next ∧ Filling next after ∧
      state.maps.blocksUsed < after.maps.blocksUsed := by
  have sound := filling.sound.maps
  have outcome := allocationSound wholeBlocks_wholeChunk sound Nat.one_pos
  have took := Took.tryGetSeqBlocks sound.cachedStart 1
  have nextSound := filling.sound.allocate 1
  have notNothing : (state.maps.tryGetSeqBlocks (wholeChunk.layout [0]) 1).curAlloced ≠ 0 := by
    intro nothing
    have used := BlockMaps.tryGetSeqBlocks_takes_nothing Nat.one_pos nothing free
      (numBlocks_wholeChunk ▸ inside)
    rw [isFree] at used
    contradiction
  set attempt := state.maps.tryAllocateSequentialBlocks (wholeChunk.layout [0]) 1 with isAttempt
  have given : attempt.1 = .given ((wholeChunk.layout [0]).handOut
      (state.maps.tryGetSeqBlocks (wholeChunk.layout [0]) 1).startOut
      (state.maps.tryGetSeqBlocks (wholeChunk.layout [0]) 1).curAlloced) ∧
      attempt.2 = (state.maps.tryGetSeqBlocks (wholeChunk.layout [0]) 1).maps := by
    rw [isAttempt, BlockMaps.tryAllocateSequentialBlocks, if_neg notNothing]
    exact ⟨rfl, rfl⟩
  rw [AllocationSound, given.1] at outcome
  have attempted : store.manager.tryAllocateSequentialBlocks .fast 1 0 =
      ({ store.manager with volumes := [⟨0, wholeChunk, [0], { state with maps := attempt.2 }⟩] },
        attempt.1) := by
    have first : allocateFrom (fun other => decide (other = StorageSpeed.fast)) 1
        store.manager.volumes =
          ([⟨0, wholeChunk, [0], { state with maps := attempt.2 }⟩], attempt.1) := by
      have isFast : decide (wholeChunk.storageSpeed = StorageSpeed.fast) = true := by decide
      rw [filling.volumes, allocateFrom, if_pos isFast]
      show (if attempt.1 = Allocation.diskFull then _ else _) = _
      rw [if_neg (by rw [given.1]; simp)]
      rfl
    rw [tryAllocateSequentialBlocks, if_neg (by simp), first, if_neg]
    rw [given.1]
    simp
  refine ⟨⟨{ store.manager with
      volumes := [⟨0, wholeChunk, [0], { state with maps := attempt.2 }⟩] },
      store.handedOut ++ attempt.1.ranges⟩, { state with maps := attempt.2 }, ?_, ?_, ?_⟩
  · rw [BlockStore.step, if_pos Nat.one_pos, attempted]
  · refine
      { volumes := rfl
        sound := nextSound
        noneWaiting := ?_
        covered := ?_ }
    · intro block
      show attempt.2.discardMap block = false
      rw [given.2, took.discardMap]
      exact filling.noneWaiting block
    · intro block used
      rcases (outcome.bitsSet block).mp used with before | ⟨isBlock, range, isRange, within⟩
      · obtain ⟨range, isRange, within⟩ := filling.covered block before
        exact ⟨range, mem_append_left _ isRange, within⟩
      · rw [volumeBlock_wholeChunk (numBlocks_wholeChunk ▸ isBlock)] at within
        refine ⟨range, mem_append_right _ ?_, within⟩
        show range ∈ attempt.1.ranges
        rw [given.1]
        exact isRange
  · show state.maps.blocksUsed < attempt.2.blocksUsed
    rw [given.2, took.blocksUsed]
    omega

/-- Allocations get to the last block of the chunk. -/
theorem Filling.reaches_last
    {store : BlockStore} {state : VolumeState} (filling : Filling store state)
    (reached : EventRuns.Reaches BlockStore.step BlockStore.EndsInside .new store) :
    ∃ full last, EventRuns.Reaches BlockStore.step BlockStore.EndsInside .new full ∧
      Filling full last ∧ ∃ range ∈ full.handedOut,
        range.1 ≤ chunkBlocks - 1 ∧ chunkBlocks - 1 < range.1 + range.2 := by
  have bound : ∀ {store state}, Filling store state → state.maps.blocksUsed ≤ chunkBlocks := by
    intro store state filling
    rw [filling.sound.maps.blocksUsed, ← numBlocks_wholeChunk]
    exact BitRanges.population_le ..
  generalize isLeft : chunkBlocks - state.maps.blocksUsed = left
  induction left using Nat.strong_induction_on generalizing store state with
  | _ left ih =>
    cases isUsed : state.maps.blockMap (chunkBlocks - 1) with
    | true => exact ⟨store, state, reached, filling, filling.covered _ isUsed⟩
    | false =>
      obtain ⟨next, after, stepped, nextFilling, more⟩ := filling.allocate (by decide) isUsed
      have nextBound := bound nextFilling
      have nextReached := reached.tail
        (show store.EndsInside (.allocate .fast 1 0) from trivial) stepped
      exact ih _ (by omega) nextFilling nextReached rfl

/-- The last block of an extent of one whole chunk is handed out and cannot be freed, nor
marked by a new process. -/
theorem last_block_not_given_back :
    ∃ store, EventRuns.Reaches BlockStore.step BlockStore.EndsInside .new store ∧
      (∃ range ∈ store.handedOut, range.1 ≤ chunkBlocks - 1 ∧ chunkBlocks - 1 < range.1 + range.2) ∧
      (store.manager.freeSequentialBlocks (chunkBlocks - 1) 1).2 = false := by
  have start : ∃ added, BlockStore.new.step (.addNewVolume wholeChunk true) = some added ∧
      added.manager.volumes = [⟨0, wholeChunk, [0], .new⟩] :=
    ⟨_, rfl, rfl⟩
  obtain ⟨added, isAdded, volumes⟩ := start
  have afterAdding : EventRuns.Reaches BlockStore.step BlockStore.EndsInside .new added :=
    EventRuns.Reaches.refl.tail
      (show BlockStore.EndsInside .new (.addNewVolume wholeChunk true) from trivial) isAdded
  have filling : Filling added .new :=
    { volumes := volumes
      sound := VolumeSound.new _
      noneWaiting := fun _ => rfl
      covered := fun _ used => absurd used Bool.false_ne_true }
  obtain ⟨store, state, reached, full, range, isRange, above, below⟩ :=
    filling.reaches_last afterAdding
  refine ⟨store, reached, ⟨range, isRange, above, below⟩, ?_⟩
  have sound := StoreSound.reaches (reached.mono fun _ _ => BlockStore.EndsInside.anyCall)
  have mapped := ChunksMapped.reaches reached
  obtain ⟨place, isPlace, holds⟩ := sound.held range isRange
  obtain ⟨volume, isVolume, rfl⟩ := mem_map.mp isPlace
  have holdsLast : volume.place.Holds (chunkBlocks - 1) 1 := holds.part above (by omega)
  refine Bool.eq_false_iff.mpr ?_
  intro freed
  rcases (freed_iff sound.apart mapped isVolume Nat.one_pos holdsLast).mp freed with
    inChunk | ⟨other, isOther, _, endIn⟩
  · exact inChunk (by decide)
  · rw [places, full.volumes, map_singleton, mem_singleton] at isOther
    rw [isOther] at endIn
    have outside : (chunkBlocks - 1 + 1) / chunkBlocks ∉ extentChunks wholeChunk [0] := by decide
    exact outside endIn

end WholeChunk

end Orly
