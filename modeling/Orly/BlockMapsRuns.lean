import Orly.BlockMapsExtents
import Orly.FoldRules

namespace Orly

/-!
# Runs of the block allocator

In every interleaving of allocations, frees, marks and rounds of the discard runner the
counters are the populations of their maps, and an allocation hands out free blocks only.
-/

open List BlockMaps BitRanges

namespace MapsSound

variable {layout : VolumeLayout} {maps : BlockMaps}

section

variable (sound : MapsSound layout maps)

include sound

/-- What a search for blocks leaves is sound. -/
theorem took {wanted : Nat} {scan : SeqScan} (took : Took layout maps wanted scan) :
    MapsSound layout scan.maps where
  blocksUsed := by
    rw [took.blocksUsed, took.blockMap, sound.blocksUsed]
    by_cases nothing : scan.curAlloced = 0
    · rw [nothing, setRange_zero, Nat.add_zero]
    · rw [population_setRange_on took.free (took.inside nothing)]
  discardBlockWaiting := by
    rw [took.discardBlockWaiting, took.discardMap, sound.discardBlockWaiting]
  discardSubset := by
    intro block waiting
    rw [took.discardMap] at waiting
    have used := sound.discardSubset block waiting
    rw [took.blockMap]
    simp only [setRange]
    split
    · rfl
    · exact used
  inside := by
    intro block used
    rw [took.blockMap] at used
    by_cases written : scan.startOut ≤ block ∧ block < scan.startOut + scan.curAlloced
    · have bound := took.inside (by omega)
      omega
    · rw [setRange_of_not_mem written] at used
      exact sound.inside block used
  cachedStart := took.cachedStart

/-- Marking blocks used sets free blocks only. -/
theorem markBlocks (blockId count : Nat) :
    MapsSound layout (BlockMaps.markBlocks layout blockId count maps) := by
  induction count generalizing blockId maps with
  | zero => exact sound
  | succ count ih =>
    rw [BlockMaps.markBlocks]
    split
    case isTrue => exact sound
    case isFalse unused =>
      push Not at unused
      have begun : Took layout maps 1 ⟨maps, 0, 0⟩ := Took.start sound.cachedStart
      have marked : Took layout maps 1 ⟨maps.setBlockBuf layout true blockId, 1, blockId⟩ :=
        begun.takeBlock (Bool.eq_false_iff.mpr unused.1) unused.2 Nat.one_pos rfl
      exact ih (sound.took marked) (blockId + 1)

omit sound in
theorem discardMap_markBlocks (blockId count : Nat) (maps : BlockMaps) :
    (BlockMaps.markBlocks layout blockId count maps).discardMap = maps.discardMap := by
  induction count generalizing blockId maps with
  | zero => rfl
  | succ count ih =>
    rw [BlockMaps.markBlocks]
    split
    · rfl
    · rw [ih]
      rfl

/-- Giving back one block that waits for a discard. -/
theorem releaseBlock {blockId : Nat} (waiting : maps.discardMap blockId = true) : MapsSound layout
      ((maps.setDiscardBuf false blockId).setBlockBuf layout false blockId) := by
  rw [setDiscardBuf_eq, setBlockBuf_false_eq]
  have inside := sound.inside blockId (sound.discardSubset blockId waiting)
  refine sound.release ?_ (by omega)
  intro block above below
  have same : block = blockId := by omega
  rw [same, waiting]

/-- The bits still to be given back are as they stood when the word was read. -/
theorem releaseBits {bits : Nat → Bool} {word : Nat} {rest : List Nat} (distinct : rest.Nodup)
    (unchanged : ∀ bit ∈ rest, maps.discardMap (64 * word + bit) = bits (64 * word + bit)) :
    MapsSound layout
      (rest.foldl
        (fun released bit =>
          if bits (64 * word + bit) = true then
            (released.setDiscardBuf false (64 * word + bit)).setBlockBuf layout false
              (64 * word + bit)
          else
            released)
        maps) := by
  induction rest generalizing maps with
  | nil => exact sound
  | cons bit rest ih =>
    obtain ⟨notLater, restDistinct⟩ := nodup_cons.mp distinct
    rw [foldl_cons]
    split
    case isFalse =>
      exact ih sound restDistinct fun other mem => unchanged other (mem_cons_of_mem _ mem)
    case isTrue waiting =>
      have stillWaiting := (unchanged bit mem_cons_self).trans waiting
      refine ih (sound.releaseBlock stillWaiting) restDistinct ?_
      intro other mem
      have differs : 64 * word + other ≠ 64 * word + bit := by
        intro same
        have sameBit : other = bit := by omega
        exact notLater (sameBit ▸ mem)
      rw [← unchanged other (mem_cons_of_mem _ mem)]
      exact Function.update_of_ne differs _ _

theorem releaseWord (word : Nat) : MapsSound layout (maps.releaseWord layout word) :=
  sound.releaseBits nodup_range fun _ _ => rfl

theorem releaseWaiting : MapsSound layout (maps.releaseWaiting layout) :=
  FoldRules.foldl_keeps (MapsSound layout) _ (fun word _ _ held => held.releaseWord word) sound

end

end MapsSound

/-- A round of the runner gives all waiting blocks back, or finds ranges, or does
nothing. -/
theorem VolumeState.collectDiscards_cases {layout : VolumeLayout} {state next : VolumeState}
    (collected : state.collectDiscards layout = some next) :
    next = ⟨state.maps.releaseWaiting layout, []⟩ ∨
      (layout.minDiscardAllocBlocks < state.maps.discardBlockWaiting ∧
        layout.discardRangeBytes ≠ 0 ∧
        next = ⟨state.maps, state.maps.fullRanges layout layout.discardRangeBytes⟩) ∨
      next = state := by
  simp only [VolumeState.collectDiscards] at collected
  split at collected
  case isTrue enough =>
    split at collected
    case isTrue => simp at collected
    case isFalse someBytes =>
      split at collected
      case isTrue => exact Or.inl (Option.some.inj collected).symm
      case isFalse =>
        exact Or.inr (Or.inl ⟨enough, someBytes, (Option.some.inj collected).symm⟩)
  case isFalse =>
    split at collected
    case isTrue => exact Or.inl (Option.some.inj collected).symm
    case isFalse => exact Or.inr (Or.inr (Option.some.inj collected).symm)

/-- What holds between the lock sections on one volume: the maps are sound, and the
ranges the runner is about to release wait for a discard and do not overlap. -/
structure VolumeSound (layout : VolumeLayout) (state : VolumeState) : Prop where
  maps : MapsSound layout state.maps
  pendingInside : ∀ range ∈ state.blocksFromVec, range.1 + range.2 ≤ layout.numBlocks
  pendingWaiting : ∀ range ∈ state.blocksFromVec, ∀ block,
    range.1 ≤ block → block < range.1 + range.2 → state.maps.discardMap block = true
  pendingApart : state.blocksFromVec.Pairwise fun first second =>
    first.1 + first.2 ≤ second.1

namespace VolumeSound

variable {layout : VolumeLayout} {state next : VolumeState}

theorem new (layout : VolumeLayout) : VolumeSound layout .new where
  maps := MapsSound.new layout
  pendingInside := by simp [VolumeState.new]
  pendingWaiting := by simp [VolumeState.new]
  pendingApart := by simp [VolumeState.new]

variable {maps : BlockMaps} {start count : Nat}

/-- A section that takes no waiting block away keeps the pending ranges. -/
theorem withMaps (sound : VolumeSound layout state) (mapsSound : MapsSound layout maps)
    (stillWaiting : ∀ block, state.maps.discardMap block = true → maps.discardMap block = true) :
    VolumeSound layout { state with maps := maps } :=
  { sound with
    maps := mapsSound
    pendingWaiting := fun range mem block above below =>
      stillWaiting block (sound.pendingWaiting range mem block above below) }

/-- An allocation keeps the maps sound. -/
theorem allocate (sound : VolumeSound layout state) (numBlocks : Nat) : VolumeSound layout
      { state with
        maps := (state.maps.tryAllocateSequentialBlocks layout numBlocks).2 } := by
  have took := Took.tryGetSeqBlocks sound.maps.cachedStart numBlocks
  have mapsEq : (state.maps.tryAllocateSequentialBlocks layout numBlocks).2 =
      (state.maps.tryGetSeqBlocks layout numBlocks).maps := by
    simp only [tryAllocateSequentialBlocks]
    split
    · split <;> rfl
    · rfl
  rw [mapsEq]
  refine sound.withMaps (sound.maps.took took) ?_
  intro block waiting
  rwa [took.discardMap]

theorem markUsed (sound : VolumeSound layout state)
    (marked : state.maps.markBlockRangeUsed layout start count = some maps) :
    VolumeSound layout { state with maps := maps } := by
  obtain ⟨extentNum, _, rfl⟩ := Option.map_eq_some_iff.mp marked
  refine sound.withMaps (sound.maps.markBlocks _ _) ?_
  intro block waiting
  rwa [MapsSound.discardMap_markBlocks]

/-- The blocks of a range of held blocks are held in the maps. -/
theorem held_mapBlock (placed : PlacedExtents layout) {extentNum : Nat}
    (found : layout.findExtent start count = some extentNum)
    (held : ∀ block, start ≤ block → block < start + count →
      maps.isBlockHeld layout block = true) (blockId : Nat)
    (above : layout.mapBlock extentNum start ≤ blockId)
    (below : blockId < layout.mapBlock extentNum start + count) :
    blockId < layout.numBlocks ∧
      maps.blockMap blockId = true ∧ maps.discardMap blockId = false := by
  obtain ⟨extentStart, atExtent, startAbove, endBelow⟩ := PlacedExtents.findExtent_some found
  have startEq := PlacedExtents.getD_of_getElem? atExtent
  set block := start + (blockId - layout.mapBlock extentNum start) with blockEq
  have blockFound : layout.findExtent block 1 = some extentNum :=
    placed.findExtent_block atExtent (by omega)
  have sameId : layout.mapBlock extentNum block = blockId := by
    simp only [VolumeLayout.mapBlock, startEq] at above below blockEq ⊢
    omega
  have isHeld := held block (by omega) (by omega)
  rw [isBlockHeld, blockFound] at isHeld
  simp only [sameId, Bool.and_eq_true, decide_eq_true_eq, Bool.not_eq_true'] at isHeld
  exact ⟨isHeld.1, isHeld.2.2, isHeld.2.1⟩

/-- Only held blocks may be freed. -/
theorem free (placed : PlacedExtents layout) (sound : VolumeSound layout state)
    (held : ∀ block, start ≤ block → block < start + count →
      state.maps.isBlockHeld layout block = true)
    (freed : state.maps.freeSequentialBlocks layout start count = some maps) :
    VolumeSound layout { state with maps := maps } := by
  obtain ⟨extentNum, found, rfl⟩ := Option.map_eq_some_iff.mp freed
  rw [setDiscardRange_eq]
  by_cases nothing : count = 0
  · have same : state.maps.writeDiscards true (layout.mapBlock extentNum start) count =
        state.maps := by
      simp [nothing, writeDiscards]
    rw [same]
    exact sound
  have lastHeld := held_mapBlock placed found held
    (layout.mapBlock extentNum start + (count - 1)) (by omega) (by omega)
  have blocksHeld := fun blockId above below =>
    (held_mapBlock placed found held blockId above below).2
  refine sound.withMaps (sound.maps.writeDiscards_on blocksHeld (by omega)) ?_
  intro block waiting
  simp only [writeDiscards, setRange]
  split
  · rfl
  · exact waiting

/-- The ranges a round of the runner finds wait for a discard. -/
theorem fullRanges_waiting
    {rangeBytes : Nat} {range : Nat × Nat} (mem : range ∈ maps.fullRanges layout rangeBytes) :
    range.1 + range.2 ≤ layout.extentStarts.length * layout.numBlocksPerExtent ∧
      ∀ block, range.1 ≤ block → block < range.1 + range.2 → maps.discardMap block = true := by
  obtain ⟨index, found, rfl⟩ := mem_map.mp mem
  obtain ⟨inMap, full⟩ := mem_filter.mp found
  have below := mem_range.mp inMap
  constructor
  · have rounds : (index + 1) * rangeBytes ≤
        layout.extentStarts.length * layout.numBlocksPerExtent / 8 :=
      (Nat.mul_le_mul_right _ below).trans (Nat.div_mul_le_self _ _)
    have bytes := Nat.div_mul_le_self (layout.extentStarts.length * layout.numBlocksPerExtent) 8
    calc
      8 * rangeBytes * index + 8 * rangeBytes = 8 * ((index + 1) * rangeBytes) := by ring
      _ ≤ 8 * (layout.extentStarts.length * layout.numBlocksPerExtent / 8) :=
          Nat.mul_le_mul_left 8 rounds
      _ ≤ layout.extentStarts.length * layout.numBlocksPerExtent := by omega
  · intro block above inside
    dsimp only at above inside
    have bitSet := all_eq_true.mp full (block - 8 * rangeBytes * index) (mem_range.mpr (by omega))
    rwa [Nat.add_sub_cancel' above] at bitSet

/-- The ranges of a round do not overlap. -/
theorem fullRanges_apart (maps : BlockMaps) (rangeBytes : Nat) :
    (maps.fullRanges layout rangeBytes).Pairwise fun first second =>
      first.1 + first.2 ≤ second.1 := by
  refine pairwise_map.mpr ((pairwise_lt_range.filter _).imp ?_)
  intro first second before
  calc
    8 * rangeBytes * first + 8 * rangeBytes = 8 * rangeBytes * (first + 1) := by ring
    _ ≤ 8 * rangeBytes * second := Nat.mul_le_mul_left _ before

/-- Collecting ranges to discard keeps the volume sound. -/
theorem collectDiscards (placed : PlacedExtents layout) (sound : VolumeSound layout state)
    (collected : state.collectDiscards layout = some next) :
    VolumeSound layout next := by
  have released : VolumeSound layout ⟨state.maps.releaseWaiting layout, []⟩ :=
    { maps := sound.maps.releaseWaiting
      pendingInside := by simp
      pendingWaiting := by simp
      pendingApart := by simp }
  have found : VolumeSound layout
      ⟨state.maps, state.maps.fullRanges layout layout.discardRangeBytes⟩ :=
    { maps := sound.maps
      pendingInside := by
        intro range mem
        rw [placed.blocks]
        exact (fullRanges_waiting mem).1
      pendingWaiting := fun range mem => (fullRanges_waiting mem).2
      pendingApart := fullRanges_apart _ _ }
  rcases VolumeState.collectDiscards_cases collected with rfl | ⟨_, _, rfl⟩ | rfl
  · exact released
  · exact found
  · exact sound

theorem releaseDiscard (sound : VolumeSound layout state)
    (released : state.releaseDiscard layout = some next) :
    VolumeSound layout next := by
  rw [VolumeState.releaseDiscard] at released
  split at released
  case h_1 => simp at released
  case h_2 range rest pending =>
    have inside := sound.pendingInside range (by simp [pending])
    have waiting := sound.pendingWaiting range (by simp [pending])
    have apart := sound.pendingApart
    rw [pending] at apart
    rw [setDiscardRange_eq, clearBlockBufRange_eq inside] at released
    cases released
    refine
      { maps := sound.maps.release waiting inside
        pendingInside := fun other mem => sound.pendingInside other (by simp [pending, mem])
        pendingWaiting := ?_
        pendingApart := (pairwise_cons.mp apart).2 }
    intro other mem block above below
    have after := (pairwise_cons.mp apart).1 other mem
    have stillWaiting := sound.pendingWaiting other (by simp [pending, mem]) block above below
    have outside : ¬ (range.1 ≤ block ∧ block < range.1 + range.2) := by omega
    simpa only [clearBlocks, writeDiscards, setRange_of_not_mem outside] using stillWaiting

/-- One lock section keeps the volume sound. -/
theorem step
    (placed : PlacedExtents layout) (sound : VolumeSound layout state) {event : VolumeEvent}
    (allowed : state.Allowed layout event) (stepped : state.step layout event = some next) :
    VolumeSound layout next := by
  cases event with
  | allocate numBlocks =>
    cases stepped
    exact sound.allocate numBlocks
  | free start count =>
    obtain ⟨maps, freed, rfl⟩ := Option.map_eq_some_iff.mp stepped
    exact sound.free placed allowed freed
  | markUsed start count =>
    obtain ⟨maps, marked, rfl⟩ := Option.map_eq_some_iff.mp stepped
    exact sound.markUsed marked
  | collectDiscards =>
    rw [VolumeState.step] at stepped
    split at stepped
    case isTrue => exact sound.collectDiscards placed stepped
    case isFalse => simp at stepped
  | releaseDiscard => exact sound.releaseDiscard stepped

/-- Every interleaving of lock sections keeps the volume sound. -/
theorem reaches (placed : PlacedExtents layout)
    (reached : EventRuns.Reaches (VolumeState.step layout) (VolumeState.Allowed layout)
      .new state) :
    VolumeSound layout state :=
  reached.invariant (new layout) fun _ _ _ sound allowed stepped =>
    sound.step placed allowed stepped

end VolumeSound

/-- What an allocation owes its caller for the ranges it hands out. -/
structure HandedOut (layout : VolumeLayout) (before after : BlockMaps) (wanted : Nat)
    (ranges : List (Nat × Nat)) : Prop where
  atMost : (ranges.map Prod.snd).sum ≤ wanted
  oneExtent : ∀ range ∈ ranges, ∃ start ∈ layout.extentStarts,
    start ≤ range.1 ∧ range.1 + range.2 ≤ start + layout.spanBlocks
  disjoint : ∀ range ∈ ranges, ∀ blockId, blockId < layout.numBlocks →
    before.blockMap blockId = true →
      ¬ (range.1 ≤ layout.volumeBlock blockId ∧ layout.volumeBlock blockId < range.1 + range.2)
  bitsSet : ∀ blockId, after.blockMap blockId = true ↔ before.blockMap blockId = true ∨
      blockId < layout.numBlocks ∧ ∃ range ∈ ranges, range.1 ≤ layout.volumeBlock blockId ∧
          layout.volumeBlock blockId < range.1 + range.2
  count : population after.blockMap layout.numBlocks =
      population before.blockMap layout.numBlocks + (ranges.map Prod.snd).sum

/-- How an attempt to allocate may end. -/
def AllocationSound (layout : VolumeLayout) (before : BlockMaps) (wanted : Nat)
    (outcome : Allocation × BlockMaps) : Prop :=
  match outcome.1 with
  | .given ranges => HandedOut layout before outcome.2 wanted ranges
  | .waitForDiscard => ∃ blockId, blockId < layout.numBlocks ∧
      before.discardMap blockId = true
  | .diskFull => ∀ blockId, blockId < layout.numBlocks →
      before.blockMap blockId = true ∧ before.discardMap blockId = false

theorem mem_rangeBlocks {ranges : List (Nat × Nat)} {block : Nat} : block ∈ rangeBlocks ranges ↔
      ∃ range ∈ ranges, range.1 ≤ block ∧ block < range.1 + range.2 := by
  simp [rangeBlocks, mem_flatMap, mem_range'_1]

theorem length_rangeBlocks (ranges : List (Nat × Nat)) :
    (rangeBlocks ranges).length = (ranges.map Prod.snd).sum := by
  simp [rangeBlocks, length_flatMap]

section Allocations

variable {layout : VolumeLayout} {maps : BlockMaps} {wanted : Nat}

/-- The run that a search took is what is handed out. -/
theorem handedOut_of_took
    (whole : WholeBlocks layout) {scan : SeqScan} (took : Took layout maps wanted scan)
    (something : scan.curAlloced ≠ 0) :
    HandedOut layout maps scan.maps wanted (layout.handOut scan.startOut scan.curAlloced) := by
  have inside := took.inside something
  have blocks := whole.handOut_blocks (by omega) inside
  have total : ((layout.handOut scan.startOut scan.curAlloced).map Prod.snd).sum =
      scan.curAlloced := by
    rw [← length_rangeBlocks, blocks, length_map, length_range']
  have inRun : ∀ blockId, blockId < layout.numBlocks →
      ((∃ range ∈ layout.handOut scan.startOut scan.curAlloced,
          range.1 ≤ layout.volumeBlock blockId ∧ layout.volumeBlock blockId < range.1 + range.2) ↔
        scan.startOut ≤ blockId ∧ blockId < scan.startOut + scan.curAlloced) := by
    intro blockId isBlock
    rw [← mem_rangeBlocks, blocks, mem_map]
    constructor
    · rintro ⟨taken, mem, same⟩
      have bounds := mem_range'_1.mp mem
      rw [← whole.volumeBlock_injective (by omega) isBlock same]
      exact bounds
    · intro bounds
      exact ⟨blockId, mem_range'_1.mpr bounds, rfl⟩
  refine
    { atMost := by rw [total]; exact took.enough
      oneExtent := fun range mem => whole.handOut_oneExtent (by omega) mem
      disjoint := ?_
      bitsSet := ?_
      count := ?_ }
  · intro range mem blockId isBlock used within
    have bounds := (inRun blockId isBlock).mp ⟨range, mem, within⟩
    have free := took.free blockId bounds.1 bounds.2
    rw [used] at free
    simp at free
  · intro blockId
    rw [took.blockMap]
    by_cases written : scan.startOut ≤ blockId ∧ blockId < scan.startOut + scan.curAlloced
    · have isBlock : blockId < layout.numBlocks := by omega
      rw [setRange_of_mem written]
      simp only [true_iff]
      exact Or.inr ⟨isBlock, (inRun blockId isBlock).mpr written⟩
    · rw [setRange_of_not_mem written]
      constructor
      · exact Or.inl
      · rintro (used | ⟨isBlock, within⟩)
        · exact used
        · exact absurd ((inRun blockId isBlock).mp within) written
  · rw [took.blockMap, population_setRange_on took.free inside, total]

/-- An allocation hands out free blocks and no others. -/
theorem allocationSound (whole : WholeBlocks layout) (sound : MapsSound layout maps)
    (wants : 0 < wanted) :
    AllocationSound layout maps wanted (maps.tryAllocateSequentialBlocks layout wanted) := by
  have took := Took.tryGetSeqBlocks sound.cachedStart wanted
  simp only [tryAllocateSequentialBlocks]
  by_cases nothing : (maps.tryGetSeqBlocks layout wanted).curAlloced = 0
  · rw [if_pos nothing]
    by_cases waiting : 0 < maps.discardBlockWaiting
    · rw [if_pos waiting]
      by_contra noneWaiting
      have empty : population maps.discardMap layout.numBlocks = 0 := by
        rw [population_eq_zero_iff]
        intro block inside
        by_contra isWaiting
        exact noneWaiting ⟨block, inside, by simpa using isWaiting⟩
      rw [sound.discardBlockWaiting] at waiting
      omega
    · rw [if_neg waiting]
      intro blockId inside
      refine ⟨tryGetSeqBlocks_takes_nothing wants nothing blockId inside, ?_⟩
      have empty : population maps.discardMap layout.numBlocks = 0 := by
        rw [← sound.discardBlockWaiting]
        omega
      exact population_eq_zero_iff.mp empty blockId inside
  · rw [if_neg nothing]
    exact handedOut_of_took whole took nothing

end Allocations

section Held

variable {layout : VolumeLayout} {maps : BlockMaps}

theorem flatMap_words (words : Nat) :
    (List.range words).flatMap (fun word => (List.range 64).map (64 * word + ·)) =
      List.range (64 * words) := by
  induction words with
  | zero => rfl
  | succ words ih =>
    have lastWord : List.range (words + 1) = List.range words ++ [words] := range_succ
    rw [lastWord, flatMap_append, ih, Nat.mul_succ, range_add, flatMap_singleton]

/-- `ForEachHeldBlock` goes through the held blocks of the maps in order. -/
theorem heldBlocks_eq (sound : MapsSound layout maps) : maps.heldBlocks layout =
      ((List.range (64 * layout.mapWords)).filter fun block =>
        maps.blockMap block && !maps.discardMap block).map layout.volumeBlock := by
  rw [← flatMap_words, filter_flatMap, map_flatMap, heldBlocks]
  refine flatMap_congr ?_
  intro word _
  refine congrArg (List.map layout.volumeBlock) ?_
  rw [takeWhile_eq_self_iff]
  intro block mem
  have held := (mem_filter.mp mem).2
  simp only [Bool.and_eq_true] at held
  simpa using sound.inside block held.1

/-- A held block is set and not waiting for a discard. -/
theorem isBlockHeld_iff (whole : WholeBlocks layout) {block : Nat} :
    maps.isBlockHeld layout block = true ↔ ∃ blockId, blockId < layout.numBlocks ∧
        (maps.blockMap blockId = true ∧ maps.discardMap blockId = false) ∧
          layout.volumeBlock blockId = block := by
  constructor
  · intro held
    rw [isBlockHeld] at held
    split at held
    case h_1 => simp at held
    case h_2 extentNum found =>
      obtain ⟨start, atExtent, above, below⟩ := PlacedExtents.findExtent_some found
      have blockEq := (whole.mapBlock_inside atExtent ⟨above, by omega⟩).2
      simp only [Bool.and_eq_true, decide_eq_true_eq, Bool.not_eq_true'] at held
      exact ⟨_, held.1, ⟨held.2.2, held.2.1⟩, blockEq⟩
  · rintro ⟨blockId, inside, ⟨used, notWaiting⟩, rfl⟩
    rw [isBlockHeld, whole.findExtent_volumeBlock inside]
    simp only [whole.mapBlock_volumeBlock inside]
    simp [inside, used, notWaiting]

/-- `ForEachHeldBlock` visits every held block once, and nothing else. -/
theorem heldBlocks_exact (whole : WholeBlocks layout) (sound : MapsSound layout maps) :
    (maps.heldBlocks layout).Nodup ∧
      ∀ block, block ∈ maps.heldBlocks layout ↔ maps.isBlockHeld layout block = true := by
  rw [heldBlocks_eq sound]
  constructor
  · refine List.Nodup.map_on ?_ (nodup_range.filter _)
    intro first firstHeld second secondHeld same
    have firstUsed := (mem_filter.mp firstHeld).2
    have secondUsed := (mem_filter.mp secondHeld).2
    simp only [Bool.and_eq_true] at firstUsed secondUsed
    exact whole.volumeBlock_injective (sound.inside first firstUsed.1)
      (sound.inside second secondUsed.1) same
  · intro block
    rw [isBlockHeld_iff whole, mem_map]
    constructor
    · rintro ⟨blockId, mem, same⟩
      have held := (mem_filter.mp mem).2
      simp only [Bool.and_eq_true, Bool.not_eq_true'] at held
      exact ⟨blockId, sound.inside blockId held.1, held, same⟩
    · rintro ⟨blockId, inside, held, same⟩
      refine ⟨blockId, mem_filter.mpr ⟨mem_range.mpr ?_, ?_⟩, same⟩
      · rw [VolumeLayout.mapWords]
        omega
      · simp [held]

end Held

/-- In every interleaving of lock sections on a volume of whole extents: the counters are
the populations of their maps, a block that waits for a discard is in use, an allocation
hands out at most what was asked for, exactly the bits it sets, each range in one extent
and free before, `TDiskFull` means that no block is free and none waits, and the held
blocks are visited once each. -/
theorem allocator_keeps_held_blocks
    (layout : VolumeLayout) (whole : WholeBlocks layout) (state : VolumeState)
    (reached : EventRuns.Reaches (VolumeState.step layout) (VolumeState.Allowed layout)
      .new state) :
    state.maps.blocksUsed = population state.maps.blockMap layout.numBlocks ∧
      state.maps.discardBlockWaiting = population state.maps.discardMap layout.numBlocks ∧
      (∀ blockId, state.maps.discardMap blockId = true → state.maps.blockMap blockId = true) ∧
      (∀ wanted, 0 < wanted → AllocationSound layout state.maps wanted
          (state.maps.tryAllocateSequentialBlocks layout wanted)) ∧
      (state.maps.heldBlocks layout).Nodup ∧
      ∀ block, block ∈ state.maps.heldBlocks layout ↔
        state.maps.isBlockHeld layout block = true := by
  have sound := (VolumeSound.reaches whole.toPlacedExtents reached).maps
  exact ⟨sound.blocksUsed, sound.discardBlockWaiting, sound.discardSubset,
    fun wanted wants => allocationSound whole sound wants, heldBlocks_exact whole sound⟩

/-- Two extents of forty blocks, discarded eight blocks at a time. -/
def twoExtents : VolumeLayout where
  numBlocks := 80
  numBlocksPerExtent := 40
  spanBlocks := 40
  extentStarts := [100, 300]
  minDiscardAllocBlocks := 8
  blockMapBytesPerDiscardRange := 1
  highUtilization := fun used => decide (85 * 80 < 100 * used)

theorem wholeBlocks_twoExtents : WholeBlocks twoExtents where
  enough := Nat.le_refl _
  span := rfl
  blocks := rfl
  apart := by decide

/-- An allocation across both extents, a free and a round of the runner. -/
theorem allocator_keeps_held_blocks_twoExtents : ∃ state,
      EventRuns.run (VolumeState.step twoExtents) (VolumeState.Allowed twoExtents) .new
          [.allocate 70, .free 100 16, .collectDiscards, .releaseDiscard] =
        some state ∧
      state.maps.blocksUsed = 62 ∧
      population state.maps.blockMap 80 = 62 := by
  have runs :
      ((EventRuns.run (VolumeState.step twoExtents) (VolumeState.Allowed twoExtents) .new
        [.allocate 70, .free 100 16, .collectDiscards, .releaseDiscard]).map
          fun state => state.maps.blocksUsed) = some 62 := by
    decide +kernel
  obtain ⟨state, ran, used⟩ := Option.map_eq_some_iff.mp runs
  have counted := (allocator_keeps_held_blocks twoExtents wholeBlocks_twoExtents state
    (EventRuns.reaches_of_run ran)).1
  exact ⟨state, ran, used, counted.symm.trans used⟩

end Orly
