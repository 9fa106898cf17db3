import Orly.StripedVolumeLaws

namespace Orly

/-!
# Discards on a striped volume

The discard runner cuts the block map into ranges of one length from its beginning.
`DoDiscard` discards a range as one piece of the device of its first block, which is where
`DoStripe` stores its blocks only when no range crosses a stripe.
-/

open List BlockMaps

namespace StripedVolume

variable {volume : StripedVolume} {reopened : Bool} {extentStarts : List Nat}

theorem covers_singleton {range : DeviceRange} {device byte : Nat} : Covers [range] device byte ↔
      range.device = device ∧ range.offset ≤ byte ∧ byte < range.offset + range.count := by
  simp [Covers]

/-- A discard takes whole blocks of one device. -/
theorem covers_doDiscard {start count device byte : Nat} :
    Covers [volume.doDiscard (start, count)] device byte ↔ ∃ row,
        ((Stripes.place volume.physBlocksPerStripe volume.numLogicalExtent start).1 = device ∧
          (Stripes.place volume.physBlocksPerStripe volume.numLogicalExtent start).2 ≤ row ∧
          row < (Stripes.place volume.physBlocksPerStripe volume.numLogicalExtent start).2 +
            count) ∧
        InBlock row byte := by
  rw [covers_singleton]
  simp only [doDiscard, Stripes.place, InBlock]
  generalize start / volume.physBlocksPerStripe / volume.numLogicalExtent *
    volume.physBlocksPerStripe + start % volume.physBlocksPerStripe = firstRow
  constructor
  · rintro ⟨sameDevice, above, below⟩
    have rows : firstRow ≤ (byte - physicalBlockSize) / physicalBlockSize ∧
        (byte - physicalBlockSize) / physicalBlockSize < firstRow + count ∧
        physicalBlockSize + (byte - physicalBlockSize) / physicalBlockSize *
          physicalBlockSize ≤ byte ∧
        byte < physicalBlockSize +
          ((byte - physicalBlockSize) / physicalBlockSize + 1) * physicalBlockSize := by
      simp only [physicalBlockSize] at *
      omega
    exact ⟨_, ⟨sameDevice, rows.1, rows.2.1⟩, rows.2.2⟩
  · rintro ⟨row, ⟨sameDevice, rowAbove, rowBelow⟩, above, below⟩
    have firstLe := Nat.mul_le_mul_right physicalBlockSize rowAbove
    have lastLe : (row + 1) * physicalBlockSize ≤
        firstRow * physicalBlockSize + count * physicalBlockSize := by
      rw [← Nat.add_mul]
      exact Nat.mul_le_mul_right _ rowBelow
    exact ⟨sameDevice, by omega, by omega⟩

theorem inBlock_first (row : Nat) : InBlock row (physicalBlockSize + row * physicalBlockSize) := by
  simp only [InBlock, physicalBlockSize]
  omega

theorem InBlock.unique {first second byte : Nat} (inFirst : InBlock first byte)
    (inSecond : InBlock second byte) :
    first = second := by
  simp only [InBlock, physicalBlockSize] at inFirst inSecond
  omega

/-- The discard of a range is exact when its blocks are one piece of a device. -/
theorem Sized.discardsExactly_iff
    (sized : volume.Sized) (placed : volume.Placed extentStarts) {start count : Nat}
    (inside : start + count ≤ volume.numBlocks) :
    volume.DiscardsExactly reopened extentStarts (start, count) ↔
      Stripes.RunExact volume.physBlocksPerStripe volume.numLogicalExtent
        (volume.numBlocks / volume.numLogicalExtent) (volume.capacity / physicalBlockSize)
        start count := by
  have stored : ∀ device byte,
      (∃ blockId, start ≤ blockId ∧ blockId < start + count ∧
          volume.StoresBlock reopened extentStarts blockId device byte) ↔
        ∃ row, (∃ blockId, start ≤ blockId ∧ blockId < start + count ∧
            volume.blockPlace blockId = (device, row)) ∧ InBlock row byte := by
    intro device byte
    constructor
    · rintro ⟨blockId, above, below, stores⟩
      obtain ⟨sameDevice, inBlock⟩ :=
        (sized.storesBlock_iff placed (by omega) device byte).mp stores
      exact ⟨_, ⟨blockId, above, below, Prod.ext sameDevice rfl⟩, inBlock⟩
    · rintro ⟨row, ⟨blockId, above, below, isPlace⟩, inBlock⟩
      refine ⟨blockId, above, below, ?_⟩
      rw [sized.storesBlock_iff placed (by omega), isPlace]
      exact ⟨rfl, inBlock⟩
  constructor
  · intro exactly column row
    have atRow := exactly column (physicalBlockSize + row * physicalBlockSize)
    rw [covers_doDiscard, stored] at atRow
    constructor
    · intro inPiece
      obtain ⟨otherRow, isPlace, inBlock⟩ := atRow.mp ⟨row, inPiece, inBlock_first row⟩
      rw [inBlock.unique (inBlock_first row)] at isPlace
      exact isPlace
    · intro isPlace
      obtain ⟨otherRow, inPiece, inBlock⟩ := atRow.mpr ⟨row, isPlace, inBlock_first row⟩
      rw [inBlock.unique (inBlock_first row)] at inPiece
      exact inPiece
  · intro runExact device byte
    rw [covers_doDiscard, stored]
    exact exists_congr fun row => and_congr_left' (runExact device row)

end StripedVolume

/-- The ranges the runner is about to release are pieces of one cut of the block map. -/
def PendingRanges (layout : VolumeLayout) (state : VolumeState) : Prop :=
  ∀ range ∈ state.blocksFromVec, 0 < layout.discardRangeBytes ∧
      layout.minDiscardAllocBlocks < layout.numBlocks ∧
      ∃ index, 8 * layout.discardRangeBytes * (index + 1) ≤ layout.numBlocks ∧
        range = (8 * layout.discardRangeBytes * index, 8 * layout.discardRangeBytes)

namespace PendingRanges

variable {layout : VolumeLayout} {state next : VolumeState}

theorem collectDiscards (placed : PlacedExtents layout) (sound : VolumeSound layout state)
    (pending : PendingRanges layout state) (collected : state.collectDiscards layout = some next) :
    PendingRanges layout next := by
  rcases VolumeState.collectDiscards_cases collected with rfl | ⟨enough, someBytes, rfl⟩ | rfl
  · intro range mem
    simp at mem
  · intro range mem
    have waiting := sound.maps.discardBlockWaiting
    have atMost := BitRanges.population_le state.maps.discardMap layout.numBlocks
    have inside := (VolumeSound.fullRanges_waiting mem).1
    obtain ⟨index, _, rfl⟩ := mem_map.mp mem
    rw [← placed.blocks] at inside
    exact ⟨Nat.pos_of_ne_zero someBytes, by omega, index, by rwa [Nat.mul_succ], rfl⟩
  · exact pending

/-- One lock section keeps the pending ranges pieces of the cut. -/
theorem step (placed : PlacedExtents layout) (sound : VolumeSound layout state)
    (pending : PendingRanges layout state) {event : VolumeEvent}
    (stepped : state.step layout event = some next) :
    PendingRanges layout next := by
  cases event with
  | allocate numBlocks =>
    cases stepped
    exact pending
  | free | markUsed =>
    obtain ⟨maps, _, rfl⟩ := Option.map_eq_some_iff.mp stepped
    exact pending
  | collectDiscards =>
    rw [VolumeState.step] at stepped
    split at stepped
    case isTrue => exact pending.collectDiscards placed sound stepped
    case isFalse => simp at stepped
  | releaseDiscard =>
    rw [VolumeState.step, VolumeState.releaseDiscard] at stepped
    split at stepped
    case h_1 => simp at stepped
    case h_2 range rest isPending =>
      obtain ⟨maps, _, rfl⟩ := Option.map_eq_some_iff.mp stepped
      intro other mem
      exact pending other (by rw [isPending]; exact mem_cons_of_mem _ mem)

theorem reaches (placed : PlacedExtents layout)
    (reached : EventRuns.Reaches (VolumeState.step layout) (VolumeState.Allowed layout)
      .new state) :
    PendingRanges layout state := by
  induction reached with
  | refl => simp [PendingRanges, VolumeState.new]
  | tail before allowed stepped ih =>
    exact ih.step placed (VolumeSound.reaches placed before) stepped

end PendingRanges

/-- Every block below this one is in use and waits for a discard, and nothing else. -/
structure WaitingBelow (state : VolumeState) (limit : Nat) : Prop where
  used : ∀ blockId, state.maps.blockMap blockId = true ↔ blockId < limit
  waiting : ∀ blockId, state.maps.discardMap blockId = true ↔ blockId < limit
  nothingPending : state.blocksFromVec = []

section FillRuns

variable {layout : VolumeLayout}

/-- Marking a block and freeing it makes it wait for a discard. -/
theorem WaitingBelow.markAndFree (placed : PlacedExtents layout) {state : VolumeState} {limit : Nat}
    (below : WaitingBelow state limit) (inside : limit < layout.numBlocks) :
    ∃ next, EventRuns.Reaches (VolumeState.step layout) (VolumeState.Allowed layout) state next ∧
        WaitingBelow next (limit + 1) := by
  have found := placed.findExtent_volumeBlock inside
  have isBlock := placed.mapBlock_volumeBlock inside
  have unused : state.maps.blockMap limit ≠ true := by
    rw [Ne, below.used]
    exact Nat.lt_irrefl limit
  set marked : VolumeState :=
    { state with maps := state.maps.setBlockBuf layout true limit } with markedEq
  have marks : state.step layout (.markUsed (layout.volumeBlock limit) 1) = some marked := by
    rw [VolumeState.step, markBlockRangeUsed, found, Option.map_some, isBlock,
      markBlocks, if_neg (by push Not; exact ⟨unused, inside⟩)]
    rfl
  have markedUsed : ∀ blockId, marked.maps.blockMap blockId = true ↔ blockId < limit + 1 := by
    intro blockId
    rw [markedEq]
    by_cases same : blockId = limit
    · simp [same, setBlockBuf]
    · simp only [setBlockBuf, if_true, Function.update_of_ne same, below.used]
      omega
  have markedWaiting : marked.maps.discardMap limit = false := by
    have notWaiting : state.maps.discardMap limit ≠ true := by
      rw [Ne, below.waiting]
      exact Nat.lt_irrefl limit
    exact Bool.eq_false_iff.mpr notWaiting
  have isHeld : marked.maps.isBlockHeld layout (layout.volumeBlock limit) = true := by
    rw [isBlockHeld, found]
    simp only [isBlock]
    simp [inside, markedWaiting, markedUsed]
  set freed : VolumeState :=
    { marked with maps := marked.maps.writeDiscards true limit 1 } with freedEq
  have frees : marked.step layout (.free (layout.volumeBlock limit) 1) = some freed := by
    rw [VolumeState.step, freeSequentialBlocks, found, Option.map_some, isBlock, setDiscardRange_eq]
    rfl
  have allowed : marked.Allowed layout (.free (layout.volumeBlock limit) 1) := by
    intro block above inRange
    obtain rfl : block = layout.volumeBlock limit := by omega
    exact isHeld
  refine ⟨freed, (EventRuns.Reaches.refl.tail trivial marks).tail allowed frees, ?_⟩
  refine
    { used := markedUsed
      waiting := ?_
      nothingPending := below.nothingPending }
  intro blockId
  have before := below.waiting blockId
  simp only [freedEq, markedEq, writeDiscards, BitRanges.setRange]
  split
  case isTrue here =>
    simp only [true_iff]
    omega
  case isFalse elsewhere =>
    change state.maps.discardMap blockId = true ↔ _
    rw [before]
    omega

/-- A run in which every block comes to wait for a discard. -/
theorem exists_waitingBelow (placed : PlacedExtents layout) {limit : Nat}
    (inside : limit ≤ layout.numBlocks) :
    ∃ state, EventRuns.Reaches (VolumeState.step layout) (VolumeState.Allowed layout) .new state ∧
        WaitingBelow state limit := by
  induction limit with
  | zero =>
    refine ⟨.new, .refl, ?_⟩
    constructor <;> simp [VolumeState.new, BlockMaps.new]
  | succ limit ih =>
    obtain ⟨state, reached, below⟩ := ih (by omega)
    obtain ⟨next, goesOn, belowNext⟩ := below.markAndFree placed (by omega)
    exact ⟨next, reached.trans goesOn, belowNext⟩

/-- A run after which all ranges of the cut are pending. -/
theorem exists_allPending (placed : PlacedExtents layout) (someBytes : 0 < layout.discardRangeBytes)
    (someRange : 8 * layout.discardRangeBytes ≤ layout.numBlocks)
    (enough : layout.minDiscardAllocBlocks < layout.numBlocks) :
    ∃ state, EventRuns.Reaches (VolumeState.step layout) (VolumeState.Allowed layout) .new state ∧
        ∀ index, 8 * layout.discardRangeBytes * (index + 1) ≤ layout.numBlocks →
          (8 * layout.discardRangeBytes * index, 8 * layout.discardRangeBytes) ∈
            state.blocksFromVec := by
  obtain ⟨state, reached, below⟩ := exists_waitingBelow placed (Nat.le_refl layout.numBlocks)
  have sound := VolumeSound.reaches placed reached
  have allWaiting : state.maps.discardBlockWaiting = layout.numBlocks := by
    rw [sound.maps.discardBlockWaiting]
    exact BitRanges.population_of_all fun blockId => (below.waiting blockId).mpr
  have found : ∀ index, 8 * layout.discardRangeBytes * (index + 1) ≤ layout.numBlocks →
      (8 * layout.discardRangeBytes * index, 8 * layout.discardRangeBytes) ∈
        state.maps.fullRanges layout layout.discardRangeBytes := by
    intro index inside
    refine mem_map.mpr ⟨index, mem_filter.mpr ⟨mem_range.mpr ?_, ?_⟩, rfl⟩
    · rw [← placed.blocks, ← Nat.succ_le_iff, Nat.le_div_iff_mul_le someBytes,
        Nat.le_div_iff_mul_le (by decide)]
      calc
        (index + 1) * layout.discardRangeBytes * 8 =
            8 * layout.discardRangeBytes * (index + 1) := by ring
        _ ≤ layout.numBlocks := inside
    · refine all_eq_true.mpr ?_
      intro bit mem
      have isBit := mem_range.mp mem
      rw [below.waiting]
      rw [Nat.mul_succ] at inside
      omega
  have notEmpty : state.maps.fullRanges layout layout.discardRangeBytes ≠ [] :=
    ne_nil_of_mem (found 0 (by omega))
  have collects : state.step layout .collectDiscards =
      some ⟨state.maps, state.maps.fullRanges layout layout.discardRangeBytes⟩ := by
    rw [VolumeState.step, if_pos below.nothingPending]
    simp only [VolumeState.collectDiscards]
    rw [if_pos (by omega), if_neg (by omega), if_neg (fun both => notEmpty both.1)]
  have allowed : state.Allowed layout .collectDiscards := trivial
  exact ⟨_, reached.tail allowed collects, found⟩

end FillRuns

namespace StripedVolume

variable {volume : StripedVolume} {reopened : Bool} {extentStarts : List Nat}

/-- The blocks of a range of the discard runner. -/
def discardRangeBlocks (volume : StripedVolume) (reopened : Bool) : Nat :=
  8 * (volume.layout reopened []).discardRangeBytes

/-- Either no range is ever collected, or ranges are aligned with the stripes: the volume
is not replicated, and has one device or stripes of whole ranges.  One size of replicated
volume has its two ranges in place by accident. -/
def DiscardsAligned (volume : StripedVolume) (reopened : Bool) : Prop :=
  volume.discardRangeBlocks reopened = 0 ∨ volume.numBlocks < volume.discardRangeBlocks reopened ∨
    volume.numBlocks ≤ (volume.layout reopened []).minDiscardAllocBlocks ∨
    (volume.replicationFactor = 1 ∧ (volume.numLogicalExtent = 1 ∨
        volume.discardRangeBlocks reopened ∣ volume.physBlocksPerStripe)) ∨
    (volume.replicationFactor = 2 ∧ volume.numLogicalExtent = 2 ∧
      volume.capacity = 2 * volume.bytesPerStripe ∧
      volume.discardRangeBlocks reopened < volume.physBlocksPerStripe ∧
      2 * volume.physBlocksPerStripe < 3 * volume.discardRangeBlocks reopened)

instance (volume : StripedVolume) (reopened : Bool) :
    Decidable (volume.DiscardsAligned reopened) := by
  unfold DiscardsAligned
  infer_instance

section

variable (sized : volume.Sized)

include sized

theorem discardRangeBlocks_le (reopened : Bool) :
    volume.discardRangeBlocks reopened ≤ volume.physBlocksPerStripe := by
  obtain ⟨eights, stripeEq⟩ := sized.stripeEight
  have bytes : (volume.layout reopened []).discardRangeBytes ≤ volume.physBlocksPerStripe / 8 :=
    Nat.min_le_left _ _
  rw [discardRangeBlocks]
  omega

theorem Sized.numBlocks_eq_extents :
    volume.numLogicalExtent * (volume.numBlocks / volume.numLogicalExtent) = volume.numBlocks :=
  Nat.mul_div_cancel' (Nat.dvd_of_mod_eq_zero sized.wholeExtents)

/-- Without replicas all blocks of the extents are counted. -/
theorem Sized.counted_eq_span (single : volume.replicationFactor = 1) :
    volume.numBlocks / volume.numLogicalExtent = volume.capacity / physicalBlockSize := by
  rw [sized.numBlocks_eq, single, Nat.div_one]
  exact Nat.mul_div_cancel_left _ sized.extents

/-- With replicas at most half of the blocks of the extents are counted. -/
theorem Sized.counted_half (replicated : 2 ≤ volume.replicationFactor) :
    2 * (volume.numBlocks / volume.numLogicalExtent) ≤ volume.capacity / physicalBlockSize := by
  refine Nat.le_of_mul_le_mul_left ?_ sized.extents
  have groups : 2 * (volume.numLogicalExtent / volume.replicationFactor) ≤
      volume.numLogicalExtent :=
    (Nat.mul_le_mul_right _ replicated).trans (Nat.mul_div_le _ _)
  calc
    volume.numLogicalExtent * (2 * (volume.numBlocks / volume.numLogicalExtent)) =
        2 * volume.numBlocks := by rw [Nat.mul_left_comm, sized.numBlocks_eq_extents]
    _ = 2 * (volume.numLogicalExtent / volume.replicationFactor) *
          (volume.capacity / physicalBlockSize) := by rw [sized.numBlocks_eq, Nat.mul_assoc]
    _ ≤ volume.numLogicalExtent * (volume.capacity / physicalBlockSize) :=
        Nat.mul_le_mul_right _ groups

/-- When the ranges of the runner are one piece of a device each. -/
theorem Sized.runs_exact_iff {count : Nat} (countPos : 0 < count)
    (fits : count ≤ volume.physBlocksPerStripe) (someRange : count ≤ volume.numBlocks) :
    (∀ index, count * (index + 1) ≤ volume.numBlocks →
        Stripes.RunExact volume.physBlocksPerStripe volume.numLogicalExtent
          (volume.numBlocks / volume.numLogicalExtent)
          (volume.capacity / physicalBlockSize) (count * index) count) ↔
      (volume.replicationFactor = 1 ∧
          (volume.numLogicalExtent = 1 ∨ count ∣ volume.physBlocksPerStripe)) ∨
        (volume.replicationFactor = 2 ∧ volume.numLogicalExtent = 2 ∧
          volume.capacity = 2 * volume.bytesPerStripe ∧
          count < volume.physBlocksPerStripe ∧
          2 * volume.physBlocksPerStripe < 3 * count) := by
  have units : volume.physBlocksPerStripe ∣ volume.capacity / physicalBlockSize := by
    obtain ⟨stripes, spanEq⟩ := sized.span_stripes
    exact ⟨stripes, spanEq.trans (Nat.mul_comm _ _)⟩
  have total := sized.numBlocks_eq_extents
  have replicated := sized.replicated
  by_cases single : volume.replicationFactor = 1
  · rw [sized.counted_eq_span single] at total ⊢
    rw [← total] at someRange ⊢
    rw [Stripes.runs_exact_whole_iff sized.stripePos countPos fits units someRange]
    simp [single]
  · have several : 2 ≤ volume.replicationFactor := by omega
    have groups : 0 < volume.numLogicalExtent / volume.replicationFactor := by
      rw [sized.numBlocks_eq] at someRange
      exact Nat.pos_of_mul_pos_right (Nat.lt_of_lt_of_le countPos someRange)
    have enoughDevices : volume.replicationFactor ≤ volume.numLogicalExtent :=
      (Nat.div_pos_iff.mp groups).2
    have twoColumns : volume.numLogicalExtent = 2 →
        2 * (volume.numBlocks / volume.numLogicalExtent) = volume.capacity / physicalBlockSize := by
      intro isTwo
      have bothTwo : volume.replicationFactor = 2 := by omega
      have counted := sized.numBlocks_eq
      rw [isTwo] at total counted
      rw [bothTwo, Nat.div_self (by decide), Nat.one_mul] at counted
      rw [isTwo, total, counted]
    have spanIff : volume.capacity / physicalBlockSize = 2 * volume.physBlocksPerStripe ↔
        volume.capacity = 2 * volume.bytesPerStripe := by
      rw [sized.bytes, ← Nat.mul_assoc]
      constructor
      · intro spanEq
        rw [sized.capacity_blocks, spanEq]
      · intro capacityEq
        rw [capacityEq, Nat.mul_div_cancel _ (by decide)]
    have libraryIff := Stripes.runs_exact_partial_iff sized.stripePos countPos fits units
      (sized.counted_half several) (by omega) twoColumns (by rwa [total])
    rw [total] at libraryIff
    rw [libraryIff, spanIff]
    constructor
    · rintro ⟨isTwo, sizes⟩
      exact Or.inr ⟨by omega, isTwo, sizes⟩
    · rintro (⟨isSingle, _⟩ | ⟨_, sizes⟩)
      · exact absurd isSingle single
      · exact sizes

/-- No two blocks of the maps share a byte of a device. -/
theorem Sized.storesBlock_injective
    (placed : volume.Placed extentStarts) {first second device byte : Nat}
    (firstInside : first < volume.numBlocks) (secondInside : second < volume.numBlocks)
    (firstStored : volume.StoresBlock reopened extentStarts first device byte)
    (secondStored : volume.StoresBlock reopened extentStarts second device byte) :
    first = second := by
  have extents : PlacedExtents (volume.layout reopened extentStarts) := sized.placedExtents placed
  obtain ⟨firstDevice, firstRow⟩ :=
    (sized.storesBlock_iff placed firstInside device byte).mp firstStored
  obtain ⟨secondDevice, secondRow⟩ :=
    (sized.storesBlock_iff placed secondInside device byte).mp secondStored
  have samePlace : volume.blockPlace first = volume.blockPlace second :=
    Prod.ext (firstDevice.trans secondDevice.symm) (firstRow.unique secondRow)
  have sameLine := Stripes.place_injective sized.stripePos samePlace
  exact Stripes.spread_injective (extents.blocksPerExtent_pos firstInside) extents.enough sameLine

end

/-- What is asked of the discards on a striped volume, in every run: a collected range is
discarded exactly where its blocks are stored, no other block loses a byte, and `DoStripe`
is one to one and stays inside the capacity of the devices. -/
structure DiscardsSafely (volume : StripedVolume) (reopened : Bool)
    (extentStarts : List Nat) : Prop where
  exactly : ∀ state, EventRuns.Reaches (VolumeState.step (volume.layout reopened extentStarts))
      (VolumeState.Allowed (volume.layout reopened extentStarts)) .new state →
    ∀ range ∈ state.blocksFromVec, volume.DiscardsExactly reopened extentStarts range
  othersKept : ∀ state, EventRuns.Reaches (VolumeState.step (volume.layout reopened extentStarts))
      (VolumeState.Allowed (volume.layout reopened extentStarts)) .new state →
    ∀ range ∈ state.blocksFromVec, ∀ blockId, blockId < volume.numBlocks →
      state.maps.discardMap blockId = false →
      ∀ device byte, volume.StoresBlock reopened extentStarts blockId device byte →
        ¬ Covers [volume.doDiscard range] device byte
  oneToOne : ∀ first second device byte, volume.StoresByte extentStarts first device byte →
    volume.StoresByte extentStarts second device byte → first = second
  insideCapacity : ∀ offset device byte, volume.StoresByte extentStarts offset device byte →
      device < volume.numLogicalExtent ∧ physicalBlockSize ≤ byte ∧
        byte < physicalBlockSize + volume.capacity

theorem Sized.discardsExactly_of_aligned
    (sized : volume.Sized) (placed : volume.Placed extentStarts)
    (aligned : volume.DiscardsAligned reopened) {state : VolumeState}
    (reached : EventRuns.Reaches (VolumeState.step (volume.layout reopened extentStarts))
      (VolumeState.Allowed (volume.layout reopened extentStarts)) .new state) {range : Nat × Nat}
    (mem : range ∈ state.blocksFromVec) :
    volume.DiscardsExactly reopened extentStarts range := by
  have extents : PlacedExtents (volume.layout reopened extentStarts) := sized.placedExtents placed
  obtain ⟨someBytes, enough, index, inside, rfl⟩ := PendingRanges.reaches extents reached range mem
  change volume.discardRangeBlocks reopened * (index + 1) ≤ volume.numBlocks at inside
  change (volume.layout reopened []).minDiscardAllocBlocks < volume.numBlocks at enough
  have countPos : 0 < volume.discardRangeBlocks reopened := Nat.mul_pos (by decide) someBytes
  have someRange : volume.discardRangeBlocks reopened ≤ volume.numBlocks :=
    (Nat.le_mul_of_pos_right _ (Nat.succ_pos index)).trans inside
  have pieces : ∀ index, volume.discardRangeBlocks reopened * (index + 1) ≤ volume.numBlocks → _ :=
    (sized.runs_exact_iff countPos (discardRangeBlocks_le sized reopened) someRange).mpr (by
      rcases aligned with none | few | never | aligned
      · omega
      · omega
      · omega
      · exact aligned)
  have fits : volume.discardRangeBlocks reopened * index +
      volume.discardRangeBlocks reopened ≤ volume.numBlocks := by
    rwa [← Nat.mul_succ]
  exact (sized.discardsExactly_iff placed fits).mpr (pieces index inside)

theorem Sized.aligned_of_discardsExactly
    (sized : volume.Sized) (placed : volume.Placed extentStarts)
    (exactly : ∀ state, EventRuns.Reaches (VolumeState.step (volume.layout reopened extentStarts))
        (VolumeState.Allowed (volume.layout reopened extentStarts)) .new state →
      ∀ range ∈ state.blocksFromVec, volume.DiscardsExactly reopened extentStarts range) :
    volume.DiscardsAligned reopened := by
  have extents : PlacedExtents (volume.layout reopened extentStarts) := sized.placedExtents placed
  by_cases none : volume.discardRangeBlocks reopened = 0
  · exact Or.inl none
  by_cases few : volume.numBlocks < volume.discardRangeBlocks reopened
  · exact Or.inr (Or.inl few)
  by_cases never : volume.numBlocks ≤ (volume.layout reopened []).minDiscardAllocBlocks
  · exact Or.inr (Or.inr (Or.inl never))
  refine Or.inr (Or.inr (Or.inr ?_))
  have someBytes : 0 < (volume.layout reopened extentStarts).discardRangeBytes :=
    Nat.pos_of_mul_pos_left (Nat.pos_of_ne_zero none)
  obtain ⟨state, reached, allPending⟩ :=
    exists_allPending extents someBytes (Nat.not_lt.mp few) (Nat.not_le.mp never)
  refine (sized.runs_exact_iff (Nat.pos_of_ne_zero none)
    (discardRangeBlocks_le sized reopened) (Nat.not_lt.mp few)).mp ?_
  intro index inside
  have fits : volume.discardRangeBlocks reopened * index +
      volume.discardRangeBlocks reopened ≤ volume.numBlocks := by
    rwa [← Nat.mul_succ]
  exact (sized.discardsExactly_iff placed fits).mp
    (exactly state reached _ (allPending index inside))

end StripedVolume

/-- On a striped volume that `CreateVolume` accepts, discards are exact in every run if
and only if the ranges of the runner are aligned with the stripes. -/
theorem discardsSafely_iff_aligned (request : VolumeRequest) (volume : StripedVolume)
    (accepted : createVolume request = some volume) (reopened : Bool) (extentStarts : List Nat)
    (placed : volume.Placed extentStarts) :
    volume.DiscardsSafely reopened extentStarts ↔ volume.DiscardsAligned reopened := by
  have sized := sized_of_createVolume accepted
  constructor
  · intro safely
    exact sized.aligned_of_discardsExactly placed safely.exactly
  · intro aligned
    refine
      { exactly := fun state reached range mem =>
          sized.discardsExactly_of_aligned placed aligned reached mem
        othersKept := ?_
        oneToOne := fun _ _ _ _ first second => sized.storesByte_injective first second
        insideCapacity := fun _ _ _ stored => sized.storesByte_inside placed stored }
    intro state reached range mem blockId isBlock notWaiting device byte stored covered
    have sound := VolumeSound.reaches (sized.placedExtents placed) reached
    obtain ⟨other, above, below, otherStored⟩ :=
      (sized.discardsExactly_of_aligned placed aligned reached mem device byte).mp covered
    have otherInside : other < volume.numBlocks :=
      Nat.lt_of_lt_of_le below (sound.pendingInside range mem)
    have same := sized.storesBlock_injective placed isBlock otherInside stored otherStored
    have waiting := sound.pendingWaiting range mem other above below
    rw [← same, notWaiting] at waiting
    contradiction

/-- Two devices that discard eight blocks at a time, with stripes of sixteen blocks. -/
def alignedRequest : VolumeRequest where
  devices := [⟨1, 524288, 6272⟩, ⟨1, 524288, 6272⟩]
  numDevices := 2
  replicationFactor := 1
  stripeSizeInKb := 1024

/-- Stripes of whole discard units are discarded safely. -/
theorem discardsSafely_alignedRequest : ∃ volume, createVolume alignedRequest = some volume ∧
      volume.DiscardsSafely true [0, 48] := by
  refine ⟨⟨3145728, 1, 2, 2048, 8⟩, by decide, ?_⟩
  refine (discardsSafely_iff_aligned alignedRequest _ (by decide) true [0, 48]
    ⟨rfl, by decide⟩).mpr (by decide)

/-- Two devices that discard twelve blocks at a time, with stripes of twenty-four. -/
def coarseRequest : VolumeRequest where
  devices := [⟨1, 786432, 6272⟩, ⟨1, 786432, 6272⟩]
  numDevices := 2
  replicationFactor := 1
  stripeSizeInKb := 1536

def coarseVolume : StripedVolume := ⟨3145728, 1, 2, 3072, 12⟩

/-- With all blocks allocated and sixteen freed, the range of the freed blocks crosses a
stripe, and its discard takes a block that is held. -/
theorem doDiscard_takes_held_block : createVolume coarseRequest = some coarseVolume ∧
      coarseVolume.Placed [0, 48] ∧
      (∃ state, EventRuns.run (VolumeState.step (coarseVolume.layout false [0, 48]))
            (VolumeState.Allowed (coarseVolume.layout false [0, 48])) .new
            [.allocate 96, .free 16 16, .collectDiscards] = some state ∧
          state.blocksFromVec = [(16, 16)] ∧
          state.maps.isBlockHeld (coarseVolume.layout false [0, 48]) 48 = true) ∧
      (coarseVolume.layout false [0, 48]).volumeBlock 48 = 48 ∧
      coarseVolume.StoresBlock false [0, 48] 48 0 (25 * physicalBlockSize) ∧
      Covers [coarseVolume.doDiscard (16, 16)] 0 (25 * physicalBlockSize) ∧
      ¬ coarseVolume.DiscardsSafely false [0, 48] := by
  have accepted : createVolume coarseRequest = some coarseVolume := by decide
  have sized := sized_of_createVolume accepted
  have placed : coarseVolume.Placed [0, 48] := ⟨rfl, by decide⟩
  have notAligned : ¬ coarseVolume.DiscardsAligned false := by decide
  have runs :
      (EventRuns.run (VolumeState.step (coarseVolume.layout false [0, 48]))
          (VolumeState.Allowed (coarseVolume.layout false [0, 48])) .new
          [.allocate 96, .free 16 16, .collectDiscards]).map
        (fun state => (state.blocksFromVec,
          state.maps.isBlockHeld (coarseVolume.layout false [0, 48]) 48)) =
      some ([(16, 16)], true) := by
    decide +kernel
  obtain ⟨state, ran, facts⟩ := Option.map_eq_some_iff.mp runs
  rw [Prod.mk.injEq] at facts
  refine ⟨accepted, placed, ⟨state, ran, facts⟩, rfl, ?_, ?_, ?_⟩
  · rw [sized.storesBlock_iff placed (by decide)]
    exact ⟨by decide, by decide, by decide⟩
  · rw [StripedVolume.covers_singleton]
    decide
  · intro safely
    exact notAligned (sized.aligned_of_discardsExactly placed safely.exactly)

end Orly
