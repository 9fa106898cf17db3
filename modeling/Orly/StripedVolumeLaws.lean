import Orly.StripedVolume

namespace Orly

/-!
# Where a striped volume stores its blocks

`DoStripe` deals the bytes of a volume to the devices in turn, one to one and inside
their capacity.  A block of the maps lies in one stripe, at the place that the rule of
the stripes gives to its block of the volume.
-/

/-- What `CreateVolume` makes sure of. -/
structure StripedVolume.Sized (volume : StripedVolume) : Prop where
  bytes : volume.bytesPerStripe = volume.physBlocksPerStripe * physicalBlockSize
  stripeEight : 8 ∣ volume.physBlocksPerStripe
  stripePos : 0 < volume.physBlocksPerStripe
  capacity : ∃ stripes, volume.capacity = stripes * volume.bytesPerStripe
  replicated : 0 < volume.replicationFactor
  extents : 0 < volume.numLogicalExtent
  wholeExtents : volume.numBlocks % volume.numLogicalExtent = 0

theorem sized_of_createVolume {request : VolumeRequest} {volume : StripedVolume}
    (accepted : createVolume request = some volume) :
    volume.Sized := by
  simp only [createVolume] at accepted
  split at accepted
  case h_1 => simp at accepted
  case h_2 supported discardGran _ =>
    simp only [Option.ite_none_left_eq_some] at accepted
    obtain ⟨_, _, _, someDevices, replicated, evenly, eightBlocks, someStripe, _, whole,
      volumeEq⟩ := accepted
    rw [not_not] at evenly eightBlocks whole
    obtain ⟨eights, stripeBytes⟩ := Nat.dvd_of_mod_eq_zero eightBlocks
    rw [stripeBytes] at volumeEq someStripe whole
    have logicalBlocks : logicalBlockSize ∣ physicalBlockSize * 8 * eights :=
      ⟨128 * 8 * eights, by simp only [logicalBlockSize, physicalBlockSize]; ring⟩
    have bytesPerStripe : volume.bytesPerStripe = physicalBlockSize * 8 * eights := by
      rw [← Option.some.inj volumeEq]
      exact Nat.div_mul_cancel logicalBlocks
    have blocksPerStripe : volume.physBlocksPerStripe = 8 * eights := by
      rw [StripedVolume.physBlocksPerStripe, bytesPerStripe, physicalBlockSize]
      omega
    refine
      { bytes := by rw [bytesPerStripe, blocksPerStripe]; ring
        stripeEight := ⟨eights, blocksPerStripe⟩
        stripePos := by
          rw [blocksPerStripe]
          have nonzero : eights ≠ 0 := fun none => someStripe (by rw [none, Nat.mul_zero])
          omega
        capacity := ?_
        replicated := ?_
        extents := ?_
        wholeExtents := ?_ }
    · rw [bytesPerStripe, ← Option.some.inj volumeEq]
      exact ⟨_, Nat.div_mul_cancel (logicalBlocks.mul_left _)⟩
    · rw [← Option.some.inj volumeEq]
      exact Nat.pos_of_ne_zero replicated
    · rw [← Option.some.inj volumeEq]
      exact Nat.div_pos (Nat.le_of_dvd (Nat.pos_of_ne_zero someDevices)
        (Nat.dvd_of_mod_eq_zero evenly)) (Nat.pos_of_ne_zero replicated)
    · rw [← Option.some.inj volumeEq]
      exact whole

namespace StripedVolume

variable {volume : StripedVolume}

/-- `DoStripe` stores the byte at an offset of the volume manager here. -/
def StoresByte (volume : StripedVolume) (extentStarts : List Nat)
    (offset device byte : Nat) : Prop :=
  ∃ ranges, volume.doStripe extentStarts offset 1 = some ranges ∧ Covers ranges device byte

/-- The rule of the stripes for one byte of the volume. -/
def StoresPosition (volume : StripedVolume) (position device byte : Nat) : Prop :=
  physicalBlockSize ≤ byte ∧ Stripes.place volume.bytesPerStripe volume.numLogicalExtent position =
      (device, byte - physicalBlockSize)

theorem Sized.bytesPerStripe_pos (sized : volume.Sized) : 0 < volume.bytesPerStripe := by
  rw [sized.bytes]
  exact Nat.mul_pos sized.stripePos (by decide)

variable {device byte : Nat} {extentStarts : List Nat}

theorem covers_cons {range : DeviceRange} {ranges : List DeviceRange} :
    Covers (range :: ranges) device byte ↔
      (range.device = device ∧ range.offset ≤ byte ∧ byte < range.offset + range.count) ∨
        Covers ranges device byte := by
  simp [Covers]

/-- Some bytes of one stripe are stored next to each other. -/
theorem covers_oneStripe {curOffset curBytes : Nat}
    (within : curOffset % volume.bytesPerStripe + curBytes ≤ volume.bytesPerStripe) :
    (curOffset / volume.bytesPerStripe % volume.numLogicalExtent = device ∧ physicalBlockSize +
            (curOffset / volume.bytesPerStripe / volume.numLogicalExtent *
              volume.bytesPerStripe + curOffset % volume.bytesPerStripe) ≤ byte ∧
        byte < physicalBlockSize +
            (curOffset / volume.bytesPerStripe / volume.numLogicalExtent *
              volume.bytesPerStripe + curOffset % volume.bytesPerStripe) + curBytes) ↔
      ∃ offset < curBytes, volume.StoresPosition (curOffset + offset) device byte := by
  constructor
  · rintro ⟨sameDevice, above, below⟩
    obtain ⟨offset, inside, placed⟩ : ∃ offset < curBytes,
        Stripes.place volume.bytesPerStripe volume.numLogicalExtent (curOffset + offset) =
          (device, byte - physicalBlockSize) := by
      refine (Stripes.place_run within).mp ⟨sameDevice, ?_⟩
      simp only [Stripes.place]
      omega
    exact ⟨offset, inside, by omega, placed⟩
  · rintro ⟨offset, inside, above, placed⟩
    obtain ⟨sameDevice, rowAbove, rowBelow⟩ :=
      (Stripes.place_run within).mpr ⟨offset, inside, placed⟩
    simp only [Stripes.place] at rowAbove rowBelow
    exact ⟨sameDevice, by omega, by omega⟩

section

variable (sized : volume.Sized)

include sized

/-- The requests of `DoStripe` are for the places of the bytes. -/
theorem Sized.covers_stripeLoop {fuel curOffset bytesToWrite : Nat} (enough : bytesToWrite ≤ fuel)
    (device byte : Nat) :
    Covers (volume.stripeLoop fuel curOffset bytesToWrite) device byte ↔
      ∃ offset < bytesToWrite, volume.StoresPosition (curOffset + offset) device byte := by
  induction fuel generalizing curOffset bytesToWrite with
  | zero =>
    obtain rfl : bytesToWrite = 0 := by omega
    simp [stripeLoop, Covers]
  | succ fuel ih =>
    rw [stripeLoop]
    split
    case isTrue done => simp [Covers, done]
    case isFalse more =>
      have within := Nat.mod_lt curOffset sized.bytesPerStripe_pos
      dsimp only
      generalize curEq :
        min (volume.bytesPerStripe - curOffset % volume.bytesPerStripe) bytesToWrite = curBytes
      have rest : bytesToWrite - curBytes ≤ fuel := by omega
      have fits : curOffset % volume.bytesPerStripe + curBytes ≤ volume.bytesPerStripe := by
        omega
      rw [covers_cons, ih rest]
      dsimp only
      rw [covers_oneStripe fits]
      constructor
      · rintro (⟨offset, inside, stored⟩ | ⟨offset, inside, stored⟩)
        · exact ⟨offset, by omega, stored⟩
        · exact ⟨curBytes + offset, by omega, by rwa [← Nat.add_assoc]⟩
      · rintro ⟨offset, inside, stored⟩
        by_cases first : offset < curBytes
        · exact Or.inl ⟨offset, first, stored⟩
        · refine Or.inr ⟨offset - curBytes, by omega, ?_⟩
          rwa [Nat.add_assoc, Nat.add_sub_cancel' (by omega)]

/-- No two bytes of the volume are stored at one place. -/
theorem Sized.storesPosition_injective {first second : Nat}
    (firstStored : volume.StoresPosition first device byte)
    (secondStored : volume.StoresPosition second device byte) :
    first = second :=
  Stripes.place_injective sized.bytesPerStripe_pos (firstStored.2.trans secondStored.2.symm)

/-- The bytes of the extents are stored inside the capacity of the devices. -/
theorem Sized.storesPosition_inside {position : Nat}
    (inside : position < volume.numLogicalExtent * volume.capacity)
    (stored : volume.StoresPosition position device byte) :
    device < volume.numLogicalExtent ∧ physicalBlockSize ≤ byte ∧
      byte < physicalBlockSize + volume.capacity := by
  obtain ⟨stripes, capacityEq⟩ := sized.capacity
  rw [capacityEq] at inside
  have bounds := Stripes.place_lt sized.bytesPerStripe_pos inside
  rw [stored.2, ← capacityEq] at bounds
  have above := stored.1
  dsimp only at bounds
  exact ⟨bounds.1, above, by omega⟩

/-- A request of `DoStripe` is for the places of its bytes, which lie in one extent. -/
theorem Sized.covers_doStripe {offset nbytes : Nat} {ranges : List DeviceRange}
    (striped : volume.doStripe extentStarts offset nbytes = some ranges) :
    ∃ extentNum start, extentStarts[extentNum]? = some start ∧ start * physicalBlockSize ≤ offset ∧
        offset + nbytes ≤ start * physicalBlockSize + volume.capacity ∧
        ∀ device byte, Covers ranges device byte ↔ ∃ index < nbytes, volume.StoresPosition
            (extentNum * volume.capacity + (offset - start * physicalBlockSize) + index)
            device byte := by
  obtain ⟨extentNum, found, rfl⟩ := Option.map_eq_some_iff.mp striped
  obtain ⟨bound, holds, _⟩ := List.findIdx?_eq_some_iff_getElem.mp found
  have contained := of_decide_eq_true holds
  have atExtent := List.getElem?_eq_getElem bound
  refine ⟨extentNum, _, atExtent, contained.1, contained.2, ?_⟩
  intro device byte
  rw [List.getD_eq_getElem?_getD, atExtent, Option.getD_some]
  exact sized.covers_stripeLoop (Nat.le_refl _) device byte

/-- `DoStripe` takes the bytes of the volume one to one to bytes of the devices. -/
theorem Sized.storesByte_injective {first second : Nat}
    (firstStored : volume.StoresByte extentStarts first device byte)
    (secondStored : volume.StoresByte extentStarts second device byte) :
    first = second := by
  obtain ⟨firstRanges, firstStriped, firstCovers⟩ := firstStored
  obtain ⟨secondRanges, secondStriped, secondCovers⟩ := secondStored
  obtain ⟨firstExtent, firstStart, atFirst, firstAbove, firstBelow, firstPlaces⟩ :=
    sized.covers_doStripe firstStriped
  obtain ⟨secondExtent, secondStart, atSecond, secondAbove, secondBelow, secondPlaces⟩ :=
    sized.covers_doStripe secondStriped
  obtain ⟨firstIndex, firstZero, firstPlace⟩ := (firstPlaces device byte).mp firstCovers
  obtain ⟨secondIndex, secondZero, secondPlace⟩ := (secondPlaces device byte).mp secondCovers
  have samePosition := sized.storesPosition_injective firstPlace secondPlace
  rw [Nat.lt_one_iff.mp firstZero, Nat.lt_one_iff.mp secondZero] at samePosition
  obtain ⟨sameExtent, sameOffset⟩ := Stripes.unit_unique samePosition (by omega) (by omega)
  rw [sameExtent, atSecond] at atFirst
  have sameStart := Option.some.inj atFirst
  rw [sameStart] at secondAbove sameOffset
  omega

/-- `DoStripe` stays inside the capacity of the devices. -/
theorem Sized.storesByte_inside (placed : volume.Placed extentStarts) {offset : Nat}
    (stored : volume.StoresByte extentStarts offset device byte) :
    device < volume.numLogicalExtent ∧ physicalBlockSize ≤ byte ∧
      byte < physicalBlockSize + volume.capacity := by
  obtain ⟨ranges, striped, covers⟩ := stored
  obtain ⟨extentNum, start, atExtent, above, below, places⟩ := sized.covers_doStripe striped
  obtain ⟨index, isFirst, stored⟩ := (places device byte).mp covers
  obtain ⟨bound, _⟩ := List.getElem?_eq_some_iff.mp atExtent
  rw [placed.extents] at bound
  refine sized.storesPosition_inside ?_ stored
  calc
    extentNum * volume.capacity + (offset - start * physicalBlockSize) + index
        < extentNum * volume.capacity + volume.capacity := by omega
    _ = (extentNum + 1) * volume.capacity := by ring
    _ ≤ volume.numLogicalExtent * volume.capacity := Nat.mul_le_mul_right _ bound

end

section Blocks

variable {reopened : Bool} {extentStarts : List Nat}

theorem Sized.capacity_blocks (sized : volume.Sized) :
    volume.capacity = volume.capacity / physicalBlockSize * physicalBlockSize := by
  obtain ⟨stripes, capacityEq⟩ := sized.capacity
  rw [capacityEq, sized.bytes, ← Nat.mul_assoc, Nat.mul_div_cancel _ (by decide)]

/-- The extents hold whole stripes. -/
theorem Sized.span_stripes (sized : volume.Sized) :
    ∃ stripes, volume.capacity / physicalBlockSize = stripes * volume.physBlocksPerStripe := by
  obtain ⟨stripes, capacityEq⟩ := sized.capacity
  exact ⟨stripes, by
    rw [capacityEq, sized.bytes, ← Nat.mul_assoc, Nat.mul_div_cancel _ (by decide)]⟩

/-- The blocks of the volume, counted with the extents of the volume as one line. -/
theorem Sized.numBlocks_eq (sized : volume.Sized) : volume.numBlocks =
      volume.numLogicalExtent / volume.replicationFactor *
        (volume.capacity / physicalBlockSize) := by
  rw [numBlocks, Nat.mul_div_assoc _ ⟨_, (sized.capacity_blocks.trans (Nat.mul_comm _ _))⟩]

theorem Sized.placedExtents (sized : volume.Sized) (placed : volume.Placed extentStarts) :
    PlacedExtents (volume.layout reopened extentStarts) where
  enough := by
    refine Nat.div_le_of_le_mul ?_
    rw [sized.numBlocks_eq]
    exact Nat.mul_le_mul_right _ (Nat.div_le_self _ _)
  blocks := by
    simp only [layout, placed.extents]
    exact (Nat.mul_div_cancel' (Nat.dvd_of_mod_eq_zero sized.wholeExtents)).symm
  apart := placed.apart

/-- The block of the line of extents for a block of the maps. -/
def lineBlock (volume : StripedVolume) (blockId : Nat) : Nat :=
  Stripes.spread (volume.numBlocks / volume.numLogicalExtent)
    (volume.capacity / physicalBlockSize) blockId

/-- Where a block of the maps is stored: a device and a block of it. -/
def blockPlace (volume : StripedVolume) (blockId : Nat) : Nat × Nat :=
  Stripes.place volume.physBlocksPerStripe volume.numLogicalExtent (volume.lineBlock blockId)

/-- A byte lies in a block of a device, behind the super block. -/
def InBlock (block byte : Nat) : Prop :=
  physicalBlockSize + block * physicalBlockSize ≤ byte ∧
    byte < physicalBlockSize + (block + 1) * physicalBlockSize

/-- The request of `DoStripe` for a block of the maps. -/
theorem Sized.doStripe_block
    (sized : volume.Sized) (placed : volume.Placed extentStarts) {blockId : Nat}
    (isBlock : blockId < volume.numBlocks) :
    volume.doStripe extentStarts
        ((volume.layout reopened extentStarts).volumeBlock blockId * physicalBlockSize)
        physicalBlockSize =
      some (volume.stripeLoop physicalBlockSize
        (volume.lineBlock blockId * physicalBlockSize) physicalBlockSize) := by
  have extents : PlacedExtents (volume.layout reopened extentStarts) := sized.placedExtents placed
  have found := extents.findExtent_volumeBlock isBlock
  obtain ⟨start, atExtent, blockEq, _⟩ := extents.volumeBlock_eq isBlock
  have startEq := PlacedExtents.getD_of_getElem? atExtent
  set block := (volume.layout reopened extentStarts).volumeBlock blockId
  have sameTest : (fun start => decide
      (start * physicalBlockSize ≤ block * physicalBlockSize ∧
        block * physicalBlockSize + physicalBlockSize ≤
          start * physicalBlockSize + volume.capacity)) =
      fun start => decide (start ≤ block ∧
        block + 1 ≤ start + volume.capacity / physicalBlockSize) := by
    funext start
    rw [sized.capacity_blocks, Nat.mul_div_cancel _ (by decide)]
    simp only [physicalBlockSize]
    exact decide_eq_decide.mpr (by omega)
  have foundBytes :
      (extentStarts.findIdx? fun start => decide (start ≤ block ∧
        block + 1 ≤ start + volume.capacity / physicalBlockSize)) =
      some (blockId / (volume.numBlocks / volume.numLogicalExtent)) := found
  simp only [layout] at startEq blockEq
  rw [doStripe, sameTest, foundBytes, Option.map_some, startEq, blockEq,
    ← Nat.sub_mul, Nat.add_sub_cancel_left, lineBlock, Stripes.spread, Nat.add_mul, Nat.mul_assoc,
    ← sized.capacity_blocks]

/-- `DoStripe` stores a block of the maps at its place. -/
theorem Sized.storesBlock_iff
    (sized : volume.Sized) (placed : volume.Placed extentStarts) {blockId : Nat}
    (isBlock : blockId < volume.numBlocks) (device byte : Nat) :
    volume.StoresBlock reopened extentStarts blockId device byte ↔
      (volume.blockPlace blockId).1 = device ∧ InBlock (volume.blockPlace blockId).2 byte := by
  rw [StoresBlock, sized.doStripe_block placed isBlock]
  simp only [Option.some.injEq, exists_eq_left']
  rw [sized.covers_stripeLoop (Nat.le_refl _)]
  have places : ∀ offset < physicalBlockSize,
      Stripes.place volume.bytesPerStripe volume.numLogicalExtent
          (volume.lineBlock blockId * physicalBlockSize + offset) =
        ((volume.blockPlace blockId).1,
          (volume.blockPlace blockId).2 * physicalBlockSize + offset) := by
    intro offset inside
    have within := Nat.mod_lt (volume.lineBlock blockId) sized.stripePos
    rw [sized.bytes, Stripes.place_add, Stripes.place_mul (by decide), blockPlace]
    rw [Nat.mul_mod_mul_right]
    calc
      volume.lineBlock blockId % volume.physBlocksPerStripe * physicalBlockSize + offset
          < volume.lineBlock blockId % volume.physBlocksPerStripe * physicalBlockSize +
              physicalBlockSize := Nat.add_lt_add_left inside _
      _ = (volume.lineBlock blockId % volume.physBlocksPerStripe + 1) * physicalBlockSize := by ring
      _ ≤ volume.physBlocksPerStripe * physicalBlockSize := Nat.mul_le_mul_right _ within
  constructor
  · rintro ⟨offset, inside, above, stored⟩
    rw [places offset inside, Prod.mk.injEq] at stored
    refine ⟨stored.1, ?_⟩
    simp only [InBlock, physicalBlockSize] at *
    omega
  · rintro ⟨sameDevice, above, below⟩
    refine ⟨byte - physicalBlockSize - (volume.blockPlace blockId).2 * physicalBlockSize, ?_⟩
    have inside : byte - physicalBlockSize -
        (volume.blockPlace blockId).2 * physicalBlockSize < physicalBlockSize := by
      simp only [physicalBlockSize] at *
      omega
    refine ⟨inside, by omega, ?_⟩
    rw [places _ inside, sameDevice, Nat.add_sub_cancel' (by omega)]

end Blocks

end StripedVolume

end Orly
