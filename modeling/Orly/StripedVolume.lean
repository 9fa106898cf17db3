import Orly.BlockMapsRuns
import Orly.StripeRuns

namespace Orly

/-!
# Striped volumes

`CreateVolume` checks a request and lays out a volume over its devices.  A striped volume
cuts its bytes into stripes and deals them to the devices in turn: `DoStripe` does so for
reads and writes, and `DoDiscard` for a range that the discard runner has collected.

Replicas of a device hold the same bytes, so a device here is a set of replicas.
-/

/-- `PhysicalBlockSize`: the bytes of a block. -/
def physicalBlockSize : Nat := 65536

/-- The bytes of a logical block of a device. -/
def logicalBlockSize : Nat := 512

/-- What the system says of a device. -/
structure DeviceInfo where
  discardMaxBytes : Nat
  discardGranularity : Nat
  numLogicalBlocks : Nat
  deriving DecidableEq, Repr

/-- The arguments of `CreateVolume` for a striped volume. -/
structure VolumeRequest where
  devices : List DeviceInfo
  numDevices : Nat
  replicationFactor : Nat
  stripeSizeInKb : Nat
  deriving DecidableEq, Repr

/-- `TVolume::TDesc` of a striped volume. -/
structure StripedVolume where
  /-- The bytes of a device that hold blocks. -/
  capacity : Nat
  replicationFactor : Nat
  numLogicalExtent : Nat
  numLogicalBlockPerStripe : Nat
  minDiscardAllocBlocks : Nat
  deriving DecidableEq, Repr

namespace StripedVolume

variable (volume : StripedVolume)

/-- `NumBlocks`. -/
def numBlocks : Nat :=
  volume.numLogicalExtent / volume.replicationFactor * volume.capacity / physicalBlockSize

def bytesPerStripe : Nat :=
  volume.numLogicalBlockPerStripe * logicalBlockSize

def physBlocksPerStripe : Nat :=
  volume.bytesPerStripe / physicalBlockSize

/-- The strategy of a volume with extents at these blocks.  The super block of a device
keeps at least eight blocks as the least to discard, so a reopened volume has that. -/
def layout (reopened : Bool) (extentStarts : List Nat) : VolumeLayout where
  numBlocks := volume.numBlocks
  numBlocksPerExtent := volume.numBlocks / volume.numLogicalExtent
  spanBlocks := volume.capacity / physicalBlockSize
  extentStarts := extentStarts
  minDiscardAllocBlocks :=
    if reopened = true then max 8 volume.minDiscardAllocBlocks
    else volume.minDiscardAllocBlocks
  blockMapBytesPerDiscardRange := volume.physBlocksPerStripe / 8
  highUtilization := fun used => decide (85 * volume.numBlocks < 100 * used)

end StripedVolume

/-- The loop that counts the devices with discard and compares their granularities. -/
def discardSupport : List DeviceInfo → Nat → Nat → Option (Nat × Nat)
  | [], count, granularity => some (count, granularity)
  | device :: devices, count, granularity =>
    if count ≠ 0 ∧ device.discardGranularity ≠ granularity then
      none
    else
      discardSupport devices
        (if 0 < device.discardMaxBytes ∧ 0 < device.discardGranularity then count + 1
          else count)
        device.discardGranularity

/-- The logical blocks of the smallest device. -/
def minLogicalBlocks (devices : List DeviceInfo) : Nat :=
  devices.foldl (fun least device => min least device.numLogicalBlocks) (2 ^ 64 - 1)

/-- `CreateVolume` of a striped volume. -/
def createVolume (request : VolumeRequest) : Option StripedVolume :=
  match discardSupport request.devices 0 0 with
  | none => none
  | some (supported, discardGran) =>
    let stripeBytes := request.stripeSizeInKb * 1024
    let blocksForDiscard := (discardGran + (physicalBlockSize - 1)) / physicalBlockSize
    let perBlock := physicalBlockSize / logicalBlockSize
    let exposed := (minLogicalBlocks request.devices / perBlock - 1) * perBlock
    let rounded := exposed * logicalBlockSize / stripeBytes * stripeBytes / logicalBlockSize
    let volume : StripedVolume :=
      { capacity := rounded * logicalBlockSize
        replicationFactor := request.replicationFactor
        numLogicalExtent := request.numDevices / request.replicationFactor
        numLogicalBlockPerStripe := stripeBytes / logicalBlockSize
        minDiscardAllocBlocks := blocksForDiscard }
    if supported ≠ request.devices.length ∧ supported ≠ 0 then none
    else if 0 < supported ∧ stripeBytes % (blocksForDiscard * physicalBlockSize) ≠ 0 then none
    else if request.numDevices ≠ request.devices.length then none
    else if request.numDevices = 0 then none
    else if request.replicationFactor = 0 then none
    else if request.numDevices % request.replicationFactor ≠ 0 then none
    else if stripeBytes % (physicalBlockSize * 8) ≠ 0 then none
    else if stripeBytes = 0 then none
    else if minLogicalBlocks request.devices / perBlock = 0 then none
    else if volume.numBlocks % volume.numLogicalExtent ≠ 0 then none
    else some volume

/-- Some bytes of a device. -/
structure DeviceRange where
  device : Nat
  offset : Nat
  count : Nat
  deriving DecidableEq, Repr

/-- The bytes of some ranges. -/
def Covers (ranges : List DeviceRange) (device byte : Nat) : Prop :=
  ∃ range ∈ ranges, range.device = device ∧ range.offset ≤ byte ∧ byte < range.offset + range.count

namespace StripedVolume

variable (volume : StripedVolume)

/-- The loop of `DoStripe`: one request for each stripe that the bytes touch.  A request
is offset by the super block when it is submitted. -/
def stripeLoop : Nat → Nat → Nat → List DeviceRange
  | 0, _, _ => []
  | fuel + 1, curOffset, bytesToWrite =>
    if bytesToWrite = 0 then
      []
    else
      let offsetInStripe := curOffset % volume.bytesPerStripe
      let curBytes := min (volume.bytesPerStripe - offsetInStripe) bytesToWrite
      { device := curOffset / volume.bytesPerStripe % volume.numLogicalExtent
        offset := physicalBlockSize +
          (curOffset / volume.bytesPerStripe / volume.numLogicalExtent *
            volume.bytesPerStripe + offsetInStripe)
        count := curBytes } ::
        stripeLoop fuel (curOffset + curBytes) (bytesToWrite - curBytes)

/-- `DoStripe`, which throws for bytes that are in no extent.  Every turn of its loop
takes a byte, so as many turns as bytes are enough. -/
def doStripe (extentStarts : List Nat) (startOffset nbytes : Nat) : Option (List DeviceRange) :=
  (extentStarts.findIdx? fun start => decide
      (start * physicalBlockSize ≤ startOffset ∧
        startOffset + nbytes ≤ start * physicalBlockSize + volume.capacity)).map
    fun extentNum =>
      volume.stripeLoop nbytes
        (extentNum * volume.capacity +
          (startOffset - extentStarts.getD extentNum 0 * physicalBlockSize))
        nbytes

/-- `DoDiscard`. -/
def doDiscard (blockRange : Nat × Nat) : DeviceRange :=
  let startingStripe := blockRange.1 / volume.physBlocksPerStripe
  let startBlockOnDevice :=
    startingStripe / volume.numLogicalExtent * volume.physBlocksPerStripe +
      blockRange.1 % volume.physBlocksPerStripe
  { device := startingStripe % volume.numLogicalExtent
    offset := physicalBlockSize + startBlockOnDevice * physicalBlockSize
    count := blockRange.2 * physicalBlockSize }

/-- `DoStripe` stores a byte of a block of the maps here. -/
def StoresBlock (reopened : Bool) (extentStarts : List Nat) (blockId device byte : Nat) : Prop :=
  ∃ ranges, volume.doStripe extentStarts
        ((volume.layout reopened extentStarts).volumeBlock blockId * physicalBlockSize)
        physicalBlockSize = some ranges ∧
      Covers ranges device byte

/-- The discard of a range takes the bytes of its blocks and no others. -/
def DiscardsExactly (reopened : Bool) (extentStarts : List Nat) (blockRange : Nat × Nat) : Prop :=
  ∀ device byte, Covers [volume.doDiscard blockRange] device byte ↔
      ∃ blockId, blockRange.1 ≤ blockId ∧ blockId < blockRange.1 + blockRange.2 ∧
        volume.StoresBlock reopened extentStarts blockId device byte

/-- The volume manager gives the volume one extent for each set of devices, apart from
each other. -/
structure Placed (extentStarts : List Nat) : Prop where
  extents : extentStarts.length = volume.numLogicalExtent
  apart : extentStarts.Pairwise fun first second =>
    first + volume.capacity / physicalBlockSize ≤ second ∨
      second + volume.capacity / physicalBlockSize ≤ first

end StripedVolume

end Orly
