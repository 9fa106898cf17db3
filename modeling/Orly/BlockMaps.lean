import Orly.BitRanges
import Orly.EventRuns

namespace Orly

/-!
# The block and discard maps of a volume

`TVolume::TStrategy` keeps one bit per block that is in use and one per block that waits
to be discarded.  Allocation scans the block map word by word from a moving start,
freeing sets bits of the discard map, and the discard runner drains it, whole ranges at a
time or, when the volume is nearly full, bit by bit.

Maps are functions from block numbers.  The block numbers of the maps count through the
logical extents in order; callers see block numbers of the volume manager, which the
extent table translates.  Locks are the steps of the machine at the end.
-/

/-- What a strategy knows of its volume, in blocks. -/
structure VolumeLayout where
  /-- `NumBlocks`. -/
  numBlocks : Nat
  /-- `NumBlocksPerExtent`. -/
  numBlocksPerExtent : Nat
  /-- The span of every logical extent. -/
  spanBlocks : Nat
  /-- The starts of the logical extents, `ExtentVec`. -/
  extentStarts : List Nat
  /-- `MinDiscardAllocBlocks`. -/
  minDiscardAllocBlocks : Nat
  /-- `GetBlockMapBytesPerDiscardRange()`. -/
  blockMapBytesPerDiscardRange : Nat
  /-- Whether this many used blocks pass `HighUtilizationThreshold`. -/
  highUtilization : Nat → Bool

/-- The words of a map, `BlockMapByteSize / sizeof(size_t)`. -/
def VolumeLayout.mapWords (layout : VolumeLayout) : Nat :=
  (layout.numBlocks + 63) / 64

/-- The maps and counters of a strategy. -/
structure BlockMaps where
  blockMap : Nat → Bool
  discardMap : Nat → Bool
  cachedStart : Nat
  blocksUsed : Nat
  discardBlockWaiting : Nat

namespace BlockMaps

variable (layout : VolumeLayout)

/-- The maps of a new strategy. -/
def new : BlockMaps where
  blockMap := fun _ => false
  discardMap := fun _ => false
  cachedStart := 0
  blocksUsed := 0
  discardBlockWaiting := 0

/-- `SetBlockBuf` below `NumBlocks`. -/
def setBlockBuf (on : Bool) (maps : BlockMaps) (blockId : Nat) : BlockMaps :=
  if on then
    { maps with
      blockMap := Function.update maps.blockMap blockId true
      cachedStart := if blockId < layout.numBlocks - 1 then blockId / 64 else 0
      blocksUsed := maps.blocksUsed + 1 }
  else
    { maps with
      blockMap := Function.update maps.blockMap blockId false
      blocksUsed := maps.blocksUsed - 1 }

/-- `SetBlockBufSegment` of a word to on. -/
def setBlockBufSegment (maps : BlockMaps) (startingBlockId : Nat) : BlockMaps :=
  { maps with
    blockMap := BitRanges.setRange maps.blockMap startingBlockId 64 true
    cachedStart :=
      if startingBlockId + 64 < layout.numBlocks then startingBlockId / 64 + 1 else 0
    blocksUsed := maps.blocksUsed + 64 }

/-- `SetBlockBufRange` to off, which throws past the last block. -/
def clearBlockBufRange (maps : BlockMaps) (blockId numBlocks : Nat) : Option BlockMaps :=
  if layout.numBlocks < blockId + numBlocks then
    none
  else
    some (BitRanges.overRange (setBlockBuf layout false)
      (fun maps word =>
        { maps with
          blockMap := BitRanges.setRange maps.blockMap word 64 false
          blocksUsed := maps.blocksUsed - 64 })
      blockId numBlocks maps)

/-- `SetDiscardBuf`. -/
def setDiscardBuf (on : Bool) (maps : BlockMaps) (blockId : Nat) : BlockMaps :=
  { maps with
    discardMap := Function.update maps.discardMap blockId on
    discardBlockWaiting :=
      if on then maps.discardBlockWaiting + 1 else maps.discardBlockWaiting - 1 }

/-- `SetDiscardRange`. -/
def setDiscardRange (on : Bool) (maps : BlockMaps) (blockId numBlocks : Nat) : BlockMaps :=
  BitRanges.overRange (setDiscardBuf on)
    (fun maps word =>
      { maps with
        discardMap := BitRanges.setRange maps.discardMap word 64 on
        discardBlockWaiting :=
          if on then maps.discardBlockWaiting + 64 else maps.discardBlockWaiting - 64 })
    blockId numBlocks maps

end BlockMaps

/-- A word of a map with no bit set. -/
def wordEmpty (bits : Nat → Bool) (word : Nat) : Bool :=
  (List.range 64).all fun bit => !bits (64 * word + bit)

/-- A word of a map with every bit set. -/
def wordFull (bits : Nat → Bool) (word : Nat) : Bool :=
  (List.range 64).all fun bit => bits (64 * word + bit)

/-- The locals of `TryGetSeqBlocks` beside the maps. -/
structure SeqScan where
  maps : BlockMaps
  curAlloced : Nat
  startOut : Nat

namespace SeqScan

variable (layout : VolumeLayout) (wanted : Nat)

/-- A free block is the first, or the next in sequence, or ends the scan. -/
def takeBlock (scan : SeqScan) (blockId : Nat) : Option SeqScan :=
  if scan.curAlloced = 0 then
    some ⟨scan.maps.setBlockBuf layout true blockId, scan.curAlloced + 1, blockId⟩
  else if scan.startOut + scan.curAlloced = blockId then
    some ⟨scan.maps.setBlockBuf layout true blockId, scan.curAlloced + 1, scan.startOut⟩
  else
    none

/-- The same for a whole free word. -/
def takeWord (scan : SeqScan) (blockId : Nat) : Option SeqScan :=
  if scan.curAlloced = 0 then
    some ⟨scan.maps.setBlockBufSegment layout blockId, scan.curAlloced + 64, blockId⟩
  else if scan.startOut + scan.curAlloced = blockId then
    some ⟨scan.maps.setBlockBufSegment layout blockId, scan.curAlloced + 64, scan.startOut⟩
  else
    none

/-- The loop over the bits of a word, as they stood when the word was read.  The flag
says whether the scan goes on. -/
def scanBits (bits : Nat → Bool) (word : Nat) : List Nat → SeqScan → SeqScan × Bool
  | [], scan => (scan, true)
  | bit :: rest, scan =>
    if scan.curAlloced < wanted then
      if bits (64 * word + bit) = false ∧ 64 * word + bit < layout.numBlocks then
        match scan.takeBlock layout (64 * word + bit) with
        | some taken => scanBits bits word rest taken
        | none => (scan, false)
      else
        scanBits bits word rest scan
    else
      (scan, true)

/-- The body of both loops of `TryGetSeqBlocks` over words. -/
def scanWord (scan : SeqScan) (word : Nat) : SeqScan × Bool :=
  if wordEmpty scan.maps.blockMap word = true ∧ 64 ≤ wanted - scan.curAlloced ∧
      (word + 1) * 64 ≤ layout.numBlocks then
    match scan.takeWord layout (64 * word) with
    | some taken => (taken, true)
    | none => (scan, false)
  else if wordFull scan.maps.blockMap word = false then
    scanBits layout wanted scan.maps.blockMap word (List.range 64) scan
  else
    (scan, true)

/-- A loop over words that goes on while its condition holds. -/
def scanWords (goesOn : SeqScan → Nat → Bool) : List Nat → SeqScan → SeqScan × Bool
  | [], scan => (scan, true)
  | word :: rest, scan =>
    if goesOn scan word = true then
      match scan.scanWord layout wanted word with
      | (next, true) => scanWords goesOn rest next
      | (next, false) => (next, false)
    else
      (scan, true)

/-- The loop from the cached start on, until there are enough blocks. -/
def scanForward : List Nat → SeqScan → SeqScan × Bool :=
  scanWords layout wanted fun scan _ => decide (scan.curAlloced < wanted)

/-- The loop from the beginning, which looks at the cached start at every turn. -/
def scanFromStart : List Nat → SeqScan → SeqScan × Bool :=
  scanWords layout wanted fun scan word => decide (word < scan.maps.cachedStart)

end SeqScan

namespace BlockMaps

variable (layout : VolumeLayout)

/-- `TryGetSeqBlocks`. -/
def tryGetSeqBlocks (maps : BlockMaps) (numBlocks : Nat) : SeqScan :=
  let forward :=
    SeqScan.scanForward layout numBlocks
      (List.range' maps.cachedStart (layout.mapWords - maps.cachedStart)) ⟨maps, 0, 0⟩
  if forward.2 = false ∨ 0 < forward.1.curAlloced then
    forward.1
  else
    (SeqScan.scanFromStart layout numBlocks (List.range layout.mapWords) forward.1).1

end BlockMaps

namespace VolumeLayout

variable (layout : VolumeLayout)

/-- The block of the volume manager that a block of the maps stands for. -/
def volumeBlock (blockId : Nat) : Nat :=
  layout.extentStarts.getD (blockId / layout.numBlocksPerExtent) 0 +
    blockId % layout.numBlocksPerExtent

/-- The ranges given from the extents after the first one, until nothing is left. -/
def handOutFrom (leftToGive : Nat) : List Nat → List (Nat × Nat)
  | [] => []
  | start :: starts =>
    if leftToGive = 0 then
      []
    else
      (start, min leftToGive layout.spanBlocks) ::
        handOutFrom (leftToGive - min leftToGive layout.spanBlocks) starts

/-- The ranges `TryAllocateSequentialBlocks` hands out for a run of blocks. -/
def handOut (initBlock totalAlloced : Nat) : List (Nat × Nat) :=
  match layout.extentStarts.drop (initBlock / layout.numBlocksPerExtent) with
  | [] => []
  | start :: starts =>
    let given := min totalAlloced (layout.spanBlocks - initBlock % layout.numBlocksPerExtent)
    (initBlock % layout.numBlocksPerExtent + start, given) ::
      layout.handOutFrom (totalAlloced - given) starts

/-- The first extent that holds a whole range of blocks. -/
def findExtent (start count : Nat) : Option Nat :=
  layout.extentStarts.findIdx? fun extentStart =>
    decide (extentStart ≤ start ∧ start + count ≤ extentStart + layout.spanBlocks)

/-- The block of the maps for a block of the volume manager in an extent. -/
def mapBlock (extentNum block : Nat) : Nat :=
  block - layout.extentStarts.getD extentNum 0 + extentNum * layout.numBlocksPerExtent

end VolumeLayout

/-- How an attempt to allocate ends: with ranges, with a wait for the discard runner, or
with `TDiskFull`. -/
inductive Allocation where
  | given (ranges : List (Nat × Nat))
  | waitForDiscard
  | diskFull
  deriving DecidableEq, Repr

namespace BlockMaps

variable (layout : VolumeLayout) (maps : BlockMaps)

/-- One attempt of `TryAllocateSequentialBlocks`, under the block map lock. -/
def tryAllocateSequentialBlocks (numBlocks : Nat) : Allocation × BlockMaps :=
  let scan := maps.tryGetSeqBlocks layout numBlocks
  if scan.curAlloced = 0 then
    if 0 < maps.discardBlockWaiting then
      (.waitForDiscard, scan.maps)
    else
      (.diskFull, scan.maps)
  else
    (.given (layout.handOut scan.startOut scan.curAlloced), scan.maps)

/-- `FreeSequentialBlocks`, which throws for a range that is in no extent. -/
def freeSequentialBlocks (start count : Nat) : Option BlockMaps :=
  (layout.findExtent start count).map fun extentNum =>
    maps.setDiscardRange true (layout.mapBlock extentNum start) count

/-- The loop of `MarkBlockRangeUsed`: it throws at a block in use and past the last
block, with the blocks before it marked. -/
def markBlocks : Nat → Nat → BlockMaps → BlockMaps
  | _, 0, maps => maps
  | blockId, count + 1, maps =>
    if maps.blockMap blockId = true ∨ layout.numBlocks ≤ blockId then
      maps
    else
      markBlocks (blockId + 1) count (maps.setBlockBuf layout true blockId)

/-- `MarkBlockRangeUsed`. -/
def markBlockRangeUsed (start count : Nat) : Option BlockMaps :=
  (layout.findExtent start count).map fun extentNum =>
    markBlocks layout (layout.mapBlock extentNum start) count maps

/-- `ForEachHeldBlock`: the blocks it visits, in order. -/
def heldBlocks : List Nat :=
  (List.range layout.mapWords).flatMap fun word =>
    ((((List.range 64).map (64 * word + ·)).filter fun block =>
        maps.blockMap block && !maps.discardMap block).takeWhile
      (· < layout.numBlocks)).map layout.volumeBlock

/-- `IsBlockHeld`. -/
def isBlockHeld (block : Nat) : Bool :=
  match layout.findExtent block 1 with
  | none => false
  | some extentNum =>
    let blockId := layout.mapBlock extentNum block
    decide (blockId < layout.numBlocks) && (!maps.discardMap blockId && maps.blockMap blockId)

/-- A range of the discard map with every bit set. -/
def fullDiscard (rangeBytes range : Nat) : Bool :=
  (List.range (8 * rangeBytes)).all fun bit => maps.discardMap (8 * rangeBytes * range + bit)

/-- The ranges the discard runner finds, for ranges of some bytes. -/
def fullRanges (rangeBytes : Nat) : List (Nat × Nat) :=
  let mapBytes := layout.extentStarts.length * layout.numBlocksPerExtent / 8
  ((List.range (mapBytes / rangeBytes)).filter (maps.fullDiscard rangeBytes)).map
    fun range => (8 * rangeBytes * range, 8 * rangeBytes)

/-- Give back the blocks of one word that wait to be discarded. -/
def releaseWord (word : Nat) : BlockMaps :=
  (List.range 64).foldl
    (fun released bit =>
      if maps.discardMap (64 * word + bit) = true then
        (released.setDiscardBuf false (64 * word + bit)).setBlockBuf layout false (64 * word + bit)
      else
        released)
    maps

/-- Give back all blocks that wait to be discarded. -/
def releaseWaiting : BlockMaps :=
  (List.range layout.mapWords).foldl (releaseWord layout) maps

end BlockMaps

/-- The bytes of a map that the discard runner looks at together. -/
def VolumeLayout.discardRangeBytes (layout : VolumeLayout) : Nat :=
  min layout.blockMapBytesPerDiscardRange ((layout.minDiscardAllocBlocks + 7) / 8)

/-- A strategy with the ranges its discard runner is about to release. -/
structure VolumeState where
  maps : BlockMaps
  blocksFromVec : List (Nat × Nat)

namespace VolumeState

variable (layout : VolumeLayout)

/-- A new strategy. -/
def new : VolumeState := ⟨.new, []⟩

/-- The first lock section of a round of `DiscardRunner`.  With ranges of no bytes its
division fails. -/
def collectDiscards (state : VolumeState) : Option VolumeState :=
  let rangeBytes := layout.discardRangeBytes
  if layout.minDiscardAllocBlocks < state.maps.discardBlockWaiting then
    if rangeBytes = 0 then
      none
    else
      let ranges := state.maps.fullRanges layout rangeBytes
      if ranges = [] ∧ layout.highUtilization state.maps.blocksUsed = true then
        some ⟨state.maps.releaseWaiting layout, []⟩
      else
        some ⟨state.maps, ranges⟩
  else if layout.highUtilization state.maps.blocksUsed = true ∧
      0 < state.maps.discardBlockWaiting then
    some ⟨state.maps.releaseWaiting layout, []⟩
  else
    some state

/-- The lock section of `DiscardRunner` after the discard of one range. -/
def releaseDiscard (state : VolumeState) : Option VolumeState :=
  match state.blocksFromVec with
  | [] => none
  | range :: rest =>
    ((state.maps.setDiscardRange false range.1 range.2).clearBlockBufRange layout
        range.1 range.2).map
      fun maps => ⟨maps, rest⟩

end VolumeState

/-- The lock sections on one volume. -/
inductive VolumeEvent where
  | allocate (numBlocks : Nat)
  | free (start count : Nat)
  | markUsed (start count : Nat)
  | collectDiscards
  | releaseDiscard

namespace VolumeState

variable (layout : VolumeLayout)

/-- One lock section.  A round of the runner starts when it has released the ranges of
the round before. -/
def step (state : VolumeState) : VolumeEvent → Option VolumeState
  | .allocate numBlocks =>
    some { state with maps := (state.maps.tryAllocateSequentialBlocks layout numBlocks).2 }
  | .free start count =>
    (state.maps.freeSequentialBlocks layout start count).map
      fun maps => { state with maps := maps }
  | .markUsed start count =>
    (state.maps.markBlockRangeUsed layout start count).map
      fun maps => { state with maps := maps }
  | .collectDiscards =>
    if state.blocksFromVec = [] then state.collectDiscards layout else none
  | .releaseDiscard => state.releaseDiscard layout

/-- What callers keep to: they ask for at least one block and free blocks they hold. -/
def Allowed (state : VolumeState) : VolumeEvent → Prop
  | .allocate numBlocks => 0 < numBlocks
  | .free start count =>
    ∀ block, start ≤ block → block < start + count → state.maps.isBlockHeld layout block = true
  | _ => True

instance (state : VolumeState) (event : VolumeEvent) : Decidable (state.Allowed layout event) :=
  match event with
  | .allocate numBlocks => inferInstanceAs (Decidable (0 < numBlocks))
  | .free start count =>
    decidable_of_iff (∀ place, place < count → state.maps.isBlockHeld layout (start + place) = true)
      ⟨fun held block above below => by
          have isHeld := held (block - start) (by omega)
          rwa [Nat.add_sub_cancel' above] at isHeld,
        fun held place below => held (start + place) (by omega) (by omega)⟩
  | .markUsed _ _ => isTrue trivial
  | .collectDiscards => isTrue trivial
  | .releaseDiscard => isTrue trivial

end VolumeState

end Orly
