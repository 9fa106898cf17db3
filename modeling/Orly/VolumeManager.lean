import Orly.BlockMapsRuns

namespace Orly

/-!
# The volume manager

`TVolumeManager` gives each volume logical extents in chunks of `ExtentAllocationBlockSize`
and finds the volume of a block range by the chunks of its start and of its exclusive end.
The map of chunks is a C++ map: to look a chunk up that is not there puts a null pointer
under it, and to put a volume under a chunk that is there changes nothing.

Addresses are in blocks.  An extent is of whole blocks, so the source's quotients of bytes
by the size of a chunk, in doubles or in 64-bit integers, are exact.
-/

/-- The blocks of a chunk, `ExtentAllocationBlockSize / PhysicalBlockSize`. -/
def chunkBlocks : Nat := 2 ^ 28

/-- The size of `AllocatedExtentBlocks`. -/
def numChunks : Nat := (2 ^ 64 - 1) / 2 ^ 44

/-- `TStorageSpeed`. -/
inductive StorageSpeed where
  | fast
  | slow
  deriving DecidableEq, Repr

/-- What the manager and the strategy read of `TVolume::TDesc`. -/
structure VolumeShape where
  storageSpeed : StorageSpeed
  numLogicalExtent : Nat
  replicationFactor : Nat
  /-- `DeviceDesc.Capacity`, in blocks. -/
  capacityBlocks : Nat
  minDiscardAllocBlocks : Nat
  blockMapBytesPerDiscardRange : Nat
  deriving DecidableEq, Repr

namespace VolumeShape

variable (shape : VolumeShape)

/-- `NumBlocks`. -/
def numBlocks : Nat :=
  shape.numLogicalExtent / shape.replicationFactor * shape.capacityBlocks

/-- The strategy of a volume of this shape with extents at these blocks. -/
def layout (extentStarts : List Nat) : VolumeLayout where
  numBlocks := shape.numBlocks
  numBlocksPerExtent := shape.numBlocks / shape.numLogicalExtent
  spanBlocks := shape.capacityBlocks
  extentStarts := extentStarts
  minDiscardAllocBlocks := shape.minDiscardAllocBlocks
  blockMapBytesPerDiscardRange := shape.blockMapBytesPerDiscardRange
  highUtilization := fun used => decide (85 * shape.numBlocks < 100 * used)

/-- What the constructor of the strategy divides by and asserts. -/
def Sensible : Prop :=
  0 < shape.numLogicalExtent ∧ 0 < shape.replicationFactor ∧
    shape.numBlocks % shape.numLogicalExtent = 0

instance : Decidable shape.Sensible :=
  inferInstanceAs (Decidable (_ ∧ _))

/-- The drives `TStrategy::Init` requires. -/
def numDevices : Nat :=
  shape.replicationFactor * shape.numLogicalExtent

/-- The chunks of an extent, rounded up. -/
def chunksPerExtent : Nat :=
  (shape.capacityBlocks + chunkBlocks - 1) / chunkBlocks

/-- The shape that is read back from the super blocks. -/
def reopened : VolumeShape :=
  { shape with minDiscardAllocBlocks := max 8 shape.minDiscardAllocBlocks }

end VolumeShape

/-- A volume in the manager's collection.  The number stands for the address of the
object. -/
structure ManagedVolume where
  id : Nat
  shape : VolumeShape
  extentStarts : List Nat
  state : VolumeState

def ManagedVolume.layout (volume : ManagedVolume) : VolumeLayout :=
  volume.shape.layout volume.extentStarts

/-- The members of `TVolumeManager`. -/
structure VolumeManager where
  allocatedExtentBlocks : Nat → Bool
  /-- `LogicalExtentStartToVolumeMap`, by chunk; a null pointer is `some none`. -/
  volumeMap : Nat → Option (Option Nat)
  volumes : List ManagedVolume
  /-- How many volumes there have been. -/
  made : Nat

/-- The loop over the chunks that looks for a run of free ones: the count it ends with,
and the last chunk of the run. -/
def findRun (allocated : Nat → Bool) (required : Nat) : Nat → Nat → Nat → Nat × Option Nat
  | 0, _, consecutive => (consecutive, none)
  | left + 1, chunk, consecutive =>
    if allocated chunk = false then
      if consecutive + 1 = required then
        (consecutive + 1, some chunk)
      else
        findRun allocated required left (chunk + 1) (consecutive + 1)
    else
      findRun allocated required left (chunk + 1) 0

namespace VolumeManager

variable (manager : VolumeManager)

/-- A new manager. -/
def new : VolumeManager where
  allocatedExtentBlocks := fun _ => false
  volumeMap := fun _ => none
  volumes := []
  made := 0

/-- Take a chunk for a volume.  `emplace` leaves an element that is there. -/
def claimChunk (id : Nat) (manager : VolumeManager) (chunk : Nat) : VolumeManager :=
  { manager with
    allocatedExtentBlocks := Function.update manager.allocatedExtentBlocks chunk true
    volumeMap :=
      if manager.volumeMap chunk = none then
        Function.update manager.volumeMap chunk (some (some id))
      else
        manager.volumeMap }

/-- Take a run of chunks. -/
def claimChunks (id : Nat) (manager : VolumeManager) (first count : Nat) : VolumeManager :=
  (List.range' first count).foldl (claimChunk id) manager

/-- Give a chunk up again. -/
def unclaimChunk (chunk : Nat) : VolumeManager :=
  { manager with
    allocatedExtentBlocks := Function.update manager.allocatedExtentBlocks chunk false
    volumeMap := Function.update manager.volumeMap chunk none }

/-- `AllocateLogicalExtents`, from how many extents are still to be found, the count of
the search before, and the first chunks so far in the order of their set.  A search that
finds nothing gives up all of them. -/
def allocateLogicalExtents (id required : Nat) :
    Nat → Nat → List Nat → VolumeManager → VolumeManager × Option (List Nat)
  | 0, _, firsts, manager => (manager, some firsts)
  | left + 1, consecutive, firsts, manager =>
    match findRun manager.allocatedExtentBlocks required numChunks 0 consecutive with
    | (_, none) =>
      ((firsts.flatMap fun first => List.range' first required).foldl unclaimChunk manager, none)
    | (found, some last) =>
      allocateLogicalExtents id required left found
        (firsts.orderedInsert (· ≤ ·) (last + 1 - required))
        (manager.claimChunks id (last + 1 - required) required)

/-- `AddNewVolume`, from whether the strategy has the devices it wants. -/
def addNewVolume (shape : VolumeShape) (enoughDevices : Bool) : VolumeManager :=
  let id := manager.made
  match allocateLogicalExtents id shape.chunksPerExtent shape.numLogicalExtent 0 []
      { manager with made := id + 1 } with
  | (failed, none) => failed
  | (placed, some firsts) =>
    if enoughDevices = true then
      { placed with
        volumes := placed.volumes ++
          [⟨id, shape, firsts.map (· * chunkBlocks), .new⟩] }
    else
      placed

/-- The loop of `AddExistingVolume`, which throws at a chunk that is taken. -/
def claimExisting (id : Nat) : List Nat → VolumeManager → VolumeManager × Bool
  | [], manager => (manager, true)
  | chunk :: chunks, manager =>
    if manager.allocatedExtentBlocks chunk = true then
      (manager, false)
    else
      claimExisting id chunks (manager.claimChunk id chunk)

/-- The chunks of extents at these blocks. -/
def extentChunks (shape : VolumeShape) (extentStarts : List Nat) : List Nat :=
  extentStarts.flatMap fun start =>
    List.range' (start / chunkBlocks) shape.chunksPerExtent

/-- `AddExistingVolume` of a volume that has the drives `Init` requires, and whether it
returns: it throws unless the volume has one drive for each extent. -/
def addExistingVolume (shape : VolumeShape) (extentStarts : List Nat) : VolumeManager × Bool :=
  let id := manager.made
  let counted := { manager with made := id + 1 }
  if extentStarts.length = shape.numDevices ∧ 0 < shape.numDevices then
    match claimExisting id (extentChunks shape extentStarts) counted with
    | (failed, false) => (failed, false)
    | (placed, true) =>
      ({ placed with volumes := placed.volumes ++ [⟨id, shape, extentStarts, .new⟩] }, true)
  else
    (counted, false)

/-- `operator[]` of the map of chunks. -/
def lookupChunk (chunk : Nat) : VolumeManager × Option Nat :=
  match manager.volumeMap chunk with
  | some volume => (manager, volume)
  | none =>
    ({ manager with volumeMap := Function.update manager.volumeMap chunk (some none) }, none)

/-- The volume of a range: that of the chunk of its start, if the chunk of its exclusive
end has the same one. -/
def findVolume (start count : Nat) : VolumeManager × Option Nat :=
  let first := manager.lookupChunk (start / chunkBlocks)
  let last := first.1.lookupChunk ((start + count) / chunkBlocks)
  (last.1, if first.2 = last.2 then first.2 else none)

/-- Put a new state under a volume. -/
def setState (id : Nat) (state : VolumeState) : VolumeManager :=
  { manager with
    volumes := manager.volumes.map fun volume =>
      if volume.id = id then { volume with state } else volume }

/-- A volume of the collection. -/
def volume? (id : Nat) : Option ManagedVolume :=
  manager.volumes.find? fun volume => volume.id = id

end VolumeManager

/-- Whether `MarkBlockRangeUsed` gets through a run of blocks of the maps. -/
def BlockMaps.marksAll (layout : VolumeLayout) : Nat → Nat → BlockMaps → Bool
  | _, 0, _ => true
  | blockId, count + 1, maps =>
    if maps.blockMap blockId = true ∨ layout.numBlocks ≤ blockId then
      false
    else
      marksAll layout (blockId + 1) count (maps.setBlockBuf layout true blockId)

namespace VolumeManager

variable (manager : VolumeManager)

/-- `FreeSequentialBlocks`, and whether it returns. -/
def freeSequentialBlocks (start count : Nat) : VolumeManager × Bool :=
  match manager.findVolume start count with
  | (looked, none) => (looked, false)
  | (looked, some id) =>
    match looked.volume? id with
    | none => (looked, false)
    | some volume =>
      match volume.state.maps.freeSequentialBlocks volume.layout start count with
      | none => (looked, false)
      | some maps => (looked.setState id { volume.state with maps }, true)

/-- `MarkBlockRangeUsed`, and whether it returns. -/
def markBlockRangeUsed (start count : Nat) : VolumeManager × Bool :=
  match manager.findVolume start count with
  | (looked, none) => (looked, false)
  | (looked, some id) =>
    match looked.volume? id with
    | none => (looked, false)
    | some volume =>
      match volume.layout.findExtent start count with
      | none => (looked, false)
      | some extentNum =>
        let blockId := volume.layout.mapBlock extentNum start
        (looked.setState id
          { volume.state with
            maps := BlockMaps.markBlocks volume.layout blockId count volume.state.maps },
          BlockMaps.marksAll volume.layout blockId count volume.state.maps)

/-- One pass of `TryAllocateSequentialBlocks` over the volumes it looks at: a full one
sends it on to the next. -/
def allocateFrom (looksAt : StorageSpeed → Bool) (numBlocks : Nat) :
    List ManagedVolume → List ManagedVolume × Allocation
  | [] => ([], .diskFull)
  | volume :: volumes =>
    if looksAt volume.shape.storageSpeed = true then
      let attempt := volume.state.maps.tryAllocateSequentialBlocks volume.layout numBlocks
      let next := { volume with state := { volume.state with maps := attempt.2 } }
      if attempt.1 = .diskFull then
        let rest := allocateFrom looksAt numBlocks volumes
        (next :: rest.1, rest.2)
      else
        (next :: volumes, attempt.1)
    else
      let rest := allocateFrom looksAt numBlocks volumes
      (volume :: rest.1, rest.2)

/-- The bytes that are free or wait for a discard. -/
def available : Nat :=
  (manager.volumes.map fun volume =>
    (volume.shape.numBlocks - volume.state.maps.blocksUsed +
      volume.state.maps.discardBlockWaiting) * 65536).sum

/-- `TryAllocateSequentialBlocks`: volumes of the speed asked for come first.  The floor
is 0 for allocations of server state. -/
def tryAllocateSequentialBlocks (speed : StorageSpeed)
    (numBlocks dataFloor : Nat) : VolumeManager × Allocation :=
  if dataFloor ≠ 0 ∧ manager.available < dataFloor + numBlocks * 65536 then
    (manager, .diskFull)
  else
    let first := allocateFrom (fun other => other = speed) numBlocks manager.volumes
    if first.2 = .diskFull then
      let second := allocateFrom (fun other => other ≠ speed) numBlocks first.1
      ({ manager with volumes := second.1 }, second.2)
    else
      ({ manager with volumes := first.1 }, first.2)

/-- The manager of a new process, which adds the volumes in some order. -/
def reopen : List ManagedVolume → VolumeManager → Option VolumeManager
  | [], manager => some manager
  | volume :: volumes, manager =>
    match manager.addExistingVolume volume.shape.reopened volume.extentStarts with
    | (added, true) => reopen volumes added
    | (_, false) => none

end VolumeManager

/-! ## Runs -/

/-- A manager, with the ranges it has handed out since the volumes were made. -/
structure BlockStore where
  manager : VolumeManager
  handedOut : List (Nat × Nat)

/-- What happens to the manager. -/
inductive BlockStoreEvent where
  | addNewVolume (shape : VolumeShape) (enoughDevices : Bool)
  | addExistingVolume (shape : VolumeShape) (extentStarts : List Nat)
  | allocate (speed : StorageSpeed) (numBlocks dataFloor : Nat)
  | free (start count : Nat)
  | markUsed (start count : Nat)
  | sync (start count : Nat)
  | collectDiscards (id : Nat)
  | releaseDiscard (id : Nat)
  | restart (order : List ManagedVolume)

/-- The ranges of an allocation. -/
def Allocation.ranges : Allocation → List (Nat × Nat)
  | .given ranges => ranges
  | .waitForDiscard => []
  | .diskFull => []

namespace BlockStore

def new : BlockStore := ⟨.new, []⟩

/-- One call.  A call that throws leaves the manager as it is then; what an assertion
stops is no step. -/
def step (store : BlockStore) : BlockStoreEvent → Option BlockStore
  | .addNewVolume shape enoughDevices =>
    if shape.Sensible then
      some { store with manager := store.manager.addNewVolume shape enoughDevices }
    else
      none
  | .addExistingVolume shape extentStarts =>
    if shape.Sensible ∧ extentStarts.length = shape.numLogicalExtent ∧
        (∀ start ∈ extentStarts, start % chunkBlocks = 0 ∧
          start / chunkBlocks + shape.chunksPerExtent ≤ numChunks) then
      some { store with manager := (store.manager.addExistingVolume shape extentStarts).1 }
    else
      none
  | .allocate speed numBlocks dataFloor =>
    if 0 < numBlocks then
      let after := store.manager.tryAllocateSequentialBlocks speed numBlocks dataFloor
      some ⟨after.1, store.handedOut ++ after.2.ranges⟩
    else
      none
  | .free start count =>
    some { store with manager := (store.manager.freeSequentialBlocks start count).1 }
  | .markUsed start count =>
    some { store with manager := (store.manager.markBlockRangeUsed start count).1 }
  | .sync start count =>
    some { store with manager := (store.manager.findVolume start count).1 }
  | .collectDiscards id =>
    (store.manager.volume? id).bind fun volume =>
      (volume.state.step volume.layout .collectDiscards).map fun state =>
        { store with manager := store.manager.setState id state }
  | .releaseDiscard id =>
    (store.manager.volume? id).bind fun volume =>
      (volume.state.step volume.layout .releaseDiscard).map fun state =>
        { store with manager := store.manager.setState id state }
  | .restart order =>
    (VolumeManager.reopen order .new).map fun manager => { store with manager }

end BlockStore

end Orly
