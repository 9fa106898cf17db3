import Orly.CrashDisk
import Orly.FileMap

namespace Orly

/-!
# The file service

`TFileService` keeps the file map in memory and on disk.  On disk it is one of two base
images, each a chain of blocks, and a ring of versioned sectors with the operations
since that image.  A full ring is followed by a new image, written over the older one.

This module holds the disk, the opening of a service from it, the rounds of the runner,
and the system of a service, its disk and crashes.
-/

/-! ## The disk -/

/-- `NumFilesPerRingBuf`: a 504-byte sector, less the version, in records of 88 bytes. -/
def filesPerSector : Nat := (504 - 8) / (80 + 8)

/-- `NumSectorsPerBlock`. -/
def sectorsPerBlock : Nat := 65536 / 512

/-- `NumElemPerBaseImageBlock`: a checked block, less version and link, in 80-byte
entries. -/
def filesPerImageBlock : Nat := (65528 - 8 - 8) / 80

/-- A block of a base image; the last one links to no block. -/
structure ImageBlock where
  version : Nat
  next : Option Nat
  entries : List FileEntry
  deriving DecidableEq

/-- A sector of the append log. -/
structure RingSector where
  version : Nat
  ops : List FileOp
  deriving DecidableEq

/-- The two base images. -/
inductive ImageSlot where
  | image1
  | image2
  deriving Repr, DecidableEq

/-- The other image. -/
def ImageSlot.other : ImageSlot → ImageSlot
  | .image1 => .image2
  | .image2 => .image1

/-- Where the system block says the file service is, on a device of `numBlocks` blocks. -/
structure FileConfig where
  image1 : Nat
  image2 : Nat
  appendLogBlocks : Nat
  numBlocks : Nat
  imagesDiffer : image1 ≠ image2
  image1Fits : image1 < numBlocks
  image2Fits : image2 < numBlocks
  hasAppendLog : 0 < appendLogBlocks

variable (config : FileConfig)

/-- The head block of an image. -/
def FileConfig.headOf : ImageSlot → Nat
  | .image1 => config.image1
  | .image2 => config.image2

/-- `NumAppendLogSectors`. -/
def FileConfig.numSectors : Nat :=
  config.appendLogBlocks * sectorsPerBlock

/--
What is on disk.  A block is absent if its checksum fails, as that of a torn block does,
or if another owner wrote it: such a block carries no image's version.
-/
structure FileDisk where
  block : Nat → Option ImageBlock
  sector : Nat → RingSector

/-- `ReadBlock`. -/
def FileDisk.readBlock (disk : FileDisk) (config : FileConfig) (blockId : Nat) :
    Option ImageBlock :=
  if blockId < config.numBlocks then disk.block blockId else none

/-- A zeroed image block. -/
def zeroBlock : ImageBlock := ⟨0, some 0, []⟩

/-- `ZeroImageBlocks` and `ZeroAppendLog`: the disk of a new file service. -/
def FileDisk.create : FileDisk where
  block := fun blockId =>
    if blockId = config.image1 ∨ blockId = config.image2 then some zeroBlock else none
  sector := fun _ => ⟨0, []⟩

/-! ## Reading an image -/

/-- The entries of an image block: sixteen zero bytes end them. -/
def ImageBlock.named (block : ImageBlock) : List FileEntry :=
  block.entries.takeWhile fun entry => entry.fileUid ≠ nilUid

/-- The operations of a sector: sixteen zero bytes end them. -/
def RingSector.named (sector : RingSector) : List FileOp :=
  sector.ops.takeWhile fun op => op.fileUid ≠ nilUid

section Reading

variable (config : FileConfig) (disk : FileDisk)

/--
The loop of `TryLoadFromBaseImage`, at a block that has been read.  `none` where it
throws: on a block of another version, a file named twice, a loop, or a failed read.
A chain without a loop is no longer than the device, which bounds the turns.
-/
def loadBlocks (version : Nat) : Nat → List Nat → FileMap → List Nat → ImageBlock →
    Option (FileMap × List Nat)
  | 0, _, _, _, _ => none
  | turns + 1, seen, map, chain, block =>
    if block.version ≠ version then none
    else
      (addEntries map block.named).bind fun map =>
        match block.next with
        | none => some (map, chain)
        | some next =>
          if next ∈ seen then none
          else (disk.readBlock config next).bind fun nextBlock =>
            loadBlocks version turns (next :: seen) map (chain ++ [next]) nextBlock

/-- `TryLoadFromBaseImage`: the map and the blocks after the head. -/
def tryLoadFromBaseImage (slot : ImageSlot) (version : Nat) : Option (FileMap × List Nat) :=
  (disk.readBlock config (config.headOf slot)).bind fun head =>
    loadBlocks config disk version (config.numBlocks + 1) [config.headOf slot] ∅ [] head

/-- The loop of `ReadImageChain`, at a block that has been read. -/
def chainBlocks (version : Nat) : Nat → List Nat → List Nat → ImageBlock → Option (List Nat)
  | 0, _, _, _ => none
  | turns + 1, seen, chain, block =>
    match block.next with
    | none => some chain
    | some next =>
      if next ∈ seen then none
      else (disk.readBlock config next).bind fun nextBlock =>
        if nextBlock.version ≠ version then none
        else chainBlocks version turns (next :: seen) (chain ++ [next]) nextBlock

/-- `ReadImageChain`: the blocks after the head of an image that was written whole. -/
def readImageChain (slot : ImageSlot) : Option (List Nat) :=
  (disk.readBlock config (config.headOf slot)).bind fun head =>
    if head.version = 0 then none
    else chainBlocks config disk head.version (config.numBlocks + 1) [config.headOf slot] [] head

/-! ## Opening -/

/-- How opening can fail. -/
inductive OpenError where
  /-- "Base Image was irrecoverable, alternate image was also corrupt" -/
  | alternateCorrupt
  /-- "Both base images are irrecoverable" -/
  | bothIrrecoverable
  /-- "Current base image is irrecoverable." -/
  | currentIrrecoverable
  /-- "Append log is past available base image." -/
  | pastAvailableBase
  /-- Both images have the same version, and the buffer to load from is null. -/
  | equalVersions
  /-- A delta inserts a file that is there, or removes one that is not. -/
  | deltaThrew
  deriving Repr, DecidableEq

/-- What the images gave: the one that was loaded, if any, and the next to write. -/
structure LoadedImage where
  loaded : Option ImageSlot
  writeNext : ImageSlot
  version : Nat
  map : FileMap
  chain : List Nat

/-- The version in the head of an image, zero if it cannot be read. -/
def headVersion (slot : ImageSlot) : Nat :=
  match disk.readBlock config (config.headOf slot) with
  | some head => head.version
  | none => 0

/-- `both_images_loaded_success`. -/
def bothHeadsRead : Bool :=
  (disk.readBlock config config.image1).isSome && (disk.readBlock config config.image2).isSome

/-- An image that loaded; the next one goes to the other. -/
def LoadedImage.ofImage (slot : ImageSlot) (version : Nat) (contents : FileMap × List Nat) :
    LoadedImage :=
  ⟨some slot, slot.other, version, contents.1, contents.2⟩

/-- Load the newest image, or fall back to the other one or to the append log alone. -/
def loadNewest (newest : ImageSlot) : Except OpenError LoadedImage :=
  let version := headVersion config disk newest
  match tryLoadFromBaseImage config disk newest version with
  | some contents => .ok (.ofImage newest version contents)
  | none =>
    if bothHeadsRead config disk then
      let alternateVersion := headVersion config disk newest.other
      let firstVersion := (disk.sector 0).version
      if alternateVersion = 0 ∧ firstVersion = 1 then
        .ok ⟨none, newest, 0, ∅, []⟩
      else if firstVersion = alternateVersion + 1 then
        match tryLoadFromBaseImage config disk newest.other alternateVersion with
        | some contents => .ok (.ofImage newest.other alternateVersion contents)
        | none => .error .bothIrrecoverable
      else .error .currentIrrecoverable
    else .error .alternateCorrupt

/-- Choose the image with the higher version and load it. -/
def loadImages : Except OpenError LoadedImage :=
  let version1 := headVersion config disk .image1
  let version2 := headVersion config disk .image2
  if version2 < version1 then loadNewest config disk .image1
  else if version1 < version2 then loadNewest config disk .image2
  else if version1 = 0 then .ok ⟨none, .image1, 0, ∅, []⟩
  else .error .equalVersions

end Reading

/-- What the replay of the append log gave. -/
structure Replayed where
  version : Nat
  position : Nat
  map : FileMap

/-- Apply the sectors that carry the expected versions; `none` where a delta throws. -/
def replayAppendLog (disk : FileDisk) : Nat → Replayed → Option Replayed
  | 0, state => some state
  | sectors + 1, state =>
    let sector := disk.sector state.position
    if sector.version = state.version + 1 then
      (applyOps state.map sector.named).bind fun map =>
        replayAppendLog disk sectors ⟨sector.version, state.position + 1, map⟩
    else some state

/-- A write of a round that is under way. -/
inductive RoundWrite where
  | sector (position : Nat) (contents : RingSector)
  | image (blocks : List (Nat × ImageBlock))
  deriving DecidableEq

/-- A round under way: the operations it took and what it writes. -/
structure FileRound where
  ops : List FileOp
  write : RoundWrite

/-- `TFileService`. -/
structure FileService where
  map : FileMap
  runnerCopyMap : FileMap
  versionNumber : Nat
  writeNext : ImageSlot
  curRingSector : Nat
  image1BlockIds : List Nat
  image2BlockIds : List Nat
  /-- Operations applied to the map and not yet in the queue. -/
  unqueued : List FileOp := []
  opQueue : List FileOp := []
  round : Option FileRound := none

/-- The blocks of an image. -/
def FileService.blocksOf (service : FileService) : ImageSlot → List Nat
  | .image1 => service.image1BlockIds
  | .image2 => service.image2BlockIds

/-- Replace the blocks of an image. -/
def FileService.setBlocks (service : FileService) (slot : ImageSlot) (blocks : List Nat) :
    FileService :=
  { service with
    image1BlockIds := if slot = .image1 then blocks else service.image1BlockIds
    image2BlockIds := if slot = .image2 then blocks else service.image2BlockIds }

/-- The blocks the service holds. -/
def FileService.owned (service : FileService) : List Nat :=
  service.image1BlockIds ++ service.image2BlockIds

/-- `AdoptImageChain`: keep a chain unless another owner holds a block of it. -/
def adoptImageChain (used chain : List Nat) : List Nat :=
  if chain.any (· ∈ used) then [] else chain

section Opening

variable (config : FileConfig) (disk : FileDisk)

/-- The chain to adopt for an image: the loaded one's, or the other's if it is whole. -/
def chainToAdopt (image : LoadedImage) (slot : ImageSlot) : List Nat :=
  match image.loaded with
  | none => []
  | some loaded =>
    if slot = loaded then image.chain else (readImageChain config disk slot).getD []

/-- The service as the loaded image and the replay leave it, with the chains it adopts.
The files marked the blocks `inUse` before. -/
def startService (inUse : List Nat) (image : LoadedImage) (replayed : Replayed) : FileService :=
  let heads := [config.image1, config.image2]
  let chain1 := adoptImageChain (heads ++ inUse) (chainToAdopt config disk image .image1)
  let chain2 := adoptImageChain (heads ++ inUse ++ chain1) (chainToAdopt config disk image .image2)
  { map := replayed.map
    runnerCopyMap := replayed.map
    versionNumber := replayed.version
    writeNext := image.writeNext
    curRingSector := replayed.position
    image1BlockIds := config.image1 :: chain1
    image2BlockIds := config.image2 :: chain2 }

/-- The constructor of `TFileService` on an existing disk. -/
def openService (inUse : List Nat) : Except OpenError FileService := do
  let image ← loadImages config disk
  if ¬ bothHeadsRead config disk ∧ image.version + 1 < (disk.sector 0).version then
    throw .pastAvailableBase
  match replayAppendLog disk config.numSectors ⟨image.version, 0, image.map⟩ with
  | none => throw .deltaThrew
  | some replayed => return startService config disk inUse image replayed

end Opening

/-- The constructor of `TFileService` with `create` set. -/
def createService : FileService where
  map := ∅
  runnerCopyMap := ∅
  versionNumber := 0
  writeNext := .image1
  curRingSector := 0
  image1BlockIds := [config.image1]
  image2BlockIds := [config.image2]

/-! ## A round of the runner -/

/-- `blocks_required_for_base_image`. -/
def blocksRequired (numFiles : Nat) : Nat :=
  max 1 ((numFiles + (filesPerImageBlock - 1)) / filesPerImageBlock)

/--
The blocks of an image before it is written: cut down to the target, or grown towards
it by blocks that nobody holds.  On a full disk it may grow by fewer, but to the
required number.
-/
def resizeImage (owned blocks newBlocks : List Nat) (required : Nat) : Option (List Nat) :=
  let spare := max 2 (required / 8)
  let target := required + spare
  if target + spare < blocks.length then
    if newBlocks = [] then some (blocks.take target) else none
  else if newBlocks.Nodup ∧ (∀ blockId ∈ newBlocks, blockId ∉ owned ∧
      blockId < config.numBlocks) ∧ blocks.length + newBlocks.length ≤ max target blocks.length ∧
      required ≤ blocks.length + newBlocks.length then
    some (blocks ++ newBlocks)
  else none

/-- The blocks of an image: each links to the next and carries its share of the files. -/
def imageBlocks (version : Nat) : List Nat → List FileEntry → List (Nat × ImageBlock)
  | [], _ => []
  | [blockId], files => [(blockId, ⟨version, none, files.take filesPerImageBlock⟩)]
  | blockId :: next :: blockIds, files =>
    (blockId, ⟨version, some next, files.take filesPerImageBlock⟩) ::
      imageBlocks version (next :: blockIds) (files.drop filesPerImageBlock)

/-- What a round does: the service goes on, or a throw ends its runner. -/
inductive RoundStart where
  | started (service : FileService)
  | threw

/--
The image a round writes once the ring is full, its files in the order `files` in which
the iteration meets them.  A uid whose files were all removed stays in the map without
any; where the iteration meets one, the source reads past the end of its files, and the
process may end, which is the event of a crash.
-/
def startImage (service : FileService) (ops : List FileOp)
    (files : List FileEntry) (newBlocks : List Nat) : Option FileService :=
  if files.Perm service.runnerCopyMap.entries then
    let required := blocksRequired files.length
    (resizeImage config service.owned (service.blocksOf service.writeNext) newBlocks
      required).map fun blocks =>
        { service.setBlocks service.writeNext blocks with
          round := some ⟨ops, .image (imageBlocks service.versionNumber
            (blocks.take required) files)⟩ }
  else none

/-- Start a round: take operations, apply them to the runner's map, and write. -/
def startRound (service : FileService)
    (files : List FileEntry) (newBlocks : List Nat) : Option RoundStart :=
  if service.round.isSome ∨ service.opQueue = [] then none
  else
    let ops := service.opQueue.take filesPerSector
    match applyOps service.runnerCopyMap ops with
    | none => some .threw
    | some map =>
      let service := { service with
        runnerCopyMap := map
        versionNumber := service.versionNumber + 1
        opQueue := service.opQueue.drop filesPerSector }
      if service.curRingSector = config.numSectors then
        (startImage config service ops files newBlocks).map .started
      else
        some (.started { service with
          round := some ⟨ops, .sector service.curRingSector
            ⟨service.versionNumber, ops⟩⟩ })

/-! ## What a write leaves -/

/-- What a crash does to a block that was written and not yet synced. -/
inductive BlockFate where
  | kept
  | lost
  | torn
  deriving Repr, DecidableEq

/-- What a crash leaves of one block. -/
def BlockFate.leaves (write : Nat × ImageBlock) : BlockFate → Option (Nat × Option ImageBlock)
  | .kept => some (write.1, some write.2)
  | .lost => none
  | .torn => some (write.1, none)

/-- The writes that a crash leaves; blocks without a fate are lost. -/
def landed (blocks : List (Nat × ImageBlock)) (fates : List BlockFate) :
    List (Nat × Option ImageBlock) :=
  (blocks.zip fates).filterMap fun write => write.2.leaves write.1

/-- Write blocks. -/
def FileDisk.writeBlocks (disk : FileDisk) (writes : List (Nat × Option ImageBlock)) : FileDisk :=
  { disk with block := CrashDisk.writeAll disk.block writes }

/-- Write a sector. -/
def FileDisk.writeSector (disk : FileDisk) (position : Nat) (contents : RingSector) : FileDisk :=
  { disk with sector := Function.update disk.sector position contents }

/-- A write that completed, with its sync. -/
def RoundWrite.finish (disk : FileDisk) : RoundWrite → FileDisk
  | .sector position contents => disk.writeSector position contents
  | .image blocks => disk.writeBlocks (blocks.map fun write => (write.1, some write.2))

/-- A write that a crash cut short. -/
def RoundWrite.cut (disk : FileDisk) (sectorKept : Bool) (fates : List BlockFate) :
    RoundWrite → FileDisk
  | .sector position contents =>
    if sectorKept then disk.writeSector position contents else disk
  | .image blocks => disk.writeBlocks (landed blocks fates)

/-- The end of a round: the ring moves on, or starts again behind the new image. -/
def FileService.finishRound (service : FileService) (write : RoundWrite) : FileService :=
  match write with
  | .sector _ _ => { service with curRingSector := service.curRingSector + 1, round := none }
  | .image _ =>
    { service with curRingSector := 0, writeNext := service.writeNext.other, round := none }

/-! ## The system -/

/--
A file service and its disk.  `settled` is the map after every operation whose
completion was signalled.  While no service is open, `inFlight` holds the operations of
the round the crash cut, and `owned` the blocks that the last service held.
`interrupted` lists, by version, the blocks after the head of each image whose write a
crash cut.
-/
structure FileSystem where
  disk : FileDisk
  service : Option FileService
  settled : FileMap
  inFlight : List FileOp
  owned : List Nat
  interrupted : List (Nat × Nat)

/-- A new file service. -/
def createSystem : FileSystem where
  disk := .create config
  service := some (createService config)
  settled := ∅
  inFlight := []
  owned := []
  interrupted := []

/-- What can happen. -/
inductive FileEvent where
  /-- `InsertFile`, up to the map. -/
  | insertFile (entry : FileEntry)
  /-- `RemoveFile`, up to the map. -/
  | removeFile (fileUid : StoreId) (genId : Nat)
  /-- The other half of either: an operation enters the queue. -/
  | enqueue (index : Nat)
  /-- The runner takes operations and starts to write. -/
  | startRound (files : List FileEntry) (newBlocks : List Nat)
  /-- The write is synced, and the operations complete. -/
  | finishRound
  /-- Another owner writes a block the service does not hold. -/
  | otherWrite (blockId : Nat)
  | crash (sectorKept : Bool) (fates : List BlockFate)
  /-- A service is opened; the files mark their blocks first. -/
  | openFrom (inUse : List Nat)

/-- The blocks after the head that a write interrupted by a crash took. -/
def RoundWrite.interrupted : RoundWrite → List (Nat × Nat)
  | .sector _ _ => []
  | .image blocks => blocks.tail.map fun write => (write.2.version, write.1)

section Steps

variable (config : FileConfig) (system : FileSystem)

/-- The system after a crash. -/
def FileSystem.crash (service : FileService) (sectorKept : Bool) (fates : List BlockFate) :
    FileSystem :=
  match service.round with
  | none =>
    { system with service := none, inFlight := [], owned := service.owned }
  | some round =>
    { system with
      disk := round.write.cut system.disk sectorKept fates
      service := none
      inFlight := round.ops
      owned := service.owned
      interrupted := system.interrupted ++ round.write.interrupted }

/-- An event while a service is open. -/
def serviceStep (service : FileService) : FileEvent → Option FileSystem
  | .insertFile entry =>
    (service.map.addToMap entry).map fun map =>
      { system with service := some { service with
          map := map
          unqueued := service.unqueued ++ [.insertFile entry] } }
  | .removeFile fileUid genId =>
    (service.map.removeFromMap fileUid genId).map fun map =>
      { system with service := some { service with
          map := map
          unqueued := service.unqueued ++ [.removeFile fileUid genId] } }
  | .enqueue index =>
    (service.unqueued[index]?).map fun op =>
      { system with service := some { service with
          unqueued := service.unqueued.eraseIdx index
          opQueue := service.opQueue ++ [op] } }
  | .startRound files newBlocks =>
    (startRound config service files newBlocks).map fun
      | .started service => { system with service := some service }
      | .threw => system.crash service false []
  | .finishRound =>
    service.round.bind fun round =>
      (applyOps system.settled round.ops).map fun settled =>
        { system with
          disk := round.write.finish system.disk
          service := some (service.finishRound round.write)
          settled := settled }
  | .otherWrite blockId =>
    if blockId ∈ service.owned then none
    else some { system with
      disk := { system.disk with block := Function.update system.disk.block blockId none } }
  | .crash sectorKept fates => some (system.crash service sectorKept fates)
  | .openFrom _ => none

/-- One event.  Files never hold a block that the file service held. -/
def fileStep (event : FileEvent) : Option FileSystem :=
  match system.service with
  | some service => serviceStep config system service event
  | none =>
    match event with
    | .openFrom inUse =>
      if ∀ blockId ∈ system.owned, blockId ∉ inUse then
        match openService config system.disk inUse with
        | .ok service =>
          some { system with
            service := some service
            settled := service.map
            inFlight := []
            owned := [] }
        | .error _ => none
      else none
    | _ => none

end Steps

end Orly
