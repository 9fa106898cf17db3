import Orly.FileServiceRuns

namespace Orly

/-!
# Steps of the file service

Each step of a run keeps the invariant: the calls, the start and the end of a round,
writes of other owners, a crash at any point, and opening.
-/

open List

variable {config : FileConfig} {system : FileSystem} {disk : FileDisk}
  {interrupted : List (Nat × Nat)} {settled : FileMap} {service : FileService} {holding : Holding}

/-! ## Calls -/

/-- The round does not look at the calls' side of the service. -/
theorem RoundAt.calls (round : RoundAt config interrupted holding settled service) (map : FileMap)
    (unqueued opQueue : List FileOp) :
    RoundAt config interrupted holding settled
      { service with map := map, unqueued := unqueued, opQueue := opQueue } := by
  cases round with
  | idle noRound sameFiles version => exact .idle noRound sameFiles version
  | sector isRound room named applied sameFiles version =>
    exact .sector isRound room named applied sameFiles version
  | image isRound full named applied sameFiles version may inImage filesOf =>
    exact .image isRound full named applied sameFiles version may inImage filesOf

/-- A call changes the map and the operations that wait. -/
theorem RunningOn.calls
    (running : RunningOn config disk interrupted settled service holding) (map : FileMap)
    {unqueued opQueue : List FileOp} (unqueuedNamed : ∀ op ∈ unqueued, op.fileUid ≠ nilUid)
    (queueNamed : ∀ op ∈ opQueue, op.fileUid ≠ nilUid) :
    RunningOn config disk interrupted settled
      { service with map := map, unqueued := unqueued, opQueue := opQueue } holding :=
  { running with
    blocks := { running.blocks with }
    round := running.round.calls map unqueued opQueue
    unqueuedNamed
    queueNamed }

/-! ## The start of a round -/

theorem blocksRequired_pos (numFiles : Nat) : 0 < blocksRequired numFiles := by
  unfold blocksRequired
  omega

/-- The required blocks have room for the files. -/
theorem blocksRequired_room (numFiles : Nat) :
    numFiles ≤ filesPerImageBlock * blocksRequired numFiles := by
  unfold blocksRequired filesPerImageBlock
  omega

/-- A map without files under the nil uid lists none. -/
theorem FilesOf.named {files : List FileEntry} {map : FileMap} (filesOf : FilesOf files map)
    (keyed : map.Keyed) :
    ∀ entry ∈ files, entry.fileUid ≠ nilUid := by
  intro entry mem isNil
  have found := (filesOf.mem entry.fileUid entry.file.genId entry.file).mpr ⟨rfl, mem⟩
  rw [isNil, keyed.notNil] at found
  contradiction

namespace RunningOn

variable (running : RunningOn config disk interrupted settled service holding)

include running

/-- While no round is under way the runner's map is the settled one. -/
theorem idle (noRound : service.round = none) :
    SameFiles service.runnerCopyMap settled ∧ service.versionNumber = holding.version := by
  cases running.round with
  | idle _ sameFiles version => exact ⟨sameFiles, version⟩
  | sector isRound => simp [noRound] at isRound
  | image isRound => simp [noRound] at isRound

/-- A round may write its image to the blocks it resized to. -/
theorem mayWrite {map : FileMap} {files : List FileEntry} {newBlocks resized : List Nat}
    (safe : SafeImage config interrupted service files newBlocks)
    (version : service.versionNumber = holding.version)
    (full : service.curRingSector = config.numSectors) (keyed : map.Keyed)
    (filesOf : FilesOf files map)
    (isResized : resizeImage config service.owned (service.blocksOf service.writeNext)
      newBlocks (blocksRequired files.length) = some resized) :
    ∃ blockIds, resized.take (blocksRequired files.length) =
          config.headOf (alternateOf holding.base) :: blockIds ∧
        (∀ blockId ∈ blockIds, blockId ∈ resized) ∧
        MayWrite config interrupted (alternateOf holding.base) holding.chain
          (holding.version + 1) blockIds files := by
  obtain ⟨enough, sameBlocks, -⟩ := resizeImage_cases isResized
  unfold SafeImage nextImageBlocks at safe
  rw [← sameBlocks, version] at safe
  rw [running.writeNext] at isResized
  have held := running.blocks.resize isResized
  obtain ⟨rest, isHead⟩ := held.heads (alternateOf holding.base)
  rw [FileService.blocksOf_setBlocks_self] at isHead
  have distinct := held.distinct
  rw [((service.setBlocks (alternateOf holding.base) resized).owned_perm
    (alternateOf holding.base)).nodup_iff, FileService.blocksOf_setBlocks_self,
    FileService.blocksOf_setBlocks_other] at distinct
  obtain ⟨leftDistinct, -, apart⟩ := nodup_append.mp distinct
  obtain ⟨count, isCount⟩ := Nat.exists_eq_add_one_of_ne_zero
    (Nat.ne_of_gt (blocksRequired_pos files.length))
  have taken : resized.take (blocksRequired files.length) =
      config.headOf (alternateOf holding.base) :: rest.take count := by
    rw [isCount, isHead, take_succ_cons]
  have inResized : ∀ blockId ∈ config.headOf (alternateOf holding.base) :: rest.take count,
      blockId ∈ resized := by
    intro blockId mem
    rw [← taken] at mem
    exact mem_of_mem_take mem
  refine ⟨rest.take count, taken, fun blockId mem => inResized blockId (mem_cons_of_mem _ mem), ?_⟩
  constructor
  case distinct =>
    rw [← taken]
    exact leftDistinct.sublist (take_sublist _ _)
  case fits =>
    intro blockId mem
    refine held.fits blockId (BlocksHeld.mem_owned (alternateOf holding.base) ?_)
    rw [FileService.blocksOf_setBlocks_self]
    exact inResized blockId mem
  case avoidsHead =>
    intro mem
    obtain ⟨otherRest, isOther⟩ := running.blocks.heads (alternateOf holding.base).other
    refine apart _ (inResized _ mem) _ ?_ rfl
    rw [isOther]
    exact mem_cons_self
  case avoidsChain =>
    intro blockId inChain mem
    exact apart _ (inResized _ mem) _
      (running.blocks.chain_mem running.on.image.unbased blockId inChain) rfl
  case fresh =>
    intro blockId mem
    rw [taken, tail_cons] at safe
    exact safe full blockId mem
  case named => exact filesOf.named keyed
  case room =>
    have length : (rest.take count).length + 1 = blocksRequired files.length := by
      have counted := congrArg List.length taken
      rw [length_take, Nat.min_eq_left enough, length_cons] at counted
      exact counted.symm
    rw [length]
    exact blocksRequired_room files.length

/-- A round that starts is under way over the same disk. -/
theorem startRound {files : List FileEntry} {newBlocks : List Nat} {next : FileService}
    (safe : SafeImage config interrupted service files newBlocks)
    (started : startRound config service files newBlocks = some (.started next)) :
    RunningOn config disk interrupted settled next holding := by
  obtain ⟨noRound, threw | ⟨map, applied, cases⟩⟩ := startRound_cases started
  · contradiction
  · obtain ⟨sameFiles, version⟩ := running.idle noRound
    obtain ⟨after, appliedSettled, sameAfter⟩ := sameFiles.applyOps applied
    have named : ∀ op ∈ service.opQueue.take filesPerSector, op.fileUid ≠ nilUid :=
      fun op mem => running.queueNamed op (mem_of_mem_take mem)
    have stillNamed : ∀ op ∈ service.opQueue.drop filesPerSector, op.fileUid ≠ nilUid :=
      fun op mem => running.queueNamed op (mem_of_mem_drop mem)
    rcases cases with ⟨room, isNext⟩ | ⟨full, perm, blocks, isResized, isNext⟩
    · obtain rfl := RoundStart.started.inj isNext
      have inRing : holding.rounds.length < config.numSectors := by
        have fits := running.on.ring.fits
        rw [running.position] at room
        omega
      exact { running with
        blocks := { running.blocks with }
        round := .sector (by rw [running.position, version]) inRing named appliedSettled
          sameAfter (congrArg (· + 1) version)
        queueNamed := stillNamed }
    · obtain rfl := RoundStart.started.inj isNext
      have mapKeyed : map.Keyed := (running.keyed.applyOps named appliedSettled).same sameAfter.symm
      have filesOf := (FileMap.filesOf_entries mapKeyed).perm perm
      obtain ⟨blockIds, taken, inResized, may⟩ :=
        running.mayWrite safe version full mapKeyed filesOf isResized
      rw [taken, version]
      have alternate := running.writeNext
      rw [alternate] at isResized ⊢
      have held := running.blocks.resize isResized
      exact { running with
        blocks := { held with }
        writeNext := alternate
        round := .image rfl (running.position.symm.trans full) named appliedSettled
          sameAfter (congrArg (· + 1) version) may
          (fun blockId mem => by
            have isBlock := inResized blockId mem
            rw [← service.blocksOf_setBlocks_self (alternateOf holding.base) blocks] at isBlock
            exact isBlock)
          filesOf
        queueNamed := stillNamed }

end RunningOn

/-! ## What a round adds to the holding -/

namespace Holding

/-- The holding with one more round. -/
def addRound (holding : Holding) (ops : List FileOp) : Holding :=
  { holding with rounds := holding.rounds ++ [ops] }

/-- The holding of a new base. -/
def ofImage (slot : ImageSlot) (version : Nat) (chain : List Nat) (map : FileMap) : Holding :=
  ⟨some slot, version, chain, map, []⟩

theorem version_addRound (holding : Holding) (ops : List FileOp) :
    (holding.addRound ops).version = holding.version + 1 := by
  simp [version, addRound, Nat.add_assoc]

theorem Shows.addRound {ops : List FileOp} {after : FileMap} (shows : holding.Shows settled)
    (applied : applyOps settled ops = some after) :
    (holding.addRound ops).Shows after := by
  obtain ⟨map, isMap, sameFiles⟩ := shows
  obtain ⟨next, appliedNext, sameNext⟩ := sameFiles.symm.applyOps applied
  refine ⟨next, ?_, sameNext.symm⟩
  change applyOps holding.baseMap (holding.rounds ++ [ops]).flatten = some next
  rw [flatten_append, flatten_singleton, applyOps_append, isMap]
  exact appliedNext

theorem shows_ofImage {slot : ImageSlot} {version : Nat} {chain : List Nat} {map target : FileMap}
    (sameFiles : SameFiles map target) :
    (ofImage slot version chain map).Shows target :=
  ⟨map, rfl, sameFiles⟩

end Holding

/-- More interrupted writes to avoid leave a holding as it is. -/
theorem DiskHolds.mono
    {base : Option ImageSlot} {baseVersion : Nat} {chain : List Nat} {baseMap : FileMap}
    {rounds : List (List FileOp)}
    (on : DiskHolds config disk interrupted base baseVersion chain baseMap rounds)
    (more : List (Nat × Nat)) :
    DiskHolds config disk (interrupted ++ more) base baseVersion chain baseMap rounds :=
  { on with
    nothingNewer := {
      versions := on.nothingNewer.versions
      taken := fun blockId block isBlock isNew =>
        (on.nothingNewer.taken blockId block isBlock isNew).imp_right
          (mem_append_left more)
      links := fun blockId block isBlock isNew next linked =>
        (on.nothingNewer.links blockId block isBlock isNew next linked).imp_right
          (mem_append_left more) } }

theorem interrupted_imageBlocks (version blockId : Nat) (blockIds : List Nat)
    (files : List FileEntry) :
    (RoundWrite.image (imageBlocks version (blockId :: blockIds) files)).interrupted =
      blockIds.map fun blockId => (version, blockId) := by
  have sameVersion : ∀ write ∈ imageBlocks version blockIds (files.drop filesPerImageBlock),
      (write.2.version, write.1) = (version, write.1) :=
    fun write mem => by rw [(imageBlocks_mem mem).2.1]
  change (imageBlocks version (blockId :: blockIds) files).tail.map _ = _
  rw [imageBlocks_cons, tail_cons, map_congr_left sameVersion,
    ← imageBlocks_ids version blockIds (files.drop filesPerImageBlock), map_map,
    imageBlocks_ids]
  rfl

/-! ## The end of a round -/

/-- The other owners' blocks are neither heads nor in the chain of the base. -/
theorem RunningOn.otherWrite
    {blockId : Nat} (running : RunningOn config disk interrupted settled service holding)
    (notOwned : blockId ∉ service.owned) :
    RunningOn config { disk with block := Function.update disk.block blockId none }
      interrupted settled service holding := by
  refine { running with on := DiskHolds.otherWrite running.on ?_ ?_ }
  · rintro slot rfl
    obtain ⟨rest, isHead⟩ := running.blocks.heads slot
    refine notOwned (BlocksHeld.mem_owned slot ?_)
    rw [isHead]
    exact mem_cons_self
  · intro inChain
    exact notOwned (BlocksHeld.mem_owned _
      (running.blocks.chain_mem running.on.image.unbased blockId inChain))

/-- A round that ends has settled its operations. -/
theorem RunningOn.finishRound {round : FileRound} {after : FileMap}
    (running : RunningOn config disk interrupted settled service holding)
    (isRound : service.round = some round) (applied : applyOps settled round.ops = some after) :
    ∃ next, RunningOn config (round.write.finish disk) interrupted after
      (service.finishRound round.write) next := by
  cases running.round with
  | idle noRound =>
    rw [isRound] at noRound
    contradiction
  | @sector ops expected isSector room named isApplied sameFiles version =>
    obtain rfl := Option.some.inj (isRound.symm.trans isSector)
    obtain rfl := Option.some.inj (applied.symm.trans isApplied)
    refine ⟨holding.addRound ops, ?_⟩
    exact { running with
      on := DiskHolds.writeSector running.on room named
      shows := running.shows.addRound applied
      keyed := running.keyed.applyOps named applied
      blocks := { running.blocks with }
      position := by
        change service.curRingSector + 1 = (holding.rounds ++ [ops]).length
        rw [running.position, length_append, length_singleton]
      round := .idle rfl sameFiles (by
        rw [holding.version_addRound]
        exact version) }
  | @image ops expected blockIds files isImage full named isApplied sameFiles version may
      inImage filesOf =>
      obtain rfl := Option.some.inj (isRound.symm.trans isImage)
      obtain rfl := Option.some.inj (applied.symm.trans isApplied)
      obtain ⟨isHead, chained⟩ := DiskHolds.chain_all_written may disk
      obtain ⟨loaded, loads, sameLoaded⟩ := filesOf.addEntries
      refine ⟨.ofImage (alternateOf holding.base) (holding.version + 1) blockIds loaded, ?_⟩
      exact {
        on := DiskHolds.writeBlocks_whole running.on rfl may (partOf_all _) isHead chained
          loads full
        shows := Holding.shows_ofImage (sameLoaded.trans sameFiles)
        keyed := running.keyed.applyOps named applied
        blocks := {
          heads := running.blocks.heads
          distinct := running.blocks.distinct
          fits := running.blocks.fits
          holdsBase := by
            intro slot isBase blockId mem
            cases isBase
            exact inImage blockId mem }
        writeNext := congrArg ImageSlot.other running.writeNext
        position := rfl
        round := .idle rfl sameFiles version
        unqueuedNamed := running.unqueuedNamed
        queueNamed := running.queueNamed }

/-! ## A crash -/

/-- A crash leaves the settled map, or that of the round it cut. -/
theorem RunningOn.crash
    (running : RunningOn config system.disk system.interrupted system.settled service holding)
    (sectorKept : Bool) (fates : List BlockFate) :
    ∃ left, LeftOn config (system.crash service sectorKept fates) left := by
  have owned : ∀ blockId ∈ holding.chain, blockId ∈ service.owned :=
    fun blockId mem => BlocksHeld.mem_owned _
      (running.blocks.chain_mem running.on.image.unbased blockId mem)
  have settledShows : ∃ target, holding.Shows target ∧ target.Keyed ∧
      (target = system.settled ∨ applyOps system.settled [] = some target) :=
    ⟨system.settled, running.shows, running.keyed, .inl rfl⟩
  unfold FileSystem.crash
  cases running.round with
  | idle noRound =>
    rw [noRound]
    exact ⟨holding, running.on, settledShows, owned⟩
  | @sector ops after isSector room named applied sameFiles version =>
    rw [isSector]
    cases sectorKept with
    | false =>
      exact ⟨holding, DiskHolds.mono running.on _,
        ⟨system.settled, running.shows, running.keyed, .inl rfl⟩, owned⟩
    | true =>
      refine ⟨holding.addRound ops, ?_, ⟨after, running.shows.addRound applied,
        running.keyed.applyOps named applied, .inr applied⟩, owned⟩
      exact DiskHolds.mono (DiskHolds.writeSector running.on room named) _
  | @image ops after blockIds files isImage full named applied sameFiles version may inImage
      filesOf =>
      rw [isImage]
      have part := partOf_landed (imageBlocks (holding.version + 1)
        (config.headOf (alternateOf holding.base) :: blockIds) files) fates
      by_cases whole : ∃ head found foundFiles,
          (system.disk.writeBlocks (landed (imageBlocks (holding.version + 1)
              (config.headOf (alternateOf holding.base) :: blockIds) files) fates)).readBlock
            config (config.headOf (alternateOf holding.base)) = some head ∧
          ImageChain config (system.disk.writeBlocks (landed (imageBlocks (holding.version + 1)
              (config.headOf (alternateOf holding.base) :: blockIds) files) fates))
            (holding.version + 1) head found foundFiles
      · obtain ⟨head, found, foundFiles, isHead, chained⟩ := whole
        obtain ⟨loaded, loads, sameLoaded⟩ := filesOf.addEntries
        refine ⟨.ofImage (alternateOf holding.base) (holding.version + 1) blockIds loaded,
          ?_, ⟨after, Holding.shows_ofImage (sameLoaded.trans sameFiles),
            running.keyed.applyOps named applied, .inr applied⟩, ?_⟩
        · exact DiskHolds.mono (DiskHolds.writeBlocks_whole running.on rfl may part isHead
            chained loads full) _
        · exact fun blockId mem => BlocksHeld.mem_owned _ (inImage blockId mem)
      · refine ⟨holding, ?_, ⟨system.settled, running.shows, running.keyed, .inl rfl⟩, owned⟩
        have broken := DiskHolds.writeBlocks_broken running.on rfl may part full
          fun head found foundFiles isHead chained =>
            whole ⟨head, found, foundFiles, isHead, chained⟩
        rw [← interrupted_imageBlocks _ (config.headOf (alternateOf holding.base)) _ files]
          at broken
        exact broken

/-! ## Opening -/

/-- Opening what a crash left. -/
theorem LeftOn.opens {inUse : List Nat} (left : LeftOn config system holding)
    (free : ∀ blockId ∈ system.owned, blockId ∉ inUse) :
    ∃ service, openService config system.disk inUse = .ok service ∧
      service.runnerCopyMap = service.map ∧
      (SameFiles service.map system.settled ∨
        ∃ after, applyOps system.settled system.inFlight = some after ∧
          SameFiles service.map after) ∧
      RunningOn config system.disk system.interrupted service.map service holding := by
  obtain ⟨target, ⟨map, applied, sameFiles⟩, keyed, isTarget⟩ := left.shows
  have chainFree : ∀ blockId ∈ holding.chain, blockId ∉ inUse :=
    fun blockId mem => free blockId (left.owned blockId mem)
  refine ⟨_, DiskHolds.openService_eq left.on inUse applied, rfl, ?_, ?_⟩
  · rcases isTarget with rfl | isAfter
    · exact .inl sameFiles
    · exact .inr ⟨target, isAfter, sameFiles⟩
  · exact {
      on := left.on
      shows := ⟨map, applied, SameFiles.refl map⟩
      keyed := keyed.same sameFiles.symm
      blocks := DiskHolds.blocksHeld_startService left.on _ chainFree
      writeNext := rfl
      position := rfl
      round := .idle rfl (SameFiles.refl map) rfl
      unqueuedNamed := by simp [startService]
      queueNamed := by simp [startService] }

end Orly
