import Orly.FileServiceSteps

namespace Orly

/-!
# The file map across crashes

A file service that is opened after a crash reads the map of every operation whose
completion was signalled, with all or none of those of the round the crash cut, in every
run that keeps its images apart: no image goes to a block that an interrupted write of
an image of the same version took.  Without that a crash may mix two images.
-/

open List FileDisk

/--
What opening owes after a crash: it does not throw, whatever blocks the files marked; it
finds no two images of one version; and it reads the settled map, or that with every
operation of the cut round.
-/
def ReadsBack (config : FileConfig) (system : FileSystem) : Prop :=
  system.service = none →
    (headVersion config system.disk .image1 = headVersion config system.disk .image2 →
      headVersion config system.disk .image1 = 0) ∧
    ∀ inUse, (∀ blockId ∈ system.owned, blockId ∉ inUse) →
      ∃ service, openService config system.disk inUse = .ok service ∧
        service.runnerCopyMap = service.map ∧
        (SameFiles service.map system.settled ∨
          ∃ after, applyOps system.settled system.inFlight = some after ∧
            SameFiles service.map after)

variable {config : FileConfig} {system after : FileSystem} {event : FileEvent}

/-! ## Every state of a run -/

/-- A new file service holds nothing, and its disk neither. -/
theorem fileInvariant_createSystem (config : FileConfig) :
    FileInvariant config (createSystem config) := by
  have readHead : ∀ slot, (create config).readBlock config (config.headOf slot) =
      some zeroBlock := by
    intro slot
    cases slot with
    | image1 => simp [readBlock, create, FileConfig.headOf, config.image1Fits]
    | image2 => simp [readBlock, create, FileConfig.headOf, config.image2Fits]
  have zeroVersion : ∀ blockId block,
      (create config).block blockId = some block → block.version = 0 := by
    intro blockId block isBlock
    unfold create at isBlock
    simp only at isBlock
    split at isBlock
    case isTrue => exact Option.some.inj isBlock ▸ rfl
    case isFalse => contradiction
  refine ⟨⟨none, 0, [], ∅, []⟩, ?_⟩
  exact {
    on := {
      image := .scratch (readHead .image2) rfl
      ring := ⟨Nat.zero_le _, by simp, fun _ _ _ => Nat.le_refl 0, by simp⟩
      alternate := .older (readHead .image1) (.inl rfl)
      nothingNewer := {
        versions := fun blockId block isBlock => by
          rw [zeroVersion blockId block isBlock]
          exact Nat.zero_le _
        taken := fun blockId block isBlock isNew => by
          rw [zeroVersion blockId block isBlock] at isNew
          contradiction
        links := fun blockId block isBlock isNew => by
          rw [zeroVersion blockId block isBlock] at isNew
          contradiction } }
    shows := ⟨∅, rfl, SameFiles.refl ∅⟩
    keyed := keyed_empty
    blocks := {
      heads := fun slot => by cases slot <;> exact ⟨[], rfl⟩
      distinct := by simp [createService, FileService.owned, config.imagesDiffer]
      fits := by
        simp [createService, FileService.owned, config.image1Fits, config.image2Fits]
      holdsBase := by simp }
    writeNext := rfl
    position := rfl
    round := .idle rfl (SameFiles.refl ∅) rfl
    unqueuedNamed := by simp [createService]
    queueNamed := by simp [createService] }

/-- An event while a service is open keeps the invariant. -/
theorem FileInvariant.serviceStep
    {service : FileService} {holding : Holding} (isOpen : system.service = some service)
    (running : RunningOn config system.disk system.interrupted system.settled service holding)
    (safe : SafeEvent config system event)
    (stepped : serviceStep config system service event = some after) :
    FileInvariant config after := by
  cases event with
  | insertFile | removeFile =>
    obtain ⟨map, -, rfl⟩ := Option.map_eq_some_iff.mp stepped
    refine ⟨holding, running.calls map ?_ running.queueNamed⟩
    intro op mem
    rcases mem_append.mp mem with earlier | isNew
    · exact running.unqueuedNamed op earlier
    · rw [mem_singleton.mp isNew]
      exact safe
  | enqueue index =>
    obtain ⟨op, isOp, rfl⟩ := Option.map_eq_some_iff.mp stepped
    refine ⟨holding, running.calls service.map ?_ ?_⟩
    · exact fun other mem =>
        running.unqueuedNamed other (mem_of_mem_eraseIdx mem)
    · intro other mem
      rcases mem_append.mp mem with earlier | isNew
      · exact running.queueNamed other earlier
      · rw [mem_singleton.mp isNew]
        exact running.unqueuedNamed op (mem_of_getElem? isOp)
  | startRound files newBlocks =>
    obtain ⟨start, started, rfl⟩ := Option.map_eq_some_iff.mp stepped
    cases start with
    | started next => exact ⟨holding, running.startRound (safe service isOpen) started⟩
    | threw =>
      obtain ⟨noRound, -⟩ := startRound_cases started
      have left := running.crash false []
      unfold FileInvariant
      unfold FileSystem.crash at left ⊢
      rw [noRound] at left ⊢
      exact left
  | finishRound =>
    obtain ⟨round, isRound, finished⟩ := Option.bind_eq_some_iff.mp stepped
    obtain ⟨settled, applied, rfl⟩ := Option.map_eq_some_iff.mp finished
    exact running.finishRound isRound applied
  | otherWrite blockId =>
    simp only [Orly.serviceStep] at stepped
    obtain ⟨notOwned, stepped⟩ := Option.ite_none_left_eq_some.mp stepped
    cases stepped
    unfold FileInvariant
    simp only [isOpen]
    exact ⟨holding, running.otherWrite notOwned⟩
  | crash sectorKept fates =>
    cases stepped
    have left := running.crash sectorKept fates
    unfold FileInvariant
    have closed : (system.crash service sectorKept fates).service = none := by
      unfold FileSystem.crash
      split <;> rfl
    rw [closed]
    exact left
  | openFrom => contradiction

/-- Every allowed event keeps the invariant. -/
theorem FileInvariant.fileStep
    (invariant : FileInvariant config system) (safe : SafeEvent config system event)
    (stepped : fileStep config system event = some after) :
    FileInvariant config after := by
  unfold Orly.fileStep at stepped
  unfold FileInvariant at invariant
  split at stepped
  case h_1 service isOpen =>
    rw [isOpen] at invariant
    obtain ⟨holding, running⟩ := invariant
    exact FileInvariant.serviceStep isOpen running safe stepped
  case h_2 isClosed =>
    rw [isClosed] at invariant
    obtain ⟨holding, left⟩ := invariant
    cases event with
    | openFrom inUse =>
      simp only at stepped
      obtain ⟨free, stepped⟩ := Option.ite_none_right_eq_some.mp stepped
      obtain ⟨service, opened, -, -, running⟩ := left.opens free
      rw [opened] at stepped
      cases stepped
      exact ⟨holding, running⟩
    | _ => contradiction

/-- After every crash of a run that keeps its images apart, opening reads the file map
back. -/
theorem file_map_survives_crashes
    (reached : EventRuns.Reaches (fileStep config) (SafeEvent config) (createSystem config)
      system) :
    ReadsBack config system := by
  have invariant : FileInvariant config system :=
    reached.invariant (fileInvariant_createSystem config)
      fun _ _ _ invariant safe stepped => invariant.fileStep safe stepped
  intro isClosed
  unfold FileInvariant at invariant
  rw [isClosed] at invariant
  obtain ⟨holding, left⟩ := invariant
  refine ⟨DiskHolds.versions_differ left.on, fun inUse free => ?_⟩
  obtain ⟨service, opened, sameMaps, reads, -⟩ := left.opens free
  exact ⟨service, opened, sameMaps, reads⟩

/-! ## Runs -/

/-- A service with one append log block. -/
def smallFileConfig : FileConfig := ⟨0, 1, 1, 10, by decide, by decide, by decide, by decide⟩

/-- File number `number`, thirty-two to a uid. -/
def sampleEntry (number : Nat) : FileEntry where
  fileUid := ⟨UInt8.ofNat (number / 32 + 1) :: List.replicate 15 0, by simp⟩
  file := ⟨.dataFile, number % 32, number, 0, 1, 1, 1, 1⟩

/-- Insert a file and queue the operation. -/
def insertEvents (number : Nat) : List FileEvent :=
  [.insertFile (sampleEntry number), .enqueue 0]

/-- A whole round that writes a sector. -/
def sectorRound : List FileEvent := [.startRound [] [], .finishRound]

/-- Remove a file and queue the operation. -/
def removeEvents (number : Nat) : List FileEvent :=
  [.removeFile (sampleEntry number).fileUid (sampleEntry number).file.genId, .enqueue 0]

/-- Rounds that fill the ring, one that writes a base image, and one that a crash cuts. -/
def cutRoundEvents : List FileEvent :=
  insertEvents 0 ++ sectorRound ++ (List.range 63).flatMap (fun _ =>
      insertEvents 1 ++ sectorRound ++ removeEvents 1 ++ sectorRound) ++
    insertEvents 1 ++ sectorRound ++
    insertEvents 2 ++ [.startRound ([0, 1, 2].map sampleEntry) [3], .finishRound] ++
    insertEvents 3 ++ [.startRound [] [], .crash true [], .openFrom [7], .crash false []]

/-- The run reaches a state after a crash, where the file map is read back from the image
and the ring. -/
theorem file_map_survives_crashes_cutRound :
    ∃ system, EventRuns.run (fileStep smallFileConfig) (SafeEvent smallFileConfig)
        (createSystem smallFileConfig) cutRoundEvents = some system ∧
      (system.service.isNone ∧ (system.disk.block smallFileConfig.image1).any (·.version = 129)) ∧
      ReadsBack smallFileConfig system := by
  have ran : (EventRuns.run (fileStep smallFileConfig) (SafeEvent smallFileConfig)
      (createSystem smallFileConfig) cutRoundEvents).any (fun system => system.service.isNone ∧
        (system.disk.block smallFileConfig.image1).any (·.version = 129)) = true := by
    decide +kernel
  obtain ⟨system, isSystem, isClosed⟩ := (Option.any_eq_true _ _).mp ran
  exact ⟨system, isSystem, of_decide_eq_true isClosed,
    file_map_survives_crashes (EventRuns.reaches_of_run isSystem)⟩

/-- A file is removed only after its insert completed. -/
def RemovesCompleted (system : FileSystem) : FileEvent → Prop
  | .removeFile fileUid genId => (system.settled.find fileUid genId).isSome
  | _ => True

instance (system : FileSystem) : ∀ event, Decidable (RemovesCompleted system event)
  | .removeFile _ _ => inferInstanceAs (Decidable (_ = true))
  | .insertFile _ | .startRound _ _ | .enqueue _ | .finishRound | .otherWrite _ | .crash _ _
  | .openFrom _ => inferInstanceAs (Decidable True)

/-- A service with two append log blocks. -/
def largeFileConfig : FileConfig := ⟨0, 1, 2, 10, by decide, by decide, by decide, by decide⟩

/-! ## Two images of one version -/

/-- A service whose queue holds some operations, `place` sectors of its ring written. -/
def queuedSystem
    (config : FileConfig) (disk : FileDisk) (settled map : FileMap) (queue : List FileOp)
    (place : Nat)
    (interrupted : List (Nat × Nat)) : FileSystem where
  disk := disk
  service := some
    { createService config with
      map := map
      runnerCopyMap := settled
      versionNumber := place
      curRingSector := place
      opQueue := queue }
  settled := settled
  inFlight := []
  owned := []
  interrupted := interrupted

/-- The ring with these operations from a place on. -/
def writeRing (disk : FileDisk) (place : Nat) : List (List FileOp) → FileDisk
  | [] => disk
  | ops :: batches => writeRing (disk.writeSector place ⟨place + 1, ops⟩) (place + 1) batches

/-- An insert. -/
def FileOp.isInsert : FileOp → Bool
  | .insertFile _ => true
  | .removeFile _ _ => false

section Rounds

variable {config : FileConfig} {disk : FileDisk} {settled map after : FileMap} {queue : List FileOp}
  {place : Nat} {interrupted : List (Nat × Nat)}

variable {start : FileSystem} {batches : List (List FileOp)}

/-- A run that removes files only once their inserts have completed. -/
abbrev Visits (config : FileConfig) : FileSystem → FileSystem → Prop :=
  EventRuns.Reaches (fileStep config) RemovesCompleted

/-- An operation enters the queue.  A remove must find its file settled. -/
theorem reaches_queued {op : FileOp}
    (reached : Visits config start (queuedSystem config disk settled map queue place interrupted))
    (applied : op.apply map = some after) (completed : op.isInsert = true ∨ map = settled) :
    Visits config start
      (queuedSystem config disk settled after (queue ++ [op]) place interrupted) := by
  cases op with
  | insertFile entry =>
    have inserted := reached.tail (show RemovesCompleted _ (.insertFile entry) from trivial)
      (by simp [fileStep, queuedSystem, serviceStep]; exact ⟨after, applied, rfl⟩)
    exact inserted.tail (show RemovesCompleted _ (.enqueue 0) from trivial) rfl
  | removeFile fileUid genId =>
    obtain rfl := completed.resolve_left (by simp [FileOp.isInsert])
    have isThere := (FileMap.removeFromMap_eq_some.mp applied).1
    have removed := reached.tail (show RemovesCompleted _ (.removeFile fileUid genId) from isThere)
      (by simp [fileStep, queuedSystem, serviceStep]; exact ⟨after, applied, rfl⟩)
    exact removed.tail (show RemovesCompleted _ (.enqueue 0) from trivial) rfl

theorem reaches_queuedInserts {ops : List FileOp} (inserts : ∀ op ∈ ops, op.isInsert = true)
    (reached : Visits config start (queuedSystem config disk settled map queue place interrupted))
    (applied : applyOps map ops = some after) :
    Visits config start
      (queuedSystem config disk settled after (queue ++ ops) place interrupted) := by
  induction ops generalizing map queue with
  | nil =>
    obtain rfl : map = after := Option.some.inj applied
    rw [append_nil]
    exact reached
  | cons op ops ih =>
    obtain ⟨next, opApplied, restApplied⟩ := Option.bind_eq_some_iff.mp applied
    have queued := reaches_queued reached opApplied (Or.inl (inserts op mem_cons_self))
    have rest := ih (fun later mem => inserts later (mem_cons_of_mem _ mem)) queued restApplied
    rw [append_assoc] at rest
    exact rest

/-- Operations that one round takes: all inserts, of files that are named. -/
def TakenAtOnce (ops : List FileOp) : Prop :=
  0 < ops.length ∧ ops.length ≤ filesPerSector ∧
    ∀ op ∈ ops, op.isInsert = true ∧ op.fileUid ≠ nilUid

instance (ops : List FileOp) : Decidable (TakenAtOnce ops) :=
  inferInstanceAs (Decidable (_ ∧ _ ∧ _))

/-- A round writes a sector. -/
theorem reaches_sectorRound
    {ops : List FileOp} (taken : TakenAtOnce ops) (room : place < config.numSectors)
    (reached : Visits config start (queuedSystem config disk map map [] place interrupted))
    (applied : applyOps map ops = some after) :
    Visits config start
      (queuedSystem config (disk.writeSector place ⟨place + 1, ops⟩) after after [] (place + 1)
        interrupted) := by
  obtain ⟨some, few, inserts⟩ := taken
  have queued : Visits config start (queuedSystem config disk map after ops place interrupted) := by
    exact reaches_queuedInserts (fun op mem => (inserts op mem).1) reached applied
  have notEmpty : ops ≠ [] := ne_nil_of_length_pos some
  have started := queued.tail (show RemovesCompleted _ (.startRound [] []) from trivial)
    (by
      simp only [fileStep, queuedSystem, serviceStep, startRound, createService,
        Option.isSome_none, Bool.false_eq_true, notEmpty, or_self, if_false,
        take_of_length_le few, drop_of_length_le few, applied,
        if_neg (Nat.ne_of_lt room), Option.map_some]
      rfl)
  refine started.tail (show RemovesCompleted _ .finishRound from trivial) ?_
  simp only [fileStep, serviceStep, Option.bind_some, applied, Option.map_some]
  rfl

/-- Rounds write the ring, one sector each. -/
theorem reaches_ring
    (taken : ∀ ops ∈ batches, TakenAtOnce ops) (room : place + batches.length ≤ config.numSectors)
    (reached : Visits config start (queuedSystem config disk map map [] place interrupted))
    (applied : batches.foldlM applyOps map = some after) :
    Visits config start (queuedSystem config (writeRing disk place batches) after after []
        (place + batches.length) interrupted) := by
  induction batches generalizing disk map place with
  | nil =>
    obtain rfl : map = after := Option.some.inj applied
    exact reached
  | cons ops batches ih =>
    obtain ⟨next, opsApplied, restApplied⟩ := Option.bind_eq_some_iff.mp applied
    rw [length_cons] at room
    have written := reaches_sectorRound (taken ops mem_cons_self) (by omega) reached opsApplied
    have rest := ih (fun later mem => taken later (mem_cons_of_mem _ mem)) (by omega) written
      restApplied
    rw [length_cons, Nat.add_comm batches.length, ← Nat.add_assoc]
    exact rest

theorem sector_writeRing {sector : Nat} (before : sector < place) :
    (writeRing disk place batches).sector sector = disk.sector sector := by
  induction batches generalizing disk place with
  | nil => rfl
  | cons ops batches ih =>
    rw [writeRing, ih (Nat.lt_succ_of_lt before)]
    exact Function.update_of_ne (Nat.ne_of_lt before) _ _

theorem block_writeRing (disk : FileDisk) (place : Nat) (batches : List (List FileOp)) :
    (writeRing disk place batches).block = disk.block := by
  induction batches generalizing disk place with
  | nil => rfl
  | cons ops batches ih => exact ih _ _

/-- A replay of the ring applies its operations. -/
theorem replayAppendLog_ring (taken : ∀ ops ∈ batches, TakenAtOnce ops)
    (applied : batches.foldlM applyOps map = some after) {final : FileDisk}
    (sectors : final.sector = (writeRing disk place batches).sector) :
    replayAppendLog final batches.length ⟨place, place, map⟩ =
      some ⟨place + batches.length, place + batches.length, after⟩ := by
  induction batches generalizing disk map place with
  | nil =>
    obtain rfl : map = after := Option.some.inj applied
    rfl
  | cons ops batches ih =>
    obtain ⟨next, opsApplied, restApplied⟩ := Option.bind_eq_some_iff.mp applied
    have isSector : final.sector place = ⟨place + 1, ops⟩ := by
      rw [sectors, writeRing, sector_writeRing (Nat.lt_succ_self place)]
      exact Function.update_self _ _ _
    have named : (RingSector.mk (place + 1) ops).named = ops := by
      refine takeWhile_eq_self_iff.mpr ?_
      intro op mem
      exact decide_eq_true ((taken ops mem_cons_self).2.2 op mem).2
    have rest := ih (fun later mem => taken later (mem_cons_of_mem _ mem)) restApplied sectors
    rw [length_cons, replayAppendLog]
    simp only [isSector, if_true, named, opsApplied, Option.bind_some]
    rw [rest, Nat.add_comm batches.length, ← Nat.add_assoc]

/-- Once the ring is full a round writes an image. -/
theorem startRound_image
    {op : FileOp} {blocks newBlocks : List Nat} (applied : op.apply map = some after)
    (resized : resizeImage config [config.image1, config.image2] [config.image1] newBlocks
      (blocksRequired after.entries.length) = some blocks) :
    startRound config
        { createService config with
          map := after
          runnerCopyMap := map
          versionNumber := config.numSectors
          curRingSector := config.numSectors
          opQueue := [op] } after.entries newBlocks =
      some (.started
        { createService config with
          map := after
          runnerCopyMap := after
          versionNumber := config.numSectors + 1
          curRingSector := config.numSectors
          image1BlockIds := blocks
          round := some ⟨[op], .image (imageBlocks (config.numSectors + 1)
            (blocks.take (blocksRequired after.entries.length)) after.entries)⟩ }) := by
  have opsApplied : applyOps map (List.take filesPerSector [op]) = some after := by
    simp [applyOps, filesPerSector, applied]
  unfold startRound
  rw [if_neg (by simp [createService])]
  simp only [opsApplied, if_true]
  rw [startImage, if_pos (List.Perm.refl _)]
  have owned : resizeImage config [config.image1, config.image2] [config.image1] newBlocks
      (blocksRequired after.entries.length) = some blocks := resized
  simp only [createService, FileService.owned, FileService.blocksOf, singleton_append, owned]
  rfl

/-- A crash cuts the image that a round writes once the ring is full. -/
theorem reaches_cutImage (op : FileOp) (blocks newBlocks : List Nat)
    (reached : Visits config start
      (queuedSystem config disk map map [] config.numSectors interrupted))
    (applied : op.apply map = some after)
    (resized : resizeImage config [config.image1, config.image2] [config.image1] newBlocks
      (blocksRequired after.entries.length) = some blocks) (fates : List BlockFate) :
    ∃ owned interrupted, Visits config start
      { disk := disk.writeBlocks (landed (imageBlocks (config.numSectors + 1)
          (blocks.take (blocksRequired after.entries.length)) after.entries) fates)
        service := none
        settled := map
        inFlight := [op]
        owned := owned
        interrupted := interrupted } := by
  have queued := reaches_queued reached applied (Or.inr rfl)
  have started := queued.tail
    (show RemovesCompleted _ (.startRound after.entries newBlocks) from trivial)
    (congrArg (Option.map _) (startRound_image applied resized))
  exact ⟨_, _, started.tail (show RemovesCompleted _ (.crash false fates) from trivial) rfl⟩

/-- An image whose head was lost leaves the append log alone to open from. -/
theorem reaches_opened
    (disk : FileDisk) {final : FileDisk} {settled : FileMap} {inFlight : List FileOp}
    {owned : List Nat} (reached : Visits config start
      { disk := final
        service := none
        settled := settled
        inFlight := inFlight
        owned := owned
        interrupted := interrupted }) (taken : ∀ ops ∈ batches, TakenAtOnce ops)
    (full : config.numSectors = batches.length) (applied : batches.foldlM applyOps ∅ = some after)
    (sectors : final.sector = (writeRing disk 0 batches).sector)
    (image1 : final.block config.image1 = some zeroBlock)
    (image2 : final.block config.image2 = some zeroBlock) :
    Visits config start
      (queuedSystem config final after after [] config.numSectors interrupted) := by
  have replayed := replayAppendLog_ring taken applied sectors
  rw [← full, Nat.zero_add] at replayed
  have opened : openService config final [] =
      .ok { createService config with
        map := after
        runnerCopyMap := after
        versionNumber := config.numSectors
        curRingSector := config.numSectors } := by
    have head1 : final.readBlock config config.image1 = some zeroBlock := by
      rw [readBlock, if_pos config.image1Fits, image1]
    have head2 : final.readBlock config config.image2 = some zeroBlock := by
      rw [readBlock, if_pos config.image2Fits, image2]
    have images : loadImages config final = .ok ⟨none, .image1, 0, ∅, []⟩ := by
      simp [loadImages, headVersion, FileConfig.headOf, head1, head2, zeroBlock]
    have bothRead : bothHeadsRead config final = true := by
      simp [bothHeadsRead, head1, head2]
    simp only [openService, images, bothRead, not_true_eq_false, false_and, if_false, bind,
      Except.bind, replayed]
    rfl
  refine reached.tail (show RemovesCompleted _ (.openFrom []) from trivial) ?_
  simp [fileStep, opened, queuedSystem, createService]

end Rounds

/-- Operations that fill the ring of 256 sectors with 820 files. -/
def ringBatches : List (List FileOp) :=
  (List.range 256).map fun sector =>
    (List.range' (820 * sector / 256) (820 * (sector + 1) / 256 - 820 * sector / 256)).map
      fun file => .insertFile (sampleEntry file)

/-- The disk that two cut images of version 257 leave.  The first, of `fewer`, leaves only
its second block; the second, of `more`, leaves only its head, which links to that block. -/
def mixedDisk (batches : List (List FileOp)) (fewer more : FileMap) : FileDisk :=
  ((writeRing (.create largeFileConfig) 0 batches).writeBlocks
    (landed (imageBlocks 257 [0, 2] fewer.entries) [.lost, .kept])).writeBlocks
      (landed (imageBlocks 257 [0, 2] more.entries) [.kept, .lost])

/-- A full ring, an image without a file and an image with one more, both cut. -/
theorem reaches_mixedDisk {batches : List (List FileOp)} (taken : ∀ ops ∈ batches, TakenAtOnce ops)
    (full : largeFileConfig.numSectors = batches.length) {map fewer more : FileMap}
    (applied : batches.foldlM applyOps ∅ = some map) {fileUid : StoreId} {genId : Nat}
    (removed : map.removeFromMap fileUid genId = some fewer)
    (fewerBlocks : blocksRequired fewer.entries.length = 2) {entry : FileEntry}
    (added : map.addToMap entry = some more) (moreBlocks : blocksRequired more.entries.length = 2) :
    ∃ owned interrupted, Visits largeFileConfig (createSystem largeFileConfig)
      { disk := mixedDisk batches fewer more
        service := none
        settled := map
        inFlight := [.insertFile entry]
        owned := owned
        interrupted := interrupted } := by
  have filled := reaches_ring taken (Nat.le_of_eq (by rw [Nat.zero_add, full]))
    (show Visits largeFileConfig (createSystem largeFileConfig)
      (queuedSystem largeFileConfig (.create largeFileConfig) ∅ ∅ [] 0 []) from .refl) applied
  rw [Nat.zero_add, ← full] at filled
  have sectors : largeFileConfig.numSectors = 256 := by decide
  have grown : resizeImage largeFileConfig [largeFileConfig.image1, largeFileConfig.image2]
      [largeFileConfig.image1] [2, 3, 4] 2 = some [0, 2, 3, 4] := by decide
  have firstTwo : List.take 2 [0, 2, 3, 4] = [0, 2] := rfl
  obtain ⟨owned, interrupted, cut⟩ := reaches_cutImage (.removeFile fileUid genId) [0, 2, 3, 4]
    [2, 3, 4] filled removed (fewerBlocks ▸ grown) [.lost, .kept]
  rw [fewerBlocks, sectors, firstTwo] at cut
  have heads : ∀ head, head ≠ 2 → ((writeRing (.create largeFileConfig) 0 batches).writeBlocks
      (landed (imageBlocks 257 [0, 2] fewer.entries) [.lost, .kept])).block head =
        (create largeFileConfig).block head := by
    intro head isHead
    rw [writeBlocks, block_writeRing]
    exact Function.update_of_ne isHead _ _
  have zero : ∀ head, head = 0 ∨ head = 1 → (create largeFileConfig).block head = some zeroBlock :=
    fun head isHead => if_pos isHead
  have opened := reaches_opened (.create largeFileConfig) cut taken full applied rfl
    ((heads 0 (by decide)).trans (zero 0 (Or.inl rfl)))
    ((heads 1 (by decide)).trans (zero 1 (Or.inr rfl)))
  obtain ⟨owned, interrupted, cutAgain⟩ := reaches_cutImage (.insertFile entry) [0, 2, 3, 4]
    [2, 3, 4] opened added (moreBlocks ▸ grown) [.kept, .lost]
  rw [moreBlocks, sectors, firstTwo] at cutAgain
  exact ⟨owned, interrupted, cutAgain⟩

/-- Opening reads a map without a file that was settled and is not being removed. -/
def losesFile (config : FileConfig) (system : FileSystem) (entry : FileEntry) : Bool :=
  system.service.isNone &&
    (match openService config system.disk [] with
      | .ok service => (service.map.find entry.fileUid entry.file.genId).isNone
      | .error _ => true) &&
    (system.settled.find entry.fileUid entry.file.genId).isSome &&
    (applyOps system.settled system.inFlight).any fun after =>
      (after.find entry.fileUid entry.file.genId).isSome

theorem not_readsBack_of_losesFile {entry : FileEntry}
    (loses : losesFile config system entry = true) :
    ¬ ReadsBack config system := by
  intro readsBack
  simp only [losesFile, Bool.and_eq_true, Option.isNone_iff_eq_none] at loses
  obtain ⟨⟨⟨isClosed, notFound⟩, settled⟩, afterRound⟩ := loses
  obtain ⟨-, opens⟩ := readsBack isClosed
  obtain ⟨service, opened, -, same | ⟨after, applied, same⟩⟩ := opens [] (by simp)
  · rw [opened, Option.isNone_iff_eq_none, same] at notFound
    rw [notFound] at settled
    contradiction
  · rw [opened, Option.isNone_iff_eq_none, same] at notFound
    rw [applied, Option.any_some, notFound] at afterRound
    contradiction

/-- A crash that mixes two images of one version loses settled files. -/
theorem mixed_images_lose_files :
    ∃ system, EventRuns.Reaches (fileStep largeFileConfig) RemovesCompleted
        (createSystem largeFileConfig) system ∧
      ¬ ReadsBack largeFileConfig system := by
  have taken : ∀ ops ∈ ringBatches, TakenAtOnce ops := by decide +kernel
  have full : largeFileConfig.numSectors = ringBatches.length := by decide +kernel
  have ran : ((ringBatches.foldlM applyOps ∅).any fun map =>
      (map.removeFromMap (sampleEntry 819).fileUid (sampleEntry 819).file.genId).any fun fewer =>
        (map.addToMap (sampleEntry 820)).any fun more =>
          blocksRequired fewer.entries.length = 2 && blocksRequired more.entries.length = 2 &&
            losesFile largeFileConfig
              { disk := mixedDisk ringBatches fewer more
                service := none
                settled := map
                inFlight := [.insertFile (sampleEntry 820)]
                owned := []
                interrupted := [] } (sampleEntry 1)) = true := by
    decide +kernel
  obtain ⟨map, applied, ran⟩ := (Option.any_eq_true _ _).mp ran
  obtain ⟨fewer, removed, ran⟩ := (Option.any_eq_true _ _).mp ran
  obtain ⟨more, added, ran⟩ := (Option.any_eq_true _ _).mp ran
  simp only [Bool.and_eq_true, decide_eq_true_eq] at ran
  obtain ⟨⟨fewerBlocks, moreBlocks⟩, loses⟩ := ran
  obtain ⟨owned, interrupted, reached⟩ :=
    reaches_mixedDisk taken full applied removed fewerBlocks added moreBlocks
  exact ⟨_, reached, not_readsBack_of_losesFile loses⟩

end Orly
