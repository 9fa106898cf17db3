import Orly.EventRuns
import Orly.FileWrites

namespace Orly

/-!
# Runs of the file service

What every step keeps: the disk holds the settled map, the service knows where the disk
stands, and a round under way writes what follows.  After a crash the disk holds the
settled map or that of the round that was cut.
-/

open List

/-- What a disk holds: a base image and the rounds since. -/
structure Holding where
  base : Option ImageSlot
  baseVersion : Nat
  chain : List Nat
  baseMap : FileMap
  rounds : List (List FileOp)

namespace Holding

variable (holding : Holding)

/-- The version of the last round. -/
def version : Nat := holding.baseVersion + holding.rounds.length

/-- The holding of a disk. -/
def On (config : FileConfig) (disk : FileDisk) (interrupted : List (Nat × Nat)) : Prop :=
  DiskHolds config disk interrupted holding.base holding.baseVersion holding.chain
    holding.baseMap holding.rounds

/-- The holding reads as a map. -/
def Shows (target : FileMap) : Prop :=
  ∃ map, applyOps holding.baseMap holding.rounds.flatten = some map ∧ SameFiles map target

end Holding

/-- What an open service is doing, seen from a holding and the settled map. -/
inductive RoundAt
    (config : FileConfig) (interrupted : List (Nat × Nat)) (holding : Holding) (settled : FileMap)
    (service : FileService) : Prop
  | idle
      (noRound : service.round = none)
      (sameFiles : SameFiles service.runnerCopyMap settled)
      (version : service.versionNumber = holding.version)
  | sector
      {ops : List FileOp}
      {after : FileMap}
      (isRound : service.round = some ⟨ops,
        .sector holding.rounds.length ⟨holding.version + 1, ops⟩⟩)
      (room : holding.rounds.length < config.numSectors)
      (named : ∀ op ∈ ops, op.fileUid ≠ nilUid)
      (applied : applyOps settled ops = some after)
      (sameFiles : SameFiles service.runnerCopyMap after)
      (version : service.versionNumber = holding.version + 1)
  | image
      {ops : List FileOp}
      {after : FileMap}
      {blockIds : List Nat}
      {files : List FileEntry}
      (isRound : service.round = some ⟨ops, .image (imageBlocks (holding.version + 1)
        (config.headOf (alternateOf holding.base) :: blockIds) files)⟩)
      (full : holding.rounds.length = config.numSectors)
      (named : ∀ op ∈ ops, op.fileUid ≠ nilUid)
      (applied : applyOps settled ops = some after)
      (sameFiles : SameFiles service.runnerCopyMap after)
      (version : service.versionNumber = holding.version + 1)
      (may : MayWrite config interrupted (alternateOf holding.base) holding.chain
        (holding.version + 1) blockIds files)
      (inImage : ∀ blockId ∈ blockIds, blockId ∈ service.blocksOf (alternateOf holding.base))
      (filesOf : FilesOf files service.runnerCopyMap)

/-- An open service over a disk that holds the settled map. -/
structure RunningOn
    (config : FileConfig) (disk : FileDisk) (interrupted : List (Nat × Nat)) (settled : FileMap)
    (service : FileService)
    (holding : Holding) : Prop where
  on : holding.On config disk interrupted
  shows : holding.Shows settled
  keyed : settled.Keyed
  blocks : BlocksHeld config service holding.base holding.chain
  writeNext : service.writeNext = alternateOf holding.base
  position : service.curRingSector = holding.rounds.length
  round : RoundAt config interrupted holding settled service
  unqueuedNamed : ∀ op ∈ service.unqueued, op.fileUid ≠ nilUid
  queueNamed : ∀ op ∈ service.opQueue, op.fileUid ≠ nilUid

/-- A disk that a crash left: it holds the settled map, or that of the cut round. -/
structure LeftOn (config : FileConfig) (system : FileSystem) (holding : Holding) : Prop where
  on : holding.On config system.disk system.interrupted
  shows : ∃ target, holding.Shows target ∧ target.Keyed ∧
    (target = system.settled ∨ applyOps system.settled system.inFlight = some target)
  owned : ∀ blockId ∈ holding.chain, blockId ∈ system.owned

/-- What holds in every reached state. -/
def FileInvariant (config : FileConfig) (system : FileSystem) : Prop :=
  match system.service with
  | some service => ∃ holding,
      RunningOn config system.disk system.interrupted system.settled service holding
  | none => ∃ holding, LeftOn config system holding

/-! ## The condition on runs -/

/-- The blocks after the head that the next image is to take. -/
def nextImageBlocks (service : FileService) (files : List FileEntry) (newBlocks : List Nat) :
    List Nat :=
  ((service.blocksOf service.writeNext ++ newBlocks).take (blocksRequired files.length)).tail

/-- An image goes to no block that an interrupted write of the same version took. -/
def SafeImage (config : FileConfig) (interrupted : List (Nat × Nat)) (service : FileService)
    (files : List FileEntry) (newBlocks : List Nat) : Prop :=
  service.curRingSector = config.numSectors → ∀ blockId ∈ nextImageBlocks service files newBlocks,
      (service.versionNumber + 1, blockId) ∉ interrupted

instance (config : FileConfig) (interrupted : List (Nat × Nat)) (service : FileService)
    (files : List FileEntry) (newBlocks : List Nat) :
    Decidable (SafeImage config interrupted service files newBlocks) :=
  inferInstanceAs (Decidable (_ → _))

/--
No operation names the nil uid, and no image goes to a block that an interrupted write
of an image of the same version took.
-/
def SafeEvent (config : FileConfig) (system : FileSystem) : FileEvent → Prop
  | .insertFile entry => entry.fileUid ≠ nilUid
  | .removeFile fileUid _ => fileUid ≠ nilUid
  | .startRound files newBlocks => ∀ service ∈ system.service,
      SafeImage config system.interrupted service files newBlocks
  | _ => True

instance (config : FileConfig) (system : FileSystem) :
    ∀ event, Decidable (SafeEvent config system event)
  | .insertFile _ => inferInstanceAs (Decidable (_ ≠ _))
  | .removeFile _ _ => inferInstanceAs (Decidable (_ ≠ _))
  | .startRound files newBlocks => inferInstanceAs (Decidable (∀ service ∈ system.service,
      SafeImage config system.interrupted service files newBlocks))
  | .enqueue _ | .finishRound | .otherWrite _ | .crash _ _ | .openFrom _ =>
    inferInstanceAs (Decidable True)

/-! ## Resizing an image -/

section Resize

variable {config : FileConfig} {owned blocks newBlocks resized : List Nat} {required : Nat}

/-- What resizing gives: part of the blocks, or all of them and new ones. -/
theorem resizeImage_cases
    (isResized : resizeImage config owned blocks newBlocks required = some resized) :
    required ≤ resized.length ∧ (resized.take required = (blocks ++ newBlocks).take required) ∧
      ((∃ count, 0 < count ∧ resized = blocks.take count) ∨
        (resized = blocks ++ newBlocks ∧ newBlocks.Nodup ∧
          ∀ blockId ∈ newBlocks, blockId ∉ owned ∧ blockId < config.numBlocks)) := by
  unfold resizeImage at isResized
  simp only at isResized
  split at isResized
  case isTrue large =>
    obtain ⟨noNew, isResized⟩ := Option.ite_none_right_eq_some.mp isResized
    cases isResized
    subst noNew
    have enough : required ≤ required + max 2 (required / 8) := Nat.le_add_right _ _
    refine ⟨?_, ?_, .inl ⟨_, ?_, rfl⟩⟩
    · rw [length_take]
      omega
    · rw [append_nil, take_take, Nat.min_eq_left enough]
    · omega
  case isFalse =>
    obtain ⟨⟨distinct, fresh, -, enough⟩, isResized⟩ := Option.ite_none_right_eq_some.mp isResized
    cases isResized
    exact ⟨by rw [length_append]; exact enough, rfl, .inr ⟨rfl, distinct, fresh⟩⟩

end Resize

section Blocks

variable {config : FileConfig} {service : FileService} {base : Option ImageSlot} {chain : List Nat}

@[simp]
theorem FileService.blocksOf_setBlocks_self (service : FileService) (slot : ImageSlot)
    (blocks : List Nat) :
    (service.setBlocks slot blocks).blocksOf slot = blocks := by
  cases slot <;> rfl

@[simp]
theorem FileService.blocksOf_setBlocks_other (service : FileService) (slot : ImageSlot)
    (blocks : List Nat) :
    (service.setBlocks slot blocks).blocksOf slot.other = service.blocksOf slot.other := by
  cases slot <;> rfl

/-- The blocks of one image and of the other are all the service holds. -/
theorem FileService.owned_perm (service : FileService) (slot : ImageSlot) :
    service.owned.Perm (service.blocksOf slot ++ service.blocksOf slot.other) := by
  cases slot with
  | image1 => exact .refl _
  | image2 => exact perm_append_comm

theorem BlocksHeld.mem_owned (slot : ImageSlot) {blockId : Nat}
    (mem : blockId ∈ service.blocksOf slot) :
    blockId ∈ service.owned :=
  (service.owned_perm slot).mem_iff.mpr (mem_append_left _ mem)

/-- The chain of the base is among the blocks of the image that is not written next. -/
theorem BlocksHeld.chain_mem (blocks : BlocksHeld config service base chain)
    (unbased : base = none → chain = []) :
    ∀ blockId ∈ chain, blockId ∈ service.blocksOf (alternateOf base).other := by
  intro blockId mem
  cases base with
  | none =>
    rw [unbased rfl] at mem
    contradiction
  | some slot =>
    rw [alternateOf, slot.other_other]
    exact blocks.holdsBase slot rfl blockId mem

/-- Resizing the image that is written next keeps what the service holds. -/
theorem BlocksHeld.resize {newBlocks resized : List Nat} {required : Nat}
    (blocks : BlocksHeld config service base chain)
    (isResized : resizeImage config service.owned (service.blocksOf (alternateOf base))
      newBlocks required = some resized) :
    BlocksHeld config (service.setBlocks (alternateOf base) resized) base chain := by
  obtain ⟨-, -, part⟩ := resizeImage_cases isResized
  have heldDistinct := blocks.distinct
  have heldFits := blocks.fits
  have heads := blocks.heads
  rw [(service.owned_perm (alternateOf base)).nodup_iff] at heldDistinct
  have held : ∀ blockId ∈ resized, blockId ∈ service.blocksOf (alternateOf base) ∨
      (blockId ∉ service.owned ∧ blockId < config.numBlocks) := by
    intro blockId mem
    rcases part with ⟨count, -, rfl⟩ | ⟨rfl, -, fresh⟩
    · exact .inl (mem_of_mem_take mem)
    · rcases mem_append.mp mem with old | isNew
      · exact .inl old
      · exact .inr (fresh blockId isNew)
  obtain ⟨leftDistinct, rightDistinct, apart⟩ := nodup_append.mp heldDistinct
  constructor
  case heads =>
    intro slot
    by_cases same : slot = alternateOf base
    · subst same
      rw [FileService.blocksOf_setBlocks_self]
      obtain ⟨rest, isHead⟩ := heads (alternateOf base)
      rcases part with ⟨count, positive, rfl⟩ | ⟨rfl, -, -⟩
      · obtain ⟨count, rfl⟩ := Nat.exists_eq_add_one_of_ne_zero (Nat.ne_of_gt positive)
        exact ⟨rest.take count, by rw [isHead, take_succ_cons]⟩
      · exact ⟨rest ++ newBlocks, by rw [isHead, cons_append]⟩
    · obtain rfl : slot = (alternateOf base).other := by
        cases slot <;> cases isAlternate : alternateOf base <;> simp_all [ImageSlot.other]
      rw [FileService.blocksOf_setBlocks_other]
      exact heads _
  case distinct =>
    rw [((service.setBlocks (alternateOf base) resized).owned_perm (alternateOf base)).nodup_iff,
      FileService.blocksOf_setBlocks_self, FileService.blocksOf_setBlocks_other]
    refine nodup_append.mpr ⟨?_, rightDistinct, ?_⟩
    · rcases part with ⟨count, -, rfl⟩ | ⟨rfl, newDistinct, fresh⟩
      · exact leftDistinct.sublist (take_sublist _ _)
      · refine nodup_append.mpr ⟨leftDistinct, newDistinct, ?_⟩
        rintro old inOld _ inNew rfl
        exact (fresh old inNew).1 (BlocksHeld.mem_owned _ inOld)
    · rintro blockId inLeft _ inRight rfl
      rcases held blockId inLeft with old | ⟨notOwned, -⟩
      · exact apart blockId old blockId inRight rfl
      · exact notOwned (BlocksHeld.mem_owned _ inRight)
  case fits =>
    intro blockId mem
    rw [((service.setBlocks (alternateOf base) resized).owned_perm (alternateOf base)).mem_iff,
      FileService.blocksOf_setBlocks_self, FileService.blocksOf_setBlocks_other] at mem
    rcases mem_append.mp mem with inLeft | inRight
    · rcases held blockId inLeft with old | ⟨-, fits⟩
      · exact heldFits blockId (BlocksHeld.mem_owned _ old)
      · exact fits
    · exact heldFits blockId (BlocksHeld.mem_owned _ inRight)
  case holdsBase =>
    intro slot isBase blockId mem
    subst isBase
    have unchanged := service.blocksOf_setBlocks_other (alternateOf (some slot)) resized
    rw [show (alternateOf (some slot)).other = slot from slot.other_other] at unchanged
    rw [unchanged]
    exact blocks.holdsBase slot rfl blockId mem

end Blocks

/-! ## The start of a round -/

/-- The service behind the operations it took. -/
def FileService.takeOps (service : FileService) (map : FileMap) : FileService :=
  { service with
    runnerCopyMap := map
    versionNumber := service.versionNumber + 1
    opQueue := service.opQueue.drop filesPerSector }

/-- A round throws, writes a sector, or writes an image once the ring is full. -/
theorem startRound_cases
    {config : FileConfig} {service : FileService} {files : List FileEntry} {newBlocks : List Nat}
    {start : RoundStart} (started : startRound config service files newBlocks = some start) :
    service.round = none ∧
      (start = .threw ∨
        ∃ map, applyOps service.runnerCopyMap (service.opQueue.take filesPerSector) = some map ∧
          ((service.curRingSector ≠ config.numSectors ∧
              start = .started { service.takeOps map with
                round := some ⟨service.opQueue.take filesPerSector,
                  .sector service.curRingSector ⟨service.versionNumber + 1,
                    service.opQueue.take filesPerSector⟩⟩ }) ∨
            (service.curRingSector = config.numSectors ∧ files.Perm map.entries ∧
              ∃ blocks, resizeImage config service.owned
                  (service.blocksOf service.writeNext) newBlocks
                  (blocksRequired files.length) = some blocks ∧
                start = .started
                  { (service.takeOps map).setBlocks service.writeNext blocks with
                    round := some ⟨service.opQueue.take filesPerSector,
                      .image (imageBlocks (service.versionNumber + 1)
                        (blocks.take (blocksRequired files.length)) files)⟩ }))) := by
  unfold startRound at started
  obtain ⟨ready, started⟩ := Option.ite_none_left_eq_some.mp started
  obtain ⟨idle, -⟩ := not_or.mp ready
  refine ⟨Option.not_isSome_iff_eq_none.mp idle, ?_⟩
  simp only at started
  split at started
  case h_1 => exact .inl (Option.some.inj started).symm
  case h_2 map applied =>
    refine .inr ⟨map, applied, ?_⟩
    split at started
    case isTrue full =>
      obtain ⟨next, isImage, rfl⟩ := Option.map_eq_some_iff.mp started
      unfold startImage at isImage
      obtain ⟨perm, isImage⟩ := Option.ite_none_right_eq_some.mp isImage
      obtain ⟨blocks, isResized, rfl⟩ := Option.map_eq_some_iff.mp isImage
      exact .inr ⟨full, perm, blocks, isResized, rfl⟩
    case isFalse room => exact .inl ⟨room, (Option.some.inj started).symm⟩

end Orly
