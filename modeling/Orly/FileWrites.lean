import Orly.FileHeld

namespace Orly

/-!
# What writes leave on the disk

Each write of the file service keeps what the disk holds: a sector adds a round, an image
that was cut short is passed over, and one that landed whole is the new base.
-/

open List FileDisk

variable {config : FileConfig} {disk : FileDisk} {interrupted : List (Nat × Nat)}
  {base : Option ImageSlot} {baseVersion : Nat} {chain : List Nat} {baseMap : FileMap}
  {rounds : List (List FileOp)}

/-! ## A sector -/

/-- Blocks that read the same make the same base. -/
theorem BaseImage.congr
    {other : FileDisk} (image : BaseImage config disk base baseVersion chain baseMap)
    (sameHead : other.readBlock config (config.headOf (alternateOf base).other) =
      disk.readBlock config (config.headOf (alternateOf base).other))
    (sameChain : ∀ blockId ∈ chain,
      other.readBlock config blockId = disk.readBlock config blockId) :
    BaseImage config other base baseVersion chain baseMap := by
  cases image with
  | scratch zeroed unwritten => exact .scratch (sameHead.trans zeroed) unwritten
  | @image slot version chain files head map positive isHead chained distinct loads =>
    rw [alternateOf, slot.other_other] at sameHead
    exact .image positive (sameHead.trans isHead) (chained.congr sameChain) distinct loads

namespace DiskHolds

variable (holds : DiskHolds config disk interrupted base baseVersion chain baseMap rounds)

include holds

/-- A sector adds its round. -/
theorem writeSector {ops : List FileOp} (room : rounds.length < config.numSectors)
    (named : ∀ op ∈ ops, op.fileUid ≠ nilUid) :
    DiskHolds config (disk.writeSector rounds.length ⟨baseVersion + rounds.length + 1, ops⟩)
      interrupted base baseVersion chain baseMap (rounds ++ [ops]) := by
  obtain ⟨image, ring, alternate, nothingNewer⟩ := holds
  have length : (rounds ++ [ops]).length = rounds.length + 1 := by simp
  constructor
  case image => exact image.congr rfl fun _ _ => rfl
  case ring =>
    constructor
    case fits => rw [length]; exact room
    case written =>
      intro position inside
      by_cases isLast : position = rounds.length
      · subst isLast
        simp [FileDisk.writeSector, Nat.add_right_comm]
      · have before : position < rounds.length := by omega
        simpa [FileDisk.writeSector, isLast, getElem_append_left before] using
          ring.written position before
    case older =>
      intro position behind inRing
      rw [length] at behind
      have notLast : position ≠ rounds.length := by omega
      simpa [FileDisk.writeSector, notLast] using ring.older position (by omega) inRing
    case named =>
      intro other mem
      rcases mem_append.mp mem with earlier | isLast
      · exact ring.named other earlier
      · rw [mem_singleton.mp isLast]
        exact named
  case alternate =>
    cases alternate with
    | unreadable torn => exact .unreadable torn
    | older isHead isOlder => exact .older isHead isOlder
    | broken _ full _ _ => exact absurd full (Nat.ne_of_lt room)
  case nothingNewer =>
    rw [length]
    have tooNew : ∀ blockId block, disk.block blockId = some block →
        block.version ≠ baseVersion + (rounds.length + 1) + 1 := by
      intro blockId block isBlock
      have bound := nothingNewer.versions blockId block isBlock
      omega
    constructor
    case versions =>
      intro blockId block isBlock
      have bound := nothingNewer.versions blockId block isBlock
      omega
    case taken =>
      exact fun blockId block isBlock isNew => absurd isNew (tooNew blockId block isBlock)
    case links =>
      exact fun blockId block isBlock isNew => absurd isNew (tooNew blockId block isBlock)

end DiskHolds

/-! ## A block that stops reading -/

theorem FileDisk.readBlock_foreign {blockId other : Nat} :
    readBlock { disk with block := Function.update disk.block blockId none } config other =
      if other = blockId then none else disk.readBlock config other := by
  unfold readBlock
  by_cases same : other = blockId
  · simp [same]
  · simp [same]

/-- A block of another owner changes nothing. -/
theorem DiskHolds.otherWrite {blockId : Nat}
    (holds : DiskHolds config disk interrupted base baseVersion chain baseMap rounds)
    (notHead : ∀ slot, config.headOf slot ≠ blockId) (notChain : blockId ∉ chain) :
    DiskHolds config { disk with block := Function.update disk.block blockId none }
      interrupted base baseVersion chain baseMap rounds := by
  obtain ⟨image, ring, alternate, nothingNewer⟩ := holds
  have sameHead : ∀ slot, readBlock
      { disk with block := Function.update disk.block blockId none } config
        (config.headOf slot) = disk.readBlock config (config.headOf slot) :=
    fun slot => by rw [readBlock_foreign, if_neg (notHead slot)]
  have sameChain : ∀ other ∈ chain, readBlock
      { disk with block := Function.update disk.block blockId none } config other =
        disk.readBlock config other := by
    intro other mem
    rw [readBlock_foreign, if_neg]
    rintro rfl
    exact notChain mem
  have was : ∀ other block, Function.update disk.block blockId none other = some block →
      disk.block other = some block := by
    intro other block isBlock
    by_cases same : other = blockId
    · simp [same] at isBlock
    · simpa [same] using isBlock
  constructor
  case image => exact image.congr (sameHead _) sameChain
  case ring => exact { ring with }
  case alternate =>
    cases alternate with
    | unreadable torn => exact .unreadable ((sameHead _).trans torn)
    | older isHead isOlder => exact .older ((sameHead _).trans isHead) isOlder
    | broken isHead full isNext noChain =>
      refine .broken ((sameHead _).trans isHead) full isNext fun chain files chained => ?_
      refine noChain chain files (chained.congr fun other mem => ?_)
      obtain ⟨block, read, -⟩ := chained.reads other mem
      rw [readBlock_foreign] at read ⊢
      split at read
      case isTrue => contradiction
      case isFalse differs => rw [if_neg differs]
  case nothingNewer =>
    exact {
      versions := fun other block isBlock => nothingNewer.versions other block (was _ _ isBlock)
      taken := fun other block isBlock => nothingNewer.taken other block (was _ _ isBlock)
      links := fun other block isBlock => nothingNewer.links other block (was _ _ isBlock) }

/-! ## An image -/

/-- Writes that carry blocks of an image, or leave them torn. -/
def PartOf (writes : List (Nat × Option ImageBlock)) (blocks : List (Nat × ImageBlock)) : Prop :=
  ∀ write ∈ writes, ∃ block, (write.1, block) ∈ blocks ∧ (write.2 = some block ∨ write.2 = none)

theorem partOf_landed (blocks : List (Nat × ImageBlock)) (fates : List BlockFate) :
    PartOf (landed blocks fates) blocks := by
  intro write mem
  obtain ⟨⟨block, fate⟩, inZip, leaves⟩ := mem_filterMap.mp mem
  have inBlocks := (of_mem_zip inZip).1
  cases fate with
  | kept =>
    cases leaves
    exact ⟨block.2, inBlocks, .inl rfl⟩
  | lost => simp [BlockFate.leaves] at leaves
  | torn =>
    cases leaves
    exact ⟨block.2, inBlocks, .inr rfl⟩

theorem partOf_all (blocks : List (Nat × ImageBlock)) :
    PartOf (blocks.map fun write => (write.1, some write.2)) blocks := by
  intro write mem
  obtain ⟨block, inBlocks, rfl⟩ := mem_map.mp mem
  exact ⟨block.2, inBlocks, .inl rfl⟩

/-- An image that may be written: to blocks of its own, none of which an interrupted
write of the same version took. -/
structure MayWrite (config : FileConfig) (interrupted : List (Nat × Nat)) (slot : ImageSlot)
    (baseChain : List Nat) (version : Nat) (blockIds : List Nat)
    (files : List FileEntry) : Prop where
  distinct : (config.headOf slot :: blockIds).Nodup
  fits : ∀ blockId ∈ config.headOf slot :: blockIds, blockId < config.numBlocks
  avoidsHead : config.headOf slot.other ∉ config.headOf slot :: blockIds
  avoidsChain : ∀ blockId ∈ baseChain, blockId ∉ config.headOf slot :: blockIds
  fresh : ∀ blockId ∈ blockIds, (version, blockId) ∉ interrupted
  named : ∀ entry ∈ files, entry.fileUid ≠ nilUid
  room : files.length ≤ filesPerImageBlock * (blockIds.length + 1)

section Image

variable {slot : ImageSlot} {version : Nat} {blockIds : List Nat} {files : List FileEntry}
  {writes : List (Nat × Option ImageBlock)}
  (may : MayWrite config interrupted slot chain version blockIds files)
  (part : PartOf writes (imageBlocks version (config.headOf slot :: blockIds) files))

include may in
/-- One block is written to each place. -/
theorem MayWrite.unique {blockId : Nat} {left right : ImageBlock}
    (inLeft : (blockId, left) ∈ imageBlocks version (config.headOf slot :: blockIds) files)
    (inRight : (blockId, right) ∈ imageBlocks version (config.headOf slot :: blockIds) files) :
    left = right := by
  have keys := imageBlocks_ids version (config.headOf slot :: blockIds) files
  have distinct := may.distinct
  rw [← keys] at distinct
  have same := inj_on_of_nodup_map distinct inLeft inRight rfl
  exact (Prod.mk.inj same).2

include part in
/-- After the writes a block is as it was, torn, or the one that was written there. -/
theorem block_writeBlocks (disk : FileDisk) (blockId : Nat) :
    (disk.writeBlocks writes).block blockId = disk.block blockId ∨
      (blockId ∈ config.headOf slot :: blockIds ∧ ((disk.writeBlocks writes).block blockId = none ∨
          ∃ block, (blockId, block) ∈ imageBlocks version (config.headOf slot :: blockIds) files ∧
            (disk.writeBlocks writes).block blockId = some block)) := by
  rcases CrashDisk.writeAll_cases disk.block writes blockId with ⟨-, same⟩ | written
  · exact .inl same
  · obtain ⟨block, inBlocks, isBlock | isTorn⟩ := part _ written
    · exact .inr ⟨(imageBlocks_mem inBlocks).1, .inr ⟨block, inBlocks, isBlock⟩⟩
    · exact .inr ⟨(imageBlocks_mem inBlocks).1, .inl isTorn⟩

include part in
/-- A block that is not to be written reads as before. -/
theorem readBlock_writeBlocks_of_not_mem {blockId : Nat}
    (outside : blockId ∉ config.headOf slot :: blockIds) :
    (disk.writeBlocks writes).readBlock config blockId = disk.readBlock config blockId := by
  unfold readBlock
  rcases block_writeBlocks part disk blockId with same | ⟨inside, -⟩
  · rw [same]
  · exact absurd inside outside

end Image

namespace DiskHolds

variable {version : Nat} {blockIds : List Nat} {files : List FileEntry}
  {writes : List (Nat × Option ImageBlock)}
  (holds : DiskHolds config disk interrupted base baseVersion chain baseMap rounds)
  (isNext : version = baseVersion + rounds.length + 1)
  (may : MayWrite config interrupted (alternateOf base) chain version blockIds files)
  (part : PartOf writes (imageBlocks version (config.headOf (alternateOf base) :: blockIds) files))

include holds may part in
/-- The base is not written to. -/
theorem base_writeBlocks :
    BaseImage config (disk.writeBlocks writes) base baseVersion chain baseMap :=
  holds.image.congr (readBlock_writeBlocks_of_not_mem part may.avoidsHead)
    fun blockId mem =>
      readBlock_writeBlocks_of_not_mem part (may.avoidsChain blockId mem)

include holds isNext may part in
/-- A block where the image is to go holds its version only if it was written now. -/
theorem only_written :
    ∀ write ∈ imageBlocks version blockIds (files.drop filesPerImageBlock), ∀ read,
      (disk.writeBlocks writes).readBlock config write.1 = some read →
        read.version = version → read = write.2 := by
  intro write mem read isRead sameVersion
  have isBlock := (readBlock_lt isRead).2
  have inTail := (imageBlocks_mem mem).1
  have inImage : write ∈ imageBlocks version
      (config.headOf (alternateOf base) :: blockIds) files := by
    rw [imageBlocks_cons]
    exact mem_cons_of_mem _ mem
  rcases block_writeBlocks part disk write.1 with same | ⟨-, isTorn | ⟨block, inBlocks, now⟩⟩
  · rw [isBlock] at same
    rcases holds.nothingNewer.taken write.1 read same.symm (sameVersion.trans isNext) with
      isHead | wasTaken
    · rw [isHead] at inTail
      exact absurd inTail (nodup_cons.mp may.distinct).1
    · rw [← isNext] at wasTaken
      exact absurd wasTaken (may.fresh write.1 inTail)
  · rw [isBlock] at isTorn
    contradiction
  · rw [isBlock] at now
    cases now
    exact may.unique inBlocks inImage

include holds isNext may part in
/-- A chain from the head, after the writes, is the image that was written. -/
theorem chain_writeBlocks {head : ImageBlock} {found : List Nat} {foundFiles : List FileEntry}
    (isHead : (disk.writeBlocks writes).readBlock config
      (config.headOf (alternateOf base)) = some head)
    (chained : ImageChain config (disk.writeBlocks writes) version head found foundFiles) :
    found = blockIds ∧ foundFiles = files := by
  obtain ⟨fits, isBlock⟩ := readBlock_lt isHead
  rcases block_writeBlocks part disk (config.headOf (alternateOf base)) with
    same | ⟨-, isTorn | ⟨block, inBlocks, now⟩⟩
  · exfalso
    rw [isBlock] at same
    have wasHead : disk.readBlock config (config.headOf (alternateOf base)) = some head := by
      rw [readBlock, if_pos fits, ← same]
    have nothingNewer := holds.nothingNewer
    rw [← isNext] at nothingNewer
    let Taken := fun blockId => blockId ≠ config.headOf (alternateOf base) ∧
      (version, blockId) ∈ interrupted
    have outside : ∀ blockId, Taken blockId →
        blockId ∉ config.headOf (alternateOf base) :: blockIds := by
      rintro blockId ⟨notHead, wasTaken⟩ inside
      rcases mem_cons.mp inside with isHead | inTail
      · exact notHead isHead
      · exact may.fresh blockId inTail wasTaken
    have within : ∀ blockId ∈ found, Taken blockId := by
      refine chained.within (nothingNewer.links _ head same.symm chained.version_eq) ?_
      intro blockId read inside isRead sameVersion
      rw [readBlock_writeBlocks_of_not_mem part (outside blockId inside)] at isRead
      exact nothingNewer.links blockId read (readBlock_lt isRead).2 sameVersion
    have wasChained : ImageChain config disk version head found foundFiles :=
      chained.congr fun blockId mem =>
        (readBlock_writeBlocks_of_not_mem part (outside blockId (within blockId mem))).symm
    have sameVersion := chained.version_eq
    cases holds.alternate with
    | unreadable torn =>
      rw [wasHead] at torn
      contradiction
    | older isOlder older =>
      obtain rfl := Option.some.inj (wasHead.symm.trans isOlder)
      omega
    | broken isBroken _ _ noChain =>
      obtain rfl := Option.some.inj (wasHead.symm.trans isBroken)
      rw [← isNext] at noChain
      exact noChain found foundFiles wasChained
  · rw [isBlock] at isTorn
    contradiction
  · rw [isBlock] at now
    cases now
    have first : (config.headOf (alternateOf base), firstImageBlock version blockIds files) ∈
        imageBlocks version (config.headOf (alternateOf base) :: blockIds) files := by
      rw [imageBlocks_cons]
      exact mem_cons_self
    obtain rfl := may.unique inBlocks first
    exact chain_only_written may.named may.room (holds.only_written isNext may part) chained

include holds isNext part in
/-- No block gets newer than the image. -/
theorem versions_writeBlocks :
    ∀ blockId block, (disk.writeBlocks writes).block blockId = some block →
      block.version ≤ version := by
  intro blockId block isBlock
  rcases block_writeBlocks part disk blockId with same | ⟨-, isTorn | ⟨written, inBlocks, now⟩⟩
  · rw [isBlock] at same
    rw [isNext]
    exact holds.nothingNewer.versions blockId block same.symm
  · rw [isBlock] at isTorn
    contradiction
  · rw [isBlock] at now
    cases now
    exact Nat.le_of_eq (imageBlocks_mem inBlocks).2.1

include holds isNext may part in
/-- An image that landed whole is the new base. -/
theorem writeBlocks_whole
    {head : ImageBlock} {found : List Nat} {foundFiles : List FileEntry} {newMap : FileMap}
    (isHead : (disk.writeBlocks writes).readBlock config
      (config.headOf (alternateOf base)) = some head)
    (chained : ImageChain config (disk.writeBlocks writes) version head found foundFiles)
    (loads : addEntries ∅ files = some newMap) (full : rounds.length = config.numSectors) :
    DiskHolds config (disk.writeBlocks writes) interrupted (some (alternateOf base)) version
      blockIds newMap [] := by
  obtain ⟨rfl, rfl⟩ := holds.chain_writeBlocks isNext may part isHead chained
  constructor
  case image => exact .image (by omega) isHead chained may.distinct loads
  case ring =>
    refine ⟨Nat.zero_le _, by simp, fun position _ inRing => ?_, by simp⟩
    change (disk.sector position).version ≤ version
    rw [holds.ring.written position (full ▸ inRing)]
    change baseVersion + 1 + position ≤ version
    omega
  case alternate =>
    have sameBase := holds.base_writeBlocks may part
    cases sameBase with
    | scratch zeroed unwritten => exact .older zeroed (.inl unwritten)
    | @image slot baseVersion chain files head map positive isBase baseChained =>
      have isOlder : head.version < version := by
        rw [baseChained.version_eq]
        omega
      rw [alternateOf, alternateOf, slot.other_other]
      exact .older isBase (.inr isOlder)
  case nothingNewer =>
    have bound := holds.versions_writeBlocks isNext part
    have tooNew : ∀ blockId block, (disk.writeBlocks writes).block blockId = some block →
        block.version ≠ version + 0 + 1 := by
      intro blockId block isBlock
      have := bound blockId block isBlock
      omega
    exact {
      versions := fun blockId block isBlock => Nat.le_succ_of_le (bound blockId block isBlock)
      taken := fun blockId block isBlock isNew => absurd isNew (tooNew blockId block isBlock)
      links := fun blockId block isBlock isNew => absurd isNew (tooNew blockId block isBlock) }

include holds isNext may part in
/-- An image that was cut short is passed over. -/
theorem writeBlocks_broken (full : rounds.length = config.numSectors)
    (noChain : ∀ head found foundFiles,
      (disk.writeBlocks writes).readBlock config (config.headOf (alternateOf base)) = some head →
        ¬ ImageChain config (disk.writeBlocks writes) version head found foundFiles) :
    DiskHolds config (disk.writeBlocks writes)
      (interrupted ++ blockIds.map fun blockId => (version, blockId))
      base baseVersion chain baseMap rounds := by
  have wasNewer := holds.nothingNewer
  rw [← isNext] at wasNewer
  constructor
  case image => exact holds.base_writeBlocks may part
  case ring => exact { holds.ring with }
  case alternate =>
    cases isHead : (disk.writeBlocks writes).readBlock config
        (config.headOf (alternateOf base)) with
    | none => exact .unreadable isHead
    | some head =>
      by_cases isNew : head.version = version
      · refine .broken isHead full (isNew.trans isNext) fun found foundFiles => ?_
        rw [← isNext]
        exact noChain head found foundFiles isHead
      · obtain ⟨fits, isBlock⟩ := readBlock_lt isHead
        rcases block_writeBlocks part disk (config.headOf (alternateOf base)) with
          same | ⟨-, isTorn | ⟨block, inBlocks, now⟩⟩
        · rw [isBlock] at same
          have wasHead : disk.readBlock config (config.headOf (alternateOf base)) = some head := by
            rw [readBlock, if_pos fits, ← same]
          cases holds.alternate with
          | unreadable torn =>
            rw [wasHead] at torn
            contradiction
          | older isOlder older =>
            obtain rfl := Option.some.inj (wasHead.symm.trans isOlder)
            exact .older isHead older
          | broken isBroken _ wasNext _ =>
            obtain rfl := Option.some.inj (wasHead.symm.trans isBroken)
            exact absurd (wasNext.trans isNext.symm) isNew
        · rw [isBlock] at isTorn
          contradiction
        · rw [isBlock] at now
          cases now
          exact absurd (imageBlocks_mem inBlocks).2.1 isNew
  case nothingNewer =>
    rw [← isNext]
    constructor
    case versions => exact holds.versions_writeBlocks isNext part
    case taken =>
      intro blockId block isBlock isNew
      rcases block_writeBlocks part disk blockId with same | ⟨inside, -⟩
      · rw [isBlock] at same
        rcases wasNewer.taken blockId block same.symm isNew with isHead | wasTaken
        · exact .inl isHead
        · exact .inr (mem_append_left _ wasTaken)
      · rcases mem_cons.mp inside with isHead | inTail
        · exact .inl isHead
        · exact .inr (mem_append_right _ (mem_map.mpr ⟨blockId, inTail, rfl⟩))
    case links =>
      intro blockId block isBlock isNew next linked
      rcases block_writeBlocks part disk blockId with
        same | ⟨-, isTorn | ⟨written, inBlocks, now⟩⟩
      · rw [isBlock] at same
        obtain ⟨notHead, wasTaken⟩ := wasNewer.links blockId block same.symm isNew next linked
        exact ⟨notHead, mem_append_left _ wasTaken⟩
      · rw [isBlock] at isTorn
        contradiction
      · rw [isBlock] at now
        cases now
        have inTail := (imageBlocks_mem inBlocks).2.2 next linked
        rw [tail_cons] at inTail
        refine ⟨?_, mem_append_right _ (mem_map.mpr ⟨next, inTail, rfl⟩)⟩
        rintro rfl
        exact (nodup_cons.mp may.distinct).1 inTail

include may in
/-- An image whose blocks all landed is a chain. -/
theorem chain_all_written (disk : FileDisk) :
    let written := disk.writeBlocks
      ((imageBlocks version (config.headOf (alternateOf base) :: blockIds) files).map
        fun write => (write.1, some write.2))
    written.readBlock config (config.headOf (alternateOf base)) =
        some (firstImageBlock version blockIds files) ∧
      ImageChain config written version (firstImageBlock version blockIds files) blockIds
        files := by
  intro written
  have lands : ∀ write ∈ imageBlocks version (config.headOf (alternateOf base) :: blockIds) files,
      written.readBlock config write.1 = some write.2 := by
    intro write mem
    have fits := may.fits write.1 (imageBlocks_mem mem).1
    rw [readBlock, if_pos fits]
    refine CrashDisk.writeAll_eq ⟨(write.1, some write.2), mem_map.mpr ⟨write, mem, rfl⟩, rfl⟩ ?_
    intro other inWrites here
    obtain ⟨block, inBlocks, rfl⟩ := mem_map.mp inWrites
    obtain ⟨blockId, block⟩ := block
    change blockId = write.1 at here
    subst here
    exact congrArg some (may.unique inBlocks mem)
  rw [imageBlocks_cons] at lands
  obtain ⟨headLands, restLands⟩ := forall_mem_cons.mp lands
  exact ⟨headLands, chain_of_written may.named may.room restLands⟩

end DiskHolds

end Orly
