import Orly.FileImages

namespace Orly

/-!
# What the disk holds of the file map

Between writes the disk holds a base image that loads, the rounds since then in the ring,
and in the other image something that opening passes over.  A service opened from such a
disk reads the base image and the rounds, and goes on where they end.
-/

open List

/-- The image that is written next: the one that is not the base, and the first one
while there is no base. -/
def alternateOf : Option ImageSlot → ImageSlot
  | some slot => slot.other
  | none => .image1

section Held

variable (config : FileConfig) (disk : FileDisk)

/-- The base: an image that loads, or nothing at all. -/
inductive BaseImage : Option ImageSlot → Nat → List Nat → FileMap → Prop
  | scratch
      {head : ImageBlock}
      (zeroed : disk.readBlock config config.image2 = some head)
      (unwritten : head.version = 0) :
      BaseImage none 0 [] ∅
  | image
      {slot : ImageSlot}
      {version : Nat}
      {chain : List Nat}
      {files : List FileEntry}
      {head : ImageBlock}
      {map : FileMap}
      (positive : 0 < version)
      (isHead : disk.readBlock config (config.headOf slot) = some head)
      (chained : ImageChain config disk version head chain files)
      (distinct : (config.headOf slot :: chain).Nodup)
      (loads : addEntries ∅ files = some map) :
      BaseImage (some slot) version chain map

/-- The ring: one sector for each round since the base, and older ones behind them. -/
structure RingHolds (baseVersion : Nat) (rounds : List (List FileOp)) : Prop where
  fits : rounds.length ≤ config.numSectors
  written : ∀ position (inside : position < rounds.length),
    disk.sector position = ⟨baseVersion + 1 + position, rounds.get ⟨position, inside⟩⟩
  older : ∀ position, rounds.length ≤ position → position < config.numSectors →
    (disk.sector position).version ≤ baseVersion
  named : ∀ ops ∈ rounds, ∀ op ∈ ops, op.fileUid ≠ nilUid

/-- The other image: unreadable, older than the base, or cut short after a full ring. -/
inductive AlternateImage (slot : ImageSlot) (baseVersion rounds : Nat) : Prop
  | unreadable (torn : disk.readBlock config (config.headOf slot) = none)
  | older
      {head : ImageBlock}
      (isHead : disk.readBlock config (config.headOf slot) = some head)
      (isOlder : head.version = 0 ∨ head.version < baseVersion)
  | broken
      {head : ImageBlock}
      (isHead : disk.readBlock config (config.headOf slot) = some head)
      (full : rounds = config.numSectors)
      (isNext : head.version = baseVersion + rounds + 1)
      (noChain : ∀ chain files,
        ¬ ImageChain config disk (baseVersion + rounds + 1) head chain files)

/-- No block is newer than the next round; those as new are from interrupted writes. -/
structure NothingNewer (interrupted : List (Nat × Nat)) (slot : ImageSlot)
    (nextVersion : Nat) : Prop where
  versions : ∀ blockId block, disk.block blockId = some block → block.version ≤ nextVersion
  taken : ∀ blockId block, disk.block blockId = some block → block.version = nextVersion →
    blockId = config.headOf slot ∨ (nextVersion, blockId) ∈ interrupted
  links : ∀ blockId block, disk.block blockId = some block → block.version = nextVersion →
    ∀ next, block.next = some next →
      next ≠ config.headOf slot ∧ (nextVersion, next) ∈ interrupted

/-- A disk that holds a base image and the rounds since. -/
structure DiskHolds (interrupted : List (Nat × Nat)) (base : Option ImageSlot) (baseVersion : Nat)
    (chain : List Nat) (baseMap : FileMap)
    (rounds : List (List FileOp)) : Prop where
  image : BaseImage config disk base baseVersion chain baseMap
  ring : RingHolds config disk baseVersion rounds
  alternate : AlternateImage config disk (alternateOf base) baseVersion rounds.length
  nothingNewer : NothingNewer config disk interrupted (alternateOf base)
    (baseVersion + rounds.length + 1)

end Held

variable {config : FileConfig} {disk : FileDisk} {interrupted : List (Nat × Nat)}
  {base : Option ImageSlot} {slot : ImageSlot} {baseVersion : Nat} {chain : List Nat}
  {baseMap map : FileMap} {rounds : List (List FileOp)}

/-- Without a base image there is no chain. -/
theorem BaseImage.unbased (image : BaseImage config disk base baseVersion chain baseMap)
    (noBase : base = none) :
    chain = [] := by
  cases image with
  | scratch => rfl
  | image => contradiction

/-! ## Opening -/

section Heads

variable {head : ImageBlock}

theorem headVersion_eq (slot : ImageSlot)
    (isHead : disk.readBlock config (config.headOf slot) = some head) :
    headVersion config disk slot = head.version := by
  rw [headVersion, isHead]

theorem headVersion_unreadable (slot : ImageSlot)
    (torn : disk.readBlock config (config.headOf slot) = none) :
    headVersion config disk slot = 0 := by
  rw [headVersion, torn]

theorem bothHeadsRead_eq_true (slot : ImageSlot) {otherHead : ImageBlock}
    (isHead : disk.readBlock config (config.headOf slot) = some head)
    (isOther : disk.readBlock config (config.headOf slot.other) = some otherHead) :
    bothHeadsRead config disk = true := by
  cases slot with
  | image1 =>
    change disk.readBlock config config.image1 = _ at isHead
    change disk.readBlock config config.image2 = _ at isOther
    simp [bothHeadsRead, isHead, isOther]
  | image2 =>
    change disk.readBlock config config.image2 = _ at isHead
    change disk.readBlock config config.image1 = _ at isOther
    simp [bothHeadsRead, isHead, isOther]

/-- The base loads. -/
theorem tryLoad_image
    {files : List FileEntry} (isHead : disk.readBlock config (config.headOf slot) = some head)
    (chained : ImageChain config disk baseVersion head chain files)
    (distinct : (config.headOf slot :: chain).Nodup) (loads : addEntries ∅ files = some map) :
    tryLoadFromBaseImage config disk slot baseVersion = some (map, chain) := by
  obtain ⟨headNew, chainDistinct⟩ := nodup_cons.mp distinct
  have unseen : ∀ blockId ∈ chain, blockId ∉ [config.headOf slot] := by
    intro blockId mem inSeen
    rw [mem_singleton.mp inSeen] at mem
    exact headNew mem
  have fits : ∀ blockId ∈ chain, blockId < config.numBlocks := by
    intro blockId mem
    obtain ⟨block, read, -⟩ := chained.reads blockId mem
    exact (FileDisk.readBlock_lt read).1
  have enough := Nat.lt_succ_of_le (chain_length_le fits chainDistinct)
  rw [tryLoadFromBaseImage, isHead]
  exact loadBlocks_of_chain chained chainDistinct unseen enough loads

/-- An image without a chain does not load. -/
theorem tryLoad_broken (isHead : disk.readBlock config (config.headOf slot) = some head)
    (noChain : ∀ chain files, ¬ ImageChain config disk head.version head chain files) :
    tryLoadFromBaseImage config disk slot head.version = none := by
  rw [tryLoadFromBaseImage, isHead, Option.bind_some]
  refine Option.eq_none_iff_forall_ne_some.mpr fun contents isLoaded => ?_
  obtain ⟨chain, files, chained⟩ := loadBlocks_chained isLoaded
  exact noChain chain files chained

end Heads

/-- The higher version is chosen. -/
theorem loadImages_newest (config : FileConfig) (disk : FileDisk) (slot : ImageSlot)
    (newer : headVersion config disk slot.other < headVersion config disk slot) :
    loadImages config disk = loadNewest config disk slot := by
  cases slot with
  | image1 =>
    change headVersion config disk .image2 < _ at newer
    simp [loadImages, newer]
  | image2 =>
    change headVersion config disk .image1 < _ at newer
    simp [loadImages, newer, Nat.lt_asymm newer]

theorem ImageSlot.other_other (slot : ImageSlot) : slot.other.other = slot := by
  cases slot <;> rfl

namespace DiskHolds

variable (holds : DiskHolds config disk interrupted base baseVersion chain baseMap rounds)

include holds

/-- The first sector follows the base, or is older. -/
theorem first_sector : (rounds = [] ∧ (disk.sector 0).version ≤ baseVersion) ∨
      (rounds ≠ [] ∧ (disk.sector 0).version = baseVersion + 1) := by
  by_cases empty : rounds = []
  · refine .inl ⟨empty, holds.ring.older 0 (by simp [empty]) ?_⟩
    exact Nat.mul_pos config.hasAppendLog (by decide)
  · have inside : 0 < rounds.length := length_pos_iff.mpr empty
    exact .inr ⟨empty, by rw [holds.ring.written 0 inside]⟩

/-- The other image never has the version of the base. -/
theorem alternate_version : ∀ slot head, base = some slot →
      disk.readBlock config (config.headOf slot.other) = some head →
        head.version ≠ baseVersion := by
  obtain ⟨image, -, alternate, -⟩ := holds
  intro slot head isBase isHead
  subst isBase
  cases image with
  | image positive =>
    cases alternate with
    | unreadable torn =>
      rw [alternateOf, isHead] at torn
      contradiction
    | older isOther isOlder =>
      obtain rfl := Option.some.inj (isHead.symm.trans isOther)
      omega
    | broken isOther full isNext =>
      obtain rfl := Option.some.inj (isHead.symm.trans isOther)
      omega

/-- The two images never have one version, unless neither was written. -/
theorem versions_differ (same : headVersion config disk .image1 = headVersion config disk .image2) :
    headVersion config disk .image1 = 0 := by
  have differs := holds.alternate_version
  obtain ⟨image, -, -, -⟩ := holds
  cases image with
  | scratch zeroed unwritten => rw [same, headVersion_eq .image2 zeroed, unwritten]
  | @image slot version chain files head map positive isHead chained =>
    have isBase : headVersion config disk slot = baseVersion :=
      (headVersion_eq slot isHead).trans chained.version_eq
    have sameOther : headVersion config disk slot.other = baseVersion := by
      cases slot with
      | image1 => exact same.symm.trans isBase
      | image2 => exact same.trans isBase
    cases isOther : disk.readBlock config (config.headOf slot.other) with
    | none =>
      rw [headVersion_unreadable slot.other isOther] at sameOther
      omega
    | some other =>
      rw [headVersion_eq slot.other isOther] at sameOther
      exact absurd sameOther (differs slot other rfl isOther)

/-- Opening loads the base image. -/
theorem loadImages_eq : loadImages config disk =
      .ok ⟨base, alternateOf base, baseVersion, baseMap, chain⟩ := by
  have firstSector := holds.first_sector
  have hasSectors : 0 < config.numSectors := Nat.mul_pos config.hasAppendLog (by decide)
  obtain ⟨image, ring, alternate, -⟩ := holds
  cases image with
  | scratch zeroed unwritten =>
    have second : headVersion config disk .image2 = 0 :=
      (headVersion_eq .image2 zeroed).trans unwritten
    have noImage : headVersion config disk .image1 = 0 →
        loadImages config disk = .ok ⟨none, .image1, 0, ∅, []⟩ := by
      intro first
      simp [loadImages, first, second]
    cases alternate with
    | unreadable torn => exact noImage (headVersion_unreadable .image1 torn)
    | older isHead isOlder =>
      have unwritten := isOlder.resolve_right (Nat.not_lt_zero _)
      exact noImage ((headVersion_eq .image1 isHead).trans unwritten)
    | @broken head isHead full isNext noChain =>
      rw [← isNext] at noChain
      rw [alternateOf] at isHead
      have failed := tryLoad_broken isHead noChain
      have newer : headVersion config disk .image2 < headVersion config disk .image1 := by
        rw [second, headVersion_eq .image1 isHead]
        omega
      have first : (disk.sector 0).version = 1 := by
        rcases firstSector with ⟨empty, -⟩ | ⟨-, follows⟩
        · rw [empty, length_nil] at full
          omega
        · exact follows
      have bothRead : bothHeadsRead config disk = true :=
        bothHeadsRead_eq_true .image1 isHead zeroed
      rw [loadImages_newest config disk .image1 newer, loadNewest,
        headVersion_eq .image1 isHead, failed]
      simp [bothRead, ImageSlot.other, second, first, alternateOf]
  | @image slot version chain files head map positive isHead chained distinct loads =>
    have isBase : headVersion config disk slot = baseVersion :=
      (headVersion_eq slot isHead).trans chained.version_eq
    have load := tryLoad_image isHead chained distinct loads
    have newest : headVersion config disk slot.other < baseVersion → loadImages config disk =
          .ok ⟨some slot, slot.other, baseVersion, baseMap, chain⟩ := by
      intro newer
      rw [← isBase] at newer
      simp [loadImages_newest config disk slot newer, loadNewest, isBase, load, LoadedImage.ofImage]
    cases alternate with
    | unreadable torn =>
      refine newest ?_
      rw [alternateOf] at torn
      rw [headVersion_unreadable slot.other torn]
      exact positive
    | older isOther isOlder =>
      refine newest ?_
      rw [alternateOf] at isOther
      rw [headVersion_eq slot.other isOther]
      omega
    | @broken other isOther full isNext noChain =>
      rw [alternateOf] at isOther
      rw [← isNext] at noChain
      have failed := tryLoad_broken isOther noChain
      have newer : headVersion config disk slot.other.other <
          headVersion config disk slot.other := by
        rw [slot.other_other, isBase, headVersion_eq slot.other isOther]
        omega
      have first : (disk.sector 0).version = baseVersion + 1 := by
        rcases firstSector with ⟨empty, -⟩ | ⟨-, follows⟩
        · rw [empty, length_nil] at full
          omega
        · exact follows
      have bothRead := bothHeadsRead_eq_true slot isHead isOther
      rw [loadImages_newest config disk slot.other newer, loadNewest,
        headVersion_eq slot.other isOther, failed]
      simp [bothRead, slot.other_other, isBase, first, load, Nat.ne_of_gt positive,
        LoadedImage.ofImage, alternateOf]

/-- The replay applies every round since the base, and stops behind the last one. -/
theorem replay_eq {replayed : FileMap} (applied : applyOps baseMap rounds.flatten = some replayed) :
    replayAppendLog disk config.numSectors ⟨baseVersion, 0, baseMap⟩ =
      some ⟨baseVersion + rounds.length, rounds.length, replayed⟩ := by
  have ring := holds.ring
  suffices from_position : ∀ sectors position map,
      position ≤ rounds.length → position + sectors = config.numSectors →
        applyOps map (rounds.drop position).flatten = some replayed →
          replayAppendLog disk sectors ⟨baseVersion + position, position, map⟩ =
            some ⟨baseVersion + rounds.length, rounds.length, replayed⟩ by
    exact from_position config.numSectors 0 baseMap (Nat.zero_le _) (Nat.zero_add _) applied
  intro sectors
  induction sectors with
  | zero =>
    intro position map inside total appliedRest
    obtain rfl : position = rounds.length := by
      have fits := ring.fits
      omega
    rw [drop_length] at appliedRest
    obtain rfl : map = replayed := Option.some.inj appliedRest
    rfl
  | succ sectors ih =>
    intro position map inside total appliedRest
    rw [replayAppendLog]
    rcases Nat.lt_or_eq_of_le inside with more | rfl
    · have named : (disk.sector position).named = rounds.get ⟨position, more⟩ := by
        rw [ring.written position more]
        refine takeWhile_eq_self_iff.mpr fun op mem => ?_
        simpa using ring.named _ (get_mem rounds _) op mem
      have isNext : (disk.sector position).version = baseVersion + (position + 1) := by
        rw [ring.written position more]
        exact Nat.add_right_comm baseVersion 1 position
      rw [drop_eq_getElem_cons more, flatten_cons, applyOps_append] at appliedRest
      obtain ⟨next, first, rest⟩ := Option.bind_eq_some_iff.mp appliedRest
      have nextApplied : applyOps map (disk.sector position).named = some next := by
        rw [named]
        exact first
      simp only [isNext, nextApplied, Nat.add_assoc, if_true, Option.bind_some]
      exact ih (position + 1) next more (by omega) rest
    · have older := ring.older rounds.length (Nat.le_refl _) (by omega)
      rw [drop_length] at appliedRest
      obtain rfl : map = replayed := Option.some.inj appliedRest
      have differs : (disk.sector rounds.length).version ≠
          baseVersion + rounds.length + 1 := by omega
      exact if_neg differs

/-- Opening succeeds. -/
theorem openService_eq {replayed : FileMap} (inUse : List Nat)
    (applied : applyOps baseMap rounds.flatten = some replayed) :
    openService config disk inUse =
      .ok (startService config disk inUse ⟨base, alternateOf base, baseVersion, baseMap, chain⟩
        ⟨baseVersion + rounds.length, rounds.length, replayed⟩) := by
  have notPast : ¬ (baseVersion + 1 < (disk.sector 0).version) := by
    rcases holds.first_sector with ⟨-, older⟩ | ⟨-, follows⟩
    · omega
    · omega
  rw [openService, holds.loadImages_eq]
  simp [bind, Except.bind, notPast, holds.replay_eq applied, pure, Except.pure]

end DiskHolds

/-! ## The blocks of an opened service -/

/-- The blocks that a service holds: both heads, and the chain of the base. -/
structure BlocksHeld (config : FileConfig) (service : FileService) (base : Option ImageSlot)
    (chain : List Nat) : Prop where
  heads : ∀ slot, ∃ rest, service.blocksOf slot = config.headOf slot :: rest
  distinct : service.owned.Nodup
  fits : ∀ blockId ∈ service.owned, blockId < config.numBlocks
  holdsBase : ∀ slot, base = some slot → ∀ blockId ∈ chain, blockId ∈ service.blocksOf slot

/-- What is adopted is in use by nobody else, and is all of the chain or nothing. -/
theorem adoptImageChain_spec (used chain : List Nat) :
    (adoptImageChain used chain = [] ∨ adoptImageChain used chain = chain) ∧
      ∀ blockId ∈ adoptImageChain used chain, blockId ∉ used := by
  unfold adoptImageChain
  split
  case isTrue => simp
  case isFalse noneUsed =>
    refine ⟨.inr rfl, fun blockId mem inUsed => noneUsed ?_⟩
    exact any_eq_true.mpr ⟨blockId, mem, by simpa using inUsed⟩

theorem adoptImageChain_eq_self {used chain : List Nat} (free : ∀ blockId ∈ chain, blockId ∉ used) :
    adoptImageChain used chain = chain := by
  refine if_neg fun someUsed => ?_
  obtain ⟨blockId, mem, inUsed⟩ := any_eq_true.mp someUsed
  exact free blockId mem (by simpa using inUsed)

theorem adoptImageChain_sublist (used chain : List Nat) :
    (adoptImageChain used chain).Sublist chain := by
  rcases (adoptImageChain_spec used chain).1 with nothing | whole
  · rw [nothing]
    exact nil_sublist chain
  · rw [whole]

/-- The heads and the chains that are adopted are distinct blocks. -/
theorem adopted_distinct {chain1 chain2 : List Nat} (inUse : List Nat) (distinct1 : chain1.Nodup)
    (distinct2 : chain2.Nodup) :
    ((config.image1 :: adoptImageChain ([config.image1, config.image2] ++ inUse) chain1) ++
      (config.image2 :: adoptImageChain ([config.image1, config.image2] ++ inUse ++
        adoptImageChain ([config.image1, config.image2] ++ inUse) chain1) chain2)).Nodup := by
  have free1 := (adoptImageChain_spec ([config.image1, config.image2] ++ inUse) chain1).2
  have kept1 := distinct1.sublist
    (adoptImageChain_sublist ([config.image1, config.image2] ++ inUse) chain1)
  generalize adoptImageChain ([config.image1, config.image2] ++ inUse) chain1 = adopted1 at *
  have free2 := (adoptImageChain_spec
    ([config.image1, config.image2] ++ inUse ++ adopted1) chain2).2
  have kept2 := distinct2.sublist
    (adoptImageChain_sublist ([config.image1, config.image2] ++ inUse ++ adopted1) chain2)
  generalize adoptImageChain ([config.image1, config.image2] ++ inUse ++ adopted1) chain2 =
    adopted2 at *
  have differ := config.imagesDiffer
  simp only [mem_append, mem_cons, not_mem_nil, or_false, not_or] at free1 free2
  refine nodup_append.mpr ⟨nodup_cons.mpr ⟨?_, kept1⟩, nodup_cons.mpr ⟨?_, kept2⟩, ?_⟩
  · exact fun mem => (free1 _ mem).1.1 rfl
  · exact fun mem => (free2 _ mem).1.1.2 rfl
  · intro left inLeft right inRight same
    subst same
    rcases mem_cons.mp inLeft with rfl | adopted
    · rcases mem_cons.mp inRight with same | adopted
      · exact differ same
      · exact (free2 _ adopted).1.1.1 rfl
    · rcases mem_cons.mp inRight with rfl | adoptedToo
      · exact (free1 _ adopted).1.2 rfl
      · exact (free2 _ adoptedToo).2 adopted

/-- The chain of an image that reads whole has distinct blocks of the head's version. -/
theorem readImageChain_spec {reported : List Nat}
    (isRead : readImageChain config disk slot = some reported) :
    ∃ head, disk.readBlock config (config.headOf slot) = some head ∧ reported.Nodup ∧
      ∀ blockId ∈ reported, ∃ block, disk.readBlock config blockId = some block ∧
        block.version = head.version := by
  obtain ⟨head, isHead, walked⟩ := Option.bind_eq_some_iff.mp isRead
  obtain ⟨-, walked⟩ := Option.ite_none_left_eq_some.mp walked
  obtain ⟨chain, rfl, distinct, spec⟩ := chainBlocks_spec walked
  exact ⟨head, isHead, distinct, fun blockId mem => (spec blockId mem).2⟩

namespace DiskHolds

variable (holds : DiskHolds config disk interrupted base baseVersion chain baseMap rounds)

include holds

/-- The chains that are adopted have distinct blocks on the device. -/
theorem chainToAdopt_spec (slot : ImageSlot) :
    let chained := chainToAdopt config disk
      ⟨base, alternateOf base, baseVersion, baseMap, chain⟩ slot
    chained.Nodup ∧ (∀ blockId ∈ chained, blockId < config.numBlocks) ∧
      (base = some slot.other → ∀ blockId ∈ chained, blockId ∉ chain) := by
  have differs := holds.alternate_version
  obtain ⟨image, -, -, -⟩ := holds
  cases image with
  | scratch => simp [chainToAdopt]
  | @image loaded version chain files head map positive isHead chained distinct =>
    by_cases same : slot = loaded
    · have whole : chainToAdopt config disk
          ⟨some loaded, alternateOf (some loaded), baseVersion, baseMap, chain⟩ slot =
            chain := if_pos same
      rw [whole]
      refine ⟨(nodup_cons.mp distinct).2, fun blockId mem => ?_, fun isOther => ?_⟩
      · obtain ⟨block, read, -⟩ := chained.reads blockId mem
        exact (FileDisk.readBlock_lt read).1
      · subst same
        cases slot <;> simp [ImageSlot.other] at isOther
    · have whole : chainToAdopt config disk
          ⟨some loaded, alternateOf (some loaded), baseVersion, baseMap, chain⟩ slot =
            (readImageChain config disk slot).getD [] := if_neg same
      rw [whole]
      cases isRead : readImageChain config disk slot with
      | none => simp
      | some reported =>
        obtain ⟨other, isOther, reportedDistinct, reads⟩ := readImageChain_spec isRead
        rw [Option.getD_some]
        refine ⟨reportedDistinct, fun blockId mem => ?_, fun isBase => ?_⟩
        · obtain ⟨block, read, -⟩ := reads blockId mem
          exact (FileDisk.readBlock_lt read).1
        · intro blockId mem inChain
          obtain ⟨block, read, isOtherVersion⟩ := reads blockId mem
          obtain ⟨block', read', isBaseVersion⟩ := chained.reads blockId inChain
          obtain rfl := Option.some.inj (read.symm.trans read')
          rw [← slot.other_other] at isOther
          exact differs _ other isBase isOther (isOtherVersion.symm.trans isBaseVersion)

/-- The chain of the base avoids both heads. -/
theorem chain_avoids_heads : ∀ blockId ∈ chain, blockId ∉ [config.image1, config.image2] := by
  have differs := holds.alternate_version
  obtain ⟨image, -, -, -⟩ := holds
  cases image with
  | scratch => simp
  | @image slot version chain files head map positive isHead chained distinct =>
    intro blockId mem isSomeHead
    have notOwn : blockId ≠ config.headOf slot := by
      rintro rfl
      exact (nodup_cons.mp distinct).1 mem
    have notOther : blockId ≠ config.headOf slot.other := by
      rintro rfl
      obtain ⟨block, read, sameVersion⟩ := chained.reads _ mem
      exact differs slot block rfl read sameVersion
    cases slot with
    | image1 | image2 => simp_all [FileConfig.headOf, ImageSlot.other]

/-- An opened service holds the base, if no file claims a block of it. -/
theorem blocksHeld_startService {inUse : List Nat} (replayed : Replayed)
    (free : ∀ blockId ∈ chain, blockId ∉ inUse) :
    BlocksHeld config
      (startService config disk inUse
        ⟨base, alternateOf base, baseVersion, baseMap, chain⟩ replayed) base chain where
  heads := by
    intro slot
    cases slot with
    | image1 => exact ⟨_, rfl⟩
    | image2 => exact ⟨_, rfl⟩
  distinct :=
    adopted_distinct inUse (holds.chainToAdopt_spec .image1).1 (holds.chainToAdopt_spec .image2).1
  fits := by
    intro blockId mem
    rcases mem_append.mp mem with inFirst | inSecond
    · rcases mem_cons.mp inFirst with rfl | adopted
      · exact config.image1Fits
      · exact (holds.chainToAdopt_spec .image1).2.1 blockId
          ((adoptImageChain_sublist _ _).mem adopted)
    · rcases mem_cons.mp inSecond with rfl | adopted
      · exact config.image2Fits
      · exact (holds.chainToAdopt_spec .image2).2.1 blockId
          ((adoptImageChain_sublist _ _).mem adopted)
  holdsBase := by
    intro slot isBase blockId mem
    subst isBase
    have whole : chainToAdopt config disk
        ⟨some slot, alternateOf (some slot), baseVersion, baseMap, chain⟩ slot = chain :=
      if_pos rfl
    have avoidsHeads := holds.chain_avoids_heads
    have unused : ∀ blockId ∈ chain, blockId ∉ [config.image1, config.image2] ++ inUse := by
      intro blockId mem inUsed
      rcases mem_append.mp inUsed with isHead | isUsed
      · exact avoidsHeads blockId mem isHead
      · exact free blockId mem isUsed
    cases slot with
    | image1 =>
      have adopted := adoptImageChain_eq_self unused
      rw [← whole] at adopted mem
      exact mem_cons_of_mem _ (adopted.symm ▸ mem)
    | image2 =>
      have unshared : ∀ blockId ∈ chain, blockId ∉ [config.image1, config.image2] ++ inUse ++
          adoptImageChain ([config.image1, config.image2] ++ inUse) (chainToAdopt config disk
            ⟨some .image2, alternateOf (some .image2), baseVersion, baseMap, chain⟩ .image1) := by
        intro blockId mem inUsed
        rcases mem_append.mp inUsed with isUsed | adopted
        · exact unused blockId mem isUsed
        · exact (holds.chainToAdopt_spec .image1).2.2 rfl blockId
            ((adoptImageChain_sublist _ _).mem adopted) mem
      have adopted := adoptImageChain_eq_self unshared
      rw [← whole] at adopted mem
      exact mem_cons_of_mem _ (adopted.symm ▸ mem)

end DiskHolds

end Orly
