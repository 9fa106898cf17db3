import Orly.FileService

namespace Orly

/-!
# Chains of image blocks

When the walk along a base image ends well: exactly if its blocks form a chain of one
version.  An image that was written whole forms such a chain with its own files; one
that was cut short forms none, unless it runs into blocks of the same version that an
earlier write left.
-/

open List

section Chains

variable (config : FileConfig) (disk : FileDisk) (version : Nat)

/-- The blocks after a block and the files of the whole chain. -/
inductive ImageChain : ImageBlock → List Nat → List FileEntry → Prop
  | last
      {block : ImageBlock}
      (sameVersion : block.version = version)
      (isLast : block.next = none) :
      ImageChain block [] block.named
  | link
      {block nextBlock : ImageBlock}
      {next : Nat}
      {chain : List Nat}
      {files : List FileEntry}
      (sameVersion : block.version = version)
      (linked : block.next = some next)
      (read : disk.readBlock config next = some nextBlock)
      (rest : ImageChain nextBlock chain files) :
      ImageChain block (next :: chain) (block.named ++ files)

end Chains

variable {config : FileConfig} {disk other : FileDisk} {version : Nat} {block : ImageBlock}
  {chain seen : List Nat} {files : List FileEntry} {map loaded : FileMap}

/-! ## Facts about chains -/

namespace ImageChain

section

variable (chained : ImageChain config disk version block chain files)

include chained

theorem version_eq : block.version = version := by
  cases chained with
  | last sameVersion _ => exact sameVersion
  | link sameVersion _ _ _ => exact sameVersion

/-- Each block after the head reads, with the version of the chain. -/
theorem reads : ∀ blockId ∈ chain, ∃ read, disk.readBlock config blockId = some read ∧
      read.version = version := by
  induction chained with
  | last => simp
  | link _ _ read rest ih =>
    exact forall_mem_cons.mpr ⟨⟨_, read, rest.version_eq⟩, ih⟩

/-- A chain stays one while its blocks do. -/
theorem congr
    (same : ∀ blockId ∈ chain, other.readBlock config blockId = disk.readBlock config blockId) :
    ImageChain config other version block chain files := by
  induction chained with
  | last sameVersion isLast => exact .last sameVersion isLast
  | link sameVersion linked read _ ih =>
    obtain ⟨sameNext, sameRest⟩ := forall_mem_cons.mp same
    exact .link sameVersion linked (sameNext.trans read) (ih sameRest)

/-- A chain stays within blocks that every block of its version links into. -/
theorem within {Inside : Nat → Prop} (first : ∀ next, block.next = some next → Inside next)
    (links : ∀ blockId read, Inside blockId → disk.readBlock config blockId = some read →
      read.version = version → ∀ next, read.next = some next → Inside next) :
    ∀ blockId ∈ chain, Inside blockId := by
  induction chained with
  | last => simp
  | link _ linked read rest ih =>
    have inside := first _ linked
    exact forall_mem_cons.mpr ⟨inside, ih (links _ _ inside read rest.version_eq)⟩

end

end ImageChain

/-! ## The walks -/

theorem FileDisk.readBlock_lt {blockId : Nat} (read : disk.readBlock config blockId = some block) :
    blockId < config.numBlocks ∧ disk.block blockId = some block := by
  unfold FileDisk.readBlock at read
  split at read
  case isTrue fits => exact ⟨fits, read⟩
  case isFalse => contradiction

theorem addEntries_append (map : FileMap) (first second : List FileEntry) :
    addEntries map (first ++ second) =
      (addEntries map first).bind fun next => addEntries next second := by
  unfold addEntries
  rw [foldlM_append]
  rfl

/-- A chain without repetitions is no longer than the device. -/
theorem chain_length_le (fits : ∀ blockId ∈ chain, blockId < config.numBlocks)
    (distinct : chain.Nodup) :
    chain.length ≤ config.numBlocks := by
  have inRange : chain ⊆ List.range config.numBlocks :=
    fun blockId mem => mem_range.mpr (fits blockId mem)
  simpa using (distinct.subperm inRange).length_le

/-- What loads is a chain. -/
theorem loadBlocks_chained {turns : Nat} {before : List Nat} {contents : FileMap × List Nat}
    (isLoaded : loadBlocks config disk version turns seen map before block = some contents) :
    ∃ chain files, ImageChain config disk version block chain files := by
  induction turns generalizing seen map before block with
  | zero => simp [loadBlocks] at isLoaded
  | succ turns ih =>
    unfold loadBlocks at isLoaded
    obtain ⟨sameVersion, isLoaded⟩ := Option.ite_none_left_eq_some.mp isLoaded
    obtain ⟨next, -, walked⟩ := Option.bind_eq_some_iff.mp isLoaded
    split at walked
    case h_1 isLast => exact ⟨_, _, .last (not_not.mp sameVersion) isLast⟩
    case h_2 nextId linked =>
      obtain ⟨-, walked⟩ := Option.ite_none_left_eq_some.mp walked
      obtain ⟨nextBlock, read, rest⟩ := Option.bind_eq_some_iff.mp walked
      obtain ⟨chain, files, chained⟩ := ih rest
      exact ⟨_, _, .link (not_not.mp sameVersion) linked read chained⟩

/-- A chain without a loop loads, if no file is named twice. -/
theorem loadBlocks_of_chain
    {turns : Nat} {before : List Nat} (chained : ImageChain config disk version block chain files)
    (distinct : chain.Nodup) (unseen : ∀ blockId ∈ chain, blockId ∉ seen)
    (enough : chain.length < turns) (added : addEntries map files = some loaded) :
    loadBlocks config disk version turns seen map before block =
      some (loaded, before ++ chain) := by
  induction chained generalizing turns seen map before with
  | @last block sameVersion isLast =>
    obtain ⟨turns, rfl⟩ := Nat.exists_eq_add_one_of_ne_zero (Nat.ne_zero_of_lt enough)
    simp [loadBlocks, sameVersion, isLast, added]
  | @link block nextBlock next chain files sameVersion linked read _ ih =>
    obtain ⟨turns, rfl⟩ := Nat.exists_eq_add_one_of_ne_zero (Nat.ne_zero_of_lt enough)
    rw [addEntries_append] at added
    obtain ⟨middle, first, rest⟩ := Option.bind_eq_some_iff.mp added
    obtain ⟨nextUnseen, restUnseen⟩ := forall_mem_cons.mp unseen
    obtain ⟨nextNew, restDistinct⟩ := nodup_cons.mp distinct
    have stillUnseen : ∀ blockId ∈ chain, blockId ∉ next :: seen := by
      intro blockId mem inSeen
      rcases mem_cons.mp inSeen with rfl | wasSeen
      · exact nextNew mem
      · exact restUnseen blockId mem wasSeen
    have walked : loadBlocks config disk version turns (next :: seen) middle
        (before ++ [next]) nextBlock = some (loaded, before ++ [next] ++ chain) :=
      ih restDistinct stillUnseen (by simpa using enough) rest
    simp [loadBlocks, sameVersion, linked, first, nextUnseen, read, walked]

/-- The chain that `ReadImageChain` reports: distinct blocks of one version. -/
theorem chainBlocks_spec {turns : Nat} {before reported : List Nat}
    (isRead : chainBlocks config disk version turns seen before block = some reported) :
    ∃ chain, reported = before ++ chain ∧ chain.Nodup ∧ ∀ blockId ∈ chain, blockId ∉ seen ∧
        ∃ read, disk.readBlock config blockId = some read ∧ read.version = version := by
  induction turns generalizing seen before block with
  | zero => simp [chainBlocks] at isRead
  | succ turns ih =>
    unfold chainBlocks at isRead
    split at isRead
    case h_1 => exact ⟨[], by simpa using isRead.symm, by simp⟩
    case h_2 next _ =>
      obtain ⟨nextUnseen, isRead⟩ := Option.ite_none_left_eq_some.mp isRead
      obtain ⟨nextBlock, read, walked⟩ := Option.bind_eq_some_iff.mp isRead
      obtain ⟨sameVersion, walked⟩ := Option.ite_none_left_eq_some.mp walked
      obtain ⟨chain, rfl, distinct, spec⟩ := ih walked
      refine ⟨next :: chain, by simp, ?_, ?_⟩
      · refine nodup_cons.mpr ⟨fun mem => ?_, distinct⟩
        exact (spec next mem).1 mem_cons_self
      · refine forall_mem_cons.mpr ⟨⟨nextUnseen, nextBlock, read, not_not.mp sameVersion⟩, ?_⟩
        intro blockId mem
        obtain ⟨unseen, reads⟩ := spec blockId mem
        exact ⟨fun inSeen => unseen (mem_cons_of_mem _ inSeen), reads⟩

/-! ## The blocks of an image that is written -/

/-- The block that carries the first files of an image and links to the first of the
other blocks. -/
def firstImageBlock (version : Nat) (blockIds : List Nat) (files : List FileEntry) : ImageBlock :=
  ⟨version, blockIds.head?, files.take filesPerImageBlock⟩

section Written

variable {blockId : Nat} {blockIds : List Nat}

theorem imageBlocks_cons (version blockId : Nat) (blockIds : List Nat) (files : List FileEntry) :
    imageBlocks version (blockId :: blockIds) files =
      (blockId, firstImageBlock version blockIds files) ::
        imageBlocks version blockIds (files.drop filesPerImageBlock) := by
  cases blockIds with
  | nil => rfl
  | cons next blockIds => rfl

/-- A block that is written has the version of its image, and links into it. -/
theorem imageBlocks_mem {write : Nat × ImageBlock}
    (mem : write ∈ imageBlocks version blockIds files) :
    write.1 ∈ blockIds ∧ write.2.version = version ∧
      ∀ next, write.2.next = some next → next ∈ blockIds.tail := by
  induction blockIds generalizing files with
  | nil => simp [imageBlocks] at mem
  | cons blockId blockIds ih =>
    rw [imageBlocks_cons] at mem
    rcases mem_cons.mp mem with rfl | inRest
    · exact ⟨mem_cons_self, rfl, fun next linked => mem_of_head? linked⟩
    · obtain ⟨inBlocks, sameVersion, links⟩ := ih inRest
      exact ⟨mem_cons_of_mem _ inBlocks, sameVersion,
        fun next linked => mem_of_mem_tail (links next linked)⟩

theorem imageBlocks_ids (version : Nat) (blockIds : List Nat) (files : List FileEntry) :
    (imageBlocks version blockIds files).map Prod.fst = blockIds := by
  induction blockIds generalizing files with
  | nil => rfl
  | cons blockId blockIds ih =>
    rw [imageBlocks_cons, map_cons, ih]

/-- The files of a block are read back if none of them is under the nil uid. -/
theorem named_firstImageBlock (named : ∀ entry ∈ files, entry.fileUid ≠ nilUid) :
    (firstImageBlock version blockIds files).named = files.take filesPerImageBlock := by
  refine takeWhile_eq_self_iff.mpr fun entry mem => ?_
  simpa using named entry (mem_of_mem_take mem)

section Files

variable (named : ∀ entry ∈ files, entry.fileUid ≠ nilUid)
  (fits : files.length ≤ filesPerImageBlock * (blockIds.length + 1))

include named fits

/-- An image that was written whole is a chain with its files. -/
theorem chain_of_written
    (written : ∀ write ∈ imageBlocks version blockIds (files.drop filesPerImageBlock),
      disk.readBlock config write.1 = some write.2) :
    ImageChain config disk version (firstImageBlock version blockIds files) blockIds files := by
  induction blockIds generalizing files with
  | nil =>
    have all : files.take filesPerImageBlock = files := take_of_length_le (by simpa using fits)
    have last : ImageChain config disk version (firstImageBlock version [] files) [] _ :=
      .last rfl rfl
    rwa [named_firstImageBlock named, all] at last
  | cons next blockIds ih =>
    rw [imageBlocks_cons] at written
    obtain ⟨nextWritten, restWritten⟩ := forall_mem_cons.mp written
    have rest := ih (fun entry mem => named entry (mem_of_mem_drop mem))
      (by rw [length_drop]; rw [length_cons] at fits; grind) restWritten
    have linked : ImageChain config disk version
        (firstImageBlock version (next :: blockIds) files) (next :: blockIds) _ :=
      .link rfl rfl nextWritten rest
    rwa [named_firstImageBlock named, take_append_drop] at linked

/-- A chain from the head of an image is the image, if no block that it is to occupy
reads as another block of its version. -/
theorem chain_only_written {foundFiles : List FileEntry}
    (only : ∀ write ∈ imageBlocks version blockIds (files.drop filesPerImageBlock),
      ∀ read, disk.readBlock config write.1 = some read → read.version = version → read = write.2)
    (chained : ImageChain config disk version (firstImageBlock version blockIds files) chain
      foundFiles) :
    chain = blockIds ∧ foundFiles = files := by
  induction blockIds generalizing files chain foundFiles with
  | nil =>
    have all : files.take filesPerImageBlock = files := take_of_length_le (by simpa using fits)
    cases chained with
    | last => exact ⟨rfl, by rw [named_firstImageBlock named, all]⟩
    | link _ linked => simp [firstImageBlock] at linked
  | cons next blockIds ih =>
    rw [imageBlocks_cons] at only
    obtain ⟨nextOnly, restOnly⟩ := forall_mem_cons.mp only
    cases chained with
    | last _ isLast => simp [firstImageBlock] at isLast
    | @link _ nextBlock found chain restFiles _ linked read rest =>
      obtain rfl : next = found := by simpa [firstImageBlock] using linked
      obtain rfl := nextOnly nextBlock read rest.version_eq
      obtain ⟨rfl, rfl⟩ := ih (fun entry mem => named entry (mem_of_mem_drop mem))
        (by rw [length_drop]; rw [length_cons] at fits; grind) restOnly rest
      exact ⟨rfl, by rw [named_firstImageBlock named, take_append_drop]⟩

end Files

end Written

end Orly
