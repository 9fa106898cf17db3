import Orly.VolumeManager
import Orly.FoldRules

namespace Orly

/-!
# What the volume manager keeps

The chunks of different volumes never overlap, whatever is called.  As long as no range is
looked up whose end is outside the chunks of its volume, the map of chunks has exactly the
chunks of the volumes, and a range of a volume is found.
-/

open FoldRules List VolumeManager

/-! ## Chunks -/

/-- Where a volume is. -/
structure VolumePlace where
  id : Nat
  shape : VolumeShape
  extentStarts : List Nat

def ManagedVolume.place (volume : ManagedVolume) : VolumePlace :=
  ⟨volume.id, volume.shape, volume.extentStarts⟩

def VolumePlace.chunks (place : VolumePlace) : List Nat :=
  VolumeManager.extentChunks place.shape place.extentStarts

def VolumeManager.places (manager : VolumeManager) : List VolumePlace :=
  manager.volumes.map ManagedVolume.place

theorem mem_extentChunks {shape : VolumeShape} {extentStarts : List Nat} {chunk : Nat} :
    chunk ∈ extentChunks shape extentStarts ↔ ∃ start ∈ extentStarts,
        start / chunkBlocks ≤ chunk ∧ chunk < start / chunkBlocks + shape.chunksPerExtent := by
  simp [extentChunks, mem_flatMap, mem_range'_1]

/-- The chunks of an extent cover its blocks. -/
theorem capacity_le_chunks (shape : VolumeShape) :
    shape.capacityBlocks ≤ shape.chunksPerExtent * chunkBlocks := by
  have positive : 0 < chunkBlocks := by decide
  have rounded := Nat.div_add_mod (shape.capacityBlocks + chunkBlocks - 1) chunkBlocks
  have below := Nat.mod_lt (shape.capacityBlocks + chunkBlocks - 1) positive
  rw [VolumeShape.chunksPerExtent, Nat.mul_comm]
  omega

/-- A block of an extent is in one of its chunks. -/
theorem chunk_of_block {shape : VolumeShape} {extentStarts : List Nat} {start block : Nat}
    (isStart : start ∈ extentStarts) (aligned : start % chunkBlocks = 0) (above : start ≤ block)
    (below : block < start + shape.capacityBlocks) :
    block / chunkBlocks ∈ extentChunks shape extentStarts := by
  have positive : 0 < chunkBlocks := by decide
  have covered := capacity_le_chunks shape
  have whole : start / chunkBlocks * chunkBlocks = start :=
    Nat.div_mul_cancel (Nat.dvd_of_mod_eq_zero aligned)
  refine mem_extentChunks.mpr ⟨start, isStart, Nat.div_le_div_right above, ?_⟩
  rw [Nat.div_lt_iff_lt_mul positive, Nat.add_mul]
  omega

/-! ## Searching for chunks -/

/-- A run that is found is of free chunks.  A count carried over from a search before is
too high to end the search until a taken chunk resets it. -/
theorem findRun_free {allocated : Nat → Bool} {required left chunk consecutive found last : Nat}
    (isFound : findRun allocated required left chunk consecutive = (found, some last))
    (counted : required ≤ consecutive ∨
      consecutive ≤ chunk ∧ ∀ other, chunk ≤ other + consecutive → other < chunk →
        allocated other = false) :
    found = required ∧ required ≤ last + 1 ∧ last < chunk + left ∧
      ∀ other, last + 1 ≤ other + required → other ≤ last → allocated other = false := by
  induction left generalizing chunk consecutive with
  | zero => simp [findRun] at isFound
  | succ left ih =>
    rw [findRun] at isFound
    split at isFound
    case isFalse =>
      obtain ⟨isRequired, long, inBounds, free⟩ := ih isFound
        (Or.inr ⟨Nat.zero_le _, fun other above below => by omega⟩)
      exact ⟨isRequired, long, by omega, free⟩
    case isTrue isFree =>
      split at isFound
      case isTrue complete =>
        obtain ⟨rfl, isLast⟩ := Prod.mk.inj isFound
        obtain rfl := Option.some.inj isLast
        rcases counted with tooHigh | ⟨fits, free⟩
        · omega
        · refine ⟨complete, by omega, by omega, ?_⟩
          intro other above below
          rcases Nat.lt_or_ge other chunk with earlier | same
          · exact free other (by omega) earlier
          · rw [Nat.le_antisymm below same]
            exact isFree
      case isFalse =>
        have counted' : required ≤ consecutive + 1 ∨
            consecutive + 1 ≤ chunk + 1 ∧ ∀ other, chunk + 1 ≤ other + (consecutive + 1) →
              other < chunk + 1 → allocated other = false := by
          rcases counted with tooHigh | ⟨fits, free⟩
          · exact Or.inl (by omega)
          · refine Or.inr ⟨by omega, ?_⟩
            intro other above below
            rcases Nat.lt_or_ge other chunk with earlier | same
            · exact free other (by omega) earlier
            · rw [show other = chunk by omega]
              exact isFree
        obtain ⟨isRequired, long, inBounds, free⟩ := ih isFound counted'
        exact ⟨isRequired, long, by omega, free⟩

/-- A manager after chunks were taken for a volume. -/
structure Claimed (id : Nat) (before : VolumeManager) (taken : List Nat)
    (after : VolumeManager) : Prop where
  volumes : after.volumes = before.volumes
  made : after.made = before.made
  distinct : taken.Nodup
  free : ∀ chunk ∈ taken, before.allocatedExtentBlocks chunk = false
  allocated : ∀ chunk, after.allocatedExtentBlocks chunk = true ↔
    before.allocatedExtentBlocks chunk = true ∨ chunk ∈ taken
  volumeMap : ∀ chunk, after.volumeMap chunk =
    if chunk ∈ taken ∧ before.volumeMap chunk = none then some (some id)
    else before.volumeMap chunk

namespace Claimed

variable {id : Nat} {before after : VolumeManager} {taken : List Nat}

theorem refl (id : Nat) (manager : VolumeManager) : Claimed id manager [] manager where
  volumes := rfl
  made := rfl
  distinct := nodup_nil
  free := by simp
  allocated := by simp
  volumeMap := by simp

variable (claimed : Claimed id before taken after)

include claimed

theorem perm {other : List Nat} (same : other.Perm taken) : Claimed id before other after where
  volumes := claimed.volumes
  made := claimed.made
  distinct := same.nodup_iff.mpr claimed.distinct
  free := fun chunk mem => claimed.free chunk (same.mem_iff.mp mem)
  allocated := fun chunk => by rw [claimed.allocated, same.mem_iff]
  volumeMap := fun chunk => by simp only [claimed.volumeMap, same.mem_iff]

theorem claimChunk {chunk : Nat} (isFree : after.allocatedExtentBlocks chunk = false) :
    Claimed id before (taken ++ [chunk]) (after.claimChunk id chunk) := by
  have notBefore : before.allocatedExtentBlocks chunk = false ∧ chunk ∉ taken := by
    have notAllocated := mt (claimed.allocated chunk).mpr (by simp [isFree])
    rw [not_or] at notAllocated
    exact ⟨by simpa using notAllocated.1, notAllocated.2⟩
  refine
    { volumes := claimed.volumes
      made := claimed.made
      distinct := nodup_append.mpr ⟨claimed.distinct, nodup_singleton _, ?_⟩
      free := ?_
      allocated := ?_
      volumeMap := ?_ }
  · intro other mem last isLast
    rw [mem_singleton.mp isLast]
    rintro rfl
    exact notBefore.2 mem
  · exact forall_mem_append.mpr ⟨claimed.free, forall_mem_singleton.mpr notBefore.1⟩
  · intro other
    rw [mem_append, mem_singleton]
    by_cases same : other = chunk
    · simp [VolumeManager.claimChunk, same]
    · simp [VolumeManager.claimChunk, same, claimed.allocated]
  · intro other
    have here := claimed.volumeMap chunk
    rw [if_neg (fun both => notBefore.2 both.1)] at here
    simp only [VolumeManager.claimChunk, here, mem_append, mem_singleton]
    by_cases same : other = chunk
    · subst same
      by_cases missing : before.volumeMap other = none
      · simp [missing]
      · simp [missing, here]
    · by_cases missing : before.volumeMap chunk = none
      · simp [missing, same, claimed.volumeMap]
      · simp [missing, same, claimed.volumeMap]

/-- A run of free chunks is taken. -/
theorem claimChunks (first count : Nat)
    (free : ∀ chunk, first ≤ chunk → chunk < first + count →
      after.allocatedExtentBlocks chunk = false) :
    Claimed id before (taken ++ List.range' first count) (after.claimChunks id first count) := by
  induction count generalizing first taken after with
  | zero => simpa [VolumeManager.claimChunks] using claimed
  | succ count ih =>
    have here := claimed.claimChunk (free first (Nat.le_refl _) (by omega))
    have stillFree : ∀ chunk, first + 1 ≤ chunk → chunk < first + 1 + count →
        (after.claimChunk id first).allocatedExtentBlocks chunk = false := by
      intro chunk above below
      have differs : chunk ≠ first := by omega
      simp only [VolumeManager.claimChunk, Function.update_of_ne differs]
      exact free chunk (by omega) (by omega)
    have rest := ih here (first + 1) stillFree
    rw [append_assoc, singleton_append] at rest
    exact rest

end Claimed

/-- A manager after it gave up chunks. -/
theorem foldl_unclaimChunk (taken : List Nat) (manager : VolumeManager) :
    let after := taken.foldl unclaimChunk manager
    after.volumes = manager.volumes ∧ after.made = manager.made ∧
      (∀ chunk, after.allocatedExtentBlocks chunk = true ↔
        manager.allocatedExtentBlocks chunk = true ∧ chunk ∉ taken) ∧
      ∀ chunk, after.volumeMap chunk =
        if chunk ∈ taken then none else manager.volumeMap chunk := by
  induction taken generalizing manager with
  | nil => simp
  | cons first taken ih =>
    obtain ⟨volumes, made, allocated, volumeMap⟩ := ih (manager.unclaimChunk first)
    refine ⟨volumes, made, ?_, ?_⟩
    · intro chunk
      rw [foldl_cons, allocated, mem_cons, not_or]
      by_cases same : chunk = first
      · simp [unclaimChunk, same]
      · simp [unclaimChunk, same]
    · intro chunk
      rw [foldl_cons, volumeMap]
      by_cases same : chunk = first
      · simp [unclaimChunk, same]
      · simp [unclaimChunk, same]

/-- The chunks of extents with these first chunks. -/
def chunksFrom (required : Nat) (firsts : List Nat) : List Nat :=
  firsts.flatMap fun first => List.range' first required

/-- A manager as it was, except that a null pointer may be gone. -/
structure Unclaimed (before after : VolumeManager) : Prop where
  volumes : after.volumes = before.volumes
  made : after.made = before.made
  allocated : ∀ chunk, after.allocatedExtentBlocks chunk = before.allocatedExtentBlocks chunk
  volumeMap : ∀ chunk, after.volumeMap chunk = before.volumeMap chunk ∨
    before.allocatedExtentBlocks chunk = false ∧ after.volumeMap chunk = none

/-- What `AllocateLogicalExtents` may do: take free chunks for as many extents as it was
asked for, or take none. -/
inductive ExtentsAllocated (id required wanted : Nat) (before : VolumeManager) :
    VolumeManager × Option (List Nat) → Prop
  | placed
      {after : VolumeManager}
      {firsts : List Nat}
      (count : firsts.length = wanted)
      (claimed : Claimed id before (chunksFrom required firsts) after) :
      ExtentsAllocated id required wanted before (after, some firsts)
  | refused
      {after : VolumeManager}
      (unclaimed : Unclaimed before after) :
      ExtentsAllocated id required wanted before (after, none)

variable {id : Nat} {before manager : VolumeManager}

/-- A claim can be taken back whole. -/
theorem Claimed.unclaim
    {after : VolumeManager} {taken : List Nat} (claimed : Claimed id before taken after) :
    Unclaimed before (taken.foldl unclaimChunk after) := by
  obtain ⟨volumes, made, allocated, volumeMap⟩ := foldl_unclaimChunk taken after
  refine
    { volumes := volumes.trans claimed.volumes
      made := made.trans claimed.made
      allocated := ?_
      volumeMap := ?_ }
  · intro chunk
    refine Bool.eq_iff_iff.mpr ((allocated chunk).trans ?_)
    rw [claimed.allocated]
    constructor
    · rintro ⟨isBefore | isTaken, notTaken⟩
      · exact isBefore
      · exact absurd isTaken notTaken
    · intro isBefore
      refine ⟨Or.inl isBefore, ?_⟩
      intro isTaken
      rw [claimed.free chunk isTaken] at isBefore
      contradiction
  · intro chunk
    rw [volumeMap]
    by_cases isTaken : chunk ∈ taken
    · exact Or.inr ⟨claimed.free chunk isTaken, if_pos isTaken⟩
    · left
      rw [if_neg isTaken, claimed.volumeMap, if_neg (fun both => isTaken both.1)]

theorem extentsAllocated {required left consecutive : Nat} {firsts : List Nat}
    (claimed : Claimed id before (chunksFrom required firsts) manager)
    (counted : consecutive = 0 ∨ consecutive = required) :
    ExtentsAllocated id required (firsts.length + left) before
      (allocateLogicalExtents id required left consecutive firsts manager) := by
  induction left generalizing consecutive firsts manager with
  | zero => exact .placed rfl claimed
  | succ left ih =>
    rw [allocateLogicalExtents]
    cases isFound : findRun manager.allocatedExtentBlocks required numChunks 0 consecutive with
    | mk found last? =>
      cases last? with
      | none => exact .refused claimed.unclaim
      | some last =>
        have startsCounted : required ≤ consecutive ∨ consecutive ≤ 0 ∧
            ∀ other, 0 ≤ other + consecutive → other < 0 →
              manager.allocatedExtentBlocks other = false := by
          rcases counted with rfl | rfl
          · exact Or.inr ⟨Nat.le_refl _, fun other _ below => absurd below (by omega)⟩
          · exact Or.inl (Nat.le_refl _)
        obtain ⟨rfl, long, _, free⟩ := findRun_free isFound startsCounted
        have next := claimed.claimChunks (last + 1 - found) found
          (fun chunk above below => free chunk (by omega) (by omega))
        have inserted : (chunksFrom found (firsts.orderedInsert (· ≤ ·) (last + 1 - found))).Perm
              (chunksFrom found firsts ++ List.range' (last + 1 - found) found) := by
          refine ((perm_orderedInsert _ _ firsts).flatMap_right _).trans ?_
          rw [flatMap_cons]
          exact perm_append_comm
        have rest := ih (next.perm inserted) (Or.inr rfl)
        rw [orderedInsert_length, Nat.add_right_comm, Nat.add_assoc] at rest
        exact rest

/-- What the loop of `AddExistingVolume` does: it takes chunks that were free and apart,
all of them unless it throws. -/
theorem claimExisting_claimed
    {taken : List Nat} (claimed : Claimed id before taken manager) (chunks : List Nat) :
    ∃ more, Claimed id before (taken ++ more) (claimExisting id chunks manager).1 ∧
        ((claimExisting id chunks manager).2 = true → more = chunks) := by
  induction chunks generalizing manager taken with
  | nil => exact ⟨[], by simpa [claimExisting] using claimed, fun _ => rfl⟩
  | cons chunk chunks ih =>
    rw [claimExisting]
    split
    case isTrue => exact ⟨[], by simpa using claimed, fun isTrue => by simp at isTrue⟩
    case isFalse notAllocated =>
      have isFree : manager.allocatedExtentBlocks chunk = false := by simpa using notAllocated
      obtain ⟨more, isClaimed, all⟩ := ih (claimed.claimChunk isFree)
      refine ⟨chunk :: more, ?_, ?_⟩
      · rwa [append_assoc, singleton_append] at isClaimed
      · intro returned
        rw [all returned]

/-- Free chunks that are apart are all taken. -/
theorem claimExisting_returns {chunks : List Nat} (distinct : chunks.Nodup)
    (free : ∀ chunk ∈ chunks, manager.allocatedExtentBlocks chunk = false) :
    (claimExisting id chunks manager).2 = true := by
  induction chunks generalizing manager with
  | nil => rfl
  | cons chunk chunks ih =>
    obtain ⟨notLater, restDistinct⟩ := nodup_cons.mp distinct
    rw [claimExisting, free chunk mem_cons_self, if_neg Bool.false_ne_true]
    refine ih restDistinct ?_
    intro other mem
    have differs : other ≠ chunk := fun same => notLater (same ▸ mem)
    simp only [VolumeManager.claimChunk, Function.update_of_ne differs]
    exact free other (mem_cons_of_mem _ mem)

/-! ## Volumes apart -/

/-- A place that a volume may have. -/
structure VolumePlace.Sound (place : VolumePlace) : Prop where
  sensible : place.shape.Sensible
  extents : place.extentStarts.length = place.shape.numLogicalExtent
  aligned : ∀ start ∈ place.extentStarts, start % chunkBlocks = 0
  distinct : place.chunks.Nodup

/-- The chunks of the volumes are taken, and apart. -/
structure VolumesApart (manager : VolumeManager) : Prop where
  sound : ∀ place ∈ manager.places, place.Sound
  allocated : ∀ place ∈ manager.places, ∀ chunk ∈ place.chunks,
    manager.allocatedExtentBlocks chunk = true
  separate : manager.places.Pairwise fun first second =>
    first.id ≠ second.id ∧ ∀ chunk ∈ first.chunks, chunk ∉ second.chunks
  numbered : ∀ place ∈ manager.places, place.id < manager.made

/-- The map of chunks has the chunks of the volumes, and others that are taken too. -/
structure ChunksMapped (manager : VolumeManager) : Prop where
  mapped : ∀ place ∈ manager.places, ∀ chunk ∈ place.chunks,
    manager.volumeMap chunk = some (some place.id)
  owned : ∀ chunk id, manager.volumeMap chunk = some (some id) → id < manager.made ∧
    ∀ place ∈ manager.places, place.id = id → chunk ∈ place.chunks
  free : ∀ chunk, manager.allocatedExtentBlocks chunk = false → manager.volumeMap chunk = none

/-- Volumes that differ only in their states are at the same places. -/
structure SamePlaces (before after : VolumeManager) : Prop where
  places : after.places = before.places
  made : after.made = before.made
  allocated : after.allocatedExtentBlocks = before.allocatedExtentBlocks

section Invariants

variable {before after : VolumeManager}

theorem VolumesApart.mono (apart : VolumesApart before) (places : after.places = before.places)
    (made : before.made ≤ after.made)
    (allocated : ∀ chunk, before.allocatedExtentBlocks chunk = true →
      after.allocatedExtentBlocks chunk = true) :
    VolumesApart after where
  sound := by rw [places]; exact apart.sound
  allocated := by
    rw [places]
    intro place isPlace chunk mem
    exact allocated chunk (apart.allocated place isPlace chunk mem)
  separate := by rw [places]; exact apart.separate
  numbered := by
    rw [places]
    intro place isPlace
    exact Nat.lt_of_lt_of_le (apart.numbered place isPlace) made

theorem VolumesApart.of_same (apart : VolumesApart before) (same : SamePlaces before after) :
    VolumesApart after :=
  apart.mono same.places (Nat.le_of_eq same.made.symm) (by rw [same.allocated]; simp)

theorem ChunksMapped.of_same (mapped : ChunksMapped before) (same : SamePlaces before after)
    (sameMap : after.volumeMap = before.volumeMap) :
    ChunksMapped after where
  mapped := by rw [same.places, sameMap]; exact mapped.mapped
  owned := by rw [same.places, same.made, sameMap]; exact mapped.owned
  free := by rw [same.allocated, sameMap]; exact mapped.free

variable {id : Nat} {taken : List Nat}

theorem Claimed.places (claimed : Claimed id before taken after) :
    after.places = before.places := by
  rw [VolumeManager.places, claimed.volumes]
  rfl

/-- Taking chunks keeps the volumes apart. -/
theorem VolumesApart.claimed
    (apart : VolumesApart before) (claimed : Claimed id before taken after) :
    VolumesApart after :=
  apart.mono claimed.places (Nat.le_of_eq claimed.made.symm)
    (fun chunk isBefore => (claimed.allocated chunk).mpr (Or.inl isBefore))

theorem places_append (manager : VolumeManager) (volume : ManagedVolume) :
    VolumeManager.places { manager with volumes := manager.volumes ++ [volume] } =
      manager.places ++ [volume.place] := by
  simp [VolumeManager.places]

/-- So does adding a volume at the chunks that were taken. -/
theorem VolumesApart.add {volume : ManagedVolume} (apart : VolumesApart before)
    (claimed : Claimed volume.id before taken after)
    (isTaken : ∀ chunk, chunk ∈ volume.place.chunks ↔ chunk ∈ taken) (sound : volume.place.Sound)
    (fresh : ∀ place ∈ before.places, place.id < volume.id) (numbered : volume.id < before.made) :
    VolumesApart { after with volumes := after.volumes ++ [volume] } := by
  have kept := apart.claimed claimed
  refine ⟨?_, ?_, ?_, ?_⟩ <;> rw [places_append]
  · exact forall_mem_append.mpr ⟨kept.sound, forall_mem_singleton.mpr sound⟩
  · refine forall_mem_append.mpr ⟨kept.allocated, forall_mem_singleton.mpr ?_⟩
    intro chunk inPlace
    exact (claimed.allocated chunk).mpr (Or.inr ((isTaken chunk).mp inPlace))
  · rw [claimed.places]
    refine pairwise_append.mpr ⟨apart.separate, pairwise_singleton .., ?_⟩
    intro place isPlace new isNew
    rw [mem_singleton.mp isNew]
    refine ⟨Nat.ne_of_lt (fresh place isPlace), ?_⟩
    intro chunk inPlace inNew
    have isFree := claimed.free chunk ((isTaken chunk).mp inNew)
    rw [apart.allocated place isPlace chunk inPlace] at isFree
    contradiction
  · exact forall_mem_append.mpr ⟨kept.numbered, forall_mem_singleton.mpr (claimed.made ▸ numbered)⟩

/-- Where taken chunks were not in the map, they are now. -/
theorem ChunksMapped.volumeMap_claimed
    (mapped : ChunksMapped before) (claimed : Claimed id before taken after) (chunk : Nat) :
    after.volumeMap chunk =
      if chunk ∈ taken then some (some id) else before.volumeMap chunk := by
  rw [claimed.volumeMap]
  by_cases isTaken : chunk ∈ taken
  · rw [if_pos isTaken, if_pos ⟨isTaken, mapped.free chunk (claimed.free chunk isTaken)⟩]
  · rw [if_neg isTaken, if_neg (fun both => isTaken both.1)]

theorem ChunksMapped.claimed (mapped : ChunksMapped before) (apart : VolumesApart before)
    (claimed : Claimed id before taken after) (fresh : ∀ place ∈ before.places, place.id < id)
    (numbered : id < before.made) :
    ChunksMapped after where
  mapped := by
    rw [claimed.places]
    intro place isPlace chunk mem
    rw [mapped.volumeMap_claimed claimed, if_neg]
    · exact mapped.mapped place isPlace chunk mem
    · intro isTaken
      have isFree := claimed.free chunk isTaken
      rw [apart.allocated place isPlace chunk mem] at isFree
      contradiction
  owned := by
    rw [claimed.places]
    intro chunk other found
    rw [mapped.volumeMap_claimed claimed] at found
    split at found
    case isTrue =>
      obtain rfl := Option.some.inj (Option.some.inj found)
      refine ⟨claimed.made ▸ numbered, ?_⟩
      intro place isPlace same
      exact absurd same (Nat.ne_of_lt (fresh place isPlace))
    case isFalse =>
      rw [claimed.made]
      exact mapped.owned chunk other found
  free := by
    intro chunk isFree
    have notAllocated := mt (claimed.allocated chunk).mpr (by simp [isFree])
    rw [not_or] at notAllocated
    rw [mapped.volumeMap_claimed claimed, if_neg notAllocated.2]
    exact mapped.free chunk (by simpa using notAllocated.1)

theorem ChunksMapped.add
    {volume : ManagedVolume} (mapped : ChunksMapped before) (apart : VolumesApart before)
    (claimed : Claimed volume.id before taken after)
    (isTaken : ∀ chunk, chunk ∈ volume.place.chunks ↔ chunk ∈ taken)
    (fresh : ∀ place ∈ before.places, place.id < volume.id)
    (unknown : ∀ chunk, before.volumeMap chunk ≠ some (some volume.id))
    (numbered : volume.id < before.made) :
    ChunksMapped { after with volumes := after.volumes ++ [volume] } := by
  have kept := mapped.claimed apart claimed fresh numbered
  refine ⟨?_, ?_, kept.free⟩
  · rw [places_append]
    refine forall_mem_append.mpr ⟨kept.mapped, forall_mem_singleton.mpr ?_⟩
    intro chunk inPlace
    have found := mapped.volumeMap_claimed claimed chunk
    rw [if_pos ((isTaken chunk).mp inPlace)] at found
    exact found
  · intro chunk id found
    obtain ⟨isMade, isOwned⟩ := kept.owned chunk id found
    refine ⟨isMade, ?_⟩
    rw [places_append]
    refine forall_mem_append.mpr ⟨isOwned, forall_mem_singleton.mpr ?_⟩
    rintro rfl
    refine (isTaken chunk).mpr ?_
    have isFound : after.volumeMap chunk = some (some volume.id) := found
    rw [mapped.volumeMap_claimed claimed] at isFound
    by_contra notTaken
    rw [if_neg notTaken] at isFound
    exact unknown chunk isFound

end Invariants

/-! ## Adding volumes -/

theorem extentChunks_firsts (shape : VolumeShape) (firsts : List Nat) :
    extentChunks shape (firsts.map (· * chunkBlocks)) =
      chunksFrom shape.chunksPerExtent firsts := by
  have positive : 0 < chunkBlocks := by decide
  simp only [extentChunks, chunksFrom, flatMap_map, Nat.mul_div_cancel _ positive]

section Adding

variable {manager : VolumeManager}

/-- The next number is no volume's. -/
theorem VolumesApart.count (apart : VolumesApart manager) :
    VolumesApart { manager with made := manager.made + 1 } :=
  apart.mono rfl (Nat.le_succ _) (fun _ isBefore => isBefore)

theorem ChunksMapped.count (mapped : ChunksMapped manager) :
    ChunksMapped { manager with made := manager.made + 1 } :=
  { mapped := mapped.mapped
    owned := fun chunk id found =>
      ⟨Nat.lt_succ_of_lt (mapped.owned chunk id found).1, (mapped.owned chunk id found).2⟩
    free := mapped.free }

theorem ChunksMapped.unknown (mapped : ChunksMapped manager) (chunk : Nat) :
    manager.volumeMap chunk ≠ some (some manager.made) := by
  intro found
  exact Nat.lt_irrefl _ (mapped.owned chunk _ found).1

/-- What adding a volume does: it adds a volume in free chunks, takes some chunks for
nothing, or takes none. -/
inductive VolumeAdded (shape : VolumeShape) (before : VolumeManager) : VolumeManager → Prop
  | added
      {after : VolumeManager}
      {extentStarts taken : List Nat}
      (claimed : Claimed before.made { before with made := before.made + 1 } taken after)
      (isTaken : ∀ chunk, chunk ∈ VolumeManager.extentChunks shape extentStarts ↔ chunk ∈ taken)
      (sound : VolumePlace.Sound ⟨before.made, shape, extentStarts⟩) :
      VolumeAdded shape before
        { after with
          volumes := after.volumes ++ [⟨before.made, shape, extentStarts, .new⟩] }
  | notAdded
      {after : VolumeManager}
      {taken : List Nat}
      (claimed : Claimed before.made { before with made := before.made + 1 } taken after) :
      VolumeAdded shape before after
  | refused
      {after : VolumeManager}
      (unclaimed : Unclaimed { before with made := before.made + 1 } after) :
      VolumeAdded shape before after

theorem volumeAdded_addNewVolume {shape : VolumeShape} (sensible : shape.Sensible)
    (enoughDevices : Bool) :
    VolumeAdded shape manager (manager.addNewVolume shape enoughDevices) := by
  have outcome : ExtentsAllocated manager.made shape.chunksPerExtent
      (([] : List Nat).length + shape.numLogicalExtent)
      { manager with made := manager.made + 1 }
      (allocateLogicalExtents manager.made shape.chunksPerExtent
        shape.numLogicalExtent 0 [] { manager with made := manager.made + 1 }) :=
    extentsAllocated (Claimed.refl ..) (Or.inl rfl)
  rw [addNewVolume]
  generalize allocateLogicalExtents manager.made shape.chunksPerExtent
    shape.numLogicalExtent 0 [] { manager with made := manager.made + 1 } = result at outcome
  cases outcome with
  | refused unclaimed => exact .refused unclaimed
  | @placed after firsts count claimed =>
    dsimp only
    split
    case isFalse => exact .notAdded claimed
    case isTrue =>
      refine .added claimed (fun chunk => by rw [extentChunks_firsts]) ?_
      refine
        { sensible := sensible
          extents := by simpa using count
          aligned := ?_
          distinct := ?_ }
      · intro start mem
        obtain ⟨first, _, rfl⟩ := mem_map.mp mem
        exact Nat.mul_mod_left ..
      · show (extentChunks _ _).Nodup
        rw [extentChunks_firsts]
        exact claimed.distinct

section Existing

variable {shape : VolumeShape} {extentStarts : List Nat}

theorem volumeAdded_addExistingVolume (sensible : shape.Sensible)
    (extents : extentStarts.length = shape.numLogicalExtent)
    (aligned : ∀ start ∈ extentStarts, start % chunkBlocks = 0) :
    VolumeAdded shape manager (manager.addExistingVolume shape extentStarts).1 := by
  obtain ⟨more, claimed, all⟩ := claimExisting_claimed
    (Claimed.refl manager.made { manager with made := manager.made + 1 })
    (extentChunks shape extentStarts)
  rw [nil_append] at claimed
  simp only [addExistingVolume]
  split
  case isFalse => exact .notAdded (Claimed.refl ..)
  case isTrue =>
    generalize claimExisting manager.made (extentChunks shape extentStarts)
      { manager with made := manager.made + 1 } = result at claimed all
    obtain ⟨after, returned⟩ := result
    cases returned with
    | false => exact .notAdded claimed
    | true =>
      obtain rfl := all rfl
      exact .added claimed (fun _ => Iff.rfl)
        { sensible := sensible
          extents := extents
          aligned := aligned
          distinct := claimed.distinct }

/-- A volume that is added again joins the others. -/
theorem volumes_of_addExistingVolume {next : VolumeManager}
    (isAdded : manager.addExistingVolume shape extentStarts = (next, true)) :
    next.volumes = manager.volumes ++ [⟨manager.made, shape, extentStarts, .new⟩] := by
  obtain ⟨more, claimed, -⟩ := claimExisting_claimed
    (Claimed.refl manager.made { manager with made := manager.made + 1 })
    (extentChunks shape extentStarts)
  simp only [addExistingVolume] at isAdded
  split at isAdded
  case isFalse => simp at isAdded
  case isTrue =>
    generalize claimExisting manager.made (extentChunks shape extentStarts)
      { manager with made := manager.made + 1 } = result at isAdded claimed
    obtain ⟨after, returned⟩ := result
    cases returned with
    | false => simp at isAdded
    | true =>
      cases isAdded
      exact congrArg (· ++ _) claimed.volumes

/-- A volume with one drive for each extent is added in free chunks. -/
theorem addExistingVolume_of_free
    (devices : extentStarts.length = shape.numDevices ∧ 0 < shape.numDevices)
    (distinct : (extentChunks shape extentStarts).Nodup)
    (free : ∀ chunk ∈ extentChunks shape extentStarts,
      manager.allocatedExtentBlocks chunk = false) :
    ∃ next, manager.addExistingVolume shape extentStarts = (next, true) ∧
      ∀ chunk, next.allocatedExtentBlocks chunk = true ↔
        manager.allocatedExtentBlocks chunk = true ∨ chunk ∈ extentChunks shape extentStarts := by
  have returns : (claimExisting manager.made (extentChunks shape extentStarts)
      { manager with made := manager.made + 1 }).2 = true :=
    claimExisting_returns distinct free
  obtain ⟨more, claimed, all⟩ := claimExisting_claimed
    (Claimed.refl manager.made { manager with made := manager.made + 1 })
    (extentChunks shape extentStarts)
  rw [nil_append, all returns] at claimed
  simp only [addExistingVolume, if_pos devices]
  generalize claimExisting manager.made (extentChunks shape extentStarts)
    { manager with made := manager.made + 1 } = result at claimed returns
  obtain ⟨after, returned⟩ := result
  obtain rfl : returned = true := returns
  exact ⟨_, rfl, claimed.allocated⟩

end Existing

variable {shape : VolumeShape} {after : VolumeManager}

/-- A volume added is apart from the others. -/
theorem VolumeAdded.apart (added : VolumeAdded shape manager after) (apart : VolumesApart manager) :
    VolumesApart after := by
  cases added with
  | added claimed isTaken sound =>
    exact apart.count.add claimed isTaken sound apart.numbered (Nat.lt_succ_self _)
  | notAdded claimed => exact apart.count.claimed claimed
  | refused unclaimed =>
    refine apart.count.of_same ⟨?_, unclaimed.made, funext unclaimed.allocated⟩
    rw [VolumeManager.places, unclaimed.volumes]
    rfl

/-- The chunks of a volume added are mapped to it. -/
theorem VolumeAdded.mapped (added : VolumeAdded shape manager after) (apart : VolumesApart manager)
    (mapped : ChunksMapped manager) :
    ChunksMapped after := by
  cases added with
  | added claimed isTaken sound =>
    exact mapped.count.add apart.count claimed isTaken apart.numbered mapped.unknown
      (Nat.lt_succ_self _)
  | notAdded claimed =>
    exact mapped.count.claimed apart.count claimed apart.numbered (Nat.lt_succ_self _)
  | refused unclaimed =>
    have places : after.places = manager.places := by
      rw [VolumeManager.places, unclaimed.volumes]
      rfl
    have sameMap : after.volumeMap = manager.volumeMap := by
      funext chunk
      rcases unclaimed.volumeMap chunk with same | ⟨isFree, gone⟩
      · exact same
      · rw [gone, mapped.free chunk isFree]
    exact mapped.count.of_same ⟨places, unclaimed.made, funext unclaimed.allocated⟩ sameMap

/-- The volumes that were there stay, and a new one has new maps. -/
theorem VolumeAdded.volumes (added : VolumeAdded shape manager after) :
    after.volumes = manager.volumes ∨ ∃ extentStarts,
      after.volumes = manager.volumes ++ [⟨manager.made, shape, extentStarts, .new⟩] := by
  cases added with
  | @added _ extentStarts _ claimed isTaken sound =>
    exact Or.inr ⟨extentStarts, by rw [claimed.volumes]⟩
  | notAdded claimed => exact Or.inl claimed.volumes
  | refused unclaimed => exact Or.inl unclaimed.volumes

end Adding

/-! ## Calls that keep the places -/

variable (manager : VolumeManager)

theorem samePlaces_setState (id : Nat) (state : VolumeState) :
    SamePlaces manager (manager.setState id state) where
  places := by
    simp only [VolumeManager.places, setState, map_map]
    refine map_congr_left ?_
    intro volume _
    rw [Function.comp_apply]
    split <;> rfl
  made := rfl
  allocated := rfl

theorem places_allocateFrom (looksAt : StorageSpeed → Bool) (numBlocks : Nat)
    (volumes : List ManagedVolume) :
    (allocateFrom looksAt numBlocks volumes).1.map ManagedVolume.place =
      volumes.map ManagedVolume.place := by
  induction volumes with
  | nil => rfl
  | cons volume volumes ih =>
    rw [allocateFrom]
    split
    · dsimp only
      split
      · rw [map_cons, ih]
        rfl
      · rfl
    · rw [map_cons, map_cons, ih]

theorem samePlaces_tryAllocate (speed : StorageSpeed) (numBlocks dataFloor : Nat) :
    SamePlaces manager (manager.tryAllocateSequentialBlocks speed numBlocks dataFloor).1 := by
  rw [tryAllocateSequentialBlocks]
  split
  · exact ⟨rfl, rfl, rfl⟩
  · dsimp only
    split
    · refine ⟨?_, rfl, rfl⟩
      exact (places_allocateFrom ..).trans (places_allocateFrom ..)
    · exact ⟨places_allocateFrom .., rfl, rfl⟩

theorem samePlaces_lookupChunk (chunk : Nat) : SamePlaces manager (manager.lookupChunk chunk).1 ∧
      (manager.lookupChunk chunk).1.volumes = manager.volumes := by
  rw [lookupChunk]
  split <;> exact ⟨⟨rfl, rfl, rfl⟩, rfl⟩

theorem SamePlaces.trans {first second third : VolumeManager} (here : SamePlaces first second)
    (there : SamePlaces second third) :
    SamePlaces first third where
  places := there.places.trans here.places
  made := there.made.trans here.made
  allocated := there.allocated.trans here.allocated

/-- Looking for a volume moves none. -/
theorem samePlaces_findVolume (start count : Nat) :
    SamePlaces manager (manager.findVolume start count).1 ∧
      (manager.findVolume start count).1.volumes = manager.volumes := by
  obtain ⟨here, sameHere⟩ := samePlaces_lookupChunk manager (start / chunkBlocks)
  obtain ⟨there, sameThere⟩ :=
    samePlaces_lookupChunk (manager.lookupChunk (start / chunkBlocks)).1
      ((start + count) / chunkBlocks)
  exact ⟨here.trans there, sameThere.trans sameHere⟩

theorem mem_of_volume? {manager : VolumeManager} {id : Nat} {volume : ManagedVolume}
    (isVolume : manager.volume? id = some volume) :
    volume ∈ manager.volumes ∧ volume.id = id :=
  ⟨mem_of_find?_eq_some isVolume, by simpa using find?_some isVolume⟩

/-- What a call on a range does: it may put null pointers in the map, and change the
maps of a volume. -/
theorem freeSequentialBlocks_cases (start count : Nat) :
    (manager.freeSequentialBlocks start count).1 = (manager.findVolume start count).1 ∨
      ∃ volume ∈ manager.volumes, ∃ maps,
        volume.state.maps.freeSequentialBlocks volume.layout start count = some maps ∧
        (manager.freeSequentialBlocks start count).1 =
          (manager.findVolume start count).1.setState volume.id { volume.state with maps } := by
  have sameVolumes := (samePlaces_findVolume manager start count).2
  fun_cases freeSequentialBlocks manager start count
  case case4 looked id isFound volume isVolume maps freed =>
    rw [isFound] at sameVolumes ⊢
    obtain ⟨mem, rfl⟩ := mem_of_volume? isVolume
    exact Or.inr ⟨volume, sameVolumes ▸ mem, maps, freed, rfl⟩
  all_goals exact Or.inl (by simp [*])

theorem markBlockRangeUsed_cases (start count : Nat) :
    (manager.markBlockRangeUsed start count).1 = (manager.findVolume start count).1 ∨
      ∃ volume ∈ manager.volumes, ∃ blockId, (manager.markBlockRangeUsed start count).1 =
          (manager.findVolume start count).1.setState volume.id
            { volume.state with
              maps := BlockMaps.markBlocks volume.layout blockId count volume.state.maps } := by
  have sameVolumes := (samePlaces_findVolume manager start count).2
  fun_cases markBlockRangeUsed manager start count
  case case4 looked id isFound volume isVolume extentNum isExtent blockId =>
    rw [isFound] at sameVolumes ⊢
    obtain ⟨mem, rfl⟩ := mem_of_volume? isVolume
    exact Or.inr ⟨volume, sameVolumes ▸ mem, blockId, rfl⟩
  all_goals exact Or.inl (by simp [*])

end Orly
