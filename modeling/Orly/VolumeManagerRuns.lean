import Orly.VolumeManagerLaws

namespace Orly

/-!
# Runs of the volume manager

In every run the ranges that were handed out lie in one extent of one volume, before and
after restarts.  In runs whose calls are on ranges that end inside the chunks of their
volume, the map of chunks stays right.
-/

open FoldRules List VolumeManager BlockMaps

/-! ## Ranges of a volume -/

/-- A range of blocks that a volume can mark and free: it is in one extent, and in the
maps. -/
def VolumeLayout.Holds (layout : VolumeLayout) (start count : Nat) : Prop :=
  ∃ extentNum extentStart,
    layout.extentStarts[extentNum]? = some extentStart ∧ extentStart ≤ start ∧
      start + count ≤ extentStart + layout.spanBlocks ∧
      start - extentStart + extentNum * layout.numBlocksPerExtent + count ≤ layout.numBlocks

variable {layout : VolumeLayout} {start count : Nat} {state : VolumeState} {store : BlockStore}
  {manager : VolumeManager} {order : List ManagedVolume}

theorem VolumeLayout.Holds.part
    {first number : Nat} (holds : layout.Holds start count) (above : start ≤ first)
    (below : first + number ≤ start + count) :
    layout.Holds first number := by
  obtain ⟨extentNum, extentStart, atExtent, isAbove, isBelow, inMaps⟩ := holds
  exact ⟨extentNum, extentStart, atExtent, by omega, by omega, by omega⟩

theorem VolumeLayout.handOutFrom_zero (layout : VolumeLayout) (starts : List Nat) :
    layout.handOutFrom 0 starts = [] := by
  cases starts with
  | nil => rfl
  | cons start starts => rw [VolumeLayout.handOutFrom, if_pos rfl]

/-- The extent a run of blocks goes on in, and those behind it. -/
theorem extents_of_drop {starts rest : List Nat} {extentNum start : Nat}
    (fromHere : starts.drop extentNum = start :: rest) :
    starts[extentNum]? = some start ∧ starts.drop (extentNum + 1) = rest := by
  rw [← head?_drop, ← tail_drop, fromHere]
  exact ⟨rfl, rfl⟩

namespace PlacedExtents

variable {layout : VolumeLayout} (placed : PlacedExtents layout)

include placed

theorem holds_handOutFrom {extentNum leftToGive : Nat} {starts : List Nat}
    (rest : layout.extentStarts.drop extentNum = starts)
    (fits : extentNum * layout.numBlocksPerExtent + leftToGive ≤ layout.numBlocks) :
    ∀ range ∈ layout.handOutFrom leftToGive starts, layout.Holds range.1 range.2 := by
  induction starts generalizing extentNum leftToGive with
  | nil => simp [VolumeLayout.handOutFrom]
  | cons start starts ih =>
    obtain ⟨atExtent, later⟩ := extents_of_drop rest
    rw [VolumeLayout.handOutFrom]
    split
    case isTrue => simp
    case isFalse =>
      have enough := placed.enough
      intro range mem
      rcases mem_cons.mp mem with rfl | isLater
      · exact ⟨extentNum, start, atExtent, Nat.le_refl _, by omega, by omega⟩
      · by_cases nothing : leftToGive ≤ layout.spanBlocks
        · rw [Nat.min_eq_left nothing, Nat.sub_self, layout.handOutFrom_zero] at isLater
          contradiction
        · refine ih later ?_ range isLater
          rw [Nat.add_mul, Nat.one_mul]
          omega

/-- Every range of a run of blocks that is handed out can be marked and freed. -/
theorem holds_handOut {initBlock totalAlloced : Nat} (isBlock : initBlock < layout.numBlocks)
    (inside : initBlock + totalAlloced ≤ layout.numBlocks) :
    ∀ range ∈ layout.handOut initBlock totalAlloced, layout.Holds range.1 range.2 := by
  obtain ⟨_, _, _, below⟩ := placed.volumeBlock_eq isBlock
  have enough := placed.enough
  have parts := Nat.div_add_mod' initBlock layout.numBlocksPerExtent
  set extentNum := initBlock / layout.numBlocksPerExtent with isExtent
  set offset := initBlock % layout.numBlocksPerExtent with isOffset
  intro range mem
  rw [VolumeLayout.handOut, ← isExtent, ← isOffset] at mem
  split at mem
  case h_1 => simp at mem
  case h_2 start starts fromHere =>
    obtain ⟨atExtent, later⟩ := extents_of_drop fromHere
    rcases mem_cons.mp mem with rfl | isLater
    · refine ⟨extentNum, start, atExtent, Nat.le_add_left .., ?_, ?_⟩
      · dsimp only
        omega
      · dsimp only
        omega
    · by_cases nothing : totalAlloced ≤ layout.spanBlocks - offset
      · rw [Nat.min_eq_left nothing, Nat.sub_self, layout.handOutFrom_zero] at isLater
        contradiction
      · refine placed.holds_handOutFrom later ?_ range isLater
        rw [Nat.add_mul, Nat.one_mul]
        omega

end PlacedExtents

/-- A volume at a sound place has whole extents apart from each other. -/
theorem VolumePlace.Sound.placedExtents {place : VolumePlace} (sound : place.Sound) :
    PlacedExtents (place.shape.layout place.extentStarts) where
  enough := by
    show place.shape.numBlocks / place.shape.numLogicalExtent ≤ place.shape.capacityBlocks
    refine Nat.div_le_of_le_mul ?_
    exact Nat.mul_le_mul_right _ (Nat.div_le_self ..)
  blocks := by
    show place.shape.numBlocks =
      place.extentStarts.length * (place.shape.numBlocks / place.shape.numLogicalExtent)
    rw [sound.extents]
    exact (Nat.mul_div_cancel' (Nat.dvd_of_mod_eq_zero sound.sensible.2.2)).symm
  apart := by
    show place.extentStarts.Pairwise fun first second =>
      first + place.shape.capacityBlocks ≤ second ∨ second + place.shape.capacityBlocks ≤ first
    have covered := capacity_le_chunks place.shape
    have disjoint := (nodup_flatMap.mp sound.distinct).2
    refine disjoint.imp_of_mem ?_
    intro first second isFirst isSecond separate
    have firstWhole := Nat.div_mul_cancel (Nat.dvd_of_mod_eq_zero (sound.aligned first isFirst))
    have secondWhole := Nat.div_mul_cancel (Nat.dvd_of_mod_eq_zero (sound.aligned second isSecond))
    by_contra overlap
    rw [not_or, Nat.not_le, Nat.not_le] at overlap
    have firstBelow : first / chunkBlocks < second / chunkBlocks + place.shape.chunksPerExtent := by
      refine Nat.lt_of_mul_lt_mul_right (a := chunkBlocks) ?_
      rw [Nat.add_mul]
      omega
    have secondBelow :
        second / chunkBlocks < first / chunkBlocks + place.shape.chunksPerExtent := by
      refine Nat.lt_of_mul_lt_mul_right (a := chunkBlocks) ?_
      rw [Nat.add_mul]
      omega
    have inBoth : max (first / chunkBlocks) (second / chunkBlocks) ∈
        List.range' (first / chunkBlocks) place.shape.chunksPerExtent ∧
        max (first / chunkBlocks) (second / chunkBlocks) ∈
          List.range' (second / chunkBlocks) place.shape.chunksPerExtent := by
      rw [mem_range'_1, mem_range'_1]
      omega
    exact separate inBoth.1 inBoth.2

/-! ## The start of the search for blocks -/

/-- The search for blocks starts inside the map. -/
def VolumeState.StartsInside (layout : VolumeLayout) (state : VolumeState) : Prop :=
  state.maps.cachedStart ≤ layout.mapWords

theorem cachedStart_markBlocks
    {maps : BlockMaps} (startsInside : maps.cachedStart ≤ layout.mapWords) (blockId count : Nat) :
    (markBlocks layout blockId count maps).cachedStart ≤ layout.mapWords := by
  induction count generalizing blockId maps with
  | zero => exact startsInside
  | succ count ih =>
    rw [markBlocks]
    split
    case isTrue => exact startsInside
    case isFalse inMap =>
      refine ih ?_ _
      simp only [setBlockBuf, if_true, VolumeLayout.mapWords]
      split <;> omega

theorem cachedStart_releaseWaiting (layout : VolumeLayout) (maps : BlockMaps) :
    (maps.releaseWaiting layout).cachedStart = maps.cachedStart := by
  refine foldl_keeps (fun released : BlockMaps => released.cachedStart = maps.cachedStart)
    (List.range layout.mapWords) ?_ rfl
  intro word _ released same
  refine foldl_keeps (fun inner : BlockMaps => inner.cachedStart = maps.cachedStart)
    (List.range 64) ?_ same
  intro bit _ inner isSame
  split
  · exact isSame
  · exact isSame

theorem cachedStart_setDiscardRange (on : Bool) (maps : BlockMaps) (start count : Nat) :
    (maps.setDiscardRange on start count).cachedStart = maps.cachedStart := by
  rw [setDiscardRange_eq]
  rfl

theorem VolumeState.StartsInside.step
    {next : VolumeState} {event : VolumeEvent} (startsInside : state.StartsInside layout)
    (stepped : state.step layout event = some next) :
    next.StartsInside layout := by
  cases event with
  | allocate numBlocks =>
    cases stepped
    have took := Took.tryGetSeqBlocks startsInside numBlocks
    show (state.maps.tryAllocateSequentialBlocks layout numBlocks).2.cachedStart ≤ _
    simp only [BlockMaps.tryAllocateSequentialBlocks]
    split
    · split <;> exact took.cachedStart
    · exact took.cachedStart
  | free start count =>
    obtain ⟨maps, freed, rfl⟩ := Option.map_eq_some_iff.mp stepped
    obtain ⟨extentNum, _, rfl⟩ := Option.map_eq_some_iff.mp freed
    show (state.maps.setDiscardRange true _ _).cachedStart ≤ _
    rw [cachedStart_setDiscardRange]
    exact startsInside
  | markUsed start count =>
    obtain ⟨maps, marked, rfl⟩ := Option.map_eq_some_iff.mp stepped
    obtain ⟨extentNum, _, rfl⟩ := Option.map_eq_some_iff.mp marked
    exact cachedStart_markBlocks startsInside _ _
  | collectDiscards =>
    rw [VolumeState.step] at stepped
    obtain ⟨-, stepped⟩ := Option.ite_none_right_eq_some.mp stepped
    rcases VolumeState.collectDiscards_cases stepped with rfl | ⟨_, _, rfl⟩ | rfl
    · show (state.maps.releaseWaiting layout).cachedStart ≤ _
      rw [cachedStart_releaseWaiting]
      exact startsInside
    · exact startsInside
    · exact startsInside
  | releaseDiscard =>
    rw [VolumeState.step, VolumeState.releaseDiscard] at stepped
    split at stepped
    case h_1 => contradiction
    case h_2 range rest pending =>
      obtain ⟨maps, cleared, rfl⟩ := Option.map_eq_some_iff.mp stepped
      have inside : range.1 + range.2 ≤ layout.numBlocks := by
        by_contra past
        rw [clearBlockBufRange, if_pos (by omega)] at cleared
        contradiction
      rw [clearBlockBufRange_eq inside] at cleared
      cases cleared
      show (setDiscardRange false _ _ _).cachedStart ≤ _
      rw [cachedStart_setDiscardRange]
      exact startsInside

/-! ## What holds in every run -/

/-- A place holds a range of blocks. -/
def VolumePlace.Holds (place : VolumePlace) (start count : Nat) : Prop :=
  (place.shape.layout place.extentStarts).Holds start count

/-- What holds of a store whatever is called. -/
structure StoreSound (store : BlockStore) : Prop where
  apart : VolumesApart store.manager
  startsInside : ∀ volume ∈ store.manager.volumes, volume.state.StartsInside volume.layout
  held : ∀ range ∈ store.handedOut, ∃ place ∈ store.manager.places, place.Holds range.1 range.2

theorem allocateFrom_holds
    (looksAt : StorageSpeed → Bool) (numBlocks : Nat) (volumes : List ManagedVolume)
    (sound : ∀ volume ∈ volumes, volume.place.Sound)
    (startsInside : ∀ volume ∈ volumes, volume.state.StartsInside volume.layout) :
    (∀ volume ∈ (allocateFrom looksAt numBlocks volumes).1,
      volume.state.StartsInside volume.layout) ∧
    ∀ range ∈ (allocateFrom looksAt numBlocks volumes).2.ranges,
      ∃ volume ∈ volumes, volume.place.Holds range.1 range.2 := by
  induction volumes with
  | nil => simp [allocateFrom, Allocation.ranges]
  | cons volume volumes ih =>
    obtain ⟨volumeSound, restSound⟩ := forall_mem_cons.mp sound
    obtain ⟨here, restInside⟩ := forall_mem_cons.mp startsInside
    obtain ⟨inside, holds⟩ := ih restSound restInside
    have later : ∀ range ∈ (allocateFrom looksAt numBlocks volumes).2.ranges,
        ∃ other ∈ volume :: volumes, other.place.Holds range.1 range.2 := by
      intro range mem
      obtain ⟨other, isOther, isHeld⟩ := holds range mem
      exact ⟨other, mem_cons_of_mem _ isOther, isHeld⟩
    have next : VolumeState.StartsInside volume.layout
        { volume.state with
          maps := (volume.state.maps.tryAllocateSequentialBlocks volume.layout numBlocks).2 } :=
      here.step (show volume.state.step volume.layout (.allocate numBlocks) = some _ from rfl)
    rw [allocateFrom]
    split
    case isFalse => exact ⟨forall_mem_cons.mpr ⟨here, inside⟩, later⟩
    case isTrue =>
      dsimp only
      split
      case isTrue => exact ⟨forall_mem_cons.mpr ⟨next, inside⟩, later⟩
      case isFalse =>
        refine ⟨forall_mem_cons.mpr ⟨next, restInside⟩, ?_⟩
        · intro range mem
          refine ⟨volume, mem_cons_self, ?_⟩
          have took := Took.tryGetSeqBlocks here numBlocks
          have placed : PlacedExtents volume.layout := volumeSound.placedExtents
          simp only [BlockMaps.tryAllocateSequentialBlocks] at mem
          split at mem
          · split at mem <;> simp [Allocation.ranges] at mem
          case isFalse something =>
            have inMaps := took.inside something
            refine placed.holds_handOut ?_ inMaps range mem
            omega

/-- A range that is allocated lies in one volume. -/
theorem StoreSound.allocate
    (sound : StoreSound store) (speed : StorageSpeed) (numBlocks dataFloor : Nat) :
    (∀ volume ∈ (store.manager.tryAllocateSequentialBlocks speed numBlocks dataFloor).1.volumes,
      volume.state.StartsInside volume.layout) ∧
    ∀ range ∈ (store.manager.tryAllocateSequentialBlocks speed numBlocks dataFloor).2.ranges,
      ∃ place ∈ store.manager.places, place.Holds range.1 range.2 := by
  have soundPlaces : ∀ volumes : List ManagedVolume,
      volumes.map ManagedVolume.place = store.manager.places →
        ∀ volume ∈ volumes, volume.place.Sound := by
    intro volumes same volume mem
    exact sound.apart.sound _ (same ▸ mem_map_of_mem mem)
  have asPlace : ∀ (volumes : List ManagedVolume) (range : Nat × Nat),
      volumes.map ManagedVolume.place = store.manager.places →
        (∃ volume ∈ volumes, volume.place.Holds range.1 range.2) →
          ∃ place ∈ store.manager.places, place.Holds range.1 range.2 := by
    rintro volumes range same ⟨volume, mem, holds⟩
    exact ⟨volume.place, same ▸ mem_map_of_mem mem, holds⟩
  rw [VolumeManager.tryAllocateSequentialBlocks]
  split
  · exact ⟨sound.startsInside, by simp [Allocation.ranges]⟩
  · obtain ⟨firstInside, firstHolds⟩ := allocateFrom_holds (fun other => other = speed) numBlocks
      store.manager.volumes (soundPlaces _ rfl) sound.startsInside
    have firstPlaces := places_allocateFrom (fun other => decide (other = speed)) numBlocks
      store.manager.volumes
    dsimp only
    split
    · obtain ⟨secondInside, secondHolds⟩ := allocateFrom_holds (fun other => other ≠ speed)
        numBlocks _ (soundPlaces _ firstPlaces) firstInside
      exact ⟨secondInside, fun range mem =>
        asPlace _ range firstPlaces (secondHolds range mem)⟩
    · exact ⟨firstInside, fun range mem => asPlace _ range rfl (firstHolds range mem)⟩

/-- A manager with the same places, whose searches start inside, keeps the store sound. -/
theorem StoreSound.of_same (sound : StoreSound store) (same : SamePlaces store.manager manager)
    (startsInside : ∀ volume ∈ manager.volumes, volume.state.StartsInside volume.layout) :
    StoreSound { store with manager } where
  apart := sound.apart.of_same same
  startsInside := startsInside
  held := by
    intro range mem
    obtain ⟨place, isPlace, holds⟩ := sound.held range mem
    exact ⟨place, same.places ▸ isPlace, holds⟩

theorem startsInside_setState {id : Nat}
    (startsInside : ∀ volume ∈ manager.volumes, volume.state.StartsInside volume.layout)
    (isInside : ∀ volume ∈ manager.volumes, volume.id = id → state.StartsInside volume.layout) :
    ∀ volume ∈ (manager.setState id state).volumes, volume.state.StartsInside volume.layout := by
  intro volume mem
  obtain ⟨before, isBefore, rfl⟩ := mem_map.mp mem
  split
  case isTrue same => exact isInside before isBefore same
  case isFalse => exact startsInside before isBefore

/-- A volume is known by its number. -/
theorem VolumesApart.unique (apart : VolumesApart manager) {first second : ManagedVolume}
    (isFirst : first ∈ manager.volumes) (isSecond : second ∈ manager.volumes)
    (same : first.id = second.id) :
    first = second := by
  have distinct : (manager.volumes.map ManagedVolume.id).Nodup :=
    pairwise_map.mpr ((pairwise_map.mp apart.separate).imp fun both => both.1)
  exact inj_on_of_nodup_map distinct isFirst isSecond same

/-- A place is known by one of its chunks. -/
theorem VolumesApart.unique_chunk
    (apart : VolumesApart manager) {first second : VolumePlace} {chunk : Nat}
    (isFirst : first ∈ manager.places) (isSecond : second ∈ manager.places)
    (inFirst : chunk ∈ first.chunks) (inSecond : chunk ∈ second.chunks) :
    first = second := by
  have symmetric : Std.Symm fun left right : VolumePlace =>
      left.id ≠ right.id ∧ ∀ chunk ∈ left.chunks, chunk ∉ right.chunks := by
    refine ⟨?_⟩
    rintro left right ⟨differ, separate⟩
    exact ⟨Ne.symm differ, fun chunk inRight inLeft => separate chunk inLeft inRight⟩
  by_contra differ
  exact (apart.separate.forall isFirst isSecond differ).2 chunk inFirst inSecond

theorem StoreSound.findVolume (sound : StoreSound store) (start count : Nat) :
    StoreSound { store with manager := (store.manager.findVolume start count).1 } := by
  obtain ⟨same, sameVolumes⟩ := samePlaces_findVolume store.manager start count
  refine sound.of_same same ?_
  rw [sameVolumes]
  exact sound.startsInside

/-- A store with new maps for one volume. -/
theorem StoreSound.setState (sound : StoreSound store) {volume : ManagedVolume}
    (isVolume : volume ∈ store.manager.volumes) (startsInside : state.StartsInside volume.layout) :
    StoreSound { store with manager := store.manager.setState volume.id state } := by
  refine sound.of_same (samePlaces_setState ..) ?_
  refine startsInside_setState sound.startsInside ?_
  intro other isOther same
  rw [sound.apart.unique isOther isVolume same]
  exact startsInside

theorem startsInside_concat {volumes : List ManagedVolume}
    (startsInside : ∀ volume ∈ volumes, volume.state.StartsInside volume.layout)
    (id : Nat) (shape : VolumeShape) (extentStarts : List Nat) :
    ∀ volume ∈ volumes ++ [⟨id, shape, extentStarts, .new⟩],
      volume.state.StartsInside volume.layout :=
  forall_mem_append.mpr ⟨startsInside, forall_mem_singleton.mpr (Nat.zero_le _)⟩

theorem StoreSound.added {shape : VolumeShape} (sound : StoreSound store)
    (added : VolumeAdded shape store.manager manager) :
    StoreSound { store with manager } := by
  have held : ∀ more, manager.volumes = store.manager.volumes ++ more →
      ∀ range ∈ store.handedOut, ∃ place ∈ manager.places, place.Holds range.1 range.2 := by
    intro more grown range mem
    obtain ⟨place, isPlace, holds⟩ := sound.held range mem
    refine ⟨place, ?_, holds⟩
    rw [places, grown, map_append]
    exact mem_append_left _ isPlace
  have apart := added.apart sound.apart
  rcases added.volumes with same | ⟨extentStarts, more⟩
  · exact ⟨apart, same ▸ sound.startsInside, held [] (same.trans (append_nil _).symm)⟩
  · exact ⟨apart, more ▸ startsInside_concat sound.startsInside _ _ _, held _ more⟩

/-! ## A new process -/

/-- Volumes that may all be added to a manager. -/
structure CanReopen (order : List ManagedVolume) (manager : VolumeManager) : Prop where
  sound : ∀ volume ∈ order, volume.place.Sound
  separate : order.Pairwise fun first second =>
    ∀ chunk ∈ first.place.chunks, chunk ∉ second.place.chunks
  free : ∀ volume ∈ order, ∀ chunk ∈ volume.place.chunks,
    manager.allocatedExtentBlocks chunk = false

/-- A volume has one drive for each extent if and only if it has no replicas. -/
theorem VolumePlace.Sound.devices_iff {place : VolumePlace} (sound : place.Sound) :
    (place.extentStarts.length = place.shape.numDevices ∧ 0 < place.shape.numDevices) ↔
      place.shape.replicationFactor = 1 := by
  obtain ⟨someExtents, _, _⟩ := sound.sensible
  rw [sound.extents, VolumeShape.numDevices]
  constructor
  · rintro ⟨same, -⟩
    exact Nat.eq_of_mul_eq_mul_right someExtents (by omega)
  · rintro single
    rw [single]
    omega

/-- They all are if none has replicas, and otherwise one is refused. -/
theorem CanReopen.isSome_reopen_iff (canReopen : CanReopen order manager) :
    (VolumeManager.reopen order manager).isSome = true ↔
      ∀ volume ∈ order, volume.shape.replicationFactor = 1 := by
  induction order generalizing manager with
  | nil => simp [VolumeManager.reopen]
  | cons volume order ih =>
    have volumeSound := canReopen.sound volume mem_cons_self
    obtain ⟨firstSeparate, restSeparate⟩ := pairwise_cons.mp canReopen.separate
    by_cases single : volume.shape.replicationFactor = 1
    · obtain ⟨next, isAdded, allocated⟩ : ∃ next,
          manager.addExistingVolume volume.shape.reopened volume.extentStarts = (next, true) ∧ _ :=
        addExistingVolume_of_free (volumeSound.devices_iff.mpr single) volumeSound.distinct
          (canReopen.free volume mem_cons_self)
      have restFree : CanReopen order next :=
        { sound := fun other mem => canReopen.sound other (mem_cons_of_mem _ mem)
          separate := restSeparate
          free := by
            intro other isOther chunk inOther
            refine Bool.eq_false_iff.mpr fun isAllocated => ?_
            rcases (allocated chunk).mp isAllocated with earlier | isTaken
            · rw [canReopen.free other (mem_cons_of_mem _ isOther) chunk inOther] at earlier
              contradiction
            · exact firstSeparate other isOther chunk isTaken inOther }
      rw [VolumeManager.reopen, isAdded]
      exact (ih restFree).trans (by simp [single])
    · have refused : ¬ (volume.extentStarts.length = volume.shape.reopened.numDevices ∧
          0 < volume.shape.reopened.numDevices) :=
        fun devices => single (volumeSound.devices_iff.mp devices)
      rw [VolumeManager.reopen, VolumeManager.addExistingVolume]
      simp [if_neg refused, single]

/-- They are at the places they had. -/
theorem reopen_sound {reopened : VolumeManager} (sound : ∀ volume ∈ order, volume.place.Sound)
    (apart : VolumesApart manager) (mapped : ChunksMapped manager)
    (startsInside : ∀ volume ∈ manager.volumes, volume.state.StartsInside volume.layout)
    (isReopened : VolumeManager.reopen order manager = some reopened) :
    VolumesApart reopened ∧ ChunksMapped reopened ∧
      (∀ volume ∈ reopened.volumes, volume.state.StartsInside volume.layout) ∧
      (∀ volume ∈ manager.volumes, volume ∈ reopened.volumes) ∧
      ∀ volume ∈ order, ∃ other ∈ reopened.volumes,
        other.shape = volume.shape.reopened ∧ other.extentStarts = volume.extentStarts := by
  induction order generalizing manager with
  | nil =>
    cases isReopened
    exact ⟨apart, mapped, startsInside, fun _ => id, by simp⟩
  | cons volume order ih =>
    have volumeSound := sound volume mem_cons_self
    have added : VolumeAdded volume.shape.reopened manager
        (manager.addExistingVolume volume.shape.reopened volume.extentStarts).1 :=
      volumeAdded_addExistingVolume volumeSound.sensible volumeSound.extents volumeSound.aligned
    rw [VolumeManager.reopen] at isReopened
    split at isReopened
    case h_2 => contradiction
    case h_1 next isAdded =>
      rw [isAdded] at added
      have volumes := volumes_of_addExistingVolume isAdded
      obtain ⟨isApart, isMapped, isInside, kept, present⟩ :=
        ih (fun other mem => sound other (mem_cons_of_mem _ mem))
          (added.apart apart) (added.mapped apart mapped)
          (volumes ▸ startsInside_concat startsInside _ _ _) isReopened
      rw [volumes] at kept
      refine ⟨isApart, isMapped, isInside, fun other mem => kept other (mem_append_left _ mem),
        forall_mem_cons.mpr ⟨?_, present⟩⟩
      exact ⟨_, kept _ (mem_append_right _ mem_cons_self), rfl, rfl⟩

theorem volumesApart_new : VolumesApart .new where
  sound := by simp [places, VolumeManager.new]
  allocated := by simp [places, VolumeManager.new]
  separate := List.Pairwise.nil
  numbered := by simp [places, VolumeManager.new]

theorem chunksMapped_new : ChunksMapped .new where
  mapped := by simp [places, VolumeManager.new]
  owned := by simp [VolumeManager.new]
  free := fun _ _ => rfl

/-- The volumes of a manager can be added again in any order. -/
theorem VolumesApart.canReopen (apart : VolumesApart manager) (same : order.Perm manager.volumes) :
    CanReopen order .new where
  sound := fun volume mem =>
    apart.sound _ (mem_map_of_mem (same.mem_iff.mp mem))
  separate := by
    have separate : manager.volumes.Pairwise fun first second =>
        ∀ chunk ∈ first.place.chunks, chunk ∉ second.place.chunks :=
      (pairwise_map.mp apart.separate).imp fun both => both.2
    have symmetric : ∀ first second : ManagedVolume,
        (∀ chunk ∈ first.place.chunks, chunk ∉ second.place.chunks) →
          ∀ chunk ∈ second.place.chunks, chunk ∉ first.place.chunks :=
      fun _ _ separate chunk inSecond inFirst => separate chunk inFirst inSecond
    exact (same.pairwise_iff fun {first second} => symmetric first second).mpr separate
  free := fun _ _ _ _ => rfl

/-- A restart finds every volume where it was. -/
theorem StoreSound.reopen (sound : StoreSound store) (same : order.Perm store.manager.volumes)
    (isReopened : VolumeManager.reopen order .new = some manager) :
    ChunksMapped manager ∧ StoreSound { store with manager } := by
  obtain ⟨apart, mapped, startsInside, _, present⟩ :=
    reopen_sound (sound.apart.canReopen same).sound volumesApart_new chunksMapped_new
      (by simp [VolumeManager.new]) isReopened
  refine ⟨mapped, apart, startsInside, ?_⟩
  intro range mem
  obtain ⟨place, isPlace, holds⟩ := sound.held range mem
  obtain ⟨volume, isVolume, rfl⟩ := mem_map.mp isPlace
  obtain ⟨other, isOther, sameShape, sameStarts⟩ := present volume (same.mem_iff.mpr isVolume)
  refine ⟨other.place, mem_map_of_mem isOther, ?_⟩
  show (other.shape.layout other.extentStarts).Holds range.1 range.2
  rw [sameShape, sameStarts]
  exact holds

/-! ## Runs -/

namespace BlockStore

/-- Any call.  A new process adds the volumes there are. -/
def AnyCall (store : BlockStore) : BlockStoreEvent → Prop
  | .restart order => order.Perm store.manager.volumes
  | _ => True

end BlockStore

/-- A range is in one extent of a volume. -/
def VolumeManager.InExtent (manager : VolumeManager) (start count : Nat) : Prop :=
  ∃ place ∈ manager.places, ∃ extentStart ∈ place.extentStarts,
    extentStart ≤ start ∧ start + count ≤ extentStart + place.shape.capacityBlocks

/-- The exclusive end of a range is inside a chunk, or at the start of one that belongs to
the volume of the range. -/
def VolumeManager.EndsInside (manager : VolumeManager) (start count : Nat) : Prop :=
  (start + count) % chunkBlocks ≠ 0 ∨ ∃ place ∈ manager.places,
    start / chunkBlocks ∈ place.chunks ∧ (start + count) / chunkBlocks ∈ place.chunks

namespace BlockStore

/-- Calls on ranges are on ranges of a volume whose end is inside. -/
def EndsInside (store : BlockStore) : BlockStoreEvent → Prop
  | .free start count | .markUsed start count | .sync start count =>
    0 < count ∧ store.manager.InExtent start count ∧ store.manager.EndsInside start count
  | .restart order => order.Perm store.manager.volumes
  | _ => True

theorem EndsInside.anyCall {store : BlockStore} {event : BlockStoreEvent}
    (endsInside : store.EndsInside event) :
    store.AnyCall event := by
  cases event with
  | restart order => exact endsInside
  | _ => trivial

end BlockStore

/-- Every call keeps the volumes apart. -/
theorem StoreSound.step {next : BlockStore} {event : BlockStoreEvent} (sound : StoreSound store)
    (allowed : store.AnyCall event) (stepped : store.step event = some next) :
    StoreSound next := by
  cases event with
  | addNewVolume shape enoughDevices =>
    rw [BlockStore.step] at stepped
    obtain ⟨sensible, stepped⟩ := Option.ite_none_right_eq_some.mp stepped
    cases stepped
    exact sound.added (volumeAdded_addNewVolume sensible enoughDevices)
  | addExistingVolume shape extentStarts =>
    rw [BlockStore.step] at stepped
    obtain ⟨⟨sensible, extents, aligned⟩, stepped⟩ := Option.ite_none_right_eq_some.mp stepped
    cases stepped
    exact sound.added (volumeAdded_addExistingVolume sensible extents
      fun start mem => (aligned start mem).1)
  | allocate speed numBlocks dataFloor =>
    rw [BlockStore.step] at stepped
    obtain ⟨-, stepped⟩ := Option.ite_none_right_eq_some.mp stepped
    cases stepped
    obtain ⟨startsInside, holds⟩ := sound.allocate speed numBlocks dataFloor
    have same := samePlaces_tryAllocate store.manager speed numBlocks dataFloor
    have kept := sound.of_same same startsInside
    refine { kept with held := ?_ }
    intro range mem
    rcases mem_append.mp mem with earlier | isNew
    · exact kept.held range earlier
    · obtain ⟨place, isPlace, isHeld⟩ := holds range isNew
      exact ⟨place, same.places ▸ isPlace, isHeld⟩
  | free start count =>
    cases stepped
    have looked := sound.findVolume start count
    have sameVolumes := (samePlaces_findVolume store.manager start count).2
    rcases freeSequentialBlocks_cases store.manager start count with
      same | ⟨volume, isVolume, maps, freed, same⟩
    · rw [same]
      exact looked
    · rw [same]
      have isLooked : volume ∈ (store.manager.findVolume start count).1.volumes :=
        sameVolumes ▸ isVolume
      refine looked.setState isLooked ?_
      refine (sound.startsInside volume isVolume).step
        (show volume.state.step volume.layout (.free start count) = _ from ?_)
      rw [VolumeState.step, freed]
      rfl
  | markUsed start count =>
    cases stepped
    have looked := sound.findVolume start count
    have sameVolumes := (samePlaces_findVolume store.manager start count).2
    rcases markBlockRangeUsed_cases store.manager start count with
      same | ⟨volume, isVolume, blockId, same⟩
    · rw [same]
      exact looked
    · rw [same]
      have isLooked : volume ∈ (store.manager.findVolume start count).1.volumes :=
        sameVolumes ▸ isVolume
      refine looked.setState isLooked ?_
      exact cachedStart_markBlocks (sound.startsInside volume isVolume) blockId count
  | sync start count =>
    cases stepped
    exact sound.findVolume start count
  | collectDiscards id | releaseDiscard id =>
    obtain ⟨volume, isVolume, rest⟩ := Option.bind_eq_some_iff.mp stepped
    obtain ⟨state, isState, rfl⟩ := Option.map_eq_some_iff.mp rest
    have mem := mem_of_find?_eq_some isVolume
    have sameId : volume.id = id := by simpa using find?_some isVolume
    rw [← sameId]
    exact sound.setState mem ((sound.startsInside volume mem).step isState)
  | restart order =>
    obtain ⟨manager, isReopened, rfl⟩ := Option.map_eq_some_iff.mp stepped
    exact (sound.reopen allowed isReopened).2

/-- A range of a volume is looked up under its volume if and only if its end is inside. -/
theorem findVolume_of_inExtent
    (apart : VolumesApart manager) (mapped : ChunksMapped manager) {place : VolumePlace}
    (isPlace : place ∈ manager.places) {extentStart : Nat}
    (isExtent : extentStart ∈ place.extentStarts) (above : extentStart ≤ start)
    (below : start + count ≤ extentStart + place.shape.capacityBlocks) (someBlocks : 0 < count) :
    (manager.EndsInside start count → manager.findVolume start count = (manager, some place.id)) ∧
      ((manager.findVolume start count).2 ≠ none → manager.EndsInside start count) := by
  have aligned := (apart.sound place isPlace).aligned extentStart isExtent
  have startIn : start / chunkBlocks ∈ place.chunks :=
    chunk_of_block isExtent aligned above (by omega)
  have startMapped := mapped.mapped place isPlace _ startIn
  have first : manager.lookupChunk (start / chunkBlocks) = (manager, some place.id) := by
    rw [lookupChunk, startMapped]
  have found : manager.findVolume start count =
      ((manager.lookupChunk ((start + count) / chunkBlocks)).1,
        if some place.id = (manager.lookupChunk ((start + count) / chunkBlocks)).2 then
          some place.id
        else none) := by
    rw [findVolume, first]
  have endIn : manager.EndsInside start count → (start + count) / chunkBlocks ∈ place.chunks := by
    rintro (inChunk | ⟨other, isOther, startInOther, endInOther⟩)
    · have lastIn : (start + count - 1) / chunkBlocks ∈ place.chunks :=
        chunk_of_block isExtent aligned (by omega) (by omega)
      have sameChunk : (start + count) / chunkBlocks = (start + count - 1) / chunkBlocks := by
        have positive : 0 < chunkBlocks := by decide
        have whole := Nat.div_add_mod (start + count) chunkBlocks
        refine (Nat.div_eq_of_lt_le ?_ ?_).symm
        · rw [Nat.mul_comm]
          omega
        · have below := Nat.mod_lt (start + count) positive
          rw [Nat.add_mul, Nat.one_mul, Nat.mul_comm]
          omega
      rw [sameChunk]
      exact lastIn
    · rwa [apart.unique_chunk isPlace isOther startIn startInOther]
  constructor
  · intro endsInside
    have endMapped := mapped.mapped place isPlace _ (endIn endsInside)
    have last : manager.lookupChunk ((start + count) / chunkBlocks) = (manager, some place.id) := by
      rw [lookupChunk, endMapped]
    rw [found, last, if_pos rfl]
  · intro isFound
    rw [found] at isFound
    by_cases same : some place.id = (manager.lookupChunk ((start + count) / chunkBlocks)).2
    · refine Or.inr ⟨place, isPlace, startIn, ?_⟩
      rw [lookupChunk] at same
      split at same
      case h_1 volume isVolume =>
        exact (mapped.owned _ _ (isVolume.trans (congrArg some same.symm))).2 place isPlace rfl
      case h_2 => contradiction
    · exact absurd (if_neg same) isFound

/-- A call on a range whose end is inside leaves the map of chunks alone. -/
theorem findVolume_of_endsInside
    (apart : VolumesApart manager) (mapped : ChunksMapped manager) (someBlocks : 0 < count)
    (inExtent : manager.InExtent start count) (endsInside : manager.EndsInside start count) :
    (manager.findVolume start count).1 = manager := by
  obtain ⟨place, isPlace, extentStart, isExtent, above, below⟩ := inExtent
  rw [(findVolume_of_inExtent apart mapped isPlace isExtent above below someBlocks).1 endsInside]

/-- Calls that end inside a volume keep every chunk mapped. -/
theorem ChunksMapped.step
    {next : BlockStore} {event : BlockStoreEvent} (mapped : ChunksMapped store.manager)
    (sound : StoreSound store) (allowed : store.EndsInside event)
    (stepped : store.step event = some next) :
    ChunksMapped next.manager := by
  cases event with
  | addNewVolume shape enoughDevices =>
    rw [BlockStore.step] at stepped
    obtain ⟨sensible, stepped⟩ := Option.ite_none_right_eq_some.mp stepped
    cases stepped
    exact (volumeAdded_addNewVolume sensible enoughDevices).mapped sound.apart mapped
  | addExistingVolume shape extentStarts =>
    rw [BlockStore.step] at stepped
    obtain ⟨⟨sensible, extents, aligned⟩, stepped⟩ := Option.ite_none_right_eq_some.mp stepped
    cases stepped
    exact (volumeAdded_addExistingVolume sensible extents
      fun start mem => (aligned start mem).1).mapped sound.apart mapped
  | allocate speed numBlocks dataFloor =>
    rw [BlockStore.step] at stepped
    obtain ⟨-, stepped⟩ := Option.ite_none_right_eq_some.mp stepped
    cases stepped
    refine mapped.of_same (samePlaces_tryAllocate ..) ?_
    rw [VolumeManager.tryAllocateSequentialBlocks]
    split
    · rfl
    · dsimp only
      split <;> rfl
  | free start count =>
    cases stepped
    have same := findVolume_of_endsInside sound.apart mapped allowed.1 allowed.2.1 allowed.2.2
    show ChunksMapped (store.manager.freeSequentialBlocks start count).1
    rcases freeSequentialBlocks_cases store.manager start count with
      isLooked | ⟨volume, isVolume, maps, freed, isFreed⟩
    · rw [isLooked, same]
      exact mapped
    · rw [isFreed, same]
      exact mapped.of_same (samePlaces_setState ..) rfl
  | markUsed start count =>
    cases stepped
    have same := findVolume_of_endsInside sound.apart mapped allowed.1 allowed.2.1 allowed.2.2
    show ChunksMapped (store.manager.markBlockRangeUsed start count).1
    rcases markBlockRangeUsed_cases store.manager start count with
      isLooked | ⟨volume, isVolume, blockId, isMarked⟩
    · rw [isLooked, same]
      exact mapped
    · rw [isMarked, same]
      exact mapped.of_same (samePlaces_setState ..) rfl
  | sync start count =>
    cases stepped
    show ChunksMapped (store.manager.findVolume start count).1
    rw [findVolume_of_endsInside sound.apart mapped allowed.1 allowed.2.1 allowed.2.2]
    exact mapped
  | collectDiscards id | releaseDiscard id =>
    obtain ⟨volume, isVolume, rest⟩ := Option.bind_eq_some_iff.mp stepped
    obtain ⟨state, isState, rfl⟩ := Option.map_eq_some_iff.mp rest
    exact mapped.of_same (samePlaces_setState ..) rfl
  | restart order =>
    obtain ⟨manager, isReopened, rfl⟩ := Option.map_eq_some_iff.mp stepped
    exact (sound.reopen allowed isReopened).1

theorem storeSound_new : StoreSound .new where
  apart := volumesApart_new
  startsInside := by simp [BlockStore.new, VolumeManager.new]
  held := by simp [BlockStore.new]

/-- Whatever is called, the store stays sound. -/
theorem StoreSound.reaches
    (reached : EventRuns.Reaches BlockStore.step BlockStore.AnyCall .new store) :
    StoreSound store :=
  reached.invariant storeSound_new fun _ _ _ sound allowed stepped => sound.step allowed stepped

/-- As long as the ranges looked up end inside, the map of chunks is right too. -/
theorem ChunksMapped.reaches
    (reached : EventRuns.Reaches BlockStore.step BlockStore.EndsInside .new store) :
    ChunksMapped store.manager := by
  induction reached with
  | refl => exact chunksMapped_new
  | tail before allowed stepped ih =>
    refine ih.step (StoreSound.reaches ?_) allowed stepped
    exact before.mono fun _ _ => BlockStore.EndsInside.anyCall

end Orly
