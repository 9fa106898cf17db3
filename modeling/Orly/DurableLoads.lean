import Orly.DurableManagerLaws

namespace Orly

/-!
# What loads of durables return

`TryLoad` looks through the memory layers and the disk layers of the mapping and takes the
highest sequence number of its id.
-/

open List

section Loads

variable {Id Form : Type} [LinearOrder Id] (indexing : DurableIndexing Id)

namespace DurableContents

variable (contents : DurableContents Id Form)

/-- The entries of the layers a load looks through. -/
def liveEntries : List (DurableEntry Id Form) :=
  contents.curMemoryLayer.map SlushEntry.entry ++
    contents.unflushedLayers.flatten.map SlushEntry.entry ++ contents.diskEntries

omit [LinearOrder Id] in
theorem mem_liveEntries {contents : DurableContents Id Form} {entry : DurableEntry Id Form} :
    entry ∈ contents.liveEntries ↔
      entry ∈ contents.memRuns.flatten ∨ entry ∈ contents.diskEntries := by
  simp only [liveEntries, memRuns, map_append, map_cons, map_nil,
    flatten_append, flatten_cons, flatten_nil, append_nil,
    mem_append, map_flatten]
  tauto

end DurableContents

theorem Newest.slushLayers
    {entries : List (DurableEntry Id Form)} {id : Id} {cursor : LoadCursor Form}
    (newest : Newest entries id cursor) {layers : List (List (SlushEntry Id Form))}
    (sorted : ∀ layer ∈ layers, (layer.map SlushEntry.entry).Pairwise EntryBefore)
    (positive : ∀ layer ∈ layers, ∀ slush ∈ layer, 0 < slush.entry.seqNum) :
    Newest (entries ++ layers.flatten.map SlushEntry.entry) id
      (layers.foldl (fun cursor layer => Orly.slushFindMax id layer cursor) cursor) := by
  induction layers generalizing entries cursor with
  | nil =>
    rw [flatten_nil, map_nil, append_nil]
    exact newest
  | cons layer layers ih =>
    have looked := newest.slushFindMax (sorted layer mem_cons_self) (positive layer mem_cons_self)
    have rest := ih looked (fun later mem => sorted later (mem_cons_of_mem _ mem))
      (fun later mem => positive later (mem_cons_of_mem _ mem))
    rw [flatten_cons, map_append, ← append_assoc]
    exact rest

theorem Newest.files {entries : List (DurableEntry Id Form)} {id : Id} {cursor : LoadCursor Form}
    (newest : Newest entries id cursor) {files : List (DurableFile Id Form)}
    (rising : ∀ file ∈ files, file.entries.Pairwise fun first second => first.id < second.id)
    (positive : ∀ file ∈ files, ∀ entry ∈ file.entries, 0 < entry.seqNum) :
    Newest (entries ++ files.flatMap DurableFile.entries) id
      (files.foldl (fun cursor file => Orly.durableFindInHash indexing file.entries id cursor)
        cursor) := by
  induction files generalizing entries cursor with
  | nil =>
    rw [flatMap_nil, append_nil]
    exact newest
  | cons file files ih =>
    have looked : Newest (entries ++ file.entries) id
        (Orly.durableFindInHash indexing file.entries id cursor) :=
      newest.durableFindInHash (rising file mem_cons_self) (positive file mem_cons_self)
    have rest := ih looked (fun later mem => rising later (mem_cons_of_mem _ mem))
      (fun later mem => positive later (mem_cons_of_mem _ mem))
    rw [flatMap_cons, ← append_assoc]
    exact rest

namespace Layered

variable {contents : DurableContents Id Form}

/-- A live entry was saved. -/
theorem live_held (layered : Layered contents) {entry : DurableEntry Id Form}
    (live : entry ∈ contents.liveEntries) :
    contents.Holds entry :=
  (DurableContents.mem_liveEntries.mp live).imp_right layered.mem_fileEntries

/-- A load finds the newest live entry of its id. -/
theorem loadCursor (layered : Layered contents) (id : Id) :
    Newest contents.liveEntries id (contents.loadCursor indexing id) := by
  have inRuns : ∀ layer ∈ contents.unflushedLayers ++ [contents.curMemoryLayer],
      layer.map SlushEntry.entry ∈ contents.memRuns :=
    fun layer mem => mem_map_of_mem mem
  have positive : ∀ layer ∈ contents.unflushedLayers ++ [contents.curMemoryLayer],
      ∀ slush ∈ layer, 0 < slush.entry.seqNum := by
    intro layer mem slush inLayer
    refine (layered.numbered slush.entry (Or.inl ?_)).1
    exact mem_flatten_of_mem (inRuns layer mem) (mem_map_of_mem inLayer)
  have current : Newest ([] ++ contents.curMemoryLayer.map SlushEntry.entry) id
      (slushFindMax id contents.curMemoryLayer ⟨0, none⟩) :=
    (Newest.start id).slushFindMax (layered.sorted _ (inRuns _ (mem_append_right _ mem_cons_self)))
      (positive _ (mem_append_right _ mem_cons_self))
  rw [nil_append] at current
  have memory := current.slushLayers
    (fun layer mem => layered.sorted _ (inRuns layer (mem_append_left _ mem)))
    (fun layer mem => positive layer (mem_append_left _ mem))
  refine memory.files indexing ?_ ?_
  · intro file isLayer
    exact layered.rising file (layered.mapped file isLayer)
  · intro file isLayer entry inFile
    refine (layered.numbered entry (Or.inr ?_)).1
    exact mem_flatMap.mpr ⟨file, layered.mapped file isLayer, inFile⟩

/-- What `TryLoad` returns. -/
theorem tryLoad (layered : Layered contents) (id : Id) :
    (contents.tryLoad indexing id = none ∧ ∀ entry ∈ contents.liveEntries, entry.id ≠ id) ∨
      ∃ entry ∈ contents.liveEntries, entry.id = id ∧
          contents.tryLoad indexing id = some (entry.seqNum, entry.serializedForm) ∧
          ∀ other ∈ contents.liveEntries, other.id = id → other.seqNum ≤ entry.seqNum := by
  rcases layered.loadCursor indexing id with ⟨isStart, none⟩ | ⟨entry, live, sameId, isCursor, best⟩
  · refine Or.inl ⟨?_, none⟩
    rw [DurableContents.tryLoad, isStart]
    rfl
  · refine Or.inr ⟨entry, live, sameId, ?_, best⟩
    have positive := (layered.numbered entry (layered.live_held live)).1
    rw [DurableContents.tryLoad, isCursor]
    simp [positive]

/-- A load finds nothing only where no entry is live. -/
theorem tryLoad_eq_none_iff (layered : Layered contents) (id : Id) :
    contents.tryLoad indexing id = none ↔ ∀ entry ∈ contents.liveEntries, entry.id ≠ id := by
  rcases layered.tryLoad indexing id with ⟨isNone, none⟩ | ⟨entry, live, sameId, isEntry, _⟩
  · exact iff_of_true isNone none
  · refine iff_of_false ?_ fun none => none entry live sameId
    rw [isEntry]
    simp

end Layered

end Loads

/-- Numbers as ids, each its own hash. -/
def numberIndexing : DurableIndexing Nat where
  idHash := id
  suggestHashSize := (· + 1)
  room := Nat.lt_succ_self
  walk home slots := slots.insertionSort fun first second => home first ≤ home second
  perm _ slots := List.perm_insertionSort _ slots
  sorted _ slots := List.pairwise_insertionSort _ slots

end Orly
