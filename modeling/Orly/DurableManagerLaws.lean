import Orly.DurableManager
import Orly.DurableFilesLaws

namespace Orly

/-!
# Invariants of the durable manager

Each step does one thing to the layers and files.  In every run the layers are sorted,
entries on disk are older than entries in memory, and the log of saves tells which save
every entry comes from.
-/

open List DurableContents

section Contents

variable {Id Form : Type} [LinearOrder Id]

namespace DurableContents

variable (contents : DurableContents Id Form)

/-- The entries of the memory layers, oldest layer first. -/
def memRuns : List (List (DurableEntry Id Form)) :=
  (contents.unflushedLayers ++ [contents.curMemoryLayer]).map (List.map SlushEntry.entry)

/-- The entries of the file map. -/
def fileEntries : List (DurableEntry Id Form) :=
  contents.files.flatMap DurableFile.entries

/-- The entries of the disk layers of the mapping. -/
def diskEntries : List (DurableEntry Id Form) :=
  contents.diskLayers.flatMap DurableFile.entries

/-- Memory or a file has this entry. -/
def Holds (entry : DurableEntry Id Form) : Prop :=
  entry ∈ contents.memRuns.flatten ∨ entry ∈ contents.fileEntries

end DurableContents

/-- What a step does to the layers and files of a manager. -/
inductive ContentStep (manager : DurableManager Id Form) :
    DurableEvent Id Form → DurableContents Id Form → Prop
  | save (id : Id) (deadlineCount : Nat) (serializedForm : Form) (sem : Option Nat) :
      ContentStep manager (.save id deadlineCount serializedForm sem)
        (manager.contents.addEntry id deadlineCount serializedForm sem manager.writerRetired)
  | record (id : Id) (deadlineCount : Nat) (serializedForm : Form) (sem : Nat) :
      ContentStep manager (.addRecord id deadlineCount serializedForm sem)
        (manager.contents.addEntry id deadlineCount serializedForm (some sem) false)
  | check (sem : Nat) : ContentStep manager (.checkRecord sem) manager.contents
  | begin (retireWriter : Bool) :
      ContentStep manager (.beginRound retireWriter) manager.contents
  | rotateEmpty (outcome : RotateOutcome) (empty : manager.contents.curMemoryLayer = []) :
      ContentStep manager (.rotateLayer outcome) manager.contents
  | rotate : ContentStep manager (.rotateLayer .rotated) manager.contents.rotate
  | rotateDry :
      ContentStep manager (.rotateLayer .poolDry) manager.contents.releaseCurrent
  | rotateFails (linked : Option Nat) (someEntry : manager.contents.curMemoryLayer ≠ []) :
      ContentStep manager (.rotateLayer (.mappingError linked))
        manager.contents.releaseUnflushed.releaseCurrent
  | write
      (now genId : Nat)
      (layer : List (SlushEntry Id Form))
      (rest : List (List (SlushEntry Id Form)))
      (oldest : manager.contents.unflushedLayers = layer :: rest)
      (works : manager.writerFailed = false) :
      ContentStep manager (.writeLayer (.written now))
        (manager.contents.writeOldest layer rest genId now)
  | writeFails
      (outcome : WriteOutcome)
      (released : manager.releasedUnwritten (.writeLayer outcome) =
        manager.contents.unflushedLayers.flatten) :
      ContentStep manager (.writeLayer outcome) manager.contents.releaseUnflushed
  | blocked : ContentStep manager .releaseBlocked manager.contents.releaseCurrent
  | final :
      ContentStep manager .finalRelease manager.contents.releaseUnflushed.releaseCurrent
  | merge (genIds : List Nat) (now genId : Nat) :
      ContentStep manager (.merge genIds now) (manager.contents.mergeLayers genIds genId now)
  | mergeFails : ContentStep manager .mergeFails manager.contents
  | removeFile
      (genId : Nat)
      (dead : ∀ file ∈ manager.contents.diskLayers, file.genId ≠ genId) :
      ContentStep manager (.removeFile genId) (manager.contents.removeFile genId)
  | removalFails : ContentStep manager .removalFails manager.contents
  | reopen : ContentStep manager .reopen manager.contents.reopen

namespace DurableManager

variable {manager next : DurableManager Id Form}

theorem writeUnflushed_contents {outcome : WriteOutcome}
    (wrote : manager.writeUnflushed outcome = some next) :
    ContentStep manager (.writeLayer outcome) next.contents := by
  rw [writeUnflushed] at wrote
  split at wrote
  case h_1 => simp at wrote
  case h_2 layer rest oldest =>
    by_cases failed : manager.writerFailed = true
    · rw [if_pos failed] at wrote
      cases wrote
      refine .writeFails outcome ?_
      cases outcome <;> simp [releasedUnwritten, failed]
    · rw [if_neg failed] at wrote
      cases outcome with
      | written now =>
        cases wrote
        exact .write now _ layer rest oldest (Bool.eq_false_iff.mpr failed)
      | diskFull =>
        cases wrote
        exact .writeFails .diskFull rfl
      | poolDry =>
        cases wrote
        exact .writeFails .poolDry rfl
      | ioError =>
        cases wrote
        exact .writeFails .ioError rfl

theorem rotateSection_contents (retireWriter : Bool) (outcome : RotateOutcome) :
    ContentStep manager (.rotateLayer outcome)
      (manager.rotateSection retireWriter outcome).contents := by
  by_cases empty : manager.contents.curMemoryLayer = []
  · unfold rotateSection
    rw [if_pos empty]
    exact .rotateEmpty outcome empty
  · unfold rotateSection
    rw [if_neg empty]
    cases outcome with
    | rotated => exact .rotate
    | poolDry => exact .rotateDry
    | mappingError linked => exact .rotateFails linked empty

/-- Every step does one of these things to the contents. -/
theorem step_contents {event : DurableEvent Id Form} (stepped : manager.step event = some next) :
    ContentStep manager event next.contents := by
  cases event with
  | save id deadlineCount serializedForm sem =>
    cases stepped
    exact .save id deadlineCount serializedForm sem
  | checkRecord sem =>
    rw [step] at stepped
    split at stepped
    · simp at stepped
    · cases stepped
      exact .check sem
  | addRecord id deadlineCount serializedForm sem =>
    rw [step] at stepped
    split at stepped
    · cases stepped
      exact .record id deadlineCount serializedForm sem
    · simp at stepped
  | beginRound retireWriter =>
    rw [step] at stepped
    split at stepped
    · cases stepped
      exact .begin retireWriter
    · simp at stepped
  | writeLayer outcome =>
    rw [step] at stepped
    split at stepped
    · exact writeUnflushed_contents stepped
    · exact writeUnflushed_contents stepped
    · simp at stepped
  | releaseBlocked =>
    rw [step] at stepped
    split at stepped
    · cases stepped
      exact .blocked
    · simp at stepped
  | rotateLayer outcome =>
    rw [step] at stepped
    split at stepped
    · cases stepped
      exact rotateSection_contents _ outcome
    · simp at stepped
  | finalRelease =>
    rw [step] at stepped
    split at stepped
    · cases stepped
      exact .final
    · simp at stepped
  | merge genIds now =>
    rw [step] at stepped
    split at stepped
    · cases stepped
      exact .merge genIds now _
    · simp at stepped
  | mergeFails =>
    cases stepped
    exact .mergeFails
  | removeFile genId =>
    rw [step] at stepped
    split at stepped
    case isTrue dead =>
      cases stepped
      exact .removeFile genId dead
    case isFalse => simp at stepped
  | removalFails =>
    cases stepped
    exact .removalFails
  | reopen =>
    cases stepped
    exact .reopen

end DurableManager

namespace DurableContents

variable {contents : DurableContents Id Form}

omit [LinearOrder Id] in
@[simp] theorem map_entry_releasedLayer (layer : List (SlushEntry Id Form)) :
    (releasedLayer layer).map SlushEntry.entry = layer.map SlushEntry.entry := by
  simp [releasedLayer]

omit [LinearOrder Id] in
@[simp] theorem memRuns_releaseCurrent : contents.releaseCurrent.memRuns = contents.memRuns := by
  simp [memRuns, releaseCurrent]

omit [LinearOrder Id] in
@[simp] theorem memRuns_releaseUnflushed :
    contents.releaseUnflushed.memRuns = contents.memRuns := by
  simp [memRuns, releaseUnflushed, Function.comp_def]

omit [LinearOrder Id] in
@[simp] theorem memRuns_rotate : contents.rotate.memRuns = contents.memRuns ++ [[]] := by
  simp [memRuns, rotate]

theorem memRuns_writeOldest
    {layer : List (SlushEntry Id Form)} {rest : List (List (SlushEntry Id Form))}
    (oldest : contents.unflushedLayers = layer :: rest) (genId now : Nat) :
    contents.memRuns =
      layer.map SlushEntry.entry :: (contents.writeOldest layer rest genId now).memRuns := by
  simp [memRuns, writeOldest, oldest]

theorem fileEntries_writeOldest
    (layer : List (SlushEntry Id Form)) (rest : List (List (SlushEntry Id Form)))
    (genId now : Nat) :
    (contents.writeOldest layer rest genId now).fileEntries =
      contents.fileEntries ++ writeSortedById now layer := by
  simp [fileEntries, writeOldest]

theorem fileEntries_mergeLayers (genIds : List Nat) (genId now : Nat) :
    (contents.mergeLayers genIds genId now).fileEntries = contents.fileEntries ++
        mergeSortedById now ((contents.takenLayers genIds).map DurableFile.entries) := by
  simp [fileEntries, mergeLayers]

/-- After a save the current layer has one entry more. -/
theorem memRuns_addEntry
    (contents : DurableContents Id Form) (id : Id) (deadlineCount : Nat) (serializedForm : Form)
    (sem : Option Nat) (signalNow : Bool) :
    ∃ older current grown, contents.memRuns = older ++ [current] ∧
        (contents.addEntry id deadlineCount serializedForm sem signalNow).memRuns =
          older ++ [grown] ∧
        (current.Pairwise EntryBefore → grown.Pairwise EntryBefore) ∧
        ∀ entry, entry ∈ grown ↔ entry = ⟨id, contents.seqNum + 1, deadlineCount, serializedForm⟩ ∨
            entry ∈ current := by
  set slush : SlushEntry Id Form :=
    ⟨⟨id, contents.seqNum + 1, deadlineCount, serializedForm⟩,
      if signalNow = true then none else sem⟩ with slushEq
  refine ⟨contents.unflushedLayers.map (List.map SlushEntry.entry),
    contents.curMemoryLayer.map SlushEntry.entry,
    (insertSlush slush contents.curMemoryLayer).map SlushEntry.entry, ?_, ?_, ?_, ?_⟩
  · simp [memRuns]
  · simp [memRuns, addEntry, slushEq]
  · exact insertSlush_sorted
  · intro entry
    rw [((insertSlush_perm slush contents.curMemoryLayer).map SlushEntry.entry).mem_iff,
      map_cons, mem_cons]

omit [LinearOrder Id] in
theorem le_foldl_max (entries : List (DurableEntry Id Form)) (most : Nat) :
    most ≤ entries.foldl (fun most entry => max most entry.seqNum) most ∧ ∀ entry ∈ entries,
        entry.seqNum ≤ entries.foldl (fun most entry => max most entry.seqNum) most := by
  induction entries generalizing most with
  | nil => simp
  | cons head rest ih =>
    obtain ⟨grows, bounds⟩ := ih (max most head.seqNum)
    rw [foldl_cons]
    refine ⟨by omega, ?_⟩
    intro entry mem
    rcases mem_cons.mp mem with rfl | later
    · omega
    · exact bounds entry later

omit [LinearOrder Id] in
/-- A manager resumes above every entry on disk. -/
theorem le_maxSeqNum {entry : DurableEntry Id Form} (mem : entry ∈ contents.fileEntries) :
    entry.seqNum ≤ maxSeqNum contents.files := by
  obtain ⟨file, isFile, inFile⟩ := mem_flatMap.mp mem
  have folded : ∀ (files : List (DurableFile Id Form)) (most : Nat), most ≤ files.foldl
          (fun most file => file.entries.foldl (fun most entry => max most entry.seqNum) most)
          most ∧
        (file ∈ files → entry.seqNum ≤ files.foldl
          (fun most file => file.entries.foldl (fun most entry => max most entry.seqNum) most)
          most) := by
    intro files
    induction files with
    | nil => simp
    | cons head rest ih =>
      intro most
      have inHead := le_foldl_max head.entries most
      obtain ⟨grows, bounds⟩ := ih
        (head.entries.foldl (fun most entry => max most entry.seqNum) most)
      rw [foldl_cons]
      refine ⟨Nat.le_trans inHead.1 grows, ?_⟩
      intro isFile
      rcases mem_cons.mp isFile with rfl | later
      · exact Nat.le_trans (inHead.2 entry inFile) grows
      · exact bounds later
  exact (folded contents.files 0).2 isFile

end DurableContents

/-- The layers of a manager are sorted and numbered, entries on disk below the ones in
memory. -/
structure Layered (contents : DurableContents Id Form) : Prop where
  sorted : ∀ run ∈ contents.memRuns, run.Pairwise EntryBefore
  rising : ∀ file ∈ contents.files, file.entries.Pairwise fun first second => first.id < second.id
  mapped : ∀ file ∈ contents.diskLayers, file ∈ contents.files
  runsRise : contents.memRuns.Pairwise fun older newer =>
    ∀ first ∈ older, ∀ second ∈ newer, first.seqNum < second.seqNum
  filesBelow : ∀ first ∈ contents.fileEntries, ∀ second ∈ contents.memRuns.flatten,
    first.seqNum < second.seqNum
  numbered : ∀ entry, contents.Holds entry → 0 < entry.seqNum ∧ entry.seqNum ≤ contents.seqNum
  unique : ∀ first second, contents.Holds first → contents.Holds second →
    first.seqNum = second.seqNum → first = second

namespace Layered

variable {contents : DurableContents Id Form}

theorem new : Layered (DurableManager.new : DurableManager Id Form).contents := by
  constructor <;> simp [DurableManager.new, memRuns, fileEntries, DurableContents.Holds]

section

variable (layered : Layered contents)

include layered

/-- Releasing savers leaves the layers as they are. -/
theorem ofSame {other : DurableContents Id Form}
    (sameRuns : other.memRuns = contents.memRuns) (sameFiles : other.files = contents.files)
    (sameDisk : other.diskLayers = contents.diskLayers) (sameSeq : other.seqNum = contents.seqNum) :
    Layered other := by
  have sameEntries : other.fileEntries = contents.fileEntries := by
    rw [fileEntries, sameFiles]
    rfl
  have sameHolds : ∀ entry, other.Holds entry ↔ contents.Holds entry := by
    intro entry
    rw [DurableContents.Holds, sameRuns, sameEntries]
    rfl
  refine
    { sorted := sameRuns ▸ layered.sorted
      rising := sameFiles ▸ layered.rising
      mapped := by rw [sameFiles, sameDisk]; exact layered.mapped
      runsRise := sameRuns ▸ layered.runsRise
      filesBelow := by rw [sameRuns, sameEntries]; exact layered.filesBelow
      numbered := ?_
      unique := ?_ }
  · intro entry held
    rw [sameSeq]
    exact layered.numbered entry ((sameHolds entry).mp held)
  · intro first second firstHeld secondHeld
    exact layered.unique first second ((sameHolds first).mp firstHeld)
      ((sameHolds second).mp secondHeld)

/-- A save goes above all numbers. -/
theorem addEntry (id : Id) (deadlineCount : Nat) (serializedForm : Form) (sem : Option Nat)
    (signalNow : Bool) :
    Layered (contents.addEntry id deadlineCount serializedForm sem signalNow) := by
  obtain ⟨older, current, grown, runsEq, grownEq, keepsSorted, inGrown⟩ :=
    contents.memRuns_addEntry id deadlineCount serializedForm sem signalNow
  set new : DurableEntry Id Form := ⟨id, contents.seqNum + 1, deadlineCount, serializedForm⟩
    with newEq
  have inRuns : ∀ entry, entry ∈ (older ++ [grown]).flatten ↔
      entry = new ∨ entry ∈ contents.memRuns.flatten := by
    intro entry
    simp only [runsEq, flatten_append, flatten_cons, flatten_nil, append_nil, mem_append, inGrown]
    tauto
  have heldBelow : ∀ entry, contents.Holds entry → entry.seqNum < new.seqNum := by
    intro entry held
    have bound := (layered.numbered entry held).2
    simp only [newEq]
    omega
  have heldIff : ∀ entry,
      (contents.addEntry id deadlineCount serializedForm sem signalNow).Holds entry ↔
        entry = new ∨ contents.Holds entry := by
    intro entry
    rw [DurableContents.Holds, grownEq, inRuns, or_assoc]
    rfl
  have sorted := layered.sorted
  have rise := layered.runsRise
  rw [runsEq] at sorted rise
  obtain ⟨olderRise, _, olderBelow⟩ := pairwise_append.mp rise
  refine
    { sorted := ?_
      rising := layered.rising
      mapped := layered.mapped
      runsRise := ?_
      filesBelow := ?_
      numbered := ?_
      unique := ?_ }
  · intro run mem
    rw [grownEq] at mem
    rcases mem_append.mp mem with isOlder | isGrown
    · exact sorted run (mem_append_left _ isOlder)
    · rw [mem_singleton.mp isGrown]
      exact keepsSorted (sorted current (by simp))
  · rw [grownEq]
    refine pairwise_append.mpr ⟨olderRise, pairwise_singleton _ _, ?_⟩
    intro run isOlder last isLast first inRun second inLast
    rw [mem_singleton.mp isLast, inGrown] at inLast
    rcases inLast with rfl | inCurrent
    · refine heldBelow first (Or.inl ?_)
      rw [runsEq]
      exact mem_flatten_of_mem (mem_append_left _ isOlder) inRun
    · exact olderBelow run isOlder current mem_cons_self first inRun second inCurrent
  · intro first inFiles second inMemory
    rw [grownEq, inRuns] at inMemory
    rcases inMemory with rfl | wasInMemory
    · exact heldBelow first (Or.inr inFiles)
    · exact layered.filesBelow first inFiles second wasInMemory
  · intro entry held
    rcases (heldIff entry).mp held with rfl | wasHeld
    · exact ⟨Nat.succ_pos _, Nat.le_refl _⟩
    · have bounds := layered.numbered entry wasHeld
      exact ⟨bounds.1, Nat.le_succ_of_le bounds.2⟩
  · intro first second firstHeld secondHeld sameSeq
    rcases (heldIff first).mp firstHeld with rfl | firstWas
    · rcases (heldIff second).mp secondHeld with rfl | secondWas
      · rfl
      · exact absurd sameSeq (Nat.ne_of_gt (heldBelow second secondWas))
    · rcases (heldIff second).mp secondHeld with rfl | secondWas
      · exact absurd sameSeq (Nat.ne_of_lt (heldBelow first firstWas))
      · exact layered.unique first second firstWas secondWas sameSeq

theorem rotate : Layered contents.rotate := by
  have runsEq : contents.rotate.memRuns = contents.memRuns ++ [[]] := memRuns_rotate
  have flatEq : contents.rotate.memRuns.flatten = contents.memRuns.flatten := by
    simp [runsEq]
  refine
    { sorted := ?_
      rising := layered.rising
      mapped := layered.mapped
      runsRise := ?_
      filesBelow := by rw [flatEq]; exact layered.filesBelow
      numbered := ?_
      unique := ?_ }
  · intro run mem
    rw [runsEq] at mem
    rcases mem_append.mp mem with before | isNew
    · exact layered.sorted run before
    · rw [mem_singleton.mp isNew]
      exact List.Pairwise.nil
  · rw [runsEq]
    exact pairwise_append.mpr ⟨layered.runsRise, pairwise_singleton _ _, by simp⟩
  · intro entry held
    rw [DurableContents.Holds, flatEq] at held
    exact layered.numbered entry held
  · intro first second firstHeld secondHeld
    rw [DurableContents.Holds, flatEq] at firstHeld secondHeld
    exact layered.unique first second firstHeld secondHeld

/-- A step that adds a file of entries that were there, and may drop memory layers. -/
theorem addFile {other : DurableContents Id Form} {file : DurableFile Id Form}
    (filesEq : other.files = contents.files ++ [file])
    (rising : file.entries.Pairwise fun first second => first.id < second.id)
    (fromHeld : ∀ entry ∈ file.entries, contents.Holds entry)
    (below : ∀ first ∈ file.entries, ∀ second ∈ other.memRuns.flatten, first.seqNum < second.seqNum)
    (mapped : ∀ layer ∈ other.diskLayers, layer ∈ contents.diskLayers ∨ layer = file)
    (runs : other.memRuns.Sublist contents.memRuns) (sameSeq : other.seqNum = contents.seqNum) :
    Layered other := by
  have runsFlat : ∀ entry ∈ other.memRuns.flatten, entry ∈ contents.memRuns.flatten := by
    intro entry mem
    obtain ⟨run, isRun, inRun⟩ := mem_flatten.mp mem
    exact mem_flatten_of_mem (runs.subset isRun) inRun
  have entriesEq : other.fileEntries = contents.fileEntries ++ file.entries := by
    simp [fileEntries, filesEq]
  have wasHeld : ∀ entry, other.Holds entry → contents.Holds entry := by
    intro entry held
    rcases held with inMemory | inFiles
    · exact Or.inl (runsFlat entry inMemory)
    · rw [entriesEq] at inFiles
      rcases mem_append.mp inFiles with before | new
      · exact Or.inr before
      · exact fromHeld entry new
  refine
    { sorted := fun run mem => layered.sorted run (runs.subset mem)
      rising := ?_
      mapped := ?_
      runsRise := layered.runsRise.sublist runs
      filesBelow := ?_
      numbered := ?_
      unique := ?_ }
  · intro other isFile
    rw [filesEq] at isFile
    rcases mem_append.mp isFile with before | new
    · exact layered.rising other before
    · rw [mem_singleton.mp new]
      exact rising
  · intro layer isLayer
    rw [filesEq]
    rcases mapped layer isLayer with before | new
    · exact mem_append_left _ (layered.mapped layer before)
    · exact mem_append_right _ (mem_singleton.mpr new)
  · intro first inFiles second inMemory
    rw [entriesEq] at inFiles
    rcases mem_append.mp inFiles with before | new
    · exact layered.filesBelow first before second (runsFlat second inMemory)
    · exact below first new second inMemory
  · intro entry held
    rw [sameSeq]
    exact layered.numbered entry (wasHeld entry held)
  · intro first second firstHeld secondHeld
    exact layered.unique first second (wasHeld first firstHeld) (wasHeld second secondHeld)

/-- The oldest layer becomes a file. -/
theorem writeOldest {layer : List (SlushEntry Id Form)}
    {rest : List (List (SlushEntry Id Form))} (oldest : contents.unflushedLayers = layer :: rest)
    (genId now : Nat) :
    Layered (contents.writeOldest layer rest genId now) := by
  have runsEq := contents.memRuns_writeOldest oldest genId now
  have sorted : (layer.map SlushEntry.entry).Pairwise EntryBefore :=
    layered.sorted _ (by rw [runsEq]; exact mem_cons_self)
  have thinned := thinned_writeSortedById now sorted
  have rise := layered.runsRise
  rw [runsEq] at rise
  refine layered.addFile rfl thinned.rising ?_ ?_ ?_ ?_ rfl
  · intro entry mem
    refine Or.inl ?_
    rw [runsEq]
    exact mem_append_left _ (thinned.kept entry mem).1
  · intro first inFile second inMemory
    obtain ⟨run, isRun, inRun⟩ := mem_flatten.mp inMemory
    exact (pairwise_cons.mp rise).1 run isRun first (thinned.kept first inFile).1 second inRun
  · intro layer isLayer
    rcases mem_append.mp isLayer with before | new
    · exact Or.inl before
    · exact Or.inr (mem_singleton.mp new)
  · rw [runsEq]
    exact sublist_cons_self _ _

/-- What the manager holds after a layer is written it held before. -/
theorem holds_writeOldest {layer : List (SlushEntry Id Form)}
    {rest : List (List (SlushEntry Id Form))} (oldest : contents.unflushedLayers = layer :: rest)
    {genId now : Nat} {entry : DurableEntry Id Form}
    (held : (contents.writeOldest layer rest genId now).Holds entry) :
    contents.Holds entry := by
  have runsEq := contents.memRuns_writeOldest oldest genId now
  have sorted : (layer.map SlushEntry.entry).Pairwise EntryBefore :=
    layered.sorted _ (by rw [runsEq]; exact mem_cons_self)
  rcases held with inMemory | inFiles
  · refine Or.inl ?_
    rw [runsEq, flatten_cons]
    exact mem_append_right _ inMemory
  · rw [fileEntries_writeOldest] at inFiles
    rcases mem_append.mp inFiles with before | written
    · exact Or.inr before
    · refine Or.inl ?_
      rw [runsEq, flatten_cons]
      exact mem_append_left _ ((thinned_writeSortedById now sorted).kept entry written).1

theorem thinned_mergeLayers (genIds : List Nat) (now : Nat) :
    Thinned now ((contents.takenLayers genIds).flatMap DurableFile.entries)
      (mergeSortedById now ((contents.takenLayers genIds).map DurableFile.entries)) := by
  rw [flatMap_def]
  refine thinned_mergeSortedById now ?_
  intro entries mem
  obtain ⟨file, isTaken, rfl⟩ := mem_map.mp mem
  exact layered.rising file (layered.mapped file (mem_of_mem_filter isTaken))

/-- The entries of the disk layers are in files. -/
theorem mem_fileEntries {entry : DurableEntry Id Form} (mem : entry ∈ contents.diskEntries) :
    entry ∈ contents.fileEntries := by
  obtain ⟨file, isFile, inFile⟩ := mem_flatMap.mp mem
  exact mem_flatMap.mpr ⟨file, layered.mapped file isFile, inFile⟩

/-- The merged files leave the mapping, not the disk. -/
theorem mergeLayers (genIds : List Nat) (genId now : Nat) :
    Layered (contents.mergeLayers genIds genId now) := by
  have thinned := layered.thinned_mergeLayers genIds now
  have inFiles : ∀ entry ∈
      mergeSortedById now ((contents.takenLayers genIds).map DurableFile.entries),
      entry ∈ contents.fileEntries := by
    intro entry mem
    obtain ⟨file, isTaken, inFile⟩ := mem_flatMap.mp (thinned.kept entry mem).1
    exact mem_flatMap.mpr ⟨file, layered.mapped file (mem_of_mem_filter isTaken), inFile⟩
  refine layered.addFile rfl thinned.rising ?_ ?_ ?_ (List.Sublist.refl _) rfl
  · exact fun entry mem => Or.inr (inFiles entry mem)
  · intro first inFile second inMemory
    exact layered.filesBelow first (inFiles first inFile) second inMemory
  · intro layer isLayer
    rcases mem_append.mp isLayer with before | new
    · exact Or.inl (mem_of_mem_filter before)
    · exact Or.inr (mem_singleton.mp new)

/-- Only a file that the mapping has not is removed. -/
theorem removeFile {genId : Nat} (dead : ∀ file ∈ contents.diskLayers, file.genId ≠ genId) :
    Layered (contents.removeFile genId) := by
  have fewer : ∀ entry ∈ (contents.removeFile genId).fileEntries, entry ∈ contents.fileEntries := by
    intro entry mem
    obtain ⟨file, isFile, inFile⟩ := mem_flatMap.mp mem
    exact mem_flatMap.mpr ⟨file, mem_of_mem_filter isFile, inFile⟩
  refine
    { sorted := layered.sorted
      rising := fun file isFile => layered.rising file (mem_of_mem_filter isFile)
      mapped := ?_
      runsRise := layered.runsRise
      filesBelow := fun first inFiles => layered.filesBelow first (fewer first inFiles)
      numbered := fun entry held =>
        layered.numbered entry (held.imp_right (fewer entry))
      unique := fun first second firstHeld secondHeld =>
        layered.unique first second (firstHeld.imp_right (fewer first))
          (secondHeld.imp_right (fewer second)) }
  intro file isLayer
  exact mem_filter.mpr ⟨layered.mapped file isLayer, by simpa using dead file isLayer⟩

/-- A new manager starts at the highest number on disk. -/
theorem reopen : Layered contents.reopen := by
  have noMemory : contents.reopen.memRuns.flatten = [] := rfl
  have inFiles : ∀ entry, contents.reopen.Holds entry → entry ∈ contents.fileEntries := by
    intro entry held
    rw [DurableContents.Holds, noMemory] at held
    exact held.resolve_left not_mem_nil
  refine
    { sorted := ?_
      rising := layered.rising
      mapped := fun _ isLayer => isLayer
      runsRise := pairwise_singleton _ _
      filesBelow := ?_
      numbered := ?_
      unique := fun first second firstHeld secondHeld =>
        layered.unique first second (Or.inr (inFiles first firstHeld))
          (Or.inr (inFiles second secondHeld)) }
  · intro run mem
    rw [mem_singleton.mp mem]
    exact List.Pairwise.nil
  · intro first _ second inMemory
    rw [noMemory] at inMemory
    exact absurd inMemory not_mem_nil
  · intro entry held
    have isEntry := inFiles entry held
    exact ⟨(layered.numbered entry (Or.inr isEntry)).1,
      Nat.le_trans (le_maxSeqNum isEntry) (Nat.le_max_right _ _)⟩

end

/-- One step keeps the layers sorted and numbered. -/
theorem step {manager : DurableManager Id Form} (layered : Layered manager.contents)
    {event : DurableEvent Id Form} {next : DurableContents Id Form}
    (stepped : ContentStep manager event next) :
    Layered next := by
  cases stepped with
  | save | record => exact layered.addEntry _ _ _ _ _
  | check | begin | rotateEmpty | mergeFails | removalFails => exact layered
  | rotate => exact layered.rotate
  | rotateDry | rotateFails | writeFails | blocked | final =>
    exact layered.ofSame (by simp) rfl rfl rfl
  | write now genId layer rest oldest works => exact layered.writeOldest oldest genId now
  | merge genIds now genId => exact layered.mergeLayers genIds genId now
  | removeFile genId dead => exact layered.removeFile dead
  | reopen => exact layered.reopen

end Layered

namespace DurableSystem

variable {system next : DurableSystem Id Form} {event : DurableEvent Id Form}

/-- The saves are logged in order. -/
theorem step_saves (stepped : system.step event = some next) :
    next.saves = system.saves ++ system.savesOf event := by
  obtain ⟨manager, _, rfl⟩ := Option.map_eq_some_iff.mp stepped
  rfl

theorem step_latestClock (stepped : system.step event = some next) :
    next.latestClock = max system.latestClock (clockOf event) := by
  obtain ⟨manager, _, rfl⟩ := Option.map_eq_some_iff.mp stepped
  rfl

theorem step_contents (stepped : system.step event = some next) :
    ContentStep system.manager event next.manager.contents := by
  obtain ⟨manager, managerStepped, rfl⟩ := Option.map_eq_some_iff.mp stepped
  exact DurableManager.step_contents managerStepped

end DurableSystem

end Contents

end Orly
