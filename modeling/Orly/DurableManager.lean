import Orly.DurableFiles
import Orly.EventRuns

namespace Orly

/-!
# The durable manager

`TDurableManager` keeps the saves of durables in a memory layer.  Its writer rotates that
layer, writes the rotated layers to files, oldest first, and pushes the semaphores of the
savers; when a round fails it keeps the layers and pushes the semaphores all the same.
The merger replaces files of one generation by one file, and the files it has merged are
removed some time later.  A new manager opens on the files that are there.

The steps are the sections under a lock and the writes of one file, in any order the
phases of the writer allow.  `AddMapping` makes the new mapping the current one before it
links the layers, so an error leaves loads with the layers linked so far, while the old
mapping keeps all their files.  Allocations of a mapping outside `FlushCurLayer` are taken
to succeed.
-/

/-- A file of the file map. -/
structure DurableFile (Id Form : Type) where
  genId : Nat
  entries : List (DurableEntry Id Form)
  deriving DecidableEq, Repr

/-- The layers, files and semaphores of a manager. -/
structure DurableContents (Id Form : Type) where
  seqNum : Nat
  curMemoryLayer : List (SlushEntry Id Form)
  /-- The memory layers of the mapping, oldest first. -/
  unflushedLayers : List (List (SlushEntry Id Form))
  /-- The disk layers of the mapping, or of the mappings it was to replace. -/
  diskLayers : List (DurableFile Id Form)
  /-- What the file map lists. -/
  files : List (DurableFile Id Form)
  pushedSems : List Nat

/-- Where the writer fiber stands in `FlushCurLayer`. -/
inductive WriterPhase where
  | idle
  | drainOld (retireWriter : Bool)
  | blocked (retireWriter : Bool)
  | rotating (retireWriter : Bool)
  | drainNew
  deriving DecidableEq, Repr

/-- The manager. -/
structure DurableManager (Id Form : Type) where
  contents : DurableContents Id Form
  nextDurableByIdGenId : Nat
  phase : WriterPhase
  writerRetired : Bool
  writerFailed : Bool
  writerOutOfLayers : Bool
  mergerFailed : Bool
  removalFailed : Bool
  /-- Disk layers that a mapping left half built does not list. -/
  unlinkedLayers : List Nat
  /-- Calls of `TrySaveRecord` that have found no failure. -/
  checkedRecords : List Nat

/-- How `WriteMemLayer` ends. -/
inductive WriteOutcome where
  | written (now : Nat)
  | diskFull
  | poolDry
  | ioError
  deriving DecidableEq, Repr

/-- How the rotation of the memory layer ends.  `AddMapping` fails to allocate the mapping,
or an entry of it once some layers are linked. -/
inductive RotateOutcome where
  | rotated
  | poolDry
  | mappingError (linked : Option Nat)
  deriving DecidableEq, Repr

/-- Push the semaphores of a layer, `ReleaseSavers`. -/
def layerSems {Id Form : Type} (layer : List (SlushEntry Id Form)) : List Nat :=
  layer.filterMap SlushEntry.sem

/-- The layer after `ReleaseSavers`. -/
def releasedLayer {Id Form : Type} (layer : List (SlushEntry Id Form)) :
    List (SlushEntry Id Form) :=
  layer.map fun slush => { slush with sem := none }

namespace DurableContents

variable {Id Form : Type} [LinearOrder Id] (contents : DurableContents Id Form)

/-- The section of `AddEntry` under the data lock.  Once the writer has retired the
semaphore is pushed at once. -/
def addEntry (id : Id) (deadlineCount : Nat) (serializedForm : Form) (sem : Option Nat)
    (signalNow : Bool) :
    DurableContents Id Form :=
  let entry := ⟨id, contents.seqNum + 1, deadlineCount, serializedForm⟩
  { contents with
    seqNum := contents.seqNum + 1
    curMemoryLayer :=
      insertSlush ⟨entry, if signalNow = true then none else sem⟩ contents.curMemoryLayer
    pushedSems := contents.pushedSems ++ (if signalNow = true then sem.toList else []) }

/-- `ReleaseSavers` of the current memory layer. -/
def releaseCurrent : DurableContents Id Form :=
  { contents with
    curMemoryLayer := releasedLayer contents.curMemoryLayer
    pushedSems := contents.pushedSems ++ layerSems contents.curMemoryLayer }

/-- `ReleaseSavers` of all rotated layers. -/
def releaseUnflushed : DurableContents Id Form :=
  { contents with
    unflushedLayers := contents.unflushedLayers.map releasedLayer
    pushedSems := contents.pushedSems ++ layerSems contents.unflushedLayers.flatten }

/-- The current memory layer joins the mapping. -/
def rotate : DurableContents Id Form :=
  { contents with
    unflushedLayers := contents.unflushedLayers ++ [contents.curMemoryLayer]
    curMemoryLayer := [] }

/-- `WriteMemLayer` of the oldest rotated layer. -/
def writeOldest (layer : List (SlushEntry Id Form)) (rest : List (List (SlushEntry Id Form)))
    (genId now : Nat) :
    DurableContents Id Form :=
  { contents with
    unflushedLayers := rest
    diskLayers := contents.diskLayers ++ [⟨genId, writeSortedById now layer⟩]
    files := contents.files ++ [⟨genId, writeSortedById now layer⟩]
    pushedSems := contents.pushedSems ++ layerSems layer }

/-- The disk layers with these generation ids. -/
def takenLayers (genIds : List Nat) : List (DurableFile Id Form) :=
  contents.diskLayers.filter (·.genId ∈ genIds)

/-- The disk layers a merge of these leaves. -/
def otherLayers (genIds : List Nat) : List (DurableFile Id Form) :=
  contents.diskLayers.filter (·.genId ∉ genIds)

/-- A merge of disk layers.  Their files stay in the file map until they are removed. -/
def mergeLayers (genIds : List Nat) (genId now : Nat) : DurableContents Id Form :=
  let merged : DurableFile Id Form :=
    ⟨genId, mergeSortedById now ((contents.takenLayers genIds).map DurableFile.entries)⟩
  { contents with
    diskLayers := contents.otherLayers genIds ++ [merged]
    files := contents.files ++ [merged] }

/-- `~TDiskOrderedLayer` of a layer no mapping lists. -/
def removeFile (genId : Nat) : DurableContents Id Form :=
  { contents with files := contents.files.filter (·.genId ≠ genId) }

/-- The highest sequence number of some files, `FindMaxSeqNum`. -/
def maxSeqNum (files : List (DurableFile Id Form)) : Nat :=
  files.foldl (fun most file => file.entries.foldl (fun most entry => max most entry.seqNum) most) 0

/-- A new manager opens on the files. -/
def reopen : DurableContents Id Form where
  seqNum := max 1 (maxSeqNum contents.files)
  curMemoryLayer := []
  unflushedLayers := []
  diskLayers := contents.files
  files := contents.files
  pushedSems := contents.pushedSems

/-- `TryLoad` up to its last line. -/
def loadCursor (indexing : DurableIndexing Id) (id : Id) : LoadCursor Form :=
  contents.diskLayers.foldl (fun cursor file => durableFindInHash indexing file.entries id cursor)
    (contents.unflushedLayers.foldl (fun cursor layer => slushFindMax id layer cursor)
      (slushFindMax id contents.curMemoryLayer ⟨0, none⟩))

/-- `TryLoad`: the sequence number and the form it has found. -/
def tryLoad (indexing : DurableIndexing Id) (id : Id) : Option (Nat × Form) :=
  let cursor := contents.loadCursor indexing id
  if 0 < cursor.curMaxSeqNum then
    cursor.serializedForm.map fun form => (cursor.curMaxSeqNum, form)
  else
    none

end DurableContents

/-- What happens to a manager. -/
inductive DurableEvent (Id Form : Type) where
  | save (id : Id) (deadlineCount : Nat) (serializedForm : Form) (sem : Option Nat)
  | checkRecord (sem : Nat)
  | addRecord (id : Id) (deadlineCount : Nat) (serializedForm : Form) (sem : Nat)
  | beginRound (retireWriter : Bool)
  | writeLayer (outcome : WriteOutcome)
  | releaseBlocked
  | rotateLayer (outcome : RotateOutcome)
  | finalRelease
  | merge (genIds : List Nat) (now : Nat)
  | mergeFails
  | removeFile (genId : Nat)
  | removalFails
  | reopen

namespace DurableManager

variable {Id Form : Type} [LinearOrder Id]

/-- A manager on an empty disk. -/
def new : DurableManager Id Form where
  contents := ⟨1, [], [], [], [], []⟩
  nextDurableByIdGenId := 1
  phase := .idle
  writerRetired := false
  writerFailed := false
  writerOutOfLayers := false
  mergerFailed := false
  removalFailed := false
  unlinkedLayers := []
  checkedRecords := []

variable (manager : DurableManager Id Form)

/-- `HasFailed`. -/
def hasFailed : Bool :=
  manager.writerFailed || manager.mergerFailed || manager.removalFailed

/-- The disk layers that the current mapping lists. -/
def linkedLayers : List (DurableFile Id Form) :=
  manager.contents.diskLayers.filter (·.genId ∉ manager.unlinkedLayers)

/-- `TryLoad`, over the current mapping. -/
def tryLoad (indexing : DurableIndexing Id) (id : Id) : Option (Nat × Form) :=
  { manager.contents with diskLayers := manager.linkedLayers }.tryLoad indexing id

/-- `WriteUnflushedLayers` has given up. -/
def afterFailedDrain : WriterPhase → WriterPhase
  | .drainOld retireWriter => .blocked retireWriter
  | _ => .idle

/-- `WriteUnflushedLayers` has written every layer. -/
def afterDrain : WriterPhase → WriterPhase
  | .drainOld retireWriter => .rotating retireWriter
  | _ => .idle

/-- One turn of `WriteUnflushedLayers`.  After an I/O error it only releases the savers. -/
def writeUnflushed (outcome : WriteOutcome) : Option (DurableManager Id Form) :=
  match manager.contents.unflushedLayers with
  | [] => none
  | layer :: rest =>
    if manager.writerFailed = true then
      some { manager with
        contents := manager.contents.releaseUnflushed
        phase := afterFailedDrain manager.phase }
    else
      let tried :=
        { manager with nextDurableByIdGenId := manager.nextDurableByIdGenId + 1 }
      match outcome with
      | .written now =>
        some { tried with
          contents :=
            manager.contents.writeOldest layer rest tried.nextDurableByIdGenId now
          phase := if rest = [] then afterDrain manager.phase else manager.phase
          writerOutOfLayers := if rest = [] then false else manager.writerOutOfLayers }
      | .diskFull =>
        some { tried with
          contents := manager.contents.releaseUnflushed
          phase := afterFailedDrain manager.phase }
      | .poolDry =>
        some { tried with
          contents := manager.contents.releaseUnflushed
          phase := afterFailedDrain manager.phase
          writerOutOfLayers := true }
      | .ioError =>
        some { tried with
          contents := manager.contents.releaseUnflushed
          phase := afterFailedDrain manager.phase
          writerFailed := true }

/-- The section of `FlushCurLayer` that rotates the memory layer.  An error of
`AddMapping` ends in `FailWriter`. -/
def rotateSection (retireWriter : Bool) (outcome : RotateOutcome) : DurableManager Id Form :=
  let retired :=
    { manager with
      writerRetired := manager.writerRetired || retireWriter
      phase := .idle }
  if manager.contents.curMemoryLayer = [] then
    retired
  else
    match outcome with
    | .rotated => { retired with contents := manager.contents.rotate, phase := .drainNew }
    | .poolDry =>
      { retired with contents := manager.contents.releaseCurrent, writerOutOfLayers := true }
    | .mappingError linked =>
      let lost := linked.elim [] manager.linkedLayers.drop
      { retired with
        contents := manager.contents.releaseUnflushed.releaseCurrent
        unlinkedLayers := manager.unlinkedLayers ++ lost.map DurableFile.genId
        writerFailed := true }

/-- One step of a manager, unless it cannot happen now. -/
def step : DurableEvent Id Form → Option (DurableManager Id Form)
  | .save id deadlineCount serializedForm sem =>
    some { manager with
      contents :=
        manager.contents.addEntry id deadlineCount serializedForm sem manager.writerRetired }
  | .checkRecord sem =>
    if manager.hasFailed = true then
      none
    else
      some { manager with checkedRecords := sem :: manager.checkedRecords }
  | .addRecord id deadlineCount serializedForm sem =>
    if sem ∈ manager.checkedRecords ∧ manager.writerRetired = false then
      some { manager with
        contents :=
          manager.contents.addEntry id deadlineCount serializedForm (some sem) false
        checkedRecords := manager.checkedRecords.erase sem }
    else
      none
  | .beginRound retireWriter =>
    if manager.phase = .idle then
      some { manager with
        phase :=
          if manager.contents.unflushedLayers = [] then .rotating retireWriter
          else .drainOld retireWriter }
    else
      none
  | .writeLayer outcome =>
    match manager.phase with
    | .drainOld _ => manager.writeUnflushed outcome
    | .drainNew => manager.writeUnflushed outcome
    | _ => none
  | .releaseBlocked =>
    match manager.phase with
    | .blocked retireWriter =>
      some { manager with
        contents := manager.contents.releaseCurrent
        writerRetired := manager.writerRetired || retireWriter
        phase := .idle }
    | _ => none
  | .rotateLayer outcome =>
    match manager.phase with
    | .rotating retireWriter => some (manager.rotateSection retireWriter outcome)
    | _ => none
  | .finalRelease =>
    if manager.phase = .idle ∧
        (manager.contents.unflushedLayers ≠ [] ∨ manager.writerOutOfLayers = true ∨
          manager.writerFailed = true) then
      some { manager with
        contents := manager.contents.releaseUnflushed.releaseCurrent
        writerRetired := true }
    else
      none
  | .merge genIds now =>
    if manager.mergerFailed = false ∧ 3 ≤ (manager.contents.takenLayers genIds).length ∧
        ∀ first ∈ manager.contents.takenLayers genIds,
          ∀ second ∈ manager.contents.takenLayers genIds, suggestGeneration first.entries.length =
              suggestGeneration second.entries.length then
      some { manager with
        contents :=
          manager.contents.mergeLayers genIds (manager.nextDurableByIdGenId + 1) now
        nextDurableByIdGenId := manager.nextDurableByIdGenId + 1 }
    else
      none
  | .mergeFails => some { manager with mergerFailed := true }
  | .removeFile genId =>
    if ∀ file ∈ manager.contents.diskLayers, file.genId ≠ genId then
      some { manager with contents := manager.contents.removeFile genId }
    else
      none
  | .removalFails => some { manager with removalFailed := true }
  | .reopen =>
    some { (new : DurableManager Id Form) with
      contents := manager.contents.reopen
      nextDurableByIdGenId :=
        (manager.contents.files.foldl (fun most file => max most file.genId) 0) + 1 }

/-- The entries whose savers a step releases without their layer being written. -/
def releasedUnwritten : DurableEvent Id Form → List (SlushEntry Id Form)
  | .writeLayer (.written _) =>
    if manager.writerFailed = true then manager.contents.unflushedLayers.flatten else []
  | .writeLayer _ => manager.contents.unflushedLayers.flatten
  | .releaseBlocked => manager.contents.curMemoryLayer
  | .rotateLayer .rotated => []
  | .rotateLayer .poolDry => manager.contents.curMemoryLayer
  | .rotateLayer (.mappingError _) =>
    if manager.contents.curMemoryLayer = [] then []
    else manager.contents.unflushedLayers.flatten ++ manager.contents.curMemoryLayer
  | .finalRelease =>
    manager.contents.unflushedLayers.flatten ++ manager.contents.curMemoryLayer
  | _ => []

end DurableManager

/-- A save as its caller sees it. -/
structure DurableSave (Id Form : Type) where
  entry : DurableEntry Id Form
  sem : Option Nat
  record : Bool
  deriving DecidableEq, Repr

/-- A manager with the log of all saves, oldest first, the latest clock a file was written
at, and the number of saves before the manager opened. -/
structure DurableSystem (Id Form : Type) where
  manager : DurableManager Id Form
  saves : List (DurableSave Id Form)
  latestClock : Nat
  epochStart : Nat

namespace DurableSystem

variable {Id Form : Type} [LinearOrder Id]

def new : DurableSystem Id Form := ⟨.new, [], 0, 0⟩

variable (system : DurableSystem Id Form)

/-- The saves a step adds to the log. -/
def savesOf : DurableEvent Id Form → List (DurableSave Id Form)
  | .save id deadlineCount serializedForm sem =>
    [⟨⟨id, system.manager.contents.seqNum + 1, deadlineCount, serializedForm⟩, sem, false⟩]
  | .addRecord id deadlineCount serializedForm sem =>
    [⟨⟨id, system.manager.contents.seqNum + 1, deadlineCount, serializedForm⟩, some sem, true⟩]
  | _ => []

/-- The clock of a step that writes a file. -/
def clockOf : DurableEvent Id Form → Nat
  | .writeLayer (.written now) => now
  | .merge _ now => now
  | _ => 0

/-- One step of the manager, with the log. -/
def step (event : DurableEvent Id Form) : Option (DurableSystem Id Form) :=
  (system.manager.step event).map fun manager =>
    { manager := manager
      saves := system.saves ++ system.savesOf event
      latestClock := max system.latestClock (clockOf event)
      epochStart := match event with
        | .reopen => system.saves.length
        | _ => system.epochStart }

/-- Every save brings a semaphore of its own. -/
def SemFresh : DurableEvent Id Form → Prop
  | .save _ _ _ (some sem) => ∀ save ∈ system.saves, save.sem ≠ some sem
  | .addRecord _ _ _ sem => ∀ save ∈ system.saves, save.sem ≠ some sem
  | _ => True

end DurableSystem

end Orly
