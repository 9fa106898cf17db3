import Orly.EventRuns
import Orly.TailMergeReads

namespace Orly

/-!
# The data files of a root repo

A root repo flushes its memory layers to data files and merges runs of adjacent files in
the background.  A merge writes its output to the file map, may fold it into another file
of the same range, publishes the result in the mapping, and only then are its inputs
removed; a crash at any point leaves some of these files next to each other.
`TSafeRepo::ReConstructFromDisk` tells from the sequence ranges alone which to keep.
A merge that keeps an entry is taken to write its file.
-/

/-! ## The fold of a file -/

section Fold

variable {κ α : Type} [DecidableEq α]

/-- The fold of one key's entries, newest first, with or without a retention window. -/
def foldEntries (retainFrom : Option Nat) (entries : List (FoldEntry α)) :
    Except RuntimeError (List (FoldEntry α)) :=
  match retainFrom with
  | some retainFrom => (·.map Prod.fst) <$> foldOneKeyRetaining entries retainFrom
  | none => foldOneKey entries

/-- The keys a fold writes; a key of which nothing is left is not written. -/
def foldKeys (retainFrom : Option Nat) :
    List (FileKey κ α) → Except RuntimeError (List (FileKey κ α))
  | [] => .ok []
  | fileKey :: keys => do
      let folded ← foldEntries retainFrom
        (fileKey.entries.mergeSort fun newer older => older.seqNum ≤ newer.seqNum)
      let rest ← foldKeys retainFrom keys
      match folded with
      | [] => return rest
      | current :: history => return ⟨fileKey.key, current, history⟩ :: rest

/-- `TFoldDataFile`: the output records the range of its source. -/
def foldDataFile (retainFrom : Option Nat) (file : DataFile κ α) :
    Except RuntimeError (DataFile κ α) := do
  let keys ← foldKeys retainFrom file.keys
  return { file with keys := keys }

end Fold

/-! ## Dropping what a merge left behind -/

/-- A file of the file map (`TFileObj`). -/
structure DiskFile (κ α : Type) where
  genId : Nat
  file : DataFile κ α

namespace DiskFile

variable {κ α : Type}

/-- One range lies inside another. -/
def Inside (file that : DiskFile κ α) : Prop :=
  that.file.lowestSeq ≤ file.file.lowestSeq ∧ file.file.highestSeq ≤ that.file.highestSeq

/-- Two ranges have a sequence number in common. -/
def Overlaps (file that : DiskFile κ α) : Prop :=
  file.file.lowestSeq ≤ that.file.highestSeq ∧ that.file.lowestSeq ≤ file.file.highestSeq

/-- `file` is what a merge left behind that wrote `that`. -/
def LeftBehind (file that : DiskFile κ α) : Prop :=
  file.genId ≠ that.genId ∧
    (file.Inside that ∨ file.Overlaps that ∧ ¬ that.Inside file ∧ file.genId < that.genId)

instance (file that : DiskFile κ α) : Decidable (file.Inside that) :=
  inferInstanceAs (Decidable (_ ∧ _))

instance (file that : DiskFile κ α) : Decidable (file.Overlaps that) :=
  inferInstanceAs (Decidable (_ ∧ _))

instance (file that : DiskFile κ α) : Decidable (file.LeftBehind that) :=
  inferInstanceAs (Decidable (_ ∧ _))

/-- A sequence number in the range of a file. -/
def Covers (file : DiskFile κ α) (seq : Nat) : Prop :=
  file.file.lowestSeq ≤ seq ∧ seq ≤ file.file.highestSeq

end DiskFile

/-- Some file of the vector wrote over this one. -/
def leftBehindIn {κ α : Type} (fileVec : List (DiskFile κ α)) (file : DiskFile κ α) : Bool :=
  fileVec.any fun that => decide (file.LeftBehind that)

/-- The loop of `ReConstructFromDisk`: each turn erases the first file left behind. -/
def dropLeftovers {κ α : Type} (fileVec : List (DiskFile κ α)) : List (DiskFile κ α) :=
  if fileVec.any (leftBehindIn fileVec) then
    dropLeftovers (fileVec.eraseP (leftBehindIn fileVec))
  else fileVec
termination_by fileVec.length
decreasing_by
  obtain ⟨file, mem, isLeft⟩ := List.any_eq_true.mp ‹_›
  have erased := List.length_eraseP_of_mem mem isLeft
  have := List.length_pos_of_mem mem
  omega

/-! ## The repo -/

/--
A stretch of the mapping: one layer that is not taken, or the layers a merge in flight has
marked taken, with the files it has written for them so far.
-/
structure Segment (κ α : Type) where
  inputs : List (DiskFile κ α)
  outputs : List (DiskFile κ α)
  retainFrom : Option Nat

/-- A layer that no merge has taken. -/
def Segment.idle {κ α : Type} (layer : DiskFile κ α) : Segment κ α where
  inputs := [layer]
  outputs := []
  retainFrom := none

/--
The data files of a repo.  `horizon` is what the merges made so far raise the history
horizon to.  `flushed`, newest first, is no state of the program: it remembers the files
as the flushes wrote them.
-/
structure RepoFiles (κ α : Type) where
  files : List (DiskFile κ α)
  segments : List (Segment κ α)
  nextGenId : Nat
  horizon : Nat
  reloading : Bool
  flushed : List (DataFile κ α)

/-- A step of the repo's background work, or a crash. -/
inductive FilesEvent (κ α : Type) where
  /-- A memory layer is written to a data file. -/
  | flush (file : DataFile κ α)
  /-- `MergeFiles`, up to the merged file. -/
  | mergeFiles (start count : Nat) (canTail canTailTombstone : Bool) (retainFrom : Option Nat)
  /-- The fold of the file a merge wrote. -/
  | foldMerged (index : Nat)
  /-- `PublishDiskMerge`. -/
  | publish (index : Nat)
  /-- `DiscardDiskMerge`, or the end of a merge that failed. -/
  | discard (index : Nat)
  /-- `RemoveFile`, for a file that no layer and no merge needs. -/
  | remove (genId : Nat)
  /-- A crash, after which `ReConstructFromDisk` finds the files in this order. -/
  | crash (fileVec : List (DiskFile κ α))
  /-- The leftovers are removed and the repo is open again. -/
  | opened

namespace RepoFiles

variable {κ α : Type}

/-- A new repo. -/
def empty : RepoFiles κ α where
  files := []
  segments := []
  nextGenId := 1
  horizon := 0
  reloading := false
  flushed := []

/-- The files of the mapping, oldest first. -/
def layers (repo : RepoFiles κ α) : List (DiskFile κ α) :=
  repo.segments.flatMap (·.inputs)

/-- The version a merge raises the horizon to (`horizon_after`). -/
def horizonAfter (retainFrom : Option Nat) (high : Nat) : Nat :=
  match retainFrom with
  | some retainFrom => min retainFrom high
  | none => high

/-- A file that no layer and no merge needs: an input of a published merge, or a merged
file that has been folded. -/
def isRemovable (repo : RepoFiles κ α) (genId : Nat) : Bool :=
  repo.segments.all fun segment =>
    segment.inputs.all (·.genId != genId) && segment.outputs.getLast?.all (·.genId != genId)

/-- The mapping a reload builds. -/
def loadedSegments (kept : List (DiskFile κ α)) : List (Segment κ α) :=
  (kept.mergeSort fun left right => left.file.lowestSeq ≤ right.file.lowestSeq).map Segment.idle

variable [LinearOrder κ] [DecidableEq α]

/-- One step. -/
def step (repo : RepoFiles κ α) : FilesEvent κ α → Option (RepoFiles κ α)
  | .flush file =>
    if repo.reloading then none
    else
      let written : DiskFile κ α := ⟨repo.nextGenId, file⟩
      some { repo with
        files := repo.files ++ [written]
        segments := repo.segments ++ [.idle written]
        nextGenId := repo.nextGenId + 1
        flushed := file :: repo.flushed }
  | .mergeFiles start count canTail canTailTombstone retainFrom =>
    let run := (repo.segments.drop start).take count
    let inputs := run.flatMap (·.inputs)
    let sources := inputs.map (·.file)
    if repo.reloading || run.isEmpty || !run.all (·.outputs.isEmpty) ||
        (canTailTombstone && start != 0) then none
    else
      (mergeIndexes (mergeFlags false canTail canTailTombstone retainFrom sources)
          sources).map fun file =>
        { repo with
          files := repo.files ++ [⟨repo.nextGenId, file⟩]
          segments := repo.segments.take start ++
            ⟨inputs, [⟨repo.nextGenId, file⟩], retainFrom⟩ ::
              (repo.segments.drop start).drop count
          nextGenId := repo.nextGenId + 1
          horizon :=
            if canTail then max repo.horizon (horizonAfter retainFrom file.highestSeq)
            else repo.horizon }
  | .foldMerged index =>
    match repo.segments[index]? with
    | some ⟨inputs, [merged], retainFrom⟩ =>
      if repo.reloading then none
      else
        (foldDataFile retainFrom merged.file).toOption.map fun file =>
          { repo with
            files := repo.files ++ [⟨repo.nextGenId, file⟩]
            segments := repo.segments.set index
              ⟨inputs, [merged, ⟨repo.nextGenId, file⟩], retainFrom⟩
            nextGenId := repo.nextGenId + 1
            horizon := max repo.horizon (horizonAfter retainFrom file.highestSeq) }
    | _ => none
  | .publish index =>
    match repo.segments[index]? with
    | some segment =>
      segment.outputs.getLast?.map fun output =>
        { repo with segments := repo.segments.set index (.idle output) }
    | none => none
  | .discard index =>
    match repo.segments[index]? with
    | some ⟨inputs, [output], _⟩ =>
      some { repo with
        files := repo.files.filter (·.genId != output.genId)
        segments := repo.segments.take index ++ inputs.map .idle ++
          repo.segments.drop (index + 1) }
    | _ => none
  | .remove genId =>
    if repo.isRemovable genId then
      some { repo with
        files := repo.files.filter (·.genId != genId)
        segments := repo.segments.map fun segment =>
          { segment with outputs := segment.outputs.filter (·.genId != genId) } }
    else none
  | .crash fileVec =>
    let kept := dropLeftovers fileVec
    some { repo with
      segments := loadedSegments kept
      nextGenId := (kept.map (·.genId)).foldl max 0 + 1
      reloading := true }
  | .opened =>
    if repo.files.all fun file => repo.layers.any (·.genId == file.genId) then
      some { repo with reloading := false }
    else none

/-- What the environment gives: a flushed file is well formed and newer than all that was
flushed before, and a crash leaves the files in some order. -/
def Allowed (repo : RepoFiles κ α) : FilesEvent κ α → Prop
  | .flush file =>
    file.WellFormed ∧ ∀ older ∈ repo.flushed, older.highestSeq < file.lowestSeq
  | .crash fileVec => fileVec.Perm repo.files
  | _ => True

end RepoFiles

end Orly
