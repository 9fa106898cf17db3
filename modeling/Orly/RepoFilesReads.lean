import Orly.KeyDiscipline
import Orly.RepoFilesLaws

namespace Orly

/-!
# Reading after a reload

Every file on disk stands for what was flushed in its range: from the horizon on, a read
cannot tell the file from the flushed files it has replaced.  So any choice of files whose
ranges are apart and cover all that was flushed reads the same, in particular the mapping
before a crash and the files a reload keeps.
-/

open List

variable {κ α : Type} [LinearOrder κ] [DecidableEq α]

namespace Discipline

/-- What the discipline asks of a step. -/
def Obeyed (discipline : Discipline) (key : κ) (repo : RepoFiles κ α) : FilesEvent κ α → Prop
  | .flush file => ∀ entry ∈ entriesOf file.keys key, discipline.Admits entry
  | .foldMerged index =>
    ∀ segment ∈ repo.segments[index]?, ∀ merged ∈ segment.outputs,
      discipline.MayFold (entriesOf merged.file.keys key)
  | _ => True

end Discipline

open Discipline

/-! ## What a file stands for -/

section Stands

variable {flushed : List (DataFile κ α)} {file source out : DataFile κ α} {key : κ}
  {discipline : Discipline} {horizon : Nat}

/-- A flushed file lies in the range of another. -/
def DataFile.Holds (file flushedFile : DataFile κ α) : Prop :=
  file.lowestSeq ≤ flushedFile.lowestSeq ∧ flushedFile.highestSeq ≤ file.highestSeq

instance (file flushedFile : DataFile κ α) : Decidable (file.Holds flushedFile) :=
  inferInstanceAs (Decidable (_ ∧ _))

/-- The flushed entries of a key in the range of a file, newest first. -/
def flushedIn (flushed : List (DataFile κ α)) (file : DataFile κ α) (key : κ) :
    List (FoldEntry α) :=
  (flushed.filter (file.Holds ·)).flatMap fun flushedFile => entriesOf flushedFile.keys key

/-- Nothing was flushed below a file. -/
def Lowest (flushed : List (DataFile κ α)) (file : DataFile κ α) : Prop :=
  ∀ older ∈ flushed, file.lowestSeq ≤ older.highestSeq

/-- From the horizon on, a file reads as what was flushed in its range. -/
structure Stands (discipline : Discipline) (key : κ) (flushed : List (DataFile κ α))
    (horizon : Nat) (file : DataFile κ α) : Prop where
  admits : ∀ entry ∈ entriesOf file.keys key, discipline.Admits entry
  keeps : ∀ version, horizon ≤ version → ∀ below : List (FoldEntry α),
    (∀ entry ∈ below, discipline.Admits entry) → (Lowest flushed file → below = []) →
      discipline.Keeps key (seenAt version (flushedIn flushed file key) ++ below)
        (seenAt version (entriesOf file.keys key) ++ below)

theorem Stands.raise {higher : Nat} (stands : Stands discipline key flushed horizon file)
    (raised : horizon ≤ higher) :
    Stands discipline key flushed higher file :=
  ⟨stands.admits, fun version above => stands.keeps version (raised.trans above)⟩

variable {files : List (DataFile κ α)} {version : Nat} {flags : MergeFlags}

omit [LinearOrder κ] [DecidableEq α] in
/-- What the newest of some files holds was flushed last. -/
theorem flushed_parted
    {newest : DataFile κ α} (newestAbove : ∀ older ∈ files, older.highestSeq < newest.lowestSeq)
    (flushedOrder : flushed.Pairwise fun newer older => older.highestSeq < newer.lowestSeq)
    (ranges : ∀ flushedFile ∈ flushed, flushedFile.lowestSeq ≤ flushedFile.highestSeq)
    (held : ∀ flushedFile ∈ flushed, ∃ file ∈ newest :: files, file.Holds flushedFile) :
    flushed =
      flushed.filter (newest.Holds ·) ++ flushed.filter fun other => !newest.Holds other := by
  induction flushed with
  | nil => rfl
  | cons first rest ih =>
    obtain ⟨firstAbove, tailOrder⟩ := pairwise_cons.mp flushedOrder
    obtain ⟨firstRange, tailRanges⟩ := forall_mem_cons.mp ranges
    obtain ⟨firstHeld, tailHeld⟩ := forall_mem_cons.mp held
    have parted := ih tailOrder tailRanges tailHeld
    by_cases inNewest : newest.Holds first
    · simpa [inNewest] using parted
    · obtain ⟨file, mem, holds⟩ := firstHeld
      have inOlder : file ∈ files :=
        (mem_cons.mp mem).resolve_left fun same => inNewest (same ▸ holds)
      have isBelow := newestAbove file inOlder
      have noneAfter : ∀ other ∈ first :: rest, ¬ newest.Holds other := by
        intro other inRest otherHeld
        rcases mem_cons.mp inRest with rfl | isAfter
        · exact inNewest otherHeld
        · have above := firstAbove other isAfter
          have otherRange := tailRanges other isAfter
          have firstHigh := holds.2
          have otherLow := otherHeld.1
          omega
      have nothing : (first :: rest).filter (newest.Holds ·) = [] :=
        filter_eq_nil_iff.mpr fun other mem => by
          simpa using noneAfter other mem
      have everything : ((first :: rest).filter fun other => !newest.Holds other) = first :: rest :=
        filter_eq_self.mpr fun other mem => by
          simpa using noneAfter other mem
      rw [nothing, everything, nil_append]

omit [LinearOrder κ] [DecidableEq α] in
/-- Flushed files newest first, each inside one of some files newest first, are what these
files hold, one after the other. -/
theorem flushed_eq_flatMap
    (filesOrder : files.Pairwise fun newer older => older.highestSeq < newer.lowestSeq)
    (flushedOrder : flushed.Pairwise fun newer older => older.highestSeq < newer.lowestSeq)
    (ranges : ∀ flushedFile ∈ flushed, flushedFile.lowestSeq ≤ flushedFile.highestSeq)
    (held : ∀ flushedFile ∈ flushed, ∃ file ∈ files, file.Holds flushedFile) :
    flushed = files.flatMap fun file => flushed.filter (file.Holds ·) := by
  induction files generalizing flushed with
  | nil =>
    cases flushed with
    | nil => rfl
    | cons first rest =>
      obtain ⟨file, mem, _⟩ := held first mem_cons_self
      exact absurd mem not_mem_nil
  | cons newest files ih =>
    obtain ⟨newestAbove, restOrder⟩ := pairwise_cons.mp filesOrder
    have parted := flushed_parted newestAbove flushedOrder ranges held
    have older := ih restOrder (flushedOrder.filter fun other => !newest.Holds other)
      (fun other mem => ranges other (mem_of_mem_filter mem))
      (by
        intro other mem
        obtain ⟨isFlushed, notNewest⟩ := mem_filter.mp mem
        obtain ⟨file, inFiles, holds⟩ := held other isFlushed
        have notHeld : ¬ newest.Holds other := by simpa using notNewest
        exact ⟨file, (mem_cons.mp inFiles).resolve_left fun same =>
          notHeld (same ▸ holds), holds⟩)
    have sameHeld : ∀ file ∈ files,
        ((flushed.filter fun other => !newest.Holds other).filter (file.Holds ·)) =
          flushed.filter (file.Holds ·) := by
      intro file mem
      rw [filter_filter]
      refine filter_congr fun other isFlushed => ?_
      by_cases holds : file.Holds other
      · have isBelow := newestAbove file mem
        have otherRange := ranges other isFlushed
        have notNewest : ¬ newest.Holds other := by
          intro inNewest
          have := holds.2
          have := inNewest.1
          omega
        simp [holds, notNewest]
      · simp [holds]
    rw [flatMap_cons, ← flatMap_congr sameHeld, ← older]
    exact parted

/-- Files apart that stand for what was flushed in their ranges read as all of it. -/
theorem stands_chain
    (filesOrder : files.Pairwise fun newer older => older.highestSeq < newer.lowestSeq)
    (aligned : ∀ file ∈ files, ∃ flushedFile ∈ flushed, flushedFile.highestSeq = file.highestSeq)
    (flushedAdmitted : ∀ flushedFile ∈ flushed, ∀ entry ∈ entriesOf flushedFile.keys key,
      discipline.Admits entry) (stand : ∀ file ∈ files, Stands discipline key flushed horizon file)
    (fromHorizon : horizon ≤ version) {below : List (FoldEntry α)}
    (belowAdmitted : ∀ entry ∈ below, discipline.Admits entry)
    (lowest : ∀ file ∈ files.getLast?, Lowest flushed file → below = []) :
    discipline.Keeps key
      (seenAt version (files.flatMap fun file => flushedIn flushed file key) ++ below)
      (seenAt version (files.flatMap fun file => entriesOf file.keys key) ++ below) := by
  induction files with
  | nil => exact Keeps.refl _ _ _
  | cons newest files ih =>
    obtain ⟨newestAbove, restOrder⟩ := pairwise_cons.mp filesOrder
    obtain ⟨_, restAligned⟩ := forall_mem_cons.mp aligned
    obtain ⟨newestStands, restStand⟩ := forall_mem_cons.mp stand
    have flushedInAdmitted : ∀ entry ∈ flushedIn flushed newest key, discipline.Admits entry := by
      intro entry mem
      obtain ⟨flushedFile, isHeld, isEntry⟩ := mem_flatMap.mp mem
      exact flushedAdmitted flushedFile (mem_of_mem_filter isHeld) entry isEntry
    have restLowest : ∀ file ∈ files.getLast?, Lowest flushed file → below = [] := by
      intro file isLast
      refine lowest file ?_
      cases files with
      | nil => exact nomatch isLast
      | cons next others => simpa using isLast
    have rest := ih restOrder restAligned restStand restLowest
    rw [flatMap_cons, flatMap_cons, seenAt_append, seenAt_append, append_assoc, append_assoc]
    refine (rest.append (admits_seenAt flushedInAdmitted version)).trans ?_
    refine newestStands.keeps version fromHorizon _ ?_ ?_
    · intro entry mem
      rcases mem_append.mp mem with inRest | inBelow
      · obtain ⟨file, inFiles, isEntry⟩ := mem_flatMap.mp (mem_of_mem_filter inRest)
        exact (restStand file inFiles).admits entry isEntry
      · exact belowAdmitted entry inBelow
    · intro isLowest
      cases files with
      | nil =>
        rw [lowest newest rfl isLowest]
        rfl
      | cons next others =>
        obtain ⟨flushedFile, isFlushed, highest⟩ := restAligned next mem_cons_self
        have isBelow := newestAbove next mem_cons_self
        have notBelow := isLowest flushedFile isFlushed
        omega

/-! ### What the steps write -/

/-- What a fresh flush stands for. -/
theorem stands_flush (newest : ∀ older ∈ flushed, older.highestSeq < file.lowestSeq)
    (ranges : ∀ older ∈ flushed, older.lowestSeq ≤ older.highestSeq)
    (admits : ∀ entry ∈ entriesOf file.keys key, discipline.Admits entry) (horizon : Nat) :
    Stands discipline key (file :: flushed) horizon file := by
  have onlyItself : flushedIn (file :: flushed) file key = entriesOf file.keys key := by
    have others : flushed.filter (file.Holds ·) = [] := by
      refine filter_eq_nil_iff.mpr fun older mem => ?_
      have below := newest older mem
      have olderRange := ranges older mem
      have notHeld : ¬ file.Holds older := by
        intro holds
        have := holds.1
        omega
      simpa using notHeld
    have itself : file.Holds file := ⟨le_rfl, le_rfl⟩
    simp [flushedIn, itself, others]
  refine ⟨admits, fun version _ below _ _ => ?_⟩
  rw [onlyItself]
  exact Keeps.refl _ _ _

/-- A flush above a file does not change what the file stands for. -/
theorem Stands.above_flush
    {flushedFile : DataFile κ α} (stands : Stands discipline key flushed horizon file)
    (range : file.lowestSeq ≤ file.highestSeq)
    (flushedRange : flushedFile.lowestSeq ≤ flushedFile.highestSeq)
    (above : file.highestSeq < flushedFile.lowestSeq) :
    Stands discipline key (flushedFile :: flushed) horizon file := by
  have notHeld : ¬ file.Holds flushedFile := by
    intro holds
    have := holds.2
    omega
  have same : flushedIn (flushedFile :: flushed) file key = flushedIn flushed file key := by
    simp [flushedIn, notHeld]
  refine ⟨stands.admits, fun version fromHorizon below belowAdmitted lowest => ?_⟩
  rw [same]
  refine stands.keeps version fromHorizon below belowAdmitted fun isLowest => lowest ?_
  exact forall_mem_cons.mpr ⟨by omega, isLowest⟩

/-- A fold that the discipline allows stands for what its source stands for. -/
theorem Stands.fold
    (disciplined : discipline.WellFormed) (stands : Stands discipline key flushed horizon file)
    (wellFormed : file.WellFormed) (mayFold : discipline.MayFold (entriesOf file.keys key))
    {retainFrom : Option Nat} (folded : foldDataFile retainFrom file = .ok out) {raised : Nat}
    (above : horizon ≤ raised)
    (aboveFold : RepoFiles.horizonAfter retainFrom out.highestSeq ≤ raised) :
    Stands discipline key flushed raised out := by
  obtain ⟨lowest, highest, _, entries⟩ := foldDataFile_entriesOf wellFormed folded
  have sameHeld : flushedIn flushed out key = flushedIn flushed file key := by
    unfold flushedIn
    congr 1
    refine filter_congr fun other _ => decide_eq_decide.mpr ?_
    rw [DataFile.Holds, lowest, highest]
    rfl
  obtain ⟨newest, inRange⟩ := wellFormed.entriesOf key
  refine ⟨foldEntries_admits disciplined stands.admits (entries key),
    fun version fromHorizon below belowAdmitted isLowest => ?_⟩
  rw [sameHeld]
  refine (stands.keeps version (above.trans fromHorizon) below belowAdmitted
    fun lowestFile => isLowest ?_).trans ?_
  · intro older mem
    rw [lowest]
    exact lowestFile older mem
  · exact foldEntries_keeps disciplined key newest stands.admits mayFold (entries key)
      (fun entry mem => (inRange entry mem).2)
      (highest ▸ aboveFold.trans fromHorizon) belowAdmitted

/-- What a merge sees from its horizon on: all versions, or those of its window. -/
theorem exists_window
    {high : Nat} (fromHorizon : RepoFiles.horizonAfter flags.retainFrom high ≤ version) :
    ∃ sees, flags.Window sees ∧ ∀ seq ≤ high, sees seq = decide (seq ≤ version) := by
  cases retained : flags.retainFrom with
  | none =>
    rw [retained] at fromHorizon
    have above : high ≤ version := fromHorizon
    exact ⟨fun _ => true, .inl fun _ => rfl, fun seq inRange => by
      simpa using inRange.trans above⟩
  | some retainFrom =>
    rw [retained] at fromHorizon
    have above : retainFrom ≤ version ∨ high ≤ version := by
      simpa [RepoFiles.horizonAfter] using fromHorizon
    rcases above with window | above
    · exact ⟨fun seq => decide (seq ≤ version), .inr ⟨retainFrom, retained,
        fun seq below => by simpa using below.trans window⟩, fun _ _ => rfl⟩
    · exact ⟨fun _ => true, .inl fun _ => rfl, fun seq inRange => by
        simpa using inRange.trans above⟩

omit [DecidableEq α] in
/-- Without tailing a merge keeps everything. -/
theorem keptIn_of_not_canTail
    (keepsAll : flags.canTail = false) (keeper : List Nat) (file : DataFile κ α) (key : κ) :
    flags.keptIn keeper file key = entriesOf file.keys key := by
  unfold MergeFlags.keptIn entriesOf
  cases file.keys.find? (·.key = key) with
  | none => rfl
  | some fileKey =>
    simp [MergeFlags.keptOf, MergeFlags.dropsKey, MergeFlags.keptHistory, keepsAll, FileKey.entries]

/-- A merge reads from its horizon on as its sources, the newest first. -/
theorem mergeIndexes_keeps
    {sources : List (DataFile κ α)} (wellFormed : ∀ source ∈ sources, source.WellFormed)
    (disjoint : sources.Pairwise DataFile.Disjoint)
    (single : flags.canTailTombstones = true → sources.length ≤ 1)
    (merged : mergeIndexes flags sources = some out) (fromHorizon : flags.canTail = true →
      RepoFiles.horizonAfter flags.retainFrom out.highestSeq ≤ version)
    {below : List (FoldEntry α)} (lowest : flags.canTailTombstones = true → below = []) :
    discipline.Keeps key
      (seenAt version ((newestFiles sources).flatMap fun source =>
        entriesOf source.keys key) ++ below)
      (seenAt version (entriesOf out.keys key) ++ below) := by
  have perm := newestFiles_perm sources
  rw [(mergeIndexes_keys wellFormed disjoint merged).2 key]
  cases tails : flags.canTail with
  | false =>
    simp only [keptIn_of_not_canTail tails]
    exact Keeps.refl _ _ _
  | true =>
    obtain ⟨sees, window, sameSeen⟩ := exists_window (fromHorizon tails)
    have hull := mergeIndexes_hull wellFormed merged
    have inRange : ∀ source ∈ newestFiles sources, ∀ entry ∈ entriesOf source.keys key,
        entry.seqNum ≤ out.highestSeq := by
      intro source mem entry isEntry
      have isSource := perm.mem_iff.mp mem
      exact (((wellFormed source isSource).entriesOf key).2 entry isEntry).2.trans
        (hull.highest source isSource)
    have asSeen : ∀ part : DataFile κ α → List (FoldEntry α),
        (∀ source, (part source).Sublist (entriesOf source.keys key)) →
        (seenAt version ((newestFiles sources).flatMap part)).map (FoldEntry.toItem key) =
          seenItems sees key ((newestFiles sources).flatMap part) := by
      intro part isPart
      rw [seenItems, seenAt]
      congr 1
      refine filter_congr fun entry mem => ?_
      obtain ⟨source, isSource, inPart⟩ := mem_flatMap.mp mem
      exact (sameSeen _ (inRange source isSource entry ((isPart source).subset inPart))).symm
    have nothingBelow : flags.canTailTombstones = true →
        ∀ item ∈ below.map (FoldEntry.toItem key), item.key ≠ key := by
      intro tailed item mem
      rw [lowest tailed] at mem
      exact absurd mem not_mem_nil
    have same := merge_sameBelow key (fun source mem => wellFormed source (perm.mem_iff.mp mem))
      (fun source mem fileKey inKeys =>
        keptSeqs_subset (perm.mem_iff.mp mem) inKeys)
      window (fun tailed => perm.length_eq ▸ single tailed) nothingBelow
    refine (keeps_of_sameBelow ?_).symm
    rw [map_append, map_append, asSeen _ fun source => flags.keptIn_sublist _ source key,
      asSeen _ fun source => List.Sublist.refl _]
    exact same

/-- A merge of a stretch of files stands for what its sources stand for together. -/
theorem stands_merge
    {sources : List (DataFile κ α)} (wellFormed : ∀ source ∈ sources, source.WellFormed)
    (disjoint : sources.Pairwise DataFile.Disjoint)
    (single : flags.canTailTombstones = true → sources.length ≤ 1)
    (merged : mergeIndexes flags sources = some out)
    (flushedOrder : flushed.Pairwise fun newer older => older.highestSeq < newer.lowestSeq)
    (ranges : ∀ flushedFile ∈ flushed, flushedFile.lowestSeq ≤ flushedFile.highestSeq)
    (flushedAdmitted : ∀ flushedFile ∈ flushed, ∀ entry ∈ entriesOf flushedFile.keys key,
      discipline.Admits entry) (aligned : ∀ source ∈ sources, ∃ flushedFile ∈ flushed,
      flushedFile.highestSeq = source.highestSeq)
    (held : ∀ flushedFile ∈ flushed, out.Holds flushedFile →
      ∃ source ∈ sources, source.Holds flushedFile)
    (stand : ∀ source ∈ sources, Stands discipline key flushed horizon source)
    (lowest : flags.canTailTombstones = true → Lowest flushed out) {raised : Nat}
    (above : horizon ≤ raised) (aboveMerge : flags.canTail = true →
      RepoFiles.horizonAfter flags.retainFrom out.highestSeq ≤ raised) :
    Stands discipline key flushed raised out := by
  have perm := newestFiles_perm sources
  have order := newestFiles_pairwise wellFormed disjoint
  have hull := mergeIndexes_hull wellFormed merged
  have isSource : ∀ {source}, source ∈ newestFiles sources → source ∈ sources :=
    fun mem => perm.mem_iff.mp mem
  have flushedEq : flushedIn flushed out key =
      (newestFiles sources).flatMap fun source => flushedIn flushed source key := by
    have parts := flushed_eq_flatMap order (flushedOrder.filter (out.Holds ·))
      (fun other mem => ranges other (mem_of_mem_filter mem))
      (by
        intro other mem
        obtain ⟨isFlushed, isHeld⟩ := mem_filter.mp mem
        obtain ⟨source, inSources, holds⟩ := held other isFlushed (of_decide_eq_true isHeld)
        exact ⟨source, perm.mem_iff.mpr inSources, holds⟩)
    have sameHeld : ∀ source ∈ newestFiles sources,
        (flushed.filter (out.Holds ·)).filter (source.Holds ·) =
          flushed.filter (source.Holds ·) := by
      intro source mem
      rw [filter_filter]
      refine filter_congr fun other _ => ?_
      by_cases holds : source.Holds other
      · have inOut : out.Holds other := ⟨(hull.lowest source (isSource mem)).trans holds.1,
          holds.2.trans (hull.highest source (isSource mem))⟩
        simp [holds, inOut]
      · simp [holds]
    rw [flatMap_congr sameHeld] at parts
    rw [flushedIn, parts, flatMap_assoc]
    rfl
  have outAdmits : ∀ entry ∈ entriesOf out.keys key, discipline.Admits entry := by
    rw [(mergeIndexes_keys wellFormed disjoint merged).2 key]
    intro entry mem
    obtain ⟨source, inSources, isKept⟩ := mem_flatMap.mp mem
    exact (stand source (isSource inSources)).admits entry
      ((flags.keptIn_sublist _ source key).subset isKept)
  refine ⟨outAdmits, fun version fromHorizon below belowAdmitted isLowest => ?_⟩
  rw [flushedEq]
  refine (stands_chain order (fun source mem => aligned source (isSource mem))
    flushedAdmitted (fun source mem => stand source (isSource mem))
    (above.trans fromHorizon) belowAdmitted ?_).trans ?_
  · intro last isLast lastLowest
    refine isLowest fun older isFlushed => ?_
    obtain ⟨first, inSources, lowestIs⟩ := hull.lowestIs
    have lastIs := lastLowest older isFlushed
    have lastInSources := isSource (mem_of_getLast? isLast)
    exact (hull.lowest last lastInSources).trans lastIs
  · exact mergeIndexes_keeps wellFormed disjoint single merged
      (fun tails => (aboveMerge tails).trans fromHorizon)
      fun tailed => isLowest (lowest tailed)

end Stands

/-! ## Over a run -/

namespace RepoFiles

variable {repo next : RepoFiles κ α} {discipline : Discipline} {key : κ}

/-- Every file on disk stands for what was flushed in its range. -/
structure Standing (discipline : Discipline) (key : κ) (repo : RepoFiles κ α) : Prop where
  ranged : repo.Ranged
  admitted : ∀ file ∈ repo.flushed, ∀ entry ∈ entriesOf file.keys key, discipline.Admits entry
  stand : ∀ file ∈ repo.files, Stands discipline key repo.flushed repo.horizon file.file

theorem standing_empty (discipline : Discipline) (key : κ) :
    (empty : RepoFiles κ α).Standing discipline key :=
  ⟨ranged_empty, by simp [empty], by simp [empty]⟩

omit [DecidableEq α] in
/-- A flush inside the range of a stretch of layers is inside one of these layers. -/
theorem Ranged.held_by_run (ranged : repo.Ranged) {before run after : List (Segment κ α)}
    (split : repo.segments = before ++ run ++ after) {out : DataFile κ α}
    (hull : IsHull ((run.flatMap (·.inputs)).map (·.file)) out) {flushedFile : DataFile κ α}
    (isFlushed : flushedFile ∈ repo.flushed) (holds : out.Holds flushedFile) :
    ∃ source ∈ (run.flatMap (·.inputs)).map (·.file), source.Holds flushedFile := by
  obtain ⟨fromBelow, fromAbove⟩ := ranged.layers_split split
  obtain ⟨layer, inLayers, low, high⟩ := ranged.covered flushedFile isFlushed
  obtain ⟨⟨lowLayer, lowInput, lowEq⟩, highLayer, highInput, highEq⟩ := hull.ends
  have range := (ranged.flushedWellFormed flushedFile isFlushed).range
  rw [layers, split, flatMap_append, flatMap_append, append_assoc] at inLayers
  rcases mem_append.mp inLayers with inBefore | inRest
  · have isBelow := fromBelow layer inBefore lowLayer lowInput
    unfold DiskFile.Below at isBelow
    have := holds.1
    omega
  rcases mem_append.mp inRest with inRun | inAfter
  · exact ⟨layer.file, mem_map_of_mem inRun, low, high⟩
  · have isAbove := fromAbove highLayer highInput layer inAfter
    unfold DiskFile.Below at isAbove
    have := holds.2
    omega

omit [DecidableEq α] in
/-- The lowest layer has nothing flushed below it. -/
theorem Ranged.lowest_run
    (ranged : repo.Ranged) {run after : List (Segment κ α)} (split : repo.segments = run ++ after)
    {out : DataFile κ α} (hull : IsHull ((run.flatMap (·.inputs)).map (·.file)) out) :
    Lowest repo.flushed out := by
  intro older isFlushed
  obtain ⟨layer, inLayers, low, _⟩ := ranged.covered older isFlushed
  have range := (ranged.flushedWellFormed older isFlushed).range
  obtain ⟨⟨lowLayer, lowInput, lowEq⟩, _⟩ := hull.ends
  have notBelow : out.lowestSeq ≤ layer.file.lowestSeq := by
    have asRun : repo.segments = [] ++ run ++ after := by simpa using split
    obtain ⟨_, fromAbove⟩ := ranged.layers_split asRun
    rw [layers, split, flatMap_append] at inLayers
    rcases mem_append.mp inLayers with inRun | inAfter
    · exact hull.lowest _ (mem_map_of_mem inRun)
    · have isAbove := fromAbove lowLayer lowInput layer inAfter
      have lowRange := ranged.layer_range lowLayer (by
        rw [layers, split, flatMap_append]
        exact mem_append_left _ lowInput)
      unfold DiskFile.Below at isAbove
      omega
  exact (notBelow.trans low).trans range

/-- Every step leaves every file standing for what was flushed in its range. -/
theorem Standing.step
    (disciplined : discipline.WellFormed) (standing : repo.Standing discipline key)
    {event : FilesEvent κ α} (allowed : repo.Allowed event)
    (obeyed : discipline.Obeyed key repo event) (stepped : repo.step event = some next) :
    next.Standing discipline key := by
  have ranged := standing.ranged
  have nextRanged := ranged.step allowed stepped
  cases event with
  | flush file =>
    simp only [RepoFiles.step] at stepped
    obtain ⟨running, stepped⟩ := Option.ite_none_left_eq_some.mp stepped
    cases stepped
    have flushedRanges : ∀ older ∈ repo.flushed, older.lowestSeq ≤ older.highestSeq :=
      fun older mem => (ranged.flushedWellFormed older mem).range
    refine ⟨nextRanged, forall_mem_cons.mpr ⟨obeyed, standing.admitted⟩,
      forall_mem_append.mpr ⟨fun onDisk inFiles => ?_, forall_mem_singleton.mpr ?_⟩⟩
    · exact (standing.stand onDisk inFiles).above_flush
        (ranged.wellFormed onDisk inFiles).range allowed.1.range
        (ranged.below_flush allowed.2 inFiles)
    · exact stands_flush allowed.2 flushedRanges obeyed _
  | mergeFiles start count canTail canTailTombstone retainFrom =>
    obtain ⟨before, run, after, file, split, running, _, noOutputs, atStart, merged, rfl⟩ :=
      step_mergeFiles stepped
    obtain ⟨wellFormed, disjoint⟩ := ranged.sources split
    have hull := mergeIndexes_hull wellFormed merged
    have raises : repo.horizon ≤
        if canTail then max repo.horizon (horizonAfter retainFrom file.highestSeq)
        else repo.horizon := by
      split
      · exact Nat.le_max_left _ _
      · exact le_rfl
    have onDisk : ∀ layer ∈ run.flatMap (·.inputs), layer ∈ repo.files := by
      intro layer isInput
      refine ranged.layersOnDisk layer ?_
      simp [layers, split, isInput]
    refine ⟨nextRanged, standing.admitted,
      forall_mem_append.mpr ⟨fun other inFiles => ?_, forall_mem_singleton.mpr ?_⟩⟩
    · exact (standing.stand other inFiles).raise raises
    · refine stands_merge wellFormed disjoint ?_ merged ranged.flushedOrder
        (fun older isFlushed => (ranged.flushedWellFormed older isFlushed).range)
        standing.admitted ?_ (fun older isFlushed => ranged.held_by_run split hull isFlushed)
        ?_ ?_ raises ?_
      · intro tailed
        simp only [mergeFlags, Bool.and_eq_true, beq_iff_eq] at tailed
        exact tailed.2.le
      · exact forall_mem_map.mpr fun layer isInput =>
          (ranged.aligned layer (onDisk layer isInput)).2
      · exact forall_mem_map.mpr fun layer isInput =>
          standing.stand layer (onDisk layer isInput)
      · intro tailed
        have isTailed : canTailTombstone = true := by
          simp only [mergeFlags, Bool.and_eq_true] at tailed
          exact tailed.1.2
        rw [atStart isTailed, nil_append] at split
        exact ranged.lowest_run split hull
      · intro tails
        have canTails : canTail = true := by
          simpa [mergeFlags] using tails
        rw [if_pos canTails]
        exact Nat.le_max_right _ _
  | foldMerged index =>
    obtain ⟨before, segment, after, merged, file, isSegment, split, running, isMerged,
      folded, rfl⟩ := step_foldMerged stepped
    have isOutput : merged ∈ segment.outputs := by simp [isMerged]
    have onDisk := (ranged.outputs segment (by simp [split]) merged isOutput).1
    refine ⟨nextRanged, standing.admitted,
      forall_mem_append.mpr ⟨fun other inFiles => ?_, forall_mem_singleton.mpr ?_⟩⟩
    · exact (standing.stand other inFiles).raise (Nat.le_max_left _ _)
    · exact (standing.stand merged onDisk).fold disciplined (ranged.wellFormed merged onDisk)
        (obeyed segment isSegment merged isOutput) folded (Nat.le_max_left _ _)
        (Nat.le_max_right _ _)
  | publish index =>
    simp only [RepoFiles.step] at stepped
    split at stepped
    case h_1 segment isSegment =>
      obtain ⟨output, isLast, rfl⟩ := Option.map_eq_some_iff.mp stepped
      exact ⟨nextRanged, standing.admitted, standing.stand⟩
    case h_2 => contradiction
  | discard index =>
    simp only [RepoFiles.step] at stepped
    split at stepped
    case h_1 inputs output retainFrom isSegment =>
      cases stepped
      exact ⟨nextRanged, standing.admitted,
        fun file mem => standing.stand file (mem_of_mem_filter mem)⟩
    case h_2 => contradiction
  | remove genId =>
    simp only [RepoFiles.step] at stepped
    obtain ⟨removable, stepped⟩ := Option.ite_none_right_eq_some.mp stepped
    cases stepped
    exact ⟨nextRanged, standing.admitted,
      fun file mem => standing.stand file (mem_of_mem_filter mem)⟩
  | crash fileVec =>
    cases stepped
    exact ⟨nextRanged, standing.admitted, standing.stand⟩
  | opened =>
    simp only [RepoFiles.step] at stepped
    obtain ⟨onlyLayers, stepped⟩ := Option.ite_none_right_eq_some.mp stepped
    cases stepped
    exact ⟨nextRanged, standing.admitted, standing.stand⟩

/-- Files whose ranges are apart and cover all that was flushed read as all of it. -/
theorem Standing.reads (standing : repo.Standing discipline key) {files : List (DiskFile κ α)}
    (onDisk : ∀ file ∈ files, file ∈ repo.files)
    (apart : files.Pairwise fun left right => ¬ left.Overlaps right)
    (covers : ∀ flushedFile ∈ repo.flushed, ∃ file ∈ files, file.file.Holds flushedFile)
    {version : Nat} (fromHorizon : repo.horizon ≤ version) {newer : List (Item κ α)}
    (context : discipline.Context key newer) :
    readKey (newer ++ atVersion version (runItems (files.map (·.file)) key)) key =
      readKey (newer ++ (seenAt version (repo.flushed.flatMap fun flushedFile =>
        entriesOf flushedFile.keys key)).map (FoldEntry.toItem key)) key := by
  have ranged := standing.ranged
  have wellFormed : ∀ source ∈ files.map (·.file), source.WellFormed :=
    forall_mem_map.mpr fun file mem => ranged.wellFormed file (onDisk file mem)
  have disjoint : (files.map (·.file)).Pairwise DataFile.Disjoint := by
    refine pairwise_map.mpr (apart.imp fun {left right} notOverlaps => ?_)
    by_contra meets
    obtain ⟨notBelow, notAbove⟩ := not_or.mp meets
    exact notOverlaps ⟨not_lt.mp notAbove, not_lt.mp notBelow⟩
  have perm := newestFiles_perm (files.map (·.file))
  have order := newestFiles_pairwise wellFormed disjoint
  have parts := flushed_eq_flatMap order ranged.flushedOrder
    (fun older isFlushed => (ranged.flushedWellFormed older isFlushed).range)
    (by
      intro flushedFile isFlushed
      obtain ⟨file, mem, holds⟩ := covers flushedFile isFlushed
      exact ⟨file.file, perm.mem_iff.mpr (mem_map_of_mem mem), holds⟩)
  have flushedEq : (repo.flushed.flatMap fun flushedFile => entriesOf flushedFile.keys key) =
      (newestFiles (files.map (·.file))).flatMap fun file =>
        flushedIn repo.flushed file key := by
    conv_lhs => rw [parts]
    rw [flatMap_assoc]
    rfl
  have chain : discipline.Keeps key
      (seenAt version ((newestFiles (files.map (·.file))).flatMap fun file =>
        flushedIn repo.flushed file key) ++ [])
      (seenAt version ((newestFiles (files.map (·.file))).flatMap fun file =>
        entriesOf file.keys key) ++ []) := by
    refine stands_chain order ?_ standing.admitted ?_ fromHorizon
      (fun entry mem => absurd mem not_mem_nil) fun _ _ _ => rfl
    · intro source mem
      obtain ⟨file, inFiles, rfl⟩ := mem_map.mp (perm.mem_iff.mp mem)
      exact (ranged.aligned file (onDisk file inFiles)).2
    · intro source mem
      obtain ⟨file, inFiles, rfl⟩ := mem_map.mp (perm.mem_iff.mp mem)
      exact standing.stand file (onDisk file inFiles)
  rw [append_nil, append_nil, ← flushedEq] at chain
  have items : atVersion version (runItems (files.map (·.file)) key) =
      (seenAt version ((newestFiles (files.map (·.file))).flatMap fun file =>
        entriesOf file.keys key)).map (FoldEntry.toItem key) := by
    rw [runItems, atVersion_toItem, runEntries_eq wellFormed disjoint]
  rw [items]
  exact (chain newer context).symm

end RepoFiles

end Orly
