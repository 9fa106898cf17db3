import Orly.FoldFileLaws

namespace Orly

/-!
# The ranges of a repo's data files

Of any two files on disk the ranges are nested or have nothing in common: a flush writes
above all files, and a merge writes the range of a run of layers, inside which or outside
of which every other file lies.  So what a reload drops lies inside a file that it keeps.
-/

open List

variable {κ α : Type}

namespace DiskFile

variable {first second third : DiskFile κ α}

theorem Inside.trans (left : first.Inside second) (right : second.Inside third) :
    first.Inside third :=
  ⟨right.1.trans left.1, left.2.trans right.2⟩

theorem Inside.refl (file : DiskFile κ α) : file.Inside file := ⟨le_rfl, le_rfl⟩

/-- Ranges that are nested or have nothing in common. -/
def Nested (file that : DiskFile κ α) : Prop :=
  file.Inside that ∨ that.Inside file ∨ ¬ file.Overlaps that

theorem Nested.symm (nested : first.Nested second) : second.Nested first := by
  rcases nested with inside | contains | apart
  · exact .inr (.inl inside)
  · exact .inl contains
  · exact .inr (.inr fun overlaps => apart ⟨overlaps.2, overlaps.1⟩)

end DiskFile

/-! ## Part of a list replaced -/

section Replace

variable {Element : Type} {Property : Element → Prop} {before old new after : List Element}

theorem forall_mem_replace (holds : ∀ item ∈ before ++ old ++ after, Property item)
    (holdsNew : ∀ item ∈ new, Property item) :
    ∀ item ∈ before ++ new ++ after, Property item := by
  simp only [forall_mem_append] at holds ⊢
  exact ⟨⟨holds.1.1, holdsNew⟩, holds.2⟩

theorem exists_mem_replace (holds : ∃ item ∈ before ++ old ++ after, Property item)
    (holdsNew : ∀ item ∈ old, Property item → ∃ other ∈ new, Property other) :
    ∃ item ∈ before ++ new ++ after, Property item := by
  by_contra! none
  obtain ⟨item, mem, isItem⟩ := holds
  refine forall_mem_replace none (fun other isOld isOther => ?_) item mem isItem
  obtain ⟨found, isNew, isFound⟩ := holdsNew other isOld isOther
  exact none found (by simp [isNew]) isFound

end Replace

/-! ## What a reload keeps -/

section Reload

variable {fileVec : List (DiskFile κ α)}

theorem exists_leftBehind (found : fileVec.any (leftBehindIn fileVec) = true) :
    ∃ before file after that, fileVec = before ++ file :: after ∧
      fileVec.eraseP (leftBehindIn fileVec) = before ++ after ∧
      that ∈ fileVec ∧ file.LeftBehind that := by
  obtain ⟨some, mem, isLeft⟩ := any_eq_true.mp found
  obtain ⟨file, before, after, _, leftBehind, split, erased⟩ := exists_of_eraseP mem isLeft
  obtain ⟨that, inVec, behind⟩ := any_eq_true.mp leftBehind
  exact ⟨before, file, after, that, split, erased, inVec, of_decide_eq_true behind⟩

theorem dropLeftovers_sublist (fileVec : List (DiskFile κ α)) :
    (dropLeftovers fileVec).Sublist fileVec := by
  induction fileVec using dropLeftovers.induct with
  | case1 fileVec found ih =>
    rw [dropLeftovers, if_pos found]
    exact ih.trans eraseP_sublist
  | case2 fileVec notFound =>
    rw [dropLeftovers, if_neg notFound]

/-- Nothing that is kept was left behind by another file that is kept. -/
theorem dropLeftovers_settled (fileVec : List (DiskFile κ α)) :
    ∀ file ∈ dropLeftovers fileVec, ∀ that ∈ dropLeftovers fileVec, ¬ file.LeftBehind that := by
  induction fileVec using dropLeftovers.induct with
  | case1 fileVec found ih =>
    rw [dropLeftovers, if_pos found]
    exact ih
  | case2 fileVec notFound =>
    rw [dropLeftovers, if_neg notFound]
    intro file inFiles that inThat leftBehind
    refine notFound (any_eq_true.mpr ⟨file, inFiles, ?_⟩)
    exact any_eq_true.mpr ⟨that, inThat, decide_eq_true leftBehind⟩

/-- The ranges of the files that are kept have nothing in common. -/
theorem dropLeftovers_disjoint (genIds : (fileVec.map (·.genId)).Nodup) :
    (dropLeftovers fileVec).Pairwise fun left right => ¬ left.Overlaps right := by
  have settled := dropLeftovers_settled fileVec
  have distinct : (dropLeftovers fileVec).Pairwise fun left right =>
      left.genId ≠ right.genId :=
    pairwise_map.mp (genIds.sublist ((dropLeftovers_sublist fileVec).map _))
  refine distinct.imp_of_mem ?_
  intro left right inLeft inRight differ overlaps
  have forward := settled left inLeft right inRight
  have backward := settled right inRight left inLeft
  simp only [DiskFile.LeftBehind, not_and, not_or] at forward backward
  obtain ⟨leftOutside, leftOlder⟩ := forward differ
  obtain ⟨rightOutside, rightOlder⟩ := backward differ.symm
  have notOlder := leftOlder overlaps rightOutside
  have notNewer := rightOlder ⟨overlaps.2, overlaps.1⟩ leftOutside
  omega

/-- If ranges are nested or disjoint, what is dropped lies inside a file that is kept. -/
theorem dropLeftovers_covers (nested : ∀ file ∈ fileVec, ∀ that ∈ fileVec, file.Nested that) :
    ∀ file ∈ fileVec, ∃ kept ∈ dropLeftovers fileVec, file.Inside kept := by
  induction fileVec using dropLeftovers.induct with
  | case1 fileVec found ih =>
    rw [dropLeftovers, if_pos found]
    obtain ⟨before, dropped, after, that, split, erased, inVec, leftBehind⟩ :=
      exists_leftBehind found
    rw [erased] at ih ⊢
    have isFile : ∀ {file}, file ∈ fileVec ↔ file = dropped ∨ file ∈ before ++ after := by
      simp [split, or_left_comm]
    have kept := ih fun file inFile that inThat =>
      nested file (isFile.mpr (.inr inFile)) that (isFile.mpr (.inr inThat))
    have insideThat : dropped.Inside that := by
      have isNested := nested dropped (isFile.mpr (.inl rfl)) that inVec
      obtain ⟨_, inside | ⟨overlaps, outside, _⟩⟩ := leftBehind
      · exact inside
      · rcases isNested with inside | contains | apart
        · exact inside
        · contradiction
        · contradiction
    intro file mem
    rcases isFile.mp mem with rfl | stays
    · have thatStays := (isFile.mp inVec).resolve_left fun same => leftBehind.1 (same ▸ rfl)
      obtain ⟨keeper, isKept, thatInside⟩ := kept that thatStays
      exact ⟨keeper, isKept, insideThat.trans thatInside⟩
    · exact kept file stays
  | case2 fileVec notFound =>
    rw [dropLeftovers, if_neg notFound]
    exact fun file mem => ⟨file, mem, .refl file⟩

end Reload

/-! ## The ranges over a run -/

variable [LinearOrder κ]

/-- The range of one file is below that of another. -/
def DiskFile.Below (older newer : DiskFile κ α) : Prop :=
  older.file.highestSeq < newer.file.lowestSeq

/-- A file on disk lies inside a layer of its segment or was written for the segment. -/
def Segment.Places (segment : Segment κ α) (file : DiskFile κ α) : Prop :=
  (∃ layer ∈ segment.inputs, file.Inside layer) ∨ file ∈ segment.outputs

omit [LinearOrder κ] in
/-- Some layers end the range of all. -/
theorem IsHull.ends {layers : List (DiskFile κ α)} {out : DataFile κ α}
    (hull : IsHull (layers.map (·.file)) out) :
    (∃ low ∈ layers, low.file.lowestSeq = out.lowestSeq) ∧
      ∃ high ∈ layers, high.file.highestSeq = out.highestSeq :=
  ⟨by simpa using hull.lowestIs, by simpa using hull.highestIs⟩

omit [LinearOrder κ] in
/-- What a segment places lies inside a file of the range of its layers and others. -/
theorem Segment.Places.inside
    {segment : Segment κ α} {layers : List (DiskFile κ α)} {file that : DiskFile κ α}
    (places : segment.Places file) (inputs : segment.inputs ⊆ layers)
    (outputs : ∀ output ∈ segment.outputs, IsHull (layers.map (·.file)) output.file)
    (hull : IsHull (layers.map (·.file)) that.file) :
    file.Inside that := by
  rcases places with ⟨layer, isInput, inside⟩ | isOutput
  · have isSource := mem_map_of_mem (f := fun file : DiskFile κ α => file.file) (inputs isInput)
    exact ⟨(hull.lowest _ isSource).trans inside.1, inside.2.trans (hull.highest _ isSource)⟩
  · obtain ⟨low, isLow, lowEq⟩ := (outputs file isOutput).lowestIs
    obtain ⟨high, isHigh, highEq⟩ := (outputs file isOutput).highestIs
    exact ⟨lowEq ▸ hull.lowest low isLow, highEq ▸ hull.highest high isHigh⟩

/-- What every reachable set of data files keeps to. -/
structure RepoFiles.Ranged (repo : RepoFiles κ α) : Prop where
  flushedOrder : repo.flushed.Pairwise fun newer older => older.highestSeq < newer.lowestSeq
  flushedWellFormed : ∀ file ∈ repo.flushed, file.WellFormed
  wellFormed : ∀ file ∈ repo.files, file.file.WellFormed
  genIds : (repo.files.map (·.genId)).Nodup
  fresh : repo.reloading = false → ∀ file ∈ repo.files, file.genId < repo.nextGenId
  trackedFresh : ∀ file ∈ repo.segments.flatMap fun segment =>
    segment.inputs ++ segment.outputs, file.genId < repo.nextGenId
  layersOrder : repo.layers.Pairwise DiskFile.Below
  layersOnDisk : ∀ layer ∈ repo.layers, layer ∈ repo.files
  tracked : ((repo.segments.flatMap fun segment =>
    segment.inputs ++ segment.outputs).map (·.genId)).Nodup
  outputs : ∀ segment ∈ repo.segments, ∀ output ∈ segment.outputs,
    output ∈ repo.files ∧ IsHull (segment.inputs.map (·.file)) output.file
  placed : ∀ file ∈ repo.files, ∃ segment ∈ repo.segments, segment.Places file
  nested : ∀ file ∈ repo.files, ∀ that ∈ repo.files, file.Nested that
  covered : ∀ file ∈ repo.flushed, ∃ layer ∈ repo.layers,
    layer.file.lowestSeq ≤ file.lowestSeq ∧ file.highestSeq ≤ layer.file.highestSeq
  aligned : ∀ file ∈ repo.files,
    (∃ flushed ∈ repo.flushed, flushed.lowestSeq = file.file.lowestSeq) ∧
      ∃ flushed ∈ repo.flushed, flushed.highestSeq = file.file.highestSeq

namespace RepoFiles

theorem ranged_empty : (empty : RepoFiles κ α).Ranged := by
  constructor <;> simp [empty, layers]

namespace Ranged

variable {repo : RepoFiles κ α} (ranged : repo.Ranged)

include ranged

/-- A file lies between layers of the segment that places it. -/
theorem bounds {segment : Segment κ α} (inSegments : segment ∈ repo.segments)
    {file : DiskFile κ α} (places : segment.Places file) :
    (∃ low ∈ segment.inputs, low.file.lowestSeq ≤ file.file.lowestSeq) ∧
      ∃ high ∈ segment.inputs, file.file.highestSeq ≤ high.file.highestSeq := by
  rcases places with ⟨layer, isInput, inside⟩ | isOutput
  · exact ⟨⟨layer, isInput, inside.1⟩, layer, isInput, inside.2⟩
  · obtain ⟨⟨low, isLow, lowEq⟩, high, isHigh, highEq⟩ :=
      (ranged.outputs segment inSegments file isOutput).2.ends
    exact ⟨⟨low, isLow, lowEq.le⟩, high, isHigh, highEq.ge⟩

/-- A layer's range is not empty. -/
theorem layer_range (layer : DiskFile κ α) (isLayer : layer ∈ repo.layers) :
    layer.file.lowestSeq ≤ layer.file.highestSeq :=
  (ranged.wellFormed layer (ranged.layersOnDisk layer isLayer)).range

/-- What the segments track is on disk. -/
theorem tracked_onDisk :
    ∀ file ∈ repo.segments.flatMap fun segment => segment.inputs ++ segment.outputs,
      file ∈ repo.files := by
  intro file mem
  obtain ⟨segment, inSegments, isTracked⟩ := mem_flatMap.mp mem
  rcases mem_append.mp isTracked with isInput | isOutput
  · exact ranged.layersOnDisk file (mem_flatMap.mpr ⟨segment, inSegments, isInput⟩)
  · exact (ranged.outputs segment inSegments file isOutput).1

/-- A new file gets a number of its own. -/
theorem fresh_concat (running : repo.reloading = false) {written : DiskFile κ α}
    (number : written.genId = repo.nextGenId) :
    ((repo.files ++ [written]).map (·.genId)).Nodup ∧
      ∀ onDisk ∈ repo.files ++ [written], onDisk.genId < repo.nextGenId + 1 := by
  have isFresh := ranged.fresh running
  constructor
  · rw [map_append]
    refine nodup_append.mpr ⟨ranged.genIds, nodup_singleton _, ?_⟩
    intro genId inFiles other isWritten
    obtain ⟨onDisk, mem, rfl⟩ := mem_map.mp inFiles
    obtain rfl : other = repo.nextGenId := (mem_singleton.mp isWritten).trans number
    exact (isFresh onDisk mem).ne
  · refine forall_mem_append.mpr ⟨fun onDisk mem => ?_, ?_⟩
    · exact (isFresh onDisk mem).trans (Nat.lt_succ_self _)
    · exact forall_mem_singleton.mpr (number ▸ Nat.lt_succ_self _)

/-- One more file whose range is nested with the others. -/
theorem nested_concat {written : DiskFile κ α}
    (withWritten : ∀ onDisk ∈ repo.files, onDisk.Nested written) :
    ∀ onDisk ∈ repo.files ++ [written], ∀ that ∈ repo.files ++ [written], onDisk.Nested that := by
  refine forall_mem_append.mpr ⟨fun onDisk inFiles => ?_, ?_⟩
  · refine forall_mem_append.mpr ⟨ranged.nested onDisk inFiles, ?_⟩
    exact forall_mem_singleton.mpr (withWritten onDisk inFiles)
  · refine forall_mem_singleton.mpr (forall_mem_append.mpr ⟨fun that inFiles => ?_, ?_⟩)
    · exact (withWritten that inFiles).symm
    · exact forall_mem_singleton.mpr (.inl (.refl _))

/-! ### A flush -/

section Flush

variable {file : DataFile κ α}

/-- Files end where something flushed ends. -/
theorem below_flush (newest : ∀ older ∈ repo.flushed, older.highestSeq < file.lowestSeq)
    {onDisk : DiskFile κ α} (mem : onDisk ∈ repo.files) :
    onDisk.file.highestSeq < file.lowestSeq := by
  obtain ⟨_, flushed, inFlushed, highest⟩ := ranged.aligned onDisk mem
  exact highest ▸ newest flushed inFlushed

theorem flush (running : repo.reloading = false) (isWellFormed : file.WellFormed)
    (newest : ∀ older ∈ repo.flushed, older.highestSeq < file.lowestSeq) :
    { repo with
      files := repo.files ++ [⟨repo.nextGenId, file⟩]
      segments := repo.segments ++ [.idle ⟨repo.nextGenId, file⟩]
      nextGenId := repo.nextGenId + 1
      flushed := file :: repo.flushed : RepoFiles κ α }.Ranged := by
  let written : DiskFile κ α := ⟨repo.nextGenId, file⟩
  have below : ∀ onDisk ∈ repo.files, onDisk.file.highestSeq < file.lowestSeq :=
    fun onDisk mem => ranged.below_flush newest mem
  have isFresh := ranged.fresh running
  have layersEq : (repo.segments ++ [Segment.idle written]).flatMap (·.inputs) =
      repo.layers ++ [written] := by
    simp [layers, Segment.idle]
  obtain ⟨genIds, allFresh⟩ :=
    ranged.fresh_concat running (show written.genId = repo.nextGenId from rfl)
  refine {
    flushedOrder := pairwise_cons.mpr ⟨newest, ranged.flushedOrder⟩
    flushedWellFormed := forall_mem_cons.mpr ⟨isWellFormed, ranged.flushedWellFormed⟩
    wellFormed := forall_mem_append.mpr
      ⟨ranged.wellFormed, forall_mem_singleton.mpr isWellFormed⟩
    genIds := genIds, fresh := fun _ => allFresh, trackedFresh := ?_
    layersOrder := ?_, layersOnDisk := ?_, tracked := ?_, outputs := ?_, placed := ?_
    nested := ranged.nested_concat ?_, covered := ?_, aligned := ?_ }
  · intro onDisk mem
    rw [flatMap_append] at mem
    refine allFresh onDisk ?_
    rcases mem_append.mp mem with isTracked | isWritten
    · exact mem_append_left _ (ranged.tracked_onDisk onDisk isTracked)
    · exact mem_append_right _ (by simpa [Segment.idle] using isWritten)
  · rw [layers, layersEq]
    refine pairwise_append.mpr ⟨ranged.layersOrder, pairwise_singleton _ _, ?_⟩
    intro layer inLayers
    exact forall_mem_singleton.mpr (below layer (ranged.layersOnDisk layer inLayers))
  · rw [layers, layersEq]
    refine forall_mem_append.mpr ⟨fun layer inLayers => ?_, fun _ => ?_⟩
    · exact mem_append_left _ (ranged.layersOnDisk layer inLayers)
    · exact mem_append_right _
  · rw [flatMap_append, map_append]
    refine nodup_append.mpr ⟨ranged.tracked, by simp [Segment.idle], ?_⟩
    intro genId isTracked other isWritten
    obtain ⟨onDisk, mem, rfl⟩ := mem_map.mp isTracked
    obtain rfl : other = repo.nextGenId := by simpa [Segment.idle] using isWritten
    exact (isFresh onDisk (ranged.tracked_onDisk onDisk mem)).ne
  · refine forall_mem_append.mpr ⟨fun segment inSegments output isOutput => ?_, ?_⟩
    · obtain ⟨onDisk, hull⟩ := ranged.outputs segment inSegments output isOutput
      exact ⟨mem_append_left _ onDisk, hull⟩
    · exact forall_mem_singleton.mpr (forall_mem_nil _)
  · refine forall_mem_append.mpr ⟨fun onDisk inFiles => ?_, ?_⟩
    · obtain ⟨segment, inSegments, places⟩ := ranged.placed onDisk inFiles
      exact ⟨segment, mem_append_left _ inSegments, places⟩
    · refine forall_mem_singleton.mpr ⟨.idle written, ?_, .inl ?_⟩
      · exact mem_append_right _ (mem_singleton_self _)
      · exact ⟨written, mem_singleton_self _, .refl _⟩
  · intro onDisk mem
    refine .inr (.inr fun overlaps => ?_)
    exact absurd overlaps.2 (not_le.mpr (below onDisk mem))
  · rw [layers, layersEq]
    refine forall_mem_cons.mpr ⟨?_, fun older inFlushed => ?_⟩
    · exact ⟨written, mem_append_right _ (mem_singleton_self _), le_rfl, le_rfl⟩
    · obtain ⟨layer, inLayers, inside⟩ := ranged.covered older inFlushed
      exact ⟨layer, mem_append_left _ inLayers, inside⟩
  · refine forall_mem_append.mpr ⟨fun onDisk inFiles => ?_, ?_⟩
    · obtain ⟨⟨low, inLow, lowEq⟩, high, inHigh, highEq⟩ := ranged.aligned onDisk inFiles
      exact ⟨⟨low, mem_cons_of_mem _ inLow, lowEq⟩, high, mem_cons_of_mem _ inHigh, highEq⟩
    · refine forall_mem_singleton.mpr ?_
      exact ⟨⟨file, mem_cons_self, rfl⟩, file, mem_cons_self, rfl⟩

end Flush

/-! ### A merge and its fold -/

section Write

variable {before run after : List (Segment κ α)}

/-- The layers of a middle stretch are between those around it. -/
theorem layers_split (split : repo.segments = before ++ run ++ after) :
    (∀ low ∈ before.flatMap (·.inputs), ∀ layer ∈ run.flatMap (·.inputs), low.Below layer) ∧
      ∀ layer ∈ run.flatMap (·.inputs), ∀ high ∈ after.flatMap (·.inputs), layer.Below high := by
  have ordered := ranged.layersOrder
  rw [layers, split, flatMap_append, flatMap_append] at ordered
  obtain ⟨lower, _, upper⟩ := pairwise_append.mp ordered
  refine ⟨(pairwise_append.mp lower).2.2, fun layer isInput high isHigh => ?_⟩
  exact upper layer (mem_append_right _ isInput) high isHigh

/-- The sources of a merge are files apart. -/
theorem sources (split : repo.segments = before ++ run ++ after) :
    (∀ source ∈ (run.flatMap (·.inputs)).map (·.file), source.WellFormed) ∧
      ((run.flatMap (·.inputs)).map (·.file)).Pairwise DataFile.Disjoint := by
  have layersEq : repo.layers = before.flatMap (·.inputs) ++
      (run.flatMap (·.inputs) ++ after.flatMap (·.inputs)) := by
    simp [layers, split]
  constructor
  · intro source isSource
    obtain ⟨layer, isInput, rfl⟩ := mem_map.mp isSource
    refine ranged.wellFormed layer (ranged.layersOnDisk layer ?_)
    rw [layersEq]
    exact mem_append_right _ (mem_append_left _ isInput)
  · have ordered := ranged.layersOrder
    rw [layersEq] at ordered
    have runOrder := (pairwise_append.mp (pairwise_append.mp ordered).2.1).1
    exact pairwise_map.mpr (runOrder.imp fun below => .inl below)

/-- A file of the range of a stretch is nested with every file on disk. -/
theorem nested_hull (split : repo.segments = before ++ run ++ after)
    {written : DiskFile κ α} (hull : IsHull ((run.flatMap (·.inputs)).map (·.file)) written.file)
    (sameHull : ∀ segment ∈ run, ∀ output ∈ segment.outputs,
      IsHull ((run.flatMap (·.inputs)).map (·.file)) output.file) {file : DiskFile κ α}
    (mem : file ∈ repo.files) :
    file.Nested written := by
  obtain ⟨fromBelow, fromAbove⟩ := ranged.layers_split split
  obtain ⟨⟨lowLayer, lowInput, lowEq⟩, highLayer, highInput, highEq⟩ := hull.ends
  obtain ⟨segment, inSegments, places⟩ := ranged.placed file mem
  obtain ⟨⟨least, leastInput, leastLe⟩, most, mostInput, mostLe⟩ := ranged.bounds inSegments places
  rw [split, append_assoc] at inSegments
  rcases mem_append.mp inSegments with inBefore | inRest
  · refine .inr (.inr fun overlaps => ?_)
    have isBelow := fromBelow most (mem_flatMap.mpr ⟨segment, inBefore, mostInput⟩)
      lowLayer lowInput
    unfold DiskFile.Below at isBelow
    have := overlaps.2
    omega
  rcases mem_append.mp inRest with inRun | inAfter
  · refine .inl (places.inside (fun _ isInput => ?_) (sameHull segment inRun) hull)
    exact mem_flatMap.mpr ⟨segment, inRun, isInput⟩
  · refine .inr (.inr fun overlaps => ?_)
    have isAbove := fromAbove highLayer highInput least
      (mem_flatMap.mpr ⟨segment, inAfter, leastInput⟩)
    unfold DiskFile.Below at isAbove
    have := overlaps.1
    omega

/-- A merge, or a fold of what it wrote, writes the range of its inputs. -/
theorem write (running : repo.reloading = false)
    (split : repo.segments = before ++ run ++ after) {file : DataFile κ α}
    (isWellFormed : file.WellFormed) (hull : IsHull ((run.flatMap (·.inputs)).map (·.file)) file)
    (sameHull : ∀ segment ∈ run, ∀ output ∈ segment.outputs,
      IsHull ((run.flatMap (·.inputs)).map (·.file)) output.file) (retainFrom : Option Nat)
    (horizon : Nat) :
    { repo with
      files := repo.files ++ [⟨repo.nextGenId, file⟩]
      segments := before ++
        ⟨run.flatMap (·.inputs), run.flatMap (·.outputs) ++ [⟨repo.nextGenId, file⟩],
          retainFrom⟩ :: after
      nextGenId := repo.nextGenId + 1
      horizon := horizon : RepoFiles κ α }.Ranged := by
  let written : DiskFile κ α := ⟨repo.nextGenId, file⟩
  let merged : Segment κ α :=
    ⟨run.flatMap (·.inputs), run.flatMap (·.outputs) ++ [written], retainFrom⟩
  have isFresh := ranged.fresh running
  have layersEq : (before ++ merged :: after).flatMap (·.inputs) = repo.layers := by
    simp [layers, split, merged]
  have placesRun : ∀ segment ∈ run, ∀ onDisk, segment.Places onDisk → merged.Places onDisk := by
    intro segment inRun onDisk places
    rcases places with ⟨layer, isInput, inside⟩ | isOutput
    · exact .inl ⟨layer, mem_flatMap.mpr ⟨segment, inRun, isInput⟩, inside⟩
    · exact .inr (mem_append_left _ (mem_flatMap.mpr ⟨segment, inRun, isOutput⟩))
  have trackedPerm : ((before ++ merged :: after).flatMap fun segment =>
      segment.inputs ++ segment.outputs).Perm
        (written :: repo.segments.flatMap fun segment =>
          segment.inputs ++ segment.outputs) := by
    have runPerm : (run.flatMap (·.inputs) ++ run.flatMap (·.outputs)).Perm
        (run.flatMap fun segment => segment.inputs ++ segment.outputs) :=
      flatMap_append_perm _ _ _
    rw [split]
    simp only [flatMap_append, flatMap_cons, append_assoc, merged]
    refine (List.Perm.append_left _ ?_).trans perm_middle
    rw [← append_assoc, ← append_assoc]
    refine (List.Perm.append_right _ (perm_append_singleton written _)).trans ?_
    exact (runPerm.append_right _).cons written
  obtain ⟨genIds, allFresh⟩ :=
    ranged.fresh_concat running (show written.genId = repo.nextGenId from rfl)
  refine {
    flushedOrder := ranged.flushedOrder, flushedWellFormed := ranged.flushedWellFormed
    wellFormed := forall_mem_append.mpr
      ⟨ranged.wellFormed, forall_mem_singleton.mpr isWellFormed⟩
    genIds := genIds, fresh := fun _ => allFresh, trackedFresh := ?_
    layersOrder := ?_, layersOnDisk := ?_, tracked := ?_, outputs := ?_, placed := ?_
    nested := ranged.nested_concat fun _ => ranged.nested_hull split hull sameHull
    covered := ?_, aligned := ?_ }
  · intro onDisk mem
    rcases mem_cons.mp (trackedPerm.mem_iff.mp mem) with rfl | isTracked
    · exact Nat.lt_succ_self _
    · exact (ranged.trackedFresh onDisk isTracked).trans (Nat.lt_succ_self _)
  · rw [layers, layersEq]
    exact ranged.layersOrder
  · intro layer mem
    rw [layers, layersEq] at mem
    exact mem_append_left _ (ranged.layersOnDisk layer mem)
  · refine (trackedPerm.map _).nodup_iff.mpr (nodup_cons.mpr ⟨?_, ranged.tracked⟩)
    intro isTracked
    obtain ⟨onDisk, mem, same⟩ := mem_map.mp isTracked
    exact (isFresh onDisk (ranged.tracked_onDisk onDisk mem)).ne same
  · have oldOutputs : ∀ segment ∈ before ++ run ++ after, ∀ output ∈ segment.outputs,
        output ∈ repo.files ++ [written] ∧ IsHull (segment.inputs.map (·.file)) output.file := by
      intro segment inSegments output isOutput
      obtain ⟨onDisk, isHull⟩ := ranged.outputs segment (split ▸ inSegments) output isOutput
      exact ⟨mem_append_left _ onDisk, isHull⟩
    rw [append_cons before]
    refine forall_mem_replace oldOutputs (forall_mem_singleton.mpr ?_)
    refine forall_mem_append.mpr ⟨fun output ofRun => ?_, forall_mem_singleton.mpr ?_⟩
    · obtain ⟨source, inRun, isSource⟩ := mem_flatMap.mp ofRun
      exact ⟨(oldOutputs source (by simp [inRun]) output isSource).1,
        sameHull source inRun output isSource⟩
    · exact ⟨mem_append_right _ (mem_singleton_self _), hull⟩
  · rw [append_cons before]
    refine forall_mem_append.mpr ⟨fun onDisk inFiles => ?_, fun onDisk isWritten => ?_⟩
    · refine exists_mem_replace (split ▸ ranged.placed onDisk inFiles) ?_
      exact fun segment inRun places =>
        ⟨merged, mem_singleton_self _, placesRun segment inRun onDisk places⟩
    · refine ⟨merged, mem_append_left _ ?_, .inr (mem_append_right _ isWritten)⟩
      exact mem_append_right _ (mem_singleton_self _)
  · rw [layers, layersEq]
    exact ranged.covered
  · refine forall_mem_append.mpr ⟨ranged.aligned, forall_mem_singleton.mpr ?_⟩
    have onDisk : ∀ layer ∈ run.flatMap (·.inputs), layer ∈ repo.files := by
      intro layer isInput
      refine ranged.layersOnDisk layer ?_
      simp [layers, split, isInput]
    obtain ⟨⟨low, isLow, lowEq⟩, high, isHigh, highEq⟩ := hull.ends
    exact ⟨lowEq ▸ (ranged.aligned low (onDisk low isLow)).1,
      highEq ▸ (ranged.aligned high (onDisk high isHigh)).2⟩

end Write

/-! ### The end of a merge -/

section Settle

variable {before after : List (Segment κ α)} {segment : Segment κ α} {output : DiskFile κ α}

theorem publish (split : repo.segments = before ++ segment :: after)
    (isOutput : output ∈ segment.outputs) :
    { repo with segments := before ++ .idle output :: after : RepoFiles κ α }.Ranged := by
  have inSegments : segment ∈ repo.segments := by simp [split]
  obtain ⟨onDisk, hull⟩ := ranged.outputs segment inSegments output isOutput
  have insideOutput : ∀ file ∈ repo.files, segment.Places file → file.Inside output := by
    intro file _ places
    refine places.inside (List.Subset.refl _) (fun other isOther => ?_) hull
    exact (ranged.outputs segment inSegments other isOther).2
  have layersEq : ({ repo with segments := before ++ .idle output :: after :
      RepoFiles κ α }).layers =
        before.flatMap (·.inputs) ++ [output] ++ after.flatMap (·.inputs) := by
    simp [layers, Segment.idle]
  have oldLayers : repo.layers =
      before.flatMap (·.inputs) ++ segment.inputs ++ after.flatMap (·.inputs) := by
    simp [layers, split]
  have trackedSublist : ((before ++ .idle output :: after).flatMap fun segment =>
      segment.inputs ++ segment.outputs).Sublist
        (repo.segments.flatMap fun segment => segment.inputs ++ segment.outputs) := by
    rw [split]
    simp only [flatMap_append, flatMap_cons, Segment.idle, append_nil]
    refine (List.Sublist.refl _).append (List.Sublist.append ?_ (List.Sublist.refl _))
    exact (singleton_sublist.mpr isOutput).trans (sublist_append_right _ _)
  refine { ranged with
    trackedFresh := ?_, layersOrder := ?_, layersOnDisk := ?_, tracked := ?_, outputs := ?_
    placed := ?_, covered := ?_ }
  · exact fun file mem => ranged.trackedFresh file (trackedSublist.subset mem)
  · rw [layersEq]
    have ordered := ranged.layersOrder
    rw [oldLayers] at ordered
    rw [append_assoc] at ordered ⊢
    obtain ⟨beforeOrder, restOrder, beforeRest⟩ := pairwise_append.mp ordered
    obtain ⟨_, afterOrder, inputsAfter⟩ := pairwise_append.mp restOrder
    obtain ⟨⟨lowLayer, lowInput, lowEq⟩, highLayer, highInput, highEq⟩ := hull.ends
    refine pairwise_append.mpr ⟨beforeOrder, pairwise_cons.mpr ⟨?_, afterOrder⟩, ?_⟩
    · intro newer isNewer
      have isBelow := inputsAfter highLayer highInput newer isNewer
      unfold DiskFile.Below at isBelow ⊢
      omega
    · intro older isOlder layer mem
      rcases mem_cons.mp mem with rfl | inAfter
      · have isBelow := beforeRest older isOlder lowLayer (mem_append_left _ lowInput)
        unfold DiskFile.Below at isBelow ⊢
        omega
      · exact beforeRest older isOlder layer (mem_append_right _ inAfter)
  · rw [layersEq]
    exact forall_mem_replace (oldLayers ▸ ranged.layersOnDisk) (forall_mem_singleton.mpr onDisk)
  · exact ranged.tracked.sublist (trackedSublist.map _)
  · rw [append_cons before]
    exact forall_mem_replace (append_cons .. ▸ split ▸ ranged.outputs)
      (forall_mem_singleton.mpr (forall_mem_nil _))
  · intro file mem
    rw [append_cons before]
    refine exists_mem_replace (append_cons .. ▸ split ▸ ranged.placed file mem) ?_
    refine forall_mem_singleton.mpr fun places => ⟨.idle output, mem_singleton_self _, ?_⟩
    exact .inl ⟨output, mem_singleton_self _, insideOutput file mem places⟩
  · intro flushed inFlushed
    rw [layersEq]
    refine exists_mem_replace (oldLayers ▸ ranged.covered flushed inFlushed) ?_
    rintro layer isInput ⟨low, high⟩
    have isSource := mem_map_of_mem (f := fun file : DiskFile κ α => file.file) isInput
    exact ⟨output, mem_singleton_self _, (hull.lowest _ isSource).trans low,
      high.trans (hull.highest _ isSource)⟩

/-- Files go from disk: those that nothing tracks, and outputs of merges. -/
theorem removeFile {genId : Nat} {segments : List (Segment κ α)}
    (sameLayers : segments.flatMap (·.inputs) = repo.layers)
    (notLayer : ∀ layer ∈ repo.layers, layer.genId ≠ genId)
    (fewer : (segments.flatMap fun segment => segment.inputs ++ segment.outputs).Sublist
      (repo.segments.flatMap fun segment => segment.inputs ++ segment.outputs))
    (stillOutputs : ∀ segment ∈ segments, ∀ output ∈ segment.outputs,
      output.genId ≠ genId ∧ ∃ source ∈ repo.segments,
        segment.inputs = source.inputs ∧ output ∈ source.outputs)
    (stillPlaced : ∀ file ∈ repo.files, file.genId ≠ genId →
      ∀ segment ∈ repo.segments, segment.Places file → ∃ segment ∈ segments, segment.Places file) :
    { repo with
      files := repo.files.filter (·.genId != genId)
      segments := segments : RepoFiles κ α }.Ranged := by
  have remains : ∀ file ∈ repo.files.filter (·.genId != genId),
      file ∈ repo.files ∧ file.genId ≠ genId := by
    intro file mem
    simpa using mem_filter.mp mem
  have staysOnDisk : ∀ file ∈ repo.files, file.genId ≠ genId →
      file ∈ repo.files.filter (·.genId != genId) := by
    intro file mem differs
    exact mem_filter.mpr ⟨mem, by simpa using differs⟩
  refine { ranged with
    wellFormed := fun file mem => ranged.wellFormed file (remains file mem).1
    genIds := ranged.genIds.sublist (filter_sublist.map _)
    fresh := fun running file mem => ranged.fresh running file (remains file mem).1
    trackedFresh := fun file mem => ranged.trackedFresh file (fewer.subset mem)
    layersOrder := ?_, layersOnDisk := ?_
    tracked := ranged.tracked.sublist (fewer.map _)
    outputs := ?_, placed := ?_
    nested := fun file mem that inThat =>
      ranged.nested file (remains file mem).1 that (remains that inThat).1
    covered := ?_
    aligned := fun file mem => ranged.aligned file (remains file mem).1 }
  · rw [layers, sameLayers]
    exact ranged.layersOrder
  · intro layer mem
    rw [layers, sameLayers] at mem
    exact staysOnDisk layer (ranged.layersOnDisk layer mem) (notLayer layer mem)
  · intro segment mem output isOutput
    obtain ⟨differs, source, inSegments, sameInputs, isSource⟩ :=
      stillOutputs segment mem output isOutput
    obtain ⟨onDisk, hull⟩ := ranged.outputs source inSegments output isSource
    exact ⟨staysOnDisk output onDisk differs, sameInputs ▸ hull⟩
  · intro file mem
    obtain ⟨onDisk, differs⟩ := remains file mem
    obtain ⟨segment, inSegments, places⟩ := ranged.placed file onDisk
    exact stillPlaced file onDisk differs segment inSegments places
  · rw [layers, sameLayers]
    exact ranged.covered

theorem discard (split : repo.segments = before ++ segment :: after)
    (onlyOutput : segment.outputs = [output]) :
    { repo with
      files := repo.files.filter (·.genId != output.genId)
      segments := before ++ segment.inputs.map .idle ++ after : RepoFiles κ α }.Ranged := by
  have tracked := ranged.tracked
  rw [split, flatMap_append, flatMap_cons, onlyOutput] at tracked
  have notInput : ∀ file ∈ segment.inputs, file.genId ≠ output.genId := by
    simp only [map_append, nodup_append, mem_map] at tracked
    exact fun file isInput => tracked.2.1.1.2.2 _ ⟨file, isInput, rfl⟩ _ ⟨output, by simp, rfl⟩
  have others : ∀ other ∈ before ++ after, ∀ file ∈ other.inputs ++ other.outputs,
      file.genId ≠ output.genId := by
    simp only [map_append, nodup_append, mem_map, mem_append] at tracked
    obtain ⟨_, ⟨_, _, restApart⟩, beforeApart⟩ := tracked
    intro other mem file ofOther same
    rcases mem_append.mp mem with inBefore | inAfter
    · refine beforeApart _ ⟨file, mem_flatMap.mpr ⟨other, inBefore, ofOther⟩, rfl⟩ _ ?_ same
      exact .inl (.inr ⟨output, by simp, rfl⟩)
    · exact restApart _ (.inr ⟨output, by simp, rfl⟩) _
        ⟨file, mem_flatMap.mpr ⟨other, inAfter, ofOther⟩, rfl⟩ same.symm
  have idleInputs : (segment.inputs.map Segment.idle).flatMap (·.inputs) = segment.inputs := by
    simp [flatMap_map, Segment.idle]
  have idleTracked : ((segment.inputs.map Segment.idle).flatMap fun segment =>
      segment.inputs ++ segment.outputs) = segment.inputs := by
    simp [flatMap_map, Segment.idle]
  refine ranged.removeFile ?_ ?_ ?_ ?_ ?_
  · simp only [layers, split, flatMap_append, flatMap_cons, idleInputs, append_assoc]
  · intro layer mem
    obtain ⟨other, inSegments, isInput⟩ := mem_flatMap.mp mem
    rw [split, mem_append, mem_cons] at inSegments
    by_cases isSegment : other = segment
    · exact notInput layer (isSegment ▸ isInput)
    · refine others other (mem_append.mpr ?_) layer (mem_append_left _ isInput)
      simpa [isSegment] using inSegments
  · rw [split]
    simp only [flatMap_append, flatMap_cons, idleTracked, append_assoc]
    refine (List.Sublist.refl _).append ((List.Sublist.refl _).append ?_)
    exact sublist_append_right _ _
  · intro other mem file isOutput
    rcases mem_append.mp mem with inFirst | inAfter
    · rcases mem_append.mp inFirst with inBefore | isIdle
      · exact ⟨others other (by simp [inBefore]) file (by simp [isOutput]), other,
          by simp [split, inBefore], rfl, isOutput⟩
      · obtain ⟨layer, _, rfl⟩ := mem_map.mp isIdle
        exact absurd isOutput not_mem_nil
    · exact ⟨others other (by simp [inAfter]) file (by simp [isOutput]), other,
        by simp [split, inAfter], rfl, isOutput⟩
  · intro file onDisk differs other inOthers places
    rw [split] at inOthers
    rcases mem_append.mp inOthers with inBefore | inRest
    · exact ⟨other, by simp [inBefore], places⟩
    rcases mem_cons.mp inRest with rfl | inAfter
    · rcases places with ⟨layer, isInput, inside⟩ | isOutput
      · refine ⟨.idle layer, ?_, .inl ⟨layer, mem_singleton_self _, inside⟩⟩
        exact mem_append_left _ (mem_append_right _ (mem_map_of_mem isInput))
      · rw [onlyOutput, mem_singleton] at isOutput
        exact absurd (congrArg DiskFile.genId isOutput) differs
    · exact ⟨other, by simp [inAfter], places⟩

theorem remove {genId : Nat} (removable : repo.isRemovable genId = true) :
    { repo with
      files := repo.files.filter (·.genId != genId)
      segments := repo.segments.map fun segment =>
        { segment with outputs := segment.outputs.filter (·.genId != genId) } :
      RepoFiles κ α }.Ranged := by
  refine ranged.removeFile ?_ ?_ ?_ ?_ ?_
  · simp [layers, flatMap_map]
  · intro layer mem
    obtain ⟨segment, inSegments, isInput⟩ := mem_flatMap.mp mem
    have isClear := all_eq_true.mp removable segment inSegments
    have inputsClear := (Bool.and_eq_true _ _ ▸ isClear).1
    simpa using all_eq_true.mp inputsClear layer isInput
  · rw [flatMap_map]
    refine List.Sublist.flatMap_right _ fun segment _ => ?_
    exact (List.Sublist.refl _).append filter_sublist
  · intro segment mem output isOutput
    obtain ⟨source, inSegments, rfl⟩ := mem_map.mp mem
    obtain ⟨isSource, differs⟩ := mem_filter.mp isOutput
    exact ⟨by simpa using differs, source, inSegments, rfl, isSource⟩
  · intro file _ differs segment inSegments places
    refine ⟨_, mem_map_of_mem inSegments, ?_⟩
    rcases places with ⟨layer, isInput, inside⟩ | isOutput
    · exact .inl ⟨layer, isInput, inside⟩
    · exact .inr (mem_filter.mpr ⟨isOutput, by simpa using differs⟩)

end Settle

/-! ### A crash -/

section Crash

variable {fileVec : List (DiskFile κ α)}

omit [LinearOrder κ] ranged in
theorem loadedSegments_inputs (kept : List (DiskFile κ α)) :
    (loadedSegments kept).flatMap (·.inputs) =
      kept.mergeSort fun left right => left.file.lowestSeq ≤ right.file.lowestSeq := by
  simp [loadedSegments, flatMap_map, Segment.idle]

omit [LinearOrder κ] ranged in
theorem loadedSegments_tracked (kept : List (DiskFile κ α)) :
    ((loadedSegments kept).flatMap fun segment => segment.inputs ++ segment.outputs) =
      kept.mergeSort fun left right => left.file.lowestSeq ≤ right.file.lowestSeq := by
  simp [loadedSegments, flatMap_map, Segment.idle]

omit [LinearOrder κ] ranged in
/-- The files that a reload keeps of a reachable set. -/
theorem kept_onDisk (perm : fileVec.Perm repo.files) {file : DiskFile κ α}
    (isKept : file ∈ dropLeftovers fileVec) :
    file ∈ repo.files :=
  perm.mem_iff.mp ((dropLeftovers_sublist fileVec).subset isKept)

theorem kept_disjoint (perm : fileVec.Perm repo.files) :
    (dropLeftovers fileVec).Pairwise fun left right => ¬ left.Overlaps right :=
  dropLeftovers_disjoint ((perm.map _).nodup_iff.mpr ranged.genIds)

theorem kept_covers (perm : fileVec.Perm repo.files) {file : DiskFile κ α}
    (mem : file ∈ repo.files) :
    ∃ kept ∈ dropLeftovers fileVec, file.Inside kept := by
  refine dropLeftovers_covers ?_ file (perm.mem_iff.mpr mem)
  intro first inFirst second inSecond
  exact ranged.nested first (perm.mem_iff.mp inFirst) second (perm.mem_iff.mp inSecond)

/-- The mapping a reload builds is in order. -/
theorem kept_order (perm : fileVec.Perm repo.files) :
    ((dropLeftovers fileVec).mergeSort fun left right =>
      left.file.lowestSeq ≤ right.file.lowestSeq).Pairwise DiskFile.Below := by
  have sortPerm := mergeSort_perm (dropLeftovers fileVec) fun left right =>
    decide (left.file.lowestSeq ≤ right.file.lowestSeq)
  have apart := (sortPerm.pairwise_iff fun {left right} notOverlaps overlaps =>
    notOverlaps ⟨overlaps.2, overlaps.1⟩).mpr (ranged.kept_disjoint perm)
  have sorted : ((dropLeftovers fileVec).mergeSort fun left right =>
      left.file.lowestSeq ≤ right.file.lowestSeq).Pairwise fun left right =>
        decide (left.file.lowestSeq ≤ right.file.lowestSeq) = true :=
    pairwise_mergeSort (by simp; omega) (by simp; omega) _
  refine (apart.and sorted).imp_of_mem ?_
  rintro left right inLeft inRight ⟨notOverlaps, isSorted⟩
  have rightRange := (ranged.wellFormed right
    (kept_onDisk perm (sortPerm.mem_iff.mp inRight))).range
  have ordered : left.file.lowestSeq ≤ right.file.lowestSeq := by simpa using isSorted
  by_contra notBelow
  exact notOverlaps ⟨ordered.trans rightRange, not_lt.mp notBelow⟩

theorem crash (perm : fileVec.Perm repo.files) :
    { repo with
      segments := loadedSegments (dropLeftovers fileVec)
      nextGenId := ((dropLeftovers fileVec).map (·.genId)).foldl max 0 + 1
      reloading := true : RepoFiles κ α }.Ranged := by
  have sortPerm := mergeSort_perm (dropLeftovers fileVec) fun left right =>
    decide (left.file.lowestSeq ≤ right.file.lowestSeq)
  have layersEq := loadedSegments_inputs (dropLeftovers fileVec)
  have trackedEq := loadedSegments_tracked (dropLeftovers fileVec)
  refine { ranged with
    fresh := fun running => nomatch running
    trackedFresh := ?_, layersOrder := ?_, layersOnDisk := ?_, tracked := ?_, outputs := ?_
    placed := ?_, covered := ?_ }
  · intro file mem
    rw [trackedEq] at mem
    obtain ⟨⟨_, largest⟩, _⟩ := le_foldl_max ((dropLeftovers fileVec).map (·.genId)) 0
    have isKept := mem_map_of_mem (f := fun file : DiskFile κ α => file.genId)
      (sortPerm.mem_iff.mp mem)
    exact Nat.lt_succ_of_le (largest _ isKept)
  · rw [layers, layersEq]
    exact ranged.kept_order perm
  · intro layer mem
    rw [layers, layersEq] at mem
    exact kept_onDisk perm (sortPerm.mem_iff.mp mem)
  · rw [trackedEq]
    refine (sortPerm.map _).nodup_iff.mpr ?_
    refine List.Nodup.sublist ((dropLeftovers_sublist fileVec).map _) ?_
    exact (perm.map _).nodup_iff.mpr ranged.genIds
  · intro segment mem output isOutput
    obtain ⟨layer, _, rfl⟩ := mem_map.mp mem
    exact absurd isOutput not_mem_nil
  · intro file mem
    obtain ⟨kept, isKept, inside⟩ := ranged.kept_covers perm mem
    refine ⟨.idle kept, mem_map_of_mem (sortPerm.mem_iff.mpr isKept), .inl ?_⟩
    exact ⟨kept, mem_singleton_self _, inside⟩
  · intro flushed inFlushed
    obtain ⟨layer, inLayers, low, high⟩ := ranged.covered flushed inFlushed
    obtain ⟨kept, isKept, inside⟩ := ranged.kept_covers perm (ranged.layersOnDisk layer inLayers)
    rw [layers, layersEq]
    exact ⟨kept, sortPerm.mem_iff.mpr isKept, inside.1.trans low, high.trans inside.2⟩

theorem opened (onlyLayers : repo.files.all (fun file =>
      repo.layers.any (·.genId == file.genId)) = true) :
    { repo with reloading := false : RepoFiles κ α }.Ranged := by
  refine { ranged with fresh := fun _ file mem => ?_ }
  obtain ⟨layer, inLayers, same⟩ := any_eq_true.mp (all_eq_true.mp onlyLayers file mem)
  obtain ⟨segment, inSegments, isInput⟩ := mem_flatMap.mp inLayers
  have isFresh := ranged.trackedFresh layer
    (mem_flatMap.mpr ⟨segment, inSegments, mem_append_left _ isInput⟩)
  rwa [beq_iff_eq.mp same] at isFresh

end Crash

end Ranged

/-! ### Any step -/

section Step

variable [DecidableEq α] {repo next : RepoFiles κ α}

/-- An element of a list stands between those before and those behind it. -/
theorem split_getElem? {Element : Type} {items : List Element} {index : Nat} {item : Element}
    (isItem : items[index]? = some item) :
    items = items.take index ++ item :: items.drop (index + 1) ∧
      ∀ other, items.set index other = items.take index ++ other :: items.drop (index + 1) := by
  obtain ⟨inBounds, rfl⟩ := List.getElem?_eq_some_iff.mp isItem
  refine ⟨?_, fun other => ?_⟩
  · rw [getElem_cons_drop, take_append_drop]
  · rw [set_eq_take_append_cons_drop, if_pos inBounds]

/-- What a merge step does. -/
theorem step_mergeFiles
    {start count : Nat} {canTail canTailTombstone : Bool} {retainFrom : Option Nat}
    (stepped : repo.step (.mergeFiles start count canTail canTailTombstone retainFrom) =
      some next) :
    ∃ before run after file, repo.segments = before ++ run ++ after ∧ repo.reloading = false ∧
      run.flatMap (·.outputs) = [] ∧
      (∀ segment ∈ run, segment.outputs = []) ∧
      (canTailTombstone = true → before = []) ∧
      mergeIndexes (mergeFlags false canTail canTailTombstone retainFrom
          ((run.flatMap (·.inputs)).map (·.file)))
        ((run.flatMap (·.inputs)).map (·.file)) = some file ∧
      next = { repo with
        files := repo.files ++ [⟨repo.nextGenId, file⟩]
        segments := before ++
          ⟨run.flatMap (·.inputs), run.flatMap (·.outputs) ++ [⟨repo.nextGenId, file⟩],
            retainFrom⟩ :: after
        nextGenId := repo.nextGenId + 1
        horizon :=
          if canTail then max repo.horizon (horizonAfter retainFrom file.highestSeq)
          else repo.horizon } := by
  simp only [step] at stepped
  obtain ⟨accepted, stepped⟩ := Option.ite_none_left_eq_some.mp stepped
  obtain ⟨file, merged, rfl⟩ := Option.map_eq_some_iff.mp stepped
  simp only [Bool.or_eq_true, not_or, Bool.not_eq_true, Bool.not_eq_false',
    all_eq_true, Bool.and_eq_false_iff, bne_eq_false_iff_eq] at accepted
  obtain ⟨⟨⟨running, _⟩, idle⟩, lowest⟩ := accepted
  have noOutputs : ∀ segment ∈ (repo.segments.drop start).take count, segment.outputs = [] :=
    fun segment mem => List.isEmpty_iff.mp (idle segment mem)
  have nothing : ((repo.segments.drop start).take count).flatMap (·.outputs) = [] :=
    flatMap_eq_nil_iff.mpr noOutputs
  refine ⟨repo.segments.take start, (repo.segments.drop start).take count,
    (repo.segments.drop start).drop count, file, ?_, running, nothing, noOutputs, ?_,
    merged, ?_⟩
  · rw [append_assoc, take_append_drop, take_append_drop]
  · intro tailed
    rcases lowest with notTailed | isFirst
    · rw [tailed] at notTailed
      contradiction
    · rw [isFirst, take_zero]
  · rw [nothing, nil_append]

/-- What a fold step does. -/
theorem step_foldMerged {index : Nat} (stepped : repo.step (.foldMerged index) = some next) :
    ∃ before segment after merged file, repo.segments[index]? = some segment ∧
      repo.segments = before ++ segment :: after ∧ repo.reloading = false ∧
      segment.outputs = [merged] ∧
      foldDataFile segment.retainFrom merged.file = .ok file ∧
      next = { repo with
        files := repo.files ++ [⟨repo.nextGenId, file⟩]
        segments := before ++
          ⟨segment.inputs, segment.outputs ++ [⟨repo.nextGenId, file⟩], segment.retainFrom⟩ :: after
        nextGenId := repo.nextGenId + 1
        horizon := max repo.horizon (horizonAfter segment.retainFrom file.highestSeq) } := by
  simp only [step] at stepped
  split at stepped
  case h_1 inputs merged retainFrom isSegment =>
    obtain ⟨running, stepped⟩ := Option.ite_none_left_eq_some.mp stepped
    obtain ⟨file, folded, rfl⟩ := Option.map_eq_some_iff.mp stepped
    obtain ⟨split, replaced⟩ := split_getElem? isSegment
    refine ⟨_, _, _, merged, file, isSegment, split, by simpa using running, rfl, ?_, ?_⟩
    · cases isFolded : foldDataFile retainFrom merged.file with
      | error failure => simp [isFolded, Except.toOption] at folded
      | ok other => simpa [isFolded, Except.toOption] using folded
    · rw [replaced]
      rfl
  case h_2 => contradiction

/-- Every step keeps the ranges of the files in order. -/
theorem Ranged.step (ranged : repo.Ranged) {event : FilesEvent κ α} (allowed : repo.Allowed event)
    (stepped : repo.step event = some next) :
    next.Ranged := by
  cases event with
  | flush file =>
    simp only [RepoFiles.step] at stepped
    obtain ⟨running, stepped⟩ := Option.ite_none_left_eq_some.mp stepped
    cases stepped
    exact ranged.flush (by simpa using running) allowed.1 allowed.2
  | mergeFiles start count canTail canTailTombstone retainFrom =>
    obtain ⟨before, run, after, file, split, running, _, noOutputs, _, merged, rfl⟩ :=
      step_mergeFiles stepped
    obtain ⟨wellFormed, disjoint⟩ := ranged.sources split
    refine ranged.write running split (mergeIndexes_wellFormed wellFormed disjoint merged)
      (mergeIndexes_hull wellFormed merged) ?_ retainFrom _
    intro segment inRun output isOutput
    rw [noOutputs segment inRun] at isOutput
    exact absurd isOutput not_mem_nil
  | foldMerged index =>
    obtain ⟨before, segment, after, merged, file, _, split, running, isMerged, folded, rfl⟩ :=
      step_foldMerged stepped
    have inSegments : segment ∈ repo.segments := by simp [split]
    have isOutput : merged ∈ segment.outputs := by simp [isMerged]
    obtain ⟨onDisk, hull⟩ := ranged.outputs segment inSegments merged isOutput
    have mergedWellFormed := ranged.wellFormed merged onDisk
    obtain ⟨lowest, highest, _⟩ := foldDataFile_entriesOf mergedWellFormed folded
    have split' : repo.segments = before ++ [segment] ++ after := by simp [split]
    have foldHull : IsHull ((([segment] : List (Segment κ α)).flatMap (·.inputs)).map
        (·.file)) file := by
      rw [flatMap_singleton]
      exact ⟨lowest ▸ hull.lowest, highest ▸ hull.highest, lowest ▸ hull.lowestIs,
        highest ▸ hull.highestIs⟩
    have written := ranged.write running split'
      (foldDataFile_wellFormed mergedWellFormed folded) foldHull
      (by
        intro other isSegment output isOther
        rw [mem_singleton.mp isSegment] at isOther
        rw [flatMap_singleton]
        exact (ranged.outputs segment inSegments output isOther).2)
      segment.retainFrom (max repo.horizon (horizonAfter segment.retainFrom file.highestSeq))
    simpa only [flatMap_singleton] using written
  | publish index =>
    simp only [RepoFiles.step] at stepped
    split at stepped
    case h_1 segment isSegment =>
      obtain ⟨output, isLast, rfl⟩ := Option.map_eq_some_iff.mp stepped
      obtain ⟨split, replaced⟩ := split_getElem? isSegment
      rw [replaced]
      exact ranged.publish split (mem_of_getLast? isLast)
    case h_2 => contradiction
  | discard index =>
    simp only [RepoFiles.step] at stepped
    split at stepped
    case h_1 inputs output retainFrom isSegment =>
      cases stepped
      exact ranged.discard (split_getElem? isSegment).1 rfl
    case h_2 => contradiction
  | remove genId =>
    simp only [RepoFiles.step] at stepped
    obtain ⟨removable, stepped⟩ := Option.ite_none_right_eq_some.mp stepped
    cases stepped
    exact ranged.remove removable
  | crash fileVec =>
    cases stepped
    exact ranged.crash allowed
  | opened =>
    simp only [RepoFiles.step] at stepped
    obtain ⟨onlyLayers, stepped⟩ := Option.ite_none_right_eq_some.mp stepped
    cases stepped
    exact ranged.opened onlyLayers

end Step

end RepoFiles

end Orly
