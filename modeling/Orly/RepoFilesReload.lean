import Orly.RepoFilesReads

namespace Orly

/-!
# Reopening after a crash

In every run the reload keeps, of the files a crash leaves, exactly one for each sequence
number.  What it keeps reads as the mapping read before the crash for every key that folds
preserve; a fold of a `str` key changes its reads, and a crash can make the reload keep the
folded file.
-/

open EventRuns List

namespace RepoFiles

variable {κ α : Type} [LinearOrder κ] [DecidableEq α] {repo : RepoFiles κ α}
  {fileVec : List (DiskFile κ α)}

instance (file : DiskFile κ α) (seq : Nat) : Decidable (file.Covers seq) :=
  inferInstanceAs (Decidable (_ ∧ _))

theorem ranged_of_reaches (reached : Reaches step Allowed empty repo) : repo.Ranged :=
  reached.invariant ranged_empty fun _ _ _ ranged allowed stepped => ranged.step allowed stepped

theorem standing_of_reaches
    {discipline : Discipline} (disciplined : discipline.WellFormed) {key : κ}
    (reached : Reaches step
      (fun repo event => repo.Allowed event ∧ discipline.Obeyed key repo event) empty repo) :
    repo.Standing discipline key :=
  reached.invariant (standing_empty discipline key)
    fun _ _ _ standing allowed stepped =>
      standing.step disciplined allowed.1 allowed.2 stepped

omit [DecidableEq α] in
/-- Of the files a reload keeps, exactly one covers a sequence number on disk. -/
theorem Ranged.covered_once (ranged : repo.Ranged) (perm : fileVec.Perm repo.files) {seq : Nat}
    (onDisk : ∃ file ∈ repo.files, file.Covers seq) :
    ((dropLeftovers fileVec).filter (·.Covers seq)).length = 1 := by
  obtain ⟨file, mem, covers⟩ := onDisk
  obtain ⟨kept, isKept, inside⟩ := ranged.kept_covers perm mem
  have keptCovers : kept.Covers seq := ⟨inside.1.trans covers.1, covers.2.trans inside.2⟩
  have inFilter : kept ∈ (dropLeftovers fileVec).filter (·.Covers seq) :=
    mem_filter.mpr ⟨isKept, by simpa using keptCovers⟩
  have apart := (ranged.kept_disjoint perm).filter (·.Covers seq)
  match isFilter : (dropLeftovers fileVec).filter (·.Covers seq) with
  | [] =>
    rw [isFilter] at inFilter
    exact absurd inFilter not_mem_nil
  | [_] => rw [isFilter, length_singleton]
  | first :: second :: others =>
    have coversSeq : ∀ other ∈ first :: second :: others, other.Covers seq := by
      intro other isOther
      rw [← isFilter] at isOther
      simpa using (mem_filter.mp isOther).2
    rw [isFilter] at apart
    have notOverlaps := (pairwise_cons.mp apart).1 second mem_cons_self
    have firstCovers := coversSeq first mem_cons_self
    have secondCovers := coversSeq second (mem_cons_of_mem _ mem_cons_self)
    exact absurd ⟨firstCovers.1.trans secondCovers.2, secondCovers.1.trans firstCovers.2⟩
      notOverlaps

omit [DecidableEq α] in
/-- The ranges of the mapping's files are apart. -/
theorem Ranged.layers_apart (ranged : repo.Ranged) :
    repo.layers.Pairwise fun left right => ¬ left.Overlaps right := by
  refine ranged.layersOrder.imp fun {left right} below overlaps => ?_
  exact absurd overlaps.2 (not_le.mpr below)

/--
In whatever order a reload finds the files of a reachable set, it ends with files whose
ranges are apart, one of which covers each sequence number on disk and one of which holds
the range of each file it dropped.  From the horizon on they read as the mapping did, for
every key all of whose flushes and folds obeyed a discipline.
-/
theorem reload_restores_every_version (reached : Reaches step Allowed empty repo)
    (perm : fileVec.Perm repo.files) :
    ((dropLeftovers fileVec).Pairwise fun left right => ¬ left.Overlaps right) ∧
      (∀ seq, (∃ file ∈ repo.files, file.Covers seq) →
        ((dropLeftovers fileVec).filter (·.Covers seq)).length = 1) ∧
      (∀ file ∈ repo.files, ∃ kept ∈ dropLeftovers fileVec, file.Inside kept) ∧
      ∀ (key : κ) (discipline : Discipline), discipline.WellFormed → Reaches step
          (fun repo event => repo.Allowed event ∧ discipline.Obeyed key repo event)
          empty repo →
        ∀ version, repo.horizon ≤ version →
          ∀ newer : List (Item κ α), discipline.Context key newer →
            readKey (newer ++
                atVersion version (runItems ((dropLeftovers fileVec).map (·.file)) key)) key =
              readKey (newer ++
                atVersion version (runItems (repo.layers.map (·.file)) key)) key := by
  have ranged := ranged_of_reaches reached
  refine ⟨ranged.kept_disjoint perm, fun seq => ranged.covered_once perm,
    fun file => ranged.kept_covers perm, ?_⟩
  intro key discipline disciplined obeyed version fromHorizon newer context
  have standing := standing_of_reaches disciplined obeyed
  have before := standing.reads ranged.layersOnDisk ranged.layers_apart ranged.covered
    fromHorizon context
  have keptCovers : ∀ flushedFile ∈ repo.flushed,
      ∃ file ∈ dropLeftovers fileVec, file.file.Holds flushedFile := by
    intro flushedFile isFlushed
    obtain ⟨layer, inLayers, low, high⟩ := ranged.covered flushedFile isFlushed
    obtain ⟨kept, isKept, inside⟩ := ranged.kept_covers perm (ranged.layersOnDisk layer inLayers)
    exact ⟨kept, isKept, inside.1.trans low, high.trans inside.2⟩
  have after := standing.reads (fun file => Ranged.kept_onDisk perm)
    (ranged.kept_disjoint perm) keptCovers fromHorizon context
  exact after.trans before.symm

/-! ## A run -/

/-- Three flushes: key 7 is appended to, key 8 counted up. -/
def firstFlush : DataFile Nat Nat where
  lowestSeq := 1
  highestSeq := 1
  keys := [⟨7, ⟨1, .assign, some (.str [97])⟩, []⟩, ⟨8, ⟨1, .assign, some (.int 1)⟩, []⟩]

def secondFlush : DataFile Nat Nat where
  lowestSeq := 2
  highestSeq := 2
  keys := [⟨7, ⟨2, .add, some (.str [98])⟩, []⟩, ⟨8, ⟨2, .add, some (.int 2)⟩, []⟩]

def thirdFlush : DataFile Nat Nat where
  lowestSeq := 3
  highestSeq := 3
  keys := [⟨7, ⟨3, .add, some (.str [99])⟩, []⟩]

/-- The merge of the first two, and its fold. -/
def sampleMerged : DataFile Nat Nat where
  lowestSeq := 1
  highestSeq := 2
  keys :=
    [⟨7, ⟨2, .add, some (.str [98])⟩, [⟨1, .assign, some (.str [97])⟩]⟩,
      ⟨8, ⟨2, .add, some (.int 2)⟩, [⟨1, .assign, some (.int 1)⟩]⟩]

def sampleFolded : DataFile Nat Nat where
  lowestSeq := 1
  highestSeq := 2
  keys := [⟨7, ⟨2, .assign, some (.str [97, 98])⟩, []⟩, ⟨8, ⟨2, .assign, some (.int 3)⟩, []⟩]

theorem sample_merge : mergeIndexes (mergeFlags false true false none [firstFlush, secondFlush])
      [firstFlush, secondFlush] = some sampleMerged := by
  simp [mergeIndexes, mergeFlags, firstFlush, secondFlush, sampleMerged,
    MergeFlags.heapOrder, MergeFlags.currentCursor, MergeFlags.historyCursor,
    MergeFlags.dropsKey, MergeFlags.keptHistory, writeUpdateIndex, writeKeys, pushKey,
    SortedKey.Before]

theorem sample_fold : foldDataFile none sampleMerged = .ok sampleFolded := by
  have sorted : ∀ fileKey ∈ sampleMerged.keys, fileKey.entries.mergeSort
      (fun newer older => older.seqNum ≤ newer.seqNum) = fileKey.entries := by
    intro fileKey mem
    refine mergeSort_newestFirst ?_
    rcases mem_cons.mp mem with rfl | isSecond
    · simp [NewestFirst, FileKey.entries]
    · rw [mem_singleton.mp isSecond]
      simp [NewestFirst, FileKey.entries]
  have first := sorted _ mem_cons_self
  have second := sorted _ (mem_cons_of_mem _ mem_cons_self)
  simp only [foldDataFile, sampleMerged, foldKeys, foldEntries, first, second]
  rfl

/-- The files after the flushes. -/
def sampleFlushed : RepoFiles Nat Nat where
  files := [⟨1, firstFlush⟩, ⟨2, secondFlush⟩, ⟨3, thirdFlush⟩]
  segments := [.idle ⟨1, firstFlush⟩, .idle ⟨2, secondFlush⟩, .idle ⟨3, thirdFlush⟩]
  nextGenId := 4
  horizon := 0
  reloading := false
  flushed := [thirdFlush, secondFlush, firstFlush]

/-- The files after the merge of the first two and its fold, before it is published. -/
def sampleRepo : RepoFiles Nat Nat where
  files := [⟨1, firstFlush⟩, ⟨2, secondFlush⟩, ⟨3, thirdFlush⟩, ⟨4, sampleMerged⟩,
    ⟨5, sampleFolded⟩]
  segments :=
    [⟨[⟨1, firstFlush⟩, ⟨2, secondFlush⟩], [⟨4, sampleMerged⟩, ⟨5, sampleFolded⟩], none⟩,
      .idle ⟨3, thirdFlush⟩]
  nextGenId := 6
  horizon := 2
  reloading := false
  flushed := [thirdFlush, secondFlush, firstFlush]

/-- The environment of the run, under which key 8 is a counter. -/
abbrev SampleAllowed (repo : RepoFiles Nat Nat) (event : FilesEvent Nat Nat) : Prop :=
  repo.Allowed event ∧ (Discipline.counter .add .int).Obeyed 8 repo event

theorem sample_flush {repo : RepoFiles Nat Nat} (reached : Reaches step SampleAllowed empty repo)
    (running : repo.reloading = false) {file : DataFile Nat Nat} (wellFormed : file.WellFormed)
    (newest : ∀ older ∈ repo.flushed, older.highestSeq < file.lowestSeq)
    (admits : ∀ entry ∈ entriesOf file.keys 8, (Discipline.counter .add .int).Admits entry) :
    Reaches step SampleAllowed empty
      { repo with
        files := repo.files ++ [⟨repo.nextGenId, file⟩]
        segments := repo.segments ++ [.idle ⟨repo.nextGenId, file⟩]
        nextGenId := repo.nextGenId + 1
        flushed := file :: repo.flushed } := by
  have allowed : SampleAllowed repo (.flush file) := ⟨⟨wellFormed, newest⟩, admits⟩
  exact reached.tail allowed (if_neg (by simp [running]))

theorem sample_flushes : Reaches step SampleAllowed empty sampleFlushed := by
  have wellFormed : ∀ file ∈ [firstFlush, secondFlush, thirdFlush], file.WellFormed := by
    intro file mem
    simp only [mem_cons, not_mem_nil, or_false] at mem
    rcases mem with rfl | rfl | rfl <;> constructor <;>
      simp [firstFlush, secondFlush, thirdFlush, FileKey.entries, NewestFirst]
  have admits : ∀ file ∈ [firstFlush, secondFlush, thirdFlush],
      ∀ entry ∈ entriesOf file.keys 8, (Discipline.counter .add .int).Admits entry := by
    intro file mem
    simp only [mem_cons, not_mem_nil, or_false] at mem
    rcases mem with rfl | rfl | rfl <;>
      simp [firstFlush, secondFlush, thirdFlush, entriesOf, FileKey.entries,
        Discipline.Admits, Var.kind]
  have first := sample_flush .refl rfl (wellFormed firstFlush (by simp)) (by simp [empty])
    (admits firstFlush (by simp))
  have second := sample_flush first rfl (wellFormed secondFlush (by simp))
    (by simp [empty, firstFlush, secondFlush]) (admits secondFlush (by simp))
  exact sample_flush second rfl (wellFormed thirdFlush (by simp))
    (by simp [empty, firstFlush, secondFlush, thirdFlush]) (admits thirdFlush (by simp))

theorem sample_reaches : Reaches step SampleAllowed empty sampleRepo := by
  let merged : RepoFiles Nat Nat :=
    { sampleFlushed with
      files := sampleFlushed.files ++ [⟨4, sampleMerged⟩]
      segments := [⟨[⟨1, firstFlush⟩, ⟨2, secondFlush⟩], [⟨4, sampleMerged⟩], none⟩,
        .idle ⟨3, thirdFlush⟩]
      nextGenId := 5
      horizon := 2 }
  have mergeAllowed : SampleAllowed sampleFlushed (.mergeFiles 0 2 true false none) :=
    ⟨trivial, trivial⟩
  have merges : sampleFlushed.step (.mergeFiles 0 2 true false none) = some merged :=
    congrArg (Option.map _) sample_merge
  have foldAllowed : SampleAllowed merged (.foldMerged 0) := ⟨trivial, fun _ _ _ _ => trivial⟩
  have folds : merged.step (.foldMerged 0) = some sampleRepo := by
    simp only [step, merged, getElem?_cons_zero, sampleFlushed, sample_fold]
    rfl
  exact (sample_flushes.tail mergeAllowed merges).tail foldAllowed folds

/-- What the reload keeps of these files. -/
theorem sample_kept : dropLeftovers sampleRepo.files = [⟨3, thirdFlush⟩, ⟨5, sampleFolded⟩] := by
  have firstTurn : dropLeftovers sampleRepo.files = dropLeftovers
      [⟨2, secondFlush⟩, ⟨3, thirdFlush⟩, ⟨4, sampleMerged⟩, ⟨5, sampleFolded⟩] := by
    rw [dropLeftovers]
    rfl
  have secondTurn : dropLeftovers
      [⟨2, secondFlush⟩, ⟨3, thirdFlush⟩, ⟨4, sampleMerged⟩, ⟨5, sampleFolded⟩] =
        dropLeftovers [⟨3, thirdFlush⟩, ⟨4, sampleMerged⟩, ⟨5, sampleFolded⟩] := by
    rw [dropLeftovers]
    rfl
  have thirdTurn : dropLeftovers [⟨3, thirdFlush⟩, ⟨4, sampleMerged⟩, ⟨5, sampleFolded⟩] =
        dropLeftovers [⟨3, thirdFlush⟩, ⟨5, sampleFolded⟩] := by
    rw [dropLeftovers]
    rfl
  rw [firstTurn, secondTurn, thirdTurn, dropLeftovers]
  rfl

/-- The files of the run: the reload keeps the folded file, and key 8 reads as before. -/
theorem reload_restores_sampleRepo :
    dropLeftovers sampleRepo.files = [⟨3, thirdFlush⟩, ⟨5, sampleFolded⟩] ∧
      readKey (atVersion 3 (runItems ((dropLeftovers sampleRepo.files).map (·.file)) 8)) 8 =
        readKey (atVersion 3 (runItems (sampleRepo.layers.map (·.file)) 8)) 8 := by
  refine ⟨sample_kept, ?_⟩
  have reached : Reaches step Allowed empty sampleRepo :=
    sample_reaches.mono fun _ _ allowed => allowed.1
  have counts : (Discipline.counter .add .int).WellFormed := ⟨rfl, rfl⟩
  exact (reload_restores_every_version reached (List.Perm.refl _)).2.2.2 8 _ counts
    sample_reaches 3 (by decide) [] ⟨by simp, by simp [keyUpdateIds]⟩

/--
Before the crash key 7 reads `acb`; the reload keeps the folded file, over which it reads
`abc`.
-/
theorem reload_changes_appended_key :
    Reaches step Allowed empty sampleRepo ∧ sampleRepo.horizon ≤ 3 ∧
      readKey (atVersion 3 (runItems (sampleRepo.layers.map (·.file)) 7)) 7 =
        .ok (some (.str [97, 99, 98])) ∧
      readKey (atVersion 3 (runItems ((dropLeftovers sampleRepo.files).map (·.file)) 7)) 7 =
        .ok (some (.str [97, 98, 99])) := by
  have before : runEntries (sampleRepo.layers.map (·.file)) 7 =
      [⟨3, .add, some (.str [99])⟩, ⟨2, .add, some (.str [98])⟩, ⟨1, .assign, some (.str [97])⟩] :=
    runEntries_of_perm (by simp [NewestFirst]) (by decide)
  have after : runEntries ([⟨3, thirdFlush⟩, ⟨5, sampleFolded⟩].map
      fun file : DiskFile Nat Nat => file.file) 7 =
        [⟨3, .add, some (.str [99])⟩, ⟨2, .assign, some (.str [97, 98])⟩] :=
    runEntries_of_perm (by simp [NewestFirst]) (by decide)
  refine ⟨sample_reaches.mono fun _ _ allowed => allowed.1, by decide, ?_, ?_⟩
  · rw [runItems, before]
    decide
  · rw [sample_kept, runItems, after]
    decide

/-- From the horizon on, the mapping of any run reads a key all of whose flushes and folds
obeyed a discipline as if no file had been merged, folded or reloaded. -/
theorem mapping_reads_as_flushed
    {discipline : Discipline} (disciplined : discipline.WellFormed) {key : κ}
    (reached : Reaches step
      (fun repo event => repo.Allowed event ∧ discipline.Obeyed key repo event) empty repo)
    {version : Nat} (fromHorizon : repo.horizon ≤ version) (newer : List (Item κ α))
    (context : discipline.Context key newer) :
    readKey (newer ++ atVersion version (runItems (repo.layers.map (·.file)) key)) key =
      readKey (newer ++ (Discipline.seenAt version (repo.flushed.flatMap fun flushedFile =>
        entriesOf flushedFile.keys key)).map (FoldEntry.toItem key)) key := by
  have ranged := ranged_of_reaches (reached.mono fun _ _ allowed => allowed.1)
  exact (standing_of_reaches disciplined reached).reads ranged.layersOnDisk ranged.layers_apart
    ranged.covered fromHorizon context

/-- The sample's counter at version 3. -/
theorem mapping_reads_as_flushed_sampleRepo :
    readKey (atVersion 3 (runItems (sampleRepo.layers.map (·.file)) 8)) 8 =
      readKey ((Discipline.seenAt 3 (sampleRepo.flushed.flatMap fun flushedFile =>
        entriesOf flushedFile.keys 8)).map (FoldEntry.toItem 8)) 8 := by
  have counts : (Discipline.counter .add .int).WellFormed := ⟨rfl, rfl⟩
  exact mapping_reads_as_flushed counts sample_reaches (by decide) []
    ⟨by simp, by simp [keyUpdateIds]⟩

end RepoFiles

end Orly
