import Orly.DurableLoads

namespace Orly

/-!
# Loads return the newest save

A write or a merge drops the newest entry of an id among its inputs when it has expired,
and an older entry of the id in another layer then comes back.  A load returns the newest
save, or nothing once it has expired, in every run in which no step does so and no mapping
is left half built.
-/

open List DurableContents

section Newest

variable {Id Form : Type} [LinearOrder Id] (indexing : DurableIndexing Id)

/-- The newest save of an id. -/
def newestSave (saves : List (DurableSave Id Form)) (id : Id) : Option (DurableSave Id Form) :=
  (saves.filter (·.entry.id = id)).getLast?

/-- The entry is in the list and the newest of its id there. -/
structure NewestIn (entries : List (DurableEntry Id Form)) (entry : DurableEntry Id Form) :
    Prop where
  member : entry ∈ entries
  best : ∀ other ∈ entries, other.id = entry.id → other.seqNum ≤ entry.seqNum

/-- Whatever a step that writes these inputs anew drops for its age leaves no older entry
of its id behind. -/
def Covered (now : Nat) (inputs others : List (DurableEntry Id Form)) : Prop :=
  ∀ entry, NewestIn inputs entry → entry.deadlineCount < now →
    (∀ other ∈ others, other.id ≠ entry.id) ∨
      ∃ other ∈ others, other.id = entry.id ∧ entry.seqNum ≤ other.seqNum

/-- Some inputs are replaced by a thinned copy, next to others. -/
structure Replaced (now : Nat)
    (before after inputs others outputs : List (DurableEntry Id Form)) : Prop where
  before_iff : ∀ entry, entry ∈ before ↔ entry ∈ inputs ∨ entry ∈ others
  after_iff : ∀ entry, entry ∈ after ↔ entry ∈ others ∨ entry ∈ outputs
  thinned : Thinned now inputs outputs
  unique : ∀ first ∈ before, ∀ second ∈ before, first.seqNum = second.seqNum → first = second

namespace Replaced

variable {now : Nat} {before after inputs others outputs : List (DurableEntry Id Form)}

variable {entry : DurableEntry Id Form}

section

variable (replaced : Replaced now before after inputs others outputs)

include replaced

theorem subset (mem : entry ∈ after) : entry ∈ before := by
  rw [replaced.before_iff]
  rcases (replaced.after_iff entry).mp mem with isOther | isOutput
  · exact Or.inr isOther
  · exact Or.inl (replaced.thinned.kept entry isOutput).1

/-- An expired newest entry of the inputs leaves no entry of its id in the outputs. -/
theorem outputs_ne (newest : NewestIn inputs entry)
    (expired : entry.deadlineCount < now) {output : DurableEntry Id Form}
    (isOutput : output ∈ outputs) :
    output.id ≠ entry.id := by
  intro sameId
  obtain ⟨isInput, unexpired, best⟩ := replaced.thinned.kept output isOutput
  have atMost := newest.best output isInput sameId
  have atLeast := best entry newest.member sameId.symm
  have same := replaced.unique output ((replaced.before_iff output).mpr (Or.inl isInput)) entry
    ((replaced.before_iff entry).mpr (Or.inl newest.member)) (by omega)
  rw [same] at unexpired
  omega

/-- The newest entry of an id stays, or it has expired and nothing of its id is left. -/
theorem newest_stays (covered : Covered now inputs others) (newest : NewestIn before entry) :
    NewestIn after entry ∨ entry.deadlineCount < now ∧ ∀ other ∈ after, other.id ≠ entry.id := by
  have stays : entry ∈ after → NewestIn after entry := fun mem =>
    ⟨mem, fun other isOther => newest.best other (replaced.subset isOther)⟩
  by_cases isOther : entry ∈ others
  · exact Or.inl (stays ((replaced.after_iff entry).mpr (Or.inl isOther)))
  have isInput := ((replaced.before_iff entry).mp newest.member).resolve_right isOther
  have inputNewest : NewestIn inputs entry :=
    ⟨isInput, fun other mem =>
      newest.best other ((replaced.before_iff other).mpr (Or.inl mem))⟩
  by_cases expired : entry.deadlineCount < now
  · rcases covered entry inputNewest expired with none | ⟨other, isThere, sameId, newer⟩
    · refine Or.inr ⟨expired, ?_⟩
      intro other mem
      rcases (replaced.after_iff other).mp mem with isThere | isOutput
      · exact none other isThere
      · exact replaced.outputs_ne inputNewest expired isOutput
    · have inBefore := (replaced.before_iff other).mpr (Or.inr isThere)
      have atMost := newest.best other inBefore sameId
      have same := replaced.unique other inBefore entry newest.member (by omega)
      exact absurd (same ▸ isThere) isOther
  · obtain ⟨best, bestInput, bestId, bests, kept⟩ := replaced.thinned.newest entry isInput
    have atLeast := bests entry isInput rfl
    have bestBefore := (replaced.before_iff best).mpr (Or.inl bestInput)
    have atMost := newest.best best bestBefore bestId
    have same := replaced.unique best bestBefore entry newest.member (by omega)
    rw [same] at kept
    exact Or.inl (stays ((replaced.after_iff entry).mpr (Or.inr (kept (by omega)))))

/-- Otherwise an entry is the newest of its id before, and older ones are left after. -/
theorem older_left (notCovered : ¬ Covered now inputs others) : ∃ entry, NewestIn before entry ∧
      (∃ other ∈ after, other.id = entry.id) ∧
      ∀ other ∈ after, other.id = entry.id → other.seqNum < entry.seqNum := by
  rw [Covered] at notCovered
  push Not at notCovered
  obtain ⟨entry, newest, expired, ⟨left, isLeft, leftId⟩, older⟩ := notCovered
  refine ⟨entry, ⟨(replaced.before_iff entry).mpr (Or.inl newest.member), ?_⟩,
    ⟨left, (replaced.after_iff left).mpr (Or.inl isLeft), leftId⟩, ?_⟩
  · intro other mem sameId
    rcases (replaced.before_iff other).mp mem with isInput | isOther
    · exact newest.best other isInput sameId
    · exact Nat.le_of_lt (older other isOther sameId)
  · intro other mem sameId
    rcases (replaced.after_iff other).mp mem with isOther | isOutput
    · exact older other isOther sameId
    · exact absurd sameId (replaced.outputs_ne newest expired isOutput)

end

end Replaced

/-- The last save of an id is its newest. -/
theorem newestSave_append (saves : List (DurableSave Id Form)) (save : DurableSave Id Form)
    (id : Id) :
    newestSave (saves ++ [save]) id =
      if save.entry.id = id then some save else newestSave saves id := by
  rw [newestSave, filter_append]
  by_cases sameId : save.entry.id = id
  · rw [if_pos sameId, filter_cons_of_pos (by simpa using sameId), filter_nil, getLast?_concat]
  · rw [if_neg sameId, filter_cons_of_neg (by simpa using sameId), filter_nil,
      append_nil, newestSave]

theorem id_of_newestSave {saves : List (DurableSave Id Form)} {id : Id} {save : DurableSave Id Form}
    (newest : newestSave saves id = some save) :
    save.entry.id = id := by
  have mem := mem_filter.mp (mem_of_getLast? newest)
  simpa using mem.2

namespace DurableSystem

variable (system : DurableSystem Id Form)

/-- A load returns the newest save of its id, which has the highest sequence number of all
saves of the id, or nothing when that save has expired. -/
structure LoadsNewest : Prop where
  found : ∀ id seqNum form, system.manager.tryLoad indexing id = some (seqNum, form) →
      (∃ save, newestSave system.saves id = some save ∧
        save.entry.seqNum = seqNum ∧ save.entry.serializedForm = form) ∧
      ∀ save ∈ system.saves, save.entry.id = id → save.entry.seqNum ≤ seqNum
  absent : ∀ id, system.manager.tryLoad indexing id = none →
    ∀ save, newestSave system.saves id = some save → save.entry.deadlineCount < system.latestClock

/-- An id that a load does not find stays absent over a step, unless the step saves it. -/
def StaysAbsent (event : DurableEvent Id Form) (next : DurableSystem Id Form) : Prop :=
  ∀ id, system.manager.tryLoad indexing id = none →
    (∀ save ∈ system.savesOf event, save.entry.id ≠ id) →
      next.manager.tryLoad indexing id = none

/-- A manager opens on files that hold every save, and no mapping is left half built. -/
def KeepsLayers : DurableEvent Id Form → Prop
  | .reopen =>
    system.manager.contents.curMemoryLayer = [] ∧ system.manager.contents.unflushedLayers = []
  | .rotateLayer (.mappingError (some linked)) => system.manager.linkedLayers.length ≤ linked
  | _ => True

/-- What a step must keep to.  A written or merged file drops an expired entry only if no
older entry of its id is left in another layer; a manager opens when no file that the
mapping has dropped has an entry that is newer than the mapping's; and no save gets a
number below an earlier save of its id. -/
def LeavesNoOlder (event : DurableEvent Id Form) : Prop :=
  (∀ save ∈ system.savesOf event, ∀ other ∈ system.saves,
    other.entry.id = save.entry.id → other.entry.seqNum ≤ save.entry.seqNum) ∧
  match event with
  | .writeLayer (.written now) =>
    system.manager.writerFailed = false →
      ∀ layer rest, system.manager.contents.unflushedLayers = layer :: rest →
        Covered now (layer.map SlushEntry.entry)
          (((rest ++ [system.manager.contents.curMemoryLayer]).flatten.map
            SlushEntry.entry) ++ system.manager.contents.diskEntries)
  | .merge genIds now =>
    Covered now ((system.manager.contents.takenLayers genIds).flatMap DurableFile.entries)
      (system.manager.contents.memRuns.flatten ++
        (system.manager.contents.otherLayers genIds).flatMap DurableFile.entries)
  | .reopen =>
    ∀ entry ∈ system.manager.contents.fileEntries, ∃ other ∈ system.manager.contents.diskEntries,
        other.id = entry.id ∧ entry.seqNum ≤ other.seqNum
  | _ => True

/-- The newest save of an id is live, the newest live entry of it and the highest save of
it, or it has expired and no entry of the id is live. -/
def NewestLive : Prop :=
  ∀ id,
    ((∀ entry ∈ system.manager.contents.liveEntries, entry.id ≠ id) ∧
      ∀ save, newestSave system.saves id = some save →
        save.entry.deadlineCount < system.latestClock) ∨
    ∃ save, newestSave system.saves id = some save ∧
      NewestIn system.manager.contents.liveEntries save.entry ∧
      ∀ other ∈ system.saves, other.entry.id = id → other.entry.seqNum ≤ save.entry.seqNum

/-- What a step does to the live entries. -/
inductive LiveStep : DurableEvent Id Form → DurableContents Id Form → Prop
  | save
      (event : DurableEvent Id Form)
      (next : DurableContents Id Form)
      (save : DurableSave Id Form)
      (saves : system.savesOf event = [save])
      (number : save.entry.seqNum = system.manager.contents.seqNum + 1)
      (keeps : system.LeavesNoOlder event ↔ ∀ other ∈ system.saves,
        other.entry.id = save.entry.id → other.entry.seqNum ≤ save.entry.seqNum)
      (live : ∀ entry, entry ∈ next.liveEntries ↔
        entry = save.entry ∨ entry ∈ system.manager.contents.liveEntries) :
      LiveStep event next
  | same
      (event : DurableEvent Id Form)
      (next : DurableContents Id Form)
      (saves : system.savesOf event = [])
      (keeps : system.LeavesNoOlder event)
      (live : ∀ entry, entry ∈ next.liveEntries ↔ entry ∈ system.manager.contents.liveEntries) :
      LiveStep event next
  | replaced
      (event : DurableEvent Id Form)
      (next : DurableContents Id Form)
      (inputs others outputs : List (DurableEntry Id Form))
      (saves : system.savesOf event = [])
      (keeps : system.LeavesNoOlder event ↔ Covered (clockOf event) inputs others)
      (live : Replaced (clockOf event) system.manager.contents.liveEntries next.liveEntries
        inputs others outputs) :
      LiveStep event next
  | reopen : LiveStep .reopen system.manager.contents.reopen

variable {system}

variable {event : DurableEvent Id Form}

/-- With every layer linked a load reads them all. -/
theorem tryLoad_of_linked {manager : DurableManager Id Form} {id : Id}
    (linked : manager.unlinkedLayers = []) :
    manager.tryLoad indexing id = manager.contents.tryLoad indexing id := by
  simp [DurableManager.tryLoad, DurableManager.linkedLayers, linked]

/-- A step that adds an entry to the current memory layer. -/
theorem LiveStep.ofAdd
    {id : Id} {deadlineCount : Nat} {serializedForm : Form} {sem : Option Nat} {record : Bool}
    (signalled : Option Nat) (signalNow : Bool) (saves : system.savesOf event =
      [⟨⟨id, system.manager.contents.seqNum + 1, deadlineCount, serializedForm⟩, sem, record⟩])
    (keeps : system.LeavesNoOlder event ↔ ∀ save ∈ system.savesOf event,
      ∀ other ∈ system.saves, other.entry.id = save.entry.id →
        other.entry.seqNum ≤ save.entry.seqNum) :
    LiveStep system event
      (system.manager.contents.addEntry id deadlineCount serializedForm signalled signalNow) := by
  refine .save event _ _ saves rfl ?_ ?_
  · rw [keeps, saves]
    simp
  · obtain ⟨older, current, grown, runsEq, grownEq, _, inGrown⟩ :=
      system.manager.contents.memRuns_addEntry id deadlineCount serializedForm signalled signalNow
    intro entry
    rw [mem_liveEntries, mem_liveEntries, runsEq, grownEq]
    simp only [flatten_append, flatten_cons, flatten_nil, append_nil, mem_append, inGrown]
    rw [show (system.manager.contents.addEntry id deadlineCount serializedForm signalled
      signalNow).diskEntries = system.manager.contents.diskEntries from rfl]
    tauto

/-- A step that moves no entry. -/
theorem LiveStep.ofSame {next : DurableContents Id Form} (saves : system.savesOf event = [])
    (keeps : system.LeavesNoOlder event)
    (runs : next.memRuns.flatten = system.manager.contents.memRuns.flatten)
    (disk : next.diskEntries = system.manager.contents.diskEntries) :
    LiveStep system event next := by
  refine .same event next saves keeps ?_
  intro entry
  rw [mem_liveEntries, mem_liveEntries, runs, disk]

section

variable (layered : Layered system.manager.contents)

include layered

/-- A write replaces the layer by its file. -/
theorem LiveStep.ofWrite (now genId : Nat)
    {layer : List (SlushEntry Id Form)} {rest : List (List (SlushEntry Id Form))}
    (oldest : system.manager.contents.unflushedLayers = layer :: rest)
    (works : system.manager.writerFailed = false) :
    LiveStep system (.writeLayer (.written now))
      (system.manager.contents.writeOldest layer rest genId now) := by
  have runsEq := system.manager.contents.memRuns_writeOldest oldest genId now
  have sorted : (layer.map SlushEntry.entry).Pairwise EntryBefore :=
    layered.sorted _ (by rw [runsEq]; exact mem_cons_self)
  have restEq : (system.manager.contents.writeOldest layer rest genId now).memRuns.flatten =
      (rest ++ [system.manager.contents.curMemoryLayer]).flatten.map SlushEntry.entry := by
    rw [map_flatten]
    rfl
  refine .replaced _ _ (layer.map SlushEntry.entry)
    ((rest ++ [system.manager.contents.curMemoryLayer]).flatten.map SlushEntry.entry ++
      system.manager.contents.diskEntries)
    (writeSortedById now layer) rfl ?_
    { before_iff := ?_
      after_iff := ?_
      thinned := thinned_writeSortedById now sorted
      unique := fun first isFirst second isSecond =>
        layered.unique first second (layered.live_held isFirst) (layered.live_held isSecond) }
  · constructor
    · intro keeps
      exact keeps.2 works layer rest oldest
    · intro covered
      refine ⟨by simp [savesOf], ?_⟩
      intro _ first others isFirst
      obtain ⟨rfl, rfl⟩ := List.cons.inj (oldest.symm.trans isFirst)
      exact covered
  · intro entry
    rw [mem_liveEntries, runsEq, flatten_cons, restEq, mem_append, mem_append, or_assoc]
  · intro entry
    rw [mem_liveEntries, restEq, mem_append, or_assoc]
    simp [diskEntries, writeOldest]

/-- A merge replaces the files it takes by one. -/
theorem LiveStep.ofMerge (genIds : List Nat) (now genId : Nat) : LiveStep system (.merge genIds now)
      (system.manager.contents.mergeLayers genIds genId now) := by
  refine .replaced _ _ ((system.manager.contents.takenLayers genIds).flatMap DurableFile.entries)
    (system.manager.contents.memRuns.flatten ++
      (system.manager.contents.otherLayers genIds).flatMap DurableFile.entries)
    (mergeSortedById now ((system.manager.contents.takenLayers genIds).map DurableFile.entries))
    rfl ?_
    { before_iff := ?_
      after_iff := ?_
      thinned := layered.thinned_mergeLayers genIds now
      unique := fun first isFirst second isSecond =>
        layered.unique first second (layered.live_held isFirst) (layered.live_held isSecond) }
  · exact ⟨fun keeps => keeps.2, fun covered => ⟨by simp [savesOf], covered⟩⟩
  · intro entry
    have split : entry ∈ system.manager.contents.diskEntries ↔
        entry ∈ (system.manager.contents.takenLayers genIds).flatMap DurableFile.entries ∨
          entry ∈ (system.manager.contents.otherLayers genIds).flatMap DurableFile.entries := by
      simp only [diskEntries, takenLayers, otherLayers, mem_flatMap, mem_filter, decide_eq_true_eq]
      constructor
      · rintro ⟨file, isLayer, inFile⟩
        by_cases taken : file.genId ∈ genIds
        · exact Or.inl ⟨file, ⟨isLayer, taken⟩, inFile⟩
        · exact Or.inr ⟨file, ⟨isLayer, taken⟩, inFile⟩
      · rintro (⟨file, ⟨isLayer, _⟩, inFile⟩ | ⟨file, ⟨isLayer, _⟩, inFile⟩)
        · exact ⟨file, isLayer, inFile⟩
        · exact ⟨file, isLayer, inFile⟩
    rw [mem_liveEntries, split, mem_append]
    tauto
  · intro entry
    rw [mem_liveEntries, mem_append, or_assoc]
    simp [diskEntries, mergeLayers, memRuns]

/-- Every step does one of these things to the live entries. -/
theorem liveStep {next : DurableContents Id Form}
    (stepped : ContentStep system.manager event next) :
    LiveStep system event next := by
  have noSaves : ∀ saves : List (DurableSave Id Form), saves = [] →
      ∀ save ∈ saves, ∀ other ∈ system.saves,
        other.entry.id = save.entry.id → other.entry.seqNum ≤ save.entry.seqNum := by
    rintro _ rfl save mem
    exact absurd mem not_mem_nil
  cases stepped with
  | save | record => exact .ofAdd _ _ rfl (and_iff_left trivial)
  | check | begin | rotateEmpty | mergeFails | removeFile | removalFails =>
    exact .ofSame rfl ⟨noSaves _ rfl, trivial⟩ rfl rfl
  | rotate | rotateDry | rotateFails | blocked | final =>
    exact .ofSame rfl ⟨noSaves _ rfl, trivial⟩ (by simp) rfl
  | write now genId layer rest oldest works => exact .ofWrite layered now genId oldest works
  | writeFails outcome released =>
    refine .ofSame rfl ⟨noSaves _ rfl, ?_⟩ (by simp) rfl
    cases outcome with
    | written now =>
      intro works layer rest oldest
      simp only [DurableManager.releasedUnwritten, works, Bool.false_eq_true, if_false]
        at released
      rw [oldest] at released
      obtain rfl : layer = [] := (append_eq_nil_iff.mp released.symm).1
      intro entry newest
      exact absurd newest.member not_mem_nil
    | diskFull => trivial
    | poolDry => trivial
    | ioError => trivial
  | merge genIds now genId => exact .ofMerge layered genIds now genId
  | reopen => exact .reopen

/-- What loads return when the newest saves are live. -/
theorem NewestLive.loadsNewest (newestLive : system.NewestLive)
    (linked : system.manager.unlinkedLayers = []) : system.LoadsNewest indexing where
  found := by
    intro id seqNum form found
    rw [tryLoad_of_linked indexing linked] at found
    rcases layered.tryLoad indexing id with ⟨isNone, _⟩ | ⟨entry, live, sameId, isEntry, best⟩
    · rw [found] at isNone
      simp at isNone
    rw [found, Option.some.injEq, Prod.mk.injEq] at isEntry
    rcases newestLive id with ⟨none, _⟩ | ⟨save, isNewest, newest, highest⟩
    · exact absurd sameId (none entry live)
    have saveId := id_of_newestSave isNewest
    have atMost := newest.best entry live (sameId.trans saveId.symm)
    have atLeast := best save.entry newest.member saveId
    have same := layered.unique entry save.entry (layered.live_held live)
      (layered.live_held newest.member) (by omega)
    rw [isEntry.1, isEntry.2, same]
    exact ⟨⟨save, isNewest, rfl, rfl⟩, highest⟩
  absent := by
    intro id isNone
    rw [tryLoad_of_linked indexing linked] at isNone
    rcases newestLive id with ⟨_, expired⟩ | ⟨save, isNewest, newest, _⟩
    · exact expired
    · rcases layered.tryLoad indexing id with ⟨_, none⟩ | ⟨_, _, _, isEntry, _⟩
      · exact absurd (id_of_newestSave isNewest) (none save.entry newest.member)
      · rw [isNone] at isEntry
        simp at isEntry

end

variable {next : DurableSystem Id Form} {event : DurableEvent Id Form}

/-- Over a step that saves nothing, what was absent stays absent and the newest save stays
live or expires. -/
theorem NewestLive.ofKept (newestLive : system.NewestLive) (stepped : system.step event = some next)
    (noSaves : system.savesOf event = [])
    (fewer : ∀ id, (∀ entry ∈ system.manager.contents.liveEntries, entry.id ≠ id) →
      ∀ entry ∈ next.manager.contents.liveEntries, entry.id ≠ id)
    (kept : ∀ entry, NewestIn system.manager.contents.liveEntries entry →
      NewestIn next.manager.contents.liveEntries entry ∨ entry.deadlineCount < clockOf event ∧
          ∀ other ∈ next.manager.contents.liveEntries, other.id ≠ entry.id) :
    next.NewestLive := by
  have savesEq := step_saves stepped
  have clockEq := step_latestClock stepped
  rw [noSaves, append_nil] at savesEq
  intro id
  rw [savesEq, clockEq]
  rcases newestLive id with ⟨none, expired⟩ | ⟨save, isNewest, newest, highest⟩
  · refine Or.inl ⟨fewer id none, ?_⟩
    intro save isNewest
    exact Nat.lt_of_lt_of_le (expired save isNewest) (Nat.le_max_left _ _)
  · rcases kept save.entry newest with stays | ⟨expired, none⟩
    · exact Or.inr ⟨save, isNewest, stays, highest⟩
    · refine Or.inl ⟨?_, ?_⟩
      · intro entry live
        rw [← id_of_newestSave isNewest]
        exact none entry live
      · intro other isOther
        obtain rfl : save = other := Option.some.inj (isNewest.symm.trans isOther)
        exact Nat.lt_of_lt_of_le expired (Nat.le_max_right _ _)

/-- A save becomes the newest live entry of its id and leaves the other ids as they
are. -/
theorem NewestLive.ofSave
    (layered : Layered system.manager.contents) (newestLive : system.NewestLive)
    (stepped : system.step event = some next) {save : DurableSave Id Form}
    (saves : system.savesOf event = [save])
    (number : save.entry.seqNum = system.manager.contents.seqNum + 1)
    (highest : ∀ other ∈ system.saves,
      other.entry.id = save.entry.id → other.entry.seqNum ≤ save.entry.seqNum)
    (live : ∀ entry, entry ∈ next.manager.contents.liveEntries ↔
      entry = save.entry ∨ entry ∈ system.manager.contents.liveEntries) :
    next.NewestLive := by
  have savesEq := step_saves stepped
  have clockEq := step_latestClock stepped
  rw [saves] at savesEq
  intro id
  rw [savesEq, clockEq, newestSave_append]
  by_cases sameId : save.entry.id = id
  · subst sameId
    refine Or.inr ⟨save, if_pos rfl, ⟨(live _).mpr (Or.inl rfl), ?_⟩, ?_⟩
    · intro other isLive _
      rcases (live other).mp isLive with rfl | wasLive
      · exact Nat.le_refl _
      · have bound := (layered.numbered other (layered.live_held wasLive)).2
        omega
    · intro other isSave otherId
      rcases mem_append.mp isSave with before | isNew
      · exact highest other before otherId
      · rw [mem_singleton.mp isNew]
  · rw [if_neg sameId]
    have otherLive : ∀ entry ∈ next.manager.contents.liveEntries, entry.id = id →
        entry ∈ system.manager.contents.liveEntries := by
      intro entry isLive entryId
      rcases (live entry).mp isLive with rfl | wasLive
      · exact absurd entryId sameId
      · exact wasLive
    rcases newestLive id with ⟨none, expired⟩ | ⟨newest, isNewest, isIn, atMost⟩
    · refine Or.inl ⟨?_, ?_⟩
      · intro entry isLive entryId
        exact none entry (otherLive entry isLive entryId) entryId
      · intro other isOther
        exact Nat.lt_of_lt_of_le (expired other isOther) (Nat.le_max_left _ _)
    · refine Or.inr ⟨newest, isNewest, ⟨(live _).mpr (Or.inr isIn.member), ?_⟩, ?_⟩
      · intro other isLive otherId
        exact isIn.best other
          (otherLive other isLive (otherId.trans (id_of_newestSave isNewest))) otherId
      · intro other isSave otherId
        rcases mem_append.mp isSave with before | isNew
        · exact atMost other before otherId
        · rw [mem_singleton.mp isNew] at otherId
          exact absurd otherId sameId

omit [LinearOrder Id] in
/-- A new manager has every file on disk in its mapping. -/
theorem live_reopen :
    system.manager.contents.reopen.liveEntries = system.manager.contents.fileEntries := rfl

omit [LinearOrder Id] in
/-- A manager that opens on its files had its live entries on disk. -/
theorem KeepsLayers.live (opens : system.KeepsLayers .reopen) :
    system.manager.contents.liveEntries = system.manager.contents.diskEntries := by
  rw [liveEntries, opens.1, opens.2]
  rfl

/-- A step that keeps the layers leaves all of them linked. -/
theorem KeepsLayers.linked (keeps : system.KeepsLayers event)
    (linked : system.manager.unlinkedLayers = []) (stepped : system.step event = some next) :
    next.manager.unlinkedLayers = [] := by
  obtain ⟨manager, managerStepped, rfl⟩ := Option.map_eq_some_iff.mp stepped
  cases event with
  | rotateLayer outcome =>
    rw [DurableManager.step] at managerStepped
    split at managerStepped
    · cases managerStepped
      unfold DurableManager.rotateSection
      split
      · exact linked
      rcases outcome with _ | _ | _ | count
      · exact linked
      · exact linked
      · simpa using linked
      · simpa [linked] using (show system.manager.linkedLayers.length ≤ count from keeps)
    · simp at managerStepped
  | writeLayer outcome =>
    cases outcome <;> grind [DurableManager.step, DurableManager.writeUnflushed]
  | _ => grind [DurableManager.step, DurableManager.new]

section

variable (layered : Layered system.manager.contents)

include layered

/-- Over a step that keeps to the condition the newest saves stay live or expire. -/
theorem NewestLive.step (newestLive : system.NewestLive)
    (opens : system.KeepsLayers event) (keeps : system.LeavesNoOlder event)
    (stepped : system.step event = some next) :
    next.NewestLive := by
  have liveStepped := liveStep layered (step_contents stepped)
  generalize contentsEq : next.manager.contents = contents at liveStepped
  cases liveStepped with
  | save _ _ save saves number keepsIff live =>
    exact newestLive.ofSave layered stepped saves number (keepsIff.mp keeps) (contentsEq ▸ live)
  | same _ _ saves _ live =>
    rw [← contentsEq] at live
    refine newestLive.ofKept stepped saves ?_ ?_
    · exact fun id none entry isLive => none entry ((live entry).mp isLive)
    · intro entry newest
      exact Or.inl ⟨(live entry).mpr newest.member,
        fun other isLive => newest.best other ((live other).mp isLive)⟩
  | replaced _ _ inputs others outputs saves keepsIff live =>
    rw [← contentsEq] at live
    refine newestLive.ofKept stepped saves ?_ ?_
    · exact fun id none entry isLive => none entry (live.subset isLive)
    · exact fun entry newest => live.newest_stays (keepsIff.mp keeps) newest
  | reopen =>
    refine newestLive.ofKept stepped rfl ?_ ?_
    · intro id none entry isLive
      rw [contentsEq, live_reopen] at isLive
      obtain ⟨other, onDisk, sameId, _⟩ := keeps.2 entry isLive
      rw [← sameId]
      exact none other (opens.live ▸ onDisk)
    · intro entry newest
      refine Or.inl ⟨?_, ?_⟩
      · rw [contentsEq, live_reopen]
        exact layered.mem_fileEntries (opens.live ▸ newest.member)
      · intro other isLive sameId
        rw [contentsEq, live_reopen] at isLive
        obtain ⟨newer, onDisk, newerId, atMost⟩ := keeps.2 other isLive
        exact Nat.le_trans atMost (newest.best newer (opens.live ▸ onDisk) (newerId.trans sameId))

/-- Over such a step what was absent stays absent. -/
theorem staysAbsent_of_leavesNoOlder (linked : system.manager.unlinkedLayers = [])
    (opens : system.KeepsLayers event) (keeps : system.LeavesNoOlder event)
    (stepped : system.step event = some next) :
    system.StaysAbsent indexing event next := by
  have contentStepped := step_contents stepped
  have nextLayered := layered.step contentStepped
  have liveStepped := liveStep layered contentStepped
  intro id isNone notSaved
  rw [tryLoad_of_linked indexing linked, layered.tryLoad_eq_none_iff] at isNone
  rw [tryLoad_of_linked indexing (opens.linked linked stepped), nextLayered.tryLoad_eq_none_iff]
  intro entry isLive entryId
  generalize next.manager.contents = contents at liveStepped isLive
  cases liveStepped with
  | save _ _ save saves number keepsIff live =>
    rcases (live entry).mp isLive with rfl | wasLive
    · exact notSaved save (saves ▸ mem_cons_self) entryId
    · exact isNone entry wasLive entryId
  | same _ _ saves _ live => exact isNone entry ((live entry).mp isLive) entryId
  | replaced _ _ inputs others outputs saves keepsIff live =>
    exact isNone entry (live.subset isLive) entryId
  | reopen =>
    obtain ⟨other, onDisk, sameId, _⟩ := keeps.2 entry isLive
    exact isNone other (opens.live ▸ onDisk) (sameId.trans entryId)

/-- A load of the id of a live entry finds something at least as new. -/
theorem LoadsNewest.newest_ge (loads : system.LoadsNewest indexing)
    (linked : system.manager.unlinkedLayers = []) {entry : DurableEntry Id Form}
    (live : entry ∈ system.manager.contents.liveEntries) :
    ∃ found ∈ system.manager.contents.liveEntries,
      found.id = entry.id ∧ entry.seqNum ≤ found.seqNum ∧
      (∃ save, newestSave system.saves entry.id = some save ∧ save.entry.seqNum = found.seqNum) ∧
      ∀ save ∈ system.saves, save.entry.id = entry.id → save.entry.seqNum ≤ found.seqNum := by
  rcases layered.tryLoad indexing entry.id with ⟨_, none⟩ | ⟨found, isLive, foundId, isFound, best⟩
  · exact absurd rfl (none entry live)
  · obtain ⟨⟨save, isNewest, sameSeq, _⟩, highest⟩ := loads.found _ _ _
      ((tryLoad_of_linked indexing linked).trans isFound)
    exact ⟨found, isLive, foundId, best entry live rfl, ⟨save, isNewest, sameSeq⟩, highest⟩

/-- A step after which loads are right has kept to the condition. -/
theorem leavesNoOlder_of_loadsNewest (newestLive : system.NewestLive)
    (linked : system.manager.unlinkedLayers = [])
    (opens : system.KeepsLayers event) (stepped : system.step event = some next)
    (loads : next.LoadsNewest indexing) (absent : system.StaysAbsent indexing event next) :
    system.LeavesNoOlder event := by
  have contentStepped := step_contents stepped
  have nextLayered := layered.step contentStepped
  have nextLinked := opens.linked linked stepped
  have savesEq := step_saves stepped
  have liveStepped := liveStep layered contentStepped
  generalize contentsEq : next.manager.contents = contents at liveStepped
  cases liveStepped with
  | save _ _ save saves number keepsIff live =>
    rw [← contentsEq] at live
    rw [keepsIff]
    intro other isSave otherId
    obtain ⟨found, isLive, _, _, _, highest⟩ :=
      loads.newest_ge indexing nextLayered nextLinked ((live save.entry).mpr (Or.inl rfl))
    have atMost := highest other (savesEq ▸ mem_append_left _ isSave) otherId
    rcases (live found).mp isLive with rfl | wasLive
    · exact atMost
    · have bound := (layered.numbered found (layered.live_held wasLive)).2
      omega
  | same _ _ saves keeps live => exact keeps
  | replaced _ _ inputs others outputs saves keepsIff live =>
    rw [← contentsEq] at live
    rw [saves, append_nil] at savesEq
    rw [keepsIff]
    by_contra notCovered
    obtain ⟨entry, newest, ⟨left, isLeft, leftId⟩, older⟩ := live.older_left notCovered
    obtain ⟨found, isLive, foundId, _, ⟨save, isNewest, sameSeq⟩, _⟩ :=
      loads.newest_ge indexing nextLayered nextLinked isLeft
    rw [savesEq, leftId] at isNewest
    have below := older found isLive (foundId.trans leftId)
    rcases newestLive entry.id with ⟨none, _⟩ | ⟨newer, isNewer, isIn, _⟩
    · exact none entry newest.member rfl
    · obtain rfl : save = newer := Option.some.inj (isNewest.symm.trans isNewer)
      have atLeast := isIn.best entry newest.member (id_of_newestSave isNewest).symm
      omega
  | reopen =>
    rw [show system.savesOf .reopen = [] from rfl, append_nil] at savesEq
    refine ⟨by simp [savesOf], ?_⟩
    intro entry inFiles
    have isLive : entry ∈ next.manager.contents.liveEntries := by
      rw [contentsEq, live_reopen]
      exact inFiles
    obtain ⟨found, _, _, atMost, ⟨save, isNewest, sameSeq⟩, _⟩ :=
      loads.newest_ge indexing nextLayered nextLinked isLive
    rw [savesEq] at isNewest
    rcases newestLive entry.id with ⟨none, _⟩ | ⟨newer, isNewer, isIn, _⟩
    · have wasNone := (layered.tryLoad_eq_none_iff indexing _).mpr none
      have isNone := absent entry.id ((tryLoad_of_linked indexing linked).trans wasNone)
        (by simp [savesOf])
      rw [tryLoad_of_linked indexing nextLinked] at isNone
      exact absurd rfl ((nextLayered.tryLoad_eq_none_iff indexing _).mp isNone entry isLive)
    · obtain rfl : save = newer := Option.some.inj (isNewest.symm.trans isNewer)
      exact ⟨save.entry, opens.live ▸ isIn.member, id_of_newestSave isNewest, by omega⟩

end

/-- What the runs keep to. -/
def KeepsNewest (system : DurableSystem Id Form) (event : DurableEvent Id Form) : Prop :=
  system.KeepsLayers event ∧ system.LeavesNoOlder event

/-- In every run whose steps keep to the condition the newest saves are live or have
expired. -/
theorem newestLive_of_reaches (reached : EventRuns.Reaches step KeepsNewest new system) :
    Layered system.manager.contents ∧ system.manager.unlinkedLayers = [] ∧ system.NewestLive := by
  induction reached with
  | refl =>
    refine ⟨Layered.new, rfl, ?_⟩
    intro id
    exact Or.inl ⟨by simp [new, DurableManager.new, liveEntries,
      diskEntries], by simp [new, newestSave]⟩
  | tail before allowed stepped ih =>
    obtain ⟨layered, linked, newestLive⟩ := ih
    exact ⟨layered.step (step_contents stepped), allowed.1.linked linked stepped,
      newestLive.step layered allowed.1 allowed.2 stepped⟩

/-- After every run whose steps keep to the condition, loads return the newest saves; a
further step leaves loads right, and absent ids absent, if and only if it keeps to the
condition too. -/
theorem loadsNewest_iff_leavesNoOlder
    (reached : EventRuns.Reaches step KeepsNewest new system) (opens : system.KeepsLayers event)
    (stepped : system.step event = some next) :
    system.LoadsNewest indexing ∧
      (next.LoadsNewest indexing ∧ system.StaysAbsent indexing event next ↔
        system.LeavesNoOlder event) := by
  obtain ⟨layered, linked, newestLive⟩ := newestLive_of_reaches reached
  refine ⟨newestLive.loadsNewest indexing layered linked, ?_, ?_⟩
  · rintro ⟨loads, absent⟩
    exact leavesNoOlder_of_loadsNewest indexing layered newestLive linked opens stepped loads absent
  · intro keeps
    have nextLive := newestLive.step layered opens keeps stepped
    exact ⟨nextLive.loadsNewest indexing (layered.step (step_contents stepped))
        (opens.linked linked stepped),
      staysAbsent_of_leavesNoOlder indexing layered linked opens keeps stepped⟩

end DurableSystem

end Newest

namespace DurableSystem

/-- A save is written to a file before it expires. -/
theorem loadsNewest_iff_leavesNoOlder_write : ∃ system next : DurableSystem Nat Nat,
      EventRuns.Reaches step KeepsNewest new system ∧
        system.step (.writeLayer (.written 1)) = some next ∧
        system.LoadsNewest numberIndexing ∧
        (next.LoadsNewest numberIndexing ∧
            system.StaysAbsent numberIndexing (.writeLayer (.written 1)) next ↔
          system.LeavesNoOlder (.writeLayer (.written 1))) := by
  have start : EventRuns.Reaches step KeepsNewest (new : DurableSystem Nat Nat) new := .refl
  have saved := start.tail
    (show KeepsNewest (new : DurableSystem Nat Nat) (.save 0 5 20 none) from
      ⟨trivial, by simp [new], trivial⟩) rfl
  have began := saved.tail
    (show KeepsNewest _ (.beginRound false) from ⟨trivial, by simp [savesOf], trivial⟩) rfl
  have rotated := began.tail
    (show KeepsNewest _ (.rotateLayer .rotated) from ⟨trivial, by simp [savesOf], trivial⟩) rfl
  exact ⟨_, _, rotated, rfl, loadsNewest_iff_leavesNoOlder numberIndexing rotated trivial rfl⟩

/-- A save that lives until 100 is written at 1, and a later save that lives until 5 at
10: the later one is dropped and loads return the earlier one. -/
theorem tryLoad_returns_superseded_form : ∃ system : DurableSystem Nat Nat,
      EventRuns.run step (fun _ _ => True) new
          [.save 0 100 10 none, .beginRound false, .rotateLayer .rotated,
            .writeLayer (.written 1), .save 0 5 20 none, .beginRound false,
            .rotateLayer .rotated, .writeLayer (.written 10)] = some system ∧
        system.manager.tryLoad numberIndexing 0 = some (2, 10) ∧
        newestSave system.saves 0 = some ⟨⟨0, 3, 5, 20⟩, none, false⟩ ∧
        ¬ system.LoadsNewest numberIndexing := by
  have loaded : ∀ system : DurableSystem Nat Nat,
      system.manager.tryLoad numberIndexing 0 = some (2, 10) →
      newestSave system.saves 0 = some ⟨⟨0, 3, 5, 20⟩, none, false⟩ →
        ¬ system.LoadsNewest numberIndexing := by
    intro system found newest loads
    obtain ⟨⟨save, isNewest, sameSeq, _⟩, _⟩ := loads.found 0 2 10 found
    rw [newest, Option.some.injEq] at isNewest
    rw [← isNewest] at sameSeq
    exact absurd sameSeq (by decide)
  refine ⟨_, rfl, ?_, ?_, loaded _ ?_ ?_⟩ <;> decide +kernel

end DurableSystem

end Orly
