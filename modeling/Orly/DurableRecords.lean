import Orly.DurableLoads

namespace Orly

/-!
# Signalled record saves are on disk

The caller of `TrySaveRecord` acts on its record once its semaphore is pushed.  The writer
pushes the semaphores of a layer it has written, but also those of layers it could not
write.  In every run in which no record is signalled in the second way, a crash at any
point leaves every signalled record, or a later save of its id, on disk.
-/

open List DurableContents DurableManager

section Records

variable {Id Form : Type}

namespace DurableContents

/-- The entries of the memory layers, with their semaphores. -/
def slushEntries (contents : DurableContents Id Form) : List (SlushEntry Id Form) :=
  contents.unflushedLayers.flatten ++ contents.curMemoryLayer

theorem mem_memRuns {contents : DurableContents Id Form} {entry : DurableEntry Id Form} :
    entry ∈ contents.memRuns.flatten ↔ ∃ slush ∈ contents.slushEntries, slush.entry = entry := by
  rw [memRuns, ← map_flatten, mem_map, slushEntries, flatten_append]
  simp

end DurableContents

/-- An entry was saved at this place of the log or later. -/
def SavedFrom (saves : List (DurableSave Id Form)) (place : Nat)
    (entry : DurableEntry Id Form) : Prop :=
  ∃ later save, place ≤ later ∧ saves[later]? = some save ∧ save.entry = entry

/-- The saves of an id at this place of the log or later live until the clock. -/
def LivesFrom (saves : List (DurableSave Id Form)) (clock place : Nat) (id : Id) : Prop :=
  ∀ entry, SavedFrom saves place entry → entry.id = id → clock ≤ entry.deadlineCount

variable {saves : List (DurableSave Id Form)} {place : Nat}

theorem logged_append {save : DurableSave Id Form} (logged : saves[place]? = some save)
    (more : List (DurableSave Id Form)) :
    (saves ++ more)[place]? = some save := by
  obtain ⟨isPlace, _⟩ := List.getElem?_eq_some_iff.mp logged
  rw [getElem?_append_left isPlace]
  exact logged

/-- A place of a log with one more save. -/
theorem logged_concat {new : DurableSave Id Form} {save : DurableSave Id Form}
    (logged : (saves ++ [new])[place]? = some save) :
    saves[place]? = some save ∨ place = saves.length ∧ save = new := by
  rcases Nat.lt_or_ge place saves.length with before | after
  · rw [getElem?_append_left before] at logged
    exact Or.inl logged
  · rw [getElem?_append_right after] at logged
    obtain ⟨isLast, rfl⟩ := List.getElem?_eq_some_iff.mp logged
    rw [length_singleton] at isLast
    exact Or.inr ⟨by omega, by simp⟩

theorem SavedFrom.append {entry : DurableEntry Id Form} (saved : SavedFrom saves place entry)
    (more : List (DurableSave Id Form)) :
    SavedFrom (saves ++ more) place entry := by
  obtain ⟨later, save, isLater, logged, isEntry⟩ := saved
  exact ⟨later, save, isLater, logged_append logged more, isEntry⟩

namespace DurableSystem

variable (system : DurableSystem Id Form)

/-- A call of `TrySaveRecord` that has returned true. -/
structure RecordAt (place : Nat) (save : DurableSave Id Form) (sem : Nat) : Prop where
  logged : system.saves[place]? = some save
  record : save.record = true
  signals : save.sem = some sem

/-- The log tells where the entries in memory and the pushed semaphores come from. -/
structure Logged : Prop where
  started : system.epochStart ≤ system.saves.length
  numbers : ∀ place save, system.epochStart ≤ place → system.saves[place]? = some save →
    save.entry.seqNum + system.saves.length = system.manager.contents.seqNum + place + 1
  memory : ∀ slush ∈ system.manager.contents.slushEntries, ∃ place save,
    system.epochStart ≤ place ∧ system.saves[place]? = some save ∧
      save.entry = slush.entry ∧ ∀ sem, slush.sem = some sem → save.sem = some sem
  pushed : ∀ sem ∈ system.manager.contents.pushedSems, ∃ save ∈ system.saves, save.sem = some sem
  distinct : ∀ first second : Nat, ∀ firstSave secondSave : DurableSave Id Form, ∀ sem,
    system.saves[first]? = some firstSave → system.saves[second]? = some secondSave →
      firstSave.sem = some sem → secondSave.sem = some sem → first = second

variable {system} {next : DurableSystem Id Form} {event : DurableEvent Id Form}
  {layer : List (SlushEntry Id Form)} {sem : Nat} {contents : DurableContents Id Form}
  {slush : SlushEntry Id Form} {save : DurableSave Id Form} {place : Nat}

theorem mem_layerSems : sem ∈ layerSems layer ↔ ∃ slush ∈ layer, slush.sem = some sem := by
  rw [layerSems, mem_filterMap]

theorem mem_slushEntries_releaseUnflushed (mem : slush ∈ contents.releaseUnflushed.slushEntries) :
    slush ∈ contents.slushEntries ∨ slush ∈ releasedLayer contents.slushEntries := by
  rcases mem_append.mp mem with released | current
  · refine Or.inr ?_
    obtain ⟨layer, isLayer, inLayer⟩ := mem_flatten.mp released
    obtain ⟨before, isBefore, rfl⟩ := mem_map.mp isLayer
    obtain ⟨slush, inBefore, rfl⟩ := mem_map.mp inLayer
    exact mem_map_of_mem (mem_append_left _ (mem_flatten_of_mem isBefore inBefore))
  · exact Or.inl (mem_append_right _ current)

theorem mem_slushEntries_releaseCurrent (mem : slush ∈ contents.releaseCurrent.slushEntries) :
    slush ∈ contents.slushEntries ∨ slush ∈ releasedLayer contents.slushEntries := by
  rcases mem_append.mp mem with unflushed | released
  · exact Or.inl (mem_append_left _ unflushed)
  · obtain ⟨slush, inCurrent, rfl⟩ := mem_map.mp released
    exact Or.inr (mem_map_of_mem (mem_append_right _ inCurrent))

theorem mem_slushEntries_releaseAll
    (mem : slush ∈ contents.releaseUnflushed.releaseCurrent.slushEntries) :
    slush ∈ contents.slushEntries ∨ slush ∈ releasedLayer contents.slushEntries := by
  rcases mem_slushEntries_releaseCurrent mem with stays | released
  · exact mem_slushEntries_releaseUnflushed stays
  · obtain ⟨before, isBefore, rfl⟩ := mem_map.mp released
    rcases mem_slushEntries_releaseUnflushed isBefore with stayed | wasReleased
    · exact Or.inr (mem_map_of_mem stayed)
    · obtain ⟨first, isFirst, rfl⟩ := mem_map.mp wasReleased
      exact Or.inr (mem_map.mpr ⟨first, isFirst, rfl⟩)

/-- A failed writer wakes every saver that waits. -/
theorem pushedSems_releaseAll (contents : DurableContents Id Form) :
    contents.releaseUnflushed.releaseCurrent.pushedSems = contents.pushedSems ++
        layerSems (contents.unflushedLayers.flatten ++ contents.curMemoryLayer) := by
  simp [releaseUnflushed, releaseCurrent, layerSems]

/-- The entries whose savers are released are in memory. -/
theorem mem_slushEntries_of_released (released : slush ∈ system.manager.releasedUnwritten event) :
    slush ∈ system.manager.contents.slushEntries := by
  have unflushed : slush ∈ system.manager.contents.unflushedLayers.flatten →
      slush ∈ system.manager.contents.slushEntries := mem_append_left _
  have current : slush ∈ system.manager.contents.curMemoryLayer →
      slush ∈ system.manager.contents.slushEntries := mem_append_right _
  unfold releasedUnwritten at released
  split at released
  · split at released
    · exact unflushed released
    · simp at released
  · exact unflushed released
  · exact current released
  · simp at released
  · exact current released
  · split at released
    · simp at released
    · exact released
  · exact released
  · simp at released

/-- An entry in memory that is at least as new as a save of this epoch was saved at its
place or later. -/
theorem Logged.savedFrom (logged : system.Logged) (inEpoch : system.epochStart ≤ place)
    (isSave : system.saves[place]? = some save) {entry : DurableEntry Id Form}
    (inMemory : entry ∈ system.manager.contents.memRuns.flatten)
    (newer : save.entry.seqNum ≤ entry.seqNum) :
    SavedFrom system.saves place entry := by
  obtain ⟨slush, isSlush, rfl⟩ := mem_memRuns.mp inMemory
  obtain ⟨later, other, otherEpoch, isOther, isEntry, _⟩ := logged.memory slush isSlush
  have number := logged.numbers place save inEpoch isSave
  have otherNumber := logged.numbers later other otherEpoch isOther
  rw [isEntry] at otherNumber
  exact ⟨later, other, by omega, isOther, isEntry⟩

/-- A record that still waits is in memory. -/
theorem Logged.waiting (logged : system.Logged) (recorded : system.RecordAt place save sem)
    (isSlush : slush ∈ system.manager.contents.slushEntries) (waits : slush.sem = some sem) :
    system.epochStart ≤ place ∧ slush.entry = save.entry := by
  obtain ⟨other, otherSave, inEpoch, isOther, isEntry, sems⟩ := logged.memory slush isSlush
  obtain rfl := logged.distinct other place otherSave save sem isOther recorded.logged
    (sems sem waits) recorded.signals
  obtain rfl : otherSave = save := Option.some.inj (isOther.symm.trans recorded.logged)
  exact ⟨inEpoch, isEntry.symm⟩

theorem holds_of_slush
    {before : DurableContents Id Form} (memory : ∀ slush ∈ contents.slushEntries,
      ∃ other ∈ before.slushEntries, other.entry = slush.entry)
    (files : ∀ entry ∈ contents.fileEntries, entry ∈ before.fileEntries)
    {entry : DurableEntry Id Form} (held : contents.Holds entry) :
    before.Holds entry := by
  rcases held with inMemory | inFiles
  · obtain ⟨slush, isSlush, rfl⟩ := mem_memRuns.mp inMemory
    obtain ⟨other, isOther, sameEntry⟩ := memory slush isSlush
    exact Or.inl (mem_memRuns.mpr ⟨other, isOther, sameEntry⟩)
  · exact Or.inr (files entry inFiles)

/-- A record of a log that a step has not added to was there before. -/
theorem RecordAt.before
    (recorded : next.RecordAt place save sem) (savesEq : next.saves = system.saves) :
    system.RecordAt place save sem :=
  { recorded with logged := savesEq ▸ recorded.logged }

theorem Logged.new : (new : DurableSystem Id Form).Logged := by
  constructor <;> simp [DurableSystem.new, DurableManager.new, DurableContents.slushEntries]

variable [LinearOrder Id] (indexing : DurableIndexing Id) (system)

/-- After a crash, a load of the id of a signalled record returns the record or a later save,
as long as these have not expired. -/
def RecordsKept : Prop :=
  ∀ place save sem, system.RecordAt place save sem → sem ∈ system.manager.contents.pushedSems →
      LivesFrom system.saves system.latestClock place save.entry.id →
        ∃ entry, SavedFrom system.saves place entry ∧ entry.id = save.entry.id ∧
          system.manager.contents.reopen.tryLoad indexing save.entry.id =
            some (entry.seqNum, entry.serializedForm)

/-- A step pushes no semaphore of an unexpired record whose layer it does not write. -/
def ReleasesWritten (event : DurableEvent Id Form) : Prop :=
  ∀ place save sem, system.RecordAt place save sem →
    (∃ slush ∈ system.manager.releasedUnwritten event, slush.sem = some sem) →
      ¬ LivesFrom system.saves (max system.latestClock (clockOf event)) place save.entry.id

/-- A disk layer has an entry of the id such that no entry from before this place of the
log is as new. -/
def OnDisk (place : Nat) (id : Id) : Prop :=
  ∃ entry ∈ system.manager.contents.diskEntries, entry.id = id ∧
    ∀ other, system.manager.contents.Holds other → other.id = id →
      entry.seqNum ≤ other.seqNum → SavedFrom system.saves place other

/-- Every signalled record is on disk. -/
def RecordsOnDisk : Prop :=
  ∀ place save sem, system.RecordAt place save sem → sem ∈ system.manager.contents.pushedSems →
      LivesFrom system.saves system.latestClock place save.entry.id →
        system.OnDisk place save.entry.id

/-- What a step does to the entries and the semaphores. -/
inductive RecordStep : DurableEvent Id Form → DurableContents Id Form → Prop
  | save
      (event : DurableEvent Id Form)
      (next : DurableContents Id Form)
      (save : DurableSave Id Form)
      (saves : system.savesOf event = [save])
      (number : save.entry.seqNum = system.manager.contents.seqNum + 1)
      (grows : next.seqNum = system.manager.contents.seqNum + 1)
      (fresh : system.SemFresh event → ∀ sem, save.sem = some sem →
        ∀ other ∈ system.saves, other.sem ≠ some sem)
      (memory : ∀ slush ∈ next.slushEntries, slush ∈ system.manager.contents.slushEntries ∨
        slush.entry = save.entry ∧ ∀ sem, slush.sem = some sem → save.sem = some sem)
      (disk : next.diskEntries = system.manager.contents.diskEntries)
      (files : next.fileEntries = system.manager.contents.fileEntries)
      (pushed : ∀ sem ∈ next.pushedSems, sem ∈ system.manager.contents.pushedSems ∨
        save.sem = some sem ∧ save.record = false)
      (unreleased : system.manager.releasedUnwritten event = []) :
      RecordStep event next
  | kept
      (event : DurableEvent Id Form)
      (next : DurableContents Id Form)
      (saves : system.savesOf event = [])
      (notReopen : event ≠ .reopen)
      (same : next.seqNum = system.manager.contents.seqNum)
      (memory : ∀ slush ∈ next.slushEntries,
        ∃ before ∈ system.manager.contents.slushEntries, before.entry = slush.entry ∧
          ∀ sem, slush.sem = some sem → before.sem = some sem)
      (disk : ∀ entry ∈ system.manager.contents.diskEntries, entry ∈ next.diskEntries)
      (files : ∀ entry ∈ next.fileEntries, entry ∈ system.manager.contents.fileEntries)
      (pushed : ∀ sem, sem ∈ next.pushedSems ↔ sem ∈ system.manager.contents.pushedSems ∨
        ∃ slush ∈ system.manager.releasedUnwritten event, slush.sem = some sem) :
      RecordStep event next
  | write
      (now genId : Nat)
      (layer : List (SlushEntry Id Form))
      (rest : List (List (SlushEntry Id Form)))
      (oldest : system.manager.contents.unflushedLayers = layer :: rest)
      (works : system.manager.writerFailed = false) :
      RecordStep (.writeLayer (.written now))
        (system.manager.contents.writeOldest layer rest genId now)
  | merge (genIds : List Nat) (now genId : Nat) :
      RecordStep (.merge genIds now) (system.manager.contents.mergeLayers genIds genId now)
  | reopen : RecordStep .reopen system.manager.contents.reopen

variable {system} {id : Id}

/-- A step that adds an entry to the current memory layer. -/
theorem RecordStep.ofAdd
    {deadlineCount : Nat} {serializedForm : Form} {sem : Option Nat} {record signalNow : Bool}
    (saves : system.savesOf event =
      [⟨⟨id, system.manager.contents.seqNum + 1, deadlineCount, serializedForm⟩, sem, record⟩])
    (fresh : system.SemFresh event → ∀ own, sem = some own →
      ∀ other ∈ system.saves, other.sem ≠ some own) (signalled : signalNow = true → record = false)
    (unreleased : system.manager.releasedUnwritten event = []) :
    RecordStep system event
      (system.manager.contents.addEntry id deadlineCount serializedForm sem signalNow) := by
  refine .save event _ _ saves rfl rfl fresh ?_ rfl rfl ?_ unreleased
  · intro slush mem
    rcases mem_append.mp mem with inUnflushed | inCurrent
    · exact Or.inl (mem_append_left _ inUnflushed)
    · rcases mem_cons.mp ((insertSlush_perm _ _).mem_iff.mp inCurrent) with rfl | before
      · refine Or.inr ⟨rfl, ?_⟩
        intro own isOwn
        cases signalNow with
        | true => simp at isOwn
        | false => simpa using isOwn
      · exact Or.inl (mem_append_right _ before)
  · intro own mem
    rcases mem_append.mp mem with before | isNew
    · exact Or.inl before
    · cases signalNow with
      | true => exact Or.inr ⟨by simpa using isNew, signalled rfl⟩
      | false => simp at isNew

/-- A step that may release savers and leaves the layers as they are. -/
theorem RecordStep.ofReleased {next : DurableContents Id Form} (saves : system.savesOf event = [])
    (notReopen : event ≠ .reopen) (same : next.seqNum = system.manager.contents.seqNum)
    (memory : ∀ slush ∈ next.slushEntries, slush ∈ system.manager.contents.slushEntries ∨
      slush ∈ releasedLayer system.manager.contents.slushEntries)
    (disk : next.diskLayers = system.manager.contents.diskLayers)
    (files : ∀ file ∈ next.files, file ∈ system.manager.contents.files)
    (pushed : next.pushedSems =
      system.manager.contents.pushedSems ++ layerSems (system.manager.releasedUnwritten event)) :
    RecordStep system event next := by
  refine .kept event next saves notReopen same ?_ ?_ ?_ ?_
  · intro slush mem
    rcases memory slush mem with stays | released
    · exact ⟨slush, stays, rfl, fun _ isSem => isSem⟩
    · obtain ⟨before, isBefore, rfl⟩ := mem_map.mp released
      exact ⟨before, isBefore, rfl, by simp⟩
  · intro entry mem
    rw [diskEntries, disk]
    exact mem
  · intro entry mem
    obtain ⟨file, isFile, inFile⟩ := mem_flatMap.mp mem
    exact mem_flatMap.mpr ⟨file, files file isFile, inFile⟩
  · intro sem
    rw [pushed, mem_append, mem_layerSems]

/-- Every step does one of these things to the entries and the semaphores. -/
theorem recordStep
    {next : DurableContents Id Form} (stepped : ContentStep system.manager event next) :
    RecordStep system event next := by
  have unpushed : system.manager.contents.pushedSems =
      system.manager.contents.pushedSems ++ layerSems ([] : List (SlushEntry Id Form)) := by
    simp [layerSems]
  cases stepped with
  | save id deadlineCount serializedForm sem =>
    refine .ofAdd rfl ?_ (fun _ => rfl) rfl
    rintro fresh own rfl
    exact fresh
  | record id deadlineCount serializedForm sem =>
    refine .ofAdd rfl ?_ (by simp) rfl
    intro fresh own isOwn
    obtain rfl : sem = own := Option.some.inj isOwn
    exact fresh
  | check | begin | mergeFails =>
    exact .ofReleased rfl (by simp) rfl (fun _ => Or.inl) rfl (fun _ => id) unpushed
  | rotateEmpty outcome empty =>
    refine .ofReleased rfl (by simp) rfl (fun _ => Or.inl) rfl (fun _ => id) ?_
    cases outcome with
    | rotated => exact unpushed
    | poolDry =>
      rw [releasedUnwritten, empty]
      exact unpushed
    | mappingError =>
      rw [releasedUnwritten, if_pos empty]
      exact unpushed
  | rotate =>
    refine .ofReleased rfl (by simp) rfl ?_ rfl (fun _ => id) unpushed
    intro slush mem
    refine Or.inl ?_
    simpa [slushEntries, DurableContents.rotate] using mem
  | rotateDry | blocked =>
    exact .ofReleased rfl (by simp) rfl (fun _ => mem_slushEntries_releaseCurrent) rfl
      (fun _ => id) rfl
  | rotateFails _ someEntry =>
    refine .ofReleased rfl (by simp) rfl (fun _ => mem_slushEntries_releaseAll) rfl (fun _ => id) ?_
    rw [releasedUnwritten, if_neg someEntry]
    exact pushedSems_releaseAll _
  | write now genId layer rest oldest works => exact .write now genId layer rest oldest works
  | writeFails outcome released =>
    refine .ofReleased rfl (by simp) rfl (fun _ => mem_slushEntries_releaseUnflushed) rfl
      (fun _ => id) ?_
    rw [released]
    rfl
  | final =>
    exact .ofReleased rfl (by simp) rfl (fun _ => mem_slushEntries_releaseAll) rfl
      (fun _ => id) (pushedSems_releaseAll _)
  | merge genIds now genId => exact .merge genIds now genId
  | removeFile =>
    exact .ofReleased rfl (by simp) rfl (fun _ => Or.inl) rfl (fun _ => mem_of_mem_filter) unpushed
  | removalFails =>
    exact .ofReleased rfl (by simp) rfl (fun _ => Or.inl) rfl (fun _ => id) unpushed
  | reopen => exact .reopen

theorem saves_unchanged (stepped : system.step event = some next)
    (saves : system.savesOf event = []) : next.saves = system.saves := by
  rw [step_saves stepped, saves, append_nil]

/-- Only a reopening starts an epoch. -/
theorem step_epochStart (stepped : system.step event = some next) (notReopen : event ≠ .reopen) :
    next.epochStart = system.epochStart := by
  obtain ⟨manager, _, rfl⟩ := Option.map_eq_some_iff.mp stepped
  cases event with
  | reopen => exact absurd rfl notReopen
  | _ => rfl

/-- A step that saves nothing keeps the log in order. -/
theorem Logged.ofKept (logged : system.Logged) (stepped : system.step event = some next)
    (saves : system.savesOf event = []) (notReopen : event ≠ .reopen)
    (same : next.manager.contents.seqNum = system.manager.contents.seqNum)
    (memory : ∀ slush ∈ next.manager.contents.slushEntries,
      ∃ before ∈ system.manager.contents.slushEntries, before.entry = slush.entry ∧
        ∀ sem, slush.sem = some sem → before.sem = some sem)
    (pushed : ∀ sem ∈ next.manager.contents.pushedSems, sem ∈ system.manager.contents.pushedSems ∨
        ∃ slush ∈ system.manager.contents.slushEntries, slush.sem = some sem) :
    next.Logged := by
  have savesEq := saves_unchanged stepped saves
  have epochEq := step_epochStart stepped notReopen
  refine
    { started := by rw [savesEq, epochEq]; exact logged.started
      numbers := by rw [savesEq, epochEq, same]; exact logged.numbers
      memory := ?_
      pushed := ?_
      distinct := by rw [savesEq]; exact logged.distinct }
  · intro slush mem
    rw [savesEq, epochEq]
    obtain ⟨before, isBefore, sameEntry, sems⟩ := memory slush mem
    obtain ⟨place, save, inEpoch, isSave, isEntry, semsLogged⟩ := logged.memory before isBefore
    exact ⟨place, save, inEpoch, isSave, isEntry.trans sameEntry,
      fun sem isSem => semsLogged sem (sems sem isSem)⟩
  · intro sem mem
    rw [savesEq]
    rcases pushed sem mem with before | ⟨slush, isSlush, isSem⟩
    · exact logged.pushed sem before
    · obtain ⟨place, save, _, isSave, _, semsLogged⟩ := logged.memory slush isSlush
      exact ⟨save, mem_of_getElem? isSave, semsLogged sem isSem⟩

/-- A save joins the log. -/
theorem Logged.ofSave (logged : system.Logged) (stepped : system.step event = some next)
    (saves : system.savesOf event = [save])
    (number : save.entry.seqNum = system.manager.contents.seqNum + 1)
    (grows : next.manager.contents.seqNum = system.manager.contents.seqNum + 1)
    (fresh : ∀ sem, save.sem = some sem → ∀ other ∈ system.saves, other.sem ≠ some sem)
    (memory : ∀ slush ∈ next.manager.contents.slushEntries,
      slush ∈ system.manager.contents.slushEntries ∨
        slush.entry = save.entry ∧ ∀ sem, slush.sem = some sem → save.sem = some sem)
    (pushed : ∀ sem ∈ next.manager.contents.pushedSems,
      sem ∈ system.manager.contents.pushedSems ∨ save.sem = some sem ∧ save.record = false) :
    next.Logged := by
  have notReopen : event ≠ .reopen := by
    rintro rfl
    simp [savesOf] at saves
  have savesEq := step_saves stepped
  have epochEq := step_epochStart stepped notReopen
  rw [saves] at savesEq
  have length : next.saves.length = system.saves.length + 1 := by
    rw [savesEq, length_append, length_singleton]
  refine
    { started := ?_
      numbers := ?_
      memory := ?_
      pushed := ?_
      distinct := ?_ }
  · rw [epochEq, length]
    exact Nat.le_succ_of_le logged.started
  · intro place other inEpoch isOther
    rw [epochEq] at inEpoch
    rw [savesEq] at isOther
    rw [length, grows]
    rcases logged_concat isOther with before | ⟨isLast, rfl⟩
    · have numbers := logged.numbers place other inEpoch before
      omega
    · omega
  · intro slush mem
    rw [savesEq, epochEq]
    rcases memory slush mem with before | ⟨isNew, sems⟩
    · obtain ⟨place, other, inEpoch, isOther, isEntry, semsLogged⟩ := logged.memory slush before
      exact ⟨place, other, inEpoch, logged_append isOther _, isEntry, semsLogged⟩
    · exact ⟨system.saves.length, save, logged.started, by simp, isNew.symm, sems⟩
  · intro sem mem
    rw [savesEq]
    rcases pushed sem mem with before | ⟨isSem, _⟩
    · obtain ⟨other, isOther, otherSem⟩ := logged.pushed sem before
      exact ⟨other, mem_append_left _ isOther, otherSem⟩
    · exact ⟨save, mem_append_right _ mem_cons_self, isSem⟩
  · intro first second firstSave secondSave sem isFirst isSecond firstSem secondSem
    rw [savesEq] at isFirst isSecond
    rcases logged_concat isFirst with firstBefore | ⟨firstLast, rfl⟩
    · rcases logged_concat isSecond with secondBefore | ⟨_, rfl⟩
      · exact logged.distinct first second firstSave secondSave sem firstBefore secondBefore
          firstSem secondSem
      · exact absurd firstSem (fresh sem secondSem firstSave (mem_of_getElem? firstBefore))
    · rcases logged_concat isSecond with secondBefore | ⟨secondLast, _⟩
      · exact absurd secondSem (fresh sem firstSem secondSave (mem_of_getElem? secondBefore))
      · rw [firstLast, secondLast]

/-- A new manager has nothing in memory. -/
theorem Logged.reopen (logged : system.Logged) (stepped : system.step .reopen = some next) :
    next.Logged := by
  obtain ⟨manager, managerStepped, rfl⟩ := Option.map_eq_some_iff.mp stepped
  cases managerStepped
  refine
    { started := by simp [savesOf]
      numbers := ?_
      memory := fun slush mem => absurd mem not_mem_nil
      pushed := by simpa [savesOf, DurableContents.reopen] using logged.pushed
      distinct := by simpa [savesOf] using logged.distinct }
  intro place save inEpoch isSave
  obtain ⟨isPlace, _⟩ := List.getElem?_eq_some_iff.mp isSave
  rw [show system.savesOf .reopen = [] from rfl, append_nil] at isPlace
  exact absurd isPlace (Nat.not_lt.mpr inEpoch)

/-- The memory layers that a written layer leaves. -/
theorem mem_slushEntries_writeOldest
    {rest : List (List (SlushEntry Id Form))} (oldest : contents.unflushedLayers = layer :: rest)
    (slush : SlushEntry Id Form) :
    slush ∈ contents.slushEntries ↔ slush ∈ layer ∨
        ∀ genId now, slush ∈ (contents.writeOldest layer rest genId now).slushEntries := by
  simp [slushEntries, writeOldest, oldest]

/-- One step keeps the log in order. -/
theorem Logged.step (logged : system.Logged) (fresh : system.SemFresh event)
    (stepped : system.step event = some next) :
    next.Logged := by
  have recordStepped := recordStep (step_contents stepped)
  generalize contentsEq : next.manager.contents = contents at recordStepped
  cases recordStepped with
  | save _ _ save saves number grows isFresh memory _ _ pushed _ =>
    subst contentsEq
    exact logged.ofSave stepped saves number grows (isFresh fresh) memory pushed
  | kept _ _ saves notReopen same memory _ _ pushed =>
    subst contentsEq
    refine logged.ofKept stepped saves notReopen same memory ?_
    intro sem mem
    rcases (pushed sem).mp mem with before | ⟨slush, released, isSem⟩
    · exact Or.inl before
    · exact Or.inr ⟨slush, mem_slushEntries_of_released released, isSem⟩
  | write now genId layer rest oldest works =>
    refine logged.ofKept stepped rfl (by simp) (by rw [contentsEq]; rfl) ?_ ?_
    · intro slush mem
      rw [contentsEq] at mem
      refine ⟨slush, ?_, rfl, fun _ isSem => isSem⟩
      exact (mem_slushEntries_writeOldest oldest slush).mpr (Or.inr fun _ _ => mem)
    · intro sem mem
      rw [contentsEq] at mem
      rcases mem_append.mp mem with before | isNew
      · exact Or.inl before
      · obtain ⟨slush, inLayer, isSem⟩ := mem_layerSems.mp isNew
        exact Or.inr
          ⟨slush, (mem_slushEntries_writeOldest oldest slush).mpr (Or.inl inLayer), isSem⟩
  | merge genIds now genId =>
    refine logged.ofKept stepped rfl (by simp) (by rw [contentsEq]; rfl) ?_ ?_
    · intro slush mem
      rw [contentsEq] at mem
      exact ⟨slush, mem, rfl, fun _ isSem => isSem⟩
    · intro sem mem
      rw [contentsEq] at mem
      exact Or.inl mem
  | reopen => exact logged.reopen stepped

/-- What is on disk stays there over a step that keeps the disk layers. -/
theorem OnDisk.ofKept (onDisk : system.OnDisk place id) (stepped : system.step event = some next)
    (disk : ∀ entry ∈ system.manager.contents.diskEntries,
      entry ∈ next.manager.contents.diskEntries)
    (held : ∀ entry, next.manager.contents.Holds entry →
      system.manager.contents.Holds entry ∨ SavedFrom next.saves place entry) :
    next.OnDisk place id := by
  obtain ⟨entry, isEntry, sameId, newer⟩ := onDisk
  refine ⟨entry, disk entry isEntry, sameId, ?_⟩
  intro other isHeld otherId atLeast
  rcases held other isHeld with before | saved
  · rw [step_saves stepped]
    exact (newer other before otherId atLeast).append _
  · exact saved

/-- The saves lived before the step too, and at its clock. -/
theorem livesFrom_step (stepped : system.step event = some next)
    (lives : LivesFrom next.saves next.latestClock place id) :
    LivesFrom system.saves (max system.latestClock (clockOf event)) place id := by
  intro entry saved sameId
  rw [← step_latestClock stepped]
  exact lives entry (by rw [step_saves stepped]; exact saved.append _) sameId

theorem livesFrom_before (stepped : system.step event = some next)
    (lives : LivesFrom next.saves next.latestClock place id) :
    LivesFrom system.saves system.latestClock place id :=
  fun entry saved sameId =>
    Nat.le_trans (Nat.le_max_left _ _) (livesFrom_step stepped lives entry saved sameId)

/-- A written layer brings its records to disk. -/
theorem Logged.onDisk_write
    (layered : Layered system.manager.contents) (logged : system.Logged) {now genId : Nat}
    {rest : List (List (SlushEntry Id Form))}
    (oldest : system.manager.contents.unflushedLayers = layer :: rest)
    (stepped : system.step (.writeLayer (.written now)) = some next)
    (contentsEq : next.manager.contents = system.manager.contents.writeOldest layer rest genId now)
    (recorded : system.RecordAt place save sem)
    (lives : LivesFrom next.saves next.latestClock place save.entry.id) (inLayer : slush ∈ layer)
    (waits : slush.sem = some sem) :
    next.OnDisk place save.entry.id := by
  have isSlush := (mem_slushEntries_writeOldest oldest slush).mpr (Or.inl inLayer)
  obtain ⟨inEpoch, isEntry⟩ := logged.waiting recorded isSlush waits
  have runsEq := system.manager.contents.memRuns_writeOldest oldest genId now
  have layerInMemory : ∀ entry ∈ layer.map SlushEntry.entry,
      entry ∈ system.manager.contents.memRuns.flatten := by
    intro entry mem
    rw [runsEq, flatten_cons]
    exact mem_append_left _ mem
  have sorted : (layer.map SlushEntry.entry).Pairwise EntryBefore :=
    layered.sorted _ (by rw [runsEq]; exact mem_cons_self)
  have thinned := thinned_writeSortedById now sorted
  have savesEq := saves_unchanged stepped rfl
  obtain ⟨newest, isNewest, newestId, best, written⟩ :=
    thinned.newest slush.entry (mem_map_of_mem inLayer)
  have newer := best slush.entry (mem_map_of_mem inLayer) rfl
  have newestSaved := logged.savedFrom inEpoch recorded.logged (layerInMemory newest isNewest)
    (isEntry ▸ newer)
  have unexpired : now ≤ newest.deadlineCount := Nat.le_trans (Nat.le_max_right _ _)
    (livesFrom_step stepped lives newest newestSaved (newestId.trans (by rw [isEntry])))
  refine ⟨newest, ?_, newestId.trans (by rw [isEntry]), ?_⟩
  · rw [contentsEq]
    simp only [diskEntries, writeOldest, flatMap_append, flatMap_cons, flatMap_nil, append_nil]
    exact mem_append_right _ (written unexpired)
  · intro other held otherId atLeast
    rw [savesEq]
    have inMemory : other ∈ system.manager.contents.memRuns.flatten := by
      rw [contentsEq] at held
      rcases held with inMemory | inFiles
      · rw [runsEq, flatten_cons]
        exact mem_append_right _ inMemory
      · rw [fileEntries_writeOldest] at inFiles
        rcases mem_append.mp inFiles with before | isWritten
        · have below := layered.filesBelow other before newest (layerInMemory newest isNewest)
          omega
        · exact layerInMemory other (thinned.kept other isWritten).1
    refine logged.savedFrom inEpoch recorded.logged inMemory ?_
    rw [← isEntry]
    omega

/-- A merge keeps the records on disk. -/
theorem OnDisk.merge (layered : Layered system.manager.contents) (onDisk : system.OnDisk place id)
    {genIds : List Nat} {now genId : Nat} (stepped : system.step (.merge genIds now) = some next)
    (contentsEq : next.manager.contents = system.manager.contents.mergeLayers genIds genId now)
    (lives : LivesFrom next.saves next.latestClock place id) :
    next.OnDisk place id := by
  have savesEq := saves_unchanged stepped rfl
  have thinned := layered.thinned_mergeLayers genIds now
  have fromDisk : ∀ entry ∈ (system.manager.contents.takenLayers genIds).flatMap
      DurableFile.entries, entry ∈ system.manager.contents.fileEntries := by
    intro entry mem
    obtain ⟨file, isTaken, inFile⟩ := mem_flatMap.mp mem
    exact mem_flatMap.mpr ⟨file, layered.mapped file (mem_of_mem_filter isTaken), inFile⟩
  have held : ∀ entry, next.manager.contents.Holds entry → system.manager.contents.Holds entry := by
    intro entry isHeld
    rw [contentsEq] at isHeld
    rcases isHeld with inMemory | inFiles
    · exact Or.inl inMemory
    · rw [fileEntries_mergeLayers] at inFiles
      rcases mem_append.mp inFiles with before | merged
      · exact Or.inr before
      · exact Or.inr (fromDisk entry (thinned.kept entry merged).1)
  have diskEq : next.manager.contents.diskEntries =
      (system.manager.contents.otherLayers genIds).flatMap DurableFile.entries ++
        mergeSortedById now
          ((system.manager.contents.takenLayers genIds).map DurableFile.entries) := by
    rw [contentsEq]
    simp [diskEntries, mergeLayers]
  obtain ⟨entry, isEntry, sameId, newer⟩ := onDisk
  obtain ⟨file, isLayer, inFile⟩ := mem_flatMap.mp isEntry
  by_cases taken : file.genId ∈ genIds
  · have inTaken : entry ∈ (system.manager.contents.takenLayers genIds).flatMap
        DurableFile.entries :=
      mem_flatMap.mpr ⟨file, mem_filter.mpr ⟨isLayer, by simpa using taken⟩, inFile⟩
    obtain ⟨newest, isNewest, newestId, best, written⟩ := thinned.newest entry inTaken
    have atLeast := best entry inTaken rfl
    have saved := newer newest (Or.inr (fromDisk newest isNewest)) (newestId.trans sameId) atLeast
    have unexpired : now ≤ newest.deadlineCount := Nat.le_trans (Nat.le_max_right _ _)
      (livesFrom_step stepped lives newest saved (newestId.trans sameId))
    refine ⟨newest, ?_, newestId.trans sameId, ?_⟩
    · rw [diskEq]
      exact mem_append_right _ (written unexpired)
    · intro other isHeld otherId above
      rw [savesEq]
      exact newer other (held other isHeld) otherId (Nat.le_trans atLeast above)
  · refine ⟨entry, ?_, sameId, ?_⟩
    · rw [diskEq]
      refine mem_append_left _ (mem_flatMap.mpr ⟨file, ?_, inFile⟩)
      exact mem_filter.mpr ⟨isLayer, by simpa using taken⟩
    · intro other isHeld otherId above
      rw [savesEq]
      exact newer other (held other isHeld) otherId above

/-- A save leaves the signalled records on disk. -/
theorem RecordsOnDisk.ofSave (logged : system.Logged) (onDisk : system.RecordsOnDisk)
    (stepped : system.step event = some next) {new : DurableSave Id Form}
    (saves : system.savesOf event = [new])
    (fresh : ∀ sem, new.sem = some sem → ∀ other ∈ system.saves, other.sem ≠ some sem)
    (memory : ∀ slush ∈ next.manager.contents.slushEntries,
      slush ∈ system.manager.contents.slushEntries ∨
        slush.entry = new.entry ∧ ∀ sem, slush.sem = some sem → new.sem = some sem)
    (disk : next.manager.contents.diskEntries = system.manager.contents.diskEntries)
    (files : next.manager.contents.fileEntries = system.manager.contents.fileEntries)
    (pushed : ∀ sem ∈ next.manager.contents.pushedSems,
      sem ∈ system.manager.contents.pushedSems ∨ new.sem = some sem ∧ new.record = false) :
    next.RecordsOnDisk := by
  have savesEq := step_saves stepped
  rw [saves] at savesEq
  intro place save sem recorded isPushed lives
  have isLogged := recorded.logged
  rw [savesEq] at isLogged
  have before : system.saves[place]? = some save ∧ sem ∈ system.manager.contents.pushedSems := by
    rcases logged_concat isLogged with old | ⟨_, rfl⟩
    · refine ⟨old, (pushed sem isPushed).resolve_right ?_⟩
      rintro ⟨isNew, _⟩
      exact fresh sem isNew save (mem_of_getElem? old) recorded.signals
    · rcases pushed sem isPushed with wasPushed | ⟨_, noRecord⟩
      · obtain ⟨other, isOther, otherSem⟩ := logged.pushed sem wasPushed
        exact absurd otherSem (fresh sem recorded.signals other isOther)
      · rw [recorded.record] at noRecord
        simp at noRecord
  have wasOnDisk := onDisk place save sem { recorded with logged := before.1 } before.2
    (livesFrom_before stepped lives)
  refine wasOnDisk.ofKept stepped (by rw [disk]; exact fun _ => id) ?_
  intro entry held
  rcases held with inMemory | inFiles
  · obtain ⟨slush, isSlush, rfl⟩ := mem_memRuns.mp inMemory
    rcases memory slush isSlush with old | ⟨isNew, _⟩
    · exact Or.inl (Or.inl (mem_memRuns.mpr ⟨slush, old, rfl⟩))
    · refine Or.inr ⟨system.saves.length, new, ?_, ?_, isNew.symm⟩
      · exact Nat.le_of_lt (List.getElem?_eq_some_iff.mp before.1).1
      · rw [savesEq]
        simp
  · rw [files] at inFiles
    exact Or.inl (Or.inr inFiles)

/-- A step that releases no living record unwritten leaves the signalled records on
disk. -/
theorem RecordsOnDisk.step (layered : Layered system.manager.contents) (logged : system.Logged)
    (onDisk : system.RecordsOnDisk) (fresh : system.SemFresh event)
    (writes : system.ReleasesWritten event) (stepped : system.step event = some next) :
    next.RecordsOnDisk := by
  have recordStepped := recordStep (step_contents stepped)
  generalize contentsEq : next.manager.contents = contents at recordStepped
  cases recordStepped with
  | save _ _ new saves _ _ isFresh memory disk files pushed _ =>
    subst contentsEq
    exact onDisk.ofSave logged stepped saves (isFresh fresh) memory disk files pushed
  | kept _ _ saves notReopen same memory disk files pushed =>
    subst contentsEq
    intro place save sem recorded isPushed lives
    have wasRecorded := recorded.before (saves_unchanged stepped saves)
    rcases (pushed sem).mp isPushed with before | released
    · refine (onDisk place save sem wasRecorded before (livesFrom_before stepped lives)).ofKept
        stepped disk ?_
      intro entry held
      refine Or.inl (holds_of_slush ?_ files held)
      intro slush isSlush
      obtain ⟨other, isOther, sameEntry, _⟩ := memory slush isSlush
      exact ⟨other, isOther, sameEntry⟩
    · exact absurd (livesFrom_step stepped lives) (writes place save sem wasRecorded released)
  | write now genId layer rest oldest works =>
    intro place save sem recorded isPushed lives
    have wasRecorded := recorded.before (saves_unchanged stepped rfl)
    rw [contentsEq] at isPushed
    rcases mem_append.mp isPushed with before | isNew
    · refine (onDisk place save sem wasRecorded before (livesFrom_before stepped lives)).ofKept
        stepped ?_ ?_
      · intro entry mem
        rw [contentsEq]
        exact mem_flatMap.mpr
          ((mem_flatMap.mp mem).imp fun _ isLayer =>
            ⟨mem_append_left _ isLayer.1, isLayer.2⟩)
      · intro entry held
        rw [contentsEq] at held
        exact Or.inl (layered.holds_writeOldest oldest held)
    · obtain ⟨slush, inLayer, waits⟩ := mem_layerSems.mp isNew
      exact logged.onDisk_write layered oldest stepped contentsEq wasRecorded lives inLayer waits
  | merge genIds now genId =>
    intro place save sem recorded isPushed lives
    rw [contentsEq] at isPushed
    exact (onDisk place save sem (recorded.before (saves_unchanged stepped rfl)) isPushed
      (livesFrom_before stepped lives)).merge layered stepped contentsEq lives
  | reopen =>
    intro place save sem recorded isPushed lives
    rw [contentsEq] at isPushed
    refine (onDisk place save sem (recorded.before (saves_unchanged stepped rfl)) isPushed
      (livesFrom_before stepped lives)).ofKept stepped ?_ ?_
    · intro entry mem
      rw [contentsEq]
      exact layered.mem_fileEntries mem
    · intro entry held
      rw [contentsEq] at held
      exact Or.inl (Or.inr (held.resolve_left not_mem_nil))

/-- What is on disk is loaded after a crash. -/
theorem RecordsOnDisk.recordsKept (layered : Layered system.manager.contents)
    (onDisk : system.RecordsOnDisk) :
    system.RecordsKept indexing := by
  intro place save sem recorded isPushed lives
  obtain ⟨entry, isEntry, sameId, newer⟩ := onDisk place save sem recorded isPushed lives
  have inFiles := layered.mem_fileEntries isEntry
  rcases layered.reopen.tryLoad indexing save.entry.id with
    ⟨_, none⟩ | ⟨found, isFound, foundId, loaded, best⟩
  · exact absurd sameId (none entry inFiles)
  · have saved := newer found (Or.inr isFound) foundId (best entry inFiles sameId)
    exact ⟨found, saved, foundId, loaded⟩

/-- A step after which all signalled records are kept has released no living record
unwritten. -/
theorem releasesWritten_of_recordsKept
    (layered : Layered system.manager.contents) (logged : system.Logged)
    (stepped : system.step event = some next) (kept : next.RecordsKept indexing) :
    system.ReleasesWritten event := by
  have contentStepped := step_contents stepped
  have nextLayered := layered.step contentStepped
  have recordStepped := recordStep contentStepped
  intro place save sem recorded released lives
  generalize contentsEq : next.manager.contents = contents at recordStepped
  cases recordStepped with
  | save _ _ _ _ _ _ _ _ _ _ _ unreleased =>
    obtain ⟨slush, isReleased, _⟩ := released
    rw [unreleased] at isReleased
    exact absurd isReleased not_mem_nil
  | kept _ _ saves notReopen same memory disk files pushed =>
    subst contentsEq
    have savesEq := saves_unchanged stepped saves
    have nextRecorded : next.RecordAt place save sem :=
      { recorded with logged := savesEq ▸ recorded.logged }
    obtain ⟨entry, ⟨later, laterSave, isLater, isSaved, isEntry⟩, sameId, loaded⟩ :=
      kept place save sem nextRecorded ((pushed sem).mpr (Or.inr released))
        (by rw [savesEq, step_latestClock stepped]; exact lives)
    obtain ⟨slush, isReleased, waits⟩ := released
    have isSlush := mem_slushEntries_of_released isReleased
    obtain ⟨inEpoch, slushEntry⟩ := logged.waiting recorded isSlush waits
    rcases nextLayered.reopen.tryLoad indexing save.entry.id with
      ⟨isNone, _⟩ | ⟨found, isFound, _, isLoaded, _⟩
    · rw [loaded] at isNone
      simp at isNone
    · rw [loaded, Option.some.injEq, Prod.mk.injEq] at isLoaded
      have below := layered.filesBelow found (files found isFound) slush.entry
        (mem_memRuns.mpr ⟨slush, isSlush, rfl⟩)
      rw [savesEq] at isSaved
      have number := logged.numbers place save inEpoch recorded.logged
      have laterNumber := logged.numbers later laterSave (Nat.le_trans inEpoch isLater) isSaved
      rw [isEntry] at laterNumber
      rw [slushEntry] at below
      omega
  | write now genId layer rest oldest works =>
    obtain ⟨slush, isReleased, _⟩ := released
    rw [releasedUnwritten, if_neg (by simp [works])] at isReleased
    exact absurd isReleased not_mem_nil
  | merge | reopen =>
    obtain ⟨slush, isReleased, _⟩ := released
    exact absurd isReleased not_mem_nil

/-- What the runs keep to. -/
def KeepsRecords (system : DurableSystem Id Form) (event : DurableEvent Id Form) : Prop :=
  system.SemFresh event ∧ system.ReleasesWritten event

/-- In every run whose steps keep to the condition the signalled records are on disk. -/
theorem recordsOnDisk_of_reaches (reached : EventRuns.Reaches step KeepsRecords new system) :
    Layered system.manager.contents ∧ system.Logged ∧ system.RecordsOnDisk := by
  induction reached with
  | refl =>
    refine ⟨Layered.new, Logged.new, ?_⟩
    intro place save sem _ isPushed
    exact absurd isPushed not_mem_nil
  | tail before allowed stepped ih =>
    obtain ⟨layered, logged, onDisk⟩ := ih
    exact ⟨layered.step (step_contents stepped), logged.step allowed.1 stepped,
      onDisk.step layered logged allowed.1 allowed.2 stepped⟩

/-- After every run whose steps keep to the condition, a crash leaves every signalled
record or a later save of its id on disk; after a further step it does so if and only if
the step keeps to the condition too. -/
theorem recordsKept_iff_releasesWritten
    (reached : EventRuns.Reaches step KeepsRecords new system) (fresh : system.SemFresh event)
    (stepped : system.step event = some next) :
    system.RecordsKept indexing ∧ (next.RecordsKept indexing ↔ system.ReleasesWritten event) := by
  obtain ⟨layered, logged, onDisk⟩ := recordsOnDisk_of_reaches reached
  refine ⟨onDisk.recordsKept indexing layered, ?_, ?_⟩
  · exact releasesWritten_of_recordsKept indexing layered logged stepped
  · intro writes
    exact (onDisk.step layered logged fresh writes stepped).recordsKept indexing
      (layered.step (step_contents stepped))

end DurableSystem

end Records

namespace DurableSystem

/-- A record is written and its saver released. -/
theorem recordsKept_iff_releasesWritten_write : ∃ system next : DurableSystem Nat Nat,
      EventRuns.Reaches step KeepsRecords new system ∧ system.SemFresh (.writeLayer (.written 1)) ∧
        system.step (.writeLayer (.written 1)) = some next ∧
        system.RecordsKept numberIndexing ∧
        (next.RecordsKept numberIndexing ↔ system.ReleasesWritten (.writeLayer (.written 1))) := by
  have start : EventRuns.Reaches step KeepsRecords (new : DurableSystem Nat Nat) new := .refl
  have unreleased : ∀ (system : DurableSystem Nat Nat) (event : DurableEvent Nat Nat),
      system.manager.releasedUnwritten event = [] → system.ReleasesWritten event := by
    intro system event none place save sem _ ⟨slush, isReleased, _⟩
    rw [none] at isReleased
    exact absurd isReleased not_mem_nil
  have checked := start.tail
    (show KeepsRecords _ (.checkRecord 7) from ⟨trivial, unreleased _ _ rfl⟩) rfl
  have saved := checked.tail
    (show KeepsRecords _ (.addRecord 0 5 20 7) from
      ⟨fun save mem => absurd mem not_mem_nil, unreleased _ _ rfl⟩) rfl
  have began := saved.tail
    (show KeepsRecords _ (.beginRound false) from ⟨trivial, unreleased _ _ rfl⟩) rfl
  have rotated := began.tail
    (show KeepsRecords _ (.rotateLayer .rotated) from ⟨trivial, unreleased _ _ rfl⟩) rfl
  exact ⟨_, _, rotated, trivial, rfl,
    recordsKept_iff_releasesWritten numberIndexing rotated trivial rfl⟩

/-- `TrySaveRecord` returns true, the disk is full when its layer is written, and the
saver is released; a crash then loses the record. -/
theorem diskFull_signals_unwritten_record : ∃ system : DurableSystem Nat Nat,
      EventRuns.run step (fun _ _ => True) new
          [.checkRecord 7, .addRecord 0 100 20 7, .beginRound false, .rotateLayer .rotated,
            .writeLayer .diskFull] = some system ∧
        system.saves[0]? = some ⟨⟨0, 2, 100, 20⟩, some 7, true⟩ ∧
        7 ∈ system.manager.contents.pushedSems ∧
        system.manager.contents.reopen.tryLoad numberIndexing 0 = none ∧
        ¬ system.RecordsKept numberIndexing := by
  have lost : ∀ system : DurableSystem Nat Nat,
      system.saves = [⟨⟨0, 2, 100, 20⟩, some 7, true⟩] → system.latestClock = 0 →
      7 ∈ system.manager.contents.pushedSems →
      system.manager.contents.reopen.tryLoad numberIndexing 0 = none →
        ¬ system.RecordsKept numberIndexing := by
    intro system saves clock isPushed isNone kept
    obtain ⟨entry, _, _, loaded⟩ := kept 0 ⟨⟨0, 2, 100, 20⟩, some 7, true⟩ 7
      ⟨by rw [saves]; rfl, rfl, rfl⟩ isPushed (by rw [clock]; exact fun _ _ _ => Nat.zero_le _)
    rw [isNone] at loaded
    simp at loaded
  refine ⟨_, rfl, rfl, ?_, ?_, lost _ rfl rfl ?_ ?_⟩ <;> decide +kernel

end DurableSystem

/-! ## Savers are woken once -/

variable {Id Form : Type} [LinearOrder Id] {manager : DurableManager Id Form}
  {event : DurableEvent Id Form} {contents : DurableContents Id Form}

/-- The semaphores that were pushed or wait in memory. -/
def DurableContents.sems (contents : DurableContents Id Form) : List Nat :=
  contents.pushedSems ++ layerSems contents.slushEntries

/-- The semaphore a call brings. -/
def DurableEvent.sems : DurableEvent Id Form → List Nat
  | .save _ _ _ sem => sem.toList
  | .addRecord _ _ _ sem => [sem]
  | _ => []

/-- The save's saver waits or is woken. -/
theorem sems_addEntry (id : Id) (count : Nat) (form : Form) (sem : Option Nat) (now : Bool) :
    (contents.addEntry id count form sem now).sems.Perm (contents.sems ++ sem.toList) := by
  have inserted := fun slush =>
    (insertSlush_perm slush contents.curMemoryLayer).filterMap SlushEntry.sem
  refine perm_iff_count.mpr fun own => ?_
  simp only [sems, addEntry, slushEntries, layerSems, filterMap_append, count_append,
    (inserted _).count_eq]
  cases now <;> cases sem <;> simp [count_cons] <;> omega

/-- A step pushes a semaphore just when it takes it out of a memory layer. -/
theorem ContentStep.sems (stepped : ContentStep manager event contents)
    (stays : event ≠ .reopen) : contents.sems.Perm (manager.contents.sems ++ event.sems) := by
  cases stepped with
  | reopen => exact absurd rfl stays
  | save | record => exact sems_addEntry ..
  | rotate | rotateDry | rotateFails | write | writeFails | blocked | final =>
    refine perm_iff_count.mpr fun own => ?_
    simp [*, DurableContents.sems, DurableEvent.sems, layerSems, slushEntries, writeOldest,
      DurableContents.rotate, releaseCurrent, releaseUnflushed, releasedLayer,
      Function.comp_def, Nat.add_comm]
  | _ => exact .of_eq (append_nil _).symm

/-- Until its process ends a manager pushes each semaphore as often as it was given, but for
those that wait in a memory layer: no saver is woken twice or forgotten. -/
theorem savers_woken_once (manager next : DurableManager Id Form)
    (events : List (DurableEvent Id Form)) (stays : ∀ event ∈ events, event ≠ .reopen)
    (ran : events.foldlM step manager = some next) :
    next.contents.sems.Perm (manager.contents.sems ++ events.flatMap DurableEvent.sems) := by
  induction events generalizing manager with
  | nil => exact Option.some.inj ran ▸ .of_eq (append_nil _).symm
  | cons event events ih =>
    obtain ⟨middle, stepped, rest⟩ := Option.bind_eq_some_iff.mp ran
    obtain ⟨here, later⟩ := forall_mem_cons.mp stays
    rw [flatMap_cons, ← append_assoc]
    exact (ih middle later rest).trans (((step_contents stepped).sems here).append_right _)

/-- One saver, woken when the pool is dry. -/
theorem savers_woken_once_poolDry :
    let events : List (DurableEvent Nat Nat) :=
      [.save 0 5 20 (some 7), .beginRound false, .rotateLayer .poolDry]
    ∃ next, events.foldlM step .new = some next ∧ next.contents.sems.Perm [7] := by
  intro events
  refine ⟨_, rfl, savers_woken_once .new _ events ?_ rfl⟩
  simp [events]

end Orly
