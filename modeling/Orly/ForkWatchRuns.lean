import Orly.ForkWatchConflicts

/-!
# Runs of a fork watch

In every run of appends, tests, forces and reforks the watch keeps to its marks, so that
what it records when an update arrives is due; and what it records of an update that passed
the test of a refusing watch was changed after the test.
-/

namespace Orly

open List

variable {Id Key : Type} [DecidableEq Id] [Zero Id] [DecidableEq Key]

/-- The halves of a test. -/
def WatchEvent.IsTest : WatchEvent Id Key → Prop
  | .findConflicts .. => True
  | .decide => True
  | _ => False

namespace WatchSystem

/-- A system whose watch keeps to its marks. -/
structure Follows (povId : Id) (chain : List Id) (mode : WatchMode) (system : WatchSystem Id Key)
    (marks : List (Mark Key)) : Prop where
  tracks : system.watch.Tracks marks
  povId : system.watch.povId = povId
  chain : system.watch.chain = chain
  mode : system.watch.mode = mode

variable {povId : Id} {chain : List Id} {mode : WatchMode} {system : WatchSystem Id Key}
  {marks : List (Mark Key)}

omit [DecidableEq Id] [Zero Id] [DecidableEq Key] in
theorem follows_new (povId : Id) (chain : List Id) (mode : WatchMode) (maxKeys : Nat) :
    Follows povId chain mode (new povId chain mode maxKeys : WatchSystem Id Key) [] where
  tracks :=
    { changed := fun _ key =>
        ⟨fun mem => absurd mem (Finset.notMem_empty key),
          fun outstanding => absurd outstanding Outstanding.not_nil⟩
      bounded := Nat.zero_le _ }
  povId := rfl
  chain := rfl
  mode := rfl

/-- Two watches that have recorded the same. -/
structure SameRecord (before after : ForkWatch Id Key) : Prop where
  povId : after.povId = before.povId
  chain : after.chain = before.chain
  mode : after.mode = before.mode
  changed : after.changed = before.changed
  overflowed : after.overflowed = before.overflowed
  conflicts : after.conflicts = before.conflicts

omit [DecidableEq Id] [Zero Id] in
theorem sameRecord_decideBlock (watch : ForkWatch Id Key) (conflicts : List (Conflict Key))
    (seqNum : Nat) :
    SameRecord watch (watch.decideBlock conflicts seqNum).2 := by
  rw [ForkWatch.decideBlock]
  split
  case isTrue | isFalse => exact ⟨rfl, rfl, rfl, rfl, rfl, rfl⟩

omit [DecidableEq Id] [Zero Id] [DecidableEq Key] in
/-- What changes nothing of the record leaves no mark. -/
theorem Follows.sameRecord
    {after : WatchSystem Id Key} (follows : Follows povId chain mode system marks)
    (same : SameRecord system.watch after.watch) :
    Follows povId chain mode after (marks ++ []) := by
  rw [append_nil]
  exact
    { tracks :=
        { changed := by
            rw [same.overflowed, same.changed]
            exact follows.tracks.changed
          bounded := by
            rw [same.conflicts]
            exact follows.tracks.bounded }
      povId := same.povId.trans follows.povId
      chain := same.chain.trans follows.chain
      mode := same.mode.trans follows.mode }

/-- Every event keeps the watch in step with the marks. -/
theorem Follows.step (follows : Follows povId chain mode system marks) (event : WatchEvent Id Key) :
    Follows povId chain mode (system.step event) (marks ++ eventMarks povId chain event) := by
  cases event with
  | append update promotedFrom room =>
    obtain ⟨tracks, same⟩ := ForkWatch.onAppend_keeps follows.tracks promotedFrom
    rw [follows.povId, follows.chain] at tracks
    exact ⟨tracks, same.povId.trans follows.povId, same.chain.trans follows.chain,
      same.mode.trans follows.mode⟩
  | findConflicts | force => exact follows.sameRecord ⟨rfl, rfl, rfl, rfl, rfl, rfl⟩
  | decide =>
    rw [WatchSystem.step]
    split
    case h_1 => exact follows.sameRecord ⟨rfl, rfl, rfl, rfl, rfl, rfl⟩
    case h_2 => exact follows.sameRecord (sameRecord_decideBlock ..)
  | refork =>
    refine ⟨⟨fun _ key => ?_, follows.tracks.bounded⟩, follows.povId, follows.chain, follows.mode⟩
    exact ⟨fun mem => absurd mem (Finset.notMem_empty key),
      fun outstanding => absurd outstanding Outstanding.not_forked⟩

/-- So does every run. -/
theorem Follows.run (follows : Follows povId chain mode system marks)
    (events : List (WatchEvent Id Key)) :
    Follows povId chain mode (system.run events) (marks ++ runMarks povId chain events) := by
  induction events generalizing system marks with
  | nil =>
    rw [show runMarks povId chain ([] : List (WatchEvent Id Key)) = [] from rfl, append_nil]
    exact follows
  | cons event events ih =>
    have later := ih (follows.step event)
    rw [append_assoc] at later
    exact later

theorem follows_run (povId : Id) (chain : List Id) (mode : WatchMode) (maxKeys : Nat)
    (events : List (WatchEvent Id Key)) :
    Follows povId chain mode ((new povId chain mode maxKeys).run events)
      (runMarks povId chain events) :=
  (follows_new povId chain mode maxKeys).run events

theorem run_append (system : WatchSystem Id Key) (first second : List (WatchEvent Id Key)) :
    system.run (first ++ second) = (system.run first).run second :=
  foldl_append ..

section Tests

/-- Nothing but a test touches what the player found and what it let through. -/
theorem Follows.step_of_not_test
    {event : WatchEvent Id Key} (follows : Follows povId chain mode system marks)
    (notTest : ¬ event.IsTest) :
    (system.step event).tested = system.tested ∧
      (system.step event).watch.promotingForced = system.watch.promotingForced := by
  cases event with
  | append update promotedFrom room =>
    exact ⟨rfl, (ForkWatch.onAppend_keeps follows.tracks promotedFrom).2.promotingForced⟩
  | findConflicts | decide => exact absurd trivial notTest
  | force seqNum => exact ⟨rfl, rfl⟩
  | refork => exact ⟨rfl, rfl⟩

/-- Between tests the last test stands. -/
theorem Follows.run_of_not_test
    {events : List (WatchEvent Id Key)} (follows : Follows povId chain mode system marks)
    (notTests : ∀ event ∈ events, ¬ event.IsTest) :
    (system.run events).tested = system.tested ∧
      (system.run events).watch.promotingForced = system.watch.promotingForced := by
  induction events generalizing system marks with
  | nil => exact ⟨rfl, rfl⟩
  | cons event events ih =>
    obtain ⟨tested, forced⟩ := follows.step_of_not_test (notTests event mem_cons_self)
    obtain ⟨laterTested, laterForced⟩ := ih (follows.step event)
      fun other later => notTests other (mem_cons_of_mem _ later)
    exact ⟨laterTested.trans tested, laterForced.trans forced⟩

/-- An update that is let through without force had no conflicts. -/
theorem conflicts_eq_nil_of_passed {conflicts : List (Conflict Key)} {seqNum : Nat}
    (tested : system.tested = some (conflicts, seqNum))
    (passed : (system.step .decide).answer = some false)
    (notForced : (system.step .decide).watch.promotingForced = false) :
    conflicts = [] := by
  rw [WatchSystem.step, tested] at passed notForced
  have goesOn := Option.some.inj passed
  simp only [ForkWatch.decideBlock] at goesOn notForced
  split at goesOn
  case isTrue noBlock =>
    rw [if_pos noBlock] at notForced
    simpa using notForced
  case isFalse => contradiction

omit [DecidableEq Id] [Zero Id] in
/-- A test that finds nothing finds no outstanding key. -/
theorem not_outstanding_of_findConflicts
    {watch : ForkWatch Id Key} {update : List (WatchedEntry Key)} {entry : WatchedEntry Key}
    (tracks : watch.Tracks marks) (nothing : watch.findConflicts update = [])
    (mem : entry ∈ overwrites update) :
    ¬ Outstanding marks entry.key := by
  obtain ⟨inUpdate, assigns⟩ := mem_filter.mp mem
  have noConflict := filter_eq_nil_iff.mp (map_eq_nil_iff.mp nothing) entry inUpdate
  simp only [decide_eq_true_eq, not_and, not_or, Bool.not_eq_true] at noConflict
  obtain ⟨notOverflowed, unchanged⟩ := noConflict (by simpa using assigns)
  rwa [← tracks.changed notOverflowed]

omit [DecidableEq Id] [Zero Id] [DecidableEq Key] in
theorem outstanding_of_mem_due {update : List (WatchedEntry Key)} {entry : WatchedEntry Key}
    (mem : entry ∈ due marks update) :
    Outstanding marks entry.key := by
  induction update generalizing marks with
  | nil => contradiction
  | cons first entries ih =>
    rw [due] at mem
    split at mem
    case isTrue =>
      rcases mem_append.mp mem with isFirst | later
      · split at isFirst
        case isTrue outstanding =>
          rw [mem_singleton.mp isFirst]
          exact outstanding
        case isFalse => contradiction
      · exact (Outstanding.overwritten_iff.mp (ih later)).2
    case isFalse => exact ih mem

/-- The run has tested the update, let it through without force, and tested nothing since:
`earlier` are the events before the test, `since` those after its first half. -/
structure PassedTest (start : WatchSystem Id Key) (events : List (WatchEvent Id Key))
    (update : List (WatchedEntry Key))
    (earlier since : List (WatchEvent Id Key)) : Prop where
  tested : ∃ (between later : List (WatchEvent Id Key)) (seqNum : Nat),
    since = between ++ .decide :: later ∧
    events = earlier ++ .findConflicts update seqNum :: since ∧
    (∀ event ∈ between ++ later, ¬ event.IsTest) ∧
    let passed := start.run (earlier ++ .findConflicts update seqNum :: (between ++ [.decide]))
    passed.answer = some false ∧ passed.watch.promotingForced = false

variable {events earlier since : List (WatchEvent Id Key)} {update : List (WatchedEntry Key)}

/-- When an update has passed, its test found nothing, and the flag is as the test left it. -/
theorem PassedTest.found_nothing (follows : Follows povId chain mode system marks)
    (passed : PassedTest system events update earlier since) :
    (system.run earlier).watch.findConflicts update = [] ∧
      (system.run events).watch.promotingForced = false := by
  obtain ⟨between, later, seqNum, rfl, rfl, notTests, answered, notForced⟩ := passed.tested
  have runTest : ∀ rest, system.run
        (earlier ++ .findConflicts update seqNum :: (between ++ .decide :: rest)) =
      ((((system.run earlier).step (.findConflicts update seqNum)).run between).step
        .decide).run rest := by
    intro rest
    rw [run_append]
    show WatchSystem.run _ (between ++ .decide :: rest) = _
    rw [run_append]
    rfl
  rw [runTest []] at answered notForced
  have atTest := (follows.run earlier).step (.findConflicts update seqNum)
  obtain ⟨kept, -⟩ := atTest.run_of_not_test fun event mem =>
    notTests event (mem_append_left later mem)
  obtain ⟨-, sameForced⟩ := ((atTest.run between).step .decide).run_of_not_test
    fun event mem => notTests event (mem_append_right between mem)
  refine ⟨conflicts_eq_nil_of_passed kept answered notForced, ?_⟩
  rw [runTest later, sameForced]
  exact notForced

theorem PassedTest.runMarks_eq (passed : PassedTest system events update earlier since) :
    runMarks povId chain events = runMarks povId chain earlier ++ runMarks povId chain since := by
  obtain ⟨between, later, seqNum, -, rfl, -⟩ := passed.tested
  simp [runMarks, eventMarks]

end Tests

end WatchSystem

open WatchSystem ForkWatch in
/-- In every run, what is recorded of an arriving update of the POV is what is due, or all
its overwrites if the watch has overflowed; and if the update passed the test of a refusing
watch without force, it is raced, and on keys changed after the test unless the watch has
overflowed. -/
theorem fork_watch_reports_conflicts
    (povId : Id) (chain : List Id) (mode : WatchMode) (maxKeys : Nat)
    (events : List (WatchEvent Id Key))
    (update : List (WatchedEntry Key)) :
    let start : WatchSystem Id Key := new povId chain mode maxKeys
    let before := start.run events
    let after := before.step (.append update povId none)
    let marks := runMarks povId chain events
    ∃ found, Recorded before.watch after.watch before.watch.racedOnArrival found ∧
      (before.watch.overflowed = false → found = due marks update) ∧
      (due marks update).Sublist found ∧
      found.Sublist (overwrites update) ∧
      ∀ earlier since, mode = .refuse → PassedTest start events update earlier since →
        before.watch.racedOnArrival = true ∧ ∀ entry ∈ found,
            ¬ Outstanding (runMarks povId chain earlier) entry.key ∧
              Mark.changed entry.key ∈ runMarks povId chain since ∨
            before.watch.overflowed = true := by
  intro start before after marks
  have follows : Follows povId chain mode before marks :=
    follows_run povId chain mode maxKeys events
  have arrives : after.watch = before.watch.arrive none update := by
    show before.watch.onAppend update povId none = _
    rw [onAppend, if_pos follows.povId.symm]
  have raced : ∀ earlier since, mode = .refuse → PassedTest start events update earlier since →
      before.watch.racedOnArrival = true := by
    intro earlier since refuses passed
    obtain ⟨-, notForced⟩ := passed.found_nothing (follows_new povId chain mode maxKeys)
    exact decide_eq_true ⟨follows.mode.trans refuses, notForced⟩
  by_cases overflowed : before.watch.overflowed = true
  · refine ⟨overwrites update, ?_, fun isFalse => ?_, due_sublist .., List.Sublist.refl _,
      fun earlier since refuses passed =>
        ⟨raced earlier since refuses passed, fun _ _ => Or.inr overflowed⟩⟩
    · rw [arrives]
      exact recorded_arrive_overflowed follows.tracks.bounded overflowed
    · exact absurd (overflowed.symm.trans isFalse) (by decide)
  · have notOverflowed : before.watch.overflowed = false := Bool.not_eq_true _ ▸ overflowed
    refine ⟨due marks update, ?_, fun _ => rfl, List.Sublist.refl _, due_sublist ..,
      fun earlier since refuses passed =>
        ⟨raced earlier since refuses passed, fun entry mem => Or.inl ?_⟩⟩
    · rw [arrives]
      exact recorded_arrive follows.tracks notOverflowed
    · obtain ⟨nothing, -⟩ := passed.found_nothing (follows_new povId chain mode maxKeys)
      have atTest := follows_run povId chain mode maxKeys earlier
      have unchanged := not_outstanding_of_findConflicts atTest.tracks nothing
        ((due_sublist marks update).subset mem)
      refine ⟨unchanged, Outstanding.changed_mem unchanged ?_⟩
      rw [← passed.runMarks_eq]
      exact outstanding_of_mem_due mem

section Samples

/-- An overwrite of a key. -/
def overwriteOf (key : Nat) : WatchedEntry Nat :=
  { key, mutator := .assign, isTombstone := false }

/-- A test, a change of the tested key and the arrival of the update: POV 1 under 2. -/
def changeAfterTest : List (WatchEvent Nat Nat) :=
  [.findConflicts [overwriteOf 7] 1, .decide, .append [overwriteOf 7] 0 none]

theorem passedTest_changeAfterTest :
    (WatchSystem.new 1 [2] .refuse 5).PassedTest changeAfterTest [overwriteOf 7] []
      [.decide, .append [overwriteOf 7] 0 none] := by
  refine ⟨[], [.append [overwriteOf 7] 0 none], 1, rfl, rfl, ?_, by decide, by decide⟩
  intro event mem
  rw [mem_singleton.mp mem]
  exact id

/-- The update passes its test and is recorded as raced. -/
theorem fork_watch_reports_conflicts_raced :
    let before := (WatchSystem.new 1 [2] .refuse 5).run changeAfterTest
    let after := before.step (.append [overwriteOf 7] 1 none)
    before.watch.racedOnArrival = true ∧ after.watch.conflicts =
        [{ number := 1, key := 7, isDelete := false, raced := true }] := by
  obtain ⟨found, -, -, -, -, third⟩ :=
    fork_watch_reports_conflicts 1 [2] .refuse 5 changeAfterTest [overwriteOf 7]
  exact ⟨(third _ _ rfl passedTest_changeAfterTest).1, by decide⟩

/-- The key set overflows between the test and the arrival. -/
def overflowAfterTest : List (WatchEvent Nat Nat) :=
  [.findConflicts [overwriteOf 7] 1, .decide, .append [overwriteOf 8, overwriteOf 9] 0 none]

/-- A key that nobody changed is reported when the key set has overflowed after the test, and
a conflict is lost when memory runs out as it is recorded. -/
theorem overflow_after_test_and_no_memory :
    (let start : WatchSystem Nat Nat := WatchSystem.new 1 [2] .refuse 1
      let before := start.run overflowAfterTest
      let after := before.step (.append [overwriteOf 7] 1 none)
      start.PassedTest overflowAfterTest [overwriteOf 7] []
          [.decide, .append [overwriteOf 8, overwriteOf 9] 0 none] ∧
        after.watch.conflicts =
          [{ number := 1, key := 7, isDelete := false, raced := true }] ∧
        Mark.changed 7 ∉ runMarks 1 [2] overflowAfterTest) ∧
    (let start : WatchSystem Nat Nat := WatchSystem.new 1 [2] .report 5
      let before := start.run [.append [overwriteOf 7] 0 none]
      let after := before.step (.append [overwriteOf 7] 1 (some 0))
      after.watch.overflowed = true ∧ after.watch.conflicts = [] ∧
        due (runMarks 1 [2] [.append [overwriteOf 7] 0 none]) [overwriteOf 7] =
          [overwriteOf 7]) := by
  refine ⟨⟨?_, by decide, ?_⟩, by decide, by decide, ?_⟩
  · refine ⟨[], [.append [overwriteOf 8, overwriteOf 9] 0 none], 1, rfl, rfl, ?_, by decide,
      by decide⟩
    intro event mem
    rw [mem_singleton.mp mem]
    exact id
  · simp [runMarks, overflowAfterTest, eventMarks, overwriteOf]
  · have outstanding :
        Outstanding (runMarks 1 [2] [.append [overwriteOf 7] 0 none]) (overwriteOf 7).key :=
      ⟨[], [], rfl, not_mem_nil, not_mem_nil⟩
    have assigns : (overwriteOf 7).mutator = .assign := rfl
    rw [due, if_pos assigns, if_pos outstanding]
    rfl

end Samples

end Orly
