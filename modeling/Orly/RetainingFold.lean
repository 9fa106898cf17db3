import Orly.CompactionFold

namespace Orly

/-!
# The retaining fold

With a retention window on, a merge keeps the versions newer than `retain_from`
as they were written and folds the rest to the state as of `retain_from`.  So that
a read replays a bounded number of deltas, every `KeyframeInterval`-th delta whose
value the file determines is rewritten into an assignment of that value.

The pass runs over the window oldest version first and carries the value of the
key while it is known.  The main result: a read at any version of the window sees
the same value in the written file as in the merged one, whatever lies above and
below the file.
-/

open List FoldEntry

/-- `TFoldDataFile::KeyframeInterval`. -/
def keyframeInterval : Nat := 64

theorem keyframeInterval_pos : 0 < keyframeInterval := by
  decide

/--
What `FoldOneKeyRetaining` carries through the window.  The source's `absent` is
`running = none`; it never reads `running` while the key is absent.
-/
structure RetainState (α : Type) where
  known : Bool
  running : Option (Var α)
  runMut : Option Mutator
  runLen : Nat
  deriving DecidableEq

namespace RetainState

/-- Nothing is known before the first entry. -/
def initial : RetainState α where
  known := false
  running := none
  runMut := none
  runLen := 0

/-- The lambda `set_from`: take the value from an entry that determines it. -/
def setFrom (state : RetainState α) (entry : FoldEntry α) : RetainState α :=
  match entry.op with
  | none => { known := true, running := none, runMut := none, runLen := 0 }
  | some value =>
    if entry.mutator = .assign then
      { known := true, running := some value, runMut := none, runLen := 0 }
    else
      { state with known := false }

end RetainState

section Fold

variable {α : Type} [DecidableEq α]

/-- The value after one more delta: `absent ? e.Op : Rt::Mutate(running, ...)`. -/
def advanceRunning (running : Option (Var α)) (mutator : Mutator)
    (value : Var α) : Except RuntimeError (Var α) :=
  match running with
  | none => .ok value
  | some running => mutate running mutator value

/-- One iteration over the window: the next state and the entry written. -/
def retainStep (state : RetainState α)
    (entry : FoldEntry α) : Except RuntimeError (RetainState α × FoldEntry α) :=
  match entry.op with
  | none => .ok (state.setFrom entry, entry)
  | some value =>
    if entry.mutator = .assign then
      .ok (state.setFrom entry, entry)
    else if state.known = false ∨ isDeferSafeCommutative entry.mutator = false ∨
        ∃ mutator ∈ state.runMut, mutator ≠ entry.mutator then
      .ok ({ state with known := false }, entry)
    else do
      let running ← advanceRunning state.running entry.mutator value
      if state.runLen + 1 = keyframeInterval then
        return ({ state with running := some running, runMut := none, runLen := 0 },
          { entry with mutator := .assign, op := some running })
      else
        return ({ state with
            running := some running
            runMut := some entry.mutator
            runLen := state.runLen + 1 }, entry)

/-- The pass over the window, oldest entry first; `out` is kept newest first. -/
def retainLoop : RetainState α → List (FoldEntry α × Bool) → List (FoldEntry α) →
      Except RuntimeError (RetainState α × List (FoldEntry α × Bool))
  | state, out, [] => .ok (state, out)
  | state, out, entry :: newer => do
      let (state, kept) ← retainStep state entry
      retainLoop state ((kept, true) :: out) newer

/-- The state and output of the pass before the first entry of the window. -/
def retainBase : List (FoldEntry α) → RetainState α × List (FoldEntry α × Bool)
  | [] => (.initial, [])
  | front :: _ => (RetainState.initial.setFrom front, [(front, false)])

/-- `FoldOneKeyRetaining`, newest entry first; the flag marks entries of the window. -/
def foldOneKeyRetaining (entries : List (FoldEntry α))
    (retainFrom : Nat) : Except RuntimeError (List (FoldEntry α × Bool)) := do
  let base ← foldOneKey (entries.dropWhile (retainFrom < ·.seqNum))
  let (state, out) := retainBase base
  let (_, out) ← retainLoop state out (entries.takeWhile (retainFrom < ·.seqNum)).reverse
  return out

end Fold

/-- The operations of the entries a retaining fold writes. -/
def writtenOperations (out : List (FoldEntry α × Bool)) : List (Operation α) :=
  out.map fun written => written.1.operation

/-- The number of deltas at the newest end of a history. -/
def leadingDeltas : List (Operation α) → Nat
  | .deferred _ _ :: older => leadingDeltas older + 1
  | _ => 0

/--
Every run of deltas over an assignment or a tombstone is shorter than the
keyframe interval.
-/
def BoundedRuns (newestFirst : List (Operation α)) : Prop :=
  ∀ newer older, newestFirst = newer ++ older → (∃ operation ∈ older, operation.IsGround) →
        leadingDeltas older < keyframeInterval

section Invariant

variable {α : Type} [DecidableEq α]

/-- What holds between the entries the pass has read and those it has written. -/
structure RetainInvariant (state : RetainState α) (read : List (Operation α))
    (out : List (FoldEntry α × Bool)) : Prop where
  refines : ∀ below, Refines (read ++ below) (writtenOperations out ++ below)
  running : state.known = true → ∀ below, valueOf (writtenOperations out ++ below) = state.running
  known : (∃ operation ∈ writtenOperations out, operation.IsGround) → state.known = true
  runLen : state.known = true → leadingDeltas (writtenOperations out) = state.runLen ∧
        state.runLen < keyframeInterval
  runMut : state.known = true → ∀ mutator ∈ state.runMut,
        ∃ rhs older, read = .deferred mutator rhs :: older
  bounded : BoundedRuns (writtenOperations out)

omit [DecidableEq α] in
theorem BoundedRuns.cons
    {operation : Operation α} {older : List (Operation α)} (bounded : BoundedRuns older)
    (newest : (∃ other ∈ operation :: older, other.IsGround) →
        leadingDeltas (operation :: older) < keyframeInterval) :
    BoundedRuns (operation :: older) := by
  intro newer suffix split hasGround
  cases newer with
  | nil =>
    obtain rfl : operation :: older = suffix := split
    exact newest hasGround
  | cons first newer =>
    obtain ⟨rfl, tailSplit⟩ := List.cons.inj split
    exact bounded newer suffix tailSplit hasGround

section Step

variable {state : RetainState α} {entry : FoldEntry α} {value : Var α} {read : List (Operation α)}
  {out : List (FoldEntry α × Bool)}

omit [DecidableEq α] in
/-- An entry is ground, or it carries a deferred mutator and its operand. -/
theorem FoldEntry.ground_or_delta (entry : FoldEntry α) : entry.operation.IsGround ∨ ∃ value,
        entry.op = some value ∧ entry.mutator ≠ .assign ∧
          entry.operation = .deferred entry.mutator value := by
  obtain ⟨seqNum, mutator, op⟩ := entry
  cases op with
  | none => exact .inl trivial
  | some value =>
    by_cases isAssign : mutator = .assign
    · subst isAssign
      exact .inl trivial
    · exact .inr ⟨value, rfl, isAssign, Operation.ofEntry_deferred value isAssign⟩

omit [DecidableEq α] in
theorem leadingDeltas_ground {operation : Operation α} (isGround : operation.IsGround)
    (older : List (Operation α)) :
    leadingDeltas (operation :: older) = 0 := by
  cases operation with
  | tombstone => rfl
  | assign value => rfl
  | deferred mutator rhs => exact isGround.elim

theorem effect_ground {operation : Operation α} (isGround : operation.IsGround)
    (before : Option (Var α)) :
    effect before operation = effect none operation := by
  cases operation with
  | tombstone => rfl
  | assign value => rfl
  | deferred mutator rhs => exact isGround.elim

/-- An assignment or a tombstone is kept and makes the value known. -/
theorem retainStep_ground (isGround : entry.operation.IsGround) :
    retainStep state entry = .ok (state.setFrom entry, entry) ∧ state.setFrom entry =
        { known := true
          running := effect none entry.operation
          runMut := none
          runLen := 0 } := by
  obtain ⟨seqNum, mutator, op⟩ := entry
  cases op with
  | none => exact ⟨rfl, rfl⟩
  | some value =>
    by_cases isAssign : mutator = .assign
    · subst isAssign
      exact ⟨rfl, rfl⟩
    · rw [operation, Operation.ofEntry_deferred value isAssign] at isGround
      exact isGround.elim

/-- An assignment or a tombstone newest: the value is known. -/
theorem RetainInvariant.ofGround
    {flag : Bool} (refines : ∀ below,
      Refines (read ++ below) (writtenOperations ((entry, flag) :: out) ++ below))
    (bounded : BoundedRuns (writtenOperations out)) (isGround : entry.operation.IsGround) :
    RetainInvariant (state.setFrom entry) read ((entry, flag) :: out) := by
  rw [retainStep_ground isGround |>.2]
  refine ⟨refines, ?_, fun _ => rfl, ?_, ?_, ?_⟩
  · intro _ below
    exact effect_ground isGround _
  · intro _
    exact ⟨leadingDeltas_ground isGround _, keyframeInterval_pos⟩
  · intro _ mutator isMutator
    cases isMutator
  · apply bounded.cons
    intro _
    rw [leadingDeltas_ground isGround]
    exact keyframeInterval_pos

/-- Nothing but deltas: the value is not known. -/
theorem RetainInvariant.ofDeltas
    {flag : Bool} (refines : ∀ below,
      Refines (read ++ below) (writtenOperations ((entry, flag) :: out) ++ below))
    (bounded : BoundedRuns (writtenOperations out)) (unknown : state.known = false)
    (noGround : ¬ ∃ operation ∈ entry.operation :: writtenOperations out, operation.IsGround) :
    RetainInvariant state read ((entry, flag) :: out) :=
  ⟨refines, by simp [unknown], fun hasGround => absurd hasGround noGround, by simp [unknown],
    by simp [unknown], bounded.cons fun hasGround => absurd hasGround noGround⟩

/-- A ground entry starts the window anew. -/
theorem RetainInvariant.ground (invariant : RetainInvariant state read out)
    (isGround : entry.operation.IsGround) :
    RetainInvariant (state.setFrom entry) (entry.operation :: read) ((entry, true) :: out) :=
  .ofGround (fun below => (invariant.refines below).append [entry.operation])
    invariant.bounded isGround

/-- A delta over a value the file cannot tell is kept. -/
theorem RetainInvariant.unknown {mutator : Mutator} (invariant : RetainInvariant state read out)
    (isDelta : entry.operation = .deferred mutator value) (unknown : state.known = false) :
    RetainInvariant { state with known := false } (entry.operation :: read)
      ((entry, true) :: out) := by
  refine .ofDeltas (fun below => (invariant.refines below).append [entry.operation])
    invariant.bounded rfl ?_
  rintro ⟨operation, mem, isGround⟩
  rcases mem_cons.mp mem with rfl | olderMember
  · rw [isDelta] at isGround
    exact isGround
  · have known := invariant.known ⟨operation, olderMember, isGround⟩
    rw [unknown] at known
    cases known

section Known

variable {mutator : Mutator} {running : Var α} (invariant : RetainInvariant state read out)
  (known : state.known = true) (isDelta : entry.operation = .deferred mutator value)
  (isRunning : state.running.merge (combine mutator) (some value) = some running)

include invariant known isDelta isRunning

/-- A delta over a known value, kept as written. -/
theorem RetainInvariant.delta (notKeyframe : state.runLen + 1 ≠ keyframeInterval) : RetainInvariant
      { state with
        running := some running
        runMut := some mutator
        runLen := state.runLen + 1 }
      (entry.operation :: read) ((entry, true) :: out) := by
  obtain ⟨leading, short⟩ := invariant.runLen known
  have runShort : state.runLen + 1 < keyframeInterval := by omega
  have newLeading : leadingDeltas (entry.operation :: writtenOperations out) =
        state.runLen + 1 := by
    rw [isDelta, leadingDeltas, leading]
  refine ⟨?_, ?_, fun _ => known, fun _ => ⟨newLeading, runShort⟩, ?_, ?_⟩
  · intro below
    exact (invariant.refines below).append [entry.operation]
  · intro _ below
    have value := invariant.running known below
    rw [← isRunning, ← value, writtenOperations, map_cons, isDelta]
    rfl
  · rintro _ _ ⟨⟩
    exact ⟨value, read, by rw [isDelta]⟩
  · apply invariant.bounded.cons
    intro _
    rw [newLeading]
    exact runShort

/-- A delta over a known value, rewritten into a keyframe. -/
theorem RetainInvariant.keyframe : RetainInvariant
      { state with running := some running, runMut := none, runLen := 0 }
      (entry.operation :: read)
      (({ entry with mutator := .assign, op := some running }, true) :: out) := by
  refine ⟨?_, fun _ _ => rfl, fun _ => known, fun _ => ⟨rfl, keyframeInterval_pos⟩, ?_, ?_⟩
  · intro below
    have kept := (invariant.refines below).append [entry.operation]
    have leaves : valueOf (.deferred mutator value :: (writtenOperations out ++ below)) =
          some running := by
      rw [valueOf_cons, invariant.running known below]
      exact isRunning
    rw [isDelta] at kept ⊢
    exact kept.trans (.keyframe leaves)
  · intro _ other isOther
    cases isOther
  · exact invariant.bounded.cons (fun _ => keyframeInterval_pos)

end Known

/-- Advancing over a type-checked delta never raises and merges it. -/
theorem advanceRunning_eq_merge {mutator : Mutator} {before : Option (Var α)}
    (accepted : deferOperand mutator value.kind = true)
    (sameKind : ∀ running ∈ before, running.kind = value.kind) :
    ∃ running, advanceRunning before mutator value = .ok running ∧
        before.merge (combine mutator) (some value) = some running := by
  cases before with
  | none => exact ⟨value, rfl, rfl⟩
  | some running =>
    have runningKind : running.kind = value.kind := sameKind running rfl
    have runningAccepted : deferOperand mutator running.kind = true := by
      rw [runningKind]
      exact accepted
    exact ⟨combine mutator running value, mutate_eq_combine runningAccepted runningKind.symm, rfl⟩

section Equations

variable {running : Var α} (hasValue : entry.op = some value) (notAssign : entry.mutator ≠ .assign)
  (known : state.known = true) (safe : isDeferSafeCommutative entry.mutator = true)
  (sameRun : ¬ ∃ mutator ∈ state.runMut, mutator ≠ entry.mutator)
  (isComputed : advanceRunning state.running entry.mutator value = .ok running)

include hasValue notAssign known safe sameRun isComputed

theorem retainStep_keyframe (atInterval : state.runLen + 1 = keyframeInterval) :
    retainStep state entry =
      .ok ({ state with running := some running, runMut := none, runLen := 0 },
        { entry with mutator := .assign, op := some running }) := by
  simp only [retainStep, hasValue, notAssign, known, safe, sameRun, isComputed, atInterval]
  rfl

theorem retainStep_delta (notKeyframe : state.runLen + 1 ≠ keyframeInterval) :
    retainStep state entry =
      .ok ({ state with
          running := some running
          runMut := some entry.mutator
          runLen := state.runLen + 1 }, entry) := by
  simp only [retainStep, hasValue, notAssign, known, safe, sameRun, isComputed, notKeyframe]
  rfl

end Equations

/-- One iteration over a foldable history never raises and keeps the invariant. -/
theorem RetainInvariant.step (invariant : RetainInvariant state read out)
    (foldable : Foldable (entry.operation :: read)) :
    ∃ next kept, retainStep state entry = .ok (next, kept) ∧ kept.seqNum = entry.seqNum ∧
          RetainInvariant next (entry.operation :: read) ((kept, true) :: out) := by
  rcases entry.ground_or_delta with isGround | ⟨value, hasValue, notAssign, isDelta⟩
  · exact ⟨_, _, (retainStep_ground isGround).1, rfl, invariant.ground isGround⟩
  · have deltaFoldable := foldable
    rw [isDelta] at deltaFoldable
    have accepted := deltaFoldable.wellTyped.deferredAccepted
    have safe := isDeferSafeCommutative_of_deferOperand accepted
    cases known : state.known with
    | false =>
      refine ⟨_, entry, ?_, rfl, invariant.unknown isDelta known⟩
      simp [retainStep, hasValue, notAssign, known]
    | true =>
      have sameRun : ¬ ∃ mutator ∈ state.runMut, mutator ≠ entry.mutator := by
        rintro ⟨mutator, isRun, differs⟩
        obtain ⟨rhs, older, rfl⟩ := invariant.runMut known mutator isRun
        have follows := (isChain_cons_cons.mp deltaFoldable.singleMutator).1
        exact differs follows.symm
      have readValue : valueOf read = state.running := by
        have rewritten := invariant.refines [] []
        simp only [nil_append, append_nil] at rewritten
        rw [← (rewritten foldable.tail).2]
        simpa using invariant.running known []
      have runningKind := deltaFoldable.wellTyped.olderKind
      rw [readValue] at runningKind
      obtain ⟨running, isComputed, isRunning⟩ := advanceRunning_eq_merge accepted runningKind
      by_cases atInterval : state.runLen + 1 = keyframeInterval
      · exact ⟨_, _, retainStep_keyframe hasValue notAssign known safe sameRun isComputed
            atInterval,
          rfl, invariant.keyframe known isDelta isRunning⟩
      · exact ⟨_, _, retainStep_delta hasValue notAssign known safe sameRun isComputed atInterval,
          rfl, invariant.delta known isDelta isRunning atInterval⟩

/-- The pass over a foldable window never raises and keeps the invariant. -/
theorem RetainInvariant.loop
    {window : List (FoldEntry α)} (invariant : RetainInvariant state read out)
    (foldable : Foldable ((window.map operation).reverse ++ read)) :
    ∃ next written, retainLoop state out window = .ok (next, written ++ out) ∧
        written.map (·.1.seqNum) = (window.map seqNum).reverse ∧
          RetainInvariant next ((window.map operation).reverse ++ read) (written ++ out) := by
  induction window generalizing state read out with
  | nil => exact ⟨state, [], rfl, rfl, invariant⟩
  | cons entry newer ih =>
    have readNext : ((entry :: newer).map operation).reverse ++ read =
          (newer.map operation).reverse ++ entry.operation :: read := by
      simp
    rw [readNext] at foldable ⊢
    obtain ⟨middle, kept, isStep, keptSeq, middleInvariant⟩ := invariant.step foldable.suffix
    obtain ⟨next, written, isLoop, writtenSeqs, nextInvariant⟩ := ih middleInvariant foldable
    refine ⟨next, written ++ [(kept, true)], ?_, ?_, ?_⟩
    · rw [retainLoop, isStep, append_assoc]
      exact isLoop
    · rw [map_append, writtenSeqs]
      simp [keptSeq]
    · rw [append_assoc]
      exact nextInvariant

end Step

/-- The folded entries at or below the window establish the invariant. -/
theorem RetainInvariant.base {old base : List (FoldEntry α)} (folded : foldOneKey old = .ok base)
    (wellTyped : WellTyped (old.map operation)) :
    RetainInvariant (retainBase base).1 (old.map operation) (retainBase base).2 := by
  obtain ⟨out, isOut, refines⟩ := foldOneKey_refines wellTyped
  obtain rfl : out = base := by
    rw [folded] at isOut
    exact (Except.ok.inj isOut).symm
  have nothingWritten : BoundedRuns ([] : List (Operation α)) := by
    intro newer older split hasGround
    obtain ⟨_, rfl⟩ := append_eq_nil_iff.mp split.symm
    exact keyframeInterval_pos
  rcases foldOneKey_shape folded with rfl | ⟨front, rfl, _⟩
  · exact ⟨refines, nofun, by simp [retainBase, writtenOperations], nofun, nofun, nothingWritten⟩
  · rw [retainBase]
    rcases front.ground_or_delta with isGround | ⟨value, hasValue, notAssign, isDelta⟩
    · exact .ofGround refines nothingWritten isGround
    · refine .ofDeltas refines nothingWritten ?_ ?_
      · simp [RetainState.setFrom, hasValue, notAssign]
      · simp [writtenOperations, isDelta, Operation.IsGround]

end Invariant

section Versions

/-- A list in descending order splits at every bound. -/
theorem exists_split_at {Entry : Type} {seq : Entry → Nat} {entries : List Entry}
    (descending : entries.Pairwise fun newer older => seq older < seq newer) (version : Nat) :
    ∃ above visible, entries = above ++ visible ∧ (∀ entry ∈ above, version < seq entry) ∧
          ∀ entry ∈ visible, seq entry ≤ version := by
  induction entries with
  | nil => exact ⟨[], [], rfl, by simp, by simp⟩
  | cons entry older ih =>
    obtain ⟨newest, rest⟩ := pairwise_cons.mp descending
    by_cases isAbove : version < seq entry
    · obtain ⟨above, visible, rfl, allAbove, allVisible⟩ := ih rest
      exact ⟨entry :: above, visible, rfl, forall_mem_cons.mpr ⟨isAbove, allAbove⟩, allVisible⟩
    · refine ⟨[], entry :: older, rfl, by simp, ?_⟩
      refine forall_mem_cons.mpr ⟨by omega, fun other isOlder => ?_⟩
      have := newest other isOlder
      omega

variable {κ α : Type}

/-- The entries a read at `version` sees. -/
def atVersion (version : Nat) (entries : List (Item κ α)) : List (Item κ α) :=
  entries.filter (·.sequenceNumber ≤ version)

/-- The items of a file a retaining fold has written. -/
def writtenItems (key : κ) (out : List (FoldEntry α × Bool)) : List (Item κ α) :=
  out.map fun written => written.1.toItem key

theorem atVersion_append (version : Nat) (newer older : List (Item κ α)) :
    atVersion version (newer ++ older) = atVersion version newer ++ atVersion version older :=
  filter_append newer older

variable {version : Nat} {entries : List (Item κ α)} {retainFrom : Nat}

/-- Entries above the version are not seen. -/
theorem atVersion_above (above : ∀ item ∈ entries, version < item.sequenceNumber) :
    atVersion version entries = [] := by
  apply filter_eq_nil_iff.mpr
  intro item mem
  have := above item mem
  simpa using this

theorem atVersion_visible (visible : ∀ item ∈ entries, item.sequenceNumber ≤ version) :
    atVersion version entries = entries := by
  apply filter_eq_self.mpr
  intro item mem
  simpa using visible item mem

/-- A read at a version sees readable entries. -/
theorem KeyEntries.atVersion
    {key : κ} (keyEntries : KeyEntries key entries) (newestFirst :
      entries.Pairwise fun newer older =>
        older.sequenceNumber < newer.sequenceNumber) (version : Nat) :
    KeyEntries key (atVersion version entries) := by
  obtain ⟨above, visible, rfl, allAbove, allVisible⟩ := exists_split_at newestFirst version
  rw [atVersion_append, atVersion_above allAbove, atVersion_visible allVisible, nil_append]
  have foldable := keyEntries.foldable
  have distinctIds := keyEntries.distinctIds
  rw [map_append] at foldable
  rw [filterMap_append] at distinctIds
  exact ⟨fun item mem => keyEntries.sameKey item (mem_append_right _ mem),
    foldable.suffix, distinctIds.sublist (sublist_append_right _ _)⟩

variable [DecidableEq α]

theorem retainLoop_append (state : RetainState α) (out : List (FoldEntry α × Bool))
    (first second : List (FoldEntry α)) :
    retainLoop state out (first ++ second) =
      (retainLoop state out first).bind fun result =>
        retainLoop result.1 result.2 second := by
  induction first generalizing state out with
  | nil => rfl
  | cons entry first ih =>
    rw [cons_append, retainLoop, retainLoop]
    cases retainStep state entry with
    | error error => rfl
    | ok result => exact ih _ _

omit [DecidableEq α] in
theorem exists_same_seqNum {written : List (FoldEntry α × Bool)} {entries : List (FoldEntry α)}
    (sameSeqs : written.map (·.1.seqNum) = entries.map seqNum) {kept : FoldEntry α × Bool}
    (mem : kept ∈ written) :
    ∃ entry ∈ entries, entry.seqNum = kept.1.seqNum := by
  have inSeqs : kept.1.seqNum ∈ written.map (·.1.seqNum) := mem_map.mpr ⟨kept, mem, rfl⟩
  rw [sameSeqs] at inSeqs
  exact mem_map.mp inSeqs

omit [DecidableEq α] in
theorem reversed_foldable {window : List (FoldEntry α)} {read : List (Operation α)}
    (foldable : Foldable (window.map operation ++ read)) :
    Foldable ((window.reverse.map operation).reverse ++ read) := by
  simpa using foldable

omit [DecidableEq α] in
/-- The window of a file is the part above `retainFrom`. -/
theorem split_window
    {window old : List (FoldEntry α)} (inWindow : ∀ entry ∈ window, retainFrom < entry.seqNum)
    (allOld : ∀ entry ∈ old, entry.seqNum ≤ retainFrom) :
    (window ++ old).takeWhile (retainFrom < ·.seqNum) = window ∧
      (window ++ old).dropWhile (retainFrom < ·.seqNum) = old := by
  induction window with
  | nil =>
    cases old with
    | nil => exact ⟨rfl, rfl⟩
    | cons entry old =>
      have isOld := allOld entry mem_cons_self
      simp [isOld]
  | cons entry window ih =>
    have isRecent := inWindow entry mem_cons_self
    obtain ⟨taken, dropped⟩ := ih (fun other mem => inWindow other (mem_cons_of_mem _ mem))
    simp [isRecent, taken, dropped]

/--
The output of a retaining fold over a file that splits at a version: what is above
the version stays above it, and the rest rewrites what was visible.
-/
theorem foldOneKeyRetaining_split
    {above recent old : List (FoldEntry α)} (window : retainFrom ≤ version)
    (allAbove : ∀ entry ∈ above, version < entry.seqNum) (allRecent :
      ∀ entry ∈ recent, retainFrom < entry.seqNum ∧ entry.seqNum ≤ version)
    (allOld : ∀ entry ∈ old, entry.seqNum ≤ retainFrom) (foldable :
      Foldable ((above ++ (recent ++ old)).map operation)) :
    ∃ aboveOut visibleOut, foldOneKeyRetaining (above ++ (recent ++ old)) retainFrom =
          .ok (aboveOut ++ visibleOut) ∧
        (∀ written ∈ aboveOut, version < written.1.seqNum) ∧
        (∀ written ∈ visibleOut, written.1.seqNum ≤ version) ∧
        (∀ below, Refines ((recent ++ old).map operation ++ below)
            (writtenOperations visibleOut ++ below)) ∧
        BoundedRuns (writtenOperations (aboveOut ++ visibleOut)) := by
  have inWindow : ∀ entry ∈ above ++ recent, retainFrom < entry.seqNum :=
    forall_mem_append.mpr
      ⟨fun entry inAbove => lt_of_le_of_lt window (allAbove entry inAbove),
        fun entry inRecent => (allRecent entry inRecent).1⟩
  obtain ⟨isWindow, isOld⟩ := split_window inWindow allOld
  rw [append_assoc] at isWindow isOld
  rw [map_append] at foldable
  have visibleFoldable := foldable.suffix
  rw [map_append] at visibleFoldable foldable
  obtain ⟨base, isBase, _⟩ := foldOneKey_refines visibleFoldable.suffix.wellTyped
  have atBase := RetainInvariant.base isBase visibleFoldable.suffix.wellTyped
  obtain ⟨middle, recentOut, recentLoop, recentSeqs, atMiddle⟩ :=
    atBase.loop (reversed_foldable visibleFoldable)
  rw [map_reverse, reverse_reverse] at recentSeqs atMiddle
  obtain ⟨final, aboveOut, aboveLoop, aboveSeqs, atFinal⟩ :=
    atMiddle.loop (reversed_foldable foldable)
  rw [map_reverse, reverse_reverse] at aboveSeqs
  have wholeLoop : retainLoop (retainBase base).1 (retainBase base).2
          (recent.reverse ++ above.reverse) =
        .ok (final, aboveOut ++ (recentOut ++ (retainBase base).2)) := by
    rw [retainLoop_append, recentLoop]
    exact aboveLoop
  refine ⟨aboveOut, recentOut ++ (retainBase base).2, ?_, ?_, ?_, ?_, atFinal.bounded⟩
  · rw [foldOneKeyRetaining, isWindow, isOld, isBase, reverse_append]
    change (retainLoop (retainBase base).1 (retainBase base).2
      (recent.reverse ++ above.reverse) >>= fun result => pure result.2) = _
    rw [wholeLoop]
    rfl
  · intro written mem
    obtain ⟨entry, inAbove, sameSeq⟩ := exists_same_seqNum aboveSeqs mem
    rw [← sameSeq]
    exact allAbove entry inAbove
  · intro written mem
    rcases mem_append.mp mem with inRecent | inBase
    · obtain ⟨entry, isRecent, sameSeq⟩ := exists_same_seqNum recentSeqs inRecent
      rw [← sameSeq]
      exact (allRecent entry isRecent).2
    · rcases foldOneKey_shape isBase with rfl | ⟨front, rfl, anchor, older, rfl, sameSeq⟩
      · cases inBase
      · obtain rfl : written = (front, false) := mem_singleton.mp inBase
        rw [sameSeq]
        exact (allOld anchor mem_cons_self).trans window
  · intro below
    rw [map_append]
    exact atMiddle.refines below

/-- What a read at a version of the window sees of a written file. -/
theorem foldOneKeyRetaining_atVersion
    (key : κ) {file : List (Item κ α)} (window : retainFrom ≤ version) (newestFirst :
      file.Pairwise fun newer older => older.sequenceNumber < newer.sequenceNumber)
    (foldable : Foldable (file.map Item.operation)) :
    ∃ (out : List (FoldEntry α × Bool)) (visibleOut : List (FoldEntry α)),
      foldOneKeyRetaining (file.map Item.toFoldEntry) retainFrom = .ok out ∧
        atVersion version (writtenItems key out) = visibleOut.map (toItem key) ∧
        (∀ below, Refines ((atVersion version file).map Item.operation ++ below)
            (visibleOut.map operation ++ below)) ∧
        BoundedRuns (writtenOperations out) := by
  obtain ⟨above, visible, rfl, allAbove, allVisible⟩ := exists_split_at newestFirst version
  obtain ⟨recent, old, rfl, allRecent, allOld⟩ :=
    exists_split_at (pairwise_append.mp newestFirst).2.1 retainFrom
  have entriesAbove : ∀ entry ∈ above.map Item.toFoldEntry, version < entry.seqNum := by
    simpa [Item.toFoldEntry] using allAbove
  have entriesRecent : ∀ entry ∈ recent.map Item.toFoldEntry,
        retainFrom < entry.seqNum ∧ entry.seqNum ≤ version := by
    intro entry mem
    obtain ⟨item, inRecent, rfl⟩ := mem_map.mp mem
    exact ⟨allRecent item inRecent, allVisible item (mem_append_left _ inRecent)⟩
  have entriesOld : ∀ entry ∈ old.map Item.toFoldEntry, entry.seqNum ≤ retainFrom := by
    simpa [Item.toFoldEntry] using allOld
  obtain ⟨aboveOut, visibleOut, isOut, aboveSeqs, visibleSeqs, refines, bounded⟩ :=
    foldOneKeyRetaining_split window entriesAbove entriesRecent entriesOld
      (by simpa [map_map, Function.comp_def] using foldable)
  refine ⟨aboveOut ++ visibleOut, visibleOut.map Prod.fst, ?_, ?_, ?_, bounded⟩
  · simpa using isOut
  · have hidden : atVersion version (writtenItems key aboveOut) = [] := by
      apply atVersion_above
      intro item mem
      obtain ⟨written, inAbove, rfl⟩ := mem_map.mp mem
      exact aboveSeqs written inAbove
    have seen : atVersion version (writtenItems key visibleOut) = writtenItems key visibleOut := by
      apply atVersion_visible
      intro item mem
      obtain ⟨written, inVisible, rfl⟩ := mem_map.mp mem
      exact visibleSeqs written inVisible
    rw [writtenItems, map_append, ← writtenItems, ← writtenItems,
      atVersion_append, hidden, seen, nil_append, writtenItems, map_map]
    rfl
  · intro below
    rw [atVersion_append, atVersion_above allAbove, atVersion_visible allVisible, nil_append]
    simpa [map_map, Function.comp_def, writtenOperations] using refines below

/--
A retaining fold of one file keeps what every read at a version of the window
sees, with any entries above and below the file, and bounds the deltas over each
value it writes.
-/
theorem readKey_atVersion_retaining [DecidableEq κ] {key : κ} {newer file older : List (Item κ α)}
    (keyEntries : KeyEntries key (newer ++ (file ++ older)))
    (newestFirst :
      (newer ++ (file ++ older)).Pairwise fun newerItem olderItem =>
        olderItem.sequenceNumber < newerItem.sequenceNumber)
    (retainFrom : Nat) :
    ∃ out, foldOneKeyRetaining (file.map Item.toFoldEntry) retainFrom = .ok out ∧
        (∀ version, retainFrom ≤ version →
          readKey (atVersion version (newer ++ (writtenItems key out ++ older))) key =
            readKey (atVersion version (newer ++ (file ++ older))) key) ∧
        BoundedRuns (writtenOperations out) := by
  have fileOrder := (pairwise_append.mp (pairwise_append.mp newestFirst).2.1).1
  have fileFoldable : Foldable (file.map Item.operation) := by
    have foldable := keyEntries.foldable
    rw [map_append, map_append] at foldable
    exact foldable.suffix.newest
  obtain ⟨out, _, isOut, _, _, bounded⟩ :=
    foldOneKeyRetaining_atVersion key (le_refl retainFrom) fileOrder fileFoldable
  refine ⟨out, isOut, ?_, bounded⟩
  intro version window
  obtain ⟨sameOut, visibleOut, isSame, isVisible, refines, _⟩ :=
    foldOneKeyRetaining_atVersion key window fileOrder fileFoldable
  obtain rfl : out = sameOut := by
    rw [isOut] at isSame
    exact Except.ok.inj isSame
  have before := keyEntries.atVersion newestFirst version
  rw [atVersion_append, atVersion_append] at before ⊢
  obtain ⟨after, sameValue⟩ := before.rewrite (refines _)
  rw [atVersion_append, atVersion_append, isVisible, after.readKey_eq, before.readKey_eq, sameValue]

end Versions

/-- Four versions of a counter; a file holds the two in the middle. -/
def windowEntries : List (Item Nat Nat) :=
  [{ key := 3, sequenceNumber := 6, mutator := .add, op := some (.int 1), updateId := some 9 },
   { key := 3, sequenceNumber := 4, mutator := .add, op := some (.int 3), updateId := none },
   { key := 3, sequenceNumber := 2, mutator := .assign, op := some (.int 5), updateId := none },
   { key := 3, sequenceNumber := 1, mutator := .add, op := some (.int 7), updateId := none }]

/-- The middle two entries folded with a window from version 3. -/
theorem readKey_atVersion_windowEntries : ∃ out, foldOneKeyRetaining
          (((windowEntries.drop 1).take 2).map Item.toFoldEntry) 3 = .ok out ∧
        (∀ version, 3 ≤ version → readKey (atVersion version
              (windowEntries.take 1 ++ (writtenItems 3 out ++ windowEntries.drop 3))) 3 =
            readKey (atVersion version (windowEntries.take 1 ++
                ((windowEntries.drop 1).take 2 ++ windowEntries.drop 3))) 3) ∧
        BoundedRuns (writtenOperations out) := by
  apply readKey_atVersion_retaining
  · refine ⟨?_, ⟨⟨?_, ?_⟩, ?_, ?_⟩, ?_⟩
    all_goals decide
  · decide

end Orly
