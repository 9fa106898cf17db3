import Orly.DeferredFold

namespace Orly

/-!
# Integer keys with mixed mutators

Transactions may defer different mutators on one integer key, one after another.
The read fold takes the newest mutator as the mutator of the whole key and stops
at the first operation with another one.  What lies below that point, the
assignment included, is dropped from the value.  The value is still the one of the
history exactly when the dropped part amounts to a value that the newest run
absorbs.
-/

open List

section NewestRun

variable {α : Type}

/-- The deltas of `mutator` at the head of a history, newest first. -/
def runOf (mutator : Mutator) : List (Operation α) → List (Var α)
  | .deferred runMutator rhs :: older =>
    if runMutator = mutator then rhs :: runOf mutator older else []
  | _ => []

/-- The history below the deltas of `mutator` at its head. -/
def belowRun (mutator : Mutator) : List (Operation α) → List (Operation α)
  | .deferred runMutator rhs :: older =>
    if runMutator = mutator then
      belowRun mutator older
    else
      .deferred runMutator rhs :: older
  | older => older

variable [DecidableEq α]

/-- A history's value is the newest run of one mutator over the value below it. -/
theorem valueOf_eq_runOf (mutator : Mutator) (newestFirst : List (Operation α)) :
    valueOf newestFirst =
      MergeRuns.mergeInto (combine mutator) (valueOf (belowRun mutator newestFirst))
        (runOf mutator newestFirst).reverse := by
  induction newestFirst with
  | nil => rfl
  | cons operation older ih =>
    cases operation with
    | tombstone => rfl
    | assign value => rfl
    | deferred runMutator rhs =>
      by_cases sameMutator : runMutator = mutator
      · subst sameMutator
        rw [runOf, belowRun, if_pos rfl, if_pos rfl, reverse_cons, MergeRuns.mergeInto_append, ← ih]
        rfl
      · rw [runOf, belowRun, if_neg sameMutator, if_neg sameMutator]
        rfl

/-- The assignment the read fold finds right below the newest run. -/
def foldBase (mutator : Mutator) (older : List (Operation α)) : Option (Var α) :=
  match belowRun mutator older with
  | .assign value :: _ => some value
  | _ => none

/-- The read fold is the newest run of one mutator over the assignment below it. -/
theorem resolve_eq_runOf (mutator : Mutator) (acc : Var α) (older : List (Operation α)) :
    some (resolve mutator acc older) = (foldBase mutator older).merge (combine mutator)
        (some ((runOf mutator older).foldl (combine mutator) acc)) := by
  induction older generalizing acc with
  | nil => rfl
  | cons operation older ih =>
    cases operation with
    | tombstone => rfl
    | assign value => rfl
    | deferred runMutator rhs =>
      by_cases sameMutator : runMutator = mutator
      · subst sameMutator
        rw [resolve, if_pos rfl, ih, foldBase, foldBase, belowRun, if_pos rfl, runOf, if_pos rfl]
        rfl
      · simp [resolve, foldBase, belowRun, runOf, sameMutator]

end NewestRun

section IntegerKey

variable {α : Type}

/-- The operations a type-checked session commits to an integer key. -/
structure IntegerHistory (history : List (Operation α)) : Prop where
  accepted : ∀ operation ∈ history, operation.Accepted
  integers : ∀ operation ∈ history, ∀ kind ∈ operation.kind?, kind = .int

namespace IntegerHistory

variable {history : List (Operation α)}

theorem tail {operation : Operation α} (integerHistory : IntegerHistory (operation :: history)) :
    IntegerHistory history :=
  ⟨fun other mem =>
      integerHistory.accepted other (mem_cons_of_mem _ mem),
    fun other mem =>
      integerHistory.integers other (mem_cons_of_mem _ mem)⟩

theorem reverse (integerHistory : IntegerHistory history) : IntegerHistory history.reverse :=
  ⟨fun operation mem =>
      integerHistory.accepted operation (mem_reverse.mp mem),
    fun operation mem =>
      integerHistory.integers operation (mem_reverse.mp mem)⟩

theorem wellTyped (integerHistory : IntegerHistory history) : WellTyped history := by
  refine ⟨integerHistory.accepted, ?_⟩
  induction history with
  | nil => exact .nil
  | cons newer older ih =>
    cases older with
    | nil => exact .singleton newer
    | cons previous older =>
      refine isChain_cons_cons.mpr ⟨?_, ih integerHistory.tail⟩
      cases newer with
      | tombstone => trivial
      | assign value => trivial
      | deferred mutator rhs =>
        intro kind isKind
        rw [integerHistory.integers previous (by simp) kind isKind]
        exact integerHistory.integers _ mem_cons_self _ rfl

theorem belowRun (mutator : Mutator) (integerHistory : IntegerHistory history) :
    IntegerHistory (belowRun mutator history) := by
  induction history with
  | nil => exact integerHistory
  | cons operation older ih =>
    cases operation with
    | tombstone => exact integerHistory
    | assign value => exact integerHistory
    | deferred runMutator rhs =>
      rw [Orly.belowRun]
      split
      · exact ih integerHistory.tail
      · exact integerHistory

theorem runOf_kind (mutator : Mutator) (integerHistory : IntegerHistory history) :
    ∀ delta ∈ runOf mutator history, delta.kind = .int := by
  induction history with
  | nil => simp [runOf]
  | cons operation older ih =>
    cases operation with
    | tombstone => simp [runOf]
    | assign value => simp [runOf]
    | deferred runMutator rhs =>
      rw [runOf]
      split
      · intro delta mem
        rcases mem_cons.mp mem with rfl | olderMember
        · exact integerHistory.integers _ mem_cons_self _ rfl
        · exact ih integerHistory.tail delta olderMember
      · simp

theorem valueOf_kind [DecidableEq α] (integerHistory : IntegerHistory history) :
    ∀ value ∈ valueOf history, value.kind = .int := by
  intro value isValue
  cases history with
  | nil => simp at isValue
  | cons operation older =>
    have newestKind := integerHistory.wellTyped.valueOf_kind
    rw [Option.mem_def.mp isValue] at newestKind
    exact integerHistory.integers operation mem_cons_self _ newestKind.symm

end IntegerHistory

/-- A value that an integer delta absorbs: `value OP delta = delta`. -/
def AbsorbedBy (mutator : Mutator) (value delta : Int64) : Prop :=
  match mutator with
  | .mult => value * delta = delta
  | .max => value ≤ delta
  | .min => delta ≤ value
  | _ => value = 0

theorem combineInt_eq_delta_iff (mutator : Mutator) (value delta : Int64) :
    combineInt mutator value delta = delta ↔ AbsorbedBy mutator value delta := by
  cases mutator with
  | mult => exact Iff.rfl
  | max =>
    rw [← Int64.toInt_inj, combineInt_max_toInt, AbsorbedBy, Int64.le_iff_toInt_le]
    omega
  | min =>
    rw [← Int64.toInt_inj, combineInt_min_toInt, AbsorbedBy, Int64.le_iff_toInt_le]
    omega
  | _ => exact Int64.add_eq_right

variable [DecidableEq α]

/--
Where the newest run rests on a deferred operation of another mutator, the value
the older operations leave is absorbed by the value of the run.
-/
def DroppedAbsorbed : List (Operation α) → Prop
  | .deferred mutator rhs :: older =>
    match belowRun mutator older with
    | .deferred _ _ :: _ =>
      ∀ value delta, valueOf (belowRun mutator older) = some (.int value) →
          MergeRuns.runDelta (combine mutator) (rhs :: runOf mutator older).reverse =
            some (.int delta) →
            AbsorbedBy mutator value delta
    | _ => True
  | _ => True

omit [DecidableEq α] in
/-- An integer value is known by its payload. -/
theorem exists_int_of_kind {value : Var α} (isInt : value.kind = .int) :
    ∃ payload, value = .int payload := by
  cases value with
  | int payload => exact ⟨payload, rfl⟩
  | _ => contradiction

section DeferredHead

variable {mutator : Mutator} {rhs : Var α} {older : List (Operation α)}

theorem readFold_eq_runDelta : readFold (.deferred mutator rhs :: older) =
      (foldBase mutator older).merge (combine mutator)
        (MergeRuns.runDelta (combine mutator) (rhs :: runOf mutator older)) := by
  rw [MergeRuns.runDelta_cons]
  exact resolve_eq_runOf mutator rhs older

variable (integerHistory : IntegerHistory (.deferred mutator rhs :: older))

include integerHistory

omit [DecidableEq α] in
theorem IntegerHistory.newestRun_kind :
    ∀ delta ∈ rhs :: runOf mutator older, delta.kind = .int := by
  have wholeRun := integerHistory.runOf_kind mutator
  simpa [runOf] using wholeRun

/-- Integers merge in any order. -/
theorem IntegerHistory.runDelta_reverse :
    MergeRuns.runDelta (combine mutator) (rhs :: runOf mutator older).reverse =
      MergeRuns.runDelta (combine mutator) (rhs :: runOf mutator older) :=
  (combine_commutativeOn mutator rfl).runDelta_reverse integerHistory.newestRun_kind

theorem IntegerHistory.valueOf_eq_runDelta : valueOf (.deferred mutator rhs :: older) =
      (valueOf (Orly.belowRun mutator older)).merge (combine mutator)
        (MergeRuns.runDelta (combine mutator) (rhs :: runOf mutator older)) := by
  have belowInteger := integerHistory.tail.belowRun mutator
  have reversedKind : ∀ delta ∈ (rhs :: runOf mutator older).reverse, delta.kind = .int := by
    intro delta mem
    exact integerHistory.newestRun_kind delta (mem_reverse.mp mem)
  have wholeHistory := valueOf_eq_runOf mutator (.deferred mutator rhs :: older)
  rw [Orly.belowRun, runOf, if_pos rfl, if_pos rfl] at wholeHistory
  rw [wholeHistory, ← integerHistory.runDelta_reverse]
  exact (combine_associativeOn mutator .int).mergeInto_eq_merge_runDelta
    belowInteger.valueOf_kind reversedKind

theorem IntegerHistory.exists_runDelta : ∃ delta,
      MergeRuns.runDelta (combine mutator) (rhs :: runOf mutator older) = some (.int delta) := by
  have deltaKind : ∀ value ∈ MergeRuns.runDelta (combine mutator) (rhs :: runOf mutator older),
        value.kind = .int :=
    (combine_associativeOn mutator .int).mergeInto_domain (by simp) integerHistory.newestRun_kind
  rw [MergeRuns.runDelta_cons] at deltaKind ⊢
  obtain ⟨payload, isPayload⟩ := exists_int_of_kind (deltaKind _ rfl)
  exact ⟨payload, congrArg some isPayload⟩

theorem IntegerHistory.exists_valueOf :
    ∃ value, valueOf (.deferred mutator rhs :: older) = some (.int value) := by
  have newestKind := integerHistory.wellTyped.valueOf_kind
  have valueKind := integerHistory.valueOf_kind
  generalize valueOf (.deferred mutator rhs :: older) = state at newestKind valueKind
  cases state with
  | none => contradiction
  | some value =>
    obtain ⟨payload, isPayload⟩ := exists_int_of_kind (valueKind value rfl)
    exact ⟨payload, congrArg some isPayload⟩

end DeferredHead

/-- The read fold of an integer key is its value exactly when nothing is lost. -/
theorem readFold_eq_valueOf_iff_droppedAbsorbed {newestFirst : List (Operation α)}
    (integerHistory : IntegerHistory newestFirst) :
    readFold newestFirst = valueOf newestFirst ↔ DroppedAbsorbed newestFirst := by
  cases newestFirst with
  | nil => exact iff_of_true rfl trivial
  | cons operation older =>
    cases operation with
    | tombstone | assign => exact iff_of_true rfl trivial
    | deferred mutator rhs =>
      have belowInteger := integerHistory.tail.belowRun mutator
      obtain ⟨delta, isDelta⟩ := integerHistory.exists_runDelta
      rw [readFold_eq_runDelta, integerHistory.valueOf_eq_runDelta,
        DroppedAbsorbed, integerHistory.runDelta_reverse, isDelta, foldBase]
      cases isBelow : Orly.belowRun mutator older with
      | nil => exact iff_of_true rfl trivial
      | cons previous below =>
        cases previous with
        | tombstone | assign => exact iff_of_true rfl trivial
        | deferred previousMutator previousRhs =>
          rw [isBelow] at belowInteger
          obtain ⟨value, isValue⟩ := belowInteger.exists_valueOf
          rw [isValue]
          simp only [Option.merge_none_left, Option.merge_some_some,
            combine, Option.some.injEq, Var.int.injEq]
          rw [eq_comm, combineInt_eq_delta_iff]
          constructor
          · rintro absorbed _ _ rfl rfl
            exact absorbed
          · intro absorbed
            exact absorbed value delta rfl rfl

variable {κ : Type} [LinearOrder κ]

/--
For operations committed to an integer key of one repo, the walker yields the
value of the history exactly when every operation older than a change of mutator
is absorbed by the newest run.
-/
theorem readKey_eq_replay_iff_droppedAbsorbed {entries : List (Item κ α)} {key : κ}
    (integerHistory : IntegerHistory (keyHistory entries key))
    (distinctIds : (keyUpdateIds entries key).Nodup) :
    readKey (repoWalker entries) key = replay (keyHistory entries key) ↔
      DroppedAbsorbed (keyHistory entries key).reverse := by
  have wellTyped := integerHistory.reverse.wellTyped
  have meaning := replay_eq_valueOf wellTyped
  rw [reverse_reverse] at meaning
  rw [readKey_repoWalker wellTyped distinctIds, meaning, Except.ok.injEq]
  exact readFold_eq_valueOf_iff_droppedAbsorbed integerHistory.reverse

end IntegerKey

/-- An assignment, a deferred `Max` over it, and a deferred `Add` after that. -/
def scoreCommits : List (Item Nat Nat) :=
  [{ key := 3, sequenceNumber := 1, mutator := .assign, op := some (.int 4), updateId := some 1 },
   { key := 3, sequenceNumber := 2, mutator := .max, op := some (.int 9), updateId := some 2 },
   { key := 3, sequenceNumber := 3, mutator := .add, op := some (.int 1), updateId := some 3 }]

theorem scoreCommits_integerHistory : IntegerHistory (keyHistory scoreCommits 3) :=
  ⟨by decide, by decide⟩

/-- For these scores both sides fail. -/
theorem readKey_eq_replay_scoreCommits :
    readKey (repoWalker scoreCommits) 3 = replay (keyHistory scoreCommits 3) ↔
      DroppedAbsorbed (keyHistory scoreCommits 3).reverse :=
  readKey_eq_replay_iff_droppedAbsorbed scoreCommits_integerHistory (by decide)

/-- The walker yields `1` where the history is `max 4 9 + 1`. -/
theorem readKey_ne_replay_scoreCommits : IntegerHistory (keyHistory scoreCommits 3) ∧
      (keyUpdateIds scoreCommits 3).Nodup ∧
      readKey (repoWalker scoreCommits) 3 = .ok (some (.int 1)) ∧
      replay (keyHistory scoreCommits 3) = .ok (some (.int 10)) := by
  refine ⟨scoreCommits_integerHistory, ?_, ?_, ?_⟩
  all_goals decide

end Orly
