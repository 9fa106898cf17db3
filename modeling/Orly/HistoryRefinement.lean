import Orly.DeferredFold

namespace Orly

/-!
# Rewriting the stored history of a key

Compaction replaces entries of a key by fewer entries.  A replacement is sound
when, under any newer operations, the history stays one the read fold resolves
correctly and its value does not change.  This module states that relation on
suffixes of histories, newest operation first, and the rewriting rules the
compaction folds are made of.
-/

open List

/--
The histories on which deferral is exact: type-checked, with single-mutator runs
of kinds whose mutators commute.
-/
structure Foldable (newestFirst : List (Operation α)) : Prop where
  wellTyped : WellTyped newestFirst
  singleMutator : SingleMutatorRuns newestFirst
  orderFree : ∀ operation ∈ newestFirst, operation.OrderFree

namespace Foldable

theorem suffix {newer older : List (Operation α)} (foldable : Foldable (newer ++ older)) :
    Foldable older where
  wellTyped :=
    ⟨fun operation mem =>
        foldable.wellTyped.accepted operation (mem_append_right _ mem),
      (isChain_append.mp foldable.wellTyped.kinds).2.1⟩
  singleMutator := (isChain_append.mp foldable.singleMutator).2.1
  orderFree operation mem := foldable.orderFree operation (mem_append_right _ mem)

theorem newest {newer older : List (Operation α)} (foldable : Foldable (newer ++ older)) :
    Foldable newer where
  wellTyped :=
    ⟨fun operation mem =>
        foldable.wellTyped.accepted operation (mem_append_left _ mem),
      (isChain_append.mp foldable.wellTyped.kinds).1⟩
  singleMutator := (isChain_append.mp foldable.singleMutator).1
  orderFree operation mem := foldable.orderFree operation (mem_append_left _ mem)

theorem tail {operation : Operation α} {older : List (Operation α)}
    (foldable : Foldable (operation :: older)) :
    Foldable older := by
  rw [← singleton_append] at foldable
  exact foldable.suffix

/-- An operation that ends every run above it rests on any foldable history. -/
theorem cons_ground
    {operation : Operation α} {older : List (Operation α)} (ground : operation.IsGround)
    (foldable : Foldable older) :
    Foldable (operation :: older) := by
  have kindFollows : ∀ other, operation.KindFollows other := by
    intro other
    cases operation with
    | tombstone => trivial
    | assign value => trivial
    | deferred mutator rhs => exact ground.elim
  have mutatorFollows : ∀ other, operation.MutatorFollows other := by
    intro other
    cases operation with
    | tombstone => trivial
    | assign value => trivial
    | deferred mutator rhs => exact ground.elim
  refine ⟨⟨?_, ?_⟩, ?_, ?_⟩
  · intro other mem
    rcases mem_cons.mp mem with rfl | olderMember
    · cases other with
      | tombstone => trivial
      | assign value => trivial
      | deferred mutator rhs => exact ground.elim
    · exact foldable.wellTyped.accepted other olderMember
  · exact foldable.wellTyped.kinds.cons (fun other _ => kindFollows other)
  · exact foldable.singleMutator.cons (fun other _ => mutatorFollows other)
  · intro other mem
    rcases mem_cons.mp mem with rfl | olderMember
    · cases other with
      | tombstone => trivial
      | assign value => trivial
      | deferred mutator rhs => exact ground.elim
    · exact foldable.orderFree other olderMember

variable [DecidableEq α]

/-- The read fold of a foldable history is its value. -/
theorem readFold_eq {newestFirst : List (Operation α)} (foldable : Foldable newestFirst) :
    readFold newestFirst = valueOf newestFirst :=
  readFold_eq_valueOf foldable.wellTyped foldable.singleMutator foldable.orderFree

end Foldable

/-- The value of a history depends on its older part only through that part's value. -/
theorem valueOf_append [DecidableEq α] (newer older : List (Operation α)) :
    valueOf (newer ++ older) =
      newer.foldr (fun operation state => effect state operation) (valueOf older) := by
  rw [valueOf, foldr_append, ← valueOf]

/--
A suffix of a history may be replaced by another: under every newer history the
result stays foldable and keeps its value.
-/
def Refines [DecidableEq α] (before after : List (Operation α)) : Prop :=
  ∀ newer, Foldable (newer ++ before) →
      Foldable (newer ++ after) ∧ valueOf (newer ++ after) = valueOf (newer ++ before)

namespace Refines

variable [DecidableEq α] {before middle after : List (Operation α)}

theorem refl (history : List (Operation α)) : Refines history history :=
  fun _ foldable => ⟨foldable, rfl⟩

theorem trans (first : Refines before middle) (second : Refines middle after) :
    Refines before after := by
  intro newer foldable
  obtain ⟨middleFoldable, middleValue⟩ := first newer foldable
  obtain ⟨afterFoldable, afterValue⟩ := second newer middleFoldable
  exact ⟨afterFoldable, afterValue.trans middleValue⟩

/-- A replacement may be made under any newer operations. -/
theorem append (newer : List (Operation α)) (refines : Refines before after) :
    Refines (newer ++ before) (newer ++ after) := by
  intro newest foldable
  rw [← append_assoc] at foldable ⊢
  obtain ⟨afterFoldable, afterValue⟩ := refines (newest ++ newer) foldable
  rw [← append_assoc]
  exact ⟨afterFoldable, afterValue⟩

/--
Replacing the newest operation of a suffix is sound when the new one leaves the
same value and kind and defers only what the old one deferred.
-/
theorem of_head {operation replacement : Operation α} {older remaining : List (Operation α)}
    (foldableAfter : Foldable (operation :: older) → Foldable (replacement :: remaining))
    (sameValue : Foldable (operation :: older) →
        valueOf (replacement :: remaining) = valueOf (operation :: older))
    (sameKind : Foldable (operation :: older) → replacement.kind? = operation.kind?)
    (sameMutator : ∀ mutator rhs, replacement = .deferred mutator rhs →
        ∃ oldRhs, operation = .deferred mutator oldRhs) :
    Refines (operation :: older) (replacement :: remaining) := by
  intro newer foldable
  have suffixFoldable := foldable.suffix
  have after := foldableAfter suffixFoldable
  have kindsAbove := (isChain_append.mp foldable.wellTyped.kinds)
  have mutatorsAbove := (isChain_append.mp foldable.singleMutator)
  refine ⟨⟨⟨?_, ?_⟩, ?_, ?_⟩, ?_⟩
  · intro other mem
    rcases mem_append.mp mem with inNewer | inAfter
    · exact foldable.wellTyped.accepted other (mem_append_left _ inNewer)
    · exact after.wellTyped.accepted other inAfter
  · refine isChain_append.mpr ⟨kindsAbove.1, after.wellTyped.kinds, ?_⟩
    intro last isLast head isHead
    obtain rfl : replacement = head := by simpa using isHead
    have follows := kindsAbove.2.2 last isLast operation rfl
    cases last with
    | tombstone => trivial
    | assign value => trivial
    | deferred mutator rhs =>
      intro kind isKind
      rw [sameKind suffixFoldable] at isKind
      exact follows kind isKind
  · refine isChain_append.mpr ⟨mutatorsAbove.1, after.singleMutator, ?_⟩
    intro last isLast head isHead
    obtain rfl : replacement = head := by simpa using isHead
    have follows := mutatorsAbove.2.2 last isLast operation rfl
    cases last with
    | tombstone => trivial
    | assign value => trivial
    | deferred mutator rhs =>
      cases replacement with
      | tombstone => trivial
      | assign value => trivial
      | deferred newMutator newRhs =>
        obtain ⟨oldRhs, rfl⟩ := sameMutator newMutator newRhs rfl
        exact follows
  · intro other mem
    rcases mem_append.mp mem with inNewer | inAfter
    · exact foldable.orderFree other (mem_append_left _ inNewer)
    · exact after.orderFree other inAfter
  · rw [valueOf_append, valueOf_append, sameValue suffixFoldable]

/-- An assignment or a tombstone hides everything older than itself. -/
theorem shadow (operation : Operation α) (ground : operation.IsGround)
    (hidden older : List (Operation α)) :
    Refines (operation :: (hidden ++ older)) (operation :: older) := by
  apply of_head
  · intro foldable
    exact foldable.tail.suffix.cons_ground ground
  · intro _
    cases operation with
    | tombstone => rfl
    | assign value => rfl
    | deferred mutator rhs => exact ground.elim
  · intro _
    rfl
  · rintro mutator rhs rfl
    exact ground.elim

/-- A delta may be replaced by an assignment of the value it leaves. -/
theorem keyframe {mutator : Mutator} {rhs value : Var α} {older : List (Operation α)}
    (leaves : valueOf (.deferred mutator rhs :: older) = some value) :
    Refines (.deferred mutator rhs :: older) (.assign value :: older) := by
  apply of_head
  · intro foldable
    exact foldable.tail.cons_ground trivial
  · intro _
    exact leaves.symm
  · intro foldable
    have newestKind := foldable.wellTyped.valueOf_kind
    rw [leaves] at newestKind
    exact newestKind
  · intro otherMutator otherRhs isDeferred
    cases isDeferred

/-- A delta folds onto the assignment below it. -/
theorem ground (mutator : Mutator) (acc base : Var α) (older : List (Operation α)) :
    Refines (.deferred mutator acc :: .assign base :: older)
      (.assign (combine mutator base acc) :: older) := by
  have onBase := keyframe
    (rfl : valueOf (.deferred mutator acc :: .assign base :: older) =
      some (combine mutator base acc))
  exact onBase.trans (shadow (.assign _) trivial [.assign base] older)

/-- A delta on a deleted key is the key's value. -/
theorem settle (mutator : Mutator) (acc : Var α) (older : List (Operation α)) :
    Refines (.deferred mutator acc :: .tombstone :: older) (.assign acc :: older) := by
  have onNothing := keyframe
    (rfl : valueOf (.deferred mutator acc :: .tombstone :: older) = some acc)
  exact onNothing.trans (shadow (.assign acc) trivial [.tombstone] older)

/-- Two adjacent deltas of one mutator are one delta. -/
theorem absorb (mutator : Mutator) (acc rhs : Var α) (older : List (Operation α)) :
    Refines (.deferred mutator acc :: .deferred mutator rhs :: older)
      (.deferred mutator (combine mutator acc rhs) :: older) := by
  apply of_head
  · intro foldable
    have accFree : acc.kind.orderFree = true := foldable.orderFree _ mem_cons_self
    refine ⟨foldable.wellTyped.absorb, ?_, ?_⟩
    · cases older with
      | nil => exact .singleton _
      | cons previous older =>
        obtain ⟨follows, rest⟩ := isChain_cons_cons.mp foldable.tail.singleMutator
        refine isChain_cons_cons.mpr ⟨?_, rest⟩
        cases previous with
        | tombstone => trivial
        | assign value => trivial
        | deferred olderMutator olderRhs => exact follows
    · intro other mem
      rcases mem_cons.mp mem with rfl | olderMember
      · rw [Operation.OrderFree, combine_kind]
        exact accFree
      · exact foldable.tail.tail.orderFree other olderMember
  · intro foldable
    have accFree : acc.kind.orderFree = true := foldable.orderFree _ mem_cons_self
    have sameKind : acc.kind = rhs.kind := (isChain_cons_cons.mp foldable.wellTyped.kinds).1 _ rfl
    have olderKind := foldable.wellTyped.tail.olderKind
    have laws : MergeRuns.CommutativeOn (fun value : Var α => value.kind = acc.kind)
          (combine mutator) :=
      combine_commutativeOn mutator accFree
    simp only [valueOf_cons, effect]
    calc
      (valueOf older).merge (combine mutator) (some (combine mutator acc rhs))
          = (valueOf older).merge (combine mutator)
              ((some rhs).merge (combine mutator) (some acc)) := by
            rw [Option.merge_some_some, laws.comm rfl sameKind.symm]
      _ = ((valueOf older).merge (combine mutator) (some rhs)).merge
            (combine mutator) (some acc) := by
            symm
            apply laws.assoc_option
            · intro value isValue
              rw [olderKind value isValue, sameKind]
            · simp [sameKind]
            · simp
  · intro _
    simp [Operation.kind?, combine_kind]
  · intro otherMutator otherRhs isDeferred
    cases isDeferred
    exact ⟨acc, rfl⟩

end Refines

end Orly
