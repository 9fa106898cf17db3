import Orly.KeyHistory
import Orly.PresentWalker

namespace Orly

/-!
# The read fold against the history

`ApplyDeferredFold` resolves a key newest entry first: it accumulates the deltas
of the newest run and folds the result onto the assignment below them.  This
module reduces the walker to a pure fold over the key's operations and compares
that fold with the replay of the history.

The two agree on every kind whose deferred mutators commute.  On strings, lists
and dictionaries the fold applies `Add` in the reverse of commit order, and a run
that mixes mutators is cut at the change.
-/

open List

namespace Item

/-- The operation an entry stands for. -/
def operation (item : Item κ α) : Operation α :=
  .ofEntry item.mutator item.op

theorem operation_tombstone {item : Item κ α} (isTombstone : item.op = none) :
    item.operation = .tombstone := by
  rw [operation, isTombstone, Operation.ofEntry_none]

theorem operation_assign {item : Item κ α} {value : Var α} (hasValue : item.op = some value)
    (isAssign : item.mutator = .assign) :
    item.operation = .assign value := by
  rw [operation, hasValue, isAssign, Operation.ofEntry_assign]

theorem operation_deferred {item : Item κ α} {value : Var α} (hasValue : item.op = some value)
    (notAssign : item.mutator ≠ .assign) :
    item.operation = .deferred item.mutator value := by
  rw [operation, hasValue, Operation.ofEntry_deferred value notAssign]

/-- With distinct ids, the first entry's id does not come back. -/
theorem distinctIds_cons {item : Item κ α} {rest : List (Item κ α)}
    (distinctIds : ((item :: rest).filterMap Item.updateId).Nodup) :
    (rest.filterMap Item.updateId).Nodup ∧
      ∀ id ∈ rest.filterMap Item.updateId, id ∉ item.updateId.toList := by
  rw [filterMap_cons] at distinctIds
  cases hasId : item.updateId with
  | none =>
    rw [hasId] at distinctIds
    exact ⟨distinctIds, by simp⟩
  | some headId =>
    rw [hasId] at distinctIds
    obtain ⟨headFresh, tailDistinct⟩ := nodup_cons.mp distinctIds
    refine ⟨tailDistinct, ?_⟩
    rintro id mem isHead
    have sameId : id = headId := by simpa using isHead
    subst sameId
    exact headFresh mem

end Item

/-- The committed operations on one key, in the order of `entries`. -/
def keyHistory [DecidableEq κ] (entries : List (Item κ α)) (key : κ) : List (Operation α) :=
  (entries.filter (·.key = key)).map Item.operation

/-- The update ids on one key. -/
def keyUpdateIds [DecidableEq κ] (entries : List (Item κ α)) (key : κ) : List UpdateId :=
  (entries.filter (·.key = key)).filterMap Item.updateId

section PureFold

variable {α : Type} [DecidableEq α]

/-- The fold of `ApplyDeferredFold` over the older operations of its key. -/
def resolve (mutator : Mutator) : Var α → List (Operation α) → Var α
  | acc, .deferred olderMutator rhs :: older =>
    if olderMutator = mutator then
      resolve mutator (combine mutator acc rhs) older
    else
      acc
  | acc, .assign base :: _ => combine mutator base acc
  | acc, .tombstone :: _ => acc
  | acc, [] => acc

/-- What the walker yields for a key with these operations, newest first. -/
def readFold : List (Operation α) → Option (Var α)
  | [] => none
  | .tombstone :: _ => none
  | .assign value :: _ => some value
  | .deferred mutator rhs :: older => some (resolve mutator rhs older)

end PureFold

section WalkerFold

variable {κ α : Type} [DecidableEq κ] [DecidableEq α]

/-- Folding a delta into the accumulator keeps the history well typed. -/
theorem WellTyped.absorb
    {mutator olderMutator : Mutator} {acc rhs : Var α} {older : List (Operation α)}
    (wellTyped : WellTyped (.deferred mutator acc :: .deferred olderMutator rhs :: older)) :
    WellTyped (.deferred mutator (combine mutator acc rhs) :: older) := by
  have sameKind : acc.kind = rhs.kind := (isChain_cons_cons.mp wellTyped.kinds).1 _ rfl
  constructor
  · intro operation mem
    rcases mem_cons.mp mem with rfl | olderMember
    · simpa [Operation.Accepted, combine_kind] using wellTyped.deferredAccepted
    · exact wellTyped.tail.tail.accepted operation olderMember
  · cases older with
    | nil => exact .singleton _
    | cons previous older =>
      have rhsFollows := (isChain_cons_cons.mp wellTyped.tail.kinds).1
      refine isChain_cons_cons.mpr ⟨?_, wellTyped.tail.tail.kinds⟩
      intro kind isKind
      rw [combine_kind, sameKind]
      exact rhsFollows kind isKind

/-- With distinct update ids the walker's loop computes the pure fold. -/
theorem foldOlder_eq_resolve
    {key : κ} {mutator : Mutator} {acc : Var α} {seenUpdateIds : List UpdateId}
    {heap : List (Item κ α)} (sameKey : ∀ item ∈ heap, item.key = key)
    (wellTyped : WellTyped (.deferred mutator acc :: heap.map Item.operation))
    (distinctIds : (heap.filterMap Item.updateId).Nodup)
    (freshIds : ∀ id ∈ heap.filterMap Item.updateId, id ∉ seenUpdateIds) :
    ∃ rest, foldOlder key mutator acc seenUpdateIds heap =
        .ok (resolve mutator acc (heap.map Item.operation), rest) := by
  induction heap generalizing acc seenUpdateIds with
  | nil => exact ⟨[], rfl⟩
  | cons peek heap ih =>
    have peekKey : peek.key = key := sameKey peek mem_cons_self
    have peekFresh : ¬ ∃ id ∈ peek.updateId, id ∈ seenUpdateIds := by
      rintro ⟨id, isId, seen⟩
      exact freshIds id (mem_filterMap.mpr ⟨peek, mem_cons_self, isId⟩) seen
    have accAccepted := wellTyped.deferredAccepted
    have kindFollows := (isChain_cons_cons.mp wellTyped.kinds).1
    rw [map_cons] at wellTyped ⊢
    cases hasValue : peek.op with
    | none =>
      rw [Item.operation_tombstone hasValue, foldOlder_tombstone hasValue]
      exact ⟨peek :: heap, rfl⟩
    | some peekValue =>
      by_cases isAssign : peek.mutator = .assign
      · rw [Item.operation_assign hasValue isAssign] at kindFollows ⊢
        have sameKind : acc.kind = peekValue.kind := kindFollows _ rfl
        have baseAccepted : deferOperand mutator peekValue.kind = true := by
          rw [← sameKind]
          exact accAccepted
        rw [foldOlder_assign peekKey hasValue isAssign peekFresh,
          mutate_eq_combine baseAccepted sameKind]
        exact ⟨heap, rfl⟩
      · rw [Item.operation_deferred hasValue isAssign] at wellTyped kindFollows ⊢
        by_cases sameMutator : peek.mutator = mutator
        · have sameKind : acc.kind = peekValue.kind := kindFollows _ rfl
          rw [foldOlder_delta peekKey hasValue isAssign sameMutator peekFresh,
            mutate_eq_combine accAccepted sameKind.symm, resolve,
            if_pos sameMutator]
          obtain ⟨tailDistinct, headFresh⟩ := Item.distinctIds_cons distinctIds
          apply ih
          · intro item mem
            exact sameKey item (mem_cons_of_mem _ mem)
          · exact wellTyped.absorb
          · exact tailDistinct
          · intro id mem seen
            rcases mem_append.mp seen with isPeek | wasSeen
            · exact headFresh id mem isPeek
            · obtain ⟨item, inHeap, hasId⟩ := mem_filterMap.mp mem
              exact freshIds id (mem_filterMap.mpr ⟨item, mem_cons_of_mem _ inHeap, hasId⟩) wasSeen
        · rw [foldOlder_otherMutator hasValue isAssign sameMutator, resolve, if_neg sameMutator]
          exact ⟨peek :: heap, rfl⟩

/-- A walker over the entries of one key yields the pure read fold. -/
theorem refresh_eq_readFold
    {key : κ} {heap : List (Item κ α)} (sameKey : ∀ item ∈ heap, item.key = key)
    (wellTyped : WellTyped (heap.map Item.operation))
    (distinctIds : (heap.filterMap Item.updateId).Nodup) :
    (refresh false none heap).map (Option.bind · (·.1.op)) =
      .ok (readFold (heap.map Item.operation)) := by
  cases heap with
  | nil => rfl
  | cons item heap =>
    have itemKey : item.key = key := sameKey item mem_cons_self
    have tailKey : ∀ other ∈ heap, other.key = item.key := by
      intro other mem
      rw [itemKey]
      exact sameKey other (mem_cons_of_mem _ mem)
    rw [map_cons] at wellTyped ⊢
    have noItem : ¬ ∃ held ∈ (none : Option (Item κ α)), held.key = item.key := by
      simp
    cases hasValue : item.op with
    | none =>
      have passesOver : refresh false (some item) (heap ++ []) = refresh false (some item) [] :=
        refresh_heldKey tailKey
      rw [append_nil] at passesOver
      rw [Item.operation_tombstone hasValue, refresh_tombstone noItem hasValue, passesOver]
      rfl
    | some value =>
      by_cases isAssign : item.mutator = .assign
      · rw [Item.operation_assign hasValue isAssign,
          refresh_resolved noItem hasValue (by rw [isAssign]; rfl)]
        simp [Except.map, hasValue, readFold]
      · rw [Item.operation_deferred hasValue isAssign] at wellTyped ⊢
        obtain ⟨tailDistinct, headFresh⟩ := Item.distinctIds_cons distinctIds
        have safe := isDeferSafeCommutative_of_deferOperand wellTyped.deferredAccepted
        obtain ⟨rest, folded⟩ := foldOlder_eq_resolve tailKey wellTyped tailDistinct headFresh
        rw [refresh_deferred noItem hasValue safe, applyDeferredFold, folded]
        rfl

/-- A point read returns the read fold of the entries the stream has for its key. -/
theorem readKey_eq_readFold
    {stream : List (Item κ α)} {key : κ} (wellTyped : WellTyped (keyHistory stream key))
    (distinctIds : (keyUpdateIds stream key).Nodup) :
    readKey stream key = .ok (readFold (keyHistory stream key)) := by
  have sameKey : ∀ item ∈ stream.filter (·.key = key), item.key = key := by
    intro item mem
    simpa using (mem_filter.mp mem).2
  exact refresh_eq_readFold sameKey wellTyped distinctIds

end WalkerFold

section OneRepo

variable {κ α : Type} [LinearOrder κ]

theorem keyHistory_repoWalker (entries : List (Item κ α)) (key : κ) :
    keyHistory (repoWalker entries) key = (keyHistory entries key).reverse := by
  rw [keyHistory, filter_repoWalker, map_reverse, keyHistory]

theorem keyUpdateIds_repoWalker (entries : List (Item κ α)) (key : κ) :
    keyUpdateIds (repoWalker entries) key = (keyUpdateIds entries key).reverse := by
  rw [keyUpdateIds, filter_repoWalker, filterMap_reverse, keyUpdateIds]

/-- The value of the repo's walker for a key, reduced to the key's history. -/
theorem readKey_repoWalker [DecidableEq α] {entries : List (Item κ α)} {key : κ}
    (wellTyped : WellTyped (keyHistory entries key).reverse)
    (distinctIds : (keyUpdateIds entries key).Nodup) :
    readKey (repoWalker entries) key = .ok (readFold (keyHistory entries key).reverse) := by
  rw [← keyHistory_repoWalker] at wellTyped ⊢
  apply readKey_eq_readFold wellTyped
  rw [keyUpdateIds_repoWalker]
  exact nodup_reverse.mpr distinctIds

end OneRepo

section SingleMutator

variable {α : Type} [DecidableEq α] {mutator : Mutator}

/-- Over a run of one mutator the fold merges the run newest first onto its base. -/
theorem resolve_eq_merge {acc : Var α} {older : List (Operation α)}
    (runUses : RunUses mutator older) :
    some (resolve mutator acc older) = (runBase older).merge (combine mutator)
        (some ((deferredRun older).foldl (combine mutator) acc)) := by
  induction older generalizing acc with
  | nil => rfl
  | cons operation older ih =>
    cases operation with
    | tombstone => rfl
    | assign value => rfl
    | deferred olderMutator rhs =>
      obtain ⟨rfl, olderUses⟩ := runUses
      rw [resolve, if_pos rfl, ih olderUses]
      rfl

variable {rhs : Var α} {older : List (Operation α)}
  (wellTyped : WellTyped (.deferred mutator rhs :: older))
  (singleMutator : SingleMutatorRuns (.deferred mutator rhs :: older))

include singleMutator

/-- The read fold of a deferred key merges its newest run, newest delta first. -/
theorem readFold_deferred : readFold (.deferred mutator rhs :: older) =
      (runBase (.deferred mutator rhs :: older)).merge (combine mutator)
        (MergeRuns.runDelta (combine mutator) (deferredRun (.deferred mutator rhs :: older))) := by
  rw [deferredRun, MergeRuns.runDelta_cons]
  exact resolve_eq_merge singleMutator.runUses.2

include wellTyped

/-- The history of a deferred key merges its newest run, oldest delta first. -/
theorem valueOf_deferred : valueOf (.deferred mutator rhs :: older) =
      (runBase (.deferred mutator rhs :: older)).merge (combine mutator)
        (MergeRuns.runDelta (combine mutator)
          (deferredRun (.deferred mutator rhs :: older)).reverse) := by
  obtain ⟨runKind, baseKind⟩ := wellTyped.deferredRun_kind
  rw [valueOf_eq_mergeInto singleMutator.runUses]
  apply (combine_associativeOn mutator rhs.kind).mergeInto_eq_merge_runDelta baseKind
  intro delta mem
  exact runKind delta (mem_reverse.mp mem)

end SingleMutator

/-- On integers, booleans and sets the read fold is the value of the history. -/
theorem readFold_eq_valueOf
    [DecidableEq α] {newestFirst : List (Operation α)} (wellTyped : WellTyped newestFirst)
    (singleMutator : SingleMutatorRuns newestFirst)
    (orderFree : ∀ operation ∈ newestFirst, operation.OrderFree) :
    readFold newestFirst = valueOf newestFirst := by
  cases newestFirst with
  | nil => rfl
  | cons operation older =>
    cases operation with
    | tombstone => rfl
    | assign value => rfl
    | deferred mutator rhs =>
      have kindOrderFree : rhs.kind.orderFree = true := orderFree _ mem_cons_self
      have reversed :=
        (combine_commutativeOn mutator kindOrderFree).runDelta_reverse wellTyped.deferredRun_kind.1
      rw [readFold_deferred singleMutator, valueOf_deferred wellTyped singleMutator, reversed]

end Orly
