import Orly.HistoryRefinement

namespace Orly

/-!
# The compaction fold

`FoldOneKey` replaces the entries one merge sees for a key by at most one entry.
A run that bottoms out in the merged files becomes an assignment; a run that does
not must stay a delta of the same mutator, because older entries of the key may
still live in files outside the merge.

The main result: any number of compactions, of any stretches of a key's entries
and of each other's output, leaves every read unchanged.
-/

open List

/-- One version of one key in a merge (`TFoldEntry`); a tombstone has no value. -/
structure FoldEntry (α : Type) where
  seqNum : Nat
  mutator : Mutator
  op : Option (Var α)
  deriving DecidableEq

namespace FoldEntry

/-- The operation an entry stands for. -/
def operation (entry : FoldEntry α) : Operation α :=
  .ofEntry entry.mutator entry.op

/-- The item a walker of the written file yields; files keep no update ids. -/
def toItem (key : κ) (entry : FoldEntry α) : Item κ α where
  key := key
  sequenceNumber := entry.seqNum
  mutator := entry.mutator
  op := entry.op
  updateId := none

@[simp]
theorem operation_toItem (key : κ) (entry : FoldEntry α) :
    (entry.toItem key).operation = entry.operation :=
  rfl

end FoldEntry

open FoldEntry

/-- The entry a merge reads for an item of a file. -/
def Item.toFoldEntry (item : Item κ α) : FoldEntry α where
  seqNum := item.sequenceNumber
  mutator := item.mutator
  op := item.op

@[simp]
theorem Item.operation_toFoldEntry (item : Item κ α) :
    item.toFoldEntry.operation = item.operation :=
  rfl

section Fold

variable {α : Type} [DecidableEq α]

/--
The loop of `FoldOneKey`: fold the older entries into `acc`.  The flag says
whether the run bottomed out (`hit_assign_base || hit_tombstone`).
-/
def foldRun (mutator : Mutator) : Var α → List (FoldEntry α) → Except RuntimeError (Var α × Bool)
  | acc, [] => .ok (acc, false)
  | acc, entry :: older =>
    match entry.op with
    | none => .ok (acc, true)
    | some value =>
      if entry.mutator = .assign then do
        let acc ← mutate value mutator acc
        return (acc, true)
      else if entry.mutator ≠ mutator then
        .ok (acc, false)
      else do
        let acc ← mutate acc mutator value
        foldRun mutator acc older

/-- `FoldOneKey`: the entries of one key, newest first, as the merge writes them. -/
def foldOneKey : List (FoldEntry α) → Except RuntimeError (List (FoldEntry α))
  | [] => .ok []
  | anchor :: older =>
    match anchor.op with
    | none => .ok [anchor]
    | some value =>
      if anchor.mutator = .assign then
        .ok [anchor]
      else if isDeferSafeCommutative anchor.mutator = false then
        .ok [anchor]
      else do
        let (acc, grounded) ← foldRun anchor.mutator value older
        return [{
          seqNum := anchor.seqNum
          mutator := if grounded then .assign else anchor.mutator
          op := some acc }]

/-- The entry a folded run becomes rewrites the run in every history. -/
theorem foldRun_refines {mutator : Mutator} {acc : Var α} {older : List (FoldEntry α)}
    (wellTyped : WellTyped (.deferred mutator acc :: older.map operation)) :
    ∃ value grounded, foldRun mutator acc older = .ok (value, grounded) ∧ ∀ below, Refines
            (.deferred mutator acc :: (older.map operation ++ below))
            (.ofEntry (if grounded then .assign else mutator) (some value) :: below) := by
  have notAssign : mutator ≠ .assign :=
    ne_assign_of_isDeferSafeCommutative
      (isDeferSafeCommutative_of_deferOperand wellTyped.deferredAccepted)
  induction older generalizing acc with
  | nil =>
    refine ⟨acc, false, rfl, ?_⟩
    intro below
    simp only [Bool.false_eq_true, ↓reduceIte, Operation.ofEntry_deferred acc notAssign]
    exact .refl _
  | cons entry older ih =>
    obtain ⟨seqNum, entryMutator, op⟩ := entry
    have accAccepted := wellTyped.deferredAccepted
    have kindFollows := (isChain_cons_cons.mp wellTyped.kinds).1
    rw [map_cons, operation] at wellTyped ⊢
    rw [operation] at kindFollows
    cases op with
    | none =>
      refine ⟨acc, true, rfl, ?_⟩
      intro below
      exact (Refines.settle mutator acc _).trans (.shadow (.assign acc) trivial _ below)
    | some value =>
      by_cases isAssign : entryMutator = .assign
      · subst isAssign
        have sameKind : acc.kind = value.kind := kindFollows _ rfl
        have baseAccepted : deferOperand mutator value.kind = true := by
          rw [← sameKind]
          exact accAccepted
        refine ⟨combine mutator value acc, true, ?_, ?_⟩
        · rw [foldRun]
          simp [mutate_eq_combine baseAccepted sameKind]
        · intro below
          exact (Refines.ground mutator acc value _).trans (.shadow (.assign _) trivial _ below)
      · simp only [Operation.ofEntry_deferred value isAssign] at *
        by_cases sameMutator : entryMutator = mutator
        · subst sameMutator
          have sameKind : acc.kind = value.kind := kindFollows _ rfl
          obtain ⟨folded, grounded, isFolded, refines⟩ := ih wellTyped.absorb
          refine ⟨folded, grounded, ?_, ?_⟩
          · rw [foldRun]
            simp [isAssign, mutate_eq_combine accAccepted sameKind.symm]
            exact isFolded
          · intro below
            exact (Refines.absorb entryMutator acc value _).trans (refines below)
        · refine ⟨acc, false, by simp [foldRun, isAssign, sameMutator], ?_⟩
          intro below newer foldable
          have runs := foldable.suffix.singleMutator
          exact absurd (isChain_cons_cons.mp runs).1.symm sameMutator

/-- `FoldOneKey` never raises on type-checked entries, and its output rewrites them. -/
theorem foldOneKey_refines {entries : List (FoldEntry α)}
    (wellTyped : WellTyped (entries.map operation)) :
    ∃ out, foldOneKey entries = .ok out ∧ ∀ below, Refines (entries.map operation ++ below)
            (out.map operation ++ below) := by
  cases entries with
  | nil => exact ⟨[], rfl, fun below => .refl below⟩
  | cons anchor older =>
    obtain ⟨seqNum, mutator, op⟩ := anchor
    cases op with
    | none => exact ⟨_, rfl, fun below => .shadow .tombstone trivial _ below⟩
    | some value =>
      by_cases isAssign : mutator = .assign
      · subst isAssign
        exact ⟨_, rfl, fun below => .shadow (.assign value) trivial _ below⟩
      · rw [map_cons, operation, Operation.ofEntry_deferred value isAssign] at wellTyped
        have safe := isDeferSafeCommutative_of_deferOperand wellTyped.deferredAccepted
        obtain ⟨folded, grounded, isFolded, refines⟩ := foldRun_refines wellTyped
        refine ⟨[⟨seqNum, if grounded then .assign else mutator, some folded⟩], ?_, ?_⟩
        · rw [foldOneKey]
          simp only [isAssign, safe, isFolded]
          rfl
        · intro below
          simp only [map_cons, cons_append, operation, Operation.ofEntry_deferred value isAssign]
          exact refines below

/-- `FoldOneKey` writes at most one entry, with the newest sequence number. -/
theorem foldOneKey_shape {entries out : List (FoldEntry α)}
    (folded : foldOneKey entries = .ok out) :
    out = [] ∨ ∃ front, out = [front] ∧
        ∃ anchor older, entries = anchor :: older ∧ front.seqNum = anchor.seqNum := by
  cases entries with
  | nil => exact .inl (Except.ok.inj folded).symm
  | cons anchor older =>
    have kept : out = [anchor] → ∃ front, out = [front] ∧ ∃ other rest,
            anchor :: older = other :: rest ∧ front.seqNum = other.seqNum :=
      fun isOut => ⟨anchor, isOut, anchor, older, rfl, rfl⟩
    right
    rw [foldOneKey] at folded
    split at folded
    · exact kept (Except.ok.inj folded).symm
    · split at folded
      · exact kept (Except.ok.inj folded).symm
      · split at folded
        · exact kept (Except.ok.inj folded).symm
        · next value _ _ _ =>
            cases run : foldRun anchor.mutator value older with
            | error error => simp [run] at folded
            | ok result =>
              rw [run] at folded
              exact ⟨_, (Except.ok.inj folded).symm, anchor, older, rfl, rfl⟩

end Fold

section Compaction

variable {κ α : Type}

/-- One merge of a stretch of a key's entries; newer and older entries are outside it. -/
def CompactStep [DecidableEq α] (key : κ) (before after : List (Item κ α)) : Prop :=
  ∃ newer run older out, before = newer ++ (run ++ older) ∧
      foldOneKey (run.map Item.toFoldEntry) = .ok out ∧
        after = newer ++ (out.map (FoldEntry.toItem key) ++ older)

/-- The entries of one key, newest first, that reads resolve exactly. -/
structure KeyEntries (key : κ) (entries : List (Item κ α)) : Prop where
  sameKey : ∀ item ∈ entries, item.key = key
  foldable : Foldable (entries.map Item.operation)
  distinctIds : (entries.filterMap Item.updateId).Nodup

namespace KeyEntries

variable {key : κ} {entries : List (Item κ α)}

theorem run_wellTyped {newer run older : List (Item κ α)}
    (keyEntries : KeyEntries key (newer ++ (run ++ older))) :
    WellTyped ((run.map Item.toFoldEntry).map FoldEntry.operation) := by
  have foldable := keyEntries.foldable
  rw [map_append, map_append] at foldable
  have accepted := foldable.suffix.wellTyped.accepted
  have kinds := (isChain_append.mp foldable.suffix.wellTyped.kinds).1
  rw [map_map]
  exact ⟨fun operation mem => accepted operation (mem_append_left _ mem), kinds⟩

variable [DecidableEq α]

/-- A read of the key returns the value of its entries. -/
theorem readKey_eq [DecidableEq κ] (keyEntries : KeyEntries key entries) :
    readKey entries key = .ok (valueOf (entries.map Item.operation)) := by
  have onlyKey : entries.filter (·.key = key) = entries := by
    apply filter_eq_self.mpr
    intro item mem
    simpa using keyEntries.sameKey item mem
  have history : keyHistory entries key = entries.map Item.operation := by
    rw [keyHistory, onlyKey]
  have ids : keyUpdateIds entries key = entries.filterMap Item.updateId := by
    rw [keyUpdateIds, onlyKey]
  rw [← keyEntries.foldable.readFold_eq, ← history]
  apply readKey_eq_readFold
  · rw [history]
    exact keyEntries.foldable.wellTyped
  · rw [ids]
    exact keyEntries.distinctIds

/-- Entries rewritten by a file are as readable as those they replace. -/
theorem rewrite {newer run older : List (Item κ α)} {out : List (FoldEntry α)}
    (keyEntries : KeyEntries key (newer ++ (run ++ older)))
    (refines : Refines (run.map Item.operation ++ older.map Item.operation)
        (out.map operation ++ older.map Item.operation)) :
    KeyEntries key (newer ++ (out.map (toItem key) ++ older)) ∧
      valueOf ((newer ++ (out.map (toItem key) ++ older)).map Item.operation) =
        valueOf ((newer ++ (run ++ older)).map Item.operation) := by
  have rewritten := refines (newer.map Item.operation) (by
    simpa using keyEntries.foldable)
  have afterOperations : (newer ++ (out.map (toItem key) ++ older)).map Item.operation =
        newer.map Item.operation ++ (out.map operation ++ older.map Item.operation) := by
    simp [map_map, Function.comp_def]
  rw [afterOperations]
  refine ⟨⟨?_, by rw [afterOperations]; exact rewritten.1, ?_⟩, ?_⟩
  · intro item mem
    rcases mem_append.mp mem with inNewer | inRest
    · exact keyEntries.sameKey item (mem_append_left _ inNewer)
    · rcases mem_append.mp inRest with inOut | inOlder
      · obtain ⟨entry, _, rfl⟩ := mem_map.mp inOut
        rfl
      · exact keyEntries.sameKey item (mem_append_right _ (mem_append_right _ inOlder))
  · have noIds : (out.map (toItem key)).filterMap Item.updateId = [] := by
      simp [toItem, filterMap_map, Function.comp_def]
    have distinctIds := keyEntries.distinctIds
    simp only [filterMap_append, noIds, nil_append] at distinctIds ⊢
    exact distinctIds.sublist (List.Sublist.append_left (sublist_append_right _ _) _)
  · simpa using rewritten.2

/-- A compaction keeps the entries readable and their value. -/
theorem compactStep {compacted : List (Item κ α)} (keyEntries : KeyEntries key entries)
    (step : CompactStep key entries compacted) :
    KeyEntries key compacted ∧ valueOf (compacted.map Item.operation) =
        valueOf (entries.map Item.operation) := by
  obtain ⟨newer, run, older, out, rfl, folded, rfl⟩ := step
  obtain ⟨foldedOut, isFolded, refines⟩ := foldOneKey_refines keyEntries.run_wellTyped
  obtain rfl : foldedOut = out := by
    rw [folded] at isFolded
    exact (Except.ok.inj isFolded).symm
  apply keyEntries.rewrite
  simpa [map_map, Function.comp_def] using refines (older.map Item.operation)

/-- Any sequence of compactions keeps the entries readable and their value. -/
theorem compactions {compacted : List (Item κ α)} (keyEntries : KeyEntries key entries)
    (steps : Relation.ReflTransGen (CompactStep key) entries compacted) :
    KeyEntries key compacted ∧ valueOf (compacted.map Item.operation) =
        valueOf (entries.map Item.operation) := by
  induction steps with
  | refl => exact ⟨keyEntries, rfl⟩
  | tail _ last ih =>
    obtain ⟨middleEntries, middleValue⟩ := ih
    obtain ⟨afterEntries, afterValue⟩ := middleEntries.compactStep last
    exact ⟨afterEntries, afterValue.trans middleValue⟩

end KeyEntries

/--
Compactions of a key's entries, nested in any way and made in any order, never
raise and never change what a read of the key returns.
-/
theorem readKey_compactions
    [DecidableEq κ] [DecidableEq α] {key : κ} {entries compacted : List (Item κ α)}
    (keyEntries : KeyEntries key entries)
    (steps : Relation.ReflTransGen (CompactStep key) entries compacted) :
    readKey compacted key = readKey entries key ∧ ∀ newer run older,
        compacted = newer ++ (run ++ older) →
          ∃ out, foldOneKey (run.map Item.toFoldEntry) = .ok out := by
  obtain ⟨compactedEntries, sameValue⟩ := keyEntries.compactions steps
  refine ⟨?_, ?_⟩
  · rw [compactedEntries.readKey_eq, keyEntries.readKey_eq, sameValue]
  · rintro newer run older rfl
    obtain ⟨out, isOut, _⟩ := foldOneKey_refines compactedEntries.run_wellTyped
    exact ⟨out, isOut⟩

end Compaction

/-- Two increments over an assignment, and an increment the assignment hides. -/
def visitEntries : List (Item Nat Nat) :=
  [{ key := 3, sequenceNumber := 4, mutator := .add, op := some (.int 3), updateId := some 9 },
   { key := 3, sequenceNumber := 3, mutator := .add, op := some (.int 2), updateId := none },
   { key := 3, sequenceNumber := 2, mutator := .assign, op := some (.int 5), updateId := none },
   { key := 3, sequenceNumber := 1, mutator := .add, op := some (.int 7), updateId := none }]

/-- The entries after a merge of the two in the middle. -/
def mergedVisitEntries : List (Item Nat Nat) :=
  [{ key := 3, sequenceNumber := 4, mutator := .add, op := some (.int 3), updateId := some 9 },
   { key := 3, sequenceNumber := 3, mutator := .assign, op := some (.int 7), updateId := none },
   { key := 3, sequenceNumber := 1, mutator := .add, op := some (.int 7), updateId := none }]

/-- Two of the visits compacted, and the read is the same. -/
theorem readKey_mergedVisitEntries : readKey mergedVisitEntries 3 = readKey visitEntries 3 := by
  have keyEntries : KeyEntries 3 visitEntries := by
    refine ⟨?_, ⟨⟨?_, ?_⟩, ?_, ?_⟩, ?_⟩
    all_goals decide
  have merge : CompactStep 3 visitEntries mergedVisitEntries :=
    ⟨visitEntries.take 1, (visitEntries.drop 1).take 2, visitEntries.drop 3,
      [⟨3, .assign, some (.int 7)⟩], by decide, by decide, by decide⟩
  exact (readKey_compactions keyEntries (.single merge)).1

end Orly
