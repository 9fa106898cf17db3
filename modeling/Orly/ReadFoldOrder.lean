import Orly.DeferredFold

namespace Orly

/-!
# When the order of the read fold can be observed

The read fold merges a run of deltas newest first.  For the kinds whose `Add`
keeps the order of its operands the result is the value of the history exactly
when the run reads the same in both directions: the concatenations agree for
strings and lists, and for dictionaries the oldest and the newest delta that bind
a key bind it to the same value.
-/

open List

section Run

variable {α : Type}

/-- The strings of a run. -/
def strings (run : List (Var α)) : List (List UInt8) :=
  run.filterMap fun delta => delta.asStr.toOption

/-- The lists of a run. -/
def lists (run : List (Var α)) : List (List α) :=
  run.filterMap fun delta => delta.asList.toOption

/-- The dictionaries of a run. -/
def dictionaries (run : List (Var α)) : List (Finmap fun _ : α => α) :=
  run.filterMap fun delta => delta.asDict.toOption

variable [DecidableEq α]

/-- What the dictionaries of a run bind one dictionary key to. -/
def bindings (run : List (Var α)) (key : α) : List α :=
  (dictionaries run).filterMap (Finmap.lookup key)

/-- A run whose merged value does not show the direction it was merged in. -/
structure OrderInsensitive (run : List (Var α)) : Prop where
  strings : (strings run).flatten = (Orly.strings run).reverse.flatten
  lists : (lists run).flatten = (Orly.lists run).reverse.flatten
  bindings : ∀ key, (bindings run key).head? = (Orly.bindings run key).getLast?

end Run

section KindOfRun

variable {α : Type}

/-- What is extracted from values of one kind, and from no others, makes them. -/
structure IsPayload {Payload : Type} (kind : VarKind) (extract : Var α → Option Payload)
    (construct : Payload → Var α) : Prop where
  otherKind : ∀ value, value.kind ≠ kind → extract value = none
  ofKind : ∀ value, value.kind = kind →
    ∃ payload, extract value = some payload ∧ construct payload = value

theorem isPayload_str : IsPayload .str (fun value : Var α => value.asStr.toOption) Var.str := by
  constructor <;> intro value kind <;> cases value <;>
    first | rfl | contradiction | exact ⟨_, rfl, rfl⟩

theorem isPayload_list : IsPayload .list (fun value : Var α => value.asList.toOption) Var.list := by
  constructor <;> intro value kind <;> cases value <;>
    first | rfl | contradiction | exact ⟨_, rfl, rfl⟩

theorem isPayload_dict : IsPayload .dict (fun value : Var α => value.asDict.toOption) Var.dict := by
  constructor <;> intro value kind <;> cases value <;>
    first | rfl | contradiction | exact ⟨_, rfl, rfl⟩

namespace IsPayload

variable {Payload : Type} {extract : Var α → Option Payload} {construct : Payload → Var α}
  {kind runOf : VarKind} {run : List (Var α)} (isPayload : IsPayload kind extract construct)

include isPayload

/-- Payloads of one kind are not found in a run of another kind. -/
theorem filterMap_otherKind (runKind : ∀ delta ∈ run, delta.kind = runOf)
    (otherKind : runOf ≠ kind) :
    run.filterMap extract = [] := by
  refine filterMap_eq_nil_iff.mpr fun delta mem => isPayload.otherKind delta ?_
  rw [runKind delta mem]
  exact otherKind

/-- A run of one kind is made of its payloads. -/
theorem map_filterMap (runKind : ∀ delta ∈ run, delta.kind = kind) :
    (run.filterMap extract).map construct = run := by
  induction run with
  | nil => rfl
  | cons delta run ih =>
    obtain ⟨deltaKind, tailKind⟩ := forall_mem_cons.mp runKind
    obtain ⟨payload, extracted, constructed⟩ := isPayload.ofKind delta deltaKind
    rw [filterMap_cons, extracted, map_cons, constructed, ih tailKind]

end IsPayload

end KindOfRun

section RunDelta

variable {α : Type} [DecidableEq α] (mutator : Mutator)

theorem foldl_combine_dict (start : Finmap fun _ : α => α) (run : List (Finmap fun _ : α => α)) :
    (run.map Var.dict).foldl (combine mutator) (.dict start) =
      .dict (run.foldl (fun entries delta => delta ∪ entries) start) := by
  induction run generalizing start with
  | nil => rfl
  | cons delta run ih =>
    rw [map_cons, foldl_cons, combine, ih, foldl_cons]

theorem lookup_union_or (key : α) (first second : Finmap fun _ : α => α) :
    (first ∪ second).lookup key = (first.lookup key).or (second.lookup key) := by
  by_cases mem : key ∈ first
  · obtain ⟨value, bound⟩ := Finmap.mem_iff.mp mem
    rw [Finmap.lookup_union_left mem, bound, Option.some_or]
  · rw [Finmap.lookup_union_right mem, Finmap.lookup_eq_none.mpr mem, Option.none_or]

/-- A merged run of dictionaries binds a key as the last delta that binds it does. -/
theorem lookup_foldl_union (key : α) (start : Finmap fun _ : α => α)
    (run : List (Finmap fun _ : α => α)) :
    (run.foldl (fun entries delta => delta ∪ entries) start).lookup key =
      (run.filterMap (Finmap.lookup key)).getLast?.or (start.lookup key) := by
  induction run generalizing start with
  | nil => simp
  | cons delta run ih =>
    rw [foldl_cons, ih, lookup_union_or, filterMap_cons]
    cases bound : delta.lookup key with
    | none => simp
    | some value =>
      cases run.filterMap (Finmap.lookup key) <;> simp [getLast?_cons]

end RunDelta

section Cancellation

variable {α : Type} [DecidableEq α] {mutator : Mutator} {base : Option (Var α)}

/-- Dictionaries with the same keys are not told apart by a base only if equal. -/
theorem merge_dict_inj
    {first second : Finmap fun _ : α => α} (baseKind : ∀ value ∈ base, value.kind = .dict)
    (sameKeys : ∀ key, (first.lookup key).isSome = (second.lookup key).isSome) :
    base.merge (combine mutator) (some (.dict first)) =
        base.merge (combine mutator) (some (.dict second)) ↔
      ∀ key, first.lookup key = second.lookup key := by
  have ext_iff : first = second ↔ ∀ key, first.lookup key = second.lookup key :=
    ⟨fun same key => by rw [same], Finmap.ext_lookup⟩
  cases base with
  | none => simpa using ext_iff
  | some value =>
    have valueKind := baseKind value rfl
    cases value with
    | dict entries =>
      simp only [Option.merge_some_some, combine, Option.some.injEq, Var.dict.injEq]
      constructor
      · intro same key
        have sameLookup := congrArg (Finmap.lookup key) same
        rw [lookup_union_or, lookup_union_or] at sameLookup
        have isSome := sameKeys key
        cases firstBound : first.lookup key <;> cases secondBound : second.lookup key <;> simp_all
      · intro same
        rw [ext_iff.mpr same]
    | _ => cases valueKind

end Cancellation

section Direction

variable {α : Type} [DecidableEq α] {mutator : Mutator} {base : Option (Var α)} {run : List (Var α)}

/-- Values that a mutation appends to each other, such as strings and lists: what a run rests
on does not hide its order. -/
theorem merge_appending_reverse_iff {Element : Type} {construct : List Element → Var α}
    (appends : ∀ start delta,
      combine mutator (construct start) (construct delta) = construct (start ++ delta))
    (injective : Function.Injective construct) {payloads : List (List Element)}
    (nonempty : payloads ≠ []) (baseKind : ∀ value ∈ base, ∃ payload, construct payload = value) :
    base.merge (combine mutator) (MergeRuns.runDelta (combine mutator) (payloads.map construct)) =
        base.merge (combine mutator)
          (MergeRuns.runDelta (combine mutator) (payloads.map construct).reverse) ↔
      payloads.flatten = payloads.reverse.flatten := by
  have folds : ∀ (run : List (List Element)) start,
      (run.map construct).foldl (combine mutator) (construct start) =
        construct (start ++ run.flatten) := by
    intro run
    induction run with
    | nil => simp
    | cons delta run ih =>
      intro start
      rw [map_cons, foldl_cons, appends, ih, flatten_cons, append_assoc]
  have amounts : ∀ run : List (List Element), run ≠ [] →
      MergeRuns.runDelta (combine mutator) (run.map construct) = some (construct run.flatten) := by
    intro run someDelta
    obtain ⟨delta, run, rfl⟩ := exists_cons_of_ne_nil someDelta
    rw [map_cons, MergeRuns.runDelta_cons, folds, flatten_cons]
  rw [← map_reverse, amounts payloads nonempty, amounts payloads.reverse (by simpa using nonempty)]
  cases base with
  | none => simp [injective.eq_iff]
  | some value =>
    obtain ⟨payload, rfl⟩ := baseKind value rfl
    simp [appends, injective.eq_iff]

/-- A run of dictionaries amounts to one that binds as the last binding delta does. -/
theorem runDelta_dict {payloads : List (Finmap fun _ : α => α)} (nonempty : payloads ≠ []) :
    ∃ merged, MergeRuns.runDelta (combine mutator) (payloads.map Var.dict) = some (.dict merged) ∧
        ∀ key, merged.lookup key = (payloads.filterMap (Finmap.lookup key)).getLast? := by
  cases payloads with
  | nil => exact absurd rfl nonempty
  | cons payload payloads =>
    refine ⟨payloads.foldl (fun entries delta => delta ∪ entries) payload, ?_, ?_⟩
    · rw [map_cons, MergeRuns.runDelta_cons, foldl_combine_dict]
    · intro key
      rw [lookup_foldl_union, filterMap_cons]
      cases payload.lookup key with
      | none => simp
      | some value =>
        cases payloads.filterMap (Finmap.lookup key) <;> simp [getLast?_cons]

theorem merge_strings_reverse_iff (nonempty : run ≠ []) (runKind : ∀ delta ∈ run, delta.kind = .str)
    (baseKind : ∀ value ∈ base, value.kind = .str) :
    base.merge (combine mutator) (MergeRuns.runDelta (combine mutator) run) =
        base.merge (combine mutator) (MergeRuns.runDelta (combine mutator) run.reverse) ↔
      (strings run).flatten = (strings run).reverse.flatten := by
  have isRun := isPayload_str.map_filterMap runKind
  unfold strings
  generalize run.filterMap _ = payloads at isRun ⊢
  subst isRun
  refine merge_appending_reverse_iff (fun _ _ => rfl) (fun _ _ => Var.str.inj)
    (by simpa using nonempty) fun value isBase => ?_
  obtain ⟨payload, -, same⟩ := isPayload_str.ofKind value (baseKind value isBase)
  exact ⟨payload, same⟩

theorem merge_lists_reverse_iff (nonempty : run ≠ []) (runKind : ∀ delta ∈ run, delta.kind = .list)
    (baseKind : ∀ value ∈ base, value.kind = .list) :
    base.merge (combine mutator) (MergeRuns.runDelta (combine mutator) run) =
        base.merge (combine mutator) (MergeRuns.runDelta (combine mutator) run.reverse) ↔
      (lists run).flatten = (lists run).reverse.flatten := by
  have isRun := isPayload_list.map_filterMap runKind
  unfold lists
  generalize run.filterMap _ = payloads at isRun ⊢
  subst isRun
  refine merge_appending_reverse_iff (fun _ _ => rfl) (fun _ _ => Var.list.inj)
    (by simpa using nonempty) fun value isBase => ?_
  obtain ⟨payload, -, same⟩ := isPayload_list.ofKind value (baseKind value isBase)
  exact ⟨payload, same⟩

theorem merge_dictionaries_reverse_iff
    (nonempty : run ≠ []) (runKind : ∀ delta ∈ run, delta.kind = .dict)
    (baseKind : ∀ value ∈ base, value.kind = .dict) :
    base.merge (combine mutator) (MergeRuns.runDelta (combine mutator) run) =
        base.merge (combine mutator) (MergeRuns.runDelta (combine mutator) run.reverse) ↔
      ∀ key, (bindings run key).head? = (bindings run key).getLast? := by
  have isRun := isPayload_dict.map_filterMap runKind
  unfold bindings dictionaries
  generalize run.filterMap _ = payloads at isRun ⊢
  subst isRun
  have payloadsNonempty : payloads ≠ [] := by simpa using nonempty
  have reversedNonempty : payloads.reverse ≠ [] := by simpa using nonempty
  obtain ⟨merged, isMerged, lookupMerged⟩ := runDelta_dict payloadsNonempty
  obtain ⟨reversed, isReversed, lookupReversed⟩ := runDelta_dict reversedNonempty
  have lookupHead : ∀ key, reversed.lookup key =
          (payloads.filterMap (Finmap.lookup key)).head? := by
    intro key
    rw [lookupReversed, filterMap_reverse, getLast?_reverse]
  have sameKeys : ∀ key, (merged.lookup key).isSome = (reversed.lookup key).isSome := by
    intro key
    rw [lookupMerged, lookupHead]
    cases payloads.filterMap (Finmap.lookup key) <;> simp
  rw [← map_reverse, isMerged, isReversed, merge_dict_inj baseKind sameKeys]
  constructor
  · intro same key
    rw [← lookupHead, ← lookupMerged, same]
  · intro same key
    rw [lookupHead, lookupMerged, same]

/-- Merging a run in either direction agrees exactly when it is order-insensitive. -/
theorem merge_runDelta_reverse_iff
    {kind : VarKind} (nonempty : run ≠ []) (runKind : ∀ delta ∈ run, delta.kind = kind)
    (baseKind : ∀ value ∈ base, value.kind = kind) :
    base.merge (combine mutator) (MergeRuns.runDelta (combine mutator) run) =
        base.merge (combine mutator) (MergeRuns.runDelta (combine mutator) run.reverse) ↔
      OrderInsensitive run := by
  have noStrings : kind ≠ .str → strings run = [] := isPayload_str.filterMap_otherKind runKind
  have noLists : kind ≠ .list → lists run = [] := isPayload_list.filterMap_otherKind runKind
  have noDictionaries : kind ≠ .dict → dictionaries run = [] :=
    isPayload_dict.filterMap_otherKind runKind
  by_cases orderFree : kind.orderFree = true
  · rw [(combine_commutativeOn mutator orderFree).runDelta_reverse runKind]
    refine iff_of_true rfl ⟨?_, ?_, ?_⟩
    · rw [noStrings (by rintro rfl; contradiction)]
      rfl
    · rw [noLists (by rintro rfl; contradiction)]
      rfl
    · intro key
      rw [bindings, noDictionaries (by rintro rfl; contradiction)]
      rfl
  · cases kind with
    | str =>
      rw [merge_strings_reverse_iff nonempty runKind baseKind]
      refine ⟨fun same => ⟨same, ?_, ?_⟩, OrderInsensitive.strings⟩
      · rw [noLists (by simp)]
        rfl
      · intro key
        rw [bindings, noDictionaries (by simp)]
        rfl
    | list =>
      rw [merge_lists_reverse_iff nonempty runKind baseKind]
      refine ⟨fun same => ⟨?_, same, ?_⟩, OrderInsensitive.lists⟩
      · rw [noStrings (by simp)]
        rfl
      · intro key
        rw [bindings, noDictionaries (by simp)]
        rfl
    | dict =>
      rw [merge_dictionaries_reverse_iff nonempty runKind baseKind]
      refine ⟨fun same => ⟨?_, ?_, same⟩, OrderInsensitive.bindings⟩
      · rw [noStrings (by simp)]
        rfl
      · rw [noLists (by simp)]
        rfl
    | _ => exact absurd rfl orderFree

end Direction

section OneRepo

variable {κ α : Type} [LinearOrder κ] [DecidableEq α]

/-- The read fold is the value of the history exactly when its newest run allows it. -/
theorem readFold_eq_valueOf_iff
    {newestFirst : List (Operation α)} (wellTyped : WellTyped newestFirst)
    (singleMutator : SingleMutatorRuns newestFirst) :
    readFold newestFirst = valueOf newestFirst ↔ OrderInsensitive (deferredRun newestFirst) := by
  have emptyRun : OrderInsensitive ([] : List (Var α)) := ⟨rfl, rfl, fun _ => rfl⟩
  cases newestFirst with
  | nil => exact iff_of_true rfl emptyRun
  | cons operation older =>
    cases operation with
    | tombstone | assign => exact iff_of_true rfl emptyRun
    | deferred mutator rhs =>
      obtain ⟨runKind, baseKind⟩ := wellTyped.deferredRun_kind
      rw [readFold_deferred singleMutator, valueOf_deferred wellTyped singleMutator]
      exact merge_runDelta_reverse_iff (by simp [deferredRun]) runKind baseKind

/--
For entries committed to one repo, the walker yields for a key the value of the
key's history exactly when the newest run of deferred operations is
order-insensitive.
-/
theorem readKey_eq_replay_iff_orderInsensitive
    {entries : List (Item κ α)} {key : κ} (wellTyped : WellTyped (keyHistory entries key).reverse)
    (singleMutator : SingleMutatorRuns (keyHistory entries key).reverse)
    (distinctIds : (keyUpdateIds entries key).Nodup) :
    readKey (repoWalker entries) key = replay (keyHistory entries key) ↔
      OrderInsensitive (deferredRun (keyHistory entries key).reverse) := by
  have meaning := replay_eq_valueOf wellTyped
  rw [reverse_reverse] at meaning
  rw [readKey_repoWalker wellTyped distinctIds, meaning, Except.ok.injEq]
  exact readFold_eq_valueOf_iff wellTyped singleMutator

end OneRepo

/-- Two increments and a delete of an integer key, then two more increments. -/
def counterCommits : List (Item Nat Nat) :=
  [{ key := 7, sequenceNumber := 1, mutator := .add, op := some (.int 5), updateId := some 1 },
   { key := 7, sequenceNumber := 2, mutator := .assign, op := none, updateId := some 2 },
   { key := 7, sequenceNumber := 3, mutator := .add, op := some (.int 2), updateId := some 3 },
   { key := 7, sequenceNumber := 4, mutator := .add, op := some (.int 3), updateId := some 4 }]

/-- Reads of a counter replay its commits exactly if the deferred ones do not mind order. -/
theorem readKey_eq_replay_counterCommits :
    readKey (repoWalker counterCommits) 7 = replay (keyHistory counterCommits 7) ↔
      OrderInsensitive (deferredRun (keyHistory counterCommits 7).reverse) := by
  apply readKey_eq_replay_iff_orderInsensitive
  · exact ⟨by decide, by decide⟩
  · decide
  · decide

/-- Two transactions that append to one string key. -/
def appendCommits : List (Item Nat Nat) :=
  [{ key := 7, sequenceNumber := 1, mutator := .add, op := some (.str [97]), updateId := some 1 },
   { key := 7, sequenceNumber := 2, mutator := .add, op := some (.str [98]), updateId := some 2 }]

/-- The walker reads `ba` where the history is `ab`. -/
theorem readKey_ne_replay_appendCommits : WellTyped (keyHistory appendCommits 7).reverse ∧
      SingleMutatorRuns (keyHistory appendCommits 7).reverse ∧
      (keyUpdateIds appendCommits 7).Nodup ∧
      readKey (repoWalker appendCommits) 7 = .ok (some (.str [98, 97])) ∧
      replay (keyHistory appendCommits 7) = .ok (some (.str [97, 98])) := by
  refine ⟨⟨?_, ?_⟩, ?_, ?_, ?_, ?_⟩
  all_goals decide

end Orly
