import Orly.Mutation

namespace Orly

/-!
# The present walker

A context reads its repos through one merged walker.  The walker takes the
repos' entries in key order, one key's entries newest first and the repo nearest
the point of view first, keeps the newest entry of each key, passes over deleted
keys, and resolves a deferred mutation against the older entries of its key.

`TContext::TPresentWalker` keeps the heads of the repo walkers in a heap.  The
heap is modelled by the list of items it will still produce, in the order
`TChainOrder` gives them.
-/

open List

/-- The id of a transaction.  The zero id of the source is represented by `none`. -/
abbrev UpdateId := Nat

/-- One entry a walker yields (`TPresentWalker::TItem`); a tombstone has no value. -/
structure Item (κ α : Type) where
  key : κ
  sequenceNumber : Nat
  mutator : Mutator
  op : Option (Var α)
  updateId : Option UpdateId
  deriving DecidableEq

section Walker

variable {κ α : Type} [DecidableEq κ] [DecidableEq α]

/--
The loop of `ApplyDeferredFold`: fold the older entries of `key` into `acc`.
Returns the resolved value and the items left in the heap.
-/
def foldOlder (key : κ) (mutator : Mutator) : Var α → List UpdateId → List (Item κ α) →
      Except RuntimeError (Var α × List (Item κ α))
  | acc, _, [] => .ok (acc, [])
  | acc, seenUpdateIds, peek :: heap =>
    if peek.key ≠ key then
      .ok (acc, peek :: heap)
    else
      match peek.op with
      | none => .ok (acc, peek :: heap)
      | some peekValue =>
        if peek.mutator ≠ .assign ∧ peek.mutator ≠ mutator then
          .ok (acc, peek :: heap)
        else if ∃ id ∈ peek.updateId, id ∈ seenUpdateIds then
          foldOlder key mutator acc seenUpdateIds heap
        else if peek.mutator = .assign then do
          let acc ← mutate peekValue mutator acc
          return (acc, heap)
        else do
          let acc ← mutate acc mutator peekValue
          foldOlder key mutator acc (peek.updateId.toList ++ seenUpdateIds) heap

/-- `ApplyDeferredFold`: the item with its resolved value, tagged as an assignment. -/
def applyDeferredFold (item : Item κ α) (value : Var α) (heap : List (Item κ α)) :
    Except RuntimeError (Item κ α × List (Item κ α)) := do
  let (acc, heap) ← foldOlder item.key item.mutator value item.updateId.toList heap
  return ({ item with op := some acc, mutator := .assign }, heap)

/--
`Refresh`: the next item to yield and the heap behind it, or nothing when the
heap runs out.  `item` is the item the walker holds, if it has held one.
-/
def refresh (keysOnly : Bool) : Option (Item κ α) → List (Item κ α) →
      Except RuntimeError (Option (Item κ α × List (Item κ α)))
  | _, [] => .ok none
  | item, curItem :: heap =>
    if ∃ held ∈ item, held.key = curItem.key then
      refresh keysOnly item heap
    else
      match curItem.op with
      | none => refresh keysOnly (some curItem) heap
      | some value =>
        if isDeferSafeCommutative curItem.mutator ∧ keysOnly = false then
          some <$> applyDeferredFold curItem value heap
        else
          .ok (some (curItem, heap))

/-- The order of the heap: by key only, so that equal keys keep the repo order. -/
def chainOrder [LinearOrder κ] (lhs rhs : Item κ α) : Prop :=
  lhs.key ≤ rhs.key

instance [LinearOrder κ] : DecidableRel (@chainOrder κ α _) :=
  fun lhs rhs => inferInstanceAs (Decidable (lhs.key ≤ rhs.key))

/-- One repo's walker: its entries, given in commit order, by key and newest first. -/
def repoWalker [LinearOrder κ] (entries : List (Item κ α)) : List (Item κ α) :=
  entries.foldl (fun walker entry => walker.orderedInsert chainOrder entry) []

/--
`TContext::operator[]`: the value an exact-point walker over `stream` yields.
The layers of such a walker yield only the entries of its key.
-/
def readKey (stream : List (Item κ α)) (key : κ) : Except RuntimeError (Option (Var α)) := do
  let yielded ← refresh false none (stream.filter (·.key = key))
  return yielded.bind (·.1.op)

end Walker

section FoldOlder

variable {κ α : Type} [DecidableEq κ] [DecidableEq α] {key : κ} {mutator : Mutator} {acc : Var α}
  {seenUpdateIds : List UpdateId} {peek : Item κ α} {heap : List (Item κ α)} {peekValue : Var α}

theorem foldOlder_tombstone (isTombstone : peek.op = none) :
    foldOlder key mutator acc seenUpdateIds (peek :: heap) = .ok (acc, peek :: heap) := by
  simp [foldOlder, isTombstone]

theorem foldOlder_otherMutator
    (hasValue : peek.op = some peekValue) (notAssign : peek.mutator ≠ .assign)
    (otherMutator : peek.mutator ≠ mutator) :
    foldOlder key mutator acc seenUpdateIds (peek :: heap) = .ok (acc, peek :: heap) := by
  simp [foldOlder, hasValue, notAssign, otherMutator]

theorem foldOlder_seen (sameKey : peek.key = key) (hasValue : peek.op = some peekValue)
    (foldable : peek.mutator = .assign ∨ peek.mutator = mutator)
    (seen : ∃ id ∈ peek.updateId, id ∈ seenUpdateIds) :
    foldOlder key mutator acc seenUpdateIds (peek :: heap) =
      foldOlder key mutator acc seenUpdateIds heap := by
  have consumed : ¬ (peek.mutator ≠ .assign ∧ peek.mutator ≠ mutator) := by
    tauto
  rw [foldOlder]
  simp only [sameKey, hasValue, consumed, seen, ne_eq, not_true_eq_false, ↓reduceIte]

theorem foldOlder_assign (sameKey : peek.key = key) (hasValue : peek.op = some peekValue)
    (isAssign : peek.mutator = .assign) (fresh : ¬ ∃ id ∈ peek.updateId, id ∈ seenUpdateIds) :
    foldOlder key mutator acc seenUpdateIds (peek :: heap) =
      (mutate peekValue mutator acc).map (·, heap) := by
  simp only [foldOlder, sameKey, hasValue, isAssign, fresh]
  cases mutate peekValue mutator acc <;> simp <;> rfl

theorem foldOlder_delta (sameKey : peek.key = key) (hasValue : peek.op = some peekValue)
    (notAssign : peek.mutator ≠ .assign) (sameMutator : peek.mutator = mutator)
    (fresh : ¬ ∃ id ∈ peek.updateId, id ∈ seenUpdateIds) :
    foldOlder key mutator acc seenUpdateIds (peek :: heap) =
      (mutate acc mutator peekValue).bind fun acc =>
        foldOlder key mutator acc (peek.updateId.toList ++ seenUpdateIds) heap := by
  subst sameMutator
  simp only [foldOlder, sameKey, hasValue, notAssign, fresh]
  cases mutate acc peek.mutator peekValue <;> simp <;> rfl

end FoldOlder

section Refresh

variable {κ α : Type} [DecidableEq κ] [DecidableEq α] {keysOnly : Bool} {item : Option (Item κ α)}
  {curItem : Item κ α} {heap : List (Item κ α)} (newKey : ¬ ∃ held ∈ item, held.key = curItem.key)

include newKey

theorem refresh_tombstone (isTombstone : curItem.op = none) :
    refresh keysOnly item (curItem :: heap) = refresh keysOnly (some curItem) heap := by
  rw [refresh, if_neg newKey, isTombstone]

theorem refresh_resolved {value : Var α} (hasValue : curItem.op = some value)
    (resolved : isDeferSafeCommutative curItem.mutator = false) :
    refresh keysOnly item (curItem :: heap) = .ok (some (curItem, heap)) := by
  rw [refresh, if_neg newKey, hasValue]
  simp [resolved]

theorem refresh_deferred {value : Var α} (hasValue : curItem.op = some value)
    (deferred : isDeferSafeCommutative curItem.mutator = true) :
    refresh false item (curItem :: heap) = some <$> applyDeferredFold curItem value heap := by
  rw [refresh, if_neg newKey, hasValue]
  simp [deferred]

end Refresh

/-- A walker passes over the older entries of the key it holds. -/
theorem refresh_heldKey [DecidableEq κ] [DecidableEq α] {keysOnly : Bool} {held : Item κ α}
    {older rest : List (Item κ α)} (sameKey : ∀ item ∈ older, item.key = held.key) :
    refresh keysOnly (some held) (older ++ rest) = refresh keysOnly (some held) rest := by
  induction older with
  | nil => rfl
  | cons item older ih =>
    have itemKey : held.key = item.key := (sameKey item mem_cons_self).symm
    have tailKeys : ∀ other ∈ older, other.key = held.key := by
      intro other mem
      exact sameKey other (mem_cons_of_mem _ mem)
    rw [cons_append, refresh]
    simp [itemKey, ← ih tailKeys]

section Streams

variable {κ α : Type} [LinearOrder κ]

theorem filter_orderedInsert (key : κ) (entry : Item κ α) (walker : List (Item κ α)) :
    (walker.orderedInsert chainOrder entry).filter (·.key = key) =
      ([entry].filter (·.key = key)) ++ walker.filter (·.key = key) := by
  induction walker with
  | nil => simp
  | cons head walker ih =>
    rw [List.orderedInsert]
    by_cases before : chainOrder entry head
    · simp only [before, ↓reduceIte]
      exact filter_append [entry] (head :: walker)
    · simp only [before, ↓reduceIte, filter_cons, ih]
      have keysDiffer : entry.key ≠ head.key := by
        intro sameKey
        exact before (le_of_eq sameKey)
      by_cases entryKey : entry.key = key
      · have headKey : head.key ≠ key := fun isKey =>
          keysDiffer (entryKey.trans isKey.symm)
        simp [entryKey, headKey]
      · simp [entryKey]

/-- A repo's walker yields the entries of one key newest first. -/
theorem filter_repoWalker (entries : List (Item κ α)) (key : κ) :
    (repoWalker entries).filter (·.key = key) = (entries.filter (·.key = key)).reverse := by
  induction entries using List.reverseRecOn with
  | nil => rfl
  | append_singleton entries entry ih =>
    rw [repoWalker] at ih ⊢
    rw [foldl_append, foldl_cons, foldl_nil, filter_orderedInsert, ih, filter_append,
      reverse_append]
    congr 1
    by_cases entryKey : entry.key = key <;> simp [entryKey]

end Streams

end Orly
