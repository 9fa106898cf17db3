import Orly.Mutation

/-!
# The fork watch of a POV under review

From the POV's fork on, the watch records the keys that its parent chain changes.  When one
of the POV's own updates reaches the parent, its overwrites and deletes of recorded keys are
conflicts.  In refusing mode the player tests an update before it promotes it; the test and
what it decides are two critical sections, and appends may come between them and before the
update arrives.
-/

namespace Orly

/-- `TForkWatch::TMode`. -/
inductive WatchMode where
  | report
  | refuse
deriving DecidableEq

/-- An entry of an update, as far as the watch reads it. -/
structure WatchedEntry (Key : Type) where
  key : Key
  mutator : Mutator
  isTombstone : Bool
deriving DecidableEq

/-- `TForkWatch::TConflict`. -/
structure Conflict (Key : Type) where
  number : Nat
  key : Key
  isDelete : Bool
  raced : Bool
deriving DecidableEq

/-- `TForkWatch`. -/
structure ForkWatch (Id Key : Type) where
  povId : Id
  chain : List Id
  mode : WatchMode
  maxKeys : Nat
  changed : Finset Key
  overflowed : Bool
  conflicts : List (Conflict Key)
  conflictCount : Nat
  blockingKeys : List (Conflict Key)
  forcedUpTo : Option Nat
  promotingForced : Bool

namespace ForkWatch

variable {Id Key : Type} (watch : ForkWatch Id Key)

/-- `TForkWatch::MaxConflicts`. -/
def maxConflicts : Nat := 10000

/-- The watch of a POV that has just been made. -/
def new (povId : Id) (chain : List Id) (mode : WatchMode) (maxKeys : Nat) : ForkWatch Id Key where
  povId := povId
  chain := chain
  mode := mode
  maxKeys := maxKeys
  changed := ∅
  overflowed := false
  conflicts := []
  conflictCount := 0
  blockingKeys := []
  forcedUpTo := none
  promotingForced := false

/-- `AddConflict`: number it, and drop the oldest if there are too many. -/
def addConflict (key : Key) (isDelete raced : Bool) : ForkWatch Id Key :=
  let conflicts :=
    watch.conflicts ++ [{ number := watch.conflictCount + 1, key, isDelete, raced }]
  { watch with
    conflictCount := watch.conflictCount + 1
    conflicts := if maxConflicts < conflicts.length then conflicts.tail else conflicts }

variable [DecidableEq Id] [Zero Id] [DecidableEq Key]

/-- The POV's own entries arrive; there is memory for `room` more keys, if it is bounded. -/
def arrive (watch : ForkWatch Id Key) (room : Option Nat) :
    List (WatchedEntry Key) → ForkWatch Id Key
  | [] => watch
  | entry :: entries =>
    if entry.mutator ≠ .assign then
      arrive watch room entries
    else if entry.key ∈ watch.changed ∨ watch.overflowed then
      if room = some 0 then
        { watch with conflictCount := watch.conflictCount + 1, overflowed := true }
      else
        let raced := decide (watch.mode = .refuse ∧ watch.promotingForced = false)
        let added := watch.addConflict entry.key entry.isTombstone raced
        arrive { added with changed := added.changed.erase entry.key } (room.map Nat.pred) entries
    else
      arrive watch room entries

/-- Entries from outside the chain are recorded, until there are too many or memory runs
out. -/
def record (watch : ForkWatch Id Key) (room : Option Nat) :
    List (WatchedEntry Key) → ForkWatch Id Key
  | [] => watch
  | entry :: entries =>
    if entry.key ∈ watch.changed then
      record watch room entries
    else if watch.maxKeys ≤ watch.changed.card then
      { watch with overflowed := true }
    else if room = some 0 then
      { watch with overflowed := true }
    else
      record { watch with changed := insert entry.key watch.changed } (room.map Nat.pred) entries

/-- `OnAppend`. -/
def onAppend (update : List (WatchedEntry Key))
    (promotedFrom : Id) (room : Option Nat) : ForkWatch Id Key :=
  if promotedFrom = watch.povId then
    watch.arrive room update
  else if promotedFrom ≠ 0 ∧ promotedFrom ∈ watch.chain then
    watch
  else if watch.overflowed then
    watch
  else
    watch.record room update

/-- `FindConflicts`. -/
def findConflicts (update : List (WatchedEntry Key)) : List (Conflict Key) :=
  (update.filter fun entry =>
    entry.mutator = .assign ∧ (watch.overflowed ∨ entry.key ∈ watch.changed)).map
      fun entry => { number := 0, key := entry.key, isDelete := entry.isTombstone, raced := false }

/-- The second critical section of `ShouldBlock`, and its answer. -/
def decideBlock (conflicts : List (Conflict Key)) (seqNum : Nat) : Bool × ForkWatch Id Key :=
  if conflicts = [] ∨ watch.forcedUpTo.any (seqNum ≤ ·) then
    (false, { watch with blockingKeys := [], promotingForced := decide (conflicts ≠ []) })
  else
    let shown := fun conflict : Conflict Key => (conflict.key, conflict.isDelete)
    let copies := conflicts.map fun conflict =>
      { number := 0, key := conflict.key, isDelete := conflict.isDelete, raced := false }
    let blockingKeys :=
      if watch.blockingKeys.map shown = conflicts.map shown then watch.blockingKeys else copies
    (true, { watch with blockingKeys, promotingForced := false })

omit [DecidableEq Id] [Zero Id] [DecidableEq Key] in
/-- `Force`. -/
def force (seqNum : Nat) : ForkWatch Id Key :=
  { watch with
    forcedUpTo :=
      match watch.forcedUpTo with
      | none => some seqNum
      | some upTo => if upTo < seqNum then some seqNum else some upTo
    blockingKeys := [] }

omit [DecidableEq Id] [Zero Id] [DecidableEq Key] in
/-- `Refork`. -/
def refork : ForkWatch Id Key :=
  { watch with changed := ∅, overflowed := false, blockingKeys := [] }

end ForkWatch

/-- What happens to a watch.  `ShouldBlock` is the two events `findConflicts` and `decide`. -/
inductive WatchEvent (Id Key : Type) where
  | append (update : List (WatchedEntry Key)) (promotedFrom : Id) (room : Option Nat)
  | findConflicts (update : List (WatchedEntry Key)) (seqNum : Nat)
  | decide
  | force (seqNum : Nat)
  | refork

/-- A watch and the player that tests updates against it. -/
structure WatchSystem (Id Key : Type) where
  watch : ForkWatch Id Key
  /-- What the player found, between the two halves of a test. -/
  tested : Option (List (Conflict Key) × Nat)
  /-- What `ShouldBlock` last returned. -/
  answer : Option Bool

namespace WatchSystem

variable {Id Key : Type} [DecidableEq Id] [Zero Id] [DecidableEq Key]

omit [DecidableEq Id] [Zero Id] [DecidableEq Key] in
def new (povId : Id) (chain : List Id) (mode : WatchMode) (maxKeys : Nat) : WatchSystem Id Key where
  watch := ForkWatch.new povId chain mode maxKeys
  tested := none
  answer := none

def step (system : WatchSystem Id Key) : WatchEvent Id Key → WatchSystem Id Key
  | .append update promotedFrom room =>
    { system with watch := system.watch.onAppend update promotedFrom room }
  | .findConflicts update seqNum =>
    { system with tested := some (system.watch.findConflicts update, seqNum) }
  | .decide =>
    match system.tested with
    | none => system
    | some (conflicts, seqNum) =>
      let decided := system.watch.decideBlock conflicts seqNum
      { watch := decided.2, tested := none, answer := some decided.1 }
  | .force seqNum => { system with watch := system.watch.force seqNum }
  | .refork => { system with watch := system.watch.refork }

def run (system : WatchSystem Id Key) (events : List (WatchEvent Id Key)) : WatchSystem Id Key :=
  events.foldl step system

end WatchSystem

end Orly
