import Orly.RetainingFold

namespace Orly

/-!
# Merging data files

`TMergeDataFile` merges data files into one.  A tail merge first collects the sequence
numbers it keeps: those of the files' current entries, of the histories that a delta
needs, and, with a retention window, of the versions from `retain_from` on.  It then
keeps every history entry of those sequence numbers, so that no update is split, merges
what it keeps by key and newest first, and writes the update index.

A key stands for an index id and a key of that index, and a file has the indexes of its
keys.
-/

/-- A key of a data file: its newest entry in the file and the older ones. -/
structure FileKey (κ α : Type) where
  key : κ
  current : FoldEntry α
  history : List (FoldEntry α)

/-- A data file: the sequence range the file map records, and its keys. -/
structure DataFile (κ α : Type) where
  lowestSeq : Nat
  highestSeq : Nat
  keys : List (FileKey κ α)

/-- The entries of a key in a file, newest first. -/
def FileKey.entries (fileKey : FileKey κ α) : List (FoldEntry α) :=
  fileKey.current :: fileKey.history

/-- The entries of a key among the keys of a file. -/
def entriesOf [DecidableEq κ] (keys : List (FileKey κ α)) (key : κ) : List (FoldEntry α) :=
  match keys.find? (·.key = key) with
  | some fileKey => fileKey.entries
  | none => []

/-- A newer entry comes first. -/
def NewestFirst (entries : List (FoldEntry α)) : Prop :=
  entries.Pairwise fun newer older => older.seqNum < newer.seqNum

/-- A file as a flush or a merge writes it. -/
structure DataFile.WellFormed [LinearOrder κ] (file : DataFile κ α) : Prop where
  range : file.lowestSeq ≤ file.highestSeq
  sorted : file.keys.Pairwise fun left right => left.key < right.key
  newestFirst : ∀ fileKey ∈ file.keys, NewestFirst fileKey.entries
  inRange : ∀ fileKey ∈ file.keys, ∀ entry ∈ fileKey.entries,
    file.lowestSeq ≤ entry.seqNum ∧ entry.seqNum ≤ file.highestSeq

/-- The sequence ranges of two files have nothing in common. -/
def DataFile.Disjoint (left right : DataFile κ α) : Prop :=
  left.highestSeq < right.lowestSeq ∨ right.highestSeq < left.lowestSeq

/-! ## The keeper -/

/-- What a merge may drop: history (`CanTail`), and with it lone tombstones. -/
structure MergeFlags where
  canTail : Bool
  canTailTombstones : Bool
  retainFrom : Option Nat

/-- An Assign or a tombstone, which hides what is older. -/
def FoldEntry.IsAbsolute (entry : FoldEntry α) : Prop :=
  entry.mutator = .assign ∨ entry.op = none

instance (entry : FoldEntry α) : Decidable entry.IsAbsolute :=
  inferInstanceAs (Decidable (_ ∨ _))

namespace MergeFlags

variable (flags : MergeFlags)

/-- A tombstone without history goes, with the key. -/
def dropsKey (fileKey : FileKey κ α) : Bool :=
  flags.canTail && flags.canTailTombstones && fileKey.current.op.isNone && fileKey.history.isEmpty

/-- The sequence numbers of a history down to the first Assign or tombstone at or below
`retainFrom`. -/
def retainedSeqs (retainFrom : Nat) : List (FoldEntry α) → List Nat
  | [] => []
  | entry :: older =>
    if entry.seqNum ≤ retainFrom ∧ entry.IsAbsolute then [entry.seqNum]
    else entry.seqNum :: retainedSeqs retainFrom older

/-- The sequence numbers that one key of a file keeps. -/
def keptSeqs (fileKey : FileKey κ α) : List Nat :=
  if flags.dropsKey fileKey then []
  else
    fileKey.current.seqNum ::
      if fileKey.current.mutator ≠ .assign then fileKey.history.map (·.seqNum)
      else
        match flags.retainFrom with
        | none => []
        | some retainFrom =>
          if retainFrom < fileKey.current.seqNum then
            retainedSeqs retainFrom
              (fileKey.history.mergeSort fun newer older => older.seqNum ≤ newer.seqNum)
          else []

/-- `seq_keeper`, over every key of every file. -/
def seqKeeper (files : List (DataFile κ α)) : List Nat :=
  files.flatMap fun file => file.keys.flatMap flags.keptSeqs

end MergeFlags

/-! ## The merge -/

/-- `TSortedKey`: an entry under a cursor, of the current keys or of the history. -/
structure SortedKey (κ α : Type) where
  key : κ
  entry : FoldEntry α
  isCurrent : Bool

/-- `TSortedKey::operator<`: by key, then the newer entry first. -/
def SortedKey.Before [LinearOrder κ] (left right : SortedKey κ α) : Prop :=
  left.key < right.key ∨ left.key = right.key ∧ right.entry.seqNum ≤ left.entry.seqNum

instance [LinearOrder κ] : DecidableRel (@SortedKey.Before κ α _) :=
  fun _ _ => inferInstanceAs (Decidable (_ ∨ _))

namespace MergeFlags

variable (flags : MergeFlags)

/-- The history entries of a key that the merge keeps. -/
def keptHistory (keeper : List Nat) (fileKey : FileKey κ α) : List (FoldEntry α) :=
  if flags.canTail then fileKey.history.filter (·.seqNum ∈ keeper) else fileKey.history

/-- The cursor over the current keys of a file. -/
def currentCursor (file : DataFile κ α) : List (SortedKey κ α) :=
  (file.keys.filter fun fileKey => !flags.dropsKey fileKey).map fun fileKey =>
    ⟨fileKey.key, fileKey.current, true⟩

/-- The cursor over the history of a file. -/
def historyCursor (keeper : List Nat) (file : DataFile κ α) : List (SortedKey κ α) :=
  file.keys.flatMap fun fileKey =>
    (flags.keptHistory keeper fileKey).map fun entry => ⟨fileKey.key, entry, false⟩

/-- What the heap over all cursors yields. -/
def heapOrder [LinearOrder κ] (keeper : List Nat) (files : List (DataFile κ α)) :
    List (SortedKey κ α) :=
  files.foldr
    (fun file rest =>
      (flags.currentCursor file).merge
        ((flags.historyCursor keeper file).merge rest (SortedKey.Before · ·))
        (SortedKey.Before · ·)) []

end MergeFlags

/-- `PushCurKey` for the first entry of a key, `PushHistKey` for the others, which belong
to the key written last. -/
def pushKey [DecidableEq κ] (written : List (FileKey κ α)) (item : SortedKey κ α) :
    List (FileKey κ α) :=
  match written with
  | [] => if item.isCurrent then [⟨item.key, item.entry, []⟩] else []
  | last :: earlier =>
    if item.isCurrent ∧ last.key ≠ item.key then ⟨item.key, item.entry, []⟩ :: written
    else { last with history := last.history ++ [item.entry] } :: earlier

/-- The keys of the output, in key order. -/
def writeKeys [DecidableEq κ] (items : List (SortedKey κ α)) : List (FileKey κ α) :=
  (items.foldl pushKey []).reverse

/--
The update index, from the sequence numbers of what was written: its lowest and highest.
The writer reads the first of them before it looks for one, so `none` stands for the read
through a cursor over nothing.
-/
def writeUpdateIndex (seqs : List Nat) : Option (Nat × Nat) :=
  match seqs with
  | [] => none
  | seq :: others => some (others.foldl min seq, others.foldl max seq)

/-- The merge of all indexes: the output records the whole range of its inputs. -/
def mergeIndexes [LinearOrder κ] (flags : MergeFlags) (files : List (DataFile κ α)) :
    Option (DataFile κ α) :=
  let items := flags.heapOrder (flags.seqKeeper files) files
  (writeUpdateIndex (items.map (·.entry.seqNum))).map fun range =>
    { lowestSeq := (files.map (·.lowestSeq)).foldl min range.1
      highestSeq := (files.map (·.highestSeq)).foldl max range.2
      keys := writeKeys items }

/-- The flags `MergeFiles` merges with: only a repo without a parent is tailed, and
tombstones only from a single file. -/
def mergeFlags (hasParent canTail canTailTombstone : Bool) (retainFrom : Option Nat)
    (files : List (DataFile κ α)) : MergeFlags where
  canTail := canTail && !hasParent
  canTailTombstones := canTail && !hasParent && canTailTombstone && files.length == 1
  retainFrom := retainFrom

/-! ## Reads -/

/-- The entries of a key in several files, newest first. -/
def runEntries [DecidableEq κ] (files : List (DataFile κ α)) (key : κ) : List (FoldEntry α) :=
  (files.flatMap fun file => entriesOf file.keys key).mergeSort
    fun newer older => older.seqNum ≤ newer.seqNum

/-- The items that walkers over several files yield for a key. -/
def runItems [DecidableEq κ] (files : List (DataFile κ α)) (key : κ) : List (Item κ α) :=
  (runEntries files key).map (FoldEntry.toItem key)

end Orly
