import Orly.TailMergeLaws

namespace Orly

/-!
# Reads of a merged file

A read of a key stops at an Assign or at a tombstone, so what a merge drops below the
newest such entry is seen by no read at the latest version, and what it drops below the
newest such entry at or below `retain_from` by no read from `retain_from` on.  A
lone tombstone may go when nothing older of its key is left for it to hide.

The arena of the index a merge visits first comes first in the file, and a merge that has
no key left for it gives no file.
-/

open List MergeFlags

variable {κ α : Type} [DecidableEq κ] [DecidableEq α]

/-! ## What a read does not see -/

section Below

variable {key : κ} {first second third : List (Item κ α)}

/-- No read of a key tells one tail of its entries from another. -/
def SameBelow (key : κ) (first second : List (Item κ α)) : Prop :=
  ∀ above, readKey (above ++ first) key = readKey (above ++ second) key

namespace SameBelow

theorem refl (key : κ) (items : List (Item κ α)) : SameBelow key items items := fun _ => rfl

theorem trans (left : SameBelow key first second) (right : SameBelow key second third) :
    SameBelow key first third :=
  fun above => (left above).trans (right above)

theorem symm (same : SameBelow key first second) : SameBelow key second first :=
  fun above => (same above).symm

theorem append (same : SameBelow key first second) (above : List (Item κ α)) :
    SameBelow key (above ++ first) (above ++ second) := by
  intro further
  rw [← append_assoc, ← append_assoc]
  exact same (further ++ above)

end SameBelow

/-- Two tails are the same to a deferred fold if they are when it comes to them. -/
theorem foldOlder_append {mutator : Mutator}
    (sameFold : ∀ (acc : Var α) seen, (foldOlder key mutator acc seen first).map Prod.fst =
        (foldOlder key mutator acc seen second).map Prod.fst) (above : List (Item κ α))
    (aboveKeys : ∀ item ∈ above, item.key = key) (acc : Var α) (seen : List UpdateId) :
    (foldOlder key mutator acc seen (above ++ first)).map Prod.fst =
      (foldOlder key mutator acc seen (above ++ second)).map Prod.fst := by
  induction above generalizing acc seen with
  | nil => exact sameFold acc seen
  | cons item above ih =>
    obtain ⟨isKey, tailKeys⟩ := forall_mem_cons.mp aboveKeys
    rw [cons_append, cons_append]
    cases hasValue : item.op with
    | none => rw [foldOlder_tombstone hasValue, foldOlder_tombstone hasValue]; rfl
    | some value =>
      by_cases foldable : item.mutator = .assign ∨ item.mutator = mutator
      case neg =>
        obtain ⟨notAssign, otherMutator⟩ := not_or.mp foldable
        rw [foldOlder_otherMutator hasValue notAssign otherMutator,
          foldOlder_otherMutator hasValue notAssign otherMutator]
        rfl
      by_cases isSeen : ∃ id ∈ item.updateId, id ∈ seen
      case pos =>
        rw [foldOlder_seen isKey hasValue foldable isSeen,
          foldOlder_seen isKey hasValue foldable isSeen]
        exact ih tailKeys acc seen
      by_cases isAssign : item.mutator = .assign
      case pos =>
        rw [foldOlder_assign isKey hasValue isAssign isSeen,
          foldOlder_assign isKey hasValue isAssign isSeen]
        cases mutate value mutator acc <;> rfl
      have sameMutator := foldable.resolve_left isAssign
      rw [foldOlder_delta isKey hasValue isAssign sameMutator isSeen,
        foldOlder_delta isKey hasValue isAssign sameMutator isSeen]
      cases mutate acc mutator value with
      | error failure => rfl
      | ok folded => exact ih tailKeys folded _

/-- A read at entries that all have its key. -/
theorem readKey_ofKey (keys : ∀ item ∈ first, item.key = key) :
    readKey first key = (refresh false none first).map fun yielded =>
      yielded.bind (·.1.op) := by
  have all : first.filter (·.key = key) = first :=
    filter_eq_self.mpr fun item mem => by simpa using keys item mem
  rw [readKey, all]
  cases refresh false none first <;> rfl

/-- A walker that holds a key finds nothing more of it. -/
theorem refresh_held_nil {held : Item κ α} (keys : ∀ item ∈ first, item.key = held.key) :
    refresh false (some held) first = .ok none := by
  have passed : refresh false (some held) (first ++ []) = refresh false (some held) [] :=
    refresh_heldKey keys
  rw [append_nil] at passed
  rw [passed, refresh]

/-- Two tails of a key's entries are the same to every read if they are the same to a read
that begins with them and to a fold that comes to them. -/
theorem sameBelow_of_fold
    (firstKeys : ∀ item ∈ first, item.key = key) (secondKeys : ∀ item ∈ second, item.key = key)
    (sameRead : readKey first key = readKey second key)
    (sameFold : ∀ (mutator : Mutator) (acc : Var α) seen,
      (foldOlder key mutator acc seen first).map Prod.fst =
        (foldOlder key mutator acc seen second).map Prod.fst) :
    SameBelow key first second := by
  intro above
  have filtered : ∀ tail : List (Item κ α), readKey (above ++ tail) key =
      readKey (above.filter (·.key = key) ++ tail) key := by
    intro tail
    simp only [readKey, filter_append, filter_filter, Bool.and_self]
  rw [filtered, filtered]
  have aboveKeys : ∀ item ∈ above.filter (·.key = key), item.key = key := fun item mem => by
    simpa using (mem_filter.mp mem).2
  generalize above.filter (·.key = key) = above at aboveKeys
  cases above with
  | nil => exact sameRead
  | cons item above =>
    obtain ⟨isKey, tailKeys⟩ := forall_mem_cons.mp aboveKeys
    have allKeys : ∀ {tail : List (Item κ α)}, (∀ other ∈ tail, other.key = key) →
        ∀ other ∈ above ++ tail, other.key = key := fun inTail other mem =>
      (mem_append.mp mem).elim (tailKeys other) (inTail other)
    rw [cons_append, cons_append, readKey_ofKey (forall_mem_cons.mpr ⟨isKey, allKeys firstKeys⟩),
      readKey_ofKey (forall_mem_cons.mpr ⟨isKey, allKeys secondKeys⟩)]
    have noneHeld : ¬ ∃ held ∈ (none : Option (Item κ α)), held.key = item.key := by simp
    cases hasValue : item.op with
    | none =>
      rw [refresh_tombstone noneHeld hasValue, refresh_tombstone noneHeld hasValue,
        refresh_held_nil (isKey ▸ allKeys firstKeys),
        refresh_held_nil (isKey ▸ allKeys secondKeys)]
    | some value =>
      by_cases deferred : isDeferSafeCommutative item.mutator = true
      · have folds := foldOlder_append (sameFold item.mutator) above tailKeys value
          item.updateId.toList
        rw [refresh_deferred noneHeld hasValue deferred,
          refresh_deferred noneHeld hasValue deferred, applyDeferredFold,
          applyDeferredFold, isKey]
        revert folds
        cases foldOlder key item.mutator value item.updateId.toList (above ++ first) <;>
          cases foldOlder key item.mutator value item.updateId.toList (above ++ second)
        all_goals
          intro folds
          simp_all [Except.map, bind, Except.bind, pure, Except.pure, Functor.map]
      · rw [refresh_resolved noneHeld hasValue (by simpa using deferred),
          refresh_resolved noneHeld hasValue (by simpa using deferred)]
        rfl

/-- A read sees the entries of its key only. -/
theorem sameBelow_filter (key : κ) (items : List (Item κ α)) :
    SameBelow key items (items.filter (·.key = key)) := by
  intro above
  simp only [readKey, filter_append, filter_filter, Bool.and_self]

/-- A read sees nothing below an Assign or a tombstone of a file. -/
theorem sameBelow_absolute (key : κ) {entry : FoldEntry α} (absolute : entry.IsAbsolute)
    (first second : List (Item κ α)) :
    SameBelow key (entry.toItem key :: first) (entry.toItem key :: second) := by
  have filtered : ∀ tail : List (Item κ α), SameBelow key (entry.toItem key :: tail)
      (entry.toItem key :: tail.filter (·.key = key)) :=
    fun tail => (sameBelow_filter key tail).append [entry.toItem key]
  refine (filtered first).trans (SameBelow.trans ?_ (filtered second).symm)
  have keys : ∀ tail : List (Item κ α), ∀ item ∈ entry.toItem key :: tail.filter (·.key = key),
      item.key = key := by
    intro tail item mem
    rcases mem_cons.mp mem with rfl | inTail
    · rfl
    · simpa using (mem_filter.mp inTail).2
  have noneHeld : ¬ ∃ held ∈ (none : Option (Item κ α)), held.key = (entry.toItem key).key := by
    simp
  refine sameBelow_of_fold (keys first) (keys second) ?_ ?_
  · rw [readKey_ofKey (keys first), readKey_ofKey (keys second)]
    have tailKeys : ∀ tail : List (Item κ α), ∀ item ∈ tail.filter (·.key = key),
        item.key = (entry.toItem key).key :=
      fun tail item inTail => keys tail item (mem_cons_of_mem _ inTail)
    cases hasValue : (entry.toItem key).op with
    | none =>
      rw [refresh_tombstone noneHeld hasValue, refresh_tombstone noneHeld hasValue,
        refresh_held_nil (tailKeys first), refresh_held_nil (tailKeys second)]
    | some value =>
      have isAssign : (entry.toItem key).mutator = .assign :=
        absolute.resolve_right fun isNone => nomatch hasValue.symm.trans isNone
      rw [refresh_resolved noneHeld hasValue (by rw [isAssign]; rfl),
        refresh_resolved noneHeld hasValue (by rw [isAssign]; rfl)]
      rfl
  · intro mutator acc seen
    cases hasValue : (entry.toItem key).op with
    | none => rw [foldOlder_tombstone hasValue, foldOlder_tombstone hasValue]; rfl
    | some value =>
      have isAssign : (entry.toItem key).mutator = .assign :=
        absolute.resolve_right fun isNone => nomatch hasValue.symm.trans isNone
      have fresh : ¬ ∃ id ∈ (entry.toItem key).updateId, id ∈ seen := fun ⟨_, isNone, _⟩ =>
        nomatch isNone
      have isKey : (entry.toItem key).key = key := rfl
      rw [foldOlder_assign isKey hasValue isAssign fresh,
        foldOlder_assign isKey hasValue isAssign fresh]
      cases mutate value mutator acc <;> rfl

/-- A tombstone over nothing of its key is no different from nothing. -/
theorem sameBelow_loneTombstone
    {entry : FoldEntry α} (isTombstone : entry.op = none) {older : List (Item κ α)}
    (nothing : ∀ item ∈ older, item.key ≠ key) :
    SameBelow key older (entry.toItem key :: older) := by
  have nothingLeft : older.filter (·.key = key) = [] :=
    filter_eq_nil_iff.mpr fun item mem => by simpa using nothing item mem
  have olderIs : SameBelow key older [] := nothingLeft ▸ sameBelow_filter key older
  refine olderIs.trans (SameBelow.trans ?_ (olderIs.symm.append [entry.toItem key]))
  refine sameBelow_of_fold (by simp) (by simp [FoldEntry.toItem]) ?_ ?_
  · simp [readKey, refresh, FoldEntry.toItem, isTombstone]
  · intro mutator acc seen
    have noValue : (entry.toItem key).op = none := isTombstone
    rw [singleton_append, foldOlder_tombstone noValue]
    rfl

end Below

/-! ## What a merge keeps -/

section Keeper

variable {flags : MergeFlags} {keeper : List Nat} {sees : Nat → Bool}
  {fileKey : FileKey κ α} {history : List (FoldEntry α)}

omit [DecidableEq α] in
/-- A retained history is whole, or goes down to an Assign or a tombstone at or below
`retainFrom`. -/
theorem retainedSeqs_cases (retainFrom : Nat) (history : List (FoldEntry α)) :
    (∀ entry ∈ history, entry.seqNum ∈ retainedSeqs retainFrom history) ∨
      ∃ newer ground older, history = newer ++ ground :: older ∧ ground.IsAbsolute ∧
        ground.seqNum ≤ retainFrom ∧
        ∀ entry ∈ newer ++ [ground], entry.seqNum ∈ retainedSeqs retainFrom history := by
  induction history with
  | nil => exact .inl fun entry mem => absurd mem not_mem_nil
  | cons entry history ih =>
    unfold retainedSeqs
    split
    case isTrue isGround =>
      exact .inr ⟨[], entry, history, rfl, isGround.2, isGround.1, by simp⟩
    case isFalse =>
      rcases ih with all | ⟨newer, ground, older, rfl, isGround, below, kept⟩
      · refine .inl (forall_mem_cons.mpr ⟨mem_cons_self, ?_⟩)
        exact fun other mem => mem_cons_of_mem _ (all other mem)
      · refine .inr ⟨entry :: newer, ground, older, rfl, isGround, below, ?_⟩
        refine forall_mem_cons.mpr ⟨mem_cons_self, ?_⟩
        exact fun other mem => mem_cons_of_mem _ (kept other mem)

/-- What a reader sees: everything, or at least what is at or below `retain_from`. -/
def MergeFlags.Window (flags : MergeFlags) (sees : Nat → Bool) : Prop :=
  (∀ seq, sees seq = true) ∨
    ∃ retainFrom, flags.retainFrom = some retainFrom ∧ ∀ seq ≤ retainFrom, sees seq = true

/-- The items of some entries that a reader sees. -/
def seenItems (sees : Nat → Bool) (key : κ) (entries : List (FoldEntry α)) : List (Item κ α) :=
  (entries.filter (sees ·.seqNum)).map (FoldEntry.toItem key)

omit [DecidableEq κ] [DecidableEq α] in
theorem seenItems_append (sees : Nat → Bool) (key : κ) (newer older : List (FoldEntry α)) :
    seenItems sees key (newer ++ older) = seenItems sees key newer ++ seenItems sees key older := by
  simp [seenItems]

/-- The entries below a seen Assign or tombstone do not matter. -/
theorem seenItems_sameBelow (key : κ) {ground : FoldEntry α} (absolute : ground.IsAbsolute)
    (isSeen : sees ground.seqNum = true) (newer kept all : List (FoldEntry α))
    (older : List (Item κ α)) :
    SameBelow key (seenItems sees key (newer ++ ground :: kept) ++ older)
      (seenItems sees key (newer ++ ground :: all) ++ older) := by
  have split : ∀ tail, seenItems sees key (newer ++ ground :: tail) ++ older =
      seenItems sees key newer ++ (ground.toItem key :: (seenItems sees key tail ++ older)) := by
    intro tail
    simp [seenItems, isSeen]
  rw [split, split]
  exact (sameBelow_absolute key absolute _ _).append _

/-- What a merge keeps of a key that stays reads as all of it. -/
theorem keptOf_sameBelow
    (key : κ) (newestFirst : NewestFirst fileKey.entries) (stays : flags.dropsKey fileKey = false)
    (kept : ∀ seq ∈ flags.keptSeqs fileKey, seq ∈ keeper) (window : flags.Window sees)
    (older : List (Item κ α)) :
    SameBelow key (seenItems sees key (flags.keptOf keeper fileKey) ++ older)
      (seenItems sees key fileKey.entries ++ older) := by
  have keptIs : flags.keptOf keeper fileKey =
      fileKey.current :: flags.keptHistory keeper fileKey := by
    simp [keptOf, stays]
  by_cases whole : flags.keptHistory keeper fileKey = fileKey.history
  · rw [keptIs, whole]
    exact SameBelow.refl _ _
  have tails : flags.keptHistory keeper fileKey = fileKey.history.filter (·.seqNum ∈ keeper) := by
    unfold MergeFlags.keptHistory at whole ⊢
    split
    case isTrue => rfl
    case isFalse off => simp [off] at whole
  have someGone : ¬ ∀ entry ∈ fileKey.history, entry.seqNum ∈ keeper := by
    intro all
    refine whole (tails.trans (filter_eq_self.mpr fun entry mem => ?_))
    simpa using all entry mem
  have isAssign : fileKey.current.mutator = .assign := by
    by_contra notAssign
    refine someGone fun entry mem => kept _ ?_
    simp only [keptSeqs, stays]
    simp [notAssign, mem_map_of_mem mem]
  rw [keptIs, FileKey.entries]
  by_cases currentSeen : sees fileKey.current.seqNum = true
  · exact seenItems_sameBelow key (.inl isAssign) currentSeen [] _ _ older
  rcases window with seesAll | ⟨retainFrom, isRetained, seesBelow⟩
  · exact absurd (seesAll _) currentSeen
  have above : retainFrom < fileKey.current.seqNum := by
    by_contra notAbove
    exact currentSeen (seesBelow _ (by omega))
  have sorted : fileKey.history.mergeSort (fun newer older => older.seqNum ≤ newer.seqNum) =
      fileKey.history := by
    refine mergeSort_of_pairwise ((pairwise_cons.mp newestFirst).2.imp ?_)
    intro newer older less
    simpa using less.le
  have retained : ∀ seq ∈ retainedSeqs retainFrom fileKey.history, seq ∈ keeper := by
    intro seq mem
    refine kept seq ?_
    simp only [keptSeqs, stays]
    simp [isAssign, isRetained, above, sorted, mem]
  rcases retainedSeqs_cases retainFrom fileKey.history with
    all | ⟨newer, ground, below, isHistory, absolute, atOrBelow, keptDown⟩
  · exact absurd (fun entry mem => retained _ (all entry mem)) someGone
  · have keptNewer : (newer ++ [ground]).filter (·.seqNum ∈ keeper) = newer ++ [ground] := by
      refine filter_eq_self.mpr fun entry mem => ?_
      simpa using retained _ (keptDown entry mem)
    have keptHistory : flags.keptHistory keeper fileKey =
        newer ++ ground :: below.filter (·.seqNum ∈ keeper) := by
      rw [tails, isHistory, append_cons, filter_append, keptNewer, append_assoc, singleton_append]
    rw [keptHistory, isHistory]
    exact seenItems_sameBelow key absolute (seesBelow _ atOrBelow) (fileKey.current :: newer)
      _ _ older

end Keeper

section Merge

variable {κ α : Type} [LinearOrder κ] [DecidableEq α] {flags : MergeFlags} {keeper : List Nat}
  {sees : Nat → Bool} {files : List (DataFile κ α)} {file out : DataFile κ α}

omit [LinearOrder κ] [DecidableEq α] in
theorem keptSeqs_subset (inFiles : file ∈ files) {fileKey : FileKey κ α}
    (inKeys : fileKey ∈ file.keys) :
    ∀ seq ∈ flags.keptSeqs fileKey, seq ∈ flags.seqKeeper files := by
  intro seq mem
  exact mem_flatMap.mpr ⟨file, inFiles, mem_flatMap.mpr ⟨fileKey, inKeys, mem⟩⟩

/-- What a merge keeps of a key in one file reads as all of it. -/
theorem keptIn_sameBelow (key : κ) (wellFormed : file.WellFormed)
    (kept : ∀ fileKey ∈ file.keys, ∀ seq ∈ flags.keptSeqs fileKey, seq ∈ keeper)
    (window : flags.Window sees) {older : List (Item κ α)}
    (lowest : flags.canTailTombstones = true → ∀ item ∈ older, item.key ≠ key) :
    SameBelow key (seenItems sees key (flags.keptIn keeper file key) ++ older)
      (seenItems sees key (entriesOf file.keys key) ++ older) := by
  unfold keptIn entriesOf
  cases found : file.keys.find? (·.key = key) with
  | none => exact SameBelow.refl _ _
  | some fileKey =>
    have inKeys := mem_of_find?_eq_some found
    cases drops : flags.dropsKey fileKey with
    | false =>
      exact keptOf_sameBelow key (wellFormed.newestFirst fileKey inKeys) drops
        (kept fileKey inKeys) window older
    | true =>
      have isDropped := drops
      simp only [dropsKey, Bool.and_eq_true, List.isEmpty_iff,
        Option.isNone_iff_eq_none] at isDropped
      obtain ⟨⟨⟨_, tailed⟩, isTombstone⟩, noHistory⟩ := isDropped
      have nothingKept : flags.keptOf keeper fileKey = [] := by
        simp [keptOf, drops, keptHistory, noHistory]
      have entries : fileKey.entries = [fileKey.current] := by
        rw [FileKey.entries, noHistory]
      simp only [Option.map_some, Option.getD_some, nothingKept, entries]
      by_cases isSeen : sees fileKey.current.seqNum = true
      · simpa [seenItems, isSeen] using sameBelow_loneTombstone isTombstone (lowest tailed)
      · simpa [seenItems, isSeen] using SameBelow.refl key older

/-- What a merge keeps of a key reads as all that its sources have of it. -/
theorem merge_sameBelow (key : κ) (wellFormed : ∀ file ∈ files, file.WellFormed)
    (kept : ∀ file ∈ files, ∀ fileKey ∈ file.keys, ∀ seq ∈ flags.keptSeqs fileKey, seq ∈ keeper)
    (window : flags.Window sees) (single : flags.canTailTombstones = true → files.length ≤ 1)
    {older : List (Item κ α)}
    (lowest : flags.canTailTombstones = true → ∀ item ∈ older, item.key ≠ key) :
    SameBelow key
      (seenItems sees key (files.flatMap fun file => flags.keptIn keeper file key) ++ older)
      (seenItems sees key (files.flatMap fun file => entriesOf file.keys key) ++ older) := by
  induction files with
  | nil => exact SameBelow.refl _ _
  | cons file files ih =>
    obtain ⟨headWellFormed, tailWellFormed⟩ := forall_mem_cons.mp wellFormed
    obtain ⟨headKept, tailKept⟩ := forall_mem_cons.mp kept
    have rest := ih tailWellFormed tailKept fun tailed =>
      (Nat.le_succ _).trans (single tailed)
    rw [flatMap_cons, flatMap_cons, seenItems_append, seenItems_append, append_assoc, append_assoc]
    refine (rest.append _).trans ?_
    refine keptIn_sameBelow key headWellFormed headKept window fun tailed => ?_
    obtain rfl : files = [] := by
      have := single tailed
      simpa using this
    exact lowest tailed

end Merge

end Orly
