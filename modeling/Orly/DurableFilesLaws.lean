import Orly.DurableFiles

namespace Orly

/-!
# What durable files hold and what loads find in them

A written file holds the newest entry of every id of its inputs that has not expired, and
a load that has looked through some layers has the newest entry of its id in them.
-/

open List

section Writes

variable {Id Form : Type} [LinearOrder Id]

/-- A thinned copy of some entries: the newest of each id, unless its deadline has
passed. -/
structure Thinned (latestDeadlineCount : Nat)
    (inputs outputs : List (DurableEntry Id Form)) : Prop where
  kept : ∀ entry ∈ outputs, entry ∈ inputs ∧ latestDeadlineCount ≤ entry.deadlineCount ∧
      ∀ other ∈ inputs, other.id = entry.id → other.seqNum ≤ entry.seqNum
  newest : ∀ entry ∈ inputs, ∃ newest ∈ inputs, newest.id = entry.id ∧
      (∀ other ∈ inputs, other.id = entry.id → other.seqNum ≤ newest.seqNum) ∧
      (latestDeadlineCount ≤ newest.deadlineCount → newest ∈ outputs)
  rising : outputs.Pairwise fun first second => first.id < second.id

theorem thinned_newestUnexpired (latestDeadlineCount : Nat) {run : List (DurableEntry Id Form)}
    (sorted : run.Pairwise EntryBefore) :
    Thinned latestDeadlineCount run (newestUnexpired latestDeadlineCount run) where
  kept := by
    intro entry mem
    obtain ⟨isEntry, unexpired, _, newest⟩ := NewestFirst.of_mem_firsts sorted (by simp) mem
    exact ⟨isEntry, of_decide_eq_true unexpired, newest⟩
  newest := by
    intro entry mem
    obtain ⟨newest, isEntry, sameId, ranks, stays⟩ :=
      NewestFirst.exists_newest sorted mem (Option.some_ne_none _).symm
    exact ⟨newest, isEntry, sameId, ranks, fun unexpired => stays (decide_eq_true unexpired)⟩
  rising := NewestFirst.firsts_rising sorted (by simp)

/-- A flush keeps the newest of each id unless it has expired. -/
theorem thinned_writeSortedById (latestDeadlineCount : Nat) {layer : List (SlushEntry Id Form)}
    (sorted : (layer.map SlushEntry.entry).Pairwise EntryBefore) :
    Thinned latestDeadlineCount (layer.map SlushEntry.entry)
      (writeSortedById latestDeadlineCount layer) :=
  thinned_newestUnexpired latestDeadlineCount sorted

/-- Entries with rising ids are a run. -/
theorem sorted_of_rising {entries : List (DurableEntry Id Form)}
    (rising : entries.Pairwise fun first second => first.id < second.id) :
    entries.Pairwise EntryBefore :=
  rising.imp Or.inl

/-- So does a merge. -/
theorem thinned_mergeSortedById
    (latestDeadlineCount : Nat) {files : List (List (DurableEntry Id Form))}
    (rising : ∀ entries ∈ files, entries.Pairwise fun first second => first.id < second.id) :
    Thinned latestDeadlineCount files.flatten (mergeSortedById latestDeadlineCount files) := by
  obtain ⟨perm, sorted⟩ := NewestFirst.mergeRuns_spec
    fun entries mem => sorted_of_rising (rising entries mem)
  have thinned := thinned_newestUnexpired latestDeadlineCount sorted
  refine
    { kept := ?_
      newest := ?_
      rising := thinned.rising }
  · intro entry mem
    obtain ⟨isEntry, unexpired, newest⟩ := thinned.kept entry mem
    exact ⟨perm.mem_iff.mp isEntry, unexpired,
      fun other isOther => newest other (perm.mem_iff.mpr isOther)⟩
  · intro entry mem
    obtain ⟨newest, isEntry, sameId, ranks, stays⟩ := thinned.newest entry (perm.mem_iff.mpr mem)
    exact ⟨newest, perm.mem_iff.mp isEntry, sameId,
      fun other isOther => ranks other (perm.mem_iff.mpr isOther), stays⟩

theorem insertSlush_perm (new : SlushEntry Id Form) (layer : List (SlushEntry Id Form)) :
    (insertSlush new layer).Perm (new :: layer) := by
  induction layer with
  | nil => exact List.Perm.refl _
  | cons entry layer ih =>
    rw [insertSlush]
    split
    · exact List.Perm.refl _
    · exact (ih.cons entry).trans (List.Perm.swap new entry layer)

theorem before_of_slushKeyLe {first second : SlushEntry Id Form}
    (isLe : slushKeyLe first second = true) :
    EntryBefore first.entry second.entry := by
  rcases of_decide_eq_true isLe with below | ⟨same, newer⟩
  · exact Or.inl below
  · exact Or.inr ⟨same, Nat.le_of_lt newer⟩

theorem before_of_not_slushKeyLe {first second : SlushEntry Id Form}
    (notLe : ¬ slushKeyLe first second = true) :
    EntryBefore second.entry first.entry := by
  rw [slushKeyLe, decide_eq_true_eq, not_or, not_lt, not_and, Nat.not_lt] at notLe
  rcases notLe.1.lt_or_eq with below | same
  · exact Or.inl below
  · exact Or.inr ⟨same, notLe.2 same.symm⟩

/-- A layer stays sorted. -/
theorem insertSlush_sorted {new : SlushEntry Id Form} {layer : List (SlushEntry Id Form)}
    (sorted : (layer.map SlushEntry.entry).Pairwise EntryBefore) :
    ((insertSlush new layer).map SlushEntry.entry).Pairwise EntryBefore := by
  rw [pairwise_map] at sorted ⊢
  induction layer with
  | nil => simp [insertSlush]
  | cons entry layer ih =>
    obtain ⟨entryBefore, restSorted⟩ := pairwise_cons.mp sorted
    rw [insertSlush]
    split
    case isTrue isLe =>
      refine pairwise_cons.mpr ⟨?_, sorted⟩
      intro later mem
      rcases mem_cons.mp mem with rfl | inRest
      · exact before_of_slushKeyLe isLe
      · exact (before_of_slushKeyLe isLe).trans (entryBefore later inRest)
    case isFalse notLe =>
      refine pairwise_cons.mpr ⟨?_, ih restSorted⟩
      intro later mem
      rcases mem_cons.mp ((insertSlush_perm new layer).mem_iff.mp mem) with
        rfl | inRest
      · exact before_of_not_slushKeyLe notLe
      · exact entryBefore later inRest

end Writes

section Index

variable {Id Form : Type} [LinearOrder Id] {indexing : DurableIndexing Id}

variable {entries : List (DurableEntry Id Form)}

omit [LinearOrder Id] in
theorem zip_range_get {slot : Id × Nat}
    (mem : slot ∈ (entries.map DurableEntry.id).zip (List.range entries.length)) :
    ∃ entry, entries[slot.2]? = some entry ∧ entry.id = slot.1 := by
  obtain ⟨index, bound, isSlot⟩ := mem_iff_getElem.mp mem
  simp only [length_zip, length_map, length_range, Nat.min_self] at bound
  rw [getElem_zip, getElem_map, getElem_range] at isSlot
  refine ⟨entries[index], ?_, ?_⟩
  · rw [← isSlot]
    exact getElem?_eq_getElem bound
  · rw [← isSlot]

omit [LinearOrder Id] in
theorem exists_slot {entry : DurableEntry Id Form} (mem : entry ∈ entries) :
    ∃ slot ∈ (entries.map DurableEntry.id).zip (List.range entries.length), slot.1 = entry.id := by
  obtain ⟨index, bound, rfl⟩ := mem_iff_getElem.mp mem
  refine ⟨(entries[index].id, index), mem_iff_getElem.mpr ⟨index, ?_, ?_⟩, rfl⟩
  · simpa using bound
  · rw [getElem_zip, getElem_map, getElem_range]

/-- An id has one entry among entries with rising ids. -/
theorem find?_id (rising : entries.Pairwise fun first second => first.id < second.id)
    {entry : DurableEntry Id Form} (mem : entry ∈ entries) :
    entries.find? (·.id = entry.id) = some entry := by
  induction entries with
  | nil => simp at mem
  | cons head rest ih =>
    obtain ⟨headBelow, restRising⟩ := pairwise_cons.mp rising
    rcases mem_cons.mp mem with rfl | later
    · simp
    · rw [find?_cons_of_neg (by simpa using (headBelow entry later).ne)]
      exact ih restRising later

/-- The hash index leads to the one entry of an id. -/
theorem durableFindInHash_eq
    (rising : entries.Pairwise fun first second => first.id < second.id) (id : Id)
    (cursor : LoadCursor Form) :
    durableFindInHash indexing entries id cursor =
      match entries.find? (·.id = id) with
      | some entry => cursor.see entry
      | none => cursor := by
  set numHashFields := indexing.suggestHashSize entries.length with sizeEq
  set slots := indexing.walk (homeSlot indexing numHashFields)
    ((entries.map DurableEntry.id).zip (List.range entries.length)) with slotsEq
  have perm : slots.Perm ((entries.map DurableEntry.id).zip (List.range entries.length)) :=
    indexing.perm _ _
  have room : slots.length < numHashFields := by
    rw [perm.length_eq]
    simpa using indexing.room entries.length
  have tableEq : durableHashTable indexing entries =
      TwoPassTable.table (homeSlot indexing numHashFields) numHashFields slots := rfl
  have tableLength : (durableHashTable indexing entries).length = numHashFields := by
    rw [tableEq, TwoPassTable.table_length]
  have probed : TwoPassTable.probe (judgeId indexing numHashFields id)
          (TwoPassTable.around (durableHashTable indexing entries)
            (indexing.idHash id % numHashFields)) =
        some (slots.find? (judgeId indexing numHashFields id · = .hit)) := by
    rw [tableEq]
    refine TwoPassTable.probe_table (indexing.sorted _ _) room (Nat.mod_lt _ (by omega)) ?_ ?_
    · intro slot _ hit
      rw [judgeId] at hit
      split at hit
      case isTrue same => rw [homeSlot, same]
      case isFalse => split at hit <;> simp at hit
    · intro slot _ stop
      rw [judgeId] at stop
      split at stop
      case isTrue => simp at stop
      case isFalse =>
        split at stop
        case isTrue past => exact past
        case isFalse => simp at stop
  have hits : ∀ slot, judgeId indexing numHashFields id slot = .hit ↔ slot.1 = id := by
    intro slot
    rw [judgeId]
    constructor
    · intro hit
      split at hit
      case isTrue same => exact same.symm
      case isFalse => split at hit <;> simp at hit
    · intro same
      rw [if_pos same.symm]
  rw [durableFindInHash, findOffset, tableLength, probed]
  cases found : slots.find? (judgeId indexing numHashFields id · = .hit) with
  | none =>
    have absent : entries.find? (·.id = id) = none := by
      refine List.find?_eq_none.mpr ?_
      intro entry mem sameId
      obtain ⟨slot, isSlot, slotId⟩ := exists_slot mem
      have missed := List.find?_eq_none.mp found slot (perm.mem_iff.mpr isSlot)
      rw [decide_eq_true_eq, hits, slotId] at missed
      exact missed (of_decide_eq_true sameId)
    rw [absent]
    rfl
  | some slot =>
    have isHit := find?_some found
    have slotId := (hits slot).mp (of_decide_eq_true isHit)
    obtain ⟨entry, atSlot, entryId⟩ := zip_range_get (perm.mem_iff.mp (mem_of_find?_eq_some found))
    have isEntry := find?_id rising (mem_of_getElem? atSlot)
    rw [entryId, slotId] at isEntry
    rw [isEntry]
    simp only [Option.bind_some, atSlot]

end Index

section Loads

variable {Id Form : Type} [LinearOrder Id] {indexing : DurableIndexing Id}

/-- A load that has looked through these entries has the newest one of its id. -/
def Newest (entries : List (DurableEntry Id Form)) (id : Id) (cursor : LoadCursor Form) : Prop :=
  (cursor = ⟨0, none⟩ ∧ ∀ entry ∈ entries, entry.id ≠ id) ∨
    ∃ entry ∈ entries, entry.id = id ∧ cursor = ⟨entry.seqNum, some entry.serializedForm⟩ ∧
      ∀ other ∈ entries, other.id = id → other.seqNum ≤ entry.seqNum

namespace Newest

variable {entries more : List (DurableEntry Id Form)} {id : Id} {cursor : LoadCursor Form}

omit [LinearOrder Id] in
theorem start (id : Id) : Newest ([] : List (DurableEntry Id Form)) id ⟨0, none⟩ :=
  Or.inl ⟨rfl, by simp⟩

omit [LinearOrder Id] in
/-- Entries of other ids change nothing. -/
theorem skip (newest : Newest entries id cursor) (others : ∀ entry ∈ more, entry.id ≠ id) :
    Newest (entries ++ more) id cursor := by
  rcases newest with ⟨isStart, none⟩ | ⟨entry, mem, sameId, isCursor, ranks⟩
  · refine Or.inl ⟨isStart, ?_⟩
    intro entry mem
    rcases mem_append.mp mem with before | after
    · exact none entry before
    · exact others entry after
  · refine Or.inr ⟨entry, mem_append_left _ mem, sameId, isCursor, ?_⟩
    intro other isOther otherId
    rcases mem_append.mp isOther with before | after
    · exact ranks other before otherId
    · exact absurd otherId (others other after)

omit [LinearOrder Id] in
/-- Some layer's newest entry of the id. -/
theorem see (newest : Newest entries id cursor) {entry : DurableEntry Id Form} (mem : entry ∈ more)
    (sameId : entry.id = id) (positive : 0 < entry.seqNum)
    (best : ∀ other ∈ more, other.id = id → other.seqNum ≤ entry.seqNum) :
    Newest (entries ++ more) id (cursor.see entry) := by
  rw [LoadCursor.see]
  rcases newest with ⟨rfl, none⟩ | ⟨before, isBefore, beforeId, rfl, ranks⟩
  · rw [if_pos positive]
    refine Or.inr ⟨entry, mem_append_right _ mem, sameId, rfl, ?_⟩
    intro other isOther otherId
    rcases mem_append.mp isOther with earlier | here
    · exact absurd otherId (none other earlier)
    · exact best other here otherId
  · by_cases newer : before.seqNum < entry.seqNum
    · rw [if_pos newer]
      refine Or.inr ⟨entry, mem_append_right _ mem, sameId, rfl, ?_⟩
      intro other isOther otherId
      rcases mem_append.mp isOther with earlier | here
      · exact Nat.le_trans (ranks other earlier otherId) (Nat.le_of_lt newer)
      · exact best other here otherId
    · rw [if_neg newer]
      refine Or.inr ⟨before, mem_append_left _ isBefore, beforeId, rfl, ?_⟩
      intro other isOther otherId
      rcases mem_append.mp isOther with earlier | here
      · exact ranks other earlier otherId
      · exact Nat.le_trans (best other here otherId) (Nat.not_lt.mp newer)

/-- A memory layer. -/
theorem slushFindMax (newest : Newest entries id cursor) {layer : List (SlushEntry Id Form)}
    (sorted : (layer.map SlushEntry.entry).Pairwise EntryBefore)
    (positive : ∀ slush ∈ layer, 0 < slush.entry.seqNum) :
    Newest (entries ++ layer.map SlushEntry.entry) id (slushFindMax id layer cursor) := by
  induction layer generalizing entries cursor with
  | nil =>
    rw [map_nil, append_nil]
    exact newest
  | cons slush layer ih =>
    obtain ⟨slushBefore, restSorted⟩ := pairwise_cons.mp sorted
    have restPositive : ∀ slush ∈ layer, 0 < slush.entry.seqNum :=
      fun later mem => positive later (mem_cons_of_mem _ mem)
    have split : entries ++ (slush :: layer).map SlushEntry.entry =
        (entries ++ [slush.entry]) ++ layer.map SlushEntry.entry := by simp
    rw [Orly.slushFindMax]
    split
    case isTrue past =>
      refine newest.skip ?_
      intro entry mem
      rcases mem_cons.mp mem with rfl | later
      · exact past.ne'
      · exact (past.trans_le (slushBefore entry later).key_le).ne'
    case isFalse =>
      rw [split]
      split
      case isTrue sameId =>
        have seen : Newest (entries ++ [slush.entry]) id (cursor.see slush.entry) :=
          newest.see mem_cons_self sameId (positive slush mem_cons_self) (by simp)
        exact ih seen restSorted restPositive
      case isFalse otherId =>
        exact ih (newest.skip (by simpa using otherId)) restSorted restPositive

/-- A file. -/
theorem durableFindInHash (newest : Newest entries id cursor)
    (rising : more.Pairwise fun first second => first.id < second.id)
    (positive : ∀ entry ∈ more, 0 < entry.seqNum) :
    Newest (entries ++ more) id (durableFindInHash indexing more id cursor) := by
  rw [durableFindInHash_eq rising]
  cases found : more.find? (·.id = id) with
  | none =>
    refine newest.skip ?_
    intro entry mem sameId
    exact List.find?_eq_none.mp found entry mem (decide_eq_true sameId)
  | some entry =>
    have isFound := find?_some found
    have sameId : entry.id = id := of_decide_eq_true isFound
    have mem := mem_of_find?_eq_some found
    refine newest.see mem sameId (positive entry mem) ?_
    intro other isOther otherId
    have isOnly := find?_id rising isOther
    rw [otherId, found] at isOnly
    exact Nat.le_of_eq (congrArg DurableEntry.seqNum (Option.some.inj isOnly).symm)

end Newest

end Loads

end Orly
