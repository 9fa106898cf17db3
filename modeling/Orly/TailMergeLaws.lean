import Orly.TailMerge

namespace Orly

/-!
# What a merge writes

The heap yields what the merge keeps, by key and newest first, and the writer groups it:
the output holds for each key what the inputs keep of it, the newest file first.
-/

open List

variable {κ α : Type} [LinearOrder κ]

/-! ## Keys of a file -/

section Keys

/-- Of what the records of distinct keys yield, a key's part is what its record yields. -/
theorem filter_flatMap_key
    {Record Item : Type} {keys : List Record} (keyOf : Record → κ) (yield : Record → List Item)
    (itemKey : Item → κ)
    (sameKey : ∀ record ∈ keys, ∀ item ∈ yield record, itemKey item = keyOf record)
    (distinct : keys.Pairwise fun left right => keyOf left < keyOf right) (key : κ) :
    (keys.flatMap yield).filter (itemKey · = key) =
      ((keys.find? (keyOf · = key)).map yield).getD [] := by
  induction keys with
  | nil => rfl
  | cons record keys ih =>
    obtain ⟨headSame, tailSame⟩ := forall_mem_cons.mp sameKey
    obtain ⟨headBefore, tailDistinct⟩ := pairwise_cons.mp distinct
    have rest := ih tailSame tailDistinct
    rw [flatMap_cons, filter_append, rest, find?_cons]
    by_cases here : keyOf record = key
    · have all : (yield record).filter (itemKey · = key) = yield record :=
        filter_eq_self.mpr fun item mem => by
          simpa using (headSame item mem).trans here
      have none : keys.find? (keyOf · = key) = none := by
        refine List.find?_eq_none.mpr fun other mem => ?_
        simpa [← here] using (headBefore other mem).ne'
      simp [here, all, none]
    · have nothing : (yield record).filter (itemKey · = key) = [] :=
        filter_eq_nil_iff.mpr fun item mem => by
          simpa [headSame item mem] using here
      simp [here, nothing]

end Keys

section Entries

variable {keys : List (FileKey κ α)} {key : κ} {fileKey : FileKey κ α}

/-- A key has the entries of its record. -/
theorem entriesOf_mem (distinct : keys.Pairwise fun left right => left.key ≠ right.key)
    (mem : fileKey ∈ keys) :
    entriesOf keys fileKey.key = fileKey.entries := by
  induction keys with
  | nil => contradiction
  | cons first keys ih =>
    obtain ⟨headDiffers, tailDistinct⟩ := pairwise_cons.mp distinct
    unfold entriesOf
    rw [find?_cons]
    rcases mem_cons.mp mem with rfl | inTail
    · simp
    · have differs := headDiffers fileKey inTail
      have rest := ih tailDistinct inTail
      unfold entriesOf at rest
      simpa [differs] using rest

theorem entriesOf_eq_nil (absent : ∀ fileKey ∈ keys, fileKey.key ≠ key) :
    entriesOf keys key = [] := by
  have none : keys.find? (·.key = key) = none :=
    List.find?_eq_none.mpr fun other mem => by simpa using absent other mem
  rw [entriesOf, none]

/-- A key has entries exactly if it has a record. -/
theorem entriesOf_cases (keys : List (FileKey κ α)) (key : κ) :
    (∃ fileKey ∈ keys, fileKey.key = key ∧ entriesOf keys key = fileKey.entries) ∨
      ((∀ fileKey ∈ keys, fileKey.key ≠ key) ∧ entriesOf keys key = []) := by
  unfold entriesOf
  cases found : keys.find? (·.key = key) with
  | none =>
    exact .inr ⟨fun other mem => by simpa using List.find?_eq_none.mp found other mem, rfl⟩
  | some fileKey =>
    exact .inl ⟨fileKey, mem_of_find?_eq_some found,
      by simpa using find?_some found, rfl⟩

/-- The entries of a key in a well-formed file, if it has any. -/
theorem DataFile.WellFormed.entriesOf
    {file : DataFile κ α} (wellFormed : file.WellFormed) (key : κ) :
    NewestFirst (entriesOf file.keys key) ∧ ∀ entry ∈ Orly.entriesOf file.keys key,
      file.lowestSeq ≤ entry.seqNum ∧ entry.seqNum ≤ file.highestSeq := by
  rcases entriesOf_cases file.keys key with ⟨fileKey, inKeys, _, eq⟩ | ⟨_, eq⟩
  · rw [eq]
    exact ⟨wellFormed.newestFirst fileKey inKeys, wellFormed.inRange fileKey inKeys⟩
  · rw [eq]
    exact ⟨List.Pairwise.nil, forall_mem_nil _⟩

/-- The order of distinct keys does not matter to what each has. -/
theorem entriesOf_perm {arranged : List (FileKey κ α)}
    (distinct : keys.Pairwise fun left right => left.key ≠ right.key) (perm : arranged.Perm keys)
    (key : κ) :
    entriesOf arranged key = entriesOf keys key := by
  rcases entriesOf_cases arranged key with ⟨fileKey, mem, rfl, eq⟩ | ⟨absent, eq⟩
  · rw [eq, entriesOf_mem distinct (perm.mem_iff.mp mem)]
  · rw [eq, entriesOf_eq_nil fun other mem => absent other (perm.mem_iff.mpr mem)]

end Entries

/-! ## The heap -/

namespace SortedKey

instance : IsTrans (SortedKey κ α) Before where
  trans := by
    rintro first second third (less | ⟨same, newer⟩) (less' | ⟨same', newer'⟩)
    · exact .inl (less.trans less')
    · exact .inl (same' ▸ less)
    · exact .inl (same ▸ less')
    · exact .inr ⟨same.trans same', newer'.trans newer⟩

instance : Std.Total (@Before κ α _) where
  total := by
    intro left right
    rcases lt_trichotomy left.key right.key with less | same | greater
    · exact .inl (.inl less)
    · rcases Nat.le_total right.entry.seqNum left.entry.seqNum with newer | older
      · exact .inl (.inr ⟨same, newer⟩)
      · exact .inr (.inr ⟨same.symm, older⟩)
    · exact .inr (.inl greater)

end SortedKey

namespace MergeFlags

variable {flags : MergeFlags} {keeper : List Nat} {file : DataFile κ α}
  {files : List (DataFile κ α)}

/-- What the merge keeps of a key of one file. -/
def keptOf (flags : MergeFlags) (keeper : List Nat) (fileKey : FileKey κ α) : List (FoldEntry α) :=
  (if flags.dropsKey fileKey then [] else [fileKey.current]) ++ flags.keptHistory keeper fileKey

/-- What the merge keeps of a key in a file. -/
def keptIn (flags : MergeFlags) (keeper : List Nat) (file : DataFile κ α) (key : κ) :
    List (FoldEntry α) :=
  ((file.keys.find? (·.key = key)).map (flags.keptOf keeper)).getD []

variable (flags keeper)

omit [LinearOrder κ] in
theorem keptHistory_sublist (fileKey : FileKey κ α) :
    (flags.keptHistory keeper fileKey).Sublist fileKey.history := by
  unfold keptHistory
  split
  · exact filter_sublist
  · exact List.Sublist.refl _

omit [LinearOrder κ] in
theorem keptOf_sublist (fileKey : FileKey κ α) :
    (flags.keptOf keeper fileKey).Sublist fileKey.entries := by
  have kept := flags.keptHistory_sublist keeper fileKey
  unfold keptOf FileKey.entries
  split
  · exact kept.cons _
  · exact kept.cons_cons _

theorem keptIn_sublist (file : DataFile κ α) (key : κ) :
    (flags.keptIn keeper file key).Sublist (entriesOf file.keys key) := by
  unfold keptIn entriesOf
  cases file.keys.find? (·.key = key) with
  | none => exact List.Sublist.refl _
  | some fileKey => exact flags.keptOf_sublist keeper fileKey

theorem currentCursor_sorted (wellFormed : file.WellFormed) :
    (flags.currentCursor file).Pairwise SortedKey.Before := by
  refine pairwise_map.mpr ((wellFormed.sorted.filter _).imp ?_)
  exact fun less => .inl less

theorem historyCursor_sorted (wellFormed : file.WellFormed) :
    (flags.historyCursor keeper file).Pairwise SortedKey.Before := by
  refine pairwise_flatMap.mpr ⟨fun fileKey mem => ?_, ?_⟩
  · have newest := (pairwise_cons.mp (wellFormed.newestFirst fileKey mem)).2
    refine pairwise_map.mpr ((newest.sublist (flags.keptHistory_sublist _ _)).imp ?_)
    exact fun newer => .inr ⟨rfl, newer.le⟩
  · refine wellFormed.sorted.imp fun {left right} less => ?_
    intro leftItem inLeft rightItem inRight
    obtain ⟨_, _, rfl⟩ := mem_map.mp inLeft
    obtain ⟨_, _, rfl⟩ := mem_map.mp inRight
    exact .inl less

/-- The heap yields entries in order. -/
theorem heapOrder_sorted (wellFormed : ∀ file ∈ files, file.WellFormed) :
    (flags.heapOrder keeper files).Pairwise SortedKey.Before := by
  induction files with
  | nil => exact List.Pairwise.nil
  | cons file files ih =>
    obtain ⟨headWellFormed, tailWellFormed⟩ := forall_mem_cons.mp wellFormed
    exact (flags.currentCursor_sorted headWellFormed).merge
      ((flags.historyCursor_sorted keeper headWellFormed).merge (ih tailWellFormed))

/-- The heap yields what the cursors hold. -/
theorem heapOrder_perm (files : List (DataFile κ α)) : (flags.heapOrder keeper files).Perm
      (files.flatMap fun file =>
        flags.currentCursor file ++ flags.historyCursor keeper file) := by
  induction files with
  | nil => exact .refl _
  | cons file files ih =>
    refine (merge_perm_append _).trans ?_
    rw [flatMap_cons, append_assoc]
    refine List.Perm.append_left _ ((merge_perm_append _).trans ?_)
    exact List.Perm.append_left _ ih

/-- The cursors of a file hold, of each key, what the merge keeps. -/
theorem cursors_filter (wellFormed : file.WellFormed) (key : κ) :
    ((flags.currentCursor file ++ flags.historyCursor keeper file).filter
        (·.key = key)).map (·.entry) =
      flags.keptIn keeper file key := by
  let current : FileKey κ α → List (SortedKey κ α) := fun fileKey =>
    if flags.dropsKey fileKey then [] else [⟨fileKey.key, fileKey.current, true⟩]
  have asFlatMap : flags.currentCursor file = file.keys.flatMap current := by
    unfold currentCursor
    induction file.keys with
    | nil => rfl
    | cons fileKey keys ih =>
      rw [flatMap_cons, ← ih, filter_cons]
      by_cases drops : flags.dropsKey fileKey = true
      · simp [current, drops]
      · simp [current, drops]
  have currentPart := filter_flatMap_key FileKey.key current SortedKey.key
    (by
      intro fileKey _ item mem
      by_cases drops : flags.dropsKey fileKey = true
      · simp [current, drops] at mem
      · simp only [current, drops] at mem
        exact congrArg SortedKey.key (mem_singleton.mp mem))
    wellFormed.sorted key
  have historyPart := filter_flatMap_key FileKey.key
    (fun fileKey => (flags.keptHistory keeper fileKey).map fun entry =>
      (⟨fileKey.key, entry, false⟩ : SortedKey κ α))
    SortedKey.key
    (by
      intro fileKey _ item mem
      obtain ⟨_, _, rfl⟩ := mem_map.mp mem
      rfl)
    wellFormed.sorted key
  rw [filter_append, asFlatMap, historyCursor, currentPart, historyPart]
  unfold keptIn
  cases file.keys.find? (·.key = key) with
  | none => rfl
  | some fileKey =>
    simp only [Option.map_some, Option.getD_some, map_append, map_map, keptOf]
    congr 1
    · by_cases drops : flags.dropsKey fileKey = true
      · simp [current, drops]
      · simp [current, drops]
    · exact map_id' _

/-- The heap yields the current entry of every key that is not dropped. -/
theorem current_mem_heapOrder {fileKey : FileKey κ α} (inFiles : file ∈ files)
    (inKeys : fileKey ∈ file.keys) (stays : flags.dropsKey fileKey = false) :
    ⟨fileKey.key, fileKey.current, true⟩ ∈ flags.heapOrder keeper files := by
  have inCursor : (⟨fileKey.key, fileKey.current, true⟩ : SortedKey κ α) ∈
      flags.currentCursor file :=
    mem_map.mpr ⟨fileKey, mem_filter.mpr ⟨inKeys, by simp [stays]⟩, rfl⟩
  refine (flags.heapOrder_perm keeper files).mem_iff.mpr ?_
  exact mem_flatMap.mpr ⟨file, inFiles, mem_append_left _ inCursor⟩

omit [LinearOrder κ] in
theorem dropsKey_eq_false {fileKey : FileKey κ α} {entry : FoldEntry α}
    (inHistory : entry ∈ fileKey.history) :
    flags.dropsKey fileKey = false := by
  have nonempty : fileKey.history.isEmpty = false :=
    isEmpty_eq_false_iff.mpr (ne_nil_of_mem inHistory)
  simp [dropsKey, nonempty]

/-- What the heap yields is the current entry of a key that is not dropped, or of its
history. -/
theorem mem_heapOrder {item : SortedKey κ α} (mem : item ∈ flags.heapOrder keeper files) :
    ∃ file ∈ files, ∃ fileKey ∈ file.keys, flags.dropsKey fileKey = false ∧ item.key = fileKey.key ∧
        (item.isCurrent = true ∧ item.entry = fileKey.current ∨ item.entry ∈ fileKey.history) := by
  obtain ⟨file, inFiles, inCursors⟩ :=
    mem_flatMap.mp ((flags.heapOrder_perm keeper files).mem_iff.mp mem)
  refine ⟨file, inFiles, ?_⟩
  rcases mem_append.mp inCursors with inCurrent | inHistory
  · obtain ⟨fileKey, inFilter, rfl⟩ := mem_map.mp inCurrent
    obtain ⟨inKeys, stays⟩ := mem_filter.mp inFilter
    exact ⟨fileKey, inKeys, by simpa using stays, rfl, .inl ⟨rfl, rfl⟩⟩
  · obtain ⟨fileKey, inKeys, isEntry⟩ := mem_flatMap.mp inHistory
    obtain ⟨entry, isKept, rfl⟩ := mem_map.mp isEntry
    have inHistory := (flags.keptHistory_sublist keeper fileKey).subset isKept
    exact ⟨fileKey, inKeys, flags.dropsKey_eq_false inHistory, rfl, .inr inHistory⟩

/-- Every entry of a history comes behind an entry of its key. -/
theorem heapOrder_newer (wellFormed : ∀ file ∈ files, file.WellFormed)
    {item : SortedKey κ α} (mem : item ∈ flags.heapOrder keeper files)
    (fromHistory : item.isCurrent = false) :
    ∃ newer ∈ flags.heapOrder keeper files,
      newer.key = item.key ∧ item.entry.seqNum < newer.entry.seqNum := by
  obtain ⟨file, inFiles, fileKey, inKeys, stays, sameKey, ⟨isCurrent, _⟩ | inHistory⟩ :=
    flags.mem_heapOrder keeper mem
  · rw [isCurrent] at fromHistory
    contradiction
  · have newest := (wellFormed file inFiles).newestFirst fileKey inKeys
    exact ⟨_, flags.current_mem_heapOrder keeper inFiles inKeys stays, sameKey.symm,
      (pairwise_cons.mp newest).1 _ inHistory⟩

end MergeFlags

/-! ## The writer -/

/-- Every entry is the first of its key, then from the current keys, or goes on with the
key before it. -/
def Led : Option κ → List (SortedKey κ α) → Prop
  | _, [] => True
  | last, item :: items =>
    (last ≠ some item.key → item.isCurrent = true) ∧ Led (some item.key) items

theorem led_of_sorted
    {last : Option κ} {items : List (SortedKey κ α)} (sorted : items.Pairwise SortedKey.Before)
    (behindLast : ∀ key ∈ last, ∀ item ∈ items, key ≤ item.key)
    (newer : ∀ item ∈ items, item.isCurrent = false → last = some item.key ∨
        ∃ other ∈ items, other.key = item.key ∧ item.entry.seqNum < other.entry.seqNum) :
    Led last items := by
  induction items generalizing last with
  | nil => trivial
  | cons item items ih =>
    obtain ⟨headBefore, tailSorted⟩ := pairwise_cons.mp sorted
    have headKey : ∀ other ∈ items, item.key ≤ other.key := fun other mem =>
      (headBefore other mem).elim le_of_lt fun same => same.1.le
    refine ⟨fun isNew => ?_, ih tailSorted ?_ ?_⟩
    · by_contra fromHistory
      rcases newer item mem_cons_self (by simpa using fromHistory) with
        isLast | ⟨other, mem, sameKey, isNewer⟩
      · exact isNew isLast
      · rcases mem_cons.mp mem with rfl | inTail
        · exact isNewer.false
        · rcases headBefore other inTail with less | ⟨_, notNewer⟩
          · exact less.ne' sameKey
          · omega
    · rintro _ ⟨⟩ other mem
      exact headKey other mem
    · intro other mem fromHistory
      rcases newer other (mem_cons_of_mem _ mem) fromHistory with
        isLast | ⟨newest, inItems, sameKey, isNewer⟩
      · left
        have fromLast := behindLast other.key isLast item mem_cons_self
        rw [le_antisymm fromLast (headKey other mem)]
      · rcases mem_cons.mp inItems with rfl | inTail
        · exact .inl (congrArg some sameKey)
        · exact .inr ⟨newest, inTail, sameKey, isNewer⟩

section Writer

variable {written : List (FileKey κ α)} {item : SortedKey κ α}

/-- What is written, last key first, has its keys in order. -/
def LastFirst (written : List (FileKey κ α)) : Prop :=
  written.Pairwise fun left right => right.key < left.key

theorem pushKey_head (leads : written.head?.map (·.key) ≠ some item.key → item.isCurrent = true) :
    (pushKey written item).head?.map (·.key) = some item.key := by
  cases written with
  | nil => simp_all [pushKey]
  | cons last earlier =>
    by_cases same : last.key = item.key
    · simp [pushKey, same]
    · simp_all [pushKey]

/-- A pushed key stays in order. -/
theorem pushKey_lastFirst (inOrder : LastFirst written)
    (behind : ∀ last ∈ written.head?, last.key ≤ item.key) :
    LastFirst (pushKey written item) := by
  cases written with
  | nil =>
    simp only [pushKey]
    split
    case isTrue => exact pairwise_singleton _ _
    case isFalse => exact List.Pairwise.nil
  | cons last earlier =>
    obtain ⟨headBefore, tailOrder⟩ := pairwise_cons.mp inOrder
    have lastBehind : last.key ≤ item.key := behind last rfl
    simp only [pushKey]
    split
    case isTrue isNew =>
      have less : last.key < item.key := lt_of_le_of_ne lastBehind isNew.2
      refine pairwise_cons.mpr ⟨?_, inOrder⟩
      intro other mem
      rcases mem_cons.mp mem with rfl | inTail
      · exact less
      · exact (headBefore other inTail).trans less
    case isFalse =>
      exact pairwise_cons.mpr ⟨headBefore, tailOrder⟩

/-- The writer puts an entry behind those of its key. -/
theorem entriesOf_pushKey
    (inOrder : LastFirst written) (behind : ∀ last ∈ written.head?, last.key ≤ item.key)
    (leads : written.head?.map (·.key) ≠ some item.key → item.isCurrent = true) (key : κ) :
    entriesOf (pushKey written item) key =
      entriesOf written key ++ if item.key = key then [item.entry] else [] := by
  cases written with
  | nil =>
    have isCurrent : item.isCurrent = true := leads (by simp)
    by_cases isKey : item.key = key
    · simp [pushKey, isCurrent, entriesOf, isKey, FileKey.entries]
    · simp [pushKey, isCurrent, entriesOf, isKey]
  | cons last earlier =>
    by_cases same : last.key = item.key
    · by_cases isKey : item.key = key
      · simp [pushKey, same, entriesOf, isKey, FileKey.entries]
      · simp [pushKey, same, entriesOf, isKey]
    · have isCurrent : item.isCurrent = true := leads (by simpa using same)
      have opened : pushKey (last :: earlier) item =
          ⟨item.key, item.entry, []⟩ :: last :: earlier := by
        simp [pushKey, isCurrent, same]
      by_cases isKey : item.key = key
      · have fresh : entriesOf (last :: earlier) key = [] := by
          obtain ⟨headBefore, _⟩ := pairwise_cons.mp inOrder
          have less : last.key < item.key := lt_of_le_of_ne (behind last rfl) same
          refine entriesOf_eq_nil fun other mem => ?_
          rcases mem_cons.mp mem with rfl | inTail
          · exact isKey ▸ less.ne
          · exact isKey ▸ ((headBefore other inTail).trans less).ne
        rw [fresh, opened]
        simp [entriesOf, isKey, FileKey.entries]
      · simp [opened, entriesOf, isKey]

/-- The writer groups what the heap yields. -/
theorem foldl_pushKey {items : List (SortedKey κ α)} (sorted : items.Pairwise SortedKey.Before)
    (inOrder : LastFirst written)
    (behind : ∀ last ∈ written.head?, ∀ item ∈ items, last.key ≤ item.key)
    (led : Led (written.head?.map (·.key)) items) :
    LastFirst (items.foldl pushKey written) ∧ ∀ key, entriesOf (items.foldl pushKey written) key =
        entriesOf written key ++ (items.filter (·.key = key)).map (·.entry) := by
  induction items generalizing written with
  | nil => exact ⟨inOrder, fun key => (append_nil _).symm⟩
  | cons item items ih =>
    obtain ⟨headBefore, tailSorted⟩ := pairwise_cons.mp sorted
    obtain ⟨leads, tailLed⟩ := led
    have itemBehind : ∀ last ∈ written.head?, last.key ≤ item.key :=
      fun last isLast => behind last isLast item mem_cons_self
    have head := pushKey_head leads
    obtain ⟨allInOrder, entries⟩ := ih tailSorted (pushKey_lastFirst inOrder itemBehind)
      (by
        intro last isLast other mem
        have lastKey : last.key = item.key := by
          rw [Option.mem_def.mp isLast] at head
          exact Option.some.inj head
        rw [lastKey]
        exact (headBefore other mem).elim le_of_lt fun same => same.1.le)
      (by rwa [head])
    refine ⟨allInOrder, fun key => ?_⟩
    rw [foldl_cons, entries, entriesOf_pushKey inOrder itemBehind leads, append_assoc]
    by_cases isKey : item.key = key
    · simp [isKey]
    · simp [isKey]

end Writer

/-! ## The output -/

section Order

/-- Entries in order are determined by what they are. -/
theorem eq_of_newestFirst {strict weak : List (FoldEntry α)} (isStrict : NewestFirst strict)
    (isWeak : weak.Pairwise fun newer older => older.seqNum ≤ newer.seqNum)
    (perm : weak.Perm strict) :
    weak = strict := by
  refine perm.eq_of_pairwise ?_ isWeak (isStrict.imp fun less => less.le)
  intro left right inWeak inStrict notNewer notOlder
  have inBoth : left ∈ strict := perm.mem_iff.mp inWeak
  have distinct : (strict.map (·.seqNum)).Nodup :=
    pairwise_map.mpr (isStrict.imp fun less => less.ne')
  exact inj_on_of_nodup_map distinct inBoth inStrict (le_antisymm notOlder notNewer)

variable {files : List (DataFile κ α)}

/-- The files, the one of the newest range first. -/
def newestFiles (files : List (DataFile κ α)) : List (DataFile κ α) :=
  files.mergeSort fun newer older => older.lowestSeq ≤ newer.lowestSeq

omit [LinearOrder κ] in
theorem newestFiles_perm (files : List (DataFile κ α)) : (newestFiles files).Perm files :=
  mergeSort_perm _ _

/-- What walkers over files yield for a key: its entries, newest first. -/
theorem runEntries_of_perm
    {key : κ} {entries : List (FoldEntry α)} (newestFirst : NewestFirst entries)
    (perm : (files.flatMap fun file => entriesOf file.keys key).Perm entries) :
    runEntries files key = entries := by
  have weak : (runEntries files key).Pairwise fun newer older =>
      decide (older.seqNum ≤ newer.seqNum) = true :=
    pairwise_mergeSort (by simp; omega) (by simp; omega) _
  exact eq_of_newestFirst newestFirst (by simpa using weak) ((mergeSort_perm _ _).trans perm)

variable (wellFormed : ∀ file ∈ files, file.WellFormed)
  (disjoint : files.Pairwise DataFile.Disjoint)

include wellFormed disjoint

/-- Newer files lie above older ones. -/
theorem newestFiles_pairwise :
    (newestFiles files).Pairwise fun newer older => older.highestSeq < newer.lowestSeq := by
  have perm := newestFiles_perm files
  have isDisjoint : (newestFiles files).Pairwise DataFile.Disjoint :=
    (perm.pairwise_iff fun apart => apart.symm).mpr disjoint
  have isSorted : (newestFiles files).Pairwise fun newer older =>
      older.lowestSeq ≤ newer.lowestSeq := by
    have sorted : (newestFiles files).Pairwise fun newer older =>
        decide (older.lowestSeq ≤ newer.lowestSeq) = true :=
      pairwise_mergeSort (by simp; omega) (by simp; omega) files
    simpa using sorted
  refine (isDisjoint.and isSorted).imp_of_mem ?_
  rintro newer older inNewer inOlder ⟨apart, ordered⟩
  have newerRange := (wellFormed newer (perm.mem_iff.mp inNewer)).range
  have olderRange := (wellFormed older (perm.mem_iff.mp inOlder)).range
  rcases apart with below | above
  · omega
  · exact above

/-- Parts of the files' entries of a key, the newest file first, are in order. -/
theorem flatMap_newestFirst {key : κ} {part : DataFile κ α → List (FoldEntry α)}
    (isPart : ∀ file, (part file).Sublist (entriesOf file.keys key)) :
    NewestFirst ((newestFiles files).flatMap part) := by
  have entries : ∀ file ∈ newestFiles files, NewestFirst (part file) ∧
      ∀ entry ∈ part file, file.lowestSeq ≤ entry.seqNum ∧ entry.seqNum ≤ file.highestSeq := by
    intro file mem
    have isWellFormed := wellFormed file ((newestFiles_perm files).mem_iff.mp mem)
    obtain ⟨newest, inRange⟩ := isWellFormed.entriesOf key
    exact ⟨newest.sublist (isPart file),
      fun entry inPart => inRange entry ((isPart file).subset inPart)⟩
  refine pairwise_flatMap.mpr ⟨fun file mem => (entries file mem).1, ?_⟩
  refine (newestFiles_pairwise wellFormed disjoint).imp_of_mem ?_
  intro newer older inNewer inOlder above newerEntry isNewer olderEntry isOlder
  have newerRange := (entries newer inNewer).2 newerEntry isNewer
  have olderRange := (entries older inOlder).2 olderEntry isOlder
  omega

/-- With ranges apart, the newest file's entries come first. -/
theorem runEntries_eq (key : κ) :
    runEntries files key = (newestFiles files).flatMap fun file => entriesOf file.keys key :=
  runEntries_of_perm (flatMap_newestFirst wellFormed disjoint fun _ => List.Sublist.refl _)
    ((newestFiles_perm files).symm.flatMap_right _)

variable {flags : MergeFlags} {out : DataFile κ α}

/-- What the heap yields of a key: what the merge keeps of it, the newest file first. -/
theorem heapOrder_filter (flags : MergeFlags) (keeper : List Nat) (key : κ) :
    ((flags.heapOrder keeper files).filter (·.key = key)).map (·.entry) =
      (newestFiles files).flatMap fun file => flags.keptIn keeper file key := by
  refine eq_of_newestFirst
    (flatMap_newestFirst wellFormed disjoint fun file => flags.keptIn_sublist keeper file key)
    ?_ ?_
  · have sorted := (flags.heapOrder_sorted keeper wellFormed).filter (·.key = key)
    refine pairwise_map.mpr (sorted.imp_of_mem ?_)
    intro left right inLeft inRight before
    have leftKey : left.key = key := by simpa using (mem_filter.mp inLeft).2
    have rightKey : right.key = key := by simpa using (mem_filter.mp inRight).2
    rcases before with less | ⟨_, newer⟩
    · exact absurd (leftKey.trans rightKey.symm) less.ne
    · exact newer
  · refine (((flags.heapOrder_perm keeper files).filter _).map _).trans ?_
    rw [filter_flatMap, map_flatMap]
    have each : ∀ file ∈ files, ((flags.currentCursor file ++
        flags.historyCursor keeper file).filter (·.key = key)).map (·.entry) =
          flags.keptIn keeper file key :=
      fun file mem => flags.cursors_filter keeper (wellFormed file mem) key
    rw [flatMap_congr each]
    exact (newestFiles_perm files).symm.flatMap_right _

/-- The keys of the output: in order, each with what the merge keeps of it. -/
theorem mergeIndexes_keys (merged : mergeIndexes flags files = some out) :
    out.keys.Pairwise (fun left right => left.key < right.key) ∧ ∀ key, entriesOf out.keys key =
        (newestFiles files).flatMap fun file =>
          flags.keptIn (flags.seqKeeper files) file key := by
  obtain ⟨range, _, rfl⟩ := Option.map_eq_some_iff.mp merged
  have sorted := flags.heapOrder_sorted (flags.seqKeeper files) wellFormed
  have led : Led none (flags.heapOrder (flags.seqKeeper files) files) :=
    led_of_sorted sorted (fun _ isNone => nomatch isNone) fun item mem fromHistory =>
      .inr (flags.heapOrder_newer _ wellFormed mem fromHistory)
  have nothing : LastFirst ([] : List (FileKey κ α)) := List.Pairwise.nil
  obtain ⟨lastFirst, entries⟩ := foldl_pushKey sorted nothing (fun _ isNone => nomatch isNone) led
  have increasing : (writeKeys (flags.heapOrder (flags.seqKeeper files) files)).Pairwise
      fun left right => left.key < right.key := pairwise_reverse.mpr lastFirst
  refine ⟨increasing, fun key => ?_⟩
  rw [← heapOrder_filter wellFormed disjoint flags _ key]
  have distinct : (List.foldl pushKey [] (flags.heapOrder (flags.seqKeeper files) files)).Pairwise
        fun left right => left.key ≠ right.key := lastFirst.imp fun less => less.ne'
  exact (entriesOf_perm distinct (reverse_perm _) key).trans (entries key)

end Order

section Range

variable {β : Type} [LinearOrder β]

theorem foldl_min_le (others : List β) (first : β) :
    others.foldl min first ≤ first ∧ ∀ other ∈ others, others.foldl min first ≤ other := by
  induction others generalizing first with
  | nil => exact ⟨le_rfl, fun other mem => absurd mem not_mem_nil⟩
  | cons other others ih =>
    obtain ⟨leFirst, leOthers⟩ := ih (min first other)
    refine ⟨leFirst.trans (min_le_left _ _), forall_mem_cons.mpr ⟨?_, leOthers⟩⟩
    exact leFirst.trans (min_le_right _ _)

theorem foldl_min_mem (others : List β) (first : β) : others.foldl min first ∈ first :: others := by
  induction others generalizing first with
  | nil => exact mem_cons_self
  | cons other others ih =>
    rcases mem_cons.mp (ih (min first other)) with isMin | inOthers
    · rw [foldl_cons, isMin]
      rcases min_choice first other with isFirst | isOther
      · simp [isFirst]
      · simp [isOther]
    · exact mem_cons_of_mem _ (mem_cons_of_mem _ inOthers)

/-- The dual of the last two. -/
theorem le_foldl_max (others : List β) (first : β) :
    (first ≤ others.foldl max first ∧ ∀ other ∈ others, other ≤ others.foldl max first) ∧
      others.foldl max first ∈ first :: others :=
  ⟨@foldl_min_le βᵒᵈ _ others first, @foldl_min_mem βᵒᵈ _ others first⟩

variable {flags : MergeFlags} {files : List (DataFile κ α)} {out : DataFile κ α}

/-- What the heap yields is in the range of one of the files. -/
theorem heapOrder_inRange
    {keeper : List Nat} (wellFormed : ∀ file ∈ files, file.WellFormed) {item : SortedKey κ α}
    (mem : item ∈ flags.heapOrder keeper files) :
    ∃ file ∈ files, file.lowestSeq ≤ item.entry.seqNum ∧ item.entry.seqNum ≤ file.highestSeq := by
  obtain ⟨file, inFiles, fileKey, inKeys, _, _, entry⟩ := flags.mem_heapOrder keeper mem
  refine ⟨file, inFiles, (wellFormed file inFiles).inRange fileKey inKeys _ ?_⟩
  exact mem_cons.mpr (entry.imp_left And.right)

/-- One range is the least that holds several others. -/
structure IsHull (files : List (DataFile κ α)) (out : DataFile κ α) : Prop where
  lowest : ∀ file ∈ files, out.lowestSeq ≤ file.lowestSeq
  highest : ∀ file ∈ files, file.highestSeq ≤ out.highestSeq
  lowestIs : ∃ file ∈ files, file.lowestSeq = out.lowestSeq
  highestIs : ∃ file ∈ files, file.highestSeq = out.highestSeq

/-- The output records the range of its inputs. -/
theorem mergeIndexes_hull (wellFormed : ∀ file ∈ files, file.WellFormed)
    (merged : mergeIndexes flags files = some out) :
    IsHull files out := by
  obtain ⟨range, isRange, rfl⟩ := Option.map_eq_some_iff.mp merged
  have inFiles : ∀ item ∈ flags.heapOrder (flags.seqKeeper files) files, ∃ file ∈ files,
      file.lowestSeq ≤ item.entry.seqNum ∧ item.entry.seqNum ≤ file.highestSeq :=
    fun item mem => heapOrder_inRange wellFormed mem
  have written : (∃ file ∈ files, file.lowestSeq ≤ range.1) ∧
      ∃ file ∈ files, range.2 ≤ file.highestSeq := by
    cases items : flags.heapOrder (flags.seqKeeper files) files with
    | nil => simp [items, writeUpdateIndex] at isRange
    | cons first others =>
      rw [items] at inFiles
      rw [items, map_cons, writeUpdateIndex, Option.some.injEq] at isRange
      subst isRange
      have lowIs := foldl_min_mem (others.map (·.entry.seqNum)) first.entry.seqNum
      have highIs := (le_foldl_max (others.map (·.entry.seqNum)) first.entry.seqNum).2
      rw [← map_cons (f := fun item : SortedKey κ α => item.entry.seqNum)] at lowIs highIs
      obtain ⟨lowItem, inLow, lowEq⟩ := mem_map.mp lowIs
      obtain ⟨highItem, inHigh, highEq⟩ := mem_map.mp highIs
      obtain ⟨lowFile, inFilesLow, above, _⟩ := inFiles lowItem inLow
      obtain ⟨highFile, inFilesHigh, _, below⟩ := inFiles highItem inHigh
      exact ⟨⟨lowFile, inFilesLow, lowEq ▸ above⟩, highFile, inFilesHigh, highEq ▸ below⟩
  obtain ⟨⟨lowFile, inFilesLow, above⟩, highFile, inFilesHigh, below⟩ := written
  obtain ⟨_, lowest⟩ := foldl_min_le (files.map (·.lowestSeq)) range.1
  obtain ⟨⟨_, highest⟩, highestIs⟩ := le_foldl_max (files.map (·.highestSeq)) range.2
  rw [forall_mem_map] at lowest highest
  refine ⟨lowest, highest, ?_, ?_⟩
  · rcases mem_cons.mp (foldl_min_mem (files.map (·.lowestSeq)) range.1) with
      isWritten | isFile
    · refine ⟨lowFile, inFilesLow, le_antisymm ?_ (lowest lowFile inFilesLow)⟩
      exact above.trans isWritten.ge
    · exact mem_map.mp isFile
  · rcases mem_cons.mp highestIs with isWritten | isFile
    · refine ⟨highFile, inFilesHigh, le_antisymm (highest highFile inFilesHigh) ?_⟩
      exact isWritten.le.trans below
    · exact mem_map.mp isFile

/-- A merge of well-formed files writes one. -/
theorem mergeIndexes_wellFormed
    (wellFormed : ∀ file ∈ files, file.WellFormed) (disjoint : files.Pairwise DataFile.Disjoint)
    (merged : mergeIndexes flags files = some out) :
    out.WellFormed := by
  have hull := mergeIndexes_hull wellFormed merged
  obtain ⟨sorted, entries⟩ := mergeIndexes_keys wellFormed disjoint merged
  have entriesAre : ∀ fileKey ∈ out.keys, fileKey.entries =
      (newestFiles files).flatMap fun file =>
        flags.keptIn (flags.seqKeeper files) file fileKey.key := by
    intro fileKey mem
    rw [← entries, entriesOf_mem (sorted.imp fun less => less.ne) mem]
  refine ⟨?_, sorted, fun fileKey mem => ?_, fun fileKey mem entry isEntry => ?_⟩
  · obtain ⟨file, inFiles, lowestIs⟩ := hull.lowestIs
    exact lowestIs ▸ (wellFormed file inFiles).range.trans (hull.highest file inFiles)
  · rw [entriesAre fileKey mem]
    exact flatMap_newestFirst wellFormed disjoint fun file => flags.keptIn_sublist _ file _
  · rw [entriesAre fileKey mem] at isEntry
    obtain ⟨file, inNewest, isKept⟩ := mem_flatMap.mp isEntry
    have inFiles := (newestFiles_perm files).mem_iff.mp inNewest
    have isEntry := (flags.keptIn_sublist _ file _).subset isKept
    have inRange := ((wellFormed file inFiles).entriesOf fileKey.key).2 entry isEntry
    exact ⟨(hull.lowest file inFiles).trans inRange.1, inRange.2.trans (hull.highest file inFiles)⟩

end Range

end Orly
