import Orly.OperationBudget

namespace Orly

/-!
# Loading a snapshot gives its entries back

`Load` changes the table as it reads, so a payload that is cut short could leave part of
itself behind.  The model here follows it statement by statement; it agrees with
`OperationTable.load` when nothing is thrown.  The length of the operations section is
written in four bytes, and that is the one thing that can keep a snapshot from coming
back.
-/

open LittleEndian ByteReader FoldRules List OperationTable SnapshotItem

/-! ## Loading in place -/

/-- What `LoadOperations` reads before the entries of a point of view. -/
def readPovHeader : Reader (Uuid × Nat × Nat) := do
  let povId ← readUuid
  let watermark ← number 8
  let count ← number 4
  pure (povId, watermark, count)

/-- What `Load` reads of a section before it looks at the kind. -/
def readSectionBody : Reader (Nat × Nat × List UInt8) := do
  let kind ← number 2
  let flags ← number 2
  let length ← number 4
  let body ← bytes length
  pure (kind, flags, body)

/-- What `Load` reads before the sections. -/
def readSectionCount : Reader Nat := do
  let version ← number 2
  let _ ← check (if version = payloadVersion then some () else none)
  number 2

namespace OperationTable

variable (table : OperationTable)

/-- The entries of a point of view into the table, and the bytes after them; `none` where
the source throws. -/
def loadEntries (clock : RestoreClock) (povId : Uuid) :
    Nat → OperationTable → List UInt8 → OperationTable × Option (List UInt8)
  | 0, table, left => (table, some left)
  | count + 1, table, left =>
    match readEntry left with
    | none => (table, none)
    | some (entry, after) =>
      loadEntries clock povId count
        (table.restore povId entry.opId entry.outcome (clock povId entry.opId)) after

/-- The points of view of a section into the table; `false` where the source throws. -/
def loadPovs (clock : RestoreClock) : Nat → OperationTable → List UInt8 → OperationTable × Bool
  | 0, table, _ => (table, true)
  | count + 1, table, left =>
    match readPovHeader left with
    | none => (table, false)
    | some ((povId, watermark, entries), after) =>
      match loadEntries clock povId entries (table.raiseWatermark povId watermark) after with
      | (loaded, none) => (loaded, false)
      | (loaded, some after) => loadPovs clock count loaded after

/-- `LoadOperations`. -/
def loadOperations (clock : RestoreClock) (body : List UInt8) : OperationTable × Bool :=
  match number 4 body with
  | none => (table, false)
  | some (count, after) => loadPovs clock count table after

/-- The sections of a payload into the table. -/
def loadSections (clock : RestoreClock) : Nat → OperationTable → List UInt8 → OperationTable × Bool
  | 0, table, _ => (table, true)
  | count + 1, table, left =>
    match readSectionBody left with
    | none => (table, false)
    | some ((kind, flags, body), after) =>
      if kind = operationsSection then
        match table.loadOperations clock body with
        | (loaded, false) => (loaded, false)
        | (loaded, true) => loadSections clock count loaded after
      else if flags % 2 = sectionRequired then
        (table, false)
      else
        loadSections clock count table after

/-- `Load`, with the table it leaves and whether it returned. -/
def loadInPlace (payload : List UInt8) (clock : RestoreClock) : OperationTable × Bool :=
  match readSectionCount payload with
  | none => (table, false)
  | some (count, after) => loadSections clock count table after

/-- The table of a loader that has returned. -/
def returned (result : OperationTable × Bool) : Option OperationTable :=
  if result.2 then some result.1 else none

variable (clock : RestoreClock)

theorem loadEntries_eq (povId : Uuid) (count : Nat) (table : OperationTable) (left : List UInt8) :
    (loadEntries clock povId count table left).2.map
        ((loadEntries clock povId count table left).1, ·) =
      (times readEntry count left).map fun read =>
        (read.1.foldl
          (fun loaded entry =>
            loaded.restore povId entry.opId entry.outcome (clock povId entry.opId)) table,
          read.2) := by
  induction count generalizing table left with
  | zero => rfl
  | succ count ih =>
    rw [times_succ]
    cases found : readEntry left with
    | none => simp [loadEntries, found]
    | some read =>
      rw [loadEntries, found]
      simp only [ih, Option.bind_some, Option.map_map]
      rfl

theorem readPov_eq (left : List UInt8) :
    readPov left = (readPovHeader left).bind fun header =>
      (times readEntry header.1.2.2 header.2).map fun read =>
        (⟨header.1.1, header.1.2.1, read.1⟩, read.2) := by
  have split : readPov = readPovHeader >>= fun header =>
      times readEntry header.2.2 >>= fun entries =>
        pure { povId := header.1, watermark := header.2.1, entries } := by
    simp [readPov, readPovHeader]
  rw [split, bind_apply]
  simp only [bind_pure_apply]

theorem loadPovs_returned (count : Nat) (table : OperationTable) (left : List UInt8) :
    returned (loadPovs clock count table left) =
      (times readPov count left).map fun read =>
        read.1.foldl (loadPov clock) table := by
  induction count generalizing table left with
  | zero => rfl
  | succ count ih =>
    rw [times_succ, readPov_eq, loadPovs]
    cases readPovHeader left with
    | none => rfl
    | some read =>
      obtain ⟨⟨povId, watermark, entries⟩, middle⟩ := read
      have loads := loadEntries_eq clock povId entries (table.raiseWatermark povId watermark) middle
      cases isLoaded : loadEntries clock povId entries
          (table.raiseWatermark povId watermark) middle with
      | mk before rest =>
        rw [isLoaded] at loads
        cases rest with
        | none =>
          have cut := Option.map_eq_none_iff.mp loads.symm
          simp [isLoaded, cut, returned]
        | some next =>
          obtain ⟨read, isRead, same⟩ := Option.map_eq_some_iff.mp loads.symm
          obtain ⟨rfl, rfl⟩ := Prod.mk.inj same
          simp only [isLoaded, isRead, ih, Option.bind_some, Option.map_some, Option.map_map]
          rfl

theorem loadOperations_returned (body : List UInt8) : returned (table.loadOperations clock body) =
      (readOperations body).map fun read => read.1.foldl (loadPov clock) table := by
  rw [loadOperations, readOperations, bind_apply]
  cases number 4 body with
  | none => rfl
  | some header => exact loadPovs_returned ..

/-- What a section comes to, from its kind, flags and body. -/
theorem readSection_eq (left : List UInt8) :
    readSection left = (readSectionBody left).bind fun part =>
      (if part.1.1 = operationsSection then
        (readOperations part.1.2.2).map Prod.fst
      else if part.1.2.1 % 2 = sectionRequired then
        none
      else
        some []).map fun povs => (povs, part.2) := by
  have split : readSection = readSectionBody >>= fun part =>
      check
        (if part.1 = operationsSection then
          (readOperations part.2.2).map Prod.fst
        else if part.2.1 % 2 = sectionRequired then
          none
        else
          some []) := by
    simp [readSection, readSectionBody]
  rw [split]
  rfl

theorem loadSections_returned (count : Nat) (table : OperationTable) (left : List UInt8) :
    returned (loadSections clock count table left) =
      (times readSection count left).map fun read =>
        read.1.flatten.foldl (loadPov clock) table := by
  induction count generalizing table left with
  | zero => rfl
  | succ count ih =>
    rw [times_succ, readSection_eq, loadSections]
    cases readSectionBody left with
    | none => rfl
    | some read =>
      obtain ⟨⟨kind, flags, body⟩, middle⟩ := read
      simp only [Option.bind_some]
      split
      case isTrue =>
        have loads := loadOperations_returned table clock body
        cases isLoaded : table.loadOperations clock body with
        | mk before isReturned =>
          rw [isLoaded] at loads
          cases isReturned with
          | false =>
            have cut := Option.map_eq_none_iff.mp loads.symm
            simp [cut, returned]
          | true =>
            obtain ⟨read, isRead, rfl⟩ := Option.map_eq_some_iff.mp loads.symm
            simp [isRead, ih, Function.comp_def]
      case isFalse =>
        split
        case isTrue => rfl
        case isFalse => simp [ih, Function.comp_def]

/-- Loading in place returns exactly where the whole payload can be read, and then
leaves the same table. -/
theorem loadInPlace_returned (payload : List UInt8) :
    returned (table.loadInPlace payload clock) = table.load payload clock := by
  have split : readPayload = readSectionCount >>= fun count =>
      times readSection count >>= fun sections => pure sections.flatten := by
    simp [readPayload, readSectionCount]
  rw [loadInPlace, load, split, bind_apply]
  cases readSectionCount payload with
  | none => rfl
  | some header =>
    simp only [Option.bind_some, bind_pure_apply, Option.map_map, loadSections_returned]
    rfl

variable {clock} {table loaded : OperationTable}

/-- Loading in place succeeds where the payload reads. -/
theorem loadInPlace_eq_true_iff {payload : List UInt8} :
    table.loadInPlace payload clock = (loaded, true) ↔ table.load payload clock = some loaded := by
  rw [← loadInPlace_returned, returned]
  cases table.loadInPlace payload clock with
  | mk left isReturned => cases isReturned <;> simp

end OperationTable

/-! ## A payload that is cut -/

section Cutting

variable {povs : List SnapshotPov} {table : OperationTable} {clock : RestoreClock}

/-- The section of a payload. -/
def encodeSection (povs : List SnapshotPov) : List UInt8 :=
  toBytes 2 operationsSection ++
    (toBytes 2 sectionRequired ++
      (toBytes 4 (encodeOperations povs).length ++ encodeOperations povs))

theorem encodePayload_eq (povs : List SnapshotPov) : encodePayload povs =
      (toBytes 2 payloadVersion ++ toBytes 2 1) ++ encodeSection povs := by
  rw [append_assoc]
  rfl

theorem takes_sectionCount :
    Takes readSectionCount (toBytes 2 payloadVersion ++ toBytes 2 1) 1 := by
  refine (takes_number (by decide)).bind ?_
  exact .check_bind (if_pos rfl) (takes_number (by decide))

/-- A section whose length does not wrap is not read from less than all of it. -/
theorem needs_sectionBody (bodyShort : (encodeOperations povs).length < 2 ^ 32) :
    Needs readSectionBody (encodeSection povs) := by
  refine (needs_number _ _).bind (reads_number (by decide)) ?_
  refine (needs_number _ _).bind (reads_number (by decide)) ?_
  refine (needs_number _ _).bind (reads_number bodyShort) ?_
  exact (needs_bytes _).bind_pure (reads_bytes _)

/-- A payload that is cut leaves the table as it was. -/
theorem loadInPlace_take (bodyShort : (encodeOperations povs).length < 2 ^ 32) {count : Nat}
    (isShort : count < (encodePayload povs).length) :
    table.loadInPlace ((encodePayload povs).take count) clock = (table, false) := by
  rw [encodePayload_eq] at isShort ⊢
  set start := toBytes 2 payloadVersion ++ toBytes 2 1
  rcases Nat.lt_or_ge count start.length with inStart | past
  · rw [take_append_of_le_length (Nat.le_of_lt inStart), loadInPlace,
      takes_sectionCount.needs count inStart]
  · obtain ⟨more, rfl⟩ := Nat.exists_eq_add_of_le past
    have moreShort : more < (encodeSection povs).length := by
      have whole : (start ++ encodeSection povs).length =
          start.length + (encodeSection povs).length := length_append
      omega
    rw [take_length_add_append, loadInPlace, takes_sectionCount.reads]
    simp only [loadSections, needs_sectionBody bodyShort more moreShort]

/-- A section is read up to its length modulo four bytes, whatever is left. -/
theorem readSectionBody_wrapped (length : Nat) {body : List UInt8}
    (enough : length % 2 ^ 32 ≤ body.length) :
    readSectionBody
        (toBytes 2 operationsSection ++ (toBytes 2 sectionRequired ++ (toBytes 4 length ++ body))) =
      some ((operationsSection, sectionRequired, body.take (length % 2 ^ 32)),
        body.drop (length % 2 ^ 32)) := by
  have kind : Reads (number 2) (toBytes 2 operationsSection) operationsSection :=
    reads_number (by decide)
  have flags : Reads (number 2) (toBytes 2 sectionRequired) sectionRequired :=
    reads_number (by decide)
  have wrapped : Reads (number 4) (toBytes 4 length) (length % 2 ^ 32) := reads_number_mod 4 length
  refine bind_eq_some_iff.mpr ⟨_, _, kind _, ?_⟩
  refine bind_eq_some_iff.mpr ⟨_, _, flags _, ?_⟩
  refine bind_eq_some_iff.mpr ⟨_, _, wrapped _, ?_⟩
  refine bind_eq_some_iff.mpr ⟨_, _, ?_, rfl⟩
  rw [bytes, if_neg (by omega)]

/-- Where the length of the section wraps, a payload that is cut loads as the whole one
does. -/
theorem exists_cut_of_wrapped (clock : RestoreClock)
    (long : 2 ^ 32 ≤ (encodeOperations povs).length) :
    ∃ count < (encodePayload povs).length, ∀ table : OperationTable,
      table.loadInPlace ((encodePayload povs).take count) clock =
        table.loadInPlace (encodePayload povs) clock := by
  set body := encodeOperations povs with isBody
  set wrapped := body.length % 2 ^ 32 with isWrapped
  have less : wrapped < body.length := Nat.lt_of_lt_of_le (Nat.mod_lt _ (by decide)) long
  have cut : (encodePayload povs).take (12 + wrapped) = (toBytes 2 payloadVersion ++ toBytes 2 1) ++
        (toBytes 2 operationsSection ++
          (toBytes 2 sectionRequired ++ (toBytes 4 body.length ++ body.take wrapped))) := by
    have parts : encodePayload povs =
        (toBytes 2 payloadVersion ++ toBytes 2 1 ++ toBytes 2 operationsSection ++
          toBytes 2 sectionRequired ++ toBytes 4 body.length) ++ body := by
      simp [encodePayload, isBody]
    have twelve : 12 = (toBytes 2 payloadVersion ++ toBytes 2 1 ++ toBytes 2 operationsSection ++
        toBytes 2 sectionRequired ++ toBytes 4 body.length).length := by
      simp
    rw [parts, twelve, take_length_add_append]
    simp only [append_assoc]
  refine ⟨12 + wrapped, ?_, ?_⟩
  · simp only [encodePayload, length_append, length_toBytes, ← isBody]
    omega
  · intro table
    have enough : body.length % 2 ^ 32 ≤ (body.take wrapped).length := by
      rw [length_take]
      omega
    have same : (body.take wrapped).take (body.length % 2 ^ 32) =
        body.take (body.length % 2 ^ 32) := by
      rw [take_take, Nat.min_self]
    rw [cut, encodePayload_eq, loadInPlace, loadInPlace,
      takes_sectionCount.reads, takes_sectionCount.reads]
    simp only [loadSections, encodeSection, ← isBody]
    rw [readSectionBody_wrapped body.length enough,
      readSectionBody_wrapped body.length (Nat.le_of_lt less), same]

/-- A body of exactly the size at which its length wraps to 0 is refused. -/
theorem loadInPlace_of_wrapped_zero (table : OperationTable) (clock : RestoreClock)
    (zero : (encodeOperations povs).length % 2 ^ 32 = 0) :
    table.loadInPlace (encodePayload povs) clock = (table, false) := by
  have read := readSectionBody_wrapped (encodeOperations povs).length
    (Nat.mod_le (encodeOperations povs).length (2 ^ 32))
  rw [zero, take_zero, drop_zero] at read
  rw [encodePayload_eq, loadInPlace, takes_sectionCount.reads]
  simp only [loadSections, encodeSection, read]
  rfl

end Cutting

/-! ## What is loaded -/

/-- With room, nothing is pruned. -/
theorem prune_eq_self
    {table : OperationTable} {now : Nat} (few : table.done.length ≤ table.config.retentionCount)
    (young : ∀ key ∈ table.done, now ≤ key.opId.timestampMs + table.config.ageMs) :
    table.prune now = table := by
  rw [prune]
  cases isDone : table.done with
  | nil => rfl
  | cons key rest =>
    rw [isDone, length_cons] at few
    have keyYoung := young key (by rw [isDone]; exact mem_cons_self)
    rw [pruneLoop, if_pos]
    refine ⟨few, ?_⟩
    split
    case isTrue => omega
    case isFalse => exact Nat.zero_le _

/-- The items a snapshot has kept, and the watermarks that stand for the others. -/
structure KeptItems where
  items : List SnapshotItem
  marks : Watermarks
  unique : ∀ left ∈ items, ∀ right ∈ items,
    left.povId = right.povId → left.entry.opId = right.entry.opId → left = right

/-- A table has room for the items, and none of them is too old when one is restored. -/
structure RoomFor (table : OperationTable) (clock : RestoreClock)
    (items : List SnapshotItem) : Prop where
  count : items.length ≤ table.config.retentionCount
  age : ∀ item ∈ items, ∀ other ∈ items,
    clock item.povId item.entry.opId ≤ other.entry.opId.timestampMs + table.config.ageMs

/-- The slot that loading makes of an item. -/
def SnapshotItem.slot (item : SnapshotItem) : Slot where
  isDone := true
  outcome := item.entry.outcome

/-- A table while a snapshot is loaded: it has nothing but what the snapshot has. -/
structure PartLoaded (fresh : OperationTable) (kept : KeptItems)
    (table : OperationTable) : Prop where
  config : table.config = fresh.config
  nodup : table.done.Nodup
  keys : ∀ key ∈ table.done, ∃ item ∈ kept.items, key = ⟨item.povId, item.entry.opId⟩
  slots : ∀ povId opId slot, table.slot? povId opId = some slot →
    ∃ item ∈ kept.items, item.povId = povId ∧ item.entry.opId = opId ∧ slot = item.slot
  marks : ∀ povId, table.expiredBefore povId ≤ kept.marks.mark povId

/-- An action that a snapshot of the items asks for. -/
def RecoveryAction.Asked (kept : KeptItems) (clock : RestoreClock) : RecoveryAction → Prop
  | .raise povId watermark => watermark = kept.marks.mark povId
  | .restore povId opId outcome now =>
    now = clock povId opId ∧ ∃ item ∈ kept.items, item.povId = povId ∧ item.entry.opId = opId ∧
        item.entry.outcome = outcome

section Loads

variable {fresh table : OperationTable} {kept : KeptItems} {clock : RestoreClock}

namespace PartLoaded

variable (part : PartLoaded fresh kept table) (room : RoomFor fresh clock kept.items)
  {item : SnapshotItem} {action : RecoveryAction}

include part

/-- The entries that are done once an item is restored. -/
theorem keys_insertDone (isKept : item ∈ kept.items) :
    ∀ key ∈ insertDone ⟨item.povId, item.entry.opId⟩ table.done,
      ∃ other ∈ kept.items, key = ⟨other.povId, other.entry.opId⟩ := by
  intro key mem
  rcases mem_insertDone.mp mem with rfl | before
  · exact ⟨item, isKept, rfl⟩
  · exact part.keys key before

include room

/-- There is nothing to prune when an item is restored. -/
theorem restore_eq (isKept : item ∈ kept.items) :
    table.restore item.povId item.entry.opId item.entry.outcome (clock item.povId item.entry.opId) =
      table.stored item.povId item.entry.opId item.entry.outcome := by
  have keys := part.keys_insertDone isKept
  refine prune_eq_self ?_ ?_
  · have listed : insertDone ⟨item.povId, item.entry.opId⟩ table.done ⊆
        kept.items.map fun other => ⟨other.povId, other.entry.opId⟩ := by
      intro key mem
      obtain ⟨other, isOther, rfl⟩ := keys key mem
      exact mem_map_of_mem isOther
    have bound := ((nodup_insertDone part.nodup).subperm listed).length_le
    rw [length_map] at bound
    have count := room.count
    rw [← part.config] at count
    exact Nat.le_trans bound count
  · intro key mem
    obtain ⟨other, isOther, rfl⟩ := keys key mem
    show clock item.povId item.entry.opId ≤ other.entry.opId.timestampMs + table.config.ageMs
    rw [part.config]
    exact room.age item isKept other isOther

variable (asked : action.Asked kept clock)

include asked

theorem apply : PartLoaded fresh kept (action.apply table) := by
  cases action with
  | raise povId watermark =>
    refine { part with slots := ?_, marks := ?_ }
    · intro otherPov opId slot found
      rw [RecoveryAction.apply, slot?_raiseWatermark] at found
      exact part.slots otherPov opId slot found
    · intro otherPov
      rw [RecoveryAction.apply, expiredBefore_raiseWatermark]
      split
      case isTrue same =>
        rw [show watermark = kept.marks.mark povId from asked, same]
        exact max_le (part.marks povId) (Nat.le_refl _)
      case isFalse => exact part.marks otherPov
  | restore povId opId outcome now =>
    obtain ⟨rfl, item, isKept, rfl, rfl, rfl⟩ := asked
    rw [RecoveryAction.apply, part.restore_eq room isKept]
    refine
      { config := part.config
        nodup := nodup_insertDone part.nodup
        keys := part.keys_insertDone isKept
        slots := ?_
        marks := ?_ }
    · intro otherPov otherOp slot found
      rw [slot?_stored] at found
      split at found
      case isTrue same =>
        obtain ⟨rfl, rfl⟩ := same
        exact ⟨item, isKept, rfl, rfl, (Option.some.inj found).symm⟩
      case isFalse => exact part.slots otherPov otherOp slot found
    · intro otherPov
      rw [expiredBefore_stored]
      exact part.marks otherPov

/-- What an item's slot is, it stays. -/
theorem keeps_slot (isKept : item ∈ kept.items)
    (found : table.slot? item.povId item.entry.opId = some item.slot) :
    (action.apply table).slot? item.povId item.entry.opId = some item.slot := by
  cases action with
  | raise povId watermark => rwa [RecoveryAction.apply, slot?_raiseWatermark]
  | restore povId opId outcome now =>
    obtain ⟨rfl, other, isOther, rfl, rfl, rfl⟩ := asked
    rw [RecoveryAction.apply, part.restore_eq room isOther, slot?_stored]
    split
    case isTrue same =>
      rw [kept.unique item isKept other isOther same.1 same.2]
      rfl
    case isFalse => exact found

theorem keeps_mark {povId : Uuid} {ms : Nat} (reached : ms ≤ table.expiredBefore povId) :
    ms ≤ (action.apply table).expiredBefore povId := by
  cases action with
  | raise otherPov watermark =>
    rw [RecoveryAction.apply, expiredBefore_raiseWatermark]
    split
    case isTrue same => exact Nat.le_trans (same ▸ reached) (le_max_left ..)
    case isFalse => exact reached
  | restore otherPov opId outcome now =>
    obtain ⟨rfl, other, isOther, rfl, rfl, rfl⟩ := asked
    rw [RecoveryAction.apply, part.restore_eq room isOther, expiredBefore_stored]
    exact reached

end PartLoaded

/-- The actions of a grouped snapshot are asked for. -/
theorem asked_actions (kept : KeptItems) (clock : RestoreClock) :
    ∀ action ∈ (groupItems kept.items kept.marks).flatMap (SnapshotPov.actions clock),
      action.Asked kept clock := by
  intro action mem
  obtain ⟨pov, inPovs, inActions⟩ := mem_flatMap.mp mem
  obtain ⟨isMark, entries⟩ := mem_groupItems inPovs
  rcases mem_cons.mp inActions with rfl | inEntries
  · exact isMark
  · obtain ⟨entry, isEntry, rfl⟩ := mem_map.mp inEntries
    exact ⟨rfl, ⟨pov.povId, entry⟩, (entries entry).mp isEntry, rfl, rfl, rfl⟩

/-- A table that has just what a snapshot has. -/
structure Loaded (kept : KeptItems) (table : OperationTable) : Prop where
  slots : ∀ povId opId slot, table.slot? povId opId = some slot ↔
    ∃ item ∈ kept.items, item.povId = povId ∧ item.entry.opId = opId ∧ slot = item.slot
  marks : ∀ povId, table.expiredBefore povId = kept.marks.mark povId

theorem loaded_groupItems (empty : PartLoaded fresh kept fresh)
    (room : RoomFor fresh clock kept.items) :
    Loaded kept ((groupItems kept.items kept.marks).foldl (loadPov clock) fresh) := by
  rw [loadPovs_eq]
  set actions := (groupItems kept.items kept.marks).flatMap (SnapshotPov.actions clock)
    with isActions
  have asked : ∀ action ∈ actions, action.Asked kept clock := asked_actions kept clock
  have keeps : ∀ action ∈ actions, ∀ table, PartLoaded fresh kept table →
      PartLoaded fresh kept (action.apply table) :=
    fun action mem _ part => part.apply room (asked action mem)
  have final := foldl_keeps (PartLoaded fresh kept) actions keeps empty
  refine
    { slots := fun povId opId slot => ⟨final.slots povId opId slot, ?_⟩
      marks := fun povId => Nat.le_antisymm (final.marks povId) ?_ }
  · rintro ⟨item, isKept, rfl, rfl, rfl⟩
    obtain ⟨pov, inPovs, isPov⟩ :
        ∃ pov ∈ groupItems kept.items kept.marks, pov.povId = item.povId :=
      exists_mem_groupItems (Or.inl ⟨item.entry, isKept⟩)
    have inEntries : item.entry ∈ pov.entries :=
      ((mem_groupItems inPovs).2 item.entry).mpr (isPov ▸ isKept)
    have mem : RecoveryAction.restore item.povId item.entry.opId item.entry.outcome
        (clock item.povId item.entry.opId) ∈ actions := by
      refine mem_flatMap.mpr ⟨pov, inPovs, mem_cons_of_mem _ ?_⟩
      exact mem_map.mpr ⟨item.entry, inEntries, by rw [isPov]⟩
    refine foldl_establishes (PartLoaded fresh kept)
      (fun table => table.slot? item.povId item.entry.opId = some item.slot) actions keeps
      (fun action inActions _ part => part.keeps_slot room (asked action inActions) isKept)
      mem ?_ empty
    intro table part
    rw [RecoveryAction.apply, part.restore_eq room isKept, slot?_stored, if_pos ⟨rfl, rfl⟩]
    rfl
  · rcases Nat.eq_zero_or_pos (kept.marks.mark povId) with zero | marked
    · rw [zero]
      exact Nat.zero_le _
    · obtain ⟨pov, inPovs, rfl⟩ : ∃ pov ∈ groupItems kept.items kept.marks, pov.povId = povId :=
        exists_mem_groupItems (Or.inr marked)
      have mem : RecoveryAction.raise pov.povId pov.watermark ∈ actions :=
        mem_flatMap.mpr ⟨pov, inPovs, mem_cons_self⟩
      refine foldl_establishes (PartLoaded fresh kept)
        (fun table => kept.marks.mark pov.povId ≤ table.expiredBefore pov.povId) actions keeps
        (fun action inActions _ part => part.keeps_mark room (asked action inActions))
        mem ?_ empty
      intro table _
      rw [RecoveryAction.apply, expiredBefore_raiseWatermark, if_pos rfl, (mem_groupItems inPovs).1]
      exact le_max_right ..

end Loads

/-! ## What trimming keeps -/

/-- A watermark after the items that were trimmed raised it. -/
def raisedBy (trimmed : List SnapshotItem) (povId : Uuid) (mark : Nat) : Nat :=
  (trimmed.filter fun item => item.povId = povId).foldl
    (fun mark item => max mark item.entry.opId.timestampMs) mark

theorem le_raisedBy {trimmed : List SnapshotItem} {item : SnapshotItem} (isTrimmed : item ∈ trimmed)
    (mark : Nat) :
    item.entry.opId.timestampMs ≤ raisedBy trimmed item.povId mark := by
  refine foldl_establishes (fun _ => True) (item.entry.opId.timestampMs ≤ ·)
    (trimmed.filter fun other => other.povId = item.povId) (fun _ _ _ => id)
    (fun other _ mark _ reached => Nat.le_trans reached (le_max_left ..))
    (mem_filter.mpr ⟨isTrimmed, decide_eq_true rfl⟩) ?_ trivial
  intro mark _
  exact le_max_right ..

/-- The trimming loop drops items from the start of the list and raises the watermarks
by what it drops. -/
theorem exists_trimmed (budget : Nat) (items : List SnapshotItem) (total : Nat)
    (marks : Watermarks) :
    let left := trimItems budget items total marks
    ∃ trimmed, items = trimmed ++ left.1 ∧
      ∀ povId, left.2.mark povId = raisedBy trimmed povId (marks.mark povId) := by
  induction items generalizing total marks with
  | nil => exact ⟨[], rfl, fun _ => rfl⟩
  | cons item rest ih =>
    rw [trimItems]
    split
    case isFalse => exact ⟨[], rfl, fun _ => rfl⟩
    case isTrue =>
      obtain ⟨trimmed, split, raised⟩ := ih (total - item.size)
        (marks.raise item.povId item.entry.opId.timestampMs)
      refine ⟨item :: trimmed, by rw [cons_append, ← split], ?_⟩
      intro povId
      rw [raised, mark_raise, raisedBy, raisedBy, filter_cons]
      by_cases same : povId = item.povId
      · simp [same]
      · simp [same, Ne.symm same]

/-- No longer end of the list fits the budget. -/
theorem sum_le_trimItems (budget headers : Nat) (items : List SnapshotItem) (marks : Watermarks)
    {rest : List SnapshotItem} (isEnd : rest <:+ items)
    (fits : headers + (rest.map size).sum ≤ budget) :
    (rest.map size).sum ≤
      ((trimItems budget items (headers + (items.map size).sum) marks).1.map size).sum := by
  induction items generalizing marks with
  | nil =>
    rw [List.suffix_nil.mp isEnd]
    exact Nat.zero_le _
  | cons item items ih =>
    rw [trimItems]
    split
    case isFalse =>
      obtain ⟨before, isItems⟩ := isEnd
      show _ ≤ ((item :: items).map size).sum
      rw [← isItems, map_append, sum_append]
      exact Nat.le_add_left ..
    case isTrue tooLong =>
      rcases List.suffix_cons_iff.mp isEnd with rfl | later
      · omega
      · have left : headers + ((item :: items).map size).sum - item.size =
            headers + (items.map size).sum := by
          rw [map_cons, sum_cons]
          omega
        rw [left]
        exact ih _ later

namespace OperationTable

variable {table : OperationTable} {headLsn budget : Nat} {sorted : List SnapshotItem}

/-- The items a snapshot keeps, from its sorted items. -/
def keptItems (table : OperationTable) (budget : Nat)
    (sorted : List SnapshotItem) : List SnapshotItem :=
  (trimItems budget sorted (snapshotSize sorted table.watermarks) table.watermarks).1

/-- The bytes of a snapshot without its entries. -/
def headerBytes (table : OperationTable) (headLsn : Nat) : Nat :=
  16 + 28 * (table.listedPovs headLsn).length

/-- The four bytes of the section's length hold it: the headers alone are short enough,
and so is each end of the list of items that fits the budget. -/
def SectionFits (table : OperationTable) (headLsn budget : Nat)
    (sorted : List SnapshotItem) : Prop :=
  ∀ rest, rest <:+ sorted →
    rest = [] ∨ table.headerBytes headLsn + (rest.map SnapshotItem.size).sum ≤ budget →
      table.headerBytes headLsn + (rest.map SnapshotItem.size).sum < 2 ^ 32 + 12

theorem length_snapshot_eq (budget : Nat)
    (arranged : ByTimestamp sorted (table.snapshotItems headLsn)) :
    (table.snapshot budget sorted).length =
      table.headerBytes headLsn + ((table.keptItems budget sorted).map size).sum := by
  have povs := (snapshotSize_trimItems budget sorted table.watermarks).2
  rw [length_listedPovs arranged] at povs
  rw [snapshot, snapshotPovs, length_encode_groupItems, snapshotSize, povs, headerBytes, keptItems]
  omega

/-- A section fits if its length fits four bytes. -/
theorem sectionFits_iff (arranged : ByTimestamp sorted (table.snapshotItems headLsn)) :
    table.SectionFits headLsn budget sorted ↔
      (table.snapshot budget sorted).length < 2 ^ 32 + 12 := by
  have total : snapshotSize sorted table.watermarks =
      table.headerBytes headLsn + (sorted.map SnapshotItem.size).sum := by
    rw [snapshotSize, length_listedPovs arranged, headerBytes]
    omega
  have within := (snapshotSize_trimItems budget sorted table.watermarks).1
  obtain ⟨trimmed, split, _⟩ := exists_trimmed budget sorted
    (snapshotSize sorted table.watermarks) table.watermarks
  have size := length_snapshot_eq budget arranged
  rw [snapshot, snapshotPovs, length_encode_groupItems] at size
  rw [length_snapshot_eq budget arranged]
  constructor
  · intro fits
    refine fits _ ⟨trimmed, split.symm⟩ ?_
    rcases within with isWithin | isEmpty
    · exact Or.inr (size ▸ isWithin)
    · exact Or.inl isEmpty
  · intro short rest isEnd allowed
    refine Nat.lt_of_le_of_lt (Nat.add_le_add_left ?_ _) short
    rcases allowed with rfl | fits
    · exact Nat.zero_le _
    · rw [keptItems, total]
      exact sum_le_trimItems budget _ sorted table.watermarks isEnd fits

theorem mark_watermarks (povId : Uuid) :
    table.watermarks.mark povId = table.expiredBefore povId := by
  refine Nat.le_antisymm ?_ expiredBefore_le_watermarks
  refine foldl_keeps (fun marks : Watermarks => marks.mark povId ≤ table.expiredBefore povId)
    table.tableByPov.entries ?_ (Nat.zero_le _)
  rintro ⟨otherPov, pov⟩ mem marks below
  split
  case isFalse => exact below
  case isTrue =>
    rw [mark_raise]
    split
    case isFalse => exact below
    case isTrue same =>
      subst same
      refine max_le below ?_
      have lookup : table.tableByPov.lookup povId = some pov := AList.mem_lookup_iff.mpr mem
      rw [expiredBefore, povTable, lookup, Option.getD_some]

/-! ## The round trip -/

/-- A snapshot reads back exactly: the table loaded has the kept entries and no others,
the watermarks as the trimmed entries raised them, and refuses those entries; and a
snapshot that is cut is refused and changes nothing. -/
structure ReadsBack
    (table : OperationTable) (budget : Nat) (sorted : List SnapshotItem) (fresh : OperationTable)
    (clock : RestoreClock) : Prop where
  whole : ∃ loaded trimmed, sorted = trimmed ++ table.keptItems budget sorted ∧
    fresh.loadInPlace (table.snapshot budget sorted) clock = (loaded, true) ∧
    (∀ povId opId slot, loaded.slot? povId opId = some slot ↔
      ∃ item ∈ table.keptItems budget sorted,
        item.povId = povId ∧ item.entry.opId = opId ∧ slot = item.slot) ∧
    (∀ povId, loaded.expiredBefore povId = raisedBy trimmed povId (table.expiredBefore povId)) ∧
    ∀ item ∈ trimmed, ∀ hash now,
      (loaded.reserve item.povId item.entry.opId.val hash now).2 = .refused .expired
  cut : ∀ count < (table.snapshot budget sorted).length, ∀ other : OperationTable,
    other.loadInPlace ((table.snapshot budget sorted).take count) clock = (other, false)

theorem snapshotItems_unique
    {left right : SnapshotItem} (isLeft : left ∈ table.snapshotItems headLsn)
    (isRight : right ∈ table.snapshotItems headLsn) (samePov : left.povId = right.povId)
    (sameOp : left.entry.opId = right.entry.opId) :
    left = right := by
  obtain ⟨leftPov, leftOp, leftSlot, leftFound, _, rfl⟩ := mem_snapshotItems.mp isLeft
  obtain ⟨rightPov, rightOp, rightSlot, rightFound, _, rfl⟩ := mem_snapshotItems.mp isRight
  obtain rfl : leftPov = rightPov := samePov
  obtain rfl : leftOp = rightOp := sameOp
  rw [leftFound] at rightFound
  rw [Option.some.inj rightFound]

theorem nodup_snapshotItems (table : OperationTable) (headLsn : Nat) :
    (table.snapshotItems headLsn).Nodup := by
  rw [snapshotItems, nodup_flatMap]
  constructor
  · rintro ⟨povId, pov⟩ _
    have distinct := nodupKeys_iff_pairwise.mp pov.slotByOp.nodupKeys
    refine pairwise_filterMap.mpr (distinct.imp ?_)
    rintro ⟨leftOp, leftSlot⟩ ⟨rightOp, rightSlot⟩ differ item isLeft _ isRight rfl
    obtain ⟨_, leftIs⟩ := Option.ite_none_right_eq_some.mp isLeft
    obtain ⟨_, rightIs⟩ := Option.ite_none_right_eq_some.mp isRight
    have same : leftOp = rightOp :=
      congrArg (fun item => item.entry.opId) (Option.some.inj (leftIs.trans rightIs.symm))
    exact differ same
  · refine (nodupKeys_iff_pairwise.mp table.tableByPov.nodupKeys).imp ?_
    rintro ⟨leftPov, left⟩ ⟨rightPov, right⟩ differ item isLeft isRight
    obtain ⟨leftSlot, _, leftItem⟩ := mem_filterMap.mp isLeft
    obtain ⟨rightSlot, _, rightItem⟩ := mem_filterMap.mp isRight
    obtain ⟨_, leftIs⟩ := Option.ite_none_right_eq_some.mp leftItem
    obtain ⟨_, rightIs⟩ := Option.ite_none_right_eq_some.mp rightItem
    have same : leftPov = rightPov :=
      congrArg SnapshotItem.povId (Option.some.inj (leftIs.trans rightIs.symm))
    exact differ same

theorem length_snapshot_body (table : OperationTable) (budget : Nat) (sorted : List SnapshotItem) :
    (table.snapshot budget sorted).length =
      12 + (encodeOperations (table.snapshotPovs budget sorted)).length := by
  simp only [snapshot, encodePayload, length_append, length_toBytes]
  omega

/-- A snapshot of a reachable table reads back exactly if and only if the length of its
section fits four bytes. -/
theorem readsBack_iff_sectionFits
    {config : OperationConfig} {table : OperationTable} (capped : config.resultBytes < 2 ^ 16)
    (reached : TableReaches config table) (headLsn budget : Nat) (sorted : List SnapshotItem)
    (arranged : ByTimestamp sorted (table.snapshotItems headLsn)) (fresh : OperationTable)
    (noPovs : fresh.tableByPov = ∅) (noneDone : fresh.done = []) (clock : RestoreClock)
    (room : RoomFor fresh clock (table.keptItems budget sorted)) :
    table.ReadsBack budget sorted fresh clock ↔ table.SectionFits headLsn budget sorted := by
  rw [sectionFits_iff arranged]
  have body := table.length_snapshot_body budget sorted
  constructor
  · intro readsBack
    by_contra notShort
    have long : 2 ^ 32 ≤ (encodeOperations (table.snapshotPovs budget sorted)).length := by
      omega
    obtain ⟨count, isCut, same⟩ := exists_cut_of_wrapped clock long
    obtain ⟨loaded, _, _, isLoaded, _⟩ := readsBack.whole
    have refused := readsBack.cut count isCut fresh
    rw [snapshot, same fresh] at refused
    rw [snapshot, refused] at isLoaded
    exact absurd (Prod.mk.inj isLoaded).2 (by decide)
  · intro short
    have bodyShort : (encodeOperations (table.snapshotPovs budget sorted)).length < 2 ^ 32 := by
      omega
    refine ⟨?_, fun count isCut other => loadInPlace_take bodyShort isCut⟩
    obtain ⟨trimmed, split, raised⟩ := exists_trimmed budget sorted
      (snapshotSize sorted table.watermarks) table.watermarks
    set left := trimItems budget sorted (snapshotSize sorted table.watermarks) table.watermarks
    have distinct : (trimmed ++ left.1).Nodup := by
      rw [← split]
      exact arranged.1.nodup_iff.mpr (table.nodup_snapshotItems headLsn)
    have isItem : ∀ item ∈ trimmed ++ left.1, item ∈ table.snapshotItems headLsn := by
      intro item mem
      rw [← split] at mem
      exact arranged.1.mem_iff.mp mem
    let kept : KeptItems :=
      { items := left.1
        marks := left.2
        unique := fun first isFirst second isSecond => snapshotItems_unique
          (isItem first (mem_append_right _ isFirst))
          (isItem second (mem_append_right _ isSecond)) }
    have noTable : ∀ povId, fresh.povTable povId = {} := by
      intro povId
      rw [povTable, noPovs]
      rfl
    have empty : PartLoaded fresh kept fresh :=
      { config := rfl
        nodup := by rw [noneDone]; exact nodup_nil
        keys := by simp [noneDone]
        slots := fun povId opId slot found => by
          rw [slot?, noTable] at found
          simp at found
        marks := fun povId => by
          rw [expiredBefore, noTable]
          exact Nat.zero_le _ }
    have loaded := loaded_groupItems empty room
    have read := readPayload_encode_of_body
      (snapshotPovs_inRange (reached.invariant capped) arranged) bodyShort
    refine ⟨_, trimmed, split, ?_, loaded.slots, ?_, ?_⟩
    · rw [loadInPlace_eq_true_iff, load, snapshot, read]
      rfl
    · intro povId
      rw [loaded.marks, ← mark_watermarks]
      exact raised povId
    · intro item isTrimmed hash now
      have noSlot : OperationTable.slot? ((groupItems kept.items kept.marks).foldl
          (loadPov clock) fresh) item.povId item.entry.opId = none := by
        refine Option.eq_none_iff_forall_ne_some.mpr ?_
        intro slot found
        obtain ⟨other, isKept, samePov, sameOp, _⟩ := (loaded.slots _ _ _).mp found
        have same := snapshotItems_unique (isItem other (mem_append_right _ isKept))
          (isItem item (mem_append_left _ isTrimmed)) samePov sameOp
        exact (nodup_append.mp distinct).2.2 item isTrimmed other isKept same.symm
      have covered : item.entry.opId.timestampMs ≤ OperationTable.expiredBefore
          ((groupItems kept.items kept.marks).foldl (loadPov clock) fresh)
          item.povId := by
        rw [loaded.marks]
        refine Nat.le_trans ?_ (Nat.le_of_eq (raised item.povId).symm)
        exact le_raisedBy isTrimmed _
      simp only [reserve, OperationId.ofUuid?_val, noSlot, covered, true_or, if_true]

/-- One write reads back from its snapshot. -/
theorem readsBack_iff_sectionFits_one_write :
    let povId : Uuid := ⟨List.replicate 16 0, by decide⟩
    let opId : OperationId :=
      ⟨⟨[0, 0, 0, 0, 0, 1, 112, 0, 0, 0, 0, 0, 0, 0, 0, 0], by decide⟩, by decide⟩
    let table := ({ config := {} } : OperationTable).complete povId opId
      { sequenceNumber := 7, lsn := 3, persistent := true, result := some [1, 2] } 5
    table.ReadsBack 100 (table.snapshotItems 4) { config := {} } (fun _ _ => 5) ∧
      table.SectionFits 4 100 (table.snapshotItems 4) := by
  intro povId opId table
  have reached : TableReaches {} table :=
    EventRuns.Reaches.refl.tail
      (show SmallResult _ (.complete povId opId
        { sequenceNumber := 7, lsn := 3, persistent := true, result := some [1, 2] } 5) from by
          simp [SmallResult]) rfl
  have arranged : ByTimestamp (table.snapshotItems 4) (table.snapshotItems 4) := by
    decide +kernel
  have fits : table.SectionFits 4 100 (table.snapshotItems 4) := by
    rw [sectionFits_iff arranged]
    exact Nat.lt_of_le_of_lt
      (show (table.snapshot 100 (table.snapshotItems 4)).length ≤ 100 by decide +kernel)
      (by decide)
  have room : RoomFor { config := {} } (fun _ _ => 5)
      (table.keptItems 100 (table.snapshotItems 4)) :=
    { count := by decide +kernel
      age := fun _ _ other _ => Nat.le_trans (by decide) (Nat.le_add_left ..) }
  exact ⟨(readsBack_iff_sectionFits (by decide) reached 4 100 _ arranged { config := {} } rfl rfl
    (fun _ _ => 5) room).mpr fits, fits⟩

/-- With the default configuration, headers alone can make the length of the section
wrap to 0, and `Load` then throws. -/
theorem wrapped_snapshot_is_refused : ∃ table, TableReaches {} table ∧ ∀ headLsn budget,
      ByTimestamp [] (table.snapshotItems headLsn) ∧
        RoomFor { config := {} } (fun _ _ => 0) (table.keptItems budget []) ∧
        loadInPlace { config := {} } (table.snapshot budget []) (fun _ _ => 0) =
          ({ config := {} }, false) := by
  obtain ⟨table, reached, _, marked⟩ := exists_marked {} 153391689 (by decide) (by decide)
  refine ⟨table, reached, ?_⟩
  intro headLsn budget
  have arranged : ByTimestamp [] (table.snapshotItems headLsn) := by
    rw [marked.snapshotItems]
    exact ⟨List.Perm.refl _, List.Pairwise.nil⟩
  refine ⟨arranged, ⟨Nat.zero_le _, fun _ none => absurd none not_mem_nil⟩, ?_⟩
  refine loadInPlace_of_wrapped_zero _ _ ?_
  have length := length_snapshot_eq budget arranged
  have listed := marked.length_listedPovs (by decide) headLsn
  have body := table.length_snapshot_body budget []
  have noItems : ((table.keptItems budget []).map size).sum = 0 := rfl
  rw [noItems, headerBytes, listed] at length
  omega

end OperationTable

end Orly
