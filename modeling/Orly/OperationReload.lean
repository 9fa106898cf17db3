import Orly.OperationSnapshot

namespace Orly

/-!
# Reloading a snapshot

A payload that fits a checkpoint is read back as it was written, and an operation that
was settled in the table a snapshot is of is settled in the table it is loaded into.
-/

open LittleEndian ByteReader FoldRules List OperationTable

/-! ## Round trip -/

/-- What is written in two or eight bytes fits them. -/
structure SnapshotPov.InRange (pov : SnapshotPov) : Prop where
  watermark : pov.watermark < 2 ^ 64
  results : ∀ entry ∈ pov.entries, ∀ bytes ∈ entry.result, bytes.length < 2 ^ 16

theorem reads_uuid (id : Uuid) : Reads readUuid id.val id := by
  have raw := reads_bytes id.val
  rw [id.property] at raw
  exact raw.bind_pure (reads_check (by rw [dif_pos id.property]; rfl))

/-- An entry reads back. -/
theorem reads_entry {entry : SnapshotEntry}
    (small : ∀ bytes ∈ entry.result, bytes.length < 2 ^ 16) :
    Reads readEntry entry.encode entry := by
  have length : (entry.result.getD []).length < 256 ^ 2 := by
    cases isResult : entry.result with
    | none => simp
    | some bytes => exact small bytes isResult
  have status : (if entry.result.isSome then 0 else 1) < 256 ^ 1 := by split <;> decide
  have asRead :
      ({ opId := entry.opId
         sequenceNumber := UInt64.ofNat entry.sequenceNumber.toNat
         result :=
          if (if entry.result.isSome then 0 else 1) = 0 then some (entry.result.getD [])
          else none
         hash := UInt64.ofNat entry.hash.toNat } : SnapshotEntry) = entry := by
    rcases entry with ⟨opId, sequenceNumber, _ | result, hash⟩ <;> simp
  refine (reads_uuid entry.opId.val).bind ?_
  refine (reads_number entry.sequenceNumber.toNat_lt).bind ?_
  refine (reads_number status).bind ?_
  refine (reads_number length).bind ?_
  refine (reads_bytes _).bind ?_
  refine (reads_number entry.hash.toNat_lt).bind_pure ?_
  refine Reads.check_bind (OperationId.ofUuid?_val entry.opId) ?_
  rw [asRead]
  exact reads_pure entry

/-- A point of view reads back. -/
theorem reads_pov {pov : SnapshotPov} (inRange : pov.InRange) (short : pov.encode.length < 2 ^ 32) :
    Reads readPov pov.encode pov := by
  have count : pov.entries.length < 256 ^ 4 := by
    have entries : pov.entries.length ≤ (pov.entries.flatMap SnapshotEntry.encode).length :=
      length_le_flatMap (fun entry => by simp [SnapshotEntry.encode]) _
    simp only [SnapshotPov.encode, length_append] at short
    omega
  refine (reads_uuid pov.povId).bind ?_
  refine (reads_number inRange.watermark).bind ?_
  refine (reads_number count).bind ?_
  refine (reads_times pov.entries fun entry mem =>
    reads_entry (inRange.results entry mem)).bind_pure ?_
  exact reads_pure pov

variable {povs : List SnapshotPov}

/-- The section reads back. -/
theorem reads_operations
    (inRange : ∀ pov ∈ povs, pov.InRange) (short : (encodeOperations povs).length < 2 ^ 32) :
    Reads readOperations (encodeOperations povs) povs := by
  rw [encodeOperations, length_append] at short
  have count : povs.length < 256 ^ 4 := by
    have all : povs.length ≤ (povs.flatMap SnapshotPov.encode).length :=
      length_le_flatMap (fun pov => by simp [SnapshotPov.encode]) _
    omega
  refine (reads_number count).bind (reads_times povs fun pov mem => ?_)
  have within : pov.encode.length ≤ (povs.flatMap SnapshotPov.encode).length :=
    length_le_of_mem_flatMap _ mem
  exact reads_pov (inRange pov mem) (by omega)

/-- A payload whose section length does not wrap is read back. -/
theorem readPayload_encode_of_body
    (inRange : ∀ pov ∈ povs, pov.InRange) (bodyShort : (encodeOperations povs).length < 2 ^ 32) :
    readPayload (encodePayload povs) = some (povs, []) := by
  have body : readOperations (encodeOperations povs) = some (povs, []) := by
    have read := reads_operations inRange bodyShort []
    rwa [append_nil] at read
  have oneSection : Reads readSection
      (toBytes 2 operationsSection ++ (toBytes 2 sectionRequired ++
          (toBytes 4 (encodeOperations povs).length ++ encodeOperations povs))) povs := by
    refine (reads_number (by decide)).bind ?_
    refine (reads_number (by decide)).bind ?_
    refine (reads_number bodyShort).bind ?_
    refine (reads_bytes _).bind_pure (reads_check ?_)
    rw [if_pos rfl, body]
    rfl
  have sections : Reads (times readSection 1) _ [povs] :=
    oneSection.bind_pure ((reads_pure []).bind_pure (reads_pure [povs]))
  have whole : Reads readPayload (encodePayload povs) povs := by
    refine (reads_number (by decide)).bind ?_
    refine Reads.check_bind (if_pos rfl) ?_
    refine (reads_number (by decide)).bind ?_
    refine sections.bind_pure ?_
    simpa using reads_pure povs
  have read := whole []
  rwa [append_nil] at read

/-- A payload short enough for a checkpoint's header is read back. -/
theorem readPayload_encode
    (inRange : ∀ pov ∈ povs, pov.InRange) (short : (encodePayload povs).length < 2 ^ 32) :
    readPayload (encodePayload povs) = some (povs, []) := by
  refine readPayload_encode_of_body inRange ?_
  simp only [encodePayload, length_append] at short
  omega

/-! ## What a snapshot holds of an operation -/

/-- A snapshot settles an operation: its entries are good, and one of them or a
watermark stands for the operation. -/
structure HeldBy (Good : Outcome → Prop) (povs : List SnapshotPov) (povId : Uuid)
    (opId : OperationId) : Prop where
  good : ∀ pov ∈ povs, pov.povId = povId →
    ∀ entry ∈ pov.entries, entry.opId = opId → Good entry.outcome
  held : opId.timestampMs = 0 ∨ ∃ pov ∈ povs, pov.povId = povId ∧
    (opId.timestampMs ≤ pov.watermark ∨ ∃ entry ∈ pov.entries, entry.opId = opId)

section Trimming

variable {marks : Watermarks} {povId otherPov : Uuid} {opId : OperationId}

theorem mark_raise (ms : Nat) : (marks.raise povId ms).mark otherPov =
      if otherPov = povId then max (marks.mark povId) ms else marks.mark otherPov := by
  unfold Watermarks.raise Watermarks.mark
  split
  case isTrue same => rw [same, AList.lookup_insert, Option.getD_some]
  case isFalse differs => rw [AList.lookup_insert_ne differs]

theorem mark_le_raise (ms : Nat) : marks.mark otherPov ≤ (marks.raise povId ms).mark otherPov := by
  rw [mark_raise]
  split
  case isTrue same => exact same ▸ le_max_left ..
  case isFalse => exact le_rfl

theorem mark_raise_lt {ms : Nat} (msLt : ms < 2 ^ 64)
    (marksLt : ∀ povId, marks.mark povId < 2 ^ 64) :
    ∀ otherPov, (marks.raise povId ms).mark otherPov < 2 ^ 64 := by
  intro otherPov
  rw [mark_raise]
  split
  case isTrue => exact max_lt (marksLt povId) msLt
  case isFalse => exact marksLt otherPov

/-- What the trimming loop leaves: the items it kept, and a watermark over each of the
others. -/
structure Trimmed (items : List SnapshotItem) (marks : Watermarks)
    (left : List SnapshotItem × Watermarks) : Prop where
  subset : ∀ item ∈ left.1, item ∈ items
  covered : ∀ item ∈ items, item ∈ left.1 ∨ item.entry.opId.timestampMs ≤ left.2.mark item.povId
  rises : ∀ povId, marks.mark povId ≤ left.2.mark povId
  fits : (∀ povId, marks.mark povId < 2 ^ 64) → ∀ povId, left.2.mark povId < 2 ^ 64

theorem trimmed_trimItems (budget : Nat) (items : List SnapshotItem) (total : Nat)
    (marks : Watermarks) :
    Trimmed items marks (trimItems budget items total marks) := by
  induction items generalizing total marks with
  | nil => exact ⟨by simp [trimItems], by simp, fun _ => le_rfl, id⟩
  | cons item rest ih =>
    rw [trimItems]
    split
    case isFalse =>
      exact ⟨fun _ => id, fun _ mem => .inl mem, fun _ => le_rfl, id⟩
    case isTrue =>
      have left := ih (total - item.size) (marks.raise item.povId item.entry.opId.timestampMs)
      refine ⟨fun other mem => mem_cons_of_mem _ (left.subset other mem),
        fun other mem => ?_, fun povId => (mark_le_raise _).trans (left.rises povId),
        fun marksLt => left.fits (mark_raise_lt item.entry.opId.timestampMs_lt marksLt)⟩
      rcases mem_cons.mp mem with rfl | later
      · right
        refine le_trans ?_ (left.rises other.povId)
        rw [mark_raise, if_pos rfl]
        exact le_max_right ..
      · exact left.covered other later

end Trimming

section Taking

variable {table : OperationTable} {povId : Uuid} {opId : OperationId} {headLsn : Nat}
  {Good : Outcome → Prop}

/-- The slots of a table are the entries of its maps. -/
theorem slot?_eq_some_iff {slot : Slot} : table.slot? povId opId = some slot ↔
      ∃ pov, ⟨povId, pov⟩ ∈ table.tableByPov.entries ∧ ⟨opId, slot⟩ ∈ pov.slotByOp.entries := by
  unfold slot? povTable
  constructor
  · intro found
    cases lookup : table.tableByPov.lookup povId with
    | none => simp [lookup] at found
    | some pov =>
      rw [lookup, Option.getD_some] at found
      exact ⟨pov, AList.mem_lookup_iff.mp lookup, AList.mem_lookup_iff.mp found⟩
  · rintro ⟨pov, povMember, slotMember⟩
    have lookup : table.tableByPov.lookup povId = some pov := AList.mem_lookup_iff.mpr povMember
    rw [lookup, Option.getD_some]
    exact AList.mem_lookup_iff.mpr slotMember

/-- The item a snapshot takes for a slot. -/
def itemOf (povId : Uuid) (opId : OperationId) (outcome : Outcome) : SnapshotItem where
  povId := povId
  entry :=
    { opId
      sequenceNumber := outcome.sequenceNumber
      result := outcome.result
      hash := outcome.hash }

/-- The items of a snapshot are the completed persistent slots below the head. -/
theorem mem_snapshotItems {item : SnapshotItem} : item ∈ table.snapshotItems headLsn ↔
      ∃ povId opId slot, table.slot? povId opId = some slot ∧
        (slot.isDone = true ∧ slot.outcome.persistent = true ∧ slot.outcome.lsn < headLsn) ∧
        item = itemOf povId opId slot.outcome := by
  simp only [snapshotItems, mem_flatMap, mem_filterMap,
    Option.ite_none_right_eq_some, slot?_eq_some_iff]
  constructor
  · rintro ⟨⟨povId, pov⟩, povMember, ⟨opId, slot⟩, slotMember, taken, same⟩
    exact ⟨povId, opId, slot, ⟨pov, povMember, slotMember⟩, taken, (Option.some.inj same).symm⟩
  · rintro ⟨povId, opId, slot, ⟨pov, povMember, slotMember⟩, taken, rfl⟩
    exact ⟨⟨povId, pov⟩, povMember, ⟨opId, slot⟩, slotMember, taken, rfl⟩

/-- The watermarks cover what has expired. -/
theorem expiredBefore_le_watermarks : table.expiredBefore povId ≤ table.watermarks.mark povId := by
  unfold expiredBefore povTable
  cases lookup : table.tableByPov.lookup povId with
  | none => simp
  | some pov =>
    have mem := AList.mem_lookup_iff.mp lookup
    rw [Option.getD_some]
    by_cases unmarked : pov.expiredBeforeMs = 0
    · omega
    refine foldl_establishes (fun _ => True) (pov.expiredBeforeMs ≤ Watermarks.mark · povId)
      table.tableByPov.entries (fun _ _ _ => id) ?_ mem ?_ trivial
    · intro other _ marks _ reached
      split
      case isTrue => exact reached.trans (mark_le_raise _)
      case isFalse => exact reached
    · intro marks _
      rw [if_pos unmarked, mark_raise, if_pos rfl]
      exact le_max_right ..

theorem watermarks_lt (inv : TableInvariant table) :
    ∀ povId, table.watermarks.mark povId < 2 ^ 64 := by
  unfold watermarks
  refine foldl_keeps (fun marks : Watermarks => ∀ povId, marks.mark povId < 2 ^ 64)
    _ ?_ ?_
  · rintro ⟨povId, pov⟩ mem marks marksLt
    split
    case isTrue =>
      refine mark_raise_lt ?_ marksLt
      have lookup : table.tableByPov.lookup povId = some pov := AList.mem_lookup_iff.mpr mem
      have expiredLt := inv.watermarks povId
      rwa [expiredBefore, povTable, lookup] at expiredLt
    case isFalse => exact marksLt
  · intro povId
    simp [Watermarks.mark]

/-- The points of view of a snapshot, with their watermarks and entries. -/
theorem mem_groupItems {items : List SnapshotItem} {marks : Watermarks} {pov : SnapshotPov}
    (mem : pov ∈ groupItems items marks) :
    pov.watermark = marks.mark pov.povId ∧
      ∀ entry, entry ∈ pov.entries ↔ ⟨pov.povId, entry⟩ ∈ items := by
  obtain ⟨povId, _, rfl⟩ := mem_map.mp mem
  refine ⟨rfl, fun entry => ?_⟩
  simp only [mem_map, mem_filter, decide_eq_true_eq]
  constructor
  · rintro ⟨item, ⟨inItems, rfl⟩, rfl⟩
    exact inItems
  · intro inItems
    exact ⟨⟨povId, entry⟩, ⟨inItems, rfl⟩, rfl⟩

theorem exists_mem_groupItems {items : List SnapshotItem} {marks : Watermarks}
    (listed : (∃ entry, ⟨povId, entry⟩ ∈ items) ∨ 0 < marks.mark povId) :
    ∃ pov ∈ groupItems items marks, pov.povId = povId := by
  refine ⟨_, mem_map.mpr ⟨povId, ?_, rfl⟩, rfl⟩
  rw [mem_insertionSort, mem_dedup, mem_append]
  rcases listed with ⟨entry, inItems⟩ | marked
  · exact .inl (mem_map.mpr ⟨_, inItems, rfl⟩)
  · right
    rw [← AList.mem_keys, ← AList.lookup_isSome]
    unfold Watermarks.mark at marked
    cases lookup : marks.lookup povId with
    | none => simp [lookup] at marked
    | some _ => rfl

/-- A snapshot is of the items the trimming left. -/
theorem snapshotPovs_eq (table : OperationTable) (budget : Nat) (sorted : List SnapshotItem) :
    ∃ left, Trimmed sorted table.watermarks left ∧
      table.snapshotPovs budget sorted = groupItems left.1 left.2 :=
  ⟨_, trimmed_trimItems .., rfl⟩

/-- What a snapshot writes fits its fields. -/
theorem snapshotPovs_inRange
    {budget : Nat} {sorted : List SnapshotItem} (inv : TableInvariant table)
    (arranged : ByTimestamp sorted (table.snapshotItems headLsn)) :
    ∀ pov ∈ table.snapshotPovs budget sorted, pov.InRange := by
  intro pov mem
  obtain ⟨left, trimmed, isGroup⟩ := snapshotPovs_eq table budget sorted
  rw [isGroup] at mem
  obtain ⟨isMark, entries⟩ := mem_groupItems mem
  refine ⟨?_, fun entry inEntries => ?_⟩
  · rw [isMark]
    exact trimmed.fits (watermarks_lt inv) pov.povId
  · have inItems := trimmed.subset _ ((entries entry).mp inEntries)
    obtain ⟨povId, opId, slot, found, _, same⟩ :=
      mem_snapshotItems.mp (arranged.1.mem_iff.mp inItems)
    have small := inv.results povId opId slot found
    obtain ⟨rfl, rfl⟩ := SnapshotItem.mk.inj same
    exact small

/-- A snapshot at a head settles what its table has settled below the head. -/
theorem Settled.heldBy_snapshot
    {budget : Nat} {sorted : List SnapshotItem} (settled : Settled Good table povId opId)
    (below : ∀ outcome, Good outcome → outcome.persistent = true ∧ outcome.lsn < headLsn)
    (reloaded : ∀ outcome, Good outcome →
      Good { outcome with lsn := 0, persistent := true })
    (arranged : ByTimestamp sorted (table.snapshotItems headLsn)) :
    HeldBy Good (table.snapshotPovs budget sorted) povId opId := by
  obtain ⟨left, trimmed, isGroup⟩ := snapshotPovs_eq table budget sorted
  rw [isGroup]
  have marked : opId.timestampMs ≤ left.2.mark povId →
      opId.timestampMs = 0 ∨ ∃ pov ∈ groupItems left.1 left.2,
        pov.povId = povId ∧ (opId.timestampMs ≤ pov.watermark ∨
          ∃ entry ∈ pov.entries, entry.opId = opId) := by
    intro under
    rcases Nat.eq_zero_or_pos opId.timestampMs with zero | positive
    · exact .inl zero
    · obtain ⟨pov, mem, rfl⟩ :=
        exists_mem_groupItems (.inr (positive.trans_le under) :
          (∃ entry, (⟨povId, entry⟩ : SnapshotItem) ∈ left.1) ∨ _)
      exact .inr ⟨pov, mem, rfl, .inl ((mem_groupItems mem).1 ▸ under)⟩
  constructor
  case good =>
    rintro pov mem rfl entry inEntries rfl
    have inItems := trimmed.subset _ (((mem_groupItems mem).2 entry).mp inEntries)
    obtain ⟨povId, opId, slot, found, _, same⟩ :=
      mem_snapshotItems.mp (arranged.1.mem_iff.mp inItems)
    obtain ⟨samePov, rfl⟩ := SnapshotItem.mk.inj same
    rw [← samePov] at found
    exact reloaded slot.outcome (settled.slot slot found).2
  case held =>
    cases found : table.slot? povId opId with
    | none =>
      exact marked ((settled.refused found).trans
        (expiredBefore_le_watermarks.trans (trimmed.rises povId)))
    | some slot =>
      obtain ⟨isDone, good⟩ := settled.slot slot found
      have inItems : itemOf povId opId slot.outcome ∈ sorted :=
        arranged.1.mem_iff.mpr
          (mem_snapshotItems.mpr ⟨povId, opId, slot, found, ⟨isDone, below _ good⟩, rfl⟩)
      rcases trimmed.covered _ inItems with kept | under
      · obtain ⟨pov, mem, rfl⟩ := exists_mem_groupItems (.inl ⟨_, kept⟩ : _ ∨ 0 < left.2.mark povId)
        exact .inr ⟨pov, mem, rfl, .inr ⟨_, ((mem_groupItems mem).2 _).mpr kept, rfl⟩⟩
      · exact marked under

end Taking

/-! ## Loading -/

section Loading

variable {table : OperationTable} {povId otherPov : Uuid} {opId : OperationId}
  {Good : Outcome → Prop}

theorem povTable_raiseWatermark (watermark : Nat) :
    (table.raiseWatermark povId watermark).povTable otherPov =
      if otherPov = povId then
        { table.povTable povId with
          expiredBeforeMs := max (table.expiredBefore povId) watermark }
      else
        table.povTable otherPov :=
  povTable_setPov

theorem slot?_raiseWatermark (watermark : Nat) :
    (table.raiseWatermark povId watermark).slot? otherPov opId = table.slot? otherPov opId := by
  rw [slot?, povTable_raiseWatermark]
  split
  case isTrue same => rw [same]; rfl
  case isFalse => rfl

theorem expiredBefore_raiseWatermark (watermark : Nat) :
    (table.raiseWatermark povId watermark).expiredBefore otherPov =
      if otherPov = povId then max (table.expiredBefore povId) watermark
      else table.expiredBefore otherPov := by
  rw [expiredBefore, povTable_raiseWatermark]
  split <;> rfl

theorem keeps_raiseWatermark {watermark : Nat} (fits : watermark < 2 ^ 64) :
    Keeps table (table.raiseWatermark povId watermark) otherPov opId where
  slot := .inl (slot?_raiseWatermark watermark)
  watermark := by
    rw [expiredBefore_raiseWatermark]
    split
    case isTrue same => exact same ▸ le_max_left ..
    case isFalse => exact le_rfl
  fits := fun lt => by
    rw [expiredBefore_raiseWatermark]
    split
    case isTrue same => exact max_lt (same ▸ lt) fits
    case isFalse => exact lt

theorem TableInvariant.raiseWatermark {watermark : Nat} (inv : TableInvariant table)
    (fits : watermark < 2 ^ 64) :
    TableInvariant (table.raiseWatermark povId watermark) where
  nodup := inv.nodup
  done := fun key mem => by
    rw [slot?_raiseWatermark]
    exact inv.done key mem
  watermarks := fun otherPov => by
    rw [expiredBefore_raiseWatermark]
    split
    case isTrue => exact max_lt (inv.watermarks povId) fits
    case isFalse => exact inv.watermarks otherPov
  results := fun otherPov opId slot found => by
    rw [slot?_raiseWatermark] at found
    exact inv.results otherPov opId slot found
  capped := inv.capped

/-- What loading keeps: the bookkeeping, and that a slot the operation has is complete
with a good outcome. -/
structure LoadInvariant (Good : Outcome → Prop) (povId : Uuid) (opId : OperationId)
    (table : OperationTable) : Prop where
  bookkeeping : TableInvariant table
  slot : ∀ slot, table.slot? povId opId = some slot → slot.isDone = true ∧ Good slot.outcome

theorem LoadInvariant.keeps
    {before after : OperationTable} (inv : LoadInvariant Good povId opId before)
    (tableInv : TableInvariant after) (keeps : Keeps before after povId opId) :
    LoadInvariant Good povId opId after where
  bookkeeping := tableInv
  slot := fun slot found => by
    rcases keeps.slot with same | ⟨gone, _, _⟩
    · exact inv.slot slot (same ▸ found)
    · simp [gone] at found

/-- One thing recovery does to the table. -/
inductive RecoveryAction where
  | raise (povId : Uuid) (watermark : Nat)
  | restore (povId : Uuid) (opId : OperationId) (outcome : Outcome) (now : Nat)

namespace RecoveryAction

/-- Take an action on a table. -/
def apply (table : OperationTable) : RecoveryAction → OperationTable
  | .raise povId watermark => table.raiseWatermark povId watermark
  | .restore povId opId outcome now => table.restore povId opId outcome now

/-- What an action writes fits the fields of a snapshot. -/
def Fits : RecoveryAction → Prop
  | .raise _ watermark => watermark < 2 ^ 64
  | .restore _ _ outcome _ => ∀ bytes ∈ outcome.result, bytes.length < 2 ^ 16

/-- An action fits, and what it restores of the operation is good. -/
def Sound (Good : Outcome → Prop) (povId : Uuid) (opId : OperationId)
    (action : RecoveryAction) : Prop :=
  action.Fits ∧ ∀ outcome now, action = .restore povId opId outcome now → Good outcome

/-- An action settles the operation. -/
def Settles (povId : Uuid) (opId : OperationId) : RecoveryAction → Prop
  | .raise otherPov watermark => povId = otherPov ∧ opId.timestampMs ≤ watermark
  | .restore otherPov otherOp _ _ => povId = otherPov ∧ opId = otherOp

variable {action : RecoveryAction}

theorem keeps_bookkeeping (fits : action.Fits) (inv : TableInvariant table) :
    TableInvariant (action.apply table) := by
  cases action with
  | raise otherPov watermark => exact inv.raiseWatermark fits
  | restore otherPov otherOp outcome now => exact inv.complete fits

section

variable (sound : action.Sound Good povId opId)

include sound

/-- A sound action does not name the operation, or restores it. -/
theorem cases_of_sound (inv : TableInvariant table) : Keeps table (action.apply table) povId opId ∨
      (∃ outcome now, action = .restore povId opId outcome now) ∧
        Settled Good (action.apply table) povId opId := by
  cases action with
  | raise otherPov watermark => exact .inl (keeps_raiseWatermark sound.1)
  | restore otherPov otherOp outcome now =>
    obtain ⟨small, good⟩ := sound
    by_cases same : povId = otherPov ∧ opId = otherOp
    · obtain ⟨rfl, rfl⟩ := same
      exact .inr ⟨⟨outcome, now, rfl⟩, inv.settled_complete small (good _ _ rfl)⟩
    · exact .inl (inv.keeps_complete small same)

theorem keeps_inv (inv : LoadInvariant Good povId opId table) :
    LoadInvariant Good povId opId (action.apply table) := by
  have bookkeeping := keeps_bookkeeping sound.1 inv.bookkeeping
  rcases cases_of_sound sound inv.bookkeeping with keeps | ⟨_, settled⟩
  · exact inv.keeps bookkeeping keeps
  · exact ⟨bookkeeping, settled.slot⟩

/-- An action for the operation settles it. -/
theorem establishes (settles : action.Settles povId opId)
    (inv : LoadInvariant Good povId opId table) :
    Settled Good (action.apply table) povId opId := by
  have after := keeps_inv sound inv
  cases action with
  | raise otherPov watermark =>
    obtain ⟨rfl, under⟩ := settles
    refine ⟨after.slot, fun _ => ?_⟩
    rw [apply, expiredBefore_raiseWatermark, if_pos rfl]
    exact under.trans (le_max_right ..)
  | restore otherPov otherOp outcome now =>
    obtain ⟨rfl, rfl⟩ := settles
    exact inv.bookkeeping.settled_complete sound.1 (sound.2 _ _ rfl)

theorem keeps_settled (inv : TableInvariant table) (settled : Settled Good table povId opId) :
    Settled Good (action.apply table) povId opId := by
  rcases cases_of_sound sound inv with keeps | ⟨_, settled⟩
  · exact settled.keeps keeps
  · exact settled

end

section Runs

variable {actions : List RecoveryAction}

theorem foldl_bookkeeping (fits : ∀ action ∈ actions, action.Fits) (inv : TableInvariant table) :
    TableInvariant (actions.foldl apply table) :=
  foldl_keeps TableInvariant actions (fun action mem _ => keeps_bookkeeping (fits action mem)) inv

variable (sound : ∀ action ∈ actions, action.Sound Good povId opId)

include sound

theorem foldl_inv (inv : LoadInvariant Good povId opId table) :
    LoadInvariant Good povId opId (actions.foldl apply table) :=
  foldl_keeps (LoadInvariant Good povId opId) actions
    (fun action mem _ => keeps_inv (sound action mem)) inv

/-- Sound actions, one of which settles the operation, leave it settled. -/
theorem foldl_settles (settles : ∃ action ∈ actions, action.Settles povId opId)
    (inv : LoadInvariant Good povId opId table) :
    Settled Good (actions.foldl apply table) povId opId := by
  obtain ⟨action, mem, settles⟩ := settles
  exact foldl_establishes (LoadInvariant Good povId opId) (Settled Good · povId opId)
    actions (fun other inActions _ => keeps_inv (sound other inActions))
    (fun other inActions _ inv => keeps_settled (sound other inActions) inv.bookkeeping)
    mem (fun _ => establishes (sound action mem) settles) inv

/-- Sound actions keep a settled operation settled. -/
theorem foldl_settled (inv : TableInvariant table) (settled : Settled Good table povId opId) :
    Settled Good (actions.foldl apply table) povId opId := by
  let Both := fun loaded => TableInvariant loaded ∧ Settled Good loaded povId opId
  have both : Both (actions.foldl apply table) :=
    foldl_keeps Both actions
      (fun action mem _ both =>
        ⟨keeps_bookkeeping (sound action mem).1 both.1,
          keeps_settled (sound action mem) both.1 both.2⟩)
      ⟨inv, settled⟩
  exact both.2

/-- An operation that is restored is settled, whatever the table held of it before. -/
theorem foldl_restores
    {outcome : Outcome} {now : Nat} (mem : .restore povId opId outcome now ∈ actions)
    (inv : TableInvariant table) :
    Settled Good (actions.foldl apply table) povId opId := by
  have restored := sound _ mem
  exact foldl_establishes TableInvariant (Settled Good · povId opId) actions
    (fun other inActions _ => keeps_bookkeeping (sound other inActions).1)
    (fun other inActions _ => keeps_settled (sound other inActions)) mem
    (fun _ inv => inv.settled_complete restored.1 (restored.2 _ _ rfl)) inv

end Runs

end RecoveryAction

/-- The actions that load a point of view. -/
def SnapshotPov.actions (clock : RestoreClock) (pov : SnapshotPov) : List RecoveryAction :=
  .raise pov.povId pov.watermark ::
    pov.entries.map fun entry =>
      .restore pov.povId entry.opId entry.outcome (clock pov.povId entry.opId)

theorem loadPov_eq (clock : RestoreClock) (table : OperationTable) (pov : SnapshotPov) :
    table.loadPov clock pov = (pov.actions clock).foldl RecoveryAction.apply table := by
  rw [SnapshotPov.actions, foldl_cons, foldl_map]
  rfl

theorem loadPovs_eq (clock : RestoreClock) (table : OperationTable) (povs : List SnapshotPov) :
    povs.foldl (loadPov clock) table =
      (povs.flatMap (SnapshotPov.actions clock)).foldl RecoveryAction.apply table := by
  rw [foldl_flatMap]
  congr
  funext loaded pov
  exact loadPov_eq clock loaded pov

variable {povs : List SnapshotPov}

theorem fits_actions {clock : RestoreClock} (inRange : ∀ pov ∈ povs, pov.InRange) :
    ∀ action ∈ povs.flatMap (SnapshotPov.actions clock), action.Fits := by
  intro action mem
  obtain ⟨pov, inPovs, inActions⟩ := mem_flatMap.mp mem
  rcases mem_cons.mp inActions with rfl | inEntries
  · exact (inRange pov inPovs).watermark
  · obtain ⟨entry, isEntry, rfl⟩ := mem_map.mp inEntries
    exact (inRange pov inPovs).results entry isEntry

/-- The actions of a snapshot are sound for an operation it holds. -/
theorem HeldBy.sound {clock : RestoreClock} (held : HeldBy Good povs povId opId)
    (inRange : ∀ pov ∈ povs, pov.InRange) :
    ∀ action ∈ povs.flatMap (SnapshotPov.actions clock), action.Sound Good povId opId := by
  intro action mem
  refine ⟨fits_actions inRange action mem, ?_⟩
  rintro outcome now rfl
  obtain ⟨pov, inPovs, inActions⟩ := mem_flatMap.mp mem
  rcases mem_cons.mp inActions with isRaise | inEntries
  · contradiction
  · obtain ⟨entry, isEntry, same⟩ := mem_map.mp inEntries
    obtain ⟨samePov, sameOp, rfl, _⟩ := RecoveryAction.restore.inj same
    exact held.good pov inPovs samePov entry isEntry sameOp

/-- One of them settles it, unless its id is refused anyway. -/
theorem HeldBy.settles (held : HeldBy Good povs povId opId) (clock : RestoreClock) :
    opId.timestampMs = 0 ∨
      ∃ action ∈ povs.flatMap (SnapshotPov.actions clock), action.Settles povId opId := by
  rcases held.held with zero | ⟨pov, inPovs, rfl, under | ⟨entry, isEntry, rfl⟩⟩
  · exact .inl zero
  · exact .inr ⟨_, mem_flatMap.mpr ⟨pov, inPovs, mem_cons_self⟩, rfl, under⟩
  · exact .inr ⟨_, mem_flatMap.mpr ⟨pov, inPovs,
      mem_cons_of_mem _ (mem_map.mpr ⟨entry, isEntry, rfl⟩)⟩, rfl, rfl⟩

end Loading

end Orly
