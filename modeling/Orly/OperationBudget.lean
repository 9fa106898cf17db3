import Orly.EventRuns
import Orly.OperationReload

namespace Orly

/-!
# The size of a snapshot of the operation table

`Snapshot` trims entries until the payload fits its budget, but a point of view whose
entries are all trimmed keeps its header, and so does one that has a watermark and no
entries.  Watermarks never go away, so the headers alone can outgrow the budget.
-/

open LittleEndian ByteReader FoldRules List OperationTable SnapshotItem

/-! ## The calls of a table -/

/-- The calls that change a table, with the clock where one reads it. -/
inductive TableCall where
  | reserve (povId rawId : Uuid) (hash : UInt64) (now : Nat)
  | complete (povId : Uuid) (opId : OperationId) (outcome : Outcome) (now : Nat)
  | beginCommit (povId : Uuid) (opId : OperationId) (floorLsn : Nat)
  | release (povId : Uuid) (opId : OperationId)
  | refuseUnknownBefore (ms : Nat)
  | holdHead (floorLsn : Nat)
  | releaseHead (token : Nat)
  | load (payload : List UInt8) (clock : RestoreClock)

/-- The table after a call; a server does not go on after a `Load` that threw. -/
def OperationTable.call (table : OperationTable) : TableCall → Option OperationTable
  | .reserve povId rawId hash now => some (table.reserve povId rawId hash now).1
  | .complete povId opId outcome now => some (table.complete povId opId outcome now)
  | .beginCommit povId opId floorLsn => some (table.beginCommit povId opId floorLsn)
  | .release povId opId => some (table.release povId opId)
  | .refuseUnknownBefore ms => some (table.refuseUnknownBefore ms)
  | .holdHead floorLsn => some (table.holdHead floorLsn).1
  | .releaseHead token => some (table.releaseHead token)
  | .load payload clock => table.load payload clock

/-- A result that is kept is of at most 65535 bytes. -/
def SmallResult (_ : OperationTable) : TableCall → Prop
  | .complete _ _ outcome _ => ∀ bytes ∈ outcome.result, bytes.length < 2 ^ 16
  | _ => True

/-- The tables that calls lead to from an empty one. -/
abbrev TableReaches (config : OperationConfig) : OperationTable → Prop :=
  EventRuns.Reaches OperationTable.call SmallResult { config }

theorem yields_readEntry :
    Yields readEntry fun entry => ∀ bytes ∈ entry.result, bytes.length < 2 ^ 16 := by
  refine (yields_any readUuid).bind fun _ _ => (yields_any (number 8)).bind fun _ _ => ?_
  refine (yields_any (number 1)).bind fun status _ => (yields_number 2).bind fun length fits => ?_
  refine (yields_bytes length).bind fun result isLength => ?_
  refine (yields_any (number 8)).bind fun _ _ => (yields_any (check _)).bind fun _ _ => ?_
  refine yields_pure ?_
  intro bytes isResult
  split at isResult
  case isTrue =>
    cases isResult
    rw [isLength]
    exact fits
  case isFalse => contradiction

theorem yields_readPov : Yields readPov SnapshotPov.InRange := by
  refine (yields_any readUuid).bind fun _ _ => (yields_number 8).bind fun watermark fits => ?_
  refine (yields_any (number 4)).bind fun count _ => ?_
  exact (yields_readEntry.times count).bind fun entries small =>
    yields_pure { watermark := fits, results := small }

theorem yields_readPayload : Yields readPayload fun povs => ∀ pov ∈ povs, pov.InRange := by
  have operations : Yields readOperations fun povs => ∀ pov ∈ povs, pov.InRange :=
    (yields_any (number 4)).bind fun count _ => yields_readPov.times count
  have sections : Yields readSection fun povs => ∀ pov ∈ povs, pov.InRange := by
    refine (yields_any (number 2)).bind fun kind _ => (yields_any (number 2)).bind fun flags _ => ?_
    refine (yields_any (number 4)).bind fun length _ => ?_
    refine (yields_any (bytes length)).bind fun body _ => ?_
    refine yields_check ?_
    intro povs isBody
    split at isBody
    case isTrue =>
      obtain ⟨⟨read, after⟩, isRead, rfl⟩ := Option.map_eq_some_iff.mp isBody
      exact operations body read after isRead
    case isFalse =>
      split at isBody
      case isTrue => contradiction
      case isFalse =>
        cases isBody
        simp
  refine (yields_any (number 2)).bind fun version _ => (yields_any (check _)).bind fun _ _ => ?_
  refine (yields_any (number 2)).bind fun count _ => ?_
  refine (sections.times count).bind fun read inRange => ?_
  refine yields_pure ?_
  intro pov mem
  obtain ⟨povs, isSection, inSection⟩ := mem_flatten.mp mem
  exact inRange povs isSection pov inSection

variable {table : OperationTable} {n : Nat}

theorem TableInvariant.load
    {loaded : OperationTable} (inv : TableInvariant table) {payload : List UInt8}
    {clock : RestoreClock} (isLoaded : table.load payload clock = some loaded) :
    TableInvariant loaded := by
  obtain ⟨⟨povs, left⟩, read, rfl⟩ := Option.map_eq_some_iff.mp isLoaded
  rw [loadPovs_eq]
  exact RecoveryAction.foldl_bookkeeping
    (fits_actions (yields_readPayload payload povs left read)) inv

theorem TableInvariant.call {next : OperationTable} (inv : TableInvariant table) {call : TableCall}
    (small : SmallResult table call) (called : table.call call = some next) :
    TableInvariant next := by
  cases call with
  | reserve povId rawId hash now =>
    cases called
    cases isOp : OperationId.ofUuid? rawId with
    | none => simpa [OperationTable.reserve, isOp] using inv
    | some opId =>
      rw [OperationId.ofUuid?] at isOp
      split at isOp
      case isTrue isSeven =>
        have reserved : ∀ opId : OperationId,
            TableInvariant (table.reserve povId opId.val hash now).1 := fun _ => inv.reserve
        exact reserved ⟨rawId, isSeven⟩
      case isFalse => contradiction
  | complete povId opId outcome now =>
    cases called
    exact inv.complete small
  | beginCommit povId opId floorLsn =>
    cases called
    exact inv.beginCommit
  | release povId opId =>
    cases called
    exact inv.release
  | refuseUnknownBefore | holdHead | releaseHead =>
    cases called
    exact { inv with }
  | load payload clock => exact inv.load called

theorem TableReaches.invariant {config : OperationConfig} (capped : config.resultBytes < 2 ^ 16)
    (reached : TableReaches config table) :
    TableInvariant table := by
  refine EventRuns.Reaches.invariant ?_
    (fun _ _ _ inv small called => inv.call small called) reached
  refine
    { nodup := nodup_nil
      done := by simp
      watermarks := ?_
      results := ?_
      capped := capped }
  · intro povId
    exact Nat.two_pow_pos 64
  · intro povId opId slot found
    simp [slot?, povTable] at found

/-! ## The bytes of a payload -/

theorem length_encode_pov (pov : SnapshotPov) :
    pov.encode.length = 28 + (pov.entries.map fun entry => entry.encode.length).sum := by
  rw [SnapshotPov.encode, length_append, length_append, length_append,
    length_toBytes, length_toBytes, length_flatMap, pov.povId.property]
  omega

theorem length_encodePayload (povs : List SnapshotPov) :
    (encodePayload povs).length = 16 + (povs.map fun pov => pov.encode.length).sum := by
  simp only [encodePayload, encodeOperations, length_append, length_toBytes, length_flatMap]
  omega

/-- Items by point of view, and all of them together. -/
theorem sum_groups (items : List SnapshotItem) {povIds : List Uuid} (distinct : povIds.Nodup)
    (listed : ∀ item ∈ items, item.povId ∈ povIds) :
    (povIds.map fun povId =>
      ((items.filter fun item => item.povId = povId).map size).sum).sum = (items.map size).sum := by
  induction items with
  | nil => simp
  | cons item items ih =>
    have rest := ih fun other mem =>
      listed other (mem_cons_of_mem _ mem)
    have split : ∀ povId : Uuid,
        (((item :: items).filter fun item => item.povId = povId).map size).sum =
          (if povId = item.povId then item.size else 0) +
            ((items.filter fun item => item.povId = povId).map size).sum := by
      intro povId
      rw [filter_cons]
      by_cases same : povId = item.povId
      · simp [same]
      · simp [same, Ne.symm same]
    have once : (povIds.map fun povId => if povId = item.povId then item.size else 0).sum =
        item.size := by
      rw [sum_map_eq_nsmul_single item.povId _ fun povId differs _ => if_neg differs,
        count_eq_one_of_mem distinct (listed item mem_cons_self), one_nsmul, if_pos rfl]
    rw [map_congr_left fun povId _ => split povId, sum_map_add, rest, once, map_cons, sum_cons]

/-- The bytes of a payload that groups items: a header for every point of view, and the
items. -/
theorem length_encode_groupItems (items : List SnapshotItem) (marks : Watermarks) :
    (encodePayload (groupItems items marks)).length = snapshotSize items marks := by
  have order := perm_insertionSort (fun left right : Uuid => left.val ≤ right.val)
    (items.map SnapshotItem.povId ++ marks.keys).dedup
  have listed : ∀ item ∈ items, item.povId ∈ (items.map SnapshotItem.povId ++
      marks.keys).dedup.insertionSort fun left right => left.val ≤ right.val := by
    intro item mem
    rw [order.mem_iff]
    exact mem_dedup.mpr (mem_append_left _ (mem_map_of_mem mem))
  have sizes := sum_groups items (order.nodup_iff.mpr (nodup_dedup _)) listed
  rw [length_encodePayload, groupItems, map_map]
  have each : ∀ povId : Uuid,
      ((fun pov : SnapshotPov => pov.encode.length) ∘ fun povId =>
        { povId
          watermark := marks.mark povId
          entries := (items.filter fun item => item.povId = povId).map entry })
        povId =
      28 + ((items.filter fun item => item.povId = povId).map size).sum := by
    intro povId
    rw [Function.comp_apply, length_encode_pov, map_map]
    rfl
  rw [map_congr_left fun povId _ => each povId, sum_map_add, sizes, map_const',
    sum_replicate, Nat.nsmul_eq_mul, snapshotSize, order.length_eq]
  omega

theorem dedup_length_congr {first second : List Uuid}
    (same : ∀ povId, povId ∈ first ↔ povId ∈ second) :
    first.dedup.length = second.dedup.length := by
  refine List.Perm.length_eq ?_
  refine (perm_ext_iff_of_nodup (nodup_dedup _) (nodup_dedup _)).mpr ?_
  intro povId
  rw [mem_dedup, mem_dedup]
  exact same povId

theorem mem_keys_raise {marks : Watermarks} {povId other : Uuid} {ms : Nat} :
    povId ∈ (marks.raise other ms).keys ↔ povId = other ∨ povId ∈ marks.keys := by
  rw [← AList.mem_keys, Watermarks.raise, AList.mem_insert, AList.mem_keys]

/-- Trimming an item leaves its point of view listed. -/
theorem dedup_length_trim
    (item : SnapshotItem) (items : List SnapshotItem) (marks : Watermarks) (ms : Nat) :
    (items.map SnapshotItem.povId ++ (marks.raise item.povId ms).keys).dedup.length =
      ((item :: items).map SnapshotItem.povId ++ marks.keys).dedup.length := by
  refine dedup_length_congr ?_
  intro povId
  rw [map_cons, cons_append, mem_cons, mem_append, mem_append, mem_keys_raise]
  tauto

/-- Trimming an item takes its size off the total. -/
theorem snapshotSize_trim (item : SnapshotItem) (items : List SnapshotItem) (marks : Watermarks)
    (ms : Nat) :
    snapshotSize (item :: items) marks - item.size =
      snapshotSize items (marks.raise item.povId ms) := by
  rw [snapshotSize, snapshotSize, dedup_length_trim, map_cons, sum_cons]
  omega

/-- What trimming leaves is within the budget, or has no items. -/
theorem snapshotSize_trimItems (budget : Nat) (items : List SnapshotItem) (marks : Watermarks) :
    let left := trimItems budget items (snapshotSize items marks) marks
    (snapshotSize left.1 left.2 ≤ budget ∨ left.1 = []) ∧
      (left.1.map povId ++ left.2.keys).dedup.length =
        (items.map povId ++ marks.keys).dedup.length := by
  induction items generalizing marks with
  | nil => exact ⟨Or.inr rfl, rfl⟩
  | cons item items ih =>
    rw [trimItems]
    split
    case isTrue =>
      rw [snapshotSize_trim item items marks item.entry.opId.timestampMs]
      obtain ⟨fits, povs⟩ := ih (marks.raise item.povId item.entry.opId.timestampMs)
      exact ⟨fits, povs.trans (dedup_length_trim ..)⟩
    case isFalse within => exact ⟨Or.inl (Nat.le_of_not_lt within), rfl⟩

/-! ## When a snapshot fits -/

namespace OperationTable

/-- A point of view is in every snapshot at this head: it has a watermark, or a completed
persistent entry below the head. -/
def listsPov (headLsn : Nat) (pov : PovTable) : Bool :=
  pov.expiredBeforeMs ≠ 0 ||
    pov.slotByOp.entries.any fun slot =>
      slot.2.isDone && slot.2.outcome.persistent && decide (slot.2.outcome.lsn < headLsn)

/-- The points of view a snapshot at this head lists. -/
def listedPovs (table : OperationTable) (headLsn : Nat) : List Uuid :=
  (table.tableByPov.entries.filter fun pov => listsPov headLsn pov.2).map Sigma.fst

theorem nodup_listedPovs (table : OperationTable) (headLsn : Nat) :
    (table.listedPovs headLsn).Nodup := by
  have keys : (table.tableByPov.entries.map Sigma.fst).Nodup := table.tableByPov.keys_nodup
  exact keys.sublist (List.Sublist.map _ filter_sublist)

variable {table : OperationTable}

theorem mem_keys_watermarks {povId : Uuid} : povId ∈ table.watermarks.keys ↔
      ∃ pov, ⟨povId, pov⟩ ∈ table.tableByPov.entries ∧ pov.expiredBeforeMs ≠ 0 := by
  have folded : ∀ (entries : List (Sigma fun _ : Uuid => PovTable)) (marks : Watermarks),
      povId ∈ (entries.foldl (fun marks pov =>
        if pov.2.expiredBeforeMs ≠ 0 then marks.raise pov.1 pov.2.expiredBeforeMs else marks)
        marks).keys ↔
          povId ∈ marks.keys ∨ ∃ pov, ⟨povId, pov⟩ ∈ entries ∧ pov.expiredBeforeMs ≠ 0 := by
    intro entries
    induction entries with
    | nil => simp
    | cons entry entries ih =>
      intro marks
      have first : (∃ pov, ⟨povId, pov⟩ ∈ entry :: entries ∧ pov.expiredBeforeMs ≠ 0) ↔
          (povId = entry.1 ∧ entry.2.expiredBeforeMs ≠ 0) ∨
            ∃ pov, ⟨povId, pov⟩ ∈ entries ∧ pov.expiredBeforeMs ≠ 0 := by
        obtain ⟨otherPov, other⟩ := entry
        simp [or_and_right, exists_or, and_assoc]
      rw [foldl_cons, ih, first]
      by_cases marked : entry.2.expiredBeforeMs ≠ 0
      · rw [if_pos marked, mem_keys_raise]
        tauto
      · rw [if_neg marked]
        tauto
  rw [watermarks, folded]
  simp

/-- The points of view of the items and the watermarks are those listed. -/
theorem length_listedPovs {headLsn : Nat} {sorted : List SnapshotItem}
    (arranged : ByTimestamp sorted (table.snapshotItems headLsn)) :
    (sorted.map SnapshotItem.povId ++ table.watermarks.keys).dedup.length =
      (table.listedPovs headLsn).length := by
  rw [← (table.nodup_listedPovs headLsn).dedup]
  refine dedup_length_congr ?_
  intro povId
  rw [mem_append, mem_keys_watermarks, mem_map, listedPovs, mem_map]
  constructor
  · rintro (⟨item, mem, rfl⟩ | ⟨pov, mem, marked⟩)
    · obtain ⟨povId, opId, slot, found, taken, rfl⟩ :=
        mem_snapshotItems.mp (arranged.1.mem_iff.mp mem)
      obtain ⟨pov, povMember, slotMember⟩ := slot?_eq_some_iff.mp found
      refine ⟨⟨povId, pov⟩, mem_filter.mpr ⟨povMember, ?_⟩, rfl⟩
      refine Bool.or_eq_true_iff.mpr (Or.inr (any_eq_true.mpr ⟨⟨opId, slot⟩, slotMember, ?_⟩))
      simpa [and_assoc] using taken
    · refine ⟨⟨povId, pov⟩, mem_filter.mpr ⟨mem, ?_⟩, rfl⟩
      exact Bool.or_eq_true_iff.mpr (Or.inl (by simpa using marked))
  · rintro ⟨⟨povId, pov⟩, mem, rfl⟩
    obtain ⟨povMember, listed⟩ := mem_filter.mp mem
    rcases Bool.or_eq_true_iff.mp listed with marked | taken
    · exact Or.inr ⟨pov, povMember, by simpa using marked⟩
    · obtain ⟨⟨opId, slot⟩, slotMember, isTaken⟩ := any_eq_true.mp taken
      refine Or.inl ⟨itemOf povId opId slot.outcome, ?_, rfl⟩
      refine arranged.1.mem_iff.mpr (mem_snapshotItems.mpr ⟨povId, opId, slot, ?_, ?_, rfl⟩)
      · exact slot?_eq_some_iff.mpr ⟨pov, povMember, slotMember⟩
      · simpa [and_assoc] using isTaken

/-- A snapshot has a header for every listed point of view, and fits its budget or has
no entries. -/
theorem length_snapshot {headLsn : Nat} {sorted : List SnapshotItem} (budget : Nat)
    (arranged : ByTimestamp sorted (table.snapshotItems headLsn)) :
    16 + 28 * (table.listedPovs headLsn).length ≤ (table.snapshot budget sorted).length ∧
      ((table.snapshot budget sorted).length ≤ budget ∨ (table.snapshot budget sorted).length =
          16 + 28 * (table.listedPovs headLsn).length) := by
  obtain ⟨fits, povs⟩ := snapshotSize_trimItems budget sorted table.watermarks
  rw [length_listedPovs arranged] at povs
  rw [snapshot, snapshotPovs, length_encode_groupItems]
  constructor
  · rw [snapshotSize, povs]
    omega
  · rcases fits with within | empty
    · exact Or.inl within
    · right
      rw [snapshotSize, povs, empty, map_nil, sum_nil]
      omega

/-- A snapshot fits its budget if and only if the headers of the points of view it lists
do. -/
theorem snapshot_fits_iff
    (table : OperationTable) (headLsn budget : Nat) (sorted : List SnapshotItem)
    (arranged : ByTimestamp sorted (table.snapshotItems headLsn)) :
    (table.snapshot budget sorted).length ≤ budget ↔
      16 + 28 * (table.listedPovs headLsn).length ≤ budget := by
  obtain ⟨headers, fits⟩ := length_snapshot budget arranged
  constructor
  · exact fun within => Nat.le_trans headers within
  · intro within
    rcases fits with isWithin | exact
    · exact isWithin
    · exact Nat.le_trans (Nat.le_of_eq exact) within

/-- One write and its header fill 44 bytes. -/
theorem snapshot_fits_iff_one_write :
    let table := ({ config := {} } : OperationTable).complete ⟨List.replicate 16 0, by decide⟩
      ⟨⟨[0, 0, 0, 0, 0, 1, 112, 0, 0, 0, 0, 0, 0, 0, 0, 0], by decide⟩, by decide⟩
      { sequenceNumber := 7, lsn := 3, persistent := true, result := some [1, 2] } 5
    (table.snapshot 44 (table.snapshotItems 4)).length ≤ 44 ∧
      16 + 28 * (table.listedPovs 4).length ≤ 44 := by
  intro table
  have arranged : ByTimestamp (table.snapshotItems 4) (table.snapshotItems 4) := by
    decide +kernel
  have headers : 16 + 28 * (table.listedPovs 4).length ≤ 44 := by
    decide +kernel
  exact ⟨(snapshot_fits_iff table 4 44 (table.snapshotItems 4) arranged).mpr headers, headers⟩

end OperationTable

/-! ## Points of view with watermarks -/

/-- A uuid for each number. -/
def numberedPov (k : Nat) : Uuid :=
  ⟨toBytes 16 k, length_toBytes ..⟩

theorem numberedPov_injective {k j : Nat} (kFits : k < 256 ^ 16) (jFits : j < 256 ^ 16)
    (same : numberedPov k = numberedPov j) :
    k = j := by
  have bytes : toBytes 16 k = toBytes 16 j := congrArg Subtype.val same
  rw [← ofBytes_toBytes_of_lt kFits, bytes, ofBytes_toBytes_of_lt jFits]

/-- An operation id for each timestamp. -/
def operationAt (ms : Nat) : OperationId :=
  ⟨⟨(toBytes 6 ms).reverse ++ 0x70 :: List.replicate 9 0, by simp⟩, by
    simp [Uuid.version, List.getD_eq_getElem?_getD]⟩

theorem foldl_reverse_bytes (bytes : List UInt8) :
    bytes.reverse.foldl (fun ms byte => ms * 256 + byte.toNat) 0 = ofBytes bytes := by
  rw [foldl_reverse]
  induction bytes with
  | nil => rfl
  | cons byte bytes ih =>
    rw [foldr_cons, ih, ofBytes]
    omega

theorem timestampMs_operationAt {ms : Nat} (fits : ms < 256 ^ 6) :
    (operationAt ms).timestampMs = ms := by
  have first : (operationAt ms).val.val.take 6 = (toBytes 6 ms).reverse := take_left' (by simp)
  rw [OperationId.timestampMs, first, foldl_reverse_bytes, ofBytes_toBytes_of_lt fits]

/-- The first points of view have a watermark and no entry, and the others no table. -/
structure Marked (n : Nat) (table : OperationTable) : Prop where
  done : table.done = []
  unknownBefore : table.unknownBeforeMs = 0
  noSlot : ∀ povId opId, table.slot? povId opId = none
  marked : ∀ k < n, table.expiredBefore (numberedPov k) ≠ 0
  untouched : ∀ povId, (∀ k < n, povId ≠ numberedPov k) → table.povTable povId = {}

theorem prune_single {key : DoneKey} {now : Nat} (only : table.done = [key])
    (aged : key.opId.timestampMs + table.config.ageMs < now) :
    table.prune now = table.dropOldest key [] := by
  have old : ¬ now - table.config.ageMs ≤ key.opId.timestampMs := by omega
  have late : table.config.ageMs < now := by omega
  simp only [prune, only, if_pos late, pruneLoop, old, and_false, if_false]

/-- A keyed write that completes when its id has aged out leaves its point of view only
a watermark. -/
theorem Marked.write
    {config : OperationConfig} (marked : Marked n table) (reached : TableReaches config table)
    (fits : n + 1 < 256 ^ 6) (shortAge : n + 1 + table.config.ageMs < 2 ^ 64) :
    ∃ next, TableReaches config next ∧ next.config = table.config ∧ Marked (n + 1) next := by
  have inRange : n < 256 ^ 16 := by omega
  have stamp := timestampMs_operationAt fits
  have noSlot := marked.noSlot (numberedPov n) (operationAt (n + 1))
  have noMark : table.expiredBefore (numberedPov n) = 0 := by
    rw [expiredBefore, marked.untouched]
    intro k earlier same
    have := numberedPov_injective inRange (Nat.lt_trans earlier inRange) same
    omega
  have reserved : table.reserve (numberedPov n) (operationAt (n + 1)).val 0
      (n + 1 + table.config.ageMs) =
        (table.setSlot (numberedPov n) (operationAt (n + 1)) { outcome := { hash := 0 } },
          .isNew) := by
    have young : ¬ (n + 1 ≤ table.expiredBefore (numberedPov n) ∨ n + 1 ≤ table.unknownBeforeMs ∨
        (n + 1 + table.config.ageMs) % 2 ^ 64 < n + 1 + table.config.ageMs) := by
      rw [noMark, marked.unknownBefore, Nat.mod_eq_of_lt shortAge]
      omega
    simp only [reserve, OperationId.ofUuid?_val, noSlot, stamp, if_neg young]
  set claimed := table.setSlot (numberedPov n) (operationAt (n + 1)) { outcome := { hash := 0 } }
    with isClaimed
  have afterReserve : TableReaches config claimed := by
    refine reached.tail (show SmallResult table (.reserve (numberedPov n)
      (operationAt (n + 1)).val 0 (n + 1 + table.config.ageMs)) from trivial) ?_
    rw [call, reserved]
  set stored := { claimed.setSlot (numberedPov n) (operationAt (n + 1)) { isDone := true } with
    done := [⟨numberedPov n, operationAt (n + 1)⟩] } with isStored
  have completed : claimed.complete (numberedPov n) (operationAt (n + 1)) {}
      (n + 2 + table.config.ageMs) = stored.dropOldest ⟨numberedPov n, operationAt (n + 1)⟩ [] := by
    have aged : (operationAt (n + 1)).timestampMs + stored.config.ageMs <
        n + 2 + table.config.ageMs := by
      rw [stamp]
      show n + 1 + table.config.ageMs < n + 2 + table.config.ageMs
      omega
    have emptyDone : claimed.done = [] := marked.done
    rw [← prune_single rfl aged, complete]
    simp only [setSlot, setPov, emptyDone, insertDone, isStored]
    rfl
  have present : stored.slot? (numberedPov n) (operationAt (n + 1)) = some { isDone := true } := by
    show (claimed.setSlot (numberedPov n) (operationAt (n + 1)) { isDone := true }).slot?
      (numberedPov n) (operationAt (n + 1)) = _
    rw [slot?_setSlot, if_pos ⟨rfl, rfl⟩]
  refine ⟨stored.dropOldest ⟨numberedPov n, operationAt (n + 1)⟩ [], ?_, rfl, ?_⟩
  · refine afterReserve.tail (show SmallResult claimed (.complete (numberedPov n)
      (operationAt (n + 1)) {} (n + 2 + table.config.ageMs)) from by simp [SmallResult]) ?_
    rw [call, completed]
  · have same : ∀ povId, stored.expiredBefore povId = table.expiredBefore povId := by
      intro povId
      show (claimed.setSlot (numberedPov n) (operationAt (n + 1)) { isDone := true }).expiredBefore
        povId = _
      rw [expiredBefore_setSlot, isClaimed, expiredBefore_setSlot]
    refine
      { done := rfl
        unknownBefore := marked.unknownBefore
        noSlot := ?_
        marked := ?_
        untouched := ?_ }
    · intro povId opId
      rw [slot?_dropOldest present]
      split
      case isTrue => rfl
      case isFalse differs =>
        show (claimed.setSlot (numberedPov n) (operationAt (n + 1)) { isDone := true }).slot?
          povId opId = none
        rw [slot?_setSlot, if_neg differs, isClaimed, slot?_setSlot, if_neg differs]
        exact marked.noSlot povId opId
    · intro k earlier
      rw [expiredBefore_dropOldest present, same]
      split
      case isTrue => rw [stamp]; omega
      case isFalse differs =>
        have notLast : k ≠ n := by
          rintro rfl
          exact differs rfl
        exact marked.marked k (by omega)
    · intro povId other
      have differs : povId ≠ numberedPov n := other n (Nat.lt_succ_self n)
      rw [povTable_dropOldest present, if_neg differs]
      show (claimed.setSlot (numberedPov n) (operationAt (n + 1)) { isDone := true }).povTable
        povId = _
      rw [setSlot, povTable_setPov, if_neg differs, isClaimed,
        setSlot, povTable_setPov, if_neg differs]
      exact marked.untouched povId fun k earlier => other k (Nat.lt_succ_of_lt earlier)

/-- Any number of points of view can have a watermark and no entry. -/
theorem exists_marked (config : OperationConfig) (n : Nat) (fits : n < 256 ^ 6)
    (shortAge : n + config.ageMs < 2 ^ 64) :
    ∃ table, TableReaches config table ∧ table.config = config ∧ Marked n table := by
  induction n with
  | zero =>
    refine ⟨{ config }, .refl, rfl, ?_⟩
    exact
      { done := rfl
        unknownBefore := rfl
        noSlot := fun _ _ => rfl
        marked := by simp
        untouched := fun _ _ => rfl }
  | succ n ih =>
    obtain ⟨table, reached, isConfig, marked⟩ := ih (by omega) (by omega)
    rw [← isConfig] at shortAge
    obtain ⟨next, nextReached, sameConfig, nextMarked⟩ := marked.write reached fits shortAge
    exact ⟨next, nextReached, sameConfig.trans isConfig, nextMarked⟩

theorem Marked.mem_listedPovs_iff (marked : Marked n table) (headLsn : Nat) (povId : Uuid) :
    povId ∈ table.listedPovs headLsn ↔ povId ∈ (List.range n).map numberedPov := by
  rw [listedPovs, mem_map, mem_map]
  constructor
  · rintro ⟨⟨povId, pov⟩, mem, rfl⟩
    obtain ⟨inTable, listed⟩ := mem_filter.mp mem
    have found : table.povTable povId = pov := by
      have lookup : table.tableByPov.lookup povId = some pov := AList.mem_lookup_iff.mpr inTable
      rw [povTable, lookup, Option.getD_some]
    by_contra other
    have empty := marked.untouched povId fun k earlier same =>
      other ⟨k, mem_range.mpr earlier, same.symm⟩
    rw [← found, empty] at listed
    exact absurd listed Bool.false_ne_true
  · rintro ⟨k, isBelow, rfl⟩
    have isMarked := marked.marked k (mem_range.mp isBelow)
    cases found : table.tableByPov.lookup (numberedPov k) with
    | none =>
      rw [expiredBefore, povTable, found] at isMarked
      exact absurd rfl isMarked
    | some pov =>
      rw [expiredBefore, povTable, found, Option.getD_some]
        at isMarked
      refine ⟨⟨numberedPov k, pov⟩, mem_filter.mpr ⟨?_, ?_⟩, rfl⟩
      · exact AList.mem_lookup_iff.mp found
      · exact Bool.or_eq_true_iff.mpr (Or.inl (by simpa using isMarked))

theorem Marked.length_listedPovs (marked : Marked n table) (fits : n ≤ 256 ^ 16) (headLsn : Nat) :
    (table.listedPovs headLsn).length = n := by
  have distinct : ((List.range n).map numberedPov).Nodup := by
    refine List.Nodup.map_on ?_ nodup_range
    intro k kBelow j jBelow same
    exact numberedPov_injective (Nat.lt_of_lt_of_le (mem_range.mp kBelow) fits)
      (Nat.lt_of_lt_of_le (mem_range.mp jBelow) fits) same
  have same := (perm_ext_iff_of_nodup (table.nodup_listedPovs headLsn) distinct).mpr
    (marked.mem_listedPovs_iff headLsn)
  rw [same.length_eq, length_map, length_range]

theorem Marked.snapshotItems (marked : Marked n table) (headLsn : Nat) :
    table.snapshotItems headLsn = [] := by
  refine eq_nil_iff_forall_not_mem.mpr ?_
  intro item mem
  obtain ⟨povId, opId, slot, found, _⟩ := mem_snapshotItems.mp mem
  rw [marked.noSlot] at found
  contradiction

/-- `SnapshotBudgetBytes`: what the default checkpoint slot has room for. -/
def snapshotBudgetBytes : Nat :=
  1024 * 1024 - 116 - 16 * 1024

/-- With the default configuration and budget, enough points of view with a watermark
make a snapshot that does not fit. -/
theorem snapshot_over_default_budget : ∃ table, TableReaches {} table ∧ ∀ headLsn,
      ByTimestamp [] (table.snapshotItems headLsn) ∧
        snapshotBudgetBytes < (table.snapshot snapshotBudgetBytes []).length := by
  obtain ⟨table, reached, _, marked⟩ := exists_marked {} 36860 (by decide) (by decide)
  refine ⟨table, reached, ?_⟩
  intro headLsn
  have arranged : ByTimestamp [] (table.snapshotItems headLsn) := by
    rw [marked.snapshotItems]
    exact ⟨List.Perm.refl _, List.Pairwise.nil⟩
  refine ⟨arranged, ?_⟩
  have headers := (length_snapshot snapshotBudgetBytes arranged).1
  have listed := marked.length_listedPovs (by decide) headLsn
  have budget : snapshotBudgetBytes = 1032076 := rfl
  omega

end Orly
