import Orly.WalScan

namespace Orly

/-!
# Groups and checkpoints as pages

What the leader and `Checkpoint` write, page by page, `ReadNewestCheckpoint`, and
that a group, its records or a checkpoint that is read back whole is the one that
was written.
-/

open LittleEndian GreedyBatches List

section Fields

@[simp]
theorem length_walMagic : walMagic.length = 8 := by
  simp [walMagic]

@[simp]
theorem length_checkpointMagic : checkpointMagic.length = 8 := by
  simp [checkpointMagic]

variable {offset : Nat}

/-- To read past the first bytes, read the others. -/
theorem drop_append_skip {left : List UInt8} (right : List UInt8) (skips : left.length ≤ offset) :
    (left ++ right).drop offset = right.drop (offset - left.length) := by
  rw [drop_append, drop_of_length_le skips, nil_append]

@[simp]
theorem fieldAt_append
    {left : List UInt8} (right : List UInt8) (width : Nat) (skips : left.length ≤ offset) :
    fieldAt (left ++ right) offset width = fieldAt right (offset - left.length) width := by
  rw [fieldAt, fieldAt, drop_append_skip right skips]

@[simp]
theorem fieldAt_toBytes (width value : Nat) (right : List UInt8) :
    fieldAt (toBytes width value ++ right) 0 width = value % 256 ^ width := by
  rw [fieldAt, drop_zero, take_left' (length_toBytes width value), ofBytes_toBytes]

/-- A number that fits its field is read back. -/
theorem fieldAt_eq {bytes : List UInt8} {width value : Nat}
    (eq : fieldAt bytes offset width = value % 256 ^ width) (fits : value < 256 ^ width) :
    fieldAt bytes offset width = value :=
  eq.trans (Nat.mod_eq_of_lt fits)

end Fields

section Pages

/-- A page of a zeroed buffer that some bytes were copied to. -/
def pageAt (bytes : List UInt8) (index : Nat) : Page :=
  let chunk := (bytes.drop (index * walAlignment)).take walAlignment
  ⟨chunk ++ List.replicate (walAlignment - chunk.length) 0, by
    have short : chunk.length ≤ walAlignment := List.length_take_le _ _
    rw [List.length_append, List.length_replicate]
    omega⟩

theorem val_pageAt_zero (bytes : List UInt8) : (pageAt bytes 0).val = bytes.take walAlignment ++
        List.replicate (walAlignment - min walAlignment bytes.length) 0 := by
  simp [pageAt]

theorem pageAt_succ (bytes : List UInt8) (index : Nat) :
    pageAt bytes (index + 1) = pageAt (bytes.drop walAlignment) index := by
  have skip : bytes.drop ((index + 1) * walAlignment) =
      (bytes.drop walAlignment).drop (index * walAlignment) := by
    rw [drop_drop, Nat.add_mul, Nat.one_mul, Nat.add_comm]
  apply Subtype.ext
  simp only [pageAt, skip]

/-- The first page begins with what the buffer begins with. -/
theorem pageAt_zero {first : List UInt8} (rest : List UInt8) (short : first.length ≤ walAlignment) :
    ∃ tail, (pageAt (first ++ rest) 0).val = first ++ tail := by
  rw [val_pageAt_zero, List.take_append, take_of_length_le short, append_assoc]
  exact ⟨_, rfl⟩

/-- Reading all pages of a buffer gives the bytes in it, then zeros. -/
theorem readPages_pageAt {image : RingImage} {bytes : List UInt8} {first count : Nat}
    (holds : bytes.length ≤ count * walAlignment)
    (pages : ∀ index < count, image (first + index) = some (pageAt bytes index)) :
    readPages image first count =
      some (bytes ++ List.replicate (count * walAlignment - bytes.length) 0) := by
  induction count generalizing bytes first with
  | zero =>
    have empty : bytes = [] := by simpa using holds
    simp [readPages, empty]
  | succ count ih =>
    have firstPage : image first = some (pageAt bytes 0) := pages 0 (by omega)
    have rest : readPages image (first + 1) count =
        some (bytes.drop walAlignment ++
          List.replicate (count * walAlignment - (bytes.drop walAlignment).length) 0) := by
      apply ih
      · rw [length_drop]
        rw [Nat.add_mul] at holds
        omega
      · intro index lt
        rw [← pageAt_succ, ← pages (index + 1) (by omega), Nat.add_right_comm, Nat.add_assoc]
    rw [readPages, firstPage, rest]
    simp only [Option.bind_eq_bind, Option.bind_some, val_pageAt_zero, length_drop]
    by_cases long : walAlignment ≤ bytes.length
    · have padding : count * walAlignment - (bytes.length - walAlignment) =
          (count + 1) * walAlignment - bytes.length := by
        rw [Nat.add_mul]
        omega
      rw [Nat.min_eq_left long, Nat.sub_self, replicate_zero, append_nil,
        ← append_assoc, take_append_drop, padding]
    · have padding : walAlignment - bytes.length + count * walAlignment =
          (count + 1) * walAlignment - bytes.length := by
        rw [Nat.add_mul]
        omega
      rw [Nat.min_eq_right (by omega), take_of_length_le (by omega),
        drop_of_length_le (by omega), nil_append,
        show bytes.length - walAlignment = 0 by omega, Nat.sub_zero, append_assoc,
        replicate_append_replicate, padding]

end Pages

namespace GroupHeader

/-- Every number of the header fits its field. -/
@[mk_iff]
structure InRange (header : GroupHeader) : Prop where
  formatVersion : header.formatVersion < 2 ^ 16
  flags : header.flags < 2 ^ 16
  lap : header.lap < 2 ^ 32
  groupNum : header.groupNum < 2 ^ 64
  firstLsn : header.firstLsn < 2 ^ 64
  recordCount : header.recordCount < 2 ^ 32
  payloadLen : header.payloadLen < 2 ^ 32
  sealedThrough : header.sealedThrough < 2 ^ 64
  chain : header.chain < 2 ^ 64
  payloadChecksum : header.payloadChecksum < 2 ^ 64
  headerChecksum : header.headerChecksum < 2 ^ 64

instance (header : GroupHeader) : Decidable header.InRange :=
  decidable_of_iff' _ header.inRange_iff

variable {header : GroupHeader} {page : Page} {tail : List UInt8}

/-- A page that begins with the bytes of a header is read as that header. -/
theorem header_of_bytes (inRange : header.InRange) (begins : page.val = header.bytes ++ tail) :
    page.header = header := by
  have storeLength : header.storeId.val.length = 16 := header.storeId.property
  simp only [bytes, coveredBytes, append_assoc] at begins
  obtain ⟨store, storeEq⟩ : ∃ store, store = header.storeId.val := ⟨_, rfl⟩
  rw [← storeEq] at begins storeLength
  have storeId : (⟨(page.val.drop 12).take 16, page.header.storeId.property⟩ : StoreId) =
      header.storeId := by
    apply Subtype.ext
    rw [← storeEq]
    simp [begins, drop_append_skip, take_left' storeLength]
  cases header
  refine (mk.injEq ..).mpr ⟨fieldAt_eq ?_ inRange.formatVersion, fieldAt_eq ?_ inRange.flags,
    storeId, fieldAt_eq ?_ inRange.lap, fieldAt_eq ?_ inRange.groupNum,
    fieldAt_eq ?_ inRange.firstLsn,
    fieldAt_eq ?_ inRange.recordCount, fieldAt_eq ?_ inRange.payloadLen,
    fieldAt_eq ?_ inRange.sealedThrough, fieldAt_eq ?_ inRange.chain,
    fieldAt_eq ?_ inRange.payloadChecksum, fieldAt_eq ?_ inRange.headerChecksum⟩
  all_goals simp [begins, storeLength]

theorem hasMagic_of_bytes (begins : page.val = header.bytes ++ tail) : page.hasMagic = true := by
  simp only [bytes, coveredBytes, append_assoc] at begins
  simp [Page.hasMagic, begins]

/-- A page that begins with the bytes of a header covers what the header covers. -/
theorem take_of_bytes (begins : page.val = header.bytes ++ tail) :
    page.val.take 80 = header.coveredBytes := by
  rw [begins, bytes, append_assoc, take_left' header.length_coveredBytes]

end GroupHeader

namespace WalRecord

/-- The record as a scan finds it. -/
def scanned (record : WalRecord) : ScannedRecord where
  lsn := record.lsn
  type := record.type.code
  flags := record.flags.toNat
  body := record.body

/-- The numbers of the record's header fit their fields. -/
@[mk_iff]
structure InRange (record : WalRecord) : Prop where
  size : record.encodedSize < 2 ^ 32
  lsn : record.lsn < 2 ^ 64

instance (record : WalRecord) : Decidable record.InRange :=
  decidable_of_iff' _ record.inRange_iff

theorem code_lt (type : WalRecordType) : type.code < 256 := by
  cases type <;> decide

/-- What is read of a record at the start of some bytes. -/
theorem parse_encoded (sums : Checksums) {record : WalRecord} (inRange : record.InRange)
    (tail : List UInt8) :
    fieldAt (record.encoded sums ++ tail) 0 4 = record.encodedSize ∧
      fieldAt (record.encoded sums ++ tail) 4 1 = record.type.code ∧
      fieldAt (record.encoded sums ++ tail) 5 1 = record.flags.toNat ∧
      fieldAt (record.encoded sums ++ tail) 8 8 = record.lsn ∧
      fieldAt (record.encoded sums ++ tail) 16 4 = (sums.crc32c record.body).toNat := by
  have code := code_lt record.type
  have flags := record.flags.toNat_lt
  have crc := (sums.crc32c record.body).toNat_lt
  refine ⟨fieldAt_eq ?_ inRange.size, fieldAt_eq ?_ code, fieldAt_eq ?_ flags,
    fieldAt_eq ?_ inRange.lsn, fieldAt_eq ?_ crc⟩
  all_goals
    simp [encoded, headerBytes, encodedSize]

/-- Parsing some encoded records gives them back. -/
theorem parseRecords_encoded (sums : Checksums) {records : List WalRecord}
    (inRange : ∀ record ∈ records, record.InRange) :
    parseRecords sums records.length (records.flatMap (encoded sums)) =
      (records.map scanned, true) := by
  induction records with
  | nil => rfl
  | cons record records ih =>
    have rest := ih fun other mem =>
      inRange other (mem_cons_of_mem _ mem)
    rw [flatMap_cons, length_cons]
    generalize records.flatMap (encoded sums) = tail at rest
    obtain ⟨length, code, flags, lsn, crc⟩ := parse_encoded sums (inRange record mem_cons_self) tail
    have size : recordHeaderBytes ≤ record.encodedSize := Nat.le_add_right _ _
    have total : (record.encoded sums ++ tail).length = record.encodedSize + tail.length := by
      rw [length_append, length_encoded]
    have body : ((record.encoded sums ++ tail).drop recordHeaderBytes).take
        (record.encodedSize - recordHeaderBytes) = record.body := by
      rw [encoded, append_assoc, drop_left' (record.length_headerBytes sums)]
      exact take_left' (Nat.add_sub_cancel_left _ _).symm
    have left : (record.encoded sums ++ tail).drop record.encodedSize = tail :=
      drop_left' (record.length_encoded sums)
    rw [parseRecords]
    simp only [length, body, crc, left, rest, code, flags, lsn, total]
    rw [if_neg (by omega), if_neg (by omega), if_neg (by simp)]
    rfl

end WalRecord

theorem length_flatMap_encoded (sums : Checksums) (records : List WalRecord) :
    (records.flatMap (WalRecord.encoded sums)).length = payloadBytes records := by
  induction records with
  | nil => rfl
  | cons record records ih =>
    rw [flatMap_cons, length_append, ih, record.length_encoded sums]
    rfl

namespace Group

variable (sums : Checksums)

/-- The payload of a group. -/
def payload (group : Group) : List UInt8 :=
  group.records.flatMap (WalRecord.encoded sums)

/-- The buffer the leader writes, less its padding. -/
def bytes (group : Group) : List UInt8 :=
  group.header.bytes ++ group.payload sums

/-- The pages a group takes. -/
def pages (group : Group) : Nat :=
  group.size / walAlignment

theorem length_payload (group : Group) : (group.payload sums).length = payloadBytes group.records :=
  length_flatMap_encoded sums group.records

theorem size_eq (group : Group) : group.size = group.pages * walAlignment := by
  have aligned : group.size % walAlignment = 0 := alignToWal_mod _
  rw [pages, Nat.div_mul_cancel (Nat.dvd_of_mod_eq_zero aligned)]

theorem length_bytes_le (group : Group) :
    (group.bytes sums).length ≤ group.pages * walAlignment := by
  rw [← size_eq, bytes, length_append, GroupHeader.length_bytes, length_payload]
  exact le_alignToWal _

/-- The first page of a group begins with its header. -/
theorem pageAt_zero (group : Group) :
    ∃ tail, (pageAt (group.bytes sums) 0).val = group.header.bytes ++ tail := by
  apply Orly.pageAt_zero
  rw [GroupHeader.length_bytes]
  decide

end Group

/-! ## Checkpoints -/

namespace Checkpoint

/-- The `CheckpointHeaderChecksumCoveredBytes` first bytes of a checkpoint. -/
def coveredBytes (config : WalConfig) (sums : Checksums) (checkpoint : Checkpoint) : List UInt8 :=
  checkpointMagic ++ toBytes 2 walFormatVersion ++ toBytes 2 0 ++ config.storeId.val ++
    toBytes 8 checkpoint.checkpointNum ++ toBytes 8 checkpoint.head.lsn ++
    toBytes 8 checkpoint.durableLsn ++ toBytes 8 checkpoint.globalFlushedSeq ++
    toBytes 8 checkpoint.head.groupNum ++ toBytes 4 checkpoint.head.lap ++ toBytes 4 0 ++
    toBytes 8 checkpoint.head.ringOffset ++ toBytes 8 checkpoint.head.chain ++
    toBytes 4 checkpoint.payload.length ++ toBytes 4 0 ++
    toBytes 8
      (if checkpoint.payload.isEmpty then 0
        else (sums.checksum64 checkpoint.payload).toNat)

/-- The packed `TCheckpointHeader`. -/
def headerBytes (config : WalConfig) (sums : Checksums) (checkpoint : Checkpoint) : List UInt8 :=
  checkpoint.coveredBytes config sums ++
    toBytes 8 (sums.checksum64 (checkpoint.coveredBytes config sums)).toNat

/-- The buffer `Checkpoint` writes, less its padding. -/
def bytes (config : WalConfig) (sums : Checksums) (checkpoint : Checkpoint) : List UInt8 :=
  checkpoint.headerBytes config sums ++ checkpoint.payload

/-- The pages a checkpoint takes. -/
def pages (checkpoint : Checkpoint) : Nat :=
  alignToWal (checkpointHeaderBytes + checkpoint.payload.length) / walAlignment

/-- A checkpoint as the first page of a slot has it. -/
def ofPage (page : Page) (payload : List UInt8) : Checkpoint where
  checkpointNum := fieldAt page.val 28 8
  head :=
    { lsn := fieldAt page.val 36 8
      groupNum := fieldAt page.val 60 8
      lap := fieldAt page.val 68 4
      ringOffset := fieldAt page.val 76 8
      chain := fieldAt page.val 84 8 }
  durableLsn := fieldAt page.val 44 8
  globalFlushedSeq := fieldAt page.val 52 8
  payload := payload

end Checkpoint

/-- The tests of `read_slot` on the first page of a slot. -/
def validCheckpointHeader (config : WalConfig) (sums : Checksums) (page : Page) : Bool :=
  page.val.take 8 = checkpointMagic && fieldAt page.val 8 2 = walFormatVersion &&
    (page.val.drop 12).take 16 = config.storeId.val &&
    fieldAt page.val 108 8 = (sums.checksum64 (page.val.take 108)).toNat

/-- `read_slot` of `ReadNewestCheckpoint`. -/
def readSlot (config : WalConfig) (sums : Checksums) (slot : RingImage) : Option Checkpoint :=
  match slot 0 with
  | none => none
  | some page =>
    let payloadLen := fieldAt page.val 92 4
    let totalSize := alignToWal (checkpointHeaderBytes + payloadLen)
    if !validCheckpointHeader config sums page then
      none
    else if payloadLen = 0 then
      some (.ofPage page [])
    else if config.checkpointSlotBytes ≠ 0 ∧ config.checkpointSlotBytes < totalSize then
      none
    else
      match readPages slot 0 (totalSize / walAlignment) with
      | none => none
      | some bytes =>
        let payload := (bytes.drop checkpointHeaderBytes).take payloadLen
        if fieldAt page.val 100 8 ≠ (sums.checksum64 payload).toNat then
          none
        else
          some (.ofPage page payload)

/-- `ReadNewestCheckpoint`. -/
def readNewestCheckpoint (config : WalConfig) (sums : Checksums)
    (slot0 slot1 : RingImage) : Option Checkpoint :=
  match readSlot config sums slot0, readSlot config sums slot1 with
  | some first, some second =>
    if second.checkpointNum ≤ first.checkpointNum then some first else some second
  | some first, none => some first
  | none, second => second

namespace Checkpoint

variable {config : WalConfig} {sums : Checksums} {checkpoint : Checkpoint}

/-- Every number of the checkpoint fits its field. -/
@[mk_iff]
structure InRange (checkpoint : Checkpoint) : Prop where
  checkpointNum : checkpoint.checkpointNum < 2 ^ 64
  headLsn : checkpoint.head.lsn < 2 ^ 64
  durableLsn : checkpoint.durableLsn < 2 ^ 64
  globalFlushedSeq : checkpoint.globalFlushedSeq < 2 ^ 64
  headGroupNum : checkpoint.head.groupNum < 2 ^ 64
  headLap : checkpoint.head.lap < 2 ^ 32
  headRingOffset : checkpoint.head.ringOffset < 2 ^ 64
  headChain : checkpoint.head.chain < 2 ^ 64
  payloadLen : checkpoint.payload.length < 2 ^ 32

instance (checkpoint : Checkpoint) : Decidable checkpoint.InRange :=
  decidable_of_iff' _ checkpoint.inRange_iff

/-- The checkpoint is not longer than a slot; `0` stands for no limit. -/
def FitsSlot (config : WalConfig) (checkpoint : Checkpoint) : Prop :=
  config.checkpointSlotBytes = 0 ∨ alignToWal (checkpointHeaderBytes + checkpoint.payload.length) ≤
      config.checkpointSlotBytes

theorem length_coveredBytes : (checkpoint.coveredBytes config sums).length = 108 := by
  simp [coveredBytes, config.storeId.property]

theorem length_headerBytes :
    (checkpoint.headerBytes config sums).length = checkpointHeaderBytes := by
  rw [headerBytes, length_append, length_coveredBytes, length_toBytes]
  rfl

/-- What is read of a page that begins with the header of a checkpoint. -/
structure ReadAs (config : WalConfig) (sums : Checksums) (checkpoint : Checkpoint)
    (page : Page) : Prop where
  valid : validCheckpointHeader config sums page = true
  payloadLen : fieldAt page.val 92 4 = checkpoint.payload.length
  payloadChecksum : checkpoint.payload ≠ [] →
      fieldAt page.val 100 8 = (sums.checksum64 checkpoint.payload).toNat
  fields : ∀ payload, ofPage page payload = { checkpoint with payload := payload }

theorem readAs_of_bytes (inRange : checkpoint.InRange) {page : Page} {tail : List UInt8}
    (begins : page.val = checkpoint.headerBytes config sums ++ tail) :
    checkpoint.ReadAs config sums page := by
  have covered : page.val.take 108 = checkpoint.coveredBytes config sums := by
    rw [begins, headerBytes, append_assoc, take_left' length_coveredBytes]
  have storeLength : config.storeId.val.length = 16 := config.storeId.property
  have checksum : fieldAt page.val 108 8 =
      (sums.checksum64 (checkpoint.coveredBytes config sums)).toNat := by
    rw [begins, headerBytes, append_assoc,
      fieldAt_append _ _ (by rw [length_coveredBytes]), length_coveredBytes, Nat.sub_self,
      fieldAt_toBytes]
    exact Nat.mod_eq_of_lt (UInt64.toNat_lt _)
  have sumFits :
      (if checkpoint.payload.isEmpty then 0
        else (sums.checksum64 checkpoint.payload).toNat) < 256 ^ 8 := by
    split
    · decide
    · exact UInt64.toNat_lt _
  obtain ⟨sum, sumEq⟩ : ∃ sum, sum =
      if checkpoint.payload.isEmpty then 0
        else (sums.checksum64 checkpoint.payload).toNat := ⟨_, rfl⟩
  obtain ⟨store, storeEq⟩ : ∃ store, store = config.storeId.val := ⟨_, rfl⟩
  simp only [headerBytes, coveredBytes, append_assoc] at begins
  rw [← sumEq] at sumFits
  rw [← storeEq] at storeLength
  rw [← storeEq, ← sumEq] at begins
  generalize toBytes 8 (sums.checksum64 _).toNat = checkedBytes at begins
  have version : fieldAt page.val 8 2 = walFormatVersion :=
    fieldAt_eq (by simp [begins]) (by decide)
  have payloadChecksum : fieldAt page.val 100 8 = sum :=
    fieldAt_eq (by simp [begins, storeLength]) sumFits
  refine ⟨?_, ?_, ?_, ?_⟩
  · have magic : page.val.take 8 = checkpointMagic := by
      rw [begins, take_left' length_checkpointMagic]
    have storeId : (page.val.drop 12).take 16 = config.storeId.val := by
      rw [← storeEq]
      simp [begins, drop_append_skip, take_left' storeLength]
    simp [validCheckpointHeader, magic, version, storeId, checksum, covered]
  · exact fieldAt_eq (by simp [begins, storeLength]) inRange.payloadLen
  · intro nonempty
    rw [payloadChecksum, sumEq, if_neg (by simpa using nonempty)]
  · intro payload
    simp only [ofPage, mk.injEq, and_true]
    refine ⟨fieldAt_eq ?_ inRange.checkpointNum, ?_, fieldAt_eq ?_ inRange.durableLsn,
      fieldAt_eq ?_ inRange.globalFlushedSeq⟩
    case refine_2 =>
      refine HeadMark.mk.injEq .. |>.mpr ⟨fieldAt_eq ?_ inRange.headLsn,
        fieldAt_eq ?_ inRange.headGroupNum, fieldAt_eq ?_ inRange.headLap,
        fieldAt_eq ?_ inRange.headRingOffset, fieldAt_eq ?_ inRange.headChain⟩
      all_goals simp [begins, storeLength]
    all_goals simp [begins, storeLength]

theorem pages_pos (checkpoint : Checkpoint) : 0 < checkpoint.pages :=
  Nat.div_pos (walAlignment_le_alignToWal (Nat.add_pos_left (by decide) _)) (by decide)

theorem length_bytes_le :
    (checkpoint.bytes config sums).length ≤ checkpoint.pages * walAlignment := by
  rw [bytes, length_append, length_headerBytes, pages,
    Nat.div_mul_cancel (Nat.dvd_of_mod_eq_zero (alignToWal_mod _))]
  exact le_alignToWal _

/-- The first page of a checkpoint begins with its header. -/
theorem pageAt_zero (config : WalConfig) (sums : Checksums) (checkpoint : Checkpoint) :
    ∃ tail, (pageAt (checkpoint.bytes config sums) 0).val =
      checkpoint.headerBytes config sums ++ tail := by
  apply Orly.pageAt_zero
  rw [length_headerBytes]
  decide

section Slots

variable {slot : RingImage} {page : Page}

/-- A slot that does not begin with the magic holds no checkpoint. -/
theorem readSlot_of_not_magic (first : slot 0 = some page)
    (noMagic : page.val.take 8 ≠ checkpointMagic) :
    readSlot config sums slot = none := by
  simp [readSlot, first, validCheckpointHeader, noMagic]

/-- What is read of the payload of a checkpoint has its checksum only if it is the payload. -/
def SlotSound (sums : Checksums) (checkpoint : Checkpoint) (slot : RingImage) : Prop :=
  ∀ bytes ∈ readPages slot 0 checkpoint.pages,
    sums.checksum64 ((bytes.drop checkpointHeaderBytes).take checkpoint.payload.length) =
        sums.checksum64 checkpoint.payload →
      (bytes.drop checkpointHeaderBytes).take checkpoint.payload.length = checkpoint.payload

instance (sums : Checksums) (checkpoint : Checkpoint) (slot : RingImage) :
    Decidable (checkpoint.SlotSound sums slot) :=
  inferInstanceAs (Decidable (∀ bytes ∈ readPages slot 0 checkpoint.pages, _ → _))

/-- A slot that begins with the header of a checkpoint holds it whole, or none. -/
theorem readSlot_of_readAs (read : checkpoint.ReadAs config sums page) (first : slot 0 = some page)
    (sound : checkpoint.SlotSound sums slot) :
    readSlot config sums slot = none ∨ readSlot config sums slot = some checkpoint := by
  simp only [readSlot, first, read.valid, read.payloadLen, read.fields, Bool.not_true,
    Bool.false_eq_true, if_false]
  by_cases empty : checkpoint.payload.length = 0
  · right
    have payload : checkpoint.payload = [] := length_eq_zero_iff.mp empty
    rw [if_pos empty, ← payload]
  · rw [if_neg empty]
    split
    · exact Or.inl rfl
    · split
      case h_1 => exact Or.inl rfl
      case h_2 bytes readAll =>
        split
        case isTrue => exact Or.inl rfl
        case isFalse same =>
          right
          have nonempty : checkpoint.payload ≠ [] := fun nil => empty (by simp [nil])
          rw [not_not, read.payloadChecksum nonempty] at same
          rw [sound bytes readAll (UInt64.toNat_inj.mp same).symm]

/-- A slot that holds every page of a checkpoint holds the checkpoint. -/
theorem readSlot_of_pages (inRange : checkpoint.InRange) (fits : checkpoint.FitsSlot config)
    (written : ∀ index < checkpoint.pages,
        slot index = some (pageAt (checkpoint.bytes config sums) index)) :
    readSlot config sums slot = some checkpoint := by
  obtain ⟨tail, begins⟩ := checkpoint.pageAt_zero config sums
  have read := readAs_of_bytes inRange begins
  have first := written 0 checkpoint.pages_pos
  have readAll : readPages slot 0 checkpoint.pages =
        some (checkpoint.bytes config sums ++ List.replicate
            (checkpoint.pages * walAlignment - (checkpoint.bytes config sums).length) 0) :=
    readPages_pageAt length_bytes_le fun index lt => by
      rw [Nat.zero_add]
      exact written index lt
  simp only [readSlot, first, read.valid, read.payloadLen, read.fields, Bool.not_true,
    Bool.false_eq_true, if_false]
  by_cases empty : checkpoint.payload.length = 0
  · have payload : checkpoint.payload = [] := length_eq_zero_iff.mp empty
    rw [if_pos empty, ← payload]
  · have nonempty : checkpoint.payload ≠ [] := fun nil => empty (by simp [nil])
    have whole : alignToWal (checkpointHeaderBytes + checkpoint.payload.length) /
        walAlignment = checkpoint.pages := rfl
    have payload : ∀ padding,
        ((checkpoint.bytes config sums ++ padding).drop checkpointHeaderBytes).take
          checkpoint.payload.length = checkpoint.payload := by
      intro padding
      rw [bytes, append_assoc, drop_left' length_headerBytes, take_left' rfl]
    rw [if_neg empty, if_neg (by rintro ⟨limited, short⟩; rcases fits with no | fit <;> omega),
      whole, readAll]
    simp only [payload, read.payloadChecksum nonempty, ne_eq, not_true_eq_false, if_false]

end Slots

end Checkpoint

end Orly
