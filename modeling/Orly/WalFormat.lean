import Orly.LittleEndian

namespace Orly

/-!
# On-disk format of the write-ahead log

The packed headers of groups, records and checkpoints, and the bytes they are
written as.  Numbers keep their exact value here; writing one keeps its low bytes,
as the casts of the source do.
-/

open LittleEndian

/-- `WalAlignment`: groups start at, and are padded to, whole pages. -/
def walAlignment : Nat := 4096

/-- `AlignToWal`. -/
def alignToWal (bytes : Nat) : Nat :=
  (bytes + walAlignment - 1) / walAlignment * walAlignment

/-- `WalFormatVersion`. -/
def walFormatVersion : Nat := 1

/-- A store id: the 16 bytes of a uuid. -/
def StoreId := { bytes : List UInt8 // bytes.length = 16 }

theorem length_zeroBytes : (List.replicate 16 (0 : UInt8)).length = 16 := rfl

instance : DecidableEq StoreId :=
  inferInstanceAs (DecidableEq { bytes : List UInt8 // bytes.length = 16 })

/-- The checksums of the log: `ComputeChecksum64` and `ComputeCrc32c`. -/
structure Checksums where
  checksum64 : List UInt8 → UInt64
  crc32c : List UInt8 → UInt32

/-- `TWalRecordType`. -/
inductive WalRecordType where
  | txn
  | pov
  | seal
  | metadata
  | repoCopy
  deriving Repr, DecidableEq

/-- The byte a record header holds for a type. -/
def WalRecordType.code : WalRecordType → Nat
  | .txn => 1
  | .pov => 2
  | .seal => 3
  | .metadata => 4
  | .repoCopy => 5

/-- `WalFlags::SealOnly`. -/
def sealOnlyFlag : Nat := 1

/-- The eight bytes `ORLYWAL1`. -/
def walMagic : List UInt8 := [79, 82, 76, 89, 87, 65, 76, 49]

/-- The eight bytes `ORLYCHK1`. -/
def checkpointMagic : List UInt8 := [79, 82, 76, 89, 67, 72, 75, 49]

/-- `sizeof(TGroupHeader)`. -/
def groupHeaderBytes : Nat := 88

/-- `sizeof(TRecordHeader)`. -/
def recordHeaderBytes : Nat := 20

/-- `sizeof(TCheckpointHeader)`. -/
def checkpointHeaderBytes : Nat := 116

/-- `TGroupHeader`, less its magic, which every header has. -/
structure GroupHeader where
  formatVersion : Nat
  flags : Nat
  storeId : StoreId
  lap : Nat
  groupNum : Nat
  firstLsn : Nat
  recordCount : Nat
  payloadLen : Nat
  sealedThrough : Nat
  chain : Nat
  payloadChecksum : Nat
  headerChecksum : Nat
  deriving DecidableEq

namespace GroupHeader

/-- The `GroupHeaderChecksumCoveredBytes` first bytes of a header. -/
def coveredBytes (header : GroupHeader) : List UInt8 :=
  walMagic ++ toBytes 2 header.formatVersion ++ toBytes 2 header.flags ++
    header.storeId.val ++ toBytes 4 header.lap ++ toBytes 8 header.groupNum ++
    toBytes 8 header.firstLsn ++ toBytes 4 header.recordCount ++
    toBytes 4 header.payloadLen ++ toBytes 8 header.sealedThrough ++
    toBytes 8 header.chain ++ toBytes 8 header.payloadChecksum

/-- The packed bytes of a header. -/
def bytes (header : GroupHeader) : List UInt8 :=
  header.coveredBytes ++ toBytes 8 header.headerChecksum

theorem length_coveredBytes (header : GroupHeader) : header.coveredBytes.length = 80 := by
  simp [coveredBytes, walMagic, header.storeId.property]

theorem length_bytes (header : GroupHeader) : header.bytes.length = groupHeaderBytes := by
  rw [bytes, List.length_append, length_coveredBytes, length_toBytes]
  rfl

end GroupHeader

/-- A record as it was appended (`TPendingRecord`). -/
structure WalRecord where
  lsn : Nat
  type : WalRecordType
  flags : UInt8
  body : List UInt8
  deriving Repr, DecidableEq

namespace WalRecord

/-- The packed `TRecordHeader` of a record. -/
def headerBytes (sums : Checksums) (record : WalRecord) : List UInt8 :=
  toBytes 4 (recordHeaderBytes + record.body.length) ++ toBytes 1 record.type.code ++
    toBytes 1 record.flags.toNat ++ toBytes 2 0 ++ toBytes 8 record.lsn ++
    toBytes 4 (sums.crc32c record.body).toNat

/-- `TPendingRecord::Encoded`: header and body. -/
def encoded (sums : Checksums) (record : WalRecord) : List UInt8 :=
  record.headerBytes sums ++ record.body

/-- The size of the encoded record. -/
def encodedSize (record : WalRecord) : Nat :=
  recordHeaderBytes + record.body.length

theorem length_headerBytes (sums : Checksums) (record : WalRecord) :
    (record.headerBytes sums).length = recordHeaderBytes := by
  simp [headerBytes, recordHeaderBytes]

theorem length_encoded (sums : Checksums) (record : WalRecord) :
    (record.encoded sums).length = record.encodedSize := by
  rw [encoded, List.length_append, length_headerBytes, encodedSize]

theorem encodedSize_pos (record : WalRecord) : 0 < record.encodedSize := by
  simp only [encodedSize, recordHeaderBytes]
  omega

end WalRecord

section Alignment

theorem le_alignToWal (bytes : Nat) : bytes ≤ alignToWal bytes := by
  simp only [alignToWal, walAlignment]
  omega

theorem alignToWal_mono {first second : Nat} (le : first ≤ second) :
    alignToWal first ≤ alignToWal second := by
  simp only [alignToWal, walAlignment]
  omega

theorem alignToWal_mod (bytes : Nat) : alignToWal bytes % walAlignment = 0 := by
  simp [alignToWal]

/-- Growing a group costs no more than a group of the growth. -/
theorem alignToWal_add_le (first second : Nat) :
    alignToWal (first + second) ≤ alignToWal first + alignToWal second := by
  simp only [alignToWal, walAlignment]
  omega

theorem walAlignment_le_alignToWal {bytes : Nat} (positive : 0 < bytes) :
    walAlignment ≤ alignToWal bytes := by
  simp only [alignToWal, walAlignment]
  omega

end Alignment

end Orly
