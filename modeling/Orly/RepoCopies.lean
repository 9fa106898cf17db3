import Orly.ByteReader
import Orly.MetaRecord

/-!
# Copy parts and retention records

A paused repo is copied to the log in parts, and a repo saves what it retains in a
record.  Both are fixed fields and counted lists with lengths in front, written by one
function and read by another, which has to refuse what was not written.
-/

namespace Orly

open ByteReader ByteString LittleEndian

/-- A field of `width` bytes. -/
def putWord (width : Nat) (value : BitVec (8 * width)) : List UInt8 :=
  toBytes width value.toNat

def word (width : Nat) : Reader (BitVec (8 * width)) := do
  let value ← number width
  pure (BitVec.ofNat _ value)

/-- Bytes after their length. -/
def putSized (bytes : List UInt8) : List UInt8 :=
  toBytes 8 bytes.length ++ bytes

def sized : Reader (List UInt8) := do
  let size ← number 8
  bytes size

theorem takes_word {width : Nat} (value : BitVec (8 * width)) :
    Takes (word width) (putWord width value) value := by
  have bound := value.isLt
  rw [Nat.pow_mul] at bound
  refine (takes_number bound).bind_pure ?_
  rw [BitVec.ofNat_toNat, BitVec.setWidth_eq]
  exact reads_pure value

theorem takes_sized {bytes : List UInt8} (fits : bytes.length < 2 ^ 64) :
    Takes sized (putSized bytes) bytes :=
  (takes_number fits).bind (takes_bytes bytes)

/-- `TWalRepoCopyPart`. -/
structure RepoCopyPart where
  repoId : BitVec 128
  setId : BitVec 128
  part : BitVec 32
  count : BitVec 32
  start : BitVec 64
  limit : BitVec 64
  next : BitVec 64
  paused : Bool
  wires : List (List UInt8)
  deriving Repr, DecidableEq

namespace RepoCopyPart

/-- `Magic`. -/
def magic : BitVec 32 := 0x59504352

/-- `Version`. -/
def version : BitVec 8 := 1

/-- `PausedFlag`. -/
def pausedFlag : BitVec 8 := 1

/-- What `Encode` writes after the version; the number of wires is cast to four bytes. -/
def putFields (part : RepoCopyPart) : List UInt8 :=
  putWord 1 (if part.paused then pausedFlag else 0) ++ (putWord 16 part.repoId ++
    (putWord 16 part.setId ++ (putWord 4 part.part ++ (putWord 4 part.count ++
    (putWord 8 part.start ++ (putWord 8 part.limit ++ (putWord 8 part.next ++
    (toBytes 4 part.wires.length ++ part.wires.flatMap putSized))))))))

/-- `Encode`. -/
def encode (part : RepoCopyPart) : List UInt8 :=
  putWord 4 magic ++ (putWord 1 version ++ part.putFields)

/-- What `Decode` reads after the version. -/
def readFields : Reader RepoCopyPart := do
  let flags ← word 1
  let repoId ← word 16
  let setId ← word 16
  let part ← word 4
  let count ← word 4
  let start ← word 8
  let limit ← word 8
  let next ← word 8
  let numWires ← number 4
  let wires ← times sized numWires
  pure
    { repoId := repoId, setId := setId, part := part, count := count, start := start,
      limit := limit, next := next, paused := flags &&& pausedFlag ≠ 0, wires := wires }

/-- `Need`: a read that the bytes are too few for throws. -/
def need {α : Type} : Option α → Except String α
  | some read => .ok read
  | none => .error "WAL RepoCopy record is cut short"

/-- `Decode`, with the texts of what it throws. -/
def decode (data : List UInt8) : Except String RepoCopyPart := do
  let (found, afterMagic) ← need (word 4 data)
  if found ≠ magic then
    .error "WAL RepoCopy record has the wrong magic number"
  else
    let (known, afterVersion) ← need (word 1 afterMagic)
    if known ≠ version then
      .error ("WAL RepoCopy record has unknown version " ++ toString known.toNat)
    else
      let (part, left) ← need (readFields afterVersion)
      if left ≠ [] ∨ part.count ≤ part.part then
        .error "WAL RepoCopy record is malformed"
      else
        .ok part

/-- The reads of `Decode` and its tests, as one reader. -/
def reader : Reader RepoCopyPart := do
  let found ← word 4
  check (if found = magic then some () else none)
  let known ← word 1
  check (if known = version then some () else none)
  let part ← readFields
  check (if part.part < part.count then some part else none)

theorem toOption_need_bind {α β : Type} (read : Option α) (next : α → Except String β) :
    (need read >>= next).toOption = read.bind fun value => (next value).toOption := by
  cases read <;> rfl

theorem decode_toOption (data : List UInt8) : (decode data).toOption = whole reader data := by
  rw [decode, toOption_need_bind, whole, reader, bind_apply, Option.bind_assoc]
  refine congrArg (Option.bind _) (funext fun magicRead => ?_)
  obtain ⟨found, afterMagic⟩ := magicRead
  by_cases isMagic : found = magic
  case neg => simp [isMagic, check, bind_apply, Except.toOption]
  simp only [isMagic, ne_eq, not_true_eq_false, if_false, if_true, toOption_need_bind, check,
    Option.map_some, Option.bind_some, bind_apply, Option.bind_assoc]
  refine congrArg (Option.bind _) (funext fun versionRead => ?_)
  obtain ⟨known, afterVersion⟩ := versionRead
  by_cases isVersion : known = version
  case neg => simp [isVersion, Except.toOption]
  simp only [isVersion, not_true_eq_false, if_false, if_true, toOption_need_bind,
    Option.map_some, Option.bind_some]
  refine congrArg (Option.bind _) (funext fun fieldsRead => ?_)
  obtain ⟨part, left⟩ := fieldsRead
  by_cases isWhole : left = [] <;> by_cases isPart : part.count ≤ part.part <;>
    simp [isWhole, isPart, ← BitVec.not_le, Except.toOption]

theorem takes_fields {part : RepoCopyPart} (few : part.wires.length < 2 ^ 32)
    (fit : ∀ wire ∈ part.wires, wire.length < 2 ^ 64) :
    Takes readFields part.putFields part := by
  iterate 8 refine (takes_word _).bind ?_
  refine (takes_number few).bind ?_
  refine (takes_times _ fun wire mem => takes_sized (fit wire mem)).bind_pure ?_
  have flag :
      decide ((if part.paused then pausedFlag else 0) &&& pausedFlag ≠ 0) = part.paused := by
    cases part.paused <;> rfl
  intro left
  rw [flag]
  rfl

theorem takes_reader {part : RepoCopyPart} (few : part.wires.length < 2 ^ 32)
    (below : part.part < part.count) (fits : part.encode.length < 2 ^ 64) :
    Takes reader part.encode part := by
  have fit : ∀ wire ∈ part.wires, wire.length < 2 ^ 64 := by
    intro wire mem
    have inWires := length_le_of_mem_flatMap putSized mem
    simp only [encode, putFields, List.length_append, putSized] at fits inWires
    omega
  refine (takes_word _).bind (.check_bind (if_pos rfl) ((takes_word _).bind
    (.check_bind (if_pos rfl) ((takes_fields few fit).bind_pure (reads_check (if_pos below))))))

end RepoCopyPart

/-- `TRetentionRecord`; a sample's time is in nanoseconds. -/
structure RetentionRecord where
  horizon : BitVec 64
  versions : BitVec 64
  seconds : BitVec 64
  samples : List (Int64 × BitVec 64)
  savePoints : SortedMap ByteString (BitVec 64)

namespace RetentionRecord

/-- `RecordMagic`. -/
def recordMagic : BitVec 64 := 0x3174655279726C4F

def putSample (sample : Int64 × BitVec 64) : List UInt8 :=
  putWord 8 sample.1.toBitVec ++ putWord 8 sample.2

def readSample : Reader (Int64 × BitVec 64) := do
  let nanos ← word 8
  let seq ← word 8
  pure (.ofBitVec nanos, seq)

def putSavePoint (savePoint : ByteString × BitVec 64) : List UInt8 :=
  putSized savePoint.1 ++ putWord 8 savePoint.2

def readSavePoint : Reader (ByteString × BitVec 64) := do
  let name ← sized
  let seq ← word 8
  pure (name, seq)

/-- `Encode`. -/
def encode (record : RetentionRecord) : List UInt8 :=
  putWord 8 recordMagic ++ (putWord 8 record.horizon ++ (putWord 8 record.versions ++
    (putWord 8 record.seconds ++ (toBytes 8 record.samples.length ++
    (record.samples.flatMap putSample ++ (toBytes 8 record.savePoints.entries.length ++
    record.savePoints.entries.flatMap putSavePoint))))))

/-- What `TryDecode` reads from a blob of this size. -/
def reader (size : Nat) : Reader RetentionRecord := do
  let magic ← word 8
  check (if magic = recordMagic then some () else none)
  let horizon ← word 8
  let versions ← word 8
  let seconds ← word 8
  let count ← number 8
  check (if count ≤ size then some () else none)
  let samples ← times readSample count
  let count ← number 8
  check (if count ≤ size then some () else none)
  let savePoints ← times readSavePoint count
  pure
    { horizon := horizon, versions := versions, seconds := seconds, samples := samples,
      savePoints := savePoints.foldl (fun map point => map.assign point.1 point.2) .empty }

/-- `TryDecode`: whether it could, and what it leaves in its output. -/
def tryDecode (blob : List UInt8) (out : RetentionRecord) : Bool × RetentionRecord :=
  match whole (reader blob.length) blob with
  | some record => (true, record)
  | none => (false, out)

theorem takes_sample (sample : Int64 × BitVec 64) : Takes readSample (putSample sample) sample :=
  (takes_word _).bind ((takes_word _).bind_pure (reads_pure _))

theorem takes_savePoint {savePoint : ByteString × BitVec 64} (fits : savePoint.1.length < 2 ^ 64) :
    Takes readSavePoint (putSavePoint savePoint) savePoint :=
  (takes_sized fits).bind ((takes_word _).bind_pure (reads_pure _))

theorem takes_record {record : RetentionRecord} {size : Nat} (le : record.encode.length ≤ size)
    (fits : record.encode.length < 2 ^ 64) :
    Takes (reader size) record.encode record := by
  have fit : ∀ point ∈ record.savePoints.entries, point.1.length < 2 ^ 64 := by
    intro point mem
    have inPoints := length_le_of_mem_flatMap putSavePoint mem
    simp only [encode, List.length_append, putSavePoint, putSized] at fits inPoints
    omega
  have samplesLe : record.samples.length ≤ (record.samples.flatMap putSample).length :=
    length_le_flatMap (fun _ => by simp [putSample, putWord]) _
  have pointsLe : record.savePoints.entries.length ≤
      (record.savePoints.entries.flatMap putSavePoint).length :=
    length_le_flatMap (fun _ => by simp [putSavePoint, putWord]) _
  have parts : (record.samples.flatMap putSample).length ≤ record.encode.length ∧
      (record.savePoints.entries.flatMap putSavePoint).length ≤ record.encode.length := by
    simp only [encode, List.length_append]
    omega
  refine (takes_word _).bind (.check_bind (if_pos rfl) ?_)
  iterate 3 refine (takes_word _).bind ?_
  refine (takes_number (by omega)).bind (.check_bind (if_pos (by omega)) ?_)
  refine (takes_times _ fun sample _ => takes_sample sample).bind ?_
  refine (takes_number (by omega)).bind (.check_bind (if_pos (by omega)) ?_)
  refine (takes_times _ fun point mem => takes_savePoint (fit point mem)).bind_pure ?_
  rw [SortedMap.foldl_assign_entries]
  exact reads_pure _

/-- A longer blob only lets more counts pass. -/
theorem reader_mono {size larger : Nat} (le : size ≤ larger) :
    (reader size).AtMost (reader larger) := by
  refine .bind fun _ => .bind fun _ => .bind fun _ => .bind fun _ => .bind fun _ =>
    .bind fun count => .check_bind (fun _ => ?_) fun _ => .bind fun _ => .bind fun count =>
      .check_bind (fun _ => ?_) fun _ => .refl
  all_goals
    intro passed
    rw [if_pos (le_trans (Option.ite_none_right_eq_some.mp passed).1 le)]

theorem decodesOnly {record : RetentionRecord} (fits : record.encode.length < 2 ^ 64) :
    DecodesOnly (fun blob => whole (reader blob.length) blob) record.encode record := by
  have own : DecodesOnly (whole (reader record.encode.length)) record.encode record :=
    (takes_record (le_refl _) fits).decodesOnly
  refine ⟨own.decodes, ?_, ?_⟩
  · intro data cut proper
    exact whole_eq_none_of_atMost (reader_mono cut.length_le) (own.cut data cut proper)
  · intro more nonempty
    have le : record.encode.length ≤ (record.encode ++ more).length := by
      rw [List.length_append]
      exact Nat.le_add_right _ _
    exact (takes_record le fits).decodesOnly.extended more nonempty

end RetentionRecord

/--
A copy part is decoded from its encoding, and a retention record from its own; bytes cut
short or followed by others are refused, and leave the output of `TryDecode` as it was.
An encoding is a `std::string`, so it has less than `2 ^ 64` bytes.
-/
theorem repo_copies_read_back :
    (∀ part : RepoCopyPart, part.wires.length < 2 ^ 32 → part.part < part.count →
      part.encode.length < 2 ^ 64 →
        DecodesOnly (fun data => (RepoCopyPart.decode data).toOption) part.encode part) ∧
      ∀ record out : RetentionRecord, record.encode.length < 2 ^ 64 →
        RetentionRecord.tryDecode record.encode out = (true, record) ∧
          (∀ blob, blob <+: record.encode → blob ≠ record.encode →
            RetentionRecord.tryDecode blob out = (false, out)) ∧
          ∀ more ≠ [], RetentionRecord.tryDecode (record.encode ++ more) out = (false, out) := by
  constructor
  · intro part few below fits
    simp only [RepoCopyPart.decode_toOption]
    exact (RepoCopyPart.takes_reader few below fits).decodesOnly
  · intro record out fits
    have decodes := RetentionRecord.decodesOnly fits
    refine ⟨?_, fun blob cut proper => ?_, fun more nonempty => ?_⟩
    · simp only [RetentionRecord.tryDecode, decodes.decodes]
    · simp only [RetentionRecord.tryDecode, decodes.cut blob cut proper]
    · simp only [RetentionRecord.tryDecode, decodes.extended more nonempty]

/-- A part with two wires, and a record with samples and two save points, are read back. -/
theorem repo_copies_read_back_small :
    let part : RepoCopyPart :=
      { repoId := 1, setId := 2, part := 0, count := 1, start := 3, limit := 5, next := 5,
        paused := true, wires := [[1, 2], [3]] }
    let record : RetentionRecord :=
      { horizon := 7, versions := 3, seconds := 60, samples := [(-5, 6), (4, 7)],
        savePoints := ⟨[([1], 8), ([1, 2], 9)], by decide⟩ }
    (RepoCopyPart.decode part.encode).toOption = some part ∧
      RetentionRecord.tryDecode record.encode record = (true, record) :=
  ⟨(repo_copies_read_back.1 _ (by decide) (by decide) (by decide)).decodes,
    (repo_copies_read_back.2 _ _ (by decide)).1⟩

end Orly
