import Orly.Wal

namespace Orly

/-!
# Recovery scan of the write-ahead log

`TWal::Scan` reads the ring from the checkpoint's head, accepts groups as long as
each is the one it expects, and classifies what it stops at.  It runs over what
reading each page of the device gives, which may be anything, or fail.
-/

open LittleEndian

/-- A page of the device. -/
def Page := { bytes : List UInt8 // bytes.length = walAlignment }

instance : DecidableEq Page :=
  inferInstanceAs (DecidableEq { bytes : List UInt8 // bytes.length = walAlignment })

/-- What reading each page from the start of the ring gives; `none` is a read error. -/
abbrev RingImage := Nat → Option Page

/-- The number at an offset of some bytes. -/
def fieldAt (bytes : List UInt8) (offset width : Nat) : Nat :=
  ofBytes ((bytes.drop offset).take width)

namespace Page

/-- The page begins with the magic of a group. -/
def hasMagic (page : Page) : Bool :=
  page.val.take 8 = walMagic

/-- The page read as a `TGroupHeader`. -/
def header (page : Page) : GroupHeader where
  formatVersion := fieldAt page.val 8 2
  flags := fieldAt page.val 10 2
  storeId := ⟨(page.val.drop 12).take 16, by
    rw [List.length_take, List.length_drop, page.property]
    decide⟩
  lap := fieldAt page.val 28 4
  groupNum := fieldAt page.val 32 8
  firstLsn := fieldAt page.val 40 8
  recordCount := fieldAt page.val 48 4
  payloadLen := fieldAt page.val 52 4
  sealedThrough := fieldAt page.val 56 8
  chain := fieldAt page.val 64 8
  payloadChecksum := fieldAt page.val 72 8
  headerChecksum := fieldAt page.val 80 8

/-- The header's checksum is that of the bytes it covers. -/
def headerChecked (sums : Checksums) (page : Page) : Bool :=
  page.header.headerChecksum = (sums.checksum64 (page.val.take 80)).toNat

end Page

/-- The bytes of some pages in a row, if each can be read. -/
def readPages (image : RingImage) (first : Nat) : Nat → Option (List UInt8)
  | 0 => some []
  | count + 1 => do
      let page ← image first
      let rest ← readPages image (first + 1) count
      some (page.val ++ rest)

/-- `TScannedRecord`; the type is the byte that was read. -/
structure ScannedRecord where
  lsn : Nat
  type : Nat
  flags : Nat
  body : List UInt8
  deriving Repr, DecidableEq

/-- `TScanStatus`. -/
inductive ScanStatus where
  | clean
  | tornTail
  | damagedAcknowledged
  | corrupt
  | empty
  deriving Repr, DecidableEq

/-- `TScanResult`. -/
structure ScanResult where
  status : ScanStatus
  lastValidLsn : Nat
  lastValidGroupNum : Nat
  lastValidLap : Nat
  nextRingOffset : Nat
  lastGroupChecksum : Nat
  startGroupNum : Nat
  stoppedAtGroupNum : Nat
  damagedLsnStart : Nat
  damagedLsnEnd : Nat
  problemDescription : String
  records : List ScannedRecord
  groupLocations : List GroupLocation
  deriving Repr, DecidableEq

/-- Where a scan starts: the arguments of `TWal::Scan`. -/
structure ScanStart where
  groupNum : Nat
  lsn : Nat
  lap : Nat
  ringOffset : Nat
  chain : Nat
  deriving Repr, DecidableEq

/-- The loop variables of `TWal::Scan`. -/
structure ScanState where
  expectedGroup : Nat
  expectedLap : Nat
  expectedChain : Nat
  ringOffset : Nat
  result : ScanResult
  deriving Repr, DecidableEq

/-- An unsigned 32-bit increment. -/
def next32 (value : Nat) : Nat :=
  (value + 1) % 2 ^ 32

/-- An unsigned 64-bit increment. -/
def next64 (value : Nat) : Nat :=
  (value + 1) % 2 ^ 64

/-- The records at the start of a payload, and whether all that were asked for are sound. -/
def parseRecords (sums : Checksums) : Nat → List UInt8 → List ScannedRecord × Bool
  | 0, _ => ([], true)
  | count + 1, payload =>
    let length := fieldAt payload 0 4
    let body := (payload.drop recordHeaderBytes).take (length - recordHeaderBytes)
    if payload.length < recordHeaderBytes then
      ([], false)
    else if length < recordHeaderBytes ∨ payload.length < length then
      ([], false)
    else if (sums.crc32c body).toNat ≠ fieldAt payload 16 4 then
      ([], false)
    else
      let (records, valid) := parseRecords sums count (payload.drop length)
      ({ lsn := fieldAt payload 8 8
         type := fieldAt payload 4 1
         flags := fieldAt payload 5 1
         body := body } :: records,
        valid)

namespace WalConfig

/-- The pages of the ring. -/
def pages (config : WalConfig) : Nat :=
  config.capacityBytes / walAlignment

end WalConfig

namespace ScanState

variable (config : WalConfig) (sums : Checksums) (image : RingImage) (start : ScanStart)
  (state : ScanState)

/-- The variables before the loop. -/
def init (start : ScanStart) : ScanState where
  expectedGroup := start.groupNum
  expectedLap := start.lap
  expectedChain := start.chain
  ringOffset := start.ringOffset
  result :=
    { status := .clean
      lastValidLsn := 0
      lastValidGroupNum := 0
      lastValidLap := start.lap
      nextRingOffset := start.ringOffset
      lastGroupChecksum := start.chain
      startGroupNum := start.groupNum
      stoppedAtGroupNum := 0
      damagedLsnStart := 0
      damagedLsnEnd := 0
      problemDescription := ""
      records := []
      groupLocations := [] }

/-- At the end of the ring, wrap. -/
def wrapAtEnd : ScanState :=
  if config.capacityBytes ≤ state.ringOffset then
    { state with ringOffset := 0, expectedLap := next32 state.expectedLap }
  else
    state

/-- The page at the ring offset. -/
def page : Option Page :=
  image (state.ringOffset / walAlignment)

/-- The page does not hold a header of the expected lap and group, or of later ones. -/
def isOld (page : Page) : Bool :=
  !page.hasMagic || page.header.lap < state.expectedLap ||
    (page.header.lap = state.expectedLap && page.header.groupNum < state.expectedGroup)

/-- The ring wrapped to its start before the offset: the group expected is there. -/
def wrapProbe : Bool :=
  0 < state.ringOffset &&
    match image 0 with
    | none => false
    | some page =>
      page.hasMagic && page.header.groupNum = state.expectedGroup &&
        page.header.lap = next32 state.expectedLap &&
        page.header.chain = state.expectedChain && page.headerChecked sums

/-- `valid_header`. -/
def validHeader (page : Page) : Bool :=
  page.header.formatVersion = walFormatVersion && page.header.storeId = config.storeId &&
    page.header.lap = state.expectedLap && page.header.groupNum = state.expectedGroup &&
    page.header.chain = state.expectedChain && page.headerChecked sums

/-- The first LSN that has not been recovered. -/
def expectedLsn : Nat :=
  if 0 < state.result.lastValidLsn then next64 state.result.lastValidLsn else start.lsn

/-- A header that seals what the expected group should have held. -/
def sealsExpected (page : Page) : Bool :=
  page.hasMagic && page.header.formatVersion = walFormatVersion &&
    page.header.storeId = config.storeId && page.headerChecked sums &&
    state.expectedGroup < page.header.groupNum && state.expectedLap ≤ page.header.lap &&
    page.header.lap ≤ next32 state.expectedLap &&
    state.expectedLsn start ≤ page.header.sealedThrough

/-- Look through the rest of the ring for a group that sealed the expected one. -/
def lookAhead : Option Nat :=
  (List.range config.pages).findSome? fun index =>
    if index * walAlignment = state.ringOffset then
      none
    else
      match image index with
      | none => none
      | some page =>
        if state.sealsExpected config sums start page then
          some page.header.sealedThrough
        else
          none

/-- The classification of a damaged group: acknowledged or a torn tail. -/
def classify (damaged : Nat → String) (torn : String) : ScanResult :=
  match state.lookAhead config sums image start with
  | some sealed =>
    { state.result with
      status := .damagedAcknowledged
      damagedLsnStart := state.expectedLsn start
      damagedLsnEnd := sealed
      problemDescription := damaged sealed }
  | none => { state.result with status := .tornTail, problemDescription := torn }

/-- The group that is accepted with this header and these records. -/
def accept (header : GroupHeader) (records : List ScannedRecord) : ScanState :=
  let lastLsn :=
    if 0 < header.recordCount then
      (header.firstLsn + header.recordCount - 1) % 2 ^ 64
    else
      header.firstLsn
  { expectedGroup := next64 header.groupNum
    expectedLap := state.expectedLap
    expectedChain := header.headerChecksum
    ringOffset := state.ringOffset + groupBytesOf header.payloadLen
    result :=
      { state.result with
        lastValidGroupNum := header.groupNum
        lastValidLap := header.lap
        lastValidLsn :=
          if 0 < header.recordCount then lastLsn else state.result.lastValidLsn
        records := state.result.records ++ records
        groupLocations :=
          state.result.groupLocations ++
            [{ groupNum := header.groupNum
               lap := header.lap
               offset := state.ringOffset
               chain := header.chain
               firstLsn := header.firstLsn
               lastLsn := lastLsn }] } }

/-- A torn tail at the expected group. -/
def tornAt : ScanResult :=
  { state.result with status := .tornTail, stoppedAtGroupNum := state.expectedGroup }

end ScanState

/-- What one turn of the loop leads to. -/
inductive ScanOutcome where
  | goOn (state : ScanState)
  | stop (state : ScanState)
  deriving Repr, DecidableEq

namespace ScanState

variable (config : WalConfig) (sums : Checksums) (image : RingImage) (start : ScanStart)
  (state : ScanState)

/-- The turn of the loop at a page that holds no current header. -/
def atOldPage : ScanOutcome :=
  if state.wrapProbe sums image then
    .goOn { state with ringOffset := 0, expectedLap := next32 state.expectedLap }
  else
    .stop
      { state with
        result :=
          { state.result with
            status :=
              if state.expectedGroup = start.groupNum ∧ start.groupNum = 1 then .empty
              else .clean } }

/-- The turn of the loop at a header that is not the expected one. -/
def atInvalidHeader : ScanOutcome :=
  let stopped :=
    { state with
      result := { state.result with stoppedAtGroupNum := state.expectedGroup } }
  .stop
    { stopped with
      result :=
        stopped.classify config sums image start
          (fun sealed =>
            "Group " ++ toString state.expectedGroup ++
              " was acknowledged and sealed through LSN " ++ toString sealed ++
              " but is damaged on disk")
          ("Unsealed tail at group " ++ toString state.expectedGroup) }

/-- The turn of the loop at the expected header: its payload and records. -/
def atValidHeader (header : GroupHeader) : ScanOutcome :=
  match readPages image (state.ringOffset / walAlignment)
      (groupBytesOf header.payloadLen / walAlignment) with
  | none => .stop { state with result := state.tornAt }
  | some bytes =>
    let payload := (bytes.drop groupHeaderBytes).take header.payloadLen
    if 0 < header.payloadLen ∧ (sums.checksum64 payload).toNat ≠ header.payloadChecksum then
      .stop
        { state with
          result :=
            state.classify config sums image start
              (fun sealed =>
                "Group " ++ toString state.expectedGroup ++
                  " had valid header but damaged payload; sealed through " ++
                  toString sealed)
              ("Unsealed torn payload at group " ++ toString state.expectedGroup) }
    else
      match parseRecords sums header.recordCount payload with
      | (records, true) => .goOn (state.accept header records)
      | (records, false) =>
        .stop
          { state with
            result :=
              { state.tornAt with records := state.result.records ++ records } }

/-- One turn of the loop, once it has wrapped at the end of the ring. -/
def turn : ScanOutcome :=
  match state.page image with
  | none =>
    .stop
      { state with
        result :=
          { state.tornAt with
            problemDescription :=
              "Device read error at offset " ++ toString state.ringOffset } }
  | some page =>
    if state.isOld page then
      state.atOldPage sums image start
    else if state.validHeader config sums page then
      state.atValidHeader config sums image start page.header
    else
      state.atInvalidHeader config sums image start

/-- One turn of the loop. -/
def step : ScanOutcome :=
  (state.wrapAtEnd config).turn config sums image start

/-- What the scan returns once the loop is over. -/
def finish : ScanResult :=
  if 0 < state.result.lastValidGroupNum then
    if config.capacityBytes ≤ state.ringOffset then
      { state.result with
        nextRingOffset := 0
        lastValidLap := next32 state.expectedLap
        lastGroupChecksum := state.expectedChain }
    else
      { state.result with
        nextRingOffset := state.ringOffset
        lastValidLap := state.expectedLap
        lastGroupChecksum := state.expectedChain }
  else
    state.result

/-- The loop, for at most so many turns. -/
def loop (turns : Nat) (state : ScanState) : Option ScanResult :=
  match turns with
  | 0 => none
  | turns + 1 =>
    match state.step config sums image start with
    | .goOn next => next.loop turns
    | .stop final => some (final.finish config)

end ScanState

/-- `TWal::Scan`; no scan takes more turns. -/
def scan (config : WalConfig) (sums : Checksums) (image : RingImage)
    (start : ScanStart) : Option ScanResult :=
  ScanState.loop config sums image start (2 * config.pages + 2) (.init start)

end Orly
