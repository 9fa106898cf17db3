import Orly.WalScanLaws

namespace Orly

/-!
# When recovery reports a sealed group it cannot read

A header further on in the ring may seal the group that a scan stops at.  The scan
looks for one only where it stops at a header it does not expect or at a payload
that fails its checksum, only in other pages, and not in the last lap there is; at
every other stop the seal goes unseen and the log is truncated.
-/

namespace ScanState

variable {config : WalConfig} {sums : Checksums} {image : RingImage} {start : ScanStart}
  {state : ScanState}

/-- The first LSN that has not been recovered, as a number. -/
def firstUnrecovered (start : ScanStart) (state : ScanState) : Nat :=
  if 0 < state.result.lastValidLsn then state.result.lastValidLsn + 1 else start.lsn

/-- A page holds a valid header of a later group that seals what was not recovered. -/
structure SealedBy (config : WalConfig) (sums : Checksums) (start : ScanStart) (state : ScanState)
    (page : Page) : Prop where
  magic : page.hasMagic = true
  version : page.header.formatVersion = walFormatVersion
  store : page.header.storeId = config.storeId
  checked : page.headerChecked sums = true
  later : state.expectedGroup < page.header.groupNum
  lap : page.header.lap = state.expectedLap ∨ page.header.lap = state.expectedLap + 1
  sealed : state.firstUnrecovered start ≤ page.header.sealedThrough

/-- A page of the ring other than this one seals what was not recovered. -/
def SealedElsewhere (config : WalConfig) (sums : Checksums) (image : RingImage) (start : ScanStart)
    (state : ScanState) : Prop :=
  ∃ index page, index < config.pages ∧ index * walAlignment ≠ state.ringOffset ∧
    image index = some page ∧ state.SealedBy config sums start page

theorem lookAhead_isSome_iff : (state.lookAhead config sums image start).isSome ↔
      ∃ index page, index < config.pages ∧ index * walAlignment ≠ state.ringOffset ∧
        image index = some page ∧ state.sealsExpected config sums start page = true := by
  rw [lookAhead, List.findSome?_isSome_iff]
  constructor
  · rintro ⟨index, mem, found⟩
    split at found
    · contradiction
    case isFalse other =>
      cases read : image index with
      | none => simp [read] at found
      | some page =>
        refine ⟨index, page, List.mem_range.mp mem, other, read, ?_⟩
        simp only [read] at found
        split at found
        · assumption
        · contradiction
  · rintro ⟨index, page, inside, other, read, seals⟩
    exact ⟨index, List.mem_range.mpr inside, by simp [other, read, seals]⟩

theorem lap_lt (page : Page) : page.header.lap < 2 ^ 32 := fieldAt_lt page.val 28 4

theorem sealedThrough_lt (page : Page) : page.header.sealedThrough < 2 ^ 64 :=
  fieldAt_lt page.val 56 8

/-- The source's test finds these headers, unless the next lap is past 32 bits. -/
theorem sealsExpected_iff {page : Page} (lsnFits : state.firstUnrecovered start < 2 ^ 64) :
    state.sealsExpected config sums start page = true ↔
      state.SealedBy config sums start page ∧ state.expectedLap + 1 < 2 ^ 32 := by
  have lapLt := lap_lt page
  have lsnEq : state.expectedLsn start = state.firstUnrecovered start := by
    rw [firstUnrecovered] at lsnFits
    rw [expectedLsn, firstUnrecovered]
    split
    case isTrue recovered =>
      rw [if_pos recovered] at lsnFits
      exact Nat.mod_eq_of_lt lsnFits
    case isFalse => rfl
  have lapEq : next32 state.expectedLap = (state.expectedLap + 1) % 2 ^ 32 := rfl
  simp only [sealsExpected, Bool.and_eq_true, decide_eq_true_eq, lsnEq]
  constructor
  · rintro ⟨⟨⟨⟨⟨⟨⟨magic, version⟩, store⟩, checked⟩, later⟩, lapLe⟩, lapGe⟩, sealed⟩
    exact ⟨⟨magic, version, store, checked, later, by omega, sealed⟩, by omega⟩
  · rintro ⟨⟨magic, version, store, checked, later, lap, sealed⟩, fits⟩
    exact ⟨⟨⟨⟨⟨⟨⟨magic, version⟩, store⟩, checked⟩, later⟩, by omega⟩, by omega⟩, sealed⟩

/--
Where the scan looks ahead: at a current header that is not the one it expects, or
at a payload that can be read and fails its checksum.
-/
def AtDamage (config : WalConfig) (sums : Checksums) (image : RingImage)
    (state : ScanState) : Prop :=
  ∃ page, state.page image = some page ∧ state.isOld page = false ∧
    (state.validHeader config sums page = false ∨ ∃ bytes,
        readPages image (state.ringOffset / walAlignment)
            (groupBytesOf page.header.payloadLen / walAlignment) = some bytes ∧
          0 < page.header.payloadLen ∧
          (sums.checksum64 ((bytes.drop groupHeaderBytes).take page.header.payloadLen)).toNat ≠
            page.header.payloadChecksum)

theorem classified_iff {status : ScanStatus} {found : Bool}
    (classified : status = if found then .damagedAcknowledged else .tornTail) :
    status = .damagedAcknowledged ↔ found = true := by
  cases found <;> simp [classified]

/-- A stop is reported as acknowledged damage when it looks ahead and finds a seal. -/
theorem status_of_stops {final : ScanState} (stops : Stops config sums image start state final) :
    final.result.status = .damagedAcknowledged ↔ state.AtDamage config sums image ∧
        (state.lookAhead config sums image start).isSome := by
  cases stops with
  | unreadable failed torn =>
    simp only [torn, reduceCtorEq, false_iff]
    rintro ⟨⟨page, read, -⟩, -⟩
    simp [failed] at read
  | @ended page read old result clean =>
    have notDamaged : result.status ≠ .damagedAcknowledged := by
      rcases clean with status | status <;> simp [status]
    simp only [notDamaged, false_iff]
    rintro ⟨⟨other, otherRead, current, -⟩, -⟩
    obtain rfl : page = other := Option.some.inj (read.symm.trans otherRead)
    simp [old] at current
  | @invalidHeader page read current invalid result classified =>
    have atDamage : state.AtDamage config sums image := ⟨page, read, current, Or.inl invalid⟩
    rw [classified_iff classified]
    exact (and_iff_right atDamage).symm
  | @unreadableGroup page read valid failed result torn =>
    simp only [torn, reduceCtorEq, false_iff]
    rintro ⟨⟨other, otherRead, -, invalid | ⟨bytes, readGroup, -⟩⟩, -⟩
    all_goals obtain rfl : page = other := Option.some.inj (read.symm.trans otherRead)
    · simp [valid] at invalid
    · simp [failed] at readGroup
  | @damagedPayload page bytes read current valid readGroup nonempty damaged result
      classified =>
      have atDamage : state.AtDamage config sums image :=
        ⟨page, read, current, Or.inr ⟨bytes, readGroup, nonempty, damaged⟩⟩
      rw [classified_iff classified]
      exact (and_iff_right atDamage).symm
  | @badRecord page bytes read valid readGroup sound result torn =>
    simp only [torn, reduceCtorEq, false_iff]
    rintro ⟨⟨other, otherRead, -, invalid | ⟨otherBytes, otherGroup, nonempty, damaged⟩⟩, -⟩
    all_goals obtain rfl : page = other := Option.some.inj (read.symm.trans otherRead)
    · simp [valid] at invalid
    · obtain rfl : bytes = otherBytes := Option.some.inj (readGroup.symm.trans otherGroup)
      exact damaged (sound nonempty)

end ScanState

open ScanState in
/--
Let a scan stop at a group that a valid header in the ring seals.  It reports
acknowledged damage exactly when it stops at a current header that is not the
expected one or at a readable payload that fails its checksum, the next lap number
fits its field, and the seal is in a page other than the one it stopped at.
-/
theorem scan_reports_sealed_iff
    (config : WalConfig) (sums : Checksums) (image : RingImage) (start : ScanStart)
    (startFits : start.groupNum < 2 ^ 64) (state final : ScanState)
    (passes : Passes config sums image start (.init start) state)
    (stopped : state.step config sums image start = .stop final)
    (sealed : ∃ index page, index < config.pages ∧ image index = some page ∧
      (state.wrapAtEnd config).SealedBy config sums start page) :
    ∃ result, scan config sums image start = some result ∧
      (result.status = .damagedAcknowledged ↔ (state.wrapAtEnd config).AtDamage config sums image ∧
          (state.wrapAtEnd config).expectedLap + 1 < 2 ^ 32 ∧
          (state.wrapAtEnd config).SealedElsewhere config sums image start) := by
  obtain ⟨result, scanned⟩ := scan_ends config sums image start startFits
  refine ⟨result, scanned, ?_⟩
  have lsnFits : (state.wrapAtEnd config).firstUnrecovered start < 2 ^ 64 := by
    obtain ⟨_, page, -, -, seals⟩ := sealed
    exact lt_of_le_of_lt seals.sealed (sealedThrough_lt page)
  rw [loop_of_passes passes stopped scanned, finish_status,
    status_of_stops (stops_of_turn stopped), lookAhead_isSome_iff]
  simp only [sealsExpected_iff lsnFits, SealedElsewhere]
  constructor
  · rintro ⟨atDamage, index, page, inside, other, read, seals, fits⟩
    exact ⟨atDamage, fits, index, page, inside, other, read, seals⟩
  · rintro ⟨atDamage, fits, index, page, inside, other, read, seals⟩
    exact ⟨atDamage, index, page, inside, other, read, seals, fits⟩

/-- Checksums that are easy to evaluate. -/
def polynomialSums : Checksums where
  checksum64 bytes :=
    UInt64.ofNat (bytes.foldl (fun sum byte => (sum * 257 + byte.toNat + 1) % 2 ^ 61) 7)
  crc32c bytes :=
    UInt32.ofNat (bytes.foldl (fun sum byte => (sum * 257 + byte.toNat + 1) % 2 ^ 31) 7)

/-- A header with its checksum. -/
def GroupHeader.checked (sums : Checksums) (header : GroupHeader) : GroupHeader :=
  { header with headerChecksum := (sums.checksum64 header.coveredBytes).toNat }

/-- A page that a header starts. -/
def headerPage (header : GroupHeader) : Page :=
  ⟨header.bytes ++ List.replicate 4008 0, by
    rw [List.length_append, header.length_bytes, List.length_replicate]
    rfl⟩

/-- A page of zeros. -/
def zeroPage : Page :=
  ⟨List.replicate 4096 0, List.length_replicate⟩

/-- The seal of record 1, as the second group of a new store's log. -/
def sealOfFirst : GroupHeader :=
  GroupHeader.checked polynomialSums
    { formatVersion := 1
      flags := sealOnlyFlag
      storeId := eightPages.storeId
      lap := 1
      groupNum := 2
      firstLsn := 0
      recordCount := 0
      payloadLen := 0
      sealedThrough := 1
      chain := 0
      payloadChecksum := 0
      headerChecksum := 0 }

/-- The device has lost the page of group 1 and kept the seal of it in the next page. -/
def lostFirstGroup : RingImage := fun index =>
  if index = 1 then some (headerPage sealOfFirst) else some zeroPage

/-- Where a scan starts when there is no checkpoint. -/
def scanFromStart : ScanStart :=
  { groupNum := 1, lsn := 1, lap := 1, ringOffset := 0, chain := 0 }

/-- A page holds the seal of record 1, which a scan from the start expects first. -/
theorem sealedBy_sealOfFirst :
    (ScanState.init scanFromStart).SealedBy eightPages polynomialSums scanFromStart
      (headerPage sealOfFirst) where
  magic := by decide
  version := by decide
  store := by decide
  checked := by decide +kernel
  later := by decide
  lap := by decide
  sealed := by decide

/-- A lost group that a later one sealed passes for an empty log. -/
theorem scan_misses_seal :
    (scan eightPages polynomialSums lostFirstGroup scanFromStart).map ScanResult.status =
        some .empty ∧
      ∃ index page, index < eightPages.pages ∧ lostFirstGroup index = some page ∧
        (ScanState.init scanFromStart).SealedBy eightPages polynomialSums scanFromStart page :=
  ⟨by decide, 1, headerPage sealOfFirst, by decide, rfl, sealedBy_sealOfFirst⟩

/-- A header of group 1 that has lost its checksum. -/
def damagedHeader : GroupHeader :=
  { sealOfFirst with groupNum := 1, headerChecksum := 0 }

/-- The first page holds the damaged header, and the next one its seal. -/
def damagedFirstGroup : RingImage := fun index =>
  if index = 0 then some (headerPage damagedHeader)
  else if index = 1 then some (headerPage sealOfFirst)
  else some zeroPage

/-- The first group is damaged, and the next one seals it. -/
theorem scan_reports_damagedFirstGroup :
    ∃ result, scan eightPages polynomialSums damagedFirstGroup scanFromStart = some result ∧
      result.status = .damagedAcknowledged := by
  have current : (ScanState.init scanFromStart).isOld (headerPage damagedHeader) = false := by
    decide
  have invalid : (ScanState.init scanFromStart).validHeader eightPages polynomialSums
      (headerPage damagedHeader) = false := by
    decide +kernel
  obtain ⟨result, scanned, reported⟩ :=
    scan_reports_sealed_iff eightPages polynomialSums damagedFirstGroup scanFromStart
      (by decide) (.init scanFromStart) _ .refl (ScanState.turn_of_invalid rfl current invalid)
      ⟨1, headerPage sealOfFirst, by decide, rfl, sealedBy_sealOfFirst⟩
  exact ⟨result, scanned, reported.mpr ⟨⟨_, rfl, current, Or.inl invalid⟩, by decide, 1,
    headerPage sealOfFirst, by decide, by decide, rfl, sealedBy_sealOfFirst⟩⟩

end Orly
