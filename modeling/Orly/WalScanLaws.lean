import Orly.WalScan

namespace Orly

/-!
# The turns of the recovery scan

What a turn of the loop can do, that every scan ends, and what its look-ahead
finds.
-/

open LittleEndian

theorem fieldAt_lt (bytes : List UInt8) (offset width : Nat) :
    fieldAt bytes offset width < 256 ^ width := by
  have lt := ofBytes_lt ((bytes.drop offset).take width)
  have le : 256 ^ ((bytes.drop offset).take width).length ≤ 256 ^ width :=
    Nat.pow_le_pow_right (by decide) (List.length_take_le _ _)
  exact lt_of_lt_of_le lt le

namespace ScanState

variable {config : WalConfig} {sums : Checksums} {image : RingImage} {start : ScanStart}
  {state next final : ScanState}

/-- What a turn that goes on has done: wrapped to the start of the ring or accepted a group. -/
inductive GoesOn (config : WalConfig) (sums : Checksums) (image : RingImage)
    (state : ScanState) : ScanState → Prop
  | wraps
      {page : Page}
      (read : state.page image = some page)
      (old : state.isOld page = true)
      (probe : state.wrapProbe sums image = true) :
      GoesOn config sums image state
        { state with ringOffset := 0, expectedLap := next32 state.expectedLap }
  | accepts
      {page : Page}
      {bytes : List UInt8}
      {records : List ScannedRecord}
      (read : state.page image = some page)
      (current : state.isOld page = false)
      (valid : state.validHeader config sums page = true)
      (readGroup : readPages image (state.ringOffset / walAlignment)
          (groupBytesOf page.header.payloadLen / walAlignment) = some bytes)
      (sound : 0 < page.header.payloadLen → (sums.checksum64
            ((bytes.drop groupHeaderBytes).take page.header.payloadLen)).toNat =
            page.header.payloadChecksum)
      (parsed : parseRecords sums page.header.recordCount
          ((bytes.drop groupHeaderBytes).take page.header.payloadLen) = (records, true)) :
      GoesOn config sums image state (state.accept page.header records)

/-- What a turn that stops has found. -/
inductive Stops (config : WalConfig) (sums : Checksums) (image : RingImage) (start : ScanStart)
    (state : ScanState) : ScanState → Prop
  | unreadable
      (failed : state.page image = none)
      {result : ScanResult}
      (torn : result.status = .tornTail) :
      Stops config sums image start state { state with result := result }
  | ended
      {page : Page}
      (read : state.page image = some page)
      (old : state.isOld page = true)
      {result : ScanResult}
      (clean : result.status = .clean ∨ result.status = .empty) :
      Stops config sums image start state { state with result := result }
  | invalidHeader
      {page : Page}
      (read : state.page image = some page)
      (current : state.isOld page = false)
      (invalid : state.validHeader config sums page = false)
      {result : ScanResult}
      (classified : result.status =
          if (state.lookAhead config sums image start).isSome then .damagedAcknowledged
          else .tornTail) :
      Stops config sums image start state { state with result := result }
  | unreadableGroup
      {page : Page}
      (read : state.page image = some page)
      (valid : state.validHeader config sums page = true)
      (failed : readPages image (state.ringOffset / walAlignment)
          (groupBytesOf page.header.payloadLen / walAlignment) = none)
      {result : ScanResult}
      (torn : result.status = .tornTail) :
      Stops config sums image start state { state with result := result }
  | damagedPayload
      {page : Page}
      {bytes : List UInt8}
      (read : state.page image = some page)
      (current : state.isOld page = false)
      (valid : state.validHeader config sums page = true)
      (readGroup : readPages image (state.ringOffset / walAlignment)
          (groupBytesOf page.header.payloadLen / walAlignment) = some bytes)
      (nonempty : 0 < page.header.payloadLen)
      (damaged : (sums.checksum64
          ((bytes.drop groupHeaderBytes).take page.header.payloadLen)).toNat ≠
          page.header.payloadChecksum)
      {result : ScanResult}
      (classified : result.status =
          if (state.lookAhead config sums image start).isSome then .damagedAcknowledged
          else .tornTail) :
      Stops config sums image start state { state with result := result }
  | badRecord
      {page : Page}
      {bytes : List UInt8}
      (read : state.page image = some page)
      (valid : state.validHeader config sums page = true)
      (readGroup : readPages image (state.ringOffset / walAlignment)
          (groupBytesOf page.header.payloadLen / walAlignment) = some bytes)
      (sound : 0 < page.header.payloadLen → (sums.checksum64
            ((bytes.drop groupHeaderBytes).take page.header.payloadLen)).toNat =
            page.header.payloadChecksum)
      {result : ScanResult}
      (torn : result.status = .tornTail) :
      Stops config sums image start state { state with result := result }

theorem classify_status (damaged : Nat → String) (torn : String) :
    (state.classify config sums image start damaged torn).status =
      if (state.lookAhead config sums image start).isSome then .damagedAcknowledged
      else .tornTail := by
  rw [classify]
  split
  case h_1 sealed found => simp [found]
  case h_2 found => simp [found]

theorem classify_records (damaged : Nat → String) (torn : String) :
    (state.classify config sums image start damaged torn).records = state.result.records := by
  rw [classify]
  split <;> rfl

/-- A turn goes on or stops as one of these. -/
theorem turn_cases (config : WalConfig) (sums : Checksums) (image : RingImage) (start : ScanStart)
    (state : ScanState) :
    (∃ next, state.turn config sums image start = .goOn next ∧
        GoesOn config sums image state next) ∨
      ∃ final, state.turn config sums image start = .stop final ∧
        Stops config sums image start state final := by
  rw [turn]
  cases read : state.page image with
  | none => exact Or.inr ⟨_, rfl, .unreadable read rfl⟩
  | some page =>
    dsimp only
    cases old : state.isOld page with
    | true =>
      rw [if_pos rfl, atOldPage]
      cases probe : state.wrapProbe sums image with
      | true => exact Or.inl ⟨_, if_pos rfl, .wraps read old probe⟩
      | false =>
        refine Or.inr ⟨_, if_neg Bool.false_ne_true, .ended read old ?_⟩
        by_cases first : state.expectedGroup = start.groupNum ∧ start.groupNum = 1 <;> simp [first]
    | false =>
      rw [if_neg Bool.false_ne_true]
      cases valid : state.validHeader config sums page with
      | false =>
        exact Or.inr ⟨_, if_neg Bool.false_ne_true,
          .invalidHeader read old valid (classify_status _ _)⟩
      | true =>
        rw [if_pos rfl, atValidHeader]
        cases readGroup : readPages image (state.ringOffset / walAlignment)
            (groupBytesOf page.header.payloadLen / walAlignment) with
        | none => exact Or.inr ⟨_, rfl, .unreadableGroup read valid readGroup rfl⟩
        | some bytes =>
          dsimp only
          split
          case isTrue damaged =>
            exact Or.inr ⟨_, rfl, .damagedPayload read old valid readGroup damaged.1
              damaged.2 (classify_status _ _)⟩
          case isFalse undamaged =>
            have sound : 0 < page.header.payloadLen →
                (sums.checksum64 ((bytes.drop groupHeaderBytes).take
                  page.header.payloadLen)).toNat = page.header.payloadChecksum :=
              fun nonempty => by_contra fun differs => undamaged ⟨nonempty, differs⟩
            split
            case h_1 records parsed =>
              exact Or.inl ⟨_, rfl, .accepts read old valid readGroup sound parsed⟩
            case h_2 records parsed =>
              exact Or.inr ⟨_, rfl, .badRecord read valid readGroup sound rfl⟩

section Turns

variable {page : Page}

theorem turn_of_old (read : state.page image = some page) (old : state.isOld page = true) :
    state.turn config sums image start = state.atOldPage sums image start := by
  simp only [turn, read, old, if_true]

theorem turn_of_invalid (read : state.page image = some page) (current : state.isOld page = false)
    (invalid : state.validHeader config sums page = false) :
    state.turn config sums image start = state.atInvalidHeader config sums image start := by
  simp only [turn, read, current, invalid, Bool.false_eq_true, if_false]

theorem turn_of_valid (read : state.page image = some page) (current : state.isOld page = false)
    (valid : state.validHeader config sums page = true) :
    state.turn config sums image start =
      state.atValidHeader config sums image start page.header := by
  simp only [turn, read, current, valid, Bool.false_eq_true, if_false, if_true]

end Turns

theorem goesOn_of_turn (went : state.turn config sums image start = .goOn next) :
    GoesOn config sums image state next := by
  rcases turn_cases config sums image start state with
    ⟨other, turned, goes⟩ | ⟨final, turned, stops⟩
  · rw [went] at turned
    rwa [ScanOutcome.goOn.inj turned]
  · rw [went] at turned
    contradiction

theorem stops_of_turn (stopped : state.turn config sums image start = .stop final) :
    Stops config sums image start state final := by
  rcases turn_cases config sums image start state with
    ⟨next, turned, goes⟩ | ⟨other, turned, stops⟩
  · rw [stopped] at turned
    contradiction
  · rw [stopped] at turned
    rwa [ScanOutcome.stop.inj turned]

theorem finish_status (config : WalConfig) (state : ScanState) :
    (state.finish config).status = state.result.status := by
  rw [finish]
  split
  · split <;> rfl
  · rfl

theorem finish_records (config : WalConfig) (state : ScanState) :
    (state.finish config).records = state.result.records := by
  rw [finish]
  split
  · split <;> rfl
  · rfl

section Runs

/-- The states the loop passes through. -/
def Passes (config : WalConfig) (sums : Checksums) (image : RingImage)
    (start : ScanStart) : ScanState → ScanState → Prop :=
  Relation.ReflTransGen fun before after =>
    before.step config sums image start = .goOn after

/-- The scan returns what the state it stops at says. -/
theorem loop_of_passes
    {turns : Nat} {result : ScanResult} (passes : Passes config sums image start state next)
    (stopped : next.step config sums image start = .stop final)
    (ended : loop config sums image start turns state = some result) :
    result = final.finish config := by
  induction passes using Relation.ReflTransGen.head_induction_on generalizing turns with
  | refl =>
    cases turns with
    | zero => contradiction
    | succ turns =>
      rw [loop, stopped] at ended
      exact (Option.some.inj ended).symm
  | head went _ ih =>
    cases turns with
    | zero => contradiction
    | succ turns =>
      rw [loop, went] at ended
      exact ih ended

end Runs

section Termination

theorem wrapAtEnd_lt (config : WalConfig) (state : ScanState) :
    (state.wrapAtEnd config).ringOffset < config.capacityBytes := by
  have holdsPage := config.capacityHoldsPage
  rw [wrapAtEnd]
  split
  · simp only [walAlignment] at *
    omega
  · omega

/-- How far after the start group the header of a page is numbered. -/
def distance (image : RingImage) (startGroup index : Nat) : Nat :=
  match image index with
  | none => 0
  | some page => (page.header.groupNum + (2 ^ 64 - startGroup)) % 2 ^ 64

/-- The pages whose headers may still be accepted after so many groups. -/
def pagesLeft (config : WalConfig) (image : RingImage) (startGroup accepted : Nat) : Finset Nat :=
  (Finset.range config.pages).filter fun index =>
    accepted ≤ distance image startGroup index

/-- The turns that may be left: two for each page, and one that wraps. -/
def turnsLeft (config : WalConfig) (image : RingImage) (startGroup accepted : Nat)
    (state : ScanState) : Nat :=
  2 * (pagesLeft config image startGroup accepted).card +
    if state.ringOffset = 0 then 0 else 1

/-- So many groups have been accepted since the start group. -/
structure Accepted (config : WalConfig) (image : RingImage) (startGroup accepted : Nat)
    (state : ScanState) : Prop where
  expected : state.expectedGroup = (startGroup + accepted) % 2 ^ 64
  left : accepted + (pagesLeft config image startGroup accepted).card ≤ config.pages

theorem index_lt (inside : state.ringOffset < config.capacityBytes) :
    state.ringOffset / walAlignment < config.pages := by
  have aligned := config.capacityAligned
  simp only [WalConfig.pages, walAlignment] at *
  omega

theorem pages_lt (config : WalConfig) : config.pages < 2 ^ 64 :=
  lt_of_le_of_lt (Nat.div_le_self _ _) config.capacityFits

theorem validHeader_groupNum {page : Page} (valid : state.validHeader config sums page = true) :
    page.header.groupNum = state.expectedGroup := by
  simp only [validHeader, Bool.and_eq_true, decide_eq_true_eq] at valid
  exact valid.1.1.2

/-- An accepted group's page is one of those left, and is not left after it. -/
theorem Accepted.accept {startGroup accepted : Nat} (startFits : startGroup < 2 ^ 64)
    (counts : state.Accepted config image startGroup accepted)
    (inside : state.ringOffset < config.capacityBytes) {page : Page}
    (read : state.page image = some page) (valid : state.validHeader config sums page = true)
    (records : List ScannedRecord) :
    (state.accept page.header records).Accepted config image startGroup (accepted + 1) ∧
      (pagesLeft config image startGroup (accepted + 1)).card <
        (pagesLeft config image startGroup accepted).card := by
  have groupNum := validHeader_groupNum valid
  have pagesFit := pages_lt config
  have acceptedLe : accepted ≤ config.pages := le_trans (Nat.le_add_right _ _) counts.left
  have at_distance : distance image startGroup (state.ringOffset / walAlignment) = accepted := by
    have pageEq : image (state.ringOffset / walAlignment) = some page := read
    rw [distance, pageEq]
    simp only [groupNum, counts.expected]
    omega
  have mem : state.ringOffset / walAlignment ∈ pagesLeft config image startGroup accepted :=
    Finset.mem_filter.mpr ⟨Finset.mem_range.mpr (index_lt inside), at_distance.ge⟩
  have notMember : state.ringOffset / walAlignment ∉
      pagesLeft config image startGroup (accepted + 1) := by
    intro left
    have le := (Finset.mem_filter.mp left).2
    omega
  have subset : pagesLeft config image startGroup (accepted + 1) ⊆
      pagesLeft config image startGroup accepted := by
    intro index left
    obtain ⟨range, le⟩ := Finset.mem_filter.mp left
    exact Finset.mem_filter.mpr ⟨range, by omega⟩
  have fewer := Finset.card_lt_card
    (Finset.ssubset_iff_subset_ne.mpr ⟨subset, fun same => notMember (same ▸ mem)⟩)
  refine ⟨⟨?_, ?_⟩, fewer⟩
  · change next64 page.header.groupNum = _
    rw [groupNum, counts.expected, next64]
    omega
  · have left := counts.left
    omega

/-- A turn that goes on leaves fewer turns. -/
theorem Accepted.goesOn {startGroup accepted : Nat} (startFits : startGroup < 2 ^ 64)
    (counts : state.Accepted config image startGroup accepted)
    (goes : GoesOn config sums image (state.wrapAtEnd config) next) :
    ∃ accepted', next.Accepted config image startGroup accepted' ∧
      turnsLeft config image startGroup accepted' next <
        turnsLeft config image startGroup accepted state := by
  have inside := wrapAtEnd_lt config state
  have wrapCounts : (state.wrapAtEnd config).Accepted config image startGroup accepted := by
    refine ⟨?_, counts.left⟩
    rw [← counts.expected, wrapAtEnd]
    split <;> rfl
  cases goes with
  | wraps read old probe =>
    have positive : 0 < (state.wrapAtEnd config).ringOffset := by
      simp only [wrapProbe, Bool.and_eq_true, decide_eq_true_eq] at probe
      exact probe.1
    have stays : state.wrapAtEnd config = state := by
      rw [wrapAtEnd] at positive ⊢
      split at positive
      · exact absurd positive (lt_irrefl 0)
      · rename_i notEnd
        rw [if_neg notEnd]
    rw [stays] at positive
    refine ⟨accepted, ⟨wrapCounts.expected, counts.left⟩, ?_⟩
    simp [turnsLeft, positive.ne']
  | accepts read current valid readGroup sound parsed =>
    obtain ⟨nextCounts, fewer⟩ := wrapCounts.accept startFits inside read valid _
    refine ⟨accepted + 1, nextCounts, ?_⟩
    simp only [turnsLeft]
    split_ifs <;> omega

/-- The scan ends within its turns. -/
theorem loop_ends {startGroup accepted turns : Nat} (startFits : startGroup < 2 ^ 64)
    (counts : state.Accepted config image startGroup accepted)
    (enough : turnsLeft config image startGroup accepted state < turns) :
    ∃ result, loop config sums image start turns state = some result := by
  induction turns generalizing state accepted with
  | zero => exact absurd enough (Nat.not_lt_zero _)
  | succ turns ih =>
    rw [loop]
    cases stepped : state.step config sums image start with
    | stop final => exact ⟨_, rfl⟩
    | goOn next =>
      obtain ⟨accepted', nextCounts, fewer⟩ := counts.goesOn startFits (goesOn_of_turn stepped)
      exact ih nextCounts (by omega)

end Termination

end ScanState

/-- Every scan ends. -/
theorem scan_ends (config : WalConfig) (sums : Checksums) (image : RingImage) (start : ScanStart)
    (startFits : start.groupNum < 2 ^ 64) :
    ∃ result, scan config sums image start = some result := by
  have le : (ScanState.pagesLeft config image start.groupNum 0).card ≤ config.pages := by
    have filtered := Finset.card_filter_le (Finset.range config.pages) fun index =>
      0 ≤ ScanState.distance image start.groupNum index
    rwa [Finset.card_range] at filtered
  have counts : (ScanState.init start).Accepted config image start.groupNum 0 :=
    ⟨(Nat.mod_eq_of_lt startFits).symm, by omega⟩
  refine ScanState.loop_ends startFits counts ?_
  · simp only [ScanState.turnsLeft]
    split <;> omega

end Orly
