import Orly.WalCrash

namespace Orly

/-!
# Recovery after a crash

A scan of what a crash left accepts the groups from the head of the checkpoint on,
one after the other, and stops no earlier than at the first that was not synced.
There it finds an older page or a torn group, and nothing that seals it.
-/

open CrashDisk GrownLists List ScanState

/-- An image that a crash may leave of a state of the log, and what is known of both. -/
structure CrashOf (config : WalConfig) (sums : Checksums) (disk : DeviceImage) (system : WalSystem)
    (synced flying : List Group)
    (image : DeviceImage) : Prop where
  history : LogHistory config sums system
  ordered : system.wal.InRingOrder config
  progress : SyncProgress system synced flying
  fresh : FreshDisk disk
  crash : system.Crashes config sums disk image
  ordinary : system.Ordinary sums
  noCollision : system.NoCollision sums image

/-- A place the scan comes to: after these groups, with those to come. -/
structure ScanPoint (config : WalConfig) (cursor : RingCursor) (lap offset : Nat)
    (before after : List Group) : Prop where
  head : cursor.checkpointedHead ≤ toLex (lap, offset)
  behind : ∀ group ∈ before, group.ringEnd.position ≤ toLex (lap, offset)
  aligned : offset % walAlignment = 0
  /-- The next group is here, or did not fit the rest of the lap. -/
  next : ∀ group rest, after = group :: rest → group.position = toLex (lap, offset) ∨
        (group.position = toLex (lap + 1, 0) ∧ config.capacityBytes < offset + group.size)

/-- A list that starts two ways, one of them further. -/
theorem split_of_length_lt {Item : Type} {first more before rest : List Item} {item : Item}
    (eq : first ++ more = before ++ item :: rest) (lt : before.length < first.length) :
    ∃ after, first = before ++ item :: after := by
  rcases append_eq_append_iff.mp eq with ⟨between, rfl, -⟩ | ⟨between, rfl, tailEq⟩
  · rw [length_append] at lt
    omega
  · cases between with
    | nil => simp at lt
    | cons head after =>
      obtain ⟨rfl, -⟩ := List.cons.inj tailEq
      exact ⟨after, rfl⟩

namespace CrashOf

variable {config : WalConfig} {sums : Checksums} {disk image : DeviceImage} {system : WalSystem}
  {synced flying before after : List Group} {group : Group} {lap offset : Nat}

section

variable (crashed : CrashOf config sums disk system synced flying image)

include crashed

/-- The header page of a group is read as its header. -/
theorem headerPage (mem : group ∈ system.placed) : (pageAt (group.bytes sums) 0).hasMagic = true ∧
      (pageAt (group.bytes sums) 0).header = group.header ∧
      (pageAt (group.bytes sums) 0).headerChecked sums = true := by
  obtain ⟨tail, begins⟩ := group.pageAt_zero sums
  obtain ⟨first, rest, split⟩ := append_of_mem mem
  have follows := crashed.history.grown first group rest split
  have header := GroupHeader.header_of_bytes (crashed.ordinary.headers group mem) begins
  refine ⟨GroupHeader.hasMagic_of_bytes begins, header, ?_⟩
  rw [Page.headerChecked, header, GroupHeader.take_of_bytes begins, follows.headerChecksum]
  exact decide_eq_true rfl

/-- A ring page has no magic, or is the header page of a group. -/
theorem ring_page (index : Nat) : (image (.ring index)).hasMagic = false ∨
      ∃ group ∈ system.placed, index = group.offset / walAlignment ∧
        image (.ring index) = pageAt (group.bytes sums) 0 := by
  rcases ring_cases crashed.progress crashed.crash index with
    untouched | ⟨group, mem, offset, lt, indexEq, pageEq⟩
  · left
    rw [untouched]
    exact crashed.fresh.ring index
  · rcases Nat.eq_zero_or_pos offset with rfl | positive
    · exact Or.inr ⟨group, mem, indexEq, pageEq⟩
    · left
      rw [pageEq]
      exact crashed.ordinary.magic group mem offset lt positive

/-- A group whose header is where the scan is belongs to an older lap, or is the next one. -/
theorem group_at_point (point : ScanPoint config system.wal.cursor lap offset before after)
    (split : system.placed = before ++ after) (mem : group ∈ system.placed)
    (here : offset / walAlignment = group.offset / walAlignment) :
    group.header.lap < lap ∨
      ∃ rest, after = group :: rest ∧ group.position = toLex (lap, offset) := by
  obtain ⟨first, last, around⟩ := append_of_mem mem
  have groupAligned := (crashed.history.grown first group last around).aligned
  have offsetEq : group.offset = offset := by
    have aligned := point.aligned
    simp only [walAlignment] at *
    omega
  have positive : 0 < group.size := lt_of_lt_of_le (by decide) group.walAlignment_le_size
  have lapLe := lap_le_of_covers crashed.history crashed.ordered mem point.head
    (le_refl offset) (by omega)
  rcases Nat.lt_or_ge group.header.lap lap with older | notOlder
  · exact Or.inl older
  · right
    have position : group.position = toLex (lap, offset) := by
      rw [Group.position, offsetEq, Nat.le_antisymm lapLe notOlder]
    rw [split] at mem
    rcases mem_append.mp mem with behind | ahead
    · have ends := point.behind group behind
      exact absurd (position ▸ group.position_lt_ringEnd) (not_lt.mpr ends)
    · obtain ⟨next, rest, rfl⟩ := exists_cons_of_ne_nil (ne_nil_of_mem ahead)
      rcases mem_cons.mp ahead with rfl | later
      · exact ⟨rest, rfl, position⟩
      · exfalso
        obtain ⟨between, tail, rfl⟩ := append_of_mem later
        have grown := crashed.history.grown
        have regrouped : system.placed = (before ++ next :: between) ++ group :: tail := by
          rw [split, append_assoc, cons_append]
        rw [regrouped] at grown
        have order : next.ringEnd.position ≤ group.position := ringEnd_le_position grown (by simp)
        have starts := next.position_lt_ringEnd.trans_le (order.trans_eq position)
        rcases point.next next _ rfl with direct | ⟨wrapped, -⟩
        · exact absurd starts (by rw [direct]; exact lt_irrefl _)
        · rw [wrapped, Prod.Lex.toLex_lt_toLex] at starts
          omega

/-- A synced group that the scan has not passed is whole on the image. -/
theorem intact (point : ScanPoint config system.wal.cursor lap offset before (group :: after))
    (split : system.placed = before ++ group :: after) (notPassed : before.length < synced.length)
    {index : Nat} (lt : index < group.pages) :
    image (.ring (group.offset / walAlignment + index)) = pageAt (group.bytes sums) index := by
  have placed := crashed.progress.placed
  rw [append_assoc, split] at placed
  obtain ⟨rest, syncedEq⟩ := split_of_length_lt placed.symm notPassed
  have pointLe : toLex (lap, offset) ≤ group.position := by
    rcases point.next group after rfl with direct | ⟨wrapped, -⟩
    · exact direct.ge
    · rw [wrapped, Prod.Lex.toLex_le_toLex]
      omega
  exact ring_intact crashed.progress crashed.history crashed.ordered crashed.crash syncedEq
    (point.head.trans pointLe) lt

end

end CrashOf

/-- The scan has accepted these groups from its start, and those are to come. -/
structure AtPoint (config : WalConfig) (cursor : RingCursor) (start : ScanStart)
    (retired accepted after : List Group)
    (state : ScanState) : Prop where
  point : ScanPoint config cursor state.expectedLap state.ringOffset (retired ++ accepted) after
  groupNum : state.expectedGroup = (retired ++ accepted).length + 1
  chain : state.expectedChain = (ringEndOf (retired ++ accepted)).chain
  records : state.result.records = (recordsOf accepted).map WalRecord.scanned
  lastLsn : state.result.lastValidLsn =
      if recordsOf accepted = [] then 0 else (recordsOf (retired ++ accepted)).length
  startLsn : (recordsOf retired).length < start.lsn
  lapFits : 0 < state.ringOffset → state.expectedLap + 1 < 2 ^ 32

theorem ScanState.wrapAtEnd_of_start {config : WalConfig} {state : ScanState}
    (atStart : state.ringOffset = 0) :
    state.wrapAtEnd config = state := by
  have holdsPage := config.capacityHoldsPage
  simp only [walAlignment] at holdsPage
  exact if_neg (by omega)

namespace AtPoint

variable {config : WalConfig} {cursor : RingCursor} {start : ScanStart}
  {retired accepted after : List Group} {state : ScanState}

section

variable (atPoint : AtPoint config cursor start retired accepted after state)

include atPoint

/-- The first LSN that is not recovered comes after the records so far. -/
theorem lt_expectedLsn (fits : (recordsOf (retired ++ accepted)).length + 1 < 2 ^ 64) :
    (recordsOf (retired ++ accepted)).length < state.expectedLsn start := by
  have startLsn := atPoint.startLsn
  rw [expectedLsn, atPoint.lastLsn]
  by_cases nothing : recordsOf accepted = []
  · rw [if_pos nothing, if_neg (lt_irrefl 0), recordsOf_append, nothing, append_nil]
    exact startLsn
  · have positive : 0 < (recordsOf (retired ++ accepted)).length := by
      rw [recordsOf_append, length_append]
      exact Nat.add_pos_right _ (length_pos_of_ne_nil nothing)
    rw [if_neg nothing, if_pos positive, next64, Nat.mod_eq_of_lt fits]
    exact Nat.lt_succ_self _

/-- The scan goes on at the start of the ring, where the next group is if there is one. -/
theorem wrap
    (positive : 0 < state.ringOffset) (wrapped : ∀ group rest, after = group :: rest →
      group.position = toLex (state.expectedLap + 1, 0)) :
    AtPoint config cursor start retired accepted after
      { state with ringOffset := 0, expectedLap := next32 state.expectedLap } := by
  have lapEq : next32 state.expectedLap = state.expectedLap + 1 :=
    Nat.mod_eq_of_lt (atPoint.lapFits positive)
  have forward : toLex (state.expectedLap, state.ringOffset) ≤
      toLex (next32 state.expectedLap, 0) := by
    rw [lapEq, Prod.Lex.toLex_le_toLex]
    omega
  exact { atPoint with
    point :=
      { head := atPoint.point.head.trans forward
        behind := fun group mem => (atPoint.point.behind group mem).trans forward
        aligned := rfl
        next := fun group rest split => by
          rw [wrapped group rest split]
          exact Or.inl (congrArg (fun lap => toLex (lap, 0)) lapEq.symm) }
    lapFits := fun again => absurd again (lt_irrefl 0) }

theorem wrapAtEnd
    (inside : ∀ group rest, after = group :: rest →
      group.offset + group.size ≤ config.capacityBytes) :
    AtPoint config cursor start retired accepted after (state.wrapAtEnd config) := by
  rw [ScanState.wrapAtEnd]
  split
  case isFalse => exact atPoint
  case isTrue atEnd =>
    have holdsPage := config.capacityHoldsPage
    simp only [walAlignment] at holdsPage
    refine atPoint.wrap (by omega) fun group rest split => ?_
    rcases atPoint.point.next group rest split with direct | ⟨wrapped, -⟩
    · have fits := inside group rest split
      have size := group.walAlignment_le_size
      rw [Group.position, toLex_inj, Prod.mk.injEq] at direct
      simp only [walAlignment] at size
      omega
    · exact wrapped

end

end AtPoint

/-- The scan stops with every synced group accepted, and reports no damage. -/
structure Recovers (system : WalSystem) (synced retired : List Group)
    (final : ScanState) : Prop where
  status : final.result.status ≠ .damagedAcknowledged ∧ final.result.status ≠ .corrupt
  records : ∃ accepted after, system.placed = retired ++ accepted ++ after ∧
      synced.length ≤ (retired ++ accepted).length ∧
      final.result.records = (recordsOf accepted).map WalRecord.scanned

section Scan

variable {config : WalConfig} {sums : Checksums} {disk image : DeviceImage} {system : WalSystem}
  {synced flying retired accepted after rest : List Group} {group : Group} {start : ScanStart}
  {state : ScanState}

/-- The scan goes on to a state that stops with every synced group accepted. -/
def EndsWell (config : WalConfig) (sums : Checksums) (image : DeviceImage) (start : ScanStart)
    (system : WalSystem) (synced retired : List Group)
    (state : ScanState) : Prop :=
  ∃ last final, ScanState.Passes config sums image.ring start state last ∧
    last.step config sums image.ring start = .stop final ∧
    Recovers system synced retired final

theorem EndsWell.of_stop
    {final : ScanState} (stopped : state.step config sums image.ring start = .stop final)
    (recovers : Recovers system synced retired final) :
    EndsWell config sums image start system synced retired state :=
  ⟨state, final, .refl, stopped, recovers⟩

theorem EndsWell.of_goOn
    {next : ScanState} (went : state.step config sums image.ring start = .goOn next)
    (ends : EndsWell config sums image start system synced retired next) :
    EndsWell config sums image start system synced retired state := by
  obtain ⟨last, final, passes, stopped, recovers⟩ := ends
  exact ⟨last, final, .head went passes, stopped, recovers⟩

theorem readPages_ring (image : DeviceImage) (first count : Nat) :
    ∃ bytes, readPages image.ring first count = some bytes := by
  induction count generalizing first with
  | zero => exact ⟨[], rfl⟩
  | succ count ih =>
    obtain ⟨bytes, rest⟩ := ih (first + 1)
    exact ⟨(image (.ring first)).val ++ bytes, by rw [readPages, rest]; rfl⟩

/-- A payload of no bytes is one of no records. -/
theorem records_eq_nil (empty : payloadBytes group.records = 0) : group.records = [] := by
  cases records : group.records with
  | nil => rfl
  | cons record others =>
    have positive := record.encodedSize_pos
    rw [records] at empty
    have size : payloadBytes (record :: others) = record.encodedSize + payloadBytes others := rfl
    omega

/-- The payload that is read of a group that is whole is the one that was written. -/
theorem payload_of_pages {bytes : List UInt8}
    (whole : ∀ index < group.pages, image (.ring (group.offset / walAlignment + index)) =
          pageAt (group.bytes sums) index)
    (read : readPages image.ring (group.offset / walAlignment) group.pages = some bytes) :
    (bytes.drop groupHeaderBytes).take (payloadBytes group.records) = group.payload sums := by
  have onRing : ∀ index < group.pages, image.ring (group.offset / walAlignment + index) =
        some (pageAt (group.bytes sums) index) :=
    fun index lt => congrArg some (whole index lt)
  have pages := readPages_pageAt (group.length_bytes_le sums) onRing
  obtain rfl := Option.some.inj (read.symm.trans pages)
  rw [Group.bytes, append_assoc, drop_left' group.header.length_bytes,
    take_left' (group.length_payload sums)]

namespace CrashOf

variable (crashed : CrashOf config sums disk system synced flying image)

include crashed

/-- The next group has the number that the scan expects. -/
theorem follows_next (split : system.placed = retired ++ accepted ++ group :: rest) :
    Follows config sums (retired ++ accepted) group :=
  crashed.history.grown _ _ _ split

section Point

variable (atPoint : AtPoint config system.wal.cursor start retired accepted after state)
  (split : system.placed = retired ++ accepted ++ after)

include atPoint split

/-- What the probe finds is the next group. -/
theorem next_of_probe (probe : state.wrapProbe sums image.ring = true) : 0 < state.ringOffset ∧
      ∃ group rest, after = group :: rest ∧ group.position = toLex (state.expectedLap + 1, 0) ∧
        image (.ring 0) = pageAt (group.bytes sums) 0 := by
  have page : image.ring 0 = some (image (.ring 0)) := rfl
  simp only [wrapProbe, page, Bool.and_eq_true, decide_eq_true_eq] at probe
  obtain ⟨positive, ⟨⟨⟨magic, groupNum⟩, lap⟩, -⟩, -⟩ := probe
  refine ⟨positive, ?_⟩
  rcases crashed.ring_page 0 with noMagic | ⟨group, mem, here, pageEq⟩
  · rw [noMagic] at magic
    contradiction
  · obtain ⟨-, header, -⟩ := crashed.headerPage mem
    rw [pageEq, header] at groupNum lap
    obtain ⟨first, last, around⟩ := append_of_mem mem
    have follows := crashed.history.grown first group last around
    have sameLength : first.length = (retired ++ accepted).length := by
      have number := follows.groupNum
      have expected := atPoint.groupNum
      omega
    obtain ⟨-, rfl⟩ := append_inj (around.symm.trans split) sameLength
    have aligned := follows.aligned
    refine ⟨group, last, rfl, ?_, pageEq⟩
    rw [Group.position, lap, next32, Nat.mod_eq_of_lt (atPoint.lapFits positive)]
    have zero : group.offset = 0 := by
      simp only [walAlignment] at aligned here
      omega
    rw [zero]

/-- Nothing on the image seals a group that is not synced. -/
theorem lookAhead_finds_nothing (passed : synced.length ≤ (retired ++ accepted).length) :
    (state.lookAhead config sums image.ring start).isSome = false := by
  rw [Bool.eq_false_iff, ne_eq, lookAhead_isSome_iff]
  rintro ⟨index, page, -, -, read, seals⟩
  obtain rfl : image (.ring index) = page := Option.some.inj read
  simp only [sealsExpected, Bool.and_eq_true, decide_eq_true_eq] at seals
  obtain ⟨⟨⟨⟨⟨⟨⟨magic, -⟩, -⟩, -⟩, -⟩, -⟩, -⟩, sealed⟩ := seals
  rcases crashed.ring_page index with noMagic | ⟨group, mem, -, pageEq⟩
  · rw [noMagic] at magic
    contradiction
  · obtain ⟨-, header, -⟩ := crashed.headerPage mem
    rw [pageEq, header] at sealed
    have highest := (crashed.history.sealed group mem).trans_eq crashed.progress.highestSynced
    have syncedFirst : synced <+: system.placed := by
      rw [crashed.progress.placed, append_assoc]
      exact List.prefix_append _ _
    have passedFirst : retired ++ accepted <+: system.placed := by
      rw [split]
      exact List.prefix_append _ _
    obtain ⟨more, passedEq⟩ := List.prefix_of_prefix_length_le syncedFirst passedFirst passed
    have counted := recordsOf_length_le synced more
    rw [passedEq] at counted
    have total : (recordsOf (retired ++ accepted)).length ≤ system.wal.nextLsn := by
      have first := recordsOf_length_le (retired ++ accepted) after
      have placedLe := crashed.history.placedFirst.length_le
      rw [← split] at first
      rw [crashed.history.counted]
      omega
    have lsns := crashed.ordinary.lsns
    have expected := atPoint.lt_expectedLsn (by omega)
    omega

/-- The page where the scan is: an older one, or the header page of the next group. -/
theorem page_at_point : state.isOld (image (.ring (state.ringOffset / walAlignment))) = true ∨
      ∃ group rest, after = group :: rest ∧
        group.position = toLex (state.expectedLap, state.ringOffset) ∧
        image (.ring (state.ringOffset / walAlignment)) = pageAt (group.bytes sums) 0 := by
  rcases crashed.ring_page (state.ringOffset / walAlignment) with
    noMagic | ⟨group, mem, here, pageEq⟩
  · left
    simp [isOld, noMagic]
  · obtain ⟨-, header, -⟩ := crashed.headerPage mem
    rcases crashed.group_at_point atPoint.point split mem here with
      older | ⟨rest, next, direct⟩
    · left
      simp [isOld, pageEq, header, older]
    · exact Or.inr ⟨group, rest, next, direct, pageEq⟩

end Point

section Next

variable (atPoint : AtPoint config system.wal.cursor start retired accepted (group :: rest) state)
  (split : system.placed = retired ++ accepted ++ group :: rest)

include atPoint split

/-- The header page of the next group is the one that the scan expects. -/
theorem expected_next (lapEq : group.header.lap = state.expectedLap) :
    state.isOld (pageAt (group.bytes sums) 0) = false ∧
      state.validHeader config sums (pageAt (group.bytes sums) 0) = true := by
  obtain ⟨magic, header, checked⟩ := crashed.headerPage (by simp [split] : group ∈ _)
  have follows := crashed.follows_next split
  have groupNum := follows.groupNum.trans atPoint.groupNum.symm
  have chain := follows.chain.trans atPoint.chain.symm
  constructor
  · simp [isOld, magic, header, lapEq, groupNum]
  · simp [validHeader, header, checked, follows.version, follows.storeId, lapEq, groupNum, chain]

/-- The probe finds the next group where it has wrapped to. -/
theorem probe_next (wrapped : group.position = toLex (state.expectedLap + 1, 0))
    (positive : 0 < state.ringOffset) (read : image (.ring 0) = pageAt (group.bytes sums) 0) :
    state.wrapProbe sums image.ring = true := by
  obtain ⟨magic, header, checked⟩ := crashed.headerPage (by simp [split] : group ∈ _)
  have follows := crashed.follows_next split
  have groupNum := follows.groupNum.trans atPoint.groupNum.symm
  have chain := follows.chain.trans atPoint.chain.symm
  have lap : group.header.lap = next32 state.expectedLap := by
    rw [next32, Nat.mod_eq_of_lt (atPoint.lapFits positive)]
    exact (Prod.mk.inj (toLex_inj.mp wrapped)).1
  have page : image.ring 0 = some (pageAt (group.bytes sums) 0) := congrArg some read
  simp [wrapProbe, page, positive, magic, header, checked, groupNum, lap, chain]

section

variable (direct : group.position = toLex (state.expectedLap, state.ringOffset))

include direct

/-- The point after the next group. -/
theorem point_after :
    ScanPoint config system.wal.cursor state.expectedLap (state.ringOffset + group.size)
      (retired ++ (accepted ++ [group])) rest := by
  obtain ⟨lapEq, offsetEq⟩ := Prod.mk.inj (toLex_inj.mp direct)
  have position : group.ringEnd.position =
      toLex (state.expectedLap, state.ringOffset + group.size) := by
    rw [← lapEq, ← offsetEq]
    rfl
  have forward : toLex (state.expectedLap, state.ringOffset) ≤
      toLex (state.expectedLap, state.ringOffset + group.size) := by
    rw [← position, ← direct]
    exact group.position_lt_ringEnd.le
  rw [← append_assoc]
  exact {
    head := atPoint.point.head.trans forward
    behind := by
      intro other mem
      rcases mem_append.mp mem with earlier | here
      · exact (atPoint.point.behind other earlier).trans forward
      · rw [mem_singleton.mp here, position]
    aligned := by
      have offset := atPoint.point.aligned
      have size := group.size_aligned
      simp only [walAlignment] at *
      omega
    next := by
      rintro next later rfl
      have follows := crashed.history.grown (retired ++ accepted ++ [group]) next later
        (by rw [split]; simp)
      have placed := follows.position
      rw [ringEndOf_concat, Group.ringEnd, lapEq, offsetEq] at placed
      rw [Group.position]
      split at placed
      case isTrue beyond => exact Or.inr ⟨by rw [placed.1, placed.2], beyond⟩
      case isFalse => exact Or.inl (by rw [placed.1, placed.2]) }

omit direct in
/-- The last LSN after the next group. -/
theorem lastLsn_after :
    (state.accept group.header (group.records.map WalRecord.scanned)).result.lastValidLsn =
      if recordsOf (accepted ++ [group]) = [] then 0
      else (recordsOf (retired ++ (accepted ++ [group]))).length := by
  have follows := crashed.follows_next split
  simp only [accept, follows.recordCount]
  by_cases sealOnly : group.records = []
  · simp [sealOnly, atPoint.lastLsn]
  · have positive : 0 < group.records.length := length_pos_of_ne_nil sealOnly
    have nonempty : recordsOf (accepted ++ [group]) ≠ [] := by
      simp [recordsOf_append, sealOnly]
    have total : (recordsOf (retired ++ (accepted ++ [group]))).length =
        (recordsOf (retired ++ accepted)).length + group.records.length := by
      rw [← append_assoc, recordsOf_append (retired ++ accepted), recordsOf_singleton,
        length_append]
    have bounded : (recordsOf (retired ++ (accepted ++ [group]))).length ≤ system.wal.nextLsn := by
      have first := recordsOf_length_le (retired ++ (accepted ++ [group])) rest
      have placedLe := crashed.history.placedFirst.length_le
      rw [split] at placedLe
      rw [crashed.history.counted]
      simp only [append_assoc, singleton_append] at first placedLe
      omega
    have lsns := crashed.ordinary.lsns
    rw [if_pos positive, if_pos positive, if_neg nonempty, follows.firstLsn sealOnly, total]
    omega

/-- The state after the next group is accepted. -/
theorem accept_next : AtPoint config system.wal.cursor start retired (accepted ++ [group]) rest
      (state.accept group.header (group.records.map WalRecord.scanned)) := by
  have follows := crashed.follows_next split
  have mem : group ∈ system.placed := by simp [split]
  obtain ⟨lapEq, -⟩ := Prod.mk.inj (toLex_inj.mp direct)
  have groupBytes : groupBytesOf group.header.payloadLen = group.size := by
    rw [follows.payloadLen, Group.size]
  exact {
    point := by
      have point := crashed.point_after atPoint split direct
      rw [← groupBytes] at point
      exact point
    groupNum := by
      have fits := crashed.ordinary.groupNums group mem
      have number := follows.groupNum
      change next64 group.header.groupNum = _
      rw [next64, Nat.mod_eq_of_lt fits, number]
      simp [Nat.add_assoc]
    chain := by
      rw [← append_assoc, ringEndOf_concat]
      rfl
    records := by
      change state.result.records ++ _ = _
      rw [atPoint.records, recordsOf_append, map_append, recordsOf_singleton]
    lastLsn := crashed.lastLsn_after atPoint split
    startLsn := atPoint.startLsn
    lapFits := fun _ => lapEq ▸ crashed.ordinary.laps group mem }

/-- The turn at the next group: it is accepted, or its payload is torn. -/
theorem turn_next
    (page : image (.ring (state.ringOffset / walAlignment)) = pageAt (group.bytes sums) 0) :
    (∃ next, state.turn config sums image.ring start = .goOn next ∧
        AtPoint config system.wal.cursor start retired (accepted ++ [group]) rest next) ∨
      ∃ final, state.turn config sums image.ring start = .stop final ∧
        Recovers system synced retired final := by
  have follows := crashed.follows_next split
  have mem : group ∈ system.placed := by simp [split]
  obtain ⟨lapEq, offsetEq⟩ := Prod.mk.inj (toLex_inj.mp direct)
  obtain ⟨current, valid⟩ := crashed.expected_next atPoint split lapEq
  obtain ⟨-, header, -⟩ := crashed.headerPage mem
  have read : state.page image.ring = some (pageAt (group.bytes sums) 0) := congrArg some page
  obtain ⟨bytes, readGroup⟩ := readPages_ring image (state.ringOffset / walAlignment) group.pages
  have pagesEq : groupBytesOf (payloadBytes group.records) / walAlignment = group.pages := rfl
  rw [turn_of_valid read current valid, atValidHeader, header,
    follows.payloadLen, pagesEq, readGroup]
  dsimp only
  rw [← offsetEq] at readGroup
  by_cases damaged : 0 < payloadBytes group.records ∧
        (sums.checksum64 ((bytes.drop groupHeaderBytes).take (payloadBytes group.records))).toNat ≠
          group.header.payloadChecksum
  · right
    rw [if_pos damaged]
    obtain ⟨positive, differs⟩ := damaged
    rw [follows.payloadChecksum, if_pos positive] at differs
    have passed : synced.length ≤ (retired ++ accepted).length := by
      by_contra notPassed
      rw [not_le] at notPassed
      refine differs (congrArg (fun bytes => (sums.checksum64 bytes).toNat) ?_)
      exact payload_of_pages (fun index lt => crashed.intact atPoint.point split notPassed lt)
        readGroup
    refine ⟨_, rfl, ?_, accepted, group :: rest, split, passed, ?_⟩
    · rw [classify_status, crashed.lookAhead_finds_nothing atPoint split passed]
      exact ⟨by decide, by decide⟩
    · rw [← atPoint.records]
      exact classify_records _ _
  · left
    have payload : (bytes.drop groupHeaderBytes).take (payloadBytes group.records) =
        group.payload sums := by
      rcases Nat.eq_zero_or_pos (payloadBytes group.records) with empty | positive
      · rw [empty, take_zero, Group.payload, records_eq_nil empty]
        rfl
      · have same := not_not.mp fun differs => damaged ⟨positive, differs⟩
        rw [follows.payloadChecksum, if_pos positive] at same
        exact crashed.noCollision.groups group mem bytes readGroup (UInt64.toNat_inj.mp same)
    have parsed := WalRecord.parseRecords_encoded sums (crashed.ordinary.records group mem)
    rw [if_neg damaged, payload, follows.recordCount, Group.payload, parsed]
    exact ⟨_, rfl, crashed.accept_next atPoint split direct⟩

end

end Next

/-- The turn at an older page: on to the next group where it has wrapped to, or the end. -/
theorem turn_old (atPoint : AtPoint config system.wal.cursor start retired accepted after state)
    (split : system.placed = retired ++ accepted ++ after)
    (old : state.isOld (image (.ring (state.ringOffset / walAlignment))) = true) :
    (state.wrapProbe sums image.ring = true ∧ state.turn config sums image.ring start =
          .goOn { state with ringOffset := 0, expectedLap := next32 state.expectedLap }) ∨
      ∃ final, state.turn config sums image.ring start = .stop final ∧
        Recovers system synced retired final := by
  have read : state.page image.ring = some (image (.ring (state.ringOffset / walAlignment))) := rfl
  rw [turn_of_old read old, atOldPage]
  cases probe : state.wrapProbe sums image.ring with
  | true => exact Or.inl ⟨rfl, if_pos rfl⟩
  | false =>
    refine Or.inr ⟨_, if_neg Bool.false_ne_true, ?_, accepted, after, split, ?_, atPoint.records⟩
    · dsimp only
      split_ifs <;> exact ⟨by decide, by decide⟩
    · by_contra notPassed
      rw [not_le] at notPassed
      cases after with
      | nil =>
        have lengths := congrArg List.length crashed.progress.placed
        rw [split] at lengths
        simp only [length_append, length_nil] at lengths notPassed
        omega
      | cons group rest =>
        have first := crashed.intact atPoint.point split notPassed
          (Nat.div_pos group.walAlignment_le_size (by decide))
        rw [Nat.add_zero] at first
        rcases atPoint.point.next group rest rfl with direct | ⟨wrapped, beyond⟩
        · obtain ⟨lapEq, offsetEq⟩ := Prod.mk.inj (toLex_inj.mp direct)
          rw [← offsetEq, first, (crashed.expected_next atPoint split lapEq).1] at old
          contradiction
        · obtain ⟨-, offsetEq⟩ := Prod.mk.inj (toLex_inj.mp wrapped)
          have inside := (crashed.follows_next split).inside
          rw [offsetEq] at first inside
          have found := crashed.probe_next atPoint split wrapped (by omega) first
          rw [found] at probe
          contradiction

/-- From the place of the next group, the scan accepts it and goes on, or it is torn. -/
theorem endsWell_of_next
    (atPoint : AtPoint config system.wal.cursor start retired accepted (group :: rest)
      (state.wrapAtEnd config)) (split : system.placed = retired ++ accepted ++ group :: rest)
    (direct : group.position =
      toLex ((state.wrapAtEnd config).expectedLap, (state.wrapAtEnd config).ringOffset))
    (page : image (.ring ((state.wrapAtEnd config).ringOffset / walAlignment)) =
      pageAt (group.bytes sums) 0)
    (later : ∀ next,
      AtPoint config system.wal.cursor start retired (accepted ++ [group]) rest next →
        EndsWell config sums image start system synced retired next) :
    EndsWell config sums image start system synced retired state := by
  rcases crashed.turn_next atPoint split direct page with
    ⟨next, went, atNext⟩ | ⟨final, stopped, recovers⟩
  · exact .of_goOn went (later next atNext)
  · exact .of_stop stopped recovers

/-- From every place it comes to, the scan ends well. -/
theorem endsWell (atPoint : AtPoint config system.wal.cursor start retired accepted after state)
    (split : system.placed = retired ++ accepted ++ after) :
    EndsWell config sums image start system synced retired state := by
  induction after generalizing accepted state with
  | nil =>
    have wrapped := atPoint.wrapAtEnd (by simp)
    rcases crashed.page_at_point wrapped split with old | ⟨_, _, next, -⟩
    · rcases crashed.turn_old wrapped split old with
        ⟨probe, -⟩ | ⟨final, stopped, recovers⟩
      · obtain ⟨-, _, _, next, -⟩ := crashed.next_of_probe wrapped split probe
        contradiction
      · exact .of_stop stopped recovers
    · contradiction
  | cons group rest ih =>
    have inside := (crashed.follows_next split).inside
    have later : ∀ next,
        AtPoint config system.wal.cursor start retired (accepted ++ [group]) rest next →
          EndsWell config sums image start system synced retired next :=
      fun next atNext => ih atNext (by rw [split]; simp)
    have wrapped := atPoint.wrapAtEnd fun other others eq => by
      obtain ⟨rfl, -⟩ := List.cons.inj eq
      exact inside
    rcases crashed.page_at_point wrapped split with old | ⟨next, others, nextEq, direct, page⟩
    · rcases crashed.turn_old wrapped split old with
        ⟨probe, went⟩ | ⟨final, stopped, recovers⟩
      · obtain ⟨positive, next, others, nextEq, position, page⟩ :=
          crashed.next_of_probe wrapped split probe
        obtain ⟨rfl, rfl⟩ := List.cons.inj nextEq
        have atStart := wrapped.wrap positive fun other others eq => by
          obtain ⟨rfl, -⟩ := List.cons.inj eq
          exact position
        have lapEq := Nat.mod_eq_of_lt (wrapped.lapFits positive)
        refine .of_goOn went (crashed.endsWell_of_next ?_ split ?_ ?_ later)
        all_goals rw [wrapAtEnd_of_start rfl]
        · exact atStart
        · rw [position]
          exact congrArg (fun lap => toLex (lap, 0)) lapEq.symm
        · rw [Nat.zero_div]
          exact page
      · exact .of_stop stopped recovers
    · obtain ⟨rfl, rfl⟩ := List.cons.inj nextEq
      exact crashed.endsWell_of_next wrapped split direct page later

end CrashOf

end Scan

end Orly
