import Orly.WalProgress

namespace Orly

/-!
# The heads that checkpoints name

In every run, the head that a checkpoint names is a place that recovery can start
from: a group or the place of the next one, with every older record retired.
-/

open GrownLists List

/-- Recovery may start at this head, with these groups behind it and those to scan. -/
structure HeadAt (head : HeadMark) (before after : List Group) : Prop where
  groupNum : head.groupNum = before.length + 1
  chain : head.chain = (ringEndOf before).chain
  lsn : (recordsOf before).length < head.lsn
  position : head.position = (ringEndOf before).position ∨
      ∃ group rest, after = group :: rest ∧ head.position = group.position

/-- The head splits the groups that are placed. -/
def HeadOf (placed : List Group) (head : HeadMark) : Prop :=
  ∃ before after, placed = before ++ after ∧ HeadAt head before after

theorem HeadOf.grow {placed : List Group} {head : HeadMark} (headOf : HeadOf placed head)
    (group : Group) :
    HeadOf (placed ++ [group]) head := by
  obtain ⟨before, after, rfl, headAt⟩ := headOf
  refine ⟨before, after ++ [group], append_assoc _ _ _, { headAt with position := ?_ }⟩
  rcases headAt.position with atEnd | ⟨first, rest, rfl, atFirst⟩
  · exact Or.inl atEnd
  · exact Or.inr ⟨first, rest ++ [group], rfl, atFirst⟩

/-- Of the groups that are placed, the log keeps these for recovery. -/
structure Retirement (system : WalSystem) (retired kept : List Group) : Prop where
  split : system.placed = retired ++ kept
  active : system.wal.activeGroups = kept.map Group.summary
  lsn : (recordsOf retired).length < system.wal.head.lsn
  bounded : system.wal.head.lsn ≤ system.wal.nextLsn + 1
  head : HeadOf system.placed system.wal.head

section Retire

variable {config : WalConfig} {sums : Checksums} {retired kept : List Group} {lsn : Nat}

/-- A group is retired once a checkpoint passes its last LSN. -/
def passed (lsn : Nat) (group : Group) : Bool :=
  group.lastLsn < lsn

/-- Every record of the groups that are retired is below the head. -/
theorem recordsOf_takeWhile_lt (grown : Grown (Follows config sums) (retired ++ kept))
    (below : (recordsOf retired).length < lsn) :
    (recordsOf (retired ++ kept.takeWhile (passed lsn))).length < lsn := by
  induction kept generalizing retired with
  | nil => simpa using below
  | cons group kept ih =>
    by_cases pass : passed lsn group = true
    · have regrouped : retired ++ group :: kept = (retired ++ [group]) ++ kept := by simp
      have here : (recordsOf (retired ++ [group])).length < lsn := by
        by_cases sealOnly : group.records = []
        · simpa [sealOnly] using below
        · rw [← (grown retired group kept rfl).lastLsn sealOnly]
          simpa [passed] using pass
      have rest := ih (regrouped ▸ grown) here
      rw [takeWhile_cons_of_pos pass, ← singleton_append, ← append_assoc]
      exact rest
    · rw [takeWhile_cons_of_neg pass, append_nil]
      exact below

end Retire

namespace Retirement

variable {config : WalConfig} {sums : Checksums} {disk : DeviceImage} {system next : WalSystem}
  {retired kept : List Group}

/-- The head that a checkpoint names splits the groups where it retires them. -/
theorem headAt_moveHead (history : LogHistory config sums system) (headLsn : Nat)
    (split : system.placed = retired ++ kept)
    (active : (system.wal.moveHead headLsn).activeGroups = kept.map Group.summary)
    (below : (recordsOf retired).length < (system.wal.moveHead headLsn).head.lsn) :
    HeadAt (system.wal.moveHead headLsn).head retired kept := by
  rcases system.wal.moveHead_cases headLsn with
    ⟨summary, summaries, keeps, headEq⟩ | ⟨retiresAll, headEq⟩
  · obtain ⟨group, rest, rfl, rfl, -⟩ := map_eq_cons_iff.mp (active.symm.trans keeps)
    have follows := history.grown retired group rest split
    rw [headEq] at below ⊢
    exact {
      groupNum := follows.groupNum
      chain := follows.chain
      lsn := below
      position := Or.inr ⟨group, rest, rfl, rfl⟩ }
  · obtain rfl : kept = [] := map_eq_nil_iff.mp (active.symm.trans retiresAll)
    obtain rfl : system.placed = retired := by simpa using split
    have writesAt := history.writesAt
    rw [headEq] at below ⊢
    exact {
      groupNum := congrArg (· + 1) writesAt.groupNum
      chain := writesAt.chain
      lsn := below
      position := by
        left
        rw [HeadMark.position, RingPoint.position, writesAt.lap, writesAt.offset] }

/-- A checkpoint retires what it passes, and names the rest. -/
theorem captures
    (retirement : Retirement system retired kept) (history : LogHistory config sums system)
    (headLsn : Nat) (checkpointer : CheckpointPhase) :
    ∃ retired' kept', Retirement
        { system with
          wal := { system.wal.moveHead headLsn with checkpointer := checkpointer } }
        retired' kept' := by
  have bounded := retirement.bounded
  obtain ⟨lsn, lsnEq⟩ :
      ∃ lsn, lsn = min (max system.wal.head.lsn headLsn) (system.wal.nextLsn + 1) := ⟨_, rfl⟩
  have forward : system.wal.head.lsn ≤ lsn := by omega
  have grown := history.grown
  rw [retirement.split] at grown
  have below := recordsOf_takeWhile_lt grown (lt_of_lt_of_le retirement.lsn forward)
  have split : system.placed =
      (retired ++ kept.takeWhile (passed lsn)) ++ kept.dropWhile (passed lsn) := by
    rw [append_assoc, takeWhile_append_dropWhile, retirement.split]
  have active : (system.wal.moveHead headLsn).activeGroups =
      (kept.dropWhile (passed lsn)).map Group.summary := by
    have dropped : (system.wal.moveHead headLsn).activeGroups =
        system.wal.activeGroups.dropWhile fun group => group.lastLsn < lsn := by
      rw [lsnEq]
      rfl
    rw [dropped, retirement.active, dropWhile_map]
    rfl
  have headLsnEq : (system.wal.moveHead headLsn).head.lsn = lsn := by
    rcases system.wal.moveHead_cases headLsn with ⟨_, _, -, headEq⟩ | ⟨-, headEq⟩ <;>
      rw [headEq, lsnEq]
  have belowHead := lt_of_lt_of_eq below headLsnEq.symm
  exact ⟨_, _, {
    split := split
    active := active
    lsn := belowHead
    bounded := headLsnEq.trans_le (lsnEq.trans_le (min_le_right _ _))
    head := ⟨_, _, split, headAt_moveHead history headLsn split active belowHead⟩ }⟩

/-- Every step keeps the groups that recovery needs. -/
theorem step (retirement : Retirement system retired kept) (history : LogHistory config sums system)
    (stepped : SystemStep config sums disk system next) :
    ∃ retired' kept', Retirement next retired' kept' := by
  cases stepped with
  | appends =>
    exact ⟨_, _, { retirement with
      bounded := retirement.bounded.trans (Nat.le_succ _) }⟩
  | places batch left =>
    exact ⟨retired, kept ++ [system.wal.nextGroup config sums batch], { retirement with
      split := by rw [retirement.split, append_assoc]
      active := by
        rw [map_append, ← retirement.active]
        rfl
      head := retirement.head.grow _ }⟩
  | syncEnds groups syncing =>
    rw [WalState.afterSync_eq]
    exact ⟨_, _, { retirement with }⟩
  | captures headLsn => exact retirement.captures history headLsn _
  | accounts | leaderMoves | leaderTakes | groupWritten | groupFails | syncBegins
  | syncerStops | checkpointTooLong | checkpointBegins | checkpointWritten
  | checkpointFails | checkpointLands => exact ⟨_, _, { retirement with }⟩

end Retirement

/-- The device of a new store: it holds no page of a log and no checkpoint. -/
structure FreshDisk (disk : DeviceImage) : Prop where
  ring : ∀ page, (disk (.ring page)).hasMagic = false
  slot0 : (disk (.slot0 0)).val.take 8 ≠ checkpointMagic
  slot1 : (disk (.slot1 0)).val.take 8 ≠ checkpointMagic

section Pages

variable {config : WalConfig} {sums : Checksums} {writes : List WalWrite} {page : Page}
  {index : Nat}

theorem mem_groupsOf {group : Group} : group ∈ groupsOf writes ↔ .group group ∈ writes := by
  rw [groupsOf, mem_filterMap]
  constructor
  · rintro ⟨write, mem, eq⟩
    cases write with
    | group written => rwa [Option.some.inj eq] at mem
    | checkpoint written => contradiction
  · intro mem
    exact ⟨_, mem, rfl⟩

theorem mem_checkpointsOf {checkpoint : Checkpoint} :
    checkpoint ∈ checkpointsOf writes ↔ .checkpoint checkpoint ∈ writes := by
  rw [checkpointsOf, mem_filterMap]
  constructor
  · rintro ⟨write, mem, eq⟩
    cases write with
    | group written => contradiction
    | checkpoint written => rwa [Option.some.inj eq] at mem
  · intro mem
    exact ⟨_, mem, rfl⟩

theorem slotAddress_ne_ring (checkpointNum slotPage ringPage : Nat) :
    slotAddress checkpointNum slotPage ≠ .ring ringPage := by
  rw [slotAddress]
  split <;> exact DeviceAddress.noConfusion

/-- A ring page that is written is one of a group. -/
theorem mem_pagesOf_ring : (.ring index, page) ∈ WalSystem.pagesOf config sums writes ↔
      ∃ group ∈ groupsOf writes, ∃ offset < group.pages,
        index = group.offset / walAlignment + offset ∧ page = pageAt (group.bytes sums) offset := by
  rw [WalSystem.pagesOf, mem_flatMap]
  constructor
  · rintro ⟨write, mem, inWrite⟩
    cases write with
    | group written =>
      obtain ⟨offset, lt, eq⟩ := mem_map.mp inWrite
      obtain ⟨address, pageEq⟩ := Prod.mk.inj eq
      exact ⟨written, mem_groupsOf.mpr mem, offset, mem_range.mp lt,
        (DeviceAddress.ring.inj address).symm, pageEq.symm⟩
    | checkpoint written =>
      obtain ⟨offset, -, eq⟩ := mem_map.mp inWrite
      exact absurd (Prod.mk.inj eq).1 (slotAddress_ne_ring _ _ _)
  · rintro ⟨group, mem, offset, lt, rfl, rfl⟩
    exact ⟨.group group, mem_groupsOf.mp mem, mem_map.mpr ⟨offset, mem_range.mpr lt, rfl⟩⟩

theorem slotAddress_inj {first second firstPage secondPage : Nat}
    (eq : slotAddress first firstPage = slotAddress second secondPage) :
    first % 2 = second % 2 ∧ firstPage = secondPage := by
  simp only [slotAddress] at eq
  split at eq <;> split at eq <;> cases eq
  all_goals
    refine ⟨?_, rfl⟩
    omega

/-- A slot page that is written is one of a checkpoint with that slot. -/
theorem mem_pagesOf_slot {checkpointNum : Nat} :
    (slotAddress checkpointNum index, page) ∈ WalSystem.pagesOf config sums writes ↔
      ∃ checkpoint ∈ checkpointsOf writes, checkpoint.checkpointNum % 2 = checkpointNum % 2 ∧
        index < checkpoint.pages ∧ page = pageAt (checkpoint.bytes config sums) index := by
  rw [WalSystem.pagesOf, mem_flatMap]
  constructor
  · rintro ⟨write, mem, inWrite⟩
    cases write with
    | group written =>
      obtain ⟨offset, -, eq⟩ := mem_map.mp inWrite
      exact absurd (Prod.mk.inj eq).1.symm (slotAddress_ne_ring _ _ _)
    | checkpoint written =>
      obtain ⟨offset, lt, eq⟩ := mem_map.mp inWrite
      obtain ⟨address, pageEq⟩ := Prod.mk.inj eq
      obtain ⟨parity, rfl⟩ := slotAddress_inj address
      exact ⟨written, mem_checkpointsOf.mpr mem, parity, mem_range.mp lt, pageEq.symm⟩
  · rintro ⟨checkpoint, mem, parity, lt, rfl⟩
    refine ⟨.checkpoint checkpoint, mem_checkpointsOf.mp mem,
      mem_map.mpr ⟨index, mem_range.mpr lt, ?_⟩⟩
    simp only [slotAddress, parity]

/-- Before the first checkpoint is written there is none on the device. -/
theorem newestNum_eq_none {disk : DeviceImage} (fresh : FreshDisk disk) {system : WalSystem}
    (noneWritten : checkpointsOf system.writes = []) :
    system.newestNum config sums disk = none := by
  have slot : ∀ checkpointNum, system.content config sums disk (slotAddress checkpointNum 0) =
        disk (slotAddress checkpointNum 0) := by
    intro checkpointNum
    rcases CrashDisk.writeAll_cases disk (WalSystem.pagesOf config sums system.writes)
      (slotAddress checkpointNum 0) with ⟨-, same⟩ | written
    · exact same
    · obtain ⟨checkpoint, mem, -⟩ := mem_pagesOf_slot.mp written
      rw [noneWritten] at mem
      contradiction
  have first : readSlot config sums (system.content config sums disk).slot0 = none :=
    Checkpoint.readSlot_of_not_magic (congrArg some (slot 1)) fresh.slot0
  have second : readSlot config sums (system.content config sums disk).slot1 = none :=
    Checkpoint.readSlot_of_not_magic (congrArg some (slot 0)) fresh.slot1
  simp [WalSystem.newestNum, newestCheckpoint, readNewestCheckpoint, first, second]

end Pages

/-- The head of the newest of some checkpoints, from the start of a new store. -/
def headPositionOf (checkpoints : List Checkpoint) : Nat ×ₗ Nat :=
  (checkpoints.getLast?.map fun checkpoint => checkpoint.head.position).getD (toLex (1, 0))

/-- Where the checkpoint that has not landed is; `marked` are those its sync will cover. -/
def PendingIn (failed : Bool) (writing : Option Checkpoint)
    (marked landed pending : List Checkpoint) : CheckpointPhase → Prop
  | .idle => failed = false → pending = []
  | .captured .. => pending = []
  | .writing checkpoint => pending = [checkpoint] ∧ writing = some checkpoint
  | .syncing checkpoint => pending = [checkpoint] ∧ landed ++ [checkpoint] <+: marked

/-- Failing, or writing on, does not move the checkpoint. -/
theorem PendingIn.mono {failed failed' : Bool} {writing : Option Checkpoint}
    {marked marked' landed pending : List Checkpoint} {phase : CheckpointPhase}
    (pendingIn : PendingIn failed writing marked landed pending phase)
    (stillFailed : failed = true → failed' = true) (markedMore : marked <+: marked') :
    PendingIn failed' writing marked' landed pending phase := by
  cases phase with
  | idle =>
    intro running
    apply pendingIn
    cases failed with
    | false => rfl
    | true =>
      rw [stillFailed rfl] at running
      exact running
  | captured => exact pendingIn
  | writing checkpoint => exact pendingIn
  | syncing checkpoint => exact ⟨pendingIn.1, pendingIn.2.trans markedMore⟩

/-- Of the checkpoints that were begun, these have landed and those have not. -/
structure CheckpointProgress (config : WalConfig) (system : WalSystem)
    (landed pending : List Checkpoint) : Prop where
  begun : checkpointsOf system.writes ++ system.writingCheckpoint.toList = landed ++ pending
  numbered : Grown (fun before checkpoint => checkpoint.checkpointNum = before.length + 1)
      (landed ++ pending)
  lastNum : (system.wal.lastCheckpointNum = none ∧ landed ++ pending = []) ∨
      system.wal.lastCheckpointNum = some landed.length
  pendingIn : PendingIn system.wal.failed system.writingCheckpoint
      (checkpointsOf (system.writes.take system.checkpointMark)) landed pending
      system.wal.checkpointer
  onePending : pending.length ≤ 1
  covered : landed <+: checkpointsOf (system.writes.take system.covered)
  fits : ∀ checkpoint ∈ landed ++ pending, checkpoint.FitsSlot config
  heads : ∀ checkpoint ∈ landed ++ pending, HeadOf system.placed checkpoint.head
  checkpointed : system.wal.cursor.checkpointedHead = headPositionOf landed
  pendingHead : ∀ checkpoint ∈ pending,
      system.wal.cursor.checkpointedHead ≤ checkpoint.head.position

namespace CheckpointProgress

variable {config : WalConfig} {sums : Checksums} {disk : DeviceImage} {system next : WalSystem}
  {landed pending : List Checkpoint}

section

variable (progress : CheckpointProgress config system landed pending)

include progress

theorem landed_prefix : landed <+: checkpointsOf system.writes :=
  progress.covered.trans ((List.take_prefix _ _).filterMap _)

omit progress in
/-- With no checkpoint pending, none is being written. -/
theorem writingCheckpoint_eq_none (progress : CheckpointProgress config system landed []) :
    system.writingCheckpoint = none := by
  have begun := congrArg List.length progress.begun
  have le := progress.landed_prefix.length_le
  cases writing : system.writingCheckpoint with
  | none => rfl
  | some checkpoint =>
    simp only [writing, Option.toList_some, length_append, length_singleton, length_nil] at begun
    omega

/-- The number the next checkpoint goes on from. -/
theorem lastNum_getD (sums : Checksums) (fresh : FreshDisk disk) :
    system.wal.lastCheckpointNum.getD ((system.newestNum config sums disk).getD 0) =
      landed.length := by
  rcases progress.lastNum with ⟨noneYet, nothing⟩ | last
  · have begun := progress.begun
    rw [nothing] at begun
    rw [noneYet, newestNum_eq_none fresh (append_eq_nil_iff.mp begun).1,
      (append_eq_nil_iff.mp nothing).1]
    rfl
  · rw [last]
    rfl

omit progress in
/-- The checkpoint that begins is the only one pending. -/
theorem begins (progress : CheckpointProgress config system landed []) (fresh : FreshDisk disk)
    (ordered : system.wal.InRingOrder config) (head : HeadOf system.placed system.wal.head)
    {checkpoint : Checkpoint} {durableLsn globalFlushedSeq : Nat} {payload : List UInt8}
    (checkpointEq : checkpoint =
        system.wal.nextCheckpoint (system.newestNum config sums disk) durableLsn
          globalFlushedSeq payload) (fits : checkpoint.FitsSlot config) :
    CheckpointProgress config
      { system with
        wal :=
          { system.wal with
            lastCheckpointNum :=
              some (system.wal.lastCheckpointNum.getD ((system.newestNum config sums disk).getD 0))
            checkpointer := .writing checkpoint }
        writingCheckpoint := some checkpoint }
      landed [checkpoint] := by
  have last := progress.lastNum_getD sums fresh
  have begun := progress.begun
  rw [progress.writingCheckpoint_eq_none, Option.toList_none, append_nil, append_nil] at begun
  exact { progress with
    begun := by
      rw [begun]
      rfl
    numbered := by
      have numbered := progress.numbered
      rw [append_nil] at numbered
      refine numbered.concat ?_
      rw [checkpointEq, WalState.nextCheckpoint, last]
    lastNum := Or.inr (congrArg some last)
    pendingIn := ⟨rfl, rfl⟩
    onePending := le_refl 1
    fits := by
      have earlier := progress.fits
      rw [append_nil] at earlier
      exact forall_mem_append.mpr ⟨earlier, by simpa using fits⟩
    heads := by
      have earlier := progress.heads
      rw [append_nil] at earlier
      refine forall_mem_append.mpr ⟨earlier, ?_⟩
      rw [forall_mem_singleton, checkpointEq]
      exact head
    pendingHead := by
      rw [forall_mem_singleton, checkpointEq]
      exact ordered.order.checkpointed }

/-- A checkpoint whose sync ends has landed. -/
theorem lands {checkpoint : Checkpoint} (syncing : system.wal.checkpointer = .syncing checkpoint) :
    CheckpointProgress config
      { system with
        wal :=
          { system.wal with
            lastCheckpointNum := some checkpoint.checkpointNum
            cursor :=
              system.wal.cursor.landCheckpoint checkpoint.head.lap
                checkpoint.head.ringOffset
            checkpointer := .idle }
        covered := max system.covered system.checkpointMark }
      (landed ++ pending) [] := by
  have pendingIn := progress.pendingIn
  rw [syncing] at pendingIn
  obtain ⟨rfl, marked⟩ := pendingIn
  have later := checkpointsOf_take_mono system.writes []
    (le_max_right system.covered system.checkpointMark)
  rw [append_nil] at later
  exact { progress with
    begun := by
      rw [append_nil]
      exact progress.begun
    numbered := by
      rw [append_nil]
      exact progress.numbered
    lastNum := by
      right
      rw [progress.numbered.last, length_append]
      rfl
    pendingIn := fun _ => rfl
    onePending := Nat.zero_le 1
    covered := marked.trans later
    fits := by
      rw [append_nil]
      exact progress.fits
    heads := by
      rw [append_nil]
      exact progress.heads
    checkpointed := by
      rw [headPositionOf, getLast?_concat]
      rfl
    pendingHead := fun _ mem => absurd mem not_mem_nil }

/-- A group that is placed leaves the heads where they are. -/
theorem places (batch left : List WalRecord) : CheckpointProgress config
      { system with
        wal := { system.wal with pendingRecords := left }.placeGroup config sums batch
        placed := system.placed ++ [system.wal.nextGroup config sums batch]
        writingGroup := some (system.wal.nextGroup config sums batch) }
      landed pending :=
  have sameHead :=
    RingCursor.checkpointedHead_place config system.wal.cursor
      (system.wal.nextGroup config sums batch).size
  { progress with
    heads := fun checkpoint mem => (progress.heads checkpoint mem).grow _
    checkpointed := sameHead.trans progress.checkpointed
    pendingHead := fun checkpoint mem =>
      sameHead.trans_le (progress.pendingHead checkpoint mem) }

/-- Every step keeps the checkpoint that bounds the ring covered. -/
theorem step (fresh : FreshDisk disk)
    (ordered : system.wal.InRingOrder config) (head : HeadOf system.placed system.wal.head)
    (stepped : SystemStep config sums disk system next) :
    ∃ landed' pending', CheckpointProgress config next landed' pending' := by
  cases stepped with
  | accounts | appends | leaderTakes | syncBegins =>
    exact ⟨landed, pending, { progress with }⟩
  | leaderMoves leader failed notWriting stillFailed idle =>
    exact ⟨landed, pending, { progress with
      pendingIn := progress.pendingIn.mono stillFailed (List.prefix_refl _) }⟩
  | places batch left => exact ⟨landed, pending, progress.places batch left⟩
  | groupWritten group leader writing notWriting nothingTaken =>
    exact ⟨landed, pending, { progress with
      begun := by simpa using progress.begun
      covered := progress.covered.trans (checkpointsOf_take_mono _ _ le_rfl)
      pendingIn := progress.pendingIn.mono id (checkpointsOf_take_mono _ _ le_rfl) }⟩
  | groupFails group writing =>
    exact ⟨landed, pending, { progress with
      pendingIn := progress.pendingIn.mono (fun _ => rfl) (List.prefix_refl _) }⟩
  | syncerStops failed syncMark stillFailed =>
    exact ⟨landed, pending, { progress with
      pendingIn := progress.pendingIn.mono stillFailed (List.prefix_refl _) }⟩
  | syncEnds groups syncing =>
    have later := checkpointsOf_take_mono system.writes []
      (le_max_left system.covered system.syncMark)
    rw [append_nil] at later
    rw [WalState.afterSync_eq]
    exact ⟨landed, pending, { progress with covered := progress.covered.trans later }⟩
  | captures headLsn globalFlushedSeq payload idle running =>
    have pendingIn := progress.pendingIn
    rw [idle] at pendingIn
    exact ⟨landed, pending, { progress with pendingIn := pendingIn running }⟩
  | checkpointTooLong durableLsn globalFlushedSeq payload captured =>
    have pendingIn := progress.pendingIn
    rw [captured] at pendingIn
    exact ⟨landed, pending, { progress with
      lastNum := Or.inr (congrArg some (progress.lastNum_getD sums fresh))
      pendingIn := fun _ => pendingIn }⟩
  | checkpointBegins checkpoint durableLsn globalFlushedSeq payload captured checkpointEq fits =>
    have pendingIn := progress.pendingIn
    rw [captured] at pendingIn
    obtain rfl : pending = [] := pendingIn
    exact ⟨landed, [checkpoint], progress.begins fresh ordered head checkpointEq fits⟩
  | checkpointWritten checkpoint writing =>
    have pendingIn := progress.pendingIn
    rw [writing] at pendingIn
    obtain ⟨rfl, current⟩ := pendingIn
    have begun := progress.begun
    rw [current, Option.toList_some] at begun
    refine ⟨landed, [checkpoint], { progress with
      begun := by
        rw [checkpointsOf_append, checkpointsOf_map_checkpoint, current]
        simpa using begun
      covered := progress.covered.trans (checkpointsOf_take_mono _ _ le_rfl)
      pendingIn := ⟨rfl, ?_⟩ }⟩
    rw [current, Option.toList_some, map_singleton, take_of_length_le (by simp),
      checkpointsOf_append, (append_inj' begun rfl).1]
    exact List.prefix_refl _
  | checkpointFails =>
    exact ⟨landed, pending, { progress with
      pendingIn := fun running => absurd running (by simp) }⟩
  | checkpointLands checkpoint syncing => exact ⟨_, _, progress.lands syncing⟩

end

end CheckpointProgress

/-- What holds in every state of the log on its device. -/
structure SystemInvariant (config : WalConfig) (sums : Checksums) (system : WalSystem) : Prop where
  ordered : system.wal.InRingOrder config
  history : LogHistory config sums system
  syncs : ∃ synced flying, SyncProgress system synced flying
  retires : ∃ retired kept, Retirement system retired kept
  checkpoints : ∃ landed pending, CheckpointProgress config system landed pending

theorem WalSystem.wal_note (config : WalConfig) (system : WalSystem) (after : WalState)
    (event : WalEvent) :
    (system.note config after event).wal = after := by
  unfold note noteTurn noteCheckpoint
  split <;> try rfl
  all_goals split <;> rfl

namespace SystemInvariant

variable {config : WalConfig} {sums : Checksums} {disk : DeviceImage} {system next : WalSystem}

theorem start (config : WalConfig) (sums : Checksums) :
    SystemInvariant config sums (.start config) where
  ordered := ⟨ringOrder_newStore config, trivial⟩
  history :=
    { ordered := grown_nil
      counted := rfl
      grown := grown_nil
      writesAt := ⟨rfl, rfl, rfl, rfl⟩
      sealed := fun _ mem => absurd mem not_mem_nil
      placedFirst := List.prefix_refl _
      queued := fun _ => rfl }
  syncs :=
    ⟨[], [],
      { placed := rfl
        written := rfl
        inFlight := rfl
        writing := fun _ writing => LeaderPhase.noConfusion writing
        notWriting := fun _ _ => rfl
        highestSynced := rfl
        highestSealed := le_refl _
        durable := le_refl _
        covered := List.nil_prefix
        syncing := fun _ syncing => SyncerPhase.noConfusion syncing }⟩
  retires :=
    ⟨[], [],
      { split := rfl
        active := rfl
        lsn := Nat.zero_lt_one
        bounded := le_refl _
        head := ⟨[], [], rfl, ⟨rfl, rfl, Nat.zero_lt_one, Or.inl rfl⟩⟩ }⟩
  checkpoints :=
    ⟨[], [],
      { begun := rfl
        numbered := grown_nil
        lastNum := Or.inl ⟨rfl, rfl⟩
        pendingIn := fun _ => rfl
        onePending := Nat.zero_le 1
        covered := List.nil_prefix
        fits := fun _ mem => absurd mem not_mem_nil
        heads := fun _ mem => absurd mem not_mem_nil
        checkpointed := rfl
        pendingHead := fun _ mem => absurd mem not_mem_nil }⟩

theorem step (syncing : config.noSync = false) (noEarlyAck : config.earlyAck = false)
    (fresh : FreshDisk disk) (invariant : SystemInvariant config sums system) {event : WalEvent}
    (stepped : systemStep config sums disk system event = some next) :
    SystemInvariant config sums next := by
  have change := systemStep_some syncing noEarlyAck stepped
  obtain ⟨synced, flying, progress⟩ := invariant.syncs
  obtain ⟨retired, kept, retirement⟩ := invariant.retires
  obtain ⟨landed, pending, checkpoints⟩ := invariant.checkpoints
  have ordered : next.wal.InRingOrder config := by
    rw [systemStep] at stepped
    split_ifs at stepped
    obtain ⟨after, walStepped, rfl⟩ := Option.map_eq_some_iff.mp stepped
    rw [WalSystem.wal_note]
    exact invariant.ordered.step walStepped
  obtain ⟨more, flying', progress'⟩ := progress.step invariant.history change
  have syncedMore : system.wal.highestSyncedLsn ≤ next.wal.highestSyncedLsn := by
    rw [progress.highestSynced, progress'.highestSynced]
    exact recordsOf_length_le synced more
  exact {
    ordered := ordered
    history := invariant.history.step invariant.ordered syncedMore change
    syncs := ⟨_, _, progress'⟩
    retires := retirement.step invariant.history change
    checkpoints := checkpoints.step fresh invariant.ordered retirement.head change }

end SystemInvariant

end Orly
