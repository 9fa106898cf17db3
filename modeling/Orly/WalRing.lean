import Orly.WalFormat
import Orly.GreedyBatches

namespace Orly

/-!
# Ring-space accounting of the write-ahead log

The log is a ring of pages.  It takes a record only if it can promise it a
position with the checkpointed head where it is.  This module embeds the
accounting: what the records taken but not written are owed, how much of the ring
is usable before the head, and the admission test.
-/

/-- `TWal::TConfig`, with what the constructor asserts about it; a size is a `size_t`. -/
structure WalConfig where
  capacityBytes : Nat
  storeId : StoreId
  maxInFlightGroups : Nat
  autoSealOnQuiet : Bool
  noSync : Bool
  earlyAck : Bool
  checkpointSlotBytes : Nat
  capacityAligned : capacityBytes % walAlignment = 0
  capacityHoldsPage : walAlignment ≤ capacityBytes
  capacityFits : capacityBytes < 2 ^ 64

namespace WalConfig

variable (config : WalConfig)

/-- The most payload the leader batches into one group. -/
def maxGroupPayload : Nat :=
  min (64 * 1024) (config.capacityBytes - groupHeaderBytes)

/-- The group of the most payload the leader batches. -/
def maxBatchGroupBytes : Nat :=
  alignToWal (groupHeaderBytes + config.maxGroupPayload)

/-- The part of the ring that client writes leave to the server's own. -/
def headroomBytes : Nat :=
  config.capacityBytes / 8 / walAlignment * walAlignment

end WalConfig

/-- A ring of eight pages. -/
def eightPages : WalConfig where
  capacityBytes := 32768
  storeId := ⟨List.replicate 16 0, length_zeroBytes⟩
  maxInFlightGroups := 2
  autoSealOnQuiet := true
  noSync := false
  earlyAck := false
  checkpointSlotBytes := 0
  capacityAligned := by decide
  capacityHoldsPage := by decide
  capacityFits := by decide

/-- The bytes of a group with this payload. -/
def groupBytesOf (payload : Nat) : Nat :=
  alignToWal (groupHeaderBytes + payload)

/-- `TWal::GetRecordGroupBytes`. -/
def recordGroupBytes (size : Nat) : Nat :=
  alignToWal (groupHeaderBytes + recordHeaderBytes + size)

theorem recordGroupBytes_eq (size : Nat) :
    recordGroupBytes size = groupBytesOf (recordHeaderBytes + size) := by
  rw [recordGroupBytes, groupBytesOf, Nat.add_assoc]

theorem recordGroupBytes_mono {first second : Nat} (le : first ≤ second) :
    recordGroupBytes first ≤ recordGroupBytes second :=
  alignToWal_mono (Nat.add_le_add_left le _)

theorem groupBytesOf_mono {first second : Nat} (le : first ≤ second) :
    groupBytesOf first ≤ groupBytesOf second :=
  alignToWal_mono (Nat.add_le_add_left le _)

theorem walAlignment_le_groupBytesOf (payload : Nat) : walAlignment ≤ groupBytesOf payload :=
  walAlignment_le_alignToWal (Nat.add_pos_left (by decide) _)

theorem groupBytesOf_zero : groupBytesOf 0 = walAlignment := rfl

/-- A record that joins a group costs no more than a group of its own. -/
theorem groupBytesOf_add_le (payload added : Nat) :
    groupBytesOf (payload + added) ≤ groupBytesOf payload + groupBytesOf added := by
  calc
    groupBytesOf (payload + added) = alignToWal ((groupHeaderBytes + payload) + added) := by
          rw [groupBytesOf, Nat.add_assoc]
    _ ≤ alignToWal (groupHeaderBytes + payload) + alignToWal added := alignToWal_add_le _ _
    _ ≤ groupBytesOf payload + groupBytesOf added :=
          Nat.add_le_add_left (alignToWal_mono (Nat.le_add_left _ _)) _

/-- `TWal::TRoom`. -/
inductive Room where
  | all
  | keepHeadroom
  deriving Repr, DecidableEq

/-- `TPromotionDebt`: a group for each promotion an update still needs. -/
structure PromotionDebt where
  groupBytes : Nat
  levels : Nat
  deriving Repr, DecidableEq

/-- `SumDebtBytes`. -/
def sumDebtBytes (debts : List PromotionDebt) : Nat :=
  (debts.map fun debt => debt.groupBytes * debt.levels).sum

/-- `MaxDebtGroupBytes`. -/
def maxDebtGroupBytes (debts : List PromotionDebt) : Nat :=
  debts.foldl
    (fun biggest debt =>
      if debt.levels = 0 then biggest else max biggest debt.groupBytes)
    0

/-- The room promised to promotions. -/
structure PromotionRoom where
  debtGroupBytes : Multiset Nat
  debtBytesSum : Nat
  deriving DecidableEq

namespace PromotionRoom

/-- `OweLocked`. -/
def owe (promotions : PromotionRoom) (debts : List PromotionDebt) : PromotionRoom :=
  debts.foldl
    (fun room debt =>
      if debt.levels = 0 then
        room
      else
        { debtGroupBytes := debt.groupBytes ::ₘ room.debtGroupBytes
          debtBytesSum := room.debtBytesSum + debt.groupBytes * debt.levels })
    promotions

/-- `RepayLocked`: repaying what is not owed stops at nothing owed. -/
def repay (promotions : PromotionRoom) (debts : List PromotionDebt) : PromotionRoom :=
  debts.foldl
    (fun room debt =>
      if debt.levels = 0 then
        room
      else
        { debtGroupBytes := room.debtGroupBytes.erase debt.groupBytes
          debtBytesSum :=
            room.debtBytesSum - min (debt.groupBytes * debt.levels) room.debtBytesSum })
    promotions

end PromotionRoom

/-- The room charged for records that are reserved or pending. -/
structure RoomLedger where
  reservedGroupBytes : Multiset Nat
  reservedGroupBytesSum : Nat
  pendingGroupPayloads : List Nat
  pendingGroupBytes : Multiset Nat
  pendingGroupBytesSum : Nat
  unsealed : Bool
  deriving DecidableEq

namespace RoomLedger

variable (ledger : RoomLedger) (config : WalConfig)

/-- `OwedBytesLocked`. -/
def owedBytes : Nat :=
  ledger.reservedGroupBytesSum + ledger.reservedGroupBytes.card * walAlignment +
    ledger.pendingGroupBytesSum + ledger.pendingGroupPayloads.length * walAlignment +
    (if ledger.unsealed then walAlignment else 0)

/-- The biggest group that `sum` bytes of groups, none bigger than `biggest`, batch into. -/
def groupBound (sum biggest : Nat) : Nat :=
  max walAlignment (min sum (max config.maxBatchGroupBytes biggest))

/-- `MaxGroupLocked`; no `biggestExtra` is the default, the biggest `size_t`. -/
def maxGroup (ledger : RoomLedger) (extra : Nat) (biggestExtra : Option Nat) : Nat :=
  groupBound config (ledger.reservedGroupBytesSum + ledger.pendingGroupBytesSum + extra)
    (max (max (biggestExtra.elim extra (min extra)) ledger.reservedGroupBytes.sup)
      ledger.pendingGroupBytes.sup)

/-- `ChargeLocked`. -/
def charge (groupBytes : Nat) : RoomLedger :=
  { ledger with
    reservedGroupBytes := groupBytes ::ₘ ledger.reservedGroupBytes
    reservedGroupBytesSum := ledger.reservedGroupBytesSum + groupBytes }

/-- `UnchargeLocked`. -/
def uncharge (groupBytes : Nat) : RoomLedger :=
  if groupBytes ∈ ledger.reservedGroupBytes then
    { ledger with
      reservedGroupBytes := ledger.reservedGroupBytes.erase groupBytes
      reservedGroupBytesSum := ledger.reservedGroupBytesSum - groupBytes }
  else
    ledger

/-- The end of `QueueRecordLocked`: a record starts a group. -/
def startGroup (encoded : Nat) : RoomLedger :=
  { ledger with
    pendingGroupPayloads := ledger.pendingGroupPayloads ++ [encoded]
    pendingGroupBytes := groupBytesOf encoded ::ₘ ledger.pendingGroupBytes
    pendingGroupBytesSum := ledger.pendingGroupBytesSum + groupBytesOf encoded }

/-- `QueueRecordLocked`: predict the group the leader will put a record in. -/
def queueRecord (ledger : RoomLedger) (encoded : Nat) : RoomLedger :=
  match ledger.pendingGroupPayloads.getLast? with
  | some payload =>
    if payload + encoded ≤ config.maxGroupPayload then
      let was := groupBytesOf payload
      let now := groupBytesOf (payload + encoded)
      let joined :=
        { ledger with
          pendingGroupPayloads :=
            ledger.pendingGroupPayloads.dropLast ++ [payload + encoded] }
      if now ≠ was then
        { joined with
          pendingGroupBytes := now ::ₘ ledger.pendingGroupBytes.erase was
          pendingGroupBytesSum := ledger.pendingGroupBytesSum + (now - was) }
      else
        joined
    else
      ledger.startGroup encoded
  | none => ledger.startGroup encoded

/-- `DequeueGroupLocked`: the leader has taken the first predicted group. -/
def dequeueGroup : RoomLedger :=
  match ledger.pendingGroupPayloads with
  | [] => ledger
  | payload :: payloads =>
    { ledger with
      pendingGroupPayloads := payloads
      pendingGroupBytes := ledger.pendingGroupBytes.erase (groupBytesOf payload)
      pendingGroupBytesSum := ledger.pendingGroupBytesSum - groupBytesOf payload }

end RoomLedger

/-- The write position and the head the newest synced checkpoint names. -/
structure RingCursor where
  currentLap : Nat
  currentRingOffset : Nat
  checkpointedHeadLap : Nat
  checkpointedHeadRingOffset : Nat
  deriving Repr, DecidableEq

namespace RingCursor

variable (config : WalConfig)

/-- `UsableBytesLocked`. -/
def usableBytes (cursor : RingCursor) (maxGroup : Nat) : Nat :=
  if cursor.currentLap = cursor.checkpointedHeadLap + 1 then
    cursor.checkpointedHeadRingOffset - cursor.currentRingOffset
  else if cursor.currentLap = cursor.checkpointedHeadLap then
    let tail := config.capacityBytes - cursor.currentRingOffset
    max tail (tail + cursor.checkpointedHeadRingOffset - maxGroup)
  else
    0

/-- Where a group of this size goes: past the end of the lap if it does not fit there. -/
def wrapFor (cursor : RingCursor) (groupSize : Nat) : RingCursor :=
  if config.capacityBytes < cursor.currentRingOffset + groupSize then
    { cursor with currentLap := cursor.currentLap + 1, currentRingOffset := 0 }
  else
    cursor

/-- The leader's test `fits`: a group of this size does not pass the checkpointed head. -/
def fits (cursor : RingCursor) (groupSize : Nat) : Bool :=
  let wrapped := cursor.wrapFor config groupSize
  wrapped.currentLap = cursor.checkpointedHeadLap ||
    (wrapped.currentLap = cursor.checkpointedHeadLap + 1 &&
      wrapped.currentRingOffset + groupSize ≤ cursor.checkpointedHeadRingOffset)

/-- Give a group of this size its position. -/
def place (cursor : RingCursor) (groupSize : Nat) : RingCursor :=
  let wrapped := cursor.wrapFor config groupSize
  { wrapped with currentRingOffset := wrapped.currentRingOffset + groupSize }

/-- A checkpoint is synced: the leader may reuse the ring up to its head. -/
def landCheckpoint (cursor : RingCursor) (headLap headRingOffset : Nat) : RingCursor :=
  { cursor with
    checkpointedHeadLap := headLap
    checkpointedHeadRingOffset := headRingOffset }

end RingCursor

/-- `AdmitsLocked`. -/
def admits
    (config : WalConfig) (ledger : RoomLedger) (cursor : RingCursor) (promotions : PromotionRoom)
    (groupBytes : Nat) (room : Room) (credit newDebt newDebtGroup : Nat)
    (biggestGroup : Option Nat) : Bool :=
  let debt := promotions.debtBytesSum - min credit promotions.debtBytesSum + newDebt
  let needed := ledger.owedBytes + groupBytes + walAlignment + debt
  let biggest :=
    max (max (ledger.maxGroup config groupBytes biggestGroup) newDebtGroup)
      promotions.debtGroupBytes.sup
  let usable := cursor.usableBytes config biggest
  match room with
  | .keepHeadroom =>
    config.headroomBytes ≤ usable && needed ≤ usable - config.headroomBytes
  | .all => needed ≤ usable

end Orly
