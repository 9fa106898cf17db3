import Orly.WalRing

namespace Orly

/-!
# What each operation does to the ring's promise

The promise is that what the records taken are owed fits in what is usable before
the checkpointed head.  The ledger's sums stand for the groups that were promised
room; over those groups, every operation changes the owed side by no more than an
admission test allowed for, a placed group takes its size off both sides, and a
checkpoint only adds to the usable side.
-/

open GreedyBatches List RoomLedger

theorem RoomLedger.groupBound_mono
    {config : WalConfig} {sum sum' biggest biggest' : Nat} (sumLe : sum ≤ sum')
    (biggestLe : biggest ≤ max config.maxBatchGroupBytes biggest') :
    groupBound config sum biggest ≤ groupBound config sum' biggest' := by
  simp only [groupBound]
  omega

/-- The groups that have been promised room: those of reservations and of pending records. -/
structure PromisedGroups where
  reserved : Multiset Nat
  payloads : List Nat
  unsealed : Bool

namespace PromisedGroups

variable (groups : PromisedGroups)

/-- The bytes of the predicted groups. -/
def pendingBytes : List Nat :=
  groups.payloads.map groupBytesOf

/-- The ledger that accounts for these groups. -/
def ledger : RoomLedger where
  reservedGroupBytes := groups.reserved
  reservedGroupBytesSum := groups.reserved.sum
  pendingGroupPayloads := groups.payloads
  pendingGroupBytes := groups.pendingBytes
  pendingGroupBytesSum := groups.pendingBytes.sum
  unsealed := groups.unsealed

/-- The groups with more reserved. -/
def reserve (bytes : Multiset Nat) : PromisedGroups :=
  { groups with reserved := bytes + groups.reserved }

/-- The groups with one more record queued. -/
def queue (config : WalConfig) (groups : PromisedGroups) (encoded : Nat) : PromisedGroups :=
  { groups with payloads := enqueue config.maxGroupPayload groups.payloads encoded }

/-- A page for the seal that the newest group with records may still need. -/
def sealRoom : Bool → Nat
  | true => walAlignment
  | false => 0

section Ledger

variable (config : WalConfig) (groups : PromisedGroups)

theorem owedBytes_ledger : groups.ledger.owedBytes =
      groups.reserved.sum + groups.reserved.card * walAlignment +
        groups.pendingBytes.sum + groups.payloads.length * walAlignment +
        sealRoom groups.unsealed := by
  cases unsealed : groups.unsealed <;> simp [owedBytes, ledger, sealRoom, unsealed]

theorem maxGroup_ledger : groups.ledger.maxGroup config 0 none = groupBound config
        (groups.reserved.sum + groups.pendingBytes.sum)
        (max groups.reserved.sup (groups.pendingBytes : Multiset Nat).sup) := by
  simp [maxGroup, ledger]

theorem charge_ledger (groupBytes : Nat) :
    groups.ledger.charge groupBytes = (groups.reserve {groupBytes}).ledger := by
  simp [charge, ledger, reserve, pendingBytes, Nat.add_comm]

theorem foldl_charge_ledger (bytes : List Nat) :
    bytes.foldl charge groups.ledger = (groups.reserve bytes).ledger := by
  induction bytes generalizing groups with
  | nil => simp [reserve]
  | cons first bytes ih =>
    rw [foldl_cons, charge_ledger, ih]
    simp [reserve, ← Multiset.cons_coe]

theorem uncharge_ledger (groupBytes : Nat) :
    (groups.reserve {groupBytes}).ledger.uncharge groupBytes = groups.ledger := by
  simp [uncharge, ledger, reserve, pendingBytes]

theorem coe_concat (bytes : List Nat) (last : Nat) :
    ((bytes ++ [last] : List Nat) : Multiset Nat) = last ::ₘ (bytes : Multiset Nat) := by
  rw [← Multiset.coe_add, Multiset.coe_singleton, Multiset.add_comm, Multiset.singleton_add]

theorem startGroup_ledger (encoded : Nat) : groups.ledger.startGroup encoded =
      { groups with payloads := groups.payloads ++ [encoded] }.ledger := by
  simp [startGroup, ledger, pendingBytes, coe_concat]

/-- The leader's batching is predicted record by record. -/
theorem queueRecord_ledger (encoded : Nat) :
    groups.ledger.queueRecord config encoded = (groups.queue config encoded).ledger := by
  rcases eq_nil_or_concat groups.payloads with empty | ⟨earlier, payload, concat⟩
  case inl =>
    have starts : groups.ledger.queueRecord config encoded = groups.ledger.startGroup encoded := by
      simp [queueRecord, ledger, empty]
    simp [starts, startGroup_ledger, empty, queue, enqueue]
  case inr =>
    rw [concat_eq_append] at concat
    by_cases joins : payload + encoded ≤ config.maxGroupPayload
    case pos =>
      have grows : groupBytesOf payload ≤ groupBytesOf (payload + encoded) :=
        groupBytesOf_mono (Nat.le_add_right _ _)
      by_cases changed : groupBytesOf (payload + encoded) = groupBytesOf payload
      case pos =>
        simp [queueRecord, ledger, pendingBytes, concat, joins, changed, queue, enqueue]
      case neg =>
        have difference (rest : Nat) : rest + groupBytesOf payload +
                (groupBytesOf (payload + encoded) - groupBytesOf payload) =
              rest + groupBytesOf (payload + encoded) := by
          omega
        simp [queueRecord, ledger, pendingBytes, concat, joins, changed,
          queue, enqueue, coe_concat, difference]
    case neg =>
      have starts : groups.ledger.queueRecord config encoded =
          groups.ledger.startGroup encoded := by
        simp [queueRecord, ledger, concat, joins]
      simp [starts, startGroup_ledger, concat, joins, queue, enqueue]

theorem dequeueGroup_ledger {groups : PromisedGroups} {payload : Nat} {payloads : List Nat}
    (first : groups.payloads = payload :: payloads) :
    groups.ledger.dequeueGroup = { groups with payloads := payloads }.ledger := by
  simp [dequeueGroup, ledger, pendingBytes, first]

end Ledger

/-- Room for these groups is promised at this cursor. -/
def Promised (config : WalConfig) (groups : PromisedGroups) (cursor : RingCursor) : Prop :=
  groups.ledger.owedBytes ≤ cursor.usableBytes config (groups.ledger.maxGroup config 0 none)

end PromisedGroups

namespace RingCursor

variable {config : WalConfig}

theorem usableBytes_nextLap {c : RingCursor} (nextLap : c.currentLap = c.checkpointedHeadLap + 1)
    (maxGroup : Nat) :
    c.usableBytes config maxGroup = c.checkpointedHeadRingOffset - c.currentRingOffset := by
  rw [usableBytes, if_pos nextLap]

theorem usableBytes_sameLap {c : RingCursor} (sameLap : c.currentLap = c.checkpointedHeadLap)
    (maxGroup : Nat) :
    c.usableBytes config maxGroup = max (config.capacityBytes - c.currentRingOffset)
        (config.capacityBytes - c.currentRingOffset + c.checkpointedHeadRingOffset - maxGroup) := by
  rw [usableBytes, if_neg (by omega), if_pos sameLap]

/-- A bigger group to allow for leaves less usable. -/
theorem usableBytes_anti (cursor : RingCursor) {small big : Nat} (le : small ≤ big) :
    cursor.usableBytes config big ≤ cursor.usableBytes config small := by
  simp only [usableBytes]
  split_ifs <;> omega

/-- The head is at most a lap behind the write position, and not before it in that lap. -/
structure Positioned (config : WalConfig) (cursor : RingCursor) : Prop where
  currentInside : cursor.currentRingOffset ≤ config.capacityBytes
  headInside : cursor.checkpointedHeadRingOffset ≤ config.capacityBytes
  ordered :
    (cursor.currentLap = cursor.checkpointedHeadLap ∧
        cursor.checkpointedHeadRingOffset ≤ cursor.currentRingOffset) ∨
      (cursor.currentLap = cursor.checkpointedHeadLap + 1 ∧
        cursor.currentRingOffset ≤ cursor.checkpointedHeadRingOffset)

theorem fits_iff (cursor : RingCursor) (groupSize : Nat) : cursor.fits config groupSize = true ↔
      if config.capacityBytes < cursor.currentRingOffset + groupSize then
        cursor.currentLap + 1 = cursor.checkpointedHeadLap ∨
          (cursor.currentLap = cursor.checkpointedHeadLap ∧
            groupSize ≤ cursor.checkpointedHeadRingOffset)
      else
        cursor.currentLap = cursor.checkpointedHeadLap ∨
          (cursor.currentLap = cursor.checkpointedHeadLap + 1 ∧
            cursor.currentRingOffset + groupSize ≤ cursor.checkpointedHeadRingOffset) := by
  by_cases wraps : config.capacityBytes < cursor.currentRingOffset + groupSize <;>
    simp [fits, wrapFor, wraps]

section Positioned

variable {cursor : RingCursor} (positioned : cursor.Positioned config) {groupSize maxGroup : Nat}

include positioned

/-- A group that is counted in what fits the usable room passes the leader's test. -/
theorem fits_of_le_usableBytes
    (bounded : groupSize ≤ maxGroup) (usable : groupSize ≤ cursor.usableBytes config maxGroup) :
    cursor.fits config groupSize = true := by
  obtain ⟨currentInside, headInside, ordered⟩ := positioned
  simp only [usableBytes] at usable
  rw [fits_iff]
  split_ifs at usable ⊢ <;> omega

/-- Placing a group that fits keeps the head at most a lap behind. -/
theorem positioned_place (fit : cursor.fits config groupSize = true) :
    (cursor.place config groupSize).Positioned config := by
  obtain ⟨currentInside, headInside, ordered⟩ := positioned
  rw [fits_iff] at fit
  by_cases wraps : config.capacityBytes < cursor.currentRingOffset + groupSize
  · rw [if_pos wraps] at fit
    refine ⟨?_, ?_, ?_⟩ <;> simp only [place, wrapFor, if_pos wraps] <;> omega
  · rw [if_neg wraps] at fit
    refine ⟨?_, ?_, ?_⟩ <;> simp only [place, wrapFor, if_neg wraps] <;> omega

/-- A placed group takes at most its size off the usable room. -/
theorem usableBytes_place
    (bounded : groupSize ≤ maxGroup) (usable : groupSize ≤ cursor.usableBytes config maxGroup) :
    cursor.usableBytes config maxGroup - groupSize ≤
      (cursor.place config groupSize).usableBytes config maxGroup := by
  obtain ⟨currentInside, headInside, ordered⟩ := positioned
  simp only [usableBytes] at usable
  by_cases wraps : config.capacityBytes < cursor.currentRingOffset + groupSize
  · simp only [place, wrapFor, usableBytes, if_pos wraps]
    split_ifs at usable ⊢ <;> omega
  · simp only [place, wrapFor, usableBytes, if_neg wraps]
    split_ifs at usable ⊢ <;> omega

end Positioned

/-- The write position, in ring order: by lap, then by offset. -/
def current (cursor : RingCursor) : Nat ×ₗ Nat :=
  toLex (cursor.currentLap, cursor.currentRingOffset)

/-- The checkpointed head, in ring order. -/
def checkpointedHead (cursor : RingCursor) : Nat ×ₗ Nat :=
  toLex (cursor.checkpointedHeadLap, cursor.checkpointedHeadRingOffset)

section Landing

variable {cursor : RingCursor} {headLap headRingOffset : Nat}
  (positioned : cursor.Positioned config)
  (forward : cursor.checkpointedHead ≤ toLex (headLap, headRingOffset))
  (behind : toLex (headLap, headRingOffset) ≤ cursor.current)

include positioned forward behind

/-- A head between the old one and the write position stays at most a lap behind. -/
theorem positioned_landCheckpoint (inside : headRingOffset ≤ config.capacityBytes) :
    (cursor.landCheckpoint headLap headRingOffset).Positioned config := by
  obtain ⟨currentInside, headInside, ordered⟩ := positioned
  simp only [checkpointedHead, current, Prod.Lex.toLex_le_toLex] at forward behind
  refine ⟨?_, ?_, ?_⟩ <;> simp only [landCheckpoint] <;> omega

/-- Checkpoints only add usable room. -/
theorem usableBytes_landCheckpoint (maxGroup : Nat) : cursor.usableBytes config maxGroup ≤
      (cursor.landCheckpoint headLap headRingOffset).usableBytes config maxGroup := by
  obtain ⟨currentInside, headInside, ordered⟩ := positioned
  simp only [checkpointedHead, current, Prod.Lex.toLex_le_toLex] at forward behind
  rcases ordered with ⟨sameLap, -⟩ | ⟨nextLap, -⟩
  · have headSameLap : cursor.currentLap = headLap := by omega
    rw [usableBytes_sameLap sameLap,
      usableBytes_sameLap (c := cursor.landCheckpoint headLap headRingOffset) headSameLap]
    simp only [landCheckpoint]
    omega
  · rw [usableBytes_nextLap nextLap]
    by_cases headNextLap : cursor.currentLap = headLap + 1
    · rw [usableBytes_nextLap (c := cursor.landCheckpoint headLap headRingOffset) headNextLap]
      simp only [landCheckpoint]
      omega
    · have headSameLap : cursor.currentLap = headLap := by omega
      rw [usableBytes_sameLap (c := cursor.landCheckpoint headLap headRingOffset) headSameLap]
      simp only [landCheckpoint]
      omega

end Landing

variable (config) (cursor : RingCursor) (groupSize : Nat)

/-- Groups are placed forward in ring order. -/
theorem current_le_wrapFor :
    cursor.current ≤ (cursor.wrapFor config groupSize).current := by
  by_cases wraps : config.capacityBytes < cursor.currentRingOffset + groupSize <;>
    simp [current, wrapFor, wraps, Prod.Lex.toLex_le_toLex]

theorem wrapFor_le_place :
    (cursor.wrapFor config groupSize).current ≤ (cursor.place config groupSize).current := by
  simp [current, place, Prod.Lex.toLex_le_toLex]

@[simp]
theorem checkpointedHead_wrapFor :
    (cursor.wrapFor config groupSize).checkpointedHead = cursor.checkpointedHead := by
  rw [wrapFor]
  split <;> rfl

@[simp]
theorem checkpointedHead_place :
    (cursor.place config groupSize).checkpointedHead = cursor.checkpointedHead :=
  checkpointedHead_wrapFor config cursor groupSize

end RingCursor

namespace PromisedGroups

variable {config : WalConfig} {groups groups' : PromisedGroups} {cursor : RingCursor}

/-- Groups that ask no more room, in all and for the biggest, are promised it too. -/
theorem Promised.of_le (promised : groups.Promised config cursor)
    (owed : groups'.ledger.owedBytes ≤ groups.ledger.owedBytes)
    (biggest : groups'.ledger.maxGroup config 0 none ≤ groups.ledger.maxGroup config 0 none) :
    groups'.Promised config cursor :=
  calc
    groups'.ledger.owedBytes ≤ groups.ledger.owedBytes := owed
    _ ≤ cursor.usableBytes config (groups.ledger.maxGroup config 0 none) := promised
    _ ≤ cursor.usableBytes config (groups'.ledger.maxGroup config 0 none) :=
          cursor.usableBytes_anti biggest

/-- The admission test leaves room for a group, its seal and the promise so far. -/
theorem owed_of_admits
    {promotions : PromotionRoom} {groupBytes credit newDebt newDebtGroup : Nat} {room : Room}
    {biggestGroup : Option Nat}
    (admitted : admits config groups.ledger cursor promotions groupBytes room credit
      newDebt newDebtGroup biggestGroup = true) :
    groups.ledger.owedBytes + groupBytes + walAlignment ≤
      cursor.usableBytes config (groups.ledger.maxGroup config groupBytes biggestGroup) := by
  have anti : cursor.usableBytes config
          (max (max (groups.ledger.maxGroup config groupBytes biggestGroup) newDebtGroup)
            promotions.debtGroupBytes.sup) ≤
        cursor.usableBytes config (groups.ledger.maxGroup config groupBytes biggestGroup) :=
    cursor.usableBytes_anti (le_trans (le_max_left _ _) (le_max_left _ _))
  cases room <;> simp only [admits, Bool.and_eq_true, decide_eq_true_eq] at admitted <;> omega

/-- A promise to more groups is what an admission test has to give. -/
theorem promised_of_admits
    {promotions : PromotionRoom} {groupBytes credit newDebt newDebtGroup : Nat} {room : Room}
    {biggestGroup : Option Nat}
    (admitted : admits config groups.ledger cursor promotions groupBytes room credit
      newDebt newDebtGroup biggestGroup = true)
    (owed : groups'.ledger.owedBytes ≤ groups.ledger.owedBytes + groupBytes + walAlignment)
    (biggest : groups'.ledger.maxGroup config 0 none ≤
        groups.ledger.maxGroup config groupBytes biggestGroup) :
    groups'.Promised config cursor :=
  calc
    groups'.ledger.owedBytes ≤ groups.ledger.owedBytes + groupBytes + walAlignment := owed
    _ ≤ cursor.usableBytes config (groups.ledger.maxGroup config groupBytes biggestGroup) :=
          owed_of_admits admitted
    _ ≤ cursor.usableBytes config (groups'.ledger.maxGroup config 0 none) :=
          cursor.usableBytes_anti biggest

section Charge

variable (groups : PromisedGroups)

theorem owedBytes_reserve (bytes : Multiset Nat) : (groups.reserve bytes).ledger.owedBytes =
      groups.ledger.owedBytes + bytes.sum + bytes.card * walAlignment := by
  simp only [owedBytes_ledger, reserve, pendingBytes, Multiset.sum_add, Multiset.card_add,
    Nat.add_mul]
  omega

/-- A reservation is what `MaxGroupLocked` allows for as an extra. -/
theorem maxGroup_reserve_singleton (groupBytes : Nat) :
    (groups.reserve {groupBytes}).ledger.maxGroup config 0 none =
      groups.ledger.maxGroup config groupBytes none := by
  rw [maxGroup_ledger]
  simp [maxGroup, reserve, ledger, pendingBytes, Nat.add_comm, Nat.add_left_comm]

/-- More reserved room makes no group smaller. -/
theorem maxGroup_le_reserve (bytes : Multiset Nat) : groups.ledger.maxGroup config 0 none ≤
      (groups.reserve bytes).ledger.maxGroup config 0 none := by
  simp only [maxGroup_ledger, reserve, pendingBytes, Multiset.sum_add, Multiset.sup_add]
  apply groupBound_mono <;> omega

theorem sup_le_sum (bytes : Multiset Nat) : bytes.sup ≤ bytes.sum :=
  Multiset.sup_le.mpr fun _ mem => Multiset.le_sum_of_mem mem

/-- Reservations cost no more than the extra bytes that they were admitted as. -/
theorem maxGroup_reserve_le {bytes : Multiset Nat} {extra : Nat} {biggestExtra : Option Nat}
    (sum : bytes.sum ≤ extra) (biggest : ∀ limit ∈ biggestExtra, bytes.sup ≤ limit) :
    (groups.reserve bytes).ledger.maxGroup config 0 none ≤
      groups.ledger.maxGroup config extra biggestExtra := by
  have supSum := sup_le_sum bytes
  have supExtra : bytes.sup ≤ biggestExtra.elim extra (min extra) := by
    cases biggestExtra with
    | none => exact supSum.trans sum
    | some limit => exact le_min (supSum.trans sum) (biggest limit rfl)
  rw [maxGroup_ledger]
  simp only [maxGroup, reserve, ledger, pendingBytes, Multiset.sum_add, Multiset.sup_add]
  apply groupBound_mono <;> omega

end Charge

section Queue

variable (config groups) (encoded : Nat)

theorem pendingBytes_sum_queue :
    (groups.queue config encoded).pendingBytes.sum ≤
      groups.pendingBytes.sum + groupBytesOf encoded := by
  rcases enqueue_cases config.maxGroupPayload groups.payloads encoded with
    starts | ⟨earlier, last, concat, -, joins⟩
  · simp [queue, pendingBytes, starts]
  · have joined := groupBytesOf_add_le last encoded
    simp only [queue, pendingBytes, joins]
    simp only [concat, map_append, map_singleton, sum_append, sum_singleton]
    omega

theorem length_queue :
    (groups.queue config encoded).payloads.length ≤ groups.payloads.length + 1 := by
  rcases enqueue_cases config.maxGroupPayload groups.payloads encoded with
    starts | ⟨earlier, last, concat, -, joins⟩
  · simp [queue, starts]
  · simp only [queue, joins]
    simp [concat]

/-- A group that records have joined is no bigger than the biggest batch. -/
theorem pendingBytes_sup_queue :
    ((groups.queue config encoded).pendingBytes : Multiset Nat).sup ≤ max config.maxBatchGroupBytes
        (max (groupBytesOf encoded) (groups.pendingBytes : Multiset Nat).sup) := by
  rcases enqueue_cases config.maxGroupPayload groups.payloads encoded with
    starts | ⟨earlier, last, concat, within, joins⟩
  · simp only [queue, pendingBytes, starts, map_append, map_singleton, coe_concat,
      Multiset.sup_cons]
    exact le_max_right _ _
  · have batch : groupBytesOf (last + encoded) ≤ config.maxBatchGroupBytes :=
      groupBytesOf_mono within
    simp only [queue, pendingBytes, joins]
    simp only [concat, map_append, map_singleton, coe_concat, Multiset.sup_cons]
    omega

variable {config}

/-- A queued record costs at most a group and a page. -/
theorem owedBytes_queue :
    (groups.queue config encoded).ledger.owedBytes ≤
      groups.ledger.owedBytes + groupBytesOf encoded + walAlignment := by
  have sum := pendingBytes_sum_queue config groups encoded
  have length := Nat.mul_le_mul_right walAlignment (length_queue config groups encoded)
  have reserved : (groups.queue config encoded).reserved = groups.reserved := rfl
  have unsealed : (groups.queue config encoded).unsealed = groups.unsealed := rfl
  simp only [owedBytes_ledger, reserved, unsealed, Nat.add_mul, Nat.one_mul] at *
  omega

/-- A queued record costs no more than the extra bytes that it was admitted as. -/
theorem maxGroup_queue_le {encoded extra : Nat} (admitted : groupBytesOf encoded ≤ extra) :
    (groups.queue config encoded).ledger.maxGroup config 0 none ≤
      groups.ledger.maxGroup config extra none := by
  have sum := pendingBytes_sum_queue config groups encoded
  have sup := pendingBytes_sup_queue config groups encoded
  have reserved : (groups.queue config encoded).reserved = groups.reserved := rfl
  rw [maxGroup_ledger, reserved]
  simp only [maxGroup, ledger, Option.elim_none]
  apply groupBound_mono <;> omega

end Queue

section Placement

variable (promised : groups.Promised config cursor) (positioned : cursor.Positioned config)
include promised positioned

/--
Placing a group that was counted takes its size off both sides of the promise, and
the leader's test holds at once.
-/
theorem Promised.place {groupSize : Nat}
    (bounded : groupSize ≤ groups.ledger.maxGroup config 0 none)
    (owed : groups'.ledger.owedBytes + groupSize ≤ groups.ledger.owedBytes)
    (biggest : groups'.ledger.maxGroup config 0 none ≤ groups.ledger.maxGroup config 0 none) :
    cursor.fits config groupSize = true ∧
      groups'.Promised config (cursor.place config groupSize) := by
  have room : groupSize ≤ cursor.usableBytes config (groups.ledger.maxGroup config 0 none) :=
    le_trans (Nat.le_of_add_left_le owed) promised
  refine ⟨cursor.fits_of_le_usableBytes positioned bounded room, ?_⟩
  calc
    groups'.ledger.owedBytes ≤ groups.ledger.owedBytes - groupSize := Nat.le_sub_of_add_le owed
    _ ≤ cursor.usableBytes config (groups.ledger.maxGroup config 0 none) - groupSize :=
          Nat.sub_le_sub_right promised _
    _ ≤ (cursor.place config groupSize).usableBytes config (groups.ledger.maxGroup config 0 none) :=
          cursor.usableBytes_place positioned bounded room
    _ ≤ (cursor.place config groupSize).usableBytes config
          (groups'.ledger.maxGroup config 0 none) :=
          RingCursor.usableBytes_anti _ biggest

/-- The first predicted group fits, and leaves its page to the seal. -/
theorem Promised.placeFirst {payload : Nat} {payloads : List Nat}
    (first : groups.payloads = payload :: payloads) :
    cursor.fits config (groupBytesOf payload) = true ∧
      { groups with payloads := payloads, unsealed := true }.Promised config
        (cursor.place config (groupBytesOf payload)) := by
  apply promised.place positioned
  · simp only [maxGroup_ledger, groupBound, pendingBytes, first, map_cons,
      sum_cons, ← Multiset.cons_coe, Multiset.sup_cons]
    omega
  · simp only [owedBytes_ledger, pendingBytes, first, map_cons, sum_cons,
      length_cons, Nat.add_mul, Nat.one_mul, sealRoom]
    omega
  · simp only [maxGroup_ledger, pendingBytes, first, map_cons, sum_cons,
      ← Multiset.cons_coe, Multiset.sup_cons]
    apply groupBound_mono <;> omega

/-- A seal-only group fits in the page that is owed to it. -/
theorem Promised.placeSeal (unsealed : groups.unsealed = true) :
    cursor.fits config (groupBytesOf 0) = true ∧
      { groups with unsealed := false }.Promised config (cursor.place config (groupBytesOf 0)) := by
  apply promised.place positioned
  · rw [maxGroup_ledger, groupBytesOf_zero]
    exact le_max_left _ _
  · simp only [owedBytes_ledger, unsealed, sealRoom, groupBytesOf_zero]
    exact le_refl _
  · exact le_refl _

end Placement

end PromisedGroups

end Orly
