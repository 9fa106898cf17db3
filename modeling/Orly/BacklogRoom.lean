import Orly.EventRuns
import Orly.ThreadTotals

/-!
# Room in the promotion backlog

A writer takes room for its update before it commits and gives it back once the update is
in the backlog, so that for a while the update counts twice.  The caps are about the sizes
of the pending updates and of the updates that have room and are still to come: an append
leaves these as they are, a grant adds one, and every other step takes some away.  The
counters that `RecountBacklog` keeps for reports are left out.
-/

namespace Orly

open ThreadTotals List

/-! ## Sizes under two caps -/

/-- There are few enough updates, and few enough entries unless one update has them all. -/
structure UnderCaps (updateCap entryCap : Nat) (sizes : Multiset Nat) : Prop where
  updates : sizes.card ≤ updateCap
  entries : entryCap < sizes.sum → ∃ size, entryCap < size ∧ sizes.filter (0 < ·) = {size}

theorem sum_filter_pos (sizes : Multiset Nat) : (sizes.filter (0 < ·)).sum = sizes.sum := by
  induction sizes using Multiset.induction_on with
  | empty => rfl
  | cons size sizes ih =>
    by_cases some : 0 < size
    · rw [Multiset.filter_cons_of_pos _ some, Multiset.sum_cons, ih, Multiset.sum_cons]
    · rw [Multiset.filter_cons_of_neg _ some, ih, Multiset.sum_cons,
        Nat.eq_zero_of_not_pos some, Nat.zero_add]

namespace UnderCaps

variable {updateCap entryCap : Nat} {sizes fewer : Multiset Nat}

theorem mono (underCaps : UnderCaps updateCap entryCap sizes) (isFewer : fewer ≤ sizes) :
    UnderCaps updateCap entryCap fewer where
  updates := (Multiset.card_le_card isFewer).trans underCaps.updates
  entries := by
    intro exceeds
    obtain ⟨others, rfl⟩ := Multiset.le_iff_exists_add.mp isFewer
    obtain ⟨size, isBig, only⟩ := underCaps.entries (by rw [Multiset.sum_add]; omega)
    have part := Multiset.filter_le_filter (0 < ·) isFewer
    rw [only, Multiset.le_singleton] at part
    rcases part with nothing | same
    · rw [← sum_filter_pos, nothing] at exceeds
      contradiction
    · exact ⟨size, isBig, same⟩

/-- One more update, within the cap or bigger than it and alone. -/
theorem add {size : Nat} (room : sizes.card < updateCap)
    (fits : if entryCap < size then sizes.sum = 0 else sizes.sum + size ≤ entryCap) :
    UnderCaps updateCap entryCap (sizes + {size}) where
  updates := by
    rw [Multiset.card_add, Multiset.card_singleton]
    exact room
  entries := by
    intro exceeds
    split at fits
    case isTrue isBig =>
      refine ⟨size, isBig, ?_⟩
      have noEntries : sizes.filter (0 < ·) = 0 := by
        refine Multiset.filter_eq_nil.mpr fun other mem => ?_
        exact (Multiset.sum_eq_zero_iff.mp fits other mem).not_gt
      rw [Multiset.filter_add, noEntries, zero_add, Multiset.filter_singleton,
        if_pos (Nat.zero_lt_of_lt isBig)]
    case isFalse =>
      rw [Multiset.sum_add, Multiset.sum_singleton] at exceeds
      omega

end UnderCaps

/-! ## The backlog -/

/--
The pending updates of a child repo whose entry counts are known.  `pending`, oldest first,
is what the memory layers hold from `LowestSeqNum` to `HighestSeqNum`: the number of entries
of each update.
-/
structure Backlog where
  pending : List Nat := []
  backlogEntries : Nat := 0
  backlogEntryCounts : List Nat := []

namespace Backlog

/-- What a `uint32_t` of `BacklogEntryCounts` keeps. -/
def entryCount (numEntries : Nat) : Nat :=
  min numEntries (2 ^ 32 - 1)

/-- `AppendUpdate`. -/
def appendUpdate (backlog : Backlog) (numEntries : Nat) : Backlog where
  pending := backlog.pending ++ [numEntries]
  backlogEntries := backlog.backlogEntries + numEntries
  backlogEntryCounts := backlog.backlogEntryCounts ++ [entryCount numEntries]

/-- `PopLowest`, which asserts that something is pending. -/
def popLowest (backlog : Backlog) : Option Backlog :=
  match backlog.pending with
  | [] => none
  | [_] => some {}
  | _ :: pending => some
    { pending := pending
      backlogEntries := backlog.backlogEntries - backlog.backlogEntryCounts.headD 0
      backlogEntryCounts := backlog.backlogEntryCounts.tail }

/-- The counts are those of the pending updates. -/
structure Counted (backlog : Backlog) : Prop where
  counts : backlog.backlogEntryCounts = backlog.pending.map entryCount
  entries : backlog.pending.sum ≤ backlog.backlogEntries
  drained : backlog.pending = [] → backlog.backlogEntries = 0

namespace Counted

variable {backlog after : Backlog}

theorem appendUpdate (counted : backlog.Counted) (numEntries : Nat) :
    (backlog.appendUpdate numEntries).Counted where
  counts := by simp [Backlog.appendUpdate, counted.counts]
  entries := by simpa [Backlog.appendUpdate] using counted.entries
  drained := by simp [Backlog.appendUpdate]

/-- A pop takes one update and its count. -/
theorem popLowest (counted : backlog.Counted) (popped : backlog.popLowest = some after) :
    after.Counted ∧ after.pending.Sublist backlog.pending := by
  rw [Backlog.popLowest] at popped
  split at popped
  case h_1 => contradiction
  case h_2 =>
    cases popped
    exact ⟨⟨rfl, Nat.zero_le _, fun _ => rfl⟩, nil_sublist _⟩
  case h_3 first rest notLast isPending =>
    cases popped
    have entries := counted.entries
    have kept : entryCount first ≤ first := Nat.min_le_left ..
    rw [isPending, sum_cons] at entries
    refine ⟨⟨?_, ?_, fun empty => absurd empty notLast⟩, isPending ▸ sublist_cons_self ..⟩
    · rw [counted.counts, isPending, map_cons, tail_cons]
    · rw [counted.counts, isPending, map_cons, headD_cons]
      show rest.sum ≤ backlog.backlogEntries - entryCount first
      omega

end Counted

end Backlog

/-! ## Reservations -/

/-- `TBacklogReservation`.  That the writer has appended its update is no field of it. -/
structure BacklogReservation where
  numEntries : Nat := 0
  reserved : Bool := false
  oversizedWaiting : Bool := false
  appended : Bool := false
deriving DecidableEq

namespace BacklogReservation

variable (reservation : BacklogReservation)

/-- The size of the update it counts for. -/
def held : Multiset Nat :=
  if reservation.reserved then {reservation.numEntries} else 0

/-- The size of the update that is still to be appended. -/
def ahead : Multiset Nat :=
  if reservation.reserved && !reservation.appended then {reservation.numEntries} else 0

def waits : Nat :=
  if reservation.oversizedWaiting then 1 else 0

theorem card_held : reservation.held.card = if reservation.reserved then 1 else 0 := by
  rw [held]
  split <;> rfl

theorem sum_held :
    reservation.held.sum = if reservation.reserved then reservation.numEntries else 0 := by
  rw [held]
  split
  · exact Multiset.sum_singleton _
  · rfl

/-- What is ahead is part of what is held. -/
theorem ahead_le_held : reservation.ahead ≤ reservation.held := by
  obtain ⟨numEntries, reserved, _, appended⟩ := reservation
  cases reserved <;> cases appended <;> simp [ahead, held]

end BacklogReservation

open BacklogReservation

/-- A child repo's backlog, and the room that writers hold in it. -/
structure BacklogRepo (Writer : Type) extends Backlog where
  reservedBacklogUpdates : Nat
  reservedBacklogEntries : Nat
  oversizedBacklogWaiters : Nat
  reservation : Writer → BacklogReservation

inductive BacklogEvent (Writer : Type) where
  | tryReserve (writer : Writer) (numEntries : Nat)
  | appendUpdate (writer : Writer)
  | destroy (writer : Writer)
  | popLowest

namespace BacklogRepo

variable {Writer : Type}

def new : BacklogRepo Writer where
  reservedBacklogUpdates := 0
  reservedBacklogEntries := 0
  oversizedBacklogWaiters := 0
  reservation := fun _ => {}

/-- The test of `TryReserve`. -/
def fits (repo : BacklogRepo Writer) (updateCap entryCap numEntries : Nat) : Prop :=
  let entries := repo.backlogEntries + repo.reservedBacklogEntries
  repo.pending.length + repo.reservedBacklogUpdates < updateCap ∧
    if entryCap < numEntries then entries = 0
    else entries + numEntries ≤ entryCap ∧ repo.oversizedBacklogWaiters = 0

instance (repo : BacklogRepo Writer) (updateCap entryCap numEntries : Nat) :
    Decidable (repo.fits updateCap entryCap numEntries) :=
  inferInstanceAs (Decidable (_ ∧ _))

variable [DecidableEq Writer]

/-- `TryReserve`, and whether it found room. -/
def tryReserve (repo : BacklogRepo Writer) (updateCap entryCap : Nat) (writer : Writer)
    (numEntries : Nat) : BacklogRepo Writer × Bool :=
  let reservation := repo.reservation writer
  if repo.fits updateCap entryCap numEntries then
    ({ repo with
      oversizedBacklogWaiters := repo.oversizedBacklogWaiters - reservation.waits
      reservedBacklogUpdates := repo.reservedBacklogUpdates + 1
      reservedBacklogEntries := repo.reservedBacklogEntries + numEntries
      reservation := Function.update repo.reservation writer
        { numEntries := numEntries, reserved := true } }, true)
  else if entryCap < numEntries ∧ reservation.oversizedWaiting = false then
    ({ repo with
      oversizedBacklogWaiters := repo.oversizedBacklogWaiters + 1
      reservation := Function.update repo.reservation writer
        { reservation with oversizedWaiting := true } }, false)
  else
    (repo, false)

/-- The destructor of a reservation. -/
def destroy (repo : BacklogRepo Writer) (writer : Writer) : BacklogRepo Writer :=
  let reservation := repo.reservation writer
  { repo with
    reservedBacklogUpdates :=
      repo.reservedBacklogUpdates - if reservation.reserved then 1 else 0
    reservedBacklogEntries :=
      repo.reservedBacklogEntries - if reservation.reserved then reservation.numEntries else 0
    oversizedBacklogWaiters := repo.oversizedBacklogWaiters - reservation.waits
    reservation := Function.update repo.reservation writer {} }

/-- One step.  A reservation that has room is not asked for it again, and its writer appends
one update. -/
def step (updateCap entryCap : Nat) (repo : BacklogRepo Writer) :
    BacklogEvent Writer → Option (BacklogRepo Writer)
  | .tryReserve writer numEntries =>
    if (repo.reservation writer).reserved then none
    else some (repo.tryReserve updateCap entryCap writer numEntries).1
  | .appendUpdate writer =>
    let reservation := repo.reservation writer
    if reservation.reserved && !reservation.appended then
      some { repo with
        toBacklog := repo.toBacklog.appendUpdate reservation.numEntries
        reservation := Function.update repo.reservation writer
          { reservation with appended := true } }
    else none
  | .destroy writer => some (repo.destroy writer)
  | .popLowest => repo.toBacklog.popLowest.map fun backlog => { repo with toBacklog := backlog }

/-- The states of every run under two caps. -/
abbrev Reached (updateCap entryCap : Nat) : BacklogRepo Writer → Prop :=
  EventRuns.Reaches (step updateCap entryCap) (fun _ _ => True) new

/-! ## What every step keeps -/

variable [Fintype Writer]

omit [DecidableEq Writer] in
/-- The sizes of the updates that are pending or have room and are still to come. -/
def inFlight (repo : BacklogRepo Writer) : Multiset Nat :=
  repo.pending + total BacklogReservation.ahead repo.reservation

omit [DecidableEq Writer] in
/-- The counters of the reservations are right. -/
structure RoomCounted (updates entries waiters : Nat)
    (reservation : Writer → BacklogReservation) : Prop where
  updates : updates = (total BacklogReservation.held reservation).card
  entries : entries = (total BacklogReservation.held reservation).sum
  waiters : waiters = total BacklogReservation.waits reservation

omit [DecidableEq Writer] in
structure Sound (updateCap entryCap : Nat) (repo : BacklogRepo Writer) : Prop where
  backlog : repo.toBacklog.Counted
  room : RoomCounted repo.reservedBacklogUpdates repo.reservedBacklogEntries
    repo.oversizedBacklogWaiters repo.reservation
  underCaps : UnderCaps updateCap entryCap repo.inFlight

variable {repo after : BacklogRepo Writer} {updateCap entryCap : Nat} {writer : Writer}

/-- One reservation changes, and the counters with it. -/
theorem RoomCounted.update {updates entries waiters newUpdates newEntries newWaiters : Nat}
    {reservation : Writer → BacklogReservation} {next : BacklogReservation}
    (counted : RoomCounted updates entries waiters reservation)
    (isUpdates : newUpdates + (reservation writer).held.card = updates + next.held.card)
    (isEntries : newEntries + (reservation writer).held.sum = entries + next.held.sum)
    (isWaiters : newWaiters + (reservation writer).waits = waiters + next.waits) :
    RoomCounted newUpdates newEntries newWaiters (Function.update reservation writer next) := by
  have held := total_update BacklogReservation.held reservation writer next
  have waits := total_update BacklogReservation.waits reservation writer next
  have cards := congrArg Multiset.card held
  have sums := congrArg Multiset.sum held
  rw [Multiset.card_add, Multiset.card_add, ← counted.updates] at cards
  rw [Multiset.sum_add, Multiset.sum_add, ← counted.entries] at sums
  rw [← counted.waiters] at waits
  exact ⟨by omega, by omega, by omega⟩

omit [DecidableEq Writer] in
/-- What one reservation counts for is counted. -/
theorem RoomCounted.least
    {updates entries waiters : Nat} {reservation : Writer → BacklogReservation}
    (counted : RoomCounted updates entries waiters reservation) (writer : Writer) :
    (reservation writer).held.card ≤ updates ∧ (reservation writer).held.sum ≤ entries ∧
      (reservation writer).waits ≤ waiters := by
  have isPart : (reservation writer).held ≤ total held reservation :=
    Finset.single_le_sum (fun _ _ => Multiset.zero_le _) (Finset.mem_univ writer)
  obtain ⟨others, whole⟩ := Multiset.le_iff_exists_add.mp isPart
  rw [counted.updates, counted.entries, counted.waiters, whole, Multiset.card_add, Multiset.sum_add]
  exact ⟨Nat.le_add_right .., Nat.le_add_right .., le_total _ _ writer⟩

namespace Sound

omit [DecidableEq Writer] in
/-- The counters of the repo are no less than what is in flight. -/
theorem inFlight_le (sound : Sound updateCap entryCap repo) :
    repo.inFlight.card ≤ repo.pending.length + repo.reservedBacklogUpdates ∧
      repo.inFlight.sum ≤ repo.backlogEntries + repo.reservedBacklogEntries := by
  have isPart : total ahead repo.reservation ≤ total held repo.reservation :=
    Finset.sum_le_sum fun writer _ => (repo.reservation writer).ahead_le_held
  obtain ⟨others, whole⟩ := Multiset.le_iff_exists_add.mp isPart
  have entries := sound.backlog.entries
  rw [sound.room.updates, sound.room.entries, whole, inFlight]
  simp only [Multiset.card_add, Multiset.sum_add, Multiset.coe_card, Multiset.sum_coe]
  omega

/-- An attempt to reserve keeps the counters right. -/
theorem tryReserve (sound : Sound updateCap entryCap repo) (numEntries : Nat)
    (isFree : (repo.reservation writer).reserved = false) :
    Sound updateCap entryCap (repo.tryReserve updateCap entryCap writer numEntries).1 := by
  have held : (repo.reservation writer).held = 0 := by simp [BacklogReservation.held, isFree]
  have ahead : (repo.reservation writer).ahead = 0 := by simp [BacklogReservation.ahead, isFree]
  have moved := total_update BacklogReservation.ahead repo.reservation writer
  rw [BacklogRepo.tryReserve]
  split
  case isTrue fits =>
    refine ⟨sound.backlog, sound.room.update ?_ ?_ ?_, ?_⟩
    · rw [held]
      rfl
    · rw [held]
      rfl
    · exact Nat.sub_add_cancel (sound.room.least writer).2.2
    · obtain ⟨cards, sums⟩ := sound.inFlight_le
      have added := moved { numEntries := numEntries, reserved := true }
      rw [ahead, add_zero] at added
      rw [inFlight, added, ← add_assoc]
      refine UnderCaps.add (cards.trans_lt fits.1) ?_
      have room := fits.2
      split
      case isTrue isBig =>
        rw [if_pos isBig] at room
        exact Nat.eq_zero_of_le_zero (sums.trans room.le)
      case isFalse notBig =>
        rw [if_neg notBig] at room
        exact (Nat.add_le_add_right sums _).trans room.1
  case isFalse =>
    split
    case isTrue waiting =>
      refine ⟨sound.backlog, sound.room.update rfl rfl ?_, ?_⟩
      · simp [waits, waiting.2]
      · have same := moved { repo.reservation writer with oversizedWaiting := true }
        rw [inFlight, add_right_cancel same]
        exact sound.underCaps
    case isFalse => exact sound

/-- Every step keeps the counters right. -/
theorem step {event : BacklogEvent Writer} (sound : Sound updateCap entryCap repo)
    (stepped : repo.step updateCap entryCap event = some after) :
    Sound updateCap entryCap after := by
  cases event with
  | tryReserve writer numEntries =>
    rw [BacklogRepo.step] at stepped
    split at stepped
    case isTrue => contradiction
    case isFalse isFree =>
      cases stepped
      exact sound.tryReserve numEntries (Bool.eq_false_iff.mpr isFree)
  | appendUpdate writer =>
    simp only [BacklogRepo.step] at stepped
    split at stepped
    case isFalse => contradiction
    case isTrue isAhead =>
      cases stepped
      refine ⟨sound.backlog.appendUpdate _, sound.room.update rfl rfl rfl, ?_⟩
      have moved := total_update BacklogReservation.ahead repo.reservation writer
        { repo.reservation writer with appended := true }
      rw [BacklogReservation.ahead, if_pos isAhead, BacklogReservation.ahead, if_neg (by simp),
        add_zero] at moved
      rw [inFlight, Backlog.appendUpdate, ← Multiset.coe_add, add_assoc, Multiset.coe_singleton,
        add_comm {_}, moved]
      exact sound.underCaps
  | destroy writer =>
    cases stepped
    obtain ⟨updates, entries, waits⟩ := sound.room.least writer
    refine ⟨sound.backlog, sound.room.update ?_ ?_ ?_, sound.underCaps.mono ?_⟩
    · simp only [BacklogRepo.destroy, ← card_held]
      exact Nat.sub_add_cancel updates
    · simp only [BacklogRepo.destroy, ← sum_held]
      exact Nat.sub_add_cancel entries
    · exact Nat.sub_add_cancel waits
    · have moved := total_update BacklogReservation.ahead repo.reservation writer {}
      refine add_le_add le_rfl
        (Multiset.le_iff_exists_add.mpr ⟨(repo.reservation writer).ahead, ?_⟩)
      exact (add_zero _).symm.trans moved.symm
  | popLowest =>
    obtain ⟨backlog, popped, rfl⟩ := Option.map_eq_some_iff.mp stepped
    obtain ⟨counted, isPart⟩ := sound.backlog.popLowest popped
    refine ⟨counted, sound.room, sound.underCaps.mono (add_le_add ?_ le_rfl)⟩
    exact Multiset.coe_le.mpr isPart.subperm

theorem of_reached (reached : Reached updateCap entryCap repo) : Sound updateCap entryCap repo := by
  have nothing : ∀ weight : BacklogReservation → Multiset Nat, weight {} = 0 →
      total weight (fun _ : Writer => ({} : BacklogReservation)) = 0 :=
    fun weight isZero => Finset.sum_eq_zero fun _ _ => isZero
  refine reached.invariant ⟨⟨rfl, Nat.zero_le _, fun _ => rfl⟩, ⟨?_, ?_, ?_⟩, ?_⟩
    fun _ _ _ sound _ stepped => sound.step stepped
  · exact (congrArg Multiset.card (nothing _ rfl)).symm
  · exact (congrArg Multiset.sum (nothing _ rfl)).symm
  · exact (total_eq_zero_iff.mpr fun _ => rfl).symm
  · refine ⟨?_, ?_⟩ <;> simp [inFlight, new, nothing ahead rfl]

omit [DecidableEq Writer] in
/-- While a writer with an update bigger than the cap waits, no other gets room. -/
theorem not_fits (sound : Sound updateCap entryCap repo)
    (waiting : (repo.reservation writer).oversizedWaiting = true) {numEntries : Nat}
    (within : numEntries ≤ entryCap) :
    ¬ repo.fits updateCap entryCap numEntries := by
  rintro ⟨-, room⟩
  rw [if_neg within.not_gt] at room
  have counted := (sound.room.least writer).2.2
  rw [room.2, waits, if_pos waiting] at counted
  contradiction

end Sound

omit [Fintype Writer] in
/-- A writer that waits with an update bigger than the cap waits until it gets room or
gives up. -/
theorem waits_until
    {event : BacklogEvent Writer} (waiting : (repo.reservation writer).oversizedWaiting = true)
    (stepped : repo.step updateCap entryCap event = some after) :
    (after.reservation writer).oversizedWaiting = true ∨ event = .destroy writer ∨
      ∃ numEntries, event = .tryReserve writer numEntries ∧
        (repo.tryReserve updateCap entryCap writer numEntries).2 = true := by
  have others : ∀ other next, other ≠ writer →
      (Function.update repo.reservation other next writer).oversizedWaiting = true :=
    fun other next differ => Function.update_of_ne differ.symm .. ▸ waiting
  cases event with
  | tryReserve other numEntries =>
    rw [BacklogRepo.step] at stepped
    split at stepped
    case isTrue => contradiction
    case isFalse =>
      cases stepped
      rw [BacklogRepo.tryReserve]
      split
      case isTrue fits =>
        by_cases same : other = writer
        · subst same
          exact .inr (.inr ⟨numEntries, rfl, by rw [BacklogRepo.tryReserve, if_pos fits]⟩)
        · exact .inl (others other _ same)
      case isFalse =>
        refine .inl ?_
        split
        case isTrue =>
          by_cases same : other = writer
          · subst same
            exact congrArg _ (Function.update_self ..)
          · exact others other _ same
        case isFalse => exact waiting
  | appendUpdate other =>
    simp only [BacklogRepo.step] at stepped
    split at stepped
    case isFalse => contradiction
    case isTrue =>
      cases stepped
      by_cases same : other = writer
      · subst same
        exact .inl ((congrArg _ (Function.update_self ..)).trans waiting)
      · exact .inl (others other _ same)
  | destroy other =>
    cases stepped
    by_cases same : other = writer
    · exact .inr (.inl (same ▸ rfl))
    · exact .inl (others other _ same)
  | popLowest =>
    obtain ⟨backlog, -, rfl⟩ := Option.map_eq_some_iff.mp stepped
    exact .inl waiting

/-- In every run under two caps: the updates that are pending or have room are at most as many
as the cap; their entries exceed the cap only if one update bigger than it has them all; an
update bigger than the cap that is refused keeps smaller ones out until it gets room or is
given up; and without reservations and pending updates the counters are zero. -/
theorem backlog_caps_hold (reached : Reached updateCap entryCap repo) :
    repo.inFlight.card ≤ updateCap ∧
    (entryCap < repo.inFlight.sum →
      ∃ size, entryCap < size ∧ repo.inFlight.filter (0 < ·) = {size}) ∧
    (∀ writer numEntries, entryCap < numEntries →
      (repo.tryReserve updateCap entryCap writer numEntries).2 = false →
        ((repo.tryReserve updateCap entryCap writer numEntries).1.reservation
          writer).oversizedWaiting = true) ∧
    (∀ writer, (repo.reservation writer).oversizedWaiting = true →
      (∀ other numEntries, numEntries ≤ entryCap →
        (repo.tryReserve updateCap entryCap other numEntries).2 = false) ∧
      ∀ event after, repo.step updateCap entryCap event = some after →
        (after.reservation writer).oversizedWaiting = true ∨ event = .destroy writer ∨
          ∃ numEntries, event = .tryReserve writer numEntries ∧
            (repo.tryReserve updateCap entryCap writer numEntries).2 = true) ∧
    ((∀ writer, repo.reservation writer = {}) → repo.pending = [] →
      repo.reservedBacklogUpdates = 0 ∧ repo.reservedBacklogEntries = 0 ∧
      repo.oversizedBacklogWaiters = 0 ∧ repo.backlogEntries = 0 ∧
      repo.backlogEntryCounts = []) := by
  have sound := Sound.of_reached reached
  refine ⟨sound.underCaps.updates, sound.underCaps.entries, ?_, ?_, ?_⟩
  · intro writer numEntries isBig refused
    rw [BacklogRepo.tryReserve] at refused ⊢
    split at refused
    case isTrue => contradiction
    case isFalse noRoom =>
      rw [if_neg noRoom]
      split
      case isTrue => exact congrArg _ (Function.update_self ..)
      case isFalse alreadyWaits =>
        rw [not_and, Bool.not_eq_false] at alreadyWaits
        exact alreadyWaits isBig
  · intro writer waiting
    refine ⟨fun other numEntries within => ?_, fun event after => waits_until waiting⟩
    rw [BacklogRepo.tryReserve, if_neg (sound.not_fits waiting within),
      if_neg fun big => within.not_gt big.1]
  · intro noneLeft nothing
    have nothingHeld : total held repo.reservation = 0 :=
      Finset.sum_eq_zero fun writer _ => noneLeft writer ▸ rfl
    refine ⟨?_, ?_, ?_, sound.backlog.drained nothing, ?_⟩
    · rw [sound.room.updates, nothingHeld, Multiset.card_zero]
    · rw [sound.room.entries, nothingHeld, Multiset.sum_zero]
    · rw [sound.room.waiters, total_eq_zero_iff]
      exact fun writer => noneLeft writer ▸ rfl
    · rw [sound.backlog.counts, nothing, map_nil]

/-- An update of five entries waits at a cap of four, and keeps one of two entries out. -/
theorem backlog_caps_hold_waiting : ∃ repo : BacklogRepo (Fin 3),
    (repo.reservation 0).oversizedWaiting = true ∧ (repo.tryReserve 8 4 2 2).2 = false := by
  have granted : Reached 8 4 _ :=
    .tail .refl trivial (show new.step 8 4 (.tryReserve (1 : Fin 3) 3) = some _ from rfl)
  have waits : Reached 8 4 _ :=
    granted.tail trivial (show step 8 4 _ (.tryReserve 0 5) = some _ from rfl)
  exact ⟨_, by decide, ((backlog_caps_hold waits).2.2.2.1 0 (by decide)).1 2 2 (by decide)⟩

end BacklogRepo

end Orly
