import Orly.OperationTable

namespace Orly

/-!
# What the operation table still answers

Every call leaves the slots it does not name alone, or drops a completed one and raises
the watermark over it.  So an operation that has an outcome is answered with it or
refused from then on, whatever is called on the table.
-/

open List OperationTable

/-- The bookkeeping of a table: `Done` names completed slots, and what a snapshot writes
in two or eight bytes fits them. -/
structure TableInvariant (table : OperationTable) : Prop where
  nodup : table.done.Nodup
  done : ∀ key ∈ table.done, ∃ slot, table.slot? key.povId key.opId = some slot ∧ slot.isDone = true
  watermarks : ∀ povId, table.expiredBefore povId < 2 ^ 64
  results : ∀ povId opId slot, table.slot? povId opId = some slot →
    ∀ bytes ∈ slot.outcome.result, bytes.length < 2 ^ 16
  capped : table.config.resultBytes < 2 ^ 16

/-- What a call may do to an operation it does not name: nothing, or drop its completed
entry under the watermark. -/
structure Keeps (before after : OperationTable) (povId : Uuid) (opId : OperationId) : Prop where
  slot : after.slot? povId opId = before.slot? povId opId ∨
    (after.slot? povId opId = none ∧
      (∃ slot, before.slot? povId opId = some slot ∧ slot.isDone = true) ∧
      opId.timestampMs ≤ after.expiredBefore povId)
  watermark : before.expiredBefore povId ≤ after.expiredBefore povId
  fits : before.expiredBefore povId < 2 ^ 64 → after.expiredBefore povId < 2 ^ 64

/-- Two tables that lookups cannot tell apart. -/
structure SameSlots (before after : OperationTable) : Prop where
  povTable : ∀ povId, after.povTable povId = before.povTable povId
  done : after.done = before.done
  config : after.config = before.config

/-- An operation is settled: its slot, if it has one, is complete with a good outcome,
and if it has none its id is refused. -/
structure Settled (Good : Outcome → Prop) (table : OperationTable) (povId : Uuid)
    (opId : OperationId) : Prop where
  slot : ∀ slot, table.slot? povId opId = some slot → slot.isDone = true ∧ Good slot.outcome
  refused : table.slot? povId opId = none → opId.timestampMs ≤ table.expiredBefore povId

variable {before middle after table : OperationTable} {povId otherPov : Uuid}
  {opId otherOp : OperationId} {Good : Outcome → Prop}

theorem Keeps.refl : Keeps table table povId opId where
  slot := .inl rfl
  watermark := le_rfl
  fits := id

theorem Keeps.trans (first : Keeps before middle povId opId)
    (second : Keeps middle after povId opId) :
    Keeps before after povId opId where
  slot := by
    rcases first.slot with sameFirst | ⟨goneFirst, wasDone, underFirst⟩
    · rcases second.slot with sameSecond | ⟨gone, wasDone, under⟩
      · exact .inl (sameSecond.trans sameFirst)
      · exact .inr ⟨gone, sameFirst ▸ wasDone, under⟩
    · have under := underFirst.trans second.watermark
      rcases second.slot with sameSecond | ⟨gone, _, _⟩
      · exact .inr ⟨sameSecond.trans goneFirst, wasDone, under⟩
      · exact .inr ⟨gone, wasDone, under⟩
  watermark := first.watermark.trans second.watermark
  fits := second.fits ∘ first.fits

theorem SameSlots.slot? (same : SameSlots before after) :
    after.slot? povId opId = before.slot? povId opId := by
  rw [OperationTable.slot?, same.povTable]
  rfl

theorem SameSlots.expiredBefore (same : SameSlots before after) :
    after.expiredBefore povId = before.expiredBefore povId := by
  rw [OperationTable.expiredBefore, same.povTable]
  rfl

theorem SameSlots.keeps (same : SameSlots before after) : Keeps before after povId opId where
  slot := .inl same.slot?
  watermark := same.expiredBefore.ge
  fits := fun lt => same.expiredBefore ▸ lt

theorem SameSlots.invariant (same : SameSlots before after) (inv : TableInvariant before) :
    TableInvariant after where
  nodup := same.done ▸ inv.nodup
  done := fun key mem => by
    rw [same.done] at mem
    rw [same.slot?]
    exact inv.done key mem
  watermarks := fun povId => by
    rw [same.expiredBefore]
    exact inv.watermarks povId
  results := fun povId opId slot found => by
    rw [same.slot?] at found
    exact inv.results povId opId slot found
  capped := same.config ▸ inv.capped

/-- A settled operation stays settled under every call that keeps it. -/
theorem Settled.keeps (settled : Settled Good before povId opId)
    (keeps : Keeps before after povId opId) :
    Settled Good after povId opId where
  slot := fun slot found => by
    rcases keeps.slot with same | ⟨gone, _, _⟩
    · exact settled.slot slot (same ▸ found)
    · simp [gone] at found
  refused := fun missing => by
    rcases keeps.slot with same | ⟨_, _, under⟩
    · exact (settled.refused (same ▸ missing)).trans keeps.watermark
    · exact under

/-- A slot that is not complete is left alone by every call that keeps it. -/
theorem Keeps.inFlight {slot : Slot} (keeps : Keeps before after povId opId)
    (found : before.slot? povId opId = some slot) (notDone : slot.isDone = false) :
    after.slot? povId opId = some slot := by
  rcases keeps.slot with same | ⟨_, ⟨other, otherFound, isDone⟩, _⟩
  · exact same.trans found
  · have sameSlot : other = slot := Option.some.inj (otherFound.symm.trans found)
    simp [sameSlot, notDone] at isDone

/-! ## Writing a slot -/

theorem keeps_setSlot {slot : Slot} (differs : ¬ (otherPov = povId ∧ otherOp = opId)) :
    Keeps table (table.setSlot povId opId slot) otherPov otherOp where
  slot := .inl (by rw [slot?_setSlot, if_neg differs])
  watermark := expiredBefore_setSlot.ge
  fits := fun lt => by rwa [expiredBefore_setSlot]

/-- A slot may be written where no completed one is. -/
theorem TableInvariant.setSlot {slot : Slot} (inv : TableInvariant table)
    (notDone : ∀ found, table.slot? povId opId = some found → found.isDone = false)
    (small : ∀ bytes ∈ slot.outcome.result, bytes.length < 2 ^ 16) :
    TableInvariant (table.setSlot povId opId slot) where
  nodup := inv.nodup
  done := fun key mem => by
    obtain ⟨found, isFound, isDone⟩ := inv.done key mem
    have differs : ¬ (key.povId = povId ∧ key.opId = opId) := by
      rintro ⟨rfl, rfl⟩
      simp [notDone found isFound] at isDone
    exact ⟨found, by rw [slot?_setSlot, if_neg differs, isFound], isDone⟩
  watermarks := fun otherPov => by
    rw [expiredBefore_setSlot]
    exact inv.watermarks otherPov
  results := fun otherPov otherOp found => by
    rw [slot?_setSlot]
    split
    case isTrue =>
      intro isSlot
      exact Option.some.inj isSlot ▸ small
    case isFalse => exact inv.results otherPov otherOp found
  capped := inv.capped

/-! ## Retention -/

section Retention

variable {key : DoneKey} {rest : List DoneKey} {slot : Slot}

section

variable (present : table.slot? key.povId key.opId = some slot)

include present

theorem povTable_dropOldest : (table.dropOldest key rest).povTable povId =
      if povId = key.povId then
        { slotByOp := (table.povTable key.povId).slotByOp.erase key.opId
          expiredBeforeMs :=
            max (table.povTable key.povId).expiredBeforeMs key.opId.timestampMs }
      else
        table.povTable povId := by
  cases lookup : table.tableByPov.lookup key.povId with
  | none =>
    rw [slot?, povTable, lookup] at present
    simp at present
  | some pov =>
    by_cases same : povId = key.povId
    · subst same
      simp [dropOldest, povTable, lookup, AList.lookup_insert]
    · simp [dropOldest, povTable, lookup, same, AList.lookup_insert_ne same]

theorem expiredBefore_dropOldest : (table.dropOldest key rest).expiredBefore povId =
      if povId = key.povId then
        max (table.expiredBefore povId) key.opId.timestampMs
      else
        table.expiredBefore povId := by
  rw [expiredBefore, povTable_dropOldest present]
  split
  case isTrue same => rw [same]; rfl
  case isFalse => rfl

theorem slot?_dropOldest : (table.dropOldest key rest).slot? povId opId =
      if povId = key.povId ∧ opId = key.opId then none
      else table.slot? povId opId := by
  rw [slot?, povTable_dropOldest present]
  by_cases samePov : povId = key.povId
  · by_cases sameOp : opId = key.opId
    · subst samePov sameOp
      simp [AList.lookup_erase]
    · simp [samePov, sameOp, AList.lookup_erase_ne sameOp, slot?]
  · simp [samePov, slot?]

/-- Dropping a finished operation expires it. -/
theorem keeps_dropOldest (isDone : slot.isDone = true) :
    Keeps table (table.dropOldest key rest) povId opId where
  slot := by
    rw [slot?_dropOldest present, expiredBefore_dropOldest present]
    by_cases same : povId = key.povId ∧ opId = key.opId
    · obtain ⟨rfl, rfl⟩ := same
      exact .inr ⟨by simp, ⟨slot, present, isDone⟩, by simp⟩
    · exact .inl (if_neg same)
  watermark := by
    rw [expiredBefore_dropOldest present]
    split
    case isTrue => exact le_max_left ..
    case isFalse => exact le_rfl
  fits := fun lt => by
    rw [expiredBefore_dropOldest present]
    split
    case isTrue => exact max_lt lt key.opId.timestampMs_lt
    case isFalse => exact lt

end

theorem TableInvariant.dropOldest (inv : TableInvariant table) (oldest : table.done = key :: rest) :
    TableInvariant (table.dropOldest key rest) := by
  obtain ⟨slot, present, isDone⟩ := inv.done key (by simp [oldest])
  have nodup := inv.nodup
  rw [oldest, nodup_cons] at nodup
  constructor
  case nodup => exact nodup.2
  case done =>
    intro other mem
    obtain ⟨found, isFound, foundDone⟩ := inv.done other (by
      rw [oldest]
      exact mem_cons_of_mem _ mem)
    have differs : ¬ (other.povId = key.povId ∧ other.opId = key.opId) := by
      rintro ⟨samePov, sameOp⟩
      have same : other = key := by
        cases other
        cases key
        simp_all
      exact nodup.1 (same ▸ mem)
    exact ⟨found, by rw [slot?_dropOldest present, if_neg differs, isFound], foundDone⟩
  case watermarks =>
    intro povId
    have keeps : Keeps table (table.dropOldest key rest) povId key.opId :=
      keeps_dropOldest present isDone
    exact keeps.fits (inv.watermarks povId)
  case results =>
    intro povId opId found isFound
    rw [slot?_dropOldest present] at isFound
    split at isFound
    case isTrue => contradiction
    case isFalse => exact inv.results povId opId found isFound
  case capped => exact inv.capped

/-- `Prune` keeps every operation: what it drops goes under a watermark. -/
theorem pruneLoop_keeps
    (cutoff : Nat) (done : List DoneKey) (table : OperationTable) (all : table.done = done)
    (inv : TableInvariant table) :
    TableInvariant (pruneLoop cutoff done table) ∧ ∀ povId opId,
        Keeps table (pruneLoop cutoff done table) povId opId := by
  induction done generalizing table with
  | nil => exact ⟨inv, fun _ _ => .refl⟩
  | cons key rest ih =>
    rw [pruneLoop]
    split
    case isTrue => exact ⟨inv, fun _ _ => .refl⟩
    case isFalse =>
      obtain ⟨slot, present, isDone⟩ := inv.done key (by simp [all])
      obtain ⟨afterInv, keeps⟩ := ih (table.dropOldest key rest) rfl (inv.dropOldest all)
      exact ⟨afterInv, fun povId opId =>
        (keeps_dropOldest present isDone).trans (keeps povId opId)⟩

/-- Pruning keeps the table in order. -/
theorem TableInvariant.prune (inv : TableInvariant table) (now : Nat) :
    TableInvariant (table.prune now) :=
  (pruneLoop_keeps _ _ table rfl inv).1

theorem TableInvariant.keeps_prune (inv : TableInvariant table) (now : Nat) :
    Keeps table (table.prune now) povId opId :=
  (pruneLoop_keeps _ _ table rfl inv).2 povId opId

end Retention

/-! ## The calls -/

section Calls

variable {outcome : Outcome} {hash : UInt64} {now : Nat}

/-- `Reserve` makes a slot for an operation that has none, or changes no slot. -/
theorem reserve_cases (table : OperationTable) (povId : Uuid) (opId : OperationId) (hash : UInt64)
    (now : Nat) :
    (table.slot? povId opId = none ∧ ¬ opId.timestampMs ≤ table.expiredBefore povId ∧
      table.reserve povId opId.val hash now =
        (table.setSlot povId opId { outcome := { hash } }, .isNew)) ∨
    (SameSlots table (table.reserve povId opId.val hash now).1 ∧
      (table.reserve povId opId.val hash now).2 ≠ .isNew) := by
  have touched : SameSlots table (table.setPov povId (table.povTable povId)) :=
    ⟨fun _ => povTable_touch, rfl, rfl⟩
  unfold reserve
  rw [OperationId.ofUuid?_val]
  dsimp only
  split
  case h_1 slot found =>
    right
    split
    case isTrue => exact ⟨touched, by simp⟩
    case isFalse =>
      split
      case isTrue | isFalse => exact ⟨touched, by simp⟩
  case h_2 missing =>
    split
    case isTrue => exact .inr ⟨touched, by simp⟩
    case isFalse fresh =>
      exact .inl ⟨missing, fun under => fresh (.inl under), rfl⟩

/-- A settled operation is answered with its outcome, or refused; it is not new. -/
theorem Settled.reserve (settled : Settled Good table povId opId) (hash : UInt64) (now : Nat) :
    (∃ outcome, Good outcome ∧ outcome.hash = hash ∧
      (table.reserve povId opId.val hash now).2 = .known outcome) ∨
    (∃ outcome, Good outcome ∧ outcome.hash ≠ hash ∧
      (table.reserve povId opId.val hash now).2 = .refused .idReused) ∨
    (table.reserve povId opId.val hash now).2 = .refused .expired := by
  unfold OperationTable.reserve
  rw [OperationId.ofUuid?_val]
  dsimp only
  split
  case h_1 slot found =>
    obtain ⟨isDone, good⟩ := settled.slot slot found
    split
    case isTrue differs => exact .inr (.inl ⟨slot.outcome, good, differs, rfl⟩)
    case isFalse same =>
      exact .inl ⟨slot.outcome, good, not_not.mp same, rfl⟩
  case h_2 missing =>
    rw [if_pos (Or.inl (settled.refused missing))]
    exact .inr (.inr rfl)

/-- A request that still runs answers its retry. -/
theorem reserve_inFlight {slot : Slot} (now : Nat) (found : table.slot? povId opId = some slot)
    (notDone : slot.isDone = false) :
    (table.reserve povId opId.val slot.outcome.hash now).2 = .refused .inFlight := by
  simp [reserve, found, notDone]

theorem TableInvariant.reserve (inv : TableInvariant table) :
    TableInvariant (table.reserve povId opId.val hash now).1 := by
  rcases reserve_cases table povId opId hash now with
    ⟨missing, _, isNew⟩ | ⟨same, _⟩
  · rw [isNew]
    refine inv.setSlot ?_ ?_
    · simp [missing]
    · simp
  · exact same.invariant inv

/-- The table `Complete` leaves before it prunes. -/
def OperationTable.stored (table : OperationTable) (povId : Uuid) (opId : OperationId)
    (outcome : Outcome) : OperationTable :=
  { table.setSlot povId opId { isDone := true, outcome, floorLsn := 0 } with
    done := insertDone ⟨povId, opId⟩ table.done }

theorem slot?_stored : (table.stored povId opId outcome).slot? otherPov otherOp =
      if otherPov = povId ∧ otherOp = opId then
        some { isDone := true, outcome, floorLsn := 0 }
      else
        table.slot? otherPov otherOp :=
  slot?_setSlot

theorem expiredBefore_stored : (table.stored povId opId outcome).expiredBefore otherPov =
      table.expiredBefore otherPov :=
  expiredBefore_setSlot

section Completion

variable (inv : TableInvariant table) (small : ∀ bytes ∈ outcome.result, bytes.length < 2 ^ 16)

include inv small

/-- A stored outcome keeps the table in order. -/
theorem TableInvariant.stored : TableInvariant (table.stored povId opId outcome) where
  nodup := nodup_insertDone inv.nodup
  done := fun key mem => by
    rw [slot?_stored]
    rcases mem_insertDone.mp mem with rfl | mem
    · exact ⟨_, if_pos ⟨rfl, rfl⟩, rfl⟩
    · split
      case isTrue => exact ⟨_, rfl, rfl⟩
      case isFalse => exact inv.done key mem
  watermarks := fun otherPov => by
    rw [expiredBefore_stored]
    exact inv.watermarks otherPov
  results := fun otherPov otherOp found => by
    rw [slot?_stored]
    split
    case isTrue =>
      intro isSlot
      exact Option.some.inj isSlot ▸ small
    case isFalse => exact inv.results otherPov otherOp found
  capped := inv.capped

/-- So does a completion. -/
theorem TableInvariant.complete : TableInvariant (table.complete povId opId outcome now) :=
  (inv.stored small).prune now

/-- A completion leaves the others. -/
theorem TableInvariant.keeps_complete (differs : ¬ (otherPov = povId ∧ otherOp = opId)) :
    Keeps table (table.complete povId opId outcome now) otherPov otherOp :=
  Keeps.trans
    ⟨.inl (slot?_stored.trans (if_neg differs)), expiredBefore_stored.ge,
      fun lt => expiredBefore_stored.trans_lt lt⟩
    ((inv.stored small).keeps_prune now)

/-- A completed operation is settled with its outcome. -/
theorem TableInvariant.settled_complete (good : Good outcome) :
    Settled Good (table.complete povId opId outcome now) povId opId := by
  have stored : Settled Good (table.stored povId opId outcome) povId opId := by
    constructor
    case slot =>
      intro slot found
      rw [slot?_stored, if_pos ⟨rfl, rfl⟩] at found
      cases found
      exact ⟨rfl, good⟩
    case refused => simp [slot?_stored]
  exact stored.keeps ((inv.stored small).keeps_prune now)

end Completion

/-- `BeginCommit` marks a slot that is not complete, or changes nothing. -/
theorem beginCommit_cases (table : OperationTable) (povId : Uuid) (opId : OperationId)
    (floorLsn : Nat) :
    (∃ slot, table.slot? povId opId = some slot ∧ slot.isDone = false ∧
      table.beginCommit povId opId floorLsn =
        table.setSlot povId opId { slot with floorLsn := max floorLsn 1 }) ∨
    ((∀ slot, table.slot? povId opId = some slot → slot.isDone = true) ∧
      table.beginCommit povId opId floorLsn = table) := by
  unfold beginCommit
  cases found : table.slot? povId opId with
  | none => exact .inr ⟨by simp, rfl⟩
  | some slot =>
    cases isDone : slot.isDone with
    | false => exact .inl ⟨slot, rfl, isDone, by simp [isDone]⟩
    | true => exact .inr ⟨by simp [isDone], by simp [isDone]⟩

theorem TableInvariant.beginCommit {floorLsn : Nat} (inv : TableInvariant table) :
    TableInvariant (table.beginCommit povId opId floorLsn) := by
  rcases beginCommit_cases table povId opId floorLsn with
    ⟨slot, found, notDone, marked⟩ | ⟨_, unchanged⟩
  · rw [marked]
    refine inv.setSlot ?_ (inv.results povId opId slot found)
    intro other otherFound
    obtain rfl := Option.some.inj (otherFound.symm.trans found)
    exact notDone
  · rwa [unchanged]

theorem keeps_beginCommit {floorLsn : Nat} (differs : ¬ (otherPov = povId ∧ otherOp = opId)) :
    Keeps table (table.beginCommit povId opId floorLsn) otherPov otherOp := by
  rcases beginCommit_cases table povId opId floorLsn with
    ⟨slot, found, notDone, marked⟩ | ⟨_, unchanged⟩
  · rw [marked]
    exact keeps_setSlot differs
  · rw [unchanged]
    exact .refl

/-- Forgetting an empty table without a watermark changes nothing a lookup sees. -/
theorem povTable_release : (table.release povId opId).povTable otherPov =
      if otherPov = povId then (table.povTable povId).release opId
      else table.povTable otherPov := by
  unfold release
  cases lookup : table.tableByPov.lookup povId with
  | none =>
    have missing : table.povTable povId = {} := by
      simp [povTable, lookup]
    have noSlot : PovTable.release {} opId = {} := by simp [PovTable.release]
    by_cases same : otherPov = povId
    · rw [if_pos same, same, missing, noSlot]
    · rw [if_neg same]
  | some pov =>
    have present : table.povTable povId = pov := by
      simp [povTable, lookup]
    rw [present]
    dsimp only
    split_ifs with empty same same
    · have noSlots : pov.release opId = {} := by
        cases left : pov.release opId with
        | mk slots expired =>
          rw [left] at empty
          obtain ⟨noSlots, rfl⟩ := empty
          rw [show slots = ∅ from AList.ext noSlots]
      subst same
      simp [povTable, AList.lookup_erase, noSlots]
    · simp [povTable, AList.lookup_erase_ne same]
    · rw [povTable_setPov, if_pos same]
    · rw [povTable_setPov, if_neg same]

theorem expiredBefore_release : (table.release povId opId).expiredBefore otherPov =
      table.expiredBefore otherPov := by
  have kept : ∀ pov : PovTable, (pov.release opId).expiredBeforeMs = pov.expiredBeforeMs := by
    intro pov
    unfold PovTable.release
    split
    case h_1 => rfl
    case h_2 => split <;> rfl
  rw [expiredBefore, povTable_release]
  split
  case isTrue same => rw [kept, same]; rfl
  case isFalse => rfl

/-- `Release` erases a slot that is not complete, and no other. -/
theorem slot?_release : (table.release povId opId).slot? otherPov otherOp =
      if otherPov = povId ∧ otherOp = opId ∧
          ∃ slot ∈ table.slot? povId opId, slot.isDone = false then
        none
      else
        table.slot? otherPov otherOp := by
  rw [slot?, povTable_release]
  by_cases samePov : otherPov = povId
  · subst samePov
    rw [if_pos rfl]
    unfold PovTable.release
    cases found : (table.povTable otherPov).slotByOp.lookup opId with
    | none => simp [slot?, found]
    | some slot =>
      cases isDone : slot.isDone with
      | true => simp [slot?, found, isDone]
      | false =>
        by_cases sameOp : otherOp = opId
        · subst sameOp
          simp [slot?, found, isDone, AList.lookup_erase]
        · simp [slot?, sameOp, isDone, AList.lookup_erase_ne sameOp]
  · simp [samePov, slot?]

/-- A release leaves the others and what is done. -/
theorem keeps_release
    (kept : ¬ (otherPov = povId ∧ otherOp = opId) ∨
      ∀ slot ∈ table.slot? povId opId, slot.isDone = true) :
    Keeps table (table.release povId opId) otherPov otherOp where
  slot := by
    rw [slot?_release, if_neg]
    · exact .inl rfl
    · rintro ⟨samePov, sameOp, slot, found, notDone⟩
      rcases kept with differs | isDone
      · exact differs ⟨samePov, sameOp⟩
      · simp [isDone slot found] at notDone
  watermark := expiredBefore_release.ge
  fits := fun lt => expiredBefore_release.trans_lt lt

theorem done_release : (table.release povId opId).done = table.done := by
  unfold release
  split
  case h_1 => rfl
  case h_2 => dsimp only; split <;> rfl

theorem config_release : (table.release povId opId).config = table.config := by
  unfold release
  split
  case h_1 => rfl
  case h_2 => dsimp only; split <;> rfl

theorem TableInvariant.release (inv : TableInvariant table) :
    TableInvariant (table.release povId opId) where
  nodup := by
    rw [done_release]
    exact inv.nodup
  done := fun key mem => by
    rw [done_release] at mem
    obtain ⟨slot, found, isDone⟩ := inv.done key mem
    refine ⟨slot, ?_, isDone⟩
    rw [slot?_release, if_neg, found]
    rintro ⟨rfl, rfl, other, otherFound, notDone⟩
    obtain rfl := Option.some.inj (otherFound.symm.trans found)
    simp [isDone] at notDone
  watermarks := fun otherPov => by
    rw [expiredBefore_release]
    exact inv.watermarks otherPov
  results := fun otherPov otherOp slot found => by
    rw [slot?_release] at found
    split at found
    case isTrue => contradiction
    case isFalse => exact inv.results otherPov otherOp slot found
  capped := by
    rw [config_release]
    exact inv.capped

/-- `HeadFloor` is at or below the floor of every slot that is committing. -/
theorem headFloor_le
    {slot : Slot} (found : table.slot? povId opId = some slot) (notDone : slot.isDone = false)
    (committing : slot.floorLsn ≠ 0) :
    table.headFloor ≤ slot.floorLsn := by
  have listed : slot.floorLsn ∈ table.slotFloors := by
    unfold slot? povTable at found
    cases lookup : table.tableByPov.lookup povId with
    | none => simp [lookup] at found
    | some pov =>
      rw [lookup, Option.getD_some] at found
      refine mem_flatMap.mpr ⟨⟨povId, pov⟩, AList.mem_lookup_iff.mp lookup, ?_⟩
      refine mem_filterMap.mpr ⟨⟨opId, slot⟩, AList.mem_lookup_iff.mp found, ?_⟩
      simp [notDone, committing]
  have least : ∀ floors : List Nat, slot.floorLsn ∈ floors →
      floors.foldr min (2 ^ 64 - 1) ≤ slot.floorLsn := by
    intro floors mem
    induction floors with
    | nil => contradiction
    | cons first others ih =>
      rw [foldr_cons]
      rcases mem_cons.mp mem with same | later
      · exact same ▸ min_le_left ..
      · exact (min_le_right ..).trans (ih later)
  exact least _ (mem_append_right _ listed)

end Calls

end Orly
