import Orly.ForkWatch

/-!
# The watch reports exactly the conflicts

What a watch is for is said by marks: keys changed from outside the chain, keys that the
POV's own updates overwrote, and forks.  A change of a key is outstanding until the POV
overwrites the key or is forked again.  As long as the watch has not overflowed, it records
the outstanding keys.
-/

namespace Orly

open List

/-- What happened to a key, as the POV under review sees it. -/
inductive Mark (Key : Type) where
  | changed (key : Key)
  | overwritten (key : Key)
  | forked

variable {Id Key : Type}

/-- The key was changed, and since then neither overwritten by the POV nor forked from. -/
def Outstanding (marks : List (Mark Key)) (key : Key) : Prop :=
  ∃ older newer, marks = older ++ .changed key :: newer ∧
    Mark.overwritten key ∉ newer ∧ Mark.forked ∉ newer

namespace Outstanding

variable {marks : List (Mark Key)} {key other : Key}

theorem not_nil : ¬ Outstanding ([] : List (Mark Key)) key := by
  rintro ⟨older, newer, same, -⟩
  have lengths := congrArg List.length same
  simp at lengths

/-- What one more mark does. -/
theorem concat_iff {mark : Mark Key} : Outstanding (marks ++ [mark]) key ↔ mark = .changed key ∨
        Outstanding marks key ∧ mark ≠ .overwritten key ∧ mark ≠ .forked := by
  constructor
  · rintro ⟨older, newer, same, notOverwritten, notForked⟩
    rcases eq_nil_or_concat newer with rfl | ⟨newer, last, rfl⟩
    · have isLast := append_inj_right' same rfl
      exact Or.inl (List.cons.inj isLast).1
    · rw [concat_eq_append] at same notOverwritten notForked
      rw [← cons_append, ← append_assoc] at same
      obtain ⟨isMarks, isLast⟩ := append_inj' same rfl
      obtain rfl := (List.cons.inj isLast).1
      simp only [mem_append, mem_singleton, not_or] at notOverwritten notForked
      exact Or.inr ⟨⟨older, newer, isMarks, notOverwritten.1, notForked.1⟩,
        Ne.symm notOverwritten.2, Ne.symm notForked.2⟩
  · rintro (rfl | ⟨⟨older, newer, rfl, notOverwritten, notForked⟩, differs, notFork⟩)
    · exact ⟨marks, [], rfl, not_mem_nil, not_mem_nil⟩
    · refine ⟨older, newer ++ [mark], by simp, ?_, ?_⟩
      · simp only [mem_append, mem_singleton, not_or]
        exact ⟨notOverwritten, Ne.symm differs⟩
      · simp only [mem_append, mem_singleton, not_or]
        exact ⟨notForked, Ne.symm notFork⟩

/-- A change makes its key outstanding. -/
theorem changed_iff :
    Outstanding (marks ++ [.changed other]) key ↔ other = key ∨ Outstanding marks key := by
  rw [concat_iff]
  simp

/-- An overwrite settles its key. -/
theorem overwritten_iff : Outstanding (marks ++ [.overwritten other]) key ↔
      other ≠ key ∧ Outstanding marks key := by
  rw [concat_iff]
  simp [and_comm]

/-- A new fork point leaves nothing outstanding. -/
theorem not_forked : ¬ Outstanding (marks ++ [.forked]) key := by
  rw [concat_iff]
  simp

/-- What became outstanding was changed in between. -/
theorem changed_mem {later : List (Mark Key)} (before : ¬ Outstanding marks key)
    (after : Outstanding (marks ++ later) key) :
    Mark.changed key ∈ later := by
  induction later using List.reverseRecOn with
  | nil => rw [append_nil] at after; exact absurd after before
  | append_singleton later mark ih =>
    rw [← append_assoc, concat_iff] at after
    rcases after with rfl | ⟨earlier, -, -⟩
    · exact mem_append_right _ mem_cons_self
    · exact mem_append_left _ (ih earlier)

end Outstanding

/-- The marks of an update of the POV that arrives. -/
def arrivalMarks (update : List (WatchedEntry Key)) : List (Mark Key) :=
  (update.filter fun entry => entry.mutator = .assign).map fun entry => .overwritten entry.key

/-- The marks that an event leaves. -/
def eventMarks [DecidableEq Id] [Zero Id] (povId : Id) (chain : List Id) :
    WatchEvent Id Key → List (Mark Key)
  | .append update promotedFrom _ =>
    if promotedFrom = povId then
      arrivalMarks update
    else if promotedFrom ≠ 0 ∧ promotedFrom ∈ chain then
      []
    else
      update.map fun entry => .changed entry.key
  | .refork => [.forked]
  | _ => []

def runMarks [DecidableEq Id] [Zero Id] (povId : Id) (chain : List Id)
    (events : List (WatchEvent Id Key)) : List (Mark Key) :=
  events.flatMap (eventMarks povId chain)

open Classical in
/-- The entries of an arriving update that conflict: its overwrites and deletes of keys with
an outstanding change, an earlier entry of the update counting as an overwrite. -/
noncomputable def due (marks : List (Mark Key)) : List (WatchedEntry Key) → List (WatchedEntry Key)
  | [] => []
  | entry :: entries =>
    if entry.mutator = .assign then
      (if Outstanding marks entry.key then [entry] else []) ++
        due (marks ++ [.overwritten entry.key]) entries
    else
      due marks entries

/-- The overwrites and deletes of an update. -/
def overwrites (update : List (WatchedEntry Key)) : List (WatchedEntry Key) :=
  update.filter fun entry => entry.mutator = .assign

theorem due_sublist (marks : List (Mark Key)) (update : List (WatchedEntry Key)) :
    (due marks update).Sublist (overwrites update) := by
  induction update generalizing marks with
  | nil => exact List.Sublist.refl _
  | cons entry entries ih =>
    rw [due, overwrites]
    by_cases assigns : entry.mutator = .assign
    · rw [if_pos assigns, filter_cons_of_pos (by simpa using assigns)]
      split
      case isTrue => exact (ih _).cons_cons entry
      case isFalse => exact (ih _).cons entry
    · rw [if_neg assigns, filter_cons_of_neg (by simpa using assigns)]
      exact ih _

/-- Elements that have been dropped are not missed later. -/
theorem rtake_rtake_append {α : Type} (bound : Nat) (items later : List α) :
    (items.rtake bound ++ later).rtake bound = (items ++ later).rtake bound := by
  simp only [rtake_eq_reverse_take_reverse, reverse_append, reverse_reverse,
    List.take_append, take_take]
  rw [min_eq_left (Nat.sub_le ..)]

namespace ForkWatch

/-- The watch records the outstanding keys, unless it has overflowed. -/
structure Tracks (watch : ForkWatch Id Key) (marks : List (Mark Key)) : Prop where
  changed : watch.overflowed = false → ∀ key, key ∈ watch.changed ↔ Outstanding marks key
  bounded : watch.conflicts.length ≤ maxConflicts

/-- What no append changes. -/
structure SameSettings (before after : ForkWatch Id Key) : Prop where
  povId : after.povId = before.povId
  chain : after.chain = before.chain
  mode : after.mode = before.mode
  promotingForced : after.promotingForced = before.promotingForced

theorem SameSettings.refl (watch : ForkWatch Id Key) : SameSettings watch watch :=
  ⟨rfl, rfl, rfl, rfl⟩

theorem SameSettings.trans
    {first second third : ForkWatch Id Key} (before : SameSettings first second)
    (after : SameSettings second third) :
    SameSettings first third :=
  ⟨after.povId.trans before.povId, after.chain.trans before.chain,
    after.mode.trans before.mode, after.promotingForced.trans before.promotingForced⟩

theorem conflicts_addConflict
    {watch : ForkWatch Id Key} (bounded : watch.conflicts.length ≤ maxConflicts) (key : Key)
    (isDelete raced : Bool) :
    (watch.addConflict key isDelete raced).conflicts =
      (watch.conflicts ++
        [{ number := watch.conflictCount + 1, key, isDelete, raced }] : List (Conflict Key)).rtake
          maxConflicts := by
  simp only [addConflict, List.rtake, length_append, length_singleton]
  split
  case isTrue tooMany =>
    rw [show watch.conflicts.length + 1 - maxConflicts = 1 by omega, drop_one]
  case isFalse =>
    rw [show watch.conflicts.length + 1 - maxConflicts = 0 by omega, drop_zero]

theorem length_rtake_le {α : Type} (bound : Nat) (items : List α) :
    (items.rtake bound).length ≤ bound := by
  rw [List.rtake, length_drop]
  omega

variable [DecidableEq Key]

/-- Whether a conflict found on arrival is raced. -/
def racedOnArrival (watch : ForkWatch Id Key) : Bool :=
  decide (watch.mode = .refuse ∧ watch.promotingForced = false)

/-- The watch after an entry's conflict has been added. -/
def settle (watch : ForkWatch Id Key) (entry : WatchedEntry Key) : ForkWatch Id Key :=
  let added := watch.addConflict entry.key entry.isTombstone watch.racedOnArrival
  { added with changed := added.changed.erase entry.key }

section Arrival

variable {watch : ForkWatch Id Key} {marks : List (Mark Key)} {entry : WatchedEntry Key}
  {entries update : List (WatchedEntry Key)} {room : Option Nat}

theorem tracks_settle (tracks : Tracks watch marks) :
    Tracks (watch.settle entry) (marks ++ [.overwritten entry.key]) where
  changed := by
    intro notOverflowed key
    have same := tracks.changed notOverflowed key
    show key ∈ watch.changed.erase entry.key ↔ _
    rw [Finset.mem_erase, same, Outstanding.overwritten_iff, ne_comm]
  bounded := by
    show (watch.addConflict _ _ _).conflicts.length ≤ _
    rw [conflicts_addConflict tracks.bounded]
    exact length_rtake_le ..

omit [DecidableEq Key] in
/-- An overwrite of a key that is not recorded changes nothing. -/
theorem Tracks.pass (tracks : Tracks watch marks)
    (unchanged : ¬ (entry.key ∈ watch.changed ∨ watch.overflowed = true)) :
    Tracks watch (marks ++ [.overwritten entry.key]) where
  changed := by
    intro notOverflowed key
    rw [Outstanding.overwritten_iff, tracks.changed notOverflowed key]
    refine ⟨fun isChanged => ⟨?_, isChanged⟩, And.right⟩
    rintro rfl
    exact unchanged (Or.inl ((tracks.changed notOverflowed _).mpr isChanged))
  bounded := tracks.bounded

theorem arrive_cons_other (notAssign : entry.mutator ≠ .assign) :
    watch.arrive room (entry :: entries) = watch.arrive room entries := by
  rw [arrive, if_pos notAssign]

theorem arrive_cons_pass (assigns : entry.mutator = .assign)
    (unchanged : ¬ (entry.key ∈ watch.changed ∨ watch.overflowed = true)) :
    watch.arrive room (entry :: entries) = watch.arrive room entries := by
  rw [arrive, if_neg (not_not.mpr assigns), if_neg unchanged]

theorem arrive_cons_settle (assigns : entry.mutator = .assign)
    (changed : entry.key ∈ watch.changed ∨ watch.overflowed = true) (hasRoom : room ≠ some 0) :
    watch.arrive room (entry :: entries) =
      (watch.settle entry).arrive (room.map Nat.pred) entries := by
  rw [arrive, if_neg (not_not.mpr assigns), if_pos changed, if_neg hasRoom]
  rfl

theorem arrive_cons_full (assigns : entry.mutator = .assign)
    (changed : entry.key ∈ watch.changed ∨ watch.overflowed = true) :
    watch.arrive (some 0) (entry :: entries) =
      { watch with conflictCount := watch.conflictCount + 1, overflowed := true } := by
  rw [arrive, if_neg (not_not.mpr assigns), if_pos changed, if_pos rfl]

omit [DecidableEq Key] in
theorem arrivalMarks_cons_assign (assigns : entry.mutator = .assign) :
    arrivalMarks (entry :: entries) = .overwritten entry.key :: arrivalMarks entries := by
  rw [arrivalMarks, filter_cons_of_pos (by simpa using assigns)]
  rfl

omit [DecidableEq Key] in
theorem arrivalMarks_cons_other (notAssign : entry.mutator ≠ .assign) :
    arrivalMarks (entry :: entries) = arrivalMarks entries := by
  rw [arrivalMarks, filter_cons_of_neg (by simpa using notAssign)]
  rfl

/-- An arriving update overwrites the keys it assigns. -/
theorem arrive_keeps (tracks : Tracks watch marks) :
    Tracks (watch.arrive room update) (marks ++ arrivalMarks update) ∧
      SameSettings watch (watch.arrive room update) := by
  induction update generalizing watch marks room with
  | nil =>
    rw [show arrivalMarks ([] : List (WatchedEntry Key)) = [] from rfl, append_nil]
    exact ⟨tracks, SameSettings.refl watch⟩
  | cons entry entries ih =>
    by_cases assigns : entry.mutator = .assign
    · rw [arrivalMarks_cons_assign assigns, append_cons]
      by_cases changed : entry.key ∈ watch.changed ∨ watch.overflowed = true
      · by_cases full : room = some 0
        · subst full
          rw [arrive_cons_full assigns changed]
          exact ⟨⟨fun notOverflowed => Bool.noConfusion notOverflowed, tracks.bounded⟩,
            ⟨rfl, rfl, rfl, rfl⟩⟩
        · rw [arrive_cons_settle assigns changed full]
          have settled : SameSettings watch (watch.settle entry) := ⟨rfl, rfl, rfl, rfl⟩
          exact (ih (tracks_settle tracks)).imp_right settled.trans
      · rw [arrive_cons_pass assigns changed]
        exact ih (tracks.pass changed)
    · rw [arrivalMarks_cons_other assigns, arrive_cons_other assigns]
      exact ih tracks

/-- The conflicts that entries are recorded as, after `count` others. -/
def numbered (raced : Bool) : Nat → List (WatchedEntry Key) → List (Conflict Key)
  | _, [] => []
  | count, entry :: entries =>
    { number := count + 1, key := entry.key, isDelete := entry.isTombstone, raced } ::
      numbered raced (count + 1) entries

/-- The watch has recorded these entries as conflicts, and keeps the last of them. -/
structure Recorded (before after : ForkWatch Id Key) (raced : Bool)
    (found : List (WatchedEntry Key)) : Prop where
  count : after.conflictCount = before.conflictCount + found.length
  conflicts : after.conflicts =
    (before.conflicts ++ numbered raced before.conflictCount found).rtake maxConflicts

omit [DecidableEq Key] in
theorem Recorded.nil (bounded : watch.conflicts.length ≤ maxConflicts) (raced : Bool) :
    Recorded watch watch raced [] where
  count := rfl
  conflicts := by
    rw [numbered, append_nil, List.rtake, Nat.sub_eq_zero_of_le bounded, drop_zero]

theorem Recorded.cons {after : ForkWatch Id Key} {found : List (WatchedEntry Key)}
    (bounded : watch.conflicts.length ≤ maxConflicts)
    (recorded : Recorded (watch.settle entry) after watch.racedOnArrival found) :
    Recorded watch after watch.racedOnArrival (entry :: found) where
  count := by
    rw [recorded.count, length_cons, ← Nat.add_assoc, Nat.add_right_comm]
    rfl
  conflicts := by
    have added : (watch.settle entry).conflicts =
        (watch.addConflict entry.key entry.isTombstone watch.racedOnArrival).conflicts := rfl
    have count : (watch.settle entry).conflictCount = watch.conflictCount + 1 := rfl
    rw [recorded.conflicts, added, conflicts_addConflict bounded, rtake_rtake_append, count,
      append_assoc]
    rfl

/-- When the watch has not overflowed, the conflicts of an arriving update are recorded. -/
theorem recorded_arrive (tracks : Tracks watch marks) (notOverflowed : watch.overflowed = false) :
    Recorded watch (watch.arrive none update) watch.racedOnArrival (due marks update) := by
  induction update generalizing watch marks with
  | nil => exact Recorded.nil tracks.bounded _
  | cons entry entries ih =>
    rw [due]
    split
    case isTrue assigns =>
      have isOutstanding := tracks.changed notOverflowed entry.key
      split
      case isTrue outstanding =>
        rw [arrive_cons_settle assigns (Or.inl (isOutstanding.mpr outstanding))
          (Option.some_ne_none 0).symm]
        exact (ih (tracks_settle tracks) notOverflowed).cons tracks.bounded
      case isFalse notOutstanding =>
        have unchanged : ¬ (entry.key ∈ watch.changed ∨ watch.overflowed = true) := by
          rw [isOutstanding, notOverflowed]
          simpa using notOutstanding
        rw [arrive_cons_pass assigns unchanged]
        exact ih (tracks.pass unchanged) notOverflowed
    case isFalse notAssign =>
      rw [arrive_cons_other notAssign]
      exact ih tracks notOverflowed

/-- When it has, every overwrite and delete is. -/
theorem recorded_arrive_overflowed (bounded : watch.conflicts.length ≤ maxConflicts)
    (overflowed : watch.overflowed = true) :
    Recorded watch (watch.arrive none update) watch.racedOnArrival (overwrites update) := by
  induction update generalizing watch with
  | nil => exact Recorded.nil bounded _
  | cons entry entries ih =>
    rw [overwrites]
    by_cases assigns : entry.mutator = .assign
    · rw [filter_cons_of_pos (by simpa using assigns),
        arrive_cons_settle assigns (Or.inr overflowed) (Option.some_ne_none 0).symm]
      have stillBounded : (watch.settle entry).conflicts.length ≤ maxConflicts := by
        show (watch.addConflict _ _ _).conflicts.length ≤ _
        rw [conflicts_addConflict bounded]
        exact length_rtake_le ..
      exact (ih stillBounded overflowed).cons bounded
    · rw [filter_cons_of_neg (by simpa using assigns), arrive_cons_other assigns]
      exact ih bounded overflowed

end Arrival

section Appends

variable {watch : ForkWatch Id Key} {marks : List (Mark Key)}
  {update : List (WatchedEntry Key)} {room : Option Nat}

/-- An update from outside is recorded, or the watch overflows. -/
theorem record_keeps (tracks : Tracks watch marks) (notOverflowed : watch.overflowed = false) :
    Tracks (watch.record room update) (marks ++ update.map fun entry => .changed entry.key) ∧
      SameSettings watch (watch.record room update) := by
  induction update generalizing watch marks room with
  | nil =>
    rw [map_nil, append_nil]
    exact ⟨tracks, SameSettings.refl watch⟩
  | cons entry entries ih =>
    have overflows : Tracks { watch with overflowed := true }
          (marks ++ (entry :: entries).map fun entry => .changed entry.key) ∧
        SameSettings watch { watch with overflowed := true } :=
      ⟨⟨fun isFalse => Bool.noConfusion isFalse, tracks.bounded⟩, ⟨rfl, rfl, rfl, rfl⟩⟩
    have isOutstanding := tracks.changed notOverflowed
    rw [record]
    split
    case isTrue known =>
      rw [map_cons, append_cons]
      refine ih ⟨fun _ key => ?_, tracks.bounded⟩ notOverflowed
      rw [Outstanding.changed_iff, isOutstanding]
      refine ⟨Or.inr, ?_⟩
      rintro (rfl | outstanding)
      · exact (isOutstanding _).mp known
      · exact outstanding
    case isFalse unknown =>
      split
      case isTrue => exact overflows
      case isFalse =>
        split
        case isTrue => exact overflows
        case isFalse =>
          rw [map_cons, append_cons]
          have inserted : Tracks { watch with changed := insert entry.key watch.changed }
              (marks ++ [.changed entry.key]) := by
            refine ⟨fun _ key => ?_, tracks.bounded⟩
            rw [Finset.mem_insert, Outstanding.changed_iff, isOutstanding, eq_comm]
          have sameSettings : SameSettings watch
              { watch with changed := insert entry.key watch.changed } :=
            ⟨rfl, rfl, rfl, rfl⟩
          exact (ih inserted notOverflowed).imp_right sameSettings.trans

variable [DecidableEq Id] [Zero Id]

/-- An arrival keeps the watch in step with the marks. -/
theorem onAppend_keeps (tracks : Tracks watch marks) (promotedFrom : Id) :
    Tracks (watch.onAppend update promotedFrom room)
        (marks ++ eventMarks watch.povId watch.chain (.append update promotedFrom room)) ∧
      SameSettings watch (watch.onAppend update promotedFrom room) := by
  rw [onAppend, eventMarks]
  split
  case isTrue => exact arrive_keeps tracks
  case isFalse =>
    split
    case isTrue =>
      rw [append_nil]
      exact ⟨tracks, SameSettings.refl watch⟩
    case isFalse =>
      split
      case isTrue overflowed =>
        refine ⟨⟨fun notOverflowed => ?_, tracks.bounded⟩, SameSettings.refl watch⟩
        rw [overflowed] at notOverflowed
        contradiction
      case isFalse notOverflowed =>
        exact record_keeps tracks (Bool.not_eq_true _ ▸ notOverflowed)

end Appends

end ForkWatch

end Orly
