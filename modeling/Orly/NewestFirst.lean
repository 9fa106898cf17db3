import Mathlib

/-!
# Runs of entries, newest first for each key

Entries have a key and a rank.  A run is in the order of the keys, and of falling ranks
for one key, so the first entry of a key is its newest.  Runs are merged by a sorted list
with the head of each run, and a merged run is thinned to the first entry of each key.
-/

namespace NewestFirst

open List

section Definitions

variable {Entry Key : Type*} [LinearOrder Key] (key : Entry → Key) (rank : Entry → Nat)

/-- The order of a run. -/
def Before (first second : Entry) : Prop :=
  key first < key second ∨ key first = key second ∧ rank second ≤ rank first

instance : DecidableRel (Before key rank) := fun first second =>
  inferInstanceAs
    (Decidable (key first < key second ∨ key first = key second ∧ rank second ≤ rank first))

/-- The first entry of each key other than the last one seen, if it is wanted. -/
def firsts (wanted : Entry → Bool) : Option Key → List Entry → List Entry
  | _, [] => []
  | last, entry :: entries =>
    if last = some (key entry) then
      firsts wanted last entries
    else if wanted entry = true then
      entry :: firsts wanted (some (key entry)) entries
    else
      firsts wanted (some (key entry)) entries

/-- Put the head of a run, with what follows it, behind the heads that come before it. -/
def insertHead (head : Entry × List Entry) : List (Entry × List Entry) → List (Entry × List Entry)
  | [] => [head]
  | other :: heads =>
    if Before key rank other.1 head.1 then
      other :: insertHead head heads
    else
      head :: other :: heads

/-- The next entry of a run, if there is one, becomes a head. -/
def enter : List Entry → List (Entry × List Entry) → List (Entry × List Entry)
  | [], heads => heads
  | entry :: rest, heads => insertHead key rank (entry, rest) heads

/-- Take the first head and enter the next entry of its run. -/
def mergeHeads : Nat → List (Entry × List Entry) → List Entry
  | 0, _ => []
  | _ + 1, [] => []
  | fuel + 1, (entry, rest) :: heads =>
    entry :: mergeHeads fuel (enter key rank rest heads)

/-- The runs merged into one. -/
def mergeRuns (runs : List (List Entry)) : List Entry :=
  mergeHeads key rank runs.flatten.length
    (runs.foldl (fun heads run => enter key rank run heads) [])

end Definitions

variable {Entry Key : Type*} [LinearOrder Key] {key : Entry → Key} {rank : Entry → Nat}

namespace Before

variable {first second : Entry}

theorem trans {third : Entry} (firstSecond : Before key rank first second)
    (secondThird : Before key rank second third) :
    Before key rank first third := by
  rcases firstSecond with below | ⟨same, newer⟩
  · rcases secondThird with further | ⟨next, _⟩
    · exact Or.inl (below.trans further)
    · exact Or.inl (next ▸ below)
  · rcases secondThird with further | ⟨next, older⟩
    · exact Or.inl (same ▸ further)
    · exact Or.inr ⟨same.trans next, Nat.le_trans older newer⟩

theorem of_not (notBefore : ¬ Before key rank first second) : Before key rank second first := by
  rw [Before, not_or, not_and, not_lt, Nat.not_le] at notBefore
  rcases notBefore.1.lt_or_eq with below | same
  · exact Or.inl below
  · exact Or.inr ⟨same, Nat.le_of_lt (notBefore.2 same.symm)⟩

theorem key_le (before : Before key rank first second) : key first ≤ key second := by
  rcases before with below | ⟨same, _⟩
  · exact below.le
  · exact same.le

theorem rank_le (before : Before key rank first second) (same : key first = key second) :
    rank second ≤ rank first := by
  rcases before with below | ⟨_, newer⟩
  · exact absurd same below.ne
  · exact newer

end Before

section Thinning

variable {wanted : Entry → Bool} {entries : List Entry} {last : Option Key}

/-- What stays is wanted and the newest of its key. -/
theorem of_mem_firsts (sorted : entries.Pairwise (Before key rank))
    (past : ∀ seen, last = some seen → ∀ entry ∈ entries, seen ≤ key entry) {entry : Entry}
    (mem : entry ∈ firsts key wanted last entries) :
    entry ∈ entries ∧ wanted entry = true ∧ last ≠ some (key entry) ∧
      ∀ other ∈ entries, key other = key entry → rank other ≤ rank entry := by
  induction entries generalizing last with
  | nil => simp [firsts] at mem
  | cons head rest ih =>
    obtain ⟨headBefore, restSorted⟩ := pairwise_cons.mp sorted
    rw [firsts] at mem
    have fromRest : ∀ seen, seen = key head → entry ∈ firsts key wanted (some seen) rest →
        entry ∈ head :: rest ∧ wanted entry = true ∧ key head ≠ key entry ∧
          ∀ other ∈ head :: rest, key other = key entry → rank other ≤ rank entry := by
      rintro seen rfl inRest
      obtain ⟨isEntry, isWanted, otherKey, newest⟩ := ih restSorted
        (by
          intro seen isSeen other isOther
          rw [← Option.some.inj isSeen]
          exact (headBefore other isOther).key_le) inRest
      have differs : key head ≠ key entry := fun same => otherKey (congrArg some same)
      refine ⟨mem_cons_of_mem _ isEntry, isWanted, differs, ?_⟩
      intro other isOther sameKey
      rcases mem_cons.mp isOther with rfl | later
      · exact absurd sameKey differs
      · exact newest other later sameKey
    have notSeen : entry ∈ head :: rest → key head ≠ key entry → last ≠ some (key entry) := by
      rintro isEntry differs rfl
      have notBelow := past (key entry) rfl head mem_cons_self
      rcases mem_cons.mp isEntry with same | later
      · exact differs (congrArg key same).symm
      · exact differs (le_antisymm (headBefore entry later).key_le notBelow)
    split at mem
    case isTrue seen =>
      obtain ⟨isEntry, isWanted, differs, newest⟩ := fromRest (key head) rfl (seen ▸ mem)
      exact ⟨isEntry, isWanted, notSeen isEntry differs, newest⟩
    case isFalse unseen =>
      split at mem
      case isTrue isWanted =>
        rcases mem_cons.mp mem with rfl | inRest
        · refine ⟨mem_cons_self, isWanted, unseen, ?_⟩
          intro other isOther sameKey
          rcases mem_cons.mp isOther with rfl | later
          · exact Nat.le_refl _
          · exact (headBefore other later).rank_le sameKey.symm
        · obtain ⟨isEntry, restWanted, differs, newest⟩ := fromRest (key head) rfl inRest
          exact ⟨isEntry, restWanted, notSeen isEntry differs, newest⟩
      case isFalse =>
        obtain ⟨isEntry, restWanted, differs, newest⟩ := fromRest (key head) rfl mem
        exact ⟨isEntry, restWanted, notSeen isEntry differs, newest⟩

/-- Every key has a newest entry, which stays if it is wanted. -/
theorem exists_newest
    (sorted : entries.Pairwise (Before key rank)) {entry : Entry} (mem : entry ∈ entries)
    (unseen : last ≠ some (key entry)) :
    ∃ newest ∈ entries, key newest = key entry ∧
      (∀ other ∈ entries, key other = key entry → rank other ≤ rank newest) ∧
      (wanted newest = true → newest ∈ firsts key wanted last entries) := by
  induction entries generalizing last with
  | nil => simp at mem
  | cons head rest ih =>
    obtain ⟨headBefore, restSorted⟩ := pairwise_cons.mp sorted
    by_cases sameKey : key head = key entry
    · refine ⟨head, mem_cons_self, sameKey, ?_, ?_⟩
      · intro other isOther otherKey
        rcases mem_cons.mp isOther with rfl | later
        · exact Nat.le_refl _
        · exact (headBefore other later).rank_le (sameKey.trans otherKey.symm)
      · intro isWanted
        rw [firsts, if_neg (by rwa [sameKey]), if_pos isWanted]
        exact mem_cons_self
    · have inRest : entry ∈ rest := by
        rcases mem_cons.mp mem with rfl | later
        · exact absurd rfl sameKey
        · exact later
      have fromRest : ∀ seen : Option Key, seen ≠ some (key entry) →
          firsts key wanted seen rest ⊆ firsts key wanted last (head :: rest) →
          ∃ newest ∈ head :: rest, key newest = key entry ∧
            (∀ other ∈ head :: rest, key other = key entry → rank other ≤ rank newest) ∧
            (wanted newest = true → newest ∈ firsts key wanted last (head :: rest)) := by
        intro seen notSeen stays
        obtain ⟨newest, isEntry, isKey, ranks, kept⟩ := ih restSorted inRest notSeen
        refine ⟨newest, mem_cons_of_mem _ isEntry, isKey, ?_, fun w => stays (kept w)⟩
        intro other isOther otherKey
        rcases mem_cons.mp isOther with rfl | later
        · exact absurd otherKey sameKey
        · exact ranks other later otherKey
      have otherKey : some (key head) ≠ some (key entry) :=
        fun same => sameKey (Option.some.inj same)
      by_cases seen : last = some (key head)
      · refine fromRest last unseen ?_
        rw [firsts, if_pos seen]
        exact List.Subset.refl _
      · refine fromRest (some (key head)) otherKey ?_
        rw [firsts, if_neg seen]
        split
        · exact subset_cons_self _ _
        · exact List.Subset.refl _

/-- The entries that stay have rising keys. -/
theorem firsts_rising (sorted : entries.Pairwise (Before key rank))
    (past : ∀ seen, last = some seen → ∀ entry ∈ entries, seen ≤ key entry) :
    (firsts key wanted last entries).Pairwise (key · < key ·) := by
  induction entries generalizing last with
  | nil => exact List.Pairwise.nil
  | cons head rest ih =>
    obtain ⟨headBefore, restSorted⟩ := pairwise_cons.mp sorted
    have pastHead : ∀ seen, some (key head) = some seen → ∀ entry ∈ rest, seen ≤ key entry := by
      intro seen isSeen entry mem
      rw [← Option.some.inj isSeen]
      exact (headBefore entry mem).key_le
    rw [firsts]
    split
    case isTrue seen =>
      rw [seen]
      exact ih restSorted pastHead
    case isFalse =>
      split
      case isTrue =>
        refine pairwise_cons.mpr ⟨?_, ih restSorted pastHead⟩
        intro entry mem
        obtain ⟨isEntry, _, differs, _⟩ := of_mem_firsts restSorted pastHead mem
        refine lt_of_le_of_ne (headBefore entry isEntry).key_le ?_
        exact fun same => differs (congrArg some same)
      case isFalse => exact ih restSorted pastHead

end Thinning

section Merging

/-- The entries of some heads and of the runs behind them. -/
def entriesOf (heads : List (Entry × List Entry)) : List Entry :=
  heads.flatMap fun head => head.1 :: head.2

/-- Heads are in order, and each is the start of a run. -/
structure HeadsSorted (key : Entry → Key) (rank : Entry → Nat)
    (heads : List (Entry × List Entry)) : Prop where
  inOrder : heads.Pairwise fun first second => Before key rank first.1 second.1
  runs : ∀ head ∈ heads, (head.1 :: head.2).Pairwise (Before key rank)

theorem insertHead_perm (head : Entry × List Entry) (heads : List (Entry × List Entry)) :
    (insertHead key rank head heads).Perm (head :: heads) := by
  induction heads with
  | nil => exact List.Perm.refl _
  | cons other heads ih =>
    rw [insertHead]
    split
    · exact (ih.cons other).trans (List.Perm.swap head other heads)
    · exact List.Perm.refl _

variable {heads : List (Entry × List Entry)}

theorem insertHead_inOrder {head : Entry × List Entry}
    (inOrder : heads.Pairwise fun first second => Before key rank first.1 second.1) :
    (insertHead key rank head heads).Pairwise
      fun first second => Before key rank first.1 second.1 := by
  induction heads with
  | nil => simp [insertHead]
  | cons other heads ih =>
    obtain ⟨otherBefore, restInOrder⟩ := pairwise_cons.mp inOrder
    rw [insertHead]
    split
    case isTrue before =>
      refine pairwise_cons.mpr ⟨?_, ih restInOrder⟩
      intro later mem
      rcases mem_cons.mp ((insertHead_perm head heads).mem_iff.mp mem) with
        rfl | inRest
      · exact before
      · exact otherBefore later inRest
    case isFalse notBefore =>
      refine pairwise_cons.mpr ⟨?_, inOrder⟩
      intro later mem
      rcases mem_cons.mp mem with rfl | inRest
      · exact Before.of_not notBefore
      · exact (Before.of_not notBefore).trans (otherBefore later inRest)

theorem HeadsSorted.enter (sorted : HeadsSorted key rank heads) {run : List Entry}
    (runSorted : run.Pairwise (Before key rank)) :
    HeadsSorted key rank (enter key rank run heads) := by
  cases run with
  | nil => exact sorted
  | cons entry rest =>
    refine ⟨insertHead_inOrder sorted.inOrder, ?_⟩
    intro head mem
    rcases mem_cons.mp ((insertHead_perm (entry, rest) heads).mem_iff.mp mem) with
      rfl | inRest
    · exact runSorted
    · exact sorted.runs head inRest

theorem entriesOf_enter (run : List Entry) (heads : List (Entry × List Entry)) :
    (entriesOf (enter key rank run heads)).Perm (run ++ entriesOf heads) := by
  cases run with
  | nil => exact List.Perm.refl _
  | cons entry rest => exact (insertHead_perm (entry, rest) heads).flatMap_right _

/-- The heap yields every entry once. -/
theorem mergeHeads_perm {fuel : Nat} (enough : (entriesOf heads).length ≤ fuel) :
    (mergeHeads key rank fuel heads).Perm (entriesOf heads) := by
  induction fuel generalizing heads with
  | zero =>
    have empty : entriesOf heads = [] := eq_nil_of_length_eq_zero (by omega)
    rw [empty, mergeHeads]
  | succ fuel ih =>
    match heads with
    | [] => exact List.Perm.refl _
    | (entry, rest) :: heads =>
      have next : (entriesOf (enter key rank rest heads)).Perm (rest ++ entriesOf heads) :=
        entriesOf_enter rest heads
      have lengths := next.length_eq
      simp only [entriesOf, flatMap_cons, length_append, length_cons]
        at enough lengths
      rw [mergeHeads]
      refine ((ih ?_).trans next).cons entry
      simp only [entriesOf]
      omega

/-- The heap yields the entries in order. -/
theorem mergeHeads_sorted
    {fuel : Nat} (sorted : HeadsSorted key rank heads) (enough : (entriesOf heads).length ≤ fuel) :
    (mergeHeads key rank fuel heads).Pairwise (Before key rank) := by
  induction fuel generalizing heads with
  | zero => exact List.Pairwise.nil
  | succ fuel ih =>
    match heads with
    | [] => exact List.Pairwise.nil
    | (entry, rest) :: heads =>
      obtain ⟨entryBefore, headsInOrder⟩ := pairwise_cons.mp sorted.inOrder
      obtain ⟨beforeRest, restSorted⟩ := pairwise_cons.mp (sorted.runs (entry, rest) mem_cons_self)
      have headsSorted : HeadsSorted key rank heads :=
        ⟨headsInOrder, fun head mem => sorted.runs head (mem_cons_of_mem _ mem)⟩
      have next : (entriesOf (enter key rank rest heads)).Perm (rest ++ entriesOf heads) :=
        entriesOf_enter rest heads
      have lengths := next.length_eq
      simp only [entriesOf, flatMap_cons, length_append, length_cons]
        at enough lengths
      have fits : (entriesOf (enter key rank rest heads)).length ≤ fuel := by
        simp only [entriesOf]
        omega
      rw [mergeHeads]
      refine pairwise_cons.mpr ⟨?_, ih (headsSorted.enter restSorted) fits⟩
      intro other mem
      have isEntry := next.mem_iff.mp ((mergeHeads_perm fits).mem_iff.mp mem)
      rcases mem_append.mp isEntry with inRest | inHeads
      · exact beforeRest other inRest
      · obtain ⟨head, isHead, inHead⟩ := mem_flatMap.mp inHeads
        have beforeHead := entryBefore head isHead
        rcases mem_cons.mp inHead with rfl | inRun
        · exact beforeHead
        · exact beforeHead.trans ((pairwise_cons.mp (headsSorted.runs head isHead)).1 other inRun)

theorem foldl_enter
    {runs : List (List Entry)} (runsSorted : ∀ run ∈ runs, run.Pairwise (Before key rank))
    (sorted : HeadsSorted key rank heads) :
    HeadsSorted key rank (runs.foldl (fun heads run => enter key rank run heads) heads) ∧
      (entriesOf (runs.foldl (fun heads run => enter key rank run heads) heads)).Perm
        (runs.flatten ++ entriesOf heads) := by
  induction runs generalizing heads with
  | nil => exact ⟨sorted, List.Perm.refl _⟩
  | cons run runs ih =>
    obtain ⟨nextSorted, entries⟩ := ih (fun later mem => runsSorted later (mem_cons_of_mem _ mem))
      (sorted.enter (runsSorted run mem_cons_self))
    refine ⟨nextSorted, entries.trans ?_⟩
    rw [flatten_cons]
    calc
      (runs.flatten ++ entriesOf (enter key rank run heads)).Perm
          (runs.flatten ++ (run ++ entriesOf heads)) :=
        (entriesOf_enter run heads).append_left _
      _ = (runs.flatten ++ run) ++ entriesOf heads := (append_assoc _ _ _).symm
      List.Perm _ ((run ++ runs.flatten) ++ entriesOf heads) := perm_append_comm.append_right _

/-- A merge is a run with the entries of all runs. -/
theorem mergeRuns_spec {runs : List (List Entry)}
    (runsSorted : ∀ run ∈ runs, run.Pairwise (Before key rank)) :
    (mergeRuns key rank runs).Perm runs.flatten ∧
      (mergeRuns key rank runs).Pairwise (Before key rank) := by
  have none : HeadsSorted key rank [] := ⟨List.Pairwise.nil, by simp⟩
  obtain ⟨sorted, entries⟩ := foldl_enter runsSorted none
  have noHeads : entriesOf ([] : List (Entry × List Entry)) = [] := rfl
  rw [noHeads, append_nil] at entries
  have enough := Nat.le_of_eq entries.length_eq
  exact ⟨(mergeHeads_perm enough).trans entries, mergeHeads_sorted sorted enough⟩

end Merging

end NewestFirst
