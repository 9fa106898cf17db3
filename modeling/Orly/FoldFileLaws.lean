import Orly.RepoFiles

namespace Orly

/-!
# What a fold writes

A fold keeps the sequence numbers of its source, or some of them, and folds each key by
itself.
-/

open EventRuns List

variable {κ α : Type} [DecidableEq α]

/-! ## Sequence numbers -/

section Seqs

variable {entries out : List (FoldEntry α)}

/-- What a fold without a window writes: the newest entry, with the run below folded into
it where that is deferred. -/
theorem foldOneKey_ok (folded : foldOneKey entries = .ok out) :
    (entries = [] ∧ out = []) ∨ ∃ anchor older, entries = anchor :: older ∧
      (out = [anchor] ∨ ∃ value result, anchor.op = some value ∧ anchor.mutator ≠ .assign ∧
        foldRun anchor.mutator value older = .ok result ∧
        out = [⟨anchor.seqNum, if result.2 then .assign else anchor.mutator, some result.1⟩]) := by
  revert folded
  fun_cases foldOneKey entries <;> intro folded
  case case1 => exact .inl ⟨rfl, (Except.ok.inj folded).symm⟩
  case case2 | case3 | case4 => exact .inr ⟨_, _, rfl, .inl (Except.ok.inj folded).symm⟩
  case case5 anchor older value hasValue notAssign _ =>
    obtain ⟨result, run, written⟩ := exists_of_bind_ok folded
    exact .inr ⟨anchor, older, rfl, .inr ⟨value, result, hasValue, notAssign, run,
      (Except.ok.inj written).symm⟩⟩

/-- A fold without a window writes one entry at most, at the newest sequence number. -/
theorem foldOneKey_seqs (folded : foldOneKey entries = .ok out) :
    out.map (·.seqNum) = (entries.map (·.seqNum)).take 1 := by
  obtain ⟨rfl, rfl⟩ | ⟨anchor, older, rfl, rfl | ⟨_, _, _, _, _, rfl⟩⟩ := foldOneKey_ok folded <;>
    rfl

/-- What a step of the pass over the window does. -/
theorem retainStep_ok {state after : RetainState α} {entry kept : FoldEntry α}
    (stepped : retainStep state entry = .ok (after, kept)) :
    ((after = state.setFrom entry ∨ after = { state with known := false }) ∧ kept = entry) ∨
      ∃ value running, entry.op = some value ∧ entry.mutator ≠ .assign ∧
        advanceRunning state.running entry.mutator value = .ok running ∧
        after.running = some running ∧
        (kept = entry ∨ kept = { entry with mutator := .assign, op := some running }) := by
  revert stepped
  fun_cases retainStep state entry <;> intro stepped
  case case1 | case2 | case3 =>
    obtain ⟨rfl, rfl⟩ := Prod.mk.inj (Except.ok.inj stepped)
    simp
  case case4 value hasValue notAssign _ =>
    obtain ⟨running, advanced, written⟩ := exists_of_bind_ok stepped
    refine .inr ⟨value, running, hasValue, notAssign, advanced, ?_⟩
    split at written <;> obtain ⟨rfl, rfl⟩ := Prod.mk.inj (Except.ok.inj written) <;> simp

theorem retainStep_seqNum {state after : RetainState α} {entry kept : FoldEntry α}
    (stepped : retainStep state entry = .ok (after, kept)) :
    kept.seqNum = entry.seqNum := by
  obtain ⟨_, rfl⟩ | ⟨_, _, _, _, _, _, rfl | rfl⟩ := retainStep_ok stepped <;> rfl

/-- The pass over the window writes each of its sequence numbers. -/
theorem retainLoop_seqs {state after : RetainState α} {written finished : List (FoldEntry α × Bool)}
    {newer : List (FoldEntry α)} (looped : retainLoop state written newer = .ok (after, finished)) :
    finished.map (·.1.seqNum) = (newer.map (·.seqNum)).reverse ++ written.map (·.1.seqNum) := by
  induction newer generalizing state written with
  | nil =>
    obtain rfl : written = finished := congrArg Prod.snd (Except.ok.inj looped)
    rfl
  | cons entry newer ih =>
    obtain ⟨result, stepped, rest⟩ := exists_of_bind_ok looped
    simpa [retainStep_seqNum stepped] using ih rest

/-- A fold with a window folds what is below it, and passes over the window from there. -/
theorem foldEntries_window_ok {retainFrom : Nat}
    (folded : foldEntries (some retainFrom) entries = .ok out) :
    ∃ base after written, foldOneKey (entries.dropWhile (retainFrom < ·.seqNum)) = .ok base ∧
      retainLoop (retainBase base).1 (retainBase base).2
        (entries.takeWhile (retainFrom < ·.seqNum)).reverse = .ok (after, written) ∧
      out = written.map Prod.fst := by
  cases retained : foldOneKeyRetaining entries retainFrom with
  | error failure =>
    rw [foldEntries, retained] at folded
    contradiction
  | ok all =>
    rw [foldEntries, retained] at folded
    obtain ⟨base, based, rest⟩ := exists_of_bind_ok retained
    obtain ⟨⟨after, written⟩, looped, isWritten⟩ := exists_of_bind_ok rest
    obtain rfl : written = all := Except.ok.inj isWritten
    exact ⟨base, after, written, based, looped, (Except.ok.inj folded).symm⟩

/-- What a fold writes has sequence numbers of what it folds. -/
theorem foldEntries_seqs {retainFrom : Option Nat}
    (folded : foldEntries retainFrom entries = .ok out) :
    (out.map (·.seqNum)).Sublist (entries.map (·.seqNum)) := by
  cases retainFrom with
  | none =>
    rw [foldOneKey_seqs folded]
    exact take_sublist _ _
  | some retainFrom =>
    obtain ⟨base, after, written, based, looped, rfl⟩ := foldEntries_window_ok folded
    have baseSeqs : ((retainBase base).2.map (·.1.seqNum)).Sublist
        ((entries.dropWhile (retainFrom < ·.seqNum)).map (·.seqNum)) := by
      have front : (retainBase base).2.map (·.1.seqNum) = (base.map (·.seqNum)).take 1 := by
        cases base <;> rfl
      rw [front, foldOneKey_seqs based, take_take]
      exact take_sublist _ _
    rw [map_map, Function.comp_def, retainLoop_seqs looped, map_reverse, reverse_reverse]
    have both := (List.Sublist.refl
      ((entries.takeWhile (retainFrom < ·.seqNum)).map (·.seqNum))).append baseSeqs
    rwa [← map_append, takeWhile_append_dropWhile] at both

end Seqs

/-! ## The file -/

section File

variable [LinearOrder κ] {retainFrom : Option Nat} {file out : DataFile κ α}

omit [LinearOrder κ] [DecidableEq α] in
theorem mergeSort_newestFirst {entries : List (FoldEntry α)} (newestFirst : NewestFirst entries) :
    entries.mergeSort (fun newer older => older.seqNum ≤ newer.seqNum) = entries :=
  mergeSort_of_pairwise (newestFirst.imp fun less => by simpa using less.le)

/-- A fold treats each key by itself. -/
theorem foldKeys_entriesOf {keys written : List (FileKey κ α)}
    (sorted : keys.Pairwise fun left right => left.key < right.key)
    (newestFirst : ∀ fileKey ∈ keys, NewestFirst fileKey.entries)
    (folded : foldKeys retainFrom keys = .ok written) :
    (written.map (·.key)).Sublist (keys.map (·.key)) ∧
      ∀ key, foldEntries retainFrom (entriesOf keys key) = .ok (entriesOf written key) := by
  induction keys generalizing written with
  | nil =>
    obtain rfl : [] = written := Except.ok.inj folded
    refine ⟨List.Sublist.refl _, fun key => ?_⟩
    cases retainFrom <;> rfl
  | cons fileKey keys ih =>
    obtain ⟨headBefore, tailSorted⟩ := pairwise_cons.mp sorted
    obtain ⟨headNewest, tailNewest⟩ := forall_mem_cons.mp newestFirst
    unfold foldKeys at folded
    rw [mergeSort_newestFirst headNewest] at folded
    obtain ⟨entries, head, folded⟩ := exists_of_bind_ok folded
    obtain ⟨rest, tail, folded⟩ := exists_of_bind_ok folded
    obtain ⟨restKeys, restEntries⟩ := ih tailSorted tailNewest tail
    have absent : ∀ other ∈ rest, other.key ≠ fileKey.key := by
      intro other mem
      obtain ⟨source, inKeys, same⟩ := mem_map.mp (restKeys.subset (mem_map_of_mem mem))
      exact same ▸ (headBefore source inKeys).ne'
    cases entries with
    | nil =>
      obtain rfl : rest = written := Except.ok.inj folded
      refine ⟨restKeys.trans (sublist_cons_self _ _), fun key => ?_⟩
      by_cases isKey : fileKey.key = key
      · subst isKey
        rw [entriesOf_eq_nil absent]
        simpa [entriesOf] using head
      · simpa [entriesOf, isKey] using restEntries key
    | cons current history =>
      obtain rfl : ⟨fileKey.key, current, history⟩ :: rest = written := Except.ok.inj folded
      refine ⟨restKeys.cons_cons _, fun key => ?_⟩
      by_cases isKey : fileKey.key = key
      · simpa [entriesOf, isKey, FileKey.entries] using head
      · simpa [entriesOf, isKey] using restEntries key

theorem foldDataFile_entriesOf (wellFormed : file.WellFormed)
    (folded : foldDataFile retainFrom file = .ok out) :
    out.lowestSeq = file.lowestSeq ∧ out.highestSeq = file.highestSeq ∧
      (out.keys.map (·.key)).Sublist (file.keys.map (·.key)) ∧
      ∀ key, foldEntries retainFrom (entriesOf file.keys key) = .ok (entriesOf out.keys key) := by
  obtain ⟨keys, written, isOut⟩ := exists_of_bind_ok folded
  obtain rfl : { file with keys := keys } = out := Except.ok.inj isOut
  obtain ⟨sublist, entries⟩ := foldKeys_entriesOf wellFormed.sorted wellFormed.newestFirst written
  exact ⟨rfl, rfl, sublist, entries⟩

/-- A fold of a well-formed file writes one. -/
theorem foldDataFile_wellFormed (wellFormed : file.WellFormed)
    (folded : foldDataFile retainFrom file = .ok out) :
    out.WellFormed := by
  obtain ⟨lowest, highest, sublist, entries⟩ := foldDataFile_entriesOf wellFormed folded
  have sorted : out.keys.Pairwise fun left right => left.key < right.key :=
    pairwise_map.mp ((pairwise_map.mpr wellFormed.sorted).sublist sublist)
  have ofSource : ∀ fileKey ∈ out.keys, ∃ source ∈ file.keys,
      (fileKey.entries.map (·.seqNum)).Sublist (source.entries.map (·.seqNum)) := by
    intro fileKey mem
    have isEntries : entriesOf out.keys fileKey.key = fileKey.entries :=
      entriesOf_mem (sorted.imp fun less => less.ne) mem
    have seqs := foldEntries_seqs (entries fileKey.key)
    rw [isEntries] at seqs
    rcases entriesOf_cases file.keys fileKey.key with ⟨source, inKeys, _, eq⟩ | ⟨_, eq⟩
    · exact ⟨source, inKeys, eq ▸ seqs⟩
    · rw [eq] at seqs
      exact absurd seqs (by simp [FileKey.entries])
  refine ⟨by rw [lowest, highest]; exact wellFormed.range, sorted, ?_, ?_⟩
  · intro fileKey mem
    obtain ⟨source, inKeys, seqs⟩ := ofSource fileKey mem
    have newest : (source.entries.map (·.seqNum)).Pairwise fun newer older => older < newer :=
      pairwise_map.mpr (wellFormed.newestFirst source inKeys)
    exact pairwise_map.mp (newest.sublist seqs)
  · intro fileKey mem entry isEntry
    obtain ⟨source, inKeys, seqs⟩ := ofSource fileKey mem
    obtain ⟨sourceEntry, inSource, same⟩ := mem_map.mp (seqs.subset (mem_map_of_mem isEntry))
    have inRange := wellFormed.inRange source inKeys sourceEntry inSource
    rw [lowest, highest, ← same]
    exact inRange

end File

end Orly
