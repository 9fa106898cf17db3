import Mathlib

namespace Orly

/-!
# The block list of a file

`TBlockVec` holds a list of block ids as runs of consecutive ids, keyed by the position
of their first id.  Pushing extends the last run or starts one, trimming cuts a run.
-/

open List

/-- `count` consecutive ids; a `size_t` wraps round. -/
def seqIds (block : UInt64) (count : Nat) : List UInt64 :=
  (List.range count).map fun offset => block + UInt64.ofNat offset

/-- An element of `TBlockMap`: a position, and the run of ids from there. -/
structure BlockRun where
  index : Nat
  block : UInt64
  count : Nat
  deriving Repr, DecidableEq

/-- The ids of a run. -/
def BlockRun.ids (run : BlockRun) : List UInt64 :=
  seqIds run.block run.count

/-- `TBlockVec`, with its map in the order of the keys. -/
structure BlockVec where
  blockMap : List BlockRun
  vecSize : Nat
  deriving Repr, DecidableEq

namespace BlockVec

/-- `emplace` of the map: an element whose key is there is left. -/
def emplace (runs : List BlockRun) (run : BlockRun) : List BlockRun :=
  if runs.any (·.index = run.index) then
    runs
  else
    runs.takeWhile (·.index < run.index) ++ run :: runs.dropWhile (·.index < run.index)

/-- The runs that `upper_bound` of a position ends after. -/
def upTo (vec : BlockVec) (pos : Nat) : List BlockRun :=
  vec.blockMap.takeWhile (·.index ≤ pos)

/-- `operator[]`; none where it has no element to go back to. -/
def get? (vec : BlockVec) (pos : Nat) : Option UInt64 :=
  (vec.upTo pos).getLast?.map fun run => run.block + UInt64.ofNat (pos - run.index)

/-- `PushBack` of a range. -/
def pushRange (vec : BlockVec) (block : UInt64) (count : Nat) : BlockVec where
  blockMap :=
    if vec.vecSize = 0 then
      emplace vec.blockMap ⟨0, block, count⟩
    else
      match vec.blockMap.getLast? with
      | some back =>
        if back.block + UInt64.ofNat back.count = block then
          vec.blockMap.dropLast ++ [{ back with count := back.count + count }]
        else
          emplace vec.blockMap ⟨vec.vecSize, block, count⟩
      | none => vec.blockMap
  vecSize := vec.vecSize + count

/-- `PushBack` of a block id. -/
def pushBlock (vec : BlockVec) (block : UInt64) : BlockVec :=
  vec.pushRange block 1

/-- `Trim`. -/
def trim (vec : BlockVec) (n : Nat) : BlockVec where
  blockMap :=
    let pos := vec.vecSize - n
    match (vec.upTo pos).getLast? with
    | some run =>
      if run.index = pos then
        (vec.upTo pos).dropLast
      else
        (vec.upTo pos).dropLast ++ [{ run with count := pos - run.index }]
    | none => vec.blockMap
  vecSize := vec.vecSize - n

/-- The loop of `ForEachSeqRangeInRange`: what is reported of the runs after the first. -/
def reportRuns (goesOn : UInt64 × Nat → Bool) : List BlockRun → Nat → List (UInt64 × Nat)
  | [], _ => []
  | run :: runs, left =>
    if left = 0 then
      []
    else
      let range := (run.block, min left run.count)
      range :: if goesOn range then reportRuns goesOn runs (left - range.2) else []

/-- `ForEachSeqRangeInRange`: the ranges its callback gets, with what the callback answers. -/
def forEachSeqRangeInRange
    (vec : BlockVec) (goesOn : UInt64 × Nat → Bool) (start stop : Nat) : List (UInt64 × Nat) :=
  if start < stop then
    match (vec.upTo start).getLast? with
    | some run =>
      let offset := start - run.index
      let left := stop - start
      let range := (run.block + UInt64.ofNat offset, min left (run.count - offset))
      range ::
        if goesOn range then
          reportRuns goesOn (vec.blockMap.dropWhile (·.index ≤ start)) (left - range.2)
        else
          []
    | none => []
  else
    []

end BlockVec

/-- An operation on a block list. -/
inductive BlockVecOp where
  | pushBlock (block : UInt64)
  | pushRange (block : UInt64) (count : Nat)
  | trim (n : Nat)
  deriving Repr, DecidableEq

namespace BlockVecOp

/-- The operation on the vector. -/
def apply (vec : BlockVec) : BlockVecOp → BlockVec
  | pushBlock block => vec.pushBlock block
  | pushRange block count => vec.pushRange block count
  | trim n => vec.trim n

/-- The operation on a plain list, where a caller may use it; a position is a `size_t`. -/
def build (ids : List UInt64) : BlockVecOp → Option (List UInt64)
  | pushBlock block => if ids.length + 1 < 2 ^ 64 then some (ids ++ [block]) else none
  | pushRange block count =>
    if 0 < count ∧ ids.length + count < 2 ^ 64 then some (ids ++ seqIds block count) else none
  | trim n =>
    if ids ≠ [] ∧ n ≤ ids.length then some (ids.take (ids.length - n)) else none

end BlockVecOp

/-- Runs that are not empty and follow one another from a position on. -/
def Tiles : Nat → List BlockRun → Prop
  | _, [] => True
  | start, run :: runs => run.index = start ∧ 0 < run.count ∧ Tiles (start + run.count) runs

/-- The second run does not go on where the first ends. -/
def Breaks (first second : BlockRun) : Prop :=
  first.block + UInt64.ofNat first.count ≠ second.block

/-- The vector holds this list: its runs tile the positions, are maximal and have these ids. -/
structure BlockVec.Holds (vec : BlockVec) (ids : List UInt64) : Prop where
  size : vec.vecSize = ids.length
  tiles : Tiles 0 vec.blockMap
  maximal : vec.blockMap.IsChain Breaks
  ids : vec.blockMap.flatMap BlockRun.ids = ids

section SeqIds

variable (block : UInt64) (first second : Nat)

@[simp]
theorem length_seqIds (count : Nat) : (seqIds block count).length = count := by
  simp [seqIds]

theorem seqIds_add : seqIds block (first + second) =
      seqIds block first ++ seqIds (block + UInt64.ofNat first) second := by
  simp [seqIds, range_add, Function.comp_def, UInt64.add_assoc, UInt64.ofNat_add]

theorem take_seqIds (count : Nat) :
    (seqIds block count).take first = seqIds block (min first count) := by
  rw [seqIds, ← map_take, take_range, seqIds]

theorem drop_seqIds {count : Nat} (le : first ≤ count) :
    (seqIds block count).drop first = seqIds (block + UInt64.ofNat first) (count - first) := by
  obtain ⟨rest, rfl⟩ := Nat.exists_eq_add_of_le le
  rw [seqIds_add, drop_left' (length_seqIds _ _), Nat.add_sub_cancel_left]

end SeqIds

/-- How many ids some runs have. -/
def idCount (runs : List BlockRun) : Nat :=
  (runs.map BlockRun.count).sum

@[simp]
theorem idCount_cons (run : BlockRun) (runs : List BlockRun) :
    idCount (run :: runs) = run.count + idCount runs := by
  simp [idCount]

@[simp]
theorem length_flatMap_ids (runs : List BlockRun) :
    (runs.flatMap BlockRun.ids).length = idCount runs := by
  simp [idCount, BlockRun.ids, length_flatMap]

section Tiling

variable {start pos : Nat} {runs before after : List BlockRun} {run : BlockRun}

theorem tiles_append : Tiles start (before ++ after) ↔
      Tiles start before ∧ Tiles (start + idCount before) after := by
  induction before generalizing start with
  | nil => simp [Tiles, idCount]
  | cons run before ih =>
    simp only [cons_append, Tiles, ih, idCount_cons, Nat.add_assoc, and_assoc]

theorem isChain_concat : (runs ++ [run]).IsChain Breaks ↔
      runs.IsChain Breaks ∧ ∀ last ∈ runs.getLast?, Breaks last run := by
  simp [isChain_append]

/-- The run a position is in, or ends, is the last one that starts there or before. -/
theorem Tiles.exists_run (tiles : Tiles start runs) (nonempty : runs ≠ []) (above : start ≤ pos)
    (below : pos ≤ start + idCount runs) :
    ∃ before run after, runs = before ++ run :: after ∧ run.index = start + idCount before ∧
      run.index ≤ pos ∧ pos ≤ run.index + run.count ∧
      (pos < start + idCount runs → pos < run.index + run.count) ∧
      runs.takeWhile (·.index ≤ pos) = before ++ [run] ∧
      runs.dropWhile (·.index ≤ pos) = after := by
  induction runs generalizing start with
  | nil => contradiction
  | cons first runs ih =>
    obtain ⟨rfl, -, rest⟩ := tiles
    rw [idCount_cons] at below ⊢
    cases runs with
    | nil =>
      exact ⟨[], first, [], rfl, rfl, above, below, id, by simp [above], by simp [above]⟩
    | cons second runs =>
      by_cases inFirst : pos < first.index + first.count
      · have later : ¬ second.index ≤ pos := by
          rw [rest.1]
          omega
        exact ⟨[], first, second :: runs, rfl, rfl, above, Nat.le_of_lt inFirst, fun _ => inFirst,
          by simp [above, later], by simp [above, later]⟩
      · obtain ⟨before, run, after, split, index, le, atMost, lt, taken, dropped⟩ :=
          ih rest (cons_ne_nil _ _) (by omega) (by omega)
        refine ⟨first :: before, run, after, by rw [split, cons_append], ?_, le, atMost,
          fun inside => lt (by omega), by simp [above, taken], by simp [above, dropped]⟩
        rw [idCount_cons]
        omega

theorem Tiles.index_lt (tiles : Tiles start runs) (mem : run ∈ runs) :
    run.index < start + idCount runs := by
  induction runs generalizing start with
  | nil => exact absurd mem not_mem_nil
  | cons first runs ih =>
    obtain ⟨isStart, positive, rest⟩ := tiles
    rw [idCount_cons]
    rcases mem_cons.mp mem with rfl | later
    · omega
    · have bound := ih rest later
      omega

theorem Tiles.eq_nil (tiles : Tiles start runs) (none : idCount runs = 0) : runs = [] := by
  cases runs with
  | nil => rfl
  | cons run runs =>
    rw [idCount_cons] at none
    have positive := tiles.2.1
    omega

end Tiling

namespace BlockVec

variable {vec : BlockVec} {ids : List UInt64}

/-- A run that starts behind all others goes to the end. -/
theorem emplace_eq_append {runs : List BlockRun} {run : BlockRun}
    (behind : ∀ other ∈ runs, other.index < run.index) : emplace runs run = runs ++ [run] := by
  have fresh : runs.any (·.index = run.index) = false := by
    simpa using fun other mem => ne_of_lt (behind other mem)
  have passes : ∀ other ∈ runs, decide (other.index < run.index) = true := by simpa using behind
  rw [emplace, fresh, if_neg Bool.false_ne_true, takeWhile_eq_self_iff.mpr passes,
    dropWhile_eq_nil_iff.mpr passes]

namespace Holds

variable (holds : vec.Holds ids)
include holds

theorem idCount_eq : idCount vec.blockMap = ids.length := by
  rw [← length_flatMap_ids, holds.ids]

theorem blockMap_ne_nil (nonempty : ids ≠ []) : vec.blockMap ≠ [] := by
  intro none
  rw [← holds.ids, none] at nonempty
  exact nonempty rfl

/-- The list before and after a position, by the run that the position is in or ends. -/
theorem exists_cut {pos : Nat} (nonempty : ids ≠ []) (below : pos ≤ ids.length) :
    ∃ before run after, vec.blockMap = before ++ run :: after ∧ vec.upTo pos = before ++ [run] ∧
      vec.blockMap.dropWhile (·.index ≤ pos) = after ∧
      run.index ≤ pos ∧ (pos < ids.length → pos < run.index + run.count) ∧
      ids.take pos = before.flatMap BlockRun.ids ++ seqIds run.block (pos - run.index) ∧
      ids.drop pos =
        seqIds (run.block + UInt64.ofNat (pos - run.index)) (run.count - (pos - run.index)) ++
          after.flatMap BlockRun.ids := by
  have counted : 0 + idCount vec.blockMap = ids.length := by rw [Nat.zero_add, holds.idCount_eq]
  obtain ⟨before, run, after, split, index, le, atMost, lt, taken, dropped⟩ :=
    holds.tiles.exists_run (holds.blockMap_ne_nil nonempty) (Nat.zero_le pos) (counted ▸ below)
  rw [counted] at lt
  rw [Nat.zero_add] at index
  have whole : ids = before.flatMap BlockRun.ids ++ (seqIds run.block run.count ++
      after.flatMap BlockRun.ids) := by
    rw [← holds.ids, split, flatMap_append, flatMap_cons, BlockRun.ids]
  have inRun : pos - run.index ≤ run.count := by omega
  obtain ⟨offset, rfl⟩ := Nat.exists_eq_add_of_le le
  refine ⟨before, run, after, split, taken, dropped, le, lt, ?_, ?_⟩ <;>
    rw [Nat.add_sub_cancel_left] at inRun ⊢
  · rw [whole, index, ← length_flatMap_ids, take_length_add_append,
      take_append_of_le_length (by simpa using inRun), take_seqIds, Nat.min_eq_left inRun]
  · rw [whole, index, ← length_flatMap_ids, drop_length_add_append,
      drop_append_of_le_length (by simpa using inRun), drop_seqIds _ _ inRun]

/-- A position is looked up in the run that has it. -/
theorem get? {pos : Nat} (below : pos < ids.length) : vec.get? pos = ids[pos]? := by
  have nonempty : ids ≠ [] := ne_nil_of_length_pos (by omega)
  obtain ⟨before, run, after, -, taken, -, le, lt, -, dropped⟩ :=
    holds.exists_cut nonempty (Nat.le_of_lt below)
  obtain ⟨rest, isRest⟩ := Nat.exists_eq_add_of_lt (lt below)
  have positive : run.count - (pos - run.index) = rest + 1 := by omega
  rw [BlockVec.get?, taken, List.getLast?_concat, ← List.head?_drop, dropped, positive, seqIds,
    range_succ_eq_map]
  simp

/-- A pushed range joins the last run or starts one. -/
theorem pushRange (block : UInt64) {count : Nat} (positive : 0 < count) :
    (vec.pushRange block count).Holds (ids ++ seqIds block count) := by
  have tiles := holds.tiles
  have counted := holds.idCount_eq.trans holds.size.symm
  by_cases isEmpty : vec.vecSize = 0
  case pos =>
    have none : vec.blockMap = [] := tiles.eq_nil (counted.trans isEmpty)
    have noIds : ids = [] := eq_nil_of_length_eq_zero (holds.size.symm.trans isEmpty)
    constructor <;>
      simp [BlockVec.pushRange, isEmpty, none, noIds, emplace, Tiles, positive, BlockRun.ids]
  case neg =>
    obtain ⟨earlier, back, split⟩ := (eq_nil_or_concat vec.blockMap).resolve_left fun none =>
      isEmpty (by rw [← counted, none]; rfl)
    rw [concat_eq_append] at split
    have maximal := holds.maximal
    have behind : ∀ run ∈ vec.blockMap, run.index < vec.vecSize := fun run mem => by
      simpa [counted] using tiles.index_lt mem
    have added : (vec.pushRange block count).blockMap =
        if back.block + UInt64.ofNat back.count = block then
          earlier ++ [{ back with count := back.count + count }]
        else
          vec.blockMap ++ [⟨vec.vecSize, block, count⟩] := by
      rw [BlockVec.pushRange, if_neg isEmpty, emplace_eq_append behind]
      simp [split]
    have size : (vec.pushRange block count).vecSize = (ids ++ seqIds block count).length := by
      simp [BlockVec.pushRange, holds.size]
    split_ifs at added with joins
    · refine ⟨size, ?_, ?_, ?_⟩
      · rw [split, tiles_append] at tiles
        rw [added, tiles_append]
        exact ⟨tiles.1, tiles.2.1, Nat.add_pos_right _ positive, trivial⟩
      · rw [split, isChain_concat] at maximal
        rw [added, isChain_concat]
        exact maximal
      · rw [added, ← holds.ids, split]
        simp [BlockRun.ids, seqIds_add, joins]
    · refine ⟨size, ?_, ?_, ?_⟩
      · rw [added, tiles_append, Nat.zero_add, counted]
        exact ⟨tiles, rfl, positive, trivial⟩
      · rw [added, isChain_concat, split, List.getLast?_concat]
        refine ⟨split ▸ maximal, fun last isLast => ?_⟩
        obtain rfl := Option.some.inj isLast
        exact joins
      · rw [added, flatMap_append, holds.ids]
        simp [BlockRun.ids]

/-- A trim cuts the last runs. -/
theorem trim (nonempty : ids ≠ []) (n : Nat) : (vec.trim n).Holds (ids.take (ids.length - n)) := by
  obtain ⟨before, run, after, split, taken, -, above, -, cut, -⟩ :=
    holds.exists_cut nonempty (Nat.sub_le ids.length n)
  have size : (vec.trim n).vecSize = (ids.take (ids.length - n)).length := by
    rw [length_take, Nat.min_eq_left (Nat.sub_le ..), ← holds.size]
    rfl
  have trimmed : (vec.trim n).blockMap =
      if run.index = ids.length - n then
        before
      else
        before ++ [{ run with count := ids.length - n - run.index }] := by
    simp [BlockVec.trim, holds.size, taken]
  have tiles := holds.tiles
  have maximal := holds.maximal
  rw [split, tiles_append] at tiles
  rw [split, isChain_split, isChain_concat] at maximal
  split_ifs at trimmed with atStart
  · refine ⟨size, trimmed ▸ tiles.1, trimmed ▸ maximal.1.1, ?_⟩
    rw [trimmed, cut, atStart, Nat.sub_self]
    simp [seqIds]
  · refine ⟨size, ?_, ?_, ?_⟩
    · rw [trimmed, tiles_append]
      exact ⟨tiles.1, tiles.2.1, Nat.sub_pos_of_lt (Nat.lt_of_le_of_ne above atStart), trivial⟩
    · rw [trimmed, isChain_concat]
      exact maximal.1
    · rw [trimmed, cut]
      simp [BlockRun.ids]

omit holds in
theorem flatMap_reportRuns (runs : List BlockRun) (left : Nat) :
    (reportRuns (fun _ => true) runs left).flatMap (fun range => seqIds range.1 range.2) =
      (runs.flatMap BlockRun.ids).take left := by
  induction runs generalizing left with
  | nil => simp [reportRuns]
  | cons run runs ih =>
    rw [reportRuns]
    split
    case isTrue none => simp [none]
    case isFalse =>
      simp only [if_true, flatMap_cons, ih, take_append, BlockRun.ids, take_seqIds, length_seqIds]
      rw [show left - min left run.count = left - run.count by omega]

/-- The ranges reported cover the positions asked for. -/
theorem flatMap_forEachSeqRangeInRange {start stop : Nat} (le : start ≤ stop)
    (inside : stop ≤ ids.length) :
    (vec.forEachSeqRangeInRange (fun _ => true) start stop).flatMap
        (fun range => seqIds range.1 range.2) =
      (ids.take stop).drop start := by
  rw [forEachSeqRangeInRange, drop_take]
  split
  case isFalse empty => simp [Nat.sub_eq_zero_of_le (Nat.not_lt.mp empty)]
  case isTrue some =>
    obtain ⟨before, run, after, -, taken, dropped, -, -, -, cut⟩ :=
      holds.exists_cut (ne_nil_of_length_pos (by omega)) (Nat.le_trans le inside)
    set offset := start - run.index
    simp only [taken, List.getLast?_concat, dropped, if_true, flatMap_cons,
      flatMap_reportRuns, cut, take_append, take_seqIds, length_seqIds]
    rw [show stop - start - min (stop - start) (run.count - offset) =
      stop - start - (run.count - offset) by omega]

/-- One operation on the vector is the operation on the list. -/
theorem step {op : BlockVecOp} {after : List UInt64} (built : op.build ids = some after) :
    (op.apply vec).Holds after := by
  cases op with
  | pushBlock block =>
    obtain ⟨-, isAfter⟩ := Option.ite_none_right_eq_some.mp built
    obtain rfl := Option.some.inj isAfter
    have pushed := holds.pushRange block Nat.one_pos
    rwa [show seqIds block 1 = [block] by simp [seqIds]] at pushed
  | pushRange block count =>
    obtain ⟨⟨positive, -⟩, isAfter⟩ := Option.ite_none_right_eq_some.mp built
    obtain rfl := Option.some.inj isAfter
    exact holds.pushRange block positive
  | trim n =>
    obtain ⟨⟨nonempty, -⟩, isAfter⟩ := Option.ite_none_right_eq_some.mp built
    obtain rfl := Option.some.inj isAfter
    exact holds.trim nonempty n

end Holds

end BlockVec

/--
Whatever a caller pushes and trims, the block list is the list of ids that the operations
build: its size, its elements, its runs and the ranges it reports are those of the list.
-/
theorem blockVec_is_list (ops : List BlockVecOp) {ids : List UInt64}
    (built : ops.foldlM BlockVecOp.build [] = some ids) :
    let vec := ops.foldl BlockVecOp.apply ⟨[], 0⟩
    vec.Holds ids ∧ (∀ pos < vec.vecSize, vec.get? pos = ids[pos]?) ∧
      ∀ start stop, start ≤ stop → stop ≤ vec.vecSize →
        (vec.forEachSeqRangeInRange (fun _ => true) start stop).flatMap
            (fun range => seqIds range.1 range.2) = (ids.take stop).drop start := by
  have holds : (ops.foldl BlockVecOp.apply ⟨[], 0⟩).Holds ids := by
    have initial : (⟨[], 0⟩ : BlockVec).Holds [] := ⟨rfl, trivial, .nil, rfl⟩
    revert initial built
    generalize (⟨[], 0⟩ : BlockVec) = vec
    generalize ([] : List UInt64) = before
    induction ops generalizing vec before with
    | nil => rintro ⟨⟩ initial; exact initial
    | cons op ops ih =>
      intro built initial
      obtain ⟨next, stepped, rest⟩ := Option.bind_eq_some_iff.mp built
      exact ih _ _ rest (initial.step stepped)
  intro vec
  rw [holds.size]
  exact ⟨holds, fun pos => holds.get?, fun start stop => holds.flatMap_forEachSeqRangeInRange⟩

/-- Two runs are built, the second is cut off, and the next push goes on with the first. -/
theorem blockVec_is_list_joined :
    [.pushBlock 7, .pushRange 3 2, .trim 2, .pushRange 8 2].foldlM BlockVecOp.build [] =
        some [7, 8, 9] ∧
      ([.pushBlock 7, .pushRange 3 2, .trim 2, .pushRange 8 2].foldl BlockVecOp.apply
        ⟨[], 0⟩).Holds [7, 8, 9] :=
  ⟨rfl, (blockVec_is_list [.pushBlock 7, .pushRange 3 2, .trim 2, .pushRange 8 2] rfl).1⟩

end Orly
