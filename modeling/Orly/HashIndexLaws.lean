import Orly.HashIndex

namespace Orly

/-!
# What the collectors of a data file hold

After any sorted run of keys, the collector for a prefix length holds an object for
every prefix of that length, and each object names the first key with its prefix.
-/

open List

namespace IndexWriter

section Prefixes

variable {Value : Type} [DecidableEq Value] (tupleHash : TupleHash Value)
variable (key : List Value) (curKeyOffset : Nat) {previous : Option (List Value)}

/-- The objects that the prefix loop adds to the collector of one size. -/
def addedObjs (tupleHash : TupleHash Value) (previous : Option (List Value)) (key : List Value)
    (curKeyOffset size : Nat) :
    List (HashObj Value) :=
  if previous.map (List.take (size + 1)) = some (key.take (size + 1)) then
    []
  else
    [hashObj tupleHash (key.take (size + 1)) curKeyOffset]

omit [DecidableEq Value] in
theorem map_take_of_le {key : List Value} {small large : Nat} (smaller : small ≤ large)
    (same : previous.map (List.take large) = some (key.take large)) :
    previous.map (List.take small) = some (key.take small) := by
  cases previous with
  | none => simp at same
  | some last =>
    have taken : last.take large = key.take large := by simpa using same
    have shorter := congrArg (List.take small) taken
    simpa [take_take, Nat.min_eq_left smaller] using shorter

/-- The prefix loop keeps everything but what it has seen and collected. -/
theorem pushPrefixes_frame (size : Nat) (writer : IndexWriter Value) :
    (pushPrefixes tupleHash key curKeyOffset size writer).prevKeyWritten = writer.prevKeyWritten ∧
      (pushPrefixes tupleHash key curKeyOffset size writer).numCurKeys = writer.numCurKeys ∧
      (pushPrefixes tupleHash key curKeyOffset size writer).streamOffset = writer.streamOffset ∧
      (pushPrefixes tupleHash key curKeyOffset size writer).hashCollectorVec.length =
        writer.hashCollectorVec.length := by
  induction size generalizing writer with
  | zero => simp [pushPrefixes]
  | succ size ih =>
    rw [pushPrefixes]
    split
    · simp
    · have rest := ih (writer.collectPrefix tupleHash key curKeyOffset size)
      simpa [collectPrefix] using rest

omit [DecidableEq Value] in
/-- Collecting a prefix leaves the shorter ones as they were seen. -/
theorem collectPrefix_seenPrefix {size : Nat} {writer : IndexWriter Value}
    (seen : ∀ other, 0 < other → other ≤ size + 1 →
      writer.seenPrefix other = previous.map (List.take other)) :
    ∀ other, 0 < other → other ≤ size →
      (writer.collectPrefix tupleHash key curKeyOffset size).seenPrefix other =
        previous.map (List.take other) := by
  intro other positive inside
  rw [← seen other positive (by omega)]
  exact Function.update_of_ne (by omega) _ _

/-- After the loop every size up to the first one has seen the prefix of this key. -/
theorem pushPrefixes_seenPrefix (size : Nat) (writer : IndexWriter Value)
    (seen : ∀ other, 0 < other → other ≤ size →
      writer.seenPrefix other = previous.map (List.take other)) (other : Nat) :
    (pushPrefixes tupleHash key curKeyOffset size writer).seenPrefix other =
      if 0 < other ∧ other ≤ size then some (key.take other) else writer.seenPrefix other := by
  induction size generalizing writer with
  | zero =>
    rw [pushPrefixes, if_neg (by omega)]
  | succ size ih =>
    rw [pushPrefixes]
    split
    case isTrue known =>
      split
      case isTrue inside =>
        rw [seen (size + 1) (by omega) (by omega)] at known
        rw [seen other inside.1 inside.2]
        exact map_take_of_le inside.2 known
      case isFalse => rfl
    case isFalse new =>
      rw [ih _ (collectPrefix_seenPrefix tupleHash key curKeyOffset seen)]
      by_cases top : other = size + 1
      · subst top
        rw [if_neg (by omega), if_pos (by omega)]
        exact Function.update_self _ _ _
      · have unchanged : (writer.collectPrefix tupleHash key curKeyOffset size).seenPrefix other =
              writer.seenPrefix other := Function.update_of_ne top _ _
        rw [unchanged]
        have sameRange : (0 < other ∧ other ≤ size) ↔ (0 < other ∧ other ≤ size + 1) := by
          omega
        simp only [sameRange]

omit [DecidableEq Value] in
theorem collectPrefix_getD
    (writer : IndexWriter Value) {size : Nat} (inside : size < writer.hashCollectorVec.length)
    (other : Nat) :
    (writer.collectPrefix tupleHash key curKeyOffset size).hashCollectorVec.getD other [] =
      writer.hashCollectorVec.getD other [] ++
        if other = size then
          [hashObj tupleHash (key.take (size + 1)) curKeyOffset]
        else [] := by
  simp only [collectPrefix, getD_eq_getElem?_getD, getElem?_modify]
  by_cases same : other = size
  · subst same
    simp [getElem?_eq_getElem inside]
  · have differs : ¬ size = other := fun eq => same eq.symm
    simp [same, differs]

/-- The loop adds to the collector of a size exactly when the key before had another
prefix of that size. -/
theorem pushPrefixes_hashCollectorVec (size : Nat) (writer : IndexWriter Value)
    (seen : ∀ other, 0 < other → other ≤ size →
      writer.seenPrefix other = previous.map (List.take other))
    (tables : size ≤ writer.hashCollectorVec.length) (other : Nat) :
    (pushPrefixes tupleHash key curKeyOffset size writer).hashCollectorVec.getD other [] =
      writer.hashCollectorVec.getD other [] ++
        if other < size then addedObjs tupleHash previous key curKeyOffset other else [] := by
  induction size generalizing writer with
  | zero => simp [pushPrefixes]
  | succ size ih =>
    rw [pushPrefixes]
    have top := seen (size + 1) (by omega) (by omega)
    split
    case isTrue known =>
      rw [top] at known
      have noneAdded : ∀ below, below < size + 1 →
          addedObjs tupleHash previous key curKeyOffset below = [] := by
        intro below inside
        exact if_pos (map_take_of_le (by omega) known)
      split
      case isTrue inside => rw [noneAdded other inside, append_nil]
      case isFalse => rw [append_nil]
    case isFalse new =>
      rw [top] at new
      have enough :
          size ≤ (writer.collectPrefix tupleHash key curKeyOffset
            size).hashCollectorVec.length := by
        simp [collectPrefix]
        omega
      have topAdded : addedObjs tupleHash previous key curKeyOffset size =
            [hashObj tupleHash (key.take (size + 1)) curKeyOffset] := if_neg new
      rw [ih _ (collectPrefix_seenPrefix tupleHash key curKeyOffset seen) enough,
        collectPrefix_getD tupleHash key curKeyOffset writer (by omega), append_assoc, ← topAdded]
      rcases Nat.lt_trichotomy other size with below | same | above
      · simp [below, Nat.ne_of_lt below, Nat.lt_succ_of_lt below]
      · simp [same]
      · simp [Nat.not_lt_of_gt above, Nat.ne_of_gt above, Nat.not_lt_of_ge above]

end Prefixes

section Keys

variable {Value : Type} [LinearOrder Value] {tupleHash : TupleHash Value}
variable {base arity : Nat} {keys : List (List Value)} {writer : IndexWriter Value}

/-- In sorted keys, the keys with one prefix stand together. -/
theorem take_eq_of_between
    {first middle last : List Value} (size : Nat) (firstMiddle : first < middle)
    (middleLast : middle < last) (same : first.take size = last.take size) :
    middle.take size = last.take size := by
  induction size generalizing first middle last with
  | zero => rfl
  | succ size ih =>
    cases first with
    | nil =>
      cases last with
      | nil => exact absurd middleLast (not_lt_nil middle)
      | cons lastHead last => simp at same
    | cons firstHead first =>
      cases middle with
      | nil => exact absurd firstMiddle (not_lt_nil _)
      | cons middleHead middle =>
        cases last with
        | nil => exact absurd middleLast (not_lt_nil _)
        | cons lastHead last =>
          rw [take_succ_cons, take_succ_cons] at same
          obtain ⟨sameHead, sameTail⟩ := List.cons.inj same
          subst sameHead
          rw [take_succ_cons, take_succ_cons]
          rcases cons_lt_cons_iff.mp firstMiddle with up | ⟨firstEq, firstTail⟩
          · rcases cons_lt_cons_iff.mp middleLast with down | ⟨lastEq, _⟩
            · exact absurd (lt_trans up down) (lt_irrefl _)
            · exact absurd lastEq (ne_of_gt up)
          · subst firstEq
            rcases cons_lt_cons_iff.mp middleLast with down | ⟨_, lastTail⟩
            · exact absurd down (lt_irrefl _)
            · rw [ih firstTail lastTail sameTail]

/-- What a writer holds after these current keys: its position in the key index, the
prefixes of the last key, and in each collector the prefixes of all keys with the offset
of the first key of each. -/
structure Indexed (tupleHash : TupleHash Value) (base arity : Nat) (keys : List (List Value))
    (writer : IndexWriter Value) : Prop where
  numCurKeys : writer.numCurKeys = keys.length
  prevKeyWritten : writer.prevKeyWritten = keys.getLast?
  nextKeyOffset : writer.nextKeyOffset = base + keyEntrySize * keys.length
  seenPrefix : ∀ size, 0 < size → size ≤ arity →
    writer.seenPrefix size = keys.getLast?.map (List.take size)
  tables : writer.hashCollectorVec.length = arity
  sound : ∀ size, size < arity → ∀ obj ∈ writer.hashCollectorVec.getD size [],
    obj.core.members.length = size + 1 ∧ ∃ rank,
        keys.findIdx? (obj.core.members.isPrefixOf ·) = some rank ∧
          obj = hashObj tupleHash obj.core.members (base + keyEntrySize * rank)
  complete : ∀ size, size < arity → ∀ key ∈ keys,
    ∃ obj ∈ writer.hashCollectorVec.getD size [], obj.core.members = key.take (size + 1)

theorem indexed_new : Indexed tupleHash base arity [] (new base arity) where
  numCurKeys := rfl
  prevKeyWritten := rfl
  nextKeyOffset := rfl
  seenPrefix := by
    intro size _ _
    rfl
  tables := by simp [new]
  sound := by
    intro size inside obj mem
    simp [new, getD_eq_getElem?_getD, inside] at mem
  complete := by simp

omit [LinearOrder Value] in
theorem isPrefixOf_take_iff [DecidableEq Value] {key other : List Value} {size : Nat}
    (inside : size ≤ key.length) :
    (key.take size).isPrefixOf other ↔ other.take size = key.take size := by
  rw [List.isPrefixOf_iff_prefix, List.prefix_iff_eq_take, length_take_of_le inside]
  exact eq_comm

/-- No earlier key has a prefix that the last key before this one does not have. -/
theorem findIdx?_new_prefix
    {key : List Value} {size : Nat} (sorted : (keys ++ [key]).Pairwise (· < ·))
    (inside : size ≤ key.length) (new : keys.getLast?.map (List.take size) ≠ some (key.take size)) :
    (keys ++ [key]).findIdx? ((key.take size).isPrefixOf ·) = some keys.length := by
  have noneEarlier : keys.findIdx? ((key.take size).isPrefixOf ·) = none := by
    rw [findIdx?_eq_none_iff]
    intro earlier mem
    rw [Bool.eq_false_iff]
    intro starts
    have sameTaken := (isPrefixOf_take_iff inside).mp starts
    obtain ⟨initial, last, rfl⟩ := eq_nil_or_concat keys |>.resolve_left (ne_nil_of_mem mem)
    rw [concat_eq_append] at sorted new mem
    obtain ⟨keysSorted, _, belowKey⟩ := pairwise_append.mp sorted
    have lastBelow : last < key := belowKey last (by simp) key (by simp)
    refine new ?_
    rw [getLast?_append, getLast?_singleton, Option.some_or, Option.map_some]
    refine congrArg some ?_
    rcases mem_append.mp mem with inInitial | isLast
    · have earlierBelow : earlier < last :=
        (pairwise_append.mp keysSorted).2.2 earlier inInitial last (by simp)
      exact take_eq_of_between size earlierBelow lastBelow sameTaken
    · rwa [← mem_singleton.mp isLast]
  have here : (key.take size).isPrefixOf key := by
    rw [isPrefixOf_take_iff inside]
  rw [findIdx?_append, noneEarlier]
  simp [here]

namespace Indexed

/-- A key equal to the last one changes nothing the hash tables are made of. -/
theorem pushKey_history {key : List Value} (indexed : Indexed tupleHash base arity keys writer)
    (last : keys.getLast? = some key) :
    Indexed tupleHash base arity keys (pushKey tupleHash writer key) := by
  rw [pushKey, if_pos (indexed.prevKeyWritten.trans last)]
  exact { indexed with }

theorem pushKey_new {key : List Value} (indexed : Indexed tupleHash base arity keys writer)
    (sameType : key.length = arity) (sorted : (keys ++ [key]).Pairwise (· < ·)) :
    Indexed tupleHash base arity (keys ++ [key]) (pushKey tupleHash writer key) := by
  have notLast : writer.prevKeyWritten ≠ some key := by
    rw [indexed.prevKeyWritten]
    intro last
    have below := (pairwise_append.mp sorted).2.2 key (mem_of_getLast? last) key (by simp)
    exact List.lt_irrefl key below
  rw [pushKey, if_neg notLast, sameType, indexed.nextKeyOffset]
  set offset := base + keyEntrySize * keys.length with offsetEq
  set started : IndexWriter Value :=
    { writer with
      prevKeyWritten := some key
      numCurKeys := writer.numCurKeys + 1
      streamOffset := offset + keyHeadSize } with startedEq
  obtain ⟨prevKept, numKept, streamKept, tablesKept⟩ :=
    pushPrefixes_frame tupleHash key offset arity started
  have seenAfter := pushPrefixes_seenPrefix tupleHash key offset arity started indexed.seenPrefix
  have collected :=
    pushPrefixes_hashCollectorVec tupleHash key offset arity started indexed.seenPrefix
      (Nat.le_of_eq indexed.tables.symm)
  refine
    { numCurKeys := ?_
      prevKeyWritten := ?_
      nextKeyOffset := ?_
      seenPrefix := ?_
      tables := ?_
      sound := ?_
      complete := ?_ }
  · rw [numKept, length_append, length_singleton]
    exact congrArg (· + 1) indexed.numCurKeys
  · rw [prevKept]
    simp [startedEq]
  · rw [IndexWriter.nextKeyOffset, prevKept, streamKept]
    simp only [startedEq, Option.isSome_some, ↓reduceIte, length_append,
      length_singleton, offsetEq, keyHeadSize, keyTailSize, keyEntrySize, coreSize]
    omega
  · intro size positive inside
    rw [seenAfter size, if_pos ⟨positive, inside⟩]
    simp
  · rw [tablesKept]
    exact indexed.tables
  · intro size inside obj mem
    rw [collected size, if_pos inside] at mem
    rcases mem_append.mp mem with old | added
    · obtain ⟨length, rank, atRank, objEq⟩ := indexed.sound size inside obj old
      refine ⟨length, rank, ?_, objEq⟩
      rw [findIdx?_append, atRank]
      rfl
    · rw [addedObjs] at added
      split at added
      case isTrue => simp at added
      case isFalse new =>
        rw [mem_singleton.mp added]
        refine ⟨?_, keys.length, ?_, rfl⟩
        · simp only [hashObj, length_take]
          omega
        · exact findIdx?_new_prefix sorted (by omega) new
  · intro size inside other mem
    rw [collected size, if_pos inside]
    have oldComplete := indexed.complete size inside
    rcases mem_append.mp mem with old | last
    · obtain ⟨obj, objIn, members⟩ := oldComplete other old
      exact ⟨obj, mem_append_left _ objIn, members⟩
    · rw [mem_singleton.mp last, addedObjs]
      split
      case isTrue known =>
        obtain ⟨before, beforeLast, sameTaken⟩ := Option.map_eq_some_iff.mp known
        obtain ⟨obj, objIn, members⟩ := oldComplete before (mem_of_getLast? beforeLast)
        exact ⟨obj, mem_append_left _ objIn, members.trans sameTaken⟩
      case isFalse =>
        exact ⟨_, mem_append_right _ (mem_singleton_self _), rfl⟩

end Indexed

end Keys

end IndexWriter

end Orly
