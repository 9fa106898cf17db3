import Orly.HashIndexLaws

namespace Orly

/-!
# Lookups in the hash index of a data file

A lookup is a search of the objects of one prefix length in the order of their slots.
It always stops.  It answers for the looked-up prefix exactly when the comparison of a
truncated prefix with a pattern that has free members left over, which looks at the first
member only, cannot take another prefix for it.
-/

open List IndexWriter

section Match

variable {Value : Type} [DecidableEq Value]

/-- A pattern: its defined members, then free ones. -/
def keyPattern (defined : List Value) (frees : Nat) : List (Option Value) :=
  defined.map some ++ List.replicate frees none

omit [DecidableEq Value] in
theorem tupleNumNonFree_keyPattern (defined : List Value) (frees : Nat) :
    tupleNumNonFree (keyPattern defined frees) = defined.length := by
  rw [tupleNumNonFree, keyPattern]
  cases defined with
  | nil => cases frees <;> simp [replicate_succ]
  | cons value defined => simp

/-- While the types unify, the loop compares every member. -/
theorem matchMembers_unifies (defined members : List Value)
    (sameLength : members.length = defined.length) :
    isPrefixMatch (matchMembers .unifies (defined.map some) members) = true ↔
      members = defined := by
  induction defined generalizing members with
  | nil =>
    have none : members = [] := by simpa using sameLength
    simp [none, matchMembers, isPrefixMatch]
  | cons value defined ih =>
    cases members with
    | nil => simp at sameLength
    | cons mem members =>
      have rest := ih members (by simpa using sameLength)
      rw [map_cons, matchMembers, matchMember]
      by_cases same : value = mem
      · subst same
        simpa using rest
      · have differs : ¬ mem = value := fun eq => same eq.symm
        simp [same, differs, isPrefixMatch]

/-- With free members left over, the loop stops after the first member. -/
theorem matchMembers_prefixMatch
    (defined members : List Value) (frees : Nat) (sameLength : members.length = defined.length)
    (nonempty : defined ≠ []) :
    isPrefixMatch (matchMembers .prefixMatch (keyPattern defined frees) members) = true ↔
      members.head? = defined.head? := by
  cases defined with
  | nil => exact absurd rfl nonempty
  | cons value defined =>
    cases members with
    | nil => simp at sameLength
    | cons mem members =>
      rw [keyPattern, map_cons, cons_append, matchMembers, matchMember]
      by_cases same : value = mem
      · simp [same, isPrefixMatch]
      · have differs : ¬ mem = value := fun eq => same eq.symm
        simp [same, differs, isPrefixMatch]

theorem matchPrefixState_keyPattern
    (defined members : List Value) (frees : Nat) (sameLength : members.length = defined.length)
    (nonempty : defined ≠ []) :
    isPrefixMatch (matchPrefixState (keyPattern defined frees) members) = true ↔
      if frees = 0 then members = defined else members.head? = defined.head? := by
  have patternLength : (keyPattern defined frees).length = defined.length + frees := by
    simp [keyPattern]
  by_cases full : frees = 0
  · subst full
    have unified : matchPrefixType (keyPattern defined 0) members = .unifies := by
      rw [matchPrefixType, if_pos (by omega)]
    rw [matchPrefixState, unified, if_pos rfl]
    simpa [keyPattern] using matchMembers_unifies defined members sameLength
  · have leftOver : matchPrefixType (keyPattern defined frees) members = .prefixMatch := by
      have dropped :
          (keyPattern defined frees).drop members.length = List.replicate frees none := by
        rw [keyPattern, sameLength]
        exact drop_left' (by simp)
      rw [matchPrefixType, if_neg (by omega), if_pos (by omega), dropped]
      simp
    rw [matchPrefixState, leftOver, if_neg full]
    exact matchMembers_prefixMatch defined members frees sameLength nonempty

end Match

section Lookups

variable {Value : Type} [LinearOrder Value] {tupleHash : TupleHash Value}
variable {base arity : Nat} {keys : List (List Value)} {writer : IndexWriter Value}

/-- The pushes of some keys, each with its number of history entries behind it. -/
def pushedEntries (entries : List (List Value × Nat)) : List (List Value) :=
  entries.flatMap fun entry => List.replicate (entry.2 + 1) entry.1

/-- A key pushed again adds nothing. -/
theorem IndexWriter.Indexed.pushHistory {key : List Value}
    (indexed : Indexed tupleHash base arity keys writer)
    (last : keys.getLast? = some key) (count : Nat) :
    Indexed tupleHash base arity keys (writer.pushKeys tupleHash (List.replicate count key)) := by
  induction count generalizing writer with
  | zero => exact indexed
  | succ count ih =>
    exact ih (indexed.pushKey_history last)

theorem IndexWriter.Indexed.pushEntries (indexed : Indexed tupleHash base arity keys writer)
    (entries : List (List Value × Nat)) (sameType : ∀ entry ∈ entries, entry.1.length = arity)
    (sorted : (keys ++ entries.map Prod.fst).Pairwise (· < ·)) :
    Indexed tupleHash base arity (keys ++ entries.map Prod.fst)
      (writer.pushKeys tupleHash (pushedEntries entries)) := by
  induction entries generalizing keys writer with
  | nil => simpa [pushedEntries, pushKeys] using indexed
  | cons entry entries ih =>
    have split : keys ++ (entry :: entries).map Prod.fst =
        (keys ++ [entry.1]) ++ entries.map Prod.fst := by simp
    rw [split] at sorted ⊢
    have keyPushed := indexed.pushKey_new (sameType entry (by simp)) (pairwise_append.mp sorted).1
    have lastPushed : (keys ++ [entry.1]).getLast? = some entry.1 := by simp
    have historyPushed := keyPushed.pushHistory lastPushed entry.2
    have rest := ih historyPushed (fun other mem => sameType other (by simp [mem])) sorted
    have pushes : pushedEntries (entry :: entries) =
        entry.1 :: (List.replicate entry.2 entry.1 ++ pushedEntries entries) := by
      simp [pushedEntries, replicate_succ]
    rw [pushes]
    simpa [pushKeys] using rest

variable {sizes : HashSizes} {cursor : HashCursor Value}

/-- The prefixes a lookup takes for the one it looks for. -/
def Mistaken (tupleHash : TupleHash Value) (defined : List Value) (frees : Nat)
    (members : List Value) : Prop :=
  tupleHash.hash (members.map some) = tupleHash.hash (defined.map some) ∧
    if frees = 0 then members = defined else members.head? = defined.head?

instance (defined : List Value) (frees : Nat) (members : List Value) :
    Decidable (Mistaken tupleHash defined frees members) :=
  inferInstanceAs (Decidable (_ ∧ ite _ _ _))

/-- What is known of an object of one table: the size of its prefix, its stored hash and
the slot the hash is cut to. -/
structure Collected (tupleHash : TupleHash Value) (size numHashFields : Nat)
    (obj : HashObj Value) : Prop where
  length : obj.core.members.length = size
  storedHash : obj.core.storedHash = tupleHash.hash (obj.core.members.map some)
  hash : obj.hash = obj.core.storedHash % numHashFields

section Judge

variable {numHashFields frees : Nat} {defined : List Value} {obj : HashObj Value}

theorem Collected.judgeSlot_hit_iff
    (collected : Collected tupleHash defined.length numHashFields obj) (nonempty : defined ≠ []) :
    judgeSlot (keyPattern defined frees) numHashFields
          (tupleHash.hash (keyPattern defined frees)) obj.slot =
        .hit ↔
      Mistaken tupleHash defined frees obj.core.members := by
  have matched := matchPrefixState_keyPattern defined obj.core.members frees
    collected.length nonempty
  have patternHash : tupleHash.hash (keyPattern defined frees) =
      tupleHash.hash (defined.map some) := tupleHash.hash_frees defined frees
  rw [Mistaken, ← matched, ← collected.storedHash, patternHash]
  rw [judgeSlot]
  change (if obj.core.storedHash = tupleHash.hash (defined.map some) then _ else _) = _ ↔ _
  by_cases sameHash : obj.core.storedHash = tupleHash.hash (defined.map some)
  · rw [if_pos sameHash]
    change (if isPrefixMatch (matchPrefixState _ obj.core.members) then _ else _) = _ ↔ _
    by_cases hit : isPrefixMatch (matchPrefixState (keyPattern defined frees) obj.core.members)
    · simp [hit, sameHash]
    · simp [hit]
  · rw [if_neg sameHash]
    split <;> simp [sameHash]

omit [LinearOrder Value] in
theorem Collected.home_of_hit
    [DecidableEq Value] {pattern : List (Option Value)} {size hashToLookFor : Nat}
    (collected : Collected tupleHash size numHashFields obj)
    (hit : judgeSlot pattern numHashFields hashToLookFor obj.slot = .hit) :
    obj.hash = hashToLookFor % numHashFields := by
  rw [judgeSlot] at hit
  split at hit
  case isTrue sameHash =>
    have storedHash : obj.core.storedHash = hashToLookFor := sameHash
    rw [collected.hash, storedHash]
  case isFalse otherHash => split at hit <;> simp at hit

omit [LinearOrder Value] in
theorem Collected.past_of_stop
    [DecidableEq Value] {pattern : List (Option Value)} {size hashToLookFor : Nat}
    (collected : Collected tupleHash size numHashFields obj)
    (stop : judgeSlot pattern numHashFields hashToLookFor obj.slot = .stop) :
    hashToLookFor % numHashFields < obj.hash := by
  rw [judgeSlot] at stop
  split at stop
  case isTrue sameHash => split at stop <;> simp at stop
  case isFalse otherHash =>
    split at stop
    case isTrue past => rwa [collected.hash]
    case isFalse => simp at stop

end Judge

/-- How a search of objects ends a lookup. -/
def lookupAnswer : Option (HashObj Value) → LookupOutcome
  | none => .absent
  | some obj => .found obj.offset

/-- The objects of a table in the order of their slots. -/
def walkedObjs (sizes : HashSizes) (cursor : HashCursor Value) (collection : List (HashObj Value)) :
    List (HashObj Value) :=
  cursor.walk (collection.map (HashObj.modded (sizes.suggestHashSize collection.length)))

/-- A probe of a flushed table is a search of its objects in order. -/
theorem probeTable_flushTable
    {size : Nat} {collection : List (HashObj Value)} (pattern : List (Option Value))
    (collected : ∀ obj ∈ walkedObjs sizes cursor collection,
      Collected tupleHash size (sizes.suggestHashSize collection.length) obj) :
    probeTable tupleHash pattern (flushTable sizes cursor collection) = lookupAnswer
        ((walkedObjs sizes cursor collection).find? fun obj =>
          judgeSlot pattern (sizes.suggestHashSize collection.length)
            (tupleHash.hash pattern) obj.slot = .hit) := by
  set numHashFields := sizes.suggestHashSize collection.length with fieldsEq
  have room : (walkedObjs sizes cursor collection).length < numHashFields := by
    rw [walkedObjs, (cursor.perm _).length_eq, length_map]
    exact sizes.room _
  have inside : tupleHash.hash pattern % numHashFields < numHashFields := Nat.mod_lt _ (by omega)
  have tableLength : (flushTable sizes cursor collection).length = numHashFields := by
    rw [flushTable, length_map, TwoPassTable.table_length]
  have slots : flushTable sizes cursor collection =
      (TwoPassTable.table HashObj.hash numHashFields
        (walkedObjs sizes cursor collection)).map (Option.map HashObj.slot) := rfl
  simp only [probeTable, tableLength]
  rw [slots, TwoPassTable.around_map, TwoPassTable.probe_map]
  have answered : TwoPassTable.probe
          (fun obj => judgeSlot pattern numHashFields (tupleHash.hash pattern) obj.slot)
          (TwoPassTable.around (TwoPassTable.table HashObj.hash numHashFields
              (walkedObjs sizes cursor collection))
            (tupleHash.hash pattern % numHashFields)) =
        some ((walkedObjs sizes cursor collection).find? fun obj =>
          judgeSlot pattern numHashFields (tupleHash.hash pattern) obj.slot = .hit) :=
    TwoPassTable.probe_table (cursor.sorted _) room inside
      (fun obj mem hit => (collected obj mem).home_of_hit hit)
      (fun obj mem stop => (collected obj mem).past_of_stop stop)
  rw [answered]
  cases (walkedObjs sizes cursor collection).find? fun obj =>
      judgeSlot pattern numHashFields (tupleHash.hash pattern) obj.slot = .hit with
  | none => rfl
  | some obj => rfl

omit [LinearOrder Value] in
theorem exists_key_of_findIdx? [DecidableEq Value] {members : List Value} {rank : Nat}
    (atRank : keys.findIdx? (members.isPrefixOf ·) = some rank) :
    ∃ key, keys[rank]? = some key ∧ key.take members.length = members := by
  obtain ⟨inside, starts, _⟩ := findIdx?_eq_some_iff_getElem.mp atRank
  refine ⟨keys[rank], getElem?_eq_getElem inside, ?_⟩
  have starting := List.prefix_iff_eq_take.mp (List.isPrefixOf_iff_prefix.mp starts)
  exact starting.symm

namespace IndexWriter.Indexed

section

variable (indexed : Indexed tupleHash base arity keys writer)

include indexed

/-- Every object of a table names the first key with its prefix. -/
theorem walked_sound {size : Nat} (inside : size < arity) {obj : HashObj Value}
    (mem : obj ∈ walkedObjs sizes cursor (writer.hashCollectorVec.getD size [])) :
    Collected tupleHash (size + 1)
        (sizes.suggestHashSize (writer.hashCollectorVec.getD size []).length) obj ∧
      ∃ rank, keys.findIdx? (obj.core.members.isPrefixOf ·) = some rank ∧
          obj.offset = base + keyEntrySize * rank := by
  rw [walkedObjs, (cursor.perm _).mem_iff] at mem
  obtain ⟨pushed, pushedIn, rfl⟩ := mem_map.mp mem
  obtain ⟨length, rank, atRank, pushedEq⟩ := indexed.sound size inside pushed pushedIn
  have storedHash : pushed.core.storedHash = tupleHash.hash (pushed.core.members.map some) :=
    congrArg (fun obj : HashObj Value => obj.core.storedHash) pushedEq
  have hash : pushed.hash = tupleHash.hash (pushed.core.members.map some) :=
    congrArg HashObj.hash pushedEq
  refine ⟨⟨length, storedHash, ?_⟩, rank, atRank, congrArg HashObj.offset pushedEq⟩
  simp only [HashObj.modded, hash, storedHash]

/-- Every key has its object in the table of each size. -/
theorem walked_complete (sizes : HashSizes) (cursor : HashCursor Value) {size : Nat}
    (inside : size < arity) {key : List Value} (mem : key ∈ keys) :
    ∃ obj ∈ walkedObjs sizes cursor (writer.hashCollectorVec.getD size []),
      obj.core.members = key.take (size + 1) := by
  obtain ⟨pushed, pushedIn, members⟩ := indexed.complete size inside key mem
  have walked :
      pushed.modded (sizes.suggestHashSize (writer.hashCollectorVec.getD size []).length) ∈
        walkedObjs sizes cursor (writer.hashCollectorVec.getD size []) := by
    rw [walkedObjs, (cursor.perm _).mem_iff]
    exact mem_map_of_mem pushedIn
  exact ⟨_, walked, members⟩

/-- A lookup is a search of the objects of the table for its number of defined members
for one that it takes for its own prefix. -/
theorem findInHash_eq {defined : List Value}
    {size : Nat} (definedLength : defined.length = size + 1) (inside : size < arity) (frees : Nat) :
    findInHash tupleHash (flushHashes sizes cursor base writer) (keyPattern defined frees) =
      lookupAnswer
        ((walkedObjs sizes cursor (writer.hashCollectorVec.getD size [])).find? fun obj =>
          Mistaken tupleHash defined frees obj.core.members) := by
  have someDefined : tupleNumNonFree (keyPattern defined frees) = size + 1 := by
    rw [tupleNumNonFree_keyPattern, definedLength]
  have table : (flushHashes sizes cursor base writer).hashTables.getD (size + 1 - 1) [] =
        flushTable sizes cursor (writer.hashCollectorVec.getD size []) := by
    have isTable : size < writer.hashCollectorVec.length := by
      rw [indexed.tables]
      exact inside
    simp [flushHashes, getD_eq_getElem?_getD, isTable]
  rw [findInHash, someDefined, if_pos (by omega), table,
    probeTable_flushTable _ fun obj mem => (indexed.walked_sound inside mem).1]
  refine congrArg lookupAnswer (find?_congr ?_)
  intro obj mem
  have collected := (indexed.walked_sound inside mem).1
  rw [← definedLength] at collected
  exact decide_eq_decide.mpr (collected.judgeSlot_hit_iff (ne_nil_of_length_pos (by omega)))

/-- A lookup always stops. -/
theorem findInHash_ne_tableFull (defined : List Value) (frees : Nat)
    (fits : defined.length + frees = arity) :
    findInHash tupleHash (flushHashes sizes cursor base writer) (keyPattern defined frees) ≠
      .tableFull := by
  cases length : defined.length with
  | zero =>
    rw [findInHash, tupleNumNonFree_keyPattern, if_neg (by omega)]
    split <;> simp
  | succ size =>
    rw [indexed.findInHash_eq length (by omega)]
    cases (walkedObjs sizes cursor (writer.hashCollectorVec.getD size [])).find? _ with
    | none => simp [lookupAnswer]
    | some obj => simp [lookupAnswer]

/-- With no prefix to mistake for its own, a lookup finds the first key. -/
theorem findInHash_right {defined : List Value}
    {frees : Nat} (fits : defined.length + frees = arity)
    (noMistake : ∀ key ∈ keys, Mistaken tupleHash defined frees (key.take defined.length) →
        key.take defined.length = defined) :
    findInHash tupleHash (flushHashes sizes cursor base writer) (keyPattern defined frees) =
      firstKeyOffset base keys defined := by
  cases length : defined.length with
  | zero =>
    rw [length_eq_zero_iff.mp length, findInHash, tupleNumNonFree_keyPattern]
    simp only [length_nil, ne_eq, not_true_eq_false, ↓reduceIte, flushHashes,
      indexed.numCurKeys, firstKeyOffset]
    cases keys <;> simp [findIdx?_cons]
  | succ size =>
    have inside : size < arity := by omega
    rw [indexed.findInHash_eq length inside]
    cases found :
        (walkedObjs sizes cursor (writer.hashCollectorVec.getD size [])).find? fun obj =>
          Mistaken tupleHash defined frees obj.core.members with
    | none =>
      cases atRank : keys.findIdx? (defined.isPrefixOf ·) with
      | none => simp [firstKeyOffset, atRank, lookupAnswer]
      | some rank =>
        obtain ⟨key, atKey, starts⟩ := exists_key_of_findIdx? atRank
        obtain ⟨obj, objIn, members⟩ :=
          indexed.walked_complete sizes cursor inside (mem_of_getElem? atKey)
        have missed := List.find?_eq_none.mp found obj objIn
        rw [members, ← length, starts] at missed
        simp [Mistaken] at missed
    | some obj =>
      have mistaken : Mistaken tupleHash defined frees obj.core.members := by
        simpa using find?_some found
      obtain ⟨collected, rank, atRank, offset⟩ :=
        indexed.walked_sound inside (mem_of_find?_eq_some found)
      obtain ⟨key, atKey, starts⟩ := exists_key_of_findIdx? atRank
      rw [collected.length, ← length] at starts
      have own : obj.core.members = defined := by
        rw [← starts]
        refine noMistake key (mem_of_getElem? atKey) ?_
        rwa [starts]
      rw [own] at atRank
      simp [firstKeyOffset, atRank, lookupAnswer, offset]

end

end IndexWriter.Indexed

/-- The order of a cursor that puts the objects of one prefix before others of the same
hash. -/
def preferring (favoured : List Value) (first second : HashObj Value) : Bool :=
  first.hash < second.hash ||
    (first.hash = second.hash && (first.core.members = favoured || second.core.members ≠ favoured))

theorem mergeSort_preferring_ordered (favoured : List Value) (objs : List (HashObj Value)) :
    (objs.mergeSort (preferring favoured)).Pairwise
      (fun first second => preferring favoured first second) := by
  apply pairwise_mergeSort
  · intro first second third
    simp only [preferring]
    grind
  · intro first second
    simp only [preferring]
    grind

/-- A cursor that leaves equal hashes in that order. -/
def HashCursor.preferring (favoured : List Value) : HashCursor Value where
  walk := fun objs => objs.mergeSort (Orly.preferring favoured)
  perm := fun objs => List.mergeSort_perm objs _
  sorted := by
    intro objs
    refine (mergeSort_preferring_ordered favoured objs).imp ?_
    intro first second
    simp only [Orly.preferring]
    grind

/-- A search of objects in that order meets the favoured prefix before any other of its
hash. -/
theorem find?_preferring
    {favoured : List Value} {collection : List (HashObj Value)} {wanted : HashObj Value → Bool}
    {obj favouredObj : HashObj Value}
    (found : (walkedObjs sizes (.preferring favoured) collection).find? wanted = some obj)
    (favouredIn : favouredObj ∈ walkedObjs sizes (.preferring favoured) collection)
    (members : favouredObj.core.members = favoured) (favouredWanted : wanted favouredObj)
    (sameHash : obj.hash = favouredObj.hash) :
    obj.core.members = favoured := by
  have ordered : (walkedObjs sizes (.preferring favoured) collection).Pairwise
      (fun first second => preferring favoured first second) :=
    mergeSort_preferring_ordered favoured _
  obtain ⟨_, before, after, split, earlier⟩ := find?_eq_some_iff_append.mp found
  rw [split] at ordered favouredIn
  rcases mem_append.mp favouredIn with inBefore | inRest
  · have unwanted := earlier favouredObj inBefore
    simp [favouredWanted] at unwanted
  · rcases mem_cons.mp inRest with same | inAfter
    · rw [← same, members]
    · have first := (pairwise_cons.mp (pairwise_append.mp ordered).2.1).1 favouredObj inAfter
      simpa [preferring, sameHash, members] using first

/-- A prefix that a lookup takes for its own is found by it under some order of equal
hashes. -/
theorem IndexWriter.Indexed.findInHash_wrong
    (indexed : Indexed tupleHash base arity keys writer) {defined key : List Value}
    {frees : Nat} (fits : defined.length + frees = arity) (mem : key ∈ keys)
    (mistaken : Mistaken tupleHash defined frees (key.take defined.length))
    (other : key.take defined.length ≠ defined) :
    findInHash tupleHash (flushHashes sizes (.preferring (key.take defined.length)) base writer)
        (keyPattern defined frees) ≠
      firstKeyOffset base keys defined := by
  cases length : defined.length with
  | zero =>
    have nothing : defined = [] := length_eq_zero_iff.mp length
    simp [nothing] at other
  | succ size =>
    have inside : size < arity := by omega
    rw [length] at mistaken other
    rw [indexed.findInHash_eq length inside]
    set favoured := key.take (size + 1)
    obtain ⟨favouredObj, favouredIn, members⟩ :=
      indexed.walked_complete sizes (.preferring favoured) inside mem
    have favouredMistaken : Mistaken tupleHash defined frees favouredObj.core.members := by
      rw [members]
      exact mistaken
    cases found :
        (walkedObjs sizes (.preferring favoured)
          (writer.hashCollectorVec.getD size [])).find? fun obj =>
            Mistaken tupleHash defined frees obj.core.members with
    | none =>
      have missed := List.find?_eq_none.mp found favouredObj favouredIn
      simp [favouredMistaken] at missed
    | some obj =>
      have objMistaken : Mistaken tupleHash defined frees obj.core.members := by
        simpa using find?_some found
      obtain ⟨collected, rank, atRank, offset⟩ :=
        indexed.walked_sound inside (mem_of_find?_eq_some found)
      obtain ⟨favouredCollected, _⟩ := indexed.walked_sound inside favouredIn
      have sameHash : obj.hash = favouredObj.hash := by
        rw [collected.hash, collected.storedHash, objMistaken.1, favouredCollected.hash,
          favouredCollected.storedHash, favouredMistaken.1]
      have own : obj.core.members = favoured :=
        find?_preferring found favouredIn members (by simpa using favouredMistaken) sameHash
      intro right
      simp only [lookupAnswer, offset, firstKeyOffset] at right
      split at right
      case h_1 rightRank atRightRank =>
        have sameRank : rank = rightRank := by
          simp only [LookupOutcome.found.injEq, keyEntrySize, coreSize] at right
          omega
        obtain ⟨first, atFirst, starts⟩ := exists_key_of_findIdx? atRank
        obtain ⟨rightFirst, atRightFirst, rightStarts⟩ := exists_key_of_findIdx? atRightRank
        have sameKey : first = rightFirst := by
          rw [sameRank, atRightFirst] at atFirst
          exact (Option.some.inj atFirst).symm
        refine other ?_
        rw [← own, ← rightStarts, ← sameKey, length, ← collected.length]
        exact starts.symm
      case h_2 => simp at right

/-- The file written from these keys, each with its number of history entries. -/
def hashIndexFile (tupleHash : TupleHash Value) (sizes : HashSizes) (cursor : HashCursor Value)
    (base arity : Nat)
    (entries : List (List Value × Nat)) :
    HashIndexFile Value :=
  flushHashes sizes cursor base
    ((IndexWriter.new base arity).pushKeys tupleHash (pushedEntries entries))

theorem indexed_pushedEntries
    (tupleHash : TupleHash Value) (base : Nat) {entries : List (List Value × Nat)}
    (sameType : ∀ entry ∈ entries, entry.1.length = arity)
    (sorted : (entries.map Prod.fst).Pairwise (· < ·)) :
    Indexed tupleHash base arity (entries.map Prod.fst)
      ((IndexWriter.new base arity).pushKeys tupleHash (pushedEntries entries)) :=
  indexed_new.pushEntries entries sameType sorted

/-- A lookup in a file of sorted keys always stops. -/
theorem findInHash_stops
    (tupleHash : TupleHash Value) (sizes : HashSizes) (cursor : HashCursor Value)
    (base arity : Nat) (entries : List (List Value × Nat))
    (sameType : ∀ entry ∈ entries, entry.1.length = arity)
    (sorted : (entries.map Prod.fst).Pairwise (· < ·)) (defined : List Value) (frees : Nat)
    (fits : defined.length + frees = arity) :
    findInHash tupleHash (hashIndexFile tupleHash sizes cursor base arity entries)
        (keyPattern defined frees) ≠
      .tableFull :=
  (indexed_pushedEntries tupleHash base sameType sorted).findInHash_ne_tableFull defined frees fits

/-- Whatever order equal hashes come in, a lookup gives the offset of the first key with
its prefix, or nothing when there is none, exactly when its pattern has no free members or
no key has another prefix with the same hash and the same first member. -/
theorem findInHash_finds_iff_no_collision
    (tupleHash : TupleHash Value) (sizes : HashSizes) (base arity : Nat)
    (entries : List (List Value × Nat)) (sameType : ∀ entry ∈ entries, entry.1.length = arity)
    (sorted : (entries.map Prod.fst).Pairwise (· < ·)) (defined : List Value) (frees : Nat)
    (fits : defined.length + frees = arity) :
    (∀ cursor, findInHash tupleHash (hashIndexFile tupleHash sizes cursor base arity entries)
            (keyPattern defined frees) =
          firstKeyOffset base (entries.map Prod.fst) defined) ↔
      (0 < frees → ∀ key ∈ entries.map Prod.fst,
          tupleHash.hash ((key.take defined.length).map some) = tupleHash.hash (defined.map some) →
            (key.take defined.length).head? = defined.head? →
              key.take defined.length = defined) := by
  have indexed := indexed_pushedEntries tupleHash base sameType sorted
  constructor
  · intro right someFree key mem sameHash sameHead
    by_contra other
    have mistaken : Mistaken tupleHash defined frees (key.take defined.length) := by
      refine ⟨sameHash, ?_⟩
      rwa [if_neg (by omega)]
    exact indexed.findInHash_wrong fits mem mistaken other (right _)
  · intro noCollision cursor
    refine indexed.findInHash_right fits ?_
    intro key mem mistaken
    obtain ⟨sameHash, sameStart⟩ := mistaken
    split at sameStart
    case isTrue => exact sameStart
    case isFalse someFree =>
      exact noCollision (by omega) key mem sameHash sameStart

end Lookups

section Durations

/-- The hash of a tuple of durations: `std::hash` of a count is the count, a free member
hashes to zero, and members are rotated by five bits for each place and combined. -/
def durationTupleHash (place : Nat) : List (Option Nat) → BitVec 64
  | [] => 0
  | mem :: members =>
    (BitVec.ofNat 64 (mem.getD 0)).rotateRight (5 * place) ^^^ durationTupleHash (place + 1) members

theorem rotateRight_zero_bits (places : Nat) : (0#64).rotateRight places = 0#64 := by
  simp [BitVec.rotateRight, BitVec.rotateRightAux]

theorem durationTupleHash_replicate (place frees : Nat) :
    durationTupleHash place (List.replicate frees none) = 0 := by
  induction frees generalizing place with
  | zero => rfl
  | succ frees ih =>
    simp [replicate_succ, durationTupleHash, ih, rotateRight_zero_bits]

theorem durationTupleHash_frees (place : Nat) (members : List Nat) (frees : Nat) :
    durationTupleHash place (members.map some ++ List.replicate frees none) =
      durationTupleHash place (members.map some) := by
  induction members generalizing place with
  | nil => simp [durationTupleHash_replicate, durationTupleHash]
  | cons mem members ih =>
    rw [map_cons, cons_append, durationTupleHash, durationTupleHash, ih]

/-- `TKey::GetHash` on keys made of durations. -/
def durationHash : TupleHash Nat where
  hash := fun members => (durationTupleHash 0 members).toNat
  hash_frees := by
    intro members frees
    rw [durationTupleHash_frees]

/-- Some hash sizes. -/
def doubledSizes : HashSizes where
  suggestHashSize := fun count => 2 * count + 1
  room := by
    intro count
    omega

/-- A cursor that sorts by insertion. -/
def insertionCursor : HashCursor Nat where
  walk := fun objs => objs.insertionSort (fun first second => first.hash ≤ second.hash)
  perm := fun objs => List.perm_insertionSort _ objs
  sorted := fun objs => List.pairwise_insertionSort _ objs

/-- The one key of this file starts with seven, zero and thirty-two.  Its prefix has the
hash and the first member of seven, one and zero, which a lookup then finds. -/
theorem findInHash_takes_other_prefix : findInHash durationHash
          (hashIndexFile durationHash doubledSizes insertionCursor 0 4 [([7, 0, 32, 5], 0)])
          (keyPattern [7, 1, 0] 1) =
        .found 0 ∧
      firstKeyOffset 0 [[7, 0, 32, 5]] [7, 1, 0] = .absent := by
  decide +kernel

/-- Two keys with a history, looked up by two members: the condition holds and the second
key is found behind the first one's record. -/
theorem findInHash_finds_second_key : findInHash durationHash
        (hashIndexFile durationHash doubledSizes insertionCursor 0 3
          [([1, 2, 3], 2), ([1, 4, 0], 0)])
        (keyPattern [1, 4] 1) =
      .found 80 := by
  have finds := (findInHash_finds_iff_no_collision durationHash doubledSizes 0 3
    [([1, 2, 3], 2), ([1, 4, 0], 0)] (by decide) (by decide) [1, 4] 1 (by decide)).mpr
      (by decide +kernel)
  exact finds insertionCursor

end Durations

end Orly
