import Orly.MetaRecordLaws

/-!
# A record replays to the calls it records

The elements of a batch record are read in the order of the map, which is not the order of
the calls.  `Completes` says that the elements still to be read make a call whole; reading
one of them keeps it.
-/

namespace Orly

open List SortedMap

namespace MetaRecord

open ByteString

variable {Other : Type}

/-- The names that a recorded call may use. -/
structure WellNamed (call : Call Other) : Prop where
  hasPackage : call.packageFqName ≠ []
  partsNonempty : ∀ part ∈ call.packageFqName, part ≠ []
  partsPlain : ∀ part ∈ call.packageFqName, slash ∉ part
  namesPlain : ∀ item ∈ call.argByName.entries, dollar ∉ item.1

theorem WellNamed.find?_eq_none {call : Call Other} {name : ByteString} (named : WellNamed call)
    (hasDollar : dollar ∈ name) :
    call.argByName.find? name = none := by
  cases found : call.argByName.find? name with
  | none => rfl
  | some value =>
    have plain := named.namesPlain _ (mem_entries_iff.mpr found)
    exact absurd hasDollar plain

section Reading

/-- What a batch record says about a call under a name. -/
def RecordedAs (mixed : Bool) (call : Call Other) (name : ByteString) (value : Var Other) : Prop :=
  call.argByName.find? name = some value ∨
    mixed = true ∧ name = packageKey ∧ value = .str (joinPackage call.packageFqName) ∨
    mixed = true ∧ name = methodKey ∧ value = .str call.methodName

/-- A call has one value under a name. -/
theorem RecordedAs.eq
    {call : Call Other} {mixed otherMixed : Bool} {name : ByteString} {value other : Var Other}
    (named : WellNamed call) (here : RecordedAs mixed call name value)
    (there : RecordedAs otherMixed call name other) :
    other = value := by
  have notArg : dollar ∈ name → call.argByName.find? name = none := named.find?_eq_none
  rcases here with here | ⟨-, rfl, rfl⟩ | ⟨-, rfl, rfl⟩
  · rcases there with there | ⟨-, rfl, -⟩ | ⟨-, rfl, -⟩
    · rw [here] at there
      exact (Option.some.inj there).symm
    · exact absurd (here.symm.trans (notArg (by decide))) (Option.some_ne_none _)
    · exact absurd (here.symm.trans (notArg (by decide))) (Option.some_ne_none _)
  · rcases there with there | ⟨-, -, rfl⟩ | ⟨-, isMethod, -⟩
    · exact absurd (there.symm.trans (notArg (by decide))) (Option.some_ne_none _)
    · rfl
    · contradiction
  · rcases there with there | ⟨-, isPackage, -⟩ | ⟨-, -, rfl⟩
    · exact absurd (there.symm.trans (notArg (by decide))) (Option.some_ne_none _)
    · contradiction
    · rfl

/-- What is left to read makes a call the target. -/
structure Completes (target : Call Other) (index : Nat) (items : List (ByteString × Var Other))
    (call : Call Other) : Prop where
  package : call.packageFqName = target.packageFqName ∨
      ∃ item ∈ items, splitIndex item.1 = some (index, packageKey)
  method : call.methodName = target.methodName ∨
      ∃ item ∈ items, splitIndex item.1 = some (index, methodKey)
  args : ∀ name value, call.argByName.find? name = some value →
    target.argByName.find? name = some value
  argsLeft : ∀ name value, target.argByName.find? name = some value →
    call.argByName.find? name = some value ∨ ∃ item ∈ items, splitIndex item.1 = some (index, name)
  recorded : ∀ item ∈ items, ∀ name, splitIndex item.1 = some (index, name) →
    ∃ mixed, RecordedAs mixed target name item.2

variable {target call : Call Other} {index : Nat} {item : ByteString × Var Other}
  {items : List (ByteString × Var Other)}

/-- An element of another call can be passed. -/
theorem Completes.skip (completes : Completes target index (item :: items) call)
    (elsewhere : ∀ rest, splitIndex item.1 ≠ some (index, rest)) :
    Completes target index items call := by
  have isLater : ∀ rest, (∃ other ∈ item :: items, splitIndex other.1 = some (index, rest)) →
        ∃ other ∈ items, splitIndex other.1 = some (index, rest) := by
    rintro rest ⟨other, mem, splits⟩
    rcases mem_cons.mp mem with rfl | later
    · exact absurd splits (elsewhere rest)
    · exact ⟨other, later, splits⟩
  exact
    { package := completes.package.imp_right (isLater _)
      method := completes.method.imp_right (isLater _)
      args := completes.args
      argsLeft := fun name value found =>
        (completes.argsLeft name value found).imp_right (isLater name)
      recorded := (forall_mem_cons.mp completes.recorded).2 }

/-- When nothing is left, the call is the target. -/
theorem Completes.eq_target (completes : Completes target index [] call) : call = target := by
  have none_left : ∀ rest, ¬ ∃ other ∈ ([] : List (ByteString × Var Other)),
        splitIndex other.1 = some (index, rest) := by
    rintro rest ⟨other, mem, -⟩
    contradiction
  have package := completes.package.resolve_right (none_left _)
  have method := completes.method.resolve_right (none_left _)
  have args : call.argByName = target.argByName := by
    refine ext_find ?_
    intro name
    refine Option.ext ?_
    intro value
    exact ⟨completes.args name value,
      fun found => (completes.argsLeft name value found).resolve_right (none_left _)⟩
  obtain ⟨_, _, _⟩ := call
  obtain ⟨_, _, _⟩ := target
  obtain rfl := package
  obtain rfl := method
  obtain rfl := args
  rfl

/-- Reading an element of the call is no error, and what comes after it completes the call. -/
theorem Completes.put {rest : ByteString} (named : WellNamed target)
    (completes : Completes target index (item :: items) call)
    (splits : splitIndex item.1 = some (index, rest)) :
    ∃ changed, Call.put call item.1 rest item.2 = .ok changed ∧
      Completes target index items changed := by
  have otherRest : ∀ name, name ≠ rest →
      (∃ other ∈ item :: items, splitIndex other.1 = some (index, name)) →
        ∃ other ∈ items, splitIndex other.1 = some (index, name) := by
    rintro name differs ⟨other, mem, isName⟩
    rcases mem_cons.mp mem with rfl | later
    · rw [splits] at isName
      exact absurd (Prod.mk.inj (Option.some.inj isName)).2.symm differs
    · exact ⟨other, later, isName⟩
  obtain ⟨isRecorded, recorded⟩ := forall_mem_cons.mp completes.recorded
  obtain ⟨_, here⟩ := isRecorded rest splits
  have argsLeft : dollar ∈ rest → ∀ name value, target.argByName.find? name = some value →
        call.argByName.find? name = some value ∨
          ∃ other ∈ items, splitIndex other.1 = some (index, name) := by
    intro hasDollar name value found
    refine (completes.argsLeft name value found).imp_right (otherRest name ?_)
    rintro rfl
    rw [named.find?_eq_none hasDollar] at found
    contradiction
  rw [Call.put]
  split
  case isTrue isPackage =>
    subst isPackage
    have value := RecordedAs.eq named (Or.inr (Or.inl ⟨rfl, rfl, rfl⟩)) here
    have isRead := splitOn_joinPackage named.hasPackage named.partsNonempty named.partsPlain
    refine ⟨{ call with packageFqName := target.packageFqName }, ?_, ?_⟩
    · rw [value, asStr]
      show Except.ok _ = _
      rw [isRead]
    · exact
        { package := Or.inl rfl
          method := completes.method.imp_right (otherRest _ (by decide))
          args := completes.args
          argsLeft := argsLeft (by decide)
          recorded := recorded }
  case isFalse notPackage =>
    split
    case isTrue isMethod =>
      subst isMethod
      have value := RecordedAs.eq named (Or.inr (Or.inr ⟨rfl, rfl, rfl⟩)) here
      refine ⟨{ call with methodName := target.methodName }, ?_, ?_⟩
      · rw [value, asStr]
        rfl
      · exact
          { package := completes.package.imp_right (otherRest _ (by decide))
            method := Or.inl rfl
            args := completes.args
            argsLeft := argsLeft (by decide)
            recorded := recorded }
    case isFalse notMethod =>
      have isArg : target.argByName.find? rest = some item.2 := by
        rcases here with isArg | ⟨-, isPackage, -⟩ | ⟨-, isMethod, -⟩
        · exact isArg
        · exact absurd isPackage notPackage
        · exact absurd isMethod notMethod
      refine ⟨_, rfl, ?_⟩
      exact
        { package := completes.package.imp_right (otherRest _ (Ne.symm notPackage))
          method := completes.method.imp_right (otherRest _ (Ne.symm notMethod))
          args := by
            intro name value found
            rw [find?_insert] at found
            rcases Option.or_eq_some_iff.mp found with before | ⟨-, inserted⟩
            · exact completes.args name value before
            · split at inserted
              case isTrue isRest => rw [← isRest, isArg, inserted]
              case isFalse => contradiction
          argsLeft := by
            intro name value found
            rw [find?_insert]
            by_cases isRest : name = rest
            · subst isRest
              refine Or.inl ?_
              cases before : call.argByName.find? name with
              | some other =>
                have same := completes.args name other before
                rw [found] at same
                rw [same, Option.some_or]
              | none =>
                rw [isArg] at found
                rw [Option.none_or, if_pos rfl, found]
            · rcases completes.argsLeft name value found with before | left
              · exact Or.inl (by rw [before, Option.some_or])
              · exact Or.inr (otherRest name isRest left)
          recorded := recorded }

/-- An element that a batch record of this many calls may have. -/
def Readable (count : Nat) (item : ByteString × Var Other) : Prop :=
  (item.1 = callsKey ∨ IsOperationKey item.1) ∨
    ∃ index rest, splitIndex item.1 = some (index, rest) ∧ index < count

theorem takeArg_reserved {calls : List (Call Other)}
    (reserved : item.1 = callsKey ∨ IsOperationKey item.1) :
    takeArg calls item = .ok calls := by
  rw [takeArg, if_pos reserved]
  rfl

theorem splitIndex_reserved {key : ByteString} (reserved : key = callsKey ∨ IsOperationKey key) :
    splitIndex key = none := by
  rcases reserved with rfl | rfl | rfl
  · exact splitIndex_of_no_dot (by decide)
  · exact splitIndex_of_no_dot (by decide)
  · exact splitIndex_of_no_dot (by decide)

theorem takeArg_indexed {calls : List (Call Other)} {rest : ByteString} {changed : Call Other}
    (splits : splitIndex item.1 = some (index, rest)) (isCall : calls[index]? = some call)
    (put : Call.put call item.1 rest item.2 = .ok changed) :
    takeArg calls item = .ok (calls.set index changed) := by
  have notReserved : ¬ (item.1 = callsKey ∨ IsOperationKey item.1) := by
    intro reserved
    rw [splitIndex_reserved reserved] at splits
    contradiction
  rw [takeArg, if_neg notReserved, splits]
  simp only [isCall, put]
  rfl

/-- Elements that complete every call are read as the calls. -/
theorem foldlM_takeArg
    {calls targets : List (Call Other)} (sameLength : calls.length = targets.length)
    (named : ∀ target ∈ targets, WellNamed target)
    (readable : ∀ item ∈ items, Readable targets.length item)
    (completes : ∀ index call target, calls[index]? = some call →
      targets[index]? = some target → Completes target index items call) :
    items.foldlM takeArg calls = .ok targets := by
  induction items generalizing calls with
  | nil =>
    have same : calls = targets := by
      refine ext_getElem sameLength ?_
      intro index inCalls inTargets
      exact (completes index _ _ (getElem?_eq_getElem inCalls)
        (getElem?_eq_getElem inTargets)).eq_target
    rw [same]
    rfl
  | cons item items ih =>
    have laterReadable : ∀ other ∈ items, Readable targets.length other :=
      fun other later => readable other (mem_cons_of_mem _ later)
    rcases readable item mem_cons_self with reserved | ⟨index, rest, splits, inCount⟩
    · have passed := ih sameLength laterReadable
        fun index call target isCall isTarget =>
          (completes index call target isCall isTarget).skip fun rest => by
            rw [splitIndex_reserved reserved]
            exact Option.some_ne_none _ |>.symm
      rw [foldlM_cons, takeArg_reserved reserved]
      exact passed
    · have inCalls : index < calls.length := sameLength ▸ inCount
      have isCall := getElem?_eq_getElem inCalls
      have isTarget := getElem?_eq_getElem inCount
      obtain ⟨changed, put, left⟩ :=
        (completes index _ _ isCall isTarget).put (named _ (getElem_mem inCount)) splits
      rw [foldlM_cons, takeArg_indexed splits isCall put]
      refine ih (by rw [length_set, sameLength]) laterReadable ?_
      intro other otherCall target isOther isOtherTarget
      rw [getElem?_set] at isOther
      split at isOther
      case isTrue same =>
        subst same
        rw [isTarget] at isOtherTarget
        cases isOther
        cases isOtherTarget
        exact left
      case isFalse differs =>
        refine (completes other otherCall target isOther isOtherTarget).skip ?_
        intro otherRest isIndex
        rw [splits] at isIndex
        exact differs (Prod.mk.inj (Option.some.inj isIndex)).1

end Reading

section Batches

variable {call first : Call Other} {calls : List (Call Other)} {mixed : Bool}
  {name key : ByteString} {value other : Var Other} {index : Nat}

theorem mem_callPairs_iff : (key, value) ∈ callPairs mixed call index ↔
      ∃ name, key = callKey index name ∧ RecordedAs mixed call name value := by
  constructor
  · intro mem
    rcases mem_append.mp mem with isArg | isOwn
    · obtain ⟨item, isItem, same⟩ := mem_map.mp isArg
      obtain ⟨rfl, rfl⟩ := Prod.mk.inj same
      exact ⟨item.1, rfl, Or.inl (mem_entries_iff.mp isItem)⟩
    · split at isOwn
      case isTrue isMixed =>
        rcases mem_cons.mp isOwn with same | isMethod
        · obtain ⟨rfl, rfl⟩ := Prod.mk.inj same
          exact ⟨packageKey, rfl, Or.inr (Or.inl ⟨isMixed, rfl, rfl⟩)⟩
        · obtain ⟨rfl, rfl⟩ := Prod.mk.inj (mem_singleton.mp isMethod)
          exact ⟨methodKey, rfl, Or.inr (Or.inr ⟨isMixed, rfl, rfl⟩)⟩
      case isFalse => contradiction
  · rintro ⟨name, rfl, isArg | ⟨rfl, rfl, rfl⟩ | ⟨rfl, rfl, rfl⟩⟩
    · refine mem_append_left _ (mem_map.mpr ⟨(name, value), ?_, rfl⟩)
      exact mem_entries_iff.mpr isArg
    · exact mem_append_right _ mem_cons_self
    · exact mem_append_right _ (mem_cons_of_mem _ mem_cons_self)

/-- An element of a batch is the count, or something of one of the calls. -/
theorem mem_batchPairs_iff : (key, value) ∈ batchPairs calls ↔
      (key = callsKey ∧ value = .int (Int.bmod calls.length (2 ^ 64))) ∨
        ∃ index call name, calls[index]? = some call ∧ key = callKey index name ∧
          RecordedAs (isMixed calls) call name value := by
  rw [batchPairs, mem_cons, Prod.mk.injEq, mem_flatMap]
  refine or_congr_right ⟨?_, ?_⟩
  · rintro ⟨⟨call, index⟩, isCall, mem⟩
    obtain ⟨name, isKey, recorded⟩ := mem_callPairs_iff.mp mem
    exact ⟨index, call, name, mem_zipIdx_iff_getElem?.mp isCall, isKey, recorded⟩
  · rintro ⟨index, call, name, isCall, isKey, recorded⟩
    exact ⟨(call, index), mem_zipIdx_iff_getElem?.mpr isCall,
      mem_callPairs_iff.mpr ⟨name, isKey, recorded⟩⟩

theorem index_lt (fits : calls.length < 2 ^ 63) (isCall : calls[index]? = some call) :
    index < 2 ^ 64 :=
  lt_trans (List.getElem?_eq_some_iff.mp isCall).1 (lt_trans fits (by decide))

/-- An element of a batch that has a call's index is recorded of the call. -/
theorem recordedAs_of_batchPairs
    (fits : calls.length < 2 ^ 63) (inBatch : (key, value) ∈ batchPairs calls)
    (isCall : calls[index]? = some call) (splits : splitIndex key = some (index, name)) :
    RecordedAs (isMixed calls) call name value := by
  rcases mem_batchPairs_iff.mp inBatch with
    ⟨isCount, -⟩ | ⟨otherIndex, otherCall, otherName, isOtherCall, isKey, recorded⟩
  · rw [splitIndex_reserved (Or.inl isCount)] at splits
    contradiction
  · rw [isKey, splitIndex_callKey otherName (index_lt fits isOtherCall)] at splits
    obtain ⟨rfl, rfl⟩ := Prod.mk.inj (Option.some.inj splits)
    rw [isCall] at isOtherCall
    cases isOtherCall
    exact recorded

/-- An entry records a batch: under the first call's package and method, with the keys of
an operation or without them. -/
structure RecordsBatch (entry : MetaEntry Other) (calls : List (Call Other)) : Prop where
  first : ∃ first, calls.head? = some first ∧
    entry.packageFqName = first.packageFqName ∧ entry.methodName = first.methodName
  args : ∃ extra : List (ByteString × Var Other), (∀ item ∈ extra, IsOperationKey item.1) ∧
      entry.argByName = (encodeBatch calls).insertAll extra

namespace RecordsBatch

variable {entry : MetaEntry Other}

theorem find?_args {extra : List (ByteString × Var Other)}
    (isRecord : entry.argByName = (encodeBatch calls).insertAll extra) :
    entry.argByName.find? key = (findIn key (batchPairs calls)).or (findIn key extra) := by
  rw [isRecord, find?_insertAll, encodeBatch, find?_insertAll, find?_empty, Option.none_or]

section

variable (records : RecordsBatch entry calls)

include records

theorem mem_entries (mem : (key, value) ∈ entry.argByName.entries) :
    IsOperationKey key ∨ (key, value) ∈ batchPairs calls := by
  obtain ⟨extra, operationKeys, isRecord⟩ := records.args
  have found := mem_entries_iff.mp mem
  rw [find?_args isRecord] at found
  rcases Option.or_eq_some_iff.mp found with inBatch | ⟨-, inExtra⟩
  · exact Or.inr (mem_of_findIn inBatch)
  · exact Or.inl (operationKeys _ (mem_of_findIn inExtra))

theorem find?_callsKey :
    entry.argByName.find? callsKey = some (.int (Int.bmod calls.length (2 ^ 64))) := by
  obtain ⟨extra, -, isRecord⟩ := records.args
  rw [find?_args isRecord, batchPairs, findIn_cons, if_pos rfl, Option.some_or]

/-- What is recorded of a call is in the record. -/
theorem exists_entry (named : ∀ call ∈ calls, WellNamed call)
    (fits : calls.length < 2 ^ 63) (isCall : calls[index]? = some call)
    (recorded : RecordedAs (isMixed calls) call name value) :
    ∃ item ∈ entry.argByName.entries, splitIndex item.1 = some (index, name) := by
  obtain ⟨extra, -, isRecord⟩ := records.args
  have inBatch : (callKey index name, value) ∈ batchPairs calls :=
    mem_batchPairs_iff.mpr (Or.inr ⟨index, call, name, isCall, rfl, recorded⟩)
  have splits := splitIndex_callKey name (index_lt fits isCall)
  have single : ∀ other, (callKey index name, other) ∈ batchPairs calls → other = value := by
    intro other isOther
    exact recorded.eq (named _ (mem_of_getElem? isCall))
      (recordedAs_of_batchPairs fits isOther isCall splits)
  refine ⟨(callKey index name, value), mem_entries_iff.mpr ?_, splits⟩
  rw [find?_args isRecord, findIn_of_mem single inBatch, Option.some_or]

/-- An element of the record that has a call's index is recorded of the call. -/
theorem recordedAs_of_mem {item : ByteString × Var Other}
    (fits : calls.length < 2 ^ 63) (mem : item ∈ entry.argByName.entries)
    (isCall : calls[index]? = some call) (splits : splitIndex item.1 = some (index, name)) :
    RecordedAs (isMixed calls) call name item.2 := by
  rcases records.mem_entries mem with isOperation | inBatch
  · rw [splitIndex_reserved (Or.inr isOperation)] at splits
    contradiction
  · exact recordedAs_of_batchPairs fits inBatch isCall splits

theorem readable {item : ByteString × Var Other} (fits : calls.length < 2 ^ 63)
    (mem : item ∈ entry.argByName.entries) :
    Readable calls.length item := by
  rcases records.mem_entries mem with isOperation | inBatch
  · exact Or.inl (Or.inr isOperation)
  · rcases mem_batchPairs_iff.mp inBatch with
      ⟨isCount, -⟩ | ⟨index, call, name, isCall, isKey, -⟩
    · exact Or.inl (Or.inl isCount)
    · have inCalls := (List.getElem?_eq_some_iff.mp isCall).1
      refine Or.inr ⟨index, name, ?_, inCalls⟩
      rw [isKey]
      exact splitIndex_callKey name (index_lt fits isCall)

omit records in
/-- Calls of one method are the first call's. -/
theorem eq_first_of_not_mixed
    (isFirst : calls.head? = some first) (notMixed : isMixed calls = false)
    (mem : call ∈ calls) :
    first.packageFqName = call.packageFqName ∧ first.methodName = call.methodName := by
  cases calls with
  | nil => contradiction
  | cons head tail =>
    cases isFirst
    have same := any_eq_false.mp notMixed call mem
    simp only [decide_eq_true_eq, not_or, not_not] at same
    exact ⟨same.1.symm, same.2.symm⟩

/-- The record completes each call, from the first call's package and method. -/
theorem completes (named : ∀ call ∈ calls, WellNamed call) (fits : calls.length < 2 ^ 63)
    (isCall : calls[index]? = some call) :
    Completes call index entry.argByName.entries
      { packageFqName := entry.packageFqName
        methodName := entry.methodName
        argByName := empty } := by
  obtain ⟨first, isFirst, isPackage, isMethod⟩ := records.first
  have mem : call ∈ calls := mem_of_getElem? isCall
  exact
    { package := by
        cases mixed : isMixed calls with
        | true =>
          have recordedPackage : RecordedAs (isMixed calls) call packageKey _ :=
            Or.inr (Or.inl ⟨mixed, rfl, rfl⟩)
          exact Or.inr (records.exists_entry named fits isCall recordedPackage)
        | false =>
          exact Or.inl (isPackage.trans (eq_first_of_not_mixed isFirst mixed mem).1)
      method := by
        cases mixed : isMixed calls with
        | true =>
          have recordedMethod : RecordedAs (isMixed calls) call methodKey _ :=
            Or.inr (Or.inr ⟨mixed, rfl, rfl⟩)
          exact Or.inr (records.exists_entry named fits isCall recordedMethod)
        | false =>
          exact Or.inl (isMethod.trans (eq_first_of_not_mixed isFirst mixed mem).2)
      args := by
        intro name value found
        rw [find?_empty] at found
        contradiction
      argsLeft := by
        intro name value found
        exact Or.inr (records.exists_entry named fits isCall (Or.inl found))
      recorded := fun _ isItem _ splits =>
        ⟨_, records.recordedAs_of_mem fits isItem isCall splits⟩ }

theorem batchCount_eq (fits : calls.length < 2 ^ 63) :
    batchCount entry.argByName = .ok (some calls.length) := by
  obtain ⟨first, isFirst, -, -⟩ := records.first
  have nonempty : 0 < calls.length := by
    cases calls with
    | nil => contradiction
    | cons head tail => exact Nat.succ_pos _
  have isLength : Int.bmod calls.length (2 ^ 64) = calls.length :=
    Int.bmod_eq_of_le (by omega) (by omega)
  rw [batchCount, records.find?_callsKey, isLength]
  simp only [if_neg (show ¬ (calls.length : Int) < 1 by omega), Int.toNat_natCast]

/-- A batch reads back as its calls. -/
theorem getCalls_eq (named : ∀ call ∈ calls, WellNamed call) (fits : calls.length < 2 ^ 63) :
    getCalls entry = .ok calls := by
  rw [getCalls, records.batchCount_eq fits]
  show entry.argByName.entries.foldlM takeArg _ = _
  refine foldlM_takeArg (length_replicate ..) named (fun item => records.readable fits) ?_
  intro index call target isCall isTarget
  rw [getElem?_replicate] at isCall
  split at isCall
  case isTrue =>
    cases isCall
    exact records.completes named fits isTarget
  case isFalse => contradiction

end

end RecordsBatch

end Batches

section Singles

/-- An entry records one call as it is, with the keys of an operation or without them. -/
structure RecordsCall (entry : MetaEntry Other) (call : Call Other) : Prop where
  package : entry.packageFqName = call.packageFqName
  method : entry.methodName = call.methodName
  args : ∃ extra : List (ByteString × Var Other), (∀ item ∈ extra, IsOperationKey item.1) ∧
      entry.argByName = call.argByName.insertAll extra

/-- A call none of whose names looks like a call's index reads back. -/
theorem RecordsCall.getCalls_eq
    {entry : MetaEntry Other} {call : Call Other} (records : RecordsCall entry call)
    (named : WellNamed call) (unindexed : ∀ item ∈ call.argByName.entries, ¬ IndexPrefixed item.1) :
    getCalls entry = .ok [call] := by
  obtain ⟨extra, operationKeys, isRecord⟩ := records.args
  have found : ∀ key, entry.argByName.find? key =
      (call.argByName.find? key).or (findIn key extra) := by
    intro key
    rw [isRecord, find?_insertAll]
  have notExtra : ∀ key, ¬ IsOperationKey key → findIn key extra = none :=
    fun key notOperation =>
      findIn_eq_none fun value mem => notOperation (operationKeys _ mem)
  have noCount : entry.argByName.find? callsKey = none := by
    rw [found, named.find?_eq_none (by decide), notExtra callsKey (by decide)]
    rfl
  have noIndices : entry.argByName.entries.filterMap (fun item => splitIndex item.1) = [] := by
    refine filterMap_eq_nil_iff.mpr ?_
    rintro ⟨key, value⟩ mem
    have isFound := mem_entries_iff.mp mem
    rw [found] at isFound
    rcases Option.or_eq_some_iff.mp isFound with isArg | ⟨-, inExtra⟩
    · exact (splitIndex_eq_none_iff key).mpr (unindexed _ (mem_entries_iff.mpr isArg))
    · exact splitIndex_reserved (Or.inr (operationKeys _ (mem_of_findIn inExtra)))
  have isSingle : batchCount entry.argByName = .ok none := by
    simp only [batchCount, noCount, prefixedCount, noIndices, if_true]
  have args : (entry.argByName.erase opIdKey).erase opOutcomeKey = call.argByName := by
    refine ext_find ?_
    intro key
    rw [find?_erase, find?_erase]
    by_cases isOutcome : key = opOutcomeKey
    · rw [if_pos isOutcome, isOutcome, named.find?_eq_none (by decide)]
    · by_cases isId : key = opIdKey
      · rw [if_neg isOutcome, if_pos isId, isId, named.find?_eq_none (by decide)]
      · rw [if_neg isOutcome, if_neg isId, found,
          notExtra key (not_or.mpr ⟨isId, isOutcome⟩), Option.or_none]
  rw [getCalls, isSingle]
  show Except.ok _ = _
  rw [args, records.package, records.method]

end Singles

end MetaRecord

end Orly
