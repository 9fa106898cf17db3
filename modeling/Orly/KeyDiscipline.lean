import Orly.FoldFileLaws

namespace Orly

/-!
# Keys that survive folding

A fold of part of a key's entries leaves every read of the key unchanged if the deferred
operations on the key all use one mutator that commutes on its values, and trivially if
there is nothing to fold.  A key is disciplined in the first way or is never folded.
-/

open EventRuns List FoldEntry

variable {κ α : Type}

/-- How a key is written. -/
inductive Discipline where
  /-- In any way; the key is not folded. -/
  | any
  /-- With values of one kind and deferred operations of one mutator. -/
  | counter (mutator : Mutator) (kind : VarKind)

namespace Discipline

/-- The mutator of a counter is deferred on its kind, and the order does not matter. -/
def WellFormed : Discipline → Prop
  | any => True
  | counter mutator kind => deferOperand mutator kind = true ∧ kind.orderFree = true

/-- An entry that the discipline allows. -/
def Admits : Discipline → FoldEntry α → Prop
  | any, _ => True
  | counter mutator kind, entry =>
    ∀ value ∈ entry.op, value.kind = kind ∧ (entry.mutator = .assign ∨ entry.mutator = mutator)

/-- What may stand above the files: entries the discipline allows, no update twice. -/
def Context [DecidableEq κ] (discipline : Discipline) (key : κ) (newer : List (Item κ α)) : Prop :=
  match discipline with
  | any => True
  | counter _ _ =>
    (∀ item ∈ newer.filter (·.key = key), discipline.Admits item.toFoldEntry) ∧
      (keyUpdateIds newer key).Nodup

/-- A fold may come to these entries of the key. -/
def MayFold : Discipline → List (FoldEntry α) → Prop
  | any, entries => entries.length ≤ 1
  | counter _ _, _ => True

section Keeps

variable [DecidableEq κ] [DecidableEq α] {discipline : Discipline} {key : κ}
  {first second third : List (FoldEntry α)}

/-- No read of the key under an allowed context tells two lists of entries apart. -/
def Keeps (discipline : Discipline) (key : κ) (first second : List (FoldEntry α)) : Prop :=
  ∀ newer, discipline.Context key newer → readKey (newer ++ first.map (FoldEntry.toItem key)) key =
      readKey (newer ++ second.map (FoldEntry.toItem key)) key

theorem Keeps.refl (discipline : Discipline) (key : κ) (entries : List (FoldEntry α)) :
    discipline.Keeps key entries entries :=
  fun _ _ => rfl

theorem Keeps.symm (keeps : discipline.Keeps key first second) :
    discipline.Keeps key second first :=
  fun newer context => (keeps newer context).symm

theorem Keeps.trans (left : discipline.Keeps key first second)
    (right : discipline.Keeps key second third) :
    discipline.Keeps key first third :=
  fun newer context => (left newer context).trans (right newer context)

theorem keeps_of_sameBelow
    (same : SameBelow key (first.map (toItem key)) (second.map (toItem key))) :
    discipline.Keeps key first second :=
  fun newer _ => same newer

omit [DecidableEq α] in
theorem filter_toItem (entries : List (FoldEntry α)) :
    (entries.map (toItem key)).filter (·.key = key) = entries.map (toItem key) := by
  refine filter_eq_self.mpr fun item mem => ?_
  obtain ⟨entry, _, rfl⟩ := mem_map.mp mem
  simp [toItem]

omit [DecidableEq α] in
/-- Entries of a file may join what stands above. -/
theorem Context.append {newer : List (Item κ α)} (context : discipline.Context key newer)
    {above : List (FoldEntry α)} (admitted : ∀ entry ∈ above, discipline.Admits entry) :
    discipline.Context key (newer ++ above.map (toItem key)) := by
  cases discipline with
  | any => trivial
  | counter mutator kind =>
    obtain ⟨newerAdmitted, distinct⟩ := context
    have noIds : (above.map (toItem key)).filterMap Item.updateId = [] := by
      refine filterMap_eq_nil_iff.mpr fun item mem => ?_
      obtain ⟨entry, _, rfl⟩ := mem_map.mp mem
      rfl
    constructor
    · intro item mem
      rw [filter_append, filter_toItem] at mem
      rcases mem_append.mp mem with inNewer | inAbove
      · exact newerAdmitted item inNewer
      · obtain ⟨entry, isAbove, rfl⟩ := mem_map.mp inAbove
        exact admitted entry isAbove
    · rw [keyUpdateIds, filter_append, filter_toItem, filterMap_append, noIds, append_nil]
      exact distinct

/-- Newer entries of the discipline see no difference. -/
theorem Keeps.append (keeps : discipline.Keeps key first second) {above : List (FoldEntry α)}
    (admitted : ∀ entry ∈ above, discipline.Admits entry) :
    discipline.Keeps key (above ++ first) (above ++ second) := by
  intro newer context
  rw [map_append, map_append, ← append_assoc, ← append_assoc]
  exact keeps _ (context.append admitted)

end Keeps

/-! ## Counters -/

section Counter

variable {mutator : Mutator} {kind : VarKind}

/-- What a counter's entries do. -/
theorem admits_cases {entry : FoldEntry α} (admits : (counter mutator kind).Admits entry) :
    entry.operation = .tombstone ∨
      (∃ value : Var α, value.kind = kind ∧ entry.operation = .assign value) ∨
      ∃ value : Var α, value.kind = kind ∧ entry.operation = .deferred mutator value := by
  obtain ⟨seqNum, entryMutator, op⟩ := entry
  cases op with
  | none => exact .inl rfl
  | some value =>
    obtain ⟨isKind, isMutator⟩ := admits value rfl
    by_cases isAssign : entryMutator = .assign
    · subst isAssign
      exact .inr (.inl ⟨value, isKind, rfl⟩)
    · refine .inr (.inr ⟨value, isKind, ?_⟩)
      rw [operation, ← isMutator.resolve_left isAssign]
      exact Operation.ofEntry_deferred value isAssign

/-- A counter's entries are a history that deferral gets right. -/
theorem counter_foldable
    (wellFormed : (counter mutator kind).WellFormed) {entries : List (FoldEntry α)}
    (admitted : ∀ entry ∈ entries, (counter mutator kind).Admits entry) :
    Foldable (entries.map FoldEntry.operation) := by
  induction entries with
  | nil => exact ⟨⟨by simp, .nil⟩, .nil, by simp⟩
  | cons entry entries ih =>
    obtain ⟨headAdmits, tailAdmits⟩ := forall_mem_cons.mp admitted
    have rest := ih tailAdmits
    rw [map_cons]
    rcases admits_cases headAdmits with isTombstone | ⟨value, _, isAssign⟩ |
      ⟨value, isKind, isDeferred⟩
    · rw [isTombstone]
      exact rest.cons_ground trivial
    · rw [isAssign]
      exact rest.cons_ground trivial
    · rw [isDeferred]
      have tailOperations : ∀ operation ∈ entries.map FoldEntry.operation, operation = .tombstone ∨
            (∃ other : Var α, other.kind = kind ∧ operation = .assign other) ∨
            ∃ other : Var α, other.kind = kind ∧ operation = .deferred mutator other := by
        intro operation mem
        obtain ⟨other, inTail, rfl⟩ := mem_map.mp mem
        exact admits_cases (tailAdmits other inTail)
      refine ⟨⟨forall_mem_cons.mpr ⟨?_, rest.wellTyped.accepted⟩, ?_⟩, ?_,
        forall_mem_cons.mpr ⟨?_, rest.orderFree⟩⟩
      · rw [Operation.Accepted, isKind]
        exact wellFormed.1
      · refine rest.wellTyped.kinds.cons fun operation isHead => ?_
        rcases tailOperations operation (mem_of_mem_head? isHead) with
          rfl | ⟨other, otherKind, rfl⟩ | ⟨other, otherKind, rfl⟩ <;> rintro _ ⟨⟩ <;>
          exact isKind.trans otherKind.symm
      · refine rest.singleMutator.cons fun operation isHead => ?_
        rcases tailOperations operation (mem_of_mem_head? isHead) with
          rfl | ⟨other, _, rfl⟩ | ⟨other, _, rfl⟩
        exacts [trivial, trivial, rfl]
      · rw [Operation.OrderFree, isKind]
        exact wellFormed.2

variable [DecidableEq κ] [DecidableEq α] {key : κ}

/-- A rewriting of the operations keeps the reads of a counter. -/
theorem counter_keeps_of_refines
    (wellFormed : (counter mutator kind).WellFormed) {first second : List (FoldEntry α)}
    (firstAdmitted : ∀ entry ∈ first, (counter mutator kind).Admits entry)
    (secondAdmitted : ∀ entry ∈ second, (counter mutator kind).Admits entry)
    (refines : Refines (first.map operation) (second.map operation)) :
    (counter mutator kind).Keeps key first second := by
  intro newer context
  have readable : ∀ entries : List (FoldEntry α),
      (∀ entry ∈ entries, (counter mutator kind).Admits entry) →
      KeyEntries key (newer.filter (·.key = key) ++ entries.map (toItem key)) := by
    intro entries admitted
    have whole := context.append admitted
    rw [Context, keyUpdateIds, filter_append, filter_toItem] at whole
    obtain ⟨itemsAdmitted, distinct⟩ := whole
    refine ⟨?_, ?_, distinct⟩
    · intro item mem
      rcases mem_append.mp mem with inNewer | inEntries
      · simpa using (mem_filter.mp inNewer).2
      · obtain ⟨entry, _, rfl⟩ := mem_map.mp inEntries
        rfl
    · have admittedEntries : ∀ entry ∈ (newer.filter (·.key = key) ++
          entries.map (toItem key)).map Item.toFoldEntry, (counter mutator kind).Admits entry := by
        intro entry mem
        obtain ⟨item, isItem, rfl⟩ := mem_map.mp mem
        exact itemsAdmitted item isItem
      have foldable := counter_foldable wellFormed admittedEntries
      rwa [map_map] at foldable
  have filterAway : ∀ tail : List (Item κ α), readKey (newer ++ tail) key =
      readKey (newer.filter (·.key = key) ++ tail) key := by
    intro tail
    simp only [readKey, filter_append, filter_filter, Bool.and_self]
  have operations : ∀ entries : List (FoldEntry α),
      (newer.filter (·.key = key) ++ entries.map (toItem key)).map Item.operation =
        (newer.filter (·.key = key)).map Item.operation ++ entries.map operation := by
    intro entries
    simp [map_map, Function.comp_def]
  have before := readable first firstAdmitted
  have after := readable second secondAdmitted
  have foldable := before.foldable
  rw [operations] at foldable
  rw [filterAway, filterAway, before.readKey_eq, after.readKey_eq, operations, operations,
    (refines _ foldable).2]

end Counter

/-! ## Folds -/

section Folds

variable [DecidableEq α] {mutator : Mutator} {kind : VarKind} {entries out : List (FoldEntry α)}

/-- A mutation of the kind stays in it. -/
theorem mutate_kind (wellFormed : (counter mutator kind).WellFormed) {lhs rhs value : Var α}
    (lhsKind : lhs.kind = kind) (rhsKind : rhs.kind = kind)
    (mutated : mutate lhs mutator rhs = .ok value) :
    value.kind = kind := by
  have accepted : deferOperand mutator lhs.kind = true := lhsKind ▸ wellFormed.1
  rw [mutate_eq_combine accepted (rhsKind.trans lhsKind.symm)] at mutated
  rw [← Except.ok.inj mutated, combine_kind, lhsKind]

/-- A run of a counter folds to a value of its kind. -/
theorem foldRun_kind
    (wellFormed : (counter mutator kind).WellFormed) {acc : Var α} {older : List (FoldEntry α)}
    {result : Var α × Bool} (accKind : acc.kind = kind)
    (admitted : ∀ entry ∈ older, (counter mutator kind).Admits entry)
    (folded : foldRun mutator acc older = .ok result) :
    result.1.kind = kind := by
  fun_induction foldRun mutator acc older with
  | case1 | case2 | case4 =>
    cases folded
    exact accKind
  | case3 acc entry older value hasValue =>
    obtain ⟨next, mutated, isNext⟩ := exists_of_bind_ok folded
    cases isNext
    exact mutate_kind wellFormed (admitted entry mem_cons_self value hasValue).1 accKind mutated
  | case5 acc entry older value hasValue _ _ ih =>
    obtain ⟨headAdmits, tailAdmits⟩ := forall_mem_cons.mp admitted
    obtain ⟨next, mutated, isNext⟩ := exists_of_bind_ok folded
    exact ih next
      (mutate_kind wellFormed accKind (headAdmits value hasValue).1 mutated) tailAdmits isNext

/-- A fold keeps the discipline. -/
theorem foldOneKey_admits (wellFormed : (counter mutator kind).WellFormed)
    (admitted : ∀ entry ∈ entries, (counter mutator kind).Admits entry)
    (folded : foldOneKey entries = .ok out) :
    ∀ entry ∈ out, (counter mutator kind).Admits entry := by
  obtain ⟨rfl, rfl⟩ | ⟨anchor, older, rfl, rfl | ⟨value, result, hasValue, notAssign, run, rfl⟩⟩ :=
    foldOneKey_ok folded
  · exact admitted
  · exact forall_mem_singleton.mpr (admitted anchor mem_cons_self)
  · obtain ⟨headAdmits, tailAdmits⟩ := forall_mem_cons.mp admitted
    obtain ⟨valueKind, isMutator⟩ := headAdmits value hasValue
    have sameMutator := isMutator.resolve_left notAssign
    rw [sameMutator] at run
    rw [forall_mem_singleton]
    rintro _ ⟨⟩
    refine ⟨foldRun_kind wellFormed valueKind tailAdmits run, ?_⟩
    by_cases grounded : result.2 = true
    · simp [grounded]
    · simp [grounded, sameMutator]

/-- The value a pass carries has the kind of the counter. -/
def KindHeld (kind : VarKind) (state : RetainState α) : Prop :=
  ∀ value ∈ state.running, value.kind = kind

omit [DecidableEq α] in
theorem kindHeld_initial : KindHeld kind (RetainState.initial : RetainState α) := by
  simp [KindHeld, RetainState.initial]

omit [DecidableEq α] in
theorem setFrom_kindHeld {state : RetainState α} (held : KindHeld kind state) {entry : FoldEntry α}
    (admits : (counter mutator kind).Admits entry) :
    KindHeld kind (state.setFrom entry) := by
  cases hasValue : entry.op with
  | none =>
    simp only [RetainState.setFrom, hasValue]
    intro value isNone
    contradiction
  | some value =>
    simp only [RetainState.setFrom, hasValue]
    split
    case isTrue =>
      rintro _ ⟨⟩
      exact (admits value hasValue).1
    case isFalse => exact held

theorem retainStep_admits
    (wellFormed : (counter mutator kind).WellFormed) {state after : RetainState α}
    {entry kept : FoldEntry α} (held : KindHeld kind state)
    (admits : (counter mutator kind).Admits entry)
    (stepped : retainStep state entry = .ok (after, kept)) :
    KindHeld kind after ∧ (counter mutator kind).Admits kept := by
  obtain ⟨rfl | rfl, rfl⟩ | ⟨value, running, hasValue, notAssign, advanced, isRunning, isKept⟩ :=
    retainStep_ok stepped
  · exact ⟨setFrom_kindHeld held admits, admits⟩
  · exact ⟨held, admits⟩
  · obtain ⟨valueKind, isMutator⟩ := admits value hasValue
    have runningKind : running.kind = kind := by
      rw [isMutator.resolve_left notAssign] at advanced
      cases earlier : state.running with
      | none =>
        rw [earlier] at advanced
        exact Except.ok.inj advanced ▸ valueKind
      | some carried =>
        rw [earlier] at advanced
        exact mutate_kind wellFormed (held carried earlier) valueKind advanced
    constructor
    · rw [KindHeld, isRunning]
      rintro _ ⟨⟩
      exact runningKind
    · rcases isKept with rfl | rfl
      · exact admits
      · rintro _ ⟨⟩
        exact ⟨runningKind, .inl rfl⟩

theorem retainLoop_admits
    (wellFormed : (counter mutator kind).WellFormed) {state after : RetainState α}
    {written finished : List (FoldEntry α × Bool)} {newer : List (FoldEntry α)}
    (held : KindHeld kind state)
    (writtenAdmitted : ∀ entry ∈ written, (counter mutator kind).Admits entry.1)
    (newerAdmitted : ∀ entry ∈ newer, (counter mutator kind).Admits entry)
    (looped : retainLoop state written newer = .ok (after, finished)) :
    ∀ entry ∈ finished, (counter mutator kind).Admits entry.1 := by
  induction newer generalizing state written with
  | nil =>
    obtain rfl : written = finished := congrArg Prod.snd (Except.ok.inj looped)
    exact writtenAdmitted
  | cons entry newer ih =>
    obtain ⟨headAdmits, tailAdmits⟩ := forall_mem_cons.mp newerAdmitted
    obtain ⟨result, stepped, rest⟩ := exists_of_bind_ok looped
    obtain ⟨nextHeld, keptAdmits⟩ := retainStep_admits wellFormed held headAdmits stepped
    exact ih nextHeld (forall_mem_cons.mpr ⟨keptAdmits, writtenAdmitted⟩) tailAdmits rest

/-- A fold of entries the discipline allows writes such entries. -/
theorem foldEntries_admits
    {discipline : Discipline} (wellFormed : discipline.WellFormed) {retainFrom : Option Nat}
    (admitted : ∀ entry ∈ entries, discipline.Admits entry)
    (folded : foldEntries retainFrom entries = .ok out) :
    ∀ entry ∈ out, discipline.Admits entry := by
  cases discipline with
  | any => exact fun _ _ => trivial
  | counter mutator kind =>
    cases retainFrom with
    | none => exact foldOneKey_admits wellFormed admitted folded
    | some retainFrom =>
      obtain ⟨base, after, written, based, looped, rfl⟩ := foldEntries_window_ok folded
      have baseAdmitted := foldOneKey_admits wellFormed
        (fun entry mem => admitted entry ((dropWhile_sublist _).subset mem)) based
      obtain ⟨startHeld, startAdmitted⟩ : KindHeld kind (retainBase base).1 ∧
          ∀ entry ∈ (retainBase base).2, (counter mutator kind).Admits entry.1 := by
        cases base with
        | nil => exact ⟨kindHeld_initial, forall_mem_nil _⟩
        | cons front rest =>
          have frontAdmits := baseAdmitted front mem_cons_self
          exact ⟨setFrom_kindHeld kindHeld_initial frontAdmits,
            forall_mem_singleton.mpr frontAdmits⟩
      exact forall_mem_map.mpr (retainLoop_admits wellFormed startHeld startAdmitted
        (fun entry mem => admitted entry ((takeWhile_sublist _).subset
          (mem_reverse.mp mem))) looped)

end Folds

/-! ## Reads of folded entries -/

section Reads

variable {entries out : List (FoldEntry α)} {version : Nat}

/-- The entries a read at a version sees. -/
def seenAt (version : Nat) (entries : List (FoldEntry α)) : List (FoldEntry α) :=
  entries.filter (·.seqNum ≤ version)

theorem seenAt_append (version : Nat) (newer older : List (FoldEntry α)) :
    seenAt version (newer ++ older) = seenAt version newer ++ seenAt version older :=
  filter_append newer older

theorem seenAt_all (visible : ∀ entry ∈ entries, entry.seqNum ≤ version) :
    seenAt version entries = entries :=
  filter_eq_self.mpr fun entry mem => by simpa using visible entry mem

theorem atVersion_toItem (version : Nat) (key : κ) (entries : List (FoldEntry α)) :
    atVersion version (entries.map (toItem key)) = (seenAt version entries).map (toItem key) := by
  rw [atVersion, filter_map]
  rfl

theorem toItem_injective (key : κ) : Function.Injective (toItem key : FoldEntry α → Item κ α) :=
  fun _ _ same => congrArg Item.toFoldEntry same

theorem admits_seenAt
    {discipline : Discipline} (admitted : ∀ entry ∈ entries, discipline.Admits entry)
    (version : Nat) :
    ∀ entry ∈ seenAt version entries, discipline.Admits entry :=
  fun entry mem => admitted entry (mem_of_mem_filter mem)

variable [DecidableEq α]

/-- A fold of at most one entry leaves it. -/
theorem foldEntries_single (retainFrom : Option Nat) (single : entries.length ≤ 1) :
    foldEntries retainFrom entries = .ok entries := by
  match entries, single with
  | [], _ => cases retainFrom <;> rfl
  | [⟨seqNum, mutator, op⟩], _ =>
    have plain : foldOneKey [(⟨seqNum, mutator, op⟩ : FoldEntry α)] =
        .ok [⟨seqNum, mutator, op⟩] := by
      cases op with
      | none => rfl
      | some value =>
        unfold foldOneKey
        by_cases isAssign : mutator = .assign
        · simp [isAssign]
        · by_cases deferred : isDeferSafeCommutative mutator = false
          · simp [isAssign, deferred]
          · simp [isAssign, deferred, foldRun, bind, Except.bind, pure, Except.pure]
    cases retainFrom with
    | none => exact plain
    | some retainFrom =>
      by_cases recent : retainFrom < seqNum
      · cases op with
        | none =>
          simp [foldEntries, foldOneKeyRetaining, recent, foldOneKey, retainBase,
            retainLoop, retainStep, bind, Except.bind, pure, Except.pure, Functor.map,
            Except.map]
        | some value =>
          by_cases isAssign : mutator = .assign
          · simp [foldEntries, foldOneKeyRetaining, recent, foldOneKey, retainBase,
              retainLoop, retainStep, isAssign, bind, Except.bind, pure, Except.pure,
              Functor.map, Except.map]
          · simp [foldEntries, foldOneKeyRetaining, recent, foldOneKey, retainBase,
              retainLoop, retainStep, isAssign, RetainState.initial, bind, Except.bind,
              pure, Except.pure, Functor.map, Except.map]
      · simp [foldEntries, foldOneKeyRetaining, recent, plain, retainBase, retainLoop,
          bind, Except.bind, pure, Except.pure, Functor.map, Except.map]

/-- A fold of a counter rewrites what a read from its horizon on sees. -/
theorem foldEntries_refines
    {mutator : Mutator} {kind : VarKind} (wellFormed : (counter mutator kind).WellFormed)
    (newestFirst : NewestFirst entries)
    (admitted : ∀ entry ∈ entries, (counter mutator kind).Admits entry) {retainFrom : Option Nat}
    (folded : foldEntries retainFrom entries = .ok out) {high : Nat}
    (inRange : ∀ entry ∈ entries, entry.seqNum ≤ high)
    (fromHorizon : RepoFiles.horizonAfter retainFrom high ≤ version) (below : List (Operation α)) :
    Refines ((seenAt version entries).map operation ++ below)
      ((seenAt version out).map operation ++ below) := by
  have foldable := counter_foldable wellFormed admitted
  have outInRange : ∀ entry ∈ out, entry.seqNum ≤ high := by
    intro entry mem
    obtain ⟨source, isSource, same⟩ :=
      mem_map.mp ((foldEntries_seqs folded).subset (mem_map_of_mem mem))
    exact same ▸ inRange source isSource
  cases retainFrom with
  | none =>
    have above : high ≤ version := fromHorizon
    rw [seenAt_all fun entry mem => (inRange entry mem).trans above,
      seenAt_all fun entry mem => (outInRange entry mem).trans above]
    obtain ⟨written, isWritten, refines⟩ := foldOneKey_refines foldable.wellTyped
    obtain rfl : written = out := Except.ok.inj (isWritten.symm.trans folded)
    exact refines below
  | some retainFrom =>
    let item : FoldEntry α → Item Unit α := toItem ()
    have itemsNewest : (entries.map item).Pairwise fun newer older =>
        older.sequenceNumber < newer.sequenceNumber := pairwise_map.mpr newestFirst
    have itemsFoldable : Foldable ((entries.map item).map Item.operation) := by
      rw [map_map]
      exact foldable
    have asEntries : (entries.map item).map Item.toFoldEntry = entries := by
      rw [map_map]
      exact map_id' entries
    obtain ⟨written, visibleOut, isWritten, visible, refines, _⟩ :=
      foldOneKeyRetaining_atVersion () (Nat.le_max_left retainFrom version) itemsNewest
        itemsFoldable
    rw [asEntries] at isWritten
    have isOut : written.map Prod.fst = out := by
      simp only [foldEntries, isWritten] at folded
      exact Except.ok.inj folded
    have sameVersion : ∀ {someEntries : List (FoldEntry α)},
        (∀ entry ∈ someEntries, entry.seqNum ≤ high) →
          seenAt (max retainFrom version) someEntries = seenAt version someEntries := by
      intro someEntries someInRange
      rcases Nat.le_total retainFrom version with window | beyond
      · rw [Nat.max_eq_right window]
      · have above : high ≤ version ∨ retainFrom ≤ version := by
          simpa [RepoFiles.horizonAfter, or_comm] using fromHorizon
        rcases above with above | window
        · rw [seenAt_all fun entry mem => (someInRange entry mem).trans above,
            seenAt_all fun entry mem => ((someInRange entry mem).trans above).trans
              (Nat.le_max_right _ _)]
        · rw [Nat.max_eq_right window]
    have isVisible : visibleOut = seenAt version out := by
      have items : (seenAt (max retainFrom version) out).map item = visibleOut.map item := by
        rw [← visible, ← atVersion_toItem, ← isOut, writtenItems, map_map]
        rfl
      rw [sameVersion outInRange] at items
      exact ((toItem_injective ()).list_map items).symm
    have atVersionEntries : (atVersion (max retainFrom version) (entries.map item)).map
        Item.operation = (seenAt version entries).map operation := by
      rw [atVersion_toItem, sameVersion inRange, map_map]
      rfl
    have rewritten := refines below
    rwa [atVersionEntries, isVisible] at rewritten

/-- A fold that the discipline allows keeps the reads from its horizon on. -/
theorem foldEntries_keeps
    [DecidableEq κ] {discipline : Discipline} (wellFormed : discipline.WellFormed) (key : κ)
    (newestFirst : NewestFirst entries) (admitted : ∀ entry ∈ entries, discipline.Admits entry)
    (mayFold : discipline.MayFold entries) {retainFrom : Option Nat}
    (folded : foldEntries retainFrom entries = .ok out) {high : Nat}
    (inRange : ∀ entry ∈ entries, entry.seqNum ≤ high)
    (fromHorizon : RepoFiles.horizonAfter retainFrom high ≤ version) {below : List (FoldEntry α)}
    (belowAdmitted : ∀ entry ∈ below, discipline.Admits entry) :
    discipline.Keeps key (seenAt version entries ++ below) (seenAt version out ++ below) := by
  cases discipline with
  | any =>
    rw [foldEntries_single retainFrom mayFold] at folded
    rw [Except.ok.inj folded]
    exact Keeps.refl _ _ _
  | counter mutator kind =>
    have withBelow : ∀ {some : List (FoldEntry α)},
        (∀ entry ∈ some, (counter mutator kind).Admits entry) →
          ∀ entry ∈ seenAt version some ++ below, (counter mutator kind).Admits entry :=
      fun isAdmitted entry mem => (mem_append.mp mem).elim
        (admits_seenAt isAdmitted version entry) (belowAdmitted entry)
    refine counter_keeps_of_refines wellFormed (withBelow admitted)
      (withBelow (foldEntries_admits wellFormed admitted folded)) ?_
    rw [map_append, map_append]
    exact foldEntries_refines wellFormed newestFirst admitted folded inRange fromHorizon _

end Reads

end Discipline

end Orly
