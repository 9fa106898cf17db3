import Orly.MutationLaws
import Orly.MergeRuns

namespace Orly

/-!
# Histories of one key

The meaning of a key is its history: the committed operations applied one at a
time in commit order.  `replay` is that meaning, with the run-time errors a
mutation may raise.  For histories the type checker accepts there are none, and
the meaning is the pure function `valueOf`, which reads the history newest first
as walkers and files store it.
-/

open List

/-- One committed operation on a key. -/
inductive Operation (α : Type) where
  | tombstone
  | assign (value : Var α)
  | deferred (mutator : Mutator) (rhs : Var α)
  deriving DecidableEq

section Replay

variable {α : Type} [DecidableEq α]

/-- Apply one operation to the value of the key; an absent key is seeded by the rhs. -/
def applyOperation : Option (Var α) → Operation α → Except RuntimeError (Option (Var α))
  | _, .tombstone => .ok none
  | _, .assign value => .ok (some value)
  | none, .deferred _ rhs => .ok (some rhs)
  | some value, .deferred mutator rhs => some <$> mutate value mutator rhs

/-- The value of a key after its history, oldest operation first. -/
def replay (history : List (Operation α)) : Except RuntimeError (Option (Var α)) :=
  history.foldlM applyOperation none

/-- The effect of a type-checked operation. -/
def effect (state : Option (Var α)) : Operation α → Option (Var α)
  | .tombstone => none
  | .assign value => some value
  | .deferred mutator rhs => state.merge (combine mutator) (some rhs)

/-- The value of a type-checked history, newest operation first. -/
def valueOf (newestFirst : List (Operation α)) : Option (Var α) :=
  newestFirst.foldr (fun operation state => effect state operation) none

@[simp]
theorem valueOf_nil : valueOf ([] : List (Operation α)) = none := rfl

@[simp]
theorem valueOf_cons (operation : Operation α) (older : List (Operation α)) :
    valueOf (operation :: older) = effect (valueOf older) operation :=
  rfl

end Replay

namespace Operation

/-- The operation a stored entry stands for; an entry without a value is a tombstone. -/
def ofEntry (mutator : Mutator) (op : Option (Var α)) : Operation α :=
  match op with
  | none => .tombstone
  | some value =>
    if mutator = .assign then .assign value else .deferred mutator value

@[simp]
theorem ofEntry_none (mutator : Mutator) : ofEntry mutator (none : Option (Var α)) = .tombstone :=
  rfl

@[simp]
theorem ofEntry_assign (value : Var α) : ofEntry .assign (some value) = .assign value := rfl

theorem ofEntry_deferred {mutator : Mutator} (value : Var α) (notAssign : mutator ≠ .assign) :
    ofEntry mutator (some value) = .deferred mutator value := by
  simp [ofEntry, notAssign]

/-- The type checker accepts the operands of a deferred operation. -/
def Accepted : Operation α → Prop
  | .tombstone => True
  | .assign _ => True
  | .deferred mutator rhs => deferOperand mutator rhs.kind = true

/-- A deferred operation is on a kind whose mutators commute. -/
def OrderFree : Operation α → Prop
  | .tombstone => True
  | .assign _ => True
  | .deferred _ rhs => rhs.kind.orderFree = true

/-- The operation determines the value it leaves; no older operation shows. -/
def IsGround : Operation α → Prop
  | .tombstone => True
  | .assign _ => True
  | .deferred _ _ => False

/-- The kind of value an operation leaves behind, if it leaves one. -/
def kind? : Operation α → Option VarKind
  | .tombstone => none
  | .assign value => some value.kind
  | .deferred _ rhs => some rhs.kind

/-- A deferred operation has the kind of what the operation before it left. -/
def KindFollows (newer older : Operation α) : Prop :=
  match newer with
  | .deferred _ rhs => ∀ kind ∈ older.kind?, rhs.kind = kind
  | _ => True

/-- Two adjacent deferred operations use one mutator. -/
def MutatorFollows (newer older : Operation α) : Prop :=
  match newer, older with
  | .deferred mutator _, .deferred olderMutator _ => mutator = olderMutator
  | _, _ => True

instance (operation : Operation α) : Decidable operation.Accepted :=
  match operation with
  | .tombstone => inferInstanceAs (Decidable True)
  | .assign _ => inferInstanceAs (Decidable True)
  | .deferred mutator rhs =>
    inferInstanceAs (Decidable (deferOperand mutator rhs.kind = true))

instance (operation : Operation α) : Decidable operation.OrderFree :=
  match operation with
  | .tombstone => inferInstanceAs (Decidable True)
  | .assign _ => inferInstanceAs (Decidable True)
  | .deferred _ rhs => inferInstanceAs (Decidable (rhs.kind.orderFree = true))

instance (newer older : Operation α) : Decidable (KindFollows newer older) :=
  match newer with
  | .tombstone => inferInstanceAs (Decidable True)
  | .assign _ => inferInstanceAs (Decidable True)
  | .deferred _ rhs =>
    inferInstanceAs (Decidable (∀ kind ∈ older.kind?, rhs.kind = kind))

instance (newer older : Operation α) : Decidable (MutatorFollows newer older) :=
  match newer, older with
  | .deferred mutator _, .deferred olderMutator _ =>
    inferInstanceAs (Decidable (mutator = olderMutator))
  | .tombstone, _ => inferInstanceAs (Decidable True)
  | .assign _, _ => inferInstanceAs (Decidable True)
  | .deferred _ _, .tombstone => inferInstanceAs (Decidable True)
  | .deferred _ _, .assign _ => inferInstanceAs (Decidable True)

end Operation

/-- The histories, newest first, whose operands the type checker accepts. -/
structure WellTyped (newestFirst : List (Operation α)) : Prop where
  accepted : ∀ operation ∈ newestFirst, operation.Accepted
  kinds : newestFirst.IsChain Operation.KindFollows

/-- The histories whose runs of deferred operations each use one mutator. -/
def SingleMutatorRuns (newestFirst : List (Operation α)) : Prop :=
  newestFirst.IsChain Operation.MutatorFollows

instance (newestFirst : List (Operation α)) : Decidable (SingleMutatorRuns newestFirst) :=
  inferInstanceAs (Decidable (newestFirst.IsChain Operation.MutatorFollows))

namespace WellTyped

variable {older : List (Operation α)}

theorem tail {operation : Operation α} (wellTyped : WellTyped (operation :: older)) :
    WellTyped older :=
  ⟨fun other mem =>
      wellTyped.accepted other (mem_cons_of_mem _ mem),
    wellTyped.kinds.tail⟩

theorem deferredAccepted
    {mutator : Mutator} {rhs : Var α} (wellTyped : WellTyped (.deferred mutator rhs :: older)) :
    deferOperand mutator rhs.kind = true :=
  wellTyped.accepted _ mem_cons_self

variable [DecidableEq α]

/-- A well-typed history leaves a value of the kind of its newest operation. -/
theorem valueOf_kind {operation : Operation α} (wellTyped : WellTyped (operation :: older)) :
    (valueOf (operation :: older)).map Var.kind = operation.kind? := by
  induction older generalizing operation with
  | nil => cases operation <;> rfl
  | cons previous older ih =>
    have previousKind := ih wellTyped.tail
    have kindFollows := (isChain_cons_cons.mp wellTyped.kinds).1
    cases operation with
    | tombstone => rfl
    | assign value => rfl
    | deferred mutator rhs =>
      rw [valueOf_cons, effect]
      generalize valueOf (previous :: older) = state at previousKind
      cases state with
      | none => rfl
      | some value =>
        have sameKind : rhs.kind = value.kind := by
          apply kindFollows
          rw [← previousKind]
          rfl
        simp [combine_kind, Operation.kind?, sameKind]

/-- A deferred operation of a well-typed history meets a value of its own kind. -/
theorem olderKind
    {mutator : Mutator} {rhs : Var α} (wellTyped : WellTyped (.deferred mutator rhs :: older)) :
    ∀ value ∈ valueOf older, value.kind = rhs.kind := by
  intro value isValue
  cases older with
  | nil => simp at isValue
  | cons previous older =>
    have previousKind := wellTyped.tail.valueOf_kind
    have kindFollows := (isChain_cons_cons.mp wellTyped.kinds).1
    symm
    apply kindFollows
    rw [← previousKind, Option.mem_def.mp isValue]
    rfl

end WellTyped

section Meaning

variable [DecidableEq α]

/-- On operands the type checker accepts, an operation has its pure effect. -/
theorem applyOperation_eq_effect
    {state : Option (Var α)} {operation : Operation α} (accepted : operation.Accepted)
    (sameKind : ∀ mutator rhs, operation = .deferred mutator rhs →
        ∀ value ∈ state, value.kind = rhs.kind) :
    applyOperation state operation = .ok (effect state operation) := by
  cases operation with
  | tombstone => cases state <;> rfl
  | assign value => cases state <;> rfl
  | deferred mutator rhs =>
    cases state with
    | none => rfl
    | some value =>
      have valueKind : value.kind = rhs.kind := sameKind mutator rhs rfl value rfl
      have operandAccepted : deferOperand mutator value.kind = true := by
        rw [valueKind]
        exact accepted
      simp [applyOperation, effect, mutate_eq_combine operandAccepted valueKind.symm]

/-- Replaying a well-typed history never raises and leaves its pure value. -/
theorem replay_eq_valueOf {newestFirst : List (Operation α)} (wellTyped : WellTyped newestFirst) :
    replay newestFirst.reverse = .ok (valueOf newestFirst) := by
  induction newestFirst with
  | nil => rfl
  | cons operation older ih =>
    have olderReplay := ih wellTyped.tail
    unfold replay at olderReplay
    rw [replay, reverse_cons, foldlM_append, olderReplay]
    have operationEffect : applyOperation (valueOf older) operation =
          .ok (effect (valueOf older) operation) := by
      apply applyOperation_eq_effect
      · exact wellTyped.accepted _ mem_cons_self
      · rintro mutator rhs rfl
        exact wellTyped.olderKind
    simp only [foldlM_cons, foldlM_nil, bind_pure]
    exact operationEffect

end Meaning

/-- The values of the newest run of deferred operations, newest first. -/
def deferredRun : List (Operation α) → List (Var α)
  | .deferred _ rhs :: older => rhs :: deferredRun older
  | _ => []

/-- The value the newest run of deferred operations rests on. -/
def runBase : List (Operation α) → Option (Var α)
  | .deferred _ _ :: older => runBase older
  | .assign value :: _ => some value
  | .tombstone :: _ => none
  | [] => none

/-- The deferred operations of the newest run all use `mutator`. -/
def RunUses (mutator : Mutator) : List (Operation α) → Prop
  | .deferred runMutator _ :: older => runMutator = mutator ∧ RunUses mutator older
  | _ => True

theorem SingleMutatorRuns.runUses {mutator : Mutator} {rhs : Var α} {older : List (Operation α)}
    (singleMutator : SingleMutatorRuns (.deferred mutator rhs :: older)) :
    RunUses mutator (.deferred mutator rhs :: older) := by
  induction older generalizing rhs with
  | nil => exact ⟨rfl, trivial⟩
  | cons previous older ih =>
    refine ⟨rfl, ?_⟩
    cases previous with
    | tombstone => trivial
    | assign value => trivial
    | deferred olderMutator olderRhs =>
      have sameMutator : mutator = olderMutator := (isChain_cons_cons.mp singleMutator).1
      subst sameMutator
      exact ih singleMutator.tail

theorem WellTyped.deferredRun_kind {mutator : Mutator} {rhs : Var α} {older : List (Operation α)}
    (wellTyped : WellTyped (.deferred mutator rhs :: older)) :
    (∀ delta ∈ deferredRun (.deferred mutator rhs :: older), delta.kind = rhs.kind) ∧
      ∀ value ∈ runBase (.deferred mutator rhs :: older), value.kind = rhs.kind := by
  induction older generalizing mutator rhs with
  | nil => simp [deferredRun, runBase]
  | cons previous older ih =>
    have kindFollows := (isChain_cons_cons.mp wellTyped.kinds).1
    cases previous with
    | tombstone => simp [deferredRun, runBase]
    | assign value =>
      have valueKind : rhs.kind = value.kind := kindFollows _ rfl
      simp [deferredRun, runBase, valueKind]
    | deferred olderMutator olderRhs =>
      have olderKind : rhs.kind = olderRhs.kind := kindFollows _ rfl
      obtain ⟨runKind, baseKind⟩ := ih wellTyped.tail
      rw [olderKind]
      refine ⟨?_, baseKind⟩
      intro delta mem
      rcases mem_cons.mp mem with rfl | olderMember
      · exact olderKind
      · exact runKind delta olderMember

section RunMeaning

variable [DecidableEq α] {mutator : Mutator}

/-- A history's value is its newest run, oldest delta first, over what it rests on. -/
theorem valueOf_eq_mergeInto {newestFirst : List (Operation α)}
    (runUses : RunUses mutator newestFirst) :
    valueOf newestFirst = MergeRuns.mergeInto (combine mutator) (runBase newestFirst)
        (deferredRun newestFirst).reverse := by
  induction newestFirst with
  | nil => rfl
  | cons operation older ih =>
    cases operation with
    | tombstone => rfl
    | assign value => rfl
    | deferred runMutator rhs =>
      obtain ⟨rfl, olderUses⟩ := runUses
      rw [valueOf_cons, effect, ih olderUses, deferredRun,
        runBase, reverse_cons, MergeRuns.mergeInto_append]
      rfl

/-- Deferred mutations of one kind form a merge operation on that kind. -/
theorem combine_associativeOn (mutator : Mutator) (kind : VarKind) :
    MergeRuns.AssociativeOn (fun value : Var α => value.kind = kind) (combine mutator) where
  closed := by
    intro first second firstKind _
    rw [combine_kind, firstKind]
  assoc := by
    intro first second third firstKind secondKind thirdKind
    exact combine_assoc (secondKind.trans firstKind.symm) (thirdKind.trans firstKind.symm)

/-- On integers, booleans and sets the merge operation is commutative. -/
theorem combine_commutativeOn (mutator : Mutator) {kind : VarKind}
    (orderFree : kind.orderFree = true) :
    MergeRuns.CommutativeOn (fun value : Var α => value.kind = kind) (combine mutator) where
  toAssociativeOn := combine_associativeOn mutator kind
  comm := by
    intro first second firstKind secondKind
    exact combine_comm (by rw [firstKind, orderFree]) (secondKind.trans firstKind.symm)

end RunMeaning

end Orly
