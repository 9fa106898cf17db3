import Mathlib

namespace MergeRuns

/-!
# Folding runs of a merge operation

A store that keeps deltas instead of values resolves a key by merging a run of
deltas with a binary operation.  The operation need only behave on a part of its
type, and a missing value acts as its identity, so runs are folded in `Option`.

The results here say how such folds split over appends, and that a commutative
operation gives the same value in both directions of a run.
-/

open List

variable {Value : Type}

/-- An operation that is closed and associative on a part of its type. -/
structure AssociativeOn (domain : Value → Prop) (merge : Value → Value → Value) : Prop where
  closed : ∀ {first second}, domain first → domain second → domain (merge first second)
  assoc : ∀ {first second third}, domain first → domain second → domain third →
        merge (merge first second) third = merge first (merge second third)

/-- An associative operation that is also commutative on its domain. -/
structure CommutativeOn (domain : Value → Prop) (merge : Value → Value → Value) : Prop
    extends AssociativeOn domain merge where
  comm : ∀ {first second}, domain first → domain second → merge first second = merge second first

/-- Merge a run of deltas, first delta first, into a possibly missing value. -/
def mergeInto (merge : Value → Value → Value) (start : Option Value)
    (run : List Value) : Option Value :=
  run.foldl (fun state delta => state.merge merge (some delta)) start

/-- The delta a whole run amounts to; the empty run amounts to none. -/
def runDelta (merge : Value → Value → Value) (run : List Value) : Option Value :=
  mergeInto merge none run

section Basic

variable (merge : Value → Value → Value)

@[simp]
theorem mergeInto_nil (start : Option Value) : mergeInto merge start [] = start := rfl

@[simp]
theorem mergeInto_cons (start : Option Value) (delta : Value) (run : List Value) :
    mergeInto merge start (delta :: run) = mergeInto merge (start.merge merge (some delta)) run :=
  rfl

theorem mergeInto_append (start : Option Value) (first second : List Value) :
    mergeInto merge start (first ++ second) =
      mergeInto merge (mergeInto merge start first) second := by
  simp [mergeInto]

@[simp]
theorem runDelta_nil : runDelta merge [] = none := rfl

@[simp]
theorem runDelta_singleton (delta : Value) : runDelta merge [delta] = some delta := rfl

theorem runDelta_snoc (run : List Value) (delta : Value) : runDelta merge (run ++ [delta]) =
      (runDelta merge run).merge merge (some delta) := by
  simp [runDelta, mergeInto]

/-- A nonempty run folds, in the value type, from its first delta. -/
theorem mergeInto_some (start : Value) (run : List Value) :
    mergeInto merge (some start) run = some (run.foldl merge start) := by
  induction run generalizing start with
  | nil => rfl
  | cons delta run ih =>
    exact ih (merge start delta)

theorem runDelta_cons (delta : Value) (run : List Value) :
    runDelta merge (delta :: run) = some (run.foldl merge delta) :=
  mergeInto_some merge delta run

end Basic

namespace AssociativeOn

variable {domain : Value → Prop} {merge : Value → Value → Value} (laws : AssociativeOn domain merge)

include laws

theorem closed_option {first second : Option Value} (firstDomain : ∀ value ∈ first, domain value)
    (secondDomain : ∀ value ∈ second, domain value) :
    ∀ value ∈ first.merge merge second, domain value := by
  cases first <;> cases second <;> simp_all [laws.closed]

theorem assoc_option
    {first second third : Option Value} (firstDomain : ∀ value ∈ first, domain value)
    (secondDomain : ∀ value ∈ second, domain value) (thirdDomain : ∀ value ∈ third, domain value) :
    (first.merge merge second).merge merge third =
      first.merge merge (second.merge merge third) := by
  cases first <;> cases second <;> cases third <;> simp_all [laws.assoc]

theorem mergeInto_domain
    {start : Option Value} {run : List Value} (startDomain : ∀ value ∈ start, domain value)
    (runDomain : ∀ delta ∈ run, domain delta) :
    ∀ value ∈ mergeInto merge start run, domain value := by
  induction run generalizing start with
  | nil => exact startDomain
  | cons delta run ih =>
    apply ih
    · exact laws.closed_option startDomain (by simpa using runDomain delta)
    · intro other mem
      exact runDomain other (mem_cons_of_mem _ mem)

/-- Merging a run one delta at a time merges the delta it amounts to. -/
theorem mergeInto_eq_merge_runDelta
    {start : Option Value} {run : List Value} (startDomain : ∀ value ∈ start, domain value)
    (runDomain : ∀ delta ∈ run, domain delta) :
    mergeInto merge start run = start.merge merge (runDelta merge run) := by
  induction run using List.reverseRecOn with
  | nil => simp
  | append_singleton run delta ih =>
    have prefixDomain : ∀ other ∈ run, domain other := by
      intro other mem
      exact runDomain other (mem_append_left _ mem)
    have deltaDomain : domain delta := runDomain delta (by simp)
    have runDeltaDomain : ∀ value ∈ runDelta merge run, domain value :=
      laws.mergeInto_domain (by simp) prefixDomain
    rw [mergeInto_append, ih prefixDomain, runDelta_snoc]
    exact laws.assoc_option startDomain runDeltaDomain (by simpa)

/-- Two runs merge as their deltas do. -/
theorem runDelta_append {first second : List Value} (firstDomain : ∀ delta ∈ first, domain delta)
    (secondDomain : ∀ delta ∈ second, domain delta) :
    runDelta merge (first ++ second) =
      (runDelta merge first).merge merge (runDelta merge second) := by
  have startDomain : ∀ value ∈ runDelta merge first, domain value :=
    laws.mergeInto_domain (by simp) firstDomain
  rw [runDelta, mergeInto_append]
  exact laws.mergeInto_eq_merge_runDelta startDomain secondDomain

end AssociativeOn

namespace CommutativeOn

variable {domain : Value → Prop} {merge : Value → Value → Value} (laws : CommutativeOn domain merge)

include laws

theorem comm_option {first second : Option Value} (firstDomain : ∀ value ∈ first, domain value)
    (secondDomain : ∀ value ∈ second, domain value) :
    first.merge merge second = second.merge merge first := by
  cases first <;> cases second <;> simp_all
  exact laws.comm firstDomain secondDomain

/-- A commutative run amounts to the same delta in both directions. -/
theorem runDelta_reverse {run : List Value} (runDomain : ∀ delta ∈ run, domain delta) :
    runDelta merge run.reverse = runDelta merge run := by
  induction run with
  | nil => rfl
  | cons delta run ih =>
    have tailDomain : ∀ other ∈ run, domain other := by
      intro other mem
      exact runDomain other (mem_cons_of_mem _ mem)
    have deltaDomain : ∀ value ∈ some delta, domain value := by
      simpa using runDomain delta
    have tailDelta : ∀ value ∈ runDelta merge run, domain value :=
      laws.mergeInto_domain (by simp) tailDomain
    calc
      runDelta merge (delta :: run).reverse
          = (runDelta merge run.reverse).merge merge (some delta) := by
            rw [reverse_cons, runDelta_snoc]
      _ = (runDelta merge run).merge merge (some delta) := by
            rw [ih tailDomain]
      _ = (some delta).merge merge (runDelta merge run) := laws.comm_option tailDelta deltaDomain
      _ = runDelta merge (delta :: run) := by
            rw [← singleton_append,
              laws.runDelta_append (by simpa using runDomain delta) tailDomain,
              runDelta_singleton]

end CommutativeOn

end MergeRuns
