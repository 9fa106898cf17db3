import Mathlib

/-!
# Sorted maps

Finite maps as association lists with increasing keys, so that maps with the same elements
are equal.  `insert` leaves an element that is there, as the `insert` of a C++ map does.
-/

/-- A map with its elements in the order of their keys. -/
structure SortedMap (κ α : Type) [LinearOrder κ] where
  entries : List (κ × α)
  sorted : entries.Pairwise fun first second => first.1 < second.1

namespace SortedMap

open List

section Lists

variable {κ α : Type} [LinearOrder κ]

/-- Insert into a sorted list, unless the key is there. -/
def insertList (key : κ) (value : α) : List (κ × α) → List (κ × α)
  | [] => [(key, value)]
  | entry :: entries =>
    if key < entry.1 then
      (key, value) :: entry :: entries
    else if key = entry.1 then
      entry :: entries
    else
      entry :: insertList key value entries

theorem mem_insertList {key : κ} {value : α} {entry : κ × α} {entries : List (κ × α)}
    (mem : entry ∈ insertList key value entries) :
    entry = (key, value) ∨ entry ∈ entries := by
  induction entries with
  | nil => exact Or.inl (mem_singleton.mp mem)
  | cons first entries ih =>
    rw [insertList] at mem
    split at mem
    case isTrue => exact mem_cons.mp mem
    case isFalse =>
      split at mem
      case isTrue => exact Or.inr mem
      case isFalse =>
        rcases mem_cons.mp mem with rfl | later
        · exact Or.inr mem_cons_self
        · exact (ih later).imp_right (mem_cons_of_mem _)

theorem sorted_insertList (key : κ) (value : α) {entries : List (κ × α)}
    (sorted : entries.Pairwise fun first second => first.1 < second.1) :
    (insertList key value entries).Pairwise fun first second => first.1 < second.1 := by
  induction entries with
  | nil => exact pairwise_singleton ..
  | cons first entries ih =>
    obtain ⟨firstBelow, restSorted⟩ := pairwise_cons.mp sorted
    rw [insertList]
    split
    case isTrue below =>
      refine pairwise_cons.mpr ⟨?_, sorted⟩
      intro entry mem
      rcases mem_cons.mp mem with rfl | later
      · exact below
      · exact lt_trans below (firstBelow entry later)
    case isFalse notBelow =>
      split
      case isTrue => exact sorted
      case isFalse differs =>
        refine pairwise_cons.mpr ⟨?_, ih restSorted⟩
        intro entry mem
        rcases mem_insertList mem with rfl | later
        · exact lt_of_le_of_ne (not_lt.mp notBelow) (Ne.symm differs)
        · exact firstBelow entry later

end Lists

variable {κ α : Type} [LinearOrder κ] (map : SortedMap κ α)

/-- The map without elements. -/
def empty : SortedMap κ α where
  entries := []
  sorted := List.Pairwise.nil

/-- Insert an element, unless its key is there. -/
def insert (key : κ) (value : α) : SortedMap κ α where
  entries := insertList key value map.entries
  sorted := sorted_insertList key value map.sorted

/-- Insert elements in turn. -/
def insertAll (pairs : List (κ × α)) : SortedMap κ α :=
  pairs.foldl (fun map pair => map.insert pair.1 pair.2) map

/-- Remove a key. -/
def erase (key : κ) : SortedMap κ α where
  entries := map.entries.filter fun entry => entry.1 ≠ key
  sorted := map.sorted.filter _

/-- The value under a key in a list of pairs, the first if there are several. -/
def findIn (key : κ) (pairs : List (κ × α)) : Option α :=
  (pairs.find? fun pair => pair.1 = key).map Prod.snd

/-- The value under a key. -/
def find? (key : κ) : Option α :=
  findIn key map.entries

theorem findIn_cons (key : κ) (pair : κ × α) (pairs : List (κ × α)) :
    findIn key (pair :: pairs) = if pair.1 = key then some pair.2 else findIn key pairs := by
  rw [findIn, find?_cons]
  by_cases same : pair.1 = key
  · simp [same]
  · simp [same, findIn]

variable {key : κ} {pairs : List (κ × α)}

/-- A value that is found is in the list. -/
theorem mem_of_findIn {value : α} (found : findIn key pairs = some value) :
    (key, value) ∈ pairs := by
  obtain ⟨pair, isPair, rfl⟩ := Option.map_eq_some_iff.mp found
  have same : pair.1 = key := by simpa using find?_some isPair
  rw [← same]
  exact mem_of_find?_eq_some isPair

/-- In a list that has one value for each key, what is in it is found. -/
theorem findIn_of_mem {value : α} (single : ∀ other, (key, other) ∈ pairs → other = value)
    (mem : (key, value) ∈ pairs) :
    findIn key pairs = some value := by
  cases found : findIn key pairs with
  | none =>
    have missing := List.find?_eq_none.mp (Option.map_eq_none_iff.mp found) _ mem
    simp at missing
  | some other => rw [single other (mem_of_findIn found)]

theorem findIn_eq_none (missing : ∀ value, (key, value) ∉ pairs) : findIn key pairs = none := by
  cases found : findIn key pairs with
  | none => rfl
  | some value => exact absurd (mem_of_findIn found) (missing value)

/-- An element is known by its key. -/
theorem mem_entries_iff {map : SortedMap κ α} {value : α} :
    (key, value) ∈ map.entries ↔ map.find? key = some value := by
  refine ⟨fun mem => findIn_of_mem ?_ mem, mem_of_findIn⟩
  intro other isOther
  by_contra differs
  have distinct : (map.entries.map Prod.fst).Nodup :=
    pairwise_map.mpr (map.sorted.imp fun below => ne_of_lt below)
  have same := inj_on_of_nodup_map distinct isOther mem rfl
  exact differs (congrArg Prod.snd same)

theorem find?_empty (key : κ) : (empty : SortedMap κ α).find? key = none := rfl

theorem find?_insert (key : κ) (value : α) (other : κ) : (map.insert key value).find? other =
      (map.find? other).or (if key = other then some value else none) := by
  obtain ⟨entries, sorted⟩ := map
  show findIn other (insertList key value entries) = (findIn other entries).or _
  induction entries with
  | nil => rw [insertList, findIn_cons]; rfl
  | cons first entries ih =>
    obtain ⟨firstBelow, restSorted⟩ := pairwise_cons.mp sorted
    rw [insertList]
    split
    case isTrue below =>
      rw [findIn_cons]
      by_cases same : key = other
      · have missing : findIn other (first :: entries) = none := by
          refine findIn_eq_none ?_
          intro found mem
          rcases mem_cons.mp mem with isFirst | later
          · rw [same, ← isFirst] at below
            exact lt_irrefl _ below
          · have lower := lt_trans below (firstBelow _ later)
            rw [same] at lower
            exact lt_irrefl _ lower
        rw [if_pos same, missing, if_pos same, Option.none_or]
      · rw [if_neg same, if_neg same, Option.or_none]
    case isFalse =>
      split
      case isTrue isFirst =>
        rw [findIn_cons]
        by_cases same : first.1 = other
        · simp [same]
        · simp [same, isFirst]
      case isFalse =>
        rw [findIn_cons, findIn_cons, ih restSorted]
        by_cases same : first.1 = other
        · simp [same]
        · simp [same]

theorem find?_insertAll (pairs : List (κ × α)) (key : κ) :
    (map.insertAll pairs).find? key = (map.find? key).or (findIn key pairs) := by
  induction pairs generalizing map with
  | nil => exact Option.or_none.symm
  | cons pair pairs ih =>
    have step : map.insertAll (pair :: pairs) = (map.insert pair.1 pair.2).insertAll pairs := rfl
    rw [step, ih, find?_insert, findIn_cons, Option.or_assoc]
    by_cases same : pair.1 = key
    · simp [same]
    · simp [same]

theorem find?_erase (key other : κ) :
    (map.erase key).find? other = if other = key then none else map.find? other := by
  split
  case isTrue same =>
    refine findIn_eq_none ?_
    intro value mem
    have kept := (mem_filter.mp mem).2
    simp [same] at kept
  case isFalse differs =>
    cases found : map.find? other with
    | none =>
      refine findIn_eq_none ?_
      intro value mem
      have inMap := mem_entries_iff.mp (mem_filter.mp mem).1
      rw [found] at inMap
      contradiction
    | some value =>
      have mem : (other, value) ∈ (map.erase key).entries :=
        mem_filter.mpr ⟨mem_entries_iff.mpr found, by simpa using differs⟩
      exact mem_entries_iff.mp mem

/-- Maps with the same elements are equal. -/
theorem ext_find {first second : SortedMap κ α} (same : ∀ key, first.find? key = second.find? key) :
    first = second := by
  have members : ∀ entry, entry ∈ first.entries ↔ entry ∈ second.entries := by
    rintro ⟨key, value⟩
    rw [mem_entries_iff, mem_entries_iff, same]
  have nodup : ∀ map : SortedMap κ α, map.entries.Nodup := fun map =>
    map.sorted.imp fun {left right} below equal =>
      absurd (congrArg Prod.fst equal) (ne_of_lt below)
  have isPerm := (perm_ext_iff_of_nodup (nodup first) (nodup second)).mpr members
  have entries : first.entries = second.entries :=
    isPerm.eq_of_pairwise (fun _ _ _ _ below above => absurd (lt_trans below above) (lt_irrefl _))
      first.sorted second.sorted
  obtain ⟨firstEntries, firstSorted⟩ := first
  obtain ⟨secondEntries, secondSorted⟩ := second
  obtain rfl : firstEntries = secondEntries := entries
  rfl

/-- Set the value under a key, as an assignment through `operator[]` of a C++ map does. -/
def assign (key : κ) (value : α) : SortedMap κ α :=
  (map.erase key).insert key value

theorem assign_eq_insert {map : SortedMap κ α} (missing : map.find? key = none) (value : α) :
    map.assign key value = map.insert key value := by
  have erased : map.erase key = map := by
    refine ext_find fun other => ?_
    rw [find?_erase]
    split
    case isTrue same => rw [same, missing]
    case isFalse => rfl
  rw [assign, erased]

theorem foldl_assign_eq_insertAll {pairs : List (κ × α)} {map : SortedMap κ α}
    (distinct : (pairs.map Prod.fst).Nodup) (missing : ∀ pair ∈ pairs, map.find? pair.1 = none) :
    pairs.foldl (fun built pair => built.assign pair.1 pair.2) map = map.insertAll pairs := by
  induction pairs generalizing map with
  | nil => rfl
  | cons pair pairs ih =>
    obtain ⟨fresh, others⟩ := nodup_cons.mp distinct
    rw [foldl_cons, assign_eq_insert (missing pair mem_cons_self)]
    refine ih others ?_
    intro other mem
    have differs : pair.1 ≠ other.1 := fun same =>
      fresh (same ▸ mem_map_of_mem mem)
    rw [find?_insert, missing other (mem_cons_of_mem _ mem), if_neg differs]
    rfl

/-- Assigning the elements of a map in turn builds the map. -/
theorem foldl_assign_entries :
    map.entries.foldl (fun built entry => built.assign entry.1 entry.2) empty = map := by
  have distinct : (map.entries.map Prod.fst).Nodup :=
    pairwise_map.mpr (map.sorted.imp fun below => ne_of_lt below)
  rw [foldl_assign_eq_insertAll distinct fun _ _ => rfl]
  exact ext_find fun key => find?_insertAll _ _ _

end SortedMap
