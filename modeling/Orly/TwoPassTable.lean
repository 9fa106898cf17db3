import Mathlib

/-!
# Open tables written in two passes

Entries sorted by their home slot are laid out from the first slot on, none ahead of
its home.  What does not fit before the end of the table goes to the first free slots
from the start.  A probe walks from a home slot around the table and may give up at an
entry whose home lies further on.
-/

namespace TwoPassTable

open List

variable {Entry : Type*} (home : Entry → Nat)

/-- The first pass over the slots from this one on, and the entries left over. -/
def place : Nat → Nat → List Entry → List (Option Entry) × List Entry
  | _, 0, entries => ([], entries)
  | slot, size + 1, [] =>
    (none :: (place (slot + 1) size []).1, (place (slot + 1) size []).2)
  | slot, size + 1, entry :: entries =>
    if home entry ≤ slot then
      (some entry :: (place (slot + 1) size entries).1, (place (slot + 1) size entries).2)
    else
      (none :: (place (slot + 1) size (entry :: entries)).1,
        (place (slot + 1) size (entry :: entries)).2)

/-- The second pass: the entries left over go to the first free slots. -/
def fillHoles : List (Option Entry) → List Entry → List (Option Entry)
  | [], _ => []
  | slots, [] => slots
  | none :: slots, entry :: entries => some entry :: fillHoles slots entries
  | some kept :: slots, entry :: entries =>
    some kept :: fillHoles slots (entry :: entries)

/-- The table of this size that both passes leave. -/
def table (size : Nat) (entries : List Entry) : List (Option Entry) :=
  fillHoles (place home 0 size entries).1 (place home 0 size entries).2

/-- What a probe makes of one entry. -/
inductive Judgement where
  | hit
  | stop
  | pass
  deriving DecidableEq, Repr

/-- A walk over slots: a free slot ends it, and running out of slots is `none`. -/
def probe (judge : Entry → Judgement) : List (Option Entry) → Option (Option Entry)
  | [] => none
  | none :: _ => some none
  | some entry :: slots =>
    match judge entry with
    | .hit => some (some entry)
    | .stop => some none
    | .pass => probe judge slots

/-- The slots in the order a probe from this home walks them. -/
def around (slots : List (Option Entry)) (start : Nat) : List (Option Entry) :=
  slots.drop start ++ slots.take start

/-- The number of free slots. -/
def holes (slots : List (Option Entry)) : Nat :=
  slots.countP (·.isNone)

section Passes

variable {home} {slot size : Nat} {entries : List Entry}

@[simp] theorem place_size_zero : place home slot 0 entries = ([], entries) := by
  cases entries <;> rfl

@[simp] theorem fillHoles_entries_nil (slots : List (Option Entry)) :
    fillHoles slots [] = slots := by
  cases slots <;> rfl

theorem place_length : (place home slot size entries).1.length = size := by
  fun_induction place home slot size entries with
  | case1 => rfl
  | case2 slot size ih =>
    simpa using ih
  | case3 slot size entry entries atHome ih =>
    simpa using ih
  | case4 slot size entry entries ahead ih =>
    simpa using ih

theorem place_add (first second : Nat) : place home slot (first + second) entries =
      ((place home slot first entries).1 ++
          (place home (slot + first) second (place home slot first entries).2).1,
        (place home (slot + first) second (place home slot first entries).2).2) := by
  induction first generalizing slot entries with
  | zero => simp
  | succ first ih =>
    have further : slot + (first + 1) = slot + 1 + first := by omega
    rw [Nat.succ_add, further]
    cases entries with
    | nil =>
      rw [place, place, ih]
      simp
    | cons entry entries =>
      rw [place, place]
      split
      · rw [ih]
        simp
      · rw [ih]
        simp

/-- Entries at or past their home fill consecutive slots. -/
theorem place_ready (ready waiting : List Entry) (atHome : ∀ entry ∈ ready, home entry ≤ slot) :
    place home slot size (ready ++ waiting) =
      ((ready.take size).map some ++
          (place home (slot + ready.length) (size - ready.length) waiting).1,
        ready.drop size ++ (place home (slot + ready.length) (size - ready.length) waiting).2) := by
  induction ready generalizing slot size with
  | nil => simp
  | cons entry ready ih =>
    cases size with
    | zero => simp
    | succ size =>
      have entryHome : home entry ≤ slot := atHome entry (by simp)
      have readyHome : ∀ other ∈ ready, home other ≤ slot + 1 := by
        intro other mem
        have bound := atHome other (by simp [mem])
        omega
      have further : slot + 1 + ready.length = slot + (ready.length + 1) := by omega
      rw [cons_append, place, if_pos entryHome, ih readyHome]
      simp [further]

/-- What the first pass writes, and what it leaves over, are its entries in order. -/
theorem place_append : (place home slot size entries).1.reduceOption ++
        (place home slot size entries).2 =
      entries := by
  fun_induction place home slot size entries with
  | case1 => rfl
  | case2 slot size ih =>
    simpa [reduceOption_cons_of_none] using ih
  | case3 slot size entry entries atHome ih =>
    simpa [reduceOption_cons_of_some] using ih
  | case4 slot size entry entries ahead ih =>
    simpa [reduceOption_cons_of_none] using ih

/-- No entry of the first pass stands ahead of its home. -/
theorem home_lt_of_mem_place {entry : Entry} (mem : some entry ∈ (place home slot size entries).1) :
    home entry < slot + size := by
  fun_induction place home slot size entries with
  | case1 => simp at mem
  | case2 slot size ih =>
    have bound := ih (by simpa using mem)
    omega
  | case3 slot size first entries atHome ih =>
    rcases mem_cons.mp mem with here | later
    · cases here
      omega
    · have bound := ih later
      omega
  | case4 slot size first entries ahead ih =>
    have bound := ih (by simpa using mem)
    omega

theorem holes_place : holes (place home slot size entries).1 + entries.length =
      size + (place home slot size entries).2.length := by
  fun_induction place home slot size entries with
  | case1 => simp [holes]
  | case2 slot size ih =>
    simp only [holes, countP_cons, Option.isNone_none, ↓reduceIte] at *
    omega
  | case3 slot size entry entries atHome ih =>
    simp only [holes, countP_cons, Option.isNone_some, length_cons] at *
    simp only [Bool.false_eq_true, ↓reduceIte]
    omega
  | case4 slot size entry entries ahead ih =>
    simp only [holes, countP_cons, Option.isNone_none, ↓reduceIte] at *
    omega

theorem fillHoles_append (first second : List (Option Entry)) :
    fillHoles (first ++ second) entries =
      fillHoles first entries ++ fillHoles second (entries.drop (holes first)) := by
  fun_induction fillHoles first entries with
  | case1 entries => simp [holes]
  | case2 slots => simp
  | case3 slots entry entries ih =>
    rw [cons_append, fillHoles, ih, cons_append]
    simp [holes]
  | case4 kept slots entry entries ih =>
    rw [cons_append, fillHoles, ih, cons_append]
    simp [holes]

theorem fillHoles_length (slots : List (Option Entry)) :
    (fillHoles slots entries).length = slots.length := by
  fun_induction fillHoles slots entries with
  | case1 => rfl
  | case2 => rfl
  | case3 slots entry entries ih => simpa using ih
  | case4 kept slots entry entries ih => simpa using ih

/-- Slots that are all taken stay as they are. -/
theorem fillHoles_taken_append (taken : List Entry) (slots : List (Option Entry)) :
    fillHoles (taken.map some ++ slots) entries = taken.map some ++ fillHoles slots entries := by
  cases entries with
  | nil => simp
  | cons entry entries =>
    induction taken with
    | nil => rfl
    | cons kept taken ih =>
      rw [map_cons, cons_append, fillHoles, ih, cons_append]

theorem fillHoles_taken (taken : List Entry) :
    fillHoles (taken.map some) entries = taken.map some := by
  have kept : fillHoles (taken.map some ++ []) entries = taken.map some ++ fillHoles [] entries :=
    fillHoles_taken_append taken []
  simpa [fillHoles] using kept

theorem mem_fillHoles {slots : List (Option Entry)} {entry : Entry}
    (mem : some entry ∈ fillHoles slots entries) :
    some entry ∈ slots ∨ entry ∈ entries := by
  fun_induction fillHoles slots entries with
  | case1 => simp at mem
  | case2 => exact Or.inl mem
  | case3 slots first entries ih =>
    rcases mem_cons.mp mem with here | later
    · cases here
      exact Or.inr (by simp)
    · rcases ih later with kept | filled
      · exact Or.inl (by simp [kept])
      · exact Or.inr (by simp [filled])
  | case4 kept slots first entries ih =>
    rcases mem_cons.mp mem with here | later
    · exact Or.inl (by simp [here])
    · rcases ih later with old | filled
      · exact Or.inl (by simp [old])
      · exact Or.inr filled

theorem holes_fillHoles (slots : List (Option Entry)) :
    holes slots ≤ holes (fillHoles slots entries) + entries.length := by
  fun_induction fillHoles slots entries with
  | case1 => simp [holes]
  | case2 => simp
  | case3 slots entry entries ih =>
    simp only [holes, countP_cons, Option.isNone_none, Option.isNone_some,
      length_cons, ↓reduceIte, Bool.false_eq_true] at *
    omega
  | case4 kept slots entry entries ih =>
    simp only [holes, countP_cons, Option.isNone_some, length_cons,
      ↓reduceIte, Bool.false_eq_true] at *
    omega

/-- Filling holes puts an entry behind slots that were taken or that earlier entries
took. -/
theorem fillHoles_reaches (slots : List (Option Entry)) (before after : List Entry) (entry : Entry)
    (fits : before.length < holes slots) :
    ∃ (passed : List Entry) (rest : List (Option Entry)),
      fillHoles slots (before ++ entry :: after) = passed.map some ++ some entry :: rest ∧
        ∀ other ∈ passed, some other ∈ slots ∨ other ∈ before := by
  induction slots generalizing before with
  | nil => simp [holes] at fits
  | cons slot slots ih =>
    cases slot with
    | none =>
      cases before with
      | nil => exact ⟨[], fillHoles slots after, rfl, by simp⟩
      | cons first before =>
        obtain ⟨passed, rest, filled, passedFrom⟩ := ih before (by simpa [holes] using fits)
        refine ⟨first :: passed, rest, ?_, ?_⟩
        · rw [cons_append, fillHoles, filled, map_cons, cons_append]
        · intro other mem
          rcases mem_cons.mp mem with here | later
          · exact Or.inr (by simp [here])
          · rcases passedFrom other later with kept | earlier
            · exact Or.inl (by simp [kept])
            · exact Or.inr (by simp [earlier])
    | some kept =>
      obtain ⟨passed, rest, filled, passedFrom⟩ := ih before (by simpa [holes] using fits)
      refine ⟨kept :: passed, rest, ?_, ?_⟩
      · have skipped : fillHoles (some kept :: slots) (before ++ entry :: after) =
              some kept :: fillHoles slots (before ++ entry :: after) := by
          cases before <;> rfl
        rw [skipped, filled, map_cons, cons_append]
      · intro other mem
        rcases mem_cons.mp mem with here | later
        · exact Or.inl (by simp [here])
        · rcases passedFrom other later with old | earlier
          · exact Or.inl (by simp [old])
          · exact Or.inr earlier

end Passes

section Probes

variable {judge : Entry → Judgement}

theorem probe_passes (passed : List Entry) (slots : List (Option Entry))
    (allPass : ∀ entry ∈ passed, judge entry = .pass) :
    probe judge (passed.map some ++ slots) = probe judge slots := by
  induction passed with
  | nil => rfl
  | cons entry passed ih =>
    have entryPasses : judge entry = .pass := allPass entry (by simp)
    rw [map_cons, cons_append, probe, entryPasses]
    exact ih fun other mem => allPass other (by simp [mem])

/-- With a free slot and no hit the probe ends. -/
theorem probe_stops {slots : List (Option Entry)} (free : none ∈ slots)
    (noHit : ∀ entry, some entry ∈ slots → judge entry ≠ .hit) :
    probe judge slots = some none := by
  induction slots with
  | nil => simp at free
  | cons slot slots ih =>
    cases slot with
    | none => rfl
    | some entry =>
      rw [probe]
      cases judged : judge entry with
      | hit => exact absurd judged (noHit entry (by simp))
      | stop => rfl
      | pass =>
        refine ih (by simpa using free) ?_
        intro other mem
        exact noHit other (by simp [mem])

/-- A probe does not look at more of an entry than its judge does. -/
theorem probe_map {Slot : Type*} (written : Entry → Slot) (judgeSlot : Slot → Judgement)
    (slots : List (Option Entry)) :
    probe judgeSlot (slots.map (Option.map written)) =
      (probe (fun entry => judgeSlot (written entry)) slots).map (Option.map written) := by
  induction slots with
  | nil => rfl
  | cons slot slots ih =>
    cases slot with
    | none => rfl
    | some entry =>
      rw [map_cons, Option.map_some, probe, probe]
      cases judgeSlot (written entry) with
      | hit => rfl
      | stop => rfl
      | pass => exact ih

theorem around_map {Slot : Type*} (written : Entry → Slot) (slots : List (Option Entry))
    (start : Nat) :
    around (slots.map (Option.map written)) start =
      (around slots start).map (Option.map written) := by
  rw [around, around, map_append, map_drop, map_take]

end Probes

section Tables

variable {home} {size start : Nat} {entries : List Entry}

theorem table_length : (table home size entries).length = size := by
  rw [table, fillHoles_length, place_length]

theorem mem_table {entry : Entry} (mem : some entry ∈ table home size entries) :
    entry ∈ entries := by
  have inOrder : (place home 0 size entries).1.reduceOption ++
      (place home 0 size entries).2 = entries := place_append
  rw [← inOrder]
  rcases mem_fillHoles mem with placed | left
  · exact mem_append_left _ (reduceOption_mem_iff.mpr placed)
  · exact mem_append_right _ left

/-- A table larger than its entries has a free slot. -/
theorem none_mem_table (room : entries.length < size) : none ∈ table home size entries := by
  have placedHoles : holes (place home 0 size entries).1 + entries.length =
        size + (place home 0 size entries).2.length := holes_place
  have filledHoles : holes (place home 0 size entries).1 ≤
        holes (table home size entries) + (place home 0 size entries).2.length :=
    holes_fillHoles _
  have someHole : 0 < holes (table home size entries) := by omega
  obtain ⟨slot, mem, free⟩ := countP_pos_iff.mp someHole
  rwa [Option.isNone_iff_eq_none.mp free] at mem

/-- The entries the first slots do not take still hold an entry whose home comes
later. -/
theorem place_leaves {before after : List Entry} {entry : Entry}
    (startsAtHome : home entry = start) :
    ∃ pending, before = (place home 0 start (before ++ entry :: after)).1.reduceOption ++ pending ∧
        (place home 0 start (before ++ entry :: after)).2 = pending ++ entry :: after := by
  have inOrder : (place home 0 start (before ++ entry :: after)).1.reduceOption ++
          (place home 0 start (before ++ entry :: after)).2 =
        before ++ entry :: after := place_append
  rcases append_eq_append_iff.mp inOrder with
      ⟨pending, beforeSplit, leftSplit⟩ | ⟨extra, placedSplit, leftSplit⟩
  · exact ⟨pending, beforeSplit, leftSplit⟩
  · cases extra with
    | nil =>
      refine ⟨[], ?_, ?_⟩
      · simpa using placedSplit.symm
      · simpa using leftSplit.symm
    | cons first extra =>
      have firstIsEntry : entry = first := (List.cons.inj leftSplit).1
      have placed : some entry ∈ (place home 0 start (before ++ entry :: after)).1 := by
        rw [← reduceOption_mem_iff, placedSplit, firstIsEntry]
        simp
      have early := home_lt_of_mem_place placed
      omega

theorem mem_around {slots : List (Option Entry)} {slot : Option Entry} :
    slot ∈ around slots start ↔ slot ∈ slots := by
  have wayAround : (around slots start).Perm slots := by
    have swapped : (around slots start).Perm (slots.take start ++ slots.drop start) :=
      perm_append_comm
    rwa [take_append_drop] at swapped
  exact wayAround.mem_iff

/-- The slots from a home on come first on the way around, then those below it. -/
theorem around_table (upper : Nat) : around (table home (start + upper) entries) start = fillHoles
          (place home start upper (place home 0 start entries).2).1
          ((place home start upper (place home 0 start entries).2).2.drop
            (holes (place home 0 start entries).1)) ++
        fillHoles (place home 0 start entries).1
          (place home start upper (place home 0 start entries).2).2 := by
  have lowerLength : ∀ left, (fillHoles (place home 0 start entries).1 left).length = start := by
    intro left
    rw [fillHoles_length, place_length]
  rw [around, table, place_add, Nat.zero_add]
  dsimp only
  rw [fillHoles_append, drop_left' (lowerLength _), take_left' (lowerLength _)]

/-- A probe from the home of an entry meets it behind entries that come before it in the
order of the table, or whose home lies before its own. -/
theorem around_table_reaches {before after : List Entry} {entry : Entry}
    (sorted : (before ++ entry :: after).Pairwise (home · ≤ home ·))
    (room : (before ++ entry :: after).length < size) (startsAtHome : home entry = start)
    (inside : start < size) :
    ∃ (passed : List Entry) (rest : List (Option Entry)),
      around (table home size (before ++ entry :: after)) start =
          passed.map some ++ some entry :: rest ∧
        ∀ other ∈ passed, home other < start ∨ other ∈ before ∧ home other ≤ start := by
  obtain ⟨upper, rfl⟩ : ∃ upper, size = start + upper := ⟨size - start, by omega⟩
  have leaves : ∃ pending, before =
          (place home 0 start (before ++ entry :: after)).1.reduceOption ++ pending ∧
        (place home 0 start (before ++ entry :: after)).2 = pending ++ entry :: after :=
    place_leaves startsAtHome
  obtain ⟨pending, beforeSplit, waiting⟩ := leaves
  have pendingBefore : ∀ other ∈ pending, other ∈ before ∧ home other ≤ start := by
    intro other mem
    have inBefore : other ∈ before := by
      rw [beforeSplit]
      exact mem_append_right _ mem
    have ordered := (pairwise_append.mp sorted).2.2 other inBefore entry (by simp)
    exact ⟨inBefore, startsAtHome ▸ ordered⟩
  have readyHome : ∀ other ∈ pending ++ [entry], home other ≤ start := by
    intro other mem
    rcases mem_append.mp mem with early | last
    · exact (pendingBefore other early).2
    · rw [mem_singleton.mp last]
      exact Nat.le_of_eq startsAtHome
  have upperPlaced : place home start upper ((pending ++ [entry]) ++ after) = _ :=
    place_ready (pending ++ [entry]) after readyHome
  rw [append_assoc, singleton_append] at upperPlaced
  rw [around_table, waiting, upperPlaced]
  by_cases fitsAbove : pending.length < upper
  · have allTaken : (pending ++ [entry]).take upper = pending ++ [entry] :=
      take_of_length_le (by simp; omega)
    rw [allTaken, fillHoles_taken_append, map_append, append_assoc,
      append_assoc, map_singleton, singleton_append]
    exact ⟨pending, _, rfl, fun other mem => Or.inr (pendingBefore other mem)⟩
  · have counted : holes (place home 0 start (before ++ entry :: after)).1 +
            (before ++ entry :: after).length =
          start + (place home 0 start (before ++ entry :: after)).2.length := holes_place
    rw [waiting] at counted
    have wrappedFits : (pending.drop upper).length <
          holes (place home 0 start (before ++ entry :: after)).1 := by
      simp only [length_append, length_cons, length_drop] at *
      omega
    obtain ⟨passed, rest, filled, passedFrom⟩ :=
      fillHoles_reaches _ (pending.drop upper) after entry wrappedFits
    have noneLeft : upper - (pending ++ [entry]).length = 0 := by
      simp
      omega
    rw [noneLeft, place_size_zero, append_nil, take_append_of_le_length (by omega),
      drop_append_of_le_length (by omega), append_assoc, singleton_append,
      filled]
    refine ⟨pending.take upper ++ passed, rest, ?_, ?_⟩
    · rw [fillHoles_taken, map_append, append_assoc]
    · intro other mem
      rcases mem_append.mp mem with above | wrapped
      · exact Or.inr (pendingBefore other (mem_of_mem_take above))
      · rcases passedFrom other wrapped with lower | earlier
        · have early := home_lt_of_mem_place lower
          exact Or.inl (by omega)
        · exact Or.inr (pendingBefore other (mem_of_mem_drop earlier))

/-- A probe of the table is a search of its entries in order: it meets the first entry
that is a hit, ends when there is none, and never runs out of slots. -/
theorem probe_table {judge : Entry → Judgement} (sorted : entries.Pairwise (home · ≤ home ·))
    (room : entries.length < size) (inside : start < size)
    (hitsAtHome : ∀ entry ∈ entries, judge entry = .hit → home entry = start)
    (stopsPastHome : ∀ entry ∈ entries, judge entry = .stop → start < home entry) :
    probe judge (around (table home size entries) start) =
      some (entries.find? (judge · = .hit)) := by
  cases found : entries.find? (judge · = .hit) with
  | none =>
    apply probe_stops
    · exact mem_around.mpr (none_mem_table room)
    · intro entry mem hit
      have noHit := List.find?_eq_none.mp found entry (mem_table (mem_around.mp mem))
      simp [hit] at noHit
  | some entry =>
    obtain ⟨hit, before, after, split, earlier⟩ := find?_eq_some_iff_append.mp found
    have entryHit : judge entry = .hit := by simpa using hit
    subst split
    obtain ⟨passed, rest, walked, passedFrom⟩ :=
      around_table_reaches sorted room (hitsAtHome entry (by simp) entryHit) inside
    rw [walked, probe_passes, probe, entryHit]
    intro other mem
    have otherIn : other ∈ before ++ entry :: after := by
      have onTheWay : some other ∈ around (table home size (before ++ entry :: after)) start := by
        rw [walked]
        exact mem_append_left _ (mem_map_of_mem mem)
      exact mem_table (mem_around.mp onTheWay)
    cases judged : judge other with
    | pass => rfl
    | stop =>
      have past := stopsPastHome other otherIn judged
      rcases passedFrom other mem with lower | ⟨_, bound⟩ <;> omega
    | hit =>
      have atHome := hitsAtHome other otherIn judged
      rcases passedFrom other mem with lower | ⟨inBefore, _⟩
      · omega
      · have notHit := earlier other inBefore
        simp [judged] at notHit

end Tables

end TwoPassTable
