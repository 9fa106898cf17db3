import Orly.Stripes

/-!
# Runs of addresses under striping

The addresses come in spans of one size, of which only the first so many are counted.  A
run of counted addresses is one piece of a column when it lies in one unit.  Here are the
conditions under which every run of a cut of all counted addresses is one.
-/

namespace Stripes

/-- The address of a counted index. -/
def spread (counted span index : Nat) : Nat :=
  index / counted * span + index % counted

/-- The places of a run of indices are the piece of the column of its first address. -/
def RunExact (unit columns counted span start count : Nat) : Prop :=
  ∀ column row,
    ((place unit columns start).1 = column ∧ (place unit columns start).2 ≤ row ∧
        row < (place unit columns start).2 + count) ↔
      ∃ index, start ≤ index ∧ index < start + count ∧
        place unit columns (spread counted span index) = (column, row)

variable {unit columns counted span start count : Nat}

@[simp] theorem spread_self (size index : Nat) : spread size size index = index := by
  rw [spread, Nat.div_add_mod']

theorem spread_of_lt {index : Nat} (inside : index < counted) :
    spread counted span index = index := by
  rw [spread, Nat.div_eq_of_lt inside, Nat.mod_eq_of_lt inside, Nat.zero_mul, Nat.zero_add]

theorem spread_injective (countedPos : 0 < counted) (enough : counted ≤ span) {first second : Nat}
    (same : spread counted span first = spread counted span second) :
    first = second := by
  have firstBelow := Nat.mod_lt first countedPos
  have secondBelow := Nat.mod_lt second countedPos
  obtain ⟨sameSpan, sameOffset⟩ := unit_unique same (by omega) (by omega)
  rw [← Nat.div_add_mod first counted, sameSpan, sameOffset, Nat.div_add_mod]

/-- Indices past the first span have addresses past it. -/
theorem le_spread {index : Nat} (countedPos : 0 < counted) (past : counted ≤ index) :
    span ≤ spread counted span index := by
  have later : 1 ≤ index / counted := Nat.div_pos past countedPos
  calc
    span = 1 * span := (Nat.one_mul _).symm
    _ ≤ index / counted * span := Nat.mul_le_mul_right _ later
    _ ≤ index / counted * span + index % counted := Nat.le_add_right _ _

theorem lt_spread {index : Nat} (countedPos : 0 < counted) (smaller : counted < span)
    (past : counted ≤ index) :
    index < spread counted span index := by
  have later : 1 ≤ index / counted := Nat.div_pos past countedPos
  calc
    index = index / counted * counted + index % counted := (Nat.div_add_mod' _ _).symm
    _ < index / counted * span + index % counted :=
        Nat.add_lt_add_right (Nat.mul_lt_mul_of_pos_left smaller later) _

/-- A run of consecutive addresses in one unit, or over one column, is exact. -/
theorem runExact_of_within
    (consecutive : ∀ offset < count, spread counted span (start + offset) = start + offset)
    (within : columns = 1 ∨ start % unit + count ≤ unit) :
    RunExact unit columns counted span start count := by
  have shifted : ∀ column row,
      (∃ index, start ≤ index ∧ index < start + count ∧
          place unit columns (spread counted span index) = (column, row)) ↔
        ∃ offset < count, place unit columns (start + offset) = (column, row) := by
    intro column row
    constructor
    · rintro ⟨index, above, below, placed⟩
      have split : start + (index - start) = index := by omega
      rw [← split, consecutive _ (by omega)] at placed
      exact ⟨index - start, by omega, placed⟩
    · rintro ⟨offset, inside, placed⟩
      exact ⟨start + offset, by omega, by omega, by rwa [consecutive _ inside]⟩
  intro column row
  rw [shifted]
  rcases within with rfl | within
  · simp only [place_one, Prod.mk.injEq]
    constructor
    · rintro ⟨sameColumn, above, below⟩
      exact ⟨row - start, by omega, sameColumn, by omega⟩
    · rintro ⟨offset, inside, sameColumn, placed⟩
      exact ⟨sameColumn, by omega, by omega⟩
  · exact place_run within

/-- A run over the end of a unit has places in two columns. -/
theorem not_runExact_of_crossing
    (unitPos : 0 < unit) (severalColumns : 2 ≤ columns) (before : start < unit)
    (after : unit < start + count) :
    ¬ RunExact unit columns span span start count := by
  intro runExact
  have secondUnit : place unit columns unit = (1, 0) := by
    simp only [place, Nat.div_self unitPos, Nat.mod_self, Nat.mod_eq_of_lt severalColumns,
      Nat.div_eq_of_lt severalColumns, Nat.zero_mul, Nat.add_zero]
  have firstColumn := ((runExact 1 0).mpr
    ⟨unit, before.le, after, by rw [spread_self, secondUnit]⟩).1
  simp [place, Nat.div_eq_of_lt before] at firstColumn

/-- A run that starts past the first span misses its own start. -/
theorem not_runExact_of_past (unitPos : 0 < unit) (countPos : 0 < count) (countedPos : 0 < counted)
    (smaller : counted < span) (past : counted ≤ start) :
    ¬ RunExact unit columns counted span start count := by
  intro runExact
  obtain ⟨index, above, _, placed⟩ := (runExact _ _).mp ⟨rfl, Nat.le_refl _, by omega⟩
  have same := place_injective unitPos placed
  have beyond : index < spread counted span index := lt_spread countedPos smaller (by omega)
  omega

/-- A run in one unit that reaches past the counted part of a span misses its own end. -/
theorem not_runExact_of_overhang
    (unitPos : 0 < unit) (countedPos : 0 < counted) (within : start % unit + count ≤ unit)
    (inside : start + count ≤ span) (before : start < counted) (past : counted < start + count) :
    ¬ RunExact unit columns counted span start count := by
  intro runExact
  have last : place unit columns (start + (count - 1)) =
      ((place unit columns start).1, (place unit columns start).2 + (count - 1)) :=
    place_add (by omega)
  obtain ⟨index, _, below, placed⟩ := (runExact _ _).mp
    ⟨rfl, Nat.le_add_right _ (count - 1), by omega⟩
  rw [← last] at placed
  have same := place_injective unitPos placed
  rcases Nat.lt_or_ge index counted with early | late
  · rw [spread_of_lt early] at same
    omega
  · have beyond : span ≤ spread counted span index := le_spread countedPos late
    omega

/-- When every address is counted, the runs are exact on one column and for a length that
divides the unit. -/
theorem runs_exact_whole_iff
    (unitPos : 0 < unit) (countPos : 0 < count) (fits : count ≤ unit) (units : unit ∣ span)
    (someRun : count ≤ columns * span) :
    (∀ index, count * (index + 1) ≤ columns * span →
        RunExact unit columns span span (count * index) count) ↔
      columns = 1 ∨ count ∣ unit := by
  constructor
  · intro allExact
    by_contra neither
    push Not at neither
    obtain ⟨notOne, notDivides⟩ := neither
    have positive : 0 < columns * span := by omega
    have severalColumns : 2 ≤ columns := by
      have := Nat.pos_of_mul_pos_right positive
      omega
    have unitLe : unit ≤ span := Nat.le_of_dvd (Nat.pos_of_mul_pos_left positive) units
    have upTo := Nat.mul_div_le unit count
    have notAt : count * (unit / count) ≠ unit := fun same => notDivides ⟨_, same.symm⟩
    have next := Nat.lt_mul_div_succ unit countPos
    have inside : count * (unit / count + 1) ≤ columns * span := by
      calc
        count * (unit / count + 1) = count * (unit / count) + count := by ring
        _ ≤ 2 * unit := by omega
        _ ≤ columns * span := Nat.mul_le_mul severalColumns unitLe
    exact not_runExact_of_crossing unitPos severalColumns (by omega)
      (by rwa [← Nat.mul_succ]) (allExact _ inside)
  · intro oneOrDivides index _
    refine runExact_of_within (fun offset _ => spread_self _ _) ?_
    refine oneOrDivides.imp_right ?_
    rintro ⟨parts, rfl⟩
    rw [Nat.mul_mod_mul_left, ← Nat.mul_succ]
    have partsPos : 0 < parts := Nat.pos_of_mul_pos_left unitPos
    exact Nat.mul_le_mul_left _ (Nat.mod_lt _ partsPos)

/-- Two units of each span of two columns, the first one counted: every index is stored on
the first column. -/
theorem place_spread_twoUnits {index : Nat} (inside : index < 2 * unit) :
    place unit 2 (spread unit (2 * unit) index) = (0, index) := by
  have unitPos : 0 < unit := by omega
  rcases Nat.lt_or_ge index unit with early | late
  · rw [spread_of_lt early]
    simp [place, Nat.div_eq_of_lt early, Nat.mod_eq_of_lt early]
  · have quotient : index / unit = 1 := by
      rw [Nat.div_eq_iff unitPos]
      omega
    have remainder : index % unit = index - unit := by
      rw [Nat.mod_eq_sub_mod late, Nat.mod_eq_of_lt (by omega)]
    have address : spread unit (2 * unit) index = unit * 2 + (index - unit) := by
      rw [spread, quotient, remainder]
      ring
    have addressQuotient : (unit * 2 + (index - unit)) / unit = 2 := by
      rw [Nat.mul_add_div unitPos, Nat.div_eq_of_lt (by omega)]
    have addressRemainder : (unit * 2 + (index - unit)) % unit = index - unit := by
      rw [Nat.mul_add_mod, Nat.mod_eq_of_lt (by omega)]
    simp only [place, address, addressQuotient, addressRemainder]
    exact Prod.ext rfl (by omega)

/-- When at most half of the addresses are counted, the runs are exact only for two
columns of two units and a length between two thirds of a unit and a unit. -/
theorem runs_exact_partial_iff
    (unitPos : 0 < unit) (countPos : 0 < count) (fits : count ≤ unit) (units : unit ∣ span)
    (half : 2 * counted ≤ span) (severalColumns : 2 ≤ columns)
    (twoColumns : columns = 2 → 2 * counted = span) (someRun : count ≤ columns * counted) :
    (∀ index, count * (index + 1) ≤ columns * counted →
        RunExact unit columns counted span (count * index) count) ↔
      columns = 2 ∧ span = 2 * unit ∧ count < unit ∧ 2 * unit < 3 * count := by
  have countedPos : 0 < counted := Nat.pos_of_mul_pos_left (by omega : 0 < columns * counted)
  obtain ⟨parts, spanEq⟩ := units
  have partsPos : 0 < parts := by
    refine Nat.pos_of_ne_zero ?_
    rintro rfl
    omega
  have unitLe : unit ≤ span := by
    rw [spanEq]
    exact Nat.le_mul_of_pos_right _ partsPos
  constructor
  · intro allExact
    have noneLater : ∀ index, counted ≤ count * index →
        columns * counted < count * (index + 1) := by
      intro index past
      by_contra inside
      exact not_runExact_of_past unitPos countPos countedPos (by omega) past
        (allExact index (by omega))
    have countLe : count ≤ counted := by
      by_contra longer
      have first : RunExact unit columns counted span 0 count := allExact 0 (by omega)
      exact not_runExact_of_overhang unitPos countedPos (by rw [Nat.zero_mod]; omega)
        (by omega) countedPos (by omega) first
    have twice : 2 * counted ≤ columns * counted := Nat.mul_le_mul_right _ severalColumns
    have few : columns * counted < counted + 2 * count := by
      have upTo := Nat.lt_mul_div_succ (counted - 1) countPos
      have atMost := Nat.mul_div_le (counted - 1) count
      have bound := noneLater ((counted - 1) / count + 1) (by omega)
      rw [Nat.mul_succ, Nat.mul_succ] at bound
      omega
    have isTwo : columns = 2 := by
      have below : columns * counted < 3 * counted := by omega
      have := Nat.lt_of_mul_lt_mul_right below
      omega
    have spanTwice := twoColumns isTwo
    rw [isTwo] at noneLater allExact few
    have longer : count < counted := by
      by_contra same
      have := noneLater 1 (by omega)
      omega
    have thirds : 2 * counted < 3 * count := by
      have := noneLater 2 (by omega)
      omega
    have twoParts : parts = 2 := by
      have fewParts : unit * parts < unit * 3 := by omega
      have := Nat.lt_of_mul_lt_mul_left fewParts
      by_contra notTwo
      obtain rfl : parts = 1 := by omega
      have second : RunExact unit 2 counted span count count := by
        simpa using allExact 1 (by omega)
      have atUnit : count % unit = count := Nat.mod_eq_of_lt (by omega)
      exact not_runExact_of_overhang unitPos countedPos (by rw [atUnit]; omega)
        (by omega) longer (by omega) second
    rw [twoParts] at spanEq
    exact ⟨isTwo, by omega, by omega, by omega⟩
  · rintro ⟨rfl, rfl, shorter, thirds⟩ index inside
    obtain rfl : counted = unit := by
      have := twoColumns rfl
      omega
    have atMostTwo : index < 2 := by
      by_contra more
      have := Nat.mul_le_mul_left count (by omega : 3 ≤ index + 1)
      omega
    have start : count * index < counted := by
      have := Nat.mul_le_mul_left count (by omega : index ≤ 1)
      omega
    intro column row
    have startPlace : place counted 2 (count * index) = (0, count * index) := by
      simp [place, Nat.div_eq_of_lt start, Nat.mod_eq_of_lt start]
    rw [Nat.mul_succ] at inside
    rw [startPlace]
    constructor
    · rintro ⟨sameColumn, above, below⟩
      refine ⟨row, above, below, ?_⟩
      rw [place_spread_twoUnits (by omega)]
      exact Prod.ext sameColumn rfl
    · rintro ⟨index, above, below, placed⟩
      rw [place_spread_twoUnits (by omega), Prod.mk.injEq] at placed
      exact ⟨placed.1, by omega, by omega⟩

end Stripes
