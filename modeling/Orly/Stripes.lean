import Mathlib

/-!
# Addresses dealt out in turn

A line of addresses is cut into units, and the units are dealt to some columns in turn.
An address has a column and a place in it; units of one column follow each other there.
-/

namespace Stripes

variable {unit columns : Nat}

/-- An address lies in one unit, at one offset. -/
theorem unit_unique {first second firstOffset secondOffset : Nat}
    (same : first * unit + firstOffset = second * unit + secondOffset)
    (firstInside : firstOffset < unit) (secondInside : secondOffset < unit) :
    first = second ∧ firstOffset = secondOffset := by
  have unitPos : 0 < unit := by omega
  have quotients := congrArg (· / unit) same
  simp only [Nat.mul_comm _ unit, Nat.mul_add_div unitPos, Nat.div_eq_of_lt firstInside,
    Nat.div_eq_of_lt secondInside, Nat.add_zero] at quotients
  exact ⟨quotients, by rw [quotients] at same; omega⟩

/-- The column of an address and its place in the column. -/
def place (unit columns address : Nat) : Nat × Nat :=
  (address / unit % columns, address / unit / columns * unit + address % unit)

/-- The address at a place of a column. -/
def address (unit columns : Nat) (spot : Nat × Nat) : Nat :=
  (spot.2 / unit * columns + spot.1) * unit + spot.2 % unit

theorem address_place (unitPos : 0 < unit) (position : Nat) :
    address unit columns (place unit columns position) = position := by
  have row : (position / unit / columns * unit + position % unit) / unit =
      position / unit / columns := by
    rw [Nat.mul_comm, Nat.mul_add_div unitPos, Nat.div_eq_of_lt (Nat.mod_lt _ unitPos),
      Nat.add_zero]
  have within : (position / unit / columns * unit + position % unit) % unit = position % unit := by
    rw [Nat.mul_comm, Nat.mul_add_mod, Nat.mod_mod]
  simp only [address, place, row, within]
  rw [Nat.mul_comm (position / unit / columns), Nat.div_add_mod, Nat.mul_comm, Nat.div_add_mod]

/-- No two addresses have the same place. -/
theorem place_injective (unitPos : 0 < unit) {first second : Nat}
    (same : place unit columns first = place unit columns second) :
    first = second := by
  have recovered := congrArg (address unit columns) same
  rwa [address_place unitPos, address_place unitPos] at recovered

/-- A line of some units for each column fills the columns evenly. -/
theorem place_lt (unitPos : 0 < unit) {units position : Nat}
    (inside : position < columns * (units * unit)) :
    (place unit columns position).1 < columns ∧ (place unit columns position).2 < units * unit := by
  have unitIndex : position / unit < columns * units := by
    rw [Nat.div_lt_iff_lt_mul unitPos, Nat.mul_assoc]
    exact inside
  have columnsPos : 0 < columns :=
    Nat.pos_of_mul_pos_right (Nat.lt_of_le_of_lt (Nat.zero_le _) unitIndex)
  have row : position / unit / columns < units :=
    (Nat.div_lt_iff_lt_mul columnsPos).mpr (by rwa [Nat.mul_comm])
  have within := Nat.mod_lt position unitPos
  refine ⟨Nat.mod_lt _ columnsPos, ?_⟩
  calc
    position / unit / columns * unit + position % unit
        < position / unit / columns * unit + unit := Nat.add_lt_add_left within _
    _ = (position / unit / columns + 1) * unit := by ring
    _ ≤ units * unit := Nat.mul_le_mul_right _ row

/-- Inside one unit places follow each other. -/
theorem place_add {position offset : Nat} (within : position % unit + offset < unit) :
    place unit columns (position + offset) =
      ((place unit columns position).1, (place unit columns position).2 + offset) := by
  have unitPos : 0 < unit := by omega
  have split : position + offset = unit * (position / unit) + (position % unit + offset) := by
    rw [← Nat.add_assoc, Nat.div_add_mod]
  have quotient : (position + offset) / unit = position / unit := by
    rw [split, Nat.mul_add_div unitPos, Nat.div_eq_of_lt within, Nat.add_zero]
  have remainder : (position + offset) % unit = position % unit + offset := by
    rw [split, Nat.mul_add_mod, Nat.mod_eq_of_lt within]
  simp only [place, quotient, remainder, Nat.add_assoc]

/-- A run inside one unit is a run of its column. -/
theorem place_run {position count column row : Nat} (within : position % unit + count ≤ unit) :
    ((place unit columns position).1 = column ∧ (place unit columns position).2 ≤ row ∧
        row < (place unit columns position).2 + count) ↔
      ∃ offset < count, place unit columns (position + offset) = (column, row) := by
  constructor
  · rintro ⟨sameColumn, above, below⟩
    refine ⟨row - (place unit columns position).2, by omega, ?_⟩
    rw [place_add (by omega), sameColumn, Nat.add_sub_cancel' above]
  · rintro ⟨offset, inside, placed⟩
    rw [place_add (by omega), Prod.mk.injEq] at placed
    exact ⟨placed.1, by omega, by omega⟩

/-- The same line measured in finer steps. -/
theorem place_mul {scale : Nat} (scalePos : 0 < scale) (position : Nat) :
    place (unit * scale) columns (position * scale) =
      ((place unit columns position).1, (place unit columns position).2 * scale) := by
  have quotient : position * scale / (unit * scale) = position / unit :=
    Nat.mul_div_mul_right _ _ scalePos
  have remainder : position * scale % (unit * scale) = position % unit * scale :=
    Nat.mul_mod_mul_right _ _ _
  simp only [place, quotient, remainder]
  refine Prod.ext rfl ?_
  dsimp only
  ring

/-- One column is the line itself. -/
theorem place_one (unit position : Nat) : place unit 1 position = (0, position) := by
  simp [place, Nat.mod_one, Nat.div_add_mod']

end Stripes
