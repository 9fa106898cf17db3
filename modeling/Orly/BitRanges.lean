import Mathlib

/-!
# Ranges of bits

A bitmap is a function from bit numbers.  Runs of bits are written bit by bit, or bit by
bit up to a word border, then word by word, then bit by bit again; what a counter of the
set bits must add or take off is the length of the run.
-/

namespace BitRanges

open List

/-- The bits with this run of them written. -/
def setRange (bits : Nat → Bool) (start count : Nat) (on : Bool) : Nat → Bool :=
  fun bit => if start ≤ bit ∧ bit < start + count then on else bits bit

/-- The number of bits set below a size. -/
def population (bits : Nat → Bool) (size : Nat) : Nat :=
  ((Finset.range size).filter fun bit => bits bit = true).card

section Ranges

variable (bits : Nat → Bool) (start first second : Nat) (on : Bool)

@[simp] theorem setRange_zero : setRange bits start 0 on = bits := by
  funext bit
  exact if_neg (by omega)

/-- Two adjoining ranges are written as one. -/
theorem setRange_append : setRange (setRange bits start first on) (start + first) second on =
      setRange bits start (first + second) on := by
  funext bit
  simp only [setRange]
  split
  · rw [if_pos (by omega)]
  · split
    · rw [if_pos (by omega)]
    · rw [if_neg (by omega)]

theorem setRange_one : setRange bits start 1 on = Function.update bits start on := by
  funext bit
  by_cases same : bit = start
  · subst same
    simp [setRange]
  · rw [Function.update_of_ne same]
    exact if_neg (by omega)

variable {bits start first on}

theorem setRange_of_mem {bit : Nat} (inside : start ≤ bit ∧ bit < start + first) :
    setRange bits start first on bit = on :=
  if_pos inside

theorem setRange_of_not_mem {bit : Nat} (outside : ¬ (start ≤ bit ∧ bit < start + first)) :
    setRange bits start first on bit = bits bit :=
  if_neg outside

end Ranges

section Populations

variable {bits : Nat → Bool} {size start count : Nat}

/-- Setting a clear range counts all of it. -/
theorem population_setRange_on (clear : ∀ bit, start ≤ bit → bit < start + count → bits bit = false)
    (inside : start + count ≤ size) :
    population (setRange bits start count true) size = population bits size + count := by
  have split : ((Finset.range size).filter fun bit => setRange bits start count true bit = true) =
        ((Finset.range size).filter fun bit => bits bit = true) ∪
          Finset.Ico start (start + count) := by
    ext bit
    rw [Finset.mem_union, Finset.mem_filter, Finset.mem_filter, Finset.mem_range, Finset.mem_Ico]
    by_cases written : start ≤ bit ∧ bit < start + count
    · rw [setRange_of_mem written]
      simp only [written, and_true, or_true, iff_true]
      omega
    · rw [setRange_of_not_mem written]
      simp only [written, or_false]
  have apart : Disjoint ((Finset.range size).filter fun bit => bits bit = true)
        (Finset.Ico start (start + count)) := by
    rw [Finset.disjoint_left]
    intro bit set written
    have bounds := Finset.mem_Ico.mp written
    have isClear := clear bit bounds.1 bounds.2
    simp [isClear] at set
  rw [population, split, Finset.card_union_of_disjoint apart, Nat.card_Ico, population]
  omega

/-- Clearing a set range uncounts all of it. -/
theorem population_setRange_off (set : ∀ bit, start ≤ bit → bit < start + count → bits bit = true)
    (inside : start + count ≤ size) :
    population (setRange bits start count false) size + count = population bits size := by
  have cleared : ∀ bit, start ≤ bit → bit < start + count →
      setRange bits start count false bit = false :=
    fun bit above below => setRange_of_mem ⟨above, below⟩
  have restored : setRange (setRange bits start count false) start count true = bits := by
    funext bit
    by_cases written : start ≤ bit ∧ bit < start + count
    · rw [setRange_of_mem written, set bit written.1 written.2]
    · rw [setRange_of_not_mem written, setRange_of_not_mem written]
  have counted := population_setRange_on cleared inside
  rw [restored] at counted
  exact counted.symm

theorem population_le (bits : Nat → Bool) (size : Nat) : population bits size ≤ size := by
  rw [population]
  exact (Finset.card_filter_le _ _).trans_eq (Finset.card_range size)

theorem population_of_all {bits : Nat → Bool} {size : Nat}
    (all : ∀ block, block < size → bits block = true) :
    population bits size = size := by
  rw [population, Finset.filter_true_of_mem, Finset.card_range]
  intro block mem
  exact all block (Finset.mem_range.mp mem)

theorem population_eq_zero_iff :
    population bits size = 0 ↔ ∀ bit, bit < size → bits bit = false := by
  simp [population, Finset.filter_eq_empty_iff]

end Populations

section Walks

variable {State : Type*} (setBit setWord : State → Nat → State)

/-- A run written bit by bit up to a word border, word by word, then bit by bit. -/
def overRange (start count : Nat) (state : State) : State :=
  let aligned := min (start + count) (64 * ((start + 63) / 64))
  let words := (start + count - aligned) / 64
  let led := (List.range' start (aligned - start)).foldl setBit state
  let filled := ((List.range words).map fun word => aligned + 64 * word).foldl setWord led
  (List.range' (aligned + 64 * words) (start + count - (aligned + 64 * words))).foldl setBit filled

variable {setBit setWord}

/-- A writer of runs: an empty run changes nothing and neighbouring runs join. -/
structure WritesRuns (write : State → Nat → Nat → State) : Prop where
  zero : ∀ state start, write state start 0 = state
  join : ∀ state start first second,
    write (write state start first) (start + first) second = write state start (first + second)

variable {write : State → Nat → Nat → State}

theorem WritesRuns.foldl_bits
    (writes : WritesRuns write) (bitwise : ∀ state bit, setBit state bit = write state bit 1)
    (state : State) (start count : Nat) :
    (List.range' start count).foldl setBit state = write state start count := by
  induction count generalizing start state with
  | zero => exact (writes.zero state start).symm
  | succ count ih =>
    rw [range'_succ, foldl_cons, ih, bitwise, writes.join, Nat.add_comm 1 count]

theorem WritesRuns.foldl_words (writes : WritesRuns write)
    (wordwise : ∀ state word, setWord state word = write state word 64) (state : State)
    (start words : Nat) :
    ((List.range words).map fun word => start + 64 * word).foldl setWord state =
      write state start (64 * words) := by
  induction words with
  | zero => exact (writes.zero state start).symm
  | succ words ih =>
    rw [range_succ, map_append, foldl_append, ih]
    simp only [map_cons, map_nil, foldl_cons, foldl_nil, wordwise]
    rw [writes.join]
    congr 1

/-- The walk by bits, words and bits writes the run. -/
theorem WritesRuns.overRange_eq
    (writes : WritesRuns write) (bitwise : ∀ state bit, setBit state bit = write state bit 1)
    (wordwise : ∀ state word, setWord state word = write state word 64) (state : State)
    (start count : Nat) :
    overRange setBit setWord start count state = write state start count := by
  simp only [overRange]
  rw [writes.foldl_bits bitwise, writes.foldl_words wordwise, writes.foldl_bits bitwise]
  set aligned := min (start + count) (64 * ((start + 63) / 64)) with alignedEq
  have above : start ≤ aligned := by omega
  have below : aligned ≤ start + count := by omega
  set words := (start + count - aligned) / 64 with wordsEq
  have wordsBelow : aligned + 64 * words ≤ start + count := by omega
  have firstPart : start + (aligned - start) = aligned := by omega
  have firstTwo : write (write state start (aligned - start)) aligned (64 * words) =
        write state start (aligned - start + 64 * words) := by
    have joined := writes.join state start (aligned - start) (64 * words)
    rwa [firstPart] at joined
  have secondPart : start + (aligned - start + 64 * words) = aligned + 64 * words := by omega
  have allThree := writes.join state start (aligned - start + 64 * words)
    (start + count - (aligned + 64 * words))
  rw [secondPart] at allThree
  rw [firstTwo, allThree]
  congr 1
  omega

end Walks

end BitRanges
