import Orly.LittleEndian

/-!
# Readers of byte strings

A reader takes its value off the front of a byte string, or fails.  `Reads` says that
a reader takes exactly one encoding, whatever follows it; its rules put the encoding
of a whole structure together from the encodings of its parts.
-/

namespace ByteReader

open LittleEndian List

/-- A computation on the bytes that are left, which may find them cut short. -/
abbrev Reader (α : Type) := StateT (List UInt8) Option α

/-- Take `count` bytes. -/
def bytes (count : Nat) : Reader (List UInt8) := fun left =>
  if left.length < count then none else some (left.take count, left.drop count)

/-- Take a little-endian number of `width` bytes. -/
def number (width : Nat) : Reader Nat := do
  let taken ← bytes width
  pure (ofBytes taken)

/-- A check that takes no bytes. -/
def check {α : Type} (answer : Option α) : Reader α := fun left =>
  answer.map fun value => (value, left)

/-- Read `count` values, one after the other. -/
def times {α : Type} (reader : Reader α) : Nat → Reader (List α)
  | 0 => pure []
  | count + 1 => do
      let first ← reader
      let others ← times reader count
      pure (first :: others)

section Lengths

variable {α : Type} {values : List α}

theorem length_le_flatMap
    {encode : α → List UInt8} (nonempty : ∀ value, 0 < (encode value).length) (values : List α) :
    values.length ≤ (values.flatMap encode).length := by
  induction values with
  | nil => simp
  | cons value others ih =>
    have first := nonempty value
    rw [flatMap_cons, length_append, length_cons]
    omega

theorem length_le_of_mem_flatMap (encode : α → List UInt8) {value : α} (mem : value ∈ values) :
    (encode value).length ≤ (values.flatMap encode).length := by
  rw [flatMap_def]
  exact (sublist_flatten_of_mem (mem_map_of_mem mem)).length_le

end Lengths

/-- A reader takes these bytes, and only these, as this value. -/
def Reads {α : Type} (reader : Reader α) (encoded : List UInt8) (value : α) : Prop :=
  ∀ left, reader (encoded ++ left) = some (value, left)

section Rules

variable {α β : Type}

theorem reads_pure (value : α) : Reads (pure value) [] value := fun _ => rfl

variable {answer : Option α} {value : α} {reader : Reader α} {next : α → Reader β}
  {encoded : List UInt8} {Property : α → Prop}

theorem reads_check (found : answer = some value) : Reads (check answer) [] value := by
  intro left
  simp [check, found]

theorem Reads.bind {first second : List UInt8} {result : β} (here : Reads reader first value)
    (after : Reads (next value) second result) :
    Reads (reader >>= next) (first ++ second) result := by
  intro left
  rw [append_assoc]
  change (reader (first ++ (second ++ left))).bind _ = _
  rw [here, Option.bind_some]
  exact after left

/-- A last step that takes no bytes. -/
theorem Reads.bind_pure
    {result : β} (here : Reads reader encoded value) (after : Reads (next value) [] result) :
    Reads (reader >>= next) encoded result := by
  simpa using here.bind after

/-- A first step that takes no bytes. -/
theorem Reads.check_bind
    {result : β} (found : answer = some value) (after : Reads (next value) encoded result) :
    Reads (check answer >>= next) encoded result := by
  simpa using (reads_check found).bind after

theorem reads_bytes (encoded : List UInt8) : Reads (bytes encoded.length) encoded encoded := by
  intro left
  simp [bytes]

/-- A number is read back modulo its width. -/
theorem reads_number_mod (width value : Nat) :
    Reads (number width) (toBytes width value) (value % 256 ^ width) := by
  have taken := reads_bytes (toBytes width value)
  rw [length_toBytes] at taken
  rw [← ofBytes_toBytes]
  exact taken.bind_pure (reads_pure _)

theorem reads_number {width value : Nat} (fits : value < 256 ^ width) :
    Reads (number width) (toBytes width value) value := by
  have modulo := reads_number_mod width value
  rwa [Nat.mod_eq_of_lt fits] at modulo

theorem reads_times_map
    {reader : Reader β} {encode : α → List UInt8} {image : α → β} (values : List α)
    (reads : ∀ value ∈ values, Reads reader (encode value) (image value)) :
    Reads (times reader values.length) (values.flatMap encode) (values.map image) := by
  induction values with
  | nil => exact reads_pure []
  | cons value others ih =>
    have first := reads value mem_cons_self
    have rest := ih fun other mem =>
      reads other (mem_cons_of_mem _ mem)
    exact first.bind (rest.bind_pure (reads_pure _))

theorem reads_times {encode : α → List UInt8} (values : List α)
    (reads : ∀ value ∈ values, Reads reader (encode value) value) :
    Reads (times reader values.length) (values.flatMap encode) values := by
  have mapped : Reads _ _ (values.map id) := reads_times_map values reads
  rwa [map_id] at mapped

/-- A reader tells apart what it reads. -/
theorem Reads.eq
    {other : α} (here : Reads reader encoded value) (there : Reads reader encoded other) :
    value = other := by
  have same := (here []).symm.trans (there [])
  exact (Prod.mk.inj (Option.some.inj same)).1

theorem bind_eq_some_iff {left : List UInt8} {read : β × List UInt8} :
    (reader >>= next) left = some read ↔
      ∃ value middle, reader left = some (value, middle) ∧ next value middle = some read := by
  change (reader left).bind (fun taken => next taken.1 taken.2) = some read ↔ _
  rw [Option.bind_eq_some_iff]
  exact Prod.exists

theorem bind_apply (left : List UInt8) :
    (reader >>= next) left = (reader left).bind fun read => next read.1 read.2 :=
  rfl

theorem bind_pure_apply (result : α → β) (left : List UInt8) :
    (reader >>= fun value => pure (result value)) left =
      (reader left).map fun read => (result read.1, read.2) :=
  (Option.map_eq_bind ..).symm

theorem times_succ (count : Nat) (left : List UInt8) :
    times reader (count + 1) left = (reader left).bind fun read =>
      (times reader count read.2).map fun others => (read.1 :: others.1, others.2) := by
  rw [times, bind_apply]
  simp only [bind_pure_apply]

/-- A reader fails on every proper part of these bytes from their start. -/
def Needs (reader : Reader α) (encoded : List UInt8) : Prop :=
  ∀ count < encoded.length, reader (encoded.take count) = none

theorem needs_bytes (encoded : List UInt8) : Needs (bytes encoded.length) encoded := by
  intro count isShort
  rw [bytes, if_pos]
  rwa [length_take, Nat.min_eq_left (Nat.le_of_lt isShort)]

theorem Needs.bind
    {first second : List UInt8} (here : Needs reader first) (reads : Reads reader first value)
    (after : Needs (next value) second) :
    Needs (reader >>= next) (first ++ second) := by
  intro count isShort
  change (reader ((first ++ second).take count)).bind _ = none
  rcases Nat.lt_or_ge count first.length with inFirst | past
  · rw [take_append_of_le_length (Nat.le_of_lt inFirst), here count inFirst]
    rfl
  · obtain ⟨more, rfl⟩ := Nat.exists_eq_add_of_le past
    rw [take_length_add_append, reads, Option.bind_some]
    refine after more ?_
    rw [length_append] at isShort
    omega

theorem Needs.bind_pure (here : Needs reader encoded) (reads : Reads reader encoded value) :
    Needs (reader >>= next) encoded := by
  have none : Needs (next value) [] := fun _ isShort => absurd isShort (Nat.not_lt_zero _)
  simpa using here.bind reads none

theorem Needs.check_bind (found : answer = some value) (after : Needs (next value) encoded) :
    Needs (check answer >>= next) encoded := by
  have none : Needs (check answer) [] := fun _ isShort => absurd isShort (Nat.not_lt_zero _)
  simpa using none.bind (reads_check found) after

theorem needs_number (width value : Nat) : Needs (number width) (toBytes width value) := by
  have taken := needs_bytes (toBytes width value)
  have reads := reads_bytes (toBytes width value)
  rw [length_toBytes] at taken reads
  exact taken.bind_pure reads

/-- A reader takes these bytes as this value, and nothing from less than all of them. -/
structure Takes (reader : Reader α) (encoded : List UInt8) (value : α) : Prop where
  reads : Reads reader encoded value
  needs : Needs reader encoded

theorem takes_nil (reads : Reads reader [] value) : Takes reader [] value :=
  ⟨reads, fun _ isShort => absurd isShort (Nat.not_lt_zero _)⟩

theorem takes_bytes (encoded : List UInt8) : Takes (bytes encoded.length) encoded encoded :=
  ⟨reads_bytes encoded, needs_bytes encoded⟩

theorem takes_number {width number : Nat} (fits : number < 256 ^ width) :
    Takes (ByteReader.number width) (toBytes width number) number :=
  ⟨reads_number fits, needs_number width number⟩

theorem Takes.bind {first second : List UInt8} {result : β} (here : Takes reader first value)
    (after : Takes (next value) second result) :
    Takes (reader >>= next) (first ++ second) result :=
  ⟨here.reads.bind after.reads, here.needs.bind here.reads after.needs⟩

theorem Takes.bind_pure
    {result : β} (here : Takes reader encoded value) (after : Reads (next value) [] result) :
    Takes (reader >>= next) encoded result :=
  ⟨here.reads.bind_pure after, here.needs.bind_pure here.reads⟩

theorem Takes.check_bind
    {result : β} (found : answer = some value) (after : Takes (next value) encoded result) :
    Takes (check answer >>= next) encoded result :=
  ⟨.check_bind found after.reads, .check_bind found after.needs⟩

theorem takes_times {encode : α → List UInt8} (values : List α)
    (takes : ∀ value ∈ values, Takes reader (encode value) value) :
    Takes (times reader values.length) (values.flatMap encode) values := by
  induction values with
  | nil => exact takes_nil (reads_pure [])
  | cons value others ih =>
    have first := takes value mem_cons_self
    have rest := ih fun other mem =>
      takes other (mem_cons_of_mem _ mem)
    exact first.bind (rest.bind_pure (reads_pure _))

/-- What the first reader reads, the second reads as the same. -/
def Reader.AtMost (reader other : Reader α) : Prop :=
  ∀ left read, reader left = some read → other left = some read

theorem Reader.AtMost.refl : reader.AtMost reader := fun _ _ same => same

theorem Reader.AtMost.bind {others : α → Reader β}
    (after : ∀ value, (next value).AtMost (others value)) :
    (reader >>= next).AtMost (reader >>= others) := by
  intro left read reads
  obtain ⟨value, middle, here, rest⟩ := bind_eq_some_iff.mp reads
  exact bind_eq_some_iff.mpr ⟨value, middle, here, after value middle read rest⟩

theorem Reader.AtMost.check_bind {other : Option α} {others : α → Reader β}
    (passes : ∀ value, answer = some value → other = some value)
    (after : ∀ value, (next value).AtMost (others value)) :
    (check answer >>= next).AtMost (check other >>= others) := by
  cases answer with
  | none => exact fun _ _ reads => by contradiction
  | some value =>
    rw [passes value rfl]
    exact .bind after

/-- Read a byte string that has nothing after the value. -/
def whole (reader : Reader α) (data : List UInt8) : Option α :=
  (reader data).bind fun read => if read.2 = [] then some read.1 else none

theorem whole_eq_none_of_atMost {other : Reader α} {data : List UInt8}
    (atMost : reader.AtMost other) (refused : whole other data = none) :
    whole reader data = none := by
  cases reads : reader data with
  | none => simp [whole, reads]
  | some read =>
    rw [whole, atMost data read reads] at refused
    rwa [whole, reads]

/-- These bytes decode to this value, and no proper part from their start nor extension does. -/
structure DecodesOnly (decode : List UInt8 → Option α) (encoded : List UInt8) (value : α) :
    Prop where
  decodes : decode encoded = some value
  cut : ∀ data, data <+: encoded → data ≠ encoded → decode data = none
  extended : ∀ more ≠ [], decode (encoded ++ more) = none

theorem Takes.decodesOnly (takes : Takes reader encoded value) :
    DecodesOnly (whole reader) encoded value where
  decodes := by
    have reads := takes.reads []
    rw [append_nil] at reads
    simp [whole, reads]
  cut := by
    rintro data ⟨rest, rfl⟩ proper
    have isShort : data.length < (data ++ rest).length := by
      rw [length_append, Nat.lt_add_right_iff_pos, length_pos_iff]
      rintro rfl
      exact proper (append_nil data).symm
    have fails := takes.needs _ isShort
    rw [take_left] at fails
    simp [whole, fails]
  extended := by
    intro more nonempty
    simp [whole, takes.reads more, nonempty]

/-- Whatever a reader reads has this property. -/
def Yields (reader : Reader α) (Property : α → Prop) : Prop :=
  ∀ left value after, reader left = some (value, after) → Property value

theorem yields_pure (holds : Property value) : Yields (pure value) Property := by
  intro left found after read
  obtain ⟨rfl, _⟩ := Prod.mk.inj (Option.some.inj read)
  exact holds

theorem yields_check (holds : ∀ value, answer = some value → Property value) :
    Yields (check answer) Property := by
  intro left found after read
  obtain ⟨value, isValue, same⟩ := Option.map_eq_some_iff.mp read
  obtain ⟨rfl, _⟩ := Prod.mk.inj same
  exact holds value isValue

theorem Yields.bind {First : α → Prop} {Second : β → Prop} (first : Yields reader First)
    (second : ∀ value, First value → Yields (next value) Second) :
    Yields (reader >>= next) Second := by
  intro left found after read
  obtain ⟨⟨value, middle⟩, here, rest⟩ := Option.bind_eq_some_iff.mp read
  exact second value (first left value middle here) middle found after rest

theorem yields_any (reader : Reader α) : Yields reader fun _ => True := fun _ _ _ _ => trivial

theorem yields_bytes (count : Nat) : Yields (bytes count) fun taken => taken.length = count := by
  intro left taken after read
  rw [bytes] at read
  obtain ⟨enough, read⟩ := Option.ite_none_left_eq_some.mp read
  obtain ⟨rfl, _⟩ := Prod.mk.inj (Option.some.inj read)
  rw [length_take, Nat.min_eq_left (Nat.le_of_not_lt enough)]

theorem yields_number (width : Nat) : Yields (number width) (· < 256 ^ width) := by
  refine (yields_bytes width).bind fun taken isWidth => yields_pure ?_
  have bound := ofBytes_lt taken
  rwa [isWidth] at bound

theorem Yields.times (each : Yields reader Property) (count : Nat) :
    Yields (times reader count) fun values => ∀ value ∈ values, Property value := by
  induction count with
  | zero => exact yields_pure (by simp)
  | succ count ih =>
    refine each.bind fun first isFirst => ih.bind fun others areOthers => ?_
    refine yields_pure ?_
    intro value mem
    rcases mem_cons.mp mem with rfl | later
    · exact isFirst
    · exact areOthers value later

end Rules

end ByteReader
