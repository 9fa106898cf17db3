import Mathlib

namespace LittleEndian

/-!
# Little-endian numbers

Fixed-width unsigned numbers as the byte strings that a packed structure holds.
-/

/-- The `width` bytes of a number, least significant byte first. -/
def toBytes : Nat → Nat → List UInt8
  | 0, _ => []
  | width + 1, value => UInt8.ofNat (value % 256) :: toBytes width (value / 256)

/-- The number a byte string stands for. -/
def ofBytes : List UInt8 → Nat
  | [] => 0
  | byte :: bytes => byte.toNat + 256 * ofBytes bytes

@[simp]
theorem length_toBytes (width value : Nat) : (toBytes width value).length = width := by
  induction width generalizing value with
  | zero => rfl
  | succ width ih =>
    rw [toBytes, List.length_cons, ih]

/-- Reading back the bytes of a number gives the number modulo its width. -/
theorem ofBytes_toBytes (width value : Nat) :
    ofBytes (toBytes width value) = value % 256 ^ width := by
  induction width generalizing value with
  | zero => simp [toBytes, ofBytes, Nat.mod_one]
  | succ width ih =>
    have lowByte : (UInt8.ofNat (value % 256)).toNat = value % 256 := by
      simp
    rw [toBytes, ofBytes, ih, lowByte, Nat.pow_succ, Nat.mul_comm (256 ^ width) 256, Nat.mod_mul]

/-- A number that fits its width is read back. -/
theorem ofBytes_toBytes_of_lt {width value : Nat} (fits : value < 256 ^ width) :
    ofBytes (toBytes width value) = value := by
  rw [ofBytes_toBytes, Nat.mod_eq_of_lt fits]

/-- Bytes stand for a number below what their count can hold. -/
theorem ofBytes_lt (bytes : List UInt8) : ofBytes bytes < 256 ^ bytes.length := by
  induction bytes with
  | nil => simp [ofBytes]
  | cons byte bytes ih =>
    have byteLt := byte.toNat_lt
    rw [ofBytes, List.length_cons, Nat.pow_succ]
    omega

end LittleEndian
