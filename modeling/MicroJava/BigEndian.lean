/-!
# Big-endian numbers

Numbers of a fixed width are written with the most significant byte first.
Reading a written number gives it back modulo the capacity of the width.
-/

namespace MicroJava
namespace BigEndian

/-- How many numbers can be written in a width. -/
def capacity : (width : Nat) → Nat
  | 0 => 1
  | width + 1 => capacity width * 256

/-- The `width` low bytes of a number, most significant first. -/
def encode : (width : Nat) → Nat → List UInt8
  | 0, _ => []
  | width + 1, value => UInt8.ofNat (value / capacity width) :: encode width value

/-- The number that a list of bytes stands for. -/
def decode : List UInt8 → Nat
  | [] => 0
  | byte :: rest => byte.toNat * capacity rest.length + decode rest

@[simp] theorem length_encode (width value : Nat) : (encode width value).length = width := by
  induction width with
  | zero => rfl
  | succ width ih => simp [encode, ih]

/-- Reading what was written gives the number back, up to its width. -/
theorem decode_encode (width value : Nat) :
    decode (encode width value) = value % capacity width := by
  induction width with
  | zero => exact (Nat.mod_one value).symm
  | succ width ih =>
    simp only [encode, decode, capacity, ih, length_encode, UInt8.toNat_ofNat', Nat.reducePow]
    rw [Nat.mod_mul, Nat.mul_comm, Nat.add_comm]

theorem decode_encode_of_lt {width value : Nat} (fits : value < capacity width) :
    decode (encode width value) = value := by
  rw [decode_encode, Nat.mod_eq_of_lt fits]

end BigEndian
end MicroJava
