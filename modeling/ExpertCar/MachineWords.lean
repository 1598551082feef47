import Mathlib.Data.BitVec

/-!
# Bytes and words

The unsigned integers of the source: `uint8_t`, and the 32-bit words of the registers
and of the kernel.
-/
namespace ExpertCar

abbrev Byte := BitVec 8

abbrev Word := BitVec 32

theorem byte_succ {b : Byte} (h : b.toNat < 255) : (b + 1).toNat = b.toNat + 1 := by
  rw [BitVec.toNat_add]
  exact Nat.mod_eq_of_lt (show b.toNat + 1 < 256 by omega)

end ExpertCar
