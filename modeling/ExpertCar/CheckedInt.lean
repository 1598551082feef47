import Mathlib.Data.Int.Basic
import Mathlib.Data.BitVec

/-!
# Signed words with checked overflow

Results of `int` arithmetic are mathematical integers that must fit into 32 bits;
`checked` has no value where the arithmetic would overflow. A result stored into
an unsigned 16-bit variable is reduced modulo `2 ^ 16` by `word`.
-/
namespace CheckedInt

def InRange (v : ℤ) : Prop := -2147483648 ≤ v ∧ v ≤ 2147483647

instance (v : ℤ) : Decidable (InRange v) := inferInstanceAs (Decidable (_ ∧ _))

def checked (v : ℤ) : Option ℤ := if InRange v then some v else none

theorem checked_eq {v : ℤ} (h : InRange v) : checked v = some v := if_pos h

theorem checked_of_le {v : ℤ} (hlower : -2147483648 ≤ v) (hupper : v ≤ 2147483647) :
    checked v = some v := checked_eq ⟨hlower, hupper⟩

def word (v : ℤ) : BitVec 16 := BitVec.ofInt 16 v

theorem word_toNat {v : ℤ} (h0 : 0 ≤ v) (h : v ≤ 65535) : ((word v).toNat : ℤ) = v := by
  rw [word, BitVec.toNat_ofInt]
  omega

theorem word_natCast (x : BitVec 16) : word x.toNat = x := by
  rw [word, BitVec.ofInt_natCast, BitVec.ofNat_toNat, BitVec.setWidth_eq]

/-- Reducing a sum needs its parts modulo `2 ^ 16` only. -/
theorem word_add (v w : ℤ) : word ((word v).toNat + w) = word (v + w) := by
  unfold word
  rw [BitVec.ofInt_add, BitVec.ofInt_add, BitVec.ofInt_natCast, BitVec.ofNat_toNat,
    BitVec.setWidth_eq]

theorem toNat_add_of_lt {a b : BitVec 16} (h : a.toNat + b.toNat < 65536) :
    (a + b).toNat = a.toNat + b.toNat := by
  rw [BitVec.toNat_add]
  exact Nat.mod_eq_of_lt h

theorem toNat_sub_of_le {a b : BitVec 16} (h : b.toNat ≤ a.toNat) :
    (a - b).toNat = a.toNat - b.toNat :=
  BitVec.toNat_sub_of_le (BitVec.le_def.mpr h)

theorem toNat_bounds (c : BitVec 16) : (0 : ℤ) ≤ c.toNat ∧ (c.toNat : ℤ) ≤ 65535 := by
  have := c.isLt
  omega

end CheckedInt
