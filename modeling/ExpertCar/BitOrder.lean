import Mathlib.Data.List.Basic
import Mathlib.Data.List.Range
import Mathlib.Tactic.IntervalCases

/-!
# Words on a serial wire

A word is sent as the list of its bits in one of the two orders. A receiver
collects it either by setting bit `k` under a walking mask, least significant
bit first, or by shifting each new bit in from below, most significant bit
first. Both receivers rebuild the word that was sent. `packBytes` cuts a stream
sent least significant bit first back into bytes and drops a partial tail.
-/
namespace BitOrder
variable {w : ℕ}

def lsbFirst (x : BitVec w) : List Bool := (List.range w).map x.getLsbD

def msbFirst (x : BitVec w) : List Bool := (List.range w).map x.getMsbD

@[simp] theorem msbFirst_length (x : BitVec w) : (msbFirst x).length = w := by simp [msbFirst]

/-- `if (b) x = (1 << k) | x;` -/
def orBit (x : BitVec w) (k : ℕ) (b : Bool) : BitVec w := if b then (1#w <<< k) ||| x else x

theorem getLsbD_orBit (x : BitVec w) (k i : ℕ) (b : Bool) (hi : i < w) :
    (orBit x k b).getLsbD i = (x.getLsbD i || (b && decide (i = k))) := by
  cases b with
  | false => simp [orBit]
  | true =>
      simp only [orBit, if_true, BitVec.getLsbD_or, BitVec.getLsbD_shiftLeft, BitVec.getLsbD_one]
      by_cases hk : i = k
      · subst hk
        simp [hi]
        omega
      · by_cases hlt : i < k
        · simp [hlt, hk]
        · have : ¬ (i - k = 0) := by omega
          simp [hk, this]

/-- A walking mask over the first `k` positions sets exactly the bits presented. -/
theorem getLsbD_foldl_orBit (bits : ℕ → Bool) (x : BitVec w) (k i : ℕ) (hi : i < w) :
    ((List.range k).foldl (fun x j => orBit x j (bits j)) x).getLsbD i =
      (x.getLsbD i || (decide (i < k) && bits i)) := by
  induction k with
  | zero => simp
  | succ k ih =>
      rw [List.range_succ, List.foldl_append, List.foldl_cons, List.foldl_nil,
        getLsbD_orBit _ _ _ _ hi, ih]
      by_cases h : i = k
      · subst h
        simp
      · have : (i < k + 1) ↔ (i < k) := by omega
        simp [h, this]

theorem foldl_orBit_getLsbD (y : BitVec w) :
    (List.range w).foldl (fun x j => orBit x j (y.getLsbD j)) 0#w = y := by
  apply BitVec.eq_of_getLsbD_eq
  intro i hi
  rw [getLsbD_foldl_orBit _ _ _ _ hi]
  simp [hi]

/-- `x = x << 1; x |= b;` -/
def shiftIn (x : BitVec w) (b : Bool) : BitVec w := (x <<< 1) ||| (BitVec.ofBool b).setWidth w

theorem getLsbD_shiftIn (x : BitVec w) (b : Bool) (i : ℕ) (hi : i < w) :
    (shiftIn x b).getLsbD i = if i = 0 then b else x.getLsbD (i - 1) := by
  simp only [shiftIn, BitVec.getLsbD_or, BitVec.getLsbD_shiftLeft, BitVec.getLsbD_setWidth,
    BitVec.getLsbD_ofBool]
  by_cases h : i = 0
  · subst h
    simp [hi]
  · have : ¬ i < 1 := by omega
    simp [h, this, hi]

/-- After `k` bits of `y` the low `k` bits of the register are the top `k` of `y`. -/
theorem getLsbD_foldl_shiftIn (y : BitVec w) (k i : ℕ) (hk : k ≤ w) (hi : i < k) :
    (((List.range k).map y.getMsbD).foldl shiftIn 0#w).getLsbD i = y.getMsbD (k - 1 - i) := by
  induction k generalizing i with
  | zero => omega
  | succ k ih =>
      rw [List.range_succ, List.map_append, List.foldl_append, List.map_singleton,
        List.foldl_cons, List.foldl_nil, getLsbD_shiftIn _ _ _ (by omega)]
      by_cases h : i = 0
      · subst h
        simp
      · rw [if_neg h, ih (i - 1) (by omega) (by omega)]
        congr 1
        omega

/-- Shifting in the bits of a word, most significant first, rebuilds the word. -/
theorem foldl_shiftIn_msbFirst (y : BitVec w) : (msbFirst y).foldl shiftIn 0#w = y := by
  apply BitVec.eq_of_getLsbD_eq
  intro i hi
  rw [msbFirst, getLsbD_foldl_shiftIn y w i le_rfl hi, BitVec.getMsbD_eq_getLsbD]
  have h : w - 1 - (w - 1 - i) = i := by omega
  rw [h]
  simp
  omega

/-- Complete bytes of a stream sent least significant bit first. -/
def packBytes : List Bool → List (BitVec 8)
  | b0 :: b1 :: b2 :: b3 :: b4 :: b5 :: b6 :: b7 :: rest =>
      BitVec.ofBoolListLE [b0, b1, b2, b3, b4, b5, b6, b7] :: packBytes rest
  | _ => []

theorem packBytes_lsbFirst (x : BitVec 8) (rest : List Bool) :
    packBytes (lsbFirst x ++ rest) = x :: packBytes rest := by
  have hx : lsbFirst x = [x.getLsbD 0, x.getLsbD 1, x.getLsbD 2, x.getLsbD 3,
      x.getLsbD 4, x.getLsbD 5, x.getLsbD 6, x.getLsbD 7] := rfl
  simp only [hx, List.cons_append, List.nil_append, packBytes]
  congr 1
  apply BitVec.eq_of_getLsbD_eq
  intro i hi
  rw [BitVec.getLsbD_ofBoolListLE]
  have h8 : i < 8 := hi
  interval_cases i <;> rfl

theorem packBytes_flatMap (xs : List (BitVec 8)) : packBytes (xs.flatMap lsbFirst) = xs := by
  induction xs with
  | nil => rfl
  | cons x xs ih => rw [List.flatMap_cons, packBytes_lsbFirst, ih]

end BitOrder
