import ExpertCar.CheckedInt
import ExpertCar.DecimalText
import Mathlib.Tactic.IntervalCases

/-!
# A number on the console

`print_number`, by the characters it puts. One running `size` serves all its padding
loops, and a loop that does not pad still takes from it. In the end a number comes
out in one of three layouts, at least as wide as asked for, with its sign before the
zeros and behind the blanks. `divide` knows two bases, so base 8 prints as base 16.
A call whose `int` arithmetic overflows puts no text.
-/
namespace ExpertCar.PrintNumber
open CheckedInt DecimalText

/-- The bits of `type`. -/
structure Flags where
  zeropad : Bool
  sign : Bool
  plus : Bool
  space : Bool
  left : Bool
  special : Bool
  large : Bool
  deriving DecidableEq, Repr

def Flags.none : Flags := ⟨false, false, false, false, false, false, false⟩

def smallDigits : List Char := "0123456789abcdef".toList

def largeDigits : List Char := "0123456789ABCDEF".toList

def digitTable (large : Bool) : List Char := if large then largeDigits else smallDigits

/-- The remainder, and what `divide` leaves in `*n`. -/
def divide (n : BitVec 32) (base : ℕ) : ℕ × BitVec 32 :=
  if base = 10 then (n.toNat % 10, n / 10) else (n.toNat % 16, n / 16)

theorem divide_lt {n : BitVec 32} (h : n ≠ 0) (base : ℕ) :
    (divide n base).2.toNat < n.toNat := by
  have hpos : 0 < n.toNat := Nat.pos_of_ne_zero fun hzero => h (BitVec.eq_of_toNat_eq hzero)
  unfold divide
  split_ifs
  · exact Nat.div_lt_self hpos (by decide)
  · exact Nat.div_lt_self hpos (by decide)

/-- `while (num != 0) tmp[i++] = digits[divide(&num, base)];` -/
def pushDigits (digits : List Char) (base : ℕ) (num : BitVec 32) : List Char :=
  if num = 0 then []
  else digits.getD (divide num base).1 '0' :: pushDigits digits base (divide num base).2
  termination_by num.toNat
  decreasing_by
    exact divide_lt ‹_› base

def tmpDigits (digits : List Char) (base : ℕ) (num : BitVec 32) : List Char :=
  if num = 0 then ['0'] else pushDigits digits base num

/-- `while (size-- > 0)` put `c`: the characters and the `size` it leaves. -/
def pad (c : Char) (size : ℤ) : Option (List Char × ℤ) :=
  (checked (min size 0 - 1)).map fun left => (List.replicate size.toNat c, left)

/-- The sign to show and the number whose digits follow it. -/
def takeSign (num : BitVec 32) (type : Flags) : Option (Option Char × BitVec 32) :=
  if type.sign then
    if num.toInt < 0 then (checked (-num.toInt)).map fun num => (some '-', BitVec.ofInt 32 num)
    else if type.plus then some (some '+', num)
    else if type.space then some (some ' ', num)
    else some (none, num)
  else some (none, num)

/-- Sign, zeros and digits with the padding of `size` around them. -/
def putField (size : ℤ) (type : Flags) (sign : Option Char) (body : List Char) :
    Option (List Char) := do
  let c := if type.zeropad then '0' else ' '
  let (lead, size) ← if type.zeropad || type.left then some ([], size)
    else pad ' ' (if sign.isSome && decide (size > 0) then size - 1 else size)
  let size ← if sign.isSome then checked (size - 1) else some size
  let (fill, size) ← if type.left then some ([], size) else pad c size
  let (trail, _) ← pad ' ' size
  return lead ++ sign.toList ++ fill ++ body ++ trail

/-- The part of `print_number` after the digits are in `tmp`, built without
`RT_PRINTF_SPECIAL`. -/
def putNumber (s precision : ℤ) (type : Flags) (sign : Option Char) (tmp : List Char) :
    Option (List Char) := do
  let i : ℤ := tmp.length
  let width := if i > precision then i else precision
  let size ← checked (s - width)
  let zeros := List.replicate (width - i).toNat '0'
  let number := if precision = 0 then [] else tmp.reverse
  putField size type sign (zeros ++ number)

def printNumber (num : BitVec 32) (base : ℕ) (s precision : ℤ) (type : Flags) :
    Option (List Char) := do
  let digits := digitTable type.large
  let type := if type.left then { type with zeropad := false } else type
  let (sign, num) ← takeSign num type
  putNumber s precision type sign (tmpDigits digits base num)

/-! ### The digits -/

/-- The two tables differ in their letters. -/
def shownDigit (large : Bool) (c : Char) : Char := if large then c.toUpper else c

theorem digit_shown (large : Bool) {d : ℕ} (hd : d < 16) :
    (digitTable large).getD d '0' = shownDigit large (Nat.digitChar d) := by
  cases large <;> interval_cases d <;> rfl

/-- The base that `divide` works with. -/
def radix (base : ℕ) : ℕ := if base = 10 then 10 else 16

theorem divide_eq (n : BitVec 32) (base : ℕ) :
    (divide n base).1 = n.toNat % radix base ∧ (divide n base).2.toNat = n.toNat / radix base := by
  unfold divide radix
  split_ifs <;> exact ⟨rfl, BitVec.toNat_udiv⟩

theorem radix_le (base : ℕ) : 1 < radix base ∧ radix base ≤ 16 := by
  unfold radix
  split_ifs <;> decide

/-- The digits of a number in the base that `divide` works with. -/
def digitsText (large : Bool) (base n : ℕ) : List Char :=
  (Nat.toDigits (radix base) n).map (shownDigit large)

theorem pushDigits_reverse (large : Bool) (base : ℕ) (num : BitVec 32) (h : num ≠ 0) :
    (pushDigits (digitTable large) base num).reverse =
      digitsText large base num.toNat := by
  obtain ⟨hone, hsixteen⟩ := radix_le base
  obtain ⟨hdigit, hrest⟩ := divide_eq num base
  have hchar : (digitTable large).getD (divide num base).1 '0' =
      shownDigit large (Nat.digitChar (num.toNat % radix base)) := by
    rw [hdigit]
    exact digit_shown large ((Nat.mod_lt _ (by omega)).trans_le hsixteen)
  rw [pushDigits, if_neg h, List.reverse_cons, hchar, digitsText, Nat.toDigits_eq_if hone]
  split_ifs with hlast
  · have hzero : (divide num base).2 = 0 :=
      BitVec.eq_of_toNat_eq (hrest.trans (Nat.div_eq_of_lt hlast))
    rw [hzero, pushDigits, if_pos rfl, Nat.mod_eq_of_lt hlast]
    rfl
  · have hpos : (divide num base).2 ≠ 0 := fun hzero => by
      have hvalue := congrArg BitVec.toNat hzero
      rw [hrest] at hvalue
      exact absurd hvalue (Nat.div_pos (Nat.le_of_not_lt hlast) (by omega)).ne'
    rw [pushDigits_reverse large base _ hpos, digitsText, hrest, List.map_append,
      List.map_singleton]
  termination_by num.toNat
  decreasing_by exact divide_lt h base

theorem tmpDigits_reverse (large : Bool) (base : ℕ) (num : BitVec 32) :
    (tmpDigits (digitTable large) base num).reverse =
      digitsText large base num.toNat := by
  unfold tmpDigits
  split_ifs with h
  · have hzero : (0 : BitVec 32).toNat = 0 := rfl
    rw [h, digitsText, hzero, Nat.toDigits_zero]
    cases large <;> rfl
  · exact pushDigits_reverse large base num h

/-! ### The layouts -/

/-- A number's sign and digits in a field of at least `s` places. -/
def layout (type : Flags) (s : ℕ) (sign body : List Char) : List Char :=
  let fill := s - (sign.length + body.length)
  if type.left then sign ++ body ++ List.replicate fill ' '
  else if type.zeropad then sign ++ List.replicate fill '0' ++ body
  else List.replicate fill ' ' ++ sign ++ body

theorem layout_length (type : Flags) (s : ℕ) (sign body : List Char) :
    (layout type s sign body).length = max s (sign.length + body.length) := by
  simp only [layout]
  split_ifs <;> simp only [List.length_append, List.length_replicate] <;> omega

/-- The sign that the flags ask for. -/
def shownSign (type : Flags) (num : BitVec 32) : Option Char :=
  if type.sign then
    if num.toInt < 0 then some '-'
    else if type.plus then some '+'
    else if type.space then some ' '
    else none
  else none

/-- The number whose digits are shown: without the sign flag the word as it is. -/
def magnitude (type : Flags) (num : BitVec 32) : ℕ :=
  if type.sign then num.toInt.natAbs else num.toNat

/-- Only the most negative word has no negation. -/
theorem takeSign_eq {num : BitVec 32} {type : Flags}
    (hnum : type.sign = true → num.toInt ≠ -2147483648) :
    takeSign num type = some (shownSign type num, BitVec.ofNat 32 (magnitude type num)) := by
  unfold takeSign shownSign magnitude
  by_cases hsign : type.sign = true
  · simp only [if_pos hsign]
    have hmin := hnum hsign
    have hlower := BitVec.le_toInt num
    by_cases hneg : num.toInt < 0
    · have hrange : InRange (-num.toInt) := by
        constructor <;> omega
      have habs : (-num.toInt) = (num.toInt.natAbs : ℤ) := by omega
      simp only [if_pos hneg, checked_eq hrange, Option.map_some]
      rw [habs, BitVec.ofInt_natCast]
    · have habs : num.toInt.natAbs = num.toNat := by
        rw [BitVec.toInt_eq_toNat_of_lt]
        · rfl
        · have hcond := BitVec.toInt_eq_toNat_cond num
          split_ifs at hcond <;> omega
      simp only [if_neg hneg, habs, BitVec.ofNat_toNat, BitVec.setWidth_eq]
      split_ifs <;> rfl
  · simp only [if_neg hsign, BitVec.ofNat_toNat, BitVec.setWidth_eq]

theorem magnitude_lt (type : Flags) (num : BitVec 32) : magnitude type num < 2 ^ 32 := by
  unfold magnitude
  split_ifs
  · have hlower := BitVec.le_toInt num
    have hupper := BitVec.toInt_lt (x := num)
    omega
  · exact num.isLt

theorem pad_natCast (c : Char) (n : ℕ) : pad c n = some (List.replicate n c, -1) := by
  have hleft : min (n : ℤ) 0 - 1 = -1 := by omega
  rw [pad, hleft, checked_of_le (by decide) (by decide), Int.toNat_natCast]
  rfl

theorem pad_of_nonpos (c : Char) {size : ℤ} (hlower : -2147483647 ≤ size) (hupper : size ≤ 0) :
    pad c size = some ([], size - 1) := by
  rw [pad, min_eq_left hupper, checked_of_le (by omega) (by omega), Int.toNat_of_nonpos hupper]
  rfl

/-- No padding is left: the four loops at most count down. -/
theorem putField_full {size : ℤ} (hlower : -2147483644 ≤ size) (hupper : size ≤ 0) (type : Flags)
    (sign : Option Char) (body : List Char) :
    putField size type sign body = some (sign.toList ++ body) := by
  obtain ⟨zeropad, _, _, _, left, _, _⟩ := type
  have hpos : ¬ size > 0 := by omega
  cases sign <;> cases left <;> cases zeropad <;>
    simp (disch := omega) [putField, pad_of_nonpos, checked_of_le, hpos]

/-- The padding goes to the right, between sign and digits, or to the left. -/
theorem putField_padded {n : ℕ} (hn : n < 2147483647) {type : Flags}
    (htype : ¬ (type.left = true ∧ type.zeropad = true)) (sign : Option Char) (body : List Char) :
    putField (n + 1) type sign body =
      some (layout type (n + 1 + body.length) sign.toList body) := by
  obtain ⟨zeropad, _, _, _, left, _, _⟩ := type
  have hsucc (c : Char) : pad c ((n : ℤ) + 1) = some (List.replicate (n + 1) c, -1) :=
    pad_natCast c (n + 1)
  have hpos : (0 : ℤ) < (n : ℤ) + 1 := by omega
  have hone : n + 1 + body.length - (1 + body.length) = n := by omega
  cases sign <;> cases left <;> cases zeropad <;>
    simp (disch := omega) [putField, layout, pad_natCast, hsucc, pad_of_nonpos, checked_of_le,
      hpos, hone] at htype ⊢

theorem layout_full {type : Flags} {s : ℕ} {sign body : List Char}
    (h : s ≤ sign.length + body.length) : layout type s sign body = sign ++ body := by
  simp only [layout, Nat.sub_eq_zero_of_le h, List.replicate_zero, List.append_nil,
    List.nil_append, ite_self]

theorem putNumber_layout {s precision : ℤ} (hprecision : precision ≠ 0) {type : Flags}
    (htype : ¬ (type.left = true ∧ type.zeropad = true)) (sign : Option Char) {tmp : List Char}
    (hs : s ≤ 2147483647) (hroom : -2147483644 ≤ s - max precision tmp.length) :
    putNumber s precision type sign tmp = some (layout type s.toNat sign.toList
      (List.replicate (precision.toNat - tmp.length) '0' ++ tmp.reverse)) := by
  obtain ⟨m, hm, hwidth⟩ : ∃ m : ℕ, m = max precision.toNat tmp.length ∧
      (if (tmp.length : ℤ) > precision then (tmp.length : ℤ) else precision) = m := by
    refine ⟨_, rfl, ?_⟩
    split_ifs <;> omega
  have hzeros : ((m : ℤ) - tmp.length).toNat = precision.toNat - tmp.length := by omega
  have hchecked : checked (s - m) = some (s - m) := checked_of_le (by omega) (by omega)
  simp only [putNumber, hwidth, hzeros, hchecked, if_neg hprecision, Option.bind_eq_bind,
    Option.bind_some]
  generalize hbody : List.replicate (precision.toNat - tmp.length) '0' ++ tmp.reverse = body
  have hlength : body.length = m := by
    rw [← hbody, List.length_append, List.length_replicate, List.length_reverse]
    omega
  rcases le_or_gt (s - m) 0 with hfull | hpadded
  · rw [putField_full (by omega) hfull, layout_full (by omega)]
  · obtain ⟨n, hn⟩ : ∃ n : ℕ, s - m = n + 1 := ⟨(s - m - 1).toNat, by omega⟩
    have hwhole : s.toNat = n + 1 + body.length := by omega
    rw [hn, putField_padded (by omega) htype, hwhole]

/-- Sufficient for the `int` arithmetic of a call: the number has a negation, and four
can be taken from what the precision leaves of the width. -/
structure NoOverflow (num : BitVec 32) (base : ℕ) (s precision : ℤ) (type : Flags) : Prop where
  negation : type.sign = true → num.toInt ≠ -2147483648
  width : s ≤ 2147483647
  room : -2147483644 ≤ s - max precision (digitsText type.large base (magnitude type num)).length

theorem printNumber_eq_layout {num : BitVec 32} {base : ℕ} {s precision : ℤ} {type : Flags}
    (hprecision : precision ≠ 0) (h : NoOverflow num base s precision type) :
    let digits := digitsText type.large base (magnitude type num)
    printNumber num base s precision type =
      some (layout type s.toNat (shownSign type num).toList
        (List.replicate (precision.toNat - digits.length) '0' ++ digits)) := by
  intro digits
  obtain ⟨hnum, hs, hroom⟩ := h
  have hvalue : (BitVec.ofNat 32 (magnitude type num)).toNat = magnitude type num :=
    (BitVec.toNat_ofNat _ 32).trans (Nat.mod_eq_of_lt (magnitude_lt type num))
  have htmp := tmpDigits_reverse type.large base (BitVec.ofNat 32 (magnitude type num))
  rw [hvalue] at htmp
  change _ = digits at htmp
  have hlength := congrArg List.length htmp
  rw [List.length_reverse] at hlength
  have hput {type' : Flags} (htype : ¬ (type'.left = true ∧ type'.zeropad = true))
      (hlayout : layout type' = layout type) :
      putNumber s precision type' (shownSign type num) (tmpDigits (digitTable type.large) base
          (BitVec.ofNat 32 (magnitude type num))) =
        some (layout type s.toNat (shownSign type num).toList
          (List.replicate (precision.toNat - digits.length) '0' ++ digits)) := by
    rw [putNumber_layout hprecision htype _ hs (hlength ▸ hroom), htmp, hlength, hlayout]
  by_cases hleft : type.left = true
  · have hsign : takeSign num { type with zeropad := false } = takeSign num type := rfl
    simp only [printNumber, if_pos hleft, hsign, takeSign_eq hnum, Option.bind_eq_bind,
      Option.bind_some]
    exact hput (fun h => Bool.false_ne_true h.2) (by funext s sign body; simp [layout, hleft])
  · simp only [printNumber, if_neg hleft, takeSign_eq hnum, Option.bind_eq_bind, Option.bind_some]
    exact hput (fun h => hleft h.1) rfl

/-- `%o` and `%x` put the same. -/
theorem printNumber_octal (num : BitVec 32) (s precision : ℤ) (type : Flags) :
    printNumber num 8 s precision type = printNumber num 16 s precision type := by
  have hpush (digits : List Char) (num : BitVec 32) :
      pushDigits digits 8 num = pushDigits digits 16 num := by
    induction num using pushDigits.induct 8 with
    | case1 => rw [pushDigits.eq_def digits 8, pushDigits.eq_def digits 16, if_pos rfl, if_pos rfl]
    | case2 num h ih =>
        have hdivide : divide num 8 = divide num 16 := rfl
        rw [pushDigits.eq_def digits 8, pushDigits.eq_def digits 16, if_neg h, if_neg h, ih,
          hdivide]
  simp only [printNumber, tmpDigits, hpush]

/-- Every call whose arithmetic does not overflow, for every precision but zero: the number
fills its field and no more, with its sign, its zeros and its digits in one of the three
layouts; and base 8 shows the digits of base 16. -/
theorem printNumber_field {num : BitVec 32} {base : ℕ} {s precision : ℤ} {type : Flags}
    (hprecision : precision ≠ 0) (h : NoOverflow num base s precision type) :
    let sign := (shownSign type num).toList
    let digits := digitsText type.large base (magnitude type num)
    let body := List.replicate (precision.toNat - digits.length) '0' ++ digits
    printNumber num base s precision type = some (layout type s.toNat sign body) ∧
      (layout type s.toNat sign body).length =
        max s.toNat (sign.length + max precision.toNat digits.length) ∧
      (base = 8 → printNumber num base s precision type = printNumber num 16 s precision type) := by
  intro sign digits body
  refine ⟨printNumber_eq_layout hprecision h, ?_, fun hbase => ?_⟩
  · rw [layout_length, List.length_append, List.length_replicate]
    omega
  · rw [hbase]
    exact printNumber_octal num s precision type

/-- `%+05d` of twelve. -/
theorem printNumber_twelve :
    printNumber 12 10 5 (-1) ⟨true, true, true, false, false, false, false⟩ =
      some "+0012".toList :=
  (@printNumber_field 12 10 5 (-1) ⟨true, true, true, false, false, false, false⟩ (by decide)
    ⟨by decide, by decide, by decide⟩).1

end ExpertCar.PrintNumber
