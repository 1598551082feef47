import Mathlib.Data.Nat.Digits.Defs
import Mathlib.Data.List.Basic

/-!
# Numbers as decimal text

`%d` and `%02d` for natural numbers, as lists of characters, and two of them
joined by a point. The point is no digit, so it separates the two fields, and
each field determines its number.
-/
namespace DecimalText

/-- `%d`. -/
def decimal (n : ℕ) : List Char := Nat.toDigits 10 n

/-- `%02d`. -/
def decimal02 (n : ℕ) : List Char :=
  if (decimal n).length < 2 then '0' :: decimal n else decimal n

/-- `%d.%d`. -/
def pointed (a b : ℕ) : List Char := decimal a ++ '.' :: decimal b

/-- `%d.%02d`. -/
def pointed02 (a b : ℕ) : List Char := decimal a ++ '.' :: decimal02 b

theorem decimal_injective : Function.Injective decimal := by
  intro m n h
  have hvalue := congrArg (fun digits => Nat.ofDigitChars 10 digits 0) h
  simpa only [decimal, Nat.ofDigitChars_ten_toDigits] using hvalue

/-- The leading zero does not change the value read back. -/
theorem decimal02_value (n : ℕ) : Nat.ofDigitChars 10 (decimal02 n) 0 = n := by
  unfold decimal02
  split
  · rw [Nat.ofDigitChars_cons]
    exact Nat.ofDigitChars_ten_toDigits
  · exact Nat.ofDigitChars_ten_toDigits

theorem decimal02_injective : Function.Injective decimal02 := by
  intro m n h
  have hvalue := congrArg (fun digits => Nat.ofDigitChars 10 digits 0) h
  simpa only [decimal02_value] using hvalue

theorem point_not_mem_decimal (n : ℕ) : '.' ∉ decimal n := by
  intro h
  have hdigit := Nat.isDigit_of_mem_toDigits (by omega) (by omega) h
  exact absurd hdigit (by decide)

theorem append_separator_inj {α : Type*} {c : α} {a a' b b' : List α}
    (ha : c ∉ a) (ha' : c ∉ a') (h : a ++ c :: b = a' ++ c :: b') : a = a' ∧ b = b' := by
  induction a generalizing a' with
  | nil =>
      cases a' with
      | nil => exact ⟨rfl, (List.cons.inj h).2⟩
      | cons x a' => exact (ha' ((List.cons.inj h).1 ▸ List.mem_cons_self)).elim
  | cons x a ih =>
      cases a' with
      | nil => exact (ha ((List.cons.inj h).1 ▸ List.mem_cons_self)).elim
      | cons y a' =>
          obtain ⟨rfl, ht⟩ := List.cons.inj h
          obtain ⟨rfl, hb⟩ := ih (fun hc => ha (List.mem_cons_of_mem x hc))
            (fun hc => ha' (List.mem_cons_of_mem x hc)) ht
          exact ⟨rfl, hb⟩

theorem pointed_inj {a b a' b' : ℕ} : pointed a b = pointed a' b' ↔ a = a' ∧ b = b' := by
  constructor
  · intro h
    obtain ⟨ha, hb⟩ :=
      append_separator_inj (point_not_mem_decimal a) (point_not_mem_decimal a') h
    exact ⟨decimal_injective ha, decimal_injective hb⟩
  · intro h
    rw [h.1, h.2]

theorem pointed02_inj {a b a' b' : ℕ} : pointed02 a b = pointed02 a' b' ↔ a = a' ∧ b = b' := by
  constructor
  · intro h
    obtain ⟨ha, hb⟩ :=
      append_separator_inj (point_not_mem_decimal a) (point_not_mem_decimal a') h
    exact ⟨decimal_injective ha, decimal02_injective hb⟩
  · intro h
    rw [h.1, h.2]

example : pointed02 163 8 = "163.08".toList := by decide

end DecimalText
