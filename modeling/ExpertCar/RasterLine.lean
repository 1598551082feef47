import Mathlib.Algebra.Order.Group.Int
import Mathlib.Algebra.Order.Ring.Int
import Mathlib.Data.Int.Order.Basic
import Mathlib.Data.List.Range
import Mathlib.Tactic.Linarith
import Mathlib.Tactic.Ring

/-!
# Lines on a grid

The segment between two points of the integer plane, one point for each unit of
its longer extent: the shorter extent follows the ideal line, rounded to the
nearest integer with halves away from the first point. `point` is the whole
definition; the rest says what a segment is, independently of how it is computed:
its ends, its steps, its box, and that it stays within half a unit of the line.
`error` is the integer term by which a loop decides when to round up.
-/
namespace RasterLine

/-- `d * k / D` to the nearest integer, halves up; 0 for `D = 0`. -/
def rounded (D d k : ℕ) : ℕ := (2 * d * k + D) / (2 * D)

theorem rounded_zero (D d : ℕ) : rounded D d 0 = 0 := by
  rcases Nat.eq_zero_or_pos D with hD | hD
  · simp [rounded, hD]
  · exact Nat.div_eq_of_lt (by omega)

theorem rounded_unique {D d k m : ℕ} (hlow : 2 * (D * m) ≤ 2 * (d * k) + D)
    (hhigh : 2 * (d * k) + D < 2 * (D * m) + 2 * D) : rounded D d k = m := by
  have hprod : m * (2 * D) = 2 * (D * m) := by rw [Nat.mul_left_comm, Nat.mul_comm m]
  have hnext : (m + 1) * (2 * D) = 2 * (D * m) + 2 * D := by rw [Nat.succ_mul, hprod]
  rw [rounded, Nat.mul_assoc]
  exact Nat.div_eq_of_lt_le (by rw [hprod]; exact hlow) (by rw [hnext]; exact hhigh)

/-- The error term of the integer recurrence before the `k`-th point. -/
def error (D d k : ℕ) : ℤ :=
  2 * ((d * (k + 1) : ℕ) : ℤ) - D - 2 * ((D * rounded D d k : ℕ) : ℤ)

theorem error_zero (D d : ℕ) : error D d 0 = 2 * d - D := by
  rw [error, rounded_zero, Nat.mul_zero, Nat.mul_one]
  omega

section Rounded
variable {D d k : ℕ} (hD : 0 < D)
include hD

theorem rounded_spec :
    2 * (D * rounded D d k) ≤ 2 * (d * k) + D ∧
      2 * (d * k) + D < 2 * (D * rounded D d k) + 2 * D := by
  have hmod := Nat.mod_lt (2 * d * k + D) (show 0 < 2 * D by omega)
  have hdiv := Nat.div_add_mod (2 * d * k + D) (2 * D)
  have hprod : 2 * D * rounded D d k = 2 * (D * rounded D d k) := Nat.mul_assoc 2 D _
  change 2 * D * rounded D d k + _ = _ at hdiv
  rw [Nat.mul_assoc 2 d k] at hdiv hmod
  omega

/-- The next rounded value is larger by one exactly when the error term is not
negative. -/
theorem rounded_succ (hd : d ≤ D) :
    rounded D d (k + 1) = if 0 ≤ error D d k then rounded D d k + 1 else rounded D d k := by
  obtain ⟨hlow, hhigh⟩ := rounded_spec (d := d) (k := k) hD
  have hstep : d * (k + 1) = d * k + d := Nat.mul_succ d k
  have hnext : D * (rounded D d k + 1) = D * rounded D d k + D := Nat.mul_succ D _
  split_ifs with herror
  · unfold error at herror
    apply rounded_unique
    · omega
    · omega
  · unfold error at herror
    apply rounded_unique
    · omega
    · omega

theorem error_succ (hd : d ≤ D) :
    error D d (k + 1) = (if 0 ≤ error D d k then error D d k - 2 * D else error D d k) + 2 * d := by
  have hstep : d * (k + 1 + 1) = d * (k + 1) + d := Nat.mul_succ d (k + 1)
  have hnext : D * (rounded D d k + 1) = D * rounded D d k + D := Nat.mul_succ D _
  rw [error, rounded_succ hD hd]
  split_ifs with herror
  · unfold error
    omega
  · unfold error
    omega

end Rounded

theorem rounded_last {D d : ℕ} (hd : d ≤ D) : rounded D d D = d := by
  rcases Nat.eq_zero_or_pos D with hD | hD
  · subst hD
    exact (rounded_zero 0 d).trans (Nat.le_zero.mp hd).symm
  · have hcomm := Nat.mul_comm D d
    exact rounded_unique (by omega) (by omega)

theorem rounded_le {D d k : ℕ} (hd : d ≤ D) (hk : k ≤ D) : rounded D d k ≤ d := by
  have hle : 2 * d * k ≤ 2 * d * D := Nat.mul_le_mul_left (2 * d) hk
  calc rounded D d k ≤ rounded D d D := Nat.div_le_div_right (Nat.add_le_add_right hle D)
    _ = d := rounded_last hd

theorem error_bounds {D d : ℕ} (hd : d ≤ D) (k : ℕ) :
    2 * (d : ℤ) - 2 * D ≤ error D d k ∧ error D d k ≤ 2 * d := by
  have hstep : d * (k + 1) = d * k + d := Nat.mul_succ d k
  rcases Nat.eq_zero_or_pos D with hD | hD
  · have hd0 : d = 0 := by omega
    simp [error, hD, hd0]
  · obtain ⟨hlow, hhigh⟩ := rounded_spec (d := d) (k := k) hD
    unfold error
    omega

/-- Half a unit from the ideal value. -/
theorem rounded_half {D d : ℕ} (hd : d ≤ D) (k : ℕ) :
    2 * ((D * rounded D d k : ℤ) - d * k).natAbs ≤ D := by
  rcases Nat.eq_zero_or_pos D with hD | hD
  · subst hD
    simp [Nat.le_zero.mp hd]
  · have h := rounded_spec (d := d) (k := k) hD
    have hlow : (2 * (D * rounded D d k) : ℤ) ≤ 2 * (d * k) + D := by exact_mod_cast h.1
    have hhigh : (2 * (d * k) + D : ℤ) < 2 * (D * rounded D d k) + 2 * D := by exact_mod_cast h.2
    omega

theorem rounded_step {D d k : ℕ} (hd : d ≤ D) :
    rounded D d (k + 1) = rounded D d k ∨ rounded D d (k + 1) = rounded D d k + 1 := by
  rcases Nat.eq_zero_or_pos D with hD | hD
  · have hd0 : d = 0 := by omega
    exact Or.inl (by simp [rounded, hD])
  · rw [rounded_succ hD hd]
    split_ifs
    · exact Or.inr rfl
    · exact Or.inl rfl

/-! ### Along one axis -/

def gap (a b : ℤ) : ℕ := (b - a).natAbs

/-- The direction from `a` to `b`. -/
def sign (a b : ℤ) : ℤ := if a ≤ b then 1 else -1

/-- `k` units from `a` in the direction of `b`. -/
def toward (a b : ℤ) (k : ℕ) : ℤ := a + sign a b * k

theorem sign_eq (a b : ℤ) : sign a b = 1 ∨ sign a b = -1 := by
  unfold sign
  split_ifs
  · exact Or.inl rfl
  · exact Or.inr rfl

theorem sign_mul_gap (a b : ℤ) : b - a = sign a b * gap a b := by
  unfold sign gap
  split_ifs <;> omega

theorem toward_zero (a b : ℤ) : toward a b 0 = a := by
  rw [toward, Nat.cast_zero, Int.mul_zero, Int.add_zero]

theorem toward_gap (a b : ℤ) : toward a b (gap a b) = b := by
  rw [toward, ← sign_mul_gap]
  omega

theorem toward_succ (a b : ℤ) (k : ℕ) : toward a b (k + 1) = toward a b k + sign a b := by
  rw [toward, toward, Nat.cast_succ, Int.mul_add, Int.mul_one, Int.add_assoc]

theorem toward_bounds {a b : ℤ} {k : ℕ} (hk : k ≤ gap a b) :
    min a b ≤ toward a b k ∧ toward a b k ≤ max a b := by
  unfold toward sign
  unfold gap at hk
  split_ifs <;> omega

theorem toward_next (a b : ℤ) (k : ℕ) : (toward a b (k + 1) - toward a b k).natAbs = 1 := by
  rw [toward_succ, add_sub_cancel_left]
  rcases sign_eq a b with h | h <;> rw [h] <;> rfl

theorem toward_near (a b : ℤ) {k m : ℕ} (h : m = k ∨ m = k + 1) :
    (toward a b m - toward a b k).natAbs ≤ 1 := by
  rcases h with rfl | rfl
  · rw [Int.sub_self]
    decide
  · exact Nat.le_of_eq (toward_next a b k)

/-- Twice the area between the line and a point that is `k` along one axis and `m`
along the other. -/
theorem cross_natAbs (a b a' b' : ℤ) (k m : ℕ) :
    ((toward a' b' m - a') * (b - a) - (toward a b k - a) * (b' - a')).natAbs =
      ((gap a b * m : ℤ) - gap a' b' * k).natAbs := by
  have hprod : (toward a' b' m - a') * (b - a) - (toward a b k - a) * (b' - a') =
      sign a b * sign a' b' * (gap a b * m - gap a' b' * k) := by
    rw [sign_mul_gap a b, sign_mul_gap a' b', toward, toward]
    ring
  have hsign : (sign a b * sign a' b').natAbs = 1 := by
    rcases sign_eq a b with h | h <;> rcases sign_eq a' b' with h' | h' <;> rw [h, h'] <;> rfl
  rw [hprod, Int.natAbs_mul, hsign, Nat.one_mul]

/-! ### Segments -/

def extent (p q : ℤ × ℤ) : ℕ := max (gap p.1 q.1) (gap p.2 q.2)

/-- The `k`-th point of the segment: `k` units along the longer axis. -/
def point (p q : ℤ × ℤ) (k : ℕ) : ℤ × ℤ :=
  if gap p.2 q.2 < gap p.1 q.1 then
    (toward p.1 q.1 k, toward p.2 q.2 (rounded (gap p.1 q.1) (gap p.2 q.2) k))
  else (toward p.1 q.1 (rounded (gap p.2 q.2) (gap p.1 q.1) k), toward p.2 q.2 k)

def segment (p q : ℤ × ℤ) : List (ℤ × ℤ) := (List.range (extent p q + 1)).map (point p q)

theorem segment_flat {p q : ℤ × ℤ} (h : gap p.2 q.2 < gap p.1 q.1) :
    segment p q = (List.range (gap p.1 q.1 + 1)).map fun k =>
      (toward p.1 q.1 k, toward p.2 q.2 (rounded (gap p.1 q.1) (gap p.2 q.2) k)) := by
  rw [segment, extent, Nat.max_eq_left (Nat.le_of_lt h)]
  exact List.map_congr_left fun k _ => if_pos h

theorem segment_steep {p q : ℤ × ℤ} (h : gap p.1 q.1 ≤ gap p.2 q.2) :
    segment p q = (List.range (gap p.2 q.2 + 1)).map fun k =>
      (toward p.1 q.1 (rounded (gap p.2 q.2) (gap p.1 q.1) k), toward p.2 q.2 k) := by
  rw [segment, extent, Nat.max_eq_right h]
  exact List.map_congr_left fun k _ => if_neg (Nat.not_lt_of_le h)

/-- Neighbours in one of the eight directions. -/
def Adjacent (r s : ℤ × ℤ) : Prop :=
  r ≠ s ∧ (s.1 - r.1).natAbs ≤ 1 ∧ (s.2 - r.2).natAbs ≤ 1

def InBox (p q r : ℤ × ℤ) : Prop :=
  (min p.1 q.1 ≤ r.1 ∧ r.1 ≤ max p.1 q.1) ∧ (min p.2 q.2 ≤ r.2 ∧ r.2 ≤ max p.2 q.2)

/-- Within half a unit of the line through `p` and `q`, measured along the shorter axis. -/
def Near (p q r : ℤ × ℤ) : Prop :=
  2 * ((r.2 - p.2) * (q.1 - p.1) - (r.1 - p.1) * (q.2 - p.2)).natAbs ≤ extent p q

theorem point_zero (p q : ℤ × ℤ) : point p q 0 = p := by
  unfold point
  split_ifs
  · rw [rounded_zero, toward_zero, toward_zero]
  · rw [rounded_zero, toward_zero, toward_zero]

theorem point_extent (p q : ℤ × ℤ) : point p q (extent p q) = q := by
  unfold point extent
  split_ifs with h
  · rw [Nat.max_eq_left (Nat.le_of_lt h), rounded_last (Nat.le_of_lt h), toward_gap,
      toward_gap]
  · rw [Nat.max_eq_right (Nat.le_of_not_lt h), rounded_last (Nat.le_of_not_lt h),
      toward_gap, toward_gap]

theorem point_adjacent (p q : ℤ × ℤ) (k : ℕ) : Adjacent (point p q k) (point p q (k + 1)) := by
  unfold point
  split_ifs with h
  · have hmajor := toward_next p.1 q.1 k
    refine ⟨fun heq => ?_, Nat.le_of_eq hmajor, toward_near _ _ (rounded_step (Nat.le_of_lt h))⟩
    have hx := congrArg Prod.fst heq
    change toward p.1 q.1 k = toward p.1 q.1 (k + 1) at hx
    rw [hx, Int.sub_self] at hmajor
    exact absurd hmajor (by decide)
  · have hmajor := toward_next p.2 q.2 k
    refine ⟨fun heq => ?_, toward_near _ _ (rounded_step (Nat.le_of_not_lt h)),
      Nat.le_of_eq hmajor⟩
    have hy := congrArg Prod.snd heq
    change toward p.2 q.2 k = toward p.2 q.2 (k + 1) at hy
    rw [hy, Int.sub_self] at hmajor
    exact absurd hmajor (by decide)

theorem point_inBox {p q : ℤ × ℤ} {k : ℕ} (hk : k ≤ extent p q) : InBox p q (point p q k) := by
  unfold extent at hk
  unfold point
  split_ifs with h
  · rw [Nat.max_eq_left (Nat.le_of_lt h)] at hk
    exact ⟨toward_bounds hk, toward_bounds (rounded_le (Nat.le_of_lt h) hk)⟩
  · rw [Nat.max_eq_right (Nat.le_of_not_lt h)] at hk
    exact ⟨toward_bounds (rounded_le (Nat.le_of_not_lt h) hk), toward_bounds hk⟩

theorem point_near (p q : ℤ × ℤ) (k : ℕ) : Near p q (point p q k) := by
  unfold Near extent point
  split_ifs with h
  · rw [Nat.max_eq_left (Nat.le_of_lt h), cross_natAbs]
    exact rounded_half (Nat.le_of_lt h) k
  · rw [Nat.max_eq_right (Nat.le_of_not_lt h), ← Int.natAbs_neg, Int.neg_sub, cross_natAbs]
    exact rounded_half (Nat.le_of_not_lt h) k

/-- A list of points is drawn like the segment from `p` to `q`. -/
structure Rasterises (p q : ℤ × ℤ) (points : List (ℤ × ℤ)) : Prop where
  length : points.length = extent p q + 1
  offset : ∀ k ≤ extent p q, points[k]? = some (point p q k)
  first : points.head? = some p
  last : points.getLast? = some q
  adjacent : points.IsChain Adjacent
  inBox : ∀ r ∈ points, InBox p q r
  near : ∀ r ∈ points, Near p q r

theorem mem_segment {p q r : ℤ × ℤ} : r ∈ segment p q ↔ ∃ k ≤ extent p q, point p q k = r := by
  simp only [segment, List.mem_map, List.mem_range, Nat.lt_succ_iff]

theorem segment_rasterises (p q : ℤ × ℤ) : Rasterises p q (segment p q) where
  length := by rw [segment, List.length_map, List.length_range]
  offset := by
    intro k hk
    rw [segment, List.getElem?_map, List.getElem?_range (Nat.lt_succ_of_le hk), Option.map_some]
  first := by rw [segment, List.range_succ_eq_map, List.map_cons, List.head?_cons, point_zero]
  last := by
    rw [segment, List.range_succ, List.map_append, List.map_singleton, List.getLast?_concat,
      point_extent]
  adjacent := by
    rw [segment, List.isChain_map, List.isChain_range_succ]
    exact fun k _ => point_adjacent p q k
  inBox := by
    intro r hr
    obtain ⟨k, hk, rfl⟩ := mem_segment.mp hr
    exact point_inBox hk
  near := by
    intro r hr
    obtain ⟨k, -, rfl⟩ := mem_segment.mp hr
    exact point_near p q k

end RasterLine
