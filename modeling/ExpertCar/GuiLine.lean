import ExpertCar.CheckedInt
import ExpertCar.LcdRaster
import ExpertCar.RasterLine

/-!
# Lines on the panel

`Gui_DrawLine` as the list of points it draws. Its two loops are one loop over
the axis along which the line extends further, with the roles of the coordinates
exchanged in the second. The loop keeps an error term; before the `k`-th point
it is the one of the rounded line, so the points are those of the segment. All
results of `int` arithmetic are checked, and the coordinates are 16-bit words:
only the ones after the last point may have wrapped.
-/
namespace ExpertCar.GuiLine
open StepRuns LcdPanel LcdText LcdRaster CheckedInt RasterLine

/-- `d = b - a; if (d >= 0) inc = 1; else { inc = -1; d = -d; }` -/
def direction (a b : Coord) : Option (ℤ × ℤ) := do
  let d ← checked (b.toNat - a.toNat)
  if d ≥ 0 then some (1, d) else (checked (-d)).map fun d => (-1, d)

/-- `c += inc;` -/
def moveBy (inc : ℤ) (c : Coord) : Option Coord := (checked (c.toNat + inc)).map word

/-- `if (error >= 0) { error -= major2; minor += inc; }` -/
def correct (major2 inc : ℤ) (error : ℤ) (minor : Coord) : Option (ℤ × Coord) :=
  if error ≥ 0 then do
    let error ← checked (error - major2)
    let minor ← moveBy inc minor
    some (error, minor)
  else some (error, minor)

/-- The loop with `n` iterations to go; a point is `(major, minor)`. -/
def lineLoop (major2 minor2 majorInc minorInc : ℤ) :
    ℕ → ℤ → Coord → Coord → Option (List (Coord × Coord))
  | 0, _, _, _ => some []
  | n + 1, error, major, minor => do
      let corrected ← correct major2 minorInc error minor
      let error ← checked (corrected.1 + minor2)
      let next ← moveBy majorInc major
      let rest ← lineLoop major2 minor2 majorInc minorInc n error next corrected.2
      some ((major, minor) :: rest)

/-- Arguments of the calls of `Gui_DrawPoint`, in order. -/
def linePoints (x0 y0 x1 y1 : Coord) : Option (List (Coord × Coord)) := do
  let (xInc, dx) ← direction x0 x1
  let (yInc, dy) ← direction y0 y1
  let dx2 ← checked (2 * dx)
  let dy2 ← checked (2 * dy)
  if dx > dy then
    let error ← checked (dy2 - dx)
    lineLoop dx2 dy2 xInc yInc (dx + 1).toNat error x0 y0
  else
    let error ← checked (dx2 - dy)
    (lineLoop dy2 dx2 yInc xInc (dy + 1).toNat error y0 x0).map (List.map Prod.swap)

def drawPoints (color : Colour) (points : List (Coord × Coord)) : List Send :=
  points.flatMap fun p => guiDrawPoint (p.1.setWidth 32) (p.2.setWidth 32) (color.setWidth 32)

def guiDrawLine (x0 y0 x1 y1 : Coord) (color : Colour) : Option (List Send) :=
  (linePoints x0 y0 x1 y1).map fun points => tftSetAdd x0 y0 x0 y0 ++ drawPoints color points

/-! ### One iteration -/

/-- A point of the integer plane as the code holds it. -/
def wordPoint (r : ℤ × ℤ) : Coord × Coord := (word r.1, word r.2)

/-- A pair of coordinates in the integer plane. -/
def plane (p : Coord × Coord) : ℤ × ℤ := (p.1.toNat, p.2.toNat)

theorem gap_le (a b : Coord) : gap a.toNat b.toNat ≤ 65535 := by
  have := toNat_bounds a
  have := toNat_bounds b
  unfold gap
  omega

theorem direction_eq (a b : Coord) :
    direction a b = some (sign a.toNat b.toNat, (gap a.toNat b.toNat : ℤ)) := by
  have ha := toNat_bounds a
  have hb := toNat_bounds b
  have hd : InRange (b.toNat - a.toNat) := by
    unfold InRange
    omega
  have hneg : InRange (-((b.toNat : ℤ) - a.toNat)) := by
    unfold InRange
    omega
  unfold direction sign gap
  rw [checked_eq hd]
  simp only [Option.bind_eq_bind, Option.bind_some]
  rw [checked_eq hneg, Option.map_some]
  split_ifs with h h' h'
  · congr 2
    omega
  · omega
  · omega
  · congr 2
    omega

theorem moveBy_eq {inc : ℤ} (h : inc = 1 ∨ inc = -1) (v : ℤ) :
    moveBy inc (word v) = some (word (v + inc)) := by
  have hbounds := toNat_bounds (word v)
  have hrange : InRange ((word v).toNat + inc) := by
    unfold InRange
    omega
  rw [moveBy, checked_eq hrange, Option.map_some, word_add]

theorem correct_eq {D d : ℕ} {inc : ℤ} (hinc : inc = 1 ∨ inc = -1) (hd : d ≤ D) (hD : D ≤ 65535)
    (k : ℕ) (v : ℤ) :
    correct (2 * D) inc (error D d k) (word v) =
      some (if 0 ≤ error D d k then error D d k - 2 * D else error D d k,
        word (if 0 ≤ error D d k then v + inc else v)) := by
  have hbounds := error_bounds hd k
  have hrange : InRange (error D d k - 2 * D) := by
    unfold InRange
    omega
  unfold correct
  split_ifs with h
  · rw [checked_eq hrange, moveBy_eq hinc]
    rfl
  · rfl

/-- The loop draws the rest of the segment from its `k`-th point on: the induction
is on the iterations to go, with the error term of the rounded line. -/
theorem lineLoop_eq {D d : ℕ} (hd : d ≤ D) (hD : D ≤ 65535) (a b a' b' : ℤ) (n k : ℕ)
    (hn : k + n = D + 1) :
    lineLoop (2 * D) (2 * d) (sign a b) (sign a' b') n (error D d k) (word (toward a b k))
        (word (toward a' b' (rounded D d k))) =
      some ((List.range' k n).map fun i =>
        (word (toward a b i), word (toward a' b' (rounded D d i)))) := by
  induction n generalizing k with
  | zero => rfl
  | succ n ih =>
      have hbounds := error_bounds hd k
      have hrange : InRange ((if 0 ≤ error D d k then error D d k - 2 * D else error D d k) +
          2 * d) := by
        unfold InRange
        split_ifs <;> omega
      rw [lineLoop, correct_eq (sign_eq a' b') hd hD, moveBy_eq (sign_eq a b), ← toward_succ a b,
        ← toward_succ a' b']
      simp only [Option.bind_eq_bind, Option.bind_some]
      rw [checked_eq hrange, Option.bind_some]
      cases n with
      | zero => rfl
      | succ n =>
          have hpos : 0 < D := by omega
          have hminor : (if 0 ≤ error D d k then toward a' b' (rounded D d k + 1)
              else toward a' b' (rounded D d k)) = toward a' b' (rounded D d (k + 1)) := by
            rw [rounded_succ hpos hd]
            split_ifs <;> rfl
          rw [hminor, ← error_succ hpos hd, ih (k + 1) (by omega)]
          rfl

/-! ### The whole line -/

/-- Both orders of the axes: the loop from the first point is the whole segment. -/
theorem lineLoop_start {D d : ℕ} (hd : d ≤ D) (hD : D ≤ 65535) (major minor : Coord) (b b' : ℤ) :
    lineLoop (2 * D) (2 * d) (sign major.toNat b) (sign minor.toNat b') (((D : ℤ) + 1).toNat)
        (2 * d - D) major minor =
      some ((List.range (D + 1)).map fun k =>
        (word (toward major.toNat b k), word (toward minor.toNat b' (rounded D d k)))) := by
  have h := lineLoop_eq hd hD major.toNat b minor.toNat b' (D + 1) 0 (Nat.zero_add _)
  rw [error_zero, rounded_zero, toward_zero, toward_zero, word_natCast, word_natCast,
    ← List.range_eq_range'] at h
  exact h

theorem inRange_double {D : ℕ} (hD : D ≤ 65535) : InRange (2 * D) := by
  unfold InRange
  omega

theorem inRange_start {D d : ℕ} (hd : d ≤ D) (hD : D ≤ 65535) : InRange (2 * d - D) := by
  unfold InRange
  omega

/-- No `int` overflows, and the points are those of the segment. -/
theorem linePoints_eq (x0 y0 x1 y1 : Coord) :
    linePoints x0 y0 x1 y1 =
      some ((segment (plane (x0, y0)) (plane (x1, y1))).map wordPoint) := by
  have hx := gap_le x0 x1
  have hy := gap_le y0 y1
  simp only [linePoints, direction_eq, Option.bind_eq_bind, Option.bind_some,
    checked_eq (inRange_double hx), checked_eq (inRange_double hy)]
  split_ifs with h
  · have hlt : gap (y0.toNat : ℤ) y1.toNat < gap (x0.toNat : ℤ) x1.toNat := Int.ofNat_lt.mp h
    have hle := Nat.le_of_lt hlt
    have hsegment := segment_flat (p := plane (x0, y0)) (q := plane (x1, y1)) hlt
    rw [checked_eq (inRange_start hle hx), Option.bind_some, lineLoop_start hle hx, hsegment,
      List.map_map]
    rfl
  · have hle : gap (x0.toNat : ℤ) x1.toNat ≤ gap (y0.toNat : ℤ) y1.toNat :=
      Nat.le_of_not_lt fun hlt => h (Int.ofNat_lt.mpr hlt)
    have hsegment := segment_steep (p := plane (x0, y0)) (q := plane (x1, y1)) hle
    rw [checked_eq (inRange_start hle hy), Option.bind_some, lineLoop_start hle hy, Option.map_some,
      List.map_map, hsegment, List.map_map]
    rfl

theorem plane_wordPoint {r : ℤ × ℤ} {p q : Coord × Coord} (h : InBox (plane p) (plane q) r) :
    plane (wordPoint r) = r := by
  have hp := toNat_bounds p.1
  have hp' := toNat_bounds p.2
  have hq := toNat_bounds q.1
  have hq' := toNat_bounds q.2
  obtain ⟨⟨hx0, hx1⟩, hy0, hy1⟩ := h
  simp only [plane] at hx0 hx1 hy0 hy1
  have hx := word_toNat (show 0 ≤ r.1 by omega) (by omega)
  have hy := word_toNat (show 0 ≤ r.2 by omega) (by omega)
  exact Prod.ext hx hy

/-- The coordinates drawn are the integer points themselves: none has wrapped. -/
theorem plane_linePoints (x0 y0 x1 y1 : Coord) :
    ∃ points, linePoints x0 y0 x1 y1 = some points ∧
      points.map plane = segment (plane (x0, y0)) (plane (x1, y1)) := by
  refine ⟨_, linePoints_eq x0 y0 x1 y1, ?_⟩
  rw [List.map_map]
  refine (List.map_congr_left fun r hr => ?_).trans (List.map_id _)
  exact plane_wordPoint ((segment_rasterises _ _).inBox r hr)

theorem plane_inj {p q : Coord × Coord} (h : plane p = plane q) : p = q := by
  obtain ⟨hx, hy⟩ := Prod.mk.inj h
  exact Prod.ext (BitVec.eq_of_toNat_eq (Int.ofNat_inj.mp hx))
    (BitVec.eq_of_toNat_eq (Int.ofNat_inj.mp hy))

theorem inBox_of_mem_linePoints {x0 y0 x1 y1 : Coord} {points : List (Coord × Coord)}
    (hpoints : linePoints x0 y0 x1 y1 = some points) {p : Coord × Coord} (hp : p ∈ points) :
    InBox (plane (x0, y0)) (plane (x1, y1)) (plane p) := by
  obtain ⟨points', hpoints', hplane⟩ := plane_linePoints x0 y0 x1 y1
  obtain rfl : points = points' := Option.some.inj (hpoints.symm.trans hpoints')
  apply (segment_rasterises _ _).inBox
  rw [← hplane]
  exact List.mem_map_of_mem hp

theorem last_mem_linePoints {x0 y0 x1 y1 : Coord} {points : List (Coord × Coord)}
    (hpoints : linePoints x0 y0 x1 y1 = some points) : (x1, y1) ∈ points := by
  obtain ⟨points', hpoints', hplane⟩ := plane_linePoints x0 y0 x1 y1
  obtain rfl : points = points' := Option.some.inj (hpoints.symm.trans hpoints')
  have hlast := (segment_rasterises (plane (x0, y0)) (plane (x1, y1))).last
  rw [← hplane] at hlast
  obtain ⟨p, hp, heq⟩ := List.mem_map.mp (List.mem_of_getLast? hlast)
  rwa [plane_inj heq] at hp

/-- `Gui_DrawLine` sets one window and calls `Gui_DrawPoint` once for each point of the
segment between its end points, in order. -/
theorem guiDrawLine_rasterises (x0 y0 x1 y1 : Coord) (color : Colour) :
    ∃ points, linePoints x0 y0 x1 y1 = some points ∧
      guiDrawLine x0 y0 x1 y1 color =
        some (tftSetAdd x0 y0 x0 y0 ++ points.flatMap fun p =>
          guiDrawPoint (p.1.setWidth 32) (p.2.setWidth 32) (color.setWidth 32)) ∧
      Rasterises (plane (x0, y0)) (plane (x1, y1)) (points.map plane) := by
  obtain ⟨points, hpoints, hplane⟩ := plane_linePoints x0 y0 x1 y1
  refine ⟨points, hpoints, ?_, ?_⟩
  · rw [guiDrawLine, hpoints, Option.map_some]
    rfl
  · rw [hplane]
    exact segment_rasterises _ _

end ExpertCar.GuiLine
