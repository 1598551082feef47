import ExpertCar.GuiLine
import ExpertCar.RasterCircle

/-!
# Circles on the panel

`Gui_Circle` as the list of points it draws around its centre. The loop runs
while `a < b`, and the decision variable is the one of the walk along an eighth of
the circle, so the loop visits the points of the walk. It ends because `b - a`
falls; `b` is positive where it is decremented. The points drawn after the loop
name one of the eight twice and leave out another, which on the diagonal is drawn
by a third.
-/
namespace ExpertCar.GuiCircle
open StepRuns LcdPanel LcdRaster CheckedInt RasterCircle
open GuiLine (plane)

/-- `X + a`, an `int` passed as `unsigned int`. -/
def plus (c a : Coord) : BitVec 32 := c.setWidth 32 + a.setWidth 32

/-- `X - a`, an `int` passed as `unsigned int`. -/
def minus (c a : Coord) : BitVec 32 := c.setWidth 32 - a.setWidth 32

/-- Arguments of the eight calls of `Gui_DrawPoint` in the loop. -/
def loopPoints (X Y a b : Coord) : List (BitVec 32 × BitVec 32) :=
  [(plus X a, plus Y b), (minus X a, plus Y b), (plus X a, minus Y b), (minus X a, minus Y b),
   (plus X b, plus Y a), (minus X b, plus Y a), (plus X b, minus Y a), (minus X b, minus Y a)]

/-- The eight calls after the loop, the first of them made twice. -/
def diagonalPoints (X Y a b : Coord) : List (BitVec 32 × BitVec 32) :=
  [(plus X a, plus Y b), (plus X a, plus Y b), (plus X a, minus Y b), (minus X a, minus Y b),
   (plus X b, plus Y a), (minus X b, plus Y a), (plus X b, minus Y a), (minus X b, minus Y a)]

/-- `if(c<0) c=c+4*a+6; else { c=c+4*(a-b)+10; b-=1; }` -/
def circleStep (a b : Coord) (c : ℤ) : Option (Coord × ℤ) :=
  if c < 0 then do
    let t ← checked (c + 4 * a.toNat)
    let c ← checked (t + 6)
    some (b, c)
  else do
    let t ← checked (c + 4 * ((a.toNat : ℤ) - b.toNat))
    let c ← checked (t + 10)
    some (b - 1, c)

theorem circleStep_cases {a b b' : Coord} {c c' : ℤ} (h : circleStep a b c = some (b', c')) :
    b' = b ∨ b' = b - 1 := by
  unfold circleStep at h
  split_ifs at h
  · simp only [Option.bind_eq_bind, Option.bind_eq_some_iff, Option.some.injEq,
      Prod.mk.injEq] at h
    obtain ⟨t, -, v, -, hb, -⟩ := h
    exact Or.inl hb.symm
  · simp only [Option.bind_eq_bind, Option.bind_eq_some_iff, Option.some.injEq,
      Prod.mk.injEq] at h
    obtain ⟨t, -, v, -, hb, -⟩ := h
    exact Or.inr hb.symm

theorem toNat_succ_of_lt {a b : Coord} (h : a < b) : (a + 1).toNat = a.toNat + 1 := by
  have hb := b.isLt
  have hlt : a.toNat < b.toNat := h
  exact toNat_add_of_lt (show a.toNat + 1 < 65536 by omega)

theorem toNat_pred_of_lt {a b : Coord} (h : a < b) : (b - 1).toNat = b.toNat - 1 := by
  have hlt : a.toNat < b.toNat := h
  exact BitVec.toNat_sub_of_le (show 1 ≤ b.toNat by omega)

/-- The loop: the values of `a` and `b` at which it draws, and those at its end. -/
def circleLoop (a b : Coord) (c : ℤ) : Option (List (Coord × Coord) × Coord × Coord) :=
  if a < b then
    match hstep : circleStep a b c with
    | none => none
    | some (b', c') => (circleLoop (a + 1) b' c').map fun r => ((a, b) :: r.1, r.2)
  else some ([], a, b)
  termination_by b.toNat - a.toNat
  decreasing_by
    have hsucc := toNat_succ_of_lt ‹a < b›
    have hpred := toNat_pred_of_lt ‹a < b›
    have hab : a.toNat < b.toNat := ‹a < b›
    rcases circleStep_cases hstep with h | h
    · rw [h, hsucc]
      omega
    · rw [h, hsucc, hpred]
      omega

/-- Arguments of all calls of `Gui_DrawPoint`, in order. -/
def circlePoints (X Y R : Coord) : Option (List (BitVec 32 × BitVec 32)) := do
  let t ← checked (2 * R.toNat)
  let c ← checked (3 - t)
  let (ps, a, b) ← circleLoop 0 R c
  some (ps.flatMap (fun p => loopPoints X Y p.1 p.2) ++
    if a = b then diagonalPoints X Y a b else [])

def guiCircle (X Y R : Coord) (fc : Colour) : Option (List Send) :=
  (circlePoints X Y R).map fun points =>
    points.flatMap fun p => guiDrawPoint p.1 p.2 (fc.setWidth 32)

/-! ### The loop walks along the circle -/

theorem circleStep_eq {R : ℤ} {a b : Coord} (h : OnArc R (plane (a, b))) (hlt : a < b) :
    circleStep a b (decision R a.toNat b.toNat) =
      if decision R a.toNat b.toNat < 0 then some (b, decision R (a.toNat + 1) b.toNat)
      else some (b - 1, decision R (a.toNat + 1) (b.toNat - 1)) := by
  have hab : a.toNat < b.toNat := hlt
  have hb := b.isLt
  have hclose := h.close (show (a.toNat : ℤ) ≤ b.toNat by omega)
  have hdecision := decision_eq R a.toNat b.toNat
  simp only [plane] at hclose
  have hright := decision_right R a.toNat b.toNat
  have hdown := decision_down R a.toNat b.toNat
  have hrange {v : ℤ} (hlow : -1000000 ≤ v) (hhigh : v ≤ 1000000) : checked v = some v :=
    checked_eq ⟨by omega, by omega⟩
  unfold circleStep
  split_ifs with hc
  · rw [hrange (by omega) (by omega)]
    simp only [Option.bind_eq_bind, Option.bind_some]
    rw [hrange (by omega) (by omega), Option.bind_some, hright]
  · rw [hrange (by omega) (by omega)]
    simp only [Option.bind_eq_bind, Option.bind_some]
    rw [hrange (by omega) (by omega), Option.bind_some, hdown]

theorem circleLoop_cons {a b b' : Coord} {c c' : ℤ} (hlt : a < b)
    (hstep : circleStep a b c = some (b', c')) :
    circleLoop a b c = (circleLoop (a + 1) b' c').map fun r => ((a, b) :: r.1, r.2) := by
  rw [circleLoop, if_pos hlt]
  split
  · next hnone => exact (Option.some_ne_none _ (hstep.symm.trans hnone)).elim
  · next hsome =>
      obtain ⟨rfl, rfl⟩ := Prod.mk.inj (Option.some.inj (hstep.symm.trans hsome))
      rfl

theorem plane_right {a b : Coord} (hlt : a < b) :
    plane (a + 1, b) = ((a.toNat : ℤ) + 1, (b.toNat : ℤ)) := by
  rw [plane, toNat_succ_of_lt hlt, Nat.cast_succ]

theorem plane_down {a b : Coord} (hlt : a < b) :
    plane (a + 1, b - 1) = ((a.toNat : ℤ) + 1, (b.toNat : ℤ) - 1) := by
  have hab : a.toNat < b.toNat := hlt
  rw [plane, toNat_succ_of_lt hlt, toNat_pred_of_lt hlt, Nat.cast_succ,
    Nat.cast_sub (by omega), Nat.cast_one]

/-- From a point on the arc the loop is the walk, and neither coordinate wraps: the
induction is on the distance to the diagonal. -/
theorem circleLoop_walk {R : ℤ} (a b : Coord) (h : OnArc R (plane (a, b))) :
    ∃ ps e, circleLoop a b (decision R a.toNat b.toNat) = some (ps, e) ∧
      Walk R (plane (a, b)) (ps.map plane) (plane e) := by
  induction hn : b.toNat - a.toNat using Nat.strongRecOn generalizing a b with
  | ind n ih =>
      by_cases hlt : a < b
      · have hab : a.toNat < b.toNat := hlt
        have hplane : (plane (a, b)).1 < (plane (a, b)).2 := Int.ofNat_lt.mpr hab
        have hnext := onArc_next h hplane
        have hstep := circleStep_eq h hlt
        have hsucc := toNat_succ_of_lt hlt
        have hpred := toNat_pred_of_lt hlt
        have hright := plane_right hlt
        have hdown := plane_down hlt
        by_cases hc : decision R a.toNat b.toNat < 0
        · have heq : next R (plane (a, b)) = plane (a + 1, b) := (if_pos hc).trans hright.symm
          rw [heq] at hnext
          obtain ⟨ps, e, hrun, hwalk⟩ := ih _ (by omega) (a + 1) b hnext rfl
          rw [if_pos hc] at hstep
          rw [hsucc, Nat.cast_succ] at hrun
          refine ⟨(a, b) :: ps, e, ?_, Walk.step hplane (heq ▸ hwalk)⟩
          rw [circleLoop_cons hlt hstep, hrun]
          rfl
        · have heq : next R (plane (a, b)) = plane (a + 1, b - 1) :=
            (if_neg hc).trans hdown.symm
          rw [heq] at hnext
          obtain ⟨ps, e, hrun, hwalk⟩ := ih _ (by omega) (a + 1) (b - 1) hnext rfl
          rw [if_neg hc] at hstep
          rw [hsucc, hpred, Nat.cast_succ, Nat.cast_sub (by omega), Nat.cast_one] at hrun
          refine ⟨(a, b) :: ps, e, ?_, Walk.step hplane (heq ▸ hwalk)⟩
          rw [circleLoop_cons hlt hstep, hrun]
          rfl
      · have hle : b.toNat ≤ a.toNat := Nat.le_of_not_lt hlt
        refine ⟨[], (a, b), ?_, Walk.stop (Int.ofNat_le.mpr hle)⟩
        rw [circleLoop, if_neg hlt]

/-! ### The points around the centre -/

/-- A centre and a radius with the whole circle in the range of coordinates. -/
structure CircleArgs where
  X : Coord
  Y : Coord
  R : Coord
  left : R.toNat ≤ X.toNat
  top : R.toNat ≤ Y.toNat
  right : X.toNat + R.toNat ≤ 65535
  bottom : Y.toNat + R.toNat ≤ 65535

/-- Offset from the centre of the pixel that a call of `Gui_DrawPoint` sets, which
takes the low sixteen bits of its arguments. -/
def offset (X Y : Coord) (p : BitVec 32 × BitVec 32) : ℤ × ℤ :=
  ((p.1.setWidth 16).toNat - X.toNat, (p.2.setWidth 16).toNat - Y.toNat)

theorem plus_offset {c a : Coord} (h : c.toNat + a.toNat ≤ 65535) :
    (((plus c a).setWidth 16).toNat : ℤ) - c.toNat = a.toNat := by
  have hback : (plus c a).setWidth 16 = c + a := by
    rw [plus, BitVec.setWidth_add _ _ (by omega), BitVec.setWidth_setWidth_of_le _ (by omega),
      BitVec.setWidth_setWidth_of_le _ (by omega), BitVec.setWidth_eq, BitVec.setWidth_eq]
  rw [hback, toNat_add_of_lt (by omega)]
  omega

theorem minus_offset {c a : Coord} (h : a.toNat ≤ c.toNat) :
    (((minus c a).setWidth 16).toNat : ℤ) - c.toNat = -a.toNat := by
  have hc := c.isLt
  have hlow : (minus c a).toNat = c.toNat - a.toNat := by
    have hca : (a.setWidth 32).toNat ≤ (c.setWidth 32).toNat := by
      rw [BitVec.toNat_setWidth, BitVec.toNat_setWidth]
      omega
    rw [minus, BitVec.toNat_sub_of_le hca, BitVec.toNat_setWidth, BitVec.toNat_setWidth]
    omega
  rw [BitVec.toNat_setWidth, hlow]
  omega

section Centre
variable (g : CircleArgs) {a b : Coord} (ha : a.toNat ≤ g.R.toNat) (hb : b.toNat ≤ g.R.toNat)
include ha hb

/-- The loop draws the eight reflections of its point. -/
theorem loopPoints_offset :
    (loopPoints g.X g.Y a b).map (offset g.X g.Y) = reflections (plane (a, b)) := by
  have hleft := g.left
  have htop := g.top
  have hright := g.right
  have hbottom := g.bottom
  have hXa := plus_offset (c := g.X) (a := a) (by omega)
  have hXb := plus_offset (c := g.X) (a := b) (by omega)
  have hYa := plus_offset (c := g.Y) (a := a) (by omega)
  have hYb := plus_offset (c := g.Y) (a := b) (by omega)
  have hXa' := minus_offset (c := g.X) (a := a) (by omega)
  have hXb' := minus_offset (c := g.X) (a := b) (by omega)
  have hYa' := minus_offset (c := g.Y) (a := a) (by omega)
  have hYb' := minus_offset (c := g.Y) (a := b) (by omega)
  simp only [loopPoints, List.map_cons, List.map_nil, offset, hXa, hXb, hYa, hYb, hXa', hXb',
    hYa', hYb', reflections, plane]

omit hb in
/-- On the diagonal the calls after the loop draw the same pixels as the loop would. -/
theorem mem_diagonalPoints_offset (o : ℤ × ℤ) :
    o ∈ (diagonalPoints g.X g.Y a a).map (offset g.X g.Y) ↔ o ∈ reflections (plane (a, a)) := by
  have hsame (p : BitVec 32 × BitVec 32) :
      p ∈ diagonalPoints g.X g.Y a a ↔ p ∈ loopPoints g.X g.Y a a := by
    simp only [diagonalPoints, loopPoints, List.mem_cons, List.not_mem_nil, or_false]
    tauto
  rw [← loopPoints_offset g ha ha, List.mem_map, List.mem_map]
  simp only [hsame]

end Centre

/-- All calls of `Gui_DrawPoint` for the points visited and the end of the loop. -/
def allPoints (g : CircleArgs) (ps : List (Coord × Coord)) (a b : Coord) :
    List (BitVec 32 × BitVec 32) :=
  ps.flatMap (fun p => loopPoints g.X g.Y p.1 p.2) ++
    if a = b then diagonalPoints g.X g.Y a b else []

theorem mem_loop_offset (g : CircleArgs) {ps : List (Coord × Coord)}
    (hps : ∀ p ∈ ps, p.1.toNat ≤ g.R.toNat ∧ p.2.toNat ≤ g.R.toNat) (o : ℤ × ℤ) :
    o ∈ (ps.flatMap fun p => loopPoints g.X g.Y p.1 p.2).map (offset g.X g.Y) ↔
      ∃ p ∈ ps.map plane, o ∈ reflections p := by
  rw [List.map_flatMap, List.mem_flatMap]
  constructor
  · rintro ⟨p, hp, ho⟩
    rw [loopPoints_offset g (hps p hp).1 (hps p hp).2] at ho
    exact ⟨plane p, List.mem_map_of_mem hp, ho⟩
  · rintro ⟨r, hr, ho⟩
    obtain ⟨p, hp, rfl⟩ := List.mem_map.mp hr
    refine ⟨p, hp, ?_⟩
    rw [loopPoints_offset g (hps p hp).1 (hps p hp).2]
    exact ho

theorem mem_allPoints_offset (g : CircleArgs) {ps : List (Coord × Coord)} {a b : Coord}
    (hps : ∀ p ∈ ps, p.1.toNat ≤ g.R.toNat ∧ p.2.toNat ≤ g.R.toNat)
    (hb : b.toNat ≤ g.R.toNat) (o : ℤ × ℤ) :
    o ∈ (allPoints g ps a b).map (offset g.X g.Y) ↔
      ∃ p ∈ arc (ps.map plane) (plane (a, b)), o ∈ reflections p := by
  have hdiag : (plane (a, b)).1 = (plane (a, b)).2 ↔ a = b := by
    rw [plane, Int.ofNat_inj, BitVec.toNat_inj]
  rw [allPoints, List.map_append, List.mem_append, mem_loop_offset g hps]
  by_cases hab : a = b
  · subst hab
    rw [arc, if_pos rfl, if_pos (hdiag.mpr rfl), mem_diagonalPoints_offset g hb]
    constructor
    · rintro (⟨p, hp, ho⟩ | ho)
      · exact ⟨p, List.mem_append_left _ hp, ho⟩
      · exact ⟨plane (a, a), List.mem_append_right _ (List.mem_singleton.mpr rfl), ho⟩
    · rintro ⟨p, hp, ho⟩
      rcases List.mem_append.mp hp with hbefore | hend
      · exact Or.inl ⟨p, hbefore, ho⟩
      · rw [List.mem_singleton.mp hend] at ho
        exact Or.inr ho
  · rw [arc, if_neg (mt hdiag.mp hab), if_neg hab, List.map_nil]
    exact or_iff_left (List.not_mem_nil)

theorem onArc_toNat_le {R a b : Coord} (h : OnArc R.toNat (plane (a, b))) (hab : a.toNat ≤ b.toNat) :
    a.toNat ≤ R.toNat ∧ b.toNat ≤ R.toNat := by
  have hbound : b.toNat ≤ R.toNat := Int.ofNat_le.mp h.bound
  exact ⟨Nat.le_trans hab hbound, hbound⟩

/-- `Gui_Circle` ends and draws the circle; at its end `a` has met `b` or passed it
by one. -/
theorem guiCircle_draws (g : CircleArgs) (fc : Colour) :
    ∃ ps a b points,
      circleLoop 0 g.R (3 - 2 * g.R.toNat) = some (ps, a, b) ∧
      (a.toNat = b.toNat ∨ a.toNat = b.toNat + 1) ∧
      circlePoints g.X g.Y g.R = some points ∧
      guiCircle g.X g.Y g.R fc =
        some (points.flatMap fun p => guiDrawPoint p.1 p.2 (fc.setWidth 32)) ∧
      Draws g.R.toNat (arc (ps.map plane) (plane (a, b))) (points.map (offset g.X g.Y)) := by
  have hR : (0 : ℤ) ≤ g.R.toNat := Int.natCast_nonneg _
  have hlt := g.R.isLt
  have hstart : OnArc (g.R.toNat : ℤ) (plane (0, g.R)) := onArc_start hR
  obtain ⟨ps, ⟨a, b⟩, hloop, hwalk⟩ := circleLoop_walk 0 g.R hstart
  have hdecision : decision g.R.toNat ((0 : Coord).toNat : ℤ) g.R.toNat = 3 - 2 * g.R.toNat :=
    decision_start _
  rw [hdecision] at hloop
  obtain ⟨hps, hend, hstop⟩ := hwalk.onArc hstart
  have hpast := hend.past
  simp only [plane] at hpast hstop
  have hbounds : ∀ p ∈ ps, p.1.toNat ≤ g.R.toNat ∧ p.2.toNat ≤ g.R.toNat := by
    intro p hp
    obtain ⟨honArc, hbelow⟩ := hps (plane p) (List.mem_map_of_mem hp)
    exact onArc_toNat_le honArc (Int.ofNat_le.mp (le_of_lt hbelow))
  have hb : b.toNat ≤ g.R.toNat := Int.ofNat_le.mp hend.bound
  have hpoints : circlePoints g.X g.Y g.R = some (allPoints g ps a b) := by
    have hdouble : checked (2 * g.R.toNat) = some (2 * (g.R.toNat : ℤ)) :=
      checked_eq ⟨by omega, by omega⟩
    have hinit : checked (3 - 2 * g.R.toNat) = some (3 - 2 * (g.R.toNat : ℤ)) :=
      checked_eq ⟨by omega, by omega⟩
    simp only [circlePoints, hdouble, hinit, hloop, Option.bind_eq_bind, Option.bind_some]
    rfl
  refine ⟨ps, a, b, allPoints g ps a b, hloop, by omega, hpoints, ?_, ?_⟩
  · rw [guiCircle, hpoints, Option.map_some]
  · exact draws_of_octant (hwalk.octant hR) (mem_allPoints_offset g hbounds hb)

end ExpertCar.GuiCircle
