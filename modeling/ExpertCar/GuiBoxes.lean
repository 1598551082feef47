import ExpertCar.GuiLine

/-!
# Boxes and buttons

The frames drawn from lines: `Gui_box`, the three modes of `Gui_box2` and the two
buttons, each as the list of its lines. Every point of a line lies in the box of
its end points, so a widget stays inside a rectangle that contains all its end
points, and whatever lies outside keeps its colour. The buttons do. The frame of
the boxes draws its right side one pixel too far down.
-/
namespace ExpertCar.GuiBoxes
open StepRuns LcdPanel LcdText LcdRaster CheckedInt RasterLine GuiLine

def WHITE : Colour := 0xFFFF
def GRAY1 : Colour := 0x8410
def GRAY2 : Colour := 0x4208

/-- A call of `Gui_DrawLine`. -/
structure LineCall where
  x0 : Coord
  y0 : Coord
  x1 : Coord
  y1 : Coord
  color : Colour

def LineCall.points (l : LineCall) : Option (List (Coord × Coord)) :=
  linePoints l.x0 l.y0 l.x1 l.y1

def LineCall.sends (l : LineCall) : Option (List Send) :=
  guiDrawLine l.x0 l.y0 l.x1 l.y1 l.color

def drawnPoints : List LineCall → Option (List (Coord × Coord))
  | [] => some []
  | l :: ls => do
      let points ← l.points
      let rest ← drawnPoints ls
      some (points ++ rest)

def drawLines : List LineCall → Option (List Send)
  | [] => some []
  | l :: ls => do
      let sends ← l.sends
      let rest ← drawLines ls
      some (sends ++ rest)

/-- The four lines that all boxes have, in the two colours of a box. -/
def boxFrame (x y w h : Coord) (upper lower : Colour) : List LineCall :=
  [⟨x, y, x + w, y, upper⟩,
   ⟨x + w - 1, y + 1, x + w - 1, y + 1 + h, lower⟩,
   ⟨x, y + h, x + w, y + h, lower⟩,
   ⟨x, y, x, y + h, upper⟩]

def guiBox (x y w h : Coord) (bc : Colour) : List LineCall :=
  boxFrame x y w h 0xEF7D 0x2965 ++ [⟨x + 1, y + 1, x + 1 + w - 2, y + 1 + h - 2, bc⟩]

def guiBox2 (x y w h : Coord) (mode : Byte) : List LineCall :=
  (if mode = 0 then boxFrame x y w h 0xEF7D 0x2965 else []) ++
  (if mode = 1 then boxFrame x y w h 0x2965 0xEF7D else []) ++
  (if mode = 2 then boxFrame x y w h 0xFFFF 0xFFFF else [])

def displayButtonDown (x1 y1 x2 y2 : Coord) : List LineCall :=
  [⟨x1, y1, x2, y1, GRAY2⟩,
   ⟨x1 + 1, y1 + 1, x2, y1 + 1, GRAY1⟩,
   ⟨x1, y1, x1, y2, GRAY2⟩,
   ⟨x1 + 1, y1 + 1, x1 + 1, y2, GRAY1⟩,
   ⟨x1, y2, x2, y2, WHITE⟩,
   ⟨x2, y1, x2, y2, WHITE⟩]

def displayButtonUp (x1 y1 x2 y2 : Coord) : List LineCall :=
  [⟨x1, y1, x2, y1, WHITE⟩,
   ⟨x1, y1, x1, y2, WHITE⟩,
   ⟨x1 + 1, y2 - 1, x2, y2 - 1, GRAY1⟩,
   ⟨x1, y2, x2, y2, GRAY2⟩,
   ⟨x2 - 1, y1 + 1, x2 - 1, y2, GRAY1⟩,
   ⟨x2, y1, x2, y2, GRAY2⟩]

/-! ### Lines inside a rectangle -/

/-- The pixels `[x1, x2] × [y1, y2]`. -/
structure Area where
  x1 : ℕ
  y1 : ℕ
  x2 : ℕ
  y2 : ℕ

def Area.Contains (r : Area) (p : Coord × Coord) : Prop :=
  (r.x1 ≤ p.1.toNat ∧ p.1.toNat ≤ r.x2) ∧ (r.y1 ≤ p.2.toNat ∧ p.2.toNat ≤ r.y2)

/-- Both end points of the line lie in the rectangle. -/
def LineCall.Within (l : LineCall) (r : Area) : Prop :=
  r.Contains (l.x0, l.y0) ∧ r.Contains (l.x1, l.y1)

/-- Everything drawn lies in the rectangle, and all other pixels of the panel keep
their colours. -/
structure StaysInside (lines : List LineCall) (r : Area) : Prop where
  points : ∃ points, drawnPoints lines = some points ∧ ∀ p ∈ points, r.Contains p
  others : ∃ sends, drawLines lines = some sends ∧ ∀ panel p, ¬ r.Contains p →
    (run Panel.receive panel sends).content (pixel p.1.toNat p.2.toNat) =
      panel.content (pixel p.1.toNat p.2.toNat)

theorem contains_of_inBox {r : Area} {a b p : Coord × Coord} (ha : r.Contains a)
    (hb : r.Contains b) (h : InBox (plane a) (plane b) (plane p)) : r.Contains p := by
  obtain ⟨⟨hx0, hx1⟩, hy0, hy1⟩ := h
  obtain ⟨⟨hax, hax'⟩, hay, hay'⟩ := ha
  obtain ⟨⟨hbx, hbx'⟩, hby, hby'⟩ := hb
  simp only [plane] at hx0 hx1 hy0 hy1
  unfold Area.Contains
  omega

theorem LineCall.Within.contains {l : LineCall} {r : Area} (h : l.Within r)
    {points : List (Coord × Coord)} (hpoints : l.points = some points) :
    ∀ p ∈ points, r.Contains p := by
  intro p hp
  exact contains_of_inBox h.1 h.2 (inBox_of_mem_linePoints hpoints hp)

theorem toNat_extend (c : Coord) : (c.setWidth 32).toNat = c.toNat := by
  rw [BitVec.toNat_setWidth]
  exact Nat.mod_eq_of_lt (Nat.lt_trans c.isLt (by decide))

/-- A pixel that is none of the points drawn keeps its colour. -/
theorem run_drawPoints (panel : Panel) (color : Colour) (points : List (Coord × Coord))
    {p : Coord × Coord} (h : p ∉ points) :
    (run Panel.receive panel (drawPoints color points)).content (pixel p.1.toNat p.2.toNat) =
      panel.content (pixel p.1.toNat p.2.toNat) := by
  induction points generalizing panel with
  | nil => rfl
  | cons q points ih =>
      rw [List.mem_cons, not_or] at h
      have hne : pixel p.1.toNat p.2.toNat ≠
          pixel (q.1.setWidth 32).toNat (q.2.setWidth 32).toNat := by
        intro heq
        rw [toNat_extend, toNat_extend, pixel_inj p.1.isLt p.2.isLt q.1.isLt q.2.isLt] at heq
        exact h.1 (Prod.ext (BitVec.eq_of_toNat_eq heq.1) (BitVec.eq_of_toNat_eq heq.2))
      have hcons : drawPoints color (q :: points) =
          guiDrawPoint (q.1.setWidth 32) (q.2.setWidth 32) (color.setWidth 32) ++
            drawPoints color points := rfl
      rw [hcons, run_append, ih _ h.2, run_guiDrawPoint]
      exact Function.update_of_ne hne _ _

/-- A line inside the rectangle leaves what is outside. -/
theorem LineCall.Within.unchanged {l : LineCall} {r : Area} (h : l.Within r)
    {sends : List Send} (hsends : l.sends = some sends) (panel : Panel) {p : Coord × Coord}
    (hp : ¬ r.Contains p) :
    (run Panel.receive panel sends).content (pixel p.1.toNat p.2.toNat) =
      panel.content (pixel p.1.toNat p.2.toNat) := by
  obtain ⟨points, hpoints, -⟩ := plane_linePoints l.x0 l.y0 l.x1 l.y1
  have hmem : p ∉ points := fun hmem => hp (h.contains hpoints p hmem)
  rw [LineCall.sends, guiDrawLine, hpoints, Option.map_some, Option.some.injEq] at hsends
  rw [← hsends, run_append, run_drawPoints _ _ _ hmem, run_tftSetAdd]

theorem sends_isSome (l : LineCall) : ∃ sends, l.sends = some sends := by
  obtain ⟨points, hpoints, -⟩ := plane_linePoints l.x0 l.y0 l.x1 l.y1
  exact ⟨_, by rw [LineCall.sends, guiDrawLine, hpoints, Option.map_some]⟩

theorem points_isSome (l : LineCall) : ∃ points, l.points = some points := by
  obtain ⟨points, hpoints, -⟩ := plane_linePoints l.x0 l.y0 l.x1 l.y1
  exact ⟨points, hpoints⟩

/-- Lines with their end points inside stay inside: the induction is on the calls. -/
theorem staysInside_of_within {lines : List LineCall} {r : Area} (h : ∀ l ∈ lines, l.Within r) :
    StaysInside lines r := by
  induction lines with
  | nil =>
      exact ⟨⟨[], rfl, fun p hp => (List.not_mem_nil hp).elim⟩, [], rfl, fun panel p _ => rfl⟩
  | cons l lines ih =>
      have hl := h l List.mem_cons_self
      obtain ⟨⟨rest, hrest, hinside⟩, others, hothers, hkept⟩ :=
        ih fun l' hl' => h l' (List.mem_cons_of_mem l hl')
      obtain ⟨points, hpoints⟩ := points_isSome l
      obtain ⟨sends, hsends⟩ := sends_isSome l
      refine ⟨⟨points ++ rest, ?_, ?_⟩, sends ++ others, ?_, ?_⟩
      · rw [drawnPoints, hpoints, hrest]
        rfl
      · intro p hp
        rcases List.mem_append.mp hp with hfirst | hlater
        · exact hl.contains hpoints p hfirst
        · exact hinside p hlater
      · rw [drawLines, hsends, hothers]
        rfl
      · intro panel p hp
        rw [run_append, hkept _ p hp, hl.unchanged hsends panel hp]

/-- The last point of each line is drawn. -/
theorem end_mem_drawnPoints {lines : List LineCall} {points : List (Coord × Coord)}
    (hpoints : drawnPoints lines = some points) {l : LineCall} (hl : l ∈ lines) :
    (l.x1, l.y1) ∈ points := by
  induction lines generalizing points with
  | nil => exact (List.not_mem_nil hl).elim
  | cons l' lines ih =>
      obtain ⟨first, hfirst⟩ := points_isSome l'
      rw [drawnPoints, hfirst] at hpoints
      cases hrest : drawnPoints lines with
      | none =>
          rw [hrest] at hpoints
          exact (Option.some_ne_none points hpoints.symm).elim
      | some rest =>
          rw [hrest] at hpoints
          obtain rfl : first ++ rest = points := Option.some.inj hpoints
          rcases List.mem_cons.mp hl with heq | hlater
          · subst heq
            exact List.mem_append_left _ (last_mem_linePoints hfirst)
          · exact List.mem_append_right _ (ih hrest hlater)

theorem not_staysInside {lines : List LineCall} {r : Area} {l : LineCall} (hl : l ∈ lines)
    (hout : ¬ r.Contains (l.x1, l.y1)) : ¬ StaysInside lines r := by
  intro h
  obtain ⟨points, hpoints, hinside⟩ := h.points
  exact hout (hinside _ (end_mem_drawnPoints hpoints hl))

/-! ### The widgets -/

/-- A box as it may be asked for. -/
structure BoxArgs where
  x : Coord
  y : Coord
  w : Coord
  h : Coord
  wMin : 2 ≤ w.toNat
  hMin : 2 ≤ h.toNat
  xFits : x.toNat + w.toNat < 65535
  yFits : y.toNat + h.toNat < 65535

/-- The corners of a button. -/
structure ButtonArgs where
  x1 : Coord
  y1 : Coord
  x2 : Coord
  y2 : Coord
  xLt : x1.toNat < x2.toNat
  yLt : y1.toNat < y2.toNat

def BoxArgs.area (b : BoxArgs) : Area :=
  ⟨b.x.toNat, b.y.toNat, b.x.toNat + b.w.toNat, b.y.toNat + b.h.toNat⟩

def ButtonArgs.area (b : ButtonArgs) : Area :=
  ⟨b.x1.toNat, b.y1.toNat, b.x2.toNat, b.y2.toNat⟩

theorem ButtonArgs.inner (b : ButtonArgs) :
    (b.x1 + 1).toNat = b.x1.toNat + 1 ∧ (b.y1 + 1).toNat = b.y1.toNat + 1 ∧
      (b.x2 - 1).toNat = b.x2.toNat - 1 ∧ (b.y2 - 1).toNat = b.y2.toNat - 1 := by
  have hx := b.xLt
  have hy := b.yLt
  have hx2 := b.x2.isLt
  have hy2 := b.y2.isLt
  have hone : (1 : Coord).toNat = 1 := rfl
  refine ⟨?_, ?_, ?_, ?_⟩
  · rw [toNat_add_of_lt (by omega), hone]
  · rw [toNat_add_of_lt (by omega), hone]
  · rw [toNat_sub_of_le (by omega), hone]
  · rw [toNat_sub_of_le (by omega), hone]

theorem displayButtonDown_within (b : ButtonArgs) :
    ∀ l ∈ displayButtonDown b.x1 b.y1 b.x2 b.y2, l.Within b.area := by
  obtain ⟨hx1, hy1, -, -⟩ := b.inner
  have hx := b.xLt
  have hy := b.yLt
  intro l hl
  simp only [displayButtonDown, List.mem_cons, List.not_mem_nil, or_false] at hl
  rcases hl with rfl | rfl | rfl | rfl | rfl | rfl <;>
    simp only [LineCall.Within, Area.Contains, ButtonArgs.area, hx1, hy1] <;> omega

theorem displayButtonUp_within (b : ButtonArgs) :
    ∀ l ∈ displayButtonUp b.x1 b.y1 b.x2 b.y2, l.Within b.area := by
  obtain ⟨hx1, hy1, hx2, hy2⟩ := b.inner
  have hx := b.xLt
  have hy := b.yLt
  intro l hl
  simp only [displayButtonUp, List.mem_cons, List.not_mem_nil, or_false] at hl
  rcases hl with rfl | rfl | rfl | rfl | rfl | rfl <;>
    simp only [LineCall.Within, Area.Contains, ButtonArgs.area, hx1, hy1, hx2, hy2] <;> omega

theorem BoxArgs.side_end (b : BoxArgs) :
    (b.y + 1 + b.h).toNat = b.y.toNat + 1 + b.h.toNat := by
  have hy := b.yFits
  have hbelow : (b.y + 1).toNat = b.y.toNat + 1 := toNat_add_of_lt (show _ + 1 < 65536 by omega)
  rw [toNat_add_of_lt (by omega), hbelow]

/-- The right side of a frame ends in the row below the rectangle. -/
theorem boxFrame_leaks (b : BoxArgs) (upper lower : Colour) {lines : List LineCall}
    (h : boxFrame b.x b.y b.w b.h upper lower ⊆ lines) : ¬ StaysInside lines b.area := by
  have hside : (⟨b.x + b.w - 1, b.y + 1, b.x + b.w - 1, b.y + 1 + b.h, lower⟩ : LineCall) ∈
      boxFrame b.x b.y b.w b.h upper lower := List.mem_cons_of_mem _ List.mem_cons_self
  apply not_staysInside (h hside)
  rintro ⟨-, -, hbelow⟩
  simp only [b.side_end, BoxArgs.area] at hbelow
  omega

/-! ### All of them -/

inductive Widget where
  | guiBox (b : BoxArgs) (bc : Colour)
  | guiBox2 (b : BoxArgs) (mode : Byte)
  | displayButtonDown (b : ButtonArgs)
  | displayButtonUp (b : ButtonArgs)

namespace Widget

def lines : Widget → List LineCall
  | guiBox b bc => GuiBoxes.guiBox b.x b.y b.w b.h bc
  | guiBox2 b mode => GuiBoxes.guiBox2 b.x b.y b.w b.h mode
  | displayButtonDown b => GuiBoxes.displayButtonDown b.x1 b.y1 b.x2 b.y2
  | displayButtonUp b => GuiBoxes.displayButtonUp b.x1 b.y1 b.x2 b.y2

/-- The rectangle the widget is given. -/
def area : Widget → Area
  | guiBox b _ => b.area
  | guiBox2 b _ => b.area
  | displayButtonDown b => b.area
  | displayButtonUp b => b.area

/-- Buttons, and boxes in a mode that draws nothing. -/
def Fits : Widget → Prop
  | guiBox _ _ => False
  | guiBox2 _ mode => mode ≠ 0 ∧ mode ≠ 1 ∧ mode ≠ 2
  | displayButtonDown _ => True
  | displayButtonUp _ => True

theorem guiBox2_leaks (b : BoxArgs) {mode : Byte} (h : mode = 0 ∨ mode = 1 ∨ mode = 2) :
    ¬ StaysInside (GuiBoxes.guiBox2 b.x b.y b.w b.h mode) b.area := by
  rcases h with rfl | rfl | rfl
  · exact boxFrame_leaks b 0xEF7D 0x2965 fun l hl => hl
  · exact boxFrame_leaks b 0x2965 0xEF7D fun l hl => hl
  · exact boxFrame_leaks b 0xFFFF 0xFFFF fun l hl => hl

/-- A widget stays inside its rectangle exactly when it is a button, or a box in a
mode that draws nothing. -/
theorem staysInside_iff (g : Widget) : StaysInside g.lines g.area ↔ g.Fits := by
  cases g with
  | guiBox b bc =>
      have hleak := boxFrame_leaks b 0xEF7D 0x2965
        (List.subset_append_left _ [⟨b.x + 1, b.y + 1, b.x + 1 + b.w - 2, b.y + 1 + b.h - 2, bc⟩])
      exact iff_of_false hleak id
  | guiBox2 b mode =>
      by_cases hmode : mode = 0 ∨ mode = 1 ∨ mode = 2
      · refine iff_of_false (guiBox2_leaks b hmode) fun h => ?_
        rcases hmode with h0 | h1 | h2
        · exact h.1 h0
        · exact h.2.1 h1
        · exact h.2.2 h2
      · rw [not_or, not_or] at hmode
        have hnone : GuiBoxes.guiBox2 b.x b.y b.w b.h mode = [] := by
          rw [GuiBoxes.guiBox2, if_neg hmode.1, if_neg hmode.2.1, if_neg hmode.2.2]
          rfl
        refine iff_of_true ?_ hmode
        rw [lines, hnone]
        exact staysInside_of_within fun l hl => (List.not_mem_nil hl).elim
  | displayButtonDown b =>
      exact iff_of_true (staysInside_of_within (displayButtonDown_within b)) trivial
  | displayButtonUp b =>
      exact iff_of_true (staysInside_of_within (displayButtonUp_within b)) trivial

end Widget

/-- A box of two by two pixels at the corner of the panel draws the pixel (1, 3). -/
theorem smallest_box_leaks : ¬ StaysInside (guiBox 0 0 2 2 0) ⟨0, 0, 2, 2⟩ := by
  have hside : (⟨0 + 2 - 1, 0 + 1, 0 + 2 - 1, 0 + 1 + 2, 0x2965⟩ : LineCall) ∈ guiBox 0 0 2 2 0 :=
    List.mem_cons_of_mem _ List.mem_cons_self
  apply not_staysInside hside
  rintro ⟨-, -, hbelow⟩
  exact absurd hbelow (by decide)

end ExpertCar.GuiBoxes
