import ExpertCar.MachineWords
import ExpertCar.StepRuns
import Mathlib.Data.Nat.ModEq
import Mathlib.Logic.Function.Basic

/-!
# The display controller

The panel as the bytes reach it: `0x2A` and `0x2B` with four data bytes each set
the columns and rows of the window, `0x2C` starts a write at its first corner,
and then every two data bytes are one pixel. The write position runs through the
window row by row and returns to the first corner after the last pixel.
Coordinates are 16-bit words and wrap. `stream_content` says what any number of
pixels up to a full window leaves on the panel.
-/
namespace ExpertCar.LcdPanel
open StepRuns

abbrev Coord := BitVec 16
abbrev Colour := BitVec 16
abbrev Addr := Coord × Coord

/-- A byte with the level of DC: `TFT_SEND_CMD` or `TFT_SEND_DATA`. -/
inductive Send where
  | cmd (byte : Byte)
  | data (byte : Byte)
  deriving DecidableEq, Repr

inductive Mode where
  | columns (params : List Byte)
  | rows (params : List Byte)
  | write (pending : Option Byte)
  | other

structure Panel where
  mode : Mode
  colStart : Coord
  colEnd : Coord
  rowStart : Coord
  rowEnd : Coord
  col : Coord
  row : Coord
  content : Addr → Colour

def Panel.receiveCmd (byte : Byte) (p : Panel) : Panel :=
  if byte = 0x2A then { p with mode := .columns [] }
  else if byte = 0x2B then { p with mode := .rows [] }
  else if byte = 0x2C then { p with mode := .write none, col := p.colStart, row := p.rowStart }
  else { p with mode := .other }

/-- One pixel at the write position, which moves on. -/
def Panel.plot (colour : Colour) (p : Panel) : Panel :=
  { p with
    mode := .write none
    col := if p.col = p.colEnd then p.colStart else p.col + 1
    row := if p.col = p.colEnd then (if p.row = p.rowEnd then p.rowStart else p.row + 1) else p.row
    content := Function.update p.content (p.col, p.row) colour }

def Panel.receiveData (byte : Byte) (p : Panel) : Panel :=
  match p.mode with
  | .columns [sh, sl, eh] =>
      { p with mode := .other, colStart := sh ++ sl, colEnd := eh ++ byte }
  | .columns params => { p with mode := .columns (params ++ [byte]) }
  | .rows [sh, sl, eh] =>
      { p with mode := .other, rowStart := sh ++ sl, rowEnd := eh ++ byte }
  | .rows params => { p with mode := .rows (params ++ [byte]) }
  | .write none => { p with mode := .write (some byte) }
  | .write (some high) => p.plot (high ++ byte)
  | .other => p

def Panel.receive (p : Panel) : Send → Panel
  | .cmd byte => p.receiveCmd byte
  | .data byte => p.receiveData byte

/-- A blank panel whose window is a single cell. -/
def Panel.reset : Panel := ⟨.other, 0, 0, 0, 0, 0, 0, fun _ => 0xFFFF⟩

/-- A 16-bit word as two data sends, high byte first. -/
def sendWord (x : BitVec 16) : List Send :=
  [.data ((x >>> 8).setWidth 8), .data (x.setWidth 8)]

theorem high_append_low (x : BitVec 16) : (x >>> 8).setWidth 8 ++ x.setWidth 8 = x := by
  apply BitVec.eq_of_getLsbD_eq
  intro i hi
  rw [BitVec.getLsbD_append]
  by_cases h : i < 8
  · simp [h]
  · have h8 : i - 8 < 8 := by omega
    have hsum : 8 + (i - 8) = i := by omega
    simp [h, h8, hsum]

theorem receive_sendWord {p : Panel} (h : p.mode = .write none) (colour : Colour) :
    run Panel.receive p (sendWord colour) = p.plot colour := by
  simp only [sendWord, run_cons, run_nil, Panel.receive, Panel.receiveData, h]
  rw [high_append_low]
  rfl

/-! ### Windows -/

structure Window where
  x : Coord
  y : Coord
  w : ℕ
  h : ℕ
  wPos : 0 < w
  wLe : w ≤ 65536
  hPos : 0 < h
  hLe : h ≤ 65536

namespace Window
variable (win : Window)

def cell (k : ℕ) : Addr :=
  (win.x + BitVec.ofNat 16 (k % win.w), win.y + BitVec.ofNat 16 (k / win.w))

def Inside (a : Addr) : Prop := (a.1 - win.x).toNat < win.w ∧ (a.2 - win.y).toNat < win.h

instance (a : Addr) : Decidable (win.Inside a) := inferInstanceAs (Decidable (_ ∧ _))

def index (a : Addr) : ℕ := (a.2 - win.y).toNat * win.w + (a.1 - win.x).toNat

theorem row_lt {k : ℕ} (hk : k < win.w * win.h) : k / win.w < win.h :=
  Nat.div_lt_of_lt_mul hk

theorem offset_toNat (base : Coord) {d : ℕ} (hd : d < 65536) :
    (base + BitVec.ofNat 16 d - base).toNat = d := by
  have : base + BitVec.ofNat 16 d - base = BitVec.ofNat 16 d := by
    rw [BitVec.add_comm, BitVec.add_sub_cancel]
  rw [this, BitVec.toNat_ofNat]
  exact Nat.mod_eq_of_lt hd

theorem cell_inside {k : ℕ} (hk : k < win.w * win.h) : win.Inside (win.cell k) := by
  have hcol := Nat.mod_lt k win.wPos
  have hrow := win.row_lt hk
  have := win.wLe
  have := win.hLe
  unfold Inside cell
  rw [offset_toNat _ (by omega), offset_toNat _ (by omega)]
  exact ⟨hcol, hrow⟩

theorem index_cell {k : ℕ} (hk : k < win.w * win.h) : win.index (win.cell k) = k := by
  have hcol := Nat.mod_lt k win.wPos
  have hrow := win.row_lt hk
  have := win.wLe
  have := win.hLe
  unfold index cell
  rw [offset_toNat _ (by omega), offset_toNat _ (by omega), Nat.mul_comm]
  exact Nat.div_add_mod k win.w

theorem index_lt {a : Addr} (h : win.Inside a) : win.index a < win.w * win.h := by
  unfold index
  calc (a.2 - win.y).toNat * win.w + (a.1 - win.x).toNat
      < (a.2 - win.y).toNat * win.w + win.w := Nat.add_lt_add_left h.1 _
    _ = win.w * ((a.2 - win.y).toNat + 1) := by rw [Nat.mul_add, Nat.mul_one, Nat.mul_comm]
    _ ≤ win.w * win.h := Nat.mul_le_mul_left _ h.2

theorem cell_index {a : Addr} (h : win.Inside a) : win.cell (win.index a) = a := by
  have hmod : win.index a % win.w = (a.1 - win.x).toNat := by
    rw [index, Nat.mul_comm, Nat.mul_add_mod, Nat.mod_eq_of_lt h.1]
  have hdiv : win.index a / win.w = (a.2 - win.y).toNat := by
    rw [index, Nat.mul_comm, Nat.mul_add_div win.wPos, Nat.div_eq_of_lt h.1, Nat.add_zero]
  have hback (base c : Coord) : base + BitVec.ofNat 16 (c - base).toNat = c := by
    rw [BitVec.ofNat_toNat, BitVec.setWidth_eq, BitVec.add_comm, BitVec.sub_add_cancel]
  rw [cell, hmod, hdiv, hback, hback]

/-- The `k`-th pixel of the window is at `a` exactly when `a` lies inside with index `k`. -/
theorem cell_eq_iff {k : ℕ} (hk : k < win.w * win.h) {a : Addr} :
    win.cell k = a ↔ win.Inside a ∧ win.index a = k := by
  constructor
  · intro h
    subst h
    exact ⟨win.cell_inside hk, win.index_cell hk⟩
  · intro h
    rw [← h.2]
    exact win.cell_index h.1

end Window

/-! ### Writing into a window -/

/-- The panel writes into `win` and stands before its `k`-th pixel. -/
structure Writing (p : Panel) (win : Window) (k : ℕ) : Prop where
  mode : p.mode = .write none
  colStart : p.colStart = win.x
  colEnd : p.colEnd = win.x + BitVec.ofNat 16 (win.w - 1)
  rowStart : p.rowStart = win.y
  rowEnd : p.rowEnd = win.y + BitVec.ofNat 16 (win.h - 1)
  position : (p.col, p.row) = win.cell (k % (win.w * win.h))

/-- After a full window the panel stands before its first pixel again. -/
theorem Writing.wrap {p : Panel} {win : Window} (h : Writing p win (win.w * win.h)) :
    Writing p win 0 := by
  refine ⟨h.mode, h.colStart, h.colEnd, h.rowStart, h.rowEnd, ?_⟩
  rw [h.position, Nat.mod_self, Nat.zero_mod]

theorem offset_inj (base : Coord) {d e : ℕ} (hd : d < 65536) (he : e < 65536) :
    base + BitVec.ofNat 16 d = base + BitVec.ofNat 16 e ↔ d = e := by
  constructor
  · intro h
    rw [← Window.offset_toNat base hd, ← Window.offset_toNat base he, h]
  · intro h
    rw [h]

theorem offset_succ (base : Coord) (d : ℕ) :
    base + BitVec.ofNat 16 d + 1 = base + BitVec.ofNat 16 (d + 1) := by
  rw [BitVec.ofNat_add, BitVec.add_assoc]
  rfl

theorem next_in_row {w : ℕ} (hw : 0 < w) (k : ℕ) (h : k % w ≠ w - 1) :
    (k + 1) % w = k % w + 1 ∧ (k + 1) / w = k / w := by
  have hlt := Nat.mod_lt k hw
  have hdecomp := Nat.div_add_mod k w
  have hstep : k + 1 = w * (k / w) + (k % w + 1) := by omega
  have hfit : k % w + 1 < w := by omega
  constructor
  · rw [hstep, Nat.mul_add_mod, Nat.mod_eq_of_lt hfit]
  · rw [hstep, Nat.mul_add_div hw, Nat.div_eq_of_lt hfit, Nat.add_zero]

theorem next_row {w : ℕ} (hw : 0 < w) (k : ℕ) (h : k % w = w - 1) :
    k + 1 = w * (k / w + 1) ∧ (k + 1) % w = 0 ∧ (k + 1) / w = k / w + 1 := by
  have hdecomp := Nat.div_add_mod k w
  have hk : k + 1 = w * (k / w + 1) := by
    rw [Nat.mul_add, Nat.mul_one]
    omega
  refine ⟨hk, ?_, ?_⟩
  · rw [hk, Nat.mul_mod_right]
  · rw [hk, Nat.mul_div_cancel_left _ hw]

theorem writing_plot {p : Panel} {win : Window} {k : ℕ} (h : Writing p win k)
    (hk : k < win.w * win.h) (colour : Colour) : Writing (p.plot colour) win (k + 1) := by
  have hpos := h.position
  rw [Nat.mod_eq_of_lt hk] at hpos
  have hcol : p.col = win.x + BitVec.ofNat 16 (k % win.w) := congrArg Prod.fst hpos
  have hrow : p.row = win.y + BitVec.ofNat 16 (k / win.w) := congrArg Prod.snd hpos
  have hw := win.wPos
  have hwLe := win.wLe
  have hhLe := win.hLe
  have hc := Nat.mod_lt k hw
  have hr := win.row_lt hk
  have hcolEnd : p.col = p.colEnd ↔ k % win.w = win.w - 1 := by
    rw [h.colEnd, hcol]
    exact offset_inj _ (by omega) (by omega)
  have hrowEnd : p.row = p.rowEnd ↔ k / win.w = win.h - 1 := by
    rw [h.rowEnd, hrow]
    exact offset_inj _ (by omega) (by omega)
  refine ⟨rfl, h.colStart, h.colEnd, h.rowStart, h.rowEnd, ?_⟩
  by_cases hlast : k % win.w = win.w - 1
  -- last column: the next row, or the first corner after the last row
  · obtain ⟨hnext, hmod, hdiv⟩ := next_row hw k hlast
    simp only [Panel.plot, if_pos (hcolEnd.mpr hlast)]
    by_cases hend : k / win.w = win.h - 1
    · have hfull : k + 1 = win.w * win.h := by
        rw [hnext, hend, Nat.sub_add_cancel win.hPos]
      rw [if_pos (hrowEnd.mpr hend), hfull, Nat.mod_self, h.colStart, h.rowStart]
      simp [Window.cell]
    · have hlt : k + 1 < win.w * win.h := by
        have hbelow : k / win.w + 1 < win.h :=
          Nat.add_lt_of_lt_sub (Nat.lt_of_le_of_ne (Nat.le_sub_one_of_lt hr) hend)
        rw [hnext]
        exact (Nat.mul_lt_mul_left hw).mpr hbelow
      rw [if_neg (mt hrowEnd.mp hend), Nat.mod_eq_of_lt hlt, Window.cell, hmod, hdiv,
        h.colStart, hrow, offset_succ]
      simp
  · obtain ⟨hmod, hdiv⟩ := next_in_row hw k hlast
    have hlt : k + 1 < win.w * win.h := by
      have hle : win.w * (k / win.w + 1) ≤ win.w * win.h := Nat.mul_le_mul_left _ hr
      have hdecomp := Nat.div_add_mod k win.w
      rw [Nat.mul_add, Nat.mul_one] at hle
      omega
    simp only [Panel.plot, if_neg (mt hcolEnd.mp hlast)]
    rw [Nat.mod_eq_of_lt hlt, Window.cell, hmod, hdiv, hcol, hrow, offset_succ]

/-- Streaming pixels from the `k`-th one on, at most to the end of the window:
the panel stands behind the last, and each position shows its pixel of the
stream if it has one and is unchanged otherwise. -/
theorem stream_content {p : Panel} {win : Window} {k : ℕ} (h : Writing p win k)
    (cs : List Colour) (hlen : k + cs.length ≤ win.w * win.h) :
    Writing (run Panel.receive p (cs.flatMap sendWord)) win (k + cs.length) ∧
      ∀ a, (run Panel.receive p (cs.flatMap sendWord)).content a =
        if win.Inside a ∧ k ≤ win.index a then (cs[win.index a - k]?).getD (p.content a)
        else p.content a := by
  induction cs generalizing p k with
  | nil =>
      refine ⟨h, fun a => ?_⟩
      split <;> rfl
  | cons c cs ih =>
      rw [List.length_cons] at hlen
      have hk : k < win.w * win.h := by omega
      obtain ⟨hwriting, hcontent⟩ := ih (writing_plot h hk c) (by omega)
      rw [List.flatMap_cons, run_append, receive_sendWord h.mode]
      refine ⟨?_, fun a => ?_⟩
      · rw [List.length_cons, ← Nat.add_assoc, Nat.add_right_comm]
        exact hwriting
      · have hpos := h.position
        rw [Nat.mod_eq_of_lt hk] at hpos
        have hplot : (p.plot c).content a = if win.Inside a ∧ win.index a = k then c
            else p.content a := by
          by_cases ha : win.Inside a ∧ win.index a = k
          · have hcell := (win.cell_eq_iff hk).mpr ha
            simp [Panel.plot, hpos, hcell, ha]
          · have hcell : a ≠ win.cell k := fun he => ha ((win.cell_eq_iff hk).mp he.symm)
            rw [if_neg ha]
            simp [Panel.plot, hpos, hcell]
        rw [hcontent, hplot]
        -- the first pixel is at `a`, or `a` is behind it or before it in the stream
        by_cases hin : win.Inside a
        · rcases Nat.lt_trichotomy (win.index a) k with hlt | heq | hgt
          · simp [hin, show ¬ k + 1 ≤ win.index a by omega, show ¬ k ≤ win.index a by omega,
              show win.index a ≠ k by omega]
          · simp [hin, heq]
          · obtain ⟨d, hd⟩ := Nat.exists_eq_add_of_lt hgt
            have hsub : win.index a - k = d + 1 := by omega
            have hsub' : win.index a - (k + 1) = d := by omega
            simp [hin, show k + 1 ≤ win.index a by omega, show k ≤ win.index a by omega,
              show win.index a ≠ k by omega, hsub, hsub']
        · simp [hin]

end ExpertCar.LcdPanel
