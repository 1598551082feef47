import ExpertCar.LcdPanel
import Mathlib.Data.List.OfFn

/-!
# Text on the panel

`TFT_SET_ADD`, `display_ascii_16_16` and `display_string` as the sends they
make. A character is a full window of 16 by 16 pixels, so from any state of the
controller it leaves its bitmap in its cell and nothing else changed. The font
is a table of 32 bytes for each character number.
-/
namespace ExpertCar.LcdText
open StepRuns LcdPanel

/-- `ascii_8X16`. -/
abbrev Font := Byte → Fin 32 → Byte

def tftColumnOffset : Coord := 35
def tftLineOffset : Coord := 0

def BLACK : BitVec 32 := 0x0000
def GREEN : BitVec 32 := 0x07E0

def tftSetAdd (xStart yStart xEnd yEnd : Coord) : List Send :=
  .cmd 0x2A :: sendWord (xStart + tftColumnOffset) ++ sendWord (xEnd + tftColumnOffset) ++
  .cmd 0x2B :: sendWord (yStart + tftLineOffset) ++ sendWord (yEnd + tftLineOffset) ++
  [.cmd 0x2C]

/-- `for(tm ...) { if(temp&0x01) ... else ...; temp>>=1; }` -/
def sendBits (color : BitVec 32) : ℕ → Byte → List Send
  | 0, _ => []
  | n + 1, temp =>
      (if temp &&& 0x01 ≠ 0 then
        [.data ((color >>> 8).setWidth 8), .data (color.setWidth 8)]
      else [.data 0xFF, .data 0xFF]) ++ sendBits color n (temp >>> 1)

def asciiPixels (font : Font) (color : BitVec 32) (serial : Byte) : List Send :=
  (List.finRange 32).flatMap fun xxx => sendBits color 8 (font serial xxx)

def displayAscii1616 (font : Font) (x y color : BitVec 32) (serial : Byte) : List Send :=
  tftSetAdd (x.setWidth 16) (y.setWidth 16) ((x + 15).setWidth 16) ((y + 15).setWidth 16) ++
    asciiPixels font color serial

/-- `display_string`; the text ends at its first zero byte, and its colour
argument is not passed on. -/
def displayString (font : Font) (x y color : BitVec 32) : List Byte → List Send
  | [] => []
  | c :: data =>
      if c = 0 then []
      else displayAscii1616 font x y BLACK (c - 32) ++ displayString font (x + 16) y color data

/-! ### The window set-up -/

theorem run_columns (p : Panel) (a b : Coord) :
    run Panel.receive p (.cmd 0x2A :: sendWord a ++ sendWord b) =
      { p with mode := .other, colStart := a, colEnd := b } := by
  have ha := high_append_low a
  have hb := high_append_low b
  simp only [sendWord, List.cons_append, List.nil_append, run_cons, run_nil, Panel.receive,
    Panel.receiveCmd, Panel.receiveData, if_true, ha, hb]

theorem run_rows (p : Panel) (a b : Coord) :
    run Panel.receive p (.cmd 0x2B :: sendWord a ++ sendWord b) =
      { p with mode := .other, rowStart := a, rowEnd := b } := by
  have ha := high_append_low a
  have hb := high_append_low b
  have hne : ¬ (0x2B : Byte) = 0x2A := by decide
  simp only [sendWord, List.cons_append, List.nil_append, run_cons, run_nil, Panel.receive,
    Panel.receiveCmd, Panel.receiveData, if_true, if_neg hne, ha, hb]

/-- From any state the set-up leaves the window open and the content alone. -/
theorem run_tftSetAdd (p : Panel) (xStart yStart xEnd yEnd : Coord) :
    run Panel.receive p (tftSetAdd xStart yStart xEnd yEnd) =
      { p with
        mode := .write none
        colStart := xStart + tftColumnOffset
        colEnd := xEnd + tftColumnOffset
        rowStart := yStart + tftLineOffset
        rowEnd := yEnd + tftLineOffset
        col := xStart + tftColumnOffset
        row := yStart + tftLineOffset } := by
  have hsplit : tftSetAdd xStart yStart xEnd yEnd =
      (.cmd 0x2A :: sendWord (xStart + tftColumnOffset) ++ sendWord (xEnd + tftColumnOffset)) ++
      ((.cmd 0x2B :: sendWord (yStart + tftLineOffset) ++ sendWord (yEnd + tftLineOffset)) ++
      [.cmd 0x2C]) := by
    simp [tftSetAdd]
  rw [hsplit, run_append, run_append, run_columns, run_rows]
  rfl

/-! ### One character -/

def asciiWindow (x y : BitVec 32) : Window :=
  ⟨x.setWidth 16 + tftColumnOffset, y.setWidth 16 + tftLineOffset, 16, 16,
    by decide, by decide, by decide, by decide⟩

theorem asciiWindow_size (x y : BitVec 32) : (asciiWindow x y).w * (asciiWindow x y).h = 256 := by
  simp [asciiWindow]

/-- Colour of the `k`-th pixel of a character: the font bits, low bit first. -/
def asciiColour (font : Font) (color : BitVec 32) (serial : Byte) (k : ℕ) : Colour :=
  if (font serial (Fin.ofNat 32 (k / 8))).getLsbD (k % 8) then color.setWidth 16 else 0xFFFF

theorem end_eq (x : BitVec 32) (offset : Coord) :
    (x + 15).setWidth 16 + offset = x.setWidth 16 + offset + BitVec.ofNat 16 (16 - 1) := by
  rw [BitVec.setWidth_add _ _ (by omega), BitVec.add_assoc, BitVec.add_assoc,
    BitVec.add_comm offset]
  rfl

theorem writing_asciiWindow (p : Panel) (x y : BitVec 32) :
    Writing (run Panel.receive p (tftSetAdd (x.setWidth 16) (y.setWidth 16)
      ((x + 15).setWidth 16) ((y + 15).setWidth 16))) (asciiWindow x y) 0 := by
  rw [run_tftSetAdd]
  refine ⟨rfl, rfl, end_eq x _, rfl, end_eq y _, ?_⟩
  simp [Window.cell, asciiWindow]

theorem getLsbD_zero_iff (temp : Byte) : temp &&& 0x01 ≠ 0 ↔ temp.getLsbD 0 = true := by
  revert temp
  decide

/-- The two data sends of a colour argument carry its low 16 bits. -/
theorem sendWord_setWidth (color : BitVec 32) :
    [Send.data ((color >>> 8).setWidth 8), Send.data (color.setWidth 8)] =
      sendWord (color.setWidth 16) := by
  have hhigh : (color >>> 8).setWidth 8 = ((color.setWidth 16) >>> 8).setWidth 8 := by
    apply BitVec.eq_of_getLsbD_eq
    intro i hi
    have hlt : 8 + i < 16 := by omega
    simp [hi, hlt]
  have hlow : color.setWidth 8 = (color.setWidth 16).setWidth 8 := by
    apply BitVec.eq_of_getLsbD_eq
    intro i hi
    simp [hi]
  rw [sendWord, ← hhigh, ← hlow]

theorem sendBits_eq (color : BitVec 32) (n : ℕ) (temp : Byte) :
    sendBits color n temp = ((List.range n).map fun tm =>
      if temp.getLsbD tm then color.setWidth 16 else (0xFFFF : Colour)).flatMap sendWord := by
  induction n generalizing temp with
  | zero => rfl
  | succ n ih =>
      have hrest : ((List.range n).map fun tm =>
            if (temp >>> 1).getLsbD tm then color.setWidth 16 else (0xFFFF : Colour)) =
          (List.range n).map fun tm =>
            if temp.getLsbD (tm + 1) then color.setWidth 16 else 0xFFFF := by
        refine List.map_congr_left fun tm _ => ?_
        rw [BitVec.getLsbD_ushiftRight, Nat.add_comm]
      rw [sendBits, ih, hrest, List.range_succ_eq_map, List.map_cons, List.map_map,
        List.flatMap_cons]
      congr 1
      by_cases hbit : temp.getLsbD 0 = true
      · rw [if_pos ((getLsbD_zero_iff temp).mpr hbit), if_pos hbit, sendWord_setWidth]
      · rw [if_neg (mt (getLsbD_zero_iff temp).mp hbit), if_neg hbit]
        rfl

theorem asciiPixels_eq (font : Font) (color : BitVec 32) (serial : Byte) :
    asciiPixels font color serial =
      ((List.range 256).map (asciiColour font color serial)).flatMap sendWord := by
  have hrange : List.range 256 = (List.finRange 32).flatMap fun xxx : Fin 32 =>
      (List.range 8).map fun tm => 8 * xxx.val + tm := by decide +kernel
  have hcolour (xxx : Fin 32) (tm : ℕ) (htm : tm ∈ List.range 8) :
      (if (font serial xxx).getLsbD tm then color.setWidth 16 else (0xFFFF : Colour)) =
        asciiColour font color serial (8 * xxx.val + tm) := by
    have hlt : tm < 8 := List.mem_range.mp htm
    have hdiv : (8 * xxx.val + tm) / 8 = xxx.val := by omega
    have hmod : (8 * xxx.val + tm) % 8 = tm := by omega
    rw [asciiColour, hdiv, hmod, Fin.ofNat_val_eq_self]
  rw [asciiPixels, hrange, List.map_flatMap, List.flatMap_assoc]
  congr 1
  funext xxx
  rw [sendBits_eq, List.map_congr_left (hcolour xxx), List.map_map]
  rfl

/-- What a character leaves on a panel that showed `content`. -/
def asciiContent (font : Font) (x y color : BitVec 32) (serial : Byte) (content : Addr → Colour) :
    Addr → Colour := fun a =>
  if (asciiWindow x y).Inside a then
    asciiColour font color serial ((asciiWindow x y).index a)
  else content a

theorem getElem?_pixels (f : ℕ → Colour) {k : ℕ} (hk : k < 256) :
    ((List.range 256).map f)[k]? = some (f k) := by
  rw [List.getElem?_map, List.getElem?_range hk, Option.map_some]

/-- From any state of the controller a character paints its cell and nothing
else, and leaves the controller at the start of that cell's window. -/
theorem run_displayAscii1616 (font : Font) (p : Panel) (x y color : BitVec 32) (serial : Byte) :
    Writing (run Panel.receive p (displayAscii1616 font x y color serial)) (asciiWindow x y) 256 ∧
      (run Panel.receive p (displayAscii1616 font x y color serial)).content =
        asciiContent font x y color serial p.content := by
  have hlen : ((List.range 256).map (asciiColour font color serial)).length = 256 := by simp
  have hfull : 0 + ((List.range 256).map (asciiColour font color serial)).length ≤
      (asciiWindow x y).w * (asciiWindow x y).h := by
    rw [hlen, asciiWindow_size]
  have hstream := stream_content (writing_asciiWindow p x y)
    ((List.range 256).map (asciiColour font color serial)) hfull
  rw [displayAscii1616, run_append, asciiPixels_eq]
  rw [hlen, Nat.zero_add] at hstream
  refine ⟨hstream.1, funext fun a => ?_⟩
  rw [hstream.2 a, run_tftSetAdd, asciiContent]
  by_cases ha : (asciiWindow x y).Inside a
  · have hindex : (asciiWindow x y).index a < 256 := (asciiWindow x y).index_lt ha
    rw [if_pos ⟨ha, Nat.zero_le _⟩, if_pos ha, Nat.sub_zero, getElem?_pixels _ hindex,
      Option.getD_some]
  · rw [if_neg fun h => ha h.1, if_neg ha]

/-! ### A text as its characters -/

structure Glyph where
  x : BitVec 32
  y : BitVec 32
  color : BitVec 32
  serial : Byte
  deriving DecidableEq

def Glyph.sends (font : Font) (g : Glyph) : List Send :=
  displayAscii1616 font g.x g.y g.color g.serial

def Glyph.window (g : Glyph) : Window := asciiWindow g.x g.y

def Glyph.paint (font : Font) (content : Addr → Colour) (g : Glyph) : Addr → Colour :=
  asciiContent font g.x g.y g.color g.serial content

def stringGlyphs (x y : BitVec 32) : List Byte → List Glyph
  | [] => []
  | c :: data => if c = 0 then [] else ⟨x, y, BLACK, c - 32⟩ :: stringGlyphs (x + 16) y data

theorem displayString_eq (font : Font) (x y color : BitVec 32) (data : List Byte) :
    displayString font x y color data = (stringGlyphs x y data).flatMap (Glyph.sends font) := by
  induction data generalizing x with
  | nil => rfl
  | cons c data ih =>
      unfold displayString stringGlyphs
      split
      · rfl
      · rw [ih, List.flatMap_cons]
        rfl

theorem run_glyphs (font : Font) (p : Panel) (gs : List Glyph) :
    (run Panel.receive p (gs.flatMap (Glyph.sends font))).content =
      gs.foldl (Glyph.paint font) p.content := by
  induction gs generalizing p with
  | nil => rfl
  | cons g gs ih =>
      rw [List.flatMap_cons, run_append, ih, List.foldl_cons, Glyph.sends,
        (run_displayAscii1616 font p g.x g.y g.color g.serial).2]
      rfl

end ExpertCar.LcdText
