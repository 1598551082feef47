import ExpertCar.LcdRaster
import Mathlib.Data.Fin.VecNotation
import Mathlib.Data.List.GetD

/-!
# What a text leaves on the panel

A text is drawn character by character, each in the cell to the right of the
last, so it fills a strip sixteen pixels high. The colour of the strip's set
pixels is the one the characters are drawn in, which is black for every text.
-/
namespace ExpertCar.LcdStrings
open StepRuns LcdPanel LcdText LcdRaster

/-- Column `c` and row `r` of a text: its `c / 16`-th character at column `c % 16`. -/
def textColour (font : Font) (color : BitVec 32) (data : List Byte) (c r : ℕ) : Colour :=
  glyphColour font color (data.getD (c / 16) 0 - 32) (c % 16) r

/-! ### The strip of a text -/

theorem textColour_cons (font : Font) (color : BitVec 32) (ch : Byte) (data : List Byte)
    (c r : ℕ) :
    textColour font color (ch :: data) c r =
      if c < 16 then glyphColour font color (ch - 32) c r
      else textColour font color data (c - 16) r := by
  unfold textColour
  split_ifs with h
  · rw [Nat.div_eq_of_lt h, Nat.mod_eq_of_lt h, List.getD_cons_zero]
  · have hdiv : c / 16 = (c - 16) / 16 + 1 := by omega
    have hmod : c % 16 = (c - 16) % 16 := by omega
    rw [hdiv, hmod, List.getD_cons_succ]

/-- Whatever colour is asked for, the text is drawn in black. -/
theorem displayString_fills (font : Font) (x y color : BitVec 32) (data : List Byte)
    (hdata : ∀ ch ∈ data, ch ≠ 0) (hx : x.toNat + 16 * data.length ≤ 65536)
    (hy : y.toNat + 16 ≤ 65536) (p : Panel) :
    Fills p (run Panel.receive p (displayString font x y color data))
      ⟨x.toNat, y.toNat, 16 * data.length, 16⟩ (textColour font BLACK data) := by
  induction data generalizing x p with
  | nil => exact ⟨fun c hc => (Nat.not_lt_zero c hc).elim, fun a _ => rfl⟩
  | cons ch data ih =>
      rw [List.length_cons] at hx
      have hnext : (x + 16).toNat = x.toNat + 16 := by
        rw [BitVec.toNat_add]
        exact Nat.mod_eq_of_lt (show x.toNat + 16 < 4294967296 by omega)
      have hfirst := displayAscii1616_fills font x y BLACK (ch - 32) p
      have hrest := ih (x + 16) (fun ch' h => hdata ch' (List.mem_cons_of_mem ch h))
        (by omega) (run Panel.receive p (displayAscii1616 font x y BLACK (ch - 32)))
      rw [hnext] at hrest
      have hboth := Fills.beside hfirst hrest (by omega) hy
      rw [displayString, if_neg (hdata ch List.mem_cons_self), run_append, List.length_cons,
        Nat.mul_succ, Nat.add_comm _ 16]
      exact hboth.congr fun c _ r _ => (textColour_cons font BLACK ch data c r).symm

/-! ### The colour asked for -/

theorem glyphColour_blank {font : Font} {serial : Byte} (h : ∀ k, font serial k = 0)
    (color : BitVec 32) (c r : ℕ) : glyphColour font color serial c r = 0xFFFF := by
  have hbit : ¬ (0 : Byte).getLsbD (c % 8) = true := by
    rw [show (0 : Byte).getLsbD (c % 8) = false from BitVec.getLsbD_zero]
    exact Bool.false_ne_true
  rw [glyphColour, h, if_neg hbit]

/-- A glyph drawn alike in black and in another colour has no set bits. -/
theorem glyph_blank_of_eq {font : Font} {color : BitVec 32} {serial : Byte}
    (hcolor : color.setWidth 16 ≠ 0)
    (h : ∀ c < 16, ∀ r < 16,
      glyphColour font BLACK serial c r = glyphColour font color serial c r) (k : Fin 32) :
    font serial k = 0 := by
  apply BitVec.eq_of_getLsbD_eq
  intro i hi
  have hzero : (0 : Byte).getLsbD i = false := BitVec.getLsbD_zero
  -- bit `i` of byte `k` is column `8 * (k % 2) + i` of row `k / 2`
  have hk := k.isLt
  have hpixel := h (8 * (k.val % 2) + i) (by omega) (k.val / 2) (by omega)
  have hbyte : 2 * (k.val / 2) + (8 * (k.val % 2) + i) / 8 = k.val := by omega
  have hbit : (8 * (k.val % 2) + i) % 8 = i := by omega
  simp only [glyphColour, hbyte, hbit, Fin.ofNat_val_eq_self] at hpixel
  cases hset : (font serial k).getLsbD i with
  | false => exact hzero.symm
  | true =>
      rw [hset, if_pos rfl, if_pos rfl] at hpixel
      exact absurd hpixel.symm hcolor

theorem textColour_eq_iff (font : Font) (color : BitVec 32) (data : List Byte) :
    (∀ c < 16 * data.length, ∀ r < 16,
      textColour font BLACK data c r = textColour font color data c r) ↔
    color.setWidth 16 = 0 ∨ ∀ ch ∈ data, ∀ k, font (ch - 32) k = 0 := by
  constructor
  · intro h
    by_cases hcolor : color.setWidth 16 = 0
    · exact Or.inl hcolor
    · refine Or.inr fun ch hch k => ?_
      obtain ⟨i, hi, rfl⟩ := List.getElem_of_mem hch
      refine glyph_blank_of_eq hcolor (fun c hc r hr => ?_) k
      have hpixel := h (16 * i + c) (by omega) r hr
      have hdiv : (16 * i + c) / 16 = i := by omega
      have hmod : (16 * i + c) % 16 = c := by omega
      simp only [textColour, hdiv, hmod, List.getD_eq_getElem _ _ hi] at hpixel
      exact hpixel
  · rintro (hcolor | hblank) c hc r hr
    · have hblack : BLACK.setWidth 16 = color.setWidth 16 := hcolor.symm
      simp only [textColour, glyphColour, hblack]
    · have hi : c / 16 < data.length := by omega
      have hch : data.getD (c / 16) 0 ∈ data := by
        rw [List.getD_eq_getElem _ _ hi]
        exact List.getElem_mem hi
      simp only [textColour, glyphColour_blank (hblank _ hch)]

/-- A text appears in the colour asked for exactly when that is black in its low
sixteen bits, or no character of the text has a set bit. -/
theorem displayString_renders_iff (font : Font) (x y color : BitVec 32) (data : List Byte)
    (hdata : ∀ ch ∈ data, 32 ≤ ch.toNat ∧ ch.toNat ≤ 126)
    (hx : x.toNat + 16 * data.length ≤ 170) (hy : y.toNat ≤ 304) (p : Panel) :
    Fills p (run Panel.receive p (displayString font x y color data))
        ⟨x.toNat, y.toNat, 16 * data.length, 16⟩ (textColour font color data) ↔
      color.setWidth 16 = 0 ∨ ∀ ch ∈ data, ∀ k, font (ch - 32) k = 0 := by
  have hnonzero : ∀ ch ∈ data, ch ≠ 0 := by
    rintro ch hch rfl
    exact absurd (hdata 0 hch).1 (by decide)
  have hblack := displayString_fills font x y color data hnonzero (by omega) (by omega) p
  rw [← textColour_eq_iff]
  constructor
  · exact hblack.unique
  · exact hblack.congr

/-- Row of the font table for the letter h. -/
def asciiH : Fin 32 → Byte :=
  ![0x00, 0x00, 0x00, 0x00, 0x00, 0x00, 0x1C, 0x00, 0x18, 0x00, 0x18, 0x00, 0x18, 0x03, 0xF8, 0x1C,
    0x18, 0x18, 0x18, 0x18, 0x18, 0x18, 0x18, 0x18, 0x18, 0x18, 0x3E, 0x7C, 0x00, 0x00, 0x00, 0x00]

theorem black_h_renders :
    Fills Panel.reset
      (run Panel.receive Panel.reset (displayString (fun _ => asciiH) 0 0 BLACK [0x68]))
      ⟨0, 0, 16, 16⟩ (textColour (fun _ => asciiH) BLACK [0x68]) :=
  (displayString_renders_iff (fun _ => asciiH) 0 0 BLACK [0x68] (by decide +kernel)
    (show 0 + 16 * 1 ≤ 170 by omega) (Nat.zero_le 304) Panel.reset).mpr (Or.inl rfl)

/-- The first letter of the green label is drawn, but in black. -/
theorem green_h_is_black :
    ¬ Fills Panel.reset
      (run Panel.receive Panel.reset (displayString (fun _ => asciiH) 0 0 GREEN [0x68]))
      ⟨0, 0, 16, 16⟩ (textColour (fun _ => asciiH) GREEN [0x68]) := by
  intro h
  have hblack : Fills Panel.reset
      (run Panel.receive Panel.reset (displayString (fun _ => asciiH) 0 0 GREEN [0x68]))
      ⟨0, 0, 16, 16⟩ (textColour (fun _ => asciiH) BLACK [0x68]) :=
    displayString_fills (fun _ => asciiH) 0 0 GREEN [0x68] (by decide)
      (show 0 + 16 * 1 ≤ 65536 by omega) (show 0 + 16 ≤ 65536 by omega) Panel.reset
  exact absurd (hblack.unique h 3 (by decide) 3 (by decide)) (by decide)

end ExpertCar.LcdStrings
