import ExpertCar.LcdText

/-!
# Pictures, fills and points

The functions of the display that stream pixels into a window they open first:
characters of the two fonts, the whole screen in one colour, the picture, and a
single point. Positions are panel coordinates; `pixel` is the address that the
offsets of the panel give them. Each function is its window and the list of its
pixels, and what it leaves on the panel follows from these by one theorem.
-/
namespace ExpertCar.LcdRaster
open StepRuns LcdPanel LcdText

def tftColumnNumber : ℕ := 170
def tftLineNumber : ℕ := 320
def picLen : ℕ := 120
def picHig : ℕ := 120
def picNum : ℕ := 28800

def tftClear : List Send :=
  tftSetAdd 0 0 (BitVec.ofNat 16 (tftColumnNumber - 1)) (BitVec.ofNat 16 (tftLineNumber - 1)) ++
    (List.range tftLineNumber).flatMap fun _ =>
      (List.range tftColumnNumber).flatMap fun _ => [.data 0xFF, .data 0xFF]

def tftFull (color : BitVec 32) : List Send :=
  tftSetAdd 0 0 (BitVec.ofNat 16 (tftColumnNumber - 1)) (BitVec.ofNat 16 (tftLineNumber - 1)) ++
    (List.range tftLineNumber).flatMap fun _ =>
      (List.range tftColumnNumber).flatMap fun _ =>
        [.data ((color >>> 8).setWidth 8), .data (color.setWidth 8)]

/-- `display_char16_16`: the loops of `display_ascii_16_16` over the table `chines_word`. -/
def displayChar1616 (chinesWord : Font) (x y color : BitVec 32) (wordSerialNumber : Byte) :
    List Send :=
  displayAscii1616 chinesWord x y color wordSerialNumber

def pictureDisplay (ptrPic : ℕ → Byte) : List Send :=
  tftSetAdd 0 0 (BitVec.ofNat 16 (picLen - 1)) (BitVec.ofNat 16 (picHig - 1)) ++
    (List.range picNum).map fun number => .data (ptrPic number)

/-- The window of a point is two by two pixels, of which it writes the first. -/
def guiDrawPoint (x y color : BitVec 32) : List Send :=
  tftSetAdd (x.setWidth 16) (y.setWidth 16) ((x + 1).setWidth 16) ((y + 1).setWidth 16) ++
    sendWord (color.setWidth 16)

/-! ### Panel coordinates -/

def pixel (x y : ℕ) : Addr :=
  (BitVec.ofNat 16 x + tftColumnOffset, BitVec.ofNat 16 y + tftLineOffset)

structure Rect where
  x : ℕ
  y : ℕ
  w : ℕ
  h : ℕ

/-- Between `p` and `p'` the pixels of the rectangle have taken these colours, column
by row, and nothing else has changed. -/
structure Fills (p p' : Panel) (rect : Rect) (colour : ℕ → ℕ → Colour) : Prop where
  inside : ∀ c < rect.w, ∀ r < rect.h, p'.content (pixel (rect.x + c) (rect.y + r)) = colour c r
  outside : ∀ a, (∀ c < rect.w, ∀ r < rect.h, a ≠ pixel (rect.x + c) (rect.y + r)) →
    p'.content a = p.content a

/-- Pixels on the panel have addresses of their own. -/
theorem pixel_inj {x y x' y' : ℕ} (hx : x < 65536) (hy : y < 65536) (hx' : x' < 65536)
    (hy' : y' < 65536) : pixel x y = pixel x' y' ↔ x = x' ∧ y = y' := by
  rw [pixel, pixel, Prod.mk.injEq, BitVec.add_comm, BitVec.add_comm (BitVec.ofNat 16 x'),
    offset_inj _ hx hx', BitVec.add_comm, BitVec.add_comm (BitVec.ofNat 16 y'),
    offset_inj _ hy hy']

theorem Fills.congr {p p' : Panel} {rect : Rect} {f g : ℕ → ℕ → Colour}
    (h : Fills p p' rect f) (hfg : ∀ c < rect.w, ∀ r < rect.h, f c r = g c r) :
    Fills p p' rect g :=
  ⟨fun c hc r hr => (h.inside c hc r hr).trans (hfg c hc r hr), h.outside⟩

theorem Fills.unique {p p' : Panel} {rect : Rect} {f g : ℕ → ℕ → Colour}
    (hf : Fills p p' rect f) (hg : Fills p p' rect g) :
    ∀ c < rect.w, ∀ r < rect.h, f c r = g c r := by
  intro c hc r hr
  rw [← hf.inside c hc r hr, hg.inside c hc r hr]

/-- The second rectangle continues the first to the right. -/
theorem Fills.beside {p p' p'' : Panel} {x y w w' h : ℕ} {f g : ℕ → ℕ → Colour}
    (hf : Fills p p' ⟨x, y, w, h⟩ f) (hg : Fills p' p'' ⟨x + w, y, w', h⟩ g)
    (hx : x + w + w' ≤ 65536) (hy : y + h ≤ 65536) :
    Fills p p'' ⟨x, y, w + w', h⟩ fun c r => if c < w then f c r else g (c - w) r := by
  constructor
  · intro c hc r hr
    change c < w + w' at hc
    change r < h at hr
    change p''.content (pixel (x + c) (y + r)) = _
    by_cases hleft : c < w
    · rw [if_pos hleft, ← hf.inside c hleft r hr]
      apply hg.outside
      intro c' hc' r' hr' heq
      change c' < w' at hc'
      change r' < h at hr'
      change pixel (x + c) (y + r) = pixel (x + w + c') (y + r') at heq
      rw [pixel_inj (by omega) (by omega) (by omega) (by omega)] at heq
      omega
    · have hright : c - w < w' := by omega
      have hcol : x + c = x + w + (c - w) := by omega
      rw [if_neg hleft, ← hg.inside (c - w) hright r hr, hcol]
  · intro a ha
    have hfirst : p'.content a = p.content a := hf.outside a fun c hc r hr =>
      ha c (Nat.lt_add_right w' hc) r hr
    rw [← hfirst]
    apply hg.outside
    intro c hc r hr
    change a ≠ pixel (x + w + c) (y + r)
    rw [Nat.add_assoc]
    exact ha (w + c) (Nat.add_lt_add_left hc w) r hr

theorem setWidth_eq_ofNat (x : BitVec 32) : x.setWidth 16 = BitVec.ofNat 16 x.toNat := by
  rw [← BitVec.ofNat_toNat]

theorem pixel_toNat (x y : BitVec 32) :
    pixel x.toNat y.toNat =
      (x.setWidth 16 + tftColumnOffset, y.setWidth 16 + tftLineOffset) := by
  rw [pixel, setWidth_eq_ofNat, setWidth_eq_ofNat]

/-- A window with its first corner at the panel position `(x, y)`. -/
def At (win : Window) (x y : ℕ) : Prop := (win.x, win.y) = pixel x y

section Window
variable {win : Window} {x y : ℕ} (hat : At win x y)
include hat

theorem cell_eq_pixel (k : ℕ) : win.cell k = pixel (x + k % win.w) (y + k / win.w) := by
  obtain ⟨hx, hy⟩ := Prod.mk.inj hat
  have hswap (a b c : Coord) : a + b + c = a + c + b := by
    rw [BitVec.add_assoc, BitVec.add_comm b, BitVec.add_assoc]
  rw [Window.cell, hx, hy, pixel, BitVec.ofNat_add, BitVec.ofNat_add, hswap,
    hswap (BitVec.ofNat 16 y)]

theorem pixel_eq_cell {c : ℕ} (hc : c < win.w) (r : ℕ) :
    pixel (x + c) (y + r) = win.cell (win.w * r + c) := by
  rw [cell_eq_pixel hat, Nat.mul_add_mod, Nat.mod_eq_of_lt hc, Nat.mul_add_div win.wPos,
    Nat.div_eq_of_lt hc, Nat.add_zero]

theorem inside_pixel {c r : ℕ} (hc : c < win.w) (hr : r < win.h) :
    win.Inside (pixel (x + c) (y + r)) ∧ win.index (pixel (x + c) (y + r)) = win.w * r + c := by
  have hk : win.w * r + c < win.w * win.h := by
    calc win.w * r + c < win.w * r + win.w := Nat.add_lt_add_left hc _
      _ = win.w * (r + 1) := by rw [Nat.mul_add, Nat.mul_one]
      _ ≤ win.w * win.h := Nat.mul_le_mul_left _ hr
  rw [pixel_eq_cell hat hc]
  exact ⟨win.cell_inside hk, win.index_cell hk⟩

theorem exists_pixel {a : Addr} (ha : win.Inside a) :
    ∃ c < win.w, ∃ r < win.h, a = pixel (x + c) (y + r) := by
  have hk := win.index_lt ha
  refine ⟨_, Nat.mod_lt (win.index a) win.wPos, _, win.row_lt hk, ?_⟩
  rw [← cell_eq_pixel hat, win.cell_index ha]

end Window

/-! ### Opening a window and streaming into it -/

/-- The pixel byte of a send: data that reaches the panel while it writes. -/
def pixelByte (p : Panel) (s : Send) : ℕ :=
  match s, p.mode with
  | .data _, .write _ => 1
  | _, _ => 0

def pixelBytes (p : Panel) (sends : List Send) : ℕ := total Panel.receive pixelByte p sends

theorem pixelByte_le (p : Panel) (s : Send) : pixelByte p s ≤ 1 := by
  unfold pixelByte
  split
  · exact le_rfl
  · exact Nat.zero_le 1

theorem pixelBytes_le (p : Panel) (sends : List Send) : pixelBytes p sends ≤ sends.length := by
  induction sends generalizing p with
  | nil => exact le_rfl
  | cons s sends ih =>
      have hone := pixelByte_le p s
      have hrest := ih (p.receive s)
      rw [pixelBytes, total, List.length_cons]
      exact Nat.add_comm _ _ ▸ Nat.add_le_add hrest hone

/-- From any state these sends leave the panel before the first pixel of `win`. -/
structure Opens (win : Window) (sends : List Send) : Prop where
  writing : ∀ p, Writing (run Panel.receive p sends) win 0
  content : ∀ p, (run Panel.receive p sends).content = p.content
  pixelBytes : ∀ p, pixelBytes p sends = 0

/-- The data bytes of the set-up are addresses, whatever the panel was doing before. -/
theorem pixelBytes_tftSetAdd (p : Panel) (xStart yStart xEnd yEnd : Coord) :
    pixelBytes p (tftSetAdd xStart yStart xEnd yEnd) = 0 := by
  have hrow : ¬ (0x2B : Byte) = 0x2A := by decide
  simp only [pixelBytes, tftSetAdd, sendWord, List.cons_append, List.nil_append, total, pixelByte,
    Panel.receive, Panel.receiveCmd, Panel.receiveData, if_true, if_neg hrow]

theorem opens_tftSetAdd (win : Window) (xEnd yEnd : Coord) {x y : Coord}
    (hx : win.x = x + tftColumnOffset) (hy : win.y = y + tftLineOffset)
    (hxEnd : xEnd + tftColumnOffset = win.x + BitVec.ofNat 16 (win.w - 1))
    (hyEnd : yEnd + tftLineOffset = win.y + BitVec.ofNat 16 (win.h - 1)) :
    Opens win (tftSetAdd x y xEnd yEnd) := by
  refine ⟨fun p => ?_, fun p => ?_, fun p => pixelBytes_tftSetAdd p _ _ _ _⟩
  · rw [run_tftSetAdd]
    refine ⟨rfl, hx.symm, hxEnd, hy.symm, hyEnd, ?_⟩
    simp [Window.cell, hx, hy]
  · rw [run_tftSetAdd]

theorem flatMap_sendWord_length (pixels : List Colour) :
    (pixels.flatMap sendWord).length = 2 * pixels.length := by
  induction pixels with
  | nil => rfl
  | cons c pixels ih =>
      rw [List.flatMap_cons, List.length_append, ih, List.length_cons, sendWord]
      simp only [List.length_cons, List.length_nil]
      omega

/-- Pixels of the window the panel is set to. -/
def windowArea (p : Panel) : ℕ :=
  ((p.colEnd - p.colStart).toNat + 1) * ((p.rowEnd - p.rowStart).toNat + 1)

theorem windowArea_eq {p : Panel} {win : Window} {k : ℕ} (h : Writing p win k) :
    windowArea p = win.w * win.h := by
  have hw := win.wPos
  have hwLe := win.wLe
  have hh := win.hPos
  have hhLe := win.hLe
  rw [windowArea, h.colEnd, h.colStart, h.rowEnd, h.rowStart,
    Window.offset_toNat _ (by omega), Window.offset_toNat _ (by omega), Nat.sub_add_cancel hw,
    Nat.sub_add_cancel hh]

/-- Pixels up to a full window: the write position does not pass its end. -/
theorem pixelBytes_stream {win : Window} {opening : List Send} (hopen : Opens win opening)
    (p : Panel) (pixels : List Colour) (hlen : pixels.length ≤ win.w * win.h) :
    pixelBytes p (opening ++ pixels.flatMap sendWord) ≤
      2 * windowArea (run Panel.receive p (opening ++ pixels.flatMap sendWord)) := by
  have hwriting := (stream_content (hopen.writing p) pixels (by rwa [Nat.zero_add])).1
  have hle := pixelBytes_le (run Panel.receive p opening) (pixels.flatMap sendWord)
  have hzero := hopen.pixelBytes p
  rw [flatMap_sendWord_length] at hle
  rw [run_append, windowArea_eq hwriting]
  unfold pixelBytes at *
  rw [total_append, hzero, Nat.zero_add]
  exact Nat.le_trans hle (Nat.mul_le_mul_left 2 hlen)

theorem pixelBytes_window {win : Window} {opening : List Send} (hopen : Opens win opening)
    (p : Panel) (f : ℕ → Colour) :
    pixelBytes p (opening ++ ((List.range (win.w * win.h)).map f).flatMap sendWord) ≤
      2 * windowArea (run Panel.receive p
        (opening ++ ((List.range (win.w * win.h)).map f).flatMap sendWord)) :=
  pixelBytes_stream hopen p _ (by rw [List.length_map, List.length_range])

/-- A full window of pixels, numbered row by row, fills the rectangle of the window. -/
theorem fills_window {win : Window} {x y : ℕ} (hat : At win x y) {opening : List Send}
    (hopen : Opens win opening) (p : Panel) (f : ℕ → Colour) :
    Fills p (run Panel.receive p
        (opening ++ ((List.range (win.w * win.h)).map f).flatMap sendWord))
      ⟨x, y, win.w, win.h⟩ fun c r => f (win.w * r + c) := by
  have hlen : 0 + ((List.range (win.w * win.h)).map f).length ≤ win.w * win.h := by simp
  have hstream := (stream_content (hopen.writing p) _ hlen).2
  rw [hopen.content p] at hstream
  rw [run_append]
  constructor
  · intro c hc r hr
    obtain ⟨hinside, hindex⟩ := inside_pixel hat hc hr
    have hk := win.index_lt hinside
    rw [hstream, if_pos ⟨hinside, Nat.zero_le _⟩, Nat.sub_zero, List.getElem?_map,
      List.getElem?_range hk, Option.map_some, Option.getD_some, hindex]
  · intro a ha
    rw [hstream, if_neg]
    rintro ⟨hinside, -⟩
    obtain ⟨c, hc, r, hr, heq⟩ := exists_pixel hat hinside
    exact ha c hc r hr heq

/-! ### The functions -/

/-- Bytes of a glyph, which numerals index. -/
instance glyphBytes : NeZero 32 := ⟨by decide⟩

/-- Bit `c mod 8` of byte `2r + c div 8` of a glyph, as a colour. -/
def glyphColour (font : Font) (color : BitVec 32) (serial : Byte) (c r : ℕ) : Colour :=
  if (font serial (Fin.ofNat 32 (2 * r + c / 8))).getLsbD (c % 8) then color.setWidth 16
  else 0xFFFF

theorem asciiColour_eq (font : Font) (color : BitVec 32) (serial : Byte) (c r : ℕ) :
    asciiColour font color serial (16 * r + c) = glyphColour font color serial c r := by
  have hdiv : (16 * r + c) / 8 = 2 * r + c / 8 := by omega
  have hmod : (16 * r + c) % 8 = c % 8 := by omega
  rw [asciiColour, hdiv, hmod, glyphColour]

theorem opens_ascii (x y : BitVec 32) :
    Opens (asciiWindow x y) (tftSetAdd (x.setWidth 16) (y.setWidth 16) ((x + 15).setWidth 16)
      ((y + 15).setWidth 16)) :=
  opens_tftSetAdd _ _ _ rfl rfl (end_eq x _) (end_eq y _)

theorem at_ascii (x y : BitVec 32) : At (asciiWindow x y) x.toNat y.toNat := (pixel_toNat x y).symm

theorem displayAscii1616_eq (font : Font) (x y color : BitVec 32) (serial : Byte) :
    displayAscii1616 font x y color serial =
      tftSetAdd (x.setWidth 16) (y.setWidth 16) ((x + 15).setWidth 16) ((y + 15).setWidth 16) ++
        ((List.range ((asciiWindow x y).w * (asciiWindow x y).h)).map
          (asciiColour font color serial)).flatMap sendWord := by
  rw [asciiWindow_size, displayAscii1616, asciiPixels_eq]

theorem displayAscii1616_fills (font : Font) (x y color : BitVec 32) (serial : Byte) (p : Panel) :
    Fills p (run Panel.receive p (displayAscii1616 font x y color serial))
      ⟨x.toNat, y.toNat, 16, 16⟩ (glyphColour font color serial) := by
  have h := fills_window (at_ascii x y) (opens_ascii x y) p (asciiColour font color serial)
  rw [← displayAscii1616_eq] at h
  have hcolour : (fun c r => asciiColour font color serial ((asciiWindow x y).w * r + c)) =
      glyphColour font color serial := by
    funext c r
    exact asciiColour_eq font color serial c r
  rw [hcolour] at h
  exact h

theorem displayAscii1616_bytes (font : Font) (x y color : BitVec 32) (serial : Byte) (p : Panel) :
    pixelBytes p (displayAscii1616 font x y color serial) ≤
      2 * windowArea (run Panel.receive p (displayAscii1616 font x y color serial)) := by
  rw [displayAscii1616_eq]
  exact pixelBytes_window (opens_ascii x y) p _

/-- The window from the first corner of the panel that the loops over rows and
columns fill. -/
def originWindow (w h : ℕ) (hw : 0 < w ∧ w ≤ 65536) (hh : 0 < h ∧ h ≤ 65536) : Window :=
  ⟨0 + tftColumnOffset, 0 + tftLineOffset, w, h, hw.1, hw.2, hh.1, hh.2⟩

theorem opens_origin (w h : ℕ) (hw : 0 < w ∧ w ≤ 65536) (hh : 0 < h ∧ h ≤ 65536) :
    Opens (originWindow w h hw hh)
      (tftSetAdd 0 0 (BitVec.ofNat 16 (w - 1)) (BitVec.ofNat 16 (h - 1))) := by
  have hend (offset : Coord) (n : ℕ) :
      BitVec.ofNat 16 n + offset = 0 + offset + BitVec.ofNat 16 n := by
    have hzero : 0 + offset = offset := BitVec.zero_add offset
    rw [BitVec.add_comm, hzero]
  exact opens_tftSetAdd _ _ _ rfl rfl (hend _ _) (hend _ _)

def screenWindow : Window := originWindow 170 320 (by decide) (by decide)

def pictureWindow : Window := originWindow 120 120 (by decide) (by decide)

/-- Two nested loops that send the same pixel each time. -/
theorem flatMap_const_eq (w h : ℕ) (c : Colour) :
    ((List.range h).flatMap fun _ => (List.range w).flatMap fun _ => sendWord c) =
      ((List.range (w * h)).map fun _ => c).flatMap sendWord := by
  have hrow (n : ℕ) : ((List.range n).flatMap fun _ => sendWord c) =
      (List.replicate n c).flatMap sendWord := by
    induction n with
    | zero => rfl
    | succ n ih => rw [List.range_succ, List.flatMap_append, ih, List.replicate_succ',
        List.flatMap_append, List.flatMap_singleton, List.flatMap_singleton]
  rw [List.map_const', List.length_range]
  simp only [hrow]
  induction h with
  | zero => rfl
  | succ h ih => rw [List.range_succ, List.flatMap_append, ih, Nat.mul_succ,
      ← List.replicate_append_replicate, List.flatMap_append, List.flatMap_singleton]

theorem tftFull_eq (color : BitVec 32) :
    tftFull color =
      tftSetAdd 0 0 (BitVec.ofNat 16 (170 - 1)) (BitVec.ofNat 16 (320 - 1)) ++
        ((List.range (screenWindow.w * screenWindow.h)).map fun _ =>
          color.setWidth 16).flatMap sendWord := by
  have hloops := flatMap_const_eq 170 320 (color.setWidth 16)
  rw [← sendWord_setWidth] at hloops
  rw [tftFull]
  exact congrArg _ hloops

/-- `TFT_clear` is `TFT_full(WHITE)`. -/
theorem tftClear_eq : tftClear = tftFull 0xFFFF := rfl

theorem tftFull_fills (color : BitVec 32) (p : Panel) :
    Fills p (run Panel.receive p (tftFull color)) ⟨0, 0, 170, 320⟩ fun _ _ => color.setWidth 16 := by
  have h := fills_window (show At screenWindow 0 0 from rfl)
    (opens_origin 170 320 (by decide) (by decide)) p fun _ => color.setWidth 16
  rw [tftFull_eq]
  exact h

theorem tftFull_bytes (color : BitVec 32) (p : Panel) :
    pixelBytes p (tftFull color) ≤ 2 * windowArea (run Panel.receive p (tftFull color)) := by
  rw [tftFull_eq]
  exact pixelBytes_window (opens_origin 170 320 (by decide) (by decide)) p _

theorem sendWord_append (high low : Byte) : sendWord (high ++ low) = [.data high, .data low] := by
  have happend (i : ℕ) : (high ++ low).getLsbD i =
      if i < 8 then low.getLsbD i else high.getLsbD (i - 8) := BitVec.getLsbD_append
  have hhigh : ((high ++ low) >>> 8).setWidth 8 = high := by
    apply BitVec.eq_of_getLsbD_eq
    intro i hi
    rw [BitVec.getLsbD_setWidth, BitVec.getLsbD_ushiftRight, happend, if_neg (by omega),
      Nat.add_sub_cancel_left, decide_eq_true hi, Bool.true_and]
  have hlow : (high ++ low).setWidth 8 = low := by
    apply BitVec.eq_of_getLsbD_eq
    intro i hi
    rw [BitVec.getLsbD_setWidth, happend, if_pos hi, decide_eq_true hi, Bool.true_and]
  rw [sendWord, hhigh, hlow]

def pictureColour (ptrPic : ℕ → Byte) (k : ℕ) : Colour := ptrPic (2 * k) ++ ptrPic (2 * k + 1)

/-- A stream of bytes is the stream of its pairs. -/
theorem map_data_eq (ptrPic : ℕ → Byte) (n : ℕ) :
    ((List.range (2 * n)).map fun number => Send.data (ptrPic number)) =
      ((List.range n).map (pictureColour ptrPic)).flatMap sendWord := by
  induction n with
  | zero => rfl
  | succ n ih =>
      rw [Nat.mul_succ, List.range_succ, List.range_succ, List.map_append, List.map_append, ih,
        List.range_succ, List.map_append, List.flatMap_append, List.map_singleton,
        List.map_singleton, List.map_singleton, List.flatMap_singleton, pictureColour,
        sendWord_append, List.append_assoc]
      rfl

theorem pictureDisplay_eq (ptrPic : ℕ → Byte) :
    pictureDisplay ptrPic =
      tftSetAdd 0 0 (BitVec.ofNat 16 (120 - 1)) (BitVec.ofNat 16 (120 - 1)) ++
        ((List.range (pictureWindow.w * pictureWindow.h)).map
          (pictureColour ptrPic)).flatMap sendWord := by
  have hnum : picNum = 2 * (pictureWindow.w * pictureWindow.h) := by decide
  rw [pictureDisplay, hnum, map_data_eq]
  rfl

theorem pictureDisplay_fills (ptrPic : ℕ → Byte) (p : Panel) :
    Fills p (run Panel.receive p (pictureDisplay ptrPic)) ⟨0, 0, 120, 120⟩
      fun c r => ptrPic (2 * (120 * r + c)) ++ ptrPic (2 * (120 * r + c) + 1) := by
  have h := fills_window (show At pictureWindow 0 0 from rfl)
    (opens_origin 120 120 (by decide) (by decide)) p (pictureColour ptrPic)
  rw [pictureDisplay_eq]
  exact h

theorem pictureDisplay_bytes (ptrPic : ℕ → Byte) (p : Panel) :
    pixelBytes p (pictureDisplay ptrPic) ≤
      2 * windowArea (run Panel.receive p (pictureDisplay ptrPic)) := by
  rw [pictureDisplay_eq]
  exact pixelBytes_window (opens_origin 120 120 (by decide) (by decide)) p _

theorem run_guiDrawPoint (p : Panel) (x y color : BitVec 32) :
    (run Panel.receive p (guiDrawPoint x y color)).content =
      Function.update p.content (pixel x.toNat y.toNat) (color.setWidth 16) := by
  rw [guiDrawPoint, run_append, run_tftSetAdd, receive_sendWord rfl, pixel_toNat]
  rfl

theorem guiDrawPoint_fills (x y color : BitVec 32) (p : Panel) :
    Fills p (run Panel.receive p (guiDrawPoint x y color)) ⟨x.toNat, y.toNat, 1, 1⟩
      fun _ _ => color.setWidth 16 := by
  have hcontent := run_guiDrawPoint p x y color
  constructor
  · intro c hc r hr
    obtain rfl : c = 0 := Nat.lt_one_iff.mp hc
    obtain rfl : r = 0 := Nat.lt_one_iff.mp hr
    rw [hcontent, Nat.add_zero, Nat.add_zero]
    exact Function.update_self _ _ _
  · intro a ha
    rw [hcontent]
    exact Function.update_of_ne (ha 0 Nat.zero_lt_one 0 Nat.zero_lt_one) _ _

def pointWindow (x y : BitVec 32) : Window :=
  ⟨x.setWidth 16 + tftColumnOffset, y.setWidth 16 + tftLineOffset, 2, 2,
    by decide, by decide, by decide, by decide⟩

theorem opens_point (x y : BitVec 32) :
    Opens (pointWindow x y) (tftSetAdd (x.setWidth 16) (y.setWidth 16) ((x + 1).setWidth 16)
      ((y + 1).setWidth 16)) := by
  have hend (x : BitVec 32) (offset : Coord) :
      (x + 1).setWidth 16 + offset = x.setWidth 16 + offset + BitVec.ofNat 16 (2 - 1) := by
    rw [BitVec.setWidth_add _ _ (by omega), BitVec.add_assoc, BitVec.add_assoc,
      BitVec.add_comm offset]
    rfl
  exact opens_tftSetAdd _ _ _ rfl rfl (hend x _) (hend y _)

theorem guiDrawPoint_bytes (x y color : BitVec 32) (p : Panel) :
    pixelBytes p (guiDrawPoint x y color) ≤
      2 * windowArea (run Panel.receive p (guiDrawPoint x y color)) := by
  have hpixel : sendWord (color.setWidth 16) = [color.setWidth 16].flatMap sendWord :=
    (List.flatMap_singleton _ _).symm
  rw [guiDrawPoint, hpixel]
  exact pixelBytes_stream (opens_point x y) p _ (show 1 ≤ 2 * 2 by decide)

/-! ### All of them -/

inductive Producer where
  | displayAscii1616 (x y color : BitVec 32) (wordSerialNumber : Byte)
  | displayChar1616 (x y color : BitVec 32) (wordSerialNumber : Byte)
  | tftClear
  | tftFull (color : BitVec 32)
  | pictureDisplay (ptrPic : ℕ → Byte)
  | guiDrawPoint (x y color : BitVec 32)

namespace Producer
variable (ascii chinesWord : Font)

def sends : Producer → List Send
  | displayAscii1616 x y color serial => LcdText.displayAscii1616 ascii x y color serial
  | displayChar1616 x y color serial => LcdRaster.displayChar1616 chinesWord x y color serial
  | tftClear => LcdRaster.tftClear
  | tftFull color => LcdRaster.tftFull color
  | pictureDisplay ptrPic => LcdRaster.pictureDisplay ptrPic
  | guiDrawPoint x y color => LcdRaster.guiDrawPoint x y color

/-- The rectangle it is to fill. -/
def rect : Producer → Rect
  | displayAscii1616 x y _ _ => ⟨x.toNat, y.toNat, 16, 16⟩
  | displayChar1616 x y _ _ => ⟨x.toNat, y.toNat, 16, 16⟩
  | tftClear => ⟨0, 0, 170, 320⟩
  | tftFull _ => ⟨0, 0, 170, 320⟩
  | pictureDisplay _ => ⟨0, 0, 120, 120⟩
  | guiDrawPoint x y _ => ⟨x.toNat, y.toNat, 1, 1⟩

/-- The colour it is to give to column `c` and row `r` of the rectangle. -/
def colour : Producer → ℕ → ℕ → Colour
  | displayAscii1616 _ _ color serial => glyphColour ascii color serial
  | displayChar1616 _ _ color serial => glyphColour chinesWord color serial
  | tftClear => fun _ _ => 0xFFFF
  | tftFull color => fun _ _ => color.setWidth 16
  | pictureDisplay ptrPic => fun c r =>
      ptrPic (2 * (120 * r + c)) ++ ptrPic (2 * (120 * r + c) + 1)
  | guiDrawPoint _ _ color => fun _ _ => color.setWidth 16

theorem fills (g : Producer) (p : Panel) :
    Fills p (run Panel.receive p (g.sends ascii chinesWord)) g.rect
      (g.colour ascii chinesWord) := by
  cases g with
  | displayAscii1616 x y color serial => exact displayAscii1616_fills ascii x y color serial p
  | displayChar1616 x y color serial => exact displayAscii1616_fills chinesWord x y color serial p
  | tftClear =>
      rw [sends, tftClear_eq]
      exact tftFull_fills 0xFFFF p
  | tftFull color => exact tftFull_fills color p
  | pictureDisplay ptrPic => exact pictureDisplay_fills ptrPic p
  | guiDrawPoint x y color => exact guiDrawPoint_fills x y color p

theorem bytes (g : Producer) (p : Panel) :
    pixelBytes p (g.sends ascii chinesWord) ≤
      2 * windowArea (run Panel.receive p (g.sends ascii chinesWord)) := by
  cases g with
  | displayAscii1616 x y color serial => exact displayAscii1616_bytes ascii x y color serial p
  | displayChar1616 x y color serial => exact displayAscii1616_bytes chinesWord x y color serial p
  | tftClear =>
      rw [sends, tftClear_eq]
      exact tftFull_bytes 0xFFFF p
  | tftFull color => exact tftFull_bytes color p
  | pictureDisplay ptrPic => exact pictureDisplay_bytes ptrPic p
  | guiDrawPoint x y color => exact guiDrawPoint_bytes x y color p

/-- From any panel each function fills its rectangle and nothing else, and sends no
more bytes than the window it has opened takes. -/
theorem fills_and_bytes (g : Producer) (p : Panel) :
    Fills p (run Panel.receive p (g.sends ascii chinesWord)) g.rect (g.colour ascii chinesWord) ∧
      pixelBytes p (g.sends ascii chinesWord) ≤
        2 * windowArea (run Panel.receive p (g.sends ascii chinesWord)) :=
  ⟨g.fills ascii chinesWord p, g.bytes ascii chinesWord p⟩

end Producer

end ExpertCar.LcdRaster
