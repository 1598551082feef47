import ExpertCar.LcdRows
import ExpertCar.RecordReplay

/-!
# The display loop

`aht10_handle` from the controller's start on: the screen is whitened, four
labels are drawn, and every pass formats nine texts into fixed buffers and draws
them in their rows. No text outgrows its buffer, whatever the readings. A live
row is drawn without being blanked first, so what the panel shows of it depends on
every text it has held; the review rows are blanked as soon as the review is off.
-/
namespace ExpertCar.DisplayLoop
open StepRuns LcdPanel LcdText LcdRaster LcdRows RecordReplay DecimalText

def BLUE : BitVec 32 := 0x001F
def WHITE : BitVec 32 := 0xFFFF

/-- The characters of a text as the display gets them. -/
def bytes (s : List Char) : List Byte := s.map fun c => BitVec.ofNat 8 c.toNat

/-- `TFT_init`: a command and its data bytes a line. -/
def tftInit : List Send :=
  [.cmd 0x11,
    .cmd 0x3A, .data 0x05,
    .cmd 0xC5, .data 0x1A,
    .cmd 0x36, .data 0x00,
    .cmd 0xB2, .data 0x05, .data 0x05, .data 0x00, .data 0x33, .data 0x33,
    .cmd 0xB7, .data 0x05,
    .cmd 0xBB, .data 0x3F,
    .cmd 0xC0, .data 0x2C,
    .cmd 0xC2, .data 0x01,
    .cmd 0xC3, .data 0x0F,
    .cmd 0xC4, .data 0x20,
    .cmd 0xC6, .data 0x01,
    .cmd 0xD0, .data 0xA4, .data 0xA1,
    .cmd 0xE8, .data 0x03,
    .cmd 0xE9, .data 0x09, .data 0x09, .data 0x08,
    .cmd 0xE0, .data 0xD0, .data 0x05, .data 0x09, .data 0x09, .data 0x08, .data 0x14, .data 0x28,
      .data 0x33, .data 0x3F, .data 0x07, .data 0x13, .data 0x14, .data 0x28, .data 0x30,
    .cmd 0xE1, .data 0xD0, .data 0x05, .data 0x09, .data 0x09, .data 0x08, .data 0x03, .data 0x24,
      .data 0x32, .data 0x32, .data 0x3B, .data 0x14, .data 0x13, .data 0x28, .data 0x2F,
    .cmd 0x21,
    .cmd 0x29]

def labels : List Draw :=
  [⟨0, GREEN, bytes "humidity:".toList⟩, ⟨2, GREEN, bytes "temperature:".toList⟩,
    ⟨5, BLACK, bytes "smoke:".toList⟩, ⟨13, BLUE, bytes "find people".toList⟩]

/-- Nineteen blanks. -/
def blanks : List Char := "                   ".toList

/-- The draws of one pass, from the buffers it filled. -/
def passDraws (b : Buffers) (keyFlag : Byte) : List Draw :=
  [⟨4, BLACK, bytes b.powerBuf⟩, ⟨6, BLACK, bytes b.detectBuf⟩, ⟨1, BLACK, bytes b.humidityBuf⟩,
    ⟨3, BLACK, bytes b.temperatureBuf⟩, ⟨14, BLACK, bytes b.peopleBuf⟩] ++
  if keyFlag = 1 then
    [⟨7, BLACK, bytes b.string1⟩, ⟨8, BLACK, bytes b.string2⟩, ⟨9, BLACK, bytes b.string3⟩,
      ⟨10, BLACK, bytes b.string4⟩]
  else if keyFlag = 0 then
    [⟨7, BLACK, bytes blanks⟩, ⟨8, BLACK, bytes blanks⟩, ⟨9, BLACK, bytes blanks⟩,
      ⟨10, BLACK, bytes blanks⟩]
  else []

/-- A pass of the display thread, or an alarm text the sensor thread draws while the
display thread sleeps. -/
inductive Turn where
  | pass (g : Shared)
  | humiError
  | tempError

def Turn.buffers (b : Buffers) : Turn → Buffers
  | .pass g => aht10Handle b g
  | .humiError => b
  | .tempError => b

def Turn.draws (b : Buffers) : Turn → List Draw
  | .pass g => passDraws (aht10Handle b g) g.keyFlag
  | .humiError => [⟨11, BLACK, bytes "humi error".toList⟩]
  | .tempError => [⟨12, BLACK, bytes "temp error".toList⟩]

structure Display where
  buffers : Buffers
  panel : Panel

def whitened (p : Panel) : Panel := run Panel.receive p (tftInit ++ tftFull WHITE)

/-- Anything but the commands that open a window or a write. -/
def isSetting : Send → Bool
  | .cmd byte => byte != 0x2A && byte != 0x2B && byte != 0x2C
  | .data _ => true

theorem receive_setting {p : Panel} (hmode : p.mode = .other) {s : Send} (hs : isSetting s = true) :
    (p.receive s).mode = .other ∧ (p.receive s).content = p.content := by
  cases s with
  | cmd byte =>
      simp only [isSetting, Bool.and_eq_true, bne_iff_ne] at hs
      simp only [Panel.receive, Panel.receiveCmd, if_neg hs.1.1, if_neg hs.1.2, if_neg hs.2]
      exact ⟨trivial, trivial⟩
  | data byte =>
      simp only [Panel.receive, Panel.receiveData, hmode]
      exact ⟨trivial, trivial⟩

theorem run_settings {sends : List Send} (hsends : sends.all isSetting = true) {p : Panel}
    (hmode : p.mode = .other) : (run Panel.receive p sends).content = p.content := by
  induction sends generalizing p with
  | nil => rfl
  | cons s sends ih =>
      obtain ⟨hs, hrest⟩ := Bool.and_eq_true_iff.mp hsends
      obtain ⟨hmode, hcontent⟩ := receive_setting hmode hs
      exact (ih hrest hmode).trans hcontent

/-- None of the settings of `TFT_init` writes a pixel. -/
theorem whitened_fills (p : Panel) :
    Fills p (whitened p) ⟨0, 0, 170, 320⟩ fun _ _ => 0xFFFF := by
  have hcontent : (run Panel.receive p tftInit).content = p.content := by
    rw [tftInit, run_cons]
    exact run_settings rfl rfl
  obtain ⟨hinside, houtside⟩ := tftFull_fills WHITE (run Panel.receive p tftInit)
  rw [whitened, run_append]
  exact ⟨hinside, fun a ha => (houtside a ha).trans (congrFun hcontent a)⟩

def start (font : Font) (p : Panel) : Display :=
  ⟨noTexts, run Panel.receive (whitened p) (labels.flatMap (Draw.sends font))⟩

def turn (font : Font) (s : Display) (t : Turn) : Display :=
  ⟨t.buffers s.buffers, run Panel.receive s.panel ((t.draws s.buffers).flatMap (Draw.sends font))⟩

/-! ### The buffers -/

/-- The text and its terminating zero fit `size` bytes, and no zero comes before. -/
def Held (size : ℕ) (s : List Char) : Prop := s.length < size ∧ ∀ c ∈ s, 1 ≤ c.toNat ∧ c.toNat < 256

/-- The declared sizes of the nine arrays. -/
structure Fit (b : Buffers) : Prop where
  powerBuf : Held 40 b.powerBuf
  detectBuf : Held 40 b.detectBuf
  humidityBuf : Held 20 b.humidityBuf
  temperatureBuf : Held 20 b.temperatureBuf
  peopleBuf : Held 20 b.peopleBuf
  string1 : Held 20 b.string1
  string2 : Held 20 b.string2
  string3 : Held 20 b.string3
  string4 : Held 10 b.string4

theorem Held.mono {m n : ℕ} {s : List Char} (h : Held m s) (hmn : m ≤ n) : Held n s :=
  ⟨h.1.trans_le hmn, h.2⟩

theorem Held.append {m n : ℕ} {s t : List Char} (hs : Held (m + 1) s) (ht : Held (n + 1) t) :
    Held (m + n + 1) (s ++ t) := by
  refine ⟨?_, fun c hc => ?_⟩
  · have hm := hs.1
    have hn := ht.1
    rw [List.length_append]
    omega
  · rcases List.mem_append.mp hc with hc | hc
    · exact hs.2 c hc
    · exact ht.2 c hc

theorem held_of_all {n : ℕ} {s : List Char} (hlength : s.length < n)
    (hall : (s.all fun c => decide (1 ≤ c.toNat ∧ c.toNat < 256)) = true) : Held n s :=
  ⟨hlength, fun c hc => of_decide_eq_true (List.all_eq_true.mp hall c hc)⟩

theorem isDigit_bounds {c : Char} (h : c.isDigit = true) : 1 ≤ c.toNat ∧ c.toNat < 256 := by
  simp only [Char.isDigit, Bool.and_eq_true, decide_eq_true_eq, ge_iff_le,
    UInt32.le_iff_toNat_le] at h
  have hzero : ('0'.val).toNat = 48 := rfl
  have hnine : ('9'.val).toNat = 57 := rfl
  have hvalue : c.toNat = c.val.toNat := rfl
  omega

theorem held_decimal {n : ℕ} (k : ℕ) (hk : 0 < k) (hn : n < 10 ^ k) : Held (k + 1) (decimal n) :=
  ⟨Nat.lt_succ_of_le (Nat.toDigits_length 10 n k hk hn), fun _ hc =>
    isDigit_bounds (Nat.isDigit_of_mem_toDigits (by omega) (by omega) hc)⟩

/-- The leading zero takes a place only where the number has a single digit. -/
theorem held_decimal02 {n : ℕ} (k : ℕ) (hk : 2 ≤ k) (hn : n < 10 ^ k) :
    Held (k + 1) (decimal02 n) := by
  have h := held_decimal k (by omega) hn
  unfold decimal02
  split_ifs with hshort
  · refine ⟨?_, fun c hc => ?_⟩
    · rw [List.length_cons]
      omega
    · rcases List.mem_cons.mp hc with rfl | hc
      · decide
      · exact h.2 c hc
  · exact h

theorem held_point {k : ℕ} {s : List Char} (h : Held (k + 1) s) : Held (k + 2) ('.' :: s) :=
  Held.mono (Held.append (m := 1) (s := ['.']) (held_of_all (by decide) (by decide)) h) (by omega)

theorem held_pointed {a b : ℕ} (k l : ℕ) (hk : 0 < k) (hl : 0 < l) (ha : a < 10 ^ k)
    (hb : b < 10 ^ l) : Held (k + (l + 1) + 1) (pointed a b) :=
  (held_decimal k hk ha).append (held_point (held_decimal l hl hb))

theorem held_pointed02 {a b : ℕ} (k l : ℕ) (hk : 0 < k) (hl : 2 ≤ l) (ha : a < 10 ^ k)
    (hb : b < 10 ^ l) : Held (k + (l + 1) + 1) (pointed02 a b) :=
  (held_decimal k hk ha).append (held_point (held_decimal02 l hl hb))

theorem held_nil {n : ℕ} : Held (n + 1) [] :=
  ⟨Nat.succ_pos n, fun _ hc => absurd hc List.not_mem_nil⟩

/-- A byte takes at most three digits. -/
theorem byte_lt (x : Byte) : x.toNat < 10 ^ 3 := x.isLt.trans (by decide)

theorem held_powerText (adcValue0 : BitVec 16) : Held 16 (powerText adcValue0) := by
  have hvoltage : voltage1 adcValue0 ≤ 5279 := by
    have hadc := adcValue0.isLt
    unfold voltage1
    omega
  have hvolt : Held 6 "volt:".toList := held_of_all (by decide) (by decide)
  have hunit : Held 3 " V".toList := held_of_all (by decide) (by decide)
  have hnumber : Held 9 (pointed (voltage1 adcValue0 / 100 * 11)
      (voltage1 adcValue0 % 100 * 11 + 160)) :=
    held_pointed 3 4 (by decide) (by decide) (by omega) (by omega)
  exact (hvolt.append hnumber).append hunit

/-- The four texts of a record. -/
theorem held_smoke (x : Byte) : Held 8 (pointed02 (x.toNat / 25) (x.toNat * 4)) := by
  have hx := x.isLt
  exact held_pointed02 2 4 (by decide) (by decide) (by omega) (by omega)

theorem held_digit (x : Byte) : Held 6 (pointed x.toNat (x.toNat * 10 % 10)) :=
  held_pointed 3 1 (by decide) (by decide) (byte_lt x) (by omega)

theorem held_note (x : Byte) : Held 10 (" note:".toList ++ decimal x.toNat) :=
  Held.append (m := 6) (held_of_all (by decide) (by decide))
    (held_decimal 3 (by decide) (byte_lt x))

theorem fit_noTexts : Fit noTexts :=
  ⟨held_nil, held_nil, held_nil, held_nil, held_nil, held_nil, held_nil, held_nil, held_nil⟩

/-- Whatever the readings, the texts of a pass fit; `" note:255"` fills its buffer. -/
theorem Fit.aht10Handle {b : Buffers} (h : Fit b) (g : Shared) :
    Fit (RecordReplay.aht10Handle b g) := by
  have hbyte (x y : Byte) : Held 20 (pointed x.toNat y.toNat) :=
    (held_pointed 3 3 (by decide) (by decide) (byte_lt x) (byte_lt y)).mono (by decide)
  have hpower : Held 40 (powerText g.adcValue0) := (held_powerText g.adcValue0).mono (by decide)
  have hdetect : Held 40 (pointed02 (g.adcValue1.toNat / 25) (g.adcValue1.toNat * 4)) := by
    have hadc := g.adcValue1.isLt
    exact (held_pointed02 4 6 (by decide) (by decide) (by omega) (by omega)).mono (by decide)
  have hpeople : Held 20 (decimal g.peopleNumber.toNat) :=
    (held_decimal 3 (by decide) (byte_lt _)).mono (by decide)
  unfold RecordReplay.aht10Handle
  split_ifs
  · exact ⟨hpower, hdetect, hbyte _ _, hbyte _ _, hpeople, (held_smoke _).mono (by decide),
      (held_digit _).mono (by decide), (held_digit _).mono (by decide), held_note _⟩
  · exact ⟨hpower, hdetect, hbyte _ _, hbyte _ _, hpeople, held_nil, held_nil, held_nil, held_nil⟩
  · exact ⟨hpower, hdetect, hbyte _ _, hbyte _ _, hpeople, h.string1, h.string2, h.string3,
      h.string4⟩

/-! ### The rows -/

theorem Held.fits {n : ℕ} {s : List Char} (h : Held n s) (hn : n ≤ 4097) {row : ℕ}
    (hrow : row < 16) (color : BitVec 32) : Draw.Fits ⟨row, color, bytes s⟩ := by
  refine ⟨fun ch hch => ?_, ?_, hrow⟩
  · obtain ⟨c, hc, rfl⟩ := List.mem_map.mp hch
    have hbounds := h.2 c hc
    intro hzero
    have hvalue := congrArg BitVec.toNat hzero
    rw [BitVec.toNat_ofNat, Nat.mod_eq_of_lt hbounds.2] at hvalue
    change c.toNat = 0 at hvalue
    omega
  · have hlength := h.1
    simp only [bytes, List.length_map]
    omega

theorem labels_fit : ∀ d ∈ labels, d.Fits := by
  have hlabel {s : List Char} (hlength : s.length < 13)
      (hall : (s.all fun c => decide (1 ≤ c.toNat ∧ c.toNat < 256)) = true) {row : ℕ}
      (hrow : row < 16) (color : BitVec 32) : Draw.Fits ⟨row, color, bytes s⟩ :=
    (held_of_all hlength hall).fits (by decide) hrow color
  simp only [labels, List.forall_mem_cons, List.not_mem_nil, false_implies, implies_true, and_true]
  exact ⟨hlabel (by decide) (by decide) (by decide) _, hlabel (by decide) (by decide) (by decide) _,
    hlabel (by decide) (by decide) (by decide) _, hlabel (by decide) (by decide) (by decide) _⟩

theorem passDraws_fit {b : Buffers} (h : Fit b) (keyFlag : Byte) :
    ∀ d ∈ passDraws b keyFlag, d.Fits := by
  have hblanks : Held 20 blanks := held_of_all (by decide) (by decide)
  unfold passDraws
  rw [List.forall_mem_append]
  constructor
  · simp only [List.forall_mem_cons, List.not_mem_nil, false_implies, implies_true, and_true]
    exact ⟨h.powerBuf.fits (by decide) (by decide) _, h.detectBuf.fits (by decide) (by decide) _,
      h.humidityBuf.fits (by decide) (by decide) _, h.temperatureBuf.fits (by decide) (by decide) _,
      h.peopleBuf.fits (by decide) (by decide) _⟩
  · split_ifs <;>
      simp only [List.forall_mem_cons, List.not_mem_nil, false_implies, implies_true, and_true]
    · exact ⟨h.string1.fits (by decide) (by decide) _, h.string2.fits (by decide) (by decide) _,
        h.string3.fits (by decide) (by decide) _, h.string4.fits (by decide) (by decide) _⟩
    · exact ⟨hblanks.fits (by decide) (by decide) _, hblanks.fits (by decide) (by decide) _,
        hblanks.fits (by decide) (by decide) _, hblanks.fits (by decide) (by decide) _⟩

theorem turn_fit {b : Buffers} (h : Fit b) (t : Turn) :
    Fit (t.buffers b) ∧ ∀ d ∈ t.draws b, d.Fits := by
  have halarm : Held 11 "humi error".toList ∧ Held 11 "temp error".toList :=
    ⟨held_of_all (by decide) (by decide), held_of_all (by decide) (by decide)⟩
  cases t with
  | pass g => exact ⟨h.aht10Handle g, passDraws_fit (h.aht10Handle g) g.keyFlag⟩
  | humiError =>
      exact ⟨h, List.forall_mem_singleton.mpr (halarm.1.fits (by decide) (by decide) _)⟩
  | tempError =>
      exact ⟨h, List.forall_mem_singleton.mpr (halarm.2.fits (by decide) (by decide) _)⟩

/-- What a pass draws it has formatted in the same pass. -/
theorem draws_eq (t : Turn) (b : Buffers) : t.draws b = t.draws noTexts := by
  cases t with
  | pass g =>
      simp only [Turn.draws, passDraws, RecordReplay.aht10Handle]
      split_ifs <;> rfl
  | humiError => rfl
  | tempError => rfl

def rowsAfter (turns : List Turn) : Rows :=
  (labels ++ turns.flatMap (Turn.draws noTexts)).foldl Rows.draw fun _ => []

theorem start_shows (font : Font) (p : Panel) :
    Shows font (whitened p).content (labels.foldl Rows.draw fun _ => []) (start font p).panel := by
  unfold start
  generalize whitened p = q
  exact (shows_nil font q).draws labels_fit

theorem display_shows (font : Font) (p : Panel) (turns : List Turn) :
    Fit (run (turn font) (start font p) turns).buffers ∧
      Shows font (whitened p).content (rowsAfter turns)
        (run (turn font) (start font p) turns).panel := by
  have hrun {s : Display} {rows : Rows} (hfit : Fit s.buffers)
      (hshows : Shows font (whitened p).content rows s.panel) :
      Fit (run (turn font) s turns).buffers ∧ Shows font (whitened p).content
        ((turns.flatMap (Turn.draws noTexts)).foldl Rows.draw rows)
        (run (turn font) s turns).panel := by
    induction turns generalizing s rows with
    | nil => exact ⟨hfit, hshows⟩
    | cons t turns ih =>
        obtain ⟨hbuffers, hdraws⟩ := turn_fit hfit t
        rw [List.flatMap_cons, List.foldl_append, ← draws_eq t s.buffers]
        exact ih hbuffers (hshows.draws hdraws)
  unfold rowsAfter
  rw [List.foldl_append]
  exact hrun fit_noTexts (start_shows font p)

/-! ### What a row reads -/

/-- The text of the current reading in a live row. -/
def liveText (g : Shared) : ℕ → List Byte
  | 1 => bytes (pointed (g.data 0).toNat (g.data 1).toNat)
  | 3 => bytes (pointed (g.data 2).toNat (g.data 3).toNat)
  | 4 => bytes (powerText g.adcValue0)
  | 6 => bytes (pointed02 (g.adcValue1.toNat / 25) (g.adcValue1.toNat * 4))
  | 14 => bytes (decimal g.peopleNumber.toNat)
  | _ => []

def liveRows : List ℕ := [1, 3, 4, 6, 14]

def reviewRows : List ℕ := [7, 8, 9, 10]

def Turn.rowTexts (k : ℕ) (t : Turn) : List (List Byte) :=
  ((t.draws noTexts).filter fun d => d.row = k).map Draw.text

def labelTexts (k : ℕ) : List (List Byte) := (labels.filter fun d => d.row = k).map Draw.text

theorem rowsAfter_eq (turns : List Turn) (k : ℕ) :
    rowsAfter turns k = layered [] (labelTexts k ++ turns.flatMap (Turn.rowTexts k)) := by
  unfold rowsAfter
  rw [foldl_draw_row, List.filter_append, List.map_append, List.filter_flatMap, List.map_flatMap]
  rfl

theorem rowsAfter_append (turns turns' : List Turn) (k : ℕ) :
    rowsAfter (turns ++ turns') k =
      layered (rowsAfter turns k) (turns'.flatMap (Turn.rowTexts k)) := by
  rw [rowsAfter_eq, rowsAfter_eq, List.flatMap_append, ← List.append_assoc, layered_append]

/-- The texts of a row in which only the passes draw. -/
def Turn.passText (f : Shared → List Byte) : Turn → List (List Byte)
  | .pass g => [f g]
  | _ => []

theorem forall_rowTexts {k : ℕ} {f : Shared → List Byte} {turns : List Turn}
    (h : ∀ t ∈ turns, t.rowTexts k = t.passText f) {P : List Byte → Prop} :
    (∀ text ∈ turns.flatMap (Turn.rowTexts k), P text) ↔ ∀ g, Turn.pass g ∈ turns → P (f g) := by
  constructor
  · intro hall g hg
    refine hall _ (List.mem_flatMap.mpr ⟨.pass g, hg, ?_⟩)
    rw [h _ hg]
    exact List.mem_singleton_self _
  · intro hall text htext
    obtain ⟨t, ht, htext⟩ := List.mem_flatMap.mp htext
    rw [h t ht] at htext
    cases t with
    | pass g => exact List.mem_singleton.mp htext ▸ hall g ht
    | humiError => exact absurd htext List.not_mem_nil
    | tempError => exact absurd htext List.not_mem_nil

theorem rowTexts_label {d : Draw} (hd : d ∈ labels) (t : Turn) : t.rowTexts d.row = [] := by
  have hrow : d.row = 0 ∨ d.row = 2 ∨ d.row = 5 ∨ d.row = 13 := by
    simp only [labels, List.mem_cons, List.not_mem_nil, or_false] at hd
    rcases hd with rfl | rfl | rfl | rfl <;> simp
  cases t with
  | pass g =>
      simp only [Turn.rowTexts, Turn.draws, passDraws]
      split_ifs <;> rcases hrow with h | h | h | h <;> rw [h] <;> rfl
  | humiError => rcases hrow with h | h | h | h <;> rw [h] <;> rfl
  | tempError => rcases hrow with h | h | h | h <;> rw [h] <;> rfl

theorem rowTexts_live {k : ℕ} (hk : k ∈ liveRows) (t : Turn) :
    t.rowTexts k = t.passText fun g => liveText g k := by
  simp only [liveRows, List.mem_cons, List.not_mem_nil, or_false] at hk
  cases t with
  | pass g =>
      simp only [Turn.rowTexts, Turn.draws, passDraws, RecordReplay.aht10Handle]
      split_ifs <;> rcases hk with rfl | rfl | rfl | rfl | rfl <;> rfl
  | humiError => rcases hk with rfl | rfl | rfl | rfl | rfl <;> rfl
  | tempError => rcases hk with rfl | rfl | rfl | rfl | rfl <;> rfl

/-- The text of the chosen record in a review row. -/
def reviewText (g : Shared) : ℕ → List Byte
  | 7 => bytes (aht10Handle noTexts g).string1
  | 8 => bytes (aht10Handle noTexts g).string2
  | 9 => bytes (aht10Handle noTexts g).string3
  | 10 => bytes (aht10Handle noTexts g).string4
  | _ => []

theorem rowTexts_review {k : ℕ} (hk : k ∈ reviewRows) (t : Turn) :
    t.rowTexts k = match t with
      | .pass g =>
          if g.keyFlag = 1 then [reviewText g k]
          else if g.keyFlag = 0 then [bytes blanks]
          else []
      | _ => [] := by
  simp only [reviewRows, List.mem_cons, List.not_mem_nil, or_false] at hk
  cases t with
  | pass g =>
      simp only [Turn.rowTexts, Turn.draws, passDraws]
      split_ifs <;> rcases hk with rfl | rfl | rfl | rfl <;> rfl
  | humiError => rcases hk with rfl | rfl | rfl | rfl <;> rfl
  | tempError => rcases hk with rfl | rfl | rfl | rfl <;> rfl

theorem reviewText_length (g : Shared) {k : ℕ} (hk : k ∈ reviewRows) :
    (reviewText g k).length ≤ (bytes blanks).length := by
  have hfit := fit_noTexts.aht10Handle g
  have hbytes {s : List Char} (h : Held 20 s) : (bytes s).length ≤ (bytes blanks).length := by
    have hblanks : (bytes blanks).length = 19 := rfl
    rw [hblanks, bytes, List.length_map]
    exact Nat.le_of_lt_succ h.1
  simp only [reviewRows, List.mem_cons, List.not_mem_nil, or_false] at hk
  rcases hk with rfl | rfl | rfl | rfl
  · exact hbytes hfit.string1
  · exact hbytes hfit.string2
  · exact hbytes hfit.string3
  · exact hbytes (hfit.string4.mono (by decide))

/-- No text of a review row is longer than the nineteen blanks. -/
theorem rowTexts_length {k : ℕ} (hk : k ∈ reviewRows) (t : Turn) :
    ∀ text ∈ t.rowTexts k, text.length ≤ (bytes blanks).length := by
  rw [rowTexts_review hk t]
  cases t with
  | pass g =>
      dsimp only
      split_ifs
      · exact List.forall_mem_singleton.mpr (reviewText_length g hk)
      · exact List.forall_mem_singleton.mpr le_rfl
      · exact List.forall_mem_nil _
  | humiError => exact List.forall_mem_nil _
  | tempError => exact List.forall_mem_nil _

/-- A pass with the review off blanks its rows. -/
theorem rowsAfter_blank (turns : List Turn) {g : Shared} (hoff : g.keyFlag = 0) {k : ℕ}
    (hk : k ∈ reviewRows) : rowsAfter (turns ++ [.pass g]) k = bytes blanks := by
  have hlabel : labelTexts k = [] := by
    simp only [reviewRows, List.mem_cons, List.not_mem_nil, or_false] at hk
    rcases hk with rfl | rfl | rfl | rfl <;> rfl
  have hblank : (Turn.pass g).rowTexts k = [bytes blanks] := by
    rw [rowTexts_review hk]
    dsimp only
    rw [hoff, if_neg (by decide), if_pos rfl]
  rw [rowsAfter_eq, hlabel, List.nil_append, List.flatMap_append, List.flatMap_singleton, hblank,
    layered_eq_last_iff]
  intro text htext
  obtain ⟨t, _, htext⟩ := List.mem_flatMap.mp htext
  exact rowTexts_length hk t text htext

/-- The panel shows of a live row what its current text would show there exactly when no
earlier text showed more characters. -/
theorem visible_live_iff (turns : List Turn) (g : Shared) {k : ℕ} (hk : k ∈ liveRows) :
    visible (rowsAfter (turns ++ [.pass g]) k) = visible (liveText g k) ↔
      ∀ g', Turn.pass g' ∈ turns →
        (visible (liveText g' k)).length ≤ (visible (liveText g k)).length := by
  have hlabel : labelTexts k = [] := by
    simp only [liveRows, List.mem_cons, List.not_mem_nil, or_false] at hk
    rcases hk with rfl | rfl | rfl | rfl | rfl <;> rfl
  have hlast : (Turn.pass g).rowTexts k = [liveText g k] := rowTexts_live hk (.pass g)
  have hrow : visible (rowsAfter (turns ++ [.pass g]) k) =
      layered [] ((turns.flatMap (Turn.rowTexts k)).map visible ++ [visible (liveText g k)]) := by
    rw [rowsAfter_eq, hlabel, List.nil_append, List.flatMap_append, List.flatMap_singleton, hlast,
      visible, layered_take, List.take_nil, List.map_append]
    rfl
  rw [hrow, layered_eq_last_iff, List.forall_mem_map]
  exact forall_rowTexts fun t _ => rowTexts_live hk t

/-- Any passes with any readings, and alarm texts between them, end with a pass on `g`.
The labels stand; the panel shows a live row's current text exactly when it showed no longer
one; with the review off its rows are blank. -/
theorem display_run (font : Font) (p : Panel) (turns : List Turn) (g : Shared) :
    Fit (run (turn font) (start font p) (turns ++ [.pass g])).buffers ∧
      Fills p (whitened p) ⟨0, 0, 170, 320⟩ (fun _ _ => 0xFFFF) ∧
      Shows font (whitened p).content (rowsAfter (turns ++ [.pass g]))
        (run (turn font) (start font p) (turns ++ [.pass g])).panel ∧
      (∀ d ∈ labels, rowsAfter (turns ++ [.pass g]) d.row = d.text) ∧
      (∀ k ∈ liveRows, visible (rowsAfter (turns ++ [.pass g]) k) = visible (liveText g k) ↔
        ∀ g', Turn.pass g' ∈ turns →
          (visible (liveText g' k)).length ≤ (visible (liveText g k)).length) ∧
      (g.keyFlag = 0 → ∀ k ∈ reviewRows, rowsAfter (turns ++ [.pass g]) k = bytes blanks) := by
  obtain ⟨hfit, hshows⟩ := display_shows font p (turns ++ [Turn.pass g])
  refine ⟨hfit, whitened_fills p, hshows, fun d hd => ?_, fun k => visible_live_iff turns g,
    fun hkeyFlag k => rowsAfter_blank turns hkeyFlag⟩
  have hturns : (turns ++ [Turn.pass g]).flatMap (Turn.rowTexts d.row) = [] :=
    List.flatMap_eq_nil_iff.mpr fun t _ => rowTexts_label hd t
  rw [rowsAfter_eq, hturns, List.append_nil]
  simp only [labels, List.mem_cons, List.not_mem_nil, or_false] at hd
  rcases hd with rfl | rfl | rfl | rfl <;> rfl

/-! ### A review over the blanks -/

def Inked (s : List Byte) : Prop := ∀ ch ∈ s, ch ≠ 0x20

theorem Inked.append {s t : List Byte} (hs : Inked s) (ht : Inked t) : Inked (s ++ t) :=
  List.forall_mem_append.mpr ⟨hs, ht⟩

theorem inked_decimal (n : ℕ) : Inked (bytes (decimal n)) := by
  intro ch hch
  obtain ⟨c, hc, rfl⟩ := List.mem_map.mp hch
  have hdigit := Nat.isDigit_of_mem_toDigits (by omega) (by omega) hc
  rintro hblank
  have hvalue := congrArg BitVec.toNat hblank
  rw [BitVec.toNat_ofNat, Nat.mod_eq_of_lt (isDigit_bounds hdigit).2] at hvalue
  have hspace : c = ' ' := Char.toNat_inj.mp hvalue
  exact absurd (hspace ▸ hdigit) (by decide)

theorem inked_decimal02 (n : ℕ) : Inked (bytes (decimal02 n)) := by
  unfold decimal02
  split_ifs
  · exact List.forall_mem_cons.mpr ⟨by decide, inked_decimal n⟩
  · exact inked_decimal n

theorem inked_pointed (a b : ℕ) : Inked (bytes (pointed a b)) := by
  rw [bytes, pointed, List.map_append, List.map_cons]
  exact (inked_decimal a).append (List.forall_mem_cons.mpr ⟨by decide, inked_decimal b⟩)

theorem inked_pointed02 (a b : ℕ) : Inked (bytes (pointed02 a b)) := by
  rw [bytes, pointed02, List.map_append, List.map_cons]
  exact (inked_decimal a).append (List.forall_mem_cons.mpr ⟨by decide, inked_decimal02 b⟩)

/-- Only the number of the record has words in front. -/
def reviewWords (k : ℕ) : List Byte := if k = 10 then bytes " note:".toList else []

theorem reviewText_on {g : Shared} (hkeyFlag : g.keyFlag = 1) {k : ℕ} (hk : k ∈ reviewRows) :
    ∃ ink, Inked ink ∧ reviewText g k = reviewWords k ++ ink := by
  simp only [reviewRows, List.mem_cons, List.not_mem_nil, or_false] at hk
  rcases hk with rfl | rfl | rfl | rfl <;> rw [reviewText, aht10Handle, if_pos hkeyFlag]
  · exact ⟨bytes (reviewTexts (g.reviewBuf g.buf.toNat) g.buf noTexts).string1,
      inked_pointed02 _ _, rfl⟩
  · exact ⟨bytes (reviewTexts (g.reviewBuf g.buf.toNat) g.buf noTexts).string2,
      inked_pointed _ _, rfl⟩
  · exact ⟨bytes (reviewTexts (g.reviewBuf g.buf.toNat) g.buf noTexts).string3,
      inked_pointed _ _, rfl⟩
  · exact ⟨bytes (decimal g.buf.toNat), inked_decimal _, List.map_append⟩

/-- Past the end of one record's text another's has no blank. -/
theorem reviewText_past {g g' : Shared} (hg : g.keyFlag = 1) (hg' : g'.keyFlag = 1) {k i : ℕ}
    (hk : k ∈ reviewRows) (hi : (reviewText g k).length ≤ i) (hi' : i < (reviewText g' k).length) :
    (reviewText g' k).getD i 0 ≠ (bytes blanks).getD i 0 := by
  have hblank : (bytes blanks).getD i 0 = 0x20 := by
    have hbound : i < 19 := hi'.trans_le (reviewText_length g' hk)
    have hblanks : bytes blanks = List.replicate 19 0x20 := rfl
    rw [hblanks, List.getD_replicate _ hbound]
  obtain ⟨ink, _, htext⟩ := reviewText_on hg hk
  obtain ⟨ink', hink', htext'⟩ := reviewText_on hg' hk
  have hwords : (reviewWords k).length ≤ i := by
    rw [htext, List.length_append] at hi
    omega
  rw [hblank, htext', List.getD_append_right _ _ _ _ hwords, List.getD_eq_getElem]
  · exact hink' _ (List.getElem_mem _)
  · rw [htext', List.length_append] at hi'
    omega

/-- A record's text lies within the panel's columns. -/
theorem reviewText_short {g : Shared} (hkeyFlag : g.keyFlag = 1) {k : ℕ} (hk : k ∈ reviewRows) :
    (reviewText g k).length ≤ 9 := by
  have hbytes {n : ℕ} {s : List Char} (h : Held n s) (hn : n ≤ 10) : (bytes s).length ≤ 9 := by
    rw [bytes, List.length_map]
    have hlength := h.1
    omega
  simp only [reviewRows, List.mem_cons, List.not_mem_nil, or_false] at hk
  rcases hk with rfl | rfl | rfl | rfl <;> rw [reviewText, aht10Handle, if_pos hkeyFlag]
  · exact hbytes (held_smoke _) (by decide)
  · exact hbytes (held_digit _) (by decide)
  · exact hbytes (held_digit _) (by decide)
  · exact hbytes (held_note _) le_rfl

/-- The row of a review since it was off. -/
theorem rowsAfter_review (before shown : List Turn) {g₀ g : Shared} (hoff : g₀.keyFlag = 0)
    (hshown : ∀ g', Turn.pass g' ∈ shown → g'.keyFlag = 1) (hg : g.keyFlag = 1) {k : ℕ}
    (hk : k ∈ reviewRows) :
    (∀ t ∈ shown, t.rowTexts k = t.passText fun g' => reviewText g' k) ∧
      rowsAfter (before ++ .pass g₀ :: shown ++ [.pass g]) k =
        layered (bytes blanks) (shown.flatMap (Turn.rowTexts k) ++ [reviewText g k]) := by
  have hon {t : Turn} (ht : ∀ g', t = .pass g' → g'.keyFlag = 1) :
      t.rowTexts k = t.passText fun g' => reviewText g' k := by
    rw [rowTexts_review hk]
    cases t with
    | pass g' => exact if_pos (ht g' rfl)
    | humiError => rfl
    | tempError => rfl
  have hlast : (Turn.pass g).rowTexts k = [reviewText g k] :=
    hon fun g' hpass => Turn.pass.inj hpass ▸ hg
  have hsplit : before ++ .pass g₀ :: shown ++ [.pass g] =
      before ++ [.pass g₀] ++ (shown ++ [.pass g]) := by
    simp only [List.append_assoc, List.cons_append, List.nil_append]
  refine ⟨fun t ht => hon fun g' hpass => hshown g' (hpass ▸ ht), ?_⟩
  rw [hsplit, rowsAfter_append, rowsAfter_blank before hoff hk, List.flatMap_append,
    List.flatMap_singleton, hlast]

/-- After a pass with the review off, passes that show records: a row of the review
reads the record's text with blanks after it exactly when no record before it, since
the review was off, had a longer text there; and the panel shows whether it does. -/
theorem review_run (font : Font) (p : Panel) (before shown : List Turn) {g₀ g : Shared}
    (hoff : g₀.keyFlag = 0) (hshown : ∀ g', Turn.pass g' ∈ shown → g'.keyFlag = 1)
    (hg : g.keyFlag = 1) :
    Shows font (whitened p).content (rowsAfter (before ++ .pass g₀ :: shown ++ [.pass g]))
      (run (turn font) (start font p) (before ++ .pass g₀ :: shown ++ [.pass g])).panel ∧
    (∀ k ∈ reviewRows, rowsAfter (before ++ .pass g₀ :: shown ++ [.pass g]) k =
        overlay (reviewText g k) (bytes blanks) ↔
      ∀ g', Turn.pass g' ∈ shown → (reviewText g' k).length ≤ (reviewText g k).length) ∧
    ∀ k ∈ reviewRows, visible (rowsAfter (before ++ .pass g₀ :: shown ++ [.pass g]) k) =
        visible (overlay (reviewText g k) (bytes blanks)) ↔
      rowsAfter (before ++ .pass g₀ :: shown ++ [.pass g]) k =
        overlay (reviewText g k) (bytes blanks) := by
  refine ⟨(display_shows font p _).2, fun k hk => ?_, fun k hk => ?_⟩
  · obtain ⟨hall, hrow⟩ := rowsAfter_review before shown hoff hshown hg hk
    rw [hrow, layered_eq_overlay_iff 0]
    · exact forall_rowTexts hall
    · exact (forall_rowTexts hall).mpr fun g' hg' i hi hi' =>
        reviewText_past hg (hshown g' hg') hk hi hi'
  · obtain ⟨hall, hrow⟩ := rowsAfter_review before shown hoff hshown hg hk
    have hshort {g' : Shared} (hg' : g'.keyFlag = 1) :
        (reviewText g' k).length ≤ (tftColumnNumber + 15) / 16 :=
      (reviewText_short hg' hk).trans (by decide)
    refine visible_eq_iff ?_
    rw [hrow, overlay_drop (hshort hg)]
    refine layered_drop ?_ _
    rw [List.forall_mem_append, List.forall_mem_singleton]
    exact ⟨(forall_rowTexts hall).mpr fun g' hg' => hshort (hshown g' hg'), hshort hg⟩

/-- The globals while record `buf` is shown. -/
def showing (reviewBuf : ℕ → Fin 3 → Byte) (buf keyFlag : Byte) : Shared :=
  ⟨0, 0, fun _ => 0, 0, reviewBuf, buf, keyFlag⟩

/-- Record 10 and then record 9: the row still ends with the zero of `10`. -/
theorem review_run_note :
    rowsAfter ([] ++ .pass (showing (fun _ _ => 0) 0 0) :: [.pass (showing (fun _ _ => 0) 10 1)] ++
        [.pass (showing (fun _ _ => 0) 9 1)]) 10 ≠
      overlay (reviewText (showing (fun _ _ => 0) 9 1) 10) (bytes blanks) := by
  obtain ⟨-, hrows, -⟩ := @review_run (fun _ _ => 0) Panel.reset []
    [.pass (showing (fun _ _ => 0) 10 1)] (showing (fun _ _ => 0) 0 0)
    (showing (fun _ _ => 0) 9 1) rfl
    (fun g' hg' => by rw [Turn.pass.inj (List.mem_singleton.mp hg')]; rfl) rfl
  intro h
  exact absurd ((hrows 10 (by decide)).mp h (showing (fun _ _ => 0) 10 1)
    (List.mem_singleton_self _)) (by decide)

end ExpertCar.DisplayLoop
