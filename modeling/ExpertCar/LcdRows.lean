import ExpertCar.LcdStrings
import Mathlib.Data.List.Induction

/-!
# Rows of text

Every text of the display starts in the first column of a row twenty pixels
below the last. A row is then a list of characters, and drawing a text puts it over
the front of what its row held: a shorter text leaves the tail of a longer one
standing. The panel shows as much of the rows as its 170 columns take, and nothing
else of it changes.
-/
namespace ExpertCar.LcdRows
open StepRuns LcdPanel LcdText LcdRaster LcdStrings

/-- What a text leaves of a row that was written before. -/
def overlay {α : Type*} (text row : List α) : List α := text ++ row.drop text.length

section Overlay
variable {α : Type*}

theorem overlay_length (text row : List α) :
    (overlay text row).length = max text.length row.length := by
  rw [overlay, List.length_append, List.length_drop]
  omega

theorem overlay_eq_iff (text row : List α) :
    overlay text row = text ↔ row.length ≤ text.length := by
  rw [overlay, List.append_right_eq_self, List.drop_eq_nil_iff]

theorem overlay_getD (text row : List α) (d : α) (i : ℕ) :
    (overlay text row).getD i d = if i < text.length then text.getD i d else row.getD i d := by
  unfold overlay
  split_ifs with h
  · rw [List.getD_append _ _ _ _ h]
  · rw [List.getD_append_right _ _ _ _ (Nat.le_of_not_lt h), List.getD_eq_getElem?_getD,
      List.getElem?_drop, List.getD_eq_getElem?_getD, Nat.add_sub_cancel' (Nat.le_of_not_lt h)]

/-- The texts of a run in one row, each over what is there. -/
def layered (row : List α) (texts : List (List α)) : List α :=
  texts.foldl (fun row text => overlay text row) row

theorem layered_length_le {row : List α} {texts : List (List α)} {n : ℕ} :
    (layered row texts).length ≤ n ↔ row.length ≤ n ∧ ∀ text ∈ texts, text.length ≤ n := by
  induction texts generalizing row with
  | nil => simp [layered]
  | cons text texts ih =>
      have hcons : layered row (text :: texts) = layered (overlay text row) texts := rfl
      rw [hcons, ih, overlay_length, List.forall_mem_cons, max_le_iff]
      tauto

theorem layered_append (row : List α) (texts texts' : List (List α)) :
    layered row (texts ++ texts') = layered (layered row texts) texts' := List.foldl_append

theorem layered_concat (row : List α) (texts : List (List α)) (text : List α) :
    layered row (texts ++ [text]) = overlay text (layered row texts) :=
  layered_append row texts [text]

/-- A row reads as its last text if and only if none before was longer. -/
theorem layered_eq_last_iff (texts : List (List α)) (text : List α) :
    layered [] (texts ++ [text]) = text ↔ ∀ earlier ∈ texts, earlier.length ≤ text.length := by
  rw [layered_concat, overlay_eq_iff]
  exact layered_length_le.trans (and_iff_right (Nat.zero_le _))

theorem overlay_drop {text : List α} {n : ℕ} (h : text.length ≤ n) (row : List α) :
    (overlay text row).drop n = row.drop n := by
  rw [overlay, List.drop_append, List.drop_eq_nil_of_le h, List.nil_append, List.drop_drop,
    Nat.add_sub_cancel' h]

theorem layered_drop {texts : List (List α)} {n : ℕ} (h : ∀ text ∈ texts, text.length ≤ n)
    (row : List α) : (layered row texts).drop n = row.drop n := by
  induction texts generalizing row with
  | nil => rfl
  | cons text texts ih =>
      obtain ⟨htext, htexts⟩ := List.forall_mem_cons.mp h
      exact (ih htexts (overlay text row)).trans (overlay_drop htext row)

theorem overlay_take (text row : List α) (n : ℕ) :
    (overlay text row).take n = overlay (text.take n) (row.take n) := by
  rw [overlay, overlay, List.take_append, List.length_take]
  rcases Nat.le_total n text.length with hlong | hshort
  · rw [Nat.sub_eq_zero_of_le hlong, List.take_zero, min_eq_left hlong,
      List.drop_eq_nil_of_le (List.length_take_le n row)]
  · rw [min_eq_right hshort, List.drop_take]

/-- A row cut off is the layered row of its texts cut off. -/
theorem layered_take (row : List α) (texts : List (List α)) (n : ℕ) :
    (layered row texts).take n = layered (row.take n) (texts.map (List.take n)) := by
  induction texts generalizing row with
  | nil => rfl
  | cons text texts ih =>
      have hcons : layered row (text :: texts) = layered (overlay text row) texts := rfl
      rw [hcons, ih, overlay_take]
      rfl

/-- A place that any of the texts reaches shows one of them. -/
theorem layered_getD {texts : List (List α)} {i : ℕ} (h : ∃ text ∈ texts, i < text.length)
    (row : List α) (d : α) :
    ∃ text ∈ texts, i < text.length ∧ (layered row texts).getD i d = text.getD i d := by
  induction texts using List.reverseRecOn with
  | nil =>
      obtain ⟨text, htext, _⟩ := h
      exact absurd htext List.not_mem_nil
  | append_singleton texts last ih =>
      rw [layered_concat, overlay_getD]
      by_cases hlast : i < last.length
      · rw [if_pos hlast]
        exact ⟨last, List.mem_append_right _ (List.mem_singleton_self last), hlast, rfl⟩
      · rw [if_neg hlast]
        obtain ⟨text, htext, hi⟩ := h
        rcases List.mem_append.mp htext with htext | htext
        · obtain ⟨shown, hshown, hlength, hget⟩ := ih ⟨text, htext, hi⟩
          exact ⟨shown, List.mem_append_left _ hshown, hlength, hget⟩
        · exact absurd (List.mem_singleton.mp htext ▸ hi) hlast

/-- Over a row whose rest none of the earlier texts repeats, the last text stands in the
row as if they had not been there if and only if none of them was longer. -/
theorem layered_eq_overlay_iff {row text : List α} {texts : List (List α)} (d : α)
    (hmark : ∀ earlier ∈ texts, ∀ i, text.length ≤ i → i < earlier.length →
      earlier.getD i d ≠ row.getD i d) :
    layered row (texts ++ [text]) = overlay text row ↔
      ∀ earlier ∈ texts, earlier.length ≤ text.length := by
  rw [layered_concat]
  constructor
  · intro h earlier hearlier
    by_contra hlong
    obtain ⟨shown, hshown, hlength, hget⟩ :=
      layered_getD ⟨earlier, hearlier, Nat.lt_of_not_le hlong⟩ row d
    have hplace := congrArg (fun row => row.getD text.length d) h
    simp only [overlay_getD, lt_irrefl, if_false] at hplace
    exact hmark shown hshown _ le_rfl hlength (hget.symm.trans hplace)
  · intro h
    rw [overlay, layered_drop h, overlay]

end Overlay

/-! ### The panel -/

/-- A text and the number of its row. -/
structure Draw where
  row : ℕ
  color : BitVec 32
  text : List Byte

def Draw.sends (font : Font) (d : Draw) : List Send :=
  displayString font 0 (BitVec.ofNat 32 (20 * d.row)) d.color d.text

/-- The text has no zero byte, its columns do not wrap, and its row is on the panel. -/
structure Draw.Fits (d : Draw) : Prop where
  nonzero : ∀ ch ∈ d.text, ch ≠ 0
  width : d.text.length ≤ 4096
  row : d.row < 16

abbrev Rows := ℕ → List Byte

def Rows.draw (rows : Rows) (d : Draw) : Rows :=
  Function.update rows d.row (overlay d.text (rows d.row))

/-- The characters that begin within the panel's columns: eleven, of whose last the panel
has ten columns. -/
def visible (row : List Byte) : List Byte := row.take ((tftColumnNumber + 15) / 16)

theorem visible_length (row : List Byte) : (visible row).length = min 11 row.length :=
  List.length_take

/-- Rows that are alike beyond the panel's columns are the same if they show the same. -/
theorem visible_eq_iff {row row' : List Byte}
    (h : row.drop ((tftColumnNumber + 15) / 16) = row'.drop ((tftColumnNumber + 15) / 16)) :
    visible row = visible row' ↔ row = row' := by
  refine ⟨fun hvisible => ?_, congrArg visible⟩
  rw [← List.take_append_drop ((tftColumnNumber + 15) / 16) row, h]
  exact (congrArg (· ++ _) hvisible).trans (List.take_append_drop _ _)

theorem visible_column {row : List Byte} {c : ℕ} (hc : c < tftColumnNumber) :
    c < 16 * (visible row).length ↔ c < 16 * row.length := by
  change c < 170 at hc
  rw [visible_length]
  omega

theorem textColour_visible (font : Font) (color : BitVec 32) (row : List Byte) {c : ℕ}
    (hc : c < tftColumnNumber) (r : ℕ) :
    textColour font color (visible row) c r = textColour font color row c r := by
  change c < 170 at hc
  have hplace : c / 16 < (tftColumnNumber + 15) / 16 := show c / 16 < 11 by omega
  have hchar : (visible row).getD (c / 16) 0 = row.getD (c / 16) 0 := by
    rw [visible, List.getD_eq_getElem?_getD, List.getElem?_take_of_lt hplace,
      List.getD_eq_getElem?_getD]
  rw [textColour, textColour, hchar]

/-- Over `base` the panel shows these rows, on each of its pixels. -/
structure Shows (font : Font) (base : Addr → Colour) (rows : Rows) (p : Panel) : Prop where
  inside : ∀ k < 16, ∀ r < 16, ∀ c < tftColumnNumber, c < 16 * (visible (rows k)).length →
    p.content (pixel c (20 * k + r)) = textColour font BLACK (visible (rows k)) c r
  outside : ∀ y < tftLineNumber, ∀ c < tftColumnNumber,
    (∀ k, ∀ r < 16, y = 20 * k + r → 16 * (visible (rows k)).length ≤ c) →
    p.content (pixel c y) = base (pixel c y)

theorem shows_nil (font : Font) (p : Panel) : Shows font p.content (fun _ => []) p :=
  ⟨fun _ _ _ _ _ _ hc => (Nat.not_lt_zero _ hc).elim, fun _ _ _ _ _ => rfl⟩

/-- What a text does to the pixels of the panel. -/
theorem Draw.Fits.pixels {d : Draw} (hd : d.Fits) (font : Font) (p : Panel) {y c : ℕ}
    (hy : y < tftLineNumber) (hc : c < tftColumnNumber) :
    (∀ r < 16, y = 20 * d.row + r → c < 16 * d.text.length →
      (run Panel.receive p (d.sends font)).content (pixel c y) =
        textColour font BLACK d.text c r) ∧
    ((∀ r < 16, y = 20 * d.row + r → 16 * d.text.length ≤ c) →
      (run Panel.receive p (d.sends font)).content (pixel c y) = p.content (pixel c y)) := by
  obtain ⟨hnonzero, hwidth, hrow⟩ := hd
  change y < 320 at hy
  change c < 170 at hc
  have htop : (BitVec.ofNat 32 (20 * d.row)).toNat = 20 * d.row := by
    rw [BitVec.toNat_ofNat, Nat.mod_eq_of_lt (by omega)]
  obtain ⟨hinside, houtside⟩ := displayString_fills font 0 (BitVec.ofNat 32 (20 * d.row)) d.color
    d.text hnonzero (show 0 + 16 * d.text.length ≤ 65536 by omega) (by omega) p
  dsimp only at hinside houtside
  rw [htop] at hinside houtside
  simp only [show (0 : BitVec 32).toNat = 0 from rfl, Nat.zero_add] at hinside houtside
  constructor
  · rintro r hr rfl hin
    exact hinside c hin r hr
  · intro hout
    refine houtside _ fun c' hc' r' hr' heq => ?_
    obtain ⟨rfl, rfl⟩ := (pixel_inj (by omega) (by omega) (by omega) (by omega)).mp heq
    have := hout r' hr' rfl
    omega

theorem Shows.draw {font : Font} {base : Addr → Colour} {rows : Rows} {p : Panel}
    (h : Shows font base rows p) {d : Draw} (hd : d.Fits) :
    Shows font base (rows.draw d) (run Panel.receive p (d.sends font)) := by
  have hrows (k : ℕ) : rows.draw d k = if k = d.row then overlay d.text (rows k) else rows k := by
    by_cases hk : k = d.row
    · rw [if_pos hk, hk, Rows.draw, Function.update_self]
    · rw [if_neg hk, Rows.draw, Function.update_of_ne hk]
  constructor
  · intro k hk r hr c hc hin
    have hline : 20 * k + r < tftLineNumber := show 20 * k + r < 320 by omega
    obtain ⟨hnew, hold⟩ := hd.pixels font p hline hc
    have hbefore := h.inside k hk r hr c hc
    rw [visible_column hc] at hin
    rw [visible_column hc, textColour_visible font BLACK _ hc] at hbefore
    rw [textColour_visible font BLACK _ hc]
    rw [hrows] at hin ⊢
    by_cases hrow : k = d.row
    · rw [if_pos hrow, overlay_length] at hin
      rw [if_pos hrow, textColour, overlay_getD]
      by_cases hwritten : c < 16 * d.text.length
      · rw [if_pos (by omega)]
        exact hnew r hr (by rw [hrow]) hwritten
      · rw [if_neg (by omega), hold fun _ _ _ => Nat.le_of_not_lt hwritten]
        exact hbefore (by omega)
    · rw [if_neg hrow] at hin ⊢
      rw [hold fun r' hr' heq => absurd (show k = d.row by omega) hrow]
      exact hbefore hin
  · intro y hy c hc hout
    have hbeyond (k r : ℕ) (hr : r < 16) (hline : y = 20 * k + r) :
        16 * (rows.draw d k).length ≤ c := by
      have := mt (visible_column hc).mpr (Nat.not_lt_of_le (hout k r hr hline))
      omega
    rw [(hd.pixels font p hy hc).2]
    · refine h.outside y hy c hc fun k r hr hline => ?_
      refine Nat.le_of_not_lt (mt (visible_column hc).mp (Nat.not_lt_of_le ?_))
      have hdrawn := hbeyond k r hr hline
      rw [hrows] at hdrawn
      split_ifs at hdrawn
      · rw [overlay_length] at hdrawn
        omega
      · exact hdrawn
    · intro r hr hline
      have hdrawn := hbeyond d.row r hr hline
      rw [hrows, if_pos rfl, overlay_length] at hdrawn
      omega

/-- Whole texts, one after another in any rows: the panel shows the layered rows. -/
theorem Shows.draws {font : Font} {base : Addr → Colour} {rows : Rows} {p : Panel}
    (h : Shows font base rows p) {draws : List Draw} (hd : ∀ d ∈ draws, d.Fits) :
    Shows font base (draws.foldl Rows.draw rows)
      (run Panel.receive p (draws.flatMap (Draw.sends font))) := by
  induction draws generalizing rows p with
  | nil => exact h
  | cons d draws ih =>
      rw [List.flatMap_cons, run_append, List.foldl_cons]
      exact ih (h.draw (hd d List.mem_cons_self)) fun d' hd' => hd d' (List.mem_cons_of_mem d hd')

/-- A row takes the texts drawn in it and no others. -/
theorem foldl_draw_row (draws : List Draw) (rows : Rows) (k : ℕ) :
    draws.foldl Rows.draw rows k =
      layered (rows k) ((draws.filter fun d => d.row = k).map Draw.text) := by
  induction draws generalizing rows with
  | nil => rfl
  | cons d draws ih =>
      rw [List.foldl_cons, ih]
      by_cases hrow : d.row = k
      · subst hrow
        simp [Rows.draw, layered]
      · simp [Rows.draw, hrow, Function.update_of_ne (Ne.symm hrow)]

end ExpertCar.LcdRows
