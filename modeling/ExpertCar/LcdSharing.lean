import ExpertCar.CommutingRuns
import ExpertCar.LcdText

/-!
# Two threads on one panel

The threads of `aht10_handle` and `dht11_handle` both call `display_string`, and
nothing keeps their sends apart. An interleaving is a list of sends, each with
the thread that makes it. As long as no character is interrupted, a character is
one write of its cell, and cells of the two texts that lie apart may be written
in either order. An interrupted character leaves its pixels in the window of the
thread that interrupted it.
-/
namespace ExpertCar.LcdSharing
open StepRuns LcdPanel LcdText

inductive Thread where
  | aht10 | dht11
  deriving DecidableEq

def Thread.other : Thread → Thread
  | .aht10 => .dht11
  | .dht11 => .aht10

def byThread {α : Type*} (t : Thread) (m : List (Thread × α)) : List α :=
  (m.filter fun e => e.1 == t).map Prod.snd

structure TextCall where
  x : BitVec 32
  y : BitVec 32
  color : BitVec 32
  text : List Byte

def TextCall.sends (font : Font) (c : TextCall) : List Send :=
  displayString font c.x c.y c.color c.text

def TextCall.glyphs (c : TextCall) : List Glyph := stringGlyphs c.x c.y c.text

structure Interleaving (font : Font) (a b : TextCall) (s : List (Thread × Send)) : Prop where
  aht10 : byThread .aht10 s = a.sends font
  dht11 : byThread .dht11 s = b.sends font

def shown (p : Panel) (sends : List Send) : Addr → Colour := (run Panel.receive p sends).content

/-- The interleaving shows what one of the two serial orders shows. -/
def Serializable (font : Font) (p : Panel) (a b : TextCall) (s : List (Thread × Send)) : Prop :=
  shown p (s.map Prod.snd) = shown p (a.sends font ++ b.sends font) ∨
    shown p (s.map Prod.snd) = shown p (b.sends font ++ a.sends font)

/-! ### Characters that are not interrupted -/

/-- The sends of whole characters, in the order in which the threads draw them. -/
def unsplit (font : Font) (m : List (Thread × Glyph)) : List (Thread × Send) :=
  m.flatMap fun e => (e.2.sends font).map fun x => (e.1, x)

theorem unsplit_sends (font : Font) (m : List (Thread × Glyph)) :
    (unsplit font m).map Prod.snd = (m.map Prod.snd).flatMap (Glyph.sends font) := by
  induction m with
  | nil => rfl
  | cons e m ih =>
      have hhead : ((e.2.sends font).map fun x => (e.1, x)).map Prod.snd = e.2.sends font := by
        simp
      rw [List.map_cons, List.flatMap_cons, ← ih, unsplit, List.flatMap_cons, List.map_append,
        hhead]
      rfl

theorem byThread_append {α : Type*} (t : Thread) (m n : List (Thread × α)) :
    byThread t (m ++ n) = byThread t m ++ byThread t n := by
  simp [byThread]

theorem byThread_own {α : Type*} (t : Thread) (xs : List α) :
    byThread t (xs.map fun x => (t, x)) = xs := by
  induction xs with
  | nil => rfl
  | cons x xs ih => simpa [byThread] using ih

theorem byThread_other {α : Type*} {t u : Thread} (h : u ≠ t) (xs : List α) :
    byThread t (xs.map fun x => (u, x)) = [] := by
  induction xs with
  | nil => rfl
  | cons x xs ih => simp [byThread, h]

theorem byThread_unsplit (font : Font) (t : Thread) (m : List (Thread × Glyph)) :
    byThread t (unsplit font m) = (byThread t m).flatMap (Glyph.sends font) := by
  induction m with
  | nil => rfl
  | cons e m ih =>
      obtain ⟨u, g⟩ := e
      have hcons : unsplit font ((u, g) :: m) =
          ((g.sends font).map fun x => (u, x)) ++ unsplit font m := rfl
      rw [hcons, byThread_append, ih]
      by_cases h : u = t
      · subst h
        rw [byThread_own]
        simp [byThread]
      · rw [byThread_other h]
        simp [byThread, h]

/-- No panel position belongs to the cells of both characters. -/
def Apart (g h : Glyph) : Prop := ∀ a, ¬ (g.window.Inside a ∧ h.window.Inside a)

theorem Apart.commute {font : Font} {g h : Glyph} (hap : Apart g h) :
    CommutingRuns.Commute (Glyph.paint font) g h := by
  intro content
  funext a
  by_cases hg : g.window.Inside a
  · have hh : ¬ h.window.Inside a := fun hh => hap a ⟨hg, hh⟩
    unfold Glyph.window at hg hh
    simp only [Glyph.paint, asciiContent, if_pos hg, if_neg hh]
  · unfold Glyph.window at hg
    simp only [Glyph.paint, asciiContent, if_neg hg]

/-- Each character of `t` lies apart from the characters of the other thread
that are drawn before it. -/
def ApartAfter (t : Thread) (m : List (Thread × Glyph)) : Prop :=
  m.Pairwise fun e f => e.1 ≠ t → f.1 = t → Apart e.2 f.2

theorem filter_other {α : Type*} (t : Thread) (m : List (Thread × α)) :
    (m.filter fun e => !(e.1 == t)) = m.filter fun e => e.1 == t.other := by
  refine List.filter_congr fun e _ => ?_
  obtain ⟨u, x⟩ := e
  cases t <;> cases u <;> rfl

/-- Then the panel shows what it shows if `t` draws all its characters first. -/
theorem shown_unsplit (font : Font) (p : Panel) {t : Thread} {m : List (Thread × Glyph)}
    (h : ApartAfter t m) :
    shown p ((unsplit font m).map Prod.snd) =
      shown p (byThread t (unsplit font m) ++ byThread t.other (unsplit font m)) := by
  let draw : (Addr → Colour) → Thread × Glyph → Addr → Colour := fun c e => e.2.paint font c
  have hcommute : m.Pairwise fun e f => (e.1 == t) = false → (f.1 == t) = true →
      CommutingRuns.Commute draw e f := by
    refine h.imp fun {e f} hap he hf => ?_
    exact (hap (by simpa using he) (by simpa using hf)).commute
  have hserial := CommutingRuns.foldl_eq_serial draw (fun e => e.1 == t) hcommute p.content
  rw [filter_other] at hserial
  rw [unsplit_sends, byThread_unsplit, byThread_unsplit, ← List.flatMap_append, shown, shown,
    run_glyphs, run_glyphs, List.foldl_map, byThread, byThread, ← List.map_append, List.foldl_map]
  exact hserial

/-- Uninterrupted characters serialize, in the order of a thread whose
characters lie apart from those drawn before them by the other. -/
theorem serializable_of_unsplit {font : Font} {p : Panel} {a b : TextCall}
    {s : List (Thread × Send)} (hs : Interleaving font a b s) {m : List (Thread × Glyph)}
    (hm : s = unsplit font m) (hd : ApartAfter .aht10 m ∨ ApartAfter .dht11 m) :
    Serializable font p a b s := by
  subst hm
  rcases hd with h | h
  · have hshown := shown_unsplit font p h
    rw [Thread.other, hs.aht10, hs.dht11] at hshown
    exact Or.inl hshown
  · have hshown := shown_unsplit font p h
    rw [Thread.other, hs.aht10, hs.dht11] at hshown
    exact Or.inr hshown

/-- The font rows of `" "` and `"-"`. -/
def barFont : Font := fun serial xxx =>
  if serial = 13 ∧ xxx.val = 14 then 0xFE else if serial = 13 ∧ xxx.val = 15 then 0x7F else 0

def dashes : TextCall := ⟨0, 0, BLACK, [0x2D, 0x2D]⟩
def alarmDash : TextCall := ⟨0, 220, BLACK, [0x2D]⟩

/-- A blank over the right half of the first dash and the left half of the second. -/
def wipe : TextCall := ⟨8, 0, BLACK, [0x20]⟩

/-- The alarm thread gets in between the two dashes. -/
def betweenDashes (c : TextCall) : List (Thread × Glyph) :=
  [(.aht10, ⟨0, 0, BLACK, 13⟩)] ++ (c.glyphs.map fun g => (.dht11, g)) ++
    [(.aht10, ⟨16, 0, BLACK, 13⟩)]

theorem betweenDashes_interleaving (font : Font) (c : TextCall) :
    Interleaving font dashes c (unsplit font (betweenDashes c)) := by
  constructor
  · rw [byThread_unsplit, betweenDashes, byThread_append, byThread_append,
      byThread_other (by decide), TextCall.sends, displayString_eq]
    rfl
  · rw [byThread_unsplit, betweenDashes, byThread_append, byThread_append, byThread_own,
      TextCall.sends, displayString_eq]
    simp [byThread, TextCall.glyphs]

theorem alarm_apart : Apart ⟨0, 220, BLACK, 13⟩ ⟨16, 0, BLACK, 13⟩ := by
  intro a h
  have h220 : (a.2 - 220).toNat < 16 := h.1.2
  have h0 : (a.2 - 0).toNat < 16 := h.2.2
  bv_omega

theorem alarm_between_dashes_serializable :
    Serializable barFont Panel.reset dashes alarmDash
      (unsplit barFont (betweenDashes alarmDash)) :=
  serializable_of_unsplit (betweenDashes_interleaving barFont alarmDash) rfl
    (Or.inl (by
      refine List.Pairwise.cons ?_ (List.Pairwise.cons ?_ (List.pairwise_singleton _ _))
      · intro f hf hne
        exact absurd rfl hne
      · intro f hf _ _
        rw [List.mem_singleton.mp hf]
        exact alarm_apart))

/-- A blank of the first thread is interrupted after its window is set up. -/
def blank : TextCall := ⟨0, 0, BLACK, [0x20]⟩

def interruptedBlank : List (Thread × Send) :=
  ((tftSetAdd 0 0 15 15).map fun x => (.aht10, x)) ++
    ((alarmDash.sends barFont).map fun x => (.dht11, x)) ++
    ((asciiPixels barFont BLACK 0).map fun x => (.aht10, x))

theorem interruptedBlank_interleaving :
    Interleaving barFont blank alarmDash interruptedBlank := by
  constructor
  · rw [interruptedBlank, byThread_append, byThread_append, byThread_own, byThread_own,
      byThread_other (by decide), List.append_nil]
    exact (List.append_nil _).symm
  · rw [interruptedBlank, byThread_append, byThread_append, byThread_own,
      byThread_other (by decide), byThread_other (by decide), List.nil_append, List.append_nil]

theorem shown_serial (font : Font) (p : Panel) (a b : TextCall) :
    shown p (a.sends font ++ b.sends font) =
      (a.glyphs ++ b.glyphs).foldl (Glyph.paint font) p.content := by
  rw [TextCall.sends, TextCall.sends, displayString_eq, displayString_eq, ← List.flatMap_append,
    shown, run_glyphs]
  rfl

theorem interruptedBlank_shown :
    shown Panel.reset (interruptedBlank.map Prod.snd) (36, 227) = 0xFFFF := by
  have hsends : interruptedBlank.map Prod.snd = tftSetAdd 0 0 15 15 ++
      (displayAscii1616 barFont 0 220 BLACK 13 ++ asciiPixels barFont BLACK 0) := by
    have hdash : alarmDash.sends barFont = displayAscii1616 barFont 0 220 BLACK 13 :=
      List.append_nil _
    simp [interruptedBlank, hdash, List.map_map, Function.comp_def]
  rw [shown, hsends, run_append, run_append]
  have hdash := (run_displayAscii1616 barFont
    (run Panel.receive Panel.reset (tftSetAdd 0 0 15 15)) 0 220 BLACK 13).1
  rw [← asciiWindow_size 0 220] at hdash
  have hpixels := stream_content hdash.wrap ((List.range 256).map (asciiColour barFont BLACK 0))
    (by simp [asciiWindow_size])
  rw [asciiPixels_eq, hpixels.2 (36, 227)]
  decide +kernel

/-- An interrupted character, and texts that overlap across a pair of whole
characters, are each shown as in neither serial order. -/
theorem display_not_serializable :
    (Interleaving barFont blank alarmDash interruptedBlank ∧
      ¬ Serializable barFont Panel.reset blank alarmDash interruptedBlank) ∧
    (Interleaving barFont dashes wipe (unsplit barFont (betweenDashes wipe)) ∧
      ¬ Serializable barFont Panel.reset dashes wipe (unsplit barFont (betweenDashes wipe))) := by
  refine ⟨⟨interruptedBlank_interleaving, ?_⟩, ⟨betweenDashes_interleaving barFont wipe, ?_⟩⟩
  · intro h
    rcases h with h | h
    · have hat := congrFun h (36, 227)
      rw [interruptedBlank_shown, shown_serial] at hat
      exact absurd hat (by decide +kernel)
    · have hat := congrFun h (36, 227)
      rw [interruptedBlank_shown, shown_serial] at hat
      exact absurd hat (by decide +kernel)
  · have hshown : shown Panel.reset ((unsplit barFont (betweenDashes wipe)).map Prod.snd) =
        ((betweenDashes wipe).map Prod.snd).foldl (Glyph.paint barFont) Panel.reset.content := by
      rw [unsplit_sends, shown, run_glyphs]
    intro h
    rcases h with h | h
    · have hat := congrFun h (52, 7)
      rw [hshown, shown_serial] at hat
      exact absurd hat (by decide +kernel)
    · have hat := congrFun h (43, 7)
      rw [hshown, shown_serial] at hat
      exact absurd hat (by decide +kernel)

end ExpertCar.LcdSharing
