import ExpertCar.PinIrq
import ExpertCar.ReviewCursor

/-!
# From the buttons to the cursor

`key_handle` attaches `irq_callback` to two pins and enables them. From then on a
press is an edge on a line, the line's vector finds it pending, and the callback
moves the cursor. Behind all this each button is one flag, raised by a press and
taken by the interrupt: several presses before the interrupt count once, a press
during the wait for it is never lost, and nothing else calls the callback.
-/
namespace ExpertCar.KeyInterrupts
open StepRuns HumidityReading RecordStore ReviewCursor PinIrq

instance ports : NeZero 7 := ⟨by decide⟩

instance lines : NeZero 16 := ⟨by decide⟩

inductive Handler where
  | irqCallback
  deriving DecidableEq, Repr

/-- `GET_PIN(A,8)` and `GET_PIN(B,1)`. -/
def key1 : Word := 8
def key2 : Word := 17

/-- The calls of `key_handle` before its loop. -/
def keyHandleCalls (stale : Word) : List (Call Handler) :=
  [.attach key1 (pinIrqModeFalling.setWidth 32) (some .irqCallback) key1,
    .attach key2 (pinIrqModeFalling.setWidth 32) (some .irqCallback) key2,
    .irqEnable stale key1 1, .irqEnable stale key2 1]

/-- The cases of `irq_callback` on its argument. -/
def signOf (args : Word) : Sign :=
  if args = key1 then .key1 else if args = key2 then .key2 else .other

structure World where
  gpio : Gpio Handler
  system : System

inductive Event where
  | edge (gpio : Port) (line : Line) (rising : Bool)
  | irq (irq : Irqno)
  | dht11Handle (x : Input)
  | aht10Handle (adcValue0 adcValue1 : BitVec 16) (peopleNumber : Byte)

/-- A vector that is not taken does nothing. -/
def worldStep (w : World) : Event → World
  | .edge gpio line rising =>
      { w with gpio := { w.gpio with exti := w.gpio.exti.edge gpio line rising } }
  | .irq irq =>
      if w.gpio.Taken irq then
        let served := extiIrqHandler irq w.gpio
        { gpio := served.1
          system := served.2.foldl (fun s c => irqCallback (signOf c.2) s) w.system }
      else w
  | .dht11Handle x => { w with system := step w.system (.dht11Handle x) }
  | .aht10Handle adcValue0 adcValue1 peopleNumber =>
      { w with system := step w.system (.aht10Handle adcValue0 adcValue1 peopleNumber) }

/-! ### One flag for each button -/

structure Boxes where
  box1 : Bool
  box2 : Bool
  deriving DecidableEq, Repr

/-- What an event does to the flags, and the action it is for the rest of the program. -/
def Boxes.next (b : Boxes) : Event → Boxes × List Action
  | .edge gpio line rising =>
      (⟨b.box1 || decide (gpio = 0 ∧ line = 8 ∧ rising = false),
        b.box2 || decide (gpio = 1 ∧ line = 1 ∧ rising = false)⟩, [])
  | .irq .exti9_5 => (⟨false, b.box2⟩, if b.box1 then [.irqCallback .key1] else [])
  | .irq .exti1 => (⟨b.box1, false⟩, if b.box2 then [.irqCallback .key2] else [])
  | .irq _ => (b, [])
  | .dht11Handle x => (b, [.dht11Handle x])
  | .aht10Handle adcValue0 adcValue1 peopleNumber =>
      (b, [.aht10Handle adcValue0 adcValue1 peopleNumber])

def actions (b : Boxes) : List Event → List Action
  | [] => []
  | e :: es => (b.next e).2 ++ actions (b.next e).1 es

/-- The driver as `key_handle` leaves it, with the flags as pending bits. -/
structure Armed (g : Gpio Handler) (b : Boxes) : Prop where
  entry1 : (g.pinIrqHdrTab 8).hdr = some .irqCallback ∧ (g.pinIrqHdrTab 8).args = key1
  entry2 : (g.pinIrqHdrTab 1).hdr = some .irqCallback ∧ (g.pinIrqHdrTab 1).args = key2
  line1 : g.exti.exticr 8 = 0 ∧ g.exti.imr 8 = true ∧ g.exti.rtsr 8 = false ∧ g.exti.ftsr 8 = true
  line2 : g.exti.exticr 1 = 1 ∧ g.exti.imr 1 = true ∧ g.exti.rtsr 1 = false ∧ g.exti.ftsr 1 = true
  vectors : g.nvic .exti9_5 = true ∧ g.nvic .exti1 = true
  others : ∀ line, line ≠ 8 → line ≠ 1 →
    g.exti.rtsr line = false ∧ g.exti.ftsr line = false ∧ g.exti.pr line = false
  pending1 : g.exti.pr 8 = b.box1
  pending2 : g.exti.pr 1 = b.box2

/-- The four calls in full. -/
theorem keyHandle_gpio (stale : Word) :
    run serve Gpio.boot (keyHandleCalls stale) =
      { pinIrqHdrTab := Function.update (Function.update (fun _ => .free) 8
          ⟨8, pinIrqModeFalling, some .irqCallback, key1⟩) 1
          ⟨17, pinIrqModeFalling, some .irqCallback, key2⟩
        pinIrqEnableMask := Function.update (Function.update (fun _ => false) 8 true) 1 true
        nvic := Function.update (Function.update (fun _ => false) .exti9_5 true) .exti1 true
        exti := (Exti.reset.init 0 8 gpioModeItFalling).init 1 1 gpioModeItFalling } := by
  have h8 : getPin (key1.setWidth 8) = some (0, 8) := by decide
  have h1 : getPin (key2.setWidth 8) = some (1, 1) := by decide
  simp only [keyHandleCalls, run_cons, run_nil]
  rw [serve_attach h8 rfl, serve_attach h1 rfl,
    serve_irqEnable h8 (show (8 : BitVec 16) ≠ -1 by decide),
    serve_irqEnable h1 (show (17 : BitVec 16) ≠ -1 by decide)]
  have hmode : (pinIrqModeFalling.setWidth 32).setWidth 16 = pinIrqModeFalling := by decide
  have hp8 : key1.setWidth 16 = 8 := by decide
  have hp1 : key2.setWidth 16 = 17 := by decide
  have hfalling : initMode stale pinIrqModeFalling = gpioModeItFalling := by
    unfold initMode
    rw [if_neg (by decide), if_pos rfl]
  have hne : (8 : Line) ≠ 1 := by decide
  simp only [hmode, hp8, hp1, Gpio.boot, Function.update_self, Function.update_of_ne hne, hfalling]
  rfl

theorem armed_keyHandle (stale : Word) :
    Armed (run serve Gpio.boot (keyHandleCalls stale)) ⟨false, false⟩ := by
  rw [keyHandle_gpio]
  refine ⟨⟨rfl, rfl⟩, ⟨rfl, rfl⟩, ⟨rfl, rfl, rfl, rfl⟩, ⟨rfl, rfl, rfl, rfl⟩, ⟨rfl, rfl⟩, ?_, rfl,
    rfl⟩
  intro line h8 h1
  exact ⟨(Function.update_of_ne h1 _ _).trans (Function.update_of_ne h8 _ _),
    (Function.update_of_ne h1 _ _).trans (Function.update_of_ne h8 _ _), rfl⟩

/-! ### The step -/

/-- A line set to falling edges of one port sees those and no others. -/
theorem seen_iff {e : Exti} {port gpio : Port} {armed line : Line} {rising : Bool}
    (hport : e.exticr armed = port) (hrise : e.rtsr armed = false) (hfall : e.ftsr armed = true) :
    (armed = line ∧ e.exticr line = gpio ∧
        (if rising then e.rtsr line else e.ftsr line) = true) ↔
      (gpio = port ∧ line = armed ∧ rising = false) := by
  constructor
  · rintro ⟨rfl, hgpio, hsel⟩
    refine ⟨hgpio.symm.trans hport, rfl, ?_⟩
    cases rising with
    | false => rfl
    | true => exact (Bool.false_ne_true (hrise.symm.trans hsel)).elim
  · rintro ⟨rfl, rfl, rfl⟩
    exact ⟨rfl, hport, hfall⟩

theorem Armed.edge {g : Gpio Handler} {b : Boxes} (h : Armed g b) (gpio : Port) (line : Line)
    (rising : Bool) :
    Armed { g with exti := g.exti.edge gpio line rising } (b.next (.edge gpio line rising)).1 := by
  obtain ⟨hport8, himr8, hrise8, hfall8⟩ := h.line1
  obtain ⟨hport1, himr1, hrise1, hfall1⟩ := h.line2
  have hpr := g.exti.edge_pr gpio line rising
  obtain ⟨hexticr, himr, hrtsr, hftsr⟩ := g.exti.edge_frame gpio line rising
  refine ⟨h.entry1, h.entry2, ?_, ?_, h.vectors, ?_, ?_, ?_⟩
  · simp only [hexticr, himr, hrtsr, hftsr]
    exact h.line1
  · simp only [hexticr, himr, hrtsr, hftsr]
    exact h.line2
  · intro l h8 h1
    obtain ⟨hrise, hfall, hclear⟩ := h.others l h8 h1
    simp only [hrtsr, hftsr, hpr, hclear]
    refine ⟨hrise, hfall, ?_⟩
    simp only [Bool.false_or, decide_eq_false_iff_not]
    rintro ⟨rfl, _, hsel⟩
    cases rising <;> simp_all
  · simp only [hpr, h.pending1, Boxes.next]
    exact congrArg _ (decide_eq_decide.mpr (seen_iff hport8 hrise8 hfall8))
  · simp only [hpr, h.pending2, Boxes.next]
    exact congrArg _ (decide_eq_decide.mpr (seen_iff hport1 hrise1 hfall1))

/-- What is pending in a vector: one of the two lines, if its flag is raised. -/
theorem Armed.pending {g : Gpio Handler} {b : Boxes} (h : Armed g b) (irq : Irqno) :
    irq.lines.filter g.exti.pr =
      match irq with
      | .exti9_5 => if b.box1 then [8] else []
      | .exti1 => if b.box2 then [1] else []
      | _ => [] := by
  have hclear : ∀ line, line ≠ 8 → line ≠ 1 → g.exti.pr line = false :=
    fun line h8 h1 => (h.others line h8 h1).2.2
  have hquiet : ∀ lines : List Line, 8 ∉ lines → 1 ∉ lines → lines.filter g.exti.pr = [] := by
    intro lines h8 h1
    refine List.filter_eq_nil_iff.mpr fun l hl => ?_
    rw [hclear l (ne_of_mem_of_not_mem hl h8) (ne_of_mem_of_not_mem hl h1)]
    exact Bool.false_ne_true
  cases irq with
  | exti9_5 =>
      have hlow := hquiet [5, 6, 7] (by decide) (by decide)
      have hhigh := hquiet [9] (by decide) (by decide)
      change (([5, 6, 7] : List Line) ++ [8] ++ [9]).filter g.exti.pr = _
      rw [List.filter_append, List.filter_append, hlow, hhigh]
      cases hb : b.box1 <;> simp [h.pending1, hb]
  | exti1 => cases hb : b.box2 <;> simp [Irqno.lines, h.pending2, hb]
  | exti0 | exti2 | exti3 | exti4 | exti15_10 => exact hquiet _ (by decide) (by decide)

/-- A vector is taken when it has something pending: both lines are unmasked. -/
theorem Armed.taken_iff {g : Gpio Handler} {b : Boxes} (h : Armed g b) (irq : Irqno) :
    g.Taken irq ↔ irq.lines.filter g.exti.pr ≠ [] := by
  have hunmasked : ∀ line, g.exti.pr line = true →
      g.exti.imr line = true ∧ g.nvic (pinIrqMap line) = true := by
    intro line hp
    by_cases h8 : line = 8
    · subst h8
      exact ⟨h.line1.2.1, h.vectors.1⟩
    by_cases h1 : line = 1
    · subst h1
      exact ⟨h.line2.2.1, h.vectors.2⟩
    · exact (Bool.false_ne_true ((h.others line h8 h1).2.2.symm.trans hp)).elim
  constructor
  · rintro ⟨_, line, hline, hp, _⟩
    exact List.ne_nil_of_mem (List.mem_filter.mpr ⟨hline, hp⟩)
  · intro hsome
    obtain ⟨line, hmem⟩ := List.exists_mem_of_ne_nil _ hsome
    obtain ⟨hline, hp⟩ := List.mem_filter.mp hmem
    obtain ⟨himr, hnvic⟩ := hunmasked line hp
    exact ⟨(mem_lines irq line).mp hline ▸ hnvic, line, hline, hp, himr⟩

/-- Clearing a vector's lines lowers the flags of its buttons. -/
theorem Armed.cleared {g : Gpio Handler} {b : Boxes} (h : Armed g b) (irq : Irqno) :
    Armed { g with exti := { g.exti with pr := fun l => g.exti.pr l && decide (l ∉ irq.lines) } }
      ⟨b.box1 && decide (8 ∉ irq.lines), b.box2 && decide (1 ∉ irq.lines)⟩ := by
  refine ⟨h.entry1, h.entry2, h.line1, h.line2, h.vectors, ?_, ?_, ?_⟩
  · intro line h8 h1
    obtain ⟨hrise, hfall, hclear⟩ := h.others line h8 h1
    exact ⟨hrise, hfall, by simp [hclear]⟩
  · exact congrArg (· && _) h.pending1
  · exact congrArg (· && _) h.pending2

/-- With nothing pending the handler of a vector does nothing. -/
theorem extiIrqHandler_quiet {irq : Irqno} {g : Gpio Handler}
    (h : irq.lines.filter g.exti.pr = []) : extiIrqHandler irq g = (g, []) := by
  have hpr : (fun l => g.exti.pr l && decide (l ∉ irq.lines)) = g.exti.pr := by
    funext l
    by_cases hl : l ∈ irq.lines
    · rw [Bool.eq_false_of_not_eq_true (List.filter_eq_nil_iff.mp h l hl), Bool.false_and]
    · rw [decide_eq_true hl, Bool.and_true]
  rw [extiIrqHandler_eq, h, hpr]
  rfl

/-- So it can be taken to run at every interrupt. -/
theorem Armed.served {w : World} {b : Boxes} (h : Armed w.gpio b) (irq : Irqno) :
    worldStep w (.irq irq) =
      ⟨(extiIrqHandler irq w.gpio).1, (extiIrqHandler irq w.gpio).2.foldl
        (fun s c => irqCallback (signOf c.2) s) w.system⟩ := by
  simp only [worldStep]
  by_cases ht : w.gpio.Taken irq
  · rw [if_pos ht]
  · rw [if_neg ht, extiIrqHandler_quiet (not_not.mp (mt (h.taken_iff irq).mpr ht))]
    rfl

theorem Armed.irq {w : World} {b : Boxes} (h : Armed w.gpio b) (irq : Irqno) :
    Armed (worldStep w (.irq irq)).gpio (b.next (.irq irq)).1 ∧
      (worldStep w (.irq irq)).system = run step w.system (b.next (.irq irq)).2 := by
  have hcall8 : pinIrqHdr 8 w.gpio = some (.irqCallback, key1) := by
    rw [pinIrqHdr, h.entry1.1, h.entry1.2]
    rfl
  have hcall1 : pinIrqHdr 1 w.gpio = some (.irqCallback, key2) := by
    rw [pinIrqHdr, h.entry2.1, h.entry2.2]
    rfl
  have hsigns : signOf key1 = .key1 ∧ signOf key2 = .key2 := by decide
  have hboxes : (b.next (.irq irq)).1 =
      ⟨b.box1 && decide (8 ∉ irq.lines), b.box2 && decide (1 ∉ irq.lines)⟩ := by
    cases irq <;> simp [Boxes.next, Irqno.lines]
  rw [h.served irq, extiIrqHandler_eq, hboxes]
  refine ⟨h.cleared irq, ?_⟩
  rw [h.pending irq]
  cases irq with
  | exti9_5 => cases hb : b.box1 <;> simp [Boxes.next, hb, hcall8, hsigns, step]
  | exti1 => cases hb : b.box2 <;> simp [Boxes.next, hb, hcall1, hsigns, step]
  | exti0 | exti2 | exti3 | exti4 | exti15_10 => rfl

theorem Armed.step {w : World} {b : Boxes} (h : Armed w.gpio b) (e : Event) :
    Armed (worldStep w e).gpio (b.next e).1 ∧
      (worldStep w e).system = run ReviewCursor.step w.system (b.next e).2 := by
  cases e with
  | edge gpio line rising => exact ⟨h.edge gpio line rising, rfl⟩
  | irq irq => exact h.irq irq
  | dht11Handle x => exact ⟨h, rfl⟩
  | aht10Handle adcValue0 adcValue1 peopleNumber => exact ⟨h, rfl⟩

theorem Armed.run {w : World} {b : Boxes} (h : Armed w.gpio b) (events : List Event) :
    (run worldStep w events).system = run ReviewCursor.step w.system (actions b events) := by
  induction events generalizing w b with
  | nil => rfl
  | cons e events ih =>
      obtain ⟨harmed, hsystem⟩ := h.step e
      rw [run_cons, ih harmed, hsystem, actions, run_append]

/-! ### Presses and callbacks -/

inductive Button where
  | key1 | key2
  deriving DecidableEq, Repr

def Button.sign : Button → Sign
  | .key1 => .key1
  | .key2 => .key2

def Button.port : Button → Port
  | .key1 => 0
  | .key2 => 1

def Button.line : Button → Line
  | .key1 => 8
  | .key2 => 1

def Button.irq (k : Button) : Irqno := pinIrqMap k.line

def Boxes.box (b : Boxes) : Button → Bool
  | .key1 => b.box1
  | .key2 => b.box2

def Button.press (k : Button) : Event := .edge k.port k.line false

def isPress (k : Button) : Event → Bool
  | .edge gpio line rising => decide (gpio = k.port ∧ line = k.line ∧ rising = false)
  | _ => false

def isCallback (k : Button) : Action → Bool
  | .irqCallback sign => decide (sign = k.sign)
  | _ => false

def callbacks (k : Button) (acts : List Action) : ℕ := acts.countP (isCallback k)

/-- One event, seen from one button: a press raises its flag, its vector takes it. -/
theorem next_box (k : Button) (b : Boxes) (e : Event) :
    (e = .irq k.irq ∧ (b.next e).1.box k = false ∧
        callbacks k (b.next e).2 = if b.box k then 1 else 0) ∨
      (e ≠ .irq k.irq ∧ (b.next e).1.box k = (b.box k || isPress k e) ∧
        callbacks k (b.next e).2 = 0) := by
  cases e with
  | edge gpio line rising =>
      refine Or.inr ⟨by simp, ?_, rfl⟩
      cases k <;> rfl
  | irq irq =>
      obtain ⟨box1, box2⟩ := b
      cases k <;> cases irq <;> cases box1 <;> cases box2 <;>
        first
        | exact Or.inl ⟨rfl, rfl, rfl⟩
        | exact Or.inr ⟨by simp [Button.irq, Button.line, pinIrqMap], rfl, rfl⟩
  | dht11Handle x => exact Or.inr ⟨by simp, by simp [Boxes.next, isPress], rfl⟩
  | aht10Handle adcValue0 adcValue1 peopleNumber =>
      exact Or.inr ⟨by simp, by simp [Boxes.next, isPress], rfl⟩

theorem actions_append (b : Boxes) (es fs : List Event) :
    actions b (es ++ fs) =
      actions b es ++ actions (run (fun b e => (b.next e).1) b es) fs := by
  induction es generalizing b with
  | nil => rfl
  | cons e es ih => simp only [List.cons_append, actions, ih, List.append_assoc, run_cons]

theorem callbacks_append (k : Button) (as bs : List Action) :
    callbacks k (as ++ bs) = callbacks k as + callbacks k bs := List.countP_append

/-- No callback without a press: each takes a flag that a press raised. -/
theorem callbacks_le_presses (k : Button) (b : Boxes) (es : List Event) :
    callbacks k (actions b es) ≤ es.countP (isPress k) + if b.box k then 1 else 0 := by
  induction es generalizing b with
  | nil => simp [actions, callbacks]
  | cons e es ih =>
      have hrest := ih (b.next e).1
      rw [actions, callbacks_append, List.countP_cons]
      rcases next_box k b e with ⟨rfl, hbox, hcount⟩ | ⟨_, hbox, hcount⟩
      · rw [hbox] at hrest
        simp only [Bool.false_eq_true, if_false] at hrest
        omega
      · rw [hbox] at hrest
        cases hb : b.box k <;> cases hp : isPress k e <;> simp only [hb, hp, Bool.or_false,
          Bool.or_true, Bool.false_eq_true, if_false, if_true] at hrest ⊢ <;> omega

/-- No press is lost: a raised flag is taken by the next interrupt of its vector. -/
theorem callback_of_box (k : Button) {b : Boxes} (hb : b.box k = true) (mid post : List Event) :
    1 ≤ callbacks k (actions b (mid ++ .irq k.irq :: post)) := by
  induction mid generalizing b with
  | nil =>
      rw [List.nil_append, actions, callbacks_append]
      rcases next_box k b (.irq k.irq) with ⟨_, _, hcount⟩ | ⟨hne, _⟩
      · rw [if_pos hb] at hcount
        omega
      · exact absurd rfl hne
  | cons e mid ih =>
      rw [List.cons_append, actions, callbacks_append]
      rcases next_box k b e with ⟨_, _, hcount⟩ | ⟨_, hbox, _⟩
      · rw [if_pos hb] at hcount
        omega
      · have hrest := ih (hbox.trans (by rw [hb, Bool.true_or]))
        omega

/-- From `key_handle` on, in every interleaving of pin edges, interrupts and
threads, the program does exactly the actions of the two flags: no button calls
back more often than it was pressed, and a press calls back at the latest with
the next interrupt of its vector. -/
theorem cursor_follows_buttons (stale : Word) (r : Readings) (events : List Event) :
    let boxes : Boxes := ⟨false, false⟩
    (run worldStep ⟨run serve Gpio.boot (keyHandleCalls stale), System.boot r⟩ events).system =
        run step (System.boot r) (actions boxes events) ∧
      ∀ k : Button, callbacks k (actions boxes events) ≤ events.countP (isPress k) ∧
        ∀ pre mid post, events = pre ++ k.press :: (mid ++ .irq k.irq :: post) →
          callbacks k (actions boxes pre) < callbacks k (actions boxes events) := by
  intro boxes
  refine ⟨Armed.run (armed_keyHandle stale) events, fun k => ⟨?_, ?_⟩⟩
  · have h := callbacks_le_presses k boxes events
    have hlow : boxes.box k = false := by cases k <;> rfl
    rwa [hlow] at h
  · rintro pre mid post rfl
    rw [actions_append, callbacks_append, actions, callbacks_append]
    have hraised : ∀ b : Boxes, (b.next k.press).1.box k = true := by
      intro b
      cases k <;> simp [Button.press, Boxes.next, Boxes.box, Button.port, Button.line]
    have h := callback_of_box k (hraised (run (fun b e => (b.next e).1) boxes pre)) mid post
    omega

end ExpertCar.KeyInterrupts
