import ExpertCar.MachineWords
import ExpertCar.StepRuns
import Mathlib.Data.Int.Basic
import Mathlib.Data.Fintype.Basic
import Mathlib.Logic.Function.Basic
import Mathlib.Tactic.FinCases

/-!
# Pin interrupts

`drv_gpio.c`: sixteen external lines, each routed to the pin of one port, share
seven interrupt vectors. A table keeps the handler attached to each line, a mask
the lines that are enabled; a vector is switched on with its first line and off
with its last. An edge leaves a pending bit behind, and the vector serves the
pending bits of all its lines, in their order.
-/
namespace ExpertCar.PinIrq
open StepRuns

abbrev Line := Fin 16

/-- `GPIOA` to `GPIOG`. -/
abbrev Port := Fin 7

inductive Irqno where
  | exti0 | exti1 | exti2 | exti3 | exti4 | exti9_5 | exti15_10
  deriving DecidableEq, Repr

/-- `pins[]`: sixteen pins for each port, numbered through. -/
def getPin (pin : BitVec 8) : Option (Port × Line) :=
  if h : pin.toNat < 112 then
    some (⟨pin.toNat / 16, by omega⟩, ⟨pin.toNat % 16, Nat.mod_lt _ (by decide)⟩)
  else none

/-- The vector of each entry of `pin_irq_map`. -/
def pinIrqMap (line : Line) : Irqno :=
  match line.val with
  | 0 => .exti0
  | 1 => .exti1
  | 2 => .exti2
  | 3 => .exti3
  | 4 => .exti4
  | n => if n ≤ 9 then .exti9_5 else .exti15_10

/-- The lines a vector's handler looks at, in its order. -/
def Irqno.lines : Irqno → List Line
  | .exti0 => [0]
  | .exti1 => [1]
  | .exti2 => [2]
  | .exti3 => [3]
  | .exti4 => [4]
  | .exti9_5 => [5, 6, 7, 8, 9]
  | .exti15_10 => [10, 11, 12, 13, 14, 15]

/-- `struct rt_pin_irq_hdr`; `-1` marks a free entry. -/
structure Hdr (H : Type) where
  pin : BitVec 16
  mode : BitVec 16
  hdr : Option H
  args : Word
  deriving DecidableEq

def Hdr.free {H : Type} : Hdr H := ⟨-1, 0, none, 0⟩

/-- Per line: the port it is routed to, interrupt mask, edge selection, pending bit. -/
structure Exti where
  exticr : Line → Port
  imr : Line → Bool
  rtsr : Line → Bool
  ftsr : Line → Bool
  pr : Line → Bool

def Exti.reset : Exti :=
  ⟨fun _ => 0, fun _ => false, fun _ => false, fun _ => false, fun _ => false⟩

/-- The bits of `pin_irq_enable_mask` are indexed by their line. -/
structure Gpio (H : Type) where
  pinIrqHdrTab : Line → Hdr H
  pinIrqEnableMask : Line → Bool
  nvic : Irqno → Bool
  exti : Exti

def Gpio.boot {H : Type} : Gpio H := ⟨fun _ => .free, fun _ => false, fun _ => false, .reset⟩

def rtEok : ℤ := 0
def rtEnosys : ℤ := 6
def rtEbusy : ℤ := 7

def pinIrqModeRising : BitVec 16 := 0
def pinIrqModeFalling : BitVec 16 := 1
def pinIrqModeRisingFalling : BitVec 16 := 2

def gpioModeItRising : Word := 0x10110000
def gpioModeItFalling : Word := 0x10210000
def gpioModeItRisingFalling : Word := 0x10310000

def has (mode bits : Word) : Bool := mode &&& bits == bits

/-- The external-interrupt part of `HAL_GPIO_Init`. -/
def Exti.init (gpio : Port) (line : Line) (mode : Word) (e : Exti) : Exti :=
  if has mode 0x10000000 then
    { e with
      exticr := Function.update e.exticr line gpio
      imr := Function.update e.imr line (has mode 0x00010000)
      rtsr := Function.update e.rtsr line (has mode 0x00100000)
      ftsr := Function.update e.ftsr line (has mode 0x00200000) }
  else e

/-- The external-interrupt part of `HAL_GPIO_DeInit`. -/
def Exti.deInit (gpio : Port) (line : Line) (e : Exti) : Exti :=
  if e.exticr line = gpio then
    { e with
      exticr := Function.update e.exticr line 0
      imr := Function.update e.imr line false
      rtsr := Function.update e.rtsr line false
      ftsr := Function.update e.ftsr line false }
  else e

section Driver
variable {H : Type} [DecidableEq H]

def stm32PinAttachIrq (pin mode : Word) (hdr : Option H) (args : Word) (g : Gpio H) :
    Gpio H × ℤ :=
  match getPin (pin.setWidth 8) with
  | none => (g, rtEnosys)
  | some (_, irqindex) =>
    let entry := g.pinIrqHdrTab irqindex
    if entry.pin.signExtend 32 = pin ∧ entry.hdr = hdr ∧ entry.mode.setWidth 32 = mode ∧
        entry.args = args then (g, rtEok)
    else if entry.pin ≠ -1 then (g, rtEbusy)
    else
      let entry := ⟨pin.setWidth 16, mode.setWidth 16, hdr, args⟩
      ({ g with pinIrqHdrTab := Function.update g.pinIrqHdrTab irqindex entry }, rtEok)

def stm32PinDettachIrq (pin : Word) (g : Gpio H) : Gpio H × ℤ :=
  match getPin (pin.setWidth 8) with
  | none => (g, rtEnosys)
  | some (_, irqindex) =>
    if (g.pinIrqHdrTab irqindex).pin = -1 then (g, rtEok)
    else ({ g with pinIrqHdrTab := Function.update g.pinIrqHdrTab irqindex .free }, rtEok)

/-- `GPIO_InitStruct.Mode`; no case assigns it for a level mode, so that what the
stack held stays. -/
def initMode (stale : Word) (mode : BitVec 16) : Word :=
  if mode = pinIrqModeRising then gpioModeItRising
  else if mode = pinIrqModeFalling then gpioModeItFalling
  else if mode = pinIrqModeRisingFalling then gpioModeItRisingFalling
  else stale

/-- `HAL_NVIC_DisableIRQ` with the last line of the vector. -/
def disableVector (mask : Line → Bool) (line : Line) (nvic : Irqno → Bool) : Irqno → Bool :=
  if 5 ≤ line.val ∧ line.val ≤ 9 then
    if mask 5 || mask 6 || mask 7 || mask 8 || mask 9 then nvic
    else Function.update nvic (pinIrqMap line) false
  else if 10 ≤ line.val ∧ line.val ≤ 15 then
    if mask 10 || mask 11 || mask 12 || mask 13 || mask 14 || mask 15 then nvic
    else Function.update nvic (pinIrqMap line) false
  else Function.update nvic (pinIrqMap line) false

def stm32PinIrqEnable (stale pin enabled : Word) (g : Gpio H) : Gpio H × ℤ :=
  match getPin (pin.setWidth 8) with
  | none => (g, rtEnosys)
  | some (gpio, irqindex) =>
    if enabled = 1 then
      if (g.pinIrqHdrTab irqindex).pin = -1 then (g, rtEnosys)
      else
        ({ g with
            exti := g.exti.init gpio irqindex (initMode stale (g.pinIrqHdrTab irqindex).mode)
            nvic := Function.update g.nvic (pinIrqMap irqindex) true
            pinIrqEnableMask := Function.update g.pinIrqEnableMask irqindex true }, rtEok)
    else if enabled = 0 then
      let mask := Function.update g.pinIrqEnableMask irqindex false
      ({ g with
          exti := g.exti.deInit gpio irqindex
          pinIrqEnableMask := mask
          nvic := disableVector mask irqindex g.nvic }, rtEok)
    else (g, -rtEnosys)

/-! ### The interrupts -/

/-- `pin_irq_hdr`: the handler called, with its argument. -/
def pinIrqHdr (irqno : Line) (g : Gpio H) : Option (H × Word) :=
  (g.pinIrqHdrTab irqno).hdr.map fun hdr => (hdr, (g.pinIrqHdrTab irqno).args)

/-- `HAL_GPIO_EXTI_IRQHandler`: a pending line is cleared and its callback runs. -/
def halGpioExtiIrqHandler (st : Gpio H × List (H × Word)) (line : Line) :
    Gpio H × List (H × Word) :=
  if st.1.exti.pr line then
    ({ st.1 with exti := { st.1.exti with pr := Function.update st.1.exti.pr line false } },
      st.2 ++ (pinIrqHdr line st.1).toList)
  else st

/-- A vector's handler, with the calls it makes. -/
def extiIrqHandler (irq : Irqno) (g : Gpio H) : Gpio H × List (H × Word) :=
  irq.lines.foldl halGpioExtiIrqHandler (g, [])

omit [DecidableEq H] in
theorem foldl_irqHandler (lines : List Line) (hnd : lines.Nodup) (g : Gpio H)
    (calls : List (H × Word)) :
    lines.foldl halGpioExtiIrqHandler (g, calls) =
      ({ g with exti := { g.exti with pr := fun l => g.exti.pr l && decide (l ∉ lines) } },
        calls ++ (lines.filter g.exti.pr).flatMap fun l => (pinIrqHdr l g).toList) := by
  induction lines generalizing g calls with
  | nil => simp
  | cons line lines ih =>
      obtain ⟨hnew, hnd⟩ := List.nodup_cons.mp hnd
      rw [List.foldl_cons]
      by_cases hp : g.exti.pr line = true
      · have hstep : halGpioExtiIrqHandler (g, calls) line =
            ({ g with exti := { g.exti with pr := Function.update g.exti.pr line false } },
              calls ++ (pinIrqHdr line g).toList) := if_pos hp
        have hfilter : lines.filter (Function.update g.exti.pr line false) =
            lines.filter g.exti.pr :=
          List.filter_congr fun l hl => Function.update_of_ne (ne_of_mem_of_not_mem hl hnew) _ _
        have hpr : (fun l => Function.update g.exti.pr line false l && decide (l ∉ lines)) =
            fun l => g.exti.pr l && decide (l ∉ line :: lines) := by
          funext l
          by_cases hl : l = line
          · simp [hl]
          · simp [hl]
        rw [hstep, ih hnd]
        simp only [hpr, hfilter, List.filter_cons, if_pos hp, List.flatMap_cons, List.append_assoc]
        rfl
      · have hstep : halGpioExtiIrqHandler (g, calls) line = (g, calls) := if_neg hp
        have hpr : (fun l => g.exti.pr l && decide (l ∉ lines)) =
            fun l => g.exti.pr l && decide (l ∉ line :: lines) := by
          funext l
          by_cases hl : l = line
          · simp [hl, hp]
          · simp [hl]
        rw [hstep, ih hnd, hpr, List.filter_cons, if_neg hp]

omit [DecidableEq H] in
/-- A vector's handler clears the pending bits of its lines and calls what is
attached to those that were pending, each once and in order. -/
theorem extiIrqHandler_eq (irq : Irqno) (g : Gpio H) :
    extiIrqHandler irq g =
      ({ g with exti := { g.exti with pr := fun l => g.exti.pr l && decide (l ∉ irq.lines) } },
        (irq.lines.filter g.exti.pr).flatMap fun l => (pinIrqHdr l g).toList) := by
  have hnd : irq.lines.Nodup := by cases irq <;> decide
  exact (foldl_irqHandler irq.lines hnd g []).trans (by rw [List.nil_append])

/-- A level change on a pin, seen by the line if it is routed to that port. -/
def Exti.edge (gpio : Port) (line : Line) (rising : Bool) (e : Exti) : Exti :=
  if e.exticr line = gpio ∧ (if rising then e.rtsr line else e.ftsr line) then
    { e with pr := Function.update e.pr line true }
  else e

theorem Exti.edge_pr (gpio : Port) (line : Line) (rising : Bool) (e : Exti) (l : Line) :
    (e.edge gpio line rising).pr l =
      (e.pr l || decide (l = line ∧ e.exticr line = gpio ∧
        (if rising then e.rtsr line else e.ftsr line) = true)) := by
  unfold Exti.edge
  by_cases hseen : e.exticr line = gpio ∧ (if rising then e.rtsr line else e.ftsr line) = true
  · rw [if_pos hseen]
    by_cases hl : l = line
    · subst hl
      rw [decide_eq_true ⟨rfl, hseen⟩, Bool.or_true]
      exact Function.update_self l true e.pr
    · rw [decide_eq_false fun h => hl h.1, Bool.or_false]
      exact Function.update_of_ne hl true e.pr
  · rw [if_neg hseen, decide_eq_false fun h => hseen h.2, Bool.or_false]

/-- An edge changes pending bits only. -/
theorem Exti.edge_frame (gpio : Port) (line : Line) (rising : Bool) (e : Exti) :
    (e.edge gpio line rising).exticr = e.exticr ∧ (e.edge gpio line rising).imr = e.imr ∧
      (e.edge gpio line rising).rtsr = e.rtsr ∧ (e.edge gpio line rising).ftsr = e.ftsr := by
  unfold Exti.edge
  split_ifs <;> exact ⟨rfl, rfl, rfl, rfl⟩

/-- The vector is taken: it is on, and an unmasked line of it is pending. -/
def Gpio.Taken (irq : Irqno) (g : Gpio H) : Prop :=
  g.nvic irq = true ∧ ∃ line ∈ irq.lines, g.exti.pr line = true ∧ g.exti.imr line = true

instance (irq : Irqno) (g : Gpio H) : Decidable (g.Taken irq) :=
  inferInstanceAs (Decidable (_ ∧ _))

/-! ### The vectors and the enabled lines -/

inductive Call (H : Type) where
  | attach (pin mode : Word) (hdr : Option H) (args : Word)
  | dettach (pin : Word)
  | irqEnable (stale pin enabled : Word)

/-- What each call does to the state; the results are those of the functions. -/
def serve (g : Gpio H) : Call H → Gpio H
  | .attach pin mode hdr args => (stm32PinAttachIrq pin mode hdr args g).1
  | .dettach pin => (stm32PinDettachIrq pin g).1
  | .irqEnable stale pin enabled => (stm32PinIrqEnable stale pin enabled g).1

/-- A handler attached to a free line takes its entry. -/
theorem serve_attach {g : Gpio H} {pin : Word} {gpio : Port} {line : Line}
    (hpin : getPin (pin.setWidth 8) = some (gpio, line)) (hfree : g.pinIrqHdrTab line = .free)
    (mode : Word) (hdr : H) (args : Word) :
    serve g (.attach pin mode (some hdr) args) =
      { g with pinIrqHdrTab := Function.update g.pinIrqHdrTab line
                ⟨pin.setWidth 16, mode.setWidth 16, some hdr, args⟩ } := by
  simp only [serve, stm32PinAttachIrq, hpin]
  simp [hfree, Hdr.free]

/-- Enabling a taken line routes it, switches its vector on and marks it. -/
theorem serve_irqEnable {g : Gpio H} {pin : Word} {gpio : Port} {line : Line}
    (hpin : getPin (pin.setWidth 8) = some (gpio, line))
    (htaken : (g.pinIrqHdrTab line).pin ≠ -1) (stale : Word) :
    serve g (.irqEnable stale pin 1) =
      { g with
        exti := g.exti.init gpio line (initMode stale (g.pinIrqHdrTab line).mode)
        nvic := Function.update g.nvic (pinIrqMap line) true
        pinIrqEnableMask := Function.update g.pinIrqEnableMask line true } := by
  simp only [serve, stm32PinIrqEnable, hpin]
  rw [if_pos trivial, if_neg htaken]

theorem mem_lines (irq : Irqno) (line : Line) : line ∈ irq.lines ↔ pinIrqMap line = irq := by
  revert line
  cases irq <;> decide

theorem ne_of_mem_lines {irq : Irqno} {line l : Line} (h : irq ≠ pinIrqMap line)
    (hl : l ∈ irq.lines) : l ≠ line := by
  rintro rfl
  exact h ((mem_lines irq l).mp hl).symm

/-- An entry is free or holds a pin of its own line; a vector is on exactly while
one of its lines is enabled. -/
structure Consistent (g : Gpio H) : Prop where
  entry : ∀ line, (g.pinIrqHdrTab line).pin = -1 ∧ (g.pinIrqHdrTab line).hdr = none ∨
    ∃ gpio, getPin ((g.pinIrqHdrTab line).pin.setWidth 8) = some (gpio, line)
  vector : ∀ irq, g.nvic irq = true ↔ ∃ line ∈ irq.lines, g.pinIrqEnableMask line = true

omit [DecidableEq H] in
theorem consistent_boot : Consistent (Gpio.boot : Gpio H) :=
  ⟨fun _ => Or.inl ⟨rfl, rfl⟩, fun _ => by simp [Gpio.boot]⟩

theorem disableVector_eq (mask : Line → Bool) (line : Line) (nvic : Irqno → Bool)
    (hline : mask line = false) :
    disableVector mask line nvic =
      if ∃ l ∈ (pinIrqMap line).lines, mask l = true then nvic
      else Function.update nvic (pinIrqMap line) false := by
  unfold disableVector
  fin_cases line <;> simp_all [pinIrqMap, Irqno.lines, or_assoc]

omit [DecidableEq H] in
theorem Consistent.enable {g : Gpio H} (h : Consistent g) (exti : Exti) (line : Line) :
    Consistent { g with
      exti := exti
      nvic := Function.update g.nvic (pinIrqMap line) true
      pinIrqEnableMask := Function.update g.pinIrqEnableMask line true } := by
  refine ⟨h.entry, fun irq => ?_⟩
  by_cases hirq : irq = pinIrqMap line
  · subst hirq
    simp only [Function.update_self, true_iff]
    exact ⟨line, (mem_lines _ _).mpr rfl, Function.update_self _ _ _⟩
  · dsimp only
    rw [Function.update_of_ne hirq, h.vector irq]
    refine exists_congr fun l => and_congr_right fun hl => ?_
    rw [Function.update_of_ne (ne_of_mem_lines hirq hl)]

omit [DecidableEq H] in
theorem Consistent.disable {g : Gpio H} (h : Consistent g) (exti : Exti) (line : Line) :
    Consistent { g with
      exti := exti
      pinIrqEnableMask := Function.update g.pinIrqEnableMask line false
      nvic := disableVector (Function.update g.pinIrqEnableMask line false) line g.nvic } := by
  refine ⟨h.entry, fun irq => ?_⟩
  simp only [disableVector_eq _ line _ (Function.update_self line false g.pinIrqEnableMask)]
  by_cases hirq : irq = pinIrqMap line
  · subst hirq
    split_ifs with hany
    · refine iff_of_true ((h.vector _).mpr ?_) hany
      -- a line still enabled is another one, enabled before
      obtain ⟨l, hl, hon⟩ := hany
      have hne : l ≠ line := by
        rintro rfl
        rw [Function.update_self] at hon
        exact Bool.noConfusion hon
      rw [Function.update_of_ne hne] at hon
      exact ⟨l, hl, hon⟩
    · exact iff_of_false (by rw [Function.update_self]; exact Bool.false_ne_true) hany
  · have hkeep : ∀ l ∈ irq.lines, Function.update g.pinIrqEnableMask line false l =
        g.pinIrqEnableMask l := by
      intro l hl
      exact Function.update_of_ne (ne_of_mem_lines hirq hl) _ _
    have hsame : (if ∃ l ∈ (pinIrqMap line).lines,
        Function.update g.pinIrqEnableMask line false l = true then g.nvic
        else Function.update g.nvic (pinIrqMap line) false) irq = g.nvic irq := by
      split_ifs
      · rfl
      · exact Function.update_of_ne hirq _ _
    rw [hsame, h.vector irq]
    exact exists_congr fun l => and_congr_right fun hl => by rw [hkeep l hl]

omit [DecidableEq H] in
theorem Consistent.replace {g : Gpio H} (h : Consistent g) {irqindex : Line} {entry : Hdr H}
    (hentry : entry.pin = -1 ∧ entry.hdr = none ∨
      ∃ gpio, getPin (entry.pin.setWidth 8) = some (gpio, irqindex)) :
    Consistent { g with pinIrqHdrTab := Function.update g.pinIrqHdrTab irqindex entry } := by
  refine ⟨fun line => ?_, h.vector⟩
  by_cases hline : line = irqindex
  · subst hline
    simp only [Function.update_self]
    exact hentry
  · simp only [Function.update_of_ne hline]
    exact h.entry line

theorem Consistent.serve {g : Gpio H} (h : Consistent g) (c : Call H) :
    Consistent (serve g c) := by
  cases c with
  | attach pin mode hdr args =>
      simp only [PinIrq.serve, stm32PinAttachIrq]
      cases hpin : getPin (pin.setWidth 8) with
      | none => exact h
      | some place =>
          obtain ⟨gpio, irqindex⟩ := place
          dsimp only
          split_ifs
          · exact h
          · exact h
          · refine h.replace (Or.inr ⟨gpio, ?_⟩)
            rw [BitVec.setWidth_setWidth_of_le _ (by decide)]
            exact hpin
  | dettach pin =>
      simp only [PinIrq.serve, stm32PinDettachIrq]
      cases hpin : getPin (pin.setWidth 8) with
      | none => exact h
      | some place =>
          obtain ⟨gpio, irqindex⟩ := place
          dsimp only
          split_ifs
          · exact h
          · exact h.replace (Or.inl ⟨rfl, rfl⟩)
  | irqEnable stale pin enabled =>
      simp only [PinIrq.serve, stm32PinIrqEnable]
      cases hpin : getPin (pin.setWidth 8) with
      | none => exact h
      | some place =>
          obtain ⟨gpio, irqindex⟩ := place
          dsimp only
          split_ifs
          · exact h
          · exact h.enable _ irqindex
          · exact h.disable _ irqindex
          · exact h

/-- After any calls of any threads every table entry is free or holds a pin of its
own line, and a vector is on if and only if one of its lines is enabled. -/
theorem consistent_run (calls : List (Call H)) : Consistent (run serve Gpio.boot calls) :=
  run_invariant PinIrq.serve (fun _ c h => h.serve c) consistent_boot calls

end Driver

end ExpertCar.PinIrq
