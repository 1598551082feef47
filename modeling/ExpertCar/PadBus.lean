import ExpertCar.MachineWords
import ExpertCar.BitOrder
import Mathlib.Logic.Function.Basic

/-!
# Pins of the game pad and the slave behind them

The host drives CS, CLK and DO and reads DI. While CS is low the pad presents
one reply bit on DI for each low-high pulse of CLK and samples DO on the same
pulse; a falling CS starts a new transaction. A rising CLK without a preceding
low phase in the transaction is no pulse. With CS high the pull-up holds DI.
-/
namespace ExpertCar.PadBus
open BitOrder

abbrev Frame := Fin 9 → Byte

/-- Bytes of a frame, which numerals index. -/
instance frameBytes : NeZero 9 := ⟨by decide⟩

/-- Bit `n mod 8` of byte `n / 8`; beyond the frame the line is pulled up. -/
def replyBits (f : Frame) (n : ℕ) : Bool :=
  if h : n / 8 < 9 then (f ⟨n / 8, h⟩).getLsbD (n % 8) else true

/-- Levels on the three driven pins, and the pad: the bits it will present by
pulse number, the pulses completed since CS fell, whether CLK is in the low half
of a pulse, and the DO levels sampled so far. -/
structure Bus where
  cs : Bool
  clk : Bool
  dO : Bool
  reply : ℕ → Bool
  pulses : ℕ
  low : Bool
  received : List Bool

namespace Bus

def writeCs (level : Bool) (b : Bus) : Bus :=
  match level with
  | false => if b.cs then { b with cs := false, pulses := 0, low := false, received := [] } else b
  | true => { b with cs := true, low := false }

def writeClk (level : Bool) (b : Bus) : Bus :=
  if b.cs then { b with clk := level } else
    match level with
    | false => if b.clk then { b with clk := false, low := true } else b
    | true =>
        if b.low then
          { b with clk := true, low := false, pulses := b.pulses + 1,
                   received := b.received ++ [b.dO] }
        else { b with clk := true }

def writeDo (level : Bool) (b : Bus) : Bus := { b with dO := level }

/-- `rt_pin_read(DI_PIN)`: the bit of the pulse in progress or just completed. -/
def di (b : Bus) : Bool :=
  if b.cs then true
  else if b.low then b.reply b.pulses
  else if b.pulses = 0 then true
  else b.reply (b.pulses - 1)

def attach (f : Frame) (b : Bus) : Bus := { b with reply := replyBits f }

def Selected (b : Bus) : Prop := b.cs = false ∧ b.low = false

/-- `CLK_H; DELAY_TIME; CLK_L; DELAY_TIME; CLK_H;` -/
def clock (b : Bus) : Bus := ((b.writeClk true).writeClk false).writeClk true

theorem clock_selected {b : Bus} (h : b.Selected) :
    b.clock = { b with clk := true, pulses := b.pulses + 1, received := b.received ++ [b.dO] } := by
  rcases b with ⟨cs, clk, dO, reply, pulses, low, received⟩
  obtain ⟨rfl, rfl⟩ := h
  rfl

/-- After a pulse DI still carries the bit of that pulse. -/
theorem di_clock {b : Bus} (h : b.Selected) : b.clock.di = b.reply b.pulses := by
  rw [clock_selected h]
  simp [di, h.1, h.2]

theorem writeCs_select {b : Bus} (h : b.cs = true) :
    b.writeCs false = { b with cs := false, pulses := 0, low := false, received := [] } := by
  simp [writeCs, h]

end Bus

/-- All lines high, as `PS2_Init` leaves them. -/
def Bus.released : Bus := ⟨true, true, true, fun _ => true, 0, false, []⟩

/-- The byte read from pulses `n, …, n + 7`. -/
def wireByte (bits : ℕ → Bool) (n : ℕ) : Byte :=
  (List.range 8).foldl (fun x j => orBit x j (bits (n + j))) 0#8

theorem wireByte_replyBits (f : Frame) (i : Fin 9) : wireByte (replyBits f) (8 * i) = f i := by
  have hbits : ∀ j, j < 8 → replyBits f (8 * i + j) = (f i).getLsbD j := by
    intro j hj
    have hdiv : (8 * i.val + j) / 8 = i.val := by omega
    have hmod : (8 * i.val + j) % 8 = j := by omega
    simp only [replyBits, hdiv, hmod, i.isLt, dite_true, Fin.eta]
  refine (List.foldl_ext _ _ _ fun x j hj => ?_).trans (foldl_orBit_getLsbD (f i))
  rw [hbits j (List.mem_range.mp hj)]

end ExpertCar.PadBus
