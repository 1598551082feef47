import ExpertCar.MachineWords
import ExpertCar.StepRuns
import Mathlib.Data.Int.Basic

/-!
# The servo loop

`duoji_handle`: a hold counter, the recentring key, and two rate-controlled
pulses bounded by a guard. A guard adds the signed speed to the unsigned 32-bit
pulse, so sums and comparisons are those of 32-bit words. Each of the five reads
of the pad globals in one iteration is an input of its own.
-/
namespace ExpertCar.ServoControl

def period : BitVec 32 := 9999999

/-- Pulses, locals of the loop, and the pulse last passed to `rt_pwm_set` on
each of the two channels. -/
structure State where
  duoji1Pulse : BitVec 32
  duoji2Pulse : BitVec 32
  duoji1Speed : ℤ
  duoji2Speed : ℤ
  ps2Flag : Byte
  i : Byte
  pwm1 : BitVec 32
  pwm2 : BitVec 32
  deriving DecidableEq, Repr

def State.initial : State := ⟨750000, 750000, 0, 0, 0, 0, 750000, 750000⟩

structure Reads where
  ps2KEY : Byte
  ps2RXTest : Byte
  ps2RYTest : Byte
  ps2RY : Byte
  ps2RX : Byte

def Reads.steady (key rx ry : Byte) : Reads := ⟨key, rx, ry, ry, rx⟩

/-- `if(ps2_flag==1) if(i++>=50) { i=0; ps2_flag=0; }` -/
def hold (s : State) : State :=
  if s.ps2Flag = 1 then
    if s.i ≥ 50 then { s with i := 0, ps2Flag := 0 } else { s with i := s.i + 1 }
  else s

/-- `if(PS2_KEY==8)` recentres both pulses and starts a hold. -/
def recentre (key : Byte) (s : State) : State :=
  if key = 8 then { s with ps2Flag := 1, duoji1Pulse := 950000, duoji2Pulse := 600000 } else s

/-- `speed + pulse`, the int converted to unsigned. -/
def sum (speed : ℤ) (pulse : BitVec 32) : BitVec 32 := BitVec.ofInt 32 speed + pulse

/-- `if(sum<1250000 && sum>325000) pulse += speed;` -/
def advance (speed : ℤ) (pulse : BitVec 32) : BitVec 32 :=
  if sum speed pulse < 1250000 ∧ sum speed pulse > 325000 then pulse + BitVec.ofInt 32 speed
  else pulse

def followStick (r : Reads) (s : State) : State :=
  let duoji1Speed := if r.ps2RYTest ≠ 63 then -((r.ps2RY.toNat : ℤ) - 128) * 50 else 0
  let duoji1Pulse := advance duoji1Speed s.duoji1Pulse
  let duoji2Speed := -((r.ps2RX.toNat : ℤ) - 127) * 50
  let duoji2Pulse := advance duoji2Speed s.duoji2Pulse
  { s with duoji1Speed := duoji1Speed, duoji1Pulse := duoji1Pulse
           duoji2Speed := duoji2Speed, duoji2Pulse := duoji2Pulse
           pwm1 := duoji1Pulse, pwm2 := duoji2Pulse }

def duojiHandle (s : State) (r : Reads) : State :=
  let s := recentre r.ps2KEY (hold s)
  if r.ps2RXTest ≠ 63 ∧ s.ps2Flag = 0 then followStick r s else s

/-- Without the recentring key and outside a hold, the iteration follows the sticks. -/
theorem duojiHandle_eq_followStick {s : State} {r : Reads} (hkey : r.ps2KEY ≠ 8)
    (hflag : (hold s).ps2Flag = 0) (hrx : r.ps2RXTest ≠ 63) :
    duojiHandle s r = followStick r (hold s) := by
  have hr : recentre r.ps2KEY (hold s) = hold s := if_neg hkey
  simp only [duojiHandle, hr]
  exact if_pos ⟨hrx, hflag⟩

/-- From the start values, zero stick bytes move the first pulse at once. -/
theorem duojiHandle_initial_moves (key : Byte) :
    (duojiHandle State.initial (Reads.steady key 0 0)).duoji1Pulse ≠ 750000 := by
  by_cases hk : key = 8
  · subst hk
    decide
  · have h := duojiHandle_eq_followStick (s := State.initial) (r := Reads.steady key 0 0) hk
      (by decide) (show (0 : Byte) ≠ 63 by decide)
    rw [h]
    exact (by decide : (followStick (Reads.steady 0 0 0) State.initial).duoji1Pulse ≠ 750000)

end ExpertCar.ServoControl
