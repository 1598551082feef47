import ExpertCar.MachineWords
import ExpertCar.SingleFloat
import ExpertCar.StepRuns
import Mathlib.Algebra.Order.Group.Int
import Mathlib.Tactic.Linarith

/-!
# The wheel command loop

`motor.c`: one iteration of `motor_control` turns the published left stick into
two signed wheel commands and hands them to `motor_pwm_set`, which writes the
four direction pins and the two PWM pulses. Signed 32-bit values are integers
here; the bounds proved below keep every one of them inside the type. What the
float expression of the low-pass filter yields is an argument of the iteration,
one function for each axis; all later float operations are on integers below
`2^24` and are rounded explicitly, so that their exactness is a theorem. Next to
it stand two such functions: the exact fifth, and the value the single-precision
operations of the source compute.
-/
namespace ExpertCar.MotorControl
open StepRuns

inductive Pin where
  | ain1 | ain2 | bin1 | bin2
  deriving DecidableEq, Repr

/-- `PWMA_CHANNEL` and `PWMB_CHANNEL` of the device `pwm1`. -/
inductive Channel where
  | pwma | pwmb
  deriving DecidableEq, Repr

/-- The calls into the drivers, with the arguments that reach them. -/
inductive HwCall where
  | rtPinWrite (pin : Pin) (level : Bool)
  | rtPwmSet (channel : Channel) (period pulse : ℕ)
  deriving DecidableEq, Repr

def aPeriod : ℕ := 320000
def bPeriod : ℕ := 320000

def Channel.period : Channel → ℕ
  | .pwma => aPeriod
  | .pwmb => bPeriod

/-- Conversion of an `rt_int32_t` argument to `rt_uint32_t`. -/
def toUInt32 (x : ℤ) : ℕ := (x % 2 ^ 32).toNat

def pwmAmotorSet (value : ℕ) : List HwCall := [.rtPwmSet .pwma aPeriod value]
def pwmBmotorSet (value : ℕ) : List HwCall := [.rtPwmSet .pwmb bPeriod value]

def aMotorForward : List HwCall := [.rtPinWrite .ain2 false, .rtPinWrite .ain1 true]
def aMotorBackward : List HwCall := [.rtPinWrite .ain1 false, .rtPinWrite .ain2 true]
def bMotorForward : List HwCall := [.rtPinWrite .bin1 false, .rtPinWrite .bin2 true]
def bMotorBackward : List HwCall := [.rtPinWrite .bin1 true, .rtPinWrite .bin2 false]

def myabs (a : ℤ) : ℤ := if a < 0 then -a else a

/-- The driver calls of `motor_pwm_set(motor1, motor2)`, in program order. -/
def motorPwmSet (motor1 motor2 : ℤ) : List HwCall :=
  (if motor1 > 0 then aMotorBackward ++ pwmAmotorSet (toUInt32 (myabs motor1))
    else aMotorForward ++ pwmAmotorSet (toUInt32 (myabs motor1))) ++
  (if motor2 > 0 then bMotorBackward ++ pwmBmotorSet (toUInt32 (myabs motor2))
    else bMotorForward ++ pwmBmotorSet (toUInt32 (myabs motor2)))

structure Drive where
  ain1 : Bool
  ain2 : Bool
  bin1 : Bool
  bin2 : Bool
  aPulse : ℕ
  bPulse : ℕ
  deriving DecidableEq, Repr

def Drive.apply (d : Drive) : HwCall → Drive
  | .rtPinWrite .ain1 level => { d with ain1 := level }
  | .rtPinWrite .ain2 level => { d with ain2 := level }
  | .rtPinWrite .bin1 level => { d with bin1 := level }
  | .rtPinWrite .bin2 level => { d with bin2 := level }
  | .rtPwmSet .pwma _ pulse => { d with aPulse := pulse }
  | .rtPwmSet .pwmb _ pulse => { d with bPulse := pulse }

def limitChange (change maxChangeRate : ℤ) : ℤ :=
  if change > maxChangeRate then maxChangeRate
  else if change < -maxChangeRate then -maxChangeRate
  else change

/-- `prev + limit_change(value - prev, max_change_rate)`: both operands of the
float addition and both arguments of the call are converted from integers. -/
def limitStep (prev value : ℤ) : ℤ :=
  SingleFloat.ofInt (SingleFloat.ofInt prev +
    limitChange (SingleFloat.ofInt (value - prev)) (SingleFloat.ofInt 3280))

def clampSpeed (limit speed : ℤ) : ℤ :=
  if speed > limit then limit else if speed < -limit then -limit else speed

/-- A float blend of a new target and the previous value, truncated to an
integer. The only fact carried is that it stays between its two arguments. -/
structure Smoothing where
  blend : ℤ → ℤ → ℤ
  between : ∀ target prev, min target prev ≤ blend target prev ∧
    blend target prev ≤ max target prev

/-- `alpha * target + (1 - alpha) * prev` at `alpha = 1/5`, truncated toward zero. -/
def fifth (target prev : ℤ) : ℤ := (target + 4 * prev).tdiv 5

theorem fifth_between (target prev : ℤ) :
    min target prev ≤ fifth target prev ∧ fifth target prev ≤ max target prev := by
  have h := Int.tmod_add_tdiv_mul (target + 4 * prev) 5
  unfold fifth
  rcases le_total 0 (target + 4 * prev) with hs | hs
  · have hlo := Int.tmod_nonneg (5 : ℤ) hs
    have hhi := Int.tmod_lt_of_pos (target + 4 * prev) (by omega : (0 : ℤ) < 5)
    omega
  · have hlo := Int.lt_tmod_of_pos (target + 4 * prev) (by omega : (0 : ℤ) < 5)
    have hhi := Int.tmod_nonneg (5 : ℤ) (by omega : 0 ≤ -(target + 4 * prev))
    rw [Int.neg_tmod] at hhi
    omega

def Smoothing.exact : Smoothing := ⟨fifth, fifth_between⟩

/-- `alpha` in units of `2^-26`: `0.2` rounded to single precision. -/
def alpha : ℤ := 13421773

/-- `alpha * target + (1 - alpha) * prev` as single-precision floats compute it,
truncated to an integer; every intermediate value is in units of `2^-26`. -/
def lowPass (target prev : ℤ) : ℤ :=
  (SingleFloat.ofInt
    (SingleFloat.ofInt (alpha * SingleFloat.ofInt target) +
      SingleFloat.ofInt (SingleFloat.ofInt (2 ^ 26 - alpha) * SingleFloat.ofInt prev))).tdiv
    (2 ^ 26)

/-- The locals of `motor_control` that live across iterations, and the bridges. -/
structure State where
  speeda : ℤ
  speedb : ℤ
  usual : ℤ
  delta : ℤ
  prevUsual : ℤ
  prevDelta : ℤ
  drive : Drive

/-- Entry of the loop: zero locals, direction pins low, pulses `A_Pulse` and
`B_Pulse` as `pwm_init` set them. -/
def State.initial : State := ⟨0, 0, 0, 0, 0, 0, ⟨false, false, false, false, 0, 0⟩⟩

/-- The stick bytes one iteration reads and what the filter yields on each axis. -/
structure Sample where
  ps2LX : Byte
  ps2LY : Byte
  usualFilter : Smoothing
  deltaFilter : Smoothing

def usualTarget (ps2LY : Byte) : ℤ := (128 - (ps2LY.toNat : ℤ)) * 2400

def deltaTarget (ps2LX : Byte) : ℤ := (127 - (ps2LX.toNat : ℤ)) * 1600

/-- The body of the loop of `motor_control`, over what the filter expression
yields on each axis. -/
def motorIteration (usualBlend deltaBlend : ℤ → ℤ → ℤ) (ps2LX ps2LY : Byte) (s : State) :
    State :=
  let usual := usualTarget ps2LY
  let delta := deltaTarget ps2LX
  let usual := usualBlend usual s.prevUsual
  let delta := deltaBlend delta s.prevDelta
  let usual := limitStep s.prevUsual usual
  let delta := limitStep s.prevDelta delta
  let usual := if usual > 320000 then 320000 else usual
  let delta := if delta > 256000 then 256000 else delta
  let speeda := clampSpeed 320000 (usual + delta)
  let speedb := clampSpeed 256000 (usual - delta)
  { speeda := speeda, speedb := speedb, usual := usual, delta := delta
    prevUsual := usual, prevDelta := delta
    drive := (motorPwmSet speeda speedb).foldl Drive.apply s.drive }

def motorControl (s : State) (i : Sample) : State :=
  motorIteration i.usualFilter.blend i.deltaFilter.blend i.ps2LX i.ps2LY s

/-! ### What one call of `motor_pwm_set` leaves behind -/

theorem toUInt32_myabs {a : ℤ} (hlo : -(2 ^ 31) < a) (hhi : a < 2 ^ 31) :
    toUInt32 (myabs a) = a.natAbs := by
  unfold toUInt32 myabs
  split <;> omega

/-- Direction pins follow the signs and pulses the magnitudes. -/
theorem motorPwmSet_drive (motor1 motor2 : ℤ) (d : Drive)
    (h1 : -(2 ^ 31) < motor1 ∧ motor1 < 2 ^ 31) (h2 : -(2 ^ 31) < motor2 ∧ motor2 < 2 ^ 31) :
    (motorPwmSet motor1 motor2).foldl Drive.apply d =
      ⟨decide (motor1 ≤ 0), decide (0 < motor1), decide (0 < motor2), decide (motor2 ≤ 0),
        motor1.natAbs, motor2.natAbs⟩ := by
  unfold motorPwmSet
  rw [toUInt32_myabs h1.1 h1.2, toUInt32_myabs h2.1 h2.2]
  by_cases ha : motor1 > 0 <;> by_cases hb : motor2 > 0 <;>
    simp [ha, hb, aMotorForward, aMotorBackward, bMotorForward, bMotorBackward,
      pwmAmotorSet, pwmBmotorSet, Drive.apply] <;> omega

theorem motorPwmSet_pulse {motor1 motor2 : ℤ} {channel : Channel} {period pulse : ℕ}
    (h1 : |motor1| ≤ 320000) (h2 : |motor2| ≤ 256000)
    (h : HwCall.rtPwmSet channel period pulse ∈ motorPwmSet motor1 motor2) :
    pulse ≤ period ∧ period = channel.period := by
  rw [abs_le] at h1 h2
  have ha := toUInt32_myabs (a := motor1) (by omega) (by omega)
  have hb := toUInt32_myabs (a := motor2) (by omega) (by omega)
  unfold motorPwmSet at h
  rw [ha, hb] at h
  have hcases : (channel = .pwma ∧ period = aPeriod ∧ pulse = motor1.natAbs) ∨
      (channel = .pwmb ∧ period = bPeriod ∧ pulse = motor2.natAbs) := by
    by_cases hm : motor1 > 0 <;> by_cases hn : motor2 > 0 <;>
      simpa [hm, hn, aMotorForward, aMotorBackward, bMotorForward, bMotorBackward,
        pwmAmotorSet, pwmBmotorSet] using h
  rcases hcases with ⟨rfl, rfl, rfl⟩ | ⟨rfl, rfl, rfl⟩
  · exact ⟨by unfold aPeriod; omega, rfl⟩
  · exact ⟨by unfold bPeriod; omega, rfl⟩

/-! ### The stages of one iteration -/

theorem usualTarget_bounds (b : Byte) : -304800 ≤ usualTarget b ∧ usualTarget b ≤ 307200 := by
  have := b.isLt
  unfold usualTarget
  omega

theorem deltaTarget_bounds (b : Byte) : -204800 ≤ deltaTarget b ∧ deltaTarget b ≤ 203200 := by
  have := b.isLt
  unfold deltaTarget
  omega

/-- In the range of the wheel targets every float operation of the limiter is exact. -/
theorem limitStep_eq (prev value : ℤ) (hp : -320000 ≤ prev ∧ prev ≤ 320000)
    (hv : -320000 ≤ value ∧ value ≤ 320000) :
    limitStep prev value = prev + limitChange (value - prev) 3280 := by
  have hl : -3280 ≤ limitChange (value - prev) 3280 ∧ limitChange (value - prev) 3280 ≤ 3280 := by
    unfold limitChange
    split_ifs <;> omega
  unfold limitStep
  rw [SingleFloat.ofInt_exact (x := prev) (by omega) (by omega),
    SingleFloat.ofInt_exact (x := value - prev) (by omega) (by omega),
    SingleFloat.ofInt_exact (x := 3280) (by omega) (by omega),
    SingleFloat.ofInt_exact (by omega) (by omega)]

/-- The limited value moves toward the filtered one, by at most one step. -/
theorem limitStep_toward (prev value : ℤ) (hp : -320000 ≤ prev ∧ prev ≤ 320000)
    (hv : -320000 ≤ value ∧ value ≤ 320000) :
    min prev value ≤ limitStep prev value ∧ limitStep prev value ≤ max prev value ∧
      |limitStep prev value - prev| ≤ 3280 := by
  rw [limitStep_eq prev value hp hv, abs_le]
  unfold limitChange
  split_ifs <;> omega

theorem clampSpeed_abs {limit : ℤ} (h : 0 ≤ limit) (speed : ℤ) :
    |clampSpeed limit speed| ≤ limit := by
  rw [abs_le]
  unfold clampSpeed
  split_ifs <;> omega

theorem clampSpeed_mono {limit : ℤ} (h : 0 ≤ limit) {x y : ℤ} (hxy : x ≤ y) :
    clampSpeed limit x ≤ clampSpeed limit y := by
  unfold clampSpeed
  split_ifs <;> omega

theorem clampSpeed_lipschitz {limit : ℤ} (h : 0 ≤ limit) (x y : ℤ) :
    |clampSpeed limit x - clampSpeed limit y| ≤ |x - y| := by
  have hxy := le_abs_self (x - y)
  have hyx := neg_le_abs (x - y)
  rw [abs_le]
  unfold clampSpeed
  split_ifs <;> omega

theorem natAbs_add_of_reversal {old new : ℤ} {c : ℕ} (hd : |new - old| ≤ c)
    (h : (0 < old ∧ new ≤ 0) ∨ (old ≤ 0 ∧ 0 < new)) : old.natAbs + new.natAbs ≤ c := by
  rw [abs_le] at hd
  omega

/-! ### The invariant of the loop -/

/-- What holds whenever an iteration starts. A bridge whose command is zero has
a zero pulse, whichever way its pins point; this covers the pins before the
first call. -/
structure Inv (s : State) : Prop where
  usual : -304800 ≤ s.prevUsual ∧ s.prevUsual ≤ 307200
  delta : -204800 ≤ s.prevDelta ∧ s.prevDelta ≤ 203200
  speeda : s.speeda = clampSpeed 320000 (s.prevUsual + s.prevDelta)
  speedb : s.speedb = clampSpeed 256000 (s.prevUsual - s.prevDelta)
  aPulse : s.drive.aPulse = s.speeda.natAbs
  bPulse : s.drive.bPulse = s.speedb.natAbs
  aPins : s.speeda = 0 ∨
    (s.drive.ain1 = decide (s.speeda ≤ 0) ∧ s.drive.ain2 = decide (0 < s.speeda))
  bPins : s.speedb = 0 ∨
    (s.drive.bin1 = decide (0 < s.speedb) ∧ s.drive.bin2 = decide (s.speedb ≤ 0))

theorem inv_initial : Inv State.initial := by
  constructor <;> simp [State.initial, clampSpeed]

/-- One axis through filter, slew limiter and upper clamp: it stays in the hull
of its targets, so the clamp is inactive, and moves by at most one step. -/
theorem axis_step {lo hi target prev : ℤ} (limit : ℤ) (f : Smoothing)
    (hlo : -320000 ≤ lo) (hhi : hi ≤ limit) (hl : limit ≤ 320000)
    (ht : lo ≤ target ∧ target ≤ hi) (hp : lo ≤ prev ∧ prev ≤ hi) :
    (if limitStep prev (f.blend target prev) > limit then limit
      else limitStep prev (f.blend target prev)) = limitStep prev (f.blend target prev) ∧
    (lo ≤ limitStep prev (f.blend target prev) ∧ limitStep prev (f.blend target prev) ≤ hi) ∧
    |limitStep prev (f.blend target prev) - prev| ≤ 3280 := by
  have hf := f.between target prev
  have hs := limitStep_toward prev (f.blend target prev) (by omega) (by omega)
  have hrange : lo ≤ limitStep prev (f.blend target prev) ∧
      limitStep prev (f.blend target prev) ≤ hi := by omega
  exact ⟨if_neg (by omega), hrange, hs.2.2⟩

/-- What one iteration does from a state of the invariant: the new axis values
replace the old ones, and the commands and bridges are functions of them. -/
theorem motorControl_spec {s : State} (hs : Inv s) (i : Sample) :
    let usual := limitStep s.prevUsual (i.usualFilter.blend (usualTarget i.ps2LY) s.prevUsual)
    let delta := limitStep s.prevDelta (i.deltaFilter.blend (deltaTarget i.ps2LX) s.prevDelta)
    let speeda := clampSpeed 320000 (usual + delta)
    let speedb := clampSpeed 256000 (usual - delta)
    motorControl s i = ⟨speeda, speedb, usual, delta, usual, delta,
      ⟨decide (speeda ≤ 0), decide (0 < speeda), decide (0 < speedb), decide (speedb ≤ 0),
        speeda.natAbs, speedb.natAbs⟩⟩ := by
  have hu := axis_step 320000 i.usualFilter (by omega) (by omega) (by omega)
    (usualTarget_bounds i.ps2LY) hs.usual
  have hd := axis_step 256000 i.deltaFilter (by omega) (by omega) (by omega)
    (deltaTarget_bounds i.ps2LX) hs.delta
  intro usual delta speeda speedb
  have ha := abs_le.mp (clampSpeed_abs (by omega : (0 : ℤ) ≤ 320000) (usual + delta))
  have hb := abs_le.mp (clampSpeed_abs (by omega : (0 : ℤ) ≤ 256000) (usual - delta))
  have hdrive := motorPwmSet_drive speeda speedb s.drive
    (by omega) (by omega)
  simp only [motorControl, motorIteration, hu.1, hd.1]
  rw [← hdrive]

/-- Every bound on one iteration from `s` to `s'`. A reversal is a change of the
direction pins of a bridge, read from the bridge itself. -/
structure Envelope (s s' : State) : Prop where
  usual : -304800 ≤ s'.usual ∧ s'.usual ≤ 307200
  delta : -204800 ≤ s'.delta ∧ s'.delta ≤ 203200
  usualSlew : |s'.usual - s.prevUsual| ≤ 3280
  deltaSlew : |s'.delta - s.prevDelta| ≤ 3280
  speeda : |s'.speeda| ≤ 320000
  speedb : |s'.speedb| ≤ 256000
  notIntMin : s'.speeda ≠ -(2 ^ 31) ∧ s'.speedb ≠ -(2 ^ 31)
  pulse : ∀ channel period pulse,
    HwCall.rtPwmSet channel period pulse ∈ motorPwmSet s'.speeda s'.speedb →
      pulse ≤ period ∧ period = channel.period
  speedaStep : |s'.speeda - s.speeda| ≤ 6560
  speedbStep : |s'.speedb - s.speedb| ≤ 6560
  aReversal : (s'.drive.ain1, s'.drive.ain2) ≠ (s.drive.ain1, s.drive.ain2) →
    s.drive.aPulse + s'.drive.aPulse ≤ 6560
  bReversal : (s'.drive.bin1, s'.drive.bin2) ≠ (s.drive.bin1, s.drive.bin2) →
    s.drive.bPulse + s'.drive.bPulse ≤ 6560

/-- A bridge whose pins follow the sign of its command changes them only when
the command changes sign, or when the old command was zero. -/
theorem reversal_cases {old new : ℤ} {p q : Bool}
    (h : old = 0 ∨ (p = decide (old ≤ 0) ∧ q = decide (0 < old)))
    (hne : ¬ (decide (new ≤ 0) = p ∧ decide (0 < new) = q)) :
    old = 0 ∨ (0 < old ∧ new ≤ 0) ∨ (old ≤ 0 ∧ 0 < new) := by
  rcases h with h | ⟨rfl, rfl⟩
  · exact Or.inl h
  · by_cases ho : old ≤ 0 <;> by_cases hn : new ≤ 0
    · exact (hne ⟨by simp [ho, hn], by simp [not_lt.mpr ho, not_lt.mpr hn]⟩).elim
    · exact Or.inr (Or.inr ⟨ho, by omega⟩)
    · exact Or.inr (Or.inl ⟨by omega, hn⟩)
    · exact (hne ⟨by simp [ho, hn], by simp [not_le.mp ho, not_le.mp hn]⟩).elim

theorem pulse_sum_of_reversal {old new : ℤ} (hd : |new - old| ≤ 6560)
    (h : old = 0 ∨ (0 < old ∧ new ≤ 0) ∨ (old ≤ 0 ∧ 0 < new)) :
    old.natAbs + new.natAbs ≤ 6560 := by
  rcases h with rfl | h
  · rw [abs_le] at hd
    omega
  · exact natAbs_add_of_reversal hd h

theorem motorControl_step {s : State} (hs : Inv s) (i : Sample) :
    Inv (motorControl s i) ∧ Envelope s (motorControl s i) := by
  have hu := axis_step 320000 i.usualFilter (by omega) (by omega) (by omega)
    (usualTarget_bounds i.ps2LY) hs.usual
  have hd := axis_step 256000 i.deltaFilter (by omega) (by omega) (by omega)
    (deltaTarget_bounds i.ps2LX) hs.delta
  have hspec := motorControl_spec hs i
  dsimp only at hspec
  revert hspec
  -- from here on only the ranges of the two new axis values matter
  generalize limitStep s.prevUsual _ = usual at hu ⊢
  generalize limitStep s.prevDelta _ = delta at hd ⊢
  intro hspec
  have hua := abs_le.mp hu.2.2
  have hda := abs_le.mp hd.2.2
  have ha := clampSpeed_abs (by omega : (0 : ℤ) ≤ 320000) (usual + delta)
  have hb := clampSpeed_abs (by omega : (0 : ℤ) ≤ 256000) (usual - delta)
  have hstepA : |clampSpeed 320000 (usual + delta) - s.speeda| ≤ 6560 := by
    rw [hs.speeda]
    exact (clampSpeed_lipschitz (by omega) _ _).trans (abs_le.mpr (by omega))
  have hstepB : |clampSpeed 256000 (usual - delta) - s.speedb| ≤ 6560 := by
    rw [hs.speedb]
    exact (clampSpeed_lipschitz (by omega) _ _).trans (abs_le.mpr (by omega))
  have hca := abs_le.mp ha
  have hcb := abs_le.mp hb
  rw [hspec]
  refine ⟨⟨hu.2.1, hd.2.1, rfl, rfl, rfl, rfl, Or.inr ⟨rfl, rfl⟩, Or.inr ⟨rfl, rfl⟩⟩,
    ⟨hu.2.1, hd.2.1, hu.2.2, hd.2.2, ha, hb, ⟨?_, ?_⟩, ?_, hstepA, hstepB, ?_, ?_⟩⟩
  · dsimp only
    omega
  · dsimp only
    omega
  · intro channel period pulse h
    exact motorPwmSet_pulse ha hb h
  · intro hne
    rw [hs.aPulse]
    refine pulse_sum_of_reversal hstepA (reversal_cases hs.aPins ?_)
    rintro ⟨h1, h2⟩
    exact hne (Prod.ext h1 h2)
  · intro hne
    rw [hs.bPulse]
    refine pulse_sum_of_reversal hstepB (reversal_cases (hs.bPins.imp_right And.symm) ?_)
    rintro ⟨h1, h2⟩
    exact hne (Prod.ext h2 h1)

/-- Every iteration of every run from the entry of the loop stays in the
envelope, whatever the sticks and whatever the filter yields in between. -/
theorem motorControl_envelope (samples : List Sample) :
    Always motorControl (fun s i => Envelope s (motorControl s i)) State.initial samples :=
  always_of_invariant (P := Inv) motorControl (fun _ i hs => (motorControl_step hs i).1)
    (fun _ i hs => (motorControl_step hs i).2) inv_initial samples

end ExpertCar.MotorControl
