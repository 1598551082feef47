import ExpertCar.PwmDriver
import ExpertCar.ServoTravel
import ExpertCar.MotorControl

/-!
# The signals on the motor and servo pins

The motors share the timer of `pwm1`, the servos that of `pwm8`. Setting one
channel rewrites the prescaler and the reload value of both; since each pair of
channels asks for one period, the other channel keeps its signal. What the loops
last asked of a channel is therefore what its pin shows, up to the resolution of
the prescaled clock. But every request restarts the counter with a high phase, so
this is the signal until the next one, and only a counter left alone completes a cycle.
-/
namespace ExpertCar.PwmSignals
open StepRuns PwmDriver

/-! ### One channel of a shared timer -/

/-- The channel's registers are those of a request for `period` and `pulse`. -/
structure Signal (pclk2 : Word) (period : Word) (channel : ℤ) (pulse : Word) (t : Timer) :
    Prop where
  psc : t.psc.toNat + 1 = prescale (period.toNat * clock pclk2 / 1000)
  arr : t.arr.toNat + 1 = periodCount (period.toNat * clock pclk2 / 1000)
  ccr : (t.ccr (compareOf (halChannel (BitVec.ofInt 32 channel)))).toNat + 1 =
    pulseCount (clock pclk2) (prescale (period.toNat * clock pclk2 / 1000))
      (periodCount (period.toNat * clock pclk2 / 1000)) pulse
  cnt : t.cnt = 0

section Shared
variable {pclk2 : Word} {period pulse pulse' : Word} {channel channel' : ℤ} {t : Timer}

theorem signal_rtPwmSet (h : clock pclk2 < 1000) :
    Signal pclk2 period channel pulse (rtPwmSet pclk2 channel period pulse t) :=
  ⟨drvPwmSet_psc _ _ h, drvPwmSet_arr _ _ h,
    drvPwmSet_ccr ⟨BitVec.ofInt 32 channel, period, pulse, false⟩ t h, rfl⟩

/-- A request with the same period leaves the other channel as it was. -/
theorem Signal.rtPwmSet (hs : Signal pclk2 period channel pulse t) (h : clock pclk2 < 1000)
    (hne : compareOf (halChannel (BitVec.ofInt 32 channel)) ≠
      compareOf (halChannel (BitVec.ofInt 32 channel'))) :
    Signal pclk2 period channel pulse (rtPwmSet pclk2 channel' period pulse' t) := by
  refine ⟨drvPwmSet_psc _ _ h, drvPwmSet_arr _ _ h, ?_, rfl⟩
  have hframe : (PwmDriver.rtPwmSet pclk2 channel' period pulse' t).ccr
      (compareOf (halChannel (BitVec.ofInt 32 channel))) = t.ccr _ :=
    drvPwmSet_frame ⟨BitVec.ofInt 32 channel', period, pulse', false⟩ t hne
  rw [hframe]
  exact hs.ccr

/-- The compare value of a pulse within the period: less than two prescaled
clocks short of the pulse, except that it is never zero. -/
theorem Signal.width (hs : Signal pclk2 period channel pulse t) (h : clock pclk2 < 1000)
    (hle : pulse ≤ period) :
    let ccr := (t.ccr (compareOf (halChannel (BitVec.ofInt 32 channel)))).toNat
    let psc := t.psc.toNat + 1
    1 ≤ ccr ∧ ccr ≤ t.arr.toNat ∧
      pulse.toNat * clock pclk2 < (ccr + 2) * psc * 1000 ∧
      (ccr = 1 ∨ (ccr + 1) * psc * 1000 ≤ pulse.toNat * clock pclk2) := by
  intro ccr psc
  have hccr : ccr + 1 = _ := hs.ccr
  have hpsc : psc = _ := hs.psc
  have harr := hs.arr
  have hbounds := pulseCount_bounds (clock pclk2) psc _ pulse
    (le_trans (by omega) (periodCount_bounds (period.toNat * clock pclk2 / 1000)).1)
  have hcount : pulse.toNat * clock pclk2 / 1000 / psc ≤
      periodCount (period.toNat * clock pclk2 / 1000) := by
    refine le_trans ?_ (le_periodCount _)
    rw [hpsc]
    exact Nat.div_le_div_right (Nat.div_le_div_right (Nat.mul_le_mul_right _ hle))
  rw [← hpsc] at hccr
  have hlast := hccr
  rw [pulseCount_eq _ _ h] at hlast
  have hpos : 0 < psc := Nat.succ_pos _
  have hmod := Nat.div_add_mod (pulse.toNat * clock pclk2 / 1000) psc
  have hrem := Nat.mod_lt (pulse.toNat * clock pclk2 / 1000) hpos
  rw [Nat.mul_comm] at hmod
  refine ⟨by omega, by omega, ?_, ?_⟩
  · have hup : pulse.toNat * clock pclk2 / 1000 / psc ≤ ccr + 1 := by
      split_ifs at hlast <;> omega
    have hscale := Nat.mul_le_mul_right psc hup
    have hsum : (ccr + 2) * psc = (ccr + 1) * psc + psc := Nat.succ_mul (ccr + 1) psc
    omega
  · by_cases hsmall : pulse.toNat * clock pclk2 / 1000 / psc < 2
    · rw [if_pos hsmall] at hlast
      exact Or.inl (by omega)
    · rw [if_neg hsmall, if_neg (Nat.not_lt.mpr hcount)] at hlast
      rw [hlast]
      exact Or.inr (by omega)

end Shared

/-- The output of a channel so many clocks after the last request: the counter runs up to
the reload value and starts over, and in PWM mode 1 the pin is high below the compare value. -/
def pin (t : Timer) (c : Compare) (clocks : ℕ) : Bool :=
  decide ((t.cnt.toNat + clocks / (t.psc.toNat + 1)) % (t.arr.toNat + 1) < (t.ccr c).toNat)

/-- Clocks of a cycle of the counter that runs to its end, and how many of them a channel
is high. -/
def cycle (t : Timer) : ℕ := (t.psc.toNat + 1) * (t.arr.toNat + 1)

def high (t : Timer) (c : Compare) : ℕ := (t.ccr c).toNat * (t.psc.toNat + 1)

/-- Until the next request the pin repeats one cycle. -/
theorem pin_iff {t : Timer} (h : t.cnt = 0) (c : Compare) (clocks : ℕ) :
    pin t c clocks = true ↔ clocks % cycle t < high t c := by
  have hzero : t.cnt.toNat = 0 := congrArg BitVec.toNat h
  have hphase : clocks % (t.psc.toNat + 1) < t.psc.toNat + 1 := Nat.mod_lt _ (Nat.succ_pos _)
  rw [pin, decide_eq_true_iff, hzero, Nat.zero_add, cycle, high, Nat.mod_mul]
  generalize clocks / (t.psc.toNat + 1) % (t.arr.toNat + 1) = count
  constructor
  · intro hlt
    have hle : (count + 1) * (t.psc.toNat + 1) ≤ (t.ccr c).toNat * (t.psc.toNat + 1) :=
      Nat.mul_le_mul_right _ hlt
    rw [Nat.succ_mul, Nat.mul_comm] at hle
    omega
  · intro hlt
    rw [Nat.mul_comm (t.psc.toNat + 1) count] at hlt
    exact Nat.lt_of_mul_lt_mul_right (lt_of_le_of_lt (Nat.le_add_left _ _) hlt)

/-! ### The motors -/

def channelNumber : MotorControl.Channel → ℤ
  | .pwma => 1
  | .pwmb => 2

/-- What a driver call of the motor loop does to the timer of `pwm1`. -/
def call (t : Timer) : MotorControl.HwCall → Timer
  | .rtPinWrite _ _ => t
  | .rtPwmSet channel period pulse =>
      rtPwmSet halRccGetPclk2Freq (channelNumber channel) (BitVec.ofNat 32 period)
        (BitVec.ofNat 32 pulse) t

/-- `pwm_init` of `motor.c`. -/
def motorPwmInit (t : Timer) : Timer :=
  let t := call t (.rtPwmSet .pwma MotorControl.aPeriod 0)
  let t := call t (.rtPwmSet .pwmb MotorControl.bPeriod 0)
  rtPwmEnable 2 (rtPwmEnable 1 t)

/-- One iteration of `motor_control` with the timer behind its calls. -/
def motorStep (st : MotorControl.State × Timer) (i : MotorControl.Sample) :
    MotorControl.State × Timer :=
  let s := MotorControl.motorControl st.1 i
  (s, (MotorControl.motorPwmSet s.speeda s.speedb).foldl call st.2)

/-- The timer shows the two pulses of the bridges, and both channels are on. -/
structure Shows (d : MotorControl.Drive) (t : Timer) : Prop where
  a : Signal halRccGetPclk2Freq 320000 1 (BitVec.ofNat 32 d.aPulse) t
  b : Signal halRccGetPclk2Freq 320000 2 (BitVec.ofNat 32 d.bPulse) t
  outputs : t.drives 1 = true ∧ t.drives 2 = true

theorem clock_lt : clock halRccGetPclk2Freq < 1000 := by decide

theorem Shows.call {d : MotorControl.Drive} {t : Timer} (h : Shows d t)
    {c : MotorControl.HwCall}
    (hc : ∀ channel period pulse, c = .rtPwmSet channel period pulse → period = 320000) :
    Shows (d.apply c) (call t c) := by
  cases c with
  | rtPinWrite pin level => cases pin <;> exact ⟨h.a, h.b, h.outputs⟩
  | rtPwmSet channel period pulse =>
      obtain rfl := hc channel period pulse rfl
      cases channel with
      | pwma => exact ⟨signal_rtPwmSet clock_lt, h.b.rtPwmSet clock_lt (by decide), h.outputs⟩
      | pwmb => exact ⟨h.a.rtPwmSet clock_lt (by decide), signal_rtPwmSet clock_lt, h.outputs⟩

theorem Shows.calls {d : MotorControl.Drive} {t : Timer} (h : Shows d t)
    (cs : List MotorControl.HwCall)
    (hcs : ∀ channel period pulse, .rtPwmSet channel period pulse ∈ cs → period = 320000) :
    Shows (cs.foldl MotorControl.Drive.apply d) (cs.foldl PwmSignals.call t) := by
  induction cs generalizing d t with
  | nil => exact h
  | cons c cs ih =>
      refine ih (h.call ?_) fun channel period pulse hmem =>
        hcs channel period pulse (List.mem_cons_of_mem c hmem)
      rintro channel period pulse rfl
      exact hcs channel period pulse List.mem_cons_self

theorem motorPwmSet_period (motor1 motor2 : ℤ) (channel : MotorControl.Channel)
    (period pulse : ℕ)
    (h : MotorControl.HwCall.rtPwmSet channel period pulse ∈
      MotorControl.motorPwmSet motor1 motor2) : period = 320000 := by
  simp only [MotorControl.motorPwmSet, MotorControl.aMotorBackward, MotorControl.aMotorForward,
    MotorControl.bMotorBackward, MotorControl.bMotorForward, MotorControl.pwmAmotorSet,
    MotorControl.pwmBmotorSet, MotorControl.aPeriod, MotorControl.bPeriod] at h
  split_ifs at h <;> simp at h <;> omega

theorem drives_enabled (t : Timer) :
    (rtPwmEnable 2 (rtPwmEnable 1 t)).drives 1 = true ∧
      (rtPwmEnable 2 (rtPwmEnable 1 t)).drives 2 = true := by
  have h2 := getLsbD_ccxChannelCmd 1 (by omega) (halChannel (channelOf 2).channel) (by decide) true
    (rtPwmEnable 1 t).ccer
  have h1 := getLsbD_ccxChannelCmd 0 (by omega) (halChannel (channelOf 1).channel) (by decide) true
    t.ccer 0 (by omega)
  constructor
  · exact (h2 0 (by omega)).trans h1
  · exact h2 4 (by omega)

theorem shows_motorPwmInit (t : Timer) :
    Shows MotorControl.State.initial.drive (motorPwmInit t) := by
  refine ⟨?_, ?_, drives_enabled _⟩
  · have h : Signal halRccGetPclk2Freq 320000 1 0
        (rtPwmSet halRccGetPclk2Freq 2 320000 0 (rtPwmSet halRccGetPclk2Freq 1 320000 0 t)) :=
      (signal_rtPwmSet clock_lt).rtPwmSet clock_lt (by decide)
    exact ⟨h.psc, h.arr, h.ccr, h.cnt⟩
  · have h : Signal halRccGetPclk2Freq 320000 2 0
        (rtPwmSet halRccGetPclk2Freq 2 320000 0 (rtPwmSet halRccGetPclk2Freq 1 320000 0 t)) :=
      signal_rtPwmSet clock_lt
    exact ⟨h.psc, h.arr, h.ccr, h.cnt⟩

/-- The timer simulates the bridges of the motor loop. -/
theorem shows_run (t : Timer) (samples : List MotorControl.Sample) :
    let st := run motorStep (MotorControl.State.initial, motorPwmInit t) samples
    MotorControl.Inv st.1 ∧ Shows st.1.drive st.2 := by
  refine run_invariant (P := fun st => MotorControl.Inv st.1 ∧ Shows st.1.drive st.2) motorStep
    ?_ ⟨MotorControl.inv_initial, shows_motorPwmInit t⟩ samples
  intro st i h
  exact ⟨(MotorControl.motorControl_step h.1 i).1, h.2.calls _ (motorPwmSet_period _ _)⟩

/-- A pulse at most as long as the motors' period, in the clocks of their timer. -/
theorem Signal.motor {channel : ℤ} {pulse : ℕ} {t : Timer}
    (hs : Signal halRccGetPclk2Freq 320000 channel (BitVec.ofNat 32 pulse) t)
    (hle : pulse ≤ 320000) :
    let c := compareOf (halChannel (BitVec.ofInt 32 channel))
    cycle t = 108800 ∧ 2 ≤ high t c ∧ high t c < cycle t ∧ 17 * pulse < 50 * high t c + 200 ∧
      (high t c = 2 ∨ 50 * high t c + 100 ≤ 17 * pulse) := by
  have hpulse : (BitVec.ofNat 32 pulse).toNat = pulse := by
    rw [BitVec.toNat_ofNat, Nat.mod_eq_of_lt (by omega)]
  have hwidth := hs.width clock_lt (show (BitVec.ofNat 32 pulse).toNat ≤ 320000 by omega)
  have hpsc : t.psc.toNat + 1 = 2 := hs.psc
  have harr : t.arr.toNat + 1 = 54400 := hs.arr
  have hclock : clock halRccGetPclk2Freq = 340 := by decide
  dsimp only at hwidth ⊢
  rw [hpulse, hpsc, hclock] at hwidth
  unfold cycle high
  rw [hpsc, harr]
  omega

/-- In every run of the motor loop, and until its next request, both wheels' pins repeat a
cycle of one length: each is high first, within four clocks of its command's share of the
cycle, and then low. -/
theorem motor_signals (t₀ : Timer) (samples : List MotorControl.Sample) :
    let st := run motorStep (MotorControl.State.initial, motorPwmInit t₀) samples
    let t := st.2
    cycle t = 108800 ∧ t.drives 1 = true ∧ t.drives 2 = true ∧
      ∀ speed c, (speed, c) = (st.1.speeda, Compare.ccr1) ∨ (speed, c) = (st.1.speedb, .ccr2) →
        (∀ clocks, pin t c clocks = true ↔ clocks % cycle t < high t c) ∧
        2 ≤ high t c ∧ high t c < cycle t ∧ 17 * speed.natAbs < 50 * high t c + 200 ∧
          (high t c = 2 ∨ 50 * high t c + 100 ≤ 17 * speed.natAbs) := by
  intro st t
  obtain ⟨hinv, hshows⟩ := shows_run t₀ samples
  have ha := MotorControl.clampSpeed_abs (by omega : (0 : ℤ) ≤ 320000)
    (st.1.prevUsual + st.1.prevDelta)
  have hb := MotorControl.clampSpeed_abs (by omega : (0 : ℤ) ≤ 256000)
    (st.1.prevUsual - st.1.prevDelta)
  rw [← hinv.speeda, abs_le] at ha
  rw [← hinv.speedb, abs_le] at hb
  have hA := hshows.a
  have hB := hshows.b
  rw [hinv.aPulse] at hA
  rw [hinv.bPulse] at hB
  have hsa := hA.motor (by omega)
  have hsb := hB.motor (by omega)
  refine ⟨hsa.1, hshows.outputs.1, hshows.outputs.2, ?_⟩
  rintro speed c (h | h)
  · obtain ⟨rfl, rfl⟩ := Prod.mk.inj h
    exact ⟨pin_iff hA.cnt _, hsa.2⟩
  · obtain ⟨rfl, rfl⟩ := Prod.mk.inj h
    exact ⟨pin_iff hB.cnt _, hsb.2⟩

/-! ### The servos -/

/-- The calls one iteration of `duoji_handle` makes. -/
def duojiCalls (s : ServoControl.State) (r : ServoControl.Reads) : List (ℤ × Word) :=
  let s := ServoControl.recentre r.ps2KEY (ServoControl.hold s)
  if r.ps2RXTest ≠ 63 ∧ s.ps2Flag = 0 then
    let s := ServoControl.followStick r s
    [(3, s.duoji1Pulse), (4, s.duoji2Pulse)]
  else []

def servoSet (t : Timer) (c : ℤ × Word) : Timer :=
  rtPwmSet halRccGetPclk2Freq c.1 ServoControl.period c.2 t

/-- `pwm_init` of `duoji.c`. -/
def duojiPwmInit (t : Timer) : Timer :=
  rtPwmEnable 4 (rtPwmEnable 3 (servoSet (servoSet t (3, 750000)) (4, 750000)))

def duojiStep (st : ServoControl.State × Timer) (r : ServoControl.Reads) :
    ServoControl.State × Timer :=
  (ServoControl.duojiHandle st.1 r, (duojiCalls st.1 r).foldl servoSet st.2)

/-- The timer shows the pulses last passed to the device, and these are in the travel. -/
structure Holds (s : ServoControl.State) (t : Timer) : Prop where
  servo1 : Signal halRccGetPclk2Freq ServoControl.period 3 s.pwm1 t
  servo2 : Signal halRccGetPclk2Freq ServoControl.period 4 s.pwm2 t
  travel1 : ServoTravel.InTravel s.pwm1
  travel2 : ServoTravel.InTravel s.pwm2
  outputs : t.drives 3 = true ∧ t.drives 4 = true

theorem servoSet_signals (t : Timer) (pulse1 pulse2 : Word) :
    Signal halRccGetPclk2Freq ServoControl.period 3 pulse1
        (servoSet (servoSet t (3, pulse1)) (4, pulse2)) ∧
      Signal halRccGetPclk2Freq ServoControl.period 4 pulse2
        (servoSet (servoSet t (3, pulse1)) (4, pulse2)) := by
  have h1 : Signal halRccGetPclk2Freq ServoControl.period 3 pulse1 (servoSet t (3, pulse1)) :=
    signal_rtPwmSet clock_lt
  have hne : compareOf (halChannel (BitVec.ofInt 32 3)) ≠
      compareOf (halChannel (BitVec.ofInt 32 4)) := by decide
  exact ⟨h1.rtPwmSet clock_lt hne, signal_rtPwmSet clock_lt⟩

theorem holds_duojiPwmInit (t : Timer) : Holds ServoControl.State.initial (duojiPwmInit t) := by
  obtain ⟨h1, h2⟩ := servoSet_signals t 750000 750000
  have htravel := ServoTravel.presets_inTravel.1
  generalize hset : servoSet (servoSet t (3, 750000)) (4, 750000) = set at h1 h2
  have hbit3 := getLsbD_ccxChannelCmd 2 (by omega) (halChannel (channelOf 3).channel) (by decide)
    true set.ccer 8 (by omega)
  have hbits := getLsbD_ccxChannelCmd 3 (by omega) (halChannel (channelOf 4).channel) (by decide)
    true (rtPwmEnable 3 set).ccer
  unfold duojiPwmInit
  rw [hset]
  exact ⟨⟨h1.psc, h1.arr, h1.ccr, h1.cnt⟩, ⟨h2.psc, h2.arr, h2.ccr, h2.cnt⟩, htravel, htravel,
    (hbits 8 (by omega)).trans hbit3, hbits 12 (by omega)⟩

theorem Holds.step {s : ServoControl.State} {t : Timer} (h : Holds s t)
    (hinv : ServoTravel.Inv s) (r : ServoControl.Reads) :
    Holds (duojiStep (s, t) r).1 (duojiStep (s, t) r).2 := by
  have hnext := (hinv.iteration r).2
  have hkeep : (ServoControl.recentre r.ps2KEY (ServoControl.hold s)).pwm1 = s.pwm1 ∧
      (ServoControl.recentre r.ps2KEY (ServoControl.hold s)).pwm2 = s.pwm2 := by
    unfold ServoControl.recentre ServoControl.hold
    split_ifs <;> exact ⟨rfl, rfl⟩
  revert hnext
  simp only [duojiStep, ServoControl.duojiHandle, duojiCalls]
  generalize ServoControl.recentre r.ps2KEY (ServoControl.hold s) = s' at hkeep
  intro hnext
  by_cases hfollow : r.ps2RXTest ≠ 63 ∧ s'.ps2Flag = 0
  · rw [if_pos hfollow] at hnext ⊢
    rw [if_pos hfollow]
    obtain ⟨h1, h2⟩ := servoSet_signals t (ServoControl.followStick r s').duoji1Pulse
      (ServoControl.followStick r s').duoji2Pulse
    exact ⟨h1, h2, hnext.pulse1, hnext.pulse2, h.outputs⟩
  · rw [if_neg hfollow, if_neg hfollow]
    refine ⟨?_, ?_, ?_, ?_, h.outputs⟩
    · exact hkeep.1.symm ▸ h.servo1
    · exact hkeep.2.symm ▸ h.servo2
    · exact hkeep.1.symm ▸ h.travel1
    · exact hkeep.2.symm ▸ h.travel2

theorem holds_run (t : Timer) (reads : List ServoControl.Reads) :
    let st := run duojiStep (ServoControl.State.initial, duojiPwmInit t) reads
    ServoTravel.Inv st.1 ∧ Holds st.1 st.2 := by
  refine run_invariant (P := fun st => ServoTravel.Inv st.1 ∧ Holds st.1 st.2) duojiStep
    ?_ ⟨ServoTravel.inv_initial, holds_duojiPwmInit t⟩ reads
  intro st r h
  exact ⟨(h.1.iteration r).2, h.2.step h.1 r⟩

/-- A pulse in the travel, in the clocks of the servos' timer. -/
theorem Signal.servo {channel : ℤ} {pulse : Word} {t : Timer}
    (hs : Signal halRccGetPclk2Freq ServoControl.period channel pulse t)
    (htravel : ServoTravel.InTravel pulse) :
    let c := compareOf (halChannel (BitVec.ofInt 32 channel))
    cycle t = 3399968 ∧ 110448 ≤ high t c ∧ high t c ≤ 424944 ∧
      1000 * high t c + 52000 ≤ 340 * pulse.toNat ∧
      340 * pulse.toNat < 1000 * high t c + 104000 := by
  obtain ⟨hlo, hhi⟩ := htravel
  have hwidth := hs.width clock_lt (le_of_lt (hhi.trans (by decide)))
  have hpsc : t.psc.toNat + 1 = 52 := hs.psc
  have harr : t.arr.toNat + 1 = 65384 := hs.arr
  have hclock : clock halRccGetPclk2Freq = 340 := by decide
  dsimp only at hwidth ⊢
  rw [hpsc, hclock] at hwidth
  unfold cycle high
  rw [hpsc, harr]
  omega

/-- In every run of the servo loop, and until its next request, each servo's pin repeats a
cycle that starts with the pulse last passed to the device, short of it by at most two
prescaled clocks and always between the same two widths. -/
theorem servo_signals (t₀ : Timer) (reads : List ServoControl.Reads) :
    let st := run duojiStep (ServoControl.State.initial, duojiPwmInit t₀) reads
    let t := st.2
    cycle t = 3399968 ∧ t.drives 3 = true ∧ t.drives 4 = true ∧
      ∀ pulse c, (pulse, c) = (st.1.pwm1, Compare.ccr3) ∨ (pulse, c) = (st.1.pwm2, .ccr4) →
        (∀ clocks, pin t c clocks = true ↔ clocks % cycle t < high t c) ∧
        110448 ≤ high t c ∧ high t c ≤ 424944 ∧ 1000 * high t c + 52000 ≤ 340 * pulse.toNat ∧
          340 * pulse.toNat < 1000 * high t c + 104000 := by
  intro st t
  obtain ⟨_, hholds⟩ := holds_run t₀ reads
  have hs1 := hholds.servo1.servo hholds.travel1
  have hs2 := hholds.servo2.servo hholds.travel2
  refine ⟨hs1.1, hholds.outputs.1, hholds.outputs.2, ?_⟩
  rintro pulse c (h | h)
  · obtain ⟨rfl, rfl⟩ := Prod.mk.inj h
    exact ⟨pin_iff hholds.servo1.cnt _, hs1.2⟩
  · obtain ⟨rfl, rfl⟩ := Prod.mk.inj h
    exact ⟨pin_iff hholds.servo2.cnt _, hs2.2⟩

end ExpertCar.PwmSignals
