import ExpertCar.MachineWords
import ExpertCar.StepRuns
import Mathlib.Logic.Function.Basic
import Mathlib.Tactic.IntervalCases
import Mathlib.Tactic.Linarith

/-!
# The PWM driver

`drv_pwm.c` over the registers of an advanced timer, and the device calls of
`rt_drv_pwm.c` on top of it. Requests are in nanoseconds; the driver turns them
into a prescaler, a reload value and a compare value. The products of
`drv_pwm_set` are 64-bit and never wrap, those of `drv_pwm_get` are 32-bit and
can. Registers hold what is written to them.
-/
namespace ExpertCar.PwmDriver
open StepRuns

inductive Compare where
  | ccr1 | ccr2 | ccr3 | ccr4 | ccr5 | ccr6
  deriving DecidableEq, Repr

/-- `CKD` of the first control register. -/
inductive ClockDivision where
  | div1 | div2 | div4
  deriving DecidableEq, Repr

structure Timer where
  psc : Word
  arr : Word
  cnt : Word
  ccr : Compare → Word
  ccer : Word
  moe : Bool
  cen : Bool
  ckd : ClockDivision

/-- `complementary` is filled in by the device layer and read by no function of the driver. -/
structure Configuration where
  channel : Word
  period : Word
  pulse : Word
  complementary : Bool
  deriving DecidableEq, Repr

def maxPeriod : ℕ := 65535
def minPeriod : ℕ := 3
def minPulse : ℕ := 2

/-- `0x04 * (configuration->channel - 1)` -/
def halChannel (channel : Word) : Word := 4 * (channel - 1)

/-- The register `__HAL_TIM_SET_COMPARE` and `__HAL_TIM_GET_COMPARE` choose. -/
def compareOf (channel : Word) : Compare :=
  if channel = 0x00 then .ccr1 else if channel = 0x04 then .ccr2
  else if channel = 0x08 then .ccr3 else if channel = 0x0C then .ccr4
  else if channel = 0x10 then .ccr5 else .ccr6

/-- `HAL_RCC_GetPCLK2Freq() * 2`, the branch of `TIM1` and `TIM8`. -/
def timClock (pclk2 : Word) : ℕ := (pclk2 * 2).toNat

/-- `/= 1000000UL`: clocks for each microsecond. -/
def clocksPerMicro (timClock : ℕ) : ℕ := timClock / 1000000

/-! ### The conversions of `drv_pwm_set` -/

/-- `period = (unsigned long long)configuration->period * tim_clock / 1000ULL` -/
def periodClocks (clk : ℕ) (period : Word) : ℕ := period.toNat * clk / 1000 % 2 ^ 32

/-- `psc = period / MAX_PERIOD + 1` -/
def prescale (clocks : ℕ) : ℕ := clocks / maxPeriod + 1

/-- `period = period / psc` and the lower bound of the reload value. -/
def periodCount (clocks : ℕ) : ℕ :=
  if clocks / prescale clocks < minPeriod then minPeriod else clocks / prescale clocks

/-- `pulse`, clamped between `MIN_PULSE` and the period. -/
def pulseCount (clk psc period : ℕ) (pulse : Word) : ℕ :=
  let count := pulse.toNat * clk / psc / 1000 % 2 ^ 32
  if count < minPulse then minPulse else if count > period then period else count

def drvPwmSet (pclk2 : Word) (configuration : Configuration) (t : Timer) : Timer :=
  let clk := clocksPerMicro (timClock pclk2)
  let clocks := periodClocks clk configuration.period
  let psc := prescale clocks
  let period := periodCount clocks
  let pulse := pulseCount clk psc period configuration.pulse
  { t with
    psc := BitVec.ofNat 32 (psc - 1)
    arr := BitVec.ofNat 32 (period - 1)
    ccr := Function.update t.ccr (compareOf (halChannel configuration.channel))
      (BitVec.ofNat 32 (pulse - 1))
    cnt := 0 }

def divided (ckd : ClockDivision) (timClock : ℕ) : ℕ :=
  match ckd with
  | .div1 => timClock
  | .div2 => timClock / 2
  | .div4 => timClock / 4

/-- The 32-bit product `(count + 1) * (PSC + 1) * 1000UL`, in clocks, over clocks
for each microsecond. -/
def nanos (clk : ℕ) (psc count : Word) : Word :=
  BitVec.ofNat 32 (((count + 1) * (psc + 1) * 1000).toNat / clk)

def drvPwmGet (pclk2 : Word) (configuration : Configuration) (t : Timer) : Configuration :=
  let clk := clocksPerMicro (divided t.ckd (timClock pclk2))
  { configuration with
    period := nanos clk t.psc t.arr
    pulse := nanos clk t.psc (t.ccr (compareOf (halChannel configuration.channel))) }

/-- `TIM_CCxChannelCmd`: the enable bit of the channel is cleared, then written. -/
def ccxChannelCmd (channel : Word) (enable : Bool) (ccer : Word) : Word :=
  (ccer &&& ~~~(1#32 <<< (channel &&& 0x1F).toNat)) |||
    ((if enable then 1#32 else 0#32) <<< (channel &&& 0x1F).toNat)

/-- `TIM_CCER_CCxE_MASK | TIM_CCER_CCxNE_MASK`; no function here sets a complementary bit. -/
def anyChannel (ccer : Word) : Bool := !(ccer &&& 0x5555 == 0)

def halTimPwmStart (channel : Word) (t : Timer) : Timer :=
  { t with ccer := ccxChannelCmd channel true t.ccer, moe := true, cen := true }

/-- The main output and the counter are stopped with the last channel. -/
def halTimPwmStop (channel : Word) (t : Timer) : Timer :=
  let ccer := ccxChannelCmd channel false t.ccer
  { t with ccer := ccer, moe := t.moe && anyChannel ccer, cen := t.cen && anyChannel ccer }

def drvPwmEnable (configuration : Configuration) (enable : Bool) (t : Timer) : Timer :=
  if enable then halTimPwmStart (halChannel configuration.channel) t
  else halTimPwmStop (halChannel configuration.channel) t

/-! ### The device calls -/

def rtPwmSet (pclk2 : Word) (channel : ℤ) (period pulse : Word) (t : Timer) : Timer :=
  drvPwmSet pclk2 ⟨BitVec.ofInt 32 channel, period, pulse, false⟩ t

def rtPwmGet (pclk2 : Word) (configuration : Configuration) (t : Timer) : Configuration :=
  drvPwmGet pclk2 configuration t

/-- Positive whatever the sign; a negative number asks for the complementary output. -/
def channelOf (channel : ℤ) : Configuration :=
  ⟨BitVec.ofInt 32 (if channel > 0 then channel else -channel), 0, 0, !decide (channel > 0)⟩

def rtPwmEnable (channel : ℤ) (t : Timer) : Timer := drvPwmEnable (channelOf channel) true t

def rtPwmDisable (channel : ℤ) (t : Timer) : Timer := drvPwmEnable (channelOf channel) false t

/-- `_pwm_write`: the settings of the channel are read back and set with a new pulse. -/
def pwmWrite (pclk2 : Word) (pos : Word) (pulse : Word) (t : Timer) : Timer :=
  let configuration := drvPwmGet pclk2 ⟨pos, 0, 0, false⟩ t
  drvPwmSet pclk2 { configuration with pulse := pulse } t

/-! ### What the conversions yield -/

section Conversions
variable (clk clocks psc period : ℕ)

theorem prescale_pos : 0 < prescale clocks := Nat.succ_pos _

theorem prescale_le (h : clocks < 65535 * 65536) : prescale clocks ≤ 65536 := by
  unfold prescale maxPeriod
  omega

/-- The count the prescaler leaves always fits the reload register. -/
theorem div_prescale_lt : clocks / prescale clocks < 65535 := by
  have h : clocks < prescale clocks * 65535 := by
    unfold prescale maxPeriod
    omega
  exact Nat.div_lt_of_lt_mul h

theorem periodCount_bounds : 3 ≤ periodCount clocks ∧ periodCount clocks < 65535 := by
  have h := div_prescale_lt clocks
  unfold periodCount minPeriod
  split <;> omega

theorem periodCount_eq (h : 3 ≤ clocks) : periodCount clocks = clocks / prescale clocks := by
  have hcount : 3 ≤ clocks / prescale clocks := by
    rw [Nat.le_div_iff_mul_le (prescale_pos clocks)]
    unfold prescale maxPeriod
    omega
  exact if_neg (by unfold minPeriod; omega)

theorem le_periodCount : clocks / prescale clocks ≤ periodCount clocks := by
  unfold periodCount minPeriod
  split <;> omega

theorem pulseCount_bounds (pulse : Word) (h : 2 ≤ period) :
    2 ≤ pulseCount clk psc period pulse ∧ pulseCount clk psc period pulse ≤ period := by
  unfold pulseCount minPulse
  dsimp only
  split_ifs <;> omega

variable {clk}

/-- Below a gigahertz no conversion of a request leaves 32 bits. -/
theorem periodClocks_eq (h : clk < 1000) (request : Word) :
    periodClocks clk request = request.toNat * clk / 1000 ∧
      request.toNat * clk / 1000 < 65535 * 65536 := by
  have hle : request.toNat * clk ≤ request.toNat * 999 := Nat.mul_le_mul_left _ (by omega)
  have hlt := request.isLt
  have hclocks : request.toNat * clk / 1000 < 65535 * 65536 := by omega
  exact ⟨Nat.mod_eq_of_lt (by omega), hclocks⟩

theorem pulseCount_eq (h : clk < 1000) (request : Word) :
    pulseCount clk psc period request =
      if request.toNat * clk / 1000 / psc < 2 then 2
      else if request.toNat * clk / 1000 / psc > period then period
      else request.toNat * clk / 1000 / psc := by
  have hclocks := (periodClocks_eq h request).2
  have hle : request.toNat * clk / 1000 / psc ≤ request.toNat * clk / 1000 := Nat.div_le_self _ _
  unfold pulseCount minPulse
  rw [Nat.div_right_comm, Nat.mod_eq_of_lt (by omega)]

end Conversions

/-! ### The registers after a request -/

/-- Clocks for each microsecond, as `drv_pwm_set` counts them. -/
abbrev clock (pclk2 : Word) : ℕ := clocksPerMicro (timClock pclk2)

section Registers
variable {pclk2 : Word} (configuration : Configuration) (t : Timer)

theorem toNat_pred {x : ℕ} (hx : 1 ≤ x) (hlt : x ≤ 65536) :
    (BitVec.ofNat 32 (x - 1)).toNat + 1 = x := by
  rw [BitVec.toNat_ofNat, Nat.mod_eq_of_lt (by omega)]
  omega

theorem drvPwmSet_psc (h : clock pclk2 < 1000) :
    (drvPwmSet pclk2 configuration t).psc.toNat + 1 =
      prescale (configuration.period.toNat * clock pclk2 / 1000) := by
  obtain ⟨hclocks, hlt⟩ := periodClocks_eq h configuration.period
  rw [← hclocks] at hlt ⊢
  exact toNat_pred (prescale_pos _) (prescale_le _ hlt)

theorem drvPwmSet_arr (h : clock pclk2 < 1000) :
    (drvPwmSet pclk2 configuration t).arr.toNat + 1 =
      periodCount (configuration.period.toNat * clock pclk2 / 1000) := by
  have hbounds := periodCount_bounds (configuration.period.toNat * clock pclk2 / 1000)
  rw [← (periodClocks_eq h configuration.period).1] at hbounds ⊢
  exact toNat_pred (le_trans (by omega) hbounds.1) (le_trans hbounds.2.le (by omega))

theorem drvPwmSet_ccr (h : clock pclk2 < 1000) :
    ((drvPwmSet pclk2 configuration t).ccr
        (compareOf (halChannel configuration.channel))).toNat + 1 =
      pulseCount (clock pclk2) (prescale (configuration.period.toNat * clock pclk2 / 1000))
        (periodCount (configuration.period.toNat * clock pclk2 / 1000)) configuration.pulse := by
  have hperiod := periodCount_bounds (configuration.period.toNat * clock pclk2 / 1000)
  have hpulse := pulseCount_bounds (clock pclk2)
    (prescale (configuration.period.toNat * clock pclk2 / 1000)) _ configuration.pulse
    (le_trans (by omega) hperiod.1)
  rw [← (periodClocks_eq h configuration.period).1] at hperiod hpulse ⊢
  simp only [drvPwmSet, Function.update_self]
  exact toNat_pred (le_trans (by omega) hpulse.1)
    (hpulse.2.trans (le_trans hperiod.2.le (by omega)))

theorem drvPwmSet_frame {c : Compare} (h : c ≠ compareOf (halChannel configuration.channel)) :
    (drvPwmSet pclk2 configuration t).ccr c = t.ccr c := Function.update_of_ne h _ _

end Registers

/-! ### Reading a request back -/

/-- What is read is at most what was asked, short of it by less than one
prescaled clock and one nanosecond. -/
def Close (clk psc : ℕ) (asked read : Word) : Prop :=
  read.toNat ≤ asked.toNat ∧ (asked.toNat - read.toNat) * clk < clk + 1000 * psc

/-- The reload value reads back within 32 bits: its length in clocks, times a thousand. -/
def Readable (clk : ℕ) (period : Word) : Prop :=
  let clocks := period.toNat * clk / 1000
  clocks / prescale clocks * prescale clocks * 1000 < 2 ^ 32

instance (clk : ℕ) (period : Word) : Decidable (Readable clk period) :=
  inferInstanceAs (Decidable (_ < _))

theorem nanos_toNat {clk psc count : ℕ} (hpsc : 1 ≤ psc ∧ psc ≤ 65536)
    (hcount : 1 ≤ count ∧ count ≤ 65536) :
    (nanos clk (BitVec.ofNat 32 (psc - 1)) (BitVec.ofNat 32 (count - 1))).toNat =
      count * psc * 1000 % 2 ^ 32 / clk := by
  have hx : ∀ x : ℕ, 1 ≤ x → BitVec.ofNat 32 (x - 1) + 1 = BitVec.ofNat 32 x := by
    intro x hx
    have h : BitVec.ofNat 32 (x - 1) + BitVec.ofNat 32 1 = BitVec.ofNat 32 (x - 1 + 1) :=
      (BitVec.ofNat_add _ _).symm
    rw [Nat.sub_add_cancel hx] at h
    exact h
  unfold nanos
  rw [hx psc hpsc.1, hx count hcount.1]
  have hle : count * psc * 1000 % 2 ^ 32 / clk ≤ count * psc * 1000 % 2 ^ 32 := Nat.div_le_self _ _
  have hlt : count * psc * 1000 % 2 ^ 32 < 2 ^ 32 := Nat.mod_lt _ (by norm_num)
  have hprod : (BitVec.ofNat 32 count * BitVec.ofNat 32 psc * 1000).toNat =
      count * psc * 1000 % 2 ^ 32 := by
    simp [BitVec.toNat_mul, Nat.mul_mod]
  rw [BitVec.toNat_ofNat, hprod, Nat.mod_eq_of_lt (by omega)]

/-- A request cut to whole prescaled clocks reads back close to itself exactly
when the 32-bit product does not wrap. -/
theorem close_iff {clk psc : ℕ} (hclk : 1 ≤ clk ∧ clk < 1000) (hpsc : 1 ≤ psc ∧ psc ≤ 65536)
    (asked read : Word)
    (hread : read.toNat = asked.toNat * clk / 1000 / psc * psc * 1000 % 2 ^ 32 / clk) :
    Close clk psc asked read ↔ asked.toNat * clk / 1000 / psc * psc * 1000 < 2 ^ 32 := by
  have hmod := Nat.div_add_mod (asked.toNat * clk / 1000) psc
  have hrem : asked.toNat * clk / 1000 % psc < psc := Nat.mod_lt _ (by omega)
  have hclocks : asked.toNat * clk / 1000 * 1000 ≤ asked.toNat * clk ∧
      asked.toNat * clk < asked.toNat * clk / 1000 * 1000 + 1000 := by omega
  have hdiv := Nat.div_add_mod (asked.toNat * clk / 1000 / psc * psc * 1000 % 2 ^ 32) clk
  have hrest : asked.toNat * clk / 1000 / psc * psc * 1000 % 2 ^ 32 % clk < clk :=
    Nat.mod_lt _ (by omega)
  rw [← hread] at hdiv
  unfold Close
  rw [Nat.sub_mul]
  rw [Nat.mul_comm psc] at hmod
  rw [Nat.mul_comm clk] at hdiv
  generalize asked.toNat * clk / 1000 / psc * psc = cut at *
  constructor
  · rintro ⟨_, hshort⟩
    by_contra hwrap
    -- the product loses at least 2^32, more than any prescaled clock is worth
    have hlost : cut * 1000 % 2 ^ 32 + 2 ^ 32 ≤ cut * 1000 := by omega
    omega
  · intro hfit
    rw [Nat.mod_eq_of_lt hfit] at hdiv hrest
    have hle : read.toNat * clk ≤ asked.toNat * clk := by omega
    exact ⟨Nat.le_of_mul_le_mul_right hle (by omega), by omega⟩

section ReadBack
variable {pclk2 : Word} (hclk : 1 ≤ clock pclk2 ∧ clock pclk2 < 1000)
include hclk

theorem get_period (configuration c : Configuration) {t : Timer} (hckd : t.ckd = .div1)
    (hmin : 3 ≤ configuration.period.toNat * clock pclk2 / 1000) :
    let clocks := configuration.period.toNat * clock pclk2 / 1000
    (drvPwmGet pclk2 c (drvPwmSet pclk2 configuration t)).period.toNat =
      clocks / prescale clocks * prescale clocks * 1000 % 2 ^ 32 / clock pclk2 := by
  intro clocks
  obtain ⟨hclocks, hlt⟩ := periodClocks_eq hclk.2 configuration.period
  have hbounds := periodCount_bounds clocks
  have hdiv : (drvPwmSet pclk2 configuration t).ckd = .div1 := hckd
  simp only [drvPwmGet, hdiv, divided]
  simp only [drvPwmSet, hclocks]
  rw [nanos_toNat ⟨prescale_pos _, prescale_le _ hlt⟩
    ⟨le_trans (by omega) hbounds.1, le_trans hbounds.2.le (by omega)⟩, periodCount_eq _ hmin]

theorem get_pulse (configuration c : Configuration) (hc : c.channel = configuration.channel)
    {t : Timer} (hckd : t.ckd = .div1) (hle : configuration.pulse ≤ configuration.period)
    (hmin : 2 ≤ configuration.pulse.toNat * clock pclk2 / 1000 /
      prescale (configuration.period.toNat * clock pclk2 / 1000)) :
    let psc := prescale (configuration.period.toNat * clock pclk2 / 1000)
    (drvPwmGet pclk2 c (drvPwmSet pclk2 configuration t)).pulse.toNat =
      configuration.pulse.toNat * clock pclk2 / 1000 / psc * psc * 1000 % 2 ^ 32 /
        clock pclk2 := by
  intro psc
  obtain ⟨hclocks, hlt⟩ := periodClocks_eq hclk.2 configuration.period
  have hbounds := periodCount_bounds (configuration.period.toNat * clock pclk2 / 1000)
  have hcount : configuration.pulse.toNat * clock pclk2 / 1000 / psc ≤
      periodCount (configuration.period.toNat * clock pclk2 / 1000) := by
    have hmono : configuration.pulse.toNat * clock pclk2 / 1000 / psc ≤
        configuration.period.toNat * clock pclk2 / 1000 / psc :=
      Nat.div_le_div_right (Nat.div_le_div_right (Nat.mul_le_mul_right _ hle))
    exact hmono.trans (le_periodCount _)
  have hpulse : pulseCount (clock pclk2) psc
      (periodCount (configuration.period.toNat * clock pclk2 / 1000)) configuration.pulse =
      configuration.pulse.toNat * clock pclk2 / 1000 / psc := by
    rw [pulseCount_eq _ _ hclk.2, if_neg (Nat.not_lt.mpr hmin), if_neg (Nat.not_lt.mpr hcount)]
  have hdiv : (drvPwmSet pclk2 configuration t).ckd = .div1 := hckd
  simp only [drvPwmGet, hdiv, divided, hc]
  simp only [drvPwmSet, Function.update_self, hclocks]
  rw [hpulse, nanos_toNat ⟨prescale_pos _, prescale_le _ hlt⟩
    ⟨le_trans (by omega) hmin, hcount.trans (le_trans hbounds.2.le (by omega))⟩]

/-- A request of at least three clocks, with a pulse of at least two counts and
no longer than the period, reads back close to itself if and only if its length
in clocks, times a thousand, fits 32 bits. -/
theorem rtPwmGet_close_iff {channel : ℤ} {period pulse : Word} {t : Timer}
    (hckd : t.ckd = .div1) (hle : pulse ≤ period)
    (hmin : 2 ≤ pulse.toNat * clock pclk2 / 1000 / prescale (period.toNat * clock pclk2 / 1000))
    (hperiod : 3 ≤ period.toNat * clock pclk2 / 1000) :
    let psc := prescale (period.toNat * clock pclk2 / 1000)
    let read := rtPwmGet pclk2 ⟨BitVec.ofInt 32 channel, 0, 0, false⟩
      (rtPwmSet pclk2 channel period pulse t)
    (Close (clock pclk2) psc period read.period ∧ Close (clock pclk2) psc pulse read.pulse) ↔
      Readable (clock pclk2) period := by
  intro psc read
  have hpsc : 1 ≤ psc ∧ psc ≤ 65536 :=
    ⟨prescale_pos _, prescale_le _ (periodClocks_eq hclk.2 period).2⟩
  have hread := close_iff hclk hpsc period read.period
    (get_period hclk ⟨BitVec.ofInt 32 channel, period, pulse, false⟩
      ⟨BitVec.ofInt 32 channel, 0, 0, false⟩ hckd hperiod)
  have hshort := close_iff hclk hpsc pulse read.pulse
    (get_pulse hclk ⟨BitVec.ofInt 32 channel, period, pulse, false⟩
      ⟨BitVec.ofInt 32 channel, 0, 0, false⟩ rfl hckd hle hmin)
  constructor
  · intro h
    exact hread.mp h.1
  · intro h
    have hmono : pulse.toNat * clock pclk2 / 1000 / psc ≤ period.toNat * clock pclk2 / 1000 / psc :=
      Nat.div_le_div_right (Nat.div_le_div_right (Nat.mul_le_mul_right _ hle))
    have hcut : pulse.toNat * clock pclk2 / 1000 / psc * psc * 1000 ≤
        period.toNat * clock pclk2 / 1000 / psc * psc * 1000 :=
      Nat.mul_le_mul_right _ (Nat.mul_le_mul_right _ hmono)
    exact ⟨hread.mpr h, hshort.mpr (lt_of_le_of_lt hcut h)⟩

end ReadBack

/-- A timer after reset. -/
def Timer.reset : Timer := ⟨0, 0, 0, fun _ => 0, 0, false, false, .div1⟩

/-- The `PCLK2` that `SystemClock_Config` sets up: `16 MHz / 4 * 85 / 2`, undivided. -/
def halRccGetPclk2Freq : Word := 170000000

/-- Half a duty of the motors' period reads back. -/
theorem motor_period_reads_back :
    Close (clock halRccGetPclk2Freq) 2 320000 (rtPwmGet halRccGetPclk2Freq
      ⟨BitVec.ofInt 32 1, 0, 0, false⟩
      (rtPwmSet halRccGetPclk2Freq 1 320000 160000 Timer.reset)).period :=
  ((@rtPwmGet_close_iff halRccGetPclk2Freq (by decide) 1 320000 160000 Timer.reset rfl
    (by decide) (by decide) (by decide)).mpr (by decide)).1

/-! ### The outputs over a run of requests -/

inductive Request where
  | set (channel : ℤ) (period pulse : Word)
  | write (pos pulse : Word)
  | enable (channel : ℤ)
  | disable (channel : ℤ)
  deriving DecidableEq, Repr

def serve (pclk2 : Word) (t : Timer) : Request → Timer
  | .set channel period pulse => rtPwmSet pclk2 channel period pulse t
  | .write pos pulse => pwmWrite pclk2 pos pulse t
  | .enable channel => rtPwmEnable channel t
  | .disable channel => rtPwmDisable channel t

/-- The channels the timer has pins for, whichever output of theirs is meant. -/
def Request.HasPin : Request → Prop
  | .enable channel | .disable channel => 1 ≤ channel.natAbs ∧ channel.natAbs ≤ 4
  | _ => True

/-- Which channels a request leaves switched on. -/
def switch (on : ℕ → Bool) : Request → ℕ → Bool
  | .enable channel => Function.update on channel.natAbs true
  | .disable channel => Function.update on channel.natAbs false
  | _ => on

theorem getLsbD_ccxChannelCmd (k : ℕ) (hk : k < 8) (channel : Word) (h : channel.toNat = 4 * k)
    (enable : Bool) (ccer : Word) (i : ℕ) (hi : i < 32) :
    (ccxChannelCmd channel enable ccer).getLsbD i =
      if i = 4 * k then enable else ccer.getLsbD i := by
  have hshift : (channel &&& 0x1F).toNat = 4 * k := by
    rw [BitVec.toNat_and, h]
    change (4 * k) &&& (2 ^ 5 - 1) = 4 * k
    rw [Nat.and_two_pow_sub_one_eq_mod]
    omega
  unfold ccxChannelCmd
  rw [hshift]
  have hone : (1#32 <<< (4 * k)).getLsbD i = decide (i = 4 * k) := by
    rw [BitVec.getLsbD_shiftLeft, BitVec.getLsbD_one]
    by_cases hik : i = 4 * k
    · simp [hik, show 4 * k < 32 by omega]
    · simp [hik]
      omega
  have hwritten : ((if enable then 1#32 else 0#32) <<< (4 * k)).getLsbD i =
      (enable && decide (i = 4 * k)) := by
    cases enable
    · simp
    · exact hone
  rw [BitVec.getLsbD_or, BitVec.getLsbD_and, BitVec.getLsbD_not, hone, hwritten]
  by_cases hik : i = 4 * k <;> simp [hik, hi]

def anyOn (on : ℕ → Bool) : Bool := on 1 || on 2 || on 3 || on 4

/-- The enable bits are those of the channels switched on, and the main output
and the counter run as long as there is one. -/
structure Outputs (on : ℕ → Bool) (t : Timer) : Prop where
  bits : ∀ i < 32, t.ccer.getLsbD i = (decide (i % 4 = 0 ∧ i < 16) && on (i / 4 + 1))
  moe : t.moe = anyOn on
  cen : t.cen = anyOn on

theorem outputs_reset : Outputs (fun _ => false) Timer.reset :=
  ⟨fun i _ => by simp [Timer.reset], rfl, rfl⟩

theorem anyChannel_eq {on : ℕ → Bool} {ccer : Word}
    (h : ∀ i < 32, ccer.getLsbD i = (decide (i % 4 = 0 ∧ i < 16) && on (i / 4 + 1))) :
    anyChannel ccer = anyOn on := by
  have hmask : ∀ i < 32, (ccer &&& 0x5555).getLsbD i =
      (decide (i % 4 = 0 ∧ i < 16) && on (i / 4 + 1)) := by
    intro i hi
    have hin : ∀ j < 32, j % 4 = 0 ∧ j < 16 → (0x5555 : Word).getLsbD j = true := by decide
    rw [BitVec.getLsbD_and, h i hi]
    by_cases hc : i % 4 = 0 ∧ i < 16
    · rw [hin i hi hc, Bool.and_true]
    · simp [hc]
  have hzero : (ccer &&& 0x5555) = 0 ↔ anyOn on = false := by
    constructor
    · intro hz
      have hoff : ∀ i < 32, (decide (i % 4 = 0 ∧ i < 16) && on (i / 4 + 1)) = false := by
        intro i hi
        rw [← hmask i hi, hz]
        exact BitVec.getLsbD_zero
      have h1 := hoff 0 (by omega)
      have h2 := hoff 4 (by omega)
      have h3 := hoff 8 (by omega)
      have h4 := hoff 12 (by omega)
      simp_all [anyOn]
    · intro hoff
      apply BitVec.eq_of_getLsbD_eq
      intro i hi
      rw [hmask i hi]
      by_cases hc : i % 4 = 0 ∧ i < 16
      · have hk : i / 4 + 1 = 1 ∨ i / 4 + 1 = 2 ∨ i / 4 + 1 = 3 ∨ i / 4 + 1 = 4 := by omega
        simp only [anyOn, Bool.or_eq_false_iff] at hoff
        rcases hk with hk | hk | hk | hk <;> simp [hk, hoff]
      · simp [hc]
  change (!((ccer &&& 0x5555) == 0)) = anyOn on
  by_cases hz : (ccer &&& 0x5555) = 0
  · rw [hz, hzero.mp hz]
    rfl
  · have hon : anyOn on = true := Bool.eq_true_of_not_eq_false fun hoff => hz (hzero.mpr hoff)
    rw [hon, beq_eq_false_iff_ne.mpr hz]
    rfl

theorem halChannel_channelOf {channel : ℤ} (h : 1 ≤ channel.natAbs ∧ channel.natAbs ≤ 4) :
    (halChannel (channelOf channel).channel).toNat = 4 * (channel.natAbs - 1) := by
  have habs : (if channel > 0 then channel else -channel) = (channel.natAbs : ℤ) := by
    split <;> omega
  simp only [channelOf, habs]
  generalize channel.natAbs = k at h
  obtain ⟨h1, h4⟩ := h
  interval_cases k <;> decide

/-- Switching one channel writes its bit and no other. -/
theorem switched_bits {on : ℕ → Bool} {t : Timer} (h : Outputs on t) {channel : ℤ}
    (hc : 1 ≤ channel.natAbs ∧ channel.natAbs ≤ 4) (enable : Bool) :
    ∀ i < 32, (ccxChannelCmd (halChannel (channelOf channel).channel) enable t.ccer).getLsbD i =
      (decide (i % 4 = 0 ∧ i < 16) && Function.update on channel.natAbs enable (i / 4 + 1)) := by
  intro i hi
  rw [getLsbD_ccxChannelCmd (channel.natAbs - 1) (by omega) _ (halChannel_channelOf hc) _ _ _ hi,
    h.bits i hi]
  by_cases hik : i = 4 * (channel.natAbs - 1)
  · have hk : i / 4 + 1 = channel.natAbs := by omega
    have hin : i % 4 = 0 ∧ i < 16 := by omega
    rw [if_pos hik, hk, Function.update_self, decide_eq_true hin, Bool.true_and]
  · rw [if_neg hik]
    by_cases hk : i / 4 + 1 = channel.natAbs
    · have hout : ¬ (i % 4 = 0 ∧ i < 16) := by omega
      rw [decide_eq_false hout, Bool.false_and, Bool.false_and]
    · rw [Function.update_of_ne hk]

theorem Outputs.serve {on : ℕ → Bool} {t : Timer} (h : Outputs on t) (pclk2 : Word)
    {r : Request} (hr : r.HasPin) : Outputs (switch on r) (serve pclk2 t r) := by
  cases r with
  | set channel period pulse => exact ⟨h.bits, h.moe, h.cen⟩
  | write pos pulse => exact ⟨h.bits, h.moe, h.cen⟩
  | enable channel =>
      have hbits := switched_bits h hr true
      have hany : anyOn (Function.update on channel.natAbs true) = true := by
        obtain ⟨h1, h4⟩ := hr
        generalize channel.natAbs = k at h1 h4
        interval_cases k <;> simp [anyOn]
      exact ⟨hbits, hany.symm, hany.symm⟩
  | disable channel =>
      have hbits := switched_bits h hr false
      have hany := anyChannel_eq hbits
      -- nothing is switched on by a stop, so the output and the counter only fall
      have hle : anyOn (Function.update on channel.natAbs false) = true → anyOn on = true := by
        obtain ⟨h1, h4⟩ := hr
        generalize channel.natAbs = k at h1 h4
        interval_cases k <;> simp [anyOn] <;> tauto
      have hfall : (anyOn on && anyOn (Function.update on channel.natAbs false)) =
          anyOn (Function.update on channel.natAbs false) := by
        cases hoff : anyOn (Function.update on channel.natAbs false)
        · simp
        · simp [hle hoff]
      refine ⟨hbits, ?_, ?_⟩
      · change (t.moe && anyChannel _) = _
        rw [hany, h.moe]
        exact hfall
      · change (t.cen && anyChannel _) = _
        rw [hany, h.cen]
        exact hfall

/-- The pin of a channel follows its compare register. -/
def Timer.drives (t : Timer) (k : ℕ) : Bool := t.cen && t.moe && t.ccer.getLsbD (4 * (k - 1))

/-- After any requests a channel is driven if and only if the last switch that
named it, with either sign, switched it on; the counter runs while any channel is. -/
theorem outputs_run (pclk2 : Word) (requests : List Request) (h : ∀ r ∈ requests, r.HasPin) :
    let t := run (serve pclk2) Timer.reset requests
    let on := run switch (fun _ => false) requests
    (∀ k, 1 ≤ k → k ≤ 4 → t.drives k = on k) ∧
      t.cen = (t.drives 1 || t.drives 2 || t.drives 3 || t.drives 4) := by
  intro t on
  have hrun : ∀ (rs : List Request) (on : ℕ → Bool) (t : Timer), (∀ r ∈ rs, r.HasPin) →
      Outputs on t → Outputs (run switch on rs) (run (serve pclk2) t rs) := by
    intro rs
    induction rs with
    | nil => exact fun _ _ _ hinv => hinv
    | cons r rs ih =>
        intro on t hrs hinv
        exact ih _ _ (fun r' hr' => hrs r' (List.mem_cons_of_mem r hr'))
          (hinv.serve pclk2 (hrs r List.mem_cons_self))
  have hout := hrun requests _ _ h outputs_reset
  have hdrives : ∀ k, 1 ≤ k → k ≤ 4 → t.drives k = on k := by
    intro k h1 h4
    have hbit := hout.bits (4 * (k - 1)) (by omega)
    have hk : 4 * (k - 1) / 4 + 1 = k := by omega
    have hon : on k = true → anyOn on = true := by
      interval_cases k <;> simp +contextual [anyOn]
    unfold Timer.drives
    rw [hout.cen, hout.moe, hbit, hk]
    change (anyOn on && anyOn on && (decide _ && on k)) = on k
    cases hb : on k
    · simp
    · simp [hon hb, show 4 * (k - 1) < 16 by omega]
  refine ⟨hdrives, ?_⟩
  rw [hdrives 1 (by omega) (by omega), hdrives 2 (by omega) (by omega),
    hdrives 3 (by omega) (by omega), hdrives 4 (by omega) (by omega)]
  exact hout.cen

theorem complementary_switch :
    (run (serve halRccGetPclk2Freq) Timer.reset [.enable 1, .enable 2, .disable (-1)]).drives 1 =
      false :=
  (outputs_run halRccGetPclk2Freq [.enable 1, .enable 2, .disable (-1)]
    (by simp [Request.HasPin])).1 1 (by decide) (by decide)

end ExpertCar.PwmDriver
