import ExpertCar.ServoControl
import Mathlib.Algebra.Order.Group.Int
import Mathlib.Algebra.Order.Group.Unbundled.Abs

/-!
# What the servos do under any stick

The body of `duoji_handle` cut into its assignments, so that a property can be
asked at every point between two of them. The guards compare unsigned sums of a
signed speed and a pulse; inside the travel limits these sums are the sums of the
integers, which is what keeps the limits. A step that would leave them is dropped
as a whole, and so is every step at the stick value 63. Recentring changes the
pulses without a call to the device.
-/
namespace ExpertCar.ServoTravel
open StepRuns ServoControl

/-! ### The assignments of one iteration -/

def raiseFlag (s : State) : State := { s with ps2Flag := 1 }
def centre1 (s : State) : State := { s with duoji1Pulse := 950000 }
def centre2 (s : State) : State := { s with duoji2Pulse := 600000 }

def speed1 (ps2RYTest ps2RY : Byte) : ℤ :=
  if ps2RYTest ≠ 63 then -((ps2RY.toNat : ℤ) - 128) * 50 else 0

def speed2 (ps2RX : Byte) : ℤ := -((ps2RX.toNat : ℤ) - 127) * 50

def setSpeed1 (r : Reads) (s : State) : State :=
  { s with duoji1Speed := speed1 r.ps2RYTest r.ps2RY }
def movePulse1 (s : State) : State := { s with duoji1Pulse := advance s.duoji1Speed s.duoji1Pulse }
def setSpeed2 (r : Reads) (s : State) : State := { s with duoji2Speed := speed2 r.ps2RX }
def movePulse2 (s : State) : State := { s with duoji2Pulse := advance s.duoji2Speed s.duoji2Pulse }
def pwmSet1 (s : State) : State := { s with pwm1 := s.duoji1Pulse }
def pwmSet2 (s : State) : State := { s with pwm2 := s.duoji2Pulse }

def recentring (key : Byte) : List (State → State) :=
  if key = 8 then [raiseFlag, centre1, centre2] else []

def following (r : Reads) : List (State → State) :=
  [setSpeed1 r, movePulse1, setSpeed2 r, movePulse2, pwmSet1, pwmSet2]

def exec (s : State) (assignment : State → State) : State := assignment s

/-- What the iteration from `s` executes; the stick branch is decided after the
key branch. -/
def assignments (s : State) (r : Reads) : List (State → State) :=
  hold :: recentring r.ps2KEY ++
    if r.ps2RXTest ≠ 63 ∧ (recentre r.ps2KEY (hold s)).ps2Flag = 0 then following r else []

theorem duojiHandle_eq_run (s : State) (r : Reads) :
    duojiHandle s r = run exec s (assignments s r) := by
  have hkey : run exec (hold s) (recentring r.ps2KEY) = recentre r.ps2KEY (hold s) := by
    unfold recentring recentre
    split_ifs <;> rfl
  simp only [duojiHandle, assignments, List.cons_append, run_cons, run_append,
    show exec s hold = hold s from rfl, hkey]
  split_ifs <;> rfl

/-! ### Sums inside the travel limits -/

def InTravel (pulse : BitVec 32) : Prop := 325000 < pulse.toNat ∧ pulse.toNat < 1250000

instance (pulse : BitVec 32) : Decidable (InTravel pulse) := inferInstanceAs (Decidable (_ ∧ _))

/-- The start value and the two values of the recentring key. -/
theorem presets_inTravel : InTravel 750000 ∧ InTravel 950000 ∧ InTravel 600000 := by decide

theorem speed1_bounds (ps2RYTest ps2RY : Byte) :
    -6400 ≤ speed1 ps2RYTest ps2RY ∧ speed1 ps2RYTest ps2RY ≤ 6400 := by
  have := ps2RY.isLt
  unfold speed1
  split_ifs <;> omega

theorem speed2_bounds (ps2RX : Byte) : -6400 ≤ speed2 ps2RX ∧ speed2 ps2RX ≤ 6400 := by
  have := ps2RX.isLt
  unfold speed2
  omega

theorem sum_toNat {speed : ℤ} {pulse : BitVec 32} (hp : InTravel pulse)
    (hs : -6400 ≤ speed ∧ speed ≤ 6400) : ((sum speed pulse).toNat : ℤ) = speed + pulse.toNat := by
  obtain ⟨hlo, hhi⟩ := hp
  unfold sum
  rw [BitVec.toNat_add, BitVec.toNat_ofInt]
  omega

/-- The guard and the step in integers. -/
theorem advance_toNat {speed : ℤ} {pulse : BitVec 32} (hp : InTravel pulse)
    (hs : -6400 ≤ speed ∧ speed ≤ 6400) :
    ((advance speed pulse).toNat : ℤ) =
      if 325000 < speed + pulse.toNat ∧ speed + pulse.toNat < 1250000
        then speed + pulse.toNat else pulse.toNat := by
  have hsum := sum_toNat hp hs
  have hguard : (sum speed pulse < 1250000 ∧ sum speed pulse > 325000) ↔
      (325000 < speed + pulse.toNat ∧ speed + pulse.toNat < 1250000) := by
    rw [← hsum]
    change (sum speed pulse).toNat < 1250000 ∧ 325000 < (sum speed pulse).toNat ↔ _
    omega
  unfold advance
  simp only [hguard, BitVec.add_comm pulse]
  split_ifs
  · exact hsum
  · rfl

theorem advance_inTravel {speed : ℤ} {pulse : BitVec 32} (hp : InTravel pulse)
    (hs : -6400 ≤ speed ∧ speed ≤ 6400) : InTravel (advance speed pulse) := by
  have h := advance_toNat hp hs
  obtain ⟨hlo, hhi⟩ := hp
  unfold InTravel
  split_ifs at h <;> omega

/-! ### At every point of every run -/

/-- Pulses inside the travel, guard sums unwrapped, device pulses below the period. -/
structure Within (s : State) : Prop where
  pulse1 : InTravel s.duoji1Pulse
  pulse2 : InTravel s.duoji2Pulse
  sum1 : ((sum s.duoji1Speed s.duoji1Pulse).toNat : ℤ) = s.duoji1Speed + s.duoji1Pulse.toNat
  sum2 : ((sum s.duoji2Speed s.duoji2Pulse).toNat : ℤ) = s.duoji2Speed + s.duoji2Pulse.toNat
  pwm1 : s.pwm1.toNat < period.toNat
  pwm2 : s.pwm2.toNat < period.toNat

/-- The invariant behind it: speeds are those of a byte. -/
structure Inv (s : State) : Prop where
  pulse1 : InTravel s.duoji1Pulse
  pulse2 : InTravel s.duoji2Pulse
  speed1 : -6400 ≤ s.duoji1Speed ∧ s.duoji1Speed ≤ 6400
  speed2 : -6400 ≤ s.duoji2Speed ∧ s.duoji2Speed ≤ 6400
  pwm1 : s.pwm1.toNat < period.toNat
  pwm2 : s.pwm2.toNat < period.toNat

theorem inTravel_below_period {pulse : BitVec 32} (h : InTravel pulse) :
    pulse.toNat < period.toNat :=
  h.2.trans (by decide)

theorem Inv.within {s : State} (h : Inv s) : Within s :=
  ⟨h.pulse1, h.pulse2, sum_toNat h.pulse1 h.speed1, sum_toNat h.pulse2 h.speed2, h.pwm1, h.pwm2⟩

theorem inv_initial : Inv State.initial := by
  have h := presets_inTravel.1
  exact ⟨h, h, by decide, by decide, inTravel_below_period h, inTravel_below_period h⟩

theorem inv_hold {s : State} (h : Inv s) : Inv (hold s) := by
  unfold hold
  split_ifs <;> exact ⟨h.pulse1, h.pulse2, h.speed1, h.speed2, h.pwm1, h.pwm2⟩

theorem inv_recentring {key : Byte} {f : State → State} (hf : f ∈ recentring key) {s : State}
    (h : Inv s) : Inv (f s) := by
  unfold recentring at hf
  split_ifs at hf
  · simp only [List.mem_cons, List.not_mem_nil, or_false] at hf
    rcases hf with rfl | rfl | rfl
    · exact { h with }
    · exact { h with pulse1 := presets_inTravel.2.1 }
    · exact { h with pulse2 := presets_inTravel.2.2 }
  · exact (List.not_mem_nil hf).elim

theorem inv_following {r : Reads} {f : State → State} (hf : f ∈ following r) {s : State}
    (h : Inv s) : Inv (f s) := by
  simp only [following, List.mem_cons, List.not_mem_nil, or_false] at hf
  rcases hf with rfl | rfl | rfl | rfl | rfl | rfl
  · exact { h with speed1 := speed1_bounds r.ps2RYTest r.ps2RY }
  · exact { h with pulse1 := advance_inTravel h.pulse1 h.speed1 }
  · exact { h with speed2 := speed2_bounds r.ps2RX }
  · exact { h with pulse2 := advance_inTravel h.pulse2 h.speed2 }
  · exact { h with pwm1 := inTravel_below_period h.pulse1 }
  · exact { h with pwm2 := inTravel_below_period h.pulse2 }

theorem inv_assignments {s₀ : State} {r : Reads} {f : State → State}
    (hf : f ∈ assignments s₀ r) {s : State} (h : Inv s) : Inv (f s) := by
  rcases List.mem_append.mp hf with hf | hf
  · rcases List.mem_cons.mp hf with rfl | hf
    · exact inv_hold h
    · exact inv_recentring hf h
  · split_ifs at hf
    · exact inv_following hf h
    · exact (List.not_mem_nil hf).elim

/-- One iteration from the invariant: the limits at every point in it. -/
theorem Inv.iteration {s : State} (h : Inv s) (r : Reads) :
    Always exec (fun s f => Within (f s)) s (assignments s r) ∧ Inv (duojiHandle s r) := by
  rw [duojiHandle_eq_run]
  refine always_of_forall_mem exec ?_ h
  intro f hf s hs
  have hnext := inv_assignments hf hs
  exact ⟨hnext.within, hnext⟩

theorem inv_run (reads : List Reads) : Inv (run duojiHandle State.initial reads) :=
  run_invariant duojiHandle (fun _ r hs => (hs.iteration r).2) inv_initial reads

/-- The travel limits hold at every point of every run, whatever each separate
read of the pad returns. -/
theorem travel_limits (reads : List Reads) :
    Within State.initial ∧
      Always duojiHandle (fun s r => Always exec (fun s f => Within (f s)) s (assignments s r))
        State.initial reads :=
  ⟨inv_initial.within, always_of_invariant (P := Inv) duojiHandle
    (fun _ r hs => (hs.iteration r).2) (fun _ r hs => (hs.iteration r).1) inv_initial reads⟩

/-! ### The device and the pulses -/

/-- The device was last set to the current pulses. -/
def InStep (s : State) : Prop := s.pwm1 = s.duoji1Pulse ∧ s.pwm2 = s.duoji2Pulse

/-- Both pulses already are where the recentring key puts them. -/
def Recentred (s : State) : Prop := s.duoji1Pulse = 950000 ∧ s.duoji2Pulse = 600000

instance (s : State) : Decidable (InStep s) := inferInstanceAs (Decidable (_ ∧ _))

theorem hold_frame (s : State) :
    (hold s).duoji1Pulse = s.duoji1Pulse ∧ (hold s).duoji2Pulse = s.duoji2Pulse ∧
      (hold s).pwm1 = s.pwm1 ∧ (hold s).pwm2 = s.pwm2 := by
  unfold hold
  split_ifs <;> exact ⟨rfl, rfl, rfl, rfl⟩

/-- The recentring key ends the iteration in a hold, with new pulses and no call. -/
theorem duojiHandle_key {s : State} {r : Reads} (h : r.ps2KEY = 8) :
    duojiHandle s r =
      { hold s with ps2Flag := 1, duoji1Pulse := 950000, duoji2Pulse := 600000 } := by
  simp [duojiHandle, recentre, h]

theorem duojiHandle_inStep_iff {s : State} (hs : InStep s) (r : Reads) :
    InStep (duojiHandle s r) ↔ (r.ps2KEY = 8 → Recentred s) := by
  obtain ⟨h1, h2, hp1, hp2⟩ := hold_frame s
  obtain ⟨hs1, hs2⟩ := hs
  by_cases hkey : r.ps2KEY = 8
  · rw [duojiHandle_key hkey]
    simp only [InStep, Recentred, hp1, hp2, hs1, hs2, hkey, true_imp_iff]
  · have hrecentre : recentre r.ps2KEY (hold s) = hold s := if_neg hkey
    simp only [duojiHandle, hrecentre, hkey, false_imp_iff, iff_true]
    split_ifs
    · exact ⟨rfl, rfl⟩
    · exact ⟨by rw [hp1, h1, hs1], by rw [hp2, h2, hs2]⟩

/-- The device follows the pulses through a whole run exactly when the recentring
key is seen only while the pulses already are at its values. -/
theorem inStep_iff_recentred (reads : List Reads) :
    Always duojiHandle (fun s r => InStep (duojiHandle s r)) State.initial reads ↔
      Always duojiHandle (fun s r => r.ps2KEY = 8 → Recentred s) State.initial reads :=
  always_congr (P := InStep) duojiHandle (fun _ r hs => duojiHandle_inStep_iff hs r)
    (fun _ _ _ h => h) ⟨rfl, rfl⟩ reads

/-- One iteration with the recentring key: pulses 950000 and 600000, device at 750000. -/
theorem recentring_not_inStep :
    ¬ Always duojiHandle (fun s r => InStep (duojiHandle s r)) State.initial
      [Reads.steady 8 128 127] := by
  decide

/-! ### Further stick, further servo -/

/-- The step at this stick position is taken: not the value 63, and inside the travel. -/
def Taken2 (s : State) (rx : Byte) : Prop :=
  rx ≠ 63 ∧ 325000 < speed2 rx + s.duoji2Pulse.toNat ∧ speed2 rx + s.duoji2Pulse.toNat < 1250000

def Taken1 (s : State) (rx ry : Byte) : Prop :=
  rx ≠ 63 ∧ ry ≠ 63 ∧ 325000 < speed1 ry ry + s.duoji1Pulse.toNat ∧
    speed1 ry ry + s.duoji1Pulse.toNat < 1250000

instance (s : State) (rx : Byte) : Decidable (Taken2 s rx) := inferInstanceAs (Decidable (_ ∧ _))

instance (s : State) (rx ry : Byte) : Decidable (Taken1 s rx ry) :=
  inferInstanceAs (Decidable (_ ∧ _))

/-- Outside a hold and without the recentring key, the sticks decide. -/
theorem duojiHandle_steady {s : State} (hflag : s.ps2Flag = 0) {key : Byte} (hkey : key ≠ 8)
    (rx ry : Byte) :
    duojiHandle s (Reads.steady key rx ry) =
      if rx ≠ 63 then followStick (Reads.steady key rx ry) s else s := by
  have hhold : hold s = s := if_neg (by rw [hflag]; decide)
  have hrecentre : recentre key s = s := if_neg hkey
  simp [duojiHandle, Reads.steady, hhold, hrecentre, hflag]

theorem duojiHandle_pulse1 {s : State} (hs : Inv s) (hflag : s.ps2Flag = 0) {key : Byte}
    (hkey : key ≠ 8) (rx ry : Byte) :
    ((duojiHandle s (Reads.steady key rx ry)).duoji1Pulse.toNat : ℤ) =
      if Taken1 s rx ry then speed1 ry ry + s.duoji1Pulse.toNat else s.duoji1Pulse.toNat := by
  rw [duojiHandle_steady hflag hkey]
  by_cases hrx : rx = 63
  · rw [if_neg (not_not.mpr hrx), if_neg (fun h : Taken1 s rx ry => h.1 hrx)]
  · rw [if_pos hrx]
    refine (advance_toNat hs.pulse1 (speed1_bounds ry ry)).trans ?_
    by_cases hry : ry = 63
    -- the speed is zero there, so the guard passes and nothing moves
    · rw [if_neg (fun h : Taken1 s rx ry => h.2.1 hry), speed1, if_neg (not_not.mpr hry)]
      split_ifs <;> omega
    · simp only [Taken1, ne_eq, hrx, hry, not_false_eq_true, true_and]

theorem duojiHandle_pulse2 {s : State} (hs : Inv s) (hflag : s.ps2Flag = 0) {key : Byte}
    (hkey : key ≠ 8) (rx ry : Byte) :
    ((duojiHandle s (Reads.steady key rx ry)).duoji2Pulse.toNat : ℤ) =
      if Taken2 s rx then speed2 rx + s.duoji2Pulse.toNat else s.duoji2Pulse.toNat := by
  rw [duojiHandle_steady hflag hkey]
  by_cases hrx : rx = 63
  · rw [if_neg (not_not.mpr hrx), if_neg (fun h : Taken2 s rx => h.1 hrx)]
  · rw [if_pos hrx]
    refine (advance_toNat hs.pulse2 (speed2_bounds rx)).trans ?_
    simp only [Taken2, ne_eq, hrx, not_false_eq_true, true_and]

/-- Two steps from one pulse keep the order of their speeds unless one is dropped
and the other moves its own way. -/
theorem step_order_iff {p fast slow : ℤ} (h : slow ≤ fast) {F S : Prop} [Decidable F]
    [Decidable S] :
    (if S then slow + p else p) ≤ (if F then fast + p else p) ↔
      ¬ (¬ F ∧ S ∧ 0 < slow) ∧ ¬ (F ∧ ¬ S ∧ fast < 0) := by
  by_cases hF : F <;> by_cases hS : S <;> simp [hF, hS, h]

theorem speed2_anti {r1 r2 : Byte} (h : r1 ≤ r2) : speed2 r2 ≤ speed2 r1 := by
  have hle := BitVec.le_def.mp h
  unfold speed2
  omega

/-- Away from 63, a stick pushed further is a speed at least as large. -/
theorem speed1_anti {r1 r2 : Byte} (h : r1 ≤ r2) (h1 : r1 ≠ 63) (h2 : r2 ≠ 63) :
    speed1 r2 r2 ≤ speed1 r1 r1 := by
  have hle := BitVec.le_def.mp h
  rw [speed1, speed1, if_pos h1, if_pos h2]
  omega

/-- The step at `r1` is dropped while the one at `r2` is taken upward, or the step
at `r2` is dropped while the one at `r1` is taken downward. -/
def Overtakes2 (s : State) (r1 r2 : Byte) : Prop :=
  (¬ Taken2 s r1 ∧ Taken2 s r2 ∧ r2 < 127) ∨ (Taken2 s r1 ∧ ¬ Taken2 s r2 ∧ 127 < r1)

def Overtakes1 (s : State) (rx r1 r2 : Byte) : Prop :=
  (¬ Taken1 s rx r1 ∧ Taken1 s rx r2 ∧ r2 < 128) ∨ (Taken1 s rx r1 ∧ ¬ Taken1 s rx r2 ∧ 128 < r1)

/-- Away from 63, the sign of the speed says on which side of the centre the stick is. -/
theorem speed1_sign {r : Byte} (h : r ≠ 63) :
    (0 < speed1 r r ↔ r < 128) ∧ (speed1 r r < 0 ↔ 128 < r) := by
  rw [speed1, if_pos h]
  change (_ ↔ r.toNat < 128) ∧ (_ ↔ 128 < r.toNat)
  omega

theorem speed2_sign (r : Byte) : (0 < speed2 r ↔ r < 127) ∧ (speed2 r < 0 ↔ 127 < r) := by
  unfold speed2
  change (_ ↔ r.toNat < 127) ∧ (_ ↔ 127 < r.toNat)
  omega

theorem pulse2_order_iff {s : State} (hs : Inv s) (hflag : s.ps2Flag = 0) {key : Byte}
    (hkey : key ≠ 8) {r1 r2 : Byte} (h : r1 ≤ r2) (ry : Byte) :
    (duojiHandle s (Reads.steady key r2 ry)).duoji2Pulse ≤
        (duojiHandle s (Reads.steady key r1 ry)).duoji2Pulse ↔ ¬ Overtakes2 s r1 r2 := by
  rw [BitVec.le_def, ← Int.ofNat_le, duojiHandle_pulse2 hs hflag hkey,
    duojiHandle_pulse2 hs hflag hkey, step_order_iff (speed2_anti h), (speed2_sign r2).1,
    (speed2_sign r1).2, Overtakes2, not_or]

theorem pulse1_order_iff {s : State} (hs : Inv s) (hflag : s.ps2Flag = 0) {key : Byte}
    (hkey : key ≠ 8) {r1 r2 : Byte} (h : r1 ≤ r2) (rx : Byte) :
    (duojiHandle s (Reads.steady key rx r2)).duoji1Pulse ≤
        (duojiHandle s (Reads.steady key rx r1)).duoji1Pulse ↔ ¬ Overtakes1 s rx r1 r2 := by
  rw [BitVec.le_def, ← Int.ofNat_le, duojiHandle_pulse1 hs hflag hkey,
    duojiHandle_pulse1 hs hflag hkey, Overtakes1, not_or]
  by_cases h1 : r1 = 63
  · have hdrop : ¬ Taken1 s rx r1 := fun ht => ht.2.1 h1
    by_cases h2 : r2 = 63
    · have hdrop' : ¬ Taken1 s rx r2 := fun ht => ht.2.1 h2
      simp [hdrop, hdrop']
    · rw [if_neg hdrop, ← (speed1_sign h2).1]
      by_cases ht : Taken1 s rx r2 <;> simp [hdrop, ht]
  · by_cases h2 : r2 = 63
    · have hdrop' : ¬ Taken1 s rx r2 := fun ht => ht.2.1 h2
      rw [if_neg hdrop', ← (speed1_sign h1).2]
      by_cases ht : Taken1 s rx r1 <;> simp [hdrop', ht]
    · rw [step_order_iff (speed1_anti h h1 h2), (speed1_sign h2).1, (speed1_sign h1).2]

/-- From every state of a run outside a hold, the servos follow the order of two
stick positions exactly when no dropped step is overtaken by a taken one. -/
theorem pulses_order_iff (reads : List Reads)
    (hflag : (run duojiHandle State.initial reads).ps2Flag = 0) {key : Byte} (hkey : key ≠ 8)
    {r1 r2 : Byte} (h : r1 ≤ r2) :
    let s := run duojiHandle State.initial reads
    (∀ ry, (duojiHandle s (Reads.steady key r2 ry)).duoji2Pulse ≤
        (duojiHandle s (Reads.steady key r1 ry)).duoji2Pulse ↔ ¬ Overtakes2 s r1 r2) ∧
    ∀ rx, (duojiHandle s (Reads.steady key rx r2)).duoji1Pulse ≤
        (duojiHandle s (Reads.steady key rx r1)).duoji1Pulse ↔ ¬ Overtakes1 s rx r1 r2 :=
  ⟨pulse2_order_iff (inv_run reads) hflag hkey h, pulse1_order_iff (inv_run reads) hflag hkey h⟩

instance (s : State) (r1 r2 : Byte) : Decidable (Overtakes2 s r1 r2) :=
  inferInstanceAs (Decidable (_ ∨ _))

/-- Two positions on one side of the centre, at the start values. -/
theorem first_step_ordered :
    (duojiHandle State.initial (Reads.steady 0 20 128)).duoji2Pulse ≤
      (duojiHandle State.initial (Reads.steady 0 10 128)).duoji2Pulse :=
  ((pulses_order_iff [] rfl (by decide : (0 : Byte) ≠ 8) (by decide : (10 : Byte) ≤ 20)).1 128).mpr
    (by decide)

/-- The pulse after 78 full steps, one short of the upper limit. -/
def nearLimit : State := run duojiHandle State.initial (List.replicate 78 (Reads.steady 0 0 128))

/-- At the start values 63 moves the second servo less than 100 does; near the
upper limit the full stick does. -/
theorem dropped_step_overtaken :
    ¬ (duojiHandle State.initial (Reads.steady 0 100 128)).duoji2Pulse ≤
        (duojiHandle State.initial (Reads.steady 0 63 128)).duoji2Pulse ∧
      nearLimit.ps2Flag = 0 ∧
      ¬ (duojiHandle nearLimit (Reads.steady 0 100 128)).duoji2Pulse ≤
        (duojiHandle nearLimit (Reads.steady 0 0 128)).duoji2Pulse := by
  decide +kernel

end ExpertCar.ServoTravel
