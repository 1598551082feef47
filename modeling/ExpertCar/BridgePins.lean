import ExpertCar.MotorControl

/-!
# The direction pins between two writes

`motor_pwm_set` turns a bridge round by two pin writes. Three of the four
direction helpers pull one pin low before they raise the other;
`B_motor_backward` raises `BIN1` first. What the pins of the second bridge do in
between therefore depends on which way the call before left them, and both are
high for one write whenever the bridge is turned from forward to backward.
-/
namespace ExpertCar.BridgePins
open StepRuns MotorControl

/-- No bridge has both direction pins high. -/
def Exclusive (d : Drive) : Prop :=
  ¬ (d.ain1 = true ∧ d.ain2 = true) ∧ ¬ (d.bin1 = true ∧ d.bin2 = true)

instance (d : Drive) : Decidable (Exclusive d) := inferInstanceAs (Decidable (_ ∧ _))

/-- All four direction pins low. -/
def allLow : Drive := State.initial.drive

structure Call where
  motor1 : ℤ
  motor2 : ℤ
  deriving DecidableEq, Repr

def Call.writes (c : Call) : List HwCall := motorPwmSet c.motor1 c.motor2

/-- The pins after each of the driver calls of the sequence are exclusive. -/
def BreakBeforeMake (calls : List Call) : Prop :=
  Always Drive.apply (fun d w => Exclusive (d.apply w)) allLow (calls.flatMap Call.writes)

instance (calls : List Call) : Decidable (BreakBeforeMake calls) :=
  inferInstanceAs (Decidable (Always _ _ _ _))

/-- The second bridge is not turned from forward to backward. -/
def NoBackwardTurn (last c : Call) : Prop := last.motor2 ≤ 0 → c.motor2 ≤ 0

instance (last c : Call) : Decidable (NoBackwardTurn last c) :=
  inferInstanceAs (Decidable (_ → _))

/-- The pins as the call `last` leaves them, as far as the next one depends on it. -/
structure LeftBy (last : Call) (d : Drive) : Prop where
  exclusive : Exclusive d
  bin2 : d.bin2 = decide (last.motor2 ≤ 0)

theorem leftBy_allLow : LeftBy ⟨0, 1⟩ allLow := ⟨by decide, rfl⟩

/-- The writes of a call to the first and to the second bridge. -/
def aWrites (motor1 : ℤ) : List HwCall :=
  if motor1 > 0 then aMotorBackward ++ pwmAmotorSet (toUInt32 (myabs motor1))
  else aMotorForward ++ pwmAmotorSet (toUInt32 (myabs motor1))

def bWrites (motor2 : ℤ) : List HwCall :=
  if motor2 > 0 then bMotorBackward ++ pwmBmotorSet (toUInt32 (myabs motor2))
  else bMotorForward ++ pwmBmotorSet (toUInt32 (myabs motor2))

theorem writes_eq (c : Call) : c.writes = aWrites c.motor1 ++ bWrites c.motor2 := rfl

/-- The first bridge goes low before it goes high, both ways. -/
theorem aWrites_leftBy {last : Call} {d : Drive} (h : LeftBy last d) (motor1 : ℤ) :
    Always Drive.apply (fun d w => Exclusive (d.apply w)) d (aWrites motor1) ∧
      LeftBy last (run Drive.apply d (aWrites motor1)) := by
  obtain ⟨⟨ha, hb⟩, hbin2⟩ := h
  unfold aWrites
  split_ifs <;>
    simp only [aMotorBackward, aMotorForward, pwmAmotorSet, List.cons_append, List.nil_append,
      Always, run_cons, run_nil, Drive.apply, Exclusive]
  · exact ⟨by simp [hb], ⟨by simp [Exclusive, hb], hbin2⟩⟩
  · exact ⟨by simp [hb], ⟨by simp [Exclusive, hb], hbin2⟩⟩

/-- The second bridge goes low first on its way forward; on its way backward
both pins are high after the first write if `BIN2` was. -/
theorem bWrites_leftBy {last : Call} {d : Drive} (h : LeftBy last d) (c : Call) :
    (Always Drive.apply (fun d w => Exclusive (d.apply w)) d (bWrites c.motor2) ↔
      NoBackwardTurn last c) ∧ LeftBy c (run Drive.apply d (bWrites c.motor2)) := by
  obtain ⟨⟨ha, hb⟩, hbin2⟩ := h
  unfold bWrites NoBackwardTurn
  split_ifs with hc <;>
    simp only [bMotorBackward, bMotorForward, pwmBmotorSet, List.cons_append, List.nil_append,
      Always, run_cons, run_nil, Drive.apply, Exclusive]
  · constructor
    · rw [iff_comm]
      simp [ha, hbin2, not_le.mpr hc]
    · exact ⟨by simp [Exclusive, ha], by simp [hc]⟩
  · have hc' : c.motor2 ≤ 0 := not_lt.mp hc
    constructor
    · simp [ha, hc']
    · exact ⟨by simp [Exclusive, ha], by simp [hc']⟩

theorem writes_leftBy {last : Call} {d : Drive} (h : LeftBy last d) (c : Call) :
    (Always Drive.apply (fun d w => Exclusive (d.apply w)) d c.writes ↔ NoBackwardTurn last c) ∧
      LeftBy c (run Drive.apply d c.writes) := by
  obtain ⟨halways, hleft⟩ := aWrites_leftBy h c.motor1
  obtain ⟨hiff, hlast⟩ := bWrites_leftBy hleft c
  rw [writes_eq, always_append, run_append]
  exact ⟨⟨fun hw => hiff.mp hw.2, fun hn => ⟨halways, hiff.mpr hn⟩⟩, hlast⟩

/-- The pins stay exclusive after every single write exactly when no call turns
the second bridge from forward to backward. -/
theorem breakBeforeMake_iff (calls : List Call) :
    BreakBeforeMake calls ↔ calls.IsChain NoBackwardTurn := by
  have hrun : Always (fun d c => run Drive.apply d c.writes)
      (fun d c => Always Drive.apply (fun d w => Exclusive (d.apply w)) d c.writes) allLow calls ↔
      Always (fun _ c => c) NoBackwardTurn ⟨0, 1⟩ calls :=
    always_iff_of_guarded (P := fun d last => LeftBy last d)
      (fun _ _ c h => (writes_leftBy h c).1) (fun _ _ c h _ => (writes_leftBy h c).2)
      leftBy_allLow calls
  rw [BreakBeforeMake, always_flatMap, hrun, always_last_iff_isChain]
  -- before the first call nothing has been turned forward
  cases calls with
  | nil => simp
  | cons c calls =>
      rw [List.isChain_cons_cons]
      exact and_iff_right fun h => absurd h (by decide)

/-- Standing still and then backing up: after the first write of the second call
both `BIN1` and `BIN2` are high. -/
theorem stop_then_backward_shorts : ¬ BreakBeforeMake [⟨0, 0⟩, ⟨0, 1⟩] := by
  decide

end ExpertCar.BridgePins
