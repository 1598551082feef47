import ExpertCar.MotorControl
import ExpertCar.PadHandle
import ExpertCar.ServoControl

/-!
# The pad, the wheels and the servos together

Three threads share the pad globals: `PS2_handle` takes one step at a time,
`motor_control` and `duoji_handle` take whole iterations, in any order from
boot. Next to the state of the threads the car records which received frame each
published stick byte was copied from; no thread reads this record. Wheels and
servos move as soon as a consumer runs before such a byte exists, and a frame is
obeyed whatever its identification byte says.
-/
namespace ExpertCar.DriveSystem
open StepRuns PadBus PadHandle

/-- The frames the published sticks come from; none for bytes of a `Data` that
no frame has filled yet. -/
structure Origin where
  lx : Option Frame
  ly : Option Frame
  rx : Option Frame
  ry : Option Frame

def Origin.unread : Origin := ⟨none, none, none, none⟩

/-- A publishing step of the thread takes its byte from the last frame read. -/
def Origin.track (pc : Pc) (lastRead : Option Frame) (o : Origin) : Origin :=
  match pc with
  | .lx => { o with lx := lastRead }
  | .ly => { o with ly := lastRead }
  | .rx => { o with rx := lastRead }
  | .ry => { o with ry := lastRead }
  | _ => o

structure Car where
  pad : PadThread
  motor : MotorControl.State
  servo : ServoControl.State
  /-- Arguments of the calls of `motor_pwm_set` so far. -/
  motorCalls : List (ℤ × ℤ)
  lastRead : Option Frame
  origin : Origin

def Car.boot (bus : Bus) : Car :=
  ⟨PadThread.boot bus, MotorControl.State.initial, ServoControl.State.initial, [], none,
    Origin.unread⟩

inductive Act where
  | ps2 (reply : Frame)
  | motor
  | duoji

def Act.isPs2 : Act → Bool
  | .ps2 _ => true
  | _ => false

def Car.runMotor (c : Car) : Car :=
  let motor := MotorControl.motorIteration MotorControl.lowPass MotorControl.lowPass
    c.pad.ps2LX c.pad.ps2LY c.motor
  { c with motor := motor, motorCalls := c.motorCalls ++ [(motor.speeda, motor.speedb)] }

def Car.runDuoji (c : Car) : Car :=
  let reads := ServoControl.Reads.steady c.pad.ps2KEY c.pad.ps2RX c.pad.ps2RY
  { c with servo := ServoControl.duojiHandle c.servo reads }

def Car.runPs2 (f : Frame) (c : Car) : Car :=
  { c with
    pad := ps2HandleStep c.pad f
    lastRead := if c.pad.pc = .key then some f else c.lastRead
    origin := c.origin.track c.pad.pc c.lastRead }

def step (c : Car) : Act → Car
  | .ps2 f => c.runPs2 f
  | .motor => c.runMotor
  | .duoji => c.runDuoji

/-! ### Where the published sticks come from -/

def frameOf (o : Option Frame) : Frame := o.getD noFrame

/-- The sticks are the bytes of the frames on record, and `Data` holds the last
frame read. -/
structure Sourced (c : Car) : Prop where
  data : Holds (frameOf c.lastRead) c.pad
  lx : c.pad.ps2LX = frameOf c.origin.lx 7
  ly : c.pad.ps2LY = frameOf c.origin.ly 8
  rx : c.pad.ps2RX = frameOf c.origin.rx 5
  ry : c.pad.ps2RY = frameOf c.origin.ry 6
  read : c.lastRead = none → c.origin = Origin.unread

theorem sourced_boot (bus : Bus) : Sourced (Car.boot bus) :=
  ⟨holds_boot bus, rfl, rfl, rfl, rfl, fun _ => rfl⟩

theorem frameOf_ite (p : Prop) [Decidable p] (f : Frame) (o : Option Frame) :
    frameOf (if p then some f else o) = if p then f else frameOf o := by
  split <;> rfl

theorem track_unread {pc : Pc} {o : Origin} (h : o = Origin.unread) :
    o.track pc none = Origin.unread := by
  subst h
  cases pc <;> rfl

theorem sourced_ps2 {c : Car} (h : Sourced c) (f : Frame) : Sourced (c.runPs2 f) := by
  have hdata := holds_step h.data f
  rw [← frameOf_ite] at hdata
  have hread : (c.runPs2 f).lastRead = none → (c.runPs2 f).origin = Origin.unread := by
    intro hn
    by_cases hk : c.pad.pc = .key
    · simp [Car.runPs2, hk] at hn
    · have hl : c.lastRead = none := by simpa [Car.runPs2, hk] using hn
      simp only [Car.runPs2, hl]
      exact track_unread (h.read hl)
  obtain ⟨⟨pc, pad, lx, ly, rx, ry, key, beep⟩, motor, servo, calls, last, origin⟩ := c
  have hcopy (i : Fin 9) (h0 : i ≠ 0) (h1 : i ≠ 1) : pad.data i = frameOf last i :=
    h.data.data i h0 h1
  -- only the four publishing steps change a stick, each to a cell of `Data`
  cases pc with
  | init => exact ⟨hdata, h.lx, h.ly, h.rx, h.ry, hread⟩
  | setup k =>
      obtain ⟨hlx, hly, hrx, hry⟩ :=
        ps2HandleStep_setup (t := ⟨.setup k, pad, lx, ly, rx, ry, key, beep⟩) rfl f
      exact ⟨hdata, hlx.trans h.lx, hly.trans h.ly, hrx.trans h.rx, hry.trans h.ry, hread⟩
  | lx => exact ⟨hdata, hcopy 7 (by decide) (by decide), h.ly, h.rx, h.ry, hread⟩
  | ly => exact ⟨hdata, h.lx, hcopy 8 (by decide) (by decide), h.rx, h.ry, hread⟩
  | rx => exact ⟨hdata, h.lx, h.ly, hcopy 5 (by decide) (by decide), h.ry, hread⟩
  | ry => exact ⟨hdata, h.lx, h.ly, h.rx, hcopy 6 (by decide) (by decide), hread⟩
  | key => exact ⟨hdata, h.lx, h.ly, h.rx, h.ry, hread⟩
  | beep => exact ⟨hdata, h.lx, h.ly, h.rx, h.ry, hread⟩

theorem sourced_step {c : Car} (h : Sourced c) (a : Act) : Sourced (step c a) := by
  cases a with
  | ps2 f => exact sourced_ps2 h f
  | motor => exact ⟨h.data, h.lx, h.ly, h.rx, h.ry, h.read⟩
  | duoji => exact ⟨h.data, h.lx, h.ly, h.rx, h.ry, h.read⟩

/-! ### Motion before the first frame -/

/-- No stick byte published so far was taken from a received frame. -/
def Unpublished (c : Car) : Prop := c.origin = Origin.unread

structure AtRest (c : Car) : Prop where
  wheels : ∀ call ∈ c.motorCalls, call = (0, 0)
  duoji1 : c.servo.duoji1Pulse = 750000
  duoji2 : c.servo.duoji2Pulse = 750000
  pwm1 : c.servo.pwm1 = 750000
  pwm2 : c.servo.pwm2 = 750000

theorem Sourced.unpublished_sticks {c : Car} (h : Sourced c) (hu : Unpublished c) :
    c.pad.ps2LX = 0 ∧ c.pad.ps2LY = 0 ∧ c.pad.ps2RX = 0 ∧ c.pad.ps2RY = 0 := by
  have hu : c.origin = Origin.unread := hu
  rw [h.lx, h.ly, h.rx, h.ry, hu]
  exact ⟨rfl, rfl, rfl, rfl⟩

/-- A byte taken from a frame is only ever replaced by one taken from a frame. -/
theorem Sourced.unpublished_of_step {c : Car} (h : Sourced c) {a : Act}
    (hu : Unpublished (step c a)) : Unpublished c := by
  cases a with
  | motor => exact hu
  | duoji => exact hu
  | ps2 f =>
      have hu : c.origin.track c.pad.pc c.lastRead = Origin.unread := hu
      cases hl : c.lastRead with
      | none => exact h.read hl
      | some g =>
          rw [hl] at hu
          obtain ⟨⟨pc, pad, lx, ly, rx, ry, key, beep⟩, motor, servo, calls, last, origin⟩ := c
          cases pc with
          | lx => exact absurd (congrArg Origin.lx hu) (by simp [Origin.track, Origin.unread])
          | ly => exact absurd (congrArg Origin.ly hu) (by simp [Origin.track, Origin.unread])
          | rx => exact absurd (congrArg Origin.rx hu) (by simp [Origin.track, Origin.unread])
          | ry => exact absurd (congrArg Origin.ry hu) (by simp [Origin.track, Origin.unread])
          | init | setup k | key | beep => exact hu

structure Idle (c : Car) : Prop where
  motor : c.motor = MotorControl.State.initial
  servo : c.servo = ServoControl.State.initial
  calls : c.motorCalls = []

theorem Idle.atRest {c : Car} (h : Idle c) : AtRest c := by
  constructor
  · intro call hcall
    rw [h.calls] at hcall
    exact (List.not_mem_nil hcall).elim
  all_goals rw [h.servo]; rfl

theorem idle_ps2 {c : Car} (h : Idle c) (f : Frame) : Idle (c.runPs2 f) :=
  ⟨h.motor, h.servo, h.calls⟩

/-- Zero sticks command both axes at once: the first call is `(6560, 0)`. -/
theorem motor_first_call :
    (MotorControl.motorIteration MotorControl.lowPass MotorControl.lowPass 0 0
      MotorControl.State.initial).speeda = 6560 := by
  decide +kernel

theorem not_atRest_motor {c : Car} (h : Idle c) (hlx : c.pad.ps2LX = 0)
    (hly : c.pad.ps2LY = 0) : ¬ AtRest c.runMotor := by
  intro hrest
  have hcall := hrest.wheels _ (List.mem_append_right _ (List.mem_singleton_self _))
  have hfirst := congrArg Prod.fst hcall
  simp only [hlx, hly, h.motor, motor_first_call] at hfirst
  omega

theorem not_atRest_duoji {c : Car} (h : Idle c) (hrx : c.pad.ps2RX = 0)
    (hry : c.pad.ps2RY = 0) : ¬ AtRest c.runDuoji := by
  intro hrest
  have hpulse : (ServoControl.duojiHandle c.servo
      (ServoControl.Reads.steady c.pad.ps2KEY c.pad.ps2RX c.pad.ps2RY)).duoji1Pulse = 750000 :=
    hrest.duoji1
  rw [h.servo, hrx, hry] at hpulse
  exact ServoControl.duojiHandle_initial_moves _ hpulse

/-- What is known while the car has done nothing before its first published frame. -/
structure Waiting (c : Car) : Prop where
  sourced : Sourced c
  idle : Unpublished c → Idle c

theorem Waiting.atRest_step_iff {c : Car} (h : Waiting c) (a : Act) :
    (Unpublished (step c a) → AtRest (step c a)) ↔ (Unpublished c → a.isPs2) := by
  constructor
  · intro hrest hu
    obtain ⟨hlx, hly, hrx, hry⟩ := h.sourced.unpublished_sticks hu
    cases a with
    | ps2 f => rfl
    | motor => exact (not_atRest_motor (h.idle hu) hlx hly (hrest hu)).elim
    | duoji => exact (not_atRest_duoji (h.idle hu) hrx hry (hrest hu)).elim
  · intro hps2 hstep
    have hu := h.sourced.unpublished_of_step hstep
    cases a with
    | ps2 f => exact (idle_ps2 (h.idle hu) f).atRest
    | motor => exact absurd (hps2 hu) (by simp [Act.isPs2])
    | duoji => exact absurd (hps2 hu) (by simp [Act.isPs2])

theorem Waiting.step {c : Car} (h : Waiting c) {a : Act} (ha : Unpublished c → a.isPs2) :
    Waiting (step c a) := by
  refine ⟨sourced_step h.sourced a, fun hstep => ?_⟩
  have hu := h.sourced.unpublished_of_step hstep
  cases a with
  | ps2 f => exact idle_ps2 (h.idle hu) f
  | motor => exact absurd (ha hu) (by simp [Act.isPs2])
  | duoji => exact absurd (ha hu) (by simp [Act.isPs2])

/-- In a run from boot nothing moves before the first published frame exactly
when neither consumer runs before it. -/
theorem atRest_iff_consumers_wait (bus : Bus) (acts : List Act) :
    Always step (fun c a => Unpublished (step c a) → AtRest (step c a)) (Car.boot bus) acts ↔
      Always step (fun c a => Unpublished c → a.isPs2) (Car.boot bus) acts := by
  refine always_congr (P := Waiting) step ?_ ?_ ?_ acts
  · intro c a h
    exact h.atRest_step_iff a
  · intro c a h hq
    exact h.step ((h.atRest_step_iff a).mp hq)
  · exact ⟨sourced_boot bus, fun _ => ⟨rfl, rfl, rfl⟩⟩

theorem motor_first_moves :
    ¬ Always step (fun c a => Unpublished (step c a) → AtRest (step c a))
      (Car.boot Bus.released) [.motor] := by
  intro h
  exact not_atRest_motor (c := Car.boot Bus.released) ⟨rfl, rfl, rfl⟩ rfl rfl (h.1 rfl)

/-! ### Obeying a frame whatever its identification -/

/-- The byte in force was copied from a frame, and not from one in analog mode. -/
def Unidentified (origin : Option Frame) : Prop := ∃ f, origin = some f ∧ f 1 ≠ 0x73

/-- At a motor iteration the target of an axis is zero if its byte is of a frame not
identified as analog mode; the two bytes may be of different frames. -/
def FailSafe (c : Car) : Act → Prop
  | .motor =>
      (Unidentified c.origin.ly → MotorControl.usualTarget c.pad.ps2LY = 0) ∧
        (Unidentified c.origin.lx → MotorControl.deltaTarget c.pad.ps2LX = 0)
  | _ => True

/-- A stick byte in force without the analog identification is that of a centred stick. -/
def CentredUnlessAnalog (c : Car) : Act → Prop
  | .motor =>
      (∀ f, c.origin.ly = some f → f 1 ≠ 0x73 → f 8 = 128) ∧
        ∀ f, c.origin.lx = some f → f 1 ≠ 0x73 → f 7 = 127
  | _ => True

theorem usualTarget_eq_zero_iff (b : Byte) : MotorControl.usualTarget b = 0 ↔ b = 128 := by
  unfold MotorControl.usualTarget
  have hcentre : (128 : Byte).toNat = 128 := rfl
  rw [← BitVec.toNat_inj, hcentre]
  omega

theorem deltaTarget_eq_zero_iff (b : Byte) : MotorControl.deltaTarget b = 0 ↔ b = 127 := by
  unfold MotorControl.deltaTarget
  have hcentre : (127 : Byte).toNat = 127 := rfl
  rw [← BitVec.toNat_inj, hcentre]
  omega

/-- An axis whose target is zero at one byte, asked of the frame the byte is from. -/
theorem axis_failSafe_iff {origin : Option Frame} {byte centre : Byte} {i : Fin 9}
    {target : Byte → ℤ} (hbyte : byte = frameOf origin i) (htarget : target byte = 0 ↔ byte = centre) :
    (Unidentified origin → target byte = 0) ↔
      ∀ f, origin = some f → f 1 ≠ 0x73 → f i = centre := by
  rw [htarget, hbyte]
  constructor
  · rintro h f rfl hid
    exact h ⟨f, rfl, hid⟩
  · rintro h ⟨f, rfl, hid⟩
    exact h f rfl hid

theorem failSafe_iff {c : Car} (h : Sourced c) (a : Act) :
    FailSafe c a ↔ CentredUnlessAnalog c a := by
  cases a with
  | ps2 f => exact Iff.rfl
  | duoji => exact Iff.rfl
  | motor =>
      exact and_congr (axis_failSafe_iff h.ly (usualTarget_eq_zero_iff _))
        (axis_failSafe_iff h.lx (deltaTarget_eq_zero_iff _))

/-- In a run from boot, losing the controller stops the wheel targets exactly when
every stick byte acted on without the analog identification happens to be centred. -/
theorem failSafe_iff_centred (bus : Bus) (acts : List Act) :
    Always step FailSafe (Car.boot bus) acts ↔
      Always step CentredUnlessAnalog (Car.boot bus) acts := by
  refine always_congr (P := Sourced) step ?_ ?_ (sourced_boot bus) acts
  · intro c a h
    exact failSafe_iff h a
  · intro c a h _
    exact sourced_step h a

/-- What is read with nothing driving DI, through the pull-up. -/
def unplugged : Frame := fun _ => 0xFF

/-- Set-up, one iteration that reads the frame, the two copies of the left stick,
then the motor thread. -/
def unpluggedRun : List Act := List.replicate 18 (.ps2 unplugged) ++ [.motor]

theorem unplugged_sticks (bus : Bus) :
    (run step (Car.boot bus) (List.replicate 18 (.ps2 unplugged))).origin.lx = some unplugged :=
  rfl

/-- An unplugged pad is obeyed. -/
theorem unplugged_not_failSafe :
    ¬ Always step FailSafe (Car.boot Bus.released) unpluggedRun := by
  rw [unpluggedRun, always_append]
  intro h
  have hsourced : Sourced (run step (Car.boot Bus.released)
      (List.replicate 18 (.ps2 unplugged))) :=
    run_invariant (P := Sourced) step (fun _ a hc => sourced_step hc a) (sourced_boot _) _
  have hcentred := (failSafe_iff hsourced .motor).mp h.2.1
  exact absurd (hcentred.2 unplugged (unplugged_sticks Bus.released) (by decide)) (by decide)

end ExpertCar.DriveSystem
