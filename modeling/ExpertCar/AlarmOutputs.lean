import ExpertCar.RecordStore

/-!
# The alarm flag and the outputs it drives

`dht11_handle` evaluates the readings every 201 iterations and raises
`beep_value3`; the hardware thread combines that flag with the detector and the
flags of the pad and of the push buttons, and switches beeper and LED. The two
threads run in any order. Each of the other flags has code that clears it;
nothing clears `beep_value3`, so it stays up after the first evaluation out of
range.
-/
namespace ExpertCar.AlarmOutputs
open StepRuns HumidityReading RecordStore

/-- Levels last written to `BEEP_PIN` and `LED_PIN`; the beeper is on at low level. -/
structure Outputs where
  beepPin : Bool
  ledPin : Bool
  deriving DecidableEq, Repr

/-- Both off, as `hardware_init` leaves them. -/
def Outputs.off : Outputs := ⟨true, false⟩

def beepHandle (value : Byte) (o : Outputs) : Outputs :=
  if value = 1 then { o with beepPin := false }
  else if value = 0 then { o with beepPin := true }
  else o

def ledSolve (value : Byte) (o : Outputs) : Outputs :=
  if value = 1 then { o with ledPin := true }
  else if value = 0 then { o with ledPin := false }
  else o

def peopleDetect (detectPin : Bool) (beepValue beepValue2 beepValue3 : Byte) (o : Outputs) :
    Outputs :=
  if detectPin = true ∨ beepValue = 1 ∨ beepValue2 = 1 ∨ beepValue3 = 1 then
    ledSolve 1 (beepHandle 1 o)
  else ledSolve 0 (beepHandle 0 o)

/-- An iteration of `dht11_handle`, or a call of `people_detect` with what it reads
besides the alarm flag. -/
inductive Event where
  | dht11Handle (x : Input)
  | peopleDetect (detectPin : Bool) (beepValue beepValue2 : Byte)

/-- The threads, and the readings at the last alarm evaluation. -/
structure System where
  recorder : Recorder
  outputs : Outputs
  evaluated : Option Frame

def System.boot (r : Readings) : System := ⟨Recorder.boot r, Outputs.off, none⟩

/-- The iteration that starts in this state evaluates the alarm. -/
def Evaluates (s : Recorder) : Prop := s.i ≥ 200

instance (s : Recorder) : Decidable (Evaluates s) := inferInstanceAs (Decidable (_ ≥ _))

def step (s : System) : Event → System
  | .dht11Handle x =>
      { s with
        recorder := dht11Handle s.recorder x
        evaluated := if Evaluates s.recorder then some s.recorder.readings.data else s.evaluated }
  | .peopleDetect detectPin beepValue beepValue2 =>
      { s with
        outputs := peopleDetect detectPin beepValue beepValue2 s.recorder.beepValue3 s.outputs }

/-! ### What the alarm is for -/

def OutOfRange (data : Frame) : Prop := data 0 ≥ 90 ∨ data 0 ≤ 10 ∨ data 2 ≥ 40 ∨ data 2 ≤ 1

instance (data : Frame) : Decidable (OutOfRange data) := inferInstanceAs (Decidable (_ ∨ _))

/-- Right after an evaluation the flag says whether the readings are out of range;
with nothing else active, a detection after an evaluation in range switches off. -/
def Follows (s : System) : Event → Prop
  | .dht11Handle _ =>
      Evaluates s.recorder →
        ((alarmCheck s.recorder).beepValue3 = 1 ↔ OutOfRange s.recorder.readings.data)
  | .peopleDetect detectPin beepValue beepValue2 =>
      detectPin = false → beepValue ≠ 1 → beepValue2 ≠ 1 →
        ∀ data, s.evaluated = some data → ¬ OutOfRange data →
          (step s (.peopleDetect detectPin beepValue beepValue2)).outputs = Outputs.off

/-- The readings at the alarm evaluations of a run, in order. -/
def evaluations (s : Recorder) : List Event → List Frame
  | [] => []
  | .dht11Handle x :: events =>
      if Evaluates s then s.readings.data :: evaluations (dht11Handle s x) events
      else evaluations (dht11Handle s x) events
  | .peopleDetect _ _ _ :: events => evaluations s events

/-- No evaluation in range comes after one out of range. -/
def NeverRecovers (datas : List Frame) : Prop :=
  datas.Pairwise fun data data' => OutOfRange data → OutOfRange data'

/-! ### The flag is only ever raised -/

theorem alarm_iff (data : Frame) :
    humidityAlarm data = true ∨ temperatureAlarm data = true ↔ OutOfRange data := by
  simp only [humidityAlarm, temperatureAlarm, OutOfRange, Bool.or_eq_true, decide_eq_true_eq,
    or_assoc]

/-- An evaluation raises the flag when the readings are out of range. -/
theorem alarmCheck_raises {s : Recorder} (he : Evaluates s) (hout : OutOfRange s.readings.data) :
    (alarmCheck s).beepValue3 = 1 := by
  unfold alarmCheck
  rw [if_pos (show s.i ≥ 200 from he)]
  rcases (alarm_iff _).mpr hout with h | h
  · rw [if_pos h]
  · split_ifs <;> rfl

/-- Nothing else changes it. -/
theorem alarmCheck_keeps {s : Recorder} (h : ¬ (Evaluates s ∧ OutOfRange s.readings.data)) :
    (alarmCheck s).beepValue3 = s.beepValue3 := by
  unfold alarmCheck
  split_ifs with he hh ht
  · exact (h ⟨he, (alarm_iff _).mp (Or.inl hh)⟩).elim
  · exact (h ⟨he, (alarm_iff _).mp (Or.inr ht)⟩).elim
  · rfl
  · rfl

/-- After an evaluation the flag is up if it was before or the readings are out of range. -/
theorem alarmCheck_up_iff {s : Recorder} (he : Evaluates s) :
    (alarmCheck s).beepValue3 = 1 ↔ s.beepValue3 = 1 ∨ OutOfRange s.readings.data := by
  by_cases hout : OutOfRange s.readings.data
  · exact iff_of_true (alarmCheck_raises he hout) (Or.inr hout)
  · rw [alarmCheck_keeps fun h => hout h.2]
    exact (or_iff_left hout).symm

theorem dht11Handle_flag (s : Recorder) (x : Input) :
    (dht11Handle s x).beepValue3 = (alarmCheck s).beepValue3 :=
  (dht11Handle_control s x).2.2

/-! ### Runs of the two threads -/

/-- The flag tells the last evaluation. -/
def Told (s : System) : Prop :=
  ∀ data, s.evaluated = some data → (s.recorder.beepValue3 = 1 ↔ OutOfRange data)

theorem told_detect {s : System} (hs : Told s) (detectPin : Bool) (beepValue beepValue2 : Byte) :
    Follows s (.peopleDetect detectPin beepValue beepValue2) := by
  intro hpin hbeep hbeep2 data hdata hrange
  have hflag : s.recorder.beepValue3 ≠ 1 := fun h => hrange ((hs data hdata).mp h)
  have hquiet : ¬ (detectPin = true ∨ beepValue = 1 ∨ beepValue2 = 1 ∨
      s.recorder.beepValue3 = 1) := by
    rw [hpin]
    rintro (h | h | h | h)
    · exact Bool.false_ne_true h
    · exact hbeep h
    · exact hbeep2 h
    · exact hflag h
  rw [step, peopleDetect, if_neg hquiet]
  rfl

/-- An evaluation tells its readings exactly when it does not come to readings in
range with the flag already up. -/
theorem follows_evaluation {s : System} (he : Evaluates s.recorder) (x : Input) :
    Follows s (.dht11Handle x) ↔
      (s.recorder.beepValue3 = 1 → OutOfRange s.recorder.readings.data) := by
  have hup := alarmCheck_up_iff he
  constructor
  · intro h hflag
    exact (h he).mp (hup.mpr (Or.inl hflag))
  · intro h _
    rw [hup]
    exact ⟨fun hor => hor.elim h id, Or.inr⟩

theorem told_evaluation {s : System} (he : Evaluates s.recorder) {x : Input}
    (h : Follows s (.dht11Handle x)) : Told (step s (.dht11Handle x)) := by
  intro data hdata
  obtain rfl : s.recorder.readings.data = data := by
    simpa [step, he] using hdata
  exact (dht11Handle_flag s.recorder x).symm ▸ h he

/-- Between evaluations neither the flag nor what it tells changes. -/
theorem told_between {s : System} (hs : Told s) (he : ¬ Evaluates s.recorder) (x : Input) :
    Told (step s (.dht11Handle x)) ∧
      (dht11Handle s.recorder x).beepValue3 = s.recorder.beepValue3 := by
  have hflag : (dht11Handle s.recorder x).beepValue3 = s.recorder.beepValue3 := by
    rw [dht11Handle_flag, alarmCheck_keeps fun h => he h.1]
  refine ⟨?_, hflag⟩
  intro data hdata
  simp only [step, he, if_false] at hdata ⊢
  rw [hflag]
  exact hs data hdata

/-- Along a run whose flag so far tells the last evaluation, the alarm follows the
readings exactly when none of the evaluations to come recovers from an alarm. -/
theorem follows_iff_of_told {s : System} (hs : Told s) (events : List Event) :
    Always step Follows s events ↔
      (s.recorder.beepValue3 = 1 → ∀ data ∈ evaluations s.recorder events, OutOfRange data) ∧
        NeverRecovers (evaluations s.recorder events) := by
  induction events generalizing s with
  | nil => simp [Always, evaluations, NeverRecovers]
  | cons e events ih =>
      cases e with
      | peopleDetect detectPin beepValue beepValue2 =>
          have hnext := ih (s := step s (.peopleDetect detectPin beepValue beepValue2)) hs
          rw [Always, hnext]
          exact and_iff_right (told_detect hs detectPin beepValue beepValue2)
      | dht11Handle x =>
          by_cases he : Evaluates s.recorder
          · have hfollows := follows_evaluation he x
            have hup := (dht11Handle_flag s.recorder x).symm ▸ alarmCheck_up_iff he
            simp only [Always, evaluations, if_pos he, NeverRecovers, List.pairwise_cons,
              List.forall_mem_cons]
            constructor
            · rintro ⟨hf, hrest⟩
              obtain ⟨hall, hpair⟩ := (ih (told_evaluation he hf)).mp hrest
              refine ⟨fun hflag => ⟨hfollows.mp hf hflag, hall (hup.mpr (Or.inl hflag))⟩, ?_, hpair⟩
              intro data hdata hout
              exact hall (hup.mpr (Or.inr hout)) data hdata
            · rintro ⟨hflag, hlater, hpair⟩
              have hf : Follows s (.dht11Handle x) := hfollows.mpr fun h => (hflag h).1
              refine ⟨hf, (ih (told_evaluation he hf)).mpr ⟨?_, hpair⟩⟩
              intro hflag' data hdata
              rcases hup.mp hflag' with h | h
              · exact (hflag h).2 data hdata
              · exact hlater data hdata h
          · obtain ⟨htold, hflag⟩ := told_between hs he x
            have hf : Follows s (.dht11Handle x) := fun h => absurd h he
            have hnext := ih htold
            rw [show (step s (.dht11Handle x)).recorder = dht11Handle s.recorder x from rfl,
              hflag] at hnext
            rw [Always, hnext, evaluations, if_neg he]
            exact and_iff_right hf

theorem told_boot (r : Readings) : Told (System.boot r) := by
  intro data hdata
  simp [System.boot] at hdata

/-- In every run of the two threads from boot the alarm follows the readings
exactly when no evaluation in range comes after one out of range. -/
theorem follows_iff_neverRecovers (r : Readings) (events : List Event) :
    Always step Follows (System.boot r) events ↔
      NeverRecovers (evaluations (Recorder.boot r) events) := by
  rw [follows_iff_of_told (told_boot r) events]
  exact and_iff_right fun h => absurd h (by decide : (0 : Byte) ≠ 1)

/-! ### An alarm that outlives its cause -/

/-- An iteration without a key, with the sensor about to send this frame. -/
def sensing (f : Frame) : Input := ⟨0, 0, f⟩

theorem dht11Handle_sensing (f : Frame) (s : Recorder) :
    dht11Handle s (sensing f) = sense f (alarmCheck s) :=
  onKey_other (by decide : (0 : Byte) ≠ 13) (by decide : (0 : Byte) ≠ 12)
    (by decide : (0 : Byte) ≠ 10) 0 _

/-- `k` iterations without a key on the way to the next evaluation: the counter
counts them, the flag stays, and the frame is read within the first 51. -/
structure Waited (f : Frame) (s : Recorder) (k : ℕ) (s' : Recorder) : Prop where
  i : s'.i.toNat = s.i.toNat + k
  n : s'.n.toNat ≤ 50
  beepValue3 : s'.beepValue3 = s.beepValue3
  data : s'.readings.data = f ∨ s'.n.toNat = s.n.toNat + k

theorem Waited.step {f : Frame} {s s' : Recorder} {k : ℕ} (h : Waited f s k s')
    (hk : s.i.toNat + k < 200) : Waited f s (k + 1) (dht11Handle s' (sensing f)) := by
  have hi := h.i
  have hn := h.n
  have hle : ¬ s'.i ≥ 200 := by
    change ¬ 200 ≤ s'.i.toNat
    omega
  have hcheck : alarmCheck s' = { s' with i := s'.i + 1 } := if_neg hle
  have hnext : (s'.i + 1).toNat = s.i.toNat + (k + 1) := by
    rw [byte_succ (by omega)]
    omega
  rw [dht11Handle_sensing, hcheck, sense]
  by_cases hread : s'.n ≥ 50
  · rw [if_pos hread]
    exact ⟨hnext, Nat.zero_le 50, h.beepValue3, Or.inl (dht11Read_data _ f)⟩
  · rw [if_neg hread]
    have hlt : s'.n.toNat < 50 := not_le.mp hread
    have hcount : (s'.n + 1).toNat = s'.n.toNat + 1 := byte_succ (by omega)
    refine ⟨hnext, hcount.trans_le hlt, h.beepValue3, ?_⟩
    rcases h.data with hdata | hdata
    · exact Or.inl hdata
    · exact Or.inr (by rw [hcount, hdata, Nat.add_assoc])

theorem waited_run (f : Frame) {s : Recorder} (hn : s.n.toNat ≤ 50) (k : ℕ)
    (hk : s.i.toNat + k ≤ 200) :
    Waited f s k (run dht11Handle s (List.replicate k (sensing f))) := by
  induction k with
  | zero => exact ⟨rfl, hn, rfl, Or.inr rfl⟩
  | succ k ih =>
      rw [run_replicate_succ]
      exact (ih (by omega)).step (by omega)

/-- After 200 iterations from a restarted counter the next one evaluates `f`. -/
theorem Waited.evaluates {f : Frame} {s s' : Recorder} (h : Waited f s 200 s') (hi : s.i = 0) :
    Evaluates s' ∧ s'.readings.data = f := by
  have hzero : s.i.toNat = 0 := by
    rw [hi]
    rfl
  have hi' := h.i
  have hn' := h.n
  refine ⟨?_, h.data.resolve_right (by omega)⟩
  change 200 ≤ s'.i.toNat
  omega

theorem sense_n {s : Recorder} (hn : s.n.toNat ≤ 50) (f : Frame) : (sense f s).n.toNat ≤ 50 := by
  unfold sense
  split_ifs with h
  · exact Nat.zero_le 50
  · have hlt : s.n.toNat < 50 := not_le.mp h
    exact (byte_succ (by omega)).trans_le hlt

theorem evaluation_restarts {s : Recorder} (he : Evaluates s) (hn : s.n.toNat ≤ 50) (f : Frame) :
    (dht11Handle s (sensing f)).i = 0 ∧ (dht11Handle s (sensing f)).n.toNat ≤ 50 := by
  have hcheck : (alarmCheck s).i = 0 ∧ (alarmCheck s).n = s.n := by
    unfold alarmCheck
    rw [if_pos (show s.i ≥ 200 from he)]
    split_ifs <;> exact ⟨rfl, rfl⟩
  rw [dht11Handle_sensing]
  constructor
  · unfold sense
    split_ifs <;> exact hcheck.1
  · exact sense_n (hcheck.2 ▸ hn) f

theorem run_recorder (s : System) (xs : List Input) :
    (run step s (xs.map Event.dht11Handle)).recorder = run dht11Handle s.recorder xs := by
  induction xs generalizing s with
  | nil => rfl
  | cons x xs ih => exact ih (step s (.dht11Handle x))

/-- 5 percent at 25 degrees. -/
def dryFrame : Frame := ![5, 0, 25, 0, 30]

/-- A dry sensor through the first evaluation, then good readings up to the second. -/
def dryThenSound : List Input :=
  List.replicate 200 (sensing dryFrame) ++ [sensing dryFrame] ++
    List.replicate 200 (sensing soundFrame)

theorem dryThenSound_waits :
    ∃ s, s.beepValue3 = 1 ∧ s.i = 0 ∧
      Waited soundFrame s 200 (run dht11Handle (Recorder.boot Readings.boot) dryThenSound) := by
  have hdry := waited_run dryFrame (s := Recorder.boot Readings.boot) (Nat.zero_le 50) 200
    (by decide)
  obtain ⟨he, hdata⟩ := hdry.evaluates rfl
  obtain ⟨hi, hn⟩ := evaluation_restarts he hdry.n dryFrame
  have hraise := alarmCheck_raises he (by rw [hdata]; decide)
  rw [← dht11Handle_flag _ (sensing dryFrame)] at hraise
  refine ⟨_, hraise, hi, ?_⟩
  rw [dryThenSound, run_append, run_concat]
  exact waited_run soundFrame hn 200 (by rw [hi]; decide)

/-- The second evaluation finds readings in range and leaves the flag up. -/
theorem recovered_alarm_stays :
    ¬ Always step Follows (System.boot Readings.boot)
      (dryThenSound.map Event.dht11Handle ++ [.dht11Handle (sensing soundFrame)]) := by
  obtain ⟨s, hflag, hi, hsound⟩ := dryThenSound_waits
  obtain ⟨he, hdata⟩ := hsound.evaluates hi
  have hstate := run_recorder (System.boot Readings.boot) dryThenSound
  rw [show (System.boot Readings.boot).recorder = Recorder.boot Readings.boot from rfl] at hstate
  rw [← hstate] at hsound he hdata
  rw [always_append]
  intro h
  have hlast := (follows_evaluation he _).mp h.2.1 (hsound.beepValue3.trans hflag)
  rw [hdata] at hlast
  exact absurd hlast (by decide)

end ExpertCar.AlarmOutputs
