import ExpertCar.AlarmOutputs
import ExpertCar.PeopleCounter

/-!
# Four sources for one beeper

The pad thread, the interrupt of the push buttons, the key thread and the recording
thread each write a flag, and the hardware thread reads all of them and the detector
at once, waits before it switches on and then pauses. A push button starts a pulse:
its flag comes down with the twenty-sixth pass of the key thread after the press,
whatever is pressed in between. Where the passes are ten ticks apart and the readings
of the flags two hundred and fifty at most, a pulse just lasts to the next reading.
-/
namespace ExpertCar.AlarmPulse
open StepRuns HumidityReading RecordStore AlarmOutputs
open PeopleCounter (Counter)

/-- The hardware thread is about to call `people_detect`, in the wait before it
switches on, or in the pause after the call. -/
inductive Place where
  | detect
  | alarm
  | pause
  deriving DecidableEq, Repr

structure System where
  recorder : Recorder
  beepValue : Byte
  beepValue2 : Byte
  i : Byte
  place : Place
  outputs : Outputs
  counter : Counter

def System.boot (r : Readings) : System :=
  ⟨Recorder.boot r, 0, 0, 0, .detect, Outputs.off, Counter.boot⟩

/-- An iteration of a thread's loop, a call of `irq_callback`, or the part of the loop
of `hardware_entry` up to its next wait. -/
inductive Event where
  | dht11Handle (x : Input)
  | ps2Handle (ps2KEY : Byte)
  | irqCallback
  | keyHandle
  | hardwareEntry (detectPin : Bool)

/-- `if(beep_value2==1) { if(i++>=25) { beep_value2=0; i=0; } }` -/
def keyHandle (s : System) : System :=
  if s.beepValue2 = 1 then
    if s.i ≥ 25 then { s with beepValue2 := 0, i := 0 } else { s with i := s.i + 1 }
  else s

/-- The test of `people_detect`. -/
def Detects (s : System) (detectPin : Bool) : Prop :=
  detectPin = true ∨ s.beepValue = 1 ∨ s.beepValue2 = 1 ∨ s.recorder.beepValue3 = 1

instance (s : System) (detectPin : Bool) : Decidable (Detects s detectPin) :=
  inferInstanceAs (Decidable (_ ∨ _))

def hardwareEntry (s : System) (detectPin : Bool) : System :=
  match s.place with
  | .detect =>
      if Detects s detectPin then { s with place := .alarm }
      else { s with outputs := ledSolve 0 (beepHandle 0 s.outputs), place := .pause }
  | .alarm => { s with outputs := ledSolve 1 (beepHandle 1 s.outputs), place := .pause }
  | .pause =>
      { s with counter := PeopleCounter.hardwareEntry s.counter detectPin, place := .detect }

def step (s : System) : Event → System
  | .dht11Handle x => { s with recorder := dht11Handle s.recorder x }
  | .ps2Handle ps2KEY => { s with beepValue := if ps2KEY ≠ 0 then 1 else 0 }
  | .irqCallback => { s with beepValue2 := 1 }
  | .keyHandle => keyHandle s
  | .hardwareEntry detectPin => hardwareEntry s detectPin

/-! ### What the flags tell -/

def Outputs.on : Outputs := ⟨false, true⟩

/-- The key of the last poll. -/
def pollKey (key : Byte) : Event → Byte
  | .ps2Handle ps2KEY => ps2KEY
  | _ => key

/-- Passes of the key thread until the pulse is over; a press does not prolong it. -/
def pulse (left : ℕ) : Event → ℕ
  | .irqCallback => if left = 0 then 26 else left
  | .keyHandle => left - 1
  | _ => left

/-- What the recording thread does in a run. -/
def recordings : List Event → List AlarmOutputs.Event := List.filterMap fun
  | .dht11Handle x => some (.dht11Handle x)
  | _ => none

/-- The sources as the run has left them: the detector, the last poll, a pulse, and an
alarm evaluation out of range at any time. -/
def Active (r : Readings) (events : List Event) (detectPin : Bool) : Prop :=
  detectPin = true ∨ run pollKey 0 events ≠ 0 ∨ 0 < run pulse 0 events ∨
    ∃ data ∈ evaluations (Recorder.boot r) (recordings events), OutOfRange data

/-- The hardware thread writes no flag and leaves the pulse alone. -/
theorem hardwareEntry_frame (s : System) (detectPin : Bool) :
    (hardwareEntry s detectPin).recorder = s.recorder ∧
      (hardwareEntry s detectPin).beepValue = s.beepValue ∧
      (hardwareEntry s detectPin).beepValue2 = s.beepValue2 ∧
      (hardwareEntry s detectPin).i = s.i := by
  unfold hardwareEntry
  split
  · split_ifs <;> exact ⟨rfl, rfl, rfl, rfl⟩
  · exact ⟨rfl, rfl, rfl, rfl⟩
  · exact ⟨rfl, rfl, rfl, rfl⟩

/-- The push buttons' flag and the counter of the key thread in a pulse. -/
structure Pulsing (left : ℕ) (s : System) : Prop where
  bound : left ≤ 26
  flag : s.beepValue2 = if left = 0 then 0 else 1
  passes : s.i.toNat = if left = 0 then 0 else 26 - left

theorem Pulsing.keyHandle {left : ℕ} {s : System} (h : Pulsing left s) :
    Pulsing (left - 1) (keyHandle s) := by
  obtain ⟨hbound, hflag, hpasses⟩ := h
  unfold AlarmPulse.keyHandle
  by_cases hdown : left = 0
  · subst hdown
    have hzero : ¬ s.beepValue2 = 1 := by
      rw [hflag]
      decide
    rw [if_neg hzero]
    exact ⟨hbound, hflag, hpasses⟩
  · rw [if_neg hdown] at hflag hpasses
    rw [if_pos hflag]
    by_cases hlast : left = 1
    · subst hlast
      have hend : s.i ≥ 25 := BitVec.le_def.mpr (by rw [hpasses]; decide)
      rw [if_pos hend]
      exact ⟨by decide, rfl, rfl⟩
    · have hnext : ¬ s.i ≥ 25 := fun h => by
        have hle : 25 ≤ s.i.toNat := BitVec.le_def.mp h
        omega
      rw [if_neg hnext]
      refine ⟨by omega, ?_, ?_⟩
      · rw [if_neg (by omega)]
        exact hflag
      · rw [if_neg (by omega), byte_succ (by omega)]
        omega

theorem Pulsing.step {left : ℕ} {s : System} (h : Pulsing left s) (e : Event) :
    Pulsing (pulse left e) (step s e) := by
  have hframe {s' : System} (hflag : s'.beepValue2 = s.beepValue2) (hi : s'.i = s.i) :
      Pulsing left s' := ⟨h.bound, hflag.trans h.flag, hi ▸ h.passes⟩
  cases e with
  | dht11Handle x => exact hframe rfl rfl
  | ps2Handle ps2KEY => exact hframe rfl rfl
  | irqCallback =>
      have hpasses := h.passes
      have hbound := h.bound
      simp only [pulse, AlarmPulse.step]
      by_cases hdown : left = 0
      · rw [if_pos hdown] at hpasses ⊢
        exact ⟨le_rfl, rfl, hpasses⟩
      · rw [if_neg hdown]
        exact ⟨hbound, (if_neg hdown).symm, hpasses⟩
  | keyHandle => exact h.keyHandle
  | hardwareEntry detectPin =>
      obtain ⟨-, -, hflag, hi⟩ := hardwareEntry_frame s detectPin
      exact hframe hflag hi

theorem pulsing_run {left : ℕ} {s : System} (h : Pulsing left s) (events : List Event) :
    Pulsing (run pulse left events) (run AlarmPulse.step s events) := by
  induction events generalizing left s with
  | nil => exact h
  | cons e events ih => exact ih (h.step e)

theorem keyHandle_frame (s : System) :
    (keyHandle s).recorder = s.recorder ∧ (keyHandle s).beepValue = s.beepValue ∧
      (keyHandle s).place = s.place ∧ (keyHandle s).outputs = s.outputs := by
  unfold keyHandle
  split_ifs <;> exact ⟨rfl, rfl, rfl, rfl⟩

theorem beepValue_run {key : Byte} {s : System} (h : s.beepValue = if key ≠ 0 then 1 else 0)
    (events : List Event) :
    (run step s events).beepValue = if run pollKey key events ≠ 0 then 1 else 0 := by
  induction events generalizing key s with
  | nil => exact h
  | cons e events ih =>
      apply ih
      cases e with
      | dht11Handle x => exact h
      | ps2Handle ps2KEY => rfl
      | irqCallback => exact h
      | keyHandle => exact (keyHandle_frame s).2.1.trans h
      | hardwareEntry detectPin => exact (hardwareEntry_frame s detectPin).2.1.trans h

/-- Nothing takes the alarm back. -/
theorem beepValue3_run (s : System) (events : List Event) :
    (run step s events).recorder.beepValue3 = 1 ↔ s.recorder.beepValue3 = 1 ∨
      ∃ data ∈ evaluations s.recorder (recordings events), OutOfRange data := by
  induction events generalizing s with
  | nil => simp [recordings, evaluations]
  | cons e events ih =>
      have hquiet (hrecorder : (step s e).recorder = s.recorder)
          (hrecordings : recordings (e :: events) = recordings events) :
          (run step s (e :: events)).recorder.beepValue3 = 1 ↔ s.recorder.beepValue3 = 1 ∨
            ∃ data ∈ evaluations s.recorder (recordings (e :: events)), OutOfRange data := by
        rw [run_cons, ih, hrecorder, hrecordings]
      cases e with
      | dht11Handle x =>
          have hcons : recordings (.dht11Handle x :: events) =
              .dht11Handle x :: recordings events := rfl
          have hnext : (step s (.dht11Handle x)).recorder = dht11Handle s.recorder x := rfl
          rw [run_cons, ih, hcons, evaluations, hnext, dht11Handle_flag]
          split_ifs with he
          · rw [alarmCheck_up_iff he]
            simp only [List.mem_cons, exists_eq_or_imp, or_assoc]
          · rw [alarmCheck_keeps fun h => he h.1]
      | ps2Handle ps2KEY => exact hquiet rfl rfl
      | irqCallback => exact hquiet rfl rfl
      | keyHandle => exact hquiet (keyHandle_frame s).1 rfl
      | hardwareEntry detectPin => exact hquiet (hardwareEntry_frame s detectPin).1 rfl

/-- The test of `people_detect` after any run. -/
theorem detects_run (r : Readings) (events : List Event) (detectPin : Bool) :
    Detects (run step (System.boot r) events) detectPin ↔ Active r events detectPin := by
  have hpulse : Pulsing (run pulse 0 events) (run step (System.boot r) events) :=
    pulsing_run ⟨Nat.zero_le _, rfl, rfl⟩ events
  have hvalue : (run step (System.boot r) events).beepValue =
      if run pollKey 0 events ≠ 0 then 1 else 0 := beepValue_run rfl events
  have hkey : (run step (System.boot r) events).beepValue = 1 ↔ run pollKey 0 events ≠ 0 := by
    rw [hvalue]
    by_cases h : run pollKey 0 events = 0
    · rw [if_neg (not_not.mpr h)]
      exact iff_of_false (by decide) (not_not.mpr h)
    · rw [if_pos h]
      exact iff_of_true rfl h
  have hflag : (run step (System.boot r) events).beepValue2 = 1 ↔ 0 < run pulse 0 events := by
    rw [hpulse.flag, Nat.pos_iff_ne_zero]
    by_cases h : run pulse 0 events = 0
    · rw [if_pos h]
      exact iff_of_false (by decide) (not_not.mpr h)
    · rw [if_neg h]
      exact iff_of_true rfl h
  have halarm := beepValue3_run (System.boot r) events
  have hdown : ¬ (System.boot r).recorder.beepValue3 = 1 := by
    change ¬ (0 : Byte) = 1
    decide
  rw [or_iff_right hdown] at halarm
  exact or_congr Iff.rfl (or_congr hkey (or_congr hflag halarm))

/-! ### What is switched -/

/-- The thread and the outputs a run leaves it with. -/
def Switched (s : System) (place : Place) (o : Outputs) : Prop := s.place = place ∧ s.outputs = o

theorem switched_alarm {s : System} (hplace : s.place = .detect) {detectPin : Bool}
    (h : Detects s detectPin) : Switched (hardwareEntry s detectPin) .alarm s.outputs := by
  unfold hardwareEntry
  rw [hplace]
  dsimp only
  rw [if_pos h]
  exact ⟨rfl, rfl⟩

theorem switched_pause {s : System} (hplace : s.place = .detect) {detectPin : Bool}
    (h : ¬ Detects s detectPin) : Switched (hardwareEntry s detectPin) .pause Outputs.off := by
  unfold hardwareEntry
  rw [hplace]
  dsimp only
  rw [if_neg h]
  exact ⟨rfl, rfl⟩

/-- Only the hardware thread switches. -/
theorem step_switched {s : System} {place : Place} {o : Outputs} (h : Switched s place o)
    {e : Event} (he : ∀ detectPin, e ≠ .hardwareEntry detectPin) : Switched (step s e) place o := by
  cases e with
  | dht11Handle x => exact h
  | ps2Handle ps2KEY => exact h
  | irqCallback => exact h
  | keyHandle => exact ⟨(keyHandle_frame s).2.2.1.trans h.1, (keyHandle_frame s).2.2.2.trans h.2⟩
  | hardwareEntry detectPin => exact absurd rfl (he detectPin)

theorem run_switched {s : System} {place : Place} {o : Outputs} (h : Switched s place o)
    {events : List Event} (hevents : ∀ detectPin, .hardwareEntry detectPin ∉ events) :
    Switched (run step s events) place o := by
  induction events generalizing s with
  | nil => exact h
  | cons e events ih =>
      apply ih
      · exact step_switched h fun detectPin he => hevents detectPin (he ▸ List.mem_cons_self)
      · exact fun detectPin hmem => hevents detectPin (List.mem_cons_of_mem e hmem)

theorem outputs_cases (r : Readings) (events : List Event) :
    (run step (System.boot r) events).outputs = Outputs.on ∨
      (run step (System.boot r) events).outputs = Outputs.off := by
  have hstep (s : System) (e : Event) (h : s.outputs = Outputs.on ∨ s.outputs = Outputs.off) :
      (step s e).outputs = Outputs.on ∨ (step s e).outputs = Outputs.off := by
    cases e with
    | hardwareEntry detectPin =>
        simp only [step, hardwareEntry]
        split
        · split_ifs
          · exact h
          · exact Or.inr rfl
        · exact Or.inl rfl
        · exact h
    | dht11Handle x => exact h
    | ps2Handle ps2KEY => exact h
    | irqCallback => exact h
    | keyHandle => exact (keyHandle_frame s).2.2.2.symm ▸ h
  exact run_invariant step hstep (Or.inr rfl) events

/-- Beeper and LED are switched together in every run. Whatever the other threads do in
between: when the hardware thread has run on once more after a reading, both are on if a source
was active at the reading, and both off if none was. -/
theorem sources_shown (r : Readings) (events waiting : List Event) (detectPin detectPin' : Bool)
    (hplace : (run step (System.boot r) events).place = .detect)
    (hwaiting : ∀ pin, .hardwareEntry pin ∉ waiting) :
    (∀ any, (run step (System.boot r) any).outputs = Outputs.on ∨
      (run step (System.boot r) any).outputs = Outputs.off) ∧
    let o := (run step (System.boot r)
      (events ++ .hardwareEntry detectPin :: waiting ++ [.hardwareEntry detectPin'])).outputs
    (o = Outputs.on ∨ o = Outputs.off) ∧ (o = Outputs.on ↔ Active r events detectPin) := by
  refine ⟨outputs_cases r, ?_⟩
  intro o
  refine ⟨outputs_cases r _, ?_⟩
  have hdetects := detects_run r events detectPin
  have ho : o = (hardwareEntry (run step
      (hardwareEntry (run step (System.boot r) events) detectPin) waiting) detectPin').outputs := by
    simp only [o, run_append, run_cons, run_nil]
    rfl
  rw [ho, ← hdetects]
  generalize run step (System.boot r) events = s at hplace
  by_cases h : Detects s detectPin
  · obtain ⟨hlater, -⟩ := run_switched (switched_alarm hplace h) hwaiting
    rw [hardwareEntry, hlater]
    exact iff_of_true rfl h
  · obtain ⟨hlater, hoff⟩ := run_switched (switched_pause hplace h) hwaiting
    rw [hardwareEntry, hlater]
    dsimp only
    rw [hoff]
    exact iff_of_false (by decide) h

/-- A press before the reading and another event during the wait. -/
theorem sources_shown_press :
    let o := (run step (System.boot Readings.boot)
      ([.irqCallback] ++ .hardwareEntry false :: [.ps2Handle 0] ++ [.hardwareEntry false])).outputs
    o = Outputs.on := by
  have h := sources_shown Readings.boot [.irqCallback] [.ps2Handle 0] false false rfl
    fun pin h => by simp at h
  exact h.2.2.mpr (Or.inr (Or.inr (Or.inl (by decide))))

/-! ### A pulse on the clock -/

/-- The ticks of the last pass of the key thread and of the last reading. -/
structure Clocked where
  threads : System
  lastPass : Option ℕ
  lastReading : Option ℕ
  now : ℕ

def Clocked.boot (r : Readings) : Clocked := ⟨System.boot r, none, none, 0⟩

def Event.isPass : Event → Bool
  | .keyHandle => true
  | _ => false

def Event.isHardware : Event → Bool
  | .hardwareEntry _ => true
  | _ => false

/-- The hardware thread tests the sources. -/
def Reads (c : Clocked) (e : ℕ × Event) : Prop :=
  c.threads.place = .detect ∧ e.2.isHardware = true

instance (c : Clocked) (e : ℕ × Event) : Decidable (Reads c e) :=
  inferInstanceAs (Decidable (_ ∧ _))

def tick (c : Clocked) (e : ℕ × Event) : Clocked :=
  ⟨step c.threads e.2, if e.2.isPass = true then some e.1 else c.lastPass,
    if Reads c e then some e.1 else c.lastReading, e.1⟩

/-- The pace assumed of a run. Two passes are ten ticks apart at least, by
`rt_thread_mdelay(10)`. No pass comes 250 ticks or more after the latest reading: the waits of
200 and 50 milliseconds give this if the hardware thread runs on as soon as each is over and,
of two sleepers due in one tick, the one that fell asleep first comes first. -/
structure Paced (c : Clocked) (e : ℕ × Event) : Prop where
  now : c.now ≤ e.1
  pass : e.2.isPass = true → ∀ k, c.lastPass = some k → k + 10 ≤ e.1
  order : e.2.isPass = true → ∀ h, c.lastReading = some h → e.1 < h + 250

/-- A pulse begun since the reading at `h`. -/
structure Pending (h : ℕ) (c : Clocked) : Prop where
  flag : c.threads.beepValue2 = 1
  bound : c.threads.i.toNat ≤ 25
  reading : c.lastReading = some h
  now : h ≤ c.now
  passes : c.threads.i = 0 ∨ ∃ k, c.lastPass = some k ∧ h + 10 * c.threads.i.toNat ≤ k + 10

theorem Pending.pass {h : ℕ} {c : Clocked} (hc : Pending h c) {t : ℕ}
    (hp : Paced c (t, .keyHandle)) : Pending h (tick c (t, .keyHandle)) := by
  have hsince : h + 10 * c.threads.i.toNat ≤ t := by
    rcases hc.passes with hzero | ⟨k, hk, hpasses⟩
    · rw [hzero]
      exact hc.now.trans hp.now
    · exact hpasses.trans (hp.pass rfl k hk)
  have hbefore : t < h + 250 := hp.order rfl h hc.reading
  have hnext : ¬ c.threads.i ≥ 25 := fun hend => by
    have hle : 25 ≤ c.threads.i.toNat := BitVec.le_def.mp hend
    omega
  have hpass : keyHandle c.threads = { c.threads with i := c.threads.i + 1 } := by
    rw [keyHandle, if_pos hc.flag, if_neg hnext]
  have hsucc : (c.threads.i + 1).toNat = c.threads.i.toNat + 1 :=
    byte_succ (hc.bound.trans_lt (by decide))
  have hthreads : (tick c (t, .keyHandle)).threads = { c.threads with i := c.threads.i + 1 } :=
    hpass
  refine ⟨?_, ?_, ?_, hc.now.trans hp.now, Or.inr ⟨t, rfl, ?_⟩⟩
  · rw [hthreads]
    exact hc.flag
  · rw [hthreads]
    change (c.threads.i + 1).toNat ≤ 25
    omega
  · have hread : ¬ Reads c (t, .keyHandle) := fun hread => Bool.false_ne_true hread.2
    simp only [tick, if_neg hread]
    exact hc.reading
  · rw [hthreads]
    change h + 10 * (c.threads.i + 1).toNat ≤ t + 10
    omega

/-- Until the next reading the flag stays up. -/
theorem Pending.tick {h : ℕ} {c : Clocked} (hc : Pending h c) {e : ℕ × Event} (hp : Paced c e)
    (hread : ¬ Reads c e) : Pending h (tick c e) := by
  obtain ⟨t, e⟩ := e
  have hreading : (if Reads c (t, e) then some t else c.lastReading) = some h := by
    rw [if_neg hread]
    exact hc.reading
  have hframe (hpass : e.isPass = false) (hflag : (step c.threads e).beepValue2 = 1)
      (hi : (step c.threads e).i = c.threads.i) : Pending h (AlarmPulse.tick c (t, e)) := by
    refine ⟨hflag, hi ▸ hc.bound, hreading, hc.now.trans hp.now, ?_⟩
    simp only [AlarmPulse.tick, hi, hpass]
    exact hc.passes
  cases e with
  | dht11Handle x => exact hframe rfl hc.flag rfl
  | ps2Handle ps2KEY => exact hframe rfl hc.flag rfl
  | irqCallback => exact hframe rfl rfl rfl
  | keyHandle => exact hc.pass hp
  | hardwareEntry detectPin =>
      obtain ⟨-, -, hflag, hi⟩ := hardwareEntry_frame c.threads detectPin
      exact hframe rfl (hflag.trans hc.flag) hi

/-- What a paced run keeps. -/
structure Kept (c : Clocked) : Prop where
  pulsing : ∃ left, Pulsing left c.threads
  reading : ∀ h, c.lastReading = some h → h ≤ c.now

theorem Kept.tick {c : Clocked} (hc : Kept c) {e : ℕ × Event} (hp : Paced c e) :
    Kept (tick c e) := by
  obtain ⟨left, hleft⟩ := hc.pulsing
  refine ⟨⟨pulse left e.2, hleft.step e.2⟩, fun h hh => ?_⟩
  change (if Reads c e then some e.1 else c.lastReading) = some h at hh
  change h ≤ e.1
  split_ifs at hh with hread
  · exact (Option.some.inj hh).ge
  · exact (hc.reading h hh).trans hp.now

theorem kept_run {c : Clocked} (hc : Kept c) {events : List (ℕ × Event)}
    (hp : Always tick Paced c events) : Kept (run tick c events) := by
  induction events generalizing c with
  | nil => exact hc
  | cons e events ih => exact ih (hc.tick hp.1) hp.2

/-- A press that finds no pulse running begins one. -/
theorem Kept.press {c : Clocked} (hc : Kept c) (hidle : c.threads.beepValue2 = 0) {t h : ℕ}
    (hh : c.lastReading = some h) (hp : Paced c (t, .irqCallback)) :
    Pending h (AlarmPulse.tick c (t, .irqCallback)) := by
  obtain ⟨left, hleft⟩ := hc.pulsing
  have hover : left = 0 := by
    by_contra hne
    have hup := hleft.flag
    rw [hidle, if_neg hne] at hup
    exact absurd hup (by decide)
  have hpasses := hleft.passes
  rw [if_pos hover] at hpasses
  have hnone : ¬ Reads c (t, .irqCallback) := fun hread => Bool.false_ne_true hread.2
  refine ⟨rfl, hpasses.le.trans (Nat.zero_le 25), ?_, (hc.reading h hh).trans hp.now,
    Or.inl (BitVec.eq_of_toNat_eq hpasses)⟩
  simp only [AlarmPulse.tick, if_neg hnone]
  exact hh

theorem pending_run {h : ℕ} {c : Clocked} (hc : Pending h c) {events : List (ℕ × Event)}
    (hp : Always tick Paced c events) (hread : Always tick (fun c e => ¬ Reads c e) c events) :
    Pending h (run tick c events) := by
  induction events generalizing c with
  | nil => exact hc
  | cons e events ih => exact ih (hc.tick hp.1 hread.1) hp.2 hread.2

/-- Once the flags have been read, a press that finds no pulse running is never missed at this
pace: the next reading finds the flag up, and whatever the other threads do then, the hardware
thread's next step switches on. -/
theorem press_sounds {r : Readings} {before between : List (ℕ × Event)} {t t' h : ℕ}
    {detectPin : Bool}
    (hp : Always tick Paced (Clocked.boot r)
      (before ++ (t, .irqCallback) :: between ++ [(t', .hardwareEntry detectPin)]))
    (hh : (run tick (Clocked.boot r) before).lastReading = some h)
    (hidle : (run tick (Clocked.boot r) before).threads.beepValue2 = 0)
    (hbetween : Always tick (fun c e => ¬ Reads c e)
      (run tick (Clocked.boot r) (before ++ [(t, .irqCallback)])) between)
    (hread : (run tick (Clocked.boot r) (before ++ (t, .irqCallback) :: between)).threads.place =
      .detect) :
    ∀ waiting detectPin', (∀ pin, .hardwareEntry pin ∉ waiting) →
      (run step (run tick (Clocked.boot r)
          (before ++ (t, .irqCallback) :: between ++ [(t', .hardwareEntry detectPin)])).threads
        (waiting ++ [.hardwareEntry detectPin'])).outputs = Outputs.on := by
  have hsplit : before ++ (t, Event.irqCallback) :: between =
      before ++ [(t, .irqCallback)] ++ between := by
    rw [List.append_assoc, List.singleton_append]
  rw [hsplit] at hp hread ⊢
  rw [always_append, always_append, always_append] at hp
  obtain ⟨⟨⟨hpbefore, hppress⟩, hpbetween⟩, -⟩ := hp
  have hboot : Kept (Clocked.boot r) :=
    ⟨⟨0, Nat.zero_le _, rfl, rfl⟩, fun h hh => by cases hh⟩
  have hkept := kept_run hboot hpbefore
  rw [run_concat] at hpbetween hbetween
  rw [run_append, run_concat] at hread
  rw [run_append _ _ _ [_], run_append _ _ _ between, run_concat]
  generalize run tick (Clocked.boot r) before = c at *
  have hpending := pending_run (hkept.press hidle hh hppress.1) hpbetween hbetween
  generalize run tick (tick c (t, .irqCallback)) between = c' at *
  intro waiting detectPin' hwaiting
  have halarm : Switched (run tick c' [(t', .hardwareEntry detectPin)]).threads .alarm
      c'.threads.outputs := by
    exact switched_alarm hread (Or.inr (Or.inr (Or.inl hpending.flag)))
  obtain ⟨hlater, -⟩ := run_switched halarm hwaiting
  rw [run_concat]
  change (hardwareEntry _ detectPin').outputs = Outputs.on
  rw [hardwareEntry, hlater]
  rfl

theorem press_sounds_once :
    (run step (run tick (Clocked.boot Readings.boot)
        ([(2000, .hardwareEntry false)] ++ (2040, .irqCallback) ::
          [(2045, .keyHandle), (2050, .hardwareEntry false)] ++
          [(2050, .hardwareEntry false)])).threads
      ([.keyHandle] ++ [.hardwareEntry false])).outputs = Outputs.on := by
  have hpaced : Always tick Paced (Clocked.boot Readings.boot)
      ([(2000, .hardwareEntry false)] ++ (2040, .irqCallback) ::
        [(2045, .keyHandle), (2050, .hardwareEntry false)] ++ [(2050, .hardwareEntry false)]) := by
    refine ⟨⟨?_, ?_, ?_⟩, ⟨?_, ?_, ?_⟩, ⟨?_, ?_, ?_⟩, ⟨?_, ?_, ?_⟩, ⟨?_, ?_, ?_⟩, trivial⟩
    all_goals simp [tick, Clocked.boot, Event.isPass, Event.isHardware, Reads, step, System.boot,
      hardwareEntry, Detects, keyHandle, Recorder.boot]
  have hkey (pin : Bool) : Event.hardwareEntry pin ∉ [Event.keyHandle] := fun h => by
    cases List.mem_singleton.mp h
  exact (press_sounds hpaced rfl rfl
    ⟨fun h => Bool.false_ne_true h.2, fun h => absurd h.1 (by decide), trivial⟩ rfl)
    [.keyHandle] false hkey

end ExpertCar.AlarmPulse
