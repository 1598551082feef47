import ExpertCar.RecordStore

/-!
# Showing a record again

One pass of the loop of `aht10_handle`: the live texts of the current readings
and, while `key_flag` is 1, the texts of the chosen row of `review_buf`. The two
use different scalings, and a row holds bytes, so a record is shown as it was
recorded only for a few readings.
-/
namespace ExpertCar.RecordReplay
open HumidityReading RecordStore DecimalText

structure Shared where
  adcValue0 : BitVec 16
  adcValue1 : BitVec 16
  data : Frame
  peopleNumber : Byte
  reviewBuf : ℕ → Fin 3 → Byte
  buf : Byte
  keyFlag : Byte

/-- The text buffers, each up to its terminating zero. -/
structure Buffers where
  powerBuf : List Char
  detectBuf : List Char
  humidityBuf : List Char
  temperatureBuf : List Char
  peopleBuf : List Char
  string1 : List Char
  string2 : List Char
  string3 : List Char
  string4 : List Char

def voltage1 (adcValue0 : BitVec 16) : ℕ := adcValue0.toNat * 330 / 4096

/-- `"volt:%d.%d V"` -/
def powerText (adcValue0 : BitVec 16) : List Char :=
  "volt:".toList ++ pointed (voltage1 adcValue0 / 100 * 11) (voltage1 adcValue0 % 100 * 11 + 160)
    ++ " V".toList

def reviewTexts (row : Fin 3 → Byte) (buf : Byte) (b : Buffers) : Buffers :=
  { b with
    string1 := pointed02 ((row 2).toNat / 25) ((row 2).toNat * 4)
    string2 := pointed (row 0).toNat ((row 0).toNat * 10 % 10)
    string3 := pointed (row 1).toNat ((row 1).toNat * 10 % 10)
    string4 := " note:".toList ++ decimal buf.toNat }

def blankTexts (b : Buffers) : Buffers :=
  { b with string1 := [], string2 := [], string3 := [], string4 := [] }

/-- The texts one pass of the loop of `aht10_handle` leaves in the buffers. -/
def aht10Handle (b : Buffers) (g : Shared) : Buffers :=
  let b := { b with
    powerBuf := powerText g.adcValue0
    detectBuf := pointed02 (g.adcValue1.toNat / 25) (g.adcValue1.toNat * 4)
    humidityBuf := pointed (g.data 0).toNat (g.data 1).toNat
    temperatureBuf := pointed (g.data 2).toNat (g.data 3).toNat
    peopleBuf := decimal g.peopleNumber.toNat }
  if g.keyFlag = 1 then reviewTexts (g.reviewBuf g.buf.toNat) g.buf b
  else if g.keyFlag = 0 then blankTexts b
  else b

theorem aht10Handle_review (b : Buffers) {g : Shared} (h : g.keyFlag = 1) :
    (aht10Handle b g).string1 = pointed02 ((g.reviewBuf g.buf.toNat 2).toNat / 25)
        ((g.reviewBuf g.buf.toNat 2).toNat * 4) ∧
      (aht10Handle b g).string2 = pointed (g.reviewBuf g.buf.toNat 0).toNat
        ((g.reviewBuf g.buf.toNat 0).toNat * 10 % 10) ∧
      (aht10Handle b g).string3 = pointed (g.reviewBuf g.buf.toNat 1).toNat
        ((g.reviewBuf g.buf.toNat 1).toNat * 10 % 10) := by
  unfold aht10Handle
  rw [if_pos h]
  exact ⟨rfl, rfl, rfl⟩

theorem aht10Handle_live (b : Buffers) (g : Shared) :
    (aht10Handle b g).detectBuf = pointed02 (g.adcValue1.toNat / 25) (g.adcValue1.toNat * 4) ∧
      (aht10Handle b g).temperatureBuf = pointed (g.data 2).toNat (g.data 3).toNat ∧
      (aht10Handle b g).humidityBuf = pointed (g.data 0).toNat (g.data 1).toNat := by
  unfold aht10Handle
  split_ifs <;> exact ⟨rfl, rfl, rfl⟩

/-! ### What the store key leaves in its row -/

theorem storeRecord_row (adcValue1 : BitVec 16) (s : Recorder) :
    (storeRecord adcValue1 s).reviewBuf s.number.toNat 0 =
        packed (s.readings.data 2) (s.readings.data 3) ∧
      (storeRecord adcValue1 s).reviewBuf s.number.toNat 1 =
        packed (s.readings.data 0) (s.readings.data 1) ∧
      (storeRecord adcValue1 s).reviewBuf s.number.toNat 2 = adcValue1.setWidth 8 := by
  simp [storeRecord, setCell, Function.update]

/-- An iteration with the store key records the readings it ends with. -/
theorem dht11Handle_row {s : Recorder} {x : Input} (h : x.ps2KEY = 13) :
    (dht11Handle s x).reviewBuf s.number.toNat 0 =
        packed ((dht11Handle s x).readings.data 2) ((dht11Handle s x).readings.data 3) ∧
      (dht11Handle s x).reviewBuf s.number.toNat 1 =
        packed ((dht11Handle s x).readings.data 0) ((dht11Handle s x).readings.data 1) ∧
      (dht11Handle s x).reviewBuf s.number.toNat 2 = x.adcValue1.setWidth 8 := by
  have hstep : dht11Handle s x = storeRecord x.adcValue1 (sense x.frame (alarmCheck s)) := by
    rw [dht11Handle, h]
    rfl
  have hnumber : (sense x.frame (alarmCheck s)).number = s.number :=
    (sense_frame x.frame _).1.trans (alarmCheck_frame s).1
  have hrow := storeRecord_row x.adcValue1 (sense x.frame (alarmCheck s))
  rw [hnumber] at hrow
  rw [hstep]
  exact hrow

/-! ### Which readings survive -/

/-- A two-digit reading survives the packing only if it is zero. -/
theorem packed_text_iff {value decimal : Byte} (hv : value.toNat ≤ 99) :
    pointed (packed value decimal).toNat ((packed value decimal).toNat * 10 % 10) =
        pointed value.toNat decimal.toNat ↔
      value.toNat = 0 ∧ decimal.toNat = 0 := by
  have hpacked : (packed value decimal).toNat = (value.toNat * 10 + decimal.toNat) % 256 := rfl
  rw [pointed_inj, hpacked, Nat.mul_mod_left]
  constructor
  · rintro ⟨hint, hdec⟩
    -- nine times the value is a multiple of 256
    rw [← hdec, Nat.add_zero] at hint
    omega
  · rintro ⟨hv0, hd0⟩
    rw [hv0, hd0]
    exact ⟨rfl, rfl⟩

/-- A smoke reading survives the truncation only if it fits into a byte. -/
theorem truncated_text_iff (adcValue1 : BitVec 16) :
    pointed02 ((adcValue1.setWidth 8).toNat / 25) ((adcValue1.setWidth 8).toNat * 4) =
        pointed02 (adcValue1.toNat / 25) (adcValue1.toNat * 4) ↔
      adcValue1.toNat < 256 := by
  have htrunc : (adcValue1.setWidth 8).toNat = adcValue1.toNat % 256 := by simp
  rw [pointed02_inj, htrunc]
  omega

structure InRange (data : Frame) (adcValue1 : BitVec 16) : Prop where
  humidity : (data 0).toNat ≤ 99
  humidityDecimal : (data 1).toNat ≤ 9
  temperature : (data 2).toNat ≤ 99
  temperatureDecimal : (data 3).toNat ≤ 9
  smoke : adcValue1.toNat ≤ 4095

/-- The iteration from `s` with input `x` stores a record; `live` shows its
readings, and `later` shows its row, not written again since. -/
structure Replays (s : Recorder) (x : Input) (live later : Shared) : Prop where
  key : x.ps2KEY = 13
  row : s.number.toNat < rows
  liveData : live.data = (dht11Handle s x).readings.data
  liveSmoke : live.adcValue1 = x.adcValue1
  keyFlag : later.keyFlag = 1
  buf : later.buf = s.number
  kept : later.reviewBuf s.number.toNat = (dht11Handle s x).reviewBuf s.number.toNat

def SameTexts (live later : Buffers) : Prop :=
  later.string1 = live.detectBuf ∧ later.string2 = live.temperatureBuf ∧
    later.string3 = live.humidityBuf

/-- A record is shown with the texts of its readings exactly when temperature and
humidity are 0.0 and the smoke reading is below 256. -/
theorem replay_sameTexts_iff {s : Recorder} {x : Input} {live later : Shared}
    (h : Replays s x live later) (hrange : InRange live.data live.adcValue1) (b b' : Buffers) :
    SameTexts (aht10Handle b live) (aht10Handle b' later) ↔
      live.adcValue1.toNat < 256 ∧
        ((live.data 2).toNat = 0 ∧ (live.data 3).toNat = 0) ∧
        ((live.data 0).toNat = 0 ∧ (live.data 1).toNat = 0) := by
  obtain ⟨hdetect, htemperature, hhumidity⟩ := aht10Handle_live b live
  obtain ⟨h1, h2, h3⟩ := aht10Handle_review b' h.keyFlag
  obtain ⟨hrow0, hrow1, hrow2⟩ := dht11Handle_row (s := s) h.key
  rw [← h.liveData] at hrow0 hrow1
  rw [← h.liveSmoke] at hrow2
  rw [SameTexts, hdetect, htemperature, hhumidity, h1, h2, h3, h.buf, h.kept, hrow0, hrow1, hrow2,
    truncated_text_iff, packed_text_iff hrange.temperature,
    packed_text_iff hrange.humidity]

def noTexts : Buffers := ⟨[], [], [], [], [], [], [], [], []⟩

def holding (data : Frame) : Recorder := Recorder.boot ⟨data, fun _ => 0, []⟩

/-- The globals after one iteration with the store key, with `key_flag` as given. -/
def shownAfterStore (data : Frame) (smoke : BitVec 16) (keyFlag : Byte) : Shared :=
  ⟨0, smoke, data, 0, (dht11Handle (holding data) ⟨13, smoke, fun _ => 0⟩).reviewBuf, 0, keyFlag⟩

theorem shownAfterStore_replays (data : Frame) (smoke : BitVec 16) :
    Replays (holding data) ⟨13, smoke, fun _ => 0⟩ (shownAfterStore data smoke 0)
      (shownAfterStore data smoke 1) :=
  ⟨rfl, (by decide : 0 < rows), rfl, rfl, rfl, rfl, rfl⟩

/-- Zero readings and little smoke are shown again as they were. -/
theorem zero_readings_replayed :
    SameTexts (aht10Handle noTexts (shownAfterStore (fun _ => 0) 200 0))
      (aht10Handle noTexts (shownAfterStore (fun _ => 0) 200 1)) :=
  (replay_sameTexts_iff (shownAfterStore_replays (fun _ => 0) 200)
    ⟨by decide, by decide, by decide, by decide, by decide⟩ noTexts noTexts).mpr (by decide)

def warmData : Frame := ![50, 0, 25, 5, 80]

/-- The temperature 25.5 comes back as `255.0`. -/
theorem warm_reading_not_replayed :
    Replays (holding warmData) ⟨13, 100, fun _ => 0⟩ (shownAfterStore warmData 100 0)
        (shownAfterStore warmData 100 1) ∧
      InRange warmData 100 ∧
      ¬ SameTexts (aht10Handle noTexts (shownAfterStore warmData 100 0))
        (aht10Handle noTexts (shownAfterStore warmData 100 1)) := by
  refine ⟨shownAfterStore_replays warmData 100, ?_, ?_⟩
  · exact ⟨by decide, by decide, by decide, by decide, by decide⟩
  · intro h
    exact absurd h.2.1 (by decide)

end ExpertCar.RecordReplay
