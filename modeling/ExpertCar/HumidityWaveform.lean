import ExpertCar.BitOrder
import ExpertCar.HumidityReading
import ExpertCar.TimedLine

/-!
# The humidity sensor on its wire

`dht11_start`, `dht11_read_byte` and `dht11_read` over the waveform the sensor
puts on the data line. A transmission carries its timing with it: what is sent
as a bit is a low phase at least as long as the sampling delay and a high phase
that outlasts the delay exactly for a one. On such a line the calls terminate
and return the bytes sent; what `dht11_read` makes of them is decided by its
checksum test alone.
-/
namespace ExpertCar.HumidityWaveform
open TimedLine HumidityReading

/-- `delay_us(x)` calls `rt_hw_us_delay(x/2)`. -/
def delayUs (x : ℕ) : Line → Line := Line.delay (x / 2)

/-- The three waits of `dht11_start` once the pin is an input. -/
def dht11Start (l : Line) : Option Line := do
  let l ← l.waitWhile true
  let l ← l.waitWhile false
  l.waitWhile true

/-- One pass of the loop of `dht11_read_byte`, with the bit it finds. -/
def dht11ReadBit (l : Line) : Option (Bool × Line) := do
  let l ← l.waitWhile false
  let l := delayUs 50 l
  if l.level = true then
    let l ← l.waitWhile true
    return (true, l)
  else
    return (false, l)

def dht11ReadBits : ℕ → Byte → Line → Option (Byte × Line)
  | 0, readData, l => some (readData, l)
  | n + 1, readData, l => do
      let (temp, l) ← dht11ReadBit l
      dht11ReadBits n (BitOrder.shiftIn readData temp) l

def dht11ReadByte (l : Line) : Option (Byte × Line) := dht11ReadBits 8 0 l

/-- `for(i ...) dht11_data[i] = dht11_read_byte();` over the given indices. -/
def dht11Fill : List (Fin 5) → Frame → Line → Option (Frame × Line)
  | [], data, l => some (data, l)
  | i :: is, data, l => do
      let (byte, l) ← dht11ReadByte l
      dht11Fill is (Function.update data i byte) l

/-- `dht11_read` on the line; nothing is returned if a wait never ends. -/
def dht11ReadLine (l : Line) (r : Readings) : Option (Readings × Line) := do
  let l ← dht11Start l
  let (data, l) ← dht11Fill (List.finRange 5) r.data l
  return (acceptData { r with data := data }, l)

/-! ### What the sensor sends -/

def samplingDelay : ℕ := 50 / 2

structure BitTiming (b : Bool) where
  low : ℕ
  high : ℕ
  covers : samplingDelay ≤ low
  pos : 0 < high
  outlasts : samplingDelay < high ↔ b = true

/-- The timed bits of a word and the low phase that closes it. -/
inductive Waveform : List Bool → Type
  | stop (low : ℕ) (covers : samplingDelay ≤ low) : Waveform []
  | send {b : Bool} {bs : List Bool} (t : BitTiming b) (w : Waveform bs) : Waveform (b :: bs)

def Waveform.low {bs : List Bool} : Waveform bs → ℕ
  | .stop low _ => low
  | .send t _ => t.low

theorem Waveform.covers {bs : List Bool} (w : Waveform bs) : samplingDelay ≤ w.low := by
  cases w with
  | stop low covers => exact covers
  | send t w => exact t.covers

theorem Waveform.low_pos {bs : List Bool} (w : Waveform bs) : 0 < w.low :=
  Nat.lt_of_lt_of_le (by decide) w.covers

def Waveform.tail {bs : List Bool} : Waveform bs → List Phase
  | .stop _ _ => []
  | .send t w => ⟨true, t.high, t.pos⟩ :: ⟨false, w.low, w.low_pos⟩ :: w.tail

/-- The frame's bits, each byte most significant bit first. -/
def frameBits (f : Frame) : List Bool := (List.finRange 5).flatMap fun i => BitOrder.msbFirst (f i)

/-- A whole answer: the line released, the two response phases, then the bits. -/
structure Transmission (f : Frame) where
  release : ℕ
  releasePos : 0 < release
  responseLow : ℕ
  responseLowPos : 0 < responseLow
  responseHigh : ℕ
  responseHighPos : 0 < responseHigh
  bits : Waveform (frameBits f)

/-- The line while the sensor answers; afterwards the pull-up holds it high. -/
def Transmission.line {f : Frame} (t : Transmission f) : Line :=
  ⟨⟨true, t.release, t.releasePos⟩ :: ⟨false, t.responseLow, t.responseLowPos⟩ ::
    ⟨true, t.responseHigh, t.responseHighPos⟩ :: ⟨false, t.bits.low, t.bits.low_pos⟩ ::
    t.bits.tail, true⟩

/-! ### Reading it back -/

/-- The line stands in the opening low phase of `w`, some of it already over. -/
def At (l : Line) {bs : List Bool} (w : Waveform bs) : Prop :=
  ∃ (n : ℕ) (h : 0 < n), l = ⟨⟨false, n, h⟩ :: w.tail, true⟩

theorem dht11Start_at {f : Frame} (t : Transmission f) :
    ∃ l, dht11Start t.line = some l ∧ At l t.bits := by
  refine ⟨_, ?_, t.bits.low, t.bits.low_pos, rfl⟩
  unfold dht11Start Transmission.line
  rw [waitWhile_high, Option.bind_eq_bind, Option.bind_some, waitWhile_low,
    Option.bind_some, waitWhile_high]

theorem dht11ReadBit_at {l : Line} {b : Bool} {bs : List Bool} {t : BitTiming b}
    {w : Waveform bs} (h : At l (.send t w)) :
    ∃ l', dht11ReadBit l = some (b, l') ∧ At l' w := by
  obtain ⟨n, hn, rfl⟩ := h
  have hdelay : delayUs 50 = Line.delay samplingDelay := rfl
  simp only [dht11ReadBit, Waveform.tail, hdelay]
  rw [waitWhile_low, Option.bind_eq_bind, Option.bind_some]
  cases b with
  | true =>
      -- sampled inside the high phase, whose end is then awaited
      have hlong : samplingDelay < t.high := t.outlasts.mpr rfl
      refine ⟨⟨⟨false, w.low, w.low_pos⟩ :: w.tail, true⟩, ?_, w.low, w.low_pos, rfl⟩
      rw [delay_within hlong, level_phase, if_pos rfl, waitWhile_high]
      rfl
  | false =>
      -- sampled inside the low phase that follows, some of which is then over
      have hshort : t.high ≤ samplingDelay := by
        by_contra hlong
        exact absurd (t.outlasts.mp (by omega)) (by decide)
      have hrest : samplingDelay - t.high < w.low := by
        have := t.pos
        have := w.covers
        omega
      refine ⟨⟨⟨false, w.low - (samplingDelay - t.high), Nat.sub_pos_of_lt hrest⟩ :: w.tail,
        true⟩, ?_, _, Nat.sub_pos_of_lt hrest, rfl⟩
      rw [delay_beyond hshort, delay_within hrest, level_phase, if_neg (by decide)]
      rfl

theorem dht11ReadBits_at (bits : List Bool) {bs : List Bool} {l : Line}
    {w : Waveform (bits ++ bs)} (h : At l w) (readData : Byte) :
    ∃ (l' : Line) (w' : Waveform bs),
      dht11ReadBits bits.length readData l = some (bits.foldl BitOrder.shiftIn readData, l') ∧
        At l' w' := by
  induction bits generalizing l readData with
  | nil => exact ⟨l, w, rfl, h⟩
  | cons b bits ih =>
      cases w with
      | send t w =>
          obtain ⟨l₁, hbit, h₁⟩ := dht11ReadBit_at h
          obtain ⟨l', w', hbits, h'⟩ := ih h₁ (BitOrder.shiftIn readData b)
          refine ⟨l', w', ?_, h'⟩
          rw [List.length_cons, dht11ReadBits, hbit]
          exact hbits

theorem dht11ReadByte_at (x : Byte) {bs : List Bool} {l : Line}
    {w : Waveform (BitOrder.msbFirst x ++ bs)} (h : At l w) :
    ∃ (l' : Line) (w' : Waveform bs), dht11ReadByte l = some (x, l') ∧ At l' w' := by
  obtain ⟨l', w', hread, h'⟩ := dht11ReadBits_at (BitOrder.msbFirst x) h 0
  rw [BitOrder.msbFirst_length] at hread
  refine ⟨l', w', ?_, h'⟩
  rw [dht11ReadByte, hread]
  exact congrArg (fun y => some (y, l')) (BitOrder.foldl_shiftIn_msbFirst x)

theorem dht11Fill_at (f : Frame) (is : List (Fin 5)) {l : Line}
    {w : Waveform (is.flatMap fun i => BitOrder.msbFirst (f i))} (h : At l w) (data : Frame) :
    ∃ l', dht11Fill is data l = some (ArrayLoops.store f data is, l') := by
  induction is generalizing l data with
  | nil => exact ⟨l, rfl⟩
  | cons i is ih =>
      obtain ⟨l₁, w₁, hbyte, h₁⟩ := dht11ReadByte_at (f i) h
      obtain ⟨l', hfill⟩ := ih h₁ (Function.update data i (f i))
      refine ⟨l', ?_⟩
      rw [dht11Fill, hbyte]
      exact hfill

/-- On a transmission of `f` the call returns what it makes of the bytes of `f`. -/
theorem dht11ReadLine_eq {f : Frame} (t : Transmission f) (r : Readings) :
    ∃ l, dht11ReadLine t.line r = some (dht11Read r f, l) := by
  obtain ⟨l₀, hstart, h₀⟩ := dht11Start_at t
  obtain ⟨l, hfill⟩ := dht11Fill_at f (List.finRange 5) h₀ r.data
  refine ⟨l, ?_⟩
  rw [dht11ReadLine, hstart, Option.bind_eq_bind, Option.bind_some, hfill]
  rfl

/-! ### The checksum of the sensor -/

def sensorFrame (b : Fin 4 → Byte) : Frame := ![b 0, b 1, b 2, b 3, b 0 + b 1 + b 2 + b 3]

structure Accepted (b : Fin 4 → Byte) (r r' : Readings) : Prop where
  result : r'.result = b
  console : r'.console = r.console ++ report (sensorFrame b)

theorem payload_sensorFrame (b : Fin 4 → Byte) : payload (sensorFrame b) = b := by
  funext i
  match i with
  | 0 | 1 | 2 | 3 => rfl

/-- The byte sum and the `int` sum agree as long as the latter fits into a byte. -/
theorem passes_sensorFrame (b : Fin 4 → Byte) :
    Passes (sensorFrame b) ↔
      (b 0).toNat + (b 1).toNat + (b 2).toNat + (b 3).toNat ≤ 255 := by
  have hsum : (sensorFrame b 4).toNat =
      ((b 0).toNat + (b 1).toNat + (b 2).toNat + (b 3).toNat) % 256 := by
    show (b 0 + b 1 + b 2 + b 3).toNat = _
    simp only [BitVec.toNat_add]
    omega
  unfold Passes
  rw [hsum]
  show (b 0).toNat + (b 1).toNat + (b 2).toNat + (b 3).toNat = _ ↔ _
  omega

theorem accepted_iff_passes (b : Fin 4 → Byte) (r : Readings) :
    Accepted b r (dht11Read r (sensorFrame b)) ↔ Passes (sensorFrame b) := by
  rw [dht11Read_eq]
  unfold acceptData
  constructor
  · intro h
    by_contra hp
    have hconsole := h.console
    rw [if_neg hp] at hconsole
    have hlength := congrArg List.length hconsole
    rw [List.length_append] at hlength
    exact absurd hlength (by simp [report])
  · intro hp
    rw [if_pos hp]
    exact ⟨payload_sensorFrame b, rfl⟩

/-- A transmitted payload is accepted exactly when its bytes sum to at most 255. -/
theorem dht11ReadLine_accepts_iff (b : Fin 4 → Byte) (t : Transmission (sensorFrame b))
    (r : Readings) :
    (∃ r' l, dht11ReadLine t.line r = some (r', l) ∧ Accepted b r r') ↔
      (b 0).toNat + (b 1).toNat + (b 2).toNat + (b 3).toNat ≤ 255 := by
  obtain ⟨l, hread⟩ := dht11ReadLine_eq t r
  rw [← passes_sensorFrame, ← accepted_iff_passes b r]
  constructor
  · intro h
    obtain ⟨r', l', hread', hacc⟩ := h
    rw [hread] at hread'
    cases hread'
    exact hacc
  · intro hacc
    exact ⟨_, l, hread, hacc⟩

def nominalTiming : (b : Bool) → BitTiming b
  | false => ⟨50, 24, by decide, by decide, by decide⟩
  | true => ⟨50, 70, by decide, by decide, by decide⟩

def nominalWaveform : (bs : List Bool) → Waveform bs
  | [] => .stop 50 (by decide)
  | b :: bs => .send (nominalTiming b) (nominalWaveform bs)

def nominal (f : Frame) : Transmission f :=
  ⟨30, by decide, 80, by decide, 80, by decide, nominalWaveform (frameBits f)⟩

def loudPayload : Fin 4 → Byte := ![200, 0, 100, 0]

/-- A payload whose sum is 300 is sent with checksum 44 and refused. -/
theorem loudPayload_not_accepted :
    ¬ ∃ r' l, dht11ReadLine (nominal (sensorFrame loudPayload)).line Readings.boot =
      some (r', l) ∧ Accepted loudPayload Readings.boot r' := by
  intro h
  obtain ⟨r', l', hread', hacc⟩ := h
  obtain ⟨l, hread⟩ := dht11ReadLine_eq (nominal (sensorFrame loudPayload)) Readings.boot
  rw [hread] at hread'
  cases hread'
  rw [accepted_iff_passes] at hacc
  exact absurd hacc (by decide)

end ExpertCar.HumidityWaveform
