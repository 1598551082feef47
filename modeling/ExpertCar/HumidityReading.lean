import ExpertCar.MachineWords
import ExpertCar.ArrayLoops
import ExpertCar.DecimalText
import ExpertCar.StepRuns
import Mathlib.Data.Fin.VecNotation

/-!
# Reading a humidity frame

The part of `dht11_read` behind the wire: five bytes are stored into
`dht11_data`, and only then is the checksum tested. The test compares the sum as
an `int` with the last byte; `char` is unsigned. What passes is copied to the
result and printed, but the readers of the program look at `dht11_data` itself.
-/
namespace ExpertCar.HumidityReading
open StepRuns DecimalText

abbrev Frame := Fin 5 → Byte

/-- Bytes of a frame, which numerals index. -/
instance frameBytes : NeZero 5 := ⟨by decide⟩

/-- `dht11_data`, `dht11_result` and the lines printed so far. -/
structure Readings where
  data : Frame
  result : Fin 4 → Byte
  console : List (List Char)

def Readings.boot : Readings := ⟨fun _ => 0, fun _ => 0, []⟩

/-- `dht11_data[0] + dht11_data[1] + dht11_data[2] + dht11_data[3] == dht11_data[4]` -/
def Passes (data : Frame) : Prop :=
  (data 0).toNat + (data 1).toNat + (data 2).toNat + (data 3).toNat = (data 4).toNat

instance (data : Frame) : Decidable (Passes data) :=
  inferInstanceAs (Decidable ((data 0).toNat + (data 1).toNat + (data 2).toNat +
    (data 3).toNat = (data 4).toNat))

def payload (data : Frame) : Fin 4 → Byte := fun i => data i.castSucc

/-- `"%d.%dRH ,"` and `"%d.%dCH\r\n"` -/
def report (data : Frame) : List (List Char) :=
  [pointed (data 0).toNat (data 1).toNat ++ "RH ,".toList,
    pointed (data 2).toNat (data 3).toNat ++ "CH\r\n".toList]

def acceptData (r : Readings) : Readings :=
  if Passes r.data then
    { r with result := payload r.data, console := r.console ++ report r.data }
  else r

/-- `dht11_read` when `dht11_read_byte` returns the bytes of `f` in turn. -/
def dht11Read (r : Readings) (f : Frame) : Readings :=
  acceptData { r with data := ArrayLoops.store f r.data (List.finRange 5) }

theorem acceptData_data (r : Readings) : (acceptData r).data = r.data := by
  unfold acceptData
  split <;> rfl

theorem dht11Read_eq (r : Readings) (f : Frame) :
    dht11Read r f = acceptData { r with data := f } := by
  rw [dht11Read, ArrayLoops.store_finRange]

theorem dht11Read_data (r : Readings) (f : Frame) : (dht11Read r f).data = f := by
  rw [dht11Read_eq, acceptData_data]

/-- The payload of the last frame that passed, zero if none has. -/
def lastPassed (frames : List Frame) : Fin 4 → Byte :=
  ((frames.filter fun f => Passes f).map payload).getLastD fun _ => 0

theorem lastPassed_concat (frames : List Frame) (f : Frame) :
    lastPassed (frames ++ [f]) = if Passes f then payload f else lastPassed frames := by
  unfold lastPassed
  by_cases hf : Passes f
  · simp [hf]
  · simp [hf]

/-- After any sequence of calls the readings are those of the last passing frame
exactly when the last call's frame passed or repeats them. -/
theorem readings_intact_iff (frames : List Frame) (f : Frame) :
    payload (run dht11Read Readings.boot (frames ++ [f])).data = lastPassed (frames ++ [f]) ↔
      Passes f ∨ payload f = lastPassed frames := by
  rw [run_concat, dht11Read_data, lastPassed_concat]
  by_cases hf : Passes f
  · simp [hf]
  · simp [hf]

/-- 50.0 percent at 25.0 degrees, and the same frame with one bit flipped on the wire. -/
def soundFrame : Frame := ![50, 0, 25, 0, 75]
def flippedFrame : Frame := ![114, 0, 25, 0, 75]

theorem rejected_frame_visible :
    ¬ payload (run dht11Read Readings.boot ([soundFrame] ++ [flippedFrame])).data =
      lastPassed ([soundFrame] ++ [flippedFrame]) := by
  rw [run_concat, dht11Read_data]
  decide

end ExpertCar.HumidityReading
