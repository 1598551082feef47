import ExpertCar.HumidityReading

/-!
# The record store

One iteration of `dht11_handle`: the alarm check, the sensor, and the three keys
that store a record, show the records and clear them. Rows of `review_buf` are
addressed by natural numbers; the array has the first twenty of them, and every
cell the thread writes is recorded together with the write. The clear branch is
the loop of the source, whose body resets the bound of the loop, so it runs once
and clears the row after the last record.
-/
namespace ExpertCar.RecordStore
open StepRuns HumidityReading

/-- Rows and columns declared for `review_buf`. -/
def rows : ℕ := 20
instance columns : NeZero 3 := ⟨by decide⟩

structure Recorder where
  n : Byte
  i : Byte
  readings : Readings
  reviewBuf : ℕ → Fin 3 → Byte
  number : Byte
  buf : Byte
  keyFlag : Byte
  beepValue3 : Byte
  /-- Arguments of the calls of `display_string` so far. -/
  displayed : List (ℕ × ℕ × String)
  /-- Cells of `review_buf` written so far. -/
  written : List (ℕ × Fin 3)

/-- Entry of the loop, with any content of the sensor buffers. -/
def Recorder.boot (r : Readings) : Recorder := ⟨0, 0, r, fun _ _ => 0, 0, 0, 0, 0, [], []⟩

/-- What one iteration sees: the key, `ADC_Value[1]` (behind the one declared
element, taken here as a cell of its own) and the sensor's next frame. -/
structure Input where
  ps2KEY : Byte
  adcValue1 : BitVec 16
  frame : Frame

def humidityAlarm (data : Frame) : Bool := data 0 ≥ 90 || data 0 ≤ 10

def temperatureAlarm (data : Frame) : Bool := data 2 ≥ 40 || data 2 ≤ 1

/-- `if(i++>=200) { ... i=0; }` -/
def alarmCheck (s : Recorder) : Recorder :=
  if s.i ≥ 200 then
    if humidityAlarm s.readings.data then
      { s with displayed := s.displayed ++ [(0, 220, "humi error")], beepValue3 := 1, i := 0 }
    else if temperatureAlarm s.readings.data then
      { s with displayed := s.displayed ++ [(0, 240, "temp error")], beepValue3 := 1, i := 0 }
    else { s with i := 0 }
  else { s with i := s.i + 1 }

/-- `if(n++>=50) { memset(dht11_result, 0, 4); dht11_read(dht11_result); n=0; }` -/
def sense (f : Frame) (s : Recorder) : Recorder :=
  if s.n ≥ 50 then
    { s with readings := dht11Read { s.readings with result := fun _ => 0 } f, n := 0 }
  else { s with n := s.n + 1 }

/-- `review_buf[row][column] = value;` -/
def setCell (row : ℕ) (column : Fin 3) (value : Byte) (s : Recorder) : Recorder :=
  { s with
    reviewBuf := Function.update s.reviewBuf row (Function.update (s.reviewBuf row) column value)
    written := s.written ++ [(row, column)] }

/-- `value*10 + decimal` as it fits into a `uint8_t`. -/
def packed (value decimal : Byte) : Byte := BitVec.ofNat 8 (value.toNat * 10 + decimal.toNat)

def storeRecord (adcValue1 : BitVec 16) (s : Recorder) : Recorder :=
  let data := s.readings.data
  let row := s.number.toNat
  let s := setCell row 0 (packed (data 2) (data 3)) s
  let s := setCell row 1 (packed (data 0) (data 1)) s
  setCell row 2 (adcValue1.setWidth 8) { s with number := s.number + 1 }

/-- `for (j ...) review_buf[number][j] = 0; number=0; buf=0;` -/
def clearRow (s : Recorder) : Recorder :=
  let s := (List.finRange 3).foldl (fun s j => setCell s.number.toNat j 0 s) s
  { s with number := 0, buf := 0 }

/-- `for (int n = 0; n < number+1; n++)` around `clearRow`. -/
def clearLoop (n : ℕ) (s : Recorder) : Recorder :=
  if n < s.number.toNat + 1 then clearLoop (n + 1) (clearRow s) else s
  termination_by s.number.toNat + 1 - n
  decreasing_by
    have hzero : (clearRow s).number.toNat = 0 := rfl
    omega

def onKey (key : Byte) (adcValue1 : BitVec 16) (s : Recorder) : Recorder :=
  let s := if key = 13 then storeRecord adcValue1 s else s
  if key = 12 then { s with keyFlag := 1 }
  else if key = 10 then clearLoop 0 { s with keyFlag := 0 }
  else s

def dht11Handle (s : Recorder) (x : Input) : Recorder :=
  onKey x.ps2KEY x.adcValue1 (sense x.frame (alarmCheck s))

/-! ### What an iteration does to the store -/

def rowCells (row : ℕ) : List (ℕ × Fin 3) := (List.finRange 3).map fun column => (row, column)

theorem mem_rowCells {row : ℕ} {cell : ℕ × Fin 3} : cell ∈ rowCells row ↔ cell.1 = row := by
  obtain ⟨r, column⟩ := cell
  simp [rowCells, eq_comm]

/-- The loop runs once, on the row after the last record. -/
theorem clearLoop_eq (s : Recorder) : clearLoop 0 s = clearRow s := by
  rw [clearLoop, if_pos (by omega), clearLoop, if_neg]
  exact Nat.lt_irrefl 1

theorem clearRow_written (s : Recorder) :
    (clearRow s).written = s.written ++ rowCells s.number.toNat := by
  simp [clearRow, rowCells, List.finRange, setCell]

theorem storeRecord_written (adcValue1 : BitVec 16) (s : Recorder) :
    (storeRecord adcValue1 s).written = s.written ++ rowCells s.number.toNat := by
  simp [storeRecord, rowCells, List.finRange, setCell]

theorem alarmCheck_frame (s : Recorder) :
    (alarmCheck s).number = s.number ∧ (alarmCheck s).written = s.written ∧
      (alarmCheck s).reviewBuf = s.reviewBuf ∧ (alarmCheck s).buf = s.buf ∧
      (alarmCheck s).keyFlag = s.keyFlag := by
  unfold alarmCheck
  split_ifs <;> exact ⟨rfl, rfl, rfl, rfl, rfl⟩

theorem sense_frame (f : Frame) (s : Recorder) :
    (sense f s).number = s.number ∧ (sense f s).written = s.written ∧
      (sense f s).reviewBuf = s.reviewBuf ∧ (sense f s).buf = s.buf ∧
      (sense f s).keyFlag = s.keyFlag ∧ (sense f s).beepValue3 = s.beepValue3 := by
  unfold sense
  split_ifs <;> exact ⟨rfl, rfl, rfl, rfl, rfl, rfl⟩

/-- Stores and clears are the iterations that touch the array, both at `number`. -/
def Touches (key : Byte) : Prop := key = 13 ∨ key = 10

instance (key : Byte) : Decidable (Touches key) := inferInstanceAs (Decidable (_ ∨ _))

theorem onKey_clear (adcValue1 : BitVec 16) (s : Recorder) :
    onKey 10 adcValue1 s = clearRow { s with keyFlag := 0 } :=
  clearLoop_eq _

theorem onKey_other {key : Byte} (h13 : key ≠ 13) (h12 : key ≠ 12) (h10 : key ≠ 10)
    (adcValue1 : BitVec 16) (s : Recorder) : onKey key adcValue1 s = s := by
  unfold onKey
  simp only [if_neg h13, if_neg h12, if_neg h10]

theorem onKey_store (key : Byte) (adcValue1 : BitVec 16) (s : Recorder) :
    (onKey key adcValue1 s).number = (if key = 13 then s.number + 1
        else if key = 10 then 0 else s.number) ∧
      (onKey key adcValue1 s).written =
        s.written ++ if Touches key then rowCells s.number.toNat else [] := by
  by_cases h13 : key = 13
  · subst h13
    exact ⟨rfl, storeRecord_written adcValue1 s⟩
  by_cases h10 : key = 10
  · subst h10
    rw [onKey_clear]
    exact ⟨rfl, clearRow_written _⟩
  have htouch : ¬ Touches key := fun h => h.elim h13 h10
  rw [if_neg h13, if_neg h10, if_neg htouch, List.append_nil]
  by_cases h12 : key = 12
  · subst h12
    exact ⟨rfl, rfl⟩
  · rw [onKey_other h13 h12 h10]
    exact ⟨rfl, rfl⟩

theorem dht11Handle_store (s : Recorder) (x : Input) :
    (dht11Handle s x).number = (if x.ps2KEY = 13 then s.number + 1
        else if x.ps2KEY = 10 then 0 else s.number) ∧
      (dht11Handle s x).written =
        s.written ++ if Touches x.ps2KEY then rowCells s.number.toNat else [] := by
  have h := onKey_store x.ps2KEY x.adcValue1 (sense x.frame (alarmCheck s))
  obtain ⟨hn, hw, -⟩ := sense_frame x.frame (alarmCheck s)
  obtain ⟨hn', hw', -⟩ := alarmCheck_frame s
  rw [hn, hw, hn', hw'] at h
  exact h

/-- The keys choose what is shown; they leave the alarm alone. -/
theorem onKey_control (key : Byte) (adcValue1 : BitVec 16) (s : Recorder) :
    (onKey key adcValue1 s).keyFlag = (if key = 12 then 1 else if key = 10 then 0 else s.keyFlag) ∧
      (onKey key adcValue1 s).buf = (if key = 10 then 0 else s.buf) ∧
      (onKey key adcValue1 s).beepValue3 = s.beepValue3 := by
  by_cases h10 : key = 10
  · subst h10
    rw [onKey_clear]
    simp [clearRow, List.finRange, setCell]
  by_cases h12 : key = 12
  · subst h12
    exact ⟨rfl, rfl, rfl⟩
  rw [if_neg h12, if_neg h10, if_neg h10]
  by_cases h13 : key = 13
  · subst h13
    exact ⟨rfl, rfl, rfl⟩
  · rw [onKey_other h13 h12 h10]
    exact ⟨rfl, rfl, rfl⟩

theorem dht11Handle_control (s : Recorder) (x : Input) :
    (dht11Handle s x).keyFlag =
        (if x.ps2KEY = 12 then 1 else if x.ps2KEY = 10 then 0 else s.keyFlag) ∧
      (dht11Handle s x).buf = (if x.ps2KEY = 10 then 0 else s.buf) ∧
      (dht11Handle s x).beepValue3 = (alarmCheck s).beepValue3 := by
  have h := onKey_control x.ps2KEY x.adcValue1 (sense x.frame (alarmCheck s))
  obtain ⟨-, -, -, hbuf, hflag, hbeep⟩ := sense_frame x.frame (alarmCheck s)
  obtain ⟨-, -, -, hbuf', hflag'⟩ := alarmCheck_frame s
  rw [hbuf, hflag, hbeep, hbuf', hflag'] at h
  exact h

/-! ### What the clear branch erases -/

/-- What the clear key is for: the records before it are zero after it, the log
is empty, and all cells written meanwhile lie inside the array. -/
structure ErasesLog (s s' : Recorder) : Prop where
  zero : ∀ row < s.number.toNat, ∀ column, s'.reviewBuf row column = 0
  number : s'.number = 0
  buf : s'.buf = 0
  inside : ∃ cells, s'.written = s.written ++ cells ∧ ∀ cell ∈ cells, cell.1 < rows

theorem setCell_reviewBuf_of_ne {row other : ℕ} (h : other ≠ row) (column : Fin 3) (value : Byte)
    (s : Recorder) : (setCell row column value s).reviewBuf other = s.reviewBuf other :=
  Function.update_of_ne h _ _

theorem clearCells_reviewBuf_of_ne (columns : List (Fin 3)) (s : Recorder) {row : ℕ}
    (h : row ≠ s.number.toNat) :
    (columns.foldl (fun s j => setCell s.number.toNat j 0 s) s).reviewBuf row =
      s.reviewBuf row := by
  induction columns generalizing s with
  | nil => rfl
  | cons j columns ih =>
      rw [List.foldl_cons, ih (setCell s.number.toNat j 0 s) h]
      exact setCell_reviewBuf_of_ne h j 0 s

/-- The row cleared is the one after the last record; all others stay. -/
theorem clearRow_reviewBuf_of_ne (s : Recorder) {row : ℕ} (h : row ≠ s.number.toNat) :
    (clearRow s).reviewBuf row = s.reviewBuf row :=
  clearCells_reviewBuf_of_ne (List.finRange 3) s h

theorem onKey_clear_reviewBuf (adcValue1 : BitVec 16) (s : Recorder) {row : ℕ}
    (h : row < s.number.toNat) : (onKey 10 adcValue1 s).reviewBuf row = s.reviewBuf row := by
  rw [onKey_clear]
  exact clearRow_reviewBuf_of_ne _ (Nat.ne_of_lt h)

/-- The branch never reaches a stored row, so the log is erased exactly when it
held nothing but zeros. -/
theorem clear_erases_iff (adcValue1 : BitVec 16) (s : Recorder) (h : s.number.toNat < rows) :
    ErasesLog s (onKey 10 adcValue1 s) ↔
      ∀ row < s.number.toNat, ∀ column, s.reviewBuf row column = 0 := by
  constructor
  · intro herased row hrow column
    rw [← onKey_clear_reviewBuf adcValue1 s hrow]
    exact herased.zero row hrow column
  · intro hzero
    refine ⟨fun row hrow column => ?_, ?_, ?_, rowCells s.number.toNat, ?_, ?_⟩
    · rw [onKey_clear_reviewBuf adcValue1 s hrow]
      exact hzero row hrow column
    · exact (onKey_store 10 adcValue1 s).1
    · exact (onKey_control 10 adcValue1 s).2.1
    · exact (onKey_store 10 adcValue1 s).2
    · intro cell hcell
      rw [mem_rowCells.mp hcell]
      exact h

theorem clear_erases_zero_records :
    let s := { Recorder.boot Readings.boot with number := 2, buf := 1 }
    ErasesLog s (onKey 10 0 s) :=
  (clear_erases_iff 0 { Recorder.boot Readings.boot with number := 2, buf := 1 }
    (by decide)).mpr fun _ _ _ => rfl

/-- One record of 23.5 degrees, 61 percent and a reading of 80. -/
def oneRecord : Recorder :=
  { Recorder.boot Readings.boot with
    reviewBuf := fun row column => if row = 0 then ![235, 98, 80] column else 0
    number := 1 }

/-- The record is still there after the clear key. -/
theorem oneRecord_not_erased : ¬ ErasesLog oneRecord (onKey 10 0 oneRecord) := by
  intro h
  have hkept := onKey_clear_reviewBuf 0 oneRecord (show 0 < oneRecord.number.toNat by decide)
  have hzero := h.zero 0 (show 0 < oneRecord.number.toNat by decide) 0
  rw [hkept] at hzero
  exact absurd hzero (by decide)

/-! ### Staying inside the array -/

def InBounds (s : Recorder) : Prop := ∀ cell ∈ s.written, cell.1 < rows

/-- Iterations of the store key since the last iteration of the clear key. -/
def countStores (k : ℕ) (x : Input) : ℕ :=
  if x.ps2KEY = 13 then k + 1 else if x.ps2KEY = 10 then 0 else k

/-- The array is not touched once twenty records have been stored in it. -/
def Room (k : ℕ) (x : Input) : Prop := Touches x.ps2KEY → k < rows

/-- As long as all writes were inside, `number` is the unwrapped count. -/
structure Counted (s : Recorder) (k : ℕ) : Prop where
  inBounds : InBounds s
  number : s.number.toNat = k
  le : k ≤ rows

theorem counted_boot (r : Readings) : Counted (Recorder.boot r) 0 :=
  ⟨fun _ h => (List.not_mem_nil h).elim, rfl, by decide⟩

theorem Counted.inBounds_iff {s : Recorder} {k : ℕ} (h : Counted s k) (x : Input) :
    InBounds (dht11Handle s x) ↔ Room k x := by
  obtain ⟨-, hwritten⟩ := dht11Handle_store s x
  unfold InBounds Room
  rw [hwritten, h.number]
  constructor
  · intro hall htouch
    rw [if_pos htouch] at hall
    exact hall (k, 0) (List.mem_append_right _ (mem_rowCells.mpr rfl))
  · intro hroom cell hcell
    rcases List.mem_append.mp hcell with hold | hnew
    · exact h.inBounds cell hold
    · by_cases htouch : Touches x.ps2KEY
      · rw [if_pos htouch] at hnew
        rw [mem_rowCells.mp hnew]
        exact hroom htouch
      · rw [if_neg htouch] at hnew
        exact (List.not_mem_nil hnew).elim

theorem Counted.step {s : Recorder} {k : ℕ} (h : Counted s k) {x : Input}
    (hin : InBounds (dht11Handle s x)) : Counted (dht11Handle s x) (countStores k x) := by
  have hroom := (h.inBounds_iff x).mp hin
  obtain ⟨hnumber, -⟩ := dht11Handle_store s x
  have hle := h.le
  by_cases h13 : x.ps2KEY = 13
  -- the count is below twenty before the store, so the byte does not wrap
  · have hk : k < rows := hroom (Or.inl h13)
    unfold rows at hk
    refine ⟨hin, ?_, ?_⟩
    · have hnum := h.number
      rw [hnumber, if_pos h13, countStores, if_pos h13, byte_succ (by omega), hnum]
    · rw [countStores, if_pos h13]
      exact hk
  · by_cases h10 : x.ps2KEY = 10
    · refine ⟨hin, ?_, ?_⟩
      · rw [hnumber, if_neg h13, if_pos h10, countStores, if_neg h13, if_pos h10]
        rfl
      · rw [countStores, if_neg h13, if_pos h10]
        exact Nat.zero_le _
    · refine ⟨hin, ?_, ?_⟩
      · rw [hnumber, if_neg h13, if_neg h10, countStores, if_neg h13, if_neg h10]
        exact h.number
      · rw [countStores, if_neg h13, if_neg h10]
        exact hle

/-- Every iteration of a run leaves all writes inside the array exactly when none
that stores or clears comes after twenty stores since the last clear. -/
theorem inBounds_iff_room (r : Readings) (inputs : List Input) :
    Always dht11Handle (fun s x => InBounds (dht11Handle s x)) (Recorder.boot r) inputs ↔
      Always countStores Room 0 inputs := by
  refine always_iff_of_guarded (P := Counted) ?_ ?_ (counted_boot r) inputs
  · intro s k x h
    exact h.inBounds_iff x
  · intro s k x h hin
    exact h.step hin

def heldStore : Input := ⟨13, 0, fun _ => 0⟩

/-- After twenty iterations with the store key the next one writes row 20. -/
theorem heldStore_out_of_bounds :
    ¬ Always dht11Handle (fun s x => InBounds (dht11Handle s x)) (Recorder.boot Readings.boot)
      (List.replicate 21 heldStore) := by
  rw [List.replicate_succ', always_append]
  intro h
  have hnumber : (run dht11Handle (Recorder.boot Readings.boot)
      (List.replicate 20 heldStore)).number = 20 := by
    decide +kernel
  have hlast := h.2.1 (20, 0)
  rw [(dht11Handle_store _ heldStore).2, hnumber] at hlast
  exact absurd (hlast (List.mem_append_right _ (mem_rowCells.mpr rfl))) (by decide)

end ExpertCar.RecordStore
