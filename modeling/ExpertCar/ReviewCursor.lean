import ExpertCar.RecordReplay

/-!
# The review cursor

Two push buttons move `buf` in their interrupt, the pad stores and clears records
and switches the review on, and the display reads row `buf` of `review_buf` while
the review is on. The interrupt resets a cursor beyond `number` and only then
moves it, up to a bound that has nothing to do with the twenty rows; the view key
does not look at the cursor at all. Which presses leave the cursor on a stored
record is stated here press by press.
-/
namespace ExpertCar.ReviewCursor
open StepRuns HumidityReading RecordStore RecordReplay

/-- `args` of the interrupt: the pins `key1` and `key2`, or any other. -/
inductive Sign where
  | key1 | key2 | other
  deriving DecidableEq, Repr

/-- The threads' shared data, and the rows stored since the last clear. -/
structure System where
  recorder : Recorder
  beepValue2 : Byte
  buffers : Buffers
  recorded : List ℕ

def System.boot (r : Readings) : System :=
  ⟨Recorder.boot r, 0, ⟨[], [], [], [], [], [], [], [], []⟩, []⟩

/-- `irq_callback` on the cursor. -/
def moveCursor (sign : Sign) (number buf : Byte) : Byte :=
  let buf := if buf > number then 0 else buf
  match sign with
  | .key1 => if buf ≤ 99 then buf + 1 else buf
  | .key2 => if buf > 0 then buf - 1 else buf
  | .other => buf

def irqCallback (sign : Sign) (s : System) : System :=
  { s with
    beepValue2 := 1
    recorder := { s.recorder with buf := moveCursor sign s.recorder.number s.recorder.buf } }

/-- What one pass of the display loop reads. -/
def shared (adcValue0 adcValue1 : BitVec 16) (peopleNumber : Byte) (r : Recorder) : Shared :=
  ⟨adcValue0, adcValue1, r.readings.data, peopleNumber, r.reviewBuf, r.buf, r.keyFlag⟩

inductive Action where
  | irqCallback (sign : Sign)
  | dht11Handle (x : Input)
  | aht10Handle (adcValue0 adcValue1 : BitVec 16) (peopleNumber : Byte)

/-- Rows stored since the last clear, after an iteration of `dht11_handle`. A store
behind the array stores no row. -/
def recordedAfter (number : Byte) (key : Byte) (recorded : List ℕ) : List ℕ :=
  if key = 13 then if number.toNat < rows then number.toNat :: recorded else recorded
  else if key = 10 then []
  else recorded

def step (s : System) : Action → System
  | .irqCallback sign => irqCallback sign s
  | .dht11Handle x =>
      { s with
        recorder := dht11Handle s.recorder x
        recorded := recordedAfter s.recorder.number x.ps2KEY s.recorded }
  | .aht10Handle adcValue0 adcValue1 peopleNumber =>
      { s with
        buffers := aht10Handle s.buffers (shared adcValue0 adcValue1 peopleNumber s.recorder) }

/-- A pass of the display loop in this state shows a stored record, if it shows one. -/
def Designates (s : System) : Prop :=
  s.recorder.keyFlag = 1 → s.recorder.buf.toNat ∈ s.recorded ∧ s.recorder.buf < s.recorder.number

instance (s : System) : Decidable (Designates s) := inferInstanceAs (Decidable (_ → _))

/-- Row `row` of the array is below the count. -/
def Holds (s : System) (row : ℕ) : Prop := row < s.recorder.number.toNat ∧ row < rows

/-- The cursor is advanced only to a row that holds a record, the review is switched
on only on such a row, and the count does not wrap during a review. -/
def Safe (s : System) : Action → Prop
  | .irqCallback .key1 => s.recorder.keyFlag = 1 → Holds s (s.recorder.buf.toNat + 1)
  | .irqCallback _ => True
  | .dht11Handle x =>
      (x.ps2KEY = 12 → Holds s s.recorder.buf.toNat) ∧
        (x.ps2KEY = 13 → s.recorder.keyFlag = 1 → s.recorder.number ≠ 255)
  | .aht10Handle _ _ _ => True

/-- The rows below the count are recorded, and no row behind the array is. -/
structure Stored (s : System) : Prop where
  covers : ∀ row, Holds s row → row ∈ s.recorded
  bounded : ∀ row ∈ s.recorded, row < rows

theorem stored_boot (r : Readings) : Stored (System.boot r) :=
  ⟨fun _ h => absurd h.1 (Nat.not_lt_zero _), fun _ h => (List.not_mem_nil h).elim⟩

/-- A row is both recorded and below the count when it holds a record. -/
theorem Stored.holds_iff {s : System} (h : Stored s) (row : ℕ) :
    row ∈ s.recorded ∧ row < s.recorder.number.toNat ↔ Holds s row := by
  constructor
  · rintro ⟨hmem, hlt⟩
    exact ⟨hlt, h.bounded row hmem⟩
  · intro hrow
    exact ⟨h.covers row hrow, hrow.1⟩

theorem Stored.designates_iff {s : System} (h : Stored s) :
    Designates s ↔ (s.recorder.keyFlag = 1 → Holds s s.recorder.buf.toNat) :=
  imp_congr_right fun _ => h.holds_iff _

/-- The review is off or on a stored record. -/
structure Inv (s : System) : Prop extends Stored s where
  designates : Designates s

theorem designates_boot (r : Readings) : Designates (System.boot r) :=
  fun h => absurd h (by decide : (0 : Byte) ≠ 1)

/-- A review is on a stored record, so the cursor is in the array. -/
theorem Inv.cursor {s : System} (h : Inv s) (hflag : s.recorder.keyFlag = 1) :
    Holds s s.recorder.buf.toNat :=
  h.toStored.designates_iff.mp h.designates hflag

/-! ### The interrupt -/

/-- From a stored row each button moves the cursor by one; the reset is not taken. -/
theorem moveCursor_toNat {number buf : Byte} (h : buf.toNat < number.toNat)
    (hbuf : buf.toNat < rows) (sign : Sign) :
    (moveCursor sign number buf).toNat =
      match sign with
      | .key1 => buf.toNat + 1
      | .key2 => buf.toNat - 1
      | .other => buf.toNat := by
  have hreset : ¬ buf > number := by
    rw [gt_iff_lt, BitVec.lt_def]
    omega
  unfold rows at hbuf
  unfold moveCursor
  rw [if_neg hreset]
  cases sign with
  | key1 =>
      have hle : buf ≤ 99 := by
        change buf.toNat ≤ 99
        omega
      exact (congrArg BitVec.toNat (if_pos hle)).trans (byte_succ (by omega))
  | key2 =>
      dsimp only
      split_ifs with hpos
      · exact BitVec.toNat_sub_of_le (show (1 : Byte) ≤ buf from hpos)
      · have hzero : buf.toNat = 0 := Nat.eq_zero_of_not_pos hpos
        omega
  | other => rfl

theorem irqCallback_designates_iff {s : System} (h : Inv s) (sign : Sign) :
    Designates (irqCallback sign s) ↔ Safe s (.irqCallback sign) := by
  by_cases hflag : s.recorder.keyFlag = 1
  · have hcursor := h.cursor hflag
    have hmove := moveCursor_toNat hcursor.1 hcursor.2 sign
    have hiff : Designates (irqCallback sign s) ↔
        Holds s (moveCursor sign s.recorder.number s.recorder.buf).toNat := by
      rw [← h.toStored.holds_iff, ← BitVec.lt_def]
      exact ⟨fun hd => hd hflag, fun hd _ => hd⟩
    rw [hiff, hmove]
    cases sign with
    | key1 => exact ⟨fun hrow _ => hrow, fun hsafe => hsafe hflag⟩
    | key2 =>
        refine iff_of_true ⟨?_, ?_⟩ trivial
        · exact (Nat.sub_le _ 1).trans_lt hcursor.1
        · exact (Nat.sub_le _ 1).trans_lt hcursor.2
    | other => exact iff_of_true hcursor trivial
  · have hoff : Designates (irqCallback sign s) := fun hf => absurd hf hflag
    cases sign with
    | key1 => exact iff_of_true hoff fun hf => absurd hf hflag
    | key2 | other => exact iff_of_true hoff trivial

/-! ### The recorder -/

theorem recordedAfter_store (number : Byte) (recorded : List ℕ) (row : ℕ) :
    row ∈ recordedAfter number 13 recorded ↔
      (row = number.toNat ∧ row < rows) ∨ row ∈ recorded := by
  have hstore : recordedAfter number 13 recorded =
      if number.toNat < rows then number.toNat :: recorded else recorded := rfl
  rw [hstore]
  split_ifs with hroom
  · rw [List.mem_cons, and_iff_left_of_imp fun h : row = number.toNat => h ▸ hroom]
  · exact (or_iff_right fun h : row = number.toNat ∧ row < rows => hroom (h.1 ▸ h.2)).symm

/-- A store during a review keeps the cursor on its record unless the count wraps. -/
theorem store_designates_iff {s : System} (h : Inv s) {x : Input} (hkey : x.ps2KEY = 13) :
    Designates (step s (.dht11Handle x)) ↔ (s.recorder.keyFlag = 1 → s.recorder.number ≠ 255) := by
  obtain ⟨hkeyFlag, hbuf, -⟩ := dht11Handle_control s.recorder x
  obtain ⟨hnumber, -⟩ := dht11Handle_store s.recorder x
  rw [hkey] at hkeyFlag hbuf hnumber
  have hflag : (dht11Handle s.recorder x).keyFlag = s.recorder.keyFlag := hkeyFlag
  have hcursor : (dht11Handle s.recorder x).buf = s.recorder.buf := hbuf
  have hcount : (dht11Handle s.recorder x).number = s.recorder.number + 1 := hnumber
  unfold Designates
  simp only [step, hflag, hcursor, hcount, hkey]
  constructor
  · intro hd hon hmax
    have hlt := (hd hon).2
    rw [hmax] at hlt
    exact absurd hlt (BitVec.not_lt_zero)
  · intro hsafe hon
    obtain ⟨hmem, hlt⟩ := h.designates hon
    refine ⟨(recordedAfter_store _ _ _).mpr (Or.inr hmem), ?_⟩
    have hmax : s.recorder.number.toNat ≠ 255 := fun heq =>
      hsafe hon (BitVec.eq_of_toNat_eq heq)
    have hbound := s.recorder.number.isLt
    rw [BitVec.lt_def] at hlt ⊢
    rw [byte_succ (by omega)]
    omega

theorem dht11Handle_designates_iff {s : System} (h : Inv s) (x : Input) :
    Designates (step s (.dht11Handle x)) ↔ Safe s (.dht11Handle x) := by
  obtain ⟨hkeyFlag, hbuf, -⟩ := dht11Handle_control s.recorder x
  obtain ⟨hnumber, -⟩ := dht11Handle_store s.recorder x
  by_cases h13 : x.ps2KEY = 13
  · rw [store_designates_iff h h13]
    have h12 : x.ps2KEY ≠ 12 := by
      rw [h13]
      decide
    exact ⟨fun hs => ⟨fun h' => absurd h' h12, fun _ => hs⟩, fun hs => hs.2 h13⟩
  unfold Designates Safe
  simp only [step, recordedAfter, if_neg h13] at hnumber ⊢
  rw [hkeyFlag, hbuf, hnumber]
  by_cases h10 : x.ps2KEY = 10
  · simp [h10]
  rw [if_neg h10, if_neg h10, if_neg h10, if_neg h10, BitVec.lt_def, h.toStored.holds_iff]
  by_cases h12 : x.ps2KEY = 12
  · simp [h12]
  · simp only [h12, h13, false_imp_iff, and_self, iff_true]
    exact h.cursor

theorem designates_iff_safe {s : System} (h : Inv s) (a : Action) :
    Designates (step s a) ↔ Safe s a := by
  cases a with
  | irqCallback sign => exact irqCallback_designates_iff h sign
  | dht11Handle x => exact dht11Handle_designates_iff h x
  | aht10Handle adcValue0 adcValue1 peopleNumber => exact iff_of_true h.designates trivial

theorem stored_dht11Handle {s : System} (h : Stored s) (x : Input) :
    Stored (step s (.dht11Handle x)) := by
  obtain ⟨hnumber, -⟩ := dht11Handle_store s.recorder x
  have hcount : (step s (.dht11Handle x)).recorder.number = _ := hnumber
  by_cases h13 : x.ps2KEY = 13
  · have hrecorded : (step s (.dht11Handle x)).recorded =
        recordedAfter s.recorder.number 13 s.recorded := by rw [← h13]; rfl
    rw [if_pos h13] at hcount
    refine ⟨fun row hrow => ?_, fun row hrow => ?_⟩
    · rw [Holds, hcount, BitVec.toNat_add] at hrow
      rw [hrecorded, recordedAfter_store]
      -- the count grows by one or wraps to zero
      by_cases hlt : row < s.recorder.number.toNat
      · exact Or.inr (h.covers row ⟨hlt, hrow.2⟩)
      · have hnext : row < s.recorder.number.toNat + 1 := hrow.1.trans_le (Nat.mod_le _ _)
        exact Or.inl ⟨by omega, hrow.2⟩
    · rw [hrecorded, recordedAfter_store] at hrow
      exact hrow.elim (fun hnew => hnew.2) (h.bounded row)
  have hrecorded : (step s (.dht11Handle x)).recorded =
      if x.ps2KEY = 10 then [] else s.recorded := if_neg h13
  rw [if_neg h13] at hcount
  by_cases h10 : x.ps2KEY = 10
  · rw [if_pos h10] at hcount hrecorded
    refine ⟨fun row hrow => ?_, fun row hrow => ?_⟩
    · rw [Holds, hcount] at hrow
      exact absurd hrow.1 (Nat.not_lt_zero row)
    · rw [hrecorded] at hrow
      exact (List.not_mem_nil hrow).elim
  · rw [if_neg h10] at hcount hrecorded
    refine ⟨fun row hrow => ?_, fun row hrow => ?_⟩
    · rw [Holds, hcount] at hrow
      rw [hrecorded]
      exact h.covers row hrow
    · rw [hrecorded] at hrow
      exact h.bounded row hrow

theorem stored_step {s : System} (h : Stored s) (a : Action) : Stored (step s a) := by
  cases a with
  | irqCallback sign => exact ⟨h.covers, h.bounded⟩
  | dht11Handle x => exact stored_dht11Handle h x
  | aht10Handle adcValue0 adcValue1 peopleNumber => exact ⟨h.covers, h.bounded⟩

theorem always_designates_iff_safe (r : Readings) (actions : List Action) :
    Always step (fun s a => Designates (step s a)) (System.boot r) actions ↔
      Always step Safe (System.boot r) actions :=
  always_congr (P := Inv) step (fun _ a h => designates_iff_safe h a)
    (fun _ a h hd => ⟨stored_step h.toStored a, hd⟩) ⟨stored_boot r, designates_boot r⟩ actions

/-! ### The passes of the display loop -/

/-- A pass of `aht10_handle` that shows a record shows a stored one. -/
def Displays (s : System) : Action → Prop
  | .aht10Handle _ _ _ => Designates s
  | _ => True

instance (s : System) (a : Action) : Decidable (Displays s a) := by
  cases a <;> unfold Displays <;> infer_instance

/-- The same by the variables of the program. -/
def InLog (s : System) : Action → Prop
  | .aht10Handle _ _ _ => s.recorder.keyFlag = 1 → Holds s s.recorder.buf.toNat
  | _ => True

def Action.isPass : Action → Bool
  | .aht10Handle _ _ _ => true
  | _ => false

/-- The presses, stores and clears of a run, in their order. -/
def moves (actions : List Action) : List Action := actions.filter fun a => !a.isPass

/-- Two states that differ at most in what the display loop has formatted. -/
structure Alike (s t : System) : Prop where
  recorder : s.recorder = t.recorder
  recorded : s.recorded = t.recorded

theorem Alike.designates_iff {s t : System} (h : Alike s t) : Designates s ↔ Designates t := by
  unfold Designates
  rw [h.recorder, h.recorded]

theorem Alike.step {s t : System} (h : Alike s t) (a : Action) : Alike (step s a) (step t a) := by
  obtain ⟨hrecorder, hrecorded⟩ := h
  cases a with
  | irqCallback sign =>
      simp only [ReviewCursor.step, irqCallback, hrecorder]
      exact ⟨rfl, hrecorded⟩
  | dht11Handle x =>
      simp only [ReviewCursor.step, hrecorder, hrecorded]
      exact ⟨rfl, rfl⟩
  | aht10Handle adcValue0 adcValue1 peopleNumber => exact ⟨hrecorder, hrecorded⟩

theorem alike_pass (s : System) {a : Action} (ha : a.isPass = true) : Alike (step s a) s := by
  cases a with
  | aht10Handle adcValue0 adcValue1 peopleNumber => exact ⟨rfl, rfl⟩
  | irqCallback sign => exact absurd ha Bool.false_ne_true
  | dht11Handle x => exact absurd ha Bool.false_ne_true

/-- The passes of the display loop do not move the cursor. -/
theorem always_designates_moves {s t : System} (h : Alike s t) (hs : Designates s)
    (actions : List Action) :
    Always step (fun s a => Designates (step s a)) s actions ↔
      Always step (fun s a => Designates (step s a)) t (moves actions) := by
  induction actions generalizing s t with
  | nil => exact Iff.rfl
  | cons a actions ih =>
      by_cases ha : a.isPass = true
      · have hskip : moves (a :: actions) = moves actions := List.filter_cons_of_neg (by simp [ha])
        have halike : Alike (step s a) t :=
          ⟨(alike_pass s ha).recorder.trans h.recorder, (alike_pass s ha).recorded.trans h.recorded⟩
        have hnext : Designates (step s a) := (alike_pass s ha).designates_iff.mpr hs
        rw [hskip, ← ih halike hnext]
        exact and_iff_right hnext
      · have hkeep : moves (a :: actions) = a :: moves actions :=
          List.filter_cons_of_pos (by simp [ha])
        have hiff := (h.step a).designates_iff
        rw [hkeep]
        constructor
        · rintro ⟨hd, hrest⟩
          exact ⟨hiff.mp hd, (ih (h.step a) hd).mp hrest⟩
        · rintro ⟨hd, hrest⟩
          exact ⟨hiff.mpr hd, (ih (h.step a) (hiff.mpr hd)).mpr hrest⟩

theorem displays_of_designates {s : System} (hs : Designates s) {actions : List Action}
    (h : Always step (fun s a => Designates (step s a)) s actions) :
    Always step Displays s actions := by
  induction actions generalizing s with
  | nil => trivial
  | cons a actions ih =>
      refine ⟨?_, ih h.1 h.2⟩
      cases a with
      | aht10Handle adcValue0 adcValue1 peopleNumber => exact hs
      | irqCallback sign => trivial
      | dht11Handle x => trivial

/-- A pass after every action. -/
def watched (actions : List Action) : List Action :=
  actions.flatMap fun a => [a, .aht10Handle 0 0 0]

theorem moves_watched (actions : List Action) : moves (watched actions) = moves actions := by
  induction actions with
  | nil => rfl
  | cons a actions ih =>
      have hcons : watched (a :: actions) = a :: .aht10Handle 0 0 0 :: watched actions := rfl
      unfold moves at ih ⊢
      rw [hcons, List.filter_cons, List.filter_cons_of_neg (by simp [Action.isPass]), ih,
        List.filter_cons]

theorem designates_of_watched {s t : System} (h : Alike s t) {actions : List Action}
    (hwatched : Always step Displays s (watched actions)) :
    Always step (fun s a => Designates (step s a)) t actions := by
  induction actions generalizing s t with
  | nil => trivial
  | cons a actions ih =>
      obtain ⟨-, hd, hrest⟩ := hwatched
      have hnext := h.step a
      have hpass : Alike (step (step s a) (.aht10Handle 0 0 0)) (step t a) :=
        ⟨hnext.recorder, hnext.recorded⟩
      exact ⟨hnext.designates_iff.mp hd, ih hpass hrest⟩

/-- In every run the review shows stored records exactly when each of its passes finds the
cursor below the count and in the array. Wherever the passes fall among the presses, stores and
clears, it does so exactly when each of these is safe where it happens. -/
theorem designates_run_iff (r : Readings) (actions : List Action) :
    (Always step Displays (System.boot r) actions ↔
      Always step InLog (System.boot r) actions) ∧
    ((∀ actions', moves actions' = moves actions →
        Always step Displays (System.boot r) actions') ↔
      Always step Safe (System.boot r) actions) := by
  have halike : Alike (System.boot r) (System.boot r) := ⟨rfl, rfl⟩
  have hmoves := always_designates_moves halike (designates_boot r)
  constructor
  · refine always_congr (P := Stored) step ?_ (fun _ a h _ => stored_step h a) (stored_boot r)
      actions
    intro s a h
    cases a with
    | aht10Handle adcValue0 adcValue1 peopleNumber => exact h.designates_iff
    | irqCallback sign => exact Iff.rfl
    | dht11Handle x => exact Iff.rfl
  · rw [← always_designates_iff_safe]
    constructor
    · intro hall
      exact designates_of_watched halike (hall (watched actions) (moves_watched actions))
    · intro h actions' hsame
      refine displays_of_designates (designates_boot r) ((hmoves actions').mpr ?_)
      rw [hsame]
      exact (hmoves actions).mp h

/-- The view key on an empty log; and, with one record, the button that moves past it. -/
theorem review_off_record :
    ¬ Always step Displays (System.boot Readings.boot)
        [.dht11Handle ⟨12, 0, fun _ => 0⟩, .aht10Handle 0 0 0] ∧
      ¬ Always step Displays (System.boot Readings.boot)
        [.dht11Handle ⟨13, 0, fun _ => 0⟩, .dht11Handle ⟨12, 0, fun _ => 0⟩,
          .irqCallback .key1, .aht10Handle 0 0 0] := by
  decide

end ExpertCar.ReviewCursor
