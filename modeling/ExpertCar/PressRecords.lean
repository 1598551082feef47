import ExpertCar.PadHandle
import ExpertCar.RecordStore

/-!
# Presses and records

`PS2_handle` publishes the key as a level, once for each transaction, and
`dht11_handle` samples that level at its own rate. There is no edge and no
acknowledgement between them, so what is recorded is not the presses but the
samples: a press stores one record for each iteration of `dht11_handle` that
falls into it, several for a long press and none for one between two iterations.
-/
namespace ExpertCar.PressRecords
open StepRuns PadHandle RecordStore

structure System where
  pad : PadThread
  recorder : Recorder

/-- One loop of `PS2_handle` with the frame the pad answers, or one iteration of
`dht11_handle` with what it reads besides the key. -/
inductive Event where
  | ps2Handle (f : PadBus.Frame)
  | dht11Handle (adcValue1 : BitVec 16) (f : HumidityReading.Frame)

def step (s : System) : Event → System
  | .ps2Handle f => { s with pad := ps2Loop s.pad f }
  | .dht11Handle adcValue1 f =>
      { s with recorder := dht11Handle s.recorder ⟨s.pad.ps2KEY, adcValue1, f⟩ }

/-- The pad thread at its loop, the recorder at boot. -/
def System.start (bus : PadBus.Bus) (replies : Fin 10 → PadBus.Frame)
    (r : HumidityReading.Readings) : System :=
  ⟨loopEntry bus replies, Recorder.boot r⟩

/-- A row of `review_buf` with its three cells. -/
abbrev Record := ℕ × (Fin 3 → Byte)

/-- The records a step appends: the rows it writes whole and counts in `number`. -/
def appended (s : System) (e : Event) : List Record :=
  let s' := (step s e).recorder
  let number := s.recorder.number.toNat
  let cells := s'.written.drop s.recorder.written.length
  ((List.range' number (s'.number.toNat - number)).filter fun row =>
    decide (∀ column, (row, column) ∈ cells)).map fun row => (row, s'.reviewBuf row)

/-- The records appended in a run. -/
def records (s : System) : List Event → List Record
  | [] => []
  | e :: events => appended s e ++ records (step s e) events

/-- The keys published in a run. -/
def published : List Event → List Byte
  | [] => []
  | .ps2Handle f :: events => PadTransaction.frameKey f :: published events
  | .dht11Handle _ _ :: events => published events

/-- Maximal runs of the store key in a list of published keys; `held` says whether
the key before the list belongs to one. -/
def pressEpisodes (held : Bool) : List Byte → ℕ
  | [] => 0
  | key :: keys =>
      (if key = 13 ∧ held = false then 1 else 0) + pressEpisodes (decide (key = 13)) keys

/-- For each press episode in turn the iterations of `dht11_handle` that fall into
it; `running` counts those of an episode that has begun. -/
def samples : Option ℕ → List Event → List ℕ
  | running, [] => running.toList
  | running, .ps2Handle f :: events =>
      if PadTransaction.frameKey f = 13 then samples (some (running.getD 0)) events
      else running.toList ++ samples none events
  | running, .dht11Handle _ _ :: events => samples (running.map (· + 1)) events

/-- For each press episode in turn the records appended while it lasts; `running` has those
of an episode that has begun. -/
def pressRecords : Option (List Record) → System → List Event → List (List Record)
  | running, _, [] => running.toList
  | running, s, .ps2Handle f :: events =>
      let s' := step s (.ps2Handle f)
      if PadTransaction.frameKey f = 13 then pressRecords (some (running.getD [])) s' events
      else running.toList ++ pressRecords none s' events
  | running, s, .dht11Handle adcValue1 f :: events =>
      pressRecords (running.map (· ++ appended s (.dht11Handle adcValue1 f)))
        (step s (.dht11Handle adcValue1 f)) events

/-- There is one count for each episode. -/
theorem samples_length (running : Option ℕ) (events : List Event) :
    (samples running events).length =
      running.toList.length + pressEpisodes running.isSome (published events) := by
  induction events generalizing running with
  | nil => rfl
  | cons e events ih =>
      cases e with
      | ps2Handle f =>
          simp only [samples, published, pressEpisodes]
          by_cases hkey : PadTransaction.frameKey f = 13
          · rw [if_pos hkey, ih, decide_eq_true hkey]
            cases running with
            | none =>
                rw [if_pos ⟨hkey, rfl⟩]
                simp
            | some count =>
                rw [if_neg fun h => Bool.noConfusion h.2]
                simp
          · rw [if_neg hkey, List.length_append, ih, decide_eq_false hkey,
              if_neg fun h => hkey h.1]
            simp
      | dht11Handle adcValue1 f =>
          rw [samples, ih, published]
          cases running <;> rfl

/-! ### The sampled level -/

/-- The pad thread is at the start of its loop, and an episode is running exactly
while the published key is the store key. -/
structure Sampled (s : System) (running : Option ℕ) : Prop where
  pc : s.pad.pc = .lx
  holds : ∃ last, Holds last s.pad
  key : s.pad.ps2KEY = 13 ↔ running.isSome = true

theorem sampled_start (bus : PadBus.Bus) (replies : Fin 10 → PadBus.Frame)
    (r : HumidityReading.Readings) : Sampled (System.start bus replies r) none := by
  have hkey : (loopEntry bus replies).ps2KEY = 0 := rfl
  refine ⟨loopEntry_pc bus replies, ⟨_, holds_loopEntry bus replies⟩, ?_⟩
  rw [System.start, hkey]
  decide

theorem Sampled.publish {s : System} {running : Option ℕ} (h : Sampled s running)
    (f : PadBus.Frame) :
    Sampled (step s (.ps2Handle f))
      (if PadTransaction.frameKey f = 13 then some (running.getD 0) else none) := by
  obtain ⟨last, hlast⟩ := h.holds
  obtain ⟨hpc, hholds, -, -, -, -, hkey⟩ := ps2Loop_spec hlast h.pc f
  refine ⟨hpc, ⟨f, hholds⟩, ?_⟩
  rw [show (step s (.ps2Handle f)).pad = ps2Loop s.pad f from rfl, hkey]
  split_ifs with h13
  · exact iff_of_true h13 rfl
  · exact iff_of_false h13 Bool.false_ne_true

theorem step_number (s : System) (adcValue1 : BitVec 16) (f : HumidityReading.Frame) :
    (step s (.dht11Handle adcValue1 f)).recorder.number =
      if s.pad.ps2KEY = 13 then s.recorder.number + 1
      else if s.pad.ps2KEY = 10 then 0 else s.recorder.number :=
  (dht11Handle_store s.recorder ⟨s.pad.ps2KEY, adcValue1, f⟩).1

theorem appended_publish (s : System) (f : PadBus.Frame) : appended s (.ps2Handle f) = [] := by
  have hnone : (step s (.ps2Handle f)).recorder.number.toNat - s.recorder.number.toNat = 0 :=
    Nat.sub_self _
  rw [appended, hnone]
  rfl

/-- With room left, an iteration appends the row at `number` if it samples the store key. -/
theorem appended_sample {s : System} (hroom : s.recorder.number.toNat < rows)
    (adcValue1 : BitVec 16) (f : HumidityReading.Frame) :
    appended s (.dht11Handle adcValue1 f) =
      if s.pad.ps2KEY = 13 then
        [(s.recorder.number.toNat,
          (step s (.dht11Handle adcValue1 f)).recorder.reviewBuf s.recorder.number.toNat)]
      else [] := by
  unfold rows at hroom
  have hnumber := step_number s adcValue1 f
  obtain ⟨-, hwritten⟩ := dht11Handle_store s.recorder ⟨s.pad.ps2KEY, adcValue1, f⟩
  have hcells : (step s (.dht11Handle adcValue1 f)).recorder.written.drop
      s.recorder.written.length =
        if Touches s.pad.ps2KEY then rowCells s.recorder.number.toNat else [] :=
    (congrArg _ hwritten).trans List.drop_left
  by_cases h13 : s.pad.ps2KEY = 13
  · rw [if_pos h13] at hnumber
    have hnext : (step s (.dht11Handle adcValue1 f)).recorder.number.toNat -
        s.recorder.number.toNat = 1 := by
      rw [hnumber, byte_succ (by omega)]
      exact Nat.add_sub_cancel_left _ 1
    have hwhole : ∀ column, (s.recorder.number.toNat, column) ∈
        (step s (.dht11Handle adcValue1 f)).recorder.written.drop s.recorder.written.length := by
      intro column
      rw [hcells, if_pos (show Touches s.pad.ps2KEY from Or.inl h13)]
      exact mem_rowCells.mpr rfl
    rw [if_pos h13, appended, hnext, List.range'_one, List.filter_eq_self.mpr]
    · rfl
    · intro row hrow
      rw [List.mem_singleton.mp hrow]
      exact decide_eq_true hwhole
  · rw [if_neg h13] at hnumber
    have hnone : (step s (.dht11Handle adcValue1 f)).recorder.number.toNat -
        s.recorder.number.toNat = 0 := by
      rw [hnumber]
      split_ifs
      · exact Nat.zero_sub _
      · exact Nat.sub_self _
    rw [if_neg h13, appended, hnone]
    rfl

/-- The running episode grows by what an iteration appends, and there is nothing to append
without one. -/
theorem Sampled.sample {s : System} {running : Option (List Record)}
    (h : Sampled s (running.map List.length)) (hroom : s.recorder.number.toNat < rows)
    (adcValue1 : BitVec 16) (f : HumidityReading.Frame) :
    let added := appended s (.dht11Handle adcValue1 f)
    (running.map (· ++ added)).map List.length = (running.map List.length).map (· + 1) ∧
      (running.map (· ++ added)).getD [] = running.getD [] ++ added := by
  intro added
  have hadded : added = _ := appended_sample hroom adcValue1 f
  have hkey := h.key
  cases running with
  | none =>
      rw [if_neg fun h13 => Bool.noConfusion (hkey.mp h13)] at hadded
      exact ⟨rfl, hadded.symm⟩
  | some stored =>
      rw [if_pos (hkey.mpr rfl)] at hadded
      refine ⟨?_, rfl⟩
      rw [hadded]
      simp

/-- While there is room, every episode appends as many records as iterations fall into it,
and every record is of an episode. -/
theorem pressRecords_samples {s : System} {running : Option (List Record)}
    (h : Sampled s (running.map List.length)) {events : List Event}
    (hroom : Always step (fun s _ => s.recorder.number.toNat < rows) s events) :
    (pressRecords running s events).map List.length = samples (running.map List.length) events ∧
      (pressRecords running s events).flatten = running.getD [] ++ records s events := by
  induction events generalizing s running with
  | nil => cases running <;> simp [pressRecords, samples, records]
  | cons e events ih =>
      obtain ⟨hnow, hlater⟩ := hroom
      cases e with
      | ps2Handle f =>
          have hnext := h.publish f
          rw [pressRecords, samples, records, appended_publish, List.nil_append]
          by_cases hkey : PadTransaction.frameKey f = 13
          · rw [if_pos hkey] at hnext ⊢
            rw [if_pos hkey]
            have hlength : some ((running.map List.length).getD 0) =
                (some (running.getD [])).map List.length := by
              cases running <;> rfl
            rw [hlength] at hnext ⊢
            exact ih hnext hlater
          · rw [if_neg hkey] at hnext ⊢
            rw [if_neg hkey]
            obtain ⟨hlengths, hflat⟩ := @ih _ none hnext hlater
            rw [List.map_append, List.flatten_append, hlengths, hflat]
            cases running <;> simp
      | dht11Handle adcValue1 f =>
          obtain ⟨hlength, hstored⟩ := h.sample hnow adcValue1 f
          have hnext : Sampled (step s (.dht11Handle adcValue1 f))
              ((running.map (· ++ appended s (.dht11Handle adcValue1 f))).map List.length) := by
            rw [hlength]
            exact ⟨h.pc, h.holds, by rw [Option.isSome_map]; exact h.key⟩
          obtain ⟨hlengths, hflat⟩ := ih hnext hlater
          rw [pressRecords, samples, records, hlengths, hlength, hflat, hstored, List.append_assoc]
          exact ⟨rfl, rfl⟩

/-- While fewer than twenty records are stored, each press episode appends as many rows to the
log as iterations of `dht11_handle` fall into it, and nothing else appends any; so there is
one record for each press when one iteration falls into each. -/
theorem records_of_samples (bus : PadBus.Bus) (replies : Fin 10 → PadBus.Frame)
    (r : HumidityReading.Readings) {events : List Event}
    (hroom : Always step (fun s _ => s.recorder.number.toNat < rows)
      (System.start bus replies r) events) :
    let episodes := pressRecords none (System.start bus replies r) events
    episodes.map List.length = samples none events ∧
      records (System.start bus replies r) events = episodes.flatten ∧
      episodes.length = pressEpisodes false (published events) ∧
      ((∀ count ∈ samples none events, count = 1) →
        (records (System.start bus replies r) events).length =
          pressEpisodes false (published events)) := by
  intro episodes
  obtain ⟨hlengths, hflat⟩ :=
    @pressRecords_samples _ none (sampled_start bus replies r) _ hroom
  have hlengths : episodes.map List.length = samples none events := hlengths
  have hflat : episodes.flatten = records (System.start bus replies r) events := hflat
  have hcount : episodes.length = pressEpisodes false (published events) := by
    rw [← List.length_map (f := List.length), hlengths]
    exact (samples_length none events).trans (Nat.zero_add _)
  refine ⟨hlengths, hflat.symm, hcount, fun hone => ?_⟩
  rw [← hlengths] at hone
  rw [← hflat, List.length_flatten, List.eq_replicate_of_mem hone, List.sum_replicate_nat,
    List.length_map, Nat.mul_one, hcount]

/-! ### Long and short presses -/

theorem number_le_succ (s : System) (e : Event) :
    (step s e).recorder.number.toNat ≤ s.recorder.number.toNat + 1 := by
  cases e with
  | ps2Handle f => exact Nat.le_succ _
  | dht11Handle adcValue1 f =>
      rw [step_number]
      split_ifs
      · rw [BitVec.toNat_add]
        exact Nat.mod_le _ _
      · exact Nat.zero_le _
      · exact Nat.le_succ _

/-- A run that is not longer than the free rows keeps within them. -/
theorem room_of_short {s : System} {events : List Event}
    (h : s.recorder.number.toNat + events.length ≤ rows) :
    Always step (fun s _ => s.recorder.number.toNat < rows) s events := by
  induction events generalizing s with
  | nil => trivial
  | cons e events ih =>
      have hnext := number_le_succ s e
      rw [List.length_cons] at h
      exact ⟨by omega, ih (by omega)⟩

def sensed : Event := .dht11Handle 0 fun _ => 0

/-- The pad with no key pressed. -/
def released : PadBus.Frame := ![0xFF, 0x73, 0x5A, 0xFF, 0xFF, 0x80, 0x80, 0x7F, 0x80]

def started : System :=
  System.start PadBus.Bus.released (fun _ => released) HumidityReading.Readings.boot

theorem room_started {events : List Event} (h : events.length ≤ rows) :
    Always step (fun s _ => s.recorder.number.toNat < rows) started events :=
  room_of_short ((Nat.zero_add _).trans_le h)

/-- Two presses with one iteration in each. -/
theorem two_presses_two_records :
    (records started [.ps2Handle PadTransaction.greenHeld, sensed, .ps2Handle released,
        .ps2Handle PadTransaction.greenHeld, sensed]).length =
      pressEpisodes false (published [.ps2Handle PadTransaction.greenHeld, sensed,
        .ps2Handle released, .ps2Handle PadTransaction.greenHeld, sensed]) :=
  (records_of_samples _ _ _ (room_started (by decide))).2.2.2 (by decide)

theorem records_started_length {events : List Event} (h : events.length ≤ rows) :
    (records started events).length = (samples none events).sum := by
  obtain ⟨hlengths, hflat⟩ :=
    @pressRecords_samples _ none (sampled_start _ _ _) _ (room_started h)
  have hflat : _ = records started events := hflat
  rw [← hflat, List.length_flatten, hlengths]
  rfl

def longPress : List Event := [.ps2Handle PadTransaction.greenHeld, sensed, sensed]

def shortPress : List Event :=
  [.ps2Handle PadTransaction.greenHeld, .ps2Handle released, sensed]

/-- One press stored twice, and one press lost, with all rows free. -/
theorem press_not_one_record :
    (Always step (fun s _ => s.recorder.number.toNat < rows) started longPress ∧
      (records started longPress).length = 2 ∧ pressEpisodes false (published longPress) = 1) ∧
    (Always step (fun s _ => s.recorder.number.toNat < rows) started shortPress ∧
      (records started shortPress).length = 0 ∧
        pressEpisodes false (published shortPress) = 1) := by
  have hlong : longPress.length ≤ rows := by decide
  have hshort : shortPress.length ≤ rows := by decide
  rw [records_started_length hlong, records_started_length hshort]
  exact ⟨⟨room_started hlong, by decide⟩, ⟨room_started hshort, by decide⟩⟩

end ExpertCar.PressRecords
