import ExpertCar.PadHandle

/-!
# What the pad hears

The pad samples DO on every pulse while CS is low. Over a whole run of the pad
thread it is sent the configuration transactions once, in order, and from then on
the same nine bytes in every poll, whatever it answers: seven of these bytes are
the level the last command bit left on DO, so that a poll always asks for motors
at rest.
-/
namespace ExpertCar.PadWire
open BitOrder PadBus PadTransaction PadHandle StepRuns

theorem foldl_ps2Cmd_midway (bytes : List Byte) (reply : ℕ → Bool) (handkey : BitVec 16)
    (clk d : Bool) (n : ℕ) (r : List Bool) (data : Fin 9 → Byte) :
    ∃ clk' d' data', bytes.foldl (fun p cmd => ps2Cmd cmd p)
        ⟨midway reply clk d n r, data, handkey⟩ =
      ⟨midway reply clk' d' (n + 8 * bytes.length) (r ++ bytes.flatMap lsbFirst), data',
        handkey⟩ := by
  induction bytes generalizing clk d n r data with
  | nil => exact ⟨clk, d, data, by simp⟩
  | cons cmd bytes ih =>
      rw [List.foldl_cons, ps2Cmd_midway]
      obtain ⟨clk', d', data', hfold⟩ := ih true (cmd.getLsbD 7) (n + 8)
        (r ++ lsbFirst cmd) (Function.update data 1 (wireByte reply n))
      have hn : n + 8 + 8 * bytes.length = n + 8 * (cmd :: bytes).length := by
        rw [List.length_cons]
        omega
      refine ⟨clk', d', data', ?_⟩
      rw [hfold, hn, List.append_assoc]
      rfl

/-- One transaction, with CS high before it: the pad samples the bits of the bytes,
each low bit first. -/
theorem transaction_wire (bytes : List Byte) {p : Pad} (hcs : p.bus.cs = true) :
    (transaction bytes p).bus.received = bytes.flatMap lsbFirst := by
  obtain ⟨bus, data, handkey⟩ := p
  obtain ⟨clk', d', data', hfold⟩ :=
    foldl_ps2Cmd_midway bytes bus.reply handkey bus.clk bus.dO 0 [] data
  have hsel : bus.writeCs false = midway bus.reply bus.clk bus.dO 0 [] := Bus.writeCs_select hcs
  simp only [transaction, hsel, hfold]
  simp [Bus.writeCs, midway]

/-! ### The whole conversation -/

/-- The transactions of `PS2_SetInit` and `PS2_Vibration(0x00, 0x40)`. -/
def startup : List (List Byte) :=
  [[0x01, 0x42, 0x00, 0x00, 0x00], [0x01, 0x42, 0x00, 0x00, 0x00], [0x01, 0x42, 0x00, 0x00, 0x00],
    [0x01, 0x43, 0x00, 0x01, 0x00, 0x00, 0x00, 0x00, 0x00],
    [0x01, 0x44, 0x00, 0x01, 0x03, 0x00, 0x00, 0x00, 0x00],
    [0x01, 0x4D, 0x00, 0x00, 0x01],
    [0x01, 0x43, 0x00, 0x00, 0x5A, 0x5A, 0x5A, 0x5A, 0x5A],
    [0x01, 0x42, 0x00, 0x00, 0x40, 0x00, 0x00, 0x00, 0x00]]

theorem setup_eq : setup = startup.map transaction := rfl

/-- The `n`th transaction: those of the start, and one poll after another. -/
def script (n : ℕ) : List Byte := startup.getD n sentBytes

/-- The step talks to the pad. -/
def talks (t : PadThread) : Bool :=
  match t.pc with
  | .setup k => decide (k < 8)
  | .key => true
  | _ => false

/-- The bits the pad sampled in each transaction of the run. -/
def heard : PadThread → List Frame → List (List Bool)
  | _, [] => []
  | t, f :: fs =>
      let t' := ps2HandleStep t f
      (if talks t then [t'.pad.bus.received] else []) ++ heard t' fs

/-- `n` transactions are behind the thread. -/
structure Spoken (n : ℕ) (t : PadThread) : Prop where
  place : match t.pc with
    | .init => n = 0
    | .setup k => n = k ∧ k ≤ 8
    | _ => 8 ≤ n
  cs : t.pc ≠ .init → t.pad.bus.cs = true

theorem Spoken.step {n : ℕ} {t : PadThread} (h : Spoken n t) (f : Frame) :
    if talks t then
      (ps2HandleStep t f).pad.bus.received = (script n).flatMap lsbFirst ∧
        Spoken (n + 1) (ps2HandleStep t f)
    else Spoken n (ps2HandleStep t f) := by
  rcases t with ⟨pc, pad, lx, ly, rx, ry, key, beep⟩
  obtain ⟨hplace, hcs⟩ := h
  cases pc with
  | init => exact ⟨⟨hplace, Nat.zero_le 8⟩, fun _ => rfl⟩
  | setup k =>
      obtain ⟨rfl, hk⟩ := hplace
      have hhigh : pad.bus.cs = true := hcs (by simp)
      by_cases hlt : n < 8
      · have hget : startup[n]? = some (script n) := by
          have hlen : n < startup.length := hlt
          rw [script, List.getD_eq_getElem?_getD, List.getElem?_eq_getElem hlen]
          rfl
        have hattached : ({ pad with bus := pad.bus.attach f } : Pad).bus.cs = true := hhigh
        simp only [talks, hlt, decide_true, if_true, ps2HandleStep, setup_eq, List.getElem?_map,
          hget, Option.map_some]
        exact ⟨transaction_wire _ hattached, ⟨rfl, hlt⟩, fun _ => transaction_cs _ _⟩
      · have heq : n = 8 := by omega
        subst heq
        exact ⟨le_refl 8, fun _ => hhigh⟩
  | key =>
      have hhigh : pad.bus.cs = true := hcs (by simp)
      have hread : ps2HandleStep ⟨.key, pad, lx, ly, rx, ry, key, beep⟩ f =
          readKey f ⟨.key, pad, lx, ly, rx, ry, key, beep⟩ := rfl
      have hpoll : script n = sentBytes := by
        rw [script, List.getD_eq_getElem?_getD, List.getElem?_eq_none (show 8 ≤ n from hplace)]
        rfl
      simp only [talks, if_true, hread, readKey, ps2DataKey_eq hhigh, hpoll]
      exact ⟨rfl, Nat.le_succ_of_le hplace, fun _ => rfl⟩
  | lx | ly | rx | ry | beep => exact ⟨hplace, fun _ => hcs (by simp)⟩

theorem Spoken.heard {n : ℕ} {t : PadThread} (h : Spoken n t) (fs : List Frame) :
    heard t fs = (List.range' n (heard t fs).length).map fun i => (script i).flatMap lsbFirst := by
  induction fs generalizing n t with
  | nil => rfl
  | cons f fs ih =>
      have hstep := h.step f
      rw [PadWire.heard]
      split_ifs at hstep ⊢ with htalks
      · have hrest := ih hstep.2
        rw [hstep.1]
        simp only [List.singleton_append, List.length_cons, List.range'_succ, List.map_cons]
        exact congrArg _ hrest
      · simpa using ih hstep

/-- Whatever the pad answers and however long the thread runs, the bits the pad
samples are those of the script: the eight transactions of the start, then polls
of one fixed content, each complete. -/
theorem heard_eq_script (bus : Bus) (frames : List Frame) :
    let bits := heard (PadThread.boot bus) frames
    bits = (List.range bits.length).map fun n => (script n).flatMap lsbFirst := by
  intro bits
  rw [List.range_eq_range']
  exact Spoken.heard ⟨rfl, fun h => absurd rfl h⟩ frames

end ExpertCar.PadWire
