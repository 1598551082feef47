import ExpertCar.PadTransaction
import ExpertCar.StepRuns

/-!
# The pad thread

`PS2_handle`: pin setup, eight configuration transactions, then a loop that
copies four stick bytes out of `Data` and only then calls `PS2_DataKey`, which
clears and refills `Data`. The thread is cut into the steps between which other
threads may look at its globals; the pad answers each transaction with a frame
of its own. The published globals only ever receive bytes, so they are bytes.
-/
namespace ExpertCar.PadHandle
open PadBus PadTransaction StepRuns

/-- `CS_L`, the command bytes, `CS_H`: the shape shared by the configuration calls. -/
def transaction (bytes : List Byte) (p : Pad) : Pad :=
  let p := { p with bus := p.bus.writeCs false }
  let p := bytes.foldl (fun p cmd => ps2Cmd cmd p) p
  { p with bus := p.bus.writeCs true }

def ps2ShortPoll : Pad → Pad := transaction [0x01, 0x42, 0x00, 0x00, 0x00]
def ps2EnterConfing : Pad → Pad :=
  transaction [0x01, 0x43, 0x00, 0x01, 0x00, 0x00, 0x00, 0x00, 0x00]
def ps2TurnOnAnalogMode : Pad → Pad :=
  transaction [0x01, 0x44, 0x00, 0x01, 0x03, 0x00, 0x00, 0x00, 0x00]
def ps2VibrationMode : Pad → Pad := transaction [0x01, 0x4D, 0x00, 0x00, 0x01]
def ps2ExitConfing : Pad → Pad :=
  transaction [0x01, 0x43, 0x00, 0x00, 0x5A, 0x5A, 0x5A, 0x5A, 0x5A]
def ps2Vibration (motor1 motor2 : Byte) : Pad → Pad :=
  transaction [0x01, 0x42, 0x00, motor1, motor2, 0x00, 0x00, 0x00, 0x00]

def ps2SetInit : List (Pad → Pad) :=
  [ps2ShortPoll, ps2ShortPoll, ps2ShortPoll, ps2EnterConfing, ps2TurnOnAnalogMode,
    ps2VibrationMode, ps2ExitConfing]

def setup : List (Pad → Pad) := ps2SetInit ++ [ps2Vibration 0x00 0x40]

def ps2Init (p : Pad) : Pad :=
  { p with bus := ((p.bus.writeCs true).writeClk true).writeDo true }

inductive Pc where
  | init | setup (k : ℕ) | lx | ly | rx | ry | key | beep
  deriving DecidableEq, Repr

structure PadThread where
  pc : Pc
  pad : Pad
  ps2LX : Byte
  ps2LY : Byte
  ps2RX : Byte
  ps2RY : Byte
  ps2KEY : Byte
  beepValue : Byte

/-- File-scope data is zero at boot; the pins may be in any state. -/
def PadThread.boot (bus : Bus) : PadThread := ⟨.init, ⟨bus, fun _ => 0, 0⟩, 0, 0, 0, 0, 0, 0⟩

def ps2AnologData (button : Fin 9) (t : PadThread) : Byte := t.pad.data button

def publishLX (t : PadThread) : PadThread := { t with ps2LX := ps2AnologData 7 t, pc := .ly }
def publishLY (t : PadThread) : PadThread := { t with ps2LY := ps2AnologData 8 t, pc := .rx }
def publishRX (t : PadThread) : PadThread := { t with ps2RX := ps2AnologData 5 t, pc := .ry }
def publishRY (t : PadThread) : PadThread := { t with ps2RY := ps2AnologData 6 t, pc := .key }

/-- `PS2_KEY = PS2_DataKey();` with the frame the pad answers. -/
def readKey (f : Frame) (t : PadThread) : PadThread :=
  let r := ps2DataKey { t.pad with bus := t.pad.bus.attach f }
  { t with ps2KEY := r.1, pad := r.2, pc := .beep }

def setBeep (t : PadThread) : PadThread :=
  { t with beepValue := if t.ps2KEY ≠ 0 then 1 else 0, pc := .lx }

/-- One step of `PS2_handle`; `f` is what the pad answers if the step talks to it. -/
def ps2HandleStep (t : PadThread) (f : Frame) : PadThread :=
  match t.pc with
  | .init => { t with pad := ps2Init t.pad, pc := .setup 0 }
  | .setup k =>
      match setup[k]? with
      | some send =>
          { t with pad := send { t.pad with bus := t.pad.bus.attach f }, pc := .setup (k + 1) }
      | none => { t with pc := .lx }
  | .lx => publishLX t
  | .ly => publishLY t
  | .rx => publishRX t
  | .ry => publishRY t
  | .key => readKey f t
  | .beep => setBeep t

def ps2Loop (t : PadThread) (f : Frame) : PadThread :=
  setBeep (readKey f (publishRY (publishRX (publishLY (publishLX t)))))

/-- An iteration is six steps of the thread. -/
theorem ps2Loop_eq_steps {t : PadThread} (h : t.pc = .lx) (f : Frame) :
    run ps2HandleStep t (List.replicate 6 f) = ps2Loop t f := by
  simp only [List.replicate, run_cons, run_nil]
  rw [show ps2HandleStep t f = publishLX t by simp [ps2HandleStep, h]]
  rfl

/-! ### The configuration transactions keep the sticks -/

theorem ps2HandleStep_setup {t : PadThread} {k : ℕ} (h : t.pc = .setup k) (f : Frame) :
    (ps2HandleStep t f).ps2LX = t.ps2LX ∧ (ps2HandleStep t f).ps2LY = t.ps2LY ∧
      (ps2HandleStep t f).ps2RX = t.ps2RX ∧ (ps2HandleStep t f).ps2RY = t.ps2RY := by
  simp only [ps2HandleStep, h]
  split <;> exact ⟨rfl, rfl, rfl, rfl⟩

theorem ps2CmdBit_data (cmd : Byte) (p : Pad) (k : ℕ) {i : Fin 9} (hi : i ≠ 1) :
    (ps2CmdBit cmd p k).data i = p.data i := by
  simp [ps2CmdBit, sampleDi_eq, Function.update_of_ne hi]

theorem ps2Cmd_data (cmd : Byte) (p : Pad) {i : Fin 9} (hi : i ≠ 1) :
    (ps2Cmd cmd p).data i = p.data i := by
  unfold ps2Cmd
  refine (run_invariant (P := fun q : Pad => q.data i = p.data i) (ps2CmdBit cmd) ?_ ?_ _ :)
  · intro q k hq
    rw [ps2CmdBit_data cmd q k hi, hq]
  · exact Function.update_of_ne hi _ _

theorem transaction_data (bytes : List Byte) (p : Pad) {i : Fin 9} (hi : i ≠ 1) :
    (transaction bytes p).data i = p.data i := by
  unfold transaction
  refine (run_invariant (P := fun q : Pad => q.data i = p.data i)
    (fun q cmd => ps2Cmd cmd q) ?_ ?_ bytes :)
  · intro q cmd hq
    rw [ps2Cmd_data cmd q hi, hq]
  · rfl

theorem transaction_cs (bytes : List Byte) (p : Pad) : (transaction bytes p).bus.cs = true := rfl

theorem setup_transaction {send : Pad → Pad} (h : send ∈ setup) :
    ∃ bytes, send = transaction bytes := by
  simp only [setup, ps2SetInit, List.cons_append, List.nil_append, List.mem_cons,
    List.not_mem_nil, or_false] at h
  rcases h with rfl | rfl | rfl | rfl | rfl | rfl | rfl | rfl <;> exact ⟨_, rfl⟩

/-- The frame whose sticks `Data` holds before any frame has been read. -/
def noFrame : Frame := fun _ => 0

/-- `Data` beyond the identification byte is that of `last`, and CS is high once
the pins are set up. -/
structure Holds (last : Frame) (t : PadThread) : Prop where
  data : ∀ i : Fin 9, i ≠ 0 → i ≠ 1 → t.pad.data i = last i
  cs : t.pc ≠ .init → t.pad.bus.cs = true

theorem holds_boot (bus : Bus) : Holds noFrame (PadThread.boot bus) :=
  ⟨fun _ _ _ => rfl, fun h => (h rfl).elim⟩

/-- Only the read replaces what `Data` holds. -/
theorem holds_step {last : Frame} {t : PadThread} (h : Holds last t) (f : Frame) :
    Holds (if t.pc = .key then f else last) (ps2HandleStep t f) := by
  rcases t with ⟨pc, pad, lx, ly, rx, ry, key, beep⟩
  cases pc with
  | init => exact ⟨fun i h0 h1 => h.data i h0 h1, fun _ => rfl⟩
  | setup k =>
      have hcs : pad.bus.cs = true := h.cs (by simp)
      cases hk : setup[k]? with
      | none =>
          simp only [ps2HandleStep, hk, reduceCtorEq, if_false]
          exact ⟨h.data, fun _ => hcs⟩
      | some send =>
          obtain ⟨bytes, rfl⟩ := setup_transaction (List.mem_of_getElem? hk)
          simp only [ps2HandleStep, hk, reduceCtorEq, if_false]
          refine ⟨fun i h0 h1 => ?_, fun _ => transaction_cs _ _⟩
          rw [transaction_data bytes _ h1]
          exact h.data i h0 h1
  | key =>
      have hcs : pad.bus.cs = true := h.cs (by simp)
      have hread : ps2HandleStep ⟨.key, pad, lx, ly, rx, ry, key, beep⟩ f =
          readKey f ⟨.key, pad, lx, ly, rx, ry, key, beep⟩ := rfl
      rw [hread, readKey, ps2DataKey_eq hcs]
      exact ⟨fun i h0 _ => if_neg h0, fun _ => rfl⟩
  | lx | ly | rx | ry | beep => exact ⟨h.data, fun _ => h.cs (by simp)⟩

/-- The thread when it reaches its loop, after ten steps. -/
def loopEntry (bus : Bus) (replies : Fin 10 → Frame) : PadThread :=
  run ps2HandleStep (PadThread.boot bus) (List.ofFn replies)

theorem loopEntry_pc (bus : Bus) (replies : Fin 10 → Frame) : (loopEntry bus replies).pc = .lx :=
  rfl

theorem holds_run {last : Frame} {t : PadThread} (h : Holds last t) (fs : List Frame)
    (hpc : Always ps2HandleStep (fun t _ => t.pc ≠ .key) t fs) :
    Holds last (run ps2HandleStep t fs) := by
  induction fs generalizing t with
  | nil => exact h
  | cons f fs ih =>
      have hstep := holds_step h f
      rw [if_neg hpc.1] at hstep
      exact ih hstep hpc.2

theorem holds_loopEntry (bus : Bus) (replies : Fin 10 → Frame) :
    Holds noFrame (loopEntry bus replies) := by
  refine holds_run (holds_boot bus) _ ?_
  refine ⟨?_, ?_, ?_, ?_, ?_, ?_, ?_, ?_, ?_, ?_, trivial⟩ <;> exact nofun

theorem ps2Loop_eq {t : PadThread} (hcs : t.pad.bus.cs = true) (f : Frame) :
    ps2Loop t f =
      ⟨.lx, ⟨{ midway (replyBits f) true false 72 (sentBytes.flatMap BitOrder.lsbFirst)
            with cs := true }, frameData f, ((f 4).setWidth 16 <<< 8) ||| (f 3).setWidth 16⟩,
        t.pad.data 7, t.pad.data 8, t.pad.data 5, t.pad.data 6, frameKey f,
        if frameKey f ≠ 0 then 1 else 0⟩ := by
  simp only [ps2Loop, publishLX, publishLY, publishRX, publishRY, readKey, setBeep,
    ps2AnologData, ps2DataKey_eq hcs f]

/-- What one iteration publishes and leaves in `Data`: sticks from what was
there, key and new content from the frame it reads. -/
theorem ps2Loop_spec {last : Frame} {t : PadThread} (h : Holds last t) (hpc : t.pc = .lx)
    (f : Frame) :
    (ps2Loop t f).pc = .lx ∧ Holds f (ps2Loop t f) ∧
      (ps2Loop t f).ps2LX = last 7 ∧ (ps2Loop t f).ps2LY = last 8 ∧
      (ps2Loop t f).ps2RX = last 5 ∧ (ps2Loop t f).ps2RY = last 6 ∧
      (ps2Loop t f).ps2KEY = frameKey f := by
  rw [ps2Loop_eq (h.cs (by simp [hpc])) f]
  exact ⟨rfl, ⟨fun i h0 _ => if_neg h0, fun _ => rfl⟩, h.data 7 (by decide) (by decide),
    h.data 8 (by decide) (by decide), h.data 5 (by decide) (by decide),
    h.data 6 (by decide) (by decide), rfl⟩

/-- The frame before `frames`' successor: the last one read, none at first. -/
def lastFrame (frames : List Frame) : Frame := frames.getLastD noFrame

theorem ps2Loop_run (bus : Bus) (replies : Fin 10 → Frame) (frames : List Frame) :
    (run ps2Loop (loopEntry bus replies) frames).pc = .lx ∧
      Holds (lastFrame frames) (run ps2Loop (loopEntry bus replies) frames) := by
  induction frames using List.reverseRecOn with
  | nil => exact ⟨rfl, holds_loopEntry bus replies⟩
  | append_singleton frames f ih =>
      rw [run_concat]
      have h := ps2Loop_spec ih.2 ih.1 f
      refine ⟨h.1, ?_⟩
      simpa [lastFrame] using h.2.1

/-- The published globals are all taken from the frame `f`. -/
structure Coherent (t : PadThread) (f : Frame) : Prop where
  rx : t.ps2RX = f 5
  ry : t.ps2RY = f 6
  lx : t.ps2LX = f 7
  ly : t.ps2LY = f 8
  key : IsKey ((f 4).toNat * 256 + (f 3).toNat) t.ps2KEY.toNat

def SameSticks (f g : Frame) : Prop := f 5 = g 5 ∧ f 6 = g 6 ∧ f 7 = g 7 ∧ f 8 = g 8

/-- After any number of iterations the globals show the frame of the last one
exactly when its sticks repeat those of the frame before it. -/
theorem coherent_iff_sticks_repeat (bus : Bus) (replies : Fin 10 → Frame)
    (frames : List Frame) (f : Frame) :
    Coherent (run ps2Loop (loopEntry bus replies) (frames ++ [f])) f ↔
      SameSticks (lastFrame frames) f := by
  obtain ⟨hpc, hholds⟩ := ps2Loop_run bus replies frames
  obtain ⟨-, -, hlx, hly, hrx, hry, hkey⟩ := ps2Loop_spec hholds hpc f
  rw [run_concat]
  constructor
  · rintro ⟨rx, ry, lx, ly, -⟩
    exact ⟨hrx ▸ rx, hry ▸ ry, hlx ▸ lx, hly ▸ ly⟩
  · rintro ⟨h5, h6, h7, h8⟩
    refine ⟨hrx.trans h5, hry.trans h6, hlx.trans h7, hly.trans h8, ?_⟩
    rw [hkey]
    exact scanMask_isKey (f 4) (f 3)

/-- A resting analog pad whose first frame is read: the sticks published with
its key are the zeros `Data` held before. -/
theorem first_frame_not_coherent :
    ¬ Coherent (run ps2Loop (loopEntry Bus.released fun _ => greenHeld) [greenHeld])
      greenHeld := by
  intro h
  have hspec := ps2Loop_spec (holds_loopEntry Bus.released fun _ => greenHeld)
    (loopEntry_pc Bus.released _) greenHeld
  have hlx := hspec.2.2.1.symm.trans h.lx
  exact absurd hlx (by decide)

end ExpertCar.PadHandle
