import ExpertCar.BitOrder
import ExpertCar.LcdPanel

/-!
# The bit-banged wire to the display

`SPI_SendByte` and the three functions over it as the pin writes they make, and
a receiver that samples SDA on the rising edges of SCK while CS is low. Eight
samples are one byte, first bit highest, tagged with the level of DC; a rising CS
drops what is left of a byte. Whatever levels the pins have at the start, the
receiver collects exactly the bytes of the calls, and never drops one.
-/
namespace ExpertCar.SpiWire
open StepRuns BitOrder LcdPanel

inductive Pin where
  | sck
  | sda
  | dc
  | cs
  deriving DecidableEq

/-- `rt_pin_write(pin, level)`. -/
abbrev PinWrite := Pin × Bool

/-- Body of the loop, with the level that the top bit of `byte` selects. -/
def sendBit (level : Bool) : List PinWrite :=
  [(.sck, false), (.sda, level), (.sck, true), (.sck, false)]

/-- The loop with `counter` iterations to go; `byte` is shifted in each. -/
def sendLoop : ℕ → Byte → List PinWrite
  | 0, _ => []
  | counter + 1, byte =>
      sendBit (if byte &&& 0x80 = 0 then false else true) ++ sendLoop counter (byte <<< 1)

def spiSendByte (byte : Byte) : List PinWrite := sendLoop 8 byte

def tftSendCmd (oCommand : Byte) : List PinWrite :=
  (.dc, false) :: (.cs, false) :: spiSendByte oCommand ++ [(.cs, true)]

def tftSendData (oData : Byte) : List PinWrite :=
  (.dc, true) :: (.cs, false) :: spiSendByte oData ++ [(.cs, true)]

/-- The arguments of `SPI_SendByte` are cut to their low byte. -/
def tftWriteHalfWord (da : BitVec 16) : List PinWrite :=
  (.dc, true) :: (.cs, false) :: spiSendByte ((da >>> 8).setWidth 8) ++
    spiSendByte (da.setWidth 8) ++ [(.cs, true)]

inductive Call where
  | sendCmd (oCommand : Byte)
  | sendData (oData : Byte)
  | writeHalfWord (da : BitVec 16)

def Call.writes : Call → List PinWrite
  | .sendCmd oCommand => tftSendCmd oCommand
  | .sendData oData => tftSendData oData
  | .writeHalfWord da => tftWriteHalfWord da

/-- The bytes a call stands for. -/
def Call.sends : Call → List Send
  | .sendCmd oCommand => [.cmd oCommand]
  | .sendData oData => [.data oData]
  | .writeHalfWord da => sendWord da

/-! ### The receiver -/

/-- Levels on the wire, the samples since the last byte, the bytes received, and
the incomplete bytes dropped. -/
structure Receiver where
  sck : Bool
  sda : Bool
  dc : Bool
  cs : Bool
  samples : List Bool
  received : List Send
  dropped : List (List Bool)

def assemble (samples : List Bool) : Byte := samples.foldl shiftIn 0#8

def tag (dc : Bool) (byte : Byte) : Send := if dc then .data byte else .cmd byte

def Receiver.sample (r : Receiver) : Receiver :=
  if r.samples.length = 7 then
    { r with
      samples := []
      received := r.received ++ [tag r.dc (assemble (r.samples ++ [r.sda]))] }
  else { r with samples := r.samples ++ [r.sda] }

def Receiver.write (r : Receiver) : PinWrite → Receiver
  | (.sck, true) =>
      if r.sck = false ∧ r.cs = false then { r with sck := true }.sample else { r with sck := true }
  | (.sck, false) => { r with sck := false }
  | (.sda, level) => { r with sda := level }
  | (.dc, level) => { r with dc := level }
  | (.cs, true) =>
      { r with
        cs := true
        samples := []
        dropped := if r.samples = [] then r.dropped else r.dropped ++ [r.samples] }
  | (.cs, false) => { r with cs := false }

/-- A receiver that is not selected, at any levels of the other pins. -/
def Receiver.idle (sck sda dc : Bool) : Receiver := ⟨sck, sda, dc, true, [], [], []⟩

/-! ### One byte -/

theorem top_bit (byte : Byte) :
    (if byte &&& 0x80 = 0 then false else true) = byte.getMsbD 0 := by
  revert byte
  decide +kernel

theorem getMsbD_shift (byte : Byte) (i : ℕ) : (byte <<< 1).getMsbD i = byte.getMsbD (i + 1) := by
  rw [BitVec.getMsbD_shiftLeft, Nat.add_comm]

theorem sendLoop_eq (counter : ℕ) (byte : Byte) :
    sendLoop counter byte = ((List.range counter).map byte.getMsbD).flatMap sendBit := by
  induction counter generalizing byte with
  | zero => rfl
  | succ counter ih =>
      have hrest : (List.range counter).map (byte <<< 1).getMsbD =
          (List.range counter).map (byte.getMsbD ∘ Nat.succ) :=
        List.map_congr_left fun i _ => getMsbD_shift byte i
      rw [sendLoop, ih, hrest, top_bit, List.range_succ_eq_map, List.map_cons, List.map_map,
        List.flatMap_cons]

theorem spiSendByte_eq (byte : Byte) : spiSendByte byte = (msbFirst byte).flatMap sendBit :=
  sendLoop_eq 8 byte

/-- The receiver is selected and has dropped nothing so far. -/
structure Listening (r : Receiver) (dc : Bool) (samples : List Bool) (received : List Send) :
    Prop where
  dc : r.dc = dc
  cs : r.cs = false
  samples : r.samples = samples
  received : r.received = received
  dropped : r.dropped = []

/-- The one rising edge of a bit samples its level, whatever SCK was before. -/
theorem run_sendBit {r : Receiver} (hcs : r.cs = false) (level : Bool) :
    run Receiver.write r (sendBit level) =
      { { r with sck := true, sda := level }.sample with sck := false } := by
  simp only [sendBit, run_cons, run_nil, Receiver.write, hcs, and_self, if_true]

theorem listening_bit {r : Receiver} {dc : Bool} {samples : List Bool} {received : List Send}
    (h : Listening r dc samples received) (hlen : samples.length ≠ 7) (level : Bool) :
    Listening (run Receiver.write r (sendBit level)) dc (samples ++ [level]) received := by
  have hnot : ¬ r.samples.length = 7 := by rw [h.samples]; exact hlen
  rw [run_sendBit h.cs]
  simp only [Receiver.sample, if_neg hnot]
  exact ⟨h.dc, h.cs, by rw [h.samples], h.received, h.dropped⟩

theorem listening_last {r : Receiver} {dc : Bool} {samples : List Bool} {received : List Send}
    (h : Listening r dc samples received) (hlen : samples.length = 7) (level : Bool) :
    Listening (run Receiver.write r (sendBit level)) dc []
      (received ++ [tag dc (assemble (samples ++ [level]))]) := by
  have hlast : r.samples.length = 7 := by rw [h.samples]; exact hlen
  rw [run_sendBit h.cs]
  simp only [Receiver.sample, if_pos hlast]
  exact ⟨h.dc, h.cs, rfl, by rw [h.received, h.dc, h.samples], h.dropped⟩

/-- The levels that complete a byte: the induction is on those still to come. -/
theorem listening_levels {r : Receiver} {dc : Bool} {samples : List Bool} {received : List Send}
    (h : Listening r dc samples received) (level : Bool) (levels : List Bool)
    (hlen : samples.length + levels.length = 7) :
    Listening (run Receiver.write r ((level :: levels).flatMap sendBit)) dc []
      (received ++ [tag dc (assemble (samples ++ level :: levels))]) := by
  induction levels generalizing r samples level with
  | nil =>
      rw [List.flatMap_singleton]
      exact listening_last h hlen level
  | cons next levels ih =>
      rw [List.length_cons] at hlen
      have hbit := listening_bit h (by omega) level
      have hrest := ih hbit next (by rw [List.length_append, List.length_singleton]; omega)
      rw [List.flatMap_cons, run_append]
      rwa [List.append_assoc] at hrest

theorem listening_byte {r : Receiver} {dc : Bool} {received : List Send}
    (h : Listening r dc [] received) (byte : Byte) :
    Listening (run Receiver.write r (spiSendByte byte)) dc [] (received ++ [tag dc byte]) := by
  obtain ⟨level, levels, hbits⟩ : ∃ level levels, msbFirst byte = level :: levels :=
    ⟨_, _, rfl⟩
  have hlen : levels.length = 7 := by
    have := msbFirst_length byte
    rw [hbits, List.length_cons] at this
    omega
  have hlevels := listening_levels h level levels (by rw [hlen]; rfl)
  rw [← hbits, List.nil_append, assemble, foldl_shiftIn_msbFirst] at hlevels
  rw [spiSendByte_eq]
  exact hlevels

/-! ### Calls -/

/-- Between calls: not selected, no samples pending and none dropped. -/
structure Between (r : Receiver) (received : List Send) : Prop where
  cs : r.cs = true
  samples : r.samples = []
  received : r.received = received
  dropped : r.dropped = []

theorem between_idle (sck sda dc : Bool) : Between (Receiver.idle sck sda dc) [] :=
  ⟨rfl, rfl, rfl, rfl⟩

/-- Selecting the receiver raises no clock edge. -/
theorem Between.select {r : Receiver} {received : List Send} (h : Between r received) (dc : Bool) :
    Listening (run Receiver.write r [(.dc, dc), (.cs, false)]) dc [] received := by
  cases dc with
  | false => exact ⟨rfl, rfl, h.samples, h.received, h.dropped⟩
  | true => exact ⟨rfl, rfl, h.samples, h.received, h.dropped⟩

/-- Releasing it after whole bytes drops nothing. -/
theorem Listening.release {r : Receiver} {dc : Bool} {received : List Send}
    (h : Listening r dc [] received) :
    Between (run Receiver.write r [(.cs, true)]) received := by
  refine ⟨rfl, rfl, h.received, ?_⟩
  simp only [run_cons, run_nil, Receiver.write, if_pos h.samples]
  exact h.dropped

theorem listening_bytes {r : Receiver} {dc : Bool} {received : List Send}
    (h : Listening r dc [] received) (bytes : List Byte) :
    Listening (run Receiver.write r (bytes.flatMap spiSendByte)) dc []
      (received ++ bytes.map (tag dc)) := by
  induction bytes generalizing r received with
  | nil =>
      rw [List.map_nil, List.append_nil]
      exact h
  | cons byte bytes ih =>
      have hrest := ih (listening_byte h byte)
      rw [List.flatMap_cons, run_append]
      rwa [List.append_assoc] at hrest

/-- One selection with any number of bytes in it. -/
theorem between_bytes {r : Receiver} {received : List Send} (h : Between r received) (dc : Bool)
    (bytes : List Byte) :
    Between (run Receiver.write r
        ((.dc, dc) :: (.cs, false) :: bytes.flatMap spiSendByte ++ [(.cs, true)]))
      (received ++ bytes.map (tag dc)) := by
  have hbytes := listening_bytes (h.select dc) bytes
  rw [run_append]
  exact hbytes.release

theorem between_call {r : Receiver} {received : List Send} (h : Between r received) (c : Call) :
    Between (run Receiver.write r c.writes) (received ++ c.sends) := by
  cases c with
  | sendCmd oCommand =>
      have hbytes := between_bytes h false [oCommand]
      rwa [List.flatMap_singleton] at hbytes
  | sendData oData =>
      have hbytes := between_bytes h true [oData]
      rwa [List.flatMap_singleton] at hbytes
  | writeHalfWord da =>
      have hbytes := between_bytes h true [(da >>> 8).setWidth 8, da.setWidth 8]
      rwa [List.flatMap_cons, List.flatMap_singleton] at hbytes

theorem between_calls {r : Receiver} {received : List Send} (h : Between r received)
    (calls : List Call) :
    Between (run Receiver.write r (calls.flatMap Call.writes))
      (received ++ calls.flatMap Call.sends) := by
  induction calls generalizing r received with
  | nil =>
      rw [List.flatMap_nil, List.flatMap_nil, List.append_nil]
      exact h
  | cons c calls ih =>
      have hrest := ih (between_call h c)
      rw [List.flatMap_cons, List.flatMap_cons, run_append]
      rwa [List.append_assoc] at hrest

/-- From any levels of SCK, SDA and DC the receiver collects the bytes of the
calls and nothing else; no byte stays behind incomplete and none was dropped. -/
theorem received_eq_sends (sck sda dc : Bool) (calls : List Call) :
    let r := run Receiver.write (Receiver.idle sck sda dc) (calls.flatMap Call.writes)
    r.received = calls.flatMap Call.sends ∧ r.samples = [] ∧ r.dropped = [] ∧ r.cs = true := by
  have h := between_calls (between_idle sck sda dc) calls
  exact ⟨h.received, h.samples, h.dropped, h.cs⟩

/-- The call that makes a send. -/
def Call.ofSend : Send → Call
  | .cmd byte => .sendCmd byte
  | .data byte => .sendData byte

/-- A panel behind the receiver ends up as if the sends had reached it directly. -/
theorem panel_behind_wire (sck sda dc : Bool) (sends : List Send) (p : Panel) :
    run Panel.receive p (run Receiver.write (Receiver.idle sck sda dc)
        ((sends.map Call.ofSend).flatMap Call.writes)).received =
      run Panel.receive p sends := by
  have hsends : (sends.map Call.ofSend).flatMap Call.sends = sends := by
    induction sends with
    | nil => rfl
    | cons s sends ih =>
        rw [List.map_cons, List.flatMap_cons, ih]
        cases s with
        | cmd byte => rfl
        | data byte => rfl
  have h := between_calls (between_idle sck sda dc) (sends.map Call.ofSend)
  rw [h.received, List.nil_append, hsends]

end ExpertCar.SpiWire
