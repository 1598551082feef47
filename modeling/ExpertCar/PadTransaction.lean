import ExpertCar.ArrayLoops
import ExpertCar.PadBus
import Mathlib.Order.Bounds.Basic
import Mathlib.Data.Nat.Bitwise
import Mathlib.Data.Fin.VecNotation
import Mathlib.Tactic.FinCases
import Mathlib.Data.Fintype.Basic

/-!
# The bit-banged pad transaction

`ps2.c` from `PS2_Cmd` to `PS2_DataKey`. Both bit loops run over the walking
mask `ref = 0x01, 0x02, …, 0x80`, here indexed by its exponent. `PS2_Cmd` drives
DO and collects DI into `Data[1]`, which it clears first; `PS2_ReadData` leaves
DO alone for the last seven bytes and collects DI into `Data[2]` to `Data[8]` on
top of what those bytes held. The byte-level meaning of one `PS2_DataKey` is
derived from the pin-level loops, one lemma for each loop.
-/
namespace ExpertCar.PadTransaction
open BitOrder PadBus

structure Pad where
  bus : Bus
  data : Fin 9 → Byte
  handkey : BitVec 16

/-- `if (DI) Data[byte] = ref | Data[byte];` -/
def sampleDi (byte : Fin 9) (ref : BitVec 16) (p : Pad) : Pad :=
  if p.bus.di then
    { p with data := Function.update p.data byte ((ref ||| (p.data byte).setWidth 16).setWidth 8) }
  else p

/-- Body of the loop of `PS2_Cmd` at `ref = 1 << k`. -/
def ps2CmdBit (cmd : Byte) (p : Pad) (k : ℕ) : Pad :=
  let ref := 1#16 <<< k
  let p := { p with bus := p.bus.writeDo (ref &&& cmd.setWidth 16 != 0#16) }
  sampleDi 1 ref { p with bus := p.bus.clock }

def ps2Cmd (cmd : Byte) (p : Pad) : Pad :=
  (List.range 8).foldl (ps2CmdBit cmd) { p with data := Function.update p.data 1 0#8 }

/-- Body of the inner loop of `PS2_ReadData` at `ref = 1 << k`. -/
def ps2ReadBit (byte : Fin 9) (p : Pad) (k : ℕ) : Pad :=
  sampleDi byte (1#16 <<< k) { p with bus := p.bus.clock }

def ps2ReadByte (p : Pad) (byte : Fin 9) : Pad := (List.range 8).foldl (ps2ReadBit byte) p

def comd : Fin 2 → Byte := ![0x01, 0x42]

def ps2ReadData (p : Pad) : Pad :=
  let p := { p with bus := p.bus.writeCs false }
  let p := ps2Cmd (comd 0) p
  let p := ps2Cmd (comd 1) p
  let p := [2, 3, 4, 5, 6, 7, 8].foldl ps2ReadByte p
  { p with bus := p.bus.writeCs true }

def ps2ClearData (p : Pad) : Pad :=
  { p with data := ArrayLoops.store (fun _ => 0#8) p.data (List.finRange 9) }

/-- `MASK`, from `PSB_SELECT` to `PSB_PINK`. -/
def mask : List ℕ := [1, 2, 3, 4, 5, 6, 7, 8, 9, 10, 11, 12, 13, 14, 15, 16]

/-- The scan of `PS2_DataKey` from `index` on, over the rest of `MASK`. -/
def scanMask (handkey : BitVec 16) : ℕ → List ℕ → Byte
  | _, [] => 0
  | index, m :: ms =>
      if handkey &&& (1#16 <<< (m - 1)) = 0#16 then BitVec.ofNat 8 (index + 1)
      else scanMask handkey (index + 1) ms

def ps2DataKey (p : Pad) : Byte × Pad :=
  let p := ps2ReadData (ps2ClearData p)
  let p := { p with handkey := ((p.data 4).setWidth 16 <<< 8) ||| (p.data 3).setWidth 16 }
  (scanMask p.handkey 0 mask, p)

/-! ### The bit loops -/

theorem sampleDi_eq (byte : Fin 9) (k : ℕ) (p : Pad) :
    sampleDi byte (1#16 <<< k) p =
      { p with data := Function.update p.data byte (orBit (p.data byte) k p.bus.di) } := by
  have hor : ((1#16 <<< k) ||| (p.data byte).setWidth 16).setWidth 8 =
      (1#8 <<< k) ||| p.data byte := by
    apply BitVec.eq_of_getLsbD_eq
    intro i hi
    simp only [BitVec.getLsbD_setWidth, BitVec.getLsbD_or, BitVec.getLsbD_shiftLeft,
      BitVec.getLsbD_one]
    have h16 : i < 16 := by omega
    simp [hi, h16]
  unfold sampleDi orBit
  cases p.bus.di with
  | false => simp
  | true => simp [hor]

theorem driveBit_eq (cmd : Byte) {k : ℕ} (hk : k < 8) :
    ((1#16 <<< k) &&& cmd.setWidth 16 != 0#16) = cmd.getLsbD k := by
  have hand : (1#16 <<< k) &&& cmd.setWidth 16 = if cmd.getLsbD k then 1#16 <<< k else 0#16 := by
    apply BitVec.eq_of_getLsbD_eq
    intro i hi
    by_cases h : i = k
    · subst h
      cases hc : cmd.getLsbD i <;> simp [hc, hi]
    · have hz : (1#16 <<< k).getLsbD i = false := by
        simp only [BitVec.getLsbD_shiftLeft, BitVec.getLsbD_one]
        have : i < k ∨ i - k ≠ 0 := by omega
        rcases this with h' | h' <;> simp [h']
      cases hc : cmd.getLsbD k <;> simp [hz]
  have hne : (1#16 <<< k) ≠ 0#16 := by
    intro h0
    have := congrArg (fun x => x.getLsbD k) h0
    simp at this
    omega
  rw [hand]
  cases hc : cmd.getLsbD k <;> simp [hne]

/-- A pad in the middle of a transaction: `n` pulses done, `r` sampled from DO,
DO at level `d`. -/
def midway (reply : ℕ → Bool) (clk d : Bool) (n : ℕ) (r : List Bool) : Bus :=
  ⟨false, clk, d, reply, n, false, r⟩

theorem midway_selected (reply : ℕ → Bool) (clk d : Bool) (n : ℕ) (r : List Bool) :
    (midway reply clk d n r).Selected := ⟨rfl, rfl⟩

theorem ps2CmdBit_midway (cmd : Byte) {k : ℕ} (hk : k < 8) (reply : ℕ → Bool) (clk d : Bool)
    (n : ℕ) (r : List Bool) (data : Fin 9 → Byte) (handkey : BitVec 16) :
    ps2CmdBit cmd ⟨midway reply clk d n r, data, handkey⟩ k =
      ⟨midway reply true (cmd.getLsbD k) (n + 1) (r ++ [cmd.getLsbD k]),
        Function.update data 1 (orBit (data 1) k (reply n)), handkey⟩ := by
  have hs : (midway reply clk (cmd.getLsbD k) n r).Selected := midway_selected ..
  have hdi := Bus.di_clock hs
  rw [Bus.clock_selected hs] at hdi
  simp only [ps2CmdBit, driveBit_eq cmd hk]
  rw [show (midway reply clk d n r).writeDo (cmd.getLsbD k) =
    midway reply clk (cmd.getLsbD k) n r from rfl, Bus.clock_selected hs, sampleDi_eq 1 k]
  simp only [hdi]
  rfl

theorem ps2ReadBit_midway (byte : Fin 9) (k : ℕ) (reply : ℕ → Bool) (clk d : Bool)
    (n : ℕ) (r : List Bool) (data : Fin 9 → Byte) (handkey : BitVec 16) :
    ps2ReadBit byte ⟨midway reply clk d n r, data, handkey⟩ k =
      ⟨midway reply true d (n + 1) (r ++ [d]),
        Function.update data byte (orBit (data byte) k (reply n)), handkey⟩ := by
  have hs : (midway reply clk d n r).Selected := midway_selected ..
  have hdi := Bus.di_clock hs
  rw [Bus.clock_selected hs] at hdi
  simp only [ps2ReadBit]
  rw [Bus.clock_selected hs, sampleDi_eq byte k]
  simp only [hdi]
  rfl

theorem ps2CmdBits_midway (cmd : Byte) (reply : ℕ → Bool) (clk d : Bool) (n : ℕ)
    (r : List Bool) (data : Fin 9 → Byte) (handkey : BitVec 16) {k : ℕ} (hk : k ≤ 8) :
    (List.range k).foldl (ps2CmdBit cmd) ⟨midway reply clk d n r, data, handkey⟩ =
      ⟨midway reply (clk || decide (0 < k)) (if k = 0 then d else cmd.getLsbD (k - 1)) (n + k)
          (r ++ (List.range k).map cmd.getLsbD),
        Function.update data 1
          ((List.range k).foldl (fun x j => orBit x j (reply (n + j))) (data 1)), handkey⟩ := by
  induction k with
  | zero => simp
  | succ k ih =>
      rw [List.range_succ, List.foldl_append, ih (by omega), List.foldl_cons, List.foldl_nil,
        ps2CmdBit_midway cmd (by omega)]
      simp [List.foldl_append, Nat.add_assoc]

/-- One command byte: the pad samples its bits, `Data[1]` is what came back. -/
theorem ps2Cmd_midway (cmd : Byte) (reply : ℕ → Bool) (clk d : Bool) (n : ℕ)
    (r : List Bool) (data : Fin 9 → Byte) (handkey : BitVec 16) :
    ps2Cmd cmd ⟨midway reply clk d n r, data, handkey⟩ =
      ⟨midway reply true (cmd.getLsbD 7) (n + 8) (r ++ lsbFirst cmd),
        Function.update data 1 (wireByte reply n), handkey⟩ := by
  rw [ps2Cmd, ps2CmdBits_midway cmd reply clk d n r _ handkey le_rfl]
  simp [wireByte, lsbFirst]

theorem ps2ReadBits_midway (byte : Fin 9) (reply : ℕ → Bool) (clk d : Bool) (n : ℕ)
    (r : List Bool) (data : Fin 9 → Byte) (handkey : BitVec 16) (k : ℕ) :
    (List.range k).foldl (ps2ReadBit byte) ⟨midway reply clk d n r, data, handkey⟩ =
      ⟨midway reply (clk || decide (0 < k)) d (n + k) (r ++ List.replicate k d),
        Function.update data byte
          ((List.range k).foldl (fun x j => orBit x j (reply (n + j))) (data byte)), handkey⟩ := by
  induction k with
  | zero => simp
  | succ k ih =>
      rw [List.range_succ, List.foldl_append, ih, List.foldl_cons, List.foldl_nil,
        ps2ReadBit_midway]
      simp [List.foldl_append, Nat.add_assoc, List.replicate_succ']

/-- One received byte into a cleared cell: DO keeps its level, so the pad samples
eight equal bits. -/
theorem ps2ReadByte_midway (byte : Fin 9) (reply : ℕ → Bool) (clk d : Bool) (n : ℕ)
    (r : List Bool) (data : Fin 9 → Byte) (handkey : BitVec 16) (hz : data byte = 0#8) :
    ps2ReadByte ⟨midway reply clk d n r, data, handkey⟩ byte =
      ⟨midway reply true d (n + 8) (r ++ List.replicate 8 d),
        Function.update data byte (wireByte reply n), handkey⟩ := by
  rw [ps2ReadByte, ps2ReadBits_midway, hz]
  simp [wireByte]

/-! ### One transaction -/

theorem ps2ClearData_eq (p : Pad) : ps2ClearData p = { p with data := fun _ => 0#8 } := by
  rw [ps2ClearData, ArrayLoops.store_finRange]

/-- What the pad samples in one `PS2_ReadData`: the two command bytes, then DO
at the level the last bit of the second one left. -/
def sentBytes : List Byte := [0x01, 0x42, 0, 0, 0, 0, 0, 0, 0]

/-- The receive loop over a run of distinct cleared cells. -/
theorem ps2ReadBytes_midway (reply : ℕ → Bool) (handkey : BitVec 16) (bytes : List (Fin 9)) :
    ∀ (d : Bool) (n : ℕ) (r : List Bool) (data : Fin 9 → Byte),
      bytes.Nodup → (∀ b ∈ bytes, data b = 0#8) →
      bytes.foldl ps2ReadByte ⟨midway reply true d n r, data, handkey⟩ =
        ⟨midway reply true d (n + 8 * bytes.length) (r ++ List.replicate (8 * bytes.length) d),
          fun i => if i ∈ bytes then wireByte reply (n + 8 * bytes.idxOf i) else data i,
          handkey⟩ := by
  induction bytes with
  | nil => simp
  | cons b bs ih =>
      intro d n r data hnd hz
      obtain ⟨hb, hnd⟩ := List.nodup_cons.mp hnd
      rw [List.foldl_cons, ps2ReadByte_midway b reply true d n r data handkey (hz b (by simp)),
        ih d _ _ _ hnd ?_]
      · simp only [Pad.mk.injEq, and_true]
        refine ⟨?_, ?_⟩
        · rw [List.append_assoc, List.replicate_append_replicate]
          simp only [List.length_cons]
          exact congrArg₂ (fun m l => midway reply true d m (r ++ List.replicate l d))
            (by omega) (by omega)
        · funext i
          by_cases hi : i = b
          · subst hi
            simp [hb]
          · have hib : b ≠ i := fun h => hi h.symm
            by_cases hm : i ∈ bs
            · simp [hm, hi, List.idxOf_cons_ne bs hib]
              congr 1
              omega
            · simp [hm, hi]
      · intro c hc
        have hcb : c ≠ b := fun h => hb (h ▸ hc)
        rw [Function.update_of_ne hcb]
        exact hz c (List.mem_cons_of_mem b hc)

/-- `PS2_ReadData` on a cleared buffer, with CS high before the call. -/
theorem ps2ReadData_cleared {b : Bus} (hcs : b.cs = true) (handkey : BitVec 16) :
    ps2ReadData ⟨b, fun _ => 0#8, handkey⟩ =
      ⟨{ midway b.reply true false 72 (sentBytes.flatMap lsbFirst) with cs := true },
        fun i => if i = 0 then 0#8 else wireByte b.reply (8 * i), handkey⟩ := by
  have hsel : b.writeCs false = midway b.reply b.clk b.dO 0 [] := Bus.writeCs_select hcs
  simp only [ps2ReadData, hsel, ps2Cmd_midway]
  rw [ps2ReadBytes_midway _ _ _ _ _ _ _ (by decide)
    (by intro c hc; fin_cases c <;> first | rfl | simp at hc)]
  simp only [Pad.mk.injEq, and_true]
  refine ⟨rfl, ?_⟩
  funext i
  fin_cases i <;> rfl

/-! ### The key word -/

/-- The first pressed key: the least position whose bit is clear, 0 when all
sixteen bits are set. -/
def IsKey (word key : ℕ) : Prop :=
  IsLeast {j | 1 ≤ j ∧ j ≤ 16 ∧ word.testBit (j - 1) = false} key ∨
    (key = 0 ∧ ∀ j, 1 ≤ j → j ≤ 16 → word.testBit (j - 1) = true)

theorem maskTest_iff (handkey : BitVec 16) {k : ℕ} (hk : k < 16) :
    handkey &&& (1#16 <<< k) = 0#16 ↔ handkey.getLsbD k = false := by
  constructor
  · intro h
    have := congrArg (fun x => x.getLsbD k) h
    simpa [hk] using this
  · intro h
    apply BitVec.eq_of_getLsbD_eq
    intro i hi
    simp only [BitVec.getLsbD_and, BitVec.getLsbD_shiftLeft, BitVec.getLsbD_one]
    by_cases hik : i = k
    · subst hik
      simp [h]
    · have : i < k ∨ i - k ≠ 0 := by omega
      rcases this with h' | h' <;> simp [h']

/-- The scan from `index` on finds the first clear bit at or after `index`. -/
theorem scanMask_spec (handkey : BitVec 16) (n index : ℕ) (h : index + n ≤ 16) :
    let key := (scanMask handkey index (List.range' (index + 1) n)).toNat
    (IsLeast {j | index < j ∧ j ≤ index + n ∧ handkey.getLsbD (j - 1) = false} key) ∨
      (key = 0 ∧ ∀ j, index < j → j ≤ index + n → handkey.getLsbD (j - 1) = true) := by
  induction n generalizing index with
  | zero =>
      refine Or.inr ⟨rfl, ?_⟩
      intro j hlo hhi
      omega
  | succ n ih =>
      rw [List.range'_succ]
      simp only [scanMask, Nat.add_sub_cancel, maskTest_iff handkey (show index < 16 by omega)]
      by_cases hbit : handkey.getLsbD index = false
      · rw [if_pos hbit]
        have hkey : (BitVec.ofNat 8 (index + 1)).toNat = index + 1 := by
          rw [BitVec.toNat_ofNat]
          omega
        rw [hkey]
        exact Or.inl ⟨⟨by omega, by omega, hbit⟩, fun j hj => hj.1⟩
      · rw [if_neg hbit]
        have hset : handkey.getLsbD index = true := by simpa using hbit
        rcases ih (index + 1) (by omega) with ⟨⟨hlo, hhi, hclear⟩, hleast⟩ | ⟨hzero, hall⟩
        · refine Or.inl ⟨⟨by omega, by omega, hclear⟩, ?_⟩
          rintro j ⟨hlo, hhi, hj⟩
          by_cases hji : j = index + 1
          · subst hji
            rw [Nat.add_sub_cancel] at hj
            exact absurd hj hbit
          · exact hleast ⟨by omega, by omega, hj⟩
        · refine Or.inr ⟨hzero, ?_⟩
          intro j hlo hhi
          by_cases hji : j = index + 1
          · subst hji
            exact hset
          · exact hall j (by omega) (by omega)

theorem handkey_testBit (hi lo : Byte) (k : ℕ) :
    (hi.toNat * 256 + lo.toNat).testBit k =
      ((hi.setWidth 16 <<< 8) ||| lo.setWidth 16).getLsbD k := by
  rw [Nat.mul_comm, show (256 : ℕ) = 2 ^ 8 from rfl, Nat.testBit_two_pow_mul_add _ lo.isLt]
  simp only [BitVec.getLsbD_or, BitVec.getLsbD_shiftLeft, BitVec.getLsbD_setWidth]
  by_cases hk : k < 8
  · have h16 : k < 16 := by omega
    simp [hk, h16, BitVec.testBit_toNat]
  · have hlo : lo.getLsbD k = false := BitVec.getLsbD_of_ge lo k (by omega)
    by_cases h16 : k < 16
    · have : k - 8 < 16 := by omega
      simp [hk, h16, this, hlo, BitVec.testBit_toNat]
    · have hhi : hi.getLsbD (k - 8) = false := BitVec.getLsbD_of_ge hi (k - 8) (by omega)
      simp [hk, h16, hlo, hhi, BitVec.testBit_toNat]

theorem scanMask_isKey (hi lo : Byte) :
    IsKey (hi.toNat * 256 + lo.toNat)
      (scanMask ((hi.setWidth 16 <<< 8) ||| lo.setWidth 16) 0 mask).toNat := by
  have h := scanMask_spec ((hi.setWidth 16 <<< 8) ||| lo.setWidth 16) 16 0 le_rfl
  unfold IsKey
  simp only [handkey_testBit]
  exact h

/-! ### `PS2_DataKey` -/

def frameKey (f : Frame) : Byte :=
  scanMask (((f 4).setWidth 16 <<< 8) ||| (f 3).setWidth 16) 0 mask

def frameData (f : Frame) : Fin 9 → Byte := fun i => if i = 0 then 0#8 else f i

/-- The byte-level meaning of one call: whatever the buffer held, it now holds
the frame without its first byte, and the key is the one of the same frame. -/
theorem ps2DataKey_eq {p : Pad} (hcs : p.bus.cs = true) (f : Frame) :
    ps2DataKey { p with bus := p.bus.attach f } =
      (frameKey f,
        ⟨{ midway (replyBits f) true false 72 (sentBytes.flatMap lsbFirst) with cs := true },
          frameData f, ((f 4).setWidth 16 <<< 8) ||| (f 3).setWidth 16⟩) := by
  have hread := ps2ReadData_cleared (b := p.bus.attach f) hcs p.handkey
  have hdata : (fun i : Fin 9 => if i = 0 then 0#8 else wireByte (p.bus.attach f).reply (8 * i)) =
      frameData f := by
    funext i
    rw [frameData, show (p.bus.attach f).reply = replyBits f from rfl, wireByte_replyBits]
  rw [hdata] at hread
  simp only [ps2DataKey, ps2ClearData_eq, hread]
  rfl

/-- A byte-level exchange: the pad received the two command bytes and seven zero
bytes, with no partial byte; its reply is in `Data` from index 1 on; the result
is the first key pressed in the reply. -/
structure Exchanged (reply : Frame) (result : Byte × Pad) : Prop where
  whole : result.2.bus.received.length = 72
  sent : packBytes result.2.bus.received = [0x01, 0x42, 0, 0, 0, 0, 0, 0, 0]
  head : result.2.data 0 = 0
  data : ∀ i, i ≠ 0 → result.2.data i = reply i
  key : IsKey ((reply 4).toNat * 256 + (reply 3).toNat) result.1.toNat

/-- One call against any pad that follows the wire protocol. -/
theorem ps2DataKey_faithful (p : Pad) (hcs : p.bus.cs = true) (reply : Frame) :
    Exchanged reply (ps2DataKey { p with bus := p.bus.attach reply }) := by
  rw [ps2DataKey_eq hcs]
  refine ⟨rfl, packBytes_flatMap sentBytes, rfl, ?_, scanMask_isKey (reply 4) (reply 3)⟩
  intro i hi
  exact if_neg hi

/-- An analog pad at rest, only the key at position 13 held down. -/
def greenHeld : Frame := ![0xFF, 0x73, 0x5A, 0xFF, 0xEF, 0x80, 0x80, 0x7F, 0x80]

def stalePad : Pad := ⟨Bus.released, fun _ => 0xA5#8, 0#16⟩

theorem ps2DataKey_faithful_greenHeld :
    Exchanged greenHeld (ps2DataKey { stalePad with bus := stalePad.bus.attach greenHeld }) :=
  ps2DataKey_faithful stalePad rfl greenHeld

example : frameKey greenHeld = 13#8 := by decide

end ExpertCar.PadTransaction
