import ExpertCar.MachineWords
import Mathlib.Data.BitVec
import Mathlib.Data.List.Basic

/-!
# Busy waiting on the system timer

`rt_hw_us_delay` reads the counter that also makes the clock interrupts. It runs
down to zero and starts over, so the loop works with differences, and two of them
are off: one that goes over the zero is a tick short, and a whole period shows as
no time or as all of it. As long as the loop reads often enough neither is seen:
the delay is never short and late by one gap between reads at most. A delay of a
whole clock tick or more never ends.
-/
namespace ExpertCar.MicroDelay

/-- The counter; its reload register has 24 bits. -/
structure SysTick where
  load : ℕ
  bound : load ≤ 0xFFFFFF

/-- `SysTick_Config`. -/
def sysTickConfig (ticks : Word) : Option SysTick :=
  if h : (ticks - 1).toNat ≤ 0xFFFFFF then some ⟨(ticks - 1).toNat, h⟩ else none

/-- `SysTick->VAL` after so many cycles. -/
def SysTick.val (s : SysTick) (cycle : ℕ) : Word := BitVec.ofNat 32 (s.load - cycle % (s.load + 1))

/-- `us_tick * us`. -/
def target (systemCoreClock us : Word) : Word := systemCoreClock / 1000000 * us

def delta (reload start now : Word) : Word :=
  if start > now then start - now else reload + start - now

/-- The number of reads of the loop of `rt_hw_us_delay`, unless these are too few. -/
def rtHwUsDelay (reload systemCoreClock us start : Word) : List Word → Option ℕ
  | [] => none
  | now :: reads =>
      if delta reload start now < target systemCoreClock us then
        (rtHwUsDelay reload systemCoreClock us start reads).map (· + 1)
      else some 1

/-- The next reads after the `j`th, at the cycles `t`. -/
def SysTick.reads (s : SysTick) (t : ℕ → ℕ) (j : ℕ) : ℕ → List Word
  | 0 => []
  | m + 1 => s.val (t (j + 1)) :: s.reads t (j + 1) m

/-! ### What a difference shows -/

section
variable (s : SysTick)

theorem val_toNat (cycle : ℕ) : (s.val cycle).toNat = s.load - cycle % (s.load + 1) := by
  have hbound := s.bound
  rw [SysTick.val, BitVec.toNat_ofNat, Nat.mod_eq_of_lt]
  omega

theorem val_le (cycle : ℕ) : (s.val cycle).toNat ≤ s.load :=
  (val_toNat s cycle).trans_le (Nat.sub_le _ _)

theorem load_toNat : (BitVec.ofNat 32 s.load).toNat = s.load := by
  have hbound := s.bound
  rw [BitVec.toNat_ofNat, Nat.mod_eq_of_lt]
  omega

theorem delta_toNat (t t' : ℕ) :
    (delta (BitVec.ofNat 32 s.load) (s.val t) (s.val t')).toNat =
      if (s.val t').toNat < (s.val t).toNat then (s.val t).toNat - (s.val t').toNat
      else s.load + (s.val t).toNat - (s.val t').toNat := by
  have hbound := s.bound
  have hstart := val_le s t
  have hnow := val_le s t'
  have hload := load_toNat s
  unfold delta
  split_ifs with h h' h'
  · exact BitVec.toNat_sub_of_le (BitVec.le_def.mpr (Nat.le_of_lt h'))
  · exact absurd (BitVec.lt_def.mp h) h'
  · exact absurd (BitVec.lt_def.mpr h') h
  · rw [BitVec.toNat_sub, BitVec.toNat_add, hload]
    omega

theorem delta_le (t t' : ℕ) :
    (delta (BitVec.ofNat 32 s.load) (s.val t) (s.val t')).toNat ≤ s.load := by
  have hstart := val_le s t
  rw [delta_toNat]
  split_ifs <;> omega

/-- Within a period the difference is the time that has passed, or one tick less. -/
theorem delta_elapsed {t e : ℕ} (hpos : 0 < e) (he : e ≤ s.load) :
    (delta (BitVec.ofNat 32 s.load) (s.val t) (s.val (t + e))).toNat ≤ e ∧
      e ≤ (delta (BitVec.ofNat 32 s.load) (s.val t) (s.val (t + e))).toNat + 1 := by
  have hmod : t % (s.load + 1) < s.load + 1 := Nat.mod_lt _ (Nat.succ_pos _)
  have hmod' : (t + e) % (s.load + 1) < s.load + 1 := Nat.mod_lt _ (Nat.succ_pos _)
  have hsplit : (t + e) % (s.load + 1) = t % (s.load + 1) + e ∨
      (t + e) % (s.load + 1) + (s.load + 1) = t % (s.load + 1) + e := by
    rw [Nat.add_mod, Nat.mod_eq_of_lt (show e < s.load + 1 by omega)]
    rcases Nat.lt_or_ge (t % (s.load + 1) + e) (s.load + 1) with h | h
    · exact Or.inl (Nat.mod_eq_of_lt h)
    · rw [Nat.mod_eq_sub_mod h, Nat.mod_eq_of_lt (by omega)]
      omega
  rw [delta_toNat, val_toNat, val_toNat]
  split_ifs <;> omega

end

/-! ### The loop -/

/-- A read at most one gap past the target shows the target, and one that does not show
it has not passed it; the reads that may be missing before it is passed are `n`. -/
theorem wait_from (s : SysTick) (systemCoreClock us : Word) {t : ℕ → ℕ} {g : ℕ}
    (hgap : ∀ k, t k < t (k + 1) ∧ t (k + 1) ≤ t k + g)
    (htarget : (target systemCoreClock us).toNat + g ≤ s.load) {start j n : ℕ}
    (hstart : start ≤ t j) (hj : t j ≤ start + (target systemCoreClock us).toNat)
    (hn : start + (target systemCoreClock us).toNat < t j + n) :
    ∃ m, rtHwUsDelay (BitVec.ofNat 32 s.load) systemCoreClock us (s.val start) (s.reads t j m) =
        some m ∧
      start + (target systemCoreClock us).toNat ≤ t (j + m) ∧
      t (j + m) ≤ start + (target systemCoreClock us).toNat + g := by
  induction n generalizing j with
  | zero => exact absurd hn (Nat.not_lt_of_le hj)
  | succ n ih =>
      obtain ⟨hlater, hsoon⟩ := hgap j
      obtain ⟨e, he⟩ := Nat.le.dest (hstart.trans hlater.le)
      obtain ⟨hlow, hhigh⟩ := @delta_elapsed s start e (by omega) (by omega)
      rw [he] at hlow hhigh
      by_cases hdone : delta (BitVec.ofNat 32 s.load) (s.val start) (s.val (t (j + 1))) <
          target systemCoreClock us
      · have hearly := BitVec.lt_def.mp hdone
        obtain ⟨m, hm, hbounds⟩ := ih (hstart.trans hlater.le) (by omega) (by omega)
        refine ⟨m + 1, ?_, ?_⟩
        · rw [SysTick.reads, rtHwUsDelay, if_pos hdone, hm]
          rfl
        · rw [Nat.add_assoc, Nat.add_comm 1 m] at hbounds
          exact hbounds
      · have hlate : (target systemCoreClock us).toNat ≤
            (delta (BitVec.ofNat 32 s.load) (s.val start) (s.val (t (j + 1)))).toNat :=
          Nat.le_of_not_lt fun h => hdone (BitVec.lt_def.mpr h)
        refine ⟨1, ?_, by omega, by omega⟩
        rw [SysTick.reads, rtHwUsDelay, if_neg hdone]

theorem wait_never (s : SysTick) {systemCoreClock us : Word}
    (htarget : s.load < (target systemCoreClock us).toNat) (t : ℕ → ℕ) (start j m : ℕ) :
    rtHwUsDelay (BitVec.ofNat 32 s.load) systemCoreClock us (s.val start) (s.reads t j m) =
      none := by
  induction m generalizing j with
  | zero => rfl
  | succ m ih =>
      have hshort := (delta_le s start (t (j + 1))).trans_lt htarget
      rw [SysTick.reads, rtHwUsDelay, if_pos (BitVec.lt_def.mpr hshort), ih]
      rfl

theorem target_toNat {mhz : ℕ} {us : Word} (hmhz : mhz * us.toNat < 4294967296)
    (hclock : mhz * 1000000 < 4294967296) :
    (target (BitVec.ofNat 32 (mhz * 1000000)) us).toNat = mhz * us.toNat := by
  have hclock' : (BitVec.ofNat 32 (mhz * 1000000)).toNat = mhz * 1000000 := by
    rw [BitVec.toNat_ofNat, Nat.mod_eq_of_lt hclock]
  rw [target, BitVec.toNat_mul, BitVec.toNat_udiv, hclock']
  change mhz * 1000000 / 1000000 * us.toNat % 4294967296 = mhz * us.toNat
  rw [Nat.mul_div_cancel _ (by omega), Nat.mod_eq_of_lt hmhz]

/-- The system timer as `rt_hw_systick_init` sets it, from a clock of `mhz` megahertz. -/
theorem load_eq {mhz : ℕ} {s : SysTick} (hmhz : 0 < mhz) (hclock : mhz * 1000000 < 4294967296)
    (hs : sysTickConfig (BitVec.ofNat 32 (mhz * 1000000) / 1000) = some s) :
    s.load + 1 = mhz * 1000 := by
  have hticks : (BitVec.ofNat 32 (mhz * 1000000) / 1000).toNat = mhz * 1000 := by
    rw [BitVec.toNat_udiv, BitVec.toNat_ofNat, Nat.mod_eq_of_lt hclock]
    change mhz * 1000000 / 1000 = mhz * 1000
    omega
  unfold sysTickConfig at hs
  split_ifs at hs with h
  rw [← Option.some.inj hs]
  have hone : (1 : Word) ≤ BitVec.ofNat 32 (mhz * 1000000) / 1000 := by
    rw [BitVec.le_def, hticks]
    change 1 ≤ mhz * 1000
    omega
  change (BitVec.ofNat 32 (mhz * 1000000) / 1000 - 1).toNat + 1 = mhz * 1000
  rw [BitVec.toNat_sub_of_le hone, hticks]
  change mhz * 1000 - 1 + 1 = mhz * 1000
  omega

/-- The loop starts at the cycle `t 0` and reads the counter again at `t 1`, `t 2`, … with
gaps of `g` cycles at most. If the delay and a gap fit into a clock tick it returns, not before
its time and less than a gap late; a delay of a whole clock tick or more never returns. -/
theorem rtHwUsDelay_cycles {mhz : ℕ} {s : SysTick} {us : Word} (hmhz : 0 < mhz)
    (hclock : mhz * 1000000 < 4294967296)
    (hs : sysTickConfig (BitVec.ofNat 32 (mhz * 1000000) / 1000) = some s)
    (hus : mhz * us.toNat < 4294967296) {t : ℕ → ℕ} {g : ℕ}
    (hgap : ∀ k, t k < t (k + 1) ∧ t (k + 1) ≤ t k + g) :
    (mhz * us.toNat + g < mhz * 1000 →
      ∃ m, rtHwUsDelay (BitVec.ofNat 32 s.load) (BitVec.ofNat 32 (mhz * 1000000)) us (s.val (t 0))
          (s.reads t 0 m) = some m ∧
        t 0 + mhz * us.toNat ≤ t m ∧ t m ≤ t 0 + mhz * us.toNat + g) ∧
    (1000 ≤ us.toNat → ∀ m, rtHwUsDelay (BitVec.ofNat 32 s.load)
      (BitVec.ofNat 32 (mhz * 1000000)) us (s.val (t 0)) (s.reads t 0 m) = none) := by
  have htarget := target_toNat hus hclock
  have hload := load_eq hmhz hclock hs
  constructor
  · intro hfits
    obtain ⟨m, hm, hbounds⟩ := wait_from (n := mhz * us.toNat + 1) s
      (BitVec.ofNat 32 (mhz * 1000000)) us hgap (by omega) (le_refl (t 0)) (by omega) (by omega)
    rw [Nat.zero_add, htarget] at hbounds
    exact ⟨m, hm, hbounds⟩
  · intro hlong m
    apply wait_never s
    have htick : mhz * 1000 ≤ mhz * us.toNat := Nat.mul_le_mul_left mhz hlong
    omega

/-- `rt_hw_us_delay(16)` between two bytes of the pad, read every twenty cycles. -/
theorem pad_gap_delay :
    (∃ m, rtHwUsDelay 169999 170000000 16 (SysTick.val ⟨169999, by decide⟩ 0)
        (SysTick.reads ⟨169999, by decide⟩ (20 * ·) 0 m) = some m ∧
      2720 ≤ 20 * m ∧ 20 * m ≤ 2740) ∧
    ∀ m, rtHwUsDelay 169999 170000000 1000 (SysTick.val ⟨169999, by decide⟩ 0)
      (SysTick.reads ⟨169999, by decide⟩ (20 * ·) 0 m) = none := by
  have hgap (k : ℕ) : 20 * k < 20 * (k + 1) ∧ 20 * (k + 1) ≤ 20 * k + 20 := by omega
  have hshort := @rtHwUsDelay_cycles 170 ⟨169999, by decide⟩ 16 (by decide) (by decide) rfl
    (by decide) (20 * ·) 20 hgap
  have hlong := @rtHwUsDelay_cycles 170 ⟨169999, by decide⟩ 1000 (by decide) (by decide) rfl
    (by decide) (20 * ·) 20 hgap
  obtain ⟨m, hm, hlow, hhigh⟩ := hshort.1 (by decide)
  change 20 * 0 + 2720 ≤ 20 * m at hlow
  change 20 * m ≤ 20 * 0 + 2720 + 20 at hhigh
  exact ⟨⟨m, hm, by omega, by omega⟩, hlong.2 (by decide)⟩

end ExpertCar.MicroDelay
