import ExpertCar.MotorControl
import ExpertCar.SlewFilter
import Mathlib.Data.List.Induction

/-!
# Wheel commands of whole stick histories

`motor_control` with the filter taken as the exact fifth. Its two axes do not see
each other: after any stick history the throttle and the steering value are two
slew-limited filters of their own targets, and the wheel commands are the clamped
sum and difference. What is odd, monotone and settling in the filter is therefore
odd, monotone and settling in the loop, up to the output clamps. The clamp of the
second wheel is narrower than that of the first.
-/
namespace ExpertCar.WheelCommands
open StepRuns SlewFilter MotorControl

structure Stick where
  ps2LX : Byte
  ps2LY : Byte
  deriving DecidableEq, Repr

def wheelStep (s : State) (k : Stick) : State := motorControl s ⟨k.ps2LX, k.ps2LY, .exact, .exact⟩

def wheels (ks : List Stick) : State := run wheelStep State.initial ks

/-- One axis on its own: a fifth of each new target, at most 3280 a step. -/
def axis (targets : List ℤ) : ℤ := run (follow 5 3280) 0 targets

def throttle (ks : List Stick) : ℤ := axis (ks.map fun k => usualTarget k.ps2LY)

def steering (ks : List Stick) : ℤ := axis (ks.map fun k => deltaTarget k.ps2LX)

/-! ### The loop is two independent axes -/

theorem limitStep_fifth (target prev : ℤ) (ht : -320000 ≤ target ∧ target ≤ 320000)
    (hp : -320000 ≤ prev ∧ prev ≤ 320000) :
    limitStep prev (fifth target prev) = follow 5 3280 prev target := by
  have hf := fifth_between target prev
  rw [limitStep_eq prev (fifth target prev) hp (by omega)]
  unfold follow slew limitChange
  rw [show blend 5 target prev = fifth target prev from rfl]
  split_ifs <;> omega

/-- The axis values of a state of the loop, and the commands that go with them. -/
structure Shows (s : State) (u v : ℤ) : Prop where
  inv : Inv s
  usual : s.usual = u
  delta : s.delta = v
  prevUsual : s.prevUsual = u
  prevDelta : s.prevDelta = v

theorem shows_initial : Shows State.initial 0 0 := ⟨inv_initial, rfl, rfl, rfl, rfl⟩

theorem Shows.step {s : State} {u v : ℤ} (h : Shows s u v) (k : Stick) :
    Shows (wheelStep s k) (follow 5 3280 u (usualTarget k.ps2LY))
      (follow 5 3280 v (deltaTarget k.ps2LX)) := by
  have husual := h.inv.usual
  have hdelta := h.inv.delta
  have hut := usualTarget_bounds k.ps2LY
  have hdt := deltaTarget_bounds k.ps2LX
  have hu := limitStep_fifth (usualTarget k.ps2LY) s.prevUsual (by omega) (by omega)
  have hv := limitStep_fifth (deltaTarget k.ps2LX) s.prevDelta (by omega) (by omega)
  rw [h.prevUsual] at hu
  rw [h.prevDelta] at hv
  have hspec := motorControl_spec h.inv ⟨k.ps2LX, k.ps2LY, .exact, .exact⟩
  have hinv := (motorControl_step h.inv ⟨k.ps2LX, k.ps2LY, .exact, .exact⟩).1
  simp only [Smoothing.exact, h.prevUsual, h.prevDelta, hu, hv] at hspec
  exact ⟨hinv, congrArg State.usual hspec, congrArg State.delta hspec,
    congrArg State.prevUsual hspec, congrArg State.prevDelta hspec⟩

theorem wheels_shows (ks : List Stick) : Shows (wheels ks) (throttle ks) (steering ks) := by
  induction ks using List.reverseRecOn with
  | nil => exact shows_initial
  | append_singleton ks k ih =>
      have h := ih.step k
      simp only [wheels, throttle, steering, axis, List.map_append, List.map_cons, List.map_nil,
        run_concat] at h ⊢
      exact h

theorem wheels_speeda (ks : List Stick) :
    (wheels ks).speeda = clampSpeed 320000 (throttle ks + steering ks) := by
  have h := wheels_shows ks
  rw [h.inv.speeda, h.prevUsual, h.prevDelta]

theorem wheels_speedb (ks : List Stick) :
    (wheels ks).speedb = clampSpeed 256000 (throttle ks - steering ks) := by
  have h := wheels_shows ks
  rw [h.inv.speedb, h.prevUsual, h.prevDelta]

/-! ### Holding the stick -/

theorem throttle_hold (ks : List Stick) (k : Stick) (n : ℕ) :
    throttle (ks ++ List.replicate n k) =
      run (follow 5 3280) (throttle ks) (List.replicate n (usualTarget k.ps2LY)) := by
  simp only [throttle, axis, List.map_append, List.map_replicate, run_append]

theorem steering_hold (ks : List Stick) (k : Stick) (n : ℕ) :
    steering (ks ++ List.replicate n k) =
      run (follow 5 3280) (steering ks) (List.replicate n (deltaTarget k.ps2LX)) := by
  simp only [steering, axis, List.map_append, List.map_replicate, run_append]

theorem rest_zero {value : ℤ} (h : Rest 5 0 value) : value = 0 := by
  rw [rest_iff] at h
  omega

/-- After a centred stick long enough both axes are exactly zero. -/
theorem centred_axes (ks : List Stick) :
    ∃ N, ∀ n ≥ N, throttle (ks ++ List.replicate n ⟨127, 128⟩) = 0 ∧
      steering (ks ++ List.replicate n ⟨127, 128⟩) = 0 := by
  obtain ⟨M, hM, hu⟩ := (@settles 5 3280 (by omega) (by omega) (throttle ks) 0).rest
  obtain ⟨N, hN, hv⟩ := (@settles 5 3280 (by omega) (by omega) (steering ks) 0).rest
  refine ⟨max M N, ?_⟩
  intro n hn
  rw [throttle_hold, steering_hold]
  constructor
  · exact (hu n (le_of_max_le_left hn)).trans (rest_zero hM)
  · exact (hv n (le_of_max_le_right hn)).trans (rest_zero hN)

/-- From every reachable state, under a stick held still, each axis approaches its
target from one side and comes to rest there or short of it by less than five; a
centred stick ends in zero pulses on both bridges. -/
theorem held_stick_settles (ks : List Stick) :
    (∀ k : Stick,
      Settles 5 (usualTarget k.ps2LY) (fun n => (wheels (ks ++ List.replicate n k)).usual) ∧
      Settles 5 (deltaTarget k.ps2LX) (fun n => (wheels (ks ++ List.replicate n k)).delta)) ∧
    ∃ N, ∀ n ≥ N, (wheels (ks ++ List.replicate n ⟨127, 128⟩)).drive.aPulse = 0 ∧
      (wheels (ks ++ List.replicate n ⟨127, 128⟩)).drive.bPulse = 0 := by
  constructor
  · intro k
    simp only [(wheels_shows _).usual, (wheels_shows _).delta, throttle_hold, steering_hold]
    exact ⟨settles (by omega) (by omega) _ _, settles (by omega) (by omega) _ _⟩
  · obtain ⟨N, hN⟩ := centred_axes ks
    refine ⟨N, ?_⟩
    intro n hn
    obtain ⟨hu, hv⟩ := hN n hn
    have hinv := (wheels_shows (ks ++ List.replicate n ⟨127, 128⟩)).inv
    rw [hinv.aPulse, hinv.bPulse, wheels_speeda, wheels_speedb, hu, hv]
    exact ⟨rfl, rfl⟩

/-! ### Two sticks compared -/

/-- The second stick is at least as far forward, equally far left. -/
def Forward (k k' : Stick) : Prop := k'.ps2LX = k.ps2LX ∧ k'.ps2LY ≤ k.ps2LY

/-- The second stick is at least as far left, equally far forward. -/
def Leftward (k k' : Stick) : Prop := k'.ps2LY = k.ps2LY ∧ k'.ps2LX ≤ k.ps2LX

theorem usualTarget_anti {b b' : Byte} (h : b' ≤ b) : usualTarget b ≤ usualTarget b' := by
  have hle := BitVec.le_def.mp h
  unfold usualTarget
  omega

theorem deltaTarget_anti {b b' : Byte} (h : b' ≤ b) : deltaTarget b ≤ deltaTarget b' := by
  have hle := BitVec.le_def.mp h
  unfold deltaTarget
  omega

theorem axis_mono {targets targets' : List ℤ} (h : List.Forall₂ (· ≤ ·) targets targets') :
    axis targets ≤ axis targets' :=
  run_follow_mono (by omega) 0 h

theorem throttle_mono {ks ks' : List Stick}
    (h : List.Forall₂ (fun k k' => k'.ps2LY ≤ k.ps2LY) ks ks') : throttle ks ≤ throttle ks' := by
  apply axis_mono
  rw [List.forall₂_map_left_iff, List.forall₂_map_right_iff]
  exact h.imp fun _ _ hk => usualTarget_anti hk

theorem steering_mono {ks ks' : List Stick}
    (h : List.Forall₂ (fun k k' => k'.ps2LX ≤ k.ps2LX) ks ks') : steering ks ≤ steering ks' := by
  apply axis_mono
  rw [List.forall₂_map_left_iff, List.forall₂_map_right_iff]
  exact h.imp fun _ _ hk => deltaTarget_anti hk

/-- An axis whose byte is the same throughout has the same value, being monotone both ways. -/
theorem forward_axes {ks ks' : List Stick} (h : List.Forall₂ Forward ks ks') :
    throttle ks ≤ throttle ks' ∧ steering ks' = steering ks := by
  refine ⟨throttle_mono (h.imp fun _ _ hk => hk.2), le_antisymm ?_ ?_⟩
  · exact steering_mono (h.flip.imp fun _ _ hk => BitVec.le_of_eq hk.1.symm)
  · exact steering_mono (h.imp fun _ _ hk => BitVec.le_of_eq hk.1)

theorem leftward_axes {ks ks' : List Stick} (h : List.Forall₂ Leftward ks ks') :
    throttle ks' = throttle ks ∧ steering ks ≤ steering ks' := by
  refine ⟨le_antisymm ?_ ?_, steering_mono (h.imp fun _ _ hk => hk.2)⟩
  · exact throttle_mono (h.flip.imp fun _ _ hk => BitVec.le_of_eq hk.1.symm)
  · exact throttle_mono (h.imp fun _ _ hk => BitVec.le_of_eq hk.1)

/-- Pushing further forward at every iteration commands no wheel less; pushing
further left commands the first wheel no less and the second no more. -/
theorem commands_monotone {ks ks' : List Stick} :
    (List.Forall₂ Forward ks ks' →
      (wheels ks).speeda ≤ (wheels ks').speeda ∧ (wheels ks).speedb ≤ (wheels ks').speedb) ∧
    (List.Forall₂ Leftward ks ks' →
      (wheels ks).speeda ≤ (wheels ks').speeda ∧ (wheels ks').speedb ≤ (wheels ks).speedb) := by
  simp only [wheels_speeda, wheels_speedb]
  constructor
  · intro h
    obtain ⟨hu, hv⟩ := forward_axes h
    exact ⟨clampSpeed_mono (by omega) (by omega), clampSpeed_mono (by omega) (by omega)⟩
  · intro h
    obtain ⟨hu, hv⟩ := leftward_axes h
    exact ⟨clampSpeed_mono (by omega) (by omega), clampSpeed_mono (by omega) (by omega)⟩

/-- A stick pushed forward from the centre, against one left there. -/
theorem forward_commands :
    (wheels [⟨127, 128⟩, ⟨127, 128⟩]).speeda ≤ (wheels [⟨127, 128⟩, ⟨127, 0⟩]).speeda ∧
      (wheels [⟨127, 128⟩, ⟨127, 128⟩]).speedb ≤ (wheels [⟨127, 128⟩, ⟨127, 0⟩]).speedb :=
  commands_monotone.1 (.cons ⟨rfl, by decide⟩ (.cons ⟨rfl, by decide⟩ .nil))

/-! ### Mirrored steering -/

def Stick.mirror (k : Stick) : Stick := ⟨254 - k.ps2LX, k.ps2LY⟩

/-- The two wheels have exchanged their commands. -/
structure Swapped (s s' : State) : Prop where
  speeda : s'.speeda = s.speedb
  speedb : s'.speedb = s.speeda

theorem deltaTarget_mirror {b : Byte} (h : b.toNat ≤ 254) :
    deltaTarget (254 - b) = -deltaTarget b := by
  have hsub : (254 - b).toNat = 254 - b.toNat := BitVec.toNat_sub_of_le h
  unfold deltaTarget
  omega

theorem throttle_mirror (ks : List Stick) : throttle (ks.map Stick.mirror) = throttle ks := by
  unfold throttle
  rw [List.map_map]
  rfl

theorem steering_mirror {ks : List Stick} (h : ∀ k ∈ ks, k.ps2LX.toNat ≤ 254) :
    steering (ks.map Stick.mirror) = -steering ks := by
  unfold steering axis
  rw [← run_follow_neg (by omega), List.map_map, List.map_map]
  congr 1
  exact List.map_congr_left fun k hk => deltaTarget_mirror (h k hk)

/-- The two output clamps agree exactly on what the narrower one lets through. -/
theorem clampSpeed_agree (x : ℤ) : clampSpeed 320000 x = clampSpeed 256000 x ↔ |x| ≤ 256000 := by
  rw [abs_le]
  unfold clampSpeed
  split_ifs <;> omega

theorem mirror_centred {ks : List Stick} (h : ∀ k ∈ ks, k.ps2LX = 127) :
    ks.map Stick.mirror = ks := by
  have hid : ∀ k ∈ ks, k.mirror = id k := by
    intro k hk
    obtain ⟨lx, ly⟩ := k
    obtain rfl : lx = 127 := h _ hk
    have hlx : (254 - 127 : Byte) = 127 := by decide
    exact congrArg (Stick.mk · ly) hlx
  rw [List.map_congr_left hid, List.map_id]

theorem steering_centred {ks : List Stick} (h : ∀ k ∈ ks, k.ps2LX = 127) : steering ks = 0 := by
  have hrange : ∀ k ∈ ks, k.ps2LX.toNat ≤ 254 := by
    intro k hk
    rw [h k hk]
    decide
  have hneg := steering_mirror hrange
  rw [mirror_centred h] at hneg
  omega

/-- Each wheel takes over the other's command when its own mix is within the narrower clamp. -/
theorem swapped_iff {ks : List Stick} (h : ∀ k ∈ ks, k.ps2LX.toNat ≤ 254) :
    Swapped (wheels ks) (wheels (ks.map Stick.mirror)) ↔
      |throttle ks - steering ks| ≤ 256000 ∧ |throttle ks + steering ks| ≤ 256000 := by
  have ha : (wheels (ks.map Stick.mirror)).speeda =
      clampSpeed 320000 (throttle ks - steering ks) := by
    rw [wheels_speeda, throttle_mirror, steering_mirror h, sub_eq_add_neg]
  have hb : (wheels (ks.map Stick.mirror)).speedb =
      clampSpeed 256000 (throttle ks + steering ks) := by
    rw [wheels_speedb, throttle_mirror, steering_mirror h, sub_neg_eq_add]
  rw [← clampSpeed_agree, ← clampSpeed_agree]
  constructor
  · intro hs
    have hsa := hs.speeda
    have hsb := hs.speedb
    rw [ha, wheels_speedb] at hsa
    rw [hb, wheels_speeda] at hsb
    exact ⟨hsa, hsb.symm⟩
  · intro hs
    exact ⟨by rw [ha, wheels_speedb, hs.1], by rw [hb, wheels_speeda, hs.2]⟩

/-- Mirrored sticks exchange the wheels exactly while throttle and steering
together stay within the clamp of the second wheel; with the stick centred
sideways, exactly while the throttle does. -/
theorem swapped_iff_within {ks : List Stick} (h : ∀ k ∈ ks, k.ps2LX.toNat ≤ 254) :
    (Swapped (wheels ks) (wheels (ks.map Stick.mirror)) ↔
      |throttle ks| + |steering ks| ≤ 256000) ∧
    ((∀ k ∈ ks, k.ps2LX = 127) →
      ((wheels ks).speeda = (wheels ks).speedb ↔ |throttle ks| ≤ 256000)) := by
  constructor
  · rw [swapped_iff h]
    simp only [abs_eq_max_neg]
    omega
  · intro hcentre
    rw [wheels_speeda, wheels_speedb, steering_centred hcentre, add_zero, sub_zero,
      clampSpeed_agree]

theorem gentle_left_swapped :
    Swapped (wheels [⟨100, 0⟩, ⟨90, 0⟩]) (wheels [⟨154, 0⟩, ⟨164, 0⟩]) := by
  have hrange : ∀ k ∈ [Stick.mk 100 0, Stick.mk 90 0], k.ps2LX.toNat ≤ 254 := by decide
  exact (swapped_iff_within hrange).1.mpr (by decide +kernel)

def fullAhead : List Stick := List.replicate 79 ⟨127, 0⟩

/-- Full throttle for 79 iterations with the stick centred sideways: the wheels
get different commands, so the mirrored run, which is the same run, is not swapped. -/
theorem fullAhead_not_straight :
    (∀ k ∈ fullAhead, k.ps2LX = 127) ∧ (wheels fullAhead).speeda = 259120 ∧
      (wheels fullAhead).speedb = 256000 ∧
      ¬ Swapped (wheels fullAhead) (wheels (fullAhead.map Stick.mirror)) := by
  have hcentre : ∀ k ∈ fullAhead, k.ps2LX = 127 := by decide
  have ha : (wheels fullAhead).speeda = 259120 := by
    rw [wheels_speeda]
    decide +kernel
  have hb : (wheels fullAhead).speedb = 256000 := by
    rw [wheels_speedb]
    decide +kernel
  refine ⟨hcentre, ha, hb, ?_⟩
  intro hswapped
  have heq := hswapped.speeda
  rw [mirror_centred hcentre, ha, hb] at heq
  omega

end ExpertCar.WheelCommands
