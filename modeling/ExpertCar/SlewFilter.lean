import ExpertCar.StepRuns
import Mathlib.Algebra.Order.Group.Int
import Mathlib.Tactic.Linarith
import Mathlib.Tactic.Ring

/-!
# A truncating low-pass filter behind a slew limiter

`follow d rate` takes the mean of one part target and `d - 1` parts previous
value, truncates it toward zero, and moves the previous value toward the result
by at most `rate`. In lattice form the step is the truncated mean clamped to an
interval around the previous value, so it is odd, and monotone in target and
state together. Truncation leaves the mean at the previous value when the target
lies less than `d` further from zero; those are the only points where the filter
rests away from its target, and every constant target leads to one of them.
-/
namespace SlewFilter
open StepRuns

def blend (d target prev : ℤ) : ℤ := (target + (d - 1) * prev).tdiv d

def slew (rate change : ℤ) : ℤ := max (-rate) (min rate change)

def follow (d rate prev target : ℤ) : ℤ := prev + slew rate (blend d target prev - prev)

variable {d rate : ℤ}

theorem follow_eq_clamp (d rate prev target : ℤ) :
    follow d rate prev target = max (prev - rate) (min (prev + rate) (blend d target prev)) := by
  unfold follow slew
  omega

/-! ### Symmetry and order -/

theorem blend_neg (d target prev : ℤ) : blend d (-target) (-prev) = -blend d target prev := by
  unfold blend
  rw [← Int.neg_tdiv]
  congr 1
  ring

theorem follow_neg (hrate : 0 ≤ rate) (prev target : ℤ) :
    follow d rate (-prev) (-target) = -follow d rate prev target := by
  rw [follow_eq_clamp, follow_eq_clamp, blend_neg]
  omega

theorem blend_mono (hd : 1 ≤ d) {target target' prev prev' : ℤ} (ht : target ≤ target')
    (hp : prev ≤ prev') : blend d target prev ≤ blend d target' prev' := by
  have hmul : (d - 1) * prev ≤ (d - 1) * prev' := mul_le_mul_of_nonneg_left hp (by omega)
  exact Int.tdiv_le_tdiv (by omega) (by omega)

theorem follow_mono (hd : 1 ≤ d) {target target' prev prev' : ℤ} (hp : prev ≤ prev')
    (ht : target ≤ target') : follow d rate prev target ≤ follow d rate prev' target' := by
  have hb := blend_mono hd ht hp
  rw [follow_eq_clamp, follow_eq_clamp]
  omega

theorem blend_self (hd : 1 ≤ d) (x : ℤ) : blend d x x = x := by
  unfold blend
  rw [show x + (d - 1) * x = d * x by ring]
  exact Int.mul_tdiv_cancel_left x (by omega)

/-- The mean of two values lies between them. -/
theorem blend_between (hd : 1 ≤ d) (target prev : ℤ) :
    min target prev ≤ blend d target prev ∧ blend d target prev ≤ max target prev := by
  constructor
  · have h := blend_mono hd (min_le_left target prev) (min_le_right target prev)
    rwa [blend_self hd] at h
  · have h := blend_mono hd (le_max_left target prev) (le_max_right target prev)
    rwa [blend_self hd] at h

theorem follow_between (hd : 1 ≤ d) (hrate : 0 ≤ rate) (prev target : ℤ) :
    min target prev ≤ follow d rate prev target ∧
      follow d rate prev target ≤ max target prev := by
  have h := blend_between hd target prev
  rw [follow_eq_clamp]
  omega

/-! ### Where the filter rests -/

/-- At the target, or short of it by less than `d`, on its side of zero. -/
def Rest (d target value : ℤ) : Prop :=
  value = target ∨ (value = 0 ∨ value.sign = target.sign) ∧
    0 < |target| - |value| ∧ |target| - |value| < d

theorem rest_iff {target value : ℤ} :
    Rest d target value ↔ value = target ∨ (0 ≤ value ∧ value < target ∧ target - value < d) ∨
      (value ≤ 0 ∧ target < value ∧ value - target < d) := by
  unfold Rest
  rw [abs_eq_max_neg, abs_eq_max_neg]
  rcases lt_trichotomy value 0 with hv | rfl | hv <;>
    rcases lt_trichotomy target 0 with ht | rfl | ht <;>
    simp [Int.sign_eq_one_of_pos, Int.sign_eq_neg_one_of_neg, *] <;> omega

/-- Short of a target further from zero by less than `d`, truncation gives the
previous value back. -/
theorem blend_of_short (hd : 1 ≤ d) {target prev : ℤ} (hp : 0 ≤ prev) (hlo : prev ≤ target)
    (hhi : target - prev < d) : blend d target prev = prev := by
  have hprod : 0 ≤ d * prev := mul_nonneg (by omega) hp
  have hsum : target + (d - 1) * prev = target - prev + d * prev := by ring
  unfold blend
  rw [hsum, Int.tdiv_eq_ediv_of_nonneg (by omega), Int.add_mul_ediv_left _ _ (by omega),
    Int.ediv_eq_zero_of_lt (by omega) hhi, Int.zero_add]

theorem blend_eq_self_iff (hd : 1 ≤ d) (target prev : ℤ) :
    blend d target prev = prev ↔ Rest d target prev := by
  constructor
  · intro h
    have hdiv := Int.mul_tdiv_add_tmod (target + (d - 1) * prev) d
    have hsum : target + (d - 1) * prev = d * prev + (target - prev) := by ring
    change (target + (d - 1) * prev).tdiv d = prev at h
    rw [h] at hdiv
    -- the remainder is the distance to the target, and has the sign of the mean
    rcases le_total 0 (target + (d - 1) * prev) with hs | hs
    · have hp := Int.tdiv_nonneg hs (by omega : 0 ≤ d)
      have hlo := Int.tmod_nonneg d hs
      have hhi := Int.tmod_lt_of_pos (target + (d - 1) * prev) (by omega : 0 < d)
      rw [rest_iff]
      omega
    · have hp := Int.tdiv_nonneg (by omega : 0 ≤ -(target + (d - 1) * prev)) (by omega : 0 ≤ d)
      have hlo := Int.lt_tmod_of_pos (target + (d - 1) * prev) (by omega : 0 < d)
      have hhi := Int.tmod_nonneg d (by omega : 0 ≤ -(target + (d - 1) * prev))
      rw [Int.neg_tdiv] at hp
      rw [Int.neg_tmod] at hhi
      rw [rest_iff]
      omega
  · intro h
    rcases rest_iff.mp h with rfl | ⟨hp, hlo, hhi⟩ | ⟨hp, hlo, hhi⟩
    · exact blend_self hd prev
    · exact blend_of_short hd hp hlo.le hhi
    · have hneg := blend_of_short hd (by omega : 0 ≤ -prev) (by omega : -prev ≤ -target) (by omega)
      rwa [blend_neg, neg_inj] at hneg

/-- The fixed points of the step are the resting points. -/
theorem follow_eq_self_iff (hd : 1 ≤ d) (hrate : 1 ≤ rate) (prev target : ℤ) :
    follow d rate prev target = prev ↔ Rest d target prev := by
  rw [← blend_eq_self_iff hd, follow_eq_clamp]
  omega

/-- A step that moves comes strictly closer to the target. -/
theorem follow_closer (hd : 1 ≤ d) (hrate : 0 ≤ rate) {prev target : ℤ}
    (h : follow d rate prev target ≠ prev) :
    (target - follow d rate prev target).natAbs < (target - prev).natAbs := by
  have hb := follow_between hd hrate prev target
  omega

/-! ### Whole runs -/

/-- Negated targets give negated values. -/
theorem run_follow_neg (hrate : 0 ≤ rate) (start : ℤ) (targets : List ℤ) :
    run (follow d rate) (-start) (targets.map Neg.neg) = -run (follow d rate) start targets := by
  have hpair : List.Forall₂ (fun t t' => t' = -t) targets (targets.map Neg.neg) :=
    List.forall₂_map_right_iff.mpr (List.forall₂_same.mpr fun _ _ => rfl)
  refine run_related (R := fun v v' => v' = -v) ?_ rfl hpair
  intro v v' t t' hv ht
  rw [hv, ht, follow_neg hrate]

/-- Higher targets give higher values. -/
theorem run_follow_mono (hd : 1 ≤ d) (start : ℤ) {targets targets' : List ℤ}
    (h : List.Forall₂ (· ≤ ·) targets targets') :
    run (follow d rate) start targets ≤ run (follow d rate) start targets' := by
  refine run_related (R := (· ≤ ·)) ?_ (le_refl start) h
  intro v v' t t' hv ht
  exact follow_mono hd hv ht

/-- A value that approaches a fixed target from one side, stays on that side, and
after finitely many steps rests at the target or short of it by less than `d`. -/
structure Settles (d target : ℤ) (value : ℕ → ℤ) : Prop where
  approach : (∀ n, value n ≤ value (n + 1) ∧ value (n + 1) ≤ target) ∨
    (∀ n, target ≤ value (n + 1) ∧ value (n + 1) ≤ value n)
  rest : ∃ N, Rest d target (value N) ∧ ∀ n ≥ N, value n = value N

theorem run_le_target (hd : 1 ≤ d) (hrate : 0 ≤ rate) {start target : ℤ} (hs : start ≤ target)
    (n : ℕ) : run (follow d rate) start (List.replicate n target) ≤ target := by
  induction n with
  | zero => exact hs
  | succ n ih =>
      rw [run_replicate_succ]
      exact (follow_between hd hrate _ target).2.trans (max_le (le_refl target) ih)

theorem approach_from_below (hd : 1 ≤ d) (hrate : 0 ≤ rate) {start target : ℤ}
    (hs : start ≤ target) (n : ℕ) :
    run (follow d rate) start (List.replicate n target) ≤
        run (follow d rate) start (List.replicate (n + 1) target) ∧
      run (follow d rate) start (List.replicate (n + 1) target) ≤ target := by
  constructor
  · rw [run_replicate_succ]
    exact (le_min (run_le_target hd hrate hs n) (le_refl _)).trans
      (follow_between hd hrate _ target).1
  · exact run_le_target hd hrate hs (n + 1)

theorem approach_from_above (hd : 1 ≤ d) (hrate : 0 ≤ rate) {start target : ℤ}
    (hs : target ≤ start) (n : ℕ) :
    target ≤ run (follow d rate) start (List.replicate (n + 1) target) ∧
      run (follow d rate) start (List.replicate (n + 1) target) ≤
        run (follow d rate) start (List.replicate n target) := by
  have hneg : ∀ k, run (follow d rate) (-start) (List.replicate k (-target)) =
      -run (follow d rate) start (List.replicate k target) := by
    intro k
    rw [← run_follow_neg hrate, List.map_replicate]
  obtain ⟨hstep, hle⟩ := approach_from_below hd hrate (neg_le_neg hs) n
  rw [hneg] at hle
  rw [hneg, hneg] at hstep
  exact ⟨neg_le_neg_iff.mp hle, neg_le_neg_iff.mp hstep⟩

theorem settles (hd : 1 ≤ d) (hrate : 1 ≤ rate) (start target : ℤ) :
    Settles d target fun n => run (follow d rate) start (List.replicate n target) := by
  constructor
  · rcases le_total start target with hs | hs
    · exact Or.inl (approach_from_below hd (by omega) hs)
    · exact Or.inr (approach_from_above hd (by omega) hs)
  · obtain ⟨N, hN⟩ := exists_run_fixed (follow d rate) (fun v => (target - v).natAbs)
      (fun v h => follow_closer hd (by omega) h) start
    refine ⟨N, (follow_eq_self_iff hd hrate _ target).mp hN, ?_⟩
    intro n hn
    obtain ⟨k, rfl⟩ := Nat.exists_eq_add_of_le hn
    rw [List.replicate_add, run_append, run_replicate_fixed _ hN]

end SlewFilter
