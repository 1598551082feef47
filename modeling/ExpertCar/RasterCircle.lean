import Mathlib.Algebra.Order.Group.Int
import Mathlib.Algebra.Order.Ring.Int
import Mathlib.Data.List.Chain
import Mathlib.Tactic.Linarith
import Mathlib.Tactic.Ring

/-!
# Circles on a grid

One eighth of a circle of radius `R` around the origin as a walk from the top
towards the diagonal: every step goes one to the right, and down as well when the
two candidates together lie outside the circle. `Walk` holds of the points visited
before the diagonal and of the point at which the walk stops. Every point above
or on the diagonal misses the circle by less than half a unit, which is carried
by one invariant through both kinds of steps. The circle is the arc with its
eight reflections.
-/
namespace RasterCircle

/-- By how much `(a, b)` misses the circle. -/
def defect (R a b : ℤ) : ℤ := a * a + b * b - R * R

/-- What the two candidates after `(a, b)` miss together. -/
def decision (R a b : ℤ) : ℤ := defect R (a + 1) b + defect R (a + 1) (b - 1)

theorem decision_start (R : ℤ) : decision R 0 R = 3 - 2 * R := by
  unfold decision defect
  ring

theorem decision_right (R a b : ℤ) : decision R (a + 1) b = decision R a b + 4 * a + 6 := by
  unfold decision defect
  ring

theorem decision_down (R a b : ℤ) :
    decision R (a + 1) (b - 1) = decision R a b + 4 * (a - b) + 10 := by
  unfold decision defect
  ring

theorem decision_eq (R a b : ℤ) : decision R a b = 2 * defect R a b + 4 * a - 2 * b + 3 := by
  unfold decision defect
  ring

theorem defect_right (R a b : ℤ) : defect R (a + 1) b = defect R a b + 2 * a + 1 := by
  unfold defect
  ring

theorem defect_down (R a b : ℤ) :
    defect R (a + 1) (b - 1) = defect R a b + 2 * a - 2 * b + 2 := by
  unfold defect
  ring

def next (R : ℤ) (p : ℤ × ℤ) : ℤ × ℤ :=
  if decision R p.1 p.2 < 0 then (p.1 + 1, p.2) else (p.1 + 1, p.2 - 1)

/-- The points visited from `p` on while above the diagonal, and where the walk stops. -/
inductive Walk (R : ℤ) : ℤ × ℤ → List (ℤ × ℤ) → ℤ × ℤ → Prop
  | stop {p : ℤ × ℤ} : p.2 ≤ p.1 → Walk R p [] p
  | step {p q : ℤ × ℤ} {ps : List (ℤ × ℤ)} :
      p.1 < p.2 → Walk R (next R p) ps q → Walk R p (p :: ps) q

/-- The invariant of the walk: at most one step past the diagonal, not above the
top, and close to the circle up to the diagonal. -/
structure OnArc (R : ℤ) (p : ℤ × ℤ) : Prop where
  nonneg : 0 ≤ p.1
  past : p.1 ≤ p.2 + 1
  bound : p.2 ≤ R
  close : p.1 ≤ p.2 → (defect R p.1 p.2).natAbs ≤ p.2.natAbs

theorem onArc_start {R : ℤ} (hR : 0 ≤ R) : OnArc R (0, R) := by
  have hdefect : defect R 0 R = 0 := by
    unfold defect
    ring
  refine ⟨le_rfl, ?_, le_rfl, fun _ => ?_⟩
  · change 0 ≤ R + 1
    omega
  · rw [hdefect]
    exact Nat.zero_le _

/-- Both kinds of steps keep the invariant: the sign of the decision bounds the new
defect on one side, the old defect on the other. -/
theorem onArc_next {R : ℤ} {p : ℤ × ℤ} (h : OnArc R p) (hp : p.1 < p.2) : OnArc R (next R p) := by
  obtain ⟨a, b⟩ := p
  have hnonneg := h.nonneg
  have hbound := h.bound
  have hclose := h.close (le_of_lt hp)
  have hdecision := decision_eq R a b
  have hright := defect_right R a b
  have hdown := defect_down R a b
  simp only at hp hnonneg hbound hclose
  unfold next
  split_ifs with hc
  · simp only at hc
    refine ⟨?_, ?_, hbound, fun _ => ?_⟩ <;> simp only <;> omega
  · simp only at hc
    refine ⟨?_, ?_, ?_, fun hle => ?_⟩
    · simp only
      omega
    · simp only
      omega
    · simp only
      omega
    · simp only at hle ⊢
      omega

theorem Walk.onArc {R : ℤ} {p q : ℤ × ℤ} {ps : List (ℤ × ℤ)} (h : Walk R p ps q)
    (hp : OnArc R p) : (∀ r ∈ ps, OnArc R r ∧ r.1 < r.2) ∧ OnArc R q ∧ q.2 ≤ q.1 := by
  induction h with
  | stop hstop => exact ⟨fun r hr => (List.not_mem_nil hr).elim, hp, hstop⟩
  | step hlt _ ih =>
      obtain ⟨hps, hq⟩ := ih (onArc_next hp hlt)
      refine ⟨fun r hr => ?_, hq⟩
      rcases List.mem_cons.mp hr with rfl | hlater
      · exact ⟨hp, hlt⟩
      · exact hps r hlater

/-- One to the right, or right and down. -/
def Advance (p q : ℤ × ℤ) : Prop := q = (p.1 + 1, p.2) ∨ q = (p.1 + 1, p.2 - 1)

theorem advance_next (R : ℤ) (p : ℤ × ℤ) : Advance p (next R p) := by
  unfold next
  split_ifs
  · exact Or.inl rfl
  · exact Or.inr rfl

theorem Walk.head {R : ℤ} {p q : ℤ × ℤ} {ps : List (ℤ × ℤ)} (h : Walk R p ps q) :
    (ps ++ [q]).head? = some p := by
  cases h with
  | stop _ => rfl
  | step _ _ => rfl

theorem Walk.advances {R : ℤ} {p q : ℤ × ℤ} {ps : List (ℤ × ℤ)} (h : Walk R p ps q) :
    (ps ++ [q]).IsChain Advance := by
  induction h with
  | stop _ => exact List.isChain_singleton _
  | step _ hrest ih =>
      rw [List.cons_append, List.isChain_cons]
      refine ⟨fun r hr => ?_, ih⟩
      rw [hrest.head, Option.mem_some_iff] at hr
      rw [← hr]
      exact advance_next R _

/-- A walk that oversteps the diagonal has left its last point just above it. -/
theorem Walk.last_of_past {R : ℤ} {p q : ℤ × ℤ} {ps : List (ℤ × ℤ)} (h : Walk R p ps q)
    (hp : p.1 ≤ p.2) (hq : q.1 = q.2 + 1) : ps.getLast? = some (q.1 - 1, q.1) := by
  induction h with
  | stop _ => omega
  | @step p q ps hlt hrest ih =>
      by_cases hnext : (next R p).1 ≤ (next R p).2
      · have hlast := ih hnext hq
        rw [List.getLast?_cons, hlast]
        rfl
      · cases hrest with
        | step hlt' _ => exact (hnext (le_of_lt hlt')).elim
        | stop _ =>
            rcases advance_next R p with heq | heq
            · rw [heq] at hnext
              simp only at hnext
              omega
            · rw [heq] at hnext ⊢
              simp only at hnext
              have hp2 : p.2 = p.1 + 1 := by omega
              rw [List.getLast?_singleton, Option.some.injEq]
              exact Prod.ext (by simp only; omega) (by simp only; omega)

/-! ### The arc that is drawn -/

/-- The points above the diagonal, and the one on it if the walk stops there. -/
def arc (ps : List (ℤ × ℤ)) (q : ℤ × ℤ) : List (ℤ × ℤ) := if q.1 = q.2 then ps ++ [q] else ps

/-- Within half a unit of the circle. -/
def Close (R : ℤ) (p : ℤ × ℤ) : Prop := (defect R p.1 p.2).natAbs ≤ max p.1.natAbs p.2.natAbs

/-- An eighth of a circle without gaps, from the top to the diagonal or to the last
point before it. -/
structure Octant (R : ℤ) (points : List (ℤ × ℤ)) : Prop where
  first : points.head? = some (0, R)
  advances : points.IsChain Advance
  last : ∃ m, points.getLast? = some (m, m) ∨ points.getLast? = some (m - 1, m)
  close : ∀ p ∈ points, Close R p

theorem OnArc.close' {R : ℤ} {p : ℤ × ℤ} (h : OnArc R p) (hp : p.1 ≤ p.2) : Close R p :=
  Nat.le_trans (h.close hp) (Nat.le_max_right _ _)

theorem Walk.octant {R : ℤ} (hR : 0 ≤ R) {ps : List (ℤ × ℤ)} {q : ℤ × ℤ}
    (h : Walk R (0, R) ps q) : Octant R (arc ps q) := by
  obtain ⟨hps, hq, hstop⟩ := h.onArc (onArc_start hR)
  have hpast := hq.past
  have hhead := h.head
  have hchain := h.advances
  unfold arc
  split_ifs with hdiag
  · refine ⟨hhead, hchain, ⟨q.1, Or.inl ?_⟩, fun p hp => ?_⟩
    · rw [List.getLast?_concat, Option.some.injEq]
      exact Prod.ext rfl hdiag.symm
    · rcases List.mem_append.mp hp with hbefore | hend
      · exact (hps p hbefore).1.close' (le_of_lt (hps p hbefore).2)
      · rw [List.mem_singleton.mp hend]
        exact hq.close' (le_of_eq hdiag)
  · have hlast := h.last_of_past hR (by omega)
    have hne : ps ≠ [] := by
      rintro rfl
      exact (Option.some_ne_none _ hlast.symm).elim
    refine ⟨?_, hchain.left_of_append, ⟨q.1, Or.inr hlast⟩, fun p hp => ?_⟩
    · rwa [List.head?_append_of_ne_nil _ hne] at hhead
    · exact (hps p hp).1.close' (le_of_lt (hps p hp).2)

/-! ### The whole circle -/

def reflections (p : ℤ × ℤ) : List (ℤ × ℤ) :=
  [(p.1, p.2), (-p.1, p.2), (p.1, -p.2), (-p.1, -p.2),
   (p.2, p.1), (-p.2, p.1), (p.2, -p.1), (-p.2, -p.1)]

/-- A list of offsets from the centre is a circle drawn from the eighth `points`. -/
structure Draws (R : ℤ) (points offsets : List (ℤ × ℤ)) : Prop where
  octant : Octant R points
  mem : ∀ o, o ∈ offsets ↔ ∃ p ∈ points, o ∈ reflections p
  close : ∀ o ∈ offsets, Close R o
  symmetric : ∀ u v, (u, v) ∈ offsets →
    (-u, v) ∈ offsets ∧ (u, -v) ∈ offsets ∧ (v, u) ∈ offsets

theorem close_of_mem_reflections {R : ℤ} {p o : ℤ × ℤ} (hp : Close R p)
    (ho : o ∈ reflections p) : Close R o := by
  have hneg (u : ℤ) : -u * -u = u * u := by ring
  unfold Close defect at *
  simp only [reflections, List.mem_cons, List.not_mem_nil, or_false] at ho
  rcases ho with rfl | rfl | rfl | rfl | rfl | rfl | rfl | rfl <;>
    simp only [hneg, Int.natAbs_neg] <;> omega

theorem reflections_symmetric {p : ℤ × ℤ} {u v : ℤ} (h : (u, v) ∈ reflections p) :
    (-u, v) ∈ reflections p ∧ (u, -v) ∈ reflections p ∧ (v, u) ∈ reflections p := by
  simp only [reflections, List.mem_cons, List.not_mem_nil, or_false, Prod.mk.injEq] at h
  rcases h with ⟨rfl, rfl⟩ | ⟨rfl, rfl⟩ | ⟨rfl, rfl⟩ | ⟨rfl, rfl⟩ | ⟨rfl, rfl⟩ | ⟨rfl, rfl⟩ |
    ⟨rfl, rfl⟩ | ⟨rfl, rfl⟩ <;> simp [reflections]

/-- An eighth and all its reflections make a circle. -/
theorem draws_of_octant {R : ℤ} {points offsets : List (ℤ × ℤ)} (h : Octant R points)
    (hmem : ∀ o, o ∈ offsets ↔ ∃ p ∈ points, o ∈ reflections p) : Draws R points offsets := by
  refine ⟨h, hmem, fun o ho => ?_, fun u v huv => ?_⟩
  · obtain ⟨p, hp, hrefl⟩ := (hmem o).mp ho
    exact close_of_mem_reflections (h.close p hp) hrefl
  · obtain ⟨p, hp, hrefl⟩ := (hmem (u, v)).mp huv
    obtain ⟨hx, hy, hswap⟩ := reflections_symmetric hrefl
    exact ⟨(hmem _).mpr ⟨p, hp, hx⟩, (hmem _).mpr ⟨p, hp, hy⟩, (hmem _).mpr ⟨p, hp, hswap⟩⟩

end RasterCircle
