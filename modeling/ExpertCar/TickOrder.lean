import Mathlib.Data.List.Basic
import Mathlib.Data.BitVec

/-!
# Deadlines on a wrapping clock

A clock of `2 ^ w` values is compared through differences: a deadline has come
when it lies less than `half` behind the clock. Deadlines less than `half` ahead
are ordered by the ticks that remain, whatever the clock shows, so a list kept in
that order by comparing differences has in front what comes first.
-/
namespace TickOrder
variable {w : ℕ} {ι : Type*}

/-- Ticks until the deadline. -/
def remaining (now deadline : BitVec w) : ℕ := (deadline - now).toNat

/-- The deadline `a` is later than the deadline `b`, as a difference shows it. -/
def Later (half a b : BitVec w) : Prop := a - b ≠ 0 ∧ a - b < half

instance (half a b : BitVec w) : Decidable (Later half a b) := inferInstanceAs (Decidable (_ ∧ _))

/-- The deadline has come. -/
def Due (half now deadline : BitVec w) : Prop := now - deadline < half

instance (half now deadline : BitVec w) : Decidable (Due half now deadline) :=
  inferInstanceAs (Decidable (_ < _))

/-- Insertion behind all deadlines that are not later. -/
def insertBefore (half : BitVec w) (deadline : ι → BitVec w) (new : ι) : List ι → List ι
  | [] => [new]
  | t :: ts =>
      if Later half (deadline t) (deadline new) then new :: t :: ts
      else t :: insertBefore half deadline new ts

theorem insertBefore_perm (half : BitVec w) (deadline : ι → BitVec w) (new : ι) (l : List ι) :
    (insertBefore half deadline new l).Perm (new :: l) := by
  induction l with
  | nil => exact List.Perm.refl _
  | cons t ts ih =>
      unfold insertBefore
      split_ifs
      · exact List.Perm.refl _
      · exact (ih.cons t).trans (List.Perm.swap new t ts)

/-! ### Comparing differences -/

theorem sub_toNat_cases (a b : BitVec w) :
    (b.toNat ≤ a.toNat ∧ (a - b).toNat = a.toNat - b.toNat) ∨
      (a.toNat < b.toNat ∧ (a - b).toNat = 2 ^ w + a.toNat - b.toNat) := by
  have ha := a.isLt
  have hb := b.isLt
  rcases Nat.lt_or_ge a.toNat b.toNat with h | h
  · refine Or.inr ⟨h, ?_⟩
    rw [BitVec.toNat_sub, Nat.mod_eq_of_lt (by omega)]
    omega
  · exact Or.inl ⟨h, BitVec.toNat_sub_of_le h⟩

theorem toNat_ne_zero {a : BitVec w} : a ≠ 0 ↔ a.toNat ≠ 0 := by
  rw [ne_eq, ← BitVec.toNat_inj]
  rfl

section Order
variable {half now : BitVec w} (hhalf : 2 * half.toNat ≤ 2 ^ w)
include hhalf

/-- Between deadlines less than `half` ahead the difference shows which is later. -/
theorem later_iff {a b : BitVec w} (ha : remaining now a < half.toNat)
    (hb : remaining now b < half.toNat) :
    Later half a b ↔ remaining now b < remaining now a := by
  have hsub : a - b = (a - now) - (b - now) := (sub_sub_sub_cancel_right a b now).symm
  have hlt : a - b < half ↔ (a - b).toNat < half.toNat := BitVec.lt_def
  unfold remaining at ha hb ⊢
  rw [Later, toNat_ne_zero, hlt, hsub]
  rcases sub_toNat_cases (a - now) (b - now) with ⟨hle, heq⟩ | ⟨hle, heq⟩
  · rw [heq]
    omega
  · rw [heq]
    omega

/-- One tick later the deadlines with at most one tick left have come. -/
theorem due_succ_iff {a : BitVec w} (htwo : 2 ≤ half.toNat) (ha : remaining now a < half.toNat) :
    Due half (now + 1) a ↔ remaining now a ≤ 1 := by
  have hsub : now + 1 - a = 1 - (a - now) := by
    rw [add_comm, add_sub_assoc, ← neg_sub a now, ← sub_eq_add_neg]
  have hone : (1 : BitVec w).toNat = 1 := by
    have hw : 1 < 2 ^ w := by omega
    exact Nat.mod_eq_of_lt hw
  have hlt : now + 1 - a < half ↔ (now + 1 - a).toNat < half.toNat := BitVec.lt_def
  unfold remaining at ha ⊢
  rw [Due, hlt, hsub]
  rcases sub_toNat_cases 1 (a - now) with ⟨hle, heq⟩ | ⟨hle, heq⟩
  · rw [heq, hone]
    rw [hone] at hle
    omega
  · rw [heq, hone]
    rw [hone] at hle
    omega

end Order

theorem remaining_succ {now a : BitVec w} (h : remaining now a ≠ 0) :
    remaining (now + 1) a = remaining now a - 1 := by
  have hsub : a - (now + 1) = (a - now) - 1 := (sub_sub a now 1).symm
  unfold remaining at h ⊢
  have hlt := (a - now).isLt
  have hw : 1 < 2 ^ w := by omega
  have hone : (1 : BitVec w).toNat = 1 := Nat.mod_eq_of_lt hw
  rw [hsub, BitVec.toNat_sub_of_le, hone]
  rw [BitVec.le_def, hone]
  omega

theorem remaining_add (now d : BitVec w) : remaining now (now + d) = d.toNat := by
  rw [remaining, add_sub_cancel_left]

/-! ### Lists in the order of their deadlines -/

/-- All deadlines are less than `half` ahead. -/
def Near (half now : BitVec w) (deadline : ι → BitVec w) (l : List ι) : Prop :=
  ∀ t ∈ l, remaining now (deadline t) < half.toNat

def Sorted (now : BitVec w) (deadline : ι → BitVec w) (l : List ι) : Prop :=
  l.Pairwise fun s t => remaining now (deadline s) ≤ remaining now (deadline t)

section Lists
variable {half now : BitVec w} {deadline : ι → BitVec w}

theorem Near.congr {l : List ι} (h : Near half now deadline l) {deadline' : ι → BitVec w}
    (heq : ∀ t ∈ l, deadline' t = deadline t) : Near half now deadline' l := by
  intro t ht
  rw [heq t ht]
  exact h t ht

theorem Sorted.congr {l : List ι} (h : Sorted now deadline l) {deadline' : ι → BitVec w}
    (heq : ∀ t ∈ l, deadline' t = deadline t) : Sorted now deadline' l := by
  refine List.Pairwise.imp_of_mem ?_ h
  intro s t hs ht hle
  rw [heq s hs, heq t ht]
  exact hle

theorem Near.insertBefore {l : List ι} {new : ι} (h : Near half now deadline l)
    (hnew : remaining now (deadline new) < half.toNat) :
    Near half now deadline (insertBefore half deadline new l) := by
  intro t ht
  rcases List.mem_cons.mp ((insertBefore_perm half deadline new l).mem_iff.mp ht) with rfl | hold
  · exact hnew
  · exact h t hold

theorem Sorted.insertBefore (hhalf : 2 * half.toNat ≤ 2 ^ w) {l : List ι} {new : ι}
    (hsorted : Sorted now deadline l) (hnear : Near half now deadline l)
    (hnew : remaining now (deadline new) < half.toNat) :
    Sorted now deadline (insertBefore half deadline new l) := by
  induction l with
  | nil => exact List.pairwise_singleton _ _
  | cons t ts ih =>
      have hts := List.pairwise_cons.mp hsorted
      have hlater := later_iff hhalf (hnear t List.mem_cons_self) hnew
      have hnear' : Near half now deadline ts := fun u hu => hnear u (List.mem_cons_of_mem t hu)
      unfold TickOrder.insertBefore
      split_ifs with h
      · refine List.pairwise_cons.mpr ⟨fun u hu => ?_, hsorted⟩
        have hlt := hlater.mp h
        rcases List.mem_cons.mp hu with rfl | hu
        · exact Nat.le_of_lt hlt
        · exact Nat.le_trans (Nat.le_of_lt hlt) (hts.1 u hu)
      · refine List.pairwise_cons.mpr ⟨fun u hu => ?_, ih hts.2 hnear'⟩
        rcases List.mem_cons.mp ((insertBefore_perm half deadline new ts).mem_iff.mp hu)
          with rfl | hu
        · exact Nat.le_of_not_lt fun hlt => h (hlater.mpr hlt)
        · exact hts.1 u hu

/-- What follows a deadline that has not come has not come either. -/
theorem Sorted.not_due (hhalf : 2 * half.toNat ≤ 2 ^ w) (htwo : 2 ≤ half.toNat) {t : ι}
    {ts : List ι} (hsorted : Sorted now deadline (t :: ts))
    (hnear : Near half now deadline (t :: ts)) (h : ¬ Due half (now + 1) (deadline t)) :
    ∀ u ∈ t :: ts, ¬ Due half (now + 1) (deadline u) := by
  intro u hu hdue
  rw [due_succ_iff hhalf htwo (hnear t List.mem_cons_self)] at h
  rw [due_succ_iff hhalf htwo (hnear u hu)] at hdue
  rcases List.mem_cons.mp hu with rfl | htail
  · exact h hdue
  · exact h (Nat.le_trans ((List.pairwise_cons.mp hsorted).1 u htail) hdue)

/-- The next tick keeps the order of deadlines that have not come. -/
theorem Sorted.succ {l : List ι} (h : Sorted now deadline l)
    (hpos : ∀ t ∈ l, remaining now (deadline t) ≠ 0) : Sorted (now + 1) deadline l := by
  refine List.Pairwise.imp_of_mem ?_ h
  intro s t hs ht hle
  rw [remaining_succ (hpos s hs), remaining_succ (hpos t ht)]
  omega

theorem Near.succ {l : List ι} (h : Near half now deadline l)
    (hpos : ∀ t ∈ l, remaining now (deadline t) ≠ 0) : Near half (now + 1) deadline l := by
  intro t ht
  have := h t ht
  rw [remaining_succ (hpos t ht)]
  omega

end Lists

end TickOrder
