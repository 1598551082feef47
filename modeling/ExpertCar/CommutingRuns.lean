import Mathlib.Data.List.Basic

/-!
# Reordering a run of operations

A run mixes operations of two parties in any order. If each operation of the
second party commutes with every operation of the first that comes later, the
run ends where the serial run ends in which the first party goes first.
-/
namespace CommutingRuns
variable {σ α : Type*} (f : σ → α → σ)

def Commute (x y : α) : Prop := ∀ s, f (f s x) y = f (f s y) x

theorem foldl_past {x : α} {ys : List α} (h : ∀ y ∈ ys, Commute f x y) (s : σ) :
    ys.foldl f (f s x) = f (ys.foldl f s) x := by
  induction ys generalizing s with
  | nil => rfl
  | cons y ys ih =>
      rw [List.foldl_cons, h y List.mem_cons_self s,
        ih fun z hz => h z (List.mem_cons_of_mem y hz)]
      rfl

/-- The run equals the one in which the operations satisfying `first` go first. -/
theorem foldl_eq_serial (first : α → Bool) {m : List α}
    (h : m.Pairwise fun x y => first x = false → first y = true → Commute f x y) (s : σ) :
    m.foldl f s = (m.filter first ++ m.filter fun x => !first x).foldl f s := by
  induction m generalizing s with
  | nil => rfl
  | cons x m ih =>
      obtain ⟨hx, hm⟩ := List.pairwise_cons.mp h
      rw [List.foldl_cons, ih hm]
      cases hfirst : first x with
      | true => simp [hfirst]
      | false =>
          have hpast := foldl_past f (x := x)
            (fun y hy => hx y (List.mem_filter.mp hy).1 hfirst (List.mem_filter.mp hy).2) s
          simp [hfirst, List.foldl_append, hpast]

end CommutingRuns
