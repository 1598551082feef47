import Mathlib.Data.List.FinRange
import Mathlib.Data.Fintype.Basic
import Mathlib.Logic.Function.Basic

/-!
# Loops that store into an array

An array of `n` cells is a function on `Fin n`. A loop that stores `f a` at each
index `a` it visits changes exactly the visited cells; over all indices it
replaces the whole content.
-/
namespace ArrayLoops
variable {κ α : Type*} [DecidableEq κ]

/-- `for (a in visited) d[a] = f(a);` -/
def store (f : κ → α) (d : κ → α) (visited : List κ) : κ → α :=
  visited.foldl (fun d a => Function.update d a (f a)) d

theorem store_apply (f d : κ → α) (visited : List κ) (i : κ) :
    store f d visited i = if i ∈ visited then f i else d i := by
  induction visited generalizing d with
  | nil => rfl
  | cons a visited ih =>
      rw [store, List.foldl_cons]
      refine (ih (Function.update d a (f a))).trans ?_
      by_cases hi : i = a
      · subst hi
        simp
      · simp [hi]

theorem store_finRange {n : ℕ} (f d : Fin n → α) : store f d (List.finRange n) = f := by
  funext i
  simp [store_apply]

end ArrayLoops
