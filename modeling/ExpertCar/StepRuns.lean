import Mathlib.Data.List.Basic
import Mathlib.Data.List.Forall2
import Mathlib.Order.Basic

/-!
# Runs of a deterministic step function

A control loop is a step function `σ → ι → σ` driven by the list of its inputs;
a run is the left fold of the step. `Always` collects a condition on every step
actually taken, read at the state in which that step starts, and `total` sums a
weight over them. Invariants are proved for one step and lifted here once to
whole runs. A loop on one repeated input comes to rest when a measure falls with
every step that moves. The last group compares two loops: in lockstep on related
inputs, step by step against a loop with several smaller steps, or as long as a
guard holds, which is how a condition on the inputs alone is shown equivalent to
a condition on states.
-/
namespace StepRuns
variable {σ τ ι κ : Type*}

def run (step : σ → ι → σ) (s : σ) (inputs : List ι) : σ := inputs.foldl step s

section Run
variable (step : σ → ι → σ)

@[simp] theorem run_nil (s : σ) : run step s [] = s := rfl

@[simp] theorem run_cons (s : σ) (i : ι) (is : List ι) :
    run step s (i :: is) = run step (step s i) is := rfl

@[simp] theorem run_append (s : σ) (is js : List ι) :
    run step s (is ++ js) = run step (run step s is) js := List.foldl_append

theorem run_concat (s : σ) (is : List ι) (i : ι) :
    run step s (is ++ [i]) = step (run step s is) i := run_append step s is [i]

/-- An invariant of one step holds after every run. -/
theorem run_invariant {P : σ → Prop} (hstep : ∀ s i, P s → P (step s i))
    {s : σ} (hs : P s) (is : List ι) : P (run step s is) := by
  induction is generalizing s with
  | nil => exact hs
  | cons i is ih => exact ih (hstep s i hs)

/-- Every step of the run satisfies `Q`, read at the state in which it starts. -/
def Always (Q : σ → ι → Prop) : σ → List ι → Prop
  | _, [] => True
  | s, i :: is => Q s i ∧ Always Q (step s i) is

instance decidableAlways (Q : σ → ι → Prop) [∀ s i, Decidable (Q s i)] :
    ∀ s is, Decidable (Always step Q s is)
  | _, [] => isTrue trivial
  | s, i :: is =>
      have := decidableAlways Q (step s i) is
      inferInstanceAs (Decidable (_ ∧ _))

theorem always_append (Q : σ → ι → Prop) (s : σ) (is js : List ι) :
    Always step Q s (is ++ js) ↔ Always step Q s is ∧ Always step Q (run step s is) js := by
  induction is generalizing s with
  | nil => simp [Always]
  | cons i is ih => simp only [List.cons_append, Always, run_cons, ih, and_assoc]

theorem always_of_invariant {P : σ → Prop} {Q : σ → ι → Prop}
    (hstep : ∀ s i, P s → P (step s i)) (hQ : ∀ s i, P s → Q s i)
    {s : σ} (hs : P s) (is : List ι) : Always step Q s is := by
  induction is generalizing s with
  | nil => trivial
  | cons i is ih => exact ⟨hQ s i hs, ih (hstep s i hs)⟩

/-- The same with the step and the condition known only for the inputs that occur. -/
theorem always_of_forall_mem {P : σ → Prop} {Q : σ → ι → Prop} {is : List ι}
    (h : ∀ i ∈ is, ∀ s, P s → Q s i ∧ P (step s i)) {s : σ} (hs : P s) :
    Always step Q s is ∧ P (run step s is) := by
  induction is generalizing s with
  | nil => exact ⟨trivial, hs⟩
  | cons i is ih =>
      obtain ⟨hq, hp⟩ := h i List.mem_cons_self s hs
      obtain ⟨halways, hrun⟩ := ih (fun j hj => h j (List.mem_cons_of_mem i hj)) hp
      exact ⟨⟨hq, halways⟩, hrun⟩

/-- Two conditions equivalent under an invariant that lasts as long as they hold. -/
theorem always_congr {P : σ → Prop} {Q R : σ → ι → Prop}
    (hQR : ∀ s i, P s → (Q s i ↔ R s i)) (hstep : ∀ s i, P s → Q s i → P (step s i))
    {s : σ} (hs : P s) (is : List ι) : Always step Q s is ↔ Always step R s is := by
  induction is generalizing s with
  | nil => exact Iff.rfl
  | cons i is ih =>
      have hi := hQR s i hs
      constructor
      · intro h
        exact ⟨hi.mp h.1, (ih (hstep s i hs h.1)).mp h.2⟩
      · intro h
        exact ⟨hi.mpr h.1, (ih (hstep s i hs (hi.mpr h.1))).mpr h.2⟩

/-- A weight summed over the steps of a run, each read at the state in which it starts. -/
def total (weight : σ → ι → ℕ) : σ → List ι → ℕ
  | _, [] => 0
  | s, i :: is => weight s i + total weight (step s i) is

theorem total_append (weight : σ → ι → ℕ) (s : σ) (is js : List ι) :
    total step weight s (is ++ js) =
      total step weight s is + total step weight (run step s is) js := by
  induction is generalizing s with
  | nil => simp [total]
  | cons i is ih => simp only [List.cons_append, total, run_cons, ih, Nat.add_assoc]

/-! ### One input repeated -/

theorem run_replicate_succ (s : σ) (i : ι) (n : ℕ) :
    run step s (List.replicate (n + 1) i) = step (run step s (List.replicate n i)) i := by
  rw [List.replicate_succ', run_concat]

theorem run_replicate_fixed {s : σ} {i : ι} (h : step s i = s) (n : ℕ) :
    run step s (List.replicate n i) = s := by
  induction n with
  | zero => rfl
  | succ n ih => rw [run_replicate_succ, ih, h]

/-- A measure that falls with every step that moves leads to a state at rest. -/
theorem exists_run_fixed (rank : σ → ℕ) {i : ι}
    (h : ∀ s, step s i ≠ s → rank (step s i) < rank s) (s : σ) :
    ∃ n, step (run step s (List.replicate n i)) i = run step s (List.replicate n i) := by
  induction hr : rank s using Nat.strongRecOn generalizing s with
  | ind r ih =>
      by_cases hs : step s i = s
      · exact ⟨0, hs⟩
      · obtain ⟨n, hn⟩ := ih (rank (step s i)) (hr ▸ h s hs) (step s i) rfl
        exact ⟨n + 1, hn⟩

end Run

/-- Two loops in lockstep keep every relation that one step of both keeps. -/
theorem run_related {step : σ → ι → σ} {step' : τ → κ → τ} {R : σ → τ → Prop}
    {S : ι → κ → Prop} (hstep : ∀ s t i k, R s t → S i k → R (step s i) (step' t k))
    {s : σ} {t : τ} (h : R s t) {is : List ι} {ks : List κ} (hs : List.Forall₂ S is ks) :
    R (run step s is) (run step' t ks) := by
  induction hs generalizing s t with
  | nil => exact h
  | cons hik _ ih => exact ih (hstep _ _ _ _ h hik)

/-- A loop whose inputs are each cut into several inputs of a finer loop. -/
theorem always_flatMap (step : σ → ι → σ) (Q : σ → ι → Prop) (f : κ → List ι) (s : σ)
    (ks : List κ) :
    Always step Q s (ks.flatMap f) ↔
      Always (fun s k => run step s (f k)) (fun s k => Always step Q s (f k)) s ks := by
  induction ks generalizing s with
  | nil => exact Iff.rfl
  | cons k ks ih => rw [List.flatMap_cons, always_append, ih, Always]

/-- A loop that remembers its last input only: a condition on neighbours. -/
theorem always_last_iff_isChain (R : ι → ι → Prop) (last : ι) (is : List ι) :
    Always (fun _ i => i) R last is ↔ (last :: is).IsChain R := by
  induction is generalizing last with
  | nil => simp [Always]
  | cons i is ih => rw [Always, ih, List.isChain_cons_cons]

/-- Two loops on the same inputs, related as long as the common condition has
held so far. After its first failure nothing is asked of either loop. -/
theorem always_iff_of_guarded {step : σ → ι → σ} {step' : τ → ι → τ}
    {P : σ → τ → Prop} {Q : σ → ι → Prop} {R : τ → ι → Prop}
    (hQR : ∀ s t i, P s t → (Q s i ↔ R t i))
    (hstep : ∀ s t i, P s t → Q s i → P (step s i) (step' t i))
    {s : σ} {t : τ} (h : P s t) (is : List ι) :
    Always step Q s is ↔ Always step' R t is := by
  induction is generalizing s t with
  | nil => exact Iff.rfl
  | cons i is ih =>
      have hi := hQR s t i h
      constructor
      · intro hq
        exact ⟨hi.mp hq.1, (ih (hstep s t i h hq.1)).mp hq.2⟩
      · intro hr
        exact ⟨hi.mpr hr.1, (ih (hstep s t i h (hi.mpr hr.1))).mpr hr.2⟩

end StepRuns
