import Mathlib.Data.List.Basic

/-!
# A digital line over time

What a reader of an input pin will still see: phases of constant level, each
lasting a positive number of ticks, and the level at which the line rests after
the last of them. A reader waits for a level to end, which may never happen, or
lets time pass. Instructions between two looks at the line take no time.
-/
namespace TimedLine

structure Phase where
  level : Bool
  ticks : ℕ
  pos : 0 < ticks

structure Line where
  phases : List Phase
  rest : Bool

def Line.level (l : Line) : Bool :=
  match l.phases with
  | [] => l.rest
  | p :: _ => p.level

/-- `while (level == b);`, without result when the line rests at `b`. -/
def Line.waitWhile (b : Bool) (l : Line) : Option Line :=
  match l.phases.dropWhile (fun p => p.level == b) with
  | [] => if l.rest = b then none else some ⟨[], l.rest⟩
  | p :: ps => some ⟨p :: ps, l.rest⟩

def elapse : ℕ → List Phase → List Phase
  | _, [] => []
  | d, p :: ps =>
      if h : d < p.ticks then ⟨p.level, p.ticks - d, Nat.sub_pos_of_lt h⟩ :: ps
      else elapse (d - p.ticks) ps

def Line.delay (d : ℕ) (l : Line) : Line := ⟨elapse d l.phases, l.rest⟩

section Reading
variable {m n : ℕ} {hm : 0 < m} {hn : 0 < n} {ps : List Phase} {rest : Bool}

/-- A wait ends where the current phase ends if the next one has the other level. -/
theorem waitWhile_low : Line.waitWhile false ⟨⟨false, m, hm⟩ :: ⟨true, n, hn⟩ :: ps, rest⟩ =
    some ⟨⟨true, n, hn⟩ :: ps, rest⟩ :=
  rfl

theorem waitWhile_high : Line.waitWhile true ⟨⟨true, m, hm⟩ :: ⟨false, n, hn⟩ :: ps, rest⟩ =
    some ⟨⟨false, n, hn⟩ :: ps, rest⟩ :=
  rfl

theorem level_phase {b : Bool} : Line.level ⟨⟨b, n, hn⟩ :: ps, rest⟩ = b := rfl

theorem delay_within {b : Bool} {d : ℕ} (h : d < n) :
    Line.delay d ⟨⟨b, n, hn⟩ :: ps, rest⟩ = ⟨⟨b, n - d, Nat.sub_pos_of_lt h⟩ :: ps, rest⟩ := by
  simp [Line.delay, elapse, h]

theorem delay_beyond {b : Bool} {d : ℕ} (h : n ≤ d) :
    Line.delay d ⟨⟨b, n, hn⟩ :: ps, rest⟩ = Line.delay (d - n) ⟨ps, rest⟩ := by
  simp [Line.delay, elapse, Nat.not_lt.mpr h]

end Reading

end TimedLine
