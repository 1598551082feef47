import ExpertCar.MachineWords
import ExpertCar.StepRuns
import Mathlib.Algebra.Ring.Nat

/-!
# The people counter

The counting part of the loop in `hardware_entry`. A count sets `n_flag`, and
while it is set `n` counts iterations up to a reset; only `n = 0` allows the next
count. So a count locks the counter for fifty iterations, and since the thread
starts with the flag set, so does a first iteration that does not count. The
counter is compared with a rule on the history of counts, and a presence of any
length is shown to be counted once for every 51 iterations it lasts.
-/
namespace ExpertCar.PeopleCounter
open StepRuns

structure Counter where
  n : Byte
  nFlag : Byte
  peopleNumber : Byte
  deriving DecidableEq

def Counter.boot : Counter := ⟨0, 1, 0⟩

/-- `rt_pin_read(DETECT_PIN)==PIN_HIGH&&n==0` -/
def Counts (s : Counter) (detectPin : Bool) : Prop := detectPin = true ∧ s.n = 0

instance (s : Counter) (detectPin : Bool) : Decidable (Counts s detectPin) :=
  inferInstanceAs (Decidable (_ ∧ _))

def countPeople (detectPin : Bool) (s : Counter) : Counter :=
  if Counts s detectPin then { s with peopleNumber := s.peopleNumber + 1, nFlag := 1 } else s

/-- `if(n_flag==1) { if(n++>=50) { n=0; n_flag=0; } }` -/
def lockout (s : Counter) : Counter :=
  if s.nFlag = 1 then
    if s.n ≥ 50 then { s with n := 0, nFlag := 0 } else { s with n := s.n + 1 }
  else s

/-- One iteration, given the pin at the counting test. The call of
`people_detect` before it uses none of the three variables. -/
def hardwareEntry (s : Counter) (detectPin : Bool) : Counter :=
  lockout (countPeople detectPin s)

/-- Iterations of a run that count. -/
def counts (s : Counter) (detectPin : Bool) : ℕ := if Counts s detectPin then 1 else 0

/-! ### The lockout -/

/-- What holds at the loop head. -/
structure Inv (s : Counter) : Prop where
  bound : s.n.toNat ≤ 50
  flag : s.nFlag = 1 ∨ s.nFlag = 0 ∧ s.n = 0

/-- Iterations until the next one that may count. -/
def Counter.locked (s : Counter) : ℕ := if s.n = 0 then 0 else 51 - s.n.toNat

theorem locked_eq_zero {s : Counter} (h : s.n = 0) : s.locked = 0 := if_pos h

theorem locked_pos {s : Counter} (hs : Inv s) (h : s.n ≠ 0) :
    s.locked = 51 - s.n.toNat ∧ 0 < s.locked := by
  have hbound := hs.bound
  have hlocked : s.locked = 51 - s.n.toNat := if_neg h
  refine ⟨hlocked, ?_⟩
  omega

theorem inv_boot : Inv Counter.boot := ⟨by decide, Or.inl rfl⟩

theorem hardwareEntry_of_not_counts {s : Counter} {detectPin : Bool} (h : ¬ Counts s detectPin) :
    hardwareEntry s detectPin = lockout s := by
  rw [hardwareEntry, countPeople, if_neg h]

theorem lockout_last {s : Counter} (hflag : s.nFlag = 1) (h : 50 ≤ s.n.toNat) :
    lockout s = { s with n := 0, nFlag := 0 } := by
  have hge : s.n ≥ 50 := h
  rw [lockout, if_pos hflag, if_pos hge]

theorem lockout_next {s : Counter} (hflag : s.nFlag = 1) (h : ¬ 50 ≤ s.n.toNat) :
    lockout s = { s with n := s.n + 1 } := by
  have hge : ¬ s.n ≥ 50 := h
  rw [lockout, if_pos hflag, if_neg hge]

theorem hardwareEntry_count {s : Counter} (h : s.n = 0) :
    (hardwareEntry s true).n = 1 ∧ (hardwareEntry s true).nFlag = 1 := by
  have hnext : lockout { s with peopleNumber := s.peopleNumber + 1, nFlag := 1 } =
      { s with peopleNumber := s.peopleNumber + 1, nFlag := 1, n := s.n + 1 } := by
    apply lockout_next rfl
    rw [h]
    decide
  rw [hardwareEntry, countPeople, if_pos ⟨rfl, h⟩, hnext, h]
  exact ⟨rfl, rfl⟩

/-- While locked the iteration only lets the lockout run on. -/
theorem step_locked {s : Counter} (hs : Inv s) (h : s.n ≠ 0) (detectPin : Bool) :
    Inv (hardwareEntry s detectPin) ∧ counts s detectPin = 0 ∧
      (hardwareEntry s detectPin).locked = s.locked - 1 := by
  have hflag : s.nFlag = 1 := hs.flag.resolve_right fun hf => h hf.2
  have hcounts : ¬ Counts s detectPin := fun hc => h hc.2
  have hbound := hs.bound
  have hlocked := (locked_pos hs h).1
  rw [hardwareEntry_of_not_counts hcounts]
  by_cases hlast : 50 ≤ s.n.toNat
  · rw [lockout_last hflag hlast]
    refine ⟨⟨Nat.zero_le _, Or.inr ⟨rfl, rfl⟩⟩, if_neg hcounts, ?_⟩
    rw [locked_eq_zero rfl]
    omega
  · have hsucc := byte_succ (b := s.n) (by omega)
    rw [lockout_next hflag hlast]
    have hinv : Inv { s with n := s.n + 1 } := ⟨by rw [hsucc]; omega, Or.inl hflag⟩
    have hne : s.n + 1 ≠ 0 := by
      intro hzero
      rw [hzero] at hsucc
      exact Nat.succ_ne_zero _ hsucc.symm
    refine ⟨hinv, if_neg hcounts, ?_⟩
    rw [(locked_pos hinv hne).1, hlocked, hsucc, Nat.sub_sub]

/-- Unlocked the iteration counts what it sees, and is then locked. -/
theorem step_count {s : Counter} (h : s.n = 0) :
    Inv (hardwareEntry s true) ∧ counts s true = 1 ∧ (hardwareEntry s true).locked = 50 := by
  obtain ⟨hn, hflag⟩ := hardwareEntry_count h
  refine ⟨⟨?_, Or.inl hflag⟩, if_pos ⟨rfl, h⟩, ?_⟩
  · rw [hn]
    decide
  · rw [Counter.locked, hn]
    rfl

/-- A low sample does not count; only in the first iteration does it lock. -/
theorem inv_idle {s : Counter} (hs : Inv s) (h : s.n = 0) : Inv (hardwareEntry s false) := by
  rw [hardwareEntry_of_not_counts fun hc => Bool.false_ne_true hc.1]
  rcases hs.flag with hflag | hflag
  · rw [lockout_next hflag (by rw [h]; decide), h]
    exact ⟨show ((0 : Byte) + 1).toNat ≤ 50 by decide, Or.inl hflag⟩
  · rw [lockout, if_neg (by rw [hflag.1]; decide)]
    exact hs

theorem inv_step (s : Counter) (detectPin : Bool) (hs : Inv s) :
    Inv (hardwareEntry s detectPin) := by
  by_cases h : s.n = 0
  · cases detectPin with
    | true => exact (step_count h).1
    | false => exact inv_idle hs h
  · exact (step_locked hs h detectPin).1

theorem inv_run {s : Counter} (hs : Inv s) (samples : List Bool) :
    Inv (run hardwareEntry s samples) :=
  run_invariant hardwareEntry inv_step hs samples

theorem counts_low (s : Counter) : counts s false = 0 := if_neg fun h => Bool.false_ne_true h.1

theorem peopleNumber_step (s : Counter) (detectPin : Bool) :
    (hardwareEntry s detectPin).peopleNumber.toNat =
      (s.peopleNumber.toNat + counts s detectPin) % 256 := by
  have hlockout (s : Counter) : (lockout s).peopleNumber = s.peopleNumber := by
    unfold lockout
    split_ifs <;> rfl
  unfold hardwareEntry
  rw [hlockout, countPeople, counts]
  split_ifs with h
  · exact BitVec.toNat_add _ _
  · exact (Nat.mod_eq_of_lt s.peopleNumber.isLt).symm

/-- `people_number` is the number of counts, read in a byte. -/
theorem peopleNumber_run (s : Counter) (samples : List Bool) :
    (run hardwareEntry s samples).peopleNumber.toNat =
      (s.peopleNumber.toNat + total hardwareEntry counts s samples) % 256 := by
  induction samples generalizing s with
  | nil => exact (Nat.mod_eq_of_lt s.peopleNumber.isLt).symm
  | cons b samples ih => rw [run_cons, ih, peopleNumber_step, total, Nat.mod_add_mod, Nat.add_assoc]

/-! ### Presences of any length -/

/-- A presence counts when the lockout it meets has run off, and then every 51
iterations: the induction is on its length, for every phase of the lockout. -/
theorem total_high {s : Counter} (hs : Inv s) (L : ℕ) :
    total hardwareEntry counts s (List.replicate L true) = (L - s.locked + 50) / 51 := by
  induction L generalizing s with
  | zero => simp [total]
  | succ L ih =>
      rw [List.replicate_succ, total]
      by_cases h : s.n = 0
      · obtain ⟨hinv, hone, hlocked⟩ := step_count h
        rw [ih hinv, hone, hlocked, locked_eq_zero h]
        omega
      · obtain ⟨hinv, hzero, hlocked⟩ := step_locked hs h true
        have hpos := (locked_pos hs h).2
        rw [ih hinv, hzero, hlocked]
        omega

/-- Lengths of the maximal runs of `HIGH` samples. -/
def highRuns (samples : List Bool) : List ℕ :=
  ((samples.splitOn false).map List.length).filter (0 < ·)

theorem highRuns_replicate (L : ℕ) : highRuns (List.replicate L true) = [L].filter (0 < ·) := by
  have hsplit : (List.replicate L true).splitOn false = [List.replicate L true] := by
    apply List.splitOn_eq_singleton
    simp
  rw [highRuns, hsplit, List.map_singleton, List.length_replicate]

theorem highRuns_append_low (xs rest : List Bool) :
    highRuns (xs ++ false :: rest) = highRuns xs ++ highRuns rest := by
  simp only [highRuns, List.splitOn_append_cons_self, List.map_append, List.filter_append]

theorem eq_replicate_or_low (samples : List Bool) :
    ∃ L, samples = List.replicate L true ∨
      ∃ rest, samples = List.replicate L true ++ false :: rest := by
  induction samples with
  | nil => exact ⟨0, Or.inl rfl⟩
  | cons b samples ih =>
      cases b with
      | false => exact ⟨0, Or.inr ⟨samples, rfl⟩⟩
      | true =>
          obtain ⟨L, h | ⟨rest, h⟩⟩ := ih
          · exact ⟨L + 1, Or.inl (by rw [h]; rfl)⟩
          · exact ⟨L + 1, Or.inr ⟨rest, by rw [h]; rfl⟩⟩

/-- A bound on the counts of every presence bounds the counts of a whole run. -/
theorem total_le_sum_highRuns {s : Counter} (hs : Inv s) (samples : List Bool) :
    total hardwareEntry counts s samples ≤
      ((highRuns samples).map fun L => (L + 50) / 51).sum := by
  have hhigh {s : Counter} (hs : Inv s) (L : ℕ) :
      total hardwareEntry counts s (List.replicate L true) ≤
        ((highRuns (List.replicate L true)).map fun L => (L + 50) / 51).sum := by
    rw [total_high hs, highRuns_replicate]
    by_cases hL : 0 < L
    · simp only [List.filter_cons, hL, decide_true, if_true, List.filter_nil, List.map_singleton,
        List.sum_singleton]
      omega
    · have hzero : L = 0 := by omega
      simp [hzero]
  induction hlen : samples.length using Nat.strongRecOn generalizing s samples with
  | ind len ih =>
      obtain ⟨L, h | ⟨rest, h⟩⟩ := eq_replicate_or_low samples
      · rw [h]
        exact hhigh hs L
      · have hrest : rest.length < len := by
          rw [← hlen, h, List.length_append, List.length_cons]
          omega
        have hinv := inv_run hs (List.replicate L true)
        have htail := ih rest.length hrest (inv_step _ false hinv) rest rfl
        have hhead := hhigh hs L
        rw [h, total_append, total, counts_low, highRuns_append_low, List.map_append,
          List.sum_append]
        omega

/-- How far an iteration advances `people_number`; summed over a run, `people_number` as an
unbounded count. -/
def advance (s : Counter) (detectPin : Bool) : ℕ :=
  ((hardwareEntry s detectPin).peopleNumber - s.peopleNumber).toNat

theorem advance_eq_counts (s : Counter) (detectPin : Bool) :
    advance s detectPin = counts s detectPin := by
  have hstep := peopleNumber_step s detectPin
  have hbound := s.peopleNumber.isLt
  have hle : counts s detectPin ≤ 1 := by
    unfold counts
    split_ifs <;> decide
  rw [advance, BitVec.toNat_sub, hstep]
  omega

theorem total_advance (s : Counter) (samples : List Bool) :
    total hardwareEntry advance s samples = total hardwareEntry counts s samples := by
  have hsame : advance = counts := funext fun s => funext fun b => advance_eq_counts s b
  rw [hsame]

/-- Every presence of `L` iterations advances `people_number` once for every 51 of them that
come after the lockout it meets, so its count stays below the sum over all presences. The
variable itself is that count in a byte. -/
theorem presence_counts (samples : List Bool) :
    (∀ before L,
      total hardwareEntry advance (run hardwareEntry Counter.boot before) (List.replicate L true) =
        (L - (run hardwareEntry Counter.boot before).locked + 50) / 51 ∧
      total hardwareEntry advance (run hardwareEntry Counter.boot before) (List.replicate L true) ≤
        (L + 50) / 51 ∧
      (run hardwareEntry Counter.boot (before ++ List.replicate L true)).peopleNumber.toNat =
        ((run hardwareEntry Counter.boot before).peopleNumber.toNat +
          (L - (run hardwareEntry Counter.boot before).locked + 50) / 51) % 256) ∧
    total hardwareEntry advance Counter.boot samples ≤
      ((highRuns samples).map fun L => (L + 50) / 51).sum ∧
    (run hardwareEntry Counter.boot samples).peopleNumber.toNat =
      total hardwareEntry advance Counter.boot samples % 256 := by
  refine ⟨fun before L => ?_, ?_, ?_⟩
  · have hcounts := total_high (inv_run inv_boot before) L
    rw [total_advance, run_append, peopleNumber_run, hcounts]
    exact ⟨rfl, Nat.div_le_div_right (Nat.add_le_add_right (Nat.sub_le _ _) 50), rfl⟩
  · rw [total_advance]
    exact total_le_sum_highRuns inv_boot samples
  · rw [total_advance, peopleNumber_run]
    exact congrArg (· % 256) (Nat.zero_add _)

/-- One presence of 52 iterations is counted twice. -/
theorem long_presence_counted_twice :
    highRuns (List.replicate 52 true) = [52] ∧
      (run hardwareEntry Counter.boot (List.replicate 52 true)).peopleNumber = 2 ∧
      ¬ ∀ samples, total hardwareEntry advance Counter.boot samples ≤
        (highRuns samples).length := by
  have hruns : highRuns (List.replicate 52 true) = [52] := highRuns_replicate 52
  have htwice := total_high inv_boot 52
  rw [locked_eq_zero rfl] at htwice
  refine ⟨hruns, ?_, fun h => ?_⟩
  · apply BitVec.eq_of_toNat_eq
    rw [peopleNumber_run, htwice]
    rfl
  · have hle := h (List.replicate 52 true)
    rw [hruns, total_advance, htwice] at hle
    exact absurd hle (by decide)

/-! ### The rule on the history of counts -/

/-- The iterations before `t` that count, newest first: a sample is `HIGH`, the
start-up lockout is over or has not begun, and none of the fifty iterations
before counted. -/
def chosen (samples : ℕ → Bool) : ℕ → List ℕ
  | 0 => []
  | t + 1 =>
      if samples t = true ∧ (t = 0 ∨ 51 ≤ t) ∧ ¬ ∃ u ∈ chosen samples t, t ≤ u + 50 then
        t :: chosen samples t
      else chosen samples t

/-- The counter before iteration `t`. -/
def counterAt (samples : ℕ → Bool) (t : ℕ) : Counter :=
  run hardwareEntry Counter.boot ((List.range t).map samples)

theorem counterAt_succ (samples : ℕ → Bool) (t : ℕ) :
    counterAt samples (t + 1) = hardwareEntry (counterAt samples t) (samples t) := by
  rw [counterAt, List.range_succ, List.map_append, List.map_singleton, run_concat]
  rfl

/-- Before iteration `t` the latest lockout began with the newest of the `marks`,
or with the thread. -/
structure Tracks (marks : List ℕ) (t : ℕ) (s : Counter) : Prop where
  people : s.peopleNumber.toNat = marks.length % 256
  newest : ∀ u ∈ marks, u ≤ marks.headD 0
  past : ∀ u ∈ marks, u < t
  n : s.n.toNat = if t ≤ marks.headD 0 + 50 then t - marks.headD 0 else 0
  flag : s.nFlag = if t ≤ marks.headD 0 + 50 then 1 else 0

theorem tracks_boot : Tracks [] 0 Counter.boot :=
  ⟨rfl, fun _ h => (List.not_mem_nil h).elim, fun _ h => (List.not_mem_nil h).elim, rfl, rfl⟩

theorem Tracks.headD_lt {marks : List ℕ} {t : ℕ} {s : Counter} (h : Tracks marks t s)
    (ht : 0 < t) : marks.headD 0 < t := by
  cases marks with
  | nil => exact ht
  | cons u marks => exact h.past u List.mem_cons_self

/-- The counter is free exactly when the rule allows a count. -/
theorem Tracks.free_iff {marks : List ℕ} {t : ℕ} {s : Counter} (h : Tracks marks t s) :
    s.n = 0 ↔ (t = 0 ∨ 51 ≤ t) ∧ ¬ ∃ u ∈ marks, t ≤ u + 50 := by
  have hzero : s.n = 0 ↔ s.n.toNat = 0 := by
    rw [← BitVec.toNat_inj]
    rfl
  rw [hzero, h.n]
  constructor
  · intro hn
    rcases Nat.eq_zero_or_pos t with ht | ht
    · subst ht
      exact ⟨Or.inl rfl, fun ⟨u, hu, _⟩ => absurd (h.past u hu) (Nat.not_lt_zero u)⟩
    · have hlt := h.headD_lt ht
      have hover : ¬ t ≤ marks.headD 0 + 50 := by
        intro hin
        rw [if_pos hin] at hn
        omega
      refine ⟨Or.inr (by omega), fun ⟨u, hu, hin⟩ => ?_⟩
      have := h.newest u hu
      omega
  · intro ⟨hstart, hnone⟩
    cases marks with
    | nil =>
        rcases hstart with ht | ht
        · simp [ht]
        · rw [if_neg]
          change ¬ t ≤ 0 + 50
          omega
    | cons u marks => exact if_neg fun hin => hnone ⟨u, List.mem_cons_self, hin⟩

theorem Tracks.headD_le {marks : List ℕ} {t : ℕ} {s : Counter} (h : Tracks marks t s) :
    marks.headD 0 ≤ t := by
  cases marks with
  | nil => exact Nat.zero_le t
  | cons u marks => exact Nat.le_of_lt (h.past u List.mem_cons_self)

/-- A count opens a new window. -/
theorem Tracks.count {marks : List ℕ} {t : ℕ} {s : Counter} (h : Tracks marks t s)
    (hfree : s.n = 0) : Tracks (t :: marks) (t + 1) (hardwareEntry s true) := by
  obtain ⟨hn, hflag⟩ := hardwareEntry_count hfree
  have hin : t + 1 ≤ (t :: marks).headD 0 + 50 := by
    change t + 1 ≤ t + 50
    omega
  refine ⟨?_, ?_, ?_, ?_, ?_⟩
  · rw [peopleNumber_step, h.people, counts, if_pos ⟨rfl, hfree⟩, Nat.mod_add_mod,
      List.length_cons]
  · intro u hu
    rcases List.mem_cons.mp hu with heq | hold
    · exact Nat.le_of_eq heq
    · exact Nat.le_of_lt (h.past u hold)
  · intro u hu
    rcases List.mem_cons.mp hu with heq | hold
    · exact heq ▸ Nat.lt_succ_self t
    · exact Nat.lt_succ_of_lt (h.past u hold)
  · rw [hn, if_pos hin]
    exact (Nat.add_sub_cancel_left t 1).symm
  · rw [hflag, if_pos hin]

/-- Otherwise the window runs on, closes with its fiftieth iteration, or is closed. -/
theorem Tracks.wait {marks : List ℕ} {t : ℕ} {s : Counter} (h : Tracks marks t s)
    {detectPin : Bool} (hcounts : ¬ Counts s detectPin) :
    Tracks marks (t + 1) (hardwareEntry s detectPin) := by
  have hle := h.headD_le
  have hn := h.n
  have hflag := h.flag
  have hpeople : (hardwareEntry s detectPin).peopleNumber.toNat = marks.length % 256 := by
    rw [peopleNumber_step, h.people, counts, if_neg hcounts, Nat.add_zero, Nat.mod_mod]
  have hpast : ∀ u ∈ marks, u < t + 1 := fun u hu => Nat.lt_succ_of_lt (h.past u hu)
  rw [hardwareEntry_of_not_counts hcounts] at hpeople ⊢
  by_cases hin : t ≤ marks.headD 0 + 50
  · rw [if_pos hin] at hn hflag
    by_cases hlast : 50 ≤ s.n.toNat
    · have hout : ¬ t + 1 ≤ marks.headD 0 + 50 := by omega
      have hend := lockout_last hflag hlast
      rw [hend] at hpeople ⊢
      exact ⟨hpeople, h.newest, hpast, (if_neg hout).symm, (if_neg hout).symm⟩
    · have hin' : t + 1 ≤ marks.headD 0 + 50 := by omega
      have hnext := lockout_next hflag hlast
      have hsucc : (s.n + 1).toNat = t + 1 - marks.headD 0 := by
        rw [byte_succ (by omega), hn]
        omega
      rw [hnext] at hpeople ⊢
      exact ⟨hpeople, h.newest, hpast, by rw [if_pos hin', hsucc], by rw [if_pos hin', hflag]⟩
  · have hout : ¬ t + 1 ≤ marks.headD 0 + 50 := by omega
    rw [if_neg hin] at hn hflag
    have hstay : lockout s = s := if_neg (by rw [hflag]; decide)
    rw [hstay] at hpeople ⊢
    exact ⟨hpeople, h.newest, hpast, by rw [if_neg hout, hn], by rw [if_neg hout, hflag]⟩

theorem tracks_counterAt (samples : ℕ → Bool) (t : ℕ) :
    Tracks (chosen samples t) t (counterAt samples t) := by
  induction t with
  | zero => exact tracks_boot
  | succ t ih =>
      have hcounts : Counts (counterAt samples t) (samples t) ↔
          samples t = true ∧ (t = 0 ∨ 51 ≤ t) ∧ ¬ ∃ u ∈ chosen samples t, t ≤ u + 50 := by
        rw [Counts, ih.free_iff]
      rw [counterAt_succ, chosen]
      by_cases hc : Counts (counterAt samples t) (samples t)
      · have hhigh : samples t = true := hc.1
        rw [if_pos (hcounts.mp hc), hhigh]
        exact ih.count hc.2
      · rw [if_neg (mt hcounts.mpr hc)]
        exact ih.wait hc

/-- After every number of iterations the counter shows how many of them the rule
chose, and outside a window it is ready to count. -/
theorem counterAt_refines_chosen (samples : ℕ → Bool) (t : ℕ) :
    (counterAt samples t).peopleNumber.toNat = (chosen samples t).length % 256 ∧
      (counterAt samples t).n.toNat ≤ 50 ∧
      ((counterAt samples t).nFlag = 0 → (counterAt samples t).n = 0) := by
  have hinv : Inv (counterAt samples t) := inv_run inv_boot _
  refine ⟨(tracks_counterAt samples t).people, hinv.bound, fun hflag => ?_⟩
  rcases hinv.flag with hset | hclear
  · exact absurd (hset.symm.trans hflag) (by decide)
  · exact hclear.2

end ExpertCar.PeopleCounter
