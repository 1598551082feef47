import ExpertCar.KernelSlices
import Mathlib.Algebra.Order.BigOperators.Group.List
import Mathlib.Algebra.Order.Ring.Nat
import Mathlib.Data.List.TakeWhile

/-!
# Round robin

A ready thread runs before more clock interrupts come than there are ticks left to the
current thread and to those queued before it, unless a thread of higher priority
wakes. The threads of the car of the highest priority in the application wait ten ticks
at most.
-/
namespace ExpertCar.Kernel
open PriorityBuckets TickOrder State
variable {ι : Type*} [DecidableEq ι] {now : BitVec 32} {t : ι} {s s' : State ι} {label : Label ι}

theorem tick_waiting (hinv : Ordered s) (hwaiting : Waiting t s) (h : step s .tick = some s') :
    Served t s' ∨ Waiting t s' ∧ s'.wait t < s.wait t := by
  obtain ⟨c, hc, -⟩ := hinv.running.current
  obtain ⟨s₁, s₂, hs₂, hsliced, -, -, hwoken, -⟩ := rtTickIncrease_spec hinv hc
  obtain rfl := Option.some_inj.mp (hs₂.symm.trans h)
  have hclock : Move .clock s _ := .clock
  obtain ⟨hwaiting₀, hwait₀⟩ := hclock.waiting (by simp [Label.Quiet]) hinv hwaiting
    hwaiting.highest
  have hsliced' := hsliced.waiting (hclock.inv hinv (by simp)) hwaiting₀ hc
  rw [hwait₀] at hsliced'
  clear hs₂ h
  induction hwoken with
  | refl => exact hsliced'
  | tail _ hstep ih =>
      rcases ih with hserved | ⟨hwaiting₁, hwait₁⟩
      · exact Or.inl (hserved.woken hstep)
      · rcases hstep.waiting hwaiting₁ with hserved | ⟨hwaiting₂, hwait₂⟩
        · exact Or.inl hserved
        · exact Or.inr ⟨hwaiting₂, by omega⟩

/-- Calls and interrupts but for those that lock the scheduler. -/
def Action.Unlocked (a : Action ι) : Prop := a ≠ .enterCritical ∧ a ≠ .exitCritical

/-- The labels of the moves by which the current thread leaves the ready threads. -/
def Label.Own (label : Label ι) : Prop :=
  label = .adjust ∨ ∃ u, label = .suspend u ∨ label = .arm u ∨ label = .close u

omit [DecidableEq ι] in
theorem Label.Own.quiet (h : label.Own) : label.Quiet := by
  rcases h with rfl | ⟨u, rfl | rfl | rfl⟩ <;> simp [Label.Quiet]

/-- The moves by which the current thread leaves the ready threads wake nobody. -/
theorem Move.highest (h : Move label s s') (hrunning : Running s) (hlabel : label.Own)
    (hwaiting : Waiting t s) (u : ι) (hu : (s'.thread u).Awake) :
    (s'.thread t).currentPriority ≤ (s'.thread u).currentPriority := by
  rw [h.currentPriority hrunning, h.currentPriority hrunning]
  refine hwaiting.highest u ?_
  by_cases habout : label.about = some u
  · have hnot : ¬ ((s'.thread u).stat = .suspend ∨ (s'.thread u).stat = .close) := by
      rintro (hstat | hstat)
      · rw [Thread.Awake, hstat] at hu
        exact absurd hu (by decide)
      · rw [Thread.Awake, hstat] at hu
        exact absurd hu (by decide)
    refine absurd ?_ hnot
    cases h with
    | @suspend s v =>
        obtain rfl := Option.some_inj.mp habout
        rw [setStat, setThread_thread_self]
        exact Or.inl rfl
    | @arm s v tick hc hstat =>
        obtain rfl := Option.some_inj.mp habout
        rw [rtTimerStart_thread_self, setThread_thread_self]
        exact Or.inl hstat
    | @close s v =>
        obtain rfl := Option.some_inj.mp habout
        rw [setThread_thread_self]
        exact Or.inr rfl
    | _ => simp [Label.Own, Label.about] at hlabel habout
  · obtain ⟨hstat, -⟩ := h.still hlabel.quiet habout
    rw [Thread.Awake, ← hstat]
    exact hu

/-- The labels of the moves that make a suspended or new thread ready. -/
def Label.Wakes (label : Label ι) : Prop := ∃ u, label = .resume u ∨ label = .start u

omit [DecidableEq ι] in
theorem Label.Wakes.quiet (h : label.Wakes) : label.Quiet := by
  rcases h with ⟨u, rfl | rfl⟩ <;> simp [Label.Quiet]

/-- A call by which the current thread leaves the ready threads lets the others wait as
before. -/
theorem Moves.waiting_own {allowed : Label ι → Prop} (hmoves : Moves allowed s s')
    (hown : ∀ label, allowed label → label.Own) (hwaiting : Waiting t s) :
    Waiting t s' ∧ s'.wait t = s.wait t := by
  refine hmoves.keeps (P := fun s' => Waiting t s' ∧ s'.wait t = s.wait t) ?_ ⟨hwaiting, rfl⟩
  rintro label s₁ s₂ hallowed ⟨now, hinv⟩ hmove ⟨hwaiting, hwait⟩
  have hlabel := hown label hallowed
  obtain ⟨hwaiting', hwait'⟩ := hmove.waiting hlabel.quiet hinv hwaiting
    (hmove.highest hinv.running hlabel hwaiting)
  exact ⟨hwaiting', hwait'.trans hwait⟩

/-- A call that makes another thread ready serves the ready thread or lets it wait as before. -/
theorem Moves.waiting_wakes {allowed : Label ι → Prop} (hmoves : Moves allowed s s')
    (hwakes : ∀ label, allowed label → label.Wakes) (hwaiting : Waiting t s) :
    Served t s' ∨ Waiting t s' ∧ s'.wait t = s.wait t := by
  refine hmoves.keeps (P := fun s' => Served t s' ∨ Waiting t s' ∧ s'.wait t = s.wait t) ?_
    (Or.inr ⟨hwaiting, rfl⟩)
  rintro label s₁ s₂ hallowed ⟨now, hinv⟩ hmove hP
  have hlabel := hwakes label hallowed
  have habout (u : ι) (hu : (s₁.thread u).Awake) : label.about ≠ some u := by
    intro habout
    obtain ⟨v, rfl | rfl⟩ := hlabel <;>
      obtain h | h := (hmove.about_awake hinv habout hu).2 <;> cases h
  rcases hP with hserved | ⟨hwaiting, hwait⟩
  · exact Or.inl (hserved.wakes hmove hlabel.quiet hinv.running habout)
  · rcases hmove.served_or_waiting hlabel.quiet hinv hwaiting with hserved | ⟨hwaiting', hwait'⟩
    · exact Or.inl hserved
    · exact Or.inr ⟨hwaiting', hwait'.trans hwait⟩

theorem yield_waiting (hinv : Ordered s) (hwaiting : Waiting t s) (h : step s .yield = some s') :
    Served t s' ∨ Waiting t s' ∧ s'.wait t ≤ s.wait t := by
  obtain ⟨c, hc, -⟩ := hinv.running.current
  have hinv₁ := (Move.refill hc).inv hinv (by simp)
  obtain ⟨s₁, hs₁, hscheduled⟩ := rtSchedule_spec hinv₁.table hinv₁.running
  have hyield : step s .yield = some s₁ := by
    rw [step, rtThreadYield, hc]
    exact hs₁
  obtain rfl := Option.some_inj.mp (hyield.symm.trans h)
  rcases refilled_waiting hscheduled hinv hwaiting hc with hserved | ⟨hwaiting', hwait⟩
  · exact Or.inl hserved
  · refine Or.inr ⟨hwaiting', ?_⟩
    rw [hwait, State.wait]
    exact Nat.le_add_left _ _

theorem schedule_waiting (hinv : Ordered s) (hwaiting : Waiting t s)
    (h : step s .schedule = some s') :
    Served t s' ∨ Waiting t s' ∧ s'.wait t ≤ s.wait t := by
  obtain ⟨s₁, hs₁, hscheduled⟩ := rtSchedule_spec hinv.table hinv.running
  obtain rfl := Option.some_inj.mp (hs₁.symm.trans h)
  exact Scheduled.waiting hscheduled hinv hwaiting

/-- A step serves a ready thread or leaves it waiting, with a tick less to wait if it is a
clock interrupt. -/
theorem step_waiting (hinv : Ordered s) {a : Action ι} (ha : Admissible s a) (hlock : a.Unlocked)
    (hwaiting : Waiting t s) (h : step s a = some s') :
    Served t s' ∨ Waiting t s' ∧ s'.wait t + (if a.isTick then 1 else 0) ≤ s.wait t := by
  obtain ⟨s₁, hs₁, -, hmoves⟩ := step_moves hinv ha
  obtain rfl := Option.some_inj.mp (hs₁.symm.trans h)
  have hown (hlabels : ∀ label, a.Allows label → label.Own) (htick : a.isTick = false) :
      Served t s₁ ∨ Waiting t s₁ ∧ s₁.wait t + (if a.isTick then 1 else 0) ≤ s.wait t := by
    obtain ⟨hwaiting', hwait⟩ := hmoves.waiting_own hlabels hwaiting
    rw [htick]
    exact Or.inr ⟨hwaiting', hwait.le⟩
  have hwakes (hlabels : ∀ label, a.Allows label → label.Wakes) (htick : a.isTick = false) :
      Served t s₁ ∨ Waiting t s₁ ∧ s₁.wait t + (if a.isTick then 1 else 0) ≤ s.wait t := by
    rw [htick]
    exact (hmoves.waiting_wakes hlabels hwaiting).imp_right fun h => ⟨h.1, h.2.le⟩
  cases a with
  | tick =>
      rcases tick_waiting hinv hwaiting h with hserved | ⟨hwaiting', hwait⟩
      · exact Or.inl hserved
      · exact Or.inr ⟨hwaiting', hwait⟩
  | schedule => exact schedule_waiting hinv hwaiting h
  | yield => exact yield_waiting hinv hwaiting h
  | sleep tick =>
      refine hown (fun label hlabel => ?_) rfl
      rcases hlabel with rfl | ⟨u, rfl | rfl⟩
      · exact Or.inl rfl
      · exact Or.inr ⟨u, Or.inl rfl⟩
      · exact Or.inr ⟨u, Or.inr (Or.inl rfl)⟩
  | sleepReturn => exact hown (fun label hlabel => Or.inl hlabel) rfl
  | suspend => exact hown (fun label ⟨u, hlabel⟩ => Or.inr ⟨u, Or.inl hlabel⟩) rfl
  | exit => exact hown (fun label ⟨u, hlabel⟩ => Or.inr ⟨u, Or.inr (Or.inr hlabel)⟩) rfl
  | resume u => exact hwakes (fun label hlabel => ⟨u, Or.inl hlabel⟩) rfl
  | startup u => exact hwakes (fun label hlabel => ⟨u, Or.inr hlabel⟩) rfl
  | enterCritical => exact absurd rfl hlock.1
  | exitCritical => exact absurd rfl hlock.2

/-- Round robin: a ready thread without a yield flag of an earlier slice runs before more clock
interrupts come than there are ticks left to the current thread and to those queued before
it, whatever calls come but those that lock the scheduler, unless a thread of higher priority
wakes first. -/
theorem run_served {as : List (Action ι)} (hinv : Ordered s) (hlegal : Legal s as)
    (hlock : ∀ a ∈ as, a.Unlocked) (hwaiting : Waiting t s)
    (hticks : s.wait t ≤ as.countP Action.isTick) :
    ∃ pre post s', as = pre ++ post ∧ run s pre = some s' ∧ Ordered s' ∧ Served t s' := by
  induction as generalizing s with
  | nil =>
      -- The current thread has a tick left at least.
      obtain ⟨c, hc, -⟩ := hinv.running.current
      have hpos : (s.thread c).remainingTick.toNat ≠ 0 := toNat_ne_zero.mp (hwaiting.slices c).2
      rw [State.wait, hc, Option.elim_some, List.countP_nil] at hticks
      omega
  | cons a as ih =>
      obtain ⟨s₁, hs₁, hinv₁, -⟩ := step_moves hinv hlegal.1
      rcases step_waiting hinv hlegal.1 (hlock a List.mem_cons_self) hwaiting hs₁ with
        hserved | ⟨hwaiting₁, hwait₁⟩
      · exact ⟨[a], as, s₁, rfl, by rw [run_cons hs₁, run_nil], hinv₁, hserved⟩
      · rw [List.countP_cons] at hticks
        obtain ⟨pre, post, s', rfl, hs', hinv', hserved⟩ := ih hinv₁ (hlegal.2 s₁ hs₁)
          (fun b hb => hlock b (List.mem_cons_of_mem a hb)) hwaiting₁ (by omega)
        exact ⟨a :: pre, post, s', rfl, by rw [run_cons hs₁, hs'], hinv', hserved⟩

theorem carThread_initTick (t : CarThread) : (carThread t).initTick ≠ 0 := by
  cases t <;> decide

/-- The car starts with whole slices. -/
theorem carThread_slices {s : State CarThread} {first : CarThread} {threads : List CarThread}
    (h : ∀ t, s.thread t = if t = first then { (carThread t).started with stat := .running }
      else if t ∈ threads then (carThread t).started else carThread t) : Slices carThread s := by
  intro u
  have hwhole : (carThread u).remainingTick ≠ 0 ∧
      (carThread u).remainingTick ≤ (carThread u).initTick := by
    cases u <;> decide
  rw [h]
  split_ifs <;> exact ⟨rfl, hwhole⟩

theorem legal_ticks (n : ℕ) (s : State ι) : Legal s (List.replicate n .tick) := by
  induction n generalizing s with
  | zero => trivial
  | succ n ih => exact ⟨trivial, fun s' _ => ih s'⟩

/-- Of two threads of one priority that start together, the one that is not first. -/
theorem run_served_car : ∃ s t pre s', rtthreadStartup carThread [.aht10, .main] = some s ∧
    (s.thread t).stat = .ready ∧ run s pre = some s' ∧ Served t s' := by
  obtain ⟨s, first, hs, hinv, hmem, hcurrent, -, hlock, -, hthread⟩ :=
    carThread_startup [.aht10, .main] (by decide) (by decide)
  have hslices := carThread_slices hthread
  obtain ⟨t, ht, htf⟩ : ∃ t ∈ [CarThread.aht10, .main], t ≠ first := by
    rcases List.mem_pair.mp hmem with rfl | rfl
    · exact ⟨.main, by decide, by decide⟩
    · exact ⟨.aht10, by decide, by decide⟩
  have hself : s.thread t = (carThread t).started := by rw [hthread, if_neg htf, if_pos ht]
  have hpriority (u : CarThread) (hu : u ∈ [CarThread.aht10, .main]) :
      (s.thread u).currentPriority = 10 := by
    rw [hthread]
    rcases List.mem_pair.mp hu with rfl | rfl <;> split_ifs <;> rfl
  have hwaiting : Waiting t s := by
    refine ⟨by rw [hself]; rfl, by rw [hself]; rfl, hlock, fun u => ?_, fun u hu => ?_⟩
    · rw [(hslices u).1]
      exact ⟨carThread_initTick u, (hslices u).2.1⟩
    · have hmem' : u ∈ [CarThread.aht10, .main] := by
        by_contra hnot
        have hne : u ≠ first := fun h => hnot (h ▸ hmem)
        rw [hthread, if_neg hne, if_neg hnot] at hu
        revert hu
        cases u <;> decide
      rw [hpriority t ht, hpriority u hmem']
  obtain ⟨pre, -, s', -, hs', -, hserved⟩ := run_served hinv (legal_ticks (s.wait t) s)
    (fun a ha => by simp [List.eq_of_mem_replicate ha, Action.Unlocked]) hwaiting
    (by rw [List.countP_replicate]; rfl)
  exact ⟨s, t, pre, s', hs, hwaiting.ready, hs', hserved⟩

/-! ### The threads of the car -/

theorem Moves.currentPriority {allowed : Label ι → Prop} (h : Moves allowed s s') (u : ι) :
    (s'.thread u).currentPriority = (s.thread u).currentPriority := by
  induction h with
  | refl => rfl
  | tail _ hstep ih =>
      obtain ⟨label, -, ⟨now, hinv⟩, hmove⟩ := hstep
      exact (hmove.currentPriority hinv.running u).trans ih

/-- In every state the kernel of the car comes to, the threads have the priorities and slices
they were created with. -/
theorem car_run {threads : List CarThread} (hne : threads ≠ []) (hnodup : threads.Nodup)
    {as : List (Action CarThread)} {s s' : State CarThread}
    (hs : rtthreadStartup carThread threads = some s) (hlegal : Legal s as)
    (hrun : run s as = some s') : Ordered s' ∧ Slices carThread s' ∧
      ∀ u, (s'.thread u).currentPriority = (carThread u).currentPriority := by
  obtain ⟨s₀, first, hs₀, hinv, -, -, -, -, -, hthread⟩ := carThread_startup threads hne hnodup
  obtain rfl := Option.some_inj.mp (hs₀.symm.trans hs)
  have hpriority (u : CarThread) :
      (s₀.thread u).currentPriority = (carThread u).currentPriority := by
    rw [hthread]
    split_ifs <;> rfl
  have hstep {s s' : State CarThread} {a : Action CarThread} (hinv : Ordered s)
      (hP : Slices carThread s ∧
        ∀ u, (s.thread u).currentPriority = (carThread u).currentPriority)
      (ha : Admissible s a) (hs : step s a = some s') (hmoves : Moves a.Allows s s') :
      Slices carThread s' ∧
        ∀ u, (s'.thread u).currentPriority = (carThread u).currentPriority := by
    refine ⟨step_slices carThread_initTick hinv ha hP.1 hs, fun u => ?_⟩
    rw [Moves.currentPriority hmoves]
    exact hP.2 u
  obtain ⟨s₁, hs₁, hinv₁, hP⟩ := run_invariant hstep hinv hlegal hlegal
    ⟨carThread_slices hthread, hpriority⟩
  obtain rfl := Option.some_inj.mp (hs₁.symm.trans hrun)
  exact ⟨hinv₁, hP⟩

/-- The threads of the application of the highest priority: nothing but the timer thread
comes before them. -/
def urgent : List CarThread := [.dht11, .hardware, .key]

theorem urgent_of_priority {u : CarThread}
    (h : (carThread u).currentPriority ≤ (carThread .key).currentPriority)
    (hu : u ≠ .timer) : u ∈ urgent := by
  revert hu h
  cases u <;> decide

section Urgent
variable {s : State CarThread} {t : CarThread} (hinv : Ordered s) (hslices : Slices carThread s)
  (hpriority : ∀ u, (s.thread u).currentPriority = (carThread u).currentPriority)
  (ht : t ∈ urgent) (hready : (s.thread t).stat = .ready)
  (htimer : ¬ (s.thread .timer).Awake)
include hpriority ht

theorem urgent_priority {u : CarThread} (hu : u ∈ urgent) :
    (s.thread u).currentPriority = (s.thread t).currentPriority := by
  rw [hpriority, hpriority]
  revert hu ht
  cases u <;> cases t <;> decide

include htimer

/-- Who is awake and comes before an urgent thread, or in its queue, is urgent. -/
theorem urgent_of_awake {u : CarThread} (hu : (s.thread u).Awake)
    (hle : (s.thread u).currentPriority ≤ (s.thread t).currentPriority) : u ∈ urgent := by
  have hne : u ≠ .timer := fun h => htimer (h ▸ hu)
  refine urgent_of_priority ?_ hne
  rw [hpriority, hpriority] at hle
  refine le_trans hle ?_
  revert ht
  cases t <;> decide

include hinv hslices hready

/-- The ticks of two slices are all that can be left before an urgent thread. -/
theorem urgent_wait (hsettled : Settled s) : s.wait t ≤ 10 := by
  obtain ⟨c, hc, hrun, hbest⟩ := hsettled
  have hne : c ≠ t := by
    rintro rfl
    exact Stat.noConfusion (hready.symm.trans hrun)
  have hqueued (u : CarThread) (hu : u ∈ s.before t) :=
    (hinv.table.filed.mem _ u).mp ((List.takeWhile_sublist _).subset hu)
  have hmem : ∀ u ∈ c :: s.before t, u ∈ urgent.erase t := by
    intro u hu
    rw [List.Nodup.mem_erase_iff (by decide)]
    rcases List.mem_cons.mp hu with rfl | hu
    · exact ⟨hne, urgent_of_awake hpriority ht htimer (Or.inr hrun) (hbest t hready)⟩
    · have hut := List.mem_takeWhile_imp (p := fun u => decide (u ≠ t)) hu
      exact ⟨of_decide_eq_true hut, urgent_of_awake hpriority ht htimer (Or.inl (hqueued u hu).1)
        (le_of_eq (Fin.ext (hqueued u hu).2))⟩
  have hnodup : (c :: s.before t).Nodup := by
    refine List.nodup_cons.mpr ⟨fun hmem => ?_,
      (hinv.table.filed.nodup _).sublist (List.takeWhile_sublist _)⟩
    exact Stat.noConfusion ((hqueued c hmem).1.symm.trans hrun)
  have hlength : (c :: s.before t).length ≤ 2 := by
    have hle := (hnodup.subperm hmem).length_le
    rwa [List.length_erase_of_mem ht] at hle
  have hfive : ∀ n ∈ (c :: s.before t).map fun u => (s.thread u).remainingTick.toNat, n ≤ 5 := by
    intro n hn
    obtain ⟨u, hu, rfl⟩ := List.mem_map.mp hn
    have hslice : (carThread u).initTick = 5 := by
      have hu := List.mem_of_mem_erase (hmem u hu)
      revert hu
      cases u <;> decide
    have hle := (hslices u).2.2
    rw [hslice] at hle
    exact hle
  have hsum := List.sum_le_card_nsmul _ 5 hfive
  rw [List.length_map, nsmul_eq_mul, List.map_cons, List.sum_cons] at hsum
  rw [State.wait, hc, Option.elim_some, queued]
  exact hsum.trans (Nat.mul_le_mul_right 5 hlength)

end Urgent

/-- When the thread of the highest priority runs, a thread that is ready to read the humidity,
the beeper and the LEDs, or the keys, without a yield flag of an earlier slice, runs within ten
clock interrupts, whatever calls come but those that lock the scheduler, unless the timer
thread wakes. -/
theorem urgent_served {threads : List CarThread} (hne : threads ≠ []) (hnodup : threads.Nodup)
    {before as : List (Action CarThread)} {s₀ s : State CarThread}
    (hs₀ : rtthreadStartup carThread threads = some s₀) (hbefore : Legal s₀ before)
    (hrun : run s₀ before = some s) (hsettled : Settled s) (hunlocked : s.rtSchedulerLockNest = 0)
    {t : CarThread} (ht : t ∈ urgent) (hready : (s.thread t).stat = .ready)
    (hfresh : (s.thread t).yields = false) (htimer : ¬ (s.thread .timer).Awake)
    (hlegal : Legal s as) (hlock : ∀ a ∈ as, a.Unlocked) (hticks : 10 ≤ as.countP Action.isTick) :
    ∃ pre post s', as = pre ++ post ∧ run s pre = some s' ∧
      (s'.rtCurrentThread = some t ∧ (s'.thread t).stat = .running ∨ (s'.thread .timer).Awake) := by
  obtain ⟨hinv, hslices, hpriority⟩ := car_run hne hnodup hs₀ hbefore hrun
  have hwaiting : Waiting t s := by
    refine ⟨hready, hfresh, hunlocked, fun u => ?_, fun u hu => ?_⟩
    · rw [(hslices u).1]
      exact ⟨carThread_initTick u, (hslices u).2.1⟩
    · by_contra hlt
      rw [not_le] at hlt
      have hu' := urgent_of_awake hpriority ht htimer hu (le_of_lt hlt)
      rw [urgent_priority hpriority ht hu'] at hlt
      exact lt_irrefl _ hlt
  have hwait := urgent_wait hinv hslices hpriority ht hready htimer hsettled
  obtain ⟨pre, post, s', hsplit, hs', -, hserved⟩ :=
    run_served hinv hlegal hlock hwaiting (hwait.trans hticks)
  refine ⟨pre, post, s', hsplit, hs', ?_⟩
  rcases hserved.2 with ⟨hc, hrun, -⟩ | ⟨u, hu, hlt⟩
  · exact Or.inl ⟨hc, hrun⟩
  · -- Of all threads only that of the timers has a higher priority.
    have hlegal₁ : Legal s pre := (Along.append (hsplit ▸ hlegal)).1
    obtain ⟨s₁, hs₁, -, hpriority'⟩ := run_invariant
      (P := fun s => ∀ u, (s.thread u).currentPriority = (carThread u).currentPriority)
      (fun _ hP _ _ hmoves u => (Moves.currentPriority hmoves u).trans (hP u)) hinv hlegal₁ hlegal₁
      hpriority
    obtain rfl := Option.some_inj.mp (hs₁.symm.trans hs')
    rw [hpriority', hpriority'] at hlt
    have htimer : u = .timer := by
      revert ht hlt
      cases t <;> cases u <;> decide
    exact Or.inr (htimer ▸ hu)

/-- Of the threads for the beeper and the keys, started together, the one that is not first. -/
theorem urgent_served_car : ∃ s t pre s', rtthreadStartup carThread [.hardware, .key] = some s ∧
    (s.thread t).stat = .ready ∧ run s pre = some s' ∧
    (s'.rtCurrentThread = some t ∧ (s'.thread t).stat = .running ∨ (s'.thread .timer).Awake) := by
  obtain ⟨s, first, hs, hinv, hmem, hcurrent, hrun, hlock, hbest, hthread⟩ :=
    carThread_startup [.hardware, .key] (by decide) (by decide)
  obtain ⟨t, ht, htf⟩ : ∃ t ∈ [CarThread.hardware, .key], t ≠ first := by
    rcases List.mem_pair.mp hmem with rfl | rfl
    · exact ⟨.key, by decide, by decide⟩
    · exact ⟨.hardware, by decide, by decide⟩
  have hself : s.thread t = (carThread t).started := by rw [hthread, if_neg htf, if_pos ht]
  have hpriority (u : CarThread) :
      (s.thread u).currentPriority = (carThread u).currentPriority := by
    rw [hthread]
    split_ifs <;> rfl
  have hsettled : Settled s := by
    refine ⟨first, hcurrent, hrun, fun u hu => ?_⟩
    rw [hpriority, hpriority]
    refine hbest u ?_
    by_contra hnot
    have hne : u ≠ first := fun h => hnot (h ▸ hmem)
    rw [hthread, if_neg hne, if_neg hnot] at hu
    revert hu
    cases u <;> decide
  have htimer : ¬ (s.thread .timer).Awake := by
    have hne : CarThread.timer ≠ first := by
      rintro rfl
      exact absurd hmem (by decide)
    rw [hthread, if_neg hne, if_neg (by decide)]
    decide
  have hurgent : t ∈ urgent := by
    rcases List.mem_pair.mp ht with rfl | rfl <;> decide
  obtain ⟨pre, -, s', -, hs', hserved⟩ := urgent_served (by decide) (by decide) hs
    (show Legal s [] from trivial) rfl hsettled hlock hurgent (by rw [hself]; rfl)
    (by rw [hself]; rfl) htimer (legal_ticks 10 s)
    (fun a ha => by simp [List.eq_of_mem_replicate ha, Action.Unlocked])
    (by rw [List.countP_replicate]; rfl)
  exact ⟨s, t, pre, s', hs, by rw [hself]; rfl, hs', hserved⟩

end ExpertCar.Kernel
