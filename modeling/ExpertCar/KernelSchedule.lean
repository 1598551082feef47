import ExpertCar.KernelTables

/-!
# Scheduling

One call of `rt_schedule` leaves the current thread running or switches to a ready
thread that no other ready thread comes before. The states of the two threads are
all that changes, and the tables stay in order.
-/
namespace ExpertCar.Kernel
open PriorityBuckets TickOrder
variable {ι : Type*} [DecidableEq ι]

namespace State

/-- What one call of `rt_schedule` can do: nothing, go on with the current thread, or
switch to a ready thread that no other ready thread comes before. -/
inductive Scheduled (s : State ι) : State ι → Prop
  | idle : s.rtSchedulerLockNest ≠ 0 ∨ (∀ t, (s.thread t).stat ≠ .ready) → Scheduled s s
  | stays {c : ι} : s.rtSchedulerLockNest = 0 → s.rtCurrentThread = some c →
      (s.thread c).stat = .running →
      (∀ t, (s.thread t).stat = .ready →
        (s.thread c).currentPriority < (s.thread t).currentPriority ∨
        (s.thread c).currentPriority = (s.thread t).currentPriority ∧
          (s.thread c).yields = false) →
      Scheduled s (s.clearYield c)
  | switch {c best : ι} {rest : List ι} : s.rtSchedulerLockNest = 0 → s.rtCurrentThread = some c →
      s.ready.lists (s.thread best).currentPriority = best :: rest →
      (s.thread best).stat = .ready →
      (∀ t, (s.thread t).stat = .ready →
        (s.thread best).currentPriority ≤ (s.thread t).currentPriority) →
      ¬ Stays (s.thread c) (s.thread best).currentPriority.val →
      Scheduled s ((s.clearYield c).switchThread (decide ((s.thread c).stat = .running)) c best)

variable {now : BitVec 32} {s s' : State ι}

theorem clearYield_thread (c u : ι) (s : State ι) :
    (s.clearYield c).thread u =
      { s.thread u with
        yields := ((s.thread u).yields && !decide (u = c ∧ (s.thread u).stat = .running)) } := by
  unfold clearYield
  by_cases hu : u = c
  · subst hu
    by_cases hrun : (s.thread u).stat = .running
    · simp [hrun]
    · simp [hrun]
  · split_ifs
    · simp [setThread_thread_of_ne hu, hu]
    · simp [hu]

theorem setStat_of_stat {t : ι} {stat : Stat} (h : (s.thread t).stat = stat) :
    s.setStat t stat = s := by
  have hthread : ({ s.thread t with stat := stat } : Thread) = s.thread t := by rw [← h]
  rw [setStat, setThread, hthread, Function.update_eq_self]

theorem clearYield_ready (c : ι) (s : State ι) : (s.clearYield c).ready = s.ready := by
  unfold clearYield
  split_ifs <;> rfl

theorem Table.clearYield (h : Table s) (c : ι) : Table (s.clearYield c) := by
  refine h.congr (clearYield_ready c s) (fun t => ?_) (fun t => ?_) (fun t => ?_)
  all_goals rw [clearYield_thread]

omit [DecidableEq ι] in
/-- The search for the highest priority finds the head of the first queue that is not empty. -/
theorem Table.highest (h : Table s) (hgroup : s.ready.group ≠ 0) :
    ∃ best rest, s.schedulerGetHighestPriorityThread =
        some ((s.thread best).currentPriority.val, best) ∧
      s.ready.lists (s.thread best).currentPriority = best :: rest ∧
      (s.thread best).stat = .ready ∧
      ∀ t, (s.thread t).stat = .ready →
        (s.thread best).currentPriority ≤ (s.thread t).currentPriority := by
  obtain ⟨-, best, rest, hlist, hready, hpriority, hbest⟩ := h.filed.lowest hgroup
  refine ⟨best, rest, ?_, ?_, hready, fun t ht => ?_⟩
  · rw [schedulerGetHighestPriorityThread, rtFfs, if_neg hgroup]
    simp only
    rw [hlist, hpriority]
    rfl
  · rw [hpriority]
    exact hlist
  · rw [Fin.le_def, hpriority]
    exact hbest t ht (s.thread t).currentPriority.isLt

theorem rtSchedule_spec (htable : Table s) (hrunning : Running s) :
    ∃ s', s.rtSchedule = some s' ∧ Scheduled s s' := by
  obtain ⟨c, hc, hcready, hcinit⟩ := hrunning.current
  unfold rtSchedule
  split_ifs with h
  · obtain ⟨hlock, hgroup⟩ := h
    obtain ⟨best, rest, hhighest, hlist, hready, hbest⟩ := htable.highest hgroup
    have hne : best ≠ c := fun h => hcready (h ▸ hready)
    rw [hhighest, hc]
    simp only [Option.bind_eq_bind, Option.bind_some]
    by_cases hstays : Stays (s.thread c) (s.thread best).currentPriority.val
    · have hrun : ((s.clearYield c).thread c).stat = .running := by
        rw [clearYield_thread]
        exact hstays.1
      have habsent := (htable.clearYield c).remove_absent (t := c) (by rw [hrun]; simp)
        (by rw [hrun]; simp)
      refine ⟨s.clearYield c, ?_, .stays hlock hc hstays.1 fun t ht => ?_⟩
      · simp [hstays, habsent, setStat_of_stat hrun]
      · have hle := Fin.le_def.mp (hbest t ht)
        rcases hstays.2 with hlt | ⟨heq, hyields⟩
        · exact Or.inl (Fin.lt_def.mpr (by omega))
        · rcases Nat.lt_or_ge (s.thread c).currentPriority.val
            (s.thread t).currentPriority.val with hlt | hge
          · exact Or.inl (Fin.lt_def.mpr hlt)
          · exact Or.inr ⟨Fin.ext (by omega), hyields⟩
    · refine ⟨_, ?_, .switch hlock hc hlist hready hbest hstays⟩
      simp [hstays, hne]
  · refine ⟨s, rfl, .idle ?_⟩
    rw [not_and_or, not_not] at h
    rw [← htable.filed.group_eq_zero_iff fun t => (s.thread t).currentPriority.isLt]
    exact h

section Switch
variable {c best : ι} {insert : Bool}

theorem switchThread_thread_best (hne : c ≠ best) :
    (s.switchThread insert c best).thread best = { s.thread best with stat := .running } := by
  cases insert
  · simp [switchThread, rtScheduleRemoveThread, setStat]
  · simp [switchThread, rtScheduleInsertThread, rtScheduleRemoveThread, setStat, hne.symm,
      setThread]

theorem switchThread_thread_of_ne {u : ι} (hne : c ≠ best) (hu : u ≠ best) :
    (s.switchThread insert c best).thread u =
      if insert = true ∧ u = c then { s.thread u with stat := .ready } else s.thread u := by
  cases insert
  · simp [switchThread, rtScheduleRemoveThread, setStat, setThread, hu]
  · by_cases huc : u = c
    · subst huc
      simp [switchThread, rtScheduleInsertThread, rtScheduleRemoveThread, setStat, setThread, hu,
        hne.symm]
    · simp [switchThread, rtScheduleInsertThread, rtScheduleRemoveThread, setStat, setThread, hu,
        huc, hne.symm]

/-- The thread switched from goes to the end of its queue, the other one leaves its own. -/
theorem switchThread_lists (hne : c ≠ best) (p : ℕ) :
    (s.switchThread insert c best).ready.lists p =
      (s.ready.lists p ++
        if insert = true ∧ p = (s.thread c).currentPriority then [c] else []).erase best := by
  cases insert
  · simp [switchThread, rtScheduleRemoveThread, setStat, setThread, Buckets.remove_lists]
  · by_cases hp : p = (s.thread c).currentPriority
    · subst hp
      simp [switchThread, rtScheduleInsertThread, rtScheduleRemoveThread, setStat, setThread,
        Buckets.remove_lists, hne.symm]
    · simp [switchThread, rtScheduleInsertThread, rtScheduleRemoveThread, setStat, setThread,
        Buckets.remove_lists, Buckets.push_lists_of_ne, hp, hne.symm]

theorem switchThread_table (insert : Bool) (h : Table s) (hne : c ≠ best)
    (hc : (s.thread c).stat ≠ .ready) (hcinit : (s.thread c).stat ≠ .init)
    (hbest : (s.thread best).stat = .ready) :
    Table (s.switchThread insert c best) := by
  have hcurrent : Table { s with rtCurrentThread := some best } :=
    h.congr rfl (fun _ => rfl) (fun _ => rfl) fun _ => rfl
  cases insert
  · exact hcurrent.release (f := fun th => { th with stat := .running })
      (by rw [hbest]; simp) (by simp) rfl rfl
  · have hinsert := hcurrent.insert (t := c) hc hcinit
    have hstat : ((rtScheduleInsertThread c { s with rtCurrentThread := some best }).thread
        best).stat ≠ .init := by
      simp [rtScheduleInsertThread, setStat, setThread, hne.symm, hbest]
    exact hinsert.release (f := fun th => { th with stat := .running }) hstat (by simp) rfl rfl

end Switch

omit [DecidableEq ι] in
theorem Running.of_current (h : Running s) {c : ι} (hc : s.rtCurrentThread = some c) :
    (s.thread c).stat ≠ .ready ∧ (s.thread c).stat ≠ .init := by
  obtain ⟨d, hd, hd'⟩ := h.current
  rw [hc, Option.some_inj] at hd
  rw [hd]
  exact hd'

omit [DecidableEq ι] in
theorem Running.congr (h : Running s) (hcurrent : s'.rtCurrentThread = s.rtCurrentThread)
    (hstat : ∀ t, (s'.thread t).stat = (s.thread t).stat) : Running s' := by
  obtain ⟨c, hc, hc'⟩ := h.current
  refine ⟨⟨c, hcurrent.trans hc, ?_⟩, fun t ht => ?_⟩
  · rw [hstat]
    exact hc'
  · rw [hstat] at ht
    exact hcurrent.trans (h.alone t ht)

omit [DecidableEq ι] in
theorem Running.ne_of_ready (h : Running s) {c t : ι} (hc : s.rtCurrentThread = some c)
    (ht : (s.thread t).stat = .ready) : c ≠ t := by
  rintro rfl
  exact (h.of_current hc).1 ht

/-- A scheduling changes of a thread whether it runs or is ready, and whether it yields. -/
theorem Scheduled.thread (h : Scheduled s s') (hrunning : Running s) (t : ι) :
    ∃ stat yields, s'.thread t = { s.thread t with stat := stat, yields := yields } ∧
      (stat = (s.thread t).stat ∨
        (stat = .ready ∨ stat = .running) ∧ (s.thread t).Awake) := by
  cases h with
  | idle => exact ⟨_, _, rfl, Or.inl rfl⟩
  | stays => exact ⟨_, _, clearYield_thread _ t s, Or.inl rfl⟩
  | @switch c best rest hlock hc hlist hready hbest hstays =>
      have hne := hrunning.ne_of_ready hc hready
      have hclear := clearYield_thread (s := s) c t
      by_cases hu : t = best
      · subst hu
        refine ⟨.running, ((s.clearYield c).thread t).yields, ?_, Or.inr ⟨Or.inr rfl, Or.inl hready⟩⟩
        rw [switchThread_thread_best hne, hclear]
      · rw [switchThread_thread_of_ne hne hu, hclear]
        split_ifs with hinsert
        · refine ⟨.ready, _, rfl, Or.inr ⟨Or.inl rfl, Or.inr ?_⟩⟩
          rw [hinsert.2]
          exact of_decide_eq_true hinsert.1
        · exact ⟨_, _, rfl, Or.inl rfl⟩

theorem clearYield_frame (c : ι) (s : State ι) : (s.clearYield c).rtTick = s.rtTick ∧
    (s.clearYield c).timerList = s.timerList ∧
    (s.clearYield c).rtSchedulerLockNest = s.rtSchedulerLockNest ∧
    (s.clearYield c).rtCurrentThread = s.rtCurrentThread := by
  unfold clearYield
  split_ifs <;> exact ⟨rfl, rfl, rfl, rfl⟩

theorem rtScheduleInsertThread_frame (t : ι) (s : State ι) :
    (s.rtScheduleInsertThread t).rtTick = s.rtTick ∧
    (s.rtScheduleInsertThread t).timerList = s.timerList ∧
    (s.rtScheduleInsertThread t).rtSchedulerLockNest = s.rtSchedulerLockNest ∧
    (s.rtScheduleInsertThread t).rtCurrentThread = s.rtCurrentThread := by
  unfold rtScheduleInsertThread
  split_ifs <;> exact ⟨rfl, rfl, rfl, rfl⟩

theorem switchThread_frame (insert : Bool) (c best : ι) (s : State ι) :
    (s.switchThread insert c best).rtTick = s.rtTick ∧
    (s.switchThread insert c best).timerList = s.timerList ∧
    (s.switchThread insert c best).rtSchedulerLockNest = s.rtSchedulerLockNest ∧
    (s.switchThread insert c best).rtCurrentThread = some best := by
  cases insert
  · exact ⟨rfl, rfl, rfl, rfl⟩
  · exact rtScheduleInsertThread_frame c { s with rtCurrentThread := some best }

/-- The state but for its threads, its ready table and its current thread. -/
theorem Scheduled.frame (h : Scheduled s s') : s'.rtTick = s.rtTick ∧
    s'.timerList = s.timerList ∧ s'.rtSchedulerLockNest = s.rtSchedulerLockNest := by
  cases h with
  | idle => exact ⟨rfl, rfl, rfl⟩
  | @stays c =>
      obtain ⟨htick, hlist, hlock, -⟩ := clearYield_frame c s
      exact ⟨htick, hlist, hlock⟩
  | @switch c best =>
      obtain ⟨htick, hlist, hlock, -⟩ := clearYield_frame c s
      obtain ⟨htick', hlist', hlock', -⟩ := switchThread_frame
        (decide ((s.thread c).stat = .running)) c best (s.clearYield c)
      exact ⟨htick'.trans htick, hlist'.trans hlist, hlock'.trans hlock⟩

theorem Scheduled.inv (h : Scheduled s s') (hinv : Inv now s) : Inv now s' := by
  have hthread := h.thread hinv.running
  have hclock : Clock now s' := by
    refine hinv.clock.congr h.frame.2.1 (fun t => ?_) (fun t => ?_) fun t ht _ => ?_
    · obtain ⟨stat, yields, heq, -⟩ := hthread t
      rw [heq]
    · obtain ⟨stat, yields, heq, -⟩ := hthread t
      rw [heq]
    · obtain ⟨stat, yields, heq, hstat⟩ := hthread t
      rw [heq]
      rcases hstat with hstat | ⟨-, hawake⟩
      · exact hstat.trans ht
      · rw [Thread.Awake, ht] at hawake
        exact absurd hawake (by decide)
  cases h with
  | idle => exact hinv
  | @stays c hlock hc hrun hbest =>
      have hstat (t : ι) : ((s.clearYield c).thread t).stat = (s.thread t).stat := by
        rw [clearYield_thread]
      exact ⟨hinv.table.clearYield c, hclock,
        hinv.running.congr (clearYield_frame c s).2.2.2 hstat⟩
  | @switch c best rest hlock hc hlist hready hbest hstays =>
      obtain ⟨hcready, hcinit⟩ := hinv.running.of_current hc
      have hne := hinv.running.ne_of_ready hc hready
      have hstat (t : ι) : ((s.clearYield c).thread t).stat = (s.thread t).stat := by
        rw [clearYield_thread]
      have hcurrent := (switchThread_frame (decide ((s.thread c).stat = .running)) c best
        (s.clearYield c)).2.2.2
      have htable := switchThread_table (decide ((s.thread c).stat = .running))
        (hinv.table.clearYield c) hne ((hstat c).trans_ne hcready) ((hstat c).trans_ne hcinit)
        ((hstat best).trans hready)
      refine ⟨htable, hclock, ⟨best, hcurrent, ?_, ?_⟩, fun t ht => ?_⟩
      · rw [switchThread_thread_best hne]
        simp
      · rw [switchThread_thread_best hne]
        simp
      · rw [hcurrent]
        by_contra htbest
        have htne : t ≠ best := fun h => htbest (congrArg some h.symm)
        rw [switchThread_thread_of_ne hne htne] at ht
        split_ifs at ht with hinsert
        rw [hstat] at ht
        obtain rfl := Option.some_inj.mp (hc.symm.trans (hinv.running.alone t ht))
        exact hinsert ⟨decide_eq_true ht, rfl⟩

end State

end ExpertCar.Kernel
