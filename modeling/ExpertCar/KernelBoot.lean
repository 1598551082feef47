import ExpertCar.CarThreads
import ExpertCar.KernelMoves

/-!
# The start of the kernel

Before the scheduler starts there is no current thread, and the threads started wait
in the ready table. The first one to run is one of the highest priority, and from
then on the kernel is in order.
-/
namespace ExpertCar.Kernel
open PriorityBuckets TickOrder
variable {ι : Type*} [DecidableEq ι]

/-- `rtthread_startup` with the threads its initializations start. -/
def rtthreadStartup (thread : ι → Thread) (threads : List ι) : Option (State ι) := do
  let s ← threads.foldlM (fun s t => s.rtThreadStartup t) (State.init thread)
  s.rtSystemSchedulerStart

/-- A thread that `rt_thread_startup` made ready. -/
def Thread.started (th : Thread) : Thread :=
  { th with numberMask := 1#32 <<< th.currentPriority.val, stat := .ready, yields := false }

namespace State

/-- Before the scheduler starts the threads listed are ready, and nothing else happened. -/
structure Starting (thread : ι → Thread) (started : List ι) (s : State ι) : Prop where
  table : Table s
  timerList : s.timerList = []
  current : s.rtCurrentThread = none
  lockNest : s.rtSchedulerLockNest = 0
  rtTick : s.rtTick = 0
  thread : ∀ t, s.thread t = if t ∈ started then (thread t).started else thread t

section Starting
variable {thread : ι → Thread} {s : State ι} {started : List ι}

theorem starting_init (hthread : ∀ t, (thread t).stat = .init) :
    Starting thread [] (State.init thread) := by
  have hnone (t : ι) : (thread t).stat = .ready ↔ False := by
    rw [hthread]
    exact iff_of_false (by simp) id
  refine ⟨⟨?_, fun t ht => absurd (hthread t) ht⟩, rfl, rfl, rfl, rfl, fun t => ?_⟩
  · exact (Buckets.filed_empty fun t => (thread t).currentPriority.val).congr hnone
      fun _ _ => rfl
  · rw [if_neg List.not_mem_nil]
    rfl

theorem Starting.startup (h : Starting thread started s) {t : ι} (ht : t ∉ started)
    (hstat : (thread t).stat = .init) (htimer : (thread t).timer.activated = false) :
    ∃ s', s.rtThreadStartup t = some s' ∧ Starting thread (started ++ [t]) s' := by
  have heq : s.thread t = thread t := by rw [h.thread, if_neg ht]
  obtain ⟨s₁, hs₁⟩ : ∃ s₁, s₁ = s.setThread t fun th =>
      { th with numberMask := 1#32 <<< th.currentPriority.val, stat := .suspend,
                yields := false } := ⟨_, rfl⟩
  have hthread₁ : s₁.thread t = { thread t with
      numberMask := 1#32 <<< (thread t).currentPriority.val, stat := .suspend,
      yields := false } := by
    rw [hs₁, setThread_thread_self, heq]
  have htable₁ : Table s₁ := by
    rw [hs₁]
    refine h.table.setThread ?_ (by simp) fun _ => rfl
    rw [heq, hstat]
    simp
  have hready₁ : (s₁.thread t).stat ≠ .ready := by rw [hthread₁]; simp
  have hcurrent₁ : s₁.rtCurrentThread ≠ some t := by
    rw [hs₁]
    change s.rtCurrentThread ≠ some t
    rw [h.current]
    simp
  have hresume : s₁.rtThreadResume t = s₁.rtScheduleInsertThread t := by
    rw [rtThreadResume, if_pos (by rw [hthread₁]), htable₁.unlinkThread hready₁, rtTimerStop,
      if_neg (by rw [hthread₁, htimer]; simp)]
  refine ⟨s₁.rtScheduleInsertThread t, ?_, ?_⟩
  · rw [rtThreadStartup, if_pos (by rw [heq, hstat]), ← hs₁, hresume]
  · obtain ⟨htick, hlist, hlock, hcurrent⟩ := rtScheduleInsertThread_frame t s₁
    refine ⟨htable₁.insert hready₁ (by rw [hthread₁]; simp), ?_, ?_, ?_, ?_, fun u => ?_⟩
    · rw [hlist, hs₁]
      exact h.timerList
    · rw [hcurrent, hs₁]
      exact h.current
    · rw [hlock, hs₁]
      exact h.lockNest
    · rw [htick, hs₁]
      exact h.rtTick
    · by_cases hut : u = t
      · subst hut
        rw [rtScheduleInsertThread_thread_self, if_neg hcurrent₁, hthread₁, if_pos (by simp)]
        rfl
      · rw [rtScheduleInsertThread_thread_of_ne hut, hs₁, setThread_thread_of_ne hut, h.thread]
        simp [hut]

theorem Starting.startup_all (h : Starting thread started s) {threads : List ι}
    (hnodup : (started ++ threads).Nodup) (hthread : ∀ t, (thread t).stat = .init ∧
      (thread t).timer.activated = false) :
    ∃ s', threads.foldlM (fun s t => s.rtThreadStartup t) s = some s' ∧
      Starting thread (started ++ threads) s' := by
  induction threads generalizing s started with
  | nil =>
      rw [List.append_nil]
      exact ⟨s, rfl, h⟩
  | cons t ts ih =>
      have ht : t ∉ started := by
        intro hmem
        exact (List.nodup_append.mp hnodup).2.2 t hmem t List.mem_cons_self rfl
      obtain ⟨s₁, hs₁, h₁⟩ := h.startup ht (hthread t).1 (hthread t).2
      have happend : started ++ t :: ts = (started ++ [t]) ++ ts := by simp
      rw [happend] at hnodup ⊢
      obtain ⟨s', hs', h'⟩ := ih h₁ hnodup
      refine ⟨s', ?_, h'⟩
      rw [List.foldlM_cons, hs₁]
      exact hs'

theorem Starting.stat_ready (h : Starting thread started s) {t : ι} (ht : t ∈ started) :
    (s.thread t).stat = .ready := by
  rw [h.thread, if_pos ht]
  rfl

theorem Starting.currentPriority (h : Starting thread started s) (t : ι) :
    (s.thread t).currentPriority = (thread t).currentPriority := by
  rw [h.thread]
  split_ifs <;> rfl

theorem Starting.activated (h : Starting thread started s)
    (htimer : ∀ t, (thread t).timer.activated = false) (t : ι) :
    (s.thread t).timer.activated = false := by
  rw [h.thread]
  split_ifs
  · exact htimer t
  · exact htimer t

/-- Nothing runs before the scheduler starts. -/
theorem Starting.stat_ne_running (h : Starting thread started s)
    (hinit : ∀ t, (thread t).stat = .init) (t : ι) : (s.thread t).stat ≠ .running := by
  intro hstat
  rw [h.thread] at hstat
  split_ifs at hstat
  · exact Stat.noConfusion hstat
  · rw [hinit t] at hstat
    exact Stat.noConfusion hstat

/-- The highest of the threads started. -/
theorem Starting.highest (h : Starting thread started s) (hinit : ∀ t, (thread t).stat = .init)
    (hne : started ≠ []) :
    ∃ first, s.schedulerGetHighestPriorityThread =
        some ((s.thread first).currentPriority.val, first) ∧
      first ∈ started ∧ (s.thread first).stat = .ready ∧
      ∀ t ∈ started, (thread first).currentPriority ≤ (thread t).currentPriority := by
  have hgroup : s.ready.group ≠ 0#32 := by
    obtain ⟨t, ht⟩ := List.exists_mem_of_ne_nil started hne
    intro hzero
    exact (h.table.filed.group_eq_zero_iff fun t => (s.thread t).currentPriority.isLt).mp hzero t
      (h.stat_ready ht)
  obtain ⟨first, -, hhighest, -, hfirst, hbest⟩ := h.table.highest hgroup
  refine ⟨first, hhighest, ?_, hfirst, fun t ht => ?_⟩
  · by_contra hnot
    rw [h.thread, if_neg hnot, hinit first] at hfirst
    exact Stat.noConfusion hfirst
  · rw [← h.currentPriority, ← h.currentPriority]
    exact hbest t (h.stat_ready ht)

omit [DecidableEq ι] in
/-- Without a timer the clock is in order. -/
theorem clock_of_nil {now : BitVec 32} (hlist : s.timerList = [])
    (hinactive : ∀ t, (s.thread t).timer.activated = false) : Clock now s := by
  refine ⟨fun t => ?_, ?_, ?_, ?_, fun t ht => ?_⟩
  · rw [hlist, hinactive]
    exact iff_of_false List.not_mem_nil (by simp)
  · rw [hlist]
    exact List.nodup_nil
  · rw [hlist]
    exact List.Pairwise.nil
  · rw [hlist]
    exact fun t ht => absurd ht List.not_mem_nil
  · rw [hinactive] at ht
    exact Bool.noConfusion ht

/-- What `rt_system_scheduler_start` leaves when `first` is the thread it takes. -/
def firstRun (first : ι) (s : State ι) : State ι :=
  (rtScheduleRemoveThread first { s with rtCurrentThread := some first }).setThread first
    fun th => { th with stat := .running, yields := false }

theorem firstRun_thread_of_ne {t first : ι} (h : t ≠ first) (s : State ι) :
    (firstRun first s).thread t = s.thread t := setThread_thread_of_ne h _ _

theorem Starting.firstRun_ordered (h : Starting thread started s)
    (hthread : ∀ t, (thread t).stat = .init ∧ (thread t).timer.activated = false) {first : ι}
    (hfirst : (s.thread first).stat = .ready) : Ordered (firstRun first s) := by
  have hcurrent : Table { s with rtCurrentThread := some first } :=
    h.table.congr rfl (fun _ => rfl) (fun _ => rfl) fun _ => rfl
  have hrun : ((firstRun first s).thread first).stat = .running := by
    rw [firstRun, setThread_thread_self]
  refine ⟨?_, clock_of_nil h.timerList fun t => ?_, ⟨first, rfl, ?_, ?_⟩, fun t ht => ?_⟩
  · refine hcurrent.release (f := fun th => { th with stat := .running, yields := false })
      ?_ (by simp) rfl rfl
    rw [hfirst]
    simp
  · exact (setThread_thread_proj (fun th => th.timer.activated) rfl t).trans
      (h.activated (fun t => (hthread t).2) t)
  · rw [hrun]
    simp
  · rw [hrun]
    simp
  · by_contra hne
    have htf : t ≠ first := by
      rintro rfl
      exact hne rfl
    rw [firstRun_thread_of_ne htf] at ht
    exact h.stat_ne_running (fun t => (hthread t).1) t ht

/-- The scheduler starts with a thread that no other one comes before. -/
theorem Starting.start (h : Starting thread started s) (hthread : ∀ t, (thread t).stat = .init ∧
    (thread t).timer.activated = false) (hne : started ≠ []) :
    ∃ s' first, s.rtSystemSchedulerStart = some s' ∧ Ordered s' ∧ first ∈ started ∧
      s'.rtCurrentThread = some first ∧ (s'.thread first).stat = .running ∧
      s'.rtSchedulerLockNest = 0 ∧
      (∀ t ∈ started, (thread first).currentPriority ≤ (thread t).currentPriority) ∧
      ∀ t, s'.thread t = if t = first then { (thread t).started with stat := .running }
        else if t ∈ started then (thread t).started else thread t := by
  obtain ⟨first, hhighest, hstarted, hfirst, hbest⟩ := h.highest (fun t => (hthread t).1) hne
  refine ⟨firstRun first s, first, ?_, h.firstRun_ordered hthread hfirst, hstarted, rfl, ?_,
    h.lockNest, hbest, fun t => ?_⟩
  · rw [rtSystemSchedulerStart, hhighest]
    rfl
  · rw [firstRun, setThread_thread_self]
  · rw [← h.thread]
    by_cases htf : t = first
    · subst htf
      rw [firstRun, setThread_thread_self, if_pos rfl]
      change { s.thread t with stat := .running, yields := false } = _
      rw [h.thread, if_pos hstarted]
      rfl
    · rw [firstRun_thread_of_ne htf, if_neg htf]

end Starting

end State

theorem rtthreadStartup_spec {thread : ι → Thread} {threads : List ι} (hne : threads ≠ [])
    (hnodup : threads.Nodup)
    (hthread : ∀ t, ∃ priority tick, thread t = Thread.create priority tick) :
    ∃ s first, rtthreadStartup thread threads = some s ∧ Ordered s ∧ first ∈ threads ∧
      s.rtCurrentThread = some first ∧ (s.thread first).stat = .running ∧
      s.rtSchedulerLockNest = 0 ∧
      (∀ t ∈ threads, (thread first).currentPriority ≤ (thread t).currentPriority) ∧
      ∀ t, s.thread t = if t = first then { (thread t).started with stat := .running }
        else if t ∈ threads then (thread t).started else thread t := by
  have hcreated (t : ι) : (thread t).stat = .init ∧ (thread t).timer.activated = false := by
    obtain ⟨priority, tick, heq⟩ := hthread t
    rw [heq]
    exact ⟨rfl, rfl⟩
  have hempty : State.Starting thread [] (State.init thread) :=
    State.starting_init fun t => (hcreated t).1
  obtain ⟨s₁, hs₁, hstarting⟩ := hempty.startup_all hnodup hcreated
  obtain ⟨s, first, hs, h⟩ := hstarting.start hcreated hne
  refine ⟨s, first, ?_, h⟩
  rw [rtthreadStartup, hs₁]
  exact hs

/-- The car starts with some of its threads. -/
theorem carThread_startup (threads : List CarThread) (hne : threads ≠ []) (hnodup : threads.Nodup) :
    ∃ s first, rtthreadStartup carThread threads = some s ∧ Ordered s ∧ first ∈ threads ∧
      s.rtCurrentThread = some first ∧ (s.thread first).stat = .running ∧
      s.rtSchedulerLockNest = 0 ∧
      (∀ t ∈ threads, (carThread first).currentPriority ≤ (carThread t).currentPriority) ∧
      ∀ t, s.thread t = if t = first then { (carThread t).started with stat := .running }
        else if t ∈ threads then (carThread t).started else carThread t :=
  rtthreadStartup_spec hne hnodup carThread_create

end ExpertCar.Kernel
