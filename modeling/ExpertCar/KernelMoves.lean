import ExpertCar.KernelSchedule
import Mathlib.Logic.Relation

/-!
# What the kernel can do to its threads

Every call and every interrupt is a sequence of few kinds of moves: a thread is
scheduled, woken, resumed, started, suspended, given a timer, closed, or changed
in fields that no queue depends on. Each move keeps the tables and the current
thread in order, and a property of whole runs needs a look at each kind of move
once.
-/
namespace ExpertCar.Kernel
open PriorityBuckets TickOrder
variable {ι : Type*} [DecidableEq ι]

/-- What a move is about. -/
inductive Label (ι : Type*) where
  | adjust | clock | schedule | slice | refill | lock
  | wake (t : ι) | resume (t : ι) | start (t : ι) | suspend (t : ι) | arm (t : ι) | close (t : ι)

open State in
inductive Move : Label ι → State ι → State ι → Prop
  | adjust {s : State ι} (t : ι) (error : ThreadError) :
      Move .adjust s (s.setThread t fun th => { th with error := error })
  | clock {s : State ι} : Move .clock s { s with rtTick := s.rtTick + 1 }
  | schedule {s s' : State ι} : Scheduled s s' → Move .schedule s s'
  | slice {s : State ι} {t : ι} : s.rtCurrentThread = some t →
      Move .slice s (s.setThread t fun th => { th with remainingTick := th.remainingTick - 1 })
  | refill {s : State ι} {t : ι} : s.rtCurrentThread = some t →
      Move .refill s (s.setThread t fun th =>
        { th with remainingTick := th.initTick, yields := true })
  | lock {s : State ι} (nest : BitVec 16) : Move .lock s { s with rtSchedulerLockNest := nest }
  | wake {s : State ι} {t : ι} : (s.thread t).timer.activated = true →
      Due halfTickMax s.rtTick (s.thread t).timer.timeoutTick →
      Move (.wake t) s (((s.clearTimer t).setThread t fun th =>
        { th with error := .etimeout }).rtScheduleInsertThread t)
  | resume {s : State ι} {t : ι} : (s.thread t).stat = .suspend →
      Move (.resume t) s ((s.clearTimer t).rtScheduleInsertThread t)
  | start {s : State ι} {t : ι} : (s.thread t).stat = .init →
      Move (.start t) s ((s.setThread t fun th =>
        { th with numberMask := 1#32 <<< th.currentPriority.val, stat := .suspend,
                  yields := false }).rtScheduleInsertThread t)
  | suspend {s : State ι} {t : ι} : s.rtCurrentThread = some t → (s.thread t).Awake →
      Move (.suspend t) s (s.setStat t .suspend)
  | arm {s : State ι} {t : ι} (tick : BitVec 32) : s.rtCurrentThread = some t →
      (s.thread t).stat = .suspend → tick < halfTickMax →
      Move (.arm t) s ((s.setThread t fun th =>
        { th with timer := { th.timer with initTick := tick } }).rtTimerStart t)
  | close {s : State ι} {t : ι} : s.rtCurrentThread = some t →
      Move (.close t) s ((s.clearTimer t).setThread t fun th =>
        { th with stat := .close, yields := false })

namespace State
variable {now : BitVec 32} {s s' : State ι}

omit [DecidableEq ι] in
theorem Inv.congr (h : Inv now s) (hthread : s'.thread = s.thread) (hready : s'.ready = s.ready)
    (hlist : s'.timerList = s.timerList) (hcurrent : s'.rtCurrentThread = s.rtCurrentThread) :
    Inv now s' := by
  have hproj {α : Type} (g : Thread → α) (t : ι) : g (s'.thread t) = g (s.thread t) := by
    rw [hthread]
  refine ⟨?_, ?_, h.running.congr hcurrent (hproj Thread.stat)⟩
  · exact h.table.congr hready (hproj Thread.stat) (hproj Thread.currentPriority)
      (hproj Thread.numberMask)
  · exact h.clock.congr hlist (hproj fun th => th.timer.timeoutTick)
      (hproj fun th => th.timer.activated) fun t ht _ => (hproj Thread.stat t).trans ht

/-- Fields that no table depends on. -/
theorem Inv.adjust (h : Inv now s) {t : ι} {f : Thread → Thread}
    (hstat : (f (s.thread t)).stat = (s.thread t).stat)
    (hpriority : (f (s.thread t)).currentPriority = (s.thread t).currentPriority)
    (hmask : (f (s.thread t)).numberMask = (s.thread t).numberMask)
    (htimeout : (f (s.thread t)).timer.timeoutTick = (s.thread t).timer.timeoutTick)
    (hactivated : (f (s.thread t)).timer.activated = (s.thread t).timer.activated) :
    Inv now (s.setThread t f) := by
  have hstat (u : ι) : ((s.setThread t f).thread u).stat = (s.thread u).stat :=
    setThread_thread_proj Thread.stat hstat u
  refine ⟨?_, ?_, ?_⟩
  · exact h.table.congr rfl hstat (setThread_thread_proj Thread.currentPriority hpriority)
      (setThread_thread_proj Thread.numberMask hmask)
  · exact h.clock.congr rfl (setThread_thread_proj (fun th => th.timer.timeoutTick) htimeout)
      (setThread_thread_proj (fun th => th.timer.activated) hactivated)
      fun u hu _ => (hstat u).trans hu
  · exact h.running.congr rfl hstat

/-- A thread that is not ready and whose timer is not active may be taken out of service. -/
theorem Inv.putAside (h : Inv now s) {t : ι} {f : Thread → Thread}
    (ht : (s.thread t).stat ≠ .ready) (htimer : (s.thread t).timer.activated = false)
    (hf : (f (s.thread t)).stat = .suspend ∨ (f (s.thread t)).stat = .close)
    (hmask : (f (s.thread t)).numberMask = 1#32 <<< (f (s.thread t)).currentPriority.val)
    (hftimer : (f (s.thread t)).timer = (s.thread t).timer) : Inv now (s.setThread t f) := by
  have hready : (f (s.thread t)).stat ≠ .ready := by rcases hf with hf | hf <;> rw [hf] <;> simp
  have hinit : (f (s.thread t)).stat ≠ .init := by rcases hf with hf | hf <;> rw [hf] <;> simp
  have hrun : (f (s.thread t)).stat ≠ .running := by rcases hf with hf | hf <;> rw [hf] <;> simp
  refine ⟨h.table.setThread ht hready fun _ => hmask, ?_, ?_⟩
  · have htimeout : (f (s.thread t)).timer.timeoutTick = (s.thread t).timer.timeoutTick := by
      rw [hftimer]
    have hactivated : (f (s.thread t)).timer.activated = (s.thread t).timer.activated := by
      rw [hftimer]
    refine h.clock.congr rfl (setThread_thread_proj (fun th => th.timer.timeoutTick) htimeout)
      (setThread_thread_proj (fun th => th.timer.activated) hactivated) fun u hu hactive => ?_
    · have hut : u ≠ t := by
        rintro rfl
        rw [htimer] at hactive
        exact Bool.noConfusion hactive
      rw [setThread_thread_of_ne hut]
      exact hu
  · obtain ⟨c, hc, hcready, hcinit⟩ := h.running.current
    refine ⟨⟨c, hc, ?_⟩, fun u hu => ?_⟩
    · by_cases hct : c = t
      · subst hct
        rw [setThread_thread_self]
        exact ⟨hready, hinit⟩
      · rw [setThread_thread_of_ne hct]
        exact ⟨hcready, hcinit⟩
    · by_cases hut : u = t
      · subst hut
        rw [setThread_thread_self] at hu
        exact absurd hu hrun
      · rw [setThread_thread_of_ne hut] at hu
        exact h.running.alone u hu

theorem rtScheduleInsertThread_thread_self (t : ι) (s : State ι) :
    (s.rtScheduleInsertThread t).thread t =
      { s.thread t with stat := if s.rtCurrentThread = some t then .running else .ready } := by
  unfold rtScheduleInsertThread
  split_ifs <;> simp [setStat]

theorem rtScheduleInsertThread_thread_of_ne {t u : ι} (hu : u ≠ t) (s : State ι) :
    (s.rtScheduleInsertThread t).thread u = s.thread u := by
  unfold rtScheduleInsertThread
  split_ifs <;> simp [setStat, setThread_thread_of_ne hu]

/-- A field that does not depend on the state of the thread is kept. -/
theorem rtScheduleInsertThread_thread_proj {α : Type*} (g : Thread → α)
    (hg : ∀ (th : Thread) (stat : Stat), g { th with stat := stat } = g th) (t : ι) (s : State ι)
    (u : ι) : g ((s.rtScheduleInsertThread t).thread u) = g (s.thread u) := by
  by_cases hut : u = t
  · subst hut
    rw [rtScheduleInsertThread_thread_self, hg]
  · rw [rtScheduleInsertThread_thread_of_ne hut]

theorem Inv.insert (h : Inv now s) {t : ι} (ht : (s.thread t).stat = .suspend)
    (htimer : (s.thread t).timer.activated = false) : Inv now (s.rtScheduleInsertThread t) := by
  have hcurrent := (rtScheduleInsertThread_frame t s).2.2.2
  refine ⟨h.table.insert (by rw [ht]; simp) (by rw [ht]; simp), ?_, ?_⟩
  · refine h.clock.congr (rtScheduleInsertThread_frame t s).2.1
      (rtScheduleInsertThread_thread_proj (fun th => th.timer.timeoutTick) (fun _ _ => rfl) t s)
      (rtScheduleInsertThread_thread_proj (fun th => th.timer.activated) (fun _ _ => rfl) t s)
      fun u hu hactive => ?_
    have hut : u ≠ t := by
      rintro rfl
      rw [htimer] at hactive
      exact Bool.noConfusion hactive
    rw [rtScheduleInsertThread_thread_of_ne hut]
    exact hu
  · obtain ⟨c, hc, hcready, hcinit⟩ := h.running.current
    refine ⟨⟨c, hcurrent.trans hc, ?_⟩, fun u hu => ?_⟩
    · by_cases hct : c = t
      · subst hct
        rw [rtScheduleInsertThread_thread_self, if_pos hc]
        simp
      · rw [rtScheduleInsertThread_thread_of_ne hct]
        exact ⟨hcready, hcinit⟩
    · rw [hcurrent]
      by_cases hut : u = t
      · subst hut
        rw [rtScheduleInsertThread_thread_self] at hu
        by_contra hne
        rw [if_neg hne] at hu
        exact Stat.noConfusion hu
      · rw [rtScheduleInsertThread_thread_of_ne hut] at hu
        exact h.running.alone u hu

theorem Inv.clearTimer (h : Inv now s) (t : ι) : Inv now (s.clearTimer t) := by
  have hstat := clearTimer_stat t s
  refine ⟨?_, h.clock.clearTimer t, ?_⟩
  · exact h.table.congr rfl hstat (clearTimer_proj Thread.currentPriority (fun _ _ => rfl) t s)
      (clearTimer_proj Thread.numberMask (fun _ _ => rfl) t s)
  · exact h.running.congr rfl hstat

/-- A timer that a sleeping thread starts. -/
theorem Inv.start (h : Inv now s) (hnow : s.rtTick = now) {t : ι}
    (ht : (s.thread t).stat = .suspend) (htick : (s.thread t).timer.initTick < halfTickMax) :
    Inv now (s.rtTimerStart t) := by
  have hstat := rtTimerStart_proj Thread.stat (fun _ _ => rfl) t s
  refine ⟨?_, h.clock.start hnow ht htick, ?_⟩
  · exact h.table.congr rfl hstat
      (rtTimerStart_proj Thread.currentPriority (fun _ _ => rfl) t s)
      (rtTimerStart_proj Thread.numberMask (fun _ _ => rfl) t s)
  · exact h.running.congr rfl hstat

end State

section Preserved
open State
variable {now : BitVec 32} {s s' : State ι}

/-- Every move keeps the kernel in order; a timer is armed by the clock. -/
theorem Move.inv {label : Label ι} (h : Move label s s') (hinv : Inv now s)
    (hnow : ∀ t, label = .arm t → s.rtTick = now) : Inv now s' := by
  cases h with
  | adjust t error => exact hinv.adjust rfl rfl rfl rfl rfl
  | schedule h => exact h.inv hinv
  | slice => exact hinv.adjust rfl rfl rfl rfl rfl
  | refill => exact hinv.adjust rfl rfl rfl rfl rfl
  | clock => exact hinv.congr rfl rfl rfl rfl
  | lock nest => exact hinv.congr rfl rfl rfl rfl
  | @wake s t hactive =>
      have hclear := hinv.clearTimer t
      have htimer : ((s.clearTimer t).thread t).timer.activated = false := by
        simp [clearTimer, setActivated]
      have hstat := (clearTimer_stat t s t).trans (hinv.clock.asleep t hactive)
      refine (hclear.adjust (t := t) (f := fun th => { th with error := .etimeout })
        rfl rfl rfl rfl rfl).insert ?_ ?_
      · rw [setThread_thread_self]
        exact hstat
      · rw [setThread_thread_self]
        exact htimer
  | @resume s t hstat =>
      refine (hinv.clearTimer t).insert ((clearTimer_stat t s t).trans hstat) ?_
      simp [clearTimer, setActivated]
  | @start s t hstat =>
      have htimer : (s.thread t).timer.activated = false := by
        rw [← Bool.not_eq_true]
        intro hactive
        rw [hinv.clock.asleep t hactive] at hstat
        exact Stat.noConfusion hstat
      refine (hinv.putAside (t := t) (f := fun th =>
        { th with numberMask := 1#32 <<< th.currentPriority.val, stat := .suspend,
                  yields := false }) ?_ htimer (Or.inl rfl) rfl rfl).insert ?_ ?_
      · rw [hstat]
        simp
      · rw [setThread_thread_self]
      · rw [setThread_thread_self]
        exact htimer
  | @suspend s t hc hawake =>
      obtain ⟨hready, hinit⟩ := hinv.running.of_current hc
      have htimer : (s.thread t).timer.activated = false := by
        rw [← Bool.not_eq_true]
        intro hactive
        rw [Thread.Awake, hinv.clock.asleep t hactive] at hawake
        exact absurd hawake (by decide)
      exact hinv.putAside (f := fun th => { th with stat := .suspend }) hready htimer (Or.inl rfl)
        (hinv.table.mask t hinit) rfl
  | @arm s t tick hc hstat htick =>
      have hset := hinv.adjust (t := t) (f := fun th =>
        { th with timer := { th.timer with initTick := tick } }) rfl rfl rfl rfl rfl
      refine hset.start (hnow t rfl) ?_ ?_
      · rw [setThread_thread_self]
        exact hstat
      · rw [setThread_thread_self]
        exact htick
  | @close s t hc =>
      obtain ⟨hready, hinit⟩ := hinv.running.of_current hc
      have hstat := clearTimer_stat t s t
      refine (hinv.clearTimer t).putAside (f := fun th => { th with stat := .close, yields := false })
        (hstat.trans_ne hready) ?_ (Or.inr rfl) ?_ rfl
      · simp [clearTimer, setActivated]
      · rw [clearTimer_proj Thread.numberMask (fun _ _ => rfl),
          clearTimer_proj Thread.currentPriority (fun _ _ => rfl)]
        exact hinv.table.mask t hinit

end Preserved

/-! ### The calls as moves -/

/-- The moves that a call or an interrupt is made of. -/
def Action.Allows : Action ι → Label ι → Prop
  | .tick, label => label = .clock ∨ label = .slice ∨ label = .refill ∨ label = .schedule ∨
      ∃ t, label = .wake t
  | .schedule, label => label = .schedule
  | .sleep _, label => label = .adjust ∨ ∃ t, label = .suspend t ∨ label = .arm t
  | .sleepReturn, label => label = .adjust
  | .yield, label => label = .refill ∨ label = .schedule
  | .suspend, label => ∃ t, label = .suspend t
  | .resume t, label => label = .resume t
  | .startup t, label => label = .start t
  | .exit, label => ∃ t, label = .close t
  | .enterCritical, label => label = .lock
  | .exitCritical, label => label = .lock

/-- A sequence of moves with the labels allowed, each from a state in order. -/
def Moves (allowed : Label ι → Prop) : State ι → State ι → Prop :=
  Relation.ReflTransGen fun s s' =>
    ∃ label, allowed label ∧ (∃ now, State.Inv now s) ∧ Move label s s'

theorem Moves.weaken {allowed allowed' : Label ι → Prop} {s s' : State ι}
    (h : Moves allowed s s') (hle : ∀ label, allowed label → allowed' label) :
    Moves allowed' s s' := by
  induction h with
  | refl => exact Relation.ReflTransGen.refl
  | tail _ hstep ih =>
      obtain ⟨label, hlabel, hmove⟩ := hstep
      exact ih.tail ⟨label, hle label hlabel, hmove⟩

/-- The timer check wakes one thread and schedules. -/
def Woken (s s' : State ι) : Prop :=
  ∃ t s₁, (∃ now, State.Inv now s) ∧ Move (.wake t) s s₁ ∧ State.Scheduled s₁ s'

theorem Woken.moves {s s' : State ι} (h : Relation.ReflTransGen Woken s s') :
    Moves (Action.Allows .tick) s s' := by
  induction h with
  | refl => exact Relation.ReflTransGen.refl
  | tail _ hstep ih =>
      obtain ⟨t, s₁, ⟨now, hinv⟩, hwake, hscheduled⟩ := hstep
      exact (ih.tail ⟨_, Or.inr (Or.inr (Or.inr (Or.inr ⟨t, rfl⟩))), ⟨now, hinv⟩, hwake⟩).tail
        ⟨_, Or.inr (Or.inr (Or.inr (Or.inl rfl))), ⟨now, hwake.inv hinv (by simp)⟩,
          .schedule hscheduled⟩

/-- What the source asks of its callers: sleeps are shorter than half the clock, no thread
sleeps after its end, and a thread is started once. -/
def Admissible (s : State ι) : Action ι → Prop
  | .sleep tick => tick < halfTickMax ∧
      ∀ c, s.rtCurrentThread = some c → (s.thread c).stat ≠ .close
  | .startup t => (s.thread t).stat = .init
  | _ => True

/-- The kernel is in order. -/
def Ordered (s : State ι) : Prop := State.Inv s.rtTick s

section Calls
open State
variable {now : BitVec 32} {s s' : State ι} {c : ι}

theorem rtThreadSuspend_spec (hinv : Inv now s) (hc : s.rtCurrentThread = some c)
    (hawake : (s.thread c).Awake) : s.rtThreadSuspend c = some (s.setStat c .suspend) := by
  obtain ⟨hready, hinit⟩ := hinv.running.of_current hc
  have htimer : (s.thread c).timer.activated ≠ true := by
    intro hactive
    rw [Thread.Awake, hinv.clock.asleep c hactive] at hawake
    exact absurd hawake (by decide)
  have htimer' : ((s.setStat c .suspend).thread c).timer.activated ≠ true := by
    rw [setStat, setThread_thread_self]
    exact htimer
  have hstat : (s.thread c).stat = .ready ∨ (s.thread c).stat = .running := hawake
  rw [rtThreadSuspend, if_pos hc, if_pos hstat, hinv.table.remove_absent hready hinit,
    rtTimerStop, if_neg htimer']

theorem rtThreadResume_spec (hinv : Inv now s) {t : ι} (ht : (s.thread t).stat = .suspend) :
    s.rtThreadResume t = (s.clearTimer t).rtScheduleInsertThread t := by
  rw [rtThreadResume, if_pos ht, hinv.table.unlinkThread (by rw [ht]; simp),
    hinv.clock.rtTimerStop_eq]

theorem rtThreadStartup_spec (hinv : Inv now s) {t : ι} (ht : (s.thread t).stat = .init) :
    s.rtThreadStartup t = some ((s.setThread t fun th =>
      { th with numberMask := 1#32 <<< th.currentPriority.val, stat := .suspend,
                yields := false }).rtScheduleInsertThread t) := by
  have htimer : (s.thread t).timer.activated = false := by
    rw [← Bool.not_eq_true]
    intro hactive
    rw [hinv.clock.asleep t hactive] at ht
    exact Stat.noConfusion ht
  have haside := hinv.putAside (t := t) (f := fun th =>
    { th with numberMask := 1#32 <<< th.currentPriority.val, stat := .suspend, yields := false })
    (by rw [ht]; simp) htimer (Or.inl rfl) rfl rfl
  have hstat : ((s.setThread t fun th =>
      { th with numberMask := 1#32 <<< th.currentPriority.val, stat := .suspend,
                yields := false }).thread t).stat = .suspend := by
    rw [setThread_thread_self]
  rw [rtThreadStartup, if_pos ht, rtThreadResume_spec haside hstat,
    haside.clock.clearTimer_absent (by rw [setThread_thread_self]; exact htimer)]

theorem threadTimeout_spec (hinv : Inv now s) {t : ι}
    (hactive : (s.thread t).timer.activated = true)
    (hdue : Due halfTickMax s.rtTick (s.thread t).timer.timeoutTick) :
    ∃ s', (s.clearTimer t).threadTimeout t = some s' ∧ Inv now s' ∧ s'.rtTick = s.rtTick ∧
      s'.timerList = s.timerList.erase t ∧ Woken s s' := by
  have hwake : Move (.wake t) s _ := .wake hactive hdue
  have hinv' := hwake.inv hinv (by simp)
  obtain ⟨s', hs', hscheduled⟩ := rtSchedule_spec hinv'.table hinv'.running
  have hstat : ((s.clearTimer t).thread t).stat = .suspend :=
    (clearTimer_stat t s t).trans (hinv.clock.asleep t hactive)
  have hclear := (hinv.clearTimer t).adjust (t := t) (f := fun th => { th with error := .etimeout })
    rfl rfl rfl rfl rfl
  have hunlink := hclear.table.unlinkThread (t := t) (by rw [setThread_thread_self, hstat]; simp)
  have hframe := rtScheduleInsertThread_frame t
    ((s.clearTimer t).setThread t fun th => { th with error := .etimeout })
  refine ⟨s', ?_, hscheduled.inv hinv', ?_, ?_, ?_⟩
  · rw [threadTimeout, if_pos hstat, hunlink]
    exact hs'
  · exact hscheduled.frame.1.trans hframe.1
  · exact hscheduled.frame.2.1.trans hframe.2.1
  · exact ⟨t, _, ⟨now, hinv⟩, hwake, hscheduled⟩

/-- The timer check wakes the threads whose timers are due, and none of those left is. -/
theorem timerCheckLoop_spec (hinv : Inv now s) (hnow : s.rtTick = now + 1) {fuel : ℕ}
    (hfuel : s.timerList.length ≤ fuel) :
    ∃ s', timerCheckLoop fuel s = some s' ∧ Inv now s' ∧ s'.rtTick = now + 1 ∧
      (∀ t ∈ s'.timerList, ¬ Due halfTickMax (now + 1) (s'.timeouts t)) ∧
      Relation.ReflTransGen Woken s s' := by
  induction fuel generalizing s with
  | zero =>
      have hnil : s.timerList = [] := List.eq_nil_of_length_eq_zero (Nat.le_zero.mp hfuel)
      refine ⟨s, rfl, hinv, hnow, ?_, Relation.ReflTransGen.refl⟩
      rw [hnil]
      simp
  | succ fuel ih =>
      cases hlist : s.timerList with
      | nil =>
          refine ⟨s, ?_, hinv, hnow, ?_, Relation.ReflTransGen.refl⟩
          · simp [timerCheckLoop, hlist]
          · rw [hlist]
            simp
      | cons t ts =>
          have hactive := (hinv.clock.mem t).mp (hlist ▸ List.mem_cons_self)
          by_cases hdue : Due halfTickMax s.rtTick (s.thread t).timer.timeoutTick
          · obtain ⟨s₁, hs₁, hinv₁, hnow₁, hlist₁, hwoken⟩ := threadTimeout_spec hinv hactive hdue
            rw [hlist, List.erase_cons_head] at hlist₁
            have hfuel₁ : s₁.timerList.length ≤ fuel := by
              rw [hlist₁]
              rw [hlist, List.length_cons] at hfuel
              omega
            obtain ⟨s', hs', hinv', hnow', hdue', hmoves'⟩ := ih hinv₁ (hnow₁.trans hnow) hfuel₁
            refine ⟨s', ?_, hinv', hnow', hdue', hmoves'.head hwoken⟩
            rw [clearTimer] at hs₁
            simp [timerCheckLoop, hlist, hdue, hs₁, hs']
          · refine ⟨s, ?_, hinv, hnow, ?_, Relation.ReflTransGen.refl⟩
            · simp [timerCheckLoop, hlist, hdue]
            · rw [hnow] at hdue
              have hsorted := hlist ▸ hinv.clock.sorted
              have hnear := hlist ▸ hinv.clock.near
              rw [hlist]
              exact hsorted.not_due (by decide) (by decide) hnear hdue

omit [DecidableEq ι] in
/-- With no timer due the order holds for the next tick. -/
theorem Inv.succ (hinv : Inv now s)
    (hdue : ∀ t ∈ s.timerList, ¬ Due halfTickMax (now + 1) (s.timeouts t)) : Inv (now + 1) s := by
  have hpos (t : ι) (ht : t ∈ s.timerList) : remaining now (s.timeouts t) ≠ 0 := by
    intro hzero
    refine hdue t ht ((due_succ_iff (by decide) (by decide) (hinv.clock.near t ht)).mpr ?_)
    omega
  exact ⟨hinv.table, ⟨hinv.clock.mem, hinv.clock.nodup, hinv.clock.sorted.succ hpos,
    hinv.clock.near.succ hpos, hinv.clock.asleep⟩, hinv.running⟩

/-- The current thread at the end of its time slice. -/
def refilled (c : ι) (s : State ι) : State ι :=
  s.setThread c fun th => { th with remainingTick := th.initTick, yields := true }

/-- The time slice after a tick: one tick less, or a new slice and a scheduling. -/
def Sliced (c : ι) (s s' : State ι) : Prop :=
  let s₁ := s.setThread c fun th => { th with remainingTick := th.remainingTick - 1 }
  (s.thread c).remainingTick - 1 ≠ 0 ∧ s' = s₁ ∨
    (s.thread c).remainingTick - 1 = 0 ∧ Scheduled (refilled c s₁) s'

/-- The moves of the time slice. -/
def Label.Slices (label : Label ι) : Prop :=
  label = .slice ∨ label = .refill ∨ label = .schedule

omit [DecidableEq ι] in
theorem Label.Slices.tick {label : Label ι} (h : label.Slices) :
    Action.Allows .tick label := by
  rcases h with h | h | h
  · exact Or.inr (Or.inl h)
  · exact Or.inr (Or.inr (Or.inl h))
  · exact Or.inr (Or.inr (Or.inr (Or.inl h)))

theorem Sliced.moves (h : Sliced c s s') (hinv : Inv now s) (hc : s.rtCurrentThread = some c) :
    Moves Label.Slices s s' := by
  have hslice : Move .slice s _ := .slice hc
  have hinv₁ := hslice.inv hinv (by simp)
  have hmoves : Moves Label.Slices s _ :=
    Relation.ReflTransGen.single ⟨_, Or.inl rfl, ⟨now, hinv⟩, hslice⟩
  rcases h with ⟨-, rfl⟩ | ⟨-, hscheduled⟩
  · exact hmoves
  · have hrefill := Move.refill (s := s.setThread c fun th =>
      { th with remainingTick := th.remainingTick - 1 }) hc
    exact (hmoves.tail ⟨_, Or.inr (Or.inl rfl), ⟨now, hinv₁⟩, hrefill⟩).tail
      ⟨_, Or.inr (Or.inr rfl), ⟨now, hrefill.inv hinv₁ (by simp)⟩, .schedule hscheduled⟩

theorem timeSlice_spec (hinv : Inv now s) (hc : s.rtCurrentThread = some c) :
    ∃ s', s.timeSlice c = some s' ∧ Sliced c s s' ∧ Inv now s' ∧ s'.rtTick = s.rtTick := by
  have hslice : Move .slice s _ := .slice hc
  have hinv₁ := hslice.inv hinv (by simp)
  have hremaining : ((s.setThread c fun th =>
      { th with remainingTick := th.remainingTick - 1 }).thread c).remainingTick =
        (s.thread c).remainingTick - 1 := by
    rw [setThread_thread_self]
  by_cases hzero : (s.thread c).remainingTick - 1 = 0
  · have hrefill := Move.refill (s := s.setThread c fun th =>
      { th with remainingTick := th.remainingTick - 1 }) hc
    have hinv₂ := hrefill.inv hinv₁ (by simp)
    obtain ⟨s', hs', hscheduled⟩ := rtSchedule_spec hinv₂.table hinv₂.running
    refine ⟨s', ?_, Or.inr ⟨hzero, hscheduled⟩, hscheduled.inv hinv₂, hscheduled.frame.1⟩
    rw [timeSlice, if_pos (hremaining.trans hzero)]
    exact hs'
  · refine ⟨_, ?_, Or.inl ⟨hzero, rfl⟩, hinv₁, rfl⟩
    rw [timeSlice, if_neg fun h => hzero (hremaining.symm.trans h)]

/-- A clock interrupt: the time slice, and the sleeping threads whose time has come. -/
theorem rtTickIncrease_spec (hinv : Ordered s) (hc : s.rtCurrentThread = some c) :
    ∃ s₁ s', s.rtTickIncrease = some s' ∧ Sliced c { s with rtTick := s.rtTick + 1 } s₁ ∧
      Inv s.rtTick s₁ ∧ s₁.rtTick = s.rtTick + 1 ∧ Relation.ReflTransGen Woken s₁ s' ∧
      Ordered s' ∧ s'.rtTick = s.rtTick + 1 ∧
      ∀ t ∈ s'.timerList, ¬ Due halfTickMax s'.rtTick (s'.timeouts t) := by
  have hclock : Move .clock s _ := .clock
  have hinv₀ := hclock.inv hinv (by simp)
  obtain ⟨s₁, hs₁, hsliced, hinv₁, hnow₁⟩ := timeSlice_spec hinv₀ hc
  obtain ⟨s', hs', hinv', hnow', hdue, hwoken⟩ := timerCheckLoop_spec hinv₁ hnow₁ (Nat.le_refl _)
  refine ⟨s₁, s', ?_, hsliced, hinv₁, hnow₁, hwoken, ?_, hnow', ?_⟩
  · simp only [rtTickIncrease, hc, Option.bind_eq_bind, Option.bind_some]
    rw [← hc, hs₁]
    exact hs'
  · rw [Ordered, hnow']
    exact Inv.succ hinv' hdue
  · rw [hnow']
    exact hdue

/-- The current thread that has not ended suspends itself, if it is not suspended. -/
theorem rtThreadSuspend_cases (hinv : Inv now s) (hc : s.rtCurrentThread = some c)
    (hclose : (s.thread c).stat ≠ .close) :
    ∃ s', s.rtThreadSuspend c = some s' ∧ (Move (.suspend c) s s' ∨ s' = s) ∧
      s'.rtCurrentThread = some c ∧ s'.rtTick = s.rtTick ∧ (s'.thread c).stat = .suspend ∧
      Inv now s' := by
  obtain ⟨hready, hinit⟩ := hinv.running.of_current hc
  cases hstat : (s.thread c).stat with
  | init => exact absurd hstat hinit
  | ready => exact absurd hstat hready
  | close => exact absurd hstat hclose
  | running =>
      have hmove := Move.suspend hc (Or.inr hstat)
      refine ⟨_, rtThreadSuspend_spec hinv hc (Or.inr hstat), Or.inl hmove, hc, rfl, ?_,
        hmove.inv hinv (by simp)⟩
      rw [setStat, setThread_thread_self]
  | suspend =>
      refine ⟨s, ?_, Or.inr rfl, hc, rfl, hstat, hinv⟩
      rw [rtThreadSuspend, if_pos hc, hstat, if_neg (by decide)]

/-- After `rt_thread_sleep` the thread waits for the end of its timer. -/
theorem rtThreadSleep_spec (hinv : Ordered s) (hc : s.rtCurrentThread = some c)
    {tick : BitVec 32} (htick : tick < halfTickMax) (hclose : (s.thread c).stat ≠ .close) :
    ∃ s', s.rtThreadSleep tick = some s' ∧ Ordered s' ∧ s'.rtTick = s.rtTick ∧
      s'.rtCurrentThread = some c ∧ (s'.thread c).stat = .suspend ∧
      (s'.thread c).timer = ⟨tick, s.rtTick + tick, true⟩ ∧
      Moves (Action.Allows (.sleep tick)) s s' := by
  have hadjust : Move .adjust s _ := .adjust c .eok
  have hinv₁ := hadjust.inv hinv (by simp)
  obtain ⟨s₂, hs₂, hmove₂, hc₂, hnow₂, hstat₂, hinv₂⟩ := rtThreadSuspend_cases hinv₁ (c := c) hc
    (by rw [setThread_thread_self]; exact hclose)
  have hmoves₂ : Moves (Action.Allows (.sleep tick)) s s₂ := by
    rcases hmove₂ with hmove | rfl
    · exact (Relation.ReflTransGen.single ⟨_, Or.inl rfl, ⟨_, hinv⟩, hadjust⟩).tail
        ⟨_, Or.inr ⟨c, Or.inl rfl⟩, ⟨_, hinv₁⟩, hmove⟩
    · exact Relation.ReflTransGen.single ⟨_, Or.inl rfl, ⟨_, hinv⟩, hadjust⟩
  have hnow₂ : s₂.rtTick = s.rtTick := hnow₂
  have harm := Move.arm tick hc₂ hstat₂ htick
  have hinv₃ := harm.inv hinv₂ fun _ _ => hnow₂
  have hstat₃ := rtTimerStart_thread_self c
    (s₂.setThread c fun th => { th with timer := { th.timer with initTick := tick } })
  rw [setThread_thread_self] at hstat₃
  refine ⟨(s₂.setThread c fun th =>
    { th with timer := { th.timer with initTick := tick } }).rtTimerStart c, ?_, ?_, hnow₂, hc₂,
    ?_, ?_, hmoves₂.tail ⟨_, Or.inr ⟨c, Or.inr rfl⟩, ⟨_, hinv₂⟩, harm⟩⟩
  · simp only [rtThreadSleep, hc, hs₂, rtTimerSetTime, if_pos htick, Option.bind_eq_bind,
      Option.bind_some]
  · rw [Ordered]
    exact hnow₂.symm ▸ hinv₃
  · rw [hstat₃]
    exact hstat₂
  · rw [hstat₃, ← hnow₂]
    rfl

/-- A call that is one move. -/
theorem Move.moves {label : Label ι} {a : Action ι} (h : Move label s s') (hinv : Ordered s)
    (harm : ∀ t, label ≠ .arm t) (hallows : a.Allows label) (hstep : step s a = some s')
    (htick : s'.rtTick = s.rtTick) :
    ∃ s', step s a = some s' ∧ Ordered s' ∧ Moves a.Allows s s' := by
  refine ⟨s', hstep, ?_, Relation.ReflTransGen.single ⟨label, hallows, ⟨_, hinv⟩, h⟩⟩
  rw [Ordered, htick]
  exact h.inv hinv fun t ht => absurd ht (harm t)

/-- A call that does nothing. -/
theorem unmoved {a : Action ι} (hinv : Ordered s) (hstep : step s a = some s) :
    ∃ s', step s a = some s' ∧ Ordered s' ∧ Moves a.Allows s s' :=
  ⟨s, hstep, hinv, Relation.ReflTransGen.refl⟩

theorem tick_moves (hinv : Ordered s) (hc : s.rtCurrentThread = some c) :
    ∃ s', step s .tick = some s' ∧ Ordered s' ∧ Moves (Action.Allows .tick) s s' := by
  obtain ⟨s₁, s', hs', hsliced, -, -, hwoken, hinv', -⟩ := rtTickIncrease_spec hinv hc
  have hclock : Move .clock s _ := .clock
  have hmoves := Moves.weaken (hsliced.moves (hclock.inv hinv (by simp)) hc)
    fun _ => Label.Slices.tick
  exact ⟨s', hs', hinv', (Relation.ReflTransGen.head ⟨_, Or.inl rfl, ⟨_, hinv⟩, hclock⟩
    hmoves).trans (Woken.moves hwoken)⟩

theorem schedule_moves (hinv : Ordered s) :
    ∃ s', step s .schedule = some s' ∧ Ordered s' ∧ Moves (Action.Allows .schedule) s s' := by
  obtain ⟨s', hs', hscheduled⟩ := rtSchedule_spec hinv.table hinv.running
  exact (Move.schedule hscheduled).moves hinv (by simp) rfl hs'
    hscheduled.frame.1

theorem sleepReturn_moves (hinv : Ordered s) (hc : s.rtCurrentThread = some c) :
    ∃ s', step s .sleepReturn = some s' ∧ Ordered s' ∧ Moves (Action.Allows .sleepReturn) s s' := by
  by_cases herror : (s.thread c).error = .etimeout
  · have hadjust : Move .adjust s _ := .adjust c .eok
    refine hadjust.moves hinv (by simp) rfl ?_ rfl
    simp [step, rtThreadSleepReturn, hc, herror]
  · refine unmoved hinv ?_
    simp [step, rtThreadSleepReturn, hc, herror]

theorem yield_moves (hinv : Ordered s) (hc : s.rtCurrentThread = some c) :
    ∃ s', step s .yield = some s' ∧ Ordered s' ∧ Moves (Action.Allows .yield) s s' := by
  have hrefill := Move.refill hc
  have hinv₁ := hrefill.inv hinv (by simp)
  obtain ⟨s', hs', hscheduled⟩ := rtSchedule_spec hinv₁.table hinv₁.running
  refine ⟨s', ?_, ?_, ?_⟩
  · simp [step, rtThreadYield, hc, hs']
  · rw [Ordered, hscheduled.frame.1]
    exact hscheduled.inv hinv₁
  · exact (Relation.ReflTransGen.single ⟨_, Or.inl rfl, ⟨_, hinv⟩, hrefill⟩).tail
      ⟨_, Or.inr rfl, ⟨_, hinv₁⟩, .schedule hscheduled⟩

theorem suspend_moves (hinv : Ordered s) (hc : s.rtCurrentThread = some c) :
    ∃ s', step s .suspend = some s' ∧ Ordered s' ∧ Moves (Action.Allows .suspend) s s' := by
  by_cases hawake : (s.thread c).Awake
  · refine (Move.suspend hc hawake).moves hinv (by simp) ⟨c, rfl⟩ ?_ rfl
    rw [step, hc]
    exact rtThreadSuspend_spec hinv hc hawake
  · refine unmoved hinv ?_
    have hstat : ¬ ((s.thread c).stat = .ready ∨ (s.thread c).stat = .running) := hawake
    rw [step, hc, Option.bind_some, rtThreadSuspend, if_pos hc, if_neg hstat]

theorem resume_moves (hinv : Ordered s) (t : ι) :
    ∃ s', step s (.resume t) = some s' ∧ Ordered s' ∧ Moves (Action.Allows (.resume t)) s s' := by
  by_cases hstat : (s.thread t).stat = .suspend
  · exact (Move.resume hstat).moves hinv (by simp) rfl
      (congrArg some (rtThreadResume_spec hinv hstat)) (rtScheduleInsertThread_frame t _).1
  · refine unmoved hinv ?_
    rw [step, rtThreadResume, if_neg hstat]

theorem startup_moves (hinv : Ordered s) {t : ι} (ht : (s.thread t).stat = .init) :
    ∃ s', step s (.startup t) = some s' ∧ Ordered s' ∧
      Moves (Action.Allows (.startup t)) s s' := by
  refine (Move.start ht).moves hinv (by simp) rfl ?_
    (rtScheduleInsertThread_frame t _).1
  rw [step, rtThreadStartup_spec hinv ht]

theorem exit_moves (hinv : Ordered s) (hc : s.rtCurrentThread = some c) :
    ∃ s', step s .exit = some s' ∧ Ordered s' ∧ Moves (Action.Allows .exit) s s' := by
  obtain ⟨hready, hinit⟩ := hinv.running.of_current hc
  refine (Move.close hc).moves hinv (by simp) ⟨c, rfl⟩ ?_ rfl
  simp only [step, threadExit, hc, Option.bind_eq_bind, Option.bind_some]
  rw [hinv.table.remove_absent hready hinit]
  rfl

/-- A call that its caller may make does not fail, leaves the kernel in order, and is a
sequence of moves of its kind. -/
theorem step_moves (hinv : Ordered s) {a : Action ι} (ha : Admissible s a) :
    ∃ s', step s a = some s' ∧ Ordered s' ∧ Moves a.Allows s s' := by
  obtain ⟨c, hc, -⟩ := hinv.running.current
  cases a with
  | tick => exact tick_moves hinv hc
  | schedule => exact schedule_moves hinv
  | sleep tick =>
      obtain ⟨s', hs', hinv', -, -, -, -, hmoves⟩ := rtThreadSleep_spec hinv hc ha.1 (ha.2 c hc)
      exact ⟨s', hs', hinv', hmoves⟩
  | sleepReturn => exact sleepReturn_moves hinv hc
  | yield => exact yield_moves hinv hc
  | suspend => exact suspend_moves hinv hc
  | resume t => exact resume_moves hinv t
  | startup t => exact startup_moves hinv ha
  | exit => exact exit_moves hinv hc
  | enterCritical =>
      exact (Move.lock (s.rtSchedulerLockNest + 1)).moves hinv (by simp)
        rfl rfl rfl
  | exitCritical =>
      exact (Move.lock s.rtExitCritical.rtSchedulerLockNest).moves hinv
        (by simp) rfl rfl rfl

end Calls

end ExpertCar.Kernel
