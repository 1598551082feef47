import ExpertCar.Kernel

/-!
# The tables of the kernel

The ready threads stand in the ready table and the active timers in the list of
timers, each once and in its place. What the kernel does to a thread goes with what
it does to these tables, so both stay true to the states of the threads.
-/
namespace ExpertCar.Kernel
open PriorityBuckets TickOrder
variable {ι : Type*}

def Thread.Awake (th : Thread) : Prop := th.stat = .ready ∨ th.stat = .running

instance (th : Thread) : Decidable th.Awake := inferInstanceAs (Decidable (_ ∨ _))

namespace State

def timeouts (s : State ι) (t : ι) : BitVec 32 := (s.thread t).timer.timeoutTick

/-- The ready threads are in the ready table, each in the queue of its priority. -/
structure Table (s : State ι) : Prop where
  filed : s.ready.Filed (fun t => (s.thread t).stat = .ready)
    (fun t => (s.thread t).currentPriority.val)
  mask : ∀ t, (s.thread t).stat ≠ .init →
    (s.thread t).numberMask = 1#32 <<< (s.thread t).currentPriority.val

/-- The active timers are those of sleeping threads, and listed in the order in which
they expire after `now`. -/
structure Clock (now : BitVec 32) (s : State ι) : Prop where
  mem : ∀ t, t ∈ s.timerList ↔ (s.thread t).timer.activated = true
  nodup : s.timerList.Nodup
  sorted : Sorted now s.timeouts s.timerList
  near : Near halfTickMax now s.timeouts s.timerList
  asleep : ∀ t, (s.thread t).timer.activated = true → (s.thread t).stat = .suspend

/-- No thread but the current one runs. -/
structure Running (s : State ι) : Prop where
  current : ∃ c, s.rtCurrentThread = some c ∧ (s.thread c).stat ≠ .ready ∧
    (s.thread c).stat ≠ .init
  alone : ∀ t, (s.thread t).stat = .running → s.rtCurrentThread = some t

structure Inv (now : BitVec 32) (s : State ι) : Prop where
  table : Table s
  clock : Clock now s
  running : Running s

/-! ### The ready table -/

theorem Table.congr {s s' : State ι} (h : Table s) (hready : s'.ready = s.ready)
    (hstat : ∀ t, (s'.thread t).stat = (s.thread t).stat)
    (hpriority : ∀ t, (s'.thread t).currentPriority = (s.thread t).currentPriority)
    (hmask : ∀ t, (s'.thread t).numberMask = (s.thread t).numberMask) : Table s' := by
  refine ⟨?_, fun t ht => ?_⟩
  · rw [hready]
    exact h.filed.congr (fun t => by rw [hstat]) (fun t _ => by rw [hpriority])
  · rw [hmask, hpriority]
    rw [hstat] at ht
    exact h.mask t ht

theorem Table.not_mem {s : State ι} (h : Table s) {t : ι} (ht : (s.thread t).stat ≠ .ready)
    (p : ℕ) : t ∉ s.ready.lists p := h.filed.not_mem ht p

variable [DecidableEq ι]

theorem Table.unlinkThread {s : State ι} (h : Table s) {t : ι} (ht : (s.thread t).stat ≠ .ready) :
    s.unlinkThread t = s := by
  have hlists : (s.ready.unlink t).lists = s.ready.lists :=
    funext fun p => List.erase_of_not_mem (h.not_mem ht p)
  have hunlink : s.ready.unlink t = s.ready :=
    congrArg (fun lists => (⟨lists, s.ready.group⟩ : Buckets 32 ι)) hlists
  rw [State.unlinkThread, hunlink]

theorem Table.remove_absent {s : State ι} (h : Table s) {t : ι}
    (ht : (s.thread t).stat ≠ .ready) (hinit : (s.thread t).stat ≠ .init) :
    s.rtScheduleRemoveThread t = s := by
  have hremove := h.filed.remove_absent ht (s.thread t).currentPriority.isLt
  rw [rtScheduleRemoveThread, h.mask t hinit, hremove]

/-- A thread outside the table may change as long as it stays outside. -/
theorem Table.setThread {s : State ι} (h : Table s) {t : ι} {f : Thread → Thread}
    (ht : (s.thread t).stat ≠ .ready) (hf : (f (s.thread t)).stat ≠ .ready)
    (hmask : (f (s.thread t)).stat ≠ .init →
      (f (s.thread t)).numberMask = 1#32 <<< (f (s.thread t)).currentPriority.val) :
    Table (s.setThread t f) := by
  refine ⟨h.filed.congr (fun u => ?_) (fun u hu => ?_), fun u hu => ?_⟩
  · by_cases hut : u = t
    · subst hut
      rw [setThread_thread_self]
      exact iff_of_false hf ht
    · rw [setThread_thread_of_ne hut]
  · have hut : u ≠ t := fun h => ht (h ▸ hu)
    rw [setThread_thread_of_ne hut]
  · by_cases hut : u = t
    · subst hut
      rw [setThread_thread_self] at hu ⊢
      exact hmask hu
    · rw [setThread_thread_of_ne hut] at hu ⊢
      exact h.mask u hu

theorem Table.insert {s : State ι} (h : Table s) {t : ι} (ht : (s.thread t).stat ≠ .ready)
    (hinit : (s.thread t).stat ≠ .init) : Table (s.rtScheduleInsertThread t) := by
  have hpriority (u : ι) : ((s.setStat t .ready).thread u).currentPriority =
      (s.thread u).currentPriority := setThread_thread_proj Thread.currentPriority rfl u
  have hmask (u : ι) : ((s.setStat t .ready).thread u).numberMask = (s.thread u).numberMask :=
    setThread_thread_proj Thread.numberMask rfl u
  unfold rtScheduleInsertThread
  split_ifs
  · exact h.setThread ht (by simp) fun _ => h.mask t hinit
  · have hready (u : ι) : ((s.setStat t .ready).thread u).stat = .ready ↔
        (s.thread u).stat = .ready ∨ u = t := by
      by_cases hut : u = t
      · subst hut
        simp [setStat]
      · rw [setStat, setThread_thread_of_ne hut]
        simp [hut]
    refine ⟨?_, fun u hu => ?_⟩
    · dsimp only
      rw [hpriority t, hmask t, h.mask t hinit]
      exact (h.filed.push ht (s.thread t).currentPriority.isLt hready).congr
        (fun u => Iff.rfl) fun u _ => by rw [hpriority]
    · rw [hpriority, hmask]
      by_cases hut : u = t
      · subst hut
        exact h.mask u hinit
      · rw [setStat, setThread_thread_of_ne hut] at hu
        exact h.mask u hu

/-- Out of the table, and no longer ready. -/
theorem Table.release {s : State ι} (h : Table s) {t : ι} {f : Thread → Thread}
    (hinit : (s.thread t).stat ≠ .init) (hf : (f (s.thread t)).stat ≠ .ready)
    (hpriority : (f (s.thread t)).currentPriority = (s.thread t).currentPriority)
    (hmask : (f (s.thread t)).numberMask = (s.thread t).numberMask) :
    Table ((s.rtScheduleRemoveThread t).setThread t f) := by
  have hpriority (u : ι) : (((s.rtScheduleRemoveThread t).setThread t f).thread u).currentPriority =
      (s.thread u).currentPriority := setThread_thread_proj Thread.currentPriority hpriority u
  have hmask (u : ι) : (((s.rtScheduleRemoveThread t).setThread t f).thread u).numberMask =
      (s.thread u).numberMask := setThread_thread_proj Thread.numberMask hmask u
  have hready (u : ι) : (((s.rtScheduleRemoveThread t).setThread t f).thread u).stat = .ready ↔
      (s.thread u).stat = .ready ∧ u ≠ t := by
    by_cases hut : u = t
    · subst hut
      rw [setThread_thread_self]
      exact iff_of_false hf fun h => h.2 rfl
    · rw [setThread_thread_of_ne hut]
      exact (and_iff_left hut).symm
  refine ⟨?_, fun u hu => ?_⟩
  · have hremove := h.filed.remove (s.thread t).currentPriority.isLt hready
    rw [← h.mask t hinit] at hremove
    exact hremove.congr (fun u => Iff.rfl) fun u _ => by rw [hpriority]
  · rw [hpriority, hmask]
    by_cases hut : u = t
    · subst hut
      exact h.mask u hinit
    · rw [setThread_thread_of_ne hut] at hu
      exact h.mask u hu

/-! ### The timers -/

/-- The timer of `t` off the list, whether it was on it or not. -/
def clearTimer (t : ι) (s : State ι) : State ι := (s.timerRemove t).setActivated t false

/-- A field that does not depend on the timer is kept. -/
theorem clearTimer_proj {α : Type*} (g : Thread → α)
    (hg : ∀ (th : Thread) (timer : Timer), g { th with timer := timer } = g th) (t : ι)
    (s : State ι) (u : ι) : g ((s.clearTimer t).thread u) = g (s.thread u) :=
  setThread_thread_proj (t := t) (s := s.timerRemove t)
    (f := fun th => { th with timer := { th.timer with activated := false } }) g (hg _ _) u

theorem clearTimer_stat (t : ι) (s : State ι) (u : ι) :
    ((s.clearTimer t).thread u).stat = (s.thread u).stat :=
  clearTimer_proj Thread.stat (fun _ _ => rfl) t s u

theorem clearTimer_timeouts (t : ι) (s : State ι) : (s.clearTimer t).timeouts = s.timeouts := by
  funext u
  exact setThread_thread_proj (t := t) (s := s.timerRemove t)
    (f := fun th => { th with timer := { th.timer with activated := false } })
    (fun th => th.timer.timeoutTick) rfl u

theorem clearTimer_activated (t : ι) (s : State ι) (u : ι) :
    ((s.clearTimer t).thread u).timer.activated = true ↔
      (s.thread u).timer.activated = true ∧ u ≠ t := by
  by_cases hut : u = t
  · subst hut
    simp [clearTimer, setActivated]
  · rw [clearTimer, setActivated, setThread_thread_of_ne hut]
    exact (and_iff_left hut).symm

section Clock
variable {now : BitVec 32} {s s' : State ι}

omit [DecidableEq ι] in
theorem Clock.congr (h : Clock now s) (hlist : s'.timerList = s.timerList)
    (htimeout : ∀ t, (s'.thread t).timer.timeoutTick = (s.thread t).timer.timeoutTick)
    (hactivated : ∀ t, (s'.thread t).timer.activated = (s.thread t).timer.activated)
    (hstat : ∀ t, (s.thread t).stat = .suspend → (s.thread t).timer.activated = true →
      (s'.thread t).stat = .suspend) : Clock now s' := by
  have htimeouts : s'.timeouts = s.timeouts := funext htimeout
  refine ⟨fun t => ?_, ?_, ?_, ?_, fun t ht => ?_⟩
  · rw [hlist, hactivated]
    exact h.mem t
  · rw [hlist]
    exact h.nodup
  · rw [hlist, htimeouts]
    exact h.sorted
  · rw [hlist, htimeouts]
    exact h.near
  · rw [hactivated] at ht
    exact hstat t (h.asleep t ht) ht

theorem Clock.clearTimer (h : Clock now s) (t : ι) : Clock now (s.clearTimer t) := by
  have hlist : (s.clearTimer t).timerList = s.timerList.erase t := rfl
  refine ⟨fun u => ?_, ?_, ?_, ?_, fun u hu => ?_⟩
  · rw [hlist, h.nodup.mem_erase_iff, clearTimer_activated, h.mem, and_comm]
  · rw [hlist]
    exact h.nodup.erase t
  · rw [hlist, clearTimer_timeouts]
    exact List.Pairwise.sublist List.erase_sublist h.sorted
  · rw [hlist, clearTimer_timeouts]
    exact fun u hu => h.near u (List.mem_of_mem_erase hu)
  · rw [clearTimer_stat]
    exact h.asleep u ((clearTimer_activated t s u).mp hu).1

/-- A timer that is not active needs no clearing. -/
theorem Clock.clearTimer_absent (h : Clock now s) {t : ι}
    (ht : (s.thread t).timer.activated = false) : s.clearTimer t = s := by
  have hmem : t ∉ s.timerList := fun hmem => by
    rw [(h.mem t).mp hmem] at ht
    exact Bool.noConfusion ht
  have hself : (s.thread t).timer = { (s.thread t).timer with activated := false } := by
    rw [← ht]
  have hthread : ({ s.thread t with
      timer := { (s.thread t).timer with activated := false } } : Thread) = s.thread t := by
    rw [← hself]
  rw [State.clearTimer, timerRemove, List.erase_of_not_mem hmem, setActivated, setThread]
  dsimp only
  rw [hthread, Function.update_eq_self]

theorem Clock.rtTimerStop_eq (h : Clock now s) (t : ι) : s.rtTimerStop t = s.clearTimer t := by
  unfold rtTimerStop
  split_ifs with ht
  · rfl
  · exact (h.clearTimer_absent (Bool.eq_false_iff.mpr ht)).symm

theorem rtTimerStart_thread_self (t : ι) (s : State ι) :
    (s.rtTimerStart t).thread t = { s.thread t with
      timer := ⟨(s.thread t).timer.initTick, s.rtTick + (s.thread t).timer.initTick, true⟩ } := by
  simp [rtTimerStart, setActivated, timerRemove, setThread]

theorem rtTimerStart_thread_of_ne {t u : ι} (hut : u ≠ t) (s : State ι) :
    (s.rtTimerStart t).thread u = s.thread u := by
  simp [rtTimerStart, setActivated, timerRemove, setThread, hut]

/-- A field that does not depend on the timer is kept. -/
theorem rtTimerStart_proj {α : Type*} (g : Thread → α)
    (hg : ∀ (th : Thread) (timer : Timer), g { th with timer := timer } = g th) (t : ι)
    (s : State ι) (u : ι) : g ((s.rtTimerStart t).thread u) = g (s.thread u) := by
  by_cases hut : u = t
  · subst hut
    rw [rtTimerStart_thread_self, hg]
  · rw [rtTimerStart_thread_of_ne hut]

theorem rtTimerStart_timerList (t : ι) (s : State ι) :
    (s.rtTimerStart t).timerList =
      insertBefore halfTickMax (s.rtTimerStart t).timeouts t (s.timerList.erase t) := by
  have htimeouts : (s.rtTimerStart t).timeouts = fun u => ((((s.timerRemove t).setActivated t
      false).setThread t fun th => { th with timer := { th.timer with
        timeoutTick := s.rtTick + th.timer.initTick } }).thread u).timer.timeoutTick := by
    funext u
    by_cases hut : u = t
    · subst hut
      rw [timeouts, rtTimerStart_thread_self]
      simp [setActivated, timerRemove, setThread]
    · rw [timeouts, rtTimerStart_thread_of_ne hut]
      simp [setActivated, timerRemove, setThread, hut]
  rw [htimeouts]
  rfl

/-- A timer started less than half the clock ahead takes its place in the order. -/
theorem Clock.start (h : Clock now s) (hnow : s.rtTick = now) {t : ι}
    (ht : (s.thread t).stat = .suspend) (htick : (s.thread t).timer.initTick < halfTickMax) :
    Clock now (s.rtTimerStart t) := by
  have hclear := h.clearTimer t
  have hdeadline (u : ι) (hu : u ≠ t) : (s.rtTimerStart t).timeouts u = s.timeouts u := by
    rw [timeouts, rtTimerStart_thread_of_ne hu]
    rfl
  have hagree (u : ι) (hu : u ∈ s.timerList.erase t) :
      (s.rtTimerStart t).timeouts u = (s.clearTimer t).timeouts u := by
    rw [clearTimer_timeouts]
    exact hdeadline u (h.nodup.mem_erase_iff.mp hu).1
  have hnew : remaining now ((s.rtTimerStart t).timeouts t) < halfTickMax.toNat := by
    rw [timeouts, rtTimerStart_thread_self, ← hnow, remaining_add]
    exact htick
  have hsorted := hclear.sorted.congr hagree
  have hnear := hclear.near.congr hagree
  have hperm := insertBefore_perm halfTickMax (s.rtTimerStart t).timeouts t (s.timerList.erase t)
  rw [← rtTimerStart_timerList] at hperm
  refine ⟨fun u => ?_, ?_, ?_, ?_, fun u hu => ?_⟩
  · rw [hperm.mem_iff, List.mem_cons, h.nodup.mem_erase_iff]
    by_cases hut : u = t
    · subst hut
      rw [rtTimerStart_thread_self]
      exact iff_of_true (Or.inl rfl) rfl
    · rw [rtTimerStart_thread_of_ne hut, h.mem]
      exact ⟨fun hu => hu.elim (fun h => absurd h hut) And.right, fun hu => Or.inr ⟨hut, hu⟩⟩
  · rw [hperm.nodup_iff, List.nodup_cons]
    exact ⟨h.nodup.not_mem_erase, h.nodup.erase t⟩
  · rw [rtTimerStart_timerList]
    exact Sorted.insertBefore (by decide) hsorted hnear hnew
  · rw [rtTimerStart_timerList]
    exact Near.insertBefore hnear hnew
  · by_cases hut : u = t
    · subst hut
      rw [rtTimerStart_thread_self]
      exact ht
    · rw [rtTimerStart_thread_of_ne hut] at hu ⊢
      exact h.asleep u hu

end Clock

end State

end ExpertCar.Kernel
