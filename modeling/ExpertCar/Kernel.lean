import ExpertCar.PriorityBuckets
import ExpertCar.TickOrder

/-!
# The thread kernel

The parts of the kernel under the threads of the car: the ready table and
`rt_schedule`, the list of thread timers, the clock interrupt, and the calls by
which a thread sleeps, yields, starts, wakes or leaves. A list that threads or
timers are linked into is a list of threads. A function has no value where an
assertion of the source fails or it follows a null or empty link. Sections with
interrupts off are one step each, so an interrupt may come between the part of a
call that changes the state of a thread and the `rt_schedule` that ends it. Every
timer is the one-shot timer of a thread, and the skip list has its one level.
-/
namespace ExpertCar.Kernel
open PriorityBuckets TickOrder

inductive Stat where
  | init | ready | suspend | running | close
  deriving DecidableEq, Repr

inductive ThreadError where
  | eok | etimeout
  deriving DecidableEq, Repr

structure Timer where
  initTick : BitVec 32
  timeoutTick : BitVec 32
  activated : Bool
  deriving DecidableEq, Repr

structure Thread where
  currentPriority : Fin 32
  numberMask : BitVec 32
  initTick : BitVec 32
  remainingTick : BitVec 32
  stat : Stat
  /-- `RT_THREAD_STAT_YIELD` -/
  yields : Bool
  error : ThreadError
  timer : Timer
  deriving DecidableEq, Repr

/-- `_thread_init` -/
def Thread.create (priority : Fin 32) (tick : BitVec 32) : Thread :=
  ⟨priority, 0, tick, tick, .init, false, .eok, ⟨0, 0, false⟩⟩

/-- `RT_TICK_MAX / 2` -/
def halfTickMax : BitVec 32 := 0x7fffffff

structure State (ι : Type*) where
  thread : ι → Thread
  /-- `rt_thread_priority_table` and `rt_thread_ready_priority_group` -/
  ready : Buckets 32 ι
  timerList : List ι
  rtTick : BitVec 32
  rtCurrentThread : Option ι
  rtSchedulerLockNest : BitVec 16

/-- Bits are counted from 1; without a bit set the result is 0. -/
def rtFfs (value : BitVec 32) : ℕ := if value = 0 then 0 else value.ctz.toNat + 1

namespace State
variable {ι : Type*} [DecidableEq ι]

/-- Before the first thread is started. -/
def init (thread : ι → Thread) : State ι := ⟨thread, Buckets.empty, [], 0, none, 0⟩

def setThread (t : ι) (f : Thread → Thread) (s : State ι) : State ι :=
  { s with thread := Function.update s.thread t (f (s.thread t)) }

@[simp] theorem setThread_thread_self (t : ι) (f : Thread → Thread) (s : State ι) :
    (s.setThread t f).thread t = f (s.thread t) := Function.update_self t _ _

theorem setThread_thread_of_ne {t u : ι} (h : u ≠ t) (f : Thread → Thread) (s : State ι) :
    (s.setThread t f).thread u = s.thread u := Function.update_of_ne h _ _

/-- A field that `f` keeps is kept for every thread. -/
theorem setThread_thread_proj {α : Type*} (g : Thread → α) {t : ι} {f : Thread → Thread}
    {s : State ι} (h : g (f (s.thread t)) = g (s.thread t)) (u : ι) :
    g ((s.setThread t f).thread u) = g (s.thread u) := by
  by_cases hu : u = t
  · subst hu
    rw [setThread_thread_self, h]
  · rw [setThread_thread_of_ne hu]

def setStat (t : ι) (stat : Stat) (s : State ι) : State ι :=
  s.setThread t fun th => { th with stat := stat }

/-! ### The ready table -/

def rtScheduleInsertThread (t : ι) (s : State ι) : State ι :=
  if s.rtCurrentThread = some t then s.setStat t .running
  else
    let s := s.setStat t .ready
    { s with ready := s.ready.push (s.thread t).currentPriority (s.thread t).numberMask t }

def rtScheduleRemoveThread (t : ι) (s : State ι) : State ι :=
  { s with ready := s.ready.remove (s.thread t).currentPriority (s.thread t).numberMask t }

def schedulerGetHighestPriorityThread (s : State ι) : Option (ℕ × ι) :=
  match rtFfs s.ready.group with
  | 0 => none
  | number + 1 => (s.ready.lists number).head?.map fun t => (number, t)

/-- The current thread goes on: it runs, and no thread is ready that should run before. -/
def Stays (th : Thread) (highestReadyPriority : ℕ) : Prop :=
  th.stat = .running ∧ (th.currentPriority < highestReadyPriority ∨
    th.currentPriority = highestReadyPriority ∧ th.yields = false)

instance (th : Thread) (highestReadyPriority : ℕ) : Decidable (Stays th highestReadyPriority) :=
  inferInstanceAs (Decidable (_ ∧ _))

/-- `stat &= ~RT_THREAD_STAT_YIELD_MASK` of a running thread. -/
def clearYield (t : ι) (s : State ι) : State ι :=
  if (s.thread t).stat = .running then s.setThread t fun th => { th with yields := false } else s

/-- The switch from one thread to another. -/
def switchThread (needInsertFromThread : Bool) (fromThread toThread : ι) (s : State ι) : State ι :=
  let s := { s with rtCurrentThread := some toThread }
  let s := if needInsertFromThread then s.rtScheduleInsertThread fromThread else s
  (s.rtScheduleRemoveThread toThread).setStat toThread .running

def rtSchedule (s : State ι) : Option (State ι) :=
  if s.rtSchedulerLockNest = 0 ∧ s.ready.group ≠ 0 then do
    let cur ← s.rtCurrentThread
    let (highestReadyPriority, best) ← s.schedulerGetHighestPriorityThread
    let stays := decide (Stays (s.thread cur) highestReadyPriority)
    let needInsert := decide ((s.thread cur).stat = .running) && !stays
    let toThread := if stays then cur else best
    let s := s.clearYield cur
    if toThread ≠ cur then some (s.switchThread needInsert cur toThread)
    else some ((s.rtScheduleRemoveThread cur).setStat cur .running)
  else some s

/-- The first thread to run leaves the ready table. -/
def rtSystemSchedulerStart (s : State ι) : Option (State ι) := do
  let (_, toThread) ← s.schedulerGetHighestPriorityThread
  let s := { s with rtCurrentThread := some toThread }
  some ((s.rtScheduleRemoveThread toThread).setThread toThread fun th =>
    { th with stat := .running, yields := false })

def rtEnterCritical (s : State ι) : State ι :=
  { s with rtSchedulerLockNest := s.rtSchedulerLockNest + 1 }

/-- The scheduling that follows when the last lock is released is `rtSchedule`, which
does nothing before that. -/
def rtExitCritical (s : State ι) : State ι :=
  let nest := s.rtSchedulerLockNest - 1
  { s with rtSchedulerLockNest := if nest.toInt ≤ 0 then 0 else nest }

/-! ### Timers -/

def timerRemove (t : ι) (s : State ι) : State ι := { s with timerList := s.timerList.erase t }

def setActivated (t : ι) (activated : Bool) (s : State ι) : State ι :=
  s.setThread t fun th => { th with timer := { th.timer with activated := activated } }

def rtTimerStop (t : ι) (s : State ι) : State ι :=
  if (s.thread t).timer.activated then (s.timerRemove t).setActivated t false else s

/-- `rt_timer_control` with `RT_TIMER_CTRL_SET_TIME` -/
def rtTimerSetTime (t : ι) (tick : BitVec 32) (s : State ι) : Option (State ι) :=
  if tick < halfTickMax then
    some (s.setThread t fun th => { th with timer := { th.timer with initTick := tick } })
  else none

def rtTimerStart (t : ι) (s : State ι) : State ι :=
  let s := (s.timerRemove t).setActivated t false
  let s := s.setThread t fun th =>
    { th with timer := { th.timer with timeoutTick := s.rtTick + th.timer.initTick } }
  let s := { s with
    timerList := insertBefore halfTickMax (fun u => (s.thread u).timer.timeoutTick) t s.timerList }
  s.setActivated t true

/-! ### Suspending and resuming -/

def rtThreadSuspend (t : ι) (s : State ι) : Option (State ι) :=
  if s.rtCurrentThread = some t then
    if (s.thread t).stat = .ready ∨ (s.thread t).stat = .running then
      some (((s.rtScheduleRemoveThread t).setStat t .suspend).rtTimerStop t)
    else some s
  else none

/-- `rt_list_remove(&(thread->tlist))` -/
def unlinkThread (t : ι) (s : State ι) : State ι := { s with ready := s.ready.unlink t }

/-- The source tests `stat` before it disables interrupts; here both are one step. -/
def rtThreadResume (t : ι) (s : State ι) : State ι :=
  if (s.thread t).stat = .suspend then
    ((s.unlinkThread t).rtTimerStop t).rtScheduleInsertThread t
  else s

/-- The scheduling at its end is `rtSchedule`. -/
def rtThreadStartup (t : ι) (s : State ι) : Option (State ι) :=
  if (s.thread t).stat = .init then
    some ((s.setThread t fun th =>
      { th with numberMask := 1#32 <<< th.currentPriority.val, stat := .suspend,
                yields := false }).rtThreadResume t)
  else none

/-- The timeout function of a thread timer. -/
def threadTimeout (t : ι) (s : State ι) : Option (State ι) :=
  if (s.thread t).stat = .suspend then
    (((s.setThread t fun th => { th with error := .etimeout }).unlinkThread t).rtScheduleInsertThread
      t).rtSchedule
  else none

/-! ### The clock interrupt -/

/-- The loop of `rt_timer_check`, which takes the first timer off the list as long as
it is due; no more than the timers listed can be. -/
def timerCheckLoop : ℕ → State ι → Option (State ι)
  | 0, s => some s
  | fuel + 1, s =>
      match s.timerList with
      | [] => some s
      | t :: _ =>
          if Due halfTickMax s.rtTick (s.thread t).timer.timeoutTick then do
            let s ← ((s.timerRemove t).setActivated t false).threadTimeout t
            timerCheckLoop fuel s
          else some s

def rtTimerCheck (s : State ι) : Option (State ι) := timerCheckLoop s.timerList.length s

/-- `-- thread->remaining_tick`, and what follows at the end of the time slice. -/
def timeSlice (t : ι) (s : State ι) : Option (State ι) :=
  let s := s.setThread t fun th => { th with remainingTick := th.remainingTick - 1 }
  if (s.thread t).remainingTick = 0 then
    (s.setThread t fun th => { th with remainingTick := th.initTick, yields := true }).rtSchedule
  else some s

def rtTickIncrease (s : State ι) : Option (State ι) := do
  let s := { s with rtTick := s.rtTick + 1 }
  let t ← s.rtCurrentThread
  let s ← s.timeSlice t
  s.rtTimerCheck

/-! ### Calls of the current thread -/

/-- `rt_thread_sleep` up to its call of `rt_schedule`. -/
def rtThreadSleep (tick : BitVec 32) (s : State ι) : Option (State ι) := do
  let t ← s.rtCurrentThread
  let s ← (s.setThread t fun th => { th with error := .eok }).rtThreadSuspend t
  let s ← s.rtTimerSetTime t tick
  some (s.rtTimerStart t)

/-- `rt_thread_sleep` after it. -/
def rtThreadSleepReturn (s : State ι) : Option (State ι) := do
  let t ← s.rtCurrentThread
  some (if (s.thread t).error = .etimeout then
    s.setThread t fun th => { th with error := .eok } else s)

/-- The ticks of a delay in milliseconds; a tick is one millisecond. -/
def rtTickFromMillisecond (ms : ℤ) : BitVec 32 :=
  if ms < 0 then 0xffffffff
  else BitVec.ofInt 32 (1000 * (ms / 1000) + (1000 * (ms % 1000) + 999) / 1000)

/-- `rt_thread_mdelay` up to the call of `rt_schedule` in `rt_thread_sleep`. -/
def rtThreadMdelay (ms : ℤ) (s : State ι) : Option (State ι) :=
  s.rtThreadSleep (rtTickFromMillisecond ms)

def rtThreadYield (s : State ι) : Option (State ι) := do
  let t ← s.rtCurrentThread
  (s.setThread t fun th => { th with remainingTick := th.initTick, yields := true }).rtSchedule

/-- `_thread_exit` up to its call of `rt_schedule`. -/
def threadExit (s : State ι) : Option (State ι) := do
  let t ← s.rtCurrentThread
  let s := ((s.rtScheduleRemoveThread t).timerRemove t).setActivated t false
  some (s.setThread t fun th => { th with stat := .close, yields := false })

end State

/-- What the kernel may be asked to do: a clock interrupt, or a call of the current thread. -/
inductive Action (ι : Type*) where
  | tick
  | schedule
  | sleep (tick : BitVec 32)
  | sleepReturn
  | yield
  | suspend
  | resume (t : ι)
  | startup (t : ι)
  | exit
  | enterCritical
  | exitCritical

def step {ι : Type*} [DecidableEq ι] (s : State ι) : Action ι → Option (State ι)
  | .tick => s.rtTickIncrease
  | .schedule => s.rtSchedule
  | .sleep tick => s.rtThreadSleep tick
  | .sleepReturn => s.rtThreadSleepReturn
  | .yield => s.rtThreadYield
  | .suspend => s.rtCurrentThread.bind s.rtThreadSuspend
  | .resume t => some (s.rtThreadResume t)
  | .startup t => s.rtThreadStartup t
  | .exit => s.threadExit
  | .enterCritical => some s.rtEnterCritical
  | .exitCritical => some s.rtExitCritical

end ExpertCar.Kernel
