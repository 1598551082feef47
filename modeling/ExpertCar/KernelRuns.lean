import ExpertCar.KernelBoot

/-!
# Runs of the kernel

The kernel is asked one thing after the other: clock interrupts come between the
calls of the threads, and between the two parts of a call, in any order. Whatever the
order, no assertion of the kernel fails, a thread that does not block is not
overtaken by a thread of lower priority, and after a scheduling the current thread
is one of the highest priority.
-/
namespace ExpertCar.Kernel
open PriorityBuckets TickOrder
variable {ι : Type*} [DecidableEq ι]

/-- A run of calls and interrupts. -/
def run (s : State ι) (as : List (Action ι)) : Option (State ι) := as.foldlM step s

/-- A condition on every step of a run, read at the state in which the step starts. -/
def Along (can : State ι → Action ι → Prop) : State ι → List (Action ι) → Prop
  | _, [] => True
  | s, a :: as => can s a ∧ ∀ s', step s a = some s' → Along can s' as

/-- Every call of the run is one that its caller may make. -/
def Legal (s : State ι) (as : List (Action ι)) : Prop := Along Admissible s as

@[simp] theorem run_nil (s : State ι) : run s [] = some s := rfl

theorem run_cons {s s' : State ι} {a : Action ι} (h : step s a = some s') (as : List (Action ι)) :
    run s (a :: as) = run s' as := by
  rw [run, List.foldlM_cons, h]
  rfl

theorem run_append (s : State ι) (as bs : List (Action ι)) :
    run s (as ++ bs) = (run s as).bind fun s' => run s' bs := List.foldlM_append

theorem Along.append {can : State ι → Action ι → Prop} {s : State ι} {as bs : List (Action ι)} :
    Along can s (as ++ bs) → Along can s as ∧ ∀ s', run s as = some s' → Along can s' bs := by
  induction as generalizing s with
  | nil =>
      intro h
      refine ⟨trivial, fun s' hs' => ?_⟩
      obtain rfl := Option.some_inj.mp hs'
      exact h
  | cons a as ih =>
      intro h
      refine ⟨⟨h.1, fun s₁ hs₁ => (ih (h.2 s₁ hs₁)).1⟩, fun s' hs' => ?_⟩
      cases hs₁ : step s a with
      | none => simp [run, List.foldlM_cons, hs₁] at hs'
      | some s₁ =>
          rw [run_cons hs₁] at hs'
          exact (ih (h.2 s₁ hs₁)).2 s' hs'

theorem Along.of_forall {also : Action ι → Prop} {as : List (Action ι)}
    (h : ∀ a ∈ as, also a) (s : State ι) : Along (fun _ a => also a) s as := by
  induction as generalizing s with
  | nil => trivial
  | cons a as ih =>
      exact ⟨h a List.mem_cons_self, fun s' _ => ih (fun b hb => h b (List.mem_cons_of_mem a hb)) s'⟩

theorem Along.and {can can' : State ι → Action ι → Prop} {s : State ι} {as : List (Action ι)}
    (h : Along can s as) (h' : Along can' s as) : Along (fun s a => can s a ∧ can' s a) s as := by
  induction as generalizing s with
  | nil => trivial
  | cons a as ih =>
      exact ⟨⟨h.1, h'.1⟩, fun s' hs' => ih (h.2 s' hs') (h'.2 s' hs')⟩

/-- What every step of a kind keeps holds after every run of such steps. -/
theorem run_invariant {P : State ι → Prop} {can : State ι → Action ι → Prop}
    (hstep : ∀ {s a s'}, Ordered s → P s → can s a → step s a = some s' → Moves a.Allows s s' → P s')
    {as : List (Action ι)} {s : State ι} (hinv : Ordered s) (hlegal : Legal s as)
    (hcan : Along can s as) (hP : P s) : ∃ s', run s as = some s' ∧ Ordered s' ∧ P s' := by
  induction as generalizing s with
  | nil => exact ⟨s, rfl, hinv, hP⟩
  | cons a as ih =>
      obtain ⟨s₁, hs₁, hinv₁, hmoves⟩ := step_moves hinv hlegal.1
      rw [run_cons hs₁]
      exact ih hinv₁ (hlegal.2 s₁ hs₁) (hcan.2 s₁ hs₁) (hstep hinv hP hcan.1 hs₁ hmoves)

/-- What every move with a label allowed keeps is kept by a sequence of them. -/
theorem Moves.keeps {P : State ι → Prop} {allowed : Label ι → Prop}
    (hmove : ∀ {label s s'}, allowed label → (∃ now, State.Inv now s) → Move label s s' →
      P s → P s') {s s' : State ι} (h : Moves allowed s s') (hP : P s) : P s' := by
  induction h with
  | refl => exact hP
  | tail _ hstep ih =>
      obtain ⟨label, hlabel, hinv, hm⟩ := hstep
      exact hmove hlabel hinv hm ih

/-- From the start of the system, whichever calls and interrupts come in whichever order:
no assertion of the kernel fails and no list it follows is empty, and the kernel is in
order at every point. The first thread is one of the highest priority. -/
theorem startup_run {thread : ι → Thread} {threads : List ι} (hne : threads ≠ [])
    (hnodup : threads.Nodup)
    (hthread : ∀ t, ∃ priority tick, thread t = Thread.create priority tick) :
    ∃ s first, rtthreadStartup thread threads = some s ∧ s.rtCurrentThread = some first ∧
      first ∈ threads ∧
      (∀ t ∈ threads, (thread first).currentPriority ≤ (thread t).currentPriority) ∧
      ∀ as, Legal s as → ∃ s', run s as = some s' ∧ Ordered s' := by
  obtain ⟨s, first, hs, hinv, hmem, hcurrent, -, -, hbest, -⟩ :=
    rtthreadStartup_spec hne hnodup hthread
  refine ⟨s, first, hs, hcurrent, hmem, hbest, fun as hlegal => ?_⟩
  obtain ⟨s', hs', hinv', -⟩ := run_invariant (P := fun _ => True) (fun _ _ _ _ _ => trivial) hinv
    hlegal hlegal trivial
  exact ⟨s', hs', hinv'⟩

/-- The kernel of the car, from its main, timer and idle threads on. -/
theorem startup_run_car :
    ∃ s first, rtthreadStartup carThread [.main, .timer, .tidle0] = some s ∧
      s.rtCurrentThread = some first ∧ first ∈ [CarThread.main, .timer, .tidle0] ∧
      (∀ t ∈ [CarThread.main, .timer, .tidle0],
        (carThread first).currentPriority ≤ (carThread t).currentPriority) ∧
      ∀ as, Legal s as → ∃ s', run s as = some s' ∧ Ordered s' :=
  startup_run (by decide) (by decide) carThread_create

/-! ### What a move leaves alone -/

/-- The thread a move is about. -/
def Label.about : Label ι → Option ι
  | .wake t | .resume t | .start t | .suspend t | .arm t | .close t => some t
  | _ => none

section Frame
open State
variable {now : BitVec 32} {s s' : State ι} {label : Label ι}

theorem clearTimer_thread_of_ne {t u : ι} (hu : u ≠ t) (s : State ι) :
    (s.clearTimer t).thread u = s.thread u := by
  rw [clearTimer, setActivated, setThread_thread_of_ne hu]
  rfl

/-- A thread that a move is not about changes between ready and running only, and keeps
its timer. -/
theorem Move.other (h : Move label s s') (hrunning : Running s) {u : ι}
    (hu : label.about ≠ some u) :
    (s'.thread u).timer = (s.thread u).timer ∧
      ((s'.thread u).stat = (s.thread u).stat ∨ (s'.thread u).Awake ∧ (s.thread u).Awake) := by
  have hne {t : ι} (ht : some t ≠ some u) : u ≠ t := fun h => ht (congrArg some h.symm)
  cases h with
  | adjust t error =>
      exact ⟨setThread_thread_proj Thread.timer rfl u,
        Or.inl (setThread_thread_proj Thread.stat rfl u)⟩
  | clock => exact ⟨rfl, Or.inl rfl⟩
  | schedule h =>
      obtain ⟨stat, yields, heq, hstat⟩ := h.thread hrunning u
      rw [heq]
      exact ⟨rfl, hstat⟩
  | slice =>
      exact ⟨setThread_thread_proj Thread.timer rfl u,
        Or.inl (setThread_thread_proj Thread.stat rfl u)⟩
  | refill =>
      exact ⟨setThread_thread_proj Thread.timer rfl u,
        Or.inl (setThread_thread_proj Thread.stat rfl u)⟩
  | lock => exact ⟨rfl, Or.inl rfl⟩
  | wake =>
      rw [rtScheduleInsertThread_thread_of_ne (hne hu), setThread_thread_of_ne (hne hu),
        clearTimer_thread_of_ne (hne hu)]
      exact ⟨rfl, Or.inl rfl⟩
  | resume =>
      rw [rtScheduleInsertThread_thread_of_ne (hne hu), clearTimer_thread_of_ne (hne hu)]
      exact ⟨rfl, Or.inl rfl⟩
  | start =>
      rw [rtScheduleInsertThread_thread_of_ne (hne hu), setThread_thread_of_ne (hne hu)]
      exact ⟨rfl, Or.inl rfl⟩
  | suspend =>
      rw [setStat, setThread_thread_of_ne (hne hu)]
      exact ⟨rfl, Or.inl rfl⟩
  | arm =>
      rw [rtTimerStart_thread_of_ne (hne hu), setThread_thread_of_ne (hne hu)]
      exact ⟨rfl, Or.inl rfl⟩
  | close =>
      rw [setThread_thread_of_ne (hne hu), clearTimer_thread_of_ne (hne hu)]
      exact ⟨rfl, Or.inl rfl⟩

theorem Move.current (h : Move label s s') (hlabel : label ≠ .schedule) :
    s'.rtCurrentThread = s.rtCurrentThread := by
  cases h with
  | schedule => exact absurd rfl hlabel
  | wake => exact (rtScheduleInsertThread_frame _ _).2.2.2
  | resume => exact (rtScheduleInsertThread_frame _ _).2.2.2
  | start => exact (rtScheduleInsertThread_frame _ _).2.2.2
  | _ => rfl

theorem Move.rtTick (h : Move label s s') (hlabel : label ≠ .clock) : s'.rtTick = s.rtTick := by
  cases h with
  | clock => exact absurd rfl hlabel
  | schedule h => exact h.frame.1
  | wake => exact (rtScheduleInsertThread_frame _ _).1
  | resume => exact (rtScheduleInsertThread_frame _ _).1
  | start => exact (rtScheduleInsertThread_frame _ _).1
  | _ => rfl

theorem Move.lockNest (h : Move label s s') (hlabel : label ≠ .lock) :
    s'.rtSchedulerLockNest = s.rtSchedulerLockNest := by
  cases h with
  | lock => exact absurd rfl hlabel
  | schedule h => exact h.frame.2.2
  | wake => exact (rtScheduleInsertThread_frame _ _).2.2.1
  | resume => exact (rtScheduleInsertThread_frame _ _).2.2.1
  | start => exact (rtScheduleInsertThread_frame _ _).2.2.1
  | _ => rfl

/-- What does not depend on the state of a thread, its error or its timer is changed by no
move but those of the time slice. -/
theorem Move.proj {α : Type*} (g : Thread → α)
    (hg : ∀ (th : Thread) (mask : BitVec 32) (stat : Stat) (yields : Bool) (error : ThreadError)
      (timer : Timer), g { th with numberMask := mask, stat := stat, yields := yields,
                                   error := error, timer := timer } = g th)
    (h : Move label s s') (hrunning : Running s) (hslice : label ≠ .slice)
    (hrefill : label ≠ .refill) (u : ι) : g (s'.thread u) = g (s.thread u) := by
  have hinsert (t : ι) (s : State ι) (u : ι) :
      g ((s.rtScheduleInsertThread t).thread u) = g (s.thread u) :=
    rtScheduleInsertThread_thread_proj g (fun th stat =>
      hg th th.numberMask stat th.yields th.error th.timer) t s u
  have htimer (th : Thread) (timer : Timer) : g { th with timer := timer } = g th :=
    hg th th.numberMask th.stat th.yields th.error timer
  have hclear (t : ι) (s : State ι) (u : ι) :
      g ((s.clearTimer t).thread u) = g (s.thread u) := clearTimer_proj g htimer t s u
  cases h with
  | slice => exact absurd rfl hslice
  | refill => exact absurd rfl hrefill
  | clock => rfl
  | lock => rfl
  | schedule h =>
      obtain ⟨stat, yields, heq, -⟩ := h.thread hrunning u
      rw [heq]
      exact hg _ _ _ _ _ _
  | adjust t => exact setThread_thread_proj g (hg _ _ _ _ _ _) u
  | suspend => exact setThread_thread_proj g (hg _ _ _ _ _ _) u
  | @wake s t => rw [hinsert, setThread_thread_proj g (t := t) (hg _ _ _ _ _ _), hclear]
  | resume => rw [hinsert, hclear]
  | @start s t => rw [hinsert, setThread_thread_proj g (t := t) (hg _ _ _ _ _ _)]
  | @arm s t =>
      rw [rtTimerStart_proj g htimer, setThread_thread_proj g (t := t) (hg _ _ _ _ _ _)]
  | @close s t => rw [setThread_thread_proj g (t := t) (hg _ _ _ _ _ _), hclear]

/-- No move changes a priority. -/
theorem Move.currentPriority (h : Move label s s') (hrunning : Running s) (u : ι) :
    (s'.thread u).currentPriority = (s.thread u).currentPriority := by
  by_cases hslice : label = .slice ∨ label = .refill
  · rcases hslice with rfl | rfl
    · cases h with
      | slice => exact setThread_thread_proj Thread.currentPriority rfl u
    · cases h with
      | refill => exact setThread_thread_proj Thread.currentPriority rfl u
  · rw [not_or] at hslice
    exact h.proj Thread.currentPriority (fun _ _ _ _ _ _ => rfl) hrunning hslice.1 hslice.2 u

theorem Move.awake (h : Move label s s') (hrunning : Running s) {u : ι}
    (hu : label.about ≠ some u) (hawake : (s.thread u).Awake) : (s'.thread u).Awake := by
  rcases (h.other hrunning hu).2 with hstat | hawake
  · rw [Thread.Awake, hstat]
    exact hawake
  · exact hawake.1

theorem Move.wake_awake {t : ι} (h : Move (.wake t) s s') : (s'.thread t).Awake := by
  cases h with
  | wake =>
      rw [rtScheduleInsertThread_thread_self]
      split_ifs
      · exact Or.inr rfl
      · exact Or.inl rfl

/-- A move about a thread that is awake is one of its own. -/
theorem Move.about_awake (h : Move label s s') (hinv : Inv now s) {t : ι}
    (habout : label.about = some t) (hawake : (s.thread t).Awake) :
    s.rtCurrentThread = some t ∧ (label = .suspend t ∨ label = .close t) := by
  have hnot (stat : Stat) (hstat : (s.thread t).stat = stat) : stat = .ready ∨ stat = .running := by
    rw [← hstat]
    exact hawake
  cases h with
  | @wake s u hactive =>
      obtain rfl := Option.some_inj.mp habout
      exact absurd (hnot _ (hinv.clock.asleep u hactive)) (by decide)
  | @resume s u hstat =>
      obtain rfl := Option.some_inj.mp habout
      exact absurd (hnot _ hstat) (by decide)
  | @start s u hstat =>
      obtain rfl := Option.some_inj.mp habout
      exact absurd (hnot _ hstat) (by decide)
  | @arm s u tick hc hstat =>
      obtain rfl := Option.some_inj.mp habout
      exact absurd (hnot _ hstat) (by decide)
  | @suspend s u hc =>
      obtain rfl := Option.some_inj.mp habout
      exact ⟨hc, Or.inl rfl⟩
  | @close s u hc =>
      obtain rfl := Option.some_inj.mp habout
      exact ⟨hc, Or.inr rfl⟩
  | _ => simp [Label.about] at habout

end Frame

/-! ### A thread that does not block -/

/-- The calls by which the current thread leaves the ready threads. -/
def Action.Blocks : Action ι → Prop
  | .sleep _ | .suspend | .exit => True
  | _ => False

omit [DecidableEq ι] in
theorem Action.allows_block {a : Action ι} {t : ι}
    (h : a.Allows (.suspend t) ∨ a.Allows (.close t)) : a.Blocks := by
  cases a <;> simp_all [Allows, Blocks]

omit [DecidableEq ι] in
/-- The scheduling of a blocking call is apart from it. -/
theorem Action.Blocks.ne_schedule {a : Action ι} (h : a.Blocks) {label : Label ι}
    (hlabel : a.Allows label) : label ≠ .schedule := by
  rintro rfl
  cases a <;> simp_all [Allows, Blocks]

/-- The thread `t` is awake, and the current thread has no lower priority. -/
def NotOvertaken (t : ι) (s : State ι) : Prop :=
  (s.thread t).Awake ∧ ∀ c, s.rtCurrentThread = some c →
    (s.thread c).currentPriority ≤ (s.thread t).currentPriority

section NotOvertaken
open State
variable {t : ι} {s s' : State ι}

theorem Scheduled.notOvertaken (h : Scheduled s s') (hrunning : Running s)
    (hP : NotOvertaken t s) : NotOvertaken t s' := by
  have hmove := Move.schedule h
  have hpriority := hmove.currentPriority hrunning
  refine ⟨hmove.awake hrunning (by simp [Label.about]) hP.1, fun d hd => ?_⟩
  rw [hpriority, hpriority]
  cases h with
  | idle => exact hP.2 d hd
  | @stays c => exact hP.2 d ((clearYield_frame c s).2.2.2.symm.trans hd)
  | @switch c best rest hlock hc hlist hready hbest hstays =>
      rw [(switchThread_frame _ _ _ _).2.2.2, Option.some_inj] at hd
      subst hd
      rcases hP.1 with ht | ht
      · exact hbest t ht
      · -- The thread that ran is current, and gave way only to one that comes before it.
        obtain rfl := Option.some_inj.mp (hc.symm.trans (hrunning.alone t ht))
        by_contra hlt
        rw [not_le] at hlt
        exact hstays ⟨ht, Or.inl (Fin.lt_def.mp hlt)⟩

/-- No move of a call is about a thread that is awake and makes no blocking call, so it
stays awake. -/
theorem Moves.keeps_awake {P : State ι → Prop} {a : Action ι} (h : Moves a.Allows s s')
    (hmove : ∀ {label s s'}, a.Allows label → (∃ now, Inv now s) → Move label s s' →
      label.about ≠ some t → P s → P s')
    (hblocks : a.Blocks → s.rtCurrentThread ≠ some t) (hawake : (s.thread t).Awake) (hP : P s) :
    (s'.thread t).Awake ∧ P s' := by
  have hkeeps := h.keeps (P := fun s => ((s.thread t).Awake ∧ P s) ∧
    (a.Blocks → s.rtCurrentThread ≠ some t)) ?_ ⟨⟨hawake, hP⟩, hblocks⟩
  · exact hkeeps.1
  · rintro label s s' hlabel ⟨now, hinv⟩ hm ⟨⟨hawake, hP⟩, hcurrent⟩
    have habout : label.about ≠ some t := by
      intro habout
      obtain ⟨hc, hown⟩ := hm.about_awake hinv habout hawake
      refine hcurrent (Action.allows_block (t := t) ?_) hc
      rcases hown with rfl | rfl
      · exact Or.inl hlabel
      · exact Or.inr hlabel
    refine ⟨⟨hm.awake hinv.running habout hawake, hmove hlabel ⟨now, hinv⟩ hm habout hP⟩,
      fun ha => ?_⟩
    rw [hm.current (ha.ne_schedule hlabel)]
    exact hcurrent ha

theorem Move.notOvertaken {label : Label ι} (h : Move label s s') (hinv : ∃ now, Inv now s)
    (habout : label.about ≠ some t) (hP : NotOvertaken t s) : NotOvertaken t s' := by
  obtain ⟨now, hinv⟩ := hinv
  by_cases hlabel : label = .schedule
  · subst hlabel
    cases h with
    | schedule h => exact Scheduled.notOvertaken h hinv.running hP
  refine ⟨h.awake hinv.running habout hP.1, fun c hc => ?_⟩
  rw [h.currentPriority hinv.running, h.currentPriority hinv.running]
  exact hP.2 c ((h.current hlabel).symm.trans hc)

/-- A thread that makes no blocking call stays awake, and no thread of lower priority
becomes the current one, whatever the interrupts and the other calls. -/
theorem run_notOvertaken {as : List (Action ι)} (hinv : Ordered s) (hlegal : Legal s as)
    (hblocks : Along (fun s a => a.Blocks → s.rtCurrentThread ≠ some t) s as)
    (hP : NotOvertaken t s) : ∃ s', run s as = some s' ∧ Ordered s' ∧ NotOvertaken t s' := by
  refine run_invariant (fun {s a s'} hinv hP hcan _ hmoves => ?_) hinv hlegal hblocks hP
  exact (hmoves.keeps_awake (fun _ hinv hm habout hP => hm.notOvertaken hinv habout hP) hcan hP.1
    hP).2

/-- The first thread of the car through two clock interrupts and a scheduling. -/
theorem run_notOvertaken_car : ∃ s first s', rtthreadStartup carThread [.main, .timer] = some s ∧
    run s [.tick, .schedule, .tick] = some s' ∧ NotOvertaken first s' := by
  obtain ⟨s, first, hs, hinv, -, hcurrent, hrun, -⟩ :=
    carThread_startup [.main, .timer] (by decide) (by decide)
  have hP : NotOvertaken first s := by
    refine ⟨Or.inr hrun, fun c hc => ?_⟩
    rw [hcurrent, Option.some_inj] at hc
    rw [hc]
  have hlegal : Legal s [.tick, .schedule, .tick] :=
    ⟨trivial, fun _ _ => ⟨trivial, fun _ _ => ⟨trivial, fun _ _ => trivial⟩⟩⟩
  obtain ⟨s', hs', -, hP'⟩ := run_notOvertaken hinv hlegal
    (by simp [Along, Action.Blocks]) hP
  exact ⟨s, first, s', hs, hs', hP'⟩

end NotOvertaken

/-! ### The thread of the highest priority runs -/

/-- The current thread runs, and no ready thread has a higher priority. -/
def Settled (s : State ι) : Prop :=
  ∃ c, s.rtCurrentThread = some c ∧ (s.thread c).stat = .running ∧
    ∀ t, (s.thread t).stat = .ready → (s.thread c).currentPriority ≤ (s.thread t).currentPriority

/-- What happens between the calls that change which threads are ready. -/
def Action.Passive : Action ι → Prop
  | .tick | .schedule | .yield | .sleepReturn => True
  | _ => False

section Settled
open State
variable {s s' : State ι}

/-- A scheduling with a thread to run and no lock leaves the kernel settled. -/
theorem Scheduled.settled (h : Scheduled s s') (hrunning : Running s)
    (hlock : s.rtSchedulerLockNest = 0) {t : ι} (ht : (s.thread t).Awake) : Settled s' := by
  have hpriority := (Move.schedule h).currentPriority hrunning
  cases h with
  | idle hidle =>
      rcases hidle with hidle | hidle
      · exact absurd hlock hidle
      · have hrun := ht.resolve_left (hidle t)
        exact ⟨t, hrunning.alone t hrun, hrun, fun u hu => absurd hu (hidle u)⟩
  | @stays c hlock hc hrun hbest =>
      refine ⟨c, (clearYield_frame c s).2.2.2.trans hc, ?_, fun u hu => ?_⟩
      · rw [clearYield_thread]
        exact hrun
      · rw [hpriority, hpriority]
        rw [clearYield_thread] at hu
        rcases hbest u hu with hlt | ⟨heq, -⟩
        · exact le_of_lt hlt
        · exact le_of_eq heq
  | @switch c best rest hlock hc hlist hready hbest hstays =>
      have hne := hrunning.ne_of_ready hc hready
      refine ⟨best, (switchThread_frame _ _ _ _).2.2.2, ?_, fun u hu => ?_⟩
      · rw [switchThread_thread_best hne]
      · rw [hpriority, hpriority]
        have hub : u ≠ best := by
          rintro rfl
          rw [switchThread_thread_best hne] at hu
          exact Stat.noConfusion hu
        rw [switchThread_thread_of_ne hne hub, clearYield_thread] at hu
        split_ifs at hu with hinsert
        · rw [hinsert.2]
          by_contra hlt
          rw [not_le] at hlt
          exact hstays ⟨of_decide_eq_true hinsert.1, Or.inl (Fin.lt_def.mp hlt)⟩
        · exact hbest u hu

omit [DecidableEq ι] in
theorem Settled.congr (h : Settled s) (hcurrent : s'.rtCurrentThread = s.rtCurrentThread)
    (hstat : ∀ t, (s'.thread t).stat = (s.thread t).stat)
    (hpriority : ∀ t, (s'.thread t).currentPriority = (s.thread t).currentPriority) :
    Settled s' := by
  obtain ⟨c, hc, hrun, hbest⟩ := h
  refine ⟨c, hcurrent.trans hc, (hstat c).trans hrun, fun t ht => ?_⟩
  rw [hpriority, hpriority]
  exact hbest t ((hstat t).symm.trans ht)

omit [DecidableEq ι] in
theorem Settled.awake (h : Settled s) : ∃ t, (s.thread t).Awake := by
  obtain ⟨c, -, hrun, -⟩ := h
  exact ⟨c, Or.inr hrun⟩

theorem Sliced.settled {c : ι} (h : Sliced c s s') (hinv : ∃ now, Inv now s)
    (hc : s.rtCurrentThread = some c) (hlock : s.rtSchedulerLockNest = 0) (hs : Settled s) :
    Settled s' ∧ s'.rtSchedulerLockNest = 0 := by
  obtain ⟨now, hinv⟩ := hinv
  have hslice : Move .slice s _ := .slice hc
  have hinv₁ := hslice.inv hinv (by simp)
  have hs₁ : Settled (s.setThread c fun th => { th with remainingTick := th.remainingTick - 1 }) :=
    hs.congr rfl (setThread_thread_proj Thread.stat rfl)
      (setThread_thread_proj Thread.currentPriority rfl)
  rcases h with ⟨-, rfl⟩ | ⟨-, hscheduled⟩
  · exact ⟨hs₁, hlock⟩
  · have hrefill := Move.refill (s := s.setThread c fun th =>
      { th with remainingTick := th.remainingTick - 1 }) hc
    have hinv₂ := hrefill.inv hinv₁ (by simp)
    obtain ⟨t, ht⟩ := hs₁.awake
    exact ⟨Scheduled.settled hscheduled hinv₂.running hlock
      (hrefill.awake hinv₁.running (u := t) (by simp [Label.about]) ht),
      hscheduled.frame.2.2.trans hlock⟩

theorem Woken.settled (h : Woken s s') (hlock : s.rtSchedulerLockNest = 0) :
    Settled s' ∧ s'.rtSchedulerLockNest = 0 := by
  obtain ⟨t, s₁, ⟨now, hinv⟩, hwake, hscheduled⟩ := h
  have hlock₁ := (hwake.lockNest (by simp)).trans hlock
  exact ⟨Scheduled.settled hscheduled (hwake.inv hinv (by simp)).running hlock₁ hwake.wake_awake,
    hscheduled.frame.2.2.trans hlock₁⟩

theorem Woken.settled_run (h : Relation.ReflTransGen Woken s s')
    (hs : Settled s ∧ s.rtSchedulerLockNest = 0) : Settled s' ∧ s'.rtSchedulerLockNest = 0 := by
  induction h with
  | refl => exact hs
  | tail _ hstep ih => exact hstep.settled ih.2

theorem tick_settled (hinv : Ordered s) (hlock : s.rtSchedulerLockNest = 0) (hs : Settled s) :
    ∃ s', step s .tick = some s' ∧ Ordered s' ∧ s'.rtSchedulerLockNest = 0 ∧ Settled s' := by
  obtain ⟨c, hc, -⟩ := hinv.running.current
  obtain ⟨s₁, s', hs', hsliced, -, -, hwoken, hinv', -⟩ := rtTickIncrease_spec hinv hc
  have hclock : Move .clock s _ := .clock
  have hsettled : Settled { s with rtTick := s.rtTick + 1 } :=
    hs.congr rfl (fun _ => rfl) fun _ => rfl
  have hend := Woken.settled_run hwoken
    (hsliced.settled ⟨_, hclock.inv hinv (by simp)⟩ hc hlock hsettled)
  exact ⟨s', hs', hinv', hend.2, hend.1⟩

theorem schedule_settled (hinv : Ordered s) (hlock : s.rtSchedulerLockNest = 0) {t : ι}
    (ht : (s.thread t).Awake) :
    ∃ s', step s .schedule = some s' ∧ Ordered s' ∧ s'.rtSchedulerLockNest = 0 ∧ Settled s' := by
  obtain ⟨s', hs', hscheduled⟩ := rtSchedule_spec hinv.table hinv.running
  refine ⟨s', hs', ?_, hscheduled.frame.2.2.trans hlock,
    Scheduled.settled hscheduled hinv.running hlock ht⟩
  rw [Ordered, hscheduled.frame.1]
  exact hscheduled.inv hinv

theorem step_settled (hinv : Ordered s) (hlock : s.rtSchedulerLockNest = 0) (hs : Settled s)
    {a : Action ι} (ha : a.Passive) :
    ∃ s', step s a = some s' ∧ Ordered s' ∧ s'.rtSchedulerLockNest = 0 ∧ Settled s' := by
  obtain ⟨t, ht⟩ := hs.awake
  obtain ⟨c, hc, -⟩ := hinv.running.current
  cases a with
  | tick => exact tick_settled hinv hlock hs
  | schedule => exact schedule_settled hinv hlock ht
  | yield =>
      have hrefill := Move.refill hc
      have hinv₁ := hrefill.inv hinv (by simp)
      obtain ⟨s', hs', hinv', hlock', hsettled⟩ :=
        schedule_settled (s := refilled c s) hinv₁ hlock
          (hrefill.awake hinv.running (by simp [Label.about]) ht)
      refine ⟨s', ?_, hinv', hlock', hsettled⟩
      rw [step, rtThreadYield, hc]
      exact hs'
  | sleepReturn =>
      rw [step, rtThreadSleepReturn, hc]
      refine ⟨_, rfl, ?_⟩
      split_ifs
      · have hadjust : Move .adjust s _ := .adjust c .eok
        exact ⟨hadjust.inv hinv (by simp), hlock, hs.congr rfl (setThread_thread_proj Thread.stat rfl)
          (setThread_thread_proj Thread.currentPriority rfl)⟩
      · exact ⟨hinv, hlock, hs⟩
  | _ => exact ha.elim

omit [DecidableEq ι] in
theorem Action.Allows.ne_lock {a : Action ι} {label : Label ι} (h : a.Allows label)
    (hlock : a ≠ .enterCritical) (hunlock : a ≠ .exitCritical) : label ≠ .lock := by
  rintro rfl
  cases a <;> simp_all [Allows]

/-- Whatever the threads and the clock did before, and whatever interrupts come after it,
a scheduling makes the kernel run a thread of the highest priority: as long as the
scheduler is not locked and some thread never blocks. -/
theorem run_settled {idle : ι} {pre post : List (Action ι)} (hinv : Ordered s)
    (hlegal : Legal s (pre ++ .schedule :: post)) (hidle : (s.thread idle).Awake)
    (hblocks : Along (fun s a => a.Blocks → s.rtCurrentThread ≠ some idle) s pre)
    (hlock : s.rtSchedulerLockNest = 0)
    (hunlocked : ∀ a ∈ pre, a ≠ .enterCritical ∧ a ≠ .exitCritical)
    (hpassive : ∀ a ∈ post, a.Passive) :
    ∃ s', run s (pre ++ .schedule :: post) = some s' ∧ Ordered s' ∧ Settled s' := by
  obtain ⟨hlegal₁, hlegal'⟩ := Along.append hlegal
  obtain ⟨s₁, hs₁, hinv₁, hidle₁, hlock₁⟩ := run_invariant
    (P := fun s => (s.thread idle).Awake ∧ s.rtSchedulerLockNest = 0)
    (fun {s a s'} _ hP hcan _ hmoves => hmoves.keeps_awake
      (fun hlabel _ hm _ hlock =>
        (hm.lockNest (hlabel.ne_lock hcan.2.1 hcan.2.2)).trans hlock) hcan.1 hP.1 hP.2)
    hinv hlegal₁ (hblocks.and (Along.of_forall hunlocked s)) ⟨hidle, hlock⟩
  obtain ⟨s₂, hs₂, hinv₂, hlock₂, hsettled₂⟩ := schedule_settled hinv₁ hlock₁ hidle₁
  have hlegal₂ := (hlegal' s₁ hs₁).2 s₂ hs₂
  have hpassive' (s : State ι) (a : Action ι) (s' : State ι) (hinv : Ordered s)
      (hP : s.rtSchedulerLockNest = 0 ∧ Settled s) (ha : a.Passive) (hs : step s a = some s') :
      s'.rtSchedulerLockNest = 0 ∧ Settled s' := by
    obtain ⟨s'', hs'', -, hsettled⟩ := step_settled hinv hP.1 hP.2 ha
    obtain rfl := Option.some_inj.mp (hs.symm.trans hs'')
    exact hsettled
  obtain ⟨s', hs', hinv', -, hsettled'⟩ := run_invariant
    (P := fun s => s.rtSchedulerLockNest = 0 ∧ Settled s)
    (fun {s a s'} hinv hP hcan hs _ => hpassive' s a s' hinv hP hcan hs) hinv₂ hlegal₂
    (Along.of_forall hpassive s₂) ⟨hlock₂, hsettled₂⟩
  refine ⟨s', ?_, hinv', hsettled'⟩
  rw [run_append, hs₁, Option.bind_some, run_cons hs₂]
  exact hs'

/-- A thread of the car that starts another one, and the scheduling that follows it. -/
theorem run_settled_car : ∃ s s', rtthreadStartup carThread [.main, .timer] = some s ∧
    run s [.startup .ps2, .tick, .schedule, .tick] = some s' ∧ Settled s' := by
  obtain ⟨s, first, hs, hinv, hmem, -, hrun, hlock, -, hthread⟩ :=
    carThread_startup [.main, .timer] (by decide) (by decide)
  have hps2 : (s.thread .ps2).stat = .init := by
    have hne : CarThread.ps2 ≠ first := by
      rintro rfl
      exact absurd hmem (by decide)
    rw [hthread, if_neg hne, if_neg (by decide)]
    rfl
  have hlegal : Legal s ([.startup .ps2, .tick] ++ .schedule :: [.tick]) :=
    ⟨hps2, fun _ _ => ⟨trivial, fun _ _ => ⟨trivial, fun _ _ => ⟨trivial, fun _ _ => trivial⟩⟩⟩⟩
  obtain ⟨s', hs', -, hsettled⟩ := run_settled hinv hlegal (Or.inr hrun)
    (by simp [Along, Action.Blocks]) hlock (by simp) (by simp [Action.Passive])
  exact ⟨s, s', hs, hs', hsettled⟩

end Settled

end ExpertCar.Kernel
