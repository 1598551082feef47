import ExpertCar.KernelSleep

/-!
# Time slices

Ready threads of one priority take turns. The ticks left to the current thread and to
those queued before a ready thread bound the clock interrupts until it runs, unless a
thread of higher priority wakes: a tick takes one of them, a scheduling none, and who
is appended to the queue comes behind.
-/
namespace ExpertCar.Kernel
open PriorityBuckets TickOrder
variable {ι : Type*} [DecidableEq ι]

namespace State

/-- The threads queued before the thread `t`. -/
def before (t : ι) (s : State ι) : List ι :=
  (s.ready.lists (s.thread t).currentPriority).takeWhile (· ≠ t)

/-- The ticks left to them. -/
def queued (t : ι) (s : State ι) : ℕ :=
  ((s.before t).map fun u => (s.thread u).remainingTick.toNat).sum

/-- The ticks left to them and to the current thread. -/
def wait (t : ι) (s : State ι) : ℕ :=
  (s.rtCurrentThread.elim 0 fun c => (s.thread c).remainingTick.toNat) + s.queued t

/-- The thread `t` is ready, with nobody of a higher priority awake. -/
structure Waiting (t : ι) (s : State ι) : Prop where
  ready : (s.thread t).stat = .ready
  fresh : (s.thread t).yields = false
  unlocked : s.rtSchedulerLockNest = 0
  slices : ∀ u, (s.thread u).initTick ≠ 0 ∧ (s.thread u).remainingTick ≠ 0
  highest : ∀ u, (s.thread u).Awake → (s.thread t).currentPriority ≤ (s.thread u).currentPriority

/-- The thread `t` runs with its slice before it, or a thread of higher priority is awake. -/
def Served (t : ι) (s : State ι) : Prop :=
  s.rtSchedulerLockNest = 0 ∧ (s.rtCurrentThread = some t ∧ (s.thread t).stat = .running ∧
      (s.thread t).yields = false ∨
    ∃ u, (s.thread u).Awake ∧ (s.thread u).currentPriority < (s.thread t).currentPriority)

variable {now : BitVec 32} {t : ι} {s s' : State ι}

omit [DecidableEq ι] in
theorem Waiting.mem (h : Waiting t s) (htable : Table s) :
    t ∈ s.ready.lists (s.thread t).currentPriority := (htable.filed.mem _ t).mpr ⟨h.ready, rfl⟩

theorem takeWhile_append_of_mem {l l' : List ι} (h : t ∈ l) :
    (l ++ l').takeWhile (· ≠ t) = l.takeWhile (· ≠ t) := by
  induction l with
  | nil => exact absurd h List.not_mem_nil
  | cons u l ih =>
      by_cases hut : u = t
      · subst hut
        simp
      · have hmem : t ∈ l := (List.mem_cons.mp h).resolve_left (Ne.symm hut)
        simp only [List.cons_append, List.takeWhile_cons, ih hmem]

omit [DecidableEq ι] in
theorem Waiting.current (h : Waiting t s) (hrunning : Running s) {c : ι}
    (hc : s.rtCurrentThread = some c) : t ≠ c := by
  rintro rfl
  exact (hrunning.of_current hc).1 h.ready

theorem queued_congr {l : List ι} (h : t ∈ s.ready.lists (s.thread t).currentPriority)
    (hpriority : (s'.thread t).currentPriority = (s.thread t).currentPriority)
    (hlist : s'.ready.lists (s.thread t).currentPriority =
      s.ready.lists (s.thread t).currentPriority ++ l)
    (hticks : ∀ u ∈ s.ready.lists (s.thread t).currentPriority,
      (s'.thread u).remainingTick = (s.thread u).remainingTick) :
    s'.queued t = s.queued t := by
  have hbefore : s'.before t = s.before t := by
    rw [before, before, hpriority, hlist, takeWhile_append_of_mem h]
  rw [queued, queued, hbefore]
  refine congrArg List.sum (List.map_congr_left fun u hu => ?_)
  rw [hticks u ((List.takeWhile_sublist _).subset hu)]

/-- The switch of a scheduling from the current thread to another. -/
def switched (c best : ι) (s : State ι) : State ι :=
  (s.clearYield c).switchThread (decide ((s.thread c).stat = .running)) c best

theorem switched_current (c best : ι) (s : State ι) :
    (s.switched c best).rtCurrentThread = some best := (switchThread_frame _ c best _).2.2.2

/-- The thread that is taken runs with its slice before it. -/
theorem Waiting.switched_served {c : ι} (hwaiting : Waiting t s) (hne : c ≠ t)
    (hlock : (s.switched c t).rtSchedulerLockNest = 0) : Served t (s.switched c t) := by
  refine ⟨hlock, Or.inl ⟨switched_current c t s, ?_, ?_⟩⟩
  · rw [switched, switchThread_thread_best hne]
  · rw [switched, switchThread_thread_best hne, clearYield_thread, hwaiting.fresh]
    rfl

/-- A ready thread that is not taken stays as it is. -/
theorem switched_thread {c best : ι} (hne : c ≠ best) (htc : t ≠ c) (htbest : t ≠ best) :
    (s.switched c best).thread t = s.thread t := by
  rw [switched, switchThread_thread_of_ne hne htbest, if_neg fun h => htc h.2, clearYield_thread]
  simp [htc]

/-- The thread that is taken was the first before `t`. -/
theorem switched_before {c best : ι} {rest : List ι} (hne : c ≠ best) (htc : t ≠ c)
    (htbest : t ≠ best) (hlist : s.ready.lists (s.thread t).currentPriority = best :: rest)
    (hmem : t ∈ rest) : s.before t = best :: (s.switched c best).before t := by
  have hafter : (s.switched c best).before t = rest.takeWhile (· ≠ t) := by
    rw [before, switched_thread hne htc htbest, switched, switchThread_lists hne, clearYield_ready,
      hlist, List.cons_append, List.erase_cons_head, takeWhile_append_of_mem hmem]
  rw [hafter, before, hlist, List.takeWhile_cons]
  simp [Ne.symm htbest]

/-- A scheduling that leaves `t` as it is leaves it waiting. -/
theorem Scheduled.still_waiting (h : Scheduled s s') (hrunning : Running s) (hwaiting : Waiting t s)
    (hself : s'.thread t = s.thread t) : Waiting t s' := by
  refine ⟨?_, ?_, h.frame.2.2.trans hwaiting.unlocked, fun u => ?_, fun u hu => ?_⟩
  · rw [hself]
    exact hwaiting.ready
  · rw [hself]
    exact hwaiting.fresh
  · obtain ⟨stat, yields, heq, -⟩ := h.thread hrunning u
    rw [heq]
    exact hwaiting.slices u
  · obtain ⟨stat, yields, heq, hstat⟩ := h.thread hrunning u
    rw [hself, heq]
    refine hwaiting.highest u ?_
    rw [heq] at hu
    rcases hstat with hstat | ⟨-, hawake⟩
    · rw [Thread.Awake, ← hstat]
      exact hu
    · exact hawake

/-- A scheduling leaves the current thread running, or serves `t`, or takes the ticks of
the current thread off the wait. -/
theorem Scheduled.wait (h : Scheduled s s') (hinv : Inv now s) (hwaiting : Waiting t s) {c : ι}
    (hc : s.rtCurrentThread = some c) :
    s' = s.clearYield c ∧ (s.thread c).stat = .running ∧ (s.thread c).yields = false ∨
      Served t s' ∨ Waiting t s' ∧ s'.wait t = s.queued t := by
  have htc := hwaiting.current hinv.running hc
  have hlock := h.frame.2.2.trans hwaiting.unlocked
  have hthread := h.thread hinv.running
  have hstill := h.still_waiting hinv.running hwaiting
  cases h with
  | idle hidle =>
      rcases hidle with hidle | hidle
      · exact absurd hwaiting.unlocked hidle
      · exact absurd hwaiting.ready (hidle t)
  | @stays d _ hd hrun hbest =>
      obtain rfl := Option.some_inj.mp (hc.symm.trans hd)
      refine Or.inl ⟨rfl, hrun, ?_⟩
      rcases hbest t hwaiting.ready with hlt | ⟨-, hyields⟩
      · exact absurd (hwaiting.highest c (Or.inr hrun)) (not_le.mpr hlt)
      · exact hyields
  | @switch d best rest _ hd hlist hready hbest hstays =>
      obtain rfl := Option.some_inj.mp (hc.symm.trans hd)
      have hne := hinv.running.ne_of_ready hc hready
      have hequal : (s.thread best).currentPriority = (s.thread t).currentPriority :=
        le_antisymm (hbest t hwaiting.ready) (hwaiting.highest best (Or.inl hready))
      refine Or.inr ?_
      by_cases htbest : t = best
      · subst htbest
        exact Or.inl (hwaiting.switched_served hne hlock)
      · rw [hequal] at hlist
        have hmem : t ∈ rest := by
          have hmem := hwaiting.mem hinv.table
          rw [hlist] at hmem
          exact (List.mem_cons.mp hmem).resolve_left htbest
        have hticks (u : ι) :
            ((s.switched c best).thread u).remainingTick = (s.thread u).remainingTick := by
          obtain ⟨stat, yields, heq, -⟩ := hthread u
          exact (congrArg Thread.remainingTick heq).trans rfl
        refine Or.inr ⟨hstill (switched_thread hne htc htbest), ?_⟩
        change (s.switched c best).wait t = s.queued t
        rw [State.wait, switched_current, queued, queued, switched_before hne htc htbest hlist hmem,
          List.map_cons, List.sum_cons, Option.elim_some, hticks]
        exact congrArg (_ + List.sum ·) (List.map_congr_left fun u _ => by rw [hticks])

end State

open State
variable {now : BitVec 32} {t : ι} {s s' : State ι} {label : Label ι}

/-! ### Moves that schedule nothing -/

/-- Moves that neither schedule nor touch the time slices or the lock. -/
def Label.Quiet (label : Label ι) : Prop :=
  label ≠ .schedule ∧ label ≠ .slice ∧ label ≠ .refill ∧ label ≠ .lock

theorem rtScheduleInsertThread_lists (t : ι) (s : State ι) (p : ℕ) :
    ∃ l, (s.rtScheduleInsertThread t).ready.lists p = s.ready.lists p ++ l := by
  unfold rtScheduleInsertThread
  split_ifs
  · exact ⟨[], (List.append_nil _).symm⟩
  · by_cases hp : p = (s.thread t).currentPriority
    · subst hp
      refine ⟨[t], ?_⟩
      simp only [setStat, setThread_thread_self, Buckets.push_lists_self]
      rfl
    · refine ⟨[], ?_⟩
      have hpriority : ((s.setStat t .ready).thread t).currentPriority =
          (s.thread t).currentPriority := by
        rw [setStat, setThread_thread_self]
      dsimp only
      rw [hpriority, Buckets.push_lists_of_ne hp, List.append_nil]
      rfl

theorem Move.lists (h : Move label s s') (hschedule : label ≠ .schedule) (p : ℕ) :
    ∃ l, s'.ready.lists p = s.ready.lists p ++ l := by
  cases h with
  | schedule => exact absurd rfl hschedule
  | wake => exact rtScheduleInsertThread_lists _ _ p
  | resume => exact rtScheduleInsertThread_lists _ _ p
  | start => exact rtScheduleInsertThread_lists _ _ p
  | _ => exact ⟨[], (List.append_nil _).symm⟩

/-- A thread that such a move is not about keeps its state and its yield. -/
theorem Move.still (h : Move label s s') (hquiet : label.Quiet) {u : ι}
    (hu : label.about ≠ some u) :
    (s'.thread u).stat = (s.thread u).stat ∧ (s'.thread u).yields = (s.thread u).yields := by
  have hne {t : ι} (ht : some t ≠ some u) : u ≠ t := fun h => ht (congrArg some h.symm)
  obtain ⟨hschedule, hslice, hrefill, hlock⟩ := hquiet
  cases h with
  | schedule => exact absurd rfl hschedule
  | slice => exact absurd rfl hslice
  | refill => exact absurd rfl hrefill
  | lock => exact absurd rfl hlock
  | adjust =>
      exact ⟨setThread_thread_proj Thread.stat rfl u, setThread_thread_proj Thread.yields rfl u⟩
  | clock => exact ⟨rfl, rfl⟩
  | wake =>
      rw [rtScheduleInsertThread_thread_of_ne (hne hu), setThread_thread_of_ne (hne hu),
        clearTimer_thread_of_ne (hne hu)]
      exact ⟨rfl, rfl⟩
  | resume =>
      rw [rtScheduleInsertThread_thread_of_ne (hne hu), clearTimer_thread_of_ne (hne hu)]
      exact ⟨rfl, rfl⟩
  | start =>
      rw [rtScheduleInsertThread_thread_of_ne (hne hu), setThread_thread_of_ne (hne hu)]
      exact ⟨rfl, rfl⟩
  | suspend =>
      rw [setStat, setThread_thread_of_ne (hne hu)]
      exact ⟨rfl, rfl⟩
  | arm =>
      rw [rtTimerStart_thread_of_ne (hne hu), setThread_thread_of_ne (hne hu)]
      exact ⟨rfl, rfl⟩
  | close =>
      rw [setThread_thread_of_ne (hne hu), clearTimer_thread_of_ne (hne hu)]
      exact ⟨rfl, rfl⟩

/-- A ready thread waits no longer after such a move, unless it wakes somebody before it. -/
theorem Move.waiting (h : Move label s s') (hquiet : label.Quiet) (hinv : Inv now s)
    (hwaiting : Waiting t s)
    (hhighest : ∀ u, (s'.thread u).Awake →
      (s'.thread t).currentPriority ≤ (s'.thread u).currentPriority) :
    Waiting t s' ∧ s'.wait t = s.wait t := by
  obtain ⟨hschedule, hslice, hrefill, hlock⟩ := hquiet
  obtain ⟨c, hc, -⟩ := hinv.running.current
  have htc := hwaiting.current hinv.running hc
  have habout : label.about ≠ some t := by
    intro habout
    have hown := h.about_awake hinv habout (Or.inl hwaiting.ready)
    exact htc (Option.some_inj.mp (hown.1.symm.trans hc))
  have hremaining :=
    h.proj Thread.remainingTick (fun _ _ _ _ _ _ => rfl) hinv.running hslice hrefill
  have hinit := h.proj Thread.initTick (fun _ _ _ _ _ _ => rfl) hinv.running hslice hrefill
  obtain ⟨l, hl⟩ := h.lists hschedule (s.thread t).currentPriority
  obtain ⟨hstat, hyields⟩ := h.still ⟨hschedule, hslice, hrefill, hlock⟩ habout
  refine ⟨⟨hstat.trans hwaiting.ready, hyields.trans hwaiting.fresh,
    (h.lockNest hlock).trans hwaiting.unlocked, fun u => ?_, hhighest⟩, ?_⟩
  · rw [hinit, hremaining]
    exact hwaiting.slices u
  · rw [State.wait, State.wait, h.current hschedule, hc, Option.elim_some, Option.elim_some,
      hremaining, queued_congr (hwaiting.mem hinv.table) (h.currentPriority hinv.running t) hl
        fun u _ => hremaining u]

/-- A move that wakes a thread of higher priority serves the thread that waits. -/
theorem Move.served_or_waiting (h : Move label s s') (hquiet : label.Quiet) (hinv : Inv now s)
    (hwaiting : Waiting t s) : Served t s' ∨ Waiting t s' ∧ s'.wait t = s.wait t := by
  by_cases hout : ∃ u, (s'.thread u).Awake ∧
      (s'.thread u).currentPriority < (s'.thread t).currentPriority
  · exact Or.inl ⟨(h.lockNest hquiet.2.2.2).trans hwaiting.unlocked, Or.inr hout⟩
  · refine Or.inr (h.waiting hquiet hinv hwaiting fun u hu => ?_)
    by_contra hlt
    exact hout ⟨u, hu, not_le.mp hlt⟩

/-! ### The clock interrupt -/

theorem State.Served.scheduled (hs : Served t s) (h : State.Scheduled s s')
    (hrunning : Running s) : Served t s' := by
  have hschedule := Move.schedule h
  have hpriority := hschedule.currentPriority hrunning
  refine ⟨h.frame.2.2.trans hs.1, ?_⟩
  rcases hs.2 with ⟨hc, hrun, hyields⟩ | ⟨u, hu, hlt⟩
  · cases h with
    | idle => exact Or.inl ⟨hc, hrun, hyields⟩
    | @stays c =>
        refine Or.inl ⟨(clearYield_frame c s).2.2.2.trans hc, ?_, ?_⟩
        · rw [clearYield_thread]
          exact hrun
        · rw [clearYield_thread, hyields]
          rfl
    | @switch c best rest _ hd _ hready _ hstays =>
        obtain rfl := Option.some_inj.mp (hc.symm.trans hd)
        have hne := hrunning.ne_of_ready hc hready
        refine Or.inr ⟨best, Or.inr ?_, ?_⟩
        · rw [switchThread_thread_best hne]
        · rw [hpriority, hpriority]
          by_contra hle
          rw [not_lt] at hle
          rcases lt_or_eq_of_le hle with hlt | heq
          · exact hstays ⟨hrun, Or.inl (Fin.lt_def.mp hlt)⟩
          · exact hstays ⟨hrun, Or.inr ⟨congrArg Fin.val heq, hyields⟩⟩
  · refine Or.inr ⟨u, hschedule.awake hrunning (by simp [Label.about]) hu, ?_⟩
    rw [hpriority, hpriority]
    exact hlt

theorem State.Served.wakes (hs : Served t s) (h : Move label s s') (hquiet : label.Quiet)
    (hrunning : Running s) (habout : ∀ u, (s.thread u).Awake → label.about ≠ some u) :
    Served t s' := by
  have hpriority := h.currentPriority hrunning
  refine ⟨(h.lockNest hquiet.2.2.2).trans hs.1, ?_⟩
  rcases hs.2 with ⟨hc, hrun, hyields⟩ | ⟨u, hu, hlt⟩
  · obtain ⟨hstat', hyields'⟩ := h.still hquiet (habout t (Or.inr hrun))
    exact Or.inl ⟨(h.current hquiet.1).trans hc, hstat'.trans hrun, hyields'.trans hyields⟩
  · refine Or.inr ⟨u, h.awake hrunning (habout u hu) hu, ?_⟩
    rw [hpriority, hpriority]
    exact hlt

theorem State.Served.woken (hs : Served t s) (h : Woken s s') : Served t s' := by
  obtain ⟨v, s₁, ⟨now, hinv⟩, hwake, hscheduled⟩ := h
  have habout (u : ι) (hu : (s.thread u).Awake) : (Label.wake v).about ≠ some u := by
    intro habout
    obtain h | h := (hwake.about_awake hinv habout hu).2
    · cases h
    · cases h
  exact (hs.wakes hwake (by simp [Label.Quiet]) hinv.running habout).scheduled hscheduled
    (hwake.inv hinv (by simp)).running

/-- A thread other than the current one waits as before when the current one is changed in
what the wait does not depend on. -/
theorem State.Waiting.setThread (hwaiting : Waiting t s) {c : ι} (htc : t ≠ c)
    {f : Thread → Thread} (hstat : (f (s.thread c)).stat = (s.thread c).stat)
    (hpriority : (f (s.thread c)).currentPriority = (s.thread c).currentPriority)
    (hinit : (f (s.thread c)).initTick ≠ 0) (hremaining : (f (s.thread c)).remainingTick ≠ 0) :
    Waiting t (s.setThread c f) := by
  have hself := setThread_thread_of_ne htc f s
  refine ⟨?_, ?_, hwaiting.unlocked, fun u => ?_, fun u hu => ?_⟩
  · rw [hself]
    exact hwaiting.ready
  · rw [hself]
    exact hwaiting.fresh
  · by_cases huc : u = c
    · subst huc
      rw [setThread_thread_self]
      exact ⟨hinit, hremaining⟩
    · rw [setThread_thread_of_ne huc]
      exact hwaiting.slices u
  · rw [hself, setThread_thread_proj Thread.currentPriority hpriority]
    rw [Thread.Awake, setThread_thread_proj Thread.stat hstat] at hu
    exact hwaiting.highest u hu

theorem queued_setThread (hwaiting : Waiting t s) (hinv : Inv now s) {c : ι}
    (hc : s.rtCurrentThread = some c) (f : Thread → Thread) :
    (s.setThread c f).queued t = s.queued t := by
  have htc := hwaiting.current hinv.running hc
  refine queued_congr (l := []) (hwaiting.mem hinv.table) ?_ (List.append_nil _).symm fun u hu => ?_
  · rw [setThread_thread_of_ne htc]
  · have huc : u ≠ c := by
      rintro rfl
      exact (hinv.running.of_current hc).1 ((hinv.table.filed.mem _ u).mp hu).1
    rw [setThread_thread_of_ne huc]

/-- A scheduling makes no ready thread wait longer. -/
theorem Scheduled.waiting (h : State.Scheduled s s') (hinv : Inv now s) (hwaiting : Waiting t s) :
    Served t s' ∨ Waiting t s' ∧ s'.wait t ≤ s.wait t := by
  obtain ⟨c, hc, -⟩ := hinv.running.current
  have htc := hwaiting.current hinv.running hc
  rcases h.wait hinv hwaiting hc with ⟨rfl, hrun, -⟩ | hserved | ⟨hwaiting', hwait⟩
  · have hclear : s.clearYield c = s.setThread c fun th => { th with yields := false } := by
      rw [clearYield, if_pos hrun]
    rw [hclear]
    refine Or.inr ⟨hwaiting.setThread htc rfl rfl (hwaiting.slices c).1 (hwaiting.slices c).2, ?_⟩
    have hcurrent : (s.setThread c fun th => { th with yields := false }).rtCurrentThread =
        some c := hc
    rw [State.wait, State.wait, hcurrent, hc, queued_setThread hwaiting hinv hc, Option.elim_some,
      Option.elim_some, setThread_thread_self]
  · exact Or.inl hserved
  · refine Or.inr ⟨hwaiting', ?_⟩
    rw [hwait, State.wait]
    omega

theorem Woken.waiting (h : Woken s s') (hwaiting : Waiting t s) :
    Served t s' ∨ Waiting t s' ∧ s'.wait t ≤ s.wait t := by
  obtain ⟨v, s₁, ⟨now, hinv⟩, hwake, hscheduled⟩ := h
  have hinv₁ := hwake.inv hinv (by simp)
  rcases hwake.served_or_waiting (by simp [Label.Quiet]) hinv hwaiting with
    hserved | ⟨hwaiting₁, hwait₁⟩
  · exact Or.inl (hserved.scheduled hscheduled hinv₁.running)
  · rw [← hwait₁]
    exact Scheduled.waiting hscheduled hinv₁ hwaiting₁

/-- At the end of its slice the current thread gives way, and its ticks are waited no more. -/
theorem refilled_waiting {c : ι} (h : State.Scheduled (refilled c s) s') (hinv : Inv now s)
    (hwaiting : Waiting t s) (hc : s.rtCurrentThread = some c) :
    Served t s' ∨ Waiting t s' ∧ s'.wait t = s.queued t := by
  have htc := hwaiting.current hinv.running hc
  have hwaiting₁ : Waiting t (refilled c s) :=
    hwaiting.setThread htc rfl rfl (hwaiting.slices c).1 (hwaiting.slices c).1
  rcases h.wait ((Move.refill hc).inv hinv (by simp)) hwaiting₁ hc with
    ⟨-, -, hyields⟩ | hserved | ⟨hwaiting', hwait⟩
  · rw [refilled, setThread_thread_self] at hyields
    exact Bool.noConfusion hyields
  · exact Or.inl hserved
  · exact Or.inr ⟨hwaiting', hwait.trans (queued_setThread hwaiting hinv hc _)⟩

theorem refilled_slice (c : ι) (s : State ι) : refilled c (s.setThread c fun th =>
    { th with remainingTick := th.remainingTick - 1 }) = refilled c s := by
  simp [refilled, State.setThread]

/-- The tick of the current thread is a tick less to wait. -/
theorem Sliced.waiting {c : ι} (h : Sliced c s s') (hinv : Inv now s) (hwaiting : Waiting t s)
    (hc : s.rtCurrentThread = some c) : Served t s' ∨ Waiting t s' ∧ s'.wait t < s.wait t := by
  have htc := hwaiting.current hinv.running hc
  have hpos : (s.thread c).remainingTick.toNat ≠ 0 := toNat_ne_zero.mp (hwaiting.slices c).2
  have hwait : s.wait t = (s.thread c).remainingTick.toNat + s.queued t := by
    rw [State.wait, hc, Option.elim_some]
  rcases h with ⟨hleft, rfl⟩ | ⟨-, hscheduled⟩
  · refine Or.inr ⟨hwaiting.setThread htc rfl rfl (hwaiting.slices c).1 hleft, ?_⟩
    have hcurrent : (s.setThread c fun th =>
        { th with remainingTick := th.remainingTick - 1 }).rtCurrentThread = some c := hc
    have hless : ((s.thread c).remainingTick - 1).toNat = (s.thread c).remainingTick.toNat - 1 := by
      rw [BitVec.toNat_sub_of_le]
      · rfl
      · rw [BitVec.le_def]
        exact Nat.one_le_iff_ne_zero.mpr hpos
    rw [hwait, State.wait, hcurrent, queued_setThread hwaiting hinv hc, Option.elim_some,
      setThread_thread_self, hless]
    omega
  · rw [refilled_slice] at hscheduled
    rcases refilled_waiting hscheduled hinv hwaiting hc with hserved | ⟨hwaiting', hwait'⟩
    · exact Or.inl hserved
    · exact Or.inr ⟨hwaiting', by omega⟩

/-! ### The slices of all threads -/

/-- Every thread has its slice, and a part of it left. -/
def Slices (thread : ι → Thread) (s : State ι) : Prop :=
  ∀ u, (s.thread u).initTick = (thread u).initTick ∧ (s.thread u).remainingTick ≠ 0 ∧
    (s.thread u).remainingTick ≤ (thread u).initTick

section Slices
variable {thread : ι → Thread} (hthread : ∀ u, (thread u).initTick ≠ 0)
include hthread

theorem Move.slices (h : Move label s s') (hrunning : Running s) (hlabel : label ≠ .slice)
    (hs : Slices thread s) : Slices thread s' := by
  intro u
  by_cases hrefill : label = .refill
  · subst hrefill
    cases h with
    | @refill s c =>
        by_cases huc : u = c
        · subst huc
          rw [setThread_thread_self, (hs u).1]
          exact ⟨rfl, hthread u, BitVec.le_refl _⟩
        · rw [setThread_thread_of_ne huc]
          exact hs u
  · rw [h.proj Thread.initTick (fun _ _ _ _ _ _ => rfl) hrunning hlabel hrefill,
      h.proj Thread.remainingTick (fun _ _ _ _ _ _ => rfl) hrunning hlabel hrefill]
    exact hs u

theorem Sliced.slices {c : ι} (h : Sliced c s s') (hinv : Inv now s)
    (hc : s.rtCurrentThread = some c) (hs : Slices thread s) : Slices thread s' := by
  rcases h with ⟨hleft, rfl⟩ | ⟨-, hscheduled⟩
  · intro u
    by_cases huc : u = c
    · subst huc
      rw [setThread_thread_self]
      obtain ⟨hinit, hpos, hle⟩ := hs u
      have hpos := toNat_ne_zero.mp hpos
      refine ⟨hinit, hleft, ?_⟩
      rw [BitVec.le_def] at hle ⊢
      rw [BitVec.toNat_sub_of_le (by rw [BitVec.le_def]; exact Nat.one_le_iff_ne_zero.mpr hpos)]
      omega
    · rw [setThread_thread_of_ne huc]
      exact hs u
  · rw [refilled_slice] at hscheduled
    have hrefill := Move.refill hc
    exact (Move.schedule hscheduled).slices hthread (hrefill.inv hinv (by simp)).running (by simp)
      (hrefill.slices hthread hinv.running (by simp) hs)

theorem Woken.slices (h : Woken s s') (hs : Slices thread s) : Slices thread s' := by
  obtain ⟨v, s₁, ⟨now, hinv⟩, hwake, hscheduled⟩ := h
  exact (Move.schedule hscheduled).slices hthread (hwake.inv hinv (by simp)).running (by simp)
    (hwake.slices hthread hinv.running (by simp) hs)

/-- The slices last. -/
theorem step_slices (hinv : Ordered s) {a : Action ι} (ha : Admissible s a)
    (hs : Slices thread s) (h : step s a = some s') : Slices thread s' := by
  obtain ⟨c, hc, -⟩ := hinv.running.current
  obtain ⟨s₁, hs₁, -, hmoves⟩ := step_moves hinv ha
  obtain rfl := Option.some_inj.mp (hs₁.symm.trans h)
  cases htick : a.isTick with
  | true =>
      have ha : a = .tick := by cases a <;> first | rfl | exact Bool.noConfusion htick
      subst ha
      obtain ⟨s₂, s₃, hs₃, hsliced, -, -, hwoken, -⟩ := rtTickIncrease_spec hinv hc
      obtain rfl := Option.some_inj.mp (hs₃.symm.trans h)
      have hclock : Move .clock s _ := .clock
      have hs₂ := hsliced.slices hthread (hclock.inv hinv (by simp)) hc hs
      clear hs₃ hs₁ h hmoves
      induction hwoken with
      | refl => exact hs₂
      | tail _ hstep ih => exact hstep.slices hthread ih
  | false =>
      refine hmoves.keeps (fun {label s s'} hlabel hinv hmove hs => ?_) hs
      refine hmove.slices hthread hinv.choose_spec.running ?_ hs
      rintro rfl
      cases a <;> simp_all [Action.Allows, Action.isTick]

end Slices

end ExpertCar.Kernel
