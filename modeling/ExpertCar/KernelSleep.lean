import ExpertCar.KernelRuns

/-!
# Sleeping threads

A thread that sleeps is left alone by all moves but those about itself, and its timer
keeps its place while the other threads run, sleep and wake. So it wakes with the
clock interrupt it asked for, not before and not after.
-/
namespace ExpertCar.Kernel
open PriorityBuckets TickOrder
variable {ι : Type*} [DecidableEq ι]

/-- The thread `t` sleeps until its timer expires at the deadline. -/
def Asleep (deadline : BitVec 32) (t : ι) (s : State ι) : Prop :=
  (s.thread t).stat = .suspend ∧ (s.thread t).timer.activated = true ∧
    (s.thread t).timer.timeoutTick = deadline

open State
variable {now deadline : BitVec 32} {t : ι} {s s' : State ι} {label : Label ι}

/-- A move about a thread that sleeps wakes or resumes it, or is one of its own. -/
theorem Move.about_asleep (h : Move label s s') (habout : label.about = some t)
    (hstat : (s.thread t).stat = .suspend) :
    label = .wake t ∨ label = .resume t ∨
      s.rtCurrentThread = some t ∧ (label = .arm t ∨ label = .close t) := by
  cases h with
  | @wake s u hactive =>
      obtain rfl := Option.some_inj.mp habout
      exact Or.inl rfl
  | @resume s u =>
      obtain rfl := Option.some_inj.mp habout
      exact Or.inr (Or.inl rfl)
  | @start s u hinit =>
      obtain rfl := Option.some_inj.mp habout
      exact Stat.noConfusion (hstat.symm.trans hinit)
  | @suspend s u hc hawake =>
      obtain rfl := Option.some_inj.mp habout
      rw [Thread.Awake, hstat] at hawake
      exact absurd hawake (by decide)
  | @arm s u tick hc =>
      obtain rfl := Option.some_inj.mp habout
      exact Or.inr (Or.inr ⟨hc, Or.inl rfl⟩)
  | @close s u hc =>
      obtain rfl := Option.some_inj.mp habout
      exact Or.inr (Or.inr ⟨hc, Or.inr rfl⟩)
  | _ => simp [Label.about] at habout

theorem Move.asleep (h : Move label s s') (hrunning : Running s) (hsleep : Asleep deadline t s)
    (habout : label.about ≠ some t) : Asleep deadline t s' := by
  obtain ⟨htimer, hstat⟩ := h.other hrunning habout
  refine ⟨?_, by rw [htimer]; exact hsleep.2.1, by rw [htimer]; exact hsleep.2.2⟩
  rcases hstat with hstat | ⟨-, hawake⟩
  · exact hstat.trans hsleep.1
  · rw [Thread.Awake, hsleep.1] at hawake
    exact absurd hawake (by decide)

/-- A step of the timer check leaves a thread asleep, or its time has come and it is awake. -/
theorem Woken.asleep (h : Woken s s')
    (hsleep : Asleep deadline t s ∨ Due halfTickMax s.rtTick deadline ∧ (s.thread t).Awake) :
    s'.rtTick = s.rtTick ∧
      (Asleep deadline t s' ∨ Due halfTickMax s'.rtTick deadline ∧ (s'.thread t).Awake) := by
  obtain ⟨u, s₁, ⟨now, hinv⟩, hwake, hscheduled⟩ := h
  have hrunning := (hwake.inv hinv (by simp)).running
  have hschedule := Move.schedule hscheduled
  have htick : s'.rtTick = s.rtTick := (hschedule.rtTick (by simp)).trans (hwake.rtTick (by simp))
  refine ⟨htick, ?_⟩
  rw [htick]
  rcases hsleep with hsleep | ⟨hdue, hawake⟩
  · by_cases hut : u = t
    · subst hut
      refine Or.inr ⟨?_, hschedule.awake hrunning (by simp [Label.about]) ?_⟩
      · cases hwake with
        | wake hactive hdue =>
            rw [hsleep.2.2] at hdue
            exact hdue
      · exact hwake.wake_awake
    · have habout : (Label.wake u).about ≠ some t := fun h => hut (Option.some_inj.mp h)
      exact Or.inl (hschedule.asleep hrunning (hwake.asleep hinv.running hsleep habout)
        (by simp [Label.about]))
  · have habout : (Label.wake u).about ≠ some t := by
      intro habout
      obtain h | h := (hwake.about_awake hinv habout hawake).2
      · cases h
      · cases h
    exact Or.inr ⟨hdue, hschedule.awake hrunning (by simp [Label.about])
      (hwake.awake hinv.running habout hawake)⟩

theorem Woken.asleep_run (h : Relation.ReflTransGen Woken s s') (hsleep : Asleep deadline t s) :
    s'.rtTick = s.rtTick ∧
      (Asleep deadline t s' ∨ Due halfTickMax s'.rtTick deadline ∧ (s'.thread t).Awake) := by
  induction h with
  | refl => exact ⟨rfl, Or.inl hsleep⟩
  | tail _ hstep ih =>
      obtain ⟨htick, hsleep'⟩ := hstep.asleep ih.2
      exact ⟨htick.trans ih.1, hsleep'⟩

/-- A clock interrupt leaves a thread asleep exactly until its deadline. -/
theorem tick_asleep (hinv : Ordered s) (hsleep : Asleep deadline t s) :
    ∃ s', step s .tick = some s' ∧ Ordered s' ∧ s'.rtTick = s.rtTick + 1 ∧
      if remaining s.rtTick deadline ≤ 1 then (s'.thread t).Awake
      else Asleep deadline t s' ∧ remaining s'.rtTick deadline = remaining s.rtTick deadline - 1 := by
  obtain ⟨c, hc, -⟩ := hinv.running.current
  obtain ⟨s₁, s', hs', hsliced, hinv₁, htick₁, hwoken, hinv', htick', hdue⟩ :=
    rtTickIncrease_spec hinv hc
  have hclock : Move .clock s _ := .clock
  have hsleep₁ : Asleep deadline t s₁ := by
    refine Moves.keeps (fun {label s s'} hlabel hinv hmove hsleep => ?_)
      (hsliced.moves (hclock.inv hinv (by simp)) hc) hsleep
    have habout : label.about ≠ some t := by
      rcases hlabel with rfl | rfl | rfl <;> simp [Label.about]
    exact hmove.asleep hinv.choose_spec.running hsleep habout
  have hend := (Woken.asleep_run hwoken hsleep₁).2
  have hmem : t ∈ s.timerList := (hinv.clock.mem t).mpr hsleep.2.1
  have hnear : remaining s.rtTick deadline < halfTickMax.toNat :=
    hsleep.2.2 ▸ hinv.clock.near t hmem
  have hdue_iff := due_succ_iff (by decide) (by decide) hnear
  rw [← htick'] at hdue_iff
  refine ⟨s', hs', hinv', htick', ?_⟩
  split_ifs with h
  · rcases hend with hsleep' | ⟨-, hawake⟩
    · have hmem' := (hinv'.clock.mem t).mpr hsleep'.2.1
      have hnot := hdue t hmem'
      rw [timeouts, hsleep'.2.2] at hnot
      exact absurd (hdue_iff.mpr h) hnot
    · exact hawake
  · rcases hend with hsleep' | ⟨hdue', -⟩
    · refine ⟨hsleep', ?_⟩
      rw [htick', remaining_succ]
      omega
    · exact absurd (hdue_iff.mp hdue') h

def Action.isTick : Action ι → Bool
  | .tick => true
  | _ => false

/-- Nobody resumes the thread `t`, and while it sleeps it makes no blocking call itself. -/
def LeftAlone (t : ι) (s : State ι) (a : Action ι) : Prop :=
  (∀ u, a = .resume u → u ≠ t) ∧
    (a.Blocks → (s.thread t).stat = .suspend → s.rtCurrentThread ≠ some t)

/-- What is no clock interrupt leaves the thread asleep and the clock as it is. -/
theorem Moves.asleep {a : Action ι} (h : Moves a.Allows s s') (ha : a.isTick = false)
    (hleft : LeftAlone t s a) (hsleep : Asleep deadline t s) :
    Asleep deadline t s' ∧ s'.rtTick = s.rtTick := by
  have hkeeps := h.keeps (P := fun s₁ => (Asleep deadline t s₁ ∧ s₁.rtTick = s.rtTick) ∧
    (a.Blocks → s₁.rtCurrentThread ≠ some t)) ?_ ⟨⟨hsleep, rfl⟩, fun hb => hleft.2 hb hsleep.1⟩
  · exact hkeeps.1
  · rintro label s₁ s₂ hlabel ⟨now, hinv⟩ hmove ⟨⟨hsleep₁, htick₁⟩, hcurrent⟩
    have hclock : label ≠ .clock := by
      rintro rfl
      cases a <;> simp_all [Action.Allows, Action.isTick]
    have habout : label.about ≠ some t := by
      intro habout
      rcases hmove.about_asleep habout hsleep₁.1 with rfl | rfl | ⟨hc, hown⟩
      · cases a <;> simp_all [Action.Allows, Action.isTick]
      · cases a <;> simp_all [Action.Allows, LeftAlone]
      · refine hcurrent ?_ hc
        rcases hown with rfl | rfl <;> cases a <;> simp_all [Action.Allows, Action.Blocks]
    refine ⟨⟨hmove.asleep hinv.running hsleep₁ habout, (hmove.rtTick hclock).trans htick₁⟩,
      fun hb => ?_⟩
    rw [hmove.current (hb.ne_schedule hlabel)]
    exact hcurrent hb

/-- However the other threads run meanwhile, a thread stays asleep as long as ticks remain. -/
theorem run_asleep {as : List (Action ι)} (hinv : Ordered s) (hlegal : Legal s as)
    (hleft : Along (LeftAlone t) s as) (hsleep : Asleep deadline t s)
    (hticks : as.countP Action.isTick < max (remaining s.rtTick deadline) 1) :
    ∃ s', run s as = some s' ∧ Ordered s' ∧ Asleep deadline t s' ∧
      remaining s'.rtTick deadline = remaining s.rtTick deadline - as.countP Action.isTick := by
  induction as generalizing s with
  | nil => exact ⟨s, rfl, hinv, hsleep, rfl⟩
  | cons a as ih =>
      cases ha : a.isTick with
      | false =>
          obtain ⟨s₁, hs₁, hinv₁, hmoves⟩ := step_moves hinv hlegal.1
          obtain ⟨hsleep₁, htick₁⟩ := hmoves.asleep ha hleft.1 hsleep
          rw [List.countP_cons_of_neg (by rw [ha]; simp)] at hticks ⊢
          rw [← htick₁] at hticks ⊢
          rw [run_cons hs₁]
          exact ih hinv₁ (hlegal.2 s₁ hs₁) (hleft.2 s₁ hs₁) hsleep₁ hticks
      | true =>
          have htick : a = .tick := by cases a <;> first | rfl | exact Bool.noConfusion ha
          subst htick
          rw [List.countP_cons_of_pos rfl] at hticks ⊢
          obtain ⟨s₁, hs₁, hinv₁, -, hafter⟩ := tick_asleep hinv hsleep
          rw [if_neg (by omega)] at hafter
          rw [run_cons hs₁]
          obtain ⟨s', hs', hinv', hsleep', hremaining⟩ := ih hinv₁ (hlegal.2 s₁ hs₁)
            (hleft.2 s₁ hs₁) hafter.1 (by rw [hafter.2]; omega)
          refine ⟨s', hs', hinv', hsleep', ?_⟩
          rw [hremaining, hafter.2]
          omega

theorem rtTickFromMillisecond_toNat {ms : ℤ} (hlow : 0 ≤ ms) (hhigh : ms < 2 ^ 31) :
    ((rtTickFromMillisecond ms).toNat : ℤ) = ms := by
  have hms : 1000 * (ms / 1000) + (1000 * (ms % 1000) + 999) / 1000 = ms := by omega
  rw [rtTickFromMillisecond, if_neg (by omega), hms, BitVec.toNat_ofInt]
  omega

/-- Delays that are not negative and shorter than half the clock can be set. -/
theorem rtTickFromMillisecond_lt_iff {ms : ℤ} (hlow : -2 ^ 31 ≤ ms) (hhigh : ms < 2 ^ 31) :
    rtTickFromMillisecond ms < halfTickMax ↔ ¬ (ms < 0 ∨ ms = 2 ^ 31 - 1) := by
  have hmax : (halfTickMax.toNat : ℤ) = 2 ^ 31 - 1 := rfl
  rw [BitVec.lt_def]
  by_cases hneg : ms < 0
  · rw [rtTickFromMillisecond, if_pos hneg]
    exact iff_of_false (by decide) fun h => h (Or.inl hneg)
  · have htick := rtTickFromMillisecond_toNat (not_lt.mp hneg) hhigh
    omega

/-- A delay of the current thread fails its assertion when it is negative or longer than
the clock can tell. Else the thread sleeps through all clock interrupts before the last of
its delay and wakes with that one, whatever the other threads do meanwhile short of resuming
it, and wherever the clock wraps. -/
theorem mdelay_exact (hinv : Ordered s) {c : ι} (hc : s.rtCurrentThread = some c)
    (hclose : (s.thread c).stat ≠ .close) {ms : ℤ} (hlow : -2 ^ 31 ≤ ms) (hhigh : ms < 2 ^ 31) :
    if ms < 0 ∨ ms = 2 ^ 31 - 1 then s.rtThreadMdelay ms = none
    else ∃ s₀, s.rtThreadMdelay ms = some s₀ ∧ Ordered s₀ ∧
      ∀ as, Legal s₀ as → Along (LeftAlone c) s₀ as →
        (as.countP Action.isTick : ℤ) < max ms 1 →
        ∃ s', run s₀ as = some s' ∧ Ordered s' ∧ (s'.thread c).stat = .suspend ∧
          ((as.countP Action.isTick : ℤ) + 1 = max ms 1 →
            ∃ s'', step s' .tick = some s'' ∧ (s''.thread c).Awake) := by
  have hlt := rtTickFromMillisecond_lt_iff hlow hhigh
  split_ifs with hms
  · have hfails : ¬ rtTickFromMillisecond ms < halfTickMax := fun h => hlt.mp h hms
    simp only [rtThreadMdelay, rtThreadSleep, hc, rtTimerSetTime, if_neg hfails,
      Option.bind_eq_bind, Option.bind_some, Option.bind_none]
    cases (s.setThread c fun th => { th with error := .eok }).rtThreadSuspend c <;> rfl
  · obtain ⟨s₀, hs₀, hinv₀, htick₀, -, hstat₀, htimer₀, -⟩ :=
      rtThreadSleep_spec hinv hc (hlt.mpr hms) hclose
    have hsleep : Asleep (s.rtTick + rtTickFromMillisecond ms) c s₀ :=
      ⟨hstat₀, by rw [htimer₀], by rw [htimer₀]⟩
    have hremaining : (remaining s₀.rtTick (s.rtTick + rtTickFromMillisecond ms) : ℤ) = ms := by
      rw [htick₀, remaining_add]
      exact rtTickFromMillisecond_toNat (by omega) hhigh
    refine ⟨s₀, hs₀, hinv₀, fun as hlegal hleft hticks => ?_⟩
    obtain ⟨s', hs', hinv', hsleep', hremaining'⟩ :=
      run_asleep hinv₀ hlegal hleft hsleep (by omega)
    refine ⟨s', hs', hinv', hsleep'.1, fun hlast => ?_⟩
    obtain ⟨s'', hs'', -, -, hafter⟩ := tick_asleep hinv' hsleep'
    rw [if_pos (by omega)] at hafter
    exact ⟨s'', hs'', hafter⟩

/-- The first thread of the car sleeps for three ticks. -/
theorem mdelay_exact_car : ∃ s first s₀ s' s'',
    rtthreadStartup carThread [.main, .timer] = some s ∧ s.rtCurrentThread = some first ∧
      s.rtThreadMdelay 3 = some s₀ ∧ run s₀ [.schedule, .tick, .tick] = some s' ∧
      (s'.thread first).stat = .suspend ∧ step s' .tick = some s'' ∧ (s''.thread first).Awake := by
  obtain ⟨s, first, hs, hinv, -, hcurrent, hrun, -⟩ :=
    carThread_startup [.main, .timer] (by decide) (by decide)
  have hdelay := mdelay_exact hinv hcurrent (by rw [hrun]; simp) (show -2 ^ 31 ≤ 3 by decide)
    (by decide)
  rw [if_neg (by decide)] at hdelay
  obtain ⟨s₀, hs₀, -, hasleep⟩ := hdelay
  obtain ⟨s', hs', -, hstat, hwake⟩ := hasleep [.schedule, .tick, .tick]
    ⟨trivial, fun _ _ => ⟨trivial, fun _ _ => ⟨trivial, fun _ _ => trivial⟩⟩⟩
    (by simp [Along, LeftAlone, Action.Blocks])
    (by decide)
  obtain ⟨s'', hs'', hawake⟩ := hwake (by decide)
  exact ⟨s, first, s₀, s', s'', hs, hcurrent, hs₀, hs', hstat, hs'', hawake⟩

end ExpertCar.Kernel
