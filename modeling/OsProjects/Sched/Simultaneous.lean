import OsProjects.Sched.BusyPeriods

/-!
# Simultaneous arrivals

When all tasks arrive together nothing is ever preempted, and SRTF runs each
task to its end, as SJF does. But SJF charges a switch between two tasks and
SRTF does not, because it forgets the pid of a completed task: with two tasks or
more SJF ends later.
-/

namespace OsProjects.Sched

open OsProjects.Lib.Loops OsProjects.Lib.Workload

variable {N : Nat} {tasks : Fin N → Task} {a : Int} {π : Policy N} {s u t : SimState N} {k : Fin N}

/-- The wait for the first arrival, or none. -/
theorem awaitReady_together (hinv : SimInv tasks s)
    (htogether : ∀ i, (tasks i).arrival = a) (hu : s.awaitReady = some u)
    (hready : ready u.P u.now k = true) :
    (s.now ≤ ms a → u.now = ms a) ∧ (ms a ≤ s.now → u = s) := by
  have hP := SimState.awaitReady_P hu
  obtain ⟨hundone, harrived⟩ := ready_iff.mp hready
  rw [hP] at hundone harrived
  have harrival : (s.P k).arrival = a := by rw [(hinv.task k).arrival, htogether k]
  rw [harrival] at harrived
  refine ⟨fun hle => ?_, fun hge => ?_⟩
  · have hlater := SimState.awaitReady_le hu hundone (by rw [harrival]; exact hle)
    rw [harrival] at hlater
    omega
  · have hready : anyReady s.P s.now = true :=
      anyReady_iff.mpr ⟨k, ready_iff.mpr ⟨hundone, by rw [harrival]; exact hge⟩⟩
    exact Option.some.inj (hu.symm.trans (SimState.awaitReady_of_ready hready))

/-! ## SJF -/

/-- All tasks belong to one busy period. -/
theorem InPeriod.step_together (htasks : TasksOk tasks) (ha : 0 ≤ a)
    (htogether : ∀ i, (tasks i).arrival = a)
    (hinv : RunInv tasks s) (hruns : RunsTask tasks s u k t)
    (h : s.prev = pidIdle ∨ InPeriod tasks (ms a) (ms a - csOverhead) s) :
    InPeriod tasks (ms a) (ms a - csOverhead) t := by
  have hwait := awaitReady_together hinv.inv htogether hruns.waits hruns.ready
  by_cases hidle : s.prev = pidIdle
  · have hnow : u.now = ms a := by
      refine hwait.1 ?_
      rw [hinv.first hidle]
      show (0 : Int) ≤ 10 * a
      omega
    have hbegins := AtRest.begins htasks (fun i => by rw [htogether i]; exact ha) hinv
      (Or.inl hidle) hruns
    rw [hnow, if_pos hidle] at hbegins
    exact hbegins
  · have hperiod := h.resolve_left hidle
    have hready : anyReady s.P s.now = true := by
      have hu := hwait.2 hperiod.start_le
      rw [← hu]
      exact anyReady_iff.mpr ⟨k, hruns.ready⟩
    exact hperiod.step htasks hinv hidle hready hruns

/-- The time all bursts take. -/
def totalBurst (tasks : Fin N → Task) : Int := ∑ i, ms (tasks i).burst

theorem sum_cost : ∑ i, (tasks i).cost = totalBurst tasks + N := by
  simp only [Task.cost, totalBurst, csOverhead, Finset.sum_add_distrib]
  simp

/-- SJF charges a switch for each task but the first. -/
theorem runToEnd_together (htasks : TasksOk tasks) (ha : 0 ≤ a)
    (htogether : ∀ i, (tasks i).arrival = a) (hN : 0 < N) (π : Policy N) :
    ∃ fuel t, loop (simBody π.pick SimState.runToEnd) fuel (simInit fun i => (tasks i).load) =
      some t ∧ FullyServed tasks t ∧ t.now = ms a + totalBurst tasks + (N - 1) ∧
      (∀ i, (t.P i).finish ≤ t.now) ∧ ∃ i, (t.P i).finish = t.now := by
  obtain ⟨fuel, t, hloop⟩ := simBody_terminates (π := π) htasks runToEnd_servesReady
  obtain ⟨hreach, hexit⟩ := loop_some hloop
  have hdone := π.all_done_at_exit hexit
  have hstate := hreach.inv (fun s => (RunInv tasks s ∧ ChargeInv s) ∧
    (s.prev = pidIdle ∨ InPeriod tasks (ms a) (ms a - csOverhead) s)) (fun s t h hbody => by
      obtain ⟨u, k, hruns, -⟩ := h.1.1.iteration htasks hbody
      exact ⟨⟨h.1.1.step htasks hruns, h.1.2.step htasks h.1.1 hruns⟩,
        Or.inr (InPeriod.step_together htasks ha htogether h.1.1 hruns h.2)⟩)
    ⟨⟨runInv_init htasks, chargeInv_init tasks⟩, Or.inl rfl⟩
  obtain ⟨⟨hinv, hcharge⟩, hperiod⟩ := hstate
  have hran : t.prev ≠ pidIdle := fun hidle => by
    have hnone := hdone ⟨0, hN⟩
    rw [hinv.first hidle] at hnone
    simp [simInit, Task.load] at hnone
  have hall : t.doneSet = Finset.univ :=
    Finset.eq_univ_of_forall fun i => SimState.mem_doneSet.mpr (hdone i)
  refine ⟨fuel, t, hloop, hinv.inv.fullyServed hdone, ?_, hcharge.finish_le, ?_⟩
  · have hnow := (hperiod.resolve_left hran).now_eq
    rw [hall, Finset.filter_true_of_mem fun i _ => by rw [htogether i], sum_cost] at hnow
    rw [hnow]
    simp only [csOverhead]
    omega
  · obtain ⟨i, -, hi⟩ := hcharge.last.resolve_left hran
    exact ⟨i, hi⟩

/-! ## SRTF -/

/-- SRTF has run each finished task to its end, without a switch. -/
structure SrtfTogether (tasks : Fin N → Task) (a : Int) (s : SimState N) : Prop where
  inv : SimInv tasks s
  prev : s.prev = pidIdle
  unstarted : ∀ i, (s.P i).done = false → (s.P i).started = false
  finish_le : ∀ i, (s.P i).finish ≤ s.now
  now : s = simInit (fun i => (tasks i).load) ∨
    s.now = ms a + ∑ i ∈ s.doneSet, ms (tasks i).burst

theorem nextEvent_last (h : ∀ i, (s.P i).done = false → ms (s.P i).arrival ≤ s.now) :
    s.nextEvent k = s.now + (s.P k).remain := by
  unfold SimState.nextEvent
  cases hnx : nextArrivalAfter s.P s.now with
  | none => rfl
  | some nx =>
      obtain ⟨hundone, hlater⟩ := nextArrivalAfter_some hnx
      exact absurd (h nx hundone) (not_le.mpr hlater)

theorem SrtfTogether.wait (htasks : TasksOk tasks) (ha : 0 ≤ a)
    (htogether : ∀ i, (tasks i).arrival = a) (h : SrtfTogether tasks a s)
    (hu : s.awaitReady = some u) (hready : ready u.P u.now k = true) :
    u.now = ms a + ∑ i ∈ s.doneSet, ms (tasks i).burst := by
  have hwait := awaitReady_together h.inv htogether hu hready
  rcases h.now with hinit | hnow
  · rw [hwait.1 (by rw [hinit]; show (0 : Int) ≤ 10 * a; omega), hinit]
    simp [SimState.doneSet, simInit, Task.load]
  · have hsum : 0 ≤ ∑ i ∈ s.doneSet, ms (tasks i).burst :=
      Finset.sum_nonneg fun i _ => by
        have hburst := htasks.burst_pos i
        show (0 : Int) ≤ 10 * (tasks i).burst
        omega
    rw [hwait.2 (by omega), hnow]

/-- The picked task runs to its end at once. -/
theorem SrtfTogether.serves (htasks : TasksOk tasks)
    (htogether : ∀ i, (tasks i).arrival = a) (h : SrtfTogether tasks a s)
    (hu : s.awaitReady = some u) (hready : ready u.P u.now k = true) :
    Serves u k (ms (tasks k).burst) (u.runToEvent k) ∧ (u.P k).remain = ms (tasks k).burst := by
  have hinvu := h.inv.awaitReady htasks hu
  have hP := SimState.awaitReady_P hu
  obtain ⟨hundone, harrived⟩ := ready_iff.mp hready
  have hremain : (u.P k).remain = ms (tasks k).burst := by
    refine (hinvu.task k).fresh ?_
    rw [hP] at hundone ⊢
    exact h.unstarted k hundone
  have hserves := runToEvent_serves ((hinvu.task k).remain_pos hundone) fun hprev =>
    hinvu.prev_started k (hprev.trans (hinvu.task k).pid)
  have hevent : (u.preempt k).nextEvent k = (u.switchTo k).now + (u.P k).remain := by
    rw [nextEvent_last, SimState.preempt_now, SimState.preempt_remain]
    intro i _
    have hle := SimState.now_le_switchTo (s := u) (k := k)
    rw [(hinvu.task k).arrival, htogether k] at harrived
    rw [SimState.preempt_arrival, SimState.preempt_now, (hinvu.task i).arrival, htogether i]
    omega
  rw [hevent, add_sub_cancel_left, hremain] at hserves
  exact ⟨hserves, hremain⟩

theorem SrtfTogether.step (htasks : TasksOk tasks) (ha : 0 ≤ a)
    (htogether : ∀ i, (tasks i).arrival = a) (h : SrtfTogether tasks a s)
    (hbody : srtfBody s = some t) : SrtfTogether tasks a t := by
  have hinvt : SimInv tasks t := h.inv.step (π := srtf) htasks runToEvent_servesReady hbody
  obtain ⟨u, k, hu, hk, rfl⟩ := simBody_some hbody
  have hready := srtf.picks_ready u.P u.now k hk
  obtain ⟨hundone, -⟩ := ready_iff.mp hready
  have hP := SimState.awaitReady_P hu
  have hwait := (SimState.awaitReady_some hu).2.1
  have hnow := h.wait htasks ha htogether hu hready
  obtain ⟨hserves, hremain⟩ := h.serves htasks htogether hu hready
  have hpos := hserves.pos
  have hend : (u.runToEvent k).now = u.now + ms (tasks k).burst := by
    rw [hserves.now, SimState.switchTo_now, SimState.awaitReady_prev hu, h.prev]
    simp
  have hall : (u.P k).remain - ms (tasks k).burst ≤ 0 := by omega
  have hdone : ((u.runToEvent k).P k).done = true := by
    rw [hserves.P_self, Proc.ran_start_done hundone]
    exact decide_eq_true hall
  have hother : ∀ i, i ≠ k → (u.runToEvent k).P i = s.P i := fun i hi => by
    rw [hserves.P_of_ne hi, hP]
  refine ⟨hinvt, ?_, fun i hi => ?_, fun i => ?_, Or.inr ?_⟩
  · -- SRTF forgets the pid of a task that it completes
    rw [runToEvent_prev, if_pos hdone]
  · have hne : i ≠ k := fun heq => by simp [heq, hdone] at hi
    rw [hother i hne] at hi ⊢
    exact h.unstarted i hi
  · by_cases hi : i = k
    · rw [hi, hserves.P_self, Proc.ran_start_finish hall]
    · have hle := h.finish_le i
      rw [hother i hi]
      omega
  · have hfresh : k ∉ s.doneSet := by
      rw [SimState.mem_doneSet, ← hP, hundone]
      simp
    rw [hserves.doneSet_eq hu hdone, Finset.sum_insert hfresh, hend]
    omega

/-- SRTF charges no switch. -/
theorem srtf_together (htasks : TasksOk tasks) (ha : 0 ≤ a)
    (htogether : ∀ i, (tasks i).arrival = a) (hN : 0 < N) :
    ∃ fuel t, simulateSRTF fuel (fun i => (tasks i).load) = some t ∧ FullyServed tasks t ∧
      t.now = ms a + totalBurst tasks ∧ ∀ i, (t.P i).finish ≤ t.now := by
  obtain ⟨fuel, t, hloop⟩ := simBody_terminates (π := srtf) htasks runToEvent_servesReady
  obtain ⟨hreach, hexit⟩ := loop_some hloop
  have hdone := srtf.all_done_at_exit hexit
  have hstate := hreach.inv (SrtfTogether tasks a) (fun _ _ h => h.step htasks ha htogether)
    ⟨simInit_inv htasks, rfl, fun _ _ => rfl, fun _ => le_rfl, Or.inl rfl⟩
  have hall : t.doneSet = Finset.univ :=
    Finset.eq_univ_of_forall fun i => SimState.mem_doneSet.mpr (hdone i)
  refine ⟨fuel, t, hloop, hstate.inv.fullyServed hdone, ?_, hstate.finish_le⟩
  rcases hstate.now with hinit | hnow
  · have hnone := hdone ⟨0, hN⟩
    rw [hinit] at hnone
    simp [simInit, Task.load] at hnone
  · rw [hnow, hall]
    rfl

/-! ## SRTF and SJF -/

/-- A single task starts when it arrives and ends a burst later. -/
theorem FullyServed.single {tasks : Fin 1 → Task} {s : SimState 1} (h : FullyServed tasks s)
    (hfinish : (s.P 0).finish ≤ ms (tasks 0).arrival + ms (tasks 0).burst) :
    (s.P 0).firstStart = ms (tasks 0).arrival ∧
      (s.P 0).finish = ms (tasks 0).arrival + ms (tasks 0).burst := by
  obtain ⟨-, -, hstart, hend⟩ := h 0
  exact ⟨by omega, by omega⟩

/-- **SRTF and SJF on simultaneous arrivals.** They give all tasks the same times
exactly when there are not two of them. -/
theorem srtf_sjf_agree_iff (htasks : TasksOk tasks) (ha : 0 ≤ a)
    (htogether : ∀ i, (tasks i).arrival = a) :
    ∃ fuel t fuel' t', simulateSRTF fuel (fun i => (tasks i).load) = some t ∧
      simulateSJF fuel' (fun i => (tasks i).load) = some t' ∧ (SameTimes t.P t'.P ↔ N ≤ 1) := by
  rcases Nat.eq_zero_or_pos N with rfl | hN
  · obtain ⟨fuel, t, hloop⟩ := simBody_terminates (π := srtf) htasks runToEvent_servesReady
    obtain ⟨fuel', t', hloop'⟩ := simBody_terminates (π := sjf) htasks runToEnd_servesReady
    exact ⟨fuel, t, fuel', t', hloop, hloop', fun _ => Nat.zero_le 1, fun _ i => i.elim0⟩
  obtain ⟨fuel, t, hloop, hserved, hnow, hle⟩ := srtf_together htasks ha htogether hN
  obtain ⟨fuel', t', hloop', hserved', hnow', hle', i, hi⟩ :=
    runToEnd_together htasks ha htogether hN sjf
  refine ⟨fuel, t, fuel', t', hloop, hloop', fun hsame => ?_, fun hone => ?_⟩
  · -- the task that SJF finishes last is finished earlier by SRTF
    have hlast := hle i
    rw [(hsame i).2, hi] at hlast
    omega
  · obtain rfl : N = 1 := by omega
    have htotal : totalBurst tasks = ms (tasks 0).burst := by simp [totalBurst]
    have hfinish := hle 0
    have hfinish' := hle' 0
    rw [hnow, htotal, ← htogether 0] at hfinish
    rw [hnow', htotal, ← htogether 0] at hfinish'
    have htimes := hserved.single hfinish
    have htimes' := hserved'.single (by simpa using hfinish')
    intro j
    obtain rfl : j = 0 := Subsingleton.elim j 0
    exact ⟨htimes.1.trans htimes'.1.symm, htimes.2.trans htimes'.2.symm⟩

/-- Two tasks that arrive together. -/
def pairTasks : Fin 2 → Task := ![⟨0, 0, 1⟩, ⟨1, 0, 2⟩]

theorem srtf_sjf_agree_pair :
    ∃ fuel t fuel' t', simulateSRTF fuel (fun i => (pairTasks i).load) = some t ∧
      simulateSJF fuel' (fun i => (pairTasks i).load) = some t' ∧ (SameTimes t.P t'.P ↔ 2 ≤ 1) :=
  srtf_sjf_agree_iff (a := 0) ⟨by decide, by decide, by decide⟩ (by decide) (by decide)

/-- SRTF starts the second task at 1 ms, SJF at 1.1 ms. -/
theorem srtf_sjf_differ :
    ¬ ∃ fuel t fuel' t', simulateSRTF fuel (fun i => (pairTasks i).load) = some t ∧
      simulateSJF fuel' (fun i => (pairTasks i).load) = some t' ∧ SameTimes t.P t'.P := by
  rintro ⟨fuel, t, fuel', t', hloop, hloop', hsame⟩
  have hrun : (simulateSRTF 3 fun i => (pairTasks i).load).map (fun s => (s.P 1).firstStart) =
      some 10 := by decide +kernel
  have hrun' : (simulateSJF 3 fun i => (pairTasks i).load).map (fun s => (s.P 1).firstStart) =
      some 11 := by decide +kernel
  obtain ⟨u, hu, hstart⟩ := Option.map_eq_some_iff.mp hrun
  obtain ⟨u', hu', hstart'⟩ := Option.map_eq_some_iff.mp hrun'
  have hdiffer := (hsame 1).1
  rw [← loop_unique hloop hu, ← loop_unique hloop' hu', hstart, hstart'] at hdiffer
  exact absurd hdiffer (by decide)

end OsProjects.Sched
