import OsProjects.Sched.ArrivalOrder
import OsProjects.Sched.Tiling

/-!
# SRTF: when a task is preempted

SRTF picks a task, charges the switch, and only then looks for the next arrival.
That no task slips in during the switch rests on the times at which a switch can
be charged: only when the task that ran last is unfinished, and then the last
iteration ended because another task arrived (`SrtfRunning.event`). Arrivals are
at whole milliseconds, the switch takes a tenth of one.

* **`SrtfInv`** — a task that is running has strictly less left than every task
  that was waiting when it was picked.
* **`srtf_preempts`** — so only a newcomer with a shorter burst preempts it, and
  there are fewer switches than arrival times.
-/

namespace OsProjects.Sched

open OsProjects.Lib.Loops

variable {N : Nat} {tasks : Fin N → Task} {s u t : SimState N} {k : Fin N}

/-! ## One iteration -/

/-- SRTF runs a task at most until the next arrival. -/
theorem nextEvent_le_arrival {i : Fin N} (hundone : (s.P i).done = false)
    (hlater : s.now < ms (s.P i).arrival) : s.nextEvent k ≤ ms (s.P i).arrival := by
  unfold SimState.nextEvent
  cases hnx : nextArrivalAfter s.P s.now with
  | none => exact absurd (nextArrivalAfter_none hnx i hundone) (not_le.mpr hlater)
  | some nx =>
      have hfirst := nextArrivalAfter_le hnx hundone hlater
      apply (min_le_right _ _).trans
      show 10 * (s.P nx).arrival ≤ 10 * (s.P i).arrival
      omega

/-- The event is the end of the task or an arrival. -/
theorem nextEvent_eq (s : SimState N) (k : Fin N) :
    s.nextEvent k = s.now + (s.P k).remain ∨ ∃ j, s.nextEvent k = ms (s.P j).arrival := by
  unfold SimState.nextEvent
  cases nextArrivalAfter s.P s.now with
  | none => exact Or.inl rfl
  | some nx =>
      rcases min_choice (s.now + (s.P k).remain) (ms (s.P nx).arrival) with heq | heq
      · exact Or.inl heq
      · exact Or.inr ⟨nx, heq⟩

/-- The iteration that takes `s` to `t`: it waits until `u`, and `k` runs after
the switch until it is finished or another task arrives. -/
structure SrtfStep (tasks : Fin N → Task) (s u : SimState N) (k : Fin N) (t : SimState N) :
    Prop where
  waits : s.awaitReady = some u
  inv : SimInv tasks u
  picks : pickSRTF u.P u.now = some k
  ready : ready u.P u.now k = true
  serves : Serves u k (t.now - (u.switchTo k).now) t
  ends : t.now = (u.switchTo k).now + (u.P k).remain ∨ ∃ j, t.now = ms (tasks j).arrival
  until_arrival : ∀ q, (u.P q).done = false → (u.switchTo k).now < ms (tasks q).arrival →
    t.now ≤ ms (tasks q).arrival
  prev : t.prev = if (t.P k).done then pidIdle else (tasks k).pid

theorem SimInv.srtfStep (htasks : TasksOk tasks) (h : SimInv tasks s)
    (hbody : srtfBody s = some t) : ∃ u k, SrtfStep tasks s u k t := by
  obtain ⟨u, k, hu, hk, rfl⟩ := simBody_some hbody
  have hinvu := h.awaitReady htasks hu
  have hready := srtf.picks_ready u.P u.now k hk
  have hserves := runToEvent_serves ((hinvu.task k).remain_pos (ready_iff.mp hready).1) fun hprev =>
    hinvu.prev_started k (hprev.trans (hinvu.task k).pid)
  refine ⟨u, k, hu, hinvu, hk, hready, hserves, ?_, fun q hundone hlater => ?_, ?_⟩
  · have hevent := nextEvent_eq (u.preempt k) k
    rw [SimState.preempt_now, SimState.preempt_remain] at hevent
    refine hevent.imp_right ?_
    rintro ⟨j, hj⟩
    rw [SimState.preempt_arrival, (hinvu.task j).arrival] at hj
    exact ⟨j, hj⟩
  · have hevent := nextEvent_le_arrival (s := u.preempt k) (k := k) (i := q)
    rw [SimState.preempt_arrival, SimState.preempt_now, SimState.preempt_done,
      (hinvu.task q).arrival] at hevent
    exact hevent hundone hlater
  · rw [runToEvent_prev, (hinvu.task k).pid]

/-- A ready task has no less left than the task picked. -/
theorem SrtfStep.picks_least (h : SrtfStep tasks s u k t) {q : Fin N}
    (hq : Sched.ready u.P u.now q = true) : (u.P k).remain ≤ (u.P q).remain := by
  have hbest : ¬ (u.P q).beforeSRTF (u.P k) = true := by
    rw [pickSRTF_best h.picks hq]
    simp
  rw [Proc.beforeSRTF_iff] at hbest
  omega

theorem SrtfStep.now_lt (h : SrtfStep tasks s u k t) :
    s.now ≤ u.now ∧ u.now ≤ (u.switchTo k).now ∧ (u.switchTo k).now < t.now := by
  have hpos := h.serves.pos
  exact ⟨(SimState.awaitReady_some h.waits).2.1, SimState.now_le_switchTo, by omega⟩

/-! ## The task that is running -/

/-- The unfinished task `r` ran last: it was running until another task arrived,
and it has less left than every task that had arrived before. -/
structure SrtfRunning (tasks : Fin N → Task) (r : Fin N) (s : SimState N) : Prop where
  prev : s.prev = (tasks r).pid
  undone : (s.P r).done = false
  earlier : ms (tasks r).arrival < s.now
  event : ∃ j, s.now = ms (tasks j).arrival
  least : ∀ q, q ≠ r → (s.P q).done = false → ms (tasks q).arrival < s.now →
    (s.P r).remain < (s.P q).remain

structure SrtfInv (tasks : Fin N → Task) (s : SimState N) : Prop where
  inv : SimInv tasks s
  running : s.prev = pidIdle ∨ ∃ r, SrtfRunning tasks r s

theorem srtfInv_init (htasks : TasksOk tasks) :
    SrtfInv tasks (simInit fun i => (tasks i).load) :=
  ⟨simInit_inv htasks, Or.inl rfl⟩

/-- While a task is running, nothing is waited for. -/
theorem SrtfRunning.awaitReady (hinv : SimInv tasks s) {r : Fin N} (h : SrtfRunning tasks r s) :
    s.awaitReady = some s := by
  apply SimState.awaitReady_of_ready
  refine anyReady_iff.mpr ⟨r, ready_iff.mpr ⟨h.undone, ?_⟩⟩
  rw [(hinv.task r).arrival]
  exact h.earlier.le

/-- No task arrives during a context switch. -/
theorem SrtfInv.no_arrival_in_switch (h : SrtfInv tasks s) (hstep : SrtfStep tasks s u k t)
    {q : Fin N} (hlater : u.now < ms (tasks q).arrival) :
    (u.switchTo k).now < ms (tasks q).arrival := by
  rw [SimState.switchTo_now]
  split_ifs with hswitch
  · rw [SimState.awaitReady_prev hstep.waits] at hswitch
    -- the switch starts at a whole millisecond and ends before the next one
    obtain ⟨r, hr⟩ := h.running.resolve_left hswitch.2
    obtain ⟨j, hj⟩ := hr.event
    obtain rfl := Option.some.inj ((hr.awaitReady h.inv).symm.trans hstep.waits)
    simp only [ms, csOverhead] at hlater hj ⊢
    omega
  · exact hlater

/-- What arrives before the iteration ends had arrived when it picked its
task. -/
theorem SrtfInv.ready_of_arrived (h : SrtfInv tasks s) (hstep : SrtfStep tasks s u k t)
    {q : Fin N} (hundone : (u.P q).done = false) (harrived : ms (tasks q).arrival < t.now) :
    ready u.P u.now q = true := by
  rw [ready_iff, (hstep.inv.task q).arrival]
  refine ⟨hundone, ?_⟩
  by_contra hlater
  have hswitch := h.no_arrival_in_switch hstep (not_le.mp hlater)
  exact absurd harrived (not_lt.mpr (hstep.until_arrival q hundone hswitch))

theorem SrtfInv.step (htasks : TasksOk tasks) (h : SrtfInv tasks s)
    (hstep : SrtfStep tasks s u k t) : SrtfInv tasks t := by
  obtain ⟨-, hswitch, hrun⟩ := hstep.now_lt
  have hserves := hstep.serves
  have hundone := (ready_iff.mp hstep.ready).1
  refine ⟨hstep.inv.serves htasks hstep.ready hserves, ?_⟩
  by_cases hdone : (t.P k).done = true
  · left
    rw [hstep.prev, if_pos hdone]
  right
  have hremain := hserves.remain_self
  refine ⟨k, ?_, by simpa using hdone, ?_, ?_, fun q hq hq_undone hq_arrived => ?_⟩
  · rw [hstep.prev, if_neg hdone]
  · have harrived := (ready_iff.mp hstep.ready).2
    rw [(hstep.inv.task k).arrival] at harrived
    omega
  · -- it is not finished, so an arrival ended the iteration
    apply hstep.ends.resolve_left
    intro hend
    apply hdone
    rw [hserves.done_iff hundone]
    omega
  · rw [hserves.P_of_ne hq] at hq_undone ⊢
    have hleast := hstep.picks_least (h.ready_of_arrived hstep hq_undone hq_arrived)
    omega

theorem srtfInv_of_reaches (htasks : TasksOk tasks)
    (hreach : Reaches srtfBody (simInit fun i => (tasks i).load) s) : SrtfInv tasks s :=
  hreach.inv (SrtfInv tasks) (fun s t h hbody => by
    obtain ⟨u, k, hstep⟩ := h.inv.srtfStep htasks hbody
    exact h.step htasks hstep) (srtfInv_init htasks)

/-! ## Preemption -/

/-- A running task is preempted only by one that arrives now, with a shorter
burst than it has left. -/
theorem SrtfRunning.preempted {r : Fin N} (h : SrtfRunning tasks r s) (hinv : SimInv tasks s)
    (hk : pickSRTF s.P s.now = some k) (hne : k ≠ r) :
    ms (tasks k).arrival = s.now ∧ ms (tasks k).burst < (s.P r).remain := by
  obtain ⟨hundone, harrived⟩ := ready_iff.mp (srtf.picks_ready _ _ _ hk)
  rw [(hinv.task k).arrival] at harrived
  have hready : ready s.P s.now r = true := by
    rw [ready_iff, (hinv.task r).arrival]
    exact ⟨h.undone, h.earlier.le⟩
  have hbest : ¬ (s.P r).beforeSRTF (s.P k) = true := by
    rw [pickSRTF_best hk hready]
    simp
  rw [Proc.beforeSRTF_iff, Proc.beforeFCFS_iff, (hinv.task r).arrival, (hinv.task k).arrival]
    at hbest
  -- whoever waited before has more left than `r`
  have hnow : ms (tasks k).arrival = s.now := by
    by_contra hearlier
    have hless := h.least k hne hundone (lt_of_le_of_ne harrived hearlier)
    omega
  -- a tie goes to `r`, which arrived earlier
  have hless : (s.P k).remain < (s.P r).remain := by
    have hfirst := h.earlier
    rw [← hnow] at hfirst
    simp only [ms] at hfirst
    omega
  refine ⟨hnow, lt_of_le_of_lt ?_ hless⟩
  cases hstarted : (s.P k).started with
  | false => rw [(hinv.task k).fresh hstarted]
  | true =>
      have hbegun := (hinv.task k).begun hstarted
      omega

/-! ## The number of switches -/

/-- The number of `PID_CS` segments. -/
def switchCount (segs : List Segment) : Nat := (segs.filter fun seg => seg.pid = pidCs).length

theorem switchCount_addSeg_of_ne {segs : List Segment} {start stop pid : Int} (hne : pid ≠ pidCs) :
    switchCount (addSeg segs start stop pid) = switchCount segs := by
  unfold switchCount
  rw [filter_addSeg_of_ne hne]

theorem switchCount_addSeg_le (segs : List Segment) (start stop : Int) :
    switchCount (addSeg segs start stop pidCs) ≤
      switchCount segs + if start < stop then 1 else 0 := by
  split_ifs with hlt
  · rcases addSeg_cases segs pidCs hlt with heq | ⟨front, last, rfl, -, hpid, heq⟩
    · rw [heq]
      simp [switchCount]
    · rw [heq]
      simp [switchCount, hpid]
  · rw [addSeg_of_le (not_lt.mp hlt)]
    exact le_rfl

/-- The arrival times before `time`. -/
def arrivalsBefore (tasks : Fin N → Task) (time : Int) : Finset Int :=
  (Finset.univ.image fun i => (tasks i).arrival).filter fun arrival => ms arrival < time

theorem mem_arrivalsBefore {time : Int} (i : Fin N) :
    (tasks i).arrival ∈ arrivalsBefore tasks time ↔ ms (tasks i).arrival < time := by
  simp [arrivalsBefore]

theorem arrivalsBefore_mono {time time' : Int} (hle : time ≤ time') :
    arrivalsBefore tasks time ⊆ arrivalsBefore tasks time' := by
  intro a ha
  obtain ⟨hmem, hlt⟩ := Finset.mem_filter.mp ha
  exact Finset.mem_filter.mpr ⟨hmem, hlt.trans_le hle⟩

/-- Nothing has run yet, or there are fewer switches than past arrival times. -/
def FewSwitches (tasks : Fin N → Task) (s : SimState N) : Prop :=
  s = simInit (fun i => (tasks i).load) ∨
    switchCount s.segs < (arrivalsBefore tasks s.now).card

theorem SrtfStep.switchCount_le (htasks : TasksOk tasks) (hstep : SrtfStep tasks s u k t) :
    switchCount t.segs ≤
      switchCount s.segs + if s.prev ≠ (tasks k).pid ∧ s.prev ≠ pidIdle then 1 else 0 := by
  have hpid : (u.P k).pid ≠ pidCs := by
    rw [(hstep.inv.task k).pid]
    exact (htasks.pid_ne_cs k).symm
  have hidle : switchCount (addSeg s.segs s.now u.now pidIdle) = switchCount s.segs :=
    switchCount_addSeg_of_ne (by decide)
  have hle := switchCount_addSeg_le (addSeg s.segs s.now u.now pidIdle) u.now (u.switchTo k).now
  rw [hidle] at hle
  rw [hstep.serves.segs_eq hstep.waits, switchCount_addSeg_of_ne hpid]
  refine hle.trans (Nat.add_le_add_left ?_ _)
  rw [SimState.switchTo_now, SimState.awaitReady_prev hstep.waits, (hstep.inv.task k).pid]
  split_ifs <;> simp_all [csOverhead]

theorem FewSwitches.step (htasks : TasksOk tasks) (hinv : SrtfInv tasks s)
    (h : FewSwitches tasks s) (hstep : SrtfStep tasks s u k t) : FewSwitches tasks t := by
  right
  obtain ⟨hwait, hswitch, hrun⟩ := hstep.now_lt
  have hcount := hstep.switchCount_le htasks
  have hbefore : (tasks k).arrival ∈ arrivalsBefore tasks t.now := by
    have harrived := (ready_iff.mp hstep.ready).2
    rw [(hstep.inv.task k).arrival] at harrived
    rw [mem_arrivalsBefore]
    omega
  have hmono : arrivalsBefore tasks s.now ⊆ arrivalsBefore tasks t.now :=
    arrivalsBefore_mono (by omega)
  rcases h with rfl | hfew
  · -- the first task of all is not switched to
    rw [if_neg (by simp [simInit])] at hcount
    have hcard : 0 < (arrivalsBefore tasks t.now).card := Finset.card_pos.mpr ⟨_, hbefore⟩
    simp only [simInit, switchCount, List.filter_nil, List.length_nil] at hcount
    unfold switchCount
    omega
  · split_ifs at hcount with hcharged
    · -- the task switched to arrives now
      obtain ⟨r, hr⟩ := hinv.running.resolve_left hcharged.2
      obtain rfl := Option.some.inj ((hr.awaitReady hinv.inv).symm.trans hstep.waits)
      have hne : k ≠ r := fun heq => hcharged.1 (heq ▸ hr.prev)
      have hnow := (hr.preempted hinv.inv hstep.picks hne).1
      have hnew : (tasks k).arrival ∉ arrivalsBefore tasks s.now := by
        rw [mem_arrivalsBefore]
        omega
      have hcard := Finset.card_lt_card (Finset.ssubset_iff_of_subset hmono |>.mpr
        ⟨_, hbefore, hnew⟩)
      omega
    · have hcard := Finset.card_le_card hmono
      omega

/-- **SRTF never preempts needlessly.** When it switches away from an unfinished
task, the task it switches to arrives at that moment, with a burst that is
shorter than what the other one has left. So there are fewer switches than
arrival times. -/
theorem srtf_preempts (tasks : Fin N → Task) (htasks : TasksOk tasks) (hN : 0 < N) :
    (∀ s r k, Reaches srtfBody (simInit fun i => (tasks i).load) s → s.prev = (tasks r).pid →
      s.picked pickSRTF = some k → k ≠ r →
      ms (tasks k).arrival = s.now ∧ ms (tasks k).burst < (s.P r).remain) ∧
    ∃ fuel t, simulateSRTF fuel (fun i => (tasks i).load) = some t ∧
      switchCount t.segs < (Finset.univ.image fun i => (tasks i).arrival).card := by
  refine ⟨fun s r k hreach hprev hpicked hne => ?_, ?_⟩
  · have hinv := srtfInv_of_reaches htasks hreach
    have hran : s.prev ≠ pidIdle := fun hidle => htasks.pid_ne_idle r (hidle.symm.trans hprev)
    obtain ⟨r', hr⟩ := hinv.running.resolve_left hran
    obtain rfl := htasks.pid_inj r' r (hr.prev.symm.trans hprev)
    rw [SimState.picked, hr.awaitReady hinv.inv] at hpicked
    exact hr.preempted hinv.inv hpicked hne
  · obtain ⟨fuel, t, hloop⟩ := simBody_terminates (π := srtf) htasks runToEvent_servesReady
    obtain ⟨hreach, hexit⟩ := loop_some hloop
    have hstate := hreach.inv (fun s => SrtfInv tasks s ∧ FewSwitches tasks s)
      (fun s t h hbody => by
        obtain ⟨u, k, hstep⟩ := h.1.inv.srtfStep htasks hbody
        exact ⟨h.1.step htasks hstep, h.2.step htasks h.1 hstep⟩)
      ⟨srtfInv_init htasks, Or.inl rfl⟩
    have hran : t ≠ simInit fun i => (tasks i).load := fun heq => by
      have hdone := srtf.all_done_at_exit hexit ⟨0, hN⟩
      rw [heq] at hdone
      simp [simInit, Task.load] at hdone
    refine ⟨fuel, t, hloop, (hstate.2.resolve_left hran).trans_le ?_⟩
    exact Finset.card_le_card (Finset.filter_subset _ _)

/-- A long task, and a short one that arrives while it runs. -/
def preemptTasks : Fin 2 → Task := ![⟨0, 0, 9⟩, ⟨1, 3, 2⟩]

/-- At 3 ms the long task has 6 ms left and is preempted. -/
theorem srtf_preempts_long :
    (∃ s, Reaches srtfBody (simInit fun i => (preemptTasks i).load) s ∧
      s.prev = (preemptTasks 0).pid ∧ s.picked pickSRTF = some 1 ∧
      ms (preemptTasks 1).arrival = s.now ∧ ms (preemptTasks 1).burst < (s.P 0).remain) ∧
    ∃ fuel t, simulateSRTF fuel (fun i => (preemptTasks i).load) = some t ∧
      switchCount t.segs < (Finset.univ.image fun i => (preemptTasks i).arrival).card := by
  have hgoal := srtf_preempts preemptTasks ⟨by decide, by decide, by decide⟩ (by decide)
  have hrun : (srtfBody (simInit fun i => (preemptTasks i).load)).map
      (fun s => (s.prev, s.picked pickSRTF)) = some (0, some 1) := by decide +kernel
  obtain ⟨s, hs, hfirst⟩ := Option.map_eq_some_iff.mp hrun
  obtain ⟨hprev, hpicked⟩ := Prod.mk.inj hfirst
  have hreach := Reaches.head hs (.refl s)
  exact ⟨⟨s, hreach, hprev, hpicked, hgoal.1 s 0 1 hreach hprev hpicked (by decide)⟩, hgoal.2⟩

end OsProjects.Sched
