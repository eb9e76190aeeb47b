import OsProjects.Sched.ArrivalOrder
import OsProjects.Sched.Simultaneous

/-!
# SJF against FCFS

Two results about the order in which SJF runs the tasks.

* When the bursts do not decrease in the order of `cmp_arrival`, the two scans
  pick the same task in every state, and SJF and FCFS are the same run.
* When all tasks arrive together, both simulators run the tasks in some order
  without a gap, and the sum of the waiting times is that of the order alone
  (`waitInOrder`). SJF's order is sorted by burst, so no other order has a
  smaller sum (`totalDelay_le_of_perm`).
-/

namespace OsProjects.Sched

open OsProjects.Lib.Loops OsProjects.Lib.Select OsProjects.Lib.Workload

variable {N : Nat} {tasks : Fin N → Task} {a : Int} {π : Policy N} {s u t : SimState N} {k : Fin N}

/-! ## Bursts in the order of arrival -/

/-- A longer task never comes before a shorter one in the order of
`cmp_arrival`. -/
def BurstSorted (tasks : Fin N → Task) : Prop :=
  ∀ i j, cmpArrival (tasks i) (tasks j) < 0 → (tasks i).burst ≤ (tasks j).burst

theorem picks_agree (htasks : TasksOk tasks) (hsorted : BurstSorted tasks) (h : SimInv tasks u) :
    pickSJF u.P u.now = pickFCFS u.P u.now := by
  cases hk : pickFCFS u.P u.now with
  | none => exact select_eq_none.mpr (select_eq_none.mp hk)
  | some k =>
      have hready := (select_mem hk).2
      obtain ⟨j, hj⟩ := sjf.finds u.P u.now (anyReady_iff.mpr ⟨k, hready⟩)
      suffices heq : j = k from heq ▸ hj
      by_contra hne
      -- `k` comes before `j`, so it is no longer than `j`, and SJF prefers it
      have hfirst : ¬ (u.P j).beforeFCFS (u.P k) = true := by
        rw [pickFCFS_best hk (sjf.picks_ready _ _ _ hj)]
        simp
      have hpid : (tasks j).pid ≠ (tasks k).pid := fun heq => hne (htasks.pid_inj j k heq)
      have hbefore : cmpArrival (tasks k) (tasks j) < 0 := by
        rw [h.beforeFCFS_iff] at hfirst
        unfold cmpArrival at hfirst ⊢
        split_ifs at hfirst ⊢ <;> omega
      have hburst := hsorted k j hbefore
      have hshort : (u.P k).beforeSJF (u.P j) = true := by
        rw [Proc.beforeSJF_iff, h.beforeFCFS_iff, (h.task k).burst, (h.task j).burst]
        rcases hburst.lt_or_eq with hlt | heq
        · exact Or.inl hlt
        · exact Or.inr ⟨heq, hbefore⟩
      simp [pickSJF_best hj hready] at hshort

theorem sjfBody_eq_fcfsBody (htasks : TasksOk tasks) (hsorted : BurstSorted tasks)
    (h : SimInv tasks s) : sjfBody s = fcfsBody s := by
  unfold sjfBody fcfsBody simBody
  split_ifs
  · rfl
  · cases hu : s.awaitReady with
    | none => rfl
    | some u =>
        show (pickSJF u.P u.now).map u.runToEnd = (pickFCFS u.P u.now).map u.runToEnd
        rw [picks_agree htasks hsorted (h.awaitReady htasks hu)]

/-- **SJF is FCFS on burst-sorted tasks**, with any arrival times. -/
theorem sjf_fcfs_agree (htasks : TasksOk tasks) (hsorted : BurstSorted tasks) :
    ∃ fuel t t', simulateSJF fuel (fun i => (tasks i).load) = some t ∧
      simulateFCFS fuel (fun i => (tasks i).load) = some t' ∧
      t.segs = t'.segs ∧ SameTimes t.P t'.P := by
  obtain ⟨fuel, t, hloop⟩ := simBody_terminates (π := sjf) htasks runToEnd_servesReady
  have hsame : simulateSJF fuel (fun i => (tasks i).load) =
      simulateFCFS fuel fun i => (tasks i).load :=
    loop_congr (SimInv tasks) (fun _ _ h => h.step (π := sjf) htasks runToEnd_servesReady)
      (fun _ => sjfBody_eq_fcfsBody htasks hsorted) (simInit_inv htasks)
  exact ⟨fuel, t, t, hloop, hsame ▸ hloop, rfl, fun _ => ⟨rfl, rfl⟩⟩

/-- The later of the two tasks that arrive together is the first in the table. -/
theorem sjf_fcfs_agree_three :
    ∃ fuel t t',
      simulateSJF fuel (fun i => (![⟨2, 0, 3⟩, ⟨1, 0, 3⟩, ⟨0, 9, 4⟩] i : Task).load) = some t ∧
      simulateFCFS fuel (fun i => (![⟨2, 0, 3⟩, ⟨1, 0, 3⟩, ⟨0, 9, 4⟩] i : Task).load) = some t' ∧
      t.segs = t'.segs ∧ SameTimes t.P t'.P :=
  sjf_fcfs_agree ⟨by decide, by decide, by decide⟩
    (show ∀ i j, cmpArrival _ _ < 0 → _ ≤ _ by decide)

/-! ## Simultaneous arrivals: the waiting time of an order -/

/-- The waiting time `print_stats` adds up for a task. -/
def Proc.wait (p : Proc) : Int := p.finish - ms p.arrival - ms p.burst

/-- `sum_wait` of `print_stats`, in tenths of a millisecond. -/
def totalWait (P : Fin N → Proc) : Int := ∑ i, (P i).wait

theorem printStats_avgW (P : Fin N → Proc) : (printStats P).avgW = totalWait P / 10 / N := by
  unfold totalWait
  rw [Fin.sum_univ_def]
  rfl

/-- The sum of the waiting times when the tasks are run to completion in the
given order, the first from `start` on and each other one after a switch. -/
def waitInOrder : (start : Int) → List Task → Int
  | _, [] => 0
  | start, task :: rest =>
      let finish := start + ms task.burst
      finish - ms task.arrival - ms task.burst + waitInOrder (finish + csOverhead) rest

theorem waitInOrder_concat (start : Int) (order : List Task) (task : Task) :
    waitInOrder start (order ++ [task]) =
      waitInOrder start order + (start + (order.map Task.cost).sum - ms task.arrival) := by
  induction order generalizing start with
  | nil =>
      simp only [List.nil_append, waitInOrder, List.map_nil, List.sum_nil]
      ring
  | cons first order ih =>
      rw [List.cons_append, waitInOrder, waitInOrder, ih, List.map_cons, List.sum_cons, Task.cost]
      ring

/-- With a common arrival, the tasks wait for one another only. -/
theorem waitInOrder_eq_totalDelay (start : Int) {order : List Task}
    (htogether : ∀ task ∈ order, task.arrival = a) :
    waitInOrder start order =
      order.length * (start - ms a) + totalDelay (order.map Task.cost) := by
  induction order generalizing start with
  | nil => simp [waitInOrder, totalDelay]
  | cons task order ih =>
      have htask := htogether task List.mem_cons_self
      rw [waitInOrder, ih _ fun other hmem => htogether other (List.mem_cons_of_mem task hmem),
        htask, List.map_cons, totalDelay, List.length_map, List.length_cons, Task.cost]
      push_cast
      ring

/-! ## The order of a run -/

/-- A run that has completed the tasks `order`, one after the other. -/
structure OrderInv (tasks : Fin N → Task) (a : Int) (order : List (Fin N)) (s : SimState N) :
    Prop where
  run : RunInv tasks s
  period : s.prev = pidIdle ∨ InPeriod tasks (ms a) (ms a - csOverhead) s
  nodup : order.Nodup
  done : order.toFinset = s.doneSet
  wait : ∑ i ∈ s.doneSet, (s.P i).wait = waitInOrder (ms a) (order.map tasks)

theorem orderInv_init (htasks : TasksOk tasks) :
    OrderInv tasks a [] (simInit fun i => (tasks i).load) where
  run := runInv_init htasks
  period := Or.inl rfl
  nodup := List.nodup_nil
  done := by simp [SimState.doneSet, simInit, Task.load]
  wait := by simp [SimState.doneSet, simInit, Task.load, waitInOrder]

section Run

variable (htasks : TasksOk tasks) (ha : 0 ≤ a) (htogether : ∀ i, (tasks i).arrival = a)

include htasks htogether

/-- The task that runs next waits for all that ran before. -/
theorem OrderInv.wait_next {order : List (Fin N)} (h : OrderInv tasks a order s)
    (hruns : RunsTask tasks s u k t) (hperiod : InPeriod tasks (ms a) (ms a - csOverhead) t) :
    (t.P k).wait = ms a + ((order.map tasks).map Task.cost).sum - ms (tasks k).arrival := by
  have htask := (h.run.step htasks hruns).inv.task k
  have hnow := hperiod.now_eq
  rw [Finset.filter_true_of_mem fun i _ => by rw [htogether i], hruns.doneSet,
    Finset.sum_insert hruns.fresh, ← h.done, List.sum_toFinset _ h.nodup] at hnow
  rw [Proc.wait, hruns.finish_self, hnow, htask.arrival, htask.burst, List.map_map, Task.cost]
  simp only [Function.comp_def]
  ring

include ha

theorem OrderInv.step {order : List (Fin N)} (h : OrderInv tasks a order s)
    (hruns : RunsTask tasks s u k t) : OrderInv tasks a (order ++ [k]) t := by
  have hperiod := InPeriod.step_together htasks ha htogether h.run hruns h.period
  have hfresh : k ∉ order := by
    rw [← List.mem_toFinset, h.done]
    exact hruns.fresh
  have hkept : ∑ i ∈ s.doneSet, (t.P i).wait = ∑ i ∈ s.doneSet, (s.P i).wait := by
    refine Finset.sum_congr rfl fun i hi => ?_
    rw [hruns.P_of_ne fun heq => hruns.fresh (heq ▸ hi)]
  refine ⟨h.run.step htasks hruns, Or.inr hperiod, ?_, ?_, ?_⟩
  · exact List.nodup_append.mpr ⟨h.nodup, List.nodup_singleton k, fun i hi j hj => by
      rw [List.mem_singleton.mp hj]
      exact fun heq => hfresh (heq ▸ hi)⟩
  · rw [hruns.doneSet, ← h.done]
    ext i
    simp
  · rw [hruns.doneSet, Finset.sum_insert hruns.fresh, hkept, h.wait,
      h.wait_next htasks htogether hruns hperiod, List.map_append, List.map_singleton,
      waitInOrder_concat]
    ring

/-- Every simulator that runs its tasks to completion runs them in some order.
`Extra` is what its selection says about the order. -/
theorem exists_order (π : Policy N) (Extra : List (Fin N) → SimState N → Prop)
    (hinit : Extra [] (simInit fun i => (tasks i).load))
    (hstep : ∀ order s u k t, OrderInv tasks a order s → RunsTask tasks s u k t →
      π.pick u.P u.now = some k → Extra order s → Extra (order ++ [k]) t) :
    ∃ fuel t order, loop (simBody π.pick SimState.runToEnd) fuel (simInit fun i => (tasks i).load) =
      some t ∧ order.Perm (List.finRange N) ∧
      totalWait t.P = waitInOrder (ms a) (order.map tasks) ∧ Extra order t := by
  obtain ⟨fuel, t, hloop⟩ := simBody_terminates (π := π) htasks runToEnd_servesReady
  obtain ⟨hreach, hexit⟩ := loop_some hloop
  have hstate := hreach.inv (fun s => ∃ order, OrderInv tasks a order s ∧ Extra order s)
    (fun s t h hbody => by
      obtain ⟨order, h, hextra⟩ := h
      obtain ⟨u, k, hruns, hk⟩ := h.run.iteration htasks hbody
      exact ⟨order ++ [k], h.step htasks ha htogether hruns,
        hstep order s u k t h hruns hk hextra⟩) ⟨[], orderInv_init htasks, hinit⟩
  obtain ⟨order, horder, hextra⟩ := hstate
  have hall : t.doneSet = Finset.univ :=
    Finset.eq_univ_of_forall fun i => SimState.mem_doneSet.mpr (π.all_done_at_exit hexit i)
  refine ⟨fuel, t, order, hloop, ?_, ?_, hextra⟩
  · refine List.perm_of_nodup_nodup_toFinset_eq horder.nodup (List.nodup_finRange N) ?_
    rw [horder.done, hall]
    simp
  · rw [← horder.wait, hall]
    rfl

/-- Which order SJF takes: by burst, and none that is left is shorter. -/
structure ShortOrder (tasks : Fin N → Task) (order : List (Fin N)) (s : SimState N) : Prop where
  sorted : order.Pairwise fun i j => (tasks i).burst ≤ (tasks j).burst
  rest : ∀ i ∈ order, ∀ j, j ∉ s.doneSet → (tasks i).burst ≤ (tasks j).burst

omit ha in
theorem ShortOrder.step {order : List (Fin N)} (hinv : RunInv tasks s)
    (hruns : RunsTask tasks s u k t) (hk : pickSJF u.P u.now = some k)
    (h : ShortOrder tasks order s) : ShortOrder tasks (order ++ [k]) t := by
  have hinvu := hinv.inv.awaitReady htasks hruns.waits
  -- all tasks have arrived, so every one that is left is ready
  have hshortest : ∀ j, j ∉ s.doneSet → (tasks k).burst ≤ (tasks j).burst := by
    intro j hj
    have harrived := hruns.arrived hinv.inv
    have hready : ready u.P u.now j = true := by
      refine ready_iff.mpr ⟨?_, ?_⟩
      · rw [SimState.awaitReady_P hruns.waits]
        simpa [SimState.mem_doneSet] using hj
      · rw [(hinvu.task j).arrival, htogether j, ← htogether k]
        exact harrived
    have hbest : ¬ (u.P j).beforeSJF (u.P k) = true := by
      rw [pickSJF_best hk hready]
      simp
    rw [Proc.beforeSJF_iff, (hinvu.task j).burst, (hinvu.task k).burst] at hbest
    omega
  have hleft : ∀ j, j ∉ t.doneSet → j ∉ s.doneSet := by
    intro j hj hmem
    rw [hruns.doneSet] at hj
    exact hj (Finset.mem_insert_of_mem hmem)
  refine ⟨List.pairwise_append.mpr ⟨h.sorted, List.pairwise_singleton _ _, ?_⟩, ?_⟩
  · intro i hi j hj
    rw [List.mem_singleton.mp hj]
    exact h.rest i hi k hruns.fresh
  · intro i hi j hj
    rcases List.mem_append.mp hi with hi | hi
    · exact h.rest i hi j (hleft j hj)
    · rw [List.mem_singleton.mp hi]
      exact hshortest j (hleft j hj)

omit htasks ha in
/-- No order of the tasks waits less than one that is sorted by burst. -/
theorem waitInOrder_le {order : List (Fin N)}
    (hsorted : order.Pairwise fun i j => (tasks i).burst ≤ (tasks j).burst)
    {other : List Task} (hperm : (order.map tasks).Perm other) :
    waitInOrder (ms a) (order.map tasks) ≤ waitInOrder (ms a) other := by
  have harrival : ∀ task ∈ order.map tasks, task.arrival = a := by
    intro task hmem
    obtain ⟨i, -, rfl⟩ := List.mem_map.mp hmem
    exact htogether i
  have hcosts : ((order.map tasks).map Task.cost).Pairwise (· ≤ ·) := by
    rw [List.pairwise_map, List.pairwise_map]
    refine hsorted.imp fun {i j} hle => ?_
    simp only [Task.cost, ms]
    omega
  rw [waitInOrder_eq_totalDelay _ harrival,
    waitInOrder_eq_totalDelay _ fun task hmem => harrival task (hperm.mem_iff.mpr hmem)]
  have hdelay := totalDelay_le_of_perm hcosts (hperm.map Task.cost)
  simpa using hdelay

end Run

/-- **SJF minimises the waiting time** of tasks that arrive together: no order of
them has a smaller sum, and so FCFS has no smaller one either. -/
theorem sjf_minimises_wait (htasks : TasksOk tasks) (ha : 0 ≤ a)
    (htogether : ∀ i, (tasks i).arrival = a) :
    ∃ fuel t fuel' t', simulateSJF fuel (fun i => (tasks i).load) = some t ∧
      simulateFCFS fuel' (fun i => (tasks i).load) = some t' ∧
      (∀ order : List Task, order.Perm (List.ofFn tasks) →
        totalWait t.P ≤ waitInOrder (ms a) order) ∧
      totalWait t.P ≤ totalWait t'.P ∧ (printStats t.P).avgW ≤ (printStats t'.P).avgW := by
  obtain ⟨fuel, t, order, hloop, hperm, hwait, hshort⟩ :=
    exists_order htasks ha htogether sjf (ShortOrder tasks)
      ⟨List.Pairwise.nil, fun i hi => by simp at hi⟩
      (fun _ _ _ _ _ h hruns hk hshort => hshort.step htasks htogether h.run hruns hk)
  obtain ⟨fuel', t', order', hloop', hperm', hwait', -⟩ :=
    exists_order htasks ha htogether fcfs (fun _ _ => True) trivial
      (fun _ _ _ _ _ _ _ _ _ => trivial)
  have hleast : ∀ other : List Task, other.Perm (List.ofFn tasks) →
      totalWait t.P ≤ waitInOrder (ms a) other := by
    intro other hother
    rw [hwait]
    refine waitInOrder_le htogether hshort.sorted ((hperm.map tasks).trans ?_)
    rw [← List.ofFn_eq_map]
    exact hother.symm
  have hfcfs : totalWait t.P ≤ totalWait t'.P := by
    rw [hwait']
    refine hleast _ ?_
    rw [List.ofFn_eq_map]
    exact hperm'.map tasks
  refine ⟨fuel, t, fuel', t', hloop, hloop', hleast, hfcfs, ?_⟩
  rw [printStats_avgW, printStats_avgW]
  gcongr

theorem sjf_minimises_wait_pair :
    ∃ fuel t fuel' t',
      simulateSJF fuel (fun i => (![⟨0, 3, 9⟩, ⟨1, 3, 2⟩] i : Task).load) = some t ∧
      simulateFCFS fuel' (fun i => (![⟨0, 3, 9⟩, ⟨1, 3, 2⟩] i : Task).load) = some t' ∧
      (∀ order : List Task, order.Perm (List.ofFn ![⟨0, 3, 9⟩, ⟨1, 3, 2⟩]) →
        totalWait t.P ≤ waitInOrder (ms 3) order) ∧
      totalWait t.P ≤ totalWait t'.P ∧ (printStats t.P).avgW ≤ (printStats t'.P).avgW :=
  sjf_minimises_wait ⟨by decide, by decide, by decide⟩ (by decide) (by decide)

end OsProjects.Sched
