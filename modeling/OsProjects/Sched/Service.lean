import OsProjects.Sched.Dispatch

/-!
# Service in FCFS, SJF and SRTF

The three loops serve every task completely. An iteration runs one ready task
for a positive time, at most until its end (`Serves`); it keeps the burst of
every task split between its segments and what remains (`SimInv`), and uses up
some of the remaining time, so the loop ends.
-/

namespace OsProjects.Sched

open OsProjects.Lib.Loops

variable {N : Nat}

namespace Proc

variable {p : Proc} {now runFor endTime : Int}

theorem ran_start_started : ((p.start now).ran runFor endTime).started = true := by
  unfold start ran
  split_ifs <;> simp_all

theorem ran_start_burst : ((p.start now).ran runFor endTime).burst = p.burst := by
  unfold start ran
  split_ifs <;> rfl

theorem ran_start_firstStart :
    ((p.start now).ran runFor endTime).firstStart = if p.started then p.firstStart else now := by
  unfold start ran
  split_ifs <;> rfl

theorem start_pid : (p.start now).pid = p.pid := by
  unfold start
  split_ifs <;> rfl

theorem ran_pid : (p.ran runFor endTime).pid = p.pid := by
  unfold ran
  split_ifs <;> rfl

theorem start_of_started (h : p.started = true) : p.start now = p := by
  rw [start, if_pos h]

theorem ran_all (h : p.remain = runFor) :
    p.ran runFor endTime = { p with remain := 0, done := true, finish := endTime } := by
  rw [ran, if_pos (by omega)]

end Proc

/-! ## What an iteration does -/

/-- `t` is `u` after the switch to the task `k` and `r` more units of time, in
which `k` ran. -/
structure Serves (u : SimState N) (k : Fin N) (r : Int) (t : SimState N) : Prop where
  pos : 0 < r
  le : r ≤ (u.P k).remain
  now : t.now = (u.switchTo k).now + r
  segs : t.segs = addSeg (u.switchTo k).segs (u.switchTo k).now t.now (u.P k).pid
  P : t.P = Function.update u.P k (((u.P k).start (u.switchTo k).now).ran r t.now)
  prev : t.prev = (u.P k).pid ∨ t.prev = pidIdle

variable {tasks : Fin N → Task} {s u t : SimState N} {k : Fin N} {r : Int}

theorem runToEnd_now : (u.runToEnd k).now = (u.switchTo k).now + (u.P k).remain := by
  show (u.switchTo k).now + (((u.switchTo k).P k).start _).remain = _
  rw [SimState.switchTo_P, Proc.start_remain]

/-- FCFS and SJF run the task for all that remains. -/
theorem runToEnd_serves (hpos : 0 < (u.P k).remain) :
    Serves u k (u.P k).remain (u.runToEnd k) where
  pos := hpos
  le := le_rfl
  now := runToEnd_now
  segs := by
    have hpid : (((u.switchTo k).P k).start (u.switchTo k).now).pid = (u.P k).pid := by
      rw [SimState.switchTo_P]
      exact Proc.start_pid
    show addSeg _ _ _ (((u.switchTo k).P k).start _).pid = _
    rw [hpid]
    rfl
  P := by
    show Function.update (u.switchTo k).P k _ = _
    rw [Proc.ran_all Proc.start_remain, runToEnd_now]
    simp only [SimState.switchTo_P, Proc.start_remain]
  prev := by
    left
    show (((u.switchTo k).P k).start _).pid = _
    rw [SimState.switchTo_P]
    exact Proc.start_pid

theorem preempt_P (hstarted : u.prev = (u.P k).pid → (u.P k).started = true) :
    (u.preempt k).P = Function.update u.P k ((u.P k).start (u.switchTo k).now) := by
  funext i
  by_cases hi : i = k
  · subst hi
    rw [SimState.preempt_P_self, Function.update_self]
    split_ifs with hprev
    · rfl
    · rw [Proc.start_of_started (hstarted (not_not.mp hprev))]
  · rw [SimState.preempt_P_of_ne hi, Function.update_of_ne hi]

/-- SRTF runs the task until the next event. A task that was running before has
been started. -/
theorem runToEvent_serves (hpos : 0 < (u.P k).remain)
    (hstarted : u.prev = (u.P k).pid → (u.P k).started = true) :
    Serves u k ((u.preempt k).nextEvent k - (u.switchTo k).now) (u.runToEvent k) := by
  have hremain := SimState.preempt_remain (s := u) (k := k) k
  have hnow := SimState.preempt_now (s := u) (k := k)
  have hself : (u.preempt k).P k = (u.P k).start (u.switchTo k).now := by
    rw [preempt_P hstarted, Function.update_self]
  have hpid : (((u.preempt k).P k).ran ((u.preempt k).nextEvent k - (u.preempt k).now)
      ((u.preempt k).nextEvent k)).pid = (u.P k).pid := by
    rw [Proc.ran_pid, hself, Proc.start_pid]
  refine ⟨?_, ?_, ?_, ?_, ?_, ?_⟩
  · have hlt := SimState.now_lt_nextEvent (s := u.preempt k) (k := k) (by omega)
    omega
  · have hle := SimState.nextEvent_le (s := u.preempt k) (k := k)
    omega
  · show (u.preempt k).nextEvent k = _
    omega
  · show addSeg (u.preempt k).segs (u.preempt k).now _ _ = _
    rw [hpid, SimState.preempt_segs, hnow]
    rfl
  · show Function.update (u.preempt k).P k _ = _
    rw [hself, preempt_P hstarted, Function.update_idem, hnow]
    rfl
  · show (if _ then pidIdle else _) = _ ∨ (if _ then pidIdle else _) = _
    split_ifs
    · exact Or.inr rfl
    · exact Or.inl hpid

/-! ## What every iteration keeps -/

/-- What holds of a task's entry `p` when its segments add up to `recorded`: the
burst is split between them and what remains, and a started task has been
started after its arrival and not been served for longer than since then. -/
structure TaskInv (task : Task) (now recorded : Int) (p : Proc) : Prop where
  pid : p.pid = task.pid
  arrival : p.arrival = task.arrival
  burst : p.burst = task.burst
  remain_pos : p.done = false → 0 < p.remain
  remain_done : p.done = true → p.remain = 0
  served : recorded + p.remain = ms task.burst
  fresh : p.started = false → p.remain = ms task.burst
  begun : p.started = true →
    ms task.arrival ≤ p.firstStart ∧ p.firstStart + (ms task.burst - p.remain) ≤ now
  finished : p.done = true → p.started = true ∧ p.firstStart + ms task.burst ≤ p.finish

theorem TaskInv.later {task : Task} {now now' recorded : Int} {p : Proc}
    (h : TaskInv task now recorded p) (hle : now ≤ now') : TaskInv task now' recorded p :=
  { h with begun := fun hstarted => ⟨(h.begun hstarted).1, (h.begun hstarted).2.trans hle⟩ }

/-- The task runs for `r` from the time `start` on. -/
theorem TaskInv.run {task : Task} {now recorded start r : Int} {p : Proc}
    (h : TaskInv task now recorded p) (hundone : p.done = false)
    (harrived : ms p.arrival ≤ now) (hstart : now ≤ start) (hle : r ≤ p.remain) :
    TaskInv task (start + r) (recorded + r) ((p.start start).ran r (start + r)) := by
  have hserved := h.served
  rw [h.arrival] at harrived
  -- the first start, recorded now or before
  have hbegun : ms task.arrival ≤ ((p.start start).ran r (start + r)).firstStart ∧
      ((p.start start).ran r (start + r)).firstStart + (ms task.burst - (p.remain - r)) ≤
        start + r := by
    rw [Proc.ran_start_firstStart]
    split_ifs with hstarted
    · have hb := h.begun hstarted
      exact ⟨hb.1, by omega⟩
    · have hf := h.fresh (by simpa using hstarted)
      exact ⟨by omega, by omega⟩
  refine ⟨?_, ?_, ?_, ?_, ?_, ?_, ?_, ?_, ?_⟩
  · rw [Proc.ran_start_pid, h.pid]
  · rw [Proc.ran_start_arrival, h.arrival]
  · rw [Proc.ran_start_burst, h.burst]
  · rw [Proc.ran_start_done hundone, Proc.ran_start_remain hle, decide_eq_false_iff_not]
    omega
  · rw [Proc.ran_start_done hundone, Proc.ran_start_remain hle, decide_eq_true_iff]
    omega
  · rw [Proc.ran_start_remain hle]
    omega
  · simp [Proc.ran_start_started]
  · intro _
    rw [Proc.ran_start_remain hle]
    exact hbegun
  · rw [Proc.ran_start_done hundone, decide_eq_true_iff]
    intro hdone
    rw [Proc.ran_start_finish hdone]
    exact ⟨Proc.ran_start_started, by omega⟩

/-- Every task's entry is in order, and the task that ran last has been
started. -/
structure SimInv (tasks : Fin N → Task) (s : SimState N) : Prop where
  task : ∀ i, TaskInv (tasks i) s.now (segTotal (tasks i).pid s.segs) (s.P i)
  prev_started : ∀ i, s.prev = (tasks i).pid → (s.P i).started = true

theorem simInit_inv (htasks : TasksOk tasks) : SimInv tasks (simInit fun i => (tasks i).load) where
  task i := by
    have hburst := htasks.burst_pos i
    have hpos : (0 : Int) < 10 * (tasks i).burst := by omega
    exact ⟨rfl, rfl, rfl, fun _ => hpos, by simp [simInit, Task.load],
      by simp [simInit, Task.load, segTotal], fun _ => rfl, by simp [simInit, Task.load],
      by simp [simInit, Task.load]⟩
  prev_started i hprev := absurd hprev (htasks.pid_ne_idle i)

theorem SimInv.awaitReady (htasks : TasksOk tasks) (h : SimInv tasks s)
    (hu : s.awaitReady = some u) : SimInv tasks u := by
  obtain ⟨heq, hle, -⟩ := SimState.awaitReady_some hu
  rw [heq]
  refine ⟨fun i => ?_, h.prev_started⟩
  show TaskInv (tasks i) u.now (segTotal _ (addSeg _ _ _ _)) _
  rw [segTotal_idle htasks hle]
  exact (h.task i).later hle

theorem Serves.segTotal (htasks : TasksOk tasks) (hserves : Serves u k r t) (i : Fin N) :
    segTotal (tasks i).pid t.segs =
      segTotal (tasks i).pid u.segs + if (u.P k).pid = (tasks i).pid then r else 0 := by
  have hnonneg := htasks.pid_nonneg i
  have hpos := hserves.pos
  have hnow := hserves.now
  rw [hserves.segs, segTotal_addSeg _ _ (by omega), SimState.switchTo_segs,
    segTotal_addSeg _ _ SimState.now_le_switchTo, if_neg (by simp [pidCs]; omega), add_zero, hnow,
    add_sub_cancel_left]

theorem Serves.P_self (hserves : Serves u k r t) :
    t.P k = ((u.P k).start (u.switchTo k).now).ran r t.now := by
  rw [hserves.P, Function.update_self]

theorem Serves.remain_self (hserves : Serves u k r t) : (t.P k).remain = (u.P k).remain - r := by
  rw [hserves.P_self, Proc.ran_start_remain hserves.le]

theorem Serves.done_iff (hserves : Serves u k r t) (hundone : (u.P k).done = false) :
    (t.P k).done = true ↔ (u.P k).remain - r ≤ 0 := by
  rw [hserves.P_self, Proc.ran_start_done hundone, decide_eq_true_iff]

theorem Serves.P_of_ne (hserves : Serves u k r t) {i : Fin N} (hi : i ≠ k) : t.P i = u.P i := by
  rw [hserves.P, Function.update_of_ne hi]

/-- Serving a ready task keeps the invariant. -/
theorem SimInv.serves (htasks : TasksOk tasks) (h : SimInv tasks u)
    (hready : ready u.P u.now k = true) (hserves : Serves u k r t) : SimInv tasks t := by
  obtain ⟨hundone, harrived⟩ := ready_iff.mp hready
  have hswitch := SimState.now_le_switchTo (s := u) (k := k)
  have hpos := hserves.pos
  refine ⟨fun i => ?_, fun i hprev => ?_⟩
  · rw [hserves.segTotal htasks]
    by_cases hi : i = k
    · subst hi
      rw [if_pos (h.task i).pid, hserves.P_self, hserves.now]
      exact (h.task i).run hundone harrived hswitch hserves.le
    · have hne : (u.P k).pid ≠ (tasks i).pid := fun heq =>
        hi (htasks.pid_inj k i ((h.task k).pid.symm.trans heq)).symm
      rw [if_neg hne, add_zero, hserves.P_of_ne hi]
      exact (h.task i).later (by rw [hserves.now]; omega)
  · rcases hserves.prev with hpid | hidle
    · obtain rfl : k = i := htasks.pid_inj k i
        ((h.task k).pid.symm.trans (hpid.symm.trans hprev))
      rw [hserves.P_self]
      exact Proc.ran_start_started
    · exact absurd (hidle.symm.trans hprev) (htasks.pid_ne_idle i)

/-! ## The loop -/

/-- Running a ready task serves it, in every state the simulator can be in. -/
def ServesReady (tasks : Fin N → Task) (run : SimState N → Fin N → SimState N) : Prop :=
  ∀ u k, SimInv tasks u → ready u.P u.now k = true → ∃ r, Serves u k r (run u k)

theorem runToEnd_servesReady : ServesReady tasks SimState.runToEnd := by
  intro u k h hready
  exact ⟨_, runToEnd_serves ((h.task k).remain_pos (ready_iff.mp hready).1)⟩

theorem runToEvent_servesReady : ServesReady tasks SimState.runToEvent := by
  intro u k h hready
  refine ⟨_, runToEvent_serves ((h.task k).remain_pos (ready_iff.mp hready).1) fun hprev => ?_⟩
  exact h.prev_started k (hprev.trans (h.task k).pid)

variable {π : Policy N} {run : SimState N → Fin N → SimState N}

/-- An iteration waits and serves a ready task. -/
theorem SimInv.iteration (htasks : TasksOk tasks) (hrun : ServesReady tasks run)
    (h : SimInv tasks s) (hbody : simBody π.pick run s = some t) :
    ∃ u k r, s.awaitReady = some u ∧ SimInv tasks u ∧ π.pick u.P u.now = some k ∧
      ready u.P u.now k = true ∧ Serves u k r t := by
  obtain ⟨u, k, hu, hk, rfl⟩ := simBody_some hbody
  have hinv := h.awaitReady htasks hu
  have hready := π.picks_ready u.P u.now k hk
  obtain ⟨r, hserves⟩ := hrun u k hinv hready
  exact ⟨u, k, r, hu, hinv, hk, hready, hserves⟩

theorem SimInv.step (htasks : TasksOk tasks) (hrun : ServesReady tasks run) (h : SimInv tasks s)
    (hbody : simBody π.pick run s = some t) : SimInv tasks t := by
  obtain ⟨u, k, r, -, hinv, -, hready, hserves⟩ := h.iteration htasks hrun hbody
  exact hinv.serves htasks hready hserves

/-- What is left to run. -/
def SimState.unserved (s : SimState N) : Nat := ∑ i, (s.P i).remain.toNat

theorem Serves.unserved_lt (hserves : Serves u k r t) : t.unserved < u.unserved := by
  have hpos := hserves.pos
  have hle := hserves.le
  have hk : (t.P k).remain.toNat < (u.P k).remain.toNat := by
    rw [hserves.remain_self]
    omega
  refine Finset.sum_lt_sum (fun i _ => ?_) ⟨k, Finset.mem_univ k, hk⟩
  by_cases hi : i = k
  · exact hi ▸ hk.le
  · rw [hserves.P_of_ne hi]

theorem simBody_terminates (htasks : TasksOk tasks) (hrun : ServesReady tasks run) :
    ∃ fuel t, loop (simBody π.pick run) fuel (simInit fun i => (tasks i).load) = some t := by
  refine exists_loop Nat.lt_wfRel.wf SimState.unserved (SimInv tasks) ?_ (simInit_inv htasks)
  intro s t h hbody
  refine ⟨h.step htasks hrun hbody, ?_⟩
  obtain ⟨u, k, r, hu, -, -, -, hserves⟩ := h.iteration htasks hrun hbody
  have hlt := hserves.unserved_lt
  unfold SimState.unserved at hlt
  rwa [SimState.awaitReady_P hu] at hlt

/-! ## Service -/

/-- Every task is done, its segments add up to its burst, and it was started
between its arrival and a burst before its finish. -/
def FullyServed (tasks : Fin N → Task) (s : SimState N) : Prop :=
  ∀ i, (s.P i).done = true ∧ segTotal (tasks i).pid s.segs = ms (tasks i).burst ∧
    ms (tasks i).arrival ≤ (s.P i).firstStart ∧
    (s.P i).firstStart + ms (tasks i).burst ≤ (s.P i).finish

/-- The same first start and the same finish for every task. -/
def SameTimes (P P' : Fin N → Proc) : Prop :=
  ∀ i, (P i).firstStart = (P' i).firstStart ∧ (P i).finish = (P' i).finish

theorem SimInv.fullyServed (h : SimInv tasks s) (hdone : ∀ i, (s.P i).done = true) :
    FullyServed tasks s := by
  intro i
  have hserved := (h.task i).served
  rw [(h.task i).remain_done (hdone i)] at hserved
  obtain ⟨hstarted, hfinish⟩ := (h.task i).finished (hdone i)
  exact ⟨hdone i, by omega, ((h.task i).begun hstarted).1, hfinish⟩

/-- In no iteration the simulator finds neither a ready task nor one still to
come, or fails to pick one. -/
def NeverStuck (pick : (Fin N → Proc) → Int → Option (Fin N))
    (body : SimState N → Option (SimState N)) (s : SimState N) : Prop :=
  ∀ u, Reaches body s u → allDone u.P = false →
    ∃ v k, u.awaitReady = some v ∧ pick v.P v.now = some k

theorem serves_all (htasks : TasksOk tasks) (π : Policy N) (hrun : ServesReady tasks run) :
    (∃ fuel t, loop (simBody π.pick run) fuel (simInit fun i => (tasks i).load) = some t ∧
        FullyServed tasks t) ∧
      NeverStuck π.pick (simBody π.pick run) (simInit fun i => (tasks i).load) := by
  refine ⟨?_, fun u _ hundone => π.progress hundone⟩
  obtain ⟨fuel, t, hloop⟩ := simBody_terminates (π := π) htasks hrun
  obtain ⟨hreach, hexit⟩ := loop_some hloop
  have hinv := hreach.inv (SimInv tasks) (fun _ _ h => h.step htasks hrun) (simInit_inv htasks)
  exact ⟨fuel, t, hloop, hinv.fullyServed (π.all_done_at_exit hexit)⟩

/-- **Service conservation.** FCFS, SJF and SRTF end, without getting stuck on
the way, with every task fully served. -/
theorem service_conserved (htasks : TasksOk tasks) :
    ((∃ fuel t, simulateFCFS fuel (fun i => (tasks i).load) = some t ∧ FullyServed tasks t) ∧
        NeverStuck pickFCFS fcfsBody (simInit fun i => (tasks i).load)) ∧
      ((∃ fuel t, simulateSJF fuel (fun i => (tasks i).load) = some t ∧ FullyServed tasks t) ∧
        NeverStuck pickSJF sjfBody (simInit fun i => (tasks i).load)) ∧
      ((∃ fuel t, simulateSRTF fuel (fun i => (tasks i).load) = some t ∧ FullyServed tasks t) ∧
        NeverStuck pickSRTF srtfBody (simInit fun i => (tasks i).load)) := by
  refine ⟨?_, ?_, ?_⟩
  · exact serves_all htasks fcfs runToEnd_servesReady
  · exact serves_all htasks sjf runToEnd_servesReady
  · exact serves_all htasks srtf runToEvent_servesReady

/-- The second task arrives while the first one, which is longer, runs. -/
def shortTaskLater : Fin 2 → Task := ![⟨0, 0, 9⟩, ⟨1, 2, 3⟩]

theorem service_conserved_short_task_later :
    ∃ fuel t, simulateSRTF fuel (fun i => (shortTaskLater i).load) = some t ∧
      FullyServed shortTaskLater t :=
  (service_conserved (⟨by decide, by decide, by decide⟩ : TasksOk shortTaskLater)).2.2.1

end OsProjects.Sched
