import OsProjects.Sched.Segments

/-!
# Round Robin

`simulate_RR` serves the tasks in its queue; whether every task gets into the
queue is another matter. The window in which `enqueue_arrivals` looks for
arrivals starts after the context switch, so a task that arrives during the
0.1 ms of the switch is not queued; only a later idle period, which queues all
unfinished tasks, can bring it back.

* **`RRInv`** — what every iteration keeps: each task has been recorded exactly
  for the time it was served, within its arrival and its finish.
* **`rr_completes_iff`** — the loop always ends, and it ends with every task
  complete exactly when every skipped arrival is followed by an idle period.
-/

namespace OsProjects.Sched

open OsProjects.Lib.Loops

variable {N : Nat}

/-! ## The queue -/

namespace Queue

/-- The tasks in the queue, front first. -/
def items (Q : Queue N) : List (Fin N) := Q.q.drop Q.f

theorem items_push (Q : Queue N) (x : Fin N) : (Q.push x).items = Q.items ++ [x] :=
  List.drop_append_of_le_length Q.front_le

theorem items_pushWhere (Q : Queue N) (cond : Fin N → Bool) :
    (Q.pushWhere cond).items = Q.items ++ (List.finRange N).filter cond := by
  unfold pushWhere
  generalize List.finRange N = tasks
  induction tasks generalizing Q with
  | nil => simp
  | cons i tasks ih =>
      rw [List.foldl_cons, ih]
      by_cases hi : cond i
      · rw [if_pos hi, items_push, List.filter_cons_of_pos hi, List.append_assoc]
        rfl
      · rw [if_neg hi, List.filter_cons_of_neg hi]

theorem mem_items_pushWhere {Q : Queue N} {cond : Fin N → Bool} {i : Fin N} :
    i ∈ (Q.pushWhere cond).items ↔ i ∈ Q.items ∨ cond i = true := by
  simp [items_pushWhere]

theorem pop_some {Q Q' : Queue N} {k : Fin N} (h : Q.pop = some (k, Q')) :
    Q.items = k :: Q'.items := by
  unfold pop at h
  split at h
  · obtain ⟨rfl, rfl⟩ := Prod.mk.inj (Option.some.inj h)
    exact List.drop_eq_getElem_cons _
  · simp at h

theorem pop_none {Q : Queue N} (h : Q.pop = none) : Q.items = [] := by
  unfold pop at h
  split at h
  · simp at h
  · exact List.drop_of_length_le (by omega)

theorem pop_of_items {Q : Queue N} {k : Fin N} {rest : List (Fin N)} (h : Q.items = k :: rest) :
    ∃ Q', Q.pop = some (k, Q') ∧ Q'.items = rest := by
  cases hpop : Q.pop with
  | none => simp [pop_none hpop] at h
  | some popped =>
      obtain ⟨k', Q'⟩ := popped
      rw [pop_some hpop] at h
      obtain ⟨rfl, hrest⟩ := List.cons.inj h
      exact ⟨Q', rfl, hrest⟩

end Queue

theorem mem_enqueueArrivals {P : Fin N → Proc} {Q : Queue N} {start stop : Int} {i : Fin N} :
    i ∈ (enqueueArrivals P Q start stop).items ↔
      i ∈ Q.items ∨ (P i).done = false ∧ start < ms (P i).arrival ∧ ms (P i).arrival ≤ stop := by
  rw [enqueueArrivals, Queue.mem_items_pushWhere]
  simp [and_assoc]

/-! ## The loop body -/

theorem allDone_iff {P : Fin N → Proc} : allDone P = true ↔ ∀ i, (P i).done = true := by
  simp [allDone]

/-- What `found` says about the tasks the search has looked at. -/
def NextFound (P : Fin N → Proc) (now : Int) (seen : List (Fin N)) : Option (Fin N) → Prop
  | some j => (P j).done = false ∧ now < ms (P j).arrival
  | none => ∀ i ∈ seen, (P i).done = false → ms (P i).arrival ≤ now

theorem NextFound.step {P : Fin N → Proc} {now : Int} {seen : List (Fin N)}
    {found : Option (Fin N)} (h : NextFound P now seen found) (i : Fin N) :
    NextFound P now (seen ++ [i]) (earlierArrival P now found i) := by
  unfold earlierArrival
  by_cases hi : (P i).done = false ∧ ms (P i).arrival > now
  · rw [if_pos hi]
    cases found with
    | none => exact hi
    | some j =>
        show NextFound P now _ (if (P i).arrival < (P j).arrival then some i else some j)
        split_ifs
        · exact hi
        · exact h
  · rw [if_neg hi]
    cases found with
    | some j => exact h
    | none =>
        intro x hx hundone
        rcases List.mem_append.mp hx with hx | hx
        · exact h x hx hundone
        · rw [List.mem_singleton.mp hx] at hundone ⊢
          exact not_lt.mp fun hlt => hi ⟨hundone, hlt⟩

theorem NextFound.foldl {P : Fin N → Proc} {now : Int} {seen tasks : List (Fin N)}
    {found : Option (Fin N)} (h : NextFound P now seen found) :
    NextFound P now (seen ++ tasks) (tasks.foldl (earlierArrival P now) found) := by
  induction tasks generalizing seen found with
  | nil => simpa using h
  | cons i tasks ih =>
      have hrest := ih (h.step i)
      rwa [List.append_assoc, List.singleton_append] at hrest

/-- The search finds an unfinished task that is still to come, if there is
one. -/
theorem nextArrivalAfter_found (P : Fin N → Proc) (now : Int) :
    NextFound P now (List.finRange N) (nextArrivalAfter P now) := by
  have hstart : NextFound P now [] none := by simp [NextFound]
  exact hstart.foldl

theorem nextArrivalAfter_some {P : Fin N → Proc} {now : Int} {j : Fin N}
    (h : nextArrivalAfter P now = some j) : (P j).done = false ∧ now < ms (P j).arrival := by
  have hfound := nextArrivalAfter_found P now
  rwa [h] at hfound

theorem nextArrivalAfter_none {P : Fin N → Proc} {now : Int}
    (h : nextArrivalAfter P now = none) (i : Fin N) (hundone : (P i).done = false) :
    ms (P i).arrival ≤ now := by
  have hfound := nextArrivalAfter_found P now
  rw [h] at hfound
  exact hfound i (List.mem_finRange i) hundone

/-- The three things an iteration can do: pass over a finished task, run the
popped task, or idle until the next arrival. -/
inductive RRStep (tq : Int) (s : RRState N) : RRState N → Prop
  | passOver {k Q} : s.Q.pop = some (k, Q) → (s.P k).done = true → RRStep tq s { s with Q := Q }
  | run {k Q} : s.Q.pop = some (k, Q) → (s.P k).done = false →
      RRStep tq s (RRState.dispatch tq { s with Q := Q } k)
  | idle {j} : s.Q.pop = none → nextArrivalAfter s.P s.now = some j → RRStep tq s (s.refill j)

theorem rrBody_some {tq : Int} {s t : RRState N} (h : rrBody tq s = some t) : RRStep tq s t := by
  unfold rrBody at h
  split at h
  · simp at h
  · split at h
    · next hpop =>
        obtain ⟨j, hj, rfl⟩ := Option.map_eq_some_iff.mp h
        exact .idle hpop hj
    · next k Q hpop =>
        split at h
        · next hdone => exact Option.some.inj h ▸ .passOver hpop hdone
        · next hdone => exact Option.some.inj h ▸ .run hpop (by simpa using hdone)

theorem rrBody_run {tq : Int} {s : RRState N} {k : Fin N} {Q : Queue N}
    (hpop : s.Q.pop = some (k, Q)) (hundone : (s.P k).done = false) :
    rrBody tq s = some (RRState.dispatch tq { s with Q := Q } k) := by
  have hall : allDone s.P ≠ true := fun hall => by simp [allDone_iff.mp hall k] at hundone
  unfold rrBody
  rw [if_neg hall, hpop]
  show (if _ then _ else _) = _
  rw [if_neg (by simp [hundone])]

theorem rrBody_idle {tq : Int} {s : RRState N} {j : Fin N} (hpop : s.Q.pop = none)
    (hj : nextArrivalAfter s.P s.now = some j) : rrBody tq s = some (s.refill j) := by
  have hundone := (nextArrivalAfter_some hj).1
  have hall : allDone s.P ≠ true := fun hall => by simp [allDone_iff.mp hall j] at hundone
  unfold rrBody
  rw [if_neg hall, hpop]
  show (nextArrivalAfter s.P s.now).map s.refill = _
  rw [hj]
  rfl

/-- The loop is left when all tasks are done, or when the queue is empty and no
unfinished task is still to come. -/
theorem rrBody_none {tq : Int} {s : RRState N} (h : rrBody tq s = none) :
    (∀ i, (s.P i).done = true) ∨
      s.Q.items = [] ∧ ∀ i, (s.P i).done = false → ms (s.P i).arrival ≤ s.now := by
  unfold rrBody at h
  split at h
  · next hall => exact Or.inl (allDone_iff.mp hall)
  · right
    split at h
    · next hpop =>
        exact ⟨Queue.pop_none hpop, nextArrivalAfter_none (Option.map_eq_none_iff.mp h)⟩
    · split at h <;> simp at h

/-! ## What every iteration keeps -/

namespace Proc

variable {p : Proc} {now runFor endTime : Int}

theorem ran_start_pid : ((p.start now).ran runFor endTime).pid = p.pid := by
  unfold start ran
  split_ifs <;> rfl

theorem ran_start_arrival : ((p.start now).ran runFor endTime).arrival = p.arrival := by
  unfold start ran
  split_ifs <;> rfl

theorem start_remain : (p.start now).remain = p.remain := by
  unfold start
  split_ifs <;> rfl

theorem ran_start_remain (h : runFor ≤ p.remain) :
    ((p.start now).ran runFor endTime).remain = p.remain - runFor := by
  unfold ran
  rw [start_remain]
  split_ifs with hzero
  · show (0 : Int) = _
    omega
  · rfl

theorem ran_start_done (h : p.done = false) :
    ((p.start now).ran runFor endTime).done = decide (p.remain - runFor ≤ 0) := by
  unfold ran
  rw [start_remain]
  have hstart : (p.start now).done = false := by
    unfold start
    split_ifs <;> exact h
  split_ifs with hzero
  · simp [hzero]
  · simpa [hzero] using hstart

theorem ran_start_finish (h : p.remain - runFor ≤ 0) :
    ((p.start now).ran runFor endTime).finish = endTime := by
  unfold ran
  rw [start_remain, if_pos h]

end Proc

/-- What the results assume of the input: distinct pids, none of them one of the
pids of a switch or an idle period, and no empty burst. `main` checks none of it. -/
structure TasksOk (tasks : Fin N → Task) : Prop where
  pid_inj : ∀ i j, (tasks i).pid = (tasks j).pid → i = j
  pid_nonneg : ∀ i, 0 ≤ (tasks i).pid
  burst_pos : ∀ i, 1 ≤ (tasks i).burst

/-- Each task has been recorded for the time it was served, from its arrival on
and, when it is done, up to its finish. -/
structure RRInv (tasks : Fin N → Task) (s : RRState N) : Prop where
  pid : ∀ i, (s.P i).pid = (tasks i).pid
  arrival : ∀ i, (s.P i).arrival = (tasks i).arrival
  remain_pos : ∀ i, (s.P i).done = false → 0 < (s.P i).remain
  remain_done : ∀ i, (s.P i).done = true → (s.P i).remain = 0
  queued : ∀ i ∈ s.Q.items, ms (tasks i).arrival ≤ s.now
  past : ∀ seg ∈ s.segs, seg.stop ≤ s.now
  served : ∀ i, segTotal (tasks i).pid s.segs + (s.P i).remain = ms (tasks i).burst
  after : ∀ i, ∀ seg ∈ s.segs, seg.pid = (tasks i).pid → ms (tasks i).arrival ≤ seg.start
  before : ∀ i, (s.P i).done = true → ∀ seg ∈ s.segs, seg.pid = (tasks i).pid →
    seg.stop ≤ (s.P i).finish

variable {tq : Int} {tasks : Fin N → Task} {s : RRState N} {k : Fin N}

theorem RRState.now_le_afterSwitch (s : RRState N) (k : Fin N) : s.now ≤ s.afterSwitch k := by
  unfold afterSwitch csOverhead
  split_ifs <;> omega

theorem RRState.afterSwitch_le (s : RRState N) (k : Fin N) :
    s.afterSwitch k ≤ s.now + csOverhead := by
  unfold afterSwitch csOverhead
  split_ifs <;> omega

theorem RRState.afterSwitch_eq (s : RRState N) (k : Fin N) : s.afterSwitch k =
    if s.prev ≠ (s.P k).pid ∧ s.prev ≠ pidIdle then s.now + csOverhead else s.now := by
  unfold afterSwitch switches
  simp

/-- No switch is charged when `prev_pid` names no task. -/
theorem RRState.afterSwitch_idle (h : s.prev = pidIdle) (k : Fin N) : s.afterSwitch k = s.now := by
  rw [afterSwitch_eq, if_neg fun hswitch => hswitch.2 h]

theorem RRState.switchSegs_eq (s : RRState N) (k : Fin N) :
    s.switchSegs k = addSeg s.segs s.now (s.afterSwitch k) pidCs := by
  unfold RRState.switchSegs RRState.afterSwitch
  split_ifs
  · rfl
  · rw [addSeg_of_le le_rfl]

theorem segTotal_switchSegs {pid : Int} (hpid : 0 ≤ pid) :
    segTotal pid (s.switchSegs k) = segTotal pid s.segs := by
  rw [RRState.switchSegs_eq, segTotal_addSeg _ _ (s.now_le_afterSwitch k),
    if_neg (by simp [pidCs]; omega), add_zero]

theorem mem_switchSegs {seg : Segment} (h : seg ∈ s.switchSegs k) :
    seg ∈ s.segs ∨ seg.pid = pidCs ∧ seg.stop = s.afterSwitch k := by
  rw [RRState.switchSegs_eq] at h
  rcases mem_addSeg h with h | ⟨hpid, hstop, -⟩
  · exact Or.inl h
  · exact Or.inr ⟨hpid, hstop⟩

theorem RRState.runFor_le (tq : Int) (s : RRState N) (k : Fin N) : s.runFor tq k ≤ (s.P k).remain :=
  min_le_right _ _

theorem RRState.runFor_pos (htq : 1 ≤ tq) (hpos : 0 < (s.P k).remain) : 0 < s.runFor tq k := by
  refine lt_min ?_ hpos
  show (0 : Int) < 10 * tq
  omega

theorem mem_dispatch_items {i : Fin N} :
    i ∈ (s.dispatch tq k).Q.items ↔
      i ∈ s.Q.items ∨
      ((s.P i).done = false ∧ s.afterSwitch k < ms (s.P i).arrival ∧
        ms (s.P i).arrival ≤ s.afterSwitch k + s.runFor tq k) ∨
      (i = k ∧ ¬ (s.P k).remain - s.runFor tq k ≤ 0) := by
  show i ∈ (if _ then _ else _ : Queue N).items ↔ _
  split_ifs with hdone
  · simp [mem_enqueueArrivals, hdone]
  · simp [Queue.items_push, mem_enqueueArrivals, hdone, or_assoc]

theorem RRInv.withQueue (h : RRInv tasks s) {Q : Queue N}
    (hsub : ∀ i ∈ Q.items, i ∈ s.Q.items) : RRInv tasks { s with Q := Q } where
  pid := h.pid
  arrival := h.arrival
  remain_pos := h.remain_pos
  remain_done := h.remain_done
  queued i hi := h.queued i (hsub i hi)
  past := h.past
  served := h.served
  after := h.after
  before := h.before

theorem TasksOk.pid_ne_cs (htasks : TasksOk tasks) (i : Fin N) : pidCs ≠ (tasks i).pid := by
  intro heq
  have hnonneg := htasks.pid_nonneg i
  rw [← heq] at hnonneg
  simp [pidCs] at hnonneg

theorem TasksOk.pid_ne_idle (htasks : TasksOk tasks) (i : Fin N) : pidIdle ≠ (tasks i).pid := by
  intro heq
  have hnonneg := htasks.pid_nonneg i
  rw [← heq] at hnonneg
  simp [pidIdle] at hnonneg

theorem dispatch_P_self : (s.dispatch tq k).P k =
    ((s.P k).start (s.afterSwitch k)).ran (s.runFor tq k) (s.afterSwitch k + s.runFor tq k) :=
  Function.update_self _ _ _

theorem dispatch_P_of_ne {i : Fin N} (h : i ≠ k) : (s.dispatch tq k).P i = s.P i :=
  Function.update_of_ne h _ _

theorem dispatch_remain_self :
    ((s.dispatch tq k).P k).remain = (s.P k).remain - s.runFor tq k := by
  rw [dispatch_P_self, Proc.ran_start_remain (s.runFor_le tq k)]

/-- The task is finished when its quantum covers what it has left. -/
theorem dispatch_done_iff (hundone : (s.P k).done = false) :
    ((s.dispatch tq k).P k).done = true ↔ (s.P k).remain - s.runFor tq k ≤ 0 := by
  rw [dispatch_P_self, Proc.ran_start_done hundone, decide_eq_true_iff]

theorem dispatch_undone_iff (hundone : (s.P k).done = false) :
    ((s.dispatch tq k).P k).done = false ↔ ¬ (s.P k).remain - s.runFor tq k ≤ 0 := by
  rw [← dispatch_done_iff hundone, Bool.not_eq_true]

/-- What is left unfinished has time left. -/
theorem dispatch_remain_pos (hundone : (s.P k).done = false)
    (hpos : ∀ i, (s.P i).done = false → 0 < (s.P i).remain) (i : Fin N)
    (hi : ((s.dispatch tq k).P i).done = false) : 0 < ((s.dispatch tq k).P i).remain := by
  by_cases hik : i = k
  · subst hik
    rw [dispatch_undone_iff hundone] at hi
    rw [dispatch_remain_self]
    exact not_le.mp hi
  · rw [dispatch_P_of_ne hik] at hi ⊢
    exact hpos i hi

theorem dispatch_arrival (i : Fin N) : ((s.dispatch tq k).P i).arrival = (s.P i).arrival := by
  by_cases hi : i = k
  · rw [hi, dispatch_P_self, Proc.ran_start_arrival]
  · rw [dispatch_P_of_ne hi]

theorem dispatch_pid (i : Fin N) : ((s.dispatch tq k).P i).pid = (s.P i).pid := by
  by_cases hi : i = k
  · rw [hi, dispatch_P_self, Proc.ran_start_pid]
  · rw [dispatch_P_of_ne hi]

/-- A segment recorded after a quantum is old, the switch, or ends now and
belongs to the task that ran. -/
theorem RRInv.mem_dispatch_segs (htasks : TasksOk tasks) (h : RRInv tasks s)
    (hk : ms (tasks k).arrival ≤ s.now) {seg : Segment} (hseg : seg ∈ (s.dispatch tq k).segs) :
    seg ∈ s.segs ∨ (seg.pid = pidCs ∧ seg.stop = s.afterSwitch k) ∨
      (seg.pid = (tasks k).pid ∧ seg.stop = (s.dispatch tq k).now ∧
        ms (tasks k).arrival ≤ seg.start) := by
  have hle := s.now_le_afterSwitch k
  rcases mem_addSeg hseg with hold | ⟨hpid, hstop, -, hstart⟩
  · rcases mem_switchSegs hold with hold | hcs
    · exact Or.inl hold
    · exact Or.inr (Or.inl hcs)
  · refine Or.inr (Or.inr ⟨hpid.trans (h.pid k), hstop, ?_⟩)
    rcases hstart with hstart | ⟨old, hold, holdpid, holdstart⟩
    · rw [hstart]
      omega
    · rw [← holdstart]
      rw [h.pid k] at holdpid
      rcases mem_switchSegs hold with hold | ⟨hcs, -⟩
      · exact h.after k old hold holdpid
      · exact absurd (hcs.symm.trans holdpid) (htasks.pid_ne_cs k)

theorem segTotal_dispatch {pid : Int} (hpid : 0 ≤ pid) (hrun : 0 < s.runFor tq k) :
    segTotal pid (s.dispatch tq k).segs =
      segTotal pid s.segs + if (s.P k).pid = pid then s.runFor tq k else 0 := by
  have hadd := segTotal_addSeg (s.switchSegs k) (s.P k).pid
    (by omega : s.afterSwitch k ≤ s.afterSwitch k + s.runFor tq k) pid
  rw [segTotal_switchSegs hpid, add_sub_cancel_left] at hadd
  exact hadd

/-- The burst is split between the segments and what remains. -/
theorem RRInv.dispatch_served (htasks : TasksOk tasks) (htq : 1 ≤ tq) (h : RRInv tasks s)
    (hundone : (s.P k).done = false) (i : Fin N) :
    segTotal (tasks i).pid (s.dispatch tq k).segs + ((s.dispatch tq k).P i).remain =
      ms (tasks i).burst := by
  have hs := h.served i
  have hrun := RRState.runFor_pos htq (h.remain_pos k hundone)
  rw [segTotal_dispatch (htasks.pid_nonneg i) hrun]
  by_cases hi : i = k
  · subst hi
    rw [if_pos (h.pid i), dispatch_remain_self]
    omega
  · have hne : (s.P k).pid ≠ (tasks i).pid := fun heq =>
      hi (htasks.pid_inj k i ((h.pid k).symm.trans heq)).symm
    rw [if_neg hne, dispatch_P_of_ne hi]
    omega

/-- No segment of a finished task ends after its finish. -/
theorem RRInv.dispatch_before (htasks : TasksOk tasks) (htq : 1 ≤ tq) (h : RRInv tasks s)
    (hk : ms (tasks k).arrival ≤ s.now) (hundone : (s.P k).done = false) {i : Fin N}
    (hdone : ((s.dispatch tq k).P i).done = true) {seg : Segment}
    (hseg : seg ∈ (s.dispatch tq k).segs) (hpid : seg.pid = (tasks i).pid) :
    seg.stop ≤ ((s.dispatch tq k).P i).finish := by
  have hle := s.now_le_afterSwitch k
  have hrun := RRState.runFor_pos htq (h.remain_pos k hundone)
  have hcases := h.mem_dispatch_segs htasks hk hseg
  by_cases hi : i = k
  · -- `k` finishes now, and nothing recorded is later
    subst hi
    rw [dispatch_done_iff hundone] at hdone
    rw [dispatch_P_self, Proc.ran_start_finish hdone]
    rcases hcases with hold | ⟨hcspid, -⟩ | ⟨-, hstop, -⟩
    · have hp := h.past seg hold
      omega
    · exact absurd (hcspid.symm.trans hpid) (htasks.pid_ne_cs i)
    · exact hstop.le
  · rw [dispatch_P_of_ne hi] at hdone ⊢
    rcases hcases with hold | ⟨hcspid, -⟩ | ⟨hkpid, -⟩
    · exact h.before i hdone seg hold hpid
    · exact absurd (hcspid.symm.trans hpid) (htasks.pid_ne_cs i)
    · exact absurd (htasks.pid_inj k i (hkpid.symm.trans hpid)).symm hi

/-- A quantum keeps the invariant. -/
theorem RRInv.dispatch (htasks : TasksOk tasks) (htq : 1 ≤ tq) (h : RRInv tasks s)
    (hk : ms (tasks k).arrival ≤ s.now) (hundone : (s.P k).done = false) :
    RRInv tasks (s.dispatch tq k) := by
  have hle := s.now_le_afterSwitch k
  have hrun := RRState.runFor_pos htq (h.remain_pos k hundone)
  refine
    { pid := fun i => ?_
      arrival := fun i => (dispatch_arrival i).trans (h.arrival i)
      remain_pos := dispatch_remain_pos hundone h.remain_pos
      remain_done := fun i => ?_
      queued := fun i hi => ?_
      past := fun seg hseg => ?_
      served := h.dispatch_served htasks htq hundone
      after := fun i seg hseg hpid => ?_
      before := fun _ hdone _ hseg hpid =>
        h.dispatch_before htasks htq hk hundone hdone hseg hpid }
  · rw [dispatch_pid, h.pid]
  · by_cases hi : i = k
    · rw [hi, dispatch_done_iff hundone, dispatch_remain_self]
      intro hdone
      have hrem := s.runFor_le tq k
      omega
    · rw [dispatch_P_of_ne hi]
      exact h.remain_done i
  · -- every push in the quantum is of a task that has arrived by its end
    show _ ≤ s.afterSwitch k + s.runFor tq k
    rcases mem_dispatch_items.mp hi with hi | ⟨-, -, hi⟩ | ⟨rfl, -⟩
    · have hq := h.queued i hi
      omega
    · rwa [h.arrival] at hi
    · omega
  · show _ ≤ s.afterSwitch k + s.runFor tq k
    rcases h.mem_dispatch_segs htasks hk hseg with hold | ⟨-, hstop⟩ | ⟨-, hstop, -⟩
    · have hp := h.past seg hold
      omega
    · omega
    · exact hstop.le
  · rcases h.mem_dispatch_segs htasks hk hseg with hold | ⟨hcspid, -⟩ | ⟨hkpid, -, hstart⟩
    · exact h.after i seg hold hpid
    · exact absurd (hcspid.symm.trans hpid) (htasks.pid_ne_cs i)
    · rw [← htasks.pid_inj k i (hkpid.symm.trans hpid)]
      exact hstart

/-- Recording an idle period changes no task's segments. -/
theorem segTotal_idle (htasks : TasksOk tasks) {segs : List Segment} {start stop : Int}
    (h : start ≤ stop) (i : Fin N) :
    segTotal (tasks i).pid (addSeg segs start stop pidIdle) = segTotal (tasks i).pid segs := by
  have hnonneg := htasks.pid_nonneg i
  rw [segTotal_addSeg _ _ h, if_neg (by simp [pidIdle]; omega), add_zero]

theorem mem_idle_segs (htasks : TasksOk tasks) {segs : List Segment} {start stop : Int}
    {seg : Segment} (hseg : seg ∈ addSeg segs start stop pidIdle) {i : Fin N}
    (hpid : seg.pid = (tasks i).pid) : seg ∈ segs := by
  rcases mem_addSeg hseg with hold | ⟨hidle, -⟩
  · exact hold
  · exact absurd (hidle.symm.trans hpid) (htasks.pid_ne_idle i)

/-- An idle period keeps the invariant. -/
theorem RRInv.refill (htasks : TasksOk tasks) (h : RRInv tasks s) {j : Fin N}
    (hj : s.now < ms (s.P j).arrival) : RRInv tasks (s.refill j) where
  pid := h.pid
  arrival := h.arrival
  remain_pos := h.remain_pos
  remain_done := h.remain_done
  queued i hi := by
    rcases Queue.mem_items_pushWhere.mp hi with hi | hi
    · exact (h.queued i hi).trans hj.le
    · simp only [Bool.and_eq_true, decide_eq_true_eq, h.arrival i] at hi
      exact hi.2
  past seg hseg := by
    rcases mem_addSeg hseg with hold | ⟨-, hstop, -⟩
    · exact (h.past seg hold).trans hj.le
    · exact hstop.le
  served i := by
    show segTotal _ (addSeg _ _ _ _) + _ = _
    rw [segTotal_idle htasks hj.le]
    exact h.served i
  after i seg hseg hpid := h.after i seg (mem_idle_segs htasks hseg hpid) hpid
  before i hdone seg hseg hpid := h.before i hdone seg (mem_idle_segs htasks hseg hpid) hpid

/-- Every iteration keeps the invariant. -/
theorem RRInv.step (htasks : TasksOk tasks) (htq : 1 ≤ tq) {t : RRState N}
    (h : RRInv tasks s) (hstep : RRStep tq s t) : RRInv tasks t := by
  cases hstep with
  | passOver hpop _ =>
      refine h.withQueue fun i hi => ?_
      rw [Queue.pop_some hpop]
      exact List.mem_cons_of_mem _ hi
  | @run k Q hpop hundone =>
      have hitems := Queue.pop_some hpop
      refine (h.withQueue fun i hi => ?_).dispatch htasks htq (h.queued k ?_) hundone
      · rw [hitems]
        exact List.mem_cons_of_mem _ hi
      · rw [hitems]
        exact List.mem_cons_self
  | idle hpop hj => exact h.refill htasks (nextArrivalAfter_some hj).2

end OsProjects.Sched
