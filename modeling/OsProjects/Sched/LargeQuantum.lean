import OsProjects.Sched.ArrivalOrder
import OsProjects.Sched.Completion

/-!
# Round Robin with a large quantum

With a quantum no burst exceeds, Round Robin runs every task to its end, in the
order of its queue, as FCFS does in the order of the table. The two give the
same times as long as Round Robin keeps pace (`KeepsPace`): it never idles, and
a task that arrives at the end of a context switch, which `enqueue_arrivals`
skips, is brought back in time by an idle period of just the length of a switch.
-/

namespace OsProjects.Sched

open OsProjects.Lib.Loops

/-! ## The condition -/

/-- The last task ended at `now`; the tasks in the list are still to run, in
order. `skipped` holds the ends of the context switches since the queue was
last filled: a task that arrived then is not in the queue. -/
def KeepsPace : (now : Int) → (skipped : List Int) → List Task → Prop
  | _, _, [] => True
  | now, skipped, task :: rest =>
      ms task.arrival ≤ now ∧
        if ms task.arrival ∈ skipped then
          -- the queue is empty, and refilled when the switch would end
          (∀ other ∈ rest, ms other.arrival ≤ now → ms other.arrival ∈ skipped) ∧
            (∃ other ∈ rest, ms other.arrival = now + csOverhead) ∧
            KeepsPace (now + task.cost) [] rest
        else KeepsPace (now + task.cost) (skipped ++ [now + csOverhead]) rest

/-- Round Robin keeps pace with FCFS from the first task on. -/
def StaysInStep : List Task → Prop
  | [] => True
  | first :: rest => KeepsPace (ms first.arrival + ms first.burst) [] rest

variable {N : Nat} {tq : Int} {tasks : Fin N → Task} {pf : Fin N → Proc} {s t : RRState N}

/-! ## What Round Robin does -/

/-- The first `m` tasks have run, with the times `pf`; the others are untouched.
The queue holds those that have arrived and were not skipped, in order. -/
structure Queued (tasks : Fin N → Task) (pf : Fin N → Proc) (m : Nat) (skipped : List Int)
    (s : RRState N) : Prop where
  done : ∀ i, i.val < m → (s.P i).done = true
  times : ∀ i, i.val < m →
    (s.P i).firstStart = (pf i).firstStart ∧ (s.P i).finish = (pf i).finish
  fresh : ∀ i, m ≤ i.val → s.P i = (tasks i).load
  pid : ∀ i, (s.P i).pid = (tasks i).pid
  skipped_le : ∀ e ∈ skipped, e ≤ s.now
  sorted : s.Q.items.Pairwise (· < ·)
  mem : ∀ k, k ∈ s.Q.items ↔
    m ≤ k.val ∧ ms (tasks k).arrival ≤ s.now ∧ ms (tasks k).arrival ∉ skipped

theorem Queued.undone {m : Nat} {skipped : List Int} (h : Queued tasks pf m skipped s) {i : Fin N}
    (hi : m ≤ i.val) : (s.P i).done = false := by
  rw [h.fresh i hi]
  rfl

theorem Queued.done_iff {m : Nat} {skipped : List Int} (h : Queued tasks pf m skipped s)
    (i : Fin N) : (s.P i).done = true ↔ i.val < m := by
  refine ⟨fun hdone => ?_, h.done i⟩
  by_contra hi
  simp [h.undone (not_lt.mp hi)] at hdone

/-- A sorted queue stays sorted when later arrivals are pushed. -/
theorem sorted_append_later {items : List (Fin N)} {cond : Fin N → Bool}
    (hsorted : items.Pairwise (· < ·)) (hlater : ∀ i ∈ items, ∀ j, cond j = true → i < j) :
    (items ++ (List.finRange N).filter cond).Pairwise (· < ·) := by
  refine List.pairwise_append.mpr ⟨hsorted, (List.pairwise_lt_finRange N).filter _, ?_⟩
  intro i hi j hj
  exact hlater i hi j (List.mem_filter.mp hj).2

section Dispatch

variable {m : Nat} {skipped skipped' : List Int} {Q : Queue N} {k : Fin N}
  (h : Queued tasks pf m skipped s)

include h

/-- A large quantum is enough for the whole burst. -/
theorem Queued.runFor_eq (hk : m ≤ k.val) (htq : (tasks k).burst ≤ tq) :
    RRState.runFor tq { s with Q := Q } k = ms (tasks k).burst := by
  show min (ms tq) (s.P k).remain = _
  rw [h.fresh k hk]
  exact min_eq_right (by show 10 * (tasks k).burst ≤ 10 * tq; omega)

theorem Queued.runs_out (hk : m ≤ k.val) (htq : (tasks k).burst ≤ tq) :
    (s.P k).remain - RRState.runFor tq { s with Q := Q } k ≤ 0 := by
  rw [h.runFor_eq hk htq, h.fresh k hk]
  exact (sub_self (ms (tasks k).burst)).le

/-- Whichever task runs next, it is done after the switch and its burst. -/
theorem Queued.dispatch_self (hk : m ≤ k.val) (htq : (tasks k).burst ≤ tq) :
    ((RRState.dispatch tq { s with Q := Q } k).P k).done = true ∧
      ((RRState.dispatch tq { s with Q := Q } k).P k).firstStart =
        RRState.afterSwitch { s with Q := Q } k ∧
      ((RRState.dispatch tq { s with Q := Q } k).P k).finish =
        (RRState.dispatch tq { s with Q := Q } k).now := by
  have hout := h.runs_out (Q := Q) hk htq
  rw [dispatch_P_self, Proc.ran_start_done (h.undone hk), Proc.ran_start_firstStart,
    Proc.ran_start_finish hout]
  refine ⟨decide_eq_true hout, ?_, rfl⟩
  rw [if_neg (by simp [h.fresh k hk, Task.load])]

theorem Queued.front_arrived (hpop : s.Q.pop = some (k, Q)) : ms (tasks k).arrival ≤ s.now :=
  ((h.mem k).mp (by rw [Queue.pop_some hpop]; exact List.mem_cons_self)).2.1

variable (hk : k.val = m) (hpop : s.Q.pop = some (k, Q))

include hk hpop

theorem Queued.dispatch_sorted (horder : InOrder tasks) (htq : (tasks k).burst ≤ tq) :
    (RRState.dispatch tq { s with Q := Q } k).Q.items.Pairwise (· < ·) := by
  have hitems := Queue.pop_some hpop
  have hsorted := h.sorted
  rw [hitems] at hsorted
  have hswitch : s.now ≤ RRState.afterSwitch { s with Q := Q } k :=
    RRState.now_le_afterSwitch { s with Q := Q } k
  show (if _ then _ else _ : Queue N).items.Pairwise _
  rw [if_pos (h.runs_out hk.ge htq), enqueueArrivals, Queue.items_pushWhere]
  refine sorted_append_later (List.pairwise_cons.mp hsorted).2 fun i hi j hj => ?_
  -- what was in the queue had arrived before the switch
  have hearly := ((h.mem i).mp (by rw [hitems]; exact List.mem_cons_of_mem _ hi)).2.1
  simp only [Bool.and_eq_true, decide_eq_true_eq, Bool.not_eq_true'] at hj
  obtain ⟨⟨hundone, hlate⟩, -⟩ := hj
  have hj : m ≤ j.val := by
    by_contra hlt
    simp [h.done j (not_le.mp hlt)] at hundone
  rw [h.fresh j hj] at hlate
  replace hlate : RRState.afterSwitch { s with Q := Q } k < ms (tasks j).arrival := hlate
  by_contra hge
  have hle := horder.arrival_le (not_lt.mp hge)
  simp only [ms] at hearly hlate
  omega

theorem Queued.dispatch_mem (htq : (tasks k).burst ≤ tq) (hpos : 1 ≤ (tasks k).burst)
    (hskipped : ∀ a, a ∉ skipped' ↔
      a ∉ skipped ∧ ¬ (s.now < a ∧ a ≤ RRState.afterSwitch { s with Q := Q } k)) (i : Fin N) :
    i ∈ (RRState.dispatch tq { s with Q := Q } k).Q.items ↔
      m + 1 ≤ i.val ∧
        ms (tasks i).arrival ≤ (RRState.dispatch tq { s with Q := Q } k).now ∧
        ms (tasks i).arrival ∉ skipped' := by
  have hitems := Queue.pop_some hpop
  have hsorted := h.sorted
  rw [hitems] at hsorted
  have hmem := h.mem i
  rw [hitems, List.mem_cons] at hmem
  have hfront := h.front_arrived hpop
  have hswitch : s.now ≤ RRState.afterSwitch { s with Q := Q } k :=
    RRState.now_le_afterSwitch { s with Q := Q } k
  have hnow : (RRState.dispatch tq { s with Q := Q } k).now =
      RRState.afterSwitch { s with Q := Q } k + ms (tasks k).burst := by
    rw [← h.runFor_eq hk.ge htq]
    rfl
  have hburst : 0 < ms (tasks k).burst := by
    show (0 : Int) < 10 * (tasks k).burst
    omega
  have hne : i.val ≠ m → i ≠ k := fun hi heq => hi (heq ▸ hk)
  rw [mem_dispatch_items, hskipped, hnow]
  refine ⟨fun hi => ?_, fun ⟨hi, hend, hnew, hwindow⟩ => ?_⟩
  · rcases hi with hi | ⟨hundone, hlate, hend⟩ | ⟨-, hleft⟩
    · -- it was in the queue behind `k`
      obtain ⟨hm, hearly, hnot⟩ := hmem.mp (Or.inr hi)
      have hlt : k < i := (List.pairwise_cons.mp hsorted).1 i hi
      exact ⟨by rw [← hk]; exact hlt, by omega, hnot, by omega⟩
    · -- it arrives while `k` runs
      have hm : m ≤ i.val := by
        by_contra hlt
        replace hundone : (s.P i).done = false := hundone
        simp [h.done i (not_le.mp hlt)] at hundone
      replace hlate : RRState.afterSwitch { s with Q := Q } k < ms (s.P i).arrival := hlate
      replace hend : ms (s.P i).arrival ≤ RRState.afterSwitch { s with Q := Q } k +
        RRState.runFor tq { s with Q := Q } k := hend
      rw [h.fresh i hm] at hlate hend
      rw [h.runFor_eq hk.ge htq] at hend
      replace hlate : RRState.afterSwitch { s with Q := Q } k < ms (tasks i).arrival := hlate
      have hik : i.val ≠ m := fun heq => by
        rw [Fin.ext (heq.trans hk.symm)] at hlate
        omega
      refine ⟨by omega, hend, fun hin => ?_, by omega⟩
      have hold := h.skipped_le _ hin
      omega
    · -- `k` is not pushed back
      exact absurd (h.runs_out hk.ge htq) hleft
  · by_cases hearly : ms (tasks i).arrival ≤ s.now
    · exact Or.inl ((hmem.mpr ⟨by omega, hearly, hnew⟩).resolve_left (hne (by omega)))
    · refine Or.inr (Or.inl ⟨h.undone (by omega), ?_, ?_⟩)
      · show RRState.afterSwitch { s with Q := Q } k < ms (s.P i).arrival
        rw [h.fresh i (by omega)]
        show _ < ms (tasks i).arrival
        omega
      · show ms (s.P i).arrival ≤ RRState.afterSwitch { s with Q := Q } k + RRState.runFor tq _ k
        rw [h.fresh i (by omega), h.runFor_eq hk.ge htq]
        exact hend

/-- The next task runs to its end. `skipped'` are the skipped arrivals after the
switch before it. -/
theorem Queued.dispatch (horder : InOrder tasks) (htq : (tasks k).burst ≤ tq)
    (hpos : 1 ≤ (tasks k).burst)
    (hstart : RRState.afterSwitch { s with Q := Q } k = (pf k).firstStart)
    (hfinish : (pf k).finish = (pf k).firstStart + ms (tasks k).burst)
    (hle : ∀ e ∈ skipped', e ≤ (pf k).firstStart)
    (hskipped : ∀ a, a ∉ skipped' ↔
      a ∉ skipped ∧ ¬ (s.now < a ∧ a ≤ RRState.afterSwitch { s with Q := Q } k)) :
    Queued tasks pf (m + 1) skipped' (RRState.dispatch tq { s with Q := Q } k) ∧
      (RRState.dispatch tq { s with Q := Q } k).now = (pf k).finish := by
  have hnow : (RRState.dispatch tq { s with Q := Q } k).now = (pf k).finish := by
    show RRState.afterSwitch _ k + RRState.runFor tq _ k = _
    rw [h.runFor_eq hk.ge htq, hstart, hfinish]
  have hother : ∀ i : Fin N, i.val ≠ m →
      (RRState.dispatch tq { s with Q := Q } k).P i = s.P i := fun i hi =>
    dispatch_P_of_ne fun heq => hi (heq ▸ hk)
  have hself : ∀ i : Fin N, ¬ i.val ≠ m → i = k := fun i hi =>
    Fin.ext ((not_not.mp hi).trans hk.symm)
  obtain ⟨hdone, hfirst, hend⟩ := h.dispatch_self (Q := Q) hk.ge htq
  -- only the entry of `k`, the task at position `m`, has changed
  refine ⟨⟨fun i hi => ?_, fun i hi => ?_, fun i hi => ?_, fun i => ?_, fun e he => ?_,
    h.dispatch_sorted hk hpop horder htq, h.dispatch_mem hk hpop htq hpos hskipped⟩, hnow⟩
  · by_cases him : i.val ≠ m
    · rw [hother i him]
      exact h.done i (by omega)
    · rw [hself i him]
      exact hdone
  · by_cases him : i.val ≠ m
    · rw [hother i him]
      exact h.times i (by omega)
    · rw [hself i him]
      exact ⟨hfirst.trans hstart, hend.trans hnow⟩
  · rw [hother i (by omega)]
    exact h.fresh i (by omega)
  · by_cases him : i.val ≠ m
    · rw [hother i him]
      exact h.pid i
    · rw [hself i him, dispatch_P_self, Proc.ran_start_pid]
      exact h.pid k
  · have he := hle e he
    have hburst : 0 ≤ ms (tasks k).burst := by
      show (0 : Int) ≤ 10 * (tasks k).burst
      omega
    rw [hnow, hfinish]
    omega

end Dispatch

/-! ## The next task -/

/-- The task `last` has just run, as in FCFS. -/
structure InStep (tasks : Fin N → Task) (pf : Fin N → Proc) (last : Fin N) (skipped : List Int)
    (s : RRState N) : Prop where
  queued : Queued tasks pf (last.val + 1) skipped s
  now : s.now = (pf last).finish
  prev : s.prev = (tasks last).pid

/-- The first task in the queue is the next one, if that is in the queue. -/
theorem Queued.front {m : Nat} {skipped : List Int} {k : Fin N} (h : Queued tasks pf m skipped s)
    (hk : k.val = m) (hmem : k ∈ s.Q.items) : ∃ Q, s.Q.pop = some (k, Q) := by
  obtain ⟨j, Q, hpop, hj⟩ := Queue.exists_pop (List.ne_nil_of_mem hmem)
  refine ⟨Q, ?_⟩
  have hsorted := h.sorted
  have hitems := Queue.pop_some hpop
  rw [hitems] at hsorted hmem
  have hm := ((h.mem j).mp hj).1
  rcases List.mem_cons.mp hmem with rfl | htail
  · exact hpop
  · have hlt : j.val < k.val := (List.pairwise_cons.mp hsorted).1 k htail
    omega

variable {last k : Fin N} {skipped : List Int}

theorem InStep.switches (htasks : TasksOk tasks) (h : InStep tasks pf last skipped s)
    (hne : k ≠ last) (Q : Queue N) :
    RRState.afterSwitch { s with Q := Q } k = s.now + csOverhead := by
  have hprev : s.prev ≠ (s.P k).pid := by
    rw [h.prev, h.queued.pid]
    exact fun heq => hne (htasks.pid_inj last k heq).symm
  have hidle : s.prev ≠ pidIdle := by
    rw [h.prev]
    exact (htasks.pid_ne_idle last).symm
  rw [RRState.afterSwitch_eq]
  exact if_pos ⟨hprev, hidle⟩

/-- The next task is in the queue. -/
theorem InStep.runs_next (htasks : TasksOk tasks) (horder : InOrder tasks)
    (htq : ∀ i, (tasks i).burst ≤ tq) (hpf : FcfsTimes tasks N pf)
    (h : InStep tasks pf last skipped s) (hk : k.val = last.val + 1)
    (harrived : ms (tasks k).arrival ≤ s.now) (hnot : ms (tasks k).arrival ∉ skipped) :
    ∃ t, rrBody tq s = some t ∧ InStep tasks pf k (skipped ++ [s.now + csOverhead]) t := by
  obtain ⟨Q, hpop⟩ := h.queued.front hk ((h.queued.mem k).mpr ⟨hk.ge, harrived, hnot⟩)
  have hswitch := h.switches htasks (k := k) (fun heq => by rw [heq] at hk; omega) Q
  have hstart : (pf k).firstStart = s.now + csOverhead := by
    rw [hpf.next last k k.isLt hk, ← h.now, max_eq_left harrived]
  have hle : ∀ e ∈ skipped ++ [s.now + csOverhead], e ≤ (pf k).firstStart := by
    intro e he
    rw [hstart]
    rcases List.mem_append.mp he with he | he
    · have hle := h.queued.skipped_le e he
      simp only [csOverhead]
      omega
    · rw [List.mem_singleton.mp he]
  have hskipped : ∀ a, a ∉ skipped ++ [s.now + csOverhead] ↔
      a ∉ skipped ∧ ¬ (s.now < a ∧ a ≤ RRState.afterSwitch { s with Q := Q } k) := by
    intro a
    rw [hswitch, List.mem_append, List.mem_singleton, not_or]
    simp only [csOverhead]
    exact and_congr_right fun _ => by omega
  obtain ⟨hnext, hnow⟩ := h.queued.dispatch hk hpop horder (htq k) (htasks.burst_pos k)
    (hswitch.trans hstart.symm) (hpf.finish k k.isLt) hle hskipped
  refine ⟨_, rrBody_run hpop (h.queued.undone hk.ge), ?_, hnow, h.queued.pid k⟩
  rwa [hk]

/-- With an empty queue and a task still to come, the queue is refilled. -/
theorem Queued.refill {m : Nat} {j : Fin N} (h : Queued tasks pf m skipped s)
    (hpop : s.Q.pop = none) : Queued tasks pf m [] (s.refill j) := by
  have hitems : (s.refill j).Q.items = (List.finRange N).filter fun i =>
      !(s.P i).done && ms (s.P i).arrival ≤ ms (s.P j).arrival := by
    show (s.Q.pushWhere _).items = _
    rw [Queue.items_pushWhere, Queue.pop_none hpop, List.nil_append]
  refine ⟨h.done, h.times, h.fresh, h.pid, by simp, ?_, fun i => ?_⟩
  · rw [hitems]
    exact (List.pairwise_lt_finRange N).filter _
  · rw [hitems, List.mem_filter]
    simp only [List.mem_finRange, true_and, Bool.and_eq_true, decide_eq_true_eq,
      Bool.not_eq_true', List.not_mem_nil, not_false_eq_true, and_true]
    have hundone : (s.P i).done = false ↔ m ≤ i.val := by
      rw [← not_lt, ← h.done_iff i, Bool.not_eq_true]
    rw [hundone]
    refine and_congr_right fun hi => ?_
    rw [h.fresh i hi]
    exact Iff.rfl

theorem InStep.empty (h : InStep tasks pf last skipped s) (hk : k.val = last.val + 1)
    (hempty : ∀ i, k ≤ i → ms (tasks i).arrival ≤ s.now → ms (tasks i).arrival ∈ skipped) :
    s.Q.pop = none := by
  cases hpop : s.Q.pop with
  | none => rfl
  | some popped =>
      obtain ⟨i, Q⟩ := popped
      obtain ⟨hi, harrived, hnot⟩ := (h.queued.mem i).mp
        (by rw [Queue.pop_some hpop]; exact List.mem_cons_self)
      exact absurd (hempty i (by rw [Fin.le_def]; omega) harrived) hnot

theorem InStep.fresh (h : InStep tasks pf last skipped s) (hk : k.val = last.val + 1) {i : Fin N}
    (hki : k ≤ i) : s.P i = (tasks i).load := by
  rw [Fin.le_def] at hki
  exact h.queued.fresh i (by omega)

/-- `next_arrival_after` finds the first of the tasks that are still to come. -/
theorem InStep.next_arrival (h : InStep tasks pf last skipped s) (hk : k.val = last.val + 1)
    {i : Fin N} (hki : k ≤ i) (hlater : s.now < ms (tasks i).arrival) :
    ∃ j, nextArrivalAfter s.P s.now = some j ∧ k ≤ j ∧ s.now < ms (tasks j).arrival ∧
      ∀ i, k ≤ i → s.now < ms (tasks i).arrival → (tasks j).arrival ≤ (tasks i).arrival := by
  obtain ⟨j, hj⟩ : ∃ j, nextArrivalAfter s.P s.now = some j := by
    cases hnx : nextArrivalAfter s.P s.now with
    | some j => exact ⟨j, rfl⟩
    | none =>
        have hle := nextArrivalAfter_none hnx i (by rw [h.fresh hk hki]; rfl)
        rw [h.fresh hk hki] at hle
        exact absurd hle (not_le.mpr hlater)
  obtain ⟨hundone, hjlater⟩ := nextArrivalAfter_some hj
  have hkj : k ≤ j := by
    by_contra hlt
    have hdone := h.queued.done j (by rw [Fin.le_def] at hlt; omega)
    simp [hdone] at hundone
  rw [h.fresh hk hkj] at hjlater
  refine ⟨j, hj, hkj, hjlater, fun i hi hlate => ?_⟩
  have hle := nextArrivalAfter_le hj (i := i) (by rw [h.fresh hk hi]; rfl)
    (by rw [h.fresh hk hi]; exact hlate)
  rw [h.fresh hk hkj, h.fresh hk hi] at hle
  exact hle

/-- The queue is empty: Round Robin waits for the next arrival and then runs the
next task without a switch. -/
theorem InStep.refills (htasks : TasksOk tasks) (horder : InOrder tasks)
    (htq : ∀ i, (tasks i).burst ≤ tq) (hpf : FcfsTimes tasks N pf)
    (h : InStep tasks pf last skipped s) (hk : k.val = last.val + 1)
    (hempty : ∀ i, k ≤ i → ms (tasks i).arrival ≤ s.now → ms (tasks i).arrival ∈ skipped)
    {i : Fin N} (hki : k ≤ i) (hlater : s.now < ms (tasks i).arrival) :
    ∃ j v w, k ≤ j ∧ s.now < ms (tasks j).arrival ∧
      (∀ i, k ≤ i → s.now < ms (tasks i).arrival → (tasks j).arrival ≤ (tasks i).arrival) ∧
      rrBody tq s = some v ∧ rrBody tq v = some w ∧ (w.P k).done = true ∧
      (w.P k).firstStart = ms (tasks j).arrival ∧
      ((pf k).firstStart = ms (tasks j).arrival → InStep tasks pf k [] w) := by
  have hpop := h.empty hk hempty
  obtain ⟨j, hj, hkj, hjlater, hfirst⟩ := h.next_arrival hk hki hlater
  have hrefill := h.queued.refill (j := j) hpop
  rw [← hk] at hrefill
  have hnow : (s.refill j).now = ms (tasks j).arrival := by
    show ms (s.P j).arrival = _
    rw [h.fresh hk hkj]
    rfl
  have harrival := horder.arrival_le hkj
  obtain ⟨Q, hpop'⟩ := hrefill.front (k := k) rfl
    ((hrefill.mem k).mpr ⟨le_rfl, by rw [hnow]; simp only [ms]; omega, by simp⟩)
  -- the refill leaves `prev` at `PID_IDLE`, so no switch is charged
  have hstart : RRState.afterSwitch { s.refill j with Q := Q } k = ms (tasks j).arrival :=
    (RRState.afterSwitch_idle rfl k).trans hnow
  obtain ⟨hdone, hstarts, -⟩ := hrefill.dispatch_self (Q := Q) le_rfl (htq k)
  refine ⟨j, _, _, hkj, hjlater, hfirst, rrBody_idle hpop hj,
    rrBody_run hpop' (hrefill.undone le_rfl), hdone, hstarts.trans hstart, fun hpace => ?_⟩
  have hskipped : ∀ a, a ∉ ([] : List Int) ↔ a ∉ ([] : List Int) ∧
      ¬ ((s.refill j).now < a ∧ a ≤ RRState.afterSwitch { s.refill j with Q := Q } k) := by
    intro a
    rw [hstart, hnow]
    simp only [List.not_mem_nil, not_false_eq_true, true_and, true_iff]
    omega
  obtain ⟨hnext, hend⟩ := hrefill.dispatch rfl hpop' horder (htq k) (htasks.burst_pos k)
    (hstart.trans hpace.symm) (hpf.finish k k.isLt) (by simp) hskipped
  exact ⟨hnext, hend, hrefill.pid k⟩

/-! ## Whether the times agree -/

/-- A task that is done at another time than in FCFS settles it. -/
theorem not_sameTimes (hreach : Reaches (rrBody tq) s t) (hdone : (s.P k).done = true)
    (hne : (s.P k).firstStart ≠ (pf k).firstStart) : ¬ SameTimes t.P pf := by
  intro hsame
  refine hne ?_
  rw [← done_fixed hreach hdone]
  exact (hsame k).1

section Agreement

variable (htasks : TasksOk tasks) (horder : InOrder tasks) (htq : ∀ i, (tasks i).burst ≤ tq)
  (hpf : FcfsTimes tasks N pf) (hexit : rrBody tq t = none)
  (h : InStep tasks pf last skipped s) (hk : k.val = last.val + 1)
  (hreach : Reaches (rrBody tq) s t)

include htasks htq hpf hexit h hk hreach

/-- A later task is in the queue and the next one is not: it is overtaken. -/
theorem InStep.overtaken (harrived : ms (tasks k).arrival ≤ s.now)
    (hskip : ms (tasks k).arrival ∈ skipped) {i : Fin N} (hki : k ≤ i)
    (hi : ms (tasks i).arrival ≤ s.now) (hnot : ms (tasks i).arrival ∉ skipped) :
    ¬ SameTimes t.P pf := by
  have hmem : i ∈ s.Q.items :=
    (h.queued.mem i).mpr ⟨by rw [Fin.le_def] at hki; omega, hi, hnot⟩
  obtain ⟨j, Q, hpop, hj⟩ := Queue.exists_pop (List.ne_nil_of_mem hmem)
  obtain ⟨hlast, -, hjnot⟩ := (h.queued.mem j).mp hj
  have hkj : k < j := by
    have hne : k ≠ j := fun heq => hjnot (heq ▸ hskip)
    exact lt_of_le_of_ne (by rw [Fin.le_def]; omega) hne
  obtain ⟨hdone, hfirst, -⟩ := h.queued.dispatch_self (Q := Q) hlast (htq j)
  have hnext := hreach.next hexit (rrBody_run hpop (h.queued.undone hlast))
  refine not_sameTimes hnext hdone ?_
  have hlt := hpf.firstStart_lt htasks.burst_pos hkj
  rw [hfirst, h.switches htasks (fun heq => by rw [heq] at hlast; omega)]
  rw [hpf.next last k k.isLt hk, ← h.now, max_eq_left harrived] at hlt
  exact hlt.ne

include horder

/-- The queue is empty and refilled at another time than FCFS starts the next
task, or not at all. -/
theorem InStep.out_of_step (harrival : ∀ i, 0 ≤ (tasks i).arrival)
    (hempty : ∀ i, k ≤ i → ms (tasks i).arrival ≤ s.now → ms (tasks i).arrival ∈ skipped)
    (hnever : ∀ j, k ≤ j → s.now < ms (tasks j).arrival →
      (∀ i, k ≤ i → s.now < ms (tasks i).arrival → (tasks j).arrival ≤ (tasks i).arrival) →
      (pf k).firstStart ≠ ms (tasks j).arrival) : ¬ SameTimes t.P pf := by
  by_cases hlater : ∃ i, k ≤ i ∧ s.now < ms (tasks i).arrival
  · obtain ⟨i, hki, hi⟩ := hlater
    obtain ⟨j, v, w, hkj, hj, hfirst, hv, hw, hdone, hstart, -⟩ :=
      h.refills htasks horder htq hpf hk hempty hki hi
    refine not_sameTimes ((hreach.next hexit hv).next hexit hw) hdone ?_
    rw [hstart]
    exact (hnever j hkj hj hfirst).symm
  · -- the loop is left here, and the next task has not run
    have hstuck : rrBody tq s = none := by
      cases hbody : rrBody tq s with
      | none => rfl
      | some v =>
          have hpop := h.empty hk hempty
          cases rrBody_some hbody with
          | passOver hpop' => simp [hpop] at hpop'
          | run hpop' => simp [hpop] at hpop'
          | @idle j _ hj =>
              obtain ⟨hundone, hjlater⟩ := nextArrivalAfter_some hj
              have hlast : last.val + 1 ≤ j.val := by
                by_contra hlt
                simp [h.queued.done j (not_le.mp hlt)] at hundone
              rw [h.queued.fresh j hlast] at hjlater
              exact absurd ⟨j, by rw [Fin.le_def]; omega, hjlater⟩ hlater
    intro hsame
    have hfinish := (hsame k).2
    have hpos := hpf.finish k k.isLt
    have hearly := hpf.arrival_le k
    have harrival := harrival k
    have hburst := htasks.burst_pos k
    rw [hreach.eq_of_exit hstuck, h.queued.fresh k hk.ge] at hfinish
    replace hfinish : 0 = (pf k).finish := hfinish
    simp only [ms] at hpos hearly
    omega

/-- The next task has not arrived yet: Round Robin waits for it and saves the
switch that FCFS charges. -/
theorem InStep.idles (harrival : ∀ i, 0 ≤ (tasks i).arrival)
    (hlater : s.now < ms (tasks k).arrival) : ¬ SameTimes t.P pf := by
  have hlate : ∀ i, k ≤ i → s.now < ms (tasks i).arrival := by
    intro i hki
    have hle := horder.arrival_le hki
    simp only [ms] at hlater ⊢
    omega
  refine h.out_of_step htasks horder htq hpf hexit hk hreach harrival ?_ ?_
  · intro i hki hi
    exact absurd hi (not_le.mpr (hlate i hki))
  · intro j hkj _ hfirst
    have hle := horder.arrival_le hkj
    have hge := hfirst k le_rfl hlater
    rw [hpf.next last k k.isLt hk, ← h.now, max_eq_right hlater.le]
    simp only [ms, csOverhead]
    omega

/-- The idle period until the next arrival is as long as the switch. -/
theorem InStep.idles_in_step (harrived : ms (tasks k).arrival ≤ s.now)
    (hempty : ∀ i, k ≤ i → ms (tasks i).arrival ≤ s.now → ms (tasks i).arrival ∈ skipped)
    {i : Fin N} (hki : k ≤ i) (htime : ms (tasks i).arrival = s.now + csOverhead) :
    ∃ w, Reaches (rrBody tq) w t ∧ InStep tasks pf k [] w := by
  have hlater : s.now < ms (tasks i).arrival := by
    rw [htime]
    exact lt_add_one s.now
  obtain ⟨j, v, w, -, hj, hfirst, hv, hw, -, -, hstep⟩ :=
    h.refills htasks horder htq hpf hk hempty hki hlater
  have hjtime : (pf k).firstStart = ms (tasks j).arrival := by
    have hle := hfirst i hki hlater
    rw [hpf.next last k k.isLt hk, ← h.now, max_eq_left harrived]
    simp only [ms, csOverhead] at htime hj ⊢
    omega
  exact ⟨w, (hreach.next hexit hv).next hexit hw, hstep hjtime⟩

end Agreement

/-- What is left of the table after the first tasks. -/
theorem mem_rest {m : Nat} {task : Task} :
    task ∈ (List.ofFn tasks).drop m ↔ ∃ i : Fin N, m ≤ i.val ∧ tasks i = task := by
  rw [List.mem_drop_iff_getElem]
  simp only [List.length_ofFn, List.getElem_ofFn]
  constructor
  · rintro ⟨i, hi, htask⟩
    exact ⟨⟨m + i, by omega⟩, Nat.le_add_right m i, htask⟩
  · rintro ⟨i, hi, htask⟩
    refine ⟨i.val - m, by omega, ?_⟩
    simpa only [Nat.add_sub_cancel' hi] using htask

theorem rest_cons {m : Nat} {task : Task} {rest : List Task}
    (h : (List.ofFn tasks).drop m = task :: rest) :
    ∃ k : Fin N, k.val = m ∧ tasks k = task ∧ (List.ofFn tasks).drop (k.val + 1) = rest := by
  have hm : m < (List.ofFn tasks).length := by
    by_contra hge
    rw [List.drop_of_length_le (not_lt.mp hge)] at h
    simp at h
  rw [List.drop_eq_getElem_cons hm] at h
  obtain ⟨htask, hrest⟩ := List.cons.inj h
  rw [List.length_ofFn] at hm
  refine ⟨⟨m, hm⟩, rfl, ?_, hrest⟩
  rw [← htask, List.getElem_ofFn]

/-- From a state in step, the times agree exactly if Round Robin keeps pace. -/
theorem InStep.sameTimes_iff (htasks : TasksOk tasks) (horder : InOrder tasks)
    (harrival : ∀ i, 0 ≤ (tasks i).arrival) (htq : ∀ i, (tasks i).burst ≤ tq)
    (hpf : FcfsTimes tasks N pf) (hexit : rrBody tq t = none) (rest : List Task) :
    ∀ {last : Fin N} {skipped : List Int} {s : RRState N},
      (List.ofFn tasks).drop (last.val + 1) = rest → InStep tasks pf last skipped s →
      Reaches (rrBody tq) s t → (SameTimes t.P pf ↔ KeepsPace s.now skipped rest) := by
  induction rest with
  | nil =>
      intro last skipped s hrest h hreach
      refine ⟨fun _ => trivial, fun _ i => ?_⟩
      have hi : i.val < last.val + 1 := by
        have hlen := List.drop_eq_nil_iff.mp hrest
        rw [List.length_ofFn] at hlen
        exact i.isLt.trans_le hlen
      rw [done_fixed hreach (h.queued.done i hi)]
      exact h.queued.times i hi
  | cons task rest ih =>
      intro last skipped s hrest h hreach
      obtain ⟨k, hk, rfl, hdrop⟩ := rest_cons hrest
      have hstart := hpf.next last k k.isLt hk
      rw [← h.now] at hstart
      rw [KeepsPace]
      by_cases harrived : ms (tasks k).arrival ≤ s.now
      · rw [max_eq_left harrived] at hstart
        have hend : s.now + (tasks k).cost = (pf k).finish := by
          rw [hpf.finish k k.isLt, hstart, Task.cost]
          omega
        rw [and_iff_right harrived, hend]
        split_ifs with hskip
        · -- the next task was skipped: only an empty queue brings it back in order
          by_cases hothers : ∀ other ∈ rest, ms other.arrival ≤ s.now → ms other.arrival ∈ skipped
          · have hempty : ∀ i, k ≤ i → ms (tasks i).arrival ≤ s.now →
                ms (tasks i).arrival ∈ skipped := by
              intro i hki hi
              rcases hki.eq_or_lt with rfl | hlt
              · exact hskip
              · exact hothers _ (hdrop ▸ mem_rest.mpr ⟨i, hlt, rfl⟩) hi
            rw [and_iff_right hothers]
            by_cases hnext : ∃ other ∈ rest, ms other.arrival = s.now + csOverhead
            · -- the refill happens just when FCFS starts it
              rw [and_iff_right hnext]
              obtain ⟨other, hother, htime⟩ := hnext
              obtain ⟨i, hi, rfl⟩ := mem_rest.mp (hdrop ▸ hother)
              obtain ⟨w, hw, hin⟩ := h.idles_in_step htasks horder htq hpf hexit hk hreach
                harrived hempty (Nat.le_of_succ_le hi) htime
              rw [← hin.now]
              exact ih hdrop hin hw
            · refine iff_of_false ?_ fun hpace => hnext hpace.1
              refine h.out_of_step htasks horder htq hpf hexit hk hreach harrival hempty ?_
              intro j hkj hj _ htime
              rcases hkj.eq_or_lt with rfl | hlt
              · exact absurd hj (not_lt.mpr harrived)
              · exact hnext ⟨tasks j, hdrop ▸ mem_rest.mpr ⟨j, hlt, rfl⟩, by rw [← htime, hstart]⟩
          · refine iff_of_false ?_ fun hpace => hothers hpace.1
            push Not at hothers
            obtain ⟨other, hother, hi, hnot⟩ := hothers
            obtain ⟨i, hki, rfl⟩ := mem_rest.mp (hdrop ▸ hother)
            exact h.overtaken htasks htq hpf hexit hk hreach harrived hskip
              (Nat.le_of_succ_le hki) hi hnot
        · obtain ⟨v, hv, hin⟩ := h.runs_next htasks horder htq hpf hk harrived hskip
          rw [← hin.now]
          exact ih hdrop hin (hreach.next hexit hv)
      · refine iff_of_false ?_ fun hpace => harrived hpace.1
        exact h.idles htasks horder htq hpf hexit hk hreach harrival (not_le.mp harrived)

/-! ## The first task -/

/-- The clock starts at the arrival of the first task of the table. -/
theorem rrStart_inOrder (horder : InOrder tasks) (harrival : ∀ i, 0 ≤ (tasks i).arrival)
    (hk : k.val = 0) : rrStart (fun i => (tasks i).load) = ms (tasks k).arrival := by
  have hfirst : ∀ i, (tasks k).arrival ≤ (tasks i).arrival := fun i =>
    horder.arrival_le (by rw [Fin.le_def]; omega)
  have hpos := harrival k
  unfold rrStart
  cases hnx : nextArrivalAfter (fun i => (tasks i).load) (ms (-1)) with
  | none =>
      have hle : ms (tasks k).arrival ≤ ms (-1) := nextArrivalAfter_none hnx k rfl
      simp only [ms] at hle
      omega
  | some nx =>
      have hle : (tasks nx).arrival ≤ (tasks k).arrival :=
        nextArrivalAfter_le hnx rfl (by show ms (-1) < ms (tasks k).arrival; simp only [ms]; omega)
      have hge := hfirst nx
      show (if (tasks nx).arrival > 0 then 10 * (tasks nx).arrival else 0 : Int) = _
      simp only [ms]
      split_ifs <;> omega

theorem rrInit_queued (tasks : Fin N → Task) (pf : Fin N → Proc) :
    Queued tasks pf 0 [] (rrInit fun i => (tasks i).load) := by
  have hitems : (rrInit fun i => (tasks i).load).Q.items = (List.finRange N).filter fun i =>
      ms (tasks i).arrival ≤ rrStart fun i => (tasks i).load := by
    show (Queue.init.pushWhere _).items = _
    rw [Queue.items_pushWhere]
    rfl
  refine ⟨fun i hi => by omega, fun i hi => by omega, fun _ _ => rfl, fun _ => rfl, by simp, ?_, ?_⟩
  · rw [hitems]
    exact (List.pairwise_lt_finRange N).filter _
  · intro i
    rw [hitems, List.mem_filter]
    simp [rrInit]

/-- The first task runs without a switch, as in FCFS. -/
theorem rrInit_runs_first (htasks : TasksOk tasks) (horder : InOrder tasks)
    (harrival : ∀ i, 0 ≤ (tasks i).arrival) (htq : ∀ i, (tasks i).burst ≤ tq)
    (hpf : FcfsTimes tasks N pf) (hk : k.val = 0) :
    ∃ t, rrBody tq (rrInit fun i => (tasks i).load) = some t ∧ InStep tasks pf k [] t := by
  have hqueued := rrInit_queued tasks pf
  have hnow := rrStart_inOrder horder harrival hk
  obtain ⟨Q, hpop⟩ := hqueued.front hk ((hqueued.mem k).mpr ⟨hk.ge, hnow.ge, by simp⟩)
  have hstart : RRState.afterSwitch { rrInit (fun i => (tasks i).load) with Q := Q } k =
      ms (tasks k).arrival :=
    (RRState.afterSwitch_idle rfl k).trans hnow
  have hskipped : ∀ a, a ∉ ([] : List Int) ↔ a ∉ ([] : List Int) ∧
      ¬ ((rrInit fun i => (tasks i).load).now < a ∧
        a ≤ RRState.afterSwitch { rrInit (fun i => (tasks i).load) with Q := Q } k) := by
    intro a
    rw [hstart, ← hnow]
    simp only [List.not_mem_nil, not_false_eq_true, true_and, true_iff]
    exact fun hlt => absurd hlt.1 (not_lt.mpr hlt.2)
  obtain ⟨hnext, hend⟩ := hqueued.dispatch hk hpop horder (htq k) (htasks.burst_pos k)
    (hstart.trans (hpf.first k k.isLt hk).symm) (hpf.finish k k.isLt) (by simp) hskipped
  refine ⟨_, rrBody_run hpop rfl, ?_, hend, rfl⟩
  rwa [hk]

theorem rr_sameTimes_iff (htasks : TasksOk tasks) (horder : InOrder tasks)
    (harrival : ∀ i, 0 ≤ (tasks i).arrival) (htq : ∀ i, (tasks i).burst ≤ tq)
    (hpf : FcfsTimes tasks N pf) (hreach : Reaches (rrBody tq) (rrInit fun i => (tasks i).load) t)
    (hexit : rrBody tq t = none) : SameTimes t.P pf ↔ StaysInStep (List.ofFn tasks) := by
  cases hlist : List.ofFn tasks with
  | nil =>
      have hlen := congrArg List.length hlist
      rw [List.length_ofFn] at hlen
      refine ⟨fun _ => trivial, fun _ i => absurd i.isLt (by simp [hlen])⟩
  | cons first rest =>
      obtain ⟨k, hk, rfl, hrest⟩ := rest_cons (m := 0) hlist
      obtain ⟨v, hv, hin⟩ := rrInit_runs_first htasks horder harrival htq hpf hk
      have hagree := InStep.sameTimes_iff htasks horder harrival htq hpf hexit rest hrest hin
        (hreach.next hexit hv)
      rwa [hin.now, hpf.finish k k.isLt, hpf.first k k.isLt hk] at hagree

/-! ## The main result -/

/-- **Round Robin with a quantum no burst exceeds.** It gives every task the times
FCFS gives it exactly when it stays in step. -/
theorem rr_fcfs_agree_iff {tasks : List Task} (hne : tasks ≠ []) (htasks : TaskListOk tasks)
    (htq : ∀ task ∈ tasks, task.burst ≤ tq) :
    ∃ fuel t fuel' t', simulateRR tq fuel (fun i => (mainTable tasks i).load) = some t ∧
      simulateFCFS fuel' (fun i => (mainTable tasks i).load) = some t' ∧
      (SameTimes t.P t'.P ↔ StaysInStep (sortTasks tasks)) := by
  obtain ⟨first, hfirst⟩ := List.exists_mem_of_ne_nil tasks hne
  have hpos : 1 ≤ tq := (htasks.burst_pos first hfirst).trans (htq first hfirst)
  have horder := mainTable_inOrder htasks.pids
  have harrival : ∀ i, 0 ≤ (mainTable tasks i).arrival := fun i =>
    htasks.arrival_nonneg _ (mainTable_mem i)
  obtain ⟨fuel, t, hloop⟩ := rr_terminates htasks.mainTable.burst_pos hpos
  obtain ⟨fuel', t', hloop', htimes⟩ := fcfs_times htasks.mainTable harrival horder
  refine ⟨fuel, t, fuel', t', hloop, hloop', ?_⟩
  obtain ⟨hreach, hexit⟩ := loop_some hloop
  have hagree := rr_sameTimes_iff htasks.mainTable horder harrival
    (fun i => htq _ (mainTable_mem i)) htimes hreach hexit
  rwa [show List.ofFn (mainTable tasks) = sortTasks tasks from List.ofFn_get _] at hagree

/-- The task that comes first ends at 1 ms, the other arrives at 5 ms. -/
def gapList : List Task := [⟨1, 5, 1⟩, ⟨0, 0, 1⟩]

theorem rr_fcfs_agree_gap :
    ∃ fuel t fuel' t', simulateRR 1 fuel (fun i => (mainTable gapList i).load) = some t ∧
      simulateFCFS fuel' (fun i => (mainTable gapList i).load) = some t' ∧
      (SameTimes t.P t'.P ↔ StaysInStep (sortTasks gapList)) :=
  rr_fcfs_agree_iff (by decide) ⟨by decide, by decide, by decide, by decide⟩ (by decide)

/-- FCFS starts the second task at 5.1 ms, Round Robin at 5 ms. -/
theorem rr_fcfs_differ :
    ¬ ∃ fuel t fuel' t', simulateRR 1 fuel (fun i => (mainTable gapList i).load) = some t ∧
      simulateFCFS fuel' (fun i => (mainTable gapList i).load) = some t' ∧
      SameTimes t.P t'.P := by
  rintro ⟨fuel, t, fuel', t', hloop, hloop', hsame⟩
  have hrun : (simulateRR 1 4 fun i => (mainTable gapList i).load).map
      (fun s => (s.P ⟨1, by decide⟩).firstStart) = some 50 := by decide +kernel
  have hrun' : (simulateFCFS 3 fun i => (mainTable gapList i).load).map
      (fun s => (s.P ⟨1, by decide⟩).firstStart) = some 51 := by decide +kernel
  obtain ⟨u, hu, hstart⟩ := Option.map_eq_some_iff.mp hrun
  obtain ⟨u', hu', hstart'⟩ := Option.map_eq_some_iff.mp hrun'
  have hdiffer := (hsame ⟨1, by decide⟩).1
  rw [← loop_unique hloop hu, ← loop_unique hloop' hu', hstart, hstart'] at hdiffer
  exact absurd hdiffer (by decide)

end OsProjects.Sched
