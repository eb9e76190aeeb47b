import OsProjects.Sched.Clock
import OsProjects.Sched.Completion

/-!
# The array of the Round Robin queue

The queue of `simulate_RR` is called circular but is not: `q_push` writes at the
rear index and only ever increases it. The array has room for `MAX_TASKS` pushes
in a whole run, however few tasks are in the queue at a time.

A task is pushed at most once for every quantum its burst needs (`Task.turns`),
and exactly so often once it is done. So the pushes stay inside the array when
these numbers add up to at most `MAX_TASKS`, and a run that completes all tasks
keeps inside it only then. How `now` is rounded decides when a task is pushed but
not how often, so all of this holds on any clock.

The queue of the model goes on behind the end of the array. Its runs are those of
the source as long as no push is behind the end.
-/

namespace OsProjects.Sched

open OsProjects.Lib.Loops OsProjects.Lib.Nearest

variable {C : Clock} {N : Nat} {tq : Int} {tasks : Fin N → Task} {s t : QueueState C N}
  {k : Fin N}

/-- `MAX_TASKS`, the length of the queue's array. -/
def maxTasks : Nat := 1000

/-! ## Where the pushes write -/

namespace Queue

/-- The rear index at each `q_push` of `pushWhere`, for the rest of its loop. -/
def rearsFrom (cond : Fin N → Bool) : List (Fin N) → Queue N → List Nat
  | [], _ => []
  | i :: rest, Q =>
      if cond i then Q.q.length :: rearsFrom cond rest (Q.push i) else rearsFrom cond rest Q

/-- The rear index at each `q_push` of `pushWhere`. -/
def rearsWhere (Q : Queue N) (cond : Fin N → Bool) : List Nat :=
  rearsFrom cond (List.finRange N) Q

end Queue

/-- The rear index at each `q_push` of the initial fill. -/
def queueInitRears (C : Clock) (P : Fin N → Job) : List Nat :=
  Queue.init.rearsWhere fun i => C.arrived (queueStart C P) (P i).arrival

/-- The rear index at each `q_push` while `k` runs: the arrivals, then `k`. -/
def QueueState.dispatchRears (tq : Int) (s : QueueState C N) (k : Fin N) : List Nat :=
  s.Q.rearsWhere (s.arrives tq k) ++
    if (s.P k).remain - s.runFor tq k ≤ 0 then []
    else [(s.Q.pushWhere (s.arrives tq k)).q.length]

/-- The rear index at each `q_push` of one iteration of `simulate_RR`. -/
def queueRears (tq : Int) (s : QueueState C N) : List Nat :=
  if (List.finRange N).all fun i => (s.P i).done then []
  else
    match s.Q.pop with
    | none =>
        match nextArrivalOn s.P s.now with
        | none => []
        | some j => s.Q.rearsWhere (s.refills j)
    | some (k, Q) => if (s.P k).done then [] else QueueState.dispatchRears tq { s with Q } k

/-- At every `q_push` the rear index is inside the array. -/
def PushesInRange (C : Clock) (tq : Int) (tasks : Fin N → Task) : Prop :=
  (∀ r ∈ queueInitRears C fun i => (tasks i).job, r < maxTasks) ∧
    ∀ s, Reaches (queueBody tq) (queueInit C fun i => (tasks i).job) s →
      ∀ r ∈ queueRears tq s, r < maxTasks

/-- At every `q_pop`, which `q_empty` guards by `f ≠ r`, the front index is
before the rear index. -/
def PopsInRange (C : Clock) (tq : Int) (tasks : Fin N → Task) : Prop :=
  ∀ s, Reaches (queueBody tq) (queueInit C fun i => (tasks i).job) s →
    s.Q.f ≠ s.Q.q.length → s.Q.f < s.Q.q.length

namespace Queue

theorem length_push (Q : Queue N) (i : Fin N) : (Q.push i).q.length = Q.q.length + 1 := by
  simp [push]

theorem rear_eq (Q : Queue N) : Q.q.length = Q.f + Q.items.length := by
  have hle := Q.front_le
  unfold items
  rw [List.length_drop]
  omega

/-- The pushes write at the indices from the old rear to the new one. -/
theorem mem_rearsFrom (cond : Fin N → Bool) (rest : List (Fin N)) (Q : Queue N) {r : Nat} :
    (Q.q.length ≤ (rest.foldl (fun Q i => if cond i then Q.push i else Q) Q).q.length) ∧
      (r ∈ rearsFrom cond rest Q ↔ Q.q.length ≤ r ∧
        r < (rest.foldl (fun Q i => if cond i then Q.push i else Q) Q).q.length) := by
  induction rest generalizing Q with
  | nil =>
      refine ⟨le_rfl, ?_⟩
      simp only [rearsFrom, List.foldl_nil, List.not_mem_nil, false_iff]
      omega
  | cons i rest ih =>
      rw [List.foldl_cons, rearsFrom]
      by_cases hi : cond i
      · obtain ⟨hle, hmem⟩ := ih (Q.push i)
        rw [length_push] at hle hmem
        rw [if_pos hi, if_pos hi, List.mem_cons, hmem]
        exact ⟨by omega, by omega⟩
      · rw [if_neg hi, if_neg hi]
        exact ih Q

theorem mem_rearsWhere {Q : Queue N} {cond : Fin N → Bool} {r : Nat} :
    r ∈ Q.rearsWhere cond ↔ Q.q.length ≤ r ∧ r < (Q.pushWhere cond).q.length :=
  (mem_rearsFrom cond (List.finRange N) Q).2

theorem length_le_pushWhere (Q : Queue N) (cond : Fin N → Bool) :
    Q.q.length ≤ (Q.pushWhere cond).q.length :=
  (mem_rearsFrom cond (List.finRange N) Q (r := 0)).1

theorem pushWhere_f (Q : Queue N) (cond : Fin N → Bool) : (Q.pushWhere cond).f = Q.f := by
  unfold pushWhere
  generalize List.finRange N = rest
  induction rest generalizing Q with
  | nil => rfl
  | cons i rest ih =>
      rw [List.foldl_cons, ih]
      split_ifs <;> rfl

theorem pop_eq {Q Q' : Queue N} (h : Q.pop = some (k, Q')) : Q'.q = Q.q ∧ Q'.f = Q.f + 1 := by
  unfold pop at h
  split at h
  · obtain ⟨-, rfl⟩ := Prod.mk.inj (Option.some.inj h)
    exact ⟨rfl, rfl⟩
  · simp at h

end Queue

theorem QueueState.mem_dispatchRears {r : Nat} :
    r ∈ s.dispatchRears tq k ↔ s.Q.q.length ≤ r ∧ r < (s.dispatch tq k).Q.q.length := by
  have hle := s.Q.length_le_pushWhere (s.arrives tq k)
  show r ∈ _ ++ _ ↔ _ ∧ r < (if _ then _ else _ : Queue N).q.length
  rw [List.mem_append, Queue.mem_rearsWhere]
  split_ifs
  · simp
  · rw [Queue.length_push, List.mem_singleton]
    omega

/-- An iteration writes at the indices from the old rear to the new one. -/
theorem mem_queueRears (hbody : queueBody tq s = some t) {r : Nat} :
    r ∈ queueRears tq s ↔ s.Q.q.length ≤ r ∧ r < t.Q.q.length := by
  unfold queueBody at hbody
  unfold queueRears
  split_ifs at hbody ⊢
  cases hpop : s.Q.pop with
  | none =>
      rw [hpop] at hbody
      obtain ⟨j, hj, rfl⟩ := Option.map_eq_some_iff.mp hbody
      rw [hj]
      exact Queue.mem_rearsWhere
  | some popped =>
      obtain ⟨k, Q⟩ := popped
      rw [hpop] at hbody
      rw [← (Queue.pop_eq hpop).1]
      dsimp only at hbody ⊢
      split_ifs at hbody ⊢
      · rw [← Option.some.inj hbody]
        simp only [List.not_mem_nil, false_iff]
        omega
      · rw [← Option.some.inj hbody]
        exact QueueState.mem_dispatchRears

theorem queueRears_exit (hexit : queueBody tq s = none) : queueRears tq s = [] := by
  unfold queueBody at hexit
  unfold queueRears
  split_ifs at hexit ⊢
  · rfl
  · cases hpop : s.Q.pop with
    | none =>
        rw [hpop] at hexit
        rw [Option.map_eq_none_iff.mp hexit]
    | some popped =>
        rw [hpop] at hexit
        dsimp only at hexit
        split_ifs at hexit

/-- The pushes are inside the array when the rear index never leaves it. -/
theorem pushesInRange_iff : PushesInRange C tq tasks ↔
    ∀ t, Reaches (queueBody tq) (queueInit C fun i => (tasks i).job) t →
      t.Q.q.length ≤ maxTasks := by
  refine ⟨fun hrange t hreach => ?_, fun hrear => ⟨fun r hr => ?_, fun s hs r hr => ?_⟩⟩
  · -- the first rear beyond the array would have been reached by a push at its end
    induction hreach with
    | refl =>
        by_contra hover
        apply lt_irrefl maxTasks
        exact hrange.1 maxTasks (Queue.mem_rearsWhere.mpr ⟨Nat.zero_le _, not_le.mp hover⟩)
    | tail hs hbody ih =>
        by_contra hover
        apply lt_irrefl maxTasks
        exact hrange.2 _ hs maxTasks ((mem_queueRears hbody).mpr ⟨ih, not_le.mp hover⟩)
  · exact (Queue.mem_rearsWhere.mp hr).2.trans_le (hrear _ (.refl _))
  · cases hbody : queueBody tq s with
    | none => simp [queueRears_exit hbody] at hr
    | some u => exact ((mem_queueRears hbody).mp hr).2.trans_le (hrear u (hs.tail hbody))

/-! ## How often a task is pushed -/

/-- The number of quanta a burst needs, the last one perhaps not used up. -/
def Task.turns (tq : Int) (task : Task) : Int := (task.burst + tq - 1) / tq

/-- A task that is not finished after `n` turns needs another one. -/
theorem Task.lt_turns (htq : 1 ≤ tq) {task : Task} {n : Nat} (hmore : 0 < task.burst - n * tq) :
    n + 1 ≤ task.turns tq := by
  unfold turns
  apply Int.le_ediv_of_mul_le (by omega)
  linarith

/-- The task is finished in its turn number `n + 1`. -/
theorem Task.turns_eq (htq : 1 ≤ tq) {task : Task} {n : Nat} (hmore : 0 < task.burst - n * tq)
    (hlast : task.burst - n * tq ≤ tq) : task.turns tq = n + 1 := by
  refine le_antisymm ?_ (lt_turns htq hmore)
  unfold turns
  rw [← Int.lt_add_one_iff]
  apply Int.ediv_lt_of_lt_mul (by omega)
  linarith

/-- Each task has had `turns` slices, in all but the last of which it used its
whole quantum, and for each of them it was popped. -/
structure TurnsInv (tq : Int) (tasks : Fin N → Task) (turns : Fin N → Nat)
    (s : QueueState C N) : Prop where
  front : s.Q.f = ∑ i, turns i
  left : ∀ i, (s.P i).done = false → (s.P i).remain = ms (tasks i).burst - turns i * ms tq
  used : ∀ i, (s.P i).done = true → (tasks i).turns tq = turns i

theorem queueInit_turnsInv (C : Clock) (tq : Int) (tasks : Fin N → Task) :
    TurnsInv tq tasks 0 (queueInit C fun i => (tasks i).job) where
  front := by
    show (Queue.pushWhere _ _).f = _
    rw [Queue.pushWhere_f]
    simp [Queue.init]
  left i _ := by simp [queueInit, Task.job]
  used i hdone := by simp [queueInit, Task.job] at hdone

theorem QueueState.dispatch_f : (s.dispatch tq k).Q.f = s.Q.f := by
  show (if _ then _ else _ : Queue N).f = _
  split_ifs
  · exact Queue.pushWhere_f _ _
  · exact Queue.pushWhere_f s.Q _

theorem sum_update_succ (turns : Fin N → Nat) (k : Fin N) :
    ∑ i, Function.update turns k (turns k + 1) i = (∑ i, turns i) + 1 := by
  rw [Finset.sum_update_of_mem (Finset.mem_univ k), ← Finset.erase_eq,
    ← Finset.add_sum_erase _ turns (Finset.mem_univ k)]
  omega

section Slice

variable {turns : Fin N → Nat} {Q : Queue N}

/-- A task that is not finished by a slice has used its quantum. -/
theorem TurnsInv.left_of_ran (h : TurnsInv tq tasks turns s) (hundone : (s.P k).done = false)
    (hmore : ¬ (s.P k).remain - s.runFor tq k ≤ 0) :
    (s.P k).remain - s.runFor tq k = ms (tasks k).burst - (turns k + 1) * ms tq := by
  have hquantum : s.runFor tq k = ms tq := by
    unfold QueueState.runFor at hmore ⊢
    exact min_eq_left (by omega)
  rw [hquantum, h.left k hundone]
  ring

/-- A task that is finished by a slice has needed just this one more. -/
theorem TurnsInv.turns_of_ended (htq : 1 ≤ tq) (h : TurnsInv tq tasks turns s)
    (hundone : (s.P k).done = false) (hpos : 0 < (s.P k).remain)
    (hend : (s.P k).remain - s.runFor tq k ≤ 0) : (tasks k).turns tq = turns k + 1 := by
  have hlast : (s.P k).remain ≤ ms tq := by
    unfold QueueState.runFor at hend
    omega
  have hleft := h.left k hundone
  simp only [ms] at hleft hlast
  exact Task.turns_eq htq (by linarith) (by linarith)

/-- A slice is one more turn of the task that runs. -/
theorem TurnsInv.dispatch (htq : 1 ≤ tq) (h : TurnsInv tq tasks turns s) (hqueue : QueueInv s)
    (hpop : s.Q.pop = some (k, Q)) :
    TurnsInv tq tasks (Function.update turns k (turns k + 1))
      (QueueState.dispatch tq { s with Q := Q } k) := by
  have hundone := hqueue.popped_undone hpop
  have hdone : ((QueueState.dispatch tq { s with Q := Q } k).P k).done =
      decide ((s.P k).remain - s.runFor tq k ≤ 0) :=
    QueueState.dispatch_done_self (s := { s with Q := Q }) hundone
  refine ⟨?_, fun i hi => ?_, fun i hi => ?_⟩
  · rw [QueueState.dispatch_f]
    show Q.f = _
    rw [(Queue.pop_eq hpop).2, h.front, sum_update_succ]
  · by_cases hik : i = k
    · subst hik
      rw [QueueState.dispatch_remain_self, Function.update_self, Nat.cast_succ]
      exact h.left_of_ran hundone (decide_eq_false_iff_not.mp (hdone.symm.trans hi))
    · rw [QueueState.dispatch_P_of_ne hik] at hi ⊢
      rw [Function.update_of_ne hik]
      exact h.left i hi
  · by_cases hik : i = k
    · subst hik
      rw [Function.update_self, Nat.cast_succ]
      exact h.turns_of_ended htq hundone (hqueue.remain_pos i hundone)
        (of_decide_eq_true (hdone.symm.trans hi))
    · rw [QueueState.dispatch_P_of_ne hik] at hi
      rw [Function.update_of_ne hik]
      exact h.used i hi

end Slice

theorem TurnsInv.step (htq : 1 ≤ tq) {turns : Fin N → Nat} (h : TurnsInv tq tasks turns s)
    (hqueue : QueueInv s) (hstep : QueueStep tq s t) : ∃ turns', TurnsInv tq tasks turns' t := by
  cases hstep with
  | passOver hpop hdone => simp [hqueue.popped_undone hpop] at hdone
  | run hpop _ => exact ⟨_, h.dispatch htq hqueue hpop⟩
  | idle => exact ⟨turns, (Queue.pushWhere_f _ _).trans h.front, h.left, h.used⟩

theorem turnsInv_of_reaches (hburst : ∀ i, 1 ≤ (tasks i).burst) (htq : 1 ≤ tq)
    (hreach : Reaches (queueBody tq) (queueInit C fun i => (tasks i).job) t) :
    QueueInv t ∧ ∃ turns, TurnsInv tq tasks turns t :=
  hreach.inv (fun s => QueueInv s ∧ ∃ turns, TurnsInv tq tasks turns s)
    (fun s t h hbody => by
      obtain ⟨hqueue, turns, h⟩ := h
      exact ⟨hqueue.step htq (queueBody_some hbody), h.step htq hqueue (queueBody_some hbody)⟩)
    ⟨queueInit_inv hburst, 0, queueInit_turnsInv C tq tasks⟩

/-- A task in the queue has a turn to come, so its place there is one of its turns. -/
theorem TurnsInv.rear_le (htq : 1 ≤ tq) {turns : Fin N → Nat} (h : TurnsInv tq tasks turns s)
    (hqueue : QueueInv s) : (s.Q.q.length : Int) ≤ ∑ i, (tasks i).turns tq := by
  have hitems : (s.Q.items.length : Int) = ∑ i, if i ∈ s.Q.items then 1 else 0 := by
    rw [Finset.sum_boole, ← List.toFinset_card_of_nodup hqueue.nodup]
    congr 2
    ext i
    simp
  have hturns : ∀ i, (turns i : Int) + (if i ∈ s.Q.items then 1 else 0) ≤ (tasks i).turns tq := by
    intro i
    cases hdone : (s.P i).done with
    | true =>
        have hnot : i ∉ s.Q.items := fun hi => by simp [hqueue.undone i hi] at hdone
        rw [if_neg hnot, h.used i hdone, add_zero]
    | false =>
        have hpos := hqueue.remain_pos i hdone
        rw [h.left i hdone] at hpos
        have hmore : (turns i : Int) + 1 ≤ (tasks i).turns tq := by
          apply Task.lt_turns htq
          simp only [ms] at hpos
          linarith
        split_ifs <;> omega
  rw [Queue.rear_eq, h.front]
  push_cast
  rw [hitems, ← Finset.sum_add_distrib]
  exact Finset.sum_le_sum fun i _ => hturns i

/-- When all tasks are done, each has been pushed for all its turns. -/
theorem TurnsInv.turns_le_rear {turns : Fin N → Nat} (h : TurnsInv tq tasks turns s)
    (hall : ∀ i, (s.P i).done = true) : ∑ i, (tasks i).turns tq ≤ s.Q.q.length := by
  have hfront : (s.Q.f : Int) = ∑ i, (tasks i).turns tq := by
    rw [h.front]
    push_cast
    exact Finset.sum_congr rfl fun i _ => (h.used i (hall i)).symm
  rw [← hfront]
  exact_mod_cast s.Q.front_le

/-! ## The queue and its array -/

/-- **The queue's array.** The clock of `simulate_RR` may be rounded in any way. When the
tasks need at most `MAX_TASKS` quanta, every push is inside the array and no pop is from
an empty queue. A run that completes all tasks stays inside only then. -/
theorem rr_queue_in_range (ρ : Rounding ℚ) (tasks : Fin N → Task)
    (hburst : ∀ i, 1 ≤ (tasks i).burst) (htq : 1 ≤ tq) :
    (∑ i, (tasks i).turns tq ≤ maxTasks →
      PushesInRange (.rounded ρ) tq tasks ∧ PopsInRange (.rounded ρ) tq tasks) ∧
    ∀ t, Reaches (queueBody tq) (queueInit (.rounded ρ) fun i => (tasks i).job) t →
      (∀ i, (t.P i).done = true) → PushesInRange (.rounded ρ) tq tasks →
      ∑ i, (tasks i).turns tq ≤ maxTasks := by
  refine ⟨fun hroom => ⟨pushesInRange_iff.mpr fun t hreach => ?_, fun s _ hne => ?_⟩, ?_⟩
  · obtain ⟨hqueue, turns, h⟩ := turnsInv_of_reaches hburst htq hreach
    exact_mod_cast (h.rear_le htq hqueue).trans hroom
  · exact lt_of_le_of_ne s.Q.front_le hne
  · intro t hreach hall hrange
    obtain ⟨-, turns, h⟩ := turnsInv_of_reaches hburst htq hreach
    have hrear := pushesInRange_iff.mp hrange t hreach
    exact (h.turns_le_rear hall).trans (by exact_mod_cast hrear)

/-- To multiples of 2⁻¹⁰ ms, of which 0.1 ms is none. -/
def coarse : Rounding ℚ := gridRounding (1 / 2 ^ 10) (by norm_num)

theorem rr_queue_in_range_late :
    ∑ i, (lateTasks i).turns 1 ≤ maxTasks ∧
      PushesInRange (.rounded coarse) 1 lateTasks ∧ PopsInRange (.rounded coarse) 1 lateTasks :=
  ⟨by decide, (rr_queue_in_range coarse lateTasks (by decide) (by decide)).1 (by decide)⟩

/-- One task that needs 1001 quanta. -/
def longTask : Fin 1 → Task := ![⟨0, 0, 1001⟩]

theorem longTask_init (C : Clock) :
    (queueInit C fun i => (longTask i).job).Q.items = [0] ∧
      (queueInit C fun i => (longTask i).job).Q.f = 0 := by
  have hstart : queueStart C (fun i => (longTask i).job) = C.ofMs 0 := by
    unfold queueStart
    split
    · exact if_neg (by simp [longTask, Task.job])
    · rfl
  have harrived : C.arrived (queueStart C fun i => (longTask i).job) (longTask 0).job.arrival =
      true := by
    rw [hstart]
    exact C.arrived_ofMs 0
  refine ⟨?_, Queue.pushWhere_f _ _⟩
  refine (Queue.items_pushWhere _ _).trans ?_
  simpa [Queue.items, Queue.init, List.finRange_succ] using harrived

/-- Up to its last quantum the task is pushed again after each. -/
theorem longTask_turn (C : Clock) {n : Nat} (hn : n ≤ 1000) :
    ∃ s, Reaches (queueBody 1) (queueInit C fun i => (longTask i).job) s ∧
      s.Q.items = [0] ∧ s.Q.f = n := by
  induction n with
  | zero => exact ⟨_, .refl _, longTask_init C⟩
  | succ n ih =>
      obtain ⟨s, hreach, hitems, hfront⟩ := ih (by omega)
      obtain ⟨hqueue, turns, h⟩ := turnsInv_of_reaches (by decide) (by decide) hreach
      obtain ⟨Q, hpop, hrest⟩ := Queue.pop_of_items hitems
      have hundone := hqueue.undone 0 (hitems ▸ List.mem_cons_self)
      have hturns : turns 0 = n := by
        rw [← hfront, h.front]
        simp
      have hremain : (s.P 0).remain = 10010 - n * 10 := by
        rw [h.left 0 hundone, hturns]
        rfl
      have hmore : ¬ (s.P 0).remain - s.runFor 1 0 ≤ 0 := by
        unfold QueueState.runFor ms
        omega
      have hnone : (List.finRange 1).filter (QueueState.arrives 1 { s with Q := Q } 0) = [] := by
        refine List.filter_eq_nil_iff.mpr fun i _ harrives => ?_
        apply hqueue.notMem_of_arrives harrives
        rw [hitems, Subsingleton.elim i 0]
        exact List.mem_cons_self
      refine ⟨_, hreach.tail (queueBody_run hpop hundone), ?_, ?_⟩
      · rw [QueueState.dispatch_items, hnone]
        show Q.items ++ [] ++ (if (s.P 0).remain - s.runFor 1 0 ≤ 0 then [] else [0]) = [0]
        rw [hrest, if_neg hmore]
        rfl
      · rw [QueueState.dispatch_f]
        show Q.f = _
        rw [(Queue.pop_eq hpop).2, hfront]

/-- The push after its 1000th quantum is behind the end of the array, however the clock
is rounded. -/
theorem rr_queue_overflows : ¬ ∃ ρ : Rounding ℚ, PushesInRange (.rounded ρ) 1 longTask := by
  rintro ⟨ρ, hrange⟩
  obtain ⟨s, hreach, hitems, hfront⟩ := longTask_turn (.rounded ρ) (n := 1000) le_rfl
  have hrear := pushesInRange_iff.mp hrange s hreach
  rw [Queue.rear_eq, hitems, hfront] at hrear
  exact absurd hrear (by decide)

/-! ## The exact clock -/

theorem RRState.rear_le_turns {t : RRState N} (hburst : ∀ i, 1 ≤ (tasks i).burst) (htq : 1 ≤ tq)
    (hreach : Reaches (rrBody tq) (rrInit fun i => (tasks i).load) t) :
    (t.Q.q.length : Int) ≤ ∑ i, (tasks i).turns tq := by
  obtain ⟨hqueue, turns, h⟩ := turnsInv_of_reaches hburst htq (reaches_queueState hreach)
  exact h.rear_le htq hqueue

end OsProjects.Sched
