import OsProjects.Sched.Clock
import OsProjects.Sched.Completion

/-!
# Fairness of Round Robin

No task is twice in the queue (`QueueInv`), although tasks are pushed at four
places: the initial fill, the arrivals of a slice, the refill after an idle
period and the slice's own task. The windows of the first three never overlap,
because a queued task has arrived (`arrived`) and a refill finds the queue empty.
That is so on any clock; the slices and their times are those of the exact one.

A task at some place of the queue is therefore served after those before it, and
none of them is served twice (`QueueInv.turn`).
-/

namespace OsProjects.Sched

open OsProjects.Lib.Loops

variable {N : Nat} {tq : Int} {tasks : Fin N → Task} {s t : RRState N} {k : Fin N}

/-! ## The queue -/

/-- The tasks that `enqueue_arrivals` pushes when `k` runs. -/
def RRState.arrivals (tq : Int) (s : RRState N) (k : Fin N) : List (Fin N) :=
  (List.finRange N).filter fun i =>
    !(s.P i).done && s.afterSwitch k < ms (s.P i).arrival &&
      ms (s.P i).arrival ≤ s.afterSwitch k + s.runFor tq k

theorem dispatch_items : (s.dispatch tq k).Q.items = s.Q.items ++ s.arrivals tq k ++
    if (s.P k).remain - s.runFor tq k ≤ 0 then [] else [k] := by
  show (if _ then _ else _ : Queue N).items = _
  split_ifs
  · rw [List.append_nil]
    exact Queue.items_pushWhere _ _
  · rw [Queue.items_push]
    exact congrArg (· ++ [k]) (Queue.items_pushWhere _ _)

theorem QueueInv.rrDispatch (htq : 1 ≤ tq) (h : QueueInv s.queueState) {Q : Queue N}
    (hpop : s.Q.pop = some (k, Q)) :
    QueueInv (RRState.dispatch tq { s with Q := Q } k).queueState := by
  rw [← dispatch_queueState]
  exact h.dispatch hpop htq

/-! ## Slices -/

/-- A task has the CPU from `start` to `stop`. -/
structure Slice (N : Nat) where
  task : Fin N
  start : Int
  stop : Int
  deriving Repr, DecidableEq

/-- The slice of the iteration from `s`; none when it idles or passes over a
finished task. -/
def RRState.slice (tq : Int) (s : RRState N) : Option (Slice N) :=
  match s.Q.pop with
  | none => none
  | some (k, _) =>
      if (s.P k).done then none
      else some ⟨k, s.afterSwitch k, s.afterSwitch k + s.runFor tq k⟩

/-- The slices of the first `n` iterations of `simulate_RR`, in order. -/
def slicesRR (tq : Int) (n : Nat) (P : Fin N → Proc) : List (Slice N) :=
  trace (rrBody tq) (RRState.slice tq) n (rrInit P)

theorem RRState.slice_some {a : Slice N} (h : s.slice tq = some a) :
    ∃ Q, s.Q.pop = some (a.task, Q) ∧ (s.P a.task).done = false ∧
      a.start = s.afterSwitch a.task ∧ a.stop = s.afterSwitch a.task + s.runFor tq a.task := by
  unfold slice at h
  split at h
  · simp at h
  · next k Q hpop =>
      split_ifs at h with hdone
      obtain rfl := Option.some.inj h
      exact ⟨Q, hpop, by simpa using hdone, rfl, rfl⟩

theorem RRState.slice_of_pop {Q : Queue N} (hpop : s.Q.pop = some (k, Q))
    (hundone : (s.P k).done = false) :
    s.slice tq = some ⟨k, s.afterSwitch k, s.afterSwitch k + s.runFor tq k⟩ := by
  unfold slice
  rw [hpop]
  show (if (s.P k).done then none else _) = _
  rw [if_neg (by simp [hundone])]

theorem RRState.runFor_le_quantum (tq : Int) (s : RRState N) (k : Fin N) : s.runFor tq k ≤ ms tq :=
  min_le_left _ _

/-- The front of the queue is served first. -/
theorem QueueInv.first_slice (h : QueueInv s.queueState) {rest : List (Fin N)}
    (hitems : s.Q.items = k :: rest) {n : Nat}
    (htrace : trace (rrBody tq) (RRState.slice tq) n s ≠ []) :
    ∃ Q m, s.Q.pop = some (k, Q) ∧ Q.items = rest ∧
      trace (rrBody tq) (RRState.slice tq) n s =
        ⟨k, s.afterSwitch k, s.afterSwitch k + s.runFor tq k⟩ ::
          trace (rrBody tq) (RRState.slice tq) m (RRState.dispatch tq { s with Q := Q } k) := by
  obtain ⟨Q, hpop, hrest⟩ := Queue.pop_of_items hitems
  have hundone := h.undone k (hitems ▸ List.mem_cons_self)
  cases n with
  | zero => exact absurd rfl htrace
  | succ m =>
      refine ⟨Q, m, hpop, hrest, ?_⟩
      rw [trace_step (rrBody_run hpop hundone), RRState.slice_of_pop hpop hundone]
      rfl

/-- **A turn.** A task in the queue gets its next slice after one slice for each
task before it. -/
theorem QueueInv.turn (htq : 1 ≤ tq) (h : QueueInv s.queueState) {front back : List (Fin N)}
    {mid after : List (Slice N)} {b : Slice N} {n : Nat}
    (hitems : s.Q.items = front ++ b.task :: back)
    (htrace : trace (rrBody tq) (RRState.slice tq) n s = mid ++ b :: after)
    (hmid : ∀ c ∈ mid, c.task ≠ b.task) :
    mid.map Slice.task = front ∧
      b.start ≤ s.now + front.length * (ms tq + csOverhead) + csOverhead := by
  -- every slice takes the first of `front` away
  induction front generalizing s back mid n with
  | nil =>
      obtain ⟨Q, m, -, -, hfirst⟩ := h.first_slice hitems (by rw [htrace]; simp)
      rw [hfirst] at htrace
      cases mid with
      | nil =>
          obtain ⟨hb, -⟩ := List.cons.inj htrace
          have hswitch := s.afterSwitch_le b.task
          refine ⟨rfl, ?_⟩
          rw [← hb]
          simpa using hswitch
      | cons c mid =>
          obtain ⟨hc, -⟩ := List.cons.inj htrace
          exact absurd (congrArg Slice.task hc).symm (hmid c List.mem_cons_self)
  | cons f front ih =>
      obtain ⟨Q, m, hpop, hrest, hfirst⟩ := h.first_slice hitems (by rw [htrace]; simp)
      rw [hfirst] at htrace
      cases mid with
      | nil =>
          -- `f` is not the task of `b`, which is behind it in the queue
          obtain ⟨hb, -⟩ := List.cons.inj htrace
          have hnodup : s.Q.items.Nodup := h.nodup
          rw [hitems, List.cons_append, List.nodup_cons] at hnodup
          apply absurd _ hnodup.1
          rw [← hb]
          simp
      | cons c mid =>
          obtain ⟨hc, htrace⟩ := List.cons.inj htrace
          have hqueue : (RRState.dispatch tq { s with Q := Q } f).Q.items = front ++ b.task ::
              (back ++ (RRState.arrivals tq { s with Q := Q } f ++
                if (s.P f).remain - s.runFor tq f ≤ 0 then [] else [f])) := by
            rw [dispatch_items, List.append_assoc]
            show Q.items ++ _ = _
            rw [hrest]
            exact List.append_assoc front (b.task :: back) _
          obtain ⟨htasks, hstart⟩ := ih (h.rrDispatch htq hpop) hqueue htrace
            fun d hd => hmid d (List.mem_cons_of_mem c hd)
          have hnow : (RRState.dispatch tq { s with Q := Q } f).now ≤
              s.now + (ms tq + csOverhead) := by
            have hswitch := s.afterSwitch_le f
            have hrun := s.runFor_le_quantum tq f
            show s.afterSwitch f + s.runFor tq f ≤ _
            omega
          refine ⟨?_, ?_⟩
          · rw [List.map_cons, ← hc, htasks]
          · rw [List.length_cons]
            push_cast
            linarith

/-- A task that has another slice was requeued after this one. -/
theorem QueueInv.requeued (h : QueueInv s.queueState) {Q : Queue N} (hpop : s.Q.pop = some (k, Q))
    {n : Nat} {mid after : List (Slice N)} {b : Slice N} (hb : b.task = k)
    (htrace : trace (rrBody tq) (RRState.slice tq) n (RRState.dispatch tq { s with Q := Q } k) =
      mid ++ b :: after) :
    ¬ (s.P k).remain - RRState.runFor tq { s with Q := Q } k ≤ 0 := by
  intro hfinished
  have hundone : (s.P k).done = false := h.popped_undone hpop
  have hdone : ((RRState.dispatch tq { s with Q := Q } k).P k).done = true :=
    (dispatch_done_iff (s := { s with Q := Q }) hundone).mpr hfinished
  obtain ⟨v, w, -, hv, hslice, -⟩ := trace_split htrace
  obtain ⟨-, -, hundonev, -⟩ := RRState.slice_some hslice
  rw [hb, done_fixed hv hdone, hdone] at hundonev
  simp at hundonev

/-- **Round Robin is fair.** No task is ever twice in the queue. Between two
consecutive slices of a task every other task has at most one, and the time
between them is bounded by a quantum and a switch for each. -/
theorem rr_fair (tasks : Fin N → Task) (hburst : ∀ i, 1 ≤ (tasks i).burst) (htq : 1 ≤ tq) :
    (∀ s, Reaches (rrBody tq) (rrInit fun i => (tasks i).load) s → s.Q.items.Nodup) ∧
    ∀ n before a mid b after,
      slicesRR tq n (fun i => (tasks i).load) = before ++ a :: (mid ++ b :: after) →
      b.task = a.task → (∀ c ∈ mid, c.task ≠ a.task) →
      (mid.map Slice.task).Nodup ∧
        b.start - a.stop ≤ (N - 1) * (ms tq + csOverhead) + csOverhead := by
  refine ⟨fun s hreach => (queueInv_of_reaches hburst htq (reaches_queueState hreach)).nodup, ?_⟩
  intro n before a mid b after hslices hsame hmid
  obtain ⟨s, t, m, hreach, hslice, hbody, htrace⟩ := trace_split hslices
  have hinv := queueInv_of_reaches hburst htq (reaches_queueState hreach)
  obtain ⟨Q, hpop, hundone, -, hstop⟩ := RRState.slice_some hslice
  obtain rfl := Option.some.inj (hbody.symm.trans (rrBody_run hpop hundone))
  have hleft := hinv.requeued hpop hsame htrace
  -- the task of the slice is now the last in the queue
  have hqueue : (RRState.dispatch tq { s with Q := Q } a.task).Q.items =
      (Q.items ++ RRState.arrivals tq { s with Q := Q } a.task) ++ b.task :: [] := by
    rw [dispatch_items, if_neg hleft, hsame]
  have hnext := hinv.rrDispatch htq hpop
  obtain ⟨hturn, hstart⟩ := hnext.turn htq hqueue htrace fun c hc => hsame ▸ hmid c hc
  have hnodup : (RRState.dispatch tq { s with Q := Q } a.task).Q.items.Nodup := hnext.nodup
  rw [hqueue] at hnodup
  have hlength : (Q.items ++ RRState.arrivals tq { s with Q := Q } a.task).length + 1 ≤ N := by
    have hcard := hnodup.length_le_card
    rwa [List.length_append, List.length_singleton, Fintype.card_fin] at hcard
  refine ⟨hturn ▸ (List.nodup_append.mp hnodup).1, ?_⟩
  have hnow : (RRState.dispatch tq { s with Q := Q } a.task).now = a.stop := hstop.symm
  have hquantum : 0 ≤ ms tq + csOverhead := by
    simp only [ms, csOverhead]
    omega
  have hbound : ((Q.items ++ RRState.arrivals tq { s with Q := Q } a.task).length : Int) *
      (ms tq + csOverhead) ≤ (N - 1) * (ms tq + csOverhead) := by
    refine mul_le_mul_of_nonneg_right ?_ hquantum
    omega
  rw [hnow] at hstart
  linarith

/-- Three tasks, a quantum of 2 ms: the first waits for the other two. -/
theorem rr_fair_three :
    (slicesRR 2 4 (fun i => (![⟨0, 0, 4⟩, ⟨1, 0, 9⟩, ⟨2, 1, 9⟩] i : Task).load) =
      [] ++ ⟨0, 0, 20⟩ :: ([⟨1, 21, 41⟩, ⟨2, 42, 62⟩] ++ ⟨0, 63, 83⟩ :: [])) ∧
    ([⟨1, 21, 41⟩, ⟨2, 42, 62⟩].map (Slice.task (N := 3))).Nodup ∧
    (63 : Int) - 20 ≤ (3 - 1) * (ms 2 + csOverhead) + csOverhead := by
  have hslices : slicesRR 2 4 (fun i => (![⟨0, 0, 4⟩, ⟨1, 0, 9⟩, ⟨2, 1, 9⟩] i : Task).load) =
      [] ++ ⟨0, 0, 20⟩ :: ([⟨1, 21, 41⟩, ⟨2, 42, 62⟩] ++ ⟨0, 63, 83⟩ :: []) := by decide +kernel
  exact ⟨hslices, (rr_fair ![⟨0, 0, 4⟩, ⟨1, 0, 9⟩, ⟨2, 1, 9⟩] (by decide) (by decide)).2
    4 _ _ _ _ _ hslices rfl (by decide)⟩

end OsProjects.Sched
