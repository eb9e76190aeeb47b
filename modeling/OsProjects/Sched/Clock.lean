import OsProjects.Lib.Nearest
import OsProjects.Sched.RoundRobin

/-!
# Round Robin on any clock

The part of `simulate_RR` that decides what gets into its queue, for any way of computing
the time `now`. In the source that is a `double`, which is rounded whenever 0.1 ms or a
slice is added to it; in `Sched.Model` it is exact. Both are a `Clock`, and on the exact
one the loop is that of `Sched.Model` (`queueBody_queueState`).

A `Clock` has one comparison, `arrival <= now + 1e-9`: the two others, in
`enqueue_arrivals` and in `next_arrival_after`, are its negation. The remaining time of a
task is a whole number of milliseconds, which a `double` represents exactly, so it is an
integer here too, in tenths as in `Sched.Model`.
-/

namespace OsProjects.Sched

open OsProjects.Lib.Loops OsProjects.Lib.Nearest

/-! ## Clocks -/

/-- A clock that does not run backwards, on which what has arrived stays arrived. -/
structure Clock where
  Time : Type
  [order : Preorder Time]
  /-- A whole number of milliseconds. -/
  ofMs : Int → Time
  /-- `now + run_for`, for a slice in tenths of a millisecond. -/
  run : Time → Int → Time
  /-- `now + CS_OVERHEAD` -/
  switch : Time → Time
  /-- `arrival <= now + 1e-9` -/
  arrived : Time → Int → Bool
  le_run : ∀ now slice, 0 ≤ slice → now ≤ run now slice
  le_switch : ∀ now, now ≤ switch now
  arrived_mono : ∀ now later arrival, now ≤ later → arrived now arrival = true →
    arrived later arrival = true
  arrived_ofMs : ∀ arrival, arrived (ofMs arrival) arrival = true

attribute [instance] Clock.order

/-- Tenths of a millisecond, without rounding. -/
def Clock.exact : Clock where
  Time := Int
  order := Int.instLinearOrder.toPreorder
  ofMs := ms
  run now slice := now + slice
  switch now := now + csOverhead
  arrived now arrival := ms arrival ≤ now
  le_run now slice h := by omega
  le_switch now := by
    unfold csOverhead
    omega
  arrived_mono now later arrival hle harrived := by
    simp only [decide_eq_true_eq] at harrived ⊢
    exact harrived.trans hle
  arrived_ofMs arrival := decide_eq_true le_rfl

/-- Milliseconds that are rounded after each operation, as a `double` is. The constants
`0.1` and `1e-9` and the conversion of an `int` are rounded too. -/
def Clock.rounded (ρ : Rounding ℚ) : Clock where
  Time := ρ.representable
  ofMs n := ⟨ρ.round n, ρ.round_mem n⟩
  run now slice := ⟨ρ.round (now + slice / 10), ρ.round_mem _⟩
  switch now := ⟨ρ.round (now + ρ.round (1 / 10)), ρ.round_mem _⟩
  arrived now arrival := ρ.round arrival ≤ ρ.round (now + ρ.round (1 / 10 ^ 9))
  le_run now slice h := by
    have hslice : (0 : ℚ) ≤ slice := by exact_mod_cast h
    exact ρ.le_round_add now.2 (by positivity)
  le_switch now := ρ.le_round_add now.2 (ρ.round_nonneg (by norm_num))
  arrived_mono now later arrival hle harrived := by
    simp only [decide_eq_true_eq] at harrived ⊢
    have hnow : (now : ℚ) ≤ later := hle
    exact harrived.trans (ρ.round_mono (by linarith))
  arrived_ofMs arrival :=
    decide_eq_true (ρ.le_round_add (ρ.round_mem _) (ρ.round_nonneg (by positivity)))

/-! ## The loop -/

/-- What of a process decides about the queue. -/
structure Job where
  pid : Int
  arrival : Int
  remain : Int
  done : Bool
  deriving Repr, DecidableEq

def Task.job (task : Task) : Job := ⟨task.pid, task.arrival, ms task.burst, false⟩

/-- Steps 7 and 8: the task has run for `runFor`. -/
def Job.ran (job : Job) (runFor : Int) : Job :=
  if job.remain - runFor ≤ 0 then { job with remain := 0, done := true }
  else { job with remain := job.remain - runFor }

section Loop

variable {C : Clock} {N : Nat}

/-- `next_arrival_after`; `none` is `-1`. -/
def nextArrivalOn (P : Fin N → Job) (now : C.Time) : Option (Fin N) :=
  (List.finRange N).foldl (fun found i =>
    if (P i).done = false ∧ C.arrived now (P i).arrival = false then
      match found with
      | none => some i
      | some j => if (P i).arrival < (P j).arrival then some i else some j
    else found) none

/-- The clock, the queue, `prev` and the process table of `simulate_RR`. -/
structure QueueState (C : Clock) (N : Nat) where
  now : C.Time
  Q : Queue N
  prev : Int
  P : Fin N → Job

namespace QueueState

variable (tq : Int) (s : QueueState C N) (k : Fin N)

/-- Step 5: the time after the switch to `k`. -/
def afterSwitch : C.Time :=
  if s.prev != (s.P k).pid && s.prev != pidIdle then C.switch s.now else s.now

def runFor : Int := min (ms tq) (s.P k).remain

def endTime : C.Time := C.run (s.afterSwitch k) (s.runFor tq k)

/-- The tasks that `enqueue_arrivals` pushes while `k` runs. -/
def arrives (i : Fin N) : Bool :=
  !(s.P i).done && !C.arrived (s.afterSwitch k) (s.P i).arrival &&
    C.arrived (s.endTime tq k) (s.P i).arrival

/-- Steps 5 to 8: the popped task `k` runs for a quantum. -/
def dispatch : QueueState C N where
  now := s.endTime tq k
  Q :=
    if (s.P k).remain - s.runFor tq k ≤ 0 then s.Q.pushWhere (s.arrives tq k)
    else (s.Q.pushWhere (s.arrives tq k)).push k
  prev := (s.P k).pid
  P := Function.update s.P k ((s.P k).ran (s.runFor tq k))

/-- The tasks that step 3 pushes when the task `k` has arrived. -/
def refills (i : Fin N) : Bool :=
  !(s.P i).done && C.arrived (C.ofMs (s.P k).arrival) (s.P i).arrival

/-- Step 3: idle until the task `k` arrives. -/
def refill : QueueState C N where
  now := C.ofMs (s.P k).arrival
  Q := s.Q.pushWhere (s.refills k)
  prev := pidIdle
  P := s.P

end QueueState

/-- One iteration of `while (!all_done())`; `none` leaves the loop. -/
def queueBody (tq : Int) (s : QueueState C N) : Option (QueueState C N) :=
  if (List.finRange N).all fun i => (s.P i).done then none
  else
    match s.Q.pop with
    | none => (nextArrivalOn s.P s.now).map s.refill
    | some (k, Q) =>
        if (s.P k).done then some { s with Q }
        else some (QueueState.dispatch tq { s with Q } k)

/-- Step 1: the time of the first arrival. -/
def queueStart (C : Clock) (P : Fin N → Job) : C.Time :=
  match nextArrivalOn P (C.ofMs (-1)) with
  | some nx => if (P nx).arrival > 0 then C.ofMs (P nx).arrival else C.ofMs 0
  | none => C.ofMs 0

/-- `simulate_RR` before its loop. -/
def queueInit (C : Clock) (P : Fin N → Job) : QueueState C N where
  now := queueStart C P
  Q := Queue.init.pushWhere fun i => C.arrived (queueStart C P) (P i).arrival
  prev := pidIdle
  P := P

/-- What an iteration can do, as in `RRStep`. -/
inductive QueueStep (tq : Int) (s : QueueState C N) : QueueState C N → Prop
  | passOver {k Q} : s.Q.pop = some (k, Q) → (s.P k).done = true → QueueStep tq s { s with Q := Q }
  | run {k Q} : s.Q.pop = some (k, Q) → (s.P k).done = false →
      QueueStep tq s (QueueState.dispatch tq { s with Q := Q } k)
  | idle {j} : s.Q.pop = none → nextArrivalOn s.P s.now = some j → QueueStep tq s (s.refill j)

theorem queueBody_some {tq : Int} {s t : QueueState C N} (h : queueBody tq s = some t) :
    QueueStep tq s t := by
  unfold queueBody at h
  split at h
  · simp at h
  · split at h
    · next hpop =>
        obtain ⟨j, hj, rfl⟩ := Option.map_eq_some_iff.mp h
        exact .idle hpop hj
    · next k Q hpop =>
        split at h
        · next hdone => exact Option.some.inj h ▸ .passOver hpop hdone
        · next hdone => exact Option.some.inj h ▸ .run hpop (by simpa using hdone)

theorem queueBody_run {tq : Int} {s : QueueState C N} {k : Fin N} {Q : Queue N}
    (hpop : s.Q.pop = some (k, Q)) (hundone : (s.P k).done = false) :
    queueBody tq s = some (QueueState.dispatch tq { s with Q := Q } k) := by
  have hall : ¬ ((List.finRange N).all fun i => (s.P i).done) = true := by
    rw [List.all_eq_true]
    intro hall
    simp [hall k (List.mem_finRange k)] at hundone
  unfold queueBody
  rw [if_neg hall, hpop]
  show (if _ then _ else _) = _
  rw [if_neg (by simp [hundone])]

end Loop

/-! ## What is in the queue -/

section Queued

variable {C : Clock} {N : Nat} {tq : Int} {s t : QueueState C N} {k : Fin N} {Q : Queue N}

theorem Job.ran_remain {job : Job} {runFor : Int} (h : runFor ≤ job.remain) :
    (job.ran runFor).remain = job.remain - runFor := by
  unfold ran
  split_ifs with hend
  · show 0 = _
    omega
  · rfl

theorem Job.ran_done {job : Job} {runFor : Int} (h : job.done = false) :
    (job.ran runFor).done = decide (job.remain - runFor ≤ 0) := by
  unfold ran
  split_ifs with hend <;> simp [hend, h]

theorem Job.ran_arrival (job : Job) (runFor : Int) : (job.ran runFor).arrival = job.arrival := by
  unfold ran
  split_ifs <;> rfl

namespace QueueState

theorem dispatch_P_self : (s.dispatch tq k).P k = (s.P k).ran (s.runFor tq k) :=
  Function.update_self ..

theorem dispatch_P_of_ne {i : Fin N} (h : i ≠ k) : (s.dispatch tq k).P i = s.P i :=
  Function.update_of_ne h ..

theorem dispatch_remain_self :
    ((s.dispatch tq k).P k).remain = (s.P k).remain - s.runFor tq k := by
  rw [dispatch_P_self]
  exact Job.ran_remain (min_le_right _ _)

theorem dispatch_done_self (hundone : (s.P k).done = false) :
    ((s.dispatch tq k).P k).done = decide ((s.P k).remain - s.runFor tq k ≤ 0) := by
  rw [dispatch_P_self]
  exact Job.ran_done hundone

theorem dispatch_arrival (i : Fin N) : ((s.dispatch tq k).P i).arrival = (s.P i).arrival := by
  by_cases hi : i = k
  · rw [hi, dispatch_P_self]
    exact Job.ran_arrival _ _
  · rw [dispatch_P_of_ne hi]

theorem dispatch_items : (s.dispatch tq k).Q.items =
    s.Q.items ++ (List.finRange N).filter (s.arrives tq k) ++
      if (s.P k).remain - s.runFor tq k ≤ 0 then [] else [k] := by
  show (if _ then _ else _ : Queue N).items = _
  split_ifs
  · rw [List.append_nil]
    exact Queue.items_pushWhere _ _
  · rw [Queue.items_push, Queue.items_pushWhere]

theorem arrives_iff {i : Fin N} : s.arrives tq k i = true ↔ (s.P i).done = false ∧
    C.arrived (s.afterSwitch k) (s.P i).arrival = false ∧
      C.arrived (s.endTime tq k) (s.P i).arrival = true := by
  simp [arrives, and_assoc]

theorem now_le_afterSwitch (s : QueueState C N) (k : Fin N) : s.now ≤ s.afterSwitch k := by
  unfold afterSwitch
  split_ifs
  · exact C.le_switch s.now
  · exact le_rfl

theorem afterSwitch_le_endTime (htq : 1 ≤ tq) (hpos : 0 < (s.P k).remain) :
    s.afterSwitch k ≤ s.endTime tq k := by
  refine C.le_run _ _ (le_min ?_ hpos.le)
  unfold ms
  omega

end QueueState

/-- The tasks in the queue are distinct, unfinished and have arrived, and an unfinished
task has a part of its burst left. -/
structure QueueInv (s : QueueState C N) : Prop where
  nodup : s.Q.items.Nodup
  undone : ∀ i ∈ s.Q.items, (s.P i).done = false
  arrived : ∀ i ∈ s.Q.items, C.arrived s.now (s.P i).arrival = true
  remain_pos : ∀ i, (s.P i).done = false → 0 < (s.P i).remain

theorem queueInit_inv {tasks : Fin N → Task} (hburst : ∀ i, 1 ≤ (tasks i).burst) :
    QueueInv (queueInit C fun i => (tasks i).job) where
  nodup := by
    show (Queue.pushWhere _ _).items.Nodup
    rw [Queue.items_pushWhere]
    exact (List.nodup_finRange N).filter _
  undone _ _ := rfl
  arrived i hi := by
    rcases Queue.mem_items_pushWhere.mp hi with hi | hi
    · simp [Queue.items, Queue.init] at hi
    · exact hi
  remain_pos i _ := by
    have hpos := hburst i
    show 0 < ms (tasks i).burst
    unfold ms
    omega

section Slice

variable (h : QueueInv s) (hpop : s.Q.pop = some (k, Q))

include h

/-- What arrives during a slice was not in the queue. -/
theorem QueueInv.notMem_of_arrives {i : Fin N}
    (hi : QueueState.arrives tq { s with Q := Q } k i = true) : i ∉ s.Q.items := by
  intro hmem
  have hswitch := C.arrived_mono _ _ _ (s.now_le_afterSwitch k) (h.arrived i hmem)
  have hlater : C.arrived (s.afterSwitch k) (s.P i).arrival = false :=
    (QueueState.arrives_iff.mp hi).2.1
  simp [hlater] at hswitch

include hpop

theorem QueueInv.popped_undone : (s.P k).done = false :=
  h.undone k (Queue.pop_some hpop ▸ List.mem_cons_self)

theorem QueueInv.dispatch_nodup :
    (QueueState.dispatch tq { s with Q := Q } k).Q.items.Nodup := by
  have hitems := Queue.pop_some hpop
  have hnodup := h.nodup
  rw [hitems, List.nodup_cons] at hnodup
  have harrives : ∀ i ∈ (List.finRange N).filter (QueueState.arrives tq { s with Q := Q } k),
      i ∉ s.Q.items := fun i hi => h.notMem_of_arrives (List.mem_filter.mp hi).2
  rw [QueueState.dispatch_items, List.append_assoc]
  refine List.nodup_append.mpr ⟨hnodup.2, List.nodup_append.mpr ⟨?_, ?_, ?_⟩, ?_⟩
  · exact (List.nodup_finRange N).filter _
  · split_ifs <;> simp
  · rintro i hi j hj rfl
    split_ifs at hj
    · simp at hj
    · apply harrives i hi
      rw [List.mem_singleton.mp hj, hitems]
      exact List.mem_cons_self
  · rintro i hi j hj rfl
    rcases List.mem_append.mp hj with hj | hj
    · apply harrives i hj
      rw [hitems]
      exact List.mem_cons_of_mem k hi
    · split_ifs at hj
      · simp at hj
      · exact hnodup.1 (List.mem_singleton.mp hj ▸ hi)

/-- A task in the queue after a slice was there before, or has arrived during the slice,
or is the one that ran and is not finished. -/
theorem QueueInv.dispatch_mem {i : Fin N}
    (hi : i ∈ (QueueState.dispatch tq { s with Q := Q } k).Q.items) :
    (i ≠ k ∧ (i ∈ s.Q.items ∨ QueueState.arrives tq { s with Q := Q } k i = true)) ∨
      i = k ∧ ¬ (s.P k).remain - s.runFor tq k ≤ 0 := by
  have hitems := Queue.pop_some hpop
  have hnodup := h.nodup
  rw [hitems, List.nodup_cons] at hnodup
  rw [QueueState.dispatch_items, List.mem_append, List.mem_append, List.mem_filter] at hi
  rcases hi with (hold | ⟨-, hnew⟩) | hself
  · refine .inl ⟨fun heq => hnodup.1 (heq ▸ hold), .inl ?_⟩
    rw [hitems]
    exact List.mem_cons_of_mem k hold
  · refine .inl ⟨fun heq => h.notMem_of_arrives hnew ?_, .inr hnew⟩
    rw [hitems, heq]
    exact List.mem_cons_self
  · split_ifs at hself with hend
    · simp at hself
    · exact .inr ⟨List.mem_singleton.mp hself, hend⟩

/-- A slice keeps the invariant. -/
theorem QueueInv.dispatch (htq : 1 ≤ tq) :
    QueueInv (QueueState.dispatch tq { s with Q := Q } k) := by
  have hmem : k ∈ s.Q.items := Queue.pop_some hpop ▸ List.mem_cons_self
  have hundone := h.popped_undone hpop
  have hpos := h.remain_pos k hundone
  have hend : s.afterSwitch k ≤ s.endTime tq k := QueueState.afterSwitch_le_endTime htq hpos
  have hlater : ∀ i ∈ s.Q.items, C.arrived (s.endTime tq k) (s.P i).arrival = true :=
    fun i hi => C.arrived_mono _ _ _ ((s.now_le_afterSwitch k).trans hend) (h.arrived i hi)
  refine ⟨h.dispatch_nodup hpop, fun i hi => ?_, fun i hi => ?_, fun i hi => ?_⟩
  · rcases h.dispatch_mem hpop hi with ⟨hik, hi⟩ | ⟨rfl, hmore⟩
    · rw [QueueState.dispatch_P_of_ne hik]
      rcases hi with hi | hi
      · exact h.undone i hi
      · exact (QueueState.arrives_iff.mp hi).1
    · rw [QueueState.dispatch_done_self (s := { s with Q := Q }) hundone]
      exact decide_eq_false hmore
  · rw [QueueState.dispatch_arrival]
    rcases h.dispatch_mem hpop hi with ⟨-, hi | hi⟩ | ⟨rfl, -⟩
    · exact hlater i hi
    · exact (QueueState.arrives_iff.mp hi).2.2
    · exact hlater i hmem
  · by_cases hik : i = k
    · subst hik
      rw [QueueState.dispatch_done_self (s := { s with Q := Q }) hundone,
        decide_eq_false_iff_not] at hi
      rw [QueueState.dispatch_remain_self]
      exact not_le.mp hi
    · rw [QueueState.dispatch_P_of_ne hik] at hi ⊢
      exact h.remain_pos i hi

end Slice

theorem QueueInv.step (htq : 1 ≤ tq) (h : QueueInv s) (hstep : QueueStep tq s t) :
    QueueInv t := by
  cases hstep with
  | passOver hpop hdone => simp [h.popped_undone hpop] at hdone
  | run hpop _ => exact h.dispatch hpop htq
  | @idle j hpop _ =>
      have hitems : (s.refill j).Q.items = (List.finRange N).filter (s.refills j) := by
        have hpush := Queue.items_pushWhere s.Q (s.refills j)
        rwa [Queue.pop_none hpop, List.nil_append] at hpush
      have hmem : ∀ i ∈ (s.refill j).Q.items, (s.P i).done = false ∧
          C.arrived (C.ofMs (s.P j).arrival) (s.P i).arrival = true := by
        intro i hi
        rw [hitems] at hi
        simpa [QueueState.refills] using hi
      refine ⟨?_, fun i hi => (hmem i hi).1, fun i hi => (hmem i hi).2, h.remain_pos⟩
      rw [hitems]
      exact (List.nodup_finRange N).filter _

theorem queueInv_of_reaches {tasks : Fin N → Task} (hburst : ∀ i, 1 ≤ (tasks i).burst)
    (htq : 1 ≤ tq) (hreach : Reaches (queueBody tq) (queueInit C fun i => (tasks i).job) s) :
    QueueInv s :=
  hreach.inv QueueInv (fun _ _ h hbody => h.step htq (queueBody_some hbody))
    (queueInit_inv hburst)

end Queued

/-! ## The exact clock -/

section Exact

variable {N : Nat} {tq : Int}

def Proc.job (p : Proc) : Job := ⟨p.pid, p.arrival, p.remain, p.done⟩

def RRState.queueState (s : RRState N) : QueueState .exact N :=
  ⟨s.now, s.Q, s.prev, fun i => (s.P i).job⟩

theorem nextArrivalOn_exact (P : Fin N → Proc) (now : Int) :
    nextArrivalOn (C := .exact) (fun i => (P i).job) now = nextArrivalAfter P now := by
  unfold nextArrivalOn nextArrivalAfter
  congr 1
  funext found i
  unfold earlierArrival
  have hcond : ((P i).job.done = false ∧ Clock.exact.arrived now (P i).job.arrival = false) ↔
      (P i).done = false ∧ ms (P i).arrival > now := by
    simp [Clock.exact, Proc.job]
  rw [if_congr hcond rfl rfl]
  cases found <;> rfl

theorem Proc.job_ran_start (p : Proc) (now runFor endTime : Int) :
    ((p.start now).ran runFor endTime).job = p.job.ran runFor := by
  unfold Proc.start Proc.ran Job.ran Proc.job
  split_ifs <;> rfl

theorem dispatch_queueState (s : RRState N) (k : Fin N) :
    s.queueState.dispatch tq k = (s.dispatch tq k).queueState := by
  have harrives : s.queueState.arrives tq k = fun i => !(s.P i).done &&
      s.afterSwitch k < ms (s.P i).arrival &&
        ms (s.P i).arrival ≤ s.afterSwitch k + s.runFor tq k := by
    funext i
    show (!(s.P i).done && !decide (ms (s.P i).arrival ≤ s.afterSwitch k) &&
      decide (ms (s.P i).arrival ≤ s.afterSwitch k + s.runFor tq k)) = _
    simp only [← decide_not, not_le]
  have hP : (s.queueState.dispatch tq k).P = (s.dispatch tq k).queueState.P := by
    funext i
    show Function.update s.queueState.P k _ i = (Function.update s.P k _ i).job
    by_cases hi : i = k
    · rw [hi, Function.update_self, Function.update_self, Proc.job_ran_start]
      rfl
    · rw [Function.update_of_ne hi, Function.update_of_ne hi]
      rfl
  unfold QueueState.dispatch at hP ⊢
  rw [harrives]
  exact congrArg (QueueState.mk _ _ _) hP

/-- On the exact clock the queue is that of `simulateRR`. -/
theorem queueBody_queueState (s : RRState N) :
    queueBody tq s.queueState = (rrBody tq s).map RRState.queueState := by
  unfold queueBody rrBody
  show (if allDone s.P then none else _) = _
  split_ifs
  · rfl
  · show (match s.Q.pop with | none => _ | some (k, Q) => _) = _
    cases s.Q.pop with
    | none =>
        show (nextArrivalOn (C := .exact) (fun i => (s.P i).job) s.now).map _ = _
        rw [nextArrivalOn_exact, Option.map_map]
        rfl
    | some popped =>
        show (if (s.P popped.1).done then _ else _) = Option.map _ (if _ then _ else _)
        split_ifs
        · rfl
        · exact congrArg some (dispatch_queueState { s with Q := popped.2 } popped.1)

theorem queueInit_exact (tasks : Fin N → Task) :
    queueInit .exact (fun i => (tasks i).job) =
      (rrInit fun i => (tasks i).load).queueState := by
  have hstart : queueStart .exact (fun i => (tasks i).job) = rrStart fun i => (tasks i).load := by
    have hnext := nextArrivalOn_exact (fun i => (tasks i).load) (ms (-1))
    unfold queueStart rrStart
    rw [← hnext]
    rfl
  unfold queueInit
  rw [hstart]
  rfl

/-- A run of `simulateRR` is a run of its queue. -/
theorem reaches_queueState {tasks : Fin N → Task} {t : RRState N}
    (hreach : Reaches (rrBody tq) (rrInit fun i => (tasks i).load) t) :
    Reaches (queueBody tq) (queueInit .exact fun i => (tasks i).job) t.queueState := by
  rw [queueInit_exact]
  induction hreach with
  | refl => exact .refl _
  | tail _ hbody ih =>
      refine ih.tail ?_
      rw [queueBody_queueState, hbody]
      rfl

end Exact

end OsProjects.Sched
