import OsProjects.Lib.Select
import OsProjects.Sched.Model

/-!
# FCFS, SJF and SRTF

The other three simulators of `cpu_scheduler.c`. Their loops begin alike: wait
until a task is ready, pick one, charge the context switch. FCFS and SJF then
run the task to its end and differ in the pick only; SRTF runs it to the next
arrival at most.
-/

namespace OsProjects.Sched

open OsProjects.Lib.Loops OsProjects.Lib.Select

/-! ## Selection -/

/-- The comparison of `pick_FCFS`: earlier arrival, then smaller pid. -/
def Proc.beforeFCFS (p q : Proc) : Bool :=
  p.arrival < q.arrival || (p.arrival == q.arrival && p.pid < q.pid)

/-- The comparison of `pick_SJF`: shorter burst, then as FCFS. -/
def Proc.beforeSJF (p q : Proc) : Bool :=
  p.burst < q.burst || (p.burst == q.burst && p.beforeFCFS q)

/-- The comparison of `pick_SRTF`: less remaining time, then as FCFS. -/
def Proc.beforeSRTF (p q : Proc) : Bool :=
  p.remain < q.remain || (p.remain == q.remain && p.beforeFCFS q)

section Selection

variable {N : Nat} (P : Fin N → Proc) (now : Int)

/-- Unfinished and arrived. -/
def ready (i : Fin N) : Bool := !(P i).done && ms (P i).arrival ≤ now

/-- `any_ready` -/
def anyReady : Bool := (List.finRange N).any (ready P now)

/-- The loop of the three `pick_*`; `none` is `-1`. -/
def pickBy (before : Proc → Proc → Bool) : Option (Fin N) :=
  select (ready P now) (fun i j => before (P i) (P j)) (List.finRange N)

/-- `pick_FCFS` -/
def pickFCFS : Option (Fin N) := pickBy P now Proc.beforeFCFS

/-- `pick_SJF` -/
def pickSJF : Option (Fin N) := pickBy P now Proc.beforeSJF

/-- `pick_SRTF` -/
def pickSRTF : Option (Fin N) := pickBy P now Proc.beforeSRTF

end Selection

/-! ## The loops -/

/-- The locals of the three simulators, the process table and the segments.
`prev` is `prev_pid`, in SRTF `running_pid`. -/
structure SimState (N : Nat) where
  now : Int
  prev : Int
  P : Fin N → Proc
  segs : List Segment

namespace SimState

variable {N : Nat} (s : SimState N)

/-- Step 1: if nothing is ready, idle until the task `nx` arrives; `none` is the
`break` for `nx < 0`. -/
def awaitReady : Option (SimState N) :=
  if anyReady s.P s.now then some s
  else
    (nextArrivalAfter s.P s.now).map fun nx =>
      { s with
        now := ms (s.P nx).arrival
        segs := addSeg s.segs s.now (ms (s.P nx).arrival) pidIdle }

/-- Step 3: the context switch to `k`, charged when another task ran last. -/
def switchTo (k : Fin N) : SimState N :=
  if s.prev ≠ (s.P k).pid ∧ s.prev ≠ pidIdle then
    { s with
      now := s.now + csOverhead
      segs := addSeg s.segs s.now (s.now + csOverhead) pidCs }
  else s

/-- Steps 4 to 6 of FCFS and SJF: `k` runs until completion. -/
def complete (k : Fin N) : SimState N :=
  let p := (s.P k).start s.now
  let now := s.now + p.remain
  { now
    prev := p.pid
    P := Function.update s.P k { p with remain := 0, done := true, finish := now }
    segs := addSeg s.segs s.now now p.pid }

/-- An iteration of FCFS and SJF from step 3 on. -/
def runToEnd (k : Fin N) : SimState N := (s.switchTo k).complete k

/-- Step 3 of SRTF: the switch to `k`; only there the first start is recorded. -/
def preempt (k : Fin N) : SimState N :=
  if s.prev ≠ (s.P k).pid then
    { s.switchTo k with P := Function.update s.P k ((s.P k).start (s.switchTo k).now) }
  else s

/-- Step 4 of SRTF: `k` finishes, or another task arrives. -/
def nextEvent (k : Fin N) : Int :=
  match nextArrivalAfter s.P s.now with
  | none => s.now + (s.P k).remain
  | some nx => min (s.now + (s.P k).remain) (ms (s.P nx).arrival)

/-- Steps 5 and 6 of SRTF: `k` runs until the next event. -/
def runUntil (k : Fin N) (event : Int) : SimState N :=
  let p := (s.P k).ran (event - s.now) event
  { now := event
    prev := if p.done then pidIdle else p.pid
    P := Function.update s.P k p
    segs := addSeg s.segs s.now event p.pid }

/-- An iteration of SRTF from step 3 on. -/
def runToEvent (k : Fin N) : SimState N :=
  (s.preempt k).runUntil k ((s.preempt k).nextEvent k)

end SimState

section Simulators

variable {N : Nat}

/-- One iteration of the loop of the three simulators. `none` leaves the loop: all
tasks are done, no task is still to come, or, where the source would go on with
`P[-1]`, none was picked. -/
def simBody (pick : (Fin N → Proc) → Int → Option (Fin N))
    (run : SimState N → Fin N → SimState N) (s : SimState N) : Option (SimState N) :=
  if allDone s.P then none
  else s.awaitReady.bind fun s => (pick s.P s.now).map (run s)

def fcfsBody : SimState N → Option (SimState N) := simBody pickFCFS SimState.runToEnd

def sjfBody : SimState N → Option (SimState N) := simBody pickSJF SimState.runToEnd

def srtfBody : SimState N → Option (SimState N) := simBody pickSRTF SimState.runToEvent

/-- The three simulators before their loops. -/
def simInit (P : Fin N → Proc) : SimState N := ⟨0, pidIdle, P, []⟩

/-- `simulate_FCFS`: the state in which the loop is left, if it takes less than
`fuel` iterations. -/
def simulateFCFS (fuel : Nat) (P : Fin N → Proc) : Option (SimState N) :=
  loop fcfsBody fuel (simInit P)

/-- `simulate_SJF` -/
def simulateSJF (fuel : Nat) (P : Fin N → Proc) : Option (SimState N) :=
  loop sjfBody fuel (simInit P)

/-- `simulate_SRTF` -/
def simulateSRTF (fuel : Nat) (P : Fin N → Proc) : Option (SimState N) :=
  loop srtfBody fuel (simInit P)

end Simulators

end OsProjects.Sched
