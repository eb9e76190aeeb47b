import OsProjects.Sched.Completion
import OsProjects.Sched.Dispatch

/-!
# The segments tile the time line

Every interval the four simulators record starts at the current time, and the
clock then moves to its end. So the segments never leave a gap or overlap, and
two segments of one pid that meet are always merged.
-/

namespace OsProjects.Sched

open OsProjects.Lib.Loops

/-- The second segment starts where the first one ends, for another pid. -/
def Adjacent (seg seg' : Segment) : Prop := seg'.start = seg.stop ∧ seg'.pid ≠ seg.pid

/-- Where the last segment ends; 0 if there is none. -/
def endTime (segs : List Segment) : Int := (segs.getLast?.map Segment.stop).getD 0

/-- The segments tile the time line from 0 to `now`. -/
structure Tiles (segs : List Segment) (now : Int) : Prop where
  first : ∀ seg ∈ segs.head?, seg.start = 0
  proper : ∀ seg ∈ segs, seg.start < seg.stop
  adjacent : segs.IsChain Adjacent
  last : endTime segs = now

variable {segs front : List Segment} {last : Segment} {now stop pid : Int}

theorem tiles_nil : Tiles [] 0 := ⟨by simp, by simp, .nil, rfl⟩

theorem endTime_concat {seg : Segment} : endTime (segs ++ [seg]) = seg.stop := by
  simp [endTime]

/-- A proper segment for another pid goes behind the last one. -/
theorem Tiles.concat (h : Tiles segs now) (seg : Segment) (hstart : seg.start = now)
    (hproper : now < seg.stop) (hpid : ∀ last ∈ segs.getLast?, seg.pid ≠ last.pid) :
    Tiles (segs ++ [seg]) seg.stop where
  first x hx := by
    cases segs with
    | nil =>
        simp only [List.nil_append, List.head?_cons, Option.mem_some_iff] at hx
        rw [← hx, hstart]
        exact h.last.symm
    | cons y segs => exact h.first x hx
  proper x hx := by
    rcases List.mem_append.mp hx with hx | hx
    · exact h.proper x hx
    · rw [List.mem_singleton.mp hx, hstart]
      exact hproper
  adjacent := by
    refine List.isChain_append.mpr ⟨h.adjacent, .singleton seg, fun x hx y hy => ?_⟩
    obtain rfl : seg = y := by simpa using hy
    have hlast : endTime segs = x.stop := by
      rw [endTime, Option.mem_def.mp hx]
      rfl
    exact ⟨hstart.trans (h.last.symm.trans hlast), hpid x hx⟩
  last := endTime_concat

/-- The last segment is made longer. -/
theorem Tiles.extend (h : Tiles (front ++ [last]) now) (hle : now ≤ stop) :
    Tiles (front ++ [{ last with stop := stop }]) stop where
  first x hx := by
    cases front with
    | nil =>
        simp only [List.nil_append, List.head?_cons, Option.mem_some_iff] at hx
        rw [← hx]
        exact h.first last rfl
    | cons y front => exact h.first x hx
  proper x hx := by
    rcases List.mem_append.mp hx with hx | hx
    · exact h.proper x (List.mem_append_left _ hx)
    · have hproper := h.proper last (by simp)
      have hend := h.last
      rw [endTime_concat] at hend
      rw [List.mem_singleton.mp hx]
      show last.start < stop
      omega
  adjacent := by
    obtain ⟨hfront, -, hlast⟩ := List.isChain_append.mp h.adjacent
    refine List.isChain_append.mpr ⟨hfront, .singleton _, fun x hx y hy => ?_⟩
    obtain rfl : { last with stop := stop } = y := by simpa using hy
    exact hlast x hx last rfl
  last := endTime_concat

/-- Recording the interval from the current time on keeps the tiling. -/
theorem Tiles.addSeg (h : Tiles segs now) (hle : now ≤ stop) (pid : Int) :
    Tiles (addSeg segs now stop pid) stop := by
  rcases hle.eq_or_lt with rfl | hlt
  · rw [addSeg_of_le le_rfl]
    exact h
  rcases List.eq_nil_or_concat' segs with rfl | ⟨front, last, rfl⟩
  · rw [addSeg_nil hlt]
    exact h.concat ⟨now, stop, pid⟩ rfl hlt (by simp)
  · have hend := h.last
    rw [endTime_concat] at hend
    rw [addSeg_concat hlt]
    split_ifs with hmerge
    · exact h.extend hle
    · refine h.concat ⟨now, stop, pid⟩ rfl hlt fun x hx heq => hmerge ⟨hend, ?_⟩
      obtain rfl : last = x := by simpa using hx
      exact heq.symm

/-! ## From the first segment on -/

/-- The segments tile the time from `a` to `b`. -/
inductive TilesFrom : Int → List Segment → Int → Prop
  | nil (a : Int) : TilesFrom a [] a
  | cons {b : Int} {seg : Segment} {rest : List Segment} : seg.start ≤ seg.stop →
      TilesFrom seg.stop rest b → TilesFrom seg.start (seg :: rest) b

theorem TilesFrom.le {a b : Int} (h : TilesFrom a segs b) : a ≤ b := by
  induction h with
  | nil => exact le_rfl
  | cons hproper _ ih => exact hproper.trans ih

theorem TilesFrom.stop_le {a b : Int} (h : TilesFrom a segs b) : ∀ seg ∈ segs, seg.stop ≤ b := by
  induction h with
  | nil => simp
  | cons _ hrest ih =>
      intro x hx
      rcases List.mem_cons.mp hx with rfl | hx
      · exact hrest.le
      · exact ih x hx

theorem tilesFrom_of_chain {seg : Segment} {rest : List Segment}
    (hproper : ∀ x ∈ seg :: rest, x.start < x.stop) (hchain : (seg :: rest).IsChain Adjacent) :
    TilesFrom seg.start (seg :: rest) (endTime (seg :: rest)) := by
  induction rest generalizing seg with
  | nil =>
      exact .cons (hproper seg List.mem_cons_self).le (.nil seg.stop)
  | cons next rest ih =>
      obtain ⟨hadjacent, hchain⟩ := List.isChain_cons_cons.mp hchain
      have hrest := ih (fun x hx => hproper x (List.mem_cons_of_mem seg hx)) hchain
      rw [hadjacent.1] at hrest
      exact .cons (hproper seg List.mem_cons_self).le hrest

theorem Tiles.tilesFrom (h : Tiles segs now) : TilesFrom 0 segs now := by
  cases segs with
  | nil =>
      rw [← h.last]
      exact .nil 0
  | cons seg rest =>
      have htiles := tilesFrom_of_chain h.proper h.adjacent
      rwa [h.first seg rfl, h.last] at htiles

/-! ## The simulators -/

variable {N : Nat} {tq : Int}

theorem Proc.ran_remain_nonneg {p : Proc} {runFor endTime : Int} :
    0 ≤ (p.ran runFor endTime).remain := by
  unfold ran
  split_ifs with hdone
  · exact le_rfl
  · show 0 ≤ p.remain - runFor
    omega

/-- The segments tile the time up to now, and no task has run for too long. -/
def SimState.Tiled (s : SimState N) : Prop :=
  Tiles s.segs s.now ∧ ∀ i, 0 ≤ (s.P i).remain

section

variable {s u t : SimState N} {k : Fin N}

theorem SimState.Tiled.awaitReady (h : s.Tiled) (hu : s.awaitReady = some u) : u.Tiled := by
  obtain ⟨heq, hle, -⟩ := awaitReady_some hu
  rw [heq]
  exact ⟨h.1.addSeg hle pidIdle, h.2⟩

theorem SimState.Tiled.switchTo (h : s.Tiled) (k : Fin N) : (s.switchTo k).Tiled := by
  refine ⟨?_, ?_⟩
  · rw [switchTo_segs]
    exact h.1.addSeg now_le_switchTo pidCs
  · rw [switchTo_P]
    exact h.2

theorem SimState.Tiled.complete (h : s.Tiled) (k : Fin N) : (s.complete k).Tiled := by
  have hremain := h.2 k
  refine ⟨h.1.addSeg ?_ _, fun i => ?_⟩
  · show s.now ≤ s.now + ((s.P k).start s.now).remain
    rw [Proc.start_remain]
    omega
  · by_cases hi : i = k
    · subst hi
      simp [SimState.complete]
    · simpa [SimState.complete, hi] using h.2 i

theorem SimState.Tiled.preempt (h : s.Tiled) (k : Fin N) : (s.preempt k).Tiled := by
  refine ⟨?_, fun i => ?_⟩
  · rw [preempt_segs, preempt_now]
    exact (h.switchTo k).1
  · rw [preempt_remain]
    exact h.2 i

theorem SimState.Tiled.runUntil (h : s.Tiled) {event : Int} (hevent : s.now ≤ event) :
    (s.runUntil k event).Tiled := by
  refine ⟨h.1.addSeg hevent _, fun i => ?_⟩
  by_cases hi : i = k
  · subst hi
    simpa [SimState.runUntil] using Proc.ran_remain_nonneg
  · simpa [SimState.runUntil, hi] using h.2 i

theorem SimState.Tiled.runToEvent (h : s.Tiled) (k : Fin N) : (s.runToEvent k).Tiled :=
  (h.preempt k).runUntil (now_le_nextEvent ((h.preempt k).2 k))

/-- An iteration keeps the tiling if running the picked task does. -/
theorem simBody_tiled {pick : (Fin N → Proc) → Int → Option (Fin N)}
    {run : SimState N → Fin N → SimState N} (hrun : ∀ u k, u.Tiled → (run u k).Tiled)
    (h : s.Tiled) (hbody : simBody pick run s = some t) : t.Tiled := by
  obtain ⟨u, k, hu, -, rfl⟩ := simBody_some hbody
  exact hrun u k (h.awaitReady hu)

end

def RRState.Tiled (s : RRState N) : Prop :=
  Tiles s.segs s.now ∧ ∀ i, 0 ≤ (s.P i).remain

section

variable {s t : RRState N}

theorem RRState.Tiled.dispatch (h : s.Tiled) (htq : 1 ≤ tq) (k : Fin N) :
    (s.dispatch tq k).Tiled := by
  have hrun : 0 ≤ s.runFor tq k := by
    refine le_min ?_ (h.2 k)
    show (0 : Int) ≤ 10 * tq
    omega
  refine ⟨?_, fun i => ?_⟩
  · show Tiles (addSeg (s.switchSegs k) _ _ _) (s.afterSwitch k + s.runFor tq k)
    rw [switchSegs_eq]
    exact (h.1.addSeg (s.now_le_afterSwitch k) pidCs).addSeg (by omega) _
  · by_cases hi : i = k
    · rw [hi, dispatch_P_self]
      exact Proc.ran_remain_nonneg
    · rw [dispatch_P_of_ne hi]
      exact h.2 i

theorem rr_tiled (htq : 1 ≤ tq) (h : s.Tiled) (hbody : rrBody tq s = some t) : t.Tiled := by
  cases rrBody_some hbody with
  | passOver => exact h
  | @run k Q => exact RRState.Tiled.dispatch (s := { s with Q := Q }) h htq k
  | idle _ hj => exact ⟨h.1.addSeg (nextArrivalAfter_some hj).2.le pidIdle, h.2⟩

end

theorem simInit_tiled {tasks : Fin N → Task} (hburst : ∀ i, 0 ≤ (tasks i).burst) :
    (simInit fun i => (tasks i).load).Tiled := by
  refine ⟨tiles_nil, fun i => ?_⟩
  have hi := hburst i
  show (0 : Int) ≤ 10 * (tasks i).burst
  omega

theorem rrInit_tiled {tasks : Fin N → Task} (hburst : ∀ i, 0 ≤ (tasks i).burst) :
    (rrInit fun i => (tasks i).load).Tiled :=
  ⟨tiles_nil.addSeg (rrStart_nonneg _) pidIdle, (simInit_tiled hburst).2⟩

/-- **Tiling.** Whatever the tasks are, as long as no burst is negative, the
segments tile the time line after every iteration of each of the four loops. -/
theorem segments_tile (tq : Int) (tasks : Fin N → Task) (hburst : ∀ i, 0 ≤ (tasks i).burst)
    (htq : 1 ≤ tq) :
    (∀ t, Reaches fcfsBody (simInit fun i => (tasks i).load) t → Tiles t.segs t.now) ∧
      (∀ t, Reaches sjfBody (simInit fun i => (tasks i).load) t → Tiles t.segs t.now) ∧
      (∀ t, Reaches srtfBody (simInit fun i => (tasks i).load) t → Tiles t.segs t.now) ∧
      ∀ t, Reaches (rrBody tq) (rrInit fun i => (tasks i).load) t → Tiles t.segs t.now := by
  have hinit := simInit_tiled hburst
  have hend : ∀ (u : SimState N) k, u.Tiled → (u.runToEnd k).Tiled :=
    fun u k h => (h.switchTo k).complete k
  refine ⟨fun t ht => ?_, fun t ht => ?_, fun t ht => ?_, fun t ht => ?_⟩
  · exact (ht.inv SimState.Tiled (fun _ _ => simBody_tiled hend) hinit).1
  · exact (ht.inv SimState.Tiled (fun _ _ => simBody_tiled hend) hinit).1
  · exact (ht.inv SimState.Tiled (fun _ _ => simBody_tiled fun _ k h => h.runToEvent k) hinit).1
  · exact (ht.inv RRState.Tiled (fun _ _ h => rr_tiled htq h) (rrInit_tiled hburst)).1

/-- Two tasks of one pid with a gap between them, the second with nothing to
run. -/
def gapTasks : Fin 2 → Task := ![⟨7, 1, 3⟩, ⟨7, 9, 0⟩]

theorem segments_tile_gap :
    ∃ t, simulateRR 2 5 (fun i => (gapTasks i).load) = some t ∧ Tiles t.segs t.now ∧
      t.segs = [⟨0, 10, pidIdle⟩, ⟨10, 40, 7⟩, ⟨40, 90, pidIdle⟩] := by
  have hrun : (simulateRR 2 5 fun i => (gapTasks i).load).map RRState.segs =
      some [⟨0, 10, pidIdle⟩, ⟨10, 40, 7⟩, ⟨40, 90, pidIdle⟩] := by decide +kernel
  obtain ⟨t, ht, hsegs⟩ := Option.map_eq_some_iff.mp hrun
  have htile := (segments_tile 2 gapTasks (by decide) (by decide)).2.2.2
  exact ⟨t, ht, htile t (loop_some ht).1, hsegs⟩

end OsProjects.Sched
