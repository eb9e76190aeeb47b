import Mathlib.Data.List.Basic
import Mathlib.Tactic

/-!
# The page-replacement simulator

`page_replacement_simulator.c`, function by function. The frame array of every
simulator is a list of `F` page numbers in which `-1` marks an empty frame; the
other locals of a simulator (`faults`, `filled`, the circular index, the
timestamps, the reference bits and the clock hand) are the fields of its state,
and one iteration of its reference loop is its step function.

`malloc`, `realloc` and `free` are taken to succeed. The array that the references are
read into and the printed fault rate are in `PageSim.Main`.
-/

namespace OsProjects.PageSim

/-- `MAX_FRAMES`. -/
def maxFrames : Int := 1000

/-- What `read_input` leaves in `frames` (`none`: never assigned) and in the
reference sequence. -/
structure Input where
  frames : Option Int
  refs : List Int
  deriving Repr, DecidableEq

/-- `read_input`, over the integers that successive `fscanf("%d")` calls deliver
before the first one that fails. The first component is the return value. -/
def readInput : List Int → Int × Input
  | [] => (-1, ⟨none, []⟩)
  | frames :: xs =>
      if frames ≤ 0 ∨ frames > maxFrames then (-1, ⟨some frames, []⟩)
      else (0, ⟨some frames, xs⟩)

/-- `find_in_frames`: the first frame that holds `page`. -/
def findInFrames (frames : List Int) (page : Int) : Option Nat :=
  frames.findIdx? (· == page)

/-- The locals that all four simulators share. -/
structure Sim where
  frames : List Int
  faults : Nat
  filled : Nat
  deriving Repr, DecidableEq

/-- Every frame empty. -/
def Sim.init (F : Nat) : Sim := ⟨List.replicate F (-1), 0, 0⟩

/-- `faults++; frames[filled++] = p`. -/
def Sim.fill (s : Sim) (p : Int) : Sim :=
  ⟨s.frames.set s.filled p, s.faults + 1, s.filled + 1⟩

/-- `faults++; frames[i] = p`. -/
def Sim.replace (s : Sim) (i : Nat) (p : Int) : Sim :=
  ⟨s.frames.set i p, s.faults + 1, s.filled⟩

/-- The pages in the filled frames. -/
def Sim.resident (s : Sim) : List Int := s.frames.take s.filled

/-! ## OPT -/

/-- The victim scan of `simulate_opt` over the frames from index `i` on; `rest`
are the references after the current one, and next uses are counted from
there. -/
def optScan (rest : List Int) : List Int → (i found : Nat) → (furthest : Int) → Nat
  | [], _, found, _ => found
  | frame :: frames, i, found, furthest =>
      match rest.findIdx? (· == frame) with
      | none => i
      | some next =>
          if (next : Int) > furthest then optScan rest frames (i + 1) i next
          else optScan rest frames (i + 1) found furthest

/-- The frame `simulate_opt` replaces. -/
def optVictim (rest frames : List Int) : Nat := optScan rest frames 0 0 (-1)

/-- One iteration of `simulate_opt`. -/
def optStep (F : Nat) (s : Sim) (p : Int) (rest : List Int) : Sim :=
  match findInFrames s.frames p with
  | some _ => s
  | none =>
      if s.filled < F then s.fill p
      else s.replace (optVictim rest s.frames) p

/-- The reference loop of `simulate_opt`. -/
def optRun (F : Nat) : Sim → List Int → Sim
  | s, [] => s
  | s, p :: rest => optRun F (optStep F s p rest) rest

/-- `simulate_opt`. -/
def simulateOpt (F : Nat) (refs : List Int) : Nat := (optRun F (.init F) refs).faults

/-! ## FIFO -/

structure FifoState extends Sim where
  idx : Nat
  deriving Repr, DecidableEq

/-- One iteration of `simulate_fifo`. -/
def fifoStep (F : Nat) (s : FifoState) (p : Int) : FifoState :=
  match findInFrames s.frames p with
  | some _ => s
  | none =>
      if s.filled < F then { s with toSim := s.fill p }
      else { s with toSim := s.replace s.idx p, idx := (s.idx + 1) % F }

/-- `simulate_fifo` before the first reference. -/
def fifoInit (F : Nat) : FifoState := ⟨.init F, 0⟩

/-- `simulate_fifo`. -/
def simulateFifo (F : Nat) (refs : List Int) : Nat :=
  (refs.foldl (fifoStep F) (fifoInit F)).faults

/-! ## LRU -/

/-- `t` is the loop counter, the position of the current reference. -/
structure LruState extends Sim where
  last : List Int
  t : Nat
  deriving Repr, DecidableEq

/-- The victim loop of `simulate_lru`: the first frame with the smallest
timestamp. -/
def lruVictim (F : Nat) (last : List Int) : Nat :=
  (List.range' 1 (F - 1)).foldl
    (fun victim i => if last.getD i 0 < last.getD victim 0 then i else victim) 0

/-- One iteration of `simulate_lru`. -/
def lruStep (F : Nat) (s : LruState) (p : Int) : LruState :=
  match findInFrames s.frames p with
  | some idx => { s with last := s.last.set idx s.t, t := s.t + 1 }
  | none =>
      if s.filled < F then
        { toSim := s.fill p, last := s.last.set s.filled s.t, t := s.t + 1 }
      else
        { toSim := s.replace (lruVictim F s.last) p
          last := s.last.set (lruVictim F s.last) s.t
          t := s.t + 1 }

/-- `simulate_lru` before the first reference. -/
def lruInit (F : Nat) : LruState := ⟨.init F, List.replicate F (-1), 0⟩

/-- `simulate_lru`. -/
def simulateLru (F : Nat) (refs : List Int) : Nat :=
  (refs.foldl (lruStep F) (lruInit F)).faults

/-! ## Clock -/

structure ClockState extends Sim where
  refb : List Bool
  hand : Nat
  deriving Repr, DecidableEq

/-- The `while(1)` loop of `simulate_clock`: bits are cleared and the hand moves
on until it stands at a frame whose bit is 0, which is replaced. Every further
iteration has cleared one more bit, so the loop ends. -/
def clockSweep (F : Nat) (p : Int) (s : ClockState) : ClockState :=
  if s.refb.getD s.hand false = true then
    clockSweep F p { s with refb := s.refb.set s.hand false, hand := (s.hand + 1) % F }
  else
    { s with
      frames := s.frames.set s.hand p
      refb := s.refb.set s.hand true
      hand := (s.hand + 1) % F }
termination_by s.refb.count true
decreasing_by
  rename_i h
  have hlt : s.hand < s.refb.length := by
    by_contra hge
    rw [List.getD_eq_getElem?_getD, List.getElem?_eq_none (by omega)] at h
    simp at h
  have hbit : s.refb[s.hand] = true := by
    rwa [List.getD_eq_getElem?_getD, List.getElem?_eq_getElem hlt, Option.getD_some] at h
  have hcount := List.count_set (a := false) (b := true) hlt
  have hpos : 0 < s.refb.count true := List.count_pos_iff.mpr (hbit ▸ List.getElem_mem hlt)
  simp [hbit] at hcount
  omega

/-- One iteration of `simulate_clock`. -/
def clockStep (F : Nat) (s : ClockState) (p : Int) : ClockState :=
  match findInFrames s.frames p with
  | some idx => { s with refb := s.refb.set idx true }
  | none =>
      if s.filled < F then { s with toSim := s.fill p, refb := s.refb.set s.filled true }
      else clockSweep F p { s with faults := s.faults + 1 }

/-- `simulate_clock` before the first reference. -/
def clockInit (F : Nat) : ClockState := ⟨.init F, List.replicate F false, 0⟩

/-- `simulate_clock`. -/
def simulateClock (F : Nat) (refs : List Int) : Nat :=
  (refs.foldl (clockStep F) (clockInit F)).faults

end OsProjects.PageSim
