import OsProjects.PageSim.Optimality

/-!
# The load order of FIFO

Which pages `simulate_fifo` holds, and where, in terms of the references that
faulted: the filled frames hold the pages loaded last, and once every frame is
filled the circular index stands at the oldest of them (`fifo_load_order`).
-/

namespace OsProjects.PageSim

open OsProjects.Lib.Paging OsProjects.Lib.Ring

/-- The pages in the frames, empty frames left out. -/
def Sim.pages (s : Sim) : List Int := s.frames.filter (· ≠ -1)

theorem Sim.Ok.pages_eq {F : Nat} {s : Sim} (h : s.Ok F) : s.pages = s.resident := by
  have hempty : (s.frames.drop s.filled).filter (· ≠ -1) = [] := by
    rw [h.empty]
    simp
  have hfilled : s.resident.filter (· ≠ -1) = s.resident := by
    apply List.filter_eq_self.mpr
    intro p hp
    have hne : p ≠ -1 := fun heq => h.noSentinel (heq ▸ hp)
    simpa using hne
  rw [Sim.pages, ← List.take_append_drop s.filled s.frames, List.filter_append, hempty,
    List.append_nil]
  exact hfilled

/-- The state of `simulate_fifo` after the references `refs`. -/
def fifoAfter (F : Nat) (refs : List Int) : FifoState :=
  refs.foldl (fifoStep F) (fifoInit F)

/-- The pages of the faulting references among `refs`, in order. -/
def fifoLoads (F : Nat) (refs : List Int) : List Int :=
  countedFaults (fifoStep F) FifoState.toSim (fifoInit F) refs

section After

variable {F : Nat} (hF : 1 ≤ F) {refs : List Int} (hrefs : -1 ∉ refs)

include hF hrefs

theorem fifoAfter_inv : FifoInv F (fifoAfter F refs) :=
  (fifo_invariant hF).foldl hrefs (fifoInit_inv hF)

theorem fifoAfter_faults : (fifoAfter F refs).faults = (fifoLoads F refs).length := by
  rw [fifoLoads, (fifo_invariant hF).countedFaults_eq hrefs (fifoInit_inv hF), fifoAfter,
    (fifo_invariant hF).faults_foldl hrefs (fifoInit_inv hF)]
  exact Nat.zero_add _

/-- The queue of the simulator: the last `F` pages loaded. -/
theorem fifoAfter_queue : (fifoAfter F refs).queue = (fifoLoads F refs).rtake F := by
  have hok : ∀ p ∈ refs, p ≠ -1 := fun p hp heq => hrefs (heq ▸ hp)
  have hstart : FifoInv F (fifoInit F) ∧ (fifoInit F).queue = [] := ⟨fifoInit_inv hF, rfl⟩
  obtain ⟨_, hqueue⟩ := (fifo_simulation hF).run hstart hok
  have hloads : fifoLoads F refs = (fifoQueue F).faultPages [] refs := by
    rw [fifoLoads, (fifo_invariant hF).countedFaults_eq hrefs (fifoInit_inv hF)]
    exact (fifo_simulation hF).faultPages_eq hstart hok
  have hrun := fifoQueue_run F hF refs [] (Nat.zero_le F)
  rw [List.nil_append, ← hloads] at hrun
  exact hqueue.trans hrun

end After

/-- **Exact FIFO.** After any prefix of the references the frames hold distinct
pages, exactly those of the last `min F faults` faulting references. Once all
frames are filled, reading them cyclically from the index lists these pages in
order of loading, so a miss replaces the page loaded longest ago. -/
theorem fifo_load_order {F : Nat} (hF : 1 ≤ F) {refs front : List Int} (hrefs : -1 ∉ refs)
    (hfront : front <+: refs) :
    (fifoAfter F front).faults = (fifoLoads F front).length ∧
      (fifoAfter F front).filled = min F (fifoAfter F front).faults ∧
      (fifoAfter F front).pages.Nodup ∧
      (fifoAfter F front).pages.Perm
        ((fifoLoads F front).rtake (min F (fifoAfter F front).faults)) ∧
      ((fifoAfter F front).filled = F →
        (fifoAfter F front).frames.rotate (fifoAfter F front).idx =
            (fifoLoads F front).rtake F ∧
          ∀ p, p ∉ (fifoAfter F front).frames →
            (fifoAfter F front).frames[(fifoAfter F front).idx]? =
                ((fifoLoads F front).rtake F).head? ∧
              (fifoStep F (fifoAfter F front) p).frames =
                (fifoAfter F front).frames.set (fifoAfter F front).idx p) := by
  have hpre : -1 ∉ front := fun hm => hrefs (hfront.subset hm)
  have hinv := fifoAfter_inv hF hpre
  have hfaults := fifoAfter_faults hF hpre
  have hqueue := fifoAfter_queue hF hpre
  generalize fifoAfter F front = s at hinv hfaults hqueue ⊢
  generalize fifoLoads F front = loads at hfaults hqueue ⊢
  have hlast : loads.rtake (min F s.faults) = loads.rtake F := by
    rw [hfaults, List.rtake, List.rtake]
    congr 1
    omega
  have hperm : s.pages.Perm (loads.rtake F) := by
    rw [hinv.ok.pages_eq, ← hqueue]
    exact (List.rotate_perm s.resident s.idx).symm
  have hfilled : s.filled = min F s.faults := by
    have hlen := hperm.length_eq
    rw [hinv.ok.pages_eq, hinv.ok.length_resident, List.rtake, List.length_drop] at hlen
    omega
  refine ⟨hfaults, hfilled, ?_, ?_, ?_⟩
  · rw [hinv.ok.pages_eq]
    exact hinv.ok.nodup
  · rw [hlast]
    exact hperm
  · intro hfull
    have hroom : ¬ s.filled < F := by omega
    have hrotate : s.frames.rotate s.idx = loads.rtake F := by
      rw [hinv.ok.frames_eq_of_full hroom]
      exact hqueue
    refine ⟨hrotate, ?_⟩
    intro p hp
    have hidx : s.idx < s.frames.length := by rw [hinv.ok.length]; exact hinv.idx_lt
    constructor
    · -- the entry at the index heads the rotated array
      rw [← hrotate, rotate_eq_cons hidx, List.head?_cons, List.getElem?_eq_getElem hidx]
    · rw [fifoStep_miss hp, if_neg hroom]
      rfl

/-- Three frames after a hit, three fills and two replacements. -/
theorem fifo_load_order_trace :
    (fifoAfter 3 [1, 2, 1, 3, 4, 5]).filled = 3 ∧
      (fifoAfter 3 [1, 2, 1, 3, 4, 5]).frames.rotate (fifoAfter 3 [1, 2, 1, 3, 4, 5]).idx =
        (fifoLoads 3 [1, 2, 1, 3, 4, 5]).rtake 3 := by
  have hF : 1 ≤ 3 := by decide
  have hrefs : (-1 : Int) ∉ [1, 2, 1, 3, 4, 5, 2] := by decide
  have hfull : (fifoAfter 3 [1, 2, 1, 3, 4, 5]).filled = 3 := by decide +kernel
  have hfront : [1, 2, 1, 3, 4, 5] <+: [(1 : Int), 2, 1, 3, 4, 5, 2] := by decide
  obtain ⟨_, _, _, _, horder⟩ := fifo_load_order hF hrefs hfront
  exact ⟨hfull, (horder hfull).1⟩

end OsProjects.PageSim
