import OsProjects.Lib.Policies
import OsProjects.PageSim.Frames

/-!
# FIFO and the Clock as queues

`simulate_fifo` keeps a circular array with an index, `simulate_clock` a circular
array with reference bits and a hand. Read cyclically from the index (the hand),
the filled frames are the queue of `fifoQueue` (of `secondChance`), and both
simulators fault on exactly the references the queue faults on.
-/

namespace OsProjects.PageSim

open OsProjects.Lib.Paging OsProjects.Lib.Ring

/-! ## FIFO -/

/-- The circular index stays inside the array and moves only once all frames
are filled. -/
structure FifoInv (F : Nat) (s : FifoState) : Prop where
  ok : s.toSim.Ok F
  idx_lt : s.idx < F
  idx_zero : s.filled < F → s.idx = 0

theorem fifoInit_inv {F : Nat} (hF : 1 ≤ F) : FifoInv F (fifoInit F) :=
  ⟨Sim.init_ok F, hF, fun _ => rfl⟩

theorem fifoStep_hit {F : Nat} {s : FifoState} {p : Int} (hp : p ∈ s.frames) :
    fifoStep F s p = s := by
  unfold fifoStep
  cases hfind : findInFrames s.frames p with
  | none => exact absurd hp (findInFrames_none.mp hfind)
  | some i => rfl

theorem fifoStep_miss {F : Nat} {s : FifoState} {p : Int} (hp : p ∉ s.frames) :
    fifoStep F s p =
      if s.filled < F then { s with toSim := s.fill p }
      else { s with toSim := s.replace s.idx p, idx := (s.idx + 1) % F } := by
  unfold fifoStep
  rw [findInFrames_none.mpr hp]

theorem fifo_invariant {F : Nat} (hF : 1 ≤ F) :
    SimInvariant F (fifoStep F) FifoState.toSim (FifoInv F) where
  ok h := h.ok
  table {s p} _ h := by
    by_cases hmem : p ∈ s.frames
    · rw [fifoStep_hit hmem]
      exact .hit hmem
    · rw [fifoStep_miss hmem]
      split
      · exact .fill hmem ‹_›
      · exact .replace hmem ‹_› h.idx_lt
  keep {s p} hp h := by
    by_cases hmem : p ∈ s.frames
    · rw [fifoStep_hit hmem]
      exact h
    · rw [fifoStep_miss hmem]
      split
      · rename_i hroom
        exact ⟨h.ok.fill hroom hp hmem, h.idx_lt, fun _ => h.idx_zero hroom⟩
      · rename_i hfull
        exact ⟨h.ok.replace hfull _ hp hmem, Nat.mod_lt _ hF, fun hroom => absurd hroom hfull⟩

/-- The queue of a state: the filled frames read cyclically from the index. -/
def FifoState.queue (s : FifoState) : List Int := s.resident.rotate s.idx

theorem fifo_queue_step {F : Nat} {s : FifoState} {p : Int} (hp : p ≠ -1)
    (h : FifoInv F s) :
    (fifoStep F s p).queue = (fifoQueue F).step s.queue p := by
  have hlen := h.ok.length_resident
  have hqueue : p ∈ s.queue ↔ p ∈ s.frames := by
    rw [FifoState.queue, List.mem_rotate, h.ok.mem_frames hp]
  have hqlen : s.queue.length = s.filled := by rw [FifoState.queue, List.length_rotate, hlen]
  by_cases hmem : p ∈ s.frames
  · rw [fifoStep_hit hmem]
    simp only [fifoQueue, if_pos (hqueue.mpr hmem)]
  · rw [fifoStep_miss hmem]
    simp only [fifoQueue, if_neg (fun hq => hmem (hqueue.mp hq)), hqlen]
    split
    · rename_i hroom
      show (s.fill p).resident.rotate s.idx = s.resident.rotate s.idx ++ [p]
      rw [h.idx_zero hroom, Sim.fill_resident h.ok hroom, List.rotate_zero, List.rotate_zero]
    · rename_i hfull
      have hF : s.resident.length = F := by have := h.ok.filled_le; omega
      show (s.replace s.idx p).resident.rotate ((s.idx + 1) % F) = _
      rw [Sim.replace_resident h.ok hfull]
      exact rotate_set_next hF h.idx_lt p

/-- `simulate_fifo` in lock step with the FIFO queue. -/
theorem fifo_simulation {F : Nat} (hF : 1 ≤ F) :
    (simPager (fifoStep F) FifoState.toSim).Simulation (fifoQueue F) (· ≠ -1)
      (fun s q => FifoInv F s ∧ s.queue = q) where
  miss {s q p} hp h := by
    obtain ⟨hinv, rfl⟩ := h
    rw [Bool.eq_iff_iff, simPager_miss, hinv.ok.mem_frames hp]
    simp [fifoQueue, FifoState.queue]
  step {s q p} hp h := by
    obtain ⟨hinv, rfl⟩ := h
    exact ⟨(fifo_invariant hF).keep hp hinv, fifo_queue_step hp hinv⟩

/-! ## Clock -/

/-- The frames with their reference bits. -/
def ClockState.bits (s : ClockState) : List (Int × Bool) := s.frames.zip s.refb

/-- The queue of a state: the filled frames with their bits, read cyclically
from the hand. -/
def ClockState.queue (s : ClockState) : List (Int × Bool) :=
  (s.bits.take s.filled).rotate s.hand

/-- The hand stays inside the array and moves only once all frames are filled. -/
structure ClockInv (F : Nat) (s : ClockState) : Prop where
  ok : s.toSim.Ok F
  length_refb : s.refb.length = F
  hand_lt : s.hand < F
  hand_zero : s.filled < F → s.hand = 0

theorem clockInit_inv {F : Nat} (hF : 1 ≤ F) : ClockInv F (clockInit F) :=
  ⟨Sim.init_ok F, by simp [clockInit], hF, fun _ => rfl⟩

theorem ClockInv.length_bits {F : Nat} {s : ClockState} (h : ClockInv F s) :
    s.bits.length = F := by
  simp [ClockState.bits, h.ok.length, h.length_refb]

theorem ClockInv.queue_fst {F : Nat} {s : ClockState} (h : ClockInv F s) :
    s.queue.map Prod.fst = s.resident.rotate s.hand := by
  have hfst : s.bits.map Prod.fst = s.frames := by
    rw [ClockState.bits, List.map_fst_zip]
    rw [h.ok.length, h.length_refb]
  rw [ClockState.queue, List.map_rotate, List.map_take, hfst]
  rfl

theorem ClockInv.length_queue {F : Nat} {s : ClockState} (h : ClockInv F s) :
    s.queue.length = s.filled := by
  have h1 := h.length_bits
  have h2 := h.ok.filled_le
  simp only [ClockState.queue, List.length_rotate, List.length_take]
  omega

/-- On a full table the queue is the whole array read from the hand. -/
theorem ClockInv.queue_of_full {F : Nat} {s : ClockState} (h : ClockInv F s)
    (hfull : ¬ s.filled < F) : s.queue = s.bits.rotate s.hand := by
  rw [ClockState.queue, List.take_of_length_le (by rw [h.length_bits]; omega)]

/-- The victim search, against the sweep of the queue: one frame is replaced,
the bits passed over are cleared, and the hand ends one past the victim. -/
theorem clockSweep_spec {F : Nat} (p : Int) (s : ClockState)
    (hframes : s.frames.length = F) (hrefb : s.refb.length = F) (hhand : s.hand < F) :
    (∃ v < F, (clockSweep F p s).toSim = { s.toSim with frames := s.frames.set v p }) ∧
      (clockSweep F p s).refb.length = F ∧ (clockSweep F p s).hand < F ∧
      (clockSweep F p s).bits.rotate (clockSweep F p s).hand =
        (sweep (s.bits.rotate s.hand)).tail ++ [(p, true)] := by
  have hbits : ∀ t : ClockState, t.frames.length = F → t.refb.length = F →
      t.bits.length = F := by
    intro t h1 h2
    simp [ClockState.bits, h1, h2]
  fun_induction clockSweep F p s with
  | case1 s hbit ih =>
      have hlt : s.hand < s.bits.length := by rw [hbits s hframes hrefb]; exact hhand
      have hone : s.refb[s.hand] = true := by
        rwa [List.getD_eq_getElem?_getD, List.getElem?_eq_getElem (by omega),
          Option.getD_some] at hbit
      obtain ⟨hsim, hlen, hhand', hqueue⟩ :=
        ih hframes (by simpa using hrefb) (Nat.mod_lt _ (by omega))
      refine ⟨hsim, hlen, hhand', ?_⟩
      rw [hqueue]
      -- one iteration of the loop is one rotation of the queue
      have hrot : (s.frames.zip (s.refb.set s.hand false)).rotate ((s.hand + 1) % F) =
          (s.bits.rotate s.hand).tail ++ [(s.frames[s.hand], false)] := by
        rw [zip_set_right (by omega) s.refb false]
        exact rotate_set_next (hbits s hframes hrefb) hhand _
      have hhead : s.bits.rotate s.hand =
          (s.frames[s.hand], true) :: (s.bits.rotate s.hand).tail := by
        conv_lhs => rw [rotate_eq_cons hlt]
        simp [ClockState.bits, hone]
      show (sweep ((s.frames.zip (s.refb.set s.hand false)).rotate ((s.hand + 1) % F))).tail ++
        [(p, true)] = _
      rw [hrot]
      conv_rhs => rw [hhead, sweep]
  | case2 s hbit =>
      have hlt : s.hand < s.bits.length := by rw [hbits s hframes hrefb]; exact hhand
      have hzero : s.refb[s.hand] = false := by
        rw [List.getD_eq_getElem?_getD, List.getElem?_eq_getElem (by omega),
          Option.getD_some] at hbit
        simpa using hbit
      refine ⟨⟨s.hand, hhand, rfl⟩, by simpa using hrefb, Nat.mod_lt _ (by omega), ?_⟩
      have hhead : s.bits.rotate s.hand =
          (s.frames[s.hand], false) :: (s.bits.rotate s.hand).tail := by
        conv_lhs => rw [rotate_eq_cons hlt]
        simp [ClockState.bits, hzero]
      show ((s.frames.set s.hand p).zip (s.refb.set s.hand true)).rotate ((s.hand + 1) % F) = _
      rw [zip_set, hhead, sweep, ← hhead]
      exact rotate_set_next (hbits s hframes hrefb) hhand _

theorem clockStep_hit {F : Nat} {s : ClockState} {p : Int} {i : Nat}
    (hfind : findInFrames s.frames p = some i) :
    clockStep F s p = { s with refb := s.refb.set i true } := by
  unfold clockStep
  rw [hfind]

theorem clockStep_miss {F : Nat} {s : ClockState} {p : Int} (hp : p ∉ s.frames) :
    clockStep F s p =
      if s.filled < F then { s with toSim := s.fill p, refb := s.refb.set s.filled true }
      else clockSweep F p { s with faults := s.faults + 1 } := by
  unfold clockStep
  rw [findInFrames_none.mpr hp]

theorem clock_invariant {F : Nat} :
    SimInvariant F (clockStep F) ClockState.toSim (ClockInv F) where
  ok h := h.ok
  table {s p} _ h := by
    cases hfind : findInFrames s.frames p with
    | some i =>
        rw [clockStep_hit hfind]
        exact .hit (List.mem_of_getElem? (findInFrames_some hfind))
    | none =>
        have hmem := findInFrames_none.mp hfind
        rw [clockStep_miss hmem]
        split
        · exact .fill hmem ‹_›
        · obtain ⟨⟨v, hv, hsim⟩, _⟩ := clockSweep_spec p { s with faults := s.faults + 1 }
            h.ok.length h.length_refb h.hand_lt
          rw [hsim]
          exact .replace hmem ‹_› hv
  keep {s p} hp h := by
    cases hfind : findInFrames s.frames p with
    | some i =>
        rw [clockStep_hit hfind]
        exact ⟨h.ok, by simpa using h.length_refb, h.hand_lt, h.hand_zero⟩
    | none =>
        have hmem := findInFrames_none.mp hfind
        rw [clockStep_miss hmem]
        split
        · rename_i hroom
          exact ⟨h.ok.fill hroom hp hmem, by simpa using h.length_refb, h.hand_lt,
            fun _ => h.hand_zero hroom⟩
        · rename_i hfull
          obtain ⟨⟨v, hv, hsim⟩, hlen, hhand, _⟩ :=
            clockSweep_spec p { s with faults := s.faults + 1 } h.ok.length h.length_refb
              h.hand_lt
          refine ⟨?_, hlen, hhand, ?_⟩
          · rw [hsim]
            exact h.ok.replace hfull v hp hmem
          · rw [hsim]
            exact fun hroom => absurd hroom hfull

theorem ClockInv.mem_queue {F : Nat} {s : ClockState} (h : ClockInv F s) {p : Int}
    (hp : p ≠ -1) : p ∈ s.queue.map Prod.fst ↔ p ∈ s.frames := by
  rw [h.queue_fst, List.mem_rotate, h.ok.mem_frames hp]

/-- A hit sets the bit of one entry of the queue. -/
theorem clock_queue_hit {F : Nat} {s : ClockState} {p : Int} (hp : p ≠ -1)
    (h : ClockInv F s) {i : Nat} (hfind : findInFrames s.frames p = some i) :
    (clockStep F s p).queue = s.queue.map (markPage p) := by
  have hget := findInFrames_some hfind
  obtain ⟨hi, hpage⟩ := List.getElem?_eq_some_iff.mp hget
  have hfst : (s.bits.take s.filled).map Prod.fst = s.resident := by
    rw [List.map_take, ClockState.bits, List.map_fst_zip (by rw [h.ok.length, h.length_refb])]
    rfl
  have hres := h.ok.find_resident hp hfind
  rw [clockStep_hit hfind]
  show ((s.frames.zip (s.refb.set i true)).take s.filled).rotate s.hand = _
  rw [zip_set_right hi, hpage, List.take_set, ClockState.queue, List.map_rotate,
    map_markPage_eq_set (by rw [hfst]; exact h.ok.nodup) (by rw [hfst]; exact hres)]
  rfl

theorem clock_queue_step {F : Nat} {s : ClockState} {p : Int} (hp : p ≠ -1)
    (h : ClockInv F s) :
    (clockStep F s p).queue = (secondChance F).step s.queue p := by
  cases hfind : findInFrames s.frames p with
  | some i =>
      have hmem := List.mem_of_getElem? (findInFrames_some hfind)
      rw [clock_queue_hit hp h hfind]
      simp only [secondChance, if_pos ((h.mem_queue hp).mpr hmem)]
  | none =>
      have hmem := findInFrames_none.mp hfind
      simp only [secondChance, if_neg (fun hq => hmem ((h.mem_queue hp).mp hq)),
        h.length_queue]
      split
      · rename_i hroom
        have hlen := h.length_bits
        rw [clockStep_miss hmem, if_pos hroom]
        show (((s.frames.set s.filled p).zip (s.refb.set s.filled true)).take
          (s.filled + 1)).rotate s.hand = _
        rw [zip_set, take_set_succ (by show _ < s.bits.length; omega), ClockState.queue,
          h.hand_zero hroom, List.rotate_zero, List.rotate_zero]
        rfl
      · rename_i hfull
        have hinv := clock_invariant.keep hp h
        obtain ⟨⟨v, _, hsim⟩, _, _, hqueue⟩ :=
          clockSweep_spec p { s with faults := s.faults + 1 } h.ok.length h.length_refb
            h.hand_lt
        rw [h.queue_of_full hfull]
        rw [clockStep_miss hmem, if_neg hfull] at hinv ⊢
        rw [hinv.queue_of_full (by rw [hsim]; exact hfull), hqueue]
        rfl

/-- `simulate_clock` in lock step with the second-chance queue. -/
theorem clock_simulation {F : Nat} :
    (simPager (clockStep F) ClockState.toSim).Simulation (secondChance F) (· ≠ -1)
      (fun s q => ClockInv F s ∧ s.queue = q) where
  miss {s q p} hp h := by
    obtain ⟨hinv, rfl⟩ := h
    rw [Bool.eq_iff_iff, simPager_miss, ← hinv.mem_queue hp]
    simp only [secondChance, decide_eq_true_eq]
  step {s q p} hp h := by
    obtain ⟨hinv, rfl⟩ := h
    exact ⟨clock_invariant.keep hp hinv, clock_queue_step hp hinv⟩

/-- The state of `simulate_clock` after the references `refs`. -/
def clockAfter (F : Nat) (refs : List Int) : ClockState :=
  refs.foldl (clockStep F) (clockInit F)

/-- **The Clock is the second-chance queue.** After any references the filled
frames with their bits, read cyclically from the hand, are the queue; the next
reference faults in the simulator iff it faults in the queue algorithm; and the
fault counts agree. -/
theorem clock_is_second_chance {F : Nat} (hF : 1 ≤ F) {refs : List Int} (hrefs : -1 ∉ refs) :
    (clockAfter F refs).queue = (secondChance F).run [] refs ∧
      ((clockAfter F refs).filled = F →
        ((clockAfter F refs).frames.zip (clockAfter F refs).refb).rotate (clockAfter F refs).hand =
          (secondChance F).run [] refs) ∧
      (∀ p, p ≠ -1 → (clockStep F (clockAfter F refs) p).faults =
        (clockAfter F refs).faults +
          if (secondChance F).miss ((secondChance F).run [] refs) p then 1 else 0) ∧
      simulateClock F refs = (secondChance F).faults [] refs := by
  have hok : ∀ p ∈ refs, p ≠ -1 := fun p hp heq => hrefs (heq ▸ hp)
  have hstart : ClockInv F (clockInit F) ∧ (clockInit F).queue = [] :=
    ⟨clockInit_inv hF, rfl⟩
  obtain ⟨hinv, hqueue⟩ := clock_simulation.run hstart hok
  refine ⟨hqueue, ?_, ?_, ?_⟩
  · intro hfull
    rw [← hqueue, hinv.queue_of_full (hfull.symm ▸ lt_irrefl F)]
    rfl
  · intro p hp
    rw [← clock_simulation.miss hp ⟨hinv, hqueue⟩]
    exact clock_invariant.faults_step hp hinv
  · have hcount := clock_invariant.faults_foldl hrefs (clockInit_inv hF)
    rw [simulateClock, hcount, Pager.faults, clock_simulation.faultPages_eq hstart hok]
    exact Nat.zero_add _

theorem clock_is_second_chance_sweep :
    simulateClock 3 [1, 2, 3, 4, 2, 5] = (secondChance 3).faults [] [(1 : Int), 2, 3, 4, 2, 5] :=
  have hF : 1 ≤ 3 := by decide
  have hrefs : (-1 : Int) ∉ [1, 2, 3, 4, 2, 5] := by decide
  (clock_is_second_chance hF hrefs).2.2.2

end OsProjects.PageSim
