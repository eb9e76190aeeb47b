import OsProjects.PageSim.Optimality

/-!
# Index safety of the simulators

`main` ignores what `read_input` returns, so a rejected or unread frame count
still reaches the four simulators. It does no harm in their reference loops: a
count is rejected before any reference is stored, so the loops run only with a
count between 1 and `MAX_FRAMES`, and then every index stays below it
(`main_index_safe`). References to the page `-1` are allowed here.
-/

namespace OsProjects.PageSim

/-! ## What the loops access -/

/-- An access to `frames[i]`, `last[i]` or `refb[i]`, or a division `% F`. -/
inductive Access
  | frames (i : Nat)
  | last (i : Nat)
  | refb (i : Nat)
  | mod
  deriving DecidableEq, Repr

/-- The access is inside an array of `F` entries, the division is by a positive
number. -/
def Access.Safe (F : Int) : Access → Prop
  | .frames i => (i : Int) < F
  | .last i => (i : Int) < F
  | .refb i => (i : Int) < F
  | .mod => 1 ≤ F

/-- `find_in_frames` from index `i` on, with `n` iterations left. -/
def findAccesses (frames : List Int) (page : Int) : (n i : Nat) → List Access
  | 0, _ => []
  | n + 1, i =>
      .frames i :: if frames.getD i 0 = page then [] else findAccesses frames page n (i + 1)

/-- The victim scan of `simulate_opt` (`optScan`): `frames[i]` is compared with
one reference after the other until its next use. -/
def optScanAccesses (rest frames : List Int) : (n i : Nat) → List Access
  | 0, _ => []
  | n + 1, i =>
      match rest.findIdx? (· == frames.getD i 0) with
      | none => List.replicate rest.length (.frames i)
      | some next =>
          List.replicate (next + 1) (.frames i) ++ optScanAccesses rest frames n (i + 1)

/-- One iteration of `simulate_opt`. -/
def optStepAccesses (F : Nat) (s : Sim) (p : Int) (rest : List Int) : List Access :=
  findAccesses s.frames p F 0 ++
    match findInFrames s.frames p with
    | some _ => []
    | none =>
        if s.filled < F then [.frames s.filled]
        else optScanAccesses rest s.frames F 0 ++ [.frames (optVictim rest s.frames)]

/-- One iteration of `simulate_fifo`. -/
def fifoStepAccesses (F : Nat) (s : FifoState) (p : Int) : List Access :=
  findAccesses s.frames p F 0 ++
    match findInFrames s.frames p with
    | some _ => []
    | none => if s.filled < F then [.frames s.filled] else [.frames s.idx, .mod]

/-- The victim loop of `simulate_lru` (`lruVictim`) from index `i` on, with `n`
iterations left. -/
def lruScanAccesses (last : List Int) : (n i victim : Nat) → List Access
  | 0, _, _ => []
  | n + 1, i, victim =>
      .last i :: .last victim ::
        lruScanAccesses last n (i + 1)
          (if last.getD i 0 < last.getD victim 0 then i else victim)

/-- One iteration of `simulate_lru`. -/
def lruStepAccesses (F : Nat) (s : LruState) (p : Int) : List Access :=
  findAccesses s.frames p F 0 ++
    match findInFrames s.frames p with
    | some idx => [.last idx]
    | none =>
        if s.filled < F then [.frames s.filled, .last s.filled]
        else
          lruScanAccesses s.last (F - 1) 1 0 ++
            [.frames (lruVictim F s.last), .last (lruVictim F s.last)]

/-- The first `n` iterations of the `while(1)` loop of `simulate_clock`. -/
def sweepAccesses (F : Nat) : (n : Nat) → (refb : List Bool) → (hand : Nat) → List Access
  | 0, _, _ => []
  | n + 1, refb, hand =>
      .refb hand ::
        if refb.getD hand false = false then [.frames hand, .refb hand, .mod]
        else .refb hand :: .mod :: sweepAccesses F n (refb.set hand false) ((hand + 1) % F)

/-- One iteration of `simulate_clock`, with up to `n` iterations of its inner
loop. -/
def clockStepAccesses (F n : Nat) (s : ClockState) (p : Int) : List Access :=
  findAccesses s.frames p F 0 ++
    match findInFrames s.frames p with
    | some idx => [.refb idx]
    | none =>
        if s.filled < F then [.frames s.filled, .refb s.filled]
        else sweepAccesses F n s.refb s.hand

/-- A reference loop: `step` and `accesses` are those of one iteration, which may
look at the references after the current one. -/
def loopAccesses {σ : Type} (step : σ → Int → List Int → σ)
    (accesses : σ → Int → List Int → List Access) : σ → List Int → List Access
  | _, [] => []
  | s, p :: rest => accesses s p rest ++ loopAccesses step accesses (step s p rest) rest

def optAccesses (F : Nat) (refs : List Int) : List Access :=
  loopAccesses (optStep F) (optStepAccesses F) (.init F) refs

def fifoAccesses (F : Nat) (refs : List Int) : List Access :=
  loopAccesses (fun s p _ => fifoStep F s p) (fun s p _ => fifoStepAccesses F s p)
    (fifoInit F) refs

def lruAccesses (F : Nat) (refs : List Int) : List Access :=
  loopAccesses (fun s p _ => lruStep F s p) (fun s p _ => lruStepAccesses F s p)
    (lruInit F) refs

def clockAccesses (F n : Nat) (refs : List Int) : List Access :=
  loopAccesses (fun s p _ => clockStep F s p) (fun s p _ => clockStepAccesses F n s p)
    (clockInit F) refs

/-- The frame count `main` passes on: what `read_input` stored, or else what the
uninitialised variable happens to hold. -/
def mainFrames (tokens : List Int) (garbage : Int) : Int :=
  (readInput tokens).2.frames.getD garbage

/-- The reference loops of the four simulators as `main` runs them, whatever
`read_input` returned; `n` bounds the iterations of the Clock's inner loop that
are looked at. -/
def mainAccesses (tokens : List Int) (garbage : Int) (n : Nat) : List Access :=
  let F := (mainFrames tokens garbage).toNat
  let refs := (readInput tokens).2.refs
  optAccesses F refs ++ fifoAccesses F refs ++ lruAccesses F refs ++ clockAccesses F n refs

/-! ## The scans -/

theorem findAccesses_safe {F : Nat} (frames : List Int) (page : Int) (n : Nat) :
    ∀ i, i + n ≤ F → ∀ a ∈ findAccesses frames page n i, a.Safe F := by
  induction n with
  | zero =>
      intro i _ a ha
      simp [findAccesses] at ha
  | succ n ih =>
      intro i hi a ha
      rcases List.mem_cons.mp ha with rfl | ha
      · show (i : Int) < F
        omega
      · split at ha
        · simp at ha
        · exact ih (i + 1) (by omega) a ha

theorem optScanAccesses_safe {F : Nat} (rest frames : List Int) (n : Nat) :
    ∀ i, i + n ≤ F → ∀ a ∈ optScanAccesses rest frames n i, a.Safe F := by
  induction n with
  | zero =>
      intro i _ a ha
      simp [optScanAccesses] at ha
  | succ n ih =>
      intro i hi a ha
      have hhere : ∀ k, a ∈ List.replicate k (Access.frames i) → a.Safe F := by
        intro k hk
        rw [List.eq_of_mem_replicate hk]
        show (i : Int) < F
        omega
      rw [optScanAccesses] at ha
      split at ha
      · exact hhere _ ha
      · rcases List.mem_append.mp ha with ha | ha
        · exact hhere _ ha
        · exact ih (i + 1) (by omega) a ha

theorem lruScanAccesses_safe {F : Nat} (last : List Int) (n : Nat) :
    ∀ i victim, i + n ≤ F → victim < F → ∀ a ∈ lruScanAccesses last n i victim, a.Safe F := by
  induction n with
  | zero =>
      intro i victim _ _ a ha
      simp [lruScanAccesses] at ha
  | succ n ih =>
      intro i victim hi hvictim a ha
      rw [lruScanAccesses] at ha
      rcases List.mem_cons.mp ha with rfl | ha
      · show (i : Int) < F
        omega
      rcases List.mem_cons.mp ha with rfl | ha
      · show (victim : Int) < F
        omega
      · refine ih (i + 1) _ (by omega) ?_ a ha
        split
        · omega
        · exact hvictim

theorem sweepAccesses_safe {F : Nat} (n : Nat) :
    ∀ refb hand, hand < F → ∀ a ∈ sweepAccesses F n refb hand, a.Safe F := by
  induction n with
  | zero =>
      intro refb hand _ a ha
      simp [sweepAccesses] at ha
  | succ n ih =>
      intro refb hand hhand a ha
      have hindex : (hand : Int) < F := by omega
      have hmod : (1 : Int) ≤ F := by omega
      rw [sweepAccesses] at ha
      rcases List.mem_cons.mp ha with rfl | ha
      · exact hindex
      split at ha
      · simp only [List.mem_cons, List.not_mem_nil, or_false] at ha
        rcases ha with rfl | rfl | rfl
        · exact hindex
        · exact hindex
        · exact hmod
      · rcases List.mem_cons.mp ha with rfl | ha
        · exact hindex
        rcases List.mem_cons.mp ha with rfl | ha
        · exact hmod
        · exact ih _ _ (Nat.mod_lt _ (by omega)) a ha

/-! ## The iterations -/

/-- What the indices rest on in every simulator. -/
structure Sim.Bounded (F : Nat) (s : Sim) : Prop where
  length : s.frames.length = F
  filled_le : s.filled ≤ F

theorem Sim.init_bounded (F : Nat) : (Sim.init F).Bounded F :=
  ⟨List.length_replicate, Nat.zero_le F⟩

theorem Sim.Bounded.fill {F : Nat} {s : Sim} (h : s.Bounded F) (hroom : s.filled < F) (p : Int) :
    (s.fill p).Bounded F :=
  ⟨(List.length_set ..).trans h.length, hroom⟩

theorem Sim.Bounded.replace {F : Nat} {s : Sim} (h : s.Bounded F) (i : Nat) (p : Int) :
    (s.replace i p).Bounded F :=
  ⟨(List.length_set ..).trans h.length, h.filled_le⟩

theorem Sim.Bounded.find_lt {F : Nat} {s : Sim} (h : s.Bounded F) {p : Int} {i : Nat}
    (hfind : findInFrames s.frames p = some i) : i < F := by
  obtain ⟨hlt, _⟩ := List.getElem?_eq_some_iff.mp (findInFrames_some hfind)
  rwa [h.length] at hlt

theorem optVictim_lt {frames : List Int} (hne : frames ≠ []) (rest : List Int) :
    optVictim rest frames < frames.length := by
  obtain ⟨f, hf, _⟩ := optScan_furthest rest frames [] 0 (-1) hne (by simp) (by simp)
  exact (List.getElem?_eq_some_iff.mp hf).1

/-- An iteration searches the frames; then it goes one of three ways. -/
theorem Sim.Bounded.step_safe {F : Nat} {s : Sim} (h : s.Bounded F) {p : Int}
    {hit : Nat → List Access} {room full : List Access}
    (hhit : ∀ i < F, ∀ a ∈ hit i, a.Safe F)
    (hroom : s.filled < F → ∀ a ∈ room, a.Safe F) (hfull : ∀ a ∈ full, a.Safe F) :
    ∀ a ∈ findAccesses s.frames p F 0 ++
      (match findInFrames s.frames p with
        | some i => hit i
        | none => if s.filled < F then room else full), a.Safe F := by
  intro a ha
  rcases List.mem_append.mp ha with ha | ha
  · exact findAccesses_safe s.frames p F 0 (by omega) a ha
  split at ha
  · next i hfind => exact hhit i (h.find_lt hfind) a ha
  · split at ha
    · exact hroom ‹_› a ha
    · exact hfull a ha

theorem safe_pair {F : Nat} {x y : Access} (hx : x.Safe F) (hy : y.Safe F) :
    ∀ a ∈ [x, y], a.Safe F := by
  intro a ha
  rcases List.mem_pair.mp ha with rfl | rfl
  · exact hx
  · exact hy

/-- An invariant of the iteration that makes its accesses safe makes those of
the loop safe. -/
theorem loopAccesses_safe {σ : Type} {F : Nat} {step : σ → Int → List Int → σ}
    {accesses : σ → Int → List Int → List Access} (Inv : σ → Prop)
    (keep : ∀ s p rest, Inv s → Inv (step s p rest))
    (safe : ∀ s p rest, Inv s → ∀ a ∈ accesses s p rest, a.Safe F) (refs : List Int) :
    ∀ s, Inv s → ∀ a ∈ loopAccesses step accesses s refs, a.Safe F := by
  induction refs with
  | nil =>
      intro s _ a ha
      simp [loopAccesses] at ha
  | cons p rest ih =>
      intro s hs a ha
      rcases List.mem_append.mp ha with ha | ha
      · exact safe s p rest hs a ha
      · exact ih _ (keep s p rest hs) a ha

section Loops

variable {F : Nat} (hF : 1 ≤ F) (refs : List Int)

include hF

theorem optAccesses_safe : ∀ a ∈ optAccesses F refs, a.Safe F := by
  refine loopAccesses_safe (Sim.Bounded F) ?_ ?_ refs _ (Sim.init_bounded F)
  · intro s p rest hs
    unfold optStep
    split
    · exact hs
    · split
      · exact hs.fill ‹_› p
      · exact hs.replace _ p
  · intro s p rest hs
    apply hs.step_safe
    · intro i _ a ha
      exact absurd ha List.not_mem_nil
    · intro hroom a ha
      rw [List.mem_singleton.mp ha]
      exact Int.ofNat_lt.mpr hroom
    · intro a ha
      rcases List.mem_append.mp ha with ha | ha
      · exact optScanAccesses_safe rest s.frames F 0 (by omega) a ha
      · have hlen := hs.length
        have hne : s.frames ≠ [] := List.ne_nil_of_length_pos (by omega)
        have hvictim := optVictim_lt hne rest
        rw [hlen] at hvictim
        rw [List.mem_singleton.mp ha]
        exact Int.ofNat_lt.mpr hvictim

theorem fifoAccesses_safe : ∀ a ∈ fifoAccesses F refs, a.Safe F := by
  refine loopAccesses_safe (fun s => s.toSim.Bounded F ∧ s.idx < F) ?_ ?_ refs _
    ⟨Sim.init_bounded F, hF⟩
  · intro s p _ ⟨hs, hidx⟩
    unfold fifoStep
    split
    · exact ⟨hs, hidx⟩
    · split
      · exact ⟨hs.fill ‹_› p, hidx⟩
      · exact ⟨hs.replace _ p, Nat.mod_lt _ hF⟩
  · intro s p _ ⟨hs, hidx⟩
    apply hs.step_safe
    · intro i _ a ha
      exact absurd ha List.not_mem_nil
    · intro hroom a ha
      rw [List.mem_singleton.mp ha]
      exact Int.ofNat_lt.mpr hroom
    · exact safe_pair (Int.ofNat_lt.mpr hidx) (Int.ofNat_le.mpr hF)

theorem lruAccesses_safe : ∀ a ∈ lruAccesses F refs, a.Safe F := by
  refine loopAccesses_safe (fun s => s.toSim.Bounded F) ?_ ?_ refs _ (Sim.init_bounded F)
  · intro s p _ hs
    unfold lruStep
    split
    · exact hs
    · split
      · exact hs.fill ‹_› p
      · exact hs.replace _ p
  · intro s p _ hs
    apply hs.step_safe
    · intro i hi a ha
      rw [List.mem_singleton.mp ha]
      exact Int.ofNat_lt.mpr hi
    · intro hroom
      exact safe_pair (Int.ofNat_lt.mpr hroom) (Int.ofNat_lt.mpr hroom)
    · intro a ha
      obtain ⟨hvictim, _⟩ := lruVictim_spec hF s.last
      rcases List.mem_append.mp ha with ha | ha
      · exact lruScanAccesses_safe s.last (F - 1) 1 0 (by omega) (by omega) a ha
      · refine safe_pair ?_ ?_ a ha
        · exact Int.ofNat_lt.mpr hvictim
        · exact Int.ofNat_lt.mpr hvictim

theorem clockAccesses_safe (n : Nat) : ∀ a ∈ clockAccesses F n refs, a.Safe F := by
  refine loopAccesses_safe
    (fun s => s.toSim.Bounded F ∧ s.refb.length = F ∧ s.hand < F) ?_ ?_ refs _
    ⟨Sim.init_bounded F, List.length_replicate, hF⟩
  · intro s p _ ⟨hs, hrefb, hhand⟩
    unfold clockStep
    split
    · exact ⟨hs, (List.length_set ..).trans hrefb, hhand⟩
    · split
      · exact ⟨hs.fill ‹_› p, (List.length_set ..).trans hrefb, hhand⟩
      · obtain ⟨⟨v, _, hsim⟩, hlen, hhand', _⟩ :=
          clockSweep_spec p { s with faults := s.faults + 1 } hs.length hrefb hhand
        refine ⟨?_, hlen, hhand'⟩
        rw [hsim]
        exact hs.replace v p
  · intro s p _ ⟨hs, _, hhand⟩
    apply hs.step_safe
    · intro i hi a ha
      rw [List.mem_singleton.mp ha]
      exact Int.ofNat_lt.mpr hi
    · intro hroom
      exact safe_pair (Int.ofNat_lt.mpr hroom) (Int.ofNat_lt.mpr hroom)
    · exact sweepAccesses_safe n s.refb s.hand hhand

end Loops

/-! ## The program -/

/-- A reference is stored only after the frame count has passed its check. -/
theorem readInput_frames {tokens : List Int} (hrefs : (readInput tokens).2.refs ≠ [])
    (garbage : Int) : 1 ≤ mainFrames tokens garbage := by
  cases tokens with
  | nil => exact absurd rfl hrefs
  | cons frames xs =>
      unfold mainFrames
      rw [readInput] at hrefs ⊢
      split at hrefs
      · exact absurd rfl hrefs
      · rw [if_neg ‹_›]
        show 1 ≤ frames
        omega

/-- **Index safety.** Whatever the input file holds and whatever the frame count
holds when it was not read, every access of the four reference loops is inside
its array, and every `% F` divides by a positive number. -/
theorem main_index_safe (tokens : List Int) (garbage : Int) (n : Nat) :
    ∀ a ∈ mainAccesses tokens garbage n, a.Safe (mainFrames tokens garbage) := by
  intro a ha
  by_cases hrefs : (readInput tokens).2.refs = []
  · -- no reference was stored, so no loop takes an iteration
    simp [mainAccesses, hrefs, optAccesses, fifoAccesses, lruAccesses, clockAccesses,
      loopAccesses] at ha
  · have hpos := readInput_frames hrefs garbage
    obtain ⟨F, hF⟩ := Int.eq_ofNat_of_zero_le (by omega : 0 ≤ mainFrames tokens garbage)
    unfold mainAccesses at ha
    rw [hF] at hpos ha ⊢
    have hcount : 1 ≤ F := by omega
    simp only [Int.toNat_natCast, List.mem_append] at ha
    rcases ha with ((ha | ha) | ha) | ha
    · exact optAccesses_safe hcount _ a ha
    · exact fifoAccesses_safe hcount _ a ha
    · exact lruAccesses_safe hcount _ a ha
    · exact clockAccesses_safe hcount _ n a ha

/-- Two frames and a third page: FIFO moves its index on. -/
theorem main_index_safe_full :
    Access.mod ∈ mainAccesses [2, 1, 2, 3] 0 4 ∧
      Access.mod.Safe (mainFrames [2, 1, 2, 3] 0) := by
  have hmem : Access.mod ∈ mainAccesses [2, 1, 2, 3] 0 4 := by decide
  exact ⟨hmem, main_index_safe [2, 1, 2, 3] 0 4 .mod hmem⟩

end OsProjects.PageSim
