import OsProjects.PageSim.Model

/-!
# The victim search of the Clock

The `while(1)` loop of `simulate_clock` in isolation, from any reference bits and
any position of the hand. The hand passes over `d` frames with bit 1
(`PassesOver`), and the loop ends after `d + 1` iterations, at most `F + 1`, with
exactly the effect `Swept` lists. When all bits are 1 the hand goes all the way
round and finds the first bit it cleared itself.
-/

namespace OsProjects.PageSim

/-- At most `n` iterations of the `while(1)` loop of `simulate_clock`; `none` when
it has not left the loop by then. -/
def clockLoop (F : Nat) (p : Int) : Nat → ClockState → Option ClockState
  | 0, _ => none
  | n + 1, s =>
      if s.refb.getD s.hand false = false then
        some { s with
          frames := s.frames.set s.hand p
          refb := s.refb.set s.hand true
          hand := (s.hand + 1) % F }
      else
        clockLoop F p n { s with refb := s.refb.set s.hand false, hand := (s.hand + 1) % F }

/-- The hand passes over `d` frames: their bits are 1, and the frame it comes to
has bit 0 unless it has gone all the way round. -/
structure PassesOver (F : Nat) (s : ClockState) (d : Nat) : Prop where
  le : d ≤ F
  passed : ∀ k < d, s.refb[(s.hand + k) % F]? = some true
  stops : d < F → s.refb[(s.hand + d) % F]? = some false

/-- What the search does after passing over `d` frames: frame `v` gets the page
and bit 1, the bits passed over are cleared, the hand ends one past `v`, and
nothing else changes. -/
structure Swept (F : Nat) (p : Int) (s : ClockState) (d v : Nat) (t : ClockState) : Prop where
  sim : t.toSim = { s.toSim with frames := s.frames.set v p }
  hand : t.hand = (v + 1) % F
  length : t.refb.length = s.refb.length
  victim : t.refb[v]? = some true
  cleared : ∀ k < d, (s.hand + k) % F ≠ v → t.refb[(s.hand + k) % F]? = some false
  others : ∀ i, i ≠ v → (∀ k < d, i ≠ (s.hand + k) % F) → t.refb[i]? = s.refb[i]?

/-! ## Cyclic distance -/

/-- Counting from the next frame is counting one further from this one. -/
theorem next_add_mod (F hand k : Nat) : ((hand + 1) % F + k) % F = (hand + (k + 1)) % F := by
  rw [Nat.mod_add_mod]
  congr 1
  omega

/-- Less than one round away from the hand stands another frame. -/
theorem add_mod_ne_hand {F hand k : Nat} (hhand : hand < F) (hpos : 0 < k) (hk : k < F) :
    (hand + k) % F ≠ hand := by
  by_cases hlt : hand + k < F
  · rw [Nat.mod_eq_of_lt hlt]
    omega
  · rw [Nat.mod_eq_sub_mod (by omega), Nat.mod_eq_of_lt (by omega)]
    omega

theorem exists_passesOver {F : Nat} {s : ClockState} (hF : 1 ≤ F) (hrefb : s.refb.length = F) :
    ∃ d, PassesOver F s d := by
  have hbit : ∀ k, ∃ b, s.refb[(s.hand + k) % F]? = some b := by
    intro k
    have hlt : (s.hand + k) % F < s.refb.length := by
      rw [hrefb]
      exact Nat.mod_lt _ hF
    exact ⟨_, List.getElem?_eq_getElem hlt⟩
  have hone : ∀ k, s.refb[(s.hand + k) % F]? ≠ some false →
      s.refb[(s.hand + k) % F]? = some true := by
    intro k hne
    obtain ⟨b, hb⟩ := hbit k
    cases b with
    | true => exact hb
    | false => exact absurd hb hne
  by_cases hzero : ∃ k, k < F ∧ s.refb[(s.hand + k) % F]? = some false
  · -- the least distance at which a bit is 0
    classical
    obtain ⟨hlt, hstop⟩ := Nat.find_spec hzero
    refine ⟨Nat.find hzero, hlt.le, ?_, fun _ => hstop⟩
    intro k hk
    apply hone
    intro hfalse
    exact Nat.find_min hzero hk ⟨hk.trans hlt, hfalse⟩
  · refine ⟨F, Nat.le_refl F, ?_, fun h => absurd h (Nat.lt_irrefl F)⟩
    intro k hk
    apply hone
    intro hfalse
    exact hzero ⟨k, hk, hfalse⟩

/-! ## One iteration -/

/-- The state after an iteration that finds bit 1. -/
def ClockState.pass (F : Nat) (s : ClockState) : ClockState :=
  { s with refb := s.refb.set s.hand false, hand := (s.hand + 1) % F }

/-- After passing over one frame there is one fewer to pass over; a hand that
was to go all the way round now stops at the bit just cleared. -/
theorem PassesOver.pass {F : Nat} {s : ClockState} {d : Nat} (h : PassesOver F s (d + 1))
    (hrefb : s.refb.length = F) (hhand : s.hand < F) : PassesOver F (s.pass F) d where
  le := Nat.le_of_succ_le h.le
  passed := by
    intro k hk
    have hless : k + 1 < F := Nat.lt_of_lt_of_le (Nat.succ_lt_succ hk) h.le
    have hne := add_mod_ne_hand hhand (Nat.succ_pos k) hless
    show (s.refb.set s.hand false)[((s.hand + 1) % F + k) % F]? = some true
    rw [next_add_mod, List.getElem?_set_ne hne.symm]
    exact h.passed (k + 1) (Nat.succ_lt_succ hk)
  stops := by
    intro _
    show (s.refb.set s.hand false)[((s.hand + 1) % F + d) % F]? = some false
    rw [next_add_mod]
    by_cases hround : d + 1 < F
    · rw [List.getElem?_set_ne (add_mod_ne_hand hhand (Nat.succ_pos d) hround).symm]
      exact h.stops hround
    · have hback : (s.hand + (d + 1)) % F = s.hand := by
        rw [show d + 1 = F from by have := h.le; omega, Nat.add_mod_right, Nat.mod_eq_of_lt hhand]
      rw [hback, List.getElem?_set_self (by omega)]

/-- The effect of the rest of the search, seen from before the iteration. -/
theorem Swept.of_pass {F : Nat} {p : Int} {s t : ClockState} {d v : Nat}
    (hrefb : s.refb.length = F) (hhand : s.hand < F) (hd : d + 1 ≤ F)
    (h : Swept F p (s.pass F) d v t) : Swept F p s (d + 1) v t where
  sim := h.sim
  hand := h.hand
  length := h.length.trans (List.length_set ..)
  victim := h.victim
  cleared := by
    intro k hk hne
    cases k with
    | zero =>
        -- the frame at the hand was cleared here and is not passed over again
        rw [Nat.add_zero, Nat.mod_eq_of_lt hhand] at hne ⊢
        rw [h.others s.hand hne]
        · exact List.getElem?_set_self (by omega)
        · intro k hk
          show s.hand ≠ ((s.hand + 1) % F + k) % F
          rw [next_add_mod]
          exact (add_mod_ne_hand hhand (Nat.succ_pos k) (by omega)).symm
    | succ k =>
        rw [← next_add_mod] at hne ⊢
        exact h.cleared k (Nat.lt_of_succ_lt_succ hk) hne
  others := by
    intro i hv hi
    have hhere : i ≠ s.hand := by
      have := hi 0 (Nat.succ_pos d)
      rwa [Nat.add_zero, Nat.mod_eq_of_lt hhand] at this
    rw [h.others i hv]
    · exact List.getElem?_set_ne hhere.symm
    · intro k hk
      show i ≠ ((s.hand + 1) % F + k) % F
      rw [next_add_mod]
      exact hi (k + 1) (Nat.succ_lt_succ hk)

/-! ## The whole search -/

theorem getD_of_getElem? {l : List Bool} {i : Nat} {b : Bool} (h : l[i]? = some b) :
    l.getD i false = b := by
  rw [List.getD_eq_getElem?_getD, h, Option.getD_some]

/-- Induction on the number of frames to pass over. -/
theorem clockLoop_swept {F : Nat} (hF : 1 ≤ F) (p : Int) (d : Nat) :
    ∀ s : ClockState, s.refb.length = F → s.hand < F → PassesOver F s d →
      clockLoop F p (d + 1) s = some (clockSweep F p s) ∧
        Swept F p s d ((s.hand + d) % F) (clockSweep F p s) := by
  induction d with
  | zero =>
      intro s hrefb hhand h
      have hhere : (s.hand + 0) % F = s.hand := Nat.mod_eq_of_lt hhand
      have hbit := getD_of_getElem? (hhere ▸ h.stops hF)
      rw [hhere, clockLoop, if_pos hbit, clockSweep, if_neg (by rw [hbit]; decide)]
      refine ⟨rfl, rfl, rfl, List.length_set .., List.getElem?_set_self (by omega), ?_, ?_⟩
      · intro k hk
        exact absurd hk (Nat.not_lt_zero k)
      · intro i hv _
        exact List.getElem?_set_ne hv.symm
  | succ d ih =>
      intro s hrefb hhand h
      have hbit : s.refb.getD s.hand false = true := by
        have := h.passed 0 (Nat.succ_pos d)
        rw [Nat.add_zero, Nat.mod_eq_of_lt hhand] at this
        exact getD_of_getElem? this
      obtain ⟨hloop, hswept⟩ := ih (s.pass F) ((List.length_set ..).trans hrefb)
        (Nat.mod_lt _ hF) (h.pass hrefb hhand)
      rw [clockLoop, if_neg (by rw [hbit]; decide), clockSweep, if_pos hbit]
      refine ⟨hloop, ?_⟩
      have hv : ((s.pass F).hand + d) % F = (s.hand + (d + 1)) % F := next_add_mod F s.hand d
      rw [hv] at hswept
      exact hswept.of_pass hrefb hhand h.le

/-- Further iterations change nothing once the loop has been left. -/
theorem clockLoop_mono {F : Nat} {p : Int} {t : ClockState} {n m : Nat} (hnm : n ≤ m) :
    ∀ s : ClockState, clockLoop F p n s = some t → clockLoop F p m s = some t := by
  induction n generalizing m with
  | zero =>
      intro s h
      simp [clockLoop] at h
  | succ n ih =>
      intro s h
      obtain ⟨m, rfl⟩ : ∃ k, m = k + 1 := ⟨m - 1, by omega⟩
      rw [clockLoop] at h ⊢
      split
      · rwa [if_pos ‹_›] at h
      · rw [if_neg ‹_›] at h
        exact ih (Nat.le_of_succ_le_succ hnm) _ h

/-- **The victim search.** From any bits and any position of the hand the loop
ends within `F + 1` iterations. It replaces the first frame with bit 0 in cyclic
order from the hand, or the frame at the hand when all bits are 1, with the
effect of `Swept`. -/
theorem clock_victim_search {F : Nat} (hF : 1 ≤ F) (p : Int) (s : ClockState)
    (hrefb : s.refb.length = F) (hhand : s.hand < F) :
    ∃ d v, PassesOver F s d ∧ v = (s.hand + d) % F ∧
      ((∀ i < F, s.refb[i]? = some true) → v = s.hand) ∧
      clockLoop F p (F + 1) s = some (clockSweep F p s) ∧
      Swept F p s d v (clockSweep F p s) := by
  obtain ⟨d, hd⟩ := exists_passesOver hF hrefb
  obtain ⟨hloop, hswept⟩ := clockLoop_swept hF p d s hrefb hhand hd
  refine ⟨d, (s.hand + d) % F, hd, rfl, ?_, ?_, hswept⟩
  · intro hones
    have hround : d = F := by
      by_contra hne
      have hlt : d < F := by have := hd.le; omega
      have hzero := hd.stops hlt
      rw [hones _ (Nat.mod_lt _ hF)] at hzero
      simp at hzero
    rw [hround, Nat.add_mod_right, Nat.mod_eq_of_lt hhand]
  · exact clockLoop_mono (Nat.succ_le_succ hd.le) s hloop

/-- Three frames, all bits set, the hand in the middle: a full round. -/
theorem clock_victim_search_round :
    clockLoop 3 9 4 ⟨⟨[5, 6, 7], 3, 3⟩, [true, true, true], 1⟩ =
      some (clockSweep 3 9 ⟨⟨[5, 6, 7], 3, 3⟩, [true, true, true], 1⟩) := by
  obtain ⟨_, _, _, _, _, hloop, _⟩ := clock_victim_search (F := 3) (by decide) 9
    ⟨⟨[5, 6, 7], 3, 3⟩, [true, true, true], 1⟩ rfl (by decide)
  exact hloop

end OsProjects.PageSim
