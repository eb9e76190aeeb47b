import OsProjects.PairSums.Totals

/-!
# The two programs on any input

On every file that `read_input` accepts, however the workers are scheduled: `thread.c`
prints the sum of the numbers that were read, and `fork.c` loses of every pair what does
not fit into the exit status. What is lost decides whether the totals agree
(`totals_agree_iff`).
-/

namespace OsProjects.PairSums

open Lib.Decimal Lib.ForkJoin

variable {M : Nat}

/-- The sum of pair `i`, as the bits of an `int`. -/
def pairSum (nums : Vector Int32 (2 * M)) (i : Fin M) : Nat :=
  (worker (taskOf nums i)).toBitVec.toNat

theorem ofNat_pairSum (nums : Vector Int32 (2 * M)) (i : Fin M) :
    Int32.ofNat (pairSum nums i) = worker (taskOf nums i) := by
  apply Int32.toBitVec_inj.mp
  rw [Int32.toBitVec_ofNat', pairSum, BitVec.ofNat_toNat, BitVec.setWidth_eq]

/-- What the parent adds up, worker by worker. -/
theorem collected_eq_sum_fin {Mem Arg Res : Type} {prog : Program M Mem Arg Res Int32}
    {result : Fin M → Res} (part : Fin M → Nat)
    (hpart : ∀ total i, prog.collect total (result i) = total + Int32.ofNat (part i)) :
    collected prog result 0 M = Int32.ofNat (∑ i, part i) := by
  rw [collected_eq_sum fun i => if h : i < M then part ⟨i, h⟩ else 0]
  · rw [← Fin.sum_univ_eq_sum_range]
    congr 1
    exact Finset.sum_congr rfl fun i _ => dif_pos i.isLt
  · intro total i
    rw [hpart, dif_pos i.isLt]

theorem forkPrints_sum {file : List Char} {nums : Vector Int32 (2 * M)}
    (hread : readInput M file = some nums) :
    ForkPrints M file (Int32.ofNat (∑ i, pairSum nums i % 256)) := by
  refine ⟨nums, hread, ?_⟩
  have hends := always_ends (forkMain_separated nums) 0
  rw [collected_eq_sum_fin fun i => pairSum nums i % 256] at hends
  · exact hends
  · intro total i
    show total + wExitStatus (child nums i) = _
    rw [wExitStatus, child_eq, pairSum]

theorem threadPrints_sum {file : List Char} {nums : Vector Int32 (2 * M)}
    (hread : readInput M file = some nums) :
    ThreadPrints M file (Int32.ofNat (∑ i, pairSum nums i)) := by
  refine ⟨nums, hread, fun tasks => ?_⟩
  have hends := always_ends (threadMain_separated nums tasks) 0
  rw [collected_eq_sum_fin (pairSum nums)] at hends
  · exact hends
  · intro total i
    show total + worker _ = _
    rw [ofNat_pairSum]

/-- Of every sum the exit status keeps the low byte. -/
theorem ofNat_sum_mod_iff {ι : Type} (s : Finset ι) (part : ι → Nat) :
    Int32.ofNat (∑ i ∈ s, part i % 256) = Int32.ofNat (∑ i ∈ s, part i) ↔
      2 ^ 24 ∣ ∑ i ∈ s, part i / 256 := by
  have hsplit : ∑ i ∈ s, part i = 256 * (∑ i ∈ s, part i / 256) + ∑ i ∈ s, part i % 256 := by
    rw [Finset.mul_sum, ← Finset.sum_add_distrib]
    exact Finset.sum_congr rfl fun i _ => (Nat.div_add_mod (part i) 256).symm
  rw [hsplit, ← Int32.toBitVec_inj, Int32.toBitVec_ofNat', Int32.toBitVec_ofNat',
    ← BitVec.toNat_inj, BitVec.toNat_ofNat, BitVec.toNat_ofNat]
  omega

/-! ## The sum of the numbers -/

theorem ofInt_sum_congr {ι : Type} (s : Finset ι) {f g : ι → Int}
    (h : ∀ i ∈ s, Int32.ofInt (f i) = Int32.ofInt (g i)) :
    Int32.ofInt (∑ i ∈ s, f i) = Int32.ofInt (∑ i ∈ s, g i) := by
  classical
  induction s using Finset.induction_on with
  | empty => rfl
  | insert a s hnew ih =>
      obtain ⟨ha, hs⟩ := (Finset.forall_mem_insert _ _ _).mp h
      rw [Finset.sum_insert hnew, Finset.sum_insert hnew, Int32.ofInt_add, Int32.ofInt_add, ha,
        ih hs]

theorem sum_pairs (f : Nat → Int) (M : Nat) :
    ∑ j ∈ Finset.range (2 * M), f j = ∑ i ∈ Finset.range M, (f (2 * i) + f (2 * i + 1)) := by
  induction M with
  | zero => rfl
  | succ M ih =>
      rw [Nat.mul_succ, Finset.sum_range_succ, Finset.sum_range_succ, ih, Finset.sum_range_succ,
        add_assoc]

theorem first_lt (i : Fin M) : 2 * i.val < 2 * M := by omega

theorem second_lt (i : Fin M) : 2 * i.val + 1 < 2 * M := by omega

theorem sum_pairs_fin (f : Fin (2 * M) → Int) :
    ∑ j, f j = ∑ i : Fin M, (f ⟨2 * i.val, first_lt i⟩ + f ⟨2 * i.val + 1, second_lt i⟩) := by
  have hsum := sum_pairs (fun j => if h : j < 2 * M then f ⟨j, h⟩ else 0) M
  rw [← Fin.sum_univ_eq_sum_range, ← Fin.sum_univ_eq_sum_range] at hsum
  refine Eq.trans ?_ (hsum.trans ?_)
  · exact Finset.sum_congr rfl fun j _ => by rw [dif_pos j.isLt]
  · refine Finset.sum_congr rfl fun i _ => ?_
    rw [dif_pos (first_lt i), dif_pos (second_lt i)]

theorem ofNat_sum_pairSum (nums : Vector Int32 (2 * M)) :
    Int32.ofNat (∑ i, pairSum nums i) = Int32.ofInt (∑ j : Fin (2 * M), nums[j].toInt) := by
  rw [sum_pairs_fin, ← Int32.ofInt_eq_ofNat, Nat.cast_sum]
  apply ofInt_sum_congr
  intro i _
  rw [Int32.ofInt_eq_ofNat, ofNat_pairSum, Int32.ofInt_add, Int32.ofInt_toInt, Int32.ofInt_toInt]
  rfl

/-- **Any input.** On a file from which both programs read their numbers, in every
execution, `thread.c` prints the sum of the numbers, wrapped to an `int`, and `fork.c` the
sum of the low bytes of the pair sums. The two agree exactly when what the exit statuses
cut off, the pair sums without their low bytes, adds up to a multiple of 2³². -/
theorem totals_agree_iff {file : List Char} {nums : Vector Int32 (2 * M)}
    (hread : readInput M file = some nums) :
    ∃ fork thread : Int32, ForkPrints M file fork ∧ ThreadPrints M file thread ∧
      thread = Int32.ofInt (∑ j : Fin (2 * M), nums[j].toInt) ∧
      fork = Int32.ofNat (∑ i, pairSum nums i % 256) ∧
      (fork = thread ↔ 2 ^ 24 ∣ ∑ i, pairSum nums i / 256) := by
  refine ⟨_, _, forkPrints_sum hread, threadPrints_sum hread, ofNat_sum_pairSum nums, rfl, ?_⟩
  exact ofNat_sum_mod_iff Finset.univ (pairSum nums)

/-- Two workers, and pair sums of 256 and -256: what is cut off cancels out. -/
theorem totals_agree_cancel :
    ∃ fork thread : Int32, ForkPrints 2 "256 0 -256 0".toList fork ∧
      ThreadPrints 2 "256 0 -256 0".toList thread ∧
      thread = Int32.ofInt (∑ j : Fin 4, #v[(256 : Int32), 0, -256, 0][j].toInt) ∧
      fork = Int32.ofNat (∑ i, pairSum (M := 2) #v[256, 0, -256, 0] i % 256) ∧
      fork = thread := by
  have hread : readInput 2 "256 0 -256 0".toList = some #v[256, 0, -256, 0] := by decide +kernel
  obtain ⟨fork, thread, hfork, hthread, htotal, hbytes, hagree⟩ := totals_agree_iff hread
  exact ⟨fork, thread, hfork, hthread, htotal, hbytes, hagree.mpr (by decide +kernel)⟩

end OsProjects.PairSums
