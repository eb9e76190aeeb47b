import Mathlib.Algebra.BigOperators.Fin
import OsProjects.PairSums.Model

/-!
# What the two programs print

On the file that `numgen` writes, the worker `i` adds `2i + 1` and `2i + 2`. The
threads hand over these sums as they are, so that `thread.c` prints
`1 + 2 + … + 2M`. The processes hand over the low eight bits of them
(`child_eq`): the sum `4i + 3` survives up to `i = 63`, and the programs
print the same total up to 64 workers and never beyond (`forkTotal_eq_iff`).
-/

namespace OsProjects.PairSums

open Lib.Decimal Lib.ForkJoin

variable {M : Nat}

/-! ## The input -/

theorem numberLines_succ (first count : Nat) :
    numberLines first (count + 1) =
      printInt first ++ '\n' :: numberLines (first + 1) count := by
  simp [numberLines, List.range'_succ]

/-- The numbers from 1 to `n`. -/
def firstNumbers (n : Nat) : Vector Int32 n := Vector.ofFn fun i => Int32.ofNat (i + 1)

/-- Some blanks, at most the end of the line that was read last, stand before the
numbers still to be read. -/
theorem readNumbers_numberLines (n count : Nat) :
    ∃ space : List Char, (∀ c ∈ space, isSpace c = true) ∧
      readNumbers (numberLines 1 (n + count)) n =
        some (firstNumbers n, space ++ numberLines (n + 1) count) := by
  induction n generalizing count with
  | zero => exact ⟨[], by simp, by simp [readNumbers]⟩
  | succ n ih =>
      obtain ⟨space, hspace, hread⟩ := ih (count + 1)
      have hscan : scanInt (space ++ numberLines (n + 1) (count + 1)) =
          some (((n + 1 : Nat) : Int), '\n' :: numberLines (n + 1 + 1) count) := by
        rw [scanInt_skip hspace, numberLines_succ]
        apply scanInt_printInt
        rfl
      refine ⟨['\n'], by simp [isSpace], ?_⟩
      rw [Nat.add_right_comm n 1 count, Nat.add_assoc n count 1, readNumbers, hread]
      simp only [hscan]
      rw [Int32.ofInt_eq_ofNat, firstNumbers, firstNumbers, Vector.ofFn_succ]
      rfl

theorem readInput_numgen (M : Nat) :
    readInput M (numgen M) = some (firstNumbers (2 * M)) := by
  obtain ⟨space, -, hread⟩ := readNumbers_numberLines (2 * M) 0
  rw [Nat.add_zero] at hread
  rw [readInput, numgen, Nat.mul_comm M 2, hread]
  rfl

/-! ## The parts -/

/-- The pair of the worker `i`. -/
theorem taskOf_numgen (i : Fin M) :
    taskOf (firstNumbers (2 * M)) i =
      ⟨Int32.ofNat (2 * i + 1), Int32.ofNat (2 * i + 2)⟩ := by
  simp only [taskOf, firstNumbers, Vector.getElem_ofFn]

theorem worker_numgen (i : Fin M) :
    worker (taskOf (firstNumbers (2 * M)) i) = Int32.ofNat (4 * i + 3) := by
  rw [taskOf_numgen]
  show Int32.ofNat (2 * i + 1) + Int32.ofNat (2 * i + 2) = _
  rw [← Int32.ofNat_add]
  congr 1
  omega

/-- A child hands over its sum modulo 256. -/
theorem child_eq (nums : Vector Int32 (2 * M)) (i : Fin M) :
    (child nums i).toNat = (worker (taskOf nums i)).toBitVec.toNat % 256 := by
  show (exitStatus (worker (taskOf nums i) &&& 0xFF)).toNat = _
  generalize worker (taskOf nums i) = partSum
  have hmask : (partSum &&& 0xFF).toBitVec.toNat = partSum.toBitVec.toNat % 2 ^ 8 := by
    rw [Int32.toBitVec_and, BitVec.toNat_and, ← Nat.and_two_pow_sub_one_eq_mod]
    rfl
  rw [exitStatus, UInt8.toNat_ofBitVec, BitVec.toNat_setWidth, hmask]
  omega

theorem child_numgen (i : Fin M) :
    (child (firstNumbers (2 * M)) i).toNat = (4 * i + 3) % 256 := by
  rw [child_eq, worker_numgen, Int32.toBitVec_ofNat', BitVec.toNat_ofNat]
  omega

/-! ## The totals -/

/-- The parent adds up the parts. -/
theorem collected_eq_sum {Mem Arg Res : Type} {prog : Program M Mem Arg Res Int32}
    {result : Fin M → Res} (part : Nat → Nat)
    (hpart : ∀ total i, prog.collect total (result i) = total + Int32.ofNat (part i)) :
    collected prog result 0 M = Int32.ofNat (∑ i ∈ Finset.range M, part i) := by
  have hrun : ∀ j ≤ M, collected prog result 0 j = Int32.ofNat (∑ i ∈ Finset.range j, part i) := by
    intro j hj
    induction j with
    | zero => rfl
    | succ j ih =>
        rw [collected_succ hj, ih (Nat.le_of_succ_le hj), hpart, Finset.sum_range_succ,
          Int32.ofNat_add]
  exact hrun M le_rfl

/-- The children share nothing. -/
theorem forkMain_separated (nums : Vector Int32 (2 * M)) :
    Separated (forkMain nums) () (child nums) :=
  fun _ _ _ => rfl

/-- A task is written before its thread is created and not again. -/
theorem memAfter_threadMain (nums : Vector Int32 (2 * M)) (tasks : Fin M → Task) (i : Fin M)
    (c : Nat) (hc : i.val < c) : memAfter (threadMain nums) tasks c i = taskOf nums i := by
  induction c with
  | zero => exact absurd hc (Nat.not_lt_zero _)
  | succ c ih =>
      rw [memAfter]
      split
      · rename_i hlt
        show Function.update (memAfter (threadMain nums) tasks c) ⟨c, hlt⟩ _ i = _
        by_cases hi : i = ⟨c, hlt⟩
        · rw [hi, Function.update_self]
        · have hne : i.val ≠ c := fun heq => hi (Fin.ext heq)
          rw [Function.update_of_ne hi]
          exact ih (by omega)
      · exact ih (by omega)

theorem threadMain_separated (nums : Vector Int32 (2 * M)) (tasks : Fin M → Task) :
    Separated (threadMain nums) tasks fun i => worker (taskOf nums i) := by
  intro i c hc
  show worker (memAfter (threadMain nums) tasks c i) = _
  rw [memAfter_threadMain nums tasks i c hc]

/-- The sum of the exit statuses. -/
def forkTotal (M : Nat) : Nat := ∑ i ∈ Finset.range M, (4 * i + 3) % 256

def threadTotal (M : Nat) : Nat := ∑ i ∈ Finset.range M, (4 * i + 3)

theorem threadTotal_eq (M : Nat) : threadTotal M = M * (2 * M + 1) := by
  unfold threadTotal
  induction M with
  | zero => rfl
  | succ M ih =>
      rw [Finset.sum_range_succ, ih]
      ring

theorem forkTotal_le (M : Nat) : forkTotal M ≤ threadTotal M :=
  Finset.sum_le_sum fun _ _ => Nat.mod_le _ _

/-- The sum of the worker 64 is the first that does not fit. -/
theorem forkTotal_eq_iff (M : Nat) : forkTotal M = threadTotal M ↔ M ≤ 64 := by
  constructor
  · intro heq
    by_contra hlarge
    have hlt : forkTotal M < threadTotal M := by
      apply Finset.sum_lt_sum (fun _ _ => Nat.mod_le _ _)
      exact ⟨64, Finset.mem_range.mpr (by omega), by decide⟩
    omega
  · intro hM
    apply Finset.sum_congr rfl
    intro i hi
    have hlt := Finset.mem_range.mp hi
    exact Nat.mod_eq_of_lt (by omega)

theorem forkPrints_numgen (M : Nat) :
    ForkPrints M (numgen M) (Int32.ofNat (forkTotal M)) := by
  refine ⟨_, readInput_numgen M, ?_⟩
  have hends := always_ends (forkMain_separated (firstNumbers (2 * M))) 0
  rw [collected_eq_sum fun i => (4 * i + 3) % 256] at hends
  · exact hends
  · intro total i
    show total + wExitStatus (child _ i) = _
    rw [wExitStatus, child_numgen]

theorem threadPrints_numgen (M : Nat) :
    ThreadPrints M (numgen M) (Int32.ofNat (threadTotal M)) := by
  refine ⟨_, readInput_numgen M, fun tasks => ?_⟩
  have hends := always_ends (threadMain_separated (firstNumbers (2 * M)) tasks) 0
  rw [collected_eq_sum fun i => 4 * i + 3] at hends
  · exact hends
  · intro total i
    show total + worker _ = _
    rw [worker_numgen]

/-- Executions that always end with a total do so with one total. -/
theorem total_unique {Mem Arg Res : Type} {prog : Program M Mem Arg Res Int32}
    {s : State M Mem Arg Res Int32} {total total' : Int32}
    (h : AlwaysEndsIn (Step prog) (fun s => s.joined = M ∧ s.total = total) s)
    (h' : AlwaysEndsIn (Step prog) (fun s => s.joined = M ∧ s.total = total') s) :
    total = total' := by
  obtain ⟨t, ⟨-, htotal⟩, -, htotal'⟩ := h.exists_both h'
  exact htotal.symm.trans htotal'

theorem ForkPrints.unique {file : List Char} {total total' : Int32}
    (h : ForkPrints M file total) (h' : ForkPrints M file total') : total = total' := by
  obtain ⟨nums, hread, hends⟩ := h
  obtain ⟨nums', hread', hends'⟩ := h'
  obtain rfl := Option.some.inj (hread.symm.trans hread')
  exact total_unique hends hends'

theorem ThreadPrints.unique {file : List Char} {total total' : Int32}
    (h : ThreadPrints M file total) (h' : ThreadPrints M file total') : total = total' := by
  obtain ⟨nums, hread, hends⟩ := h
  obtain ⟨nums', hread', hends'⟩ := h'
  obtain rfl := Option.some.inj (hread.symm.trans hread')
  exact total_unique (hends (taskOf nums)) (hends' (taskOf nums))

/-- As `int`, the totals are equal only if the sums are. -/
theorem ofNat_forkTotal_eq_iff (hfit : M * (2 * M + 1) < 2 ^ 31) :
    Int32.ofNat (forkTotal M) = Int32.ofNat (threadTotal M) ↔ M ≤ 64 := by
  rw [← forkTotal_eq_iff]
  constructor
  · intro heq
    have hint := congrArg Int32.toInt heq
    rw [← threadTotal_eq] at hfit
    rw [Int32.toInt_ofNat_of_lt (lt_of_le_of_lt (forkTotal_le M) hfit),
      Int32.toInt_ofNat_of_lt hfit] at hint
    exact Int.ofNat.inj hint
  · intro heq
    rw [heq]

/-- **The two programs.** `thread.c` prints the sum of the numbers in the file, and
`fork.c` the sum of the exit statuses; the totals agree up to 64 workers. -/
theorem fork_thread_totals (M : Nat) (hfit : M * (2 * M + 1) < 2 ^ 31) :
    ∃ fork thread : Int32, ForkPrints M (numgen M) fork ∧ ThreadPrints M (numgen M) thread ∧
      thread.toInt = M * (2 * M + 1) ∧
      fork.toInt = ∑ i ∈ Finset.range M, ((4 * i + 3) % 256 : Int) ∧
      (fork = thread ↔ M ≤ 64) := by
  have hthread : threadTotal M < 2 ^ 31 := by rwa [threadTotal_eq]
  have hfork : forkTotal M < 2 ^ 31 := lt_of_le_of_lt (forkTotal_le M) hthread
  refine ⟨_, _, forkPrints_numgen M, threadPrints_numgen M, ?_, ?_, ofNat_forkTotal_eq_iff hfit⟩
  · rw [Int32.toInt_ofNat_of_lt hthread, threadTotal_eq]
    push_cast
    rfl
  · rw [Int32.toInt_ofNat_of_lt hfork, forkTotal]
    push_cast
    rfl

theorem fork_thread_totals_eight :
    ∃ fork thread : Int32, ForkPrints 8 (numgen 8) fork ∧ ThreadPrints 8 (numgen 8) thread ∧
      thread.toInt = 136 ∧ fork = thread := by
  obtain ⟨fork, thread, hfork, hthread, htotal, -, hagree⟩ := fork_thread_totals 8 (by decide)
  exact ⟨fork, thread, hfork, hthread, htotal, hagree.mpr (by decide)⟩

/-- With 65 workers the last sum is 259, and its exit status 3. -/
theorem fork_thread_differ :
    65 * (2 * 65 + 1) < 2 ^ 31 ∧
      ¬ ∃ total, ForkPrints 65 (numgen 65) total ∧ ThreadPrints 65 (numgen 65) total := by
  refine ⟨by decide, ?_⟩
  rintro ⟨total, hfork, hthread⟩
  have heq : Int32.ofNat (forkTotal 65) = Int32.ofNat (threadTotal 65) :=
    ((forkPrints_numgen 65).unique hfork).trans (hthread.unique (threadPrints_numgen 65))
  have hle : 65 ≤ 64 := (ofNat_forkTotal_eq_iff (by decide)).mp heq
  exact absurd hle (by decide)

end OsProjects.PairSums
