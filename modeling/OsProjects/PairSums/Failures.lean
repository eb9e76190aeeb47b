import OsProjects.PairSums.Totals

/-!
# Calls that fail

`main` of `fork.c` and of `thread.c` with the failures of the calls they make: either
everything succeeds, and the total of `PairSums.Totals` is printed once all workers have
been waited for, or nothing is printed but a message (`fork_all_or_nothing`,
`thread_all_or_nothing`). The one check that is missing is that of `malloc` in `worker`,
which ends `thread.c` by a null pointer.

The message of `perror` is given without the text for `errno`.
-/

namespace OsProjects.PairSums

open Lib.Decimal Lib.ForkJoin

variable {M : Nat}

inductive Message
  | perror (s : String)
  | text (s : String)
  deriving DecidableEq, Repr

/-- How a program ends: what it returns, what it writes to `stderr`, the total it prints,
and how many workers it has created and waited for. -/
structure Exit where
  code : Int
  err : List Message
  printed : Option Int32
  created : Nat
  joined : Nat
  deriving DecidableEq, Repr

/-! ## The two programs -/

/-- `read_input` and its check in `main`; `none` is a file that cannot be opened. -/
def readFile (M : Nat) : Option (List Char) → Except (List Message) (Vector Int32 (2 * M))
  | none => .error [.perror "can't open temp.txt", .text "input read error(pos : main() )\n"]
  | some chars =>
      match readInput M chars with
      | none => .error [.text "input read error(pos : main() )\n"]
      | some nums => .ok nums

/-- A worker whose result is not obtained; it may have been waited for all the same. -/
structure JoinError where
  message : Message
  waited : Bool

/-- The second loop. -/
def joinLoop (join : Fin M → Except JoinError Int32) :
    List (Fin M) → Int32 → Nat → Except (Message × Nat) (Int32 × Nat)
  | [], total, joined => .ok (total, joined)
  | i :: rest, total, joined =>
      match join i with
      | .ok part => joinLoop join rest (total + part) (joined + 1)
      | .error e => .error (e.message, if e.waited then joined + 1 else joined)

/-- `main`, after the input is read. -/
def parent (create : Fin M → Bool) (createError : Message)
    (join : Fin M → Except JoinError Int32) : Exit :=
  match (List.finRange M).find? fun i => !create i with
  | some i => ⟨1, [createError], none, i, 0⟩
  | none =>
      match joinLoop join (List.finRange M) 0 0 with
      | .error (message, joined) => ⟨1, [message], none, M, joined⟩
      | .ok (total, joined) => ⟨0, [], some total, M, joined⟩

/-- Which calls of `fork.c` succeed, and which children end by a signal. -/
structure ForkCalls (M : Nat) where
  fork : Fin M → Bool
  waitpid : Fin M → Bool
  killed : Fin M → Bool

/-- `waitpid` for the child `i`, and what is made of its status. -/
def waitChild (nums : Vector Int32 (2 * M)) (calls : ForkCalls M) (i : Fin M) :
    Except JoinError Int32 :=
  if calls.waitpid i = false then .error ⟨.perror "waitpid", false⟩
  else if calls.killed i then
    .error ⟨.text ("child " ++ toString i.val ++ " abnormal\n"), true⟩
  else .ok (wExitStatus (child nums i))

/-- `fork.c`. -/
def forkProgram (file : Option (List Char)) (calls : ForkCalls M) : Exit :=
  match readFile M file with
  | .error err => ⟨1, err, none, 0, 0⟩
  | .ok nums => parent calls.fork (.perror "fork error") (waitChild nums calls)

/-- Which calls of `thread.c` succeed, and which threads get to run before a `main` that
does not join them returns. -/
structure ThreadCalls (M : Nat) where
  pthreadCreate : Fin M → Bool
  pthreadJoin : Fin M → Bool
  malloc : Fin M → Bool
  early : Fin M → Bool

def joinThread (nums : Vector Int32 (2 * M)) (calls : ThreadCalls M) (i : Fin M) :
    Except JoinError Int32 :=
  if calls.pthreadJoin i = false then .error ⟨.perror "pthread_join", false⟩
  else .ok (worker (taskOf nums i))

/-- A thread that runs writes through a null pointer. -/
def Crashes (calls : ThreadCalls M) (e : Exit) : Prop :=
  ∃ i : Fin M, i.val < e.created ∧ (i.val < e.joined ∨ calls.early i = true) ∧
    calls.malloc i = false

instance (calls : ThreadCalls M) (e : Exit) : Decidable (Crashes calls e) :=
  inferInstanceAs (Decidable (∃ _ : Fin M, _))

/-- `thread.c`; `none` is the end by a signal. -/
def threadProgram (file : Option (List Char)) (calls : ThreadCalls M) : Option Exit :=
  match readFile M file with
  | .error err => some ⟨1, err, none, 0, 0⟩
  | .ok nums =>
      let e := parent calls.pthreadCreate (.perror "pthread create") (joinThread nums calls)
      if Crashes calls e then none else some e

/-! ## The loops -/

/-- All results are obtained. -/
theorem joinLoop_ok {join : Fin M → Except JoinError Int32} {part : Fin M → Int32}
    (h : ∀ i, join i = .ok (part i)) (is : List (Fin M)) (total : Int32) (joined : Nat) :
    joinLoop join is total joined =
      .ok (is.foldl (fun total i => total + part i) total, joined + is.length) := by
  induction is generalizing total joined with
  | nil => rfl
  | cons i is ih =>
      rw [joinLoop, h i]
      dsimp only
      rw [ih, List.foldl_cons, List.length_cons, Nat.add_assoc, Nat.add_comm 1]

/-- One is not. -/
theorem joinLoop_error {join : Fin M → Except JoinError Int32} {is : List (Fin M)}
    (h : ∃ i ∈ is, ∃ e, join i = .error e) (total : Int32) (joined : Nat) :
    ∃ message n, joinLoop join is total joined = .error (message, n) ∧
      n ≤ joined + is.length := by
  induction is generalizing total joined with
  | nil =>
      obtain ⟨i, hi, -⟩ := h
      cases hi
  | cons i is ih =>
      rw [joinLoop, List.length_cons]
      cases hjoin : join i with
      | error e =>
          refine ⟨_, _, rfl, ?_⟩
          split <;> omega
      | ok part =>
          -- the failure is further on
          have hrest : ∃ i ∈ is, ∃ e, join i = .error e := by
            obtain ⟨j, hj, e, he⟩ := h
            rcases List.mem_cons.mp hj with rfl | hj
            · rw [hjoin] at he
              cases he
            · exact ⟨j, hj, e, he⟩
          obtain ⟨message, n, hloop, hn⟩ := ih hrest (total + part) (joined + 1)
          exact ⟨message, n, hloop, by omega⟩

section Parent

variable {create : Fin M → Bool} {createError : Message}
  {join : Fin M → Except JoinError Int32}

theorem parent_ok {part : Fin M → Int32} (hcreate : ∀ i, create i = true)
    (hjoin : ∀ i, join i = .ok (part i)) :
    parent create createError join =
      ⟨0, [], some ((List.finRange M).foldl (fun total i => total + part i) 0), M, M⟩ := by
  have hnone : ((List.finRange M).find? fun i => !create i) = none := by
    rw [List.find?_eq_none]
    intro i _
    simp [hcreate i]
  rw [parent, hnone]
  dsimp only
  rw [joinLoop_ok hjoin]
  simp

theorem parent_failed (h : (∃ i, create i = false) ∨ ∃ i e, join i = .error e) :
    ∃ message created joined, joined ≤ created ∧
      parent create createError join = ⟨1, [message], none, created, joined⟩ := by
  rw [parent]
  cases hfind : (List.finRange M).find? fun i => !create i with
  | some i => exact ⟨createError, i, 0, Nat.zero_le _, rfl⟩
  | none =>
      -- every worker is created, so it is a join that fails
      have hjoin : ∃ i ∈ List.finRange M, ∃ e, join i = .error e := by
        rcases h with ⟨i, hi⟩ | ⟨i, e, he⟩
        · rw [List.find?_eq_none] at hfind
          exact absurd hi (by simpa using hfind i (List.mem_finRange i))
        · exact ⟨i, List.mem_finRange i, e, he⟩
      obtain ⟨message, n, hloop, hn⟩ := joinLoop_error hjoin 0 0
      rw [List.length_finRange, Nat.zero_add] at hn
      exact ⟨message, M, n, hn, by rw [hloop]⟩

end Parent

/-! ## All or nothing -/

/-- The numbers can be read. -/
def Readable (M : Nat) (file : Option (List Char)) : Prop :=
  ∃ nums, file.bind (readInput M) = some nums

theorem readFile_ok {file : Option (List Char)} {nums : Vector Int32 (2 * M)}
    (h : file.bind (readInput M) = some nums) : readFile M file = .ok nums := by
  obtain ⟨chars, rfl, hread⟩ := Option.bind_eq_some_iff.mp h
  rw [readFile, hread]

theorem readFile_error {file : Option (List Char)} (h : ¬ Readable M file) :
    ∃ err, err ≠ [] ∧ readFile M file = .error err := by
  cases file with
  | none => exact ⟨_, by simp, rfl⟩
  | some chars =>
      cases hread : readInput M chars with
      | none =>
          refine ⟨[.text "input read error(pos : main() )\n"], by simp, ?_⟩
          rw [readFile, hread]
      | some nums => exact absurd ⟨nums, hread⟩ h

/-- A total printed when nothing fails is that of every execution of the workers. -/
theorem forkPrints_foldl {chars : List Char} {nums : Vector Int32 (2 * M)}
    (hread : readInput M chars = some nums) :
    ForkPrints M chars
      ((List.finRange M).foldl (fun total i => total + wExitStatus (child nums i)) 0) := by
  refine ⟨nums, hread, ?_⟩
  have hends := always_ends (forkMain_separated nums) 0
  rwa [collected, List.take_of_length_le (by simp)] at hends

theorem threadPrints_foldl {chars : List Char} {nums : Vector Int32 (2 * M)}
    (hread : readInput M chars = some nums) :
    ThreadPrints M chars
      ((List.finRange M).foldl (fun total i => total + worker (taskOf nums i)) 0) := by
  refine ⟨nums, hread, fun tasks => ?_⟩
  have hends := always_ends (threadMain_separated nums tasks) 0
  rwa [collected, List.take_of_length_le (by simp)] at hends

def ForkCalls.Succeed (calls : ForkCalls M) : Prop :=
  ∀ i, calls.fork i = true ∧ calls.waitpid i = true ∧ calls.killed i = false

theorem ForkCalls.Succeed.wait {calls : ForkCalls M} (h : calls.Succeed)
    (nums : Vector Int32 (2 * M)) (i : Fin M) :
    waitChild nums calls i = .ok (wExitStatus (child nums i)) := by
  simp [waitChild, (h i).2.1, (h i).2.2]

theorem ForkCalls.fails {calls : ForkCalls M} (h : ¬ calls.Succeed)
    (nums : Vector Int32 (2 * M)) :
    (∃ i, calls.fork i = false) ∨ ∃ i e, waitChild nums calls i = .error e := by
  obtain ⟨i, hi⟩ := not_forall.mp h
  cases hfork : calls.fork i with
  | false => exact Or.inl ⟨i, hfork⟩
  | true =>
      refine Or.inr ⟨i, ?_⟩
      unfold waitChild
      split_ifs with hwait hkilled
      · exact ⟨_, rfl⟩
      · exact ⟨_, rfl⟩
      · exact absurd ⟨hfork, by simpa using hwait, by simpa using hkilled⟩ hi

/-- **`fork.c`, all or nothing.** If the file can be read, no call fails and no child is
killed, the total is printed and every child has been waited for. In every other case
there is a message and no total, and the program returns 1. -/
theorem fork_all_or_nothing (file : Option (List Char)) (calls : ForkCalls M) :
    (Readable M file ∧ calls.Succeed ∧ ∃ chars total, file = some chars ∧
        ForkPrints M chars total ∧ forkProgram file calls = ⟨0, [], some total, M, M⟩) ∨
      (¬ (Readable M file ∧ calls.Succeed) ∧ ∃ err created joined, err ≠ [] ∧
        joined ≤ created ∧ forkProgram file calls = ⟨1, err, none, created, joined⟩) := by
  by_cases hreadable : Readable M file
  · obtain ⟨nums, hnums⟩ := hreadable
    have hprogram : forkProgram file calls =
        parent calls.fork (.perror "fork error") (waitChild nums calls) := by
      rw [forkProgram, readFile_ok hnums]
    by_cases hcalls : calls.Succeed
    · obtain ⟨chars, hfile, hread⟩ := Option.bind_eq_some_iff.mp hnums
      refine Or.inl ⟨⟨nums, hnums⟩, hcalls, chars, _, hfile, forkPrints_foldl hread, ?_⟩
      exact hprogram.trans (parent_ok (fun i => (hcalls i).1) (hcalls.wait nums))
    · refine Or.inr ⟨fun hboth => hcalls hboth.2, ?_⟩
      obtain ⟨message, created, joined, hle, heq⟩ := parent_failed (ForkCalls.fails hcalls nums)
      exact ⟨[message], created, joined, by simp, hle, hprogram.trans heq⟩
  · obtain ⟨err, hne, herr⟩ := readFile_error hreadable
    refine Or.inr ⟨fun hboth => hreadable hboth.1, err, 0, 0, hne, le_rfl, ?_⟩
    rw [forkProgram, herr]

def ThreadCalls.Succeed (calls : ThreadCalls M) : Prop :=
  ∀ i, calls.pthreadCreate i = true ∧ calls.pthreadJoin i = true

theorem ThreadCalls.Succeed.join {calls : ThreadCalls M} (h : calls.Succeed)
    (nums : Vector Int32 (2 * M)) (i : Fin M) :
    joinThread nums calls i = .ok (worker (taskOf nums i)) := by
  simp [joinThread, (h i).2]

theorem ThreadCalls.fails {calls : ThreadCalls M} (h : ¬ calls.Succeed)
    (nums : Vector Int32 (2 * M)) :
    (∃ i, calls.pthreadCreate i = false) ∨ ∃ i e, joinThread nums calls i = .error e := by
  obtain ⟨i, hi⟩ := not_forall.mp h
  cases hcreate : calls.pthreadCreate i with
  | false => exact Or.inl ⟨i, hcreate⟩
  | true =>
      refine Or.inr ⟨i, ?_⟩
      unfold joinThread
      split_ifs with hjoin
      · exact ⟨_, rfl⟩
      · exact absurd ⟨hcreate, by simpa using hjoin⟩ hi

/-- **`thread.c`, all or nothing.** As for `fork.c`, except that a failure of `malloc` in
some thread can also end the program by a signal. -/
theorem thread_all_or_nothing (file : Option (List Char)) (calls : ThreadCalls M) :
    (Readable M file ∧ calls.Succeed ∧ (∀ i, calls.malloc i = true) ∧
        ∃ chars total, file = some chars ∧ ThreadPrints M chars total ∧
          threadProgram file calls = some ⟨0, [], some total, M, M⟩) ∨
      (¬ (Readable M file ∧ calls.Succeed) ∧ ∃ err created joined, err ≠ [] ∧
        joined ≤ created ∧ threadProgram file calls = some ⟨1, err, none, created, joined⟩) ∨
      (Readable M file ∧ (∃ i, calls.malloc i = false) ∧ threadProgram file calls = none) := by
  by_cases hreadable : Readable M file
  · obtain ⟨nums, hnums⟩ := hreadable
    have hprogram : ∀ {e}, parent calls.pthreadCreate (.perror "pthread create")
        (joinThread nums calls) = e →
          threadProgram file calls = if Crashes calls e then none else some e := by
      rintro e rfl
      rw [threadProgram, readFile_ok hnums]
    by_cases hcalls : calls.Succeed
    · have hparent := hprogram (parent_ok (fun i => (hcalls i).1) (hcalls.join nums))
      by_cases hmalloc : ∀ i, calls.malloc i = true
      · obtain ⟨chars, hfile, hread⟩ := Option.bind_eq_some_iff.mp hnums
        refine Or.inl ⟨⟨nums, hnums⟩, hcalls, hmalloc, chars, _, hfile,
          threadPrints_foldl hread, ?_⟩
        rw [hparent, if_neg]
        rintro ⟨i, -, -, hi⟩
        rw [hmalloc i] at hi
        cases hi
      · -- every thread is joined, so the one that gets no memory has run
        obtain ⟨i, hi⟩ := not_forall.mp hmalloc
        rw [Bool.not_eq_true] at hi
        refine Or.inr (Or.inr ⟨⟨nums, hnums⟩, ⟨i, hi⟩, ?_⟩)
        rw [hparent, if_pos]
        exact ⟨i, i.isLt, Or.inl i.isLt, hi⟩
    · obtain ⟨message, created, joined, hle, heq⟩ := parent_failed (ThreadCalls.fails hcalls nums)
      have hparent := hprogram heq
      split_ifs at hparent with hcrash
      · obtain ⟨i, -, -, hi⟩ := hcrash
        exact Or.inr (Or.inr ⟨⟨nums, hnums⟩, ⟨i, hi⟩, hparent⟩)
      · exact Or.inr (Or.inl ⟨fun hboth => hcalls hboth.2, [message], created, joined, by simp,
          hle, hparent⟩)
  · obtain ⟨err, hne, herr⟩ := readFile_error hreadable
    refine Or.inr (Or.inl ⟨fun hboth => hreadable hboth.1, err, 0, 0, hne, le_rfl, ?_⟩)
    rw [threadProgram, herr]

end OsProjects.PairSums
