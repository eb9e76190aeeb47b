import OsProjects.ProcInfo.Readers

/-!
# Reading the process table in pieces

The handlers keep no position in the file. The first read of a session is cut to
the length asked for and sets the flag, and every later read finds it set: what
did not fit into the first read is not delivered (`session_first_read`).
-/

namespace OsProjects.ProcInfo

/-- What a single client has called before its read number `k`: it has opened the
file and read `lens 0`, ..., `lens (k - 1)` bytes. -/
def sessionCalls (lens : Nat → Nat) (k : Nat) : List (Call Unit) :=
  .oslabOpen () :: (List.range k).map fun i => .oslabRead () (lens i)

/-- What read number `k` answers. -/
def sessionAnswer (tasks : List TaskStruct) (s : State) (lens : Nat → Nat) (k : Nat) :
    Except Errno (List Char) :=
  answer tasks s (sessionCalls lens k) (lens k)

/-- Read number `n` is the first one that returns 0. -/
def FirstEmpty (tasks : List TaskStruct) (s : State) (lens : Nat → Nat) (n : Nat) : Prop :=
  sessionAnswer tasks s lens n = .ok [] ∧ ∀ k < n, sessionAnswer tasks s lens k ≠ .ok []

/-- The bytes returned by the reads before read number `n`. -/
def sessionBytes (tasks : List TaskStruct) (s : State) (lens : Nat → Nat) (n : Nat) : List Char :=
  (List.range n).flatMap fun k => (sessionAnswer tasks s lens k).toOption.getD []

variable {tasks : List TaskStruct} {s : State} {lens : Nat → Nat}

theorem sessionAnswer_zero :
    sessionAnswer tasks s lens 0 = .ok ((fullTable tasks s).take (lens 0)) := by
  show (oslabRead true true tasks (lens 0) (oslabOpen s)).1 = _
  rw [oslabRead_of_clear rfl]
  rfl

/-- The read before has set the flag. -/
theorem sessionAnswer_succ (k : Nat) : sessionAnswer tasks s lens (k + 1) = .ok [] := by
  have hcalls : sessionCalls lens (k + 1) = sessionCalls lens k ++ [.oslabRead () (lens k)] := by
    simp [sessionCalls, List.range_succ]
  have hset : (after tasks s (sessionCalls lens (k + 1))).oslabIsProcessed = true := by
    rw [hcalls, after_concat, next_processed]
    rfl
  rw [sessionAnswer, answer, oslabRead_of_set hset]

theorem sessionAnswer_zero_ne (hpos : 0 < lens 0) : sessionAnswer tasks s lens 0 ≠ .ok [] := by
  rw [sessionAnswer_zero]
  intro hempty
  rcases List.take_eq_nil_iff.mp (Except.ok.inj hempty) with hzero | hnil
  · omega
  · exact fullTable_ne_nil tasks s hnil

theorem sessionBytes_one : sessionBytes tasks s lens 1 = (fullTable tasks s).take (lens 0) := by
  show (sessionAnswer tasks s lens 0).toOption.getD [] ++ [] = _
  rw [sessionAnswer_zero, List.append_nil]
  rfl

theorem FirstEmpty.eq_one {n : Nat} (hpos : 0 < lens 0) (h : FirstEmpty tasks s lens n) :
    n = 1 := by
  obtain ⟨hempty, hearlier⟩ := h
  match n with
  | 0 => exact absurd hempty (sessionAnswer_zero_ne hpos)
  | 1 => rfl
  | n + 2 => exact absurd (sessionAnswer_succ 0) (hearlier 1 (by omega))

/-- **One read per session.** Whatever lengths a client asks for after its open,
the second read is the first that returns 0. Up to there the client has received
the part of the table that its first read had room for, which is the whole table
exactly when the first read is long enough. -/
theorem session_first_read (tasks : List TaskStruct) (s : State) (lens : Nat → Nat)
    (hpos : ∀ k, 0 < lens k) :
    ∃ n, FirstEmpty tasks s lens n ∧
      sessionBytes tasks s lens n = (fullTable tasks s).take (lens 0) ∧
      (sessionBytes tasks s lens n = fullTable tasks s ↔
        (fullTable tasks s).length ≤ lens 0) := by
  have hfirst : FirstEmpty tasks s lens 1 := by
    refine ⟨sessionAnswer_succ 0, ?_⟩
    intro k hk
    obtain rfl : k = 0 := by omega
    exact sessionAnswer_zero_ne (hpos 0)
  refine ⟨1, hfirst, sessionBytes_one, ?_⟩
  rw [sessionBytes_one]
  exact List.take_eq_self_iff _

theorem session_first_read_long :
    ∃ n, FirstEmpty oneTask loaded (fun _ => 4096) n ∧
      sessionBytes oneTask loaded (fun _ => 4096) n = fullTable oneTask loaded := by
  have hpos : ∀ k : Nat, 0 < (fun _ => 4096 : Nat → Nat) k := fun _ => Nat.succ_pos 4095
  obtain ⟨n, hfirst, _, hwhole⟩ := session_first_read oneTask loaded (fun _ => 4096) hpos
  refine ⟨n, hfirst, hwhole.mpr ?_⟩
  decide +kernel

/-- A client that reads byte by byte receives one byte of the table. -/
theorem byte_reads_lose_table :
    ¬ ∃ n, FirstEmpty oneTask loaded (fun _ => 1) n ∧
      sessionBytes oneTask loaded (fun _ => 1) n = fullTable oneTask loaded := by
  rintro ⟨n, hfirst, hwhole⟩
  obtain rfl := hfirst.eq_one Nat.one_pos
  rw [sessionBytes_one] at hwhole
  have hshort : (fullTable oneTask loaded).length ≤ 1 := (List.take_eq_self_iff _).mp hwhole
  have hlong : 1 < (fullTable oneTask loaded).length := by decide +kernel
  omega

end OsProjects.ProcInfo
