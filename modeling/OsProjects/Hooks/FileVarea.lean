import Mathlib.Data.List.Basic
import Mathlib.Tactic

/-!
# The memory areas of a process

`file_varea` of `file_varea.c`, as the sequence of what it does. Whatever the process looks
like and whichever allocations fail, the reference to its memory, the lock and the buffer
are held where they are needed and given back (`varea_disciplined`); the log has the
file-backed areas in order, up to the first allocation that fails (`varea_log`).

The table of pids and the areas are those of one moment. `file_varea` reads the name of the
task without holding a reference to it, so a task that ends during the call is not covered.
-/

namespace OsProjects.Hooks.Varea

/-- `vm_area_struct`; a file is what `d_path` makes of its path, or an error. -/
structure Vma where
  vmStart : UInt64
  vmEnd : UInt64
  vmFile : Option (Except Int String)

/-- `mm_struct` -/
structure Mm where
  mmap : List Vma
  startCode : UInt64
  endCode : UInt64
  startData : UInt64
  endData : UInt64
  startBrk : UInt64
  brk : UInt64

/-- What is read of a task; a kernel thread has no `mm`. -/
structure Task where
  comm : String
  mm : Option Mm

/-- The steps of `file_varea` that take, use or give back something of the kernel. -/
inductive Op
  | getTaskMm
  /-- `######## Loaded files of a process' %s(%d)' in VM ########` -/
  | header (comm : String) (target : Int32)
  | downRead
  | visit (vma : Vma)
  | kmalloc
  /-- `file_varea : kmalloc PATH_MAX failed` -/
  | kmallocFailed
  /-- `mem(%lx~%lx) code(%lx~%lx) data(%lx~%lx) heap(%lx~%lx) %s` -/
  | area (vma : Vma) (mm : Mm) (path : String)
  | kfree
  | upRead
  | mmput

def esrch : Int := 3
def einval : Int := 22

/-- The loop over the areas; `alloc` says which of the allocations succeed, `n` have been
made. -/
def areas (mm : Mm) (alloc : Nat → Bool) : (n : Nat) → List Vma → List Op
  | _, [] => []
  | n, vma :: rest =>
      .visit vma ::
        match vma.vmFile with
        | none => areas mm alloc n rest
        | some file =>
            if alloc n then
              .kmalloc ::
                (match file with
                | .ok path => [.area vma mm path]
                | .error _ => []) ++
                .kfree :: areas mm alloc (n + 1) rest
            else [.kmallocFailed]

/-- The steps for a task that has an `mm`. -/
def traverse (task : Task) (mm : Mm) (alloc : Nat → Bool) (target : Int32) : List Op :=
  [.getTaskMm, .header task.comm target, .downRead] ++ areas mm alloc 0 mm.mmap ++
    [.upRead, .mmput]

/-- `file_varea` with `regs->di`: the return value and the steps. -/
def fileVarea (pidTask : Int32 → Option Task) (alloc : Nat → Bool) (di : UInt64) :
    Int × List Op :=
  let target := di.toUInt32.toInt32
  match pidTask target with
  | none => (-esrch, [])
  | some task =>
      match task.mm with
      | none => (-einval, [])
      | some mm => (target.toInt, traverse task mm alloc target)

/-! ## Resources -/

/-- What is held: a reference to the `mm`, its lock, the buffer for a path. -/
structure Held where
  mm : Bool
  lock : Bool
  buffer : Bool
  deriving DecidableEq, Repr

def Held.nothing : Held := ⟨false, false, false⟩

/-- A step in order: nothing is taken twice or given back without being held, the lock is
taken and released while the reference is held, the areas are read under the lock, and a
path is printed while its buffer is there. -/
def perform (h : Held) : Op → Option Held
  | .getTaskMm => if h.mm then none else some { h with mm := true }
  | .header _ _ => some h
  | .downRead => if h.mm && !h.lock then some { h with lock := true } else none
  | .visit _ => if h.lock then some h else none
  | .kmalloc => if h.buffer then none else some { h with buffer := true }
  | .kmallocFailed => some h
  | .area _ _ _ => if h.lock && h.buffer then some h else none
  | .kfree => if h.buffer then some { h with buffer := false } else none
  | .upRead => if h.mm && h.lock then some { h with lock := false } else none
  | .mmput => if h.mm && !h.lock then some { h with mm := false } else none

/-- What is held while the areas are read. -/
def Held.reading : Held := ⟨true, true, false⟩

theorem perform_areas (mm : Mm) (alloc : Nat → Bool) (n : Nat) (vmas : List Vma) :
    (areas mm alloc n vmas).foldlM perform .reading = some .reading := by
  induction vmas generalizing n with
  | nil => rfl
  | cons vma rest ih =>
      rw [areas, List.foldlM_cons]
      show (match vma.vmFile with | none => _ | some file => _ : List Op).foldlM perform
        .reading = _
      cases vma.vmFile with
      | none => exact ih n
      | some file =>
          dsimp only
          split
          · cases file with
            | error err => exact ih (n + 1)
            | ok path => exact ih (n + 1)
          · rfl

/-- **Resources.** Whatever the task and its areas are, and whichever allocations fail,
every step of `file_varea` is in order, and in the end nothing is held. -/
theorem varea_disciplined (pidTask : Int32 → Option Task) (alloc : Nat → Bool) (di : UInt64) :
    (fileVarea pidTask alloc di).2.foldlM perform .nothing = some .nothing := by
  unfold fileVarea
  dsimp only
  cases pidTask di.toUInt32.toInt32 with
  | none => rfl
  | some task =>
      dsimp only
      cases task.mm with
      | none => rfl
      | some mm =>
          -- the three steps before the loop lead to `Held.reading`
          show (areas mm alloc 0 mm.mmap ++ [.upRead, .mmput] : List Op).foldlM perform
            .reading = some .nothing
          rw [List.foldlM_append, perform_areas]
          rfl

/-! ## What is printed -/

inductive Line
  | header (comm : String) (target : Int32)
  | area (vma : Vma) (mm : Mm) (path : String)
  | kmallocFailed

def Op.line : Op → Option Line
  | .header comm target => some (.header comm target)
  | .area vma mm path => some (.area vma mm path)
  | .kmallocFailed => some .kmallocFailed
  | _ => none

/-- The kernel log. -/
def log (ops : List Op) : List Line := ops.filterMap Op.line

@[simp] theorem log_nil : log [] = [] := rfl

@[simp] theorem log_cons (op : Op) (ops : List Op) :
    log (op :: ops) = op.line.toList ++ log ops := by
  cases hline : op.line <;> simp [log, hline]

@[simp] theorem log_append (ops ops' : List Op) : log (ops ++ ops') = log ops ++ log ops' :=
  List.filterMap_append

/-- The line of an area with a file whose path can be written. -/
def shown (mm : Mm) (vma : Vma) : Option Line :=
  match vma.vmFile with
  | some (.ok path) => some (.area vma mm path)
  | _ => none

/-- The areas with a file. -/
def backed (vmas : List Vma) : List Vma := vmas.filter fun vma => vma.vmFile.isSome

/-- The lines of `m` areas, and the failure if there are more. -/
def shownUpTo (mm : Mm) (m : Nat) (vmas : List Vma) : List Line :=
  (vmas.take m).filterMap (shown mm) ++ if m < vmas.length then [.kmallocFailed] else []

/-- Of `total` allocations the first `m` succeed, and the next one fails if there is one. -/
def SucceedUpTo (alloc : Nat → Bool) (n m total : Nat) : Prop :=
  m ≤ total ∧ (∀ i < m, alloc (n + i) = true) ∧ (m < total → alloc (n + m) = false)

theorem SucceedUpTo.cons {alloc : Nat → Bool} {n m total : Nat}
    (h : SucceedUpTo alloc (n + 1) m total) (hn : alloc n = true) :
    SucceedUpTo alloc n (m + 1) (total + 1) := by
  obtain ⟨hle, hok, hfail⟩ := h
  have hshift : ∀ i, n + 1 + i = n + (i + 1) := fun i => by omega
  refine ⟨by omega, fun i hi => ?_, fun hlt => ?_⟩
  · cases i with
    | zero => exact hn
    | succ i =>
        rw [← hshift]
        exact hok i (by omega)
  · rw [← hshift]
    exact hfail (by omega)

/-- The loop: `n` allocations have been made before. -/
theorem log_areas (mm : Mm) (alloc : Nat → Bool) (vmas : List Vma) (n : Nat) :
    ∃ m, SucceedUpTo alloc n m (backed vmas).length ∧
      log (areas mm alloc n vmas) = shownUpTo mm m (backed vmas) := by
  induction vmas generalizing n with
  | nil => exact ⟨0, ⟨Nat.le_refl 0, by simp, by simp [backed]⟩, rfl⟩
  | cons vma rest ih =>
      cases hfile : vma.vmFile with
      | none =>
          have hbacked : backed (vma :: rest) = backed rest := by simp [backed, hfile]
          obtain ⟨m, hm, hlog⟩ := ih n
          rw [hbacked]
          refine ⟨m, hm, ?_⟩
          rw [← hlog, areas, hfile]
          rfl
      | some file =>
          have hbacked : backed (vma :: rest) = vma :: backed rest := by simp [backed, hfile]
          rw [hbacked]
          cases halloc : alloc n with
          | false =>
              refine ⟨0, ⟨Nat.zero_le _, by simp, fun _ => halloc⟩, ?_⟩
              rw [areas, hfile]
              simp [halloc, Op.line, shownUpTo]
          | true =>
              obtain ⟨m, hm, hlog⟩ := ih (n + 1)
              refine ⟨m + 1, hm.cons halloc, ?_⟩
              -- the area takes one allocation, and one line unless its path is an error
              have hrest : log (areas mm alloc n (vma :: rest)) =
                  (shown mm vma).toList ++ log (areas mm alloc (n + 1) rest) := by
                rw [areas, hfile]
                cases file <;> simp [halloc, Op.line, shown, hfile]
              have hshown : shownUpTo mm (m + 1) (vma :: backed rest) =
                  (shown mm vma).toList ++ shownUpTo mm m (backed rest) := by
                cases hline : shown mm vma <;> simp [shownUpTo, hline]
              rw [hrest, hlog, hshown]

/-- **The log.** For a task with memory, the header is followed by the areas with a file in
their order, without those whose path is an error, up to the first allocation that fails;
that is reported. -/
theorem varea_log {pidTask : Int32 → Option Task} {di : UInt64} {task : Task} {mm : Mm}
    (htask : pidTask di.toUInt32.toInt32 = some task) (hmm : task.mm = some mm)
    (alloc : Nat → Bool) :
    ∃ m, SucceedUpTo alloc 0 m (backed mm.mmap).length ∧
      log (fileVarea pidTask alloc di).2 =
        .header task.comm di.toUInt32.toInt32 :: shownUpTo mm m (backed mm.mmap) := by
  obtain ⟨m, hm, hlog⟩ := log_areas mm alloc mm.mmap 0
  refine ⟨m, hm, ?_⟩
  have hrun : (fileVarea pidTask alloc di).2 = traverse task mm alloc di.toUInt32.toInt32 := by
    unfold fileVarea
    simp only [htask, hmm]
  rw [hrun, ← hlog]
  simp [traverse, Op.line]

/-- A program, a heap and a library. -/
def shellMm : Mm where
  mmap := [⟨0x1000, 0x2000, some (.ok "/bin/sh")⟩, ⟨0x3000, 0x4000, none⟩,
    ⟨0x5000, 0x6000, some (.ok "/lib/libc.so")⟩]
  startCode := 0x1000
  endCode := 0x2000
  startData := 0x2000
  endData := 0x3000
  startBrk := 0x3000
  brk := 0x4000

/-- The second allocation fails. -/
theorem varea_log_second :
    ∃ m, SucceedUpTo (· < 1) 0 m (backed shellMm.mmap).length ∧
      log (fileVarea (fun _ => some ⟨"sh", some shellMm⟩) (· < 1) 7).2 =
        .header "sh" (7 : UInt64).toUInt32.toInt32 :: shownUpTo shellMm m (backed shellMm.mmap) :=
  @varea_log (fun _ => some ⟨"sh", some shellMm⟩) 7 ⟨"sh", some shellMm⟩ shellMm rfl rfl (· < 1)

end OsProjects.Hooks.Varea
