import OsProjects.Fat.Image
import OsProjects.Fat.Refinement

/-!
# One process for each command

`main` of `fat.c`: load the image, carry out one command, save the image. Between
two commands nothing is left but the file `fs_state.dat`. It does the work of a
file system that stays in memory (`processes_resident`), also where the image cannot
be opened; and a command that fails leaves the file byte for byte as it was
(`failed_keeps_image`).

Two kinds of files are left out: one that is not empty but shorter than the image,
since what `fread` stores of a partial element is not determined, and one with a name
without a NUL or a negative size.
-/

namespace OsProjects.Fat

open OsProjects.Lib OsProjects.Lib.Runs

/-! ## The command line -/

/-- What an operation prints, and the file system behind it. -/
def report (r : Option Result) : Option (List UInt8 × FileSystem) :=
  r.map fun r => (r.2.1.flatMap Line.text, r.2.2)

/-- The test in front of an operation: `num` arguments, the file name among them. -/
def checked (wanted num : Nat) (usage : String) (filename : Option (List UInt8))
    (s : FileSystem) (op : List UInt8 → Option (List UInt8 × FileSystem)) :
    Option (List UInt8 × FileSystem) :=
  match filename with
  | none => some (ascii usage, s)
  | some filename => if num ≠ wanted then some (ascii usage, s) else op filename

/-- `execute_cmd`, where `none` is a `NULL` argument: what it prints and leaves
behind. The return values of the operations are not used. -/
def executeArgs (cmd : List UInt8) (filename data : Option (List UInt8)) (num : Nat)
    (s : FileSystem) : Option (List UInt8 × FileSystem) :=
  if cmd = ascii "create" then
    checked 3 num "Usage: create <filename>\n" filename s fun filename =>
      report (executeCmd s (.create filename))
  else if cmd = ascii "write" then
    checked 4 num "Usage : write <filename> <data>\n" filename s fun filename =>
      data.bind fun data => report (executeCmd s (.write filename data))
  else if cmd = ascii "read" then
    checked 3 num "Usage : read <filename>\n" filename s fun filename =>
      report (executeCmd s (.read filename))
  else if cmd = ascii "delete" then
    checked 3 num "Usage : delete <filename>\n" filename s fun filename =>
      report (executeCmd s (.delete filename))
  else if cmd = ascii "list" then some (listFiles s, s)
  else some (ascii "Invalid command.\n", s)

/-- `execute_cmd(argv[1], argv[2], argv[3], argc)`, with the arguments behind
`argv[1]`. -/
def runArgs (cmd : List UInt8) (rest : List (List UInt8)) (s : FileSystem) :
    Option (List UInt8 × FileSystem) :=
  executeArgs cmd rest[0]? rest[1]? (rest.length + 2) s

/-! ## Processes -/

/-- A run of the program: the arguments behind the program name, and whether the
image can be opened for reading, if there is one, and for writing. -/
structure Invocation where
  args : List (List UInt8)
  readable : Bool
  writable : Bool
  deriving DecidableEq, Repr

def usageText : List UInt8 := ascii "USAGE : ./fat <COMMAND> [ARGS]...\n"

def freshText : List UInt8 := ascii "Warning : No saved state found. Starting fresh.\n"

def saveErrorText : List UInt8 := ascii "Error : can't save file system state.\n"

/-- `load_file_system`: what it prints and the memory behind it. -/
def loadFileSystem (readable : Bool) (disk : Option (List UInt8)) : Option (List UInt8 × RawFs) :=
  match readable, disk with
  | true, some bytes =>
      if bytes = [] then some ([], .zero)
      else if imageSize ≤ bytes.length ∧ (decode bytes).Sound then some ([], decode bytes)
      else none
  | _, _ => some (freshText, .zero)

/-- `save_file_system`: what it prints and the file behind it. -/
def saveFileSystem (writable : Bool) (m : RawFs) (disk : Option (List UInt8)) :
    List UInt8 × Option (List UInt8) :=
  if writable then ([], some (encode m)) else (saveErrorText, disk)

/-- `main`: the exit status, what is printed, and the file `fs_state.dat`. -/
def main (inv : Invocation) (disk : Option (List UInt8)) :
    Option ((Int × List UInt8) × Option (List UInt8)) :=
  match inv.args with
  | [] => some ((1, usageText), disk)
  | cmd :: rest =>
      (loadFileSystem inv.readable disk).bind fun loaded =>
        (runArgs cmd rest loaded.2.view).map fun done =>
          let saved := saveFileSystem inv.writable (loaded.2.store done.2) disk
          ((0, loaded.1 ++ done.1 ++ saved.1), saved.2)

/-- The file between the processes. -/
def processMachine : Machine (Option (List UInt8)) Invocation (Int × List UInt8) where
  step disk inv := main inv disk

/-- The same commands on a file system that stays in memory; `none` until it has been
saved once. -/
def residentMachine : Machine (Option FileSystem) Invocation (Int × List UInt8) where
  step kept inv :=
    match inv.args with
    | [] => some ((1, usageText), kept)
    | cmd :: rest =>
        let found := if inv.readable then kept else none
        (runArgs cmd rest (found.getD .zero)).map fun done =>
          ((0, (if found = none then freshText else []) ++ done.1 ++
              if inv.writable then [] else saveErrorText),
            if inv.writable then some done.2 else kept)

/-! ## What a command line does -/

/-- The file command that a command line asks for. -/
def fileCommand : (args : List (List UInt8)) → Option Command
  | [cmd, filename] =>
      if cmd = ascii "create" then some (.create filename)
      else if cmd = ascii "read" then some (.read filename)
      else if cmd = ascii "delete" then some (.delete filename)
      else none
  | [cmd, filename, data] =>
      if cmd = ascii "write" then some (.write filename data) else none
  | _ => none

variable {s : FileSystem} {m : RawFs} {c : Command} {cmd : List UInt8} {rest : List (List UInt8)}
  {disk : Option (List UInt8)} {kept : Option FileSystem} {inv : Invocation}

theorem checked_usage {wanted num : Nat} {usage : String} {filename : Option (List UInt8)}
    {op : List UInt8 → Option (List UInt8 × FileSystem)} (h : num ≠ wanted) :
    checked wanted num usage filename s op = some (ascii usage, s) := by
  cases filename with
  | none => rfl
  | some filename => exact if_pos h

/-- A command with a file name and nothing else. -/
theorem checked_name {c : List UInt8 → Command} {usage : String} (rest : List (List UInt8))
    (s : FileSystem) :
    (∃ filename, rest = [filename] ∧
      checked 3 (rest.length + 2) usage rest[0]? s (fun filename =>
        report (executeCmd s (c filename))) = report (executeCmd s (c filename))) ∨
      rest.length ≠ 1 ∧ checked 3 (rest.length + 2) usage rest[0]? s (fun filename =>
        report (executeCmd s (c filename))) = some (ascii usage, s) := by
  by_cases hlen : rest.length = 1
  · obtain ⟨filename, rfl⟩ := List.length_eq_one_iff.mp hlen
    exact Or.inl ⟨filename, rfl, rfl⟩
  · exact Or.inr ⟨hlen, checked_usage (by omega)⟩

theorem fileCommand_none (hone : rest.length ≠ 1) (htwo : rest.length = 2 → cmd ≠ ascii "write") :
    fileCommand (cmd :: rest) = none := by
  match rest with
  | [] => rfl
  | [_] => exact absurd rfl hone
  | [_, _] => exact if_neg (htwo rfl)
  | _ :: _ :: _ :: _ => rfl

/-- A command line is a file command, or it prints a text and changes nothing. -/
theorem runArgs_cases (cmd : List UInt8) (rest : List (List UInt8)) (s : FileSystem) :
    (∃ c, fileCommand (cmd :: rest) = some c ∧ runArgs cmd rest s = report (executeCmd s c)) ∨
      fileCommand (cmd :: rest) = none ∧ ∃ text, runArgs cmd rest s = some (text, s) := by
  by_cases hcreate : cmd = ascii "create"
  · rw [runArgs, executeArgs, if_pos hcreate, hcreate]
    rcases checked_name rest s with ⟨filename, rfl, hrun⟩ | ⟨hlen, hrun⟩
    · exact Or.inl ⟨.create filename, rfl, hrun⟩
    · exact Or.inr ⟨fileCommand_none hlen fun _ => by decide, _, hrun⟩
  by_cases hwrite : cmd = ascii "write"
  · rw [runArgs, executeArgs, if_neg hcreate, if_pos hwrite, hwrite]
    by_cases hlen : rest.length = 2
    · obtain ⟨filename, data, rfl⟩ := List.length_eq_two.mp hlen
      exact Or.inl ⟨.write filename data, rfl, rfl⟩
    · refine Or.inr ⟨?_, _, checked_usage (by omega)⟩
      match rest with
      | [] => rfl
      | [_] => rfl
      | [_, _] => exact absurd rfl hlen
      | _ :: _ :: _ :: _ => rfl
  by_cases hread : cmd = ascii "read"
  · rw [runArgs, executeArgs, if_neg hcreate, if_neg hwrite, if_pos hread, hread]
    rcases checked_name rest s with ⟨filename, rfl, hrun⟩ | ⟨hlen, hrun⟩
    · exact Or.inl ⟨.read filename, rfl, hrun⟩
    · exact Or.inr ⟨fileCommand_none hlen fun _ => by decide, _, hrun⟩
  by_cases hdelete : cmd = ascii "delete"
  · rw [runArgs, executeArgs, if_neg hcreate, if_neg hwrite, if_neg hread, if_pos hdelete, hdelete]
    rcases checked_name rest s with ⟨filename, rfl, hrun⟩ | ⟨hlen, hrun⟩
    · exact Or.inl ⟨.delete filename, rfl, hrun⟩
    · exact Or.inr ⟨fileCommand_none hlen fun _ => by decide, _, hrun⟩
  refine Or.inr ⟨?_, ?_⟩
  · match rest with
    | [] => rfl
    | [_] => rw [fileCommand, if_neg hcreate, if_neg hread, if_neg hdelete]
    | [_, _] => exact if_neg hwrite
    | _ :: _ :: _ :: _ => rfl
  · rw [runArgs, executeArgs, if_neg hcreate, if_neg hwrite, if_neg hread, if_neg hdelete]
    split
    · exact ⟨_, rfl⟩
    · exact ⟨_, rfl⟩

theorem fileCommand_filename (h : fileCommand inv.args = some c) : c.filename ∈ inv.args := by
  unfold fileCommand at h
  split at h
  · next cmd filename hargs =>
      rw [hargs]
      split_ifs at h
      all_goals cases h; simp [Command.filename]
  · next cmd filename data hargs =>
      rw [hargs]
      split_ifs at h
      cases h
      simp [Command.filename]
  · cases h

/-- A command line of C strings keeps the file system in the range of the structure. -/
theorem Storable.runArgs {r : List UInt8 × FileSystem} (h : Storable s)
    (hargs : ∀ a ∈ cmd :: rest, IsCString a) (hrun : Fat.runArgs cmd rest s = some r) :
    Storable r.2 := by
  rcases runArgs_cases cmd rest s with ⟨c, hc, hcase⟩ | ⟨-, text, hcase⟩
  · rw [hcase] at hrun
    obtain ⟨r', hr', rfl⟩ := Option.map_eq_some_iff.mp hrun
    have hname := hargs _ (@fileCommand_filename c ⟨cmd :: rest, true, true⟩ hc)
    exact h.step hname hr'
  · rw [hcase] at hrun
    cases hrun
    exact h

/-! ## The file between the processes -/

/-- The image of a file system, or no file where nothing has been saved. -/
inductive Stored : Option (List UInt8) → Option FileSystem → Prop
  | missing : Stored none none
  | image (m : RawFs) (hsound : m.Sound) (hstorable : Storable m.view) :
      Stored (some (encode m)) (some m.view)

theorem Stored.exists_image {bytes : List UInt8} (h : Stored (some bytes) kept) :
    ∃ m, bytes = encode m ∧ kept = some m.view ∧ m.Sound ∧ Storable m.view := by
  generalize hdisk : some bytes = disk at h
  cases h with
  | missing => cases hdisk
  | image m hsound hstorable => exact ⟨m, Option.some.inj hdisk, rfl, hsound, hstorable⟩

theorem loadFileSystem_encode (h : m.Sound) :
    loadFileSystem true (some (encode m)) = some ([], m) := by
  have hpos : 0 < imageSize := by decide
  have hne : encode m ≠ [] := by
    rw [← List.length_pos_iff_ne_nil, length_encode]
    exact hpos
  rw [loadFileSystem, if_neg hne, if_pos ⟨(length_encode m).ge, by rwa [decode_encode]⟩,
    decode_encode]

/-- What `load_file_system` finds. -/
theorem Stored.load (h : Stored disk kept) (readable : Bool) :
    ∃ m, loadFileSystem readable disk =
        some (if (if readable then kept else none) = none then freshText else [], m) ∧
      m.Sound ∧ Storable m.view ∧ m.view = (if readable then kept else none).getD .zero := by
  cases readable with
  | false => exact ⟨.zero, by cases disk <;> rfl, .zero, Storable.zero, rfl⟩
  | true =>
      cases h with
      | missing => exact ⟨.zero, rfl, .zero, Storable.zero, rfl⟩
      | image m hsound hstorable =>
          exact ⟨m, loadFileSystem_encode hsound, hsound, hstorable, rfl⟩

theorem process_step {warning : List UInt8} (hload : loadFileSystem inv.readable disk =
      some (warning, m)) (hargs : inv.args = cmd :: rest) :
    processMachine.step disk inv = (runArgs cmd rest m.view).map fun done =>
      let saved := saveFileSystem inv.writable (m.store done.2) disk
      ((0, warning ++ done.1 ++ saved.1), saved.2) := by
  show main inv disk = _
  rw [main, hargs, hload]
  rfl

/-- One process does what the resident file system does. -/
theorem Stored.step (h : Stored disk kept) (hargs : ∀ a ∈ inv.args, IsCString a) :
    (processMachine.step disk inv = none ∧ residentMachine.step kept inv = none) ∨
      ∃ o disk' kept', processMachine.step disk inv = some (o, disk') ∧
        residentMachine.step kept inv = some (o, kept') ∧ Stored disk' kept' := by
  obtain ⟨args, readable, writable⟩ := inv
  cases args with
  | nil => exact Or.inr ⟨(1, usageText), disk, kept, rfl, rfl, h⟩
  | cons cmd rest =>
      obtain ⟨m, hload, -, hstorable, hview⟩ := h.load readable
      have hresident : residentMachine.step kept ⟨cmd :: rest, readable, writable⟩ =
          (runArgs cmd rest m.view).map fun done =>
            ((0, (if (if readable then kept else none) = none then freshText else []) ++
                done.1 ++ if writable then [] else saveErrorText),
              if writable then some done.2 else kept) := by
        rw [hview]
        rfl
      rw [process_step hload rfl, hresident]
      cases hrun : runArgs cmd rest m.view with
      | none => exact Or.inl ⟨rfl, rfl⟩
      | some done =>
          refine Or.inr ⟨_, _, if writable then some done.2 else kept, rfl, ?_, ?_⟩
          · cases writable <;> rfl
          · cases writable with
            | false => exact h
            | true =>
                have hdone := hstorable.runArgs hargs hrun
                have hstored := Stored.image (m.store done.2) (hdone.sound_store m)
                  (by rwa [hdone.view_store])
                rwa [hdone.view_store] at hstored

/-- So do sequences of processes. -/
theorem Stored.run {invs : List Invocation} (h : Stored disk kept)
    (hargs : ∀ inv ∈ invs, ∀ a ∈ inv.args, IsCString a) :
    (processMachine.run disk invs = none ∧ residentMachine.run kept invs = none) ∨
      ∃ outs disk' kept', processMachine.run disk invs = some (outs, disk') ∧
        residentMachine.run kept invs = some (outs, kept') ∧ Stored disk' kept' :=
  Machine.run_bisim Stored (fun inv => ∀ a ∈ inv.args, IsCString a)
    (fun _ _ _ h hok => h.step hok) h hargs

/-! ## Commands on the command line -/

/-- The arguments for a file command. -/
def Command.args : Command → List (List UInt8)
  | .create filename => [ascii "create", filename]
  | .write filename data => [ascii "write", filename, data]
  | .read filename => [ascii "read", filename]
  | .delete filename => [ascii "delete", filename]

/-- A file command in a process of its own. -/
def Command.invocation (c : Command) : Invocation := ⟨c.args, true, true⟩

/-- What a process shows of an operation. -/
def shown (o : Int × List Line) : Int × List UInt8 := (0, o.2.flatMap Line.text)

/-- The first process finds no image. -/
def warned (o : Int × List UInt8) : Int × List UInt8 := (o.1, freshText ++ o.2)

theorem resident_step (kept : Option FileSystem) (c : Command) :
    residentMachine.step kept c.invocation =
      (fatMachine.step (kept.getD .zero) c).map fun r =>
        (if kept = none then warned (shown r.1) else shown r.1, some r.2) := by
  have hstep : residentMachine.step kept c.invocation =
      (report (executeCmd (kept.getD .zero) c)).map fun done =>
        ((0, (if kept = none then freshText else []) ++ done.1 ++ []), some done.2) := by
    cases c <;> rfl
  rw [hstep, report, Option.map_map]
  show _ = ((executeCmd (kept.getD .zero) c).map _).map _
  rw [Option.map_map]
  congr 1
  funext r
  cases kept <;> simp [warned, shown]

theorem resident_run (s : FileSystem) (cmds : List Command) :
    residentMachine.run (some s) (cmds.map Command.invocation) =
      (fatMachine.run s cmds).map fun r => (r.1.map shown, some r.2) := by
  induction cmds generalizing s with
  | nil => rfl
  | cons c cmds ih =>
      rw [List.map_cons, Machine.run, resident_step, Machine.run]
      cases hstep : fatMachine.step s c with
      | none => simp [hstep]
      | some r => simp [hstep, ih, Function.comp_def]

theorem resident_run_none (c : Command) (cmds : List Command) :
    residentMachine.run none (c.invocation :: cmds.map Command.invocation) =
      (fatMachine.run .zero (c :: cmds)).map fun r =>
        ((r.1.map shown).modifyHead warned, some r.2) := by
  rw [Machine.run, resident_step, Machine.run, Option.getD_none]
  cases hstep : fatMachine.step .zero c with
  | none => simp
  | some r => simp [resident_run, Function.comp_def]

/-- **Restarting changes nothing.** Processes that load the image, carry out one
command and save the image answer every sequence of command lines as a file system
that stays in memory does, whether or not the image can be opened; they stop where it
stops, and the file is the image of what it holds. -/
theorem processes_resident {invs : List Invocation}
    (hargs : ∀ inv ∈ invs, ∀ a ∈ inv.args, IsCString a) :
    (processMachine.run none invs = none ∧ residentMachine.run none invs = none) ∨
      ∃ outs disk kept, processMachine.run none invs = some (outs, disk) ∧
        residentMachine.run none invs = some (outs, kept) ∧ Stored disk kept :=
  Stored.missing.run hargs

theorem processes_resident_turns :
    ∃ outs disk kept,
      processMachine.run none ((.create [97] :: keptCommands).map Command.invocation) =
        some (outs, disk) ∧
      residentMachine.run none ((.create [97] :: keptCommands).map Command.invocation) =
        some (outs, kept) ∧ Stored disk kept := by
  obtain ⟨outs, t, hrun⟩ := run_exists (by decide) keptCommands_along.1 keptCommands_along.2
  rcases @processes_resident ((.create [97] :: keptCommands).map Command.invocation)
      (by decide +kernel) with ⟨-, hnone⟩ | h
  · rw [List.map_cons, resident_run_none, hrun] at hnone
    cases hnone
  · exact h

/-- Without corruption, what returns another value than 0 has changed nothing. -/
theorem RangeSafe.failed {code : Int} {lines : List Line} {t : FileSystem} (h : RangeSafe s)
    (hrun : executeCmd s c = some (code, lines, t)) (hfail : code ≠ 0 ∨ ∃ name, c = .read name) :
    t = s := by
  cases c with
  | create filename =>
      have hcode : code ≠ 0 := hfail.resolve_right (by simp)
      replace hrun : createFile filename s = some (code, lines, t) := hrun
      rcases createFile_cases filename s with
        ⟨-, hcase⟩ | ⟨-, hcase⟩ | ⟨i, b, -, -, -, hcase⟩
      · rw [hcase] at hrun
        cases hrun
        rfl
      · rw [hcase] at hrun
        cases hrun
        rfl
      · rw [hcase] at hrun
        split at hrun
        · cases hrun
          exact absurd rfl hcode
        · cases hrun
  | write filename data =>
      have hcode : code ≠ 0 := hfail.resolve_right (by simp)
      replace hrun : writeBytes filename (toAppend data) s = some (code, lines, t) := hrun
      cases hfind : findFile s filename with
      | none =>
          rw [writeBytes, hfind] at hrun
          cases hrun
          rfl
      | some i =>
          obtain ⟨last, hwalk⟩ :=
            walk_valid h.entries ((s.directory i).size / blockSize) (h.starts i)
          rw [h.writeBytes_eq hfind hwalk, appendAt_eq] at hrun
          split at hrun
          · cases hrun
            exact absurd rfl hcode
          · cases hrun
  | read filename =>
      replace hrun : readFile filename s = some (code, lines, t) := hrun
      cases hfind : findFile s filename with
      | none =>
          rw [readFile_none hfind] at hrun
          cases hrun
          rfl
      | some i =>
          obtain ⟨lines', hread, -⟩ := h.read hfind
          rw [hread] at hrun
          cases hrun
          rfl
  | delete filename =>
      have hcode : code ≠ 0 := hfail.resolve_right (by simp)
      replace hrun : deleteFile filename s = some (code, lines, t) := hrun
      cases hfind : findFile s filename with
      | none =>
          rw [deleteFile_none hfind] at hrun
          cases hrun
          rfl
      | some i =>
          rw [deleteFile, hfind] at hrun
          obtain ⟨fat, -, heq⟩ := Option.map_eq_some_iff.mp hrun
          cases heq
          exact absurd rfl hcode

/-- The command line asks for a file command that returns another value than 0, for a
reading one, or for none. -/
def Fails (inv : Invocation) (s : FileSystem) : Prop :=
  ∀ c, fileCommand inv.args = some c →
    ∃ code lines t, executeCmd s c = some (code, lines, t) ∧ (code ≠ 0 ∨ ∃ name, c = .read name)

theorem Fails.runArgs (h : RangeSafe s) (hargs : inv.args = cmd :: rest) (hfails : Fails inv s) :
    ∃ text, Fat.runArgs cmd rest s = some (text, s) := by
  rcases runArgs_cases cmd rest s with ⟨c, hc, hcase⟩ | ⟨-, text, hcase⟩
  · obtain ⟨code, lines, t, hrun, hfail⟩ := hfails c (hargs ▸ hc)
    rw [hcase, hrun, report, Option.map_some, h.failed hrun hfail]
    exact ⟨_, rfl⟩
  · exact ⟨text, hcase⟩

/-- **A failed command leaves the image alone.** Behind any sequence of processes, a
command line without arguments, with the wrong ones, with an unknown command, with one
that only reads or with one that fails leaves `fs_state.dat` byte for byte as it is. -/
theorem failed_keeps_image {invs : List Invocation} {outs : List (Int × List UInt8)}
    {bytes : List UInt8} (hargs : ∀ inv ∈ invs, ∀ a ∈ inv.args, IsCString a)
    (hrun : processMachine.run none invs = some (outs, some bytes)) (hread : inv.readable = true)
    (hfails : Fails inv (decode bytes).view) :
    ∃ o, processMachine.step (some bytes) inv = some (o, some bytes) := by
  have hstored : ∃ kept, Stored (some bytes) kept := by
    rcases Stored.missing.run hargs with ⟨hnone, -⟩ | ⟨outs', disk, kept, hsome, -, h⟩
    · rw [hrun] at hnone
      cases hnone
    · rw [hrun] at hsome
      cases hsome
      exact ⟨kept, h⟩
  obtain ⟨kept, h⟩ := hstored
  obtain ⟨m, hbytes, -, hsound, hstorable⟩ := h.exists_image
  rw [hbytes] at hfails ⊢
  rw [decode_encode] at hfails
  cases hline : inv.args with
  | nil =>
      refine ⟨(1, usageText), ?_⟩
      show main inv _ = _
      rw [main, hline]
  | cons cmd rest =>
      obtain ⟨text, htext⟩ := hfails.runArgs hstorable.toRangeSafe hline
      have hload : loadFileSystem inv.readable (some (encode m)) = some ([], m) :=
        hread ▸ loadFileSystem_encode hsound
      have hsaved : (saveFileSystem inv.writable m (some (encode m))).2 = some (encode m) := by
        cases inv.writable <;> rfl
      rw [process_step hload hline, htext, Option.map_some, hsound.store_view]
      dsimp only
      rw [hsaved]
      exact ⟨_, rfl⟩

theorem failed_keeps_image_absent :
    ∃ outs bytes, processMachine.run none [⟨[ascii "list"], true, true⟩] =
        some (outs, some bytes) ∧
      ∃ o, processMachine.step (some bytes) ⟨[ascii "delete", [97]], true, true⟩ =
        some (o, some bytes) := by
  have hrun : processMachine.run none [⟨[ascii "list"], true, true⟩] =
      some ([(0, freshText ++ listFiles .zero ++ [])],
        some (encode (RawFs.zero.store .zero))) := rfl
  refine ⟨_, _, hrun, failed_keeps_image (by decide +kernel) hrun rfl ?_⟩
  rw [decode_encode, Storable.zero.view_store]
  intro c hc
  cases hc
  exact ⟨-1, _, _, deleteFile_none (findFile_zero (by decide)), Or.inl (by decide)⟩

end OsProjects.Fat
