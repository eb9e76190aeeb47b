import OsProjects.Fat.Range

/-!
# Files that are not there

`list_files` and `create_file` take an entry with an empty name for an unused
slot, but `write_file`, `read_file` and `delete_file` look for a name without this
test. So the empty name finds an unused slot as long as there is one, and with it
the start block of the file that was there before (`empty_name_frees_block`). A
file that is not listed is handled as absent exactly when its name is not empty
or no slot is unused (`absent_fails_iff`).
-/

namespace OsProjects.Fat

open OsProjects.Lib OsProjects.Lib.Runs

/-- The name is that of a file `list_files` shows. -/
def Listed (s : FileSystem) (filename : List UInt8) : Prop :=
  ∃ entry ∈ listedFiles s, entry.filename = filename

/-- Writing, reading and deleting the file return -1 and change nothing. -/
def FailsCleanly (s : FileSystem) (filename : List UInt8) : Prop :=
  (∀ data, ∃ lines, writeFile filename data s = some (-1, lines, s)) ∧
    (∃ lines, readFile filename s = some (-1, lines, s)) ∧
    ∃ lines, deleteFile filename s = some (-1, lines, s)

variable {s t : FileSystem} {filename : List UInt8} {i : Fin maxFileNum}

theorem mem_listedFiles {entry : FileEntry} :
    entry ∈ listedFiles s ↔ ∃ i, s.Live i ∧ s.directory i = entry := by
  rw [listedFiles, List.mem_filter, List.mem_map, decide_eq_true_iff]
  constructor
  · rintro ⟨⟨i, -, rfl⟩, hname⟩
    exact ⟨i, hname, rfl⟩
  · rintro ⟨i, hlive, rfl⟩
    exact ⟨⟨i, List.mem_finRange i, rfl⟩, hlive⟩

/-- A search that fails makes all three operations fail. -/
theorem failsCleanly_of_none (hfind : findFile s filename = none) : FailsCleanly s filename :=
  ⟨fun _ => ⟨_, writeFile_none hfind⟩, ⟨_, readFile_none hfind⟩, ⟨_, deleteFile_none hfind⟩⟩

/-- Reading what the search finds returns 0, in every state whose block numbers
are in range. -/
theorem RangeSafe.failsCleanly_iff (h : RangeSafe s) :
    FailsCleanly s filename ↔ findFile s filename = none := by
  constructor
  · rintro ⟨-, ⟨lines, hread⟩, -⟩
    cases hfind : findFile s filename with
    | none => rfl
    | some i =>
        obtain ⟨lines', hread', -⟩ := h.read hfind
        rw [hread] at hread'
        cases hread'
  · exact failsCleanly_of_none

/-- What the search finds under a name that is not listed is an unused slot. -/
theorem findFile_unlisted (hunlisted : ¬ Listed s filename)
    (hfind : findFile s filename = some i) : filename = [] ∧ ¬ s.Live i := by
  have hname := findFile_name hfind
  have hdead : ¬ s.Live i := by
    intro hlive
    exact hunlisted ⟨s.directory i, mem_listedFiles.mpr ⟨i, hlive, rfl⟩, hname⟩
  exact ⟨hname.symm.trans (not_not.mp hdead), hdead⟩

/-- **Absent files.** In every state reached, the three operations fail cleanly
for a name that is not listed exactly when the name is not empty or all slots are
in use. -/
theorem absent_fails_iff {cmds : List Command} {outs : List (Int × List Line)}
    (hrun : fatMachine.run .zero cmds = some (outs, t)) (hunlisted : ¬ Listed t filename) :
    FailsCleanly t filename ↔ filename ≠ [] ∨ ∀ i, t.Live i := by
  rw [(rangeSafe_of_run hrun).failsCleanly_iff]
  constructor
  · intro hnone
    by_cases hname : filename = []
    · right
      intro i hempty
      exact findFile_none hnone i (hempty.trans hname.symm)
    · exact Or.inl hname
  · intro hok
    cases hfind : findFile t filename with
    | none => rfl
    | some i =>
        obtain ⟨hname, hdead⟩ := findFile_unlisted hunlisted hfind
        rcases hok with hne | hall
        · exact absurd hname hne
        · exact absurd (hall i) hdead

/-- Three files, of which the second one is deleted and the third one has taken
over its block. -/
def staleCommands : List Command :=
  [.create [97], .create [98], .create [99], .delete [98], .write [99] (List.replicate 40 120)]

theorem absent_fails_stale :
    ∃ outs t, fatMachine.run .zero staleCommands = some (outs, t) ∧ FailsCleanly t [98] := by
  have hrun : ((fatMachine.run .zero staleCommands).map fun r =>
      (listedFiles r.2).map FileEntry.filename) = some [[97], [99]] := by decide +kernel
  obtain ⟨⟨outs, t⟩, hsome, hlisted⟩ := Option.map_eq_some_iff.mp hrun
  have hunlisted : ¬ Listed t [98] := by
    rintro ⟨entry, hmem, hname⟩
    have hfound := List.mem_map_of_mem (f := FileEntry.filename) hmem
    rw [hlisted, hname] at hfound
    simp at hfound
  refine ⟨outs, t, hsome, (absent_fails_iff hsome hunlisted).mpr (Or.inl ?_)⟩
  exact List.cons_ne_nil 98 []

/-- Deleting the empty name finds the slot of the deleted file, whose start block
is the second block of the third file by now: it is marked free. -/
theorem empty_name_frees_block :
    ∃ outs t, fatMachine.run .zero staleCommands = some (outs, t) ∧ ¬ Listed t [] ∧
      (∃ lines u, deleteFile [] t = some (0, lines, u) ∧ t.fatTable 2 = 1 ∧ t.fatTable 1 = eof ∧
        u.fatTable 1 = 0) ∧
      ¬ FailsCleanly t [] := by
  have hrun : ((fatMachine.run .zero staleCommands).bind fun r =>
      (deleteFile [] r.2).map fun d =>
        (d.1, r.2.fatTable 2, r.2.fatTable 1, d.2.2.fatTable 1)) = some (0, 1, eof, 0) := by
    decide +kernel
  obtain ⟨⟨outs, t⟩, hsome, hdelete⟩ := Option.bind_eq_some_iff.mp hrun
  obtain ⟨⟨code, lines, u⟩, hfreed, heq⟩ := Option.map_eq_some_iff.mp hdelete
  simp only [Prod.mk.injEq] at heq
  obtain ⟨rfl, hlink, hend, hzero⟩ := heq
  refine ⟨outs, t, hsome, ?_, ⟨lines, u, hfreed, hlink, hend, hzero⟩, ?_⟩
  · rintro ⟨entry, hmem, hname⟩
    obtain ⟨i, hlive, rfl⟩ := mem_listedFiles.mp hmem
    exact hlive hname
  · rintro ⟨-, -, lines', hfails⟩
    rw [hfreed] at hfails
    cases hfails

end OsProjects.Fat
