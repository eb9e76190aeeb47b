import OsProjects.Fat.Append
import OsProjects.Fat.Termination

/-!
# Operations touch their own file only

A file depends on its directory entry, on the table entries of its blocks and on
their data. `Spares` says that an operation leaves these alone; every command
spares every file but its own (`Sized.spares`), also when the append runs out of
space or starts in the middle of a chain, so the other files read as before
(`commands_spare_others`).
-/

namespace OsProjects.Fat

open OsProjects.Lib

/-- Linked files whose chains hold at least their sizes. -/
structure Sized (s : FileSystem) (chain : Chains) : Prop extends Linked s chain where
  fits : ∀ i, s.Live i → (s.directory i).size ≤ 32 * (chain i).length

/-- The file in slot `j`, of the blocks `l`, is left alone, and its name is still
its own. -/
structure Spares (s t : FileSystem) (j : Fin maxFileNum) (l : List (Fin numBlocks)) : Prop where
  names : t.DistinctNames
  entry : t.directory j = s.directory j
  links : ∀ b ∈ l, t.fatTable b = s.fatTable b
  data : ∀ b ∈ l, t.dataArea b = s.dataArea b

variable {s t : FileSystem} {chain : Chains} {filename data : List UInt8} {i j : Fin maxFileNum}
  {l : List (Fin numBlocks)} {b p : Fin numBlocks} {cmd : Command}

theorem Spares.refl (hnames : s.DistinctNames) : Spares s s j l :=
  ⟨hnames, rfl, fun _ _ => rfl, fun _ _ => rfl⟩

/-- A file that is left alone reads as before. -/
theorem Spares.read (h : Spares s t j l) (hnames : s.DistinctNames) (hlive : s.Live j)
    (hchain : blockPtr.Chain s.fatTable (s.directory j).startBlock l) :
    ∃ lines, readFile (s.directory j).filename s = some (0, lines, s) ∧
      readFile (s.directory j).filename t = some (0, lines, t) := by
  have hlive' : t.Live j := by
    rw [FileSystem.Live, h.entry]
    exact hlive
  have hfind' : findFile t (s.directory j).filename = some j := by
    rw [← h.entry]
    exact findFile_of_live h.names hlive'
  have hchain' : blockPtr.Chain t.fatTable (t.directory j).startBlock l := by
    rw [h.entry]
    exact hchain.frame h.links
  have hbytes : chainBytes t.dataArea l = chainBytes s.dataArea l := chainBytes_congr h.data
  have hlines : readLines t (s.directory j).filename j =
      readLines s (s.directory j).filename j := by
    rw [readLines, readLines, h.entry, readLoop_congr hchain h.links (by rw [hbytes])]
  refine ⟨_, readFile_eq (findFile_of_live hnames hlive) hchain, ?_⟩
  rw [readFile_eq hfind' hchain', hlines]

/-! ## The operations -/

theorem Linked.spares_created (h : Linked s chain) (hlive : s.Live j)
    (hfind : findFile s filename = none) (hdead : ¬ s.Live i) (hfree : s.fatTable b = 0) :
    Spares s (Fat.created s filename i b) j (chain j) where
  names := (h.created hfind hfree).names
  entry := by
    apply created_other
    rintro rfl
    exact hdead hlive
  links := by
    intro c hc
    apply Function.update_of_ne
    rintro rfl
    exact h.used j hlive c hc hfree
  data := fun _ _ => rfl

theorem Linked.spares_removed (h : Linked s chain) (hi : s.Live i) (hlive : s.Live j)
    (hne : j ≠ i) : Spares s (Fat.removed s i (chain i)) j (chain j) where
  names := (h.removed hi).names
  entry := removed_other hne
  links := by
    intro c hc
    apply removed_other_block
    intro hci
    exact h.disjoint j i hlive hi hne hc hci
  data := fun _ _ => rfl

/-- An append that starts at any block `p` of its file takes only `p` and blocks
that are marked free. -/
theorem Linked.spares_appended (h : Linked s chain) (hi : s.Live i) (hp : p ∈ chain i)
    (hlive : s.Live j) (hne : j ≠ i) : Spares s (appended s i p data) j (chain j) := by
  have hout : ∀ c ∈ chain j, c ≠ p ∧ c ∉ (appendAlloc s i p data.length).2 := by
    intro c hc
    exact h.notMem_grown hi hp (fun _ => extend_fresh) hne hlive hc
  refine ⟨?_, appended_other hne, ?_, ?_⟩
  · intro k m hk heq
    rw [FileSystem.Live, appended_filename] at hk
    rw [appended_filename, appended_filename] at heq
    exact h.names k m hk heq
  · intro c hc
    exact extend_same (hout c hc).1 (hout c hc).2
  · intro c hc
    exact appendedArea_other (hout c hc).1 (hout c hc).2

/-! ## Commands -/

/-- `write_file` finds no start block and changes nothing, or it appends at some
block of the file. -/
theorem Sized.write_cases (h : Sized s chain) (hfind : findFile s filename = some i)
    (hi : s.Live i) (data : List UInt8) :
    (∃ code lines, writeFile filename data s = some (code, lines, s)) ∨
      ∃ p ∈ chain i, ∃ code lines,
        writeFile filename data s = some (code, lines, appended s i p (toAppend data)) := by
  have hchain := h.chains i hi
  cases hl : chain i with
  | nil =>
      -- the start block is the end mark
      rw [hl] at hchain
      have hstart : toBlock (s.directory i).startBlock = none := by
        rw [hchain.eq_eof]
        exact toBlock_eof
      rw [writeFile, writeBytes, hfind]
      simp only [hstart]
      exact Or.inl ⟨_, _, rfl⟩
  | cons first rest =>
      obtain ⟨p, hp, hwalk⟩ := walk_mem hchain (by rw [hl]; exact List.cons_ne_nil first rest)
        ((s.directory i).size / blockSize)
      have hstart : toBlock (s.directory i).startBlock = some first := by
        rw [hl] at hchain
        rw [hchain.eq_ptr]
        exact toBlock_ofBlock first
      rw [← hl, writeFile, writeBytes_of_walk hfind hstart hwalk, appendAt_eq,
        if_pos (appended_size_lt (h.chains i hi) (h.fits i hi) p _)]
      exact Or.inr ⟨p, hp, _, _, rfl⟩

/-- Every command returns and spares the files of other names. -/
theorem Sized.spares (h : Sized s chain) (hname : cmd.NameOk) (hlive : s.Live j)
    (hother : (s.directory j).filename ≠ cmd.filename) :
    ∃ code lines t, executeCmd s cmd = some (code, lines, t) ∧ Spares s t j (chain j) := by
  have hsame : Spares s s j (chain j) := .refl h.names
  have hslot : ∀ i, findFile s cmd.filename = some i → s.Live i ∧ j ≠ i := by
    intro i hfind
    refine ⟨findFile_live hfind hname.1, ?_⟩
    rintro rfl
    exact hother (findFile_name hfind)
  cases cmd with
  | create filename =>
      obtain ⟨code, lines, t, hrun, hcase⟩ := createFile_spec (s := s) hname.2
      refine ⟨code, lines, t, hrun, ?_⟩
      rcases hcase with rfl | ⟨i, b, hfind, hdead, hfree, rfl⟩
      · exact hsame
      · exact h.spares_created hlive hfind hdead hfree
  | write filename data =>
      cases hfind : findFile s filename with
      | none => exact ⟨_, _, s, writeFile_none hfind, hsame⟩
      | some i =>
          obtain ⟨hi, hne⟩ := hslot i hfind
          rcases h.write_cases hfind hi data with ⟨code, lines, hrun⟩ | ⟨p, hp, code, lines, hrun⟩
          · exact ⟨code, lines, s, hrun, hsame⟩
          · exact ⟨code, lines, _, hrun, h.spares_appended hi hp hlive hne⟩
  | read filename =>
      cases hfind : findFile s filename with
      | none => exact ⟨_, _, s, readFile_none hfind, hsame⟩
      | some i => exact ⟨_, _, s, readFile_eq hfind (h.chains i (hslot i hfind).1), hsame⟩
  | delete filename =>
      cases hfind : findFile s filename with
      | none => exact ⟨_, _, s, deleteFile_none hfind, hsame⟩
      | some i =>
          obtain ⟨hi, hne⟩ := hslot i hfind
          exact ⟨_, _, _, deleteFile_eq hfind (h.chains i hi), h.spares_removed hi hlive hne⟩

/-- **Own file only.** On a disk of linked files that hold their sizes, a command
with a non-empty name that fits returns, and every file of another name keeps its
directory entry and what `read_file` returns and prints for it. -/
theorem commands_spare_others (h : Sized s chain) (hname : cmd.NameOk) (hlive : s.Live j)
    (hother : (s.directory j).filename ≠ cmd.filename) :
    ∃ code lines t, executeCmd s cmd = some (code, lines, t) ∧
      t.directory j = s.directory j ∧
      ∃ shown, readFile (s.directory j).filename s = some (0, shown, s) ∧
        readFile (s.directory j).filename t = some (0, shown, t) := by
  obtain ⟨code, lines, t, hrun, hspares⟩ := h.spares hname hlive hother
  exact ⟨code, lines, t, hrun, hspares.entry, hspares.read h.names hlive (h.chains j hlive)⟩

/-- A write that takes two more blocks beside a file of two blocks. -/
theorem commands_spare_others_write :
    ∃ code lines t,
      executeCmd twoFiles (.write [98] (List.replicate 70 122)) = some (code, lines, t) ∧
      t.directory 0 = twoFiles.directory 0 ∧
      ∃ shown, readFile [97] twoFiles = some (0, shown, twoFiles) ∧
        readFile [97] t = some (0, shown, t) := by
  have hsized : Sized twoFiles twoChains := by
    refine ⟨twoFiles_linked, fun i hi => ?_⟩
    rcases twoFiles_live.mp hi with rfl | rfl
    · show 40 ≤ 32 * 2
      decide
    · show 5 ≤ 32 * 1
      decide
  have hname : (Command.write [98] (List.replicate 70 122)).NameOk := by decide
  have hother : (twoFiles.directory 0).filename ≠ [98] := by
    show [97] ≠ [98]
    decide
  exact commands_spare_others hsized hname (twoFiles_live.mpr (.inl rfl)) hother

end OsProjects.Fat
