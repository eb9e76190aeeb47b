import OsProjects.Fat.Append
import OsProjects.Fat.Termination

/-!
# Deleting a file

On a disk of linked files `delete_file` gives back the blocks of one file and its
slot, and nothing else changes (`delete_frees_file`). What it gives back is enough
to create the file again.
-/

namespace OsProjects.Fat

open OsProjects.Lib

/-- Linked files of at least one block each, with names that fit into their
directory entries. -/
structure Regular (s : FileSystem) (chain : Chains) : Prop extends Linked s chain where
  nonempty : ∀ i, s.Live i → chain i ≠ []
  short : ∀ i, (s.directory i).filename.length < maxFileName

variable {s : FileSystem} {chain : Chains} {filename : List UInt8} {i : Fin maxFileNum}
  {l : List (Fin numBlocks)}

/-! ## After the deletion -/

theorem Regular.removed (h : Regular s chain) (hlive : s.Live i) :
    Regular (removed s i (chain i)) (Function.update chain i []) where
  toLinked := h.toLinked.removed hlive
  nonempty := by
    intro j hj
    obtain ⟨hne, hsj⟩ := removed_live hj
    rw [Function.update_of_ne hne]
    exact h.nonempty j hsj
  short := by
    intro j
    by_cases hji : j = i
    · rw [hji, removed_self]
      exact Nat.zero_lt_succ 99
    · rw [removed_other hji]
      exact h.short j

/-- The blocks of the file join the free ones. -/
theorem removed_freeBlocks (hnodup : l.Nodup) (hused : ∀ b ∈ l, s.fatTable b ≠ 0) :
    (freeBlocks (removed s i l).fatTable).Perm (freeBlocks s.fatTable ++ l) := by
  have hapart : (freeBlocks s.fatTable).Disjoint l := by
    intro b hfree hb
    exact hused b hb (mem_freeBlocks.mp hfree)
  have hboth := List.Nodup.append (freeBlocks_nodup s.fatTable) hnodup hapart
  apply (List.perm_ext_iff_of_nodup (freeBlocks_nodup _) hboth).mpr
  intro b
  rw [mem_freeBlocks, List.mem_append, mem_freeBlocks]
  by_cases hb : b ∈ l
  · have hfreed : (removed s i l).fatTable b = 0 := if_pos hb
    exact ⟨fun _ => Or.inr hb, fun _ => hfreed⟩
  · rw [removed_other_block hb]
    exact ⟨Or.inl, fun h => h.resolve_right hb⟩

/-- No file has the name of the deleted one. -/
theorem removed_findFile (hnames : s.DistinctNames) (hlive : s.Live i) :
    findFile (removed s i l) (s.directory i).filename = none := by
  cases hfind : findFile (removed s i l) (s.directory i).filename with
  | none => rfl
  | some j =>
      have hname := findFile_name hfind
      by_cases hji : j = i
      · rw [hji, removed_self] at hname
        exact absurd hname.symm hlive
      · rw [removed_other hji] at hname
        exact absurd (hnames i j hlive hname) hji

/-! ## Creating a file -/

/-- A file just created is empty. -/
theorem created_read {k : Fin maxFileNum} {c : Fin numBlocks} (h : Linked s chain)
    (hname : filename ≠ []) (hfind : findFile s filename = none) (hfree : s.fatTable c = 0) :
    readFile filename (created s filename k c) =
      some (0, [.empty filename], created s filename k c) := by
  have hself := created_self s filename k c
  have hlive : (created s filename k c).Live k := by
    rw [FileSystem.Live, hself]
    exact hname
  have hlinked := h.created (i := k) hfind hfree
  have hfound := findFile_of_live hlinked.names hlive
  rw [hself] at hfound
  rw [readFile_eq hfound (hlinked.chains k hlive), readLines, hself, if_pos rfl]

/-! ## The main result -/

/-- **`delete_file` frees exactly one file.** It returns 0, marks the blocks of
the file free and its slot unused, and changes nothing else. The disk stays
regular, it has so many more free blocks, and the file can be created again. -/
theorem delete_frees_file (h : Regular s chain) (hlive : s.Live i) :
    ∃ t, deleteFile (s.directory i).filename s =
        some (0, [.deleted (s.directory i).filename], t) ∧
      (∀ b, t.fatTable b = if b ∈ chain i then 0 else s.fatTable b) ∧
      t.directory i = { s.directory i with filename := [] } ∧
      (∀ j, j ≠ i → t.directory j = s.directory j) ∧
      t.dataArea = s.dataArea ∧
      Regular t (Function.update chain i []) ∧
      (freeBlocks t.fatTable).length = (freeBlocks s.fatTable).length + (chain i).length ∧
      ∃ k u, createFile (s.directory i).filename t =
          some (0, [.created (s.directory i).filename], u) ∧
        (u.directory k).filename = (s.directory i).filename ∧ (u.directory k).size = 0 ∧
        readFile (s.directory i).filename u =
          some (0, [.empty (s.directory i).filename], u) := by
  have hchain := h.chains i hlive
  have hperm := removed_freeBlocks (i := i) hchain.nodup (h.used i hlive)
  have hregular := h.removed hlive
  have hnew := removed_findFile (l := chain i) h.names hlive
  have hdead : ¬ (removed s i (chain i)).Live i := fun hi => (removed_live hi).1 rfl
  -- the first block of the file is free again
  obtain ⟨b, rest, hb⟩ := List.exists_cons_of_ne_nil (h.nonempty i hlive)
  have hfree : (removed s i (chain i)).fatTable b = 0 := by
    apply if_pos
    rw [hb]
    exact List.mem_cons_self
  obtain ⟨k, c, _, hc, hcreate⟩ := createFile_succeeds (h.short i) hnew hdead hfree
  refine ⟨removed s i (chain i), deleteFile_eq (findFile_of_live h.names hlive) hchain,
    fun _ => rfl, removed_self s i (chain i), fun j hj => removed_other hj, rfl, hregular, ?_,
    k, _, hcreate, ?_, ?_, ?_⟩
  · rw [hperm.length_eq, List.length_append]
  · rw [created_self]
  · rw [created_self]
  · exact created_read hregular.toLinked hlive hnew hc

/-- The file of two blocks is deleted beside the other one. -/
theorem delete_frees_file_beside :
    ∃ t, deleteFile [97] twoFiles = some (0, [.deleted [97]], t) ∧
      (∀ b, t.fatTable b = if b ∈ twoChains 0 then 0 else twoFiles.fatTable b) ∧
      t.directory 0 = { twoFiles.directory 0 with filename := [] } ∧
      (∀ j, j ≠ 0 → t.directory j = twoFiles.directory j) ∧
      t.dataArea = twoFiles.dataArea ∧
      Regular t (Function.update twoChains 0 []) ∧
      (freeBlocks t.fatTable).length = (freeBlocks twoFiles.fatTable).length + 2 ∧
      ∃ k u, createFile [97] t = some (0, [.created [97]], u) ∧
        (u.directory k).filename = [97] ∧ (u.directory k).size = 0 ∧
        readFile [97] u = some (0, [.empty [97]], u) := by
  have hregular : Regular twoFiles twoChains := by
    refine ⟨twoFiles_linked, fun i _ => ?_, fun i => ?_⟩
    · unfold twoChains
      split_ifs <;> simp
    · show (if i = 0 then (⟨[97], 0, 40⟩ : FileEntry) else
        if i = 1 then ⟨[98], 1, 5⟩ else ⟨[], 0, 0⟩).filename.length < maxFileName
      split_ifs <;> decide
  exact delete_frees_file hregular (twoFiles_live.mpr (.inl rfl))

end OsProjects.Fat
