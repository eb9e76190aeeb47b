import OsProjects.Fat.Contents

/-!
# The operations on a file with a chain

What `create_file`, `write_file`, `read_file` and `delete_file` return and leave
behind, once the loops have been replaced by what they do along the chain of the
file: `created`, `appended` and `removed` are the three states, and `readLines`
is what is printed.
-/

namespace OsProjects.Fat

open OsProjects.Lib

variable {s : FileSystem} {filename data : List UInt8} {i j : Fin maxFileNum}
  {front l : List (Fin numBlocks)} {b last : Fin numBlocks}

/-! ## Finding a file -/

/-- The slot holds a file. -/
def FileSystem.Live (s : FileSystem) (i : Fin maxFileNum) : Prop :=
  (s.directory i).filename ≠ []

/-- No other slot has the name of a live file. -/
def FileSystem.DistinctNames (s : FileSystem) : Prop :=
  ∀ i j, s.Live i → (s.directory j).filename = (s.directory i).filename → j = i

theorem findFile_name (h : findFile s filename = some i) : (s.directory i).filename = filename := by
  unfold findFile at h
  have hi := List.find?_some h
  simpa using hi

theorem findFile_none (h : findFile s filename = none) (i : Fin maxFileNum) :
    (s.directory i).filename ≠ filename := by
  unfold findFile at h
  have hi := List.find?_eq_none.mp h i (List.mem_finRange i)
  simpa using hi

theorem findFile_live (h : findFile s filename = some i) (hname : filename ≠ []) : s.Live i := by
  rw [FileSystem.Live, findFile_name h]
  exact hname

theorem findFile_of_live (hdistinct : s.DistinctNames) (hlive : s.Live i) :
    findFile s (s.directory i).filename = some i := by
  cases hfind : findFile s (s.directory i).filename with
  | none => exact absurd rfl (findFile_none hfind i)
  | some j => rw [hdistinct i j hlive (findFile_name hfind)]

theorem findFile_congr {t : FileSystem}
    (h : ∀ j, (t.directory j).filename = (s.directory j).filename) :
    findFile t filename = findFile s filename := by
  unfold findFile
  simp only [h]

/-! ## Creating -/

/-- A new file in slot `i`, of one block `b`. -/
def created (s : FileSystem) (filename : List UInt8) (i : Fin maxFileNum) (b : Fin numBlocks) :
    FileSystem :=
  { s with
    fatTable := Function.update s.fatTable b eof
    directory := Function.update s.directory i ⟨filename, ofBlock b, 0⟩ }

theorem created_self (s : FileSystem) (filename : List UInt8) (i : Fin maxFileNum)
    (b : Fin numBlocks) : (created s filename i b).directory i = ⟨filename, ofBlock b, 0⟩ :=
  Function.update_self _ _ _

theorem created_other (h : j ≠ i) : (created s filename i b).directory j = s.directory j :=
  Function.update_of_ne h _ _

/-- `create_file` fails because the name is taken, or because there is no unused
slot or no free block, and changes nothing; or it takes an unused slot and a free
block, if the name fits. -/
theorem createFile_cases (filename : List UInt8) (s : FileSystem) :
    (findFile s filename ≠ none ∧
        createFile filename s = some (-1, [.alreadyExists filename], s)) ∨
      ((∀ i b, ¬ s.Live i → s.fatTable b ≠ 0) ∧
        createFile filename s = some (-1, [.directoryOrDiskFull], s)) ∨
      ∃ i b, findFile s filename = none ∧ ¬ s.Live i ∧ s.fatTable b = 0 ∧
        createFile filename s =
          if filename.length < maxFileName then
            some (0, [.created filename], created s filename i b)
          else none := by
  have hblock : ∀ c, findFreeBlock s.fatTable = some c → s.fatTable c = 0 := by
    intro c hc
    rw [findFreeBlock_eq] at hc
    exact mem_freeBlocks.mp (List.mem_of_head? hc)
  rw [createFile]
  cases hfind : findFile s filename with
  | some i => exact Or.inl ⟨by simp, rfl⟩
  | none =>
      dsimp only
      split
      · next hnone =>
          refine Or.inr (Or.inl ⟨?_, rfl⟩)
          intro i b hdead hfree
          have hslot := List.findSome?_eq_none_iff.mp hnone i (List.mem_finRange i)
          have hname : (s.directory i).filename = [] := not_not.mp hdead
          rw [if_pos (beq_iff_eq.mpr hname), Option.map_eq_none_iff, findFreeBlock_eq,
            List.head?_eq_none_iff] at hslot
          have hmem : b ∈ freeBlocks s.fatTable := mem_freeBlocks.mpr hfree
          rw [hslot] at hmem
          exact List.not_mem_nil hmem
      · next i b hfound =>
          refine Or.inr (Or.inr ⟨i, b, rfl, ?_⟩)
          obtain ⟨k, -, hk⟩ := List.exists_of_findSome?_eq_some hfound
          split at hk
          · next hempty =>
              obtain ⟨c, hc, heq⟩ := Option.map_eq_some_iff.mp hk
              obtain ⟨rfl, rfl⟩ := Prod.mk.inj heq
              exact ⟨not_not_intro (eq_of_beq hempty), hblock _ hc, rfl⟩
          · cases hk

theorem createFile_spec (hlen : filename.length < maxFileName) :
    ∃ code lines t, createFile filename s = some (code, lines, t) ∧
      (t = s ∨ ∃ i b, findFile s filename = none ∧ ¬ s.Live i ∧ s.fatTable b = 0 ∧
        t = created s filename i b) := by
  rcases createFile_cases filename s with ⟨-, hrun⟩ | ⟨-, hrun⟩ | ⟨i, b, hfind, hdead, hfree, hrun⟩
  · exact ⟨_, _, s, hrun, Or.inl rfl⟩
  · exact ⟨_, _, s, hrun, Or.inl rfl⟩
  · rw [if_pos hlen] at hrun
    exact ⟨_, _, _, hrun, Or.inr ⟨i, b, hfind, hdead, hfree, rfl⟩⟩

/-- With a new name that fits, an unused slot and a free block, `create_file`
succeeds. -/
theorem createFile_succeeds (hlen : filename.length < maxFileName)
    (hfind : findFile s filename = none) (hdead : ¬ s.Live i) (hfree : s.fatTable b = 0) :
    ∃ k c, ¬ s.Live k ∧ s.fatTable c = 0 ∧
      createFile filename s = some (0, [.created filename], created s filename k c) := by
  rcases createFile_cases filename s with ⟨hused, -⟩ | ⟨hfull, -⟩ | ⟨k, c, -, hk, hc, hrun⟩
  · exact absurd hfind hused
  · exact absurd hfree (hfull i b hdead)
  · rw [if_pos hlen] at hrun
    exact ⟨k, c, hk, hc, hrun⟩

/-! ## Appending -/

theorem toAppend_isPrefix (data : List UInt8) : toAppend data <+: data := by
  rw [toAppend]
  exact List.take_prefix _ _

/-- The allocation of an append of `n` bytes to the file in slot `i`. -/
def appendAlloc (s : FileSystem) (i : Fin maxFileNum) (last : Fin numBlocks) (n : Nat) :
    Table × List (Fin numBlocks) :=
  extend (blocksFor (n - (32 - (s.directory i).size % 32))) s.fatTable last

/-- How many of `n` bytes find a place. -/
def appendedLen (s : FileSystem) (i : Fin maxFileNum) (last : Fin numBlocks) (n : Nat) : Nat :=
  min n (32 - (s.directory i).size % 32 + 32 * (appendAlloc s i last n).2.length)

/-- Every block that is allocated gets a byte. -/
theorem lt_appendedLen {n : Nat} (hnew : (appendAlloc s i last n).2 ≠ []) :
    32 * (appendAlloc s i last n).2.length <
      appendedLen s i last n + (s.directory i).size % 32 := by
  have hpos := List.length_pos_iff.mpr hnew
  have hlen : (appendAlloc s i last n).2.length ≤
      blocksFor (n - (32 - (s.directory i).size % 32)) := length_extend_le _ _ _
  rw [blocksFor] at hlen
  rw [appendedLen]
  omega

/-- The last block is filled up from the offset on, the rest goes to the new
blocks. -/
def appendedArea (s : FileSystem) (i : Fin maxFileNum) (last : Fin numBlocks)
    (data : List UInt8) : Area :=
  fillBlocks
    (memcpy s.dataArea last ((s.directory i).size % 32)
      (data.take (32 - (s.directory i).size % 32)))
    (appendAlloc s i last data.length).2 (data.drop (32 - (s.directory i).size % 32))

/-- The state after an append to the file in slot `i`, whose last block is
`last`. -/
def appended (s : FileSystem) (i : Fin maxFileNum) (last : Fin numBlocks) (data : List UInt8) :
    FileSystem where
  fatTable := (appendAlloc s i last data.length).1
  directory := Function.update s.directory i
    { s.directory i with size := (s.directory i).size + appendedLen s i last data.length }
  dataArea := appendedArea s i last data

theorem appended_self (s : FileSystem) (i : Fin maxFileNum) (last : Fin numBlocks)
    (data : List UInt8) : (appended s i last data).directory i =
      { s.directory i with size := (s.directory i).size + appendedLen s i last data.length } :=
  Function.update_self _ _ _

theorem appended_other (h : j ≠ i) : (appended s i last data).directory j = s.directory j :=
  Function.update_of_ne h _ _

/-- An append keeps the names. -/
theorem appended_filename (s : FileSystem) (i j : Fin maxFileNum) (last : Fin numBlocks)
    (data : List UInt8) :
    ((appended s i last data).directory j).filename = (s.directory j).filename := by
  by_cases hj : j = i
  · rw [hj, appended_self]
  · rw [appended_other hj]

theorem appended_startBlock (s : FileSystem) (i j : Fin maxFileNum) (last : Fin numBlocks)
    (data : List UInt8) :
    ((appended s i last data).directory j).startBlock = (s.directory j).startBlock := by
  by_cases hj : j = i
  · rw [hj, appended_self]
  · rw [appended_other hj]

theorem appendAlloc_zero (s : FileSystem) (i : Fin maxFileNum) (last : Fin numBlocks) :
    appendAlloc s i last 0 = (s.fatTable, []) := by
  rw [appendAlloc, Nat.zero_sub]
  rfl

theorem appendedArea_nil (s : FileSystem) (i : Fin maxFileNum) (last : Fin numBlocks) :
    appendedArea s i last [] = s.dataArea := by
  rw [appendedArea, List.length_nil, appendAlloc_zero, List.take_nil, fillBlocks, memcpy_nil]

/-- An append leaves the data of all other blocks alone. -/
theorem appendedArea_other {c : Fin numBlocks} (hne : c ≠ last)
    (hnew : c ∉ (appendAlloc s i last data.length).2) :
    appendedArea s i last data c = s.dataArea c := by
  rw [appendedArea, fillBlocks_other hnew, memcpy_other hne]

section Bytes

variable (hmid : data = [] ∨ (s.directory i).size = 32 * front.length + (s.directory i).size % 32)

include hmid

/-- The blocks of the file suffice for its new size. -/
theorem appended_size_le (hsize : (s.directory i).size ≤ 32 * (front.length + 1)) :
    (s.directory i).size + appendedLen s i last data.length ≤
      32 * (front ++ last :: (appendAlloc s i last data.length).2).length := by
  rw [appendedLen, List.length_append, List.length_cons]
  rcases hmid with rfl | hsplit
  · rw [List.length_nil, Nat.zero_min]
    omega
  · omega

/-- An append that starts inside the last block: the new data follow the old
content. -/
theorem appended_content (hsize : (s.directory i).size ≤ 32 * (front.length + 1))
    (hnodup : (front ++ last :: (appendAlloc s i last data.length).2).Nodup) :
    (chainBytes (appendedArea s i last data)
        (front ++ last :: (appendAlloc s i last data.length).2)).take
          ((s.directory i).size + appendedLen s i last data.length) =
      (chainBytes s.dataArea (front ++ [last])).take (s.directory i).size ++
        data.take (appendedLen s i last data.length) := by
  rcases hmid with rfl | hsplit
  · rw [List.length_nil, appendAlloc_zero, appendedArea_nil, appendedLen, Nat.zero_min,
      List.take_nil, List.append_nil, Nat.add_zero]
  · have hfill := append_bytes s.dataArea data
      (Nat.mod_lt (s.directory i).size (by decide)) hnodup
    rw [← hsplit] at hfill
    have hwritten : data.take (32 - (s.directory i).size % 32 +
        32 * (appendAlloc s i last data.length).2.length) =
          data.take (appendedLen s i last data.length) := by
      rw [appendedLen, Nat.min_comm, ← List.take_eq_take_min]
    rw [hwritten] at hfill
    have htake := List.prefix_iff_eq_take.mp hfill
    have hlength : ((chainBytes s.dataArea (front ++ [last])).take (s.directory i).size ++
        data.take (appendedLen s i last data.length)).length =
          (s.directory i).size + appendedLen s i last data.length := by
      have hle : appendedLen s i last data.length ≤ data.length := Nat.min_le_left _ _
      rw [List.length_append, List.length_take, List.length_take, length_chainBytes,
        List.length_append, List.length_singleton]
      omega
    rw [hlength] at htake
    exact htake.symm

end Bytes

/-- What an append prints. -/
def appendLines (s : FileSystem) (filename : List UInt8) (i : Fin maxFileNum)
    (last : Fin numBlocks) (n : Nat) : List Line :=
  partialLine filename (blocksFor (n - (32 - (s.directory i).size % 32)))
    (appendAlloc s i last n).2.length ++ [.dataWritten filename]

theorem appendAt_eq (filename data : List UInt8) (s : FileSystem) (i : Fin maxFileNum)
    (last : Fin numBlocks) :
    appendAt filename data s i (ofBlock last) =
      if (s.directory i).size + appendedLen s i last data.length < intBound then
        some (0, appendLines s filename i last data.length, appended s i last data)
      else none := by
  have hoffset : (s.directory i).size % 32 < 32 := Nat.mod_lt _ (by decide)
  have hlen : data.length - ((data.drop (32 - (s.directory i).size % 32)).drop
      (32 * (appendAlloc s i last data.length).2.length)).length =
        appendedLen s i last data.length := by
    rw [appendedLen, List.length_drop, List.length_drop]
    omega
  rw [appendAt, blockSize_eq, appendLoop_eq filename hoffset]
  dsimp only
  rw [← appendAlloc, hlen]
  rfl

/-- `write_file` appends where its walk ends. -/
theorem writeBytes_of_walk {start : Fin numBlocks} {block : Int}
    (hfind : findFile s filename = some i)
    (hstart : toBlock (s.directory i).startBlock = some start)
    (hwalk : walk s.fatTable ((s.directory i).size / blockSize) (s.directory i).startBlock =
      some block) :
    writeBytes filename data s = appendAt filename data s i block := by
  rw [writeBytes, hfind]
  simp only [hstart, hwalk, Option.bind_some]

theorem writeBytes_eq (hfind : findFile s filename = some i)
    (hchain : blockPtr.Chain s.fatTable (s.directory i).startBlock (front ++ [last]))
    (hwalk : front.length ≤ (s.directory i).size / 32) :
    writeBytes filename data s = appendAt filename data s i (ofBlock last) := by
  have hblock : ∃ b, toBlock (s.directory i).startBlock = some b := by
    cases front with
    | nil => exact ⟨last, by rw [hchain.eq_ptr]; exact toBlock_ofBlock last⟩
    | cons b front => exact ⟨b, by rw [hchain.eq_ptr]; exact toBlock_ofBlock b⟩
  obtain ⟨b, hb⟩ := hblock
  exact writeBytes_of_walk hfind hb (walk_chain hchain hwalk)

/-- `write_file` appends, unless the size leaves the range of `int`. -/
theorem writeFile_eq (hfind : findFile s filename = some i)
    (hchain : blockPtr.Chain s.fatTable (s.directory i).startBlock (front ++ [last]))
    (hwalk : front.length ≤ (s.directory i).size / 32) :
    writeFile filename data s =
      if (s.directory i).size + appendedLen s i last (toAppend data).length < intBound then
        some (0, appendLines s filename i last (toAppend data).length,
          appended s i last (toAppend data))
      else none := by
  rw [writeFile, writeBytes_eq hfind hchain hwalk, appendAt_eq]

theorem writeFile_none (hfind : findFile s filename = none) :
    writeFile filename data s = some (-1, [.writeNotFound filename], s) := by
  rw [writeFile, writeBytes, hfind]

/-! ## Reading -/

/-- What `read_file` prints for the file in slot `i`. -/
def readLines (s : FileSystem) (filename : List UInt8) (i : Fin maxFileNum) : List Line :=
  if (s.directory i).size = 0 then [.empty filename]
  else
    .contentOf filename ::
      (readLoop s (s.directory i).size (s.directory i).startBlock (s.directory i).size).1 ++
        [.newline]

theorem readFile_eq (hfind : findFile s filename = some i)
    (hchain : blockPtr.Chain s.fatTable (s.directory i).startBlock l) :
    readFile filename s = some (0, readLines s filename i, s) := by
  have hstart : (s.directory i).startBlock ≠ -1 := by
    cases l with
    | nil =>
        rw [hchain.eq_eof]
        decide
    | cons b l =>
        rw [hchain.eq_ptr]
        show (b.val : Int) ≠ -1
        omega
  rw [readFile, hfind, readLines]
  dsimp only
  by_cases hsize : (s.directory i).size = 0
  · rw [if_pos hsize, if_pos hsize]
  · rw [if_neg hsize, if_neg hsize, if_neg hstart, readLoop_ok hchain]
    rfl

theorem readFile_none (hfind : findFile s filename = none) :
    readFile filename s = some (-1, [.notFound filename], s) := by
  rw [readFile, hfind]

/-- The bytes printed are those of the reading loop. -/
theorem printed_readLines (s : FileSystem) (filename : List UInt8) (i : Fin maxFileNum) :
    printed (readLines s filename i) =
      printed (readLoop s (s.directory i).size (s.directory i).startBlock
        (s.directory i).size).1 := by
  rw [readLines]
  by_cases hsize : (s.directory i).size = 0
  · rw [if_pos hsize, readLoop_stop (Or.inr hsize)]
    rfl
  · rw [if_neg hsize, List.cons_append, printed_cons, printed_append]
    simp [printed, Line.content]

/-! ## Deleting -/

/-- The file of slot `i` removed and its blocks `l` freed. -/
def removed (s : FileSystem) (i : Fin maxFileNum) (l : List (Fin numBlocks)) : FileSystem :=
  { s with
    fatTable := fun b => if b ∈ l then 0 else s.fatTable b
    directory := Function.update s.directory i { s.directory i with filename := [] } }

theorem removed_self (s : FileSystem) (i : Fin maxFileNum) (l : List (Fin numBlocks)) :
    (removed s i l).directory i = { s.directory i with filename := [] } :=
  Function.update_self _ _ _

theorem removed_other (h : j ≠ i) : (removed s i l).directory j = s.directory j :=
  Function.update_of_ne h _ _

theorem length_chain_le {fat : Table} {v : Int} (h : blockPtr.Chain fat v l) :
    l.length ≤ numBlocks := by
  have hcard := h.nodup.length_le_card
  rwa [Fintype.card_fin] at hcard

/-- Wherever in its chain an append starts, the size of a file stays far below the
range of `int`. -/
theorem appended_size_lt (hchain : blockPtr.Chain s.fatTable (s.directory i).startBlock l)
    (hsize : (s.directory i).size ≤ 32 * l.length) (b : Fin numBlocks) (n : Nat) :
    (s.directory i).size + appendedLen s i b n < intBound := by
  have hlen := length_chain_le hchain
  have hnew : (appendAlloc s i b n).2.length ≤ numBlocks + 2 := length_extend_le_of_any _ _ _
  have hblocks := numBlocks_eq
  rw [appendedLen, intBound]
  omega

theorem deleteFile_eq (hfind : findFile s filename = some i)
    (hchain : blockPtr.Chain s.fatTable (s.directory i).startBlock l) :
    deleteFile filename s = some (0, [.deleted filename], removed s i l) := by
  have hfuel : l.length < numBlocks + 2 := by
    have hle := length_chain_le hchain
    omega
  rw [deleteFile, hfind]
  dsimp only
  rw [freeLoop_chain hchain hfuel]
  rfl

theorem deleteFile_none (hfind : findFile s filename = none) :
    deleteFile filename s = some (-1, [.notFound filename], s) := by
  rw [deleteFile, hfind]

end OsProjects.Fat
