import OsProjects.Fat.Invariant

/-!
# Range safety

The seek loop of `write_file` and the loop of `delete_file` follow the FAT
without looking at the block numbers. They stay inside the arrays because every
entry ever stored is a block number or the end mark: `RangeSafe` is kept by every
command that returns, whatever the names are and whatever has happened to the
chains (`RangeSafe.step`).

`Command.accesses` lists what the loops touch; each of these accesses is inside
its array in every state reached (`fat_range_safe`).
-/

namespace OsProjects.Fat

open OsProjects.Lib OsProjects.Lib.Runs

/-! ## What the loops access -/

/-- An access to `fat_table[block]`, or a `memcpy` of `length` bytes to `offset`
in a block of `data_area`. -/
inductive Access
  | entry (block : Int)
  | copy (block : Int) (offset length : Nat)
  deriving DecidableEq, Repr

def InRange (block : Int) : Prop := 0 ≤ block ∧ block < numBlocks

/-- The access is inside the array, and a copy inside its block. -/
def Access.Safe : Access → Prop
  | .entry block => InRange block
  | .copy block offset length => InRange block ∧ offset + length ≤ blockSize

/-- The seek loop (`walk`). -/
def walkAccesses (fat : Table) : (steps : Nat) → (block : Int) → List Access
  | 0, _ => []
  | steps + 1, block =>
      .entry block ::
        match toBlock block with
        | none => []
        | some b => if fat b = eof then [] else walkAccesses fat steps (fat b)

/-- The writing loop (`appendLoop`): linking a new block writes two entries. -/
def appendAccesses : (fuel : Nat) → FileSystem → (block : Int) → (offset : Nat) →
    (data : List UInt8) → List Access
  | _, _, _, _, [] => []
  | 0, _, _, _, _ => []
  | fuel + 1, s, block, offset, data =>
      match toBlock block with
      | none => []
      | some b =>
          match makeRoom s b offset with
          | none => []
          | some (s, newBlock, start) =>
              let toWrite := min data.length (blockSize - start)
              (if blockSize - offset = 0 then [.entry block, .entry (ofBlock newBlock)] else []) ++
                .copy (ofBlock newBlock) start toWrite ::
                  appendAccesses fuel
                    { s with dataArea := memcpy s.dataArea newBlock start (data.take toWrite) }
                    (ofBlock newBlock) (start + toWrite) (data.drop toWrite)

/-- The loop of `read_file` (`readLoop`). -/
def readAccesses (fat : Table) : (fuel : Nat) → (block : Int) → (remaining : Nat) → List Access
  | 0, _, _ => []
  | fuel + 1, block, remaining =>
      if block = eof ∨ remaining = 0 then []
      else
        match toBlock block with
        | none => []
        | some b =>
            .entry block :: readAccesses fat fuel (fat b) (remaining - min remaining blockSize)

/-- The first `fuel` iterations of the loop of `delete_file` (`freeLoop`). -/
def freeAccesses : (fuel : Nat) → Table → (block : Int) → List Access
  | 0, _, _ => []
  | fuel + 1, fat, block =>
      if block = eof then []
      else
        .entry block ::
          match toBlock block with
          | none => []
          | some b => freeAccesses fuel (Function.update fat b 0) (fat b)

/-- `write_file`, given the bytes its loop is to write. -/
def writeAccesses (filename data : List UInt8) (s : FileSystem) : List Access :=
  (findFile s filename).elim [] fun i =>
    let entry := s.directory i
    (toBlock entry.startBlock).elim [] fun _ =>
      walkAccesses s.fatTable (entry.size / blockSize) entry.startBlock ++
        (walk s.fatTable (entry.size / blockSize) entry.startBlock).elim [] fun block =>
          appendAccesses data.length s block (entry.size % blockSize) data

/-- What the loops of a command access when they follow the FAT; a deletion is
looked at for `fuel` iterations. -/
def Command.accesses (fuel : Nat) (s : FileSystem) : Command → List Access
  | .create _ => []
  | .write filename data => writeAccesses filename (toAppend data) s
  | .read filename =>
      (findFile s filename).elim [] fun i =>
        let entry := s.directory i
        if entry.size = 0 ∨ entry.startBlock = -1 then []
        else readAccesses s.fatTable entry.size entry.startBlock entry.size
  | .delete filename =>
      (findFile s filename).elim [] fun i =>
        freeAccesses fuel s.fatTable (s.directory i).startBlock

/-- The line says that a block number is out of range. -/
def Line.corrupt : Line → Bool
  | .invalidStartBlock _ | .chainCorrupt _ | .readCorrupt _ => true
  | _ => false

/-! ## Entries in range -/

theorem inRange_ofBlock (b : Fin numBlocks) : InRange (ofBlock b) :=
  ⟨Int.natCast_nonneg _, Int.ofNat_lt.mpr b.isLt⟩

theorem InRange.exists_block {v : Int} (h : InRange v) : ∃ b, v = ofBlock b := by
  obtain ⟨hpos, hlt⟩ := h
  exact ⟨⟨v.toNat, by omega⟩, (Int.toNat_of_nonneg hpos).symm⟩

/-- A value the FAT may hold. -/
def Valid (v : Int) : Prop := InRange v ∨ v = eof

/-- Every entry is a block number or the end mark. -/
def ValidTable (fat : Table) : Prop := ∀ b, Valid (fat b)

variable {fat fat' : Table} {s t : FileSystem} {v : Int} {b : Fin numBlocks}

theorem valid_ofBlock (b : Fin numBlocks) : Valid (ofBlock b) := Or.inl (inRange_ofBlock b)

theorem ValidTable.update (h : ValidTable fat) (b : Fin numBlocks) (hv : Valid v) :
    ValidTable (Function.update fat b v) := by
  intro c
  by_cases hc : c = b
  · rw [hc, Function.update_self]
    exact hv
  · rw [Function.update_of_ne hc]
    exact h c

theorem ValidTable.extend (h : ValidTable fat) (n : Nat) (b : Fin numBlocks) :
    ValidTable (extend n fat b).1 := by
  induction n generalizing fat b with
  | zero => exact h
  | succ n ih =>
      rw [Fat.extend]
      cases findFreeBlock fat with
      | none => exact h
      | some new =>
          exact ih ((h.update b (valid_ofBlock new)).update new (Or.inr rfl)) new

/-! ## The loops -/

/-- The seek loop leaves the array exactly if one of its accesses does. -/
theorem walk_none_iff (steps : Nat) :
    walk fat steps v = none ↔ ∃ a ∈ walkAccesses fat steps v, ¬ a.Safe := by
  induction steps generalizing v with
  | zero => simp [walk, walkAccesses]
  | succ steps ih =>
      by_cases hv : InRange v
      · have hsafe : (Access.entry v).Safe := hv
        obtain ⟨b, rfl⟩ := hv.exists_block
        by_cases heof : fat b = eof
        · simp [walk, walkAccesses, heof, hsafe]
        · simp [walk, walkAccesses, heof, hsafe, ih]
      · have hblock : toBlock v = none := dif_neg hv
        exact iff_of_true (by simp [walk, hblock]) ⟨.entry v, List.mem_cons_self, hv⟩

/-- The seek loop ends at a block. -/
theorem walk_valid (h : ValidTable fat) (steps : Nat) (hv : InRange v) :
    ∃ last, walk fat steps v = some (ofBlock last) := by
  induction steps generalizing v with
  | zero =>
      obtain ⟨b, rfl⟩ := hv.exists_block
      exact ⟨b, rfl⟩
  | succ steps ih =>
      obtain ⟨b, rfl⟩ := hv.exists_block
      by_cases heof : fat b = eof
      · exact ⟨b, by simp [walk, heof]⟩
      · obtain ⟨last, hwalk⟩ := ih ((h b).resolve_right heof)
        exact ⟨last, by simp [walk, heof, hwalk]⟩

theorem makeRoom_offset {u : FileSystem} {newBlock : Fin numBlocks} {offset start : Nat}
    (hoffset : offset ≤ blockSize) (h : makeRoom s b offset = some (u, newBlock, start)) :
    start ≤ blockSize := by
  unfold makeRoom at h
  split at h
  · obtain ⟨c, -, heq⟩ := Option.map_eq_some_iff.mp h
    cases heq
    exact Nat.zero_le _
  · cases h
    exact hoffset

/-- A copy never goes beyond its block. -/
theorem appendAccesses_safe {fuel offset : Nat} {data : List UInt8} (hoffset : offset ≤ blockSize) :
    ∀ a ∈ appendAccesses fuel s (ofBlock b) offset data, a.Safe := by
  induction fuel generalizing s b offset data with
  | zero => cases data <;> simp [appendAccesses]
  | succ fuel ih =>
      cases data with
      | nil => simp [appendAccesses]
      | cons x data =>
          rw [appendAccesses, toBlock_ofBlock]
          · dsimp only
            cases hroom : makeRoom s b offset with
            | none => simp
            | some room =>
                obtain ⟨u, newBlock, start⟩ := room
                have hstart := makeRoom_offset hoffset hroom
                intro a ha
                rcases List.mem_append.mp ha with ha | ha
                · split at ha
                  · simp only [List.mem_cons, List.not_mem_nil, or_false] at ha
                    rcases ha with rfl | rfl
                    · exact inRange_ofBlock b
                    · exact inRange_ofBlock newBlock
                  · exact absurd ha List.not_mem_nil
                · rcases List.mem_cons.mp ha with rfl | ha
                  · exact ⟨inRange_ofBlock newBlock, by omega⟩
                  · exact ih (by omega) a ha
          · simp

/-- The loop of `read_file` meets no bad block number. -/
theorem readLoop_valid (h : ValidTable s.fatTable) (fuel : Nat) (remaining : Nat) (hv : Valid v) :
    (readLoop s fuel v remaining).2 = true ∧
      (∀ line ∈ (readLoop s fuel v remaining).1, line.corrupt = false) ∧
      ∀ a ∈ readAccesses s.fatTable fuel v remaining, a.Safe := by
  induction fuel generalizing v remaining with
  | zero => simp [readLoop, readAccesses]
  | succ fuel ih =>
      by_cases hstop : v = eof ∨ remaining = 0
      · simp [readLoop, readAccesses, hstop]
      · obtain ⟨b, rfl⟩ := (hv.resolve_right (not_or.mp hstop).1).exists_block
        obtain ⟨hok, hlines, hsafe⟩ := ih (remaining - min remaining blockSize) (h b)
        rw [readLoop, readAccesses, if_neg hstop, if_neg hstop, toBlock_ofBlock]
        refine ⟨hok, fun line hline => ?_, fun a ha => ?_⟩
        · rcases List.mem_cons.mp hline with rfl | hline
          · rfl
          · exact hlines line hline
        · rcases List.mem_cons.mp ha with rfl | ha
          · exact inRange_ofBlock b
          · exact hsafe a ha

/-- Freeing stays inside the table as long as it goes on. -/
theorem freeAccesses_safe (h : ValidTable fat) (fuel : Nat) (hv : Valid v) :
    ∀ a ∈ freeAccesses fuel fat v, a.Safe := by
  induction fuel generalizing fat v with
  | zero => simp [freeAccesses]
  | succ fuel ih =>
      by_cases heof : v = eof
      · simp [freeAccesses, heof]
      · have hrange := hv.resolve_right heof
        obtain ⟨b, rfl⟩ := hrange.exists_block
        intro a ha
        rw [freeAccesses, if_neg heof, toBlock_ofBlock] at ha
        rcases List.mem_cons.mp ha with rfl | ha
        · exact hrange
        · exact ih (h.update b (valid_ofBlock 0)) (h b) a ha

theorem freeLoop_valid {fuel : Nat} (h : ValidTable fat) (hfree : freeLoop fuel fat v = some fat') :
    ValidTable fat' := by
  induction fuel generalizing fat v with
  | zero => simp [freeLoop] at hfree
  | succ fuel ih =>
      rw [freeLoop] at hfree
      split at hfree
      · rw [← Option.some.inj hfree]
        exact h
      · split at hfree
        · simp at hfree
        · next b _ => exact ih (h.update b (valid_ofBlock 0)) hfree

/-! ## The commands -/

structure RangeSafe (s : FileSystem) : Prop where
  entries : ∀ b, 0 ≤ s.fatTable b ∧ s.fatTable b < numBlocks ∨ s.fatTable b = eof
  starts : ∀ i, 0 ≤ (s.directory i).startBlock ∧ (s.directory i).startBlock < numBlocks
  names : ∀ i j, s.Live i → s.Live j → i ≠ j →
    (s.directory i).filename ≠ (s.directory j).filename

theorem RangeSafe.distinct (h : RangeSafe s) : s.DistinctNames := by
  intro i j hi heq
  by_contra hne
  have hj : s.Live j := by
    rw [FileSystem.Live, heq]
    exact hi
  exact h.names j i hj hi hne heq

theorem RangeSafe.zero : RangeSafe .zero where
  entries _ := Or.inl (inRange_ofBlock 0)
  starts _ := inRange_ofBlock 0
  names _ _ hi := absurd rfl hi

variable {filename data : List UInt8} {i : Fin maxFileNum} {cmd : Command}

/-- One slot gets a start block in range, and a name that no other slot has if it
gets one at all. -/
theorem RangeSafe.change_slot (h : RangeSafe s) (hfat : ValidTable t.fatTable)
    (hdir : ∀ j, j ≠ i → t.directory j = s.directory j)
    (hstart : InRange (t.directory i).startBlock)
    (hname : t.Live i → ∀ j, j ≠ i → (s.directory j).filename ≠ (t.directory i).filename) :
    RangeSafe t := by
  refine ⟨hfat, fun j => ?_, ?_⟩
  · by_cases hj : j = i
    · rw [hj]
      exact hstart
    · rw [hdir j hj]
      exact h.starts j
  · have hdistinct := h.distinct.change_slot hdir hname
    intro j k _ hk hne heq
    exact hne (hdistinct k j hk heq)

theorem RangeSafe.created (h : RangeSafe s) (hfind : findFile s filename = none)
    (b : Fin numBlocks) : RangeSafe (created s filename i b) := by
  refine h.change_slot (i := i) ?_ (fun j hj => created_other hj) ?_ ?_
  · exact ValidTable.update h.entries b (Or.inr rfl)
  · rw [created_self]
    exact inRange_ofBlock b
  · intro _ j _
    rw [created_self]
    exact findFile_none hfind j

theorem RangeSafe.appended (h : RangeSafe s) (last : Fin numBlocks) :
    RangeSafe (appended s i last data) := by
  refine h.change_slot (i := i) ?_ (fun j hj => appended_other hj) ?_ ?_
  · exact ValidTable.extend h.entries _ last
  · rw [appended_startBlock]
    exact h.starts i
  · intro hi j hj heq
    rw [appended_filename] at heq
    rw [FileSystem.Live, appended_filename] at hi
    exact hj (h.distinct i j hi heq)

/-- Deleting a file, or what an unused slot still points to. -/
theorem RangeSafe.removed (h : RangeSafe s) (hfat : ValidTable fat) :
    RangeSafe { s with
      fatTable := fat
      directory := Function.update s.directory i { s.directory i with filename := [] } } := by
  refine h.change_slot (i := i) hfat (fun j hj => Function.update_of_ne hj _ _) ?_ ?_
  · show InRange (Function.update s.directory i _ i).startBlock
    rw [Function.update_self]
    exact h.starts i
  · intro hi
    refine absurd ?_ hi
    show (Function.update s.directory i _ i).filename = []
    rw [Function.update_self]

theorem RangeSafe.toBlock_start (h : RangeSafe s) (i : Fin maxFileNum) :
    ∃ start, toBlock (s.directory i).startBlock = some start := by
  obtain ⟨start, hstart⟩ := InRange.exists_block (h.starts i)
  exact ⟨start, by rw [hstart, toBlock_ofBlock]⟩

/-- `write_file` appends where the seek loop ends, whether or not that is the last
block of a file. -/
theorem RangeSafe.writeBytes_eq {last : Fin numBlocks} (h : RangeSafe s)
    (hfind : findFile s filename = some i)
    (hwalk : walk s.fatTable ((s.directory i).size / blockSize) (s.directory i).startBlock =
      some (ofBlock last)) :
    writeBytes filename data s = appendAt filename data s i (ofBlock last) := by
  obtain ⟨start, hstart⟩ := h.toBlock_start i
  exact writeBytes_of_walk hfind hstart hwalk

theorem RangeSafe.writeAccesses_safe (h : RangeSafe s) (hfind : findFile s filename = some i)
    (data : List UInt8) : ∀ a ∈ writeAccesses filename data s, a.Safe := by
  obtain ⟨start, hstart⟩ := h.toBlock_start i
  obtain ⟨last, hwalk⟩ := walk_valid h.entries ((s.directory i).size / blockSize) (h.starts i)
  intro a ha
  simp only [writeAccesses, hfind, hstart, hwalk, Option.elim_some] at ha
  rcases List.mem_append.mp ha with ha | ha
  · by_contra hbad
    have hnone := (walk_none_iff _).mpr ⟨a, ha, hbad⟩
    simp [hwalk] at hnone
  · exact appendAccesses_safe (Nat.mod_lt _ (by decide)).le a ha

theorem appendLines_ok (s : FileSystem) (filename : List UInt8) (i : Fin maxFileNum)
    (last : Fin numBlocks) (n : Nat) :
    ∀ line ∈ appendLines s filename i last n, line.corrupt = false := by
  intro line hline
  rw [appendLines, partialLine] at hline
  split at hline
  · rcases List.mem_cons.mp hline with rfl | hline
    · rfl
    · rw [List.mem_singleton.mp hline]
      rfl
  · rw [List.mem_singleton.mp hline]
    rfl

theorem RangeSafe.read (h : RangeSafe s) (hfind : findFile s filename = some i) :
    ∃ lines, readFile filename s = some (0, lines, s) ∧ (∀ line ∈ lines, line.corrupt = false) ∧
      ∀ a ∈ (Command.read filename).accesses 0 s, a.Safe := by
  obtain ⟨hok, hlines, hsafe⟩ := readLoop_valid h.entries (s.directory i).size
    (s.directory i).size (Or.inl (h.starts i))
  have hstart : (s.directory i).startBlock ≠ -1 := by
    have hpos := (h.starts i).1
    omega
  simp only [Command.accesses, readFile, hfind, Option.elim_some, hstart, or_false, if_false]
  split
  · exact ⟨_, rfl, by simp [Line.corrupt], by simp⟩
  · refine ⟨_, rfl, ?_, hsafe⟩
    intro line hline
    simp only [List.mem_cons, List.mem_append, List.not_mem_nil, or_false] at hline
    rcases hline with (rfl | hline) | rfl
    · rfl
    · exact hlines line hline
    · rfl

/-- What a command can do to the file system: nothing, a new file, an append where
the seek loop ends, or the removal of an entry with the blocks it leads to. -/
inductive Effect (s : FileSystem) (filename : List UInt8) : FileSystem → Prop
  | unchanged : Effect s filename s
  | created {i : Fin maxFileNum} {b : Fin numBlocks} :
      findFile s filename = none → ¬ s.Live i → s.fatTable b = 0 →
      Effect s filename (created s filename i b)
  | appended {i : Fin maxFileNum} {last : Fin numBlocks} {data : List UInt8} :
      findFile s filename = some i →
      walk s.fatTable ((s.directory i).size / blockSize) (s.directory i).startBlock =
        some (ofBlock last) →
      Effect s filename (appended s i last data)
  | removed {i : Fin maxFileNum} {fat : Table} : findFile s filename = some i →
      freeLoop (numBlocks + 2) s.fatTable (s.directory i).startBlock = some fat →
      Effect s filename
        { s with
          fatTable := fat
          directory := Function.update s.directory i { s.directory i with filename := [] } }

theorem createFile_effect {code : Int} {lines : List Line}
    (hrun : createFile filename s = some (code, lines, t)) :
    Effect s filename t ∧ ∀ line ∈ lines, line.corrupt = false := by
  rcases createFile_cases filename s with
    ⟨-, hcase⟩ | ⟨-, hcase⟩ | ⟨i, b, hfind, hdead, hfree, hcase⟩
  · rw [hcase] at hrun
    cases hrun
    exact ⟨.unchanged, by simp [Line.corrupt]⟩
  · rw [hcase] at hrun
    cases hrun
    exact ⟨.unchanged, by simp [Line.corrupt]⟩
  · rw [hcase] at hrun
    split at hrun
    · cases hrun
      exact ⟨.created hfind hdead hfree, by simp [Line.corrupt]⟩
    · cases hrun

theorem RangeSafe.write_effect {code : Int} {lines : List Line} (h : RangeSafe s)
    (hrun : writeBytes filename data s = some (code, lines, t)) :
    Effect s filename t ∧ ∀ line ∈ lines, line.corrupt = false := by
  cases hfind : findFile s filename with
  | none =>
      rw [writeBytes, hfind] at hrun
      cases hrun
      exact ⟨.unchanged, by simp [Line.corrupt]⟩
  | some i =>
      obtain ⟨last, hwalk⟩ := walk_valid h.entries ((s.directory i).size / blockSize) (h.starts i)
      rw [h.writeBytes_eq hfind hwalk, appendAt_eq] at hrun
      split at hrun
      · cases hrun
        exact ⟨.appended hfind hwalk, appendLines_ok s filename i last _⟩
      · cases hrun

/-- The effect of a command that returns; it reports no bad block number. -/
theorem RangeSafe.effect {code : Int} {lines : List Line} (h : RangeSafe s)
    (hrun : executeCmd s cmd = some (code, lines, t)) :
    Effect s cmd.filename t ∧ ∀ line ∈ lines, line.corrupt = false := by
  cases cmd with
  | create filename => exact createFile_effect hrun
  | write filename data => exact h.write_effect hrun
  | read filename =>
      replace hrun : readFile filename s = some (code, lines, t) := hrun
      cases hfind : findFile s filename with
      | none =>
          rw [readFile_none hfind] at hrun
          cases hrun
          exact ⟨.unchanged, by simp [Line.corrupt]⟩
      | some i =>
          obtain ⟨lines', hread, hok, -⟩ := h.read hfind
          rw [hread] at hrun
          cases hrun
          exact ⟨.unchanged, hok⟩
  | delete filename =>
      replace hrun : deleteFile filename s = some (code, lines, t) := hrun
      cases hfind : findFile s filename with
      | none =>
          rw [deleteFile_none hfind] at hrun
          cases hrun
          exact ⟨.unchanged, by simp [Line.corrupt]⟩
      | some i =>
          rw [deleteFile, hfind] at hrun
          obtain ⟨fat, hfree, heq⟩ := Option.map_eq_some_iff.mp hrun
          cases heq
          exact ⟨.removed hfind hfree, by simp [Line.corrupt]⟩

/-- Every command that returns keeps the ranges. -/
theorem RangeSafe.step (h : RangeSafe s) (heffect : Effect s filename t) : RangeSafe t := by
  cases heffect with
  | unchanged => exact h
  | created hfind _ _ => exact h.created hfind _
  | appended _ _ => exact h.appended _
  | removed _ hfree => exact h.removed (freeLoop_valid h.entries hfree)

theorem RangeSafe.accesses_safe (h : RangeSafe s) (cmd : Command) (fuel : Nat) :
    ∀ a ∈ cmd.accesses fuel s, a.Safe := by
  cases hfind : findFile s cmd.filename with
  | none =>
      cases cmd <;> simp_all [Command.accesses, Command.filename, writeAccesses]
  | some i =>
      cases cmd with
      | create filename => simp [Command.accesses]
      | write filename data => exact h.writeAccesses_safe hfind (toAppend data)
      | read filename =>
          obtain ⟨-, -, -, hsafe⟩ := h.read hfind
          exact hsafe
      | delete filename =>
          replace hfind : findFile s filename = some i := hfind
          simp only [Command.accesses, hfind, Option.elim_some]
          exact freeAccesses_safe h.entries fuel (Or.inl (h.starts i))

/-! ## Runs -/

theorem rangeSafe_of_run {cmds : List Command} {outs : List (Int × List Line)}
    (hrun : fatMachine.run .zero cmds = some (outs, t)) : RangeSafe t := by
  have hany : fatMachine.Along (fun _ _ => True) .zero cmds :=
    Machine.along_iff.mpr fun _ _ _ _ _ _ => trivial
  refine hany.reached_inv RangeSafe ?_ RangeSafe.zero hrun
  intro s cmd o u h _ hstep
  exact h.step (h.effect (fatMachine_step.mp hstep)).1

/-- **Range safety.** In every state reached all block numbers are in range and
the names of the files differ; whatever command comes next, it meets no bad block
number and stays inside the arrays. -/
theorem fat_range_safe {cmds : List Command} {outs : List (Int × List Line)}
    (hrun : fatMachine.run .zero cmds = some (outs, t)) :
    RangeSafe t ∧
      ∀ cmd : Command,
        (∀ code lines u, executeCmd t cmd = some (code, lines, u) →
          ∀ line ∈ lines, line.corrupt = false) ∧
        ∀ fuel, ∀ a ∈ cmd.accesses fuel t, a.Safe := by
  have hsafe := rangeSafe_of_run hrun
  exact ⟨hsafe, fun cmd => ⟨fun _ _ _ hcmd => (hsafe.effect hcmd).2, hsafe.accesses_safe cmd⟩⟩

/-- Two files, of which the second one is deleted again. -/
theorem fat_range_safe_deleted :
    ∃ outs t, fatMachine.run .zero
      [.create [97], .create [98], .write [97] (List.replicate 40 120), .delete [98]] =
        some (outs, t) ∧ RangeSafe t := by
  have hsome : (fatMachine.run .zero [.create [97], .create [98],
      .write [97] (List.replicate 40 120), .delete [98]]).isSome = true := by decide +kernel
  obtain ⟨⟨outs, t⟩, hrun⟩ := Option.isSome_iff_exists.mp hsome
  exact ⟨outs, t, hrun, (fat_range_safe hrun).1⟩

end OsProjects.Fat
