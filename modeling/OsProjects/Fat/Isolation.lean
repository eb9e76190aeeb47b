import OsProjects.Fat.Invariant

/-!
# Isolation of a file

Two runs of the same commands, except that the data written to files other than
`f` differ in content: does `read_file(f)` print the same? The tables and the
directory are the same in both runs, and `f` has as many blocks as its size
needs, so what is printed are bytes written to `f`, as long as

* no write links block 0 (blocks of two files would get mixed up);
* no write to `f` starts when its last block is exactly full: the size would grow
  by bytes for which no block was allocated, and the next blocks would be shown
  to their end, with what deleted files left in them (`isolation_lost`).
-/

namespace OsProjects.Fat

open OsProjects.Lib OsProjects.Lib.Runs

/-- The same command, or a write to a file other than `f` of as many bytes. -/
inductive SameBut (f : List UInt8) : Command → Command → Prop
  | same (cmd : Command) : SameBut f cmd cmd
  | write {filename data data' : List UInt8} (hne : filename ≠ f)
      (hlen : data'.length = data.length) :
      SameBut f (.write filename data) (.write filename data')

/-- A write of some bytes to `f` when its last block is exactly full. -/
def OverwritesBlock (f : List UInt8) (s : FileSystem) : Command → Prop
  | .write filename data =>
      filename = f ∧ (toAppend data).length ≠ 0 ∧
        ∃ i, findFile s filename = some i ∧ (s.directory i).size ≠ 0 ∧
          (s.directory i).size % 32 = 0
  | _ => False

/-- The same tables, and for `f` the same bytes up to its size. -/
structure Agree (f : List UInt8) (s s' : FileSystem) (chain : Chains) : Prop where
  layout : Layout s chain
  fat : s'.fatTable = s.fatTable
  dir : s'.directory = s.directory
  size_le : ∀ i, s.Live i → (s.directory i).filename = f →
    (s.directory i).size ≤ 32 * (chain i).length
  bytes : ∀ i, s.Live i → (s.directory i).filename = f →
    (chainBytes s'.dataArea (chain i)).take (s.directory i).size =
      (chainBytes s.dataArea (chain i)).take (s.directory i).size

variable {f filename data data' bytes bytes' : List UInt8} {s s' t : FileSystem} {chain : Chains}
  {i : Fin maxFileNum} {b last : Fin numBlocks} {front : List (Fin numBlocks)}
  {cmd cmd' : Command}

theorem Agree.findFile (h : Agree f s s' chain) (filename : List UInt8) :
    findFile s' filename = findFile s filename :=
  findFile_congr fun j => by rw [h.dir]

/-! ## Creating and deleting -/

/-- `create_file` does not look at the data. -/
theorem createFile_congr (hfat : s'.fatTable = s.fatTable) (hdir : s'.directory = s.directory) :
    createFile filename s' = (createFile filename s).map fun r =>
      (r.1, r.2.1, { r.2.2 with dataArea := s'.dataArea }) := by
  obtain ⟨fat, dir, area⟩ := s
  obtain ⟨fat', dir', area'⟩ := s'
  obtain rfl : fat' = fat := hfat
  obtain rfl : dir' = dir := hdir
  have hfind : findFile ⟨fat', dir', area'⟩ filename = findFile ⟨fat', dir', area⟩ filename :=
    findFile_congr fun _ => rfl
  rw [createFile, createFile, hfind]
  cases findFile ⟨fat', dir', area⟩ filename with
  | some i => rfl
  | none =>
      dsimp only
      generalize List.findSome? _ (List.finRange maxFileNum) = found
      cases found with
      | none => rfl
      | some p =>
          dsimp only
          split <;> rfl

theorem Agree.created (h : Agree f s s' chain) (hfind : Fat.findFile s filename = none)
    (hdead : ¬ s.Live i) (hfree : s.fatTable b = 0) (hname : filename ≠ []) :
    Agree f (created s filename i b)
      { created s filename i b with dataArea := s'.dataArea } (Function.update chain i [b]) := by
  refine ⟨h.layout.created hfind hdead hfree hname, rfl, rfl, ?_, ?_⟩
  · intro j hj hf
    by_cases hji : j = i
    · rw [hji, created_self]
      exact Nat.zero_le _
    · rw [FileSystem.Live, created_other hji] at hj
      rw [created_other hji] at hf ⊢
      rw [Function.update_of_ne hji]
      exact h.size_le j hj hf
  · intro j hj hf
    by_cases hji : j = i
    · rw [hji, created_self]
      rfl
    · rw [FileSystem.Live, created_other hji] at hj
      rw [created_other hji] at hf ⊢
      rw [Function.update_of_ne hji]
      exact h.bytes j hj hf

theorem Agree.removed (h : Agree f s s' chain) (hlive : s.Live i) :
    Agree f (removed s i (chain i)) (removed s' i (chain i)) (Function.update chain i []) := by
  have hother : ∀ j, (Fat.removed s i (chain i)).Live j → j ≠ i ∧ s.Live j := by
    intro j hj
    by_cases hji : j = i
    · rw [FileSystem.Live, hji, removed_self] at hj
      exact absurd rfl hj
    · exact ⟨hji, by rwa [FileSystem.Live, removed_other hji] at hj⟩
  refine ⟨h.layout.removed hlive, ?_, ?_, ?_, ?_⟩
  · show (fun b => if b ∈ chain i then 0 else s'.fatTable b) = _
    rw [h.fat]
    rfl
  · show Function.update s'.directory i _ = _
    rw [h.dir]
    rfl
  · intro j hj hf
    obtain ⟨hji, hsj⟩ := hother j hj
    rw [removed_other hji] at hf ⊢
    rw [Function.update_of_ne hji]
    exact h.size_le j hsj hf
  · intro j hj hf
    obtain ⟨hji, hsj⟩ := hother j hj
    rw [removed_other hji] at hf ⊢
    rw [Function.update_of_ne hji]
    exact h.bytes j hsj hf

/-! ## Writing and reading -/

theorem Agree.appendAlloc (h : Agree f s s' chain) (n : Nat) :
    appendAlloc s' i last n = appendAlloc s i last n := by
  rw [Fat.appendAlloc, Fat.appendAlloc, h.fat, h.dir]

theorem Agree.appendedLen (h : Agree f s s' chain) (n : Nat) :
    appendedLen s' i last n = appendedLen s i last n := by
  rw [Fat.appendedLen, Fat.appendedLen, h.appendAlloc, h.dir]

section Append

variable (h : Agree f s s' chain) (hlive : s.Live i) (hi : chain i = front ++ [last])
  (hzero : s.fatTable 0 ≠ 0 ∨ bytes.length ≤ 32 - (s.directory i).size % 32)

include h hlive hi hzero

/-- The data of another file are not touched. -/
theorem Agree.bytes_other (hlen : bytes'.length = bytes.length) {j : Fin maxFileNum}
    (hj : j ≠ i) (hsj : s.Live j) :
    chainBytes (appended s i last bytes).dataArea (chain j) = chainBytes s.dataArea (chain j) ∧
      chainBytes (appended s' i last bytes').dataArea (chain j) =
        chainBytes s'.dataArea (chain j) := by
  have hgrown := h.layout.append_grown hlive hi hzero
  have hlast : last ∈ chain i := by simp [hi]
  have hout : ∀ c ∈ chain j, c ≠ last ∧ c ∉ (Fat.appendAlloc s i last bytes.length).2 :=
    fun c hc => h.layout.toLinked.notMem_grown hlive hlast (fun _ => hgrown.taken) hj hsj hc
  constructor
  · refine chainBytes_congr fun c hc => ?_
    exact appendedArea_other (hout c hc).1 (hout c hc).2
  · refine chainBytes_congr fun c hc => ?_
    apply appendedArea_other (hout c hc).1
    rw [h.appendAlloc, hlen]
    exact (hout c hc).2

/-- The bytes shown of `f` are the old ones and the new data. -/
theorem Agree.bytes_self (hf : (s.directory i).filename = f)
    (hmid : bytes.length = 0 ∨ (s.directory i).size = 0 ∨ (s.directory i).size % 32 ≠ 0) :
    (s.directory i).size + Fat.appendedLen s i last bytes.length ≤
        32 * (front ++ last :: (Fat.appendAlloc s i last bytes.length).2).length ∧
      (chainBytes (appendedArea s' i last bytes)
        (front ++ last :: (Fat.appendAlloc s i last bytes.length).2)).take
          ((s.directory i).size + Fat.appendedLen s i last bytes.length) =
      (chainBytes (appendedArea s i last bytes)
        (front ++ last :: (Fat.appendAlloc s i last bytes.length).2)).take
          ((s.directory i).size + Fat.appendedLen s i last bytes.length) := by
  have hgrown := h.layout.append_grown hlive hi hzero
  have hchain := h.layout.toLinked.grown_chain (t := Fat.appended s i last bytes) hlive hi hgrown
  have hlow := h.layout.sizes i hlive
  have hhigh := h.size_le i hlive hf
  have hold := h.bytes i hlive hf
  rw [hi, List.length_append, List.length_singleton] at hlow hhigh
  rw [hi] at hold
  have hsplit : bytes = [] ∨ (s.directory i).size =
      32 * front.length + (s.directory i).size % 32 := by
    rcases hmid with hnil | hmid
    · exact Or.inl (List.length_eq_zero_iff.mp hnil)
    · exact Or.inr (by omega)
  refine ⟨appended_size_le hsplit hhigh, ?_⟩
  rw [appended_content hsplit hhigh hchain.nodup, ← hold]
  -- the second run has the same directory and takes the same blocks
  have hrun := appended_content (s := s') (i := i) (h.dir ▸ hsplit) (h.dir ▸ hhigh)
    (by rw [h.appendAlloc]; exact hchain.nodup)
  rwa [h.appendAlloc, h.appendedLen, h.dir] at hrun

theorem Agree.appended (hlen : bytes'.length = bytes.length)
    (hf : (s.directory i).filename = f → bytes' = bytes ∧
      (bytes.length = 0 ∨ (s.directory i).size = 0 ∨ (s.directory i).size % 32 ≠ 0)) :
    Agree f (appended s i last bytes) (appended s' i last bytes')
      (Function.update chain i (front ++ last :: (Fat.appendAlloc s i last bytes.length).2)) := by
  have hold : ∀ j, (Fat.appended s i last bytes).Live j → s.Live j := by
    intro j hj
    rwa [FileSystem.Live, appended_filename] at hj
  refine ⟨h.layout.appended hlive hi hzero, ?_, ?_, ?_, ?_⟩
  · show (Fat.appendAlloc s' i last bytes'.length).1 = _
    rw [h.appendAlloc, hlen]
    rfl
  · show Function.update s'.directory i _ = Function.update s.directory i _
    rw [h.appendedLen, h.dir, hlen]
  · intro j hj hjf
    rw [appended_filename] at hjf
    by_cases hji : j = i
    · subst hji
      rw [Function.update_self, appended_self]
      exact (h.bytes_self hlive hi hzero hjf (hf hjf).2).1
    · rw [Function.update_of_ne hji, appended_other hji]
      exact h.size_le j (hold j hj) hjf
  · intro j hj hjf
    rw [appended_filename] at hjf
    by_cases hji : j = i
    · subst hji
      obtain ⟨rfl, hmid⟩ := hf hjf
      rw [Function.update_self, appended_self]
      exact (h.bytes_self hlive hi hzero hjf hmid).2
    · obtain ⟨hsame, hsame'⟩ := h.bytes_other hlive hi hzero hlen hji (hold j hj)
      rw [Function.update_of_ne hji, appended_other hji, hsame, hsame']
      exact h.bytes j (hold j hj) hjf

end Append

theorem length_toAppend_congr (hlen : data'.length = data.length) :
    (toAppend data').length = (toAppend data).length := by
  have hdata : dataLen data' = dataLen data := by
    unfold dataLen
    rw [hlen]
  rw [toAppend, toAppend, List.length_take, List.length_take, hdata, hlen]

/-- The chain of a file, seen from the second run. -/
theorem Agree.second_chain (h : Agree f s s' chain) (hlive : s.Live i) :
    blockPtr.Chain s'.fatTable (s'.directory i).startBlock (chain i) := by
  rw [h.fat, h.dir]
  exact h.layout.chains i hlive

theorem Agree.write {r : Result} (h : Agree f s s' chain) (hname : filename ≠ [])
    (hzero : ¬ LinksZero s (.write filename data))
    (hfull : ¬ OverwritesBlock f s (.write filename data))
    (hlen : data'.length = data.length) (hf : filename = f → data' = data)
    (hrun : writeFile filename data s = some r) :
    ∃ r', writeFile filename data' s' = some r' ∧ ∃ chain', Agree f r.2.2 r'.2.2 chain' := by
  cases hfind : Fat.findFile s filename with
  | none =>
      rw [writeFile_none hfind] at hrun
      obtain rfl := Option.some.inj hrun
      exact ⟨_, writeFile_none ((h.findFile filename).trans hfind), chain, h⟩
  | some i =>
      have hlive := findFile_live hfind hname
      obtain ⟨front, last, hi, hwalk⟩ := h.layout.split_last hlive
      have hlen' := length_toAppend_congr hlen
      have hwrite : writeFile filename data s = _ :=
        writeFile_eq hfind (hi ▸ h.layout.chains i hlive) hwalk
      have hwrite' : writeFile filename data' s' = _ :=
        writeFile_eq ((h.findFile filename).trans hfind) (hi ▸ h.second_chain hlive) (h.dir ▸ hwalk)
      rw [hwrite] at hrun
      rw [h.dir, hlen', h.appendedLen] at hwrite'
      split at hrun
      · next hbound =>
          obtain rfl := Option.some.inj hrun
          refine ⟨_, hwrite'.trans (if_pos hbound), _,
            h.appended hlive hi (room_of_not_linksZero hfind hzero) hlen' fun hif => ⟨?_, ?_⟩⟩
          · rw [hf ((findFile_name hfind).symm.trans hif)]
          · by_contra hno
            obtain ⟨hne, hno⟩ := not_or.mp hno
            obtain ⟨hpos, hmod⟩ := not_or.mp hno
            exact hfull ⟨(findFile_name hfind).symm.trans hif, hne, i, hfind, hpos,
              not_not.mp hmod⟩
      · cases hrun

/-- What is read of `f` is the same. -/
theorem Agree.readLines (h : Agree f s s' chain) (hlive : s.Live i)
    (hf : (s.directory i).filename = f) : readLines s' filename i = readLines s filename i := by
  rw [Fat.readLines, Fat.readLines, h.dir,
    readLoop_congr (h.layout.chains i hlive) (fun b _ => congrFun h.fat b)
      (h.bytes i hlive hf)]

theorem Agree.read {r : Result} (h : Agree f s s' chain) (hname : filename ≠ [])
    (hrun : readFile filename s = some r) :
    ∃ r', readFile filename s' = some r' ∧ (∃ chain', Agree f r.2.2 r'.2.2 chain') ∧
      (filename = f → (r'.1, r'.2.1) = (r.1, r.2.1)) := by
  cases hfind : Fat.findFile s filename with
  | none =>
      rw [readFile_none hfind] at hrun
      obtain rfl := Option.some.inj hrun
      exact ⟨_, readFile_none ((h.findFile filename).trans hfind), ⟨chain, h⟩, fun _ => rfl⟩
  | some i =>
      have hlive := findFile_live hfind hname
      rw [readFile_eq hfind (h.layout.chains i hlive)] at hrun
      obtain rfl := Option.some.inj hrun
      refine ⟨_, readFile_eq ((h.findFile filename).trans hfind) (h.second_chain hlive),
        ⟨chain, h⟩, ?_⟩
      intro hf
      rw [h.readLines hlive ((findFile_name hfind).trans hf)]

/-! ## One command -/

theorem Agree.executeCmd {r : Result} (h : Agree f s s' chain) (hcmd : SameBut f cmd cmd')
    (hname : cmd.NameOk) (hzero : ¬ LinksZero s cmd) (hfull : ¬ OverwritesBlock f s cmd)
    (hrun : executeCmd s cmd = some r) :
    ∃ r', executeCmd s' cmd' = some r' ∧ (∃ chain', Agree f r.2.2 r'.2.2 chain') ∧
      (cmd = .read f → (r'.1, r'.2.1) = (r.1, r.2.1)) := by
  cases hcmd with
  | write hne hlen =>
      obtain ⟨r', hrun', hagree⟩ :=
        h.write hname.1 hzero hfull hlen (fun heq => absurd heq hne) hrun
      exact ⟨r', hrun', hagree, fun hread => by cases hread⟩
  | same =>
      cases cmd with
      | create filename =>
          have hrun' : createFile filename s' = _ := createFile_congr h.fat h.dir
          have hlen : filename.length < maxFileName := hname.2
          obtain ⟨code, lines, t, hcreate, hcase⟩ := createFile_spec (s := s) hlen
          obtain rfl := Option.some.inj (hcreate.symm.trans hrun)
          rw [hcreate] at hrun'
          refine ⟨_, hrun', ?_, fun hread => by cases hread⟩
          rcases hcase with rfl | ⟨i, b, hfind, hdead, hfree, rfl⟩
          · exact ⟨chain, h.layout, rfl, rfl, h.size_le, h.bytes⟩
          · exact ⟨_, h.created hfind hdead hfree hname.1⟩
      | write filename data =>
          obtain ⟨r', hrun', hagree⟩ := h.write hname.1 hzero hfull rfl (fun _ => rfl) hrun
          exact ⟨r', hrun', hagree, fun hread => by cases hread⟩
      | read filename =>
          obtain ⟨r', hrun', hagree, hsame⟩ := h.read hname.1 hrun
          refine ⟨r', hrun', hagree, fun hread => hsame ?_⟩
          cases hread
          rfl
      | delete filename =>
          cases hfind : Fat.findFile s filename with
          | none =>
              rw [Fat.executeCmd, deleteFile_none hfind] at hrun
              obtain rfl := Option.some.inj hrun
              exact ⟨_, deleteFile_none ((h.findFile filename).trans hfind), ⟨chain, h⟩,
                fun _ => rfl⟩
          | some i =>
              have hlive := findFile_live hfind hname.1
              rw [Fat.executeCmd, deleteFile_eq hfind (h.layout.chains i hlive)] at hrun
              obtain rfl := Option.some.inj hrun
              exact ⟨_, deleteFile_eq ((h.findFile filename).trans hfind) (h.second_chain hlive),
                ⟨_, h.removed hlive⟩, fun _ => rfl⟩

/-! ## Two runs -/

/-- As long as no write links block 0 and no write to `f` starts in a full block,
every `read_file(f)` returns and prints the same in both runs; and only an
overflow of a size can stop them. -/
theorem file_isolated_along {cmds cmds' : List Command} (hnames : ∀ cmd ∈ cmds, cmd.NameOk)
    (hsame : List.Forall₂ (SameBut f) cmds cmds')
    (hsafe : fatMachine.Along (fun s cmd => ¬ LinksZero s cmd ∧ ¬ OverwritesBlock f s cmd)
      .zero cmds) :
    (∀ outs t, fatMachine.run .zero cmds = some (outs, t) →
      ∃ outs' t', fatMachine.run .zero cmds' = some (outs', t') ∧
        ∀ k : Nat, cmds[k]? = some (.read f) → outs'[k]? = outs[k]?) ∧
      (fatMachine.Along SizeFits .zero cmds →
        ∃ outs t, fatMachine.run .zero cmds = some (outs, t)) := by
  have hzero : fatMachine.Along (fun s cmd => ¬ LinksZero s cmd) .zero cmds :=
    hsafe.mono fun _ _ h => h.1
  refine ⟨fun outs t hrun => ?_, run_exists hnames hzero⟩
  have hstart : ∃ chain, Agree f .zero .zero chain :=
    ⟨_, Layout.zero, rfl, rfl, fun _ hi => absurd rfl hi, fun _ _ _ => rfl⟩
  have hstep : ∀ s s' cmd cmd' o t, (∃ chain, Agree f s s' chain) → SameBut f cmd cmd' →
      (cmd ∈ cmds ∧ ¬ LinksZero s cmd ∧ ¬ OverwritesBlock f s cmd) →
        fatMachine.step s cmd = some (o, t) → ∃ o' t', fatMachine.step s' cmd' = some (o', t') ∧
          (∃ chain, Agree f t t' chain) ∧ (cmd = .read f → o' = o) := by
    rintro s s' cmd cmd' o t ⟨chain, h⟩ hcmd ⟨hmem, hzero, hfull⟩ hstep
    rw [fatMachine_step] at hstep
    obtain ⟨r', hrun', hagree, heq⟩ :=
      h.executeCmd hcmd (hnames cmd hmem) hzero hfull hstep
    exact ⟨(r'.1, r'.2.1), r'.2.2, fatMachine_step.mpr hrun', hagree, heq⟩
  obtain ⟨outs', t', hrun', hout⟩ := hsafe.with_mem.lockstep
    (fun s s' => ∃ chain, Agree f s s' chain) (SameBut f)
    (fun cmd o o' => cmd = .read f → o' = o) hstep hstart hsame hrun
  refine ⟨outs', t', hrun', fun k hk => ?_⟩
  obtain ⟨o, o', ho, ho', heq⟩ := hout k _ hk
  rw [ho, ho', heq rfl]

/-- A file of one byte beside another file. -/
theorem file_isolated_neighbour :
    (fatMachine.run .zero [.create [97], .write [97] [122], .create [98], .write [98] [120],
        .read [97]]).isSome = true ∧
      ∀ outs t, fatMachine.run .zero [.create [97], .write [97] [122], .create [98],
          .write [98] [120], .read [97]] = some (outs, t) →
        ∃ outs' t', fatMachine.run .zero [.create [97], .write [97] [122], .create [98],
            .write [98] [121], .read [97]] = some (outs', t') ∧
          ∀ k : Nat, [Command.create [97], .write [97] [122], .create [98], .write [98] [120],
            .read [97]][k]? = some (.read [97]) → outs'[k]? = outs[k]? := by
  refine ⟨by decide +kernel, (file_isolated_along (by decide +kernel) ?_ ?_).1⟩
  · exact .cons (.same _) (.cons (.same _) (.cons (.same _)
      (.cons (.write (by decide) rfl) (.cons (.same _) .nil))))
  · have hbyte : ∀ (s : FileSystem) (name : List UInt8) (x : UInt8),
        ¬ LinksZero s (.write name [x]) := by
      rintro s name x ⟨i, -, -, hmore⟩
      have hle := (toAppend_isPrefix [x]).length_le
      rw [List.length_singleton] at hle
      omega
    refine ⟨⟨id, id⟩, fun o t hstep => ⟨⟨hbyte t _ _, ?_⟩, fun _ _ _ => ⟨⟨id, id⟩,
      fun _ u _ => ⟨⟨hbyte u _ _, fun h => absurd h.1 (by decide)⟩,
        fun _ _ _ => ⟨⟨id, id⟩, fun _ _ _ => trivial⟩⟩⟩⟩⟩
    -- the new file is empty when it is written
    rintro ⟨-, -, i, -, hsize, -⟩
    have hempty : (fatMachine.step .zero (.create [97])).map
        (fun r => decide (∀ i, (r.2.directory i).size = 0)) = some true := by decide +kernel
    rw [hstep] at hempty
    exact hsize (of_decide_eq_true (Option.some.inj hempty) i)

/-- `x` is written to the second file only, which is deleted before the first one
is appended to. -/
def leakRun (x : UInt8) : List Command :=
  [.create [97], .create [98], .write [98] (List.replicate 70 x), .delete [98],
    .write [97] (List.replicate 32 122), .write [97] (List.replicate 40 122), .read [97]]

/-- The first file shows what the deleted one left behind. -/
theorem isolation_lost :
    (∀ cmd ∈ leakRun 120, cmd.NameOk) ∧
      List.Forall₂ (SameBut [97]) (leakRun 120) (leakRun 121) ∧
      ∃ outs t outs' t', fatMachine.run .zero (leakRun 120) = some (outs, t) ∧
        fatMachine.run .zero (leakRun 121) = some (outs', t') ∧
        (leakRun 120)[6]? = some (.read [97]) ∧ outs'[6]? ≠ outs[6]? := by
  refine ⟨by decide +kernel, ?_, ?_⟩
  · exact .cons (.same _) (.cons (.same _) (.cons (.write (by decide) rfl) (.cons (.same _)
      (.cons (.same _) (.cons (.same _) (.cons (.same _) .nil))))))
  · have hfirst : (fatMachine.run .zero (leakRun 120)).map (fun r => r.1[6]?) =
        some (some (0, [.contentOf [97], .bytes (List.replicate 32 122),
          .bytes (List.replicate 8 122 ++ List.replicate 24 120), .newline])) := by
      decide +kernel
    have hsecond : (fatMachine.run .zero (leakRun 121)).map (fun r => r.1[6]?) =
        some (some (0, [.contentOf [97], .bytes (List.replicate 32 122),
          .bytes (List.replicate 8 122 ++ List.replicate 24 121), .newline])) := by
      decide +kernel
    obtain ⟨⟨outs, t⟩, hrun, hout⟩ := Option.map_eq_some_iff.mp hfirst
    obtain ⟨⟨outs', t'⟩, hrun', hout'⟩ := Option.map_eq_some_iff.mp hsecond
    refine ⟨outs, t, outs', t', hrun, hrun', rfl, ?_⟩
    have hout : outs[6]? = _ := hout
    have hout' : outs'[6]? = _ := hout'
    rw [hout, hout']
    decide

end OsProjects.Fat
