import OsProjects.Fat.Linked
import OsProjects.Lib.Runs

/-!
# The FAT over whole runs

Along every run from the empty disk in which no append links block 0, the FAT is
intact: the live files have disjoint chains, and the blocks that are marked free
are those in no chain. An append that links block 0 stores the pointer 0, which
marks the block it extends as free (`intact_lost`).

* **`Layout`** — the invariant: linked files, no lost block, and no more blocks
  than the sizes account for (so the walk ends at the last block).
* **`Layout.step`** — one command.
* **`fat_intact_along`** — a run.
-/

namespace OsProjects.Fat

open OsProjects.Lib OsProjects.Lib.Runs

/-- The command interpreter: what is returned and printed is the output. -/
def fatMachine : Machine FileSystem Command (Int × List Line) where
  step s cmd := (executeCmd s cmd).map fun r => ((r.1, r.2.1), r.2.2)

def Command.filename : Command → List UInt8
  | .create filename => filename
  | .write filename _ => filename
  | .read filename => filename
  | .delete filename => filename

/-- A name that is not empty and fits into a directory entry. -/
def Command.NameOk (cmd : Command) : Prop :=
  cmd.filename ≠ [] ∧ cmd.filename.length < maxFileName

instance (cmd : Command) : Decidable cmd.NameOk := inferInstanceAs (Decidable (_ ∧ _))

/-- Every live file has a finite chain of its own, and exactly the blocks in no
chain are marked free. -/
def FatIntact (s : FileSystem) : Prop :=
  ∃ chain : Chains,
    (∀ i, s.Live i → blockPtr.Chain s.fatTable (s.directory i).startBlock (chain i) ∧
      chain i ≠ [] ∧ (chain i).Nodup) ∧
    (∀ i j, s.Live i → s.Live j → i ≠ j → (chain i).Disjoint (chain j)) ∧
    ∀ b, s.fatTable b = 0 ↔ ∀ i, s.Live i → b ∉ chain i

/-- The invariant behind `FatIntact`. -/
structure Layout (s : FileSystem) (chain : Chains) : Prop extends Linked s chain where
  nonempty : ∀ i, s.Live i → chain i ≠ []
  kept : ∀ b, s.fatTable b ≠ 0 → ∃ i, s.Live i ∧ b ∈ chain i
  sizes : ∀ i, s.Live i → 32 * ((chain i).length - 1) ≤ (s.directory i).size

variable {s t : FileSystem} {chain : Chains} {filename data : List UInt8} {i : Fin maxFileNum}
  {b : Fin numBlocks} {cmd : Command}

theorem Layout.intact (h : Layout s chain) : FatIntact s := by
  refine ⟨chain, fun i hi => ⟨h.chains i hi, h.nonempty i hi, (h.chains i hi).nodup⟩,
    h.disjoint, fun b => ⟨fun hfree i hi hb => h.used i hi b hb hfree, fun hnone => ?_⟩⟩
  by_contra hb
  obtain ⟨i, hi, hmem⟩ := h.kept b hb
  exact hnone i hi hmem

theorem Layout.zero : Layout .zero fun _ => [] := by
  have hdead : ∀ i, ¬ FileSystem.zero.Live i := fun i hi => hi rfl
  exact
    { names := fun i _ hi => absurd hi (hdead i)
      chains := fun i hi => absurd hi (hdead i)
      disjoint := fun i _ hi => absurd hi (hdead i)
      used := fun i hi => absurd hi (hdead i)
      nonempty := fun i hi => absurd hi (hdead i)
      kept := fun b hb => absurd rfl hb
      sizes := fun i hi => absurd hi (hdead i) }

theorem Layout.split_last (h : Layout s chain) (hi : s.Live i) :
    ∃ front last, chain i = front ++ [last] ∧ front.length ≤ (s.directory i).size / 32 := by
  refine ⟨(chain i).dropLast, (chain i).getLast (h.nonempty i hi),
    (List.dropLast_append_getLast _).symm, ?_⟩
  have hsize := h.sizes i hi
  rw [List.length_dropLast]
  omega

/-! ## One command -/

theorem Layout.created (h : Layout s chain) (hfind : findFile s filename = none)
    (hdead : ¬ s.Live i) (hfree : s.fatTable b = 0) (hname : filename ≠ []) :
    Layout (created s filename i b) (Function.update chain i [b]) := by
  have hother : ∀ j, j ≠ i → (Fat.created s filename i b).Live j → s.Live j := by
    intro j hj hlive
    rwa [FileSystem.Live, created_other hj] at hlive
  refine { h.toLinked.created hfind hfree with nonempty := ?_, kept := ?_, sizes := ?_ }
  · intro j hj
    by_cases hji : j = i
    · rw [hji, Function.update_self]
      exact List.cons_ne_nil b []
    · rw [Function.update_of_ne hji]
      exact h.nonempty j (hother j hji hj)
  · intro c hc
    by_cases hcb : c = b
    · refine ⟨i, ?_, by simp [hcb]⟩
      rw [FileSystem.Live, created_self]
      exact hname
    · have hold : s.fatTable c ≠ 0 :=
        fun hzero => hc ((Function.update_of_ne hcb _ _).trans hzero)
      obtain ⟨j, hj, hmem⟩ := h.kept c hold
      have hji : j ≠ i := fun heq => hdead (heq ▸ hj)
      refine ⟨j, ?_, by rwa [Function.update_of_ne hji]⟩
      rwa [FileSystem.Live, created_other hji]
  · intro j hj
    by_cases hji : j = i
    · rw [hji, Function.update_self]
      exact Nat.zero_le _
    · rw [Function.update_of_ne hji, created_other hji]
      exact h.sizes j (hother j hji hj)

theorem Layout.removed (h : Layout s chain) (hlive : s.Live i) :
    Layout (removed s i (chain i)) (Function.update chain i []) := by
  have hne : ∀ j, (Fat.removed s i (chain i)).Live j → j ≠ i := by
    rintro j hj rfl
    rw [FileSystem.Live, removed_self] at hj
    exact hj rfl
  have hother : ∀ j, (Fat.removed s i (chain i)).Live j → s.Live j := by
    intro j hj
    have hji := hne j hj
    rwa [FileSystem.Live, removed_other hji] at hj
  refine { h.toLinked.removed hlive with nonempty := ?_, kept := ?_, sizes := ?_ }
  · intro j hj
    rw [Function.update_of_ne (hne j hj)]
    exact h.nonempty j (hother j hj)
  · intro c hc
    have hcase : c ∉ chain i ∧ s.fatTable c ≠ 0 := by
      by_cases hmem : c ∈ chain i
      · exact absurd (if_pos hmem) hc
      · exact ⟨hmem, fun hzero => hc ((if_neg hmem).trans hzero)⟩
    obtain ⟨j, hj, hmem⟩ := h.kept c hcase.2
    have hji : j ≠ i := fun heq => hcase.1 (heq ▸ hmem)
    refine ⟨j, ?_, by rwa [Function.update_of_ne hji]⟩
    rwa [FileSystem.Live, removed_other hji]
  · intro j hj
    rw [Function.update_of_ne (hne j hj), removed_other (hne j hj)]
    exact h.sizes j (hother j hj)

/-- An append that does not link block 0 just lets the file grow. -/
theorem Layout.append_grown {front : List (Fin numBlocks)} {last : Fin numBlocks} {n : Nat}
    (h : Layout s chain) (hlive : s.Live i) (hi : chain i = front ++ [last])
    (hzero : s.fatTable 0 ≠ 0 ∨ n ≤ 32 - (s.directory i).size % 32) :
    Grown s.fatTable last (blocksFor (n - (32 - (s.directory i).size % 32)))
      (appendAlloc s i last n).1 (appendAlloc s i last n).2 := by
  have hchain := h.chains i hlive
  rw [hi] at hchain
  apply extend_grown hchain.last_link
  rcases hzero with hused | hfits
  · exact Or.inr (Or.inl hused)
  · exact Or.inl (by rw [blocksFor]; omega)

theorem Layout.appended {front : List (Fin numBlocks)} {last : Fin numBlocks}
    (h : Layout s chain) (hlive : s.Live i) (hi : chain i = front ++ [last])
    (hzero : s.fatTable 0 ≠ 0 ∨ data.length ≤ 32 - (s.directory i).size % 32) :
    Layout (appended s i last data)
      (Function.update chain i (front ++ last :: (appendAlloc s i last data.length).2)) := by
  have hgrown : Grown s.fatTable last _ (Fat.appended s i last data).fatTable _ :=
    h.append_grown hlive hi hzero
  have hnil : s.fatTable 0 ≠ 0 ∨ (appendAlloc s i last data.length).2 = [] := by
    refine hzero.imp_right fun hfits => ?_
    apply List.length_eq_zero_iff.mp
    have hcount := hgrown.count
    rw [blocksFor] at hcount
    omega
  have hlink := h.toLinked.grown hlive hi hgrown hnil (fun j hj => appended_other hj)
    (appended_filename s i i last data) (by rw [appended_self])
  have hold : ∀ j, (Fat.appended s i last data).Live j ↔ s.Live j := by
    intro j
    rw [FileSystem.Live, appended_filename, FileSystem.Live]
  refine { hlink with nonempty := ?_, kept := ?_, sizes := ?_ }
  · intro j hj
    by_cases hji : j = i
    · rw [hji, Function.update_self]
      simp
    · rw [Function.update_of_ne hji]
      exact h.nonempty j ((hold j).mp hj)
  · intro c hc
    -- a used block is in the longer chain, or has the owner it had
    by_cases hmem : c ∈ front ++ last :: (appendAlloc s i last data.length).2
    · exact ⟨i, (hold i).mpr hlive, by rwa [Function.update_self]⟩
    · have hout : c ≠ last ∧ c ∉ (appendAlloc s i last data.length).2 := by
        simp only [List.mem_append, List.mem_cons, not_or] at hmem
        exact hmem.2
      rw [hgrown.same c hout.1 hout.2] at hc
      obtain ⟨j, hj, hcj⟩ := h.kept c hc
      have hji : j ≠ i := by
        rintro rfl
        rw [hi] at hcj
        simp only [List.mem_append, List.mem_cons, not_or] at hmem hcj
        tauto
      exact ⟨j, (hold j).mpr hj, by rwa [Function.update_of_ne hji]⟩
  · intro j hj
    have hsize := h.sizes j ((hold j).mp hj)
    by_cases hji : j = i
    · subst hji
      rw [hi, List.length_append, List.length_singleton] at hsize
      rw [Function.update_self, appended_self, List.length_append, List.length_cons]
      by_cases hnone : (appendAlloc s j last data.length).2 = []
      · simp only [hnone, List.length_nil]
        omega
      · have hbytes := lt_appendedLen hnone
        dsimp only
        omega
    · rw [Function.update_of_ne hji, appended_other hji]
      exact hsize

/-- A write that allocates a block while block 0 is free. -/
def LinksZero (s : FileSystem) : Command → Prop
  | .write filename data =>
      ∃ i, findFile s filename = some i ∧ s.fatTable 0 = 0 ∧
        32 - (s.directory i).size % 32 < (toAppend data).length
  | _ => False

/-- The size a write leads to is an `int`. -/
def SizeFits (s : FileSystem) : Command → Prop
  | .write filename data =>
      ∀ i, findFile s filename = some i →
        (s.directory i).size + min (toAppend data).length
          (32 - (s.directory i).size % 32 + 32 * (freeBlocks s.fatTable).length) < intBound
  | _ => True

instance (s : FileSystem) : (cmd : Command) → Decidable (LinksZero s cmd)
  | .write _ _ => inferInstanceAs (Decidable (∃ _, _ ∧ _))
  | .create _ => isFalse id
  | .read _ => isFalse id
  | .delete _ => isFalse id

instance (s : FileSystem) : (cmd : Command) → Decidable (SizeFits s cmd)
  | .write _ _ => inferInstanceAs (Decidable (∀ _, _ → _))
  | .create _ => isTrue trivial
  | .read _ => isTrue trivial
  | .delete _ => isTrue trivial

theorem room_of_not_linksZero (hfind : findFile s filename = some i)
    (hzero : ¬ LinksZero s (.write filename data)) :
    s.fatTable 0 ≠ 0 ∨ (toAppend data).length ≤ 32 - (s.directory i).size % 32 := by
  by_contra hno
  obtain ⟨hfree, hmore⟩ := not_or.mp hno
  exact hzero ⟨i, hfind, not_not.mp hfree, not_le.mp hmore⟩

theorem Layout.write (h : Layout s chain) (hname : filename ≠ [])
    (hzero : ¬ LinksZero s (.write filename data)) :
    ∃ r chain', (writeFile filename data s = some r ∨
      writeFile filename data s = none ∧ ¬ SizeFits s (.write filename data)) ∧
        Layout r.2.2 chain' := by
  cases hfind : findFile s filename with
  | none => exact ⟨_, chain, Or.inl (writeFile_none hfind), h⟩
  | some i =>
      have hlive := findFile_live hfind hname
      obtain ⟨front, last, hi, hwalk⟩ := h.split_last hlive
      have hchain := h.chains i hlive
      rw [hi] at hchain
      have hroom := room_of_not_linksZero hfind hzero
      refine ⟨(0, appendLines s filename i last (toAppend data).length,
        Fat.appended s i last (toAppend data)), _, ?_, h.appended hlive hi hroom⟩
      rw [writeFile_eq hfind hchain hwalk]
      split
      · exact Or.inl rfl
      · next hbound =>
          refine Or.inr ⟨rfl, fun hfits => hbound ?_⟩
          have hcount := (h.append_grown hlive hi hroom).count
          have hsize := hfits i hfind
          rw [appendedLen]
          omega

theorem Layout.executeCmd (h : Layout s chain) (hname : cmd.NameOk) (hzero : ¬ LinksZero s cmd) :
    ∃ r chain', (executeCmd s cmd = some r ∨ executeCmd s cmd = none ∧ ¬ SizeFits s cmd) ∧
      Layout r.2.2 chain' := by
  cases cmd with
  | create filename =>
      obtain ⟨code, lines, t, hrun, hcase⟩ := createFile_spec (s := s) hname.2
      rcases hcase with rfl | ⟨i, b, hfind, hdead, hfree, rfl⟩
      · exact ⟨_, chain, Or.inl hrun, h⟩
      · exact ⟨_, _, Or.inl hrun, h.created hfind hdead hfree hname.1⟩
  | write filename data => exact h.write hname.1 hzero
  | read filename =>
      cases hfind : findFile s filename with
      | none => exact ⟨_, chain, Or.inl (readFile_none hfind), h⟩
      | some i =>
          have hchain := h.chains i (findFile_live hfind hname.1)
          exact ⟨_, chain, Or.inl (readFile_eq hfind hchain), h⟩
  | delete filename =>
      cases hfind : findFile s filename with
      | none => exact ⟨_, chain, Or.inl (deleteFile_none hfind), h⟩
      | some i =>
          have hlive := findFile_live hfind hname.1
          exact ⟨_, _, Or.inl (deleteFile_eq hfind (h.chains i hlive)), h.removed hlive⟩

theorem fatMachine_step {o : Int × List Line} :
    fatMachine.step s cmd = some (o, t) ↔ executeCmd s cmd = some (o.1, o.2, t) := by
  show (executeCmd s cmd).map _ = _ ↔ _
  rw [Option.map_eq_some_iff]
  constructor
  · rintro ⟨⟨code, lines, u⟩, hrun, heq⟩
    obtain ⟨rfl, rfl⟩ := Prod.mk.inj heq
    exact hrun
  · intro hrun
    exact ⟨_, hrun, rfl⟩

/-- What one command does to the invariant, and that only an overflow of a size
can stop it. -/
theorem Layout.step (h : Layout s chain) (hname : cmd.NameOk) (hzero : ¬ LinksZero s cmd) :
    (∀ o t, fatMachine.step s cmd = some (o, t) → ∃ chain', Layout t chain') ∧
      (SizeFits s cmd → ∃ o t, fatMachine.step s cmd = some (o, t)) := by
  obtain ⟨⟨code, lines, u⟩, chain', hcase, hu⟩ := h.executeCmd hname hzero
  constructor
  · intro o t hstep
    rw [fatMachine_step] at hstep
    rcases hcase with hrun | ⟨hnone, -⟩
    · rw [hrun] at hstep
      cases hstep
      exact ⟨chain', hu⟩
    · rw [hnone] at hstep
      cases hstep
  · intro hfits
    rcases hcase with hrun | ⟨-, hbad⟩
    · exact ⟨(code, lines), u, fatMachine_step.mpr hrun⟩
    · exact absurd hfits hbad

/-! ## Whole runs -/

section Runs

variable {cmds pre : List Command} (hnames : ∀ cmd ∈ cmds, cmd.NameOk)
  (hzero : fatMachine.Along (fun s cmd => ¬ LinksZero s cmd) .zero cmds)

include hnames hzero

theorem layout_of_run {outs : List (Int × List Line)}
    (hrun : fatMachine.run .zero cmds = some (outs, t)) : ∃ chain, Layout t chain := by
  refine hzero.with_mem.reached_inv (fun s => ∃ chain, Layout s chain) ?_ ⟨_, Layout.zero⟩ hrun
  rintro s cmd o u ⟨chain, h⟩ ⟨hmem, hok⟩ hstep
  exact (h.step (hnames cmd hmem) hok).1 o u hstep

theorem run_exists (hsizes : fatMachine.Along SizeFits .zero cmds) :
    ∃ outs t, fatMachine.run .zero cmds = some (outs, t) := by
  have hkeep : ∀ s cmd, (∃ chain, Layout s chain) →
      (cmd ∈ cmds ∧ ¬ LinksZero s cmd ∧ SizeFits s cmd) →
        ∃ o t, fatMachine.step s cmd = some (o, t) ∧ ∃ chain, Layout t chain := by
    rintro s cmd ⟨chain, h⟩ ⟨hmem, hok, hfits⟩
    obtain ⟨hkeep, hsome⟩ := h.step (hnames cmd hmem) hok
    obtain ⟨o, t, hstep⟩ := hsome hfits
    exact ⟨o, t, hstep, hkeep o t hstep⟩
  obtain ⟨outs, t, hrun, -⟩ :=
    (hzero.and hsizes).with_mem.run_inv _ hkeep ⟨_, Layout.zero⟩
  exact ⟨outs, t, hrun⟩

/-- As long as no write links block 0, the FAT is intact in every state that the
run reaches; and only an overflow of a size can stop the run. -/
theorem fat_intact_along (hpre : pre <+: cmds) :
    (∀ outs t, fatMachine.run .zero pre = some (outs, t) → FatIntact t) ∧
      (fatMachine.Along SizeFits .zero cmds →
        ∃ outs t, fatMachine.run .zero pre = some (outs, t)) := by
  have hnames' : ∀ cmd ∈ pre, cmd.NameOk := fun cmd hcmd => hnames cmd (hpre.subset hcmd)
  constructor
  · intro outs t hrun
    obtain ⟨chain, h⟩ := layout_of_run hnames' (hzero.of_isPrefix hpre) hrun
    exact h.intact
  · intro hsizes
    exact run_exists hnames' (hzero.of_isPrefix hpre) (hsizes.of_isPrefix hpre)

end Runs

/-- The blocks of a deleted file are used again beside a file that stays. -/
def reusingCommands : List Command :=
  [.create [97], .create [98], .write [98] (List.replicate 40 120), .delete [98], .create [99],
    .write [99] (List.replicate 70 121)]

theorem fat_intact_reuse :
    fatMachine.Along SizeFits .zero reusingCommands ∧
      ∀ pre, pre <+: reusingCommands →
        ∃ outs t, fatMachine.run .zero pre = some (outs, t) ∧ FatIntact t := by
  have hsizes : fatMachine.Along SizeFits .zero reusingCommands := by decide +kernel
  have hzero : fatMachine.Along (fun s cmd => ¬ LinksZero s cmd) .zero reusingCommands := by
    decide +kernel
  refine ⟨hsizes, fun pre hpre => ?_⟩
  obtain ⟨hintact, hends⟩ := fat_intact_along (by decide) hzero hpre
  obtain ⟨outs, t, hrun⟩ := hends hsizes
  exact ⟨outs, t, hrun, hintact outs t hrun⟩

/-- The first block of a live file is not marked free. -/
theorem FatIntact.start_used (h : FatIntact s) (hi : s.Live i)
    (hb : (s.directory i).startBlock = ofBlock b) : s.fatTable b ≠ 0 := by
  obtain ⟨chain, hchains, -, hfree⟩ := h
  obtain ⟨hchain, hne, -⟩ := hchains i hi
  obtain ⟨first, rest, heq⟩ := List.exists_cons_of_ne_nil hne
  rw [heq] at hchain
  have hfirst : b = first := blockPtr.ptr_inj (hb.symm.trans hchain.eq_ptr)
  intro hzero
  exact (hfree b).mp hzero i hi (by simp [heq, hfirst])

/-- A block of a live file's chain is not marked free. -/
theorem FatIntact.used {l : List (Fin numBlocks)} (h : FatIntact s) (hi : s.Live i)
    (hchain : blockPtr.Chain s.fatTable (s.directory i).startBlock l) (hb : b ∈ l) :
    s.fatTable b ≠ 0 := by
  obtain ⟨chain, hchains, -, hfree⟩ := h
  obtain rfl := hchain.unique (hchains i hi).1
  exact fun hzero => (hfree b).mp hzero i hi hb

/-- A block that is not marked free is in the chain of a live file. -/
theorem FatIntact.kept (h : FatIntact s) (hb : s.fatTable b ≠ 0) :
    ∃ i l, s.Live i ∧ blockPtr.Chain s.fatTable (s.directory i).startBlock l ∧ b ∈ l := by
  obtain ⟨chain, hchains, -, hfree⟩ := h
  by_contra hnone
  refine hb ((hfree b).mpr fun i hi hmem => hnone ⟨i, chain i, hi, (hchains i hi).1, hmem⟩)

/-- Linking block 0 always breaks the FAT: either the block in front of it is marked
free, or it has been handed out again and block 0 is lost. -/
theorem Layout.not_intact {front : List (Fin numBlocks)} {last : Fin numBlocks}
    (h : Layout s chain) (hlive : s.Live i) (hi : chain i = front ++ [last])
    (hzero : s.fatTable 0 = 0) (hmore : 32 - (s.directory i).size % 32 < data.length) :
    ¬ FatIntact (Fat.appended s i last data) := by
  intro hintact
  obtain ⟨n, hn⟩ : ∃ n, blocksFor (data.length - (32 - (s.directory i).size % 32)) = n + 1 :=
    ⟨_, blocksFor_pos (by omega)⟩
  have hfat : (Fat.appended s i last data).fatTable = (extend (n + 1) s.fatTable last).1 := by
    show (appendAlloc s i last data.length).1 = _
    rw [appendAlloc, hn]
  have hchain := h.chains i hlive
  rw [hi] at hchain
  have hlast := hchain.last_link
  have hfront : ∀ c ∈ front, (extend (n + 1) s.fatTable last).1 c = s.fatTable c :=
    fun _ => h.toLinked.extend_front hlive hi
  by_cases hmany : freeBelow s.fatTable last < n + 1
  · obtain ⟨tail, htail, hnot, -⟩ := extend_cut hzero hlast hmany
    have hused : (Fat.appended s i last data).fatTable 0 ≠ 0 := by
      rw [hfat]
      exact extend_zero_used hzero
    obtain ⟨j, l, hj, hl, hmem⟩ := hintact.kept hused
    rw [FileSystem.Live, appended_filename] at hj
    rw [hfat, appended_startBlock] at hl
    by_cases hji : j = i
    · subst hji
      obtain rfl := hl.unique (hchain.splice hfront htail)
      rcases List.mem_append.mp hmem with hmem | hmem
      · exact h.used j hlive 0 (by simp [hi, hmem]) hzero
      · rcases List.mem_cons.mp hmem with heq | hmem
        · exact ne_zero_of_zero_free hzero hlast heq.symm
        · exact hnot hmem
    · obtain rfl := hl.unique (h.toLinked.extend_other hlive hi hji hj)
      exact h.used j hj 0 hmem hzero
  · have hgrown := extend_grown_of_few hzero hlast (not_lt.mp hmany)
    have hlong := hchain.splice hfront hgrown.chain
    rw [← hfat, ← appended_startBlock s i i last data] at hlong
    have hlive' : (Fat.appended s i last data).Live i := by
      rw [FileSystem.Live, appended_filename]
      exact hlive
    refine hintact.used hlive' hlong (List.mem_append_right front List.mem_cons_self) ?_
    -- the link to block 0 is the free mark
    have hnext := hgrown.chain.tail
    rw [extend_zero hzero] at hnext
    rw [hfat, extend_zero hzero]
    exact hnext.eq_ptr

/-- The condition is exact: a write that links block 0 breaks the FAT. -/
theorem Layout.step_breaks {o : Int × List Line} (h : Layout s chain) (hname : cmd.NameOk)
    (hlink : LinksZero s cmd) (hstep : fatMachine.step s cmd = some (o, t)) :
    ¬ FatIntact t := by
  cases cmd with
  | write filename data =>
      obtain ⟨i, hfind, hzero, hmore⟩ := hlink
      have hlive := findFile_live hfind hname.1
      obtain ⟨front, last, hi, hwalk⟩ := h.split_last hlive
      have hrun : writeFile filename data s = _ := fatMachine_step.mp hstep
      rw [writeFile_eq hfind (hi ▸ h.chains i hlive) hwalk] at hrun
      split at hrun
      · obtain rfl := congrArg (fun r => r.2.2) (Option.some.inj hrun)
        exact h.not_intact hlive hi hzero hmore
      · cases hrun
  | create => exact hlink.elim
  | read => exact hlink.elim
  | delete => exact hlink.elim

/-- Two files, the first deleted again, and an append to the second that needs a
new block: block 0 is found, and block 1 of the second file is marked free. -/
theorem intact_lost :
    ∃ outs t, fatMachine.run .zero [.create [97], .create [98], .delete [97],
      .write [98] (List.replicate 33 120)] = some (outs, t) ∧ ¬ FatIntact t := by
  have hfacts : (fatMachine.run .zero [.create [97], .create [98], .delete [97],
      .write [98] (List.replicate 33 120)]).map (fun r => (r.2.directory 1, r.2.fatTable 1)) =
        some (⟨[98], 1, 33⟩, 0) := by decide +kernel
  obtain ⟨⟨outs, t⟩, hrun, heq⟩ := Option.map_eq_some_iff.mp hfacts
  obtain ⟨hentry, hfree⟩ := Prod.mk.inj heq
  refine ⟨outs, t, hrun, fun hintact => ?_⟩
  have hentry : t.directory 1 = ⟨[98], 1, 33⟩ := hentry
  have hlive : t.Live 1 := by
    rw [FileSystem.Live, hentry]
    exact List.cons_ne_nil 98 []
  have hstart : (t.directory 1).startBlock = ofBlock 1 := by
    rw [hentry]
    rfl
  exact hintact.start_used hlive hstart hfree

end OsProjects.Fat
