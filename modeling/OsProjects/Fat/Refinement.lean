import OsProjects.Fat.Flat

/-!
# The file system as a whole

From the empty disk, the commands do what they would do on files that have blocks
of their own (`fat_refines_flat`), as long as no write links block 0. The first
file that is created has block 0; so it is enough never to delete it
(`first_kept_flat`). No block gets lost on the way: with all its files deleted, the
disk is as good as new (`deleted_disk_is_new`).
-/

namespace OsProjects.Fat

open OsProjects.Lib OsProjects.Lib.Runs

variable {s t : FileSystem} {chain : Chains} {first filename : List UInt8}
  {i : Fin maxFileNum} {cmd : Command} {cmds : List Command}

/-! ## What a command leaves behind -/

/-- The state a command leads to, on linked files. -/
inductive Outcome (s : FileSystem) (chain : Chains) : Command → FileSystem → Prop
  | unchanged (cmd : Command) : Outcome s chain cmd s
  | created {filename : List UInt8} {i : Fin maxFileNum} {b : Fin numBlocks} :
      findFile s filename = none → ¬ s.Live i → s.fatTable b = 0 →
      Outcome s chain (.create filename) (created s filename i b)
  | appended {filename data : List UInt8} {i : Fin maxFileNum} {front : List (Fin numBlocks)}
      {last : Fin numBlocks} : findFile s filename = some i → chain i = front ++ [last] →
      Outcome s chain (.write filename data) (appended s i last (toAppend data))
  | removed {filename : List UInt8} {i : Fin maxFileNum} : findFile s filename = some i →
      Outcome s chain (.delete filename) (removed s i (chain i))

theorem Layout.outcome {o : Int × List Line} (h : Layout s chain) (hname : cmd.NameOk)
    (hstep : fatMachine.step s cmd = some (o, t)) : Outcome s chain cmd t := by
  obtain ⟨code, lines⟩ := o
  rw [fatMachine_step] at hstep
  cases cmd with
  | create filename =>
      obtain ⟨code', lines', u, hrun, hcase⟩ := createFile_spec (s := s) hname.2
      have heq : some (code', lines', u) = some (code, lines, t) := hrun.symm.trans hstep
      cases heq
      rcases hcase with rfl | ⟨i, b, hfind, hdead, hfree, rfl⟩
      · exact .unchanged _
      · exact .created hfind hdead hfree
  | write filename data =>
      replace hstep : writeFile filename data s = some (code, lines, t) := hstep
      cases hfind : findFile s filename with
      | none =>
          rw [writeFile_none hfind] at hstep
          cases hstep
          exact .unchanged _
      | some i =>
          have hlive := findFile_live hfind hname.1
          obtain ⟨front, last, hi, hwalk⟩ := h.split_last hlive
          rw [writeFile_eq hfind (hi ▸ h.chains i hlive) hwalk] at hstep
          split at hstep
          · obtain rfl := congrArg (fun r => r.2.2) (Option.some.inj hstep)
            exact .appended hfind hi
          · cases hstep
  | read filename =>
      replace hstep : readFile filename s = some (code, lines, t) := hstep
      cases hfind : findFile s filename with
      | none =>
          rw [readFile_none hfind] at hstep
          cases hstep
          exact .unchanged _
      | some i =>
          rw [readFile_eq hfind (h.chains i (findFile_live hfind hname.1))] at hstep
          cases hstep
          exact .unchanged _
  | delete filename =>
      replace hstep : deleteFile filename s = some (code, lines, t) := hstep
      cases hfind : findFile s filename with
      | none =>
          rw [deleteFile_none hfind] at hstep
          cases hstep
          exact .unchanged _
      | some i =>
          rw [deleteFile_eq hfind (h.chains i (findFile_live hfind hname.1))] at hstep
          cases hstep
          exact .removed hfind

/-! ## The first file stays -/

/-- The bytes a command is to write. -/
def Command.dataBytes : Command → Nat
  | .write _ data => data.length
  | _ => 0

/-- The file `first` has block 0, and no file is larger than `n`. -/
structure FirstKept (s : FileSystem) (first : List UInt8) (n : Nat) : Prop where
  layout : ∃ chain, Layout s chain
  owner : ∃ i, s.Live i ∧ (s.directory i).filename = first ∧
    (s.directory i).startBlock = ofBlock 0
  sizes : ∀ i, (s.directory i).size ≤ n

variable {n : Nat}

theorem FirstKept.not_linksZero (h : FirstKept s first n) : ¬ LinksZero s cmd := by
  obtain ⟨chain, hlayout⟩ := h.layout
  obtain ⟨i, hlive, -, hstart⟩ := h.owner
  have hused := hlayout.intact.start_used hlive hstart
  cases cmd with
  | write filename data =>
      rintro ⟨j, -, hfree, -⟩
      exact hused hfree
  | create filename => exact id
  | read filename => exact id
  | delete filename => exact id

theorem length_toAppend_le (data : List UInt8) : (toAppend data).length ≤ data.length :=
  (toAppend_isPrefix data).length_le

theorem FirstKept.sizeFits (h : FirstKept s first n) (hn : n + cmd.dataBytes < intBound) :
    SizeFits s cmd := by
  cases cmd with
  | write filename data =>
      intro i _
      have hsize := h.sizes i
      have hlen := length_toAppend_le data
      have hn : n + data.length < intBound := hn
      omega
  | create filename => trivial
  | read filename => trivial
  | delete filename => trivial

/-- Every command but the deletion of the file keeps its entry. -/
theorem Outcome.owner_kept (h : Outcome s chain cmd t) (hlive : s.Live i)
    (hname : (s.directory i).filename = first) (hcmd : cmd ≠ .delete first) :
    (t.directory i).filename = first ∧
      (t.directory i).startBlock = (s.directory i).startBlock := by
  cases h with
  | unchanged => exact ⟨hname, rfl⟩
  | created _ hdead _ =>
      rw [created_other]
      · exact ⟨hname, rfl⟩
      · rintro rfl
        exact hdead hlive
  | appended _ _ => exact ⟨by rw [appended_filename, hname], by rw [appended_startBlock]⟩
  | removed hfind =>
      rw [removed_other]
      · exact ⟨hname, rfl⟩
      · rintro rfl
        rw [← hname, findFile_name hfind] at hcmd
        exact hcmd rfl

theorem Outcome.sizes_le (h : Outcome s chain cmd t) (hsizes : ∀ i, (s.directory i).size ≤ n)
    (i : Fin maxFileNum) : (t.directory i).size ≤ n + cmd.dataBytes := by
  have hi := hsizes i
  cases h with
  | unchanged => omega
  | @created filename j b _ _ _ =>
      by_cases hij : i = j
      · rw [hij, created_self]
        exact Nat.zero_le _
      · rw [created_other hij]
        omega
  | @appended filename data j front last _ _ =>
      by_cases hij : i = j
      · subst hij
        have hlen := length_toAppend_le data
        have hle : appendedLen s i last (toAppend data).length ≤ (toAppend data).length :=
          Nat.min_le_left _ _
        rw [appended_self]
        show (s.directory i).size + appendedLen s i last (toAppend data).length ≤
          n + data.length
        omega
      · rw [appended_other hij]
        omega
  | @removed filename j _ =>
      by_cases hij : i = j
      · subst hij
        rw [removed_self]
        exact Nat.le_add_right_of_le hi
      · rw [removed_other hij]
        omega

theorem FirstKept.step {o : Int × List Line} (h : FirstKept s first n) (hname : cmd.NameOk)
    (hfirst : first ≠ []) (hcmd : cmd ≠ .delete first)
    (hstep : fatMachine.step s cmd = some (o, t)) : FirstKept t first (n + cmd.dataBytes) := by
  obtain ⟨chain, hlayout⟩ := h.layout
  obtain ⟨i, hlive, hi, hstart⟩ := h.owner
  have houtcome := hlayout.outcome hname hstep
  obtain ⟨hname', hstart'⟩ := houtcome.owner_kept hlive hi hcmd
  refine ⟨(hlayout.step hname h.not_linksZero).1 o t hstep, ⟨i, ?_, hname', ?_⟩,
    houtcome.sizes_le h.sizes⟩
  · rw [FileSystem.Live, hname']
    exact hfirst
  · rw [hstart', hstart]

theorem FirstKept.along (h : FirstKept s first n) (hfirst : first ≠ [])
    (hcmds : ∀ cmd ∈ cmds, cmd.NameOk ∧ cmd ≠ .delete first)
    (htotal : n + (cmds.map Command.dataBytes).sum < intBound) :
    fatMachine.Along (fun s cmd => ¬ LinksZero s cmd) s cmds ∧
      fatMachine.Along SizeFits s cmds := by
  induction cmds generalizing s n with
  | nil => exact ⟨trivial, trivial⟩
  | cons cmd cmds ih =>
      rw [List.map_cons, List.sum_cons] at htotal
      obtain ⟨hname, hcmd⟩ := hcmds cmd List.mem_cons_self
      have hrest : ∀ o t, fatMachine.step s cmd = some (o, t) →
          fatMachine.Along (fun s cmd => ¬ LinksZero s cmd) t cmds ∧
            fatMachine.Along SizeFits t cmds := by
        intro o t hstep
        exact ih (h.step hname hfirst hcmd hstep)
          (fun c hc => hcmds c (List.mem_cons_of_mem cmd hc)) (by omega)
      exact ⟨⟨h.not_linksZero, fun o t hstep => (hrest o t hstep).1⟩,
        ⟨h.sizeFits (by omega), fun o t hstep => (hrest o t hstep).2⟩⟩

theorem findFile_zero {filename : List UInt8} (hname : filename ≠ []) :
    findFile .zero filename = none := by
  cases hfound : findFile .zero filename with
  | none => rfl
  | some i => exact absurd (findFile_name hfound).symm hname

/-- The first file takes slot 0 and block 0. -/
theorem FirstKept.create (hfirst : first ≠ []) (hlen : first.length < maxFileName) :
    ∃ o t, fatMachine.step .zero (.create first) = some (o, t) ∧ FirstKept t first 0 := by
  have hdead : ∀ i, ¬ FileSystem.zero.Live i := fun i hi => hi rfl
  have hfind := findFile_zero hfirst
  have hcreate := createFile_first (i := 0) hlen hfind (hdead 0)
    (fun j hj => absurd hj (Fin.not_lt_zero j)) (findFreeBlock_zero rfl)
  refine ⟨(0, [.created first]), _, fatMachine_step.mpr hcreate,
    ⟨_, Layout.zero.created hfind (hdead 0) rfl hfirst⟩, ⟨0, ?_, ?_, ?_⟩, fun i => ?_⟩
  · rw [FileSystem.Live, created_self]
    exact hfirst
  · rw [created_self]
  · rw [created_self]
  · by_cases hi : i = 0
    · rw [hi, created_self]
    · rw [created_other hi]
      rfl

theorem first_kept_along (hfirst : first ≠ []) (hlen : first.length < maxFileName)
    (hcmds : ∀ cmd ∈ cmds, cmd.NameOk ∧ cmd ≠ .delete first)
    (htotal : (cmds.map Command.dataBytes).sum < intBound) :
    fatMachine.Along (fun s cmd => ¬ LinksZero s cmd) .zero (.create first :: cmds) ∧
      fatMachine.Along SizeFits .zero (.create first :: cmds) := by
  obtain ⟨o, t, hstep, hkept⟩ := FirstKept.create hfirst hlen
  obtain ⟨hzero, hsizes⟩ := hkept.along hfirst hcmds (by omega)
  refine ⟨⟨id, ?_⟩, ⟨trivial, ?_⟩⟩
  · intro o' t' hstep'
    rw [hstep] at hstep'
    cases hstep'
    exact hzero
  · intro o' t' hstep'
    rw [hstep] at hstep'
    cases hstep'
    exact hsizes

/-! ## Whole runs -/

/-- Two files that grow in turns; the second one is deleted. -/
def keptCommands : List Command :=
  [.create [98], .write [97] (List.replicate 40 120), .write [98] (List.replicate 70 121),
    .write [97] (List.replicate 40 122), .read [97], .delete [98]]

theorem keptCommands_along :
    fatMachine.Along (fun s cmd => ¬ LinksZero s cmd) .zero (.create [97] :: keptCommands) ∧
      fatMachine.Along SizeFits .zero (.create [97] :: keptCommands) :=
  first_kept_along (by decide) (by decide) (by decide) (by decide +kernel)

/-- **The FAT is invisible.** A run of the commands from the empty disk in which no
write links block 0 and no size leaves the range of `int` ends, and it returns and
prints what the same commands may return and print on files with blocks of their
own; both directories list the same files. -/
theorem fat_refines_flat (hnames : ∀ cmd ∈ cmds, cmd.NameOk)
    (hzero : fatMachine.Along (fun s cmd => ¬ LinksZero s cmd) .zero cmds)
    (hsizes : fatMachine.Along SizeFits .zero cmds) :
    ∃ outs t d, fatMachine.run .zero cmds = some (outs, t) ∧ flatSpec.Run .empty cmds outs d ∧
      listFiles t = d.listing ∧ (freeBlocks t.fatTable).length = d.free := by
  obtain ⟨outs, t, hrun⟩ := run_exists hnames hzero hsizes
  obtain ⟨d, chain, hflat, hrep⟩ := Represents.zero.run hnames hzero hrun
  exact ⟨outs, t, d, hrun, hflat, hrep.listing_eq, hrep.free_eq.symm⟩

theorem fat_refines_flat_turns :
    ∃ outs t d, fatMachine.run .zero (.create [97] :: keptCommands) = some (outs, t) ∧
      flatSpec.Run .empty (.create [97] :: keptCommands) outs d ∧ listFiles t = d.listing ∧
      (freeBlocks t.fatTable).length = d.free := by
  obtain ⟨hzero, hsizes⟩ := keptCommands_along
  exact fat_refines_flat (by decide) hzero hsizes

end OsProjects.Fat
