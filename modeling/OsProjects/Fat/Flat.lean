import Mathlib.Algebra.BigOperators.Fin
import Mathlib.Algebra.Order.BigOperators.Group.Finset
import OsProjects.Fat.Invariant

/-!
# Files without a FAT

What the file system is for: a directory of files, each with blocks of its own
that no other file can reach. `FlatStep` says what a command may do to such a
directory. The number of blocks is limited, and the bytes of a block that has just
been handed out are arbitrary; of the FAT nothing else is left.

* **`Represents`** — a disk stands for a flat directory.
* **`Represents.free_eq`** — the blocks marked free are as many as the files leave.
* **`Represents.step`** — one command.
* **`Represents.run`** — a run.
-/

namespace OsProjects.Fat

open OsProjects.Lib OsProjects.Lib.Runs

/-! ## Flat directories -/

/-- A file by itself: its name, the size recorded for it and the bytes of its
blocks. -/
structure FlatFile where
  name : List UInt8
  size : Nat
  bytes : List UInt8
  named : name ≠ []
  whole : ∃ n, bytes.length = 32 * (n + 1)

abbrev FlatDir := Fin maxFileNum → Option FlatFile

def FlatDir.empty : FlatDir := fun _ => none

def FlatFile.blocks (f : FlatFile) : Nat := f.bytes.length / 32

/-- The blocks that no file has. -/
def FlatDir.free (d : FlatDir) : Nat := numBlocks - ∑ i, (d i).elim 0 FlatFile.blocks

/-- No file has the name. -/
def FlatDir.Absent (d : FlatDir) (name : List UInt8) : Prop :=
  ∀ i f, d i = some f → f.name ≠ name

/-- The bytes of a list from `pos` on are replaced. -/
def overwrite (l : List UInt8) (pos : Nat) (src : List UInt8) : List UInt8 :=
  l.take pos ++ (src ++ l.drop (pos + src.length))

/-- The number of blocks a write of `n` bytes adds to a file. -/
def FlatFile.grows (f : FlatFile) (n free : Nat) : Nat :=
  min (blocksFor (n - (32 - f.size % 32))) free

/-- How many of `n` bytes a write stores. -/
def FlatFile.accepts (f : FlatFile) (n free : Nat) : Nat :=
  min n (32 - f.size % 32 + 32 * f.grows n free)

/-- A write goes to the last block, at the offset the size gives, and on into the
new blocks. -/
def FlatFile.write (f : FlatFile) (data : List UInt8) (free : Nat) (fresh : List UInt8) :
    List UInt8 :=
  overwrite (f.bytes ++ fresh) (f.bytes.length - 32 + f.size % 32)
    (data.take (f.accepts data.length free))

/-- What a write prints. -/
def FlatFile.writeLines (f : FlatFile) (n free : Nat) : List Line :=
  partialLine f.name (blocksFor (n - (32 - f.size % 32))) (f.grows n free) ++
    [.dataWritten f.name]

/-- One line for each block, as far as the size goes. -/
def blockLines : (blocks : Nat) → (bytes : List UInt8) → (remaining : Nat) → List Line
  | 0, _, _ => []
  | blocks + 1, bytes, remaining =>
      if remaining = 0 then []
      else
        .bytes (((bytes.take 32).take (min remaining 32)).takeWhile (· ≠ 0)) ::
          blockLines blocks (bytes.drop 32) (remaining - min remaining 32)

/-- What a read prints. -/
def FlatFile.readLines (f : FlatFile) : List Line :=
  if f.size = 0 then [.empty f.name]
  else .contentOf f.name :: blockLines f.blocks f.bytes f.size ++ [.newline]

/-- What `list_files` prints. -/
def FlatDir.listing (d : FlatDir) : List UInt8 :=
  ascii "Files in the file system.\n" ++
    (List.finRange maxFileNum).flatMap fun i =>
      (d i).elim [] fun f =>
        ascii "File : " ++ f.name ++ ascii ", SIze: " ++ ascii (toString f.size) ++
          ascii " bytes\n"

/-- What a command returns, prints and leaves behind. -/
inductive FlatStep : FlatDir → Command → Int × List Line → FlatDir → Prop
  | nameTaken {d : FlatDir} {i : Fin maxFileNum} {f : FlatFile} :
      d i = some f → FlatStep d (.create f.name) (-1, [.alreadyExists f.name]) d
  | full {d : FlatDir} {name : List UInt8} :
      d.Absent name → (∀ i, d i ≠ none) ∨ d.free = 0 →
        FlatStep d (.create name) (-1, [.directoryOrDiskFull]) d
  | create {d : FlatDir} {i : Fin maxFileNum} {f : FlatFile} :
      -- the first unused slot, and one block
      d.Absent f.name → d i = none → (∀ j < i, d j ≠ none) → 0 < d.free →
        f.size = 0 → f.blocks = 1 →
        FlatStep d (.create f.name) (0, [.created f.name]) (Function.update d i (some f))
  | writeAbsent {d : FlatDir} {name data : List UInt8} :
      d.Absent name → FlatStep d (.write name data) (-1, [.writeNotFound name]) d
  | write {d : FlatDir} {i : Fin maxFileNum} {f g : FlatFile} {data fresh : List UInt8} :
      d i = some f → fresh.length = 32 * f.grows (toAppend data).length d.free →
        g.name = f.name → g.size = f.size + f.accepts (toAppend data).length d.free →
        g.bytes = f.write (toAppend data) d.free fresh →
        FlatStep d (.write f.name data) (0, f.writeLines (toAppend data).length d.free)
          (Function.update d i (some g))
  | readAbsent {d : FlatDir} {name : List UInt8} :
      d.Absent name → FlatStep d (.read name) (-1, [.notFound name]) d
  | read {d : FlatDir} {i : Fin maxFileNum} {f : FlatFile} :
      d i = some f → FlatStep d (.read f.name) (0, f.readLines) d
  | deleteAbsent {d : FlatDir} {name : List UInt8} :
      d.Absent name → FlatStep d (.delete name) (-1, [.notFound name]) d
  | delete {d : FlatDir} {i : Fin maxFileNum} {f : FlatFile} :
      d i = some f →
        FlatStep d (.delete f.name) (0, [.deleted f.name]) (Function.update d i none)

def flatSpec : Spec FlatDir Command (Int × List Line) := ⟨FlatStep⟩

/-! ## The disk behind a flat directory -/

/-- The slot holds the file, or nothing. -/
def Holds (s : FileSystem) (chain : Chains) (i : Fin maxFileNum) : Option FlatFile → Prop
  | none => ¬ s.Live i
  | some f => f.name = (s.directory i).filename ∧ f.size = (s.directory i).size ∧
      f.bytes = chainBytes s.dataArea (chain i)

/-- The files of the disk are those of the flat directory. -/
structure Represents (s : FileSystem) (chain : Chains) (d : FlatDir) : Prop
    extends Layout s chain where
  slots : ∀ i, Holds s chain i (d i)

variable {s t : FileSystem} {chain : Chains} {d : FlatDir} {filename data : List UInt8}
  {i : Fin maxFileNum} {f : FlatFile} {front : List (Fin numBlocks)} {b last : Fin numBlocks}

theorem Represents.zero : Represents .zero (fun _ => []) .empty where
  toLayout := Layout.zero
  slots _ := fun hlive => hlive rfl

/-- The file a slot holds. -/
theorem Represents.file (h : Represents s chain d) (hlive : s.Live i) :
    ∃ f, d i = some f ∧ f.name = (s.directory i).filename ∧ f.size = (s.directory i).size ∧
      f.bytes = chainBytes s.dataArea (chain i) := by
  have hslot := h.slots i
  cases hd : d i with
  | none =>
      rw [hd] at hslot
      exact absurd hlive hslot
  | some f =>
      rw [hd] at hslot
      exact ⟨f, rfl, hslot⟩

theorem Represents.live (h : Represents s chain d) (hd : d i = some f) :
    s.Live i ∧ f.name = (s.directory i).filename ∧ f.size = (s.directory i).size ∧
      f.bytes = chainBytes s.dataArea (chain i) := by
  have hslot := h.slots i
  rw [hd] at hslot
  refine ⟨?_, hslot⟩
  rw [FileSystem.Live, ← hslot.1]
  exact f.named

theorem Represents.unused_iff (h : Represents s chain d) : d i = none ↔ ¬ s.Live i := by
  constructor
  · intro hd
    have hslot := h.slots i
    rwa [hd] at hslot
  · intro hdead
    cases hd : d i with
    | none => rfl
    | some f => exact absurd (h.live hd).1 hdead

theorem Represents.absent_iff (h : Represents s chain d) (hname : filename ≠ []) :
    d.Absent filename ↔ findFile s filename = none := by
  constructor
  · intro habsent
    cases hfind : findFile s filename with
    | none => rfl
    | some i =>
        obtain ⟨f, hd, hf, -⟩ := h.file (findFile_live hfind hname)
        exact absurd (hf.trans (findFile_name hfind)) (habsent i f hd)
  · intro hnone i f hd heq
    exact findFile_none hnone i ((h.live hd).2.1.symm.trans heq)

/-! ## Counting blocks -/

/-- The blocks of the file in a slot, none for an unused slot. -/
def ownedBlocks (s : FileSystem) (chain : Chains) (i : Fin maxFileNum) : List (Fin numBlocks) :=
  if (s.directory i).filename = [] then [] else chain i

theorem mem_ownedBlocks : b ∈ ownedBlocks s chain i ↔ s.Live i ∧ b ∈ chain i := by
  rw [ownedBlocks, FileSystem.Live]
  split
  · next hempty => simp [hempty]
  · next hname => simp [hname]

/-- The blocks of a disk are the free ones and those of the files. -/
theorem Layout.blocks_perm (h : Layout s chain) :
    (freeBlocks s.fatTable ++ (List.finRange maxFileNum).flatMap (ownedBlocks s chain)).Perm
      (List.finRange numBlocks) := by
  have howned : ((List.finRange maxFileNum).flatMap (ownedBlocks s chain)).Nodup := by
    refine List.nodup_flatMap.mpr ⟨fun i _ => ?_, ?_⟩
    · rw [ownedBlocks]
      split
      · exact List.nodup_nil
      · next hname => exact (h.chains i hname).nodup
    · refine (List.nodup_finRange maxFileNum).pairwise_of_forall_ne fun i _ j _ hij => ?_
      intro c hci hcj
      obtain ⟨hi, hci⟩ := mem_ownedBlocks.mp hci
      obtain ⟨hj, hcj⟩ := mem_ownedBlocks.mp hcj
      exact h.disjoint i j hi hj hij hci hcj
  have hapart : (freeBlocks s.fatTable).Disjoint
      ((List.finRange maxFileNum).flatMap (ownedBlocks s chain)) := by
    intro c hc hused
    obtain ⟨i, -, hi⟩ := List.mem_flatMap.mp hused
    obtain ⟨hlive, hi⟩ := mem_ownedBlocks.mp hi
    exact h.used i hlive c hi (mem_freeBlocks.mp hc)
  refine (List.perm_ext_iff_of_nodup ((freeBlocks_nodup _).append howned hapart)
    (List.nodup_finRange numBlocks)).mpr fun c => ⟨fun _ => List.mem_finRange c, fun _ => ?_⟩
  refine List.mem_append.mpr ?_
  by_cases hc : s.fatTable c = 0
  · exact Or.inl (mem_freeBlocks.mpr hc)
  · obtain ⟨i, hi, hmem⟩ := h.kept c hc
    exact Or.inr (List.mem_flatMap.mpr
      ⟨i, List.mem_finRange i, mem_ownedBlocks.mpr ⟨hi, hmem⟩⟩)

theorem Layout.blocks_add (h : Layout s chain) :
    (freeBlocks s.fatTable).length + ∑ i, (ownedBlocks s chain i).length = numBlocks := by
  have hlength := h.blocks_perm.length_eq
  rw [List.length_append, List.length_flatMap, List.length_finRange] at hlength
  rw [Fin.sum_univ_def]
  exact hlength

theorem Represents.blocks_eq (h : Represents s chain d) (i : Fin maxFileNum) :
    (d i).elim 0 FlatFile.blocks = (ownedBlocks s chain i).length := by
  by_cases hlive : s.Live i
  · obtain ⟨f, hd, -, -, hbytes⟩ := h.file hlive
    rw [hd, ownedBlocks, if_neg hlive, Option.elim_some, FlatFile.blocks, hbytes,
      length_chainBytes]
    omega
  · rw [h.unused_iff.mpr hlive, ownedBlocks, if_pos (not_not.mp hlive)]
    rfl

/-- The blocks marked free are as many as the files leave. -/
theorem Represents.free_eq (h : Represents s chain d) :
    d.free = (freeBlocks s.fatTable).length := by
  have hall := h.blocks_add
  have hsum : ∑ i, (d i).elim 0 FlatFile.blocks = ∑ i, (ownedBlocks s chain i).length :=
    Finset.sum_congr rfl fun i _ => h.blocks_eq i
  rw [FlatDir.free, hsum]
  omega

/-! ## One slot changes -/

theorem Represents.change_slot {chain' : Chains} {o : Option FlatFile} (h : Represents s chain d)
    (hlayout : Layout t chain')
    (hdir : ∀ j, j ≠ i → t.directory j = s.directory j)
    (hchain : ∀ j, j ≠ i → chain' j = chain j)
    (hdata : ∀ j, j ≠ i → s.Live j → ∀ c ∈ chain j, t.dataArea c = s.dataArea c)
    (hslot : Holds t chain' i o) : Represents t chain' (Function.update d i o) where
  toLayout := hlayout
  slots j := by
    by_cases hji : j = i
    · rw [hji, Function.update_self]
      exact hslot
    · rw [Function.update_of_ne hji]
      by_cases hlive : s.Live j
      · obtain ⟨f, hd, hname, hsize, hbytes⟩ := h.file hlive
        rw [hd]
        refine ⟨by rw [hdir j hji, hname], by rw [hdir j hji, hsize], ?_⟩
        rw [hbytes, hchain j hji, chainBytes_congr (hdata j hji hlive)]
      · rw [h.unused_iff.mpr hlive]
        intro htj
        rw [FileSystem.Live, hdir j hji] at htj
        exact hlive htj

/-! ## Creating -/

/-- `create_file` takes the first unused slot and the first free block. -/
theorem createFile_first (hlen : filename.length < maxFileName)
    (hfind : findFile s filename = none) (hdead : ¬ s.Live i) (hfirst : ∀ j < i, s.Live j)
    (hfree : findFreeBlock s.fatTable = some b) :
    createFile filename s = some (0, [.created filename], created s filename i b) := by
  have hslot : ((List.finRange maxFileNum).findSome? fun k =>
      if (s.directory k).filename == [] then (findFreeBlock s.fatTable).map fun c => (k, c)
      else none) = some (i, b) := by
    obtain ⟨before, behind, hsplit⟩ := List.append_of_mem (List.mem_finRange i)
    have hsorted := List.pairwise_lt_finRange maxFileNum
    rw [hsplit] at hsorted
    refine List.findSome?_eq_some_iff.mpr ⟨before, i, behind, hsplit, ?_, fun j hj => ?_⟩
    · rw [if_pos (beq_iff_eq.mpr (not_not.mp hdead)), hfree]
      rfl
    · have hlt := (List.pairwise_append.mp hsorted).2.2 j hj i List.mem_cons_self
      rw [if_neg (mt beq_iff_eq.mp (hfirst j hlt))]
  rw [createFile, hfind]
  dsimp only
  rw [hslot]
  dsimp only
  rw [if_pos hlen]
  rfl

theorem Represents.full (h : Represents s chain d)
    (hfull : ∀ i b, ¬ s.Live i → s.fatTable b ≠ 0) : (∀ i, d i ≠ none) ∨ d.free = 0 := by
  by_cases hall : ∀ i, d i ≠ none
  · exact Or.inl hall
  · obtain ⟨i, hi⟩ := not_forall.mp hall
    have hdead := h.unused_iff.mp (not_not.mp hi)
    right
    rw [h.free_eq, List.length_eq_zero_iff]
    refine List.eq_nil_iff_forall_not_mem.mpr fun c hc => ?_
    exact hfull i c hdead (mem_freeBlocks.mp hc)

theorem Represents.created (h : Represents s chain d) (hname : filename ≠ [])
    (hfind : findFile s filename = none) (hdead : ¬ s.Live i) (hfree : s.fatTable b = 0) :
    ∃ f : FlatFile, f.name = filename ∧ f.size = 0 ∧ f.blocks = 1 ∧
      Represents (created s filename i b) (Function.update chain i [b])
        (Function.update d i (some f)) := by
  refine ⟨⟨filename, 0, blockBytes s.dataArea b, hname, 0, length_blockBytes⟩, rfl, rfl, ?_, ?_⟩
  · rw [FlatFile.blocks, length_blockBytes]
  · refine h.change_slot (h.toLayout.created hfind hdead hfree hname)
      (fun j hj => created_other hj) (fun j hj => Function.update_of_ne hj _ _)
      (fun _ _ _ _ _ => rfl) ?_
    rw [Holds, created_self, Function.update_self, chainBytes_cons, chainBytes_nil,
      List.append_nil]
    exact ⟨rfl, rfl, rfl⟩

theorem Represents.create {r : Result} (h : Represents s chain d) (hname : filename ≠ [])
    (hlen : filename.length < maxFileName) (hrun : createFile filename s = some r) :
    ∃ d', FlatStep d (.create filename) (r.1, r.2.1) d' ∧
      ∃ chain', Represents r.2.2 chain' d' := by
  cases hfind : findFile s filename with
  | some i =>
      obtain ⟨f, hd, hf, -⟩ := h.file (findFile_live hfind hname)
      obtain rfl : f.name = filename := hf.trans (findFile_name hfind)
      rw [createFile, hfind] at hrun
      cases hrun
      exact ⟨d, .nameTaken hd, chain, h⟩
  | none =>
      have habsent := (h.absent_iff hname).mpr hfind
      rcases createFile_cases filename s with
        ⟨hfound, -⟩ | ⟨hfull, hcase⟩ | ⟨k, c, -, hk, hc, -⟩
      · exact absurd hfind hfound
      · rw [hrun] at hcase
        cases hcase
        exact ⟨d, .full habsent (h.full hfull), chain, h⟩
      · -- the slot taken is the first unused one
        obtain ⟨i, hi, hmin⟩ := WellFounded.has_min wellFounded_lt {i | ¬ s.Live i} ⟨k, hk⟩
        have hfirst : ∀ j < i, s.Live j := fun j hj => not_not.mp fun hdead => hmin j hdead hj
        have hsome : ∃ b, findFreeBlock s.fatTable = some b := by
          rw [findFreeBlock_eq]
          cases hblocks : freeBlocks s.fatTable with
          | nil => exact absurd (hblocks ▸ mem_freeBlocks.mpr hc) List.not_mem_nil
          | cons b rest => exact ⟨b, rfl⟩
        obtain ⟨b, hb⟩ := hsome
        have hmem : b ∈ freeBlocks s.fatTable := List.mem_of_head? (findFreeBlock_eq _ ▸ hb)
        have hcreate := createFile_first hlen hfind hi hfirst hb
        rw [hrun] at hcreate
        cases hcreate
        obtain ⟨f, rfl, hsize, hone, hrep⟩ :=
          h.created hname hfind hi (mem_freeBlocks.mp hmem)
        refine ⟨_, .create habsent (h.unused_iff.mpr hi) ?_ ?_ hsize hone, _, hrep⟩
        · intro j hj hnone
          exact h.unused_iff.mp hnone (hfirst j hj)
        · rw [h.free_eq]
          exact List.length_pos_of_mem hmem

/-! ## Writing -/

/-- Filling blocks replaces their bytes by the data, as far as these go. -/
theorem fillBlocks_chainBytes {area : Area} {l : List (Fin numBlocks)} (hnodup : l.Nodup) :
    chainBytes (fillBlocks area l data) l =
      data.take (32 * l.length) ++ (chainBytes area l).drop data.length := by
  induction l generalizing area data with
  | nil => simp
  | cons b l ih =>
      obtain ⟨hb, hl⟩ := List.nodup_cons.mp hnodup
      have hblock : blockBytes (fillBlocks area (b :: l) data) b =
          data.take 32 ++ (blockBytes area b).drop (data.take 32).length := by
        rw [blockBytes, fillBlocks, fillBlocks_other hb, ← blockBytes,
          blockBytes_memcpy (by simp)]
        simp
      have hkeep : chainBytes (memcpy area b 0 (data.take 32)) l = chainBytes area l :=
        chainBytes_congr fun c hc => memcpy_other fun heq => hb (heq ▸ hc)
      rw [chainBytes_cons, hblock, fillBlocks, ih hl, hkeep, chainBytes_cons, List.length_cons]
      by_cases hlen : data.length ≤ 32
      · -- the data end in this block
        rw [List.take_of_length_le hlen, List.drop_of_length_le hlen, List.take_nil,
          List.length_nil, List.drop_zero, List.nil_append, List.take_of_length_le (by omega),
          List.drop_append_of_le_length (by simpa using hlen), List.append_assoc]
      · have hfull : (blockBytes area b).drop (data.take 32).length = [] :=
          List.drop_of_length_le (by simp; omega)
        rw [hfull, List.append_nil, List.drop_append, length_blockBytes,
          List.drop_of_length_le (by simp; omega : (blockBytes area b).length ≤ data.length),
          List.nil_append, List.length_drop, Nat.mul_add, Nat.add_comm, Nat.mul_one,
          List.take_add, List.append_assoc]

/-- The bytes of a file that has been written to: those from the offset in its last
block on are replaced. -/
theorem appendedArea_chainBytes {new : List (Fin numBlocks)} {offset : Nat} (area : Area)
    (hoffset : offset < 32) (hnodup : (front ++ last :: new).Nodup) :
    chainBytes (fillBlocks (memcpy area last offset (data.take (32 - offset))) new
        (data.drop (32 - offset))) (front ++ last :: new) =
      overwrite (chainBytes area (front ++ [last]) ++ chainBytes area new)
        (32 * front.length + offset) (data.take (32 - offset + 32 * new.length)) := by
  obtain ⟨-, htail, hapart⟩ := List.nodup_append.mp hnodup
  obtain ⟨hlast, hnew⟩ := List.nodup_cons.mp htail
  have hfront : chainBytes (fillBlocks (memcpy area last offset (data.take (32 - offset))) new
      (data.drop (32 - offset))) front = chainBytes area front := by
    refine chainBytes_congr fun c hc => ?_
    rw [fillBlocks_other fun hmem => hapart c hc c (List.mem_cons_of_mem last hmem) rfl,
      memcpy_other fun heq => hapart c hc last List.mem_cons_self heq]
  have hblock : blockBytes (fillBlocks (memcpy area last offset (data.take (32 - offset))) new
      (data.drop (32 - offset))) last =
        (blockBytes area last).take offset ++ (data.take (32 - offset) ++
          (blockBytes area last).drop (offset + (data.take (32 - offset)).length)) := by
    rw [blockBytes, fillBlocks_other hlast, ← blockBytes, blockBytes_memcpy]
    rw [List.length_take]
    omega
  have hrest : chainBytes (memcpy area last offset (data.take (32 - offset))) new =
      chainBytes area new :=
    chainBytes_congr fun c hc => memcpy_other fun heq => hlast (heq ▸ hc)
  have hlen : 32 * front.length = (chainBytes area front).length := length_chainBytes.symm
  have hoff : offset ≤ (blockBytes area last).length := by
    rw [length_blockBytes]
    exact hoffset.le
  rw [chainBytes_append, chainBytes_cons, hfront, hblock, fillBlocks_chainBytes hnew, hrest,
    overwrite, chainBytes_append, chainBytes_cons, chainBytes_nil, List.append_nil, hlen,
    List.append_assoc (chainBytes area front), List.take_length_add_append, Nat.add_assoc,
    List.drop_length_add_append, List.take_append_of_le_length hoff, List.take_add]
  simp only [List.append_assoc, List.append_cancel_left_eq]
  by_cases hfits : data.length ≤ 32 - offset
  · rw [List.drop_of_length_le hfits, List.take_nil, List.nil_append, List.append_nil,
      List.length_nil, List.drop_zero, List.take_of_length_le hfits,
      List.drop_append_of_le_length (by rw [length_blockBytes]; omega), List.nil_append]
  · -- the last block is full, and the rest of the data are in the new blocks
    have hfull : (data.take (32 - offset)).length = 32 - offset := by
      rw [List.length_take]
      omega
    have hend : ∀ n, (blockBytes area last).drop (offset + (32 - offset + n)) = [] := by
      intro n
      apply List.drop_of_length_le
      rw [length_blockBytes]
      omega
    have hblockEnd : (blockBytes area last).drop (offset + (32 - offset)) = [] := hend 0
    rw [hfull, List.length_append, hfull, List.drop_append, hend, hblockEnd, List.nil_append,
      List.nil_append, List.length_take, List.length_drop, length_blockBytes]
    congr 1
    by_cases hmany : 32 * new.length ≤ data.length - (32 - offset)
    · rw [List.drop_of_length_le (by rw [length_chainBytes]; exact hmany),
        List.drop_of_length_le (by rw [length_chainBytes]; omega)]
    · congr 1
      omega

section Write

variable (h : Represents s chain d) (hlive : s.Live i) (hd : d i = some f)
  (hi : chain i = front ++ [last])
  (hroom : s.fatTable 0 ≠ 0 ∨ data.length ≤ 32 - (s.directory i).size % 32)

include h hlive hd hi hroom

theorem Represents.grows_eq :
    f.grows data.length d.free = (appendAlloc s i last data.length).2.length := by
  have hgrown := h.append_grown hlive hi hroom
  rw [FlatFile.grows, (h.live hd).2.2.1, h.free_eq, hgrown.count]

theorem Represents.accepts_eq :
    f.accepts data.length d.free = appendedLen s i last data.length := by
  rw [FlatFile.accepts, h.grows_eq hlive hd hi hroom, (h.live hd).2.2.1, appendedLen]

theorem Represents.writeLines_eq :
    f.writeLines data.length d.free = appendLines s f.name i last data.length := by
  rw [FlatFile.writeLines, h.grows_eq hlive hd hi hroom, (h.live hd).2.2.1, appendLines]

/-- The bytes of the file after the write. -/
theorem Represents.write_eq :
    f.write data d.free (chainBytes s.dataArea (appendAlloc s i last data.length).2) =
      chainBytes (appendedArea s i last data)
        (front ++ last :: (appendAlloc s i last data.length).2) := by
  obtain ⟨-, -, hsize, hbytes⟩ := h.live hd
  have hnodup := ((h.toLayout.appended hlive hi hroom).chains i (by
    rw [FileSystem.Live, appended_filename]
    exact hlive)).nodup
  rw [Function.update_self] at hnodup
  have hlen : f.bytes.length - 32 = 32 * front.length := by
    rw [hbytes, hi, length_chainBytes, List.length_append, List.length_singleton]
    omega
  have htake : data.take (appendedLen s i last data.length) =
      data.take (32 - (s.directory i).size % 32 +
        32 * (appendAlloc s i last data.length).2.length) := by
    rw [appendedLen, Nat.min_comm, ← List.take_eq_take_min]
  rw [FlatFile.write, h.accepts_eq hlive hd hi hroom, hlen, hbytes, hsize, hi, htake, appendedArea,
    appendedArea_chainBytes s.dataArea (Nat.mod_lt _ (by decide)) hnodup]

theorem Represents.appended :
    ∃ g : FlatFile, g.name = f.name ∧
      g.size = f.size + f.accepts data.length d.free ∧
      g.bytes = f.write data d.free
        (chainBytes s.dataArea (appendAlloc s i last data.length).2) ∧
      Represents (appended s i last data)
        (Function.update chain i (front ++ last :: (appendAlloc s i last data.length).2))
        (Function.update d i (some g)) := by
  obtain ⟨-, hname, hsize, -⟩ := h.live hd
  have hlast : last ∈ chain i := by simp [hi]
  have hwhole : ∃ n, (f.write data d.free
      (chainBytes s.dataArea (appendAlloc s i last data.length).2)).length = 32 * (n + 1) := by
    refine ⟨front.length + (appendAlloc s i last data.length).2.length, ?_⟩
    rw [h.write_eq hlive hd hi hroom, length_chainBytes, List.length_append, List.length_cons]
    omega
  refine ⟨⟨f.name, f.size + f.accepts data.length d.free, _, f.named, hwhole⟩, rfl, rfl, rfl, ?_⟩
  refine h.change_slot (h.toLayout.appended hlive hi hroom) (fun j hj => appended_other hj)
    (fun j hj => Function.update_of_ne hj _ _) ?_ ?_
  · intro j hj hsj c hc
    obtain ⟨hne, hnew⟩ := h.toLinked.notMem_grown hlive hlast (fun _ => extend_fresh) hj hsj hc
    exact appendedArea_other hne hnew
  · rw [Holds, appended_self, Function.update_self]
    refine ⟨hname, ?_, h.write_eq hlive hd hi hroom⟩
    rw [hsize, h.accepts_eq hlive hd hi hroom]

end Write

theorem Represents.write {r : Result} (h : Represents s chain d) (hname : filename ≠ [])
    (hzero : ¬ LinksZero s (.write filename data)) (hrun : writeFile filename data s = some r) :
    ∃ d', FlatStep d (.write filename data) (r.1, r.2.1) d' ∧
      ∃ chain', Represents r.2.2 chain' d' := by
  cases hfind : findFile s filename with
  | none =>
      rw [writeFile_none hfind] at hrun
      cases hrun
      exact ⟨d, .writeAbsent ((h.absent_iff hname).mpr hfind), chain, h⟩
  | some i =>
      have hlive := findFile_live hfind hname
      obtain ⟨f, hd, hf, -, -⟩ := h.file hlive
      obtain rfl : f.name = filename := hf.trans (findFile_name hfind)
      obtain ⟨front, last, hi, hwalk⟩ := h.split_last hlive
      have hchain := h.chains i hlive
      rw [hi] at hchain
      have hroom := room_of_not_linksZero hfind hzero
      rw [writeFile_eq hfind hchain hwalk] at hrun
      split at hrun
      · cases hrun
        obtain ⟨g, hgname, hgsize, hgbytes, hrep⟩ := h.appended hlive hd hi hroom
        refine ⟨_, ?_, _, hrep⟩
        rw [← h.writeLines_eq hlive hd hi hroom]
        refine .write hd ?_ hgname hgsize hgbytes
        rw [length_chainBytes, h.grows_eq hlive hd hi hroom]
      · cases hrun

/-! ## Reading -/

/-- The reading loop prints the blocks of the chain one after the other. -/
theorem readLoop_blockLines {l : List (Fin numBlocks)} {v : Int} {fuel remaining : Nat}
    (hchain : blockPtr.Chain s.fatTable v l) (hfuel : remaining ≤ fuel) :
    (readLoop s fuel v remaining).1 =
      blockLines l.length (chainBytes s.dataArea l) remaining := by
  induction l generalizing v fuel remaining with
  | nil => rw [readLoop_stop (Or.inl hchain.eq_eof), List.length_nil, blockLines]
  | cons b l ih =>
      obtain rfl := hchain.eq_ptr
      rw [List.length_cons, blockLines]
      by_cases hstop : remaining = 0
      · rw [readLoop_stop (Or.inr hstop), if_pos hstop]
      · obtain ⟨fuel, rfl⟩ : ∃ n, fuel = n + 1 := ⟨fuel - 1, by omega⟩
        have hblock : (chainBytes s.dataArea (b :: l)).take 32 = blockBytes s.dataArea b :=
          List.take_left' length_blockBytes
        have hrest : (chainBytes s.dataArea (b :: l)).drop 32 = chainBytes s.dataArea l :=
          List.drop_left' length_blockBytes
        show (readLoop s (fuel + 1) (ofBlock b) remaining).1 = _
        rw [if_neg hstop, readLoop_step (by omega), ih hchain.tail (by omega), hblock, hrest]
        rfl

theorem Represents.readLines_eq (h : Represents s chain d) (hd : d i = some f) :
    Fat.readLines s f.name i = f.readLines := by
  obtain ⟨hlive, -, hsize, hbytes⟩ := h.live hd
  have hblocks : f.blocks = (chain i).length := by
    rw [FlatFile.blocks, hbytes, length_chainBytes]
    omega
  rw [Fat.readLines, FlatFile.readLines, hsize, readLoop_blockLines (h.chains i hlive) le_rfl,
    hblocks, hbytes]

/-! ## One command -/

theorem Represents.removed (h : Represents s chain d) (hlive : s.Live i) :
    Represents (removed s i (chain i)) (Function.update chain i []) (Function.update d i none) := by
  refine h.change_slot (h.toLayout.removed hlive) (fun j hj => removed_other hj)
    (fun j hj => Function.update_of_ne hj _ _) (fun _ _ _ _ _ => rfl) ?_
  rw [Holds, FileSystem.Live, removed_self]
  exact not_not_intro rfl

theorem Represents.step {cmd : Command} {r : Result} (h : Represents s chain d)
    (hname : cmd.NameOk) (hzero : ¬ LinksZero s cmd) (hrun : executeCmd s cmd = some r) :
    ∃ d', FlatStep d cmd (r.1, r.2.1) d' ∧ ∃ chain', Represents r.2.2 chain' d' := by
  cases cmd with
  | create filename => exact h.create hname.1 hname.2 hrun
  | write filename data => exact h.write hname.1 hzero hrun
  | read filename =>
      have hrun : readFile filename s = some r := hrun
      cases hfind : findFile s filename with
      | none =>
          rw [readFile_none hfind] at hrun
          cases hrun
          exact ⟨d, .readAbsent ((h.absent_iff hname.1).mpr hfind), chain, h⟩
      | some i =>
          have hlive := findFile_live hfind hname.1
          obtain ⟨f, hd, hf, -, -⟩ := h.file hlive
          obtain rfl : f.name = filename := hf.trans (findFile_name hfind)
          rw [readFile_eq hfind (h.chains i hlive), h.readLines_eq hd] at hrun
          cases hrun
          exact ⟨d, .read hd, chain, h⟩
  | delete filename =>
      have hrun : deleteFile filename s = some r := hrun
      cases hfind : findFile s filename with
      | none =>
          rw [deleteFile_none hfind] at hrun
          cases hrun
          exact ⟨d, .deleteAbsent ((h.absent_iff hname.1).mpr hfind), chain, h⟩
      | some i =>
          have hlive := findFile_live hfind hname.1
          obtain ⟨f, hd, hf, -, -⟩ := h.file hlive
          obtain rfl : f.name = filename := hf.trans (findFile_name hfind)
          rw [deleteFile_eq hfind (h.chains i hlive)] at hrun
          cases hrun
          exact ⟨_, .delete hd, _, h.removed hlive⟩

/-- Both directories list the same files. -/
theorem Represents.listing_eq (h : Represents s chain d) : listFiles s = d.listing := by
  have hslots : ∀ l : List (Fin maxFileNum),
      ((l.map s.directory).filter fun entry => entry.filename ≠ []).flatMap (fun entry =>
          ascii "File : " ++ entry.filename ++ ascii ", SIze: " ++ ascii (toString entry.size) ++
            ascii " bytes\n") =
        l.flatMap fun i => (d i).elim [] fun f =>
          ascii "File : " ++ f.name ++ ascii ", SIze: " ++ ascii (toString f.size) ++
            ascii " bytes\n" := by
    intro l
    induction l with
    | nil => rfl
    | cons i l ih =>
        rw [List.map_cons, List.flatMap_cons, ← ih]
        by_cases hlive : s.Live i
        · obtain ⟨f, hd, hname, hsize, -⟩ := h.file hlive
          rw [List.filter_cons_of_pos (by simpa [FileSystem.Live] using hlive),
            List.flatMap_cons, hd, Option.elim_some, hname, hsize]
        · rw [List.filter_cons_of_neg (by simpa [FileSystem.Live] using hlive),
            h.unused_iff.mpr hlive, Option.elim_none, List.nil_append]
  rw [listFiles, listedFiles, FlatDir.listing, hslots]

/-! ## Whole runs -/

/-- What a run of the commands returns and prints, the same commands may return and
print on the flat directory. -/
theorem Represents.run {cmds : List Command} {outs : List (Int × List Line)}
    (h : Represents s chain d) (hnames : ∀ cmd ∈ cmds, cmd.NameOk)
    (hzero : fatMachine.Along (fun s cmd => ¬ LinksZero s cmd) s cmds)
    (hrun : fatMachine.run s cmds = some (outs, t)) :
    ∃ d' chain', flatSpec.Run d cmds outs d' ∧ Represents t chain' d' := by
  obtain ⟨d', hflat, chain', hrep⟩ := hzero.with_mem.refines (S := flatSpec)
    (fun s d => ∃ chain, Represents s chain d)
    (by
      rintro s cmd o u d ⟨chain, h⟩ ⟨hmem, hok⟩ hstep
      exact h.step (hnames cmd hmem) hok (fatMachine_step.mp hstep))
    ⟨chain, h⟩ hrun
  exact ⟨d', chain', hflat, hrep⟩

end OsProjects.Fat
