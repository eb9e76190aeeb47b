import OsProjects.Fat.Range
import OsProjects.Lib.Bytes

/-!
# The image of the file system

`myfat` byte for byte: `save_file_system` writes the structure as it lies in memory,
`load_file_system` reads it back. In memory a file name is an array, of which the
operations see the bytes before the first NUL; what is behind it stays there, and
gets into the image too.

* **`decode_encode`**, **`encode_decode`** — the structure and its 47664 bytes.
* **`RawFs.view`** — the file system the operations see.
* **`RawFs.store`** — the memory behind an operation.
* **`Storable.step`** — what the operations leave behind fits into the structure.
-/

namespace OsProjects.Fat

open OsProjects.Lib OsProjects.Lib.Bytes

/-! ## The structure in memory -/

/-- `FileEntry` -/
structure RawEntry where
  filename : Fin maxFileName → UInt8
  startBlock : Int32
  size : Int32

/-- `FileSystem` -/
structure RawFs where
  fatTable : Fin numBlocks → Int32
  directory : Fin maxFileNum → RawEntry
  dataArea : Fin numBlocks → Fin blockSize → UInt8

/-- `myfat` before it is written to, and after the `memset`. -/
def RawFs.zero : RawFs where
  fatTable _ := 0
  directory _ := ⟨fun _ => 0, 0, 0⟩
  dataArea _ _ := 0

/-! ## The bytes -/

/-- `sizeof(FileEntry)` -/
def entrySize : Nat := maxFileName + 4 + 4

/-- Where `directory` begins. -/
def directoryStart : Nat := numBlocks * 4

/-- Where `data_area` begins. -/
def dataStart : Nat := directoryStart + maxFileNum * entrySize

/-- `sizeof(FileSystem)` -/
def imageSize : Nat := dataStart + numBlocks * blockSize

def encodeEntry (e : RawEntry) : List UInt8 :=
  List.ofFn e.filename ++ (int32Bytes e.startBlock ++ int32Bytes e.size)

def decodeEntry (l : List UInt8) : RawEntry where
  filename := bytesAt (slice 0 maxFileName l)
  startBlock := int32OfBytes (slice maxFileName 4 l)
  size := int32OfBytes (slice (maxFileName + 4) 4 l)

/-- What `fwrite(&myfat, sizeof(FileSystem), 1, f)` writes. -/
def encode (m : RawFs) : List UInt8 :=
  encodeArray int32Bytes m.fatTable ++
    (encodeArray encodeEntry m.directory ++ encodeArray List.ofFn m.dataArea)

/-- What `fread(&myfat, sizeof(FileSystem), 1, f)` reads from a file of at least that
size. -/
def decode (l : List UInt8) : RawFs where
  fatTable b := int32OfBytes (slice (b * 4) 4 l)
  directory i := decodeEntry (slice (directoryStart + i * entrySize) entrySize l)
  dataArea b := bytesAt (slice (dataStart + b * blockSize) blockSize l)

variable {m : RawFs} {l : List UInt8}

theorem length_encodeEntry (e : RawEntry) : (encodeEntry e).length = entrySize := by
  rw [encodeEntry, List.length_append, List.length_append, List.length_ofFn, length_int32Bytes,
    length_int32Bytes, entrySize]

theorem length_fatBytes (m : RawFs) : (encodeArray int32Bytes m.fatTable).length = directoryStart :=
  length_encodeArray _ length_int32Bytes

theorem length_directoryBytes (m : RawFs) :
    (encodeArray encodeEntry m.directory).length = maxFileNum * entrySize :=
  length_encodeArray _ length_encodeEntry

theorem length_dataBytes (m : RawFs) :
    (encodeArray List.ofFn m.dataArea).length = numBlocks * blockSize :=
  length_encodeArray _ fun _ => List.length_ofFn

theorem length_encode (m : RawFs) : (encode m).length = imageSize := by
  rw [encode, List.length_append, List.length_append, length_fatBytes, length_directoryBytes,
    length_dataBytes, imageSize, dataStart, Nat.add_assoc]

theorem decodeEntry_encodeEntry (e : RawEntry) : decodeEntry (encodeEntry e) = e := by
  have hlen : (List.ofFn e.filename).length = maxFileName := List.length_ofFn
  have hname : slice 0 maxFileName (encodeEntry e) = List.ofFn e.filename := by
    rw [encodeEntry, slice_append_left _ (by omega), slice_all hlen]
  have hstart : slice maxFileName 4 (encodeEntry e) = int32Bytes e.startBlock := by
    rw [encodeEntry, slice_append_at _ _ hlen, slice_append_left _ (by rw [length_int32Bytes]),
      slice_all (length_int32Bytes _)]
  have hsize : slice (maxFileName + 4) 4 (encodeEntry e) = int32Bytes e.size := by
    rw [encodeEntry, slice_append_right _ _ _ hlen, slice_append_at _ _ (length_int32Bytes _),
      slice_all (length_int32Bytes _)]
  rw [decodeEntry, hname, hstart, hsize, bytesAt_ofFn, int32OfBytes_int32Bytes,
    int32OfBytes_int32Bytes]

/-- Loading what has been saved. -/
theorem decode_encode (m : RawFs) : decode (encode m) = m := by
  have hfat : ∀ b : Fin numBlocks, slice (b * 4) 4 (encode m) = int32Bytes (m.fatTable b) := by
    intro b
    have hb := b.isLt
    rw [encode, slice_append_left _ (by rw [length_fatBytes, directoryStart]; omega),
      slice_encodeArray _ length_int32Bytes]
  have hdir : ∀ i : Fin maxFileNum,
      slice (directoryStart + i * entrySize) entrySize (encode m) =
        encodeEntry (m.directory i) := by
    intro i
    have hle : i * entrySize + entrySize ≤ maxFileNum * entrySize := by
      rw [← Nat.succ_mul]
      exact Nat.mul_le_mul_right _ i.isLt
    rw [encode, slice_append_right _ _ _ (length_fatBytes m),
      slice_append_left _ (by rw [length_directoryBytes]; exact hle),
      slice_encodeArray _ length_encodeEntry]
  have hdata : ∀ b : Fin numBlocks,
      slice (dataStart + b * blockSize) blockSize (encode m) = List.ofFn (m.dataArea b) := by
    intro b
    rw [encode, dataStart, Nat.add_assoc, slice_append_right _ _ _ (length_fatBytes m),
      slice_append_right _ _ _ (length_directoryBytes m),
      slice_encodeArray _ fun _ => List.length_ofFn]
  obtain ⟨fatTable, directory, dataArea⟩ := m
  rw [decode]
  congr 1
  · funext b
    rw [hfat, int32OfBytes_int32Bytes]
  · funext i
    rw [hdir, decodeEntry_encodeEntry]
  · funext b
    rw [hdata, bytesAt_ofFn]

/-- The string in an array: the bytes before the first NUL. -/
def cString {n : Nat} (a : Fin n → UInt8) : List UInt8 := (List.ofFn a).takeWhile (· ≠ 0)

/-- `strcpy(dst, src)`: the bytes of the string and a NUL. -/
def strcpy {n : Nat} (dst : Fin n → UInt8) (src : List UInt8) : Fin n → UInt8 :=
  fun j => (src ++ [0]).getD j (dst j)

/-- The file system in memory. -/
def RawFs.view (m : RawFs) : FileSystem where
  fatTable b := (m.fatTable b).toInt
  directory i :=
    ⟨cString (m.directory i).filename, (m.directory i).startBlock.toInt,
      (m.directory i).size.toInt.toNat⟩
  dataArea := m.dataArea

/-- The memory behind an operation that leaves `s`. Where a name has not changed,
copying it once more changes nothing; `filename[0] = '\0'` copies the empty name. -/
def RawFs.store (m : RawFs) (s : FileSystem) : RawFs where
  fatTable b := Int32.ofInt (s.fatTable b)
  directory i :=
    ⟨strcpy (m.directory i).filename (s.directory i).filename,
      Int32.ofInt (s.directory i).startBlock, Int32.ofInt (s.directory i).size⟩
  dataArea := s.dataArea

/-- A C string of bytes. -/
def IsCString (name : List UInt8) : Prop := ∀ x ∈ name, x ≠ 0

instance (name : List UInt8) : Decidable (IsCString name) :=
  inferInstanceAs (Decidable (∀ x ∈ name, x ≠ 0))

/-- The file system fits into the structure. -/
structure Storable (s : FileSystem) : Prop extends RangeSafe s where
  sizes : ∀ i, (s.directory i).size < intBound
  short : ∀ i, (s.directory i).filename.length < maxFileName
  strings : ∀ i, IsCString (s.directory i).filename

variable {s t : FileSystem} {n : Nat}

theorem cString_strcpy {dst : Fin n → UInt8} {src : List UInt8} (hlen : src.length < n)
    (hsrc : IsCString src) : cString (strcpy dst src) = src := by
  have hbound : 0 + (src ++ [0]).length ≤ n := by
    rw [List.length_append, List.length_singleton]
    omega
  have hsplit : List.ofFn (strcpy dst src) =
      src ++ 0 :: (List.ofFn dst).drop (src.length + 1) := by
    have hcopy := ofFn_overwrite dst hbound
    simp only [Nat.zero_le, if_true, Nat.sub_zero, List.take_zero, List.nil_append,
      Nat.zero_add, List.append_assoc, List.length_append, List.length_singleton] at hcopy
    exact hcopy
  rw [cString, hsplit, List.takeWhile_append_of_pos (by simpa [IsCString] using hsrc),
    List.takeWhile_cons_of_neg (by simp), List.append_nil]

/-- Behind the string in an array there is its NUL. -/
theorem cString_isPrefix {a : Fin n → UInt8} (h : ∃ j, a j = 0) :
    cString a ++ [0] <+: List.ofFn a := by
  have hsplit := List.takeWhile_append_dropWhile (p := fun x : UInt8 => decide (x ≠ 0))
    (l := List.ofFn a)
  cases hrest : (List.ofFn a).dropWhile (fun x => decide (x ≠ 0)) with
  | nil =>
      obtain ⟨j, hj⟩ := h
      have hall := List.dropWhile_eq_nil_iff.mp hrest (a j) (List.mem_ofFn.mpr ⟨j, rfl⟩)
      rw [hj] at hall
      exact absurd hall (by decide)
  | cons x rest =>
      have hx : x = 0 := by
        have hhead := List.head?_dropWhile_not (fun x : UInt8 => decide (x ≠ 0)) (List.ofFn a)
        rw [hrest] at hhead
        simpa using hhead
      rw [hrest, hx] at hsplit
      exact ⟨rest, by rw [cString, List.append_assoc]; exact hsplit⟩

/-- Copying the string that is there changes nothing. -/
theorem strcpy_cString {a : Fin n → UInt8} (h : ∃ j, a j = 0) : strcpy a (cString a) = a := by
  obtain ⟨rest, hrest⟩ := cString_isPrefix h
  funext j
  rw [strcpy, List.getD_eq_getElem?_getD]
  by_cases hj : j.val < (cString a ++ [0]).length
  · have hget : (List.ofFn a)[j.val]? = (cString a ++ [0])[j.val]? := by
      rw [← hrest, List.getElem?_append_left hj]
    rw [← hget, List.getElem?_ofFn, dif_pos j.isLt, Option.getD_some]
  · rw [List.getElem?_eq_none (not_lt.mp hj), Option.getD_none]

/-- A block number or the end mark is an `int`. -/
theorem toInt_ofInt_block {v : Int} (h : 0 ≤ v ∧ v < numBlocks ∨ v = eof) :
    (Int32.ofInt v).toInt = v := by
  have hblocks := numBlocks_eq
  have hbound : 0 ≤ v ∧ v < 65536 := by
    rcases h with h | h
    · omega
    · rw [h, eof]
      omega
  exact Int32.toInt_ofInt_of_le (by omega) (by omega)

theorem Storable.view_store (h : Storable s) (m : RawFs) : (m.store s).view = s := by
  obtain ⟨hrange, hsizes, hshort, hstrings⟩ := h
  obtain ⟨fatTable, directory, dataArea⟩ := s
  rw [RawFs.view, RawFs.store]
  congr 1
  · funext b
    exact toInt_ofInt_block (hrange.entries b)
  · funext i
    have hsize : (directory i).size < 2 ^ 31 := hsizes i
    have hname := @cString_strcpy _ (m.directory i).filename _ (hshort i) (hstrings i)
    have hstart := toInt_ofInt_block (Or.inl (hrange.starts i))
    have hvalue : (Int32.ofInt (directory i).size).toInt = (directory i).size :=
      Int32.toInt_ofInt_of_le (by omega) (by omega)
    dsimp only
    rw [hname, hvalue, Int.toNat_natCast]
    rw [hstart]

/-- Every name has its NUL, and no size is negative. -/
structure RawFs.Sound (m : RawFs) : Prop where
  terminated : ∀ i, ∃ j, (m.directory i).filename j = 0
  sizes : ∀ i, 0 ≤ (m.directory i).size.toInt

instance (m : RawFs) : Decidable m.Sound :=
  decidable_of_iff ((∀ i, ∃ j, (m.directory i).filename j = 0) ∧
      ∀ i, 0 ≤ (m.directory i).size.toInt)
    ⟨fun h => ⟨h.1, h.2⟩, fun h => ⟨h.terminated, h.sizes⟩⟩

/-- An operation that changes nothing leaves every byte alone. -/
theorem RawFs.Sound.store_view (h : m.Sound) : m.store m.view = m := by
  obtain ⟨fatTable, directory, dataArea⟩ := m
  rw [RawFs.view, RawFs.store]
  congr 1
  · funext b
    exact Int32.ofInt_toInt _
  · funext i
    have hsize : ((directory i).size.toInt.toNat : Int) = (directory i).size.toInt :=
      Int.toNat_of_nonneg (h.sizes i)
    dsimp only
    rw [strcpy_cString (h.terminated i), hsize, Int32.ofInt_toInt, Int32.ofInt_toInt]

theorem RawFs.Sound.zero : RawFs.zero.Sound where
  terminated _ := ⟨0, rfl⟩
  sizes _ := le_rfl

theorem Storable.sound_store (h : Storable s) (m : RawFs) : (m.store s).Sound where
  terminated i := by
    refine ⟨⟨(s.directory i).filename.length, h.short i⟩, ?_⟩
    show ((s.directory i).filename ++ [0]).getD (s.directory i).filename.length _ = 0
    rw [List.getD_eq_getElem?_getD, List.getElem?_concat_length, Option.getD_some]
  sizes i := by
    have hsize : (s.directory i).size < 2 ^ 31 := h.sizes i
    show 0 ≤ (Int32.ofInt (s.directory i).size).toInt
    rw [Int32.toInt_ofInt_of_le (by omega) (by omega)]
    omega

/-! ## The operations keep it so -/

theorem intBound_pos : 0 < intBound := Nat.two_pow_pos 31

theorem Storable.zero : Storable .zero where
  toRangeSafe := RangeSafe.zero
  sizes _ := intBound_pos
  short _ := Nat.succ_pos 99
  strings _ := fun _ hx => absurd hx List.not_mem_nil

variable {i : Fin maxFileNum} {filename data : List UInt8} {cmd : Command}

theorem Storable.change_slot (h : Storable s) (hrange : RangeSafe t)
    (hdir : ∀ j, j ≠ i → t.directory j = s.directory j) (hsize : (t.directory i).size < intBound)
    (hshort : (t.directory i).filename.length < maxFileName)
    (hstring : IsCString (t.directory i).filename) : Storable t := by
  have hslot : ∀ j, (t.directory j).size < intBound ∧
      (t.directory j).filename.length < maxFileName ∧ IsCString (t.directory j).filename := by
    intro j
    by_cases hj : j = i
    · rw [hj]
      exact ⟨hsize, hshort, hstring⟩
    · rw [hdir j hj]
      exact ⟨h.sizes j, h.short j, h.strings j⟩
  exact ⟨hrange, fun j => (hslot j).1, fun j => (hslot j).2.1, fun j => (hslot j).2.2⟩

theorem Storable.create {r : Result} (h : Storable s) (hname : IsCString filename)
    (hrun : createFile filename s = some r) : Storable r.2.2 := by
  rcases createFile_cases filename s with
    ⟨-, hcase⟩ | ⟨-, hcase⟩ | ⟨i, b, hfind, -, -, hcase⟩
  · rw [hcase] at hrun
    cases hrun
    exact h
  · rw [hcase] at hrun
    cases hrun
    exact h
  · rw [hcase] at hrun
    split at hrun
    · next hlen =>
        cases hrun
        refine h.change_slot (i := i) (h.toRangeSafe.created hfind b)
          (fun j hj => created_other hj) ?_ ?_ ?_
        · rw [created_self]
          exact intBound_pos
        · rw [created_self]
          exact hlen
        · rw [created_self]
          exact hname
    · cases hrun

theorem Storable.write {r : Result} (h : Storable s) (hrun : writeBytes filename data s = some r) :
    Storable r.2.2 := by
  cases hfind : findFile s filename with
  | none =>
      rw [writeBytes, hfind] at hrun
      cases hrun
      exact h
  | some i =>
      obtain ⟨last, hwalk⟩ := walk_valid h.entries ((s.directory i).size / blockSize) (h.starts i)
      rw [h.writeBytes_eq hfind hwalk, appendAt_eq] at hrun
      split at hrun
      · next hbound =>
          cases hrun
          refine h.change_slot (i := i) (h.toRangeSafe.appended last)
            (fun j hj => appended_other hj) ?_ ?_ ?_
          · rw [appended_self]
            exact hbound
          · rw [appended_filename]
            exact h.short i
          · rw [appended_filename]
            exact h.strings i
      · cases hrun

/-- Every command keeps the file system in the range of the structure. -/
theorem Storable.step {r : Result} (h : Storable s) (hname : IsCString cmd.filename)
    (hrun : executeCmd s cmd = some r) : Storable r.2.2 := by
  cases cmd with
  | create filename => exact h.create hname hrun
  | write filename data => exact h.write hrun
  | read filename =>
      replace hrun : readFile filename s = some r := hrun
      cases hfind : findFile s filename with
      | none =>
          rw [readFile_none hfind] at hrun
          cases hrun
          exact h
      | some i =>
          obtain ⟨lines, hread, -⟩ := h.read hfind
          rw [hread] at hrun
          cases hrun
          exact h
  | delete filename =>
      replace hrun : deleteFile filename s = some r := hrun
      cases hfind : findFile s filename with
      | none =>
          rw [deleteFile_none hfind] at hrun
          cases hrun
          exact h
      | some i =>
          rw [deleteFile, hfind] at hrun
          obtain ⟨fat, hfree, rfl⟩ := Option.map_eq_some_iff.mp hrun
          refine h.change_slot (i := i) (h.toRangeSafe.removed (freeLoop_valid h.entries hfree))
            (fun j hj => Function.update_of_ne hj _ _) ?_ ?_ ?_
          all_goals dsimp only; rw [Function.update_self]
          · exact h.sizes i
          · exact Nat.zero_lt_succ 99
          · exact fun _ hx => absurd hx List.not_mem_nil

end OsProjects.Fat
