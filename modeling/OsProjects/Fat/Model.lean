import Mathlib.Data.List.FinRange
import Mathlib.Logic.Function.Basic
import Mathlib.Tactic

/-!
# The FAT file system

`fat.c`: the file system structure and the four operations on it. A C string is
the list of its bytes before the NUL; `data_area[block * BLOCK_SIZE + offset]` is
`dataArea block offset`. An operation gives its return value, the lines it
prints and the new file system. `none` stands for undefined behaviour (an access
outside an array, signed overflow of a file size) and for a `delete_file` that
does not return.

A file size starts at 0 and only grows, so it is a natural number. The image is in
`Fat.Image`, and `main` in `Fat.Processes`.
-/

namespace OsProjects.Fat

/-- `MAX_FILE_NUM` -/
def maxFileNum : Nat := 100

/-- `NUM_BLOCKS` -/
def numBlocks : Nat := 1024

/-- `BLOCK_SIZE` -/
def blockSize : Nat := 32

/-- `MAX_FILE_NAME` -/
abbrev maxFileName : Nat := 100

theorem numBlocks_eq : numBlocks = 1024 := rfl

theorem blockSize_eq : blockSize = 32 := rfl

instance : NeZero numBlocks := ⟨by decide⟩
instance : NeZero maxFileNum := ⟨by decide⟩

/-- The bound of `int` for file sizes. -/
def intBound : Nat := 2 ^ 31

/-- `0xFFFF`, the end of a chain in the FAT. -/
def eof : Int := 0xFFFF

structure FileEntry where
  filename : List UInt8
  startBlock : Int
  size : Nat
  deriving DecidableEq, Repr

structure FileSystem where
  fatTable : Fin numBlocks → Int
  directory : Fin maxFileNum → FileEntry
  dataArea : Fin numBlocks → Fin blockSize → UInt8

/-- `memset(&myfat, 0, sizeof(FileSystem))`. -/
def FileSystem.zero : FileSystem where
  fatTable := fun _ => 0
  directory := fun _ => ⟨[], 0, 0⟩
  dataArea := fun _ _ => 0

/-! ## What is printed -/

inductive Line
  | alreadyExists (name : List UInt8)
  | created (name : List UInt8)
  | directoryOrDiskFull
  | invalidStartBlock (name : List UInt8)
  | chainCorrupt (name : List UInt8)
  | partialAppend (name : List UInt8)
  | dataWritten (name : List UInt8)
  | writeNotFound (name : List UInt8)
  | empty (name : List UInt8)
  | notInitialized (name : List UInt8)
  | contentOf (name : List UInt8)
  | bytes (content : List UInt8)
  | newline
  | readCorrupt (name : List UInt8)
  | deleted (name : List UInt8)
  | notFound (name : List UInt8)
  deriving DecidableEq, Repr

def ascii (text : String) : List UInt8 := text.toList.map fun c => c.toNat.toUInt8

/-- The bytes a line puts on the standard output. -/
def Line.text : Line → List UInt8
  | .alreadyExists name => ascii "File '" ++ name ++ ascii "' already exists.\n"
  | .created name => ascii "File '" ++ name ++ ascii "' created.\n"
  | .directoryOrDiskFull => ascii "Error: Directory or Disk full.\n"
  | .invalidStartBlock name => ascii "File " ++ name ++ ascii " has invalid start block.\n"
  | .chainCorrupt name => ascii "FAT chain corrupt file " ++ name ++ ascii ".\n"
  | .partialAppend name =>
      ascii "No more space in FAT table. Partial data append to " ++ name ++ ascii ".\n"
  | .dataWritten name => ascii "Data written to '" ++ name ++ ascii "'.\n"
  | .writeNotFound name => ascii "FILE " ++ name ++ ascii " not found.\n"
  | .empty name => ascii "file " ++ name ++ ascii " is empty\n"
  | .notInitialized name =>
      ascii "File " ++ name ++ ascii " not initalized. Use create command first.\n"
  | .contentOf name => ascii "Content of '" ++ name ++ ascii "' : "
  | .bytes content => content
  | .newline => ascii "\n"
  | .readCorrupt name => ascii "FAT chain corrupt while read " ++ name ++ ascii ".\n"
  | .deleted name => ascii "File '" ++ name ++ ascii "' deleted.\n"
  | .notFound name => ascii "File " ++ name ++ ascii " not found.\n"

/-- The bytes of a file among what is printed. -/
def Line.content : Line → List UInt8
  | .bytes content => content
  | _ => []

/-- The file content among the lines printed. -/
def printed (lines : List Line) : List UInt8 := lines.flatMap Line.content

/-- What an operation returns, prints and leaves behind. -/
abbrev Result := Int × List Line × FileSystem

/-! ## Blocks -/

/-- A block number that is an index of the arrays. -/
def toBlock (block : Int) : Option (Fin numBlocks) :=
  if h : 0 ≤ block ∧ block < numBlocks then some ⟨block.toNat, by omega⟩ else none

/-- The `int` for a block. -/
def ofBlock (block : Fin numBlocks) : Int := block.val

/-- `find_free_block` -/
@[irreducible] def findFreeBlock (fat : Fin numBlocks → Int) : Option (Fin numBlocks) :=
  (List.finRange numBlocks).find? fun i => fat i == 0

/-- The first directory entry with the given name. -/
@[irreducible] def findFile (s : FileSystem) (filename : List UInt8) : Option (Fin maxFileNum) :=
  (List.finRange maxFileNum).find? fun i => (s.directory i).filename == filename

/-- `create_file` -/
def createFile (filename : List UInt8) (s : FileSystem) : Option Result :=
  match findFile s filename with
  | some _ => some (-1, [.alreadyExists filename], s)
  | none =>
      let found := (List.finRange maxFileNum).findSome? fun i =>
        if (s.directory i).filename == [] then (findFreeBlock s.fatTable).map fun j => (i, j)
        else none
      match found with
      | none => some (-1, [.directoryOrDiskFull], s)
      | some (i, j) =>
          -- `strcpy` into `filename[MAX_FILE_NAME]`
          if filename.length < maxFileName then
            some (0, [.created filename],
              { s with
                fatTable := Function.update s.fatTable j eof
                directory := Function.update s.directory i ⟨filename, ofBlock j, 0⟩ })
          else none

/-! ## Writing -/

/-- The loop that walks to the last block. `steps` is `remain / BLOCK_SIZE`: the
test `remain >= BLOCK_SIZE` succeeds that often. -/
def walk (fat : Fin numBlocks → Int) : (steps : Nat) → (block : Int) → Option Int
  | 0, block => some block
  | steps + 1, block =>
      match toBlock block with
      | none => none
      | some b => if fat b = eof then some block else walk fat steps (fat b)

/-- `memcpy(&data_area[block * BLOCK_SIZE + offset], src, |src|)` within a
block. -/
def memcpy (area : Fin numBlocks → Fin blockSize → UInt8) (block : Fin numBlocks) (offset : Nat)
    (src : List UInt8) : Fin numBlocks → Fin blockSize → UInt8 :=
  Function.update area block fun j =>
    if offset ≤ j.val then src.getD (j.val - offset) (area block j) else area block j

/-- `fat_table[block] = new_block; fat_table[new_block] = 0xFFFF`. -/
def linkBlock (fat : Fin numBlocks → Int) (block newBlock : Fin numBlocks) :
    Fin numBlocks → Int :=
  Function.update (Function.update fat block (ofBlock newBlock)) newBlock eof

/-- A full block is followed by a newly allocated one; `none` when there is no
free block. -/
def makeRoom (s : FileSystem) (block : Fin numBlocks) (offset : Nat) :
    Option (FileSystem × Fin numBlocks × Nat) :=
  if blockSize - offset = 0 then
    (findFreeBlock s.fatTable).map fun newBlock =>
      ({ s with fatTable := linkBlock s.fatTable block newBlock }, newBlock, 0)
  else some (s, block, offset)

/-- How the writing loop ends: at a block number outside the array, or with the
data that did not fit and the lines printed. -/
inductive AppendEnd
  | corrupt
  | done (rest : List UInt8) (lines : List Line)
  deriving DecidableEq, Repr

/-- The loop that writes `data`, from `offset` in `block` on. Every iteration
writes a byte, so `|data|` is enough fuel. -/
def appendLoop (filename : List UInt8) :
    (fuel : Nat) → FileSystem → (block : Int) → (offset : Nat) → (data : List UInt8) →
      AppendEnd × FileSystem
  | _, s, _, _, [] => (.done [] [], s)
  | 0, s, _, _, data => (.done data [], s)
  | fuel + 1, s, block, offset, data =>
      match toBlock block with
      | none => (.corrupt, s)
      | some b =>
          match makeRoom s b offset with
          | none => (.done data [.partialAppend filename], s)
          | some (s, b, offset) =>
              let toWrite := min data.length (blockSize - offset)
              appendLoop filename fuel
                { s with dataArea := memcpy s.dataArea b offset (data.take toWrite) }
                (ofBlock b) (offset + toWrite) (data.drop toWrite)

/-- `int data_len = strlen(data)`. -/
def dataLen (data : List UInt8) : Int := Int.bmod data.length (2 ^ 32)

/-- The bytes the writing loop is to write. -/
def toAppend (data : List UInt8) : List UInt8 := data.take (dataLen data).toNat

/-- `write_file` behind the walk: the writing loop, and then the new size. -/
def appendAt (filename data : List UInt8) (s : FileSystem) (i : Fin maxFileNum) (block : Int) :
    Option Result :=
  let entry := s.directory i
  match appendLoop filename data.length s block (entry.size % blockSize) data with
  | (.corrupt, s) => some (-1, [.chainCorrupt filename], s)
  | (.done rest lines, s) =>
      let size := entry.size + (data.length - rest.length)
      if size < intBound then
        some (0, lines ++ [.dataWritten filename],
          { s with directory := Function.update s.directory i { entry with size := size } })
      else none

/-- `write_file`, given the bytes its loop is to write. -/
def writeBytes (filename data : List UInt8) (s : FileSystem) : Option Result :=
  match findFile s filename with
  | none => some (-1, [.writeNotFound filename], s)
  | some i =>
      let entry := s.directory i
      match toBlock entry.startBlock with
      | none => some (-1, [.invalidStartBlock filename], s)
      | some _ =>
          (walk s.fatTable (entry.size / blockSize) entry.startBlock).bind
            (appendAt filename data s i)

/-- `write_file` -/
def writeFile (filename data : List UInt8) (s : FileSystem) : Option Result :=
  writeBytes filename (toAppend data) s

/-! ## Reading -/

/-- `printf("%.*s", n, &data_area[block * BLOCK_SIZE])`. -/
def printBlock (area : Fin blockSize → UInt8) (n : Nat) : List UInt8 :=
  ((List.ofFn area).take n).takeWhile (· ≠ 0)

/-- The loop of `read_file`, with `remaining = total_size - bytes_read`; the
second component is `false` when it meets a block number outside the array. An
iteration reads a byte, so `remaining` is enough fuel. -/
def readLoop (s : FileSystem) :
    (fuel : Nat) → (block : Int) → (remaining : Nat) → List Line × Bool
  | 0, _, _ => ([], true)
  | fuel + 1, block, remaining =>
      if block = eof ∨ remaining = 0 then ([], true)
      else
        match toBlock block with
        | none => ([], false)
        | some b =>
            let readSize := min remaining blockSize
            let (lines, ok) := readLoop s fuel (s.fatTable b) (remaining - readSize)
            (.bytes (printBlock (s.dataArea b) readSize) :: lines, ok)

/-- `read_file` -/
def readFile (filename : List UInt8) (s : FileSystem) : Option Result :=
  match findFile s filename with
  | none => some (-1, [.notFound filename], s)
  | some i =>
      let entry := s.directory i
      if entry.size = 0 then some (0, [.empty filename], s)
      else if entry.startBlock = -1 then some (-1, [.notInitialized filename], s)
      else
        let (lines, ok) := readLoop s entry.size entry.startBlock entry.size
        if ok then some (0, .contentOf filename :: lines ++ [.newline], s)
        else some (-1, .contentOf filename :: lines ++ [.readCorrupt filename], s)

/-! ## Deleting -/

/-- The loop that frees a chain. Every iteration marks an entry free; reading an
entry that is already 0 leads to block 0, and a second time it leads there for
ever. So a run that ends makes at most `NUM_BLOCKS + 1` iterations. -/
def freeLoop : (fuel : Nat) → (Fin numBlocks → Int) → (block : Int) →
    Option (Fin numBlocks → Int)
  | 0, _, _ => none
  | fuel + 1, fat, block =>
      if block = eof then some fat
      else
        match toBlock block with
        | none => none
        | some b => freeLoop fuel (Function.update fat b 0) (fat b)

/-- `delete_file` -/
def deleteFile (filename : List UInt8) (s : FileSystem) : Option Result :=
  match findFile s filename with
  | none => some (-1, [.notFound filename], s)
  | some i =>
      let entry := s.directory i
      (freeLoop (numBlocks + 2) s.fatTable entry.startBlock).map fun fat =>
        (0, [.deleted filename],
          { s with
            fatTable := fat
            directory := Function.update s.directory i { entry with filename := [] } })

/-! ## Listing -/

/-- The directory entries that `list_files` shows. -/
def listedFiles (s : FileSystem) : List FileEntry :=
  ((List.finRange maxFileNum).map s.directory).filter fun entry => entry.filename ≠ []

/-- What `list_files` prints. -/
def listFiles (s : FileSystem) : List UInt8 :=
  ascii "Files in the file system.\n" ++
    (listedFiles s).flatMap fun entry =>
      ascii "File : " ++ entry.filename ++ ascii ", SIze: " ++ ascii (toString entry.size) ++
        ascii " bytes\n"

/-! ## Commands -/

inductive Command
  | create (filename : List UInt8)
  | write (filename data : List UInt8)
  | read (filename : List UInt8)
  | delete (filename : List UInt8)
  deriving DecidableEq, Repr

/-- The file operations of `execute_cmd`. -/
def executeCmd (s : FileSystem) : Command → Option Result
  | .create filename => createFile filename s
  | .write filename data => writeFile filename data s
  | .read filename => readFile filename s
  | .delete filename => deleteFile filename s

end OsProjects.Fat
