import Airix.Axfs.Layout
import Airix.Lib.Prog

/-!
# The file system in the kernel (`fs/axfs.c`)

The code is a program over the calls that it makes: the block cache, the slab allocator, and the running
process's table of open files, which the layers above need. A pointer that the code checks against `NULL` is an
`Option`; a structure in allocated memory is its address with its contents.
-/

namespace Airix.Axfs
open Bytes

/-- The slab caches of the file systems. -/
inductive Cache
  | file
  | inode
  | axInode
deriving DecidableEq, Repr

/-- A `struct ax_inode` in memory. -/
structure InodePtr where
  object : Nat
  inode : Inode

/-- A path in memory. -/
structure PathPtr where
  object : Nat
  text : List UInt8

/-- `struct inode` of `fs/fs.h`. -/
structure VfsInode where
  object : Nat
  iDevice : UInt8
  iIno : Nat
  iPrivate : Option InodePtr

/-- `struct file`; the mount and the operations are those of the only file system. -/
structure File where
  object : Nat
  fPath : Option PathPtr
  fInode : Option VfsInode
  fPos : Nat
  fRefs : Int
  fFlags : Int

inductive Call
  | bioGet (dev : UInt8) (sector : UInt64)
  | bioRead (bio : Nat)
  | bioData (bio : Nat)
  | bioRelease (bio : Nat)
  | slabAlloc (cache : Cache)
  | slabFree (cache : Cache) (object : Nat)
  | kmalloc (size : Nat)
  | kfree (object : Nat)
  | files
  | setFile (fd : Nat) (file : Option File)

/-- What a call is answered with. The pointer of `bio_data` is the memory that it points to; an object 0 is
the null pointer. -/
abbrev Call.Answer : Call → Type
  | bioGet _ _ => Nat
  | bioRead _ => Bool
  | bioData _ => Nat → UInt8
  | bioRelease _ => Unit
  | slabAlloc _ => Nat
  | slabFree _ _ => Unit
  | kmalloc _ => Nat
  | kfree _ => Unit
  | files => Nat → Option File
  | setFile _ _ => Unit

/-- Why the code stops. -/
inductive Stop
  | divByZero
  /-- A null pointer is used. -/
  | fault
  /-- "Can not find file '%s' mount path." -/
  | noMount
  /-- "Alloc file struct data failed." -/
  | noData
deriving DecidableEq, Repr

abbrev P := Prog Call Call.Answer Stop

def bioGet (dev : UInt8) (sector : UInt64) : P Nat := Prog.perform (Call.bioGet dev sector)
def bioRead (bio : Nat) : P Bool := Prog.perform (Call.bioRead bio)
def bioData (bio : Nat) : P (Nat → UInt8) := Prog.perform (Call.bioData bio)
def bioRelease (bio : Nat) : P Unit := Prog.perform (Call.bioRelease bio)
def slabAlloc (cache : Cache) : P Nat := Prog.perform (Call.slabAlloc cache)
def slabFree (cache : Cache) (object : Nat) : P Unit := Prog.perform (Call.slabFree cache object)
def kmalloc (size : Nat) : P Nat := Prog.perform (Call.kmalloc size)
def kfree (object : Nat) : P Unit := Prog.perform (Call.kfree object)
def files : P (Nat → Option File) := Prog.perform Call.files
def setFile (fd : Nat) (file : Option File) : P Unit := Prog.perform (Call.setFile fd file)

def sectorSize : Nat := 512

/-- `SECTOR_NO` on `uint64_t`. -/
def sectorNo (block : Nat) : UInt64 := UInt64.ofNat block * UInt64.ofNat (blockSize / sectorSize)

/-- The memory behind a pointer that is advanced by `off`. -/
def advance (m : Nat → UInt8) (off : Nat) : Nat → UInt8 := fun i => m (off + i)

/-! ### Inodes -/

def getSuperBlock (device : UInt8) : P SuperBlock := do
  let bio ← bioGet device (sectorNo superBlockNo)
  let _ ← bioRead bio
  let data ← bioData bio
  bioRelease bio
  return SuperBlock.ofBytes data

/-- `a - b` on `uint32_t`. -/
def u32Sub (a b : Nat) : Nat := u32 (a + (2 ^ 32 - b))

def inodeBgIndex (sb : SuperBlock) (ino : Nat) : P Nat :=
  if sb.sInodesPerGroup = 0 then .stop .divByZero else return u32Sub ino 1 / sb.sInodesPerGroup

def inodeIndexInBg (sb : SuperBlock) (ino : Nat) : P Nat :=
  if sb.sInodesPerGroup = 0 then .stop .divByZero else return u32Sub ino 1 % sb.sInodesPerGroup

def getBgInodeTable (device : UInt8) (bgIndex : Nat) : P Nat := do
  let offset := u32 (BlockGroupDescriptor.size * bgIndex)
  let sector := offset % blockSize / sectorSize
  let block := offset / blockSize + superBlockNo + 1
  let bio ← bioGet device (sectorNo block + UInt64.ofNat sector)
  let _ ← bioRead bio
  let data ← bioData bio
  let desc := BlockGroupDescriptor.ofBytes (advance data (offset % sectorSize))
  bioRelease bio
  return desc.bgInodeTable

def inodeRead (device : UInt8) (bgIndex index : Nat) : P Inode := do
  let inodeTable ← getBgInodeTable device bgIndex
  let offset := u32 (Inode.size * index)
  let sector := offset % blockSize / sectorSize
  let offsetInSector := offset % blockSize % sectorSize
  let block := u32 (inodeTable + offset / blockSize)
  let bio ← bioGet device (sectorNo block + UInt64.ofNat sector)
  let _ ← bioRead bio
  let data ← bioData bio
  bioRelease bio
  return Inode.ofBytes (advance data offsetInSector)

def inodeGet (sb : SuperBlock) (device : UInt8) (ino : Nat) : P (Option InodePtr) := do
  let object ← slabAlloc .axInode
  let bgIndex ← inodeBgIndex sb ino
  let index ← inodeIndexInBg sb ino
  if object ≠ 0 then
    let inode ← inodeRead device bgIndex index
    return some ⟨object, inode⟩
  else return none

def inodeRelease : Option InodePtr → P Unit
  | some p => slabFree .axInode p.object
  | none => return

/-! ### Directories -/

def slash : UInt8 := 47

/-- `SECTOR_NO` on `uint32_t`. -/
def sectorNo32 (block : Nat) : UInt64 := UInt64.ofNat (u32 (block * (blockSize / sectorSize)))

def blockRead (device : UInt8) (block : Nat) : P (Option Nat) := do
  let bio ← bioGet device (sectorNo32 block)
  if ← bioRead bio then return some bio
  else
    bioRelease bio
    return none

def blockRelease (bio : Nat) : P Unit := bioRelease bio

/-- The loop of `block_find_ino` on the block `m`. A `rec_len` of 0 ends it, any other one brings it
further. -/
def findEntry (m : Nat → UInt8) (name : List UInt8) : Nat → Nat → Nat
  | 0, _ => 0
  | fuel + 1, it =>
    if it < blockSize then
      let entry := DirectoryEntry.ofBytes (advance m it)
      if entry.nameLen = name.length ∧
          (List.range name.length).all (fun i => name.getD i 0 == m (it + DirectoryEntry.size + i)) then entry.inode
      else if entry.recLen = 0 then 0
      else findEntry m name fuel (it + entry.recLen)
    else 0

def blockFindIno (name : List UInt8) (device : UInt8) (block : Nat) : P Nat := do
  match ← blockRead device block with
  | some bio =>
    let data ← bioData bio
    blockRelease bio
    return findEntry data name blockSize 0
  | none => return 0

/-- The loop of `dir_find_ino` over the block numbers. -/
def findInBlocks (name : List UInt8) (device : UInt8) : List Nat → P Nat
  | [] => return 0
  | block :: blocks => do
    if block = 0 then return 0
    else
      let ino ← blockFindIno name device block
      if ino ≠ 0 then return ino else findInBlocks name device blocks

def dirFindIno (dir : Inode) (name : List UInt8) (device : UInt8) : P Nat :=
  findInBlocks name device ((List.range directBlockCount).map dir.iBlock)

/-- The loop of `namex`: `begin` is the rest of the path, which each round makes shorter. -/
def namexLoop (sb : SuperBlock) (device : UInt8) : Nat → List UInt8 → Nat → P Nat
  | 0, _, ino => return ino
  | fuel + 1, begin, ino => do
    let name := begin.takeWhile (· ≠ slash)
    let end_ := begin.dropWhile (· ≠ slash)
    if name = [] then return ino
    else
      let inode ← inodeGet sb device ino
      match inode with
      | none => return 0
      | some p =>
        if p.inode.iMode ≠ sIfdir then
          inodeRelease inode
          return 0
        else
          let ino ← dirFindIno p.inode name device
          inodeRelease inode
          if ino = 0 then return 0
          else namexLoop sb device fuel (if end_ = [] then end_ else end_.drop 1) ino

def namex (sb : SuperBlock) (name : List UInt8) (device : UInt8) (ino : Nat) : P Nat :=
  namexLoop sb device (name.length + 1) name ino

/-- The inode, and its number. -/
def namei (sb : SuperBlock) (name : List UInt8) (device : UInt8) : P (Option InodePtr × Nat) := do
  if name.head? = some slash then
    let ino ← namex sb (name.drop 1) device rootIno
    if ino ≠ 0 then
      let inode ← inodeGet sb device ino
      return (inode, ino)
    else return (none, ino)
  else return (none, 0)

/-! ### Files -/

def oRdonly : Int := 1
def oRdwr : Int := 4

/-- The loop of `read_file` over the block indices, with the bytes that are in the buffer; also what it
returns. -/
def readBlocks (device : UInt8) (inode : Inode) : List Nat → Nat → Nat → List UInt8 → P (Int × List UInt8)
  | [], _, _, buffer => return (buffer.length, buffer)
  | index :: indices, blockPos, size, buffer => do
    if 0 < size then
      match ← blockRead device (inode.iBlock index) with
      | none => return (-1, buffer)
      | some bio =>
        let bytes := min size (blockSize - blockPos)
        let data ← bioData bio
        blockRelease bio
        readBlocks device inode indices 0 (size - bytes)
          (buffer ++ (List.range bytes).map fun i => data (blockPos + i))
    else return (buffer.length, buffer)

/-- What the call returns, and the bytes that it writes to the buffer. -/
def readFile (device : UInt8) (inode : Inode) (pos size : Nat) : P (Int × List UInt8) := do
  let blockIndex := u32 (pos / blockSize)
  let blockPos := pos % blockSize
  if inode.iSize ≤ pos then return (0, [])
  else if directBlockCount ≤ blockIndex then return (-1, [])
  else
    let size := min size (inode.iSize - pos)
    readBlocks device inode (List.range' blockIndex (directBlockCount - blockIndex)) blockPos size []

/-- The file with the fields that the call sets, and what it returns. -/
def axOpen (file : File) : P (File × Int) :=
  match file.fInode, file.fPath with
  | some fInode, some fPath => do
    if file.fFlags ≠ oRdonly then return (file, -1)
    else
      let sb ← getSuperBlock fInode.iDevice
      let (inode, ino) ← namei sb fPath.text fInode.iDevice
      match inode with
      | none => return (file, -1)
      | some p =>
        if p.inode.iMode = sIfdir then
          inodeRelease inode
          return (file, -1)
        else return ({ file with fInode := some { fInode with iIno := ino, iPrivate := inode } }, 0)
  | _, _ => .stop .fault

def axClose (file : File) : P Int :=
  match file.fInode with
  | some fInode => do
    inodeRelease fInode.iPrivate
    return 0
  | none => .stop .fault

/-- The file, what the call returns, and the bytes that it writes to the buffer. -/
def axRead (file : File) (size : Nat) : P (File × Int × List UInt8) := do
  if file.fFlags = oRdonly ∨ file.fFlags = oRdwr then
    match file.fInode with
    | some ⟨_, device, _, some p⟩ =>
      let (read, buffer) ← readFile device p.inode file.fPos size
      return (if 0 < read then { file with fPos := (file.fPos + read.toNat) % 2 ^ 64 } else file, read, buffer)
    | _ => .stop .fault
  else return (file, -1, [])

end Airix.Axfs
