import Airix.Axfs.Layout
import Mathlib.Logic.Function.Basic

/-!
# The image builder (`tools/mkfs.c`)

The program works on the image file and on the super block it keeps in memory; a call that does not
return (the program exits, divides by zero, or loops for ever) is an error. An `fseek` followed by an
`fread` or `fwrite` is one access at that offset. Offsets that the source computes in `uint32_t`, such
as `block * AX_FS_BLOCK_SIZE`, are cut to 32 bits.
-/

namespace Airix.Mkfs
open Axfs Bytes

/-- The image file: `byte` is 0 from its end on. -/
structure Img where
  byte : Nat → UInt8
  len : Nat

structure State where
  img : Img
  superBlock : SuperBlock

/-- Why a call does not return. -/
inductive Err
  | exit
  | divByZero
  | hang
deriving DecidableEq

abbrev M := StateT State (Except Err)

/-- The bytes from offset `off` on. -/
def fread (off : Nat) : M (Nat → UInt8) := do
  let s ← get
  return fun i => s.img.byte (off + i)

/-- The first `len` bytes of `f` written at offset `off`. -/
def fwrite (off len : Nat) (f : Nat → UInt8) : M Unit :=
  modify fun s => { s with img := ⟨put s.img.byte off len f, max s.img.len (off + len)⟩ }

/-- `block * AX_FS_BLOCK_SIZE`. -/
def blockOffset (block : Nat) : Nat := u32 (block * blockSize)

/-- `a - b` on `uint32_t`. -/
def u32Sub (a b : Nat) : Nat := u32 (a + (2 ^ 32 - b))

/-- `a - b` on `uint16_t`. -/
def u16Sub (a b : Nat) : Nat := (a + (2 ^ 16 - b)) % 2 ^ 16

def getSuper : M SuperBlock := do
  let s ← get
  return s.superBlock

/-! ### Block groups, inodes -/

/-- The offset of a block group's descriptor. -/
def descOffset (bgNo : Nat) : Nat := bgNo * BlockGroupDescriptor.size + (superBlockNo + 1) * blockSize

def getBlockGroupMetadata (bgNo : Nat) : M BlockGroupDescriptor := do
  let f ← fread (descOffset bgNo)
  return BlockGroupDescriptor.ofBytes f

def updateBlockGroupMetadata (bgNo : Nat) (desc : BlockGroupDescriptor) : M Unit :=
  fwrite (descOffset bgNo) BlockGroupDescriptor.size (ofWords desc.words)

/-- The first clear bit of a bitmap block, as the two nested loops over it find it. -/
def findClear (bitmap : Nat → UInt8) : Option Nat :=
  (List.range blockSize).findSome? fun i =>
    if bitmap i ≠ 0xFF then
      ((List.range 8).find? fun b => !(bitmap i).toNat.testBit (7 - b)).map (· + i * 8)
    else none

def allocInodeNoFromBlockGroup (bgNo : Nat) : M Nat := do
  let desc ← getBlockGroupMetadata bgNo
  if 0 < desc.bgFreeInodesCount then
    let bitmap ← fread (blockOffset desc.bgInodeBitmap)
    let sb ← getSuper
    match findClear bitmap with
    | some j => return u32 (j + bgNo * sb.sInodesPerGroup + 1)
    | none => return 0
  else return 0

/-- The number of block groups that an allocation tries: `count / per + (count % per) ? 1 : 0`, where
`+` binds tighter than `?:`. -/
def bgNum (count per : Nat) : Nat := if count / per + count % per ≠ 0 then 1 else 0

/-- The loop over the block groups of an allocation: the first number that is accepted. -/
def allocLoop (alloc : Nat → M Nat) (accept : Nat → Bool) : List Nat → M Nat
  | [] => throw .exit
  | i :: is => do
    let n ← alloc i
    if accept n then return n else allocLoop alloc accept is

def allocInodeNo : M Nat := do
  let sb ← getSuper
  if sb.sInodesPerGroup = 0 then throw .divByZero
  else allocLoop allocInodeNoFromBlockGroup (fun ino => ino ≠ 0) (List.range (bgNum sb.sInodesCount sb.sInodesPerGroup))

/-- Sets bit `j` of the bitmap in block `bitmap`: `update_inode_bitmap`, and the same lines of
`update_block_bitmap`. -/
def updateBitmap (bitmap j : Nat) : M Unit := do
  let off := u32 (bitmap * blockSize + j / 8)
  let bits ← fread off
  fwrite off 1 (fun _ => setBit (bits 0) j)

def updateInodeBitmap (inodeBitmap bgIno : Nat) : M Unit := updateBitmap inodeBitmap bgIno

/-- The descriptor of the inode's group, and the inode's offset. -/
def seekInode (ino : Nat) : M (BlockGroupDescriptor × Nat) := do
  let sb ← getSuper
  if sb.sInodesPerGroup = 0 then throw .divByZero
  else
    let bg := u32Sub ino 1 / sb.sInodesPerGroup
    let bgIno := u32Sub ino 1 % sb.sInodesPerGroup
    let desc ← getBlockGroupMetadata bg
    return (desc, bgIno * Inode.size + blockOffset desc.bgInodeTable)

def updateInode (ino : Nat) (inode : Inode) : M Unit := do
  let (_, off) ← seekInode ino
  fwrite off Inode.size (ofWords inode.words)

def writeInode (ino : Nat) (inode : Inode) : M Unit := do
  let (desc, off) ← seekInode ino
  let sb ← getSuper
  let bg := u32Sub ino 1 / sb.sInodesPerGroup
  let bgIno := u32Sub ino 1 % sb.sInodesPerGroup
  fwrite off Inode.size (ofWords inode.words)
  updateInodeBitmap desc.bgInodeBitmap bgIno
  updateBlockGroupMetadata bg { desc with bgFreeInodesCount := u16Sub desc.bgFreeInodesCount 1 }

def getInode (ino : Nat) : M Inode := do
  let (_, off) ← seekInode ino
  let f ← fread off
  return Inode.ofBytes f

/-! ### Blocks -/

def allocBlockFromBlockGroup (bgNo : Nat) : M Nat := do
  let desc ← getBlockGroupMetadata bgNo
  if 0 < desc.bgFreeBlocksCount then
    let bitmap ← fread (blockOffset desc.bgBlockBitmap)
    match findClear bitmap with
    | some j => return u32 (j + bgNo * blocksPerGroup + superBlockNo)
    | none => return 0
  else return 0

def allocBlock : M Nat := do
  let sb ← getSuper
  allocLoop allocBlockFromBlockGroup (fun block => 0 < block ∧ block < u32 (sb.sBlocksCount + superBlockNo))
    (List.range (bgNum sb.sBlocksCount blocksPerGroup))

def readBlockData (block : Nat) : M (Nat → UInt8) := fread (blockOffset block)

def updateBlockData (block : Nat) (data : Nat → UInt8) (len : Nat) : M Unit := fwrite (blockOffset block) len data

def updateBlockBitmap (block : Nat) : M Unit := do
  let bg := u32Sub block superBlockNo / blocksPerGroup
  let bgBno := u32Sub block superBlockNo % blocksPerGroup
  let desc ← getBlockGroupMetadata bg
  updateBitmap desc.bgBlockBitmap bgBno
  updateBlockGroupMetadata bg { desc with bgFreeBlocksCount := u16Sub desc.bgFreeBlocksCount 1 }

def writeSuperBlock : M Unit := do
  let sb ← getSuper
  fwrite (superBlockNo * blockSize) SuperBlock.size (ofWords sb.words)

def updateSuperBlock : M Unit := writeSuperBlock

/-- `super_block.s_free_blocks_count -= 1`. -/
def decFreeBlocks : M Unit :=
  modify fun s =>
    { s with superBlock := { s.superBlock with sFreeBlocksCount := u32Sub s.superBlock.sFreeBlocksCount 1 } }

/-- `super_block.s_free_inodes_count -= 1`. -/
def decFreeInodes : M Unit :=
  modify fun s =>
    { s with superBlock := { s.superBlock with sFreeInodesCount := u32Sub s.superBlock.sFreeInodesCount 1 } }

/-! ### Directory blocks -/

/-- `ALIGN_4`. -/
def align4 (size : Nat) : Nat := (size + 4) / 4 * 4

/-- `write_padding_entry` at offset `off`. -/
def writePaddingEntry (off padding : Nat) : M Unit :=
  if padding < DirectoryEntry.size then pure ()
  else fwrite off DirectoryEntry.size (ofWords (DirectoryEntry.words ⟨0, padding, 0, ftUnknown⟩))

def initDirBlock (block : Nat) : M Unit := writePaddingEntry (blockOffset block) blockSize

/-- The bytes of a directory entry: its fixed part, the name, zeros. -/
def entryBytes (entry : DirectoryEntry) (name : List UInt8) : Nat → UInt8 := fun i =>
  if i < DirectoryEntry.size then ofWords entry.words i
  else if i - DirectoryEntry.size < entry.nameLen then name.getD (i - DirectoryEntry.size) 0
  else 0

/-- `uint8_t name_len = strlen(name)`. -/
def nameLenOf (name : List UInt8) : Nat := name.length % 2 ^ 8

/-- The length of the record of a name. -/
def recLenOf (name : List UInt8) : Nat := align4 (DirectoryEntry.size + nameLenOf name)

/-- `write_dir_entry_here` at offset `off`. -/
def writeDirEntryHere (off : Nat) (name : List UInt8) (ft ino maxLen : Nat) : M Unit := do
  let recLen := recLenOf name
  if maxLen < recLen + DirectoryEntry.size then
    fwrite off recLen (entryBytes ⟨ino, maxLen, nameLenOf name, ft⟩ name)
  else
    fwrite off recLen (entryBytes ⟨ino, recLen, nameLenOf name, ft⟩ name)
    writePaddingEntry (off + recLen) (maxLen - recLen)

/-- The loop that looks for an unused entry of the block `m`: the last entry read, and its offset. A
`rec_len` of 0 keeps it from ending, any other value makes `block_size` smaller. -/
def seekUnknown (m : Nat → UInt8) : Nat → Nat → Nat → DirectoryEntry → Except Err (Nat × DirectoryEntry)
  | 0, _, _, _ => .error .hang
  | fuel + 1, blockSize, off, entry =>
    if 0 < blockSize then
      let entry := DirectoryEntry.ofBytes fun i => m (off + i)
      if entry.fileType = ftUnknown then .ok (off, entry)
      else seekUnknown m fuel (blockSize - entry.recLen) (off + entry.recLen) entry
    else .ok (off, entry)

def writeDirEntryToBlock (block : Nat) (name : List UInt8) (ft ino : Nat) : M Bool := do
  let m ← fread (blockOffset block)
  let (off, entry) ← seekUnknown m (blockSize + 1) blockSize 0 ⟨0, 0, 0, 0⟩
  if entry.fileType = ftUnknown ∧ recLenOf name ≤ entry.recLen then
    writeDirEntryHere (blockOffset block + off) name ft ino entry.recLen
    return true
  else return false

/-- The loop of `get_dir_entry_from_block`. -/
def seekName (m : Nat → UInt8) (name : List UInt8) : Nat → Nat → Nat → Except Err (Option DirectoryEntry)
  | 0, _, _ => .error .hang
  | fuel + 1, blockSize, off =>
    if 0 < blockSize then
      let entry := DirectoryEntry.ofBytes fun i => m (off + i)
      let offset := u16Sub entry.recLen DirectoryEntry.size
      let body := off + DirectoryEntry.size
      if entry.fileType ≠ ftUnknown ∧ entry.nameLen = nameLenOf name then
        if (List.range (nameLenOf name)).all fun i => name.getD i 0 == m (body + i) then .ok (some entry)
        else seekName m name fuel (blockSize - entry.recLen) (body + nameLenOf name + u16Sub offset (nameLenOf name))
      else seekName m name fuel (blockSize - entry.recLen) (body + offset)
    else .ok none

def getDirEntryFromBlock (name : List UInt8) (block : Nat) : M (Option DirectoryEntry) := do
  let m ← fread (blockOffset block)
  seekName m name (blockSize + 1) blockSize 0

/-- The entry found in the first of the blocks that has it; a 0 ends the list. -/
def getDirEntryFromPointers (entryGetter : Nat → M (Option DirectoryEntry)) :
    List Nat → M (Option DirectoryEntry)
  | [] => return none
  | p :: ps => do
    if p = 0 then return none
    else
      match ← entryGetter p with
      | some entry => return some entry
      | none => getDirEntryFromPointers entryGetter ps

def getDirEntryFromIndirectBlock (entryGetter : Nat → M (Option DirectoryEntry)) (block : Nat) :
    M (Option DirectoryEntry) := do
  let data ← readBlockData block
  getDirEntryFromPointers entryGetter ((List.range (blockSize / 4)).map (wordsOf data))

def getDirEntryFrom1IndirectBlock (name : List UInt8) : Nat → M (Option DirectoryEntry) :=
  getDirEntryFromIndirectBlock (getDirEntryFromBlock name)

def getDirEntryFrom2IndirectBlock (name : List UInt8) : Nat → M (Option DirectoryEntry) :=
  getDirEntryFromIndirectBlock (getDirEntryFrom1IndirectBlock name)

def getDirEntryFrom3IndirectBlock (name : List UInt8) : Nat → M (Option DirectoryEntry) :=
  getDirEntryFromIndirectBlock (getDirEntryFrom2IndirectBlock name)

/-- The loop of `get_entry_from_dir` over the direct blocks; `none` when it does not return from it. -/
def getEntryFromDirect (name : List UInt8) : List Nat → M (Option (Option DirectoryEntry))
  | [] => return none
  | p :: ps => do
    if p = 0 then return some none
    else
      match ← getDirEntryFromBlock name p with
      | some entry => return some (some entry)
      | none => getEntryFromDirect name ps

def getEntryFromIndirect (entryGetter : Nat → M (Option DirectoryEntry)) (p : Nat) : M (Option DirectoryEntry) :=
  if p ≠ 0 then entryGetter p else return none

def getEntryFromDir (ino : Nat) (name : List UInt8) : M (Option DirectoryEntry) := do
  let inode ← getInode ino
  if inode.iMode ≠ sIfdir then return none
  else
    match ← getEntryFromDirect name ((List.range directBlockCount).map inode.iBlock) with
    | some r => return r
    | none =>
      match ← getEntryFromIndirect (getDirEntryFrom1IndirectBlock name) (inode.iBlock oneIndirectBlockIndex) with
      | some entry => return some entry
      | none =>
        match ← getEntryFromIndirect (getDirEntryFrom2IndirectBlock name) (inode.iBlock twoIndirectBlockIndex) with
        | some entry => return some entry
        | none => getEntryFromIndirect (getDirEntryFrom3IndirectBlock name) (inode.iBlock threeIndirectBlockIndex)

/-! ### Adding a directory entry -/

/-- The array of block numbers that the `write_entry_to_*` functions are given: the block it is stored
in (`blocks_block`, 0 when it is a part of `i_block`), its first element's index in `i_block`, and its
length. -/
structure BlockArray where
  blocks : Nat → Nat
  num : Nat
  block : Nat
  index : Nat

/-- Stores block number `b` in the array's element `i`, in memory and on the image. -/
def storeBlock (ino : Nat) (inode : Inode) (a : BlockArray) (i b : Nat) : M (Inode × BlockArray) := do
  let a := { a with blocks := Function.update a.blocks i b }
  if a.block = 0 then
    let inode := inode.setBlock (a.index + i) b
    updateInode ino inode
    return (inode, a)
  else
    updateBlockData a.block (ofWords a.blocks) (4 * a.num)
    return (inode, a)

/-- The branch of the `write_entry_to_*` functions for an element that is 0. -/
def growBlocks (initBlock : Nat → M Unit) (ino : Nat) (inode : Inode) (a : BlockArray) (i : Nat) :
    M (Inode × BlockArray) := do
  let b ← allocBlock
  initBlock b
  let r ← storeBlock ino inode a i b
  updateBlockBitmap b
  decFreeBlocks
  updateSuperBlock
  return r

/-- The loop of the `write_entry_to_*` functions over the elements of the array. -/
def writeEntryLoop (initBlock : Nat → M Unit) (visit : Nat → Inode → M (Bool × Inode)) (ino : Nat) :
    List Nat → Inode → BlockArray → M (Bool × Inode)
  | [], inode, _ => return (false, inode)
  | i :: is, inode, a => do
    let (inode, a) ← if a.blocks i = 0 then growBlocks initBlock ino inode a i else pure (inode, a)
    let (done, inode) ← visit (a.blocks i) inode
    if done then return (true, inode) else writeEntryLoop initBlock visit ino is inode a

/-- What `write_entry_to_blocks` does with a directory block. -/
def writeEntryToBlock (name : List UInt8) (ft entryIno block : Nat) (inode : Inode) : M (Bool × Inode) := do
  if ← writeDirEntryToBlock block name ft entryIno then
    writeInode entryIno { iMode := if ft = ftDir then sIfdir else sIfreg }
    decFreeInodes
    updateSuperBlock
    return (true, inode)
  else return (false, inode)

def writeEntryToBlocks (ino : Nat) (name : List UInt8) (ft entryIno : Nat) (inode : Inode) (a : BlockArray) :
    M (Bool × Inode) :=
  writeEntryLoop initDirBlock (writeEntryToBlock name ft entryIno) ino (List.range a.num) inode a

def writeEntryToIndirectBlocks (entryWritter : Inode → BlockArray → M (Bool × Inode)) (ino : Nat) (inode : Inode)
    (a : BlockArray) : M (Bool × Inode) :=
  writeEntryLoop (fun _ => pure ()) (fun b inode => do
    let data ← readBlockData b
    entryWritter inode ⟨wordsOf data, blockSize / 4, b, 0⟩) ino (List.range a.num) inode a

def writeEntryTo1IndirectBlocks (ino : Nat) (name : List UInt8) (ft entryIno : Nat) :
    Inode → BlockArray → M (Bool × Inode) :=
  writeEntryToIndirectBlocks (writeEntryToBlocks ino name ft entryIno) ino

def writeEntryTo2IndirectBlocks (ino : Nat) (name : List UInt8) (ft entryIno : Nat) :
    Inode → BlockArray → M (Bool × Inode) :=
  writeEntryToIndirectBlocks (writeEntryTo1IndirectBlocks ino name ft entryIno) ino

def writeEntryTo3IndirectBlocks (ino : Nat) (name : List UInt8) (ft entryIno : Nat) :
    Inode → BlockArray → M (Bool × Inode) :=
  writeEntryToIndirectBlocks (writeEntryTo2IndirectBlocks ino name ft entryIno) ino

/-- The part of `i_block` from `index` on, as an array of `num` elements. -/
def inodeArray (inode : Inode) (index num : Nat) : BlockArray := ⟨fun i => inode.iBlock (index + i), num, 0, index⟩

def writeEntryToDir (ino : Nat) (name : List UInt8) (ft : Nat) : M Nat := do
  let inode ← getInode ino
  if inode.iMode ≠ sIfdir then return 0
  else
    let entryIno ← allocInodeNo
    let (done, inode) ← writeEntryToBlocks ino name ft entryIno inode (inodeArray inode 0 directBlockCount)
    if done then return entryIno
    else
      let (done, inode) ← writeEntryTo1IndirectBlocks ino name ft entryIno inode
        (inodeArray inode oneIndirectBlockIndex 1)
      if done then return entryIno
      else
        let (done, inode) ← writeEntryTo2IndirectBlocks ino name ft entryIno inode
          (inodeArray inode twoIndirectBlockIndex 1)
        if done then return entryIno
        else
          let (done, _) ← writeEntryTo3IndirectBlocks ino name ft entryIno inode
            (inodeArray inode threeIndirectBlockIndex 1)
          if done then return entryIno else return 0

/-! ### Writing a file -/

/-- The C string at index `i` of a buffer. -/
def cString (buf : List UInt8) (i : Nat) : List UInt8 := (buf.drop i).takeWhile (· ≠ 0)

def slash : UInt8 := 47

/-- `while (*sep && *sep != '/') ++sep`. -/
def skipName (buf : List UInt8) (sep : Nat) : Nat := sep + ((buf.drop sep).takeWhile fun c => c ≠ 0 ∧ c ≠ slash).length

/-- The loop of `create_file_inode` on the destination's buffer, with the indices of `name` and `sep`. -/
def createFileLoop (last : Nat) : Nat → List UInt8 → Nat → Nat → Nat → M Nat
  | 0, _, _, _, _ => throw .hang
  | fuel + 1, buf, name, sep, ino =>
    if name < last then do
      let sep := skipName buf sep
      let buf := buf.set sep 0
      let isDirName := decide (sep ≠ last)
      match ← getEntryFromDir ino (cString buf name) with
      | some entry =>
        if ¬ isDirName then return 0
        else if entry.fileType ≠ ftDir then return 0
        else createFileLoop last fuel buf (if isDirName then sep + 1 else sep) sep entry.inode
      | none =>
        let ino ← writeEntryToDir ino (cString buf name) (if isDirName then ftDir else ftRegFile)
        if ino = 0 then return 0
        else createFileLoop last fuel buf (if isDirName then sep + 1 else sep) sep ino
    else return ino

/-- The inode number of the file that `dst` names, created, or 0; the fuel bounds the rounds of the
loop. -/
def createFileInode (fuel : Nat) (dst : List UInt8) : M (Nat × Inode) := do
  let ino ← createFileLoop dst.length fuel (dst ++ [0]) 1 1 rootIno
  if ino = 0 then return (0, {})
  else
    let inode ← getInode ino
    return (ino, inode)

def allocIndirectBlock (indirect : Nat → Nat) (index : Nat) : M (Nat → Nat) := do
  let b ← allocBlock
  updateBlockData b (ofWords fun _ => 0) blockSize
  updateBlockBitmap b
  decFreeBlocks
  return Function.update indirect index b

/-- One round of `write_data_into_blocks`: the next block of the file's remaining bytes `rest` goes to
a new block. (`*size` is the number of bytes that remain.) -/
def writeDataBlock (blocks : Nat → Nat) (i : Nat) (rest : List UInt8) : M ((Nat → Nat) × List UInt8) := do
  let data := rest.take blockSize
  let b ← allocBlock
  updateBlockData b (fun i => data.getD i 0) data.length
  updateBlockBitmap b
  decFreeBlocks
  return (Function.update blocks i b, rest.drop blockSize)

/-- The loop over the elements of an array of blocks while bytes remain. -/
def fillBlocks (write : (Nat → Nat) → Nat → List UInt8 → M ((Nat → Nat) × List UInt8)) :
    List Nat → (Nat → Nat) → List UInt8 → M ((Nat → Nat) × List UInt8)
  | [], blocks, rest => return (blocks, rest)
  | i :: is, blocks, rest => do
    if rest = [] then return (blocks, rest)
    else
      let (blocks, rest) ← write blocks i rest
      fillBlocks write is blocks rest

def writeDataIntoBlocks (blocks : Nat → Nat) (blocksLen : Nat) (rest : List UInt8) :
    M ((Nat → Nat) × List UInt8) :=
  fillBlocks writeDataBlock (List.range blocksLen) blocks rest

/-- The three `write_data_into_*_indirect_blocks`, which differ in what they write below the indirect
block. -/
def writeDataIntoIndirectBlocks (write : (Nat → Nat) → Nat → List UInt8 → M ((Nat → Nat) × List UInt8))
    (indirect : Nat → Nat) (index : Nat) (rest : List UInt8) : M ((Nat → Nat) × List UInt8) := do
  let indirect ← allocIndirectBlock indirect index
  let (blocks, rest) ← fillBlocks write (List.range (blockSize / 4)) (fun _ => 0) rest
  updateBlockData (indirect index) (ofWords blocks) blockSize
  return (indirect, rest)

def writeDataInto1IndirectBlocks := writeDataIntoIndirectBlocks writeDataBlock
def writeDataInto2IndirectBlocks := writeDataIntoIndirectBlocks writeDataInto1IndirectBlocks
def writeDataInto3IndirectBlocks := writeDataIntoIndirectBlocks writeDataInto2IndirectBlocks

/-- `if (data_blocks >= indirect) data_blocks -= indirect; else data_blocks = 0`. -/
def lessIndirect (indirect dataBlocks : Nat) : Nat := if indirect ≤ dataBlocks then dataBlocks - indirect else 0

/-- `n` rounds of a loop over `(meta_blocks, data_blocks)` that stops when no data block is left. -/
def countLoop (step : Nat × Nat → Nat × Nat) : Nat → Nat × Nat → Nat × Nat
  | 0, c => c
  | n + 1, c => if 0 < c.2 then countLoop step n (step c) else c

def hasEnoughSpace (sb : SuperBlock) (size : Nat) : Bool :=
  let indirect := blockSize % 4
  let dataBlocks := u32 (u32 (size / blockSize) + if size % blockSize ≠ 0 then 1 else 0)
  let one : Nat × Nat → Nat × Nat := fun c => (c.1 + 1, lessIndirect indirect c.2)
  let rest := if directBlockCount ≤ dataBlocks then dataBlocks - directBlockCount else dataBlocks
  let c := if 0 < rest then one (0, rest) else (0, rest)
  let c := if 0 < c.2 then countLoop one indirect (c.1 + 1, c.2) else c
  let c := if 0 < c.2 then countLoop (fun c => countLoop one indirect (c.1 + 1, c.2)) indirect (c.1 + 1, c.2) else c
  decide (u32 (dataBlocks + c.1) ≤ sb.sFreeBlocksCount)

/-- Writes into the indirect blocks while bytes remain: the three `if (size > 0)` of `write_file`. -/
def writeIndirect (write : (Nat → Nat) → Nat → List UInt8 → M ((Nat → Nat) × List UInt8)) (index : Nat)
    (r : (Nat → Nat) × List UInt8) : M ((Nat → Nat) × List UInt8) :=
  if r.2 = [] then return r else write r.1 index r.2

def writeFile (fuel : Nat) (sfile : List UInt8) (dst : List UInt8) : M Bool := do
  let (ino, inode) ← createFileInode fuel dst
  if ino = 0 then return false
  else
    let sb ← getSuper
    if hasEnoughSpace sb sfile.length then
      let r ← writeDataIntoBlocks inode.iBlock directBlockCount sfile
      let r ← writeIndirect writeDataInto1IndirectBlocks oneIndirectBlockIndex r
      let r ← writeIndirect writeDataInto2IndirectBlocks twoIndirectBlockIndex r
      let r ← writeIndirect writeDataInto3IndirectBlocks threeIndirectBlockIndex r
      updateInode ino { inode with iSize := sfile.length % 2 ^ 64, iBlock := r.1 }
      updateSuperBlock
      return true
    else return false

/-! ### Making the image -/

def writeRootDir : M Unit := do
  let block ← allocBlock
  initDirBlock block
  let _ ← writeDirEntryToBlock block [46] ftDir rootIno
  let _ ← writeDirEntryToBlock block [46, 46] ftDir rootIno
  writeInode rootIno { iMode := sIfdir, iSize := blockSize, iBlock := Function.update (fun _ => 0) 0 block }
  updateBlockBitmap block
  decFreeBlocks
  decFreeInodes
  updateSuperBlock

/-- The bytes of a bitmap whose first `used` bits are set. -/
def usedBits (used : Nat) : Nat → UInt8 := fun i =>
  if i < used / 8 then 0xFF else UInt8.ofNat (0xFF <<< (8 - used % 8))

def makeBlockGroupMetadata (bgNo usedBlocks : Nat) (desc : BlockGroupDescriptor) : M Unit := do
  fwrite (descOffset bgNo) BlockGroupDescriptor.size (ofWords desc.words)
  fwrite (blockOffset desc.bgBlockBitmap) (usedBlocks / 8 + 1) (usedBits usedBlocks)
  modify fun s => { s with superBlock := { s.superBlock with
    sFreeInodesCount := u32 (s.superBlock.sFreeInodesCount + desc.bgFreeInodesCount)
    sFreeBlocksCount := u32 (s.superBlock.sFreeBlocksCount + desc.bgFreeBlocksCount) } }

/-- `make_blocks`: one zero byte, `count` blocks after the end. -/
def makeBlocks (count : Nat) : M Unit := do
  let s ← get
  fwrite (s.img.len + count * blockSize - 1) 1 (fun _ => 0)

/-- The number of blocks that hold `size` bytes. -/
def blocksOf (size : Nat) : Nat := size / blockSize + if size % blockSize ≠ 0 then 1 else 0

def makeFirstBlockGroup (blockGroups inodesPerGroup blocks : Nat) : M Unit := do
  let bgTableBlocks := blocksOf (u32 (blockGroups * BlockGroupDescriptor.size))
  let inodesTableBlocks := blocksOf (u32 (inodesPerGroup * Inode.size))
  let usedBlocks := u32 (1 + bgTableBlocks + 1 + 1 + inodesTableBlocks)
  if blocks ≤ usedBlocks then throw .exit
  else
    makeBlocks 1
    makeBlocks bgTableBlocks
    makeBlocks 1
    makeBlocks 1
    makeBlocks inodesTableBlocks
    makeBlocks (blocks - usedBlocks)
    let bitmap := u32 (superBlockNo + 1 + bgTableBlocks)
    makeBlockGroupMetadata 0 usedBlocks
      ⟨bitmap, u32 (bitmap + 1), u32 (bitmap + 2), (blocks - usedBlocks) % 2 ^ 16, inodesPerGroup % 2 ^ 16⟩

def makeBlockGroup (startBlock blockGroupNo inodesPerGroup blocks : Nat) : M Unit := do
  let inodesTableBlocks := blocksOf (u32 (inodesPerGroup * Inode.size))
  let usedBlocks := u32 (1 + 1 + inodesTableBlocks)
  if blocks ≤ usedBlocks then throw .exit
  else
    makeBlocks 1
    makeBlocks 1
    makeBlocks inodesTableBlocks
    makeBlocks (blocks - usedBlocks)
    makeBlockGroupMetadata blockGroupNo usedBlocks
      ⟨startBlock, u32 (startBlock + 1), u32 (startBlock + 2), (blocks - usedBlocks) % 2 ^ 16, inodesPerGroup % 2 ^ 16⟩

/-- The loop of `mkfs` over the block groups, with the blocks that remain and the next group's start. -/
def makeBlockGroups (blockGroups inodesPerGroup : Nat) : List Nat → Nat → Nat → M Unit
  | [], _, _ => return
  | i :: is, blockNum, startBlock => do
    let blocks := if blocksPerGroup < blockNum then blocksPerGroup else blockNum
    if i = 0 then makeFirstBlockGroup blockGroups inodesPerGroup blocks
    else makeBlockGroup startBlock i inodesPerGroup blocks
    makeBlockGroups blockGroups inodesPerGroup is (blockNum - blocks) (u32 (startBlock + blocks))

def mkfs (blockNum inodesPerGroup : Nat) : M Unit := do
  let blockNum := u32Sub blockNum 1
  let blockGroups := blockNum / blocksPerGroup + if blockNum % blocksPerGroup ≠ 0 then 1 else 0
  if blockGroups < 1 then throw .exit
  else
    modify fun s => { img := ⟨fun _ => 0, 0⟩, superBlock := { s.superBlock with
      sInodesCount := u32 (inodesPerGroup * blockGroups), sBlocksCount := blockNum, sInodesPerGroup := inodesPerGroup } }
    makeBlocks 1
    makeBlockGroups blockGroups inodesPerGroup (List.range blockGroups) blockNum superBlockNo
    writeSuperBlock
    writeRootDir

/-- The program's state before `mkfs`. -/
def State.start : State := ⟨⟨fun _ => 0, 0⟩, ⟨0, 0, 0, 0, 0⟩⟩

/-- `get_super_block`, which `cpfs` calls before it copies files. -/
def getSuperBlock : M Unit := do
  let f ← fread (superBlockNo * blockSize)
  modify fun s => { s with superBlock := SuperBlock.ofBytes f }

end Airix.Mkfs
