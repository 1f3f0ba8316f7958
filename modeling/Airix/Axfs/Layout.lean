import Airix.Base
import Airix.Lib.Bytes

/-!
# The file system's structures (`fs/axfs.h`)

The constants and the C structures of the on-disk format, with the bytes they are laid out as. A
field is a `Nat` below the bound of its C type (`Valid`); writing a structure and reading it back
gives it again.
-/

namespace Airix.Axfs
open Bytes

def rootIno : Nat := 1
def superBlockNo : Nat := 1
def directBlockCount : Nat := 21
def oneIndirectBlockIndex : Nat := 21
def twoIndirectBlockIndex : Nat := 22
def threeIndirectBlockIndex : Nat := 23
def blockSize : Nat := 1024
def blocksPerGroup : Nat := 8 * blockSize

/-- The words of a structure read from the bytes `f`. -/
def wordsOf (f : Nat → UInt8) : Nat → Nat := fun k => word f (4 * k)

theorem wordsOf_ofWords {w : Nat → Nat} {k : Nat} : wordsOf (ofWords w) k = w k % 2 ^ 32 := word_ofWords

theorem wordsOf_congr {f f' : Nat → UInt8} {n k : Nat} (h : ∀ i < 4 * n, f' i = f i) (hk : k < n) :
    wordsOf f' k = wordsOf f k := word_congr fun i hi => h _ (by omega)

/-! ### `struct ax_super_block` -/

structure SuperBlock where
  sInodesCount : Nat
  sBlocksCount : Nat
  sFreeInodesCount : Nat
  sFreeBlocksCount : Nat
  sInodesPerGroup : Nat
deriving DecidableEq

namespace SuperBlock

def words (sb : SuperBlock) : Nat → Nat
  | 0 => sb.sInodesCount
  | 1 => sb.sBlocksCount
  | 2 => sb.sFreeInodesCount
  | 3 => sb.sFreeBlocksCount
  | 4 => sb.sInodesPerGroup
  | _ => 0

def ofBytes (f : Nat → UInt8) : SuperBlock :=
  let w := wordsOf f
  ⟨w 0, w 1, w 2, w 3, w 4⟩

/-- `sizeof(struct ax_super_block)`. -/
def size : Nat := 20

structure Valid (sb : SuperBlock) : Prop where
  inodesCount : sb.sInodesCount < 2 ^ 32
  blocksCount : sb.sBlocksCount < 2 ^ 32
  freeInodesCount : sb.sFreeInodesCount < 2 ^ 32
  freeBlocksCount : sb.sFreeBlocksCount < 2 ^ 32
  inodesPerGroup : sb.sInodesPerGroup < 2 ^ 32

theorem ofBytes_words {sb : SuperBlock} (h : sb.Valid) : ofBytes (ofWords sb.words) = sb := by
  obtain ⟨h₀, h₁, h₂, h₃, h₄⟩ := h
  simp only [ofBytes, wordsOf_ofWords, words, Nat.mod_eq_of_lt h₀, Nat.mod_eq_of_lt h₁, Nat.mod_eq_of_lt h₂,
    Nat.mod_eq_of_lt h₃, Nat.mod_eq_of_lt h₄]

theorem ofBytes_congr {f f' : Nat → UInt8} (h : ∀ i < size, f' i = f i) : ofBytes f' = ofBytes f := by
  have hw : ∀ k < 5, wordsOf f' k = wordsOf f k := fun k hk => wordsOf_congr (n := 5) h hk
  simp only [ofBytes, hw _ (by omega : 0 < 5), hw _ (by omega : 1 < 5), hw _ (by omega : 2 < 5),
    hw _ (by omega : 3 < 5), hw _ (by omega : 4 < 5)]

end SuperBlock

/-! ### `struct ax_block_group_descriptor` -/

structure BlockGroupDescriptor where
  bgBlockBitmap : Nat
  bgInodeBitmap : Nat
  bgInodeTable : Nat
  bgFreeBlocksCount : Nat
  bgFreeInodesCount : Nat
deriving DecidableEq

namespace BlockGroupDescriptor

def words (desc : BlockGroupDescriptor) : Nat → Nat
  | 0 => desc.bgBlockBitmap
  | 1 => desc.bgInodeBitmap
  | 2 => desc.bgInodeTable
  | 3 => desc.bgFreeBlocksCount % 2 ^ 16 + 2 ^ 16 * (desc.bgFreeInodesCount % 2 ^ 16)
  | _ => 0

def ofBytes (f : Nat → UInt8) : BlockGroupDescriptor :=
  let w := wordsOf f
  ⟨w 0, w 1, w 2, w 3 % 2 ^ 16, w 3 / 2 ^ 16⟩

/-- `sizeof(struct ax_block_group_descriptor)`. -/
def size : Nat := 16

structure Valid (desc : BlockGroupDescriptor) : Prop where
  blockBitmap : desc.bgBlockBitmap < 2 ^ 32
  inodeBitmap : desc.bgInodeBitmap < 2 ^ 32
  inodeTable : desc.bgInodeTable < 2 ^ 32
  freeBlocksCount : desc.bgFreeBlocksCount < 2 ^ 16
  freeInodesCount : desc.bgFreeInodesCount < 2 ^ 16

theorem ofBytes_words {desc : BlockGroupDescriptor} (h : desc.Valid) : ofBytes (ofWords desc.words) = desc := by
  obtain ⟨bb, ib, it, fb, fi⟩ := desc
  obtain ⟨h₀, h₁, h₂, h₃, h₄⟩ := h
  simp only at h₀ h₁ h₂ h₃ h₄
  simp only [ofBytes, wordsOf_ofWords, words, mk.injEq]
  omega

theorem ofBytes_congr {f f' : Nat → UInt8} (h : ∀ i < size, f' i = f i) : ofBytes f' = ofBytes f := by
  have hw : ∀ k < 4, wordsOf f' k = wordsOf f k := fun k hk => wordsOf_congr (n := 4) h hk
  simp only [ofBytes, hw _ (by omega : 0 < 4), hw _ (by omega : 1 < 4), hw _ (by omega : 2 < 4),
    hw _ (by omega : 3 < 4)]

end BlockGroupDescriptor

/-! ### `struct ax_inode` -/

/-- `AX_S_IFREG`. -/
def sIfreg : Nat := 0x8000

/-- `AX_S_IFDIR`. -/
def sIfdir : Nat := 0x4000

/-- An inode; `iBlock` is the array `i_block[24]`, 0 from its end on. -/
@[ext]
structure Inode where
  iMode : Nat := 0
  iUid : Nat := 0
  iAtime : Nat := 0
  iCtime : Nat := 0
  iMtime : Nat := 0
  iDtime : Nat := 0
  iGid : Nat := 0
  iLinksCount : Nat := 0
  iSize : Nat := 0
  iBlock : Nat → Nat := fun _ => 0

namespace Inode

def words (inode : Inode) : Nat → Nat
  | 0 => inode.iMode % 2 ^ 16 + 2 ^ 16 * (inode.iUid % 2 ^ 16)
  | 1 => inode.iAtime
  | 2 => inode.iCtime
  | 3 => inode.iMtime
  | 4 => inode.iDtime
  | 5 => inode.iGid % 2 ^ 16 + 2 ^ 16 * (inode.iLinksCount % 2 ^ 16)
  | 6 => inode.iSize
  | 7 => inode.iSize / 2 ^ 32
  | k + 8 => inode.iBlock k

def ofBytes (f : Nat → UInt8) : Inode :=
  let w := wordsOf f
  { iMode := w 0 % 2 ^ 16
    iUid := w 0 / 2 ^ 16
    iAtime := w 1
    iCtime := w 2
    iMtime := w 3
    iDtime := w 4
    iGid := w 5 % 2 ^ 16
    iLinksCount := w 5 / 2 ^ 16
    iSize := w 6 + 2 ^ 32 * w 7
    iBlock := fun k => if k < 24 then w (k + 8) else 0 }

/-- `sizeof(struct ax_inode)`. -/
def size : Nat := 128

structure Valid (inode : Inode) : Prop where
  mode : inode.iMode < 2 ^ 16
  uid : inode.iUid < 2 ^ 16
  atime : inode.iAtime < 2 ^ 32
  ctime : inode.iCtime < 2 ^ 32
  mtime : inode.iMtime < 2 ^ 32
  dtime : inode.iDtime < 2 ^ 32
  gid : inode.iGid < 2 ^ 16
  linksCount : inode.iLinksCount < 2 ^ 16
  size : inode.iSize < 2 ^ 64
  block : ∀ k, inode.iBlock k < 2 ^ 32
  block_end : ∀ k, 24 ≤ k → inode.iBlock k = 0

theorem ofBytes_words {inode : Inode} (h : inode.Valid) : ofBytes (ofWords inode.words) = inode := by
  obtain ⟨h₀, h₁, h₂, h₃, h₄, h₅, h₆, h₇, h₈, h₉, hend⟩ := h
  refine Inode.ext ?_ ?_ ?_ ?_ ?_ ?_ ?_ ?_ ?_ (funext fun k => ?_) <;> simp only [ofBytes, wordsOf_ofWords, words]
  case refine_10 =>
    split
    · exact Nat.mod_eq_of_lt (h₉ k)
    · exact (hend k (by omega)).symm
  all_goals omega

theorem ofBytes_congr {f f' : Nat → UInt8} (h : ∀ i < size, f' i = f i) : ofBytes f' = ofBytes f := by
  have hw : ∀ k < 32, wordsOf f' k = wordsOf f k := fun k hk => wordsOf_congr (n := 32) h hk
  refine Inode.ext ?_ ?_ ?_ ?_ ?_ ?_ ?_ ?_ ?_ (funext fun k => ?_) <;> simp only [ofBytes]
  case refine_9 => rw [hw _ (by omega : 6 < 32), hw _ (by omega : 7 < 32)]
  case refine_10 =>
    split
    · exact hw _ (by omega)
    · rfl
  all_goals rw [hw _ (by omega)]

theorem ofBytes_valid (f : Nat → UInt8) : (ofBytes f).Valid := by
  have hw : ∀ k, wordsOf f k < 2 ^ 32 := fun k => word_lt
  have h₀ := hw 0
  have h₅ := hw 5
  have h₆ := hw 6
  have h₇ := hw 7
  refine ⟨?_, ?_, hw 1, hw 2, hw 3, hw 4, ?_, ?_, ?_, fun k => ?_, fun k hk => if_neg (by omega)⟩ <;>
    simp only [ofBytes]
  case refine_6 =>
    split
    · exact hw _
    · omega
  all_goals omega

/-- `inode->i_block[j] = b`. -/
def setBlock (inode : Inode) (j b : Nat) : Inode := { inode with iBlock := Function.update inode.iBlock j b }

@[simp] theorem setBlock_self (inode : Inode) (j b : Nat) : (inode.setBlock j b).iBlock j = b :=
  Function.update_self _ _ _

theorem setBlock_ne (inode : Inode) {i j : Nat} (b : Nat) (h : i ≠ j) : (inode.setBlock j b).iBlock i = inode.iBlock i :=
  Function.update_of_ne h _ _

theorem Valid.setBlock {inode : Inode} (h : inode.Valid) {j b : Nat} (hj : j < 24) (hb : b < 2 ^ 32) :
    (inode.setBlock j b).Valid := by
  refine { h with block := fun k => ?_, block_end := fun k hk => ?_ }
  · show Function.update inode.iBlock j b k < 2 ^ 32
    rw [Function.update_apply]
    split
    · exact hb
    · exact h.block k
  · show Function.update inode.iBlock j b k = 0
    rw [Function.update_of_ne (by omega)]
    exact h.block_end k hk

end Inode

/-! ### `struct ax_directory_entry` -/

def ftUnknown : Nat := 0
def ftRegFile : Nat := 1
def ftDir : Nat := 2

/-- The fixed part of a directory entry; the name follows it. -/
structure DirectoryEntry where
  inode : Nat
  recLen : Nat
  nameLen : Nat
  fileType : Nat
deriving DecidableEq

namespace DirectoryEntry

def words (entry : DirectoryEntry) : Nat → Nat
  | 0 => entry.inode
  | 1 => entry.recLen % 2 ^ 16 + 2 ^ 16 * (entry.nameLen % 2 ^ 8) + 2 ^ 24 * (entry.fileType % 2 ^ 8)
  | _ => 0

def ofBytes (f : Nat → UInt8) : DirectoryEntry :=
  let w := wordsOf f
  ⟨w 0, w 1 % 2 ^ 16, w 1 / 2 ^ 16 % 2 ^ 8, w 1 / 2 ^ 24⟩

/-- `sizeof(struct ax_directory_entry)`. -/
def size : Nat := 8

structure Valid (entry : DirectoryEntry) : Prop where
  inode : entry.inode < 2 ^ 32
  recLen : entry.recLen < 2 ^ 16
  nameLen : entry.nameLen < 2 ^ 8
  fileType : entry.fileType < 2 ^ 8

theorem ofBytes_words {entry : DirectoryEntry} (h : entry.Valid) : ofBytes (ofWords entry.words) = entry := by
  obtain ⟨ino, rl, nl, ft⟩ := entry
  obtain ⟨h₀, h₁, h₂, h₃⟩ := h
  simp only at h₀ h₁ h₂ h₃
  simp only [ofBytes, wordsOf_ofWords, words, mk.injEq]
  omega

theorem ofBytes_congr {f f' : Nat → UInt8} (h : ∀ i < size, f' i = f i) : ofBytes f' = ofBytes f := by
  have hw : ∀ k < 2, wordsOf f' k = wordsOf f k := fun k hk => wordsOf_congr (n := 2) h hk
  simp only [ofBytes, hw _ (by omega : 0 < 2), hw _ (by omega : 1 < 2)]

end DirectoryEntry

end Airix.Axfs
