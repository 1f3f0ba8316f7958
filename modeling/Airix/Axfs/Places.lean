import Airix.Axfs.Tree
import Airix.Bio.Keys
import Airix.Mkfs.Prims

/-!
# Where the kernel and the image builder look for metadata

The kernel copies a structure out of a bio: `bio_get` with the structure's sector, then the bytes from some
offset on behind `bio_data`. The image builder seeks to one offset in the image. `Copy.start` is the place on the
disk that the kernel's way comes to; for descriptors and inodes the two agree.
-/

namespace Airix.Axfs
open Bytes Prog

variable {s : Mkfs.State} {device : UInt8} {sector : UInt64} {bg table index ino b k : Nat}

/-- `bio->iter` after `bio_get`. -/
def iterOf (sector : UInt64) : Nat := (sector - Bio.baseSector sector).toUInt8.toNat

/-- Bytes copied out of a bio: the sector for `bio_get`, and the bytes behind the pointer of `bio_data`. -/
structure Copy where
  sector : UInt64
  off : Nat
  len : Nat

namespace Copy
variable (c : Copy)

/-- Where the bytes are in the buffer of the bio. -/
def inBuffer : Nat := iterOf c.sector * sectorSize + c.off

/-- Where they are on the disk. -/
def start : Nat := (Bio.baseSector c.sector).toNat * sectorSize + c.inBuffer

/-- They end in the buffer. -/
def Fits : Prop := c.inBuffer + c.len ≤ 4096

/-- The program that makes the copy; the memory that it returns is that of the first byte. -/
def read (device : UInt8) : P (Nat → UInt8) := do
  let bio ← bioGet device c.sector
  let _ ← bioRead bio
  let data ← bioData bio
  bioRelease bio
  return advance data c.off

end Copy

/-- What `get_bg_inode_table` reads. -/
def descCopy (bg : Nat) : Copy :=
  let offset := u32 (BlockGroupDescriptor.size * bg)
  ⟨sectorNo (offset / blockSize + superBlockNo + 1) + UInt64.ofNat (offset % blockSize / sectorSize), offset % sectorSize,
    BlockGroupDescriptor.size⟩

/-- What `inode_read` copies. -/
def inodeCopy (table index : Nat) : Copy :=
  let offset := u32 (Inode.size * index)
  ⟨sectorNo (u32 (table + offset / blockSize)) + UInt64.ofNat (offset % blockSize / sectorSize),
    offset % blockSize % sectorSize, Inode.size⟩

theorem getBgInodeTable_eq : getBgInodeTable device bg = do
    let f ← (descCopy bg).read device
    return (BlockGroupDescriptor.ofBytes f).bgInodeTable := rfl

theorem inodeRead_eq : inodeRead device bg index = do
    let table ← getBgInodeTable device bg
    let f ← (inodeCopy table index).read device
    return Inode.ofBytes f := rfl

/-! ### The bio -/

theorem toNat_baseSector : (Bio.baseSector sector).toNat = sector.toNat / 8 * 8 := by
  have hlt := sector.toNat_lt
  rw [Bio.baseSector, UInt64.toNat_mul, UInt64.toNat_div]
  show sector.toNat / 8 * 8 % 2 ^ 64 = _
  omega

theorem iterOf_eq : iterOf sector = sector.toNat % 8 := by
  have hle : Bio.baseSector sector ≤ sector := by
    rw [UInt64.le_iff_toNat_le, toNat_baseSector]
    omega
  rw [iterOf, UInt64.toNat_toUInt8, UInt64.toNat_sub_of_le _ _ hle, toNat_baseSector]
  omega

theorem Copy.start_eq {c : Copy} : c.start = c.sector.toNat * 512 + c.off := by
  rw [Copy.start, Copy.inBuffer, toNat_baseSector, iterOf_eq, sectorSize]
  omega

theorem Copy.fits_iff {c : Copy} : c.Fits ↔ c.sector.toNat % 8 * 512 + c.off + c.len ≤ 4096 := by
  rw [Copy.Fits, Copy.inBuffer, iterOf_eq, sectorSize]

/-- What `bio_data` returns after `bio_get` has taken a bio that has the sector's base. -/
theorem bioData_takeBio {t : Bio.State} {p : Nat} (hb : (t.bios b).sector = Bio.baseSector sector) :
    Bio.bioData (Bio.takeBio t p b sector) b = some ((t.bios b).buffer + iterOf sector * sectorSize) := by
  have hbio : (Bio.takeBio t p b sector).bios b =
      { t.bios b with iter := (sector - Bio.baseSector sector).toUInt8, reffed := true } := by
    rw [← hb]
    simp [Bio.takeBio, Bio.State.setBio, Bio.State.setProc]
  have hlt : (sector - Bio.baseSector sector).toUInt8 < 8 := by
    rw [UInt8.lt_iff_toNat_lt]
    have : iterOf sector = sector.toNat % 8 := iterOf_eq
    rw [iterOf] at this
    rw [this]
    exact Nat.mod_lt _ (by decide)
  rw [Bio.bioData, hbio, if_pos hlt]
  rfl

/-! ### The two sides -/

/-- A descriptor that lies in an image below 4 GiB. -/
theorem descCopy_start (h : Mkfs.descOffset bg + BlockGroupDescriptor.size ≤ k) (hk : k < 2 ^ 32) :
    (descCopy bg).start = Mkfs.descOffset bg ∧ (descCopy bg).Fits := by
  rw [Mkfs.descOffset_eq] at h ⊢
  have hsize : BlockGroupDescriptor.size = 16 := rfl
  rw [hsize] at h
  have hoff : u32 (BlockGroupDescriptor.size * bg) = 16 * bg := by
    rw [hsize]
    exact u32_of_lt (by omega)
  have hsector : (descCopy bg).sector.toNat = (2048 + 16 * bg) / 512 := by
    simp only [descCopy, hoff, superBlockNo, blockSize, sectorSize]
    rw [toNat_sectorNo (by omega)]
    omega
  have hmod : (descCopy bg).off = (2048 + 16 * bg) % 512 := by
    simp only [descCopy, hoff, sectorSize]
    omega
  rw [Copy.start_eq, Copy.fits_iff, hsector, hmod, show (descCopy bg).len = 16 from rfl]
  omega

/-- An inode of a table that lies in an image below 4 GiB. -/
theorem inodeCopy_start (h : 1024 * table + Inode.size * index + Inode.size ≤ k) (hk : k < 2 ^ 32) :
    (inodeCopy table index).start = index * Inode.size + Mkfs.blockOffset table ∧ (inodeCopy table index).Fits := by
  have hsize : Inode.size = 128 := rfl
  rw [hsize] at h
  have hoff : u32 (Inode.size * index) = 128 * index := by
    rw [hsize]
    exact u32_of_lt (by omega)
  have hwrap : u32 (table + 128 * index / blockSize) = (1024 * table + 128 * index) / 1024 := by
    rw [u32_of_lt (by rw [blockSize]; omega), blockSize]
    omega
  have hsector : (inodeCopy table index).sector.toNat = (1024 * table + 128 * index) / 512 := by
    simp only [inodeCopy, hoff, hwrap]
    rw [toNat_sectorNo (by rw [blockSize, sectorSize]; omega), blockSize, sectorSize]
    omega
  have hmod : (inodeCopy table index).off = (1024 * table + 128 * index) % 512 := by
    simp only [inodeCopy, hoff, blockSize, sectorSize]
    omega
  rw [Mkfs.blockOffset_of_lt (by omega), Copy.start_eq, Copy.fits_iff, hsector, hmod,
    show (inodeCopy table index).len = 128 from rfl, hsize]
  omega

/-- What the image builder and the kernel do for inode `ino`: the descriptor that both read, the place of the inode
that the image builder seeks to, and the copies that the kernel makes. -/
structure SamePlaces (s : Mkfs.State) (ino bg index : Nat) (desc : BlockGroupDescriptor) : Prop where
  getBlockGroupMetadata : (Mkfs.getBlockGroupMetadata bg).run s = .ok (desc, s)
  seekInode : (Mkfs.seekInode ino).run s = .ok ((desc, (inodeCopy desc.bgInodeTable index).start), s)
  inodeGet : ∀ device, inodeGet s.superBlock device ino = do
    let object ← slabAlloc .axInode
    if object ≠ 0 then
      let f ← (descCopy bg).read device
      let f' ← (inodeCopy (BlockGroupDescriptor.ofBytes f).bgInodeTable index).read device
      return some ⟨object, Inode.ofBytes f'⟩
    else return none
  descriptor : ∀ f, (∀ i < (descCopy bg).len, f i = s.img.byte ((descCopy bg).start + i)) → BlockGroupDescriptor.ofBytes f = desc
  descStart : (descCopy bg).start = Mkfs.descOffset bg
  descFits : (descCopy bg).Fits
  inodeFits : (inodeCopy desc.bgInodeTable index).Fits

/-- On an image below 4 GiB the kernel and the image builder find an inode at the same place, if its descriptor and
its slot in the inode table are in the image. -/
theorem samePlaces {desc : BlockGroupDescriptor} (h1 : 1 ≤ ino) (h2 : ino < 2 ^ 32) (hipg : 1 ≤ s.superBlock.sInodesPerGroup)
    (himg : s.img.len < 2 ^ 32) (hbg : bg = (ino - 1) / s.superBlock.sInodesPerGroup)
    (hindex : index = (ino - 1) % s.superBlock.sInodesPerGroup)
    (hdesc : desc = BlockGroupDescriptor.ofBytes (s.window (Mkfs.descOffset bg)))
    (hin : Mkfs.descOffset bg + BlockGroupDescriptor.size ≤ s.img.len)
    (hslot : 1024 * desc.bgInodeTable + Inode.size * index + Inode.size ≤ s.img.len) :
    SamePlaces s ino bg index desc := by
  have hne : s.superBlock.sInodesPerGroup ≠ 0 := Nat.one_le_iff_ne_zero.1 hipg
  have hsub : Mkfs.u32Sub ino 1 = ino - 1 := Mkfs.u32Sub_of_le h1 h2
  have hsub' : u32Sub ino 1 = ino - 1 := hsub
  obtain ⟨hstart, hfits⟩ := descCopy_start hin himg
  obtain ⟨hplace, hfits'⟩ := inodeCopy_start hslot himg
  have hread : (Mkfs.fread (Mkfs.descOffset bg)).run s = .ok (s.window (Mkfs.descOffset bg), s) := rfl
  have hget : (Mkfs.getBlockGroupMetadata bg).run s = .ok (desc, s) := by
    rw [Mkfs.getBlockGroupMetadata, Exec.bind_run hread, hdesc]
    rfl
  refine ⟨hget, ?_, fun device => ?_, fun f hf => ?_, hstart, hfits, hfits'⟩
  · rw [Mkfs.seekInode, Exec.bind_run (show Mkfs.getSuper.run s = .ok (s.superBlock, s) from rfl), if_neg hne, hsub, ← hbg,
      ← hindex]
    dsimp only
    rw [Exec.bind_run hget, hplace]
    rfl
  · have hgroup : inodeBgIndex s.superBlock ino = pure bg := by rw [inodeBgIndex, if_neg hne, hsub', ← hbg]
    have hplace : inodeIndexInBg s.superBlock ino = pure index := by rw [inodeIndexInBg, if_neg hne, hsub', ← hindex]
    rw [inodeGet, hgroup, hplace]
    rfl
  · rw [hdesc]
    refine BlockGroupDescriptor.ofBytes_congr fun i hi => ?_
    rw [hf i hi, hstart]
    rfl

/-- An image of two groups, of which the second one's descriptor is there. -/
def twoGroups : Mkfs.State where
  superBlock := ⟨16, 9999, 16, 9980, 8⟩
  img := ⟨put (fun _ => 0) 2064 16 (ofWords (BlockGroupDescriptor.words ⟨8193, 8194, 8195, 1800, 8⟩)), 10000 * 1024⟩

/-- The fourth inode of the second group. -/
theorem samePlaces_second : SamePlaces twoGroups 12 1 3 ⟨8193, 8194, 8195, 1800, 8⟩ :=
  samePlaces (by decide) (by decide) (by decide) (by decide) (by decide) (by decide) (by decide) (by decide) (by decide)

end Airix.Axfs
