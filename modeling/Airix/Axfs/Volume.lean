import Airix.Axfs.Kern
import Airix.Mkfs.Dir

/-!
# What is on a disk

The structures of a disk, found where the format has them, and the directory tree that they make up:
`lookup` is the search of one directory, `resolve` the walk along the components of a path. `Volume` says that
a disk has a well-formed file system on it.
-/

namespace Airix.Axfs
open Bytes Prog
open Mkfs (Rec dirEntries DirBlock blocksOf groupsOf)

/-- The inode number of the first record with the name, 0 if there is none. -/
def findName (rs : List Rec) (name : List UInt8) : Nat :=
  ((rs.find? fun r => r.name = name).map fun r => r.entry.inode).getD 0

/-- The bytes of a disk. -/
abbrev Disk := Nat → UInt8

namespace Disk
variable (d : Disk)

def superBlock : SuperBlock := SuperBlock.ofBytes (advance d (1024 * superBlockNo))

def groups : Nat := groupsOf d.superBlock.sBlocksCount

/-- Where the descriptor of a block group is. -/
def descOff (bg : Nat) : Nat := 1024 * (superBlockNo + 1) + BlockGroupDescriptor.size * bg

def inodeTable (bg : Nat) : Nat := (BlockGroupDescriptor.ofBytes (advance d (descOff bg))).bgInodeTable

/-- The group of an inode, and its place in the group's table. -/
def group (ino : Nat) : Nat := (ino - 1) / d.superBlock.sInodesPerGroup
def index (ino : Nat) : Nat := (ino - 1) % d.superBlock.sInodesPerGroup

/-- Where an inode is. -/
def inodeOff (ino : Nat) : Nat := 1024 * d.inodeTable (d.group ino) + Inode.size * d.index ino

def inode (ino : Nat) : Inode := Inode.ofBytes (advance d (d.inodeOff ino))

def block (b : Nat) : Nat → UInt8 := advance d (1024 * b)

/-! ### The directory tree -/

/-- The blocks of a directory: the direct ones up to the first 0. -/
def dirBlocks (inode : Inode) : List Nat := ((List.range directBlockCount).map inode.iBlock).takeWhile (· ≠ 0)

/-- The entries of a directory, in order. -/
def entries (inode : Inode) : List Rec := (dirBlocks inode).flatMap fun b => dirEntries (d.block b)

/-- The inode number under which a directory has a name, 0 if it does not have it. -/
def lookup (ino : Nat) (name : List UInt8) : Nat := findName (d.entries (d.inode ino)) name

/-- From a directory to what it has under a name; 0 from anything else. -/
def step (ino : Nat) (name : List UInt8) : Nat :=
  if ino ≠ 0 ∧ (d.inode ino).iMode = sIfdir then d.lookup ino name else 0

def resolve (names : List (List UInt8)) (ino : Nat) : Nat := names.foldl d.step ino

/-- The sectors with the super block, the descriptors and the inodes. -/
def Meta (sector : Nat) : Prop :=
  sector = 1024 * superBlockNo / 512 ∨ (∃ bg < d.groups, sector = descOff bg / 512) ∨
    ∃ ino, 1 ≤ ino ∧ ino ≤ d.superBlock.sInodesCount ∧ sector = d.inodeOff ino / 512

/-- A directory whose blocks and entries are in order. -/
structure IsDir (inode : Inode) : Prop where
  blocks : ∀ b ∈ dirBlocks inode, b ≤ d.superBlock.sBlocksCount ∧ ¬ d.Meta (2 * b)
  tiled : ∀ b ∈ dirBlocks inode, ∃ rs, DirBlock (d.block b) rs
  inodes : ∀ r ∈ d.entries inode, 1 ≤ r.entry.inode ∧ r.entry.inode ≤ d.superBlock.sInodesCount
  names : ((d.entries inode).map Rec.name).Nodup

end Disk

/-- The bytes of a drive. -/
def Machine.bytes (m : Machine) (dev : UInt8) : Disk := m.disk dev

/-- The drive exists, with a well-formed file system on it. -/
structure Volume (m : Machine) (dev : UInt8) : Prop where
  sectors : ∃ n, m.drives dev = some n ∧ n % 8 = 0 ∧ 2 * ((m.bytes dev).superBlock.sBlocksCount + 1) ≤ n
  blocks_lt : (m.bytes dev).superBlock.sBlocksCount < 2 ^ 31
  ipg_pos : 0 < (m.bytes dev).superBlock.sInodesPerGroup
  ipg_le : (m.bytes dev).superBlock.sInodesPerGroup ≤ 8192
  inodes : (m.bytes dev).superBlock.sInodesCount = (m.bytes dev).superBlock.sInodesPerGroup * (m.bytes dev).groups
  groups_pos : 0 < (m.bytes dev).groups
  descs : 2 + blocksOf (16 * (m.bytes dev).groups) ≤ (m.bytes dev).superBlock.sBlocksCount + 1
  tables : ∀ k < (m.bytes dev).groups, (m.bytes dev).inodeTable k +
    blocksOf (128 * (m.bytes dev).superBlock.sInodesPerGroup) ≤ (m.bytes dev).superBlock.sBlocksCount + 1
  dirs : ∀ ino, 1 ≤ ino → ino ≤ (m.bytes dev).superBlock.sInodesCount →
    ((m.bytes dev).inode ino).iMode = sIfdir → (m.bytes dev).IsDir ((m.bytes dev).inode ino)

/-! ### A small volume

Twelve blocks: the root with the directory `d`, in which there is the file `f`. -/

section Small
open Mkfs (entryBytes Tiles recAt padding)

def smallDirBlock (entries : List (Nat × Nat × List UInt8)) : Nat → UInt8 :=
  (entries.foldl (fun (r : Nat × (Nat → UInt8)) e =>
    (r.1 + 12, put r.2 r.1 12 (entryBytes ⟨e.1, if r.1 = 24 then 1000 else 12, e.2.2.length, e.2.1⟩ e.2.2)))
    (0, fun _ => 0)).2

def smallDisk : Disk :=
  put (put (put (put (put (put (put (put (fun _ => 0)
    1024 20 (ofWords (SuperBlock.words ⟨8, 11, 5, 3, 8⟩)))
    2048 16 (ofWords (BlockGroupDescriptor.words ⟨3, 4, 5, 3, 5⟩)))
    5120 128 (ofWords (Inode.words { iMode := sIfdir, iSize := 1024, iBlock := fun i => if i = 0 then 6 else 0 })))
    5248 128 (ofWords (Inode.words { iMode := sIfdir, iSize := 1024, iBlock := fun i => if i = 0 then 7 else 0 })))
    5376 128 (ofWords (Inode.words { iMode := sIfreg, iSize := 5, iBlock := fun i => if i = 0 then 8 else 0 })))
    6144 1024 (smallDirBlock [(1, ftDir, [46]), (1, ftDir, [46, 46]), (2, ftDir, [100])]))
    7168 1024 (smallDirBlock [(2, ftDir, [46]), (1, ftDir, [46, 46]), (3, ftRegFile, [102])]))
    8192 5 (fun i => [104, 101, 108, 108, 111].getD i 0)

def smallMachine (mayFail : UInt64 → Prop) : Machine where
  disk dev := if dev = 1 then smallDisk else fun _ => 0
  drives dev := if dev = 1 then some 24 else none
  mayFail _ := mayFail
  memory := True

/-- A process that holds no bio, while nothing is allocated. -/
def Kern.start : Kern := ⟨fun _ => none, [], false, fun _ => none, fun _ => none⟩

theorem Kern.start_short {mayFail : UInt64 → Prop} : ¬ (smallMachine mayFail).Short .start :=
  not_or.2 ⟨fun h => h trivial, fun h => h 1 (by decide) rfl⟩

theorem smallDisk_meta {b : Nat} (h : b = 6 ∨ b = 7) : ¬ smallDisk.Meta (2 * b) := by
  rintro (h1 | ⟨bg, hbg, h1⟩ | ⟨ino, h1, h2, h3⟩)
  · simp only [superBlockNo] at h1
    omega
  · have hg : smallDisk.groups = 1 := by decide +kernel
    obtain rfl : bg = 0 := by omega
    simp only [Disk.descOff, superBlockNo] at h1
    omega
  · have hcount : smallDisk.superBlock.sInodesCount = 8 := by decide +kernel
    have hoff : smallDisk.inodeOff ino = 5120 + 128 * ((ino - 1) % 8) := by
      have hg : smallDisk.group ino = 0 := Nat.div_eq_of_lt (by
        rw [show smallDisk.superBlock.sInodesPerGroup = 8 by decide +kernel]
        omega)
      rw [Disk.inodeOff, hg, Disk.index, show smallDisk.superBlock.sInodesPerGroup = 8 by decide +kernel,
        show smallDisk.inodeTable 0 = 5 by decide +kernel]
      rfl
    omega

theorem smallDisk_isDir {ino b : Nat} (rs : List Rec) (hb : b = 6 ∨ b = 7) (hblocks : Disk.dirBlocks (smallDisk.inode ino) = [b])
    (hrs : DirBlock (smallDisk.block b) rs)
    (hinodes : ∀ r ∈ dirEntries (smallDisk.block b), 1 ≤ r.entry.inode ∧ r.entry.inode ≤ 8)
    (hnames : ((dirEntries (smallDisk.block b)).map Rec.name).Nodup) : smallDisk.IsDir (smallDisk.inode ino) := by
  have hentries : smallDisk.entries (smallDisk.inode ino) = dirEntries (smallDisk.block b) := by
    rw [Disk.entries, hblocks, List.flatMap_cons, List.flatMap_nil, List.append_nil]
  refine ⟨fun c hc => ?_, fun c hc => ?_, fun r hr => ?_, ?_⟩
  · rw [hblocks, List.mem_singleton] at hc
    subst hc
    rw [show smallDisk.superBlock.sBlocksCount = 11 by decide +kernel]
    exact ⟨by omega, smallDisk_meta hb⟩
  · rw [hblocks, List.mem_singleton] at hc
    exact hc ▸ ⟨rs, hrs⟩
  · rw [show smallDisk.superBlock.sInodesCount = 8 by decide +kernel]
    exact hinodes r (hentries ▸ hr)
  · rw [hentries]
    exact hnames

theorem small_volume {mayFail : UInt64 → Prop} : Volume (smallMachine mayFail) 1 where
  sectors := ⟨24, rfl, rfl, show 2 * (smallDisk.superBlock.sBlocksCount + 1) ≤ 24 by decide +kernel⟩
  blocks_lt := show smallDisk.superBlock.sBlocksCount < 2 ^ 31 by decide +kernel
  ipg_pos := show 0 < smallDisk.superBlock.sInodesPerGroup by decide +kernel
  ipg_le := show smallDisk.superBlock.sInodesPerGroup ≤ 8192 by decide +kernel
  inodes := show smallDisk.superBlock.sInodesCount = smallDisk.superBlock.sInodesPerGroup * smallDisk.groups by
    decide +kernel
  groups_pos := show 0 < smallDisk.groups by decide +kernel
  descs := show 2 + blocksOf (16 * smallDisk.groups) ≤ smallDisk.superBlock.sBlocksCount + 1 by decide +kernel
  tables := show ∀ k < smallDisk.groups, smallDisk.inodeTable k +
    blocksOf (128 * smallDisk.superBlock.sInodesPerGroup) ≤ smallDisk.superBlock.sBlocksCount + 1 by decide +kernel
  dirs := by
    show ∀ ino, 1 ≤ ino → ino ≤ smallDisk.superBlock.sInodesCount → (smallDisk.inode ino).iMode = sIfdir →
      smallDisk.IsDir (smallDisk.inode ino)
    intro ino h1 h2 hmode
    have hfiles : ∀ ino < 9, 3 ≤ ino → (smallDisk.inode ino).iMode ≠ sIfdir := by decide +kernel
    have hcount : smallDisk.superBlock.sInodesCount = 8 := by decide +kernel
    have hle : ino ≤ 2 := by
      by_contra hgt
      exact hfiles ino (by omega) (by omega) hmode
    obtain rfl | rfl : ino = 1 ∨ ino = 2 := by omega
    · refine smallDisk_isDir [⟨⟨1, 12, 1, ftDir⟩, [46]⟩, ⟨⟨1, 12, 2, ftDir⟩, [46, 46]⟩,
        ⟨⟨2, 1000, 1, ftDir⟩, [100]⟩] (.inl rfl) (by decide +kernel) ⟨?_, by decide⟩ (by decide +kernel) (by decide +kernel)
      exact ⟨by decide +kernel, by decide, by decide +kernel, by decide, by decide +kernel, by decide, rfl⟩
    · refine smallDisk_isDir [⟨⟨2, 12, 1, ftDir⟩, [46]⟩, ⟨⟨1, 12, 2, ftDir⟩, [46, 46]⟩,
        ⟨⟨3, 1000, 1, ftRegFile⟩, [102]⟩] (.inr rfl) (by decide +kernel) ⟨?_, by decide⟩ (by decide +kernel)
        (by decide +kernel)
      exact ⟨by decide +kernel, by decide, by decide +kernel, by decide, by decide +kernel, by decide, rfl⟩

end Small

end Airix.Axfs
