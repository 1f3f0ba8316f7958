import Airix.Axfs.Read
import Airix.Mkfs.Copies

/-!
# The image as a volume

A drive with an image on it that `mkfs` has made and `write_file` has filled is a well-formed volume. The super
block, the descriptors and the inodes are for the kernel where the program has put them, and as long as the root
has no indirect blocks the kernel finds its entries by their names.
-/

namespace Airix.Axfs
open Bytes
open Mkfs (Rec Geom dirEntries groupsOf blocksOf)

/-- The drive has the image on it. -/
structure OnDrive (m : Machine) (dev : UInt8) (blockNum : Nat) (s : Mkfs.State) : Prop where
  bytes : ∀ i < 1024 * blockNum, m.disk dev i = s.img.byte i
  sectors : ∃ n, m.drives dev = some n ∧ n % 8 = 0 ∧ 2 * blockNum ≤ n

namespace OnDrive
variable {m : Machine} {dev : UInt8} {g : Geom} {s : Mkfs.State} {d : Mkfs.Disk} {k n b off ino : Nat} {r : Rec}
  {name : List UInt8}

section
variable (ho : OnDrive m dev (g.blocks + 1) s)
include ho

theorem advance_eq (h : off + n ≤ 1024 * (g.blocks + 1)) : ∀ i < n, advance (m.bytes dev) off i = s.window off i :=
  fun i hi => ho.bytes (off + i) (by omega)

end

section
variable (ho : OnDrive m dev (g.blocks + 1) s) (hs : Mkfs.Rep g s d) (hd : Mkfs.Image g d)
include ho hs hd

/-! ### The metadata -/

theorem superBlock : (m.bytes dev).superBlock = d.mem := by
  have hl := (g.layout g.groups_pos).used
  have hb := (g.layout g.groups_pos).blocks
  have hlt := (g.layout g.groups_pos).used_lt
  exact (SuperBlock.ofBytes_congr (ho.advance_eq (by rw [superBlockNo, SuperBlock.size]; omega))).trans
    (hs.sb.trans hd.sb)

theorem blocksCount : (m.bytes dev).superBlock.sBlocksCount = g.blocks := by
  rw [ho.superBlock hs hd, hd.inv.counts.mem]

theorem inodesCount : (m.bytes dev).superBlock.sInodesCount = g.inodes := by
  rw [ho.superBlock hs hd, hd.inv.counts.mem]

theorem inodesPerGroup : (m.bytes dev).superBlock.sInodesPerGroup = g.ipg := by
  rw [ho.superBlock hs hd, hd.inv.counts.mem]

theorem groups : (m.bytes dev).groups = g.groups := by
  rw [Disk.groups, ho.blocksCount hs hd]
  rfl

omit hd in
theorem inodeTable (hk : k < g.groups) : (m.bytes dev).inodeTable k = g.bitmapBlock k + 2 := by
  obtain ⟨_, _, _, _, _, _, _, _, _⟩ := g.layout hk
  have hdesc : ∀ i < 16, advance (m.bytes dev) (2048 + 16 * k) i = s.window (2048 + 16 * k) i :=
    ho.advance_eq (by omega)
  exact congrArg BlockGroupDescriptor.bgInodeTable ((BlockGroupDescriptor.ofBytes_congr hdesc).trans (hs.desc k hk))

theorem inodeOff (h1 : 1 ≤ ino) (h2 : ino ≤ g.inodes) : (m.bytes dev).inodeOff ino = g.inodeOff ino := by
  obtain ⟨k, j, hk, hj, -, -, hdiv, hmod⟩ := g.inodeOff_spec h1 h2
  rw [Disk.inodeOff, Disk.group, Disk.index, ho.inodesPerGroup hs hd, hdiv, ho.inodeTable hs hk, Geom.inodeOff, hdiv]
  rfl

theorem inode (h1 : 1 ≤ ino) (h2 : ino ≤ g.inodes) : (m.bytes dev).inode ino = d.inode ino := by
  obtain ⟨k, j, hk, hj, hoff, -⟩ := g.inodeOff_spec h1 h2
  obtain ⟨_, _, _, _, _, _, _, _, _⟩ := g.layout hk
  rw [Disk.inode, ho.inodeOff hs hd h1 h2]
  exact (Inode.ofBytes_congr (ho.advance_eq (by rw [Inode.size]; omega))).trans (hs.inode ino h1 h2)

omit hd in
theorem block (hb : g.IsData b) : ∀ i < 1024, (m.bytes dev).block b i = d.data b i := by
  intro i hi
  have hb' := hb
  obtain ⟨k, hk, h1, h2⟩ := hb'
  obtain ⟨_, _, _, _, _, _, _, _, _⟩ := g.layout hk
  exact (ho.advance_eq (n := 1024) (by omega) i hi).trans (hs.data b hb i hi)

/-- No sector of metadata is the first one of a data block. -/
theorem not_meta (hb : g.IsData b) : ¬ (m.bytes dev).Meta (2 * b) := by
  obtain ⟨k, hk, h1, h2⟩ := hb
  obtain ⟨_, _, _, _, _, _, _, _, _⟩ := g.layout hk
  rintro (h | ⟨bg, hbg, h⟩ | ⟨ino, hi1, hi2, h⟩)
  · rw [superBlockNo] at h
    omega
  · rw [ho.groups hs hd] at hbg
    rw [Disk.descOff, superBlockNo, BlockGroupDescriptor.size] at h
    omega
  · rw [ho.inodesCount hs hd] at hi2
    rw [ho.inodeOff hs hd hi1 hi2] at h
    obtain ⟨k', j, hk', hj, hoff, -⟩ := g.inodeOff_spec hi1 hi2
    obtain ⟨_, _, _, _, _, _, _, _, _⟩ := g.layout hk'
    rcases Nat.lt_trichotomy k k' with hlt | rfl | hlt <;> omega

/-! ### The root -/

omit ho hs in
theorem mem_leaves_of_dirBlocks (hb : b ∈ Disk.dirBlocks (d.inode rootIno)) : b ∈ d.leaves ∧ g.IsData b := by
  have hne : b ≠ 0 := by simpa using List.mem_takeWhile_imp hb
  obtain ⟨k, hk, rfl⟩ := List.mem_map.1 ((List.takeWhile_sublist _).subset hb)
  have hleaf := Mkfs.mem_leaves.2 (Mkfs.mem_treeOf_direct (d := d) (List.mem_range.1 hk) hne)
  exact ⟨hleaf, hd.inv.isData (Mkfs.mem_refBlocks_of_leaf hleaf)⟩

omit ho hs in
/-- Two direct pointers of the root do not lead to one block. -/
theorem dirBlocks_nodup : (Disk.dirBlocks (d.inode rootIno)).Nodup := by
  rw [Disk.dirBlocks, List.takeWhile_map]
  have hne : ∀ i ∈ (List.range directBlockCount).takeWhile ((fun x => decide (x ≠ 0)) ∘ (d.inode rootIno).iBlock),
      i < 21 ∧ (d.inode rootIno).iBlock i ≠ 0 := fun i hi =>
    ⟨List.mem_range.1 ((List.takeWhile_sublist _).subset hi), by simpa using List.mem_takeWhile_imp hi⟩
  refine List.Nodup.map_on (fun i hi j hj he => ?_) (List.nodup_range.sublist (List.takeWhile_sublist _))
  obtain ⟨hi, hi0⟩ := hne i hi
  obtain ⟨hj, hj0⟩ := hne j hj
  by_contra hij
  have hnd := Mkfs.treeOf_nodup hd.inv.nodup_refs Mkfs.one_le_rootIno Mkfs.rootIno_le
  have hself : ∀ k < 21, (0, (d.inode rootIno).iBlock k) ∈
      BlockTree.nodes d.ptr 256 (k - 20) ((d.inode rootIno).iBlock k) := fun k hk => by
    rw [show k - 20 = 0 by omega]
    exact BlockTree.nodes_self
  exact BlockTree.disjoint_of_mem_forest hnd (by omega) (by omega) hij hi0 hj0 (hself i hi) (hself j hj) he

theorem dirEntries_eq (hb : b ∈ d.leaves) : dirEntries ((m.bytes dev).block b) = dirEntries (d.data b) := by
  obtain ⟨rs, hrs⟩ := hd.inv.dir.dirs b hb
  have hdata := hd.inv.isData (Mkfs.mem_refBlocks_of_leaf hb)
  have htiles : Mkfs.Tiles ((m.bytes dev).block b) 0 rs 1024 :=
    hrs.tiles.congr fun x _ hx => ho.block hs hdata x hx
  rw [htiles.dirEntries_eq, hrs.tiles.dirEntries_eq]

/-- The kernel's list has entries of the root, each once. -/
theorem entries_le : ((m.bytes dev).entries (d.inode rootIno) : Multiset Rec) ≤ d.entries := by
  have hle : (Disk.dirBlocks (d.inode rootIno) : Multiset Nat) ≤ d.leaves :=
    (Multiset.le_iff_subset (Multiset.coe_nodup.2 (dirBlocks_nodup hd))).2 fun b hb => (mem_leaves_of_dirBlocks hd hb).1
  obtain ⟨u, hu⟩ := Multiset.le_iff_exists_add.1 hle
  have hbind : ((m.bytes dev).entries (d.inode rootIno) : Multiset Rec) =
      (Disk.dirBlocks (d.inode rootIno) : Multiset Nat).bind fun b => (dirEntries (d.data b) : Multiset Rec) := by
    rw [Multiset.coe_bind, Disk.entries]
    refine congrArg _ (List.flatMap_congr fun b hb => ?_)
    exact ho.dirEntries_eq hs hd (mem_leaves_of_dirBlocks hd hb).1
  rw [hbind, Mkfs.Disk.entries, hu, Multiset.add_bind]
  exact Multiset.le_add_right _ _

/-- All of the root's blocks are direct ones. -/
theorem mem_entries (hdirect : (d.inode rootIno).iBlock oneIndirectBlockIndex = 0) :
    r ∈ (m.bytes dev).entries (d.inode rootIno) ↔ r ∈ d.entries := by
  refine ⟨fun h => Multiset.mem_of_le (ho.entries_le hs hd) h, fun h => ?_⟩
  obtain ⟨b, hb, hr⟩ := Mkfs.mem_entries.1 h
  refine List.mem_flatMap.2 ⟨b, ?_, by rwa [ho.dirEntries_eq hs hd hb]⟩
  obtain ⟨k, hk, hne, hx⟩ := BlockTree.mem_forest.1 (Mkfs.mem_leaves.1 hb)
  have hk21 : k < 21 := by
    by_contra hge
    exact hne (hd.inv.dir.packed 21 k (by omega) hk hdirect)
  rw [show k - 20 = 0 by omega] at hx
  obtain rfl : b = (d.inode rootIno).iBlock k := congrArg Prod.snd (Multiset.mem_singleton.1 hx)
  have hrange : List.range directBlockCount = List.range (k + 1) ++ (List.range (20 - k)).map (k + 1 + ·) := by
    rw [← List.range_add, directBlockCount]
    congr 1
    omega
  rw [Disk.dirBlocks, List.takeWhile_map, hrange, List.takeWhile_append_of_pos]
  · exact List.mem_map_of_mem (List.mem_append_left _ (List.mem_range.2 (Nat.lt_succ_self k)))
  · intro i hi
    have hi := List.mem_range.1 hi
    exact decide_eq_true fun h0 => hne (hd.inv.dir.packed i k (by omega) hk h0)

omit ho hs in
/-- `.` and `..` of the root are the root. -/
theorem unnamed_inode (hr : r ∈ d.entries) (hn : ¬ r.Named) : r.entry.inode = rootIno := by
  obtain ⟨l₁, l₂, hdot, hdots⟩ := hd.inv.dir.dots
  have hfirst := hd.inv.dir.first_mem
  have hroot : ∀ q ∈ d.entries, q.entry.inode = rootIno → r.name = q.name → r.entry.inode = rootIno := by
    intro q hq hino hname
    rw [Multiset.inj_on_of_nodup_map hd.unique r hr q hq hname, hino]
  rcases not_and_or.1 hn with hn | hn
  · exact hroot _ (Mkfs.mem_entries.2 ⟨_, hfirst, hdot⟩) rfl (not_not.1 hn)
  · exact hroot _ (Mkfs.mem_entries.2 ⟨_, hfirst, hdots⟩) rfl (not_not.1 hn)

omit ho hs in
/-- The entries name inodes that there are. -/
theorem inode_range (hr : r ∈ d.entries) : 1 ≤ r.entry.inode ∧ r.entry.inode ≤ g.inodes := by
  by_cases hn : r.Named
  · obtain ⟨h1, h2⟩ := hd.inv.dir.range _ (Mkfs.mem_named.2 ⟨r, hr, hn, rfl⟩)
    exact ⟨by omega, h2.trans (Nat.le_mul_of_pos_right _ g.groups_pos)⟩
  · rw [unnamed_inode hd hr hn]
    exact ⟨Mkfs.one_le_rootIno, Mkfs.rootIno_le⟩

theorem isDir : (m.bytes dev).IsDir (d.inode rootIno) where
  blocks b hb := by
    obtain ⟨k, hk, h1, h2⟩ := (mem_leaves_of_dirBlocks hd hb).2
    have hl := (g.layout hk).blocks
    rw [ho.blocksCount hs hd]
    exact ⟨by omega, ho.not_meta hs hd (mem_leaves_of_dirBlocks hd hb).2⟩
  tiled b hb := by
    obtain ⟨hleaf, hdata⟩ := mem_leaves_of_dirBlocks hd hb
    obtain ⟨rs, hrs⟩ := hd.inv.dir.dirs b hleaf
    exact ⟨rs, hrs.tiles.congr fun x _ hx => ho.block hs hdata x hx, hrs.unknown⟩
  inodes r hr := by
    rw [ho.inodesCount hs hd]
    exact inode_range hd (Multiset.mem_of_le (ho.entries_le hs hd) hr)
  names := Multiset.coe_nodup.1 (Multiset.nodup_of_le (Multiset.map_le_map (ho.entries_le hs hd)) hd.unique)

/-- The kernel finds a well-formed file system on the drive. -/
theorem volume : Volume m dev where
  sectors := by
    obtain ⟨n, hn, h8, hle⟩ := ho.sectors
    exact ⟨n, hn, h8, by rwa [ho.blocksCount hs hd]⟩
  blocks_lt := by
    have hlt := g.blocks_lt
    rw [ho.blocksCount hs hd]
    omega
  ipg_pos := by
    rw [ho.inodesPerGroup hs hd]
    exact g.ipg_pos
  ipg_le := by
    rw [ho.inodesPerGroup hs hd]
    exact g.ipg_le
  inodes := by
    rw [ho.inodesCount hs hd, ho.inodesPerGroup hs hd, ho.groups hs hd]
    rfl
  groups_pos := by
    rw [ho.groups hs hd]
    exact g.groups_pos
  descs := by
    obtain ⟨_, _, _, _, _, _, _, _, _⟩ := g.layout g.groups_pos
    rw [ho.groups hs hd, ho.blocksCount hs hd, Nat.mul_comm, show blocksOf (g.groups * 16) = g.tableBlocks from rfl]
    omega
  tables k hk := by
    rw [ho.groups hs hd] at hk
    obtain ⟨_, _, _, _, _, _, _, _, _⟩ := g.layout hk
    rw [ho.inodeTable hs hk, ho.inodesPerGroup hs hd, ho.blocksCount hs hd, Nat.mul_comm,
      show blocksOf (g.ipg * 128) = g.inodeBlocks from rfl]
    omega
  dirs ino h1 h2 hmode := by
    rw [ho.inodesCount hs hd] at h2
    rw [ho.inode hs hd h1 h2] at hmode ⊢
    by_cases hroot : ino = rootIno
    · rw [hroot]
      exact ho.isDir hs hd
    · exact absurd hmode (hd.flat.modes ino h1 h2 hroot)

/-- The search for a name in the root gives the inode of the entry with the name. -/
theorem lookup_eq (hdirect : (d.inode rootIno).iBlock oneIndirectBlockIndex = 0) (hr : r ∈ d.entries) :
    (m.bytes dev).lookup rootIno r.name = r.entry.inode := by
  rw [Disk.lookup, ho.inode hs hd Mkfs.one_le_rootIno Mkfs.rootIno_le]
  exact findName_of_mem (ho.isDir hs hd).names ((ho.mem_entries hs hd hdirect).2 hr)

theorem mem_of_lookup (h : (m.bytes dev).lookup rootIno name ≠ 0) : ∃ r ∈ d.entries, r.name = name := by
  rw [Disk.lookup, ho.inode hs hd Mkfs.one_le_rootIno Mkfs.rootIno_le] at h
  obtain ⟨r, hr, hn, -⟩ := mem_of_findName h
  exact ⟨r, Multiset.mem_of_le (ho.entries_le hs hd) hr, hn⟩

end

end OnDrive

end Airix.Axfs
