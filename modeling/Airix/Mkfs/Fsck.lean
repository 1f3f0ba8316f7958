import Airix.Mkfs.Init

/-!
# The consistency of images

The runs of the program: `mkfs`, then calls of `write_file`, each with the super block of the call before
or with the one that `get_super_block` reads. After every call that returns the image is consistent:
`Fsck`, which is stated on the bytes of the image alone.
-/

namespace Airix.Mkfs
open Axfs Bytes Exec Finset BlockTree

variable {g : Geom} {s s' : State} {d d' : Disk} {k j b ino blockNum ipg : Nat}

/-- The states of the program between two calls. -/
inductive Reachable (blockNum ipg : Nat) : State → Prop
  | mkfs {s : State} (h : (mkfs blockNum ipg).run .start = .ok ((), s)) : Reachable blockNum ipg s
  | getSuperBlock {s s' : State} (h : Reachable blockNum ipg s) (hr : getSuperBlock.run s = .ok ((), s')) :
      Reachable blockNum ipg s'
  | writeFile {s s' : State} {fuel : Nat} {sfile dst : List UInt8} {r : Bool} (h : Reachable blockNum ipg s)
      (hdst : Legal dst) (hr : (writeFile fuel sfile dst).run s = .ok (r, s')) : Reachable blockNum ipg s'

/-- What is on an image of geometry `g`. -/
def State.disk (g : Geom) (s : State) : Disk where
  mem := s.superBlock
  sb := SuperBlock.ofBytes (s.window 1024)
  free := fun
    | .block, k => (BlockGroupDescriptor.ofBytes (s.window (2048 + 16 * k))).bgFreeBlocksCount
    | .inode, k => (BlockGroupDescriptor.ofBytes (s.window (2048 + 16 * k))).bgFreeInodesCount
  bit := fun K k j => bitAt (s.window (1024 * g.bitmap K k)) j
  inode := fun ino => Inode.ofBytes (s.window (g.inodeOff ino))
  data := fun b => s.window (1024 * b)

/-- The entries of the directory of an inode. -/
def Disk.entriesOf (d : Disk) (inode : Inode) : Multiset Rec :=
  (((d.treeOf inode).filter fun x => x.1 = 0).map Prod.snd).bind fun b => (dirEntries (d.data b) : Multiset Rec)

/-- The entries of all directories. -/
def Disk.allEntries (d : Disk) (g : Geom) : Multiset Rec :=
  ∑ i ∈ range g.inodes, if (d.inode (i + 1)).iMode = sIfdir then d.entriesOf (d.inode (i + 1)) else 0

/-- The inode numbers in the entries other than `.` and `..` of all directories. -/
def Disk.allNamed (d : Disk) (g : Geom) : Multiset Nat :=
  ((d.allEntries g).filter Rec.Named).map fun r => r.entry.inode

/-- A consistent image. -/
structure Fsck (g : Geom) (s : State) : Prop where
  /-- The descriptors have the places of the bitmaps and of the inode tables. -/
  descs : ∀ k < g.groups, BlockGroupDescriptor.ofBytes (s.window (2048 + 16 * k)) = (s.disk g).desc g k
  /-- A block's bit is set iff it is metadata or a pointer slot leads to it. -/
  blocks : ∀ k < g.groups, ∀ j < g.groupBlocks k, (s.disk g).bit .block k j = true ↔
    j < g.used k ∨ 1 + 8192 * k + j ∈ (s.disk g).refBlocks g
  /-- No two pointer slots lead to one block, and none leads to metadata or out of the image. -/
  refs : ((s.disk g).refBlocks g).Nodup ∧ ∀ b ∈ (s.disk g).refBlocks g, g.IsData b
  /-- An inode's bit is set iff it is the root or exactly one entry names it. -/
  inodes : ∀ k < g.groups, ∀ j < g.ipg, (s.disk g).bit .inode k j = true ↔
    g.ipg * k + j + 1 = rootIno ∨ ((s.disk g).allNamed g).count (g.ipg * k + j + 1) = 1
  /-- The counters of the groups count the clear bits. -/
  groups : ∀ K, ∀ k < g.groups, (s.disk g).free K k = #{j ∈ range (g.units K k) | (s.disk g).bit K k j = false}
  /-- The super block on the image has the sums. -/
  super : (s.disk g).sb = ⟨g.inodes, g.blocks, ∑ k ∈ range g.groups, (s.disk g).free .inode k,
    ∑ k ∈ range g.groups, (s.disk g).free .block k, g.ipg⟩

/-! ### Images of the invariant -/

theorem Inv.isData (h : Inv g d 0) (hb : b ∈ d.refBlocks g) : g.IsData b := by
  have hr := h.block.range b (by rwa [add_zero])
  exact ⟨0, g.groups_pos, by omega, by omega⟩

namespace Rep
variable (hs : Rep g s d)
include hs

theorem disk_free (K : Kind) (hk : k < g.groups) : (s.disk g).free K k = d.free K k := by
  cases K with
  | block => exact congrArg BlockGroupDescriptor.bgFreeBlocksCount (hs.desc k hk)
  | inode => exact congrArg BlockGroupDescriptor.bgFreeInodesCount (hs.desc k hk)

theorem disk_treeOf (h : Inv g d 0) (h1 : 1 ≤ ino) (h2 : ino ≤ g.inodes) :
    (s.disk g).treeOf ((s.disk g).inode ino) = d.treeOf (d.inode ino) := by
  have hinode : (s.disk g).inode ino = d.inode ino := hs.inode ino h1 h2
  rw [hinode]
  refine forest_congr (fun _ _ => rfl) fun l c hc i hi => ?_
  have hdata := h.isData (mem_refBlocks_of_treeOf h1 h2 hc)
  exact wordsOf_congr (n := 256) (fun x hx => hs.data c hdata x hx) hi

theorem disk_refBlocks (h : Inv g d 0) : (s.disk g).refBlocks g = d.refBlocks g := by
  have hr : (s.disk g).refs g = d.refs g := refs_congr fun n h1 h2 => hs.disk_treeOf h h1 h2
  rw [Disk.refBlocks, hr]
  rfl

theorem disk_dirEntries (h : Inv g d 0) (hb : b ∈ d.leaves) : dirEntries ((s.disk g).data b) = dirEntries (d.data b) := by
  obtain ⟨rs, hrs⟩ := h.dir.dirs b hb
  have hdata := h.isData (mem_refBlocks_of_treeOf one_le_rootIno rootIno_le (mem_leaves.1 hb))
  have htiles : Tiles ((s.disk g).data b) 0 rs 1024 := hrs.tiles.congr fun x _ hx => hs.data b hdata x hx
  rw [htiles.dirEntries_eq, hrs.tiles.dirEntries_eq]

theorem disk_entries (h : Inv g d 0) : (s.disk g).entriesOf ((s.disk g).inode rootIno) = d.entries := by
  rw [Disk.entriesOf, hs.disk_treeOf h one_le_rootIno rootIno_le]
  exact Multiset.bind_congr fun b hb => by rw [hs.disk_dirEntries h hb]

/-- Only the root has entries. -/
theorem disk_allEntries (h : Image g d) : (s.disk g).allEntries g = d.entries := by
  have hmem : rootIno - 1 ∈ range g.inodes := mem_range.2 rootIno_le
  rw [Disk.allEntries, sum_eq_single_of_mem _ hmem, Nat.sub_add_cancel one_le_rootIno, if_pos, hs.disk_entries h.inv]
  · rw [show (s.disk g).inode rootIno = d.inode rootIno from hs.inode _ one_le_rootIno rootIno_le]
    exact h.inv.dir.mode
  · intro i hi hne
    have hi' := mem_range.1 hi
    have hino : (s.disk g).inode (i + 1) = d.inode (i + 1) := hs.inode _ (by omega) (by omega)
    rw [if_neg]
    rw [hino]
    exact h.flat.modes _ (by omega) (by omega) (by rw [rootIno] at *; omega)

theorem disk_allNamed (h : Image g d) : (s.disk g).allNamed g = d.named := by
  rw [Disk.allNamed, hs.disk_allEntries h]
  rfl

theorem fsck (h : Image g d) : Fsck g s := by
  have hinv := h.inv
  have hfree : ∀ K, ∀ k < g.groups, (s.disk g).free K k = d.free K k := fun K k hk => hs.disk_free K hk
  refine ⟨fun k hk => hs.desc k hk |>.trans ?_, fun k hk j hj => ?_, ⟨?_, fun b hb => ?_⟩, fun k hk j hj => ?_,
    fun K k hk => ?_, ?_⟩
  · rw [Disk.desc, Disk.desc, hfree _ k hk, hfree _ k hk]
  · have hj' := (g.layout hk).le
    have hbits := hinv.block.bits k hk j (by omega)
    rw [add_zero] at hbits
    rw [hs.disk_refBlocks hinv, show (s.disk g).bit .block k j = d.bit .block k j from hs.bit _ k hk j (by omega), hbits]
    refine or_congr_right ⟨?_, fun hm => ?_⟩
    · rintro ⟨rfl, hm⟩
      rwa [Nat.mul_zero, Nat.add_zero]
    · have hr := hinv.block.range _ (by rw [add_zero]; exact hm)
      have h0 := (g.layout g.groups_pos).le
      obtain rfl : k = 0 := by omega
      rw [Nat.mul_zero, Nat.add_zero] at hm
      exact ⟨rfl, hm⟩
  · rw [hs.disk_refBlocks hinv]
    exact hinv.nodup_refs
  · rw [hs.disk_refBlocks hinv] at hb
    exact hinv.isData hb
  · have hj' := g.ipg_le
    rw [hs.disk_allNamed h, show (s.disk g).bit .inode k j = d.bit .inode k j from hs.bit _ k hk j (by omega),
      hinv.dir.bits k hk j (by omega)]
    have hcount : ∀ ino, d.named.count ino = 1 ↔ ino ∈ d.named := fun ino => by
      rw [Multiset.count_eq_of_nodup hinv.dir.nodup]
      simp
    rw [hcount]
    constructor
    · rintro ⟨rfl, h'⟩
      rwa [Nat.mul_zero, Nat.zero_add]
    · intro h'
      have hk0 : k = 0 := by
        by_contra hk0
        have hge : g.ipg ≤ g.ipg * k := Nat.le_mul_of_pos_right _ (by omega)
        have hipos := g.ipg_pos
        rcases h' with h' | h'
        · rw [rootIno] at h'
          omega
        · have := hinv.dir.range _ h'
          omega
      subst hk0
      rw [Nat.mul_zero, Nat.zero_add] at h'
      exact ⟨rfl, h'⟩
  · rw [hfree K k hk, hinv.counts.free K k hk]
    congr 1
    refine filter_congr fun j hj => ?_
    have hj' := (mem_range.1 hj).trans_le (g.units_le K)
    rw [show (s.disk g).bit K k j = d.bit K k j from hs.bit _ k hk j hj']
  · rw [show (s.disk g).sb = d.sb from hs.sb, h.sb, hinv.counts.mem]
    congr 1
    · exact sum_congr rfl fun k hk => (hfree _ k (mem_range.1 hk)).symm
    · exact sum_congr rfl fun k hk => (hfree _ k (mem_range.1 hk)).symm

end Rep

/-! ### Runs -/

/-- `get_super_block` reads the super block that is in memory. -/
theorem Rep.getSuperBlock (hs : Rep g s d) (h : Image g d) (hr : getSuperBlock.run s = .ok ((), s')) : Rep g s' d := by
  have hs' : s' = { s with superBlock := SuperBlock.ofBytes (s.window 1024) } := by
    cases hr
    rfl
  refine ⟨?_, ?_, ?_, ?_, ?_, ?_⟩
  · rw [hs']
    exact hs.sb.trans h.sb
  all_goals rw [hs']
  · exact hs.sb
  · exact hs.desc
  · exact hs.bit
  · exact hs.inode
  · exact hs.data

theorem Reachable.image (h : Reachable blockNum ipg s) (hpos : 0 < blockNum) (hlt : blockNum * 1024 ≤ 2 ^ 32)
    (hipg : ipg ≤ 8192) : ∃ g d, g.blocks + 1 = blockNum ∧ g.ipg = ipg ∧ Rep g s d ∧ Image g d := by
  induction h with
  | mkfs hr => exact mkfs_spec hpos hlt hipg hr
  | getSuperBlock _ hr ih =>
    obtain ⟨g, d, h1, h2, hs, himage⟩ := ih
    exact ⟨g, d, h1, h2, hs.getSuperBlock himage hr, himage⟩
  | writeFile _ hdst hr ih =>
    obtain ⟨g, d, h1, h2, hs, himage⟩ := ih
    obtain ⟨d', hs', -, hw⟩ := (after_writeFile himage.inv himage.flat hdst _ hs).1 _ _ hr
    exact ⟨g, d', h1, h2, hs', hw.image himage⟩

/-- After `mkfs` and after every call of `write_file` that returns the image is consistent. -/
theorem fsck_invariant (h : Reachable blockNum ipg s) (hpos : 0 < blockNum) (hlt : blockNum * 1024 < 2 ^ 32)
    (hipg : ipg ≤ 8192) : ∃ g : Geom, g.blocks + 1 = blockNum ∧ g.ipg = ipg ∧ Fsck g s := by
  obtain ⟨g, d, h1, h2, hs, himage⟩ := h.image hpos hlt.le hipg
  exact ⟨g, h1, h2, hs.fsck himage⟩

/-- A small image, as made. -/
theorem fsck_invariant_small : ∃ s, Reachable 20 9 s ∧ ∃ g : Geom, g.blocks + 1 = 20 ∧ g.ipg = 9 ∧ Fsck g s := by
  have hroom : ∀ k < groupsOf 19, usedOf 19 9 k < min 8192 (19 - 8192 * k) := by decide
  obtain ⟨s, d, hr, -⟩ := mkfs_ok ⟨19, 9, by decide, by decide, by decide, by decide, hroom⟩
  exact ⟨s, .mkfs hr, fsck_invariant (.mkfs hr) (by decide) (by decide) (by decide)⟩

end Airix.Mkfs
