import Airix.Mkfs.Insert

/-!
# Steps that keep the invariant

The changes that the program makes to files between two states in which the invariant holds: a block
taken for later use, and the blocks of a file attached to its inode.
-/

namespace Airix.Mkfs
open Axfs Bytes Exec Finset BlockTree

variable {g : Geom} {d d' : Disk} {P : Multiset Nat} {b c i j l ino : Nat} {f : Nat → UInt8}

namespace Inv

theorem nodup_refs (h : Inv g d P) : (d.refBlocks g).Nodup :=
  Multiset.nodup_of_le (Multiset.le_add_right _ _) h.block.nodup

theorem fresh_notMem (h : Inv g d P) (hj : j < g.groupBlocks 0) (hbit : d.bit .block 0 j = false) :
    1 + j ∉ d.refBlocks g := fun hm => h.block.notMem hj hbit (Multiset.mem_add.2 (.inl hm))

/-- The super block written. -/
theorem sync (h : Inv g d P) : Inv g d.sync P :=
  ⟨⟨h.counts.mem, h.counts.free, h.counts.used⟩, ⟨h.block.nodup, h.block.range, h.block.bits, h.block.zero⟩,
    ⟨h.dir.bits, h.dir.nodup, h.dir.range, h.dir.zero, h.dir.valid, h.dir.mode, h.dir.dirs, h.dir.packed,
      h.dir.packedBlocks, h.dir.first, h.dir.dots⟩⟩

/-- A write to a block that no pointer leads to. -/
theorem dir_setData (h : Inv g d P) (hb : b ∉ d.refBlocks g) : DirInv g (d.setData b f) := by
  have htree : (d.setData b f).treeOf (d.inode rootIno) = d.treeOf (d.inode rootIno) :=
    treeOf_setData hb one_le_rootIno rootIno_le
  have hleaves : (d.setData b f).leaves = d.leaves := by
    show (((d.setData b f).treeOf (d.inode rootIno)).filter _).map _ = _
    rw [htree]
    rfl
  have hleaf : ∀ c ∈ d.leaves, (d.setData b f).data c = d.data c := by
    intro c hc
    refine d.setData_ne f ?_
    rintro rfl
    exact hb (mem_refBlocks_of_leaf hc)
  refine h.dir.congr rfl (named_congr (entries_congr hleaves hleaf)) h.dir.valid (fun _ _ _ => rfl) rfl ?_ h.dir.packed
    ?_ rfl (hleaf _ h.dir.first_mem)
  · intro c hc
    rw [hleaves] at hc
    rw [hleaf c hc]
    exact h.dir.dirs c hc
  · intro l c hc
    have hc' : (l + 1, c) ∈ d.treeOf (d.inode rootIno) := htree ▸ hc
    have hcb : c ≠ b := by
      rintro rfl
      exact hb (mem_refBlocks_of_root hc')
    rw [ptr_congr (d.setData_ne f hcb)]
    exact h.dir.packedBlocks l c hc'

theorem refs_setData (hb : b ∉ d.refBlocks g) : (d.setData b f).refs g = d.refs g :=
  refs_congr fun _ h1 h2 => treeOf_setData hb h1 h2

/-- Marking changes nothing but bits and counters. -/
theorem dir_mark (h : DirInv g d) : DirInv g (d.mark .block j) := by
  have hbits : (d.mark .block j).bit .inode = d.bit .inode := by
    funext k j'
    rw [Disk.mark_bit]
    simp
  refine h.congr hbits rfl h.valid (fun _ _ _ => rfl) rfl h.dirs h.packed h.packedBlocks rfl rfl

/-- A free block filled and taken for later use. -/
theorem pend (h : Inv g d P) (hj : j < g.groupBlocks 0) (hbit : d.bit .block 0 j = false) :
    Inv g ((d.setData (1 + j) f).mark .block j) ((1 + j) ::ₘ P) := by
  have hb := h.fresh_notMem hj hbit
  have hcounts : Counts g (d.setData (1 + j) f) := ⟨h.counts.mem, h.counts.free, h.counts.used⟩
  have hrefs : ((d.setData (1 + j) f).mark .block j).refBlocks g = d.refBlocks g := by
    show ((d.setData (1 + j) f).refs g).map _ = _
    rw [refs_setData hb]
    rfl
  refine ⟨hcounts.mark hj hbit, ?_, dir_mark (h.dir_setData hb)⟩
  rw [hrefs, Multiset.add_cons]
  exact h.block.mark h.counts hj hbit rfl fun c hc _ => d.setData_ne f hc

/-- A write to a block taken for later use. -/
theorem rewrite (h : Inv g d P) (hb : b ∈ P) : Inv g (d.setData b f) P := by
  have hnotMem : b ∉ d.refBlocks g := fun hm =>
    Multiset.disjoint_left.1 (Multiset.nodup_add.1 h.block.nodup).2.2 hm hb
  have hrefs : (d.setData b f).refBlocks g = d.refBlocks g := by rw [Disk.refBlocks, refs_setData hnotMem]; rfl
  refine ⟨⟨h.counts.mem, h.counts.free, h.counts.used⟩, ?_, h.dir_setData hnotMem⟩
  rw [hrefs]
  refine h.block.congr rfl fun c hc => d.setData_ne f ?_
  rintro rfl
  exact hc (Multiset.mem_add.2 (.inr hb))

end Inv

/-- The blocks taken for a file attached to its inode. -/
theorem Inv.commit (h : Inv g d P) {inode : Inode} (hino : ino ∈ d.named) (hold : ∀ i < 24, (d.inode ino).iBlock i = 0)
    (hvalid : inode.Valid) (hP : (d.treeOf inode).map Prod.snd = P) : Inv g (d.setInode ino inode) 0 := by
  obtain ⟨hr1, hr2⟩ := h.dir.range ino hino
  have hle : ino ≤ g.inodes := hr2.trans (Nat.le_mul_of_pos_right _ g.groups_pos)
  have hne : rootIno ≠ ino := by rw [rootIno]; omega
  have hrefs : (d.setInode ino inode).refBlocks g + 0 = d.refBlocks g + P := by
    have hr : (d.setInode ino inode).refs g = d.treeOf inode + d.refs g := by
      refine refs_add (by omega) hle ?_ fun n _ _ hn => ?_
      · rw [Disk.setInode_self, treeOf_of_zero hold, add_zero]
        rfl
      · rw [Disk.setInode_ne _ _ hn]
        rfl
    rw [add_zero, Disk.refBlocks, hr, Multiset.map_add, hP, add_comm]
    rfl
  have hroot : (d.setInode ino inode).inode rootIno = d.inode rootIno := d.setInode_ne inode hne
  have hleaves : (d.setInode ino inode).leaves = d.leaves := by
    rw [Disk.leaves, hroot]
    rfl
  refine ⟨⟨h.counts.mem, h.counts.free, h.counts.used⟩, ?_, ?_⟩
  · rw [hrefs]
    exact ⟨h.block.nodup, h.block.range, h.block.bits, h.block.zero⟩
  · refine h.dir.congr rfl (named_congr (entries_congr hleaves fun _ _ => rfl)) ?_ ?_ ?_ ?_ ?_ ?_ ?_ rfl
    · intro n h1 h2
      rcases eq_or_ne n ino with rfl | hn
      · rw [Disk.setInode_self]
        exact hvalid
      · rw [Disk.setInode_ne _ _ hn]
        exact h.dir.valid n h1 h2
    · intro n _ hn
      exact d.setInode_ne inode (by rintro rfl; exact hn hino)
    · rw [hroot]
    · rw [hleaves]
      exact h.dir.dirs
    · rw [hroot]
      exact h.dir.packed
    · rw [hroot]
      exact h.dir.packedBlocks
    · rw [hroot]

end Airix.Mkfs
