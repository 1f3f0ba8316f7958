import Airix.Mkfs.Inv

/-!
# Directories

What a directory of the image holds, for any inode number `p`: its blocks, its entries. `Allotted` says
that the bitmaps and the pointers of the image agree, `DirAt` that inode `p` is a directory whose blocks
can be walked over, `Evolves` what the image keeps while blocks and an entry are added to `p`.
-/

namespace Airix.Mkfs
open Axfs Bytes Exec Finset BlockTree

variable {g : Geom} {d d' d'' : Disk} {N N' : Multiset Nat} {b c e i j l p ino : Nat} {f : Nat → UInt8}

namespace Disk

/-- The directory blocks of inode `p`. -/
def leavesAt (d : Disk) (p : Nat) : Multiset Nat := ((d.treeOf (d.inode p)).filter fun x => x.1 = 0).map Prod.snd

/-- The entries of directory `p`. -/
def entriesAt (d : Disk) (p : Nat) : Multiset Rec := (d.leavesAt p).bind fun b => (dirEntries (d.data b) : Multiset Rec)

end Disk

/-- Every block of directory `p` has at most one unused record, the last one. -/
def Disk.Neat (d : Disk) (p : Nat) : Prop := ∀ b ∈ d.leavesAt p, ∃ rs, DirBlock (d.data b) rs ∧ LastUnknown rs

/-- The bitmaps agree with the pointers; the free units of the first group hold nothing. -/
structure Allotted (g : Geom) (d : Disk) : Prop where
  counts : Counts g d
  nodup : (d.refBlocks g).Nodup
  taken : ∀ b ∈ d.refBlocks g, ∃ k < g.groups, ∃ j < g.groupBlocks k, b = 1 + 8192 * k + j ∧ g.used k ≤ j ∧
    d.bit .block k j = true
  zero : ∀ j < g.groupBlocks 0, d.bit .block 0 j = false → ∀ i < 1024, d.data (1 + j) i = 0
  free : ∀ j < g.ipg, d.bit .inode 0 j = false → d.inode (j + 1) = {}
  valid : ∀ ino, 1 ≤ ino → ino ≤ g.inodes → (d.inode ino).Valid

/-- Inode `p` is a directory. -/
structure DirAt (g : Geom) (d : Disk) (p : Nat) : Prop where
  pos : 1 ≤ p
  le : p ≤ g.inodes
  mode : (d.inode p).iMode = sIfdir
  dirs : ∀ b ∈ d.leavesAt p, ∃ rs, DirBlock (d.data b) rs
  packed : Packed 24 (d.inode p).iBlock
  packedBlocks : ∀ l c, (l + 1, c) ∈ d.treeOf (d.inode p) → Packed 256 (d.ptr c)

/-- A consistent image with directory `p`. -/
structure DirImage (g : Geom) (d : Disk) (p : Nat) : Prop extends Allotted g d, DirAt g d p

/-- The image keeps, apart from directory `p` and inode `e`, all inodes with their blocks; `p` keeps its
blocks and entries, and the blocks `N` are added. -/
structure Evolves (g : Geom) (p e : Nat) (N : Multiset Nat) (d d' : Disk) : Prop where
  inode : ∀ n, n ≠ p → n ≠ e → d'.inode n = d.inode n
  data : ∀ n, 1 ≤ n → n ≤ g.inodes → n ≠ p → n ≠ e → ∀ x ∈ d.treeOf (d.inode n), d'.data x.2 = d.data x.2
  refs : d'.refBlocks g = N + d.refBlocks g
  fresh : ∀ b ∈ N, ∃ j < g.groupBlocks 0, b = 1 + j ∧ d.bit .block 0 j = false
  bits : ∀ k j, d'.bit .block k j = true ↔ d.bit .block k j = true ∨ k = 0 ∧ 1 + j ∈ N
  first : (d.inode p).iBlock 0 ≠ 0 → (d'.inode p).iBlock 0 = (d.inode p).iBlock 0
  kept : ∀ b ∈ d.leavesAt p, b ∈ d'.leavesAt p ∧ ∀ r ∈ dirEntries (d.data b), r ∈ dirEntries (d'.data b)
  neat : d.Neat p → d'.Neat p

theorem mem_leavesAt : b ∈ d.leavesAt p ↔ (0, b) ∈ d.treeOf (d.inode p) := by
  rw [Disk.leavesAt, Multiset.mem_map]
  constructor
  · rintro ⟨⟨l, c⟩, hx, rfl⟩
    obtain ⟨hx, rfl⟩ := Multiset.mem_filter.1 hx
    exact hx
  · exact fun h => ⟨(0, b), Multiset.mem_filter.2 ⟨h, rfl⟩, rfl⟩

theorem mem_entriesAt {r : Rec} : r ∈ d.entriesAt p ↔ ∃ b ∈ d.leavesAt p, r ∈ dirEntries (d.data b) := by
  rw [Disk.entriesAt, Multiset.mem_bind]
  simp only [Multiset.mem_coe]

theorem entriesAt_congr (hl : d'.leavesAt p = d.leavesAt p) (hd : ∀ b ∈ d.leavesAt p, d'.data b = d.data b) :
    d'.entriesAt p = d.entriesAt p := by
  rw [Disk.entriesAt, Disk.entriesAt, hl]
  exact Multiset.bind_congr fun b hb => by rw [hd b hb]

namespace Allotted
variable (h : Allotted g d)
include h

theorem isData (hb : b ∈ d.refBlocks g) : g.IsData b := by
  obtain ⟨k, hk, j, hj, rfl, hu, -⟩ := h.taken b hb
  exact ⟨k, hk, by omega, by omega⟩

theorem ne_zero (hb : b ∈ d.refBlocks g) : b ≠ 0 := by
  obtain ⟨k, hk, j, hj, rfl, hu, -⟩ := h.taken b hb
  omega

theorem fresh_notMem (hj : j < g.groupBlocks 0) (hbit : d.bit .block 0 j = false) : 1 + j ∉ d.refBlocks g := by
  intro hm
  obtain ⟨k, hk, j', hj', he, -, hb⟩ := h.taken _ hm
  have h1 := (g.layout g.groups_pos).le
  have h2 := (g.layout hk).le
  obtain ⟨rfl, rfl⟩ : k = 0 ∧ j' = j := by omega
  rw [hbit] at hb
  cases hb

/-- The super block written. -/
theorem sync : Allotted g d.sync :=
  ⟨⟨h.counts.mem, h.counts.free, h.counts.used⟩, h.nodup, h.taken, h.zero, h.free, h.valid⟩

end Allotted

namespace DirImage
variable (h : DirImage g d p)
include h

/-- The super block written. -/
theorem sync : DirImage g d.sync p :=
  ⟨h.toAllotted.sync, ⟨h.pos, h.le, h.mode, h.dirs, h.packed, h.packedBlocks⟩⟩

theorem mem_refBlocks (hm : (l, c) ∈ d.treeOf (d.inode p)) : c ∈ d.refBlocks g :=
  mem_refBlocks_of_treeOf (x := (l, c)) h.pos h.le hm

theorem isData_of_mem (hm : (l, c) ∈ d.treeOf (d.inode p)) : g.IsData c := h.toAllotted.isData (h.mem_refBlocks hm)

theorem nodup_tree : ((d.treeOf (d.inode p)).map Prod.snd).Nodup := treeOf_nodup h.nodup h.pos h.le

/-- The directory's inode is in use. -/
theorem ne_of_free (hj : j < g.ipg) (hbit : d.bit .inode 0 j = false) : p ≠ j + 1 := by
  rintro rfl
  have hm := h.mode
  rw [h.free j hj hbit] at hm
  exact absurd hm (by decide)

end DirImage

namespace Evolves

theorem refl : Evolves g p e 0 d d := by
  refine ⟨fun _ _ _ => rfl, fun _ _ _ _ _ _ _ => rfl, (zero_add _).symm, fun b hb => ?_, fun k j => ?_, fun _ => rfl,
    fun b hb => ⟨hb, fun _ hr => hr⟩, id⟩
  · exact absurd hb (Multiset.notMem_zero b)
  · refine ⟨.inl, fun hor => hor.resolve_right fun hm => Multiset.notMem_zero _ hm.2⟩

theorem treeOf (h : Evolves g p e N d d') {n : Nat} (h1 : 1 ≤ n) (h2 : n ≤ g.inodes) (hp : n ≠ p) (he : n ≠ e) :
    d'.treeOf (d'.inode n) = d.treeOf (d.inode n) := by
  rw [h.inode n hp he]
  exact treeOf_congr fun l c hc => h.data n h1 h2 hp he _ hc

theorem trans (h : Evolves g p e N d d') (h' : Evolves g p e N' d' d'') : Evolves g p e (N' + N) d d'' := by
  refine ⟨fun n hp he => (h'.inode n hp he).trans (h.inode n hp he), fun n h1 h2 hp he x hx => ?_, ?_, fun b hb => ?_,
    fun k j => ?_, fun h0 => ?_, fun b hb => ?_, fun hn => h'.neat (h.neat hn)⟩
  · refine (h'.data n h1 h2 hp he x ?_).trans (h.data n h1 h2 hp he x hx)
    rw [h.treeOf h1 h2 hp he]
    exact hx
  · rw [h'.refs, h.refs, add_assoc]
  · rcases Multiset.mem_add.1 hb with hb | hb
    · obtain ⟨j, hj, he, hbit⟩ := h'.fresh b hb
      refine ⟨j, hj, he, ?_⟩
      by_contra ht
      rw [(h.bits 0 j).2 (.inl (by simpa using ht))] at hbit
      cases hbit
    · exact h.fresh b hb
  · rw [h'.bits, h.bits, Multiset.mem_add]
    tauto
  · have h1 := h.first h0
    exact (h'.first (h1 ▸ h0)).trans h1
  · obtain ⟨h1, h2⟩ := h.kept b hb
    obtain ⟨h3, h4⟩ := h'.kept b h1
    exact ⟨h3, fun r hr => h4 r (h2 r hr)⟩

theorem sync (h : Evolves g p e N d d') : Evolves g p e N d d'.sync :=
  ⟨h.inode, h.data, h.refs, h.fresh, h.bits, h.first, h.kept, h.neat⟩

end Evolves

end Airix.Mkfs
