import Airix.Lib.BlockTree
import Airix.Mkfs.Alloc
import Airix.Mkfs.Dir

/-!
# The invariant of the image builder

`refs` collects every block number that a pointer slot of the image holds, `entries` the entries of the
root directory. `Inv g d P` says that the bitmaps, the counters, the pointers and the directory agree,
where `P` are the blocks that were taken and that no pointer on the image leads to yet.
-/

namespace Airix.Mkfs
open Axfs Bytes Exec Finset BlockTree

variable {g : Geom} {d d' : Disk} {P : Multiset Nat} {b c i j l ino : Nat} {f : Nat → UInt8} {K : Kind}

namespace Disk

/-- Pointer `i` of block `b`, read as an indirect block. -/
def ptr (d : Disk) (b i : Nat) : Nat := wordsOf (d.data b) i

/-- The blocks reachable from an inode, with their heights: the direct blocks are leaves, the last three
pointers lead to trees of height 1, 2 and 3. -/
def treeOf (d : Disk) (inode : Inode) : Multiset (Nat × Nat) := forest d.ptr 256 24 (fun j => j - 20) inode.iBlock

/-- What the pointer slots of the image hold. -/
def refs (d : Disk) (g : Geom) : Multiset (Nat × Nat) := ∑ i ∈ range g.inodes, d.treeOf (d.inode (i + 1))

/-- The blocks that a pointer slot of the image leads to. -/
def refBlocks (d : Disk) (g : Geom) : Multiset Nat := (d.refs g).map Prod.snd

/-- The directory blocks of the root. -/
def leaves (d : Disk) : Multiset Nat := ((d.treeOf (d.inode rootIno)).filter fun x => x.1 = 0).map Prod.snd

/-- The entries of the root directory. -/
def entries (d : Disk) : Multiset Rec := d.leaves.bind fun b => (dirEntries (d.data b) : Multiset Rec)

end Disk

def dotName : List UInt8 := [46]
def dotDotName : List UInt8 := [46, 46]

/-- An entry other than `.` and `..`. -/
def Rec.Named (r : Rec) : Prop := r.name ≠ dotName ∧ r.name ≠ dotDotName

instance : DecidablePred Rec.Named := fun _ => inferInstanceAs (Decidable (_ ∧ _))

/-- The inode numbers in the named entries of the root directory. -/
def Disk.named (d : Disk) : Multiset Nat := (d.entries.filter Rec.Named).map fun r => r.entry.inode

/-- The blocks `B` are taken, once each, beside the metadata; the others are free and hold zeros. -/
structure BlockInv (g : Geom) (d : Disk) (B : Multiset Nat) : Prop where
  nodup : B.Nodup
  range : ∀ b ∈ B, 1 + g.used 0 ≤ b ∧ b < 1 + g.groupBlocks 0
  bits : ∀ k < g.groups, ∀ j < 8192, d.bit .block k j = true ↔ j < g.used k ∨ k = 0 ∧ 1 + j ∈ B
  zero : ∀ j < g.groupBlocks 0, d.bit .block 0 j = false → ∀ i < 1024, d.data (1 + j) i = 0

/-- Once 0, the array stays 0. -/
def Packed (n : Nat) (arr : Nat → Nat) : Prop := ∀ i i', i ≤ i' → i' < n → arr i = 0 → arr i' = 0

/-- The root directory names the inodes in use, once each; the others hold zeros. -/
structure DirInv (g : Geom) (d : Disk) : Prop where
  bits : ∀ k < g.groups, ∀ j < 8192, d.bit .inode k j = true ↔ k = 0 ∧ (j + 1 = rootIno ∨ j + 1 ∈ d.named)
  nodup : d.named.Nodup
  range : ∀ ino ∈ d.named, 2 ≤ ino ∧ ino ≤ g.ipg
  zero : ∀ ino, 1 ≤ ino → ino ≤ g.inodes → ino ≠ rootIno → ino ∉ d.named → d.inode ino = {}
  valid : ∀ ino, 1 ≤ ino → ino ≤ g.inodes → (d.inode ino).Valid
  mode : (d.inode rootIno).iMode = sIfdir
  dirs : ∀ b ∈ d.leaves, ∃ rs, DirBlock (d.data b) rs
  packed : Packed 24 (d.inode rootIno).iBlock
  packedBlocks : ∀ l c, (l + 1, c) ∈ d.treeOf (d.inode rootIno) → Packed 256 (d.ptr c)
  first : (d.inode rootIno).iBlock 0 ≠ 0
  dots : ∃ l₁ l₂, ⟨⟨rootIno, l₁, 1, ftDir⟩, dotName⟩ ∈ dirEntries (d.data ((d.inode rootIno).iBlock 0)) ∧
    ⟨⟨rootIno, l₂, 2, ftDir⟩, dotDotName⟩ ∈ dirEntries (d.data ((d.inode rootIno).iBlock 0))

structure Inv (g : Geom) (d : Disk) (P : Multiset Nat) : Prop where
  counts : Counts g d
  block : BlockInv g d (d.refBlocks g + P)
  dir : DirInv g d

/-! ### What the collections depend on -/

theorem ptr_congr (h : d'.data c = d.data c) : d'.ptr c = d.ptr c := by
  funext i
  rw [Disk.ptr, Disk.ptr, h]

theorem treeOf_congr {inode : Inode} (h : ∀ l c, (l + 1, c) ∈ d.treeOf inode → d'.data c = d.data c) :
    d'.treeOf inode = d.treeOf inode :=
  forest_congr (fun _ _ => rfl) fun l c hc i _ => congrFun (ptr_congr (h l c hc)) i

theorem mem_refs {x : Nat × Nat} : x ∈ d.refs g ↔ ∃ i < g.inodes, x ∈ d.treeOf (d.inode (i + 1)) := by
  rw [Disk.refs, Multiset.mem_sum]
  simp only [mem_range]

theorem mem_refBlocks_of_treeOf {x : Nat × Nat} (h1 : 1 ≤ ino) (h2 : ino ≤ g.inodes)
    (h : x ∈ d.treeOf (d.inode ino)) : x.2 ∈ d.refBlocks g := by
  refine Multiset.mem_map_of_mem _ (mem_refs.2 ⟨ino - 1, by omega, ?_⟩)
  rwa [Nat.sub_add_cancel h1]

/-- The pointers of one inode's tree changed. -/
theorem refs_add {D : Multiset (Nat × Nat)} (h1 : 1 ≤ ino) (h2 : ino ≤ g.inodes)
    (htree : d'.treeOf (d'.inode ino) = D + d.treeOf (d.inode ino))
    (hother : ∀ n, 1 ≤ n → n ≤ g.inodes → n ≠ ino → d'.treeOf (d'.inode n) = d.treeOf (d.inode n)) :
    d'.refs g = D + d.refs g := by
  refine sum_add_of_eq (i := ino - 1) (by omega) (fun n hn hne => hother (n + 1) (by omega) (by omega) (by omega)) ?_
  rwa [Nat.sub_add_cancel h1]

theorem refs_congr (h : ∀ n, 1 ≤ n → n ≤ g.inodes → d'.treeOf (d'.inode n) = d.treeOf (d.inode n)) :
    d'.refs g = d.refs g :=
  sum_congr rfl fun i hi => h (i + 1) (by omega) (by have := mem_range.1 hi; omega)

/-- The trees of two inodes share no block. -/
theorem treeOf_disjoint {n : Nat} {x y : Nat × Nat} (hnd : (d.refBlocks g).Nodup) (h1 : 1 ≤ ino) (h2 : ino ≤ g.inodes)
    (h1' : 1 ≤ n) (h2' : n ≤ g.inodes) (hne : ino ≠ n) (hx : x ∈ d.treeOf (d.inode ino))
    (hy : y ∈ d.treeOf (d.inode n)) : x.2 ≠ y.2 := by
  have hle : d.treeOf (d.inode ino) + d.treeOf (d.inode n) ≤ d.refs g := by
    have hsub : ({ino - 1, n - 1} : Finset Nat) ⊆ range g.inodes := by
      intro k hk
      rw [mem_insert, mem_singleton] at hk
      exact mem_range.2 (by omega)
    have h := sum_le_sum_of_subset (f := fun i => d.treeOf (d.inode (i + 1))) hsub
    rwa [sum_pair (by omega), Nat.sub_add_cancel h1, Nat.sub_add_cancel h1'] at h
  have hpair := Multiset.nodup_of_le (Multiset.map_le_map (f := Prod.snd) hle) hnd
  rw [Multiset.map_add, Multiset.nodup_add] at hpair
  intro he
  exact Multiset.disjoint_left.1 hpair.2.2 (Multiset.mem_map_of_mem _ hx) (he ▸ Multiset.mem_map_of_mem _ hy)

theorem treeOf_nodup (hnd : (d.refBlocks g).Nodup) (h1 : 1 ≤ ino) (h2 : ino ≤ g.inodes) :
    ((d.treeOf (d.inode ino)).map Prod.snd).Nodup := by
  refine Multiset.nodup_of_le (Multiset.map_le_map ?_) hnd
  have h := single_le_sum (f := fun i => d.treeOf (d.inode (i + 1))) (fun _ _ => Multiset.zero_le _)
    (mem_range.2 (by omega : ino - 1 < g.inodes))
  rwa [Nat.sub_add_cancel h1] at h

/-- A block that no pointer leads to does not matter. -/
theorem treeOf_setData (hb : b ∉ d.refBlocks g) (h1 : 1 ≤ ino) (h2 : ino ≤ g.inodes) :
    (d.setData b f).treeOf (d.inode ino) = d.treeOf (d.inode ino) := by
  refine treeOf_congr fun l c hc => d.setData_ne f ?_
  rintro rfl
  exact hb (mem_refBlocks_of_treeOf h1 h2 hc)

theorem one_le_rootIno : 1 ≤ rootIno := Nat.le_refl 1

theorem rootIno_le : rootIno ≤ g.inodes := Nat.mul_pos g.ipg_pos g.groups_pos

theorem mem_leaves : b ∈ d.leaves ↔ (0, b) ∈ d.treeOf (d.inode rootIno) := by
  rw [Disk.leaves, Multiset.mem_map]
  constructor
  · rintro ⟨⟨l, c⟩, hx, rfl⟩
    obtain ⟨hx, rfl⟩ := Multiset.mem_filter.1 hx
    exact hx
  · exact fun h => ⟨(0, b), Multiset.mem_filter.2 ⟨h, rfl⟩, rfl⟩

theorem mem_entries {r : Rec} : r ∈ d.entries ↔ ∃ b ∈ d.leaves, r ∈ dirEntries (d.data b) := by
  rw [Disk.entries, Multiset.mem_bind]
  simp only [Multiset.mem_coe]

theorem mem_named : ino ∈ d.named ↔ ∃ r ∈ d.entries, r.Named ∧ r.entry.inode = ino := by
  rw [Disk.named, Multiset.mem_map]
  simp only [Multiset.mem_filter, and_assoc]

theorem mem_refBlocks_of_root (h : (l, c) ∈ d.treeOf (d.inode rootIno)) : c ∈ d.refBlocks g :=
  mem_refBlocks_of_treeOf (x := (l, c)) one_le_rootIno rootIno_le h

theorem mem_refBlocks_of_leaf (h : b ∈ d.leaves) : b ∈ d.refBlocks g := mem_refBlocks_of_root (mem_leaves.1 h)

theorem entries_congr (hl : d'.leaves = d.leaves) (hd : ∀ b ∈ d.leaves, d'.data b = d.data b) :
    d'.entries = d.entries := by
  rw [Disk.entries, Disk.entries, hl]
  exact Multiset.bind_congr fun b hb => by rw [hd b hb]

theorem named_congr (h : d'.entries = d.entries) : d'.named = d.named := by rw [Disk.named, Disk.named, h]

/-! ### Steps of the parts -/

theorem BlockInv.notMem {B : Multiset Nat} (h : BlockInv g d B) (hj : j < g.groupBlocks 0)
    (hbit : d.bit .block 0 j = false) : 1 + j ∉ B := by
  intro hm
  have hle := (g.layout g.groups_pos).le
  rw [(h.bits 0 g.groups_pos j (by omega)).2 (.inr ⟨rfl, hm⟩)] at hbit
  cases hbit

theorem BlockInv.isData {B : Multiset Nat} (h : BlockInv g d B) (hb : b ∈ B) : g.IsData b := by
  obtain ⟨h1, h2⟩ := h.range b hb
  exact ⟨0, g.groups_pos, by omega, by omega⟩

/-- Taking a free block; what is written meanwhile goes to taken blocks. -/
theorem BlockInv.mark {B : Multiset Nat} (h : BlockInv g d B) (hc : Counts g d) (hj : j < g.groupBlocks 0)
    (hbit : d.bit .block 0 j = false) (hbits : d'.bit .block = (d.mark .block j).bit .block)
    (hdata : ∀ c, c ≠ 1 + j → c ∉ B → d'.data c = d.data c) : BlockInv g d' ((1 + j) ::ₘ B) := by
  have h0 := g.groups_pos
  have hused : g.used 0 ≤ j := by
    by_contra hlt
    rw [hc.used 0 h0 j (by omega)] at hbit
    cases hbit
  refine ⟨Multiset.nodup_cons.2 ⟨h.notMem hj hbit, h.nodup⟩, ?_, fun k hk j' hj' => ?_, fun j' hj' hbit' => ?_⟩
  · intro b hb
    rcases Multiset.mem_cons.1 hb with rfl | hb
    · omega
    · exact h.range b hb
  · rw [hbits, Disk.mark_bit, Bool.or_eq_true, h.bits k hk j' hj', decide_eq_true_iff, Multiset.mem_cons]
    constructor
    · rintro ((hu | ⟨rfl, hm⟩) | ⟨-, rfl, rfl⟩)
      · exact .inl hu
      · exact .inr ⟨rfl, .inr hm⟩
      · exact .inr ⟨rfl, .inl rfl⟩
    · rintro (hu | ⟨rfl, he | hm⟩)
      · exact .inl (.inl hu)
      · exact .inr ⟨rfl, rfl, by omega⟩
      · exact .inl (.inr ⟨rfl, hm⟩)
  · rw [hbits, Disk.mark_bit, Bool.or_eq_false_iff, decide_eq_false_iff_not] at hbit'
    have hne : 1 + j' ≠ 1 + j := fun he => hbit'.2 ⟨rfl, rfl, by omega⟩
    rw [hdata _ hne (h.notMem hj' hbit'.1)]
    exact h.zero j' hj' hbit'.1

theorem BlockInv.congr {B : Multiset Nat} (h : BlockInv g d B) (hbits : d'.bit .block = d.bit .block)
    (hdata : ∀ c, c ∉ B → d'.data c = d.data c) : BlockInv g d' B := by
  refine ⟨h.nodup, h.range, by rw [hbits]; exact h.bits, fun j hj hbit => ?_⟩
  rw [hbits] at hbit
  rw [hdata _ (h.notMem hj hbit)]
  exact h.zero j hj hbit

/-- Changes that leave the entries. -/
theorem DirInv.congr (h : DirInv g d) (hbits : d'.bit .inode = d.bit .inode) (hnamed : d'.named = d.named)
    (hvalid : ∀ ino, 1 ≤ ino → ino ≤ g.inodes → (d'.inode ino).Valid)
    (hinode : ∀ ino, ino ≠ rootIno → ino ∉ d.named → d'.inode ino = d.inode ino)
    (hmode : (d'.inode rootIno).iMode = (d.inode rootIno).iMode) (hdirs : ∀ b ∈ d'.leaves, ∃ rs, DirBlock (d'.data b) rs)
    (hpacked : Packed 24 (d'.inode rootIno).iBlock)
    (hpackedB : ∀ l c, (l + 1, c) ∈ d'.treeOf (d'.inode rootIno) → Packed 256 (d'.ptr c))
    (hfirst : (d'.inode rootIno).iBlock 0 = (d.inode rootIno).iBlock 0)
    (hdata : d'.data ((d.inode rootIno).iBlock 0) = d.data ((d.inode rootIno).iBlock 0)) : DirInv g d' := by
  refine ⟨?_, ?_, ?_, ?_, hvalid, hmode.trans h.mode, hdirs, hpacked, hpackedB, ?_, ?_⟩
  · rw [hbits, hnamed]
    exact h.bits
  · rw [hnamed]
    exact h.nodup
  · rw [hnamed]
    exact h.range
  · rw [hnamed]
    intro ino h1 h2 hne hn
    rw [hinode ino hne hn]
    exact h.zero ino h1 h2 hne hn
  · rw [hfirst]
    exact h.first
  · rw [hfirst, hdata]
    exact h.dots

theorem DirInv.first_mem (h : DirInv g d) : (d.inode rootIno).iBlock 0 ∈ d.leaves :=
  mem_leaves.2 (mem_forest.2 ⟨0, by omega, h.first, nodes_self⟩)

theorem Packed.update {n : Nat} {arr : Nat → Nat} (h : Packed n arr) (hprev : ∀ i' < i, arr i' ≠ 0) (hb : b ≠ 0) :
    Packed n (Function.update arr i b) := by
  intro x x' hle hx' h0
  have hxi : x ≠ i := by
    rintro rfl
    rw [Function.update_self] at h0
    exact hb h0
  rw [Function.update_of_ne hxi] at h0
  have hlt : i < x := by
    by_contra hge
    exact hprev x (by omega) h0
  rw [Function.update_of_ne (by omega)]
  exact h x x' hle hx' h0

/-- A block of a tree has one height. -/
theorem height_unique {T : Multiset (Nat × Nat)} (hnd : (T.map Prod.snd).Nodup) {l l' : Nat} (h : (l, c) ∈ T)
    (h' : (l', c) ∈ T) : l = l' :=
  congrArg Prod.fst (Multiset.inj_on_of_nodup_map hnd _ h _ h' rfl)

end Airix.Mkfs
