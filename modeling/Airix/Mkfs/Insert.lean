import Airix.Mkfs.Dirs
import Mathlib.Order.Interval.Finset.Nat

/-!
# Adding an entry to a directory

The `write_entry_to_*` functions walk over the pointers of the directory's inode and of its indirect
blocks. A pointer that is 0 gets a new block, which always has room; so a walk either adds the entry or
leaves the image as it was. This holds for every directory of the image, not only for the root.
-/

namespace Airix.Mkfs
open Axfs Bytes Exec Finset BlockTree

variable {t : Prop} {g : Geom} {d d' d'' : Disk} {N : Multiset Nat} {b c e i j l p ft : Nat} {f : Nat → UInt8}
  {name : List UInt8} {inode inode' : Inode} {a : BlockArray}

/-! ### A block added to the tree -/

/-- A block taken and added to the tree of the directory. -/
theorem DirImage.attach (h : DirImage g d p) (hj : j < g.groupBlocks 0)
    (hbit : d.bit .block 0 j = false) (hcounts : Counts g d') (hbits : d'.bit = (d.mark .block j).bit)
    (hother : ∀ n, n ≠ p → d'.inode n = d.inode n)
    (hdata : ∀ c, c ≠ 1 + j → (∀ l, (l + 1, c) ∉ d.treeOf (d.inode p)) → d'.data c = d.data c)
    (htree : d'.treeOf (d'.inode p) = (l, 1 + j) ::ₘ d.treeOf (d.inode p))
    (hleaf : l = 0 → DirBlock (d'.data (1 + j)) [padding 1024]) (hvalid : (d'.inode p).Valid)
    (hmode : (d'.inode p).iMode = (d.inode p).iMode)
    (hfirst : (d.inode p).iBlock 0 ≠ 0 → (d'.inode p).iBlock 0 = (d.inode p).iBlock 0)
    (hpacked : Packed 24 (d'.inode p).iBlock)
    (hpackedB : ∀ l c, (l + 1, c) ∈ d'.treeOf (d'.inode p) → Packed 256 (d'.ptr c)) :
    DirImage g d' p ∧ d'.entriesAt p = d.entriesAt p ∧ Evolves g p e {1 + j} d d' := by
  have h0 := g.groups_pos
  have hb := h.fresh_notMem hj hbit
  have hnd := h.nodup
  have hbits' : ∀ k j', d'.bit .block k j' = true ↔ d.bit .block k j' = true ∨ k = 0 ∧ 1 + j' ∈ ({1 + j} : Multiset Nat) := by
    intro k j'
    rw [hbits, Disk.mark_bit, Bool.or_eq_true, decide_eq_true_iff, Multiset.mem_singleton, Nat.add_right_inj]
    simp only [true_and]
  have hdleaf : ∀ c ∈ d.leavesAt p, d'.data c = d.data c := by
    intro c hc
    refine hdata c ?_ fun l hl => ?_
    · rintro rfl
      exact hb (h.mem_refBlocks (mem_leavesAt.1 hc))
    · have := height_unique (h.nodup_tree) (mem_leavesAt.1 hc) hl
      omega
  have hdother : ∀ n, 1 ≤ n → n ≤ g.inodes → n ≠ p → ∀ x ∈ d.treeOf (d.inode n), d'.data x.2 = d.data x.2 := by
    intro n h1 h2 hne x hx
    refine hdata x.2 ?_ fun l hl => treeOf_disjoint hnd h1 h2 h.pos h.le hne hx hl rfl
    intro he
    exact hb (he ▸ mem_refBlocks_of_treeOf h1 h2 hx)
  have hrefs : d'.refBlocks g = (1 + j) ::ₘ d.refBlocks g := by
    have hadd : d'.refs g = {(l, 1 + j)} + d.refs g := by
      refine refs_add h.pos h.le htree fun n h1 h2 hne => ?_
      rw [hother n hne]
      exact treeOf_congr fun l' c hc => hdother n h1 h2 hne _ hc
    rw [Disk.refBlocks, hadd, Multiset.map_add]
    rfl
  have hsub : ∀ c ∈ d.leavesAt p, c ∈ d'.leavesAt p := by
    intro c hc
    rw [mem_leavesAt, htree]
    exact Multiset.mem_cons_of_mem (mem_leavesAt.1 hc)
  have hnew : ∀ c ∈ d'.leavesAt p, c ∈ d.leavesAt p ∨ l = 0 ∧ c = 1 + j := by
    intro c hc
    rw [mem_leavesAt, htree, Multiset.mem_cons, Prod.mk.injEq] at hc
    rcases hc with ⟨rfl, rfl⟩ | hc
    · exact .inr ⟨rfl, rfl⟩
    · exact .inl (mem_leavesAt.2 hc)
  have hentries : d'.entriesAt p = d.entriesAt p := by
    cases l with
    | zero =>
      have hleaves : d'.leavesAt p = (1 + j) ::ₘ d.leavesAt p := by
        have hpos : ((0, 1 + j) : Nat × Nat).1 = 0 := rfl
        rw [Disk.leavesAt, htree, Multiset.filter_cons_of_pos (p := fun x : Nat × Nat => x.1 = 0) _ hpos,
          Multiset.map_cons]
        rfl
      have hnone : dirEntries (d'.data (1 + j)) = [] := by
        rw [(hleaf rfl).tiles.dirEntries_eq]
        rfl
      rw [Disk.entriesAt, hleaves, Multiset.cons_bind, hnone, Multiset.coe_nil, zero_add]
      exact Multiset.bind_congr fun c hc => by rw [hdleaf c hc]
    | succ l =>
      refine entriesAt_congr ?_ hdleaf
      rw [Disk.leavesAt, htree, Multiset.filter_cons_of_neg _ (by simp)]
      rfl
  refine ⟨⟨⟨hcounts, ?_, ?_, ?_, ?_, ?_⟩, ⟨h.pos, h.le, hmode.trans h.mode, ?_, hpacked, hpackedB⟩⟩, hentries,
    ⟨fun n hn _ => hother n hn, fun n h1 h2 hn _ => hdother n h1 h2 hn, hrefs, ?_, hbits', hfirst, ?_, ?_⟩⟩
  · rw [hrefs]
    exact Multiset.nodup_cons.2 ⟨hb, hnd⟩
  · rw [hrefs]
    intro b hbm
    rcases Multiset.mem_cons.1 hbm with rfl | hbm
    · have hused : g.used 0 ≤ j := by
        by_contra hlt
        rw [h.counts.used 0 h0 j (by omega)] at hbit
        cases hbit
      exact ⟨0, h0, j, hj, by omega, hused, (hbits' 0 j).2 (.inr ⟨rfl, Multiset.mem_singleton_self _⟩)⟩
    · obtain ⟨k, hk, j', hj', he, hu, hb'⟩ := h.taken b hbm
      exact ⟨k, hk, j', hj', he, hu, (hbits' k j').2 (.inl hb')⟩
  · intro j' hj' hbit'
    have hnot : ¬ (d.bit .block 0 j' = true ∨ 0 = 0 ∧ 1 + j' ∈ ({1 + j} : Multiset Nat)) := by
      rw [← hbits', hbit']
      exact Bool.false_ne_true
    rw [not_or, Bool.not_eq_true, Multiset.mem_singleton] at hnot
    have hfree := hnot.1
    rw [hdata (1 + j') (fun he => hnot.2 ⟨rfl, he⟩) fun l hl => h.fresh_notMem hj' hfree (h.mem_refBlocks hl)]
    exact h.zero j' hj' hfree
  · intro j' hj' hbit'
    rw [hbits, Disk.mark_bit] at hbit'
    have hfree : d.bit .inode 0 j' = false := by simpa using hbit'
    rw [hother _ (h.ne_of_free hj' hfree).symm]
    exact h.free j' hj' hfree
  · intro n h1 h2
    rcases eq_or_ne n p with rfl | hne
    · exact hvalid
    · rw [hother n hne]
      exact h.valid n h1 h2
  · intro c hc
    rcases hnew c hc with hc | ⟨hl, rfl⟩
    · rw [hdleaf c hc]
      exact h.dirs c hc
    · exact ⟨_, hleaf hl⟩
  · intro b hbN
    exact ⟨j, hj, Multiset.mem_singleton.1 hbN, hbit⟩
  · intro c hc
    rw [hdleaf c hc]
    exact ⟨hsub c hc, fun _ hr => hr⟩
  · intro hneat c hc
    rcases hnew c hc with hc | ⟨hl, rfl⟩
    · rw [hdleaf c hc]
      exact hneat c hc
    · exact ⟨_, hleaf hl, LastUnknown.of_length (Nat.le_refl 1)⟩

/-! ### An entry added -/

theorem Adds.dirEntries {rs rs' : List Rec} {new : Rec} {f' : Nat → UInt8} (h : Adds rs new rs')
    (hft : new.entry.fileType ≠ ftUnknown) (hf : DirBlock f rs) (hf' : DirBlock f' rs') :
    (dirEntries f' : Multiset Rec) = new ::ₘ (dirEntries f : Multiset Rec) := by
  obtain ⟨pre, q, post, pad, rfl, hq, rfl, hpad⟩ := h
  have hpad' : pad.filter (fun r => r.entry.fileType ≠ ftUnknown) = [] := by
    refine List.filter_eq_nil_iff.2 fun p hp => ?_
    obtain ⟨len, rfl⟩ := hpad p hp
    exact fun hu => of_decide_eq_true hu rfl
  rw [hf.tiles.dirEntries_eq, hf'.tiles.dirEntries_eq, List.filter_append, List.filter_append,
    List.filter_cons_of_pos (by simpa using hft), List.filter_cons_of_neg (by simpa using hq), List.filter_append, hpad',
    List.nil_append, Multiset.cons_coe]
  exact Quot.sound List.perm_middle

theorem treeOf_of_zero {inode : Inode} (h : ∀ j < 24, inode.iBlock j = 0) : d.treeOf inode = 0 := by
  rw [Disk.treeOf, forest]
  exact sum_eq_zero fun j hj => if_pos (h j (mem_range.1 hj))

/-- An entry added to a block of the directory, and the inode it names. -/
theorem DirImage.addEntry (h : DirImage g d p) {rs rs' : List Rec} {new : Rec} {inode : Inode}
    (hb : b ∈ d.leavesAt p) (hrs : DirBlock (d.data b) rs) (hrs' : DirBlock f rs') (hadds : Adds rs new rs')
    (hneat : LastUnknown rs → LastUnknown rs') (hft : new.entry.fileType ≠ ftUnknown) (hj : j < g.ipg)
    (hbit : d.bit .inode 0 j = false) (hinode : inode.Valid) (hzero : ∀ i < 24, inode.iBlock i = 0)
    (hd' : d' = ((d.setData b f).setInode (j + 1) inode).mark .inode j) :
    DirImage g d' p ∧ d'.entriesAt p = new ::ₘ d.entriesAt p ∧ Evolves g p (j + 1) 0 d d' := by
  have h0 := g.groups_pos
  have hnd := h.nodup
  have hipg := g.ipg_le
  have hne : p ≠ j + 1 := h.ne_of_free hj hbit
  have hj2 : j + 1 ≤ g.inodes := (show j + 1 ≤ g.ipg from hj).trans (Nat.le_mul_of_pos_right _ h0)
  have hdata : d'.data = (d.setData b f).data := by rw [hd', Disk.mark_data]; rfl
  have hinodes : d'.inode = Function.update d.inode (j + 1) inode := by rw [hd', Disk.mark_inode]; rfl
  have hdir : d'.inode p = d.inode p := by rw [hinodes, Function.update_of_ne hne]
  have hold : d.inode (j + 1) = {} := h.free j hj hbit
  have hblockBits : ∀ k j', d'.bit .block k j' = d.bit .block k j' := by
    intro k j'
    rw [hd', Disk.mark_bit]
    simp [Disk.setInode, Disk.setData]
  have hleaf : b ∈ d.refBlocks g := h.mem_refBlocks (mem_leavesAt.1 hb)
  -- a directory block holds no pointer of any tree
  have hother : ∀ n, 1 ≤ n → n ≤ g.inodes → n ≠ p → ∀ x ∈ d.treeOf (d.inode n), d'.data x.2 = d.data x.2 := by
    intro n h1 h2 hn x hx
    rw [hdata]
    exact Disk.setData_ne _ _ (treeOf_disjoint hnd h1 h2 h.pos h.le hn hx (mem_leavesAt.1 hb))
  have hinner : ∀ l c, (l + 1, c) ∈ d.treeOf (d.inode p) → d'.data c = d.data c := by
    intro l c hc
    rw [hdata]
    refine d.setData_ne f ?_
    rintro rfl
    have := height_unique (h.nodup_tree) (mem_leavesAt.1 hb) hc
    omega
  have htree : ∀ n, 1 ≤ n → n ≤ g.inodes → d'.treeOf (d.inode n) = d.treeOf (d.inode n) := by
    intro n h1 h2
    refine treeOf_congr fun l c hc => ?_
    rcases eq_or_ne n p with rfl | hn
    · exact hinner l c hc
    · exact hother n h1 h2 hn _ hc
  have hrefs : d'.refBlocks g = d.refBlocks g := by
    have hr : d'.refs g = d.refs g := by
      refine refs_congr fun n h1 h2 => ?_
      rcases eq_or_ne n (j + 1) with rfl | hn
      · rw [hinodes, Function.update_self, treeOf_of_zero hzero, hold, treeOf_of_zero fun _ _ => rfl]
      · rw [hinodes, Function.update_of_ne hn]
        exact htree n h1 h2
    rw [Disk.refBlocks, hr]
    rfl
  have hptree : d'.treeOf (d'.inode p) = d.treeOf (d.inode p) := by
    rw [hdir]
    exact htree p h.pos h.le
  have hleaves : d'.leavesAt p = d.leavesAt p := by rw [Disk.leavesAt, hptree]; rfl
  have hblock : ∀ c ∈ d.leavesAt p, c ≠ b → d'.data c = d.data c := by
    intro c _ hcb
    rw [hdata, d.setData_ne f hcb]
  have hself : d'.data b = f := by rw [hdata, Disk.setData_self]
  have hentries : d'.entriesAt p = new ::ₘ d.entriesAt p := by
    obtain ⟨L, hL⟩ := Multiset.exists_cons_of_mem hb
    have hbL : b ∉ L := by
      have hndl : (d.leavesAt p).Nodup := by
        refine Multiset.nodup_of_le (Multiset.map_le_map (Multiset.filter_le _ _)) ?_
        exact h.nodup_tree
      rw [hL] at hndl
      exact (Multiset.nodup_cons.1 hndl).1
    rw [Disk.entriesAt, Disk.entriesAt, hleaves, hL, Multiset.cons_bind, Multiset.cons_bind, hself,
      hadds.dirEntries hft hrs hrs', Multiset.cons_add]
    refine congrArg _ (congrArg _ (Multiset.bind_congr fun c hc => ?_))
    rw [hblock c (hL ▸ Multiset.mem_cons_of_mem hc) (by rintro rfl; exact hbL hc)]
  have hcounts : Counts g d' := by
    rw [hd']
    exact Counts.mark ⟨h.counts.mem, h.counts.free, h.counts.used⟩ hj hbit
  refine ⟨⟨⟨hcounts, ?_, ?_, ?_, ?_, ?_⟩, ⟨h.pos, h.le, ?_, ?_, ?_, ?_⟩⟩, hentries,
    ⟨?_, fun n h1 h2 hn _ => hother n h1 h2 hn, ?_, ?_, ?_, ?_, ?_, ?_⟩⟩
  · rw [hrefs]
    exact hnd
  · rw [hrefs]
    intro b hbm
    obtain ⟨k, hk, j', hj', he, hu, hb'⟩ := h.taken b hbm
    exact ⟨k, hk, j', hj', he, hu, (hblockBits k j').trans hb'⟩
  · intro j' hj' hbit'
    rw [hblockBits] at hbit'
    rw [hdata, d.setData_ne f]
    · exact h.zero j' hj' hbit'
    · rintro rfl
      exact h.fresh_notMem hj' hbit' hleaf
  · intro j' hj' hbit'
    rw [hd', Disk.mark_bit, Bool.or_eq_false_iff, decide_eq_false_iff_not] at hbit'
    have hjj : j' + 1 ≠ j + 1 := fun he => hbit'.2 ⟨rfl, rfl, by omega⟩
    rw [hinodes, Function.update_of_ne hjj]
    exact h.free j' hj' hbit'.1
  · intro n h1 h2
    rw [hinodes, Function.update_apply]
    split
    · exact hinode
    · exact h.valid n h1 h2
  · rw [hdir]
    exact h.mode
  · rw [hleaves]
    intro c hc
    rcases eq_or_ne c b with rfl | hcb
    · rw [hself]
      exact ⟨_, hrs'⟩
    · rw [hblock c hc hcb]
      exact h.dirs c hc
  · rw [hdir]
    exact h.packed
  · intro l c hc
    rw [hptree] at hc
    rw [ptr_congr (hinner l c hc)]
    exact h.packedBlocks l c hc
  · intro n _ hn
    rw [hinodes, Function.update_of_ne hn]
  · rw [hrefs, zero_add]
  · intro b hb
    exact absurd hb (Multiset.notMem_zero b)
  · intro k j'
    rw [hblockBits]
    exact ⟨.inl, fun hor => hor.resolve_right fun hm => Multiset.notMem_zero _ hm.2⟩
  · intro _
    rw [hdir]
  · intro c hc
    refine ⟨hleaves ▸ hc, fun r hr => ?_⟩
    rcases eq_or_ne c b with rfl | hcb
    · have hm : r ∈ (dirEntries f : Multiset Rec) := by
        rw [hadds.dirEntries hft hrs hrs']
        exact Multiset.mem_cons_of_mem hr
      rw [hself]
      exact hm
    · rw [hblock c hc hcb]
      exact hr
  · intro hn c hc
    rw [hleaves] at hc
    rcases eq_or_ne c b with rfl | hcb
    · obtain ⟨rs₀, h1, h2⟩ := hn c hc
      obtain rfl := hrs.unique h1
      rw [hself]
      exact ⟨rs', hrs', hneat h2⟩
    · rw [hblock c hc hcb]
      exact hn c hc

/-- The array is a part of the pointers of the directory's tree, to blocks of height `l`. -/
inductive Arr (p : Nat) (d : Disk) (l : Nat) : Inode → BlockArray → Prop
  | inode {blocks : Nat → Nat} {num index : Nat} (hle : index + num ≤ 24) (hl : ∀ i < num, index + i - 20 = l)
      (hb : ∀ i < num, blocks i = (d.inode p).iBlock (index + i))
      (hfull : ∀ i < index, (d.inode p).iBlock i ≠ 0) : Arr p d l (d.inode p) ⟨blocks, num, 0, index⟩
  | block {blocks : Nat → Nat} {c index : Nat} (hc : c ≠ 0) (hm : (l + 1, c) ∈ d.treeOf (d.inode p))
      (hb : ∀ i < 256, blocks i = d.ptr c i) : Arr p d l (d.inode p) ⟨blocks, 256, c, index⟩

theorem Arr.of_inode {blocks : Nat → Nat} {num index : Nat} (hr : d.inode p = inode) (hle : index + num ≤ 24)
    (hl : ∀ i < num, index + i - 20 = l) (hb : ∀ i < num, blocks i = inode.iBlock (index + i))
    (hfull : ∀ i < index, inode.iBlock i ≠ 0) : Arr p d l inode ⟨blocks, num, 0, index⟩ := by
  subst hr
  exact .inode hle hl hb hfull

/-- A block of height `l` without content. -/
def Fresh (l : Nat) (f : Nat → UInt8) : Prop :=
  (l = 0 → DirBlock f [padding 1024]) ∧ (l ≠ 0 → ∀ i < 256, wordsOf f i = 0)

/-- What a new block of height `l` is filled with. -/
def InitSpec (t : Prop) (g : Geom) (l : Nat) (init : Nat → M Unit) : Prop :=
  ∀ d b, g.IsData b → (∀ i < 1024, d.data b i = 0) →
    g.After t d (init b) (fun _ d' => ∃ f, d' = d.setData b f ∧ Fresh l f)

theorem initSpec_dir : InitSpec t g 0 initDirBlock := fun _ _ hb _ =>
  (after_initDirBlock hb).mono fun _ _ ⟨f, hd, hf⟩ => ⟨f, hd, fun _ => hf, fun h => absurd rfl h⟩

theorem initSpec_indirect : InitSpec t g (l + 1) (fun _ => pure ()) := by
  intro d b _ hzero
  refine After.pure ⟨d.data b, ?_, fun h => by omega, fun _ i hi => ?_⟩
  · rw [Disk.setData, Function.update_eq_self]
  · exact word_zero fun r hr => hzero _ (by omega)

/-- A block grown at a pointer of the directory's inode. -/
theorem DirImage.grow_inode (h : DirImage g d p) (hj : j < g.groupBlocks 0) (hbit : d.bit .block 0 j = false) (hi : i < 24)
    (h0 : (d.inode p).iBlock i = 0) (hfull : ∀ i' < i, (d.inode p).iBlock i' ≠ 0) (hf : Fresh (i - 20) f)
    (hd' : d' = (((d.setData (1 + j) f).setInode p ((d.inode p).setBlock i (1 + j))).mark .block j).sync) :
    DirImage g d' p ∧ d'.entriesAt p = d.entriesAt p ∧ Evolves g p e {1 + j} d d' ∧
      d'.treeOf (d'.inode p) = (i - 20, 1 + j) ::ₘ d.treeOf (d.inode p) := by
  have hb := h.fresh_notMem hj hbit
  have hle := (g.layout g.groups_pos).le
  have hdata : d'.data = (d.setData (1 + j) f).data := by rw [hd']; rfl
  have hdir : d'.inode p = (d.inode p).setBlock i (1 + j) := by
    rw [hd']
    exact (d.setData (1 + j) f).setInode_self p _
  have hinner : ∀ l c, (l + 1, c) ∈ d.treeOf (d.inode p) → d'.data c = d.data c := by
    intro l c hc
    rw [hdata]
    refine d.setData_ne f ?_
    rintro rfl
    exact hb (h.mem_refBlocks hc)
  have hptr : d'.data (1 + j) = f := by rw [hdata, Disk.setData_self]
  have htree : d'.treeOf (d'.inode p) = (i - 20, 1 + j) ::ₘ d.treeOf (d.inode p) := by
    have hnode : nodes d'.ptr 256 (i - 20) (1 + j) = {(i - 20, 1 + j)} := by
      rcases eq_or_ne (i - 20) 0 with he | hne
      · rw [he]
        rfl
      · refine nodes_of_empty fun x hx => ?_
        rw [Disk.ptr, hptr]
        exact hf.2 hne x hx
    have hset : d'.treeOf ((d.inode p).setBlock i (1 + j)) =
        nodes d'.ptr 256 (i - 20) ((d.inode p).setBlock i (1 + j) |>.iBlock i) + d'.treeOf (d.inode p) := by
      refine forest_set hi h0 ?_ fun x hx hxi => Inode.setBlock_ne _ _ hxi
      rw [Inode.setBlock_self]
      omega
    rw [hdir, hset, Inode.setBlock_self, hnode, treeOf_congr hinner]
    rfl
  have hattach : DirImage g d' p ∧ d'.entriesAt p = d.entriesAt p ∧ Evolves g p e {1 + j} d d' := h.attach hj hbit ?_ ?_ ?_ ?_ htree ?_ ?_ ?_ ?_ ?_ ?_
  · exact ⟨hattach.1, hattach.2.1, hattach.2.2, htree⟩
  · rw [hd']
    have hc : Counts g ((d.setData (1 + j) f).setInode p ((d.inode p).setBlock i (1 + j))) :=
      ⟨h.counts.mem, h.counts.free, h.counts.used⟩
    have hm := hc.mark hj hbit
    exact ⟨hm.mem, hm.free, hm.used⟩
  · rw [hd']
    rfl
  · intro n hn
    rw [hd']
    exact Disk.setInode_ne _ _ hn
  · intro c hc _
    rw [hdata]
    exact d.setData_ne f hc
  · intro hl
    rw [hptr]
    exact hf.1 hl
  · rw [hdir]
    exact (h.valid _ h.pos h.le).setBlock hi (by omega)
  · rw [hdir]
    rfl
  · rw [hdir]
    refine fun hne => Inode.setBlock_ne _ _ ?_
    rintro rfl
    exact hne h0
  · rw [hdir]
    exact h.packed.update hfull (by omega)
  · intro l c hc
    rw [htree, Multiset.mem_cons] at hc
    rcases hc with he | hc
    · obtain ⟨hl, rfl⟩ := Prod.mk.inj he
      intro x x' hxx' hx' _
      rw [Disk.ptr, hptr]
      exact hf.2 (by omega) x' hx'
    · rw [ptr_congr (hinner l c hc)]
      exact h.packedBlocks l c hc

/-- A block grown at a pointer of an indirect block of the directory. -/
theorem DirImage.grow_block (h : DirImage g d p) (hj : j < g.groupBlocks 0) (hbit : d.bit .block 0 j = false) (hi : i < 256)
    (hc : (l + 1, c) ∈ d.treeOf (d.inode p)) (h0 : d.ptr c i = 0) (hfull : ∀ i' < i, d.ptr c i' ≠ 0)
    (hf : Fresh l f) {f' : Nat → UInt8} (hf' : ∀ x < 256, wordsOf f' x = Function.update (d.ptr c) i (1 + j) x)
    (hd' : d' = (((d.setData (1 + j) f).setData c f').mark .block j).sync) :
    DirImage g d' p ∧ d'.entriesAt p = d.entriesAt p ∧ Evolves g p e {1 + j} d d' ∧
      d'.treeOf (d'.inode p) = (l, 1 + j) ::ₘ d.treeOf (d.inode p) := by
  have hb := h.fresh_notMem hj hbit
  have hcb : 1 + j ≠ c := by
    rintro rfl
    exact hb (h.mem_refBlocks hc)
  have hnd := h.nodup_tree
  have hdata : d'.data = ((d.setData (1 + j) f).setData c f').data := by rw [hd']; rfl
  have hdir : d'.inode p = d.inode p := by rw [hd']; rfl
  have hsame : ∀ x, x ≠ 1 + j → x ≠ c → d'.data x = d.data x := by
    intro x hx hxc
    rw [hdata, Disk.setData_ne _ _ hxc, Disk.setData_ne _ _ hx]
  have hptrc : ∀ x < 256, d'.ptr c x = Function.update (d.ptr c) i (1 + j) x := by
    intro x hx
    rw [Disk.ptr, hdata, Disk.setData_self]
    exact hf' x hx
  have hptr : d'.data (1 + j) = f := by rw [hdata, Disk.setData_ne _ _ hcb, Disk.setData_self]
  have hnode : nodes d'.ptr 256 l (1 + j) = {(l, 1 + j)} := by
    rcases eq_or_ne l 0 with rfl | hne
    · rfl
    · refine nodes_of_empty fun x hx => ?_
      rw [Disk.ptr, hptr]
      exact hf.2 hne x hx
  have hinner : ∀ l' x, (l' + 1, x) ∈ d.treeOf (d.inode p) → x ≠ c → d'.ptr x = d.ptr x := by
    intro l' x hx hxc
    refine ptr_congr (hsame x ?_ hxc)
    rintro rfl
    exact hb (h.mem_refBlocks hx)
  have htree : d'.treeOf (d'.inode p) = (l, 1 + j) ::ₘ d.treeOf (d.inode p) := by
    rw [hdir]
    refine forest_set_inner hnd hc hi h0 ?_ (by omega) hnode fun l' x hx k hk hor => ?_
    · rw [hptrc i hi, Function.update_self]
    · rcases eq_or_ne x c with rfl | hxc
      · rw [hptrc k hk, Function.update_of_ne (hor.resolve_left fun hn => hn rfl)]
      · rw [hinner l' x hx hxc]
  have hattach : DirImage g d' p ∧ d'.entriesAt p = d.entriesAt p ∧ Evolves g p e {1 + j} d d' := h.attach hj hbit ?_ ?_ ?_ ?_ htree ?_ ?_ ?_ ?_ ?_ ?_
  · exact ⟨hattach.1, hattach.2.1, hattach.2.2, htree⟩
  · rw [hd']
    have hc : Counts g ((d.setData (1 + j) f).setData c f') := ⟨h.counts.mem, h.counts.free, h.counts.used⟩
    have hm := hc.mark hj hbit
    exact ⟨hm.mem, hm.free, hm.used⟩
  · rw [hd']
    rfl
  · intro n _
    rw [hd']
    rfl
  · intro x hx hnot
    refine hsame x hx ?_
    rintro rfl
    exact hnot l hc
  · intro hl
    rw [hptr]
    exact hf.1 hl
  · rw [hdir]
    exact h.valid _ h.pos h.le
  · rw [hdir]
  · rw [hdir]
    exact fun _ => rfl
  · rw [hdir]
    exact h.packed
  · intro l' x hx
    rw [htree, Multiset.mem_cons] at hx
    rcases hx with he | hx
    · obtain ⟨hl, rfl⟩ := Prod.mk.inj he
      intro y y' hyy' hy' _
      rw [Disk.ptr, hptr]
      exact hf.2 (by omega) y' hy'
    · rcases eq_or_ne x c with rfl | hxc
      · intro y y' hyy' hy' hy0
        rw [hptrc y (by omega)] at hy0
        rw [hptrc y' hy']
        exact (h.packedBlocks l' x hx).update hfull (by omega) y y' hyy' hy' hy0
      · rw [hinner l' x hx hxc]
        exact h.packedBlocks l' x hx

/-! ### The walk -/

/-- What growing a block at element `i` of an array comes to. -/
structure Grown (g : Geom) (p e l i : Nat) (a : BlockArray) (d : Disk) (inode' : Inode) (a' : BlockArray) (d' : Disk) :
    Prop where
  inv : DirImage g d' p
  entries : d'.entriesAt p = d.entriesAt p
  arr : Arr p d' l inode' a'
  num : a'.num = a.num
  ne : a'.blocks i ≠ 0
  mem : (l, a'.blocks i) ∈ d'.treeOf (d'.inode p)
  fresh : Fresh l (d'.data (a'.blocks i))
  evolves : ∃ N, Evolves g p e N d d'
  bits : d'.bit .inode = d.bit .inode
  free : d'.free .block 0 + 1 = d.free .block 0
  freeI : d'.free .inode = d.free .inode

theorem mark_free (hpos : 0 < d.free .block 0) : (d.mark .block j).free .block 0 + 1 = d.free .block 0 := by
  show (if Kind.block = Kind.block ∧ 0 = 0 then d.free .block 0 - 1 else d.free .block 0) + 1 = _
  rw [if_pos ⟨rfl, rfl⟩]
  omega

theorem mark_freeI : (d.mark .block j).free .inode = d.free .inode := by
  funext k
  show (if Kind.inode = Kind.block ∧ k = 0 then d.free .inode k - 1 else d.free .inode k) = d.free .inode k
  simp

theorem mark_bitI : (d.mark .block j).bit .inode = d.bit .inode := by
  funext k j'
  rw [Disk.mark_bit]
  simp

/-- Storing a pointer of the inode. -/
theorem storeBlock_inode {ino : Nat} {blocks : Nat → Nat} {num index : Nat} :
    storeBlock ino inode ⟨blocks, num, 0, index⟩ i b = (do
      updateInode ino (inode.setBlock (index + i) b)
      return (inode.setBlock (index + i) b, ⟨Function.update blocks i b, num, 0, index⟩)) := by
  rw [storeBlock]
  exact if_pos rfl

theorem after_growBlocks {init : Nat → M Unit} (h : DirImage g d p) (hinit : InitSpec t g l init) (ha : Arr p d l inode a)
    (hi : i < a.num) (h0 : a.blocks i = 0) (hfull : ∀ i' < i, a.blocks i' ≠ 0) (ht : t → 0 < d.free .block 0) :
    g.After t d (growBlocks init p inode a i) (fun r d' => Grown g p e l i a d r.1 r.2 d') := by
  have hipg := h.counts.ipg_eq
  refine (after_allocBlock h.counts ht).bind ?_
  rintro b d₀ ⟨hd, j, hj, hb, hbit⟩
  subst hd hb
  have hfree := h.counts.free_pos g.groups_pos hj hbit
  have hdata : g.IsData (1 + j) := by simpa using h.counts.isData g.groups_pos hj hbit
  have hlt := IsData.lt hdata
  refine (hinit d₀ (1 + j) hdata (h.zero j hj hbit)).bind ?_
  rintro _ d₁ ⟨f, hd₁, hf⟩
  -- the marking and the write of the super block, whatever the place of the pointer
  have hrest : ∀ (d₂ : Disk) (r : Inode × BlockArray), d₂.mem = d₀.mem → d₂.free = d₀.free → d₂.bit = d₀.bit →
      Grown g p e l i a d₀ r.1 r.2 (d₂.mark .block j).sync → g.After t d₂
        (do updateBlockBitmap (1 + j); decFreeBlocks; updateSuperBlock; return r)
        (fun r d' => Grown g p e l i a d₀ r.1 r.2 d') := by
    intro d₂ r hmem hfr hbits hg
    have hc : Counts g d₂ := by
      refine ⟨?_, ?_, ?_⟩
      · rw [hmem, hfr]
        exact h.counts.mem
      · rw [hfr, hbits]
        exact h.counts.free
      · rw [hbits]
        exact h.counts.used
    refine After.bind₂ (after_markBlock hc hj (by rw [hbits]; exact hbit)) fun _ d₃ hd₃ => ?_
    subst hd₃
    have hv := (hc.mark (K := .block) hj (by rw [hbits]; exact hbit)).valid
    refine (after_updateSuperBlock hv).bind fun _ d₄ hd₄ => ?_
    subst hd₄
    exact After.pure hg
  cases ha with
  | @inode blocks num index hle hl hbl hfi =>
    have hii : index + i < 24 := by
      have : i < num := hi
      omega
    have h0' : (d₀.inode p).iBlock (index + i) = 0 := (hbl i hi).symm.trans h0
    have hfull' : ∀ i' < index + i, (d₀.inode p).iBlock i' ≠ 0 := by
      intro i' hi'
      rcases Nat.lt_or_ge i' index with hlt | hge
      · exact hfi i' hlt
      · have hin : i < num := hi
        have heq := hbl (i' - index) (by omega)
        rw [Nat.add_sub_cancel' hge] at heq
        rw [← heq]
        exact hfull (i' - index) (by omega)
    have hlev : index + i - 20 = l := hl i hi
    obtain ⟨hinv, hent, hev, htree⟩ := h.grow_inode (e := e) (f := f) hj hbit hii h0' hfull' (by rw [hlev]; exact hf) rfl
    rw [storeBlock_inode]
    have hv : ((d₀.inode p).setBlock (index + i) (1 + j)).Valid :=
      (h.valid _ h.pos h.le).setBlock hii (by omega)
    have hipg₁ : d₁.mem.sInodesPerGroup = g.ipg := by rw [hd₁]; exact hipg
    rw [bind_assoc]
    refine (after_updateInode hipg₁ h.pos h.le hv).bind fun _ d₂ hd₂ => ?_
    rw [pure_bind]
    subst hd₂ hd₁
    refine hrest _ _ rfl rfl rfl ⟨hinv, hent, ?_, rfl, ?_, ?_, ?_, ⟨_, hev⟩, mark_bitI (j := j),
      mark_free (j := j) hfree, mark_freeI (j := j)⟩
    · refine Arr.of_inode ((d₀.setData (1 + j) f).setInode_self p _) hle hl (fun i' hi' => ?_) fun i' hi' => ?_
      · rcases eq_or_ne i' i with rfl | hne
        · rw [Inode.setBlock_self]
          exact Function.update_self _ _ _
        · rw [Inode.setBlock_ne _ _ (show index + i' ≠ index + i by omega)]
          exact (Function.update_of_ne hne _ _).trans (hbl i' hi')
      · have hi' : i' < index := hi'
        rw [Inode.setBlock_ne _ _ (show i' ≠ index + i by omega)]
        exact hfi i' hi'
    · show Function.update blocks i (1 + j) i ≠ 0
      rw [Function.update_self]
      omega
    · show (l, Function.update blocks i (1 + j) i) ∈ _
      rw [htree, Function.update_self, hlev]
      exact Multiset.mem_cons_self _ _
    · show Fresh l ((d₀.setData (1 + j) f).data (Function.update blocks i (1 + j) i))
      rw [Function.update_self, Disk.setData_self]
      exact hf
  | @block blocks c index hc hm hbl =>
    have hcd : g.IsData c := h.isData_of_mem hm
    have hcb : c ≠ 1 + j := by
      rintro rfl
      exact h.fresh_notMem hj hbit (h.mem_refBlocks hm)
    have hi : i < 256 := hi
    have hw : ∀ x < 256, wordsOf (put (d₁.data c) 0 1024 (ofWords (Function.update blocks i (1 + j)))) x =
        Function.update (d₀.ptr c) i (1 + j) x := by
      intro x hx
      have h1 : wordsOf (put (d₁.data c) 0 1024 (ofWords (Function.update blocks i (1 + j)))) x =
          wordsOf (ofWords (Function.update blocks i (1 + j))) x := word_put_zero (by omega)
      rw [h1, wordsOf_ofWords]
      rcases eq_or_ne x i with rfl | hne
      · rw [Function.update_self, Function.update_self, Nat.mod_eq_of_lt (by omega)]
      · rw [Function.update_of_ne hne, Function.update_of_ne hne, hbl x hx]
        exact Nat.mod_eq_of_lt word_lt
    obtain ⟨hinv, hent, hev, htree⟩ := h.grow_block (e := e) hj hbit hi hm ((hbl i hi).symm.trans h0)
      (fun i' hi' => by rw [← hbl i' (by omega)]; exact hfull i' hi') hf hw rfl
    rw [storeBlock, if_neg hc, bind_assoc]
    refine (after_updateBlockData hcd (show 4 * 256 ≤ 1024 by omega)).bind fun _ d₂ hd₂ => ?_
    rw [pure_bind]
    subst hd₂ hd₁
    refine hrest _ _ rfl rfl rfl ⟨hinv, hent, ?_, rfl, ?_, ?_, ?_, ⟨_, hev⟩, mark_bitI (j := j),
      mark_free (j := j) hfree, mark_freeI (j := j)⟩
    · refine Arr.block hc ?_ fun x hx => ?_
      · rw [htree]
        exact Multiset.mem_cons_of_mem hm
      · show Function.update blocks i (1 + j) x = wordsOf (((d₀.setData (1 + j) f).setData c _).data c) x
        rw [Disk.setData_self, hw x hx]
        rcases eq_or_ne x i with rfl | hne
        · rw [Function.update_self, Function.update_self]
        · rw [Function.update_of_ne hne, Function.update_of_ne hne, hbl x hx]
    · show Function.update blocks i (1 + j) i ≠ 0
      rw [Function.update_self]
      omega
    · show (l, Function.update blocks i (1 + j) i) ∈ _
      rw [htree, Function.update_self]
      exact Multiset.mem_cons_self _ _
    · show Fresh l (((d₀.setData (1 + j) f).setData c _).data (Function.update blocks i (1 + j) i))
      rw [Function.update_self, Disk.setData_ne _ _ hcb.symm, Disk.setData_self]
      exact hf

/-- An entry for the new inode `j + 1` was added to directory `p`. -/
structure DirAdded (g : Geom) (p : Nat) (name : List UInt8) (ft j : Nat) (d d' : Disk) : Prop where
  inv : DirImage g d' p
  entries : ∃ len, d'.entriesAt p = newRec name ft (j + 1) len ::ₘ d.entriesAt p
  inode : d'.inode (j + 1) = { iMode := if ft = ftDir then sIfdir else sIfreg }
  evolves : ∃ N, Evolves g p (j + 1) N d d'
  bits : ∀ k j', d'.bit .inode k j' = (d.bit .inode k j' || decide (k = 0 ∧ j' = j))
  sb : d'.sb = d'.mem

theorem Grown.added {inode' : Inode} {a' : BlockArray} (h : Grown g p (j + 1) l i a d inode' a' d')
    (h' : DirAdded g p name ft j d' d'') : DirAdded g p name ft j d d'' := by
  obtain ⟨len, hent⟩ := h'.entries
  obtain ⟨N, hN⟩ := h.evolves
  obtain ⟨N', hN'⟩ := h'.evolves
  refine ⟨h'.inv, ⟨len, by rw [hent, h.entries]⟩, h'.inode, ⟨_, hN.trans hN'⟩, fun k j' => ?_, h'.sb⟩
  rw [h'.bits, h.bits]

/-- What a walk over an array of pointers to blocks of height `l` comes to. -/
def WalkSpec (t : Prop) (g : Geom) (p : Nat) (name : List UInt8) (ft j l : Nat) (walk : Inode → BlockArray → M (Bool × Inode)) :
    Prop :=
  ∀ d inode a, DirImage g d p → Arr p d l inode a → d.bit .inode 0 j = false → (t → l + 1 ≤ d.free .block 0) →
    g.After t d (walk inode a) (fun r d' =>
      r.1 = true ∧ DirAdded g p name ft j d d' ∨
      r = (false, inode) ∧ d' = d ∧ ∀ i < a.num, a.blocks i ≠ 0 ∧ Full d.ptr 256 l (a.blocks i))

/-- What is done with one block of height `l`. -/
def VisitSpec (t : Prop) (g : Geom) (p : Nat) (name : List UInt8) (ft j l : Nat) (visit : Nat → Inode → M (Bool × Inode)) :
    Prop :=
  ∀ d b, DirImage g d p → (l, b) ∈ d.treeOf (d.inode p) → d.bit .inode 0 j = false → (t → l ≤ d.free .block 0) →
    g.After t d (visit b (d.inode p)) (fun r d' =>
      r.1 = true ∧ DirAdded g p name ft j d d' ∨
      r = (false, d.inode p) ∧ d' = d ∧ ¬ Fresh l (d.data b) ∧ Full d.ptr 256 l b)

theorem Arr.inode_eq (h : Arr p d l inode a) : inode = d.inode p := by cases h <;> rfl

/-- An element of the array that is not 0 leads to a block of the tree. -/
theorem Arr.mem (h : Arr p d l inode a) (hi : i < a.num) (hne : a.blocks i ≠ 0) :
    (l, a.blocks i) ∈ d.treeOf (d.inode p) := by
  cases h with
  | @inode blocks num index hle hl hb hfull =>
    have hin : i < num := hi
    have hne : blocks i ≠ 0 := hne
    show (l, blocks i) ∈ _
    rw [hb i hin] at hne ⊢
    have hm : (index + i - 20, (d.inode p).iBlock (index + i)) ∈ d.treeOf (d.inode p) :=
      mem_forest.2 ⟨index + i, by omega, hne, nodes_self⟩
    rwa [hl i hin] at hm
  | @block blocks c index hc hm hb =>
    have hin : i < 256 := hi
    have hne : blocks i ≠ 0 := hne
    show (l, blocks i) ∈ _
    rw [hb i hin] at hne ⊢
    exact mem_forest_of_child hm hin hne

/-- The loop, from element `i` on: all elements before it were not 0. -/
theorem after_writeEntryLoop {init : Nat → M Unit} {visit : Nat → Inode → M (Bool × Inode)}
    (hinit : InitSpec t g l init) (hvisit : VisitSpec t g p name ft j l visit) (h : DirImage g d p) (ha : Arr p d l inode a)
    (hbit : d.bit .inode 0 j = false) (ht : t → l + 1 ≤ d.free .block 0) {n : Nat} (hn : i + n = a.num)
    (hfull : ∀ i' < i, a.blocks i' ≠ 0 ∧ Full d.ptr 256 l (a.blocks i')) :
    g.After t d (writeEntryLoop init visit p (List.range' i n) inode a) (fun r d' =>
      r.1 = true ∧ DirAdded g p name ft j d d' ∨
      r = (false, inode) ∧ d' = d ∧ ∀ i < a.num, a.blocks i ≠ 0 ∧ Full d.ptr 256 l (a.blocks i)) := by
  induction n generalizing i with
  | zero => exact After.pure (.inr ⟨rfl, rfl, fun i' hi' => hfull i' (by omega)⟩)
  | succ n ih =>
    rw [List.range'_succ, writeEntryLoop]
    rcases eq_or_ne (a.blocks i) 0 with h0 | hne
    · rw [if_pos h0]
      refine (after_growBlocks (e := j + 1) h hinit ha (by omega) h0 (fun i' hi' => (hfull i' hi').1) (fun h => by have := ht h; omega)).bind
        ?_
      rintro ⟨inode', a'⟩ d' hg
      have hi' := hg.arr.inode_eq
      dsimp only at hi' ⊢
      rw [hi']
      refine (hvisit d' (a'.blocks i) hg.inv hg.mem (by rw [hg.bits]; exact hbit) ?_).bind fun r d'' hr => ?_
      · intro h
        have h1 := ht h
        have h2 := hg.free
        omega
      · rcases hr with ⟨hr, hadd⟩ | ⟨-, -, hfresh⟩
        · rw [hr, if_pos rfl]
          exact After.pure (.inl ⟨rfl, hg.added hadd⟩)
        · exact absurd hg.fresh hfresh.1
    · rw [if_neg hne, pure_bind]
      dsimp only
      obtain rfl := ha.inode_eq
      refine (hvisit d (a.blocks i) h (ha.mem (by omega) hne) hbit (fun h => by have := ht h; omega)).bind
        fun r d' hr => ?_
      rcases hr with ⟨hr, hadd⟩ | ⟨hr, hd, -, hfulli⟩
      · rw [hr, if_pos rfl]
        exact After.pure (.inl ⟨rfl, hadd⟩)
      · subst hr hd
        rw [if_neg Bool.false_ne_true]
        refine ih (by omega) fun i' hi' => ?_
        rcases Nat.lt_or_ge i' i with hlt | hge
        · exact hfull i' hlt
        · obtain rfl : i' = i := by omega
          exact ⟨hne, hfulli⟩

theorem walkSpec_loop {init : Nat → M Unit} {visit : Nat → Inode → M (Bool × Inode)} (hinit : InitSpec t g l init)
    (hvisit : VisitSpec t g p name ft j l visit) :
    WalkSpec t g p name ft j l (fun inode a => writeEntryLoop init visit p (List.range a.num) inode a) := by
  intro d inode a h ha hbit ht
  dsimp only
  rw [List.range_eq_range']
  exact after_writeEntryLoop hinit hvisit h ha hbit ht (Nat.zero_add _) fun i' hi' => absurd hi' (Nat.not_lt_zero _)

section Spec
variable (hj : j < g.ipg) (hft : ft = ftRegFile ∨ ft = ftDir)
include hj hft

theorem visitSpec_dir : VisitSpec t g p name ft j 0 (writeEntryToBlock name ft (j + 1)) := by
  intro d b h hb hbit ht
  have hleaf := mem_leavesAt.2 hb
  obtain ⟨rs, hrs⟩ := h.dirs b hleaf
  have hdata : g.IsData b := h.isData_of_mem hb
  have hft1 : ft < 2 ^ 8 := by rcases hft with rfl | rfl <;> decide
  have hft0 : ft ≠ ftUnknown := by rcases hft with rfl | rfl <;> decide
  have hipg := g.ipg_le
  refine (after_writeDirEntryToBlock hdata hrs (by omega) hft1 hft0).bind fun r d₁ hr => ?_
  rcases hr with ⟨rfl, rfl, hlen⟩ | ⟨rfl, f, len, rs', rfl, hrs', hadds, hneat⟩
  · rw [if_neg Bool.false_ne_true]
    refine After.pure (.inr ⟨rfl, rfl, fun hfresh => ?_, trivial⟩)
    have hlt := hlen 1024 [] (hrs.unique (hfresh.1 rfl))
    have := (recLenOf_spec name).2
    omega
  · rw [if_pos rfl]
    have hv : Inode.Valid { iMode := if ft = ftDir then sIfdir else sIfreg } := by
      refine ⟨?_, ?_, ?_, ?_, ?_, ?_, ?_, ?_, ?_, fun _ => Nat.two_pow_pos 32, fun _ _ => rfl⟩
      · rcases hft with rfl | rfl <;> decide
      all_goals exact Nat.two_pow_pos _
    have hc : Counts g (d.setData b f) := ⟨h.counts.mem, h.counts.free, h.counts.used⟩
    obtain ⟨hinv, hent, hev⟩ := h.addEntry hleaf hrs hrs' hadds hneat hft0 hj hbit hv (fun _ _ => rfl) rfl
    refine After.bind₂ (after_markInode hc hj hbit hv) fun _ d₂ hd₂ => ?_
    subst hd₂
    refine (after_updateSuperBlock hinv.counts.valid).bind fun _ d₃ hd₃ => ?_
    subst hd₃
    refine After.pure (.inl ⟨rfl, hinv.sync, ⟨len, hent⟩, Function.update_self _ _ _, ⟨0, hev.sync⟩, fun k j' => ?_, rfl⟩)
    show (((d.setData b f).setInode (j + 1) _).mark .inode j).bit .inode k j' = _
    rw [Disk.mark_bit]
    simp [Disk.setInode, Disk.setData]

theorem walkSpec_blocks : WalkSpec t g p name ft j 0 (writeEntryToBlocks p name ft (j + 1)) :=
  walkSpec_loop initSpec_dir (visitSpec_dir hj hft)

omit hj hft in
theorem walkSpec_indirect {walk : Inode → BlockArray → M (Bool × Inode)} (hw : WalkSpec t g p name ft j l walk) :
    WalkSpec t g p name ft j (l + 1) (writeEntryToIndirectBlocks walk p) := by
  refine walkSpec_loop initSpec_indirect fun d b h hb hbit ht => ?_
  have hdata : g.IsData b := h.isData_of_mem hb
  have hb0 : b ≠ 0 := h.ne_zero (h.mem_refBlocks hb)
  refine (after_readBlockData hdata).bind ?_
  rintro f d' ⟨hd, hf⟩
  subst hd
  have hptr : ∀ i < 256, wordsOf f i = d'.ptr b i := fun i hi => wordsOf_congr (n := 256) hf hi
  refine (hw d' _ ⟨wordsOf f, 256, b, 0⟩ h (.block hb0 hb hptr) hbit ht).mono fun r d'' hr => ?_
  rcases hr with hr | ⟨hr, hd, hne⟩
  · exact .inl hr
  · refine .inr ⟨hr, hd, fun hfresh => (hne 0 (show 0 < 256 by omega)).1 ?_, fun i hi => ?_⟩
    · show wordsOf f 0 = 0
      rw [hptr 0 (by omega)]
      exact hfresh.2 (by omega) 0 (by omega)
    · rw [← hptr i hi]
      exact hne i hi

theorem walkSpec_1 : WalkSpec t g p name ft j 1 (writeEntryTo1IndirectBlocks p name ft (j + 1)) :=
  walkSpec_indirect (walkSpec_blocks hj hft)

theorem walkSpec_2 : WalkSpec t g p name ft j 2 (writeEntryTo2IndirectBlocks p name ft (j + 1)) :=
  walkSpec_indirect (walkSpec_1 hj hft)

theorem walkSpec_3 : WalkSpec t g p name ft j 3 (writeEntryTo3IndirectBlocks p name ft (j + 1)) :=
  walkSpec_indirect (walkSpec_2 hj hft)

end Spec

/-! ### The whole call -/

theorem DirImage.card_le (h : DirImage g d p) : (d.treeOf (d.inode p)).card < 2 ^ 22 := by
  have hlt := g.blocks_lt
  have hsub : ((d.treeOf (d.inode p)).map Prod.snd).toFinset ⊆ Finset.Icc 1 g.blocks := by
    intro b hb
    obtain ⟨x, hx, rfl⟩ := Multiset.mem_map.1 (Multiset.mem_toFinset.1 hb)
    obtain ⟨k, hk, h1, h2⟩ := h.isData_of_mem hx
    have hblocks := (g.layout hk).blocks
    rw [Finset.mem_Icc]
    omega
  have hcard := Finset.card_le_card hsub
  rw [Multiset.toFinset_card_of_nodup h.nodup_tree, Multiset.card_map, Nat.card_Icc] at hcard
  omega

/-- A directory never runs out of pointers: the blocks that three levels of indirection lead to are more
than an image has. -/
theorem DirImage.not_full (h : DirImage g d p) (hne : (d.inode p).iBlock 23 ≠ 0) :
    ¬ Full d.ptr 256 3 ((d.inode p).iBlock 23) := by
  intro hfull
  have hle : nodes d.ptr 256 3 ((d.inode p).iBlock 23) ≤ d.treeOf (d.inode p) := by
    have hs := single_le_sum (f := fun i => if (d.inode p).iBlock i = 0 then 0
      else nodes d.ptr 256 (i - 20) ((d.inode p).iBlock i)) (fun _ _ => Multiset.zero_le _)
      (mem_range.2 (by omega : 23 < 24))
    rwa [if_neg hne] at hs
  have h1 := hfull.le_card
  have h2 := Multiset.card_le_card hle
  have h3 := h.card_le
  omega

theorem DirImage.after_writeEntryToDir (h : DirImage g d p) (hft : ft = ftRegFile ∨ ft = ftDir)
    (ht : t → 0 < d.free .inode 0 ∧ 4 ≤ d.free .block 0) :
    g.After t d (writeEntryToDir p name ft) (fun r d' =>
      ∃ j < g.ipg, r = j + 1 ∧ d.bit .inode 0 j = false ∧ DirAdded g p name ft j d d') := by
  refine (after_getInode h.counts.ipg_eq h.pos h.le).bind ?_
  rintro inode d₀ ⟨hi, hd⟩
  subst hi hd
  rw [if_neg (not_not.2 h.mode)]
  refine (after_allocInodeNo h.counts fun h => (ht h).1).bind ?_
  rintro ino d₁ ⟨hd, j, hj, hino, hbit⟩
  subst hd hino
  have harr : ∀ index num l, index + num ≤ 24 → (∀ i < num, index + i - 20 = l) →
      (∀ i < index, (d₁.inode p).iBlock i ≠ 0) →
      Arr p d₁ l (d₁.inode p) (inodeArray (d₁.inode p) index num) :=
    fun index num l hle hl hfull => .inode hle hl (fun _ _ => rfl) hfull
  have hmem : ∀ {r : Bool × Inode} {d' : Disk}, r.1 = true → DirAdded g p name ft j d₁ d' →
      g.After t d' (pure (j + 1)) (fun r d' => ∃ j < g.ipg, r = j + 1 ∧ d₁.bit .inode 0 j = false ∧
        DirAdded g p name ft j d₁ d') := fun _ ha => After.pure ⟨j, hj, rfl, hbit, ha⟩
  have hroom : ∀ {l : Nat}, l ≤ 3 → t → l + 1 ≤ d₁.free .block 0 := fun hl h => by have := (ht h).2; omega
  refine (walkSpec_blocks hj hft d₁ _ _ h (harr 0 21 0 (by omega) (fun i hi => by omega)
    fun i hi => absurd hi (Nat.not_lt_zero _)) hbit (hroom (by omega))).bind fun r d₂ hr => ?_
  rcases hr with ⟨hr, ha⟩ | ⟨hr, hd, hfull₀⟩
  · dsimp only
    rw [hr, if_pos rfl]
    exact hmem hr ha
  subst hr hd
  dsimp only
  rw [if_neg Bool.false_ne_true]
  have h21 : ∀ i < 21, (d₂.inode p).iBlock i ≠ 0 := by
    intro i hi
    have hne : (d₂.inode p).iBlock (0 + i) ≠ 0 := (hfull₀ i hi).1
    rwa [Nat.zero_add] at hne
  have hnext : ∀ {i : Nat}, (∀ i' < i, (d₂.inode p).iBlock i' ≠ 0) → (d₂.inode p).iBlock i ≠ 0 →
      ∀ i' < i + 1, (d₂.inode p).iBlock i' ≠ 0 := by
    intro i hlt hi i' hi'
    rcases Nat.lt_or_ge i' i with h | h
    · exact hlt i' h
    · obtain rfl : i' = i := by omega
      exact hi
  refine (walkSpec_1 hj hft d₂ _ _ h (harr 21 1 1 (by omega) (fun i hi => by omega) h21) hbit
    (hroom (by omega))).bind fun r d₃ hr => ?_
  rcases hr with ⟨hr, ha⟩ | ⟨hr, hd, hfull₁⟩
  · rw [hr, if_pos rfl]
    exact hmem hr ha
  subst hr hd
  dsimp only
  rw [if_neg Bool.false_ne_true]
  have h22 := hnext h21 (hfull₁ 0 Nat.one_pos).1
  refine (walkSpec_2 hj hft d₃ _ _ h (harr 22 1 2 (by omega) (fun i hi => by omega) h22) hbit
    (hroom (by omega))).bind fun r d₄ hr => ?_
  rcases hr with ⟨hr, ha⟩ | ⟨hr, hd, hfull₂⟩
  · rw [hr, if_pos rfl]
    exact hmem hr ha
  subst hr hd
  dsimp only
  rw [if_neg Bool.false_ne_true]
  have h23 := hnext h22 (hfull₂ 0 Nat.one_pos).1
  refine (walkSpec_3 hj hft d₄ _ _ h (harr 23 1 3 (by omega) (fun i hi => by omega) h23) hbit
    (hroom (by omega))).bind fun r d₅ hr => ?_
  rcases hr with ⟨hr, ha⟩ | ⟨hr, hd, hfull₃⟩
  · rw [hr, if_pos rfl]
    exact hmem hr ha
  · subst hr hd
    obtain ⟨hne, hfull⟩ := hfull₃ 0 Nat.one_pos
    exact absurd hfull (h.not_full hne)

end Airix.Mkfs
