import Airix.Mkfs.Steps

/-!
# Adding an entry to the root directory

An entry added to the root keeps the invariant of the image builder: what holds for every directory
(`DirAdded`), and the agreement of the root's entries with the inode bitmap.
-/

namespace Airix.Mkfs
open Axfs Bytes Exec Finset BlockTree

variable {g : Geom} {d d' : Disk} {e j ft : Nat} {name : List UInt8} {P : Multiset Nat}

/-- What a step leaves of the inodes other than the root and `e`: the inode and its blocks. -/
structure Frame (g : Geom) (e : Nat) (d d' : Disk) : Prop where
  inode : ∀ n, n ≠ rootIno → n ≠ e → d'.inode n = d.inode n
  data : ∀ n, 1 ≤ n → n ≤ g.inodes → n ≠ rootIno → n ≠ e → ∀ x ∈ d.treeOf (d.inode n), d'.data x.2 = d.data x.2

theorem Frame.treeOf (h : Frame g e d d') {n : Nat} (h1 : 1 ≤ n) (h2 : n ≤ g.inodes) (hr : n ≠ rootIno) (he : n ≠ e) :
    d'.treeOf (d'.inode n) = d.treeOf (d.inode n) := by
  rw [h.inode n hr he]
  exact treeOf_congr fun l c hc => h.data n h1 h2 hr he _ hc

/-- An entry for the new inode `j + 1` was added to the root directory. -/
structure Added (g : Geom) (name : List UInt8) (ft j : Nat) (d d' : Disk) : Prop where
  inv : Inv g d' 0
  entries : ∃ len, d'.entries = newRec name ft (j + 1) len ::ₘ d.entries
  inode : d'.inode (j + 1) = { iMode := if ft = ftDir then sIfdir else sIfreg }
  frame : Frame g (j + 1) d d'
  sb : d'.sb = d'.mem

/-- The root of an image that the invariant holds of, as a directory. -/
theorem Inv.dirImage (h : Inv g d P) : DirImage g d rootIno := by
  have h0 := g.groups_pos
  have hle := (g.layout h0).le
  refine ⟨⟨h.counts, h.nodup_refs, fun b hb => ?_, fun j hj hbit => h.block.zero j hj hbit, fun j hj hbit => ?_, h.dir.valid⟩,
    ⟨one_le_rootIno, rootIno_le, h.dir.mode, h.dir.dirs, h.dir.packed, h.dir.packedBlocks⟩⟩
  · have hm : b ∈ d.refBlocks g + P := Multiset.mem_add.2 (.inl hb)
    obtain ⟨h1, h2⟩ := h.block.range b hm
    have hb1 : b = 1 + 8192 * 0 + (b - 1) := by omega
    refine ⟨0, h0, b - 1, by omega, hb1, by omega, (h.block.bits 0 h0 (b - 1) (by omega)).2 (.inr ⟨rfl, ?_⟩)⟩
    rwa [Nat.add_sub_cancel' (by omega)]
  · have hipg := g.ipg_le
    have hnot : ¬ (j + 1 = rootIno ∨ j + 1 ∈ d.named) := by
      intro hor
      rw [(h.dir.bits 0 h0 j (by omega)).2 ⟨rfl, hor⟩] at hbit
      cases hbit
    rw [not_or] at hnot
    exact h.dir.zero _ (by omega) ((show j + 1 ≤ g.ipg from hj).trans (Nat.le_mul_of_pos_right _ h0)) hnot.1 hnot.2

/-- The blocks that are taken after an entry was added. -/
theorem Evolves.blockInv {N : Multiset Nat} (hev : Evolves g rootIno e N d d') (h : Inv g d 0) (ha : Allotted g d') :
    BlockInv g d' (d'.refBlocks g + 0) := by
  have h0 := g.groups_pos
  have hle := (g.layout h0).le
  have hused : ∀ b ∈ N, 1 + g.used 0 ≤ b ∧ b < 1 + g.groupBlocks 0 := by
    intro b hb
    obtain ⟨j, hj, rfl, hbit⟩ := hev.fresh b hb
    have huj : g.used 0 ≤ j := by
      by_contra hlt
      rw [h.counts.used 0 h0 j (by omega)] at hbit
      cases hbit
    omega
  rw [add_zero]
  refine ⟨ha.nodup, fun b hb => ?_, fun k hk j hj => ?_, ha.zero⟩
  · rw [hev.refs] at hb
    rcases Multiset.mem_add.1 hb with hb | hb
    · exact hused b hb
    · exact h.block.range b (by rwa [add_zero])
  · have hb := h.block.bits k hk j hj
    rw [add_zero] at hb
    rw [hev.bits, hb, hev.refs, Multiset.mem_add]
    tauto

/-- The entry that was added names the new inode; the invariant holds again. -/
theorem DirAdded.added (ha : DirAdded g rootIno name ft j d d') (h : Inv g d 0) (hj : j < g.ipg)
    (hbit : d.bit .inode 0 j = false) (hname : ∀ len, (newRec name ft (j + 1) len).Named) : Added g name ft j d d' := by
  obtain ⟨len, hent⟩ := ha.entries
  obtain ⟨N, hev⟩ := ha.evolves
  have h0 := g.groups_pos
  have hipg := g.ipg_le
  have hne := h.dirImage.ne_of_free hj hbit
  have hnot : j + 1 ∉ d.named := by
    intro hm
    rw [(h.dir.bits 0 h0 j (by omega)).2 ⟨rfl, .inr hm⟩] at hbit
    cases hbit
  have hentries : d'.entries = newRec name ft (j + 1) len ::ₘ d.entries := hent
  have hnamed : d'.named = (j + 1) ::ₘ d.named := by
    rw [Disk.named, hentries, Multiset.filter_cons_of_pos _ (hname len), Multiset.map_cons]
    rfl
  have hleaf : (d.inode rootIno).iBlock 0 ∈ d.leavesAt rootIno := h.dir.first_mem
  have hfirst := hev.first h.dir.first
  refine ⟨⟨ha.inv.counts, hev.blockInv h ha.inv.toAllotted, ⟨?_, ?_, ?_, ?_, ha.inv.valid, ha.inv.mode, ha.inv.dirs,
    ha.inv.packed, ha.inv.packedBlocks, ?_, ?_⟩⟩, ⟨len, hentries⟩, ha.inode, ⟨hev.inode, hev.data⟩, ha.sb⟩
  · intro k hk j' hj'
    rw [ha.bits, hnamed, Bool.or_eq_true, decide_eq_true_iff, Multiset.mem_cons, h.dir.bits k hk j' hj',
      Nat.add_right_cancel_iff]
    tauto
  · rw [hnamed]
    exact Multiset.nodup_cons.2 ⟨hnot, h.dir.nodup⟩
  · rw [hnamed]
    intro n hn
    rcases Multiset.mem_cons.1 hn with rfl | hn
    · rw [rootIno] at hne
      omega
    · exact h.dir.range n hn
  · rw [hnamed]
    intro n h1 h2 hn hnn
    rw [Multiset.mem_cons, not_or] at hnn
    rw [hev.inode n hn hnn.1]
    exact h.dir.zero n h1 h2 hn hnn.2
  · rw [hfirst]
    exact h.dir.first
  · rw [hfirst]
    obtain ⟨l₁, l₂, h1, h2⟩ := h.dir.dots
    exact ⟨l₁, l₂, (hev.kept _ hleaf).2 _ h1, (hev.kept _ hleaf).2 _ h2⟩

end Airix.Mkfs
