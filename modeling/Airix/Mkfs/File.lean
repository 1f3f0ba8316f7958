import Airix.Mkfs.Create
import Airix.Mkfs.Data

/-!
# Writing a file

`write_file` creates the file's inode, writes the data into new blocks and then stores the blocks in the
inode. `Wrote` says what a call that returned has done: nothing, an empty file (there was no space for the
data), or the file.
-/

namespace Airix.Mkfs
open Axfs Bytes Exec Finset BlockTree

variable {g : Geom} {d d' d'' : Disk} {i j n fuel : Nat} {arr : Nat → Nat} {bytes rest name dst : List UInt8}

/-- The blocks under the 24 pointers of an inode. -/
abbrev Disk.slots (d : Disk) (arr : Nat → Nat) : Multiset Nat :=
  (forest d.ptr 256 24 (fun j => j - 20) arr).map Prod.snd

/-- The direct blocks hold the beginning of the bytes. -/
def Direct (d : Disk) (bytes : List UInt8) (arr : Nat → Nat) : Prop :=
  ∀ k < 21, k * cap 0 < bytes.length → arr k ≠ 0 ∧ Holds d 0 (arr k) (piece 0 bytes k)

/-- The pointers in memory while the data of a file is written. -/
structure Writing (g : Geom) (bytes : List UInt8) (i : Nat) (d₀ : Disk) (arr : Nat → Nat) (d : Disk) : Prop where
  inv : Inv g d (d.slots arr)
  direct : Direct d bytes arr
  zero : ∀ k, i ≤ k → arr k = 0
  kept : Kept g 0 d₀ d

theorem Writing.lt {d₀ : Disk} (h : Writing g bytes 24 d₀ arr d) (k : Nat) : arr k < 2 ^ 32 := by
  rcases Nat.lt_or_ge k 24 with hk | hk
  · rcases eq_or_ne (arr k) 0 with h0 | h0
    · omega
    · have hm : arr k ∈ d.slots arr := Multiset.mem_map_of_mem Prod.snd (mem_forest.2 ⟨k, hk, h0, nodes_self⟩)
      have hr := h.inv.block.range _ (Multiset.mem_add.2 (.inr hm))
      obtain ⟨_, _, _, _, _, _, _, _, _⟩ := g.layout g.groups_pos
      omega
  · rw [h.zero k hk]
    omega

theorem Kept.entries (h : Kept g 0 d d') : d'.entries = d.entries := by
  have hmem : ∀ x ∈ d.treeOf (d.inode rootIno), d'.data x.2 = d.data x.2 := fun x hx =>
    h.data _ (Multiset.mem_add.2 (.inl (mem_refBlocks_of_treeOf one_le_rootIno rootIno_le hx)))
  have htree : d'.treeOf (d'.inode rootIno) = d.treeOf (d.inode rootIno) := by
    rw [h.inode]
    exact treeOf_congr fun l c hc => hmem _ hc
  have hleaves : d'.leaves = d.leaves := by rw [Disk.leaves, htree, Disk.leaves]
  exact entries_congr hleaves fun b hb => hmem _ (mem_leaves.1 hb)

theorem after_writeDataIntoBlocks (h : Inv g d 0) (harr : ∀ k, arr k = 0) :
    g.After False d (writeDataIntoBlocks arr directBlockCount bytes) (fun r d' => Writing g bytes 21 d r.1 d') := by
  have hempty : forest d.ptr 256 24 (fun j => j - 20) arr = 0 := sum_eq_zero fun k _ => if_pos (harr k)
  have hfill : Filled d 0 0 bytes arr := ⟨fun k hk => absurd hk (Nat.not_lt_zero k), fun k _ => harr k⟩
  have hheight : ∀ k < 21, k - 20 = 0 := fun k hk => by omega
  have hloop := after_fillBlocks (N := 24) (m := 21) writeSpec_data hheight (by omega) (Nat.zero_add 21)
    (P := 0) (by rw [hempty]; exact h) hfill
  rw [Nat.zero_mul, List.drop_zero, ← List.range_eq_range'] at hloop
  refine hloop.mono ?_
  rintro r d' ⟨_, hinv, hfill', hkept⟩
  rw [add_zero] at hinv
  exact ⟨hinv, hfill'.holds, fun k hk => hfill'.zero k (.inl hk), hkept⟩

theorem Writing.after_writeIndirect {write : (Nat → Nat) → Nat → List UInt8 → M ((Nat → Nat) × List UInt8)}
    {d₀ : Disk} {r : (Nat → Nat) × List UInt8} (h : Writing g bytes i d₀ r.1 d) (hw : WriteSpec g (i - 20) write)
    (hi : 21 ≤ i ∧ i < 24) :
    g.After False d (writeIndirect write i r) (fun r' d' => Writing g bytes (i + 1) d₀ r'.1 d') := by
  rw [writeIndirect]
  split
  · exact After.pure ⟨h.inv, h.direct, fun k hk => h.zero k (by omega), h.kept⟩
  · refine (hw d _ r.1 i r.2 h.inv).mono ?_
    rintro r' d' ⟨b, hr', hwr⟩
    subst hr'
    have hwr' : Written g (i - 20) b (r.2.take (cap (i - 20))) (d.slots r.1 + 0) d d' := by
      rw [add_zero]
      exact hwr
    obtain ⟨hold, hinv⟩ := hwr'.store hi.2 rfl (h.zero i (Nat.le_refl i))
    rw [add_zero] at hinv
    refine ⟨hinv, fun k hk hlen => ?_, fun k hk => ?_, h.kept.trans ⟨hwr.kept.inode, fun c hc => ?_⟩⟩
    · obtain ⟨hne, hh⟩ := h.direct k hk hlen
      dsimp only
      rw [Function.update_of_ne (by omega)]
      refine ⟨hne, hh.congr fun x hx => hold x (mem_forest.2 ⟨k, by omega, hne, ?_⟩)⟩
      rw [show k - 20 = 0 by omega]
      exact hx
    · dsimp only
      rw [Function.update_of_ne (by omega)]
      exact h.zero k (by omega)
    · rw [add_zero] at hc
      exact hwr.kept.data c (Multiset.mem_add.2 (.inl hc))

/-- What a call of `write_file` that returned has done: nothing, an empty file, or the file. -/
inductive Wrote (g : Geom) (name bytes : List UInt8) (d d' : Disk) : Bool → Prop
  | nothing (hd : d' = d) : Wrote g name bytes d d' false
  | empty {j : Nat} (hnew : LookedUp d name none) (h : Added g name ftRegFile j d d') : Wrote g name bytes d d' false
  | file {j : Nat} {d₁ : Disk} (hnew : LookedUp d name none) (h : Added g name ftRegFile j d d₁) (hinv : Inv g d' 0)
      (hdirect : Direct d' bytes (d'.inode (j + 1)).iBlock) (hmode : (d'.inode (j + 1)).iMode = sIfreg)
      (hsize : (d'.inode (j + 1)).iSize = bytes.length % 2 ^ 64) (hent : d'.entries = d₁.entries)
      (hother : ∀ n, n ≠ j + 1 → d'.inode n = d₁.inode n)
      (hdata : ∀ c ∈ d₁.refBlocks g, d'.data c = d₁.data c) (hsb : d'.sb = d'.mem) : Wrote g name bytes d d' true

theorem Added.mem_named (h : Added g name ftRegFile j d d') (hname : ∀ len, (newRec name ftRegFile (j + 1) len).Named) :
    j + 1 ∈ d'.named := by
  obtain ⟨len, hent⟩ := h.entries
  refine Multiset.mem_map.2 ⟨newRec name ftRegFile (j + 1) len, Multiset.mem_filter.2 ⟨?_, hname len⟩, rfl⟩
  rw [hent]
  exact Multiset.mem_cons_self _ _

/-- The data of a file that was created. -/
theorem Added.after_data (h : Added g name ftRegFile j d d') (hnew : LookedUp d name none) (hmem : j + 1 ∈ d'.named) (hj : j < g.ipg) :
    g.After False d' (do
      let r ← writeDataIntoBlocks (d'.inode (j + 1)).iBlock directBlockCount bytes
      let r ← writeIndirect writeDataInto1IndirectBlocks oneIndirectBlockIndex r
      let r ← writeIndirect writeDataInto2IndirectBlocks twoIndirectBlockIndex r
      let r ← writeIndirect writeDataInto3IndirectBlocks threeIndirectBlockIndex r
      updateInode (j + 1) { d'.inode (j + 1) with iSize := bytes.length % 2 ^ 64, iBlock := r.1 }
      updateSuperBlock
      return true) (fun r d'' => Wrote g name bytes d d'' r) := by
  have hzero : ∀ k, (d'.inode (j + 1)).iBlock k = 0 := fun k => by rw [h.inode]
  have hle : j + 1 ≤ g.inodes := (show j + 1 ≤ g.ipg from hj).trans (Nat.le_mul_of_pos_right _ g.groups_pos)
  have hw1 : WriteSpec g 1 writeDataInto1IndirectBlocks := writeSpec_indirect writeSpec_data
  have hw2 : WriteSpec g 2 writeDataInto2IndirectBlocks := writeSpec_indirect hw1
  have hw3 : WriteSpec g 3 writeDataInto3IndirectBlocks := writeSpec_indirect hw2
  refine (after_writeDataIntoBlocks h.inv hzero).bind fun r₀ d₀ hr₀ => ?_
  refine (hr₀.after_writeIndirect hw1 ⟨by omega, by omega⟩).bind fun r₁ d₁ hr₁ => ?_
  refine (hr₁.after_writeIndirect hw2 ⟨by omega, by omega⟩).bind fun r₂ d₂ hr₂ => ?_
  refine (hr₂.after_writeIndirect hw3 ⟨by omega, by omega⟩).bind fun r₃ d₃ hr₃ => ?_
  have hinode : d₃.inode = d'.inode := hr₃.kept.inode
  have hv := h.inv.dir.valid (j + 1) (by omega) hle
  have hvalid : Inode.Valid { d'.inode (j + 1) with iSize := bytes.length % 2 ^ 64, iBlock := r₃.1 } :=
    ⟨hv.mode, hv.uid, hv.atime, hv.ctime, hv.mtime, hv.dtime, hv.gid, hv.linksCount, Nat.mod_lt _ (Nat.two_pow_pos 64),
      hr₃.lt, hr₃.zero⟩
  refine (after_updateInode hr₃.inv.counts.ipg_eq (by omega) hle hvalid).bind fun _ d₄ hd₄ => ?_
  have hinv₄ : Inv g d₄ 0 := by
    rw [hd₄]
    refine hr₃.inv.commit (by rwa [named_congr hr₃.kept.entries]) (fun k _ => ?_) hvalid rfl
    rw [hinode, hzero]
  refine (after_updateSuperBlock hinv₄.counts.valid).bind fun _ d₅ hd₅ => After.pure ?_
  have hdata : d₅.data = d₃.data := by
    rw [hd₅, hd₄]
    rfl
  have hself : d₅.inode (j + 1) = { d'.inode (j + 1) with iSize := bytes.length % 2 ^ 64, iBlock := r₃.1 } := by
    rw [hd₅, hd₄]
    exact Disk.setInode_self _ _ _
  have hroot : d₅.inode rootIno = d₃.inode rootIno := by
    have hr := (h.inv.dir.range _ hmem).1
    rw [hd₅, hd₄]
    exact Disk.setInode_ne _ _ (by rw [rootIno]; omega)
  have hent : d₅.entries = d₃.entries := by
    have htree : d₅.treeOf (d₅.inode rootIno) = d₃.treeOf (d₃.inode rootIno) := by
      rw [hroot]
      exact treeOf_congr fun _ c _ => congrFun hdata c
    refine entries_congr ?_ fun b _ => congrFun hdata b
    rw [Disk.leaves, htree, Disk.leaves]
  refine .file hnew h (by rw [hd₅]; exact hinv₄.sync) ?_ ?_ ?_ (hent.trans hr₃.kept.entries) (fun n hn => ?_)
    (fun c hc => ?_) (by rw [hd₅]; rfl)
  · rw [hself]
    exact fun k hk hlen => ⟨(hr₃.direct k hk hlen).1, (hr₃.direct k hk hlen).2.congr fun x _ => congrFun hdata _⟩
  · rw [hself, h.inode]
    rfl
  · rw [hself]
  · rw [hd₅, hd₄]
    exact (Disk.setInode_ne _ _ hn).trans (congrFun hinode n)
  · rw [hdata]
    exact hr₃.kept.data c (Multiset.mem_add.2 (.inl hc))

/-- What `write_file` comes to, on an image whose only directory is the root. -/
theorem after_writeFile (h : Inv g d 0) (hflat : Flat g d) (hdst : Legal dst) :
    g.After False d (writeFile fuel bytes dst) (fun r d' =>
      (r = true → Single dst) ∧ Wrote g (dst.drop 1) bytes d d' r) := by
  refine (after_createFileInode h hflat hdst False.elim).bind fun r d₁ hr => ?_
  rcases hr with ⟨hr, hd, -⟩ | ⟨hs, hl, j, hj, hr, hbit, hadd⟩
  · dsimp only
    rw [if_pos hr]
    exact After.pure ⟨fun h => absurd h (by decide), .nothing hd⟩
  · subst hr
    dsimp only
    rw [if_neg (by omega)]
    refine after_getSuper.bind ?_
    rintro sb d₂ ⟨hsb, hd⟩
    subst hd
    split
    · have hmem := hadd.mem_named fun len => h.named_of_lookedUp hl _ _ len
      exact (hadd.after_data hl hmem hj).mono fun r d' hw => ⟨fun _ => hs, hw⟩
    · exact After.pure ⟨fun h => absurd h (by decide), .empty hl hadd⟩

/-! ### Images between calls -/

/-- An image between two calls: consistent, with the root as the only directory and no name twice, and
with the super block on it. -/
structure Image (g : Geom) (d : Disk) : Prop where
  inv : Inv g d 0
  flat : Flat g d
  unique : (d.entries.map Rec.name).Nodup
  sb : d.sb = d.mem

theorem Added.image (h : Added g name ftRegFile j d d') (hnew : LookedUp d name none) (hd : Image g d) :
    Image g d' := by
  refine ⟨h.inv, ⟨fun n h1 h2 hn => ?_, fun q hq hft => ?_⟩, ?_, h.sb⟩
  · rcases eq_or_ne n (j + 1) with rfl | hne
    · rw [h.inode]
      decide
    · rw [h.frame.inode n hn hne]
      exact hd.flat.modes n h1 h2 hn
  · obtain ⟨len, hent⟩ := h.entries
    rw [hent] at hq
    rcases Multiset.mem_cons.1 hq with rfl | hq
    · exact absurd hft (show ftRegFile ≠ ftDir by decide)
    · exact hd.flat.types q hq hft
  · obtain ⟨len, hent⟩ := h.entries
    rw [hent, Multiset.map_cons, Multiset.nodup_cons]
    refine ⟨fun hm => ?_, hd.unique⟩
    obtain ⟨q, hq, hn⟩ := Multiset.mem_map.1 hm
    exact hnew q hq hn

theorem Wrote.image {r : Bool} (h : Wrote g name bytes d d' r) (hd : Image g d) : Image g d' := by
  cases h with
  | nothing he => exact he ▸ hd
  | empty hnew hadd => exact hadd.image hnew hd
  | @file j d₁ hnew hadd hinv _ hmode _ hent hother _ hsb =>
    have hd₁ := hadd.image hnew hd
    refine ⟨hinv, ⟨fun n h1 h2 hn => ?_, fun q hq => hd₁.flat.types q (hent ▸ hq)⟩, by rw [hent]; exact hd₁.unique, hsb⟩
    rcases eq_or_ne n (j + 1) with rfl | hne
    · rw [hmode]
      decide
    · rw [hother n hne]
      exact hd₁.flat.modes n h1 h2 hn

end Airix.Mkfs
