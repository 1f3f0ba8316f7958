import Airix.Mkfs.Fsck

/-!
# Copying files onto an image

The runs of the program with the record of its calls of `write_file`. After every call the root names, beside
`.` and `..`, files that some call had for their destination, and a call that returned true has left its file
there; no later call changes it.
-/

namespace Airix.Mkfs
open Axfs Bytes Exec Finset BlockTree

variable {g : Geom} {s s' : State} {d d' d₁ : Disk} {j ino blockNum ipg : Nat} {name bytes dst : List UInt8}

/-- One call of `write_file`: the file, its destination, and whether it returned true. -/
structure CopyCall where
  bytes : List UInt8
  dst : List UInt8
  done : Bool

/-- The name that the root has for the destination. -/
def CopyCall.entryName (c : CopyCall) : List UInt8 := storedName (c.dst.drop 1)

variable {L : List CopyCall} {c : CopyCall}

/-- The states of the program after the calls `L` of `write_file`. -/
inductive Copies (blockNum ipg : Nat) : List CopyCall → State → Prop
  | mkfs {s : State} (h : (mkfs blockNum ipg).run .start = .ok ((), s)) : Copies blockNum ipg [] s
  | getSuperBlock {L : List CopyCall} {s s' : State} (h : Copies blockNum ipg L s)
      (hr : getSuperBlock.run s = .ok ((), s')) : Copies blockNum ipg L s'
  | writeFile {L : List CopyCall} {s s' : State} {fuel : Nat} {sfile dst : List UInt8} {r : Bool}
      (h : Copies blockNum ipg L s) (hdst : Legal dst) (hr : (writeFile fuel sfile dst).run s = .ok (r, s')) :
      Copies blockNum ipg (L ++ [⟨sfile, dst, r⟩]) s'

/-- Inode `ino` is a file; its direct blocks hold the beginning of the bytes. -/
structure FileAt (d : Disk) (ino : Nat) (bytes : List UInt8) : Prop where
  mode : (d.inode ino).iMode = sIfreg
  size : (d.inode ino).iSize = bytes.length % 2 ^ 64
  direct : Direct d bytes (d.inode ino).iBlock

/-- What the root has after the calls. -/
structure Copied (L : List CopyCall) (d : Disk) : Prop where
  made : ∀ c ∈ L, c.done = true → Single c.dst ∧ ∃ q ∈ d.entries, q.Named ∧ q.name = c.entryName ∧
    FileAt d q.entry.inode c.bytes
  only : ∀ q ∈ d.entries, q.Named → ∃ c ∈ L, q.name = c.entryName

theorem mem_treeOf_direct {inode : Inode} {k : Nat} (hk : k < 21) (hne : inode.iBlock k ≠ 0) :
    (0, inode.iBlock k) ∈ d.treeOf inode := by
  refine mem_forest.2 ⟨k, by omega, hne, ?_⟩
  rw [show k - 20 = 0 by omega]
  exact nodes_self

theorem FileAt.congr (h : FileAt d ino bytes) (hinode : d'.inode ino = d.inode ino)
    (hdata : ∀ x ∈ d.treeOf (d.inode ino), d'.data x.2 = d.data x.2) : FileAt d' ino bytes := by
  refine ⟨by rw [hinode, h.mode], by rw [hinode, h.size], fun k hk hlen => ?_⟩
  obtain ⟨hne, hh⟩ := h.direct k hk hlen
  rw [hinode]
  refine ⟨hne, fun o ho => ?_⟩
  rw [hdata _ (mem_treeOf_direct hk hne)]
  exact hh o ho

/-- The inode of a new entry is no file that the root has. -/
theorem Added.kept (h : Added g name ftRegFile j d d') (hnew : LookedUp d name none) (hd : Image g d)
    (hino : ino ∈ d.named) (hf : FileAt d ino bytes) : ino ≠ j + 1 ∧ FileAt d' ino bytes := by
  obtain ⟨len, hent⟩ := h.entries
  have hnamed : d'.named = (j + 1) ::ₘ d.named := by
    rw [Disk.named, hent, Multiset.filter_cons_of_pos _ (hd.inv.named_of_lookedUp hnew _ _ _), Multiset.map_cons]
    rfl
  have hnd := h.inv.dir.nodup
  rw [hnamed, Multiset.nodup_cons] at hnd
  have hne : ino ≠ j + 1 := fun he => hnd.1 (he ▸ hino)
  obtain ⟨h1, h2⟩ := hd.inv.dir.range ino hino
  have hroot : ino ≠ rootIno := by
    rw [rootIno]
    omega
  have hle : ino ≤ g.inodes := h2.trans (Nat.le_mul_of_pos_right _ g.groups_pos)
  exact ⟨hne, hf.congr (h.frame.inode ino hroot hne) (h.frame.data ino (by omega) hle hroot hne)⟩

/-- A call that adds an entry and keeps the files that there are. -/
theorem Copied.append (hc : Copied L d) (hent : ∃ len, d'.entries = newRec name ftRegFile (j + 1) len ::ₘ d.entries)
    (hnamed : ∀ len, (newRec name ftRegFile (j + 1) len).Named)
    (hkept : ∀ ino ∈ d.named, ∀ bytes, FileAt d ino bytes → FileAt d' ino bytes) (hname : c.entryName = storedName name)
    (hdone : c.done = true → Single c.dst ∧ FileAt d' (j + 1) c.bytes) : Copied (L ++ [c]) d' := by
  obtain ⟨len, hent⟩ := hent
  refine ⟨fun c' hc' hd => ?_, fun q hq hn => ?_⟩
  · rcases List.mem_append.1 hc' with hc' | hc'
    · obtain ⟨hs, q, hq, hqn, he, hf⟩ := hc.made c' hc' hd
      refine ⟨hs, q, ?_, hqn, he, hkept _ (mem_named.2 ⟨q, hq, hqn, rfl⟩) _ hf⟩
      rw [hent]
      exact Multiset.mem_cons_of_mem hq
    · obtain rfl := List.mem_singleton.1 hc'
      obtain ⟨hs, hf⟩ := hdone hd
      refine ⟨hs, newRec name ftRegFile (j + 1) len, ?_, hnamed len, hname.symm, hf⟩
      rw [hent]
      exact Multiset.mem_cons_self _ _
  · rw [hent] at hq
    rcases Multiset.mem_cons.1 hq with rfl | hq
    · exact ⟨c, List.mem_append_right _ (List.mem_singleton_self c), hname.symm⟩
    · obtain ⟨c', hc', he⟩ := hc.only q hq hn
      exact ⟨c', List.mem_append_left _ hc', he⟩

/-- What one call comes to. -/
theorem Wrote.copied {r : Bool} (h : Wrote g (dst.drop 1) bytes d d' r) (hs : r = true → Single dst) (hd : Image g d)
    (hc : Copied L d) : Copied (L ++ [⟨bytes, dst, r⟩]) d' := by
  cases h with
  | nothing he =>
    subst he
    refine ⟨fun c hmem hdone => ?_, fun q hq hn => ?_⟩
    · rcases List.mem_append.1 hmem with hmem | hmem
      · exact hc.made c hmem hdone
      · rw [List.mem_singleton.1 hmem] at hdone
        cases hdone
    · obtain ⟨c, hmem, he⟩ := hc.only q hq hn
      exact ⟨c, List.mem_append_left _ hmem, he⟩
  | empty hnew hadd =>
    exact hc.append hadd.entries (fun len => hd.inv.named_of_lookedUp hnew _ _ len)
      (fun ino hino bytes hf => (hadd.kept hnew hd hino hf).2) rfl fun h => absurd h Bool.false_ne_true
  | @file j d₁ hnew hadd hinv hdirect hmode hsize hent hother hdata _ =>
    refine hc.append (by rw [hent]; exact hadd.entries) (fun len => hd.inv.named_of_lookedUp hnew _ _ len)
      (fun ino hino bytes hf => ?_) rfl fun _ => ⟨hs rfl, hmode, hsize, hdirect⟩
    obtain ⟨hne, hf⟩ := hadd.kept hnew hd hino hf
    obtain ⟨h1, h2⟩ := hd.inv.dir.range ino hino
    have hle : ino ≤ g.inodes := h2.trans (Nat.le_mul_of_pos_right _ g.groups_pos)
    exact hf.congr (hother ino hne) fun x hx => hdata x.2 (mem_refBlocks_of_treeOf (by omega) hle hx)

/-- The root of a new image. -/
theorem RootOnly.copied {f : Nat → UInt8} (h : RootOnly g j f d) : Copied [] d := by
  refine ⟨fun c hc => absurd hc List.not_mem_nil, fun q hq hn => ?_⟩
  rw [h.entries, Multiset.mem_coe, List.mem_cons, List.mem_singleton] at hq
  rcases hq with rfl | rfl
  · exact absurd rfl hn.1
  · exact absurd rfl hn.2

theorem Copies.copied (h : Copies blockNum ipg L s) (hpos : 0 < blockNum) (hlt : blockNum * 1024 ≤ 2 ^ 32)
    (hipg : ipg ≤ 8192) : ∃ g d, g.blocks + 1 = blockNum ∧ g.ipg = ipg ∧ Rep g s d ∧ Image g d ∧ Copied L d := by
  induction h with
  | mkfs hr =>
    obtain ⟨g, rfl, rfl⟩ := geom_of_mkfs hpos hlt hipg hr
    obtain ⟨s', d, hr', hrep, ⟨j, f, hroot⟩, hsb⟩ := mkfs_ok g
    rw [hr] at hr'
    cases hr'
    exact ⟨g, d, rfl, rfl, hrep, hroot.image hsb, hroot.copied⟩
  | getSuperBlock _ hr ih =>
    obtain ⟨g, d, h1, h2, hs, himage, hc⟩ := ih
    exact ⟨g, d, h1, h2, hs.getSuperBlock himage hr, himage, hc⟩
  | writeFile _ hdst hr ih =>
    obtain ⟨g, d, h1, h2, hs, himage, hc⟩ := ih
    obtain ⟨d', hs', hsingle, hw⟩ := (after_writeFile himage.inv himage.flat hdst _ hs).1 _ _ hr
    exact ⟨g, d', h1, h2, hs', hw.image himage, hw.copied hsingle himage hc⟩

end Airix.Mkfs
