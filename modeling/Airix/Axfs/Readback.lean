import Airix.Axfs.Image
import Airix.Axfs.Open

/-!
# Reading back what was written

The kernel opens the files of an image under the names that `write_file` has given them and reads the bytes that
it was called with, and it opens nothing else in the root.
-/

namespace Airix.Axfs
open Bytes Prog
open Mkfs (Rec Geom CopyCall Copies)

/-- The file that `vfs_open` hands to `ax_open`: for reading, at its beginning. -/
structure ToOpen (dev : UInt8) (path : List UInt8) (file : File) : Prop where
  flags : file.fFlags = oRdonly
  pos : file.fPos = 0
  inode : ∃ fInode, file.fInode = some fInode ∧ fInode.iDevice = dev
  path : ∃ fPath, file.fPath = some fPath ∧ fPath.text = path

namespace Machine
variable {α : Type} {m : Machine} {dev : UInt8} {path : List UInt8} {file : File} {s : Kern}

/-- Every run of the code comes back, and then `Q` holds. -/
structure Completes (m : Machine) (p : P α) (s : Kern) (Q : α → Kern → Prop) : Prop where
  up : ∀ p' s', Reach m.kernLayer p s p' s' → ¬ Panics m.kernLayer s' p'
  returns : ∃ a s', Reach m.kernLayer p s (.ret a) s'
  result : ∀ a s', Reach m.kernLayer p s (.ret a) s' → Q a s'

/-- The path is that of a file: `ax_open` opens it, and in whatever pieces it is read then, the calls of `ax_read`
bring the bytes one after the other, and 0 from their end on. -/
def ReadsBack (m : Machine) (dev : UInt8) (path bytes : List UInt8) : Prop :=
  ∀ file s, ToOpen dev path file → s.Idle → ¬ m.Short s → m.Completes (axOpen file) s fun r _ =>
    r.2 = 0 ∧ ∃ inode, inode.iSize = bytes.length ∧ ∀ calls f, Reading m r.1 calls f → ReadsOn m inode bytes calls f

/-- The path is not that of a file: `ax_open` fails and leaves everything as it was. -/
def NotThere (m : Machine) (dev : UInt8) (path : List UInt8) : Prop :=
  ∀ file s, ToOpen dev path file → s.Idle → ¬ m.Short s → m.Completes (axOpen file) s fun r s' => r = (file, -1) ∧ s' = s

end Machine

open Machine

section
variable {m : Machine} {dev : UInt8} {path name : List UInt8} {file : File} {s : Kern}

/-- What a call of `ax_open` comes to on a good disk. -/
theorem Volume.axOpen_completes (hv : Volume m dev) (hread : ∀ sector, ¬ m.mayFail dev sector)
    (hfile : ToOpen dev path file) (hs : s.Idle) (hm : ¬ m.Short s) : m.Completes (axOpen file) s fun r s' =>
      (HasFile (m.bytes dev) path → r.2 = 0 ∧ ∃ fInode p, r.1 = { file with fInode := some fInode } ∧
        fInode.iDevice = dev ∧ fInode.iPrivate = some p ∧ p.inode = (m.bytes dev).inode (walked (m.bytes dev) path)) ∧
      (¬ HasFile (m.bytes dev) path → r = (file, -1) ∧ s' = s) := by
  obtain ⟨fInode, hinode, rfl⟩ := hfile.inode
  obtain ⟨fPath, hpath, rfl⟩ := hfile.path
  have hdoes := (does_axOpen_iff (t := True) hv hs (fun _ => hm) hinode hpath).total
    fun dev' sector hf hM => hread sector (hM.1 ▸ hf)
  have hnil : ∀ l, m.Harmless fInode.iDevice l → l = [] := fun l hl =>
    List.eq_nil_iff_forall_not_mem.2 fun x hx => hread x.2 ((hl x hx).2.1 ▸ (hl x hx).1)
  refine ⟨fun p' s' hr => hdoes.not_panics hr, ?_, fun r s' hr => ?_⟩
  · obtain ⟨r, s', hr, -⟩ := hdoes.exists_reach fun c s => kernLayer_total
    exact ⟨r, s', hr⟩
  · obtain ⟨hopen, hiff⟩ := hdoes.of_ret hr
    cases hopen with
    | @failed l hl =>
      obtain rfl := hnil l hl
      have hnot := hiff rfl (not_not.1 fun h => hm (.inl h))
      have hneg : (-1 : Int) ≠ 0 := by decide
      exact ⟨fun hf => absurd (hnot.2 ⟨hfile.flags, hf⟩) hneg, fun _ => ⟨rfl, rfl⟩⟩
    | @opened l o n hl hne hfree hslash hn h0 =>
      obtain rfl := hnil l hl
      have hhas := (hiff rfl (not_not.1 fun h => hm (.inl h))).1 rfl
      exact ⟨fun _ => ⟨rfl, _, _, rfl, rfl, rfl, by rw [hn]⟩, fun hnot => absurd hhas.2 hnot⟩

theorem Volume.readsBack {bytes : List UInt8} {inode : Inode} (hv : Volume m dev) (hread : ∀ sector, ¬ m.mayFail dev sector)
    (hhas : HasFile (m.bytes dev) path) (hinode : (m.bytes dev).inode (walked (m.bytes dev) path) = inode)
    (hdirect : DirectFile m dev inode) (hdata : (m.bytes dev).fileData inode = bytes) : m.ReadsBack dev path bytes := by
  intro file s hfile hs hm
  obtain ⟨hup, hreturns, hresult⟩ := hv.axOpen_completes hread hfile hs hm
  refine ⟨hup, hreturns, fun r s' hr => ?_⟩
  obtain ⟨h0, fInode, p, hf, hdev, hp, hpi⟩ := (hresult r s' hr).1 hhas
  have hopen : IsOpen m dev inode r.1 := by
    rw [hf]
    refine ⟨hfile.flags, ⟨fInode, p, rfl, hdev, hp, hpi.trans hinode⟩, hdirect, ?_⟩
    show file.fPos ≤ _
    rw [hfile.pos]
    exact Nat.zero_le _
  refine ⟨h0, inode, ?_, fun calls f hcalls => ?_⟩
  · rw [← hdata, Disk.fileData, Disk.length_fileBytes]
  · have hpos : r.1.fPos = 0 := by
      rw [hf]
      exact hfile.pos
    rw [← hdata]
    exact (hcalls.isOpen hopen hpos).2

theorem Volume.notThere (hv : Volume m dev) (hread : ∀ sector, ¬ m.mayFail dev sector)
    (hhas : ¬ HasFile (m.bytes dev) path) : m.NotThere dev path := by
  intro file s hfile hs hm
  obtain ⟨hup, hreturns, hresult⟩ := hv.axOpen_completes hread hfile hs hm
  exact ⟨hup, hreturns, fun r s' hr => (hresult r s' hr).2 hhas⟩

/-- A path of one component. -/
theorem walked_single {d : Disk} (hn : slash ∉ name) (hroot : (d.inode rootIno).iMode = sIfdir) :
    walked d (slash :: name) = if name = [] then rootIno else d.lookup rootIno name := by
  have htake : name.takeWhile (· ≠ slash) = name := List.takeWhile_eq_self_iff.2 fun c hc =>
    decide_eq_true fun he => hn (he ▸ hc)
  have hdrop : name.dropWhile (· ≠ slash) = [] := List.dropWhile_eq_nil_iff.2 fun c hc =>
    decide_eq_true fun he => hn (he ▸ hc)
  have hnil : followed [] = [] := rfl
  rw [walked, List.drop_one, List.tail_cons, followed_eq, htake, hdrop, List.drop_nil, hnil]
  split
  · rfl
  · exact if_pos ⟨by decide, hroot⟩

end

/-! ### Files of an image -/

namespace OnDrive
variable {m : Machine} {dev : UInt8} {g : Geom} {s : Mkfs.State} {d : Mkfs.Disk} {ino k o : Nat} {bytes name : List UInt8}

section
variable (ho : OnDrive m dev (g.blocks + 1) s) (hs : Mkfs.Rep g s d) (hd : Mkfs.Image g d)
include ho hs hd

/-- A direct block of a file. -/
theorem fileAt_block (h1 : 1 ≤ ino) (h2 : ino ≤ g.inodes) (hf : Mkfs.FileAt d ino bytes) (hk : k < 21)
    (hlen : 1024 * k < bytes.length) : (d.inode ino).iBlock k ≤ g.blocks ∧
      ∀ o < 1024, 1024 * k + o < bytes.length →
        (m.bytes dev).block ((d.inode ino).iBlock k) o = bytes.getD (1024 * k + o) 0 := by
  have hcap : Mkfs.cap 0 = 1024 := rfl
  obtain ⟨hne, hh⟩ := hf.direct k hk (by rw [hcap]; omega)
  have hdata := hd.inv.isData (Mkfs.mem_refBlocks_of_treeOf h1 h2 (Mkfs.mem_treeOf_direct (d := d) hk hne))
  refine ⟨?_, fun o ho' hlt => ?_⟩
  · obtain ⟨j, hj, h3, h4⟩ := hdata
    have hb := (g.layout hj).blocks
    dsimp only at h4
    omega
  · have hpiece : (Mkfs.piece 0 bytes k).getD o 0 = bytes.getD (1024 * k + o) 0 := by
      rw [Mkfs.piece, hcap, List.getD_eq_getElem?_getD, List.getElem?_take_of_lt ho', List.getElem?_drop, Nat.mul_comm,
        ← List.getD_eq_getElem?_getD]
    rw [ho.block hs hdata o ho', ← hpiece]
    refine hh o ?_
    rw [Mkfs.piece, hcap, List.length_take, List.length_drop]
    omega

theorem fileAt_direct (h1 : 1 ≤ ino) (h2 : ino ≤ g.inodes) (hf : Mkfs.FileAt d ino bytes)
    (hlen : bytes.length ≤ 21 * 1024) :
    DirectFile m dev (d.inode ino) ∧ (m.bytes dev).fileData (d.inode ino) = bytes := by
  have hv := ho.volume hs hd
  have hsize : (d.inode ino).iSize = bytes.length := by
    rw [hf.size]
    exact Nat.mod_eq_of_lt (by omega)
  have hlt := g.blocks_lt
  refine ⟨⟨by omega, fun k hk => ?_⟩, ?_⟩
  · have hle := (ho.fileAt_block hs hd h1 h2 hf (k := k) (by omega) (by omega)).1
    refine ⟨by omega, hv.inRange ?_⟩
    rw [toNat_sectorNo32 (by omega), ho.blocksCount hs hd]
    omega
  · refine List.ext_getElem (by rw [Disk.fileData, Disk.length_fileBytes, hsize]) fun i hi hi' => ?_
    have hb := (ho.fileAt_block hs hd h1 h2 hf (k := i / 1024) (by omega) (by omega)).2 (i % 1024) (by omega) (by omega)
    have hdm : 1024 * (i / 1024) + i % 1024 = i := Nat.div_add_mod i 1024
    rw [hdm, List.getD_eq_getElem _ _ hi'] at hb
    simp only [Disk.fileData, Disk.fileBytes, List.getElem_map, List.getElem_range, Disk.fileByte, Nat.zero_add]
    exact hb

theorem root_mode : ((m.bytes dev).inode rootIno).iMode = sIfdir := by
  rw [ho.inode hs hd Mkfs.one_le_rootIno Mkfs.rootIno_le]
  exact hd.inv.dir.mode

end
end OnDrive

variable {m : Machine} {dev : UInt8} {blockNum ipg : Nat} {L : List CopyCall} {s : Mkfs.State}

/-- What `mkfs` and the calls of `write_file` have put on a disk is what the kernel finds there. -/
theorem mkfs_readBack (h : Copies blockNum ipg L s) (hpos : 0 < blockNum) (hlt : blockNum * 1024 ≤ 2 ^ 32)
    (hipg : ipg ≤ 8192) (ho : OnDrive m dev blockNum s) (hread : ∀ sector, ¬ m.mayFail dev sector)
    (hdirect : ((m.bytes dev).inode rootIno).iBlock oneIndirectBlockIndex = 0) :
    Volume m dev ∧
    (∀ c ∈ L, c.done = true → c.entryName ≠ [] → c.bytes.length ≤ 21 * 1024 →
      m.ReadsBack dev (slash :: c.entryName) c.bytes) ∧
    ∀ name, slash ∉ name → (∀ c ∈ L, c.entryName ≠ name) → m.NotThere dev (slash :: name) := by
  obtain ⟨g, d, rfl, rfl, hs, hd, hc⟩ := h.copied hpos hlt hipg
  have hv := ho.volume hs hd
  have hroot := ho.root_mode hs hd
  have hinode := ho.inode hs hd Mkfs.one_le_rootIno Mkfs.rootIno_le
  rw [hinode] at hdirect
  refine ⟨hv, fun c hmem hdone hne hlen => ?_, fun name hn hnone => ?_⟩
  · obtain ⟨hsingle, q, hq, hqn, he, hf⟩ := hc.made c hmem hdone
    have hslash : slash ∉ c.entryName := fun hm => hsingle (List.mem_of_mem_take hm)
    obtain ⟨h1, h2⟩ := OnDrive.inode_range hd hq
    have hwalk : walked (m.bytes dev) (slash :: c.entryName) = q.entry.inode := by
      rw [walked_single hslash hroot, if_neg hne, ← he, ho.lookup_eq hs hd hdirect hq]
    obtain ⟨hfile, hdata⟩ := ho.fileAt_direct hs hd h1 h2 hf hlen
    have hino : (m.bytes dev).inode q.entry.inode = d.inode q.entry.inode := ho.inode hs hd h1 h2
    have hmode : (d.inode q.entry.inode).iMode ≠ sIfdir := by
      rw [hf.mode]
      decide
    refine hv.readsBack hread ⟨rfl, ?_, ?_⟩ (by rw [hwalk, hino]) hfile hdata
    · rw [hwalk]
      omega
    · rwa [hwalk, hino]
  · refine hv.notThere hread fun hhas => ?_
    obtain ⟨-, hw, hmode⟩ := hhas
    have hwalk := walked_single hn hroot
    by_cases hnil : name = []
    · rw [if_pos hnil] at hwalk
      exact hmode (by rw [hwalk, hroot])
    · rw [if_neg hnil] at hwalk
      obtain ⟨q, hq, hqn⟩ := ho.mem_of_lookup hs hd (hwalk ▸ hw)
      by_cases hnamed : q.Named
      · obtain ⟨c, hmem, he⟩ := hc.only q hq hnamed
        exact hnone c hmem (he.symm.trans hqn)
      · -- `.` and `..` are the root itself
        have hself := OnDrive.unnamed_inode hd hq hnamed
        rw [hwalk, ← hqn, ho.lookup_eq hs hd hdirect hq, hself, hroot] at hmode
        exact hmode rfl

end Airix.Axfs
