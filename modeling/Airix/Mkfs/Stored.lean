import Airix.Mkfs.Inserts
import Airix.Mkfs.Mapping

/-!
# Files that were written

A call of `write_file` that returns true has put the file where the standard mapping looks for it
(`Stored`), and the image is as consistent as before. This holds for whatever supplies unused blocks, on
images below 4 GiB: the offset of a block is computed in 32 bits, so the data of a block from 2²² on goes
elsewhere.
-/

namespace Airix.Mkfs
open Axfs Bytes Exec Finset BlockTree

variable {g : Geom} {s s' : State} {d d' d₁ : Disk} {j n b last sep ino fuel : Nat} {arr : Nat → Nat}
  {bytes rest name buf dst : List UInt8} {inode : Inode}

/-! ### The file of a path -/

/-- Once the loop stays at a separator it returns nothing but 0. -/
theorem Stuck.createFileLoop_eq_zero {r : Nat} (hs : Stuck buf sep last)
    (hr : (createFileLoop last fuel buf (sep + 1) sep ino).run s = .ok (r, s')) : r = 0 := by
  induction fuel generalizing s buf ino with
  | zero => exact absurd hr throw_ok
  | succ fuel ih =>
    have hne : sep ≠ last := by
      have := hs.lt
      omega
    rw [createFileLoop, if_pos hs.lt, hs.skipName] at hr
    simp only [ne_eq, hne, not_false_eq_true, decide_true, if_true, not_true_eq_false, if_false] at hr
    obtain ⟨e, s₁, -, hr⟩ := bind_ok.1 hr
    cases e with
    | some e =>
      dsimp only at hr
      split at hr
      · exact (pure_ok.1 hr).1.symm
      · exact ih hs.set hr
    | none =>
      obtain ⟨ino', s₂, -, hr⟩ := bind_ok.1 hr
      split at hr
      · exact (pure_ok.1 hr).1.symm
      · exact ih hs.set hr

/-- A file is created only for a path of one component. -/
theorem createFileInode_single (hdst : Legal dst) (hr : (createFileInode fuel dst).run s = .ok ((ino, inode), s'))
    (hne : ino ≠ 0) : Single dst := by
  by_contra hs
  obtain ⟨r, s₁, hloop, hr⟩ := bind_ok.1 hr
  have hr0 : r = 0 := by
    cases fuel with
    | zero => exact absurd hloop throw_ok
    | succ fuel =>
      obtain ⟨hsep, hlt⟩ := skipName_many hdst hs
      have hstuck : Stuck ((dst ++ [0]).set (skipName (dst ++ [0]) 1) 0) (skipName (dst ++ [0]) 1) dst.length :=
        ⟨List.getElem?_set_self hlt, hsep⟩
      have hne : skipName (dst ++ [0]) 1 ≠ dst.length := by omega
      rw [createFileLoop, if_pos hdst.length] at hloop
      simp only [ne_eq, hne, not_false_eq_true, decide_true, if_true, not_true_eq_false, if_false] at hloop
      obtain ⟨e, s₂, -, hloop⟩ := bind_ok.1 hloop
      cases e with
      | some e =>
        dsimp only at hloop
        split at hloop
        · exact (pure_ok.1 hloop).1.symm
        · exact hstuck.createFileLoop_eq_zero hloop
      | none =>
        obtain ⟨ino', s₃, -, hloop⟩ := bind_ok.1 hloop
        split at hloop
        · exact (pure_ok.1 hloop).1.symm
        · exact hstuck.createFileLoop_eq_zero hloop
  rw [if_pos hr0] at hr
  exact hne (congrArg Prod.fst (pure_ok.1 hr).1).symm

/-- A new file in the root, with inode `j + 1`. -/
structure NewFile (g : Geom) (name : List UInt8) (j : Nat) (d d' : Disk) : Prop where
  sane : Sane g d'
  mode : (d'.inode rootIno).iMode = sIfdir
  lt : j < g.ipg
  free : d.bit .inode 0 j = false
  taken : d'.bit .inode 0 j = true
  file : (d'.inode (j + 1)).iMode = sIfreg
  entries : ∃ len, d'.entriesAt rootIno = newRec name ftRegFile (j + 1) len ::ₘ d.entriesAt rootIno

theorem Sane.after_createFileInode (h : Sane g d) (hroot : (d.inode rootIno).iMode = sIfdir) (hdst : Legal dst)
    (hs : Single dst) : g.After False d (createFileInode fuel dst) fun r d' =>
      r.1 = 0 ∨ ∃ j, r = (j + 1, d'.inode (j + 1)) ∧ NewFile g (dst.drop 1) j d d' ∧
        d'.inode (j + 1) = { iMode := sIfreg } := by
  have hdir := h.dirImage one_le_rootIno rootIno_le hroot
  have hloop : g.After False d (createFileLoop dst.length fuel (dst ++ [0]) 1 1 rootIno) fun r d' =>
      r = 0 ∨ ∃ j, r = j + 1 ∧ NewFile g (dst.drop 1) j d d' ∧ d'.inode (j + 1) = { iMode := sIfreg } := by
    cases fuel with
    | zero => exact After.throw id
    | succ fuel =>
      rw [createFileLoop, if_pos hdst.length, skipName_single hdst hs]
      simp only [ne_eq, not_true_eq_false, decide_false, Bool.false_eq_true, not_false_eq_true, if_true, if_false]
      rw [cString_single hdst]
      refine hdir.after_getEntryFromDir.bind ?_
      rintro r d₁ ⟨hd, hl⟩
      subst hd
      cases r with
      | some e => exact After.pure (.inl rfl)
      | none =>
        refine (h.after_writeEntryToDir one_le_rootIno rootIno_le hroot (.inl rfl) (hl.none_iff.1 rfl) False.elim).bind
          ?_
        rintro r d₂ ⟨hsane, hmode, ⟨j, hj, hr, hfree, htaken, hinode⟩, hent⟩
        subst hr
        rw [if_neg j.succ_ne_zero]
        have hinode : d₂.inode (j + 1) = { iMode := sIfreg } := hinode
        cases fuel with
        | zero => exact After.throw id
        | succ fuel =>
          rw [createFileLoop, if_neg (Nat.lt_irrefl _)]
          exact After.pure (.inr ⟨j, rfl, ⟨hsane, hmode, hj, hfree, htaken, by rw [hinode], hent⟩, hinode⟩)
  refine hloop.bind fun r d₁ hr => ?_
  rcases hr with rfl | ⟨j, rfl, hnew, hinode⟩
  · exact After.pure (.inl rfl)
  · have hle : j + 1 ≤ g.inodes := (show j + 1 ≤ g.ipg from hnew.lt).trans (Nat.le_mul_of_pos_right _ g.groups_pos)
    rw [if_neg j.succ_ne_zero]
    refine (after_getInode hnew.sane.counts.ipg_eq (by omega) hle).bind ?_
    rintro inode d₂ ⟨hi, hd⟩
    refine After.pure (.inr ?_)
    subst hi hd
    exact ⟨j, rfl, hnew, hinode⟩

/-! ### The data -/

theorem Disk.inUse_of_mem (h : Allotted g d) (hb : b ∈ d.refBlocks g) : d.InUse g b := by
  obtain ⟨k, hk, j, hj, he, -, hbit⟩ := h.taken b hb
  exact ⟨k, hk, j, hj, he, hbit⟩

/-- The pointers of the new blocks stored in the inode of a new file. -/
theorem NewFile.commit (h : NewFile g name j d d₁) (hempty : d₁.treeOf (d₁.inode (j + 1)) = 0)
    (hl : Laying g 24 (fun i => i - 20) slotStart bytes d₁ 24 arr rest d') (hv : inode.Valid) (harr : inode.iBlock = arr)
    (hmode : inode.iMode = sIfreg) : NewFile g name j d (d'.setInode (j + 1) inode).sync := by
  have hle : j + 1 ≤ g.inodes := (show j + 1 ≤ g.ipg from h.lt).trans (Nat.le_mul_of_pos_right _ g.groups_pos)
  have hself : (d'.setInode (j + 1) inode).sync.inode (j + 1) = inode := d'.setInode_self _ _
  have hother : ∀ n, n ≠ j + 1 → (d'.setInode (j + 1) inode).sync.inode n = d₁.inode n := fun n hn =>
    (d'.setInode_ne inode hn).trans (congrFun hl.later.inode n)
  have hdata : ∀ b ∈ d₁.refBlocks g, d'.data b = d₁.data b := fun b hb =>
    hl.later.data b (Disk.inUse_of_mem h.sane.toAllotted hb)
  have htreeData : ∀ n, 1 ≤ n → n ≤ g.inodes → ∀ x ∈ d₁.treeOf (d₁.inode n), d'.data x.2 = d₁.data x.2 :=
    fun n h1 h2 x hx => hdata _ (mem_refBlocks_of_treeOf h1 h2 hx)
  have htree : ∀ n, 1 ≤ n → n ≤ g.inodes → n ≠ j + 1 →
      (d'.setInode (j + 1) inode).sync.treeOf ((d'.setInode (j + 1) inode).sync.inode n) = d₁.treeOf (d₁.inode n) := by
    intro n h1 h2 hn
    rw [hother n hn]
    exact treeOf_congr fun l c hc => htreeData n h1 h2 _ hc
  have hnew : (d'.setInode (j + 1) inode).sync.treeOf ((d'.setInode (j + 1) inode).sync.inode (j + 1)) =
      forest d'.ptr 256 24 (fun i => i - 20) arr + d₁.treeOf (d₁.inode (j + 1)) := by
    rw [hself, hempty, add_zero, ← harr]
    rfl
  have hrefs : (d'.setInode (j + 1) inode).sync.refBlocks g =
      (forest d'.ptr 256 24 (fun i => i - 20) arr).map Prod.snd + d₁.refBlocks g := by
    rw [Disk.refBlocks, refs_add (by omega) hle hnew htree, Multiset.map_add]
    rfl
  have hcounts := hl.later.counts
  have hsane := h.sane
  have hroot : rootIno ≠ j + 1 := fun he => by
    have hm := h.mode
    rw [he, h.file] at hm
    exact absurd hm (by decide)
  have hallot : Allotted g (d'.setInode (j + 1) inode).sync := by
    refine ⟨⟨hcounts.mem, hcounts.free, hcounts.used⟩, ?_, fun b hb => ?_, fun i hi hbit => ?_, fun i hi hbit => ?_,
      fun n h1 h2 => ?_⟩
    · rw [hrefs, Multiset.nodup_add]
      refine ⟨hl.new.nodup, hsane.nodup, Multiset.disjoint_left.2 fun hc hc' => ?_⟩
      obtain ⟨x, hx, rfl⟩ := Multiset.mem_map.1 hc
      exact hl.new.fresh x hx (Disk.inUse_of_mem hsane.toAllotted hc')
    · rw [hrefs, Multiset.mem_add] at hb
      rcases hb with hb | hb
      · obtain ⟨x, hx, rfl⟩ := Multiset.mem_map.1 hb
        obtain ⟨k, hk, i, hi, he, hbit⟩ := hl.new.inUse x hx
        refine ⟨k, hk, i, hi, he, ?_, hbit⟩
        by_contra hlt
        exact hl.new.fresh x hx ⟨k, hk, i, hi, he, hsane.counts.used k hk i (by omega)⟩
      · obtain ⟨k, hk, i, hi, he, hu, hbit⟩ := hsane.taken b hb
        obtain ⟨k', hk', i', hi', he', hbit'⟩ := hl.later.inUse b ⟨k, hk, i, hi, he, hbit⟩
        have h1 := (g.layout hk).le
        have h2 := (g.layout hk').le
        obtain ⟨rfl, rfl⟩ : k' = k ∧ i' = i := by omega
        exact ⟨k', hk, i', hi, he, hu, hbit'⟩
    · have hfree : ¬ d'.InUse g (1 + 8192 * 0 + i) := Disk.not_inUse g.groups_pos hi hbit
      rw [Nat.mul_zero, Nat.add_zero] at hfree
      have hfree₁ : d₁.bit .block 0 i = false := by
        by_contra ht
        exact hfree (hl.later.inUse _ ⟨0, g.groups_pos, i, hi, rfl, by simpa using ht⟩)
      show ∀ i' < 1024, d'.data (1 + i) i' = 0
      rw [hl.later.unused _ hfree]
      exact hsane.zero i hi hfree₁
    · have hbit₁ : d₁.bit .inode 0 i = false := (congrFun (congrFun hl.later.inodeBits 0) i).symm.trans hbit
      have hne : i + 1 ≠ j + 1 := fun he => by
        rw [Nat.succ.inj he, h.taken] at hbit₁
        cases hbit₁
      rw [hother _ hne]
      exact hsane.free i hi hbit₁
    · rcases eq_or_ne n (j + 1) with rfl | hne
      · rw [hself]
        exact hv
      · rw [hother n hne]
        exact hsane.valid n h1 h2
  refine ⟨⟨hallot, fun p h1 h2 hp => ?_⟩, by rw [hother _ hroot]; exact h.mode, h.lt, h.free, ?_, by rw [hself, hmode], ?_⟩
  · have hne : p ≠ j + 1 := by
      rintro rfl
      rw [hself, hmode] at hp
      exact absurd hp (by decide)
    refine (hsane.directory p h1 h2 (hother p hne ▸ hp)).congr (hother p hne) (htreeData p h1 h2) fun i hi => ?_
    exact (congrFun (congrFun hl.later.inodeBits 0) i).trans hi
  · exact (congrFun (congrFun hl.later.inodeBits 0) j).trans h.taken
  · obtain ⟨len, hent⟩ := h.entries
    refine ⟨len, (entriesAt_congr ?_ fun b hb => ?_).trans hent⟩
    · rw [Disk.leavesAt, htree _ one_le_rootIno rootIno_le hroot]
      rfl
    · exact htreeData _ one_le_rootIno rootIno_le _ (mem_leavesAt.1 hb)

/-- The data of a new file written. -/
theorem NewFile.after_data {alloc : M Nat} (ha : Supplies g alloc) (h : NewFile g name j d d₁)
    (hinode : d₁.inode (j + 1) = { iMode := sIfreg }) (hmax : bytes.length ≤ maxFileSize) :
    g.After False d₁ (do
      let r ← writeDataIntoBlocksBy alloc (d₁.inode (j + 1)).iBlock directBlockCount bytes
      let r ← writeIndirect (writeDataInto1IndirectBlocksBy alloc) oneIndirectBlockIndex r
      let r ← writeIndirect (writeDataInto2IndirectBlocksBy alloc) twoIndirectBlockIndex r
      let r ← writeIndirect (writeDataInto3IndirectBlocksBy alloc) threeIndirectBlockIndex r
      updateInode (j + 1) { d₁.inode (j + 1) with iSize := bytes.length % 2 ^ 64, iBlock := r.1 }
      updateSuperBlock
      return true) fun _ d' => NewFile g name j d d' ∧ (d'.inode (j + 1)).iSize = bytes.length ∧
        Filed d' (d'.inode (j + 1)).iBlock bytes := by
  have hle : j + 1 ≤ g.inodes := (show j + 1 ≤ g.ipg from h.lt).trans (Nat.le_mul_of_pos_right _ g.groups_pos)
  have hw0 := laySpec_data ha
  have hw1 : LaySpec g 1 (writeDataInto1IndirectBlocksBy alloc) := laySpec_indirect ha hw0
  have hw2 : LaySpec g 2 (writeDataInto2IndirectBlocksBy alloc) := laySpec_indirect ha hw1
  have hw3 : LaySpec g 3 (writeDataInto3IndirectBlocksBy alloc) := laySpec_indirect ha hw2
  have hstep : ∀ {i d' write r}, i < 24 → LaySpec g (i - 20) write →
      Laying g 24 (fun i => i - 20) slotStart bytes d₁ i r.1 r.2 d' →
      g.After False d' (writeIndirect write i r) fun r' d'' =>
        Laying g 24 (fun i => i - 20) slotStart bytes d₁ (i + 1) r'.1 r'.2 d'' := by
    intro i d' write r hi hw hr
    rw [writeIndirect]
    split
    · exact After.pure (hr.skip steps_slotStart ‹_›)
    · exact hr.after_step steps_slotStart hi hw ‹_›
  have hinit : Laying g 24 (fun i => i - 20) slotStart bytes d₁ 0 (d₁.inode (j + 1)).iBlock bytes d₁ :=
    Laying.init h.sane.counts rfl fun k => by rw [hinode]
  have hdirect := hinit.after_fillBlocks (m := 21) steps_slotStart hw0 (fun k hk => by omega) (by omega) (Nat.zero_add 21)
  rw [← List.range_eq_range'] at hdirect
  refine hdirect.bind fun r₀ d₂ hr₀ => ?_
  refine (hstep (by omega) hw1 hr₀).bind fun r₁ d₃ hr₁ => ?_
  refine (hstep (by omega) hw2 hr₁).bind fun r₂ d₄ hr₂ => ?_
  refine (hstep (by omega) hw3 hr₂).bind fun r₃ d₅ hr₃ => ?_
  have hsize : bytes.length % 2 ^ 64 = bytes.length := Nat.mod_eq_of_lt (by rw [maxFileSize] at hmax; omega)
  have hv := h.sane.valid (j + 1) (by omega) hle
  have hvalid : Inode.Valid { d₁.inode (j + 1) with iSize := bytes.length % 2 ^ 64, iBlock := r₃.1 } := by
    refine ⟨hv.mode, hv.uid, hv.atime, hv.ctime, hv.mtime, hv.dtime, hv.gid, hv.linksCount,
      Nat.mod_lt _ (Nat.two_pow_pos 64), fun k => ?_, fun k hk => hr₃.zero k (.inl hk)⟩
    rcases Nat.lt_or_ge k 24 with hk | hk
    · exact hr₃.lt hk
    · show r₃.1 k < 2 ^ 32
      rw [hr₃.zero k (.inl hk)]
      exact Nat.two_pow_pos 32
  refine (after_updateInode hr₃.later.counts.ipg_eq (by omega) hle hvalid).bind fun _ d₆ hd₆ => ?_
  have hcounts : Counts g d₆ := by
    rw [hd₆]
    exact ⟨hr₃.later.counts.mem, hr₃.later.counts.free, hr₃.later.counts.used⟩
  refine (after_updateSuperBlock hcounts.valid).bind fun _ d₇ hd₇ => After.pure ?_
  subst hd₇ hd₆
  have hempty : d₁.treeOf (d₁.inode (j + 1)) = 0 := treeOf_of_zero fun k _ => by rw [hinode]
  have hfiled : Filed d₅ r₃.1 bytes := hr₃.filed
  have hself : (d₅.setInode (j + 1) { d₁.inode (j + 1) with iSize := bytes.length % 2 ^ 64, iBlock := r₃.1 }).sync.inode
      (j + 1) = { d₁.inode (j + 1) with iSize := bytes.length % 2 ^ 64, iBlock := r₃.1 } := d₅.setInode_self _ _
  refine ⟨h.commit hempty hr₃ hvalid rfl h.file, ?_, ?_⟩
  · rw [hself]
    exact hsize
  · rw [hself]
    exact hfiled.congr fun _ _ _ _ => rfl

/-! ### The file on the image -/

/-- Block `b` of the image. -/
def State.block (s : State) (b : Nat) : Nat → UInt8 := s.window (1024 * b)

/-- The root has an entry of the name, and the inode that it names holds the bytes. -/
def Stored (s : State) (name bytes : List UInt8) : Prop :=
  ∃ e inode, Finds s rootIno name (some e) ∧ (getInode e.inode).run s = .ok (inode, s) ∧ Mapped s.block inode bytes

theorem NewFile.stored (h : NewFile g name j d d') (hs : Rep g s d') (hsize : (d'.inode (j + 1)).iSize = bytes.length)
    (hfiled : Filed d' (d'.inode (j + 1)).iBlock bytes) (hmax : bytes.length ≤ maxFileSize) : Stored s name bytes := by
  have hle : j + 1 ≤ g.inodes := (show j + 1 ≤ g.ipg from h.lt).trans (Nat.le_mul_of_pos_right _ g.groups_pos)
  obtain ⟨len, hent⟩ := h.entries
  obtain ⟨r, hr, hl⟩ := hs.finds h.sane one_le_rootIno rootIno_le h.mode name
  have hmem : newRec name ftRegFile (j + 1) len ∈ d'.entriesAt rootIno := by
    rw [hent]
    exact Multiset.mem_cons_self _ _
  have hunique := (h.sane.directory rootIno one_le_rootIno rootIno_le h.mode).unique
  cases r with
  | none => exact absurd (Multiset.mem_map.2 ⟨_, hmem, rfl⟩) (hl.none_iff.1 rfl)
  | some e =>
    have he : e.inode = j + 1 := by
      rw [hl.entry_eq hunique hmem rfl]
      rfl
    have hget : g.After True d' (getInode (j + 1)) fun r d'' => r = d'.inode (j + 1) ∧ d'' = d' :=
      after_getInode h.sane.counts.ipg_eq (by omega) hle
    obtain ⟨⟨inode, s₁⟩, hri⟩ := (hget s hs).2 trivial
    obtain ⟨_, -, rfl, -⟩ := (hget s hs).1 _ _ hri
    obtain rfl : s₁ = s := Keeps.getInode (P := (· = s)) s _ s₁ rfl hri
    refine ⟨e, _, hr, by rwa [he], ?_⟩
    -- on the image the blocks of the tree are those of the file system it stands for
    have himage : Filed { d' with data := s₁.block } (d'.inode (j + 1)).iBlock bytes := by
      refine hfiled.congr fun x hx i hi => hs.data x.2 ?_ i hi
      exact h.sane.isData (mem_refBlocks_of_treeOf (by omega) hle hx)
    exact himage.mapped rfl hsize hmax

/-- What is written into a block arrives there exactly if its offset fits in 32 bits. -/
theorem updateBlockData_iff (hb : b < 2 ^ 32) : (∀ f len s s', len ≤ 1024 →
    (updateBlockData b f len).run s = .ok ((), s') → ∀ i < len, s'.block b i = f i) ↔ b < 2 ^ 22 := by
  have hmod : blockOffset b = 1024 * b % 2 ^ 32 := by rw [blockOffset, blockSize, Nat.mul_comm, u32]
  have hrun : ∀ f len s, (updateBlockData b f len).run s = .ok ((), s.write (blockOffset b) len f) := fun _ _ _ => rfl
  constructor
  · intro h
    by_contra hge
    -- one byte other than the one that is there, written at a lower offset
    have hone := h (fun _ => 1) 1 ⟨⟨fun _ => 0, 0⟩, ⟨0, 0, 0, 0, 0⟩⟩ _ (by omega) (hrun _ _ _) 0 Nat.one_pos
    have hout : ((State.mk ⟨fun _ => 0, 0⟩ ⟨0, 0, 0, 0, 0⟩).write (blockOffset b) 1 fun _ => 1).block b 0 = 0 :=
      State.window_write_out (n := 1) (.inr (by rw [hmod]; omega)) 0 Nat.one_pos
    exact absurd (hout.symm.trans hone) (by decide)
  · intro hlt f len s s' _ hr i hi
    cases (hrun f len s).symm.trans hr
    rw [hmod, Nat.mod_eq_of_lt (by omega)]
    exact State.window_write_in hi

/-- A call of `write_file` that returns true on a consistent image below 4 GiB, with any function that
supplies unused blocks, has stored the file and kept the image consistent; and a block takes what is written
into it exactly if its number is below 2²². -/
theorem writeFile_stored {alloc : M Nat} (ha : Supplies g alloc) (hs : Rep g s d) (h : Sane g d)
    (hroot : (d.inode rootIno).iMode = sIfdir) (hdst : Legal dst) (hmax : bytes.length ≤ maxFileSize)
    (hr : (writeFileBy alloc fuel bytes dst).run s = .ok (true, s')) :
    (Stored s' (dst.drop 1) bytes ∧ ∃ d' j, Rep g s' d' ∧ NewFile g (dst.drop 1) j d d') ∧
      ∀ b < 2 ^ 32, (∀ f len s s', len ≤ 1024 → (updateBlockData b f len).run s = .ok ((), s') →
        ∀ i < len, s'.block b i = f i) ↔ b < 2 ^ 22 := by
  refine ⟨?_, fun b hb => updateBlockData_iff hb⟩
  obtain ⟨⟨ino, inode⟩, s₁, hcreate, hr'⟩ := bind_ok.1 hr
  dsimp only at hr'
  rcases eq_or_ne ino 0 with h0 | hne
  · rw [if_pos h0] at hr'
    exact absurd (pure_ok.1 hr').1 Bool.false_ne_true
  · rw [if_neg hne] at hr'
    have hsingle := createFileInode_single hdst hcreate hne
    obtain ⟨d₁, hs₁, hcr⟩ := (h.after_createFileInode hroot hdst hsingle s hs).1 _ _ hcreate
    rcases hcr with h0 | ⟨j, hj, hnew, hinode⟩
    · exact absurd h0 hne
    · cases hj
      obtain ⟨sb, s₂, hsb, hr'⟩ := bind_ok.1 hr'
      obtain ⟨_, hs₂, -, rfl⟩ := (after_getSuper (t := False) s₁ hs₁).1 _ _ hsb
      split at hr'
      · obtain ⟨d', hs', hnew', hsize, hfiled⟩ := (hnew.after_data ha hinode hmax s₂ hs₂).1 _ _ hr'
        exact ⟨hnew'.stored hs' hsize hfiled hmax, d', j, hs', hnew'⟩
      · exact absurd (pure_ok.1 hr').1 Bool.false_ne_true

/-- A file of three bytes on a new image. -/
theorem writeFile_stored_a : ∃ s s', (mkfs 20 9).run .start = .ok ((), s) ∧
    (writeFileBy allocBlock 2 [1, 2, 3] [47, 97]).run s = .ok (true, s') ∧ Stored s' [97] [1, 2, 3] := by
  have hrun : returns id ((do mkfs 20 9; writeFileBy allocBlock 2 [1, 2, 3] [47, 97]).run .start) = true := by decide +kernel
  obtain ⟨r, s', hr, hb⟩ := returns_iff hrun
  obtain rfl : r = true := hb
  obtain ⟨_, s, h₁, h₂⟩ := bind_ok.1 hr
  have hroom : ∀ k < groupsOf 19, usedOf 19 9 k < min 8192 (19 - 8192 * k) := by decide
  obtain ⟨s₀, d, h₀, hs, ⟨j, f, hroot⟩, hsb⟩ := mkfs_ok ⟨19, 9, by decide, by decide, by decide, by decide, hroom⟩
  cases h₁.symm.trans h₀
  have hmode := (hroot.image hsb).inv.dir.mode
  have hlegal : Legal [47, 97] := ⟨by decide, by decide, by decide⟩
  exact ⟨_, s', h₀, h₂, (writeFile_stored supplies_allocBlock hs (hroot.sane hsb) hmode hlegal (by decide) h₂).1.1⟩

/-! ### An image of 4 GiB -/

/-- The descriptors of 512 groups of 8192 blocks, with 8 inodes in each group. -/
def edgeDesc (k : Nat) : BlockGroupDescriptor :=
  let bitmap := if k = 0 then 10 else 1 + 8192 * k
  ⟨bitmap, bitmap + 1, bitmap + 2, if k = 0 then 8192 - 13 else 8192 - 3, if k = 0 then 7 else 8⟩

/-- A new image of 2²² blocks and the boot block, with its root directory. -/
def edge : State where
  superBlock := ⟨8 * 512, 2 ^ 22, 8 * 512 - 1, 512 * (8192 - 3) - 10, 8⟩
  img.len := (2 ^ 22 + 1) * 1024
  img.byte off :=
    let i := off % 1024
    match off / 1024 with
    | 0 => 0
    | 1 => ofWords (SuperBlock.words ⟨8 * 512, 2 ^ 22, 8 * 512 - 1, 512 * (8192 - 3) - 10, 8⟩) i
    | 10 => [0xFF, 0xF8].getD i 0
    | 11 => [0x80].getD i 0
    | 12 => ofWords (Inode.words { iMode := sIfdir, iSize := 1024, iBlock := Function.update (fun _ => 0) 0 13 }) i
    | 13 => [1, 0, 0, 0, 12, 0, 1, 2, 46, 0, 0, 0, 1, 0, 0, 0, 12, 0, 2, 2, 46, 46, 0, 0, 0, 0, 0, 0, 232, 3].getD i 0
    | b => if b < 10 then ofWords (edgeDesc ((off - 2048) / 16)).words ((off - 2048) % 16)
      else if b % 8192 = 1 then [0xE0].getD i 0 else 0

/-- The last block of the image is unused. A file of one byte that gets it is not stored: the byte is at
offset 0 of the image. -/
theorem not_writeFile_stored : ∃ s', bitAt (edge.window (1024 * (edgeDesc 511).bgBlockBitmap)) 8191 = false ∧
    (writeFileBy (pure (1 + 8192 * 511 + 8191)) 2 [120] [47, 97]).run edge = .ok (true, s') ∧
    s'.img.byte 0 = 120 ∧ ¬ Stored s' [97] [120] := by
  have hrun : returns id ((do
      let r ← writeFileBy (pure (1 + 8192 * 511 + 8191)) 2 [120] [47, 97]
      let s' ← get
      let e ← getEntryFromDir rootIno [97]
      e.elim (return false) fun e => do
        let inode ← getInode e.inode
        return decide (r = true ∧ s'.img.byte 0 = 120 ∧ s'.block (blockAt s'.block inode 0) 0 ≠ 120)).run edge) = true := by
    decide +kernel
  obtain ⟨_, s₁, hr₁, hb⟩ := returns_iff hrun
  obtain ⟨r, s', h₁, hr₂⟩ := bind_ok.1 hr₁
  obtain ⟨_, _, hget, hr₃⟩ := bind_ok.1 hr₂
  obtain ⟨rfl, rfl⟩ := get_ok.1 hget
  obtain ⟨e, s₂, hfind, hr₄⟩ := bind_ok.1 hr₃
  cases e with
  | none =>
    obtain ⟨rfl, -⟩ := pure_ok.1 hr₄
    cases hb
  | some e =>
    obtain ⟨inode, s₃, hinode, hr₅⟩ := bind_ok.1 hr₄
    obtain ⟨rfl, -⟩ := pure_ok.1 hr₅
    obtain ⟨rfl, hzero, hbyte⟩ := of_decide_eq_true hb
    refine ⟨_, by decide +kernel, h₁, hzero, ?_⟩
    rintro ⟨e', inode', hfind', hinode', hm⟩
    cases hfind'.symm.trans hfind
    cases hinode'.symm.trans hinode
    exact hbyte ((hm.chunk 0 (by decide)).2 0 (by decide) (by decide))

end Airix.Mkfs
