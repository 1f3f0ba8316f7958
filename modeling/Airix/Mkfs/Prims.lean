import Airix.Mkfs.Disk

/-!
# What the primitives of the image builder do to the file system

Each function of `mkfs.c` that reads or writes a descriptor, a bitmap, an inode, the super block or a
data block, as an operation on the `Disk`.
-/

namespace Airix.Mkfs
open Axfs Bytes Exec

variable {t : Prop} {g : Geom} {d : Disk} {k j b ino off len : Nat} {f : Nat → UInt8} {K : Kind}

/-- A computation on images of geometry `g`, started on `d`. -/
abbrev Geom.After (g : Geom) {α : Type} (t : Prop) (d : Disk) (x : M α) (Q : α → Disk → Prop) : Prop :=
  Exec.After t (Rep g) d x Q

namespace Disk

/-- Unit `j` of group `k` taken: its bit set, the group's count lowered. -/
def take (d : Disk) (K : Kind) (k j : Nat) : Disk :=
  { d with
    bit := fun K' k' j' => d.bit K' k' j' || decide (K' = K ∧ k' = k ∧ j' = j)
    free := fun K' k' => if K' = K ∧ k' = k then d.free K' k' - 1 else d.free K' k' }

def setInode (d : Disk) (ino : Nat) (inode : Inode) : Disk := { d with inode := Function.update d.inode ino inode }

def setData (d : Disk) (b : Nat) (f : Nat → UInt8) : Disk := { d with data := Function.update d.data b f }

@[simp] theorem setData_self (d : Disk) (b : Nat) (f : Nat → UInt8) : (d.setData b f).data b = f :=
  Function.update_self _ _ _

theorem setData_ne (d : Disk) {b c : Nat} (f : Nat → UInt8) (h : c ≠ b) : (d.setData b f).data c = d.data c :=
  Function.update_of_ne h _ _

@[simp] theorem setInode_self (d : Disk) (ino : Nat) (inode : Inode) : (d.setInode ino inode).inode ino = inode :=
  Function.update_self _ _ _

theorem setInode_ne (d : Disk) {n ino : Nat} (inode : Inode) (h : n ≠ ino) :
    (d.setInode ino inode).inode n = d.inode n := Function.update_of_ne h _ _

/-- The super block's count in memory lowered. -/
def decMem (d : Disk) : Kind → Disk
  | .block => { d with mem := { d.mem with sFreeBlocksCount := d.mem.sFreeBlocksCount - 1 } }
  | .inode => { d with mem := { d.mem with sFreeInodesCount := d.mem.sFreeInodesCount - 1 } }

/-- The super block written. -/
def sync (d : Disk) : Disk := { d with sb := d.mem }

end Disk

theorem u32Sub_of_le {a b : Nat} (hb : b ≤ a) (ha : a < 2 ^ 32) : u32Sub a b = a - b := by
  simp only [u32Sub, u32]
  omega

theorem u16Sub_of_le {a b : Nat} (hb : b ≤ a) (ha : a < 2 ^ 16) : u16Sub a b = a - b := by
  simp only [u16Sub]
  omega

theorem blockOffset_of_lt (h : 1024 * b < 2 ^ 32) : blockOffset b = 1024 * b := by
  rw [blockOffset, blockSize, Nat.mul_comm, u32_of_lt h]

theorem descOffset_eq : descOffset k = 2048 + 16 * k := by
  simp only [descOffset, BlockGroupDescriptor.size, superBlockNo, blockSize]
  omega

/-! ### Access to the image -/

theorem after_fread : g.After t d (fread off) (fun f d' => d' = d ∧ ∃ s, Rep g s d ∧ f = s.window off) := by
  refine After.get.bind fun s d' ⟨hd, hs⟩ => After.pure ⟨hd, s, hs, rfl⟩

theorem after_fwrite {d' : Disk} (h : ∀ s, Rep g s d → Rep g (s.write off len f) d') :
    g.After t d (fwrite off len f) (fun _ e => e = d') := After.of_modify h

theorem after_getSuper : g.After t d getSuper (fun sb d' => sb = d.mem ∧ d' = d) := by
  refine After.get.bind fun s d' ⟨hd, hs⟩ => After.pure ⟨hs.mem, hd⟩

/-! ### Descriptors and bitmaps -/

theorem after_getBlockGroupMetadata (hk : k < g.groups) :
    g.After t d (getBlockGroupMetadata k) (fun r d' => r = d.desc g k ∧ d' = d) := by
  rw [getBlockGroupMetadata, descOffset_eq]
  refine after_fread.bind ?_
  rintro f d' ⟨hd, s, hs, hf⟩
  refine After.pure ⟨?_, hd⟩
  rw [hf, hs.desc k hk]

theorem after_updateBitmap (hk : k < g.groups) (hj : j < 8192) :
    g.After t d (updateBitmap (g.bitmap K k) j) (fun _ d' =>
      d' = { d with bit := fun K' k' j' => d.bit K' k' j' || decide (K' = K ∧ k' = k ∧ j' = j) }) := by
  have hoff : u32 (g.bitmap K k * blockSize + j / 8) = 1024 * g.bitmap K k + j / 8 := by
    have hs := g.bitmap_spec K k
    obtain ⟨_, _, _, _, _, _, _, _, _⟩ := g.layout hk
    rw [blockSize, u32_of_lt (by omega)]
    omega
  rw [updateBitmap, hoff]
  exact After.of_run fun s hs => ⟨(), _, _, rfl, hs.write_bit K hk hj, rfl⟩

/-- Setting a unit's bit and lowering the count of its group. -/
theorem after_take (hk : k < g.groups) (hj : j < 8192) (hfree : ∀ K, d.free K k < 2 ^ 16)
    {desc : BlockGroupDescriptor} (hdesc : desc = (d.take K k j).desc g k) :
    g.After t d (do updateBitmap (g.bitmap K k) j; updateBlockGroupMetadata k desc) (fun _ d' => d' = d.take K k j) := by
  refine (after_updateBitmap hk hj).bind fun _ d' hd' => ?_
  subst hd' hdesc
  rw [updateBlockGroupMetadata, descOffset_eq]
  refine after_fwrite fun s hs => ?_
  have hlt : ∀ K', (d.take K k j).free K' k < 2 ^ 16 := by
    intro K'
    have h := hfree K'
    simp only [Disk.take]
    split <;> omega
  have hup : (fun K' => Function.update (d.free K') k ((d.take K k j).free K' k)) = (d.take K k j).free := by
    funext K' k'
    rcases eq_or_ne k' k with rfl | hne
    · rw [Function.update_self]
    · simp only [Function.update_of_ne hne, Disk.take, hne, and_false, if_false]
  have h := hs.write_desc hk hlt
  simp only [hup] at h
  exact h

/-! ### Inodes -/

theorem after_seekInode (hmem : d.mem.sInodesPerGroup = g.ipg) (h1 : 1 ≤ ino) (h2 : ino ≤ g.inodes) :
    g.After t d (seekInode ino) (fun r d' => r = (d.desc g ((ino - 1) / g.ipg), g.inodeOff ino) ∧ d' = d) := by
  obtain ⟨k, j, hk, hj, ho, hino, hdiv, hmod⟩ := g.inodeOff_spec h1 h2
  obtain ⟨_, _, _, _, _, _, _, _, _⟩ := g.layout hk
  have hsub : u32Sub ino 1 = ino - 1 := u32Sub_of_le h1 (h2.trans_lt g.inodes_lt)
  refine after_getSuper.bind ?_
  rintro sb d' ⟨hsb, hd⟩
  subst hsb hd
  rw [hmem, if_neg g.ipg_pos.ne', hsub]
  dsimp only
  rw [hdiv, hmod]
  refine (after_getBlockGroupMetadata hk).bind ?_
  rintro desc d' ⟨hdesc, hd⟩
  refine After.pure ⟨?_, hd⟩
  subst hdesc
  have hoff : (d'.desc g k).bgInodeTable = g.bitmapBlock k + 2 := by subst hd; rfl
  rw [← hd, hoff, blockOffset_of_lt (by omega), ho, Inode.size, Nat.mul_comm, Nat.add_comm]

theorem after_updateInode (hmem : d.mem.sInodesPerGroup = g.ipg) (h1 : 1 ≤ ino) (h2 : ino ≤ g.inodes)
    {inode : Inode} (hv : inode.Valid) :
    g.After t d (updateInode ino inode) (fun _ d' => d' = d.setInode ino inode) := by
  refine (after_seekInode hmem h1 h2).bind ?_
  rintro r d' ⟨hr, hd⟩
  subst hr hd
  exact after_fwrite fun s hs => hs.write_inode h1 h2 hv

theorem after_getInode (hmem : d.mem.sInodesPerGroup = g.ipg) (h1 : 1 ≤ ino) (h2 : ino ≤ g.inodes) :
    g.After t d (getInode ino) (fun r d' => r = d.inode ino ∧ d' = d) := by
  refine (after_seekInode hmem h1 h2).bind ?_
  rintro r d' ⟨hr, hd⟩
  subst hr hd
  refine after_fread.bind ?_
  rintro f d' ⟨hd, s, hs, hf⟩
  refine After.pure ⟨?_, hd⟩
  rw [hf]
  exact hs.inode ino h1 h2

theorem after_writeInode (hmem : d.mem.sInodesPerGroup = g.ipg) (h1 : 1 ≤ ino) (h2 : ino ≤ g.inodes)
    {inode : Inode} (hv : inode.Valid) (hfree : ∀ K, d.free K ((ino - 1) / g.ipg) < 2 ^ 16)
    (hpos : 0 < d.free .inode ((ino - 1) / g.ipg)) :
    g.After t d (writeInode ino inode) (fun _ d' =>
      d' = (d.setInode ino inode).take .inode ((ino - 1) / g.ipg) ((ino - 1) % g.ipg)) := by
  obtain ⟨k, j, hk, hj, -, hino, hdiv, hmod⟩ := g.inodeOff_spec h1 h2
  have hsub : u32Sub ino 1 = ino - 1 := u32Sub_of_le h1 (h2.trans_lt g.inodes_lt)
  refine (after_seekInode hmem h1 h2).bind ?_
  rintro r d' ⟨hr, hd⟩
  subst hr hd
  refine after_getSuper.bind ?_
  rintro sb d'' ⟨hsb, hd⟩
  subst hsb hd
  dsimp only
  rw [hmem, hsub]
  refine (after_fwrite fun s hs => hs.write_inode h1 h2 hv).bind fun _ d' hd => ?_
  subst hd
  rw [hdiv, hmod] at *
  refine after_take (K := .inode) (d := d''.setInode ino inode) hk (hj.trans_le g.ipg_le) hfree ?_
  simp only [Disk.setInode]
  simp only [Disk.desc, Disk.take, reduceCtorEq, false_and, if_false, and_self, if_true,
    u16Sub_of_le (show 1 ≤ d''.free .inode k from hpos) (hfree _)]

/-! ### Blocks and the super block -/

theorem IsData.lt (h : g.IsData b) : 1024 * b + 1024 ≤ 2 ^ 32 := by
  obtain ⟨k, hk, hb1, hb2⟩ := h
  obtain ⟨_, _, _, _, _, _, _, _, _⟩ := g.layout hk
  omega

theorem after_updateBlockBitmap (hk : k < g.groups) (hj : j < 8192) (hb : b = 1 + 8192 * k + j) (hlt : b < 2 ^ 32)
    (hfree : ∀ K, d.free K k < 2 ^ 16) (hpos : 0 < d.free .block k) :
    g.After t d (updateBlockBitmap b) (fun _ d' => d' = d.take .block k j) := by
  have hbg : u32Sub b superBlockNo / blocksPerGroup = k ∧ u32Sub b superBlockNo % blocksPerGroup = j := by
    simp only [superBlockNo, blocksPerGroup, blockSize]
    rw [u32Sub_of_le (by omega) hlt]
    omega
  rw [updateBlockBitmap]
  simp only [hbg]
  refine (after_getBlockGroupMetadata hk).bind ?_
  rintro desc d' ⟨hdesc, hd⟩
  subst hdesc hd
  refine after_take (K := .block) hk hj hfree ?_
  simp only [Disk.desc, Disk.take, reduceCtorEq, false_and, if_false, and_self, if_true,
    u16Sub_of_le (show 1 ≤ d'.free .block k from hpos) (hfree _)]

theorem after_updateSuperBlock (hv : d.mem.Valid) : g.After t d updateSuperBlock (fun _ d' => d' = d.sync) := by
  refine after_getSuper.bind ?_
  rintro sb d' ⟨hsb, hd⟩
  subst hsb hd
  exact after_fwrite fun s hs => hs.write_super hv

theorem after_decFreeBlocks (hpos : 0 < d.mem.sFreeBlocksCount) (hlt : d.mem.sFreeBlocksCount < 2 ^ 32) :
    g.After t d decFreeBlocks (fun _ d' => d' = d.decMem .block) := by
  refine After.of_modify fun s hs => ?_
  rw [hs.mem, u32Sub_of_le hpos hlt]
  exact hs.set_super _

theorem after_decFreeInodes (hpos : 0 < d.mem.sFreeInodesCount) (hlt : d.mem.sFreeInodesCount < 2 ^ 32) :
    g.After t d decFreeInodes (fun _ d' => d' = d.decMem .inode) := by
  refine After.of_modify fun s hs => ?_
  rw [hs.mem, u32Sub_of_le hpos hlt]
  exact hs.set_super _

theorem after_readBlockData (hb : g.IsData b) :
    g.After t d (readBlockData b) (fun f d' => d' = d ∧ ∀ i < 1024, f i = d.data b i) := by
  rw [readBlockData, blockOffset_of_lt (by have := IsData.lt hb; omega)]
  refine after_fread.mono ?_
  rintro f d' ⟨hd, s, hs, hf⟩
  refine ⟨hd, fun i hi => ?_⟩
  rw [hf]
  exact hs.data b hb i hi

/-- A write into a data block. -/
theorem after_fwrite_data (hb : g.IsData b) {o : Nat} (ho : o + len ≤ 1024) :
    g.After t d (fwrite (blockOffset b + o) len f) (fun _ d' => d' = d.setData b (put (d.data b) o len f)) := by
  rw [blockOffset_of_lt (by have := IsData.lt hb; omega)]
  exact after_fwrite fun s hs => hs.write_data hb ho

theorem after_updateBlockData (hb : g.IsData b) (hlen : len ≤ 1024) :
    g.After t d (updateBlockData b f len) (fun _ d' => d' = d.setData b (put (d.data b) 0 len f)) :=
  after_fwrite_data (o := 0) hb (by omega)

/-! ### What a computation keeps -/

/-- When `x` returns, the state still has the property. -/
def Keeps {α : Type} (P : State → Prop) (x : M α) : Prop := ∀ s a s', P s → x.run s = .ok (a, s') → P s'

/-- A property that neither writing to the image nor changing the counters of the super block ends. -/
structure Stable (P : State → Prop) : Prop where
  write : ∀ s off len f, P s → P (s.write off len f)
  counts : ∀ s i b, P s → P { s with superBlock := { s.superBlock with sFreeInodesCount := i, sFreeBlocksCount := b } }

namespace Keeps
variable {α β : Type} {P : State → Prop}

theorem bind {x : M β} {f : β → M α} (hx : Keeps P x) (hf : ∀ b, Keeps P (f b)) : Keeps P (x >>= f) := by
  intro s a s' hs h
  obtain ⟨b, u, h₁, h₂⟩ := bind_ok.1 h
  exact hf b u a s' (hx s b u hs h₁) h₂

theorem pure {a : α} : Keeps P (Pure.pure a) := by
  intro s b s' hs h
  obtain ⟨-, rfl⟩ := pure_ok.1 h
  exact hs

theorem throw {e : Err} : Keeps P (throw e : M α) := fun _ _ _ _ h => absurd h throw_ok

theorem get : Keeps P (MonadState.get : M State) := by
  intro s a s' hs h
  obtain ⟨-, rfl⟩ := get_ok.1 h
  exact hs

theorem lift {x : Except Err α} : Keeps P (liftM x : M α) := by
  intro s a s' hs h
  cases x with
  | error e => cases h
  | ok b =>
    cases h
    exact hs

theorem fread : Keeps P (fread off) := get.bind fun _ => pure

theorem getSuper : Keeps P getSuper := get.bind fun _ => pure

theorem getBlockGroupMetadata : Keeps P (getBlockGroupMetadata k) := fread.bind fun _ => pure

theorem allocLoop {alloc : Nat → M Nat} {accept : Nat → Bool} (h : ∀ i, Keeps P (alloc i)) (l : List Nat) :
    Keeps P (allocLoop alloc accept l) := by
  induction l with
  | nil => exact throw
  | cons i l ih =>
    refine (h i).bind fun n => ?_
    split
    · exact pure
    · exact ih

theorem allocBlock : Keeps P allocBlock := by
  refine getSuper.bind fun sb => allocLoop (fun i => getBlockGroupMetadata.bind fun desc => ?_) _
  split
  · refine fread.bind fun f => ?_
    split <;> exact pure
  · exact pure

theorem allocInodeNo : Keeps P allocInodeNo := by
  refine getSuper.bind fun sb => ?_
  split
  · exact throw
  · refine allocLoop (fun i => getBlockGroupMetadata.bind fun desc => ?_) _
    split
    · refine fread.bind fun f => getSuper.bind fun sb => ?_
      split <;> exact pure
    · exact pure

theorem seekInode : Keeps P (seekInode ino) := by
  refine getSuper.bind fun sb => ?_
  split
  · exact throw
  · exact getBlockGroupMetadata.bind fun desc => pure

section Stable
variable (hP : Stable P)
include hP

theorem fwrite : Keeps P (fwrite off len f) := by
  intro s a s' hs h
  rw [modify_ok.1 h]
  exact hP.write s off len f hs

theorem modifyCounts {i b : State → Nat} : Keeps P (modify fun s => { s with superBlock := { s.superBlock with
    sFreeInodesCount := i s, sFreeBlocksCount := b s } }) := by
  intro s a s' hs h
  rw [modify_ok.1 h]
  exact hP.counts s _ _ hs

theorem updateBitmap {bitmap : Nat} : Keeps P (updateBitmap bitmap j) := fread.bind fun _ => fwrite hP

theorem updateBlockBitmap : Keeps P (updateBlockBitmap b) :=
  getBlockGroupMetadata.bind fun _ => (updateBitmap hP).bind fun _ => fwrite hP

theorem writeInode {inode : Inode} : Keeps P (writeInode ino inode) :=
  seekInode.bind fun _ => getSuper.bind fun _ => (fwrite hP).bind fun _ => (updateBitmap hP).bind fun _ => fwrite hP

theorem writeSuperBlock : Keeps P writeSuperBlock := getSuper.bind fun _ => fwrite hP

theorem writePaddingEntry {padding : Nat} : Keeps P (writePaddingEntry off padding) := by
  rw [Mkfs.writePaddingEntry]
  split
  · exact pure
  · exact fwrite hP

theorem writeDirEntryToBlock {ft : Nat} {name : List UInt8} : Keeps P (writeDirEntryToBlock b name ft ino) := by
  refine fread.bind fun m => lift.bind fun r => ?_
  dsimp only
  split
  · refine Keeps.bind ?_ fun _ => pure
    rw [writeDirEntryHere]
    split
    · exact fwrite hP
    · exact (fwrite hP).bind fun _ => writePaddingEntry hP
  · exact pure

end Stable

end Keeps

end Airix.Mkfs
