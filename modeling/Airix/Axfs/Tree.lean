import Airix.Axfs.Reads
import Mathlib.Data.List.Find

/-!
# Inodes and directories

The functions below `namei` on a well-formed volume: `inode_get` returns the inode that is on the disk,
`dir_find_ino` the inode number that the directory has for a name, unless a block of it could not be read.
-/

namespace Airix.Axfs
open Bytes Prog
open Mkfs (Rec recAt Tiles dirEntries DirBlock blocksOf groupsOf blocksOf_le)

/-! ### Where things are -/

section Places
variable {m : Machine} {dev : UInt8} {sector : UInt64} {data : Nat → UInt8} {ino bg off b k : Nat}

theorem toNat_sectorNo (h : 2 * b + k < 2 ^ 64) : (sectorNo b + UInt64.ofNat k).toNat = 2 * b + k := by
  rw [sectorNo, UInt64.toNat_add, UInt64.toNat_mul, UInt64.toNat_ofNat', UInt64.toNat_ofNat', UInt64.toNat_ofNat',
    blockSize, sectorSize]
  omega

theorem toNat_sectorNo32 (h : b < 2 ^ 31) : (sectorNo32 b).toNat = 2 * b := by
  rw [sectorNo32, u32, UInt64.toNat_ofNat', blockSize, sectorSize]
  omega

/-- A buffer has what is on the disk from the byte `off` on. -/
theorem Machine.OnDisk.advance (h : m.OnDisk dev sector data) (hs : sector.toNat = off / 512) {i : Nat}
    (hi : off % 512 + i < 4096 - off / 512 % 8 * 512) : advance data (off % 512) i = m.bytes dev (off + i) := by
  rw [Axfs.advance, h (off % 512 + i) (by rw [hs]; exact hi), hs]
  exact congrArg (m.disk dev) (by omega)

theorem Disk.count_lt {d : Disk} : d.superBlock.sInodesCount < 2 ^ 32 := word_lt

namespace Volume
variable (hv : Volume m dev)
include hv

theorem inRange (h : sector.toNat / 2 ≤ (m.bytes dev).superBlock.sBlocksCount) : m.InRange dev sector := by
  obtain ⟨n, hn, h8, hle⟩ := hv.sectors
  exact ⟨n, hn, by omega⟩

theorem groups_lt : 16 * (m.bytes dev).groups < 2 ^ 32 := by
  have hb := hv.blocks_lt
  simp only [Disk.groups, groupsOf, ne_eq, ite_not]
  split <;> omega

theorem group_lt (h1 : 1 ≤ ino) (h2 : ino ≤ (m.bytes dev).superBlock.sInodesCount) :
    (m.bytes dev).group ino < (m.bytes dev).groups := by
  rw [hv.inodes] at h2
  exact Nat.div_lt_of_lt_mul (by omega)

theorem index_lt : (m.bytes dev).index ino < (m.bytes dev).superBlock.sInodesPerGroup := Nat.mod_lt _ hv.ipg_pos

theorem descOff_block (h : bg < (m.bytes dev).groups) :
    Disk.descOff bg / 1024 ≤ (m.bytes dev).superBlock.sBlocksCount := by
  have hd := hv.descs
  have hle := blocksOf_le (16 * (m.bytes dev).groups)
  simp only [Disk.descOff, superBlockNo, BlockGroupDescriptor.size]
  omega

theorem inodeOff_block (h1 : 1 ≤ ino) (h2 : ino ≤ (m.bytes dev).superBlock.sInodesCount) :
    (m.bytes dev).inodeOff ino / 1024 ≤ (m.bytes dev).superBlock.sBlocksCount := by
  have ht := hv.tables _ (hv.group_lt h1 h2)
  have hle := blocksOf_le (128 * (m.bytes dev).superBlock.sInodesPerGroup)
  have hi : (m.bytes dev).index ino < _ := hv.index_lt
  simp only [Disk.inodeOff, Inode.size]
  omega

end Volume

end Places

namespace Machine
variable {m : Machine} {dev : UInt8} {t : Prop} {s s' : Kern} {ino bg b : Nat} {name : List UInt8}

/-! ### Inodes -/

theorem does_getSuperBlock (hv : Volume m dev) (hs : s.Idle) (ht : t → m.memory) :
    m.Does dev t (getSuperBlock dev) s (fun sb s' => s' = s ∧ sb = (m.bytes dev).superBlock) := by
  have hsector : (sectorNo superBlockNo).toNat = 2 := by decide
  have hblocks := hv.descs
  refine (runs_readMeta hs ht (hv.inRange (by omega)) ⟨rfl, .inl hsector⟩).mono ?_
  rintro sb s' ⟨he, data, hd, hr⟩
  refine ⟨he, ?_⟩
  rw [hr]
  refine SuperBlock.ofBytes_congr fun i hi => ?_
  have hi : i < 20 := hi
  rw [hd i (by rw [hsector]; omega), hsector]
  rfl

theorem does_getBgInodeTable (hv : Volume m dev) (hs : s.Idle) (ht : t → m.memory) (hbg : bg < (m.bytes dev).groups) :
    m.Does dev t (getBgInodeTable dev bg) s (fun r s' => s' = s ∧ r = (m.bytes dev).inodeTable bg) := by
  have hlt := hv.groups_lt
  have hoff : u32 (BlockGroupDescriptor.size * bg) = 16 * bg := u32_of_lt (show 16 * bg < 2 ^ 32 by omega)
  have hblock := hv.descOff_block hbg
  have hdesc : Disk.descOff bg = 2048 + 16 * bg := by
    simp only [Disk.descOff, superBlockNo, BlockGroupDescriptor.size]
  unfold getBgInodeTable
  rw [hoff]
  have hsector : (sectorNo (16 * bg / blockSize + superBlockNo + 1) + UInt64.ofNat (16 * bg % blockSize / sectorSize)).toNat
      = Disk.descOff bg / 512 := by
    simp only [superBlockNo, blockSize, sectorSize]
    rw [toNat_sectorNo (by omega), hdesc]
    omega
  refine (runs_readMeta hs ht (hv.inRange (by omega)) ⟨rfl, .inr (.inl ⟨bg, hbg, hsector⟩)⟩).mono ?_
  rintro r s' ⟨he, data, hd, hr⟩
  refine ⟨he, ?_⟩
  rw [hr]
  refine congrArg BlockGroupDescriptor.bgInodeTable (BlockGroupDescriptor.ofBytes_congr fun i hi => ?_)
  have hi : i < 16 := hi
  have hmod : 16 * bg % sectorSize = Disk.descOff bg % 512 := by
    rw [hdesc, sectorSize]
    omega
  rw [hmod, hd.advance hsector (by omega)]
  rfl

theorem does_inodeRead (hv : Volume m dev) (hs : s.Idle) (ht : t → m.memory) (h1 : 1 ≤ ino)
    (h2 : ino ≤ (m.bytes dev).superBlock.sInodesCount) :
    m.Does dev t (inodeRead dev ((m.bytes dev).group ino) ((m.bytes dev).index ino)) s
      (fun r s' => s' = s ∧ r = (m.bytes dev).inode ino) := by
  have hbg := hv.group_lt h1 h2
  have hindex : (m.bytes dev).index ino < _ := hv.index_lt
  have hipg := hv.ipg_le
  have hblock := hv.inodeOff_block h1 h2
  have hcount := hv.blocks_lt
  have hino : (m.bytes dev).inodeOff ino =
    1024 * (m.bytes dev).inodeTable ((m.bytes dev).group ino) + 128 * (m.bytes dev).index ino := rfl
  have hoff : u32 (Inode.size * (m.bytes dev).index ino) = 128 * (m.bytes dev).index ino :=
    u32_of_lt (show 128 * (m.bytes dev).index ino < 2 ^ 32 by omega)
  refine (does_getBgInodeTable hv hs ht hbg).bind ?_
  rintro table s₁ ⟨he, htable⟩
  subst he htable
  dsimp only
  rw [hoff]
  have hwrap : u32 ((m.bytes dev).inodeTable ((m.bytes dev).group ino) + 128 * (m.bytes dev).index ino / blockSize) =
      (m.bytes dev).inodeOff ino / 1024 := by
    rw [u32_of_lt (by rw [blockSize]; omega), blockSize]
    omega
  rw [hwrap]
  have hsector : (sectorNo ((m.bytes dev).inodeOff ino / 1024) +
      UInt64.ofNat (128 * (m.bytes dev).index ino % blockSize / sectorSize)).toNat = (m.bytes dev).inodeOff ino / 512 := by
    simp only [blockSize, sectorSize]
    rw [toNat_sectorNo (by omega)]
    omega
  refine (runs_readMeta hs ht (hv.inRange (by omega)) ⟨rfl, .inr (.inr ⟨ino, h1, h2, hsector⟩)⟩).mono ?_
  rintro r s' ⟨he, data, hd, hr⟩
  refine ⟨he, ?_⟩
  rw [hr]
  refine Inode.ofBytes_congr fun i hi => ?_
  have hi : i < 128 := hi
  have hmod : 128 * (m.bytes dev).index ino % blockSize % sectorSize = (m.bytes dev).inodeOff ino % 512 := by
    rw [blockSize, sectorSize]
    omega
  rw [hmod, hd.advance hsector (by omega)]
  rfl

/-- The state with the inode at `o` allocated. -/
def withInode (s : Kern) (o : Nat) : Kern := { s with live := Function.update s.live o (some (.slab .axInode)) }

/-- What `inode_get` comes to. -/
def Got (m : Machine) (dev : UInt8) (ino : Nat) (s : Kern) (r : Option InodePtr) (s' : Kern) : Prop :=
  (∃ o, r = some ⟨o, (m.bytes dev).inode ino⟩ ∧ o ≠ 0 ∧ s.live o = none ∧ s' = withInode s o) ∨
    ¬ m.memory ∧ r = none ∧ s' = s

theorem does_inodeGet (hv : Volume m dev) (hs : s.Idle) (ht : t → ¬ m.Short s) (h1 : 1 ≤ ino)
    (h2 : ino ≤ (m.bytes dev).superBlock.sInodesCount) :
    m.Does dev t (inodeGet (m.bytes dev).superBlock dev ino) s (m.Got dev ino s) := by
  have hmem : t → m.memory := fun h => not_not.1 fun hn => ht h (.inl hn)
  have hcount := (m.bytes dev).count_lt
  have hsub : u32Sub ino 1 = ino - 1 := by
    rw [u32Sub, u32]
    omega
  have hne : ¬ (m.bytes dev).superBlock.sInodesPerGroup = 0 := fun h => absurd hv.ipg_pos (by omega)
  refine Runs.bind (Runs.perform ht fun o s' ho => ho) fun o s₁ ho => ?_
  unfold inodeBgIndex inodeIndexInBg
  rw [if_neg hne, if_neg hne, pure_bind, pure_bind, hsub]
  rcases ho with ⟨hne, hfree, rfl⟩ | ⟨hm, rfl, rfl⟩
  · rw [if_pos hne]
    have hs' : (withInode s o).Idle := ⟨hs.held, hs.good⟩
    refine (does_inodeRead hv hs' hmem h1 h2).bind ?_
    rintro inode s₂ ⟨he, hi⟩
    exact Runs.pure (.inl ⟨o, by rw [hi], hne, hfree, he⟩)
  · rw [if_neg (by simp)]
    exact Runs.pure (.inr ⟨hm, rfl, rfl⟩)

theorem does_inodeRelease {o : Nat} {inode : Inode} (hfree : s.live o = none) :
    m.Does dev t (inodeRelease (some ⟨o, inode⟩)) (withInode s o) (fun _ s' => s' = s) := by
  have hlive : (withInode s o).live o = some (.slab .axInode) := Function.update_self ..
  refine Runs.perform (fun _ h => h hlive) fun _ s' ⟨_, he⟩ => ?_
  rw [he]
  obtain ⟨held, failed, misused, live, files⟩ := s
  have hfree : live o = none := hfree
  show Kern.mk held failed misused (Function.update (Function.update live o (some (.slab .axInode))) o none) files = _
  rw [Function.update_idem, ← hfree, Function.update_eq_self]

end Machine

/-! ### Directory blocks -/

section Blocks
variable {f f' : Nat → UInt8} {name : List UInt8} {a b fuel : Nat} {rs rs' : List Rec}

theorem findName_cons {r : Rec} :
    findName (r :: rs) name = if r.name = name then r.entry.inode else findName rs name := by
  unfold findName
  rw [List.find?_cons]
  by_cases h : r.name = name
  · rw [if_pos h, decide_eq_true h]
    rfl
  · rw [if_neg h, decide_eq_false h]

theorem findName_append (hne : ∀ r ∈ rs, r.name = name → r.entry.inode ≠ 0) :
    findName (rs ++ rs') name = if findName rs name = 0 then findName rs' name else findName rs name := by
  induction rs with
  | nil => rfl
  | cons r rs ih =>
    rw [List.cons_append, findName_cons, findName_cons]
    by_cases h : r.name = name
    · rw [if_pos h, if_pos h, if_neg (hne r (List.mem_cons_self ..) h)]
    · rw [if_neg h, if_neg h]
      exact ih fun r hr => hne r (List.mem_cons_of_mem _ hr)

/-- A number that is found belongs to a record. -/
theorem mem_of_findName (h : findName rs name ≠ 0) : ∃ r ∈ rs, r.name = name ∧ r.entry.inode = findName rs name := by
  induction rs with
  | nil => exact absurd rfl h
  | cons r rs ih =>
    rw [findName_cons] at h ⊢
    by_cases hr : r.name = name
    · rw [if_pos hr]
      exact ⟨r, List.mem_cons_self .., hr, rfl⟩
    · rw [if_neg hr] at h ⊢
      obtain ⟨q, hq, hn⟩ := ih h
      exact ⟨q, List.mem_cons_of_mem _ hq, hn⟩

theorem findName_of_mem (hnd : (rs.map Rec.name).Nodup) {r : Rec} (hr : r ∈ rs) :
    findName rs r.name = r.entry.inode := by
  induction rs with
  | nil => cases hr
  | cons q rs ih =>
    rw [List.map_cons, List.nodup_cons] at hnd
    rw [findName_cons]
    rcases List.mem_cons.1 hr with rfl | hr
    · exact if_pos rfl
    · have hne : q.name ≠ r.name := fun he => hnd.1 (he ▸ List.mem_map_of_mem hr)
      rw [if_neg hne]
      exact ih hnd.2 hr

/-- Records of unused space do not have the name. -/
theorem findName_filter (h : ∀ r ∈ rs, r.entry.fileType = ftUnknown → r.name ≠ name) :
    findName (rs.filter fun r => r.entry.fileType ≠ ftUnknown) name = findName rs name := by
  unfold findName
  rw [List.find?_filter, List.find?_congr fun r hr => ?_]
  by_cases hft : r.entry.fileType = ftUnknown
  · simp [hft, h r hr hft]
  · simp [hft]

/-- The comparison of `block_find_ino`. -/
theorem matches_iff {n : Nat} : (n = name.length ∧ (List.range name.length).all (fun i => name.getD i 0 == f (a + i)) = true) ↔
    (List.range n).map (fun i => f (a + i)) = name := by
  constructor
  · rintro ⟨rfl, h⟩
    refine List.ext_getElem (by simp) fun i h1 h2 => ?_
    have hi := List.all_eq_true.1 h i (List.mem_range.2 h2)
    rw [List.getElem_map, List.getElem_range, ← beq_iff_eq.1 hi]
    exact List.getD_eq_getElem _ _ h2
  · rintro rfl
    refine ⟨by simp, List.all_eq_true.2 fun i hi => ?_⟩
    have hi : i < n := by simpa using hi
    simp [List.getD_eq_getElem?_getD, hi]

theorem findEntry_tiles (h : Tiles f a rs 1024) (hfuel : 1024 ≤ a + fuel) : findEntry f name fuel a = findName rs name := by
  induction rs generalizing a fuel with
  | nil =>
    have ha : a = 1024 := h
    cases fuel with
    | zero => rfl
    | succ fuel => exact if_neg (by rw [blockSize]; omega)
  | cons r rs ih =>
    obtain ⟨hr, hlen, hrest⟩ := h
    have hle := hrest.le
    cases fuel with
    | zero => omega
    | succ fuel =>
      have hentry : DirectoryEntry.ofBytes (advance f a) = r.entry := congrArg Rec.entry hr
      have hname : (List.range r.entry.nameLen).map (fun i => f (a + 8 + i)) = r.name := by
        rw [← hr]
        rfl
      rw [findEntry, if_pos (by rw [blockSize]; omega), findName_cons]
      simp only [hentry, DirectoryEntry.size, matches_iff, hname]
      rw [if_neg (show ¬ r.entry.recLen = 0 by omega), ih hrest (by omega)]

theorem findEntry_block (h : DirBlock f rs) (hname : name ≠ []) :
    findEntry f name blockSize 0 = findName (dirEntries f) name := by
  rw [findEntry_tiles h.tiles (by rw [blockSize]), h.tiles.dirEntries_eq]
  exact (findName_filter fun r hr hft he => hname (he.symm.trans (h.unknown r hr hft))).symm

end Blocks

/-! ### Searching a directory -/

/-- The state after the reads `l` have failed. -/
def Kern.fail (s : Kern) (l : List (UInt8 × UInt64)) : Kern := { s with failed := l ++ s.failed }

theorem Kern.Idle.fail {s : Kern} (h : s.Idle) (l : List (UInt8 × UInt64)) : (s.fail l).Idle := ⟨h.held, h.good⟩

@[simp] theorem Kern.fail_nil (s : Kern) : s.fail [] = s := rfl

@[simp] theorem Kern.fail_fail (s : Kern) (l l' : List (UInt8 × UInt64)) : (s.fail l).fail l' = s.fail (l' ++ l) :=
  congrArg (fun x => { s with failed := x }) (List.append_assoc ..).symm

@[simp] theorem Kern.fail_live (s : Kern) (l : List (UInt8 × UInt64)) : (s.fail l).live = s.live := rfl

namespace Machine
variable {m : Machine} {dev : UInt8} {t : Prop} {s s' : Kern} {ino b : Nat} {name : List UInt8}

/-- Reads of blocks with no metadata. -/
def Harmless (m : Machine) (dev : UInt8) (l : List (UInt8 × UInt64)) : Prop :=
  ∀ x ∈ l, m.mayFail x.1 x.2 ∧ x.1 = dev ∧ ¬ (m.bytes dev).Meta x.2.toNat

theorem Harmless.nil : m.Harmless dev [] := fun _ hx => absurd hx List.not_mem_nil

theorem Harmless.append {l l' : List (UInt8 × UInt64)} (h : m.Harmless dev l) (h' : m.Harmless dev l') :
    m.Harmless dev (l ++ l') := fun x hx => (List.mem_append.1 hx).elim (h x) (h' x)

/-- What a search comes to: the number, or 0 when some reads failed or memory is short. -/
def Searched (m : Machine) (dev : UInt8) (n : Nat) (s : Kern) (r : Nat) (s' : Kern) : Prop :=
  ∃ l, s' = s.fail l ∧ m.Harmless dev l ∧ (r = 0 ∨ r = n) ∧ (l = [] → m.memory → r = n)

theorem does_blockFindIno (hv : Volume m dev) (hs : s.Idle) (ht : t → m.memory) (hname : name ≠ [])
    (hb : b ≤ (m.bytes dev).superBlock.sBlocksCount) (hmeta : ¬ (m.bytes dev).Meta (2 * b))
    {rs : List Rec} (hrs : DirBlock ((m.bytes dev).block b) rs) :
    m.Does dev t (blockFindIno name dev b) s
      (m.Searched dev (findName (dirEntries ((m.bytes dev).block b)) name) s) := by
  have hlt := hv.blocks_lt
  have hsector : (sectorNo32 b).toNat = 2 * b := toNat_sectorNo32 (by omega)
  refine runs_blockRead hs ht (hv.inRange (by omega)) (fun _ data hd => runs_useBlock hs (Runs.pure ?_))
    fun hf => Runs.pure ?_
  · have hdata : ∀ i < 1024, data i = (m.bytes dev).block b i := fun i hi => by
      rw [hd i (by omega), hsector]
      exact congrArg (m.disk dev) (by omega)
    have hrs' : DirBlock data rs := ⟨hrs.tiles.congr fun x _ hx => hdata x hx, hrs.unknown⟩
    have hfind : findEntry data name blockSize 0 = findName (dirEntries ((m.bytes dev).block b)) name := by
      rw [findEntry_block hrs' hname, hrs'.tiles.dirEntries_eq, hrs.tiles.dirEntries_eq]
    exact ⟨[], rfl, .nil, .inr hfind, fun _ _ => hfind⟩
  · refine ⟨[(dev, sectorNo32 b)], rfl, fun x hx => ?_, .inl rfl, fun h _ => absurd h (List.cons_ne_nil _ _)⟩
    obtain rfl := List.mem_singleton.1 hx
    exact ⟨hf, rfl, by rw [hsector]; exact hmeta⟩

/-- The entries of the blocks before the first 0. -/
abbrev entriesOf (d : Disk) (blocks : List Nat) : List Rec :=
  (blocks.takeWhile (· ≠ 0)).flatMap fun b => dirEntries (d.block b)

/-- What a block list of a directory has. -/
structure InOrder (d : Disk) (blocks : List Nat) : Prop where
  range : ∀ b ∈ blocks.takeWhile (· ≠ 0), b ≤ d.superBlock.sBlocksCount ∧ ¬ d.Meta (2 * b)
  tiled : ∀ b ∈ blocks.takeWhile (· ≠ 0), ∃ rs, DirBlock (d.block b) rs
  inodes : ∀ r ∈ entriesOf d blocks, r.entry.inode ≠ 0
  names : ((entriesOf d blocks).map Rec.name).Nodup

theorem InOrder.tail {d : Disk} {blocks : List Nat} (h : InOrder d (b :: blocks)) (hb : b ≠ 0) : InOrder d blocks := by
  have htake : (b :: blocks).takeWhile (· ≠ 0) = b :: blocks.takeWhile (· ≠ 0) :=
    List.takeWhile_cons_of_pos (decide_eq_true hb)
  obtain ⟨h1, h2, h3, h4⟩ := h
  rw [htake] at h1 h2
  simp only [entriesOf, htake, List.flatMap_cons, List.map_append] at h3 h4
  exact ⟨fun c hc => h1 c (List.mem_cons_of_mem _ hc), fun c hc => h2 c (List.mem_cons_of_mem _ hc),
    fun r hr => h3 r (List.mem_append_right _ hr), h4.of_append_right⟩

theorem does_findInBlocks (hv : Volume m dev) (ht : t → m.memory) (hname : name ≠ []) {blocks : List Nat}
    (h : InOrder (m.bytes dev) blocks) (hs : s.Idle) : m.Does dev t (findInBlocks name dev blocks) s
      (m.Searched dev (findName (entriesOf (m.bytes dev) blocks) name) s) := by
  induction blocks generalizing s with
  | nil => exact Runs.pure ⟨[], rfl, .nil, .inl rfl, fun _ _ => rfl⟩
  | cons b blocks ih =>
    rw [findInBlocks]
    by_cases hb : b = 0
    · rw [if_pos hb]
      subst hb
      exact Runs.pure ⟨[], rfl, .nil, .inl rfl, fun _ _ => rfl⟩
    rw [if_neg hb]
    have htake : (b :: blocks).takeWhile (· ≠ 0) = b :: blocks.takeWhile (· ≠ 0) :=
      List.takeWhile_cons_of_pos (decide_eq_true hb)
    have hentries : entriesOf (m.bytes dev) (b :: blocks) =
        dirEntries ((m.bytes dev).block b) ++ entriesOf (m.bytes dev) blocks := by
      rw [entriesOf, htake, List.flatMap_cons]
    have hmem : b ∈ (b :: blocks).takeWhile (· ≠ 0) := by
      rw [htake]
      exact List.mem_cons_self ..
    obtain ⟨rs, hrs⟩ := h.tiled b hmem
    obtain ⟨hle, hmeta⟩ := h.range b hmem
    have hinodes := h.inodes
    have hnames := h.names
    rw [hentries] at hinodes hnames ⊢
    refine (does_blockFindIno hv hs ht hname hle hmeta hrs).bind ?_
    rintro r s₁ ⟨l, hs₁, hl, hr, hr'⟩
    rw [findName_append fun r hr _ => hinodes r (List.mem_append_left _ hr)]
    subst hs₁
    by_cases h0 : r = 0
    · rw [if_neg (not_not.2 h0)]
      refine (ih (h.tail hb) (hs.fail l)).mono ?_
      rintro r' s₂ ⟨l', hs₂, hl', hr₂, hr₂'⟩
      refine ⟨l' ++ l, by rw [hs₂, Kern.fail_fail], hl'.append hl, ?_, fun hnil hm => ?_⟩
      · by_cases hz : findName (dirEntries ((m.bytes dev).block b)) name = 0
        · rwa [if_pos hz]
        · -- the name is in the block that could not be read, and in no other one
          rw [if_neg hz]
          refine .inl (hr₂.elim id fun he => ?_)
          by_contra hne
          obtain ⟨q, hq, hqn, -⟩ := mem_of_findName hz
          obtain ⟨q', hq', hqn', -⟩ := mem_of_findName (he ▸ hne)
          rw [List.map_append, List.nodup_append] at hnames
          exact hnames.2.2 _ (List.mem_map_of_mem hq) _ (List.mem_map_of_mem hq') (hqn.trans hqn'.symm)
      · obtain ⟨rfl, rfl⟩ := List.append_eq_nil_iff.1 hnil
        rw [if_pos ((hr' rfl hm).symm.trans h0)]
        exact hr₂' rfl hm
    · rw [if_pos h0]
      have hr := hr.resolve_left h0
      rw [if_neg (hr ▸ h0)]
      exact Runs.pure ⟨l, rfl, hl, .inr hr, fun _ _ => hr⟩

theorem does_dirFindIno (hv : Volume m dev) (hs : s.Idle) (ht : t → m.memory) (hname : name ≠ []) (h1 : 1 ≤ ino)
    (h2 : ino ≤ (m.bytes dev).superBlock.sInodesCount) (hdir : ((m.bytes dev).inode ino).iMode = sIfdir) :
    m.Does dev t (dirFindIno ((m.bytes dev).inode ino) name dev) s
      (m.Searched dev ((m.bytes dev).lookup ino name) s) := by
  have hd := hv.dirs ino h1 h2 hdir
  exact does_findInBlocks hv ht hname ⟨hd.blocks, hd.tiled, fun r hr => by have := (hd.inodes r hr).1; omega, hd.names⟩ hs

end Machine

end Airix.Axfs
