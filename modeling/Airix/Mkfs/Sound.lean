import Airix.Mkfs.Fsck

/-!
# The geometry of an image

`main` passes the options, which have 64 bits, on to `mkfs`, which takes 32; nothing checks that an inode
bitmap has a bit for each inode of a group, nor that byte offsets fit in 32 bits. `Sound` says what the
places of the metadata have to satisfy, and `sound_iff` for which options they do.
-/

namespace Airix.Mkfs
open Axfs Bytes Exec Finset

variable {g : Geom} {s s' : State} {d : Disk} {i j k m n x blocks ipg blockNum fsSize : Nat}

/-- `main` up to the call of `mkfs`, with the values of the options. -/
def mkfsMain (fsSize inodesPerGroup : Nat) : M Unit :=
  if fsSize = 0 ∨ inodesPerGroup = 0 then throw .exit
  else mkfs (u32 (fsSize * (1024 * 1024 / blockSize) % 2 ^ 64)) (u32 inodesPerGroup)

/-- The argument `block_num` of `mkfs`. -/
def blockNumOf (fsSize : Nat) : Nat := u32 (fsSize * (1024 * 1024 / blockSize) % 2 ^ 64)

/-- `mkfs` up to its first `n` block groups. -/
def mkfsGroups (blockNum inodesPerGroup n : Nat) : M Unit := do
  let blockNum := u32Sub blockNum 1
  if groupsOf blockNum < 1 then throw .exit
  else
    modify fun s => { img := ⟨fun _ => 0, 0⟩, superBlock := { s.superBlock with
      sInodesCount := u32 (inodesPerGroup * groupsOf blockNum), sBlocksCount := blockNum,
      sInodesPerGroup := inodesPerGroup } }
    makeBlocks 1
    makeBlockGroups (groupsOf blockNum) inodesPerGroup (List.range n) blockNum superBlockNo

/-- The block of a group's block bitmap. -/
def bitmapBlockOf (blocks k : Nat) : Nat := 1 + 8192 * k + if k = 0 then 1 + blocksOf (groupsOf blocks * 16) else 0

/-- What the metadata of an image consists of. -/
inductive Area
  | super
  | table
  | blockBitmap (k : Nat)
  | inodeBitmap (k : Nat)
  | inodeTable (k : Nat)
deriving DecidableEq

namespace Area

/-- The area belongs to an image of `blocks` blocks. -/
def On (blocks : Nat) : Area → Prop
  | super | table => True
  | blockBitmap k | inodeBitmap k | inodeTable k => k < groupsOf blocks

def start (blocks : Nat) : Area → Nat
  | super => 1
  | table => 2
  | blockBitmap k => bitmapBlockOf blocks k
  | inodeBitmap k => bitmapBlockOf blocks k + 1
  | inodeTable k => bitmapBlockOf blocks k + 2

/-- The first block behind the area. -/
def stop (blocks ipg : Nat) : Area → Nat
  | super => 2
  | table => 2 + blocksOf (groupsOf blocks * 16)
  | blockBitmap k => bitmapBlockOf blocks k + 1
  | inodeBitmap k => bitmapBlockOf blocks k + 2
  | inodeTable k => bitmapBlockOf blocks k + 2 + blocksOf (ipg * 128)

end Area

def State.descOf (s : State) (k : Nat) : BlockGroupDescriptor := BlockGroupDescriptor.ofBytes (s.window (2048 + 16 * k))

/-- Bit `j` of the bitmap in block `b`. -/
def State.bitOf (s : State) (b j : Nat) : Bool := bitAt (s.window (1024 * b)) j

/-- The block of the root directory. -/
def State.rootBlock (s : State) (blocks : Nat) : Nat :=
  (Inode.ofBytes (s.window (1024 * (Area.inodeTable 0).start blocks))).iBlock 0

/-- Byte `x` belongs to the descriptor or to the block bitmap of group `k`. -/
def OwnByte (blocks ipg k x : Nat) : Prop :=
  2048 + 16 * k ≤ x ∧ x < 2048 + 16 * k + 16 ∨
    1024 * (Area.blockBitmap k).start blocks ≤ x ∧ x < 1024 * (Area.blockBitmap k).stop blocks ipg

/-- The image `s` that `mkfs` made with the argument `blockNum`, and so with `blocks` blocks beside the boot
block, is sound; `ipg` is the number of inodes per group that the option asks for. -/
structure Sound (blockNum blocks ipg : Nat) (s : State) : Prop where
  disjoint : ∀ a b : Area, a.On blocks → b.On blocks → a ≠ b →
    a.stop blocks ipg ≤ b.start blocks ∨ b.stop blocks ipg ≤ a.start blocks
  inside : ∀ a : Area, a.On blocks → 1024 * a.stop blocks ipg ≤ s.img.len
  /-- The descriptors have the places of the areas. -/
  descs : ∀ k < groupsOf blocks, (s.descOf k).bgBlockBitmap = (Area.blockBitmap k).start blocks ∧
    (s.descOf k).bgInodeBitmap = (Area.inodeBitmap k).start blocks ∧
    (s.descOf k).bgInodeTable = (Area.inodeTable k).start blocks
  /-- Making group `k` changes no byte but those of its descriptor and of its block bitmap. -/
  writes : ∀ k < groupsOf blocks, ∀ s₁ s₂, (mkfsGroups blockNum (u32 ipg) k).run .start = .ok ((), s₁) →
    (mkfsGroups blockNum (u32 ipg) (k + 1)).run .start = .ok ((), s₂) →
    ∀ x, s₂.img.byte x ≠ s₁.img.byte x → OwnByte blocks ipg k x
  bitmapRoom : ∀ k < groupsOf blocks,
    ipg ≤ 8 * (1024 * ((Area.inodeBitmap k).stop blocks ipg - (Area.inodeBitmap k).start blocks))
  tableRoom : ∀ k < groupsOf blocks,
    ipg * 128 ≤ 1024 * ((Area.inodeTable k).stop blocks ipg - (Area.inodeTable k).start blocks)
  freeBlocks : ∀ k < groupsOf blocks, (s.descOf k).bgFreeBlocksCount =
    #{j ∈ range (min 8192 (blocks - 8192 * k)) | s.bitOf (s.descOf k).bgBlockBitmap j = false}
  freeInodes : ∀ k < groupsOf blocks, (s.descOf k).bgFreeInodesCount =
    #{j ∈ range ipg | s.bitOf (s.descOf k).bgInodeBitmap j = false}
  super : SuperBlock.ofBytes (s.window 1024) = ⟨ipg * groupsOf blocks, blocks,
    ∑ k ∈ range (groupsOf blocks), (s.descOf k).bgFreeInodesCount,
    ∑ k ∈ range (groupsOf blocks), (s.descOf k).bgFreeBlocksCount, ipg⟩
  /-- A bit of a block bitmap is set iff it stands for metadata or for the root directory. -/
  bits : ∀ k < groupsOf blocks, ∀ j < 8192, s.bitOf (s.descOf k).bgBlockBitmap j = true ↔
    (∃ a : Area, a.On blocks ∧ a.start blocks ≤ 1 + 8192 * k + j ∧ 1 + 8192 * k + j < a.stop blocks ipg) ∨
    k = 0 ∧ 1 + j = s.rootBlock blocks

/-! ### The rounds of the loop -/

/-- One round of the loop of `mkfs`, with the blocks that remain. -/
def makeGroup (groups ipg i blocks start : Nat) : M Unit :=
  let blocks := if blocksPerGroup < blocks then blocksPerGroup else blocks
  if i = 0 then makeFirstBlockGroup groups ipg blocks else makeBlockGroup start i ipg blocks

theorem cut_eq : (if blocksPerGroup < blocks then blocksPerGroup else blocks) = min 8192 blocks := by
  rw [show blocksPerGroup = 8192 from rfl]
  split <;> omega

theorem makeBlockGroups_snoc {groups start : Nat} (hstart : start < 2 ^ 32) :
    makeBlockGroups groups ipg (List.range' i (m + 1)) blocks start = (do
      makeBlockGroups groups ipg (List.range' i m) blocks start
      makeGroup groups ipg (i + m) (blocks - 8192 * m) (u32 (start + min (8192 * m) blocks))) := by
  induction m generalizing i blocks start with
  | zero =>
    have h : u32 (start + min (8192 * 0) blocks) = start := by
      rw [Nat.mul_zero, Nat.zero_min, Nat.add_zero, u32_of_lt hstart]
    rw [h, Nat.zero_add, Nat.mul_zero, Nat.sub_zero, Nat.add_zero, List.range'_one, List.range'_zero]
    simp only [makeBlockGroups, pure_bind, makeGroup, bind_pure_unit]
  | succ m ih =>
    have hcut : min 8192 blocks ≤ 8192 := Nat.min_le_left _ _
    have hrest : blocks - min 8192 blocks - 8192 * m = blocks - 8192 * (m + 1) := by omega
    have hnext : u32 (u32 (start + min 8192 blocks) + min (8192 * m) (blocks - min 8192 blocks)) =
        u32 (start + min (8192 * (m + 1)) blocks) := by
      simp only [u32]
      omega
    rw [List.range'_succ, makeBlockGroups, ih (u32_lt _), List.range'_succ, makeBlockGroups]
    dsimp only
    rw [cut_eq, hrest, hnext, show i + 1 + m = i + (m + 1) by omega]
    split <;> rw [bind_assoc]

theorem throw_bind {α β : Type} (e : Err) (f : α → M β) : (throw e >>= f) = throw e := rfl

theorem mkfsGroups_succ : mkfsGroups blockNum ipg (n + 1) = (do
    mkfsGroups blockNum ipg n
    makeGroup (groupsOf (u32Sub blockNum 1)) ipg n (u32Sub blockNum 1 - 8192 * n)
      (u32 (1 + min (8192 * n) (u32Sub blockNum 1)))) := by
  simp only [mkfsGroups]
  split
  · rw [throw_bind]
  · rw [List.range_eq_range', List.range_eq_range', makeBlockGroups_snoc (by decide), Nat.zero_add]
    simp only [bind_assoc]
    rfl

theorem mkfs_eq : mkfs blockNum ipg = (do
    mkfsGroups blockNum ipg (groupsOf (u32Sub blockNum 1))
    writeSuperBlock
    writeRootDir) := by
  rw [mkfs, mkfsGroups]
  dsimp only
  rw [show u32Sub blockNum 1 / blocksPerGroup + (if u32Sub blockNum 1 % blocksPerGroup ≠ 0 then 1 else 0) =
    groupsOf (u32Sub blockNum 1) from rfl]
  split
  · rw [throw_bind]
  · simp only [bind_assoc]

/-- The image holds the bytes `f`, in a file of `n` bytes. -/
structure Holding (f : Nat → UInt8) (s : State) (n : Nat) : Prop where
  byte : s.img.byte = f
  len : s.img.len = n
  tail : ∀ x, n ≤ x → f x = 0

theorem Holding.makeBlocks {f : Nat → UInt8} {c : Nat} (h : Holding f s n) (hc : 0 < c)
    (hr : (makeBlocks c).run s = .ok ((), s')) : Holding f s' (n + 1024 * c) := by
  have hs' : s' = s.write (s.img.len + c * blockSize - 1) 1 (fun _ => 0) := by
    cases hr
    rfl
  refine ⟨?_, ?_, fun x hx => h.tail x (by omega)⟩
  · funext x
    rw [hs']
    show put s.img.byte (s.img.len + c * blockSize - 1) 1 (fun _ => 0) x = f x
    rw [h.byte, h.len, blockSize]
    rcases Nat.lt_or_ge x n with hx | hx
    · exact put_out (by omega)
    · rw [put, h.tail x hx, ite_self]
  · rw [hs']
    show max s.img.len (s.img.len + c * blockSize - 1 + 1) = _
    rw [h.len, blockSize]
    omega

/-- What one round of the loop does: a descriptor and a bitmap are written, the file grows by the group. -/
structure Round (s s' : State) (i bitmap used blocks : Nat) : Prop where
  room : used < blocks
  tail : ∀ x, s'.img.len ≤ x → s'.img.byte x = 0
  len : s.img.len + 1024 * blocks ≤ s'.img.len
  bytes : ∃ f, s'.img.byte = put (put s.img.byte (2048 + 16 * i) 16 f) (blockOffset bitmap) (used / 8 + 1) (usedBits used)

theorem Round.of_metadata {s₁ : State} {bitmap used : Nat} {desc : BlockGroupDescriptor} (hroom : used < blocks)
    (h₁ : Holding s.img.byte s₁ (s.img.len + 1024 * blocks)) (hbitmap : desc.bgBlockBitmap = bitmap)
    (hr : (makeBlockGroupMetadata i used desc).run s₁ = .ok ((), s')) : Round s s' i bitmap used blocks := by
  have hs' : s'.img = ((s₁.write (2048 + 16 * i) 16 (ofWords desc.words)).write (blockOffset bitmap) (used / 8 + 1)
      (usedBits used)).img := by
    rw [makeBlockGroupMetadata, descOffset_eq, hbitmap] at hr
    cases hr
    rfl
  have hlen : s'.img.len = max (max s₁.img.len (2048 + 16 * i + 16)) (blockOffset bitmap + (used / 8 + 1)) := by
    rw [hs']
    rfl
  have hbyte : s'.img.byte = put (put s.img.byte (2048 + 16 * i) 16 (ofWords desc.words)) (blockOffset bitmap)
      (used / 8 + 1) (usedBits used) := by
    rw [hs', ← h₁.byte]
    rfl
  refine ⟨hroom, fun x hx => ?_, ?_, _, hbyte⟩
  · rw [hbyte, put_out (by omega), put_out (by omega)]
    exact h₁.tail x (by rw [← h₁.len]; omega)
  · rw [hlen, h₁.len]
    omega

theorem blocksOf_inodes (hipg : ipg ≤ 8192) :
    blocksOf (u32 (ipg * Inode.size)) = blocksOf (ipg * 128) ∧ blocksOf (ipg * 128) ≤ 1024 := by
  refine ⟨by rw [u32_of_lt (by rw [Inode.size]; omega)]; rfl, ?_⟩
  rw [blocksOf, blockSize]
  split <;> omega

theorem blocksOf_table (hblocks : blocks < 2 ^ 32) :
    blocksOf (u32 (groupsOf blocks * BlockGroupDescriptor.size)) = blocksOf (groupsOf blocks * 16) ∧
      blocksOf (groupsOf blocks * 16) ≤ 8192 := by
  have hg : groupsOf blocks ≤ 2 ^ 19 := by
    simp only [groupsOf, ne_eq, ite_not]
    split <;> omega
  refine ⟨by rw [u32_of_lt (by rw [BlockGroupDescriptor.size]; omega)]; rfl, ?_⟩
  rw [blocksOf, blockSize]
  split <;> omega

theorem makeBlockGroup_run {start b : Nat} (hpos : 0 < ipg) (hipg : ipg ≤ 8192) (hi : i ≠ 0)
    (ht : ∀ x, s.img.len ≤ x → s.img.byte x = 0) (hr : (makeBlockGroup start i ipg b).run s = .ok ((), s')) :
    Round s s' i start (usedOf blocks ipg i) b := by
  obtain ⟨hinodes, hle⟩ := blocksOf_inodes hipg
  have hipos : 0 < blocksOf (ipg * 128) := blocksOf_pos (Nat.mul_pos hpos (by omega))
  have hused : u32 (1 + 1 + blocksOf (ipg * 128)) = usedOf blocks ipg i := by
    rw [usedOf, if_neg hi, u32_of_lt (by omega), Nat.zero_add]
  have hsum : usedOf blocks ipg i = 2 + blocksOf (ipg * 128) := by rw [usedOf, if_neg hi, Nat.zero_add]
  rw [makeBlockGroup, hinodes, hused] at hr
  split at hr
  · exact absurd hr throw_ok
  · rename_i hroom
    obtain ⟨_, s₁, h₁, hr⟩ := bind_ok.1 hr
    obtain ⟨_, s₂, h₂, hr⟩ := bind_ok.1 hr
    obtain ⟨_, s₃, h₃, hr⟩ := bind_ok.1 hr
    obtain ⟨_, s₄, h₄, hr⟩ := bind_ok.1 hr
    have hs : Holding s.img.byte s s.img.len := ⟨rfl, rfl, ht⟩
    have hs₄ := (((hs.makeBlocks (by omega) h₁).makeBlocks (by omega) h₂).makeBlocks hipos h₃).makeBlocks (by omega) h₄
    refine .of_metadata (by omega) ?_ rfl hr
    rwa [show s.img.len + 1024 * b = s.img.len + 1024 * 1 + 1024 * 1 + 1024 * blocksOf (ipg * 128) +
      1024 * (b - usedOf blocks ipg i) by omega]

theorem makeFirstBlockGroup_run {b : Nat} (hblocks : blocks < 2 ^ 32) (hblocks' : 0 < blocks) (hpos : 0 < ipg)
    (hipg : ipg ≤ 8192) (ht : ∀ x, s.img.len ≤ x → s.img.byte x = 0)
    (hr : (makeFirstBlockGroup (groupsOf blocks) ipg b).run s = .ok ((), s')) :
    Round s s' 0 (bitmapBlockOf blocks 0) (usedOf blocks ipg 0) b := by
  obtain ⟨hinodes, hle⟩ := blocksOf_inodes hipg
  obtain ⟨htable, hle'⟩ := blocksOf_table hblocks
  have hipos : 0 < blocksOf (ipg * 128) := blocksOf_pos (Nat.mul_pos hpos (by omega))
  have htpos : 0 < blocksOf (groupsOf blocks * 16) := by
    refine blocksOf_pos (Nat.mul_pos ?_ (by omega))
    simp only [groupsOf, ne_eq, ite_not]
    split <;> omega
  have hused : u32 (1 + blocksOf (groupsOf blocks * 16) + 1 + 1 + blocksOf (ipg * 128)) = usedOf blocks ipg 0 := by
    rw [usedOf, if_pos rfl, u32_of_lt (by omega)]
  have hsum : usedOf blocks ipg 0 = 1 + blocksOf (groupsOf blocks * 16) + 2 + blocksOf (ipg * 128) := by
    rw [usedOf, if_pos rfl]
  have hbitmap : u32 (superBlockNo + 1 + blocksOf (groupsOf blocks * 16)) = bitmapBlockOf blocks 0 := by
    rw [bitmapBlockOf, if_pos rfl, superBlockNo, u32_of_lt (by omega)]
    omega
  rw [makeFirstBlockGroup, hinodes, htable, hused, hbitmap] at hr
  split at hr
  · exact absurd hr throw_ok
  · rename_i hroom
    obtain ⟨_, s₁, h₁, hr⟩ := bind_ok.1 hr
    obtain ⟨_, s₂, h₂, hr⟩ := bind_ok.1 hr
    obtain ⟨_, s₃, h₃, hr⟩ := bind_ok.1 hr
    obtain ⟨_, s₄, h₄, hr⟩ := bind_ok.1 hr
    obtain ⟨_, s₅, h₅, hr⟩ := bind_ok.1 hr
    obtain ⟨_, s₆, h₆, hr⟩ := bind_ok.1 hr
    have hs : Holding s.img.byte s s.img.len := ⟨rfl, rfl, ht⟩
    have hs₃ := ((hs.makeBlocks (by omega) h₁).makeBlocks htpos h₂).makeBlocks (by omega) h₃
    have hs₆ := ((hs₃.makeBlocks (by omega) h₄).makeBlocks hipos h₅).makeBlocks (by omega) h₆
    refine .of_metadata (by omega) ?_ rfl hr
    rwa [show s.img.len + 1024 * b = s.img.len + 1024 * 1 + 1024 * blocksOf (groupsOf blocks * 16) + 1024 * 1 +
      1024 * 1 + 1024 * blocksOf (ipg * 128) + 1024 * (b - usedOf blocks ipg 0) by omega]

/-- A round that returned. -/
theorem makeGroup_run (hblocks : blocks < 2 ^ 32) (hblocks' : 0 < blocks) (hpos : 0 < ipg) (hipg : ipg ≤ 8192)
    (ht : ∀ x, s.img.len ≤ x → s.img.byte x = 0)
    (hr : (makeGroup (groupsOf blocks) ipg n (blocks - 8192 * n) (u32 (1 + min (8192 * n) blocks))).run s = .ok ((), s')) :
    Round s s' n (bitmapBlockOf blocks n) (usedOf blocks ipg n) (min 8192 (blocks - 8192 * n)) := by
  rw [makeGroup, cut_eq] at hr
  split at hr
  · rename_i hn
    subst hn
    exact makeFirstBlockGroup_run hblocks hblocks' hpos hipg ht hr
  · rename_i hn
    have h : Round s s' n _ (usedOf blocks ipg n) _ := makeBlockGroup_run hpos hipg hn ht hr
    -- the group has blocks, so those before it are full
    have hroom := h.room
    rwa [show u32 (1 + min (8192 * n) blocks) = bitmapBlockOf blocks n by
      rw [bitmapBlockOf, if_neg hn, u32_of_lt (by omega)]; omega] at h

/-! ### What the loop leaves -/

/-- The state after the first `n` groups. -/
structure AfterGroups (blocks ipg n : Nat) (s : State) : Prop where
  tail : ∀ x, s.img.len ≤ x → s.img.byte x = 0
  len : 1024 * (1 + min (8192 * n) blocks) ≤ s.img.len
  room : ∀ k < n, usedOf blocks ipg k < min 8192 (blocks - 8192 * k)

theorem u32Sub_lt (a b : Nat) : u32Sub a b < 2 ^ 32 := u32_lt _

theorem mkfsGroups_zero (hr : (mkfsGroups blockNum ipg 0).run .start = .ok ((), s)) :
    s.img.byte = (fun _ => 0) ∧ s.img.len = 1024 ∧ 0 < u32Sub blockNum 1 := by
  rw [mkfsGroups] at hr
  dsimp only at hr
  split at hr
  · exact absurd hr throw_ok
  · rename_i hg
    obtain ⟨_, s₀, h₀, hr⟩ := bind_ok.1 hr
    obtain ⟨_, s₁, h₁, hr⟩ := bind_ok.1 hr
    obtain ⟨-, rfl⟩ := pure_ok.1 hr
    have hs₀ : Holding (fun _ => 0) s₀ 0 := by
      rw [modify_ok.1 h₀]
      exact ⟨rfl, rfl, fun _ _ => rfl⟩
    have hs₁ := hs₀.makeBlocks (by omega) h₁
    refine ⟨hs₁.byte, hs₁.len, ?_⟩
    by_contra h0
    rw [show u32Sub blockNum 1 = 0 by omega] at hg
    exact hg (by decide)

theorem mkfsGroups_blocks_pos (hr : (mkfsGroups blockNum ipg n).run .start = .ok ((), s)) : 0 < u32Sub blockNum 1 := by
  induction n generalizing s with
  | zero => exact (mkfsGroups_zero hr).2.2
  | succ n ih =>
    rw [mkfsGroups_succ] at hr
    obtain ⟨_, s₁, h₁, -⟩ := bind_ok.1 hr
    exact ih h₁

/-- The states of the loop before a state of it. -/
theorem mkfsGroups_prefix (hr : (mkfsGroups blockNum ipg n).run .start = .ok ((), s)) (hk : k ≤ n) :
    ∃ s₁, (mkfsGroups blockNum ipg k).run .start = .ok ((), s₁) := by
  induction n generalizing s with
  | zero =>
    obtain rfl : k = 0 := by omega
    exact ⟨s, hr⟩
  | succ n ih =>
    rcases Nat.lt_succ_iff_lt_or_eq.1 (Nat.lt_succ_of_le hk) with hk | rfl
    · rw [mkfsGroups_succ] at hr
      obtain ⟨_, s₁, h₁, -⟩ := bind_ok.1 hr
      exact ih h₁ (by omega)
    · exact ⟨s, hr⟩

section Loop
variable (hpos : 0 < ipg) (hipg : ipg ≤ 8192)
include hpos hipg

theorem mkfsGroups_run (hr : (mkfsGroups blockNum ipg n).run .start = .ok ((), s)) :
    AfterGroups (u32Sub blockNum 1) ipg n s := by
  have hlt := u32Sub_lt blockNum 1
  have hblocks := mkfsGroups_blocks_pos hr
  induction n generalizing s with
  | zero =>
    obtain ⟨hbyte, hlen, -⟩ := mkfsGroups_zero hr
    refine ⟨fun x _ => by rw [hbyte], by omega, fun k hk => absurd hk (Nat.not_lt_zero k)⟩
  | succ n ih =>
    rw [mkfsGroups_succ] at hr
    obtain ⟨_, s₁, h₁, h₂⟩ := bind_ok.1 hr
    have hs₁ := ih h₁
    have hround := makeGroup_run hlt hblocks hpos hipg hs₁.tail h₂
    refine ⟨hround.tail, ?_, fun k hk => ?_⟩
    · have h1 := hs₁.len
      have h2 := hround.len
      omega
    · rcases Nat.lt_succ_iff_lt_or_eq.1 hk with hk | rfl
      · exact hs₁.room k hk
      · exact hround.room

/-- Two states of the loop, one round apart. -/
theorem mkfsGroups_round (h₁ : (mkfsGroups blockNum ipg n).run .start = .ok ((), s))
    (h₂ : (mkfsGroups blockNum ipg (n + 1)).run .start = .ok ((), s')) :
    Round s s' n (bitmapBlockOf (u32Sub blockNum 1) n) (usedOf (u32Sub blockNum 1) ipg n)
      (min 8192 (u32Sub blockNum 1 - 8192 * n)) := by
  rw [mkfsGroups_succ] at h₂
  obtain ⟨_, s₁, hs₁, h₂⟩ := bind_ok.1 h₂
  rw [h₁] at hs₁
  cases hs₁
  exact makeGroup_run (u32Sub_lt blockNum 1) (mkfsGroups_blocks_pos h₁) hpos hipg (mkfsGroups_run hpos hipg h₁).tail h₂

/-- The super block's place is not written to in the first 512 rounds, since no offset is cut there. -/
theorem mkfsGroups_super (hn : n ≤ 512) (hr : (mkfsGroups blockNum ipg n).run .start = .ok ((), s)) :
    s.img.byte 1024 = 0 := by
  induction n generalizing s with
  | zero => rw [(mkfsGroups_zero hr).1]
  | succ n ih =>
    have hr' := hr
    rw [mkfsGroups_succ] at hr'
    obtain ⟨_, s₁, h₁, -⟩ := bind_ok.1 hr'
    have hround := mkfsGroups_round hpos hipg h₁ hr
    obtain ⟨f, hf⟩ := hround.bytes
    have hroom := hround.room
    have hoff : 2048 ≤ blockOffset (bitmapBlockOf (u32Sub blockNum 1) n) := by
      rw [bitmapBlockOf]
      rcases eq_or_ne n 0 with rfl | hn0
      · have hused : 1 + blocksOf (groupsOf (u32Sub blockNum 1) * 16) ≤ usedOf (u32Sub blockNum 1) ipg 0 := by
          rw [usedOf, if_pos rfl]
          omega
        rw [if_pos rfl, blockOffset_of_lt (by omega)]
        omega
      · rw [if_neg hn0, blockOffset_of_lt (by omega)]
        omega
    rw [hf, put_out (by omega), put_out (by omega)]
    exact ih (by omega) h₁

/-- Round 512 writes its bitmap over the super block. -/
theorem mkfsGroups_clobber (hr : (mkfsGroups blockNum ipg 513).run .start = .ok ((), s)) : s.img.byte 1024 ≠ 0 := by
  obtain ⟨s₁, h₁⟩ := mkfsGroups_prefix hr (show 512 ≤ 513 by omega)
  obtain ⟨f, hf⟩ := (mkfsGroups_round hpos hipg h₁ hr).bytes
  have hoff : blockOffset (bitmapBlockOf (u32Sub blockNum 1) 512) = 1024 := by
    rw [bitmapBlockOf, if_neg (by omega)]
    decide
  have hused : 3 ≤ usedOf (u32Sub blockNum 1) ipg 512 := by
    have hipos : 0 < blocksOf (ipg * 128) := blocksOf_pos (Nat.mul_pos hpos (by omega))
    rw [usedOf, if_neg (by omega)]
    omega
  have hbits : ∀ u < 8, 3 ≤ u → UInt8.ofNat (0xFF <<< (8 - u)) ≠ 0 := by decide
  have hin : ∀ g : Nat → UInt8, put g 1024 (usedOf (u32Sub blockNum 1) ipg 512 / 8 + 1)
      (usedBits (usedOf (u32Sub blockNum 1) ipg 512)) (1024 + 0) = usedBits (usedOf (u32Sub blockNum 1) ipg 512) 0 :=
    fun g => put_in (by omega)
  rw [hf, hoff]
  rw [Nat.add_zero] at hin
  rw [hin, usedBits]
  split
  · decide
  · rw [Nat.mod_eq_of_lt (by omega)]
    exact hbits _ (by omega) hused

end Loop

/-! ### Images of a geometry -/

/-- The group that an area belongs to. -/
def Area.group : Area → Nat
  | super | table => 0
  | blockBitmap k | inodeBitmap k | inodeTable k => k

/-- An area lies among the first blocks of its group. -/
theorem Area.range {a : Area} (ha : a.On g.blocks) : a.group < g.groups ∧ 1 + 8192 * a.group ≤ a.start g.blocks ∧
    a.start g.blocks < a.stop g.blocks g.ipg ∧ a.stop g.blocks g.ipg ≤ 1 + 8192 * a.group + g.used a.group := by
  have h0 := g.groups_pos
  have htpos : 0 < blocksOf (groupsOf g.blocks * 16) := blocksOf_pos (Nat.mul_pos h0 (by omega))
  have hipos : 0 < blocksOf (g.ipg * 128) := blocksOf_pos (Nat.mul_pos g.ipg_pos (by omega))
  have hused : ∀ k, g.used k = (if k = 0 then 1 + blocksOf (groupsOf g.blocks * 16) else 0) + 2 + blocksOf (g.ipg * 128) :=
    fun _ => rfl
  cases a with
  | super | table =>
    refine ⟨h0, ?_⟩
    simp only [group, start, stop, hused, if_true]
    omega
  | blockBitmap k | inodeBitmap k | inodeTable k =>
    refine ⟨ha, ?_⟩
    simp only [group, start, stop, hused, bitmapBlockOf]
    omega

theorem Area.disjoint {a b : Area} (ha : a.On g.blocks) (hb : b.On g.blocks) (hne : a ≠ b) :
    a.stop g.blocks g.ipg ≤ b.start g.blocks ∨ b.stop g.blocks g.ipg ≤ a.start g.blocks := by
  obtain ⟨hka, ha1, -, ha2⟩ := Area.range ha
  obtain ⟨hkb, hb1, -, hb2⟩ := Area.range hb
  rcases eq_or_ne a.group b.group with he | hg
  · -- in one group the areas follow each other
    cases a <;> cases b <;> grind [group, start, stop, bitmapBlockOf]
  · have h1 := (g.layout hka).used_lt
    have h2 := (g.layout hka).le
    have h3 := (g.layout hkb).used_lt
    have h4 := (g.layout hkb).le
    omega

theorem mem_area_iff (hk : k < g.groups) (hj : j < 8192) :
    (∃ a : Area, a.On g.blocks ∧ a.start g.blocks ≤ 1 + 8192 * k + j ∧ 1 + 8192 * k + j < a.stop g.blocks g.ipg) ↔
      j < g.used k := by
  constructor
  · rintro ⟨a, ha, h1, h2⟩
    obtain ⟨hka, ha1, -, ha2⟩ := Area.range ha
    have h3 := (g.layout hka).used_lt
    have h4 := (g.layout hka).le
    obtain rfl : k = a.group := by omega
    omega
  · intro hlt
    have hused : g.used k = (if k = 0 then 1 + blocksOf (groupsOf g.blocks * 16) else 0) + 2 + blocksOf (g.ipg * 128) := rfl
    rcases Nat.lt_or_ge (1 + 8192 * k + j) (bitmapBlockOf g.blocks k) with hlow | hge
    · have hk0 : k = 0 := by
        by_contra hk0
        rw [bitmapBlockOf, if_neg hk0] at hlow
        omega
      subst hk0
      rw [bitmapBlockOf, if_pos rfl] at hlow
      rcases Nat.eq_zero_or_pos j with rfl | hjpos
      · exact ⟨.super, trivial, by simp only [Area.start]; omega, by simp only [Area.stop]; omega⟩
      · exact ⟨.table, trivial, by simp only [Area.start]; omega, by simp only [Area.stop]; omega⟩
    · rcases Nat.lt_trichotomy (1 + 8192 * k + j) (bitmapBlockOf g.blocks k + 1) with h | h | h
      · exact ⟨.blockBitmap k, hk, by simp only [Area.start]; omega, by simp only [Area.stop]; omega⟩
      · exact ⟨.inodeBitmap k, hk, by simp only [Area.start]; omega, by simp only [Area.stop]; omega⟩
      · refine ⟨.inodeTable k, hk, by simp only [Area.start]; omega, ?_⟩
        simp only [Area.stop]
        rw [bitmapBlockOf]
        omega

theorem Keeps.writeRootDir {P : State → Prop} (hP : Stable P) : Keeps P writeRootDir := by
  have hb : Keeps P decFreeBlocks := modifyCounts hP
  have hi : Keeps P decFreeInodes := modifyCounts hP
  exact allocBlock.bind fun _ => (writePaddingEntry hP).bind fun _ => (writeDirEntryToBlock hP).bind fun _ =>
    (writeDirEntryToBlock hP).bind fun _ => (writeInode hP).bind fun _ => (updateBlockBitmap hP).bind fun _ =>
    hb.bind fun _ => hi.bind fun _ => writeSuperBlock hP

/-- The file has all the blocks. -/
theorem mkfs_len (hpos : 0 < ipg) (hipg : ipg ≤ 8192) (hr : (mkfs blockNum ipg).run .start = .ok ((), s)) :
    1024 * (1 + u32Sub blockNum 1) ≤ s.img.len := by
  have hP : Stable fun s => 1024 * (1 + u32Sub blockNum 1) ≤ s.img.len :=
    ⟨fun _ _ _ _ h => h.trans (Nat.le_max_left _ _), fun _ _ _ h => h⟩
  rw [mkfs_eq] at hr
  obtain ⟨_, s₁, h₁, hr⟩ := bind_ok.1 hr
  obtain ⟨_, s₂, h₂, h₃⟩ := bind_ok.1 hr
  have hs₁ := (mkfsGroups_run hpos hipg h₁).len
  have hall : u32Sub blockNum 1 ≤ 8192 * groupsOf (u32Sub blockNum 1) := by
    simp only [groupsOf, ne_eq, ite_not]
    split <;> omega
  rw [Nat.min_eq_right hall] at hs₁
  exact Keeps.writeRootDir hP s₂ _ s (Keeps.writeSuperBlock hP s₁ _ s₂ hs₁ h₂) h₃

theorem Geom.sound (g : Geom) (hr : (mkfs (g.blocks + 1) g.ipg).run .start = .ok ((), s)) :
    Sound (g.blocks + 1) g.blocks g.ipg s := by
  have hsub : u32Sub (g.blocks + 1) 1 = g.blocks := u32Sub_one (by omega) g.blocks_lt
  have hipg := g.ipg_le
  obtain ⟨s', d, hr', hs, ⟨j, f, hroot⟩, hsb⟩ := mkfs_ok g
  rw [hr] at hr'
  cases hr'
  have hfsck := hs.fsck (hroot.image hsb)
  have hdesc : ∀ k < groupsOf g.blocks, s.descOf k = d.desc g k := hs.desc
  refine ⟨fun a b => Area.disjoint, fun a ha => ?_, fun k hk => ?_, fun k hk s₁ s₂ h₁ h₂ x hne => ?_, fun k hk => ?_,
    fun k hk => ?_, fun k hk => ?_, fun k hk => ?_, ?_, fun k hk j' hj' => ?_⟩
  · obtain ⟨hk, -, -, hle⟩ := Area.range ha
    have hlen := mkfs_len g.ipg_pos hipg hr
    have h1 := (g.layout hk).used_lt
    have h2 := (g.layout hk).blocks
    rw [hsub] at hlen
    omega
  · rw [hdesc k hk]
    exact ⟨rfl, rfl, rfl⟩
  · rw [u32_of_lt (by omega)] at h₁ h₂
    obtain ⟨f', hf⟩ := (mkfsGroups_round g.ipg_pos hipg h₁ h₂).bytes
    obtain ⟨hw1, hw2, hw3⟩ := word_of_groups hk
    have h1 := (g.layout hk).used
    have h2 := (g.layout hk).blocks
    have h3 := (g.layout hk).used_lt
    have h32 := (g.layout hk).blocks_lt
    rw [hsub] at hf
    have hoff : blockOffset (bitmapBlockOf g.blocks k) = 1024 * g.bitmapBlock k :=
      blockOffset_of_lt (show 1024 * g.bitmapBlock k < 2 ^ 32 by omega)
    have hb : bitmapBlockOf g.blocks k = g.bitmapBlock k := rfl
    have hu : usedOf g.blocks g.ipg k = g.used k := rfl
    by_contra hout
    simp only [OwnByte, Area.start, Area.stop, hb] at hout
    rw [hf, hoff, hu, put_out (by omega), put_out (by omega)] at hne
    exact hne rfl
  · simp only [Area.start, Area.stop]
    omega
  · have := blocksOf_le (g.ipg * 128)
    simp only [Area.start, Area.stop]
    omega
  · have h := hfsck.groups .block k hk
    rw [hdesc k hk]
    exact (hs.disk_free .block hk).symm.trans h
  · have h := hfsck.groups .inode k hk
    rw [hdesc k hk]
    exact (hs.disk_free .inode hk).symm.trans h
  · exact hfsck.super
  · rw [mem_area_iff hk hj', hdesc k hk]
    show bitAt (s.window (1024 * g.bitmap .block k)) j' = true ↔ _
    have hbit : bitAt (s.window (1024 * g.bitmap .block k)) j' = d.bit .block k j' := hs.bit .block k hk j' hj'
    have hino : Inode.ofBytes (s.window (g.inodeOff rootIno)) = d.inode rootIno := hs.inode _ one_le_rootIno rootIno_le
    have hblock : s.rootBlock g.blocks = 1 + j := by
      have hoff : 1024 * (Area.inodeTable 0).start g.blocks = g.inodeOff rootIno := by
        simp only [Geom.inodeOff, rootIno, Nat.sub_self, Nat.zero_div, Nat.zero_mod, Nat.mul_zero, Nat.add_zero]
        rfl
      rw [State.rootBlock, hoff, hino, hroot.root, rootInode_block, if_pos rfl]
    rw [hbit, hroot.blocks, hblock]
    refine or_congr_right (and_congr_right fun _ => ?_)
    omega

/-! ### Which options make sound images -/

theorem blockNumOf_eq : blockNumOf fsSize = 1024 * (fsSize % 2 ^ 22) := by
  simp only [blockNumOf, u32, blockSize]
  omega

theorem mkfsMain_run (h : (mkfsMain fsSize ipg).run .start = .ok ((), s)) :
    0 < ipg ∧ (mkfs (blockNumOf fsSize) (u32 ipg)).run .start = .ok ((), s) := by
  rw [mkfsMain] at h
  split at h
  · exact absurd h throw_ok
  · exact ⟨by omega, h⟩

/-- With 2^32 - 1 blocks the descriptor table alone fills the first group. -/
theorem blockNum_pos (hpos : 0 < ipg) (hipg : ipg ≤ 8192) (hr : (mkfs blockNum ipg).run .start = .ok ((), s)) :
    0 < blockNum := by
  by_contra h0
  obtain rfl : blockNum = 0 := by omega
  rw [mkfs_eq] at hr
  obtain ⟨_, s₁, h₁, -⟩ := bind_ok.1 hr
  have hroom := (mkfsGroups_run hpos hipg h₁).room 0 (by decide)
  rw [usedOf, if_pos rfl, show blocksOf (groupsOf (u32Sub 0 1) * 16) = 8192 by decide] at hroom
  omega

/-- The images that `mkfs` makes are sound iff the size, in the 32 bits that are left of it, is at most 4096 MB
and there are at most 8192 inodes per group. -/
theorem sound_iff (h : (mkfsMain fsSize ipg).run .start = .ok ((), s)) :
    Sound (blockNumOf fsSize) (u32Sub (blockNumOf fsSize) 1) ipg s ↔ fsSize % 2 ^ 22 ≤ 4096 ∧ ipg ≤ 8192 := by
  obtain ⟨hpos, hr⟩ := mkfsMain_run h
  have hnum : blockNumOf fsSize = 1024 * (fsSize % 2 ^ 22) := blockNumOf_eq
  have hr' := hr
  rw [mkfs_eq] at hr'
  obtain ⟨_, s₁, hloop, -⟩ := bind_ok.1 hr'
  have hblocks := mkfsGroups_blocks_pos hloop
  constructor
  · intro hsound
    have hgroups : 0 < groupsOf (u32Sub (blockNumOf fsSize) 1) := by
      simp only [groupsOf, ne_eq, ite_not]
      split <;> omega
    have hipg : ipg ≤ 8192 := by
      have hroom := hsound.bitmapRoom 0 hgroups
      simp only [Area.start, Area.stop] at hroom
      omega
    refine ⟨?_, hipg⟩
    by_contra hlarge
    have hu : u32 ipg = ipg := u32_of_lt (by omega)
    rw [hu] at hloop
    have hsub : u32Sub (blockNumOf fsSize) 1 = blockNumOf fsSize - 1 := u32Sub_of_le (by omega) (by omega)
    have h513 : 513 ≤ groupsOf (u32Sub (blockNumOf fsSize) 1) := by
      rw [hsub]
      simp only [groupsOf, ne_eq, ite_not]
      split <;> omega
    -- group 512 is made over the super block
    obtain ⟨s₂, h₂⟩ := mkfsGroups_prefix hloop (show 512 ≤ _ by omega)
    obtain ⟨s₃, h₃⟩ := mkfsGroups_prefix hloop h513
    have hne : s₃.img.byte 1024 ≠ s₂.img.byte 1024 := by
      rw [mkfsGroups_super hpos hipg (Nat.le_refl _) h₂]
      exact mkfsGroups_clobber hpos hipg h₃
    have hown := hsound.writes 512 (by omega) s₂ s₃ (by rw [hu]; exact h₂) (by rw [hu]; exact h₃) 1024 hne
    simp only [OwnByte, Area.start, Area.stop, bitmapBlockOf] at hown
    omega
  · rintro ⟨hsize, hipg⟩
    rw [u32_of_lt (by omega)] at hr
    obtain ⟨g, hg, rfl⟩ := geom_of_mkfs (blockNum_pos hpos hipg hr) (by omega) hipg hr
    rw [hg] at hr ⊢
    rw [show u32Sub (g.blocks + 1) 1 = g.blocks from u32Sub_one (by omega) g.blocks_lt]
    exact g.sound hr

/-- An image of 1 MB with the default number of inodes. -/
theorem sound_default : ∃ s, (mkfsMain 1 1712).run .start = .ok ((), s) ∧ Sound 1024 1023 1712 s := by
  obtain ⟨s, d, hr, -⟩ := mkfs_ok ⟨1023, 1712, by decide, by decide, by decide, by decide, by decide⟩
  have hnum : u32 (1 * (1024 * 1024 / blockSize) % 2 ^ 64) = 1023 + 1 := by decide
  have hipg : u32 1712 = 1712 := by decide
  have hmain : (mkfsMain 1 1712).run .start = .ok ((), s) := by
    rw [mkfsMain, if_neg (by decide), hnum, hipg]
    exact hr
  have hsound := (sound_iff hmain).2 (by decide)
  rw [show blockNumOf 1 = 1024 by decide, show u32Sub 1024 1 = 1023 by decide] at hsound
  exact ⟨s, hmain, hsound⟩

/-- An image of 2 MB with 8193 inodes per group is made, but an inode bitmap has only 8192 bits. -/
theorem not_sound_8193 : ∃ s, (mkfsMain 2 8193).run .start = .ok ((), s) ∧ ¬ Sound 2048 2047 8193 s := by
  have hok : ((mkfsMain 2 8193).run .start).isOk = true := by decide +kernel
  cases hr : (mkfsMain 2 8193).run .start with
  | error e =>
    rw [hr] at hok
    cases hok
  | ok r =>
    refine ⟨r.2, rfl, fun hsound => ?_⟩
    have hroom := hsound.bitmapRoom 0 (by decide)
    simp only [Area.start, Area.stop] at hroom
    omega

end Airix.Mkfs
