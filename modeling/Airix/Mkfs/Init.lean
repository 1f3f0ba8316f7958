import Airix.Mkfs.File

/-!
# Making the image

`mkfs` makes the block groups one after the other (`Made` is what holds between two of them), then writes
the super block and the root directory.
-/

namespace Airix.Mkfs
open Axfs Bytes Exec Finset BlockTree

variable {t : Prop} {g : Geom} {s s' : State} {d : Disk} {c i j k m used blocks ipg blockNum : Nat}

/-! ### The block groups -/

/-- The image before the root directory is written, with the super block `sb`. -/
def Geom.fresh (g : Geom) (sb : SuperBlock) : Disk where
  mem := ⟨g.inodes, g.blocks, ∑ _k ∈ range g.groups, g.ipg, ∑ k ∈ range g.groups, (g.groupBlocks k - g.used k), g.ipg⟩
  sb := sb
  free := fun
    | .block, k => g.groupBlocks k - g.used k
    | .inode, _ => g.ipg
  bit := fun
    | .block, k, j => decide (j < g.used k)
    | .inode, _, _ => false
  inode := fun _ => {}
  data := fun _ _ => 0

/-- The first `i` groups are made; the other bytes of the image are 0. -/
structure Made (g : Geom) (s : State) (i : Nat) : Prop where
  mem : s.superBlock = ⟨g.inodes, g.blocks, ∑ _k ∈ range i, g.ipg, ∑ k ∈ range i, (g.groupBlocks k - g.used k), g.ipg⟩
  desc : ∀ k < i, BlockGroupDescriptor.ofBytes (s.window (2048 + 16 * k)) =
    ⟨g.bitmapBlock k, g.bitmapBlock k + 1, g.bitmapBlock k + 2, g.groupBlocks k - g.used k, g.ipg⟩
  bit : ∀ k < i, ∀ j < 8192, bitAt (s.window (1024 * g.bitmapBlock k)) j = decide (j < g.used k)
  zero : ∀ x, (∀ k < i, x < 2048 + 16 * k ∨ 2048 + 16 * k + 16 ≤ x) →
    (∀ k < i, x < 1024 * g.bitmapBlock k ∨ 1024 * g.bitmapBlock k + 1024 ≤ x) → s.img.byte x = 0
  tail : ∀ x, s.img.len ≤ x → s.img.byte x = 0

theorem Made.congr (h : Made g s i) (hb : s'.img.byte = s.img.byte) (hl : s.img.len ≤ s'.img.len)
    (hs : s'.superBlock = s.superBlock) : Made g s' i := by
  have hw : ∀ off, s'.window off = s.window off := fun off => by
    funext i
    exact congrFun hb (off + i)
  refine ⟨hs.trans h.mem, fun k hk => by rw [hw, h.desc k hk], fun k hk j hj => by rw [hw, h.bit k hk j hj],
    fun x h1 h2 => by rw [hb, h.zero x h1 h2], fun x hx => by rw [hb, h.tail x (hl.trans hx)]⟩

theorem after_makeBlocks (hc : 0 < c) : After t (Made g) i (makeBlocks c) (fun _ i' => i' = i) := by
  refine After.of_run fun s hs =>
    ⟨(), s.write (s.img.len + c * blockSize - 1) 1 (fun _ => 0), i, rfl, hs.congr ?_ (Nat.le_max_left _ _) rfl, rfl⟩
  funext x
  rcases Nat.lt_or_ge x s.img.len with hx | hx
  · show put s.img.byte (s.img.len + c * blockSize - 1) 1 (fun _ => 0) x = s.img.byte x
    rw [put_out (by rw [blockSize]; omega)]
  · rw [hs.tail x hx]
    show put s.img.byte _ 1 (fun _ => 0) x = 0
    rw [put, hs.tail x hx, ite_self]

/-- The bits of a bitmap as `make_block_group_metadata` writes them. -/
theorem bitAt_usedBits {f : Nat → UInt8} (hf : ∀ x, used / 8 < x → x < 1024 → f x = 0) (hj : j < 8192) :
    bitAt (put f 0 (used / 8 + 1) (usedBits used)) j = decide (j < used) := by
  rw [bitAt]
  rcases Nat.lt_trichotomy (j / 8) (used / 8) with hlt | heq | hlt
  · have hin : put f 0 (used / 8 + 1) (usedBits used) (0 + j / 8) = usedBits used (j / 8) := put_in (by omega)
    have hall : ∀ r < 8, (0xFF : UInt8).toNat.testBit (7 - r) = true := by decide
    rw [Nat.zero_add] at hin
    rw [hin, usedBits, if_pos hlt, hall _ (by omega), decide_eq_true (by omega)]
  · have hin : put f 0 (used / 8 + 1) (usedBits used) (0 + j / 8) = usedBits used (j / 8) := put_in (by omega)
    have hall : ∀ u < 8, ∀ r < 8, (UInt8.ofNat (0xFF <<< (8 - u))).toNat.testBit (7 - r) = decide (r < u) := by decide
    rw [Nat.zero_add] at hin
    rw [hin, usedBits, if_neg (by omega), hall _ (by omega) _ (by omega)]
    exact decide_eq_decide.2 (by omega)
  · rw [put_out (by omega), hf _ hlt (by omega), decide_eq_false (by omega)]
    exact Nat.zero_testBit _

theorem word_of_groups (hi : i < g.groups) : g.bitmapBlock i + 2 < 2 ^ 32 ∧ g.used i / 8 + 1 ≤ 1024 ∧
    16 * i + 16 ≤ 1024 * g.tableBlocks := by
  obtain ⟨_, _, _, _, _, _, _, _, _⟩ := g.layout hi
  omega

theorem sum_lt_of_groups (hi : i ≤ g.groups) :
    ∑ _k ∈ range i, g.ipg < 2 ^ 32 ∧ ∑ k ∈ range i, (g.groupBlocks k - g.used k) < 2 ^ 32 := by
  have hgroups : 8192 * g.groups ≤ g.blocks + 8192 := by
    simp only [Geom.groups, groupsOf, ne_eq, ite_not]
    split <;> omega
  have h32 := g.blocks_lt
  have hle : ∀ f : Nat → Nat, (∀ k, f k ≤ 8192) → ∑ k ∈ range i, f k < 2 ^ 32 := by
    intro f hf
    have h1 : ∑ k ∈ range i, f k ≤ ∑ _k ∈ range i, 8192 := sum_le_sum fun k _ => hf k
    rw [sum_const, card_range, Nat.nsmul_eq_mul] at h1
    omega
  refine ⟨hle _ fun _ => g.ipg_le, hle _ fun k => ?_⟩
  have : g.groupBlocks k ≤ 8192 := Nat.min_le_left _ _
  omega

/-- A descriptor and a bitmap written. -/
theorem Made.write (h : Made g s i) (hi : i < g.groups) {desc : BlockGroupDescriptor}
    (hdesc : desc = ⟨g.bitmapBlock i, g.bitmapBlock i + 1, g.bitmapBlock i + 2, g.groupBlocks i - g.used i, g.ipg⟩)
    (hs : s' = (s.write (2048 + 16 * i) 16 (ofWords desc.words)).write (1024 * g.bitmapBlock i) (g.used i / 8 + 1)
      (usedBits (g.used i))) :
    Made g { s' with superBlock := ⟨g.inodes, g.blocks, ∑ _k ∈ range (i + 1), g.ipg,
      ∑ k ∈ range (i + 1), (g.groupBlocks k - g.used k), g.ipg⟩ } (i + 1) := by
  obtain ⟨hu, hlt, hle, hblocks, hstart, htable, hdescs, _, h32⟩ := g.layout hi
  have hipg := g.ipg_le
  obtain ⟨hw1, hw2, hw3⟩ := word_of_groups hi
  -- the two writes, and what they leave
  have hout : ∀ x, (x < 2048 + 16 * i ∨ 2048 + 16 * i + 16 ≤ x) →
      (x < 1024 * g.bitmapBlock i ∨ 1024 * g.bitmapBlock i + 1024 ≤ x) → s'.img.byte x = s.img.byte x := by
    intro x h1 h2
    rw [hs]
    exact (put_out (by omega)).trans (put_out (by omega))
  have hbelow : ∀ k < i, g.bitmapBlock k + 1 ≤ g.bitmapBlock i ∧ 2 + g.tableBlocks ≤ g.bitmapBlock k := by
    intro k hk
    obtain ⟨_, _, _, _, _, _, _, _, _⟩ := g.layout (hk.trans hi)
    omega
  refine ⟨rfl, fun k hk => ?_, fun k hk j hj => ?_, fun x h1 h2 => ?_, fun x hx => ?_⟩
  · rcases Nat.lt_succ_iff_lt_or_eq.1 hk with hk | rfl
    · refine (BlockGroupDescriptor.ofBytes_congr fun x hx => ?_).trans (h.desc k hk)
      have hx : x < 16 := hx
      exact hout _ (by omega) (by omega)
    · have hv : desc.Valid := by
        rw [hdesc]
        refine ⟨?_, ?_, ?_, ?_, ?_⟩ <;> simp only <;> omega
      rw [← hdesc, ← BlockGroupDescriptor.ofBytes_words hv]
      refine BlockGroupDescriptor.ofBytes_congr fun x hx => ?_
      have hx' : x < 16 := hx
      show s'.img.byte _ = _
      rw [hs]
      exact (put_out (by omega)).trans (put_in hx)
  · rcases Nat.lt_succ_iff_lt_or_eq.1 hk with hk | rfl
    · have := hbelow k hk
      refine (bitAt_congr ?_).trans (h.bit k hk j hj)
      exact hout _ (by omega) (by omega)
    · have hwin : s'.window (1024 * g.bitmapBlock k) =
          put ((s.write (2048 + 16 * k) 16 (ofWords desc.words)).window (1024 * g.bitmapBlock k)) 0 (g.used k / 8 + 1)
            (usedBits (g.used k)) := by
        rw [hs]
        exact State.window_write (o := 0)
      show bitAt (s'.window _) j = _
      rw [hwin]
      refine bitAt_usedBits (fun x _ hx => ?_) hj
      refine (put_out (by omega)).trans (h.zero _ (fun k' hk' => by omega) fun k' hk' => ?_)
      have := hbelow k' hk'
      omega
  · have hi1 := h1 i (Nat.lt_succ_self i)
    have hi2 := h2 i (Nat.lt_succ_self i)
    exact (hout x hi1 hi2).trans (h.zero x (fun k hk => h1 k (by omega)) fun k hk => h2 k (by omega))
  · have hx' : max (max s.img.len (2048 + 16 * i + 16)) (1024 * g.bitmapBlock i + (g.used i / 8 + 1)) ≤ x := by
      rw [hs] at hx
      exact hx
    show s'.img.byte x = 0
    rw [hs]
    refine (put_out (by omega)).trans ((put_out (by omega)).trans (h.tail x (by omega)))

theorem after_makeBlockGroupMetadata (hi : i < g.groups) {desc : BlockGroupDescriptor} (hused : used = g.used i)
    (hdesc : desc = ⟨g.bitmapBlock i, g.bitmapBlock i + 1, g.bitmapBlock i + 2, g.groupBlocks i - g.used i, g.ipg⟩) :
    After t (Made g) i (makeBlockGroupMetadata i used desc) (fun _ i' => i' = i + 1) := by
  subst hused
  have hw := word_of_groups hi
  have hoff : blockOffset desc.bgBlockBitmap = 1024 * g.bitmapBlock i := by
    obtain ⟨_, _, _, _, _, _, _, _, _⟩ := g.layout hi
    rw [hdesc]
    exact blockOffset_of_lt (by simp only; omega)
  rw [makeBlockGroupMetadata, hoff, descOffset_eq]
  refine After.of_run fun s hs => ⟨(), _, i + 1, rfl, ?_, rfl⟩
  have hmade := hs.write hi hdesc rfl
  refine hmade.congr rfl (Nat.le_refl _) ?_
  obtain ⟨hs1, hs2⟩ := sum_lt_of_groups (g := g) (show i + 1 ≤ g.groups from hi)
  simp only [hs.mem, hdesc]
  rw [sum_range_succ] at hs1 hs2
  rw [u32_of_lt hs1, u32_of_lt hs2, sum_range_succ, sum_range_succ]

theorem blocksOf_pos {size : Nat} (h : 0 < size) : 0 < blocksOf size := by
  have := blocksOf_le size
  omega

theorem groups_le : g.groups ≤ g.blocks ∧ 8192 * (g.groups - 1) < g.blocks := by
  have h := g.blocks_pos
  simp only [Geom.groups, groupsOf, ne_eq, ite_not]
  split <;> omega

theorem tableBlocks_eq : blocksOf (u32 (g.groups * BlockGroupDescriptor.size)) = g.tableBlocks := by
  have h := groups_le (g := g)
  have h32 := g.blocks_lt
  rw [Geom.tableBlocks, u32_of_lt]
  · rfl
  · rw [BlockGroupDescriptor.size]
    omega

theorem inodeBlocks_eq : blocksOf (u32 (g.ipg * Inode.size)) = g.inodeBlocks := by
  have h := g.ipg_le
  rw [Geom.inodeBlocks, u32_of_lt]
  · rfl
  · rw [Inode.size]
    omega

theorem after_makeFirstBlockGroup (hblocks : blocks = g.groupBlocks 0) :
    After t (Made g) 0 (makeFirstBlockGroup g.groups g.ipg blocks) (fun _ i' => i' = 1) := by
  subst hblocks
  have h0 := g.groups_pos
  obtain ⟨hu, hlt, hle, _, _, _, _, _, _⟩ := g.layout h0
  have hbm : g.bitmapBlock 0 = 2 + g.tableBlocks := by
    rw [Geom.bitmapBlock, if_pos rfl]
    omega
  have hipg := g.ipg_le
  have hused : u32 (1 + g.tableBlocks + 1 + 1 + g.inodeBlocks) = g.used 0 := by
    rw [u32_of_lt (by omega)]
    omega
  have htpos : 0 < g.tableBlocks := blocksOf_pos (by omega)
  have hipos : 0 < g.inodeBlocks := blocksOf_pos (Nat.mul_pos g.ipg_pos (by omega))
  rw [makeFirstBlockGroup, tableBlocks_eq, inodeBlocks_eq]
  dsimp only
  rw [hused, if_neg (by omega)]
  refine (after_makeBlocks (by omega)).bind fun _ i hi => ?_
  subst hi
  refine (after_makeBlocks htpos).bind fun _ i hi => ?_
  subst hi
  refine (after_makeBlocks (by omega)).bind fun _ i hi => ?_
  subst hi
  refine (after_makeBlocks (by omega)).bind fun _ i hi => ?_
  subst hi
  refine (after_makeBlocks hipos).bind fun _ i hi => ?_
  subst hi
  refine (after_makeBlocks (by omega)).bind fun _ i hi => ?_
  subst hi
  refine after_makeBlockGroupMetadata h0 rfl ?_
  rw [superBlockNo, hbm, u32_of_lt (by omega), u32_of_lt (by omega), u32_of_lt (by omega), Nat.mod_eq_of_lt (by omega),
    Nat.mod_eq_of_lt (by omega)]

theorem after_makeBlockGroup {start : Nat} (hi : i < g.groups) (hi0 : i ≠ 0) (hstart : start = 1 + 8192 * i)
    (hblocks : blocks = g.groupBlocks i) :
    After t (Made g) i (makeBlockGroup start i g.ipg blocks) (fun _ i' => i' = i + 1) := by
  subst hblocks hstart
  obtain ⟨hu, hlt, hle, _, _, _, _, _, _⟩ := g.layout hi
  have hbm : g.bitmapBlock i = 1 + 8192 * i := by
    rw [Geom.bitmapBlock, if_neg hi0]
    omega
  have hipg := g.ipg_le
  have hused : u32 (1 + 1 + g.inodeBlocks) = g.used i := by
    rw [u32_of_lt (by omega)]
    omega
  have hipos : 0 < g.inodeBlocks := blocksOf_pos (Nat.mul_pos g.ipg_pos (by omega))
  rw [makeBlockGroup, inodeBlocks_eq]
  rw [hused, if_neg (by omega)]
  refine (after_makeBlocks (by omega)).bind fun _ i hi => ?_
  subst hi
  refine (after_makeBlocks (by omega)).bind fun _ i hi => ?_
  subst hi
  refine (after_makeBlocks hipos).bind fun _ i hi => ?_
  subst hi
  refine (after_makeBlocks (by omega)).bind fun _ i' hi' => ?_
  subst hi'
  refine after_makeBlockGroupMetadata hi rfl ?_
  rw [hbm, u32_of_lt (by omega), u32_of_lt (by omega), Nat.mod_eq_of_lt (by omega), Nat.mod_eq_of_lt (by omega)]

/-- The loop over the groups. -/
theorem after_makeBlockGroups {start : Nat} (him : i + m = g.groups) (hblocks : blocks = g.blocks - 8192 * i)
    (hstart : m ≠ 0 → start = 1 + 8192 * i) :
    After t (Made g) i (makeBlockGroups g.groups g.ipg (List.range' i m) blocks start) (fun _ i' => i' = g.groups) := by
  induction m generalizing i blocks start with
  | zero => exact After.pure (by omega)
  | succ m ih =>
    have hi : i < g.groups := by omega
    have hcut : (if blocksPerGroup < blocks then blocksPerGroup else blocks) = g.groupBlocks i := by
      rw [hblocks, show blocksPerGroup = 8192 from rfl, Geom.groupBlocks]
      split <;> omega
    obtain ⟨_, _, hle, hin, _, _, _, _, h32⟩ := g.layout hi
    have hnext : ∀ i', i' = i + 1 → After t (Made g) i' (makeBlockGroups g.groups g.ipg (List.range' (i + 1) m)
        (blocks - g.groupBlocks i) (u32 (start + g.groupBlocks i))) (fun _ i' => i' = g.groups) := by
      intro i' hi'
      subst hi'
      refine ih (by omega) ?_ fun hm => ?_
      · rw [hblocks, Geom.groupBlocks]
        omega
      · -- another group follows: this one is full
        have hlast := (groups_le (g := g)).2
        have hfull : g.groupBlocks i = 8192 := by
          rw [Geom.groupBlocks]
          omega
        rw [hstart (by omega), hfull, u32_of_lt (by omega)]
        omega
    rw [List.range'_succ, makeBlockGroups, hcut]
    dsimp only
    rcases eq_or_ne i 0 with rfl | hi0
    · rw [if_pos rfl]
      exact (after_makeFirstBlockGroup rfl).bind fun _ => hnext
    · rw [if_neg hi0]
      exact (after_makeBlockGroup hi hi0 (hstart (by omega)) rfl).bind fun _ => hnext

/-! ### The image without the root directory -/

theorem inode_ofBytes_zero {f : Nat → UInt8} (h : ∀ i < 128, f i = 0) : Inode.ofBytes f = {} := by
  refine (Inode.ofBytes_congr (f := fun _ => 0) h).trans ?_
  have hw : wordsOf (fun _ => 0) = fun _ => 0 := rfl
  simp only [Inode.ofBytes, hw, ite_self, Nat.zero_mod, Nat.zero_div, Nat.mul_zero, Nat.add_zero]

theorem Made.rep (h : Made g s g.groups) : Rep g s (g.fresh (SuperBlock.ofBytes (s.window 1024))) := by
  refine ⟨h.mem, rfl, h.desc, fun K k hk j hj => ?_, fun ino h1 h2 => ?_, fun b hb i hi => ?_⟩
  · cases K with
    | block => exact h.bit k hk j hj
    | inode =>
      obtain ⟨_, _, _, _, _, _, _, _, _⟩ := g.layout hk
      have hzero : s.window (1024 * g.bitmap .inode k) (j / 8) = 0 := by
        refine h.zero _ (fun k' hk' => ?_) fun k' hk' => ?_
        · simp only [Geom.bitmap]
          omega
        · obtain ⟨_, _, _, _, _, _, _, _, _⟩ := g.layout hk'
          simp only [Geom.bitmap]
          rcases Nat.lt_trichotomy k k' with hlt | rfl | hlt <;> omega
      rw [bitAt, hzero]
      exact Nat.zero_testBit _
  · obtain ⟨k, j, hk, hj, ho, -⟩ := g.inodeOff_spec h1 h2
    obtain ⟨_, _, _, _, _, _, _, _, _⟩ := g.layout hk
    refine inode_ofBytes_zero fun x hx => h.zero _ (fun k' hk' => ?_) fun k' hk' => ?_
    · omega
    · obtain ⟨_, _, _, _, _, _, _, _, _⟩ := g.layout hk'
      rcases Nat.lt_trichotomy k k' with hlt | rfl | hlt <;> omega
  · obtain ⟨k, hk, hb1, hb2⟩ := hb
    obtain ⟨_, _, _, _, _, _, _, _, _⟩ := g.layout hk
    refine h.zero _ (fun k' hk' => ?_) fun k' hk' => ?_
    · omega
    · obtain ⟨_, _, _, _, _, _, _, _, _⟩ := g.layout hk'
      rcases Nat.lt_trichotomy k k' with hlt | rfl | hlt <;> omega

theorem fresh_counts (sb : SuperBlock) : Counts g (g.fresh sb) := by
  refine ⟨rfl, fun K k hk => ?_, fun k _ j hj => decide_eq_true hj⟩
  cases K with
  | inode =>
    show g.ipg = #{j ∈ range g.ipg | false = false}
    rw [filter_true_of_mem fun _ _ => rfl, card_range]
  | block =>
    have hlt := (g.layout hk).used_lt
    have hset : ({j ∈ range (g.groupBlocks k) | (g.fresh sb).bit .block k j = false} : Finset Nat) =
        Finset.Ico (g.used k) (g.groupBlocks k) := by
      ext j
      rw [mem_filter, mem_range, mem_Ico]
      show j < g.groupBlocks k ∧ decide (j < g.used k) = false ↔ _
      rw [decide_eq_false_iff_not]
      omega
    show g.groupBlocks k - g.used k = #{j ∈ range (g.groupBlocks k) | (g.fresh sb).bit .block k j = false}
    rw [hset, Nat.card_Ico]

/-! ### The root directory -/

/-- The root's inode, with its block. -/
def rootInode (b : Nat) : Inode := { iMode := sIfdir, iSize := blockSize, iBlock := Function.update (fun _ => 0) 0 b }

theorem rootInode_block (b : Nat) (k : Nat) : (rootInode b).iBlock k = if k = 0 then b else 0 := by
  simp only [rootInode, Function.update_apply]

/-- The first block of the root directory. -/
def rootRecs : List Rec :=
  [newRec dotName ftDir rootIno (recLenOf dotName), newRec dotDotName ftDir rootIno (recLenOf dotDotName),
    padding (1024 - recLenOf dotName - recLenOf dotDotName)]

theorem treeOf_rootInode {b : Nat} (hb : b ≠ 0) : d.treeOf (rootInode b) = {(0, b)} := by
  have hset : forest d.ptr 256 24 (fun j => j - 20) (rootInode b).iBlock =
      nodes d.ptr 256 (0 - 20) ((rootInode b).iBlock 0) + forest d.ptr 256 24 (fun j => j - 20) (fun _ => 0) :=
    forest_set (by omega) rfl (by rw [rootInode_block, if_pos rfl]; exact hb)
      fun k _ hk => by rw [rootInode_block, if_neg hk]
  have hempty : forest d.ptr 256 24 (fun j => j - 20) (fun _ => 0) = 0 := sum_eq_zero fun _ _ => if_pos rfl
  rw [Disk.treeOf, hset, hempty, add_zero, rootInode_block, if_pos rfl]
  rfl

theorem zeroInode_valid : Inode.Valid {} := by
  refine ⟨?_, ?_, ?_, ?_, ?_, ?_, ?_, ?_, ?_, fun _ => Nat.two_pow_pos 32, fun _ _ => rfl⟩
  all_goals exact Nat.two_pow_pos _

theorem rootInode_valid {b : Nat} (hb : b < 2 ^ 32) : (rootInode b).Valid := by
  refine ⟨show sIfdir < 2 ^ 16 by decide, ?_, ?_, ?_, ?_, ?_, ?_, ?_, show blockSize < 2 ^ 64 by decide, fun k => ?_,
    fun k hk => ?_⟩
  all_goals first | exact Nat.two_pow_pos _ | rw [rootInode_block]
  · split <;> omega
  · rw [if_neg (by omega)]

/-- The image has nothing but the root directory, in one block. -/
structure RootOnly (g : Geom) (j : Nat) (f : Nat → UInt8) (d : Disk) : Prop where
  counts : Counts g d
  recs : DirBlock f rootRecs
  place : g.used 0 ≤ j ∧ j < g.groupBlocks 0
  data : d.data = Function.update (fun _ _ => 0) (1 + j) f
  root : d.inode rootIno = rootInode (1 + j)
  other : ∀ n, n ≠ rootIno → d.inode n = {}
  blocks : ∀ k j', d.bit .block k j' = true ↔ j' < g.used k ∨ k = 0 ∧ j' = j
  inodes : ∀ k j', d.bit .inode k j' = true ↔ k = 0 ∧ j' = 0

namespace RootOnly

theorem of_mark {sb : SuperBlock} {f : Nat → UInt8} (hj : j < g.groupBlocks 0)
    (hbit : (g.fresh sb).bit .block 0 j = false) (hf : DirBlock f rootRecs)
    (hd : d = ((((g.fresh sb).setData (1 + j) f).setInode rootIno (rootInode (1 + j))).mark .inode 0).mark .block j) :
    RootOnly g j f d := by
  have hbits : ∀ K k j', d.bit K k j' =
      (((g.fresh sb).bit K k j' || decide (K = .inode ∧ k = 0 ∧ j' = 0)) || decide (K = .block ∧ k = 0 ∧ j' = j)) := by
    intro K k j'
    rw [hd, Disk.mark_bit, Disk.mark_bit]
    rfl
  have hc := fresh_counts (g := g) sb
  have hc' : Counts g (((g.fresh sb).setData (1 + j) f).setInode rootIno (rootInode (1 + j))) :=
    ⟨hc.mem, hc.free, hc.used⟩
  refine ⟨?_, hf, ⟨Nat.not_lt.1 (of_decide_eq_false hbit), hj⟩, by rw [hd]; rfl, ?_, fun n hn => ?_, fun k j' => ?_,
    fun k j' => ?_⟩
  · rw [hd]
    refine (hc'.mark (K := .inode) (j := 0) g.ipg_pos rfl).mark (K := .block) hj ?_
    rw [Disk.mark_bit]
    simp only [reduceCtorEq, false_and, decide_false, Bool.or_false]
    exact hbit
  · rw [hd, Disk.mark_inode, Disk.mark_inode, Disk.setInode_self]
  · rw [hd, Disk.mark_inode, Disk.mark_inode, Disk.setInode_ne _ _ hn]
    rfl
  · rw [hbits, show (g.fresh sb).bit .block k j' = decide (j' < g.used k) from rfl]
    simp
  · rw [hbits, show (g.fresh sb).bit .inode k j' = false from rfl]
    simp

section
variable {f : Nat → UInt8} (h : RootOnly g j f d)
include h

theorem tree : d.treeOf (d.inode rootIno) = {(0, 1 + j)} := by rw [h.root, treeOf_rootInode (by omega)]

theorem leaves : d.leaves = {1 + j} := by
  rw [Disk.leaves, h.tree]
  rfl

theorem refBlocks : d.refBlocks g = {1 + j} := by
  have hsum : d.refs g = {(0, 1 + j)} + Disk.refs { d with inode := fun _ => {} } g := by
    refine refs_add one_le_rootIno rootIno_le ?_ fun n _ _ hn => ?_
    · rw [h.tree, treeOf_of_zero fun _ _ => rfl, add_zero]
    · rw [h.other n hn]
      rfl
  have hz : Disk.refs { d with inode := fun _ => {} } g = 0 := sum_eq_zero fun _ _ => treeOf_of_zero fun _ _ => rfl
  rw [Disk.refBlocks, hsum, hz, add_zero, Multiset.map_singleton]

theorem block_eq : d.data (1 + j) = f := by rw [h.data, Function.update_self]

theorem dirEntries_eq : dirEntries f = [newRec dotName ftDir rootIno (recLenOf dotName),
    newRec dotDotName ftDir rootIno (recLenOf dotDotName)] := h.recs.tiles.dirEntries_eq

theorem entries : d.entries = ([newRec dotName ftDir rootIno (recLenOf dotName),
    newRec dotDotName ftDir rootIno (recLenOf dotDotName)] : List Rec) := by
  rw [Disk.entries, h.leaves, Multiset.singleton_bind, h.block_eq, h.dirEntries_eq]

theorem named : d.named = 0 := by
  rw [Disk.named, h.entries]
  rfl

theorem blockInv : BlockInv g d (d.refBlocks g + 0) := by
  rw [add_zero, h.refBlocks]
  refine ⟨Multiset.nodup_singleton _, fun b hb => ?_, fun k _ j' _ => ?_, fun j' hj' hb i _ => ?_⟩
  · have := h.place
    obtain rfl := Multiset.mem_singleton.1 hb
    omega
  · rw [h.blocks, Multiset.mem_singleton, Nat.add_right_inj]
  · have hne : 1 + j' ≠ 1 + j := by
      intro he
      rw [(h.blocks 0 j').2 (.inr ⟨rfl, by omega⟩)] at hb
      cases hb
    rw [h.data, Function.update_of_ne hne]

theorem dirInv (hlt : 1 + j < 2 ^ 32) : DirInv g d where
  bits k _ j' _ := by
    rw [h.inodes, h.named, rootIno]
    simp
  nodup := by
    rw [h.named]
    exact Multiset.nodup_zero
  range := by
    rw [h.named]
    exact fun ino hino => absurd hino (Multiset.notMem_zero _)
  zero n _ _ hn _ := h.other n hn
  valid n _ _ := by
    rcases eq_or_ne n rootIno with rfl | hn
    · rw [h.root]
      exact rootInode_valid hlt
    · rw [h.other n hn]
      exact zeroInode_valid
  mode := by
    rw [h.root]
    rfl
  dirs b hb := by
    rw [h.leaves] at hb
    obtain rfl := Multiset.mem_singleton.1 hb
    exact ⟨rootRecs, by rw [h.block_eq]; exact h.recs⟩
  packed i i' hii hi' hi := by
    rw [h.root, rootInode_block] at hi ⊢
    split at hi
    · omega
    · rw [if_neg (by omega)]
  packedBlocks l c hc := by
    rw [h.tree] at hc
    cases Multiset.mem_singleton.1 hc
  first := by
    rw [h.root, rootInode_block, if_pos rfl]
    omega
  dots := by
    rw [h.root, rootInode_block, if_pos rfl, h.block_eq, h.dirEntries_eq]
    exact ⟨recLenOf dotName, recLenOf dotDotName, List.mem_cons_self, List.mem_cons_of_mem _ List.mem_cons_self⟩

theorem flat : Flat g d := by
  refine ⟨fun n _ _ hn => ?_, fun q hq _ => ?_⟩
  · rw [h.other n hn]
    decide
  · rw [h.entries] at hq
    rcases List.mem_cons.1 (Multiset.mem_coe.1 hq) with rfl | hq
    · rfl
    · rw [List.mem_singleton.1 hq]
      rfl

theorem sync : RootOnly g j f d.sync :=
  ⟨⟨h.counts.mem, h.counts.free, h.counts.used⟩, h.recs, h.place, h.data, h.root, h.other, h.blocks, h.inodes⟩

theorem image (hsb : d.sb = d.mem) : Image g d := by
  obtain ⟨_, _, _, _, _, _, _, _, _⟩ := g.layout g.groups_pos
  have hj := h.place.2
  have hinv : Inv g d 0 := ⟨h.counts, h.blockInv, h.dirInv (by omega)⟩
  refine ⟨hinv, h.flat, ?_, hsb⟩
  rw [h.entries]
  decide

theorem free_inode : d.free .inode 0 = g.ipg - 1 := by
  have hset : ({j' ∈ range g.ipg | d.bit .inode 0 j' = false} : Finset Nat) = (range g.ipg).erase 0 := by
    ext j'
    rw [mem_filter, mem_erase, ← Bool.not_eq_true, h.inodes]
    tauto
  have hfree := h.counts.free .inode 0 g.groups_pos
  rw [show g.units .inode 0 = g.ipg from rfl, hset, card_erase_of_mem (mem_range.2 g.ipg_pos), card_range] at hfree
  exact hfree

theorem free_block : d.free .block 0 = g.groupBlocks 0 - g.used 0 - 1 := by
  have hset : ({j' ∈ range (g.groupBlocks 0) | d.bit .block 0 j' = false} : Finset Nat) =
      (Ico (g.used 0) (g.groupBlocks 0)).erase j := by
    ext j'
    rw [mem_filter, mem_erase, ← Bool.not_eq_true, h.blocks, mem_Ico, mem_range]
    omega
  have hfree := h.counts.free .block 0 g.groups_pos
  rw [show g.units .block 0 = g.groupBlocks 0 from rfl, hset, card_erase_of_mem (mem_Ico.2 h.place), Nat.card_Ico] at hfree
  exact hfree

end

end RootOnly

theorem after_writeRootDir (sb : SuperBlock) : g.After t (g.fresh sb) writeRootDir (fun _ d' =>
    (∃ j f, RootOnly g j f d') ∧ d'.sb = d'.mem) := by
  have h0 := g.groups_pos
  have hc := fresh_counts (g := g) sb
  have hpos : 0 < (g.fresh sb).free .block 0 := by
    have := (g.layout h0).used_lt
    show 0 < g.groupBlocks 0 - g.used 0
    omega
  refine (after_allocBlock hc fun _ => hpos).bind ?_
  rintro b d₁ ⟨hd, j, hj, hb, hbit⟩
  subst hd hb
  have hdata : g.IsData (1 + j) := by simpa using hc.isData h0 hj hbit
  have hlt := IsData.lt hdata
  refine (after_initDirBlock hdata).bind ?_
  rintro _ d₂ ⟨f₂, hd₂, hf₂⟩
  have hb₂ : DirBlock (d₂.data (1 + j)) ([] ++ padding 1024 :: []) := by
    rw [hd₂, Disk.setData_self]
    exact hf₂
  refine (after_writeDirEntryToBlock_room hdata hb₂ (fun _ hp => absurd hp List.not_mem_nil)
    (by decide) (by decide) (by decide) (by decide)).bind ?_
  rintro _ d₃ ⟨_, f₃, hd₃, hf₃⟩
  have hb₃ : DirBlock (d₃.data (1 + j)) ([newRec dotName ftDir rootIno (recLenOf dotName)] ++
      padding (1024 - recLenOf dotName) :: []) := by
    rw [hd₃, Disk.setData_self]
    exact hf₃
  refine (after_writeDirEntryToBlock_room hdata hb₃ (fun p hp => ?_)
    (by decide) (by decide) (by decide) (by decide)).bind ?_
  · rw [List.mem_singleton.1 hp]
    exact (show ftDir ≠ ftUnknown by decide)
  rintro _ d₄ ⟨_, f₄, hd₄, hf₄⟩
  have hd₄' : d₄ = (g.fresh sb).setData (1 + j) f₄ := by
    rw [hd₄, hd₃, hd₂]
    simp only [Disk.setData, Function.update_idem]
  have hw : g.After t d₄ (writeInode rootIno (rootInode (1 + j))) (fun _ d' =>
      d' = (d₄.setInode rootIno (rootInode (1 + j))).take .inode 0 0) := by
    have hdiv : (rootIno - 1) / g.ipg = 0 := Nat.zero_div _
    have hmod : (rootIno - 1) % g.ipg = 0 := Nat.zero_mod _
    have hwi := after_writeInode (t := t) (g := g) (d := d₄) (by rw [hd₄']; rfl) one_le_rootIno rootIno_le
      (rootInode_valid (b := 1 + j) (by omega)) (by rw [hdiv, hd₄']; exact fun K => hc.free_lt h0)
      (by rw [hdiv, hd₄']; exact g.ipg_pos)
    rwa [hdiv, hmod] at hwi
  refine hw.bind fun _ d₅ hd₅ => ?_
  have hfree₅ : ∀ K, d₅.free K 0 < 2 ^ 16 := by
    intro K
    have := hc.free_lt h0 (K := K)
    rw [hd₅, hd₄']
    simp only [Disk.take, Disk.setInode, Disk.setData]
    split <;> omega
  have hle := (g.layout h0).le
  refine (after_updateBlockBitmap h0 (by omega : j < 8192) (by omega) (by omega) hfree₅
    (by rw [hd₅, hd₄']; exact hpos)).bind fun _ d₆ hd₆ => ?_
  obtain ⟨hmp, hml⟩ := Disk.mark_block_mem hc h0 hj hbit
  refine (after_decFreeBlocks (by rw [hd₆, hd₅, hd₄']; exact hmp) (by rw [hd₆, hd₅, hd₄']; exact hml)).bind
    fun _ d₇ hd₇ => ?_
  have hmi : 0 < (g.fresh sb).mem.sFreeInodesCount ∧ (g.fresh sb).mem.sFreeInodesCount < 2 ^ 32 := by
    rw [hc.mem]
    exact ⟨hc.sum_pos h0 (K := .inode) (j := 0) g.ipg_pos rfl, hc.sum_lt⟩
  refine (after_decFreeInodes (by rw [hd₇, hd₆, hd₅, hd₄']; exact hmi.1) (by rw [hd₇, hd₆, hd₅, hd₄']; exact hmi.2)).bind
    fun _ d₈ hd₈ => ?_
  have hroot : RootOnly g j f₄ d₈ := by
    have hd : d₈ = ((((g.fresh sb).setData (1 + j) f₄).setInode rootIno (rootInode (1 + j))).mark .inode 0).mark
        .block j := by
      rw [hd₈, hd₇, hd₆, hd₅, hd₄']
      rfl
    exact .of_mark hj hbit hf₄ hd
  refine (after_updateSuperBlock hroot.counts.valid).mono fun _ d₉ hd₉ => ?_
  rw [hd₉]
  exact ⟨⟨j, f₄, hroot.sync⟩, rfl⟩

/-! ### `mkfs` -/

theorem after_writeSuperBlock (hv : d.mem.Valid) : g.After t d writeSuperBlock (fun _ d' => d' = d.sync) :=
  after_updateSuperBlock hv

theorem start_made (hs : s.img = ⟨fun _ => 0, 0⟩)
    (hsb : s.superBlock = ⟨g.inodes, g.blocks, 0, 0, g.ipg⟩) : Made g s 0 := by
  refine ⟨hsb, fun k hk => absurd hk (Nat.not_lt_zero k), fun k hk => absurd hk (Nat.not_lt_zero k), fun x _ _ => ?_,
    fun x _ => ?_⟩
  all_goals rw [hs]

theorem u32Sub_one (hpos : 0 < blockNum) (hlt : blockNum * 1024 ≤ 2 ^ 32) : u32Sub blockNum 1 = blockNum - 1 :=
  u32Sub_of_le hpos (by omega)

/-- `mkfs` returns on every geometry, with a consistent image. -/
theorem mkfs_ok (g : Geom) : ∃ s d, (mkfs (g.blocks + 1) g.ipg).run .start = .ok ((), s) ∧ Rep g s d ∧
    (∃ j f, RootOnly g j f d) ∧ d.sb = d.mem := by
  have h32 := g.blocks_lt
  have hsub : u32Sub (g.blocks + 1) 1 = g.blocks := u32Sub_one (by omega) h32
  have hgroups : g.blocks / blocksPerGroup + (if g.blocks % blocksPerGroup ≠ 0 then 1 else 0) = g.groups := rfl
  have h0 := g.groups_pos
  let s₀ : State := ⟨⟨fun _ => 0, 0⟩, ⟨g.inodes, g.blocks, 0, 0, g.ipg⟩⟩
  have hmade : Made g s₀ 0 := start_made rfl rfl
  have hloop : After True (Made g) 0 (do
      makeBlocks 1
      makeBlockGroups g.groups g.ipg (List.range g.groups) g.blocks superBlockNo) (fun _ i => i = g.groups) := by
    refine (after_makeBlocks (by omega)).bind fun _ i hi => ?_
    subst hi
    rw [List.range_eq_range']
    exact after_makeBlockGroups (by omega) (by omega) fun _ => rfl
  obtain ⟨⟨_, s₁⟩, hr₁⟩ := (hloop s₀ hmade).2 trivial
  obtain ⟨i, hs₁, rfl⟩ := (hloop s₀ hmade).1 _ _ hr₁
  have hroot : g.After True (g.fresh (SuperBlock.ofBytes (s₁.window 1024))) (do writeSuperBlock; writeRootDir)
      (fun _ d' => (∃ j f, RootOnly g j f d') ∧ d'.sb = d'.mem) := by
    refine (after_writeSuperBlock (fresh_counts _).valid).bind fun _ d hd => ?_
    subst hd
    exact after_writeRootDir _
  obtain ⟨⟨_, s₂⟩, hr₂⟩ := (hroot s₁ hs₁.rep).2 trivial
  obtain ⟨d, hs₂, himage⟩ := (hroot s₁ hs₁.rep).1 _ _ hr₂
  refine ⟨s₂, d, ?_, hs₂, himage⟩
  obtain ⟨_, u, hu₁, hu₂⟩ := bind_ok.1 hr₁
  obtain ⟨_, v, hv₁, hv₂⟩ := bind_ok.1 hr₂
  simp only [mkfs, hsub, hgroups]
  rw [if_neg (by omega)]
  refine bind_ok.2 ⟨⟨⟩, s₀, modify_ok.2 ?_, bind_ok.2 ⟨_, u, hu₁, bind_ok.2 ⟨_, s₁, hu₂, bind_ok.2 ⟨_, v, hv₁, hv₂⟩⟩⟩⟩
  rw [show u32 (g.ipg * g.groups) = g.inodes from u32_of_lt g.inodes_lt]
  rfl

/-! ### When `mkfs` returns -/

namespace Keeps
variable {P : State → Prop} (hP : Stable P)
include hP

theorem makeBlockGroupMetadata {desc : BlockGroupDescriptor} : Keeps P (makeBlockGroupMetadata k used desc) :=
  (fwrite hP).bind fun _ => (fwrite hP).bind fun _ => modifyCounts hP

theorem makeBlocks : Keeps P (makeBlocks c) := get.bind fun _ => fwrite hP

theorem makeFirstBlockGroup {groups : Nat} : Keeps P (makeFirstBlockGroup groups ipg blocks) := by
  have hm : ∀ c, Keeps P (Mkfs.makeBlocks c) := fun c => makeBlocks hP
  rw [Mkfs.makeFirstBlockGroup]
  split
  · exact throw
  · exact (hm _).bind fun _ => (hm _).bind fun _ => (hm _).bind fun _ => (hm _).bind fun _ => (hm _).bind fun _ =>
      (hm _).bind fun _ => makeBlockGroupMetadata hP

theorem makeBlockGroup {start : Nat} : Keeps P (makeBlockGroup start k ipg blocks) := by
  have hm : ∀ c, Keeps P (Mkfs.makeBlocks c) := fun c => makeBlocks hP
  rw [Mkfs.makeBlockGroup]
  split
  · exact throw
  · exact (hm _).bind fun _ => (hm _).bind fun _ => (hm _).bind fun _ => (hm _).bind fun _ => makeBlockGroupMetadata hP

theorem makeBlockGroups {groups start : Nat} {l : List Nat} : Keeps P (makeBlockGroups groups ipg l blocks start) := by
  induction l generalizing blocks start with
  | nil => exact pure
  | cons i l ih =>
    rw [Mkfs.makeBlockGroups]
    dsimp only
    split
    · exact (makeFirstBlockGroup hP).bind fun _ => ih
    · exact (makeBlockGroup hP).bind fun _ => ih

end Keeps

/-- The number of inodes per group is 0. -/
def NoInodes (s : State) : Prop := s.superBlock.sInodesPerGroup = 0

theorem noInodes_stable : Stable NoInodes := ⟨fun _ _ _ _ h => h, fun _ _ _ h => h⟩

/-- Without inodes the root directory is not written. -/
theorem writeRootDir_noInodes (h : NoInodes s) : ¬ writeRootDir.run s = .ok ((), s') := by
  intro hr
  obtain ⟨b, s₁, h₁, hr⟩ := bind_ok.1 hr
  obtain ⟨_, s₂, h₂, hr⟩ := bind_ok.1 hr
  obtain ⟨_, s₃, h₃, hr⟩ := bind_ok.1 hr
  obtain ⟨_, s₄, h₄, hr⟩ := bind_ok.1 hr
  have hs₁ := Keeps.allocBlock s b s₁ h h₁
  have hs₂ := Keeps.writePaddingEntry noInodes_stable s₁ _ s₂ hs₁ h₂
  have hs₃ := Keeps.writeDirEntryToBlock noInodes_stable s₂ _ s₃ hs₂ h₃
  have hs₄ : s₄.superBlock.sInodesPerGroup = 0 := Keeps.writeDirEntryToBlock noInodes_stable s₃ _ s₄ hs₃ h₄
  obtain ⟨_, s₅, h₅, -⟩ := bind_ok.1 hr
  obtain ⟨_, s₆, h₆, -⟩ := bind_ok.1 h₅
  obtain ⟨sb, s₇, h₇, h₈⟩ := bind_ok.1 h₆
  cases h₇
  rw [if_pos hs₄] at h₈
  exact throw_ok h₈

/-- Every group of an image that was made has room beside its metadata. -/
theorem used_lt_of_ok {start : Nat} (hipg : ipg ≤ 8192) (hn : blockNum < 2 ^ 32)
    (hblocks : blocks = blockNum - 8192 * i)
    (h : (makeBlockGroups (groupsOf blockNum) ipg (List.range' i m) blocks start).run s = .ok ((), s')) :
    ∀ k, i ≤ k → k < i + m → usedOf blockNum ipg k < min 8192 (blockNum - 8192 * k) := by
  have hg : groupsOf blockNum * 16 < 2 ^ 32 := by
    simp only [groupsOf, ne_eq, ite_not]
    split <;> omega
  have htable : blocksOf (u32 (groupsOf blockNum * BlockGroupDescriptor.size)) = blocksOf (groupsOf blockNum * 16) := by
    rw [BlockGroupDescriptor.size, u32_of_lt hg]
  have hinodes : blocksOf (u32 (ipg * Inode.size)) = blocksOf (ipg * 128) := by
    rw [u32_of_lt (by rw [Inode.size]; omega)]
    rfl
  have hsmall : ∀ n, n < 2 ^ 32 → blocksOf n < 2 ^ 23 := by
    intro n hn
    rw [blocksOf, blockSize]
    split <;> omega
  have h1 := hsmall _ hg
  have h2 := hsmall (ipg * 128) (by omega)
  induction m generalizing i blocks start s with
  | zero => exact fun k h1 h2 => by omega
  | succ m ih =>
    have hcut : (if blocksPerGroup < blocks then blocksPerGroup else blocks) = min 8192 (blockNum - 8192 * i) := by
      rw [hblocks, show blocksPerGroup = 8192 from rfl]
      split <;> omega
    rw [List.range'_succ, makeBlockGroups, hcut] at h
    dsimp only at h
    have hi : usedOf blockNum ipg i < min 8192 (blockNum - 8192 * i) ∧
        ∃ t, (makeBlockGroups (groupsOf blockNum) ipg (List.range' (i + 1) m) (blocks - min 8192 (blockNum - 8192 * i))
          (u32 (start + min 8192 (blockNum - 8192 * i)))).run t = .ok ((), s') := by
      rw [usedOf]
      split at h
      · rename_i hi0
        obtain ⟨_, t, ht, hrest⟩ := bind_ok.1 h
        refine ⟨?_, t, hrest⟩
        by_contra hge
        rw [makeFirstBlockGroup, htable, hinodes, if_pos] at ht
        · exact throw_ok ht
        · rw [if_pos hi0] at hge
          rw [u32_of_lt (by omega)]
          omega
      · rename_i hi0
        obtain ⟨_, t, ht, hrest⟩ := bind_ok.1 h
        refine ⟨?_, t, hrest⟩
        by_contra hge
        rw [makeBlockGroup, hinodes, if_pos] at ht
        · exact throw_ok ht
        · rw [if_neg hi0] at hge
          rw [u32_of_lt (by omega)]
          omega
    obtain ⟨hused, t, hrest⟩ := hi
    intro k hk1 hk2
    rcases Nat.lt_or_ge i k with hlt | hge
    · exact ih (by omega) hrest k hlt (by omega)
    · obtain rfl : k = i := by omega
      exact hused

/-- `mkfs` returns only when there are inodes and every group has room. -/
theorem geom_of_mkfs (hpos : 0 < blockNum) (hlt : blockNum * 1024 ≤ 2 ^ 32) (hipg : ipg ≤ 8192)
    (h : (mkfs blockNum ipg).run s = .ok ((), s')) : ∃ g : Geom, blockNum = g.blocks + 1 ∧ ipg = g.ipg := by
  have hsub := u32Sub_one hpos hlt
  have hgroups : (blockNum - 1) / blocksPerGroup + (if (blockNum - 1) % blocksPerGroup ≠ 0 then 1 else 0) =
    groupsOf (blockNum - 1) := rfl
  simp only [mkfs, hsub, hgroups] at h
  split at h
  · exact absurd h throw_ok
  · rename_i hg
    obtain ⟨_, s₀, hs₀, h₀⟩ := bind_ok.1 h
    obtain ⟨_, s₁, hs₁, h₁⟩ := bind_ok.1 h₀
    obtain ⟨_, s₂, hs₂, h₂⟩ := bind_ok.1 h₁
    rw [List.range_eq_range'] at hs₂
    have hused := used_lt_of_ok hipg (by omega) (by omega) hs₂
    have hblocks : 0 < blockNum - 1 := by
      by_contra h0
      rw [show blockNum - 1 = 0 by omega] at hg
      exact hg (by decide)
    have hipos : 0 < ipg := by
      by_contra h0
      obtain rfl : ipg = 0 := by omega
      have hzero : NoInodes s₀ := by
        rw [modify_ok.1 hs₀]
        rfl
      have hz₁ := Keeps.makeBlocks noInodes_stable s₀ _ s₁ hzero hs₁
      have hz₂ := Keeps.makeBlockGroups noInodes_stable s₁ _ s₂ hz₁ hs₂
      obtain ⟨_, s₃, hs₃, h₃⟩ := bind_ok.1 h₂
      exact writeRootDir_noInodes (Keeps.writeSuperBlock noInodes_stable s₂ _ s₃ hz₂ hs₃) h₃
    have hlt' : (blockNum - 1 + 1) * 1024 ≤ 2 ^ 32 := by
      rw [Nat.sub_add_cancel hpos]
      exact hlt
    have hroom : ∀ k < groupsOf (blockNum - 1), usedOf (blockNum - 1) ipg k < min 8192 (blockNum - 1 - 8192 * k) :=
      fun k hk => hused k (Nat.zero_le k) (by rw [Nat.zero_add]; exact hk)
    exact ⟨⟨blockNum - 1, ipg, hipos, hipg, hlt', hblocks, hroom⟩, (Nat.sub_add_cancel hpos).symm, rfl⟩

/-- What `mkfs` leaves when it returns. -/
theorem mkfs_spec (hpos : 0 < blockNum) (hlt : blockNum * 1024 ≤ 2 ^ 32) (hipg : ipg ≤ 8192)
    (h : (mkfs blockNum ipg).run .start = .ok ((), s)) :
    ∃ g d, g.blocks + 1 = blockNum ∧ g.ipg = ipg ∧ Rep g s d ∧ Image g d := by
  obtain ⟨g, rfl, rfl⟩ := geom_of_mkfs hpos hlt hipg h
  obtain ⟨s', d, hr, hrep, ⟨j, f, hroot⟩, hsb⟩ := mkfs_ok g
  rw [h] at hr
  cases hr
  exact ⟨g, d, rfl, rfl, hrep, hroot.image hsb⟩

end Airix.Mkfs
