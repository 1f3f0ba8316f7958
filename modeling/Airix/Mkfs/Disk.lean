import Airix.Lib.Exec
import Airix.Mkfs.Model
import Mathlib.Algebra.BigOperators.Group.Finset.Basic

/-!
# The image as a file system

`Geom` is where things are on an image, `Disk` what is there, and `Rep` says that the bytes of the image
and the super block in memory stand for a `Disk`. Each access of the program to the image is an
operation on the `Disk`; nothing below the primitives of this file looks at offsets again.
-/

namespace Airix.Mkfs
open Axfs Bytes Exec

variable {k k' j b off off' len n ino : Nat} {f : Nat → UInt8}

/-! ### Geometry -/

/-- What a bitmap keeps account of. -/
inductive Kind
  | block
  | inode
deriving DecidableEq

/-- The number of block groups of `blocks` blocks. -/
def groupsOf (blocks : Nat) : Nat := blocks / 8192 + if blocks % 8192 ≠ 0 then 1 else 0

/-- The number of blocks that a group's metadata takes. -/
def usedOf (blocks ipg k : Nat) : Nat :=
  (if k = 0 then 1 + blocksOf (groupsOf blocks * 16) else 0) + 2 + blocksOf (ipg * 128)

structure Geom where
  blocks : Nat
  ipg : Nat
  ipg_pos : 0 < ipg
  ipg_le : ipg ≤ 8192
  blocks_lt : (blocks + 1) * 1024 ≤ 2 ^ 32
  blocks_pos : 0 < blocks
  used_lt : ∀ k < groupsOf blocks, usedOf blocks ipg k < min 8192 (blocks - 8192 * k)

theorem blocksOf_le (size : Nat) : size ≤ 1024 * blocksOf size := by
  rw [blocksOf, blockSize]
  rcases eq_or_ne (size % 1024) 0 with h | h
  · rw [if_neg (not_not.2 h)]
    omega
  · rw [if_pos h]
    omega

namespace Geom
variable (g : Geom)

def groups : Nat := groupsOf g.blocks
def tableBlocks : Nat := blocksOf (g.groups * 16)
def inodeBlocks : Nat := blocksOf (g.ipg * 128)
def used (k : Nat) : Nat := usedOf g.blocks g.ipg k
def groupBlocks (k : Nat) : Nat := min 8192 (g.blocks - 8192 * k)
def inodes : Nat := g.ipg * g.groups

/-- The block of a group's block bitmap. -/
def bitmapBlock (k : Nat) : Nat := 1 + 8192 * k + if k = 0 then 1 + g.tableBlocks else 0

def bitmap : Kind → Nat → Nat
  | .block, k => g.bitmapBlock k
  | .inode, k => g.bitmapBlock k + 1

/-- How many units a group has. -/
def units : Kind → Nat → Nat
  | .block, k => g.groupBlocks k
  | .inode, _ => g.ipg

def inodeOff (ino : Nat) : Nat := 1024 * (g.bitmapBlock ((ino - 1) / g.ipg) + 2) + 128 * ((ino - 1) % g.ipg)

/-- Block `b` is not a metadata block of its group. -/
def IsData (b : Nat) : Prop := ∃ k < g.groups, 1 + 8192 * k + g.used k ≤ b ∧ b < 1 + 8192 * k + g.groupBlocks k

variable {g}

theorem groups_pos : 0 < g.groups := by
  have h := g.blocks_pos
  simp only [groups, groupsOf, ne_eq, ite_not]
  split <;> omega

/-- Where a group's blocks lie. -/
structure Layout (g : Geom) (k : Nat) : Prop where
  used : g.bitmapBlock k + 2 + g.inodeBlocks = 1 + 8192 * k + g.used k
  used_lt : g.used k < g.groupBlocks k
  le : g.groupBlocks k ≤ 8192
  blocks : 8192 * k + g.groupBlocks k ≤ g.blocks
  start : 1 + 8192 * k ≤ g.bitmapBlock k
  table : 2 + g.tableBlocks ≤ g.bitmapBlock k
  descs : 16 * g.groups ≤ 1024 * g.tableBlocks
  inodes : 128 * g.ipg ≤ 1024 * g.inodeBlocks
  blocks_lt : (g.blocks + 1) * 1024 ≤ 2 ^ 32

theorem layout (hk : k < g.groups) : g.Layout k := by
  have h0 := g.used_lt 0 groups_pos
  have hlt := g.used_lt k hk
  have hu : ∀ k, g.bitmapBlock k + 2 + g.inodeBlocks = 1 + 8192 * k + g.used k := by
    intro k
    simp only [bitmapBlock, used, usedOf, tableBlocks, inodeBlocks, groups]
    omega
  have htable : 2 + g.tableBlocks + 2 + g.inodeBlocks = 1 + usedOf g.blocks g.ipg 0 := by
    have := hu 0
    simp only [bitmapBlock, used, if_pos] at this
    omega
  refine ⟨hu k, hlt, Nat.min_le_left _ _, ?_, ?_, ?_, ?_, ?_, g.blocks_lt⟩
  · simp only [groupBlocks]
    omega
  · simp only [bitmapBlock]
    omega
  · simp only [bitmapBlock]
    split <;> omega
  · have := blocksOf_le (g.groups * 16)
    simp only [tableBlocks]
    omega
  · have := blocksOf_le (g.ipg * 128)
    simp only [inodeBlocks]
    omega

theorem bitmap_spec (K : Kind) (k : Nat) : g.bitmapBlock k ≤ g.bitmap K k ∧ g.bitmap K k ≤ g.bitmapBlock k + 1 := by
  cases K <;> simp only [bitmap] <;> omega

theorem bitmap_inj {K K' : Kind} (hk : k < g.groups) (hk' : k' < g.groups) (h : g.bitmap K k = g.bitmap K' k') :
    K = K' ∧ k = k' := by
  have hs := bitmap_spec (g := g) K k
  have hs' := bitmap_spec (g := g) K' k'
  have hkk : k = k' := by
    obtain ⟨_, _, _, _, _⟩ := layout hk
    obtain ⟨_, _, _, _, _⟩ := layout hk'
    omega
  refine ⟨?_, hkk⟩
  subst hkk
  cases K <;> cases K' <;> simp only [bitmap] at h <;> first | rfl | omega

theorem units_le (K : Kind) : g.units K k ≤ 8192 := by
  cases K with
  | block => exact Nat.min_le_left _ _
  | inode => exact g.ipg_le

/-- An inode's place in the inode table of its group. -/
theorem inodeOff_spec (h1 : 1 ≤ ino) (h2 : ino ≤ g.inodes) :
    ∃ k j, k < g.groups ∧ j < g.ipg ∧ g.inodeOff ino = 1024 * (g.bitmapBlock k + 2) + 128 * j ∧
      ino = g.ipg * k + j + 1 ∧ (ino - 1) / g.ipg = k ∧ (ino - 1) % g.ipg = j := by
  have hdm := Nat.div_add_mod (ino - 1) g.ipg
  refine ⟨(ino - 1) / g.ipg, (ino - 1) % g.ipg, ?_, Nat.mod_lt _ g.ipg_pos, rfl, by omega, rfl, rfl⟩
  exact Nat.div_lt_of_lt_mul (by rw [inodes] at h2; omega)

theorem inodes_lt : g.inodes < 2 ^ 32 := by
  have h1 : 8192 * g.groups ≤ g.blocks + 8192 := by
    simp only [groups, groupsOf, ne_eq, ite_not]
    split <;> omega
  have h2 : g.inodes ≤ 8192 * g.groups := Nat.mul_le_mul_right _ g.ipg_le
  have h3 := g.blocks_lt
  omega

end Geom

/-! ### What is on an image -/

structure Disk where
  /-- The super block in memory. -/
  mem : SuperBlock
  sb : SuperBlock
  free : Kind → Nat → Nat
  bit : Kind → Nat → Nat → Bool
  inode : Nat → Inode
  data : Nat → Nat → UInt8

/-- The descriptor of group `k`. -/
def Disk.desc (d : Disk) (g : Geom) (k : Nat) : BlockGroupDescriptor :=
  ⟨g.bitmapBlock k, g.bitmapBlock k + 1, g.bitmapBlock k + 2, d.free .block k, d.free .inode k⟩

/-- The bytes of the image from `off` on. -/
def State.window (s : State) (off : Nat) : Nat → UInt8 := fun i => s.img.byte (off + i)

def State.write (s : State) (off len : Nat) (f : Nat → UInt8) : State :=
  { s with img := ⟨put s.img.byte off len f, max s.img.len (off + len)⟩ }

structure Rep (g : Geom) (s : State) (d : Disk) : Prop where
  mem : s.superBlock = d.mem
  sb : SuperBlock.ofBytes (s.window 1024) = d.sb
  desc : ∀ k < g.groups, BlockGroupDescriptor.ofBytes (s.window (2048 + 16 * k)) = d.desc g k
  bit : ∀ K, ∀ k < g.groups, ∀ j < 8192, bitAt (s.window (1024 * g.bitmap K k)) j = d.bit K k j
  inode : ∀ ino, 1 ≤ ino → ino ≤ g.inodes → Inode.ofBytes (s.window (g.inodeOff ino)) = d.inode ino
  data : ∀ b, g.IsData b → ∀ i < 1024, s.window (1024 * b) i = d.data b i

theorem State.window_write_in {s : State} {i : Nat} (h : i < len) : (s.write off len f).window off i = f i := put_in h

theorem State.window_write {s : State} {o : Nat} :
    (s.write (off + o) len f).window off = put (s.window off) o len f := put_shift

theorem State.window_write_out {s : State} (h : off' + n ≤ off ∨ off + len ≤ off') :
    ∀ i < n, (s.write off len f).window off' i = s.window off' i :=
  fun i hi => put_out (by omega)

namespace Rep
variable {g : Geom} {s : State} {d : Disk}

/-- The super block in memory is no part of the image. -/
theorem set_super (h : Rep g s d) (sb : SuperBlock) : Rep g ⟨s.img, sb⟩ { d with mem := sb } :=
  ⟨rfl, h.sb, h.desc, h.bit, h.inode, h.data⟩

/-! ### Writing to the image

What a write elsewhere leaves, and one lemma for each place that the program writes to. -/

section Frame
variable (h : Rep g s d)
include h

theorem frame_sb (hd : 1024 + 20 ≤ off ∨ off + len ≤ 1024) :
    SuperBlock.ofBytes ((s.write off len f).window 1024) = d.sb :=
  (SuperBlock.ofBytes_congr (State.window_write_out hd)).trans h.sb

theorem frame_desc (hk : k < g.groups) (hd : 2048 + 16 * k + 16 ≤ off ∨ off + len ≤ 2048 + 16 * k) :
    BlockGroupDescriptor.ofBytes ((s.write off len f).window (2048 + 16 * k)) = d.desc g k :=
  (BlockGroupDescriptor.ofBytes_congr (State.window_write_out hd)).trans (h.desc k hk)

theorem frame_bit {K : Kind} (hk : k < g.groups) (hj : j < 8192)
    (hd : 1024 * g.bitmap K k + 1024 ≤ off ∨ off + len ≤ 1024 * g.bitmap K k) :
    bitAt ((s.write off len f).window (1024 * g.bitmap K k)) j = d.bit K k j :=
  (bitAt_congr (State.window_write_out hd _ (by omega))).trans (h.bit K k hk j hj)

theorem frame_inode (h1 : 1 ≤ ino) (h2 : ino ≤ g.inodes)
    (hd : g.inodeOff ino + 128 ≤ off ∨ off + len ≤ g.inodeOff ino) :
    Inode.ofBytes ((s.write off len f).window (g.inodeOff ino)) = d.inode ino :=
  (Inode.ofBytes_congr (State.window_write_out hd)).trans (h.inode ino h1 h2)

theorem frame_data (hb : g.IsData b) {i : Nat} (hi : i < 1024)
    (hd : 1024 * b + 1024 ≤ off ∨ off + len ≤ 1024 * b) :
    (s.write off len f).window (1024 * b) i = d.data b i :=
  (State.window_write_out hd i hi).trans (h.data b hb i hi)

end Frame

theorem write_super (h : Rep g s d) {sb : SuperBlock} (hsb : sb.Valid) :
    Rep g (s.write 1024 20 (ofWords sb.words)) { d with sb := sb } := by
  refine ⟨h.mem, ?_, fun k hk => h.frame_desc hk (by omega), fun K k hk j hj => h.frame_bit hk hj ?_,
    fun ino h1 h2 => h.frame_inode h1 h2 ?_, fun b hb i hi => h.frame_data hb hi ?_⟩
  · exact (SuperBlock.ofBytes_congr fun i hi => State.window_write_in hi).trans (SuperBlock.ofBytes_words hsb)
  · have hl := (g.layout hk).table
    have hs := g.bitmap_spec K k
    omega
  · obtain ⟨k, j, hk, hj, ho, -⟩ := g.inodeOff_spec h1 h2
    omega
  · obtain ⟨k, hk, hb1, -⟩ := hb
    have hl := (g.layout hk).used
    have ht := (g.layout hk).table
    omega

theorem write_desc (h : Rep g s d) (hk : k < g.groups) {free : Kind → Nat} (hfree : ∀ K, free K < 2 ^ 16) :
    Rep g (s.write (2048 + 16 * k) 16 (ofWords (BlockGroupDescriptor.words
      ⟨g.bitmapBlock k, g.bitmapBlock k + 1, g.bitmapBlock k + 2, free .block, free .inode⟩)))
      { d with free := fun K => Function.update (d.free K) k (free K) } := by
  have hl := g.layout hk
  have hdescs := hl.descs
  refine ⟨h.mem, h.frame_sb (by omega), fun k' hk' => ?_, fun K k' hk' j hj => h.frame_bit hk' hj ?_,
    fun ino h1 h2 => h.frame_inode h1 h2 ?_, fun b hb i hi => h.frame_data hb hi ?_⟩
  · rcases eq_or_ne k' k with rfl | hne
    · refine (BlockGroupDescriptor.ofBytes_congr fun i hi => State.window_write_in hi).trans ?_
      rw [BlockGroupDescriptor.ofBytes_words]
      · simp only [Disk.desc, Function.update_self]
      · have hu := hl.used
        have hb := hl.blocks
        have hlt := hl.used_lt
        have h32 := hl.blocks_lt
        refine ⟨?_, ?_, ?_, hfree _, hfree _⟩ <;> simp only <;> omega
    · rw [h.frame_desc hk' (by omega)]
      simp only [Disk.desc, Function.update_of_ne hne]
  · have hl' := (g.layout hk').table
    have hs := g.bitmap_spec K k'
    omega
  · obtain ⟨k', j, hk', hj, ho, -⟩ := g.inodeOff_spec h1 h2
    have hl' := (g.layout hk').table
    omega
  · obtain ⟨k', hk', hb1, -⟩ := hb
    have hl' := (g.layout hk').table
    have hu := (g.layout hk').used
    omega

theorem write_bit (h : Rep g s d) (K : Kind) (hk : k < g.groups) (hj : j < 8192) :
    Rep g (s.write (1024 * g.bitmap K k + j / 8) 1 (fun _ => setBit (s.window (1024 * g.bitmap K k + j / 8) 0) j))
      { d with bit := fun K' k' j' => d.bit K' k' j' || decide (K' = K ∧ k' = k ∧ j' = j) } := by
  have hl := g.layout hk
  have hs := g.bitmap_spec K k
  refine ⟨h.mem, h.frame_sb ?_, fun k' hk' => h.frame_desc hk' ?_, fun K' k' hk' j' hj' => ?_,
    fun ino h1 h2 => h.frame_inode h1 h2 ?_, fun b hb i hi => h.frame_data hb hi ?_⟩
  · have ht := hl.table
    omega
  · have ht := hl.table
    have hd := hl.descs
    omega
  · rcases eq_or_ne (g.bitmap K' k') (g.bitmap K k) with he | hne
    · obtain ⟨rfl, rfl⟩ := g.bitmap_inj hk' hk he
      have hbit := h.bit K' k' hk j' hj'
      simp only [true_and]
      rw [← hbit]
      rw [State.window_write]
      exact bitAt_put_setBit
    · rw [h.frame_bit hk' hj' (by omega)]
      have hf : ¬ (K' = K ∧ k' = k ∧ j' = j) := by
        rintro ⟨rfl, rfl, -⟩
        exact hne rfl
      simp only [decide_eq_false hf, Bool.or_false]
  · obtain ⟨k', j', hk', hj', ho, -⟩ := g.inodeOff_spec h1 h2
    have hl' := g.layout hk'
    obtain ⟨_, _, _, _, _, _, _, _, _⟩ := hl
    obtain ⟨_, _, _, _, _, _, _, _, _⟩ := hl'
    rcases Nat.lt_trichotomy k k' with hlt | rfl | hlt <;> omega
  · obtain ⟨k', hk', hb1, hb2⟩ := hb
    obtain ⟨_, _, _, _, _, _, _, _, _⟩ := hl
    obtain ⟨_, _, _, _, _, _, _, _, _⟩ := g.layout hk'
    rcases Nat.lt_trichotomy k k' with hlt | rfl | hlt <;> omega

theorem write_inode (h : Rep g s d) (h1 : 1 ≤ ino) (h2 : ino ≤ g.inodes) {inode : Inode} (hv : inode.Valid) :
    Rep g (s.write (g.inodeOff ino) 128 (ofWords inode.words))
      { d with inode := Function.update d.inode ino inode } := by
  obtain ⟨k, j, hk, hj, ho, hino, -⟩ := g.inodeOff_spec h1 h2
  obtain ⟨_, _, _, _, _, _, _, _, _⟩ := g.layout hk
  refine ⟨h.mem, h.frame_sb ?_, fun k' hk' => h.frame_desc hk' ?_, fun K k' hk' j' hj' => h.frame_bit hk' hj' ?_,
    fun ino' h1' h2' => ?_, fun b hb i hi => h.frame_data hb hi ?_⟩
  · omega
  · omega
  · have hs := g.bitmap_spec K k'
    obtain ⟨_, _, _, _, _, _, _, _, _⟩ := g.layout hk'
    rcases Nat.lt_trichotomy k k' with hlt | rfl | hlt <;> omega
  · rcases eq_or_ne ino' ino with rfl | hne
    · simp only [Function.update_self]
      exact (Inode.ofBytes_congr fun i hi => State.window_write_in hi).trans (Inode.ofBytes_words hv)
    · simp only [Function.update_of_ne hne]
      refine h.frame_inode h1' h2' ?_
      obtain ⟨k', j', hk', hj', ho', hino', -⟩ := g.inodeOff_spec h1' h2'
      obtain ⟨_, _, _, _, _, _, _, _, _⟩ := g.layout hk'
      rcases Nat.lt_trichotomy k k' with hlt | rfl | hlt <;> omega
  · obtain ⟨k', hk', hb1, hb2⟩ := hb
    obtain ⟨_, _, _, _, _, _, _, _, _⟩ := g.layout hk'
    rcases Nat.lt_trichotomy k k' with hlt | rfl | hlt <;> omega

theorem write_data (h : Rep g s d) (hb : g.IsData b) {o : Nat} (ho : o + len ≤ 1024) :
    Rep g (s.write (1024 * b + o) len f)
      { d with data := Function.update d.data b (put (d.data b) o len f) } := by
  have hb' := hb
  obtain ⟨k, hk, hb1, hb2⟩ := hb'
  obtain ⟨_, _, _, _, _, _, _, _, _⟩ := g.layout hk
  refine ⟨h.mem, h.frame_sb ?_, fun k' hk' => h.frame_desc hk' ?_, fun K k' hk' j' hj' => h.frame_bit hk' hj' ?_,
    fun ino h1 h2 => h.frame_inode h1 h2 ?_, fun c hc i hi => ?_⟩
  · omega
  · omega
  · have hs := g.bitmap_spec K k'
    obtain ⟨_, _, _, _, _, _, _, _, _⟩ := g.layout hk'
    rcases Nat.lt_trichotomy k k' with hlt | rfl | hlt <;> omega
  · obtain ⟨k', j', hk', hj', ho', hino', -⟩ := g.inodeOff_spec h1 h2
    obtain ⟨_, _, _, _, _, _, _, _, _⟩ := g.layout hk'
    rcases Nat.lt_trichotomy k k' with hlt | rfl | hlt <;> omega
  · rcases eq_or_ne c b with rfl | hne
    · simp only [Function.update_self]
      rw [State.window_write, put, put]
      split
      · rfl
      · exact h.data c hc i hi
    · simp only [Function.update_of_ne hne]
      exact h.frame_data hc hi (by omega)

end Rep

end Airix.Mkfs
