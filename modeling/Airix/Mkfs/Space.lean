import Airix.Mkfs.Complete

/-!
# The space check

`allocated` counts, along the loops of the `write_data_into_*` functions, the blocks that a file of a given
size takes; on a consistent image the writer takes as many, and returns iff the first group has them.
`has_enough_space` counts the indirect blocks as 3, or as none, because `indirect` comes out as 0: `SpaceExact`
says for which sizes and free counts that makes no difference.
-/

namespace Airix.Mkfs
open Axfs Bytes Exec Finset

variable {t : Prop} {g : Geom} {s s' : State} {d : Disk} {i n m rest size free : Nat}

/-! ### Counting the blocks of a file -/

/-- Rounds of a loop that writes while bytes remain: the blocks that it takes, and the bytes that are left. -/
def countFill (write : Nat → Nat × Nat) : Nat → Nat → Nat × Nat
  | 0, rest => (0, rest)
  | n + 1, rest =>
    if rest = 0 then (0, rest)
    else ((write rest).1 + (countFill write n (write rest).2).1, (countFill write n (write rest).2).2)

def countDataBlock (rest : Nat) : Nat × Nat := (1, rest - blockSize)

def countIndirect (write : Nat → Nat × Nat) (rest : Nat) : Nat × Nat :=
  (1 + (countFill write (blockSize / 4) rest).1, (countFill write (blockSize / 4) rest).2)

def count1Indirect : Nat → Nat × Nat := countIndirect countDataBlock
def count2Indirect : Nat → Nat × Nat := countIndirect count1Indirect
def count3Indirect : Nat → Nat × Nat := countIndirect count2Indirect

def countNext (write : Nat → Nat × Nat) (r : Nat × Nat) : Nat × Nat :=
  if r.2 = 0 then r else (r.1 + (write r.2).1, (write r.2).2)

/-- The blocks that `write_file` allocates for the data of a file. -/
def allocated (size : Nat) : Nat :=
  (countNext count3Indirect (countNext count2Indirect (countNext count1Indirect
    (countFill countDataBlock directBlockCount size)))).1

/-- The part of `write_file` that allocates the blocks of the file. -/
def writeData (blocks : Nat → Nat) (sfile : List UInt8) : M ((Nat → Nat) × List UInt8) := do
  let r ← writeDataIntoBlocks blocks directBlockCount sfile
  let r ← writeIndirect writeDataInto1IndirectBlocks oneIndirectBlockIndex r
  let r ← writeIndirect writeDataInto2IndirectBlocks twoIndirectBlockIndex r
  writeIndirect writeDataInto3IndirectBlocks threeIndirectBlockIndex r

theorem writeFile_eq (fuel : Nat) (sfile dst : List UInt8) : writeFile fuel sfile dst = (do
    let (ino, inode) ← createFileInode fuel dst
    if ino = 0 then return false
    else
      let sb ← getSuper
      if hasEnoughSpace sb sfile.length then
        let r ← writeData inode.iBlock sfile
        updateInode ino { inode with iSize := sfile.length % 2 ^ 64, iBlock := r.1 }
        updateSuperBlock
        return true
      else return false) := by
  simp only [writeFile, writeData, bind_assoc]

/-! ### The writer takes as many blocks -/

/-- The image is consistent, with `p.1` free blocks in the first group and `p.2` in all. -/
def Room (g : Geom) (s : State) (p : Nat × Nat) : Prop :=
  ∃ d, Rep g s d ∧ Counts g d ∧ d.free .block 0 = p.1 ∧ d.mem.sFreeBlocksCount = p.2

theorem Room.after {α : Type} {x : M α} {p : Nat × Nat} {Q : α → Nat × Nat → Prop}
    (h : ∀ d, Counts g d → d.free .block 0 = p.1 → d.mem.sFreeBlocksCount = p.2 → g.After t d x (fun a d' =>
      Counts g d' ∧ Q a (d'.free .block 0, d'.mem.sFreeBlocksCount))) : After t (Room g) p x Q := by
  rintro s ⟨d, hs, hc, h1, h2⟩
  refine ⟨fun a s' hr => ?_, (h d hc h1 h2 s hs).2⟩
  obtain ⟨d', hs', hc', hQ⟩ := (h d hc h1 h2 s hs).1 a s' hr
  exact ⟨_, ⟨d', hs', hc', rfl, rfl⟩, hQ⟩

theorem Counts.setData (h : Counts g d) (b : Nat) (f : Nat → UInt8) : Counts g (d.setData b f) :=
  ⟨h.mem, h.free, h.used⟩

theorem Room.after_updateBlockData {b : Nat} {p : Nat × Nat} {f : Nat → UInt8} (hb : g.IsData b) :
    After t (Room g) p (updateBlockData b f blockSize) (fun _ p' => p' = p) := by
  refine Room.after fun d hc h1 h2 => (Mkfs.after_updateBlockData hb (Nat.le_refl 1024)).mono fun _ d' hd => ?_
  subst hd
  exact ⟨hc.setData _ _, Prod.ext h1 h2⟩

/-- Taking a block. -/
theorem Room.after_takeBlock {α : Type} {p : Nat × Nat} {f : Nat → UInt8} {len : Nat} (hlen : len ≤ 1024)
    (ht : t → 0 < p.1) {k : Nat → M α} {Q : α → Nat × Nat → Prop}
    (hk : ∀ b p', g.IsData b → p'.1 + 1 = p.1 → p'.2 + 1 = p.2 → After t (Room g) p' (k b) Q) :
    After t (Room g) p (do
      let b ← allocBlock
      updateBlockData b f len
      updateBlockBitmap b
      decFreeBlocks
      k b) Q := by
  have htake : After t (Room g) p (do
      let b ← allocBlock
      updateBlockData b f len
      updateBlockBitmap b
      decFreeBlocks
      return b) (fun b p' => g.IsData b ∧ p'.1 + 1 = p.1 ∧ p'.2 + 1 = p.2) := by
    refine Room.after fun d hc h1 h2 => ?_
    refine (after_allocBlock hc fun h => h1 ▸ ht h).bind ?_
    rintro b d₁ ⟨hd, j, hj, hb, hbit⟩
    subst hd hb
    have hdata : g.IsData (1 + j) := by simpa using hc.isData g.groups_pos hj hbit
    refine (Mkfs.after_updateBlockData hdata hlen).bind fun _ d₂ hd₂ => ?_
    subst hd₂
    have hc₂ := hc.setData (1 + j) (put (d₁.data (1 + j)) 0 len f)
    refine After.bind₂ (after_markBlock hc₂ hj hbit) fun _ d₃ hd₃ => After.pure ?_
    subst hd₃
    have hfree : 0 < d₁.free .block 0 := hc.free_pos g.groups_pos hj hbit
    have hsum := Disk.mark_block_mem hc g.groups_pos hj hbit
    refine ⟨hc₂.mark hj hbit, hdata, ?_, ?_⟩
    · rw [← h1]
      exact mark_free (j := j) hfree
    · rw [← h2]
      exact Nat.sub_add_cancel hsum.1
  have h := htake.bind fun b p' ⟨hb, h1, h2⟩ => hk b p' hb h1 h2
  simpa only [bind_assoc, pure_bind] using h

/-- What a function that writes into one element of an array takes. -/
def CountSpec (g : Geom) (write : (Nat → Nat) → Nat → List UInt8 → M ((Nat → Nat) × List UInt8))
    (count : Nat → Nat × Nat) : Prop :=
  ∀ (t : Prop) p arr i rest, (t → (count rest.length).1 ≤ p.1) → After t (Room g) p (write arr i rest) (fun r p' =>
    r.2.length = (count rest.length).2 ∧ p'.1 + (count rest.length).1 = p.1 ∧ p'.2 + (count rest.length).1 = p.2)

theorem countSpec_data : CountSpec g writeDataBlock countDataBlock := by
  intro t p arr i rest ht
  have hlen : (rest.take blockSize).length ≤ 1024 := List.length_take_le _ _
  refine Room.after_takeBlock hlen ht fun b p' _ h1 h2 => After.pure ⟨?_, h1, h2⟩
  rw [List.length_drop, countDataBlock]

theorem CountSpec.after_fillBlocks {write : (Nat → Nat) → Nat → List UInt8 → M ((Nat → Nat) × List UInt8)}
    {count : Nat → Nat × Nat} (hw : CountSpec g write count) {l : List Nat} (hl : l.length = n) {p : Nat × Nat}
    {arr : Nat → Nat} {rest : List UInt8} (ht : t → (countFill count n rest.length).1 ≤ p.1) :
    After t (Room g) p (fillBlocks write l arr rest) (fun r p' => r.2.length = (countFill count n rest.length).2 ∧
      p'.1 + (countFill count n rest.length).1 = p.1 ∧ p'.2 + (countFill count n rest.length).1 = p.2) := by
  subst hl
  induction l generalizing p arr rest with
  | nil => exact After.pure ⟨rfl, rfl, rfl⟩
  | cons i l ih =>
    rw [List.length_cons, countFill] at ht ⊢
    rw [fillBlocks]
    simp only [List.length_eq_zero_iff] at ht ⊢
    split
    · exact After.pure ⟨rfl, rfl, rfl⟩
    · rename_i hne
      simp only [if_neg hne] at ht
      refine (hw t p arr i rest fun h => by have := ht h; omega).bind ?_
      rintro r p₁ ⟨hlen, h1, h2⟩
      rw [← hlen] at ht ⊢
      refine (ih fun h => by have := ht h; omega).mono ?_
      rintro r' p₂ ⟨hlen', h1', h2'⟩
      refine ⟨hlen', ?_, ?_⟩
      · dsimp only
        omega
      · dsimp only
        omega

theorem countSpec_indirect {write : (Nat → Nat) → Nat → List UInt8 → M ((Nat → Nat) × List UInt8)}
    {count : Nat → Nat × Nat} (hw : CountSpec g write count) :
    CountSpec g (writeDataIntoIndirectBlocks write) (countIndirect count) := by
  intro t p arr i rest ht
  have halloc : After t (Room g) p (allocIndirectBlock arr i) (fun r p' =>
      g.IsData (r i) ∧ p'.1 + 1 = p.1 ∧ p'.2 + 1 = p.2) := by
    refine Room.after_takeBlock (Nat.le_refl 1024) (fun h => ?_) fun b p' hb h1 h2 => After.pure ⟨?_, h1, h2⟩
    · have := ht h
      simp only [countIndirect] at this
      omega
    · rwa [Function.update_self]
  refine halloc.bind ?_
  rintro indirect p₁ ⟨hb, h1, h2⟩
  refine (hw.after_fillBlocks List.length_range fun h => ?_).bind ?_
  · have := ht h
    simp only [countIndirect] at this
    omega
  · rintro r p₂ ⟨hlen, h1', h2'⟩
    refine (Room.after_updateBlockData hb).bind fun _ p₃ hp => After.pure ⟨hlen, ?_, ?_⟩
    · subst hp
      simp only [countIndirect]
      omega
    · subst hp
      simp only [countIndirect]
      omega

theorem CountSpec.after_writeIndirect {write : (Nat → Nat) → Nat → List UInt8 → M ((Nat → Nat) × List UInt8)}
    {count : Nat → Nat × Nat} (hw : CountSpec g write count) {p₀ p : Nat × Nat} {c : Nat × Nat}
    {r : (Nat → Nat) × List UInt8} (hr : r.2.length = c.2 ∧ p.1 + c.1 = p₀.1 ∧ p.2 + c.1 = p₀.2)
    (ht : t → (countNext count c).1 ≤ p₀.1) :
    After t (Room g) p (writeIndirect write i r) (fun r' p' => r'.2.length = (countNext count c).2 ∧
      p'.1 + (countNext count c).1 = p₀.1 ∧ p'.2 + (countNext count c).1 = p₀.2) := by
  obtain ⟨hlen, h1, h2⟩ := hr
  rw [writeIndirect, countNext] at *
  simp only [← hlen, List.length_eq_zero_iff] at ht ⊢
  split
  · exact After.pure ⟨hlen, h1, h2⟩
  · rename_i hne
    simp only [if_neg hne] at ht
    refine (hw t p r.1 i r.2 fun h => by have := ht h; omega).mono ?_
    rintro r' p' ⟨hlen', h1', h2'⟩
    refine ⟨hlen', ?_, ?_⟩
    · dsimp only
      omega
    · dsimp only
      omega

/-- The data of a file takes `allocated` blocks, and is written if the first group has them. -/
theorem after_writeData {p : Nat × Nat} {arr : Nat → Nat} {bytes : List UInt8} (ht : t → allocated bytes.length ≤ p.1) :
    After t (Room g) p (writeData arr bytes) (fun _ p' =>
      p'.1 + allocated bytes.length = p.1 ∧ p'.2 + allocated bytes.length = p.2) := by
  have hw1 : CountSpec g writeDataInto1IndirectBlocks count1Indirect := countSpec_indirect countSpec_data
  have hw2 : CountSpec g writeDataInto2IndirectBlocks count2Indirect := countSpec_indirect hw1
  have hw3 : CountSpec g writeDataInto3IndirectBlocks count3Indirect := countSpec_indirect hw2
  have hmono : ∀ (w : Nat → Nat × Nat) (c : Nat × Nat), c.1 ≤ (countNext w c).1 := by
    intro w c
    rw [countNext]
    split
    · exact Nat.le_refl _
    · exact Nat.le_add_right _ _
  have h3 := hmono count3Indirect (countNext count2Indirect (countNext count1Indirect
    (countFill countDataBlock directBlockCount bytes.length)))
  have h2 := hmono count2Indirect (countNext count1Indirect (countFill countDataBlock directBlockCount bytes.length))
  have h1 := hmono count1Indirect (countFill countDataBlock directBlockCount bytes.length)
  rw [allocated] at ht ⊢
  refine (countSpec_data.after_fillBlocks List.length_range fun h => by have := ht h; omega).bind fun r₀ p₀ hr₀ => ?_
  refine (hw1.after_writeIndirect hr₀ fun h => by have := ht h; omega).bind fun r₁ p₁ hr₁ => ?_
  refine (hw2.after_writeIndirect hr₁ fun h => by have := ht h; omega).bind fun r₂ p₂ hr₂ => ?_
  exact (hw3.after_writeIndirect hr₂ ht).mono fun r₃ p₃ hr₃ => hr₃.2

/-! ### The number of blocks in closed form -/

theorem blocksOf_eq : blocksOf size = (size + 1023) / 1024 := by
  rw [blocksOf, blockSize]
  split <;> omega

/-- The blocks of trees of height `l` over `n` data blocks: the data blocks and, for each level, one block for
each 256 blocks below. -/
def treeBlocks : Nat → Nat → Nat
  | 0, n => n
  | l + 1, n => treeBlocks l n + (n + 256 ^ (l + 1) - 1) / 256 ^ (l + 1)

theorem countFill_eq {write : Nat → Nat × Nat} {f : Nat → Nat} {c : Nat} (h0 : f 0 = 0)
    (hadd : ∀ x, f (c + x) = f c + f x)
    (hw : ∀ rest, 0 < rest → write rest = (f (min (blocksOf rest) c), rest - 1024 * c)) :
    countFill write n rest = (f (min (blocksOf rest) (n * c)), rest - 1024 * (n * c)) := by
  induction n generalizing rest with
  | zero => rw [countFill, Nat.zero_mul, Nat.min_zero, h0, Nat.mul_zero, Nat.sub_zero]
  | succ n ih =>
    rw [countFill, Nat.succ_mul]
    split
    · rename_i hr
      subst hr
      rw [show blocksOf 0 = 0 from rfl, Nat.zero_min, h0, Nat.zero_sub]
    · rename_i hr
      have hsub : blocksOf (rest - 1024 * c) = blocksOf rest - c := by
        rw [blocksOf_eq, blocksOf_eq]
        omega
      rw [hw rest (by omega), ih, hsub]
      refine Prod.ext ?_ (by dsimp only; omega)
      rcases Nat.le_total (blocksOf rest) c with hle | hle
      · -- the bytes end in this round
        rw [Nat.min_eq_left hle, Nat.sub_eq_zero_of_le hle, Nat.zero_min, h0, Nat.min_eq_left (by omega), Nat.add_zero]
      · rw [Nat.min_eq_right hle]
        dsimp only
        rw [← hadd]
        congr 1
        omega

theorem countIndirect_eq {write : Nat → Nat × Nat} {l c : Nat} (hc : c = 256 ^ l) (h0 : treeBlocks l 0 = 0)
    (hadd : ∀ x, treeBlocks l (c + x) = treeBlocks l c + treeBlocks l x)
    (hw : ∀ rest, 0 < rest → write rest = (treeBlocks l (min (blocksOf rest) c), rest - 1024 * c)) (hr : 0 < rest) :
    countIndirect write rest = (treeBlocks (l + 1) (min (blocksOf rest) (256 * c)), rest - 1024 * (256 * c)) := by
  have hpos : 0 < blocksOf rest := blocksOf_pos hr
  have hcpos : 0 < c := by rw [hc]; exact Nat.pow_pos (by omega)
  have hone : (min (blocksOf rest) (256 * c) + 256 ^ (l + 1) - 1) / 256 ^ (l + 1) = 1 := by
    rw [Nat.pow_succ, ← hc, Nat.mul_comm c]
    exact Nat.div_eq_of_lt_le (by omega) (by omega)
  rw [countIndirect, countFill_eq h0 hadd hw, treeBlocks, hone]
  refine Prod.ext ?_ rfl
  exact Nat.add_comm _ _

theorem count1Indirect_eq (hr : 0 < rest) :
    count1Indirect rest = (treeBlocks 1 (min (blocksOf rest) 256), rest - 1024 * 256) := by
  refine countIndirect_eq (l := 0) (c := 1) rfl rfl (fun _ => rfl) (fun rest hr => ?_) hr
  have hpos : 0 < blocksOf rest := blocksOf_pos hr
  rw [countDataBlock, treeBlocks, Nat.min_eq_right hpos]
  rfl

theorem count2Indirect_eq (hr : 0 < rest) :
    count2Indirect rest = (treeBlocks 2 (min (blocksOf rest) 65536), rest - 1024 * 65536) :=
  countIndirect_eq (l := 1) (c := 256) rfl rfl (fun x => by simp only [treeBlocks]; omega)
    (fun _ hr => count1Indirect_eq hr) hr

theorem count3Indirect_eq (hr : 0 < rest) :
    count3Indirect rest = (treeBlocks 3 (min (blocksOf rest) 16777216), rest - 1024 * 16777216) :=
  countIndirect_eq (l := 2) (c := 65536) rfl rfl (fun x => by simp only [treeBlocks]; omega)
    (fun _ hr => count2Indirect_eq hr) hr

theorem countNext_eq {count : Nat → Nat × Nat} {f : Nat → Nat} {c k : Nat} (h0 : f 0 = 0)
    (hc : ∀ rest, 0 < rest → count rest = (f (min (blocksOf rest) c), rest - 1024 * c)) :
    countNext count (n, size - 1024 * k) = (n + f (min (blocksOf size - k) c), size - 1024 * (k + c)) := by
  have hsub : blocksOf (size - 1024 * k) = blocksOf size - k := by
    rw [blocksOf_eq, blocksOf_eq]
    omega
  rw [countNext]
  split
  · rename_i hz
    have hz : size - 1024 * k = 0 := hz
    rw [← hsub, hz, show blocksOf 0 = 0 from rfl, Nat.zero_min, h0, Nat.add_zero]
    exact Prod.ext rfl (by dsimp only; omega)
  · rename_i hz
    have hz : size - 1024 * k ≠ 0 := hz
    rw [hc _ (by dsimp only; omega), hsub]
    exact Prod.ext rfl (by dsimp only; omega)

theorem allocated_eq : allocated size = min (blocksOf size) 21 + treeBlocks 1 (min (blocksOf size - 21) 256) +
    treeBlocks 2 (min (blocksOf size - 277) 65536) + treeBlocks 3 (min (blocksOf size - 65813) 16777216) := by
  have hdirect : countFill countDataBlock directBlockCount size = (min (blocksOf size) 21, size - 1024 * 21) := by
    refine countFill_eq (f := id) (c := 1) rfl (fun _ => rfl) fun rest hr => ?_
    rw [countDataBlock, Nat.min_eq_right (blocksOf_pos hr)]
    rfl
  rw [allocated, hdirect, countNext_eq (f := treeBlocks 1) rfl fun _ hr => count1Indirect_eq hr,
    countNext_eq (f := treeBlocks 2) rfl fun _ hr => count2Indirect_eq hr,
    countNext_eq (f := treeBlocks 3) rfl fun _ hr => count3Indirect_eq hr]

/-- The blocks of a file with `n` blocks of data; more than 16843029 the pointers of an inode do not reach. -/
def fileBlocks (n : Nat) : Nat :=
  if n ≤ 21 then n
  else if n ≤ 277 then n + 1
  else if n ≤ 65813 then n + 2 + (n - 277 + 255) / 256
  else if n ≤ 16843029 then n + 259 + (n - 65813 + 255) / 256 + (n - 65813 + 65535) / 65536
  else 16909080

theorem allocated_eq_fileBlocks : allocated size = fileBlocks (blocksOf size) := by
  rw [allocated_eq, fileBlocks]
  generalize blocksOf size = n
  split
  · rw [Nat.min_eq_left (by omega), Nat.sub_eq_zero_of_le (by omega), Nat.sub_eq_zero_of_le (by omega),
      Nat.sub_eq_zero_of_le (by omega)]
    rfl
  split
  · rw [Nat.min_eq_right (by omega), Nat.min_eq_left (by omega), Nat.sub_eq_zero_of_le (show n ≤ 277 by omega),
      Nat.sub_eq_zero_of_le (show n ≤ 65813 by omega)]
    simp only [treeBlocks, Nat.zero_min]
    omega
  rw [Nat.min_eq_right (show 21 ≤ n by omega), Nat.min_eq_right (show 256 ≤ n - 21 by omega)]
  split
  · rw [Nat.min_eq_left (by omega), Nat.sub_eq_zero_of_le (show n ≤ 65813 by omega)]
    simp only [treeBlocks, Nat.zero_min]
    omega
  rw [Nat.min_eq_right (show 65536 ≤ n - 277 by omega)]
  split
  · rw [Nat.min_eq_left (by omega)]
    simp only [treeBlocks]
    omega
  · rw [Nat.min_eq_right (by omega)]
    rfl

/-! ### What the check counts -/

/-- What `has_enough_space` compares with the free count, for `n` blocks of data. -/
theorem hasEnoughSpace_eq (sb : SuperBlock) : hasEnoughSpace sb size =
    decide (u32 (blocksOf size % 2 ^ 32 + if blocksOf size % 2 ^ 32 = 0 ∨ blocksOf size % 2 ^ 32 = 21 then 0 else 3) ≤
      sb.sFreeBlocksCount) := by
  have hblocks : u32 (u32 (size / blockSize) + if size % blockSize ≠ 0 then 1 else 0) = blocksOf size % 2 ^ 32 := by
    simp only [u32, blocksOf]
    omega
  have hzero : blockSize % 4 = 0 := rfl
  rw [hasEnoughSpace, hblocks, hzero]
  generalize blocksOf size % 2 ^ 32 = n
  have hless : ∀ m, lessIndirect 0 m = m := fun m => rfl
  have hrest : (if directBlockCount ≤ n then n - directBlockCount else n) = 0 ↔ n = 0 ∨ n = 21 := by
    rw [directBlockCount]
    split <;> omega
  simp only [countLoop, hless, ← hrest]
  generalize (if directBlockCount ≤ n then n - directBlockCount else n) = rest
  rcases Nat.eq_zero_or_pos rest with rfl | hpos
  · rfl
  · simp only [if_pos hpos, if_neg hpos.ne']

/-- The sizes, in blocks of data, and the free counts for which the check is wrong: a file of 1 to 20 blocks is
counted with 3 blocks too many, one of 22 to 277 with 2, and one of more than 533 with too few; a file that is
larger than an inode can hold is not written whole. -/
def Misjudged (n free : Nat) : Prop :=
  if n = 0 ∨ n = 21 then False
  else if n ≤ 20 then n ≤ free ∧ free < n + 3
  else if n ≤ 277 then n + 1 ≤ free ∧ free < n + 3
  else if n ≤ 533 then False
  else if n ≤ 16843029 then n + 3 ≤ free ∧ free < fileBlocks n
  else if n % 2 ^ 32 = 0 ∨ n % 2 ^ 32 = 21 then n % 2 ^ 32 ≤ free ∧ free < 16909080
  else (n + 3) % 2 ^ 32 ≤ free ∧ free < 16909080 ∨ 16909080 ≤ free ∧ free < (n + 3) % 2 ^ 32

/-- The check agrees with what the writer takes. -/
def SpaceExact (sb : SuperBlock) (size : Nat) : Prop :=
  hasEnoughSpace sb size = true ↔ allocated size ≤ sb.sFreeBlocksCount

/-- For a size that the pointers of an inode reach, the check takes 3 or no indirect blocks for granted. -/
theorem required_eq (h : n ≤ 16843029) : u32 (n % 2 ^ 32 + if n % 2 ^ 32 = 0 ∨ n % 2 ^ 32 = 21 then 0 else 3) =
    n + if n = 0 ∨ n = 21 then 0 else 3 := by
  rw [Nat.mod_eq_of_lt (show n < 2 ^ 32 by omega), u32_of_lt]
  split <;> omega

theorem misjudged_iff_of_lt (h : 16843029 < n) :
    (u32 (n % 2 ^ 32 + if n % 2 ^ 32 = 0 ∨ n % 2 ^ 32 = 21 then 0 else 3) ≤ free ↔ fileBlocks n ≤ free) ↔
      ¬ Misjudged n free := by
  have hblocks : fileBlocks n = 16909080 := by
    rw [fileBlocks, if_neg (by omega), if_neg (by omega), if_neg (by omega), if_neg (by omega)]
  have hmis : Misjudged n free = if n % 2 ^ 32 = 0 ∨ n % 2 ^ 32 = 21 then n % 2 ^ 32 ≤ free ∧ free < 16909080
      else (n + 3) % 2 ^ 32 ≤ free ∧ free < 16909080 ∨ 16909080 ≤ free ∧ free < (n + 3) % 2 ^ 32 := by
    rw [Misjudged, if_neg (by omega), if_neg (by omega), if_neg (by omega), if_neg (by omega), if_neg (by omega)]
  rw [hblocks, hmis]
  split
  · rw [Nat.add_zero, u32_of_lt (Nat.mod_lt _ (by decide))]
    omega
  · rw [u32, Nat.mod_add_mod]
    omega

theorem misjudged_iff_of_le (h : n ≤ 16843029) :
    (n + (if n = 0 ∨ n = 21 then 0 else 3) ≤ free ↔ fileBlocks n ≤ free) ↔ ¬ Misjudged n free := by
  rcases Decidable.em (n = 0 ∨ n = 21) with h21 | h21
  · rw [Misjudged, if_pos h21, if_pos h21, fileBlocks, if_pos (by omega)]
    simp
  rw [Misjudged, if_neg h21, if_neg h21]
  split
  · rw [fileBlocks, if_pos (by omega)]
    omega
  split
  · rw [fileBlocks, if_neg (by omega), if_pos (by assumption)]
    omega
  split
  · have hblocks : fileBlocks n = n + 3 := by
      rw [fileBlocks, if_neg (by omega), if_neg (by omega), if_pos (by omega)]
      omega
    rw [hblocks]
    simp
  · have hblocks : n + 3 < fileBlocks n := by
      rw [fileBlocks, if_neg (by omega), if_neg (by omega), if_pos h]
      split <;> omega
    omega

theorem spaceExact_iff (sb : SuperBlock) : SpaceExact sb size ↔ ¬ Misjudged (blocksOf size) sb.sFreeBlocksCount := by
  rw [SpaceExact, hasEnoughSpace_eq, decide_eq_true_eq, allocated_eq_fileBlocks]
  rcases Nat.lt_or_ge 16843029 (blocksOf size) with h | h
  · exact misjudged_iff_of_lt h
  · rw [required_eq h]
    exact misjudged_iff_of_le h

/-! ### The check on an image -/

theorem Consistent.room (h : Consistent g s) : Room g s ((s.disk g).free .block 0, s.superBlock.sFreeBlocksCount) :=
  ⟨s.disk g, h.rep, h.counts, rfl, rfl⟩

/-- The data of a file is written iff the first group has the blocks. -/
theorem Consistent.writeData_iff (h : Consistent g s) (arr : Nat → Nat) (bytes : List UInt8) :
    (∃ r, (writeData arr bytes).run s = .ok r) ↔ allocated bytes.length ≤ (s.disk g).free .block 0 := by
  constructor
  · rintro ⟨⟨r, s'⟩, hr⟩
    obtain ⟨p', -, hp, -⟩ := (after_writeData False.elim s h.room).1 r s' hr
    exact Nat.le.intro ((Nat.add_comm _ _).trans hp)
  · intro hle
    exact (after_writeData (fun _ : True => hle) s h.room).2 trivial

/-- Exactly when the check is right, and when, on a consistent image, a file that it accepts is also written. -/
theorem spaceCheck_iff (h : Consistent g s) :
    (∀ sb size, SpaceExact sb size ↔ ¬ Misjudged (blocksOf size) sb.sFreeBlocksCount) ∧
    ∀ arr bytes, (SpaceExact s.superBlock bytes.length ∧
        (hasEnoughSpace s.superBlock bytes.length = true → ∃ r, (writeData arr bytes).run s = .ok r) ↔
      ¬ Misjudged (blocksOf bytes.length) s.superBlock.sFreeBlocksCount ∧
        (fileBlocks (blocksOf bytes.length) ≤ s.superBlock.sFreeBlocksCount →
          fileBlocks (blocksOf bytes.length) ≤ (s.disk g).free .block 0)) := by
  refine ⟨fun sb size => spaceExact_iff sb, fun arr bytes => ?_⟩
  rw [h.writeData_iff, ← allocated_eq_fileBlocks, ← spaceExact_iff]
  exact and_congr_right fun hexact => imp_congr_left hexact

/-- A file of one byte on a new image. -/
theorem spaceCheck_oneByte : ∃ s, Consistent oneGroup s ∧ SpaceExact s.superBlock 1 ∧
    (hasEnoughSpace s.superBlock 1 = true → ∃ r, (writeData (fun _ => 0) [0]).run s = .ok r) := by
  obtain ⟨s, d, -, hs, ⟨j, f, hroot⟩, hsb⟩ := mkfs_ok oneGroup
  have hcons := hs.consistent (hroot.image hsb)
  have hgroup : (s.disk oneGroup).free .block 0 = 12 := by
    rw [hs.disk_free .block oneGroup.groups_pos, hroot.free_block]
    decide
  have hfree : s.superBlock.sFreeBlocksCount = 12 := by
    have hsum : freeCount (s.disk oneGroup).mem .block = 12 := by
      rw [hcons.counts.freeCount_eq, show oneGroup.groups = 1 by decide, sum_range_one, hgroup]
    exact hsum
  refine ⟨s, hcons, ((spaceCheck_iff hcons).2 (fun _ => 0) [0]).2 ?_⟩
  rw [hfree, hgroup]
  refine ⟨?_, id⟩
  rw [show blocksOf [(0 : UInt8)].length = 1 from rfl, Misjudged]
  decide

/-- A file of one byte is refused although it fits, one of 534 blocks is accepted although it does not. -/
theorem not_spaceExact : ¬ SpaceExact ⟨0, 0, 0, 1, 0⟩ 1 ∧ ¬ SpaceExact ⟨0, 0, 0, 537, 0⟩ (534 * 1024) := by
  rw [spaceExact_iff, spaceExact_iff, show blocksOf 1 = 1 from rfl, show blocksOf (534 * 1024) = 534 by decide]
  simp only [Misjudged, fileBlocks]
  decide

end Airix.Mkfs
