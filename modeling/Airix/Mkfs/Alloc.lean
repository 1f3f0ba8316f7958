import Airix.Mkfs.Prims
import Mathlib.Algebra.Order.BigOperators.Group.Finset

/-!
# Allocation

`Counts` ties the counters of the descriptors and of the super block in memory to the bitmaps. While it
holds, an allocation that returns gives a unit of the first group whose bit is clear, and taking such a
unit keeps it.
-/

namespace Airix.Mkfs
open Axfs Bytes Exec Finset

variable {t : Prop} {g : Geom} {d : Disk} {k j b ino : Nat} {f : Nat → UInt8} {K : Kind}

/-! ### The search for a clear bit -/

theorem bitAt_add {i : Nat} (hj : j < 8) : bitAt f (j + i * 8) = (f i).toNat.testBit (7 - j) := by
  have h1 : (j + i * 8) / 8 = i := by omega
  have h2 : (j + i * 8) % 8 = j := by omega
  rw [bitAt, h1, h2]

/-- The search finds the first clear bit. -/
theorem findClear_some (h : findClear f = some j) : bitAt f j = false ∧ ∀ i < j, bitAt f i = true := by
  obtain ⟨l₁, i, l₂, hl, hi, hpre⟩ := List.findSome?_eq_some_iff.1 h
  have hlen : i = l₁.length ∧ l₁ = List.range i := by
    have h1 := congrArg (·[l₁.length]?) hl
    simp only [List.getElem?_append_right (Nat.le_refl _), Nat.sub_self, List.getElem?_cons_zero] at h1
    obtain ⟨hlt, h1⟩ := List.getElem?_eq_some_iff.1 h1
    rw [List.getElem_range] at h1
    refine ⟨h1.symm, ?_⟩
    have h2 := congrArg (List.take l₁.length) hl
    rw [List.take_left, List.take_range, Nat.min_eq_left (by simpa using hlt.le)] at h2
    rw [← h1, h2]
  split at hi
  · obtain ⟨b, hb, rfl⟩ := Option.map_eq_some_iff.1 hi
    obtain ⟨hp, hm, hmin⟩ := List.find?_range_eq_some.1 hb
    have hb8 := List.mem_range.1 hm
    refine ⟨by rw [bitAt_add hb8]; simpa using hp, fun i' hi' => ?_⟩
    have hsplit : i' = i' % 8 + i' / 8 * 8 := by omega
    rw [hsplit, bitAt_add (by omega)]
    rcases Nat.lt_or_ge (i' / 8) i with hlt | hge
    · -- a byte that was passed over has no clear bit
      have hnone := hpre (i' / 8) (by rw [hlen.2]; exact List.mem_range.2 hlt)
      split at hnone
      · rw [Option.map_eq_none_iff, List.find?_eq_none] at hnone
        simpa using hnone (i' % 8) (List.mem_range.2 (by omega))
      · rename_i hff
        rw [not_not.1 hff]
        have hall : ∀ r < 8, (0xFF : UInt8).toNat.testBit (7 - r) = true := by decide
        exact hall _ (by omega)
    · have he : i' / 8 = i := by omega
      rw [he]
      simpa using hmin (i' % 8) (by omega)
  · cases hi

/-- The search fails only on a bitmap that is full. -/
theorem findClear_isSome (hj : j < 8192) (hbit : bitAt f j = false) : ∃ i, findClear f = some i := by
  cases h : findClear f with
  | some i => exact ⟨i, rfl⟩
  | none =>
    have hnone := List.findSome?_eq_none_iff.1 h (j / 8) (List.mem_range.2 (by rw [blockSize]; omega))
    have hsplit : j = j % 8 + j / 8 * 8 := by omega
    rw [hsplit, bitAt_add (by omega)] at hbit
    split at hnone
    · rw [Option.map_eq_none_iff, List.find?_eq_none] at hnone
      exact absurd hbit (by simpa using hnone (j % 8) (List.mem_range.2 (by omega)))
    · rename_i hff
      rw [not_not.1 hff] at hbit
      have hall : ∀ r < 8, (0xFF : UInt8).toNat.testBit (7 - r) = true := by decide
      rw [hall _ (by omega)] at hbit
      cases hbit

/-! ### The counters -/

structure Counts (g : Geom) (d : Disk) : Prop where
  mem : d.mem = ⟨g.inodes, g.blocks, ∑ k ∈ range g.groups, d.free .inode k, ∑ k ∈ range g.groups, d.free .block k, g.ipg⟩
  free : ∀ K, ∀ k < g.groups, d.free K k = #{j ∈ range (g.units K k) | d.bit K k j = false}
  used : ∀ k < g.groups, ∀ j < g.used k, d.bit .block k j = true

/-- Unit `j` of group `k` taken, with all counters. -/
def Disk.markAt (d : Disk) (K : Kind) (k j : Nat) : Disk := (d.take K k j).decMem K

/-- Unit `j` of the first group taken, with all counters. -/
def Disk.mark (d : Disk) (K : Kind) (j : Nat) : Disk := (d.take K 0 j).decMem K

@[simp] theorem Disk.mark_data : (d.mark K j).data = d.data := by cases K <;> rfl

@[simp] theorem Disk.mark_inode : (d.mark K j).inode = d.inode := by cases K <;> rfl

@[simp] theorem Disk.mark_sb : (d.mark K j).sb = d.sb := by cases K <;> rfl

theorem Disk.mark_bit {K' : Kind} {k' j' : Nat} :
    (d.mark K j).bit K' k' j' = (d.bit K' k' j' || decide (K' = K ∧ k' = 0 ∧ j' = j)) := by cases K <;> rfl

theorem Disk.take_bit {K' : Kind} {k' j' : Nat} :
    (d.take K k j).bit K' k' j' = (d.bit K' k' j' || decide (K' = K ∧ k' = k ∧ j' = j)) := rfl

namespace Counts
variable (h : Counts g d)
include h

theorem ipg_eq : d.mem.sInodesPerGroup = g.ipg := by rw [h.mem]

theorem free_le (hk : k < g.groups) : d.free K k ≤ 8192 := by
  rw [h.free K k hk]
  exact (card_filter_le _ _).trans (by rw [card_range]; exact g.units_le K)

theorem free_lt (hk : k < g.groups) : d.free K k < 2 ^ 16 := (h.free_le hk).trans_lt (by omega)

theorem free_pos (hk : k < g.groups) (hj : j < g.units K k) (hbit : d.bit K k j = false) : 0 < d.free K k := by
  rw [h.free K k hk]
  exact card_pos.2 ⟨j, mem_filter.2 ⟨mem_range.2 hj, hbit⟩⟩

theorem sum_lt : ∑ k ∈ range g.groups, d.free K k < 2 ^ 32 := by
  have h1 : ∑ k ∈ range g.groups, d.free K k ≤ ∑ k ∈ range g.groups, 8192 :=
    sum_le_sum fun k hk => h.free_le (mem_range.1 hk)
  rw [sum_const, card_range, Nat.nsmul_eq_mul] at h1
  have h2 : 8192 * g.groups ≤ g.blocks + 8192 := by
    simp only [Geom.groups, groupsOf, ne_eq, ite_not]
    split <;> omega
  have h3 := g.blocks_lt
  omega

theorem valid : d.mem.Valid := by
  have h3 := g.blocks_lt
  have h4 := g.ipg_le
  rw [h.mem]
  refine ⟨g.inodes_lt, ?_, h.sum_lt, h.sum_lt, ?_⟩ <;> simp only <;> omega

/-- The super block's count in memory. -/
theorem sum_pos (hk : k < g.groups) (hj : j < g.units K k) (hbit : d.bit K k j = false) :
    0 < ∑ k ∈ range g.groups, d.free K k :=
  (h.free_pos hk hj hbit).trans_le (single_le_sum (f := d.free K) (fun _ _ => Nat.zero_le _) (mem_range.2 hk))

/-- A clear bit of the block bitmap stands for a data block. -/
theorem isData (hk : k < g.groups) (hj : j < g.units .block k) (hbit : d.bit .block k j = false) :
    g.IsData (1 + 8192 * k + j) := by
  refine ⟨k, hk, ?_, ?_⟩
  · by_contra hlt
    rw [h.used k hk j (by omega)] at hbit
    cases hbit
  · have : j < g.groupBlocks k := hj
    omega

theorem take_free (hk : k < g.groups) (hj : j < g.units K k) (hbit : d.bit K k j = false) (K' : Kind) (k' : Nat)
    (hk' : k' < g.groups) : (d.take K k j).free K' k' =
      #{j' ∈ range (g.units K' k') | (d.take K k j).bit K' k' j' = false} := by
  rcases Decidable.em (K' = K ∧ k' = k) with ⟨rfl, rfl⟩ | hne
  · have hset : ({j' ∈ range (g.units K' k') | (d.take K' k' j).bit K' k' j' = false} : Finset Nat) =
        {j' ∈ range (g.units K' k') | d.bit K' k' j' = false}.erase j := by
      ext j'
      rw [mem_filter, mem_erase, mem_filter, Disk.take_bit]
      simp only [true_and, Bool.or_eq_false_iff, decide_eq_false_iff_not]
      tauto
    rw [hset, card_erase_of_mem (mem_filter.2 ⟨mem_range.2 hj, hbit⟩), ← h.free K' k' hk']
    exact if_pos ⟨rfl, rfl⟩
  · have hset : ({j' ∈ range (g.units K' k') | (d.take K k j).bit K' k' j' = false} : Finset Nat) =
        {j' ∈ range (g.units K' k') | d.bit K' k' j' = false} := by
      ext j'
      have hf : ¬ (K' = K ∧ k' = k ∧ j' = j) := fun ⟨h1, h2, _⟩ => hne ⟨h1, h2⟩
      rw [mem_filter, mem_filter, Disk.take_bit, decide_eq_false hf, Bool.or_false]
    rw [hset, ← h.free K' k' hk']
    exact if_neg hne

theorem take_sum (hk : k < g.groups) (hj : j < g.units K k) (hbit : d.bit K k j = false) (K' : Kind) :
    ∑ k' ∈ range g.groups, (d.take K k j).free K' k' =
      (∑ k' ∈ range g.groups, d.free K' k') - if K' = K then 1 else 0 := by
  simp only [Disk.take]
  split
  · rename_i he
    subst he
    have hpos := h.free_pos hk hj hbit
    rw [← add_sum_erase _ _ (mem_range.2 hk), ← add_sum_erase _ (d.free K') (mem_range.2 hk)]
    have hrest : ∑ x ∈ (range g.groups).erase k, (if K' = K' ∧ x = k then d.free K' x - 1 else d.free K' x) =
        ∑ x ∈ (range g.groups).erase k, d.free K' x :=
      sum_congr rfl fun x hx => if_neg fun hx' => (mem_erase.1 hx).1 hx'.2
    rw [hrest, if_pos ⟨rfl, rfl⟩]
    omega
  · rename_i hne
    exact sum_congr rfl fun x _ => if_neg fun hx => hne hx.1

/-- Taking a unit of any group that is free keeps the counters. -/
theorem markAt (hk : k < g.groups) (hj : j < g.units K k) (hbit : d.bit K k j = false) : Counts g (d.markAt K k j) := by
  have hsum := h.take_sum hk hj hbit
  have hfree := h.take_free hk hj hbit
  have hused : ∀ k' < g.groups, ∀ j' < g.used k', (d.take K k j).bit .block k' j' = true := by
    intro k' hk' j' hj'
    simp only [Disk.take, h.used k' hk' j' hj', Bool.true_or]
  cases K with
  | block =>
    refine ⟨?_, hfree, hused⟩
    have h1 := hsum .inode
    have h2 := hsum .block
    simp only [reduceCtorEq, if_false, if_true, Nat.sub_zero] at h1 h2
    simp only [Disk.markAt, Disk.decMem, h1, h2]
    rw [show (d.take .block k j).mem = d.mem from rfl, h.mem]
  | inode =>
    refine ⟨?_, hfree, hused⟩
    have h1 := hsum .inode
    have h2 := hsum .block
    simp only [reduceCtorEq, if_false, if_true, Nat.sub_zero] at h1 h2
    simp only [Disk.markAt, Disk.decMem, h1, h2]
    rw [show (d.take .inode k j).mem = d.mem from rfl, h.mem]

/-- Taking a unit of the first group that is free keeps the counters. -/
theorem mark (hj : j < g.units K 0) (hbit : d.bit K 0 j = false) : Counts g (d.mark K j) := h.markAt g.groups_pos hj hbit

end Counts

/-! ### Allocating -/

theorem bgNum_eq_one {count per : Nat} (h : 0 < count) : bgNum count per = 1 := by
  refine if_pos fun h0 => ?_
  have hdm := Nat.div_add_mod count per
  rw [(Nat.add_eq_zero_iff.1 h0).1, (Nat.add_eq_zero_iff.1 h0).2] at hdm
  omega

/-- The search finds a unit of the group. -/
theorem Counts.findClear_unit {s : State} (h : Counts g d) (hs : Rep g s d) (hk : k < g.groups)
    (hpos : 0 < d.free K k) (hfind : findClear (s.window (1024 * g.bitmap K k)) = some j) :
    j < g.units K k ∧ d.bit K k j = false := by
  obtain ⟨hbit, hmin⟩ := findClear_some hfind
  rw [h.free K k hk] at hpos
  obtain ⟨i, hi⟩ := card_pos.1 hpos
  rw [mem_filter, mem_range] at hi
  have hi8 := hi.1.trans_le (g.units_le K)
  have hle : j ≤ i := by
    by_contra hlt
    have htrue := hmin i (by omega)
    rw [hs.bit K k hk i hi8, hi.2] at htrue
    cases htrue
  refine ⟨by omega, ?_⟩
  rw [← hs.bit K k hk j (by omega)]
  exact hbit

/-- With a positive counter the search finds a unit. -/
theorem Counts.findClear_isSome {s : State} (h : Counts g d) (hs : Rep g s d) (hk : k < g.groups)
    (hpos : 0 < d.free K k) : ∃ j, findClear (s.window (1024 * g.bitmap K k)) = some j := by
  rw [h.free K k hk] at hpos
  obtain ⟨i, hi⟩ := card_pos.1 hpos
  rw [mem_filter, mem_range] at hi
  have hi8 := hi.1.trans_le (g.units_le K)
  exact Mkfs.findClear_isSome hi8 ((hs.bit K k hk i hi8).trans hi.2)

theorem after_allocLoop {alloc : Nat → M Nat} {accept : Nat → Bool} {Q : Nat → Disk → Prop}
    (h : g.After t d (alloc 0) (fun n d' => d' = d ∧ (accept n → Q n d) ∧ (t → accept n))) :
    g.After t d (allocLoop alloc accept (List.range 1)) Q := by
  refine h.bind ?_
  rintro n d' ⟨hd, hn, hacc⟩
  subst hd
  split
  · rename_i ha
    exact After.pure (hn ha)
  · rename_i ha
    exact After.throw fun ht => ha (hacc ht)

theorem after_allocInodeNo (hc : Counts g d) (ht : t → 0 < d.free .inode 0) :
    g.After t d allocInodeNo (fun ino d' => d' = d ∧ ∃ j < g.ipg, ino = j + 1 ∧ d.bit .inode 0 j = false) := by
  have h0 := g.groups_pos
  refine after_getSuper.bind ?_
  rintro sb d' ⟨hsb, hd⟩
  subst hsb hd
  have hipg := hc.ipg_eq
  have hcount : d'.mem.sInodesCount = g.inodes := by rw [hc.mem]
  have hone : bgNum d'.mem.sInodesCount d'.mem.sInodesPerGroup = 1 := by
    rw [hcount]
    exact bgNum_eq_one (Nat.mul_pos g.ipg_pos h0)
  rw [if_neg (by rw [hipg]; exact g.ipg_pos.ne'), hone]
  refine after_allocLoop ?_
  refine (after_getBlockGroupMetadata h0).bind ?_
  rintro desc d'' ⟨hdesc, hd⟩
  subst hdesc hd
  split
  · rename_i hpos
    have hbm : blockOffset (d''.desc g 0).bgInodeBitmap = 1024 * g.bitmap .inode 0 := by
      obtain ⟨_, _, _, _, _, _, _, _, _⟩ := g.layout h0
      exact blockOffset_of_lt (by simp only [Disk.desc]; omega)
    rw [hbm]
    refine after_fread.bind ?_
    rintro f d' ⟨hd, s, hs, hf⟩
    subst hd
    refine after_getSuper.bind ?_
    rintro sb d'' ⟨hsb, hd⟩
    subst hsb hd hf
    obtain ⟨j, hj⟩ := hc.findClear_isSome hs h0 hpos
    obtain ⟨hju, hbit⟩ := hc.findClear_unit hs h0 hpos hj
    have hle := g.ipg_le
    have hlt : j < g.ipg := hju
    rw [hj]
    dsimp only
    rw [Nat.zero_mul, Nat.add_zero, u32_of_lt (by omega)]
    exact After.pure ⟨rfl, fun _ => ⟨rfl, j, hju, rfl, hbit⟩, fun _ => by simp⟩
  · rename_i hpos
    exact After.pure ⟨rfl, fun h => by simp at h, fun h => absurd (ht h) hpos⟩

theorem after_allocBlock (hc : Counts g d) (ht : t → 0 < d.free .block 0) :
    g.After t d allocBlock (fun b d' => d' = d ∧ ∃ j < g.groupBlocks 0, b = 1 + j ∧ d.bit .block 0 j = false) := by
  have h0 := g.groups_pos
  refine after_getSuper.bind ?_
  rintro sb d' ⟨hsb, hd⟩
  subst hsb hd
  have hcount : d'.mem.sBlocksCount = g.blocks := by rw [hc.mem]
  rw [hcount, show bgNum g.blocks blocksPerGroup = 1 from bgNum_eq_one g.blocks_pos]
  refine after_allocLoop ?_
  refine (after_getBlockGroupMetadata h0).bind ?_
  rintro desc d'' ⟨hdesc, hd⟩
  subst hdesc hd
  split
  · rename_i hpos
    obtain ⟨_, _, hle, hblocks, _, _, _, _, hlt⟩ := g.layout h0
    have hbm : blockOffset (d''.desc g 0).bgBlockBitmap = 1024 * g.bitmap .block 0 :=
      blockOffset_of_lt (by simp only [Disk.desc]; omega)
    rw [hbm]
    refine after_fread.bind ?_
    rintro f d' ⟨hd, s, hs, hf⟩
    subst hd hf
    obtain ⟨j, hj⟩ := hc.findClear_isSome hs h0 hpos
    obtain ⟨hju, hbit⟩ := hc.findClear_unit hs h0 hpos hj
    have hju : j < g.groupBlocks 0 := hju
    rw [hj]
    dsimp only
    rw [Nat.zero_mul, Nat.add_zero, superBlockNo, u32_of_lt (by omega)]
    refine After.pure ⟨rfl, fun _ => ⟨rfl, j, hju, Nat.add_comm _ _, hbit⟩, fun _ => ?_⟩
    rw [u32_of_lt (by omega)]
    simp only [decide_eq_true_eq]
    omega
  · rename_i hpos
    exact After.pure ⟨rfl, fun h => by simp at h, fun h => absurd (ht h) hpos⟩

/-! ### Marking what was allocated -/

theorem Disk.mark_block_mem (hc : Counts g d) (hk : k < g.groups) (hj : j < g.groupBlocks k)
    (hbit : d.bit .block k j = false) : 0 < d.mem.sFreeBlocksCount ∧ d.mem.sFreeBlocksCount < 2 ^ 32 := by
  rw [hc.mem]
  exact ⟨hc.sum_pos hk hj hbit, hc.sum_lt⟩

/-- `update_block_bitmap` and the decrement of the super block's count. -/
theorem after_markBlockAt (hc : Counts g d) (hk : k < g.groups) (hj : j < g.groupBlocks k)
    (hbit : d.bit .block k j = false) : g.After t d (do updateBlockBitmap (1 + 8192 * k + j); decFreeBlocks)
      (fun _ d' => d' = d.markAt .block k j) := by
  have hlay := g.layout hk
  have hle := hlay.le
  have hblocks := hlay.blocks
  have hlt := g.blocks_lt
  refine (after_updateBlockBitmap hk (by omega : j < 8192) rfl (by omega) (fun K => hc.free_lt hk)
    (hc.free_pos hk hj hbit)).bind fun _ d' hd => ?_
  subst hd
  obtain ⟨hpos, hlt⟩ := Disk.mark_block_mem hc hk hj hbit
  exact after_decFreeBlocks hpos hlt

theorem after_markBlock (hc : Counts g d) (hj : j < g.groupBlocks 0) (hbit : d.bit .block 0 j = false) :
    g.After t d (do updateBlockBitmap (1 + j); decFreeBlocks) (fun _ d' => d' = d.mark .block j) := by
  have h := after_markBlockAt (t := t) hc g.groups_pos hj hbit
  rwa [Nat.mul_zero, Nat.add_zero] at h

/-- `write_inode` and the decrement of the super block's count. -/
theorem after_markInode (hc : Counts g d) (hj : j < g.ipg) (hbit : d.bit .inode 0 j = false) {inode : Inode}
    (hv : inode.Valid) : g.After t d (do writeInode (j + 1) inode; decFreeInodes)
      (fun _ d' => d' = (d.setInode (j + 1) inode).mark .inode j) := by
  have h0 := g.groups_pos
  have hle : j + 1 ≤ g.inodes := (show j + 1 ≤ g.ipg from hj).trans (Nat.le_mul_of_pos_right _ h0)
  have hdiv : (j + 1 - 1) / g.ipg = 0 := Nat.div_eq_of_lt hj
  have hmod : (j + 1 - 1) % g.ipg = j := Nat.mod_eq_of_lt hj
  have hw := after_writeInode (t := t) hc.ipg_eq (by omega) hle hv (by rw [hdiv]; exact fun K => hc.free_lt h0)
    (by rw [hdiv]; exact hc.free_pos h0 hj hbit)
  rw [hdiv, hmod] at hw
  refine hw.bind fun _ d' hd => ?_
  subst hd
  have hmem : 0 < d.mem.sFreeInodesCount ∧ d.mem.sFreeInodesCount < 2 ^ 32 := by
    rw [hc.mem]
    exact ⟨hc.sum_pos h0 hj hbit, hc.sum_lt⟩
  exact after_decFreeInodes hmem.1 hmem.2

end Airix.Mkfs
