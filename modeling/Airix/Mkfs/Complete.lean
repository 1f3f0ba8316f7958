import Airix.Mkfs.Fsck

/-!
# Which units an allocation can find

`alloc_block` and `alloc_inode_no` are complete when they find a unit whenever one is free in some group.
The number of groups that they try comes out as 1 (`bgNum`), so on a consistent image they are complete iff
the first group still has a free unit, or no group has.
-/

namespace Airix.Mkfs
open Axfs Bytes Exec Finset

variable {g : Geom} {s s' : State} {d : Disk} {K : Kind} {k j n : Nat}

/-- A consistent image, with the super block in memory that is on it. -/
structure Consistent (g : Geom) (s : State) : Prop where
  fsck : Fsck g s
  mem : s.superBlock = (s.disk g).sb

/-- `alloc_block`, `alloc_inode_no`. -/
def alloc : Kind → M Nat
  | .block => allocBlock
  | .inode => allocInodeNo

/-- `s_free_blocks_count`, `s_free_inodes_count`. -/
def freeCount (sb : SuperBlock) : Kind → Nat
  | .block => sb.sFreeBlocksCount
  | .inode => sb.sFreeInodesCount

/-- `s_blocks_count`, `s_inodes_count`. -/
def unitCount (sb : SuperBlock) : Kind → Nat
  | .block => sb.sBlocksCount
  | .inode => sb.sInodesCount

/-- The block number or the inode number of a bit of a bitmap. -/
def Geom.number (g : Geom) : Kind → Nat → Nat → Nat
  | .block, k, j => 1 + 8192 * k + j
  | .inode, k, j => g.ipg * k + j + 1

/-- An allocation finds a free unit that exists whenever there is one, and fails only when there is none. -/
structure AllocComplete (g : Geom) (s : State) (K : Kind) : Prop where
  returns : 0 < freeCount s.superBlock K → ∃ k < g.groups, ∃ j < g.units K k, (s.disk g).bit K k j = false ∧
    (alloc K).run s = .ok (g.number K k j, s) ∧ 1 ≤ g.number K k j ∧ g.number K k j ≤ unitCount s.superBlock K
  fails : ∀ e, (alloc K).run s = .error e → ∀ k < g.groups, ∀ j < g.units K k, (s.disk g).bit K k j = true

theorem Consistent.rep (h : Consistent g s) : Rep g s (s.disk g) :=
  ⟨rfl, rfl, h.fsck.descs, fun _ _ _ _ _ => rfl, fun _ _ _ => rfl, fun _ _ _ _ => rfl⟩

theorem Consistent.counts (h : Consistent g s) : Counts g (s.disk g) := by
  refine ⟨h.mem.trans h.fsck.super, h.fsck.groups, fun k hk j hj => ?_⟩
  have hlt := (g.layout hk).used_lt
  exact (h.fsck.blocks k hk j (by omega)).2 (.inl hj)

theorem Rep.consistent (hs : Rep g s d) (h : Image g d) : Consistent g s :=
  ⟨hs.fsck h, hs.mem.trans (h.sb.symm.trans hs.sb.symm)⟩

theorem Reachable.consistent {blockNum ipg : Nat} (h : Reachable blockNum ipg s) (hpos : 0 < blockNum)
    (hlt : blockNum * 1024 ≤ 2 ^ 32) (hipg : ipg ≤ 8192) :
    ∃ g : Geom, g.blocks + 1 = blockNum ∧ g.ipg = ipg ∧ Consistent g s := by
  obtain ⟨g, d, h1, h2, hs, himage⟩ := h.image hpos hlt hipg
  exact ⟨g, h1, h2, hs.consistent himage⟩

theorem Geom.number_range (hk : k < g.groups) (hj : j < g.units K k) :
    1 ≤ g.number K k j ∧ g.number K k j ≤ unitCount ⟨g.inodes, g.blocks, 0, 0, 0⟩ K := by
  cases K with
  | block =>
    have hj : j < g.groupBlocks k := hj
    have hb := (g.layout hk).blocks
    simp only [Geom.number, unitCount]
    omega
  | inode =>
    have hj : j < g.ipg := hj
    have hle : g.ipg * (k + 1) ≤ g.ipg * g.groups := Nat.mul_le_mul_left _ hk
    rw [Nat.mul_succ] at hle
    simp only [Geom.number, unitCount, Geom.inodes]
    omega

namespace Counts
variable (hc : Counts g d)
include hc

theorem freeCount_eq : freeCount d.mem K = ∑ k ∈ range g.groups, d.free K k := by
  rw [hc.mem]
  cases K <;> rfl

theorem unitCount_eq : unitCount d.mem K = unitCount ⟨g.inodes, g.blocks, 0, 0, 0⟩ K := by
  rw [hc.mem]
  cases K <;> rfl

theorem freeCount_pos : 0 < freeCount d.mem K ↔ ∃ k < g.groups, 0 < d.free K k := by
  rw [hc.freeCount_eq, sum_pos_iff]
  simp only [mem_range]

/-- What an allocation returns is a free unit of the first group, and it returns if there is one. -/
theorem after_alloc {t : Prop} (ht : t → 0 < d.free K 0) : g.After t d (alloc K) (fun n d' =>
    d' = d ∧ ∃ j < g.units K 0, n = g.number K 0 j ∧ d.bit K 0 j = false) := by
  cases K with
  | block =>
    refine (after_allocBlock hc ht).mono ?_
    rintro n d' ⟨hd, j, hj, hn, hbit⟩
    refine ⟨hd, j, hj, ?_, hbit⟩
    simp only [Geom.number, hn]
  | inode =>
    refine (after_allocInodeNo hc ht).mono ?_
    rintro n d' ⟨hd, j, hj, hn, hbit⟩
    refine ⟨hd, j, hj, ?_, hbit⟩
    simp only [Geom.number, hn, Nat.mul_zero, Nat.zero_add]

end Counts

theorem keeps_alloc {P : State → Prop} : Keeps P (alloc K) := by
  cases K with
  | block => exact Keeps.allocBlock
  | inode => exact Keeps.allocInodeNo

/-! ### Completeness -/

section Rep
variable (hs : Rep g s d) (hc : Counts g d)
include hs hc

theorem Rep.alloc_of_free (hpos : 0 < d.free K 0) : ∃ j < g.units K 0, d.bit K 0 j = false ∧
    (alloc K).run s = .ok (g.number K 0 j, s) := by
  have h := hc.after_alloc (fun _ : True => hpos) s hs
  obtain ⟨⟨n, s'⟩, hr⟩ := h.2 trivial
  obtain ⟨d', -, -, j, hj, rfl, hbit⟩ := h.1 n s' hr
  exact ⟨j, hj, hbit, by rw [hr, keeps_alloc (P := (· = s)) s _ s' rfl hr]⟩

theorem Rep.free_of_alloc (hr : (alloc K).run s = .ok (n, s')) : 0 < d.free K 0 := by
  obtain ⟨d', -, -, j, hj, -, hbit⟩ := (hc.after_alloc False.elim s hs).1 n s' hr
  exact hc.free_pos g.groups_pos hj hbit

end Rep

/-- Exactly when the allocations are complete: unless the first group is full and another is not. -/
theorem allocComplete_iff (h : Consistent g s) : (∀ K, AllocComplete g s K) ↔
    ∀ K, (∃ k < g.groups, 0 < (s.disk g).free K k) → 0 < (s.disk g).free K 0 := by
  have hs := h.rep
  have hc := h.counts
  have h0 := g.groups_pos
  constructor
  · intro hall K hfree
    obtain ⟨k, -, j, -, -, hr, -⟩ := (hall K).returns (hc.freeCount_pos.2 hfree)
    exact hs.free_of_alloc hc hr
  · intro hall K
    refine ⟨fun hpos => ?_, fun e hr k hk j hj => ?_⟩
    · obtain ⟨j, hj, hbit, hr⟩ := hs.alloc_of_free hc (hall K (hc.freeCount_pos.1 hpos))
      have hrange := g.number_range h0 hj
      refine ⟨0, h0, j, hj, hbit, hr, hrange.1, ?_⟩
      rw [show s.superBlock = (s.disk g).mem from rfl, hc.unitCount_eq]
      exact hrange.2
    · -- a clear bit somewhere would make the allocation return
      by_contra hbit
      have hpos := hc.free_pos hk hj (Bool.eq_false_of_not_eq_true hbit)
      obtain ⟨j', -, -, hok⟩ := hs.alloc_of_free hc (hall K ⟨k, hk, hpos⟩)
      rw [hok] at hr
      cases hr

def oneGroup : Geom := ⟨19, 9, by decide, by decide, by decide, by decide, by decide⟩

/-- Two groups of one inode each. -/
def twoGroups : Geom := ⟨8200, 1, by decide, by decide, by decide, by decide, by decide⟩

/-- A new image of one group. -/
theorem allocComplete_oneGroup : ∃ s, Consistent oneGroup s ∧ ∀ K, AllocComplete oneGroup s K := by
  obtain ⟨s, d, -, hs, ⟨j, f, hroot⟩, hsb⟩ := mkfs_ok oneGroup
  have hcons := hs.consistent (hroot.image hsb)
  refine ⟨s, hcons, (allocComplete_iff hcons).2 fun K ⟨k, hk, hpos⟩ => ?_⟩
  have hone : oneGroup.groups = 1 := by decide
  obtain rfl : k = 0 := by omega
  exact hpos

/-- A new image of two groups with one inode each: the root takes the first group's inode, and the
second's is never found. -/
theorem not_allocComplete_twoGroups : ∃ s, Consistent twoGroups s ∧ 0 < s.superBlock.sFreeInodesCount ∧
    ¬ AllocComplete twoGroups s .inode := by
  obtain ⟨s, d, -, hs, ⟨j, f, hroot⟩, hsb⟩ := mkfs_ok twoGroups
  have hcons := hs.consistent (hroot.image hsb)
  have hcounts := (hroot.image hsb).inv.counts
  have hbit : d.bit .inode 1 0 = false := by
    rw [← Bool.not_eq_true, hroot.inodes]
    omega
  have hpos : 0 < freeCount s.superBlock .inode := by
    rw [hs.mem]
    exact hcounts.freeCount_pos.2 ⟨1, by decide, hcounts.free_pos (by decide) (by decide) hbit⟩
  refine ⟨s, hcons, hpos, fun hcomplete => ?_⟩
  obtain ⟨k, -, j', -, -, hr, -⟩ := hcomplete.returns hpos
  have hfree := hs.free_of_alloc hcounts hr
  rw [hroot.free_inode] at hfree
  exact absurd hfree (by decide)

end Airix.Mkfs
