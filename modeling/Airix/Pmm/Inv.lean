import Airix.Pmm.Model
import Airix.Lib.Dyadic
import Mathlib.Algebra.BigOperators.Group.Finset.Basic
import Mathlib.Algebra.BigOperators.Ring.Finset
import Mathlib.Tactic.IntervalCases

/-!
# The buddy invariant

Every page of the array belongs to exactly one tile: a free block, a live block, the block in hand
while an operation runs, or a page that the allocator was never given. Stale `flags` and `order`
values inside a block are harmless because of this tiling: the buddy of an aligned block is always
the first page of its own tile (`Inv.buddy_free_iff`).
-/

namespace Airix.Pmm

inductive Tile
  | free (p k : Nat)
  | live (p k : Nat)
  | hand (p k : Nat)
  | reserved (p : Nat)
deriving DecidableEq

namespace Tile

def start : Tile → Nat
  | free p _ | live p _ | hand p _ | reserved p => p

def order : Tile → Nat
  | free _ k | live _ k | hand _ k => k
  | reserved _ => 0

def cells (t : Tile) : Set Nat := blk t.start t.order

@[simp] theorem cells_free (p k : Nat) : (free p k).cells = blk p k := rfl
@[simp] theorem cells_live (p k : Nat) : (live p k).cells = blk p k := rfl
@[simp] theorem cells_hand (p k : Nat) : (hand p k).cells = blk p k := rfl
@[simp] theorem cells_reserved (p : Nat) : (reserved p).cells = blk p 0 := rfl

end Tile

/-- What the state stands for: the blocks of each area in list order, the live blocks, the block in
hand and the pages the allocator was never given. -/
structure Ghost where
  areas : Nat → List Nat
  live : Finset (Nat × Nat)
  hand : Option (Nat × Nat)
  reserved : Set Nat

def handTiles (hand : Option (Nat × Nat)) : Set Tile := {t | ∃ p k, hand = some (p, k) ∧ t = .hand p k}

def handSize : Option (Nat × Nat) → Nat
  | some (_, k) => 2 ^ k
  | none => 0

namespace Ghost

def tiles (g : Ghost) : Set Tile :=
  {t | match t with
    | .free p k => k < buddyMaxOrder ∧ p ∈ g.areas k
    | .live p k => (p, k) ∈ g.live
    | .hand p k => g.hand = some (p, k)
    | .reserved p => p ∈ g.reserved}

variable {g : Ghost} {p k : Nat}

@[simp] theorem free_mem : Tile.free p k ∈ g.tiles ↔ k < buddyMaxOrder ∧ p ∈ g.areas k := Iff.rfl
@[simp] theorem live_mem : Tile.live p k ∈ g.tiles ↔ (p, k) ∈ g.live := Iff.rfl
@[simp] theorem hand_mem : Tile.hand p k ∈ g.tiles ↔ g.hand = some (p, k) := Iff.rfl
@[simp] theorem reserved_mem : Tile.reserved p ∈ g.tiles ↔ p ∈ g.reserved := Iff.rfl

/-- Number of pages in the blocks of the areas. -/
def freeSum (areas : Nat → List Nat) : Nat :=
  ∑ k ∈ Finset.range buddyMaxOrder, (areas k).length * 2 ^ k

end Ghost

@[simp] theorem free_notMem_handTiles {hand : Option (Nat × Nat)} {p k : Nat} :
    Tile.free p k ∉ handTiles hand := by simp [handTiles]
@[simp] theorem live_notMem_handTiles {hand : Option (Nat × Nat)} {p k : Nat} :
    Tile.live p k ∉ handTiles hand := by simp [handTiles]
@[simp] theorem reserved_notMem_handTiles {hand : Option (Nat × Nat)} {p : Nat} :
    Tile.reserved p ∉ handTiles hand := by simp [handTiles]
@[simp] theorem hand_mem_handTiles {hand : Option (Nat × Nat)} {p k : Nat} :
    Tile.hand p k ∈ handTiles hand ↔ hand = some (p, k) := by
  simp [handTiles]
@[simp] theorem handTiles_none : handTiles none = ∅ := by simp [handTiles]
@[simp] theorem handTiles_some (p k : Nat) : handTiles (some (p, k)) = {.hand p k} := by
  ext t; cases t <;> simp [eq_comm]

structure Inv (s : State) (g : Ghost) : Prop where
  ring : ∀ k < buddyMaxOrder, s.links.IsRing (.head k) ((g.areas k).map .page)
  headPage : ∀ k < buddyMaxOrder, ∀ p ∈ g.areas k, s.pages p = ⟨0, k⟩
  numBlocks : ∀ k < buddyMaxOrder, s.numBlocks k = (g.areas k).length
  numPages : s.numPages = Ghost.freeSum g.areas + handSize g.hand
  order_lt : ∀ t ∈ g.tiles, t.order < buddyMaxOrder
  dvd : ∀ t ∈ g.tiles, 2 ^ t.order ∣ t.start
  cover : ExactCover Tile.cells (Set.Iio s.pagesLen) g.tiles
  live_flags : ∀ p k, (p, k) ∈ g.live → (s.pages p).flags ≠ 0
  reserved_flags : ∀ p ∈ g.reserved, (s.pages p).flags ≠ 0
  /-- No two siblings below the top order are free at once. -/
  siblings : ∀ p k, k + 1 < buddyMaxOrder → 2 ^ (k + 1) ∣ p → p ∈ g.areas k → p + 2 ^ k ∉ g.areas k
  /-- `total_pages` is the length of the array, or the last page is not for use. -/
  total : s.totalPages = s.pagesLen ∨ (s.pagesLen ≤ s.totalPages ∧ s.pagesLen - 1 ∈ g.reserved)
  page_zero : 0 ∈ g.reserved

theorem orderPages_eq {k : Nat} (hk : k < buddyMaxOrder) : orderPages k = 2 ^ k := by
  unfold buddyMaxOrder at hk
  interval_cases k <;> rfl

/-! ### `get_buddy` -/

/-- `b'` is the sibling of the block `b` of order `k`. -/
def Sibling (b b' k : Nat) : Prop :=
  (2 ^ (k + 1) ∣ b ∧ b' = b + 2 ^ k) ∨ (2 ^ (k + 1) ∣ b' ∧ b = b' + 2 ^ k)

section
variable {s : State} {b b' k : Nat}

theorem exists_sibling (hb : 2 ^ k ∣ b) : ∃ b', Sibling b b' k := by
  rcases dvd_succ_or b k hb with hd | ⟨hle, hd⟩
  · exact ⟨b + 2 ^ k, .inl ⟨hd, rfl⟩⟩
  · exact ⟨b - 2 ^ k, .inr ⟨hd, by omega⟩⟩

theorem not_dvd_add_half {x : Nat} (hd : 2 ^ (k + 1) ∣ x) : ¬ 2 ^ (k + 1) ∣ x + 2 ^ k := by
  intro h
  have := Nat.le_of_dvd (by positivity) ((Nat.dvd_add_right hd).mp h)
  have : 0 < 2 ^ k := by positivity
  rw [pow_succ] at *; omega

/-- `get_buddy` is the sibling, unless the order is the top one or the sibling is out of range. -/
theorem getBuddy_eq (hk : k + 1 < buddyMaxOrder) (h : Sibling b b' k) :
    getBuddy s b k = if b' < s.totalPages then some b' else none := by
  unfold getBuddy
  rw [if_neg (by omega), orderPages_eq hk, orderPages_eq (by omega)]
  dsimp only
  rcases h with ⟨hd, rfl⟩ | ⟨hd, rfl⟩
  · rw [if_pos (Nat.mod_eq_zero_of_dvd hd), ← Nat.cast_add]
    by_cases hlt : b + 2 ^ k < s.totalPages
    · rw [if_neg (by omega), if_pos hlt, Int.toNat_natCast]
    · rw [if_pos (by omega), if_neg hlt]
  · have hsub : ((b' + 2 ^ k : Nat) : Int) - (2 ^ k : Nat) = (b' : Int) := by push_cast; ring
    rw [if_neg (fun h0 => not_dvd_add_half hd (Nat.dvd_of_mod_eq_zero h0)), hsub]
    by_cases hlt : b' < s.totalPages
    · rw [if_neg (by omega), if_pos hlt, Int.toNat_natCast]
    · rw [if_pos (by omega), if_neg hlt]

theorem getBuddy_top (hk : buddyMaxOrder ≤ k + 1) : getBuddy s b k = none := by
  unfold getBuddy; rw [if_pos hk]

theorem Sibling.symm (h : Sibling b b' k) : Sibling b' b k := by
  rcases h with ⟨hd, rfl⟩ | ⟨hd, rfl⟩
  · exact .inr ⟨hd, rfl⟩
  · exact .inl ⟨hd, rfl⟩

theorem Sibling.dvd (h : Sibling b b' k) : 2 ^ k ∣ b := by
  have hk : 2 ^ k ∣ 2 ^ (k + 1) := pow_dvd_pow 2 (Nat.le_succ k)
  rcases h with ⟨hd, -⟩ | ⟨hd, rfl⟩
  · exact hk.trans hd
  · exact (Nat.dvd_add_right (hk.trans hd)).mpr dvd_rfl

theorem Sibling.disjoint (h : Sibling b b' k) : Disjoint (blk b k) (blk b' k) := by
  rcases h with ⟨-, rfl⟩ | ⟨-, rfl⟩
  · exact disjoint_halves b k
  · exact (disjoint_halves b' k).symm

theorem Sibling.mergeBuddy_dvd (h : Sibling b b' k) : 2 ^ (k + 1) ∣ mergeBuddy b b' := by
  have : 0 < 2 ^ k := by positivity
  unfold mergeBuddy
  rcases h with ⟨hd, rfl⟩ | ⟨hd, rfl⟩
  · rw [if_pos (by omega)]; exact hd
  · rw [if_neg (by omega)]; exact hd

theorem Sibling.blk_mergeBuddy (h : Sibling b b' k) : blk (mergeBuddy b b') (k + 1) = blk b k ∪ blk b' k := by
  have : 0 < 2 ^ k := by positivity
  unfold mergeBuddy
  rcases h with ⟨hd, rfl⟩ | ⟨hd, rfl⟩
  · rw [if_pos (by omega), blk_succ]
  · rw [if_neg (by omega), blk_succ, Set.union_comm]

end
end Airix.Pmm
