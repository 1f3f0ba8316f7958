import Mathlib.Data.Set.Lattice
import Mathlib.Order.CompletePartialOrder
import Mathlib.Order.Interval.Set.Basic
import Mathlib.Tactic.Ring
import Mathlib.Algebra.Order.Ring.Nat

/-!
# Exact covers and dyadic blocks

`ExactCover cells U T`: the tiles `T` partition `U`. `ExactCover.replace` swaps some of the tiles for
others that partition the same cells; splitting, merging and relabelling a tile are instances.

`blk p k` is the block `[p, p + 2 ^ k)`. Aligned blocks are nested or disjoint. A `Coalesced` family
of aligned blocks holds no two siblings below the top order `K`; such a family is determined by the
cells it covers (`Coalesced.eq_of_cells`), and holds a block around every aligned run of covered
cells (`Coalesced.exists_of_subset`).
-/

/-- The tiles `T` partition `U`. -/
structure ExactCover {α τ : Type*} (cells : τ → Set α) (U : Set α) (T : Set τ) : Prop where
  sub : ∀ t ∈ T, cells t ⊆ U
  cover : ∀ x ∈ U, ∃ t ∈ T, x ∈ cells t
  unique : ∀ t ∈ T, ∀ t' ∈ T, ∀ x, x ∈ cells t → x ∈ cells t' → t = t'

namespace ExactCover
variable {α τ : Type*} {cells : τ → Set α} {U : Set α} {T T' A B : Set τ}

/-- Replace the tiles `A` by tiles `B` that partition the cells of `A`. -/
theorem replace (h : ExactCover cells U T) (hA : A ⊆ T) (hB : ExactCover cells (⋃ t ∈ A, cells t) B)
    (hT' : ∀ t, t ∈ T' ↔ (t ∈ T ∧ t ∉ A) ∨ t ∈ B) : ExactCover cells U T' := by
  have hsubA : ∀ x, x ∈ (⋃ t ∈ A, cells t) → ∃ t ∈ A, x ∈ cells t := by
    intro x hx; simpa using hx
  have hcross : ∀ t ∈ T, t ∉ A → ∀ t' ∈ B, ∀ x, x ∈ cells t → x ∉ cells t' := by
    intro t ht htA t' ht' x hx hx'
    obtain ⟨a, ha, hxa⟩ := hsubA x (hB.sub t' ht' hx')
    exact htA (h.unique t ht a (hA ha) x hx hxa ▸ ha)
  refine ⟨fun t ht => ?_, fun x hx => ?_, fun t ht t' ht' x hx hx' => ?_⟩
  · rcases (hT' t).mp ht with ht | ht
    · exact h.sub t ht.1
    · intro x hx
      obtain ⟨a, ha, hxa⟩ := hsubA x (hB.sub t ht hx)
      exact h.sub a (hA ha) hxa
  · obtain ⟨t, ht, hxt⟩ := h.cover x hx
    by_cases htA : t ∈ A
    · obtain ⟨b, hb, hxb⟩ := hB.cover x (by simpa using ⟨t, htA, hxt⟩)
      exact ⟨b, (hT' b).mpr (.inr hb), hxb⟩
    · exact ⟨t, (hT' t).mpr (.inl ⟨ht, htA⟩), hxt⟩
  · rcases (hT' t).mp ht with ht | ht <;> rcases (hT' t').mp ht' with ht' | ht'
    · exact h.unique t ht.1 t' ht'.1 x hx hx'
    · exact absurd hx' (hcross t ht.1 ht.2 t' ht' x hx)
    · exact absurd hx (hcross t' ht'.1 ht'.2 t ht x hx')
    · exact hB.unique t ht t' ht' x hx hx'

theorem disjoint (h : ExactCover cells U T) {t t' : τ} (ht : t ∈ T) (ht' : t' ∈ T) (hne : t ≠ t') :
    Disjoint (cells t) (cells t') :=
  Set.disjoint_left.mpr fun x hx hx' => hne (h.unique t ht t' ht' x hx hx')

/-- One tile partitions its own cells. -/
theorem singleton (t : τ) (hU : cells t = U) : ExactCover cells U {t} := by
  refine ⟨?_, ?_, ?_⟩
  · rintro _ rfl; exact hU.subset
  · exact fun x hx => ⟨t, rfl, hU.symm ▸ hx⟩
  · rintro _ rfl _ rfl _ _ _; rfl

/-- Two disjoint tiles partition the union of their cells. -/
theorem pair {a b : τ} (hd : Disjoint (cells a) (cells b)) (hU : cells a ∪ cells b = U) :
    ExactCover cells U {a, b} := by
  refine ⟨?_, ?_, ?_⟩
  · rintro _ (rfl | rfl) x hx
    · exact hU ▸ .inl hx
    · exact hU ▸ .inr hx
  · intro x hx
    rw [← hU] at hx
    rcases hx with hx | hx
    · exact ⟨a, .inl rfl, hx⟩
    · exact ⟨b, .inr rfl, hx⟩
  · rintro _ (rfl | rfl) _ (rfl | rfl) x hx hx'
    · rfl
    · exact absurd hx' (Set.disjoint_left.mp hd hx)
    · exact absurd hx (Set.disjoint_left.mp hd hx')
    · rfl

end ExactCover

/-! ### Aligned blocks -/

/-- The block of order `k` at `p`. -/
def blk (p k : ℕ) : Set ℕ := Set.Ico p (p + 2 ^ k)

@[simp] theorem mem_blk {p k x : ℕ} : x ∈ blk p k ↔ p ≤ x ∧ x < p + 2 ^ k := Iff.rfl

theorem self_mem_blk (p k : ℕ) : p ∈ blk p k := by simp

theorem blk_zero (p : ℕ) : blk p 0 = {p} := by
  ext x; simp; omega

/-- The two halves of a block. -/
theorem blk_succ (p k : ℕ) : blk p (k + 1) = blk p k ∪ blk (p + 2 ^ k) k := by
  ext x; simp only [mem_blk, Set.mem_union, pow_succ]; omega

theorem disjoint_halves (p k : ℕ) : Disjoint (blk p k) (blk (p + 2 ^ k) k) :=
  Set.disjoint_left.mpr fun x hx hx' => by simp only [mem_blk] at hx hx'; omega

/-- An aligned block that meets a larger aligned block lies inside it. -/
theorem blk_nested {p q k j x : ℕ} (hp : 2 ^ k ∣ p) (hq : 2 ^ j ∣ q) (hjk : j ≤ k)
    (hx : x ∈ blk p k) (hx' : x ∈ blk q j) : p ≤ q ∧ q + 2 ^ j ≤ p + 2 ^ k := by
  obtain ⟨a, rfl⟩ : 2 ^ j ∣ p := (pow_dvd_pow 2 hjk).trans hp
  obtain ⟨c, hc⟩ : 2 ^ j ∣ 2 ^ k := pow_dvd_pow 2 hjk
  obtain ⟨b, rfl⟩ := hq
  simp only [mem_blk, hc] at hx hx' ⊢
  have h1 : a < b + 1 := by
    refine Nat.lt_of_mul_lt_mul_left (a := 2 ^ j) ?_
    calc 2 ^ j * a ≤ x := hx.1
      _ < 2 ^ j * b + 2 ^ j := hx'.2
      _ = 2 ^ j * (b + 1) := by ring
  have h2 : b < a + c := by
    refine Nat.lt_of_mul_lt_mul_left (a := 2 ^ j) ?_
    calc 2 ^ j * b ≤ x := hx'.1
      _ < 2 ^ j * a + 2 ^ j * c := hx.2
      _ = 2 ^ j * (a + c) := by ring
  constructor
  · exact Nat.mul_le_mul_left _ (by omega)
  · calc 2 ^ j * b + 2 ^ j = 2 ^ j * (b + 1) := by ring
      _ ≤ 2 ^ j * (a + c) := Nat.mul_le_mul_left _ (by omega)
      _ = 2 ^ j * a + 2 ^ j * c := by ring

theorem blk_subset_of_meet {p q k j x : ℕ} (hp : 2 ^ k ∣ p) (hq : 2 ^ j ∣ q) (hjk : j ≤ k)
    (hx : x ∈ blk p k) (hx' : x ∈ blk q j) : blk q j ⊆ blk p k := by
  have := blk_nested hp hq hjk hx hx'
  intro y hy
  simp only [mem_blk] at hy ⊢
  omega

/-- The only aligned block of at most the order of `blk p k` around `p` starts at `p`. -/
theorem eq_of_mem_blk_of_le {p q k j : ℕ} (hp : 2 ^ k ∣ p) (hq : 2 ^ j ∣ q) (hjk : j ≤ k)
    (h : p ∈ blk q j) : q = p := by
  have h1 := blk_nested hp hq hjk (self_mem_blk p k) h
  simp only [mem_blk] at h
  omega

/-- An aligned start is the first or the second half of the enclosing block. -/
theorem dvd_succ_or (p k : ℕ) (hp : 2 ^ k ∣ p) :
    2 ^ (k + 1) ∣ p ∨ (2 ^ k ≤ p ∧ 2 ^ (k + 1) ∣ p - 2 ^ k) := by
  obtain ⟨a, rfl⟩ := hp
  rcases Nat.even_or_odd' a with ⟨c, rfl | rfl⟩
  · exact .inl ⟨c, by ring⟩
  · refine .inr ⟨Nat.le_mul_of_pos_right _ (by omega), ⟨c, ?_⟩⟩
    rw [show 2 ^ k * (2 * c + 1) = 2 ^ k * 2 * c + 2 ^ k by ring]
    rw [Nat.add_sub_cancel, pow_succ]

/-! ### Coalesced families -/

/-- A family of aligned blocks of order at most `K` that partitions `F` and holds no two siblings of
an order below `K`. -/
structure Coalesced (K : ℕ) (F : Set ℕ) (B : ℕ → ℕ → Prop) : Prop where
  order_le : ∀ p k, B p k → k ≤ K
  dvd : ∀ p k, B p k → 2 ^ k ∣ p
  sub : ∀ p k, B p k → blk p k ⊆ F
  cover : ∀ x ∈ F, ∃ p k, B p k ∧ x ∈ blk p k
  unique : ∀ p k q j x, B p k → B q j → x ∈ blk p k → x ∈ blk q j → p = q ∧ k = j
  no_siblings : ∀ p k, k < K → 2 ^ (k + 1) ∣ p → B p k → ¬ B (p + 2 ^ k) k

namespace Coalesced
variable {K : ℕ} {F : Set ℕ} {B B' : ℕ → ℕ → Prop}

/-- Every aligned run of covered cells lies inside one block of the family. -/
theorem exists_of_subset (h : Coalesced K F B) : ∀ {k p : ℕ}, k ≤ K → 2 ^ k ∣ p → blk p k ⊆ F →
    ∃ q j, B q j ∧ k ≤ j ∧ blk p k ⊆ blk q j
  | 0, p, _, hp, hF => by
    obtain ⟨q, j, hB, hx⟩ := h.cover p (hF (self_mem_blk p 0))
    exact ⟨q, j, hB, Nat.zero_le j, blk_subset_of_meet (h.dvd q j hB) hp (Nat.zero_le j) hx (self_mem_blk p 0)⟩
  | k + 1, p, hk, hp, hF => by
    have hp₁ : 2 ^ k ∣ p := (pow_dvd_pow 2 (Nat.le_succ k)).trans hp
    have hp₂ : 2 ^ k ∣ p + 2 ^ k := (Nat.dvd_add_right hp₁).mpr dvd_rfl
    rw [blk_succ] at hF
    obtain ⟨q₁, j₁, hB₁, hj₁, hs₁⟩ := h.exists_of_subset (by omega) hp₁ (Set.subset_union_left.trans hF)
    obtain ⟨q₂, j₂, hB₂, hj₂, hs₂⟩ := h.exists_of_subset (by omega) hp₂ (Set.subset_union_right.trans hF)
    -- a half that lies in a larger block drags the other half along
    by_cases hlt₁ : k + 1 ≤ j₁
    · exact ⟨q₁, j₁, hB₁, hlt₁, blk_subset_of_meet (h.dvd _ _ hB₁) hp hlt₁ (hs₁ (self_mem_blk p k))
        (self_mem_blk p (k + 1))⟩
    by_cases hlt₂ : k + 1 ≤ j₂
    · refine ⟨q₂, j₂, hB₂, hlt₂, blk_subset_of_meet (h.dvd _ _ hB₂) hp hlt₂ (hs₂ (self_mem_blk _ k)) ?_⟩
      rw [blk_succ]; exact .inr (self_mem_blk _ k)
    obtain rfl : j₁ = k := by omega
    obtain rfl : j₂ = j₁ := by omega
    obtain rfl := eq_of_mem_blk_of_le hp₁ (h.dvd _ _ hB₁) le_rfl (hs₁ (self_mem_blk p _))
    obtain rfl := eq_of_mem_blk_of_le hp₂ (h.dvd _ _ hB₂) le_rfl (hs₂ (self_mem_blk _ _))
    exact absurd hB₂ (h.no_siblings _ _ (by omega) hp hB₁)

/-- A coalesced family is a function of the cells it covers. -/
theorem eq_of_cells (h : Coalesced K F B) (h' : Coalesced K F B') {p k : ℕ} (hB : B p k) : B' p k := by
  obtain ⟨q, j, hB', hkj, hs⟩ := h'.exists_of_subset (h.order_le p k hB) (h.dvd p k hB) (h.sub p k hB)
  obtain ⟨q₂, j₂, hB₂, hj₂, hs₂⟩ :=
    h.exists_of_subset (h'.order_le q j hB') (h'.dvd q j hB') (h'.sub q j hB')
  obtain ⟨rfl, rfl⟩ := h.unique p k q₂ j₂ p hB hB₂ (self_mem_blk p k) (hs₂ (hs (self_mem_blk p k)))
  obtain rfl : j = k := by omega
  rw [← eq_of_mem_blk_of_le (h.dvd p _ hB) (h'.dvd q _ hB') le_rfl (hs (self_mem_blk p _))]
  exact hB'

end Coalesced
