import Mathlib.Algebra.Order.Group.Int
import Mathlib.Data.Nat.Basic
import Mathlib.Tactic.SplitIfs

/-!
# `qsort` (`lib/qsort.c`)

The elements are a type `α` and the array is `Array α`; `swap` of `width` bytes is a swap of two
elements. Sub-arrays (`pbase`, `pbase + g * width`) are slices. The two loops whose bound is not a
plain counter take fuel: the partition loop moves `i` or `l` in every round and the recursion
shrinks, so the fuel given by `qsort` is enough (`qsort_ordered` would fail otherwise).
-/

namespace Airix
variable {α : Type*}

/-- What `qsort` asks of `compare`: a three-way comparison consistent with a total preorder. -/
structure ThreeWay (compare : α → α → Int) : Prop where
  swap : ∀ x y, compare x y < 0 ↔ 0 < compare y x
  trans : ∀ x y z, compare x y ≤ 0 → compare y z ≤ 0 → compare x z ≤ 0

/-- The inner loop of `insert_sort`: sink element `j` while it is smaller than its left neighbour. -/
def insertSortSink (compare : α → α → Int) : Nat → Array α → Array α
  | 0, a => a
  | j + 1, a =>
    match a[j + 1]?, a[j]? with
    | some x, some y =>
      if compare x y < 0 then insertSortSink compare j (a.swapIfInBounds (j + 1) j) else a
    | _, _ => a

def insertSort (compare : α → α → Int) (a : Array α) : Array α :=
  (List.range' 1 (a.size - 1)).foldl (fun a i => insertSortSink compare i a) a

/-- The partition loop: `[0, l)` is less than, `[l, g)` equal to and `[g, i)` greater than `pivot`. -/
def qsortPartition (compare : α → α → Int) (pivot : α) :
    (fuel : Nat) → (a : Array α) → (i l g : Nat) → Array α × Nat × Nat
  | 0, a, _, l, g => (a, l, g)
  | fuel + 1, a, i, l, g =>
    match a[i]? with
    | none => (a, l, g)
    | some x =>
      let result := compare x pivot
      if result < 0 then qsortPartition compare pivot fuel (a.swapIfInBounds l i) i (l + 1) g
      else if result = 0 then
        qsortPartition compare pivot fuel (a.swapIfInBounds g i) (i + 1) l (g + 1)
      else qsortPartition compare pivot fuel a (i + 1) l g

def qsortFuel (compare : α → α → Int) : Nat → Array α → Array α
  | 0, a => insertSort compare a
  | fuel + 1, a =>
    if a.size ≤ 10 then insertSort compare a
    else match a[0]? with
      | none => a
      | some pivot =>
        let (a, l, g) := qsortPartition compare pivot (2 * a.size) a 1 0 1
        qsortFuel compare fuel (a.extract 0 l) ++ a.extract l g ++
          qsortFuel compare fuel (a.extract g a.size)

def qsort (compare : α → α → Int) (a : Array α) : Array α := qsortFuel compare a.size a

/-! ### Swaps -/

theorem swap_perm_of (a : Array α) (i j : Nat) : (a.swapIfInBounds i j).Perm a := by
  unfold Array.swapIfInBounds
  split
  · split
    · exact Array.swap_perm _ _
    · exact .rfl
  · exact .rfl

theorem getElem?_swap (a : Array α) {i j : Nat} (hi : i < a.size) (hj : j < a.size) (k : Nat) :
    (a.swapIfInBounds i j)[k]? = if k = i then a[j]? else if k = j then a[i]? else a[k]? := by
  grind

namespace ThreeWay
variable {compare : α → α → Int}

theorem le_of_not_lt (hc : ThreeWay compare) {x y : α} (h : ¬ compare x y < 0) : compare y x ≤ 0 := by
  have := hc.swap y x
  have := hc.swap x y
  omega

theorem refl (hc : ThreeWay compare) (x : α) : compare x x ≤ 0 := by
  have := hc.swap x x
  omega

/-- Strictly below the pivot, at the pivot, strictly above: the classes are ordered. -/
theorem le_of_classes (hc : ThreeWay compare) {x y v : α} (hx : compare x v ≤ 0) (hy : 0 ≤ compare y v) :
    compare x y ≤ 0 :=
  hc.trans x v y hx (hc.le_of_not_lt (not_lt.mpr hy))

end ThreeWay

/-- `compare` orders every two elements of `a` with indices in `[0, n)`, except those involving `j`. -/
def SortedBut (compare : α → α → Int) (a : Array α) (n j : Nat) : Prop :=
  ∀ (p q : Nat) (x y : α), p < q → q < n → p ≠ j → q ≠ j → a[p]? = some x → a[q]? = some y → compare x y ≤ 0

/-- The array is ordered by `compare`. -/
def Ordered (compare : α → α → Int) (a : Array α) : Prop :=
  ∀ (p q : Nat) (x y : α), p ≤ q → a[p]? = some x → a[q]? = some y → compare x y ≤ 0

section
variable {compare : α → α → Int}

/-! ### Insertion sort -/

theorem insertSortSink_perm : ∀ (j : Nat) (a : Array α), (insertSortSink compare j a).Perm a
  | 0, a => .rfl
  | j + 1, a => by
    unfold insertSortSink
    split
    · split
      · exact (insertSortSink_perm j _).trans (swap_perm_of a _ _)
      · exact .rfl
    · exact .rfl

/-- Sinking `j` into a prefix that is sorted but for `j`, where `j` is below everything after it. -/
theorem insertSortSink_sorted (hc : ThreeWay compare) {n : Nat} : ∀ (j : Nat) (a : Array α),
    n ≤ a.size → j < n → SortedBut compare a n j →
    (∀ q x y, j < q → q < n → a[j]? = some x → a[q]? = some y → compare x y ≤ 0) →
    SortedBut compare (insertSortSink compare j a) n n
  | 0, a, _, _, hs, hj => by
    intro p q x y hpq hq hp hq' hx hy
    by_cases hp0 : p = 0
    · subst hp0; exact hj q x y hpq hq hx hy
    · exact hs p q x y hpq hq hp0 (by omega) hx hy
  | j + 1, a, hn, hjn, hs, hj => by
    have hj1 : j + 1 < a.size := by omega
    have hj0 : j < a.size := by omega
    unfold insertSortSink
    rw [Array.getElem?_eq_getElem hj1, Array.getElem?_eq_getElem hj0]
    dsimp only
    split
    · rename_i hlt
      refine insertSortSink_sorted hc j _ (by simpa using hn) (by omega) ?_ ?_
      · intro p q x y hpq hq hp hq' hx hy
        rw [getElem?_swap a hj1 hj0] at hx hy
        split_ifs at hx hy with h1 h2 h3
        · omega
        · exact hs j q x y (by omega) hq (by omega) (by omega) hx hy
        · exact hs p j x y (by omega) (by omega) (by omega) (by omega) hx hy
        · exact hs p q x y hpq hq (by omega) (by omega) hx hy
      · intro q x y hq hqn hx hy
        rw [getElem?_swap a hj1 hj0] at hx hy
        simp only [Nat.ne_of_lt (Nat.lt_succ_self j), ↓reduceIte] at hx
        split_ifs at hy with h1 h2
        · rw [Array.getElem?_eq_getElem hj1] at hx
          rw [Array.getElem?_eq_getElem hj0] at hy
          cases hx; cases hy; omega
        · omega
        · exact hj q x y (by omega) hqn hx hy
    · rename_i hge
      have hle := hc.le_of_not_lt hge
      -- everything before `j + 1` is below `a[j]`, which is below `a[j + 1]`
      intro p q x y hpq hq hp hq' hx hy
      by_cases hpj : p = j + 1
      · subst hpj; exact hj q x y hpq hq hx hy
      by_cases hqj : q = j + 1
      · subst hqj
        rw [Array.getElem?_eq_getElem hj1] at hy; cases hy
        by_cases hpj' : p = j
        · subst hpj'; rw [Array.getElem?_eq_getElem hj0] at hx; cases hx; exact hle
        · exact hc.trans _ _ _ (hs p j x _ (by omega) (by omega) (by omega) (by omega) hx
            (Array.getElem?_eq_getElem hj0)) hle
      · exact hs p q x y hpq hq hpj hqj hx hy

theorem insertSort_fold (hc : ThreeWay compare) : ∀ (m i : Nat) (a : Array α), i + m ≤ a.size →
    SortedBut compare a i i →
    ((List.range' i m).foldl (fun a i => insertSortSink compare i a) a).Perm a ∧
      SortedBut compare ((List.range' i m).foldl (fun a i => insertSortSink compare i a) a) (i + m) (i + m)
  | 0, i, a, _, hs => ⟨.rfl, by simpa using hs⟩
  | m + 1, i, a, hm, hs => by
    have hp := @insertSortSink_perm _ compare i a
    have hsz := hp.size_eq
    have hs' : SortedBut compare (insertSortSink compare i a) (i + 1) (i + 1) := by
      refine insertSortSink_sorted hc i a (by omega) (by omega) ?_ ?_
      · intro p q x y hpq hq hp hq'
        exact hs p q x y hpq (by omega) (by omega) (by omega)
      · intro q; omega
    have ih := insertSort_fold hc m (i + 1) (insertSortSink compare i a) (by omega) hs'
    rw [List.range'_succ, List.foldl_cons]
    refine ⟨ih.1.trans hp, ?_⟩
    have e : i + 1 + m = i + (m + 1) := by omega
    rw [← e]; exact ih.2

theorem insertSort_spec (hc : ThreeWay compare) (a : Array α) :
    (insertSort compare a).Perm a ∧ Ordered compare (insertSort compare a) := by
  have hfold : (insertSort compare a).Perm a ∧ SortedBut compare (insertSort compare a) a.size a.size := by
    by_cases h0 : a.size = 0
    · refine ⟨by simp [insertSort, h0], ?_⟩
      intro p q; omega
    · have h := insertSort_fold hc (a.size - 1) 1 a (by omega) (by intro p q; omega)
      rw [Nat.add_sub_cancel' (by omega)] at h
      exact h
  refine ⟨hfold.1, fun p q x y hpq hx hy => ?_⟩
  have hq := (Array.getElem?_eq_some_iff.mp hy).1
  rw [hfold.1.size_eq] at hq
  rcases Nat.eq_or_lt_of_le hpq with rfl | hlt
  · rw [hx] at hy; cases hy; exact hc.refl x
  · exact hfold.2 p q x y hlt hq (by omega) (by omega) hx hy

/-! ### The partition -/

/-- The state of the partition loop: the three classes so far, and an equal element at hand to move
when a smaller one turns up (`l < g`, or the element at `i` is the one just swapped out). -/
structure PartInv (compare : α → α → Int) (pivot : α) (a : Array α) (i l g : Nat) : Prop where
  lg : l ≤ g
  gi : g ≤ i
  i_le : i ≤ a.size
  less : ∀ j x, j < l → a[j]? = some x → compare x pivot < 0
  equal : ∀ j x, l ≤ j → j < g → a[j]? = some x → compare x pivot = 0
  greater : ∀ j x, g ≤ j → j < i → a[j]? = some x → 0 < compare x pivot
  spare : l < g ∨ ∃ x, a[i]? = some x ∧ compare x pivot = 0

namespace PartInv
variable {pivot x : α} {a : Array α} {i l g : Nat}

/-- A smaller element is swapped with the first equal one, which then waits at `i`. -/
theorem stepLess (h : PartInv compare pivot a i l g) (hx : a[i]? = some x) (hlt : compare x pivot < 0) :
    l < g ∧ PartInv compare pivot (a.swapIfInBounds l i) i (l + 1) g := by
  have hlg := h.lg; have hgi := h.gi; have hi_le := h.i_le
  have hi : i < a.size := (Array.getElem?_eq_some_iff.mp hx).1
  have hl : l < g := h.spare.resolve_right (by rintro ⟨y, hy, hy0⟩; rw [hx] at hy; cases hy; omega)
  have hg : ∀ k, (a.swapIfInBounds l i)[k]? = if k = l then a[i]? else if k = i then a[l]? else a[k]? :=
    getElem?_swap a (by omega) hi
  refine ⟨hl, by omega, hgi, by simpa using hi_le, ?_, ?_, ?_, .inr ?_⟩
  · intro j y hj hy
    rw [hg] at hy
    split_ifs at hy with h1 h2
    · rw [hx] at hy; cases hy; exact hlt
    · omega
    · exact h.less j y (by omega) hy
  · intro j y hj hj' hy
    rw [hg] at hy
    split_ifs at hy with h1 h2
    · omega
    · omega
    · exact h.equal j y (by omega) hj' hy
  · intro j y hj hj' hy
    rw [hg] at hy
    split_ifs at hy with h1 h2
    · omega
    · omega
    · exact h.greater j y hj hj' hy
  · have hl' : l < a.size := by omega
    refine ⟨a[l], ?_, h.equal l _ le_rfl hl (Array.getElem?_eq_getElem hl')⟩
    rw [hg, if_neg (by omega), if_pos rfl, Array.getElem?_eq_getElem hl']

theorem stepEqual (h : PartInv compare pivot a i l g) (hx : a[i]? = some x) (heq : compare x pivot = 0) :
    PartInv compare pivot (a.swapIfInBounds g i) (i + 1) l (g + 1) := by
  have hlg := h.lg; have hgi := h.gi
  have hi : i < a.size := (Array.getElem?_eq_some_iff.mp hx).1
  have hg : ∀ k, (a.swapIfInBounds g i)[k]? = if k = g then a[i]? else if k = i then a[g]? else a[k]? :=
    getElem?_swap a (by omega) hi
  refine ⟨by omega, by omega, by simp; omega, ?_, ?_, ?_, .inl (by omega)⟩
  · intro j y hj hy
    rw [hg] at hy
    split_ifs at hy with h1 h2
    · omega
    · omega
    · exact h.less j y hj hy
  · intro j y hj hj' hy
    rw [hg] at hy
    split_ifs at hy with h1 h2
    · rw [hx] at hy; cases hy; exact heq
    · omega
    · exact h.equal j y hj (by omega) hy
  · intro j y hj hj' hy
    rw [hg] at hy
    split_ifs at hy with h1 h2
    · omega
    · exact h.greater g y le_rfl (by omega) hy
    · exact h.greater j y (by omega) (by omega) hy

theorem stepGreater (h : PartInv compare pivot a i l g) (hx : a[i]? = some x) (hgt : 0 < compare x pivot) :
    PartInv compare pivot a (i + 1) l g := by
  have hgi := h.gi
  have hi : i < a.size := (Array.getElem?_eq_some_iff.mp hx).1
  refine ⟨h.lg, by omega, hi, h.less, h.equal, ?_, ?_⟩
  · intro j y hj hj' hy
    by_cases hji : j = i
    · subst hji; rw [hx] at hy; cases hy; omega
    · exact h.greater j y hj (by omega) hy
  · exact .inl (h.spare.resolve_right (by rintro ⟨y, hy, hy0⟩; rw [hx] at hy; cases hy; omega))

/-- The partition starts with the pivot as the only equal element. -/
theorem start (hc : ThreeWay compare) (h0 : 0 < a.size) : PartInv compare a[0] a 1 0 1 := by
  have hself : compare a[0] a[0] = 0 := by have := hc.swap a[0] a[0]; omega
  refine ⟨by omega, le_rfl, by omega, by intro j; omega, ?_, by intro j; omega, .inl (by omega)⟩
  intro j x hj hj' hx
  obtain rfl : j = 0 := by omega
  rw [Array.getElem?_eq_getElem h0] at hx; cases hx; exact hself

/-- At the end an equal element is left: the pivot. -/
theorem lt_of_end (h : PartInv compare pivot a a.size l g) : l < g :=
  h.spare.resolve_right (by rintro ⟨x, hx, -⟩; simp at hx)

end PartInv

theorem qsortPartition_spec {pivot : α} : ∀ (fuel : Nat) (a : Array α) (i l g : Nat),
    PartInv compare pivot a i l g → 2 * a.size ≤ fuel + i + l →
    ∃ a' l' g', qsortPartition compare pivot fuel a i l g = (a', l', g') ∧ a'.Perm a ∧
      PartInv compare pivot a' a'.size l' g'
  | 0, a, i, l, g, h, hf => by
    have := h.lg; have := h.gi; have := h.i_le
    have hi : i = a.size := by omega
    exact ⟨a, l, g, rfl, .rfl, hi ▸ h⟩
  | fuel + 1, a, i, l, g, h, hf => by
    unfold qsortPartition
    rcases hx : a[i]? with _ | x
    · have hi : i = a.size := le_antisymm h.i_le (Array.getElem?_eq_none_iff.mp hx)
      exact ⟨a, l, g, rfl, .rfl, hi ▸ h⟩
    dsimp only
    split_ifs with hlt heq
    · obtain ⟨a', l', g', he, hp', hi'⟩ :=
        qsortPartition_spec fuel _ i (l + 1) g (h.stepLess hx hlt).2 (by simp; omega)
      exact ⟨a', l', g', he, hp'.trans (swap_perm_of a l i), hi'⟩
    · obtain ⟨a', l', g', he, hp', hi'⟩ :=
        qsortPartition_spec fuel _ (i + 1) l (g + 1) (h.stepEqual hx heq) (by simp; omega)
      exact ⟨a', l', g', he, hp'.trans (swap_perm_of a g i), hi'⟩
    · exact qsortPartition_spec fuel a (i + 1) l g (h.stepGreater hx (by omega)) (by omega)

/-! ### The recursion -/

/-- Slices of a permuted array keep any class that all their elements share. -/
theorem forall_extract {a : Array α} {lo hi : Nat} {P : α → Prop}
    (h : ∀ j x, lo ≤ j → j < hi → a[j]? = some x → P x) : ∀ x ∈ a.extract lo hi, P x := by
  intro x hx
  obtain ⟨k, hk, rfl⟩ := Array.mem_iff_getElem.mp hx
  simp only [Array.size_extract] at hk
  refine h (lo + k) _ (by omega) (by omega) ?_
  rw [Array.getElem_extract, Array.getElem?_eq_getElem]

theorem Ordered.append {a b : Array α} (ha : Ordered compare a) (hb : Ordered compare b)
    (hab : ∀ x ∈ a, ∀ y ∈ b, compare x y ≤ 0) : Ordered compare (a ++ b) := by
  intro p q x y hpq hx hy
  rw [Array.getElem?_append] at hx hy
  split_ifs at hx hy with hp hq
  · exact ha p q x y hpq hx hy
  · exact hab x (Array.mem_of_getElem? hx) y (Array.mem_of_getElem? hy)
  · omega
  · exact hb _ _ x y (by omega) hx hy

/-- A sorted part below the pivot, a part equal to it and a sorted part above it. -/
theorem Ordered.three (hc : ThreeWay compare) {pivot : α} {a b c : Array α} (hless : ∀ x ∈ a, compare x pivot < 0)
    (heq : ∀ x ∈ b, compare x pivot = 0) (hgr : ∀ x ∈ c, 0 < compare x pivot) (ha : Ordered compare a)
    (hb : Ordered compare c) : Ordered compare (a ++ b ++ c) := by
  refine Ordered.append (Ordered.append ha ?_ ?_) hb ?_
  · intro p q x y _ hx hy
    have h1 := heq x (Array.mem_of_getElem? hx)
    have h2 := heq y (Array.mem_of_getElem? hy)
    exact hc.le_of_classes h1.le h2.ge
  · intro x hx y hy
    have h1 := hless x hx
    have h2 := heq y hy
    exact hc.le_of_classes (v := pivot) (by omega) (by omega)
  · intro x hx y hy
    have h2 := hgr y hy
    rcases Array.mem_append.mp hx with hx | hx
    · have h1 := hless x hx
      exact hc.le_of_classes (v := pivot) (by omega) (by omega)
    · exact hc.le_of_classes (heq x hx).le (by omega)

theorem extract_three (a : Array α) {l g : Nat} (hlg : l ≤ g) (hg : g ≤ a.size) :
    a.extract 0 l ++ a.extract l g ++ a.extract g a.size = a := by
  rw [Array.extract_append_extract, Nat.zero_min, Nat.max_eq_right hlg, Array.extract_append_extract,
    Nat.zero_min, Nat.max_eq_right hg, Array.extract_size]

theorem qsortFuel_spec (hc : ThreeWay compare) : ∀ (fuel : Nat) (a : Array α), a.size ≤ fuel →
    (qsortFuel compare fuel a).Perm a ∧ Ordered compare (qsortFuel compare fuel a)
  | 0, a, _ => insertSort_spec hc a
  | fuel + 1, a, hf => by
    unfold qsortFuel
    split_ifs with h10
    · exact insertSort_spec hc a
    have h0 : 0 < a.size := by omega
    rw [Array.getElem?_eq_getElem h0]
    dsimp only
    obtain ⟨a', l, g, he, hp, hi⟩ := qsortPartition_spec (2 * a.size) a 1 0 1 (.start hc h0) (by omega)
    rw [he]
    dsimp only
    have hlg := hi.lg; have hg := hi.gi; have hsz := hp.size_eq
    have hspare := hi.lt_of_end
    have ihl := qsortFuel_spec hc fuel (a'.extract 0 l) (by simp; omega)
    have ihr := qsortFuel_spec hc fuel (a'.extract g a'.size) (by simp; omega)
    have hless : ∀ x ∈ qsortFuel compare fuel (a'.extract 0 l), compare x a[0] < 0 := fun x hx =>
      forall_extract (fun j y _ => hi.less j y) x (ihl.1.mem_iff.mp hx)
    have heq : ∀ x ∈ a'.extract l g, compare x a[0] = 0 := forall_extract fun j y => hi.equal j y
    have hgr : ∀ x ∈ qsortFuel compare fuel (a'.extract g a'.size), 0 < compare x a[0] := fun x hx =>
      forall_extract (fun j y hj hj' => hi.greater j y hj hj') x (ihr.1.mem_iff.mp hx)
    constructor
    · have := (ihl.1.append (.refl (a'.extract l g))).append ihr.1
      rw [extract_three a' hlg hg] at this
      exact this.trans hp
    · exact Ordered.three hc hless heq hgr ihl.2 ihr.2

theorem qsort_perm (hc : ThreeWay compare) (a : Array α) : (qsort compare a).Perm a :=
  (qsortFuel_spec hc a.size a le_rfl).1

theorem qsort_ordered (hc : ThreeWay compare) (a : Array α) : Ordered compare (qsort compare a) :=
  (qsortFuel_spec hc a.size a le_rfl).2

end
end Airix
