import Airix.Qsort
import Mathlib.Data.List.Basic
import Mathlib.Logic.Function.Basic

/-!
# `qsort` on memory (`lib/qsort.c`)

The function as it runs: `n` elements of `width` bytes at the address `base`, and a copy of the pivot. `compare`
sees the bytes of two elements. The partition loop and the recursion take fuel; out of fuel is `none`. `elems`
are the elements as an array, on which the steps are those of `Airix.qsort`.
-/

namespace Airix.Qsort

/-- The bytes of an element. -/
def Elem (width : Nat) : Type := Fin width → UInt8

def elemAt (mem : Nat → UInt8) (width ptr : Nat) : Elem width := fun k => mem (ptr + k)

def swap (mem : Nat → UInt8) (left right n : Nat) : Nat → UInt8 :=
  if left = right then mem
  else (List.range n).foldl (fun mem i =>
    Function.update (Function.update mem (left + i) (mem (right + i))) (right + i) (mem (left + i))) mem

section
variable {width : Nat} (compare : Elem width → Elem width → Int)

/-- The inner loop of `insert_sort`. -/
def insertSortWhile (base : Nat) : Nat → (Nat → UInt8) → Nat → UInt8
  | 0, mem => mem
  | j + 1, mem =>
    if compare (elemAt mem width (base + (j + 1) * width)) (elemAt mem width (base + j * width)) < 0 then
      insertSortWhile base j (swap mem (base + (j + 1) * width) (base + j * width) width)
    else mem

def insertSort (base n : Nat) (mem : Nat → UInt8) : Nat → UInt8 :=
  (List.range' 1 (n - 1)).foldl (fun mem i => insertSortWhile compare base i mem) mem

/-- The loop of `qsort`. -/
def partition (base n : Nat) (pivot : Elem width) :
    Nat → (Nat → UInt8) → Nat → Nat → Nat → Option ((Nat → UInt8) × Nat × Nat)
  | 0, _, _, _, _ => none
  | fuel + 1, mem, i, l, g =>
    if i < n then
      let result := compare (elemAt mem width (base + i * width)) pivot
      if result < 0 then
        partition base n pivot fuel (swap mem (base + l * width) (base + i * width) width) i (l + 1) g
      else if result = 0 then
        partition base n pivot fuel (swap mem (base + g * width) (base + i * width) width) (i + 1) l (g + 1)
      else partition base n pivot fuel mem (i + 1) l g
    else some (mem, l, g)

def qsort : Nat → (Nat → UInt8) → Nat → Nat → Option (Nat → UInt8)
  | 0, _, _, _ => none
  | fuel + 1, mem, base, n =>
    if n ≤ 10 then some (insertSort compare base n mem)
    else do
      let pivot := elemAt mem width base
      let (mem, l, g) ← partition compare base n pivot fuel mem 1 0 1
      let mem ← qsort fuel mem base l
      qsort fuel mem (base + g * width) (n - g)

end

/-! ### Swapping bytes -/

variable {width : Nat} {mem mem' : Nat → UInt8} {base n i j : Nat}

/-- The loop of `swap` for two blocks that do not overlap. -/
theorem foldl_swap {left right : Nat} (hne : left + n ≤ right ∨ right + n ≤ left) (a : Nat) :
    (List.range n).foldl (fun mem i => Function.update (Function.update mem (left + i) (mem (right + i)))
      (right + i) (mem (left + i))) mem a =
      if left ≤ a ∧ a < left + n then mem (right + (a - left))
      else if right ≤ a ∧ a < right + n then mem (left + (a - right)) else mem a := by
  induction n generalizing a with
  | zero => rw [List.range_zero, List.foldl_nil, if_neg (by omega), if_neg (by omega)]
  | succ n ih =>
    have ih := fun a => ih (by omega) a
    rw [List.range_succ, List.foldl_append, List.foldl_cons, List.foldl_nil]
    by_cases h₁ : a = right + n
    · subst h₁
      rw [Function.update_self, ih, if_neg (by omega), if_neg (by omega), if_neg (by omega), if_pos (by omega)]
      congr 1
      omega
    by_cases h₂ : a = left + n
    · subst h₂
      rw [Function.update_of_ne h₁, Function.update_self, ih, if_neg (by omega), if_neg (by omega), if_pos (by omega)]
      congr 1
      omega
    rw [Function.update_of_ne h₁, Function.update_of_ne h₂, ih]
    split_ifs <;> first | rfl | omega

/-- Different elements have no byte in common. -/
theorem add_le_of_ne (width : Nat) (hne : i ≠ j) : i * width + width ≤ j * width ∨ j * width + width ≤ i * width := by
  rcases Nat.lt_or_gt_of_ne hne with h | h
  · left
    have := Nat.mul_le_mul_right width h
    rwa [Nat.succ_mul] at this
  · right
    have := Nat.mul_le_mul_right width h
    rwa [Nat.succ_mul] at this

theorem elemAt_swap (k : Nat) :
    elemAt (swap mem (base + i * width) (base + j * width) width) width (base + k * width) =
      if k = i then elemAt mem width (base + j * width)
      else if k = j then elemAt mem width (base + i * width) else elemAt mem width (base + k * width) := by
  by_cases hij : i = j
  · subst hij
    rw [swap, if_pos rfl]
    split_ifs with h
    · rw [h]
    · rfl
  funext x
  have hx := x.isLt
  have hd := add_le_of_ne width hij
  rw [elemAt, swap, if_neg (by omega), foldl_swap (by omega)]
  by_cases hi : k = i
  · subst hi
    rw [if_pos (by omega), if_pos rfl, elemAt]
    congr 1
    omega
  have hd' := add_le_of_ne width hi
  rw [if_neg (by omega), if_neg hi]
  by_cases hj : k = j
  · subst hj
    rw [if_pos (by omega), if_pos rfl, elemAt]
    congr 1
    omega
  have hd'' := add_le_of_ne width hj
  rw [if_neg (by omega), if_neg hj, elemAt]

/-! ### The array of the elements -/

/-- The elements of an array in memory. -/
def elems (mem : Nat → UInt8) (width base n : Nat) : Array (Elem width) :=
  Array.ofFn fun i : Fin n => elemAt mem width (base + i * width)

/-- Only the bytes of the array may change. -/
def Within (width base n : Nat) (mem mem' : Nat → UInt8) : Prop :=
  ∀ a, a < base ∨ base + n * width ≤ a → mem' a = mem a

@[simp] theorem size_elems : (elems mem width base n).size = n := Array.size_ofFn

theorem elems_getElem? (i : Nat) :
    (elems mem width base n)[i]? = if i < n then some (elemAt mem width (base + i * width)) else none := by
  rw [elems, Array.getElem?_ofFn]
  split_ifs <;> rfl

theorem elems_of_lt (hi : i < n) : (elems mem width base n)[i]? = some (elemAt mem width (base + i * width)) := by
  rw [elems_getElem?, if_pos hi]

theorem add_le_of_lt (width : Nat) (hi : i < n) : i * width + width ≤ n * width := by
  have := Nat.mul_le_mul_right width hi
  rwa [Nat.succ_mul] at this

theorem elems_swap (hi : i < n) (hj : j < n) :
    elems (swap mem (base + i * width) (base + j * width) width) width base n =
      (elems mem width base n).swapIfInBounds i j := by
  refine Array.ext_getElem? fun k => ?_
  rw [getElem?_swap _ (by simpa using hi) (by simpa using hj), elems_getElem?, elems_of_lt hi, elems_of_lt hj,
    elems_getElem?, elemAt_swap]
  split_ifs with h₁ h₂ h₃ h₄ <;> first | rfl | omega

namespace Within

theorem refl : Within width base n mem mem := fun _ _ => rfl

theorem trans {mem'' : Nat → UInt8} (h : Within width base n mem mem') (h' : Within width base n mem' mem'') :
    Within width base n mem mem'' := fun a ha => (h' a ha).trans (h a ha)

theorem swap (hi : i < n) (hj : j < n) :
    Within width base n mem (swap mem (base + i * width) (base + j * width) width) := by
  intro a ha
  have h₁ := add_le_of_lt width hi
  have h₂ := add_le_of_lt width hj
  rw [Qsort.swap]
  split_ifs with h
  · rfl
  · rw [foldl_swap, if_neg (by omega), if_neg (by omega)]
    have := add_le_of_ne width (show i ≠ j by rintro rfl; exact h rfl)
    omega

/-- Work on a part of the array. -/
theorem part {l m : Nat} (h : Within width (base + l * width) m mem mem') (hlm : l + m ≤ n) :
    Within width base n mem mem' := by
  intro a ha
  have h₁ := Nat.mul_le_mul_right width hlm
  rw [Nat.add_mul] at h₁
  exact h a (by omega)

/-- An element outside of the part does not change. -/
theorem elemAt_eq {l m : Nat} (h : Within width (base + l * width) m mem mem') (hi : i < l ∨ l + m ≤ i) :
    elemAt mem' width (base + i * width) = elemAt mem width (base + i * width) := by
  funext x
  have hx := x.isLt
  refine h _ ?_
  rcases hi with hi | hi
  · have := add_le_of_lt width hi
    omega
  · have := Nat.mul_le_mul_right width hi
    rw [Nat.add_mul] at this
    omega

end Within

/-! ### Insertion sort -/

section
variable {compare : Elem width → Elem width → Int}

theorem insertSortWhile_spec (hj : j < n) : elems (insertSortWhile compare base j mem) width base n =
      insertSortSink compare j (elems mem width base n) ∧
    Within width base n mem (insertSortWhile compare base j mem) := by
  induction j generalizing mem with
  | zero => exact ⟨rfl, .refl⟩
  | succ j ih =>
    rw [insertSortWhile, insertSortSink, elems_of_lt hj, elems_of_lt (by omega)]
    dsimp only
    split_ifs with h
    · obtain ⟨he, hw⟩ := @ih (swap mem (base + (j + 1) * width) (base + j * width) width) (by omega)
      rw [he, elems_swap hj (by omega)]
      exact ⟨rfl, (Within.swap hj (by omega)).trans hw⟩
    · exact ⟨rfl, .refl⟩

theorem foldl_insertSortWhile (m : Nat) : ∀ (i : Nat) (mem : Nat → UInt8), i + m ≤ n →
    elems ((List.range' i m).foldl (fun mem i => insertSortWhile compare base i mem) mem) width base n =
        (List.range' i m).foldl (fun a i => insertSortSink compare i a) (elems mem width base n) ∧
      Within width base n mem ((List.range' i m).foldl (fun mem i => insertSortWhile compare base i mem) mem) := by
  induction m with
  | zero => exact fun i mem _ => ⟨rfl, .refl⟩
  | succ m ih =>
    intro i mem hm
    obtain ⟨he, hw⟩ : elems (insertSortWhile compare base i mem) width base n = _ ∧ _ :=
      insertSortWhile_spec (show i < n by omega)
    obtain ⟨he', hw'⟩ := ih (i + 1) (insertSortWhile compare base i mem) (by omega)
    rw [List.range'_succ, List.foldl_cons, List.foldl_cons, ← he]
    exact ⟨he', hw.trans hw'⟩

theorem insertSort_elems : elems (insertSort compare base n mem) width base n =
      Airix.insertSort compare (elems mem width base n) ∧
    Within width base n mem (insertSort compare base n mem) := by
  rw [Airix.insertSort, size_elems]
  rcases Nat.eq_zero_or_pos n with rfl | hn
  · exact ⟨rfl, .refl⟩
  · exact foldl_insertSortWhile (n - 1) 1 mem (by omega)

/-! ### The partition -/

/-- What the partition loop ends with: `[0, l)` is below, `[l, g)` equal to and `[g, n)` above the pivot. -/
structure Partitioned (compare : Elem width → Elem width → Int) (base n : Nat) (pivot : Elem width)
    (mem mem' : Nat → UInt8) (l g : Nat) : Prop where
  perm : (elems mem' width base n).Perm (elems mem width base n)
  within : Within width base n mem mem'
  inv : PartInv compare pivot (elems mem' width base n) n l g

/-- Every round moves `i` or `l`. -/
theorem partition_spec {pivot : Elem width} (k : Nat) : ∀ (mem : Nat → UInt8) (i l g : Nat),
    PartInv compare pivot (elems mem width base n) i l g → 2 * n ≤ k + i + l →
    ∃ mem' l' g', (∀ fuel, k < fuel → partition compare base n pivot fuel mem i l g = some (mem', l', g')) ∧
      Partitioned compare base n pivot mem mem' l' g' := by
  induction k with
  | zero =>
    intro mem i l g h hk
    have hlg := h.lg; have hgi := h.gi; have hi := h.i_le
    rw [size_elems] at hi
    obtain rfl : i = n := by omega
    refine ⟨mem, l, g, fun fuel hf => ?_, .rfl, .refl, h⟩
    obtain ⟨f, rfl⟩ := Nat.exists_eq_add_one_of_ne_zero (by omega : fuel ≠ 0)
    rw [partition, if_neg (lt_irrefl _)]
  | succ k ih =>
    intro mem i l g h hk
    have hlg := h.lg; have hgi := h.gi; have hi := h.i_le
    rw [size_elems] at hi
    rcases Nat.eq_or_lt_of_le hi with rfl | hi
    · refine ⟨mem, l, g, fun fuel hf => ?_, .rfl, .refl, h⟩
      obtain ⟨f, rfl⟩ := Nat.exists_eq_add_one_of_ne_zero (by omega : fuel ≠ 0)
      rw [partition, if_neg (lt_irrefl _)]
    have hx : (elems mem width base n)[i]? = _ := elems_of_lt hi
    -- one round, whatever the fuel
    have hround : ∀ fuel, k + 1 < fuel → ∃ f, k < f ∧ fuel = f + 1 := fun fuel hf =>
      ⟨fuel - 1, by omega, by omega⟩
    rcases lt_trichotomy (compare (elemAt mem width (base + i * width)) pivot) 0 with hc | hc | hc
    · obtain ⟨hl, h'⟩ := h.stepLess hx hc
      rw [← elems_swap (by omega) hi] at h'
      obtain ⟨mem', l', g', hrun, hp⟩ := ih _ i (l + 1) g h' (by omega)
      refine ⟨mem', l', g', fun fuel hf => ?_, ?_, (Within.swap (by omega) hi).trans hp.within, hp.inv⟩
      · obtain ⟨f, hf', rfl⟩ := hround fuel hf
        rw [partition, if_pos hi, if_pos hc]
        exact hrun f hf'
      · refine hp.perm.trans ?_
        rw [elems_swap (by omega) hi]
        exact swap_perm_of _ _ _
    · have h' := h.stepEqual hx hc
      rw [← elems_swap (by omega) hi] at h'
      obtain ⟨mem', l', g', hrun, hp⟩ := ih _ (i + 1) l (g + 1) h' (by omega)
      refine ⟨mem', l', g', fun fuel hf => ?_, ?_, (Within.swap (by omega) hi).trans hp.within, hp.inv⟩
      · obtain ⟨f, hf', rfl⟩ := hround fuel hf
        rw [partition, if_pos hi, if_neg (by omega), if_pos hc]
        exact hrun f hf'
      · refine hp.perm.trans ?_
        rw [elems_swap (by omega) hi]
        exact swap_perm_of _ _ _
    · obtain ⟨mem', l', g', hrun, hp⟩ := ih mem (i + 1) l g (h.stepGreater hx hc) (by omega)
      refine ⟨mem', l', g', fun fuel hf => ?_, hp⟩
      obtain ⟨f, hf', rfl⟩ := hround fuel hf
      rw [partition, if_pos hi, if_neg (by omega), if_neg (by omega)]
      exact hrun f hf'

/-- The partition that `qsort` starts. -/
theorem partition_start (hc : ThreeWay compare) (mem : Nat → UInt8) (base : Nat) (hn : 0 < n) :
    ∃ mem' l g, (∀ fuel, 2 * n ≤ fuel →
        partition compare base n (elemAt mem width base) fuel mem 1 0 1 = some (mem', l, g)) ∧
      Partitioned compare base n (elemAt mem width base) mem mem' l g := by
  have h0 : 0 < (elems mem width base n).size := by simpa using hn
  have hpivot : (elems mem width base n)[0] = elemAt mem width base := by
    have := (Array.getElem?_eq_getElem h0).symm.trans (elems_of_lt hn)
    rw [Nat.zero_mul, Nat.add_zero] at this
    exact Option.some.inj this
  have hstart := PartInv.start hc h0
  rw [hpivot] at hstart
  obtain ⟨mem', l, g, hrun, hp⟩ := partition_spec (2 * n - 1) mem 1 0 1 hstart (by omega)
  exact ⟨mem', l, g, fun fuel hf => hrun fuel (by omega), hp⟩

/-! ### The recursion -/

/-- The array is sorted. -/
structure Sorted (compare : Elem width → Elem width → Int) (base n : Nat) (mem mem' : Nat → UInt8) : Prop where
  perm : (elems mem' width base n).Perm (elems mem width base n)
  within : Within width base n mem mem'
  ordered : Ordered compare (elems mem' width base n)

theorem elems_extract {l g : Nat} (hlg : l ≤ g) (hg : g ≤ n) :
    (elems mem width base n).extract l g = elems mem width (base + l * width) (g - l) := by
  refine Array.ext_getElem? fun k => ?_
  rw [Array.getElem?_extract, elems_getElem?, elems_getElem?, size_elems, min_eq_left hg, Nat.add_mul, ← Nat.add_assoc]
  split_ifs <;> first | rfl | omega

/-- Work on one part leaves the elements of another. -/
theorem Within.elems_eq {l m l' m' : Nat} (h : Within width (base + l * width) m mem mem')
    (hd : l' + m' ≤ l ∨ l + m ≤ l') :
    elems mem' width (base + l' * width) m' = elems mem width (base + l' * width) m' := by
  refine Array.ext_getElem? fun k => ?_
  rw [elems_getElem?, elems_getElem?]
  split_ifs with hk
  · have he := h.elemAt_eq (i := l' + k) (by omega)
    rw [Nat.add_mul, ← Nat.add_assoc] at he
    rw [he]
  · rfl

/-- The two sorted parts and the equal elements between them. -/
theorem Partitioned.sorted (hc : ThreeWay compare) {pivot : Elem width} {mem₁ mem₂ mem₃ : Nat → UInt8} {l g : Nat}
    (hp : Partitioned compare base n pivot mem mem₁ l g) (h₂ : Sorted compare base l mem₁ mem₂)
    (h₃ : Sorted compare (base + g * width) (n - g) mem₂ mem₃) : Sorted compare base n mem mem₃ := by
  have hlg := hp.inv.lg; have hg := hp.inv.gi
  have hsplit : ∀ mem, elems mem width base n = elems mem width base l ++ elems mem width (base + l * width) (g - l) ++
      elems mem width (base + g * width) (n - g) := fun mem => by
    have h := extract_three (elems mem width base n) hlg (by simpa using hg)
    rw [size_elems, elems_extract (Nat.zero_le l) (by omega), elems_extract hlg hg, elems_extract hg le_rfl,
      Nat.zero_mul, Nat.add_zero, Nat.sub_zero] at h
    exact h.symm
  have hw₂ : Within width (base + 0 * width) l mem₁ mem₂ := by
    rw [Nat.zero_mul, Nat.add_zero]
    exact h₂.within
  -- the left part after the second call, the middle and the right part before it
  have hl : elems mem₃ width base l = elems mem₂ width base l := by
    have h : elems mem₃ width (base + 0 * width) l = elems mem₂ width (base + 0 * width) l :=
      h₃.within.elems_eq (by omega)
    rwa [Nat.zero_mul, Nat.add_zero] at h
  have hm : elems mem₃ width (base + l * width) (g - l) = elems mem₁ width (base + l * width) (g - l) :=
    (h₃.within.elems_eq (by omega)).trans (hw₂.elems_eq (by omega))
  have hr : elems mem₂ width (base + g * width) (n - g) = elems mem₁ width (base + g * width) (n - g) :=
    hw₂.elems_eq (by omega)
  have hpr := h₃.perm
  rw [hr] at hpr
  have he₃ := hsplit mem₃
  rw [hl, hm] at he₃
  refine ⟨?_, hp.within.trans ((hw₂.part (by omega)).trans (h₃.within.part (by omega))), ?_⟩
  · refine Array.Perm.trans ?_ hp.perm
    rw [he₃, hsplit mem₁]
    exact (h₂.perm.append .rfl).append hpr
  · -- the classes of the partition
    have hclass : ∀ {lo hi : Nat} {P : Elem width → Prop}, lo ≤ hi → hi ≤ n →
        (∀ j x, lo ≤ j → j < hi → (elems mem₁ width base n)[j]? = some x → P x) →
        ∀ x ∈ elems mem₁ width (base + lo * width) (hi - lo), P x := by
      intro lo hi P hlo hhi h
      rw [← elems_extract hlo hhi]
      exact forall_extract h
    have hless := hclass (Nat.zero_le l) (by omega) fun j x _ hj => hp.inv.less j x hj
    rw [Nat.zero_mul, Nat.add_zero, Nat.sub_zero] at hless
    have hequal := hclass hlg hg fun j x hj hj' => hp.inv.equal j x hj hj'
    have hgreater := hclass hg le_rfl fun j x hj hj' => hp.inv.greater j x hj hj'
    rw [he₃]
    exact Ordered.three hc (fun x hx => hless x (h₂.perm.mem_iff.mp hx)) hequal
      (fun x hx => hgreater x (hpr.mem_iff.mp hx)) h₂.ordered h₃.ordered

/-- The fuel does not matter once it is more than `2 * n`. -/
theorem qsort_spec (hc : ThreeWay compare) (n : Nat) : ∀ (mem : Nat → UInt8) (base : Nat),
    ∃ mem', (∀ fuel, 2 * n < fuel → qsort compare fuel mem base n = some mem') ∧ Sorted compare base n mem mem' := by
  induction n using Nat.strong_induction_on with
  | _ n ih =>
    intro mem base
    by_cases hn : n ≤ 10
    · obtain ⟨he, hw⟩ : elems (insertSort compare base n mem) width base n = _ ∧ _ := insertSort_elems
      obtain ⟨hp, ho⟩ := insertSort_spec hc (elems mem width base n)
      rw [← he] at hp ho
      refine ⟨_, fun fuel hf => ?_, hp, hw, ho⟩
      obtain ⟨f, rfl⟩ := Nat.exists_eq_add_one_of_ne_zero (by omega : fuel ≠ 0)
      rw [qsort, if_pos hn]
    · obtain ⟨mem₁, l, g, hrun₁, hp⟩ := partition_start hc mem base (by omega : 0 < n)
      have hlt : l < g := PartInv.lt_of_end (by rw [size_elems]; exact hp.inv)
      have hg := hp.inv.gi
      obtain ⟨mem₂, hrun₂, h₂⟩ := ih l (by omega) mem₁ base
      obtain ⟨mem₃, hrun₃, h₃⟩ := ih (n - g) (by omega) mem₂ (base + g * width)
      refine ⟨mem₃, fun fuel hf => ?_, hp.sorted hc h₂ h₃⟩
      obtain ⟨f, rfl⟩ := Nat.exists_eq_add_one_of_ne_zero (by omega : fuel ≠ 0)
      simp only [qsort, if_neg hn, hrun₁ f (by omega), hrun₂ f (by omega), Option.bind_eq_bind, Option.bind_some]
      exact hrun₃ f (by omega)

/-- `qsort` ends, and it sorts; every partition ends with its three regions. -/
theorem qsort_sorts (hc : ThreeWay compare) (mem : Nat → UInt8) (base n : Nat) :
    (∃ mem', (∀ fuel, 2 * n < fuel → qsort compare fuel mem base n = some mem') ∧
      (elems mem' width base n).Perm (elems mem width base n) ∧ Within width base n mem mem' ∧
      ∀ i j, i ≤ j → j < n →
        compare (elemAt mem' width (base + i * width)) (elemAt mem' width (base + j * width)) ≤ 0) ∧
    (10 < n → ∃ mem' l g, (∀ fuel, 2 * n ≤ fuel →
        partition compare base n (elemAt mem width base) fuel mem 1 0 1 = some (mem', l, g)) ∧
      (elems mem' width base n).Perm (elems mem width base n) ∧ l < g ∧ g ≤ n ∧
      (∀ i < l, compare (elemAt mem' width (base + i * width)) (elemAt mem width base) < 0) ∧
      (∀ i, l ≤ i → i < g → compare (elemAt mem' width (base + i * width)) (elemAt mem width base) = 0) ∧
      ∀ i, g ≤ i → i < n → 0 < compare (elemAt mem' width (base + i * width)) (elemAt mem width base)) := by
  refine ⟨?_, fun hn => ?_⟩
  · obtain ⟨mem', hrun, hs⟩ := qsort_spec hc n mem base
    refine ⟨mem', hrun, hs.perm, hs.within, fun i j hij hj => ?_⟩
    exact hs.ordered i j _ _ hij (elems_of_lt (by omega)) (elems_of_lt hj)
  · obtain ⟨mem', l, g, hrun, hp⟩ := partition_start hc mem base (by omega : 0 < n)
    have hlt : l < g := PartInv.lt_of_end (by rw [size_elems]; exact hp.inv)
    have hg := hp.inv.gi
    refine ⟨mem', l, g, hrun, hp.perm, hlt, hg, fun i hi => ?_, fun i hi hi' => ?_, fun i hi hi' => ?_⟩
    · exact hp.inv.less i _ hi (elems_of_lt (by omega))
    · exact hp.inv.equal i _ hi hi' (elems_of_lt (by omega))
    · exact hp.inv.greater i _ hi hi' (elems_of_lt hi')

end

/-- Twelve bytes in descending order. -/
theorem qsort_sorts_bytes :
    (qsort (fun x y : Elem 1 => (x 0).toNat - (y 0).toNat) 25 (fun a => 12 - a.toUInt8) 0 12).map
      (fun mem => (List.range 12).map mem) = some [1, 2, 3, 4, 5, 6, 7, 8, 9, 10, 11, 12] ∧
    ∃ mem', (∀ fuel, 2 * 12 < fuel →
      qsort (fun x y : Elem 1 => (x 0).toNat - (y 0).toNat) fuel (fun a => 12 - a.toUInt8) 0 12 = some mem') := by
  have hc : ThreeWay (fun x y : Elem 1 => ((x 0).toNat : Int) - (y 0).toNat) :=
    ⟨fun x y => by omega, fun x y z hxy hyz => by omega⟩
  obtain ⟨⟨mem', hrun, -⟩, -⟩ := qsort_sorts hc (fun a => 12 - a.toUInt8) 0 12
  exact ⟨by decide +kernel, mem', hrun⟩

end Airix.Qsort
