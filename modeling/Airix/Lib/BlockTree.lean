import Mathlib.Algebra.BigOperators.Group.Finset.Basic
import Mathlib.Algebra.Order.BigOperators.Group.Finset
import Mathlib.Algebra.Order.Group.Multiset
import Mathlib.Data.Multiset.UnionInter
import Mathlib.Data.Finset.Insert
import Mathlib.Algebra.BigOperators.Group.Multiset.Basic

/-!
# Trees of blocks

A block of height `n + 1` holds `w` pointers to blocks of height `n`, 0 for none; a block of height 0
is a leaf. `nodes` collects the blocks of such a tree with their heights, one occurrence for each
pointer that leads to them, and `forest` those of the trees that hang from an array of pointers.
-/

namespace BlockTree
open Finset

variable {ptr ptr' : Nat → Nat → Nat} {height arr arr' : Nat → Nat} {w num n l b c r i j : Nat}

/-- The blocks of the tree of height `n` at block `b`, each with its height. -/
def nodes (ptr : Nat → Nat → Nat) (w : Nat) : Nat → Nat → Multiset (Nat × Nat)
  | 0, b => {(0, b)}
  | n + 1, b => (n + 1, b) ::ₘ ∑ i ∈ range w, if ptr b i = 0 then 0 else nodes ptr w n (ptr b i)

/-- The trees of the given heights that hang from the first `num` pointers of an array. -/
def forest (ptr : Nat → Nat → Nat) (w num : Nat) (height arr : Nat → Nat) : Multiset (Nat × Nat) :=
  ∑ i ∈ range num, if arr i = 0 then 0 else nodes ptr w (height i) (arr i)

theorem nodes_succ : nodes ptr w (n + 1) b = (n + 1, b) ::ₘ forest ptr w w (fun _ => n) (ptr b) := rfl

theorem nodes_self : (n, b) ∈ nodes ptr w n b := by
  cases n with
  | zero => exact Multiset.mem_singleton_self _
  | succ n => exact Multiset.mem_cons_self _ _

theorem mem_forest {x : Nat × Nat} :
    x ∈ forest ptr w num height arr ↔ ∃ i < num, arr i ≠ 0 ∧ x ∈ nodes ptr w (height i) (arr i) := by
  rw [forest, Multiset.mem_sum]
  refine ⟨fun ⟨i, hi, hx⟩ => ?_, fun ⟨i, hi, hne, hx⟩ => ⟨i, mem_range.2 hi, by rwa [if_neg hne]⟩⟩
  split at hx
  · exact absurd hx (Multiset.notMem_zero _)
  · exact ⟨i, mem_range.1 hi, ‹_›, hx⟩

/-- A block that holds no pointer is all of its tree. -/
theorem nodes_of_empty (h : ∀ i < w, ptr b i = 0) : nodes ptr w n b = {(n, b)} := by
  cases n with
  | zero => rfl
  | succ n =>
    have hs : ∑ i ∈ range w, (if ptr b i = 0 then 0 else nodes ptr w n (ptr b i)) = 0 :=
      sum_eq_zero fun i hi => if_pos (h i (mem_range.1 hi))
    rw [nodes, hs]
    rfl

/-- The tree below a child is a part of the tree. -/
theorem mem_nodes_of_child (h : (l + 1, c) ∈ nodes ptr w n r) (hi : i < w) (hc : ptr c i ≠ 0) :
    (l, ptr c i) ∈ nodes ptr w n r := by
  induction n generalizing r with
  | zero => simp [nodes] at h
  | succ n ih =>
    rw [nodes_succ, Multiset.mem_cons] at h ⊢
    rcases h with h | h
    · obtain ⟨rfl, rfl⟩ : l = n ∧ c = r := by simpa using h
      exact .inr (mem_forest.2 ⟨i, hi, hc, nodes_self⟩)
    · obtain ⟨j, hj, hne, hm⟩ := mem_forest.1 h
      exact .inr (mem_forest.2 ⟨j, hj, hne, ih hm⟩)

theorem mem_forest_of_child (h : (l + 1, c) ∈ forest ptr w num height arr) (hi : i < w) (hc : ptr c i ≠ 0) :
    (l, ptr c i) ∈ forest ptr w num height arr := by
  obtain ⟨j, hj, hne, hm⟩ := mem_forest.1 h
  exact mem_forest.2 ⟨j, hj, hne, mem_nodes_of_child hm hi hc⟩

/-- Every pointer slot of the tree is in use. -/
def Full (ptr : Nat → Nat → Nat) (w : Nat) : Nat → Nat → Prop
  | 0, _ => True
  | n + 1, b => ∀ i < w, ptr b i ≠ 0 ∧ Full ptr w n (ptr b i)

theorem Full.le_card (h : Full ptr w n b) : w ^ n ≤ (nodes ptr w n b).card := by
  induction n generalizing b with
  | zero => exact Nat.le_refl 1
  | succ n ih =>
    have hterm : ∀ i ∈ range w, w ^ n ≤ (if ptr b i = 0 then 0 else nodes ptr w n (ptr b i)).card := by
      intro i hi
      obtain ⟨hne, hfull⟩ := h i (mem_range.1 hi)
      rw [if_neg hne]
      exact ih hfull
    have hsum := sum_le_sum hterm
    rw [sum_const, card_range, Nat.nsmul_eq_mul] at hsum
    rw [nodes, Multiset.card_cons, Multiset.card_sum, Nat.pow_succ, Nat.mul_comm]
    exact Nat.le_succ_of_le hsum

/-! ### What a tree depends on -/

/-- Only the pointers of the inner blocks matter. -/
theorem nodes_congr (h : ∀ l c, (l + 1, c) ∈ nodes ptr w n b → ∀ i < w, ptr' c i = ptr c i) :
    nodes ptr' w n b = nodes ptr w n b := by
  induction n generalizing b with
  | zero => rfl
  | succ n ih =>
    rw [nodes, nodes]
    refine congrArg _ (sum_congr rfl fun i hi => ?_)
    have hi' := mem_range.1 hi
    rw [h n b nodes_self i hi']
    split
    · rfl
    · rename_i hne
      exact ih fun l c hc => h l c (Multiset.mem_cons_of_mem (mem_forest.2 ⟨i, hi', hne, hc⟩))

theorem forest_congr (harr : ∀ i < num, arr' i = arr i)
    (h : ∀ l c, (l + 1, c) ∈ forest ptr w num height arr → ∀ i < w, ptr' c i = ptr c i) :
    forest ptr' w num height arr' = forest ptr w num height arr := by
  rw [forest, forest]
  refine sum_congr rfl fun i hi => ?_
  have hi' := mem_range.1 hi
  rw [harr i hi']
  split
  · rfl
  · rename_i hne
    exact nodes_congr fun l c hc => h l c (mem_forest.2 ⟨i, hi', hne, hc⟩)

/-! ### Adding a block -/

/-- A sum of which one term grew. -/
theorem sum_add_of_eq {M : Type} [AddCommMonoid M] {f f' : Nat → M} {d : M} (hi : i < num)
    (hf : ∀ j < num, j ≠ i → f' j = f j) (hd : f' i = d + f i) :
    ∑ j ∈ range num, f' j = d + ∑ j ∈ range num, f j := by
  have hmem := mem_range.2 hi
  rw [← add_sum_erase _ f' hmem, ← add_sum_erase _ f hmem, hd, add_assoc]
  refine congrArg _ (congrArg _ (sum_congr rfl fun j hj => ?_))
  exact hf j (mem_range.1 (mem_of_mem_erase hj)) (ne_of_mem_erase hj)

theorem forest_set (hi : i < num) (h0 : arr i = 0) (hb : arr' i ≠ 0) (harr : ∀ j < num, j ≠ i → arr' j = arr j) :
    forest ptr w num height arr' = nodes ptr w (height i) (arr' i) + forest ptr w num height arr := by
  refine sum_add_of_eq hi (fun j hj hne => by rw [harr j hj hne]) ?_
  rw [if_neg hb, if_pos h0, add_zero]

theorem nodup_of_mem_forest (hnd : ((forest ptr w num height arr).map Prod.snd).Nodup) (hi : i < num)
    (hne : arr i ≠ 0) : ((nodes ptr w (height i) (arr i)).map Prod.snd).Nodup := by
  refine Multiset.nodup_of_le (Multiset.map_le_map ?_) hnd
  have h := single_le_sum (f := fun i => if arr i = 0 then 0 else nodes ptr w (height i) (arr i))
    (fun _ _ => Multiset.zero_le _) (mem_range.2 hi)
  rwa [if_neg hne] at h

/-- Two trees of a forest without repetition share no block. -/
theorem disjoint_of_mem_forest {x y : Nat × Nat} (hnd : ((forest ptr w num height arr).map Prod.snd).Nodup)
    (hi : i < num) (hj : j < num) (hij : i ≠ j) (hni : arr i ≠ 0) (hnj : arr j ≠ 0)
    (hx : x ∈ nodes ptr w (height i) (arr i)) (hy : y ∈ nodes ptr w (height j) (arr j)) : x.2 ≠ y.2 := by
  let f : Nat → Multiset (Nat × Nat) := fun i => if arr i = 0 then 0 else nodes ptr w (height i) (arr i)
  have hsub : ({i, j} : Finset Nat) ⊆ range num := by
    intro k hk
    rcases mem_insert.1 hk with rfl | hk
    · exact mem_range.2 hi
    · exact mem_singleton.1 hk ▸ mem_range.2 hj
  have hle : f i + f j ≤ ∑ k ∈ range num, f k := by
    rw [← sum_pair hij]
    exact sum_le_sum_of_subset hsub
  have hpair := Multiset.nodup_of_le (Multiset.map_le_map (f := Prod.snd) hle) hnd
  rw [Multiset.map_add, Multiset.nodup_add] at hpair
  have hxi : x ∈ f i := by simpa only [f, if_neg hni] using hx
  have hyj : y ∈ f j := by simpa only [f, if_neg hnj] using hy
  intro he
  exact Multiset.disjoint_left.1 hpair.2.2 (Multiset.mem_map_of_mem _ hxi) (he ▸ Multiset.mem_map_of_mem _ hyj)

/-- Storing the block `b`, which holds no pointer, in a free slot of an inner block `c` of a tree adds
`b` to the tree. -/
theorem nodes_set (hnd : ((nodes ptr w n r).map Prod.snd).Nodup) (hc : (l + 1, c) ∈ nodes ptr w n r)
    (hi : i < w) (h0 : ptr c i = 0) (hci : ptr' c i = b) (hb : b ≠ 0) (hleaf : nodes ptr' w l b = {(l, b)})
    (hptr : ∀ l' x, (l' + 1, x) ∈ nodes ptr w n r → ∀ k < w, (x ≠ c ∨ k ≠ i) → ptr' x k = ptr x k) :
    nodes ptr' w n r = (l, b) ::ₘ nodes ptr w n r := by
  induction n generalizing r with
  | zero => simp [nodes] at hc
  | succ n ih =>
    rw [nodes_succ, Multiset.map_cons, Multiset.nodup_cons] at hnd
    obtain ⟨hr, hnd⟩ := hnd
    have hnr : ∀ y ∈ forest ptr w w (fun _ => n) (ptr r), y.2 ≠ r :=
      fun y hy he => hr (Multiset.mem_map.2 ⟨y, hy, he⟩)
    -- a tree below `r` that does not hold `c` stays
    have hstay : ∀ j < w, ptr r j ≠ 0 → (∀ l' x, (l' + 1, x) ∈ nodes ptr w n (ptr r j) → x ≠ c) →
        nodes ptr' w n (ptr r j) = nodes ptr w n (ptr r j) := by
      intro j hj hne hx
      refine nodes_congr fun l' x hm k hk => hptr l' x ?_ k hk (.inl (hx l' x hm))
      exact Multiset.mem_cons_of_mem (mem_forest.2 ⟨j, hj, hne, hm⟩)
    rw [nodes_succ, nodes_succ, Multiset.cons_swap]
    refine congrArg _ ?_
    rw [nodes_succ, Multiset.mem_cons] at hc
    rcases hc with hc | hc
    · obtain ⟨rfl, rfl⟩ : l = n ∧ c = r := by simpa using hc
      refine sum_add_of_eq (d := {(l, b)}) hi (fun j hj hne => ?_) ?_
      · simp only [hptr l c nodes_self j hj (.inr hne)]
        split
        · rfl
        · rename_i hj0
          exact hstay j hj hj0 fun l' x hx => hnr (l' + 1, x) (mem_forest.2 ⟨j, hj, hj0, hx⟩)
      · rw [hci, if_neg hb, if_pos h0, add_zero]
        exact hleaf
    · obtain ⟨j, hj, hj0, hcj⟩ := mem_forest.1 hc
      have hrc : r ≠ c := (hnr _ hc).symm
      have hsame : ∀ k < w, ptr' r k = ptr r k := fun k hk => hptr n r nodes_self k hk (.inl hrc)
      refine sum_add_of_eq (d := {(l, b)}) hj (fun k hk hkj => ?_) ?_
      · simp only [hsame k hk]
        split
        · rfl
        · rename_i hk0
          exact hstay k hk hk0 fun l' x hx => disjoint_of_mem_forest hnd hk hj hkj hk0 hj0 hx hcj
      · simp only [hsame j hj, if_neg hj0]
        refine ih (nodup_of_mem_forest hnd hj hj0) hcj fun l' x hx => hptr l' x ?_
        exact Multiset.mem_cons_of_mem (mem_forest.2 ⟨j, hj, hj0, hx⟩)

/-- Storing a block that holds no pointer in a free slot of an inner block of a forest. -/
theorem forest_set_inner (hnd : ((forest ptr w num height arr).map Prod.snd).Nodup)
    (hc : (l + 1, c) ∈ forest ptr w num height arr) (hi : i < w) (h0 : ptr c i = 0) (hci : ptr' c i = b)
    (hb : b ≠ 0) (hleaf : nodes ptr' w l b = {(l, b)})
    (hptr : ∀ l' x, (l' + 1, x) ∈ forest ptr w num height arr → ∀ k < w, (x ≠ c ∨ k ≠ i) → ptr' x k = ptr x k) :
    forest ptr' w num height arr = (l, b) ::ₘ forest ptr w num height arr := by
  obtain ⟨j, hj, hj0, hcj⟩ := mem_forest.1 hc
  refine sum_add_of_eq (d := {(l, b)}) hj (fun k hk hkj => ?_) ?_
  · split
    · rfl
    · rename_i hk0
      refine nodes_congr fun l' x hx k' hk' => hptr l' x (mem_forest.2 ⟨k, hk, hk0, hx⟩) k' hk' (.inl ?_)
      exact disjoint_of_mem_forest hnd hk hj hkj hk0 hj0 hx hcj
  · simp only [if_neg hj0]
    exact nodes_set (nodup_of_mem_forest hnd hj hj0) hcj hi h0 hci hb hleaf
      fun l' x hx => hptr l' x (mem_forest.2 ⟨j, hj, hj0, hx⟩)

end BlockTree
