import Airix.Pmm.Inv

/-!
# The operations keep the buddy invariant

The steps of `pmm_alloc_pages` and `pmm_free_pages` move one block between the areas and the hand:
`Inv.insertBlock` and `Inv.removeBlock` say what one list operation does to the tiling, the loops
iterate them.
-/

namespace Airix.Pmm

theorem Ghost.freeSum_update (areas : Nat → List Nat) {k : Nat} (hk : k < buddyMaxOrder) (l : List Nat) :
    freeSum (Function.update areas k l) + (areas k).length * 2 ^ k = freeSum areas + l.length * 2 ^ k := by
  have hm : k ∈ Finset.range buddyMaxOrder := Finset.mem_range.mpr hk
  unfold freeSum
  rw [← Finset.add_sum_erase _ _ hm, ← Finset.add_sum_erase _ (fun k => (areas k).length * 2 ^ k) hm]
  have : ∀ j ∈ (Finset.range buddyMaxOrder).erase k,
      (Function.update areas k l j).length * 2 ^ j = (areas j).length * 2 ^ j := by
    intro j hj
    rw [Function.update_of_ne (Finset.ne_of_mem_erase hj)]
  rw [Finset.sum_congr rfl this, Function.update_self]
  ring

namespace Inv
variable {s : State} {g : Ghost}

theorem area_unique (h : Inv s g) {p k j : Nat} (hk : k < buddyMaxOrder) (hj : j < buddyMaxOrder)
    (hp : p ∈ g.areas k) (hp' : p ∈ g.areas j) : k = j := by
  have := h.cover.unique (.free p k) ⟨hk, hp⟩ (.free p j) ⟨hj, hp'⟩ p (self_mem_blk p k) (self_mem_blk p j)
  exact (Tile.free.inj this).2

theorem areas_disjoint (h : Inv s g) {k j : Nat} (hk : k < buddyMaxOrder) (hj : j < buddyMaxOrder)
    (hne : k ≠ j) :
    (Node.head k :: (g.areas k).map .page).Disjoint (.head j :: (g.areas j).map .page) := by
  intro n hn hn'
  simp only [List.mem_cons, List.mem_map] at hn hn'
  rcases hn with rfl | ⟨p, hp, rfl⟩ <;> rcases hn' with hn' | ⟨q, hq, hn'⟩
  · cases hn'; exact hne rfl
  · cases hn'
  · cases hn'
  · cases hn'; exact hne (h.area_unique hk hj hp hq)

theorem notMem_areas_of_hand (h : Inv s g) {b j q k : Nat} (hhand : g.hand = some (b, j))
    (hq : q ∈ blk b j) (hk : k < buddyMaxOrder) : q ∉ g.areas k := fun hm =>
  Tile.noConfusion (h.cover.unique (.free q k) ⟨hk, hm⟩ (.hand b j) hhand q (self_mem_blk q k) hq)

theorem node_notMem (h : Inv s g) {b j q : Nat} (hhand : g.hand = some (b, j)) (hq : q ∈ blk b j)
    {k : Nat} (hk : k < buddyMaxOrder) : Node.page q ∉ Node.head k :: (g.areas k).map .page := by
  simp only [List.mem_cons, reduceCtorEq, List.mem_map, Node.page.injEq, exists_eq_right, false_or]
  exact h.notMem_areas_of_hand hhand hq hk

/-! ### One list operation -/

/-- `insert_block_into_area` puts the block `q` of order `k`, cut out of the block in hand, into its
area and leaves `w` in hand. -/
theorem insertBlock (h : Inv s g) {b j q k : Nat} {w : Option (Nat × Nat)}
    (hhand : g.hand = some (b, j)) (hk : k < buddyMaxOrder) (hq : q ∈ blk b j) (hqd : 2 ^ k ∣ q)
    (hB : ExactCover Tile.cells (blk b j) ({.free q k} ∪ handTiles w))
    (hord : ∀ p i, w = some (p, i) → i < buddyMaxOrder ∧ 2 ^ i ∣ p)
    (hsize : 2 ^ k + handSize w = 2 ^ j)
    (hsib : ∀ b', Sibling q b' k → k + 1 < buddyMaxOrder → b' ∉ g.areas k) :
    Inv (insertBlockIntoArea s q k)
      { g with areas := Function.update g.areas k (q :: g.areas k), hand := w } := by
  have hnode : ∀ k < buddyMaxOrder, Node.page q ∉ Node.head k :: (g.areas k).map .page :=
    fun k hk => h.node_notMem hhand hq hk
  have htiles : ∀ t, t ∈ Ghost.tiles
        { g with areas := Function.update g.areas k (q :: g.areas k), hand := w } ↔
      (t ∈ g.tiles ∧ t ∉ ({.hand b j} : Set Tile)) ∨ t ∈ ({.free q k} ∪ handTiles w : Set Tile) := by
    intro t
    cases t with
    | free p i =>
      by_cases hik : i = k
      · subst hik; simp [hk, or_comm]
      · simp [hik]
    | live p i => simp
    | hand p i => simp [hhand]; tauto
    | reserved p => simp
  refine ⟨?_, ?_, ?_, ?_, ?_, ?_, ?_, ?_, ?_, ?_, h.total, h.page_zero⟩
  · intro i hi
    by_cases hik : i = k
    · subst hik
      simp only [Function.update_self, List.map_cons]
      exact (h.ring i hi).insertFront (hnode i hi)
    · simp only [Function.update_of_ne hik]
      exact (h.ring k hk).insertFront_other (h.ring i hi) (hnode k hk) (hnode i hi)
        (h.areas_disjoint hk hi (Ne.symm hik))
  · intro i hi p hp
    simp only [insertBlockIntoArea]
    by_cases hpq : p = q
    · subst hpq
      have hik : i = k := by
        by_contra hik
        simp only [Function.update_of_ne hik] at hp
        exact h.notMem_areas_of_hand hhand hq hi hp
      rw [Function.update_self, hik]
    · rw [Function.update_of_ne hpq]
      by_cases hik : i = k
      · subst hik
        simp only [Function.update_self, List.mem_cons, hpq, false_or] at hp
        exact h.headPage i hi p hp
      · simp only [Function.update_of_ne hik] at hp
        exact h.headPage i hi p hp
  · intro i hi
    simp only [insertBlockIntoArea]
    by_cases hik : i = k
    · subst hik; simp [h.numBlocks i hi]
    · simp [Function.update_of_ne hik, h.numBlocks i hi]
  · have hsum := Ghost.freeSum_update g.areas hk (q :: g.areas k)
    have hn := h.numPages
    rw [hhand] at hn
    simp only [handSize] at hn
    simp only [insertBlockIntoArea, List.length_cons, Nat.add_mul, one_mul] at hsum ⊢
    omega
  · intro t ht
    rcases (htiles t).mp ht with ht | rfl | ht
    · exact h.order_lt t ht.1
    · exact hk
    · obtain ⟨p, i, hp, rfl⟩ := ht; exact (hord p i hp).1
  · intro t ht
    rcases (htiles t).mp ht with ht | rfl | ht
    · exact h.dvd t ht.1
    · exact hqd
    · obtain ⟨p, i, hp, rfl⟩ := ht; exact (hord p i hp).2
  · refine h.cover.replace (A := {.hand b j}) ?_ ?_ htiles
    · rintro _ rfl; exact hhand
    · simpa using hB
  · intro p i hp
    have hne : p ≠ q := by
      rintro rfl
      exact Tile.noConfusion
        (h.cover.unique (.live p i) hp (.hand b j) hhand p (self_mem_blk p i) hq)
    simp only [insertBlockIntoArea, Function.update_of_ne hne]
    exact h.live_flags p i hp
  · intro p hp
    have hne : p ≠ q := by
      rintro rfl
      exact Tile.noConfusion
        (h.cover.unique (.reserved p) hp (.hand b j) hhand p (self_mem_blk p 0) hq)
    simp only [insertBlockIntoArea, Function.update_of_ne hne]
    exact h.reserved_flags p hp
  · intro p i hi hd hp hp'
    by_cases hik : i = k
    · subst hik
      simp only [Function.update_self, List.mem_cons] at hp hp'
      have hpos : 0 < 2 ^ i := by positivity
      rcases hp with rfl | hp <;> rcases hp' with hp' | hp'
      · omega
      · exact hsib _ (.inl ⟨hd, rfl⟩) hi hp'
      · exact hsib p (.inr ⟨hd, hp'.symm⟩) hi hp
      · exact h.siblings p i hi hd hp hp'
    · simp only [Function.update_of_ne hik] at hp hp'
      exact h.siblings p i hi hd hp hp'

/-- Unlinking the free block `q` of order `k` and joining it to the hand. -/
theorem removeBlock (h : Inv s g) {b j q k : Nat} (hk : k < buddyMaxOrder) (hq : q ∈ g.areas k)
    (hcells : blk q k ∪ (⋃ t ∈ handTiles g.hand, t.cells) = blk b j) (hj : j < buddyMaxOrder)
    (hbd : 2 ^ j ∣ b) (hsize : 2 ^ k + handSize g.hand = 2 ^ j) :
    Inv (splitBlockFromArea s q k)
      { g with areas := Function.update g.areas k ((g.areas k).erase q), hand := some (b, j) } := by
  have hnd : (g.areas k).Nodup := ((h.ring k hk).nodup_list).of_map _
  have htiles : ∀ t, t ∈ Ghost.tiles
        { g with areas := Function.update g.areas k ((g.areas k).erase q), hand := some (b, j) } ↔
      (t ∈ g.tiles ∧ t ∉ ({.free q k} ∪ handTiles g.hand : Set Tile)) ∨ t ∈ ({.hand b j} : Set Tile) := by
    intro t
    cases t with
    | free p i =>
      by_cases hik : i = k
      · subst hik; simp [hnd.mem_erase_iff]; tauto
      · simp [hik]
    | live p i => simp
    | hand p i => simp [eq_comm]
    | reserved p => simp
  refine ⟨?_, ?_, ?_, ?_, ?_, ?_, ?_, h.live_flags, h.reserved_flags, ?_, h.total, h.page_zero⟩
  · intro i hi
    have hm : Node.page q ∈ (g.areas k).map .page := List.mem_map_of_mem hq
    by_cases hik : i = k
    · subst hik
      have := (h.ring i hi).unlink hm
      simp only [Function.update_self]
      rwa [List.map_erase (fun a b hab => Node.page.inj hab)]
    · simp only [Function.update_of_ne hik]
      exact (h.ring k hk).unlink_other (h.ring i hi) hm (h.areas_disjoint hk hi (Ne.symm hik))
  · intro i hi p hp
    by_cases hik : i = k
    · subst hik
      simp only [Function.update_self] at hp
      exact h.headPage i hi p (List.mem_of_mem_erase hp)
    · simp only [Function.update_of_ne hik] at hp
      exact h.headPage i hi p hp
  · intro i hi
    simp only [splitBlockFromArea]
    by_cases hik : i = k
    · subst hik; simp [h.numBlocks i hi, List.length_erase_of_mem hq]
    · simp [Function.update_of_ne hik, h.numBlocks i hi]
  · have hsum := Ghost.freeSum_update g.areas hk ((g.areas k).erase q)
    have hn := h.numPages
    have hlen := List.length_erase_of_mem hq
    have hpos := List.length_pos_of_mem hq
    obtain ⟨m, hm⟩ : ∃ m, (g.areas k).length = m + 1 := ⟨(g.areas k).length - 1, by omega⟩
    rw [hlen, hm, Nat.add_sub_cancel, Nat.add_mul, one_mul] at hsum
    simp only [splitBlockFromArea, handSize]
    omega
  · intro t ht
    rcases (htiles t).mp ht with ht | rfl
    · exact h.order_lt t ht.1
    · exact hj
  · intro t ht
    rcases (htiles t).mp ht with ht | rfl
    · exact h.dvd t ht.1
    · exact hbd
  · refine h.cover.replace (A := {.free q k} ∪ handTiles g.hand) ?_ (.singleton _ ?_) htiles
    · rintro t (rfl | ht)
      · exact ⟨hk, hq⟩
      · obtain ⟨p, i, hp, rfl⟩ := ht; exact hp
    · rw [Set.biUnion_union, Set.biUnion_singleton]; exact hcells.symm
  · intro p i hi hd hp hp'
    by_cases hik : i = k
    · subst hik
      simp only [Function.update_self] at hp hp'
      exact h.siblings p i hi hd (List.mem_of_mem_erase hp) (List.mem_of_mem_erase hp')
    · simp only [Function.update_of_ne hik] at hp hp'
      exact h.siblings p i hi hd hp hp'

/-! ### Freeing -/

theorem hand_le (h : Inv s g) {b k : Nat} (hhand : g.hand = some (b, k)) : b + 2 ^ k ≤ s.pagesLen := by
  have hpos : 0 < 2 ^ k := by positivity
  have := h.cover.sub (.hand b k) hhand (show b + 2 ^ k - 1 ∈ blk b k by simp; omega)
  simp only [Set.mem_Iio] at this
  omega

/-- An index that `get_buddy` lets through is inside the page array. -/
theorem sibling_lt (h : Inv s g) {b b' k : Nat} (hhand : g.hand = some (b, k)) (hsib : Sibling b b' k)
    (hlt : b' < s.totalPages) : b' < s.pagesLen := by
  rcases h.total with ht | ⟨-, hlast⟩
  · omega
  have hle := h.hand_le hhand
  have hpos : 0 < 2 ^ k := by positivity
  rcases hsib with ⟨-, rfl⟩ | ⟨-, rfl⟩
  · by_contra hge
    exact Tile.noConfusion (h.cover.unique (.reserved _) hlast (.hand b k) hhand (s.pagesLen - 1)
      (self_mem_blk _ 0) (by simp; omega))
  · omega

/-- `buddy->flags == 0 && buddy->order == order` holds exactly when the buddy is a free block of that
order. Whatever an earlier split or merge left in the page, the buddy of an aligned block is the
first page of its own tile. -/
theorem buddy_free_iff (h : Inv s g) {b b' k : Nat} (hhand : g.hand = some (b, k))
    (hsib : Sibling b b' k) (hlt : b' < s.pagesLen) :
    (s.pages b').flags = 0 ∧ (s.pages b').order = k ↔ b' ∈ g.areas k := by
  have hk : k < buddyMaxOrder := h.order_lt (.hand b k) hhand
  refine ⟨fun hf => ?_, fun hm => by rw [h.headPage k hk b' hm]; exact ⟨rfl, rfl⟩⟩
  obtain ⟨t, ht, hb't⟩ := h.cover.cover b' hlt
  have htd := h.dvd t ht
  have hord : t.order ≤ k := by
    by_contra hgt
    -- a larger tile around the buddy would contain the block in hand
    have hsub : blk (mergeBuddy b b') (k + 1) ⊆ blk t.start t.order :=
      blk_subset_of_meet htd hsib.mergeBuddy_dvd (by omega) hb't
        (by rw [hsib.blk_mergeBuddy]; exact .inr (self_mem_blk b' k))
    have hbt : b ∈ t.cells := hsub (by rw [hsib.blk_mergeBuddy]; exact .inl (self_mem_blk b k))
    have := h.cover.unique t ht (.hand b k) hhand b hbt (self_mem_blk b k)
    rw [this] at hgt
    exact hgt le_rfl
  have hstart : t.start = b' := eq_of_mem_blk_of_le hsib.symm.dvd htd hord hb't
  cases t with
  | free p i =>
    obtain rfl : p = b' := hstart
    rw [h.headPage i ht.1 p ht.2] at hf
    exact hf.2 ▸ ht.2
  | live p i =>
    obtain rfl : p = b' := hstart
    exact absurd hf.1 (h.live_flags p i ht)
  | hand p i =>
    rw [Ghost.hand_mem, hhand] at ht
    cases ht
    exact absurd (self_mem_blk b' k) (Set.disjoint_left.mp hsib.disjoint hb't)
  | reserved p =>
    obtain rfl : p = b' := hstart
    exact absurd hf.1 (h.reserved_flags p ht)

/-- What an operation that runs on the block in hand leaves alone. -/
structure Frame (s s' : State) (R : Set Nat) : Prop where
  pagesLen : s'.pagesLen = s.pagesLen
  totalPages : s'.totalPages = s.totalPages
  pages : ∀ p ∈ R, s'.pages p = s.pages p

theorem Frame.refl (s : State) (R : Set Nat) : Frame s s R := ⟨rfl, rfl, fun _ _ => rfl⟩

theorem Frame.trans {s₁ s₂ s₃ : State} {R : Set Nat} (h : Frame s₁ s₂ R) (h' : Frame s₂ s₃ R) :
    Frame s₁ s₃ R :=
  ⟨h'.pagesLen.trans h.pagesLen, h'.totalPages.trans h.totalPages,
    fun p hp => (h'.pages p hp).trans (h.pages p hp)⟩

theorem frame_insert (h : Inv s g) {b j q k : Nat} (hhand : g.hand = some (b, j)) (hq : q ∈ blk b j) :
    Frame s (insertBlockIntoArea s q k) g.reserved := by
  refine ⟨rfl, rfl, fun p hp => ?_⟩
  have hne : p ≠ q := by
    rintro rfl
    exact Tile.noConfusion (h.cover.unique (.reserved p) hp (.hand b j) hhand p (self_mem_blk p 0) hq)
  simp [insertBlockIntoArea, Function.update_of_ne hne]

/-- Putting the block in hand back as it is, when its sibling is not a free block of its order. -/
theorem insertHand (h : Inv s g) {b k : Nat} (hhand : g.hand = some (b, k))
    (hsib : ∀ b', Sibling b b' k → k + 1 < buddyMaxOrder → b' ∉ g.areas k) :
    Inv (insertBlockIntoArea s b k)
      { g with areas := Function.update g.areas k (b :: g.areas k), hand := none } :=
  h.insertBlock hhand (h.order_lt (.hand b k) hhand) (self_mem_blk b k) (h.dvd (.hand b k) hhand)
    (by rw [handTiles_none, Set.union_empty]; exact .singleton _ rfl) (by simp) (by simp [handSize]) hsib

/-- The merge loop ends with the whole block in some area. -/
theorem freeMerge : ∀ (rounds : Nat) {s : State} {g : Ghost} {b k : Nat}, Inv s g →
    g.hand = some (b, k) → rounds + k = buddyMaxOrder →
    ∃ areas, Inv (freeMerge s b k rounds) { g with areas := areas, hand := none } ∧
      Frame s (freeMerge s b k rounds) g.reserved
  | 0, s, g, b, k, h, hhand, hr => by
    have hk := h.order_lt (.hand b k) hhand
    exact absurd hk (by simp [Tile.order]; omega)
  | rounds + 1, s, g, b, k, h, hhand, hr => by
    have hk : k < buddyMaxOrder := h.order_lt (.hand b k) hhand
    have hb : 2 ^ k ∣ b := h.dvd (.hand b k) hhand
    have hins : (∀ b', Sibling b b' k → k + 1 < buddyMaxOrder → b' ∉ g.areas k) →
        ∃ areas, Inv (insertBlockIntoArea s b k) { g with areas := areas, hand := none } ∧
          Frame s (insertBlockIntoArea s b k) g.reserved := fun hsib =>
      ⟨_, h.insertHand hhand hsib, h.frame_insert hhand (self_mem_blk b k)⟩
    unfold Pmm.freeMerge
    by_cases htop : buddyMaxOrder ≤ k + 1
    · rw [getBuddy_top htop]
      exact hins fun _ _ hlt => absurd hlt (by omega)
    obtain ⟨b', hsib⟩ := exists_sibling hb
    have huniq : ∀ b'', Sibling b b'' k → b'' = b' := by
      intro b'' h''
      rcases hsib with ⟨hd, rfl⟩ | ⟨hd, rfl⟩ <;> rcases h'' with ⟨hd', h''⟩ | ⟨hd', h''⟩
      · exact h''
      · exact absurd (h'' ▸ hd) (not_dvd_add_half hd')
      · exact absurd hd' (not_dvd_add_half hd)
      · omega
    rw [getBuddy_eq (by omega) hsib]
    by_cases hlt : b' < s.totalPages
    · rw [if_pos hlt]
      have hlt' := h.sibling_lt hhand hsib hlt
      have hiff := h.buddy_free_iff hhand hsib hlt'
      by_cases hfree : (s.pages b').flags = 0 ∧ (s.pages b').order = k
      · dsimp only
        rw [if_pos hfree]
        have hcells : blk b' k ∪ (⋃ t ∈ handTiles g.hand, t.cells) = blk (mergeBuddy b b') (k + 1) := by
          rw [hhand, handTiles_some, Set.biUnion_singleton, hsib.blk_mergeBuddy, Set.union_comm]; rfl
        have h' := h.removeBlock hk (hiff.mp hfree) hcells (by omega) hsib.mergeBuddy_dvd
          (by rw [hhand, pow_succ]; simp only [handSize]; omega)
        obtain ⟨areas, hinv, hfr⟩ := freeMerge rounds h' rfl (by omega)
        have hfr₀ : Frame s (splitBlockFromArea s b' k) g.reserved := ⟨rfl, rfl, fun _ _ => rfl⟩
        exact ⟨areas, hinv, hfr₀.trans hfr⟩
      · dsimp only
        rw [if_neg hfree]
        exact hins fun b'' h'' _ => huniq b'' h'' ▸ fun hm => hfree (hiff.mpr hm)
    · rw [if_neg hlt]
      refine hins fun b'' h'' _ hm => ?_
      rw [huniq b'' h''] at hm
      have := h.cover.sub (.free b' k) ⟨hk, hm⟩ (self_mem_blk b' k)
      rcases h.total with ht | ⟨ht, -⟩ <;> simp only [Set.mem_Iio] at this <;> omega

theorem beginFree_pages {p q k : Nat} (hq : q ≠ p) : (beginFree s p k).pages q = s.pages q := by
  simp [beginFree, setPage, Function.update_of_ne hq]

/-- Taking a live block in hand: the first statements of `pmm_free_pages`. -/
theorem liveToHand (h : Inv s g) {p k : Nat} (hhand : g.hand = none) (hp : (p, k) ∈ g.live) :
    Inv (beginFree s p k)
      { g with live := g.live.erase (p, k), hand := some (p, k) } := by
  have hk : k < buddyMaxOrder := h.order_lt (.live p k) hp
  have htiles : ∀ t, t ∈ Ghost.tiles { g with live := g.live.erase (p, k), hand := some (p, k) } ↔
      (t ∈ g.tiles ∧ t ∉ ({.live p k} : Set Tile)) ∨ t ∈ ({.hand p k} : Set Tile) := by
    intro t
    cases t with
    | free q i => simp
    | live q i => simp [and_comm]
    | hand q i => simp [hhand, eq_comm]
    | reserved q => simp
  have hother : ∀ t ∈ g.tiles, t ≠ .live p k → t.start ≠ p := by
    intro t ht hne hs
    exact hne (h.cover.unique t ht (.live p k) hp p (hs ▸ self_mem_blk _ _) (self_mem_blk p k))
  have hpages : ∀ q, q ≠ p → (beginFree s p k).pages q = s.pages q := fun q hq => beginFree_pages hq
  refine ⟨h.ring, ?_, h.numBlocks, ?_, ?_, ?_, ?_, ?_, ?_, h.siblings, h.total, h.page_zero⟩
  · intro i hi q hq
    exact (hpages q (hother (.free q i) ⟨hi, hq⟩ (by simp))).trans (h.headPage i hi q hq)
  · have := h.numPages
    simp only [beginFree, hhand, handSize, orderPages_eq hk] at this ⊢
    omega
  · intro t ht
    rcases (htiles t).mp ht with ht | rfl
    · exact h.order_lt t ht.1
    · exact hk
  · intro t ht
    rcases (htiles t).mp ht with ht | rfl
    · exact h.dvd t ht.1
    · exact h.dvd (.live p k) hp
  · refine h.cover.replace (A := {.live p k}) ?_ (.singleton _ (by simp)) htiles
    rintro _ rfl; exact hp
  · intro q i hq
    obtain ⟨hne, hq⟩ := Finset.mem_erase.mp hq
    refine (hpages q (hother (.live q i) hq ?_)).symm ▸ h.live_flags q i hq
    simpa using hne
  · intro q hq
    exact (hpages q (hother (.reserved q) hq (by simp))).symm ▸ h.reserved_flags q hq

/-- Taking a page in hand that the allocator was not given yet, at initialisation. -/
theorem reservedToHand (h : Inv s g) {p : Nat} (hhand : g.hand = none) (hp : p ∈ g.reserved)
    (hp0 : p ≠ 0) (hlast : s.totalPages ≠ s.pagesLen → p ≠ s.pagesLen - 1) :
    Inv (beginFree s p 0)
      { g with reserved := g.reserved \ {p}, hand := some (p, 0) } := by
  have htiles : ∀ t, t ∈ Ghost.tiles { g with reserved := g.reserved \ {p}, hand := some (p, 0) } ↔
      (t ∈ g.tiles ∧ t ∉ ({.reserved p} : Set Tile)) ∨ t ∈ ({.hand p 0} : Set Tile) := by
    intro t
    cases t with
    | free q i => simp
    | live q i => simp
    | hand q i => simp [hhand, eq_comm]
    | reserved q => simp
  have hother : ∀ t ∈ g.tiles, t ≠ .reserved p → t.start ≠ p := by
    intro t ht hne hs
    exact hne (h.cover.unique t ht (.reserved p) hp p (hs ▸ self_mem_blk _ _) (self_mem_blk p 0))
  have hpages : ∀ q, q ≠ p → (beginFree s p 0).pages q = s.pages q := fun q hq => beginFree_pages hq
  refine ⟨h.ring, ?_, h.numBlocks, ?_, ?_, ?_, ?_, ?_, ?_, h.siblings, ?_, ?_⟩
  · intro i hi q hq
    exact (hpages q (hother (.free q i) ⟨hi, hq⟩ (by simp))).trans (h.headPage i hi q hq)
  · have := h.numPages
    simp only [beginFree, hhand, handSize, orderPages_eq (show 0 < buddyMaxOrder by decide)] at this ⊢
    omega
  · intro t ht
    rcases (htiles t).mp ht with ht | rfl
    · exact h.order_lt t ht.1
    · exact (by decide : 0 < buddyMaxOrder)
  · intro t ht
    rcases (htiles t).mp ht with ht | rfl
    · exact h.dvd t ht.1
    · exact one_dvd p
  · refine h.cover.replace (A := {.reserved p}) ?_ (.singleton _ (by simp)) htiles
    rintro _ rfl; exact hp
  · intro q i hq
    exact (hpages q (hother (.live q i) hq (by simp))).symm ▸ h.live_flags q i hq
  · intro q hq
    exact (hpages q hq.2).symm ▸ h.reserved_flags q hq.1
  · rcases h.total with ht | ⟨ht, hm⟩
    · exact .inl ht
    · by_cases hne : s.totalPages = s.pagesLen
      · exact .inl hne
      · exact .inr ⟨ht, hm, Ne.symm (hlast hne)⟩
  · exact ⟨h.page_zero, Ne.symm hp0⟩

theorem live_ne_zero (h : Inv s g) {p k : Nat} (hp : (p, k) ∈ g.live) : p ≠ 0 := by
  rintro rfl
  exact Tile.noConfusion
    (h.cover.unique (.live 0 k) hp (.reserved 0) h.page_zero 0 (self_mem_blk 0 k) (self_mem_blk 0 0))

/-- `pmm_free_pages` on a live block. -/
theorem pmmFreePages (h : Inv s g) {p k : Nat} (hhand : g.hand = none) (hp : (p, k) ∈ g.live) :
    ∃ areas, Inv (pmmFreePages s p k) { g with areas := areas, live := g.live.erase (p, k) } ∧
      Frame s (pmmFreePages s p k) g.reserved := by
  have hk : k < buddyMaxOrder := h.order_lt (.live p k) hp
  have h' := h.liveToHand hhand hp
  obtain ⟨areas, hinv, hfr⟩ := h'.freeMerge (buddyMaxOrder - k) rfl (by omega)
  unfold Pmm.pmmFreePages
  rw [if_neg (h.live_ne_zero hp)]
  have hfr₀ : Frame s (beginFree s p k) g.reserved := by
    refine ⟨rfl, rfl, fun q hq => beginFree_pages ?_⟩
    rintro rfl
    exact Tile.noConfusion
      (h.cover.unique (.reserved q) hq (.live q k) hp q (self_mem_blk q 0) (self_mem_blk q k))
  refine ⟨areas, ?_, hfr₀.trans hfr⟩
  rw [hhand]; exact hinv

/-- `pmm_free_pages` on a page that the allocator was not given yet. -/
theorem pmmFreePages_reserved (h : Inv s g) {p : Nat} (hhand : g.hand = none) (hp : p ∈ g.reserved)
    (hp0 : p ≠ 0) (hlast : s.totalPages ≠ s.pagesLen → p ≠ s.pagesLen - 1) :
    ∃ areas, Inv (Pmm.pmmFreePages s p 0) { g with areas := areas, reserved := g.reserved \ {p} } ∧
      Frame s (Pmm.pmmFreePages s p 0) (g.reserved \ {p}) := by
  have h' := h.reservedToHand hhand hp hp0 hlast
  obtain ⟨areas, hinv, hfr⟩ := h'.freeMerge buddyMaxOrder rfl rfl
  unfold Pmm.pmmFreePages
  rw [if_neg hp0]
  have hfr₀ : Frame s (beginFree s p 0) (g.reserved \ {p}) :=
    ⟨rfl, rfl, fun q hq => beginFree_pages hq.2⟩
  refine ⟨areas, ?_, hfr₀.trans hfr⟩
  rw [hhand]; exact hinv

/-! ### Allocation -/

/-- The split loop of `alloc_block`: the second halves go to their areas. -/
theorem allocBlockSplit (order : Nat) : ∀ (freeOrder : Nat) {s : State} {g : Ghost} {b : Nat}, Inv s g →
    g.hand = some (b, freeOrder) → order ≤ freeOrder →
    ∃ areas, Inv (Pmm.allocBlockSplit s b order freeOrder) { g with areas := areas, hand := some (b, order) } ∧
      Frame s (Pmm.allocBlockSplit s b order freeOrder) g.reserved
  | 0, s, g, b, h, hhand, ho => by
    obtain rfl : order = 0 := by omega
    refine ⟨g.areas, ?_, Frame.refl s _⟩
    rw [← hhand]; exact h
  | freeOrder + 1, s, g, b, h, hhand, ho => by
    unfold Pmm.allocBlockSplit
    by_cases hlt : freeOrder + 1 > order
    · have hk : freeOrder + 1 < buddyMaxOrder := h.order_lt (.hand b (freeOrder + 1)) hhand
      have hb : 2 ^ (freeOrder + 1) ∣ b := h.dvd (.hand b (freeOrder + 1)) hhand
      have hsib : Sibling b (b + 2 ^ freeOrder) freeOrder := .inl ⟨hb, rfl⟩
      have hq : b + 2 ^ freeOrder ∈ blk b (freeOrder + 1) := by
        rw [blk_succ]; exact .inr (self_mem_blk _ _)
      rw [if_pos hlt, splitBuddy, orderPages_eq (by omega)]
      have h' := h.insertBlock (w := some (b, freeOrder)) hhand (by omega) hq hsib.symm.dvd ?_ ?_ ?_ ?_
      · obtain ⟨areas, hinv, hfr⟩ := h'.allocBlockSplit order freeOrder rfl (by omega)
        exact ⟨areas, hinv, (h.frame_insert hhand hq).trans hfr⟩
      · rw [handTiles_some]
        refine .pair (disjoint_halves b freeOrder).symm ?_
        rw [Tile.cells_free, Tile.cells_hand, blk_succ, Set.union_comm]
      · rintro p i ⟨⟩; exact ⟨by omega, hsib.dvd⟩
      · simp only [handSize, pow_succ]; omega
      · -- the sibling of the second half is the half that stays in hand
        rintro b' (⟨hd, -⟩ | ⟨-, hb'⟩) _ hm
        · exact not_dvd_add_half hb hd
        · obtain rfl : b' = b := by omega
          exact h.notMem_areas_of_hand hhand (self_mem_blk b' _) (by omega) hm
    · obtain rfl : order = freeOrder + 1 := by omega
      rw [if_neg hlt]
      refine ⟨g.areas, ?_, Frame.refl s _⟩
      rw [← hhand]; exact h

/-- The last statements of `alloc_block` and of `pmm_alloc_pages`: the block in hand becomes live. -/
theorem handToLive (h : Inv s g) {p k : Nat} (hhand : g.hand = some (p, k)) :
    Inv { setPage s p ⟨pageFlagUsed, k⟩ with numPages := s.numPages - orderPages k }
      { g with live := insert (p, k) g.live, hand := none } := by
  have hk : k < buddyMaxOrder := h.order_lt (.hand p k) hhand
  have htiles : ∀ t, t ∈ Ghost.tiles { g with live := insert (p, k) g.live, hand := none } ↔
      (t ∈ g.tiles ∧ t ∉ ({.hand p k} : Set Tile)) ∨ t ∈ ({.live p k} : Set Tile) := by
    intro t
    cases t with
    | free q i => simp
    | live q i => simp [or_comm]
    | hand q i => simp [hhand]; tauto
    | reserved q => simp
  have hother : ∀ t ∈ g.tiles, t ≠ .hand p k → t.start ≠ p := by
    intro t ht hne hs
    exact hne (h.cover.unique t ht (.hand p k) hhand p (hs ▸ self_mem_blk _ _) (self_mem_blk p k))
  have hpages : ∀ q, q ≠ p → (setPage s p ⟨pageFlagUsed, k⟩).pages q = s.pages q := by
    intro q hq; simp [setPage, Function.update_of_ne hq]
  refine ⟨h.ring, ?_, h.numBlocks, ?_, ?_, ?_, ?_, ?_, ?_, h.siblings, h.total, h.page_zero⟩
  · intro i hi q hq
    exact (hpages q (hother (.free q i) ⟨hi, hq⟩ (by simp))).trans (h.headPage i hi q hq)
  · have := h.numPages
    simp only [hhand, handSize, orderPages_eq hk] at this ⊢
    omega
  · intro t ht
    rcases (htiles t).mp ht with ht | rfl
    · exact h.order_lt t ht.1
    · exact hk
  · intro t ht
    rcases (htiles t).mp ht with ht | rfl
    · exact h.dvd t ht.1
    · exact h.dvd (.hand p k) hhand
  · refine h.cover.replace (A := {.hand p k}) ?_ (.singleton _ (by simp)) htiles
    rintro _ rfl; exact hhand
  · intro q i hq
    rcases Finset.mem_insert.mp hq with hq | hq
    · cases hq; simp [setPage, pageFlagUsed]
    · exact (hpages q (hother (.live q i) hq (by simp))).symm ▸ h.live_flags q i hq
  · intro q hq
    exact (hpages q (hother (.reserved q) hq (by simp))).symm ▸ h.reserved_flags q hq

/-- A non-empty area never yields `NULL`. -/
theorem allocBlockFromArea (h : Inv s g) {k : Nat} (hk : k < buddyMaxOrder) (hhand : g.hand = none)
    (hn : s.numBlocks k > 0) :
    ∃ p l, g.areas k = p :: l ∧ Pmm.allocBlockFromArea s k = (some p, splitBlockFromArea s p k) ∧
      Inv (splitBlockFromArea s p k)
        { g with areas := Function.update g.areas k l, hand := some (p, k) } := by
  rw [h.numBlocks k hk] at hn
  obtain ⟨p, l, hl⟩ := List.exists_cons_of_length_pos hn
  have hr := h.ring k hk
  rw [hl, List.map_cons] at hr
  refine ⟨p, l, hl, by rw [Pmm.allocBlockFromArea, hr.next_cons], ?_⟩
  have hm : p ∈ g.areas k := hl ▸ List.mem_cons_self
  have h' := h.removeBlock hk hm (b := p) (j := k) (by simp [hhand]) hk (h.dvd (.free p k) ⟨hk, hm⟩)
    (by simp [hhand, handSize])
  rwa [hl, List.erase_cons_head] at h'

/-- `alloc_block` from a non-empty area, with the accounting of `pmm_alloc_pages`. -/
theorem allocBlock (h : Inv s g) {check order : Nat} (hk : check < buddyMaxOrder) (ho : order ≤ check)
    (hhand : g.hand = none) (hn : s.numBlocks check > 0) :
    ∃ p s' areas, Pmm.allocBlock s check order = some (p, s') ∧ p ∈ g.areas check ∧
      Inv { s' with numPages := s'.numPages - orderPages order }
        { g with areas := areas, live := insert (p, order) g.live } ∧
      Frame s s' g.reserved := by
  obtain ⟨p, l, hl, he, h₁⟩ := h.allocBlockFromArea hk hhand hn
  obtain ⟨areas, h₂, hfr⟩ := h₁.allocBlockSplit order check rfl ho
  have h₃ := h₂.handToLive rfl
  have hfr₀ : Frame s (splitBlockFromArea s p check) g.reserved := ⟨rfl, rfl, fun _ _ => rfl⟩
  refine ⟨p, setPage (Pmm.allocBlockSplit (splitBlockFromArea s p check) p order check) p
    ⟨pageFlagUsed, order⟩, areas, by rw [Pmm.allocBlock, he], hl ▸ List.mem_cons_self, ?_,
    (hfr₀.trans hfr).trans ⟨rfl, rfl, fun q hq => ?_⟩⟩
  · rw [hhand]; exact h₃
  · have hne : q ≠ p := by
      rintro rfl
      exact Tile.noConfusion
        (h₂.cover.unique (.reserved q) hq (.hand q order) rfl q (self_mem_blk q 0) (self_mem_blk q order))
    simp [setPage, Function.update_of_ne hne]

theorem allocSearch (h : Inv s g) (hhand : g.hand = none) (order : Nat) : ∀ (rounds check : Nat),
    rounds + check = buddyMaxOrder → order ≤ check →
    (∃ p s' areas, Pmm.allocSearch s order check rounds = some (p, s') ∧
        (∃ k, order ≤ k ∧ k < buddyMaxOrder ∧ p ∈ g.areas k) ∧
        Inv s' { g with areas := areas, live := insert (p, order) g.live } ∧ Frame s s' g.reserved) ∨
      (Pmm.allocSearch s order check rounds = some (0, s) ∧
        ∀ k, check ≤ k → k < buddyMaxOrder → g.areas k = [])
  | 0, check, hr, _ => .inr ⟨rfl, fun k hk hk' => by omega⟩
  | rounds + 1, check, hr, ho => by
    unfold Pmm.allocSearch
    by_cases hn : s.numBlocks check > 0
    · obtain ⟨p, s', areas, he, hm, hinv, hfr⟩ := h.allocBlock (by omega) ho hhand hn
      rw [if_pos hn, he]
      exact .inl ⟨p, _, areas, rfl, ⟨check, ho, by omega, hm⟩, hinv, ⟨hfr.pagesLen, hfr.totalPages, hfr.pages⟩⟩
    · rw [if_neg hn]
      rcases h.allocSearch hhand order rounds (check + 1) (by omega) (by omega) with hok | ⟨he, hempty⟩
      · exact .inl hok
      · refine .inr ⟨he, fun k hk hk' => ?_⟩
        by_cases hkc : k = check
        · subst hkc
          rw [h.numBlocks k hk'] at hn
          exact List.length_eq_zero_iff.mp (by omega)
        · exact hempty k (by omega) hk'

/-- `pmm_alloc_pages`: a block of the order that was asked for becomes live, or no area of that order
or a larger one holds a block. -/
theorem pmmAllocPages (h : Inv s g) (hhand : g.hand = none) (order : Nat) :
    (∃ p s' areas, Pmm.pmmAllocPages s order = some (p, s') ∧ p ≠ 0 ∧
        (∃ k, order ≤ k ∧ k < buddyMaxOrder ∧ p ∈ g.areas k) ∧
        Inv s' { g with areas := areas, live := insert (p, order) g.live } ∧ Frame s s' g.reserved) ∨
      (Pmm.pmmAllocPages s order = some (0, s) ∧ ∀ k, order ≤ k → k < buddyMaxOrder → g.areas k = []) := by
  unfold Pmm.pmmAllocPages
  by_cases ho : order ≤ buddyMaxOrder
  · rcases h.allocSearch hhand order (buddyMaxOrder - order) order (by omega) le_rfl with
      ⟨p, s', areas, he, hm, hinv, hfr⟩ | hr
    · exact .inl ⟨p, s', areas, he, hinv.live_ne_zero (Finset.mem_insert_self _ _), hm, hinv, hfr⟩
    · exact .inr hr
  · rw [Nat.sub_eq_zero_of_le (by omega)]
    exact .inr ⟨rfl, fun k hk hk' => by omega⟩

end Inv

/-! ### Free pages -/

/-- The pages of the free blocks. -/
def freeCells (areas : Nat → List Nat) : Set Nat :=
  {x | ∃ k, k < buddyMaxOrder ∧ ∃ p ∈ areas k, x ∈ blk p k}

theorem Inv.mem_freeCells_iff {s : State} {g : Ghost} (h : Inv s g) (hhand : g.hand = none) {x : Nat} :
    x ∈ freeCells g.areas ↔
      x < s.pagesLen ∧ x ∉ g.reserved ∧ ∀ p k, (p, k) ∈ g.live → x ∉ blk p k := by
  constructor
  · rintro ⟨k, hk, p, hp, hx⟩
    refine ⟨h.cover.sub (.free p k) ⟨hk, hp⟩ hx, fun hr => ?_, fun q i hq hxq => ?_⟩
    · exact Tile.noConfusion (h.cover.unique (.free p k) ⟨hk, hp⟩ (.reserved x) hr x hx (self_mem_blk x 0))
    · exact Tile.noConfusion (h.cover.unique (.free p k) ⟨hk, hp⟩ (.live q i) hq x hx hxq)
  · rintro ⟨hlt, hres, hlive⟩
    obtain ⟨t, ht, hx⟩ := h.cover.cover x hlt
    cases t with
    | free p k => exact ⟨k, ht.1, p, ht.2, hx⟩
    | live p k => exact absurd hx (hlive p k ht)
    | hand p k => rw [Ghost.hand_mem, hhand] at ht; cases ht
    | reserved p =>
      rw [Tile.cells_reserved, blk_zero, Set.mem_singleton_iff] at hx
      exact absurd ht (hx ▸ hres)

/-- The free blocks are a coalesced family over the free pages. -/
theorem Inv.coalesced {s : State} {g : Ghost} (h : Inv s g) :
    Coalesced (buddyMaxOrder - 1) (freeCells g.areas) (fun p k => k < buddyMaxOrder ∧ p ∈ g.areas k) where
  order_le p k hB := by have := hB.1; omega
  dvd p k hB := h.dvd (.free p k) hB
  sub p k hB x hx := ⟨k, hB.1, p, hB.2, hx⟩
  cover := by rintro x ⟨k, hk, p, hp, hx⟩; exact ⟨p, k, ⟨hk, hp⟩, hx⟩
  unique p k q j x hB hB' hx hx' := by
    have := h.cover.unique (.free p k) hB (.free q j) hB' x hx hx'
    exact Tile.free.inj this
  no_siblings p k hk hd hB hB' := h.siblings p k (by omega) hd hB.2 hB'.2

end Airix.Pmm
