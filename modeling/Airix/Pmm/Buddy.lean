import Airix.Pmm.Init

/-!
# The buddy allocator over whole runs

`Reachable` are the states after `pmm_initialize` and any sequence of allocations and of frees of
live blocks. What the area lists hold in such a state is read off the links alone (`FreeBlock`).
-/

namespace Airix.Pmm

/-- The states of a disciplined run, with the blocks that are live in them. -/
inductive Reachable (freeAddr entriesAddr : Nat) (entries : Array MmapEntry) :
    State → Finset (Nat × Nat) → Prop
  | init : Reachable freeAddr entriesAddr entries (pmmInitialize freeAddr entriesAddr entries) ∅
  | alloc {s s' : State} {live : Finset (Nat × Nat)} {order pageNum : Nat} :
    Reachable freeAddr entriesAddr entries s live → pmmAllocPages s order = some (pageNum, s') →
      Reachable freeAddr entriesAddr entries s' (if pageNum = 0 then live else insert (pageNum, order) live)
  | free {s : State} {live : Finset (Nat × Nat)} {pageNum order : Nat} :
    Reachable freeAddr entriesAddr entries s live → (pageNum, order) ∈ live →
      Reachable freeAddr entriesAddr entries (pmmFreePages s pageNum order) (live.erase (pageNum, order))

/-- Pages that are locked or outside every usable region. -/
def reservedPages (freeAddr entriesAddr : Nat) (entries : Array MmapEntry) : Set Nat :=
  {p | Locked freeAddr entriesAddr entries p ∨ ∀ e ∈ entries, ¬ e.Holds p}

/-- The list of area `k` holds the block of order `k` at `p`. -/
def FreeBlock (s : State) (p k : Nat) : Prop :=
  k < buddyMaxOrder ∧ ∃ l : List Nat, s.links.IsRing (.head k) (l.map .page) ∧ p ∈ l

def FreePage (s : State) (x : Nat) : Prop := ∃ p k, FreeBlock s p k ∧ p ≤ x ∧ x < p + 2 ^ k

/-- The representation invariant: `areas k` are the free blocks of order `k` in list order. -/
structure BuddyInvariant (s : State) (areas : Nat → List Nat) (live : Finset (Nat × Nat))
    (reserved : Set Nat) : Prop where
  ring : ∀ k < buddyMaxOrder, s.links.IsRing (.head k) ((areas k).map .page)
  head_page : ∀ k < buddyMaxOrder, ∀ p ∈ areas k, (s.pages p).flags = 0 ∧ (s.pages p).order = k
  num_blocks : ∀ k < buddyMaxOrder, s.numBlocks k = (areas k).length
  num_pages : s.numPages = ∑ k ∈ Finset.range buddyMaxOrder, (areas k).length * orderPages k
  free_inside : ∀ k < buddyMaxOrder, ∀ p ∈ areas k, 2 ^ k ∣ p ∧ p + 2 ^ k ≤ s.totalPages
  live_inside : ∀ p k, (p, k) ∈ live → k < buddyMaxOrder ∧ 2 ^ k ∣ p ∧ p + 2 ^ k ≤ s.totalPages
  free_free : ∀ k < buddyMaxOrder, ∀ j < buddyMaxOrder, ∀ p ∈ areas k, ∀ q ∈ areas j, (p, k) ≠ (q, j) →
    Disjoint (blk p k) (blk q j)
  live_live : ∀ b ∈ live, ∀ b' ∈ live, b ≠ b' → Disjoint (blk b.1 b.2) (blk b'.1 b'.2)
  free_live : ∀ k < buddyMaxOrder, ∀ p ∈ areas k, ∀ b ∈ live, Disjoint (blk p k) (blk b.1 b.2)
  free_reserved : ∀ k < buddyMaxOrder, ∀ p ∈ areas k, Disjoint (blk p k) reserved
  live_reserved : ∀ b ∈ live, Disjoint (blk b.1 b.2) reserved

section
variable {freeAddr entriesAddr : Nat} {entries : Array MmapEntry} {s : State} {live : Finset (Nat × Nat)}

theorem Reachable.inv (h : BootOk freeAddr entriesAddr entries)
    (hr : Reachable freeAddr entriesAddr entries s live) :
    s.pagesLen = maxUsableEnd entries.toList / pageSize ∧
      ∃ areas, Inv s ⟨areas, live, none, keptPages freeAddr entriesAddr entries⟩ := by
  induction hr with
  | init => exact h.pmmInitialize
  | @alloc s s' live order pageNum _ he ih =>
    obtain ⟨hlen, areas, hinv⟩ := ih
    rcases hinv.pmmAllocPages rfl order with ⟨p, s₁, areas', he', hp, -, hinv', hfr⟩ | ⟨he', -⟩
    · obtain ⟨rfl, rfl⟩ := Prod.mk.inj (Option.some.inj (he'.symm.trans he))
      rw [if_neg hp]
      exact ⟨hfr.pagesLen.trans hlen, areas', hinv'⟩
    · obtain ⟨rfl, rfl⟩ := Prod.mk.inj (Option.some.inj (he'.symm.trans he))
      rw [if_pos rfl]
      exact ⟨hlen, areas, hinv⟩
  | @free s live pageNum order _ hm ih =>
    obtain ⟨hlen, areas, hinv⟩ := ih
    obtain ⟨areas', hinv', hfr⟩ := hinv.pmmFreePages rfl hm
    exact ⟨hfr.pagesLen.trans hlen, areas', hinv'⟩

/-- `pmm_alloc_pages` never faults, and a block that it returns was not live. -/
theorem Reachable.alloc_fresh (h : BootOk freeAddr entriesAddr entries)
    (hr : Reachable freeAddr entriesAddr entries s live) (order : Nat) :
    ∃ p s', pmmAllocPages s order = some (p, s') ∧ (p ≠ 0 →
      (p, order) ∉ live ∧ p < maxUsableEnd entries.toList / pageSize) := by
  obtain ⟨hlen, areas, hinv⟩ := hr.inv h
  rcases hinv.pmmAllocPages rfl order with ⟨p, s', areas', he, hp, ⟨k, -, hk, hm⟩, hinv', hfr⟩ | ⟨he, -⟩
  · refine ⟨p, s', he, fun _ => ⟨fun hlive => ?_, ?_⟩⟩
    · exact Tile.noConfusion (hinv.cover.unique (.free p k) ⟨hk, hm⟩ (.live p order) hlive p
        (self_mem_blk p k) (self_mem_blk p order))
    · rw [← hlen]; exact hinv.cover.sub (.free p k) ⟨hk, hm⟩ (self_mem_blk p k)
  · exact ⟨0, s, he, fun h0 => absurd rfl h0⟩

/-! ### The representation invariant -/

theorem Inv.disjoint {g : Ghost} (h : Inv s g) (t t' : Tile) (ht : t ∈ g.tiles) (ht' : t' ∈ g.tiles)
    (hne : t ≠ t') : Disjoint t.cells t'.cells :=
  Set.disjoint_left.mpr fun x hx hx' => hne (h.cover.unique t ht t' ht' x hx hx')

theorem Inv.pagesLen_le {g : Ghost} (h : Inv s g) : s.pagesLen ≤ s.totalPages := by
  rcases h.total with he | he
  · exact he.ge
  · exact he.1

theorem Inv.tile_le {g : Ghost} (h : Inv s g) {t : Tile} (ht : t ∈ g.tiles) :
    t.start + 2 ^ t.order ≤ s.totalPages := by
  have hpos : 0 < 2 ^ t.order := by positivity
  have hlast : t.start + 2 ^ t.order - 1 < s.pagesLen :=
    h.cover.sub t ht (by simp only [Tile.cells, mem_blk]; omega)
  have := h.pagesLen_le
  omega

/-- A block that is free or live has no reserved page. -/
theorem Inv.disjoint_reserved {areas : Nat → List Nat}
    (h : Inv s ⟨areas, live, none, keptPages freeAddr entriesAddr entries⟩)
    (hlen : s.pagesLen = maxUsableEnd entries.toList / pageSize) {t : Tile}
    (ht : t ∈ (⟨areas, live, none, keptPages freeAddr entriesAddr entries⟩ : Ghost).tiles)
    (hne : ∀ p, t ≠ .reserved p) : Disjoint t.cells (reservedPages freeAddr entriesAddr entries) := by
  refine Set.disjoint_left.mpr fun x hx hres => hne x ?_
  have hkept : x ∈ keptPages freeAddr entriesAddr entries := ⟨hlen ▸ h.cover.sub t ht hx, hres⟩
  exact h.cover.unique t ht (.reserved x) hkept x hx (self_mem_blk x 0)

theorem Inv.buddyInvariant {areas : Nat → List Nat}
    (h : Inv s ⟨areas, live, none, keptPages freeAddr entriesAddr entries⟩)
    (hlen : s.pagesLen = maxUsableEnd entries.toList / pageSize) :
    BuddyInvariant s areas live (reservedPages freeAddr entriesAddr entries) where
  ring := h.ring
  head_page k hk p hp := by rw [h.headPage k hk p hp]; exact ⟨rfl, rfl⟩
  num_blocks := h.numBlocks
  num_pages := by
    rw [h.numPages, handSize, Nat.add_zero, Ghost.freeSum]
    refine Finset.sum_congr rfl fun k hk => ?_
    rw [orderPages_eq (Finset.mem_range.mp hk)]
  free_inside k hk p hp := ⟨h.dvd (.free p k) ⟨hk, hp⟩, h.tile_le (t := .free p k) ⟨hk, hp⟩⟩
  live_inside p k hp := ⟨h.order_lt (.live p k) hp, h.dvd (.live p k) hp, h.tile_le (t := .live p k) hp⟩
  free_free k hk j hj p hp q hq hne :=
    h.disjoint (.free p k) (.free q j) ⟨hk, hp⟩ ⟨hj, hq⟩ (by simpa using hne)
  live_live b hb b' hb' hne := by
    refine h.disjoint (.live b.1 b.2) (.live b'.1 b'.2) hb hb' fun he => hne ?_
    exact Prod.ext (Tile.live.inj he).1 (Tile.live.inj he).2
  free_live k hk p hp b hb :=
    h.disjoint (.free p k) (.live b.1 b.2) ⟨hk, hp⟩ hb Tile.noConfusion
  free_reserved k hk p hp :=
    h.disjoint_reserved hlen (t := .free p k) ⟨hk, hp⟩ fun _ => Tile.noConfusion
  live_reserved b hb := h.disjoint_reserved hlen (t := .live b.1 b.2) hb fun _ => Tile.noConfusion

/-- The invariant holds along every run, an allocation never overlaps a live block or a reserved page,
and an area that counts a block has one. -/
theorem buddy_invariant (h : BootOk freeAddr entriesAddr entries)
    (hr : Reachable freeAddr entriesAddr entries s live) :
    (∃ areas, BuddyInvariant s areas live (reservedPages freeAddr entriesAddr entries)) ∧
    (∀ order, ∃ p s', pmmAllocPages s order = some (p, s') ∧ (p ≠ 0 →
      (∀ b ∈ live, Disjoint (blk p order) (blk b.1 b.2)) ∧
        Disjoint (blk p order) (reservedPages freeAddr entriesAddr entries))) ∧
    ∀ k < buddyMaxOrder, 0 < s.numBlocks k → ∃ p s', allocBlockFromArea s k = (some p, s') := by
  obtain ⟨hlen, areas, hinv⟩ := hr.inv h
  refine ⟨⟨areas, hinv.buddyInvariant hlen⟩, fun order => ?_, fun k hk hn => ?_⟩
  · rcases hinv.pmmAllocPages rfl order with ⟨p, s', areas', he, hp, ⟨k, -, hk, hm⟩, hinv', hfr⟩ | ⟨he, -⟩
    · have hb := hinv'.buddyInvariant (hfr.pagesLen.trans hlen)
      have hnew : (p, order) ∈ insert (p, order) live := Finset.mem_insert_self _ _
      have hfresh : (p, order) ∉ live := fun hlive => Tile.noConfusion (hinv.cover.unique (.free p k) ⟨hk, hm⟩
        (.live p order) hlive p (self_mem_blk p k) (self_mem_blk p order))
      refine ⟨p, s', he, fun _ => ⟨fun b hbl => ?_, hb.live_reserved _ hnew⟩⟩
      exact hb.live_live _ hnew b (Finset.mem_insert_of_mem hbl) fun he => hfresh (he ▸ hbl)
    · exact ⟨0, s, he, fun h0 => absurd rfl h0⟩
  · obtain ⟨p, l, -, he, -⟩ := hinv.allocBlockFromArea hk rfl hn
    exact ⟨p, _, he⟩

/-- A boot with 32 MiB, the kernel up to `0x120000` and the memory map at `0x7E08`. -/
def bootMap : Array MmapEntry :=
  #[⟨0x100000, 0, 0x1F00000, 0, 1⟩, ⟨0, 0, 0x9FC00, 0, 1⟩, ⟨0x9FC00, 0, 0x400, 0, 2⟩]

theorem bootMap_ok : BootOk 0x120000 0xC0007E08 bootMap where
  words := by decide
  nonempty := by decide
  disjoint := by decide
  usable_stop := by decide
  kernel := by decide
  map_le := by decide
  reach := by decide

theorem buddy_invariant_boot :
    (∃ areas, BuddyInvariant (pmmInitialize 0x120000 0xC0007E08 bootMap) areas ∅
      (reservedPages 0x120000 0xC0007E08 bootMap)) ∧
    (∀ order, ∃ p s', pmmAllocPages (pmmInitialize 0x120000 0xC0007E08 bootMap) order = some (p, s') ∧
      (p ≠ 0 → (∀ b ∈ (∅ : Finset (Nat × Nat)), Disjoint (blk p order) (blk b.1 b.2)) ∧
        Disjoint (blk p order) (reservedPages 0x120000 0xC0007E08 bootMap))) ∧
    ∀ k < buddyMaxOrder, 0 < (pmmInitialize 0x120000 0xC0007E08 bootMap).numBlocks k →
      ∃ p s', allocBlockFromArea (pmmInitialize 0x120000 0xC0007E08 bootMap) k = (some p, s') :=
  buddy_invariant bootMap_ok .init

/-! ### Canonical free blocks -/

theorem Inv.freeBlock_iff {g : Ghost} (h : Inv s g) {p k : Nat} :
    FreeBlock s p k ↔ k < buddyMaxOrder ∧ p ∈ g.areas k := by
  refine and_congr_right fun hk => ⟨?_, fun hp => ⟨g.areas k, h.ring k hk, hp⟩⟩
  rintro ⟨l, hl, hp⟩
  have hmap : l.map Node.page = (g.areas k).map Node.page := hl.unique (h.ring k hk)
  rwa [← List.map_injective_iff.mpr (fun a b he => Node.page.inj he) hmap]

theorem Inv.freePage_iff {g : Ghost} (h : Inv s g) {x : Nat} : FreePage s x ↔ x ∈ freeCells g.areas := by
  constructor
  · rintro ⟨p, k, hB, hx⟩
    obtain ⟨hk, hp⟩ := h.freeBlock_iff.mp hB
    exact ⟨k, hk, p, hp, mem_blk.mpr hx⟩
  · rintro ⟨k, hk, p, hp, hx⟩
    exact ⟨p, k, h.freeBlock_iff.mpr ⟨hk, hp⟩, mem_blk.mp hx⟩

/-- A live block starts at a page other than 0 below the highest page number, and that page is not free. -/
theorem Reachable.live_spec (h : BootOk freeAddr entriesAddr entries)
    (hr : Reachable freeAddr entriesAddr entries s live) {p k : Nat} (hb : (p, k) ∈ live) :
    p ≠ 0 ∧ p < 0xFFFFF ∧ ¬ FreePage s p := by
  obtain ⟨hlen, areas, hinv⟩ := hr.inv h
  have hbuddy := hinv.buddyInvariant hlen
  refine ⟨?_, ?_, fun hfree => ?_⟩
  · rintro rfl
    refine Set.disjoint_left.mp (hbuddy.live_reserved _ hb) (self_mem_blk 0 k) (.inl (.inr (.inl ?_)))
    decide
  · have hlt : p < s.pagesLen := hinv.cover.sub (.live p k) hb (self_mem_blk p k)
    have := h.maxUsableEnd_le
    rw [hlen] at hlt
    unfold pageSize at hlt
    omega
  · obtain ⟨j, hj, q, hq, hx⟩ := hinv.freePage_iff.mp hfree
    exact Set.disjoint_left.mp (hbuddy.free_live j hj q hq _ hb) hx (self_mem_blk p k)

/-- A live block starts below the end of the usable memory. -/
theorem Reachable.live_lt (h : BootOk freeAddr entriesAddr entries)
    (hr : Reachable freeAddr entriesAddr entries s live) {p k : Nat} (hb : (p, k) ∈ live) :
    p < maxUsableEnd entries.toList / pageSize := by
  obtain ⟨hlen, areas, hinv⟩ := hr.inv h
  rw [← hlen]
  exact hinv.cover.sub (.live p k) hb (self_mem_blk p k)

/-- The free blocks are coalesced over the free pages. -/
theorem Inv.coalesced_freeBlock {g : Ghost} (h : Inv s g) :
    Coalesced (buddyMaxOrder - 1) {x | FreePage s x} (FreeBlock s) := by
  have hF : {x | FreePage s x} = freeCells g.areas := Set.ext fun x => h.freePage_iff
  have hB : FreeBlock s = fun p k => k < buddyMaxOrder ∧ p ∈ g.areas k := by
    funext p k; exact propext h.freeBlock_iff
  rw [hF, hB]
  exact h.coalesced

/-- Allocation fails exactly when no aligned run of that many pages is free. -/
theorem Inv.pmmAllocPages_eq_zero_iff {g : Ghost} (h : Inv s g) (hhand : g.hand = none) {order : Nat}
    (ho : order < buddyMaxOrder) :
    (∃ s', Pmm.pmmAllocPages s order = some (0, s')) ↔
      ¬ ∃ p, 2 ^ order ∣ p ∧ ∀ x, p ≤ x → x < p + 2 ^ order → FreePage s x := by
  constructor
  · rintro ⟨s', he⟩ ⟨p, hp, hrun⟩
    rcases h.pmmAllocPages hhand order with ⟨q, s₁, areas, he', hq, -⟩ | ⟨-, hempty⟩
    · exact hq (Prod.mk.inj (Option.some.inj (he'.symm.trans he))).1
    · obtain ⟨q, j, hB, hj, -⟩ := h.coalesced_freeBlock.exists_of_subset (by omega) hp
        (fun x hx => hrun x (mem_blk.mp hx).1 (mem_blk.mp hx).2)
      obtain ⟨hlt, hm⟩ := h.freeBlock_iff.mp hB
      rw [hempty j hj hlt] at hm
      cases hm
  · intro hno
    rcases h.pmmAllocPages hhand order with ⟨q, -, -, -, -, ⟨k, hok, hk, hm⟩, -⟩ | ⟨he, -⟩
    · refine absurd ⟨q, (pow_dvd_pow 2 hok).trans (h.dvd (.free q k) ⟨hk, hm⟩), fun x hx hx' => ?_⟩ hno
      have := Nat.pow_le_pow_right (by decide : 0 < 2) hok
      exact ⟨q, k, h.freeBlock_iff.mpr ⟨hk, hm⟩, hx, by omega⟩
    · exact ⟨s, he⟩

/-- The free pages are those that are neither reserved nor in a live block. -/
theorem Reachable.freePage_iff (h : BootOk freeAddr entriesAddr entries)
    (hr : Reachable freeAddr entriesAddr entries s live) (x : Nat) :
    FreePage s x ↔ x ∉ reservedPages freeAddr entriesAddr entries ∧ ∀ b ∈ live, x ∉ blk b.1 b.2 := by
  obtain ⟨hlen, areas, hinv⟩ := hr.inv h
  rw [hinv.freePage_iff, hinv.mem_freeCells_iff rfl, hlen]
  constructor
  · rintro ⟨hlt, hkept, hlive⟩
    exact ⟨fun hres => hkept ⟨hlt, hres⟩, fun b hb => hlive b.1 b.2 hb⟩
  · rintro ⟨hres, hlive⟩
    refine ⟨?_, fun hkept => hres hkept.2, fun p k hb => hlive (p, k) hb⟩
    have hheld : ∃ e ∈ entries, e.Holds x := by
      by_contra hno
      exact hres (.inr fun e he hh => hno ⟨e, he, hh⟩)
    obtain ⟨e, he, hh⟩ := hheld
    exact (Nat.le_div_iff_mul_le (by decide : 0 < pageSize)).mpr
      (hh.2.2.trans (le_maxUsableEnd (Array.mem_toList_iff.mpr he) hh.1))

/-- A page leaves the free pages, and nothing else does. -/
theorem Reachable.alloc_page (h : BootOk freeAddr entriesAddr entries)
    (hr : Reachable freeAddr entriesAddr entries s live) :
    ∃ p s', pmmAllocPages s 0 = some (p, s') ∧ (p = 0 → ∀ x, FreePage s' x ↔ FreePage s x) ∧
      (p ≠ 0 → (p, 0) ∉ live ∧ FreePage s p ∧ ∀ x, FreePage s' x ↔ FreePage s x ∧ x ≠ p) := by
  obtain ⟨p, s', he, hfresh⟩ := hr.alloc_fresh h 0
  have hr' := hr.alloc he
  refine ⟨p, s', he, fun h0 x => ?_, fun h0 => ?_⟩
  · rw [if_pos h0] at hr'
    rw [hr'.freePage_iff h, hr.freePage_iff h]
  · rw [if_neg h0] at hr'
    obtain ⟨hlen, areas, hinv⟩ := hr'.inv h
    have hbuddy := hinv.buddyInvariant hlen
    have hmem := Finset.mem_insert_self (p, 0) live
    refine ⟨(hfresh h0).1, (hr.freePage_iff h p).mpr ⟨fun hres => ?_, fun b hb hp => ?_⟩, fun x => ?_⟩
    · exact Set.disjoint_left.mp (hbuddy.live_reserved _ hmem) (self_mem_blk p 0) hres
    · refine Set.disjoint_left.mp (hbuddy.live_live _ hmem b (Finset.mem_insert_of_mem hb) ?_) (self_mem_blk p 0) hp
      rintro rfl
      exact (hfresh h0).1 hb
    · rw [hr'.freePage_iff h, hr.freePage_iff h, Finset.forall_mem_insert, blk_zero, Set.mem_singleton_iff]
      tauto

/-- A page goes back to the free pages. -/
theorem Reachable.free_page (h : BootOk freeAddr entriesAddr entries)
    (hr : Reachable freeAddr entriesAddr entries s live) {p : Nat} (hp : (p, 0) ∈ live) (x : Nat) :
    FreePage (pmmFreePages s p 0) x ↔ FreePage s x ∨ x = p := by
  obtain ⟨hlen, areas, hinv⟩ := hr.inv h
  have hbuddy := hinv.buddyInvariant hlen
  rw [(hr.free hp).freePage_iff h, hr.freePage_iff h]
  constructor
  · rintro ⟨hres, hlive⟩
    by_cases hx : x = p
    · exact .inr hx
    · refine .inl ⟨hres, fun b hb => ?_⟩
      by_cases e : b = (p, 0)
      · rw [e, blk_zero]
        exact hx
      · exact hlive b (Finset.mem_erase.mpr ⟨e, hb⟩)
  · rintro (⟨hres, hlive⟩ | rfl)
    · exact ⟨hres, fun b hb => hlive b (Finset.mem_of_mem_erase hb)⟩
    · refine ⟨fun hres => Set.disjoint_left.mp (hbuddy.live_reserved _ hp) (self_mem_blk x 0) hres, fun b hb hx => ?_⟩
      obtain ⟨hne, hb⟩ := Finset.mem_erase.mp hb
      exact Set.disjoint_left.mp (hbuddy.live_live _ hp b hb (Ne.symm hne)) (self_mem_blk x 0) hx

/-- No two siblings are free, the free pages determine the blocks of every area, and allocation is
complete. -/
theorem buddy_canonical (h : BootOk freeAddr entriesAddr entries)
    (hr : Reachable freeAddr entriesAddr entries s live) :
    (∀ p k, k < 10 → 2 ^ (k + 1) ∣ p → ¬ (FreeBlock s p k ∧ FreeBlock s (p + 2 ^ k) k)) ∧
    (∀ s' live', Reachable freeAddr entriesAddr entries s' live' →
      (∀ x, FreePage s x ↔ FreePage s' x) → ∀ p k, FreeBlock s p k ↔ FreeBlock s' p k) ∧
    (∀ x, FreePage s x ↔
      x ∉ reservedPages freeAddr entriesAddr entries ∧ ∀ b ∈ live, x ∉ blk b.1 b.2) ∧
    ∀ order ≤ 10, (∃ s', pmmAllocPages s order = some (0, s')) ↔
      ¬ ∃ p, 2 ^ order ∣ p ∧ ∀ x, p ≤ x → x < p + 2 ^ order → FreePage s x := by
  obtain ⟨hlen, areas, hinv⟩ := hr.inv h
  have hcoal := hinv.coalesced_freeBlock
  refine ⟨fun p k hk hd hB => ?_, fun s' live' hr' hpages p k => ?_, fun x => ?_, fun order ho => ?_⟩
  · exact hcoal.no_siblings p k hk hd hB.1 hB.2
  · obtain ⟨-, areas', hinv'⟩ := hr'.inv h
    have hcoal' := hinv'.coalesced_freeBlock
    have hF : {x | FreePage s' x} = {x | FreePage s x} := Set.ext fun x => (hpages x).symm
    rw [hF] at hcoal'
    exact ⟨hcoal.eq_of_cells hcoal', hcoal'.eq_of_cells hcoal⟩
  · exact hr.freePage_iff h x
  · exact hinv.pmmAllocPages_eq_zero_iff rfl (by unfold buddyMaxOrder; omega)

/-- Pages of the boot map that `pmm_initialize` frees. -/
theorem bootMap_not_reserved {x : Nat} (hx : 0x400 ≤ x) (hx' : x < 0x800) :
    x ∉ reservedPages 0x120000 0xC0007E08 bootMap := by
  rintro (hL | hn)
  · rw [bootMap_ok.locked_iff, show bootPages 0xC0007E08 bootMap = 8 by decide,
      show kernelPages 0x120000 bootMap = 0x123 by decide] at hL
    omega
  · refine hn ⟨0x100000, 0, 0x1F00000, 0, 1⟩ (by simp [bootMap]) ⟨by decide, ?_, ?_⟩
    · simp only [pageSize]; omega
    · simp only [pageSize, MmapEntry.stop]; omega

/-- The boot map has a free block of the top order, so an allocation succeeds. -/
theorem buddy_canonical_boot :
    ¬ ∃ s', pmmAllocPages (pmmInitialize 0x120000 0xC0007E08 bootMap) 10 = some (0, s') := by
  obtain ⟨-, -, hpages, halloc⟩ := buddy_canonical bootMap_ok .init
  rw [halloc 10 le_rfl, not_not]
  refine ⟨0x400, by decide, fun x hx hx' => (hpages x).mpr ⟨?_, by simp⟩⟩
  exact bootMap_not_reserved hx (by omega)

end
end Airix.Pmm
