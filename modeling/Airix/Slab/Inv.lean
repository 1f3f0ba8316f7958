import Airix.Slab.Model

/-!
# The slab invariant

`lists (c, w)` are the pages of list `w` of cache `c`. Which list a page is in is a function of its `avail`
(`listOf`), and its free objects and its live objects together are its slots (`PageInv`).
-/

namespace Airix.Slab

/-- A live object: the cache it is from and the bytes that were asked for. -/
structure Live where
  cache : Cache
  bytes : Nat

def listOf (x : SlabPage) : SlabList :=
  if x.avail = 0 then .fullSlab else if x.avail = x.limit then .freeSlab else .partialSlab

structure CacheOk (c : KmemCache) : Prop where
  object_le : c.objectSize ≤ c.size
  size_pos : 0 < c.size
  size_le : c.size ≤ 4068
  align_dvd : c.align ∣ c.size
  align_page : c.align ∣ pageSize

def SlabPage.slot (x : SlabPage) (size j : Nat) : Nat := x.objectBase + j * size

structure PageInv (size : Nat) (live : Nat → Option Live) (a : Nat) (x : SlabPage) : Prop where
  limit : x.limit = slabLimit size
  base : x.objectBase = a + (pageSize - x.limit * size)
  avail_le : x.avail ≤ x.limit
  slots : ∀ i < x.avail, ∃ j < x.limit, x.free i = x.slot size j
  inj : ∀ i < x.avail, ∀ i' < x.avail, x.free i = x.free i' → i = i'
  live_iff : ∀ j < x.limit, (live (x.slot size j)).isSome ↔ ∀ i < x.avail, x.free i ≠ x.slot size j

/-- The page frame behind a virtual address of the kernel window. -/
def frame (a : Nat) : Nat := pageNumber (castVirtualToPhysical a)

structure PageAddr (a : Nat) : Prop where
  aligned : a % pageSize = 0
  lt : a < 2 ^ 32

/-! ### Slots of a page -/

theorem slabLimit_mul_le (size : Nat) : slabLimit size * size + slabLimit size * 4 ≤ 4072 := by
  rw [← Nat.mul_add]; exact Nat.div_mul_le_self _ _

theorem slabLimit_pos {size : Nat} (h : size ≤ 4068) : 0 < slabLimit size := by
  refine Nat.div_pos ?_ (by unfold sizeofPtr; omega)
  simp only [pageSize, sizeofSlabPage, sizeofPtr]
  omega

namespace PageInv
variable {size a : Nat} {live live' : Nat → Option Live} {x : SlabPage}

/-- The slots lie behind the header and the pointer array, and inside the page. -/
theorem slot_bounds (h : PageInv size live a x) {j : Nat} (hj : j < x.limit) :
    a + (sizeofSlabPage - sizeofPtr) + sizeofPtr * x.limit ≤ x.slot size j ∧
      x.slot size j + size ≤ a + pageSize := by
  have h₁ : j * size + size ≤ x.limit * size := by
    rw [← Nat.succ_mul]; exact Nat.mul_le_mul_right _ hj
  have h₂ := slabLimit_mul_le size
  rw [← h.limit] at h₂
  rw [SlabPage.slot, h.base]
  simp only [pageSize, sizeofSlabPage, sizeofPtr]
  omega

theorem virtToPage_slot (h : PageInv size live a x) (ha : PageAddr a) (hs : 0 < size) {j : Nat}
    (hj : j < x.limit) : virtToPage (x.slot size j) = a := by
  have hb := h.slot_bounds hj
  have ha' := ha.aligned
  simp only [virtToPage, pageSize, sizeofSlabPage, sizeofPtr] at *
  omega

theorem slot_inj (hs : 0 < size) {j j' : Nat} (he : x.slot size j = x.slot size j') : j = j' := by
  simp only [SlabPage.slot] at he
  exact Nat.eq_of_mul_eq_mul_right hs (by omega)

theorem slot_pos (h : PageInv size live a x) {j : Nat} (hj : j < x.limit) : x.slot size j ≠ 0 := by
  have := (h.slot_bounds hj).1
  simp only [sizeofSlabPage, sizeofPtr] at this
  omega

theorem congr (h : PageInv size live a x) (hl : ∀ j < x.limit, live' (x.slot size j) = live (x.slot size j)) :
    PageInv size live' a x :=
  { h with live_iff := fun j hj => by rw [hl j hj]; exact h.live_iff j hj }

end PageInv

/-- A page after its last free object was handed out. -/
def SlabPage.taken (x : SlabPage) : SlabPage := { x with avail := x.avail - 1 }

/-- A page after an object came back. -/
def SlabPage.given (x : SlabPage) (obj : Nat) : SlabPage :=
  { x with free := Function.update x.free x.avail obj, avail := x.avail + 1 }

namespace PageInv
variable {size a : Nat} {live : Nat → Option Live} {x : SlabPage}

theorem taken (h : PageInv size live a x) (hx : x.avail ≠ 0) (l : Live) :
    PageInv size (Function.update live (x.free (x.avail - 1)) (some l)) a x.taken where
  limit := h.limit
  base := h.base
  avail_le := (Nat.sub_le _ _).trans h.avail_le
  slots i hi := h.slots i (Nat.lt_of_lt_of_le hi (Nat.sub_le _ _))
  inj i hi i' hi' := h.inj i (Nat.lt_of_lt_of_le hi (Nat.sub_le _ _)) i' (Nat.lt_of_lt_of_le hi' (Nat.sub_le _ _))
  live_iff j hj := by
    show (Function.update live _ _ (x.slot size j)).isSome ↔ ∀ i < x.avail - 1, x.free i ≠ x.slot size j
    by_cases e : x.slot size j = x.free (x.avail - 1)
    · rw [e, Function.update_self]
      refine ⟨fun _ i hi he => ?_, fun _ => rfl⟩
      have := h.inj i (by omega) (x.avail - 1) (by omega) he
      omega
    · rw [Function.update_of_ne e, h.live_iff j hj]
      refine ⟨fun hall i hi => hall i (by omega), fun hall i hi => ?_⟩
      by_cases ei : i = x.avail - 1
      · rw [ei]; exact Ne.symm e
      · exact hall i (by omega)

theorem free_none (h : PageInv size live a x) {i : Nat} (hi : i < x.avail) : live (x.free i) = none := by
  obtain ⟨j, hj, hfree⟩ := h.slots i hi
  by_contra hsome
  exact (h.live_iff j hj).mp (by rw [← hfree]; exact Option.isSome_iff_ne_none.mpr hsome) i hi hfree

/-- A live object can come back: there is room for it, and it is not in the array. -/
theorem given (h : PageInv size live a x) (hs : 0 < size) {j : Nat} (hj : j < x.limit)
    (hlive : (live (x.slot size j)).isSome) :
    PageInv size (Function.update live (x.slot size j) none) a (x.given (x.slot size j)) ∧ x.avail < x.limit := by
  have hnot := (h.live_iff j hj).mp hlive
  have hlt : x.avail < x.limit := by
    -- the free objects are distinct slots other than this one
    choose! f hf using h.slots
    have hinj : Set.InjOn f (Finset.range x.avail) := by
      intro i hi i' hi' he
      simp only [Finset.coe_range, Set.mem_Iio] at hi hi'
      exact h.inj i hi i' hi' (by rw [(hf i hi).2, (hf i' hi').2, he])
    have hmaps : ∀ i ∈ Finset.range x.avail, f i ∈ (Finset.range x.limit).erase j := by
      intro i hi
      rw [Finset.mem_range] at hi
      refine Finset.mem_erase.mpr ⟨?_, Finset.mem_range.mpr (hf i hi).1⟩
      rintro rfl
      exact hnot i hi (hf i hi).2
    have hcard := Finset.card_le_card_of_injOn f hmaps hinj
    rw [Finset.card_range, Finset.card_erase_of_mem (Finset.mem_range.mpr hj), Finset.card_range] at hcard
    omega
  have hfree : ∀ i, (x.given (x.slot size j)).free i = if i = x.avail then x.slot size j else x.free i := by
    intro i
    by_cases e : i = x.avail
    · simp [SlabPage.given, e]
    · simp [SlabPage.given, e]
  have havail : (x.given (x.slot size j)).avail = x.avail + 1 := rfl
  refine ⟨{ limit := h.limit, base := h.base, avail_le := hlt, slots := ?_, inj := ?_, live_iff := ?_ }, hlt⟩
  · intro i hi
    rw [havail] at hi
    rw [hfree]
    split_ifs with e
    · exact ⟨j, hj, rfl⟩
    · exact h.slots i (by omega)
  · intro i hi i' hi' he
    rw [havail] at hi hi'
    rw [hfree, hfree] at he
    split_ifs at he with e e' e'
    · omega
    · exact absurd he.symm (hnot i' (by omega))
    · exact absurd he (hnot i (by omega))
    · exact h.inj i (by omega) i' (by omega) he
  · intro j' hj'
    show (Function.update live _ _ (x.slot size j')).isSome ↔ ∀ i < x.avail + 1, _ ≠ x.slot size j'
    by_cases e : j' = j
    · subst e
      rw [Function.update_self]
      refine ⟨fun hf => absurd hf (by simp), fun hall => ?_⟩
      exact absurd (by rw [hfree, if_pos rfl]) (hall x.avail (by omega))
    · have hne : x.slot size j' ≠ x.slot size j := fun he => e (slot_inj hs he)
      rw [Function.update_of_ne hne, h.live_iff j' hj']
      refine ⟨fun hall i hi => ?_, fun hall i hi => ?_⟩
      · rw [hfree]
        split_ifs with ei
        · exact Ne.symm hne
        · exact hall i (by omega)
      · have := hall i (by omega)
        rwa [hfree, if_neg (by omega)] at this

end PageInv

/-! ### The whole allocator -/

/-- Take `a` out of list `k` and put it in front of list `k'`. -/
def moved {κ : Type*} [DecidableEq κ] (lists : κ → List Nat) (k k' : κ) (a : Nat) : κ → List Nat :=
  let lists := Function.update lists k ((lists k).erase a)
  Function.update lists k' (a :: lists k')

structure Inv (freeAddr entriesAddr : Nat) (entries : Array Pmm.MmapEntry) (V : Set Cache) (s : State)
    (live : Nat → Option Live) (others : Finset (Nat × Nat)) (lists : Cache × SlabList → List Nat) : Prop where
  static : .cacheCache ∈ V ∧ ∀ i < 9, .kmalloc i ∈ V
  cacheOk : ∀ c ∈ V, CacheOk (s.caches c)
  rings : s.links.Rings (fun k : Cache × SlabList => .head k.1 k.2) {k | k.1 ∈ V} (fun k => (lists k).map .page)
  page : ∀ k, ∀ a ∈ lists k, k.1 ∈ V ∧ (s.slabs a).cache = k.1 ∧ listOf (s.slabs a) = k.2 ∧ PageAddr a ∧
    PageInv (s.caches k.1).size live a (s.slabs a)
  live : ∀ obj l, live obj = some l → l.bytes ≤ (s.caches l.cache).size ∧
    ∃ w, ∃ a ∈ lists (l.cache, w), ∃ j < (s.slabs a).limit, obj = (s.slabs a).slot (s.caches l.cache).size j
  pmm : ∃ L, Pmm.Reachable freeAddr entriesAddr entries s.pmm L ∧ others ⊆ L ∧
    ∀ b, b ∈ L ∧ b ∉ others ↔ ∃ k, ∃ a ∈ lists k, b = (frame a, 0)

section
variable {freeAddr entriesAddr : Nat} {entries : Array Pmm.MmapEntry} {V : Set Cache} {s : State}
  {live : Nat → Option Live} {others : Finset (Nat × Nat)} {lists : Cache × SlabList → List Nat}
  {k : Cache × SlabList} {a : Nat}

namespace Inv

theorem lists_nodup (h : Inv freeAddr entriesAddr entries V s live others lists) (hk : k.1 ∈ V) :
    (lists k).Nodup :=
  List.Nodup.of_map _ (h.rings.ring k hk).nodup_list

theorem list_unique (h : Inv freeAddr entriesAddr entries V s live others lists) {k' : Cache × SlabList}
    (ha : a ∈ lists k) (ha' : a ∈ lists k') : k = k' := by
  obtain ⟨-, hc, hw, -⟩ := h.page k a ha
  obtain ⟨-, hc', hw', -⟩ := h.page k' a ha'
  exact Prod.ext (hc.symm.trans hc') (hw.symm.trans hw')

theorem mem_moved (h : Inv freeAddr entriesAddr entries V s live others lists) (ha : a ∈ lists k)
    {k' j : Cache × SlabList} {b : Nat} : b ∈ moved lists k k' a j ↔ (b = a ∧ j = k') ∨ (b ≠ a ∧ b ∈ lists j) := by
  have herase : ∀ j, b ∈ Function.update lists k ((lists k).erase a) j ↔ b ≠ a ∧ b ∈ lists j := by
    intro j
    by_cases e : j = k
    · subst e
      rw [Function.update_self, (h.lists_nodup (h.page j a ha).1).mem_erase_iff]
    · rw [Function.update_of_ne e]
      refine ⟨fun hb => ⟨?_, hb⟩, fun hb => hb.2⟩
      rintro rfl
      exact e (h.list_unique hb ha)
  unfold moved
  by_cases e : j = k'
  · subst e
    rw [Function.update_self, List.mem_cons, herase]
    simp
  · rw [Function.update_of_ne e, herase]
    simp [e]

theorem moved_rings (h : Inv freeAddr entriesAddr entries V s live others lists) (ha : a ∈ lists k)
    (k' : Cache × SlabList) (hk' : k'.1 ∈ V) :
    ((s.links.unlink (.page a)).insertFront (.head k'.1 k'.2) (.page a)).Rings
      (fun k : Cache × SlabList => Node.head k.1 k.2) {k | k.1 ∈ V} (fun j => (moved lists k k' a j).map .page) := by
  have hk := (h.page k a ha).1
  have h₁ := h.rings.unlink (k := k) hk (List.mem_map_of_mem ha)
  have hmap : ∀ (f : Cache × SlabList → List Nat) (j : Cache × SlabList) (l : List Nat),
      Function.update (fun k => (f k).map Node.page) j (l.map Node.page) =
        fun i => (Function.update f j l i).map Node.page := by
    intro f j l
    funext i
    by_cases e : i = j
    · subst e; simp
    · simp [e]
  rw [← List.map_erase (fun _ _ e => Node.page.inj e), hmap] at h₁
  have h₂ := h₁.insertFront (k := k') (n := .page a) hk' (by
    intro j hj hm
    have hm' : a ∈ Function.update lists k ((lists k).erase a) j := by simpa using hm
    by_cases e : j = k
    · subst e
      rw [Function.update_self, (h.lists_nodup hj).mem_erase_iff] at hm'
      exact hm'.1 rfl
    · rw [Function.update_of_ne e] at hm'
      exact e (h.list_unique hm' ha))
  rw [← List.map_cons, hmap] at h₂
  exact h₂

/-- One page and one of its objects change, and the page goes to the list of its new `avail`. -/
theorem touch (h : Inv freeAddr entriesAddr entries V s live others lists) (ha : a ∈ lists k) {x : SlabPage}
    {s' : State} {obj : Nat} {l : Option Live} {lists' : Cache × SlabList → List Nat}
    (hslabs : s'.slabs = Function.update s.slabs a x) (hcaches : s'.caches = s.caches) (hpmm : s'.pmm = s.pmm)
    (hcache : x.cache = k.1) (hlimit : x.limit = (s.slabs a).limit) (hbase : x.objectBase = (s.slabs a).objectBase)
    (hobj : ∃ j < x.limit, obj = x.slot (s.caches k.1).size j)
    (hpage : PageInv (s.caches k.1).size (Function.update live obj l) a x)
    (hl : ∀ y, l = some y → y.cache = k.1 ∧ y.bytes ≤ (s.caches k.1).size)
    (hrings : s'.links.Rings (fun k : Cache × SlabList => .head k.1 k.2) {k | k.1 ∈ V} (fun j => (lists' j).map .page))
    (hmem : ∀ j b, b ∈ lists' j ↔ (b = a ∧ j = (k.1, listOf x)) ∨ (b ≠ a ∧ b ∈ lists j)) :
    Inv freeAddr entriesAddr entries V s' (Function.update live obj l) others lists' := by
  obtain ⟨hV, -, -, haddr, hinv⟩ := h.page k a ha
  have hpos := (h.cacheOk k.1 hV).size_pos
  have hvirt : virtToPage obj = a := by
    obtain ⟨j, hj, rfl⟩ := hobj
    exact hpage.virtToPage_slot haddr hpos hj
  refine ⟨h.static, by rw [hcaches]; exact h.cacheOk, hrings, fun j b hb => ?_, fun o y ho => ?_, ?_⟩
  · rw [hslabs, hcaches]
    rcases (hmem j b).mp hb with ⟨rfl, rfl⟩ | ⟨hne, hb⟩
    · rw [Function.update_self]
      exact ⟨hV, hcache, rfl, haddr, hpage⟩
    · obtain ⟨hVj, hc, hw, hb', hinv'⟩ := h.page j b hb
      rw [Function.update_of_ne hne]
      refine ⟨hVj, hc, hw, hb', hinv'.congr fun i hi => Function.update_of_ne ?_ _ _⟩
      intro e
      exact hne (by rw [← hvirt, ← e]; exact (hinv'.virtToPage_slot hb' (h.cacheOk _ hVj).size_pos hi).symm)
  · rw [hcaches, hslabs]
    by_cases e : o = obj
    · subst e
      rw [Function.update_self] at ho
      obtain ⟨hyc, hyb⟩ := hl y ho
      obtain ⟨j, hj, hoj⟩ := hobj
      rw [hyc]
      refine ⟨hyb, listOf x, a, (hmem _ a).mpr (.inl ⟨rfl, rfl⟩), j, ?_, ?_⟩
      · rw [Function.update_self]; exact hj
      · rw [Function.update_self]; exact hoj
    · rw [Function.update_of_ne e] at ho
      obtain ⟨hyb, w, b, hb, j, hj, hoj⟩ := h.live o y ho
      refine ⟨hyb, ?_⟩
      by_cases eb : b = a
      · subst eb
        have hk := h.list_unique hb ha
        refine ⟨listOf x, b, (hmem _ b).mpr (.inl ⟨rfl, by rw [← hk]⟩), j, ?_, ?_⟩
        · rw [Function.update_self, hlimit]; exact hj
        · rw [Function.update_self, SlabPage.slot, hbase]; exact hoj
      · refine ⟨w, b, (hmem _ b).mpr (.inr ⟨eb, hb⟩), j, ?_, ?_⟩
        · rw [Function.update_of_ne eb]; exact hj
        · rw [Function.update_of_ne eb]; exact hoj
  · obtain ⟨L, hL, hsub, hown⟩ := h.pmm
    refine ⟨L, by rw [hpmm]; exact hL, hsub, fun p => (hown p).trans ⟨?_, ?_⟩⟩
    · rintro ⟨j, b, hb, rfl⟩
      by_cases e : b = a
      · exact ⟨_, b, (hmem _ b).mpr (.inl ⟨e, rfl⟩), rfl⟩
      · exact ⟨j, b, (hmem j b).mpr (.inr ⟨e, hb⟩), rfl⟩
    · rintro ⟨j, b, hb, rfl⟩
      rcases (hmem j b).mp hb with ⟨rfl, -⟩ | ⟨-, hb⟩
      · exact ⟨k, b, ha, rfl⟩
      · exact ⟨j, b, hb, rfl⟩

theorem mem_stay (h : Inv freeAddr entriesAddr entries V s live others lists) (ha : a ∈ lists k) (j : Cache × SlabList)
    (b : Nat) : b ∈ lists j ↔ (b = a ∧ j = k) ∨ (b ≠ a ∧ b ∈ lists j) := by
  constructor
  · intro hb
    by_cases e : b = a
    · subst e; exact .inl ⟨rfl, h.list_unique hb ha⟩
    · exact .inr ⟨e, hb⟩
  · rintro (⟨rfl, rfl⟩ | ⟨-, hb⟩)
    · exact ha
    · exact hb

/-- `touch` with what the code does to the lists: nothing, or a move to the list of the new `avail`. -/
theorem touch_list (h : Inv freeAddr entriesAddr entries V s live others lists) (ha : a ∈ lists k) {x : SlabPage}
    {s' : State} {obj : Nat} {l : Option Live}
    (hcache : x.cache = k.1) (hlimit : x.limit = (s.slabs a).limit) (hbase : x.objectBase = (s.slabs a).objectBase)
    (hobj : ∃ j < x.limit, obj = x.slot (s.caches k.1).size j)
    (hpage : PageInv (s.caches k.1).size (Function.update live obj l) a x)
    (hl : ∀ y, l = some y → y.cache = k.1 ∧ y.bytes ≤ (s.caches k.1).size)
    (hs' : (listOf x = k.2 ∧ s' = setSlab s a x) ∨ s' = moveSlab (setSlab s a x) a k.1 (listOf x)) :
    ∃ lists', Inv freeAddr entriesAddr entries V s' (Function.update live obj l) others lists' := by
  obtain ⟨hV, -⟩ := h.page k a ha
  rcases hs' with ⟨hw, rfl⟩ | rfl
  · refine ⟨lists, h.touch ha rfl rfl rfl hcache hlimit hbase hobj hpage hl h.rings ?_⟩
    rw [hw]; exact h.mem_stay ha
  · exact ⟨moved lists k (k.1, listOf x) a, h.touch ha rfl rfl rfl hcache hlimit hbase hobj hpage hl
      (h.moved_rings ha (k.1, listOf x) hV) fun j b => h.mem_moved ha⟩

/-! ### Allocation -/

theorem allocObjectFromSlab (h : Inv freeAddr entriesAddr entries V s live others lists) (ha : a ∈ lists k)
    (hne : k.2 ≠ .fullSlab) {bytes : Nat} (hb : bytes ≤ (s.caches k.1).size) :
    ∃ obj s' lists', allocObjectFromSlab s a = .ok (obj, s') ∧ obj ≠ 0 ∧ live obj = none ∧
      s'.caches = s.caches ∧ s'.cacheLinks = s.cacheLinks ∧
      Inv freeAddr entriesAddr entries V s' (Function.update live obj (some ⟨k.1, bytes⟩)) others lists' := by
  obtain ⟨hV, hcache, hlist, haddr, hinv⟩ := h.page k a ha
  have hpos := (h.cacheOk k.1 hV).size_pos
  have havail : (s.slabs a).avail ≠ 0 := by
    intro h0
    rw [listOf, if_pos h0] at hlist
    exact hne hlist.symm
  obtain ⟨j, hj, hfree⟩ := hinv.slots ((s.slabs a).avail - 1) (by omega)
  have hobj : (s.slabs a).free ((s.slabs a).avail - 1) ≠ 0 := by rw [hfree]; exact hinv.slot_pos hj
  have hnone := hinv.free_none (i := (s.slabs a).avail - 1) (by omega)
  have htouch : ∀ s', (listOf (s.slabs a).taken = k.2 ∧ s' = setSlab s a (s.slabs a).taken) ∨
      s' = moveSlab (setSlab s a (s.slabs a).taken) a k.1 (listOf (s.slabs a).taken) →
      ∃ lists', Inv freeAddr entriesAddr entries V s'
        (Function.update live ((s.slabs a).free ((s.slabs a).avail - 1)) (some ⟨k.1, bytes⟩)) others lists' := by
    intro s' hs'
    refine h.touch_list ha (x := (s.slabs a).taken) hcache rfl rfl ⟨j, hj, hfree⟩ (hinv.taken havail _)
      (fun y hy => ?_) hs'
    obtain rfl := Option.some.inj hy
    exact ⟨rfl, hb⟩
  have heq : Slab.allocObjectFromSlab s a = .ok ((s.slabs a).free ((s.slabs a).avail - 1),
      if (s.slabs a).taken.avail = 0 then moveSlab (setSlab s a (s.slabs a).taken) a k.1 .fullSlab
      else if (s.slabs a).taken.avail + 1 = (s.slabs a).limit then
        moveSlab (setSlab s a (s.slabs a).taken) a k.1 .partialSlab
      else setSlab s a (s.slabs a).taken) := by
    rw [Slab.allocObjectFromSlab, if_neg havail, ← hcache]; rfl
  have hav : (s.slabs a).taken.avail = (s.slabs a).avail - 1 := rfl
  have hlim : (s.slabs a).taken.limit = (s.slabs a).limit := rfl
  rw [heq]
  by_cases h0 : (s.slabs a).taken.avail = 0
  · obtain ⟨lists', hl'⟩ := htouch _ (.inr rfl)
    rw [listOf, if_pos h0] at hl'
    rw [if_pos h0]
    exact ⟨_, _, lists', rfl, hobj, hnone, rfl, rfl, hl'⟩
  · rw [if_neg h0]
    by_cases h1 : (s.slabs a).taken.avail + 1 = (s.slabs a).limit
    · obtain ⟨lists', hl'⟩ := htouch _ (.inr rfl)
      rw [listOf, if_neg h0, if_neg (by omega)] at hl'
      rw [if_pos h1]
      exact ⟨_, _, lists', rfl, hobj, hnone, rfl, rfl, hl'⟩
    · have hle := hinv.avail_le
      have hstay : listOf (s.slabs a).taken = k.2 := by
        rw [← hlist, listOf, if_neg h0, if_neg (by omega), listOf, if_neg havail, if_neg (by omega)]
      obtain ⟨lists', hl'⟩ := htouch _ (.inl ⟨hstay, rfl⟩)
      rw [if_neg h1]
      exact ⟨_, _, lists', rfl, hobj, hnone, rfl, rfl, hl'⟩

/-! ### Freeing -/

/-- A live object leads back to its page. -/
theorem live_page (h : Inv freeAddr entriesAddr entries V s live others lists) {obj : Nat} {l : Live}
    (ho : live obj = some l) :
    ∃ w, virtToPage obj ∈ lists (l.cache, w) ∧ (s.slabs (virtToPage obj)).cache = l.cache ∧
      ∃ j < (s.slabs (virtToPage obj)).limit, obj = (s.slabs (virtToPage obj)).slot (s.caches l.cache).size j := by
  obtain ⟨-, w, a, ha, j, hj, hoj⟩ := h.live obj l ho
  obtain ⟨hV, hcache, -, haddr, hinv⟩ := h.page _ a ha
  have hvirt : virtToPage obj = a := by
    rw [hoj]; exact hinv.virtToPage_slot haddr (h.cacheOk _ hV).size_pos hj
  rw [hvirt]
  exact ⟨w, ha, hcache, j, hj, hoj⟩

theorem freeObject (h : Inv freeAddr entriesAddr entries V s live others lists) {obj : Nat} {l : Live}
    (ho : live obj = some l) :
    ∃ s' lists', freeObject s l.cache obj = .ok s' ∧ s'.caches = s.caches ∧ s'.cacheLinks = s.cacheLinks ∧
      Inv freeAddr entriesAddr entries V s' (Function.update live obj none) others lists' := by
  obtain ⟨w, ha, hcache, j, hj, hoj⟩ := h.live_page ho
  unfold Slab.freeObject
  generalize virtToPage obj = a at ha hcache hj hoj
  obtain ⟨hV, -, hlist, -, hinv⟩ := h.page _ a ha
  obtain ⟨hpage, hlt⟩ := hinv.given (h.cacheOk _ hV).size_pos hj (by rw [← hoj, ho]; rfl)
  rw [← hoj] at hpage
  have htouch : ∀ s', (listOf ((s.slabs a).given obj) = w ∧ s' = setSlab s a ((s.slabs a).given obj)) ∨
      s' = moveSlab (setSlab s a ((s.slabs a).given obj)) a l.cache (listOf ((s.slabs a).given obj)) →
      ∃ lists', Inv freeAddr entriesAddr entries V s' (Function.update live obj none) others lists' := by
    intro s' hs'
    exact h.touch_list ha (x := (s.slabs a).given obj) hcache rfl rfl ⟨j, hj, hoj⟩ hpage
      (fun y hy => absurd hy (by simp)) hs'
  have hav : ((s.slabs a).given obj).avail = (s.slabs a).avail + 1 := rfl
  have hlim : ((s.slabs a).given obj).limit = (s.slabs a).limit := rfl
  rw [if_neg (by simp [hcache])]
  change ∃ s' lists', Except.ok (if ((s.slabs a).given obj).avail = 1 ∧
      ((s.slabs a).given obj).avail < ((s.slabs a).given obj).limit then
        moveSlab (setSlab s a ((s.slabs a).given obj)) a l.cache .partialSlab
      else if ((s.slabs a).given obj).avail = ((s.slabs a).given obj).limit then
        moveSlab (setSlab s a ((s.slabs a).given obj)) a l.cache .freeSlab
      else setSlab s a ((s.slabs a).given obj)) = Except.ok s' ∧ _
  by_cases h1 : ((s.slabs a).given obj).avail = 1 ∧ ((s.slabs a).given obj).avail < ((s.slabs a).given obj).limit
  · obtain ⟨lists', hl'⟩ := htouch _ (.inr rfl)
    rw [listOf, if_neg (by omega), if_neg (by omega)] at hl'
    rw [if_pos h1]
    exact ⟨_, lists', rfl, rfl, rfl, hl'⟩
  · rw [if_neg h1]
    by_cases h2 : ((s.slabs a).given obj).avail = ((s.slabs a).given obj).limit
    · obtain ⟨lists', hl'⟩ := htouch _ (.inr rfl)
      rw [listOf, if_neg (by omega), if_pos h2] at hl'
      rw [if_pos h2]
      exact ⟨_, lists', rfl, rfl, rfl, hl'⟩
    · have hstay : listOf ((s.slabs a).given obj) = w := by
        have hw : listOf (s.slabs a) = w := hlist
        rw [← hw, listOf, if_neg (by omega), if_neg h2, listOf, if_neg (by omega), if_neg (by omega)]
      obtain ⟨lists', hl'⟩ := htouch _ (.inl ⟨hstay, rfl⟩)
      rw [if_neg h2]
      exact ⟨_, lists', rfl, rfl, rfl, hl'⟩

/-! ### New slab pages -/

end Inv

theorem storeObjects_spec (size : Nat) (x : SlabPage) (hx : x.avail = 0) :
    (storeObjects size x).avail = x.limit ∧ (storeObjects size x).limit = x.limit ∧
      (storeObjects size x).objectBase = x.objectBase ∧ (storeObjects size x).cache = x.cache ∧
      ∀ i < x.limit, (storeObjects size x).free i = x.slot size i := by
  have key : ∀ n, let y := (List.range n).foldl (fun (x : SlabPage) i => { x with
        free := Function.update x.free x.avail (x.objectBase + i * size), avail := x.avail + 1 }) x
      y.avail = n ∧ y.limit = x.limit ∧ y.objectBase = x.objectBase ∧ y.cache = x.cache ∧
        ∀ i < n, y.free i = x.slot size i := by
    intro n
    induction n with
    | zero => exact ⟨hx, rfl, rfl, rfl, fun i hi => absurd hi (Nat.not_lt_zero i)⟩
    | succ n ih =>
      obtain ⟨h₁, h₂, h₃, h₄, h₅⟩ := ih
      rw [List.range_succ, List.foldl_append]
      dsimp only [List.foldl_cons, List.foldl_nil] at h₁ h₂ h₃ h₄ h₅ ⊢
      refine ⟨by rw [h₁], h₂, h₃, h₄, fun i hi => ?_⟩
      rw [h₁, h₃]
      by_cases e : i = n
      · subst e; rw [Function.update_self]; rfl
      · rw [Function.update_of_ne e]; exact h₅ i (by omega)
  exact key x.limit

namespace Inv

theorem pageAddr_of_frame {p : Nat} (hp : p < 0xFFFFF) :
    PageAddr (castPhysicalToVirtual (pageAddress p)) ∧ frame (castPhysicalToVirtual (pageAddress p)) = p := by
  refine ⟨⟨?_, u32_lt _⟩, ?_⟩
  · simp only [castPhysicalToVirtual, pageAddress, u32, kernelBase, pageSize]; omega
  · simp only [frame, pageNumber, castVirtualToPhysical, castPhysicalToVirtual, pageAddress, u32, kernelBase,
      pageSize]
    omega

/-- `init_slab_page` on a page that no cache has. -/
theorem initSlabPage (h : Inv freeAddr entriesAddr entries V s live others lists) {c : Cache} (hc : c ∈ V)
    {pmm : Pmm.State} {L : Finset (Nat × Nat)} (hL : Pmm.Reachable freeAddr entriesAddr entries pmm L)
    (haddr : PageAddr a) (hnew : ∀ k, a ∉ lists k) (hsub : others ⊆ L)
    (hown : ∀ p, p ∈ L ∧ p ∉ others ↔ p = (frame a, 0) ∨ ∃ k, ∃ b ∈ lists k, p = (frame b, 0)) :
    Inv freeAddr entriesAddr entries V (initSlabPage { s with pmm := pmm } c a) live others
      (Function.update lists (c, .freeSlab) (a :: lists (c, .freeSlab))) := by
  obtain ⟨x, hx⟩ : ∃ x : SlabPage, x = ⟨0, slabLimit (s.caches c).size,
    a + (pageSize - slabLimit (s.caches c).size * (s.caches c).size), c, (s.slabs a).free⟩ := ⟨_, rfl⟩
  have hok := h.cacheOk c hc
  obtain ⟨h₁, h₂, h₃, h₄, h₅⟩ := storeObjects_spec (s.caches c).size x (by rw [hx])
  have hslabs : (Slab.initSlabPage { s with pmm := pmm } c a).slabs =
      Function.update s.slabs a (storeObjects (s.caches c).size x) := by rw [hx]; rfl
  have hcaches : (Slab.initSlabPage { s with pmm := pmm } c a).caches = s.caches := rfl
  have hlimit : x.limit = slabLimit (s.caches c).size := by rw [hx]
  have hlpos := slabLimit_pos hok.size_le
  have hslot : ∀ j, (storeObjects (s.caches c).size x).slot (s.caches c).size j = x.slot (s.caches c).size j := by
    intro j; rw [SlabPage.slot, h₃]; rfl
  have hmem : ∀ k b, b ∈ Function.update lists (c, .freeSlab) (a :: lists (c, .freeSlab)) k ↔
      (b = a ∧ k = (c, .freeSlab)) ∨ b ∈ lists k := by
    intro k b
    by_cases e : k = (c, .freeSlab)
    · subst e; simp
    · simp [e]
  -- apart from which of its objects are live
  have hpage : PageInv (s.caches c).size (fun _ => none) a (storeObjects (s.caches c).size x) := by
    refine ⟨by rw [h₂, hlimit], by rw [h₃, h₂, hlimit, hx], by rw [h₁, h₂], fun i hi => ?_, fun i hi i' hi' he => ?_,
      fun j hj => ⟨fun hf => absurd hf (by simp), fun hall => ?_⟩⟩
    · rw [h₁] at hi
      exact ⟨i, by rw [h₂]; exact hi, by rw [h₅ i hi, hslot]⟩
    · rw [h₁] at hi hi'
      rw [h₅ i hi, h₅ i' hi'] at he
      exact PageInv.slot_inj hok.size_pos he
    · rw [h₂] at hj
      exact absurd (by rw [h₅ j hj, hslot]) (hall j (by rw [h₁]; exact hj))
  have hfresh : ∀ j < (storeObjects (s.caches c).size x).limit,
      live ((storeObjects (s.caches c).size x).slot (s.caches c).size j) = none := by
    intro j hj
    by_contra hsome
    obtain ⟨l, hl⟩ := Option.ne_none_iff_exists'.mp hsome
    obtain ⟨w, hw, -⟩ := h.live_page hl
    rw [hpage.virtToPage_slot haddr hok.size_pos hj] at hw
    exact hnew _ hw
  refine ⟨h.static, h.cacheOk, ?_, fun k b hb => ?_, fun o l ho => ?_, L, hL, hsub,
    fun p => (hown p).trans ⟨?_, ?_⟩⟩
  · have hr := h.rings.insertFront (k := (c, SlabList.freeSlab)) (n := .page a) hc (fun j _ hm => by
      exact hnew j (by simpa using hm))
    have hmap : Function.update (fun k => (lists k).map Node.page) (c, SlabList.freeSlab)
        (Node.page a :: (lists (c, .freeSlab)).map Node.page) =
        fun k => (Function.update lists (c, .freeSlab) (a :: lists (c, .freeSlab)) k).map Node.page := by
      funext k
      by_cases e : k = (c, .freeSlab)
      · subst e; simp
      · simp [e]
    rw [hmap] at hr
    exact hr
  · rw [hslabs, hcaches]
    rcases (hmem k b).mp hb with ⟨rfl, rfl⟩ | hb'
    · rw [Function.update_self]
      refine ⟨hc, by rw [h₄, hx], ?_, haddr, hpage.congr fun j hj => hfresh j hj⟩
      rw [listOf, if_neg (by rw [h₁, hlimit]; omega), if_pos (by rw [h₁, h₂])]
    · rw [Function.update_of_ne (by rintro rfl; exact hnew k hb')]
      exact h.page k b hb'
  · rw [hslabs, hcaches]
    obtain ⟨hbytes, w, b, hb, j, hj, hoj⟩ := h.live o l ho
    refine ⟨hbytes, w, b, (hmem _ b).mpr (.inr hb), j, ?_, ?_⟩
    · rw [Function.update_of_ne (by rintro rfl; exact hnew _ hb)]; exact hj
    · rw [Function.update_of_ne (by rintro rfl; exact hnew _ hb)]; exact hoj
  · rintro (rfl | ⟨k, b, hb, rfl⟩)
    · exact ⟨_, a, (hmem _ a).mpr (.inl ⟨rfl, rfl⟩), rfl⟩
    · exact ⟨k, b, (hmem k b).mpr (.inr hb), rfl⟩
  · rintro ⟨k, b, hb, rfl⟩
    rcases (hmem k b).mp hb with ⟨rfl, -⟩ | hb
    · exact .inl rfl
    · exact .inr ⟨k, b, hb, rfl⟩

/-- `alloc_slab_page`: a page that was not in use, or the panic when there is none. -/
theorem allocSlabPage (h : Inv freeAddr entriesAddr entries V s live others lists)
    (hboot : Pmm.BootOk freeAddr entriesAddr entries) {c : Cache} (hc : c ∈ V) :
    (∃ b s' lists', allocSlabPage s c = .ok (b, s') ∧ b ∈ lists' (c, .freeSlab) ∧ s'.caches = s.caches ∧
      s'.cacheLinks = s.cacheLinks ∧ Inv freeAddr entriesAddr entries V s' live others lists') ∨
    (allocSlabPage s c = .error .noPage ∧ ∃ pmm, Pmm.pmmAllocPages s.pmm 0 = some (0, pmm)) := by
  obtain ⟨L, hL, hsub, hown⟩ := h.pmm
  obtain ⟨p, pmm, he, hp⟩ := hL.alloc_fresh hboot 0
  unfold Slab.allocSlabPage
  rw [he]
  dsimp only
  by_cases h0 : p = 0
  · subst h0
    rw [if_pos (by decide)]
    exact .inr ⟨rfl, pmm, rfl⟩
  · obtain ⟨hfresh, hlt⟩ := hp h0
    have hlt' : p < 0xFFFFF := by
      have := hboot.maxUsableEnd_le
      unfold pageSize at hlt
      omega
    have hL' := hL.alloc he
    rw [if_neg h0] at hL'
    obtain ⟨haddr, hframe⟩ := pageAddr_of_frame hlt'
    have hne : pageAddress p ≠ 0 := by
      simp only [pageAddress, u32, pageSize]; omega
    have hnotin : ∀ k, castPhysicalToVirtual (pageAddress p) ∉ lists k := by
      intro k hk
      exact hfresh (hframe ▸ ((hown _).mpr ⟨k, _, hk, rfl⟩).1)
    rw [if_neg hne]
    refine .inl ⟨_, _, _, rfl, ?_, rfl, rfl, h.initSlabPage hc hL' haddr hnotin
      (hsub.trans (Finset.subset_insert _ _)) fun b => ?_⟩
    · rw [Function.update_self]; exact List.mem_cons_self
    · rw [hframe, ← hown b, Finset.mem_insert]
      refine ⟨?_, ?_⟩
      · rintro ⟨hb, hb'⟩
        exact hb.imp_right fun hb => ⟨hb, hb'⟩
      rintro (rfl | hb)
      · exact ⟨.inl rfl, fun ho => hfresh (hsub ho)⟩
      · exact ⟨.inr hb.1, hb.2⟩

theorem allocObjectFromSlabList (h : Inv freeAddr entriesAddr entries V s live others lists) (hk : k.1 ∈ V)
    (hne : k.2 ≠ .fullSlab) {bytes : Nat} (hb : bytes ≤ (s.caches k.1).size) :
    (∃ obj s' lists', allocObjectFromSlabList s k.1 k.2 = .ok (obj, s') ∧ obj ≠ 0 ∧ live obj = none ∧
      s'.caches = s.caches ∧ s'.cacheLinks = s.cacheLinks ∧
      Inv freeAddr entriesAddr entries V s' (Function.update live obj (some ⟨k.1, bytes⟩)) others lists') ∨
    allocObjectFromSlabList s k.1 k.2 = .ok (0, s) := by
  have hr := h.rings.ring k hk
  unfold Slab.allocObjectFromSlabList
  rw [hr.next_eq]
  cases hl : lists k with
  | nil => exact .inr rfl
  | cons a l => exact .inl (h.allocObjectFromSlab (k := k) (hl ▸ List.mem_cons_self) hne hb)

/-- `alloc_object` hands out an object that was not live, unless the page allocator has no page. -/
theorem allocObject (h : Inv freeAddr entriesAddr entries V s live others lists)
    (hboot : Pmm.BootOk freeAddr entriesAddr entries) {c : Cache} (hc : c ∈ V) {bytes : Nat}
    (hb : bytes ≤ (s.caches c).size) :
    (∃ obj s' lists', allocObject s c = .ok (obj, s') ∧ obj ≠ 0 ∧ live obj = none ∧
      s'.caches = s.caches ∧ s'.cacheLinks = s.cacheLinks ∧
      Inv freeAddr entriesAddr entries V s' (Function.update live obj (some ⟨c, bytes⟩)) others lists') ∨
    (allocObject s c = .error .noPage ∧ ∃ pmm, Pmm.pmmAllocPages s.pmm 0 = some (0, pmm)) := by
  unfold Slab.allocObject
  rcases h.allocObjectFromSlabList (k := (c, .partialSlab)) hc (by simp) hb with
    ⟨obj, s', lists', he, hobj, hrest⟩ | he
  · simp only [he, bind, Except.bind]
    rw [if_pos hobj]
    exact .inl ⟨obj, s', lists', rfl, hobj, hrest⟩
  · simp only [he, bind, Except.bind]
    rw [if_neg (by simp)]
    rcases h.allocObjectFromSlabList (k := (c, .freeSlab)) hc (by simp) hb with
      ⟨obj, s', lists', he, hobj, hrest⟩ | he
    · simp only [he]
      rw [if_pos hobj]
      exact .inl ⟨obj, s', lists', rfl, hobj, hrest⟩
    · simp only [he]
      rw [if_neg (by simp)]
      unfold allocObjectFromNewSlab
      rcases h.allocSlabPage hboot hc with ⟨a, s₁, lists₁, he₁, ha, hca, hcl, h₁⟩ | ⟨he₁, hpmm⟩
      · have hb' : bytes ≤ (s₁.caches c).size := by rw [hca]; exact hb
        obtain ⟨obj, s', lists', he₂, hobj, hnone, hca', hcl', h₂⟩ := h₁.allocObjectFromSlab ha (by simp) hb'
        simp only [he₁, bind, Except.bind, he₂]
        rw [if_neg hobj]
        exact .inl ⟨obj, s', lists', rfl, hobj, hnone, hca'.trans hca, hcl'.trans hcl, h₂⟩
      · simp only [he₁, bind, Except.bind]
        exact .inr ⟨trivial, hpmm⟩

end Inv
end
end Airix.Slab
