import Airix.Slab.Inv

/-!
# The slab allocator over whole runs

`Run` are the states after any sequence of cache creations, allocations and frees of live objects, with other
users of the page allocator in between.
-/

namespace Airix.Slab

/-- The caches that exist: the static ones, and those whose descriptor is live. -/
def Valid (live : Nat → Option Live) : Cache → Prop
  | .cacheCache => True
  | .kmalloc i => i < 9
  | .created o => ∃ bytes, live o = some ⟨.cacheCache, bytes⟩

/-- What `slab_create_kmem_cache` may be called with. -/
structure CreateOk (objectSize align : Nat) : Prop where
  pos : 1 ≤ objectSize
  pow : ∃ k, 2 ≤ k ∧ k ≤ 12 ∧ align = 2 ^ k
  size_le : (objectSize + (align - 1)) / align * align ≤ 4068

/-- The states of a run, with the live objects and the page blocks of the other users of the page allocator. -/
inductive Run (freeAddr entriesAddr : Nat) (entries : Array Pmm.MmapEntry) :
    State → (Nat → Option Live) → Finset (Nat × Nat) → Prop
  | init {pmm : Pmm.State} {others : Finset (Nat × Nat)} : Pmm.Reachable freeAddr entriesAddr entries pmm others →
    Run freeAddr entriesAddr entries (initState pmm) (fun _ => none) others
  | create {s s' : State} {live : Nat → Option Live} {others : Finset (Nat × Nat)} {objectSize align o : Nat} :
    Run freeAddr entriesAddr entries s live others → CreateOk objectSize align →
      slabCreateKmemCache s objectSize align = .ok (o, s') →
      Run freeAddr entriesAddr entries s' (Function.update live o (some ⟨.cacheCache, sizeofKmemCache⟩)) others
  | alloc {s s' : State} {live : Nat → Option Live} {others : Finset (Nat × Nat)} {c o : Nat} :
    Run freeAddr entriesAddr entries s live others → Valid live (.created c) →
      slabAlloc s (.created c) = .ok (o, s') →
      Run freeAddr entriesAddr entries s'
        (Function.update live o (some ⟨.created c, (s.caches (.created c)).objectSize⟩)) others
  | free {s s' : State} {live : Nat → Option Live} {others : Finset (Nat × Nat)} {o : Nat} {l : Live} :
    Run freeAddr entriesAddr entries s live others → live o = some l → l.cache ≠ .cacheCache →
      slabFree s l.cache o = .ok s' → Run freeAddr entriesAddr entries s' (Function.update live o none) others
  | kmalloc {s s' : State} {live : Nat → Option Live} {others : Finset (Nat × Nat)} {size index o : Nat} :
    Run freeAddr entriesAddr entries s live others → kmallocIndex size = .ok index → kmalloc s size = .ok (o, s') →
      Run freeAddr entriesAddr entries s' (Function.update live o (some ⟨.kmalloc index, size⟩)) others
  | kfree {s s' : State} {live : Nat → Option Live} {others : Finset (Nat × Nat)} {o : Nat} {l : Live} :
    Run freeAddr entriesAddr entries s live others → live o = some l → l.cache ≠ .cacheCache →
      kfree s o = .ok s' → Run freeAddr entriesAddr entries s' (Function.update live o none) others
  | otherAlloc {s : State} {live : Nat → Option Live} {others : Finset (Nat × Nat)} {order pageNum : Nat}
      {pmm : Pmm.State} :
    Run freeAddr entriesAddr entries s live others → Pmm.pmmAllocPages s.pmm order = some (pageNum, pmm) →
      Run freeAddr entriesAddr entries { s with pmm := pmm } live
        (if pageNum = 0 then others else insert (pageNum, order) others)
  | otherFree {s : State} {live : Nat → Option Live} {others : Finset (Nat × Nat)} {pageNum order : Nat} :
    Run freeAddr entriesAddr entries s live others → (pageNum, order) ∈ others →
      Run freeAddr entriesAddr entries { s with pmm := Pmm.pmmFreePages s.pmm pageNum order } live
        (others.erase (pageNum, order))

/-! ### Caches -/

theorem CreateOk.align_eq {objectSize al : Nat} (h : CreateOk objectSize al) :
    align objectSize al = (objectSize + (al - 1)) / al * al := by
  obtain ⟨k, hk₁, hk₂, rfl⟩ := h.pow
  have hle := h.size_le
  have hpos : 0 < 2 ^ k := by positivity
  have hlt : 2 ^ k ≤ 2 ^ 12 := Nat.pow_le_pow_right (by decide) hk₂
  have hmod := Nat.div_add_mod (objectSize + (2 ^ k - 1)) (2 ^ k)
  have hmod' := Nat.mod_lt (objectSize + (2 ^ k - 1)) hpos
  rw [Nat.mul_comm] at hle
  have hsmall : objectSize + (2 ^ k - 1) < 2 ^ 32 := by omega
  rw [align, u32_of_lt hsmall]

theorem CreateOk.cacheOk {objectSize al : Nat} (h : CreateOk objectSize al) :
    CacheOk ⟨objectSize, align objectSize al, al⟩ := by
  have hpos := h.pos
  have hle := h.size_le
  have heq := h.align_eq
  obtain ⟨k, hk₁, hk₂, rfl⟩ := h.pow
  have hk : 0 < 2 ^ k := by positivity
  have hmod := Nat.div_add_mod (objectSize + (2 ^ k - 1)) (2 ^ k)
  have hmod' := Nat.mod_lt (objectSize + (2 ^ k - 1)) hk
  rw [Nat.mul_comm] at hmod
  refine ⟨?_, ?_, by rw [heq]; exact hle, ?_, ?_⟩
  · show objectSize ≤ align objectSize (2 ^ k)
    rw [heq]; omega
  · show 0 < align objectSize (2 ^ k)
    rw [heq]; omega
  · show 2 ^ k ∣ align objectSize (2 ^ k)
    rw [heq]; exact Dvd.intro_left _ rfl
  · exact pow_dvd_pow 2 hk₂

theorem initCaches_ok {c : Cache} (hc : Valid (fun _ => none) c) : CacheOk (initCaches c) := by
  cases c with
  | cacheCache => exact ⟨by decide, by decide, by decide, by decide, by decide⟩
  | kmalloc i =>
    have hi : i < 9 := hc
    interval_cases i <;> exact ⟨by decide, by decide, by decide, by decide, by decide⟩
  | created o => obtain ⟨_, h⟩ := hc; cases h

theorem kmallocIndex_spec {size index : Nat} (h : kmallocIndex size = .ok index) :
    index < 9 ∧ size ≤ (initCaches (.kmalloc index)).size := by
  unfold kmallocIndex at h
  split_ifs at h <;> cases h <;> exact ⟨by decide, by simp [initCaches, kmallocSizes]; omega⟩

section
variable {freeAddr entriesAddr : Nat} {entries : Array Pmm.MmapEntry} {s : State}
  {live : Nat → Option Live} {others : Finset (Nat × Nat)}

/-- The invariant over the caches that exist. -/
structure RunInv (freeAddr entriesAddr : Nat) (entries : Array Pmm.MmapEntry) (s : State)
    (live : Nat → Option Live) (others : Finset (Nat × Nat)) : Prop where
  inv : ∃ lists, Inv freeAddr entriesAddr entries {c | Valid live c} s live others lists
  statics : ∀ i, s.caches (.kmalloc i) = initCaches (.kmalloc i)
  cacheCache : s.caches .cacheCache = initCaches .cacheCache

theorem RunInv.init {pmm : Pmm.State} (h : Pmm.Reachable freeAddr entriesAddr entries pmm others) :
    RunInv freeAddr entriesAddr entries (initState pmm) (fun _ => none) others := by
  refine ⟨⟨fun _ => [], ⟨trivial, fun i hi => hi⟩, fun c hc => initCaches_ok hc, ⟨fun k hk => ?_, ?_⟩,
    fun k a ha => absurd ha (by simp), fun o l ho => absurd ho (by simp), others, h, subset_rfl,
    fun b => by simp⟩, fun _ => rfl, rfl⟩
  · obtain ⟨c, w⟩ := k
    refine ⟨by simp, ?_⟩
    cases c with
    | cacheCache => exact .cons_cons ⟨rfl, rfl⟩ (.singleton _)
    | kmalloc i => exact .cons_cons ⟨rfl, rfl⟩ (.singleton _)
    | created o => obtain ⟨_, h⟩ := hk; cases h
  · intro k _ j _ hne x hx hx'
    simp only [List.map_nil, List.mem_singleton] at hx hx'
    rw [hx] at hx'
    obtain ⟨h₁, h₂⟩ := Node.head.inj hx'
    exact hne (Prod.ext h₁ h₂)

/-- Which caches exist does not depend on objects that are no descriptors. -/
theorem valid_update {o : Nat} {l : Option Live} (hold : ∀ bytes, live o ≠ some ⟨.cacheCache, bytes⟩)
    (hnew : ∀ y, l = some y → y.cache ≠ .cacheCache) :
    {c | Valid (Function.update live o l) c} = {c | Valid live c} := by
  ext c
  cases c with
  | cacheCache => exact Iff.rfl
  | kmalloc i => exact Iff.rfl
  | created b =>
    show (∃ bytes, _) ↔ ∃ bytes, _
    by_cases e : b = o
    · subst e
      simp only [Function.update_self]
      exact ⟨fun ⟨n, hn⟩ => absurd rfl (hnew _ hn), fun ⟨n, hn⟩ => absurd hn (hold n)⟩
    · simp only [Function.update_of_ne e]

theorem RunInv.alloc (h : RunInv freeAddr entriesAddr entries s live others)
    (hboot : Pmm.BootOk freeAddr entriesAddr entries) {c : Cache} (hc : Valid live c) (hcc : c ≠ .cacheCache)
    {bytes : Nat} (hb : bytes ≤ (s.caches c).size) :
    (∃ o s', allocObject s c = .ok (o, s') ∧
      RunInv freeAddr entriesAddr entries s' (Function.update live o (some ⟨c, bytes⟩)) others) ∨
    (allocObject s c = .error .noPage ∧ ∃ pmm, Pmm.pmmAllocPages s.pmm 0 = some (0, pmm)) := by
  obtain ⟨lists, hinv⟩ := h.inv
  rcases hinv.allocObject hboot hc hb with ⟨o, s', lists', he, -, hnone, hca, -, hinv'⟩ | herr
  · refine .inl ⟨o, s', he, ⟨lists', ?_⟩, fun i => by rw [hca]; exact h.statics i, by rw [hca]; exact h.cacheCache⟩
    rw [valid_update (by simp [hnone]) (fun y hy => by obtain rfl := Option.some.inj hy; exact hcc)]
    exact hinv'
  · exact .inr herr

theorem RunInv.free (h : RunInv freeAddr entriesAddr entries s live others) {o : Nat} {l : Live}
    (ho : live o = some l) (hcc : l.cache ≠ .cacheCache) :
    ∃ s', freeObject s l.cache o = .ok s' ∧
      RunInv freeAddr entriesAddr entries s' (Function.update live o none) others := by
  obtain ⟨lists, hinv⟩ := h.inv
  obtain ⟨s', lists', he, hca, -, hinv'⟩ := hinv.freeObject ho
  refine ⟨s', he, ⟨lists', ?_⟩, fun i => by rw [hca]; exact h.statics i, by rw [hca]; exact h.cacheCache⟩
  rw [valid_update (fun n hn => hcc ?_) (fun y hy => absurd hy (by simp))]
  · exact hinv'
  · rw [ho] at hn
    rw [Option.some.inj hn]

theorem kfree_eq (h : RunInv freeAddr entriesAddr entries s live others) {o : Nat} {l : Live}
    (ho : live o = some l) : kfree s o = freeObject s l.cache o := by
  obtain ⟨lists, hinv⟩ := h.inv
  obtain ⟨-, -, hcache, -⟩ := hinv.live_page ho
  rw [kfree, hcache]

theorem valid_create {o bytes : Nat} :
    {c | Valid (Function.update live o (some ⟨.cacheCache, bytes⟩)) c} = insert (.created o) {c | Valid live c} := by
  ext c
  cases c with
  | cacheCache => exact ⟨fun _ => .inr trivial, fun _ => trivial⟩
  | kmalloc i => exact ⟨fun h => .inr h, fun h => h.resolve_left (by simp)⟩
  | created b =>
    show (∃ n, _) ↔ Cache.created b = _ ∨ ∃ n, _
    by_cases e : b = o
    · subst e; simp
    · simp [e]

theorem RunInv.create (h : RunInv freeAddr entriesAddr entries s live others)
    (hboot : Pmm.BootOk freeAddr entriesAddr entries) {objectSize al : Nat} (hok : CreateOk objectSize al) :
    (∃ o s', slabCreateKmemCache s objectSize al = .ok (o, s') ∧ RunInv freeAddr entriesAddr entries s'
      (Function.update live o (some ⟨.cacheCache, sizeofKmemCache⟩)) others) ∨
    (slabCreateKmemCache s objectSize al = .error .noPage ∧ ∃ pmm, Pmm.pmmAllocPages s.pmm 0 = some (0, pmm)) := by
  obtain ⟨lists, hinv⟩ := h.inv
  unfold slabCreateKmemCache
  have hbytes : sizeofKmemCache ≤ (s.caches .cacheCache).size := by rw [h.cacheCache]; decide
  rcases hinv.allocObject hboot (c := .cacheCache) trivial hbytes with
    ⟨o, s', lists', he, -, hnone, hca, -, hinv'⟩ | ⟨herr, hpmm⟩
  · have hnew : Cache.created o ∉ {c | Valid live c} := by
      rintro ⟨n, hn⟩
      rw [hnone] at hn
      cases hn
    have hempty : ∀ w, lists' (.created o, w) = [] := by
      intro w
      refine List.eq_nil_iff_forall_not_mem.mpr fun a ha => ?_
      exact hnew (hinv'.page _ a ha).1
    have hinit : ∀ {l : Links Node} {K : Set (Cache × SlabList)} (w : SlabList),
        l.Rings (fun k : Cache × SlabList => .head k.1 k.2) K (fun k => (lists' k).map .page) → (.created o, w) ∉ K →
        (l.init (.head (.created o) w)).Rings (fun k : Cache × SlabList => .head k.1 k.2)
          (insert (.created o, w) K) (fun k => (lists' k).map .page) := by
      intro l K w hr hw
      have hr' := hr.init (k := (.created o, w)) (fun j hj e => ?_) (fun j _ => by simp)
      · rwa [Function.update_eq_self_iff.mpr (by simp [hempty])] at hr'
      · obtain ⟨e₁, e₂⟩ := Node.head.inj e
        exact hw ((Prod.ext e₁ e₂ : j = (.created o, w)) ▸ hj)
    have hrings := hinit .freeSlab (hinit .partialSlab (hinit .fullSlab hinv'.rings hnew)
      (by simpa using hnew)) (by simpa using hnew)
    have hK : insert (Cache.created o, SlabList.freeSlab) (insert (.created o, .partialSlab)
        (insert (.created o, .fullSlab) {k : Cache × SlabList | k.1 ∈ {c | Valid live c}})) =
        {k | k.1 ∈ insert (.created o) {c | Valid live c}} := by
      ext ⟨c, w⟩
      cases w <;> simp
    have hcaches : ∀ c, Valid live c → Function.update s'.caches (.created o) ⟨objectSize, align objectSize al, al⟩ c =
        s'.caches c := by
      intro c hc
      exact Function.update_of_ne (by rintro rfl; exact hnew hc) _ _
    simp only [he, bind, Except.bind]
    refine .inl ⟨o, _, rfl, ⟨lists', ?_⟩, fun i => ?_, ?_⟩
    · rw [valid_create]
      refine ⟨⟨.inr hinv'.static.1, fun i hi => .inr (hinv'.static.2 i hi)⟩, ?_, hK ▸ hrings, fun k a ha => ?_,
        fun obj l hl => ?_, hinv'.pmm⟩
      · rintro c (rfl | hc)
        · dsimp only
          rw [Function.update_self]
          exact hok.cacheOk
        · dsimp only
          rw [hcaches c hc]
          exact hinv'.cacheOk c hc
      · obtain ⟨hV, hrest⟩ := hinv'.page k a ha
        refine ⟨.inr hV, ?_⟩
        dsimp only
        rw [hcaches _ hV]
        exact hrest
      · obtain ⟨hb, w, a, ha, hrest⟩ := hinv'.live obj l hl
        dsimp only
        rw [hcaches _ (hinv'.page _ a ha).1]
        exact ⟨hb, w, a, ha, hrest⟩
    · dsimp only
      rw [Function.update_of_ne (by simp), hca]
      exact h.statics i
    · dsimp only
      rw [Function.update_of_ne (by simp), hca]
      exact h.cacheCache
  · simp only [herr, bind, Except.bind]
    exact .inr ⟨trivial, hpmm⟩

/-! ### Other users of the page allocator -/

theorem RunInv.setPmm (h : RunInv freeAddr entriesAddr entries s live others) {pmm : Pmm.State}
    {others' : Finset (Nat × Nat)}
    (hstep : ∀ L, Pmm.Reachable freeAddr entriesAddr entries s.pmm L → others ⊆ L →
      ∃ L', Pmm.Reachable freeAddr entriesAddr entries pmm L' ∧ others' ⊆ L' ∧
        ∀ b, b ∈ L' ∧ b ∉ others' ↔ b ∈ L ∧ b ∉ others) :
    RunInv freeAddr entriesAddr entries { s with pmm := pmm } live others' := by
  obtain ⟨lists, hinv⟩ := h.inv
  obtain ⟨L, hL, hsub, hown⟩ := hinv.pmm
  obtain ⟨L', hL', hsub', hkeep⟩ := hstep L hL hsub
  exact ⟨⟨lists, { hinv with pmm := ⟨L', hL', hsub', fun b => (hkeep b).trans (hown b)⟩ }⟩,
    h.statics, h.cacheCache⟩

theorem RunInv.otherAlloc (h : RunInv freeAddr entriesAddr entries s live others)
    (hboot : Pmm.BootOk freeAddr entriesAddr entries) {order pageNum : Nat} {pmm : Pmm.State}
    (he : Pmm.pmmAllocPages s.pmm order = some (pageNum, pmm)) :
    RunInv freeAddr entriesAddr entries { s with pmm := pmm } live
      (if pageNum = 0 then others else insert (pageNum, order) others) := by
  refine h.setPmm fun L hL hsub => ⟨_, hL.alloc he, ?_⟩
  obtain ⟨p, pmm', he', hfresh⟩ := hL.alloc_fresh hboot order
  obtain ⟨rfl, rfl⟩ : p = pageNum ∧ pmm' = pmm := by simpa [he'] using he
  split_ifs with h0
  · exact ⟨hsub, fun b => Iff.rfl⟩
  · refine ⟨Finset.insert_subset_insert _ hsub, fun b => ?_⟩
    rw [Finset.mem_insert, Finset.mem_insert, not_or]
    refine ⟨fun ⟨hb, hb'⟩ => ⟨hb.resolve_left hb'.1, hb'.2⟩, fun ⟨hb, hb'⟩ => ⟨.inr hb, ?_, hb'⟩⟩
    rintro rfl
    exact (hfresh h0).1 hb

theorem RunInv.otherFree (h : RunInv freeAddr entriesAddr entries s live others) {order pageNum : Nat}
    (hm : (pageNum, order) ∈ others) :
    RunInv freeAddr entriesAddr entries { s with pmm := Pmm.pmmFreePages s.pmm pageNum order } live
      (others.erase (pageNum, order)) := by
  refine h.setPmm fun L hL hsub => ⟨_, hL.free (hsub hm), Finset.erase_subset_erase _ hsub, fun b => ?_⟩
  rw [Finset.mem_erase, Finset.mem_erase]
  refine ⟨fun ⟨hb, hb'⟩ => ⟨hb.2, fun ho => hb' ⟨hb.1, ho⟩⟩, fun ⟨hb, hb'⟩ => ⟨⟨?_, hb⟩, fun ho => hb' ho.2⟩⟩
  rintro rfl
  exact hb' hm

theorem Run.inv (hboot : Pmm.BootOk freeAddr entriesAddr entries) (h : Run freeAddr entriesAddr entries s live others) :
    RunInv freeAddr entriesAddr entries s live others := by
  induction h with
  | init hp => exact .init hp
  | create _ hok he ih =>
    rcases ih.create hboot hok with ⟨o, s', he', h'⟩ | ⟨he', -⟩
    · obtain ⟨rfl, rfl⟩ : o = _ ∧ s' = _ := by simpa [he'] using he
      exact h'
    · rw [he'] at he; cases he
  | alloc _ hc he ih =>
    obtain ⟨lists, hinv⟩ := ih.inv
    rcases ih.alloc hboot hc (by simp) (hinv.cacheOk _ hc).object_le with ⟨o, s', he', h'⟩ | ⟨he', -⟩
    · obtain ⟨rfl, rfl⟩ : o = _ ∧ s' = _ := by simpa [slabAlloc, he'] using he
      exact h'
    · rw [slabAlloc, he'] at he; cases he
  | free _ ho hcc he ih =>
    obtain ⟨s', he', h'⟩ := ih.free ho hcc
    obtain rfl : s' = _ := by simpa [slabFree, he'] using he
    exact h'
  | @kmalloc s s' live others size index o _ hi he ih =>
    obtain ⟨hlt, hle⟩ := kmallocIndex_spec hi
    have hb : size ≤ (s.caches (.kmalloc index)).size := by rw [ih.statics]; exact hle
    rcases ih.alloc hboot (c := .kmalloc index) hlt (by simp) hb with
      ⟨o, s', he', h'⟩ | ⟨he', -⟩
    · obtain ⟨rfl, rfl⟩ : o = _ ∧ s' = _ := by simpa [Slab.kmalloc, hi, bind, Except.bind, he'] using he
      exact h'
    · simp [Slab.kmalloc, hi, bind, Except.bind, he'] at he
  | kfree _ ho hcc he ih =>
    obtain ⟨s', he', h'⟩ := ih.free ho hcc
    obtain rfl : s' = _ := by simpa [kfree_eq ih ho, he'] using he
    exact h'
  | otherAlloc _ he ih => exact ih.otherAlloc hboot he
  | otherFree _ hm ih => exact ih.otherFree hm

/-- The blocks of the other users are live in the page allocator. -/
theorem Run.others_spec (hboot : Pmm.BootOk freeAddr entriesAddr entries)
    (h : Run freeAddr entriesAddr entries s live others) {p k : Nat} (hb : (p, k) ∈ others) :
    p ≠ 0 ∧ p < 0xFFFFF ∧ ¬ Pmm.FreePage s.pmm p := by
  obtain ⟨lists, hinv⟩ := (h.inv hboot).inv
  obtain ⟨L, hL, hsub, -⟩ := hinv.pmm
  exact hL.live_spec hboot (hsub hb)

theorem Run.others_lt (hboot : Pmm.BootOk freeAddr entriesAddr entries)
    (h : Run freeAddr entriesAddr entries s live others) {p k : Nat} (hb : (p, k) ∈ others) :
    p < Pmm.maxUsableEnd entries.toList / pageSize := by
  obtain ⟨lists, hinv⟩ := (h.inv hboot).inv
  obtain ⟨L, hL, hsub, -⟩ := hinv.pmm
  exact hL.live_lt hboot (hsub hb)

/-- A reserved page is not free, and in no block of another user. -/
theorem Run.not_reserved (hboot : Pmm.BootOk freeAddr entriesAddr entries)
    (h : Run freeAddr entriesAddr entries s live others) {x : Nat} (hx : x ∈ Pmm.reservedPages freeAddr entriesAddr entries) :
    ¬ Pmm.FreePage s.pmm x ∧ ∀ k, (x, k) ∉ others := by
  obtain ⟨lists, hinv⟩ := (h.inv hboot).inv
  obtain ⟨L, hL, hsub, -⟩ := hinv.pmm
  refine ⟨fun hf => ((hL.freePage_iff hboot x).mp hf).1 hx, fun k hk => ?_⟩
  obtain ⟨hlen, areas, hp⟩ := hL.inv hboot
  exact Set.disjoint_left.mp ((hp.buddyInvariant hlen).live_reserved _ (hsub hk)) (self_mem_blk x k) hx

/-- A block that another user gets is none that it had. -/
theorem Run.others_fresh (hboot : Pmm.BootOk freeAddr entriesAddr entries)
    (h : Run freeAddr entriesAddr entries s live others) {order p : Nat} {pmm : Pmm.State}
    (he : Pmm.pmmAllocPages s.pmm order = some (p, pmm)) (hp : p ≠ 0) : (p, order) ∉ others := by
  obtain ⟨lists, hinv⟩ := (h.inv hboot).inv
  obtain ⟨L, hL, hsub, -⟩ := hinv.pmm
  obtain ⟨p', pmm', he', hfresh⟩ := hL.alloc_fresh hboot order
  obtain ⟨rfl, rfl⟩ : p' = p ∧ pmm' = pmm := by simpa [he'] using he
  exact fun hm => (hfresh hp).1 (hsub hm)

/-- Another user gets a page, or there is none. -/
theorem Run.alloc_page (hboot : Pmm.BootOk freeAddr entriesAddr entries)
    (h : Run freeAddr entriesAddr entries s live others) :
    ∃ p pmm, Pmm.pmmAllocPages s.pmm 0 = some (p, pmm) ∧
      (p = 0 → ∀ x, Pmm.FreePage pmm x ↔ Pmm.FreePage s.pmm x) ∧
      (p ≠ 0 → (p, 0) ∉ others ∧ Pmm.FreePage s.pmm p ∧ ∀ x, Pmm.FreePage pmm x ↔ Pmm.FreePage s.pmm x ∧ x ≠ p) := by
  obtain ⟨lists, hinv⟩ := (h.inv hboot).inv
  obtain ⟨L, hL, hsub, -⟩ := hinv.pmm
  obtain ⟨p, pmm, he, h₀, h₁⟩ := hL.alloc_page hboot
  exact ⟨p, pmm, he, h₀, fun hp => ⟨fun hm => (h₁ hp).1 (hsub hm), (h₁ hp).2⟩⟩

/-- The page allocator gives nothing only when no page is free, and changes nothing then. -/
theorem Run.no_page (hboot : Pmm.BootOk freeAddr entriesAddr entries)
    (h : Run freeAddr entriesAddr entries s live others) {pmm : Pmm.State}
    (he : Pmm.pmmAllocPages s.pmm 0 = some (0, pmm)) : pmm = s.pmm ∧ ∀ x, ¬ Pmm.FreePage s.pmm x := by
  obtain ⟨lists, hinv⟩ := (h.inv hboot).inv
  obtain ⟨L, hL, hsub, -⟩ := hinv.pmm
  obtain ⟨-, areas, hp⟩ := hL.inv hboot
  refine ⟨?_, fun x hx => (hp.pmmAllocPages_eq_zero_iff rfl (by decide)).mp ⟨pmm, he⟩ ⟨x, one_dvd x, fun y hy hy' => ?_⟩⟩
  · rcases hp.pmmAllocPages rfl 0 with ⟨p, s', areas', he', hp, -⟩ | ⟨he', -⟩
    · exact absurd (congrArg Prod.fst (Option.some.inj (he'.symm.trans he))) hp
    · exact (congrArg Prod.snd (Option.some.inj (he'.symm.trans he))).symm
  · obtain rfl : y = x := by omega
    exact hx

theorem Run.free_page (hboot : Pmm.BootOk freeAddr entriesAddr entries)
    (h : Run freeAddr entriesAddr entries s live others) {p : Nat} (hp : (p, 0) ∈ others) (x : Nat) :
    Pmm.FreePage (Pmm.pmmFreePages s.pmm p 0) x ↔ Pmm.FreePage s.pmm x ∨ x = p := by
  obtain ⟨lists, hinv⟩ := (h.inv hboot).inv
  obtain ⟨L, hL, hsub, -⟩ := hinv.pmm
  exact hL.free_page hboot (hsub hp) x

/-- An object that is handed out was not live, and is not the null pointer. -/
theorem Run.alloc_fresh (hboot : Pmm.BootOk freeAddr entriesAddr entries)
    (h : Run freeAddr entriesAddr entries s live others) {c : Cache} (hc : Valid live c) {o : Nat} {s' : State}
    (he : slabAlloc s c = .ok (o, s')) : o ≠ 0 ∧ live o = none := by
  obtain ⟨lists, hinv⟩ := (h.inv hboot).inv
  rcases hinv.allocObject hboot hc (Nat.zero_le _) with ⟨o', s'', -, he', ho, hnone, -⟩ | ⟨herr, -⟩
  · obtain ⟨rfl, rfl⟩ : o' = o ∧ s'' = s' := by simpa [slabAlloc, he'] using he
    exact ⟨ho, hnone⟩
  · rw [slabAlloc, herr] at he; cases he

theorem allocObjectFromSlab_pmm {slab o : Nat} {s s' : State} (h : allocObjectFromSlab s slab = .ok (o, s')) :
    s'.pmm = s.pmm := by
  unfold allocObjectFromSlab at h
  dsimp only at h
  split_ifs at h
  all_goals
    cases h
    rfl

theorem allocObjectFromSlabList_pmm {c : Cache} {l : SlabList} {o : Nat} {s s' : State}
    (h : allocObjectFromSlabList s c l = .ok (o, s')) : s'.pmm = s.pmm := by
  unfold allocObjectFromSlabList at h
  split at h
  · exact allocObjectFromSlab_pmm h
  · cases h
    rfl

theorem initSlabPage_pmm (s : State) (c : Cache) (slab : Nat) : (initSlabPage s c slab).pmm = s.pmm := by
  unfold initSlabPage
  rfl

/-- An allocation takes at most one page. -/
theorem slabAlloc_pmm {c : Cache} {o : Nat} {s s' : State} (h : slabAlloc s c = .ok (o, s')) :
    s'.pmm = s.pmm ∨ ∃ p, Pmm.pmmAllocPages s.pmm 0 = some (p, s'.pmm) := by
  unfold slabAlloc allocObject at h
  cases h₁ : allocObjectFromSlabList s c .partialSlab with
  | error e => simp [h₁, bind, Except.bind] at h
  | ok r₁ =>
    obtain ⟨o₁, s₁⟩ := r₁
    have e₁ := allocObjectFromSlabList_pmm h₁
    simp only [h₁, bind, Except.bind] at h
    split_ifs at h with ho₁
    · cases h
      exact .inl e₁
    cases h₂ : allocObjectFromSlabList s₁ c .freeSlab with
    | error e => simp [h₂] at h
    | ok r₂ =>
      obtain ⟨o₂, s₂⟩ := r₂
      have e₂ := (allocObjectFromSlabList_pmm h₂).trans e₁
      simp only [h₂] at h
      split_ifs at h with ho₂
      · cases h
        exact .inl e₂
      unfold allocObjectFromNewSlab at h
      cases h₃ : allocSlabPage s₂ c with
      | error e => simp [h₃, bind, Except.bind] at h
      | ok r₃ =>
        obtain ⟨slab, s₃⟩ := r₃
        cases h₄ : allocObjectFromSlab s₃ slab with
        | error e => simp [h₃, h₄, bind, Except.bind] at h
        | ok r₄ =>
          obtain ⟨o₄, s₄⟩ := r₄
          simp only [h₃, h₄, bind, Except.bind] at h
          split_ifs at h
          cases h
          unfold allocSlabPage at h₃
          rw [e₂] at h₃
          split at h₃
          · cases h₃
          · next p pmm hp =>
            dsimp only at h₃
            split_ifs at h₃
            have hs := (Prod.mk.inj (Except.ok.inj h₃)).2
            refine .inr ⟨p, ?_⟩
            rw [hp, allocObjectFromSlab_pmm h₄, ← hs, initSlabPage_pmm]

/-- An allocation frees nothing. -/
theorem Run.alloc_freePage (hboot : Pmm.BootOk freeAddr entriesAddr entries)
    (h : Run freeAddr entriesAddr entries s live others) {c : Cache} {o : Nat} {s' : State}
    (he : slabAlloc s c = .ok (o, s')) {x : Nat} (hx : Pmm.FreePage s'.pmm x) : Pmm.FreePage s.pmm x := by
  rcases slabAlloc_pmm he with e | ⟨p, hp⟩
  · rwa [e] at hx
  · obtain ⟨p', pmm, hp', hnone, hsome⟩ := h.alloc_page hboot
    obtain ⟨rfl, rfl⟩ : p' = p ∧ pmm = s'.pmm := by simpa [hp'] using hp
    by_cases h0 : p' = 0
    · exact (hnone h0 x).mp hx
    · exact (((hsome h0).2.2 x).mp hx).1

theorem slabFree_pmm {c : Cache} {o : Nat} {s s' : State} (h : slabFree s c o = .ok s') : s'.pmm = s.pmm := by
  unfold slabFree freeObject at h
  dsimp only at h
  split_ifs at h
  all_goals
    cases h
    rfl

/-! ### What the invariant says -/

end

end Airix.Slab
