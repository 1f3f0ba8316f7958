import Airix.Slab.Destroy

/-!
# The slab allocator with caches that come and go

`Life` are the states after any sequence of the operations of `Run` and of destructions. `slab_destroy` says what a
destruction does at any point of such a sequence.
-/

namespace Airix.Slab

/-- The live objects without those of a cache and without its descriptor. -/
def without (live : Nat → Option Live) (o x : Nat) : Option Live :=
  if x = o then none else (live x).filter fun l => l.cache ≠ .created o

/-- The states, with the live objects and the page blocks of the other users of the page allocator. `slab_alloc` and
`kmalloc` are `alloc`, `slab_free` and `kfree` are `free`. -/
inductive Life (freeAddr entriesAddr : Nat) (entries : Array Pmm.MmapEntry) :
    State → (Nat → Option Live) → Finset (Nat × Nat) → Prop
  | init {pmm : Pmm.State} {others : Finset (Nat × Nat)} : Pmm.Reachable freeAddr entriesAddr entries pmm others →
    Life freeAddr entriesAddr entries (initState pmm) (fun _ => none) others
  | create {s s' : State} {live : Nat → Option Live} {others : Finset (Nat × Nat)} {objectSize align o : Nat} :
    Life freeAddr entriesAddr entries s live others → CreateOk objectSize align →
      slabCreateKmemCache s objectSize align = .ok (o, s') →
      Life freeAddr entriesAddr entries s' (Function.update live o (some ⟨.cacheCache, sizeofKmemCache⟩)) others
  | destroy {s s' : State} {live : Nat → Option Live} {others : Finset (Nat × Nat)} {fuel o : Nat} :
    Life freeAddr entriesAddr entries s live others → Valid live (.created o) →
      slabDestroyKmemCache fuel s o = some (.ok s') → Life freeAddr entriesAddr entries s' (without live o) others
  | alloc {s s' : State} {live : Nat → Option Live} {others : Finset (Nat × Nat)} {c : Cache} {bytes o : Nat} :
    Life freeAddr entriesAddr entries s live others → Valid live c → c ≠ .cacheCache → bytes ≤ (s.caches c).size →
      allocObject s c = .ok (o, s') →
      Life freeAddr entriesAddr entries s' (Function.update live o (some ⟨c, bytes⟩)) others
  | free {s s' : State} {live : Nat → Option Live} {others : Finset (Nat × Nat)} {o : Nat} {l : Live} :
    Life freeAddr entriesAddr entries s live others → live o = some l → l.cache ≠ .cacheCache →
      freeObject s l.cache o = .ok s' → Life freeAddr entriesAddr entries s' (Function.update live o none) others
  | otherAlloc {s : State} {live : Nat → Option Live} {others : Finset (Nat × Nat)} {order pageNum : Nat}
      {pmm : Pmm.State} :
    Life freeAddr entriesAddr entries s live others → Pmm.pmmAllocPages s.pmm order = some (pageNum, pmm) →
      Life freeAddr entriesAddr entries { s with pmm := pmm } live
        (if pageNum = 0 then others else insert (pageNum, order) others)
  | otherFree {s : State} {live : Nat → Option Live} {others : Finset (Nat × Nat)} {pageNum order : Nat} :
    Life freeAddr entriesAddr entries s live others → (pageNum, order) ∈ others →
      Life freeAddr entriesAddr entries { s with pmm := Pmm.pmmFreePages s.pmm pageNum order } live
        (others.erase (pageNum, order))

/-- What destroying the cache with the descriptor `o` does. -/
structure Destroyed (s s' : State) (live : Nat → Option Live) (o : Nat) (pages : List Nat) : Prop where
  /-- The pages are those of its three lists, each of them once. -/
  nodup : pages.Nodup
  mem_pages : ∀ a, a ∈ pages ↔ ∃ w l, s.links.IsRing (.head (.created o) w) l ∧ .page a ∈ l
  /-- They are given back one after the other, and nothing else happens to the page allocator. -/
  pmm : s'.pmm = freedPages s.pmm pages
  not_free : ∀ a ∈ pages, ¬ Pmm.FreePage s.pmm (frame a)
  frames : ∀ a ∈ pages, ∀ b ∈ pages, frame a = frame b → a = b
  freePage : ∀ x, Pmm.FreePage s'.pmm x ↔ Pmm.FreePage s.pmm x ∨ ∃ a ∈ pages, x = frame a
  caches : ∃ cs, s.cacheLinks.IsRing .cacheCache cs ∧ .created o ∈ cs ∧
    s'.cacheLinks.IsRing .cacheCache (cs.erase (.created o))
  /-- The descriptor goes back to its page, and to the lists of this page. -/
  descriptor : (s.slabs (virtToPage o)).cache = .cacheCache ∧
    s'.slabs (virtToPage o) = (s.slabs (virtToPage o)).given o
  cacheCache : ∀ w l, s.links.IsRing (.head .cacheCache w) l → ∃ l', s'.links.IsRing (.head .cacheCache w) l' ∧
    ∀ n, n ≠ .page (virtToPage o) → (n ∈ l' ↔ n ∈ l)
  /-- The other caches keep their lists and their pages, and all of them what they are. -/
  lists : ∀ c, Valid live c → c ≠ .created o → c ≠ .cacheCache → ∀ w l, s.links.IsRing (.head c w) l →
    s'.links.IsRing (.head c w) l
  slabs : ∀ a, a ≠ virtToPage o → s'.slabs a = s.slabs a
  same : s'.caches = s.caches

section
variable {freeAddr entriesAddr : Nat} {entries : Array Pmm.MmapEntry} {s s' : State}
  {live : Nat → Option Live} {others : Finset (Nat × Nat)} {lists : Cache × SlabList → List Nat}

/-- The invariant, with the list of the caches. -/
structure LifeInv (freeAddr entriesAddr : Nat) (entries : Array Pmm.MmapEntry) (s : State)
    (live : Nat → Option Live) (others : Finset (Nat × Nat)) : Prop where
  run : RunInv freeAddr entriesAddr entries s live others
  caches : ∃ cs, s.cacheLinks.IsRing .cacheCache cs ∧ ∀ c, c ∈ cs ↔ (∃ o, c = .created o) ∧ Valid live c

/-- An allocation leaves the list of the caches alone. -/
theorem RunInv.alloc_rest (h : RunInv freeAddr entriesAddr entries s live others)
    (hboot : Pmm.BootOk freeAddr entriesAddr entries) {c : Cache} {o : Nat} (hc : Valid live c)
    (he : allocObject s c = .ok (o, s')) : live o = none ∧ s'.cacheLinks = s.cacheLinks := by
  obtain ⟨lists, hinv⟩ := h.inv
  rcases hinv.allocObject hboot hc (Nat.zero_le _) with ⟨o', s'', -, he', -, hnone, -, hlinks, -⟩ | ⟨he', -⟩
  · obtain ⟨rfl, rfl⟩ : o' = o ∧ s'' = s' := by simpa [he'] using he
    exact ⟨hnone, hlinks⟩
  · rw [he'] at he
    cases he

namespace LifeInv

theorem init {pmm : Pmm.State} (h : Pmm.Reachable freeAddr entriesAddr entries pmm others) :
    LifeInv freeAddr entriesAddr entries (initState pmm) (fun _ => none) others := by
  refine ⟨.init h, [], ⟨by simp, .cons_cons ⟨rfl, rfl⟩ (.singleton _)⟩, fun c => iff_of_false (by simp) ?_⟩
  rintro ⟨⟨o, rfl⟩, bytes, hb⟩
  cases hb

/-- The caches do not change with objects that are no descriptors. -/
theorem keep (h : LifeInv freeAddr entriesAddr entries s live others) {live' : Nat → Option Live}
    {others' : Finset (Nat × Nat)} (hrun : RunInv freeAddr entriesAddr entries s' live' others')
    (hlinks : s'.cacheLinks = s.cacheLinks) (hvalid : {c | Valid live' c} = {c | Valid live c}) :
    LifeInv freeAddr entriesAddr entries s' live' others' := by
  obtain ⟨cs, hring, hmem⟩ := h.caches
  refine ⟨hrun, cs, by rwa [hlinks], fun c => (hmem c).trans ?_⟩
  have : Valid live' c ↔ Valid live c := Set.ext_iff.mp hvalid c
  rw [this]

theorem create (h : LifeInv freeAddr entriesAddr entries s live others)
    (hboot : Pmm.BootOk freeAddr entriesAddr entries) {objectSize al o : Nat} (hok : CreateOk objectSize al)
    (he : slabCreateKmemCache s objectSize al = .ok (o, s')) :
    LifeInv freeAddr entriesAddr entries s' (Function.update live o (some ⟨.cacheCache, sizeofKmemCache⟩)) others := by
  obtain ⟨cs, hring, hmem⟩ := h.caches
  have hrun : RunInv freeAddr entriesAddr entries s'
      (Function.update live o (some ⟨.cacheCache, sizeofKmemCache⟩)) others := by
    rcases h.run.create hboot hok with ⟨o', s'', he', h'⟩ | ⟨he', -⟩
    · obtain ⟨rfl, rfl⟩ : o' = o ∧ s'' = s' := by simpa [he'] using he
      exact h'
    · rw [he'] at he
      cases he
  have hlinks : live o = none ∧ s'.cacheLinks = s.cacheLinks.insertFront .cacheCache (.created o) := by
    unfold slabCreateKmemCache at he
    cases halloc : allocObject s .cacheCache with
    | error e => simp [halloc, bind, Except.bind] at he
    | ok r =>
      obtain ⟨o₁, s₁⟩ := r
      obtain ⟨hnone, hlinks⟩ := h.run.alloc_rest hboot (c := .cacheCache) trivial halloc
      simp only [halloc, bind, Except.bind] at he
      cases he
      exact ⟨hnone, by dsimp only; rw [hlinks]⟩
  obtain ⟨hnone, hlinks⟩ := hlinks
  refine ⟨hrun, .created o :: cs, ?_, fun c => ?_⟩
  · rw [hlinks]
    refine hring.insertFront fun hm => ?_
    rcases List.mem_cons.mp hm with e | hm
    · cases e
    · obtain ⟨-, bytes, hb⟩ := (hmem _).mp hm
      rw [hnone] at hb
      cases hb
  · have hvalid : Valid (Function.update live o (some ⟨.cacheCache, sizeofKmemCache⟩)) c ↔
        c = .created o ∨ Valid live c := Set.ext_iff.mp valid_create c
    rw [List.mem_cons, hmem, hvalid]
    constructor
    · rintro (rfl | ⟨ho, hc⟩)
      · exact ⟨⟨o, rfl⟩, .inl rfl⟩
      · exact ⟨ho, .inr hc⟩
    · rintro ⟨ho, rfl | hc⟩
      · exact .inl rfl
      · exact .inr ⟨ho, hc⟩

theorem alloc (h : LifeInv freeAddr entriesAddr entries s live others)
    (hboot : Pmm.BootOk freeAddr entriesAddr entries) {c : Cache} {bytes o : Nat} (hc : Valid live c)
    (hcc : c ≠ .cacheCache) (hb : bytes ≤ (s.caches c).size) (he : allocObject s c = .ok (o, s')) :
    LifeInv freeAddr entriesAddr entries s' (Function.update live o (some ⟨c, bytes⟩)) others := by
  obtain ⟨hnone, hlinks⟩ := h.run.alloc_rest hboot hc he
  rcases h.run.alloc hboot hc hcc hb with ⟨o', s'', he', h'⟩ | ⟨he', -⟩
  · obtain ⟨rfl, rfl⟩ : o' = o ∧ s'' = s' := by simpa [he'] using he
    refine h.keep h' hlinks (valid_update (by simp [hnone]) fun y hy => ?_)
    obtain rfl := Option.some.inj hy
    exact hcc
  · rw [he'] at he
    cases he

theorem free (h : LifeInv freeAddr entriesAddr entries s live others) {o : Nat} {l : Live} (ho : live o = some l)
    (hcc : l.cache ≠ .cacheCache) (he : freeObject s l.cache o = .ok s') :
    LifeInv freeAddr entriesAddr entries s' (Function.update live o none) others := by
  obtain ⟨lists, hinv⟩ := h.run.inv
  obtain ⟨s₁, lists', he₁, -, hlinks, -⟩ := hinv.freeObject ho
  obtain ⟨s₂, he₂, hrun⟩ := h.run.free ho hcc
  obtain rfl : s₁ = s' := Except.ok.inj (he₁.symm.trans he)
  obtain rfl : s₂ = s₁ := Except.ok.inj (he₂.symm.trans he)
  refine h.keep hrun hlinks (valid_update (fun n hn => hcc ?_) fun y hy => by cases hy)
  rw [ho] at hn
  rw [Option.some.inj hn]

/-- Its live objects are those in the pages of the cache. -/
theorem without_eq {V : Set Cache} (h : Inv freeAddr entriesAddr entries V s live others lists) (o : Nat) :
    Function.update (outside (pagesOf lists (.created o)) live) o none = without live o := by
  funext x
  unfold without
  by_cases hx : x = o
  · rw [hx, Function.update_self, if_pos rfl]
  rw [Function.update_of_ne hx, if_neg hx, outside]
  cases hl : live x with
  | none => simp
  | some l =>
    obtain ⟨w, hw, -⟩ := h.live_page hl
    have hmem : virtToPage x ∈ pagesOf lists (.created o) ↔ l.cache = .created o := by
      rw [mem_pagesOf]
      exact ⟨fun ⟨w', hw'⟩ => congrArg Prod.fst (h.list_unique hw hw'), fun e => ⟨w, e ▸ hw⟩⟩
    by_cases hc : l.cache = .created o
    · rw [if_pos (hmem.mpr hc)]
      simp [Option.filter, hc]
    · rw [if_neg (mt hmem.mp hc)]
      simp [Option.filter, hc]

theorem valid_without (o : Nat) (c : Cache) :
    Valid (without live o) c ↔ c ≠ .created o ∧ Valid live c := by
  cases c with
  | cacheCache => exact ⟨fun _ => ⟨by simp, trivial⟩, fun _ => trivial⟩
  | kmalloc i => exact ⟨fun h => ⟨by simp, h⟩, fun h => h.2⟩
  | created b =>
    show (∃ bytes, without live o b = _) ↔ _ ∧ ∃ bytes, live b = _
    unfold without
    by_cases hb : b = o
    · simp [hb]
    · have hne : Cache.created b ≠ .created o := fun e => hb (Cache.created.inj e)
      rw [if_neg hb]
      constructor
      · rintro ⟨bytes, h⟩
        exact ⟨hne, bytes, (Option.filter_eq_some_iff.mp h).1⟩
      · rintro ⟨-, bytes, h⟩
        exact ⟨bytes, Option.filter_eq_some_iff.mpr ⟨h, by simp⟩⟩

end LifeInv

theorem freePage_freedPages (hboot : Pmm.BootOk freeAddr entriesAddr entries) (x : Nat) : ∀ {pages : List Nat}
    {pmm : Pmm.State} {L : Finset (Nat × Nat)}, Pmm.Reachable freeAddr entriesAddr entries pmm L →
    (∀ a ∈ pages, (frame a, 0) ∈ L) → (pages.map frame).Nodup →
    (Pmm.FreePage (freedPages pmm pages) x ↔ Pmm.FreePage pmm x ∨ ∃ a ∈ pages, x = frame a)
  | [], _, _, _, _, _ => by simp [freedPages]
  | a :: pages, pmm, L, hL, hmem, hnd => by
    rw [List.map_cons, List.nodup_cons] at hnd
    have ha := hmem a (.head _)
    have hrest : ∀ b ∈ pages, (frame b, 0) ∈ L.erase (frame a, 0) := by
      intro b hb
      refine Finset.mem_erase.mpr ⟨fun e => hnd.1 ?_, hmem b (.tail _ hb)⟩
      rw [show frame a = frame b from (congrArg Prod.fst e).symm]
      exact List.mem_map_of_mem hb
    rw [freedPages_cons, freePage_freedPages hboot x (hL.free ha) hrest hnd.2, hL.free_page hboot ha x]
    simp only [List.mem_cons, exists_eq_or_imp, or_assoc]

theorem Inv.pagesOf_nodup {V : Set Cache} (h : Inv freeAddr entriesAddr entries V s live others lists) {c : Cache}
    (hc : c ∈ V) : (pagesOf lists c).Nodup := by
  have hdisj : ∀ w w', w ≠ w' → (lists (c, w)).Disjoint (lists (c, w')) := fun w w' hne a ha ha' =>
    hne (congrArg Prod.snd (h.list_unique ha ha'))
  have hnd : ∀ w, (lists (c, w)).Nodup := fun w => h.lists_nodup (k := (c, w)) hc
  rw [pagesOf, List.nodup_append', List.nodup_append', List.disjoint_append_left]
  exact ⟨⟨hnd _, hnd _, hdisj _ _ (by simp)⟩, hnd _, hdisj _ _ (by simp), hdisj _ _ (by simp)⟩

namespace LifeInv

theorem destroy (h : LifeInv freeAddr entriesAddr entries s live others)
    (hboot : Pmm.BootOk freeAddr entriesAddr entries) {o : Nat} (ho : Valid live (.created o)) :
    ∃ n s' pages, (∀ fuel ≥ n, slabDestroyKmemCache fuel s o = some (.ok s')) ∧ Destroyed s s' live o pages ∧
      LifeInv freeAddr entriesAddr entries s' (without live o) others := by
  obtain ⟨lists, hinv⟩ := h.run.inv
  obtain ⟨cs, hring, hmem⟩ := h.caches
  obtain ⟨bytes, hlive⟩ := id ho
  obtain ⟨n, s', lists', hrun, hcaches, hlinks, hslabs, hpmm, hinv', hother, hsame⟩ :=
    hinv.slabDestroyKmemCache ho hlive rfl
  rw [without_eq hinv] at hinv'
  have hvalid : ∀ c, Valid (without live o) c ↔ c ≠ .created o ∧ Valid live c := valid_without o
  have hring' : s'.cacheLinks.IsRing .cacheCache (cs.erase (.created o)) := by
    rw [hlinks]
    exact hring.unlink ((hmem _).mpr ⟨⟨o, rfl⟩, ho⟩)
  obtain ⟨w₀, hw₀, hcache₀, -⟩ := hinv.live_page hlive
  obtain ⟨L, hL, hsub, hown⟩ := hinv.pmm
  have hpages : ∀ a ∈ pagesOf lists (.created o), PageAddr a ∧ (frame a, 0) ∈ L := by
    intro a ha
    obtain ⟨w, hw⟩ := mem_pagesOf.mp ha
    exact ⟨(hinv.page _ a hw).2.2.2.1, ((hown _).mpr ⟨_, a, hw, rfl⟩).1⟩
  have hframes : ∀ a ∈ pagesOf lists (.created o), ∀ b ∈ pagesOf lists (.created o), frame a = frame b → a = b :=
    fun a ha b hb => frame_inj (hpages a ha).1 (hpages b hb).1
  have hlist : ∀ c, Valid live c → ∀ w l, s.links.IsRing (.head c w) l → l = (lists (c, w)).map .page :=
    fun c hc w l hl => hl.unique (hinv.rings.ring (c, w) hc)
  refine ⟨n, s', pagesOf lists (.created o), hrun, ?_, ⟨⟨⟨lists', ?_⟩, fun i => ?_, ?_⟩, _, hring', fun c => ?_⟩⟩
  · refine ⟨hinv.pagesOf_nodup ho, fun a => ?_, hpmm, fun a ha hfree => ?_, hframes, fun x => ?_,
      ⟨cs, hring, (hmem _).mpr ⟨⟨o, rfl⟩, ho⟩, hring'⟩, ⟨hcache₀, by rw [hslabs, Function.update_self]⟩,
      fun w l hl => ?_, fun c hc hne hcc w l hl => ?_, fun a ha => by rw [hslabs, Function.update_of_ne ha], hcaches⟩
    · rw [mem_pagesOf]
      constructor
      · rintro ⟨w, hw⟩
        exact ⟨w, _, hinv.rings.ring (_, w) ho, List.mem_map_of_mem hw⟩
      · rintro ⟨w, l, hl, ha⟩
        rw [hlist _ ho w l hl] at ha
        exact ⟨w, by simpa using ha⟩
    · exact ((hL.freePage_iff hboot _).mp hfree).2 _ (hpages a ha).2 (self_mem_blk _ _)
    · rw [hpmm]
      exact freePage_freedPages hboot x hL (fun a ha => (hpages a ha).2)
        (List.Nodup.map_on (fun a ha b hb e => hframes a ha b hb e) (hinv.pagesOf_nodup ho))
    · have hV : Valid (without live o) .cacheCache := trivial
      refine ⟨_, hinv'.rings.ring (.cacheCache, w) trivial, fun n hn => ?_⟩
      rw [hlist .cacheCache trivial w l hl]
      cases n with
      | head c w' => simp
      | page a =>
        have ha : a ≠ virtToPage o := fun e => hn (e ▸ rfl)
        simpa using hsame w a ha
    · rw [hlist _ hc w l hl]
      have := hinv'.rings.ring (c, w) hc
      rwa [hother (c, w) hcc, if_neg hne] at this
  · refine hinv'.mono (fun c hc => ((hvalid c).mp hc).2) ⟨trivial, fun i hi => hi⟩ fun k hk => ?_
    by_cases hkc : k.1 = .created o
    · rw [hother k (by rw [hkc]; simp), if_pos hkc]
    · refine List.eq_nil_iff_forall_not_mem.mpr fun a ha => hk ((hvalid _).mpr ⟨hkc, (hinv'.page k a ha).1⟩)
  · rw [hcaches]
    exact h.run.statics i
  · rw [hcaches]
    exact h.run.cacheCache
  · rw [(hring.nodup_list).mem_erase_iff, hmem, hvalid]
    exact ⟨fun ⟨hne, hc, hv⟩ => ⟨hc, hne, hv⟩, fun ⟨hc, hne, hv⟩ => ⟨hne, hc, hv⟩⟩

end LifeInv

theorem Life.inv (hboot : Pmm.BootOk freeAddr entriesAddr entries)
    (h : Life freeAddr entriesAddr entries s live others) : LifeInv freeAddr entriesAddr entries s live others := by
  induction h with
  | init hp => exact .init hp
  | create _ hok he ih => exact ih.create hboot hok he
  | destroy _ ho he ih =>
    obtain ⟨n, s₁, pages, hrun, -, hinv⟩ := ih.destroy hboot ho
    obtain rfl : s₁ = _ := Except.ok.inj (slabDestroyKmemCache_unique (hrun n le_rfl) he)
    exact hinv
  | alloc _ hc hcc hb he ih => exact ih.alloc hboot hc hcc hb he
  | free _ ho hcc he ih => exact ih.free ho hcc he
  | otherAlloc _ he ih => exact ih.keep (ih.run.otherAlloc hboot he) rfl rfl
  | otherFree _ hm ih => exact ih.keep (ih.run.otherFree hm) rfl rfl

end

end Airix.Slab
