import Airix.Slab.Runs

/-!
# Destroying a cache

`slab_destroy_kmem_cache` unlinks the cache, gives the pages of its three lists back and then the descriptor. A
walk that has no end is a `none`; a null pointer on the way is the panic `fault`.
-/

namespace Airix.Slab

/-! ### `slab_destroy_kmem_cache` -/

/-- `pmm_free_page_address(CAST_VIRTUAL_TO_PHYSICAL(slab))`. -/
def freeSlabPage (s : State) (slab : Nat) : State :=
  { s with pmm := Pmm.pmmFreePages s.pmm (pageNumber (castVirtualToPhysical slab)) 0 }

/-- The loop of `slab_list_destroy`, from the node `slab` on. -/
def slabListDestroyLoop (head : Node) : Nat → Option Node → State → Option (Except Panic State)
  | 0, _, _ => none
  | fuel + 1, slab, s =>
    if slab = some head then some (.ok s)
    else
      match slab with
      | none => some (.error .fault)
      | some (.head _ _) => some (.error .fault)
      | some (.page temp) =>
        let next := s.links.next (.page temp)
        let s := { s with links := s.links.unlink (.page temp) }
        slabListDestroyLoop head fuel next (freeSlabPage s temp)

def slabListDestroy (fuel : Nat) (s : State) (head : Node) : Option (Except Panic State) :=
  slabListDestroyLoop head fuel (s.links.next head) s

/-- The next statement, where there was no panic. -/
def andThen (r : Option (Except Panic State)) (f : State → Option (Except Panic State)) : Option (Except Panic State) :=
  match r with
  | none => none
  | some (.error e) => some (.error e)
  | some (.ok s) => f s

/-- `cache` is the address of a descriptor that `slab_create_kmem_cache` returned. -/
def slabDestroyKmemCache (fuel : Nat) (s : State) (cache : Nat) : Option (Except Panic State) :=
  let c := Cache.created cache
  let s := { s with cacheLinks := s.cacheLinks.unlink c }
  andThen (slabListDestroy fuel s (.head c .freeSlab)) fun s =>
  andThen (slabListDestroy fuel s (.head c .partialSlab)) fun s =>
  andThen (slabListDestroy fuel s (.head c .fullSlab)) fun s =>
  some (freeObject s .cacheCache cache)

/-! ### One page -/

/-- The live objects that are not in one of the pages. -/
def outside (pages : List Nat) (live : Nat → Option Live) (o : Nat) : Option Live :=
  if virtToPage o ∈ pages then none else live o

section
variable {freeAddr entriesAddr : Nat} {entries : Array Pmm.MmapEntry} {V : Set Cache} {s : State}
  {live : Nat → Option Live} {others : Finset (Nat × Nat)} {lists : Cache × SlabList → List Nat}
  {k : Cache × SlabList} {a : Nat}

theorem freeSlabPage_pmm : (freeSlabPage s a).pmm = Pmm.pmmFreePages s.pmm (frame a) 0 := rfl

/-- Giving a page back touches nothing else. -/
theorem freeSlabPage_rest : (freeSlabPage s a).slabs = s.slabs ∧ (freeSlabPage s a).caches = s.caches ∧
    (freeSlabPage s a).cacheLinks = s.cacheLinks := by
  unfold freeSlabPage
  exact ⟨rfl, rfl, rfl⟩

theorem slabListDestroyLoop_head {head : Node} {fuel : Nat} :
    slabListDestroyLoop head (fuel + 1) (some head) s = some (.ok s) := if_pos rfl

theorem slabListDestroyLoop_page {c : Cache} {w : SlabList} {fuel : Nat} :
    slabListDestroyLoop (.head c w) (fuel + 1) (some (.page a)) s =
      slabListDestroyLoop (.head c w) fuel (s.links.next (.page a))
        (freeSlabPage { s with links := s.links.unlink (.page a) } a) := if_neg (by simp)

/-- More fuel does not change a result. -/
theorem slabListDestroyLoop_mono {head : Node} {r : Except Panic State} : ∀ {fuel : Nat} {slab : Option Node}
    {s : State}, slabListDestroyLoop head fuel slab s = some r → slabListDestroyLoop head (fuel + 1) slab s = some r
  | fuel + 1, none, s, h => h
  | fuel + 1, some (.head c w), s, h => by
    rw [slabListDestroyLoop] at h ⊢
    exact h
  | fuel + 1, some (.page a), s, h => by
    rw [slabListDestroyLoop] at h ⊢
    split_ifs at h ⊢ with he
    · exact h
    · exact slabListDestroyLoop_mono h

theorem andThen_mono {x y : Option (Except Panic State)} {f g : State → Option (Except Panic State)}
    {r : Except Panic State} (hx : ∀ {r : Except Panic State}, x = some r → y = some r)
    (hf : ∀ {s : State} {r : Except Panic State}, f s = some r → g s = some r) (h : andThen x f = some r) :
    andThen y g = some r := by
  rcases x with _ | e | s
  · cases h
  · rw [hx rfl]
    exact h
  · rw [hx rfl]
    exact hf h

theorem slabDestroyKmemCache_mono {fuel o : Nat} {r : Except Panic State} (h : slabDestroyKmemCache fuel s o = some r) :
    slabDestroyKmemCache (fuel + 1) s o = some r :=
  andThen_mono slabListDestroyLoop_mono
    (andThen_mono slabListDestroyLoop_mono (andThen_mono slabListDestroyLoop_mono fun h => h)) h

theorem slabDestroyKmemCache_unique {fuel fuel' o : Nat} {r r' : Except Panic State}
    (h : slabDestroyKmemCache fuel s o = some r) (h' : slabDestroyKmemCache fuel' s o = some r') : r = r' := by
  have hmono : ∀ n {fuel r}, slabDestroyKmemCache fuel s o = some r → slabDestroyKmemCache (fuel + n) s o = some r := by
    intro n
    induction n with
    | zero => exact fun h => h
    | succ n ih => exact fun h => slabDestroyKmemCache_mono (ih h)
  have h₁ := hmono fuel' h
  have h₂ := hmono fuel h'
  rw [Nat.add_comm, h₁] at h₂
  exact Option.some.inj h₂

theorem outside_nil : outside [] live = live := rfl

theorem outside_outside (pages pages' : List Nat) :
    outside pages' (outside pages live) = outside (pages ++ pages') live := by
  funext o
  unfold outside
  by_cases h : virtToPage o ∈ pages <;> by_cases h' : virtToPage o ∈ pages' <;> simp [h, h']

theorem frame_inj {b : Nat} (ha : PageAddr a) (hb : PageAddr b) (h : frame a = frame b) : a = b := by
  obtain ⟨ha, ha'⟩ := ha
  obtain ⟨hb, hb'⟩ := hb
  simp only [frame, pageNumber, castVirtualToPhysical, u32, kernelBase, pageSize] at *
  omega

/-- Giving back pages one after the other. -/
def freedPages (pmm : Pmm.State) (pages : List Nat) : Pmm.State :=
  pages.foldl (fun pmm a => Pmm.pmmFreePages pmm (frame a) 0) pmm

theorem freedPages_cons {pmm : Pmm.State} {pages : List Nat} :
    freedPages pmm (a :: pages) = freedPages (Pmm.pmmFreePages pmm (frame a) 0) pages := rfl

/-- The pages of a cache, in the order in which they are given back. -/
def pagesOf (lists : Cache × SlabList → List Nat) (c : Cache) : List Nat :=
  lists (c, .freeSlab) ++ lists (c, .partialSlab) ++ lists (c, .fullSlab)

theorem mem_pagesOf {c : Cache} : a ∈ pagesOf lists c ↔ ∃ w, a ∈ lists (c, w) := by
  unfold pagesOf
  rw [List.mem_append, List.mem_append]
  constructor
  · rintro ((h | h) | h)
    · exact ⟨_, h⟩
    · exact ⟨_, h⟩
    · exact ⟨_, h⟩
  · rintro ⟨w, h⟩
    cases w
    · exact .inr h
    · exact .inl (.inr h)
    · exact .inl (.inl h)

namespace Inv

/-- A page leaves its list with its objects, and goes back to the page allocator. -/
theorem dropPage (h : Inv freeAddr entriesAddr entries V s live others lists) (ha : a ∈ lists k) :
    Inv freeAddr entriesAddr entries V (freeSlabPage { s with links := s.links.unlink (.page a) } a)
      (outside [a] live) others (Function.update lists k ((lists k).erase a)) := by
  obtain ⟨hV, -, -, haddr, -⟩ := h.page k a ha
  have hmem : ∀ j b, b ∈ Function.update lists k ((lists k).erase a) j ↔ b ≠ a ∧ b ∈ lists j := by
    intro j b
    by_cases e : j = k
    · subst e
      rw [Function.update_self, (h.lists_nodup hV).mem_erase_iff]
    · rw [Function.update_of_ne e]
      exact ⟨fun hb => ⟨by rintro rfl; exact e (h.list_unique hb ha), hb⟩, fun hb => hb.2⟩
  refine ⟨h.static, h.cacheOk, ?_, fun j b hb => ?_, fun o l ho => ?_, ?_⟩
  · have hr := h.rings.unlink (k := k) hV (List.mem_map_of_mem ha)
    rw [← List.map_erase (fun _ _ e => Node.page.inj e)] at hr
    have hmap : Function.update (fun k => (lists k).map Node.page) k (((lists k).erase a).map Node.page) =
        fun j => (Function.update lists k ((lists k).erase a) j).map Node.page := by
      funext j
      by_cases e : j = k
      · subst e; simp
      · simp [e]
    rw [hmap] at hr
    exact hr
  · obtain ⟨hne, hb⟩ := (hmem j b).mp hb
    obtain ⟨hVj, hc, hw, hb', hinv⟩ := h.page j b hb
    refine ⟨hVj, hc, hw, hb', hinv.congr fun i hi => if_neg ?_⟩
    rw [hinv.virtToPage_slot hb' (h.cacheOk _ hVj).size_pos hi, List.mem_singleton]
    exact hne
  · unfold outside at ho
    split at ho
    · cases ho
    next hout =>
    obtain ⟨hbytes, w, b, hb, j, hj, hoj⟩ := h.live o l ho
    refine ⟨hbytes, w, b, (hmem _ b).mpr ⟨?_, hb⟩, j, hj, hoj⟩
    rintro rfl
    obtain ⟨hVb, -, -, hb', hinv⟩ := h.page _ b hb
    rw [hoj, hinv.virtToPage_slot hb' (h.cacheOk _ hVb).size_pos hj] at hout
    exact hout List.mem_cons_self
  · obtain ⟨L, hL, hsub, hown⟩ := h.pmm
    obtain ⟨hLa, hoa⟩ := (hown _).mpr ⟨k, a, ha, rfl⟩
    refine ⟨L.erase (frame a, 0), hL.free hLa, fun p hp => Finset.mem_erase.mpr ⟨?_, hsub hp⟩, fun p => ?_⟩
    · rintro rfl
      exact hoa hp
    · rw [Finset.mem_erase]
      constructor
      · rintro ⟨⟨hne, hp⟩, hno⟩
        obtain ⟨j, b, hb, rfl⟩ := (hown p).mp ⟨hp, hno⟩
        exact ⟨j, b, (hmem j b).mpr ⟨by rintro rfl; exact hne rfl, hb⟩, rfl⟩
      · rintro ⟨j, b, hb, rfl⟩
        obtain ⟨hne, hb⟩ := (hmem j b).mp hb
        obtain ⟨hp, hno⟩ := (hown _).mpr ⟨j, b, hb, rfl⟩
        refine ⟨⟨fun e => hne ?_, hp⟩, hno⟩
        exact frame_inj (h.page j b hb).2.2.2.1 haddr (congrArg Prod.fst e)

/-! ### A list -/

/-- `slab_list_destroy` gives back the pages of one list. -/
theorem slabListDestroy (h : Inv freeAddr entriesAddr entries V s live others lists) (hk : k.1 ∈ V) :
    ∃ s', (∀ fuel > (lists k).length, slabListDestroy fuel s (.head k.1 k.2) = some (.ok s')) ∧
      s'.slabs = s.slabs ∧ s'.caches = s.caches ∧ s'.cacheLinks = s.cacheLinks ∧
      s'.pmm = freedPages s.pmm (lists k) ∧
      Inv freeAddr entriesAddr entries V s' (outside (lists k) live) others (Function.update lists k []) := by
  generalize hl : lists k = l
  unfold Slab.slabListDestroy
  induction l generalizing s live lists with
  | nil =>
    have hnext : s.links.next (.head k.1 k.2) = some (.head k.1 k.2) := by
      have := (h.rings.ring k hk).next_eq
      rwa [hl] at this
    refine ⟨s, fun fuel hfuel => ?_, rfl, rfl, rfl, rfl, ?_⟩
    · obtain ⟨n, rfl⟩ := Nat.exists_eq_add_of_lt hfuel
      rw [hnext, slabListDestroyLoop_head]
    · rwa [Function.update_eq_self_iff.mpr hl.symm, outside_nil]
  | cons a l ih =>
    have ha : a ∈ lists k := hl ▸ List.mem_cons_self
    have hdrop := h.dropPage ha
    have hrest : (lists k).erase a = l := by rw [hl, List.erase_cons_head]
    rw [hrest] at hdrop
    have hring := h.rings.ring k hk
    rw [hl] at hring
    have hnext : s.links.next (.head k.1 k.2) = some (.page a) := hring.next_cons
    -- the next node is read before the page goes
    have hread : s.links.next (.page a) = (s.links.unlink (.page a)).next (.head k.1 k.2) := by
      have hring' := hdrop.rings.ring k hk
      simp only [Function.update_self] at hring'
      rw [show (s.links.unlink (.page a)).next (.head k.1 k.2) = _ from hring'.next_eq]
      have hchain := (List.isChain_cons_cons.mp hring.chain).2
      cases l with
      | nil => exact (List.isChain_cons_cons.mp hchain).1.1
      | cons b l => exact (List.isChain_cons_cons.mp hchain).1.1
    obtain ⟨s', hrun, hslabs, hcaches, hcacheLinks, hpmm, hinv⟩ :=
      ih hdrop (Function.update_self _ _ _)
    obtain ⟨e₁, e₂, e₃⟩ := freeSlabPage_rest (s := { s with links := s.links.unlink (.page a) }) (a := a)
    refine ⟨s', fun fuel hfuel => ?_, hslabs.trans e₁, hcaches.trans e₂, hcacheLinks.trans e₃, ?_, ?_⟩
    · obtain ⟨n, rfl⟩ := Nat.exists_eq_add_of_lt hfuel
      rw [hnext, slabListDestroyLoop_page, hread]
      exact hrun _ (by simp only [List.length_cons]; omega)
    · rw [hpmm, freeSlabPage_pmm, freedPages_cons]
    · rw [Function.update_idem, outside_outside] at hinv
      exact hinv

/-! ### The descriptor -/

/-- `free_object` changes the page of the object, and the place of this page in the lists of its cache. -/
theorem freeObject_frame (h : Inv freeAddr entriesAddr entries V s live others lists) {o : Nat} {l : Live} {s' : State}
    (ho : live o = some l) (he : Slab.freeObject s l.cache o = .ok s') :
    s'.slabs = Function.update s.slabs (virtToPage o) ((s.slabs (virtToPage o)).given o) ∧ s'.pmm = s.pmm ∧
      ∃ lists' : Cache × SlabList → List Nat,
        (∀ k : Cache × SlabList, k.1 ∈ V → s'.links.IsRing (.head k.1 k.2) ((lists' k).map .page)) ∧
        (∀ k : Cache × SlabList, k.1 ≠ l.cache → lists' k = lists k) ∧
        ∀ k b, b ≠ virtToPage o → (b ∈ lists' k ↔ b ∈ lists k) := by
  obtain ⟨w, ha, hcache, -⟩ := h.live_page ho
  have hmove : ∀ w', ∃ lists' : Cache × SlabList → List Nat, (∀ k : Cache × SlabList, k.1 ∈ V →
      (moveSlab (setSlab s (virtToPage o) ((s.slabs (virtToPage o)).given o)) (virtToPage o) l.cache w').links.IsRing
        (.head k.1 k.2) ((lists' k).map .page)) ∧
        (∀ k : Cache × SlabList, k.1 ≠ l.cache → lists' k = lists k) ∧
        ∀ k b, b ≠ virtToPage o → (b ∈ lists' k ↔ b ∈ lists k) := by
    intro w'
    have hrings := h.moved_rings ha (l.cache, w') (h.page _ _ ha).1
    refine ⟨moved lists (l.cache, w) (l.cache, w') (virtToPage o), fun k hk => hrings.ring k hk, fun k hk => ?_,
      fun k b hb => ?_⟩
    · have hne : ∀ w', k ≠ (l.cache, w') := fun w' e => hk (congrArg Prod.fst e)
      rw [moved, Function.update_of_ne (hne w'), Function.update_of_ne (hne w)]
    · rw [h.mem_moved ha]
      simp [hb]
  unfold Slab.freeObject at he
  dsimp only at he
  rw [if_neg (by simp [hcache])] at he
  replace he := Except.ok.inj he
  split_ifs at he with h₁ h₂
  · subst he
    exact ⟨rfl, rfl, hmove .partialSlab⟩
  · subst he
    exact ⟨rfl, rfl, hmove .freeSlab⟩
  · subst he
    exact ⟨rfl, rfl, lists, fun k hk => h.rings.ring k hk, fun _ _ => rfl, fun _ _ _ => Iff.rfl⟩

/-- Caches without pages may go. -/
theorem mono (h : Inv freeAddr entriesAddr entries V s live others lists) {V' : Set Cache} (hsub : V' ⊆ V)
    (hstatic : .cacheCache ∈ V' ∧ ∀ i < 9, .kmalloc i ∈ V') (hempty : ∀ k, k.1 ∉ V' → lists k = []) :
    Inv freeAddr entriesAddr entries V' s live others lists where
  static := hstatic
  cacheOk c hc := h.cacheOk c (hsub hc)
  rings := ⟨fun k hk => h.rings.ring k (hsub hk), fun k hk j hj => h.rings.disjoint k (hsub hk) j (hsub hj)⟩
  page k a ha := by
    refine ⟨?_, (h.page k a ha).2⟩
    by_contra hk
    rw [hempty k hk] at ha
    cases ha
  live := h.live
  pmm := h.pmm

/-- The three lists. -/
theorem destroyLists (h : Inv freeAddr entriesAddr entries V s live others lists) {c : Cache} (hc : c ∈ V) :
    ∃ n s₁ s₂ s₃, (∀ fuel ≥ n, Slab.slabListDestroy fuel s (.head c .freeSlab) = some (.ok s₁) ∧
        Slab.slabListDestroy fuel s₁ (.head c .partialSlab) = some (.ok s₂) ∧
        Slab.slabListDestroy fuel s₂ (.head c .fullSlab) = some (.ok s₃)) ∧
      s₃.slabs = s.slabs ∧ s₃.caches = s.caches ∧ s₃.cacheLinks = s.cacheLinks ∧
      s₃.pmm = freedPages s.pmm (pagesOf lists c) ∧
      Inv freeAddr entriesAddr entries V s₃ (outside (pagesOf lists c) live) others
        (fun k => if k.1 = c then [] else lists k) := by
  obtain ⟨s₁, h₁, hs₁, hc₁, hl₁, hp₁, hi₁⟩ := h.slabListDestroy (k := (c, .freeSlab)) hc
  obtain ⟨s₂, h₂, hs₂, hc₂, hl₂, hp₂, hi₂⟩ := hi₁.slabListDestroy (k := (c, .partialSlab)) hc
  obtain ⟨s₃, h₃, hs₃, hc₃, hl₃, hp₃, hi₃⟩ := hi₂.slabListDestroy (k := (c, .fullSlab)) hc
  rw [Function.update_of_ne (by simp)] at h₂ hp₂ hi₂ hi₃
  rw [Function.update_of_ne (by simp), Function.update_of_ne (by simp)] at h₃ hp₃ hi₃
  refine ⟨(lists (c, .freeSlab)).length + (lists (c, .partialSlab)).length + (lists (c, .fullSlab)).length + 1,
    s₁, s₂, s₃, fun fuel hfuel => ⟨h₁ fuel (by omega), h₂ fuel (by omega), h₃ fuel (by omega)⟩,
    by rw [hs₃, hs₂, hs₁], by rw [hc₃, hc₂, hc₁], by rw [hl₃, hl₂, hl₁], ?_, ?_⟩
  · rw [hp₃, hp₂, hp₁, freedPages, freedPages, freedPages, ← List.foldl_append, ← List.foldl_append, freedPages,
      pagesOf, List.append_assoc]
  · rw [outside_outside, outside_outside, ← List.append_assoc] at hi₃
    have hlists : Function.update (Function.update (Function.update lists (c, SlabList.freeSlab) [])
        (c, SlabList.partialSlab) []) (c, SlabList.fullSlab) [] = fun k => if k.1 = c then [] else lists k := by
      funext ⟨c', w⟩
      by_cases e : c' = c
      · subst e
        cases w <;> simp [Function.update]
      · simp [Function.update, e]
    rw [hlists] at hi₃
    exact hi₃

/-- `slab_destroy_kmem_cache` for a descriptor that is a live object of `kmem_cache_cache`. -/
theorem slabDestroyKmemCache (h : Inv freeAddr entriesAddr entries V s live others lists) {o : Nat} {l : Live}
    (hV : .created o ∈ V) (ho : live o = some l) (hl : l.cache = .cacheCache) :
    ∃ n s' lists', (∀ fuel ≥ n, Slab.slabDestroyKmemCache fuel s o = some (.ok s')) ∧ s'.caches = s.caches ∧
      s'.cacheLinks = s.cacheLinks.unlink (.created o) ∧
      s'.slabs = Function.update s.slabs (virtToPage o) ((s.slabs (virtToPage o)).given o) ∧
      s'.pmm = freedPages s.pmm (pagesOf lists (.created o)) ∧
      Inv freeAddr entriesAddr entries V s' (Function.update (outside (pagesOf lists (.created o)) live) o none) others
        lists' ∧
      (∀ k : Cache × SlabList, k.1 ≠ .cacheCache → lists' k = if k.1 = .created o then [] else lists k) ∧
      ∀ w b, b ≠ virtToPage o → (b ∈ lists' (.cacheCache, w) ↔ b ∈ lists (.cacheCache, w)) := by
  have h₀ : Inv freeAddr entriesAddr entries V { s with cacheLinks := s.cacheLinks.unlink (.created o) } live others
      lists := ⟨h.static, h.cacheOk, h.rings, h.page, h.live, h.pmm⟩
  obtain ⟨n, s₁, s₂, s₃, hrun, hslabs, hcaches, hcacheLinks, hpmm, hinv⟩ := h₀.destroyLists hV
  -- the page of the descriptor is one of `kmem_cache_cache`
  obtain ⟨w, hw, -⟩ := h.live_page ho
  have hnot : virtToPage o ∉ pagesOf lists (.created o) := by
    intro hm
    obtain ⟨w', hw'⟩ := mem_pagesOf.mp hm
    have := congrArg Prod.fst (h.list_unique hw hw')
    rw [hl] at this
    cases this
  have ho₃ : outside (pagesOf lists (.created o)) live o = some l := (if_neg hnot).trans ho
  obtain ⟨s', lists', he, hcaches', hcacheLinks', hinv'⟩ := hinv.freeObject ho₃
  obtain ⟨hslabs', hpmm', lists'', hrings, hother, hsame⟩ := hinv.freeObject_frame ho₃ he
  have hlists : ∀ k, k.1 ∈ V → lists' k = lists'' k := fun k hk =>
    List.map_injective_iff.mpr (fun _ _ e => Node.page.inj e) ((hinv'.rings.ring k hk).unique (hrings k hk))
  have hnil : ∀ k, k.1 ∉ V → lists' k = [] := fun k hk =>
    List.eq_nil_iff_forall_not_mem.mpr fun a ha => hk (hinv'.page k a ha).1
  refine ⟨n, s', lists', fun fuel hfuel => ?_, hcaches'.trans hcaches, hcacheLinks'.trans hcacheLinks,
    by rw [hslabs', hslabs], by rw [hpmm', hpmm], hinv', fun k hk => ?_, fun w b hb => ?_⟩
  · obtain ⟨h₁, h₂, h₃⟩ := hrun fuel hfuel
    unfold Slab.slabDestroyKmemCache
    simp only [h₁, h₂, h₃, andThen]
    rw [← hl, he]
  · by_cases hkV : k.1 ∈ V
    · rw [hlists k hkV, hother k (by rwa [hl])]
    · rw [hnil k hkV, if_neg (by rintro e; exact hkV (e ▸ hV))]
      exact (List.eq_nil_iff_forall_not_mem.mpr fun a ha => hkV (h.page k a ha).1).symm
  · rw [hlists _ h.static.1, hsame _ b hb, if_neg (by simp)]

end Inv

end

end Airix.Slab
