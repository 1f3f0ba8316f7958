import Airix.Pmm.Buddy
import Mathlib.Data.Set.Card

/-!
# What `pmm_initialize` frees

`freed` is the list of the page numbers that `init_free_pages` passes to `pmm_free_pages`, in order.
Freeing an unlocked page leaves every lock bit as it is (`pmmFreePages_unlocked`), so the list is the
list of the pages of the regions, less the locked ones (`freedEntries_eq`).
-/

namespace Airix.Pmm

def unlocked (s : State) (p : Nat) : Bool := (s.pages p).flags &&& pageFlagLock = 0

/-- The calls of `pmm_free_pages` in `initFreeRegion`. -/
def freedRegion : (rounds : Nat) → State → (start «end» : Nat) → List Nat
  | 0, _, _, _ => []
  | rounds + 1, s, start, «end» =>
    if start + pageSize ≤ «end» then
      if unlocked s (pageNumber start) then
        pageNumber start ::
          freedRegion rounds (pmmFreePages s (pageNumber start) 0) (start + pageSize) «end»
      else freedRegion rounds s (start + pageSize) «end»
    else []

/-- The calls of `pmm_free_pages` in `initFreeEntry`. -/
def freedEntry (s : State) (e : MmapEntry) : List Nat :=
  if e.usable then
    freedRegion ((e.base + e.length) / pageSize) s (alignPage e.base) (e.base + e.length)
  else []

/-- The calls of `pmm_free_pages` in `initFreePages`. -/
def freedEntries : State → List MmapEntry → List Nat
  | _, [] => []
  | s, e :: l => freedEntry s e ++ freedEntries (initFreeEntry s e) l

/-- The calls of `pmm_free_pages` in `pmmInitialize`. -/
def freed (freeAddr entriesAddr : Nat) (entries : Array MmapEntry) : List Nat :=
  freedEntries (lockedState freeAddr entriesAddr entries) (sortedEntries entries)

def freeAll (s : State) (l : List Nat) : State := l.foldl (fun s p => pmmFreePages s p 0) s

theorem freeAll_append (s : State) (l l' : List Nat) : freeAll s (l ++ l') = freeAll (freeAll s l) l' :=
  List.foldl_append

theorem initFreeRegion_eq : ∀ (rounds : Nat) (s : State) (start stop : Nat),
    initFreeRegion rounds s start stop = freeAll s (freedRegion rounds s start stop)
  | 0, _, _, _ => rfl
  | rounds + 1, s, start, stop => by
    unfold initFreeRegion freedRegion
    by_cases hle : start + pageSize ≤ stop
    · rw [if_pos hle, if_pos hle]
      dsimp only
      by_cases hu : (s.pages (pageNumber start)).flags &&& pageFlagLock = 0
      · rw [if_pos hu, if_pos (by simpa [unlocked] using hu), initFreeRegion_eq rounds]
        rfl
      · rw [if_neg hu, if_neg (by simpa [unlocked] using hu), initFreeRegion_eq rounds]
    · rw [if_neg hle, if_neg hle]; rfl

theorem initFreeEntry_eq (s : State) (e : MmapEntry) : initFreeEntry s e = freeAll s (freedEntry s e) := by
  unfold initFreeEntry freedEntry
  by_cases hu : e.usable
  · rw [if_pos hu, if_pos hu, initFreeRegion_eq]
  · rw [if_neg hu, if_neg hu]; rfl

theorem initFreePages_eq (l : List MmapEntry) (s : State) : initFreePages s l = freeAll s (freedEntries s l) := by
  induction l generalizing s with
  | nil => rfl
  | cons e l ih =>
    show initFreePages (initFreeEntry s e) l = _
    rw [ih, freedEntries, freeAll_append, ← initFreeEntry_eq]

/-- `freed` is what the code calls `pmm_free_pages` with. -/
theorem pmmInitialize_eq (freeAddr entriesAddr : Nat) (entries : Array MmapEntry) :
    pmmInitialize freeAddr entriesAddr entries =
      freeAll (lockedState freeAddr entriesAddr entries) (freed freeAddr entriesAddr entries) :=
  initFreePages_eq _ _

/-! ### Lock bits -/

theorem insertBlockIntoArea_unlocked {s : State} {b k : Nat} (hb : unlocked s b) :
    unlocked (insertBlockIntoArea s b k) = unlocked s := by
  funext p
  by_cases hp : p = b
  · subst hp; rw [hb]; simp [unlocked, insertBlockIntoArea]
  · simp [unlocked, insertBlockIntoArea, Function.update_of_ne hp]

/-- A block is merged only with a buddy whose flags are clear. -/
theorem freeMerge_unlocked : ∀ (rounds : Nat) {s : State} {b k : Nat}, unlocked s b →
    unlocked (freeMerge s b k rounds) = unlocked s
  | 0, s, b, k, hb => by
    unfold freeMerge
    split
    · exact insertBlockIntoArea_unlocked hb
    · rfl
  | rounds + 1, s, b, k, hb => by
    unfold freeMerge
    split
    · rename_i b' _
      split
      · rename_i h
        have hb' : unlocked s b' := by simp [unlocked, h.1]
        refine (freeMerge_unlocked rounds (s := splitBlockFromArea s b' k) ?_).trans rfl
        show unlocked s (mergeBuddy b b')
        unfold mergeBuddy
        split
        · exact hb
        · exact hb'
      · exact insertBlockIntoArea_unlocked hb
    · exact insertBlockIntoArea_unlocked hb

theorem pmmFreePages_unlocked {s : State} {p k : Nat} (hp : unlocked s p) :
    unlocked (pmmFreePages s p k) = unlocked s := by
  unfold pmmFreePages
  split
  · rfl
  · have hbegin : unlocked (beginFree s p k) = unlocked s := by
      funext q
      by_cases hq : q = p
      · subst hq; rw [hp]; simp [unlocked, beginFree, setPage]
      · simp [unlocked, beginFree, setPage, Function.update_of_ne hq]
    rw [freeMerge_unlocked _ (by rw [hbegin]; exact hp), hbegin]

/-- The page numbers that the inner loop of `init_free_pages` goes through. -/
def regionPages : (rounds start «end» : Nat) → List Nat
  | 0, _, _ => []
  | rounds + 1, start, «end» =>
    if start + pageSize ≤ «end» then pageNumber start :: regionPages rounds (start + pageSize) «end» else []

def MmapEntry.pages (e : MmapEntry) : List Nat :=
  regionPages ((e.base + e.length) / pageSize) (alignPage e.base) (e.base + e.length)

theorem freedRegion_eq : ∀ (rounds : Nat) (s : State) (start stop : Nat),
    freedRegion rounds s start stop = (regionPages rounds start stop).filter (unlocked s) ∧
      unlocked (freeAll s (freedRegion rounds s start stop)) = unlocked s
  | 0, _, _, _ => ⟨rfl, rfl⟩
  | rounds + 1, s, start, stop => by
    unfold freedRegion regionPages
    by_cases hle : start + pageSize ≤ stop
    · rw [if_pos hle, if_pos hle]
      by_cases hu : unlocked s (pageNumber start)
      · obtain ⟨h₁, h₂⟩ := freedRegion_eq rounds (pmmFreePages s (pageNumber start) 0) (start + pageSize) stop
        rw [pmmFreePages_unlocked hu] at h₁ h₂
        rw [if_pos hu, List.filter_cons_of_pos hu, h₁]
        rw [h₁] at h₂
        exact ⟨rfl, h₂⟩
      · rw [if_neg hu, List.filter_cons_of_neg hu]
        exact freedRegion_eq rounds s (start + pageSize) stop
    · rw [if_neg hle, if_neg hle]; exact ⟨rfl, rfl⟩

theorem freedEntry_eq (s : State) (e : MmapEntry) :
    freedEntry s e = if e.usable then e.pages.filter (unlocked s) else [] := by
  unfold freedEntry
  split
  · exact (freedRegion_eq _ _ _ _).1
  · rfl

theorem initFreeEntry_unlocked (s : State) (e : MmapEntry) : unlocked (initFreeEntry s e) = unlocked s := by
  rw [initFreeEntry_eq]
  unfold freedEntry
  split
  · exact (freedRegion_eq _ _ _ _).2
  · rfl

theorem freedEntries_eq (l : List MmapEntry) (s : State) :
    freedEntries s l = ((l.filter MmapEntry.usable).flatMap MmapEntry.pages).filter (unlocked s) := by
  induction l generalizing s with
  | nil => rfl
  | cons e l ih =>
    rw [freedEntries, ih, initFreeEntry_unlocked, freedEntry_eq]
    by_cases hu : e.usable
    · rw [if_pos hu, List.filter_cons_of_pos hu, List.flatMap_cons, List.filter_append]
    · rw [if_neg hu, List.filter_cons_of_neg hu, List.nil_append]

/-! ### Counters -/

theorem freeMerge_counters : ∀ (rounds : Nat) (s : State) (b k : Nat),
    (freeMerge s b k rounds).numPages = s.numPages ∧ (freeMerge s b k rounds).totalPages = s.totalPages
  | 0, s, b, k => by unfold freeMerge; split <;> exact ⟨rfl, rfl⟩
  | rounds + 1, s, b, k => by
    unfold freeMerge
    split
    · split
      · exact freeMerge_counters rounds _ _ _
      · exact ⟨rfl, rfl⟩
    · exact ⟨rfl, rfl⟩

theorem freeAll_counters (l : List Nat) (s : State) (h0 : 0 ∉ l) :
    (freeAll s l).numPages = s.numPages + l.length ∧ (freeAll s l).totalPages = s.totalPages := by
  induction l generalizing s with
  | nil => exact ⟨rfl, rfl⟩
  | cons p l ih =>
    obtain ⟨hp, hl⟩ : 0 ≠ p ∧ 0 ∉ l := by simpa using h0
    obtain ⟨h₁, h₂⟩ := ih (pmmFreePages s p 0) hl
    have hfree : (pmmFreePages s p 0).numPages = s.numPages + 1 ∧ (pmmFreePages s p 0).totalPages = s.totalPages := by
      unfold pmmFreePages
      rw [if_neg (Ne.symm hp)]
      exact freeMerge_counters _ _ _ _
    show (freeAll (pmmFreePages s p 0) l).numPages = _ ∧ (freeAll (pmmFreePages s p 0) l).totalPages = _
    rw [h₁, h₂, hfree.1, hfree.2, List.length_cons]
    omega

/-- Byte `i` of the page array is the first byte of `struct free_blocks`. -/
def Hits (s : State) (i : Nat) : Prop := s.pagesLen ≤ i ∧ u32 (s.pagesAddr + i) = s.freeBlocksAddr

theorem lockPage_layout (s : State) (i : Nat) : Hits (lockPage s i) = Hits s := by
  funext j; unfold Hits lockPage; dsimp only; split <;> rfl

theorem lockPage_total (s : State) (i : Nat) :
    (Hits s i → (lockPage s i).totalPages.testBit 1) ∧
      (¬ Hits s i → (lockPage s i).totalPages = s.totalPages) ∧
      (s.totalPages.testBit 1 → (lockPage s i).totalPages.testBit 1) := by
  unfold lockPage
  dsimp only
  split
  · rename_i h
    have hbit : (s.totalPages ||| pageFlagLock).testBit 1 := by
      rw [Nat.testBit_or, show pageFlagLock.testBit 1 = true by decide, Bool.or_true]
    exact ⟨fun _ => hbit, fun hn => absurd h hn, fun _ => hbit⟩
  · rename_i h
    exact ⟨fun hh => absurd hh h, fun _ => rfl, id⟩

theorem foldl_lockPage_total : ∀ (n lo : Nat) (s : State),
    Hits ((List.range' lo n).foldl lockPage s) = Hits s ∧
      (s.totalPages.testBit 1 ∨ (∃ i, lo ≤ i ∧ i < lo + n ∧ Hits s i) →
        ((List.range' lo n).foldl lockPage s).totalPages.testBit 1) ∧
      ((∀ i, lo ≤ i → i < lo + n → ¬ Hits s i) →
        ((List.range' lo n).foldl lockPage s).totalPages = s.totalPages)
  | 0, lo, s => ⟨rfl, by rintro (hb | ⟨i, h₁, h₂, -⟩); exacts [hb, by omega], fun _ => rfl⟩
  | n + 1, lo, s => by
    rw [List.range'_succ, List.foldl_cons]
    obtain ⟨h₁, h₂, h₃⟩ := foldl_lockPage_total n (lo + 1) (lockPage s lo)
    obtain ⟨k₁, k₂, k₃⟩ := lockPage_total s lo
    rw [lockPage_layout] at h₁ h₂ h₃
    refine ⟨h₁, ?_, fun hn => ?_⟩
    · rintro (hb | ⟨i, hi, hi', hh⟩)
      · exact h₂ (.inl (k₃ hb))
      · rcases Nat.eq_or_lt_of_le hi with rfl | hlt
        · exact h₂ (.inl (k₁ hh))
        · exact h₂ (.inr ⟨i, hlt, by omega, hh⟩)
    · rw [h₃ fun i hi hi' => hn i (by omega) (by omega)]
      exact k₂ (hn lo le_rfl (by omega))

theorem lockPages_total (s : State) (lo hi : Nat) :
    Hits (lockPages s lo hi) = Hits s ∧
      (s.totalPages.testBit 1 ∨ (∃ i, lo ≤ i ∧ i < hi ∧ Hits s i) →
        (lockPages s lo hi).totalPages.testBit 1) ∧
      ((∀ i, lo ≤ i → i < hi → ¬ Hits s i) → (lockPages s lo hi).totalPages = s.totalPages) := by
  obtain ⟨h₁, h₂, h₃⟩ := foldl_lockPage_total (hi - lo) lo s
  refine ⟨h₁, fun hb => h₂ (hb.imp_right ?_), fun hn => h₃ fun i hi hi' => hn i hi (by omega)⟩
  rintro ⟨i, hi, hi', hh⟩
  exact ⟨i, hi, by omega, hh⟩

/-! ### The pages of a region -/

/-- The loop of `init_free_pages` over the region does not leave the 32-bit range. -/
def MmapEntry.Fits (e : MmapEntry) : Prop := e.base ≤ 0xFFFFF000 ∧ e.stop ≤ 2 ^ 32

theorem regionPages_eq {stop : Nat} (hstop : stop ≤ 2 ^ 32) : ∀ (rounds n : Nat),
    stop / pageSize ≤ n + rounds → regionPages rounds (n * pageSize) stop = List.range' n (stop / pageSize - n)
  | 0, n, hr => by
    rw [show stop / pageSize - n = 0 by omega]; rfl
  | rounds + 1, n, hr => by
    have hsucc : n * pageSize + pageSize = (n + 1) * pageSize := (Nat.succ_mul n pageSize).symm
    have hiff : n * pageSize + pageSize ≤ stop ↔ n + 1 ≤ stop / pageSize := by
      rw [hsucc, Nat.le_div_iff_mul_le (by decide)]
    unfold regionPages
    by_cases hle : n * pageSize + pageSize ≤ stop
    · have hnum : pageNumber (n * pageSize) = n := by
        unfold pageNumber
        rw [u32_of_lt (by unfold pageSize at hle ⊢; omega), Nat.mul_div_cancel _ (by decide)]
      have hlt := hiff.mp hle
      rw [if_pos hle, hnum, hsucc, regionPages_eq hstop rounds (n + 1) (by omega),
        show stop / pageSize - n = (stop / pageSize - (n + 1)) + 1 by omega, List.range'_succ]
    · rw [if_neg hle, show stop / pageSize - n = 0 by rw [hiff] at hle; omega]; rfl

theorem MmapEntry.Fits.pages_eq {e : MmapEntry} (h : e.Fits) :
    e.pages = List.range' ((e.base + 4095) / pageSize) (e.stop / pageSize - (e.base + 4095) / pageSize) := by
  have hstart : alignPage e.base = (e.base + 4095) / pageSize * pageSize := by
    have := h.1
    simp only [alignPage, align, u32, pageSize]
    omega
  unfold MmapEntry.pages
  rw [hstart]
  exact regionPages_eq h.2 _ _ (Nat.le_add_left _ _)

theorem MmapEntry.Fits.mem_pages {e : MmapEntry} (h : e.Fits) {p : Nat} :
    p ∈ e.pages ↔ e.base ≤ p * pageSize ∧ (p + 1) * pageSize ≤ e.stop := by
  rw [h.pages_eq, List.mem_range'_1]
  unfold pageSize
  omega

theorem MmapEntry.Fits.nodup_pages {e : MmapEntry} (h : e.Fits) : e.pages.Nodup := by
  rw [h.pages_eq]; exact List.nodup_range'

/-- The pages of disjoint regions in address order are distinct. -/
theorem nodup_flatMap_pages {l : List MmapEntry} (hf : ∀ e ∈ l, e.Fits)
    (hs : l.Pairwise fun e e' => e.stop ≤ e'.base) : (l.flatMap MmapEntry.pages).Nodup := by
  rw [List.nodup_flatMap]
  refine ⟨fun e he => (hf e he).nodup_pages, hs.imp_of_mem fun {e e'} he he' hle => ?_⟩
  intro p hp hp'
  have h₁ := ((hf e he).mem_pages.mp hp).2
  have h₂ := ((hf e' he').mem_pages.mp hp').1
  rw [Nat.succ_mul] at h₁
  unfold pageSize at *
  omega

/-! ### Exactness -/

section
variable {freeAddr entriesAddr : Nat} {entries : Array MmapEntry}

theorem BootOk.fits (h : BootOk freeAddr entriesAddr entries) {e : MmapEntry} (he : e ∈ entries)
    (hu : e.usable) : e.Fits := by
  have := h.usable_stop e he hu
  unfold MmapEntry.stop at this
  refine ⟨by omega, ?_⟩
  unfold MmapEntry.stop; omega

theorem BootOk.unlocked_iff (h : BootOk freeAddr entriesAddr entries) (p : Nat) :
    unlocked (Pmm.lockedState freeAddr entriesAddr entries) p ↔ ¬ Locked freeAddr entriesAddr entries p := by
  classical
  unfold unlocked
  rw [h.lockedState_pages]
  by_cases hL : Locked freeAddr entriesAddr entries p <;> simp [hL, pageFlagLock]

theorem BootOk.mem_freed (h : BootOk freeAddr entriesAddr entries) (p : Nat) :
    p ∈ freed freeAddr entriesAddr entries ↔
      (∃ e ∈ entries, e.Holds p) ∧ ¬ Locked freeAddr entriesAddr entries p := by
  rw [freed, freedEntries_eq, List.mem_filter, h.unlocked_iff, List.mem_flatMap]
  refine and_congr_left fun _ => exists_congr fun e => ?_
  rw [List.mem_filter, mem_sortedEntries]
  constructor
  · rintro ⟨⟨he, hu⟩, hp⟩
    exact ⟨he, hu, (h.fits he hu).mem_pages.mp hp⟩
  · rintro ⟨he, hu, hp⟩
    exact ⟨⟨he, hu⟩, (h.fits he hu).mem_pages.mpr hp⟩

theorem BootOk.nodup_freed (h : BootOk freeAddr entriesAddr entries) :
    (freed freeAddr entriesAddr entries).Nodup := by
  rw [freed, freedEntries_eq]
  refine (nodup_flatMap_pages (fun e he => ?_) (h.sorted.filter _)).filter _
  obtain ⟨he, hu⟩ := List.mem_filter.mp he
  exact h.fits (mem_sortedEntries.mp he) hu

/-- The boot allocations end in the partial last page, and `struct free_blocks` follows the page array
without padding. -/
def LockOverrun (freeAddr : Nat) (entries : Array MmapEntry) : Prop :=
  4 ∣ maxUsableEnd entries.toList / pageSize ∧
    maxUsableEnd entries.toList / pageSize * pageSize <
      bootEnd freeAddr (maxUsableEnd entries.toList / pageSize)

theorem BootOk.hits_iff (h : BootOk freeAddr entriesAddr entries) {i : Nat}
    (hi : i < maxUsableEnd entries.toList / pageSize + 1) :
    Hits (initData freeAddr (maxUsableEnd entries.toList / pageSize)) i ↔
      i = maxUsableEnd entries.toList / pageSize ∧ 4 ∣ maxUsableEnd entries.toList / pageSize := by
  have hM := h.maxUsableEnd_le
  have hT : maxUsableEnd entries.toList / pageSize < 2 ^ 20 := by unfold pageSize; omega
  generalize maxUsableEnd entries.toList / pageSize = T at *
  simp only [Hits, initData, bootAlloc, alignSize, align, u32]
  generalize castPhysicalToVirtual freeAddr = a
  omega

/-- The lock loops change `total_pages` exactly when they run over the end of the page array. -/
theorem BootOk.totalPages_iff (h : BootOk freeAddr entriesAddr entries) :
    (Pmm.lockedState freeAddr entriesAddr entries).totalPages = maxUsableEnd entries.toList / pageSize ↔
      ¬ LockOverrun freeAddr entries := by
  obtain ⟨hk, hb, hkT, hT⟩ := h.bounds
  rw [h.lockedState_eq]
  generalize hs₀ : initData freeAddr (maxUsableEnd entries.toList / pageSize) = s₀
  obtain ⟨h₁, -, h₁'⟩ := lockPages_total s₀ 0 (bootPages entriesAddr entries)
  obtain ⟨h₂, -, h₂'⟩ := lockPages_total (lockPages s₀ 0 (bootPages entriesAddr entries)) 0 0x10
  obtain ⟨-, hbit, h₃'⟩ := lockPages_total (lockPages (lockPages s₀ 0 (bootPages entriesAddr entries)) 0 0x10)
    0x100 (kernelPages freeAddr entries)
  rw [h₁] at h₂ h₂'
  rw [h₂] at hbit h₃'
  constructor
  · rintro heq ⟨hd, hlt⟩
    -- the byte past the array gets the lock bit, which a multiple of 4 does not have
    have hset := hbit (.inr ⟨maxUsableEnd entries.toList / pageSize, by omega, (h.lt_kernelPages _).mpr hlt,
      by rw [← hs₀]; exact (h.hits_iff (Nat.lt_succ_self _)).mpr ⟨rfl, hd⟩⟩)
    rw [heq, Nat.testBit, Nat.shiftRight_eq_div_pow] at hset
    simp at hset
    omega
  · intro hover
    have hno : ∀ i < kernelPages freeAddr entries, ¬ Hits s₀ i := by
      intro i hi hh
      rw [← hs₀, h.hits_iff (by omega)] at hh
      obtain ⟨rfl, hd⟩ := hh
      exact hover ⟨hd, (h.lt_kernelPages _).mp hi⟩
    rw [h₃' fun i _ hi => hno i hi, h₂' fun i _ hi => hno i (by omega), h₁' fun i _ hi => hno i (by omega), ← hs₀]
    rfl

/-- What initialisation is for: the allocator gets every page that lies in a usable region and is not
locked, once, and the counters tell the truth. -/
structure InitExact (freeAddr entriesAddr : Nat) (entries : Array MmapEntry) : Prop where
  freed_iff : ∀ p, p ∈ freed freeAddr entriesAddr entries ↔
    (∃ e ∈ entries, e.Holds p) ∧ ¬ Locked freeAddr entriesAddr entries p
  freed_once : (freed freeAddr entriesAddr entries).Nodup
  free_iff : ∀ p, FreePage (pmmInitialize freeAddr entriesAddr entries) p ↔
    (∃ e ∈ entries, e.Holds p) ∧ ¬ Locked freeAddr entriesAddr entries p
  total_pages : (pmmInitialize freeAddr entriesAddr entries).totalPages = maxUsableEnd entries.toList / pageSize
  num_pages : (pmmInitialize freeAddr entriesAddr entries).numPages =
    {p | FreePage (pmmInitialize freeAddr entriesAddr entries) p}.ncard
  buddy : ∃ areas, BuddyInvariant (pmmInitialize freeAddr entriesAddr entries) areas ∅
    (reservedPages freeAddr entriesAddr entries)

theorem BootOk.freePage_iff (h : BootOk freeAddr entriesAddr entries) (p : Nat) :
    FreePage (Pmm.pmmInitialize freeAddr entriesAddr entries) p ↔
      (∃ e ∈ entries, e.Holds p) ∧ ¬ Locked freeAddr entriesAddr entries p := by
  rw [Reachable.init.freePage_iff h]
  simp only [reservedPages, Set.mem_ofPred_eq, not_or, not_forall, not_not, Finset.notMem_empty,
    false_implies, implies_true, and_true, exists_prop]
  exact and_comm

theorem BootOk.zero_notMem_freed (h : BootOk freeAddr entriesAddr entries) :
    0 ∉ freed freeAddr entriesAddr entries :=
  fun h0 => ((h.mem_freed 0).mp h0).2 (.inr (.inl (by decide)))

theorem BootOk.numPages_eq (h : BootOk freeAddr entriesAddr entries) :
    (Pmm.pmmInitialize freeAddr entriesAddr entries).numPages =
      {p | FreePage (Pmm.pmmInitialize freeAddr entriesAddr entries) p}.ncard := by
  obtain ⟨s₁, s₂, l₁, l₂, l₃⟩ := h.lockSteps
  have hset : {p | FreePage (Pmm.pmmInitialize freeAddr entriesAddr entries) p} =
      (freed freeAddr entriesAddr entries).toFinset := by
    ext p
    simp only [Set.mem_ofPred_eq, List.coe_toFinset]
    rw [h.freePage_iff, h.mem_freed]
  rw [hset, Set.ncard_coe_finset, List.toFinset_card_of_nodup h.nodup_freed, pmmInitialize_eq,
    (freeAll_counters _ _ h.zero_notMem_freed).1, l₃.numPages, l₂.numPages, l₁.numPages]
  exact Nat.zero_add _

theorem initExact_iff (h : BootOk freeAddr entriesAddr entries) :
    InitExact freeAddr entriesAddr entries ↔ ¬ LockOverrun freeAddr entries := by
  have htotal : (pmmInitialize freeAddr entriesAddr entries).totalPages =
      (Pmm.lockedState freeAddr entriesAddr entries).totalPages := by
    rw [pmmInitialize_eq]; exact (freeAll_counters _ _ h.zero_notMem_freed).2
  refine ⟨fun hex => h.totalPages_iff.mp (htotal.symm.trans hex.total_pages), fun hover => ?_⟩
  exact
    { freed_iff := h.mem_freed
      freed_once := h.nodup_freed
      free_iff := h.freePage_iff
      total_pages := htotal.trans (h.totalPages_iff.mpr hover)
      num_pages := h.numPages_eq
      buddy := h.pmmInitialize.2.imp fun _ hinv => hinv.buddyInvariant h.pmmInitialize.1 }

theorem initExact_boot : InitExact 0x120000 0xC0007E08 bootMap :=
  (initExact_iff bootMap_ok).mpr fun hover => absurd hover.2 (by decide)

/-- Memory that ends at `0x120800`: the boot allocations end in its last half page. -/
def partialMap : Array MmapEntry := #[⟨0, 0, 0x120800, 0, 1⟩]

theorem partialMap_ok : BootOk 0x120000 0xC0007E08 partialMap where
  words := by decide
  nonempty := by decide
  disjoint := by decide
  usable_stop := by decide
  kernel := by decide
  map_le := by decide
  reach := by decide

theorem not_initExact_partial :
    BootOk 0x120000 0xC0007E08 partialMap ∧ ¬ InitExact 0x120000 0xC0007E08 partialMap := by
  refine ⟨partialMap_ok, fun hex => ?_⟩
  have htotal := hex.total_pages
  rw [pmmInitialize_eq, (freeAll_counters _ _ partialMap_ok.zero_notMem_freed).2,
    partialMap_ok.totalPages_iff] at htotal
  exact htotal ⟨by decide, by decide⟩

end
end Airix.Pmm
