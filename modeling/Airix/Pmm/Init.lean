import Airix.Pmm.Ops

/-!
# `pmm_initialize` establishes the buddy invariant

`BootOk` is what the callers promise about the memory map and the boot allocations. After
`pmm_initialize` the free pages are those that lie wholly inside a usable region and are not locked
(`pmmInitialize_inv`).
-/

namespace Airix.Pmm

def MmapEntry.stop (e : MmapEntry) : Nat := e.base + e.length

/-- The largest end address of a usable region. -/
def maxUsableEnd (entries : List MmapEntry) : Nat :=
  ((entries.filter MmapEntry.usable).map MmapEntry.stop).foldr max 0

/-- The end of the boot allocations: the page array and `struct free_blocks` behind `free_addr`. -/
def bootEnd (freeAddr totalPages : Nat) : Nat :=
  (freeAddr + 3) / 4 * 4 + (totalPages + 3) / 4 * 4 + sizeofFreeBlocks

/-- The end of the memory map itself, as a physical address. -/
def mapEnd (entriesAddr : Nat) (entries : Array MmapEntry) : Nat :=
  castVirtualToPhysical entriesAddr + sizeofMmapEntry * entries.size

/-- Non-empty disjoint regions without high words whose usable ones end at or below `0xFFFFF000` and
reach above the boot allocations. The kernel image starts at `KERNEL_START_ADDRESS`, its page
directory and first page table follow it, and the boot loader put the map below. -/
structure BootOk (freeAddr entriesAddr : Nat) (entries : Array MmapEntry) : Prop where
  words : ∀ e ∈ entries, e.base < 2 ^ 32 ∧ e.length < 2 ^ 32 ∧ e.baseHigh = 0 ∧ e.lengthHigh = 0
  nonempty : ∀ e ∈ entries, 0 < e.length
  disjoint : entries.toList.Pairwise fun e e' => e.stop ≤ e'.base ∨ e'.stop ≤ e.base
  usable_stop : ∀ e ∈ entries, e.usable → e.stop ≤ 0xFFFFF000
  kernel : kernelStartAddress + 2 * pageSize ≤ freeAddr
  map_le : mapEnd entriesAddr entries ≤ freeAddr
  reach : bootEnd freeAddr (maxUsableEnd entries.toList / pageSize) < maxUsableEnd entries.toList

/-- The pages that `lock_boot_pages`, `lock_kernel_stack` and `lock_kernel_pages` lock. -/
def Locked (freeAddr entriesAddr : Nat) (entries : Array MmapEntry) (p : Nat) : Prop :=
  p * pageSize < mapEnd entriesAddr entries ∨ p * pageSize < kernelStackAddress ∨
    (kernelStartAddress ≤ p * pageSize ∧
      p * pageSize < bootEnd freeAddr (maxUsableEnd entries.toList / pageSize))

/-- Page `p` lies wholly inside the region. -/
def MmapEntry.Holds (e : MmapEntry) (p : Nat) : Prop :=
  e.usable ∧ e.base ≤ p * pageSize ∧ (p + 1) * pageSize ≤ e.stop

/-- The pages that the allocator is never given: locked, or not wholly inside a usable region. -/
def keptPages (freeAddr entriesAddr : Nat) (entries : Array MmapEntry) : Set Nat :=
  {p | p < maxUsableEnd entries.toList / pageSize ∧
    (Locked freeAddr entriesAddr entries p ∨ ∀ e ∈ entries, ¬ e.Holds p)}

/-! ### The sorted map -/

theorem mmapEntryCompare_threeWay : ThreeWay mmapEntryCompare where
  swap x y := by unfold mmapEntryCompare; split_ifs <;> omega
  trans x y z := by unfold mmapEntryCompare; split_ifs <;> omega

theorem mmapEntryCompare_le {x y : MmapEntry} : mmapEntryCompare x y ≤ 0 ↔ x.base ≤ y.base := by
  unfold mmapEntryCompare; split_ifs <;> omega

theorem le_maxUsableEnd {entries : List MmapEntry} {e : MmapEntry} (he : e ∈ entries) (hu : e.usable) :
    e.stop ≤ maxUsableEnd entries := by
  induction entries with
  | nil => cases he
  | cons a l ih =>
    unfold maxUsableEnd at ih ⊢
    rcases List.mem_cons.mp he with rfl | he
    · rw [List.filter_cons_of_pos (by simpa using hu)]; simp
    · have := ih he
      by_cases ha : a.usable
      · rw [List.filter_cons_of_pos (by simpa using ha)]
        simp only [List.map_cons, List.foldr_cons]
        omega
      · rw [List.filter_cons_of_neg (by simpa using ha)]; exact this

theorem maxUsableEnd_eq_zero_or (entries : List MmapEntry) :
    maxUsableEnd entries = 0 ∨ ∃ e ∈ entries, e.usable ∧ maxUsableEnd entries = e.stop := by
  induction entries with
  | nil => exact .inl rfl
  | cons a l ih =>
    by_cases ha : a.usable
    · have hmax : maxUsableEnd (a :: l) = max a.stop (maxUsableEnd l) := by
        unfold maxUsableEnd; rw [List.filter_cons_of_pos (by simpa using ha)]; rfl
      rcases Nat.le_total (maxUsableEnd l) a.stop with hle | hle
      · exact .inr ⟨a, by simp, ha, by omega⟩
      · rcases ih with h0 | ⟨e, he, hu, heq⟩
        · exact .inl (by omega)
        · exact .inr ⟨e, by simp [he], hu, by omega⟩
    · have hmax : maxUsableEnd (a :: l) = maxUsableEnd l := by
        unfold maxUsableEnd; rw [List.filter_cons_of_neg (by simpa using ha)]
      rw [hmax]
      rcases ih with h0 | ⟨e, he, hu, heq⟩
      · exact .inl h0
      · exact .inr ⟨e, by simp [he], hu, heq⟩

theorem maxUsableEnd_perm {l l' : List MmapEntry} (h : l.Perm l') : maxUsableEnd l = maxUsableEnd l' := by
  apply Nat.le_antisymm
  · rcases maxUsableEnd_eq_zero_or l with h0 | ⟨e, he, hu, heq⟩
    · omega
    · rw [heq]; exact le_maxUsableEnd (h.mem_iff.mp he) hu
  · rcases maxUsableEnd_eq_zero_or l' with h0 | ⟨e, he, hu, heq⟩
    · omega
    · rw [heq]; exact le_maxUsableEnd (h.mem_iff.mpr he) hu

/-- In a sorted map of disjoint regions the last usable entry has the largest end. -/
theorem getMaxPhysicalAddress_eq {entries : List MmapEntry}
    (hs : entries.Pairwise fun e e' => e.stop ≤ e'.base) :
    getMaxPhysicalAddress entries = maxUsableEnd entries := by
  have hdef : getMaxPhysicalAddress entries = ((entries.reverse.find? MmapEntry.usable).map MmapEntry.stop).getD 0 := by
    unfold getMaxPhysicalAddress
    cases entries.reverse.find? MmapEntry.usable <;> rfl
  have key : ∀ R : List MmapEntry, R.Pairwise (fun e e' => e'.stop ≤ e.base) →
      ((R.find? MmapEntry.usable).map MmapEntry.stop).getD 0 = maxUsableEnd R := by
    intro R hR
    induction R with
    | nil => rfl
    | cons a R ih =>
      obtain ⟨ha, hR⟩ := List.pairwise_cons.mp hR
      by_cases hu : a.usable
      · rw [List.find?_cons_of_pos (by simpa using hu)]
        refine Nat.le_antisymm (le_maxUsableEnd (e := a) (by simp) hu) ?_
        show maxUsableEnd (a :: R) ≤ a.stop
        rcases maxUsableEnd_eq_zero_or (a :: R) with h0 | ⟨e, he, -, heq⟩
        · omega
        · rw [heq]
          rcases List.mem_cons.mp he with rfl | he
          · exact le_rfl
          · have := ha e he; simp only [MmapEntry.stop] at this ⊢; omega
      · rw [List.find?_cons_of_neg (by simpa using hu), ih hR]
        unfold maxUsableEnd; rw [List.filter_cons_of_neg (by simpa using hu)]
  exact hdef.trans <| (key _ (List.pairwise_reverse.mpr hs)).trans (maxUsableEnd_perm (List.reverse_perm _))

section
variable {freeAddr entriesAddr : Nat} {entries : Array MmapEntry}

/-- The map after `qsort`. -/
def sortedEntries (entries : Array MmapEntry) : List MmapEntry := (qsort mmapEntryCompare entries).toList

theorem sortedEntries_perm (entries : Array MmapEntry) : (sortedEntries entries).Perm entries.toList :=
  Array.perm_iff_toList_perm.mp (qsort_perm mmapEntryCompare_threeWay entries)

theorem mem_sortedEntries {e : MmapEntry} : e ∈ sortedEntries entries ↔ e ∈ entries := by
  rw [(sortedEntries_perm entries).mem_iff, Array.mem_toList_iff]

theorem sortedEntries_ordered (entries : Array MmapEntry) :
    (sortedEntries entries).Pairwise fun e e' => e.base ≤ e'.base := by
  rw [List.pairwise_iff_getElem]
  intro i j hi hj hij
  exact mmapEntryCompare_le.mp (qsort_ordered mmapEntryCompare_threeWay entries i j _ _ hij.le
    (by rw [← Array.getElem?_toList]; exact List.getElem?_eq_getElem hi)
    (by rw [← Array.getElem?_toList]; exact List.getElem?_eq_getElem hj))

theorem sortedEntries_disjoint (hpos : ∀ e ∈ entries, 0 < e.length)
    (hdis : entries.toList.Pairwise fun e e' => e.stop ≤ e'.base ∨ e'.stop ≤ e.base) :
    (sortedEntries entries).Pairwise fun e e' => e.stop ≤ e'.base := by
  have hdis' : (sortedEntries entries).Pairwise fun e e' => e.stop ≤ e'.base ∨ e'.stop ≤ e.base :=
    ((sortedEntries_perm entries).pairwise_iff (fun h => h.symm)).mpr hdis
  refine (hdis'.and (sortedEntries_ordered entries)).imp_of_mem fun {e e'} he he' hee => ?_
  refine hee.1.resolve_right fun hle => ?_
  have hord := hee.2
  have hlen := hpos _ (mem_sortedEntries.mp he')
  simp only [MmapEntry.stop] at hle
  omega

theorem BootOk.sorted (h : BootOk freeAddr entriesAddr entries) :
    (sortedEntries entries).Pairwise fun e e' => e.stop ≤ e'.base :=
  sortedEntries_disjoint h.nonempty h.disjoint

theorem BootOk.maxUsableEnd_le (h : BootOk freeAddr entriesAddr entries) :
    maxUsableEnd entries.toList ≤ 0xFFFFF000 := by
  rcases maxUsableEnd_eq_zero_or entries.toList with h0 | ⟨e, he, hu, heq⟩
  · omega
  · rw [heq]; exact h.usable_stop e (Array.mem_toList_iff.mp he) hu

theorem BootOk.calculateTotalPages (h : BootOk freeAddr entriesAddr entries) :
    calculateTotalPages (sortedEntries entries) = maxUsableEnd entries.toList / pageSize := by
  rw [Pmm.calculateTotalPages, getMaxPhysicalAddress_eq h.sorted, maxUsableEnd_perm (sortedEntries_perm entries)]
  have := h.maxUsableEnd_le
  exact u32_of_lt (by unfold pageSize; omega)

/-- The 32-bit arithmetic of the boot allocator does not lose anything. -/
theorem BootOk.bootFree (h : BootOk freeAddr entriesAddr entries) :
    castVirtualToPhysical (initData freeAddr (maxUsableEnd entries.toList / pageSize)).bootFree =
      bootEnd freeAddr (maxUsableEnd entries.toList / pageSize) := by
  have hr := h.reach
  have hM := h.maxUsableEnd_le
  generalize maxUsableEnd entries.toList = M at hr hM
  have hT : M / pageSize ≤ M := Nat.div_le_self _ _
  generalize M / pageSize = T at hr hT
  simp only [initData, bootAlloc, castVirtualToPhysical, castPhysicalToVirtual, alignSize, align, u32,
    kernelBase, bootEnd, sizeofFreeBlocks] at hr ⊢
  omega

theorem pageNumber_alignPage {x : Nat} (hx : x ≤ 0xFFFFF000) (p : Nat) :
    p < pageNumber (alignPage x) ↔ p * pageSize < x := by
  simp only [pageNumber, alignPage, align, u32, pageSize]
  omega

/-! ### Locking -/

/-- What a lock loop does: it sets the lock bit of its range. Only an index past the page array can
reach `total_pages`. -/
structure LockStep (s s' : State) (lo hi : Nat) : Prop where
  pages : ∀ p, s'.pages p =
    if lo ≤ p ∧ p < hi then ⟨(s.pages p).flags ||| pageFlagLock, (s.pages p).order⟩ else s.pages p
  links : s'.links = s.links
  numBlocks : s'.numBlocks = s.numBlocks
  numPages : s'.numPages = s.numPages
  pagesLen : s'.pagesLen = s.pagesLen
  bootFree : s'.bootFree = s.bootFree
  total_le : s.totalPages ≤ s'.totalPages
  total_eq : hi ≤ s.pagesLen → s'.totalPages = s.totalPages

theorem lockPage_step (s : State) (i : Nat) : LockStep s (lockPage s i) i (i + 1) := by
  have hpages : ∀ p, (lockPage s i).pages p = if i ≤ p ∧ p < i + 1 then
      ⟨(s.pages p).flags ||| pageFlagLock, (s.pages p).order⟩ else s.pages p := by
    intro p
    have hp : (lockPage s i).pages = Function.update s.pages i
        ⟨(s.pages i).flags ||| pageFlagLock, (s.pages i).order⟩ := by
      unfold lockPage; dsimp only; split <;> rfl
    rw [hp]
    by_cases hpi : p = i
    · subst hpi; simp
    · rw [Function.update_of_ne hpi, if_neg (by omega)]
  unfold lockPage at hpages ⊢
  dsimp only at hpages ⊢
  split_ifs at hpages ⊢ with h
  · refine ⟨hpages, rfl, rfl, rfl, rfl, rfl, Nat.left_le_or, fun hle => ?_⟩
    have := h.1
    simp only [setPage] at this
    omega
  · exact ⟨hpages, rfl, rfl, rfl, rfl, rfl, le_rfl, fun _ => rfl⟩

theorem lockPages_step : ∀ (n lo : Nat) (s : State),
    LockStep s ((List.range' lo n).foldl lockPage s) lo (lo + n)
  | 0, lo, s => ⟨fun p => by rw [if_neg (by omega)]; rfl, rfl, rfl, rfl, rfl, rfl, le_rfl, fun _ => rfl⟩
  | n + 1, lo, s => by
    have h₁ := lockPage_step s lo
    have h₂ := lockPages_step n (lo + 1) (lockPage s lo)
    rw [List.range'_succ, List.foldl_cons]
    refine ⟨fun p => ?_, h₂.links.trans h₁.links, h₂.numBlocks.trans h₁.numBlocks,
      h₂.numPages.trans h₁.numPages, h₂.pagesLen.trans h₁.pagesLen, h₂.bootFree.trans h₁.bootFree,
      h₁.total_le.trans h₂.total_le, fun hle => ?_⟩
    · rw [h₂.pages, h₁.pages]
      split_ifs <;> first | rfl | omega
    · rw [h₂.total_eq (by rw [h₁.pagesLen]; omega), h₁.total_eq (by omega)]

theorem lockPages_spec (s : State) {lo hi : Nat} (h : lo ≤ hi) : LockStep s (lockPages s lo hi) lo hi := by
  have := lockPages_step (hi - lo) lo s
  rwa [Nat.add_sub_cancel' h] at this

/-- The state right before `init_free_pages`. -/
def lockedState (freeAddr entriesAddr : Nat) (entries : Array MmapEntry) : State :=
  lockKernelPages (lockKernelStack (lockBootPages
    (initData freeAddr (calculateTotalPages (sortedEntries entries)))
    (u32 (entriesAddr + sizeofMmapEntry * (sortedEntries entries).length))))

theorem initNodes_ring {k : Nat} (hk : k < buddyMaxOrder) : initNodes.IsRing (.head k) [] := by
  refine ⟨by simp, ?_⟩
  unfold buddyMaxOrder at hk
  interval_cases k <;> simp [Links.Adj] <;> decide

/-- The state while the unlocked pages are being given to the allocator; `R` are those it does not
have yet. -/
structure InitInv (freeAddr entriesAddr : Nat) (entries : Array MmapEntry) (s : State) (R : Set Nat) : Prop where
  inv : ∃ areas, Inv s ⟨areas, ∅, none, R⟩
  len : s.pagesLen = maxUsableEnd entries.toList / pageSize
  lock : ∀ p ∈ R, (s.pages p).flags &&& pageFlagLock = 0 ↔ ¬ Locked freeAddr entriesAddr entries p
  last : s.totalPages ≠ s.pagesLen → Locked freeAddr entriesAddr entries (s.pagesLen - 1)

theorem BootOk.numbers (h : BootOk freeAddr entriesAddr entries) :
    0x102000 ≤ freeAddr ∧ freeAddr ≤ bootEnd freeAddr (maxUsableEnd entries.toList / pageSize) ∧
      bootEnd freeAddr (maxUsableEnd entries.toList / pageSize) < maxUsableEnd entries.toList := by
  have h₁ := h.kernel
  have h₂ := h.reach
  refine ⟨by simpa [kernelStartAddress, pageSize] using h₁, ?_, h₂⟩
  unfold bootEnd; omega

theorem BootOk.mapEnd_eq (h : BootOk freeAddr entriesAddr entries) :
    castVirtualToPhysical (u32 (entriesAddr + sizeofMmapEntry * (sortedEntries entries).length)) =
      mapEnd entriesAddr entries := by
  have hlen : (sortedEntries entries).length = entries.size := by
    rw [(sortedEntries_perm entries).length_eq, Array.length_toList]
  have h₁ := h.map_le
  have h₂ := h.numbers
  have h₃ := h.maxUsableEnd_le
  rw [hlen]
  simp only [mapEnd, castVirtualToPhysical, u32, kernelBase, sizeofMmapEntry] at h₁ ⊢
  omega

/-- The index bounds of the three lock loops. -/
def bootPages (entriesAddr : Nat) (entries : Array MmapEntry) : Nat :=
  pageNumber (alignPage (mapEnd entriesAddr entries))

def kernelPages (freeAddr : Nat) (entries : Array MmapEntry) : Nat :=
  pageNumber (alignPage (bootEnd freeAddr (maxUsableEnd entries.toList / pageSize)))

theorem BootOk.lt_bootPages (h : BootOk freeAddr entriesAddr entries) (p : Nat) :
    p < bootPages entriesAddr entries ↔ p * pageSize < mapEnd entriesAddr entries := by
  have := h.numbers
  have := h.maxUsableEnd_le
  have := h.map_le
  exact pageNumber_alignPage (by omega) p

theorem BootOk.lt_kernelPages (h : BootOk freeAddr entriesAddr entries) (p : Nat) :
    p < kernelPages freeAddr entries ↔
      p * pageSize < bootEnd freeAddr (maxUsableEnd entries.toList / pageSize) := by
  have := h.numbers
  have := h.maxUsableEnd_le
  exact pageNumber_alignPage (by omega) p

theorem BootOk.bounds (h : BootOk freeAddr entriesAddr entries) :
    0x102 ≤ kernelPages freeAddr entries ∧ bootPages entriesAddr entries ≤ kernelPages freeAddr entries ∧
      kernelPages freeAddr entries ≤ maxUsableEnd entries.toList / pageSize + 1 ∧
      0x102 ≤ maxUsableEnd entries.toList / pageSize := by
  obtain ⟨hfree, hbe, hM⟩ := h.numbers
  have hmap := h.map_le
  refine ⟨?_, ?_, ?_, ?_⟩
  · exact (h.lt_kernelPages 0x101).mpr (by unfold pageSize at *; omega)
  · by_contra hlt
    have h₁ := (h.lt_bootPages _).mp (not_le.mp hlt)
    exact lt_irrefl _ ((h.lt_kernelPages _).mpr (by omega))
  · by_contra hlt
    have h₁ := (h.lt_kernelPages _).mp (not_le.mp hlt)
    have h₂ : maxUsableEnd entries.toList < (maxUsableEnd entries.toList / pageSize + 1) * pageSize := by
      unfold pageSize; omega
    omega
  · exact (Nat.le_div_iff_mul_le (by decide)).mpr (by unfold pageSize at *; omega)

theorem BootOk.locked_iff (h : BootOk freeAddr entriesAddr entries) (p : Nat) :
    Locked freeAddr entriesAddr entries p ↔ p < bootPages entriesAddr entries ∨ p < 0x10 ∨
      (0x100 ≤ p ∧ p < kernelPages freeAddr entries) := by
  rw [h.lt_bootPages, h.lt_kernelPages, Locked]
  simp only [kernelStackAddress, kernelStartAddress, pageSize]
  omega

theorem BootOk.lockedState_eq (h : BootOk freeAddr entriesAddr entries) :
    lockedState freeAddr entriesAddr entries =
      lockPages (lockPages (lockPages (initData freeAddr (maxUsableEnd entries.toList / pageSize)) 0
        (bootPages entriesAddr entries)) 0 0x10) 0x100 (kernelPages freeAddr entries) := by
  have l₁ := lockPages_spec (initData freeAddr (maxUsableEnd entries.toList / pageSize))
    (Nat.zero_le (bootPages entriesAddr entries))
  have l₂ := lockPages_spec (lockPages (initData freeAddr (maxUsableEnd entries.toList / pageSize)) 0
    (bootPages entriesAddr entries)) (Nat.zero_le 0x10)
  rw [lockedState, h.calculateTotalPages, lockBootPages, h.mapEnd_eq, lockKernelStack,
    show pageNumber kernelStackAddress = 0x10 by decide, lockKernelPages,
    show pageNumber kernelStartAddress = 0x100 by decide]
  rw [← bootPages, l₂.bootFree, l₁.bootFree, h.bootFree]
  rfl

theorem BootOk.lockSteps (h : BootOk freeAddr entriesAddr entries) :
    ∃ s₁ s₂, LockStep (initData freeAddr (maxUsableEnd entries.toList / pageSize)) s₁ 0
        (bootPages entriesAddr entries) ∧
      LockStep s₁ s₂ 0 0x10 ∧
      LockStep s₂ (lockedState freeAddr entriesAddr entries) 0x100 (kernelPages freeAddr entries) := by
  obtain ⟨hk, -⟩ := h.bounds
  rw [h.lockedState_eq]
  exact ⟨_, _, lockPages_spec _ (Nat.zero_le _), lockPages_spec _ (Nat.zero_le _), lockPages_spec _ (by omega)⟩

open Classical in
theorem BootOk.lockedState_pages (h : BootOk freeAddr entriesAddr entries) (p : Nat) :
    (lockedState freeAddr entriesAddr entries).pages p =
      ⟨if Locked freeAddr entriesAddr entries p then 3 else 1, 0⟩ := by
  obtain ⟨s₁, s₂, l₁, l₂, l₃⟩ := h.lockSteps
  rw [l₃.pages, l₂.pages, l₁.pages]
  simp only [show (initData freeAddr (maxUsableEnd entries.toList / pageSize)).pages p = ⟨1, 0⟩ from rfl,
    Nat.zero_le, true_and, h.locked_iff, pageFlagLock]
  by_cases c₁ : p < bootPages entriesAddr entries <;> by_cases c₂ : p < 0x10 <;>
    by_cases c₃ : 0x100 ≤ p ∧ p < kernelPages freeAddr entries <;> simp [c₁, c₂, c₃]

/-- A kernel that ends in the partial last page locks one page too many, past the array; the last
page of the array is locked then. -/
theorem BootOk.lockedState_total (h : BootOk freeAddr entriesAddr entries) :
    (lockedState freeAddr entriesAddr entries).pagesLen = maxUsableEnd entries.toList / pageSize ∧
      maxUsableEnd entries.toList / pageSize ≤ (lockedState freeAddr entriesAddr entries).totalPages ∧
      ((lockedState freeAddr entriesAddr entries).totalPages ≠ maxUsableEnd entries.toList / pageSize →
        Locked freeAddr entriesAddr entries (maxUsableEnd entries.toList / pageSize - 1)) := by
  obtain ⟨s₁, s₂, l₁, l₂, l₃⟩ := h.lockSteps
  obtain ⟨hk, hb, hkT, hT⟩ := h.bounds
  have hlen : s₁.pagesLen = maxUsableEnd entries.toList / pageSize := l₁.pagesLen
  refine ⟨l₃.pagesLen.trans (l₂.pagesLen.trans hlen),
    l₁.total_le.trans (l₂.total_le.trans l₃.total_le), fun hne => ?_⟩
  rw [h.locked_iff]
  by_contra hlocked
  have hkT' : kernelPages freeAddr entries ≤ maxUsableEnd entries.toList / pageSize := by omega
  apply hne
  rw [l₃.total_eq (by rw [l₂.pagesLen, hlen]; exact hkT'), l₂.total_eq (by rw [hlen]; omega),
    l₁.total_eq (hb.trans hkT')]
  rfl

theorem BootOk.lockedState (h : BootOk freeAddr entriesAddr entries) :
    InitInv freeAddr entriesAddr entries (lockedState freeAddr entriesAddr entries)
      (Set.Iio (maxUsableEnd entries.toList / pageSize)) := by
  classical
  obtain ⟨s₁, s₂, l₁, l₂, l₃⟩ := h.lockSteps
  obtain ⟨-, -, -, hT⟩ := h.bounds
  obtain ⟨hlen, htot, hlast⟩ := h.lockedState_total
  refine ⟨⟨fun _ => [], ?_⟩, hlen, fun p _ => ?_, fun hne => ?_⟩
  · refine ⟨fun k hk => ?_, by simp, fun k hk => ?_, ?_, ?_, ?_, ?_, by simp, fun p _ => ?_, by simp, ?_, ?_⟩
    · rw [l₃.links, l₂.links, l₁.links]; exact initNodes_ring hk
    · rw [l₃.numBlocks, l₂.numBlocks, l₁.numBlocks]; rfl
    · rw [l₃.numPages, l₂.numPages, l₁.numPages]; simp [Ghost.freeSum, handSize, initData]
    · intro t ht
      cases t <;> simp at ht
      exact (by decide : 0 < buddyMaxOrder)
    · intro t ht
      cases t <;> simp at ht
      exact one_dvd _
    · rw [hlen]
      refine ⟨?_, ?_, ?_⟩
      · intro t ht
        cases t <;> simp at ht
        rw [Tile.cells_reserved, blk_zero]; simpa using ht
      · exact fun x hx => ⟨.reserved x, hx, self_mem_blk x 0⟩
      · intro t ht t' ht' x hx hx'
        cases t <;> simp at ht
        cases t' <;> simp at ht'
        rw [Tile.cells_reserved, blk_zero, Set.mem_singleton_iff] at hx hx'
        rw [← hx, ← hx']
    · rw [h.lockedState_pages]; dsimp only; split_ifs <;> simp
    · refine .inr ⟨by rw [hlen]; exact htot, ?_⟩
      rw [hlen]; show (_ : Nat) < _; omega
    · show 0 < _; omega
  · rw [h.lockedState_pages]
    by_cases hL : Locked freeAddr entriesAddr entries p <;> simp [hL, pageFlagLock]
  · rw [hlen] at hne ⊢; exact hlast hne

/-! ### Freeing -/

theorem InitInv.freePage {s : State} {R : Set Nat} (h : InitInv freeAddr entriesAddr entries s R) {p : Nat}
    (hp : p ∈ R) :
    InitInv freeAddr entriesAddr entries
      (if (s.pages p).flags &&& pageFlagLock = 0 then pmmFreePages s p 0 else s)
      (R \ {q | q = p ∧ ¬ Locked freeAddr entriesAddr entries q}) := by
  by_cases hL : Locked freeAddr entriesAddr entries p
  · have hR : R \ {q | q = p ∧ ¬ Locked freeAddr entriesAddr entries q} = R := by
      ext q
      simp only [Set.mem_sdiff, Set.mem_ofPred_eq, not_and, not_not, and_iff_left_iff_imp]
      rintro - rfl
      exact hL
    rw [if_neg (fun h0 => (h.lock p hp).mp h0 hL), hR]
    exact h
  · have hR : R \ {q | q = p ∧ ¬ Locked freeAddr entriesAddr entries q} = R \ {p} := by
      ext q
      simp only [Set.mem_sdiff, Set.mem_ofPred_eq, Set.mem_singleton_iff, not_and, not_not]
      exact and_congr_right fun _ => ⟨fun hq he => hL (he ▸ hq he), fun hne he => absurd he hne⟩
    rw [if_pos ((h.lock p hp).mpr hL), hR]
    obtain ⟨areas, hinv⟩ := h.inv
    have hp0 : p ≠ 0 := by rintro rfl; exact hL (.inr (.inl (by decide)))
    obtain ⟨areas', hinv', hfr⟩ := hinv.pmmFreePages_reserved rfl hp hp0
      (by intro hne he; exact hL (he ▸ h.last hne))
    refine ⟨⟨areas', hinv'⟩, hfr.pagesLen.trans h.len, fun q hq => ?_, fun hne => ?_⟩
    · rw [hfr.pages q hq]; exact h.lock q hq.1
    · rw [hfr.totalPages, hfr.pagesLen] at hne
      rw [hfr.pagesLen]; exact h.last hne

theorem InitInv.initFreeRegion (stop : Nat) (hstop : stop ≤ 0xFFFFF000) :
    ∀ (rounds : Nat) {s : State} {R : Set Nat} (n : Nat), InitInv freeAddr entriesAddr entries s R →
      stop / pageSize ≤ n + rounds → (∀ q, n ≤ q → (q + 1) * pageSize ≤ stop → q ∈ R) →
      InitInv freeAddr entriesAddr entries (initFreeRegion rounds s (n * pageSize) stop)
        (R \ {q | (n ≤ q ∧ (q + 1) * pageSize ≤ stop) ∧ ¬ Locked freeAddr entriesAddr entries q})
  | 0, s, R, n, h, hr, _ => by
    have hR : R \ {q | (n ≤ q ∧ (q + 1) * pageSize ≤ stop) ∧ ¬ Locked freeAddr entriesAddr entries q} = R := by
      refine sdiff_eq_left.mpr (Set.disjoint_left.mpr fun q _ hq => ?_)
      have := (Nat.le_div_iff_mul_le (by decide : 0 < pageSize)).mpr hq.1.2
      have := hq.1.1
      omega
    rw [hR]; exact h
  | rounds + 1, s, R, n, h, hr, hmem => by
    unfold Pmm.initFreeRegion
    have hsucc : n * pageSize + pageSize = (n + 1) * pageSize := (Nat.succ_mul n pageSize).symm
    by_cases hle : n * pageSize + pageSize ≤ stop
    · have hnum : pageNumber (n * pageSize) = n := by
        unfold pageNumber
        rw [u32_of_lt (by unfold pageSize at hle ⊢; omega), Nat.mul_div_cancel _ (by decide)]
      have hstep := h.freePage (hmem n le_rfl (hsucc ▸ hle))
      have hrest := InitInv.initFreeRegion stop hstop rounds (n + 1) hstep (by omega)
        (fun q hq hq' => ⟨hmem q (by omega) hq', fun he => by have := he.1; omega⟩)
      rw [if_pos hle]
      dsimp only
      rw [hnum, hsucc]
      convert hrest using 1
      ext q
      simp only [Set.mem_sdiff, Set.mem_ofPred_eq, not_and, not_not]
      constructor
      · rintro ⟨hq, hL⟩
        exact ⟨⟨hq, fun he => hL ⟨he.ge, by rw [he, ← hsucc]; exact hle⟩⟩, fun hc => hL ⟨by omega, hc.2⟩⟩
      · rintro ⟨⟨hq, hL⟩, hL'⟩
        refine ⟨hq, fun hc => ?_⟩
        rcases hc.1.eq_or_lt with he | hlt
        · exact hL he.symm
        · exact hL' ⟨hlt, hc.2⟩
    · rw [if_neg hle]
      have hR : R \ {q | (n ≤ q ∧ (q + 1) * pageSize ≤ stop) ∧ ¬ Locked freeAddr entriesAddr entries q} =
          R := by
        refine sdiff_eq_left.mpr (Set.disjoint_left.mpr fun q _ hq => hle ?_)
        rw [hsucc]
        exact (Nat.mul_le_mul_right _ (Nat.succ_le_succ hq.1.1)).trans hq.1.2
      rw [hR]; exact h

theorem InitInv.initFreeEntry {s : State} {R : Set Nat} (h : InitInv freeAddr entriesAddr entries s R)
    {e : MmapEntry} (hstop : e.usable → e.stop ≤ 0xFFFFF000) (hmem : ∀ q, e.Holds q → q ∈ R) :
    InitInv freeAddr entriesAddr entries (initFreeEntry s e)
      (R \ {q | e.Holds q ∧ ¬ Locked freeAddr entriesAddr entries q}) := by
  unfold Pmm.initFreeEntry
  by_cases hu : e.usable
  · have hs := hstop hu
    have hstart : alignPage e.base = (e.base + 4095) / pageSize * pageSize := by
      simp only [MmapEntry.stop] at hs
      simp only [alignPage, align, u32, pageSize]
      omega
    have hiff : ∀ q, ((e.base + 4095) / pageSize ≤ q ∧ (q + 1) * pageSize ≤ e.stop) ↔ e.Holds q := by
      intro q
      simp only [MmapEntry.Holds, hu, true_and, pageSize]
      omega
    rw [if_pos hu, hstart, ← MmapEntry.stop]
    have := InitInv.initFreeRegion e.stop hs (e.stop / pageSize) ((e.base + 4095) / pageSize) h (by exact Nat.le_add_left _ _)
      (fun q hq hq' => hmem q ((hiff q).mp ⟨hq, hq'⟩))
    simpa only [hiff] using this
  · rw [if_neg hu]
    have hR : R \ {q | e.Holds q ∧ ¬ Locked freeAddr entriesAddr entries q} = R :=
      sdiff_eq_left.mpr (Set.disjoint_left.mpr fun q _ hq => hu hq.1.1)
    rw [hR]; exact h

theorem InitInv.initFreePages : ∀ (l : List MmapEntry) {s : State} {R : Set Nat},
    InitInv freeAddr entriesAddr entries s R → l.Pairwise (fun e e' => e.stop ≤ e'.base) →
    (∀ e ∈ l, e.usable → e.stop ≤ 0xFFFFF000) → (∀ e ∈ l, ∀ q, e.Holds q → q ∈ R) →
    InitInv freeAddr entriesAddr entries (initFreePages s l)
      (R \ {q | (∃ e ∈ l, e.Holds q) ∧ ¬ Locked freeAddr entriesAddr entries q})
  | [], s, R, h, _, _, _ => by simpa [Pmm.initFreePages] using h
  | e :: l, s, R, h, hs, hstop, hmem => by
    obtain ⟨he, hs⟩ := List.pairwise_cons.mp hs
    have h₁ := h.initFreeEntry (hstop e (by simp)) (hmem e (by simp))
    have h₂ := InitInv.initFreePages l h₁ hs (fun e' he' => hstop e' (by simp [he'])) (by
      refine fun e' he' q hq => ⟨hmem e' (by simp [he']) q hq, fun hc => ?_⟩
      -- a page lies in one region only
      have h₁ := hc.1.2.2
      have h₂ := hq.2.1
      have h₃ := he e' he'
      rw [Nat.succ_mul] at h₁
      unfold pageSize at *; omega)
    have hR : R \ {q | (∃ a ∈ e :: l, a.Holds q) ∧ ¬ Locked freeAddr entriesAddr entries q} =
        (R \ {q | e.Holds q ∧ ¬ Locked freeAddr entriesAddr entries q}) \
          {q | (∃ a ∈ l, a.Holds q) ∧ ¬ Locked freeAddr entriesAddr entries q} := by
      ext q
      simp only [List.mem_cons, exists_eq_or_imp, Set.mem_sdiff, Set.mem_ofPred_eq]
      rw [or_and_right, not_or, and_assoc]
    rw [hR]
    exact h₂

/-- After `pmm_initialize` the allocator has exactly the unlocked pages of the usable regions. -/
theorem BootOk.pmmInitialize (h : BootOk freeAddr entriesAddr entries) :
    (pmmInitialize freeAddr entriesAddr entries).pagesLen = maxUsableEnd entries.toList / pageSize ∧
      ∃ areas, Inv (pmmInitialize freeAddr entriesAddr entries)
        ⟨areas, ∅, none, keptPages freeAddr entriesAddr entries⟩ := by
  have hfin := h.lockedState.initFreePages (sortedEntries entries) h.sorted
    (fun e he => h.usable_stop e (mem_sortedEntries.mp he)) (by
      intro e he q hq
      have h₁ := le_maxUsableEnd (Array.mem_toList_iff.mpr (mem_sortedEntries.mp he)) hq.1
      exact (Nat.le_div_iff_mul_le (by decide : 0 < pageSize)).mpr (hq.2.2.trans h₁))
  have hkept : Set.Iio (maxUsableEnd entries.toList / pageSize) \ {q | (∃ e ∈ sortedEntries entries, e.Holds q) ∧
      ¬ Locked freeAddr entriesAddr entries q} = keptPages freeAddr entriesAddr entries := by
    ext q
    simp only [keptPages, mem_sortedEntries, Set.mem_sdiff, Set.mem_Iio, Set.mem_ofPred_eq, not_and, not_not,
      forall_exists_index, and_imp]
    refine and_congr_right fun _ => ⟨fun hq => ?_, ?_⟩
    · by_cases hL : Locked freeAddr entriesAddr entries q
      · exact .inl hL
      · exact .inr fun e he hh => hL (hq e he hh)
    · rintro (hL | hn) e he hh
      · exact hL
      · exact absurd hh (hn e he)
  rw [hkept] at hfin
  exact ⟨hfin.len, hfin.inv⟩

end
end Airix.Pmm
