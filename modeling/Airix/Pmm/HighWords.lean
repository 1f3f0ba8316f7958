import Airix.Pmm.Exact

/-!
# Memory above 4 GiB

The map gives 64-bit regions; `pmm_initialize` reads the low words only. As long as every usable region
is a 32-bit one nothing is lost, and the state does not depend on the other entries at all
(`LowOnly.pmmInitialize_eq`).
-/

namespace Airix.Pmm

namespace MmapEntry

/-- `base_high:base`. -/
def base64 (e : MmapEntry) : Nat := e.baseHigh * 2 ^ 32 + e.base

/-- `length_high:length`. -/
def length64 (e : MmapEntry) : Nat := e.lengthHigh * 2 ^ 32 + e.length

def stop64 (e : MmapEntry) : Nat := e.base64 + e.length64

end MmapEntry

/-- A map of pairwise disjoint 64-bit regions. -/
structure Map64 (entries : Array MmapEntry) : Prop where
  words : ∀ e ∈ entries, e.base < 2 ^ 32 ∧ e.length < 2 ^ 32 ∧ e.baseHigh < 2 ^ 32 ∧ e.lengthHigh < 2 ^ 32
  disjoint : entries.toList.Pairwise fun e e' => e.stop64 ≤ e'.base64 ∨ e'.stop64 ≤ e.base64

/-- The usable regions are non-empty and below 4 GiB and reach above the boot allocations, and the map
itself ends below the kernel stack. -/
structure LowOnly (freeAddr entriesAddr : Nat) (entries : Array MmapEntry) : Prop where
  low : ∀ e ∈ entries, e.usable → e.baseHigh = 0 ∧ e.lengthHigh = 0 ∧ 0 < e.length ∧ e.Fits
  map_le : mapEnd entriesAddr entries ≤ kernelStackAddress
  kernel : kernelStartAddress + 2 * pageSize ≤ freeAddr
  reach : bootEnd freeAddr (maxUsableEnd entries.toList / pageSize) < maxUsableEnd entries.toList

theorem getMaxPhysicalAddress_filter (l : List MmapEntry) :
    getMaxPhysicalAddress (l.filter MmapEntry.usable) = getMaxPhysicalAddress l := by
  unfold getMaxPhysicalAddress
  rw [← List.filter_reverse, List.find?_filter]
  simp

theorem maxUsableEnd_filter (l : List MmapEntry) : maxUsableEnd (l.filter MmapEntry.usable) = maxUsableEnd l := by
  unfold maxUsableEnd
  rw [List.filter_filter]
  simp only [Bool.and_self]

theorem initFreePages_filter (s : State) (l : List MmapEntry) :
    initFreePages s (l.filter MmapEntry.usable) = initFreePages s l := by
  unfold initFreePages
  rw [List.foldl_filter]
  congr 1
  funext s e
  unfold initFreeEntry
  split <;> rfl

/-- A lock loop inside the page array only sets lock bits. -/
theorem lockPages_eq : ∀ (n lo : Nat) (s : State), lo + n ≤ s.pagesLen →
    (List.range' lo n).foldl lockPage s = { s with pages := fun p =>
      if lo ≤ p ∧ p < lo + n then ⟨(s.pages p).flags ||| pageFlagLock, (s.pages p).order⟩ else s.pages p }
  | 0, lo, s, _ => by
    have hpages : (fun p => if lo ≤ p ∧ p < lo + 0 then
        (⟨(s.pages p).flags ||| pageFlagLock, (s.pages p).order⟩ : Page) else s.pages p) = s.pages := by
      funext p; rw [if_neg (by omega)]
    rw [hpages]; rfl
  | n + 1, lo, s, hle => by
    have hone : lockPage s lo = setPage s lo ⟨(s.pages lo).flags ||| pageFlagLock, (s.pages lo).order⟩ := by
      unfold lockPage
      dsimp only
      rw [if_neg]
      rintro ⟨h, -⟩
      simp only [setPage] at h
      omega
    rw [List.range'_succ, List.foldl_cons, hone, lockPages_eq n (lo + 1) _ (by simp only [setPage]; omega)]
    simp only [setPage, State.mk.injEq, and_true]
    funext p
    by_cases hp : p = lo
    · subst hp
      rw [if_neg (by omega), if_pos (by omega), Function.update_self]
    · rw [Function.update_of_ne hp]
      split_ifs <;> first | rfl | omega

/-- Locking a prefix of a range first makes no difference. -/
theorem lockPages_lockPages {s : State} {b n : Nat} (hb : b ≤ n) (hn : n ≤ s.pagesLen) :
    lockPages (lockPages s 0 b) 0 n = lockPages s 0 n := by
  unfold lockPages
  rw [lockPages_eq (b - 0) 0 s (by omega), lockPages_eq (n - 0) 0 s (by omega),
    lockPages_eq (n - 0) 0 _ (by show 0 + (n - 0) ≤ s.pagesLen; omega)]
  simp only [State.mk.injEq, and_true, Nat.zero_le, true_and, Nat.sub_zero, Nat.zero_add]
  funext p
  split_ifs <;> first | rfl | omega | simp [Nat.or_assoc]

section
variable {freeAddr entriesAddr : Nat} {entries : Array MmapEntry}

/-- The usable entries in address order. -/
def usableEntries (entries : Array MmapEntry) : List MmapEntry := (sortedEntries entries).filter MmapEntry.usable

theorem mem_usableEntries {e : MmapEntry} : e ∈ usableEntries entries ↔ e ∈ entries ∧ e.usable := by
  rw [usableEntries, List.mem_filter, mem_sortedEntries]

theorem LowOnly.base64_eq (h : LowOnly freeAddr entriesAddr entries) {e : MmapEntry} (he : e ∈ entries)
    (hu : e.usable) : e.base64 = e.base ∧ e.stop64 = e.stop := by
  obtain ⟨h₁, h₂, -⟩ := h.low e he hu
  simp [MmapEntry.stop64, MmapEntry.base64, MmapEntry.length64, MmapEntry.stop, h₁, h₂]

theorem LowOnly.sorted (h : LowOnly freeAddr entriesAddr entries) (hm : Map64 entries) :
    (usableEntries entries).Pairwise fun e e' => e.stop ≤ e'.base := by
  have hdis : (sortedEntries entries).Pairwise fun e e' => e.stop64 ≤ e'.base64 ∨ e'.stop64 ≤ e.base64 :=
    ((sortedEntries_perm entries).pairwise_iff (fun h => h.symm)).mpr hm.disjoint
  have hboth : (usableEntries entries).Pairwise fun e e' =>
      (e.stop64 ≤ e'.base64 ∨ e'.stop64 ≤ e.base64) ∧ e.base ≤ e'.base :=
    (hdis.and (sortedEntries_ordered entries)).filter _
  refine hboth.imp_of_mem fun {e e'} he he' hee => ?_
  obtain ⟨hmem, hu⟩ := mem_usableEntries.mp he
  obtain ⟨hmem', hu'⟩ := mem_usableEntries.mp he'
  have hpos := (h.low e' hmem' hu').2.2.1
  rw [(h.base64_eq hmem hu).1, (h.base64_eq hmem hu).2, (h.base64_eq hmem' hu').1,
    (h.base64_eq hmem' hu').2] at hee
  refine hee.1.resolve_right fun hle => ?_
  have := hee.2
  unfold MmapEntry.stop at hle
  omega

theorem LowOnly.calculateTotalPages (h : LowOnly freeAddr entriesAddr entries) (hm : Map64 entries) :
    calculateTotalPages (sortedEntries entries) = maxUsableEnd entries.toList / pageSize := by
  have hmax : maxUsableEnd entries.toList ≤ 2 ^ 32 := by
    rcases maxUsableEnd_eq_zero_or entries.toList with h0 | ⟨e, he, hu, heq⟩
    · omega
    · rw [heq]; exact (h.low e (Array.mem_toList_iff.mp he) hu).2.2.2.2
  rw [Pmm.calculateTotalPages, ← getMaxPhysicalAddress_filter, ← usableEntries,
    getMaxPhysicalAddress_eq (h.sorted hm), usableEntries, maxUsableEnd_filter,
    maxUsableEnd_perm (sortedEntries_perm entries)]
  exact u32_of_lt (by unfold pageSize; omega)

theorem LowOnly.pages_le (h : LowOnly freeAddr entriesAddr entries) :
    0x10 ≤ maxUsableEnd entries.toList / pageSize := by
  have h₁ := h.kernel
  have h₂ := h.reach
  refine (Nat.le_div_iff_mul_le (by decide)).mpr ?_
  unfold bootEnd at h₂
  unfold kernelStartAddress pageSize at *
  omega

/-- Neither the map itself nor an entry that is not usable has any influence. -/
theorem LowOnly.pmmInitialize_eq (h : LowOnly freeAddr entriesAddr entries) (hm : Map64 entries) :
    pmmInitialize freeAddr entriesAddr entries =
      initFreePages (lockKernelPages (lockKernelStack
        (initData freeAddr (maxUsableEnd entries.toList / pageSize)))) (usableEntries entries) := by
  have hboot : pageNumber (alignPage (castVirtualToPhysical
      (u32 (entriesAddr + sizeofMmapEntry * (sortedEntries entries).length)))) ≤ 0x10 := by
    have hmap := h.map_le
    have hend : castVirtualToPhysical (u32 (entriesAddr + sizeofMmapEntry * entries.size)) ≤ 0x10000 := by
      simp only [mapEnd, castVirtualToPhysical, kernelStackAddress, sizeofMmapEntry, u32, kernelBase] at hmap ⊢
      omega
    rw [(sortedEntries_perm entries).length_eq, Array.length_toList]
    generalize castVirtualToPhysical (u32 (entriesAddr + sizeofMmapEntry * entries.size)) = a at hend
    simp only [pageNumber, alignPage, align, pageSize, u32]
    omega
  have hstack : lockKernelStack (lockBootPages (initData freeAddr (maxUsableEnd entries.toList / pageSize))
      (u32 (entriesAddr + sizeofMmapEntry * (sortedEntries entries).length))) =
      lockKernelStack (initData freeAddr (maxUsableEnd entries.toList / pageSize)) := by
    unfold lockKernelStack lockBootPages
    rw [show pageNumber kernelStackAddress = 0x10 by decide]
    exact lockPages_lockPages hboot h.pages_le
  show initFreePages (lockKernelPages (lockKernelStack (lockBootPages
    (initData freeAddr (Pmm.calculateTotalPages (sortedEntries entries)))
    (u32 (entriesAddr + sizeofMmapEntry * (sortedEntries entries).length))))) (sortedEntries entries) = _
  rw [h.calculateTotalPages hm, hstack, usableEntries, initFreePages_filter]

/-! ### Removing a high entry -/

theorem toList_erase (entries : Array MmapEntry) (x : MmapEntry) :
    (entries.erase x).toList = entries.toList.erase x := by
  obtain ⟨l⟩ := entries
  rw [List.erase_toArray]

theorem Map64.erase (hm : Map64 entries) (x : MmapEntry) : Map64 (entries.erase x) where
  words e he := hm.words e (Array.mem_of_mem_erase he)
  disjoint := by rw [toList_erase]; exact hm.disjoint.sublist List.erase_sublist

theorem maxUsableEnd_erase {x : MmapEntry} (hx : ¬ x.usable) :
    maxUsableEnd (entries.erase x).toList = maxUsableEnd entries.toList := by
  rw [← maxUsableEnd_filter, ← maxUsableEnd_filter entries.toList, toList_erase, ← List.erase_filter]
  rw [List.erase_of_not_mem fun hmem => hx (List.mem_filter.mp hmem).2]

theorem LowOnly.erase (h : LowOnly freeAddr entriesAddr entries) {x : MmapEntry} (hx : ¬ x.usable) :
    LowOnly freeAddr entriesAddr (entries.erase x) where
  low e he hu := h.low e (Array.mem_of_mem_erase he) hu
  map_le := by
    have hsize : (entries.erase x).size ≤ entries.size := by
      rw [← Array.length_toList, ← Array.length_toList, toList_erase]
      exact List.length_erase_le
    have := h.map_le
    unfold mapEnd sizeofMmapEntry at *
    omega
  kernel := h.kernel
  reach := by rw [maxUsableEnd_erase hx]; exact h.reach

end
end Airix.Pmm
