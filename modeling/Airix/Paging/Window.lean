import Airix.Paging.Model
import Airix.Pmm.Buddy

/-!
# The kernel window

The page directory lies in frame `d` and its tables in the frames behind it. `Window m d k`: the first
`k` tables are installed, so that the walk of `KERNEL_BASE + a` yields `a` below `k` times 4 MiB. The
loop of `pg_complete_paging` keeps going when `KERNEL_BASE + a` wraps, at 1 GiB, and fills the
directory from its start.
-/

namespace Airix.Paging

open Proc (vmmPresent vmmWritable vmmUser vmmPdeIndex vmmPteIndex entryAddress numPde numPte)
open Pmm (MmapEntry mmapEntryCompare getMaxPhysicalAddress maxUsableEnd bootEnd mapEnd kernelStartAddress)

/-! ### Entries -/

theorem entry_eq (n : Nat) : n * pageSize ||| vmmWritable ||| vmmPresent = n * pageSize + 3 := by
  rw [Nat.or_assoc, show vmmWritable ||| vmmPresent = 3 by decide]
  have := Nat.two_pow_add_eq_or_of_lt (show 3 < 2 ^ 12 by decide) n
  rw [Nat.mul_comm] at this
  exact this.symm

theorem hasFlag_eq {x flag : Nat} (hf : 7 &&& flag = flag) : hasFlag x flag = hasFlag (x % 8) flag := by
  unfold hasFlag
  have hmod : x &&& 7 = x % 8 := Nat.and_two_pow_sub_one_eq_mod x 3
  rw [← hmod, Nat.and_assoc, hf]

theorem hasFlag_entry (n : Nat) : hasFlag (n * pageSize + 3) vmmPresent ∧
    hasFlag (n * pageSize + 3) vmmWritable ∧ hasFlag (n * pageSize + 3) vmmUser = false := by
  have hmod : (n * pageSize + 3) % 8 = 3 := by unfold pageSize; omega
  refine ⟨?_, ?_, ?_⟩ <;> rw [hasFlag_eq (by decide), hmod] <;> decide

theorem entryAddress_entry (n : Nat) : entryAddress (n * pageSize + 3) = n * pageSize := by
  unfold entryAddress pageSize; omega

theorem pageNumber_mul {n : Nat} (h : n < 0x100000) : pageNumber (n * pageSize) = n := by
  unfold pageNumber u32 pageSize; omega

theorem walk_eq {mem : Nat → Nat → Nat} {dir vaddr t x : Nat}
    (hpde : mem (pageNumber dir) (vmmPdeIndex vaddr) = t * pageSize + 3) (ht : t < 0x100000)
    (hpte : mem t (vmmPteIndex vaddr) = x * pageSize + 3) :
    walk mem dir vaddr = some ⟨x * pageSize + vaddr % pageSize, true, false⟩ := by
  obtain ⟨h₁, h₂, h₃⟩ := hasFlag_entry t
  obtain ⟨k₁, k₂, k₃⟩ := hasFlag_entry x
  unfold walk
  dsimp only
  rw [hpde, entryAddress_entry, pageNumber_mul ht, hpte, entryAddress_entry, if_pos ⟨h₁, k₁⟩]
  simp [h₂, h₃, k₂, k₃]

/-- An entry that `vmm_alloc_page_table` left empty. -/
theorem walk_eq_none {mem : Nat → Nat → Nat} {dir vaddr : Nat}
    (hpde : mem (pageNumber dir) (vmmPdeIndex vaddr) = vmmWritable) : walk mem dir vaddr = none := by
  unfold walk
  dsimp only
  rw [hpde, if_neg]
  rintro ⟨h, -⟩
  exact absurd h (by decide)

/-! ### The window -/

/-- Frame `f` holds a directory with the first `k` tables behind the frame `d`. -/
structure Maps (mem : Nat → Nat → Nat) (f d k : Nat) : Prop where
  dir : ∀ j < k, mem f ((768 + j) % 1024) = (d + 1 + j) * pageSize + 3
  table : ∀ j < k, ∀ i < 1024, mem (d + 1 + j) i = (j * 1024 + i) * pageSize + 3

theorem Maps.walk {mem : Nat → Nat → Nat} {f d k dir a : Nat} (h : Maps mem f d k) (hf : pageNumber dir = f)
    (hd : d + 1 + k ≤ 0x100000) (hk : k ≤ 1024) (ha : a < k * 0x400000) :
    walk mem dir (castPhysicalToVirtual a) = some ⟨a, true, false⟩ := by
  have hj : a / 0x400000 < k := by omega
  have hpde : vmmPdeIndex (castPhysicalToVirtual a) = (768 + a / 0x400000) % 1024 := by
    simp only [vmmPdeIndex, castPhysicalToVirtual, u32, kernelBase]; omega
  have hpte : vmmPteIndex (castPhysicalToVirtual a) = a / 0x1000 % 1024 := by
    simp only [vmmPteIndex, castPhysicalToVirtual, u32, kernelBase]; omega
  have hoff : castPhysicalToVirtual a % pageSize = a % pageSize := by
    simp only [castPhysicalToVirtual, u32, kernelBase, pageSize]; omega
  have h₁ := h.dir _ hj
  have h₂ : mem (d + 1 + a / 0x400000) (vmmPteIndex (castPhysicalToVirtual a)) =
      (a / 0x400000 * 1024 + a / 0x1000 % 1024) * pageSize + 3 := by
    rw [hpte]; exact h.table _ hj _ (Nat.mod_lt _ (by decide))
  rw [← hpde, ← hf] at h₁
  have haddr : (a / 0x400000 * 1024 + a / 0x1000 % 1024) * pageSize + a % pageSize = a := by
    unfold pageSize; omega
  rw [walk_eq h₁ (by omega) h₂, hoff, haddr]

structure Window (m : Machine) (d k : Nat) : Prop extends Maps m.mem d d k where
  cr3 : m.cr3 = d * pageSize
  pgDir : m.pgDir = castPhysicalToVirtual (d * pageSize)
  pos : 0 < k
  frames : d + 3 ≤ 1024
  le : k ≤ 1024

/-- The directory has nothing else. -/
def Unmapped (m : Machine) (d k : Nat) : Prop :=
  ∀ i < 1024, k ≤ (i + 256) % 1024 → m.mem d i = vmmWritable

section
variable {m : Machine} {d k f : Nat}

theorem Window.walk_frame (h : Window m d k) (hf : f * pageSize < k * 0x400000) :
    walk m.mem m.cr3 (castPhysicalToVirtual (f * pageSize)) = some ⟨f * pageSize, true, false⟩ := by
  have := h.frames
  have := h.le
  refine h.toMaps.walk ?_ (by omega) h.le hf
  rw [h.cr3, pageNumber_mul (by omega)]

theorem loadPage_eq (hw : walk m.mem m.cr3 (castPhysicalToVirtual (f * pageSize)) =
    some ⟨f * pageSize, true, false⟩) (hf : f < 0x100000) :
    loadPage m (castPhysicalToVirtual (f * pageSize)) = some (m.mem f) := by
  unfold loadPage
  rw [hw]
  simp [pageNumber_mul hf]

theorem storePage_eq (hw : walk m.mem m.cr3 (castPhysicalToVirtual (f * pageSize)) =
    some ⟨f * pageSize, true, false⟩) (hf : f < 0x100000) (words : Nat → Nat) :
    storePage m (castPhysicalToVirtual (f * pageSize)) words =
      some { m with mem := Function.update m.mem f words } := by
  unfold storePage
  rw [hw]
  simp [pageNumber_mul hf]

theorem store_eq (hw : walk m.mem m.cr3 (castPhysicalToVirtual (f * pageSize)) =
    some ⟨f * pageSize, true, false⟩) (hf : f < 0x100000) (index word : Nat) :
    store m (castPhysicalToVirtual (f * pageSize)) index word =
      some { m with mem := Function.update m.mem f (Function.update (m.mem f) index word) } := by
  unfold store
  rw [loadPage_eq hw hf]
  exact storePage_eq hw hf _

theorem Window.store_dir (h : Window m d k) (index word : Nat) :
    store m m.pgDir index word =
      some { m with mem := Function.update m.mem d (Function.update (m.mem d) index word) } := by
  have := h.frames
  have hframe : d * pageSize < k * 0x400000 := by
    have := h.pos
    unfold pageSize; omega
  have hstore := store_eq (h.walk_frame hframe) (by omega) index word
  rwa [← h.pgDir] at hstore

/-! ### Boot -/

theorem pgInitPaging_window (mem : Nat → Nat → Nat) (hd : d + 3 ≤ 1024) :
    Window (pgInitPaging mem (d * pageSize)).1 d 1 ∧
      (pgInitPaging mem (d * pageSize)).2 = (d + 2) * pageSize ∧
      ∀ i, i ≠ 0 → i ≠ 768 → (pgInitPaging mem (d * pageSize)).1.mem d i = vmmWritable := by
  have htab : u32 (d * pageSize + pageSize) = (d + 1) * pageSize := by
    unfold u32 pageSize; omega
  have hfree : u32 ((d + 1) * pageSize + pageSize) = (d + 2) * pageSize := by
    unfold u32 pageSize; omega
  have hne : d ≠ d + 1 := by omega
  have hmem : (pgInitPaging mem (d * pageSize)).1.mem = Function.update (Function.update mem d
      (Function.update (Function.update (fun _ => vmmWritable) 0 ((d + 1) * pageSize + 3)) 768
        ((d + 1) * pageSize + 3))) (d + 1) fun i => i * pageSize + 3 := by
    have hwords : (fun i => i * 0x1000 ||| vmmWritable ||| vmmPresent) = fun i => i * pageSize + 3 :=
      funext entry_eq
    unfold pgInitPaging
    dsimp only
    rw [htab, pageNumber_mul (by omega), pageNumber_mul (by omega), entry_eq,
      show vmmPdeIndex kernelBase = 768 by decide, hwords]
  refine ⟨⟨⟨fun j hj => ?_, fun j hj i hi => ?_⟩, rfl, rfl, Nat.one_pos, hd, by decide⟩, ?_, fun i h0 h768 => ?_⟩
  · obtain rfl : j = 0 := by omega
    rw [hmem, Function.update_of_ne hne, Function.update_self, Nat.add_zero, Nat.add_zero,
      Nat.mod_eq_of_lt (by decide), Function.update_self]
  · obtain rfl : j = 0 := by omega
    rw [hmem, Nat.add_zero, Function.update_self, Nat.zero_mul, Nat.zero_add]
  · show u32 (u32 (d * pageSize + pageSize) + pageSize) = _
    rw [htab, hfree]
  · rw [hmem, Function.update_of_ne hne, Function.update_self, Function.update_of_ne h768,
      Function.update_of_ne h0]

/-- `pg_complete_paging` first takes the low mapping away. -/
theorem Window.clear (h : Window m d 1) (hrest : ∀ i, i ≠ 0 → i ≠ 768 → m.mem d i = vmmWritable) :
    ∃ m', store m m.pgDir 0 vmmWritable = some m' ∧ Window m' d 1 ∧ Unmapped m' d 1 := by
  refine ⟨_, h.store_dir 0 vmmWritable, ⟨⟨fun j hj => ?_, fun j hj i hi => ?_⟩, h.cr3, h.pgDir, h.pos, h.frames,
    h.le⟩, fun i hi hk => ?_⟩
  · dsimp only
    rw [Function.update_self, Function.update_of_ne (by omega)]
    exact h.dir j hj
  · dsimp only
    rw [Function.update_of_ne (by omega)]
    exact h.table j hj i hi
  · dsimp only
    rw [Function.update_self]
    by_cases h0 : i = 0
    · subst h0; rw [Function.update_self]
    · rw [Function.update_of_ne h0]; exact hrest i h0 (by omega)

/-- One round of the loop. -/
theorem Window.install (h : Window m d k) (hu : Unmapped m d k) (hk : k < 1024) :
    ∃ m₁ m₂, storePage m (castPhysicalToVirtual ((d + 1 + k) * pageSize))
        (fun i => u32 (k * 0x400000 + i * pageSize) ||| vmmWritable ||| vmmPresent) = some m₁ ∧
      store m₁ m₁.pgDir (vmmPdeIndex (u32 (u32 (k * 0x400000) + kernelBase)))
        (castVirtualToPhysical (castPhysicalToVirtual ((d + 1 + k) * pageSize)) ||| vmmWritable ||| vmmPresent) =
          some m₂ ∧
      Window m₂ d (k + 1) ∧ Unmapped m₂ d (k + 1) := by
  have hd := h.frames
  have hpos := h.pos
  have hidx : vmmPdeIndex (u32 (u32 (k * 0x400000) + kernelBase)) = (768 + k) % 1024 := by
    simp only [vmmPdeIndex, u32, kernelBase]; omega
  have hback : castVirtualToPhysical (castPhysicalToVirtual ((d + 1 + k) * pageSize)) = (d + 1 + k) * pageSize :=
    castVirtualToPhysical_castPhysicalToVirtual (by unfold pageSize; omega)
  have hwords : ∀ i < 1024, u32 (k * 0x400000 + i * pageSize) ||| vmmWritable ||| vmmPresent =
      (k * 1024 + i) * pageSize + 3 := by
    intro i hi
    have : u32 (k * 0x400000 + i * pageSize) = (k * 1024 + i) * pageSize := by unfold u32 pageSize; omega
    rw [this, entry_eq]
  have hframe : (d + 1 + k) * pageSize < k * 0x400000 := by unfold pageSize; omega
  have hstep := storePage_eq (h.walk_frame hframe) (by omega)
    (fun i => u32 (k * 0x400000 + i * pageSize) ||| vmmWritable ||| vmmPresent)
  generalize hw : (fun i => u32 (k * 0x400000 + i * pageSize) ||| vmmWritable ||| vmmPresent) = words at hstep ⊢
  have hwords' : ∀ i < 1024, words i = (k * 1024 + i) * pageSize + 3 := by
    intro i hi; rw [← hw]; exact hwords i hi
  -- the new table lies behind the installed ones
  have hold : ∀ f, f ≠ d + 1 + k → Function.update m.mem (d + 1 + k) words f = m.mem f := fun f hf =>
    Function.update_of_ne hf _ _
  have h₁ : Window { m with mem := Function.update m.mem (d + 1 + k) words } d k := by
    refine ⟨⟨fun j hj => ?_, fun j hj i hi => ?_⟩, h.cr3, h.pgDir, h.pos, h.frames, h.le⟩
    · show Function.update m.mem (d + 1 + k) words d _ = _
      rw [hold d (by omega)]; exact h.dir j hj
    · show Function.update m.mem (d + 1 + k) words (d + 1 + j) i = _
      rw [hold _ (by omega)]; exact h.table j hj i hi
  rw [hidx, hback, entry_eq]
  refine ⟨_, _, hstep, h₁.store_dir _ _, ?_, ?_⟩
  · refine ⟨⟨fun j hj => ?_, fun j hj i hi => ?_⟩, h.cr3, h.pgDir, Nat.succ_pos k, h.frames, hk⟩
    · dsimp only
      rw [Function.update_self]
      by_cases hjk : j = k
      · subst hjk; rw [Function.update_self]
      · rw [Function.update_of_ne (by omega)]; exact h₁.dir j (by omega)
    · show Function.update (Function.update m.mem (d + 1 + k) words) d _ (d + 1 + j) i = _
      rw [Function.update_of_ne (by omega)]
      by_cases hjk : j = k
      · subst hjk; rw [Function.update_self]; exact hwords' i hi
      · rw [hold _ (by omega)]; exact h.table j (by omega) i hi
  · intro i hi hki
    dsimp only
    rw [Function.update_self, Function.update_of_ne (by omega), hold d (by omega)]
    exact hu i hi (by omega)

theorem completeTables_window {max : Nat} (hmax : max ≤ 2 ^ 32) (rounds : Nat) {m : Machine} {k : Nat}
    (h : Window m d k) (hu : Unmapped m d k) (hr : max ≤ (k + rounds) * 0x400000) :
    ∃ m' n, completeTables rounds m ((d + 1 + k) * pageSize) (k * 0x400000) max = some (m', (d + 1 + n) * pageSize) ∧
      Window m' d n ∧ Unmapped m' d n ∧ max ≤ n * 0x400000 ∧ k ≤ n ∧ (n = k ∨ (n - 1) * 0x400000 < max) := by
  induction rounds generalizing m k with
  | zero => exact ⟨m, k, rfl, h, hu, hr, le_rfl, .inl rfl⟩
  | succ rounds ih =>
    unfold completeTables
    by_cases hlt : k * 0x400000 < max
    · have hd := h.frames
      have hk : k < 1024 := by omega
      have hr' : max ≤ (k + 1 + rounds) * 0x400000 := by rwa [Nat.add_right_comm]
      obtain ⟨m₁, m₂, he₁, he₂, h₂, hu₂⟩ := h.install hu hk
      have hfree : u32 ((d + 1 + k) * pageSize + pageSize) = (d + 1 + (k + 1)) * pageSize := by
        unfold u32 pageSize; omega
      have hphys : k * 0x400000 + numPte * pageSize = (k + 1) * 0x400000 := by
        unfold numPte pageSize; omega
      obtain ⟨m', n, he, h', hu', hle, hkn, hlast⟩ := ih h₂ hu₂ hr'
      refine ⟨m', n, ?_, h', hu', hle, by omega, .inr ?_⟩
      · rw [if_pos hlt, hfree, hphys]
        dsimp only
        rw [he₁, Option.bind_eq_bind, Option.bind_some, he₂, Option.bind_some]
        exact he
      · rcases hlast with rfl | hlast
        · exact hlt
        · exact hlast
    · rw [if_neg hlt]
      exact ⟨m, k, rfl, h, hu, not_lt.mp hlt, le_rfl, .inl rfl⟩

end

/-- The number of page tables for physical memory up to `maxPhysicalAddr`; the first is always there. -/
def tableCount (maxPhysicalAddr : Nat) : Nat := max 1 ((maxPhysicalAddr + 0x3FFFFF) / 0x400000)

/-- The directory is the first frame behind the kernel image. -/
def dirFrame (freeAddr : Nat) : Nat := (freeAddr + 4095) / 4096

/-- The free address that `pmm_initialize` gets. -/
def pagingEnd (freeAddr : Nat) (entries : Array MmapEntry) : Nat :=
  (dirFrame freeAddr + 1 + tableCount (maxUsableEnd entries.toList)) * pageSize

/-- A map of disjoint 32-bit regions. The kernel image starts at `KERNEL_START_ADDRESS` and leaves room for
three pages below 4 MiB, which is what the first page table maps; the boot loader put the map below it, and
the usable memory reaches above the boot allocations. -/
structure PagingOk (freeAddr entriesAddr : Nat) (entries : Array MmapEntry) : Prop where
  words : ∀ e ∈ entries, e.base < 2 ^ 32 ∧ e.length < 2 ^ 32 ∧ e.baseHigh = 0 ∧ e.lengthHigh = 0 ∧
    e.stop ≤ 2 ^ 32
  nonempty : ∀ e ∈ entries, 0 < e.length
  disjoint : entries.toList.Pairwise fun e e' => e.stop ≤ e'.base ∨ e'.stop ≤ e.base
  kernel : kernelStartAddress ≤ freeAddr
  room : freeAddr ≤ 0x400000 - 3 * pageSize
  map_le : mapEnd entriesAddr entries ≤ freeAddr
  reach : bootEnd (pagingEnd freeAddr entries) (maxUsableEnd entries.toList / pageSize) <
    maxUsableEnd entries.toList

/-- A later state of the machine: the kernel's directory and tables are as `pg_complete_paging` left them, and
the directory in `CR3` has the kernel half. -/
structure Booted (boot m : Machine) (free : Nat) : Prop where
  pgDir : m.pgDir = boot.pgDir
  frames : ∀ f, pageNumber boot.cr3 ≤ f → f < pageNumber free → m.mem f = boot.mem f
  half : ∀ i, vmmPdeIndex kernelBase ≤ i → i < numPde →
    m.mem (pageNumber m.cr3) i = boot.mem (pageNumber boot.cr3) i

/-- Every byte of every block that the allocator hands out is reachable at `KERNEL_BASE` and above in every
directory that `pg_copy_kernel_space` fills, and the kernel's directory has nothing below. -/
structure KernelWindow (entriesAddr : Nat) (boot : Machine) (free : Nat) (entries : Array MmapEntry) : Prop where
  no_wrap : ∀ s live, Pmm.Reachable free entriesAddr entries s live → ∀ p k, (p, k) ∈ live →
    ∀ a, pageAddress p ≤ a → a < pageAddress p + 2 ^ k * pageSize → kernelBase + a < 2 ^ 32
  filled : ∀ s live, Pmm.Reachable free entriesAddr entries s live → ∀ q j, (q, j) ∈ live →
    ∀ m, Booted boot m free → ∃ m', pgCopyKernelSpace m (castPhysicalToVirtual (pageAddress q)) = some m' ∧
      Booted boot { m' with cr3 := pageAddress q } free ∧
      ∀ p k, (p, k) ∈ live → ∀ a, pageAddress p ≤ a → a < pageAddress p + 2 ^ k * pageSize →
        walk m'.mem (pageAddress q) (kernelBase + a) = some ⟨a, true, false⟩
  low : ∀ vaddr < kernelBase, walk boot.mem boot.cr3 vaddr = none

section
variable {freeAddr entriesAddr : Nat} {entries : Array MmapEntry}

theorem PagingOk.sorted (h : PagingOk freeAddr entriesAddr entries) :
    getMaxPhysicalAddress (qsort mmapEntryCompare entries).toList = maxUsableEnd entries.toList := by
  show getMaxPhysicalAddress (Pmm.sortedEntries entries) = _
  rw [Pmm.getMaxPhysicalAddress_eq (Pmm.sortedEntries_disjoint h.nonempty h.disjoint),
    Pmm.maxUsableEnd_perm (Pmm.sortedEntries_perm entries)]

theorem PagingOk.maxUsableEnd_le (h : PagingOk freeAddr entriesAddr entries) :
    maxUsableEnd entries.toList ≤ 2 ^ 32 := by
  rcases Pmm.maxUsableEnd_eq_zero_or entries.toList with h0 | ⟨e, he, -, heq⟩
  · omega
  · rw [heq]; exact (h.words e (Array.mem_toList_iff.mp he)).2.2.2.2

theorem PagingOk.frames (h : PagingOk freeAddr entriesAddr entries) :
    0x100 ≤ dirFrame freeAddr ∧ dirFrame freeAddr + 3 ≤ 1024 := by
  have h₁ := h.kernel
  have h₂ := h.room
  unfold kernelStartAddress at h₁
  unfold pageSize at h₂
  unfold dirFrame
  omega

theorem PagingOk.bootPaging (h : PagingOk freeAddr entriesAddr entries) (mem : Nat → Nat → Nat) :
    ∃ boot, bootPaging mem freeAddr entries =
        some (boot, pagingEnd freeAddr entries, qsort mmapEntryCompare entries) ∧
      Window boot (dirFrame freeAddr) (tableCount (maxUsableEnd entries.toList)) ∧
      Unmapped boot (dirFrame freeAddr) (tableCount (maxUsableEnd entries.toList)) := by
  obtain ⟨hlo, hhi⟩ := h.frames
  have halign : alignPage freeAddr = dirFrame freeAddr * pageSize := by
    have := h.room
    simp only [alignPage, align, u32, dirFrame, pageSize] at this ⊢
    omega
  obtain ⟨hw, hfree, hrest⟩ := pgInitPaging_window mem hhi
  obtain ⟨m₁, hclear, hw', hu'⟩ := hw.clear hrest
  have hM := h.maxUsableEnd_le
  obtain ⟨boot, n, he, hwin, hun, hle, hpos, hlast⟩ := completeTables_window hM
    (maxUsableEnd entries.toList / (numPte * pageSize) + 1) hw' hu' (by unfold numPte pageSize; omega)
  have hn : n = tableCount (maxUsableEnd entries.toList) := by unfold tableCount; omega
  subst hn
  have hone : numPte * pageSize = 1 * 0x400000 := rfl
  have hcomplete : pgCompletePaging (pgInitPaging mem (dirFrame freeAddr * pageSize)).1
      (pgInitPaging mem (dirFrame freeAddr * pageSize)).2 (qsort mmapEntryCompare entries) =
        some (boot, pagingEnd freeAddr entries) := by
    unfold pgCompletePaging
    rw [h.sorted, hclear, hfree, hone]
    rw [hone] at he
    exact he
  refine ⟨boot, ?_, hwin, hun⟩
  unfold Paging.bootPaging
  rw [halign]
  dsimp only
  rw [hcomplete]
  rfl

/-! ### Blocks of the allocator -/

theorem PagingOk.bootOk (h : PagingOk freeAddr entriesAddr entries)
    (hM : maxUsableEnd entries.toList ≤ 0x40000000) :
    Pmm.BootOk (pagingEnd freeAddr entries) entriesAddr (qsort mmapEntryCompare entries) := by
  have hmem : ∀ e, e ∈ qsort mmapEntryCompare entries → e ∈ entries := fun e he =>
    Pmm.mem_sortedEntries.mp (Array.mem_toList_iff.mpr he)
  have hperm : (qsort mmapEntryCompare entries).toList.Perm entries.toList := Pmm.sortedEntries_perm entries
  have hsize : (qsort mmapEntryCompare entries).size = entries.size := by
    rw [← Array.length_toList, hperm.length_eq, Array.length_toList]
  have hmax : maxUsableEnd (qsort mmapEntryCompare entries).toList = maxUsableEnd entries.toList :=
    Pmm.maxUsableEnd_perm hperm
  have hframe := h.frames.1
  have hcount : 1 ≤ tableCount (maxUsableEnd entries.toList) := by unfold tableCount; omega
  refine ⟨fun e he => ?_, fun e he => h.nonempty e (hmem e he), ?_, fun e he hu => ?_, ?_, ?_, ?_⟩
  · obtain ⟨h₁, h₂, h₃, h₄, -⟩ := h.words e (hmem e he)
    exact ⟨h₁, h₂, h₃, h₄⟩
  · exact (hperm.pairwise_iff fun h => h.symm).mpr h.disjoint
  · have := Pmm.le_maxUsableEnd (Array.mem_toList_iff.mpr (hmem e he)) hu
    omega
  · unfold pagingEnd kernelStartAddress pageSize; omega
  · have hmap := h.map_le
    unfold mapEnd at hmap ⊢
    rw [hsize]
    unfold pagingEnd dirFrame pageSize
    omega
  · rw [hmax]; exact h.reach

/-- A page of a live block lies below the end of memory and above what paging allocated. -/
theorem PagingOk.live_page (h : PagingOk freeAddr entriesAddr entries)
    (hM : maxUsableEnd entries.toList ≤ 0x40000000) {s : Pmm.State} {live : Finset (Nat × Nat)}
    (hr : Pmm.Reachable (pagingEnd freeAddr entries) entriesAddr (qsort mmapEntryCompare entries) s live)
    {p k : Nat} (hp : (p, k) ∈ live) {x : Nat} (hx : p ≤ x) (hx' : x < p + 2 ^ k) :
    x < maxUsableEnd entries.toList / pageSize ∧ ¬ (0x100 ≤ x ∧ x * pageSize < pagingEnd freeAddr entries) := by
  have hmax : maxUsableEnd (qsort mmapEntryCompare entries).toList = maxUsableEnd entries.toList :=
    Pmm.maxUsableEnd_perm (Pmm.sortedEntries_perm entries)
  obtain ⟨hlen, areas, hinv⟩ := hr.inv (h.bootOk hM)
  have hblk : x ∈ blk p k := mem_blk.mpr ⟨hx, hx'⟩
  refine ⟨?_, fun hlock => ?_⟩
  · rw [← hmax, ← hlen]; exact hinv.cover.sub (.live p k) hp hblk
  · refine Set.disjoint_left.mp ((hinv.buddyInvariant hlen).live_reserved _ hp) hblk (.inl (.inr (.inr ⟨?_, ?_⟩)))
    · unfold kernelStartAddress pageSize; omega
    · have : pagingEnd freeAddr entries ≤ bootEnd (pagingEnd freeAddr entries)
          (maxUsableEnd (qsort mmapEntryCompare entries).toList / pageSize) := by unfold bootEnd; omega
      omega

/-- A byte of a live block. -/
theorem PagingOk.live_byte (h : PagingOk freeAddr entriesAddr entries)
    (hM : maxUsableEnd entries.toList ≤ 0x40000000) {s : Pmm.State} {live : Finset (Nat × Nat)}
    (hr : Pmm.Reachable (pagingEnd freeAddr entries) entriesAddr (qsort mmapEntryCompare entries) s live)
    {p k : Nat} (hp : (p, k) ∈ live) {a : Nat} (ha : pageAddress p ≤ a)
    (ha' : a < pageAddress p + 2 ^ k * pageSize) : a < maxUsableEnd entries.toList := by
  have hpos : 0 < 2 ^ k := by positivity
  have hp' := (h.live_page hM hr hp le_rfl (by omega)).1
  have haddr : pageAddress p = p * pageSize := by unfold pageAddress u32 pageSize at *; omega
  have hlt := (h.live_page hM hr hp (x := a / pageSize)
    ((Nat.le_div_iff_mul_le (by decide)).mpr (by omega))
    ((Nat.div_lt_iff_lt_mul (by decide)).mpr (by rw [Nat.add_mul]; omega))).1
  unfold pageSize at hlt
  omega

theorem Booted.maps {boot m : Machine} {d k : Nat} (hm : Booted boot m ((d + 1 + k) * pageSize))
    (hw : Window boot d k) (hk : k ≤ 256) : Maps m.mem (pageNumber m.cr3) d k := by
  have hd := hw.frames
  have hcr3 : pageNumber boot.cr3 = d := by rw [hw.cr3]; exact pageNumber_mul (by omega)
  have hend : pageNumber ((d + 1 + k) * pageSize) = d + 1 + k := pageNumber_mul (by omega)
  refine ⟨fun j hj => ?_, fun j hj i hi => ?_⟩
  · rw [hm.half _ (by show 768 ≤ _; omega) (by unfold numPde; omega), hcr3]
    exact hw.dir j hj
  · rw [hm.frames _ (by omega) (by omega)]
    exact hw.table j hj i hi

/-- `pg_copy_kernel_space` on a frame that paging did not allocate. -/
theorem Booted.pgCopyKernelSpace {boot m : Machine} {d k q : Nat} (hm : Booted boot m ((d + 1 + k) * pageSize))
    (hw : Window boot d k) (hk : k ≤ 256) (hq : q * pageSize < k * 0x400000)
    (hqk : ¬ (d ≤ q ∧ q < d + 1 + k)) :
    ∃ m', pgCopyKernelSpace m (castPhysicalToVirtual (q * pageSize)) = some m' ∧
      Booted boot { m' with cr3 := q * pageSize } ((d + 1 + k) * pageSize) ∧ Maps m'.mem q d k := by
  have hd := hw.frames
  have hpos := hw.pos
  have hq20 : q < 0x100000 := by unfold pageSize at hq; omega
  have hcr3 : pageNumber boot.cr3 = d := by rw [hw.cr3]; exact pageNumber_mul (by omega)
  have hend : pageNumber ((d + 1 + k) * pageSize) = d + 1 + k := pageNumber_mul (by omega)
  have hdk : d * pageSize < k * 0x400000 := by unfold pageSize; omega
  have hload := loadPage_eq (m := m) (f := d) ((hm.maps hw hk).walk rfl (by omega) (by omega) hdk) (by omega)
  have hwalk := (hm.maps hw hk).walk rfl (by omega) (by omega) hq
  rw [← hw.pgDir, ← hm.pgDir] at hload
  have hdir : m.mem d = boot.mem d := hm.frames d (by omega) (by omega)
  have hcopy : Paging.pgCopyKernelSpace m (castPhysicalToVirtual (q * pageSize)) =
      some { m with mem := Function.update m.mem q fun i =>
        if vmmPdeIndex kernelBase ≤ i ∧ i < numPde then m.mem d i else m.mem q i } := by
    unfold Paging.pgCopyKernelSpace
    rw [hload, loadPage_eq hwalk hq20]
    exact storePage_eq hwalk hq20 _
  have hold : ∀ f, f ≠ q → Function.update m.mem q (fun i =>
      if vmmPdeIndex kernelBase ≤ i ∧ i < numPde then m.mem d i else m.mem q i) f = m.mem f := fun f hf =>
    Function.update_of_ne hf _ _
  refine ⟨_, hcopy, ⟨hm.pgDir, fun f hf hf' => ?_, fun i hi hi' => ?_⟩, ⟨fun j hj => ?_, fun j hj i hi => ?_⟩⟩
  · dsimp only
    rw [hold f (by omega)]
    exact hm.frames f hf hf'
  · dsimp only
    rw [pageNumber_mul hq20, Function.update_self, if_pos ⟨hi, hi'⟩, hdir, hcr3]
  · dsimp only
    rw [Function.update_self, if_pos ⟨by show 768 ≤ _; omega, by unfold numPde; omega⟩, hdir]
    exact hw.dir j hj
  · dsimp only
    rw [hold _ (by omega), hm.frames _ (by omega) (by omega)]
    exact hw.table j hj i hi

/-- Above 1 GiB the directory gets entries below `KERNEL_BASE`. -/
theorem PagingOk.le_of_kernelWindow (h : PagingOk freeAddr entriesAddr entries) {mem : Nat → Nat → Nat}
    {boot : Machine} {free : Nat} {sorted : Array MmapEntry}
    (he : Paging.bootPaging mem freeAddr entries = some (boot, free, sorted))
    (hkw : KernelWindow entriesAddr boot free sorted) : maxUsableEnd entries.toList ≤ 0x40000000 := by
  obtain ⟨boot', hboot, hwin, hun⟩ := h.bootPaging mem
  obtain ⟨rfl, -⟩ := Prod.mk.inj (Option.some.inj (hboot.symm.trans he))
  have hd := h.frames
  by_contra hM
  -- the table for the memory from 1 GiB on is installed at address 0
  have hlt : 256 < tableCount (maxUsableEnd entries.toList) := by unfold tableCount; omega
  have hpde : boot'.mem (pageNumber boot'.cr3) (vmmPdeIndex 0) = (dirFrame freeAddr + 1 + 256) * pageSize + 3 := by
    rw [hwin.cr3, pageNumber_mul (by omega)]
    exact hwin.dir 256 hlt
  have hwalk := walk_eq hpde (by omega) (hwin.table 256 hlt 0 (by decide))
  rw [hkw.low 0 (by decide)] at hwalk
  exact absurd hwalk (by simp)

/-- The window is sound exactly up to 1 GiB of memory. -/
theorem kernelWindow_iff (h : PagingOk freeAddr entriesAddr entries) (mem : Nat → Nat → Nat) :
    (∃ boot free sorted, Paging.bootPaging mem freeAddr entries = some (boot, free, sorted) ∧
      KernelWindow entriesAddr boot free sorted) ↔ maxUsableEnd entries.toList ≤ 0x40000000 := by
  obtain ⟨boot, hboot, hwin, hun⟩ := h.bootPaging mem
  have hd := h.frames
  have hcr3 : pageNumber boot.cr3 = dirFrame freeAddr := by rw [hwin.cr3]; exact pageNumber_mul (by omega)
  constructor
  · rintro ⟨boot', free, sorted, he, hkw⟩
    exact h.le_of_kernelWindow he hkw
  · intro hM
    have hk : tableCount (maxUsableEnd entries.toList) ≤ 256 := by unfold tableCount; omega
    have hspan : maxUsableEnd entries.toList ≤ tableCount (maxUsableEnd entries.toList) * 0x400000 := by
      unfold tableCount; omega
    have hwrap : ∀ a < maxUsableEnd entries.toList, castPhysicalToVirtual a = kernelBase + a := by
      intro a ha
      simp only [castPhysicalToVirtual, u32, kernelBase]; omega
    refine ⟨boot, _, _, hboot, fun s live hr p k hp a ha ha' => ?_, fun s live hr q j hq m hm => ?_, fun v hv => ?_⟩
    · have := h.live_byte hM hr hp ha ha'
      unfold kernelBase; omega
    · obtain ⟨hq₁, hq₂⟩ := h.live_page hM hr hq le_rfl (Nat.lt_add_of_pos_right (by positivity))
      have hq' : q * pageSize < maxUsableEnd entries.toList := by
        unfold pageSize at hq₁ ⊢; omega
      have haddr : pageAddress q = q * pageSize := u32_of_lt (by omega)
      obtain ⟨m', he, hb, hmaps⟩ := hm.pgCopyKernelSpace hwin hk (q := q) (by omega)
        (by unfold pagingEnd pageSize at hq₂; omega)
      rw [haddr]
      refine ⟨m', he, hb, fun p k hp a ha ha' => ?_⟩
      have hlt := h.live_byte hM hr hp ha ha'
      rw [← hwrap a hlt]
      exact hmaps.walk (pageNumber_mul (by unfold pageSize at hq'; omega)) (by omega) (by omega) (by omega)
    · refine walk_eq_none ?_
      have hidx : vmmPdeIndex v < 768 := by unfold vmmPdeIndex; unfold kernelBase at hv; omega
      rw [hcr3]
      exact hun _ (by omega) (by omega)

theorem kernelWindow_boot : ∃ boot free sorted, Paging.bootPaging (fun _ _ => 0) 0x11F123 Pmm.bootMap =
    some (boot, free, sorted) ∧ KernelWindow 0xC0007E08 boot free sorted := by
  refine (kernelWindow_iff ⟨?_, ?_, ?_, ?_, ?_, ?_, ?_⟩ _).mpr ?_ <;> decide

/-- A machine with 2 GiB. -/
def bigMap : Array MmapEntry :=
  #[⟨0x100000, 0, 0x7FF00000, 0, 1⟩, ⟨0, 0, 0x9FC00, 0, 1⟩, ⟨0x9FC00, 0, 0x400, 0, 2⟩]

theorem not_kernelWindow_big : PagingOk 0x11F123 0xC0007E08 bigMap ∧
    ¬ ∃ boot free sorted, Paging.bootPaging (fun _ _ => 0) 0x11F123 bigMap = some (boot, free, sorted) ∧
      KernelWindow 0xC0007E08 boot free sorted := by
  have hok : PagingOk 0x11F123 0xC0007E08 bigMap := by
    refine ⟨?_, ?_, ?_, ?_, ?_, ?_, ?_⟩ <;> decide
  refine ⟨hok, ?_⟩
  rintro ⟨boot, free, sorted, he, hkw⟩
  exact absurd (hok.le_of_kernelWindow he hkw) (by decide)

end
end Airix.Paging
