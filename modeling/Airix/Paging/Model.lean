import Airix.Proc.Vmm

/-!
# Kernel paging (`mm/paging.c`)

`mem` are the words of each page frame. Once paging is on, the kernel reaches a frame through the page
walk of the directory in `CR3` only, so a load or store may fault (`none`). All entries of a page
directory or page table lie on one page; they are read and written page by page.
-/

namespace Airix.Paging

open Proc (vmmPresent vmmWritable vmmUser vmmPdeIndex vmmPteIndex entryAddress numPde numPte)
open Pmm (MmapEntry mmapEntryCompare getMaxPhysicalAddress)

structure Machine where
  mem : Nat → Nat → Nat
  cr3 : Nat
  pgDir : Nat

/-- What the page walk yields at a present address. -/
structure Mapping where
  paddr : Nat
  writable : Bool
  user : Bool
deriving DecidableEq, Repr

def hasFlag (entry flag : Nat) : Bool := entry &&& flag ≠ 0

/-- The two-level page walk from the directory at `dir`. -/
def walk (mem : Nat → Nat → Nat) (dir vaddr : Nat) : Option Mapping :=
  let pde := mem (pageNumber dir) (vmmPdeIndex vaddr)
  let pte := mem (pageNumber (entryAddress pde)) (vmmPteIndex vaddr)
  if hasFlag pde vmmPresent ∧ hasFlag pte vmmPresent then
    some { paddr := entryAddress pte + vaddr % pageSize
           writable := hasFlag pde vmmWritable ∧ hasFlag pte vmmWritable
           user := hasFlag pde vmmUser ∧ hasFlag pte vmmUser }
  else none

def loadPage (m : Machine) (ptr : Nat) : Option (Nat → Nat) := do
  let mapping ← walk m.mem m.cr3 ptr
  return m.mem (pageNumber mapping.paddr)

def storePage (m : Machine) (ptr : Nat) (words : Nat → Nat) : Option Machine := do
  let mapping ← walk m.mem m.cr3 ptr
  if mapping.writable then
    return { m with mem := Function.update m.mem (pageNumber mapping.paddr) words }
  else failure

def store (m : Machine) (ptr index word : Nat) : Option Machine := do
  let words ← loadPage m ptr
  storePage m ptr (Function.update words index word)

/-- Runs in physical addresses until `set_cr3`; also returns the next free address. -/
def pgInitPaging (mem : Nat → Nat → Nat) (pageAlignedFree : Nat) : Machine × Nat :=
  let pageDir := pageAlignedFree
  let pageTab := u32 (pageAlignedFree + pageSize)
  let entry := pageTab ||| vmmWritable ||| vmmPresent
  let dir := Function.update (Function.update (fun _ => vmmWritable) 0 entry) (vmmPdeIndex kernelBase) entry
  let tab := fun i => i * 0x1000 ||| vmmWritable ||| vmmPresent
  ({ mem := Function.update (Function.update mem (pageNumber pageDir) dir) (pageNumber pageTab) tab
     cr3 := pageDir
     pgDir := castPhysicalToVirtual pageDir },
   u32 (pageTab + pageSize))

/-- The `while` loop of `pg_complete_paging`; the addresses are `uint64_t`. -/
def completeTables : (rounds : Nat) → Machine → (free physicalAddr maxPhysicalAddr : Nat) →
    Option (Machine × Nat)
  | 0, m, free, _, _ => some (m, free)
  | rounds + 1, m, free, physicalAddr, maxPhysicalAddr =>
    if physicalAddr < maxPhysicalAddr then do
      let virtualAddr := u32 (u32 physicalAddr + kernelBase)
      let pgTab := castPhysicalToVirtual free
      let m ← storePage m pgTab fun i => u32 (physicalAddr + i * pageSize) ||| vmmWritable ||| vmmPresent
      let m ← store m m.pgDir (vmmPdeIndex virtualAddr)
        (castVirtualToPhysical pgTab ||| vmmWritable ||| vmmPresent)
      completeTables rounds m (u32 (free + pageSize)) (physicalAddr + numPte * pageSize) maxPhysicalAddr
    else some (m, free)

/-- `entries` is the map as `pmm_max_physical_address` leaves it, sorted. -/
def pgCompletePaging (m : Machine) (pageAlignedFree : Nat) (entries : Array MmapEntry) : Option (Machine × Nat) := do
  let maxPhysicalAddr := getMaxPhysicalAddress entries.toList
  let m ← store m m.pgDir 0 vmmWritable
  completeTables (maxPhysicalAddr / (numPte * pageSize) + 1) m pageAlignedFree (numPte * pageSize) maxPhysicalAddr

def pgCopyKernelSpace (m : Machine) (vaddrSpace : Nat) : Option Machine := do
  let kernel ← loadPage m m.pgDir
  let space ← loadPage m vaddrSpace
  storePage m vaddrSpace fun i => if vmmPdeIndex kernelBase ≤ i ∧ i < numPde then kernel i else space i

/-- The paging part of `init_paging` and `kernel_entry`: the machine, the next free address and the map,
which is sorted from then on. -/
def bootPaging (mem : Nat → Nat → Nat) (freeAddr : Nat) (entries : Array MmapEntry) :
    Option (Machine × Nat × Array MmapEntry) := do
  let (m, free) := pgInitPaging mem (alignPage freeAddr)
  let entries := qsort mmapEntryCompare entries
  let (m, free) ← pgCompletePaging m free entries
  return (m, free, entries)

end Airix.Paging
