import Airix.Base
import Airix.Qsort
import Airix.Lib.Ring

/-!
# The physical memory manager (`mm/pmm.c`)

A pointer to a `struct page` is its index in `pages`. A `struct page_block_node` lives in the first
bytes of a free block, so a node is the page number of that block, or the sentinel of an area; the
conversions between page numbers and node addresses are inverse to each other
(`castVirtualToPhysical_castPhysicalToVirtual`).
-/

namespace Airix.Pmm

def buddyMaxOrder : Nat := 11

def pageFlagUsed : Nat := 1
def pageFlagLock : Nat := 2

def kernelStackAddress : Nat := 0x10000
def kernelStartAddress : Nat := 0x100000

/-- `enum pmm_mm_entry_type`. -/
def entryTypeNormal : Nat := 1
def entryTypeAcpiRec : Nat := 3

/-- `struct mmap_entry`. -/
structure MmapEntry where
  base : Nat
  baseHigh : Nat
  length : Nat
  lengthHigh : Nat
  type : Nat
deriving DecidableEq, Repr

/-- `struct page`: two 4-bit fields in one byte. -/
structure Page where
  flags : Nat
  order : Nat
deriving DecidableEq, Repr

/-- A `struct page_block_node`: the sentinel of an area or the node inside a free block. -/
inductive Node
  | head (order : Nat)
  | page (p : Nat)
deriving DecidableEq, Repr

/-- The state behind `pages` and `free_blocks`. The page array has `pagesLen` entries at `pagesAddr`;
`freeBlocksAddr` is where `struct free_blocks` was placed, right behind it. -/
structure State where
  pages : Nat → Page
  pagesLen : Nat
  pagesAddr : Nat
  freeBlocksAddr : Nat
  bootFree : Nat
  totalPages : Nat
  numPages : Nat
  numBlocks : Nat → Nat
  links : Links Node

/-- `order_pages`. -/
def orderPages (order : Nat) : Nat :=
  [1, 2, 4, 8, 16, 32, 64, 128, 256, 512, 1024].getD order 0

def setPage (s : State) (p : Nat) (x : Page) : State :=
  { s with pages := Function.update s.pages p x }

/-! ### Blocks and areas -/

def splitBlockFromArea (s : State) (block order : Nat) : State :=
  { s with
    links := s.links.unlink (.page block)
    numBlocks := Function.update s.numBlocks order (s.numBlocks order - 1) }

def insertBlockIntoArea (s : State) (block order : Nat) : State :=
  { s with
    links := s.links.insertFront (.head order) (.page block)
    numBlocks := Function.update s.numBlocks order (s.numBlocks order + 1)
    pages := Function.update s.pages block ⟨0, order⟩ }

def getBuddy (s : State) (block order : Nat) : Option Nat :=
  if order + 1 ≥ buddyMaxOrder then none
  else
    let buddy : Int :=
      if block % orderPages (order + 1) = 0 then block + orderPages order
      else block - orderPages order
    if buddy < 0 ∨ buddy ≥ s.totalPages then none else some buddy.toNat

def mergeBuddy (buddy1 buddy2 : Nat) : Nat := if buddy1 < buddy2 then buddy1 else buddy2

def splitBuddy (block order : Nat) : Nat := block + orderPages order

/-- `none` in the first component is `NULL`: no block in this area. -/
def allocBlockFromArea (s : State) (freeOrder : Nat) : Option Nat × State :=
  match s.links.next (.head freeOrder) with
  | some (.page p) => (some p, splitBlockFromArea s p freeOrder)
  | _ => (none, s)

/-- The `while` loop of `alloc_block`. -/
def allocBlockSplit (s : State) (block order : Nat) : Nat → State
  | 0 => s
  | freeOrder + 1 =>
    if freeOrder + 1 > order then
      allocBlockSplit (insertBlockIntoArea s (splitBuddy block freeOrder) freeOrder) block order freeOrder
    else s

/-- `none` is the fault of using the `NULL` block of an empty area. -/
def allocBlock (s : State) (freeOrder order : Nat) : Option (Nat × State) :=
  match allocBlockFromArea s freeOrder with
  | (none, _) => none
  | (some block, s) =>
    let s := allocBlockSplit s block order freeOrder
    some (block, setPage s block ⟨pageFlagUsed, order⟩)

/-- The search loop of `pmm_alloc_pages` from area `check` on, with `rounds` areas left. -/
def allocSearch (s : State) (order check : Nat) : (rounds : Nat) → Option (Nat × State)
  | 0 => some (0, s)
  | rounds + 1 =>
    if s.numBlocks check > 0 then
      match allocBlock s check order with
      | none => none
      | some (pageNum, s) => some (pageNum, { s with numPages := s.numPages - orderPages order })
    else allocSearch s order (check + 1) rounds

def pmmAllocPages (s : State) (order : Nat) : Option (Nat × State) :=
  allocSearch s order order (buddyMaxOrder - order)

/-- The `for` loop of `pmm_free_pages` with the insertion after it, with `rounds` orders left. -/
def freeMerge (s : State) (block order : Nat) : (rounds : Nat) → State
  | 0 => if order = buddyMaxOrder then insertBlockIntoArea s block (order - 1) else s
  | rounds + 1 =>
    match getBuddy s block order with
    | some buddy =>
      if (s.pages buddy).flags = 0 ∧ (s.pages buddy).order = order then
        freeMerge (splitBlockFromArea s buddy order) (mergeBuddy block buddy) (order + 1) rounds
      else insertBlockIntoArea s block order
    | none => insertBlockIntoArea s block order

/-- The statements of `pmm_free_pages` before its loop. -/
def beginFree (s : State) (pageNum order : Nat) : State :=
  { setPage s pageNum { s.pages pageNum with flags := 0 } with
    numPages := s.numPages + orderPages order }

def pmmFreePages (s : State) (pageNum order : Nat) : State :=
  if pageNum = 0 then s
  else freeMerge (beginFree s pageNum order) pageNum order (buddyMaxOrder - order)

/-! ### Initialisation -/

def mmapEntryCompare (l r : MmapEntry) : Int :=
  if l.base < r.base then -1 else if l.base = r.base then 0 else 1

/-- The types whose memory the kernel may use. -/
def MmapEntry.usable (e : MmapEntry) : Bool := e.type = entryTypeNormal ∨ e.type = entryTypeAcpiRec

/-- The scan from the last entry back to the first usable one; the sum is a `uint64_t`. -/
def getMaxPhysicalAddress (entries : List MmapEntry) : Nat :=
  match entries.reverse.find? MmapEntry.usable with
  | some e => e.base + e.length
  | none => 0

def calculateTotalPages (entries : List MmapEntry) : Nat :=
  u32 (getMaxPhysicalAddress entries / pageSize)

/-- `sizeof(struct free_blocks)`: two counters and eleven areas of three words. -/
def sizeofFreeBlocks : Nat := 140

/-- `sizeof(struct mmap_entry)`. -/
def sizeofMmapEntry : Nat := 24

/-- `boot_alloc`: the new free address. -/
def bootAlloc (free size : Nat) : Nat := u32 (free + alignSize size)

def initNodes : Links Node :=
  (List.range buddyMaxOrder).foldl (fun links i => links.init (.head i)) ⟨fun _ => none, fun _ => none⟩

/-- `init_boot_allocator`, `init_pages_data` and `init_free_blocks`. -/
def initData (freeAddr numPages : Nat) : State :=
  let pagesAddr := alignSize (castPhysicalToVirtual freeAddr)
  let freeBlocksAddr := bootAlloc pagesAddr numPages
  { pages := fun _ => ⟨pageFlagUsed, 0⟩
    pagesLen := numPages
    pagesAddr := pagesAddr
    freeBlocksAddr := freeBlocksAddr
    bootFree := bootAlloc freeBlocksAddr sizeofFreeBlocks
    totalPages := numPages
    numPages := 0
    numBlocks := fun _ => 0
    links := initNodes }

/-- `pages[i].flags |= PAGE_FLAG_LOCK`. The byte after the array may be the low byte of
`free_blocks->total_pages`, and the statement does not check the index. -/
def lockPage (s : State) (i : Nat) : State :=
  let s := setPage s i { s.pages i with flags := (s.pages i).flags ||| pageFlagLock }
  if s.pagesLen ≤ i ∧ u32 (s.pagesAddr + i) = s.freeBlocksAddr then
    { s with totalPages := s.totalPages ||| pageFlagLock }
  else s

/-- The loop `for (i = lo; i < hi; ++i)` of the three lock functions. -/
def lockPages (s : State) (lo hi : Nat) : State := (List.range' lo (hi - lo)).foldl lockPage s

def lockBootPages (s : State) (bootEnd : Nat) : State :=
  lockPages s 0 (pageNumber (alignPage (castVirtualToPhysical bootEnd)))

def lockKernelStack (s : State) : State := lockPages s 0 (pageNumber kernelStackAddress)

def lockKernelPages (s : State) : State :=
  lockPages s (pageNumber kernelStartAddress)
    (pageNumber (alignPage (castVirtualToPhysical s.bootFree)))

/-- The inner loop of `init_free_pages`; `start` and `end` are `uint64_t`. -/
def initFreeRegion : (rounds : Nat) → State → (start «end» : Nat) → State
  | 0, s, _, _ => s
  | rounds + 1, s, start, «end» =>
    if start + pageSize ≤ «end» then
      let pageNum := pageNumber start
      let s := if (s.pages pageNum).flags &&& pageFlagLock = 0 then pmmFreePages s pageNum 0 else s
      initFreeRegion rounds s (start + pageSize) «end»
    else s

def initFreeEntry (s : State) (e : MmapEntry) : State :=
  if e.usable then
    initFreeRegion ((e.base + e.length) / pageSize) s (alignPage e.base) (e.base + e.length)
  else s

def initFreePages (s : State) (entries : List MmapEntry) : State := entries.foldl initFreeEntry s

/-- `pmm_initialize`. `entriesAddr` is the address of the map, which `lock_boot_pages` locks. -/
def pmmInitialize (freeAddr entriesAddr : Nat) (entries : Array MmapEntry) : State :=
  let entries := (qsort mmapEntryCompare entries).toList
  let s := initData freeAddr (calculateTotalPages entries)
  let s := lockBootPages s (u32 (entriesAddr + sizeofMmapEntry * entries.length))
  let s := lockKernelStack s
  let s := lockKernelPages s
  initFreePages s entries

end Airix.Pmm
