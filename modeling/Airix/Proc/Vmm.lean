import Airix.Lib.Exec
import Airix.Slab.Runs

/-!
# Virtual memory (`mm/vmm.c`, `pg_copy_kernel_space` of `mm/paging.c`)

The kernel reaches page frames through its window, where the address `a` is the physical address
`a - KERNEL_BASE` (`Slab.frame`). `mem` are the words of each frame.
-/

namespace Airix.Proc

inductive ProcState
  | zero
  | running
  | io
  | dead
deriving DecidableEq, Repr

/-- `struct process`, as far as `process.c`, `elf.c` and `ktask.c` use it. -/
structure Process where
  pid : Int
  state : ProcState
  pageDir : Nat
  context : Nat
  entry : Nat
  kernelStack : Nat
  userStack : Nat
  memPages : Nat
  status : Int
  parent : Nat
deriving DecidableEq, Repr

/-- A process is named by its object. `sched` are the links of the scheduler's list, `none` is `list_head`. -/
structure State where
  slab : Slab.State
  mem : Nat → Nat → Nat
  pgDir : Nat
  procCache : Nat
  procs : Nat → Option Process
  pidMap : Nat → Bool
  pidGen : Nat
  sched : Links (Option Nat)

inductive Panic
  | slab (panic : Slab.Panic)
  /-- "Remap virtual address at %p." -/
  | remap (vaddr : Nat)
  /-- "Free proc(%d) leaks %u memory pages" -/
  | leaks (pid : Int) (memPages : Nat)
  /-- "Cloned proc mem pages(%u) != proc mem pages(%u)" -/
  | clonePages (clone proc : Nat)
  /-- The panics of `ktask_initialize`. -/
  | kernelTask
  /-- An access through a pointer to no object. -/
  | fault
  /-- A loop that goes on for more than 2^20 pages. -/
  | endless

/-- `fails` says which of the next calls of `pmm_alloc_pages` find no memory. `freed` are the pages that went to
`pmm_free_pages`, each with the state before the call; nothing reads it. -/
structure Machine where
  state : State
  fails : List Bool
  freed : List (State × Nat)

abbrev M := StateT Machine (Except Panic)

def getState : M State := do
  let m ← get
  return m.state

def update (f : State → State) : M Unit := modify fun m => { m with state := f m.state }

def getProc (proc : Nat) : M Process := do
  let s ← getState
  match s.procs proc with
  | some p => return p
  | none => throw .fault

def modifyProc (proc : Nat) (f : Process → Process) : M Unit :=
  update fun s => { s with procs := Function.update s.procs proc ((s.procs proc).map f) }

/-! ### Page frames -/

def pmmAllocPageAddress : M Nat := do
  let m ← get
  if m.fails.headD false then
    set { m with fails := m.fails.tail }
    return 0
  else
    match Pmm.pmmAllocPages m.state.slab.pmm 0 with
    | none => throw .fault
    | some (pageNum, pmm) =>
      set { m with state := { m.state with slab := { m.state.slab with pmm := pmm } }, fails := m.fails.tail }
      return pageAddress pageNum

def pmmFreePageAddress (start : Nat) : M Unit :=
  modify fun m =>
    let slab := { m.state.slab with pmm := Pmm.pmmFreePages m.state.slab.pmm (pageNumber start) 0 }
    { m with state := { m.state with slab := slab }, freed := (m.state, pageNumber start) :: m.freed }

def load (ptr index : Nat) : M Nat := do
  let s ← getState
  return s.mem (Slab.frame ptr) index

/-- All words of a page. -/
def storePage (ptr : Nat) (words : Nat → Nat) : M Unit :=
  update fun s => { s with mem := Function.update s.mem (Slab.frame ptr) words }

def store (ptr index word : Nat) : M Unit :=
  update fun s =>
    let words := Function.update (s.mem (Slab.frame ptr)) index word
    { s with mem := Function.update s.mem (Slab.frame ptr) words }

def castP2vOrNull (paddr : Nat) : Nat := if paddr = 0 then 0 else castPhysicalToVirtual paddr

/-! ### Entries -/

def numPde : Nat := 1024
def numPte : Nat := 1024

def vmmPresent : Nat := 1
def vmmWritable : Nat := 2
def vmmUser : Nat := 4

/-- `VMM_PDE_INDEX`. -/
def vmmPdeIndex (vaddr : Nat) : Nat := vaddr / 2 ^ 22 % 1024

/-- `VMM_PTE_INDEX`. -/
def vmmPteIndex (vaddr : Nat) : Nat := vaddr / 2 ^ 12 % 1024

/-- `entry & 0xFFFFF000`. -/
def entryAddress (entry : Nat) : Nat := entry / pageSize * pageSize

/-- `entry & 0xFFF`. -/
def entryFlag (entry : Nat) : Nat := entry % pageSize

/-- `(flag & 0xFFF) & ~VMM_PRESENT`. -/
def unmappedEntry (flag : Nat) : Nat := entryFlag flag / 2 * 2

def getPageTable (pageDir vaddr : Nat) : M Nat := do
  let entry ← load pageDir (vmmPdeIndex vaddr)
  return castP2vOrNull (entryAddress entry)

/-! ### Directories and tables -/

/-- The common body of `vmm_alloc_vaddr_space` and `vmm_alloc_page_table`. -/
def allocEntries : M Nat := do
  let paddr ← pmmAllocPageAddress
  let ptr := castP2vOrNull paddr
  if ptr = 0 then
    return 0
  else
    storePage ptr fun _ => vmmWritable
    return ptr

def vmmAllocVaddrSpace : M Nat := allocEntries

def vmmFreeVaddrSpace (pageDir : Nat) : M Unit := pmmFreePageAddress (castVirtualToPhysical pageDir)

def vmmAllocPageTable : M Nat := allocEntries

def vmmFreePageTable (pageTab : Nat) : M Unit := pmmFreePageAddress (castVirtualToPhysical pageTab)

def vmmMapPageTableIndex (pageDir index pageTab flag : Nat) : M Unit :=
  store pageDir index (castVirtualToPhysical pageTab ||| flag ||| vmmPresent)

def vmmUnmapPageTableIndex (pageDir index flag : Nat) : M Nat := do
  let entry ← load pageDir index
  store pageDir index (unmappedEntry flag)
  return castP2vOrNull (entryAddress entry)

/-- The table and the flags of the entry. -/
def vmmGetPageTableIndex (pageDir index : Nat) : M (Nat × Nat) := do
  let entry ← load pageDir index
  return (castP2vOrNull (entryAddress entry), entryFlag entry)

def vmmMapPageIndex (pageTab index paddr flag : Nat) : M Unit :=
  store pageTab index (paddr ||| flag ||| vmmPresent)

def vmmUnmapPageIndex (pageTab index flag : Nat) : M Nat := do
  let entry ← load pageTab index
  store pageTab index (unmappedEntry flag)
  return entryAddress entry

/-- The page and the flags of the entry. -/
def vmmGetPageIndex (pageTab index : Nat) : M (Nat × Nat) := do
  let entry ← load pageTab index
  return (entryAddress entry, entryFlag entry)

def vmmMapPageTable (pageDir vaddr pageTab flag : Nat) : M Unit :=
  vmmMapPageTableIndex pageDir (vmmPdeIndex vaddr) pageTab flag

def vmmMapPage (pageTab vaddr paddr flag : Nat) : M Unit :=
  vmmMapPageIndex pageTab (vmmPteIndex vaddr) paddr flag

/-- The end of `vmm_map`, with the table and the number of pages taken for it. -/
def vmmMapIn (pageTab vaddr paddr flag : Nat) (page : Int) : M Int := do
  let entry ← load pageTab (vmmPteIndex vaddr)
  if entry % 2 = vmmPresent then
    throw (.remap vaddr)
  else
    vmmMapPage pageTab vaddr paddr flag
    return page

def vmmMap (pageDir vaddr paddr flag : Nat) : M Int := do
  let pageTab ← getPageTable pageDir vaddr
  if pageTab = 0 then
    let pageTab ← vmmAllocPageTable
    if pageTab = 0 then
      return -1
    else
      vmmMapPageTable pageDir vaddr pageTab flag
      vmmMapIn pageTab vaddr paddr flag 1
  else
    vmmMapIn pageTab vaddr paddr flag 0

/-- The loop of `pg_copy_kernel_space` over the entries from that of `KERNEL_BASE` on. -/
def pgCopyKernelSpace (vaddrSpace : Nat) : M Unit := do
  let s ← getState
  let kernel := s.mem (Slab.frame s.pgDir)
  storePage vaddrSpace fun i =>
    if vmmPdeIndex kernelBase ≤ i ∧ i < numPde then kernel i else s.mem (Slab.frame vaddrSpace) i

end Airix.Proc
