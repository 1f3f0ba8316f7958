import Airix.Proc.Vmm

/-!
# Loading programs (`kernel/elf.c`) and processes (`kernel/process.c`)

An ELF image is a function from offsets to bytes: the loader reads the header whatever `size` is.
-/

namespace Airix.Proc

/-! ### `elf.c` -/

def u8At (elf : Nat → UInt8) (off : Nat) : Nat := (elf off).toNat
def u16At (elf : Nat → UInt8) (off : Nat) : Nat := u8At elf off + 2 ^ 8 * u8At elf (off + 1)
def u32At (elf : Nat → UInt8) (off : Nat) : Nat := u16At elf off + 2 ^ 16 * u16At elf (off + 2)

structure ProgHeader where
  type : Nat
  offset : Nat
  vaddr : Nat
  filesz : Nat
  memsz : Nat
deriving DecidableEq, Repr

def progHeaderAt (elf : Nat → UInt8) (off : Nat) : ProgHeader :=
  ⟨u32At elf off, u32At elf (off + 4), u32At elf (off + 8), u32At elf (off + 16), u32At elf (off + 20)⟩

def elfPtLoad : Nat := 1
def elfPtPhdr : Nat := 6
def elfEtExec : Nat := 2

/-- The word `j` of a page after `count` bytes of `src` were copied to its offset `off`. -/
def copyBytes (old : Nat → Nat) (off count : Nat) (src : Nat → UInt8) (j : Nat) : Nat :=
  let byte := fun b =>
    if off ≤ 4 * j + b ∧ 4 * j + b < off + count then (src (4 * j + b - off)).toNat else old j / 2 ^ (8 * b) % 2 ^ 8
  byte 0 + 2 ^ 8 * byte 1 + 2 ^ 16 * byte 2 + 2 ^ 24 * byte 3

/-- `memcpy` of file content into the page `paddr`. -/
def memcpyElf (paddr off count : Nat) (src : Nat → UInt8) : M Unit := do
  let s ← getState
  let ptr := castPhysicalToVirtual paddr
  storePage ptr (copyBytes (s.mem (Slab.frame ptr)) off count src)

/-- The loop of `load_from_prog_header`. -/
def loadPages (elf : Nat → UInt8) (proc vaddrEnd : Nat) : Nat → Nat → Nat → Nat → Nat → M Bool
  | 0, _, _, _, _ => throw .endless
  | fuel + 1, vaddr, pageOffset, fileOffset, fileSize => do
    if vaddr < vaddrEnd then
      let szInPage := pageSize - pageOffset
      let paddr ← pmmAllocPageAddress
      if paddr = 0 then
        return false
      else
        storePage (castPhysicalToVirtual paddr) fun _ => 0
        let p ← getProc proc
        let extraPages ← vmmMap p.pageDir vaddr paddr (vmmWritable ||| vmmUser)
        if extraPages < 0 then
          pmmFreePageAddress paddr
          return false
        else
          modifyProc proc fun p => { p with memPages := u32 (p.memPages + (extraPages + 1).toNat) }
          -- with nothing left of the file `copySize` is 0
          let copySize := min fileSize szInPage
          memcpyElf paddr pageOffset copySize fun i => elf (fileOffset + i)
          loadPages elf proc vaddrEnd fuel (u32 (vaddr + pageSize)) 0 (u32 (fileOffset + copySize))
            (fileSize - copySize)
    else
      return true

def loadFromProgHeader (elf : Nat → UInt8) (size : Nat) (ph : ProgHeader) (proc : Nat) : M Bool := do
  let pageOffset := ph.vaddr % pageSize
  let vaddrEnd := u32 (ph.vaddr + ph.memsz)
  if ph.memsz < ph.filesz then
    return false
  else if ph.offset ≥ size ∨ u32 (ph.offset + ph.filesz) > size then
    return false
  else if ph.memsz = 0 then
    return true
  else
    loadPages elf proc vaddrEnd (2 ^ 20 + 1) (ph.vaddr - pageOffset) pageOffset ph.offset ph.filesz

def loadFromPht (elf : Nat → UInt8) (size entrySize proc : Nat) : Nat → Nat → M Bool
  | 0, _ => return true
  | num + 1, pht => do
    let ph := progHeaderAt elf pht
    if ph.type = elfPtLoad ∨ ph.type = elfPtPhdr then
      let ok ← loadFromProgHeader elf size ph proc
      if ok then
        loadFromPht elf size entrySize proc num (pht + entrySize)
      else
        return false
    else
      loadFromPht elf size entrySize proc num (pht + entrySize)

def elfLoadProgram (elf : Nat → UInt8) (size proc : Nat) : M Bool := do
  let phoff := u32At elf 28
  let phentsize := u16At elf 42
  let phnum := u16At elf 44
  if u8At elf 0 ≠ 0x7F ∨ u8At elf 1 ≠ 0x45 ∨ u8At elf 2 ≠ 0x4C ∨ u8At elf 3 ≠ 0x46 then
    return false
  else if u16At elf 16 ≠ elfEtExec then
    return false
  else if phoff = 0 ∨ phoff ≥ size then
    return false
  else if u32 (phoff + phentsize * phnum) > size then
    return false
  else
    let ok ← loadFromPht elf size phentsize proc phnum phoff
    if ok then
      modifyProc proc fun p => { p with entry := u32At elf 24 }
      return true
    else
      return false

/-! ### `process.c` -/

def procMaxNum : Nat := 1024

/-- `PROC_KERNEL_STACK`. -/
def procKernelStack : Nat := kernelBase - 16 * pageSize

/-- `PROC_USER_STACK`. -/
def procUserStack : Nat := kernelBase - 1024 * pageSize

/-- The loop of `alloc_pid`. -/
def allocPidFrom : Nat → M Int
  | 0 => return -1
  | n + 1 => do
    let s ← getState
    let pid := s.pidGen
    update fun s => { s with pidGen := (s.pidGen + 1) % procMaxNum }
    if s.pidMap pid then
      allocPidFrom n
    else
      update fun s => { s with pidMap := Function.update s.pidMap pid true }
      return pid

def allocPid : M Int := allocPidFrom procMaxNum

def freePid (pid : Int) : M Unit :=
  update fun s => { s with pidMap := Function.update s.pidMap pid.toNat false }

def slabAllocProc : M Nat := do
  let s ← getState
  match Slab.slabAlloc s.slab (.created s.procCache) with
  | .error e => throw (.slab e)
  | .ok (proc, slab) =>
    update fun s => { s with slab := slab }
    return proc

def slabFreeProc (proc : Nat) : M Unit := do
  let s ← getState
  match Slab.slabFree s.slab (.created s.procCache) proc with
  | .error e => throw (.slab e)
  | .ok slab => update fun s => { s with slab := slab, procs := Function.update s.procs proc none }

/-- The inner loop of `proc_free` for one entry of a page table. -/
def freePte (proc pageTab pte : Nat) : M Unit := do
  let paddr ← vmmUnmapPageIndex pageTab pte 0
  if paddr = 0 then
    return ()
  else
    pmmFreePageAddress paddr
    modifyProc proc fun p => { p with memPages := u32 (p.memPages + (2 ^ 32 - 1)) }

/-- The outer loop of `proc_free` for one entry of the page directory. -/
def freePde (proc pageDir pde : Nat) : M Unit := do
  let pageTab ← vmmUnmapPageTableIndex pageDir pde 0
  if pageTab = 0 then
    return ()
  else
    (List.range numPte).forM (freePte proc pageTab)
    vmmFreePageTable pageTab
    modifyProc proc fun p => { p with memPages := u32 (p.memPages + (2 ^ 32 - 1)) }

def userPdes : Nat := kernelBase / (numPte * pageSize)

/-- The first part of `proc_free`: the virtual address space. -/
def freeSpace (proc pageDir : Nat) : M Unit :=
  if pageDir = 0 then
    pure ()
  else do
    (List.range userPdes).forM (freePde proc pageDir)
    vmmFreeVaddrSpace pageDir
    modifyProc proc fun p => { p with memPages := u32 (p.memPages + (2 ^ 32 - 1)) }

/-- The second part of `proc_free`. -/
def releasePid (pid : Int) : M Unit := if pid = -1 then pure () else freePid pid

def procFree (proc : Nat) : M Unit := do
  let p ← getProc proc
  freeSpace proc p.pageDir
  let p ← getProc proc
  releasePid p.pid
  if p.memPages ≠ 0 then
    throw (.leaks p.pid p.memPages)
  else
    slabFreeProc proc

def procAlloc : M Nat := do
  let proc ← slabAllocProc
  if proc = 0 then
    return 0
  else
    let pid ← allocPid
    update fun s =>
      { s with procs := Function.update s.procs proc (some ⟨pid, .zero, 0, 0, 0, 0, 0, 0, 0, 0⟩) }
    if pid = -1 then
      procFree proc
      return 0
    else
      return proc

/-- One stack of `alloc_proc_stacks`: a page mapped below `top`. -/
def allocProcStack (proc top flag : Nat) : M Bool := do
  let stack ← pmmAllocPageAddress
  if stack = 0 then
    return false
  else
    let p ← getProc proc
    let extraPages ← vmmMap p.pageDir (top - pageSize) stack flag
    if extraPages < 0 then
      pmmFreePageAddress stack
      return false
    else
      modifyProc proc fun p => { p with memPages := u32 (p.memPages + (extraPages + 1).toNat) }
      return true

def allocProcStacks (proc : Nat) : M Bool := do
  let ok ← allocProcStack proc procKernelStack vmmWritable
  if ok then
    let ok ← allocProcStack proc procUserStack (vmmWritable ||| vmmUser)
    if ok then
      modifyProc proc fun p => { p with kernelStack := procKernelStack, userStack := procUserStack }
      return true
    else
      return false
  else
    return false

/-- The page directory of a new process; false when there is no page for it. -/
def initPageDir (proc : Nat) : M Bool := do
  let pageDir ← vmmAllocVaddrSpace
  modifyProc proc fun p => { p with pageDir := pageDir }
  if pageDir = 0 then
    return false
  else
    modifyProc proc fun p => { p with memPages := u32 (p.memPages + 1) }
    return true

def initProcFromElf (proc : Nat) (elf : Nat → UInt8) (size : Nat) : M Bool := do
  let ok ← initPageDir proc
  if ok then
    let ok ← elfLoadProgram elf size proc
    if ok then
      let ok ← allocProcStacks proc
      if ok then
        let p ← getProc proc
        pgCopyKernelSpace p.pageDir
        return true
      else
        return false
    else
      return false
  else
    return false

/-- `sched_add`. -/
def schedAdd (proc : Nat) : M Unit :=
  update fun s =>
    let first := s.sched.next none
    let l := (s.sched.setNext (some proc) first).setPrev (some proc) (first.bind s.sched.prev)
    let l := match first with
      | some first => l.setPrev first (some (some proc))
      | none => l
    { s with sched := l.setNext none (some (some proc)) }

/-- `sched_remove`. -/
def schedRemove (proc : Nat) : M Unit := update fun s => { s with sched := s.sched.unlink (some proc) }

def procExec (elf : Nat → UInt8) (size : Nat) : M Bool := do
  let proc ← procAlloc
  if proc = 0 then
    return false
  else
    let ok ← initProcFromElf proc elf size
    if ok then
      modifyProc proc fun p => { p with state := .running }
      schedAdd proc
      return true
    else
      procFree proc
      return false

/-- The inner loop of `init_proc_from_proc` over the entries of a page table. -/
def clonePtes (clone pageTab cloneTab : Nat) : List Nat → M Bool
  | [] => return true
  | pte :: l => do
    let (page, flag) ← vmmGetPageIndex pageTab pte
    if page = 0 then
      clonePtes clone pageTab cloneTab l
    else
      let clonePage ← pmmAllocPageAddress
      if clonePage = 0 then
        return false
      else
        let s ← getState
        storePage (castPhysicalToVirtual clonePage) (s.mem (Slab.frame (castPhysicalToVirtual page)))
        vmmMapPageIndex cloneTab pte clonePage flag
        modifyProc clone fun p => { p with memPages := u32 (p.memPages + 1) }
        clonePtes clone pageTab cloneTab l

/-- The outer loop over the entries of the page directory. -/
def clonePdes (clone pageDir cloneDir : Nat) : List Nat → M Bool
  | [] => return true
  | pde :: l => do
    let (pageTab, tabFlag) ← vmmGetPageTableIndex pageDir pde
    if pageTab = 0 then
      clonePdes clone pageDir cloneDir l
    else
      let cloneTab ← vmmAllocPageTable
      if cloneTab = 0 then
        return false
      else
        vmmMapPageTableIndex cloneDir pde cloneTab tabFlag
        modifyProc clone fun p => { p with memPages := u32 (p.memPages + 1) }
        let ok ← clonePtes clone pageTab cloneTab (List.range numPte)
        if ok then
          clonePdes clone pageDir cloneDir l
        else
          return false

def initProcFromProc (clone proc : Nat) : M Bool := do
  let ok ← initPageDir clone
  if ok then
    let p ← getProc proc
    let c ← getProc clone
    let ok ← clonePdes clone p.pageDir c.pageDir (List.range userPdes)
    if ok then
      pgCopyKernelSpace c.pageDir
      return true
    else
      return false
  else
    return false

def procClone (proc : Nat) : M Nat := do
  let clone ← procAlloc
  if clone = 0 then
    return 0
  else
    let ok ← initProcFromProc clone proc
    if ok then
      let p ← getProc proc
      let c ← getProc clone
      if c.memPages ≠ p.memPages then
        throw (.clonePages c.memPages p.memPages)
      else
        modifyProc clone fun c =>
          { c with state := .running, context := p.context, entry := p.entry, kernelStack := p.kernelStack
                   userStack := p.userStack, parent := proc }
        schedAdd clone
        return clone
    else
      procFree clone
      return 0

/-- `proc_exit`; `sched` does not come back. -/
def procExit (proc : Nat) (status : Int) : M Unit :=
  modifyProc proc fun p => { p with status := status, state := .dead }

/-- What the scheduler does with a dead process. -/
def schedReap (proc : Nat) : M Unit := do
  schedRemove proc
  procFree proc

/-- `ktask_initialize` of `kernel/ktask.c`; `main` is the address of `ktask_main`. -/
def ktaskInitialize (main : Nat) : M Unit := do
  let ktask ← procAlloc
  if ktask = 0 then
    throw .kernelTask
  else
    let p ← getProc ktask
    if p.pid ≠ 0 then
      throw .kernelTask
    else
      let paddr ← pmmAllocPageAddress
      let stack := castP2vOrNull paddr
      if stack = 0 then
        throw .kernelTask
      else
        let pageDir ← vmmAllocVaddrSpace
        modifyProc ktask fun p => { p with kernelStack := u32 (stack + pageSize), pageDir := pageDir }
        if pageDir = 0 then
          throw .kernelTask
        else
          modifyProc ktask fun p => { p with state := .running, entry := main }
          pgCopyKernelSpace pageDir
          schedAdd ktask

end Airix.Proc
