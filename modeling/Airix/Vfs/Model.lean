import Airix.Axfs.Model

/-!
# Files and the system calls on them (`fs/fs.c`, `kernel/syscall.c`)

`vfs_open` and `vfs_close` make and free what a `struct file` points to; `sys_open` and `sys_close` keep the
running process's table of files. A path is the bytes of the string, without its end.
-/

namespace Airix.Vfs
open Axfs

/-- `root.device`. -/
def rootDevice : UInt8 := 1

/-- The device of the mount. -/
def findMount (path : List UInt8) : Option UInt8 := if path.head? = some slash then some rootDevice else none

def pathDup (path : List UInt8) : P (Option PathPtr) := do
  let dup ← kmalloc (path.length + 1)
  if dup = 0 then return none else return some ⟨dup, path⟩

def freePath : Option PathPtr → P Unit
  | some path => kfree path.object
  | none => .stop .fault

def allocInode : P (Option VfsInode) := do
  let inode ← slabAlloc .inode
  if inode ≠ 0 then return some ⟨inode, 0, 0, none⟩ else return none

def freeInode : Option VfsInode → P Unit
  | some inode => slabFree .inode inode.object
  | none => .stop .fault

def vfsAllocFile : P (Option File) := do
  let file ← slabAlloc .file
  if file ≠ 0 then return some ⟨file, none, none, 0, 0, 0⟩ else return none

def vfsFreeFile (file : File) : P Unit := slabFree .file file.object

/-- The file with the fields that the call sets, and what it returns. -/
def vfsOpen (file : File) (path : List UInt8) (flags : Int) : P (File × Int) :=
  match findMount path with
  | none => .stop .noMount
  | some device => do
    let fPath ← pathDup path
    let fInode ← allocInode
    match fPath, fInode with
    | some fPath, some fInode =>
      let (file, error) ← axOpen { file with
        fPath := some fPath
        fInode := some { fInode with iDevice := device }
        fFlags := flags }
      if error ≠ 0 then
        freePath file.fPath
        freeInode file.fInode
        return ({ file with fPath := none, fInode := none }, error)
      else return (file, error)
    | _, _ => .stop .noData

def vfsClose (file : File) : P Int := do
  let _ ← axClose file
  freePath file.fPath
  freeInode file.fInode
  return 0

/-! ### System calls -/

def procMaxFileNum : Nat := 16

def sysOpen (path : List UInt8) (oflags : Int) : P Int := do
  let table ← files
  match (List.range procMaxFileNum).find? fun fd => (table fd).isNone with
  | none => return -1
  | some fd =>
    match ← vfsAllocFile with
    | none => return -1
    | some file =>
      let (file, error) ← vfsOpen file path oflags
      if error < 0 then
        vfsFreeFile file
        return -1
      else
        setFile fd (some { file with fRefs := file.fRefs + 1 })
        return fd

def sysClose (fd : Int) : P Int :=
  if fd < 0 ∨ procMaxFileNum ≤ fd then return -1
  else do
    match (← files) fd.toNat with
    | none => return -1
    | some file =>
      let file := { file with fRefs := file.fRefs - 1 }
      if file.fRefs = 0 then
        let _ ← vfsClose file
        vfsFreeFile file
      setFile fd.toNat none
      return 0

end Airix.Vfs
