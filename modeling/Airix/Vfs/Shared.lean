import Airix.Axfs.Kern
import Airix.Proc.Model
import Airix.Vfs.Model

/-!
# The open files of several processes

`files[]` of a process holds pointers: a `struct file` is an object that several descriptors may refer to, and
`f_refs` says how many. A process is named by its object.
-/

namespace Airix.Vfs
open Prog Axfs

/-- The processes with their `files[]`, the `struct file`s, and the rest of the kernel. -/
structure World where
  procs : Proc.State
  table : Nat → Fin procMaxFileNum → Option Nat
  file : Nat → Option File
  kern : Kern

namespace World

def setFile (w : World) (o : Nat) (f : Option File) : World := { w with file := Function.update w.file o f }

/-- `proc->files[fd] = x`. -/
def setSlot (w : World) (p : Nat) (fd : Int) (x : Option Nat) : World :=
  { w with table := Function.update w.table p fun i => if (i : Int) = fd then x else w.table p i }

/-- `proc->files[fd]` after the check of `fd`. -/
def desc (w : World) (p : Nat) (fd : Int) : Option Nat :=
  if h : 0 ≤ fd ∧ fd < procMaxFileNum then w.table p ⟨fd.toNat, by omega⟩ else none

end World

section
variable (m : Axfs.Machine)

/-- `sys_close` of process `p`. -/
inductive SysClose (w : World) (p : Nat) (fd : Int) : Int → World → Prop
  | bad : w.desc p fd = none → SysClose w p fd (-1) w
  | kept {o : Nat} {f : File} : w.desc p fd = some o → w.file o = some f → f.fRefs - 1 ≠ 0 →
    SysClose w p fd 0 ((w.setFile o (some { f with fRefs := f.fRefs - 1 })).setSlot p fd none)
  | last {o : Nat} {f : File} {r : Int} {k k' : Kern} : w.desc p fd = some o → w.file o = some f → f.fRefs - 1 = 0 →
    Reach m.kernLayer (vfsClose { f with fRefs := f.fRefs - 1 }) w.kern (.ret r) k →
    Reach m.kernLayer (vfsFreeFile f) k (.ret ()) k' →
    SysClose w p fd 0 ((({ w with kern := k' } : World).setFile o none).setSlot p fd none)

/-- `sys_read` of process `p`: what it returns, and the bytes that it writes to the buffer. -/
inductive SysRead (w : World) (p : Nat) (fd : Int) (size : Nat) : Int × List UInt8 → World → Prop
  | bad : w.desc p fd = none → SysRead w p fd size (-1, []) w
  | read {o : Nat} {f f' : File} {ret : Int} {bytes : List UInt8} {k : Kern} : w.desc p fd = some o →
    w.file o = some f → Reach m.kernLayer (axRead f size) w.kern (.ret (f', ret, bytes)) k →
    SysRead w p fd size (ret, bytes) (({ w with kern := k } : World).setFile o (some f'))

end

/-- `sys_fork` of process `parent`: the new process, or 0. `proc_alloc` clears the whole new `struct process`, and
`proc_clone` sets none of its `files[]`. -/
def sysFork (fails : List Bool) (w : World) (parent : Nat) : Except Proc.Panic (Nat × World) := do
  let (clone, m) ← (Proc.procClone parent).run ⟨w.procs, fails, []⟩
  let table := if clone = 0 then w.table else Function.update w.table clone fun _ => none
  return (clone, { w with procs := m.state, table := table })

section
variable {fails : List Bool} {w w' : World} {parent clone : Nat}

theorem sysFork_eq {m : Proc.Machine} (h : (Proc.procClone parent).run ⟨w.procs, fails, []⟩ = .ok (clone, m)) :
    sysFork fails w parent = .ok (clone, { w with
      procs := m.state
      table := if clone = 0 then w.table else Function.update w.table clone fun _ => none }) := by
  unfold sysFork
  rw [h]
  rfl

theorem sysFork_ok (h : sysFork fails w parent = .ok (clone, w')) :
    ∃ m, (Proc.procClone parent).run ⟨w.procs, fails, []⟩ = .ok (clone, m) ∧
      w' = { w with procs := m.state
                    table := if clone = 0 then w.table else Function.update w.table clone fun _ => none } := by
  cases hrun : (Proc.procClone parent).run ⟨w.procs, fails, []⟩ with
  | error e =>
    unfold sysFork at h
    rw [hrun] at h
    cases h
  | ok r =>
    obtain ⟨c, m⟩ := r
    rw [sysFork_eq hrun] at h
    cases h
    exact ⟨m, rfl, rfl⟩

end

end Airix.Vfs
