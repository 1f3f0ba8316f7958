import Airix.Lib.Ring
import Airix.Base
import Airix.Lib.Dyadic
import Airix.Pmm.Model
import Airix.Pmm.Inv
import Airix.Pmm.Ops
import Airix.Pmm.Init
import Airix.Pmm.Buddy
import Airix.Bio.Model
import Airix.Bio.Abstract
import Airix.Bio.Refine
import Airix.Bio.Locking
import Airix.Bio.Keys
import Airix.Lib.Rings
import Airix.Slab.Model
import Airix.Slab.Inv
import Airix.Slab.Runs
import Airix.Lib.Exec
import Airix.Proc.Vmm
import Airix.Proc.Model
import Airix.Proc.Refs
import Airix.Proc.Own
import Airix.Proc.Ops
import Airix.Proc.Build
import Airix.Proc.Isolation
import Airix.Axfs.Layout
import Airix.Lib.BlockTree
import Airix.Mkfs.Model
import Airix.Mkfs.Disk
import Airix.Mkfs.Prims
import Airix.Mkfs.Alloc
import Airix.Mkfs.Dir
import Airix.Mkfs.Inv
import Airix.Mkfs.Steps
import Airix.Mkfs.Entry
import Airix.Mkfs.Lookup
import Airix.Mkfs.Create
import Airix.Mkfs.Data
import Airix.Mkfs.File
import Airix.Mkfs.Fsck
import Airix.Mkfs.Path
import Airix.Pmm.Exact
import Airix.Pmm.HighWords
import Airix.Paging.Model
import Airix.Paging.Window
import Airix.Ide.Model
import Airix.Ide.History
import Airix.Ide.Queue
import Airix.Ide.Runs
import Airix.Bio.Coherent
import Airix.Qsort.Bytes
import Airix.Proc.ElfReads
import Airix.Vsnprintf
import Airix.Mkfs.Complete
import Airix.Mkfs.Sound
import Airix.Mkfs.Failed
import Airix.Proc.Space
import Airix.Proc.Specs
import Airix.Proc.Load
import Airix.Proc.Alloc
import Airix.Proc.Image
import Airix.Proc.Copy
import Airix.Proc.Rights
import Airix.Proc.Release
import Airix.Proc.Make
import Airix.Proc.Life
import Airix.Axfs.Model
import Airix.Axfs.Locks
import Airix.Axfs.Kern
import Airix.Axfs.Volume
import Airix.Axfs.Reads
import Airix.Axfs.Tree
import Airix.Axfs.Path
import Airix.Axfs.Read
import Airix.Axfs.Open
import Airix.Vfs.Model
import Airix.Vfs.Objects
import Airix.Vfs.Open
import Airix.Bio.Write
import Airix.Mkfs.Dirs
import Airix.Mkfs.Insert
import Airix.Mkfs.Inserts
import Airix.Mkfs.Names
import Airix.Mkfs.Layout
import Airix.Mkfs.Mapping
import Airix.Mkfs.Stored
import Airix.Axfs.Places
import Airix.Axfs.Scan
import Airix.Ide.Transfer
import Airix.Lib.Numeral
import Airix.Vsnprintf.Number
import Airix.Printk
import Airix.Slab.Destroy
import Airix.Slab.Life
import Airix.Proc.Map
import Airix.Vfs.Fork
import Airix.Proc.Access
import Airix.Proc.Account
import Airix.Shortage
import Airix.Proc.Fork
import Airix.Lib.RoundRobin
import Airix.Proc.Table
import Airix.Proc.Scheduler
import Airix.Proc.Atomic
import Airix.Axfs.Image
import Airix.Axfs.Readback
