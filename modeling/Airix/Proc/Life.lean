import Airix.Paging.Window
import Airix.Proc.Image
import Airix.Proc.Make

/-!
# The life of processes

The kernel from `ktask_initialize` on, as a system that takes steps: programs are started, processes fork, exit and
are reaped, and between that programs run and the rest of the kernel allocates and frees.
-/

namespace Airix.Proc

/-! ### Boot -/

/-- A boot up to `pg_complete_paging`. The memory ends where the kernel's window ends. -/
structure Boot where
  mem : Nat → Nat → Nat
  freeAddr : Nat
  entriesAddr : Nat
  entries : Array Pmm.MmapEntry
  machine : Paging.Machine
  ok : Paging.PagingOk freeAddr entriesAddr entries
  window : Pmm.maxUsableEnd entries.toList ≤ 0x40000000
  booted : Paging.bootPaging mem freeAddr entries =
    some (machine, Paging.pagingEnd freeAddr entries, qsort Pmm.mmapEntryCompare entries)

namespace Boot

def free (B : Boot) : Nat := Paging.pagingEnd B.freeAddr B.entries

def sorted (B : Boot) : Array Pmm.MmapEntry := qsort Pmm.mmapEntryCompare B.entries

/-- The number of the kernel's page tables. -/
def tables (B : Boot) : Nat := Paging.tableCount (Pmm.maxUsableEnd B.entries.toList)

/-- The kernel's directory and its page tables. -/
def KernelFrame (B : Boot) (f : Nat) : Prop :=
  Paging.dirFrame B.freeAddr ≤ f ∧ f < Paging.dirFrame B.freeAddr + 1 + B.tables

variable {B : Boot}

theorem windowOk : WindowOk B.free B.entriesAddr B.sorted where
  toBootOk := B.ok.bootOk B.window
  window := by
    rw [show Pmm.maxUsableEnd B.sorted.toList = _ from Pmm.maxUsableEnd_perm (Pmm.sortedEntries_perm B.entries)]
    exact B.window

theorem bootOk : Pmm.BootOk B.free B.entriesAddr B.sorted := windowOk.toBootOk

/-- What `pg_complete_paging` left. -/
theorem paging : Paging.Window B.machine (Paging.dirFrame B.freeAddr) B.tables ∧
    Paging.Unmapped B.machine (Paging.dirFrame B.freeAddr) B.tables := by
  obtain ⟨boot, he, hw, hu⟩ := B.ok.bootPaging B.mem
  rw [B.booted] at he
  obtain ⟨rfl, -⟩ := Prod.mk.inj (Option.some.inj he)
  exact ⟨hw, hu⟩

theorem KernelFrame.reserved {f : Nat} (h : B.KernelFrame f) : f ∈ Pmm.reservedPages B.free B.entriesAddr B.sorted := by
  have hlo := B.ok.frames.1
  obtain ⟨h₁, h₂⟩ := h
  refine .inl (.inr (.inr ⟨?_, ?_⟩))
  · unfold Pmm.kernelStartAddress pageSize
    omega
  · have hend : f * pageSize < B.free := by
      show f * pageSize < (Paging.dirFrame B.freeAddr + 1 + B.tables) * pageSize
      exact Nat.mul_lt_mul_of_pos_right h₂ (by decide)
    exact hend.trans_le (by unfold Pmm.bootEnd; omega)

theorem frame_pgDir : Slab.frame B.machine.pgDir = Paging.dirFrame B.freeAddr := by
  have hframes := B.ok.frames.2
  rw [paging.1.pgDir]
  exact frame_cast (by omega)

theorem kernelFrame_pgDir : B.KernelFrame (Slab.frame B.machine.pgDir) := by
  rw [frame_pgDir]
  exact ⟨le_rfl, by omega⟩

end Boot

/-! ### The system -/

/-- `retvalue` are the `syscall_retvalue` of the processes, and `forking` those that are in `sched_fork` and wait for
`sched` to come back. `program` says from which file a process or the process that it was cloned from was made; the
kernel does not know it. -/
structure Sys where
  state : State
  retvalue : Nat → Nat
  forking : Nat → Bool
  program : Nat → Option (Nat → UInt8)

/-- `sched_task_fork`, with the return values of system calls beside the machine. -/
def schedTaskFork (parent : Nat) : StateT (Nat → Nat) M Unit := do
  let child ← procClone parent
  if child ≠ 0 then
    let c ← getProc child
    modify fun retvalue => Function.update retvalue parent (BitVec.ofInt 32 c.pid).toNat
    modify fun retvalue => Function.update retvalue child 0
  else
    modify fun retvalue => Function.update retvalue parent (BitVec.ofInt 32 (-1)).toNat

/-- The end of `sched_fork`: `(pid_t)current_proc->syscall_retvalue`. -/
def schedFork (σ : Sys) (o : Nat) : Int := (BitVec.ofNat 16 (σ.retvalue o)).toInt

/-- The process came into being. -/
def isNew (s s' : State) (o : Nat) : Bool := (s.procs o).isNone && (s'.procs o).isSome

/-- After `proc_exec`; `proc_alloc` clears the object. -/
def Sys.exec (σ : Sys) (elf : Nat → UInt8) (s : State) : Sys where
  state := s
  retvalue := fun o => if isNew σ.state s o then 0 else σ.retvalue o
  forking := σ.forking
  program := fun o => if isNew σ.state s o then some elf else σ.program o

/-- After `sched_task_fork`: the child has the context of its parent. -/
def Sys.fork (σ : Sys) (parent : Nat) (s : State) (retvalue : Nat → Nat) : Sys where
  state := s
  retvalue := retvalue
  forking := fun o => if o = parent ∨ isNew σ.state s o then true else σ.forking o
  program := fun o => if isNew σ.state s o then σ.program parent else σ.program o

/-- What programs and the rest of the kernel do: pages of processes and all other memory may be written, but no
directory or table; what processes have stays allocated. -/
structure Other (B : Boot) (s s' : State) : Prop where
  slab : ∃ live frames, Slab.Run B.free B.entriesAddr B.sorted s'.slab live frames ∧
    Slab.Valid live (.created s.procCache) ∧
    (∀ o p, s.procs o = some p → ∃ bytes, live o = some ⟨.created s.procCache, bytes⟩) ∧
    ∀ a ∈ Scope.user.slots, ∀ f, ref s a = some f → (f, 0) ∈ frames
  dirs : ∀ o f, dirFrame s o = some f → s'.mem f = s.mem f
  tables : ∀ o pde f, pde < userPdes → tableFrame s o pde = some f → s'.mem f = s.mem f
  kernel : ∀ f, B.KernelFrame f → s'.mem f = s.mem f
  rest : s' = { s with slab := s'.slab, mem := s'.mem }

inductive Step (B : Boot) : Sys → Sys → Prop
  | exec {σ : Sys} {elf : Nat → UInt8} {size : Nat} {fails : List Bool} {b : Bool} {m : Machine} :
    (procExec elf size).run ⟨σ.state, fails, []⟩ = .ok (b, m) → Step B σ (σ.exec elf m.state)
  | fork {σ : Sys} {parent : Nat} {p : Process} {fails : List Bool} {retvalue : Nat → Nat} {m : Machine} :
    σ.state.procs parent = some p → p.state = .running → σ.forking parent = false →
      ((schedTaskFork parent).run σ.retvalue).run ⟨σ.state, fails, []⟩ = .ok (((), retvalue), m) →
      Step B σ (σ.fork parent m.state retvalue)
  /-- `sched` comes back in `sched_fork`. -/
  | back {σ : Sys} {o : Nat} : σ.forking o = true →
    Step B σ { σ with forking := Function.update σ.forking o false }
  /-- The kernel task does not exit. -/
  | exit {σ : Sys} {o : Nat} {p : Process} {status : Int} {m : Machine} :
    σ.state.procs o = some p → p.state = .running → p.pid ≠ 0 → σ.forking o = false →
      (procExit o status).run ⟨σ.state, [], []⟩ = .ok ((), m) → Step B σ { σ with state := m.state }
  | reap {σ : Sys} {o : Nat} {p : Process} {m : Machine} :
    σ.state.procs o = some p → p.state = .dead → (schedReap o).run ⟨σ.state, [], []⟩ = .ok ((), m) →
      Step B σ { σ with state := m.state, program := Function.update σ.program o none }
  /-- A process sleeps or is woken up. -/
  | turn {σ : Sys} {o : Nat} {p : Process} (state : ProcState) :
    σ.state.procs o = some p → p.state ≠ .dead → state = .running ∨ state = .io →
      Step B σ { σ with state := { σ.state with
        procs := Function.update σ.state.procs o (some { p with state := state }) } }
  /-- A process is switched from. -/
  | save {σ : Sys} {o : Nat} {p : Process} (context : Nat) :
    σ.state.procs o = some p → Step B σ { σ with state := { σ.state with
      procs := Function.update σ.state.procs o (some { p with context := context }) } }
  | other {σ : Sys} {s : State} : Other B σ.state s → Step B σ { σ with state := s }

/-- The states that the system gets to. -/
inductive Life (B : Boot) : Sys → Prop
  | init {slab : Slab.State} {live : Nat → Option Slab.Live} {frames : Finset (Nat × Nat)} {mem : Nat → Nat → Nat}
      {procCache main : Nat} {fails : List Bool} {m : Machine} :
    Slab.Run B.free B.entriesAddr B.sorted slab live frames → Slab.Valid live (.created procCache) →
      (∀ f, B.KernelFrame f → mem f = B.machine.mem f) →
      (ktaskInitialize main).run ⟨initState slab mem B.machine.pgDir procCache, fails, []⟩ = .ok ((), m) →
      Life B ⟨m.state, fun _ => 0, fun _ => false, fun _ => none⟩
  | step {σ σ' : Sys} : Life B σ → Step B σ σ' → Life B σ'

/-! ### The invariant -/

/-- Process `o` has the space `z`. -/
structure Owns (σ : Sys) (o : Nat) (z : Space) : Prop where
  settled : Settled σ.state o z
  count : ∃ c, z.Counted c
  rights : ∀ elf, σ.program o = some elf → Bounded elf → z.Rights elf
  counted : ∀ elf, σ.program o = some elf → Bounded elf → ∃ c ≤ 0x40000, z.Counted c ∧ (c = 0 ↔ Space.BelowKernel elf)
  pid : ∃ i : Nat, i < procMaxNum ∧ z.proc.pid = i
  zero : z.proc.pid = 0 → z.proc.state ≠ .dead

structure Inv (B : Boot) (σ : Sys) : Prop where
  op : Done B.free B.entriesAddr B.sorted 0 ⟨σ.state, [], []⟩
  pgDir : σ.state.pgDir = B.machine.pgDir
  kernel : ∀ f, B.KernelFrame f → σ.state.mem f = B.machine.mem f
  procs : ∀ o p, σ.state.procs o = some p → ∃ z, Owns σ o z
  bit : σ.state.pidMap 0 = true
  gen : σ.state.pidGen < procMaxNum
  fork : ∀ o, σ.forking o = true → ∃ p, σ.state.procs o = some p ∧ p.state ≠ .dead

section
variable {B : Boot} {σ σ' : Sys} {o : Nat} {z : Space}

theorem Owns.congr (h : Owns σ o z) (hproc : σ'.state.procs o = σ.state.procs o)
    (hmem : ∀ a ∈ z.places, σ'.state.mem (z.frame a) = σ.state.mem (z.frame a))
    (hused : ∀ a ∈ z.places, ¬ Pmm.FreePage σ'.state.slab.pmm (z.frame a)) (hdir : σ'.state.pgDir = σ.state.pgDir)
    (hkernel : σ'.state.mem (Slab.frame σ.state.pgDir) = σ.state.mem (Slab.frame σ.state.pgDir))
    (hprog : σ'.program o = σ.program o) : Owns σ' o z :=
  ⟨h.settled.congr (hproc.trans h.settled.proc) hmem hused hdir hkernel, h.count, by rw [hprog]; exact h.rights,
    by rw [hprog]; exact h.counted, h.pid, h.zero⟩

theorem Done.setFails {freeAddr entriesAddr : Nat} {entries : Array Pmm.MmapEntry} {m : Machine}
    (h : Done freeAddr entriesAddr entries o m) (fails : List Bool) :
    Done freeAddr entriesAddr entries 0 ⟨m.state, fails, []⟩ := by
  obtain ⟨live, frames, h⟩ := h
  exact ⟨live, frames, { h with freed := by simp }⟩

namespace Inv

theorem kernel_not_free (h : Inv B σ) {f : Nat} (hf : B.KernelFrame f) : ¬ Pmm.FreePage σ.state.slab.pmm f := by
  obtain ⟨live, frames, hop⟩ := h.op
  exact (hop.run.not_reserved B.bootOk hf.reserved).1

theorem pgDir_not_free (h : Inv B σ) : ¬ Pmm.FreePage σ.state.slab.pmm (Slab.frame σ.state.pgDir) := by
  rw [h.pgDir]
  exact h.kernel_not_free Boot.kernelFrame_pgDir

/-- Another process, where nothing changed but what was free. -/
theorem owns_of_kept (h : Inv B σ) (hz : Owns σ o z) {s : State} (hproc : s.procs o = σ.state.procs o)
    (hmem : ∀ f, ¬ Pmm.FreePage σ.state.slab.pmm f → s.mem f = σ.state.mem f)
    (hfree : ∀ f, Pmm.FreePage s.slab.pmm f → Pmm.FreePage σ.state.slab.pmm f) (hdir : s.pgDir = σ.state.pgDir)
    (hs : σ'.state = s) (hprog : σ'.program o = σ.program o) : Owns σ' o z := by
  subst hs
  exact hz.congr hproc (fun a ha => hmem _ (hz.settled.used a ha).2.2) (fun a ha hf => (hz.settled.used a ha).2.2 (hfree _ hf))
    hdir (hmem _ h.pgDir_not_free) hprog

/-- One process more. -/
theorem made (h : Inv B σ) {pid : Nat} (hm : Made σ.state σ'.state o pid z)
    (hop : Done B.free B.entriesAddr B.sorted 0 ⟨σ'.state, [], []⟩) (hprog : ∀ o', o' ≠ o → σ'.program o' = σ.program o')
    (hcount : ∃ c, z.Counted c) (hrights : ∀ elf, σ'.program o = some elf → Bounded elf → z.Rights elf)
    (hcounted : ∀ elf, σ'.program o = some elf → Bounded elf →
      ∃ c ≤ 0x40000, z.Counted c ∧ (c = 0 ↔ Space.BelowKernel elf))
    (hfork : ∀ o', σ'.forking o' = true → o' ≠ o → ∃ p, σ.state.procs o' = some p ∧ p.state ≠ .dead) : Inv B σ' := by
  have hpid : pid ≠ 0 := by
    rintro rfl
    have := hm.bit
    rw [h.bit] at this
    cases this
  refine ⟨hop, hm.pgDir.trans h.pgDir, fun f hf => ?_, fun o' p hp => ?_, ?_, hm.gen h.gen, fun o' ho' => ?_⟩
  · rw [hm.mem f (h.kernel_not_free hf)]
    exact h.kernel f hf
  · by_cases e : o' = o
    · subst e
      refine ⟨z, hm.settled, hcount, hrights, hcounted, ⟨pid, hm.lt h.gen, hm.pid_eq⟩, fun h0 => ?_⟩
      rw [hm.pid_eq] at h0
      exact absurd (Int.natCast_eq_zero.mp h0) hpid
    · rw [hm.others o' e] at hp
      obtain ⟨z', hz'⟩ := h.procs o' p hp
      exact ⟨z', h.owns_of_kept hz' (hm.others o' e) hm.mem hm.free hm.pgDir rfl (hprog o' e)⟩
  · rw [hm.pidMap, Function.update_of_ne hpid.symm]
    exact h.bit
  · by_cases e : o' = o
    · subst e
      exact ⟨z.proc, hm.settled.proc, by rw [hm.state]; simp⟩
    · rw [hm.others o' e]
      exact hfork o' ho' e

/-- No process more. -/
theorem unmade (h : Inv B σ) (hm : Unmade σ.state σ'.state)
    (hop : Done B.free B.entriesAddr B.sorted 0 ⟨σ'.state, [], []⟩) (hprog : σ'.program = σ.program)
    (hfork : ∀ o', σ'.forking o' = true → ∃ p, σ.state.procs o' = some p ∧ p.state ≠ .dead) : Inv B σ' := by
  refine ⟨hop, hm.pgDir.trans h.pgDir, fun f hf => ?_, fun o p hp => ?_, ?_, hm.gen h.gen, fun o ho => ?_⟩
  · rw [hm.mem f (h.kernel_not_free hf)]
    exact h.kernel f hf
  · rw [hm.procs] at hp
    obtain ⟨z, hz⟩ := h.procs o p hp
    exact ⟨z, h.owns_of_kept hz (by rw [hm.procs]) hm.mem hm.free hm.pgDir rfl (by rw [hprog])⟩
  · rw [hm.pidMap]
    exact h.bit
  · rw [hm.procs]
    exact hfork o ho

/-- The frames of two processes are different ones. -/
theorem frame_ne (h : Inv B σ) {o' : Nat} {z' : Space} (hz : Settled σ.state o z) (hz' : Settled σ.state o' z')
    (hne : o ≠ o') {a b : Place} (ha : a ∈ z.places) (hb : b ∈ z'.places) : z.frame a ≠ z'.frame b := by
  obtain ⟨live, frames, hop⟩ := h.op
  obtain ⟨s, hs, hso, href⟩ := hz.ref ha
  obtain ⟨s', hs', hso', href'⟩ := hz'.ref hb
  intro e
  rw [e] at href
  have := hop.inj s hs s' hs' _ href href'
  rw [← hso, ← hso', this] at hne
  exact hne rfl

/-- The frame of a process is none of the kernel's. -/
theorem frame_not_kernel (h : Inv B σ) (hz : Settled σ.state o z) {a : Place} (ha : a ∈ z.places) :
    ¬ B.KernelFrame (z.frame a) := by
  obtain ⟨live, frames, hop⟩ := h.op
  obtain ⟨s, hs, -, href⟩ := hz.ref ha
  exact fun hf => (hop.run.not_reserved B.bootOk hf.reserved).2 0 (hop.own s hs _ href)

theorem mem_of_reaped (h : Inv B σ) (hz : Owns σ o z) (hm : Reaped σ.state σ'.state o z) {f : Nat} (hf : B.KernelFrame f) :
    σ'.state.mem f = σ.state.mem f := by
  refine hm.mem f (h.kernel_not_free hf) fun a ha e => ?_
  rw [← e] at hf
  exact h.frame_not_kernel hz.settled ha hf

/-- Another process, where one was reaped. -/
theorem owns_of_reaped (h : Inv B σ) (hz : Owns σ o z) (hm : Reaped σ.state σ'.state o z) {o' : Nat} {z' : Space}
    (hne : o' ≠ o) (hz' : Owns σ o' z') (hprog : σ'.program o' = σ.program o') : Owns σ' o' z' := by
  have hother : ∀ a ∈ z'.places, ∀ b ∈ z.places, z.frame b ≠ z'.frame a :=
    fun a ha b hb => h.frame_ne hz.settled hz'.settled hne.symm hb ha
  refine hz'.congr (by rw [hm.procs, Function.update_of_ne hne])
    (fun a ha => hm.mem _ (hz'.settled.used a ha).2.2 (hother a ha)) (fun a ha hf => ?_) hm.pgDir ?_ hprog
  · rcases (hm.free _).mp hf with hf | ⟨b, hb, e⟩
    · exact (hz'.settled.used a ha).2.2 hf
    · exact hother a ha b hb e
  · rw [h.pgDir]
    exact h.mem_of_reaped hz hm Boot.kernelFrame_pgDir

theorem reaped (h : Inv B σ) (hz : Owns σ o z) (hdead : z.proc.state = .dead) (hm : Reaped σ.state σ'.state o z)
    (hop : Done B.free B.entriesAddr B.sorted 0 ⟨σ'.state, [], []⟩) (hprog : ∀ o', o' ≠ o → σ'.program o' = σ.program o')
    (hfork : σ'.forking = σ.forking) : Inv B σ' := by
  obtain ⟨i, -, hi⟩ := hz.pid
  have hi0 : i ≠ 0 := by
    rintro rfl
    exact hz.zero hi hdead
  refine ⟨hop, hm.pgDir.trans h.pgDir, fun f hf => (h.mem_of_reaped hz hm hf).trans (h.kernel f hf), fun o' p hp => ?_, ?_,
    ?_, fun o' ho' => ?_⟩
  · have hne : o' ≠ o := by
      rintro rfl
      rw [hm.procs, Function.update_self] at hp
      cases hp
    rw [hm.procs, Function.update_of_ne hne] at hp
    obtain ⟨z', hz'⟩ := h.procs o' p hp
    exact ⟨z', h.owns_of_reaped hz hm hne hz' (hprog o' hne)⟩
  · rw [hm.pidMap, hi, if_neg (by omega), Function.update_of_ne (by simpa using hi0.symm)]
    exact h.bit
  · rw [hm.pidGen]
    exact h.gen
  · rw [hfork] at ho'
    obtain ⟨p, hp, hstate⟩ := h.fork o' ho'
    have hne : o' ≠ o := by
      rintro rfl
      rw [hz.settled.proc] at hp
      obtain rfl := Option.some.inj hp
      exact hstate hdead
    exact ⟨p, by rw [hm.procs, Function.update_of_ne hne]; exact hp, hstate⟩

/-- Fields of a process change, but not those that the invariant is about. -/
theorem setProc (h : Inv B σ) {p p' : Process} (hp : σ.state.procs o = some p) (hdir : p'.pageDir = p.pageDir)
    (hpid : p'.pid = p.pid) (hpages : p'.memPages = p.memPages) (hzero : p'.pid = 0 → p'.state ≠ .dead)
    (hfork : σ.forking o = true → p'.state ≠ .dead) :
    Inv B { σ with state := { σ.state with procs := Function.update σ.state.procs o (some p') } } := by
  obtain ⟨live, frames, hop⟩ := h.op
  have hrun : (modifyProc o fun q => { p' with pageDir := q.pageDir }).run ⟨σ.state, [], []⟩ = .ok ((), ⟨{ σ.state with
      procs := Function.update σ.state.procs o (some p') }, [], []⟩) := by
    refine update_ok.mpr ?_
    rw [hp, Option.map_some, ← hdir]
  refine ⟨⟨live, frames, (hop.modifyProc hrun fun _ => rfl).2.2.2⟩, h.pgDir, h.kernel, fun o' q hq => ?_, h.bit, h.gen,
    fun o' ho' => ?_⟩
  · by_cases e : o' = o
    · subst e
      obtain ⟨z, hz⟩ := h.procs o' p hp
      have hzp : z.proc = p := Option.some.inj (hz.settled.proc.symm.trans hp)
      have hcount : ∀ c, z.Counted c → (z.setProc p').Counted c := by
        intro c hc
        show p'.memPages = u32 (z.places.card + c)
        rw [hpages, ← hzp]
        exact hc
      refine ⟨z.setProc p', hz.settled.setProc (by rw [hzp]; exact hdir) (Function.update_self _ _ _) rfl rfl rfl, ?_,
        fun elf he hb => ?_, fun elf he hb => ?_, ?_, hzero⟩
      · obtain ⟨c, hc⟩ := hz.count
        exact ⟨c, hcount c hc⟩
      · have hr := hz.rights elf he hb
        exact ⟨hr.user, hr.only, hr.stack, hr.table, hr.covered⟩
      · obtain ⟨c, hle, hc, hiff⟩ := hz.counted elf he hb
        exact ⟨c, hle, hcount c hc, hiff⟩
      · obtain ⟨i, hi, hpi⟩ := hz.pid
        refine ⟨i, hi, ?_⟩
        rw [Space.setProc_proc, hpid, ← hzp]
        exact hpi
    · dsimp only at hq
      rw [Function.update_of_ne e] at hq
      obtain ⟨z, hz⟩ := h.procs o' q hq
      exact ⟨z, hz.congr (Function.update_of_ne e _ _) (fun _ _ => rfl) (fun a ha => (hz.settled.used a ha).2.2) rfl rfl rfl⟩
  · obtain ⟨q, hq, hstate⟩ := h.fork o' ho'
    by_cases e : o' = o
    · subst e
      exact ⟨p', Function.update_self _ _ _, hfork ho'⟩
    · exact ⟨q, by dsimp only; rw [Function.update_of_ne e]; exact hq, hstate⟩

end Inv

/-! ### Programs and the rest of the kernel -/

namespace Other
variable {s s' : State}

theorem procs (h : Other B s s') : s'.procs = s.procs := by rw [h.rest]

theorem ref_eq (h : Other B s s') {a : Slot} (ha : a ∈ Scope.user.slots) : ref s' a = ref s a := by
  have hdir : ∀ o, dirFrame s' o = dirFrame s o := fun o => dirFrame_congr h.procs
  have htable : ∀ o pde, tableFrame s' o pde = tableFrame s o pde := by
    intro o pde
    rw [tableFrame, tableFrame, hdir]
    exact Option.bind_congr fun d hd => by rw [h.dirs o d hd]
  cases a with
  | dir o => exact hdir o
  | table o pde => exact htable o pde
  | page o pde pte =>
    rw [ref_page, ref_page, pageFrame, pageFrame, htable]
    exact Option.bind_congr fun t ht => by rw [h.tables o pde t ha ht]

theorem done (h : Other B s s') (hs : Done B.free B.entriesAddr B.sorted 0 ⟨s, [], []⟩) :
    Done B.free B.entriesAddr B.sorted 0 ⟨s', [], []⟩ := by
  obtain ⟨live₀, frames₀, hop⟩ := hs
  obtain ⟨live, frames, hrun, hvalid, hlive, hown⟩ := h.slab
  have hcache : s'.procCache = s.procCache := by rw [h.rest]
  refine ⟨live, frames, hrun, ?_, fun o p hp => ?_, fun a ha b hb f hfa hfb => ?_, fun a ha f hf => ?_, by simp⟩
  · rw [hcache]
    exact hvalid
  · rw [hcache]
    rw [h.procs] at hp
    exact hlive o p hp
  · rw [h.ref_eq ha] at hfa
    rw [h.ref_eq hb] at hfb
    exact hop.inj a ha b hb f hfa hfb
  · rw [h.ref_eq ha] at hf
    exact hown a ha f hf

/-- The space of a process, with whatever is in its pages now. -/
theorem settled (h : Other B s s') (hz : Settled s o z) (hk : s.pgDir = B.machine.pgDir) :
    Settled s' o { z with words := fun a => if a = .dir then z.words .dir else s'.mem (z.frame a) } := by
  obtain ⟨live, frames, hrun, -, -, hown⟩ := h.slab
  have hdir : s'.mem (z.frame .dir) = s.mem (z.frame .dir) := h.dirs o _ hz.dirFrame_eq
  have hpgDir : s'.pgDir = s.pgDir := by rw [h.rest]
  refine ⟨⟨hz.ok.inj, hz.ok.flag, hz.ok.table, hz.ok.page, hz.ok.hand⟩, fun a ha => ?_, ?_, hz.linked, hz.hand, hz.dir,
    hz.limit, hz.pageDir, fun a ha => ?_, fun i hi hi' => ?_⟩
  · cases a with
    | dir =>
      show Space.Fits _ _ (s'.mem (z.frame .dir))
      rw [hdir]
      exact hz.fits _ ha
    | table pde =>
      have htab : s'.mem (z.frame (.table pde)) = s.mem (z.frame (.table pde)) :=
        h.tables o pde _ (hz.tableFrame_eq ha).2 (hz.tableFrame_eq ha).1
      show Space.Fits _ _ (s'.mem (z.frame (.table pde)))
      rw [htab]
      have hfit := hz.fits _ ha
      exact ⟨hfit.1, fun i hi hi' => absurd hi' (not_lt.mpr hi)⟩
    | page pde pte => exact (Space.fits_words (by simp [Place.HasEntries])).mpr (by simp)
    | hand => exact absurd ha hz.hand
  · rw [h.procs]
    exact hz.proc
  · obtain ⟨b, hb, -, href⟩ := hz.ref ha
    have hspec := hrun.others_spec B.bootOk (hown b hb _ href)
    exact ⟨(hz.used a ha).1, (hz.used a ha).2.1, hspec.2.2⟩
  · show z.words .dir i = _
    rw [hpgDir, h.kernel _ (by rw [hk]; exact Boot.kernelFrame_pgDir)]
    exact hz.kernel i hi hi'

end Other

theorem Inv.other (h : Inv B σ) {s : State} (ho : Other B σ.state s) : Inv B { σ with state := s } := by
  have hpgDir : s.pgDir = σ.state.pgDir := by rw [ho.rest]
  refine ⟨ho.done h.op, hpgDir.trans h.pgDir, fun f hf => (ho.kernel f hf).trans (h.kernel f hf), fun o p hp => ?_, ?_, ?_,
    fun o ho' => ?_⟩
  · dsimp only at hp
    rw [ho.procs] at hp
    obtain ⟨z, hz⟩ := h.procs o p hp
    refine ⟨_, ho.settled hz.settled h.pgDir, hz.count, fun elf he hb => ?_, hz.counted, hz.pid, hz.zero⟩
    have hr := hz.rights elf he hb
    exact ⟨hr.user, hr.only, hr.stack, hr.table, hr.covered⟩
  · dsimp only
    rw [ho.rest]
    exact h.bit
  · dsimp only
    rw [ho.rest]
    exact h.gen
  · dsimp only
    rw [ho.procs]
    exact h.fork o ho'

end
end Airix.Proc
