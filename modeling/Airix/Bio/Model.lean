import Airix.Lib.Ring
import Airix.Lib.Chain

/-!
# The block cache (`kernel/bio.c`)

Bios are numbered in the order in which the slab hands them out; none is ever freed. Process code runs
atomically between two calls of `sched()`, so a call that sleeps is cut there: `Pc` says in which loop a
process is, and each round of a loop is one function. `mem` is the outcome of the allocations of
`slab_alloc_bio`: the address of the buffer, or `none` when the slab or the page allocator has nothing.
-/

namespace Airix.Bio

def maxCacheCount : Nat := 4096
def sectorSize : Nat := 512
def sectorsPerBio : UInt64 := 8

/-- `BASE_SECTOR`. -/
def baseSector (sector : UInt64) : UInt64 := sector / sectorsPerBio * sectorsPerBio

/-- `struct bio` without its links; `flag` is split into its three bits. -/
structure Bio where
  buffer : Nat
  updated : Bool
  dirty : Bool
  reffed : Bool
  iter : UInt8
  dev : UInt8
  sector : UInt64
  sleep : Option Nat
deriving DecidableEq, Repr

inductive Node
  | head
  | bio (b : Nat)
deriving DecidableEq, Repr

inductive ProcState
  | running
  | io
deriving DecidableEq, Repr

/-- Where the code of a process is. -/
inductive Pc
  /-- Outside the block layer. -/
  | user
  /-- In the loop of `alloc_bio`, called by `bio_get(dev, sector)`. -/
  | allocBio (dev : UInt8) (sector : UInt64)
  /-- In the loop of `bio_get(dev, sector)` on the bio `b`. -/
  | getBio (dev : UInt8) (sector : UInt64) (b : Nat)
  /-- In `bio_read(b)`, behind the submission of the request. -/
  | readBio (b : Nat)
deriving DecidableEq, Repr

/-- What `struct process` holds for the block layer, with the bios that `bio_get` has returned to it and
that it has not released. -/
structure Proc where
  state : ProcState
  sleep : Option Nat
  pc : Pc
  held : List Nat
deriving DecidableEq, Repr

/-- `io` are the bios of the read requests that the disk has not completed. -/
structure State where
  bios : Nat → Bio
  links : Links Node
  headSleep : Option Nat
  count : Nat
  procs : Nat → Proc
  numProcs : Nat
  io : List Nat

namespace State

def setBio (s : State) (b : Nat) (x : Bio) : State := { s with bios := Function.update s.bios b x }

def setProc (s : State) (p : Nat) (x : Proc) : State := { s with procs := Function.update s.procs p x }

def sleepOf (s : State) : Node → Option Nat
  | .head => s.headSleep
  | .bio b => (s.bios b).sleep

def setSleep (s : State) (n : Node) (o : Option Nat) : State :=
  match n with
  | .head => { s with headSleep := o }
  | .bio b => s.setBio b { s.bios b with sleep := o }

/-- The link `sleep` of `struct process`. -/
def procSleep (s : State) (p : Nat) : Option Nat := (s.procs p).sleep

end State

def zeroBio : Bio := ⟨0, false, false, false, 0, 0, 0, none⟩

/-- After `bio_initialize`, with `n` processes outside the block layer. -/
def bioInitialize (n : Nat) : State where
  bios := fun _ => zeroBio
  links := (⟨fun _ => none, fun _ => none⟩ : Links Node).init .head
  headSleep := none
  count := 0
  procs := fun _ => ⟨.running, none, .user, []⟩
  numProcs := n
  io := []

/-! ### The cache list -/

def Node.toBio? : Node → Option Nat
  | .head => none
  | .bio b => some b

def findBio (s : State) (dev : UInt8) (sector : UInt64) : Option Nat :=
  (Links.walk s.links.next .head
    (fun n => match n with
      | .head => false
      | .bio b => (s.bios b).dev = dev ∧ (s.bios b).sector = sector)
    (s.count + 1) (s.links.next .head)).bind Node.toBio?

def findUnusedBio (s : State) : Option Nat :=
  (Links.walk s.links.prev .head
    (fun n => match n with
      | .head => false
      | .bio b => !((s.bios b).reffed || (s.bios b).dirty))
    (s.count + 1) (s.links.prev .head)).bind Node.toBio?

def slabAllocBio (s : State) (mem : Option Nat) : Option (Nat × State) :=
  mem.map fun buffer =>
    (s.count, { s.setBio s.count { zeroBio with buffer := buffer } with
      links := (s.links.setNext (.bio s.count) none).setPrev (.bio s.count) none
      count := s.count + 1 })

/-! ### Sleeping and waking -/

/-- `sleep_wait_bio` up to its `sched()`; the process goes on in the loop `pc`. -/
def sleepWaitBio (s : State) (n : Node) (p : Nat) (pc : Pc) : State :=
  let s := match s.sleepOf n with
    | some first =>
      let last := lastFrom s.procSleep s.numProcs first
      s.setProc last { s.procs last with sleep := some p }
    | none => s.setSleep n (some p)
  s.setProc p { s.procs p with state := .io, pc := pc }

/-- `sleep_wait_bio_complete` up to its `sched()`. -/
def sleepWaitBioComplete (s : State) (b p : Nat) : State :=
  let s := s.setProc p { s.procs p with sleep := (s.bios b).sleep }
  let s := s.setSleep (.bio b) (some p)
  s.setProc p { s.procs p with state := .io, pc := .readBio b }

/-- Take `p`, the first process, out of the chain of `n` and let it run. -/
def popSleep (s : State) (n : Node) (p : Nat) : State :=
  let s := s.setSleep n (s.procs p).sleep
  s.setProc p { s.procs p with sleep := none, state := .running }

def wakeUpSleepProcess (s : State) (b : Nat) : State :=
  match (s.bios b).sleep with
  | some p => popSleep s (.bio b) p
  | none => match s.headSleep with
    | some p => popSleep s .head p
    | none => s

/-! ### `bio_get` -/

/-- The assignments of `bio_get` to a bio from `alloc_bio`. -/
def rekey (s : State) (b : Nat) (dev : UInt8) (base : UInt64) : State :=
  s.setBio b { s.bios b with updated := false, dirty := false, reffed := false, dev := dev, sector := base }

/-- The end of `bio_get`. -/
def takeBio (s : State) (p b : Nat) (sector : UInt64) : State :=
  let s := { s with links := (s.links.unlink (.bio b)).insertFront .head (.bio b) }
  let s := s.setBio b { s.bios b with iter := (sector - (s.bios b).sector).toUInt8, reffed := true }
  s.setProc p { s.procs p with pc := .user, held := b :: (s.procs p).held }

/-- One round of the loop of `bio_get`. The bio that the call returns, or `none` when it sleeps. -/
def bioGetRound (s : State) (p : Nat) (dev : UInt8) (sector : UInt64) (b : Nat) : State × Option Nat :=
  if (s.bios b).reffed ∨ (s.bios b).dirty then
    (sleepWaitBio s (.bio b) p (.getBio dev sector b), none)
  else (takeBio s p b sector, some b)

/-- One round of the loop of `alloc_bio`, and what `bio_get` does with its bio. -/
def allocBioRound (s : State) (p : Nat) (dev : UInt8) (sector : UInt64) (mem : Option Nat) :
    State × Option Nat :=
  match if s.count < maxCacheCount then slabAllocBio s mem else none with
  | some (b, s) => bioGetRound (rekey s b dev (baseSector sector)) p dev sector b
  | none => match findUnusedBio s with
    | some b => bioGetRound (rekey s b dev (baseSector sector)) p dev sector b
    | none => (sleepWaitBio s .head p (.allocBio dev sector), none)

def bioGet (s : State) (p : Nat) (dev : UInt8) (sector : UInt64) (mem : Option Nat) : State × Option Nat :=
  match findBio s dev (baseSector sector) with
  | some b => bioGetRound s p dev sector b
  | none => allocBioRound s p dev sector mem

/-- `none` is the panic. -/
def bioData (s : State) (b : Nat) : Option Nat :=
  if (s.bios b).iter < 8 then some ((s.bios b).buffer + (s.bios b).iter.toNat * sectorSize) else none

/-! ### `bio_read` and `bio_release` -/

def bioRead (s : State) (p b : Nat) : State :=
  if (s.bios b).updated then s else sleepWaitBioComplete { s with io := s.io ++ [b] } b p

/-- `none` is the use of a null process pointer. -/
def ideReadComplete (s : State) (b : Nat) (error : Bool) : Option State :=
  match (s.bios b).sleep with
  | none => none
  | some p =>
    let s := { s with io := s.io.erase b }
    let s := if error then s else s.setBio b { s.bios b with updated := true }
    some (popSleep s (.bio b) p)

def bioRelease (s : State) (p b : Nat) : State :=
  let s := s.setBio b { s.bios b with reffed := false }
  let s := s.setProc p { s.procs p with held := (s.procs p).held.erase b }
  if (s.bios b).dirty then s else wakeUpSleepProcess s b

/-! ### Runs -/

inductive Event
  | get (p : Nat) (dev : UInt8) (sector : UInt64) (mem : Option Nat)
  | resume (p : Nat) (mem : Option Nat)
  | read (p b : Nat)
  | release (p b : Nat)
  | complete (b : Nat) (error : Bool)

/-- One atomic step. The second component of the outcome is the bio that a `bio_get` returns in it. -/
inductive Step (s : State) : Event → State × Option Nat → Prop
  | get {p : Nat} {dev : UInt8} {sector : UInt64} {mem : Option Nat} :
    p < s.numProcs → (s.procs p).state = .running → (s.procs p).pc = .user →
      Step s (.get p dev sector mem) (bioGet s p dev sector mem)
  | resumeAlloc {p : Nat} {dev : UInt8} {sector : UInt64} {mem : Option Nat} :
    p < s.numProcs → (s.procs p).state = .running → (s.procs p).pc = .allocBio dev sector →
      Step s (.resume p mem) (allocBioRound s p dev sector mem)
  | resumeGet {p b : Nat} {dev : UInt8} {sector : UInt64} {mem : Option Nat} :
    p < s.numProcs → (s.procs p).state = .running → (s.procs p).pc = .getBio dev sector b →
      Step s (.resume p mem) (bioGetRound s p dev sector b)
  | resumeRead {p b : Nat} {mem : Option Nat} :
    p < s.numProcs → (s.procs p).state = .running → (s.procs p).pc = .readBio b →
      Step s (.resume p mem) (s.setProc p { s.procs p with pc := .user }, none)
  | read {p b : Nat} :
    p < s.numProcs → (s.procs p).state = .running → (s.procs p).pc = .user → b ∈ (s.procs p).held →
      Step s (.read p b) (bioRead s p b, none)
  | release {p b : Nat} :
    p < s.numProcs → (s.procs p).state = .running → (s.procs p).pc = .user → b ∈ (s.procs p).held →
      Step s (.release p b) (bioRelease s p b, none)
  | complete {b : Nat} {error : Bool} {s' : State} :
    b ∈ s.io → ideReadComplete s b error = some s' → Step s (.complete b error) (s', none)

/-- The states of the runs of `n` processes whose steps all satisfy `P`, with the bios that `bio_get` has
returned in the run. -/
inductive Run (P : State → Event → Prop) (n : Nat) : State → List Nat → Prop
  | init : Run P n (bioInitialize n) []
  | step {s : State} {ret : List Nat} {e : Event} {out : State × Option Nat} :
    Run P n s ret → P s e → Step s e out → Run P n out.1 (out.2.toList ++ ret)

/-- The step that an event names, `none` when the event cannot happen. -/
def exec (s : State) : Event → Option (State × Option Nat)
  | .get p dev sector mem =>
    if p < s.numProcs ∧ (s.procs p).state = .running ∧ (s.procs p).pc = .user then
      some (bioGet s p dev sector mem)
    else none
  | .resume p mem =>
    if p < s.numProcs ∧ (s.procs p).state = .running then
      match (s.procs p).pc with
      | .user => none
      | .allocBio dev sector => some (allocBioRound s p dev sector mem)
      | .getBio dev sector b => some (bioGetRound s p dev sector b)
      | .readBio _ => some (s.setProc p { s.procs p with pc := .user }, none)
    else none
  | .read p b =>
    if p < s.numProcs ∧ (s.procs p).state = .running ∧ (s.procs p).pc = .user ∧ b ∈ (s.procs p).held then
      some (bioRead s p b, none)
    else none
  | .release p b =>
    if p < s.numProcs ∧ (s.procs p).state = .running ∧ (s.procs p).pc = .user ∧ b ∈ (s.procs p).held then
      some (bioRelease s p b, none)
    else none
  | .complete b error => if b ∈ s.io then (ideReadComplete s b error).map fun s' => (s', none) else none

theorem exec_step {s : State} {e : Event} {out : State × Option Nat} (h : exec s e = some out) : Step s e out := by
  cases e with
  | get p dev sector mem =>
    simp only [exec, Option.ite_none_right_eq_some, Option.some.injEq] at h
    obtain ⟨⟨hn, hrun, hpc⟩, rfl⟩ := h
    exact .get hn hrun hpc
  | resume p mem =>
    simp only [exec, Option.ite_none_right_eq_some] at h
    obtain ⟨⟨hn, hrun⟩, h⟩ := h
    cases hpc : (s.procs p).pc with
    | user => simp [hpc] at h
    | allocBio dev sector => rw [hpc] at h; obtain rfl := Option.some.inj h; exact .resumeAlloc hn hrun hpc
    | getBio dev sector b => rw [hpc] at h; obtain rfl := Option.some.inj h; exact .resumeGet hn hrun hpc
    | readBio b => rw [hpc] at h; obtain rfl := Option.some.inj h; exact .resumeRead hn hrun hpc
  | read p b =>
    simp only [exec, Option.ite_none_right_eq_some, Option.some.injEq] at h
    obtain ⟨⟨hn, hrun, hpc, hb⟩, rfl⟩ := h
    exact .read hn hrun hpc hb
  | release p b =>
    simp only [exec, Option.ite_none_right_eq_some, Option.some.injEq] at h
    obtain ⟨⟨hn, hrun, hpc, hb⟩, rfl⟩ := h
    exact .release hn hrun hpc hb
  | complete b error =>
    simp only [exec, Option.ite_none_right_eq_some, Option.map_eq_some_iff] at h
    obtain ⟨hb, s', hs', rfl⟩ := h
    exact .complete hb hs'

/-- The run of `n` processes through the events, with the bios that were returned. -/
def execAll (s : State) (ret : List Nat) : List Event → Option (State × List Nat)
  | [] => some (s, ret)
  | e :: es => match exec s e with
    | some out => execAll out.1 (out.2.toList ++ ret) es
    | none => none

theorem Run.execAll {P : State → Event → Prop} {n : Nat} {s s' : State} {ret ret' : List Nat} {es : List Event}
    (hP : ∀ s e, P s e) (hr : Run P n s ret) (h : execAll s ret es = some (s', ret')) : Run P n s' ret' := by
  induction es generalizing s ret with
  | nil =>
    obtain ⟨rfl, rfl⟩ := Prod.mk.inj (Option.some.inj h)
    exact hr
  | cons e es ih =>
    rw [Bio.execAll] at h
    split at h
    · rename_i out hout
      exact ih (.step hr (hP _ _) (exec_step hout)) h
    · cases h

end Airix.Bio
