import Airix.Bio.Locking

/-!
# Cached reads are coherent

The block cache with the contents of its buffers. The disk does not change; a request in flight may write
anything to its buffer, and the sectors are there when it is completed without error. `reqs b` is the request
that `bio_read` made for the bio `b` last.
-/

namespace Airix.Bio

/-- The bytes of a page. -/
def PageData : Type := Fin 4096 → UInt8

/-- The eight sectors of a key. -/
def sectors (disk : UInt8 → Nat → UInt8) (dev : UInt8) (sector : UInt64) : PageData :=
  fun i => disk dev (sector.toNat * sectorSize + i)

/-- What `bio_read` puts into its `struct ide_dma_io`. -/
structure Request where
  drive : UInt8
  start : UInt64
  buffer : Nat
deriving DecidableEq, Repr

structure Cached where
  state : State
  mem : Nat → PageData
  reqs : Nat → Request

def Cached.store (c : Cached) (addr : Nat) (page : PageData) : Cached :=
  { c with mem := Function.update c.mem addr page }

/-- The page allocator gives out no page that is a buffer already. -/
def FreshBuffer (s : State) : Event → Prop
  | .get _ _ _ (some addr) => ∀ b < s.count, (s.bios b).buffer ≠ addr
  | .resume _ (some addr) => ∀ b < s.count, (s.bios b).buffer ≠ addr
  | _ => True

/-- The request of `bio_read(b)`. -/
def readRequest (s : State) (b : Nat) : Request := ⟨(s.bios b).dev, (s.bios b).sector, (s.bios b).buffer⟩

/-- One step of a process, of the disk or of the rest of the kernel. -/
inductive CStep (disk : UInt8 → Nat → UInt8) (c : Cached) : Cached → Prop
  | get {p : Nat} {dev : UInt8} {sector : UInt64} {mem : Option Nat} {out : State × Option Nat} :
    Step c.state (.get p dev sector mem) out → FreshBuffer c.state (.get p dev sector mem) →
      CStep disk c { c with state := out.1 }
  | resume {p : Nat} {mem : Option Nat} {out : State × Option Nat} :
    Step c.state (.resume p mem) out → FreshBuffer c.state (.resume p mem) → CStep disk c { c with state := out.1 }
  | release {p b : Nat} {out : State × Option Nat} :
    Step c.state (.release p b) out → CStep disk c { c with state := out.1 }
  | read {p b : Nat} {out : State × Option Nat} : Step c.state (.read p b) out →
    CStep disk c { c with
      state := out.1
      reqs := if (c.state.bios b).updated then c.reqs else Function.update c.reqs b (readRequest c.state b) }
  /-- The controller writes to memory. -/
  | dma {b : Nat} (page : PageData) : b ∈ c.state.io → CStep disk c (c.store (c.reqs b).buffer page)
  | complete {b : Nat} {out : State × Option Nat} : Step c.state (.complete b false) out →
    CStep disk c ({ c with state := out.1 }.store (c.reqs b).buffer
      (sectors disk (c.reqs b).drive (c.reqs b).start))
  | fail {b : Nat} {out : State × Option Nat} (page : PageData) : Step c.state (.complete b true) out →
    CStep disk c ({ c with state := out.1 }.store (c.reqs b).buffer page)
  /-- Memory that is no buffer. -/
  | other {addr : Nat} (page : PageData) : (∀ b < c.state.count, (c.state.bios b).buffer ≠ addr) →
    CStep disk c (c.store addr page)

inductive CRun (disk : UInt8 → Nat → UInt8) (n : Nat) : Cached → Prop
  | init (mem : Nat → PageData) (reqs : Nat → Request) : CRun disk n ⟨bioInitialize n, mem, reqs⟩
  | step {c c' : Cached} : CRun disk n c → CStep disk c c' → CRun disk n c'

/-! ### What a step does to keys, buffers and the flag -/

def dataOf (x : Bio) : Nat × Bool × UInt8 × UInt64 := (x.buffer, x.updated, x.dev, x.sector)

structure SameData (s s' : State) : Prop where
  data : ∀ b, dataOf (s'.bios b) = dataOf (s.bios b)
  count : s'.count = s.count
  io : s'.io = s.io

/-- Nothing changes, an unreferenced bio gets a new key, or a new bio comes. -/
inductive DataStep (s s' : State) (buffer : Option Nat) : Prop
  | same : SameData s s' → DataStep s s' buffer
  | rekey (b : Nat) (dev : UInt8) (base : UInt64) : (s.bios b).reffed = false →
    dataOf (s'.bios b) = ((s.bios b).buffer, false, dev, base) → (∀ c, c ≠ b → dataOf (s'.bios c) = dataOf (s.bios c)) →
    s'.count = s.count → s'.io = s.io → DataStep s s' buffer
  | fresh (addr : Nat) (dev : UInt8) (base : UInt64) : buffer = some addr →
    dataOf (s'.bios s.count) = (addr, false, dev, base) →
    (∀ c, c ≠ s.count → dataOf (s'.bios c) = dataOf (s.bios c)) →
    s'.count = s.count + 1 → s'.io = s.io → DataStep s s' buffer

section
variable {s s' : State} {p b : Nat} {dev : UInt8} {sector : UInt64} {mem : Option Nat}

theorem SameData.trans {s₁ s₂ s₃ : State} (h : SameData s₁ s₂) (h' : SameData s₂ s₃) : SameData s₁ s₃ :=
  ⟨fun b => (h'.data b).trans (h.data b), h'.count.trans h.count, h'.io.trans h.io⟩

theorem sameData_sleepWaitBio (s : State) (m : Node) (p : Nat) (pc : Pc) : SameData s (sleepWaitBio s m p pc) := by
  obtain ⟨-, hbios, -, hcount, hio, -⟩ := Sim.sleepWaitBio_data s m p pc
  refine ⟨fun b => ?_, hcount, hio⟩
  obtain ⟨o, he⟩ := hbios b
  rw [he]; rfl

theorem sameData_takeBio (s : State) (p b : Nat) (sector : UInt64) : SameData s (takeBio s p b sector) := by
  refine ⟨fun c => ?_, rfl, rfl⟩
  by_cases e : c = b
  · subst e; simp [takeBio, State.setBio, State.setProc, dataOf]
  · simp [takeBio, State.setBio, State.setProc, e]

theorem sameData_popSleep (s : State) (m : Node) (p : Nat) : SameData s (popSleep s m p) := by
  refine ⟨fun b => ?_, ?_, ?_⟩
  · obtain ⟨o, he⟩ := s.setSleep_bios m (s.procs p).sleep b
    show dataOf ((s.setSleep m (s.procs p).sleep).bios b) = _
    rw [he]; rfl
  · cases m <;> rfl
  · cases m <;> rfl

theorem sameData_bioGetRound (s : State) (p : Nat) (dev : UInt8) (sector : UInt64) (b : Nat) :
    SameData s (bioGetRound s p dev sector b).1 := by
  unfold bioGetRound
  split
  · exact sameData_sleepWaitBio s _ p _
  · exact sameData_takeBio s p b sector

theorem dataStep_allocBioRound (s : State) (p : Nat) (dev : UInt8) (sector : UInt64) (mem : Option Nat)
    (hunused : ∀ b, findUnusedBio s = some b → (s.bios b).reffed = false) :
    DataStep s (allocBioRound s p dev sector mem).1 mem := by
  unfold allocBioRound
  split
  · rename_i b s₁ hslab
    obtain ⟨-, hslab⟩ := (Option.ite_none_right_eq_some).mp hslab
    obtain ⟨addr, rfl, he⟩ := Option.map_eq_some_iff.mp hslab
    obtain ⟨rfl, rfl⟩ := Prod.mk.inj he
    have h₁ := sameData_bioGetRound (rekey { s.setBio s.count { zeroBio with buffer := addr } with
      links := (s.links.setNext (.bio s.count) none).setPrev (.bio s.count) none
      count := s.count + 1 } s.count dev (baseSector sector)) p dev sector s.count
    refine .fresh addr dev (baseSector sector) rfl ((h₁.data _).trans ?_) (fun c hc => (h₁.data c).trans ?_) h₁.count
      h₁.io
    · simp [rekey, State.setBio, dataOf]
    · simp [rekey, State.setBio, hc]
  · split
    · rename_i b hb
      have h₁ := sameData_bioGetRound (rekey s b dev (baseSector sector)) p dev sector b
      refine .rekey b dev (baseSector sector) (hunused b hb) ((h₁.data _).trans ?_)
        (fun c hc => (h₁.data c).trans ?_) h₁.count h₁.io
      · simp [rekey, State.setBio, dataOf]
      · simp [rekey, State.setBio, hc]
    · exact .same (sameData_sleepWaitBio s _ p _)

theorem sameData_bioRelease (s : State) (p b : Nat) : SameData s (bioRelease s p b) := by
  have h₁ : SameData s ((s.setBio b { s.bios b with reffed := false }).setProc p
      { (s.setBio b { s.bios b with reffed := false }).procs p with
        held := ((s.setBio b { s.bios b with reffed := false }).procs p).held.erase b }) := by
    refine ⟨fun c => ?_, rfl, rfl⟩
    by_cases e : c = b
    · subst e; simp [State.setBio, State.setProc, dataOf]
    · simp [State.setBio, State.setProc, e]
  unfold bioRelease
  dsimp only
  split
  · exact h₁
  · refine h₁.trans ?_
    unfold wakeUpSleepProcess
    split
    · exact sameData_popSleep _ _ _
    · split
      · exact sameData_popSleep _ _ _
      · exact ⟨fun _ => rfl, rfl, rfl⟩

theorem dataOf_inj {x y : Bio} (h : dataOf x = dataOf y) :
    x.buffer = y.buffer ∧ x.updated = y.updated ∧ x.dev = y.dev ∧ x.sector = y.sector := by
  unfold dataOf at h
  simpa using h

/-- What `bio_get`, `bio_release` and the end of `bio_read` do. -/
theorem Step.dataStep {a : Abs} (hsim : Sim s a) {e : Event} {out : State × Option Nat}
    (hs : Step s e out) : (∀ p dev sector mem, e = .get p dev sector mem → DataStep s out.1 mem) ∧
      (∀ p mem, e = .resume p mem → DataStep s out.1 mem) ∧ (∀ p b, e = .release p b → SameData s out.1) := by
  have hunused : ∀ b, findUnusedBio s = some b → (s.bios b).reffed = false := by
    intro b hb
    rw [hsim.findUnusedBio] at hb
    have := List.find?_some hb
    rw [hsim.reffed]
    simpa using this
  refine ⟨?_, ?_, ?_⟩
  · rintro p dev sector mem rfl
    cases hs with
    | get =>
      unfold bioGet
      split
      · exact .same (sameData_bioGetRound s p dev sector _)
      · exact dataStep_allocBioRound s p dev sector mem hunused
  · rintro p mem rfl
    cases hs with
    | resumeAlloc => exact dataStep_allocBioRound s p _ _ mem hunused
    | resumeGet => exact .same (sameData_bioGetRound s p _ _ _)
    | resumeRead => exact .same ⟨fun _ => rfl, rfl, rfl⟩
  · rintro p b rfl
    cases hs with
    | release => exact sameData_bioRelease s p b

end

/-! ### The invariant -/

structure CInv (disk : UInt8 → Nat → UInt8) (c : Cached) : Prop where
  updated : ∀ b < c.state.count, (c.state.bios b).updated = true →
    c.mem (c.state.bios b).buffer = sectors disk (c.state.bios b).dev (c.state.bios b).sector
  inflight : ∀ b ∈ c.state.io, (c.state.bios b).updated = false ∧ c.reqs b = readRequest c.state b
  buffers : ∀ b < c.state.count, ∀ b' < c.state.count, (c.state.bios b).buffer = (c.state.bios b').buffer → b = b'

/-- A bio in flight is referenced. -/
theorem Sim.inflight {n : Nat} {s : State} {a : Abs} (h : Sim s a) (ha : AInv n a) {b : Nat} (hb : b ∈ s.io) :
    b < s.count ∧ (s.bios b).reffed = true := by
  obtain ⟨p, l, -, hpc⟩ := ha.reader b (h.io ▸ hb)
  obtain ⟨hm, hr⟩ := ha.held_reffed p b (ha.read_held p b hpc)
  rw [h.count, h.reffed]
  exact ⟨(ha.list_mem b).mp hm, hr⟩

namespace CInv
variable {disk : UInt8 → Nat → UInt8} {c : Cached} {n b : Nat} {a : Abs} {s' : State}

theorem same (h : CInv disk c) (hd : SameData c.state s') : CInv disk { c with state := s' } := by
  have hdata : ∀ b, _ := fun b => dataOf_inj (hd.data b)
  refine ⟨fun b hb hu => ?_, fun b hb => ?_, fun b hb b' hb' he => ?_⟩
  · obtain ⟨h₁, h₂, h₃, h₄⟩ := hdata b
    rw [hd.count] at hb
    rw [h₂] at hu
    show c.mem (s'.bios b).buffer = _
    rw [h₁, h₃, h₄]
    exact h.updated b hb hu
  · obtain ⟨h₁, h₂, h₃, h₄⟩ := hdata b
    rw [hd.io] at hb
    obtain ⟨hu, hr⟩ := h.inflight b hb
    refine ⟨h₂.trans hu, hr.trans ?_⟩
    simp [readRequest, h₁, h₃, h₄]
  · rw [hd.count] at hb hb'
    rw [(hdata b).1, (hdata b').1] at he
    exact h.buffers b hb b' hb' he

theorem dataStep (h : CInv disk c) (hsim : Sim c.state a) (ha : AInv n a) {buffer : Option Nat}
    (hfresh : ∀ addr, buffer = some addr → ∀ b < c.state.count, (c.state.bios b).buffer ≠ addr)
    (hd : DataStep c.state s' buffer) : CInv disk { c with state := s' } := by
  cases hd with
  | same hd => exact h.same hd
  | rekey b dev base href hb hother hcount hio =>
    have hnot : b ∉ c.state.io := fun hm => by
      have := (hsim.inflight ha hm).2
      rw [href] at this
      cases this
    have hbuf : ∀ x, (s'.bios x).buffer = (c.state.bios x).buffer := by
      intro x
      by_cases e : x = b
      · subst e; exact (Prod.mk.inj hb).1
      · exact (dataOf_inj (hother x e)).1
    refine ⟨fun x hx hu => ?_, fun x hx => ?_, fun x hx y hy he => ?_⟩
    · by_cases e : x = b
      · subst e
        rw [show (s'.bios x).updated = false from (Prod.mk.inj (Prod.mk.inj hb).2).1] at hu
        cases hu
      · obtain ⟨h₁, h₂, h₃, h₄⟩ := dataOf_inj (hother x e)
        rw [hcount] at hx
        rw [h₂] at hu
        show c.mem (s'.bios x).buffer = _
        rw [h₁, h₃, h₄]
        exact h.updated x hx hu
    · rw [hio] at hx
      have e : x ≠ b := by rintro rfl; exact hnot hx
      obtain ⟨h₁, h₂, h₃, h₄⟩ := dataOf_inj (hother x e)
      obtain ⟨hu, hr⟩ := h.inflight x hx
      refine ⟨h₂.trans hu, hr.trans ?_⟩
      simp [readRequest, h₁, h₃, h₄]
    · rw [hcount] at hx hy
      rw [hbuf, hbuf] at he
      exact h.buffers x hx y hy he
  | fresh addr dev base haddr hnew hother hcount hio =>
    have hbuf : (s'.bios c.state.count).buffer = addr := (Prod.mk.inj hnew).1
    have hold : ∀ x < c.state.count, (s'.bios x).buffer = (c.state.bios x).buffer := fun x hx =>
      (dataOf_inj (hother x hx.ne)).1
    refine ⟨fun x hx hu => ?_, fun x hx => ?_, fun x hx y hy he => ?_⟩
    · by_cases e : x = c.state.count
      · subst e
        rw [show (s'.bios c.state.count).updated = false from (Prod.mk.inj (Prod.mk.inj hnew).2).1] at hu
        cases hu
      · obtain ⟨h₁, h₂, h₃, h₄⟩ := dataOf_inj (hother x e)
        rw [h₂] at hu
        show c.mem (s'.bios x).buffer = _
        rw [h₁, h₃, h₄]
        exact h.updated x (by simp only [hcount] at hx; omega) hu
    · rw [hio] at hx
      obtain ⟨h₁, h₂, h₃, h₄⟩ := dataOf_inj (hother x (hsim.inflight ha hx).1.ne)
      obtain ⟨hu, hr⟩ := h.inflight x hx
      refine ⟨h₂.trans hu, hr.trans ?_⟩
      simp [readRequest, h₁, h₃, h₄]
    · simp only [hcount] at hx hy
      rcases Nat.lt_succ_iff_lt_or_eq.mp hx with hx | rfl <;> rcases Nat.lt_succ_iff_lt_or_eq.mp hy with hy | rfl
      · rw [hold x hx, hold y hy] at he
        exact h.buffers x hx y hy he
      · rw [hold x hx, hbuf] at he
        exact absurd he (hfresh addr haddr x hx)
      · rw [hold y hy, hbuf] at he
        exact absurd he.symm (hfresh addr haddr y hy)
      · rfl

/-- A write to a page that is not the buffer of an updated bio. -/
theorem store (h : CInv disk c) {addr : Nat} {page : PageData}
    (haddr : ∀ b < c.state.count, (c.state.bios b).updated = true → (c.state.bios b).buffer ≠ addr) :
    CInv disk (c.store addr page) := by
  refine ⟨fun b hb hu => ?_, h.inflight, h.buffers⟩
  show Function.update c.mem addr page (c.state.bios b).buffer = _
  rw [Function.update_of_ne (haddr b hb hu)]
  exact h.updated b hb hu

/-- The buffer of a request in flight belongs to its bio only. -/
theorem buffer_ne (h : CInv disk c) (hsim : Sim c.state a) (ha : AInv n a) (hb : b ∈ c.state.io) :
    ∀ x < c.state.count, (c.state.bios x).updated = true → (c.state.bios x).buffer ≠ (c.reqs b).buffer := by
  intro x hx hu he
  obtain ⟨hf, hr⟩ := h.inflight b hb
  rw [hr] at he
  obtain rfl := h.buffers x hx b (hsim.inflight ha hb).1 he
  rw [hf] at hu
  cases hu

/-- `bio_read` starts a request only for a bio that is not in flight and not updated. -/
theorem read (h : CInv disk c) (hsim : Sim c.state a) (ha : AInv n a) {p : Nat}
    (hrun : (c.state.procs p).state = .running) (hb : b ∈ (c.state.procs p).held) :
    CInv disk { c with
      state := bioRead c.state p b
      reqs := if (c.state.bios b).updated then c.reqs else Function.update c.reqs b (readRequest c.state b) } := by
  by_cases hu : (c.state.bios b).updated = true
  · simp only [bioRead, hu, if_true]
    exact h
  have hf : (c.state.bios b).updated = false := by simpa using hu
  have hnot : b ∉ c.state.io := by
    rw [hsim.io]
    exact ha.notMem_io ((hsim.running_iff p).mp hrun) (hsim.held p ▸ hb)
  -- The request is queued first, and then only the sleep chain changes.
  have hq : CInv disk { c with
      state := { c.state with io := c.state.io ++ [b] }
      reqs := Function.update c.reqs b (readRequest c.state b) } := by
    refine ⟨h.updated, fun x hx => ?_, h.buffers⟩
    rcases List.mem_append.mp hx with hx | hx
    · have e : x ≠ b := fun e => hnot (e ▸ hx)
      show _ ∧ Function.update c.reqs b (readRequest c.state b) x = _
      rw [Function.update_of_ne e]
      exact h.inflight x hx
    · obtain rfl := List.mem_singleton.mp hx
      show _ ∧ Function.update c.reqs x (readRequest c.state x) x = _
      rw [Function.update_self]
      exact ⟨hf, rfl⟩
  simp only [bioRead, hf, Bool.false_eq_true, if_false]
  have hd : SameData { c.state with io := c.state.io ++ [b] }
      (sleepWaitBioComplete { c.state with io := c.state.io ++ [b] } b p) := by
    refine ⟨fun x => ?_, rfl, rfl⟩
    by_cases e : x = b
    · subst e; simp [sleepWaitBioComplete, State.setSleep, State.setBio, State.setProc, dataOf]
    · simp [sleepWaitBioComplete, State.setSleep, State.setBio, State.setProc, e]
  exact hq.same hd

/-- What the completion of a request does apart from waking the reader. -/
theorem sameData_ideReadComplete {s s' : State} {error : Bool} (hc : ideReadComplete s b error = some s') :
    SameData { s.setBio b { s.bios b with updated := !error || (s.bios b).updated } with io := s.io.erase b } s' := by
  unfold ideReadComplete at hc
  split at hc
  · cases hc
  · rename_i p hp
    obtain rfl := Option.some.inj hc
    have hs := sameData_popSleep
      (if error then { s with io := s.io.erase b }
        else ({ s with io := s.io.erase b } : State).setBio b
          { ({ s with io := s.io.erase b } : State).bios b with updated := true }) (.bio b) p
    refine SameData.trans ⟨fun x => ?_, ?_, ?_⟩ hs
    · cases error with
      | true => by_cases e : x = b <;> simp [State.setBio, e]
      | false => by_cases e : x = b <;> simp [State.setBio, e]
    · cases error <;> rfl
    · cases error <;> rfl

/-- The end of a request: the page is in the buffer, and the flag is set only when it has the sectors. -/
theorem finish (h : CInv disk c) (hsim : Sim c.state a) (ha : AInv n a) (hb : b ∈ c.state.io) {error : Bool}
    (hc : ideReadComplete c.state b error = some s') {page : PageData}
    (hpage : error = false → page = sectors disk (c.reqs b).drive (c.reqs b).start) :
    CInv disk ({ c with state := s' }.store (c.reqs b).buffer page) := by
  have hlt := (hsim.inflight ha hb).1
  have hnd : c.state.io.Nodup := hsim.io ▸ ha.io_nodup
  obtain ⟨hf, hreq⟩ := h.inflight b hb
  have hne := h.buffer_ne hsim ha hb
  have hs : CInv disk (Cached.mk { c.state.setBio b { c.state.bios b with updated := !error || (c.state.bios b).updated }
      with io := c.state.io.erase b } (Function.update c.mem (c.reqs b).buffer page) c.reqs) := by
    refine ⟨fun x hx hu => ?_, fun x hx => ?_, fun x hx y hy he => ?_⟩
    · by_cases e : x = b
      · subst e
        have herr : error = false := by simpa [State.setBio, hf] using hu
        rw [hpage herr, hreq]
        simp [State.setBio, readRequest]
      · have hu' : (c.state.bios x).updated = true := by simpa [State.setBio, e] using hu
        simpa [State.setBio, e, Function.update_of_ne (hne x hx hu')] using h.updated x hx hu'
    · obtain ⟨e, hx⟩ := hnd.mem_erase_iff.mp hx
      obtain ⟨hu, hr⟩ := h.inflight x hx
      simp [State.setBio, e, hu, hr, readRequest]
    · refine h.buffers x hx y hy ?_
      have hbuf : ∀ z, (Function.update c.state.bios b { c.state.bios b with
          updated := !error || (c.state.bios b).updated } z).buffer = (c.state.bios z).buffer := by
        intro z
        by_cases e : z = b
        · subst e; simp
        · simp [e]
      rw [← hbuf x, ← hbuf y]
      exact he
  exact hs.same (sameData_ideReadComplete hc)

theorem step (h : CInv disk c) (hsim : Sim c.state a) (ha : AInv n a) {c' : Cached} (hs : CStep disk c c') :
    CInv disk c' := by
  cases hs with
  | @get p dev sector mem out hs hfresh =>
    refine h.dataStep hsim ha ?_ ((hs.dataStep hsim).1 _ _ _ _ rfl)
    rintro addr rfl
    exact hfresh
  | @resume p mem out hs hfresh =>
    refine h.dataStep hsim ha ?_ ((hs.dataStep hsim).2.1 _ _ rfl)
    rintro addr rfl
    exact hfresh
  | release hs => exact h.same ((hs.dataStep hsim).2.2 _ _ rfl)
  | read hs =>
    cases hs with
    | read hn hrun hpc hb => exact h.read hsim ha hrun hb
  | dma page hb => exact h.store (h.buffer_ne hsim ha hb)
  | complete hs =>
    cases hs with
    | complete hb hc => exact h.finish hsim ha hb hc fun _ => rfl
  | fail page hs =>
    cases hs with
    | complete hb hc => exact h.finish hsim ha hb hc nofun
  | other page haddr => exact h.store fun b hb _ => haddr b hb

end CInv

/-- A step does what a step of the cache does, or it leaves the cache alone. -/
theorem CStep.state {disk : UInt8 → Nat → UInt8} {c c' : Cached} (hs : CStep disk c c') :
    c'.state = c.state ∨ ∃ e out, Step c.state e out ∧ c'.state = out.1 := by
  cases hs with
  | get hs _ => exact .inr ⟨_, _, hs, rfl⟩
  | resume hs _ => exact .inr ⟨_, _, hs, rfl⟩
  | release hs => exact .inr ⟨_, _, hs, rfl⟩
  | read hs => exact .inr ⟨_, _, hs, rfl⟩
  | dma page hb => exact .inl rfl
  | complete hs => exact .inr ⟨_, _, hs, rfl⟩
  | fail page hs => exact .inr ⟨_, _, hs, rfl⟩
  | other page haddr => exact .inl rfl

theorem CRun.inv {disk : UInt8 → Nat → UInt8} {n : Nat} {c : Cached} (hr : CRun disk n c) :
    c.state.numProcs = n ∧ ∃ a, AInv n a ∧ Sim c.state a ∧ CInv disk c := by
  induction hr with
  | init mem reqs =>
    exact ⟨rfl, .init, AInv.init n, Sim.init n, nofun, nofun, nofun⟩
  | @step c c' _ hs ih =>
    obtain ⟨rfl, a, ha, hsim, hc⟩ := ih
    have hc' := hc.step hsim ha hs
    rcases hs.state with he | ⟨e, out, hstep, he⟩
    · rw [he]
      exact ⟨rfl, a, ha, hsim, hc'⟩
    · obtain ⟨a', ha', hsim'⟩ := hsim.step ha hstep
      rw [he]
      exact ⟨hstep.numProcs, a', ha.step ha', hsim', hc'⟩

/-! ### Coherence -/

/-- The bio that a call of `bio_read` returns for in the step of `e` from `s`, with its result in the state
`s'` after the step; `none` when no call returns. -/
def bioReadResult (s s' : State) : Event → Option (Nat × Bool)
  | .read _ b => if (s.bios b).updated then some (b, (s'.bios b).updated) else none
  | .resume p _ => match (s.procs p).pc with
    | .readBio b => some (b, (s'.bios b).updated)
    | _ => none
  | _ => none

def Cached.HasSectors (disk : UInt8 → Nat → UInt8) (c : Cached) (b : Nat) : Prop :=
  c.mem (c.state.bios b).buffer = sectors disk (c.state.bios b).dev (c.state.bios b).sector

structure Coherent (disk : UInt8 → Nat → UInt8) (c : Cached) : Prop where
  updated : ∀ b < c.state.count, (c.state.bios b).updated = true → c.HasSectors disk b
  /-- The controller writes to buffers of referenced bios only. -/
  inflight : ∀ b ∈ c.state.io, ∀ x < c.state.count, (c.state.bios x).buffer = (c.reqs b).buffer →
    (c.state.bios x).reffed = true
  returned : ∀ e out b, Step c.state e out → bioReadResult c.state out.1 e = some (b, true) →
    b < c.state.count ∧ ({ c with state := out.1 } : Cached).HasSectors disk b
  /-- A failed read leaves the flag clear. -/
  failed : ∀ b out, Step c.state (.complete b true) out → (out.1.bios b).updated = false

theorem Sim.held_lt {n : Nat} {s : State} {a : Abs} (h : Sim s a) (ha : AInv n a) {p b : Nat}
    (hb : b ∈ (s.procs p).held) : b < s.count := by
  rw [h.held] at hb
  rw [h.count]
  exact (ha.list_mem b).mp (ha.held_reffed p b hb).1

/-- `bio_read` returns true for an updated bio only. -/
theorem CInv.returned {disk : UInt8 → Nat → UInt8} {c : Cached} {n b : Nat} {a : Abs} (h : CInv disk c)
    (hsim : Sim c.state a) (ha : AInv n a) {e : Event} {out : State × Option Nat} (hs : Step c.state e out)
    (hres : bioReadResult c.state out.1 e = some (b, true)) :
    b < c.state.count ∧ ({ c with state := out.1 } : Cached).HasSectors disk b := by
  cases hs with
  | get => cases hres
  | @resumeAlloc p dev sector mem hn hrun hpc => simp [bioReadResult, hpc] at hres
  | @resumeGet p b' dev sector mem hn hrun hpc => simp [bioReadResult, hpc] at hres
  | @resumeRead p b' mem hn hrun hpc =>
    simp only [bioReadResult, hpc, Option.some.injEq, Prod.mk.injEq] at hres
    obtain ⟨rfl, hu⟩ := hres
    have hlt : b' < c.state.count := hsim.held_lt ha (hsim.held p ▸ ha.read_held p b' (hsim.pc p ▸ hpc))
    exact ⟨hlt, h.updated b' hlt hu⟩
  | @read p b' hn hrun hpc hb =>
    simp only [bioReadResult, Option.ite_none_right_eq_some, Option.some.injEq, Prod.mk.injEq] at hres
    obtain ⟨hu, rfl, -⟩ := hres
    have hlt := hsim.held_lt ha hb
    refine ⟨hlt, ?_⟩
    simpa [Cached.HasSectors, bioRead, hu] using h.updated b' hlt hu
  | release => cases hres
  | complete => cases hres

theorem coherent_reads {disk : UInt8 → Nat → UInt8} {n : Nat} {c : Cached} (hr : CRun disk n c) :
    Coherent disk c := by
  obtain ⟨rfl, a, ha, hsim, hc⟩ := hr.inv
  refine ⟨hc.updated, fun b hb x hx he => ?_, fun e out b hs hres => hc.returned hsim ha hs hres,
    fun b out hs => ?_⟩
  · obtain ⟨hlt, href⟩ := hsim.inflight ha hb
    rw [(hc.inflight b hb).2] at he
    obtain rfl := hc.buffers x hx b hlt he
    exact href
  · cases hs with
    | complete hb hcomp =>
      have hdata := (CInv.sameData_ideReadComplete hcomp).data b
      obtain ⟨-, hu, -, -⟩ := dataOf_inj hdata
      rw [hu]
      simpa [State.setBio] using (hc.inflight b hb).1

/-- The runs of the cache with fresh buffers are the runs with contents. -/
theorem Run.cached (disk : UInt8 → Nat → UInt8) {n : Nat} {s : State} {ret : List Nat}
    (hr : Run FreshBuffer n s ret) : ∃ c, CRun disk n c ∧ c.state = s := by
  induction hr with
  | init => exact ⟨_, .init (fun _ _ => 0) (fun _ => ⟨0, 0, 0⟩), rfl⟩
  | @step s ret e out _ hfresh hs ih =>
    obtain ⟨c, hc, rfl⟩ := ih
    cases e with
    | get p dev sector mem => exact ⟨_, .step hc (.get hs hfresh), rfl⟩
    | resume p mem => exact ⟨_, .step hc (.resume hs hfresh), rfl⟩
    | read p b => exact ⟨_, .step hc (.read hs), rfl⟩
    | release p b => exact ⟨_, .step hc (.release hs), rfl⟩
    | complete b error =>
      cases error with
      | false => exact ⟨_, .step hc (.complete hs), rfl⟩
      | true => exact ⟨_, .step hc (.fail (fun _ => 0) hs), rfl⟩

/-- A process reads a bio again after a read of it has failed. -/
theorem coherent_reads_retried : ∃ c : Cached, (c.state.bios 0).updated = true ∧
    Coherent (fun _ i => UInt8.ofNat i) c := by
  have h₁ : Run FreshBuffer 1 _ _ := .step (e := .get 0 0 0 (some 0x1000)) .init
    (fun b hb => absurd hb (Nat.not_lt_zero b)) (exec_step rfl)
  have h₂ : Run FreshBuffer 1 _ _ := .step (e := .read 0 0) h₁ trivial (exec_step rfl)
  have h₃ : Run FreshBuffer 1 _ _ := .step (e := .complete 0 true) h₂ trivial (exec_step rfl)
  have h₄ : Run FreshBuffer 1 _ _ := .step (e := .resume 0 none) h₃ trivial (exec_step rfl)
  have h₅ : Run FreshBuffer 1 _ _ := .step (e := .read 0 0) h₄ trivial (exec_step rfl)
  have h₆ : Run FreshBuffer 1 _ _ := .step (e := .complete 0 false) h₅ trivial (exec_step rfl)
  obtain ⟨c, hc, he⟩ := h₆.cached fun _ i => UInt8.ofNat i
  exact ⟨c, by rw [he]; rfl, coherent_reads hc⟩

end Airix.Bio
