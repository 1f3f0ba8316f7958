import Airix.Proc.Alloc
import Airix.Proc.Copy
import Airix.Proc.Release

/-!
# Making a process

`proc_exec` and `proc_clone` as a whole: either there is one process more, with a complete space of frames that were
free before, or everything that was allocated went back.
-/

namespace Airix.Proc
open Exec (After)

section
variable {freeAddr entriesAddr : Nat} {entries : Array Pmm.MmapEntry} {E : Env} {m m' : Machine} {x : Space}

/-! ### A space that was not completed -/

theorem Space.card_notUser_eq_zero : (x.places.filter fun a => ¬ a.User).card = 0 ↔ x.AllUser := by
  rw [Finset.card_eq_zero, Finset.filter_eq_empty_iff]
  exact forall₂_congr fun _ _ => not_not

theorem Space.lost_eq_empty (h : x.AllUser) : x.lost = ∅ :=
  Set.eq_empty_of_forall_notMem fun _ ⟨a, ha, hu, _⟩ => hu (h a ha)

theorem Env.without_empty (E : Env) : E.without ∅ = E := by
  unfold Env.without
  simp

/-- The places from `KERNEL_BASE` on are what `proc_free` does not find. -/
theorem Space.Sound.counted (hx : x.Sound) {w : Nat → Nat} :
    (x.restrict w).Counted (x.places.filter fun a => ¬ a.User).card := by
  show x.proc.memPages = u32 ((x.places.filter Place.User).card + _)
  rw [Finset.card_filter_add_card_filter_not, hx.pages]

theorem Unfinished.whole {p : Process} (h : Unfinished p x) {w : Nat → Nat} : (x.restrict w).Whole := by
  rcases h with rfl | ⟨hx, -⟩
  · refine ⟨fun a ha => ?_, fun ha => ?_, rfl, .inr ⟨rfl, rfl⟩⟩
    · exact absurd (Space.mem_restrict.mp ha).1 (Finset.notMem_empty a)
    · exact absurd (Space.mem_restrict.mp ha).1 (Finset.notMem_empty _)
  · refine ⟨hx.linked.restrict, fun ha => hx.hand (Space.mem_restrict.mp ha).1, rfl, .inl ⟨?_, hx.pageDir⟩⟩
    exact Space.mem_restrict.mpr ⟨hx.dir, trivial⟩

theorem Unfinished.limit {p : Process} (h : Unfinished p x) : x.limit = numPde := by
  rcases h with rfl | ⟨hx, -⟩
  · rfl
  · exact hx.limit

theorem Unfinished.pid {p : Process} (h : Unfinished p x) : x.proc.pid = p.pid := by
  rcases h with rfl | ⟨-, hp⟩
  · rfl
  · exact hp

theorem Unfinished.counted {p : Process} (h : Unfinished p x) (hp : p.memPages = 0) {w : Nat → Nat} :
    (x.restrict w).Counted (x.places.filter fun a => ¬ a.User).card := by
  rcases h with rfl | ⟨hx, -⟩
  · exact hp
  · exact hx.counted

/-- `proc_free` after a failure returns if there is nothing from `KERNEL_BASE` on, and only then. -/
theorem Unfinished.procFree_spec (h : Rep freeAddr entriesAddr entries E m x) (hw : WindowOk freeAddr entriesAddr entries)
    {p : Process} (hx : Unfinished p x) (hp : p.memPages = 0) :
    (∀ u m', (procFree E.owner).run m = .ok (u, m') → x.AllUser ∧ Freed E p.pid m') ∧
    (x.AllUser → (∃ bytes, E.live E.owner = some ⟨.created E.start.procCache, bytes⟩) →
      ∃ r, (procFree E.owner).run m = .ok r) := by
  have hspec := (h.restrict hx.limit).procFree_spec hw hx.whole (hx.counted hp)
  have hiff : u32 (x.places.filter fun a => ¬ a.User).card = 0 ↔ x.AllUser := by
    have hle : (x.places.filter fun a => ¬ a.User).card ≤ 0x40000 := (Finset.card_filter_le _ _).trans (h.card_le hw)
    rw [u32_of_lt (by omega), Space.card_notUser_eq_zero]
  refine ⟨fun u m' hr => ?_, fun hall hlive => hspec.2 (hiff.mpr hall) hlive⟩
  obtain ⟨h0, hfreed⟩ := hspec.1 u m' hr
  have hall := hiff.mp h0
  rw [Space.lost_eq_empty hall, Env.without_empty] at hfreed
  have hpid : (x.restrict (m.state.mem (x.frame .dir))).proc.pid = p.pid := hx.pid
  rw [hpid] at hfreed
  exact ⟨hall, hfreed⟩

/-! ### The outcome -/

/-- The list after `sched_add`. -/
def schedAdded (l : Links (Option Nat)) (o : Nat) : Links (Option Nat) :=
  let first := l.next none
  let l := (l.setNext (some o) first).setPrev (some o) (first.bind l.prev)
  let l := match first with
    | some first => l.setPrev first (some (some o))
    | none => l
  l.setNext none (some (some o))

theorem schedAdd_run (o : Nat) (m : Machine) : (schedAdd o).run m = .ok ((), { m with state := { m.state with
    sched := schedAdded m.state.sched o } }) := update_ok.mpr rfl

/-- There is one process more. -/
structure Made (s s' : State) (o pid : Nat) (z : Space) : Prop where
  none : s.procs o = none
  bit : s.pidMap pid = false
  lt : s.pidGen < procMaxNum → pid < procMaxNum
  gen : s.pidGen < procMaxNum → s'.pidGen < procMaxNum
  settled : Settled s' o z
  pid_eq : z.proc.pid = pid
  state : z.proc.state = .running
  others : ∀ o', o' ≠ o → s'.procs o' = s.procs o'
  pidMap : s'.pidMap = Function.update s.pidMap pid true
  mem : ∀ f, ¬ Pmm.FreePage s.slab.pmm f → s'.mem f = s.mem f
  fresh : ∀ a ∈ z.places, Pmm.FreePage s.slab.pmm (z.frame a)
  free : ∀ f, Pmm.FreePage s'.slab.pmm f → Pmm.FreePage s.slab.pmm f
  pgDir : s'.pgDir = s.pgDir
  procCache : s'.procCache = s.procCache
  sched : s'.sched = schedAdded s.sched o

/-- There is none, and nothing is left of it. -/
structure Unmade (s s' : State) : Prop where
  gen : s.pidGen < procMaxNum → s'.pidGen < procMaxNum
  procs : s'.procs = s.procs
  pidMap : s'.pidMap = s.pidMap
  mem : ∀ f, ¬ Pmm.FreePage s.slab.pmm f → s'.mem f = s.mem f
  free : ∀ f, Pmm.FreePage s'.slab.pmm f → Pmm.FreePage s.slab.pmm f
  pgDir : s'.pgDir = s.pgDir
  procCache : s'.procCache = s.procCache
  sched : s'.sched = s.sched

theorem NotAllocated.unmade (h : NotAllocated m m') : Unmade m.state m'.state :=
  ⟨h.gen, h.procs, h.pidMap, fun f _ => by rw [h.mem], h.free, h.pgDir, h.procCache, h.sched⟩

variable {live : Nat → Option Slab.Live} {frames : Finset (Nat × Nat)} {o pid : Nat} {m₁ m₂ : Machine}

/-- A new process, before anything is done with it. -/
theorem Allocated.rep (h : Allocated freeAddr entriesAddr entries m m₁ o live frames pid) :
    Rep freeAddr entriesAddr entries (.fresh live o m₁.state) m₁ (Space.new (newProcess pid)) :=
  Rep.new h.inv.run (by rw [h.procs, Function.update_self])

theorem Allocated.isLive (h : Allocated freeAddr entriesAddr entries m m₁ o live frames pid) :
    ∃ bytes, live o = some ⟨.created m₁.state.procCache, bytes⟩ :=
  h.inv.procs o (newProcess pid) (by rw [h.procs, Function.update_self])

theorem Allocated.unmade (h : Allocated freeAddr entriesAddr entries m m₁ o live frames pid)
    (hf : Freed (.fresh live o m₁.state) (newProcess pid).pid m₂) : Unmade m.state m₂.state := by
  refine ⟨fun hg => by rw [hf.pidGen]; exact h.gen hg, ?_, ?_, fun f hn => ?_, fun f hn => h.free f ((hf.free f).mp hn), ?_, ?_, ?_⟩
  · rw [hf.procs]
    show Function.update m₁.state.procs o Option.none = _
    rw [h.procs, Function.update_idem, Function.update_eq_self_iff]
    exact h.none.symm
  · have hne : ¬ (newProcess pid).pid = -1 := by simp [newProcess]
    rw [hf.pidMap, if_neg hne]
    show Function.update m₁.state.pidMap pid false = _
    rw [h.pidMap, Function.update_idem, Function.update_eq_self_iff]
    exact h.bit.symm
  · rw [hf.kept f fun hm => hn (h.free f hm)]
    show m₁.state.mem f = _
    rw [h.mem]
  · exact hf.pgDir.trans h.pgDir
  · exact hf.procCache.trans h.procCache
  · exact hf.sched.trans h.sched

/-- The last steps: the fields of the process, and the scheduler's list. -/
theorem Allocated.made (h : Allocated freeAddr entriesAddr entries m m₁ o live frames pid)
    (hw : WindowOk freeAddr entriesAddr entries) (hk : ¬ Pmm.FreePage m.state.slab.pmm (Slab.frame m.state.pgDir))
    {d : Env × Space} (hd : Finished (.fresh live o m₁.state) x d)
    (hcomplete : d.2.Complete (m₁.state.mem (Slab.frame m₁.state.pgDir))) (hr : RepIn freeAddr entriesAddr entries m₂ d)
    {p : Process} (hdir : p.pageDir = d.2.proc.pageDir) (hpid : p.pid = pid) (hstate : p.state = .running) {s' : State}
    (hs' : s' = { m₂.state with
      procs := Function.update m₂.state.procs o (some p), sched := schedAdded m₂.state.sched o }) :
    Made m.state s' o pid (d.2.setProc p) := by
  subst hs'
  have hE := hd.1
  have howner : d.1.owner = o := by rw [hE]; rfl
  have hstart : d.1.start = m₁.state := by rw [hE]; rfl
  have hfree : ∀ f ∈ d.1.free, Pmm.FreePage m.state.slab.pmm f := by
    rw [hE]
    exact fun f hf => h.free f hf.1
  have hkept : ∀ f, ¬ Pmm.FreePage m.state.slab.pmm f → f ∈ d.1.kept := by
    rw [hE]
    exact fun f hf hf' => hf (h.free f hf')
  have hpgDir : Slab.frame d.1.start.pgDir ∈ d.1.kept := by
    rw [hstart, h.pgDir]
    exact hkept _ hk
  have hset : Settled m₂.state d.1.owner d.2 := by
    refine Rep.settled hr hw ?_ hpgDir
    rw [hstart]
    exact hcomplete
  have hrest := Rep.rest hr
  rw [hstart] at hrest
  refine ⟨h.none, h.bit, h.lt, fun hg => ?_, ?_, hpid, hstate, fun o' ho' => ?_, ?_, fun f hf => ?_, fun a ha => ?_,
    fun f hf => ?_, ?_, ?_, ?_⟩
  · dsimp only
    rw [hrest.pidGen]
    exact h.gen hg
  · rw [howner] at hset
    exact hset.setProc hdir (Function.update_self _ _ _) rfl rfl rfl
  · dsimp only
    rw [Function.update_of_ne ho', Rep.others hr o' (by rw [howner]; exact ho'), hstart, h.procs, Function.update_of_ne ho']
  · dsimp only
    rw [hrest.pidMap, h.pidMap]
  · dsimp only
    rw [Rep.kept hr f (hkept f hf), hstart, h.mem]
  · exact hfree _ (Rep.mem_free hr a ha)
  · exact hfree f ((Rep.free hr f).mp hf).1
  · exact hrest.pgDir.trans h.pgDir
  · exact hrest.procCache.trans h.procCache
  · dsimp only
    rw [hrest.sched, h.sched]

/-- `z` is what is left of `x` below `KERNEL_BASE`. -/
structure Space.Remains (x z : Space) : Prop where
  places : z.places = x.places.filter Place.User
  flag : ∀ a : Place, z.flag a = if a.User then x.flag a else none
  words : ∀ a, a ≠ .dir → z.words a = x.words a
  memPages : z.proc.memPages = x.proc.memPages

theorem Finished.proc {d : Env × Space} (h : Finished E x d) : d.2.proc = x.proc := by
  obtain ⟨-, w, w', he, -⟩ := h
  rw [he]
  rfl

theorem Finished.remains {d : Env × Space} (h : Finished E x d) {p : Process} (hp : p.memPages = x.proc.memPages) :
    x.Remains (d.2.setProc p) := by
  obtain ⟨-, w, w', he, -⟩ := h
  rw [he]
  refine ⟨rfl, fun a => rfl, fun a ha => ?_, hp⟩
  simp [Space.restrict, ha]

/-- Another process is there, and is not the new one. -/
theorem Allocated.source (h : Allocated freeAddr entriesAddr entries m m₁ o live frames pid) {parent : Nat} {v : Space}
    (hv : Settled m.state parent v) : Source (.fresh live o m₁.state) parent v := by
  have hne : parent ≠ o := by
    rintro rfl
    have := hv.proc
    rw [h.none] at this
    cases this
  refine ⟨hv.congr ?_ (fun a _ => by rw [show (Env.fresh live o m₁.state).start.mem = m.state.mem from h.mem])
    (fun a hav hf => (hv.used a hav).2.2 (h.free _ hf)) h.pgDir ?_, hne, fun a hav hf => (hv.used a hav).2.2 (h.free _ hf)⟩
  · show m₁.state.procs parent = _
    rw [h.procs, Function.update_of_ne hne]
    exact hv.proc
  · show m₁.state.mem _ = _
    rw [h.mem]

theorem Allocated.proc_new (_ : Allocated freeAddr entriesAddr entries m m₁ o live frames pid) {d : Env × Space}
    (hd : Finished (.fresh live o m₁.state) x d) (hr : RepIn freeAddr entriesAddr entries m₂ d) :
    m₂.state.procs o = some d.2.proc := by
  have := Rep.proc hr
  rwa [show d.1.owner = o by rw [hd.1]; rfl] at this

theorem Allocated.proc_kept (_ : Allocated freeAddr entriesAddr entries m m₁ o live frames pid) {d : Env × Space}
    (hd : Finished (.fresh live o m₁.state) x d) (hr : RepIn freeAddr entriesAddr entries m₂ d) {parent : Nat} {v : Space}
    (hv : Source (.fresh live o m₁.state) parent v) : m₂.state.procs parent = some v.proc := by
  rw [Rep.others hr parent (by rw [show d.1.owner = o by rw [hd.1]; rfl]; exact hv.ne), hd.1]
  exact hv.proc

/-- The end of `proc_exec`. -/
theorem Allocated.exec_end (h : Allocated freeAddr entriesAddr entries m m₁ o live frames pid)
    (hw : WindowOk freeAddr entriesAddr entries) (hk : ¬ Pmm.FreePage m.state.slab.pmm (Slab.frame m.state.pgDir))
    (hx : x.Sound) (hpid : x.proc.pid = pid) {d : Env × Space} (hd : Finished (.fresh live o m₁.state) x d)
    (hr : RepIn freeAddr entriesAddr entries m₂ d) :
    ∃ m', (do modifyProc o fun p => { p with state := .running }
              schedAdd o
              return true : M Bool).run m₂ = .ok (true, m') ∧ m'.state.slab = m₂.state.slab ∧
      Made m.state m'.state o pid (d.2.setProc { d.2.proc with state := .running }) := by
  have hproc := h.proc_new hd hr
  refine ⟨{ m₂ with state := { m₂.state with
    procs := Function.update m₂.state.procs o (some { d.2.proc with state := .running })
    sched := schedAdded m₂.state.sched o } }, ?_, rfl, ?_⟩
  · refine Exec.bind_ok.mpr ⟨(), _, update_ok.mpr rfl, ?_⟩
    rw [hproc]
    exact Exec.bind_ok.mpr ⟨(), _, schedAdd_run o _, rfl⟩
  · refine h.made hw hk hd (hx.complete hd) hr ?_ ?_ ?_ rfl
    · rfl
    · rw [hd.proc]
      exact hpid
    · rfl

/-- The end of `proc_clone`. -/
theorem Allocated.clone_end (h : Allocated freeAddr entriesAddr entries m m₁ o live frames pid)
    (hw : WindowOk freeAddr entriesAddr entries) (hk : ¬ Pmm.FreePage m.state.slab.pmm (Slab.frame m.state.pgDir))
    (hx : x.Sound) (hpid : x.proc.pid = pid) {d : Env × Space} (hd : Finished (.fresh live o m₁.state) x d)
    (hr : RepIn freeAddr entriesAddr entries m₂ d) {parent : Nat} {v : Space}
    (hv : Source (.fresh live o m₁.state) parent v) (hpages : x.proc.memPages = v.proc.memPages) :
    ∃ m', (do let p ← getProc parent
              let c ← getProc o
              if c.memPages ≠ p.memPages then
                throw (.clonePages c.memPages p.memPages)
              else
                modifyProc o fun c =>
                  { c with state := .running, context := p.context, entry := p.entry, kernelStack := p.kernelStack
                           userStack := p.userStack, parent := parent }
                schedAdd o
                return o : M Nat).run m₂ = .ok (o, m') ∧ m'.state.slab = m₂.state.slab ∧
      Made m.state m'.state o pid (d.2.setProc { d.2.proc with
        state := .running, context := v.proc.context, entry := v.proc.entry, kernelStack := v.proc.kernelStack
        userStack := v.proc.userStack, parent := parent }) := by
  have hproc := h.proc_new hd hr
  refine ⟨{ m₂ with state := { m₂.state with
    procs := Function.update m₂.state.procs o (some { d.2.proc with
      state := .running, context := v.proc.context, entry := v.proc.entry, kernelStack := v.proc.kernelStack
      userStack := v.proc.userStack, parent := parent })
    sched := schedAdded m₂.state.sched o } }, ?_, rfl, ?_⟩
  · refine Exec.bind_ok.mpr ⟨_, _, getProc_ok.mpr ⟨h.proc_kept hd hr hv, rfl⟩, ?_⟩
    refine Exec.bind_ok.mpr ⟨_, _, getProc_ok.mpr ⟨hproc, rfl⟩, ?_⟩
    rw [if_neg (by rw [not_not, hd.proc, hpages])]
    refine Exec.bind_ok.mpr ⟨(), _, update_ok.mpr rfl, ?_⟩
    rw [hproc]
    exact Exec.bind_ok.mpr ⟨(), _, schedAdd_run o _, rfl⟩
  · refine h.made hw hk hd (hx.complete hd) hr ?_ ?_ ?_ rfl
    · rfl
    · rw [hd.proc]
      exact hpid
    · rfl

/-- `proc_exec` of a file. -/
theorem OpInv.procExec_ok {cur : Nat} (h : OpInv freeAddr entriesAddr entries Scope.user cur m live frames)
    (hfreed : m.freed = []) (hw : WindowOk freeAddr entriesAddr entries)
    (hk : ¬ Pmm.FreePage m.state.slab.pmm (Slab.frame m.state.pgDir)) {elf : Nat → UInt8} {size : Nat} {b : Bool}
    (hrun : (Proc.procExec elf size).run m = .ok (b, m')) :
    (b = true ∧ ∃ (o pid : Nat) (x z : Space), Made m.state m'.state o pid z ∧ x.Sound ∧ (Bounded elf → x.Rights elf) ∧
      (Bounded elf → (x.AllUser ↔ Space.BelowKernel elf)) ∧ x.places.card ≤ 0x40000 ∧ x.Remains z) ∨
    (b = false ∧ Unmade m.state m'.state) := by
  unfold Proc.procExec at hrun
  obtain ⟨o, m₁, h₁, h₂⟩ := Exec.bind_ok.mp hrun
  rcases h.procAlloc_ok hfreed hw.toBootOk h₁ with ⟨h0, live', frames', pid, ha⟩ | ⟨rfl, ha⟩
  swap
  · rw [if_pos rfl] at h₂
    obtain ⟨rfl, rfl⟩ := Exec.pure_ok.mp h₂
    exact .inr ⟨rfl, ha.unmade⟩
  rw [if_neg h0] at h₂
  obtain ⟨ok, m₂, h₃, h₄⟩ := Exec.bind_ok.mp h₂
  have hk₁ : Slab.frame m₁.state.pgDir ∈ (Env.fresh live' o m₁.state).kept := by
    rw [ha.pgDir]
    exact fun hf => hk (ha.free _ hf)
  obtain ⟨⟨E, y⟩, hy, ⟨rfl, hE, hu, -⟩ | ⟨rfl, x, hx, hpid, hrights, hall, hcard, hd⟩⟩ :=
    ((after_initProcFromElf (E := .fresh live' o m₁.state) (p := newProcess pid) hw rfl hk₁ (t := False)) False.elim m₁
      ha.rep).1 ok m₂ h₃
  · obtain rfl : E = _ := hE
    obtain ⟨_, m₃, h₅, h₆⟩ := Exec.bind_ok.mp h₄
    obtain ⟨rfl, rfl⟩ := Exec.pure_ok.mp h₆
    exact .inr ⟨rfl, ha.unmade ((hu.procFree_spec hy hw rfl).1 _ _ h₅).2⟩
  · obtain ⟨m₃, hend, -, hmade⟩ := ha.exec_end hw hk hx hpid hd hy
    rw [if_pos rfl, hend] at h₄
    obtain ⟨rfl, rfl⟩ := Prod.mk.inj (Except.ok.inj h₄)
    exact .inl ⟨rfl, o, pid, x, _, hmade, hx, hrights, hall, hcard, hd.remains (by rw [← hd.proc])⟩

/-- `proc_clone` of a complete process. -/
theorem OpInv.procClone_ok {cur : Nat} (h : OpInv freeAddr entriesAddr entries Scope.user cur m live frames)
    (hfreed : m.freed = []) (hw : WindowOk freeAddr entriesAddr entries)
    (hk : ¬ Pmm.FreePage m.state.slab.pmm (Slab.frame m.state.pgDir)) {parent r : Nat} {v : Space}
    (hv : Settled m.state parent v) (hrun : (Proc.procClone parent).run m = .ok (r, m')) :
    (r ≠ 0 ∧ ∃ (pid : Nat) (x z : Space), Made m.state m'.state r pid z ∧ x.Sound ∧ Space.CopyOf v ∅ x ∧ x.Remains z ∧
      z.proc = { z.proc with memPages := v.proc.memPages, context := v.proc.context, entry := v.proc.entry
                             kernelStack := v.proc.kernelStack, userStack := v.proc.userStack, parent := parent }) ∨
    (r = 0 ∧ Unmade m.state m'.state) := by
  unfold Proc.procClone at hrun
  obtain ⟨o, m₁, h₁, h₂⟩ := Exec.bind_ok.mp hrun
  rcases h.procAlloc_ok hfreed hw.toBootOk h₁ with ⟨h0, live', frames', pid, ha⟩ | ⟨rfl, ha⟩
  swap
  · rw [if_pos rfl] at h₂
    obtain ⟨rfl, rfl⟩ := Exec.pure_ok.mp h₂
    exact .inr ⟨rfl, ha.unmade⟩
  rw [if_neg h0] at h₂
  obtain ⟨ok, m₂, h₃, h₄⟩ := Exec.bind_ok.mp h₂
  have hk₁ : Slab.frame m₁.state.pgDir ∈ (Env.fresh live' o m₁.state).kept := by
    rw [ha.pgDir]
    exact fun hf => hk (ha.free _ hf)
  have hsource := ha.source hv
  obtain ⟨⟨E, y⟩, hy, ⟨rfl, hE, hu, -⟩ | ⟨rfl, x, hx, hpid, hcopy, hd⟩⟩ :=
    ((after_initProcFromProc (p := newProcess pid) hw hsource rfl hk₁ (t := False)) m₁ ha.rep).1 ok m₂ h₃
  · obtain rfl : E = _ := hE
    obtain ⟨_, m₃, h₅, h₆⟩ := Exec.bind_ok.mp h₄
    obtain ⟨rfl, rfl⟩ := Exec.pure_ok.mp h₆
    exact .inr ⟨rfl, ha.unmade ((hu.procFree_spec hy hw rfl).1 _ _ h₅).2⟩
  · by_cases hpages : x.proc.memPages = v.proc.memPages
    · obtain ⟨m₃, hend, -, hmade⟩ := ha.clone_end hw hk hx hpid hd hy hsource hpages
      rw [if_pos rfl, hend] at h₄
      obtain ⟨rfl, rfl⟩ := Prod.mk.inj (Except.ok.inj h₄)
      refine .inl ⟨h0, pid, x, _, hmade, hx, hcopy, hd.remains (by rw [← hd.proc]), ?_⟩
      rw [Space.setProc_proc, ← hpages, ← hd.proc]
    · rw [if_pos rfl] at h₄
      obtain ⟨p, m₃, h₅, h₆⟩ := Exec.bind_ok.mp h₄
      obtain ⟨hp, rfl⟩ := getProc_ok.mp h₅
      obtain ⟨c, m₄, h₇, h₈⟩ := Exec.bind_ok.mp h₆
      obtain ⟨hc, rfl⟩ := getProc_ok.mp h₇
      rw [if_pos ?_] at h₈
      · exact absurd h₈ Exec.throw_ok
      obtain rfl := Option.some.inj ((ha.proc_kept hd hy hsource).symm.trans hp)
      obtain rfl := Option.some.inj ((ha.proc_new hd hy).symm.trans hc)
      rwa [hd.proc]

/-- `ktask_initialize`: the page of its stack is nowhere in the space. -/
theorem OpInv.ktaskInitialize_ok {cur : Nat} (h : OpInv freeAddr entriesAddr entries Scope.user cur m live frames)
    (hfreed : m.freed = []) (hw : WindowOk freeAddr entriesAddr entries)
    (hk : ¬ Pmm.FreePage m.state.slab.pmm (Slab.frame m.state.pgDir)) {main : Nat} {u : Unit}
    (hrun : (Proc.ktaskInitialize main).run m = .ok (u, m')) :
    ∃ o z, Made m.state m'.state o 0 z ∧ z.places = {.dir} ∧ z.proc.memPages = 0 := by
  unfold Proc.ktaskInitialize at hrun
  obtain ⟨o, m₁, h₁, h₂⟩ := Exec.bind_ok.mp hrun
  rcases h.procAlloc_ok hfreed hw.toBootOk h₁ with ⟨h0, live', frames', pid, ha⟩ | ⟨rfl, -⟩
  swap
  · rw [if_pos rfl] at h₂
    exact absurd h₂ Exec.throw_ok
  rw [if_neg h0] at h₂
  have hk₁ : Slab.frame m₁.state.pgDir ∈ (Env.fresh live' o m₁.state).kept := by
    rw [ha.pgDir]
    exact fun hf => hk (ha.free _ hf)
  obtain ⟨p, m₂, h₃, h₄⟩ := Exec.bind_ok.mp h₂
  obtain ⟨hp, rfl⟩ := getProc_ok.mp h₃
  obtain rfl : newProcess pid = p := by
    rw [ha.procs, Function.update_self] at hp
    exact Option.some.inj hp
  split at h₄
  · exact absurd h₄ Exec.throw_ok
  next hpid =>
  obtain rfl : pid = 0 := by
    have : (newProcess pid).pid = 0 := not_not.mp hpid
    exact Int.natCast_eq_zero.mp this
  obtain ⟨paddr, m₃, h₅, h₆⟩ := Exec.bind_ok.mp h₄
  obtain ⟨x, hx, ⟨rfl, -⟩ | ⟨f, w, rfl, hf0, hflt, -, rfl⟩⟩ :=
    (after_alloc hw (Finset.notMem_empty _) (t := False) m₂ ha.rep).1 paddr m₃ h₅
  · exact absurd h₆ Exec.throw_ok
  have hstack : castP2vOrNull (f * pageSize) ≠ 0 := by
    unfold castP2vOrNull
    rw [if_neg (by unfold pageSize; omega)]
    simp only [castPhysicalToVirtual, u32, kernelBase, pageSize]
    omega
  dsimp only at h₆
  rw [if_neg hstack] at h₆
  obtain ⟨ptr, m₄, h₇, h₈⟩ := Exec.bind_ok.mp h₆
  obtain ⟨y, hy, ⟨rfl, rfl⟩ | ⟨f', w', -, -, hne, hptr, rfl⟩⟩ := (after_allocEntries hw (a := .dir) (by simp [Space.new])
    trivial rfl (fun _ => rfl) (by simp) (t := False) m₃ hx).1 ptr m₄ h₇
  · obtain ⟨_, m₅, -, h₁₀⟩ := Exec.bind_ok.mp h₈
    rw [if_pos rfl] at h₁₀
    exact absurd h₁₀ Exec.throw_ok
  obtain ⟨_, m₅, h₉, h₁₀⟩ := Exec.bind_ok.mp h₈
  obtain ⟨y₁, hy₁, rfl⟩ := (after_modifyProc _ (t := False) m₄ hy).1 _ m₅ h₉
  rw [if_neg hne] at h₁₀
  obtain ⟨_, m₆, h₁₁, h₁₂⟩ := Exec.bind_ok.mp h₁₀
  obtain ⟨y₂, hy₂, rfl⟩ := (after_modifyProc _ (t := False) m₅ hy₁).1 _ m₆ h₁₁
  obtain ⟨_, m₇, h₁₃, h₁₄⟩ := Exec.bind_ok.mp h₁₂
  -- the directory is all that is left
  set x := (((((Space.new (newProcess (0 : Nat))).take .hand f w).take .dir f' w').setProc _).setProc _) with hxdef
  have hplaces : ∀ v, (x.restrict v).places = {.dir} := by
    intro v
    ext a
    rw [Space.mem_restrict, Finset.mem_singleton]
    simp only [hxdef, Space.setProc_places, Space.take_places, Space.new, Finset.mem_insert, Finset.notMem_empty, or_false]
    constructor
    · rintro ⟨rfl | rfl, hu⟩
      · rfl
      · exact hu.elim
    · rintro rfl
      exact ⟨.inl rfl, trivial⟩
  have hxdir : x.proc.pageDir = x.ptr .dir := hptr
  obtain ⟨d, hd, hfin⟩ : ∃ d, RepIn freeAddr entriesAddr entries m₇ d ∧ Finished (.fresh live' o m₂.state) x d := by
    have hr := Rep.restrict hy₂ rfl
    have hptr' : ptr = (x.restrict (m₆.state.mem (x.frame .dir))).ptr .dir := hptr
    rw [hptr'] at h₁₃
    obtain ⟨z, hz, w'', hw'', hkernel⟩ := ((after_pgCopyKernelSpace (E := (Env.fresh live' o m₂.state).without x.lost) hw
      (by rw [hplaces]; simp) rfl hk₁ (t := False)) m₆ hr).1 _ m₇ h₁₃
    exact ⟨(_, z), hz, rfl, _, w'', hw'', hkernel⟩
  have hcomplete : d.2.Complete (m₂.state.mem (Slab.frame m₂.state.pgDir)) := by
    obtain ⟨-, v, v', he, hkernel⟩ := hfin
    rw [he]
    refine ⟨fun a ham hda => ?_, ?_, ?_, rfl, hxdir, fun i hi hi' => ?_⟩
    · rw [Space.setWords_places, hplaces, Finset.mem_singleton] at ham
      exact absurd ham hda
    · rw [Space.setWords_places, hplaces]
      simp
    · rw [Space.setWords_places, hplaces]
      simp
    · refine Eq.trans ?_ (hkernel i hi hi')
      simp
  rw [schedAdd_run] at h₁₄
  obtain ⟨-, rfl⟩ := Prod.mk.inj (Except.ok.inj h₁₄)
  have howner : d.1.owner = o := by rw [hfin.1]; rfl
  have hproc : m₇.state.procs o = some d.2.proc := by
    have := Rep.proc hd
    rwa [howner] at this
  refine ⟨o, d.2.setProc d.2.proc, ha.made hw hk hfin hcomplete hd rfl ?_ ?_ ?_, ?_, ?_⟩
  · rw [hfin.proc]
    rfl
  · rw [hfin.proc]
    rfl
  · rw [← hproc, Function.update_eq_self]
  · obtain ⟨-, v, v', he, -⟩ := hfin
    rw [he]
    exact hplaces v
  · rw [Space.setProc_proc, hfin.proc]
    rfl

/-! ### Reaping -/

section
variable {s : State} {z : Space}

theorem Settled.frameAt_eq (h : Settled s o z) {b : Place} (hb : b ∈ z.places) (he : b.HasEntries) {i : Nat}
    (hi : i < z.size b) (hm : b.entry i ∈ z.places) :
    frameAt (s.mem (z.frame b) i) = some (z.frame (b.entry i)) := by
  have hne : b.entry i ≠ .dir ∧ b.entry i ≠ .hand := by cases b <;> simp [Place.entry, Place.HasEntries] at he ⊢
  obtain ⟨k, hk⟩ := Option.ne_none_iff_exists'.mp (h.linked _ hm hne.1 hne.2)
  obtain ⟨haddr, -⟩ := ((h.fits b hb).entry he hi).some_eq h.ok hk
  exact frameAt_eq_some.mpr ⟨(h.used _ hm).1, haddr⟩

theorem Settled.dirFrame_eq (h : Settled s o z) : dirFrame s o = some (z.frame .dir) := by
  have hne : z.ptr .dir ≠ 0 := by
    have := h.used _ h.dir
    simp only [Space.ptr, castPhysicalToVirtual, u32, kernelBase, pageSize]
    omega
  rw [dirFrame, h.proc, Option.bind_some, h.pageDir, if_neg hne, h.frame_ptr h.dir]

theorem Settled.tableFrame_eq (h : Settled s o z) {pde : Nat} (hm : .table pde ∈ z.places) :
    tableFrame s o pde = some (z.frame (.table pde)) ∧ pde < userPdes := by
  have hlt := (h.ok.table pde hm).2
  rw [tableFrame, h.dirFrame_eq, Option.bind_some]
  exact ⟨h.frameAt_eq h.dir trivial hlt hm, lt_of_lt_of_eq hlt h.limit⟩

/-- Each frame of a complete process is behind one of its slots. -/
theorem Settled.ref (h : Settled s o z) {a : Place} (ha : a ∈ z.places) :
    ∃ b ∈ Scope.user.slots, b.proc = o ∧ Proc.ref s b = some (z.frame a) := by
  cases a with
  | dir => exact ⟨.dir o, trivial, rfl, h.dirFrame_eq⟩
  | table pde => exact ⟨.table o pde, (h.tableFrame_eq ha).2, rfl, (h.tableFrame_eq ha).1⟩
  | page pde pte =>
    obtain ⟨hm, hlt⟩ := h.ok.page _ _ ha
    refine ⟨.page o pde pte, (h.tableFrame_eq hm).2, rfl, ?_⟩
    rw [ref_page, pageFrame, (h.tableFrame_eq hm).1, Option.bind_some]
    exact h.frameAt_eq (b := .table pde) hm trivial hlt ha
  | hand => exact absurd ha h.hand

end

/-- The frames of a complete process are free, and its object. -/
structure Reaped (s s' : State) (o : Nat) (z : Space) : Prop where
  procs : s'.procs = Function.update s.procs o none
  pidMap : s'.pidMap = if z.proc.pid = -1 then s.pidMap else Function.update s.pidMap z.proc.pid.toNat false
  mem : ∀ f, ¬ Pmm.FreePage s.slab.pmm f → (∀ a ∈ z.places, z.frame a ≠ f) → s'.mem f = s.mem f
  free : ∀ f, Pmm.FreePage s'.slab.pmm f ↔ Pmm.FreePage s.slab.pmm f ∨ ∃ a ∈ z.places, z.frame a = f
  pidGen : s'.pidGen = s.pidGen
  pgDir : s'.pgDir = s.pgDir
  procCache : s'.procCache = s.procCache
  sched : s'.sched = s.sched.unlink (some o)

/-- What `proc_free` works on when it frees a complete process. -/
def Env.reap (live : Nat → Option Slab.Live) (o : Nat) (s : State) (z : Space) : Env where
  owner := o
  live := live
  start := s
  free := {f | Pmm.FreePage s.slab.pmm f ∨ ∃ a ∈ z.places, z.frame a = f}
  kept := {f | ¬ Pmm.FreePage s.slab.pmm f ∧ ∀ a ∈ z.places, z.frame a ≠ f}
  disjoint := fun _ hf hf' => hf'.elim hf.1 fun ⟨a, ha, e⟩ => hf.2 a ha e

theorem Settled.rep {cur : Nat} (h : OpInv freeAddr entriesAddr entries Scope.user cur m live frames) {z : Space}
    (hz : Settled m.state o z) : Rep freeAddr entriesAddr entries (.reap live o m.state z) m z := by
  refine ⟨hz.ok, hz.fits, hz.proc, ⟨frames, h.run, fun a ha => ?_⟩, fun a ha => .inr ⟨a, ha, rfl⟩, fun f => ?_,
    fun _ _ => rfl, fun _ _ => rfl, ⟨rfl, rfl, rfl, rfl, rfl⟩⟩
  · obtain ⟨b, hb, -, href⟩ := hz.ref ha
    exact h.own b hb _ href
  · constructor
    · refine fun hf => ⟨.inl hf, fun a ha e => (hz.used a ha).2.2 (e ▸ hf)⟩
    · rintro ⟨hf | ⟨a, ha, e⟩, hne⟩
      · exact hf
      · exact absurd e (hne a ha)

theorem Settled.whole {s : State} {z : Space} (h : Settled s o z) : z.Whole :=
  ⟨h.linked, h.hand, h.limit, .inl ⟨h.dir, h.pageDir⟩⟩

/-- What the scheduler does with a dead process returns if `mem_pages` is right, and only then. -/
theorem OpInv.schedReap_spec {cur : Nat} (h : OpInv freeAddr entriesAddr entries Scope.user cur m live frames)
    (hw : WindowOk freeAddr entriesAddr entries) {z : Space} (hz : Settled m.state o z) {c : Nat} (hc : z.Counted c) :
    (∀ u m', (Proc.schedReap o).run m = .ok (u, m') → u32 c = 0 ∧ Reaped m.state m'.state o z) ∧
    (u32 c = 0 → ∃ r, (Proc.schedReap o).run m = .ok r) := by
  have hremove : (Proc.schedRemove o).run m = .ok ((), { m with state := { m.state with
      sched := m.state.sched.unlink (some o) } }) := update_ok.mpr rfl
  have hinv := h.schedRemove hremove
  have hrun : (Proc.schedReap o).run m = _ := Exec.bind_run hremove
  generalize hm₁ : { m with state := { m.state with sched := m.state.sched.unlink (some o) } } = m₁ at hinv hrun
  have hz₁ : Settled m₁.state o z := by
    subst hm₁
    exact hz.congr hz.proc (fun _ _ => rfl) (fun a ha => (hz.used a ha).2.2) rfl rfl
  have hspec := (hz₁.rep hinv).procFree_spec hw hz₁.whole hc
  rw [hrun]
  refine ⟨fun u m' hr => ?_, fun h0 => hspec.2 h0 (hinv.procs o _ hz₁.proc)⟩
  obtain ⟨h0, hf⟩ := hspec.1 u m' hr
  subst hm₁
  exact ⟨h0, hf.procs, hf.pidMap, fun f hfree hne => hf.kept f ⟨hfree, hne⟩, hf.free, hf.pidGen, hf.pgDir, hf.procCache,
    hf.sched⟩

end
end Airix.Proc
