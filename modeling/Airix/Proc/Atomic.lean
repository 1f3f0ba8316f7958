import Airix.Proc.Account

/-!
# Out of memory

Once `proc_alloc` made a process, `proc_exec` and `proc_clone` come back no matter which of their allocations fail, and
every page that was free is free still or is behind the new process.
-/

namespace Airix.Proc
open Exec (After)

/-- The pages that were free are free still, or they are frames of process `o`. -/
def Accounted (s s' : State) (o : Nat) : Prop :=
  ∀ f, Pmm.FreePage s.slab.pmm f ↔ Pmm.FreePage s'.slab.pmm f ∨ f ∈ framesOf s' o

section
variable {freeAddr entriesAddr : Nat} {entries : Array Pmm.MmapEntry} {m m₁ m₂ : Machine} {x : Space} {o pid : Nat}
  {live : Nat → Option Slab.Live} {frames : Finset (Nat × Nat)}

/-- After a failure the process goes, and all its pages go back. -/
theorem Allocated.goes (h : Allocated freeAddr entriesAddr entries m m₁ o live frames pid)
    (hw : WindowOk freeAddr entriesAddr entries) (hr : Rep freeAddr entriesAddr entries (.fresh live o m₁.state) m₂ x)
    (hx : Unfinished (newProcess pid) x) (hall : x.AllUser) :
    ∃ m', (procFree o).run m₂ = .ok ((), m') ∧ Unmade m.state m'.state ∧ Accounted m₁.state m'.state o := by
  obtain ⟨hfreed, hreturn⟩ := hx.procFree_spec hr hw rfl
  obtain ⟨⟨u, m'⟩, hrun⟩ := hreturn hall h.isLive
  obtain ⟨-, hf⟩ := hfreed u m' hrun
  refine ⟨m', hrun, h.unmade hf, fun f => ?_⟩
  have hnone : m'.state.procs o = Option.none := by
    rw [hf.procs]
    exact Function.update_self _ _ _
  rw [framesOf_eq_empty hnone, hf.free]
  exact (or_iff_left (Set.notMem_empty f)).symm

/-- A space that is complete has all pages that are not free any more. -/
theorem Finished.accounted {d : Env × Space} (hd : Finished (.fresh live o m₁.state) x d)
    (hr : RepIn freeAddr entriesAddr entries m₂ d) (hall : x.AllUser) {s' : State} (hslab : s'.slab = m₂.state.slab) {p : Process} (hz : Settled s' o (d.2.setProc p)) :
    Accounted m₁.state s' o := by
  have hE : d.1 = .fresh live o m₁.state := by rw [hd.1, Space.lost_eq_empty hall, Env.without_empty]
  intro f
  rw [hz.framesOf_eq, hslab, Rep.free hr, hE]
  constructor
  · intro hf
    by_cases e : ∃ a ∈ d.2.places, d.2.frame a = f
    · exact .inr e
    · exact .inl ⟨hf, fun a ha e' => e ⟨a, ha, e'⟩⟩
  · rintro (hf | ⟨a, ha, rfl⟩)
    · exact hf.1
    · have := Rep.mem_free hr a ha
      rwa [hE] at this

variable {cur : Nat} {elf : Nat → UInt8} {size : Nat}

/-- `proc_exec` comes back, whatever fails. -/
theorem OpInv.procExec_returns (h : OpInv freeAddr entriesAddr entries Scope.user cur m live frames) (hfreed : m.freed = [])
    (hw : WindowOk freeAddr entriesAddr entries) (hk : ¬ Pmm.FreePage m.state.slab.pmm (Slab.frame m.state.pgDir))
    (hclear : Clear elf) (hbelow : Space.BelowKernel elf) (halloc : Proc.procAlloc.run m = .ok (o, m₁)) (ho : o ≠ 0) :
    ∃ b m', (Proc.procExec elf size).run m = .ok (b, m') ∧ Accounted m₁.state m'.state o ∧
      ((b = true ∧ ∃ pid z, Made m.state m'.state o pid z) ∨ (b = false ∧ Unmade m.state m'.state)) := by
  obtain ⟨-, live', frames', pid, ha⟩ := (h.procAlloc_ok hfreed hw.toBootOk halloc).resolve_right fun h0 => ho h0.1
  have hk₁ : Slab.frame m₁.state.pgDir ∈ (Env.fresh live' o m₁.state).kept := by
    rw [ha.pgDir]
    exact fun hf => hk (ha.free _ hf)
  have hinitAfter : After True (RepIn freeAddr entriesAddr entries) (.fresh live' o m₁.state, Space.new (newProcess pid))
      (Proc.initProcFromElf o elf size) _ := after_initProcFromElf hw rfl hk₁ fun _ => hclear
  have hafter := hinitAfter m₁ ha.rep
  obtain ⟨⟨ok, m₂⟩, hinit⟩ := hafter.2 trivial
  have hinit' : (Proc.initProcFromElf o elf size).run m₁ = .ok (ok, m₂) := hinit
  have hrun : (Proc.procExec elf size).run m = _ := Exec.bind_run halloc
  rw [if_neg ho, Exec.bind_run hinit'] at hrun
  obtain ⟨⟨E, y⟩, hy, ⟨rfl, hE, hu, hall⟩ | ⟨rfl, x, hx, hpid, -, hall, -, hd⟩⟩ := hafter.1 ok m₂ hinit
  · obtain rfl : E = _ := hE
    obtain ⟨m', hfree, hunmade, hacc⟩ := ha.goes hw hy hu (hall hclear.bounded hbelow)
    rw [if_neg (by decide), Exec.bind_run hfree] at hrun
    exact ⟨false, m', hrun, hacc, .inr ⟨rfl, hunmade⟩⟩
  · obtain ⟨m', hend, hslab, hmade⟩ := ha.exec_end hw hk hx hpid hd hy
    rw [if_pos rfl, hend] at hrun
    exact ⟨true, m', hrun, hd.accounted hy ((hall hclear.bounded).mpr hbelow) hslab hmade.settled, .inl ⟨rfl, pid, _, hmade⟩⟩

/-- `proc_clone` comes back, whatever fails, if `mem_pages` of the process is right. -/
theorem OpInv.procClone_returns (h : OpInv freeAddr entriesAddr entries Scope.user cur m live frames) (hfreed : m.freed = [])
    (hw : WindowOk freeAddr entriesAddr entries) (hk : ¬ Pmm.FreePage m.state.slab.pmm (Slab.frame m.state.pgDir))
    {parent : Nat} {v : Space} (hv : Settled m.state parent v) (hc : v.Counted 0)
    (halloc : Proc.procAlloc.run m = .ok (o, m₁)) (ho : o ≠ 0) :
    ∃ r m', (Proc.procClone parent).run m = .ok (r, m') ∧ Accounted m₁.state m'.state o ∧
      ((r = o ∧ ∃ pid z, Made m.state m'.state o pid z) ∨ (r = 0 ∧ Unmade m.state m'.state)) := by
  obtain ⟨-, live', frames', pid, ha⟩ := (h.procAlloc_ok hfreed hw.toBootOk halloc).resolve_right fun h0 => ho h0.1
  have hk₁ : Slab.frame m₁.state.pgDir ∈ (Env.fresh live' o m₁.state).kept := by
    rw [ha.pgDir]
    exact fun hf => hk (ha.free _ hf)
  have hsource := ha.source hv
  have hafter := (after_initProcFromProc (p := newProcess pid) hw hsource rfl hk₁ (t := True)) m₁ ha.rep
  obtain ⟨⟨ok, m₂⟩, hinit⟩ := hafter.2 trivial
  have hinit' : (Proc.initProcFromProc o parent).run m₁ = .ok (ok, m₂) := hinit
  have hrun : (Proc.procClone parent).run m = _ := Exec.bind_run halloc
  rw [if_neg ho, Exec.bind_run hinit'] at hrun
  obtain ⟨⟨E, y⟩, hy, ⟨rfl, hE, hu, hall⟩ | ⟨rfl, x, hx, hpid, hcopy, hd⟩⟩ := hafter.1 ok m₂ hinit
  · obtain rfl : E = _ := hE
    obtain ⟨m', hfree, hunmade, hacc⟩ := ha.goes hw hy hu hall
    rw [if_neg (by decide), Exec.bind_run hfree] at hrun
    exact ⟨0, m', hrun, hacc, .inr ⟨rfl, hunmade⟩⟩
  · have hplaces : x.places = v.places := Finset.ext fun a => by rw [hcopy.places, and_iff_left (Set.notMem_empty a)]
    have hpages : x.proc.memPages = v.proc.memPages := by
      rw [hx.pages, hplaces]
      exact hc.symm
    have hall : x.AllUser := by
      intro a ha
      rw [hplaces] at ha
      exact Inv.settled_allUser hv a ha
    obtain ⟨m', hend, hslab, hmade⟩ := ha.clone_end hw hk hx hpid hd hy hsource hpages
    rw [if_pos rfl, hend] at hrun
    exact ⟨o, m', hrun, hd.accounted hy hall hslab hmade.settled, .inl ⟨rfl, pid, _, hmade⟩⟩

end

section
variable {B : Boot} {σ : Sys} {elf : Nat → UInt8} {fails : List Bool} {o : Nat} {m₁ : Machine}

/-- In every run, and whatever allocations fail: when `proc_alloc` made a process, `proc_exec` of a program below
`KERNEL_BASE` comes back, with a complete process or with none, and no page is lost. -/
theorem exec_atomic (size : Nat) (h : Life B σ) (hclear : Clear elf) (hbelow : Space.BelowKernel elf)
    (halloc : procAlloc.run ⟨σ.state, fails, []⟩ = .ok (o, m₁)) (ho : o ≠ 0) :
    ∃ b m, (procExec elf size).run ⟨σ.state, fails, []⟩ = .ok (b, m) ∧ Accounted m₁.state m.state o ∧
      ((b = true ∧ ∃ pid z, Made σ.state m.state o pid z) ∨ (b = false ∧ Unmade σ.state m.state)) := by
  obtain ⟨live, frames, hop⟩ := h.inv.done fails
  exact hop.procExec_returns rfl B.windowOk h.inv.pgDir_not_free hclear hbelow halloc ho

/-- In every run, for a process made from a file: `proc_clone` can make a child only if the pages of the file are below
`KERNEL_BASE`. Then it comes back, whatever allocations fail, with a complete child or with none, and no page is lost. -/
theorem fork_atomic {parent : Nat} {p : Process} (h : Life B σ) (hprog : σ.program parent = some elf)
    (hp : σ.state.procs parent = some p) (hb : Bounded elf) (halloc : procAlloc.run ⟨σ.state, fails, []⟩ = .ok (o, m₁))
    (ho : o ≠ 0) :
    (∀ r m, (procClone parent).run ⟨σ.state, fails, []⟩ = .ok (r, m) → r ≠ 0 → Space.BelowKernel elf) ∧
      (Space.BelowKernel elf → ∃ r m, (procClone parent).run ⟨σ.state, fails, []⟩ = .ok (r, m) ∧
        Accounted m₁.state m.state o ∧
        ((r = o ∧ ∃ pid z, Made σ.state m.state o pid z) ∨ (r = 0 ∧ Unmade σ.state m.state))) := by
  have hinv := h.inv
  obtain ⟨live, frames, hop⟩ := hinv.done fails
  obtain ⟨v, hv⟩ := hinv.procs parent p hp
  obtain ⟨c, hle, hc, hiff⟩ := hv.counted elf hprog hb
  refine ⟨fun r m hrun hr => hiff.mp ?_, fun hbelow => ?_⟩
  · -- the copy has as many pages as the parent says
    rcases hop.procClone_ok rfl B.windowOk hinv.pgDir_not_free hv.settled hrun with
      ⟨-, pid, x, z, hm, hx, hcopy, hrem, hproc⟩ | ⟨h0, -⟩
    swap
    · exact absurd h0 hr
    have hplaces : x.places = v.places := Finset.ext fun a => by rw [hcopy.places, and_iff_left (Set.notMem_empty a)]
    have hpages : v.proc.memPages = x.proc.memPages := by rw [← hrem.memPages, hproc]
    have hcard := hinv.card_le hv.settled
    rw [hc, hx.pages, hplaces, u32_of_lt (by omega), u32_of_lt (by omega)] at hpages
    omega
  · exact hop.procClone_returns rfl B.windowOk hinv.pgDir_not_free hv.settled (hiff.mpr hbelow ▸ hc) halloc ho

end

theorem clear_smallElf : Clear smallElf where
  bounded := bounded_smallElf
  apart := by
    rw [segments_smallElf]
    exact List.pairwise_singleton _ _
  noStack := by
    rw [mem_pagesOf_smallElf, mem_pagesOf_smallElf]
    decide

/-- The PID and the object of a new process, and then `x` from the beginning, where the first page cannot be had. -/
def tinyFails {α : Type} (x : M α) : M (Nat × Machine × α) := do
  let m ← get
  set { m with fails := [true] }
  let child ← procAlloc
  let m₁ ← get
  set { m with fails := [true] }
  let a ← x
  return (child, m₁, a)

theorem tinyFails_ok {α : Type} {x : M α} {m m₁ m₂ : Machine} {child : Nat} {a : α}
    (h : (tinyFails x).run m = .ok ((child, m₁, a), m₂)) :
    procAlloc.run { m with fails := [true] } = .ok (child, m₁) ∧
      x.run { m with fails := [true] } = .ok (a, m₂) := by
  obtain ⟨_, _, h₁, h₂⟩ := Exec.bind_ok.mp h
  obtain ⟨rfl, rfl⟩ := Exec.get_ok.mp h₁
  obtain ⟨_, _, h₃, h₄⟩ := Exec.bind_ok.mp h₂
  obtain rfl := Exec.set_ok.mp h₃
  obtain ⟨child', m', halloc, h₅⟩ := Exec.bind_ok.mp h₄
  obtain ⟨_, _, h₆, h₇⟩ := Exec.bind_ok.mp h₅
  obtain ⟨rfl, rfl⟩ := Exec.get_ok.mp h₆
  obtain ⟨_, _, h₈, h₉⟩ := Exec.bind_ok.mp h₇
  obtain rfl := Exec.set_ok.mp h₈
  obtain ⟨a', _, hx, h₁₀⟩ := Exec.bind_ok.mp h₉
  obtain ⟨e, rfl⟩ := Exec.pure_ok.mp h₁₀
  simp only [Prod.mk.injEq] at e
  obtain ⟨rfl, rfl, rfl⟩ := e
  exact ⟨halloc, hx⟩

theorem exec_atomic_tiny : ∃ (σ : Sys) (fails : List Bool) (o : Nat) (m₁ m : Machine), Life tinyBoot σ ∧
    procAlloc.run ⟨σ.state, fails, []⟩ = .ok (o, m₁) ∧ (procExec smallElf 84).run ⟨σ.state, fails, []⟩ = .ok (false, m) ∧
      Unmade σ.state m.state ∧ Accounted m₁.state m.state o := by
  obtain ⟨σ, o, p, ⟨child, m₁, b⟩, m, hlife, -, -, -, -, -, -, hrun, hP⟩ := tinyRun_ok
    (x := fun _ => tinyFails (procExec smallElf 84)) (P := fun _ r => r.1 != 0 && !r.2.2) (by decide +kernel)
  obtain ⟨halloc, hexec⟩ := tinyFails_ok hrun
  obtain ⟨hne, rfl⟩ : child ≠ 0 ∧ b = false := by simpa using hP
  obtain ⟨b', m', hexec', hacc, h⟩ := exec_atomic 84 hlife clear_smallElf belowKernel_smallElf halloc hne
  obtain ⟨rfl, rfl⟩ := Prod.mk.inj (Except.ok.inj (hexec.symm.trans hexec'))
  rcases h with ⟨h, -⟩ | ⟨-, hunmade⟩
  · cases h
  · exact ⟨σ, _, child, m₁, m, hlife, halloc, hexec, hunmade, hacc⟩

theorem fork_atomic_tiny : ∃ (σ : Sys) (fails : List Bool) (parent o : Nat) (m₁ m : Machine), Life tinyBoot σ ∧
    σ.program parent = some smallElf ∧ procAlloc.run ⟨σ.state, fails, []⟩ = .ok (o, m₁) ∧
      (procClone parent).run ⟨σ.state, fails, []⟩ = .ok (0, m) ∧ Unmade σ.state m.state ∧
        Accounted m₁.state m.state o := by
  obtain ⟨σ, parent, p, ⟨child, m₁, r⟩, m, hlife, hprog, hp, -, -, -, -, hrun, hP⟩ := tinyRun_ok
    (x := fun parent => tinyFails (procClone parent)) (P := fun _ r => r.1 != 0 && r.2.2 == 0) (by decide +kernel)
  obtain ⟨halloc, hclone⟩ := tinyFails_ok hrun
  simp only [Bool.and_eq_true, bne_iff_ne, beq_iff_eq] at hP
  obtain ⟨hne, hr⟩ := hP
  rw [hr] at hclone
  obtain ⟨r', m', hclone', hacc, h⟩ := (fork_atomic hlife hprog hp bounded_smallElf halloc hne).2 belowKernel_smallElf
  obtain ⟨rfl, rfl⟩ := Prod.mk.inj (Except.ok.inj (hclone.symm.trans hclone'))
  rcases h with ⟨h, -⟩ | ⟨-, hunmade⟩
  · exact absurd h.symm hne
  · exact ⟨σ, _, parent, child, m₁, m, hlife, hprog, halloc, hclone, hunmade, hacc⟩

end Airix.Proc
