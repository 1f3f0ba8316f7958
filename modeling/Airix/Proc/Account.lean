import Airix.Proc.Fork
import Mathlib.Data.Set.Card

/-!
# What `proc_free` gives back

`mem_pages` counts what was mapped for a process, and `proc_free` only looks below `KERNEL_BASE`. A program with a page
from there on is loaded, but when it is dead the scheduler panics.
-/

namespace Airix.Proc

/-- Process `o` is gone: its PID, its frames and its place in the scheduler's list are free, and nothing else changed. -/
structure Gone (s s' : State) (o : Nat) (p : Process) : Prop where
  procs : s'.procs = Function.update s.procs o none
  pidMap : s'.pidMap = Function.update s.pidMap p.pid.toNat false
  free : ∀ f, Pmm.FreePage s'.slab.pmm f ↔ Pmm.FreePage s.slab.pmm f ∨ f ∈ framesOf s o
  mem : ∀ f, ¬ Pmm.FreePage s.slab.pmm f → f ∉ framesOf s o → s'.mem f = s.mem f
  sched : s'.sched = s.sched.unlink (some o)

section
variable {B : Boot} {σ : Sys} {s s' : State} {o : Nat} {z : Space} {p : Process} {elf : Nat → UInt8}

theorem Settled.framesOf_eq (h : Settled s o z) : framesOf s o = z.frame '' z.places := by
  ext f
  rw [h.mem_framesOf]
  rfl

theorem Settled.ncard_framesOf (h : Settled s o z) : (framesOf s o).ncard = z.places.card := by
  rw [h.framesOf_eq, Set.ncard_image_of_injOn fun a ha b hb e => h.ok.inj a ha b hb e, Set.ncard_coe_finset]

theorem Reaped.gone (h : Reaped s s' o z) (hz : Settled s o z) (hpid : z.proc.pid ≠ -1) : Gone s s' o z.proc where
  procs := h.procs
  pidMap := by rw [h.pidMap, if_neg hpid]
  free f := by rw [h.free, hz.mem_framesOf]
  mem f hf hn := h.mem f hf fun a ha e => hn (hz.mem_framesOf.mpr ⟨a, ha, e⟩)
  sched := h.sched

theorem Inv.card_le (h : Inv B σ) (hz : Settled σ.state o z) : z.places.card ≤ 0x40000 := by
  obtain ⟨live, frames, hop⟩ := h.op
  exact (hz.rep hop).card_le B.windowOk

theorem Inv.reap_spec (h : Inv B σ) (hz : Owns σ o z) {c : Nat} (hle : c ≤ 0x40000) (hc : z.Counted c) :
    (∀ m, (schedReap o).run ⟨σ.state, [], []⟩ = .ok ((), m) → c = 0 ∧ Reaped σ.state m.state o z) ∧
      (c = 0 → ∃ m, (schedReap o).run ⟨σ.state, [], []⟩ = .ok ((), m)) := by
  obtain ⟨live, frames, hop⟩ := h.op
  obtain ⟨hgone, hreturn⟩ := hop.schedReap_spec B.windowOk hz.settled hc
  rw [u32_of_lt (by omega)] at hgone hreturn
  exact ⟨fun m hm => hgone () m hm, fun h0 => (hreturn h0).imp' Prod.snd fun _ hr => hr⟩

/-- In every run, for a process made from a file: `mem_pages` is the number of its frames if the pages of the file are
below `KERNEL_BASE`, and only then. Only then the scheduler gets rid of it, and all its frames are free again. -/
theorem reap_iff (h : Life B σ) (hprog : σ.program o = some elf) (hp : σ.state.procs o = some p) (hb : Bounded elf) :
    (p.memPages = (framesOf σ.state o).ncard ↔ Space.BelowKernel elf) ∧
      ((∃ r, (schedReap o).run ⟨σ.state, [], []⟩ = .ok r) ↔ Space.BelowKernel elf) ∧
      ∀ m, (schedReap o).run ⟨σ.state, [], []⟩ = .ok ((), m) → Gone σ.state m.state o p := by
  have hinv := h.inv
  obtain ⟨z, hz⟩ := hinv.procs o p hp
  obtain rfl : z.proc = p := Option.some.inj (hz.settled.proc.symm.trans hp)
  obtain ⟨c, hle, hc, hiff⟩ := hz.counted elf hprog hb
  have hcard := hinv.card_le hz.settled
  obtain ⟨hgone, hreturn⟩ := hinv.reap_spec hz hle hc
  obtain ⟨i, -, hi⟩ := hz.pid
  refine ⟨?_, ?_, fun m hm => (hgone m hm).2.gone hz.settled (by omega)⟩
  · have hpages : z.proc.memPages = z.places.card + c := hc.trans (u32_of_lt (by omega))
    rw [hz.settled.ncard_framesOf, hpages, ← hiff]
    omega
  · rw [← hiff]
    exact ⟨fun ⟨r, hr⟩ => (hgone r.2 hr).1, fun h0 => (hreturn h0).imp' (Prod.mk ()) fun _ hr => hr⟩

end

theorem reap_iff_tiny : ∃ σ o p m, Life tinyBoot σ ∧ σ.state.procs o = some p ∧
    p.memPages = (framesOf σ.state o).ncard ∧ (schedReap o).run ⟨σ.state, [], []⟩ = .ok ((), m) ∧
      Gone σ.state m.state o p := by
  obtain ⟨σ, o, p, -, -, hlife, hprog, hp, -⟩ := tinyRun_ok (x := fun _ => (pure () : M Unit)) (P := fun _ _ => true)
    (by decide +kernel)
  obtain ⟨hpages, hreturn, hgone⟩ := reap_iff hlife hprog hp bounded_smallElf
  obtain ⟨⟨u, m⟩, hm⟩ := hreturn.mpr belowKernel_smallElf
  exact ⟨σ, o, p, m, hlife, hp, hpages.mpr belowKernel_smallElf, hm, hgone m hm⟩

end Airix.Proc
