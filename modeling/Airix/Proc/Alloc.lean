import Airix.Proc.Isolation
import Airix.Proc.Load

/-!
# New process objects (`proc_alloc`)
-/

namespace Airix.Proc

/-- What `memset` and `alloc_pid` leave in a process. -/
def newProcess (pid : Int) : Process := ⟨pid, .zero, 0, 0, 0, 0, 0, 0, 0, 0⟩

section
variable {m m' : Machine}

/-- `alloc_pid` sets one bit, or none when all are set. -/
theorem allocPidFrom_ok {n : Nat} {pid : Int} (hrun : (allocPidFrom n).run m = .ok (pid, m')) :
    ∃ gen, (m.state.pidGen < procMaxNum → gen < procMaxNum) ∧
      ((pid = -1 ∧ m' = { m with state := { m.state with pidGen := gen } }) ∨
        ∃ i : Nat, pid = i ∧ (m.state.pidGen < procMaxNum → i < procMaxNum) ∧ m.state.pidMap i = false ∧
          m' = { m with state := { m.state with pidGen := gen, pidMap := Function.update m.state.pidMap i true } }) := by
  induction n generalizing m with
  | zero =>
    obtain ⟨rfl, rfl⟩ := Exec.pure_ok.mp hrun
    exact ⟨m.state.pidGen, id, .inl ⟨rfl, rfl⟩⟩
  | succ n ih =>
    unfold allocPidFrom at hrun
    obtain ⟨s, m₁, h₁, h₂⟩ := Exec.bind_ok.mp hrun
    obtain ⟨rfl, rfl⟩ := getState_ok.mp h₁
    dsimp only at h₂
    obtain ⟨_, m₂, h₃, h₄⟩ := Exec.bind_ok.mp h₂
    obtain rfl := update_ok.mp h₃
    have hlt : (m₁.state.pidGen + 1) % procMaxNum < procMaxNum := Nat.mod_lt _ (by decide)
    split at h₄
    · obtain ⟨gen, hgen, h | ⟨i, rfl, hi, h⟩⟩ := ih h₄
      · exact ⟨gen, fun _ => hgen hlt, .inl h⟩
      · exact ⟨gen, fun _ => hgen hlt, .inr ⟨i, rfl, fun _ => hi hlt, h⟩⟩
    · next hbit =>
      obtain ⟨_, m₃, h₅, h₆⟩ := Exec.bind_ok.mp h₄
      obtain rfl := update_ok.mp h₅
      obtain ⟨rfl, rfl⟩ := Exec.pure_ok.mp h₆
      exact ⟨_, fun _ => hlt, .inr ⟨m₁.state.pidGen, rfl, id, by simpa using hbit, rfl⟩⟩

variable {freeAddr entriesAddr : Nat} {entries : Array Pmm.MmapEntry} {cur : Nat}
  {live : Nat → Option Slab.Live} {frames : Finset (Nat × Nat)}

/-- After `slab_alloc`: the object is fresh, and at most one page was taken. -/
theorem OpInv.slabAllocProc_ok (h : OpInv freeAddr entriesAddr entries Scope.user cur m live frames)
    (hboot : Pmm.BootOk freeAddr entriesAddr entries) {o : Nat} (hrun : Proc.slabAllocProc.run m = .ok (o, m')) :
    o ≠ 0 ∧ m.state.procs o = none ∧ ∃ slab, m' = { m with state := { m.state with slab := slab } } ∧
      ∀ f, Pmm.FreePage slab.pmm f → Pmm.FreePage m.state.slab.pmm f := by
  obtain ⟨ho, hnone, -⟩ := h.slabAllocProc hboot hrun
  unfold Proc.slabAllocProc at hrun
  obtain ⟨s, m₁, h₁, h₂⟩ := Exec.bind_ok.mp hrun
  obtain ⟨rfl, rfl⟩ := getState_ok.mp h₁
  split at h₂
  · exact absurd h₂ Exec.throw_ok
  · next proc slab he =>
    obtain ⟨_, m₂, h₃, h₄⟩ := Exec.bind_ok.mp h₂
    obtain rfl := update_ok.mp h₃
    obtain ⟨rfl, rfl⟩ := Exec.pure_ok.mp h₄
    exact ⟨ho, hnone, slab, rfl, fun f hf => h.run.alloc_freePage hboot he hf⟩

/-- `proc_alloc` that makes a process. -/
structure Allocated (freeAddr entriesAddr : Nat) (entries : Array Pmm.MmapEntry) (m m' : Machine) (proc : Nat)
    (live : Nat → Option Slab.Live) (frames : Finset (Nat × Nat)) (pid : Nat) : Prop where
  none : m.state.procs proc = none
  bit : m.state.pidMap pid = false
  lt : m.state.pidGen < procMaxNum → pid < procMaxNum
  gen : m.state.pidGen < procMaxNum → m'.state.pidGen < procMaxNum
  inv : OpInv freeAddr entriesAddr entries Scope.user proc m' live frames
  procs : m'.state.procs = Function.update m.state.procs proc (some (newProcess pid))
  pidMap : m'.state.pidMap = Function.update m.state.pidMap pid true
  mem : m'.state.mem = m.state.mem
  pgDir : m'.state.pgDir = m.state.pgDir
  procCache : m'.state.procCache = m.state.procCache
  sched : m'.state.sched = m.state.sched
  free : ∀ f, Pmm.FreePage m'.state.slab.pmm f → Pmm.FreePage m.state.slab.pmm f
  fails : m'.fails = m.fails

/-- `proc_alloc` that makes none. -/
structure NotAllocated (m m' : Machine) : Prop where
  gen : m.state.pidGen < procMaxNum → m'.state.pidGen < procMaxNum
  procs : m'.state.procs = m.state.procs
  pidMap : m'.state.pidMap = m.state.pidMap
  mem : m'.state.mem = m.state.mem
  pgDir : m'.state.pgDir = m.state.pgDir
  procCache : m'.state.procCache = m.state.procCache
  sched : m'.state.sched = m.state.sched
  free : ∀ f, Pmm.FreePage m'.state.slab.pmm f → Pmm.FreePage m.state.slab.pmm f

theorem OpInv.procAlloc_ok (h : OpInv freeAddr entriesAddr entries Scope.user cur m live frames) (hfreed : m.freed = [])
    (hboot : Pmm.BootOk freeAddr entriesAddr entries) {proc : Nat} (hrun : Proc.procAlloc.run m = .ok (proc, m')) :
    (proc ≠ 0 ∧ ∃ live' frames' pid, Allocated freeAddr entriesAddr entries m m' proc live' frames' pid) ∨
    (proc = 0 ∧ NotAllocated m m') := by
  obtain ⟨o', live', frames', -, hinv, hnew⟩ := h.procAlloc hfreed hboot hrun
  unfold Proc.procAlloc at hrun
  obtain ⟨o, m₁, h₁, h₂⟩ := Exec.bind_ok.mp hrun
  obtain ⟨ho, hnone, slab, rfl, hfree⟩ := h.slabAllocProc_ok hboot h₁
  rw [if_neg ho] at h₂
  obtain ⟨pid, m₂, h₃, h₄⟩ := Exec.bind_ok.mp h₂
  obtain ⟨gen, hgen, ⟨rfl, rfl⟩ | ⟨i, rfl, hi, hbit, rfl⟩⟩ := allocPidFrom_ok h₃
  · -- all PIDs are taken
    obtain ⟨_, m₃, h₅, h₆⟩ := Exec.bind_ok.mp h₄
    obtain rfl := update_ok.mp h₅
    rw [if_pos rfl] at h₆
    obtain ⟨_, m₄, h₇, h₈⟩ := Exec.bind_ok.mp h₆
    obtain ⟨rfl, rfl⟩ := Exec.pure_ok.mp h₈
    refine .inr ⟨rfl, ?_⟩
    unfold Proc.procFree at h₇
    obtain ⟨p, m₅, h₉, h₁₀⟩ := Exec.bind_ok.mp h₇
    obtain ⟨hp, rfl⟩ := getProc_ok.mp h₉
    dsimp only at hp
    rw [Function.update_self] at hp
    obtain rfl := Option.some.inj hp
    obtain ⟨_, m₆, h₁₁, h₁₂⟩ := Exec.bind_ok.mp h₁₀
    obtain ⟨-, rfl⟩ := Exec.pure_ok.mp h₁₁
    obtain ⟨p, m₇, h₁₃, h₁₄⟩ := Exec.bind_ok.mp h₁₂
    obtain ⟨hp, rfl⟩ := getProc_ok.mp h₁₃
    dsimp only at hp
    rw [Function.update_self] at hp
    obtain rfl := Option.some.inj hp
    obtain ⟨_, m₈, h₁₅, h₁₆⟩ := Exec.bind_ok.mp h₁₄
    obtain ⟨-, rfl⟩ := Exec.pure_ok.mp h₁₅
    rw [if_neg (by simp)] at h₁₆
    unfold Proc.slabFreeProc at h₁₆
    obtain ⟨s, m₉, h₁₇, h₁₈⟩ := Exec.bind_ok.mp h₁₆
    obtain ⟨rfl, rfl⟩ := getState_ok.mp h₁₇
    split at h₁₈
    · exact absurd h₁₈ Exec.throw_ok
    · next slab' he =>
      obtain rfl := update_ok.mp h₁₈
      refine ⟨hgen, ?_, rfl, rfl, rfl, rfl, rfl, fun f hf => hfree f ?_⟩
      · dsimp only
        rw [Function.update_idem, Function.update_eq_self_iff]
        exact hnone.symm
      · dsimp only at hf
        rwa [Slab.slabFree_pmm he] at hf
  · obtain ⟨_, m₃, h₅, h₆⟩ := Exec.bind_ok.mp h₄
    obtain rfl := update_ok.mp h₅
    rw [if_neg (by simp)] at h₆
    obtain ⟨rfl, rfl⟩ := Exec.pure_ok.mp h₆
    obtain ⟨rfl, -⟩ := hnew ho
    exact .inl ⟨ho, live', frames', i, hnone, hbit, hi, hgen, hinv, rfl, rfl, rfl, rfl, rfl, rfl, hfree, rfl⟩

end
end Airix.Proc
