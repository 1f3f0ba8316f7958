import Airix.Proc.Build

/-!
# Processes do not share frames

`Run` are the states after any sequence of operations on processes that return, whatever calls of
`pmm_alloc_pages` fail in them.
-/

namespace Airix.Proc

/-- What the kernel does with processes. -/
inductive Op
  | exec (elf : Nat → UInt8) (size : Nat)
  | clone (proc : Nat)
  | exit (proc : Nat) (status : Int)
  | reap (proc : Nat)
  | ktask (main : Nat)

def Op.run : Op → M Unit
  | .exec elf size => discard (procExec elf size)
  | .clone proc => discard (procClone proc)
  | .exit proc status => procExit proc status
  | .reap proc => schedReap proc
  | .ktask main => ktaskInitialize main

/-- Only dead processes are freed by the scheduler. -/
def Op.Enabled (s : State) : Op → Prop
  | .reap proc => ∃ p, s.procs proc = some p ∧ p.state = .dead
  | _ => True

/-- After `proc_initialize` and `sched_initialize`: `procCache` is the cache for processes, and there are none. -/
def initState (slab : Slab.State) (mem : Nat → Nat → Nat) (pgDir procCache : Nat) : State where
  slab := slab
  mem := mem
  pgDir := pgDir
  procCache := procCache
  procs := fun _ => none
  pidMap := fun _ => false
  pidGen := 0
  sched := (⟨fun _ => none, fun _ => none⟩ : Links (Option Nat)).init none

inductive Run (freeAddr entriesAddr : Nat) (entries : Array Pmm.MmapEntry) : State → Prop
  | init {slab : Slab.State} {live : Nat → Option Slab.Live} {frames : Finset (Nat × Nat)} (mem : Nat → Nat → Nat)
      (pgDir : Nat) {procCache : Nat} :
    Slab.Run freeAddr entriesAddr entries slab live frames → Slab.Valid live (.created procCache) →
      Run freeAddr entriesAddr entries (initState slab mem pgDir procCache)
  | step {s : State} {op : Op} {fails : List Bool} {u : Unit} {m : Machine} :
    Run freeAddr entriesAddr entries s → op.Enabled s → op.run.run ⟨s, fails, []⟩ = .ok (u, m) →
      Run freeAddr entriesAddr entries m.state

section
variable {freeAddr entriesAddr : Nat} {entries : Array Pmm.MmapEntry} {s : State} {m m' : Machine}
  {live : Nat → Option Slab.Live} {frames : Finset (Nat × Nat)} {u : Unit} {proc : Nat}

theorem OpInv.schedAdd (h : OpInv freeAddr entriesAddr entries Scope.user proc m live frames) {o : Nat}
    (hrun : (Proc.schedAdd o).run m = .ok (u, m')) :
    OpInv freeAddr entriesAddr entries Scope.user proc m' live frames := by
  obtain rfl := update_ok.mp hrun
  exact h.same rfl rfl rfl (fun _ h => h) (fun _ _ => congrFun (ref_congr rfl rfl) _)

theorem OpInv.schedRemove (h : OpInv freeAddr entriesAddr entries Scope.user proc m live frames) {o : Nat}
    (hrun : (Proc.schedRemove o).run m = .ok (u, m')) :
    OpInv freeAddr entriesAddr entries Scope.user proc m' live frames := by
  obtain rfl := update_ok.mp hrun
  exact h.same rfl rfl rfl (fun _ h => h) (fun _ _ => congrFun (ref_congr rfl rfl) _)

/-- What an operation leaves behind, where `proc` is the process it makes or frees. -/
def Done (freeAddr entriesAddr : Nat) (entries : Array Pmm.MmapEntry) (proc : Nat) (m : Machine) : Prop :=
  ∃ live frames, OpInv freeAddr entriesAddr entries Scope.user proc m live frames

theorem OpInv.procExec (h : OpInv freeAddr entriesAddr entries Scope.user proc m live frames) (hfreed : m.freed = [])
    (hboot : Pmm.BootOk freeAddr entriesAddr entries) {elf : Nat → UInt8} {size : Nat} {b : Bool}
    (hrun : (Proc.procExec elf size).run m = .ok (b, m')) :
    ∃ o, m.state.procs o = none ∧ Done freeAddr entriesAddr entries o m' := by
  unfold Proc.procExec at hrun
  obtain ⟨proc, m₁, h₁, h₂⟩ := Exec.bind_ok.mp hrun
  obtain ⟨o, live₁, frames₁, ho, hinv₁, hnew⟩ := h.procAlloc hfreed hboot h₁
  refine ⟨o, ho, ?_⟩
  split at h₂
  · obtain ⟨-, rfl⟩ := Exec.pure_ok.mp h₂
    exact ⟨live₁, frames₁, hinv₁⟩
  · next h0 =>
    obtain ⟨rfl, p, hp, hp0⟩ := hnew h0
    obtain ⟨ok, m₂, h₃, h₄⟩ := Exec.bind_ok.mp h₂
    obtain ⟨frames₂, hinv₂⟩ := hinv₁.initProcFromElf hboot hp hp0 h₃
    split at h₄
    · obtain ⟨_, m₃, h₅, h₆⟩ := Exec.bind_ok.mp h₄
      obtain ⟨-, -, -, hinv₃⟩ := hinv₂.modifyProc h₅ (fun _ => rfl)
      obtain ⟨_, m₄, h₇, h₈⟩ := Exec.bind_ok.mp h₆
      obtain ⟨-, rfl⟩ := Exec.pure_ok.mp h₈
      exact ⟨live₁, frames₂, hinv₃.schedAdd h₇⟩
    · obtain ⟨_, m₃, h₅, h₆⟩ := Exec.bind_ok.mp h₄
      obtain ⟨-, rfl⟩ := Exec.pure_ok.mp h₆
      exact hinv₂.procFree hboot h₅

theorem OpInv.procClone (h : OpInv freeAddr entriesAddr entries Scope.user proc m live frames) (hfreed : m.freed = [])
    (hboot : Pmm.BootOk freeAddr entriesAddr entries) {parent r : Nat}
    (hrun : (Proc.procClone parent).run m = .ok (r, m')) :
    ∃ o, m.state.procs o = none ∧ Done freeAddr entriesAddr entries o m' := by
  unfold Proc.procClone at hrun
  obtain ⟨clone, m₁, h₁, h₂⟩ := Exec.bind_ok.mp hrun
  obtain ⟨o, live₁, frames₁, ho, hinv₁, hnew⟩ := h.procAlloc hfreed hboot h₁
  refine ⟨o, ho, ?_⟩
  split at h₂
  · obtain ⟨-, rfl⟩ := Exec.pure_ok.mp h₂
    exact ⟨live₁, frames₁, hinv₁⟩
  · next h0 =>
    obtain ⟨rfl, p, hp, hp0⟩ := hnew h0
    obtain ⟨ok, m₂, h₃, h₄⟩ := Exec.bind_ok.mp h₂
    obtain ⟨frames₂, hinv₂⟩ := hinv₁.initProcFromProc hboot hp hp0 h₃
    split at h₄
    · obtain ⟨q, m₃, h₅, h₆⟩ := Exec.bind_ok.mp h₄
      obtain ⟨-, rfl⟩ := getProc_ok.mp h₅
      obtain ⟨c, m₄, h₇, h₈⟩ := Exec.bind_ok.mp h₆
      obtain ⟨-, rfl⟩ := getProc_ok.mp h₇
      split at h₈
      · exact absurd h₈ Exec.throw_ok
      · obtain ⟨_, m₅, h₉, h₁₀⟩ := Exec.bind_ok.mp h₈
        obtain ⟨-, -, -, hinv₅⟩ := hinv₂.modifyProc h₉ (fun _ => rfl)
        obtain ⟨_, m₆, h₁₁, h₁₂⟩ := Exec.bind_ok.mp h₁₀
        obtain ⟨-, rfl⟩ := Exec.pure_ok.mp h₁₂
        exact ⟨live₁, frames₂, hinv₅.schedAdd h₁₁⟩
    · obtain ⟨_, m₃, h₅, h₆⟩ := Exec.bind_ok.mp h₄
      obtain ⟨-, rfl⟩ := Exec.pure_ok.mp h₆
      exact hinv₂.procFree hboot h₅

theorem OpInv.ktaskInitialize (h : OpInv freeAddr entriesAddr entries Scope.user proc m live frames)
    (hfreed : m.freed = []) (hboot : Pmm.BootOk freeAddr entriesAddr entries) {main : Nat}
    (hrun : (Proc.ktaskInitialize main).run m = .ok (u, m')) :
    ∃ o, m.state.procs o = none ∧ Done freeAddr entriesAddr entries o m' := by
  unfold Proc.ktaskInitialize at hrun
  obtain ⟨ktask, m₁, h₁, h₂⟩ := Exec.bind_ok.mp hrun
  obtain ⟨o, live₁, frames₁, ho, hinv₁, hnew⟩ := h.procAlloc hfreed hboot h₁
  refine ⟨o, ho, ?_⟩
  split at h₂
  · exact absurd h₂ Exec.throw_ok
  · next h0 =>
    obtain ⟨rfl, p, hp, hp0⟩ := hnew h0
    have hd : dirFrame m₁.state o = none := by rw [dirFrame, hp, Option.bind_some, if_pos hp0]
    obtain ⟨q, m₂, h₃, h₄⟩ := Exec.bind_ok.mp h₂
    obtain ⟨-, rfl⟩ := getProc_ok.mp h₃
    split at h₄
    · exact absurd h₄ Exec.throw_ok
    · obtain ⟨paddr, m₃, h₅, h₆⟩ := Exec.bind_ok.mp h₄
      obtain ⟨hp₃, -, frames₃, -, hinv₃, -⟩ := (hinv₁.building hd).pmmAllocPageAddress hboot h₅
      dsimp only at h₆
      split at h₆
      · exact absurd h₆ Exec.throw_ok
      · obtain ⟨ptr, m₄, h₇, h₈⟩ := Exec.bind_ok.mp h₆
        obtain ⟨hp₄, -, frames₄, -, hinv₄, hptr⟩ := hinv₃.allocEntries hboot h₇
        obtain ⟨_, m₅, h₉, h₁₀⟩ := Exec.bind_ok.mp h₈
        obtain ⟨hinv₅, hproc₅⟩ := hinv₄.setPageDir (by rw [hp₄, hp₃]; exact hp) h₉ (fun h0 => by
          obtain ⟨t, ht, htlt, -, hl, -, hempty⟩ := hptr h0
          rw [ht, frame_cast htlt]
          exact ⟨hl, hempty⟩)
        split at h₁₀
        · exact absurd h₁₀ Exec.throw_ok
        · next hne =>
          obtain ⟨_, m₆, h₁₁, h₁₂⟩ := Exec.bind_ok.mp h₁₀
          have hb₆ := (Building.modifyProc ⟨hinv₅, ⟨_, hproc₅, rfl⟩, hne⟩ h₁₁ (fun _ => rfl)).1
          obtain ⟨_, m₇, h₁₃, h₁₄⟩ := Exec.bind_ok.mp h₁₂
          exact ⟨live₁, frames₄, (hb₆.pgCopyKernelSpace h₁₃).schedAdd h₁₄⟩

theorem discard_ok {α : Type} {x : M α} (h : (discard x).run m = .ok (u, m')) : ∃ a, x.run m = .ok (a, m') := by
  obtain ⟨a, ha, -⟩ := Exec.map_ok.mp h
  exact ⟨a, ha⟩

/-- One operation: what it frees, at most the process that it makes or frees has. -/
theorem OpInv.op (h : OpInv freeAddr entriesAddr entries Scope.user 0 m live frames) (hfreed : m.freed = [])
    (hboot : Pmm.BootOk freeAddr entriesAddr entries) {op : Op} (hrun : op.run.run m = .ok (u, m')) :
    ∃ o, Done freeAddr entriesAddr entries o m' ∧ (m.state.procs o = none ∨ op = .reap o ∨ m'.freed = []) := by
  cases op with
  | exec elf size =>
    obtain ⟨b, hb⟩ := discard_ok hrun
    obtain ⟨o, ho, hdone⟩ := h.procExec hfreed hboot hb
    exact ⟨o, hdone, .inl ho⟩
  | clone proc =>
    obtain ⟨r, hr⟩ := discard_ok hrun
    obtain ⟨o, ho, hdone⟩ := h.procClone hfreed hboot hr
    exact ⟨o, hdone, .inl ho⟩
  | exit proc status =>
    have hrun' : (Proc.modifyProc proc fun p => { p with status := status, state := .dead }).run m = .ok (u, m') := hrun
    obtain ⟨-, -, -, hinv⟩ := h.modifyProc hrun' (fun _ => rfl)
    refine ⟨0, ⟨live, frames, hinv⟩, .inr (.inr ?_)⟩
    rw [update_ok.mp hrun']
    exact hfreed
  | reap proc =>
    obtain ⟨_, m₁, h₁, h₂⟩ := Exec.bind_ok.mp hrun
    exact ⟨proc, ((h.setCur hfreed proc).schedRemove h₁).procFree hboot h₂, .inr (.inl rfl)⟩
  | ktask main =>
    obtain ⟨o, ho, hdone⟩ := h.ktaskInitialize hfreed hboot hrun
    exact ⟨o, hdone, .inl ho⟩

theorem Run.inv (hboot : Pmm.BootOk freeAddr entriesAddr entries) (h : Run freeAddr entriesAddr entries s)
    (fails : List Bool) : Done freeAddr entriesAddr entries 0 ⟨s, fails, []⟩ := by
  induction h generalizing fails with
  | @init slab live frames mem pgDir procCache hslab hcache =>
    have hnone : ∀ a, ref (initState slab mem pgDir procCache) a = none := by
      intro a
      cases a <;> rfl
    refine ⟨live, frames, hslab, hcache, fun o p hp => ?_, fun a _ b _ f hf => ?_, fun a _ f hf => ?_, by simp⟩
    · cases hp
    · rw [hnone] at hf
      cases hf
    · rw [hnone] at hf
      cases hf
  | step _ _ hrun ih =>
    obtain ⟨live, frames, hinv⟩ := ih _
    obtain ⟨o, ⟨live', frames', hinv'⟩, -⟩ := hinv.op rfl hboot hrun
    exact ⟨live', frames', { hinv' with freed := by simp }⟩

end

end Airix.Proc
