import Airix.Proc.Life

/-!
# Every step keeps the processes whole

From `ktask_initialize` on, whatever is started, forks, exits or is reaped, and whatever programs write in between:
every process has a complete space of its own, and one that was made from a file, or cloned from such a one, has the
pages and the rights that the file asks for.
-/

namespace Airix.Proc

/-- A computation beside another state. -/
theorem lift_ok {ρ α : Type} {x : M α} {r r' : ρ} {a : α} {m m' : Machine}
    (h : ((liftM x : StateT ρ M α).run r).run m = .ok ((a, r'), m')) : x.run m = .ok (a, m') ∧ r' = r := by
  rw [StateT.run_monadLift] at h
  obtain ⟨b, m₁, h₁, h₂⟩ := Exec.bind_ok.mp h
  obtain ⟨e, rfl⟩ := Exec.pure_ok.mp h₂
  obtain ⟨rfl, rfl⟩ := Prod.mk.inj e
  exact ⟨h₁, rfl⟩

/-- `sched_task_fork` is `proc_clone`, and sets the return values. -/
theorem schedTaskFork_ok {parent : Nat} {r r' : Nat → Nat} {m m' : Machine} {u : Unit}
    (h : ((schedTaskFork parent).run r).run m = .ok ((u, r'), m')) :
    ∃ child, (procClone parent).run m = .ok (child, m') ∧
      ((child ≠ 0 ∧ ∃ c, m'.state.procs child = some c ∧
          r' = Function.update (Function.update r parent (BitVec.ofInt 32 c.pid).toNat) child 0) ∨
        (child = 0 ∧ r' = Function.update r parent (BitVec.ofInt 32 (-1)).toNat)) := by
  unfold schedTaskFork at h
  rw [StateT.run_bind] at h
  obtain ⟨⟨child, r₁⟩, m₁, h₁, h₂⟩ := Exec.bind_ok.mp h
  obtain ⟨h₃, rfl⟩ := lift_ok h₁
  refine ⟨child, ?_⟩
  dsimp only at h₂
  split at h₂
  · next hne =>
    rw [StateT.run_bind] at h₂
    obtain ⟨⟨c, r₂⟩, m₃, h₅, h₆⟩ := Exec.bind_ok.mp h₂
    obtain ⟨h₇, rfl⟩ := lift_ok h₅
    obtain ⟨hc, rfl⟩ := getProc_ok.mp h₇
    obtain ⟨e, rfl⟩ := Exec.pure_ok.mp h₆
    exact ⟨h₃, .inl ⟨hne, c, hc, (Prod.mk.inj e).2.symm⟩⟩
  · next h0 =>
    obtain ⟨e, rfl⟩ := Exec.pure_ok.mp h₂
    exact ⟨h₃, .inr ⟨not_not.mp h0, (Prod.mk.inj e).2.symm⟩⟩

/-! ### New spaces -/

namespace Space
variable {x z v : Space} {elf : Nat → UInt8}

theorem Remains.counted (h : x.Remains z) (hx : x.Sound) : z.Counted (x.places.filter fun a => ¬ a.User).card := by
  show z.proc.memPages = u32 (z.places.card + _)
  rw [h.memPages, h.places, Finset.card_filter_add_card_filter_not, hx.pages]

theorem Remains.rights (h : x.Remains z) (hx : x.Sound) (hlimit : z.limit = userPdes) (hr : x.Rights elf) : z.Rights elf :=
  hr.congr hlimit (hx.limit.symm ▸ (by decide)) fun a _ => h.flag a

/-- The places of a complete space are below `KERNEL_BASE`. -/
theorem Ok.allUser (h : x.Ok) (hlimit : x.limit = userPdes) (hhand : .hand ∉ x.places) : x.AllUser := by
  have htable : ∀ pde, .table pde ∈ x.places → pde < userPdes := fun pde hm => lt_of_lt_of_eq (h.table pde hm).2 hlimit
  intro a ha
  cases a with
  | dir => trivial
  | table pde => exact htable pde ha
  | page pde pte => exact htable pde (h.page _ _ ha).1
  | hand => exact absurd ha hhand

/-- What is left of a copy. -/
structure Copied (v z : Space) : Prop where
  places : z.places = v.places
  flag : ∀ a : Place, a ≠ .dir → z.flag a = v.flag a
  words : ∀ pde pte, .page pde pte ∈ z.places → z.words (.page pde pte) = v.words (.page pde pte)

theorem CopyOf.copied (hc : CopyOf v ∅ x) (h : x.Remains z) (hv : v.Ok) (hall : v.AllUser) (hz : z.Ok) : Copied v z := by
  have hplaces : x.places = v.places := by
    ext a
    rw [hc.places]
    simp
  have hz' : z.places = v.places := by
    rw [h.places, hplaces]
    exact Finset.filter_true_of_mem fun a ha => hall a ha
  refine ⟨hz', fun a ha => ?_, fun pde pte hm => ?_⟩
  · by_cases hm : a ∈ z.places
    · have hmv : a ∈ v.places := hz' ▸ hm
      rw [h.flag a, if_pos (hall a hmv)]
      exact hc.flag a (hplaces ▸ hmv) ha
    · rw [hz.flag_none hm, hv.flag_none (hz' ▸ hm)]
  · rw [h.words _ (by simp)]
    exact hc.words pde pte (by rw [hplaces, ← hz']; exact hm)

theorem Copied.rights (h : Copied v z) (hv : v.Ok) (hall : v.AllUser) (hlimit : z.limit = userPdes)
    (hlimit' : v.limit = userPdes) (hr : v.Rights elf) : z.Rights elf := by
  refine hr.congr hlimit hlimit'.ge fun a ha => ?_
  rw [h.flag a ha]
  split_ifs with hu
  · rfl
  · exact hv.flag_none fun hm => hu (hall a hm)

theorem Copied.counted (h : Copied v z) (hpages : z.proc.memPages = v.proc.memPages) {c : Nat} (hc : v.Counted c) :
    z.Counted c := by
  show z.proc.memPages = u32 (z.places.card + c)
  rw [hpages, h.places]
  exact hc

end Space

section
variable {B : Boot} {σ σ' : Sys} {s s' : State} {o o' pid : Nat} {z : Space}

/-! ### Which process is new -/

theorem Made.isNew (h : Made s s' o pid z) (o' : Nat) : isNew s s' o' = decide (o' = o) := by
  unfold Proc.isNew
  by_cases e : o' = o
  · subst e
    simp [h.none, h.settled.proc]
  · rw [h.others o' e]
    cases s.procs o' <;> simp [e]

theorem Unmade.isNew (h : Unmade s s') (o' : Nat) : isNew s s' o' = false := by
  unfold Proc.isNew
  rw [h.procs]
  cases s.procs o' <;> rfl

/-! ### The steps -/

namespace Inv

theorem done (h : Inv B σ) (fails : List Bool) : Done B.free B.entriesAddr B.sorted 0 ⟨σ.state, fails, []⟩ :=
  Done.setFails h.op fails

theorem exec (h : Inv B σ) {elf : Nat → UInt8} {size : Nat} {fails : List Bool} {b : Bool} {m : Machine}
    (hrun : (procExec elf size).run ⟨σ.state, fails, []⟩ = .ok (b, m)) : Inv B (σ.exec elf m.state) := by
  obtain ⟨live, frames, hop⟩ := h.done fails
  obtain ⟨o', -, hdone⟩ := hop.procExec rfl B.bootOk hrun
  rcases hop.procExec_ok rfl B.windowOk h.pgDir_not_free hrun with ⟨-, o, pid, x, z, hm, hx, hrights, hall, hcard, hrem⟩ | ⟨-, hu⟩
  · have hm' : Made σ.state m.state o pid z := hm
    have hprog : ∀ o', o' ≠ o → (σ.exec elf m.state).program o' = σ.program o' := by
      intro o' e
      simp [Sys.exec, hm'.isNew, e]
    have hself : (σ.exec elf m.state).program o = some elf := by simp [Sys.exec, hm'.isNew]
    refine h.made hm' (hdone.setFails []) hprog ⟨_, hrem.counted hx⟩ ?_ ?_
      fun o' ho' _ => h.fork o' ho'
    · rintro elf' he hb
      rw [hself] at he
      obtain rfl := Option.some.inj he
      exact hrem.rights hx hm'.settled.limit (hrights hb)
    · rintro elf' he hb
      rw [hself] at he
      obtain rfl := Option.some.inj he
      exact ⟨_, (Finset.card_filter_le _ _).trans hcard, hrem.counted hx, Space.card_notUser_eq_zero.trans (hall hb)⟩
  · have hu' : Unmade σ.state m.state := hu
    refine h.unmade hu' (hdone.setFails []) ?_ h.fork
    funext o'
    simp [Sys.exec, hu'.isNew]

theorem settled_allUser {v : Space} (hv : Settled s o v) : v.AllUser := hv.ok.allUser hv.limit hv.hand

theorem fork_step (h : Inv B σ) {parent : Nat} {p : Process} {fails : List Bool} {retvalue : Nat → Nat} {m : Machine}
    (hp : σ.state.procs parent = some p) (hstate : p.state = .running)
    (hrun : ((schedTaskFork parent).run σ.retvalue).run ⟨σ.state, fails, []⟩ = .ok (((), retvalue), m)) :
    Inv B (σ.fork parent m.state retvalue) := by
  obtain ⟨child, hclone, -⟩ := schedTaskFork_ok hrun
  obtain ⟨live, frames, hop⟩ := h.done fails
  obtain ⟨o', -, hdone⟩ := hop.procClone rfl B.bootOk hclone
  obtain ⟨v, hv⟩ := h.procs parent p hp
  rcases hop.procClone_ok rfl B.windowOk h.pgDir_not_free hv.settled hclone with
    ⟨-, pid, x, z, hm, hx, hcopy, hrem, hproc⟩ | ⟨-, hu⟩
  · have hm' : Made σ.state m.state child pid z := hm
    have hall := settled_allUser hv.settled
    have hcopied := hcopy.copied hrem hv.settled.ok hall hm'.settled.ok
    have hpages : z.proc.memPages = v.proc.memPages := by rw [hproc]
    have hprog : ∀ o', o' ≠ child → (σ.fork parent m.state retvalue).program o' = σ.program o' := by
      intro o' e
      simp [Sys.fork, hm'.isNew, e]
    have hself : (σ.fork parent m.state retvalue).program child = σ.program parent := by
      simp [Sys.fork, hm'.isNew]
    refine h.made hm' (hdone.setFails []) hprog ?_ ?_ ?_ fun o' ho' hne => ?_
    · obtain ⟨c, hc⟩ := hv.count
      exact ⟨c, hcopied.counted hpages hc⟩
    · intro elf he hb
      rw [hself] at he
      exact hcopied.rights hv.settled.ok hall hm'.settled.limit hv.settled.limit (hv.rights elf he hb)
    · intro elf he hb
      rw [hself] at he
      obtain ⟨c, hle, hc, hiff⟩ := hv.counted elf he hb
      exact ⟨c, hle, hcopied.counted hpages hc, hiff⟩
    · by_cases e : o' = parent
      · exact ⟨p, e ▸ hp, by rw [hstate]; simp⟩
      · refine h.fork o' ?_
        simpa [Sys.fork, hm'.isNew, hne, e] using ho'
  · have hu' : Unmade σ.state m.state := hu
    refine h.unmade hu' (hdone.setFails []) ?_ fun o' ho' => ?_
    · funext o'
      simp [Sys.fork, hu'.isNew]
    · by_cases e : o' = parent
      · exact ⟨p, e ▸ hp, by rw [hstate]; simp⟩
      · refine h.fork o' ?_
        simpa [Sys.fork, hu'.isNew, e] using ho'

theorem back (h : Inv B σ) : Inv B { σ with forking := Function.update σ.forking o false } := by
  refine ⟨h.op, h.pgDir, h.kernel, fun o' p hp => ?_, h.bit, h.gen, fun o' ho' => ?_⟩
  · obtain ⟨z, hz⟩ := h.procs o' p hp
    exact ⟨z, hz.settled, hz.count, hz.rights, hz.counted, hz.pid, hz.zero⟩
  · have hne : o' ≠ o := by
      rintro rfl
      simp at ho'
    refine h.fork o' ?_
    simpa [hne] using ho'

theorem exit (h : Inv B σ) {p : Process} {status : Int} {m : Machine} (hp : σ.state.procs o = some p) (hpid : p.pid ≠ 0)
    (hfork : σ.forking o = false) (hrun : (procExit o status).run ⟨σ.state, [], []⟩ = .ok ((), m)) :
    Inv B { σ with state := m.state } := by
  unfold procExit modifyProc at hrun
  obtain rfl := update_ok.mp hrun
  dsimp only
  rw [hp]
  exact h.setProc hp rfl rfl rfl (fun h0 => absurd h0 hpid)
    (fun hf => by rw [hfork] at hf; cases hf)

theorem reap (h : Inv B σ) {p : Process} {m : Machine} (hp : σ.state.procs o = some p) (hdead : p.state = .dead)
    (hrun : (schedReap o).run ⟨σ.state, [], []⟩ = .ok ((), m)) :
    Inv B { σ with state := m.state, program := Function.update σ.program o none } := by
  obtain ⟨z, hz⟩ := h.procs o p hp
  obtain ⟨c, hc⟩ := hz.count
  obtain ⟨live, frames, hop⟩ := h.op
  have hzp : z.proc = p := Option.some.inj (hz.settled.proc.symm.trans hp)
  obtain ⟨-, hr⟩ := (hop.schedReap_spec B.windowOk hz.settled hc).1 _ m hrun
  obtain ⟨_, m₁, h₁, h₂⟩ := Exec.bind_ok.mp hrun
  obtain ⟨live', frames', hop'⟩ := ((hop.setCur rfl o).schedRemove h₁).procFree B.bootOk h₂
  refine h.reaped hz (by rw [hzp]; exact hdead)
    hr ?_ (fun o' hne => Function.update_of_ne hne _ _) rfl
  exact Done.setFails (o := o) ⟨live', frames', hop'⟩ []

/-- What one step keeps. -/
theorem step (h : Inv B σ) (hs : Step B σ σ') : Inv B σ' := by
  cases hs with
  | exec hrun => exact h.exec hrun
  | fork hp hstate _ hrun => exact h.fork_step hp hstate hrun
  | back _ => exact h.back
  | exit hp _ hpid hfork hrun => exact h.exit hp hpid hfork hrun
  | reap hp hdead hrun => exact h.reap hp hdead hrun
  | @turn o p state hp _ hstate =>
    have hlive : state ≠ .dead := by rcases hstate with rfl | rfl <;> simp
    exact h.setProc hp rfl rfl rfl (fun _ => hlive) (fun _ => hlive)
  | @save o p context hp =>
    obtain ⟨z, hz⟩ := h.procs o p hp
    obtain rfl : z.proc = p := Option.some.inj (hz.settled.proc.symm.trans hp)
    refine h.setProc hp rfl rfl rfl hz.zero fun ho => ?_
    obtain ⟨q, hq, hstate⟩ := h.fork o ho
    rw [hp] at hq
    obtain rfl := Option.some.inj hq
    exact hstate
  | other ho => exact h.other ho

/-- `proc_exec` makes one process, and changes no other. -/
theorem exec_others (h : Inv B σ) {elf : Nat → UInt8} {size : Nat} {fails : List Bool} {b : Bool} {m : Machine}
    (hrun : (procExec elf size).run ⟨σ.state, fails, []⟩ = .ok (b, m)) (ho : isNew σ.state m.state o = true)
    (hne : o' ≠ o) : m.state.procs o' = σ.state.procs o' := by
  obtain ⟨live, frames, hop⟩ := h.done fails
  rcases hop.procExec_ok rfl B.windowOk h.pgDir_not_free hrun with ⟨-, o'', pid, x, z, hm, -⟩ | ⟨-, hu⟩
  · have hm' : Made σ.state m.state o'' pid z := hm
    rw [hm'.isNew, decide_eq_true_iff] at ho
    subst ho
    exact hm'.others o' hne
  · exact congrFun hu.procs o'

/-- After `ktask_initialize` there is the kernel task, and nothing else. -/
theorem init_procs {slab : Slab.State} {live : Nat → Option Slab.Live} {frames : Finset (Nat × Nat)} {mem : Nat → Nat → Nat}
    {procCache main : Nat} {fails : List Bool} {m : Machine}
    (hslab : Slab.Run B.free B.entriesAddr B.sorted slab live frames) (hcache : Slab.Valid live (.created procCache))
    (hrun : (ktaskInitialize main).run ⟨initState slab mem B.machine.pgDir procCache, fails, []⟩ = .ok ((), m)) :
    ∃ o z, Made (initState slab mem B.machine.pgDir procCache) m.state o 0 z ∧ z.places = {.dir} ∧ z.proc.memPages = 0 ∧
      ∀ o' p, m.state.procs o' = some p → o' = o ∧ p = z.proc := by
  obtain ⟨live', frames', hop⟩ := (Run.init mem B.machine.pgDir hslab hcache).inv B.bootOk fails
  have hkernel : B.KernelFrame (Slab.frame B.machine.pgDir) := Boot.kernelFrame_pgDir
  obtain ⟨o, z, hm, hplaces, hpages⟩ := hop.ktaskInitialize_ok rfl B.windowOk
    (hslab.not_reserved B.bootOk hkernel.reserved).1 hrun
  have hm' : Made (initState slab mem B.machine.pgDir procCache) m.state o 0 z := hm
  refine ⟨o, z, hm', hplaces, hpages, fun o' p hp => ?_⟩
  have he : o' = o := by
    by_contra hne
    rw [hm'.others o' hne] at hp
    cases hp
  subst he
  exact ⟨rfl, Option.some.inj (hp.symm.trans hm'.settled.proc)⟩

theorem init {slab : Slab.State} {live : Nat → Option Slab.Live} {frames : Finset (Nat × Nat)} {mem : Nat → Nat → Nat}
    {procCache main : Nat} {fails : List Bool} {m : Machine}
    (hslab : Slab.Run B.free B.entriesAddr B.sorted slab live frames) (hcache : Slab.Valid live (.created procCache))
    (hmem : ∀ f, B.KernelFrame f → mem f = B.machine.mem f)
    (hrun : (ktaskInitialize main).run ⟨initState slab mem B.machine.pgDir procCache, fails, []⟩ = .ok ((), m)) :
    Inv B ⟨m.state, fun _ => 0, fun _ => false, fun _ => none⟩ := by
  obtain ⟨live', frames', hop⟩ := (Run.init mem B.machine.pgDir hslab hcache).inv B.bootOk fails
  have hkernel : ∀ f, B.KernelFrame f → ¬ Pmm.FreePage slab.pmm f := fun f hf => (hslab.not_reserved B.bootOk hf.reserved).1
  obtain ⟨o', -, hdone⟩ := hop.ktaskInitialize rfl B.bootOk hrun
  obtain ⟨o, z, hm, hplaces, hpages, honly⟩ := init_procs hslab hcache hrun
  refine ⟨hdone.setFails [], hm.pgDir, fun f hf => (hm.mem f (hkernel f hf)).trans (hmem f hf), fun o' p hp => ?_, ?_,
    hm.gen (show 0 < procMaxNum by decide), fun _ h => absurd h (by simp)⟩
  · obtain ⟨rfl, -⟩ := honly o' p hp
    refine ⟨z, hm.settled, ⟨2 ^ 32 - 1, ?_⟩, fun _ h => absurd h (by simp), fun _ h => absurd h (by simp),
      ⟨0, by decide, hm.pid_eq⟩, fun _ => by rw [hm.state]; simp⟩
    show z.proc.memPages = u32 (z.places.card + (2 ^ 32 - 1))
    rw [hpages, hplaces]
    decide
  · show m.state.pidMap 0 = true
    rw [hm.pidMap, Function.update_self]

end Inv

/-- The invariant holds in every run. -/
theorem Life.inv (h : Life B σ) : Inv B σ := by
  induction h with
  | init hslab hcache hmem hrun => exact .init hslab hcache hmem hrun
  | step _ hs ih => exact ih.step hs

end

/-! ### A machine with 128 KiB from the kernel on -/

def tinyMap : Array Pmm.MmapEntry := #[⟨0x100000, 0, 0x20000, 0, 1⟩]

theorem tinyMap_ok : Paging.PagingOk 0x101000 0xC0007E08 tinyMap where
  words := by decide
  nonempty := by decide
  disjoint := by decide
  kernel := by decide
  room := by decide
  map_le := by decide
  reach := by decide

def tinyMachine : Paging.Machine :=
  ((Paging.bootPaging (fun _ _ => 0) 0x101000 tinyMap).map fun x => x.1).getD ⟨fun _ _ => 0, 0, 0⟩

theorem tinyMachine_booted : Paging.bootPaging (fun _ _ => 0) 0x101000 tinyMap =
    some (tinyMachine, Paging.pagingEnd 0x101000 tinyMap, qsort Pmm.mmapEntryCompare tinyMap) := by
  obtain ⟨boot, he, -⟩ := tinyMap_ok.bootPaging fun _ _ => 0
  rw [he, tinyMachine, he]
  rfl

def tinyBoot : Boot where
  mem := fun _ _ => 0
  freeAddr := 0x101000
  entriesAddr := 0xC0007E08
  entries := tinyMap
  machine := tinyMachine
  ok := tinyMap_ok
  window := by decide
  booted := tinyMachine_booted

theorem tinyBoot_free : tinyBoot.free = 0x103000 := by decide

theorem tinyBoot_sorted : tinyBoot.sorted = tinyMap := by decide

/-- The cache for processes, in a slab allocator that has nothing else. -/
def tinySlab : Except Slab.Panic (Nat × Slab.State) :=
  Slab.slabCreateKmemCache (Slab.initState (Pmm.pmmInitialize 0x103000 0xC0007E08 tinyMap)) 128 4

/-- One operation of the kernel ends, and the next one begins. -/
def between : M Unit := modify fun m => ⟨m.state, [], []⟩

theorem between_ok {m m' : Machine} {u : Unit} (h : between.run m = .ok (u, m')) : m' = ⟨m.state, [], []⟩ :=
  (Prod.mk.inj (Except.ok.inj h)).2.symm

/-- After `ktask_initialize`, `smallElf` is started, and then comes `x` on its process. -/
def tinySteps {α : Type} (x : Nat → M α) : M (Bool × Nat × α) := do
  ktaskInitialize 0
  between
  let s ← getState
  let _ ← procExec smallElf 84
  between
  let s' ← getState
  let o := (s'.sched.next none).join.getD 0
  let a ← x o
  return (isNew s s' o && (s'.procs o).any fun p => p.state == .running, o, a)

def tinyRun {α : Type} (x : Nat → M α) : Except Panic ((Bool × Nat × α) × Machine) :=
  match tinySlab with
  | .error e => .error (.slab e)
  | .ok (cache, slab) => (tinySteps x).run ⟨initState slab tinyMachine.mem 0xC0101000 cache, [], []⟩

theorem tinyRun_ok {α : Type} {x : Nat → M α} {P : Nat → α → Bool}
    (h : (match tinyRun x with | .ok ((b, o, a), _) => b && P o a | .error _ => false) = true) :
    ∃ σ o p a m, Life tinyBoot σ ∧ σ.program o = some smallElf ∧ σ.state.procs o = some p ∧ p.state = .running ∧
      σ.forking o = false ∧ σ.retvalue = (fun _ => 0) ∧ (∀ o' p', σ.state.procs o' = some p' → o' = o ∨
        (p'.pid = 0 ∧ p'.state = .running)) ∧ (x o).run ⟨σ.state, [], []⟩ = .ok (a, m) ∧ P o a = true := by
  unfold tinyRun at h
  cases hs : tinySlab with
  | error e => simp [hs] at h
  | ok r =>
    obtain ⟨cache, slab⟩ := r
    have hsize : Slab.CreateOk 128 4 := ⟨by decide, ⟨2, by decide, by decide, rfl⟩, by decide⟩
    have hslab := Slab.Run.create (.init .init) hsize hs
    rw [← tinyBoot_free, ← tinyBoot_sorted] at hslab
    simp only [hs] at h
    have hdir : (0xC0101000 : Nat) = tinyBoot.machine.pgDir := by decide +kernel
    rw [hdir] at h
    cases hrun : (tinySteps x).run ⟨initState slab tinyMachine.mem tinyBoot.machine.pgDir cache, [], []⟩ with
    | error e => rw [hrun] at h; simp at h
    | ok r =>
      obtain ⟨⟨b, o, a⟩, m⟩ := r
      rw [hrun] at h
      obtain ⟨_, m₁, h₁, hrun⟩ := Exec.bind_ok.mp hrun
      obtain ⟨_, m₂, h₂, hrun⟩ := Exec.bind_ok.mp hrun
      obtain rfl := between_ok h₂
      obtain ⟨s, m₃, h₃, hrun⟩ := Exec.bind_ok.mp hrun
      obtain ⟨rfl, rfl⟩ := getState_ok.mp h₃
      obtain ⟨b', m₄, h₄, hrun⟩ := Exec.bind_ok.mp hrun
      obtain ⟨_, m₅, h₅, hrun⟩ := Exec.bind_ok.mp hrun
      obtain rfl := between_ok h₅
      obtain ⟨s', m₆, h₆, hrun⟩ := Exec.bind_ok.mp hrun
      obtain ⟨rfl, rfl⟩ := getState_ok.mp h₆
      obtain ⟨a', m₇, h₇, hrun⟩ := Exec.bind_ok.mp hrun
      obtain ⟨e, rfl⟩ := Exec.pure_ok.mp hrun
      simp only [Prod.mk.injEq] at e
      obtain ⟨rfl, rfl, rfl⟩ := e
      simp only [Bool.and_eq_true] at h
      obtain ⟨⟨hnew, hrunning⟩, hP⟩ := h
      have hlife := Life.init (B := tinyBoot) hslab ⟨_, Function.update_self _ _ _⟩ (fun _ _ => rfl) h₁
      obtain ⟨_, z, hm, -, -, honly⟩ := Inv.init_procs (B := tinyBoot) hslab ⟨_, Function.update_self _ _ _⟩ h₁
      have hnew' := hnew
      unfold isNew at hnew'
      rw [Bool.and_eq_true] at hnew'
      obtain ⟨p, hp⟩ := Option.isSome_iff_exists.mp hnew'.2
      rw [hp, Option.any_some, beq_iff_eq] at hrunning
      refine ⟨_, _, p, _, m₇, .step hlife (.exec h₄), ?_, hp, hrunning, rfl, ?_, fun o' p' hp' => ?_, h₇, hP⟩
      · simp only [Sys.exec, hnew]
        rfl
      · funext o'
        simp [Sys.exec]
      · -- what is not new is the kernel task
        refine or_iff_not_imp_left.mpr fun e => ?_
        have hp'' := (hlife.inv.exec_others h₄ hnew e).symm.trans hp'
        obtain ⟨-, rfl⟩ := honly o' p' hp''
        exact ⟨hm.pid_eq, hm.state⟩

theorem bounded_smallElf : Bounded smallElf := by
  unfold Bounded
  rw [segments_smallElf]
  decide

theorem mem_pagesOf_smallElf {n : Nat} : n ∈ pagesOf (segments smallElf) ↔ n = 1 := by
  rw [segments_smallElf]
  simp only [pagesOf, ProgHeader.Overlaps, List.mem_singleton, exists_eq_left, Set.mem_ofPred_eq, pageSize]
  omega

theorem belowKernel_smallElf : Space.BelowKernel smallElf := by
  intro n hn
  rw [mem_pagesOf_smallElf.mp hn]
  decide

end Airix.Proc
