import Airix.Proc.System

/-!
# What `fork` makes

The child of `sched_fork` has what its parent has, in frames of its own; and the two values that `sched_fork` returns
are still there when the scheduler comes back.
-/

namespace Airix.Proc

/-- The frames of a process: the directory, the tables, and the pages below `KERNEL_BASE`. -/
def framesOf (s : State) (o : Nat) : Set Nat :=
  {f | dirFrame s o = some f ∨ (∃ pde < userPdes, tableFrame s o pde = some f) ∨
    ∃ pde < userPdes, ∃ pte < numPte, pageFrame s o pde pte = some f}

section
variable {B : Boot} {σ : Sys} {s : State} {o f : Nat} {z : Space} {b : Place} {i : Nat}

/-- An entry refers to the frame of its place, or to none. -/
theorem Settled.frameAt_some (h : Settled s o z) (hb : b ∈ z.places) (he : b.HasEntries) (hi : i < z.size b)
    (hf : frameAt (s.mem (z.frame b) i) = some f) : b.entry i ∈ z.places ∧ z.frame (b.entry i) = f := by
  have hentry := (h.fits b hb).entry he hi
  have hm : b.entry i ∈ z.places := by
    by_contra hm
    have h0 : entryAddress (s.mem (z.frame b) i) = 0 := (hentry.none_iff h.ok fun hm' => absurd hm' hm).mpr (h.ok.flag_none hm)
    rw [frameAt_eq_none.mpr h0] at hf
    cases hf
  rw [h.frameAt_eq hb he hi hm] at hf
  exact ⟨hm, Option.some.inj hf⟩

theorem Settled.table_of_frame (h : Settled s o z) {pde : Nat} (hpde : pde < userPdes) (hf : tableFrame s o pde = some f) :
    .table pde ∈ z.places ∧ z.frame (.table pde) = f := by
  rw [tableFrame, h.dirFrame_eq, Option.bind_some] at hf
  exact h.frameAt_some h.dir trivial (hpde.trans_eq h.limit.symm) hf

theorem Settled.mem_framesOf (h : Settled s o z) : f ∈ framesOf s o ↔ ∃ a ∈ z.places, z.frame a = f := by
  constructor
  · rintro (hf | ⟨pde, hpde, hf⟩ | ⟨pde, hpde, pte, hpte, hf⟩)
    · exact ⟨.dir, h.dir, Option.some.inj (h.dirFrame_eq.symm.trans hf)⟩
    · exact ⟨_, h.table_of_frame hpde hf⟩
    · obtain ⟨t, ht, hf⟩ := Option.bind_eq_some_iff.mp hf
      obtain ⟨hm, rfl⟩ := h.table_of_frame hpde ht
      exact ⟨_, h.frameAt_some (b := .table pde) hm trivial hpte hf⟩
  · rintro ⟨a, ha, rfl⟩
    cases a with
    | dir => exact .inl h.dirFrame_eq
    | table pde => exact .inr (.inl ⟨pde, (h.tableFrame_eq ha).2, (h.tableFrame_eq ha).1⟩)
    | page pde pte =>
      obtain ⟨hm, hlt⟩ := h.ok.page _ _ ha
      refine .inr (.inr ⟨pde, (h.tableFrame_eq hm).2, pte, hlt, ?_⟩)
      rw [pageFrame, (h.tableFrame_eq hm).1, Option.bind_some]
      exact h.frameAt_eq (b := .table pde) hm trivial hlt ha
    | hand => exact absurd ha h.hand

theorem framesOf_eq_empty (h : s.procs o = none) : framesOf s o = ∅ := by
  have hdir : dirFrame s o = none := by rw [dirFrame, h, Option.bind_none]
  refine Set.eq_empty_of_forall_notMem fun f => ?_
  rintro (hf | ⟨pde, -, hf⟩ | ⟨pde, -, pte, -, hf⟩)
  · rw [hdir] at hf
    cases hf
  · rw [tableFrame, hdir] at hf
    cases hf
  · rw [pageFrame, tableFrame, hdir] at hf
    cases hf

/-! ### What a process sees -/

theorem user_limit (h : Settled s o z) {vaddr : Nat} (hv : vaddr < kernelBase) : vaddr / pageSize / numPte < z.limit := by
  rw [h.limit]
  unfold userPdes kernelBase numPte pageSize at *
  omega

theorem Inv.lookup_eq (h : Inv B σ) (hz : Settled σ.state o z) {vaddr : Nat} (hv : vaddr < kernelBase) :
    lookup σ.state o vaddr = (z.flag (vpage (vaddr / pageSize))).map fun k =>
      ⟨(z.flag (.table (vaddr / pageSize / numPte))).getD 0, k, z.frame (vpage (vaddr / pageSize))⟩ := by
  obtain ⟨live, frames, hop⟩ := h.op
  exact (hz.rep hop).lookup_eq B.windowOk hz.linked hz.dir hz.pageDir (hv.trans (by decide)) (user_limit hz hv)

theorem Inv.byteAt_eq (h : Inv B σ) (hz : Settled σ.state o z) {vaddr : Nat} (hv : vaddr < kernelBase) :
    byteAt σ.state o vaddr = (z.flag (vpage (vaddr / pageSize))).map fun _ =>
      wordByte (z.words (vpage (vaddr / pageSize)) (vaddr % pageSize / 4)) vaddr := by
  obtain ⟨live, frames, hop⟩ := h.op
  rw [byteAt, h.lookup_eq hz hv]
  cases hk : z.flag (vpage (vaddr / pageSize)) with
  | none => rfl
  | some k =>
    have hw : σ.state.mem (z.frame (vpage (vaddr / pageSize))) = z.words (vpage (vaddr / pageSize)) := (hz.rep hop).words hk
    simp [hw]

/-- The flags of the two entries for an address. -/
def rights (s : State) (o vaddr : Nat) : Option (Nat × Nat) := (lookup s o vaddr).map fun x => (x.tableFlag, x.pageFlag)

/-- The child is a copy of its parent as that is in `s`, in frames that were free. -/
structure Forked (B : Boot) (s s' : State) (parent child : Nat) (p c : Process) : Prop where
  new : s.procs child = none
  proc : s'.procs child = some c
  pid : 0 < c.pid ∧ c.pid < procMaxNum
  bit : s.pidMap c.pid.toNat = false ∧ s'.pidMap = Function.update s.pidMap c.pid.toNat true
  state : c.state = .running
  fields : c.memPages = p.memPages ∧ c.context = p.context ∧ c.entry = p.entry ∧ c.kernelStack = p.kernelStack ∧
    c.userStack = p.userStack ∧ c.parent = parent
  bytes : ∀ vaddr < kernelBase, byteAt s' child vaddr = byteAt s parent vaddr
  rights : ∀ vaddr < kernelBase, Proc.rights s' child vaddr = Proc.rights s parent vaddr
  tables : ∀ pde < userPdes, (tableFrame s' child pde).isSome = (tableFrame s parent pde).isSome
  fresh : ∀ f ∈ framesOf s' child, Pmm.FreePage s.slab.pmm f ∧ ¬ Pmm.FreePage s'.slab.pmm f
  kernel : ∀ d, dirFrame s' child = some d → ∀ i, userPdes ≤ i → i < numPde →
    s'.mem d i = B.machine.mem (Paging.dirFrame B.freeAddr) i
  others : ∀ o, o ≠ child → s'.procs o = s.procs o
  kept : ∀ f, ¬ Pmm.FreePage s.slab.pmm f → s'.mem f = s.mem f

theorem Inv.forked {σ' : Sys} {parent child pid : Nat} {p : Process} {v : Space} (h : Inv B σ) (h' : Inv B σ')
    (hp : σ.state.procs parent = some p) (hv : Settled σ.state parent v) (hm : Made σ.state σ'.state child pid z)
    (hcopied : Space.Copied v z)
    (hproc : z.proc = { z.proc with memPages := v.proc.memPages, context := v.proc.context, entry := v.proc.entry
                                    kernelStack := v.proc.kernelStack, userStack := v.proc.userStack, parent := parent }) :
    Forked B σ.state σ'.state parent child p z.proc := by
  have hvp : v.proc = p := Option.some.inj (hv.proc.symm.trans hp)
  have hpos : pid ≠ 0 := by
    rintro rfl
    have := hm.bit
    rw [h.bit] at this
    cases this
  have hflag : ∀ a : Place, a ≠ .dir → z.flag a = v.flag a := hcopied.flag
  have hpage : ∀ n, z.flag (vpage n) = v.flag (vpage n) := fun n => hflag _ (by simp [vpage])
  refine ⟨hm.none, hm.settled.proc, ?_, ?_, hm.state, ?_, fun vaddr hlt => ?_, fun vaddr hlt => ?_, fun pde hpde => ?_,
    fun f hf => ?_, fun d hd i hi hi' => ?_, hm.others, hm.mem⟩
  · rw [hm.pid_eq]
    have := hm.lt h.gen
    exact ⟨by omega, by exact_mod_cast this⟩
  · rw [hm.pid_eq, Int.toNat_natCast]
    exact ⟨hm.bit, hm.pidMap⟩
  · rw [← hvp, hproc]
    exact ⟨rfl, rfl, rfl, rfl, rfl, rfl⟩
  · rw [h'.byteAt_eq hm.settled hlt, h.byteAt_eq hv hlt, hpage]
    cases hk : v.flag (vpage (vaddr / pageSize)) with
    | none => rfl
    | some k =>
      have hmem : vpage (vaddr / pageSize) ∈ z.places := (hm.settled.ok.flag _ k (by rw [hpage, hk])).1
      have hw : z.words (vpage (vaddr / pageSize)) = v.words (vpage (vaddr / pageSize)) := hcopied.words _ _ hmem
      simp [hw]
  · unfold Proc.rights
    rw [h'.lookup_eq hm.settled hlt, h.lookup_eq hv hlt, hpage, hflag _ (by simp)]
    cases v.flag (vpage (vaddr / pageSize)) <;> rfl
  · have hiff : ∀ {s : State} {o : Nat} {u : Space}, Settled s o u → ((tableFrame s o pde).isSome ↔ .table pde ∈ u.places) := by
      intro s o u hu
      rw [Option.isSome_iff_exists]
      constructor
      · rintro ⟨f, hf⟩
        exact (hu.table_of_frame hpde hf).1
      · exact fun hmem => ⟨_, (hu.tableFrame_eq hmem).1⟩
    rw [Bool.eq_iff_iff, hiff hm.settled, hiff hv, hcopied.places]
  · obtain ⟨a, ha, rfl⟩ := hm.settled.mem_framesOf.mp hf
    exact ⟨hm.fresh a ha, (hm.settled.used a ha).2.2⟩
  · obtain rfl : z.frame .dir = d := Option.some.inj (hm.settled.dirFrame_eq.symm.trans hd)
    rw [(hm.settled.fits _ hm.settled.dir).2 i (hm.settled.limit.trans_le hi) hi', hm.settled.kernel i hi hi', h'.pgDir,
      h'.kernel _ Boot.kernelFrame_pgDir, Boot.frame_pgDir]

/-! ### The values that `sched_fork` returns -/

/-- A run in which `o` waits for `sched` to come back in `sched_fork`. -/
def Waits (B : Boot) (o : Nat) : Sys → Sys → Prop :=
  Relation.ReflTransGen fun σ σ' => Step B σ σ' ∧ σ'.forking o = true

theorem Inv.not_new {σ' : Sys} (h : Inv B σ) (ho : σ.forking o = true) : isNew σ.state σ'.state o = false := by
  obtain ⟨p, hp, -⟩ := h.fork o ho
  simp [isNew, hp]

theorem Inv.retvalue_kept {σ' : Sys} (h : Inv B σ) (ho : σ.forking o = true) (hs : Step B σ σ') :
    σ'.retvalue o = σ.retvalue o := by
  cases hs with
  | @exec elf _ _ _ m _ =>
    show (if isNew σ.state m.state o then 0 else σ.retvalue o) = _
    obtain ⟨p, hp, -⟩ := h.fork o ho
    simp [isNew, hp]
  | @fork parent p _ r m hp _ hidle hrun =>
    have hne : o ≠ parent := by
      rintro rfl
      rw [ho] at hidle
      cases hidle
    obtain ⟨child, hclone, ⟨h0, c, -, hr⟩ | ⟨-, hr⟩⟩ := schedTaskFork_ok hrun
    · obtain ⟨live, frames, hop⟩ := h.done _
      obtain ⟨v, hv⟩ := h.procs parent p hp
      have hchild : o ≠ child := by
        rintro rfl
        obtain ⟨q, hq, -⟩ := h.fork o ho
        rcases hop.procClone_ok rfl B.windowOk h.pgDir_not_free hv.settled hclone with ⟨-, pid, x, z, hm, -⟩ | ⟨h0', -⟩
        · have hnone : σ.state.procs o = none := hm.none
          rw [hq] at hnone
          cases hnone
        · exact h0 h0'
      show r o = _
      rw [hr, Function.update_of_ne hchild, Function.update_of_ne hne]
    · show r o = _
      rw [hr, Function.update_of_ne hne]
  | back _ => rfl
  | exit => rfl
  | reap => rfl
  | turn => rfl
  | save => rfl
  | other => rfl

theorem Inv.waits {σ' : Sys} (h : Inv B σ) (ho : σ.forking o = true) (hw : Waits B o σ σ') :
    σ'.retvalue o = σ.retvalue o := by
  have hall : Inv B σ' ∧ σ'.forking o = true ∧ σ'.retvalue o = σ.retvalue o := by
    induction hw with
    | refl => exact ⟨h, ho, rfl⟩
    | tail _ hs ih => exact ⟨ih.1.step hs.1, hs.2, (ih.1.retvalue_kept ih.2.1 hs.1).trans ih.2.2⟩
  exact hall.2.2

theorem schedFork_pid {pid : Nat} (hpid : pid < procMaxNum) (h : σ.retvalue o = (BitVec.ofInt 32 pid).toNat) :
    schedFork σ o = pid := by
  have hlt : pid < 2 ^ 15 := hpid.trans (by decide)
  unfold schedFork
  have hnat : (BitVec.ofNat 16 pid).toNat = pid := by
    rw [BitVec.toNat_ofNat, Nat.mod_eq_of_lt (by omega)]
  rw [h, show BitVec.ofInt 32 (pid : Int) = BitVec.ofNat 32 pid from rfl, BitVec.toNat_ofNat, Nat.mod_eq_of_lt (by omega),
    BitVec.toInt_eq_toNat_of_lt (by rw [hnat]; omega), hnat]

/-- In every run: when the parent's page directory, all tables and pages could be copied, there is a child, and
`sched_fork` returns the child's PID in the parent and 0 in the child, whatever happens until `sched` comes back there.
Otherwise there is no new process, and the parent gets -1. -/
theorem fork_copies {parent : Nat} {p : Process} {fails : List Bool} {r : Nat → Nat} {m : Machine} (h : Life B σ)
    (hp : σ.state.procs parent = some p) (hstate : p.state = .running)
    (hrun : ((schedTaskFork parent).run σ.retvalue).run ⟨σ.state, fails, []⟩ = .ok (((), r), m)) :
    (∃ child c, Forked B σ.state m.state parent child p c ∧
      (∀ σ', Waits B parent (σ.fork parent m.state r) σ' → schedFork σ' parent = c.pid) ∧
      ∀ σ', Waits B child (σ.fork parent m.state r) σ' → schedFork σ' child = 0) ∨
    (Unmade σ.state m.state ∧ ∀ σ', Waits B parent (σ.fork parent m.state r) σ' → schedFork σ' parent = -1) := by
  have hinv := h.inv
  have hinv' := hinv.fork_step hp hstate hrun
  have hparent : (σ.fork parent m.state r).forking parent = true := by simp [Sys.fork]
  obtain ⟨child, hclone, hr⟩ := schedTaskFork_ok hrun
  obtain ⟨live, frames, hop⟩ := hinv.done fails
  obtain ⟨v, hv⟩ := hinv.procs parent p hp
  rcases hop.procClone_ok rfl B.windowOk hinv.pgDir_not_free hv.settled hclone with
    ⟨hne, pid, x, z, hm, hx, hcopy, hrem, hproc⟩ | ⟨h0, hu⟩
  · have hm' : Made σ.state (σ.fork parent m.state r).state child pid z := hm
    have hcopied := hcopy.copied hrem hv.settled.ok (Inv.settled_allUser hv.settled) hm'.settled.ok
    have hforked := hinv.forked hinv' hp hv.settled hm' hcopied hproc
    obtain ⟨-, c, hc, hr⟩ | ⟨h0, -⟩ := hr
    swap
    · exact absurd h0 hne
    obtain rfl : z.proc = c := Option.some.inj (hm'.settled.proc.symm.trans hc)
    have hpid : (σ.fork parent m.state r).retvalue child = 0 := by
      show r child = 0
      rw [hr, Function.update_self]
    have hchild : (σ.fork parent m.state r).forking child = true := by
      have hnew : isNew σ.state m.state child = decide (child = child) := hm'.isNew child
      simp [Sys.fork, hnew]
    have hcp : parent ≠ child := by
      rintro rfl
      rw [hforked.new] at hp
      cases hp
    refine .inl ⟨child, z.proc, hforked, fun σ' hw => ?_, fun σ' hw => ?_⟩
    · rw [hm'.pid_eq]
      refine schedFork_pid (hm'.lt hinv.gen) ?_
      rw [hinv'.waits hparent hw]
      show r parent = _
      rw [hr, Function.update_of_ne hcp, Function.update_self, hm'.pid_eq]
    · unfold schedFork
      rw [hinv'.waits hchild hw, hpid]
      rfl
  · obtain ⟨hne, -⟩ | ⟨-, hr⟩ := hr
    · exact absurd h0 hne
    refine .inr ⟨hu, fun σ' hw => ?_⟩
    unfold schedFork
    rw [hinv'.waits hparent hw]
    show (BitVec.ofNat 16 (r parent)).toInt = -1
    rw [hr, Function.update_self]
    decide

end

theorem fork_copies_tiny : ∃ σ parent p child c s, Life tinyBoot σ ∧ σ.program parent = some smallElf ∧
    Forked tinyBoot σ.state s parent child p c ∧ c.pid = 2 := by
  obtain ⟨σ, o, p, u, m, hlife, hprog, hp, hstate, -, hretvalue, -, hrun, hpid⟩ := tinyRun_ok
    (x := fun o => (schedTaskFork o).run fun _ => 0) (P := fun o u => u.2 o == 2) (by decide +kernel)
  obtain ⟨⟨⟩, r⟩ := u
  rw [← hretvalue] at hrun
  have hr : r o = 2 := beq_iff_eq.mp hpid
  have hback : schedFork (σ.fork o m.state r) o = 2 := by
    show (BitVec.ofNat 16 (r o)).toInt = 2
    rw [hr]
    decide
  obtain ⟨child, c, hforked, hwaits, -⟩ | ⟨-, hwaits⟩ := fork_copies hlife hp hstate hrun
  · exact ⟨σ, o, p, child, c, m.state, hlife, hprog, hforked, by rw [← hwaits _ .refl, hback]⟩
  · have := hwaits _ .refl
    rw [hback] at this
    cases this

end Airix.Proc
