import Airix.Proc.System

/-!
# The processes, their PIDs and the scheduler's list

In every run the three agree: each process has a PID of its own, whose bit is set, and is in the list once.
-/

namespace Airix.Proc

/-- `l` are the processes, from the head of the scheduler's list on. -/
structure Table (s : State) (l : List Nat) : Prop where
  ring : s.sched.IsRing none (l.map some)
  mem : ∀ o, o ∈ l ↔ (s.procs o).isSome
  bit : ∀ i : Nat, s.pidMap i = true ↔ ∃ o p, s.procs o = some p ∧ p.pid = i
  inj : ∀ o o' p p', s.procs o = some p → s.procs o' = some p' → p.pid = p'.pid → o = o'

/-- `sched_add` puts the process at the head. -/
theorem isRing_schedAdded {s : Links (Option Nat)} {l : List Nat} {o : Nat} (h : s.IsRing none (l.map some)) (ho : o ∉ l) :
    (schedAdded s o).IsRing none ((o :: l).map some) := by
  have hnot : some o ∉ none :: l.map some := by simpa using ho
  have hprev : (s.next none).bind s.prev = some none := by
    have hc := h.chain
    rw [h.next_eq]
    cases l with
    | nil => exact (List.isChain_cons_cons.mp hc).1.2
    | cons x l => exact (List.isChain_cons_cons.mp hc).1.2
  have hins := h.insertFront hnot
  have hself : (schedAdded s o) = s.insertFront none (some o) := by
    unfold schedAdded Links.insertFront
    dsimp only
    rw [hprev]
    obtain ⟨q, hq⟩ : ∃ q, s.next none = some q := ⟨_, h.next_eq⟩
    simp [Links.setNext, Links.setPrev, hq]
  rw [hself]
  exact hins

namespace Table
variable {B : Boot} {σ σ' : Sys} {s s' : State} {l : List Nat} {o pid : Nat} {z : Space} {p p' : Process}

theorem nodup (h : Table s l) : l.Nodup := List.Nodup.of_map _ h.ring.nodup_list

theorem made (h : Table s l) (hm : Made s s' o pid z) : Table s' (o :: l) := by
  have hproc := hm.settled.proc
  have ho : o ∉ l := by
    rw [h.mem, hm.none]
    simp
  have hnew : ∀ o' p', s.procs o' = some p' → p'.pid ≠ pid := by
    intro o' p' hp' e
    have := (h.bit pid).mpr ⟨o', p', hp', e⟩
    rw [hm.bit] at this
    cases this
  have hne : ∀ o' p', s.procs o' = some p' → o' ≠ o := by
    rintro o' p' hp' rfl
    rw [hm.none] at hp'
    cases hp'
  refine ⟨hm.sched ▸ isRing_schedAdded h.ring ho, fun o' => ?_, fun i => ?_, fun o₁ o₂ p₁ p₂ h₁ h₂ e => ?_⟩
  · by_cases e : o' = o
    · simp [e, hproc]
    · rw [hm.others o' e, List.mem_cons, ← h.mem]
      simp [e]
  · rw [hm.pidMap]
    by_cases e : i = pid
    · subst e
      rw [Function.update_self]
      exact iff_of_true rfl ⟨o, z.proc, hproc, hm.pid_eq⟩
    · rw [Function.update_of_ne e, h.bit]
      constructor
      · rintro ⟨o', p', hp', hpid⟩
        exact ⟨o', p', by rw [hm.others o' (hne o' p' hp')]; exact hp', hpid⟩
      · rintro ⟨o', p', hp', hpid⟩
        by_cases e' : o' = o
        · subst e'
          rw [hproc] at hp'
          obtain rfl := Option.some.inj hp'
          rw [hm.pid_eq] at hpid
          exact absurd (by exact_mod_cast hpid.symm) e
        · rw [hm.others o' e'] at hp'
          exact ⟨o', p', hp', hpid⟩
  · by_cases e₁ : o₁ = o <;> by_cases e₂ : o₂ = o
    · rw [e₁, e₂]
    · subst e₁
      rw [hproc] at h₁
      obtain rfl := Option.some.inj h₁
      rw [hm.others o₂ e₂] at h₂
      exact absurd (e.symm.trans hm.pid_eq) (hnew o₂ p₂ h₂)
    · subst e₂
      rw [hproc] at h₂
      obtain rfl := Option.some.inj h₂
      rw [hm.others o₁ e₁] at h₁
      exact absurd (e.trans hm.pid_eq) (hnew o₁ p₁ h₁)
    · rw [hm.others o₁ e₁] at h₁
      rw [hm.others o₂ e₂] at h₂
      exact h.inj o₁ o₂ p₁ p₂ h₁ h₂ e

theorem congr (h : Table s l) (hprocs : s'.procs = s.procs) (hmap : s'.pidMap = s.pidMap) (hsched : s'.sched = s.sched) :
    Table s' l :=
  ⟨hsched ▸ h.ring, by rw [hprocs]; exact h.mem, by rw [hprocs, hmap]; exact h.bit, by rw [hprocs]; exact h.inj⟩

theorem reaped (h : Table s l) (hm : Reaped s s' o z) (hp : s.procs o = some z.proc) {i : Nat} (hi : z.proc.pid = i) :
    Table s' (l.erase o) := by
  have ho : o ∈ l := by
    rw [h.mem, hp]
    rfl
  have hmap : s'.pidMap = Function.update s.pidMap i false := by
    rw [hm.pidMap, hi, if_neg (by omega)]
    rfl
  have hproc : ∀ o' p', s'.procs o' = some p' ↔ o' ≠ o ∧ s.procs o' = some p' := by
    intro o' p'
    rw [hm.procs]
    by_cases e : o' = o <;> simp [e]
  refine ⟨?_, fun o' => ?_, fun j => ?_, fun o₁ o₂ p₁ p₂ h₁ h₂ e => ?_⟩
  · rw [hm.sched]
    have := h.ring.unlink (n := some o) (by simpa using ho)
    rw [List.map_erase (Option.some_injective _)]
    convert this
  · rw [h.nodup.mem_erase_iff, h.mem, hm.procs]
    by_cases e : o' = o <;> simp [e]
  · rw [hmap]
    simp only [hproc]
    by_cases e : j = i
    · subst e
      rw [Function.update_self]
      refine iff_of_false (by simp) ?_
      rintro ⟨o', p', ⟨hne, hp'⟩, hpid⟩
      exact hne (h.inj o' o p' z.proc hp' hp (hpid.trans hi.symm))
    · rw [Function.update_of_ne e, h.bit]
      refine exists_congr fun o' => exists_congr fun p' => ?_
      refine ⟨fun ⟨hp', hpid⟩ => ⟨⟨?_, hp'⟩, hpid⟩, fun ⟨⟨_, hp'⟩, hpid⟩ => ⟨hp', hpid⟩⟩
      rintro rfl
      rw [hp] at hp'
      obtain rfl := Option.some.inj hp'
      rw [hi] at hpid
      exact e (by exact_mod_cast hpid.symm)
  · exact h.inj o₁ o₂ p₁ p₂ ((hproc _ _).mp h₁).2 ((hproc _ _).mp h₂).2 e

theorem setProc (h : Table s l) (hp : s.procs o = some p) (hpid : p'.pid = p.pid) :
    Table { s with procs := Function.update s.procs o (some p') } l := by
  have hold : ∀ o' q', Function.update s.procs o (some p') o' = some q' → ∃ q, s.procs o' = some q ∧ q.pid = q'.pid := by
    intro o' q' hq
    by_cases e : o' = o
    · subst e
      rw [Function.update_self] at hq
      obtain rfl := Option.some.inj hq
      exact ⟨p, hp, hpid.symm⟩
    · rw [Function.update_of_ne e] at hq
      exact ⟨q', hq, rfl⟩
  have hnew : ∀ o' q, s.procs o' = some q → ∃ q', Function.update s.procs o (some p') o' = some q' ∧ q'.pid = q.pid := by
    intro o' q hq
    by_cases e : o' = o
    · subst e
      rw [hp] at hq
      obtain rfl := Option.some.inj hq
      exact ⟨p', Function.update_self _ _ _, hpid⟩
    · exact ⟨q, by rw [Function.update_of_ne e]; exact hq, rfl⟩
  refine ⟨h.ring, fun o' => ?_, fun i => ?_, fun o₁ o₂ p₁ p₂ h₁ h₂ e => ?_⟩
  · rw [h.mem]
    by_cases e : o' = o
    · subst e
      simp [hp]
    · simp [e]
  · rw [h.bit]
    constructor
    · rintro ⟨o', q, hq, hi⟩
      obtain ⟨q', hq', he⟩ := hnew o' q hq
      exact ⟨o', q', hq', he.trans hi⟩
    · rintro ⟨o', q', hq', hi⟩
      obtain ⟨q, hq, he⟩ := hold o' q' hq'
      exact ⟨o', q, hq, he.trans hi⟩
  · obtain ⟨q₁, hq₁, e₁⟩ := hold o₁ p₁ h₁
    obtain ⟨q₂, hq₂, e₂⟩ := hold o₂ p₂ h₂
    exact h.inj o₁ o₂ q₁ q₂ hq₁ hq₂ (e₁.trans (e.trans e₂.symm))

/-- What one step keeps. -/
theorem step (h : Table σ.state l) (hinv : Inv B σ) (hs : Step B σ σ') : ∃ l', Table σ'.state l' := by
  cases hs with
  | @exec elf size fails b m hrun =>
    obtain ⟨live, frames, hop⟩ := hinv.done fails
    rcases hop.procExec_ok rfl B.windowOk hinv.pgDir_not_free hrun with ⟨-, o, pid, x, z, hm, -⟩ | ⟨-, hu⟩
    · have hm' : Made σ.state m.state o pid z := hm
      exact ⟨_, h.made hm'⟩
    · exact ⟨l, h.congr hu.procs hu.pidMap hu.sched⟩
  | @fork parent p fails _ m hp _ _ hrun =>
    obtain ⟨live, frames, hop⟩ := hinv.done fails
    obtain ⟨v, hv⟩ := hinv.procs parent p hp
    obtain ⟨child, hclone, -⟩ := schedTaskFork_ok hrun
    rcases hop.procClone_ok rfl B.windowOk hinv.pgDir_not_free hv.settled hclone with ⟨-, pid, x, z, hm, -⟩ | ⟨-, hu⟩
    · have hm' : Made σ.state m.state child pid z := hm
      exact ⟨_, h.made hm'⟩
    · exact ⟨l, h.congr hu.procs hu.pidMap hu.sched⟩
  | back _ => exact ⟨l, h⟩
  | @exit o p status m hp _ _ _ hrun =>
    unfold procExit modifyProc at hrun
    obtain rfl := update_ok.mp hrun
    dsimp only
    rw [hp]
    exact ⟨l, h.setProc hp rfl⟩
  | @reap o p m hp _ hrun =>
    obtain ⟨z, hz⟩ := hinv.procs o p hp
    obtain ⟨c, hc⟩ := hz.count
    obtain ⟨live, frames, hop⟩ := hinv.op
    obtain ⟨i, -, hi⟩ := hz.pid
    exact ⟨_, h.reaped ((hop.schedReap_spec B.windowOk hz.settled hc).1 _ m hrun).2 hz.settled.proc hi⟩
  | turn state hp _ _ => exact ⟨l, h.setProc hp rfl⟩
  | save context hp => exact ⟨l, h.setProc hp rfl⟩
  | other ho =>
    have hrest := ho.rest
    refine ⟨l, h.congr ho.procs ?_ ?_⟩ <;> rw [hrest]

theorem init (slab : Slab.State) (mem : Nat → Nat → Nat) (pgDir procCache : Nat) :
    Table (initState slab mem pgDir procCache) [] where
  ring := Links.IsRing.init_self
  mem o := by simp [initState]
  bit i := by simp [initState]
  inj := by simp [initState]

end Table

section
variable {B : Boot} {σ : Sys} {l : List Nat} {o : Nat} {p : Process}

theorem Life.table (h : Life B σ) : ∃ l, Table σ.state l := by
  induction h with
  | @init slab live frames mem procCache main fails m hslab hcache hmem hrun =>
    obtain ⟨o, z, hm, -⟩ := Inv.init_procs hslab hcache hrun
    exact ⟨_, (Table.init _ _ _ _).made hm⟩
  | step h hs ih =>
    obtain ⟨l, hl⟩ := ih
    exact hl.step h.inv hs

/-! ### PIDs -/

theorem Inv.kernel_pid (h : Inv B σ) (hl : Table σ.state l) : ∃ o p, σ.state.procs o = some p ∧ p.pid = 0 ∧ p.state ≠ .dead := by
  obtain ⟨o, p, hp, hpid⟩ := (hl.bit 0).mp h.bit
  obtain ⟨z, hz⟩ := h.procs o p hp
  obtain rfl : z.proc = p := Option.some.inj (hz.settled.proc.symm.trans hp)
  exact ⟨o, z.proc, hp, hpid, hz.zero hpid⟩

theorem Inv.pid_lt (h : Inv B σ) (hp : σ.state.procs o = some p) : ∃ i : Nat, i < procMaxNum ∧ p.pid = i := by
  obtain ⟨z, hz⟩ := h.procs o p hp
  obtain rfl : z.proc = p := Option.some.inj (hz.settled.proc.symm.trans hp)
  exact hz.pid

/-- There are as many processes as bits that are set. -/
theorem Table.length_eq (h : Table σ.state l) (hinv : Inv B σ) :
    l.length = ((Finset.range procMaxNum).filter fun i => σ.state.pidMap i = true).card := by
  let pid := fun o => ((σ.state.procs o).map fun p => p.pid.toNat).getD 0
  have hpid : ∀ o ∈ l, ∃ p, σ.state.procs o = some p ∧ p.pid = pid o ∧ pid o < procMaxNum := by
    intro o ho
    obtain ⟨p, hp⟩ := Option.isSome_iff_exists.mp ((h.mem o).mp ho)
    obtain ⟨i, hi, hpi⟩ := hinv.pid_lt hp
    exact ⟨p, hp, by simp [pid, hp, hpi], by simpa [pid, hp, hpi] using hi⟩
  rw [← List.toFinset_card_of_nodup h.nodup, ← Finset.card_image_of_injOn (f := pid)]
  · refine congrArg Finset.card (Finset.ext fun i => ?_)
    simp only [Finset.mem_image, List.mem_toFinset, Finset.mem_filter, Finset.mem_range]
    constructor
    · rintro ⟨o, ho, rfl⟩
      obtain ⟨p, hp, hpo, hlt⟩ := hpid o ho
      exact ⟨hlt, (h.bit _).mpr ⟨o, p, hp, hpo⟩⟩
    · rintro ⟨hlt, hbit⟩
      obtain ⟨o, p, hp, hi⟩ := (h.bit i).mp hbit
      have ho : o ∈ l := (h.mem o).mpr (by rw [hp]; rfl)
      obtain ⟨q, hq, hqo, -⟩ := hpid o ho
      rw [hp] at hq
      obtain rfl := Option.some.inj hq
      rw [hi] at hqo
      exact ⟨o, ho, by exact_mod_cast hqo.symm⟩
  · intro o ho o' ho' e
    obtain ⟨p, hp, hpo, -⟩ := hpid o (by simpa using ho)
    obtain ⟨p', hp', hpo', -⟩ := hpid o' (by simpa using ho')
    have he : pid o = pid o' := e
    exact h.inj o o' p p' hp hp' (by rw [hpo, hpo', he])

variable {m m' : Machine} {n : Nat}

/-- `alloc_pid` that finds none has looked at all bits from `pid_gen` on. -/
theorem allocPidFrom_none (hgen : m.state.pidGen < procMaxNum) (hrun : (allocPidFrom n).run m = .ok (-1, m')) :
    ∀ k < n, m.state.pidMap ((m.state.pidGen + k) % procMaxNum) = true := by
  induction n generalizing m with
  | zero => exact fun k hk => absurd hk (Nat.not_lt_zero k)
  | succ n ih =>
    unfold allocPidFrom at hrun
    obtain ⟨s, m₁, h₁, h₂⟩ := Exec.bind_ok.mp hrun
    obtain ⟨rfl, rfl⟩ := getState_ok.mp h₁
    obtain ⟨_, m₂, h₃, h₄⟩ := Exec.bind_ok.mp h₂
    obtain rfl := update_ok.mp h₃
    split at h₄
    · next hbit =>
      rintro (_ | k) hk
      · rwa [Nat.add_zero, Nat.mod_eq_of_lt hgen]
      · have := ih (Nat.mod_lt _ (by decide)) h₄ k (by omega)
        dsimp only at this
        rwa [Nat.mod_add_mod, show m₁.state.pidGen + 1 + k = m₁.state.pidGen + (k + 1) by omega] at this
    · obtain ⟨_, m₃, -, h₆⟩ := Exec.bind_ok.mp h₄
      exact absurd (Exec.pure_ok.mp h₆).1 (by simp)

theorem allocPidFrom_run (m : Machine) : ∃ r, (allocPidFrom n).run m = .ok r := by
  induction n generalizing m with
  | zero => exact ⟨_, Exec.pure_ok.mpr ⟨rfl, rfl⟩⟩
  | succ n ih =>
    unfold allocPidFrom
    rw [Exec.bind_run (getState_ok.mpr ⟨rfl, rfl⟩), Exec.bind_run (b := ()) (update_ok.mpr rfl)]
    split
    · exact ih _
    · exact ⟨_, rfl⟩

/-- In every run: the PIDs of the processes are different ones, their bits are those that are set, and the scheduler's
list has each process once. PID 0 is that of a process that is not dead; `alloc_pid` finds a free PID until there are
1024 processes. -/
theorem process_table (h : Life B σ) : ∃ l, Table σ.state l ∧ l.length ≤ procMaxNum ∧
    (∃ o p, σ.state.procs o = some p ∧ p.pid = 0 ∧ p.state ≠ .dead) ∧
    ∀ fails, ∃ pid m, allocPid.run ⟨σ.state, fails, []⟩ = .ok (pid, m) ∧
      ((pid = -1 ∧ l.length = procMaxNum) ∨
        ∃ i : Nat, pid = i ∧ 0 < i ∧ i < procMaxNum ∧ l.length < procMaxNum ∧ ∀ o p, σ.state.procs o = some p → p.pid ≠ i) := by
  have hinv := h.inv
  obtain ⟨l, hl⟩ := h.table
  have hlength := hl.length_eq hinv
  have hle : l.length ≤ procMaxNum := by
    rw [hlength]
    exact (Finset.card_filter_le _ _).trans_eq (Finset.card_range _)
  refine ⟨l, hl, hle, hinv.kernel_pid hl, fun fails => ?_⟩
  obtain ⟨⟨pid, m⟩, hrun⟩ := allocPidFrom_run (n := procMaxNum) ⟨σ.state, fails, []⟩
  refine ⟨pid, m, hrun, ?_⟩
  obtain ⟨gen, -, ⟨rfl, -⟩ | ⟨i, rfl, hi, hbit, -⟩⟩ := allocPidFrom_ok hrun
  · refine .inl ⟨rfl, ?_⟩
    have hall := allocPidFrom_none h.inv.gen hrun
    rw [hlength, Finset.card_filter_eq_iff.mpr, Finset.card_range]
    intro i hi
    have hi := Finset.mem_range.mp hi
    have hgen := hinv.gen
    have := hall ((i + procMaxNum - σ.state.pidGen) % procMaxNum) (Nat.mod_lt _ (by decide))
    rwa [Nat.add_mod_mod, show σ.state.pidGen + (i + procMaxNum - σ.state.pidGen) = i + procMaxNum by omega,
      Nat.add_mod_right, Nat.mod_eq_of_lt hi] at this
  · have hi := hi hinv.gen
    have hbit : σ.state.pidMap i = false := hbit
    have hpos : i ≠ 0 := by
      rintro rfl
      rw [hinv.bit] at hbit
      cases hbit
    refine .inr ⟨i, rfl, by omega, hi, lt_of_le_of_ne hle fun e => ?_, fun o p hp hpid => ?_⟩
    · have := Finset.card_filter_eq_iff.mp (hlength.symm.trans (e.trans (Finset.card_range _).symm)) i
        (Finset.mem_range.mpr hi)
      rw [hbit] at this
      cases this
    · have := (hl.bit i).mpr ⟨o, p, hp, hpid⟩
      rw [hbit] at this
      cases this

end

theorem process_table_tiny : ∃ σ l, Life tinyBoot σ ∧ Table σ.state l ∧ l.length ≤ procMaxNum := by
  obtain ⟨σ, o, p, -, -, hlife, -⟩ := tinyRun_ok (x := fun _ => (pure () : M Unit)) (P := fun _ _ => true)
    (by decide +kernel)
  obtain ⟨l, hl, hle, -⟩ := process_table hlife
  exact ⟨σ, l, hlife, hl, hle⟩

end Airix.Proc
