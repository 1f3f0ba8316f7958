import Airix.Lib.RoundRobin
import Airix.Proc.Account
import Airix.Proc.Table

/-!
# The scheduler (`kernel/scheduler.c`)

The kernel task is always running, so the search of `scheduler` ends. It takes the first running process behind the
current one, gets rid of the dead ones on the way, and every process that stays running gets its turn.
-/

namespace Airix.Proc

/-- The search of `scheduler`, from `proc` on; `none` is `list_head`. -/
def schedFind : Nat → Option Nat → Sys → Except Panic (Nat × Sys)
  | 0, _, _ => .error .endless
  | fuel + 1, none, σ =>
    match σ.state.sched.next none with
    | none => .error .fault
    | some proc => schedFind fuel proc σ
  | fuel + 1, some o, σ =>
    match σ.state.procs o with
    | none => .error .fault
    | some p =>
      if p.state = .running then .ok (o, σ)
      else
        match σ.state.sched.next (some o) with
        | none => .error .fault
        | some proc =>
          if p.state = .dead then
            match (schedReap o).run ⟨σ.state, [], []⟩ with
            | .error e => .error e
            | .ok (_, m) =>
              schedFind fuel proc { σ with state := m.state, program := Function.update σ.program o none }
          else
            schedFind fuel proc σ

/-- `current_proc ? current_proc->next : list_head.next`, and the search from there. -/
def schedPick (fuel : Nat) (current : Option Nat) (σ : Sys) : Except Panic (Nat × Sys) :=
  match σ.state.sched.next current with
  | none => .error .fault
  | some proc => schedFind fuel proc σ

def Running (s : State) (o : Nat) : Prop := ∃ p, s.procs o = some p ∧ p.state = .running

def isDead (s : State) (o : Nat) : Bool := (s.procs o).any fun p => p.state == .dead

/-- The kernel task runs, and the programs that were started are below `KERNEL_BASE`. -/
structure Scheduled (B : Boot) (σ : Sys) : Prop where
  life : Life B σ
  kernel : ∀ o p, σ.state.procs o = some p → p.pid = 0 → p.state = .running
  programs : ∀ o p, σ.state.procs o = some p → p.pid ≠ 0 →
    ∃ elf, σ.program o = some elf ∧ Bounded elf ∧ Space.BelowKernel elf

/-- `σ'` is `σ` without the dead processes of `a`. -/
structure Passed (B : Boot) (a : List Nat) (σ σ' : Sys) : Prop where
  scheduled : Scheduled B σ'
  procs : ∀ o, σ'.state.procs o = if o ∈ a ∧ isDead σ.state o then none else σ.state.procs o
  frames : ∀ o, ¬ (o ∈ a ∧ isDead σ.state o) → framesOf σ'.state o = framesOf σ.state o
  free : ∀ f, Pmm.FreePage σ'.state.slab.pmm f ↔
    Pmm.FreePage σ.state.slab.pmm f ∨ ∃ o ∈ a, isDead σ.state o ∧ f ∈ framesOf σ.state o
  mem : ∀ f, ¬ Pmm.FreePage σ'.state.slab.pmm f → σ'.state.mem f = σ.state.mem f

section
variable {B : Boot} {σ σ' σ'' : Sys} {l pre post rest a : List Nat} {o c : Nat} {p : Process}

/-! ### One step of the search -/

section
variable {fuel : Nat} {next : Option Nat}

theorem schedFind_head (hn : σ.state.sched.next none = some next) : schedFind (fuel + 1) none σ = schedFind fuel next σ := by
  rw [schedFind, hn]

theorem schedFind_running (hp : σ.state.procs o = some p) (hr : p.state = .running) :
    schedFind (fuel + 1) (some o) σ = .ok (o, σ) := by
  rw [schedFind, hp]
  exact if_pos hr

theorem schedFind_other (hp : σ.state.procs o = some p) (hr : p.state ≠ .running) (hd : p.state ≠ .dead)
    (hn : σ.state.sched.next (some o) = some next) : schedFind (fuel + 1) (some o) σ = schedFind fuel next σ := by
  rw [schedFind, hp]
  dsimp only
  rw [if_neg hr, hn]
  exact if_neg hd

theorem schedFind_dead (hp : σ.state.procs o = some p) (hd : p.state = .dead)
    (hn : σ.state.sched.next (some o) = some next) {m : Machine}
    (hm : (schedReap o).run ⟨σ.state, [], []⟩ = .ok ((), m)) : schedFind (fuel + 1) (some o) σ =
      schedFind fuel next { σ with state := m.state, program := Function.update σ.program o none } := by
  rw [schedFind, hp]
  dsimp only
  rw [if_neg (by simp [hd]), hn]
  dsimp only
  rw [if_pos hd, hm]

/-- A search that ended does not go on with more fuel. -/
theorem schedFind_mono {r : Nat × Sys} {node : Option Nat} (k : Nat) (h : schedFind fuel node σ = .ok r) :
    schedFind (fuel + k) node σ = .ok r := by
  induction fuel generalizing node σ with
  | zero => cases h
  | succ fuel ih =>
    rw [Nat.add_right_comm]
    cases node with
    | none =>
      rw [schedFind] at h ⊢
      split at h
      · cases h
      · exact ih h
    | some o =>
      rw [schedFind] at h ⊢
      split at h
      · cases h
      split_ifs at h ⊢
      · exact h
      · split at h
        · cases h
        split at h
        · cases h
        · exact ih h
      · split at h
        · cases h
        · exact ih h

end

/-! ### What is passed -/

theorem isDead_iff (hp : σ.state.procs o = some p) : isDead σ.state o = true ↔ p.state = .dead := by
  rw [isDead, hp, Option.any_some, beq_iff_eq]

namespace Passed
variable {b : List Nat}

theorem refl (h : Scheduled B σ) (ha : ∀ o ∈ a, isDead σ.state o = false) : Passed B a σ σ := by
  have hnot : ∀ o, ¬ (o ∈ a ∧ isDead σ.state o = true) := fun o ⟨ho, hd⟩ => by simp [ha o ho] at hd
  refine ⟨h, fun o => (if_neg (hnot o)).symm, fun _ _ => rfl, fun f => ⟨.inl, ?_⟩, fun _ _ => rfl⟩
  rintro (hf | ⟨o, ho, hd, -⟩)
  · exact hf
  · exact absurd ⟨ho, hd⟩ (hnot o)

theorem isDead_eq (h : Passed B a σ σ') (ho : o ∉ a) : isDead σ'.state o = isDead σ.state o := by
  rw [isDead, h.procs, if_neg fun hc => ho hc.1]
  rfl

theorem running_iff (h : Passed B a σ σ') : Running σ'.state o ↔ Running σ.state o := by
  unfold Running
  rw [h.procs]
  split_ifs with hc
  · refine iff_of_false (by simp) ?_
    rintro ⟨p, hp, hr⟩
    rw [isDead_iff hp, hr] at hc
    simp at hc
  · rfl

theorem trans (h : Passed B a σ σ') (h' : Passed B b σ' σ'') (hd : a.Disjoint b) : Passed B (a ++ b) σ σ'' := by
  have hb : ∀ o ∈ b, o ∉ a := fun o hb ha => hd ha hb
  have hdead : ∀ o ∈ b, isDead σ'.state o = isDead σ.state o := fun o ho => h.isDead_eq (hb o ho)
  have hsplit : ∀ o, (o ∈ a ++ b ∧ isDead σ.state o = true) ↔
      (o ∈ a ∧ isDead σ.state o = true) ∨ (o ∈ b ∧ isDead σ'.state o = true) := by
    intro o
    rw [List.mem_append, or_and_right]
    exact or_congr_right (and_congr_right fun ho => by rw [hdead o ho])
  refine ⟨h'.scheduled, fun o => ?_, fun o ho => ?_, fun f => ?_, fun f hf => ?_⟩
  · rw [h'.procs, h.procs]
    by_cases h₂ : o ∈ b ∧ isDead σ'.state o = true
    · rw [if_pos h₂, if_pos ((hsplit o).mpr (.inr h₂))]
    · rw [if_neg h₂]
      exact if_congr (by rw [hsplit, or_iff_left h₂]) rfl rfl
  · rw [hsplit, not_or] at ho
    rw [h'.frames o ho.2, h.frames o ho.1]
  · rw [h'.free, h.free, or_assoc]
    refine or_congr_right ?_
    constructor
    · rintro (⟨o, ho, hd, hf⟩ | ⟨o, ho, hd, hf⟩)
      · exact ⟨o, List.mem_append_left _ ho, hd, hf⟩
      · rw [h.frames o fun hc => hb o ho hc.1] at hf
        exact ⟨o, List.mem_append_right _ ho, hdead o ho ▸ hd, hf⟩
    · rintro ⟨o, ho, hd, hf⟩
      rcases List.mem_append.mp ho with ho | ho
      · exact .inl ⟨o, ho, hd, hf⟩
      · refine .inr ⟨o, ho, (hdead o ho).symm ▸ hd, ?_⟩
        rwa [h.frames o fun hc => hb o ho hc.1]
  · rw [h'.mem f hf, h.mem f fun hc => hf ((h'.free f).mpr (.inl hc))]

end Passed

namespace Scheduled

/-- The scheduler gets rid of a dead process. -/
theorem reap (h : Scheduled B σ) (hl : Table σ.state (pre ++ o :: rest)) (hp : σ.state.procs o = some p)
    (hdead : p.state = .dead) : ∃ m, (schedReap o).run ⟨σ.state, [], []⟩ = .ok ((), m) ∧
      Table m.state (pre ++ rest) ∧
      Passed B [o] σ { σ with state := m.state, program := Function.update σ.program o none } := by
  have hinv := h.life.inv
  obtain ⟨z, hz⟩ := hinv.procs o p hp
  obtain rfl : z.proc = p := Option.some.inj (hz.settled.proc.symm.trans hp)
  have hpid : z.proc.pid ≠ 0 := fun h0 => hz.zero h0 hdead
  obtain ⟨elf, hprog, hb, hbelow⟩ := h.programs o z.proc hp hpid
  obtain ⟨c, hle, hc, hiff⟩ := hz.counted elf hprog hb
  obtain ⟨hgone, hreturn⟩ := hinv.reap_spec hz hle hc
  obtain ⟨m, hm⟩ := hreturn (hiff.mpr hbelow)
  have hreaped := (hgone m hm).2
  obtain ⟨i, -, hi⟩ := hz.pid
  have htable := hl.reaped hreaped hz.settled.proc hi
  have hnot : o ∉ pre := fun hmem => by
    have := hl.nodup
    rw [List.nodup_append] at this
    exact this.2.2 o hmem o List.mem_cons_self rfl
  rw [List.erase_append_right _ hnot, List.erase_cons_head] at htable
  have hself : ∀ o', (o' ∈ [o] ∧ isDead σ.state o') ↔ o' = o := by
    intro o'
    rw [List.mem_singleton]
    refine ⟨fun h => h.1, ?_⟩
    rintro rfl
    exact ⟨rfl, (isDead_iff hp).mpr hdead⟩
  have hprocs : ∀ o', m.state.procs o' = if o' = o then none else σ.state.procs o' := by
    intro o'
    rw [hreaped.procs, Function.update_apply]
  refine ⟨m, hm, htable, ⟨h.life.step (.reap hp hdead hm), fun o' p' hp' h0 => ?_, fun o' p' hp' h0 => ?_⟩, fun o' => ?_,
    fun o' hne => ?_, fun f => ?_, fun f hf => ?_⟩
  · have hp' : m.state.procs o' = some p' := hp'
    rw [hprocs] at hp'
    split_ifs at hp'
    exact h.kernel o' p' hp' h0
  · have hp' : m.state.procs o' = some p' := hp'
    rw [hprocs] at hp'
    split_ifs at hp' with e
    obtain ⟨elf', hprog', hbb⟩ := h.programs o' p' hp' h0
    exact ⟨elf', (Function.update_of_ne e _ _).trans hprog', hbb⟩
  · show m.state.procs o' = _
    rw [hprocs]
    exact if_congr (hself o').symm rfl rfl
  · rw [hself] at hne
    show framesOf m.state o' = _
    cases hp' : σ.state.procs o' with
    | none => rw [framesOf_eq_empty hp', framesOf_eq_empty (by rw [hprocs, if_neg hne, hp'])]
    | some p' =>
      obtain ⟨z', hz'⟩ := hinv.procs o' p' hp'
      have hprog' : Function.update σ.program o none o' = σ.program o' := Function.update_of_ne hne _ _
      have hz'' : Owns { σ with state := m.state, program := Function.update σ.program o none } o' z' :=
        hinv.owns_of_reaped hz hreaped hne hz' hprog'
      rw [hz'.settled.framesOf_eq]
      exact hz''.settled.framesOf_eq
  · show Pmm.FreePage m.state.slab.pmm f ↔ _
    rw [hreaped.free]
    refine or_congr_right ?_
    rw [← hz.settled.mem_framesOf]
    constructor
    · exact fun hf => ⟨o, List.mem_singleton_self o, (isDead_iff hp).mpr hdead, hf⟩
    · rintro ⟨o', ho', -, hf⟩
      obtain rfl := List.mem_singleton.mp ho'
      exact hf
  · have hf : ¬ Pmm.FreePage m.state.slab.pmm f := hf
    rw [hreaped.free, not_or] at hf
    exact hreaped.mem f hf.1 fun a ha e => hf.2 ⟨a, ha, e⟩

/-- The search goes past processes that do not run. -/
theorem passes (h : Scheduled B σ) (hl : Table σ.state (pre ++ (a ++ rest))) (ha : ∀ o ∈ a, ¬ Running σ.state o) :
    ∃ σ', Passed B a σ σ' ∧ Table σ'.state (pre ++ (a.filter (fun o => !isDead σ.state o) ++ rest)) ∧
      ∀ fuel, schedFind (fuel + a.length) (((a ++ rest).map some).headD none) σ =
        schedFind fuel ((rest.map some).headD none) σ' := by
  induction a generalizing σ pre with
  | nil => exact ⟨σ, .refl h (by simp), hl, fun _ => rfl⟩
  | cons o a ih =>
    have hnd := hl.nodup
    have hoa : o ∉ a := by
      rw [List.nodup_append] at hnd
      exact fun hm => (List.nodup_cons.mp hnd.2.1).1 (List.mem_append_left _ hm)
    obtain ⟨p, hp⟩ := Option.isSome_iff_exists.mp ((hl.mem o).mp (by simp))
    have hrun : p.state ≠ .running := fun hr => ha o List.mem_cons_self ⟨p, hp, hr⟩
    have hnext : σ.state.sched.next (some o) = some (((a ++ rest).map some).headD none) := by
      have := hl.ring
      rw [List.cons_append, List.map_append, List.map_cons] at this
      exact this.next_split
    by_cases hdead : p.state = .dead
    · obtain ⟨m, hm, htable, hpassed⟩ := h.reap hl hp hdead
      have hxo : ∀ x ∈ a, x ∉ [o] := fun x hx hm => hoa (List.mem_singleton.mp hm ▸ hx)
      have hkept : ∀ x ∈ a, isDead m.state x = isDead σ.state x := fun x hx => hpassed.isDead_eq (hxo x hx)
      have hrunning : ∀ x ∈ a, ¬ Running m.state x := by
        rintro x hx ⟨q, hq, hr⟩
        have hprocs := hpassed.procs x
        rw [if_neg (not_and_of_not_left _ (hxo x hx))] at hprocs
        exact ha x (List.mem_cons_of_mem _ hx) ⟨q, hprocs.symm.trans hq, hr⟩
      obtain ⟨σ', hpassed', htable', hfind⟩ := ih hpassed.scheduled htable hrunning
      refine ⟨σ', ?_, ?_, fun fuel => ?_⟩
      · exact hpassed.trans hpassed' (List.disjoint_singleton.mpr hoa).symm
      · rw [List.filter_cons_of_neg (by simp [(isDead_iff hp).mpr hdead])]
        rwa [List.filter_congr fun x hx => by rw [← hkept x hx]]
      · rw [← hfind fuel]
        exact schedFind_dead hp hdead hnext hm
    · have htable : Table σ.state ((pre ++ [o]) ++ (a ++ rest)) := by simpa using hl
      obtain ⟨σ', hpassed, htable', hfind⟩ := ih h htable fun x hx => ha x (List.mem_cons_of_mem _ hx)
      have hnot : isDead σ.state o = false := by simpa [hdead] using isDead_iff hp
      refine ⟨σ', ?_, ?_, fun fuel => ?_⟩
      · exact (Passed.refl (a := [o]) h (by simpa using hnot)).trans hpassed (List.disjoint_singleton.mpr hoa).symm
      · rw [List.filter_cons_of_pos (by simp [hnot])]
        simpa using htable'
      · rw [← hfind fuel]
        exact schedFind_other hp hrun hdead hnext

theorem exists_running (h : Scheduled B σ) (hl : Table σ.state l) : ∃ o ∈ l, Running σ.state o := by
  obtain ⟨o, p, hp, hpid, -⟩ := h.life.inv.kernel_pid hl
  exact ⟨o, (hl.mem o).mpr (by rw [hp]; rfl), p, hp, h.kernel o p hp hpid⟩

/-- The search from `post` on finds the first one there that runs, or else the first one of `pre`. -/
theorem find (h : Scheduled B σ) (hl : Table σ.state (pre ++ post)) :
    (∃ a o b σ', post = a ++ o :: b ∧ (∀ x ∈ a, ¬ Running σ.state x) ∧ Running σ.state o ∧ Passed B a σ σ' ∧
      Table σ'.state (pre ++ (a.filter (fun x => !isDead σ.state x) ++ o :: b)) ∧
      ∀ fuel, schedFind (fuel + 1 + a.length) ((post.map some).headD none) σ = .ok (o, σ')) ∨
    ∃ a o b σ', (∀ x ∈ post, ¬ Running σ.state x) ∧ pre = a ++ o :: b ∧ (∀ x ∈ a, ¬ Running σ.state x) ∧
      Running σ.state o ∧ Passed B (post ++ a) σ σ' ∧
      Table σ'.state (a.filter (fun x => !isDead σ.state x) ++ o :: (b ++ post.filter fun x => !isDead σ.state x)) ∧
      ∀ fuel, schedFind (fuel + 1 + a.length + 1 + post.length) ((post.map some).headD none) σ = .ok (o, σ') := by
  by_cases hpost : ∃ o ∈ post, Running σ.state o
  · obtain ⟨a, o, b, rfl, ha, ho⟩ := RoundRobin.exists_first hpost
    obtain ⟨σ', hpassed, htable, hfind⟩ := h.passes hl ha
    refine .inl ⟨a, o, b, σ', rfl, ha, ho, hpassed, htable, fun fuel => ?_⟩
    obtain ⟨p, hp, hr⟩ := hpassed.running_iff.mpr ho
    rw [hfind]
    exact schedFind_running hp hr
  · push Not at hpost
    rw [← List.append_nil post] at hl
    obtain ⟨σ₁, hpassed, htable, hfind⟩ := h.passes hl hpost
    rw [List.append_nil] at hl htable
    have hpre : ∃ o ∈ pre, Running σ.state o := by
      obtain ⟨o, ho, hr⟩ := h.exists_running hl
      exact ⟨o, (List.mem_append.mp ho).resolve_right fun hm => hpost o hm hr, hr⟩
    obtain ⟨a, o, b, rfl, ha, ho⟩ := RoundRobin.exists_first hpre
    have hdisjoint : post.Disjoint a := fun x hx hxa =>
      (List.nodup_append.mp hl.nodup).2.2 x (List.mem_append_left _ hxa) x hx rfl
    have htable₁ : Table σ₁.state ([] ++ (a ++ (o :: (b ++ post.filter fun x => !isDead σ.state x)))) := by
      simpa using htable
    obtain ⟨σ', hpassed', htable', hfind'⟩ := hpassed.scheduled.passes htable₁ fun x hx hr =>
      ha x hx (hpassed.running_iff.mp hr)
    have hall := hpassed.trans hpassed' hdisjoint
    refine .inr ⟨a, o, b, σ', hpost, rfl, ha, ho, hall, ?_, fun fuel => ?_⟩
    · rw [List.filter_congr fun x hx => by rw [← hpassed.isDead_eq fun hm => hdisjoint hm hx]]
      exact htable'
    · obtain ⟨p, hp, hr⟩ := hall.running_iff.mpr ho
      have hnext := htable₁.ring.next_eq
      have hstart := hfind (fuel + 1 + a.length + 1)
      rw [List.append_nil] at hstart
      rw [hstart]
      refine (schedFind_head hnext).trans ?_
      refine (hfind' (fuel + 1)).trans ?_
      exact schedFind_running hp hr

end Scheduled

theorem Table.next_getLast {s : State} (h : Table s (pre ++ post)) :
    s.sched.next pre.getLast? = some ((post.map some).headD none) := by
  have hring := h.ring
  obtain rfl | ⟨pre, c, rfl⟩ := List.eq_nil_or_concat' pre
  · exact hring.next_eq
  · rw [List.getLast?_concat]
    rw [List.append_assoc, List.map_append, List.singleton_append, List.map_cons] at hring
    exact hring.next_split

section
variable {q : Nat → Bool} {passed : List Nat}

theorem filter_not_passed (h : ∀ x ∈ l, x ∉ passed) : l.filter (fun x => !(decide (x ∈ passed) && q x)) = l :=
  List.filter_eq_self.mpr fun x hx => by simp [h x hx]

theorem filter_passed (h : ∀ x ∈ l, x ∈ passed) :
    l.filter (fun x => !(decide (x ∈ passed) && q x)) = l.filter fun x => !q x :=
  List.filter_congr fun x hx => by simp [h x hx]

end

/-- The kernel task and one process. -/
theorem scheduled_tiny : ∃ σ o c l, Scheduled tinyBoot σ ∧ Table σ.state l ∧ o ∈ l ∧ c ∈ l ∧ o ≠ c ∧ Running σ.state o := by
  obtain ⟨σ, o, p, q, m, hlife, hprog, hp, hstate, -, -, hothers, hrun, hpid⟩ := tinyRun_ok (x := getProc)
    (P := fun _ q => q.pid == 1) (by decide +kernel)
  obtain ⟨hq, -⟩ := getProc_ok.mp hrun
  have hpq : p = q := Option.some.inj (hp.symm.trans hq)
  have hpid : p.pid = 1 := by
    rw [hpq]
    exact beq_iff_eq.mp hpid
  have hscheduled : Scheduled tinyBoot σ := by
    refine ⟨hlife, fun o' p' hp' h0 => ?_, fun o' p' hp' h0 => ?_⟩
    · obtain rfl | ⟨-, hr⟩ := hothers o' p' hp'
      · rw [hp] at hp'
        obtain rfl := Option.some.inj hp'
        rw [hpid] at h0
        cases h0
      · exact hr
    · obtain rfl | ⟨h0', -⟩ := hothers o' p' hp'
      · exact ⟨smallElf, hprog, bounded_smallElf, belowKernel_smallElf⟩
      · exact absurd h0' h0
  obtain ⟨l, hl⟩ := hlife.table
  obtain ⟨c, r, hr, hr0, -⟩ := hlife.inv.kernel_pid hl
  have hne : o ≠ c := by
    rintro rfl
    rw [hp] at hr
    obtain rfl := Option.some.inj hr
    rw [hpid] at hr0
    cases hr0
  exact ⟨σ, o, c, l, hscheduled, hl, (hl.mem o).mpr (by rw [hp]; rfl), (hl.mem c).mpr (by rw [hr]; rfl), hne, p, hp, hstate⟩

/-- The search of `scheduler` ends, however many processes are dead or sleep: it takes the first running process behind
the current one, round the list. The dead processes that it passes are gone, and their frames are free; nothing else
changed, and the current process is not among them. -/
theorem scheduler_picks (h : Scheduled B σ) (hl : Table σ.state (pre ++ post)) :
    ∃ passed o rest σ', post ++ pre = passed ++ o :: rest ∧ (∀ x ∈ passed, ¬ Running σ.state x) ∧ Running σ'.state o ∧
      (∀ fuel, (pre ++ post).length + 2 ≤ fuel → schedPick fuel pre.getLast? σ = .ok (o, σ')) ∧ Passed B passed σ σ' ∧
      Table σ'.state ((pre ++ post).filter fun x => !(decide (x ∈ passed) && isDead σ.state x)) ∧
      ∀ c, pre.getLast? = some c → c ∉ passed := by
  have hnext := hl.next_getLast
  have hnd := List.nodup_append.mp hl.nodup
  rcases h.find hl with ⟨a, o, b, σ', rfl, ha, ho, hpassed, htable, hfind⟩ |
    ⟨a, o, b, σ', hpost, rfl, ha, ho, hpassed, htable, hfind⟩
  · have hab := List.nodup_append.mp hnd.2.1
    refine ⟨a, o, b ++ pre, σ', by simp, ha, hpassed.running_iff.mpr ho, fun fuel hle => ?_, hpassed, ?_, fun c hc hm => ?_⟩
    · obtain ⟨k, rfl⟩ : ∃ k, fuel = k + 1 + a.length := ⟨fuel - (1 + a.length), by simp at hle; omega⟩
      rw [schedPick, hnext]
      exact hfind k
    · rw [List.filter_append, List.filter_append, filter_not_passed fun x hx hxa => ?_, filter_passed fun x hx => hx,
        filter_not_passed fun x hx hxa => hab.2.2 x hxa x hx rfl]
      · exact htable
      · exact hnd.2.2 x hx x (List.mem_append_left _ hxa) rfl
    · exact hnd.2.2 c (List.mem_of_getLast? hc) c (List.mem_append_left _ hm) rfl
  · have hab := List.nodup_append.mp hnd.1
    have hout : ∀ x ∈ o :: b, x ∉ post ++ a := by
      intro x hx hm
      rcases List.mem_append.mp hm with hm | hm
      · exact hnd.2.2 x (List.mem_append_right _ hx) x hm rfl
      · exact hab.2.2 x hm x hx rfl
    refine ⟨post ++ a, o, b, σ', by simp, fun x hx => ?_, hpassed.running_iff.mpr ho, fun fuel hle => ?_, hpassed, ?_,
      fun c hc hm => ?_⟩
    · exact (List.mem_append.mp hx).elim (hpost x) (ha x)
    · obtain ⟨k, rfl⟩ : ∃ k, fuel = k + 1 + a.length + 1 + post.length :=
        ⟨fuel - (1 + a.length + 1 + post.length), by simp at hle; omega⟩
      rw [schedPick, hnext]
      exact hfind k
    · rw [List.filter_append, List.filter_append, filter_passed fun x hx => List.mem_append_right _ hx,
        filter_not_passed hout, filter_passed fun x hx => List.mem_append_left _ hx]
      simpa using htable
    · rw [List.getLast?_append_cons] at hc
      exact hout c (List.mem_of_getLast? hc) hm

theorem scheduler_picks_tiny : ∃ σ l o σ', Scheduled tinyBoot σ ∧ Table σ.state l ∧ (∃ x ∈ l, ∃ y ∈ l, x ≠ y) ∧
    schedPick (l.length + 2) none σ = .ok (o, σ') ∧ Running σ'.state o := by
  obtain ⟨σ, o, c, l, hs, hl, ho, hc, hne, -⟩ := scheduled_tiny
  obtain ⟨passed, o', rest, σ', -, -, hr, hpick, -⟩ := scheduler_picks hs (show Table σ.state ([] ++ l) from hl)
  exact ⟨σ, l, o', σ', hs, hl, ⟨o, ho, c, hc, hne⟩, hpick _ le_rfl, hr⟩

/-! ### Turns -/

/-- What happens while process `c` runs: it writes to memory, comes back from `sched_fork`, exits or sleeps, and
interrupts wake up others. The kernel task does neither exit nor sleep. -/
inductive Event (B : Boot) (c : Nat) : Sys → Sys → Prop
  | back {σ : Sys} : σ.forking c = true → Event B c σ { σ with forking := Function.update σ.forking c false }
  | exit {σ : Sys} {p : Process} {status : Int} {m : Machine} :
    σ.state.procs c = some p → p.state = .running → p.pid ≠ 0 → σ.forking c = false →
      (procExit c status).run ⟨σ.state, [], []⟩ = .ok ((), m) → Event B c σ { σ with state := m.state }
  | sleep {σ : Sys} {p : Process} :
    σ.state.procs c = some p → p.state ≠ .dead → p.pid ≠ 0 → Event B c σ { σ with state := { σ.state with
      procs := Function.update σ.state.procs c (some { p with state := .io }) } }
  | wake {σ : Sys} {o : Nat} {p : Process} :
    σ.state.procs o = some p → p.state ≠ .dead → Event B c σ { σ with state := { σ.state with
      procs := Function.update σ.state.procs o (some { p with state := .running }) } }
  /-- `switch_kcontext` in `sched`. -/
  | save {σ : Sys} {p : Process} (context : Nat) :
    σ.state.procs c = some p → Event B c σ { σ with state := { σ.state with
      procs := Function.update σ.state.procs c (some { p with context := context }) } }
  | other {σ : Sys} {s : State} : Other B σ.state s → Event B c σ { σ with state := s }

/-- `sched_task`, when `sched` was called. -/
inductive Task (B : Boot) (c : Nat) : Sys → Sys → Prop
  | none {σ : Sys} : Task B c σ σ
  | fork {σ : Sys} {p : Process} {fails : List Bool} {retvalue : Nat → Nat} {m : Machine} :
    σ.state.procs c = some p → p.state = .running → p.pid ≠ 0 → σ.forking c = false →
      ((schedTaskFork c).run σ.retvalue).run ⟨σ.state, fails, []⟩ = .ok (((), retvalue), m) →
      Task B c σ (σ.fork c m.state retvalue)

/-- From where `scheduler` switched to `c` to where it switches to `o`. -/
inductive Round (B : Boot) : Sys → Nat → Sys → Nat → Prop
  | mk {σ σ₁ σ₂ σ' : Sys} {c o fuel : Nat} : Relation.ReflTransGen (Event B c) σ σ₁ → Task B c σ₁ σ₂ →
    schedPick fuel (some c) σ₂ = .ok (o, σ') → Round B σ c σ' o

theorem Event.step (h : Event B c σ σ') : Step B σ σ' := by
  cases h with
  | back ho => exact .back ho
  | exit hp hr hpid hfork hrun => exact .exit hp hr hpid hfork hrun
  | sleep hp hd _ => exact .turn .io hp hd (.inr rfl)
  | wake hp hd => exact .turn .running hp hd (.inl rfl)
  | save context hp => exact .save context hp
  | other ho => exact .other ho

namespace Scheduled

/-- A process changes, but not its PID. -/
theorem setProc (h : Scheduled B σ) {p' : Process} (hp : σ.state.procs o = some p) (hpid : p'.pid = p.pid)
    (hstate : p'.pid = 0 → p'.state = .running)
    (hlife : Life B { σ with state := { σ.state with procs := Function.update σ.state.procs o (some p') } }) :
    Scheduled B { σ with state := { σ.state with procs := Function.update σ.state.procs o (some p') } } := by
  refine ⟨hlife, fun o' q hq h0 => ?_, fun o' q hq h0 => ?_⟩
  · dsimp only at hq
    by_cases e : o' = o
    · subst e
      rw [Function.update_self] at hq
      obtain rfl := Option.some.inj hq
      exact hstate h0
    · rw [Function.update_of_ne e] at hq
      exact h.kernel o' q hq h0
  · dsimp only at hq
    by_cases e : o' = o
    · subst e
      rw [Function.update_self] at hq
      obtain rfl := Option.some.inj hq
      exact h.programs o' p hp (hpid ▸ h0)
    · rw [Function.update_of_ne e] at hq
      exact h.programs o' q hq h0

theorem event (h : Scheduled B σ) (hl : Table σ.state l) (he : Event B c σ σ') : Scheduled B σ' ∧ Table σ'.state l := by
  have hlife := h.life.step he.step
  cases he with
  | back _ => exact ⟨⟨hlife, h.kernel, h.programs⟩, hl⟩
  | @exit p status m hp _ hpid _ hrun =>
    unfold procExit modifyProc at hrun
    obtain rfl := update_ok.mp hrun
    dsimp only at hlife ⊢
    rw [hp] at hlife ⊢
    exact ⟨h.setProc hp rfl (fun h0 => absurd h0 hpid) hlife, hl.setProc hp rfl⟩
  | sleep hp _ hpid => exact ⟨h.setProc hp rfl (fun h0 => absurd h0 hpid) hlife, hl.setProc hp rfl⟩
  | wake hp _ => exact ⟨h.setProc hp rfl (fun _ => rfl) hlife, hl.setProc hp rfl⟩
  | @save p context hp => exact ⟨h.setProc hp rfl (fun h0 => h.kernel c p hp h0) hlife, hl.setProc hp rfl⟩
  | @other s ho =>
    have hprocs := ho.procs
    refine ⟨⟨hlife, fun o p hp h0 => h.kernel o p (hprocs ▸ hp) h0, fun o p hp h0 => h.programs o p (hprocs ▸ hp) h0⟩,
      hl.congr hprocs ?_ ?_⟩ <;> rw [ho.rest]

theorem events (h : Scheduled B σ) (hl : Table σ.state l) (he : Relation.ReflTransGen (Event B c) σ σ') :
    Scheduled B σ' ∧ Table σ'.state l := by
  induction he with
  | refl => exact ⟨h, hl⟩
  | tail _ hs ih => exact ih.1.event ih.2 hs

theorem task (h : Scheduled B σ) (hl : Table σ.state l) (ht : Task B c σ σ') :
    ∃ new : List Nat, new.length ≤ 1 ∧ Scheduled B σ' ∧ Table σ'.state (new ++ l) := by
  cases ht with
  | none => exact ⟨[], Nat.zero_le _, h, hl⟩
  | @fork p fails r m hp hr hpid hidle hrun =>
    have hinv := h.life.inv
    have hlife := h.life.step (.fork hp hr hidle hrun)
    obtain ⟨live, frames, hop⟩ := hinv.done fails
    obtain ⟨v, hv⟩ := hinv.procs c p hp
    obtain ⟨child, hclone, -⟩ := schedTaskFork_ok hrun
    rcases hop.procClone_ok rfl B.windowOk hinv.pgDir_not_free hv.settled hclone with ⟨-, pid, x, z, hm, -⟩ | ⟨-, hu⟩
    · have hm' : Made σ.state m.state child pid z := hm
      have htable := hl.made hm'
      have hzero : pid ≠ 0 := by
        rintro rfl
        have := hm'.bit
        rw [hinv.bit] at this
        cases this
      have hprogram : ∀ o, o ≠ child → (σ.fork c m.state r).program o = σ.program o := by
        intro o e
        simp [Sys.fork, hm'.isNew, e]
      refine ⟨[child], le_rfl, ⟨hlife, fun o q hq h0 => ?_, fun o q hq h0 => ?_⟩, htable⟩
      · have hq : m.state.procs o = some q := hq
        by_cases e : o = child
        · subst e
          rw [hm'.settled.proc] at hq
          obtain rfl := Option.some.inj hq
          rw [hm'.pid_eq] at h0
          exact absurd (by exact_mod_cast h0) hzero
        · rw [hm'.others o e] at hq
          exact h.kernel o q hq h0
      · have hq : m.state.procs o = some q := hq
        by_cases e : o = child
        · subst e
          have : (σ.fork c m.state r).program o = σ.program c := by simp [Sys.fork, hm'.isNew]
          rw [this]
          exact h.programs c p hp hpid
        · rw [hm'.others o e] at hq
          rw [hprogram o e]
          exact h.programs o q hq h0
    · have hu' : Unmade σ.state m.state := hu
      have hprogram : (σ.fork c m.state r).program = σ.program := by
        funext o
        simp [Sys.fork, hu'.isNew]
      refine ⟨[], Nat.zero_le _, ⟨hlife, fun o q hq h0 => ?_, fun o q hq h0 => ?_⟩,
        hl.congr hu'.procs hu'.pidMap hu'.sched⟩
      · have hq : m.state.procs o = some q := hq
        exact h.kernel o q (hu'.procs ▸ hq) h0
      · have hq : m.state.procs o = some q := hq
        rw [hprogram]
        exact h.programs o q (hu'.procs ▸ hq) h0

theorem round (h : Scheduled B σ) (hl : Table σ.state l) (hc : c ∈ l) (hr : Round B σ c σ' o) :
    ∃ l', Scheduled B σ' ∧ Table σ'.state l' ∧ o ∈ l' ∧ RoundRobin.Turn (Running σ'.state) l c l' o := by
  obtain ⟨hevents, htask, hpick⟩ := hr
  rename_i σ₁ σ₂ fuel
  obtain ⟨h₁, hl₁⟩ := h.events hl hevents
  obtain ⟨new, hnew, h₂, hl₂⟩ := h₁.task hl₁ htask
  obtain ⟨pre, post, rfl⟩ := List.append_of_mem hc
  have hl₂' : Table σ₂.state ((new ++ (pre ++ [c])) ++ post) := by simpa using hl₂
  have hnext := hl₂'.next_getLast
  rw [List.getLast?_append, List.getLast?_concat, Option.some_or] at hnext
  rw [schedPick, hnext] at hpick
  have hsame : ∀ n r, schedFind (fuel + n) ((post.map some).headD none) σ₂ = .ok r → r = (o, σ') := by
    intro n r hr
    have hn := schedFind_mono n hpick
    rw [hr] at hn
    exact Except.ok.inj hn
  rcases h₂.find hl₂' with ⟨a, o', b, σ'', rfl, ha, ho, hpassed, htable, hfind⟩ |
    ⟨a, o', b, σ'', hpost, hpre, ha, ho, hpassed, htable, hfind⟩
  · obtain ⟨rfl, rfl⟩ := Prod.mk.inj (hsame (1 + a.length) (o', σ'') (by rw [← Nat.add_assoc]; exact hfind fuel))
    have hturn := RoundRobin.Turn.ahead hl₂.nodup hnew
      (fun x hx hr => ha x hx (hpassed.running_iff.mp hr)) (hpassed.running_iff.mpr ho)
      (List.filter_sublist (p := fun x => !isDead σ₂.state x))
    exact ⟨_, hpassed.scheduled, by simpa using htable, by simp, hturn⟩
  · obtain ⟨rfl, rfl⟩ := Prod.mk.inj (hsame (1 + a.length + 1 + post.length) (o', σ'') (by
      simp only [← Nat.add_assoc]
      exact hfind fuel))
    have hturn := RoundRobin.Turn.around hl₂.nodup hnew
      (fun x hx hr => hpost x hx (hpassed.running_iff.mp hr)) hpre
      (fun x hx hr => ha x hx (hpassed.running_iff.mp hr)) (hpassed.running_iff.mpr ho)
      (List.filter_sublist (p := fun x => !isDead σ₂.state x)) (List.filter_sublist (p := fun x => !isDead σ₂.state x))
    exact ⟨_, hpassed.scheduled, htable, by simp, hturn⟩

end Scheduled

/-- A process that runs whenever `scheduler` looks for one gets a turn, after fewer than twice as many turns as there
are processes, whatever the others do. -/
theorem scheduler_fair {σ : Nat → Sys} {c : Nat → Nat} (h : Scheduled B (σ 0)) (hl : Table (σ 0).state l) (hc : c 0 ∈ l)
    (ho : o ∈ l) (hround : ∀ k < 2 * l.length, Round B (σ k) (c k) (σ (k + 1)) (c (k + 1)))
    (hrun : ∀ k < 2 * l.length, Running (σ (k + 1)).state o) : ∃ k < 2 * l.length, c (k + 1) = o := by
  have hlen : 0 < l.length := List.length_pos_of_mem ho
  have hall : ∀ n ≤ 2 * l.length, ∃ L : Nat → List Nat, L 0 = l ∧ Scheduled B (σ n) ∧ Table (σ n).state (L n) ∧ c n ∈ L n ∧
      ∀ k < n, RoundRobin.Turn (Running (σ (k + 1)).state) (L k) (c k) (L (k + 1)) (c (k + 1)) := by
    intro n
    induction n with
    | zero => exact fun _ => ⟨fun _ => l, rfl, h, hl, hc, fun k hk => absurd hk (Nat.not_lt_zero k)⟩
    | succ n ih =>
      intro hn
      obtain ⟨L, h0, hs, ht, hm, hturns⟩ := ih (by omega)
      obtain ⟨l', hs', ht', hm', hturn⟩ := hs.round ht hm (hround n (by omega))
      refine ⟨Function.update L (n + 1) l', ?_, hs', ?_, ?_, fun k hk => ?_⟩
      · rw [Function.update_of_ne (by omega), h0]
      · rwa [Function.update_self]
      · rwa [Function.update_self]
      · rw [Function.update_of_ne (by omega)]
        by_cases e : k = n
        · subst e
          rwa [Function.update_self]
        · rw [Function.update_of_ne (by omega)]
          exact hturns k (by omega)
  obtain ⟨L, h0, -, -, -, hturns⟩ := hall _ le_rfl
  have hw : RoundRobin.Within (2 * l.length - 1) (L 0) (c 0) o := by
    rw [h0]
    exact RoundRobin.within_of_mem hc ho
  obtain ⟨k, hk, e⟩ := RoundRobin.fair (fun k hk => hturns k (by omega)) hw fun k hk => hrun k (by omega)
  exact ⟨k, by omega, e⟩

/-! ### Two processes -/

theorem Scheduled.exists_round (h : Scheduled B σ) (hl : Table σ.state l) (hc : c ∈ l) :
    ∃ σ' c' l', Round B σ c σ' c' ∧ Scheduled B σ' ∧ Table σ'.state l' ∧ c' ∈ l' ∧
      ∀ o, Running σ.state o → Running σ'.state o := by
  obtain ⟨pre, post, rfl⟩ := List.append_of_mem hc
  have hl' : Table σ.state ((pre ++ [c]) ++ post) := by simpa using hl
  have hpick : ∃ fuel c' σ' a, schedPick fuel (some c) σ = .ok (c', σ') ∧ Passed B a σ σ' := by
    have hnext := hl'.next_getLast
    rw [List.getLast?_concat] at hnext
    rcases h.find hl' with ⟨a, c', b, σ', -, -, -, hpassed, -, hfind⟩ | ⟨a, c', b, σ', -, -, -, -, hpassed, -, hfind⟩
    · exact ⟨_, c', σ', a, by rw [schedPick, hnext]; exact hfind 0, hpassed⟩
    · exact ⟨_, c', σ', _, by rw [schedPick, hnext]; exact hfind 0, hpassed⟩
  obtain ⟨fuel, c', σ', a, hpick, hpassed⟩ := hpick
  have hr : Round B σ c σ' c' := .mk .refl .none hpick
  obtain ⟨l', hs, ht, hm, -⟩ := h.round hl hc hr
  exact ⟨σ', c', l', hr, hs, ht, hm, fun o ho => hpassed.running_iff.mpr ho⟩

end

theorem scheduler_fair_tiny : ∃ (σ : Nat → Sys) (c : Nat → Nat) (o : Nat) (l : List Nat), Scheduled tinyBoot (σ 0) ∧
    Table (σ 0).state l ∧ o ≠ c 0 ∧ (∀ k, Round tinyBoot (σ k) (c k) (σ (k + 1)) (c (k + 1))) ∧
      ∃ k < 2 * l.length, c (k + 1) = o := by
  obtain ⟨σ₀, o, c₀, l, hs, hl, ho, hc, hne, hr⟩ := scheduled_tiny
  let Ok := fun x : Sys × Nat => Scheduled tinyBoot x.1 ∧ (∃ l, Table x.1.state l ∧ x.2 ∈ l) ∧ Running x.1.state o
  have hnext : ∀ x : { x // Ok x }, ∃ y : { x // Ok x }, Round tinyBoot x.1.1 x.1.2 y.1.1 y.1.2 := by
    rintro ⟨x, h, ⟨l, hl, hc⟩, hr⟩
    obtain ⟨σ', c', l', hround, hs', hl', hc', hkeep⟩ := h.exists_round hl hc
    exact ⟨⟨(σ', c'), hs', ⟨l', hl', hc'⟩, hkeep o hr⟩, hround⟩
  choose next hround using hnext
  let x := fun k => next^[k] ⟨(σ₀, c₀), hs, ⟨l, hl, hc⟩, hr⟩
  have hrounds : ∀ k, Round tinyBoot (x k).1.1 (x k).1.2 (x (k + 1)).1.1 (x (k + 1)).1.2 := by
    intro k
    have hk : x (k + 1) = next (x k) := Function.iterate_succ_apply' next k _
    rw [hk]
    exact hround (x k)
  exact ⟨fun k => (x k).1.1, fun k => (x k).1.2, o, l, hs, hl, hne, hrounds,
    scheduler_fair (σ := fun k => (x k).1.1) (c := fun k => (x k).1.2) hs hl hc ho (fun k _ => hrounds k)
      fun k _ => (x (k + 1)).2.2.2⟩

end Airix.Proc
