import Airix.Bio.Abstract

/-!
# The pointer program refines the lock manager

`Sim s a`: the links and sleep chains of `s` represent the lists and queues of `a`. Every step of the
code is a step of the lock manager (`Sim.step`).
-/

namespace Airix.Bio

namespace State
variable (s : State) (m : Node) (o : Option Nat) (p : Nat) (x : Proc)

@[simp] theorem setSleep_procs : (s.setSleep m o).procs = s.procs := by cases m <;> rfl
@[simp] theorem setSleep_links : (s.setSleep m o).links = s.links := by cases m <;> rfl
@[simp] theorem setSleep_count : (s.setSleep m o).count = s.count := by cases m <;> rfl
@[simp] theorem setSleep_io : (s.setSleep m o).io = s.io := by cases m <;> rfl
@[simp] theorem setSleep_numProcs : (s.setSleep m o).numProcs = s.numProcs := by cases m <;> rfl

@[simp] theorem setSleep_procSleep : (s.setSleep m o).procSleep = s.procSleep := by
  funext q; simp [procSleep]

theorem setSleep_bios (b : Nat) : ∃ o', (s.setSleep m o).bios b = { s.bios b with sleep := o' } := by
  cases m with
  | head => exact ⟨_, rfl⟩
  | bio c =>
    by_cases e : b = c
    · subst e; exact ⟨o, by simp [setSleep, setBio]⟩
    · exact ⟨(s.bios b).sleep, by simp [setSleep, setBio, e]⟩

@[simp] theorem setSleep_reffed (b : Nat) : ((s.setSleep m o).bios b).reffed = (s.bios b).reffed := by
  obtain ⟨o', h⟩ := s.setSleep_bios m o b; rw [h]

@[simp] theorem setSleep_dirty (b : Nat) : ((s.setSleep m o).bios b).dirty = (s.bios b).dirty := by
  obtain ⟨o', h⟩ := s.setSleep_bios m o b; rw [h]

@[simp] theorem setSleep_key (b : Nat) :
    ((s.setSleep m o).bios b).dev = (s.bios b).dev ∧ ((s.setSleep m o).bios b).sector = (s.bios b).sector := by
  obtain ⟨o', h⟩ := s.setSleep_bios m o b; rw [h]; exact ⟨rfl, rfl⟩

theorem sleepOf_setSleep : (s.setSleep m o).sleepOf = Function.update s.sleepOf m o := by
  funext m'
  cases m with
  | head => cases m' <;> simp [sleepOf, setSleep]
  | bio c =>
    cases m' with
    | head => simp [sleepOf, setSleep, setBio]
    | bio b =>
      by_cases e : b = c
      · subst e; simp [sleepOf, setSleep, setBio]
      · simp [sleepOf, setSleep, setBio, e]

@[simp] theorem setProc_sleepOf : (s.setProc p x).sleepOf = s.sleepOf := by funext m; cases m <;> rfl

theorem procSleep_setProc : (s.setProc p x).procSleep = Function.update s.procSleep p x.sleep := by
  funext q
  by_cases e : q = p
  · subst e; simp [procSleep, setProc]
  · simp [procSleep, setProc, e]

@[simp] theorem setBio_procs (b : Nat) (y : Bio) : (s.setBio b y).procs = s.procs := rfl

/-- Only the field `sleep` of a bio matters for its chain. -/
theorem sleepOf_setBio {b : Nat} {y : Bio} (h : y.sleep = (s.bios b).sleep) :
    (s.setBio b y).sleepOf = s.sleepOf := by
  funext m
  cases m with
  | head => rfl
  | bio c =>
    by_cases e : c = b
    · subst e; simpa [sleepOf, setBio] using h
    · simp [sleepOf, setBio, e]

theorem setProc_procs_self : (s.setProc p x).procs p = x := by simp [setProc]

theorem setProc_procs_of_ne {q : Nat} (h : q ≠ p) : (s.setProc p x).procs q = s.procs q := by
  simp [setProc, h]

end State

/-- The relation apart from the cache list. -/
structure SimCore (s : State) (a : Abs) : Prop where
  linked : ∀ m, Linked s.procSleep (s.sleepOf m) (a.queue m)
  io_iff : ∀ p, (s.procs p).state = .io ↔ ¬ a.Awake p
  awake : ∀ p, a.Awake p → (s.procs p).sleep = none
  pc : ∀ p, (s.procs p).pc = a.pc p
  held : ∀ p, (s.procs p).held = a.held p
  reffed : ∀ b, (s.bios b).reffed = a.reffed b
  key : ∀ b, ((s.bios b).dev, (s.bios b).sector) = a.key b
  clean : ∀ b, (s.bios b).dirty = false
  io : s.io = a.io

structure Sim (s : State) (a : Abs) : Prop extends SimCore s a where
  ring : s.links.IsRing .head (a.list.map .bio)
  count : s.count = a.list.length

namespace Sim
variable {s : State} {a : Abs} {p b n : Nat} {m : Node}

theorem init (n : Nat) : Sim (bioInitialize n) .init where
  ring := Links.IsRing.init_self
  count := rfl
  linked m := by cases m <;> rfl
  io_iff p := by simp [bioInitialize, Abs.Awake, Abs.init]
  awake _ _ := rfl
  pc _ := rfl
  held _ := rfl
  reffed _ := rfl
  key _ := rfl
  clean _ := rfl
  io := rfl

theorem running_iff (h : Sim s a) (p : Nat) : (s.procs p).state = .running ↔ a.Awake p := by
  have := h.io_iff p
  cases hs : (s.procs p).state <;> simp_all

theorem awake_append {pc : Pc} {q : Nat} : (a.append m p pc).Awake q ↔ a.Awake q ∧ q ≠ p := by
  constructor
  · intro h
    refine ⟨fun m' hq => h m' ?_, ?_⟩
    · exact (Queues.mem_add (List.perm_append_singleton p _)).mpr (.inl hq)
    · rintro rfl
      exact h m ((Queues.mem_add (List.perm_append_singleton q _)).mpr (.inr ⟨rfl, rfl⟩))
  · rintro ⟨h, hne⟩ m' hq
    rcases (Queues.mem_add (List.perm_append_singleton p _)).mp hq with hq | ⟨-, hq⟩
    · exact h m' hq
    · exact hne hq

/-- What `sleep_wait_bio` does apart from the sleep pointers. -/
theorem sleepWaitBio_data (s : State) (m : Node) (p : Nat) (pc : Pc) :
    (∀ q, ∃ o, (sleepWaitBio s m p pc).procs q =
      if q = p then ⟨.io, o, pc, (s.procs q).held⟩ else { s.procs q with sleep := o }) ∧
    (∀ b, ∃ o, (sleepWaitBio s m p pc).bios b = { s.bios b with sleep := o }) ∧
    (sleepWaitBio s m p pc).links = s.links ∧ (sleepWaitBio s m p pc).count = s.count ∧
    (sleepWaitBio s m p pc).io = s.io ∧ (sleepWaitBio s m p pc).numProcs = s.numProcs := by
  unfold Bio.sleepWaitBio
  rcases s.sleepOf m with _ | first
  · refine ⟨fun q => ?_, fun b => s.setSleep_bios m _ b, by simp [State.setProc], by simp [State.setProc],
      by simp [State.setProc], by simp [State.setProc]⟩
    refine ⟨(s.procs q).sleep, ?_⟩
    by_cases e : q = p
    · subst e; rw [State.setProc_procs_self, if_pos rfl]; simp
    · rw [State.setProc_procs_of_ne _ _ _ e, if_neg e]; simp
  · refine ⟨fun q => ?_, fun b => ⟨_, rfl⟩, rfl, rfl, rfl, rfl⟩
    dsimp only
    generalize lastFrom s.procSleep s.numProcs first = last
    by_cases e' : q = last
    · subst e'
      refine ⟨some p, ?_⟩
      by_cases e : q = p
      · subst e; simp [State.setProc]
      · simp [State.setProc, e]
    · refine ⟨(s.procs q).sleep, ?_⟩
      by_cases e : q = p
      · subst e; simp [State.setProc, e']
      · simp [State.setProc, e, e']

/-- The two branches of `sleep_wait_bio`: the pointer that is set is that of the node, or that of the last
process in its queue. -/
theorem sleepWaitBio_sleep (h : Sim s a) (ha : AInv s.numProcs a) (pc : Pc) :
    (a.queue m = [] ∧ (Bio.sleepWaitBio s m p pc).sleepOf = Function.update s.sleepOf m (some p) ∧
      (Bio.sleepWaitBio s m p pc).procSleep = s.procSleep) ∨
    ∃ q l, a.queue m = q :: l ∧ (Bio.sleepWaitBio s m p pc).sleepOf = s.sleepOf ∧
      (Bio.sleepWaitBio s m p pc).procSleep =
        Function.update s.procSleep ((q :: l).getLast (by simp)) (some p) := by
  have hlink := h.linked m
  cases hq : a.queue m with
  | nil =>
    rw [hq, Linked.nil_iff] at hlink
    refine .inl ⟨rfl, ?_, ?_⟩
    · simp [Bio.sleepWaitBio, hlink, State.sleepOf_setSleep]
    · simp only [Bio.sleepWaitBio, hlink, State.procSleep_setProc, State.setSleep_procSleep, State.setSleep_procs]
      exact Function.update_eq_self p s.procSleep
  | cons q l =>
    rw [hq, Linked.cons_iff] at hlink
    have hlen : l.length ≤ s.numProcs := by
      have hnd := ha.queues.nodup m
      rw [hq] at hnd
      have hsub : (q :: l) ⊆ List.range s.numProcs := fun x hx =>
        List.mem_range.mpr (ha.queues.lt m x (hq ▸ hx))
      have := (List.subperm_of_subset hnd hsub).length_le
      simp at this
      omega
    refine .inr ⟨q, l, rfl, ?_, ?_⟩
    · simp [Bio.sleepWaitBio, hlink.1]
    · simp only [Bio.sleepWaitBio, hlink.1, hlink.2.lastFrom_eq hlen, State.procSleep_setProc]
      rw [← State.procSleep, State.procSleep_setProc]
      exact Function.update_eq_self p _

theorem sleepWaitBio (h : Sim s a) (ha : AInv s.numProcs a) (hp : a.Awake p) (pc : Pc) :
    Sim (sleepWaitBio s m p pc) (a.append m p pc) := by
  obtain ⟨hprocs, hbios, hlinks, hcount, hio, -⟩ := sleepWaitBio_data s m p pc
  have hnull : s.procSleep p = none := h.awake p hp
  have hlink := h.linked m
  have hptr : (∀ m', Linked (Bio.sleepWaitBio s m p pc).procSleep ((Bio.sleepWaitBio s m p pc).sleepOf m')
        ((a.append m p pc).queue m')) ∧
      ∀ q, (a.append m p pc).Awake q → (Bio.sleepWaitBio s m p pc).procSleep q = none := by
    rcases h.sleepWaitBio_sleep ha pc (m := m) (p := p) with ⟨hq, hs, hps⟩ | ⟨q, l, hq, hs, hps⟩
    · rw [hs, hps]
      refine ⟨fun m' => ?_, fun r hr => h.awake r (awake_append.mp hr).1⟩
      by_cases e : m' = m
      · subst e; simp [Abs.append, hq, hnull]
      · simpa [Abs.append, e] using h.linked m'
    · rw [hs, hps]
      have hlast : (q :: l).getLast (by simp) ∈ a.queue m := by rw [hq]; exact List.getLast_mem _
      refine ⟨fun m' => ?_, fun r hr => ?_⟩
      · by_cases e : m' = m
        · subst e
          rw [hq] at hlink
          have hnd := ha.queues.nodup m'
          have hpq := hp m'
          rw [hq] at hnd hpq
          simpa [Abs.append, hq] using hlink.concat hnd hpq hnull
        · simp only [Abs.append, Function.update_of_ne e]
          refine (h.linked m').congr fun r hr => Function.update_of_ne ?_ _ _
          rintro rfl
          exact e (ha.queues.unique m' m _ hr hlast)
      · have hr' := (awake_append.mp hr).1
        rw [Function.update_of_ne (by rintro rfl; exact hr' m hlast)]
        exact h.awake r hr'
  refine ⟨⟨hptr.1, fun q => ?_, fun q hq => hptr.2 q hq, fun q => ?_, fun q => ?_, fun b => ?_, fun b => ?_,
    fun b => ?_, by rw [hio]; exact h.io⟩, by rw [hlinks]; exact h.ring, by rw [hcount]; exact h.count⟩
  · obtain ⟨o, ho⟩ := hprocs q
    rw [ho, awake_append]
    by_cases e : q = p
    · simp [e]
    · simp [e, h.io_iff]
  · obtain ⟨o, ho⟩ := hprocs q
    rw [ho]
    by_cases e : q = p
    · simp [e, Abs.append]
    · simp [e, Abs.append, h.pc]
  · obtain ⟨o, ho⟩ := hprocs q
    rw [ho]
    by_cases e : q = p
    · simp [e, Abs.append, h.held]
    · simp [e, Abs.append, h.held]
  · obtain ⟨o, ho⟩ := hbios b
    rw [ho]; exact h.reffed b
  · obtain ⟨o, ho⟩ := hbios b
    rw [ho]; exact h.key b
  · obtain ⟨o, ho⟩ := hbios b
    rw [ho]; exact h.clean b

theorem awake_push {q : Nat} : (a.push b p).Awake q ↔ a.Awake q ∧ q ≠ p := by
  constructor
  · intro h
    refine ⟨fun m' hq => h m' ((Queues.mem_add (List.Perm.refl _)).mpr (.inl hq)), ?_⟩
    rintro rfl
    exact h (.bio b) ((Queues.mem_add (List.Perm.refl _)).mpr (.inr ⟨rfl, rfl⟩))
  · rintro ⟨h, hne⟩ m' hq
    rcases (Queues.mem_add (List.Perm.refl _)).mp hq with hq | ⟨-, hq⟩
    · exact h m' hq
    · exact hne hq

theorem sleepWaitBioComplete (h : Sim s a) (hp : a.Awake p) :
    Sim (sleepWaitBioComplete { s with io := s.io ++ [b] } b p) (a.push b p) := by
  obtain ⟨s', hs'⟩ : ∃ s', Bio.sleepWaitBioComplete { s with io := s.io ++ [b] } b p = s' := ⟨_, rfl⟩
  have hprocs : ∀ q, s'.procs q =
      if q = p then ⟨.io, (s.bios b).sleep, .readBio b, (s.procs p).held⟩ else s.procs q := by
    intro q
    rw [← hs']
    by_cases e : q = p
    · subst e; simp [Bio.sleepWaitBioComplete, State.setProc]
    · simp [Bio.sleepWaitBioComplete, State.setProc, e]
  have hbios : ∀ c, ∃ o, s'.bios c = { s.bios c with sleep := o } := by
    intro c; rw [← hs', Bio.sleepWaitBioComplete]; exact State.setSleep_bios _ (.bio b) (some p) c
  have hsleep : s'.sleepOf = Function.update s.sleepOf (.bio b) (some p) := by
    rw [← hs', Bio.sleepWaitBioComplete]
    simp only [State.setProc_sleepOf, State.sleepOf_setSleep]
    congr 1
  have hps : s'.procSleep = Function.update s.procSleep p (s.sleepOf (.bio b)) := by
    funext q
    rw [State.procSleep, hprocs]
    by_cases e : q = p
    · simp [e, State.sleepOf]
    · simp [e, State.procSleep]
  have hrest : s'.links = s.links ∧ s'.count = s.count ∧ s'.io = s.io ++ [b] := by
    rw [← hs', Bio.sleepWaitBioComplete]; simp [State.setProc]
  rw [hs']
  refine ⟨⟨fun m' => ?_, fun q => ?_, fun q hq => ?_, fun q => ?_, fun q => ?_, fun c => ?_, fun c => ?_,
    fun c => ?_, by rw [hrest.2.2, h.io]; rfl⟩, by rw [hrest.1]; exact h.ring, by rw [hrest.2.1]; exact h.count⟩
  · rw [hsleep, hps]
    by_cases e : m' = .bio b
    · subst e
      simp only [Abs.push, Function.update_self, Linked.cons_iff, true_and]
      exact (h.linked (.bio b)).congr fun q hq => Function.update_of_ne (by rintro rfl; exact hp _ hq) _ _
    · simp only [Abs.push, Function.update_of_ne e]
      exact (h.linked m').congr fun q hq => Function.update_of_ne (by rintro rfl; exact hp _ hq) _ _
  · rw [hprocs, awake_push]
    by_cases e : q = p
    · simp [e]
    · simp [e, h.io_iff]
  · obtain ⟨hq, hne⟩ := awake_push.mp hq
    rw [hprocs, if_neg hne]; exact h.awake q hq
  · rw [hprocs]
    by_cases e : q = p
    · simp [e, Abs.push]
    · simp [e, Abs.push, h.pc]
  · rw [hprocs]
    by_cases e : q = p
    · simp [e, Abs.push, h.held]
    · simp [e, Abs.push, h.held]
  · obtain ⟨o, ho⟩ := hbios c
    rw [ho]; exact h.reffed c
  · obtain ⟨o, ho⟩ := hbios c
    rw [ho]; exact h.key c
  · obtain ⟨o, ho⟩ := hbios c
    rw [ho]; exact h.clean c

theorem awake_pop {l : List Nat} (hu : Queues n a.queue) (hq : a.queue m = p :: l) {q : Nat} :
    (a.pop m).Awake q ↔ a.Awake q ∨ q = p := by
  have hpop : ∀ m', (a.pop m).queue m' = if m' = m then l else a.queue m' := by
    intro m'
    by_cases e : m' = m
    · simp [Abs.pop, e, hq]
    · simp [Abs.pop, e]
  have hnd := hu.nodup m
  rw [hq] at hnd
  constructor
  · intro h
    by_cases e : q = p
    · exact .inr e
    · refine .inl fun m' hm => ?_
      have hm' := h m'
      rw [hpop] at hm'
      split_ifs at hm' with hmm
      · subst hmm
        rw [hq] at hm
        exact hm' ((List.mem_cons.mp hm).resolve_left e)
      · exact hm' hm
  · rintro (h | rfl) m' hm
    · exact h m' (Queues.mem_of_tail hm)
    · rw [hpop] at hm
      split_ifs at hm with hmm
      · exact (List.nodup_cons.mp hnd).1 hm
      · exact hmm (hu.unique m' m q hm (hq ▸ List.mem_cons_self))

theorem popSleep (h : Sim s a) (hu : Queues n a.queue) {l : List Nat} (hq : a.queue m = p :: l) :
    Sim (popSleep s m p) (a.pop m) := by
  obtain ⟨s', hs'⟩ : ∃ s', Bio.popSleep s m p = s' := ⟨_, rfl⟩
  have hlink := h.linked m
  rw [hq, Linked.cons_iff] at hlink
  have hnd := hu.nodup m
  rw [hq] at hnd
  have hprocs : ∀ q, s'.procs q =
      if q = p then { s.procs p with sleep := none, state := .running } else s.procs q := by
    intro q
    rw [← hs']
    by_cases e : q = p
    · subst e; simp [Bio.popSleep, State.setProc]
    · simp [Bio.popSleep, State.setProc, e]
  have hbios : ∀ c, ∃ o, s'.bios c = { s.bios c with sleep := o } := by
    intro c; rw [← hs']; exact State.setSleep_bios _ _ _ _
  have hsleep : s'.sleepOf = Function.update s.sleepOf m (s.procSleep p) := by
    rw [← hs', Bio.popSleep]
    simp only [State.setProc_sleepOf, State.sleepOf_setSleep]
    rfl
  have hps : s'.procSleep = Function.update s.procSleep p none := by
    funext q
    rw [State.procSleep, hprocs]
    by_cases e : q = p
    · simp [e]
    · simp [e, State.procSleep]
  have hrest : s'.links = s.links ∧ s'.count = s.count ∧ s'.io = s.io := by
    rw [← hs', Bio.popSleep]; simp [State.setProc]
  rw [hs']
  refine ⟨⟨fun m' => ?_, fun q => ?_, fun q hq' => ?_, fun q => ?_, fun q => ?_, fun c => ?_, fun c => ?_,
    fun c => ?_, by rw [hrest.2.2]; exact h.io⟩, by rw [hrest.1]; exact h.ring, by rw [hrest.2.1]; exact h.count⟩
  · rw [hsleep, hps]
    by_cases e : m' = m
    · subst e
      simp only [Abs.pop, Function.update_self, hq, List.tail_cons]
      refine hlink.2.congr fun q hql => Function.update_of_ne ?_ _ _
      rintro rfl
      exact (List.nodup_cons.mp hnd).1 hql
    · simp only [Abs.pop, Function.update_of_ne e]
      refine (h.linked m').congr fun q hql => Function.update_of_ne ?_ _ _
      rintro rfl
      exact e (hu.unique m' m _ hql (hq ▸ List.mem_cons_self))
  · rw [hprocs, awake_pop hu hq]
    by_cases e : q = p
    · simp [e]
    · simp [e, h.io_iff]
  · rw [hprocs]
    by_cases e : q = p
    · simp [e]
    · rw [if_neg e]
      exact h.awake q (((awake_pop hu hq).mp hq').resolve_right e)
  · rw [hprocs]
    by_cases e : q = p
    · simp [e, Abs.pop, h.pc]
    · simp [e, Abs.pop, h.pc]
  · rw [hprocs]
    by_cases e : q = p
    · simp [e, Abs.pop, h.held]
    · simp [e, Abs.pop, h.held]
  · obtain ⟨o, ho⟩ := hbios c
    rw [ho]; exact h.reffed c
  · obtain ⟨o, ho⟩ := hbios c
    rw [ho]; exact h.key c
  · obtain ⟨o, ho⟩ := hbios c
    rw [ho]; exact h.clean c

/-! ### The cache list -/

theorem findBio (h : Sim s a) (dev : UInt8) (sector : UInt64) :
    findBio s dev sector = a.list.find? (fun b => decide (a.key b = (dev, sector))) := by
  have hlen : (a.list.map Node.bio).length < s.count + 1 := by rw [h.count]; simp
  rw [Bio.findBio, h.ring.walk_next hlen, List.find?_map]
  simp only [Function.comp_def, ← h.key, Prod.mk.injEq]
  cases a.list.find? _ <;> rfl

theorem findUnusedBio (h : Sim s a) : findUnusedBio s = a.list.reverse.find? (fun b => !a.reffed b) := by
  have hlen : (a.list.map Node.bio).length < s.count + 1 := by rw [h.count]; simp
  rw [Bio.findUnusedBio, h.ring.walk_prev hlen, ← List.map_reverse, List.find?_map]
  simp only [Function.comp_def, h.clean, h.reffed, Bool.or_false]
  cases a.list.reverse.find? _ <;> rfl

end Sim

namespace SimCore
variable {s : State} {a : Abs} {p b : Nat}

theorem rekey (h : SimCore s a) (dev : UInt8) (base : UInt64) :
    SimCore (rekey s b dev base) (a.rekey b (dev, base)) := by
  have hbios : ∀ c, c ≠ b → (Bio.rekey s b dev base).bios c = s.bios c := by
    intro c e; simp [Bio.rekey, State.setBio, e]
  have hself : (Bio.rekey s b dev base).bios b =
      { s.bios b with updated := false, dirty := false, reffed := false, dev := dev, sector := base } := by
    simp [Bio.rekey, State.setBio]
  refine { h with linked := fun m => ?_, reffed := fun c => ?_, key := fun c => ?_, clean := fun c => ?_ }
  · have hs : (Bio.rekey s b dev base).sleepOf = s.sleepOf := by
      apply State.sleepOf_setBio; rfl
    rw [hs]; exact h.linked m
  · by_cases e : c = b
    · subst e; rw [hself]; simp [Abs.rekey]
    · rw [hbios c e]; simp [Abs.rekey, e, h.reffed]
  · by_cases e : c = b
    · subst e; rw [hself]; simp [Abs.rekey]
    · rw [hbios c e]; simp [Abs.rekey, e, h.key]
  · by_cases e : c = b
    · subst e; rw [hself]
    · rw [hbios c e]; exact h.clean c

theorem takeBio (h : SimCore s a) (sector : UInt64) : SimCore (takeBio s p b sector) (a.take p b) := by
  have hprocs : ∀ q, (Bio.takeBio s p b sector).procs q =
      if q = p then { s.procs p with pc := .user, held := b :: (s.procs p).held } else s.procs q := by
    intro q
    by_cases e : q = p
    · subst e; simp [Bio.takeBio, State.setProc, State.setBio]
    · simp [Bio.takeBio, State.setProc, State.setBio, e]
  have hbios : ∀ c, c ≠ b → (Bio.takeBio s p b sector).bios c = s.bios c := by
    intro c e; simp [Bio.takeBio, State.setBio, State.setProc, e]
  have hself : (Bio.takeBio s p b sector).bios b =
      { s.bios b with iter := (sector - (s.bios b).sector).toUInt8, reffed := true } := by
    simp [Bio.takeBio, State.setBio, State.setProc]
  have hsleep : (Bio.takeBio s p b sector).sleepOf = s.sleepOf := by
    rw [Bio.takeBio, State.setProc_sleepOf, State.sleepOf_setBio]
    · funext m; cases m <;> rfl
    · rfl
  have hps : (Bio.takeBio s p b sector).procSleep = s.procSleep := by
    funext q
    rw [State.procSleep, hprocs]
    by_cases e : q = p
    · simp [e, State.procSleep]
    · simp [e, State.procSleep]
  refine ⟨fun m => ?_, fun q => ?_, fun q hq => ?_, fun q => ?_, fun q => ?_, fun c => ?_, fun c => ?_,
    fun c => ?_, h.io⟩
  · rw [hsleep, hps]; exact h.linked m
  · rw [hprocs]
    by_cases e : q = p
    · subst e; rw [if_pos rfl]; exact h.io_iff q
    · rw [if_neg e]; exact h.io_iff q
  · rw [← State.procSleep, hps]; exact h.awake q hq
  · rw [hprocs]
    by_cases e : q = p
    · simp [e, Abs.take]
    · simp [e, Abs.take, h.pc]
  · rw [hprocs]
    by_cases e : q = p
    · simp [e, Abs.take, h.held]
    · simp [e, Abs.take, h.held]
  · by_cases e : c = b
    · subst e; rw [hself]; simp [Abs.take]
    · rw [hbios c e]; simp [Abs.take, e, h.reffed]
  · by_cases e : c = b
    · subst e; rw [hself]; exact h.key c
    · rw [hbios c e]; exact h.key c
  · by_cases e : c = b
    · subst e; rw [hself]; exact h.clean c
    · rw [hbios c e]; exact h.clean c

/-- `memset` on a bio that nobody waits for. -/
theorem slabAllocBio (h : SimCore s a) (hq : a.queue (.bio s.count) = []) {mem : Option Nat} {s' : State}
    (hs : slabAllocBio s mem = some (b, s')) :
    b = s.count ∧ SimCore s' (a.rekey s.count (0, 0)) ∧ s'.count = s.count + 1 ∧ s'.numProcs = s.numProcs ∧
      s'.links = (s.links.setNext (.bio s.count) none).setPrev (.bio s.count) none := by
  cases mem with
  | none => cases hs
  | some buffer =>
    obtain ⟨rfl, rfl⟩ := Prod.mk.inj (Option.some.inj hs)
    refine ⟨rfl, ?_, rfl, rfl, rfl⟩
    refine { h with linked := fun m => ?_, reffed := fun c => ?_, key := fun c => ?_, clean := fun c => ?_ }
    · cases m with
      | head => exact h.linked .head
      | bio c =>
        by_cases e : c = s.count
        · subst e; simp [State.sleepOf, State.setBio, zeroBio, Abs.rekey, hq]
        · have hs : Function.update s.bios s.count { zeroBio with buffer := buffer } c = s.bios c :=
            Function.update_of_ne e _ _
          show Linked s.procSleep _ _
          simp only [State.sleepOf, State.setBio, hs]
          exact h.linked (.bio c)
    · by_cases e : c = s.count
      · subst e; simp [State.setBio, zeroBio, Abs.rekey]
      · simpa [State.setBio, Abs.rekey, e] using h.reffed c
    · by_cases e : c = s.count
      · subst e; simp [State.setBio, zeroBio, Abs.rekey]
      · simpa [State.setBio, Abs.rekey, e] using h.key c
    · by_cases e : c = s.count
      · subst e; simp [State.setBio, zeroBio]
      · simpa [State.setBio, e] using h.clean c

end SimCore

namespace Sim
variable {s : State} {a : Abs} {p b n : Nat}

theorem rekey (h : Sim s a) (dev : UInt8) (base : UInt64) : Sim (rekey s b dev base) (a.rekey b (dev, base)) :=
  ⟨h.toSimCore.rekey dev base, h.ring, h.count⟩

theorem takeBio (h : Sim s a) (hnd : a.list.Nodup) (hb : b ∈ a.list) (sector : UInt64) :
    Sim (takeBio s p b sector) (a.take p b) := by
  refine ⟨h.toSimCore.takeBio sector, ?_, ?_⟩
  · have hr := h.ring.unlink (List.mem_map_of_mem hb)
    rw [← List.map_erase (fun _ _ e => Node.bio.inj e)] at hr
    refine hr.insertFront ?_
    simpa using hnd.not_mem_erase
  · show s.count = _
    rw [h.count]
    have := List.length_pos_of_mem hb
    simp only [Abs.take, List.length_cons, List.length_erase_of_mem hb]
    omega

/-- The queue of a bio outside the cache is empty. -/
theorem queue_nil (ha : AInv n a) (hb : b ∉ a.list) : a.queue (.bio b) = [] := by
  rw [List.eq_nil_iff_forall_not_mem]
  intro p hp
  rcases ha.queue_pc _ p hp with ⟨dev, sector, hpc⟩ | ⟨c, hc, hpc, -⟩
  · exact hb (ha.get_mem p dev sector b hpc)
  · obtain rfl := Node.bio.inj hc
    exact hb (ha.held_reffed p b (ha.read_held p b hpc)).1

/-- A bio from the slab enters the cache list. -/
theorem takeFresh (h : Sim s a) (ha : AInv n a) {mem : Option Nat} {s' : State}
    (hs : slabAllocBio s mem = some (b, s')) (dev : UInt8) (sector base : UInt64) :
    Sim (Bio.takeBio (Bio.rekey s' b dev base) p b sector)
      ((a.rekey a.list.length (dev, base)).take p a.list.length) ∧
      ((Bio.rekey s' b dev base).bios b).reffed = false ∧ ((Bio.rekey s' b dev base).bios b).dirty = false ∧
      b = a.list.length := by
  have hm : a.list.length ∉ a.list := fun hm => lt_irrefl _ ((ha.list_mem _).mp hm)
  obtain ⟨rfl, hcore, hcount, -, hlinks⟩ :=
    h.toSimCore.slabAllocBio (by rw [h.count]; exact queue_nil ha hm) hs
  have hcore' := (hcore.rekey (b := s.count) dev base).takeBio (p := p) (b := s.count) sector
  have hidem : (a.rekey s.count (0, 0)).rekey s.count (dev, base) = a.rekey s.count (dev, base) := by
    simp [Abs.rekey]
  rw [hidem] at hcore'
  refine ⟨⟨by rw [← h.count]; exact hcore', ?_, ?_⟩, by simp [Bio.rekey, State.setBio],
    by simp [Bio.rekey, State.setBio], h.count⟩
  · rw [← h.count] at hm
    have hnode : ∀ x ∈ Node.head :: a.list.map Node.bio, x ≠ .bio s.count := by
      intro x hx e
      subst e
      exact hm (by simpa using hx)
    have hr : (s'.links.unlink (.bio s.count)).IsRing .head (a.list.map .bio) := by
      rw [hlinks]
      refine h.ring.congr (fun x hx => ?_) (fun x hx => ?_)
      · simp [Links.unlink, Links.setNext, Links.setPrev, hnode x hx]
      · simp [Links.unlink, Links.setNext, Links.setPrev, hnode x hx]
    rw [← h.count]
    simp only [Abs.take, Abs.rekey, List.erase_of_not_mem hm, List.map_cons]
    exact hr.insertFront fun hx => hnode _ hx rfl
  · rw [← h.count] at hm
    show s'.count = _
    rw [hcount, ← h.count]
    simp only [Abs.take, Abs.rekey, List.erase_of_not_mem hm, List.length_cons]
    rw [h.count]

/-! ### Steps -/

theorem bioGetRound (h : Sim s a) (ha : AInv s.numProcs a) (hp : a.Awake p) (hb : b ∈ a.list) (dev : UInt8)
    (sector : UInt64) :
    ∃ a', AGet a p dev sector b (a', (bioGetRound s p dev sector b).2) ∧
      Sim (bioGetRound s p dev sector b).1 a' := by
  unfold Bio.bioGetRound
  by_cases hr : a.reffed b
  · rw [if_pos (.inl (by rw [h.reffed]; exact hr))]
    exact ⟨_, .sleep hr, h.sleepWaitBio ha hp _⟩
  · rw [if_neg (by rw [h.reffed, h.clean]; simpa using hr)]
    exact ⟨_, .take (by simpa using hr), h.takeBio ha.list_nodup hb sector⟩

theorem allocBioRound (h : Sim s a) (ha : AInv s.numProcs a) (hp : a.Awake p) (dev : UInt8) (sector : UInt64)
    (mem : Option Nat) :
    ∃ a', AAlloc a p dev sector mem (a', (allocBioRound s p dev sector mem).2) ∧
      Sim (allocBioRound s p dev sector mem).1 a' := by
  unfold Bio.allocBioRound
  cases hslab : (if s.count < maxCacheCount then Bio.slabAllocBio s mem else none) with
  | some r =>
    obtain ⟨b, s'⟩ := r
    have hlt : s.count < maxCacheCount := by
      by_contra hge; rw [if_neg hge] at hslab; cases hslab
    rw [if_pos hlt] at hslab
    have hno : ¬ NoSlab a.list.length mem := by
      rintro (hle | rfl)
      · rw [← h.count] at hle; omega
      · cases hslab
    obtain ⟨hsim, hr, hd, rfl⟩ := h.takeFresh ha hslab dev sector (baseSector sector) (p := p)
    dsimp only
    rw [Bio.bioGetRound, if_neg (by rw [hr, hd]; simp)]
    exact ⟨_, .fresh hno, hsim⟩
  | none =>
    have hno : NoSlab a.list.length mem := by
      by_cases hlt : s.count < maxCacheCount
      · rw [if_pos hlt] at hslab
        exact .inr (by simpa [Bio.slabAllocBio] using hslab)
      · exact .inl (by rw [← h.count]; omega)
    dsimp only
    cases hu : Bio.findUnusedBio s with
    | some b =>
      rw [h.findUnusedBio] at hu
      have hm : b ∈ a.list := List.mem_reverse.mp (List.mem_of_find?_eq_some hu)
      have hsim := h.rekey (b := b) dev (baseSector sector)
      dsimp only
      rw [Bio.bioGetRound, if_neg (by rw [hsim.reffed, hsim.clean]; simp [Abs.rekey])]
      exact ⟨_, .recycle hno hu, hsim.takeBio ha.list_nodup hm sector⟩
    | none =>
      rw [h.findUnusedBio] at hu
      have hall : ∀ b ∈ a.list, a.reffed b := by
        intro b hb
        simpa using List.find?_eq_none.mp hu b (List.mem_reverse.mpr hb)
      exact ⟨_, .sleep hno hall, h.sleepWaitBio ha hp _⟩

/-- The first statements of `bio_release`. -/
theorem drop (h : Sim s a) :
    Sim ((s.setBio b { s.bios b with reffed := false }).setProc p
      { s.procs p with held := (s.procs p).held.erase b }) (a.drop p b) := by
  have hsleep : ∀ m, ((s.setBio b { s.bios b with reffed := false }).setProc p
      { s.procs p with held := (s.procs p).held.erase b }).sleepOf m = s.sleepOf m := by
    intro m
    rw [State.setProc_sleepOf, State.sleepOf_setBio]
    rfl
  have hps : ((s.setBio b { s.bios b with reffed := false }).setProc p
      { s.procs p with held := (s.procs p).held.erase b }).procSleep = s.procSleep := by
    rw [State.procSleep_setProc]; exact Function.update_eq_self p s.procSleep
  refine ⟨⟨fun m => ?_, fun q => ?_, fun q hq => ?_, fun q => ?_, fun q => ?_, fun c => ?_, fun c => ?_,
    fun c => ?_, h.io⟩, h.ring, h.count⟩
  · rw [hsleep, hps]; exact h.linked m
  · by_cases e : q = p
    · subst e; rw [State.setProc_procs_self]; exact h.io_iff q
    · rw [State.setProc_procs_of_ne _ _ _ e]; exact h.io_iff q
  · rw [← State.procSleep, hps]; exact h.awake q hq
  · by_cases e : q = p
    · subst e; rw [State.setProc_procs_self]; exact h.pc q
    · rw [State.setProc_procs_of_ne _ _ _ e]; exact h.pc q
  · by_cases e : q = p
    · subst e; rw [State.setProc_procs_self]; simp [Abs.drop, h.held]
    · rw [State.setProc_procs_of_ne _ _ _ e]; simpa [Abs.drop, e] using h.held q
  · by_cases e : c = b
    · subst e; simp [State.setBio, State.setProc, Abs.drop]
    · simpa [State.setBio, State.setProc, Abs.drop, e] using h.reffed c
  · by_cases e : c = b
    · subst e; simpa [State.setBio, State.setProc, Abs.drop] using h.key c
    · simpa [State.setBio, State.setProc, Abs.drop, e] using h.key c
  · by_cases e : c = b
    · subst e; simpa [State.setBio, State.setProc] using h.clean c
    · simpa [State.setBio, State.setProc, e] using h.clean c

theorem wakeUpSleepProcess (h : Sim s a) (hu : Queues n a.queue) :
    Sim (wakeUpSleepProcess s b) (a.pop (a.served b)) := by
  have hlink := h.linked (.bio b)
  unfold Bio.wakeUpSleepProcess Abs.served
  cases hq : a.queue (.bio b) with
  | cons p l =>
    rw [hq, Linked.cons_iff] at hlink
    rw [show (s.bios b).sleep = some p from hlink.1, if_neg (by simp)]
    exact h.popSleep hu hq
  | nil =>
    rw [hq, Linked.nil_iff] at hlink
    rw [show (s.bios b).sleep = none from hlink, if_pos rfl]
    have hhead := h.linked .head
    dsimp only
    cases hqh : a.queue .head with
    | cons p l =>
      rw [hqh, Linked.cons_iff] at hhead
      rw [show s.headSleep = some p from hhead.1]
      exact h.popSleep hu hqh
    | nil =>
      rw [hqh, Linked.nil_iff] at hhead
      rw [show s.headSleep = none from hhead]
      have hpop : a.pop .head = a := by
        have : Function.update a.queue .head [] = a.queue := by rw [← hqh]; exact Function.update_eq_self _ _
        simp only [Abs.pop, hqh, List.tail_nil, this]
      rw [hpop]; exact h

theorem bioRelease (h : Sim s a) (hu : Queues n a.queue) : Sim (bioRelease s p b) (a.release p b) := by
  have hdrop := h.drop (p := p) (b := b)
  have hserved : a.served b = (a.drop p b).served b := rfl
  unfold Bio.bioRelease Abs.release
  dsimp only
  rw [if_neg]
  · rw [hserved]; exact hdrop.wakeUpSleepProcess hu
  · have := hdrop.clean b
    simp only [Bool.not_eq_true]
    exact this

/-- The disk's completion finds its reader. -/
theorem ideReadComplete (h : Sim s a) (ha : AInv n a) (hb : b ∈ s.io) (error : Bool) :
    ∃ s', ideReadComplete s b error = some s' ∧ Sim s' (a.complete b) := by
  obtain ⟨p, l, hq, -⟩ := ha.reader b (h.io ▸ hb)
  have hlink := h.linked (.bio b)
  rw [hq, Linked.cons_iff] at hlink
  unfold Bio.ideReadComplete
  rw [show (s.bios b).sleep = some p from hlink.1]
  refine ⟨_, rfl, ?_⟩
  have h₁ : Sim { s with io := s.io.erase b } { a with io := a.io.erase b } :=
    { h with io := by rw [h.io] }
  have hu : Queues n ({ a with io := a.io.erase b } : Abs).queue := ha.queues
  dsimp only
  split
  · exact h₁.popSleep hu hq
  · refine Sim.popSleep (?_ : Sim _ { a with io := a.io.erase b }) hu hq
    refine { h₁ with linked := fun m => ?_, reffed := fun c => ?_, key := fun c => ?_, clean := fun c => ?_ }
    · rw [State.sleepOf_setBio]
      · exact h₁.linked m
      · rfl
    · by_cases e : c = b
      · subst e; simpa [State.setBio] using h.reffed c
      · simpa [State.setBio, e] using h.reffed c
    · by_cases e : c = b
      · subst e; simpa [State.setBio] using h.key c
      · simpa [State.setBio, e] using h.key c
    · by_cases e : c = b
      · subst e; simpa [State.setBio] using h.clean c
      · simpa [State.setBio, e] using h.clean c

theorem done (h : Sim s a) : Sim (s.setProc p { s.procs p with pc := .user }) (a.done p) := by
  have hps : (s.setProc p { s.procs p with pc := .user }).procSleep = s.procSleep := by
    rw [State.procSleep_setProc]; exact Function.update_eq_self p s.procSleep
  refine { h with linked := fun m => ?_, io_iff := fun q => ?_, awake := fun q hq => ?_, pc := fun q => ?_
                  held := fun q => ?_ }
  · rw [hps, State.setProc_sleepOf]; exact h.linked m
  · by_cases e : q = p
    · subst e; rw [State.setProc_procs_self]; exact h.io_iff q
    · rw [State.setProc_procs_of_ne _ _ _ e]; exact h.io_iff q
  · rw [← State.procSleep, hps]; exact h.awake q hq
  · by_cases e : q = p
    · subst e; rw [State.setProc_procs_self]; simp [Abs.done]
    · rw [State.setProc_procs_of_ne _ _ _ e]; simpa [Abs.done, e] using h.pc q
  · by_cases e : q = p
    · subst e; rw [State.setProc_procs_self]; exact h.held q
    · rw [State.setProc_procs_of_ne _ _ _ e]; exact h.held q

/-- Every step of the code is a step of the lock manager. -/
theorem step (h : Sim s a) (ha : AInv s.numProcs a) {e : Event} {out : State × Option Nat} (hs : Step s e out) :
    ∃ a', AStep s.numProcs a e (a', out.2) ∧ Sim out.1 a' := by
  cases hs with
  | @get p dev sector mem hn hrun hpc =>
    have hp := (h.running_iff p).mp hrun
    rw [h.pc] at hpc
    unfold Bio.bioGet
    rw [h.findBio]
    cases hf : a.list.find? (fun b => decide (a.key b = (dev, baseSector sector))) with
    | some b =>
      have hm := List.mem_of_find?_eq_some hf
      have hk : a.key b = (dev, baseSector sector) := by simpa using List.find?_some hf
      obtain ⟨a', hg, hsim⟩ := h.bioGetRound ha hp hm dev sector
      exact ⟨a', .hit hn hp hpc hm hk hg, hsim⟩
    | none =>
      have hk : ∀ b ∈ a.list, a.key b ≠ (dev, baseSector sector) := by
        simpa using List.find?_eq_none.mp hf
      obtain ⟨a', hg, hsim⟩ := h.allocBioRound ha hp dev sector mem
      exact ⟨a', .miss hn hp hpc hk hg, hsim⟩
  | @resumeAlloc p dev sector mem hn hrun hpc =>
    have hp := (h.running_iff p).mp hrun
    rw [h.pc] at hpc
    obtain ⟨a', hg, hsim⟩ := h.allocBioRound ha hp dev sector mem
    exact ⟨a', .retryAlloc hn hp hpc hg, hsim⟩
  | @resumeGet p b dev sector mem hn hrun hpc =>
    have hp := (h.running_iff p).mp hrun
    rw [h.pc] at hpc
    obtain ⟨a', hg, hsim⟩ := h.bioGetRound ha hp (ha.get_mem p dev sector b hpc) dev sector
    exact ⟨a', .retryGet hn hp hpc hg, hsim⟩
  | @resumeRead p b mem hn hrun hpc =>
    rw [h.pc] at hpc
    exact ⟨_, .readDone hn ((h.running_iff p).mp hrun) hpc, h.done⟩
  | @read p b hn hrun hpc hb =>
    have hp := (h.running_iff p).mp hrun
    rw [h.pc] at hpc
    rw [h.held] at hb
    unfold Bio.bioRead
    split
    · exact ⟨a, .readHit, h⟩
    · exact ⟨_, .readMiss hn hp hpc hb, h.sleepWaitBioComplete hp⟩
  | @release p b hn hrun hpc hb =>
    rw [h.pc] at hpc
    rw [h.held] at hb
    exact ⟨_, .release hn ((h.running_iff p).mp hrun) hpc hb, h.bioRelease ha.queues⟩
  | @complete b error s' hb hc =>
    obtain ⟨s₁, hs₁, hsim⟩ := h.ideReadComplete ha hb error
    obtain rfl := Option.some.inj (hs₁.symm.trans hc)
    exact ⟨_, .complete (h.io ▸ hb), hsim⟩

end Sim
end Airix.Bio
