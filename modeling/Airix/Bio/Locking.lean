import Airix.Bio.Refine

/-!
# Locks, sleep queues and wake-ups over whole runs

Invariants of the lock manager carry over to the runs of the code (`Run.abs`).
-/

namespace Airix.Bio

section
variable {P : State → Event → Prop} {n : Nat} {s : State} {ret : List Nat}

theorem sleepWaitBio_numProcs (s : State) (m : Node) (p : Nat) (pc : Pc) :
    (sleepWaitBio s m p pc).numProcs = s.numProcs := by
  obtain ⟨-, -, -, -, -, h⟩ := Sim.sleepWaitBio_data s m p pc; exact h

theorem popSleep_numProcs (s : State) (m : Node) (p : Nat) : (popSleep s m p).numProcs = s.numProcs := by
  simp [popSleep, State.setProc]

theorem bioGetRound_numProcs (s : State) (p : Nat) (dev : UInt8) (sector : UInt64) (b : Nat) :
    (bioGetRound s p dev sector b).1.numProcs = s.numProcs := by
  unfold bioGetRound
  split
  · exact sleepWaitBio_numProcs _ _ _ _
  · rfl

theorem allocBioRound_numProcs (s : State) (p : Nat) (dev : UInt8) (sector : UInt64) (mem : Option Nat) :
    (allocBioRound s p dev sector mem).1.numProcs = s.numProcs := by
  unfold allocBioRound
  split
  · rename_i b s' hslab
    have hs' : s'.numProcs = s.numProcs := by
      split at hslab
      · cases mem with
        | none => cases hslab
        | some x => obtain ⟨-, rfl⟩ := Prod.mk.inj (Option.some.inj hslab); rfl
      · cases hslab
    rw [bioGetRound_numProcs]; exact hs'
  · split
    · rw [bioGetRound_numProcs]; rfl
    · exact sleepWaitBio_numProcs _ _ _ _

theorem Step.numProcs {e : Event} {out : State × Option Nat} (h : Step s e out) :
    out.1.numProcs = s.numProcs := by
  cases h with
  | get => unfold bioGet; split <;> [exact bioGetRound_numProcs ..; exact allocBioRound_numProcs ..]
  | resumeAlloc => exact allocBioRound_numProcs ..
  | resumeGet => exact bioGetRound_numProcs ..
  | resumeRead => rfl
  | read => unfold bioRead; split <;> simp [sleepWaitBioComplete, State.setProc]
  | release =>
    unfold bioRelease wakeUpSleepProcess
    dsimp only
    split_ifs
    · rfl
    · split
      · rw [popSleep_numProcs]; rfl
      · split
        · rw [popSleep_numProcs]; rfl
        · rfl
  | complete _ hc =>
    unfold ideReadComplete at hc
    split at hc
    · cases hc
    · obtain rfl := Option.some.inj hc
      rw [popSleep_numProcs]
      split <;> rfl

/-- An invariant of the lock manager holds along every run of the code. -/
theorem Run.abs (J : Abs → Prop) (h₀ : J .init)
    (hstep : ∀ {s : State} {a : Abs} {e : Event} {out : Abs × Option Nat}, Sim s a → AInv n a → J a → P s e →
      AStep n a e out → J out.1)
    (hr : Run P n s ret) : s.numProcs = n ∧ ∃ a, AInv n a ∧ Sim s a ∧ J a ∧ ∀ b, b ∈ a.list ↔ b ∈ ret := by
  induction hr with
  | init => exact ⟨rfl, .init, AInv.init n, Sim.init n, h₀, by simp [Abs.init]⟩
  | @step s ret e out _ hP hs ih =>
    obtain ⟨rfl, a, ha, hsim, hJ, hret⟩ := ih
    obtain ⟨a', hstep', hsim'⟩ := hsim.step ha hs
    refine ⟨hs.numProcs, a', ha.step hstep', hsim', hstep hsim ha hJ hP hstep', fun b => ?_⟩
    rw [List.mem_append, ← hret]
    exact hstep'.mem_list

/-! ### Locks and queues -/

/-- The locking discipline of a state: `queue` are the sleep chains, `list` is the cache list, `ret` are the
bios that `bio_get` has returned. -/
structure Locking (s : State) (ret : List Nat) (queue : Node → List Nat) (list : List Nat) : Prop where
  /-- A bio is referenced exactly when one process holds it. -/
  reffed_iff : ∀ b ∈ list, (s.bios b).reffed = true ↔ ∃! p, b ∈ (s.procs p).held
  held : ∀ p, (s.procs p).held.Nodup ∧ ∀ b ∈ (s.procs p).held, b ∈ list
  /-- The chains are null-terminated lists of distinct processes. -/
  chain : ∀ m, Linked s.procSleep (s.sleepOf m) (queue m) ∧ (queue m).Nodup
  disjoint : ∀ m m', m ≠ m' → (queue m).Disjoint (queue m')
  asleep_iff : ∀ p, (s.procs p).state = .io ↔ ∃ m, p ∈ queue m
  /-- The disk wakes the process that issued the read, and only it. -/
  reader : s.io.Nodup ∧ ∀ b ∈ s.io, ∃ p l, queue (.bio b) = p :: l ∧ (s.procs p).pc = .readBio b ∧
    ∀ error, ∃ s', ideReadComplete s b error = some s' ∧ (s'.procs p).state = .running ∧
      ∀ q, q ≠ p → s'.procs q = s.procs q
  ring : s.links.IsRing .head (list.map .bio)
  count : list.length = s.count ∧ s.count ≤ maxCacheCount
  returned : ∀ b, b ∈ list ↔ b ∈ ret

theorem popSleep_procs (s : State) (m : Node) (p q : Nat) :
    (popSleep s m p).procs q = if q = p then { s.procs p with sleep := none, state := .running } else s.procs q := by
  by_cases e : q = p
  · subst e; simp [popSleep, State.setProc]
  · simp [popSleep, State.setProc, e]

/-- `ide_read_complete` wakes the first process of the chain. -/
theorem ideReadComplete_procs {b p : Nat} (hs : (s.bios b).sleep = some p) (error : Bool) :
    ∃ s', ideReadComplete s b error = some s' ∧ (s'.procs p).state = .running ∧
      ∀ q, q ≠ p → s'.procs q = s.procs q := by
  unfold ideReadComplete
  rw [hs]
  refine ⟨_, rfl, ?_, fun q hq => ?_⟩
  · rw [popSleep_procs, if_pos rfl]
  · rw [popSleep_procs, if_neg hq]; split <;> rfl

theorem Sim.locking {a : Abs} (h : Sim s a) (ha : AInv n a) (hret : ∀ b, b ∈ a.list ↔ b ∈ ret) :
    Locking s ret a.queue a.list where
  reffed_iff b hb := by
    simp only [h.reffed, h.held]
    constructor
    · intro hr
      obtain ⟨p, hp⟩ := ha.reffed_held b hb hr
      exact ⟨p, hp, fun q hq => ha.held_unique q p b hq hp⟩
    · rintro ⟨p, hp, -⟩
      exact (ha.held_reffed p b hp).2
  held p := by
    rw [h.held]
    exact ⟨ha.held_nodup p, fun b hb => (ha.held_reffed p b hb).1⟩
  chain m := ⟨h.linked m, ha.queues.nodup m⟩
  disjoint m m' hne p hp hp' := hne (ha.queues.unique m m' p hp hp')
  asleep_iff p := by
    rw [h.io_iff, Abs.Awake]
    simp
  reader := by
    refine ⟨h.io ▸ ha.io_nodup, fun b hb => ?_⟩
    obtain ⟨p, l, hq, hpc⟩ := ha.reader b (h.io ▸ hb)
    have hlink := h.linked (.bio b)
    rw [hq, Linked.cons_iff] at hlink
    exact ⟨p, l, hq, by rw [h.pc]; exact hpc, fun error => ideReadComplete_procs hlink.1 error⟩
  ring := h.ring
  count := ⟨h.count.symm, by rw [h.count]; exact ha.list_le⟩
  returned := hret

/-- The locking discipline holds along every run. -/
theorem locking_invariant (hr : Run (fun _ _ => True) n s ret) : ∃ queue list, Locking s ret queue list := by
  obtain ⟨-, a, ha, hsim, -, hret⟩ := hr.abs (fun _ => True) trivial fun _ _ _ _ _ => trivial
  exact ⟨a.queue, a.list, hsim.locking ha hret⟩

/-- One process reads a bio while the other waits for the lock. -/
theorem locking_invariant_reading : ∃ s ret, (s.io = [0] ∧ (s.procs 1).state = .io) ∧
    ∃ queue list, Locking s ret queue list := by
  obtain ⟨⟨s, ret⟩, h⟩ := Option.isSome_iff_exists.mp (by decide : (execAll (bioInitialize 2) []
    [.get 0 0 0 (some 0x1000), .get 1 0 3 none, .read 0 0]).isSome)
  have hio := congrArg (Option.map fun r => (r.1.io, (r.1.procs 1).state)) h
  refine ⟨s, ret, ?_, locking_invariant (Run.execAll (fun _ _ => trivial) .init h)⟩
  exact Prod.mk.inj (Option.some.inj (hio.symm.trans (by decide)))

/-! ### No lost wake-up -/

/-- A process in the loop of `bio_get` or `alloc_bio` that has been woken. -/
def Abs.Pending (a : Abs) (q : Nat) (m : Node) : Prop := a.Awake q ∧ (a.pc q).WaitsAt m

structure NoLost (a : Abs) : Prop where
  /-- Someone waits for a bio: it is locked, or one of its waiters has been woken. -/
  lock : ∀ b, a.queue (.bio b) ≠ [] → a.reffed b = true ∨ ∃ q, a.Pending q (.bio b)
  /-- Someone waits for any bio: there is none, or one is locked, or somebody has been woken. -/
  cache : a.queue .head ≠ [] → a.list = [] ∨ (∃ b ∈ a.list, a.reffed b = true) ∨ ∃ q m, a.Pending q m
  /-- A process in the loops of `bio_get` holds nothing. -/
  empty : ∀ p m, (a.pc p).WaitsAt m → a.held p = []

namespace NoLost
variable {a : Abs} {p b : Nat}

theorem init : NoLost .init where
  lock _ h := absurd rfl h
  cache h := absurd rfl h
  empty _ _ _ := rfl

/-- A process that goes to sleep does so because its condition fails. -/
theorem append (h : NoLost a) {m : Node} {pc : Pc} (hpc : pc.WaitsAt m) (hheld : a.held p = [])
    (hold : ∀ b, (a.pc p).WaitsAt (.bio b) → m = .bio b)
    (hbusy : ∀ b, m = .bio b → b ∈ a.list ∧ a.reffed b = true)
    (hfull : m = .head → ∀ b ∈ a.list, a.reffed b = true) : NoLost (a.append m p pc) := by
  have hpend : ∀ q m', q ≠ p → a.Pending q m' → (a.append m p pc).Pending q m' := by
    rintro q m' hq ⟨hw, hpc'⟩
    exact ⟨Sim.awake_append.mpr ⟨hw, hq⟩, by simpa [Abs.append, hq] using hpc'⟩
  refine ⟨fun c hc => ?_, fun hc => ?_, fun q m' hq => ?_⟩
  · by_cases e : m = .bio c
    · exact .inl (hbusy c e).2
    · have hc' : a.queue (.bio c) ≠ [] := by simpa [Abs.append, Ne.symm e] using hc
      rcases h.lock c hc' with hr | ⟨q, hq⟩
      · exact .inl hr
      · refine .inr ⟨q, hpend q _ ?_ hq⟩
        rintro rfl
        exact e (hold c hq.2)
  · cases m with
    | bio c => exact .inr (.inl ⟨c, (hbusy c rfl).1, (hbusy c rfl).2⟩)
    | head =>
      cases hl : a.list with
      | nil => exact .inl hl
      | cons c l => exact .inr (.inl ⟨c, by simp [Abs.append, hl], hfull rfl c (by simp [hl])⟩)
  · by_cases e : q = p
    · rw [e]; exact hheld
    · exact h.empty q m' (by simpa [Abs.append, e] using hq)

theorem take (h : NoLost a) (hold : ∀ c, (a.pc p).WaitsAt (.bio c) → c = b) : NoLost (a.take p b) := by
  refine ⟨fun c hc => ?_, fun _ => .inr (.inl ⟨b, by simp [Abs.take], by simp [Abs.take]⟩), fun q m' hq => ?_⟩
  · by_cases e : c = b
    · exact .inl (by simp [Abs.take, e])
    · rcases h.lock c hc with hr | ⟨q, hw, hq⟩
      · exact .inl (by simpa [Abs.take, e] using hr)
      · refine .inr ⟨q, hw, ?_⟩
        have hqp : q ≠ p := by rintro rfl; exact e (hold c hq)
        simpa [Abs.take, hqp] using hq
  · by_cases e : q = p
    · subst e
      cases m' <;> simp [Abs.take, Pc.WaitsAt] at hq
    · simpa [Abs.take, e] using h.empty q m' (by simpa [Abs.take, e] using hq)

/-- A new key does not matter for a bio that is taken at once. -/
theorem rekey_take (h : NoLost a) {k : UInt8 × UInt64} (hold : ∀ c, ¬ (a.pc p).WaitsAt (.bio c)) :
    NoLost ((a.rekey b k).take p b) := by
  have := h.take (p := p) (b := b) fun c hc => absurd hc (hold c)
  have heq : (a.rekey b k).take p b = { a.take p b with key := Function.update a.key b k } := by
    simp [Abs.rekey, Abs.take]
  rw [heq]
  exact ⟨this.lock, this.cache, this.empty⟩

theorem push (h : NoLost a) (hpc : a.pc p = .user) (hr : a.reffed b = true) : NoLost (a.push b p) := by
  have hpend : ∀ q m', a.Pending q m' → (a.push b p).Pending q m' := by
    rintro q m' ⟨hw, hq⟩
    have hqp : q ≠ p := by rintro rfl; rw [hpc] at hq; cases m' <;> simp [Pc.WaitsAt] at hq
    exact ⟨Sim.awake_push.mpr ⟨hw, hqp⟩, by simpa [Abs.push, hqp] using hq⟩
  refine ⟨fun c hc => ?_, fun hc => ?_, fun q m' hq => ?_⟩
  · by_cases e : c = b
    · exact .inl (by rw [e]; exact hr)
    · rcases h.lock c (by simpa [Abs.push, e] using hc) with hr' | ⟨q, hq⟩
      · exact .inl hr'
      · exact .inr ⟨q, hpend q _ hq⟩
  · rcases h.cache (by simpa [Abs.push] using hc) with hl | hr' | ⟨q, m', hq⟩
    · exact .inl hl
    · exact .inr (.inl hr')
    · exact .inr (.inr ⟨q, m', hpend q m' hq⟩)
  · by_cases e : q = p
    · subst e; cases m' <;> simp [Abs.push, Pc.WaitsAt] at hq
    · exact h.empty q m' (by simpa [Abs.push, e] using hq)

theorem pending_pop {q : Nat} {m m' : Node} (hq : a.Pending q m') : (a.pop m).Pending q m' :=
  ⟨fun k hk => hq.1 k (Queues.mem_of_tail hk), hq.2⟩

/-- Waking the reader of a bio takes nobody's wake-up away. -/
theorem complete (h : NoLost a) : NoLost (a.complete b) := by
  have hne : ∀ m, (a.complete b).queue m ≠ [] → a.queue m ≠ [] := by
    intro m hm hnil
    refine hm (List.eq_nil_iff_forall_not_mem.mpr fun q hq => ?_)
    have := Queues.mem_of_tail hq
    rw [hnil] at this
    cases this
  refine ⟨fun c hc => ?_, fun hc => ?_, fun q m' hq => h.empty q m' hq⟩
  · rcases h.lock c (hne _ hc) with hr | ⟨q, hq⟩
    · exact .inl hr
    · exact .inr ⟨q, pending_pop (a := { a with io := a.io.erase b }) hq⟩
  · rcases h.cache (hne _ hc) with hl | hr | ⟨q, m', hq⟩
    · exact .inl hl
    · exact .inr (.inl hr)
    · exact .inr (.inr ⟨q, m', pending_pop (a := { a with io := a.io.erase b }) hq⟩)

/-- A release wakes the next waiter of the bio, or one that waits for any bio. -/
theorem release (h : NoLost a) (ha : AInv n a) (hp : a.Awake p) (hb : b ∈ a.held p) : NoLost (a.release p b) := by
  have hio := ha.notMem_io hp hb
  -- whoever is first in the served queue is pending afterwards
  have hwake : ∀ q l, a.queue (a.served b) = q :: l → (a.release p b).Pending q (a.served b) := by
    intro q l hq
    refine ⟨(Sim.awake_pop (a := a.drop p b) ha.queues hq).mpr (.inr rfl), ?_⟩
    rcases ha.queue_pc (a.served b) q (hq ▸ List.mem_cons_self) with hw | ⟨c, hc, -, hcio⟩
    · exact hw
    · have hcb : c = b := by
        unfold Abs.served at hc
        split at hc
        · cases hc
        · exact (Node.bio.inj hc).symm
      exact absurd (hcb ▸ hcio) hio
  have hne : ∀ m, (a.release p b).queue m ≠ [] → a.queue m ≠ [] := by
    intro m hm hnil
    refine hm (List.eq_nil_iff_forall_not_mem.mpr fun q hq => ?_)
    have : q ∈ a.queue m := Queues.mem_of_tail hq
    rw [hnil] at this
    cases this
  refine ⟨fun c hc => ?_, fun hc => ?_, fun q m' hq => ?_⟩
  · by_cases e : c = b
    · subst e
      have hserved : a.served c = .bio c := if_neg (hne _ hc)
      obtain ⟨q, l, hq⟩ := List.exists_cons_of_ne_nil (hne _ hc)
      rw [← hserved] at hq
      exact .inr ⟨q, hserved ▸ hwake q l hq⟩
    · rcases h.lock c (hne _ hc) with hr | ⟨q, hq⟩
      · exact .inl (by simpa [Abs.release, Abs.pop, Abs.drop, e] using hr)
      · exact .inr ⟨q, pending_pop (a := a.drop p b) hq⟩
  · have hserved : a.queue (a.served b) ≠ [] := by
      unfold Abs.served
      split
      · exact hne _ hc
      · assumption
    obtain ⟨q, l, hq⟩ := List.exists_cons_of_ne_nil hserved
    exact .inr (.inr ⟨q, _, hwake q l hq⟩)
  · have := h.empty q m' hq
    by_cases e : q = p
    · subst e; simp [Abs.release, Abs.pop, Abs.drop, this]
    · simpa [Abs.release, Abs.pop, Abs.drop, e] using this

theorem done (h : NoLost a) (hpc : a.pc p = .readBio b) : NoLost (a.done p) := by
  have hpend : ∀ q m', a.Pending q m' → (a.done p).Pending q m' := by
    rintro q m' ⟨hw, hq⟩
    have hqp : q ≠ p := by rintro rfl; rw [hpc] at hq; cases m' <;> simp [Pc.WaitsAt] at hq
    exact ⟨hw, by simpa [Abs.done, hqp] using hq⟩
  refine ⟨fun c hc => ?_, fun hc => ?_, fun q m' hq => ?_⟩
  · rcases h.lock c hc with hr | ⟨q, hq⟩
    · exact .inl hr
    · exact .inr ⟨q, hpend q _ hq⟩
  · rcases h.cache hc with hl | hr | ⟨q, m', hq⟩
    · exact .inl hl
    · exact .inr (.inl hr)
    · exact .inr (.inr ⟨q, m', hpend q m' hq⟩)
  · by_cases e : q = p
    · subst e; cases m' <;> simp [Abs.done, Pc.WaitsAt] at hq
    · exact h.empty q m' (by simpa [Abs.done, e] using hq)

end NoLost

theorem NoLost.get {a : Abs} {p b : Nat} (h : NoLost a) {dev : UInt8} {sector : UInt64} {out : Abs × Option Nat}
    (hb : b ∈ a.list) (hheld : a.held p = []) (hold : ∀ c, (a.pc p).WaitsAt (.bio c) → c = b)
    (hg : AGet a p dev sector b out) : NoLost out.1 := by
  cases hg with
  | take => exact h.take hold
  | sleep hr =>
    refine h.append ⟨dev, sector, rfl⟩ hheld (fun c hc => by rw [hold c hc]) (fun c hc => ?_)
      (fun hc => Node.noConfusion hc)
    obtain rfl := Node.bio.inj hc
    exact ⟨hb, hr⟩

theorem NoLost.alloc {a : Abs} {p : Nat} (h : NoLost a) {dev : UInt8} {sector : UInt64} {mem : Option Nat}
    {out : Abs × Option Nat} (hheld : a.held p = []) (hold : ∀ c, ¬ (a.pc p).WaitsAt (.bio c))
    (hg : AAlloc a p dev sector mem out) : NoLost out.1 := by
  cases hg with
  | fresh => exact h.rekey_take hold
  | recycle => exact h.rekey_take hold
  | sleep _ hall =>
    exact h.append ⟨dev, sector, rfl⟩ hheld (fun c hc => absurd hc (hold c)) (fun c hc => Node.noConfusion hc)
      (fun _ => hall)

/-- A process calls `bio_get` only when it holds no bio. -/
def HoldsNone (s : State) : Event → Prop
  | .get p _ _ _ => (s.procs p).held = []
  | _ => True

theorem NoLost.step {a : Abs} {e : Event} {out : Abs × Option Nat} (hsim : Sim s a) (ha : AInv n a)
    (h : NoLost a) (hP : HoldsNone s e) (hs : AStep n a e out) : NoLost out.1 := by
  cases hs with
  | hit _ _ hpc hb _ hg =>
    exact h.get hb (by rw [← hsim.held]; exact hP) (fun c hc => by simp [hpc, Pc.WaitsAt] at hc) hg
  | miss _ _ hpc _ hg =>
    exact h.alloc (by rw [← hsim.held]; exact hP) (fun c hc => by simp [hpc, Pc.WaitsAt] at hc) hg
  | @retryAlloc p dev sector _ _ _ _ hpc hg =>
    exact h.alloc (h.empty p .head (by rw [hpc]; exact ⟨dev, sector, rfl⟩))
      (fun c hc => by simp [hpc, Pc.WaitsAt] at hc) hg
  | @retryGet p b dev sector _ _ _ _ hpc hg =>
    exact h.get (ha.get_mem p dev sector b hpc) (h.empty p (.bio b) (by rw [hpc]; exact ⟨dev, sector, rfl⟩))
      (fun c hc => by simp [hpc, Pc.WaitsAt] at hc; exact hc.symm) hg
  | readDone _ _ hpc => exact h.done hpc
  | readHit => exact h
  | readMiss _ _ hpc hb => exact h.push hpc (ha.held_reffed _ _ hb).2
  | release _ hp _ hb => exact h.release ha hp hb
  | complete => exact h.complete

/-- Somebody will go on: a holder of a bio, or a process that has been woken inside `bio_get`. -/
def Goes (s : State) (q : Nat) : Prop :=
  (s.procs q).state = .running ∧ ((s.procs q).held ≠ [] ∨
    (∃ dev sector, (s.procs q).pc = .allocBio dev sector) ∨ ∃ dev sector b, (s.procs q).pc = .getBio dev sector b)

theorem Sim.goes_of_pending {a : Abs} {q : Nat} {m : Node} (h : Sim s a) (hq : a.Pending q m) : Goes s q := by
  refine ⟨(h.running_iff q).mpr hq.1, .inr ?_⟩
  rw [h.pc]
  have hw := hq.2
  cases m with
  | head => exact .inl hw
  | bio b =>
    obtain ⟨dev, sector, hpc⟩ := hw
    exact .inr ⟨dev, sector, b, hpc⟩

theorem Sim.goes_of_reffed {a : Abs} {b : Nat} (h : Sim s a) (ha : AInv n a) (hl : NoLost a) (hio : a.io = [])
    (hb : b ∈ a.list) (hr : a.reffed b = true) : ∃ q < n, Goes s q := by
  obtain ⟨q, hq⟩ := ha.reffed_held b hb hr
  refine ⟨q, ?_, (h.running_iff q).mpr fun m hm => ?_, .inl ?_⟩
  · by_contra hge
    rw [(ha.outside q (by omega)).2] at hq
    cases hq
  · -- a holder sleeps only for its read
    rcases ha.queue_pc m q hm with hw | ⟨c, -, -, hc⟩
    · rw [hl.empty q m hw] at hq; cases hq
    · rw [hio] at hc; cases hc
  · rw [h.held]; exact List.ne_nil_of_mem hq

theorem Run.goes (hr : Run HoldsNone n s ret) (hcount : 1 ≤ s.count) {p : Nat}
    (hp : (s.procs p).state = .io) : s.io ≠ [] ∨ ∃ q < n, Goes s q := by
  obtain ⟨-, a, ha, hsim, hl, -⟩ := hr.abs NoLost NoLost.init NoLost.step
  by_cases hio : a.io = []
  · right
    have hpend : ∀ q m, a.Pending q m → ∃ q < n, Goes s q := by
      intro q m hq
      refine ⟨q, ?_, hsim.goes_of_pending hq⟩
      by_contra hge
      have hw := hq.2
      rw [(ha.outside q (by omega)).1] at hw
      cases m <;> simp [Pc.WaitsAt] at hw
    have hasleep : ∃ m, p ∈ a.queue m := by simpa [Abs.Awake] using (hsim.io_iff p).mp hp
    obtain ⟨m, hm⟩ := hasleep
    have hne : a.queue m ≠ [] := List.ne_nil_of_mem hm
    rcases ha.queue_pc m p hm with hw | ⟨c, -, -, hc⟩
    · cases m with
      | bio b =>
        obtain ⟨dev, sector, hpc⟩ := hw
        rcases hl.lock b hne with hr | ⟨q, hq⟩
        · exact hsim.goes_of_reffed ha hl hio (ha.get_mem p dev sector b hpc) hr
        · exact hpend q _ hq
      | head =>
        rcases hl.cache hne with hnil | ⟨b, hb, hr⟩ | ⟨q, m', hq⟩
        · rw [hsim.count, hnil] at hcount; simp at hcount
        · exact hsim.goes_of_reffed ha hl hio hb hr
        · exact hpend q m' hq
    · rw [hio] at hc; cases hc
  · exact .inl (by rw [hsim.io]; exact hio)

/-- While somebody sleeps in the block layer, a request is in flight or somebody goes on; so it never happens
that all its users sleep with nothing to wait for. -/
theorem no_lost_wakeup (hr : Run HoldsNone n s ret) (hcount : 1 ≤ s.count) {p : Nat}
    (hp : (s.procs p).state = .io) :
    (s.io ≠ [] ∨ ∃ q < n, Goes s q) ∧
      ¬ (s.io = [] ∧ ∀ q < n, (s.procs q).state = .io ∨ ((s.procs q).pc = .user ∧ (s.procs q).held = [])) := by
  have hgoes := hr.goes hcount hp
  refine ⟨hgoes, ?_⟩
  rintro ⟨hio, hall⟩
  obtain ⟨q, hq, hrun, hwhy⟩ := hgoes.resolve_left (not_not.mpr hio)
  rcases hall q hq with hsleep | ⟨hpc, hheld⟩
  · rw [hrun] at hsleep; cases hsleep
  · rcases hwhy with hne | ⟨dev, sector, hpc'⟩ | ⟨dev, sector, b, hpc'⟩
    · exact hne hheld
    · rw [hpc] at hpc'; cases hpc'
    · rw [hpc] at hpc'; cases hpc'

/-- The second process waits for the bio that the first one holds. -/
theorem no_lost_wakeup_waiting : ∃ s : State, (s.procs 1).state = .io ∧
    (s.io ≠ [] ∨ ∃ q < 2, Goes s q) ∧
      ¬ (s.io = [] ∧ ∀ q < 2, (s.procs q).state = .io ∨ ((s.procs q).pc = .user ∧ (s.procs q).held = [])) := by
  have h₁ := (Run.init (P := HoldsNone) (n := 2)).step (e := .get 0 0 0 (some 0x1000)) rfl (exec_step rfl)
  have h₂ := h₁.step (e := .get 1 0 3 none) rfl (exec_step rfl)
  exact ⟨_, by decide, no_lost_wakeup h₂ (by decide) (p := 1) (by decide)⟩

end
end Airix.Bio
