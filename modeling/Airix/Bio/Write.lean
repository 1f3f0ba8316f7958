import Airix.Bio.Locking
import Airix.Ide.Model
import Mathlib.Data.Sum.Basic

/-!
# Writing blocks

`bio_write` does not wait: it marks the bio as dirty and hands a request to the IDE driver, whose completion
clears the mark. The request carries the bio in its field `data`, which `bio_write` does not set, so the
completion works on the bio whose address happened to be on the stack. A bio is named by its number here; a
number that the slab has not handed out stands for an address of something else.
-/

namespace Airix.Bio
open Ide (DmaIo)

/-- A write that the disk has not completed, with the bio that it is of. Nothing reads `bio`. -/
structure Pending where
  bio : Nat
  io : DmaIo
deriving DecidableEq, Repr

structure WState where
  state : State
  pending : List Pending

/-- The `struct ide_dma_io` of `bio_write`; `stack` is what was on the stack at the place of its `data`, and 1
stands for `ide_write_complete`. -/
def writeIo (s : State) (b stack : Nat) : DmaIo where
  drive := (s.bios b).dev.toNat
  sectorCount := sectorsPerBio.toNat
  start := (s.bios b).sector.toNat
  buffer := castVirtualToPhysical (s.bios b).buffer
  size := 4096
  data := stack
  completeFunc := .other 1

def bioWrite (w : WState) (b stack : Nat) : WState where
  state := w.state.setBio b { w.state.bios b with dirty := true, updated := false }
  pending := w.pending ++ [⟨b, writeIo w.state b stack⟩]

/-- `none` is the access to something that is no bio. -/
def ideWriteComplete (s : State) (io : DmaIo) (error : Bool) : Option State :=
  let b := io.data
  if b < s.count then
    let s := if error then s else s.setBio b { s.bios b with updated := true }
    let s := s.setBio b { s.bios b with dirty := false }
    some (if (s.bios b).reffed then s else wakeUpSleepProcess s b)
  else none

inductive WEvent
  | bio (e : Event)
  | write (p b stack : Nat)
  | written (x : Pending) (error : Bool)

/-- One atomic step; the second component of the outcome is the bio that a `bio_get` returns in it. -/
inductive WStep (w : WState) : WEvent → WState × Option Nat → Prop
  | bio {e : Event} {out : State × Option Nat} : Step w.state e out → WStep w (.bio e) ({ w with state := out.1 }, out.2)
  | write {p b stack : Nat} : p < w.state.numProcs → (w.state.procs p).state = .running →
    (w.state.procs p).pc = .user → b ∈ (w.state.procs p).held → WStep w (.write p b stack) (bioWrite w b stack, none)
  | written {x : Pending} {error : Bool} {s' : State} : x ∈ w.pending → ideWriteComplete w.state x.io error = some s' →
    WStep w (.written x error) (⟨s', w.pending.erase x⟩, none)

/-- The states of the runs of `n` processes whose steps all satisfy `P`. -/
inductive WRun (P : WState → WEvent → Prop) (n : Nat) : WState → Prop
  | init : WRun P n ⟨bioInitialize n, []⟩
  | step {w : WState} {e : WEvent} {out : WState × Option Nat} : WRun P n w → P w e → WStep w e out → WRun P n out.1

/-! ### Who sleeps -/

/-- The places of a pointer to a sleeping process. -/
def State.sleeper (s : State) : Node ⊕ Nat → Option Nat := Sum.elim s.sleepOf s.procSleep

/-- Each pointer to a process is to one that sleeps, and no process has two of them. -/
structure Asleep (s : State) : Prop where
  io : ∀ x q, s.sleeper x = some q → (s.procs q).state = .io
  once : ∀ x y q, s.sleeper x = some q → s.sleeper y = some q → x = y

section
variable {s s' s'' : State} {p : Nat} {m : Node} {o : Option Nat} {x : Proc}

theorem State.sleeper_setSleep : (s.setSleep m o).sleeper = Function.update s.sleeper (.inl m) o := by
  unfold State.sleeper
  rw [State.sleepOf_setSleep, State.setSleep_procSleep, Sum.elim_update_left]

theorem State.sleeper_setProc : (s.setProc p x).sleeper = Function.update s.sleeper (.inr p) x.sleep := by
  unfold State.sleeper
  rw [State.setProc_sleepOf, State.procSleep_setProc, Sum.elim_update_right]

/-- A process whose pointer stays as it is. -/
theorem State.sleeper_setProc_same (h : x.sleep = (s.procs p).sleep) : (s.setProc p x).sleeper = s.sleeper := by
  rw [State.sleeper_setProc, h]
  exact Function.update_eq_self (Sum.inr p) s.sleeper

namespace Asleep

/-- Some pointers may go. -/
theorem of_le (h : Asleep s) (hs : ∀ x q, s'.sleeper x = some q → s.sleeper x = some q)
    (hstate : ∀ q, (s'.procs q).state = (s.procs q).state) : Asleep s' := by
  refine ⟨fun x q hx => ?_, fun x y q hx hy => h.once x y q (hs x q hx) (hs y q hy)⟩
  rw [hstate]
  exact h.io x q (hs x q hx)

theorem of_eq (h : Asleep s) (hs : s'.sleeper = s.sleeper) (hstate : ∀ q, (s'.procs q).state = (s.procs q).state) :
    Asleep s' := h.of_le (fun _ _ hx => hs ▸ hx) hstate

/-- A running process goes to sleep at the end of a queue. -/
theorem append {x : Node ⊕ Nat} (h : Asleep s) (hp : (s.procs p).state = .running)
    (hs : s'.sleeper = Function.update s.sleeper x (some p))
    (hstate : ∀ q, (s'.procs q).state = if q = p then .io else (s.procs q).state) : Asleep s' := by
  have hne : ∀ y, s.sleeper y ≠ some p := fun y hy => by
    have hio := h.io y p hy
    rw [hp] at hio
    cases hio
  have hother : ∀ y q, y ≠ x → s'.sleeper y = some q → s.sleeper y = some q := fun y q hy hq => by
    rwa [hs, Function.update_of_ne hy] at hq
  have hself : ∀ q, s'.sleeper x = some q → q = p := fun q hq => by
    rw [hs, Function.update_self] at hq
    exact (Option.some.inj hq).symm
  refine ⟨fun y q hq => ?_, fun y z q hy hz => ?_⟩
  · rw [hstate]
    by_cases hyx : y = x
    · rw [if_pos (hself q (hyx ▸ hq))]
    · have hq := hother y q hyx hq
      rw [if_neg fun he : q = p => hne y (hq.trans (congrArg some he))]
      exact h.io y q hq
  · by_cases hyx : y = x
    · by_cases hzx : z = x
      · exact hyx.trans hzx.symm
      · have hqp := hself q (hyx ▸ hy)
        exact absurd (hqp ▸ hother z q hzx hz) (hne z)
    · by_cases hzx : z = x
      · have hqp := hself q (hzx ▸ hz)
        exact absurd (hqp ▸ hother y q hyx hy) (hne y)
      · exact h.once y z q (hother y q hyx hy) (hother z q hzx hz)

/-- A pointer moves to another place. -/
theorem move {x y : Node ⊕ Nat} (h : Asleep s)
    (hs : s'.sleeper = Function.update (Function.update s.sleeper x (s.sleeper y)) y none)
    (hstate : ∀ q, s.sleeper x ≠ some q → (s'.procs q).state = (s.procs q).state) : Asleep s' := by
  -- where the pointer in the place `z` was before
  have hback : ∀ z q, s'.sleeper z = some q → s.sleeper (if z = x then y else z) = some q ∧ z ≠ y := by
    intro z q hz
    rw [hs] at hz
    by_cases hzy : z = y
    · rw [hzy, Function.update_self] at hz
      cases hz
    · rw [Function.update_of_ne hzy] at hz
      by_cases hzx : z = x
      · rw [hzx, Function.update_self] at hz
        rw [if_pos hzx]
        exact ⟨hz, hzy⟩
      · rw [Function.update_of_ne hzx] at hz
        rw [if_neg hzx]
        exact ⟨hz, hzy⟩
  have hplace : ∀ z z', z ≠ y → z' ≠ y → (if z = x then y else z) = (if z' = x then y else z') → z = z' := by
    intro z z' hzy hzy' he
    by_cases hzx : z = x
    · by_cases hzx' : z' = x
      · exact hzx.trans hzx'.symm
      · rw [if_pos hzx, if_neg hzx'] at he
        exact absurd he.symm hzy'
    · by_cases hzx' : z' = x
      · rw [if_neg hzx, if_pos hzx'] at he
        exact absurd he hzy
      · rwa [if_neg hzx, if_neg hzx'] at he
  refine ⟨fun z q hz => ?_, fun z z' q hz hz' => ?_⟩
  · obtain ⟨hz, hzy⟩ := hback z q hz
    rw [hstate q fun hq => ?_]
    · exact h.io _ q hz
    · have he := h.once _ _ q hq hz
      by_cases hzx : z = x
      · rw [if_pos hzx] at he
        exact hzy (hzx.trans he)
      · rw [if_neg hzx] at he
        exact hzx he.symm
  · obtain ⟨hz, hzy⟩ := hback z q hz
    obtain ⟨hz', hzy'⟩ := hback z' q hz'
    exact hplace z z' hzy hzy' (h.once _ _ q hz hz')

theorem popSleep (h : Asleep s) {p : Nat} (hp : s.sleepOf m = some p) : Asleep (popSleep s m p) := by
  refine h.move (x := .inl m) (y := .inr p) ?_ fun q hq => ?_
  · rw [Bio.popSleep, State.sleeper_setProc, State.sleeper_setSleep]
    rfl
  · have hqp : q ≠ p := fun he => hq (he ▸ hp)
    rw [Bio.popSleep, State.setProc_procs_of_ne _ _ _ hqp, State.setSleep_procs]

theorem sleepWaitBio (h : Asleep s) (hp : (s.procs p).state = .running) {pc : Pc} :
    Asleep (sleepWaitBio s m p pc) := by
  obtain ⟨hprocs, -⟩ := Sim.sleepWaitBio_data s m p pc
  have hstate : ∀ q, ((Bio.sleepWaitBio s m p pc).procs q).state = if q = p then .io else (s.procs q).state := by
    intro q
    obtain ⟨o, ho⟩ := hprocs q
    rw [ho]
    split <;> rfl
  unfold Bio.sleepWaitBio at hstate ⊢
  cases hm : s.sleepOf m with
  | none =>
    rw [hm] at hstate
    refine h.append (x := .inl m) hp ?_ hstate
    show ((s.setSleep m (some p)).setProc p _).sleeper = _
    refine (State.sleeper_setProc_same ?_).trans State.sleeper_setSleep
    rfl
  | some first =>
    rw [hm] at hstate
    refine h.append (x := .inr (lastFrom s.procSleep s.numProcs first)) hp ?_ hstate
    show ((s.setProc _ { s.procs _ with sleep := some p }).setProc p _).sleeper = _
    refine (State.sleeper_setProc_same ?_).trans State.sleeper_setProc
    rfl

theorem sleepWaitBioComplete (h : Asleep s) (hp : (s.procs p).state = .running) {b : Nat} :
    Asleep (sleepWaitBioComplete s b p) := by
  -- the pointer of the bio moves to the process, and then the bio gets one to it
  obtain ⟨s₁, hs₁⟩ : ∃ s₁, (s.setProc p { s.procs p with sleep := (s.bios b).sleep }).setSleep (.bio b) none = s₁ := ⟨_, rfl⟩
  have hstate : ∀ q, (s₁.procs q).state = (s.procs q).state := by
    intro q
    rw [← hs₁, State.setSleep_procs]
    by_cases hq : q = p
    · rw [hq, State.setProc_procs_self]
    · rw [State.setProc_procs_of_ne _ _ _ hq]
  have h₁ : Asleep s₁ := h.move (x := .inr p) (y := .inl (.bio b))
    (by rw [← hs₁, State.sleeper_setSleep, State.sleeper_setProc]; rfl) fun q _ => hstate q
  refine h₁.append (x := .inl (.bio b)) ((hstate p).trans hp) ?_ fun q => ?_
  · rw [← hs₁, State.sleeper_setSleep, Function.update_idem, ← State.sleeper_setSleep]
    refine State.sleeper_setProc_same ?_
    rfl
  · rw [hstate]
    by_cases hq : q = p
    · rw [if_pos hq, hq, Bio.sleepWaitBioComplete, State.setProc_procs_self]
    · rw [if_neg hq, Bio.sleepWaitBioComplete, State.setProc_procs_of_ne _ _ _ hq, State.setSleep_procs,
        State.setProc_procs_of_ne _ _ _ hq]

end Asleep

theorem State.setBio_bios_self {b : Nat} {y : Bio} : (s.setBio b y).bios b = y := Function.update_self ..

theorem State.setBio_bios_of_ne {b c : Nat} {y : Bio} (h : c ≠ b) : (s.setBio b y).bios c = s.bios c :=
  Function.update_of_ne h ..

theorem State.setBio_setBio {b : Nat} {y z : Bio} : (s.setBio b y).setBio b z = s.setBio b z :=
  congrArg (fun f => { s with bios := f }) (Function.update_idem ..)

/-! ### What a step keeps -/

/-- The cache list has the bios that were handed out, the code of the processes works on these, and the
pointers are in order. -/
structure Listed (s : State) : Prop where
  list : ∃ list : List Nat, s.links.IsRing .head (list.map .bio) ∧ list.length = s.count ∧ ∀ b, b ∈ list ↔ b < s.count
  getting : ∀ p dev sector b, (s.procs p).pc = .getBio dev sector b → b < s.count
  held : ∀ p, ∀ b ∈ (s.procs p).held, b < s.count
  asleep : Asleep s

/-- The mark of a bio, and its key. -/
def markOf (x : Bio) : Bool × UInt8 × UInt64 := (x.dirty, x.dev, x.sector)

/-- A dirty bio stays so, with its key, and is not returned. -/
structure Keeps (s : State) (out : State × Option Nat) : Prop where
  listed : Listed out.1
  count : s.count ≤ out.1.count
  kept : ∀ b < s.count, (s.bios b).dirty = true → markOf (out.1.bios b) = markOf (s.bios b) ∧ out.2 ≠ some b

theorem Keeps.refl (h : Listed s) : Keeps s (s, none) := ⟨h, Nat.le_refl _, fun b _ _ => ⟨rfl, (Option.some_ne_none b).symm⟩⟩

theorem Keeps.trans {r : Option Nat} (h : Keeps s (s', none)) (h' : Keeps s' (s'', r)) : Keeps s (s'', r) := by
  refine ⟨h'.listed, h.count.trans h'.count, fun b hb hd => ?_⟩
  have hmark := (h.kept b hb hd).1
  obtain ⟨hmark', hr⟩ := h'.kept b (hb.trans_le h.count) ((congrArg Prod.fst hmark).trans hd)
  exact ⟨hmark'.trans hmark, hr⟩

/-- A step that leaves the cache list and the marks alone. -/
theorem Listed.keeps (h : Listed s) (hlinks : s'.links = s.links) (hcount : s'.count = s.count)
    (hpc : ∀ p dev sector b, (s'.procs p).pc = .getBio dev sector b → b < s.count)
    (hheld : ∀ p, ∀ b ∈ (s'.procs p).held, b < s.count) (hasleep : Asleep s')
    (hmark : ∀ b, markOf (s'.bios b) = markOf (s.bios b)) : Keeps s (s', none) := by
  refine ⟨⟨?_, ?_, ?_, hasleep⟩, hcount.ge, fun b _ _ => ⟨hmark b, (Option.some_ne_none b).symm⟩⟩
  · rw [hlinks, hcount]
    exact h.list
  · rw [hcount]
    exact hpc
  · rw [hcount]
    exact hheld

theorem markOf_sleep {x : Bio} : markOf { x with sleep := o } = markOf x := rfl

theorem Listed.sleepWaitBio (h : Listed s) {pc : Pc} (hp : (s.procs p).state = .running)
    (hpc : ∀ dev sector b, pc = .getBio dev sector b → b < s.count) : Keeps s (sleepWaitBio s m p pc, none) := by
  obtain ⟨hprocs, hbios, hlinks, hcount, -, -⟩ := Sim.sleepWaitBio_data s m p pc
  refine h.keeps hlinks hcount (fun q dev sector b hq => ?_) (fun q b hb => ?_) (h.asleep.sleepWaitBio hp) fun b => ?_
  · obtain ⟨o, ho⟩ := hprocs q
    rw [ho] at hq
    split at hq
    · exact hpc dev sector b hq
    · exact h.getting q dev sector b hq
  · obtain ⟨o, ho⟩ := hprocs q
    rw [ho] at hb
    refine h.held q b ?_
    split at hb <;> exact hb
  · obtain ⟨o, ho⟩ := hbios b
    rw [ho, markOf_sleep]

theorem Listed.popSleep (h : Listed s) (hp : s.sleepOf m = some p) : Keeps s (popSleep s m p, none) := by
  refine h.keeps ?_ ?_ (fun q dev sector b hq => ?_) (fun q b hb => ?_) (h.asleep.popSleep hp) fun b => ?_
  · exact State.setSleep_links ..
  · exact State.setSleep_count ..
  · rw [popSleep_procs] at hq
    split at hq <;> exact h.getting _ dev sector b hq
  · rw [popSleep_procs] at hb
    split at hb <;> exact h.held _ b hb
  · obtain ⟨o, ho⟩ := s.setSleep_bios m (s.procs p).sleep b
    exact (congrArg markOf ho).trans markOf_sleep

theorem Listed.wakeUpSleepProcess (h : Listed s) {b : Nat} : Keeps s (wakeUpSleepProcess s b, none) := by
  unfold Bio.wakeUpSleepProcess
  cases hb : (s.bios b).sleep with
  | some p => exact h.popSleep (m := .bio b) hb
  | none =>
    dsimp only
    cases hh : s.headSleep with
    | some p => exact h.popSleep (m := .head) hh
    | none => exact .refl h

theorem Listed.findBio (h : Listed s) {dev : UInt8} {sector : UInt64} {b : Nat} (hb : findBio s dev sector = some b) :
    b < s.count := by
  obtain ⟨list, hring, hlen, hmem⟩ := h.list
  have hfuel : (list.map Node.bio).length < s.count + 1 := by rw [List.length_map, hlen]; exact Nat.lt_succ_self _
  rw [Bio.findBio, hring.walk_next hfuel, List.find?_map, Option.bind_map] at hb
  obtain ⟨c, hc, hcb⟩ := Option.bind_eq_some_iff.1 hb
  obtain rfl : c = b := Option.some.inj hcb
  exact (hmem c).1 (List.mem_of_find?_eq_some hc)

theorem Listed.findUnusedBio (h : Listed s) {b : Nat} (hb : findUnusedBio s = some b) :
    b < s.count ∧ (s.bios b).dirty = false := by
  obtain ⟨list, hring, hlen, hmem⟩ := h.list
  have hfuel : (list.map Node.bio).length < s.count + 1 := by rw [List.length_map, hlen]; exact Nat.lt_succ_self _
  rw [Bio.findUnusedBio, hring.walk_prev hfuel, ← List.map_reverse, List.find?_map, Option.bind_map] at hb
  obtain ⟨c, hc, hcb⟩ := Option.bind_eq_some_iff.1 hb
  obtain rfl : c = b := Option.some.inj hcb
  refine ⟨(hmem c).1 (List.mem_reverse.1 (List.mem_of_find?_eq_some hc)), ?_⟩
  have hunused := List.find?_some hc
  simp only [Function.comp_apply, Bool.not_eq_true', Bool.or_eq_false_iff] at hunused
  exact hunused.2

/-- The assignments to a bio that leave its chain alone. -/
theorem Asleep.setBio (h : Asleep s) {b : Nat} {y : Bio} (hy : y.sleep = (s.bios b).sleep) : Asleep (s.setBio b y) :=
  h.of_eq (congrArg (Sum.elim · s.procSleep) (State.sleepOf_setBio s hy)) fun _ => rfl

theorem Asleep.setProc (h : Asleep s) {x : Proc} (hsleep : x.sleep = (s.procs p).sleep) (hstate : x.state = (s.procs p).state) :
    Asleep (s.setProc p x) := by
  refine h.of_eq (State.sleeper_setProc_same hsleep) fun q => ?_
  by_cases hq : q = p
  · rw [hq, State.setProc_procs_self, hstate]
  · rw [State.setProc_procs_of_ne _ _ _ hq]

theorem takeBio_procs {b : Nat} {sector : UInt64} (q : Nat) : (takeBio s p b sector).procs q =
    if q = p then { s.procs p with pc := .user, held := b :: (s.procs p).held } else s.procs q := by
  by_cases hq : q = p
  · rw [if_pos hq, hq]
    exact State.setProc_procs_self ..
  · rw [if_neg hq]
    exact State.setProc_procs_of_ne _ _ _ hq

theorem Asleep.takeBio (h : Asleep s) {b : Nat} {sector : UInt64} : Asleep (takeBio s p b sector) := by
  have hlinks : Asleep { s with links := (s.links.unlink (.bio b)).insertFront .head (.bio b) } :=
    h.of_eq rfl fun _ => rfl
  refine (hlinks.setBio ?_).setProc ?_ ?_ <;> rfl

/-- `bio_get` takes a bio that is not dirty. -/
theorem Listed.takeBio (h : Listed s) {b : Nat} {sector : UInt64} (hb : b < s.count) (hd : (s.bios b).dirty = false) :
    Keeps s (takeBio s p b sector, some b) := by
  refine ⟨⟨?_, fun q dev sector c hq => ?_, fun q c hc => ?_, h.asleep.takeBio⟩, Nat.le_refl _, fun c hc hdc => ⟨?_, fun he => ?_⟩⟩
  · obtain ⟨list, hring, hlen, hmem⟩ := h.list
    have hin := (hmem b).2 hb
    refine ⟨b :: list.erase b, ?_, ?_, fun c => ?_⟩
    · have hr := hring.unlink (List.mem_map_of_mem hin)
      rw [← List.map_erase (fun _ _ e => Node.bio.inj e)] at hr
      refine hr.insertFront ?_
      have hnd := List.Nodup.of_map _ hring.nodup_list
      simpa using hnd.not_mem_erase
    · rw [List.length_cons, List.length_erase_of_mem hin, Nat.sub_add_cancel (List.length_pos_of_mem hin)]
      exact hlen
    · have hperm := List.perm_cons_erase hin
      exact (hperm.mem_iff.symm).trans (hmem c)
  · rw [takeBio_procs] at hq
    split at hq
    · cases hq
    · exact h.getting q dev sector c hq
  · rw [takeBio_procs] at hc
    split at hc
    · rcases List.mem_cons.1 hc with rfl | hc
      · exact hb
      · exact h.held p c hc
    · exact h.held q c hc
  · by_cases hcb : c = b
    · rw [hcb] at hdc
      rw [hd] at hdc
      cases hdc
    · exact congrArg markOf (State.setBio_bios_of_ne (s := s) hcb)
  · obtain rfl := Option.some.inj he
    rw [hd] at hdc
    cases hdc

/-- A bio that is not in use gets a new key. -/
theorem Listed.rekey (h : Listed s) {b : Nat} {dev : UInt8} {base : UInt64} : Listed (rekey s b dev base) :=
  ⟨h.list, h.getting, h.held, h.asleep.setBio rfl⟩

theorem rekey_unlocked {b : Nat} {dev : UInt8} {base : UInt64} :
    ((rekey s b dev base).bios b).reffed = false ∧ ((rekey s b dev base).bios b).dirty = false := by
  rw [Bio.rekey, State.setBio_bios_self]
  exact ⟨rfl, rfl⟩

theorem Listed.bioGetRound (h : Listed s) {dev : UInt8} {sector : UInt64} {b : Nat} (hp : (s.procs p).state = .running)
    (hb : b < s.count) : Keeps s (bioGetRound s p dev sector b) := by
  unfold Bio.bioGetRound
  split_ifs with hlocked
  · exact h.sleepWaitBio hp fun _ _ _ he => (Pc.getBio.inj he).2.2 ▸ hb
  · exact h.takeBio hb (Bool.eq_false_iff.2 (not_or.1 hlocked).2)

/-- The state with a new bio from the slab. -/
def withNew (s : State) (addr : Nat) : State :=
  { s.setBio s.count { zeroBio with buffer := addr } with
    links := (s.links.setNext (.bio s.count) none).setPrev (.bio s.count) none
    count := s.count + 1 }

theorem Asleep.withNew (h : Asleep s) {addr : Nat} : Asleep (withNew s addr) := by
  refine h.of_le (fun x q hx => ?_) fun _ => rfl
  cases x with
  | inr p => exact hx
  | inl m =>
    cases m with
    | head => exact hx
    | bio c =>
      by_cases hc : c = s.count
      · have hnone : ((Bio.withNew s addr).bios c).sleep = none := by
          rw [hc]
          exact congrArg Bio.sleep (State.setBio_bios_self (s := s))
        exact absurd (hnone.symm.trans hx) (Option.some_ne_none q).symm
      · exact (congrArg Bio.sleep (State.setBio_bios_of_ne (s := s) hc)).symm.trans hx

/-- A new bio enters the cache list. -/
theorem Listed.fresh (h : Listed s) {dev : UInt8} {sector base : UInt64} {addr : Nat} :
    Keeps s (Bio.takeBio (Bio.rekey (withNew s addr) s.count dev base) p s.count sector, some s.count) := by
  have hasleep : Asleep (Bio.rekey (withNew s addr) s.count dev base) := h.asleep.withNew.setBio rfl
  refine ⟨⟨?_, fun q dev sector c hq => ?_, fun q c hc => ?_, hasleep.takeBio⟩, Nat.le_succ _, fun c hc hdc => ⟨?_, fun he => ?_⟩⟩
  · obtain ⟨list, hring, hlen, hmem⟩ := h.list
    have hnew : s.count ∉ list := fun hin => Nat.lt_irrefl _ ((hmem _).1 hin)
    have hnode : ∀ x ∈ Node.head :: list.map Node.bio, x ≠ .bio s.count := by
      rintro x hx rfl
      exact hnew (by simpa using hx)
    refine ⟨s.count :: list, ?_, by rw [List.length_cons, hlen]; rfl, fun c => ?_⟩
    · have hr : ((withNew s addr).links.unlink (.bio s.count)).IsRing .head (list.map .bio) := by
        refine hring.congr (fun x hx => ?_) (fun x hx => ?_)
        · simp [withNew, Links.unlink, Links.setNext, Links.setPrev, hnode x hx]
        · simp [withNew, Links.unlink, Links.setNext, Links.setPrev, hnode x hx]
      exact hr.insertFront fun hx => hnode _ hx rfl
    · show c ∈ s.count :: list ↔ c < s.count + 1
      rw [List.mem_cons, hmem]
      omega
  · rw [takeBio_procs] at hq
    split at hq
    · cases hq
    · exact Nat.lt_succ_of_lt (h.getting q dev sector c hq)
  · rw [takeBio_procs] at hc
    split at hc
    · rcases List.mem_cons.1 hc with rfl | hc
      · exact Nat.lt_succ_self _
      · exact Nat.lt_succ_of_lt (h.held p c hc)
    · exact Nat.lt_succ_of_lt (h.held q c hc)
  · have hne : c ≠ s.count := Nat.ne_of_lt hc
    simp [Bio.takeBio, Bio.rekey, withNew, State.setBio, State.setProc, hne]
  · exact Nat.ne_of_lt hc (Option.some.inj he).symm

theorem Listed.allocBioRound (h : Listed s) {dev : UInt8} {sector : UInt64} {mem : Option Nat}
    (hp : (s.procs p).state = .running) : Keeps s (allocBioRound s p dev sector mem) := by
  unfold Bio.allocBioRound
  split
  · rename_i b s₁ hslab
    obtain ⟨-, hslab⟩ := Option.ite_none_right_eq_some.1 hslab
    obtain ⟨addr, rfl, he⟩ := Option.map_eq_some_iff.1 hslab
    obtain ⟨rfl, rfl⟩ := Prod.mk.inj he
    show Keeps s (Bio.bioGetRound (Bio.rekey (withNew s addr) s.count dev (baseSector sector)) p dev sector s.count)
    unfold Bio.bioGetRound
    rw [if_neg (by rw [rekey_unlocked.1, rekey_unlocked.2]; decide)]
    exact h.fresh
  · split
    · rename_i b hunused
      obtain ⟨hb, hd⟩ := h.findUnusedBio hunused
      have hrekey : Listed (Bio.rekey s b dev (baseSector sector)) := h.rekey
      have hk : Keeps (Bio.rekey s b dev (baseSector sector))
          (Bio.bioGetRound (Bio.rekey s b dev (baseSector sector)) p dev sector b) := hrekey.bioGetRound hp hb
      refine ⟨hk.listed, hk.count, fun c hc hdc => ?_⟩
      have hcb : c ≠ b := fun he => by
        rw [he, hd] at hdc
        cases hdc
      have hsame : (Bio.rekey s b dev (baseSector sector)).bios c = s.bios c := Function.update_of_ne hcb _ _
      have hkept := hk.kept c hc (hsame ▸ hdc)
      rwa [hsame] at hkept
    · exact h.sleepWaitBio hp fun _ _ _ he => Pc.noConfusion he

theorem Listed.drop (h : Listed s) {b : Nat} :
    Keeps s ((s.setBio b { s.bios b with reffed := false }).setProc p
      { s.procs p with held := (s.procs p).held.erase b }, none) := by
  have hasleep : Asleep (s.setBio b { s.bios b with reffed := false }) := h.asleep.setBio rfl
  refine h.keeps rfl rfl (fun q dev sector c hq => ?_) (fun q c hc => ?_) (hasleep.setProc rfl rfl) fun c => ?_
  · by_cases hqp : q = p
    · rw [hqp, State.setProc_procs_self] at hq
      exact h.getting p dev sector c hq
    · rw [State.setProc_procs_of_ne _ _ _ hqp] at hq
      exact h.getting q dev sector c hq
  · by_cases hqp : q = p
    · rw [hqp, State.setProc_procs_self] at hc
      exact h.held p c (List.mem_of_mem_erase hc)
    · rw [State.setProc_procs_of_ne _ _ _ hqp] at hc
      exact h.held q c hc
  · by_cases hcb : c = b
    · rw [hcb]
      show markOf ((s.setBio b _).bios b) = _
      rw [State.setBio_bios_self]
      rfl
    · exact congrArg markOf (State.setBio_bios_of_ne (s := s) hcb)

theorem Listed.bioRelease (h : Listed s) {b : Nat} : Keeps s (bioRelease s p b, none) := by
  have hdrop := h.drop (p := p) (b := b)
  unfold Bio.bioRelease
  dsimp only
  split_ifs
  · exact hdrop
  · exact hdrop.trans hdrop.listed.wakeUpSleepProcess

theorem Listed.bioRead (h : Listed s) {b : Nat} (hp : (s.procs p).state = .running) : Keeps s (bioRead s p b, none) := by
  unfold Bio.bioRead
  split_ifs
  · exact .refl h
  · have hio : Listed { s with io := s.io ++ [b] } := ⟨h.list, h.getting, h.held, h.asleep.of_eq rfl fun _ => rfl⟩
    have hprocs : ∀ q, (sleepWaitBioComplete { s with io := s.io ++ [b] } b p).procs q =
        if q = p then ⟨.io, (s.bios b).sleep, .readBio b, (s.procs p).held⟩ else s.procs q := by
      intro q
      by_cases hq : q = p
      · subst hq
        simp [sleepWaitBioComplete, State.setProc]
      · simp [sleepWaitBioComplete, State.setProc, hq]
    refine h.keeps ?_ ?_ (fun q dev sector c hq => ?_) (fun q c hc => ?_) (hio.asleep.sleepWaitBioComplete hp) fun c => ?_
    · exact State.setSleep_links ..
    · exact State.setSleep_count ..
    · rw [hprocs] at hq
      split at hq
      · cases hq
      · exact h.getting q dev sector c hq
    · rw [hprocs] at hc
      split at hc
      · exact h.held p c hc
      · exact h.held q c hc
    · obtain ⟨o, ho⟩ := State.setSleep_bios (s.setProc p { s.procs p with sleep := (s.bios b).sleep }) (.bio b) (some p) c
      exact (congrArg markOf ho).trans markOf_sleep

theorem Listed.ideReadComplete (h : Listed s) {b : Nat} {error : Bool} (hs : ideReadComplete s b error = some s') :
    Keeps s (s', none) := by
  unfold Bio.ideReadComplete at hs
  split at hs
  · cases hs
  · rename_i p hp
    obtain rfl := Option.some.inj hs
    have hio : Keeps s ({ s with io := s.io.erase b }, none) :=
      h.keeps rfl rfl h.getting h.held (h.asleep.of_eq rfl fun _ => rfl) fun _ => rfl
    dsimp only
    split_ifs
    · exact hio.trans (hio.listed.popSleep (m := .bio b) hp)
    · have hupdated : Keeps s (State.setBio { s with io := s.io.erase b } b { s.bios b with updated := true }, none) := by
        refine h.keeps rfl rfl h.getting h.held (hio.listed.asleep.setBio rfl) fun c => ?_
        by_cases hcb : c = b
        · rw [hcb, State.setBio_bios_self]
          rfl
        · rw [State.setBio_bios_of_ne hcb]
      refine hupdated.trans (hupdated.listed.popSleep (m := .bio b) ?_)
      show ((State.setBio _ b _).bios b).sleep = some p
      rw [State.setBio_bios_self]
      exact hp

/-- Every step but a write and its completion keeps the dirty bios. -/
theorem Listed.step (h : Listed s) {e : Event} {out : State × Option Nat} (hs : Step s e out) : Keeps s out := by
  cases hs with
  | @get p dev sector mem _ hrun _ =>
    unfold bioGet
    cases hb : Bio.findBio s dev (baseSector sector) with
    | some b => exact h.bioGetRound hrun (h.findBio hb)
    | none => exact h.allocBioRound hrun
  | resumeAlloc _ hrun _ => exact h.allocBioRound hrun
  | resumeGet _ hrun hpc => exact h.bioGetRound hrun (h.getting _ _ _ _ hpc)
  | @resumeRead p b _ _ _ _ =>
    refine h.keeps rfl rfl (fun q dev sector c hq => ?_) (fun q c hc => ?_) (h.asleep.setProc rfl rfl) fun _ => rfl
    · by_cases hqp : q = p
      · rw [hqp, State.setProc_procs_self] at hq
        cases hq
      · rw [State.setProc_procs_of_ne _ _ _ hqp] at hq
        exact h.getting q dev sector c hq
    · by_cases hqp : q = p
      · rw [hqp, State.setProc_procs_self] at hc
        exact h.held p c hc
      · rw [State.setProc_procs_of_ne _ _ _ hqp] at hc
        exact h.held q c hc
  | read _ hrun _ _ => exact h.bioRead hrun
  | release => exact h.bioRelease
  | complete _ hc => exact h.ideReadComplete hc

end

/-! ### Completions -/

/-- The three flags of a bio. -/
def flagsOf (x : Bio) : Bool × Bool × Bool := (x.updated, x.dirty, x.reffed)

/-- The process that a completion may wake. -/
def waiter (s : State) (b : Nat) : Option Nat :=
  match (s.bios b).sleep with
  | some q => some q
  | none => s.headSleep

/-- A completion of a write of `b`, and of no other bio. -/
structure Completes (s s' : State) (b : Nat) (error : Bool) : Prop where
  dirty : (s'.bios b).dirty = false
  updated : error = false → (s'.bios b).updated = true
  reffed : (s'.bios b).reffed = (s.bios b).reffed
  others : ∀ c, c ≠ b → flagsOf (s'.bios c) = flagsOf (s.bios c)
  /-- A bio that is in use wakes nobody. -/
  held : (s.bios b).reffed = true → s'.procs = s.procs
  wakes : (s.bios b).reffed = false → ∀ q, waiter s b = some q →
    (s.procs q).state = .io ∧ (s'.procs q).state = .running ∧ ∀ q', q' ≠ q → s'.procs q' = s.procs q'
  nobody : (s.bios b).reffed = false → waiter s b = none → s'.procs = s.procs

section
variable {s s' : State} {b : Nat} {io : DmaIo} {error : Bool}

theorem flagsOf_wakeUpSleepProcess (c : Nat) : flagsOf ((wakeUpSleepProcess s b).bios c) = flagsOf (s.bios c) := by
  have hpop : ∀ m p, flagsOf ((popSleep s m p).bios c) = flagsOf (s.bios c) := by
    intro m p
    obtain ⟨o, ho⟩ := s.setSleep_bios m (s.procs p).sleep c
    show flagsOf ((s.setSleep m (s.procs p).sleep).bios c) = _
    rw [ho]
    rfl
  unfold wakeUpSleepProcess
  cases (s.bios b).sleep with
  | some p => exact hpop ..
  | none =>
    cases s.headSleep with
    | some p => exact hpop ..
    | none => rfl

theorem wakeUpSleepProcess_eq : wakeUpSleepProcess s b = match waiter s b with
    | some q => popSleep s (if (s.bios b).sleep = none then .head else .bio b) q
    | none => s := by
  unfold wakeUpSleepProcess waiter
  cases (s.bios b).sleep with
  | some p => rfl
  | none => cases s.headSleep <;> rfl

/-- The bios after the assignments of `ide_write_complete`. -/
def cleared (s : State) (b : Nat) (error : Bool) : State :=
  s.setBio b { s.bios b with updated := (s.bios b).updated || !error, dirty := false }

theorem ideWriteComplete_eq (hb : io.data < s.count) : ideWriteComplete s io error = some
    (if (s.bios io.data).reffed then cleared s io.data error else wakeUpSleepProcess (cleared s io.data error) io.data) := by
  have hstate : ((if error then s else s.setBio io.data { s.bios io.data with updated := true }).setBio io.data
      { (if error then s else s.setBio io.data { s.bios io.data with updated := true }).bios io.data with
        dirty := false }) = cleared s io.data error := by
    cases error
    · show (s.setBio io.data { s.bios io.data with updated := true }).setBio io.data
        { (s.setBio io.data { s.bios io.data with updated := true }).bios io.data with dirty := false } = _
      rw [State.setBio_setBio, State.setBio_bios_self, cleared, Bool.not_false, Bool.or_true]
    · rw [cleared, Bool.not_true, Bool.or_false]
      rfl
  have hreffed : ((cleared s io.data error).bios io.data).reffed = (s.bios io.data).reffed := by
    rw [cleared, State.setBio_bios_self]
  unfold ideWriteComplete
  dsimp only
  rw [if_pos hb, hstate, hreffed]

theorem Listed.cleared (h : Listed s) : Listed (cleared s b error) := ⟨h.list, h.getting, h.held, h.asleep.setBio rfl⟩

theorem Completes.of_listed (h : Listed s) (hb : io.data < s.count) (hs : ideWriteComplete s io error = some s') :
    Completes s s' io.data error := by
  have hself : (cleared s io.data error).bios io.data = _ := State.setBio_bios_self
  have hother : ∀ c, c ≠ io.data → (cleared s io.data error).bios c = s.bios c := fun c hc => State.setBio_bios_of_ne hc
  rw [ideWriteComplete_eq hb] at hs
  obtain rfl := Option.some.inj hs
  cases hr : (s.bios io.data).reffed with
  | true =>
    rw [if_pos rfl]
    refine ⟨by rw [hself], fun he => by rw [hself, he]; exact Bool.or_true _, by rw [hself], fun c hc => by rw [hother c hc],
      fun _ => rfl, fun h => ?_, fun h => ?_⟩ <;> cases hr.symm.trans h
  | false =>
    rw [if_neg (by decide)]
    have hwaiter : waiter (cleared s io.data error) io.data = waiter s io.data := by
      unfold waiter
      rw [hself]
      rfl
    have hflags : ∀ c, flagsOf ((wakeUpSleepProcess (cleared s io.data error) io.data).bios c) =
        flagsOf ((cleared s io.data error).bios c) := fun c => flagsOf_wakeUpSleepProcess c
    have hdata := hflags io.data
    rw [hself] at hdata
    obtain ⟨hupdated, hrest⟩ := Prod.mk.inj hdata
    obtain ⟨hdirty, hreffed⟩ := Prod.mk.inj hrest
    refine ⟨hdirty, fun he => ?_, hreffed, fun c hc => by rw [hflags, hother c hc], fun h => ?_, fun _ q hq => ?_, fun _ hq => ?_⟩
    · rw [hupdated, he]
      exact Bool.or_true _
    · cases hr.symm.trans h
    · rw [wakeUpSleepProcess_eq, hwaiter, hq]
      dsimp only
      refine ⟨?_, by rw [popSleep_procs, if_pos rfl], fun q' hq' => by rw [popSleep_procs, if_neg hq']; rfl⟩
      unfold waiter at hq
      cases hsleep : (s.bios io.data).sleep with
      | some p =>
        rw [hsleep] at hq
        exact h.asleep.io (.inl (.bio io.data)) q (hsleep.trans hq)
      | none =>
        rw [hsleep] at hq
        exact h.asleep.io (.inl .head) q hq
    · rw [wakeUpSleepProcess_eq, hwaiter, hq]
      rfl

theorem Listed.written (h : Listed s) (hb : io.data < s.count) (hs : ideWriteComplete s io error = some s') :
    Listed s' ∧ s.count ≤ s'.count ∧
      ∀ c < s.count, c ≠ io.data → (s.bios c).dirty = true → markOf (s'.bios c) = markOf (s.bios c) := by
  have hother : ∀ c, c ≠ io.data → (Bio.cleared s io.data error).bios c = s.bios c :=
    fun c hc => State.setBio_bios_of_ne hc
  have hlisted : Listed (Bio.cleared s io.data error) := h.cleared
  have hkeeps : Keeps (Bio.cleared s io.data error) (s', none) := by
    rw [ideWriteComplete_eq hb] at hs
    obtain rfl := Option.some.inj hs
    split_ifs
    · exact .refl hlisted
    · exact hlisted.wakeUpSleepProcess
  refine ⟨hkeeps.listed, hkeeps.count, fun c hc hne hd => ?_⟩
  have hmark := (hkeeps.kept c hc (by rw [hother c hne]; exact hd)).1
  rwa [hother c hne] at hmark

end

/-! ### Runs -/

/-- The writes in flight are of different bios, which are dirty, and each of them carries its bio. -/
structure WInv (w : WState) : Prop where
  listed : Listed w.state
  pending : ∀ x ∈ w.pending, x.bio < w.state.count ∧ (w.state.bios x.bio).dirty = true ∧ x.io.data = x.bio
  once : (w.pending.map Pending.bio).Nodup

/-- A write finds the address of its bio on the stack, and no write of the bio is in flight. -/
def Carries (w : WState) : WEvent → Prop
  | .write _ b stack => stack = b ∧ ∀ x ∈ w.pending, x.bio ≠ b
  | _ => True

/-- What a step may do to the writes in flight. -/
structure WritesSafely (w : WState) (e : WEvent) (out : WState × Option Nat) : Prop where
  completes : ∀ x error, e = .written x error → Completes w.state out.1.state x.bio error
  /-- A bio that is being written is not recycled and not handed out. -/
  kept : ∀ x ∈ out.1.pending, (out.1.state.bios x.bio).dirty = true ∧
    ((out.1.state.bios x.bio).dev, (out.1.state.bios x.bio).sector) =
      ((w.state.bios x.bio).dev, (w.state.bios x.bio).sector) ∧ out.2 ≠ some x.bio
  /-- The completion of any write in flight finds a bio. -/
  ready : ∀ x ∈ out.1.pending, ∀ error, ∃ s', ideWriteComplete out.1.state x.io error = some s'

section
variable {w : WState} {e : WEvent} {out : WState × Option Nat} {n : Nat}

theorem Listed.init : Listed (bioInitialize n) where
  list := ⟨[], Links.IsRing.init_self, rfl, fun _ => by simp [bioInitialize]⟩
  getting := fun _ _ _ _ h => by cases h
  held := fun _ _ h => by cases h
  asleep := by
    have hnone : ∀ x, (bioInitialize n).sleeper x = none := by
      rintro ((_ | _) | _) <;> rfl
    exact ⟨fun x q h => (Option.some_ne_none q (h.symm.trans (hnone x))).elim,
      fun x y q h => (Option.some_ne_none q (h.symm.trans (hnone x))).elim⟩

/-- The writes that stay in flight stay in order. -/
theorem WInv.writesSafely (h : WInv out.1) (hcompletes : ∀ x error, e = .written x error →
    Completes w.state out.1.state x.bio error) (hkept : ∀ x ∈ out.1.pending,
      ((out.1.state.bios x.bio).dev, (out.1.state.bios x.bio).sector) =
        ((w.state.bios x.bio).dev, (w.state.bios x.bio).sector) ∧ out.2 ≠ some x.bio) : WritesSafely w e out := by
  refine ⟨hcompletes, fun x hx => ⟨(h.pending x hx).2.1, hkept x hx⟩, fun x hx error => ?_⟩
  obtain ⟨hlt, -, hdata⟩ := h.pending x hx
  exact ⟨_, ideWriteComplete_eq (hdata ▸ hlt)⟩

theorem WInv.bio (h : WInv w) {e : Event} {out : State × Option Nat} (hs : Step w.state e out) :
    WInv { w with state := out.1 } ∧ WritesSafely w (.bio e) ({ w with state := out.1 }, out.2) := by
  have hk := h.listed.step hs
  have hinv : WInv { w with state := out.1 } := by
    refine ⟨hk.listed, fun x hx => ?_, h.once⟩
    obtain ⟨hlt, hd, hdata⟩ := h.pending x hx
    exact ⟨hlt.trans_le hk.count, (congrArg Prod.fst (hk.kept _ hlt hd).1).trans hd, hdata⟩
  refine ⟨hinv, hinv.writesSafely (fun _ _ he => by cases he) fun x hx => ?_⟩
  obtain ⟨hlt, hd, -⟩ := h.pending x hx
  obtain ⟨hmark, hret⟩ := hk.kept _ hlt hd
  exact ⟨congrArg Prod.snd hmark, hret⟩

theorem WInv.write (h : WInv w) {b : Nat} (hb : b < w.state.count) (hnew : ∀ x ∈ w.pending, x.bio ≠ b) {p : Nat} :
    WInv (bioWrite w b b) ∧ WritesSafely w (.write p b b) (bioWrite w b b, none) := by
  have hself : (bioWrite w b b).state.bios b = _ := State.setBio_bios_self
  have hother : ∀ c, c ≠ b → (bioWrite w b b).state.bios c = w.state.bios c := fun c hc => State.setBio_bios_of_ne hc
  have hinv : WInv (bioWrite w b b) := by
    refine ⟨⟨h.listed.list, h.listed.getting, h.listed.held, h.listed.asleep.setBio rfl⟩, fun x hx => ?_, ?_⟩
    · rcases List.mem_append.1 hx with hx | hx
      · obtain ⟨hlt, hd, hdata⟩ := h.pending x hx
        exact ⟨hlt, by rw [hother _ (hnew x hx)]; exact hd, hdata⟩
      · rw [List.mem_singleton.1 hx]
        exact ⟨hb, by rw [hself], rfl⟩
    · have hnot : b ∉ w.pending.map Pending.bio := by
        intro hmem
        obtain ⟨x, hx, he⟩ := List.mem_map.1 hmem
        exact hnew x hx he
      show ((w.pending ++ [(⟨b, writeIo w.state b b⟩ : Pending)]).map Pending.bio).Nodup
      rw [List.map_append]
      exact List.nodup_append.2 ⟨h.once, List.nodup_singleton b, fun c hc d hd => by
        rw [List.mem_singleton.1 hd]
        exact fun he : c = b => hnot (he ▸ hc)⟩
  refine ⟨hinv, hinv.writesSafely (fun _ _ he => by cases he) fun x hx => ⟨?_, (Option.some_ne_none _).symm⟩⟩
  by_cases hx : x.bio = b
  · rw [hx, hself]
  · rw [hother _ hx]

theorem WInv.written (h : WInv w) {x : Pending} {error : Bool} {s' : State} (hx : x ∈ w.pending)
    (hs : ideWriteComplete w.state x.io error = some s') :
    WInv ⟨s', w.pending.erase x⟩ ∧ WritesSafely w (.written x error) (⟨s', w.pending.erase x⟩, none) := by
  obtain ⟨hlt, hd, hdata⟩ := h.pending x hx
  have hdone := Completes.of_listed h.listed (hdata ▸ hlt) hs
  obtain ⟨hlisted, hcount, hmarks⟩ := h.listed.written (hdata ▸ hlt) hs
  rw [hdata] at hdone hmarks
  -- the other writes in flight are of other bios
  have hother : ∀ y ∈ w.pending.erase x, y ∈ w.pending ∧ y.bio ≠ x.bio := by
    intro y hy
    have hperm := (List.perm_cons_erase hx).map Pending.bio
    have hnd := (hperm.nodup_iff.1 h.once)
    rw [List.map_cons, List.nodup_cons] at hnd
    exact ⟨List.mem_of_mem_erase hy, fun he => hnd.1 (he ▸ List.mem_map_of_mem hy)⟩
  have hmark : ∀ y ∈ w.pending.erase x, markOf (s'.bios y.bio) = markOf (w.state.bios y.bio) := by
    intro y hy
    obtain ⟨hmem, hne⟩ := hother y hy
    obtain ⟨hylt, hyd, -⟩ := h.pending y hmem
    exact hmarks _ hylt hne hyd
  have hinv : WInv ⟨s', w.pending.erase x⟩ := by
    refine ⟨hlisted, fun y hy => ?_, h.once.sublist (List.erase_sublist.map _)⟩
    obtain ⟨hylt, hyd, hydata⟩ := h.pending y (hother y hy).1
    exact ⟨hylt.trans_le hcount, (congrArg Prod.fst (hmark y hy)).trans hyd, hydata⟩
  refine ⟨hinv, hinv.writesSafely (fun y error' he => ?_) fun y hy => ⟨congrArg Prod.snd (hmark y hy), (Option.some_ne_none _).symm⟩⟩
  obtain ⟨rfl, rfl⟩ := WEvent.written.inj he
  exact hdone

theorem WInv.step (h : WInv w) (he : Carries w e) (hs : WStep w e out) : WInv out.1 ∧ WritesSafely w e out := by
  cases hs with
  | bio hs => exact h.bio hs
  | @write p b stack _ _ _ hb =>
    obtain ⟨rfl, hnew⟩ := he
    exact h.write (h.listed.held p _ hb) hnew
  | written hx hs => exact h.written hx hs

theorem WRun.inv (hr : WRun Carries n w) : WInv w := by
  induction hr with
  | init => exact ⟨.init, fun x hx => absurd hx List.not_mem_nil, List.nodup_nil⟩
  | step _ he hs ih => exact (ih.step he hs).1

/-- In the runs in which the writes carry their bios, a completion is that of the bio that was written. -/
theorem writes_complete (hr : WRun Carries n w) (he : Carries w e) (hs : WStep w e out) : WritesSafely w e out :=
  (hr.inv.step he hs).2

end

/-- One process has the bio 0 and the bio 1. -/
def twoBios : State := (bioGet (bioGet (bioInitialize 1) 0 0 0 (some 1)).1 0 0 8 (some 2)).1

theorem run_twoBios {P : WState → WEvent → Prop} (hP : ∀ w e, P w (.bio e)) : WRun P 1 ⟨twoBios, []⟩ := by
  have hfirst : Step (bioInitialize 1) (.get 0 0 0 (some 1)) _ := .get (by decide) rfl rfl
  have hsecond : Step (bioGet (bioInitialize 1) 0 0 0 (some 1)).1 (.get 0 0 8 (some 2)) _ :=
    .get (by decide) (by decide) (by decide)
  exact .step (.step .init (hP _ _) (.bio hfirst)) (hP _ _) (.bio hsecond)

/-- A write of the bio 0. -/
theorem writes_complete_two : ∃ w x out, WRun Carries 1 w ∧ x.bio = 0 ∧ WritesSafely w (.written x false) out := by
  have hrun : WRun Carries 1 (bioWrite ⟨twoBios, []⟩ 0 0) :=
    .step (run_twoBios fun _ _ => trivial) ⟨rfl, fun x hx => absurd hx List.not_mem_nil⟩
      (.write (p := 0) (by decide) (by decide) (by decide) (by decide))
  have hs : WStep (bioWrite ⟨twoBios, []⟩ 0 0) (.written ⟨0, writeIo twoBios 0 0⟩ false) _ :=
    .written (List.mem_singleton.2 rfl) rfl
  exact ⟨_, _, _, hrun, rfl, writes_complete hrun trivial hs⟩

/-- A write of the bio 0 that finds the address of the bio 1 on the stack. -/
theorem write_completes_other : ∃ w x out, WRun (fun _ _ => True) 1 w ∧ WStep w (.written x false) out ∧
    ¬ WritesSafely w (.written x false) out := by
  have hrun : WRun (fun _ _ => True) 1 (bioWrite ⟨twoBios, []⟩ 0 1) :=
    .step (run_twoBios fun _ _ => trivial) trivial (.write (p := 0) (by decide) (by decide) (by decide) (by decide))
  refine ⟨_, ⟨0, writeIo twoBios 0 1⟩, _, hrun, .written (List.mem_singleton.2 rfl) rfl, fun h => ?_⟩
  have hdirty := (h.completes _ _ rfl).dirty
  revert hdirty
  decide

end Airix.Bio
