import Airix.Axfs.Read
import Airix.Proc.Image
import Airix.Vfs.Shared

/-!
# Open files across `fork`

An exact copy of a process has the descriptors of the process, and every file one reference more for each.
The copy that `proc_clone` makes has no descriptor at all.
-/

namespace Airix.Vfs
open Prog Axfs

/-! ### Calls of two processes -/

inductive FileCall
  | read (fd : Int) (size : Nat)
  | close (fd : Int)

/-- A call of a process, with what came back. -/
structure Event where
  proc : Nat
  call : FileCall
  reply : Int × List UInt8

section
variable (m : Axfs.Machine)

inductive FileStep (w : World) (p : Nat) : FileCall → Int × List UInt8 → World → Prop
  | read {fd : Int} {size : Nat} {r : Int × List UInt8} {w' : World} :
    SysRead m w p fd size r w' → FileStep w p (.read fd size) r w'
  | close {fd r : Int} {w' : World} : SysClose m w p fd r w' → FileStep w p (.close fd) (r, []) w'

inductive Trace : World → List Event → World → Prop
  | nil {w : World} : Trace w [] w
  | cons {w w₁ w₂ : World} {e : Event} {es : List Event} : FileStep m w e.proc e.call e.reply w₁ → Trace w₁ es w₂ →
    Trace w (e :: es) w₂

end

/-- The descriptors of `p` have a reference to `o`. -/
def World.Holds (w : World) (p o : Nat) : Prop := ∃ i, w.table p i = some o

instance {w : World} {p o : Nat} : Decidable (w.Holds p o) :=
  inferInstanceAs (Decidable (∃ i, w.table p i = some o))

/-- The state `w'` after `fork`, but with the descriptors that `parent` had in `w` copied to `child`. -/
def World.duplicate (w' w : World) (parent child : Nat) : World :=
  { w' with table := Function.update w'.table child (w.table parent)
            file := fun o => if w.Holds parent o then (w'.file o).map fun f => { f with fRefs := f.fRefs + 1 } else w'.file o }

section
variable (m : Axfs.Machine)

/-- The two processes get the same from `w₁` and `w₂`, whatever they read and close. -/
def SameCalls (w₁ w₂ : World) (parent child : Nat) : Prop :=
  ∀ es : List Event, (∀ e ∈ es, e.proc = parent ∨ e.proc = child) → ((∃ w, Trace m w₁ es w) ↔ ∃ w, Trace m w₂ es w)

/-- `fork` in `w` has duplicated the open files: the tables agree, each file has a reference more, later calls cannot
tell the child from an exact copy, and a file stays as long as one of the two has a descriptor for it. -/
structure Duplicated (w w' : World) (parent child : Nat) : Prop where
  table : ∀ i, w'.table child i = w.table parent i
  refs : ∀ i o f, w.table parent i = some o → w.file o = some f → w'.file o = some { f with fRefs := f.fRefs + 1 }
  calls : SameCalls m w' (w'.duplicate w parent child) parent child
  released : ∀ es w'', (∀ e ∈ es, e.proc = parent ∨ e.proc = child) → Trace m w' es w'' →
    ∀ p, p = parent ∨ p = child → ∀ i o, w''.table p i = some o → w''.file o ≠ none

end

section
variable {m : Axfs.Machine} {w w' w'' : World} {p parent child : Nat} {es : List Event} {fails : List Bool}

theorem desc_slot (w : World) (p : Nat) (i : Fin procMaxFileNum) : w.desc p (i : Nat) = w.table p i := by
  unfold World.desc
  rw [dif_pos ⟨by omega, by exact_mod_cast i.isLt⟩]
  rfl

theorem desc_of_empty (h : ∀ i, w.table p i = none) (fd : Int) : w.desc p fd = none := by
  unfold World.desc
  split_ifs
  · exact h _
  · rfl

/-- Without descriptors a call changes nothing. -/
theorem FileStep.of_empty {c : FileCall} {r : Int × List UInt8} (h : FileStep m w p c r w')
    (hp : ∀ i, w.table p i = none) : w' = w := by
  have hnone := desc_of_empty hp
  cases h with
  | read h =>
    cases h with
    | bad _ => rfl
    | read hd => cases (hnone _).symm.trans hd
  | close h =>
    cases h with
    | bad _ => rfl
    | kept hd => cases (hnone _).symm.trans hd
    | last hd => cases (hnone _).symm.trans hd

theorem Trace.of_empty (h : Trace m w es w') (hes : ∀ e ∈ es, ∀ i, w.table e.proc i = none) : w' = w := by
  induction h with
  | nil => rfl
  | @cons w w₁ w₂ e es hstep _ ih =>
    obtain rfl := hstep.of_empty (hes e List.mem_cons_self)
    exact ih fun e he => hes e (List.mem_cons_of_mem _ he)

theorem fork_table (hfork : sysFork fails w parent = .ok (child, w')) (h0 : child ≠ 0) :
    (∀ i, w'.table child i = none) ∧ (∀ p, p ≠ child → w'.table p = w.table p) ∧ w'.file = w.file := by
  obtain ⟨m, -, rfl⟩ := sysFork_ok hfork
  refine ⟨fun i => ?_, fun p hp => ?_, rfl⟩
  · dsimp only
    rw [if_neg h0, Function.update_self]
  · dsimp only
    rw [if_neg h0, Function.update_of_ne hp]

/-- Without descriptors to copy, the child is an exact copy. -/
theorem duplicate_of_empty (hfork : sysFork fails w parent = .ok (child, w')) (h0 : child ≠ 0)
    (hempty : ∀ i, w.table parent i = none) : w'.duplicate w parent child = w' := by
  obtain ⟨hchild, -, -⟩ := fork_table hfork h0
  have htable : Function.update w'.table child (w.table parent) = w'.table := by
    rw [show w.table parent = w'.table child from funext fun i => (hempty i).trans (hchild i).symm,
      Function.update_eq_self]
  have hno : ∀ o, ¬ w.Holds parent o := by
    rintro o ⟨i, hi⟩
    cases (hempty i).symm.trans hi
  unfold World.duplicate
  rw [htable]
  simp only [hno, if_false]

/-- The child can tell by closing a descriptor that its parent had. -/
theorem not_sameCalls (hfork : sysFork fails w parent = .ok (child, w')) (h0 : child ≠ 0)
    (hfiles : ∀ i o, w.table parent i = some o → ∃ f, w.file o = some f ∧ 0 < f.fRefs) {i : Fin procMaxFileNum} {o : Nat}
    (hi : w.table parent i = some o) : ¬ SameCalls m w' (w'.duplicate w parent child) parent child := by
  intro hsame
  obtain ⟨hchild, -, hfile⟩ := fork_table hfork h0
  obtain ⟨f, hf, hpos⟩ := hfiles i o hi
  have hdesc : (w'.duplicate w parent child).desc child (i : Nat) = some o := by
    rw [desc_slot]
    exact (congrFun (Function.update_self ..) i).trans hi
  have hdup : (w'.duplicate w parent child).file o = some { f with fRefs := f.fRefs + 1 } := by
    show (if w.Holds parent o then _ else _) = _
    rw [if_pos ⟨i, hi⟩, hfile, hf]
    rfl
  have hclose := (hsame [⟨child, .close (i : Nat), (0, [])⟩] (by simp)).mpr
    ⟨_, .cons (.close (.kept hdesc hdup (by dsimp only; omega))) .nil⟩
  obtain ⟨w'', htrace⟩ := hclose
  have hnone := desc_of_empty hchild (i : Nat)
  cases htrace with
  | cons hstep _ =>
    cases hstep with
    | close h =>
      cases h with
      | kept hd => cases hnone.symm.trans hd
      | last hd => cases hnone.symm.trans hd

/-- `fork` duplicates the open files exactly when there are none; and exactly then the two processes get from their
calls what an exact copy would. -/
theorem sys_fork_files_iff (hfork : sysFork fails w parent = .ok (child, w')) (h0 : child ≠ 0)
    (hfiles : ∀ i o, w.table parent i = some o → ∃ f, w.file o = some f ∧ 0 < f.fRefs) :
    (Duplicated m w w' parent child ↔ ∀ i, w.table parent i = none) ∧
      (SameCalls m w' (w'.duplicate w parent child) parent child ↔ ∀ i, w.table parent i = none) := by
  obtain ⟨hchild, hothers, -⟩ := fork_table hfork h0
  have hcalls : SameCalls m w' (w'.duplicate w parent child) parent child ↔ ∀ i, w.table parent i = none := by
    refine ⟨fun h i => ?_, fun h => ?_⟩
    · by_contra hne
      obtain ⟨o, ho⟩ := Option.ne_none_iff_exists'.mp hne
      exact not_sameCalls hfork h0 hfiles ho h
    · rw [duplicate_of_empty hfork h0 h]
      exact fun _ _ => Iff.rfl
  refine ⟨⟨fun h => hcalls.mp h.calls, fun h => ⟨fun i => (hchild i).trans (h i).symm, fun i o f hi => ?_, hcalls.mpr h,
    fun es w'' hes htrace p hp i o hi => ?_⟩⟩, hcalls⟩
  · cases (h i).symm.trans hi
  · have hempty : ∀ p, p = parent ∨ p = child → ∀ i, w'.table p i = none := fun p hp i => by
      by_cases e : p = child
      · rw [e, hchild]
      · rw [hothers p e, hp.resolve_right e, h]
    obtain rfl := htrace.of_empty fun e he => hempty e.proc (hes e he)
    cases (hempty p hp i).symm.trans hi

end

/-! ### A process with one open file -/

def firstSlot : Fin procMaxFileNum := ⟨0, Nat.zero_lt_succ 15⟩

/-- A process, with its first descriptor. -/
def forkWorld (procs : Proc.State) (parent : Nat) (first : Option Nat) : World where
  procs := procs
  table p i := if p = parent ∧ i = firstSlot then first else none
  file o := if o = 1 then some smallFile else none
  kern := Kern.start

/-- A process of the small machine that has only its directory, and the copy of it. -/
def smallFork : Except Proc.Panic (Proc.State × Nat × Nat) := do
  let (parent, m) ← Proc.smallRun do
    let proc ← Proc.procAlloc
    let _ ← Proc.initPageDir proc
    return proc
  let (child, _) ← (Proc.procClone parent).run ⟨m.state, [], []⟩
  return (m.state, parent, child)

theorem smallFork_ok (first : Option Nat) : ∃ procs parent child w',
    sysFork [] (forkWorld procs parent first) parent = .ok (child, w') ∧ child ≠ 0 := by
  have h : (smallFork.toOption.map fun r => decide (r.2.2 ≠ 0)) = some true := by decide +kernel
  cases hr : smallFork with
  | error e =>
    rw [hr] at h
    cases h
  | ok r =>
    rw [hr] at h
    obtain ⟨⟨parent, m⟩, -, hr⟩ := Exec.except_ok.mp hr
    obtain ⟨⟨child, m'⟩, hclone, hr⟩ := Exec.except_ok.mp hr
    cases hr
    exact ⟨m.state, parent, child, _, sysFork_eq hclone, of_decide_eq_true (Option.some.inj h)⟩

theorem sys_fork_files_iff_none : ∃ w parent child w', sysFork [] w parent = .ok (child, w') ∧
    Duplicated (smallMachine fun _ => True) w w' parent child := by
  obtain ⟨procs, parent, child, w', hfork, h0⟩ := smallFork_ok none
  have hnone : ∀ i, (forkWorld procs parent none).table parent i = none := fun i => by
    show (if _ then none else none) = none
    exact ite_self none
  refine ⟨_, parent, child, w', hfork, (sys_fork_files_iff hfork h0 fun i o hi => ?_).1.mpr hnone⟩
  cases (hnone i).symm.trans hi

/-- With the file open, the child is no exact copy. -/
theorem not_duplicated : ∃ w parent child w', sysFork [] w parent = .ok (child, w') ∧ child ≠ 0 ∧
    w.table parent firstSlot = some 1 ∧ w.file 1 = some smallFile ∧
    ¬ Duplicated (smallMachine fun _ => True) w w' parent child := by
  obtain ⟨procs, parent, child, w', hfork, h0⟩ := smallFork_ok (some 1)
  have hfirst : (forkWorld procs parent (some 1)).table parent firstSlot = some 1 := if_pos ⟨rfl, rfl⟩
  refine ⟨_, parent, child, w', hfork, h0, hfirst, rfl, fun h => not_sameCalls hfork h0 (fun i o hi => ?_) hfirst h.calls⟩
  have hi : (if parent = parent ∧ i = firstSlot then some 1 else none) = some o := hi
  split_ifs at hi
  · cases hi
    exact ⟨smallFile, rfl, by decide⟩

end Airix.Vfs
