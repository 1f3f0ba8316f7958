import Mathlib.Data.List.Nodup
import Mathlib.Logic.Function.Basic

/-!
# Singly linked lists

`Linked next o l`: following `next` from the pointer `o` visits the nodes of `l` and ends in the null
pointer. The lemmas are those of a queue whose nodes carry the link: add at either end, remove the
first.
-/

/-- The list that starts at the pointer `o`. -/
def Linked {ν : Type*} (next : ν → Option ν) : Option ν → List ν → Prop
  | o, [] => o = none
  | o, a :: l => o = some a ∧ Linked next (next a) l

/-- Follow `next` from `a` to the last node. -/
def lastFrom {ν : Type*} (next : ν → Option ν) : (fuel : Nat) → ν → ν
  | 0, a => a
  | fuel + 1, a => match next a with
    | some b => lastFrom next fuel b
    | none => a

namespace Linked
variable {ν : Type*} {next next' : ν → Option ν} {o : Option ν} {a : ν} {l l' : List ν}

@[simp] theorem nil_iff : Linked next o [] ↔ o = none := Iff.rfl

@[simp] theorem cons_iff : Linked next o (a :: l) ↔ o = some a ∧ Linked next (next a) l := Iff.rfl

theorem congr (h : Linked next o l) (hn : ∀ a ∈ l, next' a = next a) : Linked next' o l := by
  induction l generalizing o with
  | nil => exact h
  | cons a l ih =>
    refine ⟨h.1, ?_⟩
    rw [hn a List.mem_cons_self]
    exact ih h.2 fun b hb => hn b (List.mem_cons_of_mem _ hb)

theorem eq_nil (h : Linked next none l) : l = [] := by
  cases l with
  | nil => rfl
  | cons a l => exact absurd h.1 (by simp)

theorem exists_cons (h : Linked next (some a) l) : ∃ l', l = a :: l' ∧ Linked next (next a) l' := by
  cases l with
  | nil => exact absurd h (by simp)
  | cons b l =>
    obtain ⟨e, h⟩ := h
    obtain rfl := Option.some.inj e
    exact ⟨l, rfl, h⟩

theorem lastFrom_eq (h : Linked next (next a) l) {fuel : Nat} (hf : l.length ≤ fuel) :
    lastFrom next fuel a = (a :: l).getLast (by simp) := by
  induction l generalizing a fuel with
  | nil =>
    rw [nil_iff] at h
    cases fuel with
    | zero => rfl
    | succ fuel => simp [lastFrom, h]
  | cons b l ih =>
    cases fuel with
    | zero => simp at hf
    | succ fuel =>
      rw [lastFrom, h.1]
      dsimp only
      rw [ih h.2 (by simpa using hf)]
      exact (List.getLast_cons (by simp)).symm

/-- Appending the node `b` with a null link: the last node gets to point to it. -/
theorem concat [DecidableEq ν] {b : ν} (h : Linked next o (a :: l)) (hnd : (a :: l).Nodup) (hb : b ∉ a :: l)
    (hnull : next b = none) :
    Linked (Function.update next ((a :: l).getLast (by simp)) (some b)) o (a :: l ++ [b]) := by
  induction l generalizing o a with
  | nil =>
    have hba : b ≠ a := by simpa using hb
    refine ⟨h.1, ?_⟩
    simp [Function.update_of_ne hba, hnull]
  | cons c l ih =>
    have hac : a ≠ (c :: l).getLast (by simp) := by
      intro e
      exact (List.nodup_cons.mp hnd).1 (e ▸ List.getLast_mem _)
    refine ⟨h.1, ?_⟩
    rw [List.getLast_cons (by simp), Function.update_of_ne hac]
    exact ih h.2 (List.nodup_cons.mp hnd).2 (fun hm => hb (List.mem_cons_of_mem _ hm))

end Linked
