import Mathlib.Tactic.Common

/-!
# Programs that make calls

A `Prog` is a piece of sequential code over an interface: it returns, stops with an error, or makes a call
and goes on with the answer. A `Layer` is what answers the calls: which answers a call may get in a state, and
whether it may bring the whole system down instead. `Reach` runs a program on a layer, call by call; `Sat` is
the rule by which one proves what holds of all its runs.
-/

inductive Prog (C : Type) (R : C → Type) (E α : Type)
  | ret (a : α)
  | stop (e : E)
  | call (c : C) (k : R c → Prog C R E α)

namespace Prog
variable {C : Type} {R : C → Type} {E α β γ σ : Type}

protected def bind : Prog C R E α → (α → Prog C R E β) → Prog C R E β
  | ret a, f => f a
  | stop e, _ => stop e
  | call c k, f => call c fun r => (k r).bind f

instance : Monad (Prog C R E) where
  pure := ret
  bind := Prog.bind

/-- The program that only makes the call `c`. -/
def perform (c : C) : Prog C R E (R c) := call c ret

theorem bind_assoc' (p : Prog C R E α) (f : α → Prog C R E β) (g : β → Prog C R E γ) :
    (p.bind f).bind g = p.bind fun a => (f a).bind g := by
  induction p with
  | ret a => rfl
  | stop e => rfl
  | call c k ih => exact congrArg (call c) (funext ih)

theorem bind_ret' (p : Prog C R E α) : p.bind ret = p := by
  induction p with
  | ret a => rfl
  | stop e => rfl
  | call c k ih => exact congrArg (call c) (funext ih)

instance : LawfulMonad (Prog C R E) := LawfulMonad.mk' (Prog C R E) bind_ret' (fun _ _ => rfl) bind_assoc'

/-! ### Runs -/

/-- What answers the calls. -/
structure Layer (C : Type) (R : C → Type) (σ : Type) where
  /-- The call may not come back. -/
  mayPanic : C → σ → Prop
  /-- The call may be answered so, with this change of the state. -/
  answers : (c : C) → σ → R c → σ → Prop

/-- The program comes to another point of its code, in another state. -/
inductive Reach (L : Layer C R σ) : Prog C R E α → σ → Prog C R E α → σ → Prop
  | refl {p : Prog C R E α} {s : σ} : Reach L p s p s
  | call {c : C} {k : R c → Prog C R E α} {r : R c} {s s' s'' : σ} {p' : Prog C R E α} :
    L.answers c s r s' → Reach L (k r) s' p' s'' → Reach L (call c k) s p' s''

/-- The program stands at its end with an error, or at a call that may not come back. -/
def Panics (L : Layer C R σ) (s : σ) : Prog C R E α → Prop
  | ret _ => False
  | stop _ => True
  | call c _ => L.mayPanic c s

theorem Reach.trans {L : Layer C R σ} {p q r : Prog C R E α} {s t u : σ} (h : Reach L p s q t) (h' : Reach L q t r u) :
    Reach L p s r u := by
  induction h with
  | refl => exact h'
  | call ha _ ih => exact .call ha (ih h')

theorem Reach.bind {L : Layer C R σ} {p p' : Prog C R E α} {s t : σ} (h : Reach L p s p' t)
    (f : α → Prog C R E β) : Reach L (p.bind f) s (p'.bind f) t := by
  induction h with
  | refl => exact .refl
  | call ha _ ih => exact .call ha ih

/-! ### The rule -/

/-- On every run of the program `pre` holds where it makes a call, `ok` where it stops, `Q` where it returns. -/
def Sat (L : Layer C R σ) (pre : C → σ → Prop) (ok : E → σ → Prop) (Q : α → σ → Prop) : Prog C R E α → σ → Prop
  | ret a, s => Q a s
  | stop e, s => ok e s
  | call c k, s => pre c s ∧ ∀ r s', L.answers c s r s' → Sat L pre ok Q (k r) s'

section
variable {L : Layer C R σ} {pre : C → σ → Prop} {ok : E → σ → Prop} {Q Q' : α → σ → Prop} {P : β → σ → Prop}
  {p p' : Prog C R E α} {s s' : σ}

theorem Sat.reach (h : Sat L pre ok Q p s) (hr : Reach L p s p' s') : Sat L pre ok Q p' s' := by
  induction hr with
  | refl => exact h
  | call ha _ ih => exact ih (h.2 _ _ ha)

theorem Sat.of_ret {a : α} (h : Sat L pre ok Q p s) (hr : Reach L p s (ret a) s') : Q a s' := h.reach hr

theorem Sat.of_call {c : C} {k : R c → Prog C R E α} (h : Sat L pre ok Q p s) (hr : Reach L p s (call c k) s') :
    pre c s' := (h.reach hr).1

theorem Sat.of_stop {e : E} (h : Sat L pre ok Q p s) (hr : Reach L p s (stop e) s') : ok e s' := h.reach hr

/-- No run panics. -/
theorem Sat.not_panics (h : Sat L (fun c s => ¬ L.mayPanic c s) (fun _ _ => False) Q p s) (hr : Reach L p s p' s') :
    ¬ Panics L s' p' := by
  cases p' with
  | ret a => exact id
  | stop e => exact fun _ => h.of_stop hr
  | call c k => exact h.of_call hr

theorem Sat.mono (h : Sat L pre ok Q p s) (hQ : ∀ a s, Q a s → Q' a s) : Sat L pre ok Q' p s := by
  induction p generalizing s with
  | ret a => exact hQ a s h
  | stop e => exact h
  | call c k ih => exact ⟨h.1, fun r s' ha => ih r (h.2 r s' ha)⟩

theorem Sat.weaken {pre' : C → σ → Prop} {ok' : E → σ → Prop} (h : Sat L pre ok Q p s) (hpre : ∀ c s, pre c s → pre' c s)
    (hok : ∀ e s, ok e s → ok' e s) : Sat L pre' ok' Q p s := by
  induction p generalizing s with
  | ret a => exact h
  | stop e => exact hok e s h
  | call c k ih => exact ⟨hpre c s h.1, fun r s' ha => ih r (h.2 r s' ha)⟩

theorem Sat.bind {q : Prog C R E β} {f : β → Prog C R E α} (h : Sat L pre ok P q s)
    (hf : ∀ b s, P b s → Sat L pre ok Q (f b) s) : Sat L pre ok Q (q >>= f) s := by
  induction q generalizing s with
  | ret b => exact hf b s h
  | stop e => exact h
  | call c k ih => exact ⟨h.1, fun r s' ha => ih r (h.2 r s' ha)⟩

theorem Sat.pure {a : α} (h : Q a s) : Sat L pre ok Q (Pure.pure a : Prog C R E α) s := h

theorem Sat.perform {c : C} {Q : R c → σ → Prop} (hpre : pre c s) (h : ∀ r s', L.answers c s r s' → Q r s') :
    Sat L pre ok Q (Prog.perform c : Prog C R E (R c)) s := ⟨hpre, h⟩

/-- A program that is answered wherever it makes a call comes to an end. -/
theorem Sat.exists_reach (h : Sat L pre (fun _ _ => False) Q p s)
    (htotal : ∀ c s, pre c s → ∃ r s', L.answers c s r s') : ∃ a s', Reach L p s (ret a) s' ∧ Q a s' := by
  induction p generalizing s with
  | ret a => exact ⟨a, s, .refl, h⟩
  | stop e => exact h.elim
  | call c k ih =>
    obtain ⟨r, s₁, ha⟩ := htotal c s h.1
    obtain ⟨a, s₂, hr, hQ⟩ := ih r (h.2 r s₁ ha)
    exact ⟨a, s₂, .call ha hr, hQ⟩

end

/-! ### Runs with given answers -/

/-- The run in which `answer` chooses the answers. -/
def exec (answer : (c : C) → σ → Option (R c × σ)) : Prog C R E α → σ → Option (α × σ)
  | ret a, s => some (a, s)
  | stop _, _ => none
  | call c k, s => match answer c s with
    | some (r, s') => exec answer (k r) s'
    | none => none

theorem exec_reach {L : Layer C R σ} {answer : (c : C) → σ → Option (R c × σ)}
    (hL : ∀ c s r s', answer c s = some (r, s') → L.answers c s r s') {p : Prog C R E α} {s s' : σ} {a : α}
    (h : exec answer p s = some (a, s')) : Reach L p s (ret a) s' := by
  induction p generalizing s with
  | ret b =>
    obtain ⟨rfl, rfl⟩ := Prod.mk.inj (Option.some.inj h)
    exact .refl
  | stop e => cases h
  | call c k ih =>
    rw [exec] at h
    split at h
    · rename_i r s₁ hr
      exact .call (hL _ _ _ _ hr) (ih r h)
    · cases h

end Prog
