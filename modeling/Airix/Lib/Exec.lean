import Mathlib.Tactic.Common

/-!
# Computations with a state and errors

What a computation in `StateT σ (Except ε)` that returned went through.
-/

namespace Exec
variable {σ ε α β : Type} {s s' : σ} {a b : α}

theorem except_ok {x : Except ε β} {f : β → Except ε α} : x >>= f = .ok a ↔ ∃ b, x = .ok b ∧ f b = .ok a := by
  cases x with
  | error e => simp [bind, Except.bind]
  | ok b => simp [bind, Except.bind]

theorem bind_ok {x : StateT σ (Except ε) β} {f : β → StateT σ (Except ε) α} :
    (x >>= f).run s = .ok (a, s') ↔ ∃ b t, x.run s = .ok (b, t) ∧ (f b).run t = .ok (a, s') := by
  rw [StateT.run_bind]
  cases h : x.run s with
  | error e => simp [bind, Except.bind]
  | ok r => obtain ⟨c, t⟩ := r; simp [bind, Except.bind]

theorem bind_run {x : StateT σ (Except ε) β} {f : β → StateT σ (Except ε) α} {b : β} (h : x.run s = .ok (b, s')) :
    (x >>= f).run s = (f b).run s' := by
  rw [StateT.run_bind, h]
  rfl

theorem map_ok {x : StateT σ (Except ε) β} {f : β → α} :
    (f <$> x).run s = .ok (a, s') ↔ ∃ b, x.run s = .ok (b, s') ∧ f b = a := by
  rw [StateT.run_map]
  cases h : x.run s with
  | error e => simp [Functor.map, Except.map]
  | ok r => obtain ⟨c, t⟩ := r; simp [Functor.map, Except.map]; tauto

theorem pure_ok : (pure a : StateT σ (Except ε) α).run s = .ok (b, s') ↔ a = b ∧ s = s' := by
  rw [StateT.run_pure]
  simp [pure, Except.pure]

theorem get_ok {t : σ} : (get : StateT σ (Except ε) σ).run s = .ok (t, s') ↔ t = s ∧ s' = s := by
  simp only [StateT.run_get, pure, Except.pure, Except.ok.injEq, Prod.mk.injEq]
  tauto

theorem set_ok {t : σ} {u : PUnit} : (set t : StateT σ (Except ε) PUnit).run s = .ok (u, s') ↔ s' = t := by
  simp only [StateT.run_set, pure, Except.pure, Except.ok.injEq, Prod.mk.injEq, true_and]
  tauto

theorem modify_ok {f : σ → σ} {u : PUnit} :
    (modify f : StateT σ (Except ε) PUnit).run s = .ok (u, s') ↔ s' = f s := by
  simp only [StateT.run_modify, pure, Except.pure, Except.ok.injEq, Prod.mk.injEq, true_and]
  tauto

theorem throw_ok {e : ε} : ¬ (throw e : StateT σ (Except ε) α).run s = .ok (a, s') := by
  simp [throw, throwThe, MonadExceptOf.throw, StateT.lift, StateT.run, bind, Except.bind]

/-- What every round of a loop keeps, the loop keeps. -/
theorem forM_ok {l : List β} {f : β → StateT σ (Except ε) PUnit} {P : List β → σ → Prop} {u : PUnit}
    (h : (l.forM f).run s = .ok (u, s')) (h0 : P l s)
    (hstep : ∀ b l' t u t', P (b :: l') t → (f b).run t = .ok (u, t') → P l' t') : P [] s' := by
  induction l generalizing s with
  | nil =>
    rw [List.forM_eq_forM, List.forM_nil, pure_ok] at h
    exact h.2 ▸ h0
  | cons b l ih =>
    rw [List.forM_eq_forM, List.forM_cons, bind_ok] at h
    obtain ⟨_, t, h₁, h₂⟩ := h
    exact ih h₂ (hstep b l s _ t h0 h₁)

/-! ### What holds after a computation

`After t R d x Q`: when `x` starts in a state that represents `d` and returns, it does so in a state that
represents some `d'`, with a result `a` for which `Q a d'`; and if `t` holds, it does return. -/

section After
variable {t t' : Prop} {δ : Type} {R : σ → δ → Prop} {d d' : δ} {Q Q' : α → δ → Prop}

def After (t : Prop) (R : σ → δ → Prop) (d : δ) (x : StateT σ (Except ε) α) (Q : α → δ → Prop) : Prop :=
  ∀ s, R s d → (∀ a s', x.run s = .ok (a, s') → ∃ d', R s' d' ∧ Q a d') ∧ (t → ∃ r, x.run s = .ok r)

/-- A computation that returns on every state. -/
theorem After.of_run {x : StateT σ (Except ε) α}
    (h : ∀ s, R s d → ∃ a s' d', x.run s = .ok (a, s') ∧ R s' d' ∧ Q a d') : After t R d x Q := by
  intro s hs
  obtain ⟨a, s', d', hr, hd, hQ⟩ := h s hs
  refine ⟨fun b s'' hb => ?_, fun _ => ⟨_, hr⟩⟩
  rw [hr] at hb
  cases hb
  exact ⟨d', hd, hQ⟩

theorem After.bind {x : StateT σ (Except ε) β} {f : β → StateT σ (Except ε) α} {P : β → δ → Prop}
    (hx : After t R d x P) (hf : ∀ b d', P b d' → After t R d' (f b) Q) : After t R d (x >>= f) Q := by
  intro s hs
  refine ⟨fun a s' h => ?_, fun ht => ?_⟩
  · obtain ⟨b, u, h₁, h₂⟩ := bind_ok.1 h
    obtain ⟨d', hu, hP⟩ := (hx s hs).1 b u h₁
    exact (hf b d' hP u hu).1 a s' h₂
  · obtain ⟨⟨b, u⟩, h₁⟩ := (hx s hs).2 ht
    obtain ⟨d', hu, hP⟩ := (hx s hs).1 b u h₁
    obtain ⟨⟨a, s'⟩, h₂⟩ := (hf b d' hP u hu).2 ht
    exact ⟨(a, s'), bind_ok.2 ⟨b, u, h₁, h₂⟩⟩

/-- The same for two computations of which the specification is known together. -/
theorem After.bind₂ {γ : Type} {x : StateT σ (Except ε) γ} {y : StateT σ (Except ε) β} {f : β → StateT σ (Except ε) α}
    {P : β → δ → Prop} (hx : After t R d (x >>= fun _ => y) P) (hf : ∀ b d', P b d' → After t R d' (f b) Q) :
    After t R d (x >>= fun _ => y >>= f) Q := by
  have h := hx.bind hf
  rwa [bind_assoc] at h

theorem After.pure (h : Q a d) : After t R d (Pure.pure a : StateT σ (Except ε) α) Q :=
  After.of_run fun s hs => ⟨a, s, d, rfl, hs, h⟩

theorem After.throw {e : ε} (ht : ¬ t) : After t R d (MonadExcept.throw e : StateT σ (Except ε) α) Q :=
  fun _ _ => ⟨fun _ _ h => absurd h throw_ok, fun h => absurd h ht⟩

theorem After.of_imp {x : StateT σ (Except ε) α} (hx : After t R d x Q) (h : t' → t) : After t' R d x Q :=
  fun s hs => ⟨(hx s hs).1, fun h' => (hx s hs).2 (h h')⟩

theorem After.mono {x : StateT σ (Except ε) α} (hx : After t R d x Q) (h : ∀ a d', Q a d' → Q' a d') :
    After t R d x Q' := by
  refine fun s hs => ⟨fun a s' hr => ?_, (hx s hs).2⟩
  obtain ⟨d', hd, hQ⟩ := (hx s hs).1 a s' hr
  exact ⟨d', hd, h a d' hQ⟩

/-- What represents `d` also represents `d'`. -/
theorem After.of_rep {x : StateT σ (Except ε) α} (hx : After t R d' x Q) (h : ∀ s, R s d → R s d') : After t R d x Q :=
  fun s hs => hx s (h s hs)

theorem After.forM {l : List β} {f : β → StateT σ (Except ε) PUnit} {P : List β → δ → Prop} (h0 : P l d)
    (hstep : ∀ b l' d, P (b :: l') d → After t R d (f b) (fun _ d' => P l' d')) :
    After t R d (l.forM f) (fun _ d' => P [] d') := by
  induction l generalizing d with
  | nil =>
    rw [List.forM_eq_forM, List.forM_nil]
    exact After.pure h0
  | cons b l ih =>
    rw [List.forM_eq_forM, List.forM_cons]
    exact (hstep b l d h0).bind fun _ _ h => ih h

theorem After.get : After t R d (MonadState.get : StateT σ (Except ε) σ) (fun s d' => d' = d ∧ R s d) :=
  After.of_run fun s hs => ⟨s, s, d, rfl, hs, rfl, hs⟩

theorem After.of_modify {f : σ → σ} (h : ∀ s, R s d → R (f s) d') :
    After t R d (modify f : StateT σ (Except ε) PUnit) (fun _ e => e = d') :=
  After.of_run fun s hs => ⟨⟨⟩, f s, d', rfl, h s hs, rfl⟩

/-- A computation that only may fail. -/
theorem After.lift {x : Except ε α} (h : ∀ a, x = .ok a → Q a d) (ht : t → ∃ a, x = .ok a) :
    After t R d (liftM x : StateT σ (Except ε) α) Q := by
  cases x with
  | error e =>
    refine fun s _ => ⟨fun a s' hr => ?_, fun h => absurd (ht h) (by simp)⟩
    cases hr
  | ok b => exact After.of_run fun s hs => ⟨b, s, d, rfl, hs, h b rfl⟩

end After

end Exec
