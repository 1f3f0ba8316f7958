import Mathlib.Data.List.Basic
import Mathlib.Data.List.Infix
import Mathlib.Data.List.Nodup

/-!
# Taking turns on a list

The list is gone through from the one whose turn it is, and from its front again after its end. New ones come to the
front. The next turn goes to the first one that is ready; some of those that are passed are taken out. Whoever stays
ready gets a turn, after fewer than twice as many turns as there are in the list.
-/

namespace RoundRobin
variable {α : Type*} {ready : α → Prop} {l l' pre post a b : List α} {c c' o : α} {n : Nat}

/-- The turn goes from `c` in `l` to `c'` in `l'`. -/
inductive Turn (ready : α → Prop) : List α → α → List α → α → Prop
  /-- To one behind `c`. -/
  | ahead {new pre a a' b : List α} {c c' : α} : (new ++ (pre ++ c :: (a ++ c' :: b))).Nodup → new.length ≤ 1 →
    (∀ x ∈ a, ¬ ready x) → ready c' → a'.Sublist a →
    Turn ready (pre ++ c :: (a ++ c' :: b)) c (new ++ (pre ++ c :: (a' ++ c' :: b))) c'
  /-- To one from the front on, or to `c` again. -/
  | around {new pre post a a' b post' : List α} {c c' : α} : (new ++ (pre ++ c :: post)).Nodup → new.length ≤ 1 →
    (∀ x ∈ post, ¬ ready x) → new ++ (pre ++ [c]) = a ++ c' :: b → (∀ x ∈ a, ¬ ready x) → ready c' → a'.Sublist a →
    post'.Sublist post → Turn ready (pre ++ c :: post) c (a' ++ c' :: (b ++ post')) c'

/-- A bound for the turns of others before it is the turn of `o`. -/
inductive Within : Nat → List α → α → α → Prop
  | ahead {n : Nat} {pre a b : List α} {c o : α} : a.length ≤ n → Within n (pre ++ c :: (a ++ o :: b)) c o
  /-- Each turn up to the end of the list may bring a new one to the front. -/
  | around {n : Nat} {pre post a b : List α} {c o : α} : pre ++ [c] = a ++ o :: b → 2 * post.length + 1 + a.length ≤ n →
    Within n (pre ++ c :: post) c o

theorem within_of_mem (hc : c ∈ l) (ho : o ∈ l) : Within (2 * l.length - 1) l c o := by
  obtain ⟨pre, post, rfl⟩ := List.append_of_mem hc
  simp only [List.mem_append, List.mem_cons] at ho
  by_cases hpost : o ∈ post
  · obtain ⟨a, b, rfl⟩ := List.append_of_mem hpost
    refine .ahead ?_
    simp only [List.length_append, List.length_cons]
    omega
  · obtain ⟨a, b, he⟩ := List.append_of_mem (show o ∈ pre ++ [c] by simp; tauto)
    refine .around he ?_
    have hlen := congrArg List.length he
    simp only [List.length_append, List.length_cons, List.length_nil] at hlen ⊢
    omega

theorem exists_first (h : ∃ x ∈ l, ready x) : ∃ a c b, l = a ++ c :: b ∧ (∀ x ∈ a, ¬ ready x) ∧ ready c := by
  induction l with
  | nil => simp at h
  | cons c l ih =>
    by_cases hc : ready c
    · exact ⟨[], c, l, rfl, by simp, hc⟩
    · obtain ⟨x, hx, hr⟩ := h
      have hne : x ≠ c := by
        rintro rfl
        exact hc hr
      have hxl : x ∈ l := List.mem_of_ne_of_mem hne hx
      obtain ⟨a, c', b, rfl, ha, hc'⟩ := ih ⟨x, hxl, hr⟩
      exact ⟨c :: a, c', b, rfl, List.forall_mem_cons.mpr ⟨hc, ha⟩, hc'⟩

theorem split_unique {x y : List α} (hl : (pre ++ c :: post).Nodup) (he : pre ++ c :: post = x ++ c :: y) :
    pre = x ∧ post = y := by
  have hnot := (List.nodup_middle.mp hl).notMem
  rw [List.mem_append, not_or] at hnot
  obtain ⟨h₁, -, h₂⟩ := (List.append_cons_inj_of_notMem hnot.1 hnot.2).mp he
  exact ⟨h₁, h₂⟩

/-- The first one that is ready comes before all others that are. -/
theorem first_or {x y : List α} (hl : (a ++ c' :: b).Nodup) (he : a ++ c' :: b = x ++ o :: y) (ha : ∀ i ∈ a, ¬ ready i)
    (ho : ready o) : c' = o ∨ ∃ b', b = b' ++ o :: y ∧ x = a ++ c' :: b' := by
  have hm : o ∈ a ++ c' :: b := he ▸ by simp
  rw [List.mem_append, List.mem_cons] at hm
  rcases hm with hm | rfl | hm
  · exact absurd ho (ha o hm)
  · exact .inl rfl
  · obtain ⟨b', b'', rfl⟩ := List.append_of_mem hm
    have he' : (a ++ c' :: b') ++ o :: b'' = x ++ o :: y := by simpa using he
    obtain ⟨rfl, rfl⟩ := split_unique (by simpa using hl) he'
    exact .inr ⟨b', rfl, rfl⟩

/-- Who is ready gets the turn, or comes closer to it. -/
theorem Turn.within (ht : Turn ready l c l' c') (hw : Within n l c o) (ho : ready o) :
    c' = o ∨ ∃ n' < n, Within n' l' c' o := by
  cases ht with
  | @ahead new pre a a' b _ _ hnd hnew hpassed _ hsub =>
    have hnd' := (List.nodup_append.mp hnd).2.1
    generalize hl : pre ++ c :: (a ++ c' :: b) = l at hw hnd'
    cases hw with
    | @ahead pre₂ a₂ b₂ _ _ hle =>
      rw [← hl] at hnd'
      obtain ⟨rfl, he⟩ := split_unique hnd' hl
      obtain rfl | ⟨b', rfl, rfl⟩ := first_or (List.nodup_cons.mp (List.nodup_append.mp hnd').2.1).2 he hpassed ho
      · exact .inl rfl
      refine .inr ⟨b'.length, ?_, ?_⟩
      · simp only [List.length_append, List.length_cons] at hle
        omega
      · have h : Within b'.length ((new ++ (pre ++ c :: a')) ++ c' :: (b' ++ o :: b₂)) c' o := .ahead le_rfl
        simpa using h
    | @around pre₂ post₂ a₂ b₂ _ _ he hle =>
      rw [← hl] at hnd'
      obtain ⟨rfl, rfl⟩ := split_unique hnd' hl
      have hfront : (new ++ (pre ++ c :: a')) ++ [c'] = (new ++ a₂) ++ o :: (b₂ ++ (a' ++ [c'])) := by
        rw [show (new ++ (pre ++ c :: a')) ++ [c'] = new ++ (pre ++ [c]) ++ (a' ++ [c']) by simp, he]
        simp
      have h : Within (2 * b.length + 1 + (new ++ a₂).length) ((new ++ (pre ++ c :: a')) ++ c' :: b) c' o :=
        .around hfront le_rfl
      refine .inr ⟨_, ?_, by simpa using h⟩
      simp only [List.length_append, List.length_cons] at hle ⊢
      omega
  | @around new pre post a a' b post' _ _ hnd hnew hpost hfront hpassed _ hsub hsub' =>
    have hnd' := (List.nodup_append.mp hnd).2.1
    generalize hl : pre ++ c :: post = l at hw hnd'
    cases hw with
    | @ahead pre₂ a₂ b₂ _ _ hle =>
      rw [← hl] at hnd'
      obtain ⟨-, rfl⟩ := split_unique hnd' hl
      exact absurd ho (hpost o (by simp))
    | @around pre₂ post₂ a₂ b₂ _ _ he hle =>
      rw [← hl] at hnd'
      obtain ⟨rfl, rfl⟩ := split_unique hnd' hl
      have hnd'' : (a ++ c' :: b).Nodup := by
        rw [← hfront]
        refine hnd.sublist ?_
        rw [show new ++ (pre ++ c :: post) = new ++ (pre ++ [c]) ++ post by simp]
        exact List.sublist_append_left _ _
      rw [he, ← List.append_assoc] at hfront
      obtain rfl | ⟨b', rfl, hx⟩ := first_or hnd'' hfront.symm hpassed ho
      · exact .inl rfl
      have hlen := congrArg List.length hx
      simp only [List.length_append, List.length_cons] at hlen
      refine .inr ⟨b'.length, by omega, ?_⟩
      have h : Within b'.length (a' ++ c' :: (b' ++ o :: (b₂ ++ post'))) c' o := .ahead le_rfl
      simpa using h

/-- Who is ready in every turn gets one of the next `n + 1`. -/
theorem fair {ready : Nat → α → Prop} {l : Nat → List α} {c : Nat → α}
    (hturn : ∀ k ≤ n, Turn (ready k) (l k) (c k) (l (k + 1)) (c (k + 1))) (hw : Within n (l 0) (c 0) o)
    (ho : ∀ k ≤ n, ready k o) : ∃ k ≤ n, c (k + 1) = o := by
  induction n using Nat.strong_induction_on generalizing ready l c with
  | _ n ih =>
    obtain h | ⟨n', hlt, hw'⟩ := (hturn 0 (Nat.zero_le _)).within hw (ho 0 (Nat.zero_le _))
    · exact ⟨0, Nat.zero_le _, h⟩
    obtain ⟨k, hk, h⟩ := @ih n' hlt (fun k => ready (k + 1)) (fun k => l (k + 1)) (fun k => c (k + 1))
      (fun k hk => hturn (k + 1) (by omega)) hw' fun k hk => ho (k + 1) (by omega)
    exact ⟨k + 1, by omega, h⟩

end RoundRobin
