import Airix.Lib.Ring
import Mathlib.Data.Set.Insert

/-!
# Families of rings

Several circular lists in one heap of nodes: `head k` is the sentinel of the list `k`, and `K` are the lists
that exist. No two of them share a node.
-/

namespace Links

structure Rings {κ ν : Type*} (s : Links ν) (head : κ → ν) (K : Set κ) (lists : κ → List ν) : Prop where
  ring : ∀ k ∈ K, s.IsRing (head k) (lists k)
  disjoint : ∀ k ∈ K, ∀ j ∈ K, k ≠ j → (head k :: lists k).Disjoint (head j :: lists j)

namespace Rings
variable {κ ν : Type*} [DecidableEq κ] [DecidableEq ν] {s : Links ν} {head : κ → ν} {K : Set κ}
  {lists : κ → List ν} {k : κ} {n : ν}

theorem unlink (h : s.Rings head K lists) (hk : k ∈ K) (hn : n ∈ lists k) :
    (s.unlink n).Rings head K (Function.update lists k ((lists k).erase n)) := by
  have hsub : ∀ j x, x ∈ head j :: Function.update lists k ((lists k).erase n) j → x ∈ head j :: lists j := by
    intro j x hx
    by_cases e : j = k
    · subst e
      rcases List.mem_cons.mp hx with hx | hx
      · exact hx ▸ List.mem_cons_self
      · exact List.mem_cons_of_mem _ (List.mem_of_mem_erase (by simpa using hx))
    · simpa [e] using hx
  refine ⟨fun j hj => ?_, fun i hi j hj hij x hx hx' => h.disjoint i hi j hj hij (hsub i x hx) (hsub j x hx')⟩
  by_cases e : j = k
  · subst e; rw [Function.update_self]; exact (h.ring j hj).unlink hn
  · rw [Function.update_of_ne e]
    exact (h.ring k hk).unlink_other (h.ring j hj) hn (h.disjoint k hk j hj (Ne.symm e))

theorem insertFront (h : s.Rings head K lists) (hk : k ∈ K) (hn : ∀ j ∈ K, n ∉ head j :: lists j) :
    (s.insertFront (head k) n).Rings head K (Function.update lists k (n :: lists k)) := by
  have hsub : ∀ j x, x ∈ head j :: Function.update lists k (n :: lists k) j →
      x ∈ head j :: lists j ∨ (j = k ∧ x = n) := by
    intro j x hx
    by_cases e : j = k
    · subst e
      simp only [Function.update_self, List.mem_cons] at hx ⊢
      tauto
    · exact .inl (by simpa [e] using hx)
  refine ⟨fun j hj => ?_, fun i hi j hj hij x hx hx' => ?_⟩
  · by_cases e : j = k
    · subst e; rw [Function.update_self]; exact (h.ring j hj).insertFront (hn j hj)
    · rw [Function.update_of_ne e]
      exact (h.ring k hk).insertFront_other (h.ring j hj) (hn k hk) (hn j hj) (h.disjoint k hk j hj (Ne.symm e))
  · rcases hsub i x hx with hx | ⟨rfl, rfl⟩ <;> rcases hsub j x hx' with hx' | ⟨e, e'⟩
    · exact h.disjoint i hi j hj hij hx hx'
    · exact hn i hi (e' ▸ hx)
    · exact hn j hj hx'
    · exact hij e.symm

theorem flip (h : s.Rings head K lists) : s.flip.Rings head K fun k => (lists k).reverse := by
  refine ⟨fun k hk => (h.ring k hk).flip, fun k hk j hj hkj x hx hx' => ?_⟩
  exact h.disjoint k hk j hj hkj (by simpa using hx) (by simpa using hx')

theorem insertBack (h : s.Rings head K lists) (hk : k ∈ K) (hn : ∀ j ∈ K, n ∉ head j :: lists j) :
    (s.insertBack (head k) n).Rings head K (Function.update lists k (lists k ++ [n])) := by
  have hback := (h.flip.insertFront hk (n := n) fun j hj => by simpa using hn j hj).flip
  have hlists : (fun j => (Function.update (fun k => (lists k).reverse) k (n :: (lists k).reverse) j).reverse) =
      Function.update lists k (lists k ++ [n]) := by
    funext j
    by_cases e : j = k
    · subst e; simp
    · simp [Function.update_of_ne e]
  rwa [hlists] at hback

/-- An empty list with a new sentinel. -/
theorem init (h : s.Rings head K lists) (hinj : ∀ j ∈ K, head j ≠ head k) (hn : ∀ j ∈ K, head k ∉ lists j) :
    (s.init (head k)).Rings head (insert k K) (Function.update lists k []) := by
  have hkK : k ∉ K := fun hk => hinj k hk rfl
  have hnode : ∀ j ∈ K, head k ∉ head j :: lists j := by
    intro j hj hm
    rcases List.mem_cons.mp hm with e | hm
    · exact hinj j hj e.symm
    · exact hn j hj hm
  have hold : ∀ j ∈ K, Function.update lists k [] j = lists j := by
    intro j hj
    exact Function.update_of_ne (by rintro rfl; exact hkK hj) _ _
  refine ⟨?_, ?_⟩
  · rintro j (rfl | hj)
    · rw [Function.update_self]; exact IsRing.init_self
    · rw [hold j hj]
      refine (h.ring j hj).congr (fun a ha => ?_) (fun a ha => ?_)
      · have : a ≠ head k := fun e => hnode j hj (e ▸ ha)
        simp [Links.init, setNext, setPrev, this]
      · have : a ≠ head k := fun e => hnode j hj (e ▸ ha)
        simp [Links.init, setNext, setPrev, this]
  · rintro i (rfl | hi) j (rfl | hj) hij x hx hx'
    · exact hij rfl
    · rw [hold j hj] at hx'
      rw [Function.update_self, List.mem_singleton] at hx
      exact hnode j hj (hx ▸ hx')
    · rw [hold i hi] at hx
      rw [Function.update_self, List.mem_singleton] at hx'
      exact hnode i hi (hx' ▸ hx)
    · rw [hold i hi] at hx
      rw [hold j hj] at hx'
      exact h.disjoint i hi j hj hij hx hx'

end Rings
end Links
