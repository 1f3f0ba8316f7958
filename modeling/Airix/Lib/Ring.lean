import Mathlib.Data.List.Chain
import Mathlib.Data.List.Nodup
import Mathlib.Logic.Function.Basic

/-!
# Circular doubly linked lists

`Links ν` is the pair of link fields of a heap of nodes `ν`; `none` is the null pointer.
`s.IsRing h l` says that following `next` from the sentinel `h` visits exactly the nodes of `l`, in
that order, and returns to `h`, with `prev` the inverse. The operations are the usual pointer
programs; each one has a lemma that says which list the ring holds afterwards and one that says
which rings it leaves alone.
-/

/-- The link fields of a heap of list nodes. -/
structure Links (ν : Type*) where
  next : ν → Option ν
  prev : ν → Option ν

namespace Links
variable {ν : Type*} {s s' : Links ν} {h n : ν} {l : List ν}

/-- `b` follows `a`: both link fields agree on it. -/
def Adj (s : Links ν) (a b : ν) : Prop := s.next a = some b ∧ s.prev b = some a

/-- The ring with sentinel `h` holds the nodes `l`. -/
structure IsRing (s : Links ν) (h : ν) (l : List ν) : Prop where
  nodup : (h :: l).Nodup
  chain : List.IsChain s.Adj (h :: (l ++ [h]))

/-- A chain reads `next` of all its nodes but the last and `prev` of all but the first. -/
theorem chain_congr {L : List ν} (hn : ∀ a ∈ L.dropLast, s'.next a = s.next a)
    (hp : ∀ b ∈ L.tail, s'.prev b = s.prev b) (hc : L.IsChain s.Adj) : L.IsChain s'.Adj := by
  induction L with
  | nil => exact .nil
  | cons a L ih =>
    cases L with
    | nil => exact .singleton a
    | cons b L =>
      rw [List.isChain_cons_cons] at hc ⊢
      refine ⟨⟨?_, ?_⟩, ih (fun x hx => hn x ?_) (fun x hx => hp x ?_) hc.2⟩
      · rw [hn a (by simp)]; exact hc.1.1
      · rw [hp b (by simp)]; exact hc.1.2
      · rw [List.dropLast_cons_of_ne_nil (by simp)]; exact List.mem_cons_of_mem _ hx
      · exact List.mem_of_mem_tail hx

namespace IsRing

theorem sentinel_notMem (hr : s.IsRing h l) : h ∉ l := (List.nodup_cons.mp hr.nodup).1

theorem nodup_list (hr : s.IsRing h l) : l.Nodup := (List.nodup_cons.mp hr.nodup).2

/-- A ring only depends on the links of its own nodes. -/
theorem congr (hr : s.IsRing h l) (hn : ∀ a ∈ h :: l, s'.next a = s.next a)
    (hp : ∀ a ∈ h :: l, s'.prev a = s.prev a) : s'.IsRing h l := by
  refine ⟨hr.nodup, chain_congr (fun a ha => hn a ?_) (fun b hb => hp b ?_) hr.chain⟩
  · rw [← List.cons_append, List.dropLast_concat] at ha; exact ha
  · simpa [or_comm] using hb

theorem next_nil (hr : s.IsRing h []) : s.next h = some h :=
  ((List.isChain_cons_cons.mp hr.chain).1).1

theorem next_cons {x : ν} (hr : s.IsRing h (x :: l)) : s.next h = some x :=
  ((List.isChain_cons_cons.mp hr.chain).1).1

theorem next_eq (hr : s.IsRing h l) : s.next h = some (l.headD h) := by
  cases l with
  | nil => exact hr.next_nil
  | cons x l => exact hr.next_cons

/-- The pointer test for an empty list, `h->next == h`. -/
theorem next_eq_self_iff (hr : s.IsRing h l) : s.next h = some h ↔ l = [] := by
  rw [hr.next_eq]
  cases l with
  | nil => simp
  | cons x l =>
    have hx : x ≠ h := fun e => hr.sentinel_notMem (e ▸ List.mem_cons_self)
    simpa using hx

theorem chain_unique : ∀ {l l' : List ν} {a : ν}, h ∉ l → h ∉ l' → (a :: (l ++ [h])).IsChain s.Adj →
    (a :: (l' ++ [h])).IsChain s.Adj → l = l'
  | [], [], _, _, _, _, _ => rfl
  | [], y :: l', a, _, hn', hc, hc' => by
    have h₁ := (List.isChain_cons_cons.mp hc).1.1
    have h₂ := (List.isChain_cons_cons.mp hc').1.1
    exact absurd (Option.some.inj (h₁.symm.trans h₂) ▸ List.mem_cons_self) hn'
  | x :: l, [], a, hn, _, hc, hc' => by
    have h₁ := (List.isChain_cons_cons.mp hc).1.1
    have h₂ := (List.isChain_cons_cons.mp hc').1.1
    exact absurd (Option.some.inj (h₂.symm.trans h₁) ▸ List.mem_cons_self) hn
  | x :: l, y :: l', a, hn, hn', hc, hc' => by
    obtain ⟨h₁, hc⟩ := List.isChain_cons_cons.mp hc
    obtain ⟨h₂, hc'⟩ := List.isChain_cons_cons.mp hc'
    obtain rfl : x = y := Option.some.inj (h₁.1.symm.trans h₂.1)
    rw [chain_unique (fun hm => hn (List.mem_cons_of_mem _ hm)) (fun hm => hn' (List.mem_cons_of_mem _ hm))
      hc hc']

/-- The links determine the list. -/
theorem unique {l' : List ν} (hr : s.IsRing h l) (hr' : s.IsRing h l') : l = l' :=
  chain_unique hr.sentinel_notMem hr'.sentinel_notMem hr.chain hr'.chain

/-- The two neighbours of a node of the ring, with the chain around it. -/
theorem split (hr : s.IsRing h l) (hn : n ∈ l) :
    ∃ A p q B l₁ l₂, l = l₁ ++ n :: l₂ ∧ h :: l₁ = A ++ [p] ∧ l₂ ++ [h] = q :: B ∧
      s.Adj p n ∧ s.Adj n q ∧ List.IsChain s.Adj (A ++ [p]) ∧ List.IsChain s.Adj (q :: B) := by
  obtain ⟨l₁, l₂, rfl⟩ := List.append_of_mem hn
  obtain ⟨A, p, hA⟩ : ∃ A p, h :: l₁ = A ++ [p] :=
    ⟨_, _, (List.dropLast_concat_getLast (l := h :: l₁) (by simp)).symm⟩
  obtain ⟨q, B, hB⟩ : ∃ q B, l₂ ++ [h] = q :: B := by cases l₂ <;> simp
  have hc := hr.chain
  have e : h :: (l₁ ++ n :: l₂ ++ [h]) = A ++ p :: n :: q :: B := by
    calc h :: (l₁ ++ n :: l₂ ++ [h]) = (h :: l₁) ++ n :: (l₂ ++ [h]) := by simp
      _ = A ++ p :: n :: q :: B := by rw [hA, hB]; simp
  rw [e, List.isChain_append_cons_cons, List.isChain_cons_cons] at hc
  exact ⟨A, p, q, B, l₁, l₂, rfl, hA, hB, hc.2.1, hc.2.2.1, hc.1, hc.2.2.2⟩

theorem next_split {l₁ l₂ : List ν} (hr : s.IsRing h (l₁ ++ n :: l₂)) : s.next n = some (l₂.headD h) := by
  have hc := hr.chain
  rw [show h :: (l₁ ++ n :: l₂ ++ [h]) = (h :: l₁) ++ n :: (l₂ ++ [h]) by simp, List.isChain_split] at hc
  cases l₂ with
  | nil => exact (List.isChain_cons_cons.mp hc.2).1.1
  | cons q l₂ => exact (List.isChain_cons_cons.mp hc.2).1.1

/-- Both neighbours of a node of the ring lie on the ring and differ from it. -/
theorem adj_mem (hr : s.IsRing h l) (hn : n ∈ l) :
    ∃ p q, s.prev n = some p ∧ s.next n = some q ∧ p ∈ h :: l ∧ q ∈ h :: l ∧ p ≠ n ∧ q ≠ n := by
  have hnd := hr.nodup
  obtain ⟨A, p, q, B, l₁, l₂, rfl, hA, hB, hpn, hnq, -, -⟩ := hr.split hn
  have hp : p ∈ h :: l₁ := by rw [hA]; simp
  have hq : q ∈ l₂ ++ [h] := by rw [hB]; simp
  refine ⟨p, q, hpn.2, hnq.1, ?_, ?_, ?_, ?_⟩
  · simp only [List.mem_cons, List.mem_append] at hp ⊢; tauto
  · simp only [List.mem_cons, List.mem_append, List.not_mem_nil, or_false] at hq ⊢; tauto
  · rintro rfl
    simp only [List.nodup_cons, List.nodup_append, List.mem_cons, List.mem_append] at hnd hp
    rcases hp with rfl | hp
    · exact hnd.1 (.inr (.inl rfl))
    · exact hnd.2.2.2 p hp p (.inl rfl) rfl
  · rintro rfl
    simp only [List.nodup_cons, List.nodup_append, List.mem_cons, List.mem_append, List.not_mem_nil,
      or_false] at hnd hq
    rcases hq with hq | rfl
    · exact hnd.2.2.1.1 hq
    · exact hnd.1 (.inr (.inl rfl))

end IsRing

/-! ### The pointer programs -/

variable [DecidableEq ν]

def setNext (s : Links ν) (a : ν) (x : Option ν) : Links ν :=
  { s with next := Function.update s.next a x }

def setPrev (s : Links ν) (a : ν) (x : Option ν) : Links ν :=
  { s with prev := Function.update s.prev a x }

/-- `h->next = h->prev = h`. -/
def init (s : Links ν) (h : ν) : Links ν :=
  (s.setNext h (some h)).setPrev h (some h)

/-- Link `n` in right after the sentinel `h`. -/
def insertFront (s : Links ν) (h n : ν) : Links ν :=
  let s := s.setNext n (s.next h)
  let s := s.setPrev n (some h)
  let s := match s.next h with
    | some q => s.setPrev q (some n)
    | none => s
  s.setNext h (some n)

/-- Take `n` out of its list and clear its two links. -/
def unlink (s : Links ν) (n : ν) : Links ν :=
  let s := match s.prev n with
    | some p => s.setNext p (s.next n)
    | none => s
  let s := match s.next n with
    | some q => s.setPrev q (s.prev n)
    | none => s
  (s.setPrev n none).setNext n none

namespace IsRing

theorem init_self : (s.init h).IsRing h [] :=
  ⟨by simp, by simp [Links.init, setNext, setPrev, Adj]⟩

/-! ### Insertion -/

theorem insertFront_next_of_ne {a : ν} (hn : a ≠ n) (hh : a ≠ h) :
    (s.insertFront h n).next a = s.next a := by
  unfold Links.insertFront
  dsimp only
  split <;> simp [setNext, setPrev, hn, hh]

theorem insertFront_prev_of_ne {a : ν} (hn : a ≠ n) (hq : s.next h ≠ some a) (hh : h ≠ n) :
    (s.insertFront h n).prev a = s.prev a := by
  unfold Links.insertFront
  dsimp only
  split
  · rename_i q hs
    have : a ≠ q := by
      rintro rfl
      simp [setNext, setPrev, hh] at hs
      exact hq hs
    simp [setNext, setPrev, hn, this]
  · simp [setNext, setPrev, hn]

theorem insertFront (hr : s.IsRing h l) (hn : n ∉ h :: l) : (s.insertFront h n).IsRing h (n :: l) := by
  obtain ⟨hnh, hnl⟩ := not_or.mp (fun e => hn (List.mem_cons.mpr e))
  have hhn : h ≠ n := Ne.symm hnh
  obtain ⟨q, hq⟩ : ∃ q, s.next h = some q := ⟨_, hr.next_eq⟩
  have hqn : q ≠ n := by
    rintro rfl
    rw [hr.next_eq, Option.some_inj] at hq
    cases l with
    | nil => exact hhn hq
    | cons x l => exact hnl (by simpa using Or.inl hq.symm)
  have hs : s.insertFront h n =
      ⟨Function.update (Function.update s.next n (some q)) h (some n),
       Function.update (Function.update s.prev n (some h)) q (some n)⟩ := by
    simp [Links.insertFront, setNext, setPrev, hq, hhn]
  have hnd : (h :: n :: l).Nodup := by
    have := hr.nodup
    simp only [List.nodup_cons, List.mem_cons, not_or] at this ⊢
    exact ⟨⟨hhn, this.1⟩, hnl, this.2⟩
  refine ⟨hnd, ?_⟩
  rw [hs, List.cons_append, List.isChain_cons_cons]
  refine ⟨⟨by simp, by simp [Function.update_of_ne hqn.symm]⟩, ?_⟩
  have hlast : ∃ L, l ++ [h] = q :: L := by
    rw [hr.next_eq, Option.some_inj] at hq
    cases l with
    | nil => exact ⟨[], by simpa using hq⟩
    | cons x l => exact ⟨l ++ [h], by simpa using hq⟩
  obtain ⟨L, hL⟩ := hlast
  have hc := hr.chain
  rw [hL, List.isChain_cons_cons] at hc
  rw [hL, List.isChain_cons_cons]
  refine ⟨⟨by simp [Function.update_of_ne hnh], by simp⟩, chain_congr (fun a ha => ?_) (fun b hb => ?_) hc.2⟩
  · -- every node of the tail but the closing sentinel keeps its `next`
    rw [← hL, List.dropLast_concat] at ha
    have h1 : a ≠ h := fun e => hr.sentinel_notMem (e ▸ ha)
    have h2 : a ≠ n := fun e => hnl (e ▸ ha)
    simp [Function.update_of_ne h1, Function.update_of_ne h2]
  · -- `q` is the only node whose `prev` moves, and it heads this tail
    have hb' : b ∈ L := by simpa using hb
    have hnd' : (q :: L).Nodup := by
      rw [← hL]; exact List.nodup_append_comm.mp (by simpa using hr.nodup)
    have h1 : b ≠ q := fun e => (List.nodup_cons.mp hnd').1 (e ▸ hb')
    have h2 : b ≠ n := by
      have : b ∈ l ++ [h] := by rw [hL]; exact List.mem_cons_of_mem _ hb'
      rintro rfl
      rcases List.mem_append.mp this with hm | hm
      · exact hnl hm
      · exact hnh (by simpa using hm)
    simp [Function.update_of_ne h1, Function.update_of_ne h2]

/-- Insertion into one ring leaves a ring alone that shares no node with it. -/
theorem insertFront_other {h' : ν} {l' : List ν} (hr : s.IsRing h l) (hr' : s.IsRing h' l')
    (hn : n ∉ h :: l) (hn' : n ∉ h' :: l') (hd : (h :: l).Disjoint (h' :: l')) :
    (s.insertFront h n).IsRing h' l' := by
  have hhn : h ≠ n := fun e => hn (e ▸ List.mem_cons_self)
  refine hr'.congr (fun a ha => ?_) (fun a ha => ?_)
  · exact insertFront_next_of_ne (fun e => hn' (e ▸ ha)) (fun e => hd (e ▸ List.mem_cons_self) ha)
  · refine insertFront_prev_of_ne (fun e => hn' (e ▸ ha)) (fun e => ?_) hhn
    rw [hr.next_eq, Option.some_inj] at e
    refine hd (a := a) ?_ ha
    cases l with
    | nil => simp at e; simp [e]
    | cons x l => simp at e; simp [e]

/-! ### Removal -/

theorem unlink_next_of_ne {a : ν} (hn : a ≠ n) (hp : s.prev n ≠ some a) :
    (s.unlink n).next a = s.next a := by
  unfold Links.unlink
  rcases hs : s.prev n with _ | p
  · dsimp only; split <;> simp [setNext, setPrev, hn]
  · have : a ≠ p := by rintro rfl; exact hp hs
    dsimp only
    split <;> simp [setNext, setPrev, hn, this]

theorem unlink_prev_of_ne {a : ν} (hn : a ≠ n) (hq : s.next n ≠ some a) (hpn : s.prev n ≠ some n) :
    (s.unlink n).prev a = s.prev a := by
  unfold Links.unlink
  rcases hs : s.prev n with _ | p
  · rcases hs' : s.next n with _ | q
    · simp [setNext, setPrev, hn, hs']
    · have : a ≠ q := by rintro rfl; exact hq hs'
      simp [setNext, setPrev, hn, this, hs']
  · have hp : n ≠ p := by rintro rfl; exact hpn hs
    rcases hs' : s.next n with _ | q
    · simp [setNext, setPrev, hn, hs', hp]
    · have : a ≠ q := by rintro rfl; exact hq hs'
      simp [setNext, setPrev, hn, hp, this, hs']

theorem unlink (hr : s.IsRing h l) (hn : n ∈ l) : (s.unlink n).IsRing h (l.erase n) := by
  have hnd := hr.nodup
  obtain ⟨A, p, q, B, l₁, l₂, rfl, hA, hB, hpn, hnq, hc₁, hc₂⟩ := hr.split hn
  have hp : p ∈ h :: l₁ := by rw [hA]; simp
  have hq : q ∈ l₂ ++ [h] := by rw [hB]; simp
  have hnd' : (h :: l₁).Nodup ∧ (l₂ ++ [h]).Nodup ∧ n ∉ h :: l₁ ∧ n ∉ l₂ ++ [h] ∧
      l₁.Disjoint (l₂ ++ [h]) ∧ (h :: l₁).Disjoint l₂ := by
    simp only [List.nodup_cons, List.nodup_append, List.mem_cons, List.mem_append] at hnd
    refine ⟨?_, ?_, ?_, ?_, ?_, ?_⟩ <;> simp [List.Disjoint, List.nodup_append] <;> grind
  obtain ⟨hnd₁, hnd₂, hn₁, hn₂, hd₁, hd₂⟩ := hnd'
  have hpne : n ≠ p := fun e => hn₁ (e ▸ hp)
  have hqne : n ≠ q := fun e => hn₂ (e ▸ hq)
  have hs : s.unlink n =
      ⟨Function.update (Function.update s.next p (some q)) n none,
       Function.update (Function.update s.prev q (some p)) n none⟩ := by
    simp [Links.unlink, setNext, setPrev, hpn.2, hnq.1, hpne]
  have hl : n ∉ l₁ := fun e => hn₁ (List.mem_cons_of_mem _ e)
  rw [List.erase_append_right _ hl, List.erase_cons_head]
  refine ⟨hnd.sublist (by simp), ?_⟩
  have e : h :: (l₁ ++ l₂ ++ [h]) = A ++ p :: q :: B := by
    calc h :: (l₁ ++ l₂ ++ [h]) = (h :: l₁) ++ (l₂ ++ [h]) := by simp
      _ = A ++ p :: q :: B := by rw [hA, hB]; simp
  rw [e, List.isChain_append_cons_cons, hs]
  refine ⟨chain_congr (fun a ha => ?_) (fun b hb => ?_) hc₁,
    ⟨by simp [Function.update_of_ne hpne.symm], by simp [Function.update_of_ne hqne.symm]⟩,
    chain_congr (fun a ha => ?_) (fun b hb => ?_) hc₂⟩
  · -- before `p`
    rw [List.dropLast_concat] at ha
    rw [hA] at hnd₁ hn₁
    have h1 : a ≠ p := fun e => (List.nodup_append.mp hnd₁).2.2 a ha p (by simp) e
    have h2 : a ≠ n := fun e => hn₁ (e ▸ List.mem_append_left _ ha)
    simp [Function.update_of_ne h1, Function.update_of_ne h2]
  · have hb' : b ∈ l₁ := by rw [← hA] at hb; simpa using hb
    have h1 : b ≠ q := fun e => hd₁ hb' (e ▸ hq)
    have h2 : b ≠ n := fun e => hl (e ▸ hb')
    simp [Function.update_of_ne h1, Function.update_of_ne h2]
  · -- from `q` on
    rw [← hB, List.dropLast_concat] at ha
    have h1 : a ≠ p := fun e => hd₂ hp (e ▸ ha)
    have h2 : a ≠ n := fun e => hn₂ (e ▸ List.mem_append_left _ ha)
    simp [Function.update_of_ne h1, Function.update_of_ne h2]
  · rw [hB] at hnd₂ hn₂
    have hb' : b ∈ B := by simpa using hb
    have h1 : b ≠ q := fun e => (List.nodup_cons.mp hnd₂).1 (e ▸ hb')
    have h2 : b ≠ n := fun e => hn₂ (e ▸ List.mem_cons_of_mem _ hb')
    simp [Function.update_of_ne h1, Function.update_of_ne h2]

/-- Removal from one ring leaves a ring alone that shares no node with it. -/
theorem unlink_other {h' : ν} {l' : List ν} (hr : s.IsRing h l) (hr' : s.IsRing h' l')
    (hn : n ∈ l) (hd : (h :: l).Disjoint (h' :: l')) : (s.unlink n).IsRing h' l' := by
  obtain ⟨p, q, hp, hq, hpm, hqm, hpn, hqn⟩ := hr.adj_mem hn
  have hnm : n ∈ h :: l := List.mem_cons_of_mem _ hn
  have hpn' : s.prev n ≠ some n := by rw [hp]; simpa using hpn
  refine hr'.congr (fun a ha => ?_) (fun a ha => ?_)
  · refine unlink_next_of_ne (fun e => hd hnm (e ▸ ha)) ?_
    rw [hp]; rintro ⟨⟩; exact hd hpm ha
  · refine unlink_prev_of_ne (fun e => hd hnm (e ▸ ha)) ?_ hpn'
    rw [hq]; rintro ⟨⟩; exact hd hqm ha

end IsRing

/-! ### Walking a ring -/

/-- Follow the links `f` from `o` to the first node with `P`; the sentinel `h` ends the walk. -/
def walk (f : ν → Option ν) (h : ν) (P : ν → Bool) : (fuel : Nat) → Option ν → Option ν
  | _, none => none
  | 0, some _ => none
  | fuel + 1, some a => if a = h then none else if P a then some a else walk f h P fuel (f a)

theorem walk_chain {P : ν → Bool} : ∀ {l : List ν} {a : ν} {fuel : Nat}, h ∉ l → l.length < fuel →
    (a :: (l ++ [h])).IsChain s.Adj → walk s.next h P fuel (s.next a) = l.find? P
  | [], a, fuel + 1, _, _, hc => by
    rw [((List.isChain_cons_cons.mp hc).1).1]
    simp [walk]
  | x :: l, a, fuel + 1, hn, hlen, hc => by
    obtain ⟨hax, hc⟩ := List.isChain_cons_cons.mp hc
    have hxh : x ≠ h := fun e => hn (e ▸ List.mem_cons_self)
    rw [hax.1, walk, if_neg hxh]
    by_cases hP : P x
    · rw [if_pos hP, List.find?_cons_of_pos hP]
    · rw [if_neg hP, List.find?_cons_of_neg hP]
      exact walk_chain (fun hm => hn (List.mem_cons_of_mem _ hm)) (by simpa using hlen) hc

/-- The links read backwards. -/
def flip (s : Links ν) : Links ν := ⟨s.prev, s.next⟩

/-- Link `n` in right before the sentinel `h`. -/
def insertBack (s : Links ν) (h n : ν) : Links ν := (s.flip.insertFront h n).flip

namespace IsRing

theorem walk_next (hr : s.IsRing h l) {P : ν → Bool} {fuel : Nat} (hf : l.length < fuel) :
    walk s.next h P fuel (s.next h) = l.find? P :=
  walk_chain hr.sentinel_notMem hf hr.chain

theorem flip (hr : s.IsRing h l) : s.flip.IsRing h l.reverse := by
  have hnd := hr.nodup
  refine ⟨by simpa [List.nodup_cons] using hnd, ?_⟩
  have hrev : h :: (l.reverse ++ [h]) = (h :: (l ++ [h])).reverse := by simp
  rw [hrev, List.isChain_reverse]
  exact hr.chain.imp fun a b hab => ⟨hab.2, hab.1⟩

/-- Insertion at the other end. -/
theorem insertBack (hr : s.IsRing h l) (hn : n ∉ h :: l) : (s.insertBack h n).IsRing h (l ++ [n]) := by
  have hback := (hr.flip.insertFront (n := n) (by simpa using hn)).flip
  rwa [List.reverse_cons, List.reverse_reverse] at hback

theorem walk_prev (hr : s.IsRing h l) {P : ν → Bool} {fuel : Nat} (hf : l.length < fuel) :
    walk s.prev h P fuel (s.prev h) = l.reverse.find? P :=
  hr.flip.walk_next (by simpa using hf)

end IsRing
end Links
