import Airix.Mkfs.Steps

/-!
# Writing the data of a file

The `write_data_into_*` functions take blocks for the file and store their numbers in memory; an indirect
block is written when all that is below it is. `Holds` says that a tree of blocks holds a sequence of
bytes, in the order in which the pointers count.
-/

namespace Airix.Mkfs
open Axfs Bytes Exec Finset BlockTree

variable {g : Geom} {d d' d'' : Disk} {P : Multiset Nat} {b c i j n num : Nat} {bytes : List UInt8}
  {arr height : Nat → Nat}

/-- How many bytes a tree of height `n` holds. -/
def cap (n : Nat) : Nat := 1024 * 256 ^ n

theorem cap_succ : cap (n + 1) = 256 * cap n := by
  rw [cap, cap, Nat.pow_succ]
  omega

theorem cap_pos : 0 < cap n := Nat.mul_pos (by omega) (Nat.pow_pos (by omega))

/-- Piece `k` of a sequence of bytes, for trees of height `n`. -/
def piece (n : Nat) (bytes : List UInt8) (k : Nat) : List UInt8 := (bytes.drop (k * cap n)).take (cap n)

/-- The tree of height `n` at block `b` holds the bytes. -/
def Holds (d : Disk) : Nat → Nat → List UInt8 → Prop
  | 0, b, bytes => ∀ o < bytes.length, d.data b o = bytes.getD o 0
  | n + 1, b, bytes => ∀ k < 256, k * cap n < bytes.length → d.ptr b k ≠ 0 ∧ Holds d n (d.ptr b k) (piece n bytes k)

theorem Holds.congr (h : Holds d n b bytes) (hd : ∀ x ∈ nodes d.ptr 256 n b, d'.data x.2 = d.data x.2) :
    Holds d' n b bytes := by
  induction n generalizing b bytes with
  | zero =>
    intro o ho
    rw [hd (0, b) nodes_self]
    exact h o ho
  | succ n ih =>
    intro k hk hlen
    have hptr : d'.ptr b k = d.ptr b k := congrFun (ptr_congr (hd (n + 1, b) nodes_self)) k
    obtain ⟨hne, hh⟩ := h k hk hlen
    rw [hptr]
    refine ⟨hne, ih hh fun x hx => hd x ?_⟩
    rw [nodes_succ]
    exact Multiset.mem_cons_of_mem (mem_forest.2 ⟨k, hk, hne, hx⟩)

theorem nodes_of_data (hd : ∀ x ∈ nodes d.ptr 256 n b, d'.data x.2 = d.data x.2) :
    nodes d'.ptr 256 n b = nodes d.ptr 256 n b :=
  nodes_congr fun _ _ hc i _ => congrFun (ptr_congr (hd _ hc)) i

/-- What a write leaves: the inodes, and the blocks that were taken before. -/
structure Kept (g : Geom) (P : Multiset Nat) (d d' : Disk) : Prop where
  inode : d'.inode = d.inode
  data : ∀ c ∈ d.refBlocks g + P, d'.data c = d.data c

theorem Kept.refBlocks (h : Kept g P d d') : d'.refBlocks g = d.refBlocks g := by
  have hr : d'.refs g = d.refs g := by
    refine refs_congr fun n h1 h2 => ?_
    rw [h.inode]
    exact treeOf_congr fun l c hc => h.data c (Multiset.mem_add.2 (.inl (mem_refBlocks_of_treeOf h1 h2 hc)))
  rw [Disk.refBlocks, hr]
  rfl

theorem Kept.trans (h : Kept g P d d') (h' : Kept g P d' d'') : Kept g P d d'' := by
  refine ⟨h'.inode.trans h.inode, fun c hc => (h'.data c ?_).trans (h.data c hc)⟩
  rwa [h.refBlocks]

theorem Kept.mono {P' : Multiset Nat} (h : Kept g (P' + P) d d') : Kept g P d d' :=
  ⟨h.inode, fun c hc => h.data c (by
    rw [Multiset.mem_add] at hc ⊢
    exact hc.imp id fun hc => Multiset.mem_add.2 (.inr hc))⟩

/-- A tree of height `n` at block `b` was written and holds the bytes. -/
structure Written (g : Geom) (n b : Nat) (bytes : List UInt8) (P : Multiset Nat) (d d' : Disk) : Prop where
  inv : Inv g d' ((nodes d'.ptr 256 n b).map Prod.snd + P)
  holds : Holds d' n b bytes
  ne : b ≠ 0
  kept : Kept g P d d'

/-- What a function that writes into one element of an array comes to. -/
def WriteSpec (g : Geom) (n : Nat) (write : (Nat → Nat) → Nat → List UInt8 → M ((Nat → Nat) × List UInt8)) : Prop :=
  ∀ d P arr i bytes, Inv g d P → g.After False d (write arr i bytes) (fun r d' =>
    ∃ b, r = (Function.update arr i b, bytes.drop (cap n)) ∧ Written g n b (bytes.take (cap n)) P d d')

/-- Taking a block and filling it. -/
theorem after_takeBlock {α : Type} {P : Multiset Nat} (h : Inv g d P) {f : Nat → UInt8} {len : Nat} (hlen : len ≤ 1024)
    {rest : Nat → M α} {Q : α → Disk → Prop}
    (hrest : ∀ b d', Inv g d' (b ::ₘ P) → Kept g P d d' → b ≠ 0 → d'.data b = put (d.data b) 0 len f →
      g.After False d' (rest b) Q) :
    g.After False d (do
      let b ← allocBlock
      updateBlockData b f len
      updateBlockBitmap b
      decFreeBlocks
      rest b) Q := by
  refine (after_allocBlock h.counts False.elim).bind ?_
  rintro b d₁ ⟨hd, j, hj, hb, hbit⟩
  subst hd hb
  have hdata : g.IsData (1 + j) := by simpa using h.counts.isData g.groups_pos hj hbit
  refine (after_updateBlockData hdata hlen).bind fun _ d₂ hd₂ => ?_
  have hc₂ : Counts g d₂ := by
    rw [hd₂]
    exact ⟨h.counts.mem, h.counts.free, h.counts.used⟩
  have hbit₂ : d₂.bit = d₁.bit := by rw [hd₂]; rfl
  refine After.bind₂ (after_markBlock hc₂ hj (by rw [hbit₂]; exact hbit)) fun _ d₃ hd₃ => ?_
  subst hd₃ hd₂
  refine hrest (1 + j) _ (h.pend hj hbit) ⟨rfl, fun c hc => ?_⟩ (by omega) ?_
  · refine Disk.setData_ne _ _ ?_
    rintro rfl
    exact h.block.notMem hj hbit hc
  · exact Disk.setData_self _ _ _

theorem writeSpec_data : WriteSpec g 0 writeDataBlock := by
  intro d P arr i bytes h
  have hlen : (bytes.take blockSize).length ≤ 1024 := List.length_take_le _ _
  refine after_takeBlock h hlen fun b d' hinv hkept hb hdata => After.pure ⟨b, rfl, hinv, ?_, hb, hkept⟩
  intro o ho
  rw [hdata]
  have hin' : put (d.data b) 0 (bytes.take blockSize).length (fun i => (bytes.take blockSize).getD i 0) (0 + o) =
    (bytes.take blockSize).getD o 0 := put_in ho
  rwa [Nat.zero_add] at hin'

/-! ### Arrays of trees -/

/-- The first `i` elements of the array lead to trees of height `n` that hold the pieces of the bytes, and
the other elements are 0. -/
structure Filled (d : Disk) (n i : Nat) (bytes : List UInt8) (arr : Nat → Nat) : Prop where
  holds : ∀ k < i, k * cap n < bytes.length → arr k ≠ 0 ∧ Holds d n (arr k) (piece n bytes k)
  zero : ∀ k, i ≤ k ∨ bytes.length ≤ k * cap n → arr k = 0

theorem Filled.congr (h : Filled d n i bytes arr)
    (hd : ∀ k < i, arr k ≠ 0 → ∀ x ∈ nodes d.ptr 256 n (arr k), d'.data x.2 = d.data x.2) : Filled d' n i bytes arr := by
  refine ⟨fun k hk hlen => ?_, h.zero⟩
  obtain ⟨hne, hh⟩ := h.holds k hk hlen
  exact ⟨hne, hh.congr (hd k hk hne)⟩

/-- A tree stored in an array: the trees stored before are kept. -/
theorem Written.store {N : Nat} {bytes : List UInt8}
    (h : Written g n b bytes ((forest d.ptr 256 N height arr).map Prod.snd + P) d d') (hi : i < N) (hn : height i = n)
    (hi0 : arr i = 0) : (∀ x ∈ forest d.ptr 256 N height arr, d'.data x.2 = d.data x.2) ∧
      Inv g d' ((forest d'.ptr 256 N height (Function.update arr i b)).map Prod.snd + P) := by
  have hold : ∀ x ∈ forest d.ptr 256 N height arr, d'.data x.2 = d.data x.2 := fun x hx =>
    h.kept.data _ (Multiset.mem_add.2 (.inr (Multiset.mem_add.2 (.inl (Multiset.mem_map_of_mem _ hx)))))
  have hset : forest d'.ptr 256 N height (Function.update arr i b) =
      nodes d'.ptr 256 (height i) (Function.update arr i b i) + forest d'.ptr 256 N height arr :=
    forest_set hi hi0 (by rw [Function.update_self]; exact h.ne) fun k _ hk => Function.update_of_ne hk _ _
  have hkeep : forest d'.ptr 256 N height arr = forest d.ptr 256 N height arr :=
    forest_congr (fun _ _ => rfl) fun l c hc k _ => congrFun (ptr_congr (hold _ hc)) k
  refine ⟨hold, ?_⟩
  rw [hset, Function.update_self, hn, hkeep, Multiset.map_add, add_assoc]
  exact h.inv

/-- The loop over the elements of an array. The array is a part of one of `N` elements, whose trees have
the heights `height`. -/
theorem after_fillBlocks {write : (Nat → Nat) → Nat → List UInt8 → M ((Nat → Nat) × List UInt8)} {N m : Nat}
    (hw : WriteSpec g n write) (hheight : ∀ k < num, height k = n) (hN : num ≤ N) (him : i + m = num)
    (h : Inv g d ((forest d.ptr 256 N height arr).map Prod.snd + P)) (hfill : Filled d n i bytes arr) :
    g.After False d (fillBlocks write (List.range' i m) arr (bytes.drop (i * cap n))) (fun r d' =>
      r.2 = bytes.drop (num * cap n) ∧ Inv g d' ((forest d'.ptr 256 N height r.1).map Prod.snd + P) ∧
      Filled d' n num bytes r.1 ∧ Kept g P d d') := by
  induction m generalizing i d arr with
  | zero =>
    obtain rfl : i = num := by omega
    exact After.pure ⟨rfl, h, hfill, rfl, fun _ _ => rfl⟩
  | succ m ih =>
    rw [List.range'_succ, fillBlocks]
    rcases eq_or_ne (bytes.drop (i * cap n)) [] with hnil | hne
    · rw [if_pos hnil]
      have hlen : bytes.length ≤ i * cap n := List.drop_eq_nil_iff.1 hnil
      have hle : i * cap n ≤ num * cap n := Nat.mul_le_mul_right _ (by omega)
      refine After.pure ⟨?_, h, ⟨fun k hk hlen' => ?_, fun k hk => ?_⟩, rfl, fun _ _ => rfl⟩
      · rw [hnil, List.drop_eq_nil_iff.2 (hlen.trans hle)]
      · refine hfill.holds k ?_ hlen'
        by_contra hge
        have := Nat.mul_le_mul_right (cap n) (Nat.le_of_not_lt hge)
        omega
      · refine hfill.zero k (hk.imp (fun hk => by omega) id)
    · rw [if_neg hne]
      have hlen : i * cap n < bytes.length := by
        by_contra hge
        exact hne (List.drop_eq_nil_iff.2 (by omega))
      refine (hw d _ arr i _ h).bind ?_
      rintro r d₁ ⟨b, hr, hwr⟩
      subst hr
      dsimp only
      have hi0 : arr i = 0 := hfill.zero i (.inl (Nat.le_refl i))
      obtain ⟨hold, hinv⟩ := hwr.store (by omega) (hheight i (by omega)) hi0
      have hfill' : Filled d₁ n (i + 1) bytes (Function.update arr i b) := by
        have hf : Filled d₁ n i bytes arr := hfill.congr fun k hk hk0 x hx =>
          hold x (mem_forest.2 ⟨k, by omega, hk0, by rw [hheight k (by omega)]; exact hx⟩)
        refine ⟨fun k hk hlen' => ?_, fun k hk => ?_⟩
        · rcases eq_or_ne k i with rfl | hki
          · rw [Function.update_self]
            exact ⟨hwr.ne, hwr.holds⟩
          · rw [Function.update_of_ne hki]
            exact hf.holds k (by omega) hlen'
        · have hki : k ≠ i := by
            rintro rfl
            omega
          rw [Function.update_of_ne hki]
          exact hfill.zero k (hk.imp (fun hk => by omega) id)
      have hdrop : (bytes.drop (i * cap n)).drop (cap n) = bytes.drop ((i + 1) * cap n) := by
        rw [List.drop_drop, Nat.add_mul, Nat.one_mul]
      rw [hdrop]
      refine (ih (by omega) hinv hfill').mono ?_
      rintro r d₂ ⟨h1, h2, h3, h4⟩
      refine ⟨h1, h2, h3, ?_⟩
      exact hwr.kept.mono.trans h4

/-! ### Indirect blocks -/

theorem piece_take {k : Nat} (hk : k < 256) : piece n (bytes.take (cap (n + 1))) k = piece n bytes k := by
  have hle : (k + 1) * cap n ≤ 256 * cap n := Nat.mul_le_mul_right _ hk
  rw [Nat.add_mul, Nat.one_mul] at hle
  rw [piece, piece, List.drop_take, List.take_take, cap_succ, Nat.min_eq_left (by omega)]

/-- An indirect block written, after the array that goes into it was filled. -/
theorem Inv.writeArray (h : Inv g d ((forest d.ptr 256 256 (fun _ => n) arr).map Prod.snd + b ::ₘ P))
    (hd' : d' = d.setData b (put (d.data b) 0 1024 (ofWords arr))) :
    (∀ k < 256, d'.ptr b k = arr k) ∧ (∀ c, c ≠ b → d'.data c = d.data c) ∧
      (∀ x ∈ forest d.ptr 256 256 (fun _ => n) arr, x.2 ≠ b) ∧
      Inv g d' ((nodes d'.ptr 256 (n + 1) b).map Prod.snd + P) := by
  have hmem : b ∈ (forest d.ptr 256 256 (fun _ => n) arr).map Prod.snd + b ::ₘ P :=
    Multiset.mem_add.2 (.inr (Multiset.mem_cons_self _ _))
  have hlt : ∀ k < 256, arr k < 2 ^ 32 := by
    intro k hk
    rcases eq_or_ne (arr k) 0 with h0 | h0
    · omega
    · have hk' : (n, arr k) ∈ forest d.ptr 256 256 (fun _ => n) arr := mem_forest.2 ⟨k, hk, h0, nodes_self⟩
      have hr := h.block.range (arr k)
        (Multiset.mem_add.2 (.inr (Multiset.mem_add.2 (.inl (Multiset.mem_map_of_mem Prod.snd hk')))))
      obtain ⟨_, _, _, _, _, _, _, _, _⟩ := g.layout g.groups_pos
      omega
  have hptr : ∀ k < 256, d'.ptr b k = arr k := by
    intro k hk
    rw [hd', Disk.ptr, Disk.setData_self, wordsOf, word_put_zero (by omega), word_ofWords, Nat.mod_eq_of_lt (hlt k hk)]
  have hother : ∀ c, c ≠ b → d'.data c = d.data c := fun c hc => by rw [hd', Disk.setData_ne _ _ hc]
  have hne : ∀ x ∈ forest d.ptr 256 256 (fun _ => n) arr, x.2 ≠ b := by
    rintro x hx rfl
    have hnd := (Multiset.nodup_add.1 (Multiset.nodup_add.1 h.block.nodup).2.1).2.2
    exact Multiset.disjoint_left.1 hnd (Multiset.mem_map_of_mem _ hx) (Multiset.mem_cons_self _ _)
  refine ⟨hptr, hother, hne, ?_⟩
  have hforest : forest d'.ptr 256 256 (fun _ => n) (d'.ptr b) = forest d.ptr 256 256 (fun _ => n) arr :=
    forest_congr hptr fun l c hc k _ => congrFun (ptr_congr (hother c (hne _ hc))) k
  have hinv := h.rewrite hmem (f := put (d.data b) 0 1024 (ofWords arr))
  rw [nodes_succ, hforest, Multiset.map_cons, Multiset.cons_add, ← Multiset.add_cons, hd']
  exact hinv

theorem writeSpec_indirect {write : (Nat → Nat) → Nat → List UInt8 → M ((Nat → Nat) × List UInt8)}
    (hw : WriteSpec g n write) : WriteSpec g (n + 1) (writeDataIntoIndirectBlocks write) := by
  intro d P arr i bytes h
  rw [writeDataIntoIndirectBlocks, allocIndirectBlock]
  simp only [bind_assoc, pure_bind]
  refine after_takeBlock h (Nat.le_refl 1024) fun b d₁ hinv₁ hkept₁ hb hdata₁ => ?_
  have hfill₁ : Filled d₁ n 0 bytes (fun _ => 0) := ⟨fun k hk => absurd hk (Nat.not_lt_zero k), fun _ _ => rfl⟩
  have hempty : forest d₁.ptr 256 256 (fun _ => n) (fun _ => 0) = 0 := sum_eq_zero fun _ _ => if_pos rfl
  have hloop := after_fillBlocks (N := 256) (m := 256) hw (fun _ _ => rfl) (Nat.le_refl 256) (Nat.zero_add 256)
    (P := b ::ₘ P) (by rw [hempty]; simpa using hinv₁) hfill₁
  rw [Nat.zero_mul, List.drop_zero, ← List.range_eq_range'] at hloop
  refine hloop.bind ?_
  rintro r d₂ ⟨hrest, hinv₂, hfill₂, hkept₂⟩
  have hdata : g.IsData b := by
    have hr := hinv₂.block.range b (Multiset.mem_add.2 (.inr (Multiset.mem_add.2 (.inr (Multiset.mem_cons_self _ _)))))
    exact ⟨0, g.groups_pos, by omega, by omega⟩
  rw [Function.update_self]
  refine (after_updateBlockData hdata (Nat.le_refl 1024)).bind fun _ d₃ hd₃ => After.pure ?_
  obtain ⟨hptr, hother, hne, hinv₃⟩ := hinv₂.writeArray hd₃
  refine ⟨b, ?_, hinv₃, fun k hk hlen => ?_, hb, ?_⟩
  · rw [hrest, cap_succ]
  · rw [List.length_take] at hlen
    obtain ⟨hk0, hh⟩ := hfill₂.holds k hk (by omega)
    rw [hptr k hk, piece_take hk]
    exact ⟨hk0, hh.congr fun x hx => hother _ (hne x (mem_forest.2 ⟨k, hk, hk0, hx⟩))⟩
  · have hkept₂' : Kept g ({b} + P) d₁ d₂ := hkept₂
    refine (hkept₁.trans hkept₂'.mono).trans ⟨by rw [hd₃]; rfl, fun c hc => hother c ?_⟩
    rintro rfl
    rcases Multiset.mem_add.1 hc with hc | hc
    · exact Multiset.disjoint_left.1 (Multiset.nodup_add.1 hinv₂.block.nodup).2.2 hc
        (Multiset.mem_add.2 (.inr (Multiset.mem_cons_self _ _)))
    · have hnd := (Multiset.nodup_add.1 (Multiset.nodup_add.1 hinv₂.block.nodup).2.1).2.1
      exact (Multiset.nodup_cons.1 hnd).1 hc

end Airix.Mkfs
