import Airix.Mkfs.Data
import Airix.Mkfs.Find

/-!
# Where the data of a file goes

`write_file` and what it calls, over any function that supplies the blocks of the file. Whatever block is
supplied, as long as it is unused: an array of pointers is filled in the order of the file, the blocks
under it are new and no block occurs twice (`Laying`), level by level up to the pointers of the inode.
-/

namespace Airix.Mkfs
open Axfs Bytes Exec Finset BlockTree

variable {g : Geom} {d d' d'' d₀ : Disk} {b c i j k n N num : Nat} {bytes rest : List UInt8}
  {height start arr : Nat → Nat}

/-! ### The writers over an allocator -/

section Allocator
variable (alloc : M Nat)

def allocIndirectBlockBy (indirect : Nat → Nat) (index : Nat) : M (Nat → Nat) := do
  let b ← alloc
  updateBlockData b (ofWords fun _ => 0) blockSize
  updateBlockBitmap b
  decFreeBlocks
  return Function.update indirect index b

def writeDataBlockBy (blocks : Nat → Nat) (i : Nat) (rest : List UInt8) : M ((Nat → Nat) × List UInt8) := do
  let data := rest.take blockSize
  let b ← alloc
  updateBlockData b (fun i => data.getD i 0) data.length
  updateBlockBitmap b
  decFreeBlocks
  return (Function.update blocks i b, rest.drop blockSize)

def writeDataIntoBlocksBy (blocks : Nat → Nat) (blocksLen : Nat) (rest : List UInt8) : M ((Nat → Nat) × List UInt8) :=
  fillBlocks (writeDataBlockBy alloc) (List.range blocksLen) blocks rest

def writeDataIntoIndirectBlocksBy (write : (Nat → Nat) → Nat → List UInt8 → M ((Nat → Nat) × List UInt8))
    (indirect : Nat → Nat) (index : Nat) (rest : List UInt8) : M ((Nat → Nat) × List UInt8) := do
  let indirect ← allocIndirectBlockBy alloc indirect index
  let (blocks, rest) ← fillBlocks write (List.range (blockSize / 4)) (fun _ => 0) rest
  updateBlockData (indirect index) (ofWords blocks) blockSize
  return (indirect, rest)

def writeDataInto1IndirectBlocksBy := writeDataIntoIndirectBlocksBy alloc (writeDataBlockBy alloc)
def writeDataInto2IndirectBlocksBy := writeDataIntoIndirectBlocksBy alloc (writeDataInto1IndirectBlocksBy alloc)
def writeDataInto3IndirectBlocksBy := writeDataIntoIndirectBlocksBy alloc (writeDataInto2IndirectBlocksBy alloc)

/-- `write_file` with the blocks of the file from `alloc`. -/
def writeFileBy (fuel : Nat) (sfile : List UInt8) (dst : List UInt8) : M Bool := do
  let (ino, inode) ← createFileInode fuel dst
  if ino = 0 then return false
  else
    let sb ← getSuper
    if hasEnoughSpace sb sfile.length then
      let r ← writeDataIntoBlocksBy alloc inode.iBlock directBlockCount sfile
      let r ← writeIndirect (writeDataInto1IndirectBlocksBy alloc) oneIndirectBlockIndex r
      let r ← writeIndirect (writeDataInto2IndirectBlocksBy alloc) twoIndirectBlockIndex r
      let r ← writeIndirect (writeDataInto3IndirectBlocksBy alloc) threeIndirectBlockIndex r
      updateInode ino { inode with iSize := sfile.length % 2 ^ 64, iBlock := r.1 }
      updateSuperBlock
      return true
    else return false

end Allocator

/-- With the allocator of the program these are the functions of the program. -/
theorem writeFileBy_allocBlock : writeFileBy allocBlock = writeFile := rfl

/-- The function gives, on every image, the number of an unused block, and leaves the image as it is. -/
def Supplies (g : Geom) (alloc : M Nat) : Prop :=
  ∀ d, Counts g d → g.After False d alloc fun b d' =>
    d' = d ∧ ∃ k < g.groups, ∃ j < g.groupBlocks k, b = 1 + 8192 * k + j ∧ d.bit .block k j = false

theorem supplies_allocBlock : Supplies g allocBlock := fun _ hc =>
  (after_allocBlock hc False.elim).mono fun _ _ ⟨hd, j, hj, hb, hbit⟩ =>
    ⟨hd, 0, g.groups_pos, j, hj, by rw [hb, Nat.mul_zero, Nat.add_zero], hbit⟩

/-! ### Blocks in use -/

/-- The bit of block `b` is set. -/
def Disk.InUse (d : Disk) (g : Geom) (b : Nat) : Prop :=
  ∃ k < g.groups, ∃ j < g.groupBlocks k, b = 1 + 8192 * k + j ∧ d.bit .block k j = true

theorem Disk.InUse.ne_zero (h : d.InUse g b) : b ≠ 0 := by
  obtain ⟨k, -, j, -, rfl, -⟩ := h
  omega

theorem Disk.InUse.lt (h : d.InUse g b) : b < 2 ^ 32 := by
  obtain ⟨k, hk, j, hj, rfl, -⟩ := h
  have h1 := (g.layout hk).blocks
  have h2 := g.blocks_lt
  omega

theorem Disk.not_inUse (hk : k < g.groups) (hj : j < g.groupBlocks k) (hbit : d.bit .block k j = false) :
    ¬ d.InUse g (1 + 8192 * k + j) := by
  rintro ⟨k', hk', j', hj', he, hbit'⟩
  have h1 := (g.layout hk).le
  have h2 := (g.layout hk').le
  obtain ⟨rfl, rfl⟩ : k' = k ∧ j' = j := by omega
  rw [hbit] at hbit'
  cases hbit'

/-- The image `d'` comes after `d` while blocks are taken: the inodes stay, and so do the blocks that were in
use before, and those that are not in use yet. -/
structure Later (g : Geom) (d d' : Disk) : Prop where
  counts : Counts g d'
  inode : d'.inode = d.inode
  inodeBits : d'.bit .inode = d.bit .inode
  inUse : ∀ b, d.InUse g b → d'.InUse g b
  data : ∀ b, d.InUse g b → d'.data b = d.data b
  unused : ∀ b, ¬ d'.InUse g b → d'.data b = d.data b

theorem Later.refl (h : Counts g d) : Later g d d := ⟨h, rfl, rfl, fun _ hb => hb, fun _ _ => rfl, fun _ _ => rfl⟩

theorem Later.trans (h : Later g d d') (h' : Later g d' d'') : Later g d d'' :=
  ⟨h'.counts, h'.inode.trans h.inode, h'.inodeBits.trans h.inodeBits, fun b hb => h'.inUse b (h.inUse b hb),
    fun b hb => (h'.data b (h.inUse b hb)).trans (h.data b hb),
    fun b hb => (h'.unused b hb).trans (h.unused b fun hu => hb (h'.inUse b hu))⟩

/-- A block supplied, filled and marked. -/
theorem Supplies.after_take {α : Type} {alloc : M Nat} (ha : Supplies g alloc) (h : Counts g d) {f : Nat → UInt8} {len : Nat}
    (hlen : len ≤ 1024) {next : Nat → M α} {Q : α → Disk → Prop}
    (hnext : ∀ b d', Later g d d' → g.IsData b → ¬ d.InUse g b → d'.InUse g b → d'.data b = put (d.data b) 0 len f →
      g.After False d' (next b) Q) :
    g.After False d (do
      let b ← alloc
      updateBlockData b f len
      updateBlockBitmap b
      decFreeBlocks
      next b) Q := by
  refine (ha d h).bind ?_
  rintro b d₁ ⟨hd, k, hk, j, hj, hb, hbit⟩
  subst hd hb
  have hdata := h.isData hk hj hbit
  refine (after_updateBlockData hdata hlen).bind fun _ d₂ hd₂ => ?_
  subst hd₂
  have hc : Counts g (d₁.setData (1 + 8192 * k + j) (put (d₁.data (1 + 8192 * k + j)) 0 len f)) :=
    ⟨h.mem, h.free, h.used⟩
  refine After.bind₂ (after_markBlockAt hc hk hj hbit) fun _ d₃ hd₃ => ?_
  subst hd₃
  have hbits : ∀ k' j', (d₁.bit .block k' j' || decide (Kind.block = .block ∧ k' = k ∧ j' = j)) = true ↔
      d₁.bit .block k' j' = true ∨ k' = k ∧ j' = j := by
    intro k' j'
    simp only [Bool.or_eq_true, decide_eq_true_eq, true_and]
  refine hnext _ _ ⟨hc.markAt hk hj hbit, rfl, ?_, ?_, ?_, ?_⟩ hdata (Disk.not_inUse hk hj hbit)
    ⟨k, hk, j, hj, rfl, (hbits k j).2 (.inr ⟨rfl, rfl⟩)⟩ (Disk.setData_self _ _ _)
  · funext k' j'
    exact Bool.or_false _
  · rintro b ⟨k', hk', j', hj', rfl, hbit'⟩
    exact ⟨k', hk', j', hj', rfl, (hbits k' j').2 (.inl hbit')⟩
  · intro b hb
    refine Disk.setData_ne _ _ ?_
    rintro rfl
    exact Disk.not_inUse hk hj hbit hb
  · intro b hb
    refine Disk.setData_ne _ _ ?_
    rintro rfl
    exact hb ⟨k, hk, j, hj, rfl, (hbits k j).2 (.inr ⟨rfl, rfl⟩)⟩

/-! ### Trees that store bytes -/

/-- The tree of height `n` at block `b` stores the bytes, and its pointers beyond them are 0. -/
def Stores (d : Disk) : Nat → Nat → List UInt8 → Prop
  | 0, b, bytes => ∀ o < 1024, o < bytes.length → d.data b o = bytes.getD o 0
  | n + 1, b, bytes => ∀ k < 256,
      (k * cap n < bytes.length → d.ptr b k ≠ 0 ∧ Stores d n (d.ptr b k) (piece n bytes k)) ∧
      (bytes.length ≤ k * cap n → d.ptr b k = 0)

theorem Stores.congr (h : Stores d n b bytes) (hd : ∀ x ∈ nodes d.ptr 256 n b, ∀ i < 1024, d'.data x.2 i = d.data x.2 i) :
    Stores d' n b bytes := by
  induction n generalizing b bytes with
  | zero =>
    intro o ho hlen
    rw [hd (0, b) nodes_self o ho]
    exact h o ho hlen
  | succ n ih =>
    intro k hk
    have hptr : d'.ptr b k = d.ptr b k := wordsOf_congr (n := 256) (hd (n + 1, b) nodes_self) hk
    rw [hptr]
    obtain ⟨hin, hout⟩ := h k hk
    refine ⟨fun hlen => ?_, hout⟩
    obtain ⟨hne, hs⟩ := hin hlen
    refine ⟨hne, ih hs fun x hx => hd x ?_⟩
    rw [nodes_succ]
    exact Multiset.mem_cons_of_mem (mem_forest.2 ⟨k, hk, hne, hx⟩)

/-- The blocks were taken between `d₀` and `d`, and each occurs once. -/
structure New (g : Geom) (d₀ d : Disk) (T : Multiset (Nat × Nat)) : Prop where
  fresh : ∀ x ∈ T, ¬ d₀.InUse g x.2
  inUse : ∀ x ∈ T, d.InUse g x.2
  nodup : (T.map Prod.snd).Nodup

/-- Between `d` and `d'` a tree of new blocks was made that stores the bytes. -/
structure Laid (g : Geom) (n b : Nat) (bytes : List UInt8) (d d' : Disk) : Prop where
  later : Later g d d'
  stores : Stores d' n b bytes
  new : New g d d' (nodes d'.ptr 256 n b)

/-- What a function that writes into one element of an array comes to. -/
def LaySpec (g : Geom) (n : Nat) (write : (Nat → Nat) → Nat → List UInt8 → M ((Nat → Nat) × List UInt8)) : Prop :=
  ∀ d arr i rest, Counts g d → g.After False d (write arr i rest) fun r d' =>
    ∃ b, r = (Function.update arr i b, rest.drop (cap n)) ∧ Laid g n b (rest.take (cap n)) d d'

/-- An array of `N` pointers that is filled: the trees of the first `i` elements, which have the heights
`height`, store the bytes from `start` on, each as many as it can hold, and what remains of the bytes is `rest`. -/
structure Laying (g : Geom) (N : Nat) (height start : Nat → Nat) (bytes : List UInt8) (d₀ : Disk) (i : Nat)
    (arr : Nat → Nat) (rest : List UInt8) (d : Disk) : Prop where
  later : Later g d₀ d
  stores : ∀ k < i, start k < bytes.length →
    arr k ≠ 0 ∧ Stores d (height k) (arr k) ((bytes.drop (start k)).take (cap (height k)))
  zero : ∀ k, i ≤ k ∨ bytes.length ≤ start k → arr k = 0
  new : New g d₀ d (forest d.ptr 256 N height arr)
  rest_eq : rest = bytes.drop (start i)

/-- The beginnings of the pieces that follow each other. -/
def Steps (height start : Nat → Nat) : Prop := start 0 = 0 ∧ ∀ k, start (k + 1) = start k + cap (height k)

theorem Laying.init (h : Counts g d) (h0 : start 0 = 0) (harr : ∀ k, arr k = 0) :
    Laying g N height start bytes d 0 arr bytes d := by
  have hempty : forest d.ptr 256 N height arr = 0 := sum_eq_zero fun k _ => if_pos (harr k)
  refine ⟨Later.refl h, fun k hk => absurd hk (Nat.not_lt_zero k), fun k _ => harr k, ?_, by rw [h0, List.drop_zero]⟩
  rw [hempty]
  exact ⟨fun x hx => absurd hx (Multiset.notMem_zero x), fun x hx => absurd hx (Multiset.notMem_zero x), Multiset.nodup_zero⟩

namespace Laying
variable (h : Laying g N height start bytes d₀ i arr rest d)
include h

theorem lt (hk : k < N) : arr k < 2 ^ 32 := by
  rcases eq_or_ne (arr k) 0 with h0 | h0
  · omega
  · exact (h.new.inUse _ (mem_forest.2 ⟨k, hk, h0, nodes_self⟩)).lt

/-- No byte remains. -/
theorem skip (hs : Steps height start) (hnil : rest = []) : Laying g N height start bytes d₀ (i + 1) arr rest d := by
  have hlen : bytes.length ≤ start i := List.drop_eq_nil_iff.1 (h.rest_eq.symm.trans hnil)
  have hnext := hs.2 i
  refine ⟨h.later, fun k hk hlen' => h.stores k ?_ hlen', fun k hk => h.zero k (hk.imp (by omega) id), h.new, ?_⟩
  · have hki : k ≠ i := by
      rintro rfl
      omega
    omega
  · rw [hnil, List.drop_eq_nil_iff.2 (by omega)]

/-- A tree is stored in the next element. -/
theorem store (hs : Steps height start) (hi : i < N) (hlen : start i < bytes.length)
    (hl : Laid g (height i) b (rest.take (cap (height i))) d d') :
    Laying g N height start bytes d₀ (i + 1) (Function.update arr i b) (rest.drop (cap (height i))) d' := by
  have hi0 : arr i = 0 := h.zero i (.inl (Nat.le_refl i))
  have hb : b ≠ 0 := (hl.new.inUse _ nodes_self).ne_zero
  have hold : ∀ x ∈ forest d.ptr 256 N height arr, d'.data x.2 = d.data x.2 := fun x hx =>
    hl.later.data _ (h.new.inUse x hx)
  have hkeep : forest d'.ptr 256 N height arr = forest d.ptr 256 N height arr :=
    forest_congr (fun _ _ => rfl) fun l c hc k _ => congrFun (ptr_congr (hold _ hc)) k
  have hset : forest d'.ptr 256 N height (Function.update arr i b) =
      nodes d'.ptr 256 (height i) b + forest d.ptr 256 N height arr := by
    rw [forest_set hi hi0 (by rw [Function.update_self]; exact hb) fun k _ hk => Function.update_of_ne hk _ _,
      Function.update_self, hkeep]
  refine ⟨h.later.trans hl.later, fun k hk hlen' => ?_, fun k hk => ?_, ⟨fun x hx => ?_, fun x hx => ?_, ?_⟩, ?_⟩
  · rcases eq_or_ne k i with rfl | hki
    · rw [Function.update_self, ← h.rest_eq]
      exact ⟨hb, hl.stores⟩
    · rw [Function.update_of_ne hki]
      obtain ⟨hne, hst⟩ := h.stores k (by omega) hlen'
      exact ⟨hne, hst.congr fun x hx i _ => congrFun (hold x (mem_forest.2 ⟨k, by omega, hne, hx⟩)) i⟩
  · have hki : k ≠ i := by
      rintro rfl
      omega
    rw [Function.update_of_ne hki]
    exact h.zero k (hk.imp (by omega) id)
  · rw [hset, Multiset.mem_add] at hx
    rcases hx with hx | hx
    · exact fun hu => hl.new.fresh x hx (h.later.inUse _ hu)
    · exact h.new.fresh x hx
  · rw [hset, Multiset.mem_add] at hx
    rcases hx with hx | hx
    · exact hl.new.inUse x hx
    · exact hl.later.inUse _ (h.new.inUse x hx)
  · rw [hset, Multiset.map_add, Multiset.nodup_add]
    refine ⟨hl.new.nodup, h.new.nodup, Multiset.disjoint_left.2 fun hc hc' => ?_⟩
    obtain ⟨x, hx, rfl⟩ := Multiset.mem_map.1 hc
    obtain ⟨y, hy, he⟩ := Multiset.mem_map.1 hc'
    exact hl.new.fresh x hx (he ▸ h.new.inUse y hy)
  · rw [h.rest_eq, List.drop_drop, hs.2]

/-- One `if (size > 0)`, or one round of a loop. -/
theorem after_step {write : (Nat → Nat) → Nat → List UInt8 → M ((Nat → Nat) × List UInt8)} (hs : Steps height start)
    (hi : i < N) (hw : LaySpec g (height i) write) (hne : rest ≠ []) :
    g.After False d (write arr i rest) fun r d' => Laying g N height start bytes d₀ (i + 1) r.1 r.2 d' := by
  have hlen : start i < bytes.length := by
    by_contra hge
    exact hne (h.rest_eq.trans (List.drop_eq_nil_iff.2 (by omega)))
  refine (hw d arr i rest h.later.counts).mono ?_
  rintro r d' ⟨b, hr, hl⟩
  subst hr
  exact h.store hs hi hlen hl

/-- The loop over the elements from `i` on. -/
theorem after_fillBlocks {write : (Nat → Nat) → Nat → List UInt8 → M ((Nat → Nat) × List UInt8)} {m : Nat}
    (hs : Steps height start) (hw : LaySpec g n write) (hheight : ∀ k < num, height k = n) (hN : num ≤ N)
    (him : i + m = num) :
    g.After False d (fillBlocks write (List.range' i m) arr rest) fun r d' =>
      Laying g N height start bytes d₀ num r.1 r.2 d' := by
  induction m generalizing i d arr rest with
  | zero =>
    obtain rfl : i = num := by omega
    exact After.pure h
  | succ m ih =>
    rw [List.range'_succ, fillBlocks]
    rcases eq_or_ne rest [] with hnil | hne
    · rw [if_pos hnil]
      refine After.pure ?_
      -- the elements that are left over stay 0
      have hall : ∀ m, Laying g N height start bytes d₀ (i + m) arr rest d := by
        intro m
        induction m with
        | zero => exact h
        | succ m ih => exact ih.skip hs hnil
      exact him ▸ hall (m + 1)
    · rw [if_neg hne]
      have hw' : LaySpec g (height i) write := by rwa [hheight i (by omega)]
      exact (h.after_step hs (by omega) hw' hne).bind fun r d₁ hr => ih hr (by omega)

end Laying

/-! ### The writers -/

theorem laySpec_data {alloc : M Nat} (ha : Supplies g alloc) : LaySpec g 0 (writeDataBlockBy alloc) := by
  intro d arr i rest h
  have hlen : (rest.take blockSize).length ≤ 1024 := List.length_take_le _ _
  refine ha.after_take h hlen fun b d' hlater _ hb hb' hdata => After.pure ⟨b, rfl, hlater, ?_, ?_⟩
  · intro o _ ho
    rw [hdata]
    have hin : put (d.data b) 0 (rest.take blockSize).length (fun i => (rest.take blockSize).getD i 0) (0 + o) =
      (rest.take blockSize).getD o 0 := put_in ho
    rwa [Nat.zero_add] at hin
  · have hself : ∀ x ∈ nodes d'.ptr 256 0 b, x = (0, b) := fun x hx => Multiset.mem_singleton.1 hx
    exact ⟨fun x hx => by rwa [hself x hx], fun x hx => by rwa [hself x hx], Multiset.nodup_singleton b⟩

theorem steps_const : Steps (fun _ => n) (fun k => k * cap n) :=
  ⟨Nat.zero_mul _, fun k => Nat.succ_mul k _⟩

/-- The pointers of an indirect block written, after its array was filled. -/
theorem Laying.laid {d₁ d₂ d₃ : Disk} (h : Laying g 256 (fun _ => n) (fun k => k * cap n) bytes d₁ 256 arr rest d₂)
    (hlater : Later g d d₁) (hb : ¬ d.InUse g b) (hb₁ : d₁.InUse g b)
    (hd₃ : d₃ = d₂.setData b (put (d₂.data b) 0 1024 (ofWords arr))) :
    Laid g (n + 1) b (bytes.take (cap (n + 1))) d d₃ := by
  have hptr : ∀ k < 256, d₃.ptr b k = arr k := by
    intro k hk
    rw [hd₃, Disk.ptr, Disk.setData_self, wordsOf, word_put_zero (by omega), word_ofWords, Nat.mod_eq_of_lt (h.lt hk)]
  have hother : ∀ c, c ≠ b → d₃.data c = d₂.data c := fun c hc => by rw [hd₃, Disk.setData_ne _ _ hc]
  have hne : ∀ x ∈ forest d₂.ptr 256 256 (fun _ => n) arr, x.2 ≠ b := by
    rintro x hx rfl
    exact h.new.fresh x hx hb₁
  have hforest : forest d₃.ptr 256 256 (fun _ => n) (d₃.ptr b) = forest d₂.ptr 256 256 (fun _ => n) arr :=
    forest_congr hptr fun l c hc k _ => congrFun (ptr_congr (hother c (hne _ hc))) k
  have hcounts : Counts g d₃ := by
    rw [hd₃]
    exact ⟨h.later.counts.mem, h.later.counts.free, h.later.counts.used⟩
  have hinUse : ∀ c, d₂.InUse g c → d₃.InUse g c := by
    rw [hd₃]
    exact fun c hc => hc
  refine ⟨⟨hcounts, ?_, ?_, fun c hc => ?_, fun c hc => ?_, fun c hc => ?_⟩,
    fun k hk => ⟨fun hlen => ?_, fun hlen => ?_⟩, ?_⟩
  · rw [hd₃]
    exact h.later.inode.trans hlater.inode
  · rw [hd₃]
    exact h.later.inodeBits.trans hlater.inodeBits
  · exact hinUse c (h.later.inUse c (hlater.inUse c hc))
  · have hcb : c ≠ b := by
      rintro rfl
      exact hb hc
    rw [hother c hcb, h.later.data c (hlater.inUse c hc), hlater.data c hc]
  · have hu : ¬ d₂.InUse g c := fun hu => hc (hinUse c hu)
    have hcb : c ≠ b := by
      rintro rfl
      exact hu (h.later.inUse c hb₁)
    rw [hother c hcb, h.later.unused c hu, hlater.unused c fun hu' => hu (h.later.inUse c hu')]
  · rw [List.length_take] at hlen
    obtain ⟨hk0, hst⟩ := h.stores k hk (by omega)
    rw [hptr k hk, piece_take hk]
    exact ⟨hk0, hst.congr fun x hx i _ => congrFun (hother _ (hne x (mem_forest.2 ⟨k, hk, hk0, hx⟩))) i⟩
  · have hcap : k * cap n < cap (n + 1) := by
      rw [cap_succ]
      exact Nat.mul_lt_mul_of_pos_right hk cap_pos
    rw [hptr k hk]
    refine h.zero k (.inr ?_)
    rw [List.length_take] at hlen
    omega
  · rw [nodes_succ, hforest]
    refine ⟨fun x hx => ?_, fun x hx => ?_, ?_⟩
    · rcases Multiset.mem_cons.1 hx with rfl | hx
      · exact hb
      · exact fun hu => h.new.fresh x hx (hlater.inUse _ hu)
    · rcases Multiset.mem_cons.1 hx with rfl | hx
      · exact hinUse b (h.later.inUse b hb₁)
      · exact hinUse _ (h.new.inUse x hx)
    · rw [Multiset.map_cons, Multiset.nodup_cons]
      refine ⟨fun hm => ?_, h.new.nodup⟩
      obtain ⟨x, hx, he⟩ := Multiset.mem_map.1 hm
      exact hne x hx he

theorem laySpec_indirect {alloc : M Nat} (ha : Supplies g alloc)
    {write : (Nat → Nat) → Nat → List UInt8 → M ((Nat → Nat) × List UInt8)} (hw : LaySpec g n write) :
    LaySpec g (n + 1) (writeDataIntoIndirectBlocksBy alloc write) := by
  intro d arr i bytes h
  rw [writeDataIntoIndirectBlocksBy, allocIndirectBlockBy]
  simp only [bind_assoc, pure_bind]
  refine ha.after_take h (Nat.le_refl 1024) fun b d₁ hlater hdata hb hb₁ _ => ?_
  have hinit : Laying g 256 (fun _ => n) (fun k => k * cap n) bytes d₁ 0 (fun _ => 0) bytes d₁ :=
    Laying.init hlater.counts (Nat.zero_mul _) fun _ => rfl
  have hloop := hinit.after_fillBlocks (m := 256) steps_const hw (fun _ _ => rfl) (Nat.le_refl 256) (Nat.zero_add 256)
  rw [← List.range_eq_range'] at hloop
  refine hloop.bind fun r d₂ hr => ?_
  rw [Function.update_self]
  refine (after_updateBlockData hdata (Nat.le_refl 1024)).bind fun _ d₃ hd₃ => After.pure ⟨b, ?_, hr.laid hlater hb hb₁ hd₃⟩
  rw [hr.rest_eq, cap_succ]

end Airix.Mkfs
