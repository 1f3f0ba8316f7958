import Airix.Mkfs.Layout

/-!
# The standard mapping of a file's blocks

The blocks of a file are numbered by the order of its bytes: block `k` is reached from pointer `k` of the
inode for `k < 21`, and from the last three pointers through 1, 2 or 3 indirect blocks, by the digits of the
remaining index to the base 256. `Mapped` says that the file is stored that way, and `Filed.mapped` that it
is when the trees of the inode's pointers store its pieces.
-/

namespace Airix.Mkfs
open Axfs Bytes Exec Finset BlockTree

variable {g : Geom} {d d' : Disk} {b i k m n : Nat} {bytes : List UInt8} {arr : Nat → Nat} {is is' : List Nat}
  {data : Nat → Nat → UInt8}

/-- The `n` digits of `m` to the base 256, the highest first. -/
def digits : Nat → Nat → List Nat
  | 0, _ => []
  | n + 1, m => m / 256 ^ n :: digits n (m % 256 ^ n)

/-- The pointer of the inode that leads to block `k`, and the pointers to follow from there. -/
def path (k : Nat) : Nat × List Nat :=
  if k < 21 then (k, [])
  else if k < 21 + 256 then (21, digits 1 (k - 21))
  else if k < 21 + 256 + 256 ^ 2 then (22, digits 2 (k - (21 + 256)))
  else (23, digits 3 (k - (21 + 256 + 256 ^ 2)))

/-- The block that the pointers lead to from block `b`; 0 as soon as one of them is 0. -/
def follow (data : Nat → Nat → UInt8) : Nat → List Nat → Nat
  | b, [] => b
  | b, i :: is => if b = 0 then 0 else follow data (wordsOf (data b) i) is

/-- The block that the mapping gives for index `k`. -/
def blockAt (data : Nat → Nat → UInt8) (inode : Inode) (k : Nat) : Nat :=
  follow data (inode.iBlock (path k).1) (path k).2

/-- The index of the first block under the inode's pointer `i`. -/
def slotFirst : Nat → Nat
  | 0 => 0
  | i + 1 => slotFirst i + 256 ^ (i - 20)

/-- The index, in a tree of height `n`, of the first block under a slot of its pointers. -/
def slotIndex : Nat → List Nat → Nat
  | n + 1, i :: is => i * 256 ^ n + slotIndex n is
  | _, _ => 0

/-- The largest size that the pointers of an inode allow. -/
def maxFileSize : Nat := (21 + 256 + 256 ^ 2 + 256 ^ 3) * 1024

/-- The file of the inode consists of the bytes: block `k` of the mapping holds the `k`-th 1024 of them,
every pointer beyond them is 0, and no block is used twice. -/
structure Mapped (data : Nat → Nat → UInt8) (inode : Inode) (bytes : List UInt8) : Prop where
  size : inode.iSize = bytes.length
  chunk : ∀ k, 1024 * k < bytes.length → blockAt data inode k ≠ 0 ∧
    ∀ o < 1024, 1024 * k + o < bytes.length → data (blockAt data inode k) o = bytes.getD (1024 * k + o) 0
  beyond : ∀ i < 24, ∀ is, is.length ≤ i - 20 → (∀ x ∈ is, x < 256) →
    bytes.length ≤ 1024 * (slotFirst i + slotIndex (i - 20) is) → follow data (inode.iBlock i) is = 0
  inj : ∀ k k', 1024 * k < bytes.length → 1024 * k' < bytes.length →
    blockAt data inode k = blockAt data inode k' → k = k'

/-! ### Digits -/

theorem digits_length : (digits n m).length = n := by
  induction n generalizing m with
  | zero => rfl
  | succ n ih => rw [digits, List.length_cons, ih]

theorem digits_lt (h : m < 256 ^ n) : ∀ x ∈ digits n m, x < 256 := by
  induction n generalizing m with
  | zero => exact fun x hx => absurd hx List.not_mem_nil
  | succ n ih =>
    have hpos : 0 < 256 ^ n := Nat.pow_pos (by omega)
    refine List.forall_mem_cons.2 ⟨?_, ih (Nat.mod_lt _ hpos)⟩
    exact Nat.div_lt_of_lt_mul (by rwa [← Nat.pow_succ])

theorem slotIndex_digits : slotIndex n (digits n m) = if n = 0 then 0 else m := by
  induction n generalizing m with
  | zero => rfl
  | succ n ih =>
    rw [digits, slotIndex, ih, if_neg n.succ_ne_zero, Nat.mul_comm]
    split
    · rename_i h
      rw [h, Nat.pow_zero, Nat.div_one, Nat.one_mul, Nat.add_zero]
    · exact Nat.div_add_mod m (256 ^ n)

theorem slotIndex_nil : slotIndex n [] = 0 := by cases n <;> rfl

/-- A slot lies within its tree. -/
theorem slotIndex_add_le (hlen : is.length ≤ n) (his : ∀ x ∈ is, x < 256) :
    slotIndex n is + 256 ^ (n - is.length) ≤ 256 ^ n := by
  induction is generalizing n with
  | nil => rw [slotIndex_nil, Nat.zero_add, List.length_nil, Nat.sub_zero]
  | cons i is ih =>
    obtain ⟨n, rfl⟩ : ∃ n', n = n' + 1 := ⟨n - 1, by simp only [List.length_cons] at hlen; omega⟩
    obtain ⟨hi, his⟩ := List.forall_mem_cons.1 his
    have hle := ih (Nat.le_of_succ_le_succ hlen) his
    have hmul : (i + 1) * 256 ^ n ≤ 256 * 256 ^ n := Nat.mul_le_mul_right _ hi
    rw [Nat.succ_mul] at hmul
    rw [slotIndex, List.length_cons, Nat.add_sub_add_right, Nat.pow_succ]
    omega

/-- What the path of an index is. -/
theorem path_spec (hk : k < 21 + 256 + 256 ^ 2 + 256 ^ 3) : (path k).1 < 24 ∧ (path k).2.length = (path k).1 - 20 ∧
    (∀ x ∈ (path k).2, x < 256) ∧ slotFirst (path k).1 + slotIndex ((path k).1 - 20) (path k).2 = k := by
  have hsmall : ∀ k ≤ 21, slotFirst k = k := by decide
  have h22 : slotFirst 22 = 21 + 256 := by decide
  have h23 : slotFirst 23 = 21 + 256 + 256 ^ 2 := by decide
  rw [path]
  split
  · refine ⟨by omega, (Nat.sub_eq_zero_of_le (by omega)).symm, fun x hx => absurd hx List.not_mem_nil, ?_⟩
    rw [slotIndex_nil, hsmall k (by omega), Nat.add_zero]
  · split
    · refine ⟨by omega, digits_length, digits_lt (by omega), ?_⟩
      rw [show (21, digits 1 (k - 21)).1 - 20 = 1 from rfl, slotIndex_digits, if_neg Nat.one_ne_zero, hsmall 21 (Nat.le_refl _)]
      omega
    · split
      · refine ⟨by omega, digits_length, digits_lt (by omega), ?_⟩
        rw [show (22, digits 2 (k - (21 + 256))).1 - 20 = 2 from rfl, slotIndex_digits, if_neg (by omega), h22]
        omega
      · refine ⟨by omega, digits_length, digits_lt (by omega), ?_⟩
        rw [show (23, digits 3 (k - (21 + 256 + 256 ^ 2))).1 - 20 = 3 from rfl, slotIndex_digits, if_neg (by omega), h23]
        omega

/-! ### Following pointers in a tree -/

theorem follow_zero : follow data 0 is = 0 := by
  cases is with
  | nil => rfl
  | cons i is => exact if_pos rfl

theorem follow_cons (hb : b ≠ 0) : follow d.data b (i :: is) = follow d.data (d.ptr b i) is := if_neg hb

/-- The pointers lead to a block of the tree. -/
theorem follow_mem (hb : follow d.data b is ≠ 0) (hlen : is.length ≤ n) (his : ∀ x ∈ is, x < 256) :
    (n - is.length, follow d.data b is) ∈ nodes d.ptr 256 n b := by
  induction is generalizing n b with
  | nil => exact nodes_self
  | cons i is ih =>
    obtain ⟨n, rfl⟩ : ∃ n', n = n' + 1 := ⟨n - 1, by simp only [List.length_cons] at hlen; omega⟩
    obtain ⟨hi, his⟩ := List.forall_mem_cons.1 his
    have hb0 : b ≠ 0 := by
      rintro rfl
      exact hb follow_zero
    rw [follow_cons hb0] at hb ⊢
    have hptr : d.ptr b i ≠ 0 := fun h0 => hb (by rw [h0, follow_zero])
    rw [nodes_succ, List.length_cons, Nat.add_sub_add_right]
    exact Multiset.mem_cons_of_mem (mem_forest.2 ⟨i, hi, hptr, ih hb (Nat.le_of_succ_le_succ hlen) his⟩)

/-- In a tree without repetition the pointers lead to different blocks. -/
theorem follow_inj (hnd : ((nodes d.ptr 256 n b).map Prod.snd).Nodup) (hlen : is.length = n) (hlen' : is'.length = n)
    (his : ∀ x ∈ is, x < 256) (his' : ∀ x ∈ is', x < 256) (hb : follow d.data b is ≠ 0)
    (he : follow d.data b is = follow d.data b is') : is = is' := by
  induction n generalizing b is is' with
  | zero => rw [List.length_eq_zero_iff.1 hlen, List.length_eq_zero_iff.1 hlen']
  | succ n ih =>
    obtain ⟨i, is, rfl⟩ := List.exists_cons_of_length_eq_add_one hlen
    obtain ⟨i', is', rfl⟩ := List.exists_cons_of_length_eq_add_one hlen'
    obtain ⟨hi, his⟩ := List.forall_mem_cons.1 his
    have hi' := his' i' List.mem_cons_self
    have hb0 : b ≠ 0 := by
      rintro rfl
      exact hb follow_zero
    have hb' : follow d.data b (i' :: is') ≠ 0 := he ▸ hb
    rw [follow_cons hb0] at hb he hb'
    rw [follow_cons hb0] at he
    have hptr : d.ptr b i ≠ 0 := fun h0 => hb (by rw [h0, follow_zero])
    have hptr' : d.ptr b i' ≠ 0 := fun h0 => hb' (by rw [h0, follow_zero])
    have hl : is.length = n := Nat.succ.inj hlen
    have hl' : is'.length = n := Nat.succ.inj hlen'
    rw [nodes_succ, Multiset.map_cons, Multiset.nodup_cons] at hnd
    rcases eq_or_ne i i' with rfl | hne
    · rw [ih (nodup_of_mem_forest hnd.2 hi hptr) hl hl' his (fun x hx => his' x (List.mem_cons_of_mem _ hx)) hb he]
    · refine absurd he (disjoint_of_mem_forest hnd.2 hi hi' hne hptr hptr' (follow_mem hb hl.le his) (follow_mem hb' hl'.le ?_))
      exact fun x hx => his' x (List.mem_cons_of_mem _ hx)

/-- What is stored below a slot. -/
theorem Stores.follow (h : Stores d n b bytes) (hpos : 0 < bytes.length) (hb : b ≠ 0) (hcap : bytes.length ≤ cap n)
    (hlen : is.length ≤ n) (his : ∀ x ∈ is, x < 256) :
    (1024 * slotIndex n is < bytes.length → follow d.data b is ≠ 0 ∧ Stores d (n - is.length) (Mkfs.follow d.data b is)
      ((bytes.drop (1024 * slotIndex n is)).take (cap (n - is.length)))) ∧
    (bytes.length ≤ 1024 * slotIndex n is → Mkfs.follow d.data b is = 0) := by
  induction is generalizing n b bytes with
  | nil =>
    rw [slotIndex_nil, Nat.mul_zero, List.drop_zero, List.length_nil, Nat.sub_zero, List.take_of_length_le hcap]
    exact ⟨fun _ => ⟨hb, h⟩, fun hle => by omega⟩
  | cons i is ih =>
    obtain ⟨n, rfl⟩ : ∃ n', n = n' + 1 := ⟨n - 1, by simp only [List.length_cons] at hlen; omega⟩
    obtain ⟨hi, his⟩ := List.forall_mem_cons.1 his
    have hlen : is.length ≤ n := Nat.le_of_succ_le_succ hlen
    have hwithin := Nat.mul_le_mul_left 1024 (slotIndex_add_le hlen his)
    have hcapm : 1024 * 256 ^ (n - is.length) = cap (n - is.length) := rfl
    have hcapn : 1024 * 256 ^ n = cap n := rfl
    have hpow : 0 < 256 ^ (n - is.length) := Nat.pow_pos (by omega)
    have hindex : 1024 * slotIndex (n + 1) (i :: is) = i * cap n + 1024 * slotIndex n is := by
      rw [slotIndex, Nat.mul_add, ← hcapn, Nat.mul_left_comm]
    rw [Nat.mul_add, hcapm, hcapn] at hwithin
    rw [follow_cons hb, hindex, List.length_cons, Nat.add_sub_add_right]
    obtain ⟨hin, hout⟩ := h i hi
    rcases Nat.lt_or_ge (i * cap n) bytes.length with hlt | hge
    · obtain ⟨hne, hst⟩ := hin hlt
      have hplen : (piece n bytes i).length = min (cap n) (bytes.length - i * cap n) := by
        rw [piece, List.length_take, List.length_drop]
      have hcap0 := cap_pos (n := n)
      have hcap1 := cap_pos (n := n - is.length)
      obtain ⟨h1, h2⟩ := ih hst (by omega) hne (by omega) hlen his
      refine ⟨fun hl => ?_, fun hl => h2 (by omega)⟩
      obtain ⟨hne', hst'⟩ := h1 (by omega)
      refine ⟨hne', ?_⟩
      have hpiece : ((piece n bytes i).drop (1024 * slotIndex n is)).take (cap (n - is.length)) =
          (bytes.drop (i * cap n + 1024 * slotIndex n is)).take (cap (n - is.length)) := by
        rw [piece, List.drop_take, List.drop_drop, List.take_take, Nat.min_eq_left (by omega)]
      rwa [hpiece] at hst'
    · rw [hout hge, follow_zero]
      exact ⟨fun hl => by omega, fun _ => rfl⟩

/-! ### The pointers of an inode -/

/-- Where the piece of the inode's pointer `i` starts. -/
def slotStart (i : Nat) : Nat := 1024 * slotFirst i

theorem steps_slotStart : Steps (fun i => i - 20) slotStart :=
  ⟨rfl, fun k => by rw [slotStart, slotFirst, Nat.mul_add]; rfl⟩

/-- The piece of the bytes that belongs to pointer `i`. -/
def slotPiece (bytes : List UInt8) (i : Nat) : List UInt8 := (bytes.drop (slotStart i)).take (cap (i - 20))

/-- The trees of the 24 pointers store the bytes. -/
structure Filed (d : Disk) (arr : Nat → Nat) (bytes : List UInt8) : Prop where
  stores : ∀ i < 24, slotStart i < bytes.length → arr i ≠ 0 ∧ Stores d (i - 20) (arr i) (slotPiece bytes i)
  zero : ∀ i < 24, bytes.length ≤ slotStart i → arr i = 0
  nodup : ((forest d.ptr 256 24 (fun i => i - 20) arr).map Prod.snd).Nodup

theorem Laying.filed {d₀ : Disk} {rest : List UInt8}
    (h : Laying g 24 (fun i => i - 20) slotStart bytes d₀ 24 arr rest d) : Filed d arr bytes :=
  ⟨fun i hi => h.stores i hi, fun i _ hl => h.zero i (.inr hl), h.new.nodup⟩

namespace Filed
variable (h : Filed d arr bytes)
include h

theorem congr (hd : ∀ x ∈ forest d.ptr 256 24 (fun i => i - 20) arr, ∀ i < 1024, d'.data x.2 i = d.data x.2 i) :
    Filed d' arr bytes := by
  refine ⟨fun i hi hl => ?_, h.zero, ?_⟩
  · obtain ⟨hne, hst⟩ := h.stores i hi hl
    exact ⟨hne, hst.congr fun x hx => hd x (mem_forest.2 ⟨i, hi, hne, hx⟩)⟩
  · have hforest : forest d'.ptr 256 24 (fun i => i - 20) arr = forest d.ptr 256 24 (fun i => i - 20) arr :=
      forest_congr (fun _ _ => rfl) fun l c hc k hk => wordsOf_congr (n := 256) (hd (l + 1, c) hc) hk
    rw [hforest]
    exact h.nodup

theorem follow (hi : i < 24) (hlen : is.length ≤ i - 20) (his : ∀ x ∈ is, x < 256) :
    (1024 * (slotFirst i + slotIndex (i - 20) is) < bytes.length → Mkfs.follow d.data (arr i) is ≠ 0 ∧
      Stores d (i - 20 - is.length) (Mkfs.follow d.data (arr i) is)
        ((bytes.drop (1024 * (slotFirst i + slotIndex (i - 20) is))).take (cap (i - 20 - is.length)))) ∧
    (bytes.length ≤ 1024 * (slotFirst i + slotIndex (i - 20) is) → Mkfs.follow d.data (arr i) is = 0) := by
  have hwithin := Nat.mul_le_mul_left 1024 (slotIndex_add_le hlen his)
  have hcapm : 1024 * 256 ^ (i - 20 - is.length) = cap (i - 20 - is.length) := rfl
  have hcapn : 1024 * 256 ^ (i - 20) = cap (i - 20) := rfl
  have hcap0 := cap_pos (n := i - 20)
  have hcap1 := cap_pos (n := i - 20 - is.length)
  have hstart : slotStart i = 1024 * slotFirst i := rfl
  rw [Nat.mul_add, hcapm, hcapn] at hwithin
  rw [Nat.mul_add]
  rcases Nat.lt_or_ge (slotStart i) bytes.length with hlt | hge
  · obtain ⟨hne, hst⟩ := h.stores i hi hlt
    have hplen : (slotPiece bytes i).length = min (cap (i - 20)) (bytes.length - slotStart i) := by
      rw [slotPiece, List.length_take, List.length_drop]
    obtain ⟨h1, h2⟩ := hst.follow (by omega) hne (by omega) hlen his
    refine ⟨fun hl => ?_, fun hl => h2 (by omega)⟩
    obtain ⟨hne', hst'⟩ := h1 (by omega)
    refine ⟨hne', ?_⟩
    have hpiece : ((slotPiece bytes i).drop (1024 * slotIndex (i - 20) is)).take (cap (i - 20 - is.length)) =
        (bytes.drop (1024 * slotFirst i + 1024 * slotIndex (i - 20) is)).take (cap (i - 20 - is.length)) := by
      rw [slotPiece, List.drop_take, List.drop_drop, List.take_take, Nat.min_eq_left (by omega), hstart]
    rwa [hpiece] at hst'
  · rw [h.zero i hi hge, follow_zero]
    exact ⟨fun hl => by omega, fun _ => rfl⟩

/-- The blocks of the file are those of the standard mapping. -/
theorem mapped {inode : Inode} (harr : inode.iBlock = arr) (hsize : inode.iSize = bytes.length)
    (hmax : bytes.length ≤ maxFileSize) : Mapped d.data inode bytes := by
  subst harr
  have hblock : ∀ k, 1024 * k < bytes.length → blockAt d.data inode k ≠ 0 ∧
      Stores d 0 (blockAt d.data inode k) ((bytes.drop (1024 * k)).take 1024) := by
    intro k hk
    obtain ⟨hi, hlen, his, hidx⟩ := path_spec (k := k) (by rw [maxFileSize] at hmax; omega)
    have hf := (h.follow hi hlen.le his).1
    rw [hidx, hlen, Nat.sub_self] at hf
    exact hf hk
  refine ⟨hsize, fun k hk => ⟨(hblock k hk).1, fun o ho hlt => ?_⟩, fun i hi is hlen his => (h.follow hi hlen his).2,
    fun k k' hk hk' he => ?_⟩
  · have hst := (hblock k hk).2 o ho (by rw [List.length_take, List.length_drop]; omega)
    rw [hst, List.getD_eq_getElem?_getD, List.getD_eq_getElem?_getD, List.getElem?_take_of_lt ho, List.getElem?_drop]
  · have hmax' : bytes.length ≤ (21 + 256 + 256 ^ 2 + 256 ^ 3) * 1024 := hmax
    obtain ⟨hi, hlen, his, hidx⟩ := path_spec (k := k) (by omega)
    obtain ⟨hi', hlen', his', hidx'⟩ := path_spec (k := k') (by omega)
    have hne := (hblock k hk).1
    have hne' := (hblock k' hk').1
    have hptr : ∀ {i is}, Mkfs.follow d.data (inode.iBlock i) is ≠ 0 → inode.iBlock i ≠ 0 := fun hf h0 =>
      hf (by rw [h0, follow_zero])
    have hi0 : inode.iBlock (path k).1 ≠ 0 := hptr hne
    have hi0' : inode.iBlock (path k').1 ≠ 0 := hptr hne'
    -- two pointers of the inode lead to different trees
    have htop : (path k).1 = (path k').1 := by
      by_contra hne₁
      exact disjoint_of_mem_forest h.nodup hi hi' hne₁ hi0 hi0' (follow_mem hne hlen.le his)
        (follow_mem hne' hlen'.le his') he
    have hrest : (path k).2 = (path k').2 := by
      rw [blockAt, blockAt, ← htop] at he
      exact follow_inj (nodup_of_mem_forest h.nodup hi hi0) hlen (htop ▸ hlen') his his' hne he
    rw [← hidx, ← hidx', htop, hrest]

end Filed

end Airix.Mkfs
