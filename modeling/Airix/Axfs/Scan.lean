import Airix.Axfs.Tree
import Mathlib.Logic.Relation

/-!
# The scan of a directory block

What `block_find_ino` reads. The loop goes from record to record by the lengths that are stored in the block
and stops at the end of the block, but it looks at a record that begins inside the block without asking
whether it ends there. `safe_iff` says for which blocks and names this does no harm.
-/

namespace Airix.Axfs
open Bytes Relation
open Mkfs (Rec recAt Tiles DirBlock)

variable {m : Nat → UInt8} {name : List UInt8} {a b n it fuel : Nat} {reads : List Nat} {rs : List Rec}
  {r : Option Nat × List Nat}

/-- The bytes of the second area that `memcmp` reads: up to the first that is different (`repe cmpsb`). -/
def memcmpReads (m : Nat → UInt8) : List UInt8 → Nat → List Nat
  | [], _ => []
  | c :: cs, a => a :: if c = m a then memcmpReads m cs (a + 1) else []

/-- The record at offset `it`. -/
def entryAt (m : Nat → UInt8) (it : Nat) : DirectoryEntry := DirectoryEntry.ofBytes (advance m it)

/-- `entry->name_len == length && memcmp(name, entry->name, length) == 0` for the record at `it`. -/
def Matches (m : Nat → UInt8) (name : List UInt8) (it : Nat) : Prop :=
  (entryAt m it).nameLen = name.length ∧
    (List.range name.length).all (fun i => name.getD i 0 == m (it + DirectoryEntry.size + i))

instance : Decidable (Matches m name it) := inferInstanceAs (Decidable (_ ∧ _))

/-- The offsets that the comparison of the record at `it` reads: `name_len`, and of the name what `memcmp`
does. -/
def compareReads (m : Nat → UInt8) (name : List UInt8) (it : Nat) : List Nat :=
  (it + 6) :: if (entryAt m it).nameLen = name.length then memcmpReads m name (it + DirectoryEntry.size) else []

/-- The loop of `block_find_ino`: the record at which it stops with a match, and the offsets that it reads. Without
a result it has not come to its end. -/
def scanBlock (m : Nat → UInt8) (name : List UInt8) : Nat → Nat → Option (Option Nat × List Nat)
  | 0, _ => none
  | fuel + 1, it =>
    if it < blockSize then
      if Matches m name it then some (some it, compareReads m name it ++ [it, it + 1, it + 2, it + 3])
      else if (entryAt m it).recLen = 0 then some (none, compareReads m name it ++ [it + 4, it + 5])
      else (scanBlock m name fuel (it + (entryAt m it).recLen)).map fun r =>
        (r.1, compareReads m name it ++ [it + 4, it + 5] ++ r.2)
    else some (none, [])

/-- The inode number for where the loop has stopped. -/
def inodeOf (m : Nat → UInt8) : Option Nat → Nat
  | some it => (entryAt m it).inode
  | none => 0

theorem findEntry_succ : findEntry m name (n + 1) it =
    if it < blockSize then
      if Matches m name it then (entryAt m it).inode
      else if (entryAt m it).recLen = 0 then 0 else findEntry m name n (it + (entryAt m it).recLen)
    else 0 := rfl

/-- The loop ends, and the function returns the number for where it does. -/
theorem scanBlock_some (hpos : 0 < fuel) (hfuel : blockSize < it + fuel) (hn : blockSize ≤ it + n) :
    ∃ r, scanBlock m name fuel it = some r ∧ findEntry m name n it = inodeOf m r.1 := by
  induction fuel generalizing it n with
  | zero => exact absurd hpos (Nat.lt_irrefl 0)
  | succ fuel ih =>
    rw [scanBlock]
    split
    · rename_i hlt
      obtain ⟨n, rfl⟩ : ∃ n', n = n' + 1 := ⟨n - 1, by omega⟩
      rw [findEntry_succ, if_pos hlt]
      by_cases hm : Matches m name it
      · rw [if_pos hm, if_pos hm]
        exact ⟨_, rfl, rfl⟩
      · rw [if_neg hm, if_neg hm]
        by_cases h0 : (entryAt m it).recLen = 0
        · rw [if_pos h0, if_pos h0]
          exact ⟨_, rfl, rfl⟩
        · rw [if_neg h0, if_neg h0]
          have hn' : blockSize ≤ it + (entryAt m it).recLen + n := by omega
          obtain ⟨r, hr, he⟩ := ih (by omega) (by omega) hn'
          rw [hr]
          exact ⟨_, rfl, he⟩
    · rename_i hge
      refine ⟨_, rfl, ?_⟩
      cases n with
      | zero => rfl
      | succ n =>
        rw [findEntry_succ, if_neg hge]
        rfl

/-! ### What is inside the block -/

/-- The reads are in the block, and a number that is returned comes from a record that is in the block. -/
def Inside (m : Nat → UInt8) (name : List UInt8) (r : Option Nat × List Nat) : Prop :=
  (∀ o ∈ r.2, o < blockSize) ∧
    ∀ it, r.1 = some it → (entryAt m it).inode ≠ 0 → it + DirectoryEntry.size + name.length ≤ blockSize

/-- The scan ends and stays inside the block. -/
def Safe (m : Nat → UInt8) (name : List UInt8) : Prop :=
  ∃ r, scanBlock m name (blockSize + 1) 0 = some r ∧ findEntry m name blockSize 0 = inodeOf m r.1 ∧ Inside m name r

/-- From one record to the next. -/
def Next (m : Nat → UInt8) (name : List UInt8) (it it' : Nat) : Prop :=
  it < blockSize ∧ ¬ Matches m name it ∧ (entryAt m it).recLen ≠ 0 ∧ it' = it + (entryAt m it).recLen

/-- What is looked at of the record at `it` is in the block: `name_len` is; if that is the length of the name, the
record ends in the block or differs from the name inside of it; and if the name is empty, for which nothing is
compared, the record ends in the block or has the inode number 0. -/
structure Within (m : Nat → UInt8) (name : List UInt8) (it : Nat) : Prop where
  nameLen : it + 6 < blockSize
  text : (entryAt m it).nameLen = name.length → name = [] ∨ it + DirectoryEntry.size + name.length ≤ blockSize ∨
    ∃ i < name.length, it + DirectoryEntry.size + i < blockSize ∧ name.getD i 0 ≠ m (it + DirectoryEntry.size + i)
  empty : name = [] → (entryAt m it).nameLen = 0 → (entryAt m it).inode = 0 ∨ it + DirectoryEntry.size ≤ blockSize

theorem memcmpReads_lt : (∀ o ∈ memcmpReads m name a, o < b) ↔
    name = [] ∨ a + name.length ≤ b ∨ ∃ i < name.length, a + i < b ∧ name.getD i 0 ≠ m (a + i) := by
  induction name generalizing a with
  | nil => exact ⟨fun _ => .inl rfl, fun _ o ho => absurd ho List.not_mem_nil⟩
  | cons c cs ih =>
    rw [memcmpReads, List.forall_mem_cons]
    have hshift : ∀ i, a + (i + 1) = a + 1 + i := fun i => by omega
    constructor
    · rintro ⟨ha, hrest⟩
      refine .inr ?_
      split at hrest
      · rcases ih.1 hrest with rfl | hle | ⟨i, hi, hlt, hne⟩
        · exact .inl ha
        · exact .inl (by rw [List.length_cons]; omega)
        · refine .inr ⟨i + 1, Nat.succ_lt_succ hi, by omega, ?_⟩
          rwa [List.getD_cons_succ, hshift]
      · exact .inr ⟨0, Nat.succ_pos _, ha, ‹_›⟩
    · rintro (hnil | hle | ⟨i, hi, hlt, hne⟩)
      · cases hnil
      · rw [List.length_cons] at hle
        refine ⟨by omega, ?_⟩
        split
        · exact ih.2 (.inr (.inl (by omega)))
        · exact fun o ho => absurd ho List.not_mem_nil
      · refine ⟨by omega, ?_⟩
        split
        · rename_i hc
          cases i with
          | zero => exact absurd hc hne
          | succ i =>
            rw [List.getD_cons_succ, hshift] at hne
            exact ih.2 (.inr (.inr ⟨i, Nat.lt_of_succ_lt_succ hi, by omega, hne⟩))
        · exact fun o ho => absurd ho List.not_mem_nil

theorem compareReads_lt : (∀ o ∈ compareReads m name it, o < blockSize) ↔ it + 6 < blockSize ∧
    ((entryAt m it).nameLen = name.length → name = [] ∨ it + DirectoryEntry.size + name.length ≤ blockSize ∨
      ∃ i < name.length, it + DirectoryEntry.size + i < blockSize ∧ name.getD i 0 ≠ m (it + DirectoryEntry.size + i)) := by
  rw [compareReads, List.forall_mem_cons]
  refine and_congr_right fun _ => ?_
  split
  · rename_i hlen
    rw [memcmpReads_lt]
    exact ⟨fun h _ => h, fun h => h hlen⟩
  · rename_i hlen
    exact ⟨fun _ h => absurd h hlen, fun _ o ho => absurd ho List.not_mem_nil⟩

/-- A record of the name differs from it nowhere. -/
theorem Matches.getD (h : Matches m name it) {i : Nat} (hi : i < name.length) :
    name.getD i 0 = m (it + DirectoryEntry.size + i) :=
  beq_iff_eq.1 (List.all_eq_true.1 h.2 i (List.mem_range.2 hi))

/-- The bytes before `name_len` are in the block when it is. -/
theorem forall_mem_before {l : List Nat} (hl : ∀ o ∈ l, o < it + 6) :
    (∀ o ∈ compareReads m name it ++ l, o < blockSize) ↔ ∀ o ∈ compareReads m name it, o < blockSize := by
  refine ⟨fun h o ho => h o (List.mem_append_left _ ho), fun h o ho => ?_⟩
  rcases List.mem_append.1 ho with ho | ho
  · exact h o ho
  · have hlt : it + 6 < blockSize := (compareReads_lt.1 h).1
    have := hl o ho
    omega

theorem Matches.inside_iff (h : Matches m name it) :
    Inside m name (some it, compareReads m name it ++ [it, it + 1, it + 2, it + 3]) ↔ Within m name it := by
  rw [Inside, forall_mem_before (by simp), compareReads_lt]
  constructor
  · rintro ⟨⟨h6, hname⟩, hino⟩
    refine ⟨h6, hname, fun hnil _ => or_iff_not_imp_left.2 fun h0 => ?_⟩
    subst hnil
    exact hino it rfl h0
  · rintro ⟨h6, hname, hempty⟩
    refine ⟨⟨h6, hname⟩, fun it' he h0 => ?_⟩
    cases he
    rcases hname h.1 with rfl | hle | ⟨i, hi, -, hne⟩
    · exact (hempty rfl h.1).resolve_left h0
    · exact hle
    · exact absurd (h.getD hi) hne

theorem within_iff (h : ¬ Matches m name it) :
    (∀ o ∈ compareReads m name it ++ [it + 4, it + 5], o < blockSize) ↔ Within m name it := by
  rw [forall_mem_before (by simp), compareReads_lt]
  refine ⟨fun ⟨h6, hname⟩ => ⟨h6, hname, fun hnil hlen => ?_⟩, fun hw => ⟨hw.nameLen, hw.text⟩⟩
  subst hnil
  exact absurd ⟨hlen, rfl⟩ h

/-- Records from which the scan does not go on. -/
theorem forall_reached_of_last {P : Nat → Prop} (h : ∀ b, ¬ Next m name it b) :
    (∀ o, ReflTransGen (Next m name) it o → P o) ↔ P it := by
  refine ⟨fun hall => hall it .refl, fun hP o ho => ?_⟩
  rcases ho.cases_head with rfl | ⟨b, hb, -⟩
  · exact hP
  · exact absurd hb (h b)

theorem forall_reached_of_next {P : Nat → Prop} (h : Next m name it b) :
    (∀ o, ReflTransGen (Next m name) it o → P o) ↔ P it ∧ ∀ o, ReflTransGen (Next m name) b o → P o := by
  refine ⟨fun hall => ⟨hall it .refl, fun o ho => hall o (.head h ho)⟩, fun ⟨hP, hall⟩ o ho => ?_⟩
  rcases ho.cases_head with rfl | ⟨c, hc, ho⟩
  · exact hP
  · obtain rfl : c = b := hc.2.2.2.trans h.2.2.2.symm
    exact hall o ho

theorem inside_iff (hr : scanBlock m name fuel it = some r) : Inside m name r ↔
    ∀ o, ReflTransGen (Next m name) it o → o < blockSize → Within m name o := by
  induction fuel generalizing it r with
  | zero => cases hr
  | succ fuel ih =>
    rw [scanBlock] at hr
    split at hr
    · rename_i hlt
      split at hr
      · rename_i hm
        cases hr
        rw [forall_reached_of_last fun b hb => hb.2.1 hm, hm.inside_iff]
        exact ⟨fun h _ => h, fun h => h hlt⟩
      · rename_i hm
        split at hr
        · rename_i h0
          cases hr
          rw [forall_reached_of_last fun b hb => hb.2.2.1 h0, ← within_iff hm]
          exact ⟨fun h _ => h.1, fun h => ⟨h hlt, fun _ he => by cases he⟩⟩
        · rename_i h0
          obtain ⟨r', hr', rfl⟩ := Option.map_eq_some_iff.1 hr
          rw [forall_reached_of_next ⟨hlt, hm, h0, rfl⟩, ← ih hr', ← within_iff hm]
          simp only [Inside, List.mem_append (t := r'.2), or_imp, forall_and]
          exact ⟨fun ⟨⟨h1, h2⟩, h3⟩ => ⟨fun _ => h1, h2, h3⟩, fun ⟨h1, h2, h3⟩ => ⟨⟨h1 hlt, h2⟩, h3⟩⟩
    · rename_i hge
      cases hr
      rw [forall_reached_of_last fun b hb => hge hb.1]
      exact ⟨fun _ h => absurd h hge, fun _ => ⟨fun o ho => absurd ho List.not_mem_nil, fun _ he => by cases he⟩⟩

/-- On every content of the block the scan ends; it stays inside the block exactly if every record that it
comes to does, as far as it is looked at. -/
theorem safe_iff : Safe m name ↔ ∀ it, ReflTransGen (Next m name) 0 it → it < blockSize → Within m name it := by
  have hends : ∃ r, scanBlock m name (blockSize + 1) 0 = some r ∧ findEntry m name blockSize 0 = inodeOf m r.1 :=
    scanBlock_some (Nat.succ_pos _) (by omega) (by omega)
  obtain ⟨r, hr, he⟩ := hends
  rw [← inside_iff hr]
  constructor
  · rintro ⟨r', hr', -, h⟩
    cases hr.symm.trans hr'
    exact h
  · exact fun h => ⟨r, hr, he, h⟩

/-- A block whose first record leads to the offset 1020: the `name_len` of the next one is at 1026. -/
def straddling : Nat → UInt8 := put (fun _ => 0) 0 8 (ofWords (DirectoryEntry.words ⟨1, 1020, 0, 0⟩))

theorem not_safe_straddling : ¬ Safe straddling [97] := by
  rw [safe_iff]
  intro h
  have hnext : Next straddling [97] 0 1020 := by
    refine ⟨by decide, by decide, by decide, by decide⟩
  exact absurd (h 1020 (.single hnext) (by decide)).nameLen (by decide)

/-! ### Blocks in order -/

/-- The records of a block in order lie one behind the other. -/
theorem Tiles.within (h : Tiles m a rs 1024) {o : Nat} (ho : ReflTransGen (Next m name) a o) (hlt : o < blockSize) :
    Within m name o := by
  induction rs generalizing a with
  | nil =>
    have ha : a = 1024 := h
    rcases ho.cases_head with rfl | ⟨b, hb, -⟩
    · rw [blockSize] at hlt
      omega
    · have hb := hb.1
      rw [blockSize] at hb
      omega
  | cons r rs ih =>
    obtain ⟨hr, hlen, hrest⟩ := h
    have hle := hrest.le
    have hentry : entryAt m a = r.entry := congrArg Rec.entry hr
    have hsize : DirectoryEntry.size = 8 := rfl
    rcases ho.cases_head with rfl | ⟨b, ⟨-, -, -, rfl⟩, ho⟩
    · rw [← hentry] at hlen hle
      refine ⟨by rw [blockSize]; omega, fun hn => .inr (.inl ?_), fun _ _ => .inr ?_⟩
      · rw [blockSize]
        omega
      · rw [blockSize]
        omega
    · rw [hentry] at ho
      exact ih hrest ho

/-- On a block that the image builder has written the scan is safe for every name. -/
theorem safe_of_dirBlock (h : DirBlock m rs) : Safe m name := safe_iff.2 fun _ ho hlt => Tiles.within h.tiles ho hlt

end Airix.Axfs
