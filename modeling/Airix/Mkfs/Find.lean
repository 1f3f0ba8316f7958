import Airix.Mkfs.Dirs

/-!
# Looking up a name in a directory

`get_entry_from_dir` finds an entry of the directory with the given name, if there is one. The search
stops at the first pointer that is 0, and all pointers behind it are 0 too.
-/

namespace Airix.Mkfs
open Axfs Bytes Exec Finset BlockTree

variable {t : Prop} {g : Geom} {d d' : Disk} {b c i j l n p : Nat} {f : Nat → UInt8} {name : List UInt8}
  {r : Option DirectoryEntry}

/-- The outcome of a search in the directory blocks of a tree. -/
def FoundBelow (d : Disk) (name : List UInt8) (T : Multiset (Nat × Nat)) : Option DirectoryEntry → Prop
  | some e => ∃ c, (0, c) ∈ T ∧ ∃ q ∈ dirEntries (d.data c), q.entry = e ∧ q.name = storedName name
  | none => ∀ c, (0, c) ∈ T → ∀ q ∈ dirEntries (d.data c), q.name ≠ storedName name

/-- What a search below a block of height `l` comes to. -/
def GetSpec (t : Prop) (g : Geom) (p : Nat) (name : List UInt8) (l : Nat) (getter : Nat → M (Option DirectoryEntry)) : Prop :=
  ∀ d b, DirImage g d p → (l, b) ∈ d.treeOf (d.inode p) →
    g.After t d (getter b) (fun r d' => d' = d ∧ FoundBelow d name (nodes d.ptr 256 l b) r)

theorem getSpec_dir : GetSpec t g p name 0 (getDirEntryFromBlock name) := by
  intro d b h hb
  obtain ⟨rs, hrs⟩ := h.dirs b (mem_leavesAt.2 hb)
  have hdata : g.IsData b := h.isData_of_mem hb
  have hent := hrs.tiles.dirEntries_eq
  refine (after_getDirEntryFromBlock hdata hrs).mono ?_
  rintro r d' ⟨hd, hr⟩
  refine ⟨hd, ?_⟩
  cases r with
  | some e =>
    obtain ⟨q, hq, he, hft, hn⟩ := hr
    refine ⟨b, nodes_self, q, ?_, he, hn⟩
    rw [hent, List.mem_filter]
    exact ⟨hq, by simpa using hft⟩
  | none =>
    intro c hc q hq
    obtain rfl : c = b := by simpa [nodes] using hc
    rw [hent, List.mem_filter] at hq
    exact hr q hq.1 (by simpa using hq.2)

/-- The outcomes of the trees that hang from the first elements of an array, up to element `i`. -/
theorem FoundBelow.of_prefix {num : Nat} {height arr : Nat → Nat}
    (h : ∀ i' < i, FoundBelow d name (nodes d.ptr 256 (height i') (arr i')) none)
    (hzero : ∀ i', i ≤ i' → i' < num → arr i' = 0) :
    FoundBelow d name (forest d.ptr 256 num height arr) none := by
  intro c hc
  obtain ⟨i', hi', hne, hm⟩ := mem_forest.1 hc
  rcases Nat.lt_or_ge i' i with hlt | hge
  · exact h i' hlt c hm
  · exact absurd (hzero i' hge hi') hne

theorem FoundBelow.some_mono {e : DirectoryEntry} {T T' : Multiset (Nat × Nat)} (h : FoundBelow d name T (some e))
    (hT : ∀ x ∈ T, x ∈ T') : FoundBelow d name T' (some e) := by
  obtain ⟨c, hc, hq⟩ := h
  exact ⟨c, hT _ hc, hq⟩

/-- The loop over the pointers of an indirect block. -/
theorem after_getDirEntryFromPointers {getter : Nat → M (Option DirectoryEntry)} (hget : GetSpec t g p name l getter)
    (h : DirImage g d p) (hc : (l + 1, c) ∈ d.treeOf (d.inode p)) {n : Nat} (hn : i + n = 256)
    (hpre : ∀ i' < i, FoundBelow d name (nodes d.ptr 256 l (d.ptr c i')) none) :
    g.After t d (getDirEntryFromPointers getter ((List.range' i n).map (d.ptr c)))
      (fun r d' => d' = d ∧ FoundBelow d name (nodes d.ptr 256 (l + 1) c) r) := by
  have hsucc : ∀ r, FoundBelow d name (forest d.ptr 256 256 (fun _ => l) (d.ptr c)) r →
      FoundBelow d name (nodes d.ptr 256 (l + 1) c) r := by
    intro r hr
    rw [nodes_succ]
    cases r with
    | some e => exact hr.some_mono fun x hx => Multiset.mem_cons_of_mem hx
    | none =>
      intro c' hc'
      rcases Multiset.mem_cons.1 hc' with he | hc'
      · cases he
      · exact hr c' hc'
  induction n generalizing i with
  | zero =>
    refine After.pure ⟨rfl, hsucc none ?_⟩
    exact FoundBelow.of_prefix hpre fun i' hi' hlt => by omega
  | succ n ih =>
    rw [List.range'_succ, List.map_cons, getDirEntryFromPointers]
    rcases eq_or_ne (d.ptr c i) 0 with h0 | hne
    · rw [if_pos h0]
      refine After.pure ⟨rfl, hsucc none ?_⟩
      exact FoundBelow.of_prefix hpre fun i' hi' hlt => h.packedBlocks l c hc i i' hi' hlt h0
    · rw [if_neg hne]
      refine (hget d _ h (mem_forest_of_child hc (by omega) hne)).bind ?_
      rintro r d' ⟨hd, hr⟩
      subst hd
      cases r with
      | some e =>
        refine After.pure ⟨rfl, hsucc _ (hr.some_mono fun x hx => ?_)⟩
        exact mem_forest.2 ⟨i, by omega, hne, hx⟩
      | none =>
        refine ih (by omega) fun i' hi' => ?_
        rcases Nat.lt_or_ge i' i with hlt | hge
        · exact hpre i' hlt
        · obtain rfl : i' = i := by omega
          exact hr

theorem getSpec_indirect {getter : Nat → M (Option DirectoryEntry)} (hget : GetSpec t g p name l getter) :
    GetSpec t g p name (l + 1) (getDirEntryFromIndirectBlock getter) := by
  intro d b h hb
  have hdata : g.IsData b := h.isData_of_mem hb
  refine (after_readBlockData hdata).bind ?_
  rintro f d' ⟨hd, hf⟩
  subst hd
  have hmap : (List.range (blockSize / 4)).map (wordsOf f) = (List.range' 0 256).map (d'.ptr b) := by
    rw [show blockSize / 4 = 256 from rfl, List.range_eq_range']
    refine List.map_congr_left fun i hi => wordsOf_congr (n := 256) hf ?_
    simpa using (List.mem_range'_1.1 hi).2
  rw [hmap]
  exact after_getDirEntryFromPointers hget h hb rfl fun i' hi' => absurd hi' (Nat.not_lt_zero _)

theorem getSpec_1 : GetSpec t g p name 1 (getDirEntryFrom1IndirectBlock name) := getSpec_indirect getSpec_dir
theorem getSpec_2 : GetSpec t g p name 2 (getDirEntryFrom2IndirectBlock name) := getSpec_indirect getSpec_1
theorem getSpec_3 : GetSpec t g p name 3 (getDirEntryFrom3IndirectBlock name) := getSpec_indirect getSpec_2

/-- The outcome of a lookup in directory `p`. -/
def LookedUpAt (d : Disk) (p : Nat) (name : List UInt8) : Option DirectoryEntry → Prop
  | some e => ∃ q ∈ d.entriesAt p, q.entry = e ∧ q.name = storedName name
  | none => ∀ q ∈ d.entriesAt p, q.name ≠ storedName name

theorem FoundBelow.lookedUp (h : FoundBelow d name (d.treeOf (d.inode p)) r) : LookedUpAt d p name r := by
  cases r with
  | some e =>
    obtain ⟨c, hc, q, hq, he⟩ := h
    exact ⟨q, mem_entriesAt.2 ⟨c, mem_leavesAt.2 hc, hq⟩, he⟩
  | none =>
    intro q hq
    obtain ⟨c, hc, hq⟩ := mem_entriesAt.1 hq
    exact h c (mem_leavesAt.1 hc) q hq

/-- The loop over the direct blocks. -/
theorem DirImage.after_getEntryFromDirect (h : DirImage g d p) {n : Nat} (hn : i + n = 21)
    (hpre : ∀ i' < i, FoundBelow d name (nodes d.ptr 256 (i' - 20) ((d.inode p).iBlock i')) none) :
    g.After t d (getEntryFromDirect name ((List.range' i n).map (d.inode p).iBlock)) (fun r d' => d' = d ∧
      match r with
      | some r => LookedUpAt d p name r
      | none => ∀ i < 21, FoundBelow d name (nodes d.ptr 256 (i - 20) ((d.inode p).iBlock i)) none) := by
  induction n generalizing i with
  | zero => exact After.pure ⟨rfl, fun i' hi' => hpre i' (by omega)⟩
  | succ n ih =>
    rw [List.range'_succ, List.map_cons, getEntryFromDirect]
    rcases eq_or_ne ((d.inode p).iBlock i) 0 with h0 | hne
    · rw [if_pos h0]
      refine After.pure ⟨rfl, FoundBelow.lookedUp (r := none) ?_⟩
      exact FoundBelow.of_prefix hpre fun i' hi' hlt => h.packed i i' hi' hlt h0
    · rw [if_neg hne]
      have hlev : i - 20 = 0 := by omega
      have hm : ((d.inode p).iBlock i) ∈ d.leavesAt p :=
        mem_leavesAt.2 (mem_forest.2 ⟨i, by omega, hne, by rw [hlev]; exact nodes_self⟩)
      refine (getSpec_dir d _ h (mem_leavesAt.1 hm)).bind ?_
      rintro r d' ⟨hd, hr⟩
      subst hd
      cases r with
      | some e =>
        refine After.pure ⟨rfl, FoundBelow.lookedUp (r := some e) (hr.some_mono fun x hx => ?_)⟩
        exact mem_forest.2 ⟨i, by omega, hne, by rw [hlev]; exact hx⟩
      | none =>
        refine ih (by omega) fun i' hi' => ?_
        rcases Nat.lt_or_ge i' i with hlt | hge
        · exact hpre i' hlt
        · obtain rfl : i' = i := by omega
          rw [hlev]
          exact hr

/-- One of the last three pointers. -/
theorem after_getEntryFromIndirect {getter : Nat → M (Option DirectoryEntry)} (h : DirImage g d p) (hi : i < 24)
    (hget : GetSpec t g p name (i - 20) getter) :
    g.After t d (getEntryFromIndirect getter ((d.inode p).iBlock i)) (fun r d' => d' = d ∧
      match r with
      | some e => LookedUpAt d p name (some e)
      | none => (d.inode p).iBlock i = 0 ∨
          FoundBelow d name (nodes d.ptr 256 (i - 20) ((d.inode p).iBlock i)) none) := by
  rw [getEntryFromIndirect]
  split
  · rename_i hne
    have hm : (i - 20, (d.inode p).iBlock i) ∈ d.treeOf (d.inode p) :=
      mem_forest.2 ⟨i, hi, hne, nodes_self⟩
    refine (hget d _ h hm).mono ?_
    rintro r d' ⟨hd, hr⟩
    refine ⟨hd, ?_⟩
    cases r with
    | some e => exact (hr.some_mono fun x hx => mem_forest.2 ⟨i, hi, hne, hx⟩).lookedUp
    | none => exact .inr hr
  · rename_i h0
    exact After.pure ⟨rfl, .inl (not_not.1 h0)⟩

theorem DirImage.after_getEntryFromDir (h : DirImage g d p) :
    g.After t d (getEntryFromDir p name) (fun r d' => d' = d ∧ LookedUpAt d p name r) := by
  refine (after_getInode h.counts.ipg_eq h.pos h.le).bind ?_
  rintro inode d' ⟨hi, hd⟩
  subst hi hd
  rw [if_neg (not_not.2 h.mode), List.range_eq_range']
  refine (after_getEntryFromDirect h rfl fun i' hi' => absurd hi' (Nat.not_lt_zero _)).bind ?_
  rintro r d₁ ⟨hd, hr⟩
  subst hd
  cases r with
  | some r => exact After.pure ⟨rfl, hr⟩
  | none =>
    refine (after_getEntryFromIndirect h (i := 21) (by omega) getSpec_1).bind ?_
    rintro r d₂ ⟨hd, hr₁⟩
    subst hd
    cases r with
    | some e => exact After.pure ⟨rfl, hr₁⟩
    | none =>
      refine (after_getEntryFromIndirect h (i := 22) (by omega) getSpec_2).bind ?_
      rintro r d₃ ⟨hd, hr₂⟩
      subst hd
      cases r with
      | some e => exact After.pure ⟨rfl, hr₂⟩
      | none =>
        refine (after_getEntryFromIndirect h (i := 23) (by omega) getSpec_3).mono ?_
        rintro r d₄ ⟨hd, hr₃⟩
        refine ⟨hd, ?_⟩
        cases r with
        | some e => exact hr₃
        | none =>
          refine FoundBelow.lookedUp (r := none) fun c hc => ?_
          obtain ⟨i, hi, hne, hm⟩ := mem_forest.1 hc
          rcases Nat.lt_or_ge i 21 with hlt | hge
          · exact hr i hlt c hm
          · obtain rfl | rfl | rfl : i = 21 ∨ i = 22 ∨ i = 23 := by omega
            · exact hr₁.resolve_left hne c hm
            · exact hr₂.resolve_left hne c hm
            · exact hr₃.resolve_left hne c hm

end Airix.Mkfs
