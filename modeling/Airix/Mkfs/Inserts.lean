import Airix.Mkfs.Failed

/-!
# Sequences of insertions

On an image in which every directory can be searched (`Sane`), `write_entry_to_dir` adds entries to any
directory, and `get_entry_from_dir` finds them. A record keeps the length of its name in one byte, and so
does the search: a name of 256 bytes or more is looked up by a part of it.
-/

namespace Airix.Mkfs
open Axfs Bytes Exec Finset BlockTree

variable {t : Prop} {g : Geom} {s s' : State} {d d' : Disk} {N : Multiset Nat} {j p ft ino : Nat}
  {name n : List UInt8} {r : Option DirectoryEntry}

/-! ### Images whose directories can be searched -/

/-- The names of directory `p`. -/
def Disk.names (d : Disk) (p : Nat) : Multiset (List UInt8) := (d.entriesAt p).map Rec.name

/-- Inode `p` is a directory, its blocks are filled by records of which only the last may be unused, no two
entries have one name, and none names a free inode. -/
structure DirOk (g : Geom) (d : Disk) (p : Nat) : Prop extends DirAt g d p where
  neat : d.Neat p
  unique : (d.names p).Nodup
  used : ∀ q ∈ d.entriesAt p, ∀ j < g.ipg, q.entry.inode = j + 1 → d.bit .inode 0 j = true

/-- A consistent image. -/
structure Sane (g : Geom) (d : Disk) : Prop extends Allotted g d where
  directory : ∀ p, 1 ≤ p → p ≤ g.inodes → (d.inode p).iMode = sIfdir → DirOk g d p

theorem DirOk.congr (h : DirOk g d p) (hi : d'.inode p = d.inode p)
    (hd : ∀ x ∈ d.treeOf (d.inode p), d'.data x.2 = d.data x.2)
    (hbits : ∀ j, d.bit .inode 0 j = true → d'.bit .inode 0 j = true) : DirOk g d' p := by
  have htree : d'.treeOf (d'.inode p) = d.treeOf (d.inode p) := by
    rw [hi]
    exact treeOf_congr fun l c hc => hd _ hc
  have hleaves : d'.leavesAt p = d.leavesAt p := by rw [Disk.leavesAt, htree]; rfl
  have hleaf : ∀ b ∈ d.leavesAt p, d'.data b = d.data b := fun b hb => hd _ (mem_leavesAt.1 hb)
  have hentries := entriesAt_congr hleaves hleaf
  refine ⟨⟨h.pos, h.le, hi ▸ h.mode, fun b hb => ?_, hi ▸ h.packed, fun l c hc => ?_⟩, fun b hb => ?_, ?_,
    fun q hq j hj he => hbits j (h.used q (hentries ▸ hq) j hj he)⟩
  · rw [hleaves] at hb
    rw [hleaf b hb]
    exact h.dirs b hb
  · rw [htree] at hc
    rw [ptr_congr (hd _ hc)]
    exact h.packedBlocks l c hc
  · rw [hleaves] at hb
    rw [hleaf b hb]
    exact h.neat b hb
  · rw [Disk.names, hentries]
    exact h.unique

/-- A directory without blocks. -/
theorem DirOk.of_bare (h1 : 1 ≤ p) (h2 : p ≤ g.inodes) (hm : (d.inode p).iMode = sIfdir)
    (hz : ∀ i, (d.inode p).iBlock i = 0) : DirOk g d p := by
  have htree : d.treeOf (d.inode p) = 0 := treeOf_of_zero fun i _ => hz i
  have hleaves : d.leavesAt p = 0 := by
    rw [Disk.leavesAt, htree]
    rfl
  have hentries : d.entriesAt p = 0 := by
    rw [Disk.entriesAt, hleaves]
    rfl
  refine ⟨⟨h1, h2, hm, fun b hb => ?_, fun _ i _ _ _ => hz i, fun l c hc => ?_⟩, fun b hb => ?_, ?_, fun q hq => ?_⟩
  · rw [hleaves] at hb
    exact absurd hb (Multiset.notMem_zero b)
  · rw [htree] at hc
    exact absurd hc (Multiset.notMem_zero _)
  · rw [hleaves] at hb
    exact absurd hb (Multiset.notMem_zero b)
  · rw [Disk.names, hentries]
    exact Multiset.nodup_zero
  · rw [hentries] at hq
    exact absurd hq (Multiset.notMem_zero q)

/-- The length of a name that an entry holds. -/
theorem length_lt_of_mem_names (hn : n ∈ d.names p) : n.length < 256 := by
  obtain ⟨q, hq, rfl⟩ := Multiset.mem_map.1 hn
  obtain ⟨b, -, hq⟩ := mem_entriesAt.1 hq
  have hwalk : ∀ fuel o, ∀ q ∈ walk (d.data b) fuel o, q.name.length < 256 := by
    intro fuel
    induction fuel with
    | zero => exact fun o q hq => absurd hq List.not_mem_nil
    | succ fuel ih =>
      intro o q hq
      rw [walk] at hq
      split at hq
      · rcases List.mem_cons.1 hq with rfl | hq
        · rw [recAt, List.length_map, List.length_range]
          exact Nat.mod_lt _ (by decide)
        · exact ih _ q hq
      · exact absurd hq List.not_mem_nil
  exact hwalk _ _ q (List.mem_of_mem_filter hq)

namespace Sane
variable (h : Sane g d) (h1 : 1 ≤ p) (h2 : p ≤ g.inodes) (hp : (d.inode p).iMode = sIfdir)
include h h1 h2 hp

theorem dirImage : DirImage g d p := ⟨h.toAllotted, (h.directory p h1 h2 hp).toDirAt⟩

/-- An entry added to a directory. -/
theorem after_writeEntryToDir (hft : ft = ftRegFile ∨ ft = ftDir) (hnew : storedName name ∉ d.names p) (ht : t → 0 < d.free .inode 0 ∧ 4 ≤ d.free .block 0) :
    g.After t d (writeEntryToDir p name ft) (fun r d' => Sane g d' ∧ (d'.inode p).iMode = sIfdir ∧
      (∃ j < g.ipg, r = j + 1 ∧ d.bit .inode 0 j = false ∧ d'.bit .inode 0 j = true ∧
        d'.inode r = { iMode := if ft = ftDir then sIfdir else sIfreg }) ∧
      ∃ len, d'.entriesAt p = newRec name ft r len ::ₘ d.entriesAt p) := by
  have hpd := h.dirImage h1 h2 hp
  refine (hpd.after_writeEntryToDir hft ht).mono ?_
  rintro r d' ⟨j, hj, hr, hbit, ha⟩
  subst hr
  obtain ⟨N, hev⟩ := ha.evolves
  obtain ⟨len, hent⟩ := ha.entries
  have hne : p ≠ j + 1 := hpd.ne_of_free hj hbit
  have hbits : ∀ j', d.bit .inode 0 j' = true → d'.bit .inode 0 j' = true := fun j' hb => by
    rw [ha.bits, hb, Bool.true_or]
  have hset : d'.bit .inode 0 j = true := by
    rw [ha.bits, decide_eq_true ⟨rfl, rfl⟩, Bool.or_true]
  refine ⟨⟨ha.inv.toAllotted, fun n hn1 hn2 hnm => ?_⟩, ha.inv.mode, ⟨j, hj, rfl, hbit, hset, ha.inode⟩, len, hent⟩
  rcases eq_or_ne n p with rfl | hnp
  · have hok := h.directory n h1 h2 hp
    refine ⟨ha.inv.toDirAt, hev.neat hok.neat, ?_, fun q hq j' hj' he => ?_⟩
    · rw [Disk.names, hent, Multiset.map_cons]
      exact Multiset.nodup_cons.2 ⟨hnew, hok.unique⟩
    · rw [hent, Multiset.mem_cons] at hq
      rcases hq with rfl | hq
      · obtain rfl : j = j' := Nat.succ.inj he
        simp [ha.bits]
      · exact hbits j' (hok.used q hq j' hj' he)
  · rcases eq_or_ne n (j + 1) with rfl | hnj
    · exact DirOk.of_bare hn1 hn2 hnm fun i => by rw [ha.inode]
    · have hi := hev.inode n hnp hnj
      exact (h.directory n hn1 hn2 (hi ▸ hnm)).congr hi (hev.data n hn1 hn2 hnp hnj) hbits

end Sane

/-! ### Runs of insertions -/

/-- An insertion that was made: the name, the type, and the inode number that was returned. -/
structure Insertion where
  name : List UInt8
  fileType : Nat
  ino : Nat

/-- Calls of `write_entry_to_dir` on directory `p`, one after the other, from `s` to `s'`. -/
inductive Inserts (p : Nat) : State → List Insertion → State → Prop
  | nil {s : State} : Inserts p s [] s
  | cons {s s₁ s' : State} {x : Insertion} {L : List Insertion} (hft : x.fileType = ftRegFile ∨ x.fileType = ftDir)
      (hr : (writeEntryToDir p x.name x.fileType).run s = .ok (x.ino, s₁)) (h : Inserts p s₁ L s') :
      Inserts p s (x :: L) s'

/-- The outcome of a lookup, which leaves the image as it is. -/
def Finds (s : State) (p : Nat) (n : List UInt8) (r : Option DirectoryEntry) : Prop :=
  (getEntryFromDir p n).run s = .ok (r, s)

/-- What a lookup of `n` is to answer after the insertions `L` into a directory that had the names `before`: the
inode and the type given at the insertion, the same as before, or nothing. -/
structure Answers (before : Multiset (List UInt8)) (s s' : State) (p : Nat) (L : List Insertion) (n : List UInt8) :
    Prop where
  inserted : ∀ x ∈ L, x.name = n → ∃ e, Finds s' p n (some e) ∧ e.inode = x.ino ∧ e.fileType = x.fileType
  kept : n ∈ before → ∃ e, Finds s p n (some e) ∧ Finds s' p n (some e)
  absent : n ∉ before → (∀ x ∈ L, x.name ≠ n) → Finds s' p n none

/-- What a run of insertions comes to. -/
structure Inserted (g : Geom) (p : Nat) (L : List Insertion) (d d' : Disk) : Prop where
  sane : Sane g d'
  mode : (d'.inode p).iMode = sIfdir
  inos : ∀ x ∈ L, x.ino ≠ 0
  old : ∀ q ∈ d.entriesAt p, q ∈ d'.entriesAt p
  new : ∀ x ∈ L, ∃ len, newRec x.name x.fileType x.ino len ∈ d'.entriesAt p
  only : ∀ q ∈ d'.entriesAt p, q ∈ d.entriesAt p ∨ ∃ x ∈ L, q.name = x.name

theorem Rep.inserts {L : List Insertion} (hs : Rep g s d) (h : Sane g d) (h1 : 1 ≤ p) (h2 : p ≤ g.inodes)
    (hp : (d.inode p).iMode = sIfdir) (hrun : Inserts p s L s') (hlen : ∀ x ∈ L, x.name.length < 256)
    (hnodup : (L.map Insertion.name).Nodup) (hnew : ∀ x ∈ L, x.name ∉ d.names p) :
    ∃ d', Rep g s' d' ∧ Inserted g p L d d' := by
  induction hrun generalizing d with
  | nil =>
    refine ⟨d, hs, h, hp, ?_, fun q hq => hq, ?_, fun q hq => .inl hq⟩
    all_goals exact fun x hx => absurd hx List.not_mem_nil
  | @cons s s₁ s' x L hft hr _ ih =>
    obtain ⟨hlx, hlL⟩ := List.forall_mem_cons.1 hlen
    obtain ⟨hnx, hnL⟩ := List.forall_mem_cons.1 hnew
    rw [List.map_cons, List.nodup_cons] at hnodup
    have hstored : storedName x.name = x.name := storedName_of_le (Nat.le_of_lt_succ hlx)
    have hstep := h.after_writeEntryToDir (t := False) h1 h2 hp hft (by rwa [hstored]) False.elim
    obtain ⟨d₁, hs₁, hsane, hmode, ⟨j, -, hino, -⟩, len, hent⟩ := (hstep s hs).1 _ _ hr
    have hnames : d₁.names p = x.name ::ₘ d.names p := by
      rw [Disk.names, hent, Multiset.map_cons]
      exact congrArg (· ::ₘ d.names p) hstored
    have hnL' : ∀ y ∈ L, y.name ∉ d₁.names p := by
      intro y hy hm
      rw [hnames, Multiset.mem_cons] at hm
      rcases hm with he | hm
      · exact hnodup.1 (he ▸ List.mem_map_of_mem hy)
      · exact hnL y hy hm
    obtain ⟨d', hs', hins⟩ := ih hs₁ hsane hmode hlL hnodup.2 hnL'
    have hold : ∀ q, q ∈ d₁.entriesAt p ↔ q = newRec x.name x.fileType x.ino len ∨ q ∈ d.entriesAt p := by
      intro q
      rw [hent, Multiset.mem_cons]
    refine ⟨d', hs', hins.sane, hins.mode, ?_, fun q hq => hins.old q ((hold q).2 (.inr hq)), ?_, fun q hq => ?_⟩
    · exact List.forall_mem_cons.2 ⟨hino ▸ Nat.succ_ne_zero j, hins.inos⟩
    · exact List.forall_mem_cons.2 ⟨⟨len, hins.old _ ((hold _).2 (.inl rfl))⟩, hins.new⟩
    · rcases hins.only q hq with hq | ⟨y, hy, he⟩
      · rcases (hold q).1 hq with rfl | hq
        · exact .inr ⟨x, List.mem_cons_self, hstored⟩
        · exact .inl hq
      · exact .inr ⟨y, List.mem_cons_of_mem _ hy, he⟩

/-- A lookup on a sane image. -/
theorem Rep.finds (hs : Rep g s d) (h : Sane g d) (h1 : 1 ≤ p) (h2 : p ≤ g.inodes) (hp : (d.inode p).iMode = sIfdir)
    (n : List UInt8) : ∃ r, Finds s p n r ∧ LookedUpAt d p n r := by
  have hget : g.After True d (getEntryFromDir p n) fun r d' => d' = d ∧ LookedUpAt d p n r :=
    (h.dirImage h1 h2 hp).after_getEntryFromDir
  obtain ⟨⟨r, s₁⟩, hr⟩ := (hget s hs).2 trivial
  obtain ⟨_, -, -, hl⟩ := (hget s hs).1 _ _ hr
  obtain rfl : s₁ = s := Keeps.getEntryFromDir (P := (· = s)) s r s₁ rfl hr
  exact ⟨r, hr, hl⟩

theorem Finds.unique {r' : Option DirectoryEntry} (h : Finds s p n r) (h' : Finds s p n r') : r = r' := by
  have he := h.symm.trans h'
  cases he
  rfl

/-- In a directory without two entries of one name, the entry that a lookup gives is the one with the name. -/
theorem LookedUpAt.entry_eq {q : Rec} {e : DirectoryEntry} (hl : LookedUpAt d p n (some e)) (hd : (d.names p).Nodup)
    (hq : q ∈ d.entriesAt p) (hn : q.name = storedName n) : e = q.entry := by
  obtain ⟨q', hq', he, hn'⟩ := hl
  obtain rfl : q' = q := Multiset.inj_on_of_nodup_map hd _ hq' _ hq (hn'.trans hn.symm)
  exact he.symm

/-- A lookup of a name by which no entry is stored. -/
theorem LookedUpAt.none_iff (hl : LookedUpAt d p n r) : r = none ↔ storedName n ∉ d.names p := by
  cases r with
  | none =>
    refine ⟨fun _ hm => ?_, fun _ => rfl⟩
    obtain ⟨q, hq, he⟩ := Multiset.mem_map.1 hm
    exact hl q hq he
  | some e =>
    obtain ⟨q, hq, -, hn⟩ := hl
    exact ⟨fun h => absurd h (Option.some_ne_none e), fun h => absurd (Multiset.mem_map.2 ⟨q, hq, hn⟩) h⟩

namespace Inserted
variable {L : List Insertion} (hins : Inserted g p L d d') (h1 : 1 ≤ p) (h2 : p ≤ g.inodes)
include hins h1 h2

theorem unique : (d'.names p).Nodup := (hins.sane.directory p h1 h2 hins.mode).unique

omit h1 h2 in
/-- The names after the insertions. -/
theorem mem_names (hlen : ∀ x ∈ L, x.name.length < 256) : n ∈ d'.names p ↔ n ∈ d.names p ∨ ∃ x ∈ L, x.name = n := by
  constructor
  · intro hn
    obtain ⟨q, hq, rfl⟩ := Multiset.mem_map.1 hn
    rcases hins.only q hq with hq | ⟨x, hx, he⟩
    · exact .inl (Multiset.mem_map_of_mem _ hq)
    · exact .inr ⟨x, hx, he.symm⟩
  · rintro (hn | ⟨x, hx, rfl⟩)
    · obtain ⟨q, hq, rfl⟩ := Multiset.mem_map.1 hn
      exact Multiset.mem_map_of_mem _ (hins.old q hq)
    · obtain ⟨len, hm⟩ := hins.new x hx
      have hstored : (newRec x.name x.fileType x.ino len).name = x.name := storedName_of_le (Nat.le_of_lt_succ (hlen x hx))
      exact hstored ▸ Multiset.mem_map_of_mem Rec.name hm

/-- The answers for one name are right exactly when the search compares the whole name, or finds nothing. -/
theorem answers_iff (hs : Rep g s d) (hs' : Rep g s' d') (h : Sane g d) (hp : (d.inode p).iMode = sIfdir)
    (hlen : ∀ x ∈ L, x.name.length < 256) :
    Answers (d.names p) s s' p L n ↔ (n.length ≤ 255 ∨ storedName n ∉ d'.names p) := by
  obtain ⟨r, hr, hl⟩ := hs.finds h h1 h2 hp n
  obtain ⟨r', hr', hl'⟩ := hs'.finds hins.sane h1 h2 hins.mode n
  have hun := hins.unique h1 h2
  have hmem := hins.mem_names hlen (n := n)
  constructor
  · intro ha
    by_contra hor
    rw [not_or, not_le, not_not] at hor
    have hbefore : n ∉ d.names p := fun hn => by
      have := length_lt_of_mem_names hn
      omega
    have hnot : ∀ x ∈ L, x.name ≠ n := fun x hx he => by
      have hx := hlen x hx
      rw [he] at hx
      omega
    exact hl'.none_iff.1 (hr'.unique (ha.absent hbefore hnot)) hor.2
  · intro hor
    -- a name that is stored is looked up by itself
    have hstored : n ∈ d'.names p → n.length ≤ 255 := fun hn =>
      Nat.le_of_lt_succ (length_lt_of_mem_names hn)
    refine ⟨fun x hx he => ?_, fun hn => ?_, fun hn hnot => ?_⟩
    · subst he
      obtain ⟨len, hm⟩ := hins.new x hx
      have hx' := hmem.2 (.inr ⟨x, hx, rfl⟩)
      have heq := storedName_of_le (hstored hx')
      cases r' with
      | none => exact absurd (by rwa [heq]) (hl'.none_iff.1 rfl)
      | some e =>
        refine ⟨e, hr', ?_⟩
        rw [hl'.entry_eq hun hm rfl]
        exact ⟨rfl, rfl⟩
    · have hn' := hmem.2 (.inl hn)
      have heq := storedName_of_le (hstored hn')
      cases r with
      | none => exact absurd (by rwa [heq]) (hl.none_iff.1 rfl)
      | some e =>
        cases r' with
        | none => exact absurd (by rwa [heq]) (hl'.none_iff.1 rfl)
        | some e' =>
          obtain ⟨q, hq, he, hqn⟩ := hl
          obtain rfl : e' = e := (hl'.entry_eq hun (hins.old q hq) hqn).trans he
          exact ⟨e', hr, hr'⟩
    · have hn' : n ∉ d'.names p := fun hm => (hmem.1 hm).elim hn fun ⟨x, hx, he⟩ => hnot x hx he
      have hnone : storedName n ∉ d'.names p := by
        rcases hor with hle | hout
        · rwa [storedName_of_le hle]
        · exact hout
      rw [← hl'.none_iff.2 hnone]
      exact hr'

end Inserted

/-- A new image is one to start from. -/
theorem RootOnly.sane {f : Nat → UInt8} (h : RootOnly g j f d) (hsb : d.sb = d.mem) : Sane g d := by
  have himage := h.image hsb
  have hdir := himage.inv.dirImage
  refine ⟨hdir.toAllotted, fun p h1 h2 hp => ?_⟩
  rcases eq_or_ne p rootIno with rfl | hne
  · refine ⟨hdir.toDirAt, fun b hb => ?_, himage.unique, fun q hq j' _ he => (h.inodes 0 j').2 ⟨rfl, ?_⟩⟩
    · rw [mem_leavesAt, h.tree, Multiset.mem_singleton, Prod.mk.injEq] at hb
      have hpre : ∀ r ∈ [newRec dotName ftDir rootIno (recLenOf dotName),
          newRec dotDotName ftDir rootIno (recLenOf dotDotName)], r.entry.fileType ≠ ftUnknown := by decide
      have hlast : LastUnknown rootRecs := LastUnknown.append hpre (LastUnknown.of_length (Nat.le_refl 1))
      exact ⟨rootRecs, by rw [hb.2, h.block_eq]; exact h.recs, hlast⟩
    · have hq : q ∈ d.entries := hq
      rw [h.entries] at hq
      have hroot : ∀ q ∈ [newRec dotName ftDir rootIno (recLenOf dotName),
          newRec dotDotName ftDir rootIno (recLenOf dotDotName)], q.entry.inode = 1 := by decide
      have := hroot q hq
      omega
  · rw [h.other p hne] at hp
    exact absurd hp (by decide)

/-- A new file in the root of a small image. -/
theorem insert_small (hname : storedName name ∉ [dotName, dotDotName]) : ∃ g s d ino s',
    (mkfs 20 9).run .start = .ok ((), s) ∧ Rep g s d ∧ Sane g d ∧ (d.inode rootIno).iMode = sIfdir ∧
    rootIno ≤ g.inodes ∧ storedName name ∉ d.names rootIno ∧
    (writeEntryToDir rootIno name ftRegFile).run s = .ok (ino, s') := by
  have hroom : ∀ k < groupsOf 19, usedOf 19 9 k < min 8192 (19 - 8192 * k) := by decide
  obtain ⟨s, d, hr, hs, ⟨j, f, hroot⟩, hsb⟩ := mkfs_ok ⟨19, 9, by decide, by decide, by decide, by decide, hroom⟩
  have hsane := hroot.sane hsb
  have hmode := (hroot.image hsb).inv.dir.mode
  have hnew : storedName name ∉ d.names rootIno := by
    have hent : d.entriesAt rootIno = _ := hroot.entries
    rw [Disk.names, hent, Multiset.map_coe, Multiset.mem_coe]
    exact hname
  have hfree : 0 < d.free .inode 0 ∧ 4 ≤ d.free .block 0 := by
    rw [hroot.free_inode, hroot.free_block]
    show 0 < 9 - 1 ∧ 4 ≤ min 8192 (19 - 8192 * 0) - usedOf 19 9 0 - 1
    decide
  have hstep := hsane.after_writeEntryToDir (t := True) one_le_rootIno rootIno_le hmode (.inl rfl) hnew fun _ => hfree
  obtain ⟨⟨ino, s'⟩, hr'⟩ := (hstep s hs).2 trivial
  exact ⟨_, s, d, ino, s', hr, hs, hsane, hmode, rootIno_le, hnew, hr'⟩

theorem storedName_a : storedName [97] = [97] := rfl

/-- After any run of insertions into a directory of a consistent image, the image is consistent; a lookup
answers as it should exactly if the name has at most 255 bytes or the part of it that is compared is no
entry's name; and the next insertion goes through while the first block group has a free inode and the
blocks that an entry may need. -/
theorem insertLookup_iff {L : List Insertion} (hs : Rep g s d) (h : Sane g d) (h1 : 1 ≤ p) (h2 : p ≤ g.inodes)
    (hp : (d.inode p).iMode = sIfdir) (hrun : Inserts p s L s')
    (hlen : ∀ x ∈ L, 1 ≤ x.name.length ∧ x.name.length ≤ 255) (hnodup : (L.map Insertion.name).Nodup)
    (hnew : ∀ x ∈ L, x.name ∉ d.names p) :
    ∃ d', Rep g s' d' ∧ Sane g d' ∧ d'.Neat p ∧ (∀ x ∈ L, x.ino ≠ 0) ∧
      (∀ n, Answers (d.names p) s s' p L n ↔ (n.length ≤ 255 ∨ storedName n ∉ d'.names p)) ∧
      (0 < d'.free .inode 0 → 4 ≤ d'.free .block 0 → ∀ name ft, (ft = ftRegFile ∨ ft = ftDir) → name.length ≤ 255 →
        name ∉ d'.names p → ∃ ino s'', ino ≠ 0 ∧ (writeEntryToDir p name ft).run s' = .ok (ino, s'')) := by
  have hlt : ∀ x ∈ L, x.name.length < 256 := fun x hx => Nat.lt_succ_of_le (hlen x hx).2
  obtain ⟨d', hs', hins⟩ := hs.inserts h h1 h2 hp hrun hlt hnodup hnew
  refine ⟨d', hs', hins.sane, (hins.sane.directory p h1 h2 hins.mode).neat, hins.inos, fun n => ?_,
    fun hfi hfb name ft hft hnl hnn => ?_⟩
  · exact hins.answers_iff h1 h2 hs hs' h hp hlt
  · have hstep := hins.sane.after_writeEntryToDir (t := True) h1 h2 hins.mode hft (by rwa [storedName_of_le hnl])
      fun _ => ⟨hfi, hfb⟩
    obtain ⟨⟨ino, s''⟩, hr⟩ := (hstep s' hs').2 trivial
    obtain ⟨-, -, -, -, ⟨j, -, hino, -⟩, -⟩ := (hstep s' hs').1 _ _ hr
    exact ⟨ino, s'', hino ▸ Nat.succ_ne_zero j, hr⟩

/-- The file "a" in the root of a small image. -/
theorem insertLookup_small : ∃ g s d ino s', (mkfs 20 9).run .start = .ok ((), s) ∧ Rep g s d ∧ Sane g d ∧
    (writeEntryToDir rootIno [97] ftRegFile).run s = .ok (ino, s') ∧
    ∃ d', Rep g s' d' ∧ Sane g d' ∧ d'.Neat rootIno ∧
      ∀ n, Answers (d.names rootIno) s s' rootIno [⟨[97], ftRegFile, ino⟩] n ↔
        (n.length ≤ 255 ∨ storedName n ∉ d'.names rootIno) := by
  have hne : storedName [97] ∉ [dotName, dotDotName] := by decide
  obtain ⟨g, s, d, ino, s', hm, hs, hsane, hmode, hle, hnew, hr⟩ := insert_small hne
  rw [storedName_a] at hnew
  have hrun : Inserts rootIno s [⟨[97], ftRegFile, ino⟩] s' := .cons (.inl rfl) hr .nil
  obtain ⟨d', hs', hsane', hneat, -, hiff, -⟩ := insertLookup_iff hs hsane one_le_rootIno hle hmode hrun
    (fun x hx => by rw [List.mem_singleton.1 hx]; exact ⟨Nat.le_refl 1, Nat.le_add_left 1 254⟩)
    (List.nodup_singleton _) (fun x hx => by rw [List.mem_singleton.1 hx]; exact hnew)
  exact ⟨g, s, d, ino, s', hm, hs, hsane, hr, d', hs', hsane', hneat, hiff⟩

/-- After "a" was added, a name of 257 bytes that was never added is found: the first of them, its length
modulo 256, is "a". -/
theorem not_insertLookup : ∃ g s d ino s', (mkfs 20 9).run .start = .ok ((), s) ∧ Rep g s d ∧ Sane g d ∧
    (writeEntryToDir rootIno [97] ftRegFile).run s = .ok (ino, s') ∧
    ¬ Answers (d.names rootIno) s s' rootIno [⟨[97], ftRegFile, ino⟩] (97 :: List.replicate 256 98) := by
  have hne : storedName [97] ∉ [dotName, dotDotName] := by decide
  obtain ⟨g, s, d, ino, s', hm, hs, hsane, hmode, hle, hnew, hr⟩ := insert_small hne
  rw [storedName_a] at hnew
  have hrun : Inserts rootIno s [⟨[97], ftRegFile, ino⟩] s' := .cons (.inl rfl) hr .nil
  have hlen : ∀ x ∈ [Insertion.mk [97] ftRegFile ino], x.name.length < 256 := by
    intro x hx
    rw [List.mem_singleton.1 hx]
    exact Nat.lt_add_left 254 (Nat.lt_succ_self 1)
  obtain ⟨d', hs', hins⟩ := hs.inserts hsane one_le_rootIno hle hmode hrun hlen (List.nodup_singleton _)
    fun x hx => by rw [List.mem_singleton.1 hx]; exact hnew
  refine ⟨g, s, d, ino, s', hm, hs, hsane, hr, fun ha => ?_⟩
  have hstored : storedName (97 :: List.replicate 256 98) = [97] := by
    rw [storedName, nameLenOf, List.length_cons, List.length_replicate]
    rfl
  have hmem : [97] ∈ d'.names rootIno := (hins.mem_names hlen).2 (.inr ⟨_, List.mem_singleton_self _, rfl⟩)
  rcases (hins.answers_iff one_le_rootIno hle hs hs' hsane hmode hlen).1 ha with hlong | hnone
  · rw [List.length_cons, List.length_replicate] at hlong
    omega
  · exact hnone (hstored ▸ hmem)

end Airix.Mkfs
