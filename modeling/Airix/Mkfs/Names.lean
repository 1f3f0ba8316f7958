import Airix.Axfs.Tree
import Airix.Mkfs.Inserts

/-!
# What becomes of a name

A record has one byte for the length of its name: of a name of 256 bytes or more it keeps the first
`length % 256`. The kernel compares whole lengths, so it finds such a record by another name.
-/

namespace Airix.Mkfs
open Axfs Bytes Exec Finset BlockTree

variable {g : Geom} {s s' : State} {d d' : Disk} {j p ft ino len : Nat} {name n : List UInt8}

/-- The number that `block_find_ino` finds in a block of directory `p`. -/
def FoundByKernel (d : Disk) (p : Nat) (n : List UInt8) (ino : Nat) : Prop :=
  ∃ b ∈ d.leavesAt p, findEntry (d.data b) n blockSize 0 = ino

/-- Directory `p` has a record of inode `ino` with the full name, and the kernel finds it by that name only. -/
structure Recovers (d : Disk) (p : Nat) (name : List UInt8) (ino : Nat) : Prop where
  record : ∃ q ∈ d.entriesAt p, q.entry.inode = ino ∧ q.name = name
  kernel : ∀ n ≠ [], FoundByKernel d p n ino ↔ n = name

/-- What a call of `write_entry_to_dir` that returned `ino` is to come to: nothing, or a record that the
name is recovered from. -/
def NameKept (g : Geom) (p : Nat) (name : List UInt8) (s : State) (ino : Nat) (s' : State) : Prop :=
  ino = 0 ∧ s' = s ∨ ∃ d', Rep g s' d' ∧ Recovers d' p name ino

/-- A lookup of `n` does not give the entry of inode `ino`. -/
def Apart (s : State) (p : Nat) (n : List UInt8) (ino : Nat) : Prop := ∀ e, Finds s p n (some e) → e.inode ≠ ino

theorem Recovers.length_le (h : Recovers d p name ino) : name.length ≤ 255 := by
  obtain ⟨q, hq, -, rfl⟩ := h.record
  exact Nat.le_of_lt_succ (length_lt_of_mem_names (Multiset.mem_map_of_mem _ hq))

theorem DirOk.block_unique {b : Nat} (h : DirOk g d p) (hb : b ∈ d.leavesAt p) :
    ((dirEntries (d.data b)).map Rec.name).Nodup := by
  have hle : (dirEntries (d.data b) : Multiset Rec) ≤ d.entriesAt p := Multiset.le_bind _ hb
  exact Multiset.nodup_of_le (Multiset.map_le_map hle) h.unique

/-- The kernel's search gives the number of the entry with the name. -/
theorem DirOk.foundByKernel_iff (h : DirOk g d p) (hn : n ≠ []) (hino : ino ≠ 0) :
    FoundByKernel d p n ino ↔ ∃ q ∈ d.entriesAt p, q.entry.inode = ino ∧ q.name = n := by
  constructor
  · rintro ⟨b, hb, hf⟩
    obtain ⟨rs, hrs⟩ := h.dirs b hb
    rw [findEntry_block hrs hn] at hf
    obtain ⟨q, hq, hqn, hqi⟩ := mem_of_findName (hf ▸ hino)
    exact ⟨q, mem_entriesAt.2 ⟨b, hb, hq⟩, hqi.trans hf, hqn⟩
  · rintro ⟨q, hq, rfl, rfl⟩
    obtain ⟨b, hb, hq⟩ := mem_entriesAt.1 hq
    obtain ⟨rs, hrs⟩ := h.dirs b hb
    exact ⟨b, hb, (findEntry_block hrs hn).trans (findName_of_mem (h.block_unique hb) hq)⟩

/-- An entry was added for an inode that no other entry names. -/
structure NewEntry (g : Geom) (p : Nat) (name : List UInt8) (ino : Nat) (d' : Disk) : Prop where
  ok : DirOk g d' p
  ne_zero : ino ≠ 0
  mem : ∃ q ∈ d'.entriesAt p, q.entry.inode = ino ∧ q.name = storedName name
  only : ∀ q ∈ d'.entriesAt p, q.entry.inode = ino → q.name = storedName name

theorem Rep.newEntry (hs : Rep g s d) (h : Sane g d) (h1 : 1 ≤ p) (h2 : p ≤ g.inodes) (hp : (d.inode p).iMode = sIfdir)
    (hft : ft = ftRegFile ∨ ft = ftDir) (hnew : storedName name ∉ d.names p)
    (hr : (writeEntryToDir p name ft).run s = .ok (ino, s')) : ∃ d', Rep g s' d' ∧ Sane g d' ∧
      (d'.inode p).iMode = sIfdir ∧ NewEntry g p name ino d' := by
  have hstep := h.after_writeEntryToDir (t := False) h1 h2 hp hft hnew False.elim
  obtain ⟨d', hs', hsane, hmode, ⟨j, hj, rfl, hbit, -⟩, len, hent⟩ := (hstep s hs).1 _ _ hr
  refine ⟨d', hs', hsane, hmode, hsane.directory p h1 h2 hmode, Nat.succ_ne_zero j,
    ⟨newRec name ft (j + 1) len, ?_, rfl, rfl⟩, fun q hq he => ?_⟩
  · rw [hent]
    exact Multiset.mem_cons_self _ _
  · rw [hent, Multiset.mem_cons] at hq
    rcases hq with rfl | hq
    · rfl
    · have hused := (h.directory p h1 h2 hp).used q hq j hj he
      rw [hbit] at hused
      cases hused

namespace NewEntry
variable (h : NewEntry g p name ino d')
include h

theorem recovers (hle : name.length ≤ 255) : Recovers d' p name ino := by
  have hstored := storedName_of_le hle
  obtain ⟨q, hq, hqi, hqn⟩ := h.mem
  refine ⟨⟨q, hq, hqi, hqn.trans hstored⟩, fun n hn => ?_⟩
  rw [h.ok.foundByKernel_iff hn h.ne_zero]
  constructor
  · rintro ⟨q', hq', hqi', rfl⟩
    exact (h.only q' hq' hqi').trans hstored
  · rintro rfl
    exact ⟨q, hq, hqi, hqn.trans hstored⟩

theorem apart_iff (hs' : Rep g s' d') (hsane : Sane g d') : Apart s' p n ino ↔ storedName n ≠ storedName name := by
  obtain ⟨r, hr, hl⟩ := hs'.finds hsane h.ok.pos h.ok.le h.ok.mode n
  obtain ⟨q, hq, hqi, hqn⟩ := h.mem
  constructor
  · intro ha he
    cases r with
    | none => exact hl q hq (hqn.trans he.symm)
    | some e =>
      refine ha e hr ?_
      rw [hl.entry_eq h.ok.unique hq (hqn.trans he.symm)]
      exact hqi
  · intro hne e he
    obtain rfl := hr.unique he
    obtain ⟨q', hq', rfl, hqn'⟩ := hl
    exact fun hi => hne (hqn'.symm.trans (h.only q' hq' hi))

end NewEntry

/-- On an inode that is no directory nothing is done. -/
theorem Rep.writeEntryToDir_file (hs : Rep g s d) (h : Sane g d) (h1 : 1 ≤ p) (h2 : p ≤ g.inodes)
    (hp : (d.inode p).iMode ≠ sIfdir) (hr : (writeEntryToDir p name ft).run s = .ok (ino, s')) : ino = 0 ∧ s' = s := by
  obtain ⟨inode, s₁, hi, hr⟩ := bind_ok.1 hr
  obtain ⟨_, -, hinode, -⟩ := (after_getInode (t := False) h.counts.ipg_eq h1 h2 s hs).1 _ _ hi
  have hs₁ : s₁ = s := Keeps.getInode (P := (· = s)) s inode s₁ rfl hi
  rw [hinode, if_pos hp, hs₁] at hr
  obtain ⟨rfl, rfl⟩ := pure_ok.1 hr
  exact ⟨rfl, rfl⟩

theorem Rep.finds_file (hs : Rep g s d) (h : Sane g d) (h1 : 1 ≤ p) (h2 : p ≤ g.inodes)
    (hp : (d.inode p).iMode ≠ sIfdir) {r : Option DirectoryEntry} (hf : Finds s p n r) : r = none := by
  obtain ⟨inode, s₁, hi, hr⟩ := bind_ok.1 hf
  obtain ⟨_, -, hinode, -⟩ := (after_getInode (t := False) h.counts.ipg_eq h1 h2 s hs).1 _ _ hi
  rw [hinode, if_pos hp] at hr
  exact (pure_ok.1 hr).1.symm

/-- A call of `write_entry_to_dir` for a name that a lookup did not find: a directory's record recovers the
name exactly if that has at most 255 bytes, and the lookup of another name gives the record exactly if the
parts of the two names that are stored are the same. -/
theorem nameKept_iff (hs : Rep g s d) (h : Sane g d) (h1 : 1 ≤ p) (h2 : p ≤ g.inodes)
    (hft : ft = ftRegFile ∨ ft = ftDir) (hnew : Finds s p name none)
    (hr : (writeEntryToDir p name ft).run s = .ok (ino, s')) :
    (NameKept g p name s ino s' ↔ ((d.inode p).iMode = sIfdir → name.length ≤ 255)) ∧
      ∀ n ≠ name, (Apart s' p n ino ↔ ((d.inode p).iMode = sIfdir → storedName n ≠ storedName name)) := by
  by_cases hp : (d.inode p).iMode = sIfdir
  · obtain ⟨r, hf, hl⟩ := hs.finds h h1 h2 hp name
    obtain ⟨d', hs', hsane, hmode, hne⟩ := hs.newEntry h h1 h2 hp hft (hl.none_iff.1 (hf.unique hnew)) hr
    refine ⟨?_, fun n _ => ?_⟩
    · rw [forall_prop_of_true hp]
      constructor
      · rintro (⟨h0, -⟩ | ⟨e, -, hrec⟩)
        · exact absurd h0 hne.ne_zero
        · exact hrec.length_le
      · exact fun hle => .inr ⟨d', hs', hne.recovers hle⟩
    · rw [forall_prop_of_true hp]
      exact hne.apart_iff hs' hsane
  · obtain ⟨h0, rfl⟩ := hs.writeEntryToDir_file h h1 h2 hp hr
    refine ⟨⟨fun _ hd => absurd hd hp, fun _ => .inl ⟨h0, rfl⟩⟩, fun n _ => ⟨fun _ hd => absurd hd hp, fun _ e he => ?_⟩⟩
    exact absurd (hs.finds_file h h1 h2 hp he) (Option.some_ne_none e)

/-- A file "a" in the root of a small image. -/
theorem nameKept_small : ∃ g s ino s', (mkfs 20 9).run .start = .ok ((), s) ∧
    (writeEntryToDir rootIno [97] ftRegFile).run s = .ok (ino, s') ∧ NameKept g rootIno [97] s ino s' := by
  obtain ⟨g, s, d, ino, s', hm, hs, hsane, hmode, hle, hnew, hr⟩ :=
    insert_small (show storedName [97] ∉ [dotName, dotDotName] by decide)
  obtain ⟨r, hf, hl⟩ := hs.finds hsane one_le_rootIno hle hmode [97]
  obtain rfl := hl.none_iff.2 hnew
  have hkept := (nameKept_iff hs hsane one_le_rootIno hle (.inl rfl) hf hr).1
  exact ⟨g, s, ino, s', hm, hr, hkept.2 fun _ => Nat.le_add_left 1 254⟩

/-- A name of 256 bytes is stored as an empty one. -/
theorem not_nameKept : ∃ g s ino s', (mkfs 20 9).run .start = .ok ((), s) ∧
    (writeEntryToDir rootIno (List.replicate 256 97) ftRegFile).run s = .ok (ino, s') ∧
    ¬ NameKept g rootIno (List.replicate 256 97) s ino s' := by
  have hempty : storedName (List.replicate 256 97) = [] := by
    rw [storedName, nameLenOf, List.length_replicate]
    rfl
  have hne : storedName (List.replicate 256 97) ∉ [dotName, dotDotName] := by
    rw [hempty]
    decide
  obtain ⟨g, s, d, ino, s', hm, hs, hsane, hmode, hle, hnew, hr⟩ := insert_small hne
  obtain ⟨d', hs', -, -, hent⟩ := hs.newEntry hsane one_le_rootIno hle hmode (.inl rfl) hnew hr
  refine ⟨g, s, ino, s', hm, hr, ?_⟩
  rintro (⟨h0, -⟩ | ⟨e, -, hrec⟩)
  · exact hent.ne_zero h0
  · have hlen := hrec.length_le
    rw [List.length_replicate] at hlen
    omega

end Airix.Mkfs
