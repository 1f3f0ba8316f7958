import Airix.Mkfs.Complete

/-!
# Creating the file of a path

What `create_file_inode` is meant to do (`Created`), and the paths for which it does: those of one
component, and those for which there is nothing to create and the walk stops at an entry that the loop
finds in the root.
-/

namespace Airix.Mkfs
open Axfs Bytes Exec Finset BlockTree

variable {g : Geom} {s s' : State} {d d' : Disk} {blockNum ipg ino ft : Nat} {dst name : List UInt8}
  {path : List (List UInt8)}

/-! ### Paths -/

/-- The components of a path that starts with a separator. -/
def components (dst : List UInt8) : List (List UInt8) := (dst.drop 1).splitOn slash

/-- The path leads from the root to an inode of the type. -/
inductive Leads (d : Disk) : List (List UInt8) → Nat → Nat → Prop
  | root : Leads d [] rootIno ftDir
  | entry {path : List (List UInt8)} {dir : Nat} {q : Rec} (h : Leads d path dir ftDir)
      (hq : q ∈ d.entriesOf (d.inode dir)) : Leads d (path ++ [q.name]) q.entry.inode q.entry.fileType

def Found (d : Disk) (path : List (List UInt8)) : Prop := ∃ ino ft, Leads d path ino ft

open Classical in
/-- The path leads to a new regular file `ino`, and one entry was added for each component that did not
exist. -/
structure Created (g : Geom) (d d' : Disk) (path : List (List UInt8)) (ino : Nat) : Prop where
  file : Leads d' path ino ftRegFile
  exists_ino : 1 ≤ ino ∧ ino ≤ g.inodes
  free : d.bit .inode ((ino - 1) / g.ipg) ((ino - 1) % g.ipg) = false
  mode : (d'.inode ino).iMode = sIfreg
  entries : ∃ new : Multiset Rec, d'.allEntries g = new + d.allEntries g ∧
    new.card = #{i ∈ range path.length | ¬ Found d (path.take (i + 1))} ∧
    ∀ q ∈ new, ∃ i < path.length, path[i]? = some q.name ∧ ¬ Found d (path.take (i + 1)) ∧
      Leads d' (path.take (i + 1)) q.entry.inode q.entry.fileType

theorem Leads.inv (h : Leads d path ino ft) :
    (path = [] ∧ ino = rootIno) ∨ ∃ p dir q, path = p ++ [Rec.name q] ∧ Leads d p dir ftDir ∧
      q ∈ d.entriesOf (d.inode dir) ∧ q.entry.inode = ino ∧ q.entry.fileType = ft := by
  cases h with
  | root => exact .inl ⟨rfl, rfl⟩
  | entry h hq => exact .inr ⟨_, _, _, rfl, h, hq, rfl, rfl⟩

theorem leads_singleton : Leads d [name] ino ft ↔
    ∃ q ∈ d.entries, q.name = name ∧ q.entry.inode = ino ∧ q.entry.fileType = ft := by
  constructor
  · intro h
    obtain ⟨hnil, -⟩ | ⟨p, dir, q, hp, hdir, hq, hi, hft⟩ := h.inv
    · cases hnil
    · have hp' : p = [] ∧ name = q.name := by
        have hlen := congrArg List.length hp
        rw [List.length_append, List.length_singleton, List.length_singleton] at hlen
        have hnil : p = [] := List.eq_nil_of_length_eq_zero (by omega)
        subst hnil
        exact ⟨rfl, by simpa using hp⟩
      obtain ⟨rfl, rfl⟩ := hp'
      obtain ⟨-, rfl⟩ | ⟨p, _, q', hp', -⟩ := hdir.inv
      · exact ⟨q, hq, rfl, hi, hft⟩
      · simp at hp'
  · rintro ⟨q, hq, rfl, rfl, rfl⟩
    exact (Leads.root : Leads d [] rootIno ftDir).entry hq

theorem found_singleton : Found d [name] ↔ ∃ q ∈ d.entries, q.name = name := by
  constructor
  · rintro ⟨ino, ft, h⟩
    obtain ⟨q, hq, hn, -⟩ := leads_singleton.1 h
    exact ⟨q, hq, hn⟩
  · rintro ⟨q, hq, hn⟩
    exact ⟨_, _, leads_singleton.2 ⟨q, hq, hn, rfl, rfl⟩⟩

/-! ### On the images of the program -/

/-- A file that was added to the root, seen on the image. -/
theorem Added.created {j : Nat} (h : Added g name ftRegFile j d d') (hnew : LookedUp d name none)
    (hlen : name.length ≤ 255) (hj : j < g.ipg) (hbit : d.bit .inode 0 j = false) (himage : Image g d)
    (hs : Rep g s d) (hs' : Rep g s' d') :
    Created g (s.disk g) (s'.disk g) [name] (j + 1) ∧ d'.inode (j + 1) = (s'.disk g).inode (j + 1) := by
  obtain ⟨len, hent⟩ := h.entries
  have himage' := h.image hnew himage
  have hipg := g.ipg_le
  have hle : j + 1 ≤ g.inodes := (show j + 1 ≤ g.ipg from hj).trans (Nat.le_mul_of_pos_right _ g.groups_pos)
  have hinode : (s'.disk g).inode (j + 1) = d'.inode (j + 1) := hs'.inode _ (by omega) hle
  have hname : (newRec name ftRegFile (j + 1) len).name = name := storedName_of_le hlen
  have hE : (s.disk g).entries = d.entries := hs.disk_entries himage.inv
  have hE' : (s'.disk g).entries = newRec name ftRegFile (j + 1) len ::ₘ d.entries :=
    (hs'.disk_entries himage'.inv).trans hent
  have hleads : Leads (s'.disk g) [name] (j + 1) ftRegFile :=
    leads_singleton.2 ⟨newRec name ftRegFile (j + 1) len, by rw [hE']; exact Multiset.mem_cons_self _ _, hname, rfl, rfl⟩
  have hfound : ¬ Found (s.disk g) [name] := by
    rw [found_singleton, hE]
    rintro ⟨q, hq, hn⟩
    exact hnew q hq (hn.trans (storedName_of_le hlen).symm)
  refine ⟨⟨hleads, ⟨by omega, hle⟩, ?_, ?_, {newRec name ftRegFile (j + 1) len}, ?_, ?_, fun q hq => ?_⟩, hinode.symm⟩
  · rw [Nat.add_sub_cancel, Nat.div_eq_of_lt hj, Nat.mod_eq_of_lt hj]
    exact (hs.bit .inode 0 g.groups_pos j (by omega)).trans hbit
  · rw [hinode, h.inode]
    rfl
  · rw [hs'.disk_allEntries himage', hs.disk_allEntries himage, hent, Multiset.singleton_add]
  · have hall : ∀ i ∈ range [name].length, ¬ Found (s.disk g) ([name].take (i + 1)) := fun i _ => by
      rw [List.take_of_length_le (by simp)]
      exact hfound
    classical
    rw [filter_true_of_mem hall]
    rfl
  · obtain rfl := Multiset.mem_singleton.1 hq
    exact ⟨0, Nat.zero_lt_one, congrArg some hname.symm, hfound, hleads⟩

end Airix.Mkfs
