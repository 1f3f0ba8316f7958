import Airix.Mkfs.Entry
import Airix.Mkfs.Find

/-!
# The root directory: looking up and adding names

`get_entry_from_dir` and `write_entry_to_dir` on the root, for images that the invariant holds of.
-/

namespace Airix.Mkfs
open Axfs Bytes Exec Finset BlockTree

variable {t : Prop} {g : Geom} {d d' : Disk} {j ft : Nat} {name : List UInt8} {r : Option DirectoryEntry}

/-- The outcome of a lookup in the root directory. -/
def LookedUp (d : Disk) (name : List UInt8) : Option DirectoryEntry → Prop
  | some e => ∃ q ∈ d.entries, q.entry = e ∧ q.name = storedName name
  | none => ∀ q ∈ d.entries, q.name ≠ storedName name

theorem after_getEntryFromDir (h : Inv g d 0) :
    g.After t d (getEntryFromDir rootIno name) (fun r d' => d' = d ∧ LookedUp d name r) := by
  refine h.dirImage.after_getEntryFromDir.mono ?_
  rintro r d' ⟨hd, hr⟩
  refine ⟨hd, ?_⟩
  cases r <;> exact hr

theorem after_writeEntryToDir (h : Inv g d 0) (hft : ft = ftRegFile ∨ ft = ftDir)
    (hname : ∀ j len, (newRec name ft (j + 1) len).Named) (ht : t → 0 < d.free .inode 0 ∧ 4 ≤ d.free .block 0) :
    g.After t d (writeEntryToDir rootIno name ft) (fun r d' =>
      ∃ j < g.ipg, r = j + 1 ∧ d.bit .inode 0 j = false ∧ Added g name ft j d d') := by
  refine (h.dirImage.after_writeEntryToDir hft ht).mono ?_
  rintro r d' ⟨j, hj, hr, hbit, ha⟩
  exact ⟨j, hj, hr, hbit, ha.added h hj hbit (hname j)⟩

end Airix.Mkfs
