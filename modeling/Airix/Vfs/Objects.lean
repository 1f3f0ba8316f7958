import Airix.Axfs.Reads
import Airix.Vfs.Model

/-!
# Allocated objects

What the allocators do to the set of objects, and the rules for the functions of `fs/fs.c` that allocate and
free one of them.
-/

namespace Airix.Axfs
open Prog

namespace Kern
variable {s : Kern} {o o' : Nat} {x : Obj}

def alloc (s : Kern) (o : Nat) (x : Obj) : Kern := { s with live := Function.update s.live o (some x) }

def free (s : Kern) (o : Nat) : Kern := { s with live := Function.update s.live o none }

@[simp] theorem alloc_live : (s.alloc o x).live o = some x := Function.update_self ..

theorem alloc_live_ne (h : o' ≠ o) : (s.alloc o x).live o' = s.live o' := Function.update_of_ne h ..

theorem alloc_free (h : s.live o = none) : (s.alloc o x).free o = s := by
  show { s with live := Function.update (Function.update s.live o (some x)) o none } = s
  rw [Function.update_idem, ← h, Function.update_eq_self]

theorem alloc_free_ne (h : o ≠ o') : (s.alloc o' x).free o = (s.free o).alloc o' x :=
  congrArg (fun f => { s with live := f }) (Function.update_comm h.symm ..)

/-- An object that is not in use is none of those that are. -/
theorem ne_of_fresh (h : (s.alloc o x).live o' = none) : o' ≠ o := fun he => by
  rw [he, alloc_live] at h
  cases h

def setFile (s : Kern) (fd : Nat) (file : Option File) : Kern := { s with files := Function.update s.files fd file }

theorem setFile_none {fd : Nat} {file : Option File} (h : s.files fd = none) :
    (s.setFile fd file).setFile fd none = s := by
  show { s with files := Function.update (Function.update s.files fd file) fd none } = s
  rw [Function.update_idem, ← h, Function.update_eq_self]

theorem Idle.alloc (h : s.Idle) : (s.alloc o x).Idle := ⟨h.held, h.good⟩

end Kern

namespace Machine
variable {m : Machine} {M : UInt8 → UInt64 → Prop} {t : Prop} {s : Kern} {o : Nat} {x : Obj}

/-- There is memory, and only so many objects are in use. -/
structure Roomy (m : Machine) (s : Kern) : Prop where
  memory : m.memory
  room : ∃ n, ∀ o, n ≤ o → s.live o = none

theorem Roomy.not_short (h : m.Roomy s) : ¬ m.Short s := by
  obtain ⟨n, hn⟩ := h.room
  rintro (hm | hfull)
  · exact hm h.memory
  · exact hfull (n + 1) (Nat.succ_ne_zero n) (hn _ (Nat.le_succ n))

theorem Roomy.alloc (h : m.Roomy s) : m.Roomy (s.alloc o x) := by
  obtain ⟨n, hn⟩ := h.room
  refine ⟨h.memory, max n (o + 1), fun o' ho' => ?_⟩
  rw [Kern.alloc_live_ne (by omega)]
  exact hn o' (by omega)

theorem runs_slabFree {cache : Cache} (h : s.live o = some (.slab cache)) :
    m.Runs M t (slabFree cache o) s (fun _ s' => s' = s.free o) :=
  Runs.perform (fun _ hn => hn h) fun _ _ ⟨_, he⟩ => he

theorem runs_kfree {size : Nat} (h : s.live o = some (.kmalloc size)) :
    m.Runs M t (kfree o) s (fun _ s' => s' = s.free o) :=
  Runs.perform (fun _ hn => hn size h) fun _ _ ⟨_, he⟩ => he

theorem runs_files {α : Type} {f : (Nat → Option File) → P α} {Q : α → Kern → Prop} (h : m.Runs M t (f s.files) s Q) :
    m.Runs M t (files >>= f) s Q :=
  (Runs.perform (fun _ => id) fun _ _ ha => ha).bind fun _ _ ⟨hr, hs⟩ => hr ▸ hs ▸ h

theorem runs_setFile {fd : Nat} {file : Option File} :
    m.Runs M t (setFile fd file) s (fun _ s' => s' = s.setFile fd file) :=
  Runs.perform (fun _ => id) fun _ _ ha => ha

end Machine

end Airix.Axfs

namespace Airix.Vfs
open Prog Axfs Axfs.Machine

variable {m : Machine} {M : UInt8 → UInt64 → Prop} {t : Prop} {s : Kern} {path : List UInt8} {α : Type}

/-- What an allocation comes to: a new object, or the null pointer for want of memory. -/
def Makes (m : Machine) (s : Kern) (x : Obj) (f : Nat → α) (r : Option α) (s' : Kern) : Prop :=
  (∃ o, o ≠ 0 ∧ s.live o = none ∧ r = some (f o) ∧ s' = s.alloc o x) ∨ (¬ m.memory ∧ r = none ∧ s' = s)

theorem runs_pathDup (ht : t → m.Roomy s) (hlen : path.length ≤ 1023) :
    m.Runs M t (pathDup path) s (Makes m s (.kmalloc (path.length + 1)) (⟨·, path⟩)) := by
  refine Runs.bind (Runs.perform (fun h hp => ?_) fun o s' ⟨_, ho⟩ => ho) fun o s' ho => ?_
  · rcases hp with hp | hp
    · omega
    · exact (ht h).not_short hp
  · rcases ho with ⟨hne, hfree, rfl⟩ | ⟨hm, rfl, rfl⟩
    · rw [if_neg hne]
      exact Runs.pure (.inl ⟨o, hne, hfree, rfl, rfl⟩)
    · exact Runs.pure (.inr ⟨hm, rfl, rfl⟩)

theorem runs_slabAlloc {cache : Cache} {f : Nat → α} (ht : t → m.Roomy s) :
    m.Runs M t (do
      let o ← slabAlloc cache
      if o ≠ 0 then return some (f o) else return none) s (Makes m s (.slab cache) f) := by
  refine Runs.bind (Runs.perform (fun h => (ht h).not_short) fun o s' ho => ho) fun o s' ho => ?_
  rcases ho with ⟨hne, hfree, rfl⟩ | ⟨hm, rfl, rfl⟩
  · rw [if_pos hne]
    exact Runs.pure (.inl ⟨o, hne, hfree, rfl, rfl⟩)
  · exact Runs.pure (.inr ⟨hm, rfl, rfl⟩)

theorem runs_allocInode (ht : t → m.Roomy s) :
    m.Runs M t allocInode s (Makes m s (.slab .inode) (⟨·, 0, 0, none⟩)) := runs_slabAlloc ht

theorem runs_vfsAllocFile (ht : t → m.Roomy s) :
    m.Runs M t vfsAllocFile s (Makes m s (.slab .file) (⟨·, none, none, 0, 0, 0⟩)) := runs_slabAlloc ht

end Airix.Vfs
