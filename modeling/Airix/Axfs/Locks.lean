import Airix.Axfs.Model

/-!
# The file system never holds and waits

The calls are answered in any way at all; only which bios the process holds is kept account of. `Kept` says
what the code does with them at every call, and what an operation leaves behind.
-/

namespace Airix.Axfs
open Prog

/-- The bios that the process holds, those that it was ever given and those that it has released, the last
one first. -/
structure Locks where
  held : List Nat
  taken : List Nat
  dropped : List Nat

/-- How a call with its answer changes the bios that the process holds. -/
def Locks.after (s : Locks) : (c : Call) → c.Answer → Locks
  | .bioGet _ _, bio => ⟨bio :: s.held, bio :: s.taken, s.dropped⟩
  | .bioRelease bio, _ => ⟨s.held.erase bio, s.taken, bio :: s.dropped⟩
  | _, _ => s

/-- The block cache, the allocators and the disk may do anything. -/
def lockLayer : Layer Call Call.Answer Locks where
  mayPanic _ _ := True
  answers c s r s' := s' = s.after c r

namespace Locks

def none : Locks := ⟨[], [], []⟩

/-- Every bio that was taken was released, once. -/
def Free (s : Locks) : Prop := s.held = [] ∧ s.dropped = s.taken

/-- All but the bio `b` were released. -/
def Has (s : Locks) (b : Nat) : Prop := s.held = [b] ∧ s.taken = b :: s.dropped

/-- What the code may do with the bios that it holds. -/
def Allows (c : Call) (s : Locks) : Prop :=
  match c with
  | .bioGet _ _ => s.Free
  | .bioRead b | .bioData b | .bioRelease b => s.Has b
  | _ => True

end Locks

/-- The program starts and ends with no bio, and in between does with bios only what it may. -/
def Kept {α : Type} (p : P α) : Prop :=
  ∀ s, s.Free → Sat lockLayer Locks.Allows (fun _ _ => True) (fun _ s' => s'.Free) p s

section
variable {α β : Type} {p : P α} {f : α → P β} {Q : α → Locks → Prop} {s s' : Locks} {b : Nat}

theorem Kept.bind (hp : Kept p) (hf : ∀ a, Kept (f a)) : Kept (p >>= f) :=
  fun s hs => (hp s hs).bind fun a s' hs' => hf a s' hs'

theorem Kept.pure {a : α} : Kept (Pure.pure a : P α) := fun _ hs => hs

theorem Kept.stop {e : Stop} : Kept (.stop e : P α) := fun _ _ => trivial

/-- A call that is not about a bio. -/
theorem Kept.perform {c : Call} (hc : ∀ s, Locks.Allows c s) (ha : ∀ (s : Locks) r, s.after c r = s) :
    Kept (Prog.perform c : P c.Answer) := by
  refine fun s hs => ⟨hc s, fun r s' h => ?_⟩
  have h : s' = s := h.trans (ha s r)
  exact h ▸ hs

theorem kept_slabAlloc {cache : Cache} : Kept (slabAlloc cache) := .perform (fun _ => trivial) fun _ _ => rfl
theorem kept_slabFree {cache : Cache} {o : Nat} : Kept (slabFree cache o) := .perform (fun _ => trivial) fun _ _ => rfl

/-- What follows `bio_get` has the bio. -/
theorem Kept.bioGet {dev : UInt8} {sector : UInt64} {f : Nat → P β}
    (hf : ∀ b s, s.Has b → Sat lockLayer Locks.Allows (fun _ _ => True) (fun _ s' => s'.Free) (f b) s) :
    Kept (bioGet dev sector >>= f) := by
  refine fun s hs => ⟨hs, fun b s' h => hf b s' ?_⟩
  have h : s' = ⟨b :: s.held, b :: s.taken, s.dropped⟩ := h
  obtain ⟨hheld, hdrop⟩ := hs
  rw [h, hheld]
  exact ⟨rfl, congrArg (b :: ·) hdrop.symm⟩

theorem sat_bioRead {f : Bool → P β} {Q : β → Locks → Prop} (hs : s.Has b)
    (hf : ∀ r, Sat lockLayer Locks.Allows (fun _ _ => True) Q (f r) s) :
    Sat lockLayer Locks.Allows (fun _ _ => True) Q (bioRead b >>= f) s :=
  ⟨hs, fun r s' h => by obtain rfl : s' = s := h; exact hf r⟩

theorem sat_bioData {f : (Nat → UInt8) → P β} {Q : β → Locks → Prop} (hs : s.Has b)
    (hf : ∀ m, Sat lockLayer Locks.Allows (fun _ _ => True) Q (f m) s) :
    Sat lockLayer Locks.Allows (fun _ _ => True) Q (bioData b >>= f) s :=
  ⟨hs, fun m s' h => by obtain rfl : s' = s := h; exact hf m⟩

theorem sat_bioRelease {f : Unit → P β} {Q : β → Locks → Prop} (hs : s.Has b)
    (hf : ∀ s', s'.Free → Sat lockLayer Locks.Allows (fun _ _ => True) Q (f ()) s') :
    Sat lockLayer Locks.Allows (fun _ _ => True) Q (bioRelease b >>= f) s := by
  refine ⟨hs, fun u s' h => hf s' ?_⟩
  have h : s' = ⟨s.held.erase b, s.taken, b :: s.dropped⟩ := h
  obtain ⟨hheld, htaken⟩ := hs
  rw [h, hheld, htaken]
  exact ⟨List.erase_cons_head b [], rfl⟩

end

/-! ### The functions -/

section
variable {device : UInt8} {sb : SuperBlock} {ino block : Nat} {name : List UInt8}

/-- `bio_get`, `bio_read`, `bio_data`, `bio_release`. -/
theorem kept_read {sector : UInt64} {β : Type} {f : (Nat → UInt8) → β} :
    Kept (do
      let bio ← bioGet device sector
      let _ ← bioRead bio
      let data ← bioData bio
      bioRelease bio
      return f data) := by
  refine Kept.bioGet fun b s hs => ?_
  refine sat_bioRead hs fun _ => ?_
  refine sat_bioData hs fun m => ?_
  exact sat_bioRelease hs fun s' hs' => hs'

theorem kept_getSuperBlock : Kept (getSuperBlock device) := kept_read

theorem kept_inodeRead {bgIndex index : Nat} : Kept (inodeRead device bgIndex index) :=
  Kept.bind kept_read fun _ => kept_read

theorem kept_inodeGet : Kept (inodeGet sb device ino) := by
  refine kept_slabAlloc.bind fun o => ?_
  unfold inodeBgIndex inodeIndexInBg
  by_cases h0 : sb.sInodesPerGroup = 0
  · rw [if_pos h0]
    exact Kept.bind .stop fun _ => Kept.bind (by rw [if_pos h0]; exact .stop) fun _ => by
      split
      · exact kept_inodeRead.bind fun _ => .pure
      · exact .pure
  · rw [if_neg h0, if_neg h0]
    refine Kept.bind .pure fun _ => Kept.bind .pure fun _ => ?_
    split
    · exact kept_inodeRead.bind fun _ => .pure
    · exact .pure

theorem kept_inodeRelease {p : Option InodePtr} : Kept (inodeRelease p) := by
  cases p with
  | none => exact .pure
  | some p => exact kept_slabFree

/-- What follows `block_read` has the block's bio, if there is one. -/
theorem Kept.blockRead {β : Type} {f : Option Nat → P β} (hnone : Kept (f .none))
    (hsome : ∀ b s, s.Has b → Sat lockLayer Locks.Allows (fun _ _ => True) (fun _ s' => s'.Free) (f (some b)) s) :
    Kept (blockRead device block >>= f) := by
  unfold Axfs.blockRead
  rw [bind_assoc]
  refine Kept.bioGet fun b s hs => ?_
  rw [bind_assoc]
  refine sat_bioRead hs fun r => ?_
  cases r with
  | true => exact hsome b s hs
  | false =>
    show Sat _ _ _ _ ((bioRelease b >>= fun _ => Pure.pure .none) >>= f) s
    rw [bind_assoc]
    exact sat_bioRelease hs fun s' hs' => hnone s' hs'

theorem kept_blockFindIno : Kept (blockFindIno name device block) := by
  refine Kept.blockRead .pure fun b s hs => ?_
  refine sat_bioData hs fun m => ?_
  exact sat_bioRelease hs fun s' hs' => hs'

theorem kept_findInBlocks {blocks : List Nat} : Kept (findInBlocks name device blocks) := by
  induction blocks with
  | nil => exact .pure
  | cons block blocks ih =>
    rw [findInBlocks]
    split
    · exact .pure
    · refine kept_blockFindIno.bind fun ino => ?_
      split
      · exact .pure
      · exact ih

theorem kept_namexLoop {fuel : Nat} {begin : List UInt8} : Kept (namexLoop sb device fuel begin ino) := by
  induction fuel generalizing begin ino with
  | zero => exact .pure
  | succ fuel ih =>
    rw [namexLoop]
    split
    · exact .pure
    · refine kept_inodeGet.bind fun inode => ?_
      cases inode with
      | none => exact .pure
      | some p =>
        dsimp only
        split
        · exact kept_inodeRelease.bind fun _ => .pure
        · refine kept_findInBlocks.bind fun ino => kept_inodeRelease.bind fun _ => ?_
          split
          · exact .pure
          · exact ih

theorem kept_namei : Kept (namei sb name device) := by
  unfold namei
  split
  · refine kept_namexLoop.bind fun ino => ?_
    split
    · exact kept_inodeGet.bind fun _ => .pure
    · exact .pure
  · exact .pure

theorem kept_axOpen {file : File} : Kept (axOpen file) := by
  unfold axOpen
  split
  · split
    · exact .pure
    · refine kept_getSuperBlock.bind fun sb => kept_namei.bind fun r => ?_
      obtain ⟨inode, ino⟩ := r
      cases inode with
      | none => exact .pure
      | some p =>
        dsimp only
        split
        · exact kept_inodeRelease.bind fun _ => .pure
        · exact .pure
  · exact .stop

theorem kept_readBlocks {inode : Inode} {indices : List Nat} {blockPos size : Nat} {buffer : List UInt8} :
    Kept (readBlocks device inode indices blockPos size buffer) := by
  induction indices generalizing blockPos size buffer with
  | nil => exact .pure
  | cons index indices ih =>
    rw [readBlocks]
    split
    · refine Kept.blockRead .pure fun b s hs => ?_
      refine sat_bioData hs fun m => ?_
      exact sat_bioRelease hs fun s' hs' => ih s' hs'
    · exact .pure

theorem kept_axRead {file : File} {size : Nat} : Kept (axRead file size) := by
  unfold axRead
  split
  · split
    · refine Kept.bind ?_ fun _ => .pure
      unfold readFile
      split
      · exact .pure
      · dsimp only
        split
        · exact .pure
        · exact kept_readBlocks
    · exact .stop
  · exact .pure

end

/-! ### Executions -/

/-- At every point of every execution: the process holds at most one bio, it holds none where it calls
`bio_get`, it uses and releases only the bio that it holds, and where the operation returns it has released
each bio that it was given once. -/
structure NoHoldAndWait {α : Type} (p : P α) : Prop where
  one : ∀ p' s, Reach lockLayer p .none p' s → s.held.length ≤ 1
  get : ∀ dev sector k s, Reach lockLayer p .none (.call (.bioGet dev sector) k) s → s.held = []
  use : ∀ b k s, Reach lockLayer p .none (.call (.bioRead b) k) s → s.held = [b]
  data : ∀ b k s, Reach lockLayer p .none (.call (.bioData b) k) s → s.held = [b]
  release : ∀ b k s, Reach lockLayer p .none (.call (.bioRelease b) k) s → s.held = [b]
  done : ∀ a s, Reach lockLayer p .none (.ret a) s → s.held = [] ∧ s.dropped = s.taken

/-- What the code does keeps it in one of two states. -/
theorem Sat.locks {α : Type} {p p' : P α} {Q : α → Locks → Prop} {s s' : Locks}
    (h : Sat lockLayer Locks.Allows (fun _ _ => True) Q p s) (hs : s.Free ∨ ∃ b, s.Has b)
    (hr : Reach lockLayer p s p' s') : s'.Free ∨ ∃ b, s'.Has b := by
  induction hr with
  | refl => exact hs
  | @call c k r s s₁ s₂ p' ha _ ih =>
    obtain ⟨hpre, hnext⟩ := h
    refine ih (hnext _ _ ha) ?_
    have ha : s₁ = s.after c r := ha
    subst ha
    cases c with
    | bioGet dev sector =>
      obtain ⟨hheld, hdrop⟩ := hpre
      exact .inr ⟨r, congrArg (r :: ·) hheld, congrArg (r :: ·) hdrop.symm⟩
    | bioRelease b =>
      obtain ⟨hheld, htaken⟩ := hpre
      refine .inl ⟨?_, htaken.symm⟩
      show s.held.erase b = []
      rw [hheld]
      exact List.erase_cons_head b []
    | _ => exact hs

theorem Kept.noHoldAndWait {α : Type} {p : P α} (h : Kept p) : NoHoldAndWait p := by
  have hfree : Locks.none.Free := ⟨rfl, rfl⟩
  have hsat := h _ hfree
  refine ⟨fun p' s hr => ?_, fun dev sector k s hr => (hsat.of_call hr).1, fun b k s hr => (hsat.of_call hr).1,
    fun b k s hr => (hsat.of_call hr).1, fun b k s hr => (hsat.of_call hr).1, fun a s hr => hsat.of_ret hr⟩
  rcases Sat.locks hsat (.inl hfree) hr with ⟨hheld, -⟩ | ⟨b, hheld, -⟩
  · rw [hheld]
    exact Nat.zero_le 1
  · rw [hheld]
    exact Nat.le_refl 1

theorem axfs_no_hold_and_wait (file : File) (size : Nat) :
    NoHoldAndWait (axOpen file) ∧ NoHoldAndWait (axRead file size) :=
  ⟨kept_axOpen.noHoldAndWait, kept_axRead.noHoldAndWait⟩

end Airix.Axfs
