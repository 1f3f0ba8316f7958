import Airix.Axfs.Model

/-!
# What the file system runs on

`Machine` is what does not change while a call runs: the contents of the disks, which sectors may fail to be
read, and whether the allocators have memory. `kernLayer` answers the calls as the block cache and the slab
allocator do, as one process sees them: `bio_get` returns a bio for the sector, whose buffer has the sectors of
the disk or anything at all; `bio_read` brings the sectors in, or fails and leaves anything in the buffer.
-/

namespace Airix.Axfs
open Bytes Prog

/-- An allocated object: of a slab cache, or from `kmalloc`. -/
inductive Obj
  | slab (cache : Cache)
  | kmalloc (size : Nat)
deriving DecidableEq, Repr

structure Machine where
  disk : UInt8 → Nat → UInt8
  /-- The number of sectors of a drive that exists. -/
  drives : UInt8 → Option Nat
  mayFail : UInt8 → UInt64 → Prop
  memory : Prop

/-- A bio that the process holds. `valid` is the flag `BIO_FLAG_UPDATED`, `data` the memory behind the pointer
that `bio_data` returns. -/
structure Bio where
  dev : UInt8
  sector : UInt64
  valid : Bool
  data : Nat → UInt8

/-- `failed` are the reads that failed, the last one first; `misused` says that the code has used a buffer
into which nothing was read. -/
structure Kern where
  held : Nat → Option Bio
  failed : List (UInt8 × UInt64)
  misused : Bool
  live : Nat → Option Obj
  files : Nat → Option File

namespace Machine
variable (m : Machine)

/-- The check of `check_drive` for the eight sectors of a bio. -/
def InRange (dev : UInt8) (sector : UInt64) : Prop :=
  ∃ n, m.drives dev = some n ∧ sector.toNat / 8 * 8 + 8 ≤ n

/-- The memory has what the disk has, from the sector to the end of its bio. -/
def OnDisk (dev : UInt8) (sector : UInt64) (data : Nat → UInt8) : Prop :=
  ∀ i < 4096 - sector.toNat % 8 * 512, data i = m.disk dev (sector.toNat * 512 + i)

/-- How a read of the bio `b`, which is `x`, goes. -/
inductive Reads (s : Kern) (b : Nat) (x : Bio) : Bool → Kern → Prop
  | cached : x.valid = true → Reads s b x true s
  | ok (data : Nat → UInt8) : x.valid = false → m.InRange x.dev x.sector → m.OnDisk x.dev x.sector data →
    Reads s b x true { s with held := Function.update s.held b (some { x with valid := true, data := data }) }
  | failed (data : Nat → UInt8) : x.valid = false → m.InRange x.dev x.sector → m.mayFail x.dev x.sector →
    Reads s b x false { s with held := Function.update s.held b (some { x with data := data })
                               failed := (x.dev, x.sector) :: s.failed }

/-- An allocation: a new object, or the null pointer when memory is short. -/
def Allocates (s : Kern) (obj : Obj) (o : Nat) (s' : Kern) : Prop :=
  o ≠ 0 ∧ s.live o = none ∧ s' = { s with live := Function.update s.live o (some obj) } ∨
    ¬ m.memory ∧ o = 0 ∧ s' = s

/-- An allocation may bring the kernel down. -/
def Short (s : Kern) : Prop := ¬ m.memory ∨ ∀ o ≠ 0, s.live o ≠ none

/-- A process that asks for a bio while it holds one may wait for ever. -/
def kernLayer : Layer Call Call.Answer Kern where
  mayPanic c s := match c with
    | .bioGet _ _ => ¬ m.memory ∨ ∃ b, s.held b ≠ none
    | .bioRead b => ∀ x, s.held b = some x → x.valid = false ∧ (¬ m.InRange x.dev x.sector ∨ ¬ m.memory)
    | .bioData b => s.held b = none
    | .bioRelease b => s.held b = none
    | .slabAlloc _ => m.Short s
    | .slabFree cache o => s.live o ≠ some (.slab cache)
    | .kmalloc size => 1024 < size ∨ m.Short s
    | .kfree o => ∀ size, s.live o ≠ some (.kmalloc size)
    | .files => False
    | .setFile _ _ => False
  answers c s r s' := match c with
    | .bioGet dev sector => s.held r = none ∧ ∃ valid data, (valid = true → m.OnDisk dev sector data) ∧
        s' = { s with held := Function.update s.held r (some ⟨dev, sector, valid, data⟩) }
    | .bioRead b => ∃ x, s.held b = some x ∧ m.Reads s b x r s'
    | .bioData b => ∃ x, s.held b = some x ∧ r = x.data ∧ s' = { s with misused := s.misused || !x.valid }
    | .bioRelease b => s.held b ≠ none ∧ s' = { s with held := Function.update s.held b none }
    | .slabAlloc cache => m.Allocates s (.slab cache) r s'
    | .slabFree cache o => s.live o = some (.slab cache) ∧ s' = { s with live := Function.update s.live o none }
    | .kmalloc size => size ≤ 1024 ∧ m.Allocates s (.kmalloc size) r s'
    | .kfree o => (∃ size, s.live o = some (.kmalloc size)) ∧ s' = { s with live := Function.update s.live o none }
    | .files => r = s.files ∧ s' = s
    | .setFile fd file => s' = { s with files := Function.update s.files fd file }

variable {m}

/-- A call that is sure to come back has an answer. -/
theorem kernLayer_total {c : Call} {s : Kern} (h : ¬ m.kernLayer.mayPanic c s) :
    ∃ r s', m.kernLayer.answers c s r s' := by
  have halloc : ∀ obj, ¬ m.Short s → ∃ o s', m.Allocates s obj o s' := by
    intro obj hs
    obtain ⟨-, ho⟩ := not_or.1 hs
    push Not at ho
    obtain ⟨o, hne, hfree⟩ := ho
    exact ⟨o, _, .inl ⟨hne, hfree, rfl⟩⟩
  cases c with
  | bioGet dev sector =>
    obtain ⟨-, hheld⟩ := not_or.1 h
    push Not at hheld
    exact ⟨(0 : Nat), _, hheld 0, false, fun _ => 0, fun hv => absurd hv (by decide), rfl⟩
  | bioRead b =>
    have h : ¬ ∀ x, s.held b = some x → x.valid = false ∧ (¬ m.InRange x.dev x.sector ∨ ¬ m.memory) := h
    push Not at h
    obtain ⟨x, hx, hr⟩ := h
    cases hv : x.valid with
    | true => exact ⟨true, s, x, hx, .cached hv⟩
    | false =>
      exact ⟨true, _, x, hx, .ok (fun i => m.disk x.dev (x.sector.toNat * 512 + i)) hv (hr hv).1 fun _ _ => rfl⟩
  | bioData b =>
    obtain ⟨x, hx⟩ := Option.ne_none_iff_exists'.1 h
    exact ⟨x.data, _, x, hx, rfl, rfl⟩
  | bioRelease b => exact ⟨(), _, h, rfl⟩
  | slabAlloc cache => exact halloc _ h
  | slabFree cache o => exact ⟨(), _, not_not.1 h, rfl⟩
  | kmalloc size =>
    obtain ⟨hsize, hs⟩ := not_or.1 h
    obtain ⟨o, s', ho⟩ := halloc (.kmalloc size) hs
    exact ⟨o, s', by omega, ho⟩
  | kfree o =>
    have h : ¬ ∀ size, s.live o ≠ some (.kmalloc size) := h
    push Not at h
    exact ⟨(), _, h, rfl⟩
  | files => exact ⟨s.files, s, rfl, rfl⟩
  | setFile fd file => exact ⟨(), _, rfl⟩

end Machine

end Airix.Axfs
