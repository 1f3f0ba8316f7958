import Airix.Axfs.Path

/-!
# Reading files

A file with its data in the direct blocks is a list of bytes, and `ax_read` reads on in it: whatever the sizes
of the buffers, the calls that succeed bring the bytes one after the other.
-/

namespace Airix.Axfs
open Bytes Prog

section
variable {m : Machine} {dev : UInt8} {t : Prop} {s s' : Kern} {inode : Inode} {k n blockPos pos size : Nat}
  {buffer : List UInt8}

/-- Byte `i` of a file. -/
def Disk.fileByte (d : Disk) (inode : Inode) (i : Nat) : UInt8 := d.block (inode.iBlock (i / 1024)) (i % 1024)

/-- The bytes of a file from `pos` on. -/
def Disk.fileBytes (d : Disk) (inode : Inode) (pos size : Nat) : List UInt8 :=
  (List.range size).map fun i => d.fileByte inode (pos + i)

/-- The contents of a file. -/
def Disk.fileData (d : Disk) (inode : Inode) : List UInt8 := d.fileBytes inode 0 inode.iSize

/-- A file whose data is in its direct blocks, on the drive. -/
structure DirectFile (m : Machine) (dev : UInt8) (inode : Inode) : Prop where
  size : inode.iSize ≤ 21 * 1024
  blocks : ∀ k, 1024 * k < inode.iSize → inode.iBlock k < 2 ^ 31 ∧ m.InRange dev (sectorNo32 (inode.iBlock k))

@[simp] theorem Disk.length_fileBytes {d : Disk} : (d.fileBytes inode pos size).length = size := by
  rw [fileBytes, List.length_map, List.length_range]

theorem Disk.fileBytes_add {d : Disk} : d.fileBytes inode pos (k + n) =
    d.fileBytes inode pos k ++ d.fileBytes inode (pos + k) n := by
  simp only [fileBytes, List.range_add, List.map_append, List.map_map, Function.comp_def, Nat.add_assoc]

/-- The bytes that `read_file` takes from a block. -/
theorem Machine.OnDisk.fileBytes {data : Nat → UInt8} (h : m.OnDisk dev (sectorNo32 (inode.iBlock k)) data)
    (hlt : inode.iBlock k < 2 ^ 31) (hle : blockPos + n ≤ 1024) :
    (List.range n).map (fun i => data (blockPos + i)) = (m.bytes dev).fileBytes inode (1024 * k + blockPos) n := by
  refine List.map_congr_left fun i hi => ?_
  have hi := List.mem_range.1 hi
  have hsector := toNat_sectorNo32 hlt
  have hk : (1024 * k + blockPos + i) / 1024 = k := by omega
  rw [h (blockPos + i) (by rw [hsector]; omega), hsector, Disk.fileByte, hk]
  exact congrArg (m.disk dev) (by omega)

/-- What a read comes to: a failure, or the bytes. -/
def ReadDone (s : Kern) (bytes : List UInt8) (r : Int × List UInt8) (s' : Kern) : Prop :=
  (r.1 = -1 ∧ ∃ x, s' = s.fail [x]) ∨ (r = ((bytes.length : Int), bytes) ∧ s' = s)

theorem runs_readBlocks (hf : DirectFile m dev inode) (hs : s.Idle) (ht : t → m.memory) (hend : k + n = 21)
    (hpos : blockPos ≤ 1024) (hsize : 0 < size → 1024 * k + blockPos + size ≤ inode.iSize) :
    m.Runs (fun _ _ => False) t (readBlocks dev inode (List.range' k n) blockPos size buffer) s
      (ReadDone s (buffer ++ (m.bytes dev).fileBytes inode (1024 * k + blockPos) size)) := by
  induction n generalizing k blockPos size buffer with
  | zero =>
    have h0 : size = 0 := by
      have := hf.size
      by_contra hne
      have := hsize (by omega)
      omega
    subst h0
    exact Machine.Runs.pure (.inr ⟨by simp [Disk.fileBytes], rfl⟩)
  | succ n ih =>
    rw [List.range'_succ, readBlocks]
    by_cases h0 : 0 < size
    · rw [if_pos h0]
      have hle := hsize h0
      obtain ⟨hlt, hrange⟩ := hf.blocks k (by omega)
      refine Machine.runs_blockRead hs ht hrange (fun b data hd => Machine.runs_useBlock hs ?_)
        fun _ => Machine.Runs.pure (.inl ⟨rfl, _, rfl⟩)
      have hrest : 0 < size - min size (blockSize - blockPos) →
          1024 * (k + 1) + 0 + (size - min size (blockSize - blockPos)) ≤ inode.iSize := by
        rw [blockSize]
        omega
      have hchunk : buffer ++ (m.bytes dev).fileBytes inode (1024 * k + blockPos) size =
          (buffer ++ (List.range (min size (blockSize - blockPos))).map fun i => data (blockPos + i)) ++
            (m.bytes dev).fileBytes inode (1024 * (k + 1) + 0) (size - min size (blockSize - blockPos)) := by
        rw [hd.fileBytes hlt (by rw [blockSize]; omega), List.append_assoc]
        refine congrArg (buffer ++ ·) ?_
        rcases Nat.lt_or_ge (blockSize - blockPos) size with hmore | hless
        · rw [Nat.min_eq_right hmore.le,
            show 1024 * (k + 1) + 0 = 1024 * k + blockPos + (blockSize - blockPos) by rw [blockSize]; omega,
            ← Disk.fileBytes_add, Nat.add_sub_cancel' hmore.le]
        · rw [Nat.min_eq_left hless, Nat.sub_self]
          exact (List.append_nil _).symm
      rw [hchunk]
      exact ih (by omega) (Nat.zero_le _) hrest
    · rw [if_neg h0]
      obtain rfl : size = 0 := by omega
      exact Machine.Runs.pure (.inr ⟨by simp [Disk.fileBytes], rfl⟩)

theorem runs_readFile (hf : DirectFile m dev inode) (hs : s.Idle) (ht : t → m.memory) :
    m.Runs (fun _ _ => False) t (readFile dev inode pos size) s
      (ReadDone s ((m.bytes dev).fileBytes inode pos (min size (inode.iSize - pos)))) := by
  have hle := hf.size
  unfold readFile
  by_cases hend : inode.iSize ≤ pos
  · rw [if_pos hend, Nat.sub_eq_zero_of_le hend, Nat.min_zero]
    exact Machine.Runs.pure (.inr ⟨rfl, rfl⟩)
  · have hindex : u32 (pos / blockSize) = pos / 1024 := u32_of_lt (by rw [blockSize]; omega)
    rw [if_neg hend, hindex, if_neg (by rw [directBlockCount]; omega)]
    have hpos : 1024 * (pos / 1024) + pos % 1024 = pos := Nat.div_add_mod pos 1024
    have h : m.Runs (fun _ _ => False) t (readBlocks dev inode (List.range' (pos / 1024) (21 - pos / 1024)) (pos % 1024)
        (min size (inode.iSize - pos)) []) s (ReadDone s ([] ++ (m.bytes dev).fileBytes inode
          (1024 * (pos / 1024) + pos % 1024) (min size (inode.iSize - pos)))) :=
      runs_readBlocks hf hs ht (by omega) (by omega) (by omega)
    rwa [hpos, List.nil_append] at h

/-- What `ax_read` comes to on an open file. -/
theorem runs_axRead {file : File} {fInode : VfsInode} {p : InodePtr} (hf : DirectFile m fInode.iDevice p.inode)
    (hs : s.Idle) (ht : t → m.memory) (hflags : file.fFlags = oRdonly) (hinode : file.fInode = some fInode)
    (hp : fInode.iPrivate = some p) :
    m.Runs (fun _ _ => False) t (axRead file size) s (fun r s' =>
      ReadDone s ((m.bytes fInode.iDevice).fileBytes p.inode file.fPos
        (min size (p.inode.iSize - file.fPos))) r.2 s' ∧
      r.1 = if 0 < r.2.1 then { file with fPos := (file.fPos + r.2.1.toNat) % 2 ^ 64 } else file) := by
  obtain ⟨object, device, ino, iPrivate⟩ := fInode
  obtain rfl : iPrivate = some p := hp
  unfold axRead
  rw [if_pos (.inl hflags), hinode]
  exact (runs_readFile hf hs ht).bind fun r s' hr => Machine.Runs.pure ⟨hr, rfl⟩

end

/-! ### Sequences of reads -/

/-- One call of `ax_read`: the buffer's size, what was returned, the bytes that came into the buffer, whether
a disk read failed in it, and `f_pos` before and after it. -/
structure ReadCall where
  size : Nat
  ret : Int
  bytes : List UInt8
  failed : Prop
  pos : Nat
  pos' : Nat

/-- The calls of `ax_read` on a file that a process makes one after the other, while the rest of the kernel
goes on between them. -/
inductive Reading (m : Machine) (file : File) : List ReadCall → File → Prop
  | open : Reading m file [] file
  | read {calls : List ReadCall} {f f' : File} {size : Nat} {ret : Int} {bytes : List UInt8} {s s' : Kern} :
    Reading m file calls f → s.Idle → Reach m.kernLayer (axRead f size) s (.ret (f', ret, bytes)) s' →
    Reading m file (calls ++ [⟨size, ret, bytes, s'.failed ≠ s.failed, f.fPos, f'.fPos⟩]) f'

section
variable {m : Machine} {dev : UInt8} {inode : Inode} {file f f' : File} {calls : List ReadCall} {s s' : Kern} {size : Nat}
  {ret : Int} {bytes : List UInt8}

/-- A file that `ax_open` has opened, with its data in direct blocks. -/
structure IsOpen (m : Machine) (dev : UInt8) (inode : Inode) (file : File) : Prop where
  flags : file.fFlags = oRdonly
  holds : ∃ fInode p, file.fInode = some fInode ∧ fInode.iDevice = dev ∧ fInode.iPrivate = some p ∧ p.inode = inode
  direct : DirectFile m dev inode
  pos : file.fPos ≤ inode.iSize

theorem IsOpen.runs {t : Prop} (h : IsOpen m dev inode file) (hs : s.Idle) (ht : t → m.memory) :
    m.Runs (fun _ _ => False) t (axRead file size) s (fun r s' =>
      ReadDone s ((m.bytes dev).fileBytes inode file.fPos (min size (inode.iSize - file.fPos))) r.2 s' ∧
      r.1 = if 0 < r.2.1 then { file with fPos := (file.fPos + r.2.1.toNat) % 2 ^ 64 } else file) := by
  obtain ⟨fInode, p, hf, rfl, hp, rfl⟩ := h.holds
  exact runs_axRead h.direct hs ht h.flags hf hp

/-- One call: it fails and changes nothing, or it reads on. -/
theorem IsOpen.read (h : IsOpen m dev inode file) (hs : s.Idle)
    (hr : Reach m.kernLayer (axRead file size) s (.ret (f', ret, bytes)) s') :
    (s'.failed ≠ s.failed ∧ ret = -1 ∧ f' = file) ∨
      (s'.failed = s.failed ∧ ret = (min size (inode.iSize - file.fPos) : Nat) ∧
        bytes = (m.bytes dev).fileBytes inode file.fPos (min size (inode.iSize - file.fPos)) ∧
        f' = { file with fPos := file.fPos + min size (inode.iSize - file.fPos) }) := by
  have hq := (h.runs (t := False) hs False.elim).of_ret hr
  rcases hq with ⟨⟨hret, x, hfail⟩ | ⟨hr2, rfl⟩, hf'⟩ | ⟨-, x, -, -, hM⟩
  · refine .inl ⟨?_, hret, ?_⟩
    · rw [hfail]
      exact List.cons_ne_self x s.failed
    · have hneg : ¬ (0 : Int) < ret := by
        have hret : ret = -1 := hret
        omega
      exact hf'.trans (if_neg hneg)
  · obtain ⟨hret, hbytes⟩ := Prod.mk.inj hr2
    rw [Disk.length_fileBytes] at hret
    refine .inr ⟨rfl, hret, hbytes, hf'.trans ?_⟩
    have hpos := h.pos
    have hsize := h.direct.size
    dsimp only
    rw [hret]
    by_cases h0 : 0 < min size (inode.iSize - file.fPos)
    · rw [if_pos (by omega), Int.toNat_natCast, Nat.mod_eq_of_lt (by omega)]
    · rw [if_neg (by omega), Nat.eq_zero_of_not_pos h0]
      rfl
  · exact hM.elim

/-- What the calls have read so far. -/
structure ReadsOn (m : Machine) (inode : Inode) (data : List UInt8) (calls : List ReadCall) (file : File) : Prop where
  failed : ∀ c ∈ calls, c.failed → c.ret = -1 ∧ c.pos' = c.pos
  exact : ∀ c ∈ calls, ¬ c.failed → c.ret = (min c.size (inode.iSize - c.pos) : Nat)
  zero : ∀ c ∈ calls, ¬ c.failed → (c.ret = 0 ↔ c.pos = inode.iSize ∨ c.size = 0)
  pos : file.fPos = (calls.map fun c => c.ret.toNat).sum
  bytes : (calls.flatMap fun c => c.bytes.take c.ret.toNat) = data.take file.fPos
  /-- The next call comes back, with no panic. -/
  returns : m.memory → ∀ size s, s.Idle → (∀ p' s', Reach m.kernLayer (axRead file size) s p' s' →
    ¬ Panics m.kernLayer s' p') ∧ ∃ r s', Reach m.kernLayer (axRead file size) s (.ret r) s'

theorem IsOpen.returns (h : IsOpen m dev inode file) (hm : m.memory) (size : Nat) (hs : s.Idle) :
    (∀ p' s', Reach m.kernLayer (axRead file size) s p' s' → ¬ Panics m.kernLayer s' p') ∧
      ∃ r s', Reach m.kernLayer (axRead file size) s (.ret r) s' := by
  have hruns : m.Runs _ True (axRead file size) s _ := h.runs hs fun _ => hm
  have ht := hruns.total fun _ _ _ => id
  refine ⟨fun p' s' hr => ht.not_panics hr, ?_⟩
  obtain ⟨r, s', hr, -⟩ := ht.exists_reach fun c s => Machine.kernLayer_total
  exact ⟨r, s', hr⟩

theorem Disk.take_fileData {d : Disk} {n : Nat} (hn : n ≤ inode.iSize) : (d.fileData inode).take n = d.fileBytes inode 0 n := by
  obtain ⟨k, hk⟩ := Nat.exists_eq_add_of_le hn
  rw [fileData, hk, fileBytes_add]
  exact List.take_left' length_fileBytes

theorem Reading.isOpen (hr : Reading m file calls f) (h : IsOpen m dev inode file) (h0 : file.fPos = 0) :
    IsOpen m dev inode f ∧ ReadsOn m inode ((m.bytes dev).fileData inode) calls f := by
  induction hr with
  | «open» =>
    refine ⟨h, fun c hc => ?_, fun c hc => ?_, fun c hc => ?_, h0, ?_, fun hm size s hs => h.returns hm size hs⟩
    · cases hc
    · cases hc
    · cases hc
    · rw [h0]
      rfl
  | @read calls f f' size ret bytes s s' hr hs hreach ih =>
    obtain ⟨ho, hon⟩ := ih
    have hpos := ho.pos
    rcases ho.read hs hreach with ⟨hfail, rfl, rfl⟩ | ⟨hfail, rfl, rfl, rfl⟩
    · refine ⟨ho, fun c hc hf => ?_, fun c hc hf => ?_, fun c hc hf => ?_, ?_, ?_, hon.returns⟩
      · rcases List.mem_append.1 hc with hc | hc
        · exact hon.failed c hc hf
        · rw [List.mem_singleton.1 hc]
          exact ⟨rfl, rfl⟩
      · rcases List.mem_append.1 hc with hc | hc
        · exact hon.exact c hc hf
        · rw [List.mem_singleton.1 hc] at hf
          exact absurd hfail hf
      · rcases List.mem_append.1 hc with hc | hc
        · exact hon.zero c hc hf
        · rw [List.mem_singleton.1 hc] at hf
          exact absurd hfail hf
      · rw [List.map_append, List.sum_append, ← hon.pos]
        rfl
      · rw [List.flatMap_append, hon.bytes]
        exact List.append_nil _
    · have hopen : IsOpen m dev inode { f with fPos := f.fPos + min size (inode.iSize - f.fPos) } := by
        refine ⟨ho.flags, ho.holds, ho.direct, ?_⟩
        show f.fPos + min size (inode.iSize - f.fPos) ≤ inode.iSize
        omega
      refine ⟨hopen, fun c hc hf => ?_, fun c hc hf => ?_, fun c hc hf => ?_, ?_, ?_,
        fun hm size s hs => hopen.returns hm size hs⟩
      · rcases List.mem_append.1 hc with hc | hc
        · exact hon.failed c hc hf
        · rw [List.mem_singleton.1 hc] at hf
          exact absurd hfail hf
      · rcases List.mem_append.1 hc with hc | hc
        · exact hon.exact c hc hf
        · rw [List.mem_singleton.1 hc]
      · rcases List.mem_append.1 hc with hc | hc
        · exact hon.zero c hc hf
        · rw [List.mem_singleton.1 hc]
          dsimp only
          omega
      · rw [List.map_append, List.sum_append, ← hon.pos]
        rfl
      · dsimp only
        rw [List.flatMap_append, hon.bytes, Disk.take_fileData hpos, Disk.take_fileData (by omega), Disk.fileBytes_add,
          Nat.zero_add, List.flatMap_cons, List.flatMap_nil, List.append_nil, Int.toNat_natCast,
          List.take_of_length_le (by rw [Disk.length_fileBytes])]

end

/-- The file `f` of the small volume, open. -/
def smallFile : File where
  object := 1
  fPath := none
  fInode := some ⟨2, 1, 3, some ⟨3, smallDisk.inode 3⟩⟩
  fPos := 0
  fRefs := 1
  fFlags := oRdonly

end Airix.Axfs
