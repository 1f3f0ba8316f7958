import Airix.Proc.Model

/-!
# What the loader reads of the file (`kernel/elf.c`)

The offsets of the bytes that `elf_load_program` reads, in its order. A load stops at the first page that it
cannot allocate or map, so what memory does to it is one number: `room`, the pages that it can load before.
-/

namespace Airix.Proc

/-! ### The trace -/

/-- The reads of the page loop, and the room that is left when the loop ends. -/
def pageReads (vaddrEnd : Nat) : Nat → Nat → Nat → Nat → Nat → List Nat × Option Nat
  | 0, vaddr, _, _, _ => ([], if vaddr < vaddrEnd then none else some 0)
  | room + 1, vaddr, pageOffset, fileOffset, fileSize =>
    if vaddr < vaddrEnd then
      let copySize := min fileSize (pageSize - pageOffset)
      let r := pageReads vaddrEnd room (u32 (vaddr + pageSize)) 0 (u32 (fileOffset + copySize)) (fileSize - copySize)
      (List.range' fileOffset copySize ++ r.1, r.2)
    else ([], some (room + 1))

namespace ProgHeader

def Loadable (ph : ProgHeader) : Prop := ph.type = elfPtLoad ∨ ph.type = elfPtPhdr

/-- The checks of `load_from_prog_header`. -/
def Checked (size : Nat) (ph : ProgHeader) : Prop :=
  ph.filesz ≤ ph.memsz ∧ ph.offset < size ∧ u32 (ph.offset + ph.filesz) ≤ size

/-- The first page. -/
def start (ph : ProgHeader) : Nat := ph.vaddr - ph.vaddr % pageSize

def vaddrEnd (ph : ProgHeader) : Nat := u32 (ph.vaddr + ph.memsz)

instance : DecidablePred Loadable := fun _ => inferInstanceAs (Decidable (_ ∨ _))
instance (size : Nat) : DecidablePred (Checked size) := fun _ => inferInstanceAs (Decidable (_ ∧ _))

end ProgHeader

/-- The reads of `load_from_prog_header` from the segment. -/
def segmentReads (size : Nat) (ph : ProgHeader) (room : Nat) : List Nat × Option Nat :=
  if ¬ ph.Checked size then ([], none)
  else if ph.memsz = 0 then ([], some room)
  else pageReads ph.vaddrEnd room ph.start (ph.vaddr % pageSize) ph.offset ph.filesz

/-- `p_filesz`, `p_offset`, `p_vaddr` and `p_memsz` of the header at `pht`. -/
def fieldReads (pht : Nat) : List Nat :=
  List.range' (pht + 16) 4 ++ List.range' (pht + 4) 4 ++ List.range' (pht + 8) 4 ++ List.range' (pht + 20) 4

/-- The reads of `load_from_pht`, and the room that is left when it returns true. -/
def phtReads (elf : Nat → UInt8) (size entrySize : Nat) : Nat → Nat → Nat → List Nat × Option Nat
  | 0, _, room => ([], some room)
  | num + 1, pht, room =>
    let ph := progHeaderAt elf pht
    if ph.Loadable then
      let r := segmentReads size ph room
      match r.2 with
      | some room =>
        let rest := phtReads elf size entrySize num (pht + entrySize) room
        (List.range' pht 4 ++ fieldReads pht ++ r.1 ++ rest.1, rest.2)
      | none => (List.range' pht 4 ++ fieldReads pht ++ r.1, none)
    else
      let rest := phtReads elf size entrySize num (pht + entrySize) room
      (List.range' pht 4 ++ rest.1, rest.2)

/-- The reads of `e_ident` up to the first byte that is wrong. -/
def identReads (elf : Nat → UInt8) : List Nat :=
  0 :: if u8At elf 0 ≠ 0x7F then [] else 1 :: if u8At elf 1 ≠ 0x45 then [] else 2 ::
    if u8At elf 2 ≠ 0x4C then [] else [3]

def Identified (elf : Nat → UInt8) : Prop :=
  u8At elf 0 = 0x7F ∧ u8At elf 1 = 0x45 ∧ u8At elf 2 = 0x4C ∧ u8At elf 3 = 0x46

instance (elf : Nat → UInt8) : Decidable (Identified elf) := inferInstanceAs (Decidable (_ ∧ _))

def ePhoff (elf : Nat → UInt8) : Nat := u32At elf 28
def ePhentsize (elf : Nat → UInt8) : Nat := u16At elf 42
def ePhnum (elf : Nat → UInt8) : Nat := u16At elf 44

/-- The checks of `elf_load_program` on `e_phoff` and the table. -/
def TableChecked (elf : Nat → UInt8) (size : Nat) : Prop :=
  ePhoff elf ≠ 0 ∧ ePhoff elf < size ∧ u32 (ePhoff elf + ePhentsize elf * ePhnum elf) ≤ size

instance (elf : Nat → UInt8) (size : Nat) : Decidable (TableChecked elf size) := inferInstanceAs (Decidable (_ ∧ _))

/-- The reads of `elf_load_program`: `e_phentsize` and `e_phnum` come first. -/
def elfReads (elf : Nat → UInt8) (size room : Nat) : List Nat :=
  List.range' 42 2 ++ List.range' 44 2 ++ identReads elf ++
    if ¬ Identified elf then []
    else List.range' 16 2 ++
      if u16At elf 16 ≠ elfEtExec then []
      else List.range' 28 4 ++
        if ¬ TableChecked elf size then []
        else
          let r := phtReads elf size (ePhentsize elf) (ePhnum elf) (ePhoff elf) room
          r.1 ++ if r.2.isSome then List.range' 24 4 else []

/-! ### The page loop -/

/-- The pages of the loop: from an address to `vaddrEnd`. -/
def pagesTo (vaddrEnd vaddr : Nat) : Nat := (vaddrEnd - vaddr + (pageSize - 1)) / pageSize

/-- With an end in the last page the address wraps to 0 before it gets there. -/
def lastPage : Nat := 2 ^ 32 - pageSize

/-- The bytes that the loop copies when it does not run out of room. -/
def copiedBytes (vaddrEnd vaddr pageOffset fileSize : Nat) : Nat :=
  if vaddrEnd ≤ lastPage then min fileSize (pagesTo vaddrEnd vaddr * pageSize - pageOffset) else fileSize

section
variable {vaddrEnd vaddr pageOffset fileOffset fileSize room size x : Nat}

theorem pageReads_end (h : vaddrEnd ≤ vaddr) :
    pageReads vaddrEnd room vaddr pageOffset fileOffset fileSize = ([], some room) := by
  cases room with
  | zero => rw [pageReads, if_neg (by omega)]
  | succ room => rw [pageReads, if_neg (by omega)]

theorem pageReads_page (h : vaddr < vaddrEnd) :
    pageReads vaddrEnd (room + 1) vaddr pageOffset fileOffset fileSize =
      (List.range' fileOffset (min fileSize (pageSize - pageOffset)) ++
        (pageReads vaddrEnd room (u32 (vaddr + pageSize)) 0 (u32 (fileOffset + min fileSize (pageSize - pageOffset)))
          (fileSize - min fileSize (pageSize - pageOffset))).1,
       (pageReads vaddrEnd room (u32 (vaddr + pageSize)) 0 (u32 (fileOffset + min fileSize (pageSize - pageOffset)))
          (fileSize - min fileSize (pageSize - pageOffset))).2) := by
  rw [pageReads, if_pos h]

theorem next_aligned (halign : vaddr % pageSize = 0) : u32 (vaddr + pageSize) % pageSize = 0 := by
  unfold u32 pageSize at *
  omega

/-- The loop ends when the room is enough. -/
theorem pageReads_room (hend : vaddrEnd ≤ lastPage) (halign : vaddr % pageSize = 0) :
    (pageReads vaddrEnd (pagesTo vaddrEnd vaddr + room) vaddr pageOffset fileOffset fileSize).2 = some room := by
  induction hk : pagesTo vaddrEnd vaddr generalizing vaddr pageOffset fileOffset fileSize with
  | zero =>
    have hge : vaddrEnd ≤ vaddr := by
      unfold pagesTo pageSize at hk
      omega
    rw [pageReads_end hge, Nat.zero_add]
  | succ k ih =>
    have hlt : vaddr < vaddrEnd := by
      unfold pagesTo pageSize at hk
      omega
    have hu : u32 (vaddr + pageSize) = vaddr + pageSize := by
      refine u32_of_lt ?_
      unfold lastPage pageSize at *
      omega
    rw [Nat.add_right_comm, pageReads_page hlt, hu]
    refine ih (by rw [← hu]; exact next_aligned halign) ?_
    unfold pagesTo pageSize at *
    omega

end

/-! ### One program header -/

namespace ProgHeader

/-- The page loop for the segment does not end. -/
def Endless (ph : ProgHeader) : Prop := ph.memsz ≠ 0 ∧ lastPage < ph.vaddrEnd

/-- The bytes of the file that the page loop copies for the segment: `p_filesz`, but for segments that go over
the end of the address space. -/
def copied (ph : ProgHeader) : Nat :=
  if ph.memsz = 0 ∨ ph.vaddrEnd ≤ ph.start then 0
  else copiedBytes ph.vaddrEnd ph.start (ph.vaddr % pageSize) ph.filesz

/-- The table walk goes on after this header when memory is there. -/
def Passes (size : Nat) (ph : ProgHeader) : Prop := ph.Loadable → ph.Checked size ∧ ¬ ph.Endless

/-- The header at `pht`, as far as it is read, and the bytes of its segment are in the file. -/
structure InFile (size pht : Nat) (ph : ProgHeader) : Prop where
  type : pht + 4 ≤ size
  fields : ph.Loadable → pht + 24 ≤ size
  segment : ph.Loadable → ph.Checked size → ph.offset + ph.copied ≤ size

variable {ph : ProgHeader} {size room : Nat}

theorem start_aligned : ph.start % pageSize = 0 := by
  unfold start pageSize
  omega

theorem segmentReads_passes (hc : ph.Checked size) (he : ¬ ph.Endless) :
    ∃ k, ∀ room, (segmentReads size ph (k + room)).2 = some room := by
  unfold segmentReads
  by_cases hm : ph.memsz = 0
  · exact ⟨0, fun room => by simp [hc, hm]⟩
  · have hend : ph.vaddrEnd ≤ lastPage := not_lt.mp fun hlt => he ⟨hm, hlt⟩
    refine ⟨pagesTo ph.vaddrEnd ph.start, fun room => ?_⟩
    rw [if_neg (not_not.mpr hc), if_neg hm]
    exact pageReads_room hend start_aligned

end ProgHeader

/-! ### The table -/

theorem u8At_lt (elf : Nat → UInt8) (off : Nat) : u8At elf off < 2 ^ 8 := UInt8.toNat_lt _

theorem u16At_lt (elf : Nat → UInt8) (off : Nat) : u16At elf off < 2 ^ 16 := by
  have h₁ := u8At_lt elf off
  have h₂ := u8At_lt elf (off + 1)
  unfold u16At
  omega

theorem u32At_lt (elf : Nat → UInt8) (off : Nat) : u32At elf off < 2 ^ 32 := by
  have h₁ := u16At_lt elf off
  have h₂ := u16At_lt elf (off + 2)
  unfold u32At
  omega

section
variable {elf : Nat → UInt8} {size entrySize : Nat}

/-- Entry `i` of the table at `pht`. -/
def entryAt (elf : Nat → UInt8) (entrySize pht i : Nat) : ProgHeader := progHeaderAt elf (pht + i * entrySize)

theorem entryAt_succ (pht i : Nat) : entryAt elf entrySize pht (i + 1) = entryAt elf entrySize (pht + entrySize) i := by
  rw [entryAt, entryAt, Nat.succ_mul, Nat.add_assoc, Nat.add_comm entrySize]

/-- The entries that the walk reaches are in the file. -/
def TableInFile (elf : Nat → UInt8) (size entrySize num pht : Nat) : Prop :=
  ∀ i < num, (∀ j < i, (entryAt elf entrySize pht j).Passes size) →
    (entryAt elf entrySize pht i).InFile size (pht + i * entrySize)

theorem TableInFile.head {num pht : Nat} (h : TableInFile elf size entrySize (num + 1) pht) :
    (progHeaderAt elf pht).InFile size pht := by
  have h := h 0 (Nat.zero_lt_succ num) nofun
  rwa [entryAt, Nat.zero_mul, Nat.add_zero] at h

theorem TableInFile.tail {num pht : Nat} (h : TableInFile elf size entrySize (num + 1) pht)
    (hp : (progHeaderAt elf pht).Passes size) : TableInFile elf size entrySize num (pht + entrySize) := by
  intro i hi hpass
  have h := h (i + 1) (by omega) fun j hj => ?_
  · rwa [entryAt_succ, Nat.succ_mul, ← Nat.add_assoc, Nat.add_right_comm] at h
  · cases j with
    | zero => rwa [entryAt, Nat.zero_mul, Nat.add_zero]
    | succ j =>
      rw [entryAt_succ]
      exact hpass j (by omega)

theorem TableInFile.cons {num pht : Nat} (h : (progHeaderAt elf pht).InFile size pht)
    (ht : (progHeaderAt elf pht).Passes size → TableInFile elf size entrySize num (pht + entrySize)) :
    TableInFile elf size entrySize (num + 1) pht := by
  intro i hi hpass
  cases i with
  | zero => rwa [entryAt, Nat.zero_mul, Nat.add_zero]
  | succ i =>
    have h0 := hpass 0 (by omega)
    rw [entryAt, Nat.zero_mul, Nat.add_zero] at h0
    have htail := ht h0 i (by omega) fun j hj => by
      rw [← entryAt_succ]
      exact hpass (j + 1) (by omega)
    rwa [entryAt_succ, Nat.succ_mul, ← Nat.add_assoc, Nat.add_right_comm]

theorem mem_phtReads_type {num pht room x : Nat} (hx : x ∈ List.range' pht 4) :
    x ∈ (phtReads elf size entrySize (num + 1) pht room).1 := by
  rw [phtReads]
  dsimp only
  split_ifs
  · split <;> simp [hx]
  · simp [hx]

theorem mem_phtReads_load {num pht room x : Nat} (hl : (progHeaderAt elf pht).Loadable)
    (hx : x ∈ fieldReads pht ++ (segmentReads size (progHeaderAt elf pht) room).1) :
    x ∈ (phtReads elf size entrySize (num + 1) pht room).1 := by
  rw [List.mem_append] at hx
  rw [phtReads]
  dsimp only
  rw [if_pos hl]
  split <;> simp only [List.mem_append] <;> tauto

/-- Behind a header that passes come the reads of the rest of the table. -/
theorem exists_phtReads_tail {num pht : Nat} (hp : (progHeaderAt elf pht).Passes size) (room : Nat) :
    ∃ room', ∀ x ∈ (phtReads elf size entrySize num (pht + entrySize) room).1,
      x ∈ (phtReads elf size entrySize (num + 1) pht room').1 := by
  by_cases hl : (progHeaderAt elf pht).Loadable
  · obtain ⟨k, hk⟩ := ProgHeader.segmentReads_passes (hp hl).1 (hp hl).2
    refine ⟨k + room, fun x hx => ?_⟩
    rw [phtReads]
    dsimp only
    rw [if_pos hl, hk room]
    exact List.mem_append_right _ hx
  · refine ⟨room, fun x hx => ?_⟩
    rw [phtReads]
    dsimp only
    rw [if_neg hl]
    exact List.mem_append_right _ hx

end

/-! ### The file -/

section
variable {elf elf' : Nat → UInt8} {size proc entrySize : Nat}

theorem copyBytes_congr {old : Nat → Nat} {off count : Nat} {src src' : Nat → UInt8} (h : ∀ i < count, src' i = src i) :
    copyBytes old off count src' = copyBytes old off count src := by
  have hbyte : ∀ j b, (if off ≤ 4 * j + b ∧ 4 * j + b < off + count then (src' (4 * j + b - off)).toNat
      else old j / 2 ^ (8 * b) % 2 ^ 8) = if off ≤ 4 * j + b ∧ 4 * j + b < off + count then
        (src (4 * j + b - off)).toNat else old j / 2 ^ (8 * b) % 2 ^ 8 := by
    intro j b
    split_ifs with hb
    · rw [h _ (by omega)]
    · rfl
  funext j
  simp only [copyBytes, hbyte]

theorem loadPages_congr {vaddrEnd : Nat} (fuel : Nat) : ∀ vaddr pageOffset fileOffset fileSize,
    (∀ x ∈ (pageReads vaddrEnd fuel vaddr pageOffset fileOffset fileSize).1, elf' x = elf x) →
    loadPages elf' proc vaddrEnd fuel vaddr pageOffset fileOffset fileSize =
      loadPages elf proc vaddrEnd fuel vaddr pageOffset fileOffset fileSize := by
  induction fuel with
  | zero => exact fun _ _ _ _ _ => rfl
  | succ fuel ih =>
    intro vaddr pageOffset fileOffset fileSize h
    rw [loadPages, loadPages]
    split_ifs with hlt
    · rw [pageReads_page hlt] at h
      have hcopy : ∀ paddr, memcpyElf paddr pageOffset (min fileSize (pageSize - pageOffset))
          (fun i => elf' (fileOffset + i)) = memcpyElf paddr pageOffset (min fileSize (pageSize - pageOffset))
          (fun i => elf (fileOffset + i)) := by
        intro paddr
        have hsrc : ∀ old, copyBytes old pageOffset (min fileSize (pageSize - pageOffset))
            (fun i => elf' (fileOffset + i)) = copyBytes old pageOffset (min fileSize (pageSize - pageOffset))
            (fun i => elf (fileOffset + i)) := fun old => copyBytes_congr fun i hi =>
          h _ (List.mem_append_left _ (List.mem_range'_1.mpr (by omega)))
        simp only [memcpyElf, hsrc]
      have hrest := ih _ _ _ _ fun x hx => h x (List.mem_append_right _ hx)
      simp only [hcopy, hrest]
    · rfl

/-- A page loop that returns true has come to its end. -/
theorem loadPages_true {vaddrEnd : Nat} (hend : lastPage < vaddrEnd) (fuel : Nat) :
    ∀ vaddr pageOffset fileOffset fileSize (m m' : Machine), vaddr % pageSize = 0 → vaddr < 2 ^ 32 →
      (loadPages elf proc vaddrEnd fuel vaddr pageOffset fileOffset fileSize).run m ≠ .ok (true, m') := by
  induction fuel with
  | zero => exact fun _ _ _ _ _ _ _ _ h => absurd h Exec.throw_ok
  | succ fuel ih =>
    intro vaddr pageOffset fileOffset fileSize m m' halign h32 hrun
    have hlt : vaddr < vaddrEnd := by
      unfold lastPage pageSize at *
      omega
    rw [loadPages, if_pos hlt] at hrun
    obtain ⟨paddr, m₁, -, h₁⟩ := Exec.bind_ok.mp hrun
    split at h₁
    · cases (Exec.pure_ok.mp h₁).1
    · obtain ⟨_, m₂, -, h₂⟩ := Exec.bind_ok.mp h₁
      obtain ⟨_, m₃, -, h₃⟩ := Exec.bind_ok.mp h₂
      obtain ⟨_, m₄, -, h₄⟩ := Exec.bind_ok.mp h₃
      split at h₄
      · obtain ⟨_, m₅, -, h₅⟩ := Exec.bind_ok.mp h₄
        cases (Exec.pure_ok.mp h₅).1
      · obtain ⟨_, m₅, -, h₅⟩ := Exec.bind_ok.mp h₄
        obtain ⟨_, m₆, -, h₆⟩ := Exec.bind_ok.mp h₅
        exact ih _ _ _ _ m₆ m' (next_aligned halign) (u32_lt _) h₆

theorem loadFromProgHeader_true {ph : ProgHeader} (hv : ph.vaddr < 2 ^ 32) {m m' : Machine}
    (hrun : (loadFromProgHeader elf size ph proc).run m = .ok (true, m')) : ph.Checked size ∧ ¬ ph.Endless := by
  unfold loadFromProgHeader at hrun
  dsimp only at hrun
  split_ifs at hrun with h₁ h₂ h₃
  · cases (Exec.pure_ok.mp hrun).1
  · cases (Exec.pure_ok.mp hrun).1
  · exact ⟨⟨by omega, by omega, by omega⟩, fun he => he.1 h₃⟩
  · refine ⟨⟨by omega, by omega, by omega⟩, fun he => ?_⟩
    refine loadPages_true he.2 _ _ _ _ _ m m' ?_ ?_ hrun
    · exact ProgHeader.start_aligned
    · omega

theorem loadFromProgHeader_congr {ph : ProgHeader}
    (h : ∀ room, ∀ x ∈ (segmentReads size ph room).1, elf' x = elf x) :
    loadFromProgHeader elf' size ph proc = loadFromProgHeader elf size ph proc := by
  unfold loadFromProgHeader
  dsimp only
  split_ifs with h₁ h₂ h₃
  · rfl
  · rfl
  · rfl
  · refine loadPages_congr _ _ _ _ _ fun x hx => h (2 ^ 20 + 1) x ?_
    rw [segmentReads, if_neg (not_not.mpr ⟨by omega, by omega, by omega⟩), if_neg h₃]
    exact hx

theorem u16At_congr {off : Nat} (h : ∀ x ∈ List.range' off 2, elf' x = elf x) : u16At elf' off = u16At elf off := by
  rw [u16At, u16At, u8At, u8At, h off (by simp), h (off + 1) (by simp)]
  rfl

theorem u32At_congr {off : Nat} (h : ∀ x ∈ List.range' off 4, elf' x = elf x) : u32At elf' off = u32At elf off := by
  have hlow : u16At elf' off = u16At elf off := u16At_congr fun x hx => h x <| by
    rw [List.mem_range'_1] at *
    omega
  have hhigh : u16At elf' (off + 2) = u16At elf (off + 2) := u16At_congr fun x hx => h x <| by
    rw [List.mem_range'_1] at *
    omega
  rw [u32At, u32At, hlow, hhigh]

theorem progHeaderAt_congr {pht : Nat} (htype : u32At elf' pht = u32At elf pht)
    (h : ∀ x ∈ fieldReads pht, elf' x = elf x) : progHeaderAt elf' pht = progHeaderAt elf pht := by
  simp only [fieldReads, List.forall_mem_append] at h
  obtain ⟨⟨⟨hfilesz, hoffset⟩, hvaddr⟩, hmemsz⟩ := h
  rw [progHeaderAt, progHeaderAt, htype, u32At_congr hfilesz, u32At_congr hoffset, u32At_congr hvaddr, u32At_congr hmemsz]

/-- What comes after a call that does not return true does not matter. -/
theorem bind_congr_true {x : M Bool} {f f' : M Bool}
    (h : (∃ m m', x.run m = .ok (true, m')) → f' = f) :
    (x >>= fun ok => if ok then f' else return false) = x >>= fun ok => if ok then f else return false := by
  funext m
  show (x >>= _).run m = (x >>= _).run m
  rw [StateT.run_bind, StateT.run_bind]
  cases hx : x.run m with
  | error e => rfl
  | ok r =>
    obtain ⟨ok, m'⟩ := r
    cases ok with
    | false => rfl
    | true => rw [h ⟨m, m', hx⟩]

theorem loadFromPht_succ (num pht : Nat) : loadFromPht elf size entrySize proc (num + 1) pht =
    if (progHeaderAt elf pht).Loadable then do
      let ok ← loadFromProgHeader elf size (progHeaderAt elf pht) proc
      if ok then loadFromPht elf size entrySize proc num (pht + entrySize) else return false
    else loadFromPht elf size entrySize proc num (pht + entrySize) := by
  rw [loadFromPht]
  rfl

theorem loadFromPht_congr (num : Nat) : ∀ pht,
    (∀ room, ∀ x ∈ (phtReads elf size entrySize num pht room).1, elf' x = elf x) →
    loadFromPht elf' size entrySize proc num pht = loadFromPht elf size entrySize proc num pht := by
  induction num with
  | zero => exact fun _ _ => rfl
  | succ num ih =>
    intro pht h
    have htail : (progHeaderAt elf pht).Passes size → loadFromPht elf' size entrySize proc num (pht + entrySize) =
        loadFromPht elf size entrySize proc num (pht + entrySize) := by
      refine fun hp => ih _ fun room x hx => ?_
      obtain ⟨room', hroom'⟩ := exists_phtReads_tail hp room
      exact h room' x (hroom' x hx)
    have htype : u32At elf' pht = u32At elf pht := u32At_congr fun x hx => h 0 x (mem_phtReads_type hx)
    by_cases hl : (progHeaderAt elf pht).Loadable
    · have hph : progHeaderAt elf' pht = progHeaderAt elf pht :=
        progHeaderAt_congr htype fun x hx => h 0 x (mem_phtReads_load hl (List.mem_append_left _ hx))
      have hseg : loadFromProgHeader elf' size (progHeaderAt elf pht) proc =
          loadFromProgHeader elf size (progHeaderAt elf pht) proc :=
        loadFromProgHeader_congr fun room x hx => h room x (mem_phtReads_load hl (List.mem_append_right _ hx))
      rw [loadFromPht_succ, loadFromPht_succ, hph, if_pos hl, if_pos hl, hseg]
      refine bind_congr_true fun ⟨m, m', hrun⟩ => htail fun _ => ?_
      exact loadFromProgHeader_true (u32At_lt elf _) hrun
    · have hl' : ¬ (progHeaderAt elf' pht).Loadable := by
        show ¬ (u32At elf' pht = _ ∨ u32At elf' pht = _)
        rw [htype]
        exact hl
      rw [loadFromPht_succ, loadFromPht_succ, if_neg hl, if_neg hl']
      exact htail fun hl' => absurd hl' hl

/-- A table that is loaded is one that the trace goes through. -/
theorem phtReads_of_loadFromPht (num : Nat) : ∀ pht (m m' : Machine),
    (loadFromPht elf size entrySize proc num pht).run m = .ok (true, m') →
    ∃ k, ∀ room, (phtReads elf size entrySize num pht (k + room)).2 = some room := by
  induction num with
  | zero => exact fun _ _ _ _ => ⟨0, fun room => by rw [phtReads, Nat.zero_add]⟩
  | succ num ih =>
    intro pht m m' hrun
    rw [loadFromPht_succ] at hrun
    by_cases hl : (progHeaderAt elf pht).Loadable
    · rw [if_pos hl] at hrun
      obtain ⟨ok, m₁, h₁, h₂⟩ := Exec.bind_ok.mp hrun
      cases ok with
      | false => cases (Exec.pure_ok.mp h₂).1
      | true =>
        obtain ⟨hc, he⟩ := loadFromProgHeader_true (u32At_lt elf _) h₁
        obtain ⟨k₁, hk₁⟩ := ProgHeader.segmentReads_passes hc he
        obtain ⟨k₂, hk₂⟩ := ih _ m₁ m' h₂
        refine ⟨k₁ + k₂, fun room => ?_⟩
        rw [phtReads]
        dsimp only
        rw [if_pos hl, Nat.add_assoc, hk₁]
        exact hk₂ room
    · rw [if_neg hl] at hrun
      obtain ⟨k, hk⟩ := ih _ m m' hrun
      refine ⟨k, fun room => ?_⟩
      rw [phtReads]
      dsimp only
      rw [if_neg hl]
      exact hk room

theorem identified_congr (h : ∀ x ∈ identReads elf, elf' x = elf x) : Identified elf' ↔ Identified elf := by
  have h0 : u8At elf' 0 = u8At elf 0 := congrArg UInt8.toNat (h 0 (by simp [identReads]))
  have h1 : u8At elf 0 = 0x7F → u8At elf' 1 = u8At elf 1 := fun e₀ =>
    congrArg UInt8.toNat (h 1 (by simp [identReads, e₀]))
  have h2 : u8At elf 0 = 0x7F → u8At elf 1 = 0x45 → u8At elf' 2 = u8At elf 2 := fun e₀ e₁ =>
    congrArg UInt8.toNat (h 2 (by simp [identReads, e₀, e₁]))
  have h3 : u8At elf 0 = 0x7F → u8At elf 1 = 0x45 → u8At elf 2 = 0x4C → u8At elf' 3 = u8At elf 3 := fun e₀ e₁ e₂ =>
    congrArg UInt8.toNat (h 3 (by simp [identReads, e₀, e₁, e₂]))
  unfold Identified
  rw [h0]
  refine and_congr_right fun e₀ => ?_
  rw [h1 e₀]
  refine and_congr_right fun e₁ => ?_
  rw [h2 e₀ e₁]
  refine and_congr_right fun e₂ => ?_
  rw [h3 e₀ e₁ e₂]

/-- The loader, with its checks under their names. -/
theorem elfLoadProgram_eq : elfLoadProgram elf size proc =
    if ¬ Identified elf then return false
    else if u16At elf 16 ≠ elfEtExec then return false
    else if ¬ TableChecked elf size then return false
    else do
      let ok ← loadFromPht elf size (ePhentsize elf) proc (ePhnum elf) (ePhoff elf)
      if ok then
        modifyProc proc fun p => { p with entry := u32At elf 24 }
        return true
      else
        return false := by
  have hid : (u8At elf 0 ≠ 0x7F ∨ u8At elf 1 ≠ 0x45 ∨ u8At elf 2 ≠ 0x4C ∨ u8At elf 3 ≠ 0x46) ↔ ¬ Identified elf := by
    unfold Identified
    tauto
  have htable : (u32At elf 28 = 0 ∨ u32At elf 28 ≥ size) ∨ u32 (u32At elf 28 + u16At elf 42 * u16At elf 44) > size ↔
      ¬ TableChecked elf size := by
    unfold TableChecked ePhoff ePhentsize ePhnum
    omega
  unfold elfLoadProgram
  simp only [hid]
  by_cases h₁ : u32At elf 28 = 0 ∨ u32At elf 28 ≥ size
  · rw [if_pos h₁, if_pos (htable.mp (.inl h₁))]
  · by_cases h₂ : u32 (u32At elf 28 + u16At elf 42 * u16At elf 44) > size
    · rw [if_neg h₁, if_pos h₂, if_pos (htable.mp (.inr h₂))]
    · rw [if_neg h₁, if_neg h₂, if_neg fun hn => (htable.mpr hn).elim h₁ h₂]
      rfl

/-- The trace has every byte that the loader depends on. -/
theorem elfLoadProgram_congr (h : ∀ room, ∀ x ∈ elfReads elf size room, elf' x = elf x) :
    elfLoadProgram elf' size proc = elfLoadProgram elf size proc := by
  have hphentsize : ePhentsize elf' = ePhentsize elf := u16At_congr fun x hx => h 0 x <| by
    simp only [elfReads, List.mem_append]
    tauto
  have hphnum : ePhnum elf' = ePhnum elf := u16At_congr fun x hx => h 0 x <| by
    simp only [elfReads, List.mem_append]
    tauto
  have hid := identified_congr fun x hx => h 0 x <| by
    simp only [elfReads, List.mem_append]
    tauto
  rw [elfLoadProgram_eq, elfLoadProgram_eq]
  by_cases h₁ : Identified elf
  · rw [if_neg (not_not.mpr h₁), if_neg (not_not.mpr (hid.mpr h₁))]
    have htype : u16At elf' 16 = u16At elf 16 := u16At_congr fun x hx => h 0 x <| by
      simp only [elfReads, List.mem_append, h₁, not_true_eq_false, if_false]
      tauto
    rw [htype]
    by_cases h₂ : u16At elf 16 ≠ elfEtExec
    · rw [if_pos h₂, if_pos h₂]
    · have hphoff : ePhoff elf' = ePhoff elf := u32At_congr fun x hx => h 0 x <| by
        simp only [elfReads, List.mem_append, h₁, not_true_eq_false, if_false, if_neg h₂]
        tauto
      have htable : TableChecked elf' size ↔ TableChecked elf size := by
        unfold TableChecked
        rw [hphoff, hphentsize, hphnum]
      rw [if_neg h₂, if_neg h₂]
      by_cases h₃ : TableChecked elf size
      · rw [if_neg (not_not.mpr h₃), if_neg (not_not.mpr (htable.mpr h₃)), hphoff, hphentsize, hphnum]
        have hmem : ∀ room, ∀ x ∈ (phtReads elf size (ePhentsize elf) (ePhnum elf) (ePhoff elf) room).1 ++
            (if (phtReads elf size (ePhentsize elf) (ePhnum elf) (ePhoff elf) room).2.isSome then List.range' 24 4
              else []), elf' x = elf x := by
          intro room x hx
          refine h room x ?_
          simp only [elfReads, h₁, h₃, not_true_eq_false, if_false, if_neg h₂]
          exact List.mem_append_right _ (List.mem_append_right _ (List.mem_append_right _ hx))
        rw [loadFromPht_congr _ _ fun room x hx => hmem room x (List.mem_append_left _ hx)]
        refine bind_congr_true ?_
        rintro ⟨m, m', hrun⟩
        obtain ⟨k, hk⟩ := phtReads_of_loadFromPht _ _ m m' hrun
        have hentry : u32At elf' 24 = u32At elf 24 := u32At_congr fun x hx => hmem (k + 0) x <| by
          rw [hk]
          exact List.mem_append_right _ hx
        rw [hentry]
      · rw [if_pos h₃, if_pos (mt htable.mp h₃)]
  · rw [if_pos h₁, if_pos (mt hid.mp h₁)]

end
end Airix.Proc
