import Airix.Proc.Alloc

/-!
# What is in an address space

`lookup` is the walk of the MMU in the directory of a process. In a space that the machine holds it finds the
pages of the space, so what the loader did can be read off the memory.
-/

namespace Airix.Proc
open Exec (After)

/-- The flags of the two entries, and the frame of the page. -/
structure Mapping where
  tableFlag : Nat
  pageFlag : Nat
  frame : Nat
deriving DecidableEq, Repr

/-- The directory entry for an address. -/
def dirEntry (s : State) (p : Process) (vaddr : Nat) : Nat := s.mem (Slab.frame p.pageDir) (vmmPdeIndex vaddr)

def lookup (s : State) (o vaddr : Nat) : Option Mapping :=
  (s.procs o).bind fun p =>
    let pde := dirEntry s p vaddr
    let pte := s.mem (pde / pageSize) (vmmPteIndex vaddr)
    if pde % 2 = vmmPresent ∧ pte % 2 = vmmPresent then some ⟨entryFlag pde, entryFlag pte, pte / pageSize⟩ else none

/-- The byte of a word at an address. -/
def wordByte (w vaddr : Nat) : Nat := w / 2 ^ (8 * (vaddr % 4)) % 2 ^ 8

/-- The byte at an address; `none` when nothing is mapped there. -/
def byteAt (s : State) (o vaddr : Nat) : Option Nat :=
  (lookup s o vaddr).map fun x => wordByte (s.mem x.frame (vaddr % pageSize / 4)) vaddr

/-- The pages of a process. -/
def mappedPages (s : State) (o : Nat) : Finset Nat :=
  (Finset.range (2 ^ 20)).filter fun n => (lookup s o (n * pageSize)).isSome

/-- The entries of its directory that have a table. -/
def mappedTables (s : State) (p : Process) : Finset Nat :=
  (Finset.range numPde).filter fun pde => s.mem (Slab.frame p.pageDir) pde % 2 = vmmPresent

section
variable {freeAddr entriesAddr : Nat} {entries : Array Pmm.MmapEntry} {E : Env} {m : Machine} {x : Space}

/-- The place is in the space, as the entry for it says. -/
theorem Rep.entry_spec (h : Rep freeAddr entriesAddr entries E m x) {b : Place} (hb : b ∈ x.places) (he : b.HasEntries)
    {i : Nat} (hi : i < x.size b) :
    (m.state.mem (x.frame b) i % 2 = 1 ↔ x.flag (b.entry i) ≠ none) ∧
    ∀ k, x.flag (b.entry i) = some k → m.state.mem (x.frame b) i / pageSize = x.frame (b.entry i) ∧
      entryFlag (m.state.mem (x.frame b) i) = k := by
  have hentry := (h.fits b hb).entry he hi
  refine ⟨hentry.present_iff h.ok, fun k hk => ?_⟩
  obtain ⟨haddr, hflag⟩ := hentry.some_eq h.ok hk
  refine ⟨?_, hflag⟩
  unfold entryAddress pageSize at haddr
  unfold pageSize
  omega

/-- What the walk finds below the limit. -/
theorem Rep.lookup_eq (h : Rep freeAddr entriesAddr entries E m x) (hw : WindowOk freeAddr entriesAddr entries)
    (hl : x.Linked) (hd : .dir ∈ x.places) (hdir : x.proc.pageDir = x.ptr .dir) {vaddr : Nat} (hv : vaddr < 2 ^ 32)
    (hlimit : vaddr / pageSize / numPte < x.limit) :
    lookup m.state E.owner vaddr = (x.flag (vpage (vaddr / pageSize))).map fun k =>
      ⟨(x.flag (.table (vaddr / pageSize / numPte))).getD 0, k, x.frame (vpage (vaddr / pageSize))⟩ := by
  obtain ⟨hpde, hpte⟩ := Place.page.inj (vpage_eq hv)
  have hframe : Slab.frame x.proc.pageDir = x.frame .dir := by
    rw [hdir]
    exact h.frame_ptr hw hd
  unfold lookup dirEntry
  rw [h.proc, Option.bind_some, hframe, hpde, hpte]
  obtain ⟨hiff, hsome⟩ := h.entry_spec hd trivial (i := vaddr / pageSize / numPte) hlimit
  have hiff' : x.flag (.table (vaddr / pageSize / numPte)) = none ↔ _ := h.ok.flag_iff hl (by simp) (by simp)
  dsimp only
  cases ht : x.flag (.table (vaddr / pageSize / numPte)) with
  | none =>
    have hp : x.flag (vpage (vaddr / pageSize)) = none :=
      h.ok.flag_none fun hm => hiff'.mp ht (h.ok.page _ _ hm).1
    rw [hp, if_neg]
    · rfl
    · rintro ⟨h₁, -⟩
      exact hiff.mp h₁ ht
  | some k =>
    obtain ⟨hdiv, hflag⟩ : _ = x.frame (.table (vaddr / pageSize / numPte)) ∧ _ = k := hsome k ht
    have hmem : .table (vaddr / pageSize / numPte) ∈ x.places := (h.ok.flag _ k ht).1
    obtain ⟨hiff₂, hsome₂⟩ : (_ ↔ x.flag (vpage (vaddr / pageSize)) ≠ none) ∧
        ∀ j, x.flag (vpage (vaddr / pageSize)) = some j → _ = x.frame (vpage (vaddr / pageSize)) ∧ _ = j :=
      h.entry_spec hmem trivial (i := vaddr / pageSize % numPte) (Nat.mod_lt _ (by decide))
    have hpresent : m.state.mem (x.frame .dir) (vaddr / pageSize / numPte) % 2 = vmmPresent := hiff.mpr (by simp [Place.entry, ht])
    rw [hdiv, hflag]
    cases hk : x.flag (vpage (vaddr / pageSize)) with
    | none =>
      rw [if_neg]
      · rfl
      · rintro ⟨-, h₂⟩
        exact hiff₂.mp h₂ hk
    | some j =>
      obtain ⟨hdiv₂, hflag₂⟩ := hsome₂ j hk
      rw [if_pos ⟨hpresent, hiff₂.mpr (by simp [hk])⟩, hdiv₂, hflag₂]
      rfl

theorem Rep.words (h : Rep freeAddr entriesAddr entries E m x) {n k : Nat} (hk : x.flag (vpage n) = some k) :
    m.state.mem (x.frame (vpage n)) = x.words (vpage n) :=
  (Space.fits_words (by simp [vpage, Place.HasEntries])).mp (h.fits _ (h.ok.flag _ k hk).1)

theorem Space.Sound.lookup_eq (hx : x.Sound) (h : Rep freeAddr entriesAddr entries E m x)
    (hw : WindowOk freeAddr entriesAddr entries) {vaddr : Nat} (hv : vaddr < 2 ^ 32) :
    lookup m.state E.owner vaddr = (x.flag (vpage (vaddr / pageSize))).map fun k =>
      ⟨(x.flag (.table (vaddr / pageSize / numPte))).getD 0, k, x.frame (vpage (vaddr / pageSize))⟩ := by
  refine h.lookup_eq hw hx.linked hx.dir hx.pageDir hv ?_
  rw [hx.limit]
  unfold pageSize numPte numPde
  omega

theorem Space.Sound.byteAt_eq (hx : x.Sound) (h : Rep freeAddr entriesAddr entries E m x)
    (hw : WindowOk freeAddr entriesAddr entries) {vaddr : Nat} (hv : vaddr < 2 ^ 32) :
    byteAt m.state E.owner vaddr = (x.flag (vpage (vaddr / pageSize))).map fun _ =>
      wordByte (x.words (vpage (vaddr / pageSize)) (vaddr % pageSize / 4)) vaddr := by
  rw [byteAt, hx.lookup_eq h hw hv]
  cases hk : x.flag (vpage (vaddr / pageSize)) with
  | none => rfl
  | some k => simp [h.words hk]

/-! ### Counting -/

theorem Space.Sound.mem_pages (hx : x.Sound) (h : Rep freeAddr entriesAddr entries E m x)
    (hw : WindowOk freeAddr entriesAddr entries) {n : Nat} :
    n ∈ mappedPages m.state E.owner ↔ vpage n ∈ x.places := by
  have hiff := h.ok.flag_iff hx.linked (a := vpage n) (by simp [vpage]) (by simp [vpage])
  unfold mappedPages
  rw [Finset.mem_filter, Finset.mem_range]
  have hdiv : n * pageSize / pageSize = n := Nat.mul_div_cancel _ (by decide)
  constructor
  · rintro ⟨hlt, hsome⟩
    rw [hx.lookup_eq h hw (by unfold pageSize; omega), hdiv, Option.isSome_map, Option.isSome_iff_ne_none] at hsome
    exact not_not.mp (mt hiff.mpr hsome)
  · intro hm
    have hlt : n < 2 ^ 20 := by
      have := (h.ok.table _ (h.ok.page _ _ hm).1).2
      rw [hx.limit] at this
      unfold numPte numPde at this
      omega
    refine ⟨hlt, ?_⟩
    rw [hx.lookup_eq h hw (by unfold pageSize; omega), hdiv, Option.isSome_map, Option.isSome_iff_ne_none]
    exact mt hiff.mp (not_not.mpr hm)

theorem Space.Sound.mem_tables (hx : x.Sound) (h : Rep freeAddr entriesAddr entries E m x)
    (hw : WindowOk freeAddr entriesAddr entries) {pde : Nat} :
    pde ∈ mappedTables m.state x.proc ↔ .table pde ∈ x.places := by
  have hiff := h.ok.flag_iff hx.linked (a := .table pde) (by simp) (by simp)
  have hframe : Slab.frame x.proc.pageDir = x.frame .dir := by
    rw [hx.pageDir]
    exact h.frame_ptr hw hx.dir
  unfold mappedTables
  rw [Finset.mem_filter, Finset.mem_range, hframe]
  constructor
  · rintro ⟨hlt, hp⟩
    obtain ⟨hentry, -⟩ := h.entry_spec hx.dir trivial (i := pde) (lt_of_lt_of_eq hlt hx.limit.symm)
    exact not_not.mp (mt hiff.mpr (hentry.mp hp))
  · intro hm
    have hlt := (h.ok.table _ hm).2
    obtain ⟨hentry, -⟩ := h.entry_spec hx.dir trivial (i := pde) hlt
    rw [hx.limit] at hlt
    exact ⟨hlt, hentry.mpr (mt hiff.mp (not_not.mpr hm))⟩

/-- The frames of a space: the directory, the tables and the pages. -/
theorem Space.Sound.card_places (hx : x.Sound) (h : Rep freeAddr entriesAddr entries E m x)
    (hw : WindowOk freeAddr entriesAddr entries) :
    x.places.card = 1 + (mappedTables m.state x.proc).card + (mappedPages m.state E.owner).card := by
  have hplaces : x.places = insert .dir ((mappedTables m.state x.proc).image Place.table ∪
      (mappedPages m.state E.owner).image vpage) := by
    ext a
    simp only [Finset.mem_insert, Finset.mem_union, Finset.mem_image, hx.mem_tables h hw, hx.mem_pages h hw]
    cases a with
    | dir => simp [hx.dir]
    | hand => simp [hx.hand, vpage]
    | table pde => simp [vpage]
    | page pde pte =>
      simp only [reduceCtorEq, and_false, exists_const, false_or]
      constructor
      · intro hm
        obtain ⟨n, hn, -⟩ := exists_vpage pde (h.ok.page _ _ hm).2
        exact ⟨n, hn ▸ hm, hn⟩
      · rintro ⟨n, hn, e⟩
        exact e ▸ hn
  rw [hplaces, Finset.card_insert_of_notMem, Finset.card_union_of_disjoint, Finset.card_image_of_injective,
    Finset.card_image_of_injective]
  · omega
  · exact fun a b e => vpage_inj e
  · exact fun a b e => Place.table.inj e
  · rw [Finset.disjoint_left]
    intro a ha hb
    obtain ⟨pde, -, rfl⟩ := Finset.mem_image.mp ha
    obtain ⟨n, -, e⟩ := Finset.mem_image.mp hb
    simp [vpage] at e
  · simp [vpage]

theorem Space.Sound.memPages_eq (hx : x.Sound) (h : Rep freeAddr entriesAddr entries E m x)
    (hw : WindowOk freeAddr entriesAddr entries) :
    x.proc.memPages = 1 + (mappedTables m.state x.proc).card + (mappedPages m.state E.owner).card := by
  rw [hx.pages, hx.card_places h hw]
  refine u32_of_lt ?_
  have h₁ : (mappedTables m.state x.proc).card ≤ numPde :=
    (Finset.card_filter_le _ _).trans_eq (Finset.card_range _)
  have h₂ : (mappedPages m.state E.owner).card ≤ 2 ^ 20 :=
    (Finset.card_filter_le _ _).trans_eq (Finset.card_range _)
  unfold numPde at h₁
  omega

end

/-! ### Loaded programs -/

theorem wordByte_pageWord (byte : Nat → UInt8) (vaddr : Nat) :
    wordByte (pageWord byte (vaddr / pageSize) (vaddr % pageSize / 4)) vaddr = (byte vaddr).toNat := by
  have ha : vaddr / pageSize * pageSize + 4 * (vaddr % pageSize / 4) + vaddr % 4 = vaddr := by
    unfold pageSize
    omega
  unfold wordByte pageWord
  dsimp only
  generalize vaddr / pageSize * pageSize + 4 * (vaddr % pageSize / 4) = a at ha
  have h₀ := UInt8.toNat_lt (byte a)
  have h₁ := UInt8.toNat_lt (byte (a + 1))
  have h₂ := UInt8.toNat_lt (byte (a + 2))
  have h₃ := UInt8.toNat_lt (byte (a + 3))
  have hb : byte vaddr = byte (a + vaddr % 4) := by rw [ha]
  rw [hb]
  rcases (by omega : vaddr % 4 = 0 ∨ vaddr % 4 = 1 ∨ vaddr % 4 = 2 ∨ vaddr % 4 = 3) with e | e | e | e <;> rw [e]
  · simp only [Nat.mul_zero, Nat.add_zero, Nat.pow_zero, Nat.div_one]
    omega
  · omega
  · omega
  · omega

/-- The byte that the segments have at an address. -/
theorem Space.Loads.byte {elf : Nat → UInt8} {l : List ProgHeader} {x y : Space}
    (h : Space.Loads 7 (pagesOf l) (imageOf elf l) x y) (hfile : ∀ ph ∈ l, ph.offset + ph.filesz < 2 ^ 32) {vaddr : Nat}
    (hv : vaddr / pageSize ∈ pagesOf l) :
    ∃ ph ∈ l, ph.Overlaps (vaddr / pageSize) ∧ ph.filesz ≤ ph.memsz ∧
      wordByte (y.words (vpage (vaddr / pageSize)) (vaddr % pageSize / 4)) vaddr =
        (segmentByte elf ph.vaddr ph.offset ph.filesz vaddr).toNat := by
  obtain ⟨ph, hph, hov, hle, himage⟩ := (h.page _ hv).2
  refine ⟨ph, hph, hov, hle, ?_⟩
  rw [himage (hfile ph hph) _ (by unfold pageSize; omega), wordByte_pageWord]

section
variable {freeAddr entriesAddr : Nat} {entries : Array Pmm.MmapEntry} {s : State} {elf : Nat → UInt8} {size proc : Nat}
  {fails : List Bool} {m₁ m₂ m₃ : Machine}

/-- What `elf_load_program` leaves in a new space. -/
theorem elfLoadProgram_space (hw : WindowOk freeAddr entriesAddr entries) (hs : Run freeAddr entriesAddr entries s)
    (h₁ : procAlloc.run ⟨s, fails, []⟩ = .ok (proc, m₁)) (h0 : proc ≠ 0)
    (h₂ : (initPageDir proc).run m₁ = .ok (true, m₂))
    (hend : Bounded elf) (h₃ : (elfLoadProgram elf size proc).run m₂ = .ok (true, m₃)) :
    ∃ (E : Env) (p : Process) (x y : Space), E.owner = proc ∧ Rep freeAddr entriesAddr entries E m₂ x ∧ Space.Empty p x ∧
      Rep freeAddr entriesAddr entries E m₃ y ∧ y.Sound ∧ y.proc.entry = u32At elf 24 ∧
      Space.Loads 7 (pagesOf (segments elf)) (imageOf elf (segments elf)) x y := by
  obtain ⟨live, frames, hinv⟩ := hs.inv hw.toBootOk fails
  rcases hinv.procAlloc_ok rfl hw.toBootOk h₁ with ⟨-, live', frames', pid, ha⟩ | ⟨hz, -⟩
  swap
  · exact absurd hz h0
  have hproc : m₁.state.procs proc = some (newProcess pid) := by rw [ha.procs, Function.update_self]
  have hnew := Rep.new ha.inv.run hproc
  obtain ⟨x, hx, ⟨hf, -⟩ | ⟨-, hempty⟩⟩ := ((after_initPageDir hw rfl (t := False)) m₁ hnew).1 true m₂ h₂
  · cases hf
  obtain ⟨y, hy, hsound, -, hload⟩ :=
    ((after_elfLoadProgram hw hempty.sound (t := False) False.elim) m₂ hx).1 true m₃ h₃
  obtain ⟨hproc', hloads⟩ := hload rfl
  exact ⟨_, _, x, y, rfl, hx, hempty, hy, hsound, by rw [hproc'], hloads hend⟩

/-- `elf_load_program` builds the image of the file in an empty address space: the bytes of the segments, zeros in
the rest of their pages, no other page, and `mem_pages` counts what was allocated. -/
theorem elf_image (hw : WindowOk freeAddr entriesAddr entries) (hs : Run freeAddr entriesAddr entries s)
    (h₁ : procAlloc.run ⟨s, fails, []⟩ = .ok (proc, m₁)) (h0 : proc ≠ 0)
    (h₂ : (initPageDir proc).run m₁ = .ok (true, m₂)) (hsize : size < 2 ^ 32)
    (hbounds : ∀ ph ∈ segments elf, ph.offset + ph.filesz ≤ size ∧ ph.vaddr + ph.memsz ≤ kernelBase)
    (hdisjoint : (segments elf).Pairwise ProgHeader.Apart)
    (h₃ : (elfLoadProgram elf size proc).run m₂ = .ok (true, m₃)) :
    (∀ ph ∈ segments elf, ∀ i < ph.memsz, byteAt m₃.state proc (ph.vaddr + i) =
      some (if i < ph.filesz then u8At elf (ph.offset + i) else 0)) ∧
    (∀ vaddr < 2 ^ 32, (lookup m₃.state proc vaddr).isSome →
      (∀ ph ∈ segments elf, ¬ (ph.vaddr ≤ vaddr ∧ vaddr < ph.vaddr + ph.memsz)) → byteAt m₃.state proc vaddr = some 0) ∧
    (∀ vaddr < 2 ^ 32, (lookup m₃.state proc vaddr).isSome ↔ ∃ ph ∈ segments elf, ph.Overlaps (vaddr / pageSize)) ∧
    ∃ p₂ p₃, m₂.state.procs proc = some p₂ ∧ m₃.state.procs proc = some p₃ ∧
      p₃.memPages = p₂.memPages + (mappedPages m₃.state proc).card + (mappedTables m₃.state p₃).card ∧
      p₃.entry = u32At elf 24 := by
  have hlast : kernelBase ≤ lastPage := by decide
  obtain ⟨E, p, x, y, rfl, hx, hempty, hy, hsound, hentry, hloads⟩ := elfLoadProgram_space hw hs h₁ h0 h₂
    (fun ph hph => (hbounds ph hph).2.trans hlast) h₃
  have hfile : ∀ ph ∈ segments elf, ph.offset + ph.filesz < 2 ^ 32 := fun ph hph => (hbounds ph hph).1.trans_lt hsize
  have hmapped : ∀ n, y.flag (vpage n) ≠ none ↔ n ∈ pagesOf (segments elf) := by
    intro n
    refine ⟨fun hn => by_contra fun hm => hn ?_, fun hm => by simp [(hloads.page n hm).1]⟩
    rw [(hloads.old n hm).1, hempty.flag]
  have hbyte : ∀ vaddr < 2 ^ 32, vaddr / pageSize ∈ pagesOf (segments elf) → ∃ ph ∈ segments elf,
      ph.Overlaps (vaddr / pageSize) ∧ ph.filesz ≤ ph.memsz ∧ byteAt m₃.state E.owner vaddr =
        some (segmentByte elf ph.vaddr ph.offset ph.filesz vaddr).toNat := by
    intro vaddr hv hm
    obtain ⟨ph, hph, hov, hle, hb⟩ := hloads.byte hfile hm
    refine ⟨ph, hph, hov, hle, ?_⟩
    rw [hsound.byteAt_eq hy hw hv, (hloads.page _ hm).1, Option.map_some, hb]
  have hlookup : ∀ vaddr < 2 ^ 32, (lookup m₃.state E.owner vaddr).isSome ↔
      ∃ ph ∈ segments elf, ph.Overlaps (vaddr / pageSize) := by
    intro vaddr hv
    rw [hsound.lookup_eq hy hw hv, Option.isSome_map, Option.isSome_iff_ne_none, hmapped]
    rfl
  refine ⟨fun ph hph i hi => ?_, fun vaddr hv hsome hout => ?_, hlookup, x.proc, y.proc, hx.proc, hy.proc, ?_, hentry⟩
  · have hv : ph.vaddr + i < 2 ^ 32 := by
      have := (hbounds ph hph).2
      unfold kernelBase at this
      omega
    have hov : ph.Overlaps ((ph.vaddr + i) / pageSize) := by
      refine ⟨by omega, ?_, ?_⟩ <;> unfold pageSize <;> omega
    obtain ⟨ph', hph', hov', -, hb⟩ := hbyte _ hv ⟨ph, hph, hov⟩
    have he : ph' = ph := by
      by_contra hne
      exact hdisjoint.forall hph' hph hne _ hov' hov
    rw [hb, he]
    unfold segmentByte u8At
    by_cases hfs : i < ph.filesz
    · rw [if_pos ⟨by omega, by omega⟩, if_pos hfs, Nat.add_sub_cancel_left]
    · rw [if_neg (by omega), if_neg hfs]
      rfl
  · obtain ⟨ph, hph, hov, hle, hb⟩ := hbyte vaddr hv ((hlookup vaddr hv).mp hsome)
    have := hout ph hph
    rw [hb, segmentByte, if_neg (by omega)]
    rfl
  · have h₂ : x.proc.memPages = 1 := by rw [hempty.proc]
    rw [hsound.memPages_eq hy hw, h₂]
    omega

end

/-! ### A small machine -/

/-- A boot with memory up to `0x110000`: pages `0x103` to `0x10F` are free. -/
def smallMap : Array Pmm.MmapEntry := #[⟨0x100000, 0, 0x10000, 0, 1⟩]

theorem smallMap_ok : WindowOk 0x102000 0xC0007E08 smallMap where
  words := by decide
  nonempty := by decide
  disjoint := by decide
  usable_stop := by decide
  kernel := by decide
  map_le := by decide
  reach := by decide
  window := by decide

/-- The cache for processes, in a slab allocator that has nothing else. -/
def smallSlab : Except Slab.Panic (Nat × Slab.State) :=
  Slab.slabCreateKmemCache (Slab.initState (Pmm.pmmInitialize 0x102000 0xC0007E08 smallMap)) 128 4

/-- What `x` returns on the small machine, when all allocations find memory. -/
def smallRun {α : Type} (x : M α) : Except Panic (α × Machine) :=
  match smallSlab with
  | .error e => .error (.slab e)
  | .ok (cache, slab) => x.run ⟨initState slab (fun _ _ => 0) 0xC0101000 cache, [], []⟩

theorem smallRun_ok {α : Type} {x : M α} {P : α → Bool}
    (h : (match smallRun x with | .ok (a, _) => P a | .error _ => false) = true) :
    ∃ s a m, Run 0x102000 0xC0007E08 smallMap s ∧ x.run ⟨s, [], []⟩ = .ok (a, m) ∧ P a = true := by
  unfold smallRun at h
  cases hs : smallSlab with
  | error e => simp [hs] at h
  | ok r =>
    obtain ⟨cache, slab⟩ := r
    have hsize : Slab.CreateOk 128 4 := ⟨by decide, ⟨2, by decide, by decide, rfl⟩, by decide⟩
    have hslab := Slab.Run.create (.init .init) hsize hs
    have hrun : Run 0x102000 0xC0007E08 smallMap (initState slab (fun _ _ => 0) 0xC0101000 cache) :=
      .init _ _ hslab ⟨_, Function.update_self _ _ _⟩
    simp only [hs] at h
    cases hx : x.run ⟨initState slab (fun _ _ => 0) 0xC0101000 cache, [], []⟩ with
    | error e => simp [hx] at h
    | ok r =>
      obtain ⟨a, m⟩ := r
      rw [hx] at h
      exact ⟨_, a, m, hrun, hx, h⟩

/-- An executable of one segment: 20 bytes at `0x1000`, the first ten from the start of the file. -/
def smallElf (i : Nat) : UInt8 :=
  ([(0, 0x7F), (1, 0x45), (2, 0x4C), (3, 0x46), (16, 2), (25, 0x10), (28, 52), (42, 32), (44, 1),
    (52, 1), (61, 0x10), (68, 10), (72, 20)].lookup i).getD 0

theorem segments_smallElf : segments smallElf = [⟨1, 0, 0x1000, 10, 20⟩] := by decide +kernel

theorem elf_image_small : ∃ (proc : Nat) (m : Machine), byteAt m.state proc 0x1003 = some 0x46 ∧ byteAt m.state proc 0x100A = some 0 ∧
    byteAt m.state proc 0x1FFF = some 0 ∧ lookup m.state proc 0x2000 = none ∧
    ∃ p, m.state.procs proc = some p ∧ p.entry = 0x1000 := by
  obtain ⟨s, ⟨proc, b, b'⟩, m, hs, hrun, hP⟩ := smallRun_ok (x := do
      let proc ← procAlloc
      let b ← initPageDir proc
      let b' ← elfLoadProgram smallElf 84 proc
      return (proc, b, b')) (P := fun r => r.1 ≠ 0 && r.2.1 && r.2.2) (by decide +kernel)
  simp only [ne_eq, decide_not, Bool.and_eq_true, Bool.not_eq_eq_eq_not, Bool.not_true, decide_eq_false_iff_not] at hP
  obtain ⟨⟨h0, rfl⟩, rfl⟩ := hP
  obtain ⟨proc', m₁, h₁, hrun⟩ := Exec.bind_ok.mp hrun
  obtain ⟨b, m₂, h₂, hrun⟩ := Exec.bind_ok.mp hrun
  obtain ⟨b', m₃, h₃, hrun⟩ := Exec.bind_ok.mp hrun
  obtain ⟨e, rfl⟩ := Exec.pure_ok.mp hrun
  simp only [Prod.mk.injEq] at e
  obtain ⟨rfl, rfl, rfl⟩ := e
  obtain ⟨hbytes, hzero, hpages, -, p, -, hp, -, hentry⟩ := elf_image smallMap_ok hs h₁ h0 h₂ (by decide)
    (by rw [segments_smallElf]; decide) (by rw [segments_smallElf]; simp) h₃
  rw [segments_smallElf] at hbytes hzero hpages
  simp only [List.mem_singleton, forall_eq, exists_eq_left] at hbytes hzero hpages
  have hpage : (lookup m₃.state proc' 0x1FFF).isSome := (hpages 0x1FFF (by decide)).mpr ⟨by decide, by decide, by decide⟩
  refine ⟨proc', m₃, hbytes 3 (by decide), hbytes 10 (by decide), hzero 0x1FFF (by decide) hpage (by decide), ?_, p, hp,
    hentry⟩
  · have hnone := (hpages 0x2000 (by decide)).not.mpr fun h => absurd h.2.2 (by decide)
    simpa using hnone

end Airix.Proc
