import Airix.Proc.ElfReads
import Airix.Proc.Specs

/-!
# Building a space

What the loops of `elf.c` and `alloc_proc_stacks` add to a new space. Pages are numbered by their virtual address.
-/

namespace Airix.Proc
open Exec (After)

/-- The place of the page with number `n`. -/
def vpage (n : Nat) : Place := .page (n / numPte) (n % numPte)

theorem vpage_inj {n k : Nat} (h : vpage n = vpage k) : n = k := by
  obtain ⟨h₁, h₂⟩ := Place.page.inj h
  unfold numPte at h₁ h₂
  omega

theorem exists_vpage (pde : Nat) {pte : Nat} (h : pte < numPte) : ∃ n, vpage n = .page pde pte ∧ n / numPte = pde := by
  unfold numPte at h
  refine ⟨pde * numPte + pte, ?_, ?_⟩
  · unfold vpage numPte
    congr 1 <;> omega
  · unfold numPte
    omega

theorem vpage_eq {vaddr : Nat} (h : vaddr < 2 ^ 32) :
    Place.page (vmmPdeIndex vaddr) (vmmPteIndex vaddr) = vpage (vaddr / pageSize) := by
  unfold vpage vmmPdeIndex vmmPteIndex numPte pageSize
  congr 1
  omega

/-- The directory, and what is below `KERNEL_BASE`. -/
def Place.User : Place → Prop
  | .dir => True
  | .table pde | .page pde _ => pde < userPdes
  | .hand => False

instance : DecidablePred Place.User := fun a => match a with
  | .dir => inferInstanceAs (Decidable True)
  | .table pde | .page pde _ => inferInstanceAs (Decidable (pde < userPdes))
  | .hand => inferInstanceAs (Decidable False)

theorem vpage_user {n : Nat} : (vpage n).User ↔ n / numPte < userPdes := Iff.rfl

namespace Space

/-- Nothing from `KERNEL_BASE` on. -/
def AllUser (x : Space) : Prop := ∀ a ∈ x.places, a.User

/-- Between two steps of the construction. -/
structure Sound (x : Space) : Prop where
  linked : x.Linked
  hand : .hand ∉ x.places
  dir : .dir ∈ x.places
  limit : x.limit = numPde
  pageDir : x.proc.pageDir = x.ptr .dir
  pages : x.proc.memPages = u32 x.places.card

/-- The page `n` is added to a space, and a table for it if there is none. -/
structure Added (k n : Nat) (w : Nat → Nat) (x y : Space) : Prop where
  fresh : vpage n ∉ x.places
  places : y.places = insert (vpage n) (insert (.table (n / numPte)) x.places)
  frame : ∀ a ∈ x.places, y.frame a = x.frame a
  page : y.flag (vpage n) = some k ∧ y.words (vpage n) = w
  table : .table (n / numPte) ∉ x.places → y.flag (.table (n / numPte)) = some k
  flag : ∀ a, a ≠ vpage n → (a = .table (n / numPte) → a ∈ x.places) → y.flag a = x.flag a
  words : ∀ a ∈ x.places, y.words a = x.words a
  limit : y.limit = x.limit

/-- The pages in `new` are added, with what `P` says in them, and the tables for them. -/
structure Loads (k : Nat) (new : Set Nat) (P : Nat → (Nat → Nat) → Prop) (x y : Space) : Prop where
  fresh : ∀ n ∈ new, x.flag (vpage n) = none
  page : ∀ n ∈ new, y.flag (vpage n) = some k ∧ P n (y.words (vpage n))
  old : ∀ n, n ∉ new → y.flag (vpage n) = x.flag (vpage n) ∧
    (x.flag (vpage n) ≠ none → y.words (vpage n) = x.words (vpage n))
  table_old : ∀ pde, x.flag (.table pde) ≠ none → y.flag (.table pde) = x.flag (.table pde)
  table_new : ∀ n ∈ new, x.flag (.table (n / numPte)) = none → y.flag (.table (n / numPte)) = some k
  table_none : ∀ pde, x.flag (.table pde) = none → (∀ n ∈ new, n / numPte ≠ pde) → y.flag (.table pde) = none

/-- Only `mem_pages` of the process changes. -/
def Grown (x y : Space) : Prop := y.Sound ∧ y.proc = { x.proc with memPages := y.proc.memPages }

section
variable {x y z : Space} {k n : Nat} {w : Nat → Nat} {new new' : Set Nat} {P P' : Nat → (Nat → Nat) → Prop}

theorem Grown.trans (h : x.Grown y) (h' : y.Grown z) : x.Grown z := by
  refine ⟨h'.1, ?_⟩
  rw [h'.2, h.2]

theorem Loads.refl : Loads k ∅ P x x :=
  ⟨fun _ h => h.elim, fun _ h => h.elim, fun _ _ => ⟨rfl, fun _ => rfl⟩, fun _ _ => rfl, fun _ h => h.elim, fun _ h _ => h⟩

theorem Loads.mono (h : Loads k new P x y) (hP : ∀ n ∈ new, ∀ w, P n w → P' n w) : Loads k new P' x y :=
  { h with page := fun n hn => ⟨(h.page n hn).1, hP n hn _ (h.page n hn).2⟩ }

theorem Loads.trans (h : Loads k new P x y) (h' : Loads k new' P y z) : Loads k (new ∪ new') P x z := by
  refine ⟨fun n hn => ?_, fun n hn => ?_, fun n hn => ?_, fun pde hp => ?_, fun n hn hx => ?_, fun pde hx hn => ?_⟩
  · by_cases hm : n ∈ new
    · exact h.fresh n hm
    · rw [← (h.old n hm).1]
      exact h'.fresh n (hn.resolve_left hm)
  · by_cases hm : n ∈ new'
    · exact h'.page n hm
    · obtain ⟨hk, hP⟩ := h.page n (hn.resolve_right hm)
      obtain ⟨hold, hwords⟩ := h'.old n hm
      rw [hold, hwords (by simp [hk])]
      exact ⟨hk, hP⟩
  · rw [Set.mem_union, not_or] at hn
    obtain ⟨h₁, h₂⟩ := h.old n hn.1
    obtain ⟨h₃, h₄⟩ := h'.old n hn.2
    refine ⟨h₃.trans h₁, fun hx => ?_⟩
    rw [h₄ (by rw [h₁]; exact hx), h₂ hx]
  · rw [h'.table_old pde (by rw [h.table_old pde hp]; exact hp), h.table_old pde hp]
  · by_cases hy : y.flag (.table (n / numPte)) = none
    · rcases hn with hn | hn
      · rw [h.table_new n hn hx] at hy
        cases hy
      · exact h'.table_new n hn hy
    · rw [h'.table_old _ hy]
      by_contra hne
      by_cases hex : ∃ j ∈ new, j / numPte = n / numPte
      · obtain ⟨j, hj, e⟩ := hex
        rw [← e] at hx hne
        exact hne (h.table_new j hj hx)
      · push Not at hex
        exact hy (h.table_none _ hx hex)
  · refine h'.table_none pde (h.table_none pde hx fun n hm => hn n (.inl hm)) fun n hm => hn n (.inr hm)

theorem Added.loads (h : Added k n w x y) (hok : x.Ok) (hl : x.Linked) (hP : P n w) : Loads k {n} P x y := by
  refine ⟨?_, ?_, fun j hj => ?_, fun pde hp => ?_, ?_, fun pde hx hn => ?_⟩
  · rintro _ rfl
    exact hok.flag_none h.fresh
  · rintro _ rfl
    refine ⟨h.page.1, ?_⟩
    rw [h.page.2]
    exact hP
  · have hne : vpage j ≠ vpage n := fun e => hj (vpage_inj e)
    have hflag := h.flag (vpage j) hne (fun e => absurd e (by simp [vpage]))
    refine ⟨hflag, fun hk => h.words _ ?_⟩
    by_contra hm
    exact hk (hok.flag_none hm)
  · refine h.flag _ (by simp [vpage]) fun _ => ?_
    by_contra hm
    exact hp (hok.flag_none hm)
  · rintro _ rfl hx
    exact h.table ((hok.flag_iff hl (by simp) (by simp)).mp hx)
  · rw [h.flag _ (by simp [vpage]) fun e => absurd (Place.table.inj e).symm (hn n rfl)]
    exact hx

theorem Added.sound (h : Added k n w x y) (hx : x.Sound) {pages : Nat}
    (hpages : pages = if .table (n / numPte) ∈ x.places then 1 else 2) :
    (y.setProc { x.proc with memPages := u32 (x.proc.memPages + pages) }).Sound := by
  refine ⟨fun a ha hd hh => ?_, ?_, ?_, h.limit.trans hx.limit, ?_, ?_⟩
  · rw [setProc_flag]
    by_cases e : a = vpage n
    · rw [e, h.page.1]
      simp
    · by_cases e' : a = .table (n / numPte) ∧ a ∉ x.places
      · obtain ⟨rfl, hm⟩ := e'
        rw [h.table hm]
        simp
      · rw [h.flag a e fun e₂ => by_contra fun hm => e' ⟨e₂, hm⟩]
        rw [setProc_places, h.places, Finset.mem_insert, Finset.mem_insert] at ha
        refine hx.linked a ?_ hd hh
        rcases ha with ha | ha | ha
        · exact absurd ha e
        · exact by_contra fun hm => e' ⟨ha, hm⟩
        · exact ha
  · rw [setProc_places, h.places]
    simp [vpage, hx.hand]
  · rw [setProc_places, h.places]
    simp [hx.dir]
  · show x.proc.pageDir = castPhysicalToVirtual (y.frame .dir * pageSize)
    rw [h.frame _ hx.dir]
    exact hx.pageDir
  · have hne : vpage n ∉ insert (.table (n / numPte)) x.places := by
      rw [Finset.mem_insert, not_or]
      exact ⟨by simp [vpage], h.fresh⟩
    show u32 (x.proc.memPages + pages) = u32 y.places.card
    rw [h.places, Finset.card_insert_of_notMem hne, hx.pages, hpages]
    unfold u32
    split_ifs with ht
    · rw [Finset.insert_eq_of_mem ht]
      omega
    · rw [Finset.card_insert_of_notMem ht]
      omega

/-- `x` with a page in hand. -/
structure Holding (w : Nat → Nat) (x z : Space) : Prop where
  proc : z.proc = x.proc
  limit : z.limit = x.limit
  places : z.places = insert .hand x.places
  frame : ∀ a, a ≠ .hand → z.frame a = x.frame a
  flag : z.flag = x.flag
  words : ∀ a, a ≠ .hand → z.words a = x.words a
  hand : z.words .hand = w

theorem Holding.take (x : Space) (f : Nat) (w : Nat → Nat) : Holding w x (x.take .hand f w) :=
  ⟨rfl, rfl, rfl, fun _ ha => Function.update_of_ne ha _ _, rfl, fun _ ha => Function.update_of_ne ha _ _, by simp⟩

theorem Holding.setWords (h : Holding w x z) (v : Nat → Nat) : Holding v x (z.setWords .hand v) :=
  ⟨h.proc, h.limit, h.places, h.frame, h.flag, fun a ha => (Function.update_of_ne ha _ _).trans (h.words a ha),
    by simp⟩

theorem Holding.mem (h : Holding w x z) {a : Place} (ha : a ≠ .hand) : a ∈ z.places ↔ a ∈ x.places := by
  rw [h.places, Finset.mem_insert]
  exact or_iff_right ha

theorem Holding.linked (h : Holding w x z) (hx : x.Linked) : z.Linked := by
  intro a ha hd hh
  rw [h.flag]
  exact hx a ((h.mem hh).mp ha) hd hh

theorem Holding.drop_places (h : Holding w x z) (hx : x.Sound) : (z.drop .hand).places = x.places := by
  rw [Space.drop_places, h.places, Finset.erase_insert hx.hand]

/-- The page in hand goes back. -/
theorem Holding.drop (h : Holding w x z) (hx : x.Sound) : x.Grown (z.drop .hand) := by
  have hplaces := h.drop_places hx
  refine ⟨⟨fun a ha hd hh => ?_, ?_, ?_, h.limit.trans hx.limit, ?_, ?_⟩, ?_⟩
  · rw [hplaces] at ha
    rw [drop_flag, h.flag]
    exact hx.linked a ha hd hh
  · rw [hplaces]
    exact hx.hand
  · rw [hplaces]
    exact hx.dir
  · rw [drop_proc, h.proc, hx.pageDir, ptr, ptr, drop_frame, h.frame .dir (by simp)]
  · rw [drop_proc, h.proc, hplaces, hx.pages]
  · rw [drop_proc, h.proc]

/-- The page in hand goes to the place for page `n`; `z'` may have a new table for it. -/
theorem Holding.added (h : Holding w x z) (hx : x.Sound) (hp : vpage n ∉ x.places) {z' : Space}
    (hplaces : z'.places = insert (.table (n / numPte)) z.places)
    (hframe : ∀ a ∈ z.places, z'.frame a = z.frame a)
    (hwords : ∀ a ∈ z.places, z'.words a = z.words a)
    (htable : .table (n / numPte) ∉ x.places → z'.flag (.table (n / numPte)) = some k)
    (hflag : ∀ a, (a = .table (n / numPte) → a ∈ x.places) → z'.flag a = z.flag a) (hlimit : z'.limit = z.limit) :
    Added k n w x (z'.putHand (vpage n) k) := by
  have hhand : Place.hand ∈ z.places := by
    rw [h.places]
    exact Finset.mem_insert_self _ _
  have hmem : ∀ a ∈ x.places, a ∈ z.places ∧ a ≠ .hand ∧ a ≠ vpage n := by
    intro a ha
    refine ⟨?_, ?_, ?_⟩
    · rw [h.places]
      exact Finset.mem_insert_of_mem ha
    · rintro rfl
      exact hx.hand ha
    · rintro rfl
      exact hp ha
  refine ⟨hp, ?_, fun a ha => ?_, ⟨?_, ?_⟩, fun ht => ?_, fun a ha ht => ?_, fun a ha => ?_, hlimit.trans h.limit⟩
  · show insert (vpage n) (z'.places.erase .hand) = _
    rw [hplaces, h.places, Finset.insert_comm, Finset.erase_insert]
    rw [Finset.mem_insert, not_or]
    exact ⟨by simp, hx.hand⟩
  · obtain ⟨hz, hh, hn⟩ := hmem a ha
    simp only [putHand, setFlag_frame, take_frame, drop_frame]
    rw [Function.update_of_ne hn, hframe a hz, h.frame a hh]
  · simp [putHand]
  · simp only [putHand, setFlag_words, take_words, drop_words]
    rw [Function.update_self, hwords _ hhand, h.hand]
  · simp only [putHand, setFlag_flag, take_flag, drop_flag]
    rw [Function.update_of_ne (by simp [vpage])]
    exact htable ht
  · simp only [putHand, setFlag_flag, take_flag, drop_flag]
    rw [Function.update_of_ne ha, hflag a ht, h.flag]
  · obtain ⟨hz, hh, hn⟩ := hmem a ha
    simp only [putHand, setFlag_words, take_words, drop_words]
    rw [Function.update_of_ne hn, hwords a hz, h.words a hh]

end
end Space

section
variable {freeAddr entriesAddr : Nat} {entries : Array Pmm.MmapEntry} {E : Env} {x z : Space} {t : Prop}

/-- `vmm_map` of the page in hand, as a step of the construction. -/
theorem after_map (hw : WindowOk freeAddr entriesAddr entries) {w : Nat → Nat} {vaddr flag : Nat} (hx : x.Sound)
    (hz : Space.Holding w x z) (hvaddr : vaddr < 2 ^ 32) (hflag : flag < pageSize)
    (hnew : t → vpage (vaddr / pageSize) ∉ x.places) :
    After t (Rep freeAddr entriesAddr entries E) z (vmmMap z.proc.pageDir vaddr (z.frame .hand * pageSize) flag)
      (fun r y => (r < 0 ∧ y = z) ∨ (¬ r < 0 ∧
        (r + 1).toNat = (if .table (vaddr / pageSize / numPte) ∈ x.places then 1 else 2) ∧ y.proc = x.proc ∧
        y.frame (vpage (vaddr / pageSize)) = z.frame .hand ∧
        Space.Added (flag ||| 1) (vaddr / pageSize) w x y)) := by
  have hpage := vpage_eq hvaddr
  have hpde : vmmPdeIndex vaddr = vaddr / pageSize / numPte := (Place.page.inj hpage).1
  have hhand : Place.hand ∈ z.places := by
    rw [hz.places]
    exact Finset.mem_insert_self _ _
  have hdir : z.proc.pageDir = z.ptr .dir := by
    rw [hz.proc, hx.pageDir, Space.ptr, Space.ptr, hz.frame .dir (by simp)]
  rw [hdir]
  have hmem : vpage (vaddr / pageSize) ∈ z.places ↔ vpage (vaddr / pageSize) ∈ x.places := hz.mem (by simp [vpage])
  have htab : .table (vaddr / pageSize / numPte) ∈ z.places ↔ .table (vaddr / pageSize / numPte) ∈ x.places :=
    hz.mem (by simp)
  refine (after_vmmMap hw (hz.linked hx.linked) ((hz.mem (by simp)).mpr hx.dir) (hz.limit.trans hx.limit) hhand hflag
    fun ht => ?_).mono ?_
  · rw [hpage, hmem]
    exact hnew ht
  rw [hpage, hpde, hmem, htab]
  rintro r y (⟨rfl, rfl⟩ | ⟨hp, ⟨rfl, ht, rfl⟩ | ⟨rfl, ht, f, v, rfl⟩⟩)
  · exact .inl ⟨by decide, rfl⟩
  · refine .inr ⟨by decide, by rw [if_pos ht]; rfl, hz.proc, by simp [Space.putHand], hz.added hx hp ?_ (fun _ _ => rfl)
      (fun _ _ => rfl) (fun h => absurd ht h) (fun _ _ => rfl) rfl⟩
    rw [Finset.insert_eq_of_mem (htab.mpr ht)]
  · have hne : ∀ a ∈ z.places, a ≠ .table (vaddr / pageSize / numPte) := by
      rintro a ha rfl
      exact ht (htab.mp ha)
    refine .inr ⟨by decide, by rw [if_neg ht]; rfl, hz.proc, by simp [Space.putHand], hz.added hx hp rfl (fun a ha => ?_)
      (fun a ha => ?_) (fun _ => ?_) (fun a ha => ?_) rfl⟩
    · exact Function.update_of_ne (hne a ha) _ _
    · exact Function.update_of_ne (hne a ha) _ _
    · exact Function.update_self _ _ _
    · refine Function.update_of_ne (fun e => ht ?_) _ _
      rw [← e]
      exact ha e

/-! ### ELF images -/

theorem after_memcpyElf (hw : WindowOk freeAddr entriesAddr entries) {a : Place} (ha : a ∈ x.places)
    (he : ¬ a.HasEntries) (off count : Nat) (src : Nat → UInt8) :
    After t (Rep freeAddr entriesAddr entries E) x (memcpyElf (x.frame a * pageSize) off count src)
      (fun _ y => y = x.setWords a (copyBytes (x.words a) off count src)) := by
  refine After.bind after_getState ?_
  rintro _ x ⟨rfl, m, hm, rfl⟩
  have hwords : m.state.mem (Slab.frame (x.ptr a)) = x.words a := by
    rw [hm.frame_ptr hw ha]
    exact (Space.fits_words he).mp (hm.fits a ha)
  dsimp only
  rw [show castPhysicalToVirtual (x.frame a * pageSize) = x.ptr a from rfl, hwords]
  exact after_storePage hw ha he _

end

/-- The bytes of a segment in memory: `filesz` bytes of the file at `addr`, and zeros around them. -/
def segmentByte (elf : Nat → UInt8) (addr off filesz a : Nat) : UInt8 :=
  if addr ≤ a ∧ a < addr + filesz then elf (off + (a - addr)) else 0

/-- The word `j` of page `n`. -/
def pageWord (byte : Nat → UInt8) (n j : Nat) : Nat :=
  let a := n * pageSize + 4 * j
  (byte a).toNat + 2 ^ 8 * (byte (a + 1)).toNat + 2 ^ 16 * (byte (a + 2)).toNat + 2 ^ 24 * (byte (a + 3)).toNat

theorem copyBytes_zero {elf : Nat → UInt8} {n po fo fs j : Nat} (hj : j < 1024) :
    copyBytes (fun _ => 0) po (min fs (pageSize - po)) (fun i => elf (fo + i)) j =
      pageWord (segmentByte elf (n * pageSize + po) fo fs) n j := by
  have hbyte : ∀ b < 4, (if po ≤ 4 * j + b ∧ 4 * j + b < po + min fs (pageSize - po) then
      (elf (fo + (4 * j + b - po))).toNat else 0 / 2 ^ (8 * b) % 2 ^ 8) =
        (segmentByte elf (n * pageSize + po) fo fs (n * pageSize + 4 * j + b)).toNat := by
    intro b hb
    have hiff : (po ≤ 4 * j + b ∧ 4 * j + b < po + min fs (pageSize - po)) ↔
        (n * pageSize + po ≤ n * pageSize + 4 * j + b ∧ n * pageSize + 4 * j + b < n * pageSize + po + fs) := by
      unfold pageSize
      omega
    unfold segmentByte
    rw [if_congr hiff rfl rfl]
    split_ifs with h
    · congr 3
      omega
    · simp
  unfold copyBytes pageWord
  dsimp only
  rw [hbyte 0 (by decide), hbyte 1 (by decide), hbyte 2 (by decide), hbyte 3 (by decide), Nat.add_zero]

/-- The rest of the segment after the first page. -/
theorem segmentByte_next {elf : Nat → UInt8} {n po fo fs a : Nat} (hpo : po < pageSize) (ha : (n + 1) * pageSize ≤ a) :
    segmentByte elf ((n + 1) * pageSize) (fo + min fs (pageSize - po)) (fs - min fs (pageSize - po)) a =
      segmentByte elf (n * pageSize + po) fo fs a := by
  unfold segmentByte pageSize at *
  split_ifs
  · congr 1
    omega
  · omega
  · omega
  · rfl

theorem pageWord_congr {byte byte' : Nat → UInt8} {n : Nat} (h : ∀ a, n * pageSize ≤ a → byte a = byte' a) (j : Nat) :
    pageWord byte n j = pageWord byte' n j := by
  unfold pageWord
  dsimp only
  rw [h _ (by omega), h _ (by omega), h _ (by omega), h _ (by omega)]

namespace Space
variable {x y : Space} {k n : Nat} {w : Nat → Nat}

theorem Sound.grown (h : x.Sound) : x.Grown x := ⟨h, rfl⟩

theorem Added.setWords (h : Added k n w x y) (v : Nat → Nat) : Added k n v x (y.setWords (vpage n) v) := by
  refine ⟨h.fresh, h.places, h.frame, ⟨h.page.1, by simp⟩, h.table, h.flag, fun a ha => ?_, h.limit⟩
  rw [setWords_words, Function.update_of_ne]
  · exact h.words a ha
  · rintro rfl
    exact h.fresh ha

theorem Added.setProc (h : Added k n w x y) (p : Process) : Added k n w x (y.setProc p) :=
  ⟨h.fresh, h.places, h.frame, h.page, h.table, h.flag, h.words, h.limit⟩

theorem Added.grown (h : Added k n w x y) (hx : x.Sound) {pages : Nat}
    (hpages : pages = if .table (n / numPte) ∈ x.places then 1 else 2) :
    x.Grown (y.setProc { x.proc with memPages := u32 (x.proc.memPages + pages) }) :=
  ⟨h.sound hx hpages, rfl⟩

theorem AllUser.setProc (h : x.AllUser) (p : Process) : (x.setProc p).AllUser := h

theorem Added.allUser (h : Added k n w x y) (hn : n / numPte < userPdes) (hx : x.AllUser) : y.AllUser := by
  intro a ha
  rw [h.places, Finset.mem_insert, Finset.mem_insert] at ha
  rcases ha with rfl | rfl | ha
  · exact vpage_user.mpr hn
  · exact hn
  · exact hx a ha

theorem Added.mem {z : Space} (h : Added k n w x z) {j : Nat} (hj : j ≠ n) : vpage j ∈ z.places ↔ vpage j ∈ x.places := by
  rw [h.places, Finset.mem_insert, Finset.mem_insert]
  have h₁ : vpage j ≠ vpage n := fun e => hj (vpage_inj e)
  have h₂ : vpage j ≠ .table (n / numPte) := by simp [vpage]
  tauto

end Space

theorem pagesTo_succ {vaddrEnd n : Nat} (h : n * pageSize < vaddrEnd) :
    pagesTo vaddrEnd (n * pageSize) = pagesTo vaddrEnd ((n + 1) * pageSize) + 1 := by
  unfold pagesTo pageSize at *
  omega

/-- The words that the page loop leaves in page `j`. -/
def LoopImage (elf : Nat → UInt8) (addr fo fs j : Nat) (w : Nat → Nat) : Prop :=
  fo + fs < 2 ^ 32 → ∀ i < 1024, w i = pageWord (segmentByte elf addr fo fs) j i

section
variable {freeAddr entriesAddr : Nat} {entries : Array Pmm.MmapEntry} {E : Env} {x z : Space} {t : Prop}

theorem after_loadPages (hw : WindowOk freeAddr entriesAddr entries) {elf : Nat → UInt8} {vaddrEnd : Nat} (fuel : Nat) :
    ∀ {n po fo fs : Nat} {x : Space}, x.Sound → n < 2 ^ 20 → po < pageSize →
      (t → vaddrEnd ≤ lastPage ∧ pagesTo vaddrEnd (n * pageSize) < fuel ∧
        ∀ j, n ≤ j → j * pageSize < vaddrEnd → vpage j ∉ x.places) →
      After t (Rep freeAddr entriesAddr entries E) x (loadPages elf E.owner vaddrEnd fuel (n * pageSize) po fo fs)
        (fun b y => x.Grown y ∧ (vaddrEnd ≤ kernelBase → x.AllUser → y.AllUser) ∧
          (b = true → vaddrEnd ≤ lastPage → Space.Loads 7 {j | n ≤ j ∧ j * pageSize < vaddrEnd}
            (LoopImage elf (n * pageSize + po) fo fs) x y)) := by
  induction fuel with
  | zero =>
    intro n po fo fs x _ _ _ hnew
    exact After.throw fun ht => absurd (hnew ht).2.1 (Nat.not_lt_zero _)
  | succ fuel ih =>
    intro n po fo fs x hx hn20 hpo hnew
    refine after_of_rep fun m hm => ?_
    have hok := hm.ok
    unfold loadPages
    split_ifs with hlt
    swap
    · refine After.pure ⟨hx.grown, fun _ => id, fun _ _ => ?_⟩
      have hset : {j | n ≤ j ∧ j * pageSize < vaddrEnd} = ∅ := by
        refine Set.eq_empty_of_forall_notMem fun j hj => hlt ?_
        obtain ⟨h₁, h₂⟩ := hj
        exact lt_of_le_of_lt (Nat.mul_le_mul_right _ h₁) h₂
      rw [hset]
      exact .refl
    -- past the last page the address wraps
    obtain ⟨n', hn', hn'20, hnext⟩ : ∃ n', u32 (n * pageSize + pageSize) = n' * pageSize ∧ n' < 2 ^ 20 ∧
        (vaddrEnd ≤ lastPage → n' = n + 1) := by
      refine ⟨(n + 1) % 2 ^ 20, ?_, Nat.mod_lt _ (by decide), fun hend => Nat.mod_eq_of_lt ?_⟩
      · unfold u32 pageSize
        omega
      · unfold lastPage pageSize at *
        omega
    have h32 : n * pageSize < 2 ^ 32 := by
      unfold pageSize
      omega
    have hn : n * pageSize / pageSize = n := Nat.mul_div_cancel _ (by decide)
    refine After.bind (after_alloc hw hx.hand) ?_
    rintro paddr y (⟨rfl, rfl⟩ | ⟨f, w, rfl, hf0, hflt, -, rfl⟩)
    · rw [if_pos rfl]
      exact After.pure ⟨hx.grown, fun _ => id, fun h => absurd h (by decide)⟩
    rw [if_neg (by unfold pageSize; omega)]
    -- the page is in hand
    have hframe : (x.take .hand f w).frame .hand = f := by simp
    have hmem : Place.hand ∈ (x.take .hand f w).places := Finset.mem_insert_self _ _
    have hptr : castPhysicalToVirtual (f * pageSize) = (x.take .hand f w).ptr .hand := by rw [Space.ptr, hframe]
    rw [hptr]
    refine After.bind (after_storePage hw hmem (by simp [Place.HasEntries]) _) ?_
    rintro _ z rfl
    have hz := (Space.Holding.take x f w).setWords fun _ => 0
    have hzframe : ((x.take .hand f w).setWords .hand fun _ => 0).frame .hand = f := hframe
    have hzmem : Place.hand ∈ ((x.take .hand f w).setWords .hand fun _ => 0).places := hmem
    generalize (x.take .hand f w).setWords .hand (fun _ => 0) = z at hz hzframe hzmem
    refine After.bind after_getProc ?_
    rintro _ z ⟨rfl, rfl⟩
    subst hzframe
    refine After.bind (after_map hw hx hz h32 (by decide) fun ht => ?_) ?_
    · rw [hn]
      exact (hnew ht).2.2 n le_rfl hlt
    rw [hn]
    rintro r y (⟨hr, rfl⟩ | ⟨hr, hpages, hproc, hyframe, hadd⟩)
    · rw [if_pos hr]
      refine After.bind (after_free hw hzmem (by rw [hz.flag]; exact hok.hand) ?_) ?_
      · exact fun b _ i hb => absurd hb (by simp [Place.HasEntries])
      rintro _ _ rfl
      refine After.pure ⟨hz.drop hx, fun _ hall a ha => ?_, fun h => absurd h (by decide)⟩
      exact hall a (hz.drop_places hx ▸ ha)
    rw [if_neg hr]
    refine After.bind (after_modifyProc _) ?_
    rintro _ y' rfl
    rw [← hyframe, hproc, hpages]
    set p : Process := { x.proc with memPages := u32 (x.proc.memPages + _) }
    dsimp only
    have hymem : vpage n ∈ (y.setProc p).places := by
      rw [Space.setProc_places, hadd.places]
      exact Finset.mem_insert_self _ _
    have hentries : ¬ (vpage n).HasEntries := by simp [vpage, Place.HasEntries]
    refine After.bind (after_memcpyElf hw hymem hentries po _ _) ?_
    rintro _ _ rfl
    have hwords : (y.setProc p).words (vpage n) = fun _ => 0 := hadd.page.2
    rw [hwords]
    have hadd' := (hadd.setWords (copyBytes (fun _ => 0) po (min fs (pageSize - po)) fun i => elf (fo + i)))
    have hgrown : x.Grown ((y.setProc p).setWords (vpage n)
        (copyBytes (fun _ => 0) po (min fs (pageSize - po)) fun i => elf (fo + i))) := hadd'.grown hx rfl
    have hloads := (hadd'.setProc p).loads hok hx.linked (P := LoopImage elf (n * pageSize + po) fo fs)
      fun _ i hi => copyBytes_zero hi
    -- the next page
    rw [hn']
    refine (ih hgrown.1 hn'20 (by decide) fun ht => ?_).mono ?_
    · obtain ⟨hend, hfuel, hfresh⟩ := hnew ht
      rw [hnext hend]
      rw [pagesTo_succ hlt] at hfuel
      refine ⟨hend, by omega, fun j hj hje hm => ?_⟩
      exact hfresh j (by omega) hje (((hadd'.setProc p).mem (by omega)).mp hm)
    rintro b v ⟨hg, huser, hl⟩
    refine ⟨hgrown.trans hg, fun hend hall => ?_, fun hb hend => ?_⟩
    · refine huser hend ((hadd'.setProc p).allUser ?_ hall)
      unfold userPdes kernelBase numPte pageSize at *
      omega
    have hl := hl hb hend
    rw [hnext hend] at hl
    have hset : {j | n ≤ j ∧ j * pageSize < vaddrEnd} = {n} ∪ {j | n + 1 ≤ j ∧ j * pageSize < vaddrEnd} := by
      ext j
      simp only [Set.mem_ofPred_eq, Set.mem_union, Set.mem_singleton_iff]
      constructor
      · rintro ⟨h₁, h₂⟩
        omega
      · rintro (rfl | ⟨h₁, h₂⟩)
        · exact ⟨le_rfl, hlt⟩
        · exact ⟨by omega, h₂⟩
    rw [hset]
    refine hloads.trans (hl.mono fun j hj u hu h i hi => ?_)
    have hu32 : u32 (fo + min fs (pageSize - po)) = fo + min fs (pageSize - po) := u32_of_lt (by omega)
    rw [hu32] at hu
    rw [hu (by omega) i hi, Nat.add_zero]
    refine pageWord_congr (fun a ha => segmentByte_next hpo (le_trans ?_ ha)) i
    exact Nat.mul_le_mul_right _ hj.1

end

namespace ProgHeader

/-- Page `j` has a byte of the segment. -/
def Overlaps (ph : ProgHeader) (j : Nat) : Prop :=
  0 < ph.memsz ∧ ph.vaddr < (j + 1) * pageSize ∧ j * pageSize < ph.vaddr + ph.memsz

/-- The segments have no page in common. -/
def Apart (ph ph' : ProgHeader) : Prop := ∀ j, ph.Overlaps j → ¬ ph'.Overlaps j

instance : Std.Symm Apart := ⟨fun _ _ h j hb ha => h j ha hb⟩

/-- The words `w` are those of the segment in page `j`. -/
def Image (elf : Nat → UInt8) (ph : ProgHeader) (j : Nat) (w : Nat → Nat) : Prop :=
  ph.filesz ≤ ph.memsz ∧ LoopImage elf ph.vaddr ph.offset ph.filesz j w

end ProgHeader

/-- The entries of the table at `pht`. -/
def tableAt (elf : Nat → UInt8) (entrySize : Nat) : Nat → Nat → List ProgHeader
  | 0, _ => []
  | num + 1, pht => progHeaderAt elf pht :: tableAt elf entrySize num (pht + entrySize)

/-- The program headers that are loaded. -/
def segments (elf : Nat → UInt8) : List ProgHeader :=
  (tableAt elf (ePhentsize elf) (ePhnum elf) (ePhoff elf)).filter fun ph => ph.Loadable

/-- The pages of the segments in `l`. -/
def pagesOf (l : List ProgHeader) : Set Nat := {j | ∃ ph ∈ l, ph.Overlaps j}

/-- What is in them. -/
def imageOf (elf : Nat → UInt8) (l : List ProgHeader) (j : Nat) (w : Nat → Nat) : Prop :=
  ∃ ph ∈ l, ph.Overlaps j ∧ ph.Image elf j w

/-- The segments in `l` are on pages of their own, none of them in `x`. -/
def Separate (x : Space) (l : List ProgHeader) : Prop :=
  (∀ j ∈ pagesOf l, vpage j ∉ x.places) ∧ l.Pairwise ProgHeader.Apart

section
variable {freeAddr entriesAddr : Nat} {entries : Array Pmm.MmapEntry} {E : Env} {x z : Space} {t : Prop}
  {elf : Nat → UInt8} {size : Nat}

theorem after_loadFromProgHeader (hw : WindowOk freeAddr entriesAddr entries) {ph : ProgHeader} (hx : x.Sound)
    (hvaddr : ph.vaddr < 2 ^ 32)
    (hnew : t → ph.vaddr + ph.memsz ≤ lastPage ∧ ∀ j, ph.Overlaps j → vpage j ∉ x.places) :
    After t (Rep freeAddr entriesAddr entries E) x (loadFromProgHeader elf size ph E.owner)
      (fun b y => x.Grown y ∧
        (ph.vaddr + ph.memsz ≤ lastPage → (∀ j, ph.Overlaps j → j / numPte < userPdes) → x.AllUser → y.AllUser) ∧
        (b = true → ph.vaddr + ph.memsz ≤ lastPage → Space.Loads 7 {j | ph.Overlaps j} (ph.Image elf) x y)) := by
  have hadd : ph.vaddr + ph.memsz ≤ lastPage → u32 (ph.vaddr + ph.memsz) = ph.vaddr + ph.memsz := by
    intro hend
    refine u32_of_lt ?_
    unfold lastPage pageSize at hend
    omega
  have hstart : ph.vaddr - ph.vaddr % pageSize = ph.vaddr / pageSize * pageSize := by
    have := Nat.div_add_mod ph.vaddr pageSize
    rw [Nat.mul_comm] at this
    omega
  have hvaddr' : ph.vaddr / pageSize * pageSize + ph.vaddr % pageSize = ph.vaddr := by
    rw [Nat.mul_comm]
    exact Nat.div_add_mod _ _
  unfold loadFromProgHeader
  dsimp only
  split_ifs with h₁ h₂ h₃
  · exact After.pure ⟨hx.grown, fun _ _ => id, fun h => absurd h (by decide)⟩
  · exact After.pure ⟨hx.grown, fun _ _ => id, fun h => absurd h (by decide)⟩
  · refine After.pure ⟨hx.grown, fun _ _ => id, fun _ _ => ?_⟩
    rw [show {j | ph.Overlaps j} = ∅ from Set.eq_empty_of_forall_notMem fun j hj => absurd hj.1 (by omega)]
    exact .refl
  · have hset : {j | ph.Overlaps j} = {j | ph.vaddr / pageSize ≤ j ∧ j * pageSize < ph.vaddr + ph.memsz} := by
      ext j
      show _ ∧ _ ∧ _ ↔ _ ∧ _
      rw [← Nat.lt_succ_iff, Nat.div_lt_iff_lt_mul (by decide)]
      have : 0 < ph.memsz := by omega
      tauto
    rw [hset, hstart]
    have hloop : After t (Rep freeAddr entriesAddr entries E) x (loadPages elf E.owner (u32 (ph.vaddr + ph.memsz))
        (2 ^ 20 + 1) (ph.vaddr / pageSize * pageSize) (ph.vaddr % pageSize) ph.offset ph.filesz) _ :=
      after_loadPages hw (2 ^ 20 + 1) hx (by unfold pageSize; omega) (Nat.mod_lt ph.vaddr (by decide)) fun ht => ?_
    · rw [hvaddr'] at hloop
      refine hloop.mono fun b y hy => ⟨hy.1, fun hend hbelow => hy.2.1 ?_, fun hb hend => ?_⟩
      · -- the last byte is in a page below
        have hlast := hbelow ((ph.vaddr + ph.memsz - 1) / pageSize) ⟨by omega, by unfold pageSize; omega, by unfold pageSize; omega⟩
        rw [hadd hend]
        unfold userPdes kernelBase numPte pageSize at *
        omega
      · have hl := hy.2.2 hb (by rw [hadd hend]; exact hend)
        rw [hadd hend] at hl
        exact hl.mono fun j _ w hi => ⟨by omega, hi⟩
    · obtain ⟨hend, hfresh⟩ := hnew ht
      rw [hadd hend]
      refine ⟨hend, ?_, fun j hj hlt => hfresh j ?_⟩
      · unfold pagesTo lastPage pageSize at *
        omega
      · have hmem : j ∈ {j | ph.Overlaps j} := by
          rw [hset]
          exact ⟨hj, hlt⟩
        exact hmem

theorem pagesOf_cons (ph : ProgHeader) (l : List ProgHeader) : pagesOf (ph :: l) = {j | ph.Overlaps j} ∪ pagesOf l := by
  ext j
  simp [pagesOf]

theorem after_loadFromPht (hw : WindowOk freeAddr entriesAddr entries) {entrySize : Nat} (num : Nat) :
    ∀ {pht : Nat} {x : Space} {l : List ProgHeader},
      (tableAt elf entrySize num pht).filter (fun ph => ph.Loadable) = l → x.Sound →
      (t → (∀ ph ∈ l, ph.vaddr + ph.memsz ≤ lastPage) ∧ Separate x l) →
      After t (Rep freeAddr entriesAddr entries E) x (loadFromPht elf size entrySize E.owner num pht)
        (fun b y => x.Grown y ∧
          ((∀ ph ∈ l, ph.vaddr + ph.memsz ≤ lastPage) → (∀ j ∈ pagesOf l, j / numPte < userPdes) → x.AllUser → y.AllUser) ∧
          (b = true → (∀ ph ∈ l, ph.vaddr + ph.memsz ≤ lastPage) →
          Space.Loads 7 (pagesOf l) (imageOf elf l) x y)) := by
  induction num with
  | zero =>
    rintro pht x l rfl hx _
    refine After.pure ⟨hx.grown, fun _ _ => id, fun _ _ => ?_⟩
    rw [show pagesOf (List.filter _ (tableAt elf entrySize 0 pht)) = ∅ by simp [tableAt, pagesOf]]
    exact .refl
  | succ num ih =>
    rintro pht x l hl hx hsep
    refine after_of_rep fun m₀ hm₀ => ?_
    rw [loadFromPht_succ]
    rw [tableAt, List.filter_cons] at hl
    split_ifs with hload
    swap
    · rw [if_neg (by simpa using hload)] at hl
      exact ih hl hx hsep
    rw [if_pos (by simpa using hload)] at hl
    subst hl
    have hvaddr : (progHeaderAt elf pht).vaddr < 2 ^ 32 := u32At_lt _ _
    set ph := progHeaderAt elf pht
    set l := List.filter (fun ph => decide ph.Loadable) (tableAt elf entrySize num (pht + entrySize)) with hl
    refine After.bind (after_loadFromProgHeader hw hx hvaddr fun ht => ?_) ?_
    · obtain ⟨hend, hfresh, -⟩ := hsep ht
      exact ⟨hend ph List.mem_cons_self, fun j hj => hfresh j ⟨ph, List.mem_cons_self, hj⟩⟩
    rintro ok y ⟨hg, huser, hloads⟩
    rw [pagesOf_cons]
    have huser : (∀ ph' ∈ ph :: l, ph'.vaddr + ph'.memsz ≤ lastPage) →
        (∀ j ∈ {j | ph.Overlaps j} ∪ pagesOf l, j / numPte < userPdes) → x.AllUser → y.AllUser :=
      fun hend hbelow => huser (hend ph List.mem_cons_self) fun j hj => hbelow j (.inl hj)
    cases ok with
    | false => exact After.pure ⟨hg, huser, fun h => absurd h (by decide)⟩
    | true =>
      refine after_of_rep fun m hm => ?_
      refine (ih hl.symm hg.1 fun ht => ?_).mono ?_
      · obtain ⟨hend, hfresh, hpair⟩ := hsep ht
        have hloads := hloads rfl (hend ph List.mem_cons_self)
        rw [List.pairwise_cons] at hpair
        refine ⟨fun ph' h => hend ph' (List.mem_cons_of_mem _ h), fun j hj => ?_, hpair.2⟩
        obtain ⟨ph', hmem, hov⟩ := hj
        rw [← hm.ok.flag_iff hg.1.linked (by simp [vpage]) (by simp [vpage]),
          (hloads.old j fun h => hpair.1 ph' hmem j h hov).1]
        exact hm₀.ok.flag_none (hfresh j ⟨ph', List.mem_cons_of_mem _ hmem, hov⟩)
      · rintro b v ⟨hg', huser', hloads'⟩
        refine ⟨hg.trans hg', fun hend hbelow hall => ?_, fun hb hend => ?_⟩
        · exact huser' (fun ph' h => hend ph' (List.mem_cons_of_mem _ h)) (fun j hj => hbelow j (.inr hj))
            (huser hend hbelow hall)
        have hloads := hloads rfl (hend ph List.mem_cons_self)
        have hloads' := hloads' hb fun ph' h => hend ph' (List.mem_cons_of_mem _ h)
        refine (hloads.mono fun j hj w hi => ?_).trans (hloads'.mono fun j hj w hi => ?_)
        · exact ⟨ph, List.mem_cons_self, hj, hi⟩
        · obtain ⟨ph', hmem, hrest⟩ := hi
          exact ⟨ph', List.mem_cons_of_mem _ hmem, hrest⟩

theorem Space.Sound.setProc {p : Process} (h : x.Sound) (hdir : p.pageDir = x.proc.pageDir)
    (hpages : p.memPages = x.proc.memPages) : (x.setProc p).Sound :=
  ⟨h.linked, h.hand, h.dir, h.limit, hdir.trans h.pageDir, hpages.trans h.pages⟩

/-- The segments of the file end below the last page. -/
def Bounded (elf : Nat → UInt8) : Prop := ∀ ph ∈ segments elf, ph.vaddr + ph.memsz ≤ lastPage

/-- The pages of the segments are below `KERNEL_BASE`. -/
def Space.BelowKernel (elf : Nat → UInt8) : Prop := ∀ n ∈ pagesOf (segments elf), n / numPte < userPdes

theorem after_elfLoadProgram (hw : WindowOk freeAddr entriesAddr entries) (hx : x.Sound)
    (hsep : t → Bounded elf ∧ Separate x (segments elf)) :
    After t (Rep freeAddr entriesAddr entries E) x (elfLoadProgram elf size E.owner)
      (fun b y => y.Sound ∧ ((b = false → x.Grown y) ∧ (Bounded elf → Space.BelowKernel elf → x.AllUser → y.AllUser)) ∧
        (b = true → y.proc = { x.proc with memPages := y.proc.memPages, entry := u32At elf 24 } ∧
          (Bounded elf → Space.Loads 7 (pagesOf (segments elf)) (imageOf elf (segments elf)) x y))) := by
  have hfalse : After t (Rep freeAddr entriesAddr entries E) x (pure false : M Bool)
      (fun b y => y.Sound ∧ ((b = false → x.Grown y) ∧ (Bounded elf → Space.BelowKernel elf → x.AllUser → y.AllUser)) ∧
        (b = true → y.proc = { x.proc with memPages := y.proc.memPages, entry := u32At elf 24 } ∧
          (Bounded elf → Space.Loads 7 (pagesOf (segments elf)) (imageOf elf (segments elf)) x y))) :=
    After.pure ⟨hx, ⟨fun _ => hx.grown, fun _ _ => id⟩, fun h => absurd h (by decide)⟩
  rw [elfLoadProgram_eq]
  split_ifs
  · exact hfalse
  · refine After.bind (after_loadFromPht hw _ rfl hx hsep) ?_
    rintro ok y ⟨hg, huser, hloads⟩
    cases ok with
    | false => exact After.pure ⟨hg.1, ⟨fun _ => hg, huser⟩, fun h => absurd h (by decide)⟩
    | true =>
      refine After.bind (after_modifyProc _) ?_
      rintro _ _ rfl
      refine After.pure ⟨hg.1.setProc rfl rfl, ⟨fun h => absurd h (by decide), huser⟩, fun _ => ⟨?_, fun hend => ?_⟩⟩
      · rw [Space.setProc_proc, hg.2]
      · have hl := hloads rfl hend
        exact ⟨hl.fresh, hl.page, hl.old, hl.table_old, hl.table_new, hl.table_none⟩
  · exact hfalse
  · exact hfalse

/-! ### Stacks -/

theorem after_allocProcStack (hw : WindowOk freeAddr entriesAddr entries) {top flag : Nat} (hx : x.Sound)
    (htop : top - pageSize < 2 ^ 32) (hflag : flag < pageSize)
    (hnew : t → vpage ((top - pageSize) / pageSize) ∉ x.places) :
    After t (Rep freeAddr entriesAddr entries E) x (allocProcStack E.owner top flag)
      (fun b y => x.Grown y ∧ ((top - pageSize) / pageSize / numPte < userPdes → x.AllUser → y.AllUser) ∧
        (b = true → Space.Loads (flag ||| 1) {(top - pageSize) / pageSize} (fun _ _ => True) x y)) := by
  refine after_of_rep fun m hm => ?_
  unfold allocProcStack
  refine After.bind (after_alloc hw hx.hand) ?_
  rintro paddr y (⟨rfl, rfl⟩ | ⟨f, w, rfl, hf0, hflt, -, rfl⟩)
  · rw [if_pos rfl]
    exact After.pure ⟨hx.grown, fun _ => id, fun h => absurd h (by decide)⟩
  rw [if_neg (by unfold pageSize; omega)]
  have hz := Space.Holding.take x f w
  have hzframe : (x.take .hand f w).frame .hand = f := by simp
  have hzmem : Place.hand ∈ (x.take .hand f w).places := Finset.mem_insert_self _ _
  generalize x.take .hand f w = z at hz hzframe hzmem
  refine After.bind after_getProc ?_
  rintro _ z ⟨rfl, rfl⟩
  subst hzframe
  refine After.bind (after_map hw hx hz htop hflag hnew) ?_
  rintro r y (⟨hr, rfl⟩ | ⟨hr, hpages, hproc, hyframe, hadd⟩)
  · rw [if_pos hr]
    refine After.bind (after_free hw hzmem (by rw [hz.flag]; exact hm.ok.hand) ?_) ?_
    · exact fun b _ i hb => absurd hb (by simp [Place.HasEntries])
    rintro _ _ rfl
    refine After.pure ⟨hz.drop hx, fun _ hall a ha => ?_, fun h => absurd h (by decide)⟩
    exact hall a (hz.drop_places hx ▸ ha)
  rw [if_neg hr]
  refine After.bind (after_modifyProc _) ?_
  rintro _ y' rfl
  rw [hproc, hpages]
  exact After.pure ⟨hadd.grown hx rfl, fun hn => hadd.allUser hn, fun _ => (hadd.setProc _).loads hm.ok hx.linked trivial⟩

/-- The pages of the stacks. -/
def kernelStackPage : Nat := (procKernelStack - pageSize) / pageSize
def userStackPage : Nat := (procUserStack - pageSize) / pageSize

theorem after_allocProcStacks (hw : WindowOk freeAddr entriesAddr entries) (hx : x.Sound)
    (hnew : t → vpage kernelStackPage ∉ x.places ∧ vpage userStackPage ∉ x.places) :
    After t (Rep freeAddr entriesAddr entries E) x (allocProcStacks E.owner)
      (fun b y => y.Sound ∧ ((b = false → x.Grown y) ∧ (x.AllUser → y.AllUser)) ∧ (b = true →
        y.proc = { x.proc with memPages := y.proc.memPages, kernelStack := procKernelStack, userStack := procUserStack } ∧
        ∃ y', Space.Loads 3 {kernelStackPage} (fun _ _ => True) x y' ∧
          Space.Loads 7 {userStackPage} (fun _ _ => True) y' y)) := by
  refine after_of_rep fun m hm => ?_
  unfold allocProcStacks
  refine After.bind (after_allocProcStack hw hx (by decide) (by decide) fun ht => (hnew ht).1) ?_
  rintro ok y ⟨hg, huser, hloads⟩
  have huser := huser (by decide)
  cases ok with
  | false => exact After.pure ⟨hg.1, ⟨fun _ => hg, huser⟩, fun h => absurd h (by decide)⟩
  | true =>
    have hloads := hloads rfl
    refine after_of_rep fun m' hm' => ?_
    refine After.bind (after_allocProcStack hw hg.1 (by decide) (by decide) fun ht => ?_) ?_
    · have hne : userStackPage ∉ ({kernelStackPage} : Set Nat) := by decide
      rw [← hm'.ok.flag_iff hg.1.linked (by simp [vpage]) (by simp [vpage]), show
        (procUserStack - pageSize) / pageSize = userStackPage from rfl, (hloads.old _ hne).1]
      exact hm.ok.flag_none (hnew ht).2
    rintro ok z ⟨hg', huser', hloads'⟩
    have huser' := fun hall => huser' (by decide) (huser hall)
    cases ok with
    | false => exact After.pure ⟨hg'.1, ⟨fun _ => hg.trans hg', huser'⟩, fun h => absurd h (by decide)⟩
    | true =>
      refine After.bind (after_modifyProc _) ?_
      rintro _ _ rfl
      refine After.pure ⟨hg'.1.setProc rfl rfl, ⟨fun h => absurd h (by decide), fun hall => (huser' hall).setProc _⟩,
        fun _ => ⟨?_, y, hloads, ?_⟩⟩
      · rw [Space.setProc_proc, (hg.trans hg').2]
      · have hl := hloads' rfl
        exact ⟨hl.fresh, hl.page, hl.old, hl.table_old, hl.table_new, hl.table_none⟩

/-! ### A new space -/

/-- Nothing yet. -/
def Space.new (p : Process) : Space where
  proc := p
  limit := numPde
  places := ∅
  frame := fun _ => 0
  flag := fun _ => none
  words := fun _ _ => 0

/-- Nothing but a directory. -/
structure Space.Empty (p : Process) (x : Space) : Prop where
  sound : x.Sound
  places : x.places = {.dir}
  flag : x.flag = fun _ => none
  proc : x.proc = { p with pageDir := x.ptr .dir, memPages := 1 }

theorem after_initPageDir (hw : WindowOk freeAddr entriesAddr entries) {p : Process} (hp : p.memPages = 0) :
    After t (Rep freeAddr entriesAddr entries E) (Space.new p) (initPageDir E.owner)
      (fun b y => (b = false ∧ y = Space.new { p with pageDir := 0 }) ∨ (b = true ∧ Space.Empty p y)) := by
  refine After.bind (after_allocEntries hw (a := .dir) (Finset.notMem_empty _) trivial rfl (fun _ => rfl) (by simp)) ?_
  rintro ptr y (⟨rfl, rfl⟩ | ⟨f, w, -, -, hne, hptr, rfl⟩)
  · refine After.bind (after_modifyProc _) ?_
    rintro _ _ rfl
    exact After.pure (.inl ⟨rfl, rfl⟩)
  · refine After.bind (after_modifyProc _) ?_
    rintro _ _ rfl
    rw [if_neg hne]
    refine After.bind (after_modifyProc _) ?_
    rintro _ _ rfl
    refine After.pure (.inr ⟨rfl, ⟨fun a ha hd _ => ?_, by simp [Space.new], by simp, rfl, hptr, ?_⟩, rfl, rfl, ?_⟩)
    · simp only [Space.setProc_places, Space.take_places, Space.new, Finset.mem_insert, Finset.notMem_empty] at ha
      exact absurd (ha.resolve_right id) hd
    · show u32 (p.memPages + 1) = u32 _
      rw [hp]
      rfl
    · have hone : u32 (p.memPages + 1) = 1 := by
        rw [hp]
        decide
      simp only [Space.setProc_proc, Space.take_proc, Space.new, hone, hptr, Space.ptr, Space.setProc_frame]

/-- The frames that are free when `proc_alloc` is done, for the process that it made. -/
def Env.fresh (live : Nat → Option Slab.Live) (o : Nat) (s : State) : Env where
  owner := o
  live := live
  start := s
  free := {f | Pmm.FreePage s.slab.pmm f}
  kept := {f | ¬ Pmm.FreePage s.slab.pmm f}
  disjoint _ hf := hf

theorem Rep.new {m : Machine} {live : Nat → Option Slab.Live} {frames : Finset (Nat × Nat)} {o : Nat} {p : Process}
    (hrun : Slab.Run freeAddr entriesAddr entries m.state.slab live frames) (hp : m.state.procs o = some p) :
    Rep freeAddr entriesAddr entries (.fresh live o m.state) m (Space.new p) := by
  have hnone : ∀ a, a ∉ (Space.new p).places := fun a => Finset.notMem_empty a
  refine ⟨⟨fun a ha => absurd ha (hnone a), fun a k hk => ?_, fun _ h => absurd h (hnone _), fun _ _ h => absurd h (hnone _),
    rfl⟩, fun a ha => absurd ha (hnone a), hp, ⟨frames, hrun, fun a ha => absurd ha (hnone a)⟩,
    fun a ha => absurd ha (hnone a), fun f => ⟨fun h => ⟨h, fun a ha => absurd ha (hnone a)⟩, fun h => h.1⟩, fun _ _ => rfl,
    fun _ _ => rfl, ⟨rfl, rfl, rfl, rfl, rfl⟩⟩
  cases hk

end
end Airix.Proc
