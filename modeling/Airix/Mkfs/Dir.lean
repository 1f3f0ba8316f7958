import Airix.Mkfs.Prims

/-!
# Directory blocks

The records of a directory block lie one after the other and fill it (`Tiles`). Unused space is a record
of unknown type; an entry is added by cutting the first such record in two.
-/

namespace Airix.Mkfs
open Axfs Bytes Exec

variable {t : Prop} {g : Geom} {d : Disk} {f f' : Nat → UInt8} {a b c o ino ft : Nat} {name : List UInt8}

/-- A record of a directory block: the entry and its name. -/
structure Rec where
  entry : DirectoryEntry
  name : List UInt8
deriving DecidableEq

/-- The record at offset `o` of a block. -/
def recAt (f : Nat → UInt8) (o : Nat) : Rec :=
  let entry := DirectoryEntry.ofBytes fun i => f (o + i)
  ⟨entry, (List.range entry.nameLen).map fun i => f (o + 8 + i)⟩

/-- The records fill the bytes from `a` to `c`. -/
def Tiles (f : Nat → UInt8) : Nat → List Rec → Nat → Prop
  | a, [], c => a = c
  | a, r :: rs, c => recAt f a = r ∧ 8 + r.entry.nameLen ≤ r.entry.recLen ∧ Tiles f (a + r.entry.recLen) rs c

/-- The records of a block from offset `o` on. -/
def walk (f : Nat → UInt8) : Nat → Nat → List Rec
  | 0, _ => []
  | fuel + 1, o => if o < blockSize then recAt f o :: walk f fuel (o + (recAt f o).entry.recLen) else []

/-- The entries of a directory block. -/
def dirEntries (f : Nat → UInt8) : List Rec := (walk f blockSize 0).filter fun r => r.entry.fileType ≠ ftUnknown

/-- The part of a name that an entry has room for: its length is kept in one byte. -/
def storedName (name : List UInt8) : List UInt8 := name.take (nameLenOf name)

/-- The outcome of a search for a name among records. -/
def FoundIn (name : List UInt8) (rs : List Rec) : Option DirectoryEntry → Prop
  | some e => ∃ q ∈ rs, q.entry = e ∧ q.entry.fileType ≠ ftUnknown ∧ q.name = storedName name
  | none => ∀ q ∈ rs, q.entry.fileType ≠ ftUnknown → q.name ≠ storedName name

/-- A record of unused space. -/
def padding (len : Nat) : Rec := ⟨⟨0, len, 0, ftUnknown⟩, []⟩

theorem recAt_congr (h : ∀ i < 8 + (recAt f o).entry.nameLen, f' (o + i) = f (o + i)) : recAt f' o = recAt f o := by
  have he : DirectoryEntry.ofBytes (fun i => f' (o + i)) = DirectoryEntry.ofBytes fun i => f (o + i) :=
    DirectoryEntry.ofBytes_congr fun i hi => h i (Nat.lt_of_lt_of_le hi (Nat.le_add_right 8 _))
  simp only [recAt, he, Rec.mk.injEq, true_and]
  refine List.map_congr_left fun i hi => ?_
  rw [Nat.add_assoc]
  exact h (8 + i) (Nat.add_lt_add_left (List.mem_range.1 hi) 8)

/-- A record that was just written. -/
theorem recAt_eq {entry : DirectoryEntry} (hv : entry.Valid) (hlen : entry.nameLen ≤ name.length)
    (h : ∀ i < 8 + entry.nameLen, f (o + i) = entryBytes entry name i) :
    recAt f o = ⟨entry, name.take entry.nameLen⟩ := by
  have he : DirectoryEntry.ofBytes (fun i => f (o + i)) = entry := by
    refine (DirectoryEntry.ofBytes_congr fun i hi => ?_).trans (DirectoryEntry.ofBytes_words hv)
    rw [h i (Nat.lt_of_lt_of_le hi (Nat.le_add_right 8 _)), entryBytes, if_pos hi]
  simp only [recAt, he, Rec.mk.injEq, true_and]
  refine List.ext_getElem (by simp [hlen]) fun i h1 h2 => ?_
  have hi : i < entry.nameLen := by simpa using h1
  rw [List.getElem_map, List.getElem_range, List.getElem_take, Nat.add_assoc, h (8 + i) (by omega), entryBytes,
    if_neg (by rw [DirectoryEntry.size]; omega), DirectoryEntry.size, Nat.add_sub_cancel_left, if_pos hi]
  exact List.getD_eq_getElem _ _ _

namespace Tiles
variable {rs rs' : List Rec}

theorem le (h : Tiles f a rs c) : a ≤ c := by
  induction rs generalizing a with
  | nil => exact h.le
  | cons r rs ih => exact (Nat.le_add_right _ _).trans (ih h.2.2)

theorem end_unique {c' : Nat} (h : Tiles f a rs c) (h' : Tiles f a rs c') : c = c' := by
  induction rs generalizing a with
  | nil => exact h.symm.trans h'
  | cons r rs ih => exact ih h.2.2 h'.2.2

theorem append : Tiles f a (rs ++ rs') c ↔ ∃ m, Tiles f a rs m ∧ Tiles f m rs' c := by
  induction rs generalizing a with
  | nil =>
    refine ⟨fun h => ⟨a, rfl, h⟩, fun ⟨m, h1, h2⟩ => ?_⟩
    have h1 : a = m := h1
    exact h1 ▸ h2
  | cons r rs ih =>
    refine ⟨fun ⟨h1, h2, h3⟩ => ?_, fun ⟨m, ⟨h1, h2, h3⟩, h4⟩ => ⟨h1, h2, ih.2 ⟨m, h3, h4⟩⟩⟩
    obtain ⟨m, h3, h4⟩ := ih.1 h3
    exact ⟨m, ⟨h1, h2, h3⟩, h4⟩

theorem congr (h : Tiles f a rs c) (hf : ∀ x, a ≤ x → x < c → f' x = f x) : Tiles f' a rs c := by
  induction rs generalizing a with
  | nil => exact h
  | cons r rs ih =>
    obtain ⟨h1, h2, h3⟩ := h
    have hle := h3.le
    refine ⟨(recAt_congr fun i hi => hf _ (by omega) ?_).trans h1, h2, ih h3 fun x hx => hf x (by omega)⟩
    rw [h1] at hi
    omega

/-- Walking over the block finds its records. -/
theorem walk_eq {fuel : Nat} (h : Tiles f a rs 1024) (hfuel : 1024 ≤ a + fuel) : walk f fuel a = rs := by
  induction rs generalizing a fuel with
  | nil =>
    have ha : a = 1024 := h
    cases fuel with
    | zero => rfl
    | succ fuel => exact if_neg (by rw [blockSize]; omega)
  | cons r rs ih =>
    obtain ⟨h1, h2, h3⟩ := h
    have hle := h3.le
    cases fuel with
    | zero => omega
    | succ fuel =>
      rw [walk, if_pos (by rw [blockSize]; omega), h1, ih h3 (by omega)]

theorem dirEntries_eq (h : Tiles f 0 rs 1024) : dirEntries f = rs.filter fun r => r.entry.fileType ≠ ftUnknown := by
  rw [dirEntries, h.walk_eq (by rw [blockSize])]

theorem recLen_le (h : Tiles f a rs c) {r : Rec} (hr : r ∈ rs) : r.entry.recLen ≤ c := by
  obtain ⟨pre, post, rfl⟩ := List.append_of_mem hr
  obtain ⟨m, -, -, -, h3⟩ := append.1 h
  have := h3.le
  omega

/-- What the search for an unused record comes to. -/
theorem of_seekUnknown {fuel size : Nat} {e₀ : DirectoryEntry} {r : Nat × DirectoryEntry} (h : Tiles f a rs 1024)
    (hsize : a + size = 1024) (hr : seekUnknown f fuel size a e₀ = .ok r) :
    (∃ pre q post, rs = pre ++ q :: post ∧ q.entry = r.2 ∧ q.entry.fileType = ftUnknown ∧ Tiles f a pre r.1) ∨
      rs = [] ∧ r.2 = e₀ ∨ r.2.fileType ≠ ftUnknown := by
  induction rs generalizing a size fuel e₀ with
  | nil =>
    have ha : a = 1024 := h
    cases fuel with
    | zero => cases hr
    | succ fuel =>
      rw [seekUnknown, if_neg (by omega)] at hr
      cases hr
      exact .inr (.inl ⟨rfl, rfl⟩)
  | cons q rs ih =>
    obtain ⟨h1, h2, h3⟩ := h
    have hle := h3.le
    have hq : DirectoryEntry.ofBytes (fun i => f (a + i)) = q.entry := by rw [← h1]; rfl
    cases fuel with
    | zero => cases hr
    | succ fuel =>
      rw [seekUnknown, if_pos (by omega)] at hr
      simp only [hq] at hr
      split at hr
      · rename_i hft
        cases hr
        exact .inl ⟨[], q, rs, rfl, rfl, hft, rfl⟩
      · rename_i hft
        rcases ih h3 (by omega) hr with ⟨pre, q', post, hrs, hq', hft', ht⟩ | ⟨-, he⟩ | hne
        · exact .inl ⟨q :: pre, q', post, by rw [hrs, List.cons_append], hq', hft', h1, h2, ht⟩
        · exact .inr (.inr (he ▸ hft))
        · exact .inr (.inr hne)

/-- The search finds the first unused record. -/
theorem seekUnknown_first {fuel size : Nat} {e₀ : DirectoryEntry} {pre post : List Rec} {q : Rec}
    (h : Tiles f a (pre ++ q :: post) 1024) (hsize : a + size = 1024) (hfuel : size < fuel)
    (hpre : ∀ p ∈ pre, p.entry.fileType ≠ ftUnknown) (hq : q.entry.fileType = ftUnknown) :
    ∃ o, seekUnknown f fuel size a e₀ = .ok (o, q.entry) ∧ Tiles f a pre o := by
  induction pre generalizing a size fuel e₀ with
  | nil =>
    obtain ⟨h1, h2, h3⟩ := h
    have hle := h3.le
    have hrec : DirectoryEntry.ofBytes (fun i => f (a + i)) = q.entry := by rw [← h1]; rfl
    cases fuel with
    | zero => omega
    | succ fuel =>
      refine ⟨a, ?_, rfl⟩
      rw [seekUnknown, if_pos (by omega)]
      simp only [hrec]
      exact if_pos hq
  | cons p pre ih =>
    obtain ⟨h1, h2, h3⟩ := h
    have hle := h3.le
    have hrec : DirectoryEntry.ofBytes (fun i => f (a + i)) = p.entry := by rw [← h1]; rfl
    cases fuel with
    | zero => omega
    | succ fuel =>
      have hrest : ∃ o, seekUnknown f fuel (size - p.entry.recLen) (a + p.entry.recLen) p.entry = .ok (o, q.entry) ∧
          Tiles f (a + p.entry.recLen) pre o :=
        ih h3 (by omega) (by omega) fun r hr => hpre r (List.mem_cons_of_mem _ hr)
      obtain ⟨o, ho, ht⟩ := hrest
      refine ⟨o, ?_, h1, h2, ht⟩
      rw [seekUnknown, if_pos (by omega)]
      simp only [hrec]
      rw [if_neg (hpre p List.mem_cons_self)]
      exact ho

/-- The search for an unused record ends. -/
theorem seekUnknown_ok {fuel size : Nat} {e₀ : DirectoryEntry} (h : Tiles f a rs 1024) (hsize : a + size = 1024)
    (hfuel : size < fuel) : ∃ r, seekUnknown f fuel size a e₀ = .ok r := by
  induction rs generalizing a size fuel e₀ with
  | nil =>
    have ha : a = 1024 := h
    cases fuel with
    | zero => omega
    | succ fuel => exact ⟨_, by rw [seekUnknown, if_neg (by omega)]⟩
  | cons q rs ih =>
    obtain ⟨h1, h2, h3⟩ := h
    have hle := h3.le
    have hq : DirectoryEntry.ofBytes (fun i => f (a + i)) = q.entry := by rw [← h1]; rfl
    cases fuel with
    | zero => omega
    | succ fuel =>
      rw [seekUnknown, if_pos (by omega)]
      simp only [hq]
      split
      · exact ⟨_, rfl⟩
      · exact ih h3 (by omega) (by omega)

/-- What the search for a name comes to. -/
theorem of_seekName {fuel size : Nat} {r : Option DirectoryEntry} (h : Tiles f a rs 1024) (hsize : a + size = 1024)
    (hr : seekName f name fuel size a = .ok r) : FoundIn name rs r := by
  induction rs generalizing a size fuel with
  | nil =>
    have ha : a = 1024 := h
    cases fuel with
    | zero => cases hr
    | succ fuel =>
      rw [seekName, if_neg (by omega)] at hr
      cases hr
      exact fun q hq => absurd hq List.not_mem_nil
  | cons q rs ih =>
    obtain ⟨h1, h2, h3⟩ := h
    have hle := h3.le
    have hq : DirectoryEntry.ofBytes (fun i => f (a + i)) = q.entry := by rw [← h1]; rfl
    have hname : q.name = (List.range q.entry.nameLen).map fun i => f (a + 8 + i) := by rw [← h1]; rfl
    have hsub : u16Sub q.entry.recLen 8 = q.entry.recLen - 8 := u16Sub_of_le (by omega) (by omega)
    cases fuel with
    | zero => cases hr
    | succ fuel =>
      have hrest : ∀ (hq : q.entry.fileType ≠ ftUnknown → q.name ≠ storedName name),
          seekName f name fuel (size - q.entry.recLen) (a + q.entry.recLen) = .ok r →
          FoundIn name (q :: rs) r := by
        intro hq hr
        have hih := ih h3 (by omega) hr
        cases r with
        | none => exact List.forall_mem_cons.2 ⟨hq, hih⟩
        | some e =>
          obtain ⟨q', hq', hrest⟩ := hih
          exact ⟨q', List.mem_cons_of_mem _ hq', hrest⟩
      rw [seekName, if_pos (by omega)] at hr
      simp only [hq, DirectoryEntry.size, hsub] at hr
      split at hr
      · rename_i hft
        have hlen := hft.2
        have hnext : a + 8 + nameLenOf name + u16Sub (q.entry.recLen - 8) (nameLenOf name) = a + q.entry.recLen := by
          rw [u16Sub_of_le (by omega) (by omega)]
          omega
        split at hr
        · rename_i hall
          cases hr
          refine ⟨q, List.mem_cons_self, rfl, hft.1, ?_⟩
          rw [hname, hlen, storedName]
          refine List.ext_getElem (by simp [nameLenOf, Nat.mod_le]) fun i hi1 hi2 => ?_
          have hi : i < nameLenOf name := by simpa using hi1
          have hbyte := List.all_eq_true.1 hall i (List.mem_range.2 hi)
          rw [List.getElem_map, List.getElem_range, List.getElem_take, ← eq_of_beq hbyte]
          exact List.getD_eq_getElem _ _ _
        · rename_i hall
          rw [hnext] at hr
          refine hrest (fun _ he => hall (List.all_eq_true.2 fun i hi => ?_)) hr
          have hi' := List.mem_range.1 hi
          have hil : i < name.length := hi'.trans_le (Nat.mod_le _ _)
          have hget := congrArg (·[i]?) he
          rw [hname, hlen, storedName] at hget
          simp only [List.getElem?_map, List.getElem?_range hi', Option.map_some, List.getElem?_take_of_lt hi',
            List.getElem?_eq_getElem hil, Option.some.injEq] at hget
          rw [hget, List.getD_eq_getElem _ _ hil]
          exact beq_self_eq_true _
      · rename_i hft
        have hnext : a + 8 + (q.entry.recLen - 8) = a + q.entry.recLen := by omega
        rw [hnext] at hr
        refine hrest (fun hu he => hft ⟨hu, ?_⟩) hr
        have hl := congrArg List.length he
        rw [hname, storedName] at hl
        simpa [nameLenOf, Nat.mod_le] using hl

/-- The search for a name ends. -/
theorem seekName_ok {fuel size : Nat} (h : Tiles f a rs 1024) (hsize : a + size = 1024) (hfuel : size < fuel) :
    ∃ r, seekName f name fuel size a = .ok r := by
  induction rs generalizing a size fuel with
  | nil =>
    have ha : a = 1024 := h
    cases fuel with
    | zero => omega
    | succ fuel => exact ⟨_, by rw [seekName, if_neg (by omega)]⟩
  | cons q rs ih =>
    obtain ⟨h1, h2, h3⟩ := h
    have hle := h3.le
    have hq : DirectoryEntry.ofBytes (fun i => f (a + i)) = q.entry := by rw [← h1]; rfl
    have hsub : u16Sub q.entry.recLen 8 = q.entry.recLen - 8 := u16Sub_of_le (by omega) (by omega)
    cases fuel with
    | zero => omega
    | succ fuel =>
      have hnext : ∃ r, seekName f name fuel (size - q.entry.recLen) (a + q.entry.recLen) = .ok r :=
        ih h3 (by omega) (by omega)
      rw [seekName, if_pos (by omega)]
      simp only [hq, DirectoryEntry.size, hsub]
      split
      · rename_i hft
        split
        · exact ⟨_, rfl⟩
        · rw [u16Sub_of_le (by omega) (by omega)]
          have he : a + 8 + nameLenOf name + (q.entry.recLen - 8 - nameLenOf name) = a + q.entry.recLen := by omega
          rw [he]
          exact hnext
      · have he : a + 8 + (q.entry.recLen - 8) = a + q.entry.recLen := by omega
        rw [he]
        exact hnext

end Tiles

/-! ### The functions on directory blocks -/

/-- A directory block with the records `rs`. -/
structure DirBlock (f : Nat → UInt8) (rs : List Rec) : Prop where
  tiles : Tiles f 0 rs 1024
  unknown : ∀ r ∈ rs, r.entry.fileType = ftUnknown → r.name = []

theorem DirBlock.walk_eq {rs : List Rec} (h : DirBlock f rs) : walk f 1024 0 = rs := h.tiles.walk_eq (by omega)

theorem DirBlock.unique {rs rs' : List Rec} (h : DirBlock f rs) (h' : DirBlock f rs') : rs = rs' :=
  h.walk_eq.symm.trans h'.walk_eq

/-- `rs'` is `rs` with the entry `new` in the place of unused space. -/
def Adds (rs : List Rec) (new : Rec) (rs' : List Rec) : Prop :=
  ∃ pre q post pad, rs = pre ++ q :: post ∧ q.entry.fileType = ftUnknown ∧ rs' = pre ++ new :: (pad ++ post) ∧
    ∀ p ∈ pad, ∃ len, p = padding len

/-- Among the records, only the last one may be unused. -/
def LastUnknown (rs : List Rec) : Prop := ∀ pre q post, rs = pre ++ q :: post → q.entry.fileType = ftUnknown → post = []

/-- The entry that `write_dir_entry_here` writes. -/
def newRec (name : List UInt8) (ft ino len : Nat) : Rec := ⟨⟨ino, len, nameLenOf name, ft⟩, storedName name⟩

theorem LastUnknown.of_length {rs : List Rec} (h : rs.length ≤ 1) : LastUnknown rs := by
  intro pre q post he _
  have hlen := congrArg List.length he
  rw [List.length_append, List.length_cons] at hlen
  exact List.length_eq_zero_iff.1 (by omega)

/-- The records before one of unknown type are in use. -/
theorem LastUnknown.pre {pre post : List Rec} {q : Rec} (h : LastUnknown (pre ++ q :: post)) :
    ∀ r ∈ pre, r.entry.fileType ≠ ftUnknown := by
  intro r hr hft
  obtain ⟨l₁, l₂, rfl⟩ := List.append_of_mem hr
  have hnil : l₂ ++ q :: post = [] := h l₁ r _ (by simp) hft
  simp at hnil

theorem LastUnknown.append {pre rest : List Rec} (hpre : ∀ r ∈ pre, r.entry.fileType ≠ ftUnknown)
    (h : LastUnknown rest) : LastUnknown (pre ++ rest) := by
  induction pre with
  | nil => exact h
  | cons r pre ih =>
    intro l₁ q l₂ he hft
    cases l₁ with
    | nil =>
      obtain ⟨rfl, -⟩ := List.cons.inj he
      exact absurd hft (hpre r List.mem_cons_self)
    | cons r' l₁ => exact ih (fun x hx => hpre x (List.mem_cons_of_mem _ hx)) l₁ q l₂ (List.cons.inj he).2 hft

/-- An entry in the place of the last record, with at most one unused record behind it. -/
theorem LastUnknown.cut {pre post pad : List Rec} {q new : Rec} (h : LastUnknown (pre ++ q :: post))
    (hq : q.entry.fileType = ftUnknown) (hnew : new.entry.fileType ≠ ftUnknown) (hpad : pad.length ≤ 1) :
    LastUnknown (pre ++ new :: (pad ++ post)) := by
  rw [h pre q post rfl hq, List.append_nil]
  have hone : ∀ r ∈ [new], r.entry.fileType ≠ ftUnknown := fun r hr => List.mem_singleton.1 hr ▸ hnew
  exact LastUnknown.append h.pre (LastUnknown.append hone (LastUnknown.of_length hpad))

theorem recLenOf_spec (name : List UInt8) : 8 + nameLenOf name ≤ recLenOf name ∧ recLenOf name ≤ 267 := by
  have h : nameLenOf name < 256 := Nat.mod_lt _ (by decide)
  simp only [recLenOf, align4, DirectoryEntry.size]
  omega

theorem storedName_of_le (h : name.length ≤ 255) : storedName name = name := by
  rw [storedName, nameLenOf, Nat.mod_eq_of_lt (by omega), List.take_length]

theorem nameLenOf_lt (name : List UInt8) : nameLenOf name < 2 ^ 8 := Nat.mod_lt _ (by decide)

theorem recAt_padding {len : Nat} (hlen : len < 2 ^ 16)
    (h : ∀ i < 8, f (o + i) = ofWords (DirectoryEntry.words ⟨0, len, 0, ftUnknown⟩) i) : recAt f o = padding len := by
  have hv : DirectoryEntry.Valid ⟨0, len, 0, ftUnknown⟩ :=
    ⟨Nat.two_pow_pos 32, hlen, Nat.two_pow_pos 8, Nat.two_pow_pos 8⟩
  have hrec : recAt f o = ⟨⟨0, len, 0, ftUnknown⟩, List.take 0 []⟩ := by
    refine recAt_eq hv (Nat.le_refl 0) fun i hi => ?_
    have hi : i < DirectoryEntry.size := hi
    rw [h i hi, entryBytes, if_pos hi]
  exact hrec

theorem recAt_newRec {len : Nat} (hino : ino < 2 ^ 32) (hft : ft < 2 ^ 8) (hlen : len < 2 ^ 16)
    (h : ∀ i < 8 + nameLenOf name, f (o + i) = entryBytes ⟨ino, len, nameLenOf name, ft⟩ name i) :
    recAt f o = newRec name ft ino len :=
  recAt_eq ⟨hino, hlen, nameLenOf_lt name, hft⟩ (Nat.mod_le _ _) h

theorem after_getDirEntryFromBlock {rs : List Rec} (hb : g.IsData b) (ht : DirBlock (d.data b) rs) :
    g.After t d (getDirEntryFromBlock name b) (fun r d' => d' = d ∧ FoundIn name rs r) := by
  refine (after_readBlockData hb).bind ?_
  rintro f d' ⟨hd, hf⟩
  subst hd
  have htf := ht.tiles.congr fun x _ hx => hf x hx
  exact After.lift (fun r hr => ⟨rfl, htf.of_seekName rfl hr⟩) fun _ => htf.seekName_ok rfl (by decide)

theorem after_initDirBlock (hb : g.IsData b) :
    g.After t d (initDirBlock b) (fun _ d' => ∃ f, d' = d.setData b f ∧ DirBlock f [padding 1024]) := by
  refine (after_fwrite_data (o := 0) hb (by decide)).mono fun _ d' hd => ⟨_, hd, ?_⟩
  have hrec : recAt (put (d.data b) 0 8 (ofWords (DirectoryEntry.words ⟨0, 1024, 0, ftUnknown⟩))) 0 = padding 1024 :=
    recAt_padding (by decide) fun i hi => put_in hi
  refine ⟨⟨hrec, by decide, rfl⟩, fun r hr _ => ?_⟩
  rw [List.mem_singleton.1 hr]
  rfl

/-- The write of `write_dir_entry_here` into an unused record of a block. -/
theorem after_writeDirEntryHere {pre post : List Rec} {q : Rec} (hb : g.IsData b)
    (ht : DirBlock (d.data b) (pre ++ q :: post)) (ho : Tiles (d.data b) 0 pre o)
    (hq : q.entry.fileType = ftUnknown) (hlen : recLenOf name ≤ q.entry.recLen) (hino : ino < 2 ^ 32)
    (hft : ft < 2 ^ 8) (hft0 : ft ≠ ftUnknown) :
    g.After t d (writeDirEntryHere (blockOffset b + o) name ft ino q.entry.recLen) (fun _ d' =>
      ∃ f len rs', d' = d.setData b f ∧ DirBlock f rs' ∧ Adds (pre ++ q :: post) (newRec name ft ino len) rs' ∧
        (LastUnknown (pre ++ q :: post) → LastUnknown rs') ∧ (recLenOf name + 8 ≤ q.entry.recLen → rs' = pre ++ newRec name ft ino (recLenOf name) ::
          padding (q.entry.recLen - recLenOf name) :: post)) := by
  obtain ⟨o', ho', hq1, hq2, hpost⟩ := Tiles.append.1 ht.tiles
  obtain rfl : o = o' := Tiles.end_unique ho ho'
  have hle := hpost.le
  obtain ⟨hrec, hrec'⟩ := recLenOf_spec name
  have hun : ∀ (pad : List Rec) (len : Nat), (∀ p ∈ pad, ∃ len, p = padding len) →
      ∀ r ∈ pre ++ newRec name ft ino len :: (pad ++ post), r.entry.fileType = ftUnknown → r.name = [] := by
    intro pad len hpad r hr hru
    simp only [List.mem_append, List.mem_cons] at hr
    rcases hr with hr | rfl | hr | hr
    · exact ht.unknown r (List.mem_append_left _ hr) hru
    · exact absurd hru hft0
    · obtain ⟨n, rfl⟩ := hpad r hr
      rfl
    · exact ht.unknown r (List.mem_append_right _ (List.mem_cons_of_mem _ hr)) hru
  rw [writeDirEntryHere]
  split
  · rename_i hsmall
    refine (after_fwrite_data hb (by omega)).mono fun _ d' hd => ?_
    refine ⟨_, q.entry.recLen, pre ++ newRec name ft ino q.entry.recLen :: ([] ++ post), hd, ⟨?_, hun [] _ ?_⟩,
      ⟨pre, q, post, [], rfl, hq, rfl, ?_⟩, fun hl => hl.cut hq hft0 (Nat.zero_le 1),
      fun hroom => absurd hsmall (Nat.not_lt.2 hroom)⟩
    · refine Tiles.append.2 ⟨o, ho.congr fun x _ hx => put_out (by omega), ?_, ?_, ?_⟩
      · exact recAt_newRec hino hft (by omega) fun i hi => put_in (by omega)
      · show 8 + nameLenOf name ≤ q.entry.recLen
        omega
      · exact hpost.congr fun x hx _ => put_out (by omega)
    all_goals exact fun p hp => absurd hp List.not_mem_nil
  · refine (after_fwrite_data hb (by omega)).bind fun _ d' hd => ?_
    rw [writePaddingEntry, if_neg (by rw [DirectoryEntry.size] at *; omega), Nat.add_assoc]
    have hpl : q.entry.recLen - recLenOf name < 2 ^ 16 := by omega
    refine (after_fwrite_data hb (by rw [DirectoryEntry.size] at *; omega)).mono fun _ d'' hd' => ?_
    have hd'' : d'' = d.setData b (put (put (d.data b) o (recLenOf name)
        (entryBytes ⟨ino, recLenOf name, nameLenOf name, ft⟩ name)) (o + recLenOf name) 8
        (ofWords (DirectoryEntry.words ⟨0, q.entry.recLen - recLenOf name, 0, ftUnknown⟩))) := by
      rw [hd', hd]
      simp only [Disk.setData, Function.update_self, Function.update_idem, DirectoryEntry.size]
    rw [DirectoryEntry.size] at *
    refine ⟨_, recLenOf name, pre ++ newRec name ft ino (recLenOf name) ::
      ([padding (q.entry.recLen - recLenOf name)] ++ post), hd'', ⟨?_, hun [_] _ ?_⟩,
      ⟨pre, q, post, [_], rfl, hq, rfl, ?_⟩, fun hl => hl.cut hq hft0 (Nat.le_refl 1), fun _ => rfl⟩
    · refine Tiles.append.2 ⟨o, ho.congr fun x _ hx => ?_, ?_, hrec, ?_, ?_, ?_⟩
      · rw [put_out (by omega), put_out (by omega)]
      · refine recAt_newRec hino hft (by omega) fun i hi => ?_
        rw [put_out (by omega), put_in (by omega)]
      · exact recAt_padding hpl fun i hi => put_in hi
      · show 8 + 0 ≤ q.entry.recLen - recLenOf name
        omega
      · have hend : o + recLenOf name + (q.entry.recLen - recLenOf name) = o + q.entry.recLen := by omega
        show Tiles _ (o + recLenOf name + (q.entry.recLen - recLenOf name)) post 1024
        rw [hend]
        refine hpost.congr fun x hx _ => ?_
        rw [put_out (by omega), put_out (by omega)]
    all_goals
      intro p hp
      exact ⟨_, List.mem_singleton.1 hp⟩

theorem after_writeDirEntryToBlock {rs : List Rec} (hb : g.IsData b) (ht : DirBlock (d.data b) rs)
    (hino : ino < 2 ^ 32) (hft : ft < 2 ^ 8) (hft0 : ft ≠ ftUnknown) :
    g.After t d (writeDirEntryToBlock b name ft ino) (fun r d' =>
      r = false ∧ d' = d ∧ (∀ len post, rs = padding len :: post → len < recLenOf name) ∨
      r = true ∧ ∃ f len rs', d' = d.setData b f ∧ DirBlock f rs' ∧ Adds rs (newRec name ft ino len) rs' ∧
        (LastUnknown rs → LastUnknown rs')) := by
  refine (after_readBlockData hb).bind ?_
  rintro f d' ⟨hd, hf⟩
  subst hd
  have htf := ht.tiles.congr fun x _ hx => hf x hx
  refine (After.lift (Q := fun r e => e = d' ∧ seekUnknown f (blockSize + 1) blockSize 0 ⟨0, 0, 0, 0⟩ = .ok r)
    (fun r hr => ⟨rfl, hr⟩) fun _ => htf.seekUnknown_ok rfl (by decide)).bind fun ⟨off, entry⟩ e ⟨he, hr⟩ => ?_
  subst he
  have hseek := htf.of_seekUnknown rfl hr
  dsimp only at hseek ⊢
  split
  · rename_i hcond
    rcases hseek with ⟨pre, q, post, rfl, hq, hqu, hpre⟩ | ⟨rfl, -⟩ | hne
    · have hpre' : Tiles (e.data b) 0 pre off := by
        have hle : off ≤ 1024 := by
          obtain ⟨m, hm, h2⟩ := Tiles.append.1 htf
          rw [Tiles.end_unique hpre hm]
          exact Tiles.le h2
        exact hpre.congr fun x _ hx => (hf x (by omega)).symm
      rw [← hq] at hcond ⊢
      refine (after_writeDirEntryHere hb ht hpre' hqu hcond.2 hino hft hft0).bind fun _ d' hd => ?_
      obtain ⟨f, len, rs', h1, h2, h3, h4, -⟩ := hd
      exact After.pure (.inr ⟨rfl, f, len, rs', h1, h2, h3, h4⟩)
    · have h0 : 0 = 1024 := ht.tiles
      omega
    · exact absurd hcond.1 hne
  · rename_i hcond
    refine After.pure (.inl ⟨rfl, rfl, fun len post hrs => ?_⟩)
    subst hrs
    -- the search stops at the first record
    by_contra hlen
    have hfirst : ∃ o, seekUnknown f (blockSize + 1) blockSize 0 ⟨0, 0, 0, 0⟩ = .ok (o, (padding len).entry) ∧
        Tiles f 0 [] o :=
      Tiles.seekUnknown_first htf rfl (by decide) (fun p hp => absurd hp List.not_mem_nil) rfl
    obtain ⟨o, ho, -⟩ := hfirst
    rw [ho] at hr
    cases hr
    exact hcond ⟨rfl, Nat.not_lt.1 hlen⟩

/-- The entry goes to the first unused record, if that has room for more. -/
theorem after_writeDirEntryToBlock_room {pre post : List Rec} {len : Nat} (hb : g.IsData b)
    (ht : DirBlock (d.data b) (pre ++ padding len :: post)) (hpre : ∀ p ∈ pre, p.entry.fileType ≠ ftUnknown)
    (hlen : recLenOf name + 8 ≤ len) (hino : ino < 2 ^ 32) (hft : ft < 2 ^ 8) (hft0 : ft ≠ ftUnknown) :
    g.After t d (writeDirEntryToBlock b name ft ino) (fun r d' => r = true ∧ ∃ f, d' = d.setData b f ∧
      DirBlock f (pre ++ newRec name ft ino (recLenOf name) :: padding (len - recLenOf name) :: post)) := by
  refine (after_readBlockData hb).bind ?_
  rintro f d' ⟨hd, hf⟩
  subst hd
  have htf := ht.tiles.congr fun x _ hx => hf x hx
  have hfirst : ∃ o, seekUnknown f (blockSize + 1) blockSize 0 ⟨0, 0, 0, 0⟩ = .ok (o, (padding len).entry) ∧
      Tiles f 0 pre o := htf.seekUnknown_first rfl (by decide) hpre rfl
  obtain ⟨o, ho, hto⟩ := hfirst
  have hto' : Tiles (d'.data b) 0 pre o := by
    obtain ⟨m, hm, h2⟩ := Tiles.append.1 htf
    have hle := Tiles.le h2
    obtain rfl := Tiles.end_unique hto hm
    exact hto.congr fun x _ hx => (hf x (by omega)).symm
  refine (After.lift (Q := fun r e => e = d' ∧ r = (o, (padding len).entry))
    (fun r hr => ⟨rfl, Except.ok.inj (hr.symm.trans ho)⟩) fun _ => ⟨_, ho⟩).bind fun r e ⟨he, hr⟩ => ?_
  subst he hr
  dsimp only
  rw [if_pos ⟨rfl, show recLenOf name ≤ len by omega⟩]
  refine (after_writeDirEntryHere (q := padding len) hb ht hto' rfl (show recLenOf name ≤ len by omega) hino hft
    hft0).bind fun _ d' ⟨f, _, rs', hd, hf, _, _, hrs⟩ => After.pure ⟨rfl, f, hd, ?_⟩
  rw [hrs hlen] at hf
  exact hf

end Airix.Mkfs
