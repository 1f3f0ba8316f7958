import Airix.Proc.Own

/-!
# Address spaces

A `Space` is what a process has: frames at the places of a two-level table, the flags of their entries, and what
is in the pages. `Rep` says that the memory of the machine holds it, that the frames of it are taken from `free`,
and that nothing in `kept` was touched.
-/

namespace Airix.Proc

/-- Where a frame is: the directory, a table, a page, or a page that is in no table. -/
inductive Place
  | dir
  | table (pde : Nat)
  | page (pde pte : Nat)
  | hand
deriving DecidableEq, Repr

namespace Place

/-- The place that entry `i` is about. -/
def entry : Place → Nat → Place
  | .dir, i => .table i
  | .table pde, i => .page pde i
  | a, _ => a

def HasEntries : Place → Prop
  | .dir | .table _ => True
  | _ => False

instance : DecidablePred HasEntries := fun a => match a with
  | .dir | .table _ => inferInstanceAs (Decidable True)
  | .page _ _ | .hand => inferInstanceAs (Decidable False)

theorem entry_inj {a b : Place} {i j : Nat} (ha : a.HasEntries) (hb : b.HasEntries) (h : a.entry i = b.entry j) :
    a = b ∧ i = j := by
  cases a <;> cases b <;> simp [entry, HasEntries] at h ha hb ⊢ <;> exact h

end Place

structure Space where
  proc : Process
  /-- The entries of the directory that count. -/
  limit : Nat
  places : Finset Place
  frame : Place → Nat
  /-- The flags of the entry for a place; `none` while it has no entry. -/
  flag : Place → Option Nat
  words : Place → Nat → Nat

namespace Space

def ptr (x : Space) (a : Place) : Nat := castPhysicalToVirtual (x.frame a * pageSize)

def size (x : Space) : Place → Nat
  | .dir => x.limit
  | _ => numPte

/-- The word `w` stands in the entry for `a`. -/
def Entry (x : Space) (a : Place) (w : Nat) : Prop :=
  match x.flag a with
  | some k => w = x.frame a * pageSize + k
  | none => w < pageSize ∧ w % 2 = 0

/-- The words `w` are in the frame at `a`. What a directory has from the limit on are words like others. -/
def Fits (x : Space) (a : Place) (w : Nat → Nat) : Prop :=
  if a.HasEntries then
    (∀ i < x.size a, x.Entry (a.entry i) (w i)) ∧ ∀ i, x.size a ≤ i → i < numPde → w i = x.words a i
  else w = x.words a

structure Ok (x : Space) : Prop where
  inj : ∀ a ∈ x.places, ∀ b ∈ x.places, x.frame a = x.frame b → a = b
  flag : ∀ a k, x.flag a = some k → a ∈ x.places ∧ k < pageSize ∧ k % 2 = 1
  table : ∀ pde, .table pde ∈ x.places → .dir ∈ x.places ∧ pde < x.limit
  page : ∀ pde pte, .page pde pte ∈ x.places → .table pde ∈ x.places ∧ pte < numPte
  hand : x.flag .hand = none

/-! ### Operations -/

def take (x : Space) (a : Place) (f : Nat) (w : Nat → Nat) : Space :=
  { x with places := insert a x.places
           frame := Function.update x.frame a f
           words := Function.update x.words a w }

def drop (x : Space) (a : Place) : Space := { x with places := x.places.erase a }

def setFlag (x : Space) (a : Place) (k : Option Nat) : Space := { x with flag := Function.update x.flag a k }

def setWords (x : Space) (a : Place) (w : Nat → Nat) : Space := { x with words := Function.update x.words a w }

def setProc (x : Space) (p : Process) : Space := { x with proc := p }

/-- The page in hand goes to a place. -/
def putHand (x : Space) (a : Place) (k : Nat) : Space :=
  ((x.drop .hand).take a (x.frame .hand) (x.words .hand)).setFlag a (some k)

variable {x y : Space} {a b : Place} {w : Nat → Nat}

section
variable {f k : Nat} {o : Option Nat} {p : Process}

@[simp] theorem take_proc : (x.take a f w).proc = x.proc := rfl
@[simp] theorem take_limit : (x.take a f w).limit = x.limit := rfl
@[simp] theorem take_places : (x.take a f w).places = insert a x.places := rfl
@[simp] theorem take_frame : (x.take a f w).frame = Function.update x.frame a f := rfl
@[simp] theorem take_flag : (x.take a f w).flag = x.flag := rfl
@[simp] theorem take_words : (x.take a f w).words = Function.update x.words a w := rfl

@[simp] theorem drop_proc : (x.drop a).proc = x.proc := rfl
@[simp] theorem drop_limit : (x.drop a).limit = x.limit := rfl
@[simp] theorem drop_places : (x.drop a).places = x.places.erase a := rfl
@[simp] theorem drop_frame : (x.drop a).frame = x.frame := rfl
@[simp] theorem drop_flag : (x.drop a).flag = x.flag := rfl
@[simp] theorem drop_words : (x.drop a).words = x.words := rfl

@[simp] theorem setFlag_proc : (x.setFlag a o).proc = x.proc := rfl
@[simp] theorem setFlag_limit : (x.setFlag a o).limit = x.limit := rfl
@[simp] theorem setFlag_places : (x.setFlag a o).places = x.places := rfl
@[simp] theorem setFlag_frame : (x.setFlag a o).frame = x.frame := rfl
@[simp] theorem setFlag_flag : (x.setFlag a o).flag = Function.update x.flag a o := rfl
@[simp] theorem setFlag_words : (x.setFlag a o).words = x.words := rfl

@[simp] theorem setWords_proc : (x.setWords a w).proc = x.proc := rfl
@[simp] theorem setWords_limit : (x.setWords a w).limit = x.limit := rfl
@[simp] theorem setWords_places : (x.setWords a w).places = x.places := rfl
@[simp] theorem setWords_frame : (x.setWords a w).frame = x.frame := rfl
@[simp] theorem setWords_flag : (x.setWords a w).flag = x.flag := rfl
@[simp] theorem setWords_words : (x.setWords a w).words = Function.update x.words a w := rfl

@[simp] theorem setProc_proc : (x.setProc p).proc = p := rfl
@[simp] theorem setProc_limit : (x.setProc p).limit = x.limit := rfl
@[simp] theorem setProc_places : (x.setProc p).places = x.places := rfl
@[simp] theorem setProc_frame : (x.setProc p).frame = x.frame := rfl
@[simp] theorem setProc_flag : (x.setProc p).flag = x.flag := rfl
@[simp] theorem setProc_words : (x.setProc p).words = x.words := rfl

end

theorem Ok.flag_none (h : x.Ok) (ha : a ∉ x.places) : x.flag a = none := by
  cases hk : x.flag a with
  | none => rfl
  | some k => exact absurd (h.flag a k hk).1 ha

theorem Entry.congr {v : Nat} (h : x.Entry a v) (hflag : y.flag a = x.flag a)
    (hframe : x.flag a ≠ none → y.frame a = x.frame a) : y.Entry a v := by
  unfold Entry at h ⊢
  rw [hflag]
  cases hk : x.flag a with
  | none => simpa only [hk] using h
  | some k =>
    rw [hk] at h
    dsimp only at h ⊢
    rw [hframe (by simp [hk])]
    exact h

theorem Fits.congr (h : x.Fits a w) (hlimit : y.limit = x.limit)
    (hentry : ∀ i, a.HasEntries → y.flag (a.entry i) = x.flag (a.entry i) ∧
      (x.flag (a.entry i) ≠ none → y.frame (a.entry i) = x.frame (a.entry i)))
    (hwords : y.words a = x.words a) : y.Fits a w := by
  have hsize : y.size a = x.size a := by cases a <;> simp [size, hlimit]
  unfold Fits at h ⊢
  rw [hsize, hwords]
  split_ifs at h ⊢ with ha
  · exact ⟨fun i hi => (h.1 i hi).congr (hentry i ha).1 (hentry i ha).2, h.2⟩
  · exact h

theorem Fits.entry (h : x.Fits a w) (ha : a.HasEntries) {i : Nat} (hi : i < x.size a) : x.Entry (a.entry i) (w i) := by
  unfold Fits at h
  rw [if_pos ha] at h
  exact h.1 i hi

theorem fits_words (ha : ¬ a.HasEntries) : x.Fits a w ↔ w = x.words a := by
  rw [Fits, if_neg ha]

theorem Entry.none_iff {v : Nat} (h : x.Entry a v) (hok : x.Ok) (h0 : a ∈ x.places → x.frame a ≠ 0) :
    entryAddress v = 0 ↔ x.flag a = none := by
  unfold Entry at h
  cases hk : x.flag a with
  | none =>
    rw [hk] at h
    dsimp only at h
    unfold entryAddress pageSize at *
    simp only [iff_true]
    omega
  | some k =>
    rw [hk] at h
    dsimp only at h
    obtain ⟨ha, hlt, -⟩ := hok.flag a k hk
    have := h0 ha
    unfold entryAddress pageSize at *
    simp only [reduceCtorEq, iff_false]
    omega

theorem Entry.some_eq {v k : Nat} (h : x.Entry a v) (hok : x.Ok) (hk : x.flag a = some k) :
    entryAddress v = x.frame a * pageSize ∧ entryFlag v = k := by
  unfold Entry at h
  rw [hk] at h
  dsimp only at h
  obtain ⟨-, hlt, -⟩ := hok.flag a k hk
  unfold entryAddress entryFlag pageSize at *
  omega

theorem Entry.present_iff {v : Nat} (h : x.Entry a v) (hok : x.Ok) : v % 2 = 1 ↔ x.flag a ≠ none := by
  unfold Entry at h
  cases hk : x.flag a with
  | none =>
    rw [hk] at h
    simp only [ne_eq, not_true_eq_false, iff_false]
    omega
  | some k =>
    rw [hk] at h
    dsimp only at h
    obtain ⟨-, -, hodd⟩ := hok.flag a k hk
    unfold pageSize at *
    simp only [ne_eq, reduceCtorEq, not_false_eq_true, iff_true]
    omega

/-- Every table and every page has its entry. -/
def Linked (x : Space) : Prop := ∀ a ∈ x.places, a ≠ .dir → a ≠ .hand → x.flag a ≠ none

/-! ### They keep a space in order -/

theorem Ok.take (h : x.Ok) {f : Nat} (ha : a ∉ x.places) (hf : ∀ b ∈ x.places, x.frame b ≠ f)
    (htable : ∀ pde, a = .table pde → .dir ∈ x.places ∧ pde < x.limit)
    (hpage : ∀ pde pte, a = .page pde pte → .table pde ∈ x.places ∧ pte < numPte) : (x.take a f w).Ok := by
  have hframe : ∀ b ∈ x.places, (x.take a f w).frame b = x.frame b := by
    intro b hb
    refine Function.update_of_ne ?_ _ _
    rintro rfl
    exact ha hb
  have hself : (x.take a f w).frame a = f := Function.update_self _ _ _
  refine ⟨fun b hb c hc e => ?_, fun b k hk => ?_, fun pde hm => ?_, fun pde pte hm => ?_, h.hand⟩
  · rcases Finset.mem_insert.mp hb with rfl | hb' <;> rcases Finset.mem_insert.mp hc with hca | hc'
    · exact hca.symm
    · rw [hself, hframe c hc'] at e
      exact absurd e.symm (hf c hc')
    · subst hca
      rw [hself, hframe b hb'] at e
      exact absurd e (hf b hb')
    · rw [hframe b hb', hframe c hc'] at e
      exact h.inj b hb' c hc' e
  · obtain ⟨hb, hlt⟩ := h.flag b k hk
    exact ⟨Finset.mem_insert_of_mem hb, hlt⟩
  · rcases Finset.mem_insert.mp hm with e | hm
    · obtain ⟨hd, hlt⟩ := htable pde e.symm
      exact ⟨Finset.mem_insert_of_mem hd, hlt⟩
    · obtain ⟨hd, hlt⟩ := h.table pde hm
      exact ⟨Finset.mem_insert_of_mem hd, hlt⟩
  · rcases Finset.mem_insert.mp hm with e | hm
    · obtain ⟨hd, hlt⟩ := hpage pde pte e.symm
      exact ⟨Finset.mem_insert_of_mem hd, hlt⟩
    · obtain ⟨hd, hlt⟩ := h.page pde pte hm
      exact ⟨Finset.mem_insert_of_mem hd, hlt⟩

theorem Ok.drop (h : x.Ok) (hflag : x.flag a = none) (hchild : ∀ b ∈ x.places, ∀ i, a.HasEntries → b ≠ a.entry i) :
    (x.drop a).Ok := by
  refine ⟨fun b hb c hc e => h.inj b (Finset.mem_of_mem_erase hb) c (Finset.mem_of_mem_erase hc) e,
    fun b k hk => ?_, fun pde hm => ?_, fun pde pte hm => ?_, h.hand⟩
  · obtain ⟨hb, hlt⟩ := h.flag b k hk
    refine ⟨Finset.mem_erase.mpr ⟨?_, hb⟩, hlt⟩
    rintro rfl
    exact absurd (hflag.symm.trans hk) (by simp)
  · have hm' := Finset.mem_of_mem_erase hm
    obtain ⟨hd, hlt⟩ := h.table pde hm'
    refine ⟨Finset.mem_erase.mpr ⟨?_, hd⟩, hlt⟩
    rintro rfl
    exact hchild _ hm' pde trivial rfl
  · have hm' := Finset.mem_of_mem_erase hm
    obtain ⟨hd, hlt⟩ := h.page pde pte hm'
    refine ⟨Finset.mem_erase.mpr ⟨?_, hd⟩, hlt⟩
    rintro rfl
    exact hchild _ hm' pte trivial rfl

theorem Ok.setFlag (h : x.Ok) {k : Option Nat} (hk : ∀ j, k = some j → a ∈ x.places ∧ j < pageSize ∧ j % 2 = 1)
    (ha : a ≠ .hand) : (x.setFlag a k).Ok := by
  refine ⟨h.inj, fun b j hj => ?_, h.table, h.page, (Function.update_of_ne ha.symm _ _).trans h.hand⟩
  by_cases e : b = a
  · subst e
    exact hk j (by simpa [Space.setFlag] using hj)
  · exact h.flag b j (by simpa [Space.setFlag, e] using hj)

/-- The page in hand is at another place now. -/
theorem Ok.moveHand (h : x.Ok) {pde pte : Nat} (hx : .hand ∈ x.places) (hp : .page pde pte ∉ x.places)
    (ht : .table pde ∈ x.places) (hlt : pte < numPte) :
    ((x.drop .hand).take (.page pde pte) (x.frame .hand) w).Ok := by
  have hdrop : (x.drop .hand).Ok := h.drop h.hand fun b _ i hb => absurd hb (by simp [Place.HasEntries])
  refine hdrop.take (fun hm => hp (Finset.mem_of_mem_erase hm)) (fun b hb e => ?_) (by simp) ?_
  · obtain ⟨hne, hb⟩ := Finset.mem_erase.mp hb
    exact hne (h.inj b hb .hand hx e)
  · rintro _ _ e
    obtain ⟨rfl, rfl⟩ := Place.page.inj e
    exact ⟨Finset.mem_erase.mpr ⟨by simp, ht⟩, hlt⟩

theorem Ok.setWords (h : x.Ok) : (x.setWords a w).Ok := ⟨h.inj, h.flag, h.table, h.page, h.hand⟩

theorem Ok.setProc (h : x.Ok) {p : Process} : (x.setProc p).Ok := ⟨h.inj, h.flag, h.table, h.page, h.hand⟩

end Space

/-! ### Spaces in memory -/

/-- All memory can be reached through the kernel's window. -/
structure WindowOk (freeAddr entriesAddr : Nat) (entries : Array Pmm.MmapEntry) : Prop
    extends Pmm.BootOk freeAddr entriesAddr entries where
  window : Pmm.maxUsableEnd entries.toList ≤ 0x40000000

/-- The process that is worked on, and what was there before: the frames it may get, and those nobody touches. -/
structure Env where
  owner : Nat
  live : Nat → Option Slab.Live
  start : State
  free : Set Nat
  kept : Set Nat
  disjoint : ∀ f ∈ kept, f ∉ free

structure SameRest (s s' : State) : Prop where
  pgDir : s'.pgDir = s.pgDir
  procCache : s'.procCache = s.procCache
  pidMap : s'.pidMap = s.pidMap
  pidGen : s'.pidGen = s.pidGen
  sched : s'.sched = s.sched

structure Rep (freeAddr entriesAddr : Nat) (entries : Array Pmm.MmapEntry) (E : Env) (m : Machine) (x : Space) : Prop where
  ok : x.Ok
  fits : ∀ a ∈ x.places, x.Fits a (m.state.mem (x.frame a))
  proc : m.state.procs E.owner = some x.proc
  run : ∃ frames, Slab.Run freeAddr entriesAddr entries m.state.slab E.live frames ∧
    ∀ a ∈ x.places, (x.frame a, 0) ∈ frames
  mem_free : ∀ a ∈ x.places, x.frame a ∈ E.free
  free : ∀ f, Pmm.FreePage m.state.slab.pmm f ↔ f ∈ E.free ∧ ∀ a ∈ x.places, x.frame a ≠ f
  kept : ∀ f ∈ E.kept, m.state.mem f = E.start.mem f
  others : ∀ o, o ≠ E.owner → m.state.procs o = E.start.procs o
  rest : SameRest E.start m.state

section
variable {freeAddr entriesAddr : Nat} {entries : Array Pmm.MmapEntry} {E : Env} {m : Machine} {x : Space}
  {a b : Place} {t : Prop}

namespace Rep

theorem frame_spec (h : Rep freeAddr entriesAddr entries E m x) (hw : WindowOk freeAddr entriesAddr entries)
    (ha : a ∈ x.places) : x.frame a ≠ 0 ∧ x.frame a < 0x40000 := by
  obtain ⟨frames, hrun, hmem⟩ := h.run
  have hlt := hrun.others_lt hw.toBootOk (hmem a ha)
  have hwin := hw.window
  refine ⟨(hrun.others_spec hw.toBootOk (hmem a ha)).1, ?_⟩
  unfold pageSize at hlt
  omega

theorem card_le (h : Rep freeAddr entriesAddr entries E m x) (hw : WindowOk freeAddr entriesAddr entries) :
    x.places.card ≤ 0x40000 := by
  have hcard := Finset.card_le_card_of_injOn (s := x.places) (t := Finset.range 0x40000) x.frame
    (fun a ha => Finset.mem_coe.mpr (Finset.mem_range.mpr (h.frame_spec hw (Finset.mem_coe.mp ha)).2))
    (fun a ha b hb e => h.ok.inj a (Finset.mem_coe.mp ha) b (Finset.mem_coe.mp hb) e)
  rwa [Finset.card_range] at hcard

theorem frame_ptr (h : Rep freeAddr entriesAddr entries E m x) (hw : WindowOk freeAddr entriesAddr entries)
    (ha : a ∈ x.places) : Slab.frame (x.ptr a) = x.frame a :=
  frame_cast ((h.frame_spec hw ha).2.trans (by decide))

/-- The frame of one place is written. -/
theorem setMem (h : Rep freeAddr entriesAddr entries E m x) (hb : b ∈ x.places) {w : Nat → Nat} {y : Space}
    (hplaces : y.places = x.places) (hframe : y.frame = x.frame) (hproc : y.proc = x.proc) (hok : y.Ok)
    (hfit : y.Fits b w) (hother : ∀ a ∈ x.places, a ≠ b → ∀ v, x.Fits a v → y.Fits a v) :
    Rep freeAddr entriesAddr entries E
      { m with state := { m.state with mem := Function.update m.state.mem (x.frame b) w } } y where
  ok := hok
  fits a ha := by
    rw [hplaces] at ha
    rw [hframe]
    dsimp only
    by_cases e : a = b
    · subst e
      rw [Function.update_self]
      exact hfit
    · rw [Function.update_of_ne fun he => e (h.ok.inj a ha b hb he)]
      exact hother a ha e _ (h.fits a ha)
  proc := by rw [hproc]; exact h.proc
  run := by rw [hplaces, hframe]; exact h.run
  mem_free := by rw [hplaces, hframe]; exact h.mem_free
  free := by rw [hplaces, hframe]; exact h.free
  kept f hf := by
    have hne : f ≠ x.frame b := by
      rintro rfl
      exact E.disjoint _ hf (h.mem_free b hb)
    dsimp only
    rw [Function.update_of_ne hne]
    exact h.kept f hf
  others := h.others
  rest := ⟨h.rest.pgDir, h.rest.procCache, h.rest.pidMap, h.rest.pidGen, h.rest.sched⟩

/-- A free frame gets to a place. -/
theorem take (h : Rep freeAddr entriesAddr entries E m x) (ha : a ∉ x.places) {f : Nat} {pmm : Pmm.State}
    (he : Pmm.pmmAllocPages m.state.slab.pmm 0 = some (f, pmm)) (h0 : f ≠ 0)
    (hfree : Pmm.FreePage m.state.slab.pmm f)
    (hiff : ∀ g, Pmm.FreePage pmm g ↔ Pmm.FreePage m.state.slab.pmm g ∧ g ≠ f)
    {mem : Nat → Nat → Nat} (hmem : ∀ g, g ≠ f → mem g = m.state.mem g) {w : Nat → Nat} {fails : List Bool}
    (hfit : (x.take a f w).Fits a (mem f)) (htable : ∀ pde, a = .table pde → .dir ∈ x.places ∧ pde < x.limit)
    (hpage : ∀ pde pte, a = .page pde pte → .table pde ∈ x.places ∧ pte < numPte) :
    Rep freeAddr entriesAddr entries E
      ⟨{ m.state with slab := { m.state.slab with pmm := pmm }, mem := mem }, fails, m.freed⟩ (x.take a f w) := by
  obtain ⟨hf, hfresh⟩ := (h.free f).mp hfree
  have hframe : ∀ b ∈ x.places, (x.take a f w).frame b = x.frame b := by
    intro b hb
    refine Function.update_of_ne ?_ _ _
    rintro rfl
    exact ha hb
  have hself : (x.take a f w).frame a = f := Function.update_self _ _ _
  refine ⟨h.ok.take ha hfresh htable hpage, fun b hb => ?_, h.proc, ?_, fun b hb => ?_, fun g => ?_, fun g hg => ?_,
    h.others, ⟨h.rest.pgDir, h.rest.procCache, h.rest.pidMap, h.rest.pidGen, h.rest.sched⟩⟩
  · rcases Finset.mem_insert.mp hb with rfl | hb'
    · rw [hself]
      exact hfit
    · have hne : b ≠ a := by
        rintro rfl
        exact ha hb'
      dsimp only
      rw [hframe b hb', hmem _ (hfresh b hb')]
      refine (h.fits b hb').congr rfl (fun i _ => ⟨rfl, fun hk => ?_⟩) (Function.update_of_ne hne _ _)
      refine Function.update_of_ne ?_ _ _
      rintro rfl
      exact hk (h.ok.flag_none ha)
  · obtain ⟨frames, hrun, hin⟩ := h.run
    have hr := hrun.otherAlloc he
    rw [if_neg h0] at hr
    refine ⟨_, hr, fun b hb => ?_⟩
    rcases Finset.mem_insert.mp hb with rfl | hb'
    · rw [hself]
      exact Finset.mem_insert_self _ _
    · rw [hframe b hb']
      exact Finset.mem_insert_of_mem (hin b hb')
  · rcases Finset.mem_insert.mp hb with rfl | hb'
    · rw [hself]
      exact hf
    · rw [hframe b hb']
      exact h.mem_free b hb'
  · rw [hiff, h.free]
    constructor
    · rintro ⟨⟨hg, hne⟩, hgf⟩
      refine ⟨hg, fun b hb => ?_⟩
      rcases Finset.mem_insert.mp hb with rfl | hb'
      · rw [hself]
        exact hgf.symm
      · rw [hframe b hb']
        exact hne b hb'
    · rintro ⟨hg, hne⟩
      refine ⟨⟨hg, fun b hb => ?_⟩, fun e => hne a (Finset.mem_insert_self _ _) (by rw [hself, e])⟩
      rw [← hframe b hb]
      exact hne b (Finset.mem_insert_of_mem hb)
  · dsimp only
    rw [hmem g]
    · exact h.kept g hg
    · rintro rfl
      exact E.disjoint g hg hf

/-- A frame goes back. -/
theorem drop (h : Rep freeAddr entriesAddr entries E m x) (hw : WindowOk freeAddr entriesAddr entries)
    (ha : a ∈ x.places) (hflag : x.flag a = none)
    (hchild : ∀ b ∈ x.places, ∀ i, a.HasEntries → b ≠ a.entry i) {freed : List (State × Nat)} :
    Rep freeAddr entriesAddr entries E ⟨{ m.state with slab := { m.state.slab with
      pmm := Pmm.pmmFreePages m.state.slab.pmm (x.frame a) 0 } }, m.fails, freed⟩ (x.drop a) := by
  obtain ⟨frames, hrun, hin⟩ := h.run
  refine ⟨h.ok.drop hflag hchild, fun b hb => ?_, h.proc, ⟨_, hrun.otherFree (hin a ha), fun b hb => ?_⟩,
    fun b hb => h.mem_free b (Finset.mem_of_mem_erase hb), fun g => ?_, h.kept, h.others,
    ⟨h.rest.pgDir, h.rest.procCache, h.rest.pidMap, h.rest.pidGen, h.rest.sched⟩⟩
  · exact (h.fits b (Finset.mem_of_mem_erase hb)).congr rfl (fun i _ => ⟨rfl, fun _ => rfl⟩) rfl
  · obtain ⟨hne, hb⟩ := Finset.mem_erase.mp hb
    refine Finset.mem_erase.mpr ⟨fun e => hne ?_, hin b hb⟩
    exact h.ok.inj b hb a ha (Prod.mk.inj e).1
  · rw [hrun.free_page hw.toBootOk (hin a ha), h.free]
    constructor
    · rintro (⟨hg, hne⟩ | rfl)
      · exact ⟨hg, fun b hb => hne b (Finset.mem_of_mem_erase hb)⟩
      · refine ⟨h.mem_free a ha, fun b hb e => ?_⟩
        obtain ⟨hne, hb⟩ := Finset.mem_erase.mp hb
        exact hne (h.ok.inj b hb a ha e)
    · rintro ⟨hg, hne⟩
      by_cases e : g = x.frame a
      · exact .inr e
      · refine .inl ⟨hg, fun b hb => ?_⟩
        by_cases eb : b = a
        · rw [eb]
          exact Ne.symm e
        · exact hne b (Finset.mem_erase.mpr ⟨eb, hb⟩)

theorem moveHand (h : Rep freeAddr entriesAddr entries E m x) {pde pte : Nat} (hx : .hand ∈ x.places)
    (hp : .page pde pte ∉ x.places) (ht : .table pde ∈ x.places) (hlt : pte < numPte) :
    Rep freeAddr entriesAddr entries E m ((x.drop .hand).take (.page pde pte) (x.frame .hand) (x.words .hand)) := by
  -- each place of the new space has the frame that it or the hand had
  have hplace : ∀ b ∈ ((x.drop .hand).take (.page pde pte) (x.frame .hand) (x.words .hand)).places,
      (b = .page pde pte ∧ Function.update x.frame (.page pde pte) (x.frame .hand) b = x.frame .hand) ∨
      (b ≠ .page pde pte ∧ b ∈ x.places ∧ Function.update x.frame (.page pde pte) (x.frame .hand) b = x.frame b) := by
    intro b hb
    rcases Finset.mem_insert.mp hb with rfl | hb
    · exact .inl ⟨rfl, Function.update_self _ _ _⟩
    · have hb := Finset.mem_of_mem_erase hb
      have hne : b ≠ .page pde pte := by
        rintro rfl
        exact hp hb
      exact .inr ⟨hne, hb, Function.update_of_ne hne _ _⟩
  refine ⟨h.ok.moveHand hx hp ht hlt, fun b hb => ?_, h.proc, ?_, fun b hb => ?_, fun g => ?_, h.kept, h.others, h.rest⟩
  · rcases hplace b hb with ⟨rfl, e⟩ | ⟨hne, hb, e⟩
    · rw [Space.take_frame, Space.drop_frame, e, Space.fits_words (by simp [Place.HasEntries])]
      have hfit := h.fits _ hx
      rw [Space.fits_words (by simp [Place.HasEntries])] at hfit
      simpa using hfit
    · rw [Space.take_frame, Space.drop_frame, e]
      refine (h.fits b hb).congr rfl (fun i _ => ⟨rfl, fun hk => ?_⟩) (Function.update_of_ne hne _ _)
      refine Function.update_of_ne (fun e => hk ?_) _ _
      rw [e]
      exact h.ok.flag_none hp
  · obtain ⟨frames, hrun, hin⟩ := h.run
    refine ⟨frames, hrun, fun b hb => ?_⟩
    rcases hplace b hb with ⟨-, e⟩ | ⟨-, hb, e⟩
    · rw [Space.take_frame, Space.drop_frame, e]
      exact hin _ hx
    · rw [Space.take_frame, Space.drop_frame, e]
      exact hin b hb
  · rcases hplace b hb with ⟨-, e⟩ | ⟨-, hb, e⟩
    · rw [Space.take_frame, Space.drop_frame, e]
      exact h.mem_free _ hx
    · rw [Space.take_frame, Space.drop_frame, e]
      exact h.mem_free b hb
  · rw [h.free]
    refine and_congr_right fun _ => ⟨fun hne b hb => ?_, fun hne b hb e => ?_⟩
    · rcases hplace b hb with ⟨-, e⟩ | ⟨-, hb, e⟩
      · rw [Space.take_frame, Space.drop_frame, e]
        exact hne _ hx
      · rw [Space.take_frame, Space.drop_frame, e]
        exact hne b hb
    · by_cases eb : b = .hand
      · subst eb
        refine hne (.page pde pte) (Finset.mem_insert_self _ _) ?_
        simpa using e
      · have hbp : b ≠ .page pde pte := by
          rintro rfl
          exact hp hb
        refine hne b (Finset.mem_insert_of_mem (Finset.mem_erase.mpr ⟨eb, hb⟩)) ?_
        rw [Space.take_frame, Space.drop_frame, Function.update_of_ne hbp]
        exact e

end Rep
end
end Airix.Proc
