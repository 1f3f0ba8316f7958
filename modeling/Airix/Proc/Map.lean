import Airix.Proc.Isolation
import Airix.Proc.Specs

/-!
# Mapping a page (`vmm_map`)

`walk` is the two-level walk of the words in memory. A page directory has its tables in frames of their own, so
an entry that is written changes the walk of one page, and an empty table that is added changes none.

The kernel has no pointer to the frame at 1 GiB: `KERNEL_BASE` above it, the address wraps to `NULL`. When the page
allocator hands out this frame for a table, `vmm_alloc_page_table` takes it for a failed allocation.
-/

namespace Airix.Proc

/-- The frame that `cast_p2v_or_null` takes for no frame. -/
def nullFrame : Nat := 0x40000

/-- The walk from the directory in frame `d`: the page, and the flags of its table entry. -/
def walk (mem : Nat → Nat → Nat) (d vaddr : Nat) : Option (Nat × Nat) :=
  let pde := mem d (vmmPdeIndex vaddr)
  let pte := mem (pde / pageSize) (vmmPteIndex vaddr)
  if pde % 2 = vmmPresent ∧ pte % 2 = vmmPresent then some (entryAddress pte, entryFlag pte) else none

/-- A frame in use, which the kernel has a pointer to. -/
structure Used (free : Nat → Prop) (f : Nat) : Prop where
  lt : f < 0xFFFFF
  ne : f ≠ nullFrame
  taken : ¬ free f

/-- Frame `d` holds a page directory whose present tables are distinct frames. -/
structure Directory (mem : Nat → Nat → Nat) (free : Nat → Prop) (d : Nat) : Prop where
  used : Used free d
  present : ∀ i < numPde, mem d i % 2 = vmmPresent ↔ frameAt (mem d i) ≠ none
  table : ∀ i < numPde, ∀ t, frameAt (mem d i) = some t → Used free t ∧ t ≠ d
  inj : ∀ i < numPde, ∀ j < numPde, ∀ t, frameAt (mem d i) = some t → frameAt (mem d j) = some t → i = j

/-! ### Words of the memory -/

/-- Entry `i` of frame `f` is written. -/
def setEntry (mem : Nat → Nat → Nat) (f i x : Nat) : Nat → Nat → Nat :=
  Function.update mem f (Function.update (mem f) i x)

section
variable {mem : Nat → Nat → Nat} {free : Nat → Prop} {d t i x v vaddr : Nat}

theorem vmmPdeIndex_lt (v : Nat) : vmmPdeIndex v < numPde := Nat.mod_lt _ (by decide)

/-- The two indices make up the number of the page. -/
theorem page_iff (hv : v < 2 ^ 32) (hvaddr : vaddr < 2 ^ 32) :
    v / pageSize = vaddr / pageSize ↔ vmmPdeIndex v = vmmPdeIndex vaddr ∧ vmmPteIndex v = vmmPteIndex vaddr := by
  unfold vmmPdeIndex vmmPteIndex pageSize
  omega

@[simp] theorem setEntry_self : setEntry mem t i x t i = x := by
  simp [setEntry]

theorem setEntry_entry {j : Nat} (h : j ≠ i) : setEntry mem t i x t j = mem t j := by
  simp [setEntry, h]

theorem setEntry_frame {f : Nat} (h : f ≠ t) : setEntry mem t i x f = mem f := by
  simp [setEntry, h]

theorem frameAt_div {w : Nat} (h : frameAt w = some t) : w / pageSize = t := by
  have := (frameAt_eq_some.mp h).2
  unfold entryAddress pageSize at this
  unfold pageSize
  omega

theorem walk_of_table (ht : frameAt (mem d (vmmPdeIndex v)) = some t) (hp : mem d (vmmPdeIndex v) % 2 = vmmPresent) :
    walk mem d v = if mem t (vmmPteIndex v) % 2 = vmmPresent then
      some (entryAddress (mem t (vmmPteIndex v)), entryFlag (mem t (vmmPteIndex v))) else none := by
  simp [walk, frameAt_div ht, hp]

theorem walk_congr (hd : vmmPdeIndex v = vmmPdeIndex vaddr) (hp : vmmPteIndex v = vmmPteIndex vaddr) :
    walk mem d v = walk mem d vaddr := by
  rw [walk, walk, hd, hp]

theorem walk_of_not_present (hp : mem d (vmmPdeIndex v) % 2 ≠ vmmPresent) : walk mem d v = none := by
  simp [walk, hp]

namespace Directory

theorem setEntry (h : Directory mem free d) (ht : t ≠ d) : Directory (setEntry mem t i x) free d := by
  have he : Proc.setEntry mem t i x d = mem d := setEntry_frame ht.symm
  exact ⟨h.used, by rw [he]; exact h.present, by rw [he]; exact h.table, by rw [he]; exact h.inj⟩

/-- The walk of a page does not go through the table of another entry. -/
theorem walk_ne (h : Directory mem free d) (hvaddr : frameAt (mem d (vmmPdeIndex vaddr)) = some t)
    (hne : vmmPdeIndex v ≠ vmmPdeIndex vaddr ∨ vmmPteIndex v ≠ vmmPteIndex vaddr) :
    walk (Proc.setEntry mem t (vmmPteIndex vaddr) x) d v = walk mem d v := by
  have hpde : Proc.setEntry mem t (vmmPteIndex vaddr) x d = mem d :=
    setEntry_frame (h.table _ (vmmPdeIndex_lt _) t hvaddr).2.symm
  by_cases hp : mem d (vmmPdeIndex v) % 2 = vmmPresent
  · obtain ⟨t', ht'⟩ := Option.ne_none_iff_exists'.mp ((h.present _ (vmmPdeIndex_lt _)).mp hp)
    rw [walk_of_table (t := t') (by rw [hpde]; exact ht') (by rw [hpde]; exact hp), walk_of_table ht' hp]
    have he : Proc.setEntry mem t (vmmPteIndex vaddr) x t' (vmmPteIndex v) = mem t' (vmmPteIndex v) := by
      by_cases e : t' = t
      · subst e
        have hi := h.inj _ (vmmPdeIndex_lt _) _ (vmmPdeIndex_lt _) _ ht' hvaddr
        exact setEntry_entry (hne.resolve_left (not_not.mpr hi))
      · rw [setEntry_frame e]
    rw [he]
  · rw [walk_of_not_present (by rw [hpde]; exact hp), walk_of_not_present hp]

theorem walk_self (h : Directory mem free d) (hvaddr : frameAt (mem d (vmmPdeIndex vaddr)) = some t) :
    walk (Proc.setEntry mem t (vmmPteIndex vaddr) x) d vaddr =
      if x % 2 = vmmPresent then some (entryAddress x, entryFlag x) else none := by
  have hpde : Proc.setEntry mem t (vmmPteIndex vaddr) x d = mem d :=
    setEntry_frame (h.table _ (vmmPdeIndex_lt _) t hvaddr).2.symm
  have hp : mem d (vmmPdeIndex vaddr) % 2 = vmmPresent :=
    (h.present _ (vmmPdeIndex_lt _)).mpr (by rw [hvaddr]; exact Option.some_ne_none t)
  rw [walk_of_table (t := t) (by rw [hpde]; exact hvaddr) (by rw [hpde]; exact hp), setEntry_self]

/-- Writing the entry of a page changes the walk of this page only. -/
theorem walk_setEntry (h : Directory mem free d) (ht : frameAt (mem d (vmmPdeIndex vaddr)) = some t)
    (hvaddr : vaddr < 2 ^ 32) (hv : v < 2 ^ 32) :
    walk (Proc.setEntry mem t (vmmPteIndex vaddr) x) d v =
      if v / pageSize = vaddr / pageSize then
        if x % 2 = vmmPresent then some (entryAddress x, entryFlag x) else none
      else walk mem d v := by
  by_cases he : v / pageSize = vaddr / pageSize
  · obtain ⟨hd, hp⟩ := (page_iff hv hvaddr).mp he
    rw [if_pos he, walk_congr hd hp, h.walk_self ht]
  · rw [if_neg he, h.walk_ne ht (not_and_or.mp (mt (page_iff hv hvaddr).mpr he))]

/-! ### A new table -/

/-- An empty table in a free frame gets into the directory. -/
theorem addTable (h : Directory mem free d) (hi : i < numPde) (hnone : frameAt (mem d i) = none) {q flag : Nat}
    (hfree : free q) (hlt : q < 0xFFFFF) (hne : q ≠ nullFrame) (h0 : q ≠ 0) (hflag : flag < pageSize) :
    Directory (Proc.setEntry (Function.update mem q fun _ => vmmWritable) d i (q * pageSize ||| flag ||| vmmPresent))
        (fun f => free f ∧ f ≠ q) d ∧
      frameAt (Proc.setEntry (Function.update mem q fun _ => vmmWritable) d i
        (q * pageSize ||| flag ||| vmmPresent) d i) = some q := by
  have hqd : q ≠ d := fun e => h.used.taken (e ▸ hfree)
  have hd : ∀ j, j ≠ i → Proc.setEntry (Function.update mem q fun _ => vmmWritable) d i
      (q * pageSize ||| flag ||| vmmPresent) d j = mem d j := fun j hj => by
    rw [setEntry_entry hj, Function.update_of_ne hqd.symm]
  have hnew : frameAt (q * pageSize ||| flag ||| vmmPresent) = some q := frameAt_entry h0 hflag
  have hold : ∀ f, Used free f → Used (fun f => free f ∧ f ≠ q) f := fun f hf =>
    ⟨hf.lt, hf.ne, fun hc => hf.taken hc.1⟩
  have hnq : ∀ j < numPde, frameAt (mem d j) ≠ some q := fun j hj hq => (h.table j hj q hq).1.taken hfree
  refine ⟨⟨hold d h.used, fun j hj => ?_, fun j hj t ht => ?_, fun j hj k hk t ht ht' => ?_⟩, ?_⟩
  · by_cases e : j = i
    · subst e
      rw [setEntry_self, hnew]
      obtain ⟨heq, -, hodd⟩ := entry_or q hflag
      rw [heq]
      simp only [ne_eq, reduceCtorEq, not_false_eq_true, iff_true]
      unfold pageSize vmmPresent
      omega
    · rw [hd j e]
      exact h.present j hj
  · by_cases e : j = i
    · subst e
      rw [setEntry_self, hnew] at ht
      obtain rfl := Option.some.inj ht
      exact ⟨⟨hlt, hne, fun hc => hc.2 rfl⟩, hqd⟩
    · rw [hd j e] at ht
      exact ⟨hold t (h.table j hj t ht).1, (h.table j hj t ht).2⟩
  · by_cases e : j = i <;> by_cases e' : k = i
    · exact e.trans e'.symm
    · subst e
      rw [setEntry_self, hnew] at ht
      rw [hd k e', ← ht] at ht'
      exact absurd ht' (hnq k hk)
    · subst e'
      rw [setEntry_self, hnew] at ht'
      rw [hd j e, ← ht'] at ht
      exact absurd ht (hnq j hj)
    · rw [hd j e] at ht
      rw [hd k e'] at ht'
      exact h.inj j hj k hk t ht ht'
  · rw [setEntry_self, hnew]

theorem walk_addTable (h : Directory mem free d) (hi : i < numPde) (hnone : frameAt (mem d i) = none) {q flag : Nat}
    (hfree : free q) (hlt : q < 0xFFFFF) (hne : q ≠ nullFrame) (h0 : q ≠ 0) (hflag : flag < pageSize) :
    walk (Proc.setEntry (Function.update mem q fun _ => vmmWritable) d i (q * pageSize ||| flag ||| vmmPresent)) d v =
      walk mem d v := by
  have hqd : q ≠ d := fun e => h.used.taken (e ▸ hfree)
  obtain ⟨hdir, htab⟩ := h.addTable hi hnone hfree hlt hne h0 hflag
  by_cases e : vmmPdeIndex v = i
  · subst e
    have hp : mem d (vmmPdeIndex v) % 2 ≠ vmmPresent := fun hp => (h.present _ hi).mp hp hnone
    rw [walk_of_not_present hp,
      walk_of_table htab ((hdir.present _ hi).mpr (by rw [htab]; exact Option.some_ne_none q)), setEntry_frame hqd,
      Function.update_self, if_neg (by decide)]
  · have hd : Proc.setEntry (Function.update mem q fun _ => vmmWritable) d i
        (q * pageSize ||| flag ||| vmmPresent) d (vmmPdeIndex v) = mem d (vmmPdeIndex v) := by
      rw [setEntry_entry e, Function.update_of_ne hqd.symm]
    by_cases hp : mem d (vmmPdeIndex v) % 2 = vmmPresent
    · obtain ⟨t, ht⟩ := Option.ne_none_iff_exists'.mp ((h.present _ (vmmPdeIndex_lt _)).mp hp)
      obtain ⟨hused, htd⟩ := h.table _ (vmmPdeIndex_lt _) t ht
      have htq : t ≠ q := fun e => hused.taken (e ▸ hfree)
      rw [walk_of_table (t := t) (by rw [hd]; exact ht) (by rw [hd]; exact hp), walk_of_table ht hp, setEntry_frame htd,
        Function.update_of_ne htq]
    · rw [walk_of_not_present (by rw [hd]; exact hp), walk_of_not_present hp]

end Directory
end

/-! ### `vmm_map` and `vmm_unmap_page_index` -/

/-- Unmapping the page of `vaddr` with `vmm_unmap_page_index`. -/
def unmapPage (pageDir vaddr flag : Nat) : M Nat := do
  let pageTab ← getPageTable pageDir vaddr
  vmmUnmapPageIndex pageTab (vmmPteIndex vaddr) flag

/-- What the kernel calls frame `f`. -/
def framePtr (f : Nat) : Nat := castPhysicalToVirtual (f * pageSize)

/-- The page allocator hands out the frame at 1 GiB next. -/
def NullNext (s : State) : Prop := ∃ pmm, Pmm.pmmAllocPages s.slab.pmm 0 = some (nullFrame, pmm)

/-- The page of `vaddr` was mapped with `r` new frames, and no other page was touched. -/
structure Mapped (s s' : State) (d vaddr paddr flag : Nat) (r : Int) : Prop where
  dir : Directory s'.mem (Pmm.FreePage s'.slab.pmm) d
  frames : (r = 0 ∧ s'.slab = s.slab) ∨ r = 1 ∧ ∃ q, Pmm.FreePage s.slab.pmm q ∧
    ∀ f, Pmm.FreePage s'.slab.pmm f ↔ Pmm.FreePage s.slab.pmm f ∧ f ≠ q
  walk : Proc.walk s'.mem d vaddr = some (paddr, flag ||| vmmPresent)
  other : ∀ v < 2 ^ 32, v / pageSize ≠ vaddr / pageSize → Proc.walk s'.mem d v = Proc.walk s.mem d v
  unmap : ∀ flag' l, ∃ s'', (unmapPage (framePtr d) vaddr flag').run ⟨s', [], l⟩ = .ok (paddr, ⟨s'', [], l⟩) ∧
    s''.slab = s'.slab ∧ ∀ v < 2 ^ 32, Proc.walk s''.mem d v = Proc.walk s.mem d v

/-- What a call of `vmm_map` comes to: nothing when no frame is free, or the mapping. -/
def MapsPage (s : State) (d vaddr paddr flag : Nat) : Prop :=
  ∀ l, ∃ r s', (vmmMap (framePtr d) vaddr paddr flag).run ⟨s, [], l⟩ = .ok (r, ⟨s', [], l⟩) ∧
    ((r = -1 ∧ s' = s ∧ ∀ f, ¬ Pmm.FreePage s.slab.pmm f) ∨ Mapped s s' d vaddr paddr flag r)

section
variable {s : State} {free : Nat → Prop} {d t vaddr paddr flag : Nat} {l : List (State × Nat)}

theorem frame_framePtr {f : Nat} (hf : f < 0xFFFFF) : Slab.frame (framePtr f) = f := frame_cast hf

theorem castP2vOrNull_eq {f : Nat} (h0 : f ≠ 0) :
    castP2vOrNull (f * pageSize) = if f = nullFrame then 0 else framePtr f := by
  unfold castP2vOrNull framePtr castPhysicalToVirtual nullFrame u32 kernelBase pageSize
  split_ifs <;> omega

theorem framePtr_ne_zero {f : Nat} (hf : f < 0xFFFFF) (hne : f ≠ nullFrame) : framePtr f ≠ 0 := by
  unfold framePtr castPhysicalToVirtual nullFrame u32 kernelBase pageSize at *
  omega

theorem load_run {m : Machine} {f i : Nat} (hf : f < 0xFFFFF) :
    (load (framePtr f) i).run m = .ok (m.state.mem f i, m) :=
  load_ok.mpr ⟨by rw [frame_framePtr hf], rfl⟩

theorem store_run {m : Machine} {f i w : Nat} (hf : f < 0xFFFFF) :
    (store (framePtr f) i w).run m = .ok ((), { m with state := { m.state with mem := setEntry m.state.mem f i w } }) := by
  refine update_ok.mpr ?_
  rw [frame_framePtr hf]
  rfl

theorem getPageTable_run (hd : d < 0xFFFFF) :
    (getPageTable (framePtr d) vaddr).run ⟨s, [], l⟩ =
      .ok (castP2vOrNull (entryAddress (s.mem d (vmmPdeIndex vaddr))), ⟨s, [], l⟩) := by
  unfold getPageTable
  rw [Exec.bind_run (load_run hd)]
  rfl

theorem Directory.getPageTable_some (h : Directory s.mem free d) (ht : frameAt (s.mem d (vmmPdeIndex vaddr)) = some t) :
    (getPageTable (framePtr d) vaddr).run ⟨s, [], l⟩ = .ok (framePtr t, ⟨s, [], l⟩) ∧ framePtr t ≠ 0 := by
  obtain ⟨hused, -⟩ := h.table _ (vmmPdeIndex_lt _) t ht
  obtain ⟨h0, he⟩ := frameAt_eq_some.mp ht
  rw [getPageTable_run h.used.lt, he, castP2vOrNull_eq h0, if_neg hused.ne]
  exact ⟨rfl, framePtr_ne_zero hused.lt hused.ne⟩

theorem Directory.getPageTable_none (h : Directory s.mem free d) (ht : frameAt (s.mem d (vmmPdeIndex vaddr)) = none) :
    (getPageTable (framePtr d) vaddr).run ⟨s, [], l⟩ = .ok (0, ⟨s, [], l⟩) := by
  rw [getPageTable_run h.used.lt, frameAt_eq_none.mp ht]
  rfl

/-- Unmapping a page that a table maps. -/
theorem Directory.unmap (h : Directory s.mem free d) (ht : frameAt (s.mem d (vmmPdeIndex vaddr)) = some t)
    {w : Nat} (hw : s.mem t (vmmPteIndex vaddr) = w) (flag' : Nat) :
    (unmapPage (framePtr d) vaddr flag').run ⟨s, [], l⟩ = .ok (entryAddress w,
      ⟨{ s with mem := Proc.setEntry s.mem t (vmmPteIndex vaddr) (unmappedEntry flag') }, [], l⟩) := by
  subst hw
  have hlt := (h.table _ (vmmPdeIndex_lt _) t ht).1.lt
  unfold unmapPage vmmUnmapPageIndex
  rw [Exec.bind_run (h.getPageTable_some ht).1, Exec.bind_run (load_run hlt), Exec.bind_run (store_run hlt)]
  rfl

/-- The end of `vmm_map`, in a table that does not map the page. -/
theorem Directory.mapIn (h : Directory s.mem free d) (ht : frameAt (s.mem d (vmmPdeIndex vaddr)) = some t)
    (hnone : Proc.walk s.mem d vaddr = none) (page : Int) :
    (vmmMapIn (framePtr t) vaddr paddr flag page).run ⟨s, [], l⟩ = .ok (page,
      ⟨{ s with mem := Proc.setEntry s.mem t (vmmPteIndex vaddr) (paddr ||| flag ||| vmmPresent) }, [], l⟩) := by
  have hlt := (h.table _ (vmmPdeIndex_lt _) t ht).1.lt
  have hp := (h.present _ (vmmPdeIndex_lt vaddr)).mpr (by rw [ht]; exact Option.some_ne_none t)
  have hentry : s.mem t (vmmPteIndex vaddr) % 2 ≠ vmmPresent := fun he => by
    rw [walk_of_table ht hp, if_pos he] at hnone
    cases hnone
  unfold vmmMapIn vmmMapPage vmmMapPageIndex
  rw [Exec.bind_run (load_run hlt), if_neg hentry, Exec.bind_run (store_run hlt)]
  rfl

theorem entry_mapped {p : Nat} (hflag : flag < pageSize) :
    (p * pageSize ||| flag ||| vmmPresent) % 2 = vmmPresent ∧
      entryAddress (p * pageSize ||| flag ||| vmmPresent) = p * pageSize ∧
      entryFlag (p * pageSize ||| flag ||| vmmPresent) = flag ||| vmmPresent := by
  obtain ⟨he, hlt, hodd⟩ := entry_or p hflag
  rw [he]
  unfold entryAddress entryFlag pageSize vmmPresent at *
  omega

/-- The entry of the page is written, in a table that may be new. -/
theorem Directory.mapped {s₁ : State} (h : Directory s₁.mem (Pmm.FreePage s₁.slab.pmm) d)
    (ht : frameAt (s₁.mem d (vmmPdeIndex vaddr)) = some t) (hwalk : ∀ v, Proc.walk s₁.mem d v = Proc.walk s.mem d v)
    (hnone : Proc.walk s.mem d vaddr = none) (hvaddr : vaddr < 2 ^ 32) {p : Nat} (hflag : flag < pageSize) {r : Int}
    (hr : (r = 0 ∧ s₁.slab = s.slab) ∨ r = 1 ∧ ∃ q, Pmm.FreePage s.slab.pmm q ∧
      ∀ f, Pmm.FreePage s₁.slab.pmm f ↔ Pmm.FreePage s.slab.pmm f ∧ f ≠ q) :
    Mapped s { s₁ with mem := Proc.setEntry s₁.mem t (vmmPteIndex vaddr) (p * pageSize ||| flag ||| vmmPresent) }
      d vaddr (p * pageSize) flag r := by
  obtain ⟨hodd, haddr, hflags⟩ := entry_mapped (p := p) hflag
  generalize p * pageSize ||| flag ||| vmmPresent = x at hodd haddr hflags
  have htd := (h.table _ (vmmPdeIndex_lt _) t ht).2
  refine ⟨h.setEntry htd, hr, ?_, fun v hv hne => ?_, fun flag' l => ?_⟩
  · rw [h.walk_self ht, if_pos hodd, haddr, hflags]
  · rw [h.walk_setEntry ht hvaddr hv, if_neg hne, hwalk]
  · have h' : Directory (Proc.setEntry s₁.mem t (vmmPteIndex vaddr) x) _ d := h.setEntry htd
    have ht' : frameAt (Proc.setEntry s₁.mem t (vmmPteIndex vaddr) x d (vmmPdeIndex vaddr)) = some t := by
      rw [setEntry_frame htd.symm, ht]
    have hrun := Directory.unmap (s := { s₁ with mem := Proc.setEntry s₁.mem t (vmmPteIndex vaddr) x }) (l := l) h' ht'
      setEntry_self flag'
    rw [haddr] at hrun
    refine ⟨_, hrun, rfl, fun v hv => ?_⟩
    have hunmapped : ¬ unmappedEntry flag' % 2 = vmmPresent := by
      unfold unmappedEntry vmmPresent
      omega
    have hback := h'.walk_setEntry (x := unmappedEntry flag') ht' hvaddr hv
    rw [if_neg hunmapped, h.walk_setEntry ht hvaddr hv] at hback
    refine hback.trans ?_
    split_ifs with he
    · obtain ⟨hd, hp⟩ := (page_iff hv hvaddr).mp he
      rw [walk_congr hd hp, hnone]
    · exact hwalk v

end

/-! ### Allocation of a table -/

section
variable {freeAddr entriesAddr : Nat} {entries : Array Pmm.MmapEntry} {s : State} {live : Nat → Option Slab.Live}
  {others : Finset (Nat × Nat)} {d q vaddr paddr flag : Nat} {pmm : Pmm.State} {l : List (State × Nat)}

/-- The state with another state of the page allocator. -/
def State.setPmm (s : State) (pmm : Pmm.State) : State := { s with slab := { s.slab with pmm := pmm } }

theorem pmmAllocPageAddress_eq (he : Pmm.pmmAllocPages s.slab.pmm 0 = some (q, pmm)) :
    pmmAllocPageAddress.run ⟨s, [], l⟩ = .ok (pageAddress q, ⟨s.setPmm pmm, [], l⟩) := by
  unfold pmmAllocPageAddress
  refine Exec.bind_ok.mpr ⟨⟨s, [], l⟩, ⟨s, [], l⟩, Exec.get_ok.mpr ⟨rfl, rfl⟩, ?_⟩
  dsimp only
  rw [if_neg (show ¬ ([] : List Bool).headD false = true by decide), he]
  rfl

/-- The allocator gives nothing that the kernel has a pointer to. -/
theorem vmmAllocPageTable_none (he : Pmm.pmmAllocPages s.slab.pmm 0 = some (q, pmm)) (hq : q = 0 ∨ q = nullFrame) :
    vmmAllocPageTable.run ⟨s, [], l⟩ = .ok (0, ⟨s.setPmm pmm, [], l⟩) := by
  have h0 : castP2vOrNull (pageAddress q) = 0 := by rcases hq with rfl | rfl <;> decide
  unfold vmmAllocPageTable allocEntries
  rw [Exec.bind_run (pmmAllocPageAddress_eq he)]
  dsimp only
  rw [if_pos h0]
  rfl

theorem vmmAllocPageTable_some (he : Pmm.pmmAllocPages s.slab.pmm 0 = some (q, pmm)) (hlt : q < 0xFFFFF) (h0 : q ≠ 0)
    (hne : q ≠ nullFrame) :
    vmmAllocPageTable.run ⟨s, [], l⟩ = .ok (framePtr q,
      ⟨{ s.setPmm pmm with mem := Function.update s.mem q fun _ => vmmWritable }, [], l⟩) := by
  have haddr : pageAddress q = q * pageSize := u32_of_lt (by unfold pageSize; omega)
  have hcast : castP2vOrNull (pageAddress q) = framePtr q := by rw [haddr, castP2vOrNull_eq h0, if_neg hne]
  unfold vmmAllocPageTable allocEntries
  rw [Exec.bind_run (pmmAllocPageAddress_eq he)]
  dsimp only
  rw [hcast, if_neg (framePtr_ne_zero hlt hne)]
  unfold storePage
  refine Exec.bind_ok.mpr ⟨(), _, update_ok.mpr rfl, ?_⟩
  rw [frame_framePtr hlt]
  rfl

/-- A new table for the page, and then the page in it. -/
theorem Directory.mapNew (h : Directory s.mem (Pmm.FreePage s.slab.pmm) d)
    (ht : frameAt (s.mem d (vmmPdeIndex vaddr)) = none) (hvaddr : vaddr < 2 ^ 32)
    (hnone : Proc.walk s.mem d vaddr = none) {p : Nat} (hflag : flag < pageSize)
    (he : Pmm.pmmAllocPages s.slab.pmm 0 = some (q, pmm)) (hlt : q < 0xFFFFF) (h0 : q ≠ 0) (hne : q ≠ nullFrame)
    (hfree : Pmm.FreePage s.slab.pmm q) (hpmm : ∀ f, Pmm.FreePage pmm f ↔ Pmm.FreePage s.slab.pmm f ∧ f ≠ q) :
    ∃ s', (vmmMap (framePtr d) vaddr (p * pageSize) flag).run ⟨s, [], l⟩ = .ok (1, ⟨s', [], l⟩) ∧
      Mapped s s' d vaddr (p * pageSize) flag 1 := by
  have hi := vmmPdeIndex_lt vaddr
  have hfun : (fun f => Pmm.FreePage s.slab.pmm f ∧ f ≠ q) = Pmm.FreePage pmm := funext fun f => (propext (hpmm f)).symm
  obtain ⟨hdir, htab⟩ := h.addTable hi ht hfree hlt hne h0 hflag
  have hwalk := fun v => h.walk_addTable (v := v) hi ht hfree hlt hne h0 hflag
  rw [hfun] at hdir
  have hphys : castVirtualToPhysical (framePtr q) = q * pageSize := virtualToPhysical_cast hlt
  have hmem : Proc.setEntry (Function.update s.mem q fun _ => vmmWritable) d (vmmPdeIndex vaddr)
      (castVirtualToPhysical (framePtr q) ||| flag ||| vmmPresent) =
      Proc.setEntry (Function.update s.mem q fun _ => vmmWritable) d (vmmPdeIndex vaddr)
        (q * pageSize ||| flag ||| vmmPresent) := by
    rw [hphys]
  obtain ⟨s₁, hs₁⟩ : ∃ s₁, s₁ = { s.setPmm pmm with
      mem := Proc.setEntry (Function.update s.mem q fun _ => vmmWritable) d (vmmPdeIndex vaddr)
        (q * pageSize ||| flag ||| vmmPresent) } := ⟨_, rfl⟩
  have hdir₁ : Directory s₁.mem (Pmm.FreePage s₁.slab.pmm) d := by rw [hs₁]; exact hdir
  have htab₁ : frameAt (s₁.mem d (vmmPdeIndex vaddr)) = some q := by rw [hs₁]; exact htab
  have hwalk₁ : ∀ v, Proc.walk s₁.mem d v = Proc.walk s.mem d v := by rw [hs₁]; exact hwalk
  refine ⟨_, ?_, hdir₁.mapped htab₁ hwalk₁ hnone hvaddr hflag (.inr ⟨rfl, q, hfree, by rw [hs₁]; exact hpmm⟩)⟩
  unfold vmmMap
  rw [Exec.bind_run (h.getPageTable_none ht), if_pos rfl, Exec.bind_run (vmmAllocPageTable_some he hlt h0 hne),
    if_neg (framePtr_ne_zero hlt hne)]
  unfold vmmMapPageTable vmmMapPageTableIndex
  rw [Exec.bind_run (store_run h.used.lt), hmem]
  subst hs₁
  exact hdir₁.mapIn htab₁ ((hwalk₁ vaddr).trans hnone) 1

/-- What `vmm_map` does when it gets no table. -/
theorem Directory.mapFails (h : Directory s.mem (Pmm.FreePage s.slab.pmm) d)
    (ht : frameAt (s.mem d (vmmPdeIndex vaddr)) = none) (he : Pmm.pmmAllocPages s.slab.pmm 0 = some (q, pmm))
    (hq : q = 0 ∨ q = nullFrame) :
    (vmmMap (framePtr d) vaddr paddr flag).run ⟨s, [], l⟩ = .ok (-1, ⟨s.setPmm pmm, [], l⟩) := by
  unfold vmmMap
  rw [Exec.bind_run (h.getPageTable_none ht), if_pos rfl, Exec.bind_run (vmmAllocPageTable_none he hq), if_pos rfl]
  rfl

/-- The frame at 1 GiB is free, and lost. -/
theorem Directory.not_mapsPage (h : Directory s.mem (Pmm.FreePage s.slab.pmm) d)
    (ht : frameAt (s.mem d (vmmPdeIndex vaddr)) = none) (hnext : NullNext s)
    (hfree : Pmm.FreePage s.slab.pmm nullFrame) : ¬ MapsPage s d vaddr paddr flag := by
  obtain ⟨pmm, he⟩ := hnext
  intro hmaps
  obtain ⟨r, s', hr, hs'⟩ := hmaps []
  rw [h.mapFails ht he (.inr rfl)] at hr
  obtain ⟨rfl, rfl⟩ : -1 = r ∧ s.setPmm pmm = s' := by simpa using hr
  rcases hs' with ⟨-, -, hno⟩ | hm
  · exact hno nullFrame hfree
  · rcases hm.frames with ⟨hr, -⟩ | ⟨hr, -⟩ <;> cases hr

/-- `vmm_map` maps the page and no other, or it finds no free frame. It fails to do so exactly when it needs a table
and gets the frame at 1 GiB, which it loses. -/
theorem vmm_map_iff (hboot : Pmm.BootOk freeAddr entriesAddr entries)
    (hrun : Slab.Run freeAddr entriesAddr entries s.slab live others)
    (hd : Directory s.mem (Pmm.FreePage s.slab.pmm) d) (hvaddr : vaddr < 2 ^ 32) (hnone : walk s.mem d vaddr = none)
    (hpaddr : pageSize ∣ paddr) (hflag : flag < pageSize) :
    MapsPage s d vaddr paddr flag ↔ frameAt (s.mem d (vmmPdeIndex vaddr)) ≠ none ∨ ¬ NullNext s := by
  obtain ⟨p, rfl⟩ := hpaddr
  rw [Nat.mul_comm pageSize p]
  cases ht : frameAt (s.mem d (vmmPdeIndex vaddr)) with
  | some t =>
    refine iff_of_true (fun l => ?_) (.inl (Option.some_ne_none t))
    obtain ⟨htab, hne⟩ := hd.getPageTable_some (l := l) ht
    refine ⟨0, _, ?_, .inr (hd.mapped ht (fun _ => rfl) hnone hvaddr hflag (.inl ⟨rfl, rfl⟩))⟩
    unfold vmmMap
    rw [Exec.bind_run htab, if_neg hne]
    exact hd.mapIn ht hnone 0
  | none =>
    obtain ⟨q, pmm, he, -, hsome⟩ := hrun.alloc_page hboot
    have hnext : NullNext s ↔ q = nullFrame := by
      constructor
      · rintro ⟨pmm', he'⟩
        exact (congrArg Prod.fst (Option.some.inj (he.symm.trans he')))
      · rintro rfl
        exact ⟨pmm, he⟩
    rw [hnext]
    by_cases h0 : q = 0
    · subst h0
      obtain ⟨rfl, hno⟩ := hrun.no_page hboot he
      exact iff_of_true (fun l => ⟨-1, s, hd.mapFails ht he (.inl rfl), .inl ⟨rfl, rfl, hno⟩⟩) (.inr (by decide))
    obtain ⟨-, hfree, hpmm⟩ := hsome h0
    by_cases hq : q = nullFrame
    · exact iff_of_false (hd.not_mapsPage ht (hnext.mpr hq) (hq ▸ hfree)) (by simp [hq])
    · refine iff_of_true (fun l => ?_) (.inr hq)
      have hlt : q < 0xFFFFF := by
        have hr := hrun.otherAlloc he
        rw [if_neg h0] at hr
        exact (hr.others_spec hboot (Finset.mem_insert_self _ _)).2.1
      obtain ⟨s', hs', hm⟩ := hd.mapNew (l := l) ht hvaddr hnone hflag he hlt h0 hq hfree hpmm
      exact ⟨1, s', hs', .inr hm⟩

end

/-! ### Machines right after boot -/

/-- The words of every frame are those of an empty directory. -/
def bootState (entries : Array Pmm.MmapEntry) : State :=
  initState (Slab.initState (Pmm.pmmInitialize 0x120000 0xC0007E08 entries)) (fun _ _ => vmmWritable) 0 0

section
variable {entries : Array Pmm.MmapEntry}

theorem bootState_run : Slab.Run 0x120000 0xC0007E08 entries (bootState entries).slab (fun _ => none) ∅ := .init .init

/-- The first frame of the kernel as an empty directory. -/
theorem bootState_dir (hboot : Pmm.BootOk 0x120000 0xC0007E08 entries) :
    Directory (bootState entries).mem (Pmm.FreePage (bootState entries).slab.pmm) 0x100 where
  used := by
    have hlocked : Pmm.Locked 0x120000 0xC0007E08 entries 0x100 :=
      (hboot.locked_iff 0x100).mpr (.inr (.inr ⟨le_rfl, lt_of_lt_of_le (by decide) hboot.bounds.1⟩))
    exact ⟨by decide, by decide, (bootState_run.not_reserved hboot (.inl hlocked)).1⟩
  present i _ := by
    show vmmWritable % 2 = vmmPresent ↔ frameAt vmmWritable ≠ none
    decide
  table i _ t ht := nomatch (frameAt_writable.symm.trans ht : none = some t)
  inj i _ j _ t ht := nomatch (frameAt_writable.symm.trans ht : none = some t)

theorem bootState_free (hboot : Pmm.BootOk 0x120000 0xC0007E08 entries) (f : Nat) :
    Pmm.FreePage (bootState entries).slab.pmm f ↔ f ∉ Pmm.reservedPages 0x120000 0xC0007E08 entries := by
  refine (Pmm.Reachable.init.freePage_iff hboot f).trans ⟨And.left, fun h => ⟨h, by simp⟩⟩

end

theorem vmm_map_iff_boot : MapsPage (bootState Pmm.bootMap) 0x100 0x400000 0x5000 7 := by
  refine (vmm_map_iff Pmm.bootMap_ok bootState_run (bootState_dir Pmm.bootMap_ok) (by decide) rfl (by decide)
    (by decide)).mpr (.inr ?_)
  rintro ⟨pmm, he⟩
  obtain ⟨q, pmm', he', -, hsome⟩ := bootState_run.alloc_page Pmm.bootMap_ok
  obtain rfl : q = nullFrame := congrArg Prod.fst (Option.some.inj (he'.symm.trans he))
  refine (bootState_free Pmm.bootMap_ok _).mp (hsome (by decide)).2.1 (.inr ?_)
  simp [Pmm.bootMap, Pmm.MmapEntry.Holds, Pmm.MmapEntry.stop, pageSize, nullFrame]

/-- A machine whose kernel fills the memory below 1 GiB. -/
def gibMap : Array Pmm.MmapEntry := #[⟨0x100000, 0, 0x61000, 0, 1⟩, ⟨0x40000000, 0, 0x1000, 0, 1⟩]

theorem gibMap_ok : Pmm.BootOk 0x120000 0xC0007E08 gibMap where
  words := by decide
  nonempty := by decide
  disjoint := by decide
  usable_stop := by decide
  kernel := by decide
  map_le := by decide
  reach := by decide

theorem gibMap_free (f : Nat) : Pmm.FreePage (bootState gibMap).slab.pmm f ↔ f = nullFrame := by
  have hlocked := gibMap_ok.locked_iff f
  rw [show Pmm.bootPages 0xC0007E08 gibMap = 8 by decide, show Pmm.kernelPages 0x120000 gibMap = 0x161 by decide] at hlocked
  have h₁ : (⟨0x100000, 0, 0x61000, 0, 1⟩ : Pmm.MmapEntry).usable := by decide
  have h₂ : (⟨0x40000000, 0, 0x1000, 0, 1⟩ : Pmm.MmapEntry).usable := by decide
  have hholds : (∀ e ∈ gibMap, ¬ e.Holds f) ↔ ¬ (0x100 ≤ f ∧ f < 0x161) ∧ f ≠ 0x40000 := by
    simp only [gibMap, Pmm.MmapEntry.Holds, Pmm.MmapEntry.stop, pageSize, List.mem_toArray, List.forall_mem_cons,
      List.not_mem_nil, false_imp_iff, implies_true, and_true, h₁, h₂, true_and]
    omega
  rw [bootState_free gibMap_ok]
  show ¬ (Pmm.Locked _ _ _ f ∨ _) ↔ f = 0x40000
  rw [hlocked, hholds]
  omega

/-- The only free frame is lost. -/
theorem not_mapsPage_gib : ¬ MapsPage (bootState gibMap) 0x100 0x400000 0x5000 7 := by
  have hfree : Pmm.FreePage (bootState gibMap).slab.pmm nullFrame := (gibMap_free nullFrame).mpr rfl
  refine (bootState_dir gibMap_ok).not_mapsPage frameAt_writable ?_ hfree
  obtain ⟨q, pmm, he, -, hsome⟩ := bootState_run.alloc_page gibMap_ok
  by_cases h0 : q = 0
  · subst h0
    exact absurd hfree ((bootState_run.no_page gibMap_ok he).2 nullFrame)
  · obtain rfl := (gibMap_free q).mp (hsome h0).2.1
    exact ⟨pmm, he⟩

end Airix.Proc
