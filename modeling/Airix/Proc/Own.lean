import Airix.Proc.Refs

/-!
# Frame ownership, primitive by primitive

`OpInv` holds at every moment of an operation on process `cur`; `S` are the slots that count there.
-/

namespace Airix.Proc

/-! ### Runs of the primitives -/

section
variable {m m' : Machine} {u : Unit} {ptr i : Nat}

theorem getState_ok {s : State} : getState.run m = .ok (s, m') ↔ s = m.state ∧ m' = m := by
  unfold getState
  rw [Exec.bind_ok]
  constructor
  · rintro ⟨t, m₁, h₁, h₂⟩
    obtain ⟨rfl, rfl⟩ := Exec.get_ok.mp h₁
    obtain ⟨rfl, rfl⟩ := Exec.pure_ok.mp h₂
    exact ⟨rfl, rfl⟩
  · rintro ⟨rfl, rfl⟩
    exact ⟨m', m', Exec.get_ok.mpr ⟨rfl, rfl⟩, Exec.pure_ok.mpr ⟨rfl, rfl⟩⟩

theorem update_ok {f : State → State} : (update f).run m = .ok (u, m') ↔ m' = { m with state := f m.state } :=
  Exec.modify_ok

theorem load_ok {w : Nat} : (load ptr i).run m = .ok (w, m') ↔ w = m.state.mem (Slab.frame ptr) i ∧ m' = m := by
  unfold load
  rw [Exec.bind_ok]
  constructor
  · rintro ⟨t, m₁, h₁, h₂⟩
    obtain ⟨rfl, rfl⟩ := getState_ok.mp h₁
    obtain ⟨rfl, rfl⟩ := Exec.pure_ok.mp h₂
    exact ⟨rfl, rfl⟩
  · rintro ⟨rfl, rfl⟩
    exact ⟨_, m', getState_ok.mpr ⟨rfl, rfl⟩, Exec.pure_ok.mpr ⟨rfl, rfl⟩⟩

theorem getProc_ok {o : Nat} {p : Process} :
    (getProc o).run m = .ok (p, m') ↔ m.state.procs o = some p ∧ m' = m := by
  unfold getProc
  rw [Exec.bind_ok]
  constructor
  · rintro ⟨t, m₁, h₁, h₂⟩
    obtain ⟨rfl, rfl⟩ := getState_ok.mp h₁
    split at h₂
    · next p' hp =>
      obtain ⟨rfl, rfl⟩ := Exec.pure_ok.mp h₂
      exact ⟨hp, rfl⟩
    · exact absurd h₂ Exec.throw_ok
  · rintro ⟨hp, rfl⟩
    refine ⟨_, m', getState_ok.mpr ⟨rfl, rfl⟩, ?_⟩
    rw [hp]
    exact Exec.pure_ok.mpr ⟨rfl, rfl⟩

/-- Only the memory changed. -/
structure MemOnly (m m' : Machine) : Prop where
  slab : m'.state.slab = m.state.slab
  procCache : m'.state.procCache = m.state.procCache
  procs : m'.state.procs = m.state.procs
  freed : m'.freed = m.freed

theorem storePage_spec {w : Nat → Nat} (h : (storePage ptr w).run m = .ok (u, m')) :
    MemOnly m m' ∧ m'.state.mem = Function.update m.state.mem (Slab.frame ptr) w := by
  obtain rfl := update_ok.mp h
  exact ⟨⟨rfl, rfl, rfl, rfl⟩, rfl⟩

theorem store_spec {w : Nat} (h : (store ptr i w).run m = .ok (u, m')) :
    MemOnly m m' ∧ m'.state.mem = Function.update m.state.mem (Slab.frame ptr)
      (Function.update (m.state.mem (Slab.frame ptr)) i w) := by
  obtain rfl := update_ok.mp h
  exact ⟨⟨rfl, rfl, rfl, rfl⟩, rfl⟩

end

/-! ### The invariant -/

structure OpInv (freeAddr entriesAddr : Nat) (entries : Array Pmm.MmapEntry) (S : Scope) (cur : Nat) (m : Machine)
    (live : Nat → Option Slab.Live) (frames : Finset (Nat × Nat)) : Prop where
  run : Slab.Run freeAddr entriesAddr entries m.state.slab live frames
  cache : Slab.Valid live (.created m.state.procCache)
  procs : ∀ o p, m.state.procs o = some p → ∃ bytes, live o = some ⟨.created m.state.procCache, bytes⟩
  inj : Inj S m.state
  own : ∀ a ∈ S.slots, ∀ f, ref m.state a = some f → (f, 0) ∈ frames
  freed : ∀ e ∈ m.freed, ¬ Pmm.FreePage e.1.slab.pmm e.2 ∧ ∀ a ∈ Scope.user.slots, ref e.1 a = some e.2 → a = .dir cur

/-- A frame that belongs to the processes and that no slot refers to. -/
structure Loose (S : Scope) (m : Machine) (frames : Finset (Nat × Nat)) (f : Nat) : Prop where
  mem : (f, 0) ∈ frames
  unref : ∀ a ∈ S.slots, ref m.state a ≠ some f

section
variable {freeAddr entriesAddr : Nat} {entries : Array Pmm.MmapEntry} {S : Scope} {cur : Nat} {m m' : Machine}
  {live : Nat → Option Slab.Live} {frames : Finset (Nat × Nat)} {f : Nat} {u : Unit}

theorem Loose.congr (h : Loose S m frames f) {frames' : Finset (Nat × Nat)} (hsub : frames ⊆ frames')
    (href : ∀ a ∈ S.slots, ref m'.state a = ref m.state a) : Loose S m' frames' f :=
  ⟨hsub h.mem, fun a ha => by rw [href a ha]; exact h.unref a ha⟩

namespace OpInv

theorem frame_spec (h : OpInv freeAddr entriesAddr entries S cur m live frames)
    (hboot : Pmm.BootOk freeAddr entriesAddr entries) (hf : (f, 0) ∈ frames) :
    f ≠ 0 ∧ f < 0xFFFFF ∧ ¬ Pmm.FreePage m.state.slab.pmm f :=
  h.run.others_spec hboot hf

theorem mono (h : OpInv freeAddr entriesAddr entries S cur m live frames) {T : Scope} (hsub : T.slots ⊆ S.slots) :
    OpInv freeAddr entriesAddr entries T cur m live frames :=
  { h with
    inj := fun a ha b hb => h.inj a (hsub ha) b (hsub hb)
    own := fun a ha => h.own a (hsub ha) }

/-- The processes and the memory change: at most one slot gets a new frame, a loose one. -/
theorem step (h : OpInv freeAddr entriesAddr entries S cur m live frames) (a₀ : Slot)
    (hslab : m'.state.slab = m.state.slab) (hcache : m'.state.procCache = m.state.procCache)
    (hfreed : m'.freed = m.freed) (hprocs : ∀ o, (m'.state.procs o).isSome → (m.state.procs o).isSome)
    (href : ∀ a ∈ S.slots, ∀ f, ref m'.state a = some f →
      ref m.state a = some f ∨ (a = a₀ ∧ Loose S m frames f)) :
    OpInv freeAddr entriesAddr entries S cur m' live frames := by
  refine ⟨by rw [hslab]; exact h.run, by rw [hcache]; exact h.cache, fun o p ho => ?_, fun a ha b hb f hfa hfb => ?_,
    fun a ha f hfa => ?_, by rw [hfreed]; exact h.freed⟩
  · obtain ⟨p', hp'⟩ := Option.isSome_iff_exists.mp (hprocs o (by rw [ho]; rfl))
    rw [hcache]
    exact h.procs o p' hp'
  · rcases href a ha f hfa with h₁ | ⟨rfl, hl⟩ <;> rcases href b hb f hfb with h₂ | ⟨rfl, hl'⟩
    · exact h.inj a ha b hb f h₁ h₂
    · exact absurd h₁ (hl'.unref a ha)
    · exact absurd h₂ (hl.unref b hb)
    · rfl
  · rcases href a ha f hfa with h₁ | ⟨-, hl⟩
    · exact h.own a ha f h₁
    · exact hl.mem

/-- Nothing changes that the slots depend on. -/
theorem same (h : OpInv freeAddr entriesAddr entries S cur m live frames)
    (hslab : m'.state.slab = m.state.slab) (hcache : m'.state.procCache = m.state.procCache)
    (hfreed : m'.freed = m.freed) (hprocs : ∀ o, (m'.state.procs o).isSome → (m.state.procs o).isSome)
    (href : ∀ a ∈ S.slots, ref m'.state a = ref m.state a) :
    OpInv freeAddr entriesAddr entries S cur m' live frames :=
  h.step (.dir 0) hslab hcache hfreed hprocs fun a ha f hf => .inl (by rw [← href a ha]; exact hf)

theorem memOnly (h : OpInv freeAddr entriesAddr entries S cur m live frames) (hk : MemOnly m m')
    (href : ∀ a ∈ S.slots, ref m'.state a = ref m.state a) : OpInv freeAddr entriesAddr entries S cur m' live frames :=
  h.same hk.slab hk.procCache hk.freed (fun o ho => by rwa [hk.procs] at ho) href

/-! ### Page frames -/

theorem pmmAllocPageAddress (h : OpInv freeAddr entriesAddr entries S cur m live frames)
    (hboot : Pmm.BootOk freeAddr entriesAddr entries) {paddr : Nat}
    (hrun : pmmAllocPageAddress.run m = .ok (paddr, m')) :
    m'.state.procs = m.state.procs ∧ m'.state.mem = m.state.mem ∧ ∃ frames', frames ⊆ frames' ∧
      OpInv freeAddr entriesAddr entries S cur m' live frames' ∧
      (paddr ≠ 0 → ∃ f, paddr = f * pageSize ∧ Loose S m' frames' f ∧ (f, 0) ∉ frames) := by
  unfold Proc.pmmAllocPageAddress at hrun
  obtain ⟨t, m₁, h₁, h₂⟩ := Exec.bind_ok.mp hrun
  obtain ⟨rfl, rfl⟩ := Exec.get_ok.mp h₁
  clear hrun
  split at h₂
  · obtain ⟨_, m₂, h₃, h₄⟩ := Exec.bind_ok.mp h₂
    obtain rfl := Exec.set_ok.mp h₃
    obtain ⟨rfl, rfl⟩ := Exec.pure_ok.mp h₄
    exact ⟨rfl, rfl, frames, subset_rfl, h.same rfl rfl rfl (fun _ h => h) (fun _ _ => rfl), fun h0 => absurd rfl h0⟩
  · split at h₂
    · exact absurd h₂ Exec.throw_ok
    · next pageNum pmm he =>
      obtain ⟨_, m₂, h₃, h₄⟩ := Exec.bind_ok.mp h₂
      obtain rfl := Exec.set_ok.mp h₃
      obtain ⟨rfl, rfl⟩ := Exec.pure_ok.mp h₄
      refine ⟨rfl, rfl, ?_⟩
      have hr := h.run.otherAlloc he
      by_cases h0 : pageNum = 0
      · rw [if_pos h0] at hr
        refine ⟨frames, subset_rfl, ⟨hr, h.cache, h.procs, h.inj, h.own, h.freed⟩, fun hne => absurd ?_ hne⟩
        rw [h0]; rfl
      · rw [if_neg h0] at hr
        have hfresh := h.run.others_fresh hboot he h0
        have hlt := (hr.others_spec hboot (Finset.mem_insert_self _ _)).2.1
        refine ⟨insert (pageNum, 0) frames, Finset.subset_insert _ _, ⟨hr, h.cache, h.procs, h.inj,
          fun a ha f hf => Finset.mem_insert_of_mem (h.own a ha f hf), h.freed⟩, fun _ => ⟨pageNum, ?_, ⟨?_, ?_⟩, hfresh⟩⟩
        · exact u32_of_lt (by unfold pageSize; omega)
        · exact Finset.mem_insert_self _ _
        · exact fun a ha hf => hfresh (h.own a ha _ hf)

/-- A frame goes back that at most the directory of the current process refers to. -/
theorem pmmFreePageAddress (h : OpInv freeAddr entriesAddr entries S cur m live frames)
    (hboot : Pmm.BootOk freeAddr entriesAddr entries) (huser : Scope.user.slots ⊆ S.slots) {paddr : Nat}
    (hrun : (pmmFreePageAddress paddr).run m = .ok (u, m')) (hpaddr : pageNumber paddr = f) (hf : (f, 0) ∈ frames)
    (hdir : ∀ a ∈ S.slots, ref m.state a = some f → a = .dir cur)
    {T : Scope} (hT : T.slots ⊆ S.slots) (hloose : ∀ a ∈ T.slots, ref m.state a ≠ some f) :
    m'.state.procs = m.state.procs ∧ m'.state.mem = m.state.mem ∧
      OpInv freeAddr entriesAddr entries T cur m' live (frames.erase (f, 0)) := by
  subst hpaddr
  obtain rfl := Exec.modify_ok.mp hrun
  refine ⟨rfl, rfl, h.run.otherFree hf, h.cache, h.procs, fun a ha b hb => h.inj a (hT ha) b (hT hb), fun a ha f hfa => ?_, ?_⟩
  · refine Finset.mem_erase.mpr ⟨?_, h.own a (hT ha) f hfa⟩
    rintro e
    obtain ⟨rfl, -⟩ := Prod.mk.inj e
    exact hloose a ha hfa
  · intro e he
    rcases List.mem_cons.mp he with rfl | he
    · exact ⟨(h.frame_spec hboot hf).2.2, fun a ha hfa => hdir a (huser ha) hfa⟩
    · exact h.freed e he

/-! ### Directories and tables -/

end OpInv

theorem frame_cast (hf : f < 0xFFFFF) : Slab.frame (castPhysicalToVirtual (f * pageSize)) = f := by
  simp only [Slab.frame, pageNumber, castVirtualToPhysical, castPhysicalToVirtual, u32, kernelBase, pageSize]
  omega

theorem virtualToPhysical_cast (hf : f < 0xFFFFF) :
    castVirtualToPhysical (castPhysicalToVirtual (f * pageSize)) = f * pageSize :=
  castVirtualToPhysical_castPhysicalToVirtual (by unfold pageSize; omega)

theorem castP2vOrNull_of_ne {paddr : Nat} (h : castP2vOrNull paddr ≠ 0) :
    paddr ≠ 0 ∧ castP2vOrNull paddr = castPhysicalToVirtual paddr := by
  unfold castP2vOrNull at h ⊢
  split_ifs at h ⊢ with h0
  · exact absurd rfl h
  · exact ⟨h0, rfl⟩

namespace OpInv

/-- A page is written that is neither a directory nor a table. -/
theorem storePage (h : OpInv freeAddr entriesAddr entries S cur m live frames) {ptr : Nat} {w : Nat → Nat}
    (hrun : (storePage ptr w).run m = .ok (u, m'))
    (hdir : ∀ o, .dir o ∈ S.slots → dirFrame m.state o ≠ some (Slab.frame ptr))
    (htable : ∀ o pde, .table o pde ∈ S.slots → tableFrame m.state o pde ≠ some (Slab.frame ptr)) :
    m'.state.procs = m.state.procs ∧ m'.state.mem = Function.update m.state.mem (Slab.frame ptr) w ∧
      (∀ a ∈ S.slots, ref m'.state a = ref m.state a) ∧
      OpInv freeAddr entriesAddr entries S cur m' live frames := by
  obtain ⟨hk, hm⟩ := storePage_spec hrun
  have href : ∀ a ∈ S.slots, ref m'.state a = ref m.state a := fun a ha => ref_setMem hk.procs hm hdir htable ha
  exact ⟨hk.procs, hm, href, h.memOnly hk href⟩

theorem allocEntries (h : OpInv freeAddr entriesAddr entries S cur m live frames)
    (hboot : Pmm.BootOk freeAddr entriesAddr entries) {ptr : Nat} (hrun : allocEntries.run m = .ok (ptr, m')) :
    m'.state.procs = m.state.procs ∧ (∀ a ∈ S.slots, ref m'.state a = ref m.state a) ∧
      ∃ frames', frames ⊆ frames' ∧ OpInv freeAddr entriesAddr entries S cur m' live frames' ∧
        (ptr ≠ 0 → ∃ t, ptr = castPhysicalToVirtual (t * pageSize) ∧ t < 0xFFFFF ∧ t ≠ 0 ∧ Loose S m' frames' t ∧
          (t, 0) ∉ frames ∧ ∀ i, m'.state.mem t i = vmmWritable) := by
  unfold Proc.allocEntries at hrun
  obtain ⟨paddr, m₁, h₁, h₂⟩ := Exec.bind_ok.mp hrun
  obtain ⟨hp₁, hm₁, frames₁, hsub, hinv₁, hnew⟩ := h.pmmAllocPageAddress hboot h₁
  have href₁ : ref m₁.state = ref m.state := ref_congr hp₁ hm₁
  dsimp only at h₂
  split at h₂
  · obtain ⟨rfl, rfl⟩ := Exec.pure_ok.mp h₂
    exact ⟨hp₁, fun a _ => by rw [href₁], frames₁, hsub, hinv₁, fun h0 => absurd rfl h0⟩
  · next hne =>
    obtain ⟨_, m₂, h₃, h₄⟩ := Exec.bind_ok.mp h₂
    obtain ⟨rfl, rfl⟩ := Exec.pure_ok.mp h₄
    obtain ⟨hpa, hcast⟩ := castP2vOrNull_of_ne hne
    obtain ⟨t, rfl, hl, hfresh⟩ := hnew hpa
    obtain ⟨ht0, htlt, -⟩ := hinv₁.frame_spec hboot hl.mem
    rw [hcast] at h₃
    have hframe := frame_cast htlt
    obtain ⟨hp₂, hm₂, href₂, hinv₂⟩ := hinv₁.storePage h₃ (fun o ho => by rw [hframe]; exact hl.unref _ ho)
      (fun o pde ho => by rw [hframe]; exact hl.unref _ ho)
    refine ⟨hp₂.trans hp₁, fun a ha => by rw [href₂ a ha, href₁], frames₁, hsub, hinv₂, fun _ =>
      ⟨t, hcast, htlt, ht0, hl.congr subset_rfl href₂, hfresh, fun i => ?_⟩⟩
    rw [hm₂, hframe, Function.update_self]

/-- The end of `vmm_map`: a loose frame gets into a table. -/
theorem mapPage (h : OpInv freeAddr entriesAddr entries S cur m live frames)
    (hboot : Pmm.BootOk freeAddr entriesAddr entries) {pageTab pte flag o pde : Nat}
    (hrun : (vmmMapPageIndex pageTab pte (f * pageSize) flag).run m = .ok (u, m'))
    (hS : .page o pde pte ∈ S.slots) (ht : tableFrame m.state o pde = some (Slab.frame pageTab)) (hflag : flag < pageSize)
    (hf : Loose S m frames f) :
    m'.state.procs = m.state.procs ∧ OpInv freeAddr entriesAddr entries S cur m' live frames ∧
      ∀ a ∈ S.slots, ref m'.state a = if a = .page o pde pte then some f else ref m.state a := by
  obtain ⟨hk, hm⟩ := store_spec hrun
  obtain ⟨hf0, -, -⟩ := h.frame_spec hboot hf.mem
  have href : ∀ a ∈ S.slots, ref m'.state a = if a = .page o pde pte then some f else ref m.state a := by
    intro a ha
    rw [ref_setPage h.inj hk.procs hm (S.table_mem hS) ht ha, frameAt_entry hf0 hflag]
  refine ⟨hk.procs, h.step (.page o pde pte) hk.slab hk.procCache hk.freed (fun o ho => by rwa [hk.procs] at ho)
    (fun a ha g hg => ?_), href⟩
  rw [href a ha] at hg
  split_ifs at hg with e
  · obtain rfl := Option.some.inj hg
    exact .inr ⟨e, hf⟩
  · exact .inl hg

/-- `vmm_map_page_table_index` with a new table. -/
theorem mapTable (h : OpInv freeAddr entriesAddr entries S cur m live frames)
    (hboot : Pmm.BootOk freeAddr entriesAddr entries) {pageDir pageTab pde flag o t : Nat}
    (hrun : (vmmMapPageTableIndex pageDir pde pageTab flag).run m = .ok (u, m'))
    (hS : .table o pde ∈ S.slots) (hd : dirFrame m.state o = some (Slab.frame pageDir)) (hflag : flag < pageSize)
    (htab : castVirtualToPhysical pageTab = t * pageSize) (ht : Loose S m frames t)
    (hempty : ∀ i, m.state.mem t i = vmmWritable) :
    m'.state.procs = m.state.procs ∧ OpInv freeAddr entriesAddr entries S cur m' live frames ∧
      ∀ a ∈ S.slots, ref m'.state a = if a = .table o pde then some t
        else if a.parent = some (.table o pde) then none else ref m.state a := by
  obtain ⟨hk, hm⟩ := store_spec hrun
  obtain ⟨ht0, -, -⟩ := h.frame_spec hboot ht.mem
  rw [htab] at hm
  have hx := frameAt_entry ht0 hflag
  have htd : t ≠ Slab.frame pageDir := by
    rintro rfl
    exact ht.unref _ (S.dir_mem hS) hd
  have href : ∀ a ∈ S.slots, ref m'.state a = if a = .table o pde then some t
      else if a.parent = some (.table o pde) then none else ref m.state a := by
    intro a ha
    rw [ref_setTable h.inj hk.procs hm (S.dir_mem hS) hd (fun t' ht' => ?_) ha, hx]
    obtain rfl := Option.some.inj (hx.symm.trans ht')
    exact ⟨htd, fun i => by rw [hempty]; rfl⟩
  refine ⟨hk.procs, h.step (.table o pde) hk.slab hk.procCache hk.freed (fun o ho => by rwa [hk.procs] at ho)
    (fun a ha g hg => ?_), href⟩
  rw [href a ha] at hg
  split_ifs at hg with e
  · obtain rfl := Option.some.inj hg
    exact .inr ⟨e, ht⟩
  · exact .inl hg

theorem vmmMapIn (h : OpInv freeAddr entriesAddr entries S cur m live frames)
    (hboot : Pmm.BootOk freeAddr entriesAddr entries) {pageTab vaddr flag o pde : Nat} {page r : Int}
    (hrun : (vmmMapIn pageTab vaddr (f * pageSize) flag page).run m = .ok (r, m'))
    (hS : .page o pde (vmmPteIndex vaddr) ∈ S.slots) (ht : tableFrame m.state o pde = some (Slab.frame pageTab))
    (hflag : flag < pageSize) (hf : Loose S m frames f) :
    r = page ∧ m'.state.procs = m.state.procs ∧ OpInv freeAddr entriesAddr entries S cur m' live frames ∧
      pageFrame m'.state o pde (vmmPteIndex vaddr) = some f := by
  unfold Proc.vmmMapIn at hrun
  obtain ⟨w, m₁, h₁, h₂⟩ := Exec.bind_ok.mp hrun
  obtain ⟨-, rfl⟩ := load_ok.mp h₁
  split at h₂
  · exact absurd h₂ Exec.throw_ok
  · obtain ⟨_, m₂, h₃, h₄⟩ := Exec.bind_ok.mp h₂
    obtain ⟨rfl, rfl⟩ := Exec.pure_ok.mp h₄
    obtain ⟨hp, hinv, href⟩ := h.mapPage hboot h₃ hS ht hflag hf
    refine ⟨rfl, hp, hinv, ?_⟩
    rw [← ref_page, href _ hS, if_pos rfl]

/-- `vmm_map` of a loose frame: it is still loose when there was no page for a table, and mapped otherwise. -/
theorem vmmMap (h : OpInv freeAddr entriesAddr entries S cur m live frames)
    (hboot : Pmm.BootOk freeAddr entriesAddr entries) {pageDir vaddr flag o : Nat} {r : Int}
    (hrun : (vmmMap pageDir vaddr (f * pageSize) flag).run m = .ok (r, m'))
    (hS : .page o (vmmPdeIndex vaddr) (vmmPteIndex vaddr) ∈ S.slots)
    (hd : dirFrame m.state o = some (Slab.frame pageDir)) (hflag : flag < pageSize) (hf : Loose S m frames f) :
    m'.state.procs = m.state.procs ∧ ∃ frames', frames ⊆ frames' ∧
      OpInv freeAddr entriesAddr entries S cur m' live frames' ∧ (r < 0 → Loose S m' frames' f) ∧
      (¬ r < 0 → pageFrame m'.state o (vmmPdeIndex vaddr) (vmmPteIndex vaddr) = some f) := by
  unfold Proc.vmmMap getPageTable at hrun
  obtain ⟨pageTab, m₁, h₁, h₂⟩ := Exec.bind_ok.mp hrun
  obtain ⟨w, m₂, h₃, h₄⟩ := Exec.bind_ok.mp h₁
  obtain ⟨rfl, rfl⟩ := load_ok.mp h₃
  obtain ⟨rfl, rfl⟩ := Exec.pure_ok.mp h₄
  have htable := S.table_mem hS
  split at h₂
  · -- no table yet
    obtain ⟨tab, m₃, h₅, h₆⟩ := Exec.bind_ok.mp h₂
    obtain ⟨hp₃, href₃, frames₃, hsub, hinv₃, hnew⟩ := h.allocEntries hboot h₅
    have hf₃ := hf.congr hsub href₃
    split at h₆
    · obtain ⟨rfl, rfl⟩ := Exec.pure_ok.mp h₆
      exact ⟨hp₃, frames₃, hsub, hinv₃, fun _ => hf₃, fun hr => absurd (by decide) hr⟩
    · next hne =>
      obtain ⟨t, htab, htlt, -, hl, hfresh, hempty⟩ := hnew hne
      rw [htab] at h₆
      obtain ⟨_, m₄, h₇, h₈⟩ := Exec.bind_ok.mp h₆
      have hd₃ : dirFrame m₃.state o = some (Slab.frame pageDir) := by rw [dirFrame_congr hp₃]; exact hd
      obtain ⟨hp₄, hinv₄, href₄⟩ := hinv₃.mapTable hboot h₇ htable hd₃ hflag (virtualToPhysical_cast htlt) hl hempty
      have hft : f ≠ t := by
        rintro rfl
        exact hfresh hf.mem
      have hf₄ : Loose S m₄ frames₃ f := by
        refine ⟨hf₃.mem, fun a ha => ?_⟩
        rw [href₄ a ha]
        split_ifs
        · exact fun e => hft (Option.some.inj e).symm
        · simp
        · exact hf₃.unref a ha
      have ht₄ : tableFrame m₄.state o (vmmPdeIndex vaddr) =
          some (Slab.frame (castPhysicalToVirtual (t * pageSize))) := by
        rw [← ref_table, href₄ _ htable, if_pos rfl, frame_cast htlt]
      obtain ⟨rfl, hp₅, hinv₅, hpage⟩ := hinv₄.vmmMapIn hboot h₈ hS ht₄ hflag hf₄
      exact ⟨hp₅.trans (hp₄.trans hp₃), frames₃, hsub, hinv₅, fun hr => absurd hr (by decide), fun _ => hpage⟩
  · next hne =>
    -- the table is there
    obtain ⟨hpa, hcast⟩ := castP2vOrNull_of_ne hne
    obtain ⟨t, ht⟩ := Option.ne_none_iff_exists'.mp (mt frameAt_eq_none.mp hpa)
    obtain ⟨ht0, haddr⟩ := frameAt_eq_some.mp ht
    have htab : tableFrame m₂.state o (vmmPdeIndex vaddr) = some t := by rw [tableFrame, hd]; exact ht
    obtain ⟨-, htlt, -⟩ := h.frame_spec hboot (h.own _ htable t htab)
    rw [hcast, haddr] at h₂
    rw [← frame_cast htlt] at htab
    obtain ⟨rfl, hp, hinv, hpage⟩ := h.vmmMapIn hboot h₂ hS htab hflag hf
    exact ⟨hp, frames, subset_rfl, hinv, fun hr => absurd hr (by decide), fun _ => hpage⟩

/-! ### Process objects -/

/-- A field other than `page_dir` changes. -/
theorem modifyProc (h : OpInv freeAddr entriesAddr entries S cur m live frames) {o : Nat} {g : Process → Process}
    (hrun : (modifyProc o g).run m = .ok (u, m')) (hg : ∀ p, (g p).pageDir = p.pageDir) :
    m'.state.procs = Function.update m.state.procs o ((m.state.procs o).map g) ∧ ref m'.state = ref m.state ∧
      m'.state.mem = m.state.mem ∧ OpInv freeAddr entriesAddr entries S cur m' live frames := by
  obtain rfl := update_ok.mp hrun
  have hdir : ∀ o', ((Function.update m.state.procs o ((m.state.procs o).map g)) o').bind
      (fun p => if p.pageDir = 0 then none else some (Slab.frame p.pageDir)) = dirFrame m.state o' := by
    intro o'
    by_cases e : o' = o
    · subst e
      rw [Function.update_self, dirFrame]
      cases m.state.procs o' <;> simp [hg]
    · rw [Function.update_of_ne e]; rfl
  have href : ∀ a, ref { m.state with procs := Function.update m.state.procs o ((m.state.procs o).map g) } a =
      ref m.state a := by
    intro a
    cases a <;> simp only [ref_dir, ref_table, ref_page, pageFrame, tableFrame] <;> simp only [dirFrame, hdir]
  refine ⟨rfl, funext href, rfl, h.same rfl rfl rfl (fun o' ho' => ?_) (fun a _ => href a)⟩
  by_cases e : o' = o
  · subst e
    simpa using ho'
  · simpa [e] using ho'

end OpInv
end
end Airix.Proc
