import Airix.Proc.Space

/-!
# What the operations do to a space

One specification for each operation of `vmm.c` on the process that is worked on, primitives first. All of them
return, but for `vmm_map` of a page that is there.
-/

namespace Airix.Proc
open Exec (After)

section
variable {freeAddr entriesAddr : Nat} {entries : Array Pmm.MmapEntry} {E : Env} {m : Machine} {x : Space}
  {a b : Place} {t : Prop}

theorem after_of_rep {α : Type} {c : M α} {Q : α → Space → Prop}
    (h : ∀ m, Rep freeAddr entriesAddr entries E m x → After t (Rep freeAddr entriesAddr entries E) x c Q) :
    After t (Rep freeAddr entriesAddr entries E) x c Q :=
  fun m hm => h m hm m hm

/-! ### The process object -/

theorem after_getProc : After t (Rep freeAddr entriesAddr entries E) x (getProc E.owner)
    (fun p y => p = x.proc ∧ y = x) :=
  After.of_run fun m h => ⟨x.proc, m, x, getProc_ok.mpr ⟨h.proc, rfl⟩, h, rfl, rfl⟩

theorem after_getState : After t (Rep freeAddr entriesAddr entries E) x getState
    (fun s y => y = x ∧ ∃ m, Rep freeAddr entriesAddr entries E m x ∧ m.state = s) :=
  After.of_run fun m h => ⟨m.state, m, x, getState_ok.mpr ⟨rfl, rfl⟩, h, rfl, m, h, rfl⟩

theorem after_modifyProc (g : Process → Process) :
    After t (Rep freeAddr entriesAddr entries E) x (modifyProc E.owner g) (fun _ y => y = x.setProc (g x.proc)) := by
  refine After.of_run fun m h => ⟨(), _, _, update_ok.mpr rfl, ?_, rfl⟩
  refine ⟨h.ok.setProc, fun a ha => (h.fits a ha).congr rfl (fun i _ => ⟨rfl, fun _ => rfl⟩) rfl, ?_, h.run, h.mem_free,
    h.free, h.kept, fun o ho => ?_, ⟨h.rest.pgDir, h.rest.procCache, h.rest.pidMap, h.rest.pidGen, h.rest.sched⟩⟩
  · dsimp only
    rw [Function.update_self, h.proc]
    rfl
  · dsimp only
    rw [Function.update_of_ne ho]
    exact h.others o ho

/-! ### Frames -/

theorem pmmAllocPageAddress_run (h : Rep freeAddr entriesAddr entries E m x)
    (hw : WindowOk freeAddr entriesAddr entries) :
    (∃ m', pmmAllocPageAddress.run m = .ok (0, m') ∧ Rep freeAddr entriesAddr entries E m' x) ∨
    ∃ f pmm, pmmAllocPageAddress.run m = .ok (f * pageSize, ⟨{ m.state with slab := { m.state.slab with pmm := pmm } },
        m.fails.tail, m.freed⟩) ∧ f ≠ 0 ∧ f < 0x40000 ∧ Pmm.pmmAllocPages m.state.slab.pmm 0 = some (f, pmm) ∧
      Pmm.FreePage m.state.slab.pmm f ∧ ∀ g, Pmm.FreePage pmm g ↔ Pmm.FreePage m.state.slab.pmm g ∧ g ≠ f := by
  obtain ⟨frames, hrun, hin⟩ := h.run
  obtain ⟨p, pmm, he, hnone, hsome⟩ := hrun.alloc_page hw.toBootOk
  have hr := hrun.otherAlloc he
  by_cases hfail : m.fails.headD false = true
  · refine .inl ⟨⟨m.state, m.fails.tail, m.freed⟩, ?_, ⟨h.ok, h.fits, h.proc, h.run, h.mem_free, h.free, h.kept, h.others,
      h.rest⟩⟩
    unfold pmmAllocPageAddress
    refine Exec.bind_ok.mpr ⟨m, m, Exec.get_ok.mpr ⟨rfl, rfl⟩, ?_⟩
    rw [if_pos hfail]
    rfl
  have hok : pmmAllocPageAddress.run m = .ok (pageAddress p,
      ⟨{ m.state with slab := { m.state.slab with pmm := pmm } }, m.fails.tail, m.freed⟩) := by
    unfold pmmAllocPageAddress
    refine Exec.bind_ok.mpr ⟨m, m, Exec.get_ok.mpr ⟨rfl, rfl⟩, ?_⟩
    rw [if_neg hfail, he]
    rfl
  by_cases h0 : p = 0
  · rw [if_pos h0] at hr
    subst h0
    refine .inl ⟨_, hok, ⟨h.ok, h.fits, h.proc, ⟨frames, hr, hin⟩, h.mem_free, fun f => ?_, h.kept, h.others,
      ⟨h.rest.pgDir, h.rest.procCache, h.rest.pidMap, h.rest.pidGen, h.rest.sched⟩⟩⟩
    rw [← h.free]
    exact hnone rfl f
  · rw [if_neg h0] at hr
    have hlt := hr.others_lt hw.toBootOk (Finset.mem_insert_self _ _)
    have hwin := hw.window
    have hp : p < 0x40000 := by
      unfold pageSize at hlt
      omega
    have haddr : pageAddress p = p * pageSize := u32_of_lt (by unfold pageSize; omega)
    rw [haddr] at hok
    exact .inr ⟨p, pmm, hok, h0, hp, he, (hsome h0).2⟩

/-- A page in hand, with whatever is in it. -/
theorem after_alloc (hw : WindowOk freeAddr entriesAddr entries) (hx : .hand ∉ x.places) :
    After t (Rep freeAddr entriesAddr entries E) x pmmAllocPageAddress (fun paddr y =>
      (paddr = 0 ∧ y = x) ∨
      ∃ f w, paddr = f * pageSize ∧ f ≠ 0 ∧ f < 0x40000 ∧ f ∈ E.free ∧ y = x.take .hand f w) := by
  refine After.of_run fun m h => ?_
  rcases pmmAllocPageAddress_run h hw with ⟨m', hr, h'⟩ | ⟨f, pmm, hr, h0, hlt, he, hfree, hiff⟩
  · exact ⟨0, m', x, hr, h', .inl ⟨rfl, rfl⟩⟩
  · refine ⟨_, _, _, hr, h.take hx he h0 hfree hiff (fun _ _ => rfl) ?_ (by simp) (by simp),
      .inr ⟨f, m.state.mem f, rfl, h0, hlt, ((h.free f).mp hfree).1, rfl⟩⟩
    rw [Space.fits_words (by simp [Place.HasEntries])]
    simp

theorem after_free (hw : WindowOk freeAddr entriesAddr entries) (ha : a ∈ x.places) (hflag : x.flag a = none)
    (hchild : ∀ b ∈ x.places, ∀ i, a.HasEntries → b ≠ a.entry i) :
    After t (Rep freeAddr entriesAddr entries E) x (pmmFreePageAddress (x.frame a * pageSize))
      (fun _ y => y = x.drop a) := by
  refine After.of_run fun m h => ⟨(), _, _, Exec.modify_ok.mpr rfl, ?_, rfl⟩
  have hnum : pageNumber (x.frame a * pageSize) = x.frame a := by
    have := (h.frame_spec hw ha).2
    simp only [pageNumber, u32, pageSize]
    omega
  dsimp only
  rw [hnum]
  exact h.drop hw ha hflag hchild

/-! ### Memory -/

/-- The words of a page. -/
theorem after_storePage (hw : WindowOk freeAddr entriesAddr entries) (ha : a ∈ x.places) (he : ¬ a.HasEntries)
    (w : Nat → Nat) :
    After t (Rep freeAddr entriesAddr entries E) x (storePage (x.ptr a) w) (fun _ y => y = x.setWords a w) := by
  refine After.of_run fun m h => ⟨(), _, _, update_ok.mpr rfl, ?_, rfl⟩
  rw [h.frame_ptr hw ha]
  refine h.setMem ha rfl rfl rfl h.ok.setWords ?_ fun b hb hne v hv => ?_
  · rw [Space.fits_words he]
    simp
  · exact hv.congr rfl (fun i _ => ⟨rfl, fun _ => rfl⟩) (Function.update_of_ne hne _ _)

theorem after_load (hw : WindowOk freeAddr entriesAddr entries) (hb : b ∈ x.places) (he : b.HasEntries) {i : Nat}
    (hi : i < x.size b) :
    After t (Rep freeAddr entriesAddr entries E) x (load (x.ptr b) i) (fun v y => y = x ∧ x.Entry (b.entry i) v) := by
  refine After.of_run fun m h => ⟨_, m, x, load_ok.mpr ⟨rfl, rfl⟩, h, rfl, ?_⟩
  rw [h.frame_ptr hw hb]
  exact (h.fits b hb).entry he hi

/-- An entry of the directory or of a table. -/
theorem after_store (hw : WindowOk freeAddr entriesAddr entries) (hb : b ∈ x.places) (he : b.HasEntries) {i v : Nat}
    (hi : i < x.size b) {k : Option Nat}
    (hk : ∀ j, k = some j → b.entry i ∈ x.places ∧ j < pageSize ∧ j % 2 = 1 ∧ v = x.frame (b.entry i) * pageSize + j)
    (hv : k = none → v < pageSize ∧ v % 2 = 0) :
    After t (Rep freeAddr entriesAddr entries E) x (store (x.ptr b) i v)
      (fun _ y => y = x.setFlag (b.entry i) k) := by
  refine After.of_run fun m h => ⟨(), _, _, update_ok.mpr rfl, ?_, rfl⟩
  dsimp only
  rw [h.frame_ptr hw hb]
  have hentry : (x.setFlag (b.entry i) k).Entry (b.entry i) v := by
    unfold Space.Entry
    rw [show (x.setFlag (b.entry i) k).flag (b.entry i) = k from Function.update_self _ _ _]
    cases k with
    | none => exact hv rfl
    | some j => exact (hk j rfl).2.2.2
  -- no other place has its entry there
  have hflag : ∀ c : Place, ∀ j, c.HasEntries → (c ≠ b ∨ j ≠ i) →
      (x.setFlag (b.entry i) k).flag (c.entry j) = x.flag (c.entry j) := by
    intro c j hc hne
    refine Function.update_of_ne (fun e => ?_) _ _
    obtain ⟨rfl, rfl⟩ := Place.entry_inj hc he e
    exact hne.elim (fun h => h rfl) fun h => h rfl
  refine h.setMem hb rfl rfl rfl (h.ok.setFlag (fun j hj => ?_) ?_) ?_ fun c hc hne u hu => ?_
  · obtain ⟨h₁, h₂, h₃, -⟩ := hk j hj
    exact ⟨h₁, h₂, h₃⟩
  · cases b <;> simp [Place.entry, Place.HasEntries] at he ⊢
  · have hold := h.fits b hb
    unfold Space.Fits at hold ⊢
    rw [if_pos he] at hold ⊢
    refine ⟨fun j hj => ?_, fun j hj hj' => ?_⟩
    · by_cases e : j = i
      · subst e
        rw [Function.update_self]
        exact hentry
      · rw [Function.update_of_ne e]
        exact (hold.1 j hj).congr (hflag b j he (.inr e)) fun _ => rfl
    · have hle : x.size b ≤ j := hj
      rw [Function.update_of_ne (by omega)]
      exact hold.2 j hle hj'
  · exact hu.congr rfl (fun j hc' => ⟨hflag c j hc' (.inl hne), fun _ => rfl⟩) rfl

/-! ### Directories and tables -/

/-- A new directory or table, with nothing in it. -/
theorem after_allocEntries (hw : WindowOk freeAddr entriesAddr entries) (ha : a ∉ x.places) (he : a.HasEntries)
    (hsize : x.size a = numPde) (hchild : ∀ i, x.flag (a.entry i) = none)
    (htable : ∀ pde, a = .table pde → .dir ∈ x.places ∧ pde < x.limit) :
    After t (Rep freeAddr entriesAddr entries E) x allocEntries (fun ptr y =>
      (ptr = 0 ∧ y = x) ∨ ∃ f w, f < 0x40000 ∧ f ∈ E.free ∧ ptr ≠ 0 ∧ ptr = y.ptr a ∧ y = x.take a f w) := by
  refine After.of_run fun m h => ?_
  rcases pmmAllocPageAddress_run h hw with ⟨m', hr, h'⟩ | ⟨f, pmm, hr, h0, hlt, hpmm, hfree, hiff⟩
  · refine ⟨0, m', x, ?_, h', .inl ⟨rfl, rfl⟩⟩
    exact Exec.bind_ok.mpr ⟨0, m', hr, rfl⟩
  · have hptr : castP2vOrNull (f * pageSize) = castPhysicalToVirtual (f * pageSize) :=
      if_neg (by unfold pageSize; omega)
    have hne : castPhysicalToVirtual (f * pageSize) ≠ 0 := by
      simp only [castPhysicalToVirtual, u32, kernelBase, pageSize]
      omega
    have hself : (x.take a f fun _ => vmmWritable).ptr a = castPhysicalToVirtual (f * pageSize) := by
      simp [Space.ptr]
    refine ⟨castPhysicalToVirtual (f * pageSize),
      ⟨{ m.state with
          slab := { m.state.slab with pmm := pmm }
          mem := Function.update m.state.mem f fun _ => vmmWritable }, m.fails.tail, m.freed⟩,
      x.take a f fun _ => vmmWritable, ?_,
      h.take ha hpmm h0 hfree hiff (fun g hg => Function.update_of_ne hg (fun _ => vmmWritable) m.state.mem) ?_ htable ?_,
      .inr ⟨f, _, hlt, ((h.free f).mp hfree).1, hne, hself.symm, rfl⟩⟩
    · refine Exec.bind_ok.mpr ⟨_, _, hr, ?_⟩
      dsimp only
      rw [hptr, if_neg hne]
      refine Exec.bind_ok.mpr ⟨(), _, update_ok.mpr rfl, Exec.pure_ok.mpr ⟨rfl, ?_⟩⟩
      rw [frame_cast (hlt.trans (by decide))]
    · rw [Function.update_self]
      unfold Space.Fits
      rw [if_pos he]
      refine ⟨fun i hi => ?_, fun i hi hi' => ?_⟩
      · unfold Space.Entry
        rw [show (x.take a f fun _ => vmmWritable).flag (a.entry i) = none from hchild i]
        show vmmWritable < pageSize ∧ vmmWritable % 2 = 0
        decide
      · have hle : x.size a ≤ i := by cases a <;> exact hi
        omega
    · rintro pde pte rfl
      exact absurd he (by simp [Place.HasEntries])

theorem entry_or (f : Nat) {flag : Nat} (hflag : flag < pageSize) :
    f * pageSize ||| flag ||| vmmPresent = f * pageSize + (flag ||| 1) ∧ (flag ||| 1) < pageSize ∧ (flag ||| 1) % 2 = 1 := by
  have hlt : flag ||| 1 < 2 ^ 12 := Nat.or_lt_two_pow hflag (by decide)
  refine ⟨?_, hlt, ?_⟩
  · have h := Nat.two_pow_add_eq_or_of_lt hlt f
    rw [Nat.or_assoc, Nat.mul_comm]
    exact h.symm
  · rw [← Nat.and_one_is_mod, Nat.and_or_distrib_right]
    have h : flag &&& 1 ≤ 1 := Nat.and_le_right
    rcases Nat.le_one_iff_eq_zero_or_eq_one.mp h with e | e <;> rw [e] <;> rfl

/-- The page in hand gets into a table. -/
theorem after_vmmMapPageIndex (hw : WindowOk freeAddr entriesAddr entries) {pde pte flag : Nat} (hx : .hand ∈ x.places)
    (hp : .page pde pte ∉ x.places) (ht : .table pde ∈ x.places) (hlt : pte < numPte) (hflag : flag < pageSize) :
    After t (Rep freeAddr entriesAddr entries E) x
      (vmmMapPageIndex (x.ptr (.table pde)) pte (x.frame .hand * pageSize) flag)
      (fun _ y => y = x.putHand (.page pde pte) (flag ||| 1)) := by
  obtain ⟨heq, hlt', hodd⟩ := entry_or (x.frame .hand) hflag
  unfold vmmMapPageIndex
  rw [heq]
  refine After.of_rep ?_ fun m h => h.moveHand hx hp ht hlt
  have hptr : x.ptr (.table pde) =
      ((x.drop .hand).take (.page pde pte) (x.frame .hand) (x.words .hand)).ptr (.table pde) := by
    simp [Space.ptr]
  rw [hptr]
  refine after_store hw (b := .table pde) ?_ trivial hlt (fun j hj => ?_) (fun h => by cases h)
  · simp [ht]
  · obtain rfl := Option.some.inj hj
    exact ⟨Finset.mem_insert_self _ _, hlt', hodd, by simp [Place.entry]⟩

/-- A new table gets into the directory. -/
theorem after_vmmMapPageTableIndex (hw : WindowOk freeAddr entriesAddr entries) {pde flag : Nat}
    (hd : .dir ∈ x.places) (ht : .table pde ∈ x.places) (hlt : pde < x.limit) (hflag : flag < pageSize) :
    After t (Rep freeAddr entriesAddr entries E) x (vmmMapPageTableIndex (x.ptr .dir) pde (x.ptr (.table pde)) flag)
      (fun _ y => y = x.setFlag (.table pde) (some (flag ||| 1))) := by
  refine after_of_rep fun m h => ?_
  obtain ⟨heq, hlt', hodd⟩ := entry_or (x.frame (.table pde)) hflag
  have hphys : castVirtualToPhysical (x.ptr (.table pde)) = x.frame (.table pde) * pageSize :=
    virtualToPhysical_cast ((h.frame_spec hw ht).2.trans (by decide))
  unfold vmmMapPageTableIndex
  rw [hphys, heq]
  refine after_store hw (b := .dir) hd trivial hlt (fun j hj => ?_) (fun h => by cases h)
  obtain rfl := Option.some.inj hj
  exact ⟨ht, hlt', hodd, rfl⟩

theorem Space.Ok.flag_iff (h : x.Ok) (hl : x.Linked) (ha : a ≠ .dir) (ha' : a ≠ .hand) :
    x.flag a = none ↔ a ∉ x.places :=
  ⟨fun hk hm => hl a hm ha ha' hk, h.flag_none⟩

/-- The end of `vmm_map`. -/
theorem after_vmmMapIn (hw : WindowOk freeAddr entriesAddr entries) {vaddr pde flag : Nat} {page : Int}
    (hl : x.Linked) (hx : .hand ∈ x.places) (ht : .table pde ∈ x.places) (hflag : flag < pageSize)
    (hnew : t → .page pde (vmmPteIndex vaddr) ∉ x.places) :
    After t (Rep freeAddr entriesAddr entries E) x
      (vmmMapIn (x.ptr (.table pde)) vaddr (x.frame .hand * pageSize) flag page)
      (fun r y => r = page ∧ .page pde (vmmPteIndex vaddr) ∉ x.places ∧
        y = x.putHand (.page pde (vmmPteIndex vaddr)) (flag ||| 1)) := by
  have hlt : vmmPteIndex vaddr < numPte := Nat.mod_lt _ (by decide)
  refine after_of_rep fun m h => ?_
  have hiff := h.ok.flag_iff hl (a := .page pde (vmmPteIndex vaddr)) (by simp) (by simp)
  refine After.bind (after_load hw (b := .table pde) ht trivial hlt) ?_
  rintro v x ⟨rfl, hv⟩
  have hpresent := hv.present_iff h.ok
  split_ifs with hp
  · have hmem := mt hiff.mpr (hpresent.mp hp)
    exact After.throw fun ht => hmem (hnew ht)
  · have hmem := hiff.mp (not_not.mp (mt hpresent.mpr hp))
    refine After.bind (after_vmmMapPageIndex hw hx hmem ht hlt hflag) ?_
    rintro _ _ rfl
    exact After.pure ⟨rfl, hmem, rfl⟩

/-- `vmm_map` of the page in hand: -1 without memory for a table, or else the number of new tables. -/
theorem after_vmmMap (hw : WindowOk freeAddr entriesAddr entries) {vaddr flag : Nat} (hl : x.Linked)
    (hd : .dir ∈ x.places) (hlimit : x.limit = numPde) (hx : .hand ∈ x.places) (hflag : flag < pageSize)
    (hnew : t → .page (vmmPdeIndex vaddr) (vmmPteIndex vaddr) ∉ x.places) :
    After t (Rep freeAddr entriesAddr entries E) x (vmmMap (x.ptr .dir) vaddr (x.frame .hand * pageSize) flag)
      (fun r y => (r = -1 ∧ y = x) ∨ .page (vmmPdeIndex vaddr) (vmmPteIndex vaddr) ∉ x.places ∧
        ((r = 0 ∧ .table (vmmPdeIndex vaddr) ∈ x.places ∧
          y = x.putHand (.page (vmmPdeIndex vaddr) (vmmPteIndex vaddr)) (flag ||| 1)) ∨
        (r = 1 ∧ .table (vmmPdeIndex vaddr) ∉ x.places ∧ ∃ f w,
          y = ((x.take (.table (vmmPdeIndex vaddr)) f w).setFlag (.table (vmmPdeIndex vaddr)) (some (flag ||| 1))).putHand
            (.page (vmmPdeIndex vaddr) (vmmPteIndex vaddr)) (flag ||| 1)))) := by
  have hpde : vmmPdeIndex vaddr < x.limit := hlimit ▸ Nat.mod_lt _ (by decide)
  refine after_of_rep fun m h => ?_
  have hiff := h.ok.flag_iff hl (a := .table (vmmPdeIndex vaddr)) (by simp) (by simp)
  unfold vmmMap getPageTable
  rw [bind_assoc]
  refine After.bind (after_load hw (b := .dir) hd trivial hpde) ?_
  rintro v x ⟨rfl, hv⟩
  rw [pure_bind]
  have hnone := hv.none_iff h.ok (fun ha => (h.frame_spec hw ha).1)
  by_cases ht : .table (vmmPdeIndex vaddr) ∈ x.places
  · obtain ⟨k, hk⟩ := Option.ne_none_iff_exists'.mp (mt hiff.mp (not_not.mpr ht))
    obtain ⟨haddr, -⟩ := hv.some_eq h.ok hk
    have hne := (h.frame_spec hw ht)
    have hcast : castP2vOrNull (entryAddress v) = x.ptr (.table (vmmPdeIndex vaddr)) := by
      rw [haddr]
      exact if_neg (by unfold pageSize; simp only [Place.entry]; omega)
    have hptr : x.ptr (.table (vmmPdeIndex vaddr)) ≠ 0 := by
      simp only [Space.ptr, castPhysicalToVirtual, u32, kernelBase, pageSize]
      omega
    rw [hcast, if_neg hptr]
    refine (after_vmmMapIn hw hl hx ht hflag hnew).mono ?_
    rintro r y ⟨rfl, hp, rfl⟩
    exact .inr ⟨hp, .inl ⟨rfl, ht, rfl⟩⟩
  · have hcast : castP2vOrNull (entryAddress v) = 0 := by
      rw [hnone.mpr (hiff.mpr ht)]
      rfl
    have hchild : ∀ i, .page (vmmPdeIndex vaddr) i ∉ x.places := fun i hi => ht (h.ok.page _ i hi).1
    rw [if_pos hcast]
    refine After.bind (after_allocEntries hw ht trivial rfl (fun i => h.ok.flag_none (hchild i)) ?_) ?_
    · rintro pde e
      exact ⟨hd, Place.table.inj e ▸ hpde⟩
    rintro ptr y (⟨rfl, hy⟩ | ⟨f, w, hlt, hfree, hne, hptr, rfl⟩)
    · exact After.pure (.inl ⟨rfl, hy⟩)
    rw [if_neg hne, hptr]
    have hdir : x.ptr .dir = (x.take (.table (vmmPdeIndex vaddr)) f w).ptr .dir := by simp [Space.ptr]
    rw [hdir]
    refine After.bind (after_vmmMapPageTableIndex hw (Finset.mem_insert_of_mem hd) (Finset.mem_insert_self _ _) hpde
      hflag) ?_
    rintro _ _ rfl
    have hhand : x.frame .hand = ((x.take (.table (vmmPdeIndex vaddr)) f w).setFlag (.table (vmmPdeIndex vaddr))
        (some (flag ||| 1))).frame .hand := by simp
    rw [hhand]
    refine (after_vmmMapIn hw (fun a ha hda hha => ?_) (Finset.mem_insert_of_mem hx) (Finset.mem_insert_self _ _) hflag
      fun ht hm => hnew ht ?_).mono ?_
    · simp only [Space.setFlag_flag, Space.take_flag]
      by_cases e : a = .table (vmmPdeIndex vaddr)
      · simp [e]
      · rw [Function.update_of_ne e]
        exact hl a ((Finset.mem_insert.mp ha).resolve_left e) hda hha
    · exact (Finset.mem_insert.mp hm).resolve_left (by simp)
    · rintro r y ⟨rfl, -, rfl⟩
      exact .inr ⟨hchild _, .inr ⟨rfl, ht, f, w, rfl⟩⟩

end
end Airix.Proc
