import Airix.Proc.Ops

/-!
# Frame ownership while a process is built

An ELF segment may lie above `KERNEL_BASE`, so until `pg_copy_kernel_space` all of the new directory counts.
-/

namespace Airix.Proc

/-- Process `proc` has the directory `dir`, and everything in it counts. -/
structure Building (freeAddr entriesAddr : Nat) (entries : Array Pmm.MmapEntry) (live : Nat → Option Slab.Live)
    (proc dir : Nat) (m : Machine) (frames : Finset (Nat × Nat)) : Prop where
  inv : OpInv freeAddr entriesAddr entries (Scope.building proc) proc m live frames
  pageDir : ∃ p, m.state.procs proc = some p ∧ p.pageDir = dir
  ne : dir ≠ 0

section
variable {freeAddr entriesAddr : Nat} {entries : Array Pmm.MmapEntry} {proc dir : Nat} {m m' : Machine}
  {live : Nat → Option Slab.Live} {frames : Finset (Nat × Nat)} {f : Nat} {u : Unit}

theorem page_mem_building (vaddr : Nat) :
    .page proc (vmmPdeIndex vaddr) (vmmPteIndex vaddr) ∈ (Scope.building proc).slots := by
  show vmmPdeIndex vaddr < if proc = proc then numPde else userPdes
  rw [if_pos rfl]
  exact Nat.mod_lt _ (by decide)

theorem dirFrame_eq {s : State} {p : Process} (hp : s.procs proc = some p) (h0 : p.pageDir ≠ 0) :
    dirFrame s proc = some (Slab.frame p.pageDir) := by
  rw [dirFrame, hp, Option.bind_some, if_neg h0]

/-- As long as a process has no directory, only what is below `KERNEL_BASE` counts. -/
theorem OpInv.building (h : OpInv freeAddr entriesAddr entries Scope.user proc m live frames)
    (hd : dirFrame m.state proc = none) :
    OpInv freeAddr entriesAddr entries (Scope.building proc) proc m live frames := by
  have hmem : ∀ a ∈ (Scope.building proc).slots, ∀ f, ref m.state a = some f → a ∈ Scope.user.slots := by
    intro a ha f hf
    have hne : a.proc ≠ proc := by
      intro e
      cases a <;> subst e <;> simp [pageFrame, tableFrame, Slot.proc] at hf hd <;> simp [hd] at hf
    have ha' : a.Below (if a.proc = proc then numPde else userPdes) := ha
    rwa [if_neg hne] at ha'
  exact { h with
    inj := fun a ha b hb f hfa hfb => h.inj a (hmem a ha f hfa) b (hmem b hb f hfb) f hfa hfb
    own := fun a ha f hf => h.own a (hmem a ha f hf) f hf }

namespace Building

theorem user (h : Building freeAddr entriesAddr entries live proc dir m frames) :
    OpInv freeAddr entriesAddr entries Scope.user proc m live frames :=
  h.inv.mono (Scope.user_subset_building proc)

theorem modifyProc (h : Building freeAddr entriesAddr entries live proc dir m frames) {g : Process → Process}
    (hrun : (modifyProc proc g).run m = .ok (u, m')) (hg : ∀ p, (g p).pageDir = p.pageDir) :
    Building freeAddr entriesAddr entries live proc dir m' frames ∧ ref m'.state = ref m.state ∧
      m'.state.mem = m.state.mem := by
  obtain ⟨hp, href, hm, hinv⟩ := h.inv.modifyProc hrun hg
  obtain ⟨p, hproc, h0⟩ := h.pageDir
  exact ⟨⟨hinv, ⟨g p, by rw [hp, Function.update_self, hproc]; rfl, by rw [hg]; exact h0⟩, h.ne⟩, href, hm⟩

/-- A new page: still loose. -/
theorem alloc (h : Building freeAddr entriesAddr entries live proc dir m frames)
    (hboot : Pmm.BootOk freeAddr entriesAddr entries) {paddr : Nat}
    (hrun : pmmAllocPageAddress.run m = .ok (paddr, m')) :
    ref m'.state = ref m.state ∧ m'.state.mem = m.state.mem ∧
      ∃ frames', Building freeAddr entriesAddr entries live proc dir m' frames' ∧
      (paddr ≠ 0 → ∃ f, paddr = f * pageSize ∧ f < 0xFFFFF ∧ Loose (Scope.building proc) m' frames' f) := by
  obtain ⟨hp, hm, frames', -, hinv, hnew⟩ := h.inv.pmmAllocPageAddress hboot hrun
  refine ⟨ref_congr hp hm, hm, frames', ⟨hinv, by rw [hp]; exact h.pageDir, h.ne⟩, fun h0 => ?_⟩
  obtain ⟨f, hf, hl, -⟩ := hnew h0
  exact ⟨f, hf, (hinv.frame_spec hboot hl.mem).2.1, hl⟩

/-- A loose page is written. -/
theorem storePage (h : Building freeAddr entriesAddr entries live proc dir m frames) {ptr : Nat} {w : Nat → Nat}
    (hrun : (storePage ptr w).run m = .ok (u, m')) (hf : Loose (Scope.building proc) m frames (Slab.frame ptr)) :
    Building freeAddr entriesAddr entries live proc dir m' frames ∧
      ∀ a ∈ (Scope.building proc).slots, ref m'.state a = ref m.state a := by
  obtain ⟨hp, -, href, hinv⟩ := h.inv.storePage hrun (fun o ho => hf.unref _ ho) (fun o pde ho => hf.unref _ ho)
  exact ⟨⟨hinv, by rw [hp]; exact h.pageDir, h.ne⟩, href⟩

/-- A loose page is mapped, or freed again when there is no page for a table. -/
theorem mapOrFree (h : Building freeAddr entriesAddr entries live proc dir m frames)
    (hboot : Pmm.BootOk freeAddr entriesAddr entries) {vaddr flag : Nat} {p : Process} {r : Int}
    (hp : m.state.procs proc = some p) (hflag : flag < pageSize) (hf : Loose (Scope.building proc) m frames f)
    (hrun : (vmmMap p.pageDir vaddr (f * pageSize) flag).run m = .ok (r, m')) :
    (r < 0 → ∀ m'' u, (pmmFreePageAddress (f * pageSize)).run m' = .ok (u, m'') →
      ∃ frames', Building freeAddr entriesAddr entries live proc dir m'' frames') ∧
    (¬ r < 0 → ∃ frames', Building freeAddr entriesAddr entries live proc dir m' frames' ∧
      pageFrame m'.state proc (vmmPdeIndex vaddr) (vmmPteIndex vaddr) = some f) := by
  obtain ⟨q, hq, rfl⟩ := h.pageDir
  obtain rfl : q = p := Option.some.inj (hq.symm.trans hp)
  have h0 := h.ne
  obtain ⟨hp', frames', -, hinv', hloose, hmapped⟩ :=
    h.inv.vmmMap hboot hrun (page_mem_building vaddr) (dirFrame_eq hp h0) hflag hf
  refine ⟨fun hr m'' u hfree => ?_, fun hr => ⟨frames', ⟨hinv', ⟨q, by rw [hp']; exact hp, rfl⟩, h0⟩, hmapped hr⟩⟩
  have hl := hloose hr
  have hnum : pageNumber (f * pageSize) = f := by
    have := (hinv'.frame_spec hboot hl.mem).2.1
    simp only [pageNumber, u32, pageSize]
    omega
  obtain ⟨hp'', -, hinv''⟩ := hinv'.freeLoose hboot (Scope.user_subset_building proc) hfree hnum hl
  exact ⟨_, hinv'', ⟨q, by rw [hp'', hp']; exact hp, rfl⟩, h0⟩

/-! ### ELF images -/

theorem memcpyElf (h : Building freeAddr entriesAddr entries live proc dir m frames) {off count pde pte : Nat}
    {src : Nat → UInt8} (hrun : (memcpyElf (f * pageSize) off count src).run m = .ok (u, m')) (hlt : f < 0xFFFFF)
    (hS : .page proc pde pte ∈ (Scope.building proc).slots) (hpage : pageFrame m.state proc pde pte = some f) :
    Building freeAddr entriesAddr entries live proc dir m' frames := by
  unfold Proc.memcpyElf at hrun
  obtain ⟨s, m₁, h₁, h₂⟩ := Exec.bind_ok.mp hrun
  obtain ⟨rfl, rfl⟩ := getState_ok.mp h₁
  dsimp only at h₂
  obtain ⟨hp, -, -, hinv⟩ := h.inv.storePage h₂
    (fun o ho hd => by rw [frame_cast hlt] at hd; cases h.inv.inj _ ho _ hS f hd hpage)
    (fun o pde ho ht => by rw [frame_cast hlt] at ht; cases h.inv.inj _ ho _ hS f ht hpage)
  exact ⟨hinv, by rw [hp]; exact h.pageDir, h.ne⟩

theorem loadPages (hboot : Pmm.BootOk freeAddr entriesAddr entries) {elf : Nat → UInt8} {vaddrEnd : Nat} :
    ∀ {fuel vaddr pageOffset fileOffset fileSize : Nat} {m : Machine} {frames : Finset (Nat × Nat)} {b : Bool},
      Building freeAddr entriesAddr entries live proc dir m frames →
      (loadPages elf proc vaddrEnd fuel vaddr pageOffset fileOffset fileSize).run m = .ok (b, m') →
      ∃ frames', Building freeAddr entriesAddr entries live proc dir m' frames' := by
  intro fuel
  induction fuel with
  | zero =>
    intro _ _ _ _ m frames b h hrun
    exact absurd hrun Exec.throw_ok
  | succ fuel ih =>
    intro vaddr pageOffset fileOffset fileSize m frames b h hrun
    unfold Proc.loadPages at hrun
    split at hrun
    · dsimp only at hrun
      obtain ⟨paddr, m₁, h₁, h₂⟩ := Exec.bind_ok.mp hrun
      obtain ⟨-, -, frames₁, hb₁, hnew⟩ := h.alloc hboot h₁
      split at h₂
      · obtain ⟨-, rfl⟩ := Exec.pure_ok.mp h₂
        exact ⟨frames₁, hb₁⟩
      · next h0 =>
        obtain ⟨f, rfl, hlt, hl⟩ := hnew h0
        obtain ⟨_, m₂, h₃, h₄⟩ := Exec.bind_ok.mp h₂
        obtain ⟨hb₂, href₂⟩ := hb₁.storePage h₃ (by rw [frame_cast hlt]; exact hl)
        obtain ⟨p, m₃, h₅, h₆⟩ := Exec.bind_ok.mp h₄
        obtain ⟨hp, rfl⟩ := getProc_ok.mp h₅
        obtain ⟨r, m₄, h₇, h₈⟩ := Exec.bind_ok.mp h₆
        obtain ⟨hfail, hok⟩ := hb₂.mapOrFree hboot hp (by decide) (hl.congr subset_rfl href₂) h₇
        split at h₈
        · next hr =>
          obtain ⟨_, m₅, h₉, h₁₀⟩ := Exec.bind_ok.mp h₈
          obtain ⟨-, rfl⟩ := Exec.pure_ok.mp h₁₀
          exact hfail hr _ _ h₉
        · next hr =>
          obtain ⟨frames₄, hb₄, hpage⟩ := hok hr
          obtain ⟨_, m₅, h₉, h₁₀⟩ := Exec.bind_ok.mp h₈
          obtain ⟨hb₅, href₅, -⟩ := hb₄.modifyProc h₉ (fun _ => rfl)
          obtain ⟨_, m₆, h₁₁, h₁₂⟩ := Exec.bind_ok.mp h₁₀
          rw [← ref_page, ← href₅, ref_page] at hpage
          exact ih (hb₅.memcpyElf h₁₁ hlt (page_mem_building vaddr) hpage) h₁₂
    · obtain ⟨-, rfl⟩ := Exec.pure_ok.mp hrun
      exact ⟨frames, h⟩

theorem loadFromPht (hboot : Pmm.BootOk freeAddr entriesAddr entries) {elf : Nat → UInt8} {size entrySize : Nat} :
    ∀ {num pht : Nat} {m : Machine} {frames : Finset (Nat × Nat)} {b : Bool},
      Building freeAddr entriesAddr entries live proc dir m frames →
      (loadFromPht elf size entrySize proc num pht).run m = .ok (b, m') →
      ∃ frames', Building freeAddr entriesAddr entries live proc dir m' frames' := by
  intro num
  induction num with
  | zero =>
    intro pht m frames b h hrun
    obtain ⟨-, rfl⟩ := Exec.pure_ok.mp hrun
    exact ⟨frames, h⟩
  | succ num ih =>
    intro pht m frames b h hrun
    unfold Proc.loadFromPht at hrun
    dsimp only at hrun
    split at hrun
    · obtain ⟨ok, m₁, h₁, h₂⟩ := Exec.bind_ok.mp hrun
      have hb₁ : ∃ frames', Building freeAddr entriesAddr entries live proc dir m₁ frames' := by
        unfold loadFromProgHeader at h₁
        dsimp only at h₁
        split_ifs at h₁
        · obtain ⟨-, rfl⟩ := Exec.pure_ok.mp h₁
          exact ⟨frames, h⟩
        · obtain ⟨-, rfl⟩ := Exec.pure_ok.mp h₁
          exact ⟨frames, h⟩
        · obtain ⟨-, rfl⟩ := Exec.pure_ok.mp h₁
          exact ⟨frames, h⟩
        · exact loadPages hboot h h₁
      obtain ⟨frames₁, hb₁⟩ := hb₁
      split at h₂
      · exact ih hb₁ h₂
      · obtain ⟨-, rfl⟩ := Exec.pure_ok.mp h₂
        exact ⟨frames₁, hb₁⟩
    · exact ih h hrun

theorem elfLoadProgram (h : Building freeAddr entriesAddr entries live proc dir m frames)
    (hboot : Pmm.BootOk freeAddr entriesAddr entries) {elf : Nat → UInt8} {size : Nat} {b : Bool}
    (hrun : (elfLoadProgram elf size proc).run m = .ok (b, m')) :
    ∃ frames', Building freeAddr entriesAddr entries live proc dir m' frames' := by
  unfold Proc.elfLoadProgram at hrun
  dsimp only at hrun
  have hstay : m' = m → ∃ frames', Building freeAddr entriesAddr entries live proc dir m' frames' := by
    rintro rfl
    exact ⟨frames, h⟩
  split_ifs at hrun
  · exact hstay (Exec.pure_ok.mp hrun).2.symm
  · exact hstay (Exec.pure_ok.mp hrun).2.symm
  · exact hstay (Exec.pure_ok.mp hrun).2.symm
  · exact hstay (Exec.pure_ok.mp hrun).2.symm
  · obtain ⟨ok, m₁, h₁, h₂⟩ := Exec.bind_ok.mp hrun
    obtain ⟨frames₁, hb₁⟩ := loadFromPht hboot h h₁
    split at h₂
    · obtain ⟨_, m₂, h₃, h₄⟩ := Exec.bind_ok.mp h₂
      obtain ⟨-, rfl⟩ := Exec.pure_ok.mp h₄
      exact ⟨frames₁, (hb₁.modifyProc h₃ (fun _ => rfl)).1⟩
    · obtain ⟨-, rfl⟩ := Exec.pure_ok.mp h₂
      exact ⟨frames₁, hb₁⟩

/-! ### Stacks -/

theorem allocProcStack (h : Building freeAddr entriesAddr entries live proc dir m frames)
    (hboot : Pmm.BootOk freeAddr entriesAddr entries) {top flag : Nat} (hflag : flag < pageSize) {b : Bool}
    (hrun : (allocProcStack proc top flag).run m = .ok (b, m')) :
    ∃ frames', Building freeAddr entriesAddr entries live proc dir m' frames' := by
  unfold Proc.allocProcStack at hrun
  obtain ⟨paddr, m₁, h₁, h₂⟩ := Exec.bind_ok.mp hrun
  obtain ⟨-, -, frames₁, hb₁, hnew⟩ := h.alloc hboot h₁
  split at h₂
  · obtain ⟨-, rfl⟩ := Exec.pure_ok.mp h₂
    exact ⟨frames₁, hb₁⟩
  · next h0 =>
    obtain ⟨f, rfl, -, hl⟩ := hnew h0
    obtain ⟨p, m₂, h₃, h₄⟩ := Exec.bind_ok.mp h₂
    obtain ⟨hp, rfl⟩ := getProc_ok.mp h₃
    obtain ⟨r, m₃, h₅, h₆⟩ := Exec.bind_ok.mp h₄
    obtain ⟨hfail, hok⟩ := hb₁.mapOrFree hboot hp hflag hl h₅
    split at h₆
    · next hr =>
      obtain ⟨_, m₄, h₇, h₈⟩ := Exec.bind_ok.mp h₆
      obtain ⟨-, rfl⟩ := Exec.pure_ok.mp h₈
      exact hfail hr _ _ h₇
    · next hr =>
      obtain ⟨frames₃, hb₃, -⟩ := hok hr
      obtain ⟨_, m₄, h₇, h₈⟩ := Exec.bind_ok.mp h₆
      obtain ⟨-, rfl⟩ := Exec.pure_ok.mp h₈
      exact ⟨frames₃, (hb₃.modifyProc h₇ (fun _ => rfl)).1⟩

theorem allocProcStacks (h : Building freeAddr entriesAddr entries live proc dir m frames)
    (hboot : Pmm.BootOk freeAddr entriesAddr entries) {b : Bool} (hrun : (allocProcStacks proc).run m = .ok (b, m')) :
    ∃ frames', Building freeAddr entriesAddr entries live proc dir m' frames' := by
  unfold Proc.allocProcStacks at hrun
  obtain ⟨ok, m₁, h₁, h₂⟩ := Exec.bind_ok.mp hrun
  obtain ⟨frames₁, hb₁⟩ := h.allocProcStack hboot (by decide) h₁
  split at h₂
  · obtain ⟨ok', m₂, h₃, h₄⟩ := Exec.bind_ok.mp h₂
    obtain ⟨frames₂, hb₂⟩ := hb₁.allocProcStack hboot (by decide) h₃
    split at h₄
    · obtain ⟨_, m₃, h₅, h₆⟩ := Exec.bind_ok.mp h₄
      obtain ⟨-, rfl⟩ := Exec.pure_ok.mp h₆
      exact ⟨frames₂, (hb₂.modifyProc h₅ (fun _ => rfl)).1⟩
    · obtain ⟨-, rfl⟩ := Exec.pure_ok.mp h₄
      exact ⟨frames₂, hb₂⟩
  · obtain ⟨-, rfl⟩ := Exec.pure_ok.mp h₂
    exact ⟨frames₁, hb₁⟩

/-! ### Copies -/

/-- A page of another process is copied into a table of the new one. -/
theorem clonePtes (hboot : Pmm.BootOk freeAddr entriesAddr entries) {pageTab cloneTab pde : Nat} (hpde : pde < userPdes) :
    ∀ {l : List Nat} {m : Machine} {frames : Finset (Nat × Nat)} {b : Bool},
      Building freeAddr entriesAddr entries live proc dir m frames →
      tableFrame m.state proc pde = some (Slab.frame cloneTab) →
      (clonePtes proc pageTab cloneTab l).run m = .ok (b, m') →
      ∃ frames', Building freeAddr entriesAddr entries live proc dir m' frames' := by
  have hS : ∀ pte, .page proc pde pte ∈ (Scope.building proc).slots := fun pte =>
    Scope.user_subset_building proc hpde
  intro l
  induction l with
  | nil =>
    intro m frames b h _ hrun
    obtain ⟨-, rfl⟩ := Exec.pure_ok.mp hrun
    exact ⟨frames, h⟩
  | cons pte l ih =>
    intro m frames b h ht hrun
    unfold Proc.clonePtes at hrun
    obtain ⟨⟨page, flag⟩, m₁, h₁, h₂⟩ := Exec.bind_ok.mp hrun
    obtain ⟨w, m₂, h₃, h₄⟩ := Exec.bind_ok.mp h₁
    obtain ⟨-, rfl⟩ := load_ok.mp h₃
    obtain ⟨e, rfl⟩ := Exec.pure_ok.mp h₄
    obtain ⟨rfl, rfl⟩ := Prod.mk.inj e
    dsimp only at h₂
    split at h₂
    · exact ih h ht h₂
    · obtain ⟨paddr, m₃, h₅, h₆⟩ := Exec.bind_ok.mp h₂
      obtain ⟨href₃, -, frames₃, hb₃, hnew⟩ := h.alloc hboot h₅
      split at h₆
      · obtain ⟨-, rfl⟩ := Exec.pure_ok.mp h₆
        exact ⟨frames₃, hb₃⟩
      · next h0 =>
        obtain ⟨f, rfl, hlt, hl⟩ := hnew h0
        obtain ⟨s, m₄, h₇, h₈⟩ := Exec.bind_ok.mp h₆
        obtain ⟨rfl, rfl⟩ := getState_ok.mp h₇
        obtain ⟨_, m₅, h₉, h₁₀⟩ := Exec.bind_ok.mp h₈
        obtain ⟨hb₅, href₅⟩ := hb₃.storePage h₉ (by rw [frame_cast hlt]; exact hl)
        obtain ⟨_, m₆, h₁₁, h₁₂⟩ := Exec.bind_ok.mp h₁₀
        have ht₅ : tableFrame m₅.state proc pde = some (Slab.frame cloneTab) := by
          rw [← ref_table, href₅ _ ((Scope.building proc).table_mem (hS pte)), href₃]
          exact ht
        obtain ⟨hp₆, hinv₆, href₆⟩ := hb₅.inv.mapPage hboot h₁₁ (hS pte) ht₅ (Nat.mod_lt _ (by decide))
          (hl.congr subset_rfl href₅)
        obtain ⟨_, m₇, h₁₃, h₁₄⟩ := Exec.bind_ok.mp h₁₂
        obtain ⟨hb₇, href₇, -⟩ := modifyProc ⟨hinv₆, by rw [hp₆]; exact hb₅.pageDir, h.ne⟩ h₁₃ (fun _ => rfl)
        refine ih hb₇ ?_ h₁₄
        rw [← ref_table, href₇, href₆ _ ((Scope.building proc).table_mem (hS pte)), if_neg (by simp)]
        exact ht₅

theorem clonePdes (hboot : Pmm.BootOk freeAddr entriesAddr entries) {pageDir : Nat} :
    ∀ {l : List Nat} {m : Machine} {frames : Finset (Nat × Nat)} {b : Bool}, (∀ pde ∈ l, pde < userPdes) →
      Building freeAddr entriesAddr entries live proc dir m frames →
      (clonePdes proc pageDir dir l).run m = .ok (b, m') →
      ∃ frames', Building freeAddr entriesAddr entries live proc dir m' frames' := by
  intro l
  induction l with
  | nil =>
    intro m frames b _ h hrun
    obtain ⟨-, rfl⟩ := Exec.pure_ok.mp hrun
    exact ⟨frames, h⟩
  | cons pde l ih =>
    intro m frames b hl h hrun
    have hpde := hl pde List.mem_cons_self
    have hl' : ∀ pde ∈ l, pde < userPdes := fun i hi => hl i (List.mem_cons_of_mem _ hi)
    have hS : .table proc pde ∈ (Scope.building proc).slots := Scope.user_subset_building proc hpde
    unfold Proc.clonePdes at hrun
    obtain ⟨⟨pageTab, flag⟩, m₁, h₁, h₂⟩ := Exec.bind_ok.mp hrun
    obtain ⟨w, m₂, h₃, h₄⟩ := Exec.bind_ok.mp h₁
    obtain ⟨-, rfl⟩ := load_ok.mp h₃
    obtain ⟨e, rfl⟩ := Exec.pure_ok.mp h₄
    obtain ⟨rfl, rfl⟩ := Prod.mk.inj e
    dsimp only at h₂
    split at h₂
    · exact ih hl' h h₂
    · obtain ⟨tab, m₃, h₅, h₆⟩ := Exec.bind_ok.mp h₂
      obtain ⟨hp₃, -, frames₃, -, hinv₃, hnew⟩ := h.inv.allocEntries hboot h₅
      have hb₃ : Building freeAddr entriesAddr entries live proc dir m₃ frames₃ :=
        ⟨hinv₃, by rw [hp₃]; exact h.pageDir, h.ne⟩
      split at h₆
      · obtain ⟨-, rfl⟩ := Exec.pure_ok.mp h₆
        exact ⟨frames₃, hb₃⟩
      · next hne =>
        obtain ⟨t, htab, htlt, -, hloose, -, hempty⟩ := hnew hne
        rw [htab] at h₆
        obtain ⟨p, hp, hpd⟩ := hb₃.pageDir
        have hd : dirFrame m₃.state proc = some (Slab.frame dir) := by
          rw [← hpd]; exact dirFrame_eq hp (hpd ▸ h.ne)
        obtain ⟨_, m₄, h₇, h₈⟩ := Exec.bind_ok.mp h₆
        obtain ⟨hp₄, hinv₄, href₄⟩ := hinv₃.mapTable hboot h₇ hS hd (Nat.mod_lt _ (by decide))
          (virtualToPhysical_cast htlt) hloose hempty
        obtain ⟨_, m₅, h₉, h₁₀⟩ := Exec.bind_ok.mp h₈
        obtain ⟨hb₅, href₅, -⟩ := modifyProc ⟨hinv₄, by rw [hp₄]; exact hb₃.pageDir, h.ne⟩ h₉ (fun _ => rfl)
        have ht₅ : tableFrame m₅.state proc pde = some (Slab.frame (castPhysicalToVirtual (t * pageSize))) := by
          rw [← ref_table, href₅, href₄ _ hS, if_pos rfl, frame_cast htlt]
        obtain ⟨ok, m₆, h₁₁, h₁₂⟩ := Exec.bind_ok.mp h₁₀
        obtain ⟨frames₆, hb₆⟩ := clonePtes hboot hpde hb₅ ht₅ h₁₁
        split at h₁₂
        · exact ih hl' hb₆ h₁₂
        · obtain ⟨-, rfl⟩ := Exec.pure_ok.mp h₁₂
          exact ⟨frames₆, hb₆⟩

/-- After `pg_copy_kernel_space` only what is below `KERNEL_BASE` counts. -/
theorem pgCopyKernelSpace (h : Building freeAddr entriesAddr entries live proc dir m frames)
    (hrun : (pgCopyKernelSpace dir).run m = .ok (u, m')) :
    OpInv freeAddr entriesAddr entries Scope.user proc m' live frames := by
  unfold Proc.pgCopyKernelSpace at hrun
  obtain ⟨s, m₁, h₁, h₂⟩ := Exec.bind_ok.mp hrun
  obtain ⟨rfl, rfl⟩ := getState_ok.mp h₁
  dsimp only at h₂
  obtain ⟨hk, hm⟩ := storePage_spec h₂
  have hu := h.user
  obtain ⟨p, hp, hpd⟩ := h.pageDir
  have hd : dirFrame m₁.state proc = some (Slab.frame dir) := by
    rw [← hpd]; exact dirFrame_eq hp (hpd ▸ h.ne)
  have hwords : ∀ pde < userPdes, (if vmmPdeIndex kernelBase ≤ pde ∧ pde < numPde then
      m₁.state.mem (Slab.frame m₁.state.pgDir) pde else m₁.state.mem (Slab.frame dir) pde) =
        m₁.state.mem (Slab.frame dir) pde := by
    intro pde hpde
    rw [if_neg]
    rintro ⟨hle, -⟩
    exact absurd (hle.trans_lt hpde) (by decide)
  refine hu.memOnly hk fun a ha => ?_
  cases a with
  | dir o => exact dirFrame_congr hk.procs
  | table o pde => exact tableFrame_setMem hk.procs hm fun _ => hwords pde ha
  | page o pde pte =>
    refine pageFrame_setMem hk.procs hm (fun _ => hwords pde ha) fun ht => ?_
    have htable : Slot.table o pde ∈ Scope.user.slots := ha
    have hdir : Slot.dir proc ∈ Scope.user.slots := trivial
    cases hu.inj _ htable _ hdir _ ht hd

end Building

/-- The `page_dir` of a process that has none is set: to null or to a new directory. -/
theorem OpInv.setPageDir (h : OpInv freeAddr entriesAddr entries (Scope.building proc) proc m live frames)
    {p : Process} (hp : m.state.procs proc = some p) {g : Process → Process}
    (hrun : (Proc.modifyProc proc g).run m = .ok (u, m'))
    (hnew : (g p).pageDir ≠ 0 → Loose (Scope.building proc) m frames (Slab.frame (g p).pageDir) ∧
      ∀ i, m.state.mem (Slab.frame (g p).pageDir) i = vmmWritable) :
    OpInv freeAddr entriesAddr entries (Scope.building proc) proc m' live frames ∧
      m'.state.procs proc = some (g p) := by
  have hm' := update_ok.mp hrun
  have hprocs : m'.state.procs = Function.update m.state.procs proc (some (g p)) := by rw [hm', ← Option.map_some, ← hp]
  have hmem : m'.state.mem = m.state.mem := by rw [hm']
  have hother : ∀ o, o ≠ proc → dirFrame m'.state o = dirFrame m.state o := by
    intro o ho
    rw [dirFrame, dirFrame, hprocs, Function.update_of_ne ho]
  have hdir : dirFrame m'.state proc = if (g p).pageDir = 0 then none else some (Slab.frame (g p).pageDir) := by
    rw [dirFrame, hprocs, Function.update_self, Option.bind_some]
  have htable : ∀ pde, tableFrame m'.state proc pde = none := by
    intro pde
    rw [tableFrame, hdir]
    split_ifs with h0
    · rfl
    · rw [Option.bind_some, hmem, (hnew h0).2]; rfl
  refine ⟨h.step (.dir proc) (by rw [hm']) (by rw [hm']) (by rw [hm']) (fun o ho => ?_) (fun a ha f hf => ?_), ?_⟩
  · by_cases e : o = proc
    · rw [e, hp]; rfl
    · rwa [hprocs, Function.update_of_ne e] at ho
  · by_cases e : a.proc = proc
    · right
      cases a with
      | dir o =>
        obtain rfl : o = proc := e
        rw [ref_dir, hdir] at hf
        split_ifs at hf with h0
        obtain rfl := Option.some.inj hf
        exact ⟨rfl, (hnew h0).1⟩
      | table o pde =>
        obtain rfl : o = proc := e
        rw [ref_table, htable] at hf
        cases hf
      | page o pde pte =>
        obtain rfl : o = proc := e
        rw [ref_page, pageFrame, htable] at hf
        cases hf
    · left
      cases a with
      | dir o => rw [ref_dir, ← hother o e]; exact hf
      | table o pde => rwa [ref_table, tableFrame, hother o e, hmem] at hf
      | page o pde pte => rwa [ref_page, pageFrame, tableFrame, hother o e, hmem] at hf
  · rw [hprocs, Function.update_self]

/-- The new process gets a directory. -/
theorem OpInv.initPageDir (h : OpInv freeAddr entriesAddr entries Scope.user proc m live frames)
    (hboot : Pmm.BootOk freeAddr entriesAddr entries) {p : Process} (hp : m.state.procs proc = some p)
    (hp0 : p.pageDir = 0) {b : Bool} (hrun : (Proc.initPageDir proc).run m = .ok (b, m')) :
    ∃ frames', OpInv freeAddr entriesAddr entries Scope.user proc m' live frames' ∧
      (b = true → ∃ dir, Building freeAddr entriesAddr entries live proc dir m' frames') := by
  have hd : dirFrame m.state proc = none := by rw [dirFrame, hp, Option.bind_some, if_pos hp0]
  unfold Proc.initPageDir at hrun
  obtain ⟨ptr, m₁, h₁, h₂⟩ := Exec.bind_ok.mp hrun
  obtain ⟨hp₁, -, frames₁, -, hinv₁, hnew⟩ := (h.building hd).allocEntries hboot h₁
  obtain ⟨_, m₂, h₃, h₄⟩ := Exec.bind_ok.mp h₂
  obtain ⟨hinv₂, hproc₂⟩ := hinv₁.setPageDir (by rw [hp₁]; exact hp) h₃ (fun h0 => by
    obtain ⟨t, ht, htlt, -, hl, -, hempty⟩ := hnew h0
    rw [ht, frame_cast htlt]
    exact ⟨hl, hempty⟩)
  split at h₄
  · obtain ⟨rfl, rfl⟩ := Exec.pure_ok.mp h₄
    exact ⟨frames₁, hinv₂.mono (Scope.user_subset_building proc), fun hb => absurd hb (by decide)⟩
  · next hne =>
    obtain ⟨_, m₃, h₅, h₆⟩ := Exec.bind_ok.mp h₄
    obtain ⟨-, rfl⟩ := Exec.pure_ok.mp h₆
    have hb₃ := (Building.modifyProc ⟨hinv₂, ⟨_, hproc₂, rfl⟩, hne⟩ h₅ (fun _ => rfl)).1
    exact ⟨frames₁, hb₃.user, fun _ => ⟨ptr, hb₃⟩⟩

theorem OpInv.initProcFromElf (h : OpInv freeAddr entriesAddr entries Scope.user proc m live frames)
    (hboot : Pmm.BootOk freeAddr entriesAddr entries) {p : Process} (hp : m.state.procs proc = some p)
    (hp0 : p.pageDir = 0) {elf : Nat → UInt8} {size : Nat} {b : Bool}
    (hrun : (Proc.initProcFromElf proc elf size).run m = .ok (b, m')) :
    ∃ frames', OpInv freeAddr entriesAddr entries Scope.user proc m' live frames' := by
  unfold Proc.initProcFromElf at hrun
  obtain ⟨ok₁, m₁, h₁, h₂⟩ := Exec.bind_ok.mp hrun
  obtain ⟨frames₁, hinv₁, hok₁⟩ := h.initPageDir hboot hp hp0 h₁
  split at h₂
  · next e₁ =>
    obtain ⟨dir, hb₁⟩ := hok₁ e₁
    obtain ⟨ok₂, m₂, h₃, h₄⟩ := Exec.bind_ok.mp h₂
    obtain ⟨frames₂, hb₂⟩ := hb₁.elfLoadProgram hboot h₃
    split at h₄
    · obtain ⟨ok₃, m₃, h₅, h₆⟩ := Exec.bind_ok.mp h₄
      obtain ⟨frames₃, hb₃⟩ := hb₂.allocProcStacks hboot h₅
      split at h₆
      · obtain ⟨q, m₄, h₇, h₈⟩ := Exec.bind_ok.mp h₆
        obtain ⟨hq, rfl⟩ := getProc_ok.mp h₇
        obtain ⟨_, m₅, h₉, h₁₀⟩ := Exec.bind_ok.mp h₈
        obtain ⟨-, rfl⟩ := Exec.pure_ok.mp h₁₀
        obtain ⟨q', hq', hdir⟩ := hb₃.pageDir
        rw [Option.some.inj (hq.symm.trans hq'), hdir] at h₉
        exact ⟨frames₃, hb₃.pgCopyKernelSpace h₉⟩
      · obtain ⟨-, rfl⟩ := Exec.pure_ok.mp h₆
        exact ⟨frames₃, hb₃.user⟩
    · obtain ⟨-, rfl⟩ := Exec.pure_ok.mp h₄
      exact ⟨frames₂, hb₂.user⟩
  · obtain ⟨-, rfl⟩ := Exec.pure_ok.mp h₂
    exact ⟨frames₁, hinv₁⟩

theorem OpInv.initProcFromProc (h : OpInv freeAddr entriesAddr entries Scope.user proc m live frames)
    (hboot : Pmm.BootOk freeAddr entriesAddr entries) {p : Process} (hp : m.state.procs proc = some p)
    (hp0 : p.pageDir = 0) {parent : Nat} {b : Bool} (hrun : (Proc.initProcFromProc proc parent).run m = .ok (b, m')) :
    ∃ frames', OpInv freeAddr entriesAddr entries Scope.user proc m' live frames' := by
  unfold Proc.initProcFromProc at hrun
  obtain ⟨ok₁, m₁, h₁, h₂⟩ := Exec.bind_ok.mp hrun
  obtain ⟨frames₁, hinv₁, hok₁⟩ := h.initPageDir hboot hp hp0 h₁
  split at h₂
  · next e₁ =>
    obtain ⟨dir, hb₁⟩ := hok₁ e₁
    obtain ⟨q, m₂, h₃, h₄⟩ := Exec.bind_ok.mp h₂
    obtain ⟨-, rfl⟩ := getProc_ok.mp h₃
    obtain ⟨c, m₃, h₅, h₆⟩ := Exec.bind_ok.mp h₄
    obtain ⟨hc, rfl⟩ := getProc_ok.mp h₅
    obtain ⟨c', hc', hdir⟩ := hb₁.pageDir
    rw [Option.some.inj (hc.symm.trans hc'), hdir] at h₆
    obtain ⟨ok₂, m₄, h₇, h₈⟩ := Exec.bind_ok.mp h₆
    obtain ⟨frames₄, hb₄⟩ := Building.clonePdes hboot (fun pde hpde => List.mem_range.mp hpde) hb₁ h₇
    split at h₈
    · obtain ⟨_, m₅, h₉, h₁₀⟩ := Exec.bind_ok.mp h₈
      obtain ⟨-, rfl⟩ := Exec.pure_ok.mp h₁₀
      exact ⟨frames₄, hb₄.pgCopyKernelSpace h₉⟩
    · obtain ⟨-, rfl⟩ := Exec.pure_ok.mp h₈
      exact ⟨frames₄, hb₄.user⟩
  · obtain ⟨-, rfl⟩ := Exec.pure_ok.mp h₂
    exact ⟨frames₁, hinv₁⟩

end
end Airix.Proc
