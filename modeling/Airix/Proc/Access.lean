import Airix.Proc.System

/-!
# What a program can reach

The page walk in the directory of a process, which the scheduler puts into `CR3` before it switches to the process.
-/

namespace Airix.Proc
open Paging (hasFlag)

/-- The page walk finds the address, and lets user code there. -/
def UserAccess (s : State) (p : Process) (vaddr : Nat) : Prop :=
  ∃ x, Paging.walk s.mem (castVirtualToPhysical p.pageDir) vaddr = some x ∧ x.user = true

/-! ### Flags of an entry -/

theorem hasFlag_entryFlag {w flag : Nat} (hf : 7 &&& flag = flag) : hasFlag (entryFlag w) flag = hasFlag w flag := by
  have hmod : entryFlag w % 8 = w % 8 := Nat.mod_mod_of_dvd w (by decide)
  rw [Paging.hasFlag_eq hf, hmod, ← Paging.hasFlag_eq hf]

theorem hasFlag_present (w : Nat) : hasFlag w vmmPresent = true ↔ w % 2 = 1 := by
  rw [hasFlag, show vmmPresent = 1 from rfl, Nat.and_one_is_mod, decide_eq_true_iff]
  omega

section
variable {s : State} {o : Nat} {z : Space} {b : Place} {i : Nat}

/-- What an entry of a complete space says. -/
theorem Settled.entry_spec (h : Settled s o z) (hb : b ∈ z.places) (he : b.HasEntries) (hi : i < z.size b) :
    (hasFlag (s.mem (z.frame b) i) vmmPresent = true ↔ z.flag (b.entry i) ≠ none) ∧
    ∀ k, z.flag (b.entry i) = some k → entryAddress (s.mem (z.frame b) i) = z.frame (b.entry i) * pageSize ∧
      b.entry i ∈ z.places ∧ hasFlag (s.mem (z.frame b) i) vmmWritable = hasFlag k vmmWritable ∧
        hasFlag (s.mem (z.frame b) i) vmmUser = hasFlag k vmmUser := by
  have hentry := (h.fits b hb).entry he hi
  refine ⟨(hasFlag_present _).trans (hentry.present_iff h.ok), fun k hk => ?_⟩
  obtain ⟨haddr, hflag⟩ := hentry.some_eq h.ok hk
  refine ⟨haddr, (h.ok.flag _ k hk).1, ?_, ?_⟩ <;> rw [← hflag, hasFlag_entryFlag (by decide)]

/-- Below `KERNEL_BASE` the walk finds the pages of the space. -/
theorem Settled.walk_eq (h : Settled s o z) {vaddr : Nat} (hv : vaddr < kernelBase) :
    Paging.walk s.mem (castVirtualToPhysical z.proc.pageDir) vaddr = (z.flag (vpage (vaddr / pageSize))).map fun k =>
      let t := (z.flag (.table (vaddr / pageSize / numPte))).getD 0
      ⟨z.frame (vpage (vaddr / pageSize)) * pageSize + vaddr % pageSize, hasFlag t vmmWritable ∧ hasFlag k vmmWritable,
        hasFlag t vmmUser ∧ hasFlag k vmmUser⟩ := by
  obtain ⟨hpde, hpte⟩ := Place.page.inj (vpage_eq (hv.trans (by decide)))
  have hdir : pageNumber (castVirtualToPhysical z.proc.pageDir) = z.frame .dir := by
    rw [h.pageDir]
    exact h.frame_ptr h.dir
  have hlimit : vaddr / pageSize / numPte < z.limit := by
    rw [h.limit]
    unfold userPdes kernelBase numPte pageSize at *
    omega
  have hspec := h.entry_spec h.dir trivial (i := vaddr / pageSize / numPte) hlimit
  unfold Paging.walk
  rw [hdir, hpde, hpte]
  dsimp only [Place.entry] at hspec ⊢
  generalize s.mem (z.frame .dir) (vaddr / pageSize / numPte) = pde at hspec
  obtain ⟨hpresent, hsome⟩ := hspec
  cases ht : z.flag (.table (vaddr / pageSize / numPte)) with
  | none =>
    have hp : z.flag (vpage (vaddr / pageSize)) = none :=
      h.ok.flag_none fun hm => (h.flag_iff (by simp) (by simp)).mp ht (h.ok.page _ _ hm).1
    rw [hp, if_neg fun hc => hpresent.mp hc.1 ht]
    rfl
  | some t =>
    obtain ⟨haddr, hmem, hw, hu⟩ := hsome t ht
    have hspec := h.entry_spec hmem trivial (i := vaddr / pageSize % numPte) (Nat.mod_lt _ (by decide))
    have hlt := (h.used _ hmem).2.1
    rw [haddr, Paging.pageNumber_mul (hlt.trans (by decide)), hw, hu]
    dsimp only [Place.entry] at hspec ⊢
    generalize s.mem (z.frame (.table (vaddr / pageSize / numPte))) (vaddr / pageSize % numPte) = pte at hspec
    obtain ⟨hpresent', hsome'⟩ := hspec
    have hp := hpresent.mpr (by rw [ht]; simp)
    cases hk : z.flag (vpage (vaddr / pageSize)) with
    | none =>
      rw [if_neg fun hc => hpresent'.mp hc.2 hk]
      rfl
    | some k =>
      obtain ⟨haddr', -, hw', hu'⟩ := hsome' k hk
      rw [if_pos ⟨hp, hpresent'.mpr (by rw [show Place.page _ _ = vpage (vaddr / pageSize) from rfl, hk]; simp)⟩, haddr',
        hw', hu']
      rfl

end

/-! ### From `KERNEL_BASE` on -/

section
variable {B : Boot} {σ : Sys} {o : Nat} {z : Space} {p : Process} {elf : Nat → UInt8} {vaddr : Nat}

/-- The kernel's entries are not for user code. -/
theorem Boot.kernel_entry {i : Nat} (hi : i < numPde) : hasFlag (B.machine.mem (Paging.dirFrame B.freeAddr) i) vmmUser = false := by
  obtain ⟨hw, hu⟩ := B.paging
  by_cases hk : B.tables ≤ (i + 256) % 1024
  · rw [hu i hi hk]
    decide
  · have hdir := hw.dir ((i + 256) % 1024) (by omega)
    rw [show (768 + (i + 256) % 1024) % 1024 = i by unfold numPde at hi; omega] at hdir
    rw [hdir]
    exact (Paging.hasFlag_entry _).2.2

theorem Owns.not_userAccess (h : Owns σ o z) (hinv : Inv B σ) (hv : kernelBase ≤ vaddr) (hlt : vaddr < 2 ^ 32) :
    ¬ UserAccess σ.state z.proc vaddr := by
  rintro ⟨x, hx, huser⟩
  have hdir : pageNumber (castVirtualToPhysical z.proc.pageDir) = z.frame .dir := by
    rw [h.settled.pageDir]
    exact h.settled.frame_ptr h.settled.dir
  have hi : userPdes ≤ vmmPdeIndex vaddr ∧ vmmPdeIndex vaddr < numPde := by
    unfold userPdes vmmPdeIndex kernelBase numPte pageSize numPde at *
    omega
  have hword : σ.state.mem (z.frame .dir) (vmmPdeIndex vaddr) = z.words .dir (vmmPdeIndex vaddr) := by
    have hfit := h.settled.fits _ h.settled.dir
    exact hfit.2 _ (h.settled.limit.trans_le hi.1) hi.2
  have hentry : hasFlag (σ.state.mem (z.frame .dir) (vmmPdeIndex vaddr)) vmmUser = false := by
    rw [hword, h.settled.kernel _ hi.1 hi.2, hinv.pgDir, hinv.kernel _ Boot.kernelFrame_pgDir, Boot.frame_pgDir]
    exact Boot.kernel_entry hi.2
  unfold Paging.walk at hx
  rw [hdir] at hx
  dsimp only at hx
  split_ifs at hx
  obtain rfl := Option.some.inj hx
  simp [hentry] at huser

/-- In every run: what user code of a process can reach are the pages of the segments of its program below
`KERNEL_BASE` and the page of its stack; not its kernel stack, and nothing from `KERNEL_BASE` on. -/
theorem user_access (h : Life B σ) (hprog : σ.program o = some elf) (hp : σ.state.procs o = some p) (hb : Bounded elf)
    (hv : vaddr < 2 ^ 32) :
    (UserAccess σ.state p vaddr ↔
      vaddr < kernelBase ∧ (vaddr / pageSize ∈ pagesOf (segments elf) ∨ vaddr / pageSize = userStackPage)) ∧
      (vaddr / pageSize = kernelStackPage → ¬ UserAccess σ.state p vaddr) := by
  have hinv := h.inv
  obtain ⟨z, hz⟩ := hinv.procs o p hp
  obtain rfl : z.proc = p := Option.some.inj (hz.settled.proc.symm.trans hp)
  have hr := hz.rights elf hprog hb
  by_cases hlow : vaddr < kernelBase
  swap
  · have hno := hz.not_userAccess hinv (not_lt.mp hlow) hv
    exact ⟨iff_of_false hno fun hc => hlow hc.1, fun _ => hno⟩
  have hlimit : vaddr / pageSize / numPte < z.limit := by
    rw [hz.settled.limit]
    unfold userPdes kernelBase numPte pageSize at *
    omega
  have hiff : UserAccess σ.state z.proc vaddr ↔ z.flag (vpage (vaddr / pageSize)) = some 7 := by
    unfold UserAccess
    rw [hz.settled.walk_eq hlow]
    constructor
    · rintro ⟨x, hx, huser⟩
      obtain ⟨k, hk, rfl⟩ := Option.map_eq_some_iff.mp hx
      rcases hr.only _ k hk with rfl | hn
      · exact hk
      · rw [hn, hr.stack] at hk
        obtain rfl := Option.some.inj hk
        simp [show hasFlag 3 vmmUser = false by decide] at huser
    · intro hk
      rw [hk, Option.map_some, hr.table _ hk]
      refine ⟨_, rfl, ?_⟩
      show decide (hasFlag 7 vmmUser = true ∧ hasFlag 7 vmmUser = true) = true
      decide
  refine ⟨?_, fun hn => ?_⟩
  · rw [hiff, hr.user _ hlimit]
    exact ⟨fun hc => ⟨hlow, hc⟩, fun hc => hc.2⟩
  · rw [hiff, hn, hr.stack]
    simp

end

theorem user_access_tiny : ∃ σ o p, Life tinyBoot σ ∧ σ.state.procs o = some p ∧ UserAccess σ.state p 0x1234 ∧
    ¬ UserAccess σ.state p 0x2000 ∧ ¬ UserAccess σ.state p (kernelStackPage * pageSize) ∧
      ¬ UserAccess σ.state p kernelBase := by
  obtain ⟨σ, o, p, -, -, hlife, hprog, hp, -⟩ := tinyRun_ok (x := fun _ => (pure () : M Unit)) (P := fun _ _ => true)
    (by decide +kernel)
  refine ⟨σ, o, p, hlife, hp, ?_, ?_, ?_, ?_⟩
  · exact (user_access hlife hprog hp bounded_smallElf (by decide)).1.mpr
      ⟨by decide, .inl (mem_pagesOf_smallElf.mpr rfl)⟩
  · rw [(user_access hlife hprog hp bounded_smallElf (by decide)).1, mem_pagesOf_smallElf]
    decide
  · exact (user_access hlife hprog hp bounded_smallElf (by decide)).2 (by decide)
  · rw [(user_access hlife hprog hp bounded_smallElf (by decide)).1]
    exact fun h => absurd h.1 (lt_irrefl _)

end Airix.Proc
