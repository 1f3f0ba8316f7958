import Airix.Proc.Settled

/-!
# The pages of a program

What `init_proc_from_elf` leaves in a space: which pages there are, and with which flags. A directory entry has the
flags of the first page that was mapped behind it.
-/

namespace Airix.Proc
open Exec (After)

namespace Space

/-- The pages of the segments and the user stack are for the user, in both entries; the kernel stack is not. -/
structure Rights (elf : Nat → UInt8) (x : Space) : Prop where
  user : ∀ n, n / numPte < x.limit → (x.flag (vpage n) = some 7 ↔ n ∈ pagesOf (segments elf) ∨ n = userStackPage)
  only : ∀ n k, x.flag (vpage n) = some k → k = 7 ∨ n = kernelStackPage
  stack : x.flag (vpage kernelStackPage) = some 3
  table : ∀ n, x.flag (vpage n) = some 7 → x.flag (.table (n / numPte)) = some 7
  covered : ∀ pde, x.flag (.table pde) ≠ none → ∃ n, n / numPte = pde ∧ x.flag (vpage n) ≠ none

variable {x y y' z : Space} {elf : Nat → UInt8} {P : Nat → (Nat → Nat) → Prop}

theorem Loads.covered {k : Nat} {new : Set Nat} (h : Loads k new P x y)
    (hx : ∀ pde, x.flag (.table pde) ≠ none → ∃ n, n / numPte = pde ∧ x.flag (vpage n) ≠ none) (pde : Nat)
    (hy : y.flag (.table pde) ≠ none) : ∃ n, n / numPte = pde ∧ y.flag (vpage n) ≠ none := by
  by_cases hex : ∃ n ∈ new, n / numPte = pde
  · obtain ⟨n, hn, e⟩ := hex
    exact ⟨n, e, by rw [(h.page n hn).1]; simp⟩
  · push Not at hex
    have hxt : x.flag (.table pde) ≠ none := fun hnone => hy (h.table_none pde hnone hex)
    obtain ⟨n, e, hn⟩ := hx pde hxt
    refine ⟨n, e, ?_⟩
    rw [(h.old n fun hm => hex n hm e).1]
    exact hn

theorem Rights.of_loads (hx : x.flag = fun _ => none) (h : Loads 7 (pagesOf (segments elf)) P x y)
    (h' : Loads 3 {kernelStackPage} P y y') (h'' : Loads 7 {userStackPage} P y' z) : Rights elf z := by
  classical
  have hne : userStackPage / numPte ≠ kernelStackPage / numPte := by decide
  have hne' : kernelStackPage ≠ userStackPage := by decide
  have hkernel : kernelStackPage ∉ pagesOf (segments elf) := by
    intro hm
    have hfresh := h'.fresh _ rfl
    rw [(h.page _ hm).1] at hfresh
    cases hfresh
  have hstack : z.flag (vpage kernelStackPage) = some 3 := by
    rw [(h''.old _ hne').1]
    exact (h'.page _ rfl).1
  have hother : ∀ n, n ≠ kernelStackPage → n ≠ userStackPage → z.flag (vpage n) = y.flag (vpage n) := by
    intro n hk hu
    rw [(h''.old n hu).1, (h'.old n hk).1]
  have hload : ∀ n, y.flag (vpage n) = if n ∈ pagesOf (segments elf) then some 7 else none := by
    intro n
    split_ifs with hm
    · exact (h.page n hm).1
    · rw [(h.old n hm).1, hx]
  have huser : z.flag (vpage userStackPage) = some 7 := (h''.page _ rfl).1
  refine ⟨fun n _ => ?_, fun n k hk => ?_, hstack, fun n hn => ?_,
    h''.covered (h'.covered (h.covered fun pde hp => absurd (by rw [hx]) hp))⟩
  · by_cases hu : n = userStackPage
    · simp [hu, huser]
    by_cases hk : n = kernelStackPage
    · subst hk
      simp [hstack, hkernel, hne']
    rw [hother n hk hu, hload]
    simp [hu]
  · by_cases hn : n = kernelStackPage
    · exact .inr hn
    refine .inl ?_
    by_cases hu : n = userStackPage
    · rw [hu, huser] at hk
      exact (Option.some.inj hk).symm
    rw [hother n hn hu, hload] at hk
    split_ifs at hk
    exact (Option.some.inj hk).symm
  · by_cases ht : y.flag (.table (n / numPte)) = none
    · -- only the stack can be the first page there
      have hu : n = userStackPage := by
        by_contra hu
        have hk : n ≠ kernelStackPage := by
          rintro rfl
          rw [hstack] at hn
          cases hn
        rw [hother n hk hu, hload] at hn
        split_ifs at hn with hm
        rw [h.table_new n hm (by rw [hx])] at ht
        cases ht
      subst hu
      have ht' : y'.flag (.table (userStackPage / numPte)) = none := by
        refine h'.table_none _ ht ?_
        rintro j rfl
        exact hne.symm
      exact h''.table_new _ rfl ht'
    · have hold : z.flag (.table (n / numPte)) = y.flag (.table (n / numPte)) := by
        rw [h''.table_old _ (by rw [h'.table_old _ ht]; exact ht), h'.table_old _ ht]
      rw [hold]
      by_contra hbad
      by_cases hex : ∃ j ∈ pagesOf (segments elf), j / numPte = n / numPte
      · obtain ⟨j, hj, e⟩ := hex
        rw [← e] at hbad
        exact hbad (h.table_new j hj (by rw [hx]))
      · push Not at hex
        exact ht (h.table_none _ (by rw [hx]) hex)

theorem Rights.congr (h : Rights elf x) (hlimit : y.limit = userPdes) (hle : userPdes ≤ x.limit)
    (hflag : ∀ a : Place, a ≠ .dir → y.flag a = if a.User then x.flag a else none) : Rights elf y := by
  have hpage : ∀ n k, y.flag (vpage n) = some k → (vpage n).User ∧ x.flag (vpage n) = some k := by
    intro n k hk
    rw [hflag _ (by simp [vpage])] at hk
    split_ifs at hk with hu
    exact ⟨hu, hk⟩
  refine ⟨fun n hn => ?_, fun n k hk => h.only n k (hpage n k hk).2, ?_, fun n hn => ?_, fun pde hp => ?_⟩
  · rw [hlimit] at hn
    rw [hflag _ (by simp [vpage]), if_pos (vpage_user.mpr hn)]
    exact h.user n (lt_of_lt_of_le hn hle)
  · rw [hflag _ (by simp [vpage]), if_pos (vpage_user.mpr (by decide))]
    exact h.stack
  · obtain ⟨hu, hx⟩ := hpage n 7 hn
    have ht : (Place.table (n / numPte)).User := hu
    rw [hflag _ (by simp), if_pos ht]
    exact h.table n hx
  · rw [hflag _ (by simp)] at hp
    split_ifs at hp with hu
    · obtain ⟨n, e, hn⟩ := h.covered pde hp
      have hu' : (vpage n).User := by
        rw [vpage_user, e]
        exact hu
      refine ⟨n, e, ?_⟩
      rw [hflag _ (by simp [vpage]), if_pos hu']
      exact hn
    · exact absurd rfl hp

/-- Such segments leave nothing above it, and only such. -/
theorem Rights.allUser_iff (h : Rights elf x) (hok : x.Ok) (hx : x.Sound) (hb : Bounded elf) :
    x.AllUser ↔ BelowKernel elf := by
  refine ⟨fun hall n hn => ?_, fun hbelow => ?_⟩
  · have hlimit : n / numPte < x.limit := by
      obtain ⟨ph, hph, -, -, hlt⟩ := hn
      have := hb ph hph
      rw [hx.limit]
      unfold lastPage at this
      unfold numPte numPde
      unfold pageSize at *
      omega
    exact vpage_user.mp (hall _ (hok.flag _ 7 ((h.user n hlimit).mpr (.inl hn))).1)
  have hpage : ∀ n, n / numPte < x.limit → x.flag (vpage n) ≠ none → n / numPte < userPdes := by
    intro n hn hne
    obtain ⟨k, hk⟩ := Option.ne_none_iff_exists'.mp hne
    rcases h.only n k hk with rfl | rfl
    · rcases (h.user n hn).mp hk with hm | rfl
      · exact hbelow n hm
      · decide
    · decide
  have htable : ∀ pde, .table pde ∈ x.places → pde < userPdes := by
    intro pde hm
    obtain ⟨n, rfl, hn⟩ := h.covered pde (hx.linked _ hm (by simp) (by simp))
    exact hpage n (hok.table _ hm).2 hn
  intro a ha
  cases a with
  | dir => trivial
  | table pde => exact htable pde ha
  | page pde pte => exact htable pde (hok.page _ _ ha).1
  | hand => exact absurd ha hx.hand

end Space

/-- The pages that `init_proc_from_elf` maps are all different ones. -/
structure Clear (elf : Nat → UInt8) : Prop where
  bounded : Bounded elf
  apart : (segments elf).Pairwise ProgHeader.Apart
  noStack : kernelStackPage ∉ pagesOf (segments elf) ∧ userStackPage ∉ pagesOf (segments elf)

/-- A space that was not completed. -/
def Unfinished (p : Process) (x : Space) : Prop :=
  x = Space.new { p with pageDir := 0 } ∨ (x.Sound ∧ x.proc.pid = p.pid)

theorem allUser_new : (Space.new p).AllUser := fun _ ha => absurd ha (Finset.notMem_empty _)

theorem Space.Empty.allUser (h : Space.Empty p x) : x.AllUser := by
  intro a ha
  rw [h.places, Finset.mem_singleton] at ha
  subst ha
  trivial

section
variable {freeAddr entriesAddr : Nat} {entries : Array Pmm.MmapEntry} {E : Env} {x : Space} {t : Prop}
  {elf : Nat → UInt8} {size : Nat} {p : Process}

theorem after_initProcFromElf (hw : WindowOk freeAddr entriesAddr entries) (hp : p.memPages = 0)
    (hk : Slab.frame E.start.pgDir ∈ E.kept) (hclear : t → Clear elf) :
    After t (RepIn freeAddr entriesAddr entries) (E, Space.new p) (initProcFromElf E.owner elf size) (fun b d =>
      (b = false ∧ d.1 = E ∧ Unfinished p d.2 ∧ (Bounded elf → Space.BelowKernel elf → d.2.AllUser)) ∨
      (b = true ∧ ∃ x, x.Sound ∧ x.proc.pid = p.pid ∧ (Bounded elf → x.Rights elf) ∧
        (Bounded elf → (x.AllUser ↔ Space.BelowKernel elf)) ∧ x.places.card ≤ 0x40000 ∧ Finished E x d)) := by
  unfold initProcFromElf
  refine After.bind (after_inEnv (after_initPageDir hw hp)) ?_
  rintro b ⟨_, x⟩ ⟨rfl, ⟨rfl, hx⟩ | ⟨rfl, hempty⟩⟩
  · exact After.pure (.inl ⟨rfl, rfl, .inl hx, fun _ _ => hx ▸ allUser_new⟩)
  dsimp only at hempty hk ⊢
  have hpid : x.proc.pid = p.pid := by rw [hempty.proc]
  have hx₀ : ∀ j, vpage j ∉ x.places := by simp [hempty.places, vpage]
  refine After.bind (after_inEnv (after_elfLoadProgram hw hempty.sound fun ht => ?_)) ?_
  · exact ⟨(hclear ht).bounded, fun j _ => hx₀ j, (hclear ht).apart⟩
  rintro b ⟨_, y⟩ ⟨rfl, hy, ⟨hfail, huser⟩, hload⟩
  cases b with
  | false => exact After.pure (.inl ⟨rfl, rfl, .inr ⟨hy, by rw [(hfail rfl).2]; exact hpid⟩,
      fun hb hbelow => huser hb hbelow hempty.allUser⟩)
  | true =>
    obtain ⟨hyproc, hloads⟩ := hload rfl
    have hypid : y.proc.pid = p.pid := by rw [hyproc]; exact hpid
    refine fun m hm => After.bind (after_inEnv (after_allocProcStacks hw hy fun ht => ?_)) ?_ m hm
    · obtain ⟨hend, -, hks, hus⟩ := hclear ht
      have hfresh : ∀ n, n ∉ pagesOf (segments elf) → vpage n ∉ y.places := by
        intro n hn
        rw [← Rep.ok hm |>.flag_iff hy.linked (by simp [vpage]) (by simp [vpage]), ((hloads hend).old n hn).1, hempty.flag]
      exact ⟨hfresh _ hks, hfresh _ hus⟩
    rintro b ⟨_, z⟩ ⟨rfl, hz, ⟨hfail, huser'⟩, hstacks⟩
    cases b with
    | false => exact After.pure (.inl ⟨rfl, rfl, .inr ⟨hz, by rw [(hfail rfl).2]; exact hypid⟩,
        fun hb hbelow => huser' (huser hb hbelow hempty.allUser)⟩)
    | true =>
      obtain ⟨hzproc, y', h₃, h₇⟩ := hstacks rfl
      have hzpid : z.proc.pid = p.pid := by rw [hzproc]; exact hypid
      have hrights : Bounded elf → z.Rights elf := fun hend =>
        .of_loads hempty.flag ((hloads hend).mono fun _ _ _ _ => trivial) h₃ h₇
      refine fun m hm => After.bind (after_inEnv after_getProc) ?_ m hm
      have hok := Rep.ok hm
      have hcard := Rep.card_le hm hw
      rintro q ⟨_, z'⟩ ⟨rfl, hq, hz'⟩
      obtain rfl : z' = z := hz'
      obtain rfl : q = z'.proc := hq
      refine After.bind (after_finish hw hz hk) ?_
      rintro _ d hd
      exact After.pure (.inr ⟨rfl, z', hz, hzpid, hrights, fun hb => (hrights hb).allUser_iff hok hz hb, hcard, hd⟩)

end
end Airix.Proc
