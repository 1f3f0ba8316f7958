import Airix.Proc.Own

/-!
# Frame ownership, operation by operation

Taking a process apart, and building one from an ELF image or from another process.
-/

namespace Airix.Proc

section
variable {freeAddr entriesAddr : Nat} {entries : Array Pmm.MmapEntry} {S : Scope} {cur : Nat} {m m' : Machine}
  {live : Nat → Option Slab.Live} {frames : Finset (Nat × Nat)} {f : Nat} {u : Unit}

/-! ### Taking a process apart -/

/-- A table `t` that left its directory, with the entries `l` still to come. -/
structure Detached (S : Scope) (m : Machine) (frames : Finset (Nat × Nat)) (t : Nat) (l : List Nat) : Prop where
  loose : Loose S m frames t
  pages : ∀ pte ∈ l, ∀ f, frameAt (m.state.mem t pte) = some f → Loose S m frames f ∧ f ≠ t
  inj : ∀ pte ∈ l, ∀ pte' ∈ l, ∀ f, frameAt (m.state.mem t pte) = some f → frameAt (m.state.mem t pte') = some f →
    pte = pte'
  nodup : l.Nodup

theorem Loose.erase (h : Loose S m frames f) {g : Nat} (hne : f ≠ g) (href : ref m'.state = ref m.state) :
    Loose S m' (frames.erase (g, 0)) f :=
  ⟨Finset.mem_erase.mpr ⟨fun e => hne (Prod.mk.inj e).1, h.mem⟩, fun a ha => by rw [href]; exact h.unref a ha⟩

namespace OpInv

/-- A loose frame goes back. -/
theorem freeLoose (h : OpInv freeAddr entriesAddr entries S cur m live frames)
    (hboot : Pmm.BootOk freeAddr entriesAddr entries) (huser : Scope.user.slots ⊆ S.slots) {paddr : Nat}
    (hrun : (Proc.pmmFreePageAddress paddr).run m = .ok (u, m')) (hpaddr : pageNumber paddr = f)
    (hf : Loose S m frames f) :
    m'.state.procs = m.state.procs ∧ m'.state.mem = m.state.mem ∧
      OpInv freeAddr entriesAddr entries S cur m' live (frames.erase (f, 0)) :=
  h.pmmFreePageAddress hboot huser hrun hpaddr hf.mem (fun a ha hfa => absurd hfa (hf.unref a ha)) subset_rfl hf.unref

theorem freePte (h : OpInv freeAddr entriesAddr entries S cur m live frames)
    (hboot : Pmm.BootOk freeAddr entriesAddr entries) (huser : Scope.user.slots ⊆ S.slots) {pageTab pte : Nat}
    {l : List Nat} (hd : Detached S m frames (Slab.frame pageTab) (pte :: l))
    (hrun : (freePte cur pageTab pte).run m = .ok (u, m')) :
    ∃ frames', OpInv freeAddr entriesAddr entries S cur m' live frames' ∧
      Detached S m' frames' (Slab.frame pageTab) l ∧ ∀ o, dirFrame m'.state o = dirFrame m.state o := by
  unfold Proc.freePte vmmUnmapPageIndex at hrun
  obtain ⟨paddr, m₁, h₁, h₂⟩ := Exec.bind_ok.mp hrun
  obtain ⟨w, m₂, h₃, h₄⟩ := Exec.bind_ok.mp h₁
  obtain ⟨hw, rfl⟩ := load_ok.mp h₃
  obtain ⟨_, m₃, h₅, h₆⟩ := Exec.bind_ok.mp h₄
  obtain ⟨rfl, rfl⟩ := Exec.pure_ok.mp h₆
  obtain ⟨hk, hm⟩ := store_spec h₅
  have href₃ : ∀ a ∈ S.slots, ref m₃.state a = ref m₂.state a := fun a ha =>
    ref_setMem hk.procs hm (fun o ho => hd.loose.unref _ ho) (fun o pde ho => hd.loose.unref _ ho) ha
  have h₃ := h.memOnly hk href₃
  -- the other entries are as they were
  have hmem : ∀ i ∈ l, m₃.state.mem (Slab.frame pageTab) i = m₂.state.mem (Slab.frame pageTab) i := by
    intro i hi
    rw [hm, Function.update_self, Function.update_of_ne]
    rintro rfl
    exact (List.nodup_cons.mp hd.nodup).1 hi
  have hd₃ : Detached S m₃ frames (Slab.frame pageTab) l := by
    refine ⟨hd.loose.congr subset_rfl href₃, fun i hi f hf => ?_, fun i hi j hj f hf hf' => ?_,
      (List.nodup_cons.mp hd.nodup).2⟩
    · rw [hmem i hi] at hf
      obtain ⟨hl, hne⟩ := hd.pages i (List.mem_cons_of_mem _ hi) f hf
      exact ⟨hl.congr subset_rfl href₃, hne⟩
    · rw [hmem i hi] at hf
      rw [hmem j hj] at hf'
      exact hd.inj i (List.mem_cons_of_mem _ hi) j (List.mem_cons_of_mem _ hj) f hf hf'
  have hdir₃ : ∀ o, dirFrame m₃.state o = dirFrame m₂.state o := fun o => dirFrame_congr hk.procs
  split at h₂
  · obtain ⟨-, rfl⟩ := Exec.pure_ok.mp h₂
    exact ⟨frames, h₃, hd₃, hdir₃⟩
  · next hne =>
    obtain ⟨_, m₄, h₇, h₈⟩ := Exec.bind_ok.mp h₂
    obtain ⟨f, hf⟩ := Option.ne_none_iff_exists'.mp (mt frameAt_eq_none.mp hne)
    obtain ⟨-, haddr⟩ := frameAt_eq_some.mp hf
    rw [hw] at hf
    obtain ⟨hl, hft⟩ := hd.pages pte List.mem_cons_self f hf
    have hl₃ := hl.congr subset_rfl href₃
    obtain ⟨-, hflt, -⟩ := h.frame_spec hboot hl.mem
    have hnum : pageNumber (entryAddress w) = f := by
      rw [haddr]
      simp only [pageNumber, u32, pageSize]
      omega
    obtain ⟨hp₄, hm₄, h₄⟩ := h₃.freeLoose hboot huser h₇ hnum hl₃
    have href₄ : ref m₄.state = ref m₃.state := ref_congr hp₄ hm₄
    obtain ⟨-, href₅, hm₅, h₅⟩ := h₄.modifyProc h₈ (fun _ => rfl)
    have href : ref m'.state = ref m₃.state := href₅.trans href₄
    refine ⟨_, h₅, ⟨hd₃.loose.erase (Ne.symm hft) href, fun i hi g hg => ?_, fun i hi j hj g hg hg' => ?_, hd₃.nodup⟩,
      fun o => ?_⟩
    · rw [hm₅, hm₄] at hg
      obtain ⟨hlg, hgt⟩ := hd₃.pages i hi g hg
      refine ⟨hlg.erase ?_ href, hgt⟩
      rintro rfl
      rw [hmem i hi] at hg
      have := hd.inj i (List.mem_cons_of_mem _ hi) pte List.mem_cons_self g hg hf
      exact (List.nodup_cons.mp hd.nodup).1 (this ▸ hi)
    · rw [hm₅, hm₄] at hg hg'
      exact hd₃.inj i hi j hj g hg hg'
    · rw [← hdir₃ o]
      exact congrFun href (.dir o)

/-- An entry of a directory is cleared: its table and the pages of it are loose. -/
theorem unmapTable (h : OpInv freeAddr entriesAddr entries S cur m live frames) {pageDir o pde pageTab : Nat}
    (hboot : Pmm.BootOk freeAddr entriesAddr entries)
    (hrun : (vmmUnmapPageTableIndex pageDir pde 0).run m = .ok (pageTab, m'))
    (hS : ∀ pte, .page o pde pte ∈ S.slots) (hd : dirFrame m.state o = some (Slab.frame pageDir)) :
    OpInv freeAddr entriesAddr entries S cur m' live frames ∧ m'.state.procs = m.state.procs ∧
      (pageTab ≠ 0 → Detached S m' frames (Slab.frame pageTab) (List.range numPte)) := by
  unfold vmmUnmapPageTableIndex at hrun
  obtain ⟨w, m₁, h₁, h₂⟩ := Exec.bind_ok.mp hrun
  obtain ⟨hw, rfl⟩ := load_ok.mp h₁
  obtain ⟨_, m₂, h₃, h₄⟩ := Exec.bind_ok.mp h₂
  obtain ⟨rfl, rfl⟩ := Exec.pure_ok.mp h₄
  obtain ⟨hk, hm⟩ := store_spec h₃
  have htable := S.table_mem (hS 0)
  have hdir := S.dir_mem htable
  have href : ∀ a ∈ S.slots, ref m₂.state a = if a = .table o pde then none
      else if a.parent = some (.table o pde) then none else ref m₁.state a := by
    intro a ha
    rw [ref_setTable h.inj hk.procs hm hdir hd (fun t ht => absurd ht (by simp)) ha, frameAt_unmapped]
  have hsub : ∀ a ∈ S.slots, ∀ f, ref m₂.state a = some f → ref m₁.state a = some f ∧ a ≠ .table o pde ∧
      a.parent ≠ some (.table o pde) := by
    intro a ha f hf
    rw [href a ha] at hf
    split_ifs at hf with e₁ e₂
    exact ⟨hf, e₁, e₂⟩
  refine ⟨h.step (.dir 0) hk.slab hk.procCache hk.freed (fun o ho => by rwa [hk.procs] at ho)
    (fun a ha f hf => .inl (hsub a ha f hf).1), hk.procs, fun hne => ?_⟩
  obtain ⟨hpa, hcast⟩ := castP2vOrNull_of_ne hne
  obtain ⟨t, ht⟩ := Option.ne_none_iff_exists'.mp (mt frameAt_eq_none.mp hpa)
  obtain ⟨-, haddr⟩ := frameAt_eq_some.mp ht
  have htab : tableFrame m₁.state o pde = some t := by rw [tableFrame, hd, Option.bind_some, ← hw]; exact ht
  have htmem := h.own _ htable t htab
  obtain ⟨-, htlt, -⟩ := h.frame_spec hboot htmem
  have htd : t ≠ Slab.frame pageDir := by
    rintro rfl
    cases h.inj _ htable _ hdir _ htab hd
  rw [hcast, haddr, frame_cast htlt]
  have hpage : ∀ pte f, frameAt (m₂.state.mem t pte) = some f → pageFrame m₁.state o pde pte = some f := by
    intro pte f hf
    rw [hm, Function.update_of_ne htd] at hf
    rw [pageFrame, htab]
    exact hf
  refine ⟨⟨htmem, fun a ha hfa => ?_⟩, fun pte _ f hf => ⟨⟨h.own _ (hS pte) f (hpage pte f hf), fun a ha hfa => ?_⟩, ?_⟩,
    fun pte _ pte' _ f hf hf' => ?_, List.nodup_range⟩
  · obtain ⟨hold, hne, -⟩ := hsub a ha t hfa
    exact hne (h.inj a ha _ htable t hold htab)
  · obtain ⟨hold, -, hne⟩ := hsub a ha f hfa
    exact hne (by rw [h.inj a ha _ (hS pte) f hold (hpage pte f hf)]; rfl)
  · rintro rfl
    cases h.inj _ (hS pte) _ htable f (hpage pte f hf) htab
  · exact (Slot.page.inj (h.inj _ (hS pte) _ (hS pte') f (hpage pte f hf) (hpage pte' f hf'))).2.2

theorem freePde (h : OpInv freeAddr entriesAddr entries Scope.user cur m live frames)
    (hboot : Pmm.BootOk freeAddr entriesAddr entries) {pageDir pde : Nat} (hpde : pde < userPdes)
    (hd : dirFrame m.state cur = some (Slab.frame pageDir)) (hrun : (freePde cur pageDir pde).run m = .ok (u, m')) :
    ∃ frames', OpInv freeAddr entriesAddr entries Scope.user cur m' live frames' ∧
      dirFrame m'.state cur = some (Slab.frame pageDir) := by
  unfold Proc.freePde at hrun
  obtain ⟨pageTab, m₁, h₁, h₂⟩ := Exec.bind_ok.mp hrun
  obtain ⟨hinv₁, hp₁, hdet⟩ := h.unmapTable hboot h₁ (fun _ => hpde) hd
  rw [← dirFrame_congr hp₁] at hd
  split at h₂
  · obtain ⟨-, rfl⟩ := Exec.pure_ok.mp h₂
    exact ⟨frames, hinv₁, hd⟩
  · next hne =>
    obtain ⟨_, m₂, h₃, h₄⟩ := Exec.bind_ok.mp h₂
    obtain ⟨frames₂, hinv₂, hdet₂, hd₂⟩ := Exec.forM_ok (P := fun l m => ∃ frames,
      OpInv freeAddr entriesAddr entries Scope.user cur m live frames ∧
        Detached Scope.user m frames (Slab.frame pageTab) l ∧ dirFrame m.state cur = some (Slab.frame pageDir)) h₃
      ⟨frames, hinv₁, hdet hne, hd⟩ (by
        rintro pte l m u m' ⟨frames, hinv, hdet, hd⟩ hrun
        obtain ⟨frames', hinv', hdet', hd'⟩ := hinv.freePte hboot subset_rfl hdet hrun
        exact ⟨frames', hinv', hdet', (hd' cur).trans hd⟩)
    obtain ⟨_, m₃, h₅, h₆⟩ := Exec.bind_ok.mp h₄
    obtain ⟨hp₃, hm₃, hinv₃⟩ := hinv₂.freeLoose hboot subset_rfl h₅ rfl hdet₂.loose
    obtain ⟨-, href, -, hinv₄⟩ := hinv₃.modifyProc h₆ (fun _ => rfl)
    refine ⟨_, hinv₄, ?_⟩
    rw [← ref_dir, href, ref_dir, dirFrame_congr hp₃, hd₂]

theorem freeSpace (h : OpInv freeAddr entriesAddr entries Scope.user cur m live frames)
    (hboot : Pmm.BootOk freeAddr entriesAddr entries) {p : Process} (hp : m.state.procs cur = some p)
    (hrun : (freeSpace cur p.pageDir).run m = .ok (u, m')) :
    ∃ frames', OpInv freeAddr entriesAddr entries (Scope.without cur) cur m' live frames' := by
  unfold Proc.freeSpace at hrun
  split at hrun
  · obtain ⟨-, rfl⟩ := Exec.pure_ok.mp hrun
    exact ⟨frames, h.mono fun a ha => ha.1⟩
  · next hne =>
    have hd : dirFrame m.state cur = some (Slab.frame p.pageDir) := by rw [dirFrame, hp, Option.bind_some, if_neg hne]
    obtain ⟨_, m₁, h₁, h₂⟩ := Exec.bind_ok.mp hrun
    obtain ⟨frames₁, hinv₁, hd₁, -⟩ := Exec.forM_ok (P := fun l m => ∃ frames,
      OpInv freeAddr entriesAddr entries Scope.user cur m live frames ∧
        dirFrame m.state cur = some (Slab.frame p.pageDir) ∧ ∀ pde ∈ l, pde < userPdes) h₁
      ⟨frames, h, hd, fun pde hpde => List.mem_range.mp hpde⟩ (by
        rintro pde l m u m' ⟨frames, hinv, hd, hl⟩ hrun
        obtain ⟨frames', hinv', hd'⟩ := hinv.freePde hboot (hl pde List.mem_cons_self) hd hrun
        exact ⟨frames', hinv', hd', fun pde hpde => hl pde (List.mem_cons_of_mem _ hpde)⟩)
    obtain ⟨_, m₂, h₃, h₄⟩ := Exec.bind_ok.mp h₂
    have hdir : Slot.dir cur ∈ Scope.user.slots := trivial
    obtain ⟨-, -, hinv₂⟩ := hinv₁.pmmFreePageAddress hboot subset_rfl h₃ rfl (hinv₁.own _ hdir _ hd₁)
      (fun a ha hfa => hinv₁.inj a ha _ hdir _ hfa hd₁) (T := Scope.without cur) (fun a ha => ha.1)
      (fun a ha hfa => ha.2 (by rw [hinv₁.inj a ha.1 _ hdir _ hfa hd₁]; rfl))
    obtain ⟨-, -, -, hinv₃⟩ := hinv₂.modifyProc h₄ (fun _ => rfl)
    exact ⟨_, hinv₃⟩

/-- The object goes back; the process has no slots any more. -/
theorem slabFreeProc (h : OpInv freeAddr entriesAddr entries (Scope.without cur) cur m live frames) {p : Process}
    (hp : m.state.procs cur = some p) (hrun : (slabFreeProc cur).run m = .ok (u, m')) :
    ∃ live', OpInv freeAddr entriesAddr entries Scope.user cur m' live' frames := by
  unfold Proc.slabFreeProc at hrun
  obtain ⟨s, m₁, h₁, h₂⟩ := Exec.bind_ok.mp hrun
  obtain ⟨rfl, rfl⟩ := getState_ok.mp h₁
  split at h₂
  · exact absurd h₂ Exec.throw_ok
  · next slab he =>
    obtain rfl := update_ok.mp h₂
    obtain ⟨bytes, hlive⟩ := h.procs cur p hp
    have hgone : ∀ a : Slot, a.proc = cur →
        ref { m₁.state with slab := slab, procs := Function.update m₁.state.procs cur none } a = none := by
      rintro (o | ⟨o, pde⟩ | ⟨o, pde, pte⟩) (rfl : o = cur) <;> simp [pageFrame, tableFrame, dirFrame]
    have hold : ∀ a : Slot, a.proc ≠ cur →
        ref { m₁.state with slab := slab, procs := Function.update m₁.state.procs cur none } a = ref m₁.state a := by
      rintro (o | ⟨o, pde⟩ | ⟨o, pde, pte⟩) (hne : o ≠ cur) <;>
        simp [pageFrame, tableFrame, dirFrame, Function.update_of_ne hne]
    have hscope : ∀ a ∈ Scope.user.slots, ∀ f,
        ref { m₁.state with slab := slab, procs := Function.update m₁.state.procs cur none } a = some f →
        a ∈ (Scope.without cur).slots ∧ ref m₁.state a = some f := by
      intro a ha f hf
      by_cases e : a.proc = cur
      · rw [hgone a e] at hf; cases hf
      · rw [hold a e] at hf; exact ⟨⟨ha, e⟩, hf⟩
    refine ⟨Function.update live cur none, h.run.free hlive (by simp) he, ?_, fun o q ho => ?_,
      fun a ha b hb f hfa hfb => ?_, fun a ha f hfa => ?_, h.freed⟩
    · obtain ⟨n, hn⟩ := h.cache
      refine ⟨n, ?_⟩
      rw [Function.update_of_ne]
      · exact hn
      · intro e
        rw [e, hlive] at hn
        cases hn
    · dsimp only at ho ⊢
      have hne : o ≠ cur := by
        rintro rfl
        rw [Function.update_self] at ho
        cases ho
      rw [Function.update_of_ne hne] at ho ⊢
      exact h.procs o q ho
    · exact h.inj a (hscope a ha f hfa).1 b (hscope b hb f hfb).1 f (hscope a ha f hfa).2 (hscope b hb f hfb).2
    · exact h.own a (hscope a ha f hfa).1 f (hscope a ha f hfa).2

/-- `proc_free` returns frames that only the freed process has. -/
theorem procFree (h : OpInv freeAddr entriesAddr entries Scope.user cur m live frames)
    (hboot : Pmm.BootOk freeAddr entriesAddr entries) (hrun : (procFree cur).run m = .ok (u, m')) :
    ∃ live' frames', OpInv freeAddr entriesAddr entries Scope.user cur m' live' frames' := by
  unfold Proc.procFree at hrun
  obtain ⟨p, m₁, h₁, h₂⟩ := Exec.bind_ok.mp hrun
  obtain ⟨hp, rfl⟩ := getProc_ok.mp h₁
  obtain ⟨_, m₂, h₃, h₄⟩ := Exec.bind_ok.mp h₂
  obtain ⟨frames₂, hinv₂⟩ := h.freeSpace hboot hp h₃
  obtain ⟨p₂, m₃, h₅, h₆⟩ := Exec.bind_ok.mp h₄
  obtain ⟨hp₂, rfl⟩ := getProc_ok.mp h₅
  obtain ⟨_, m₄, h₇, h₈⟩ := Exec.bind_ok.mp h₆
  have hpid : OpInv freeAddr entriesAddr entries (Scope.without cur) cur m₄ live frames₂ ∧
      m₄.state.procs = m₃.state.procs := by
    unfold releasePid at h₇
    split at h₇
    · obtain ⟨-, rfl⟩ := Exec.pure_ok.mp h₇
      exact ⟨hinv₂, rfl⟩
    · obtain rfl := update_ok.mp h₇
      exact ⟨hinv₂.same rfl rfl rfl (fun _ h => h) (fun _ _ => congrFun (ref_congr rfl rfl) _), rfl⟩
  split at h₈
  · exact absurd h₈ Exec.throw_ok
  · obtain ⟨live', hinv'⟩ := hpid.1.slabFreeProc (by rw [hpid.2]; exact hp₂) h₈
    exact ⟨live', frames₂, hinv'⟩

end OpInv

/-! ### A new process object -/

/-- `alloc_pid` touches the PID map only. -/
structure PidOnly (m m' : Machine) : Prop where
  mem : m'.state.mem = m.state.mem
  slab : m'.state.slab = m.state.slab
  procCache : m'.state.procCache = m.state.procCache
  procs : m'.state.procs = m.state.procs
  freed : m'.freed = m.freed

theorem allocPidFrom_spec {n : Nat} {pid : Int} (hrun : (allocPidFrom n).run m = .ok (pid, m')) : PidOnly m m' := by
  induction n generalizing m with
  | zero =>
    obtain ⟨-, rfl⟩ := Exec.pure_ok.mp hrun
    exact ⟨rfl, rfl, rfl, rfl, rfl⟩
  | succ n ih =>
    unfold allocPidFrom at hrun
    obtain ⟨s, m₁, h₁, h₂⟩ := Exec.bind_ok.mp hrun
    obtain ⟨rfl, rfl⟩ := getState_ok.mp h₁
    dsimp only at h₂
    obtain ⟨_, m₂, h₃, h₄⟩ := Exec.bind_ok.mp h₂
    obtain rfl := update_ok.mp h₃
    split at h₄
    · obtain ⟨k₁, k₂, k₃, k₄, k₅⟩ := ih h₄
      exact ⟨k₁, k₂, k₃, k₄, k₅⟩
    · obtain ⟨_, m₃, h₅, h₆⟩ := Exec.bind_ok.mp h₄
      obtain rfl := update_ok.mp h₅
      obtain ⟨-, rfl⟩ := Exec.pure_ok.mp h₆
      exact ⟨rfl, rfl, rfl, rfl, rfl⟩

namespace OpInv

theorem setCur (h : OpInv freeAddr entriesAddr entries S cur m live frames) (hfreed : m.freed = []) (cur' : Nat) :
    OpInv freeAddr entriesAddr entries S cur' m live frames :=
  { h with freed := by rw [hfreed]; simp }

/-- The object of `slab_alloc` is no process yet. -/
theorem slabAllocProc (h : OpInv freeAddr entriesAddr entries S cur m live frames)
    (hboot : Pmm.BootOk freeAddr entriesAddr entries) {o : Nat} (hrun : slabAllocProc.run m = .ok (o, m')) :
    o ≠ 0 ∧ m.state.procs o = none ∧ m'.state.mem = m.state.mem ∧ m'.state.procs = m.state.procs ∧
      m'.freed = m.freed ∧ ∃ live', OpInv freeAddr entriesAddr entries S cur m' live' frames ∧
        ∃ bytes, live' o = some ⟨.created m'.state.procCache, bytes⟩ := by
  unfold Proc.slabAllocProc at hrun
  obtain ⟨s, m₁, h₁, h₂⟩ := Exec.bind_ok.mp hrun
  obtain ⟨rfl, rfl⟩ := getState_ok.mp h₁
  split at h₂
  · exact absurd h₂ Exec.throw_ok
  · next proc slab he =>
    obtain ⟨_, m₂, h₃, h₄⟩ := Exec.bind_ok.mp h₂
    obtain rfl := update_ok.mp h₃
    obtain ⟨rfl, rfl⟩ := Exec.pure_ok.mp h₄
    obtain ⟨ho, hnone⟩ := h.run.alloc_fresh hboot h.cache he
    have hkeep : ∀ o' l, live o' = some l → Function.update live proc
        (some ⟨.created m₁.state.procCache, (m₁.state.slab.caches (.created m₁.state.procCache)).objectSize⟩) o' =
          some l := by
      intro o' l hl
      rw [Function.update_of_ne]
      · exact hl
      · rintro rfl
        rw [hnone] at hl
        cases hl
    refine ⟨ho, ?_, rfl, rfl, rfl, _, ⟨h.run.alloc h.cache he, ?_, fun o' p hp => ?_, h.inj, h.own, h.freed⟩, _,
      Function.update_self _ _ _⟩
    · by_contra hne
      obtain ⟨p, hp⟩ := Option.ne_none_iff_exists'.mp hne
      obtain ⟨n, hn⟩ := h.procs proc p hp
      rw [hnone] at hn
      cases hn
    · obtain ⟨n, hn⟩ := h.cache
      exact ⟨n, hkeep _ _ hn⟩
    · obtain ⟨n, hn⟩ := h.procs o' p hp
      exact ⟨n, hkeep _ _ hn⟩

theorem procAlloc (h : OpInv freeAddr entriesAddr entries Scope.user cur m live frames) (hfreed : m.freed = [])
    (hboot : Pmm.BootOk freeAddr entriesAddr entries) {proc : Nat} (hrun : procAlloc.run m = .ok (proc, m')) :
    ∃ o live' frames', m.state.procs o = none ∧ OpInv freeAddr entriesAddr entries Scope.user o m' live' frames' ∧
      (proc ≠ 0 → o = proc ∧ ∃ p, m'.state.procs o = some p ∧ p.pageDir = 0) := by
  unfold Proc.procAlloc at hrun
  obtain ⟨o, m₁, h₁, h₂⟩ := Exec.bind_ok.mp hrun
  obtain ⟨ho, hnone, hm₁, hp₁, hf₁, live₁, hinv₁, hlive⟩ := h.slabAllocProc hboot h₁
  rw [if_neg ho] at h₂
  obtain ⟨pid, m₂, h₃, h₄⟩ := Exec.bind_ok.mp h₂
  obtain ⟨k₁, k₂, k₃, k₄, k₅⟩ := allocPidFrom_spec h₃
  obtain ⟨_, m₃, h₅, h₆⟩ := Exec.bind_ok.mp h₄
  have hm₃ := update_ok.mp h₅
  have hprocs₃ : m₃.state.procs = Function.update m₁.state.procs o (some ⟨pid, .zero, 0, 0, 0, 0, 0, 0, 0, 0⟩) := by
    rw [hm₃, ← k₄]
  have hslab₃ : m₃.state.slab = m₁.state.slab := by rw [hm₃]; exact k₂
  have hcache₃ : m₃.state.procCache = m₁.state.procCache := by rw [hm₃]; exact k₃
  have hmem₃ : m₃.state.mem = m₁.state.mem := by rw [hm₃]; exact k₁
  have hfreed₃ : m₃.freed = [] := by rw [hm₃]; exact k₅.trans (hf₁.trans hfreed)
  have hdir : ∀ o', dirFrame m₃.state o' = dirFrame m₁.state o' := by
    intro o'
    rw [dirFrame, dirFrame, hprocs₃]
    by_cases e : o' = o
    · subst e
      rw [Function.update_self, hp₁, hnone]
      rfl
    · rw [Function.update_of_ne e]
  have href : ∀ a, ref m₃.state a = ref m₁.state a := by
    intro a
    cases a <;> simp only [ref_dir, ref_table, ref_page, pageFrame, tableFrame, hdir, hmem₃]
  have hinv₃ : OpInv freeAddr entriesAddr entries Scope.user o m₃ live₁ frames := by
    refine ⟨by rw [hslab₃]; exact hinv₁.run, by rw [hcache₃]; exact hinv₁.cache, fun o' p hp => ?_,
      fun a ha b hb f hfa hfb => hinv₁.inj a ha b hb f (by rw [← href]; exact hfa) (by rw [← href]; exact hfb),
      fun a ha f hfa => hinv₁.own a ha f (by rw [← href]; exact hfa), by rw [hfreed₃]; simp⟩
    rw [hcache₃]
    by_cases e : o' = o
    · exact e ▸ hlive
    · rw [hprocs₃, Function.update_of_ne e] at hp
      exact hinv₁.procs o' p hp
  split at h₆
  · obtain ⟨_, m₄, h₇, h₈⟩ := Exec.bind_ok.mp h₆
    obtain ⟨rfl, rfl⟩ := Exec.pure_ok.mp h₈
    obtain ⟨live', frames', hinv'⟩ := hinv₃.procFree hboot h₇
    exact ⟨o, live', frames', hnone, hinv', fun h0 => absurd rfl h0⟩
  · obtain ⟨rfl, rfl⟩ := Exec.pure_ok.mp h₆
    exact ⟨o, live₁, frames, hnone, hinv₃, fun _ => ⟨rfl, _, by rw [hprocs₃, Function.update_self], rfl⟩⟩

end OpInv
end
end Airix.Proc
