import Airix.Proc.Settled

/-!
# Taking a space apart (`proc_free`)

Each place that goes back takes one from `mem_pages`, so that what it says over the number of places stays the same.
At the end there are none.
-/

namespace Airix.Proc
open Exec (After)

namespace Space

/-- `mem_pages` says `c` more than there are places. -/
def Counted (c : Nat) (x : Space) : Prop := x.proc.memPages = u32 (x.places.card + c)

/-- The places in `S` went back. -/
structure Released (S : Set Place) (x y : Space) : Prop where
  places : ∀ a, a ∈ y.places ↔ a ∈ x.places ∧ a ∉ S
  flag : ∀ a, a ∉ S → y.flag a = x.flag a
  frame : y.frame = x.frame
  limit : y.limit = x.limit
  count : ∀ c, x.Counted c → y.Counted c
  proc : y.proc = { x.proc with memPages := y.proc.memPages }

variable {x y z : Space} {S S' : Set Place} {a : Place}

theorem Released.refl (h : ∀ a ∈ x.places, a ∉ S) : Released S x x :=
  ⟨fun a => ⟨fun ha => ⟨ha, h a ha⟩, fun ha => ha.1⟩, fun _ _ => rfl, rfl, rfl, fun _ h => h, rfl⟩

theorem Released.trans (h : Released S x y) (h' : Released S' y z) : Released (S ∪ S') x z := by
  refine ⟨fun a => ?_, fun a ha => ?_, h'.frame.trans h.frame, h'.limit.trans h.limit, fun c hc => h'.count c (h.count c hc), ?_⟩
  · rw [h'.places, h.places, Set.mem_union, not_or, and_assoc]
  · rw [Set.mem_union, not_or] at ha
    rw [h'.flag a ha.2, h.flag a ha.1]
  · rw [h'.proc, h.proc]

theorem Released.congr (h : Released S x y) (hS : ∀ a ∈ x.places, a ∈ S' ↔ a ∈ S) (hsub : S ⊆ S') : Released S' x y := by
  refine { h with
    places := fun a => ?_
    flag := fun a ha => h.flag a fun hm => ha (hsub hm) }
  rw [h.places]
  exact and_congr_right fun ha => not_congr (hS a ha).symm

/-- One place goes back. -/
theorem released_drop (ha : a ∈ x.places) (hplaces : y.places = x.places.erase a) (hflag : ∀ b, b ≠ a → y.flag b = x.flag b)
    (hframe : y.frame = x.frame) (hlimit : y.limit = x.limit) (hproc : y.proc = x.proc) :
    Released {a} x (y.setProc { y.proc with memPages := u32 (y.proc.memPages + (2 ^ 32 - 1)) }) := by
  refine ⟨fun b => ?_, fun b hb => ?_, ?_, ?_, fun c hc => ?_, ?_⟩
  · rw [setProc_places, hplaces, Finset.mem_erase, Set.mem_singleton_iff, and_comm]
  · rw [setProc_flag, hflag b hb]
  · rw [setProc_frame, hframe]
  · rw [setProc_limit, hlimit]
  · have hcard : (x.places.erase a).card + 1 = x.places.card := Finset.card_erase_add_one ha
    unfold Counted at hc ⊢
    rw [setProc_places, setProc_proc, hplaces, hproc]
    dsimp only
    rw [hc]
    unfold u32
    omega
  · rw [setProc_proc, hproc]

/-- The entry of a place that is not there. -/
theorem released_none (ha : a ∉ x.places) : Released {a} x (x.setFlag a none) := by
  refine ⟨fun b => ?_, fun b hb => Function.update_of_ne hb _ _, rfl, rfl, fun c hc => hc, rfl⟩
  refine ⟨fun hb => ⟨hb, ?_⟩, fun hb => hb.1⟩
  rintro rfl
  exact ha hb

theorem Released.of_setFlag (h : Released S (x.setFlag a none) y) (ha : a ∈ S) : Released S x y := by
  refine ⟨h.places, fun b hb => ?_, h.frame, h.limit, h.count, h.proc⟩
  rw [h.flag b hb]
  refine Function.update_of_ne ?_ _ _
  rintro rfl
  exact hb ha

theorem Released.linked (h : Released S x y) (hx : x.Linked) : y.Linked := by
  intro a ha hd hh
  obtain ⟨hm, hS⟩ := (h.places a).mp ha
  rw [h.flag a hS]
  exact hx a hm hd hh

end Space

/-- The pages of a table that are not in `l`. -/
def pagesBut (pde : Nat) (l : List Nat) : Set Place := {a | ∃ pte, pte ∉ l ∧ a = .page pde pte}

/-- A table and its pages. -/
def behind (pde : Nat) : Set Place := {a | a = .table pde ∨ ∃ pte, a = .page pde pte}

/-- The tables that are not in `l`, and their pages. -/
def tablesBut (l : List Nat) : Set Place := {a | ∃ pde, pde ∉ l ∧ a ∈ behind pde}

section
variable {freeAddr entriesAddr : Nat} {entries : Array Pmm.MmapEntry} {E : Env} {m : Machine} {x z : Space} {t : Prop}

theorem after_freePte (hw : WindowOk freeAddr entriesAddr entries) {pde pte : Nat} (ht : .table pde ∈ x.places)
    (hpte : pte < numPte) (hlink : .page pde pte ∈ x.places → x.flag (.page pde pte) ≠ none) :
    After t (Rep freeAddr entriesAddr entries E) x (freePte E.owner (x.ptr (.table pde)) pte)
      (fun _ y => Space.Released {.page pde pte} x y) := by
  refine after_of_rep fun m hm => ?_
  unfold freePte vmmUnmapPageIndex
  rw [bind_assoc]
  refine After.bind (after_load hw (b := .table pde) ht trivial hpte) ?_
  rintro v x ⟨rfl, hv⟩
  rw [bind_assoc]
  refine After.bind (after_store hw (b := .table pde) ht trivial hpte (k := none) (fun j hj => by cases hj) fun _ =>
    ⟨by decide, by decide⟩) ?_
  rintro _ _ rfl
  rw [pure_bind]
  have hnone := hv.none_iff hm.ok fun ha => (hm.frame_spec hw ha).1
  by_cases hp : .page pde pte ∈ x.places
  · obtain ⟨k, hk⟩ := Option.ne_none_iff_exists'.mp (hlink hp)
    have h0 : entryAddress v ≠ 0 := mt hnone.mp (hlink hp)
    obtain ⟨haddr, -⟩ := hv.some_eq hm.ok hk
    rw [if_neg h0, haddr]
    refine After.bind (after_free (a := .page pde pte) hw hp (Function.update_self _ _ _) ?_) ?_
    · exact fun b _ i hb => absurd hb (by simp [Place.HasEntries])
    rintro _ _ rfl
    refine (after_modifyProc _).mono ?_
    rintro _ _ rfl
    exact Space.released_drop hp rfl (fun b hb => Function.update_of_ne hb _ _) rfl rfl rfl
  · rw [if_pos (hnone.mpr (hm.ok.flag_none hp))]
    exact After.pure (Space.released_none hp)

theorem after_freePde (hw : WindowOk freeAddr entriesAddr entries) {pde : Nat} (hd : .dir ∈ x.places)
    (hpde : pde < x.limit) (hl : x.Linked) :
    After t (Rep freeAddr entriesAddr entries E) x (freePde E.owner (x.ptr .dir) pde)
      (fun _ y => Space.Released (behind pde) x y) := by
  refine after_of_rep fun m hm => ?_
  unfold freePde vmmUnmapPageTableIndex
  rw [bind_assoc]
  refine After.bind (after_load hw (b := .dir) hd trivial hpde) ?_
  rintro v x ⟨rfl, hv⟩
  rw [bind_assoc]
  refine After.bind (after_store hw (b := .dir) hd trivial hpde (k := none) (fun j hj => by cases hj) fun _ =>
    ⟨by decide, by decide⟩) ?_
  rintro _ _ rfl
  rw [pure_bind]
  have hnone : _ ↔ x.flag (.table pde) = none := hv.none_iff hm.ok fun ha => (hm.frame_spec hw ha).1
  by_cases ht : .table pde ∈ x.places
  swap
  · have h0 : castP2vOrNull (entryAddress v) = 0 := by
      rw [hnone.mpr (hm.ok.flag_none ht)]
      rfl
    rw [if_pos h0]
    refine After.pure ((Space.released_none ht).congr (fun a ha => ?_) fun a ha => .inl ha)
    constructor
    · rintro (rfl | ⟨pte, rfl⟩)
      · rfl
      · exact absurd (hm.ok.page _ _ ha).1 ht
    · exact .inl
  have hflag : x.flag (.table pde) ≠ none := hl _ ht (by simp) (by simp)
  obtain ⟨k, hk⟩ := Option.ne_none_iff_exists'.mp hflag
  obtain ⟨haddr, -⟩ := hv.some_eq hm.ok hk
  have hspec := hm.frame_spec hw ht
  have hcast : castP2vOrNull (entryAddress v) = x.ptr (.table pde) := by
    rw [haddr]
    exact if_neg (by unfold pageSize; simp only [Place.entry]; omega)
  have hptr : x.ptr (.table pde) ≠ 0 := by
    simp only [Space.ptr, castPhysicalToVirtual, u32, kernelBase, pageSize]
    omega
  rw [hcast, if_neg hptr]
  -- the pages of the table go back one by one
  refine After.bind (After.forM (P := fun l y => l.Nodup ∧ (∀ pte ∈ l, pte < numPte) ∧
    Space.Released (pagesBut pde l) (x.setFlag (.table pde) none) y) ⟨List.nodup_range, fun i hi => List.mem_range.mp hi, ?_⟩
    ?_) ?_
  · refine .refl fun a ha => ?_
    rintro ⟨pte, hpte, rfl⟩
    exact hpte (List.mem_range.mpr (hm.ok.page _ _ ha).2)
  · rintro pte l y ⟨hnd, hlt, hy⟩
    rw [List.nodup_cons] at hnd
    have hyt : .table pde ∈ y.places := (hy.places _).mpr ⟨ht, by rintro ⟨_, -, e⟩; cases e⟩
    have hyptr : x.ptr (.table pde) = y.ptr (.table pde) := by rw [Space.ptr, Space.ptr, hy.frame]; rfl
    rw [hyptr]
    refine (after_freePte hw hyt (hlt pte List.mem_cons_self) fun hp => ?_).mono fun _ z hz => ⟨hnd.2, fun i hi =>
      hlt i (List.mem_cons_of_mem _ hi), ?_⟩
    · obtain ⟨hp, hout⟩ := (hy.places _).mp hp
      rw [hy.flag _ hout, Space.setFlag_flag, Function.update_of_ne (by simp)]
      exact hl _ hp (by simp) (by simp)
    · refine (hy.trans hz).congr (fun a _ => ?_) ?_
      · constructor
        · rintro ⟨i, hi, rfl⟩
          by_cases e : i = pte
          · exact .inr (by rw [e]; rfl)
          · exact .inl ⟨i, by simp [e, hi], rfl⟩
        · rintro (⟨i, hi, rfl⟩ | rfl)
          · exact ⟨i, fun h => hi (List.mem_cons_of_mem _ h), rfl⟩
          · exact ⟨pte, hnd.1, rfl⟩
      · rintro _ (⟨i, hi, rfl⟩ | rfl)
        · exact ⟨i, fun h => hi (List.mem_cons_of_mem _ h), rfl⟩
        · exact ⟨pte, hnd.1, rfl⟩
  rintro _ y ⟨-, -, hy⟩
  have hout : Place.table pde ∉ pagesBut pde [] := by
    rintro ⟨_, -, e⟩
    cases e
  have hyt : .table pde ∈ y.places := (hy.places _).mpr ⟨ht, hout⟩
  have hphys : castVirtualToPhysical (x.ptr (.table pde)) = y.frame (.table pde) * pageSize := by
    rw [hy.frame]
    exact virtualToPhysical_cast (hspec.2.trans (by decide))
  unfold vmmFreePageTable
  rw [hphys]
  refine After.bind (after_free hw hyt ?_ ?_) ?_
  · rw [hy.flag _ hout]
    exact Function.update_self _ _ _
  · rintro b hb i - rfl
    exact ((hy.places _).mp hb).2 ⟨i, by simp, rfl⟩
  rintro _ _ rfl
  refine (after_modifyProc _).mono ?_
  rintro _ _ rfl
  have hz := hy.trans (Space.released_drop hyt (y := y.drop (.table pde)) rfl (fun _ _ => rfl) rfl rfl rfl)
  have hset : pagesBut pde [] ∪ {.table pde} = behind pde := by
    ext a
    simp only [pagesBut, behind, Set.mem_union, Set.mem_ofPred_eq, Set.mem_singleton_iff, List.not_mem_nil,
      not_false_eq_true, true_and]
    exact or_comm
  rw [hset] at hz
  exact hz.of_setFlag (.inl rfl)

/-- No entry is for the directory. -/
theorem Rep.clearDir (h : Rep freeAddr entriesAddr entries E m x) :
    Rep freeAddr entriesAddr entries E m (x.setFlag .dir none) := by
  refine { h with
    ok := h.ok.setFlag (fun j hj => by cases hj) (by simp)
    fits := fun a ha => (h.fits a ha).congr rfl (fun i he => ⟨Function.update_of_ne ?_ _ _, fun _ => rfl⟩) rfl }
  cases a <;> simp [Place.entry, Place.HasEntries] at he ⊢

/-- All that can be freed. -/
structure Space.Whole (x : Space) : Prop where
  linked : x.Linked
  hand : .hand ∉ x.places
  limit : x.limit = userPdes
  dir : (.dir ∈ x.places ∧ x.proc.pageDir = x.ptr .dir) ∨ (x.places = ∅ ∧ x.proc.pageDir = 0)

theorem after_freeSpace (hw : WindowOk freeAddr entriesAddr entries) (hx : x.Whole) :
    After t (Rep freeAddr entriesAddr entries E) x (freeSpace E.owner x.proc.pageDir) (fun _ y => y.places = ∅ ∧
      (∀ c, x.Counted c → y.Counted c) ∧ y.proc = { x.proc with memPages := y.proc.memPages }) := by
  refine after_of_rep fun m hm => ?_
  unfold freeSpace
  rcases hx.dir with ⟨hd, hdir⟩ | ⟨hempty, h0⟩
  swap
  · rw [if_pos h0]
    exact After.pure ⟨hempty, fun _ hc => hc, rfl⟩
  have hspec := hm.frame_spec hw hd
  have hptr : x.ptr .dir ≠ 0 := by
    simp only [Space.ptr, castPhysicalToVirtual, u32, kernelBase, pageSize]
    omega
  rw [hdir, if_neg hptr]
  refine After.bind (After.forM (P := fun l y => l.Nodup ∧ (∀ pde ∈ l, pde < userPdes) ∧ Space.Released (tablesBut l) x y)
    ⟨List.nodup_range, fun i hi => List.mem_range.mp hi, ?_⟩ ?_) ?_
  · have htable : ∀ pde, .table pde ∈ x.places → pde ∈ List.range userPdes :=
      fun pde ha => List.mem_range.mpr (lt_of_lt_of_eq (hm.ok.table pde ha).2 hx.limit)
    refine .refl fun a ha => ?_
    rintro ⟨pde, hpde, rfl | ⟨pte, rfl⟩⟩
    · exact hpde (htable pde ha)
    · exact hpde (htable pde (hm.ok.page _ _ ha).1)
  · rintro pde l y ⟨hnd, hlt, hy⟩
    rw [List.nodup_cons] at hnd
    have hpde := hlt pde List.mem_cons_self
    have hyd : .dir ∈ y.places := (hy.places _).mpr ⟨hd, by rintro ⟨_, -, e | ⟨_, e⟩⟩ <;> cases e⟩
    have hyptr : x.ptr .dir = y.ptr .dir := by rw [Space.ptr, Space.ptr, hy.frame]
    rw [hyptr]
    refine (after_freePde hw hyd (by rw [hy.limit, hx.limit]; exact hpde) (hy.linked hx.linked)).mono fun _ z hz =>
      ⟨hnd.2, fun i hi => hlt i (List.mem_cons_of_mem _ hi), ?_⟩
    have hset : tablesBut (pde :: l) ∪ behind pde = tablesBut l := by
      ext a
      constructor
      · rintro (⟨i, hi, ha⟩ | ha)
        · exact ⟨i, fun h => hi (List.mem_cons_of_mem _ h), ha⟩
        · exact ⟨pde, hnd.1, ha⟩
      · rintro ⟨i, hi, ha⟩
        by_cases e : i = pde
        · exact .inr (e ▸ ha)
        · exact .inl ⟨i, by simp [e, hi], ha⟩
    rw [← hset]
    exact hy.trans hz
  rintro _ y ⟨-, -, hy⟩
  have hout : Place.dir ∉ tablesBut [] := by
    rintro ⟨_, -, e | ⟨_, e⟩⟩ <;> cases e
  have hyd : .dir ∈ y.places := (hy.places _).mpr ⟨hd, hout⟩
  -- only the directory is left
  have honly : y.places = {.dir} := by
    ext a
    rw [hy.places, Finset.mem_singleton]
    constructor
    · rintro ⟨ha, hnot⟩
      cases a with
      | dir => rfl
      | table pde => exact absurd ⟨pde, by simp, .inl rfl⟩ hnot
      | page pde pte => exact absurd ⟨pde, by simp, .inr ⟨pte, rfl⟩⟩ hnot
      | hand => exact absurd ha hx.hand
    · rintro rfl
      exact ⟨hd, hout⟩
  suffices h : After t (Rep freeAddr entriesAddr entries E) (y.setFlag .dir none) _ _ from h.of_rep fun m h => h.clearDir
  have hphys : castVirtualToPhysical (x.ptr .dir) = (y.setFlag .dir none).frame .dir * pageSize := by
    rw [Space.setFlag_frame, hy.frame]
    exact virtualToPhysical_cast (hspec.2.trans (by decide))
  unfold vmmFreeVaddrSpace
  rw [hphys]
  refine After.bind (after_free (a := .dir) hw hyd (by simp) ?_) ?_
  · rintro b hb i - rfl
    rw [Space.setFlag_places, honly] at hb
    simp [Place.entry] at hb
  rintro _ _ rfl
  refine (after_modifyProc _).mono ?_
  rintro _ _ rfl
  have hz := hy.trans (Space.released_drop hyd (y := (y.setFlag .dir none).drop .dir) rfl
    (fun b hb => Function.update_of_ne hb _ _) rfl rfl rfl)
  refine ⟨?_, hz.count, hz.proc⟩
  rw [Space.setProc_places, Space.drop_places, Space.setFlag_places, honly, Finset.erase_singleton]

/-- `proc_free` is done: the frames of the process are free, and nothing else changed. -/
structure Freed (E : Env) (pid : Int) (m : Machine) : Prop where
  free : ∀ f, Pmm.FreePage m.state.slab.pmm f ↔ f ∈ E.free
  kept : ∀ f ∈ E.kept, m.state.mem f = E.start.mem f
  procs : m.state.procs = Function.update E.start.procs E.owner none
  pidMap : m.state.pidMap = if pid = -1 then E.start.pidMap else Function.update E.start.pidMap pid.toNat false
  pidGen : m.state.pidGen = E.start.pidGen
  pgDir : m.state.pgDir = E.start.pgDir
  procCache : m.state.procCache = E.start.procCache
  sched : m.state.sched = E.start.sched

/-- `proc_free` returns if `mem_pages` is right, and only then. -/
theorem Rep.procFree_spec (h : Rep freeAddr entriesAddr entries E m x) (hw : WindowOk freeAddr entriesAddr entries)
    (hx : x.Whole) {c : Nat} (hc : x.Counted c) :
    (∀ u m', (procFree E.owner).run m = .ok (u, m') → u32 c = 0 ∧ Freed E x.proc.pid m') ∧
    (u32 c = 0 → (∃ bytes, E.live E.owner = some ⟨.created E.start.procCache, bytes⟩) →
      ∃ r, (procFree E.owner).run m = .ok r) := by
  obtain ⟨hsome, hreturn⟩ := after_freeSpace (t := True) hw hx m h
  obtain ⟨⟨u₁, m₁⟩, h₁⟩ := hreturn trivial
  obtain ⟨y, hy, hplaces, hcount, hproc⟩ := hsome u₁ m₁ h₁
  have hpid : y.proc.pid = x.proc.pid := by rw [hproc]
  have hpages : y.proc.memPages = u32 c := by
    have := hcount c hc
    unfold Space.Counted at this
    rw [hplaces, Finset.card_empty, Nat.zero_add] at this
    exact this
  -- the state after `free_pid`
  obtain ⟨m₂, h₂, hm₂⟩ : ∃ m₂, (releasePid y.proc.pid).run m₁ = .ok ((), m₂) ∧ m₂ = { m₁ with state := { m₁.state with
      pidMap := if x.proc.pid = -1 then m₁.state.pidMap else Function.update m₁.state.pidMap x.proc.pid.toNat false } } := by
    refine ⟨_, ?_, rfl⟩
    rw [hpid]
    unfold releasePid
    split_ifs
    · exact Exec.pure_ok.mpr ⟨rfl, rfl⟩
    · exact update_ok.mpr rfl
  have hrun : (procFree E.owner).run m = if u32 c ≠ 0 then (throw (.leaks y.proc.pid y.proc.memPages) : M Unit).run m₂
      else (slabFreeProc E.owner).run m₂ := by
    unfold procFree
    rw [Exec.bind_run (getProc_ok.mpr ⟨h.proc, rfl⟩), Exec.bind_run h₁, Exec.bind_run (getProc_ok.mpr ⟨hy.proc, rfl⟩),
      Exec.bind_run h₂, ← hpages]
    split_ifs <;> rfl
  have hfree : ∀ slab : Slab.State, slab.pmm = m₁.state.slab.pmm → ∀ f, Pmm.FreePage slab.pmm f ↔ f ∈ E.free := by
    intro slab hslab f
    rw [hslab, hy.free, hplaces]
    simp
  obtain ⟨frames, hslab, -⟩ := hy.run
  refine ⟨fun u m' hr => ?_, fun h0 hlive => ?_⟩
  · rw [hrun] at hr
    split_ifs at hr with h0
    · exact absurd hr Exec.throw_ok
    · refine ⟨not_not.mp h0, ?_⟩
      obtain ⟨s, m₃, h₃, h₄⟩ := Exec.bind_ok.mp hr
      obtain ⟨rfl, rfl⟩ := getState_ok.mp h₃
      split at h₄
      · exact absurd h₄ Exec.throw_ok
      · next slab he =>
        obtain rfl := update_ok.mp h₄
        subst hm₂
        refine ⟨hfree slab (Slab.slabFree_pmm he), hy.kept, ?_, ?_, hy.rest.pidGen, hy.rest.pgDir, hy.rest.procCache,
          hy.rest.sched⟩
        · funext o
          by_cases e : o = E.owner
          · simp [e]
          · simp only [ne_eq, e, not_false_eq_true, Function.update_of_ne]
            exact hy.others o e
        · rw [← hy.rest.pidMap]
  · obtain ⟨bytes, hlive⟩ := hlive
    obtain ⟨slab, he, -⟩ := (hslab.inv hw.toBootOk).free hlive (by simp)
    have he' : Slab.slabFree m₂.state.slab (.created m₂.state.procCache) E.owner = .ok slab := by
      subst hm₂
      rw [show m₁.state.procCache = E.start.procCache from hy.rest.procCache]
      exact he
    rw [hrun, if_neg (not_not.mpr h0)]
    unfold slabFreeProc
    rw [Exec.bind_run (getState_ok.mpr ⟨rfl, rfl⟩), he']
    exact ⟨((), _), update_ok.mpr rfl⟩

end
end Airix.Proc
