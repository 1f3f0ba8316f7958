import Airix.Proc.Rights

/-!
# Copying a space

`init_proc_from_proc` goes through the space of another process, which it does not touch, and builds the same one
from new frames.
-/

namespace Airix.Proc
open Exec (After)

section
variable {freeAddr entriesAddr : Nat} {entries : Array Pmm.MmapEntry} {E : Env} {x z : Space} {t : Prop} {o : Nat}

/-! ### The other process -/

theorem after_getProcKept {p : Process} (hne : o ≠ E.owner) (hp : E.start.procs o = some p) :
    After t (Rep freeAddr entriesAddr entries E) x (getProc o) (fun q y => q = p ∧ y = x) :=
  After.of_run fun m h => ⟨p, m, x, getProc_ok.mpr ⟨(h.others o hne).trans hp, rfl⟩, h, rfl, rfl⟩

/-- The space `z` of process `o`, which nobody touches. -/
structure Source (E : Env) (o : Nat) (z : Space) : Prop extends Settled E.start o z where
  ne : o ≠ E.owner
  kept : ∀ a ∈ z.places, z.frame a ∈ E.kept

theorem after_loadKept (hz : Source E o z) {b : Place} (hb : b ∈ z.places) (he : b.HasEntries) {i : Nat}
    (hi : i < z.size b) :
    After t (Rep freeAddr entriesAddr entries E) x (load (z.ptr b) i) (fun v y => y = x ∧ z.Entry (b.entry i) v) := by
  refine After.of_run fun m h => ⟨_, m, x, load_ok.mpr ⟨rfl, rfl⟩, h, rfl, ?_⟩
  rw [hz.frame_ptr hb, h.kept _ (hz.kept b hb)]
  exact (hz.fits b hb).entry he hi

theorem after_vmmGetPageTableIndex (hz : Source E o z) {pde : Nat} (hpde : pde < userPdes) :
    After t (Rep freeAddr entriesAddr entries E) x (vmmGetPageTableIndex (z.ptr .dir) pde) (fun r y => y = x ∧
      ((.table pde ∉ z.places ∧ r.1 = 0) ∨
        (.table pde ∈ z.places ∧ r.1 ≠ 0 ∧ r.1 = z.ptr (.table pde) ∧ z.flag (.table pde) = some r.2))) := by
  refine After.bind (after_loadKept hz hz.dir trivial (lt_of_lt_of_eq hpde hz.limit.symm)) ?_
  rintro v x ⟨rfl, hv⟩
  refine After.pure ⟨rfl, ?_⟩
  have hiff : z.flag (.table pde) = none ↔ _ := hz.flag_iff (by simp) (by simp)
  have hnone := hv.none_iff hz.ok fun ha => (hz.used _ ha).1
  cases hk : z.flag (.table pde) with
  | none =>
    refine .inl ⟨hiff.mp hk, ?_⟩
    rw [hnone.mpr hk]
    rfl
  | some k =>
    obtain ⟨haddr, hflag⟩ := hv.some_eq hz.ok hk
    have hmem := (hz.ok.flag _ k hk).1
    have hframe := hz.used _ hmem
    have hcast : castP2vOrNull (entryAddress v) = z.ptr (.table pde) := by
      rw [haddr]
      exact if_neg (by unfold pageSize; simp only [Place.entry]; omega)
    refine .inr ⟨hmem, ?_, hcast, by rw [hflag]⟩
    rw [hcast]
    simp only [Space.ptr, castPhysicalToVirtual, u32, kernelBase, pageSize]
    omega

theorem after_vmmGetPageIndex (hz : Source E o z) {pde pte : Nat} (ht : .table pde ∈ z.places) (hpte : pte < numPte) :
    After t (Rep freeAddr entriesAddr entries E) x (vmmGetPageIndex (z.ptr (.table pde)) pte) (fun r y => y = x ∧
      ((.page pde pte ∉ z.places ∧ r.1 = 0) ∨
        (.page pde pte ∈ z.places ∧ r.1 ≠ 0 ∧ r.1 = z.frame (.page pde pte) * pageSize ∧
          z.flag (.page pde pte) = some r.2))) := by
  refine After.bind (after_loadKept hz ht trivial hpte) ?_
  rintro v x ⟨rfl, hv⟩
  refine After.pure ⟨rfl, ?_⟩
  have hiff : z.flag (.page pde pte) = none ↔ _ := hz.flag_iff (by simp) (by simp)
  have hnone := hv.none_iff hz.ok fun ha => (hz.used _ ha).1
  cases hk : z.flag (.page pde pte) with
  | none => exact .inl ⟨hiff.mp hk, hnone.mpr hk⟩
  | some k =>
    obtain ⟨haddr, hflag⟩ := hv.some_eq hz.ok hk
    refine .inr ⟨(hz.ok.flag _ k hk).1, fun h0 => ?_, haddr, by rw [hflag]⟩
    have hbad : z.flag (.page pde pte) = none := hnone.mp h0
    rw [hk] at hbad
    cases hbad

end

/-! ### Copies -/

/-- The tables and pages of the entries in `l`. -/
def inTables (l : List Nat) : Set Place := {a | ∃ pde ∈ l, a = .table pde ∨ ∃ pte, a = .page pde pte}

/-- The pages of the entries in `l` of a table. -/
def inPages (pde : Nat) (l : List Nat) : Set Place := {a | ∃ pte ∈ l, a = .page pde pte}

namespace Space

/-- `x` has what `z` has, but for the places in `P`. -/
structure CopyOf (z : Space) (P : Set Place) (x : Space) : Prop where
  places : ∀ a, a ∈ x.places ↔ a ∈ z.places ∧ a ∉ P
  flag : ∀ a ∈ x.places, a ≠ .dir → x.flag a = z.flag a
  words : ∀ pde pte, .page pde pte ∈ x.places → x.words (.page pde pte) = z.words (.page pde pte)

variable {x y z : Space} {P P' : Set Place} {a : Place}

theorem CopyOf.congr (h : CopyOf z P x) (hP : ∀ b ∈ z.places, b ∈ P' ↔ b ∈ P) : CopyOf z P' x := by
  refine ⟨fun b => ?_, h.flag, h.words⟩
  rw [h.places]
  refine and_congr_right fun hb => ?_
  rw [hP b hb]

/-- One more place is there. -/
theorem CopyOf.add (h : CopyOf z P x) (ha : a ∈ z.places) (hplaces : y.places = insert a x.places)
    (hself : y.flag a = z.flag a) (hflag : ∀ b ∈ x.places, y.flag b = x.flag b)
    (hpage : ∀ pde pte, a = .page pde pte → y.words a = z.words a)
    (hwords : ∀ b ∈ x.places, y.words b = x.words b) (hP : ∀ b ∈ z.places, b ∈ P' ↔ b ∈ P ∧ b ≠ a) :
    CopyOf z P' y := by
  refine ⟨fun b => ?_, fun b hb hd => ?_, fun pde pte hb => ?_⟩
  · rw [hplaces, Finset.mem_insert, h.places]
    constructor
    · rintro (rfl | ⟨hb, hnot⟩)
      · exact ⟨ha, fun hm => ((hP _ ha).mp hm).2 rfl⟩
      · exact ⟨hb, fun hm => hnot ((hP b hb).mp hm).1⟩
    · rintro ⟨hb, hnot⟩
      by_cases e : b = a
      · exact .inl e
      · exact .inr ⟨hb, fun hm => hnot ((hP b hb).mpr ⟨hm, e⟩)⟩
  · rw [hplaces] at hb
    rcases Finset.mem_insert.mp hb with rfl | hb
    · exact hself
    · rw [hflag b hb, h.flag b hb hd]
  · rw [hplaces] at hb
    rcases Finset.mem_insert.mp hb with e | hb
    · rw [e]
      exact hpage pde pte e.symm
    · rw [hwords _ hb, h.words pde pte hb]

/-- A new table with its entry. -/
theorem Sound.addTable (h : x.Sound) {pde f k : Nat} {w : Nat → Nat} (hp : .table pde ∉ x.places) :
    x.Grown (((x.take (.table pde) f w).setFlag (.table pde) (some k)).setProc
      { x.proc with memPages := u32 (x.proc.memPages + 1) }) := by
  refine ⟨⟨fun a ha hd hh => ?_, ?_, ?_, h.limit, ?_, ?_⟩, rfl⟩
  · simp only [setProc_flag, setFlag_flag, take_flag]
    by_cases e : a = .table pde
    · simp [e]
    · rw [Function.update_of_ne e]
      exact h.linked a ((Finset.mem_insert.mp ha).resolve_left e) hd hh
  · simp [h.hand]
  · simp [h.dir]
  · show x.proc.pageDir = castPhysicalToVirtual (Function.update x.frame (.table pde) f .dir * pageSize)
    rw [Function.update_of_ne (by simp)]
    exact h.pageDir
  · show u32 (x.proc.memPages + 1) = u32 (insert (Place.table pde) x.places).card
    rw [Finset.card_insert_of_notMem hp, h.pages]
    unfold u32
    omega

end Space

theorem or_one_of_odd {k : Nat} (h : k % 2 = 1) : k ||| 1 = k := by
  have hk : k = 2 ^ 1 * (k / 2) ||| 1 := by
    rw [← Nat.two_pow_add_eq_or_of_lt (by decide)]
    omega
  rw [hk, Nat.or_assoc, Nat.or_self]

section
variable {freeAddr entriesAddr : Nat} {entries : Array Pmm.MmapEntry} {E : Env} {x z : Space} {t : Prop} {o : Nat}

theorem after_clonePtes (hw : WindowOk freeAddr entriesAddr entries) (hz : Source E o z) {pde cloneTab : Nat}
    (hpde : pde < userPdes) {P : Set Place} (ht : .table pde ∈ z.places) (hP : .table pde ∉ P ∧ ∀ pte, .page pde pte ∉ P) (l : List Nat) :
    ∀ {x : Space}, l.Nodup → (∀ pte ∈ l, pte < numPte) → x.Sound → Space.CopyOf z (inPages pde l ∪ P) x →
      cloneTab = x.ptr (.table pde) →
      After t (Rep freeAddr entriesAddr entries E) x (clonePtes E.owner (z.ptr (.table pde)) cloneTab l)
        (fun b y => x.Grown y ∧ (x.AllUser → y.AllUser) ∧ (b = true → Space.CopyOf z P y)) := by
  induction l with
  | nil =>
    intro x _ _ hx hc _
    refine After.pure ⟨hx.grown, id, fun _ => hc.congr fun b _ => ?_⟩
    simp [inPages]
  | cons pte l ih =>
    intro x hnd hlt hx hc htab
    rw [List.nodup_cons] at hnd
    have hpte := hlt pte List.mem_cons_self
    have hlt' : ∀ pte ∈ l, pte < numPte := fun i hi => hlt i (List.mem_cons_of_mem _ hi)
    have hmem : ∀ b, b ∈ inPages pde (pte :: l) ∪ P ↔ b = .page pde pte ∨ b ∈ inPages pde l ∪ P := by
      intro b
      rw [Set.mem_union, Set.mem_union, ← or_assoc]
      refine or_congr_left ?_
      simp [inPages]
    have hxt : .table pde ∈ x.places := by
      rw [hc.places]
      refine ⟨ht, ?_⟩
      rintro (⟨i, -, e⟩ | hm)
      · cases e
      · exact hP.1 hm
    unfold clonePtes
    refine After.bind (after_vmmGetPageIndex hz ht hpte) ?_
    rintro ⟨page, flag⟩ y ⟨rfl, ⟨hp, h0⟩ | ⟨hp, h0, hpage, hflag⟩⟩
    · -- no page there
      dsimp only at h0 ⊢
      rw [if_pos h0]
      refine ih hnd.2 hlt' hx (hc.congr fun b hb => ?_) htab
      rw [hmem]
      refine (or_iff_right ?_).symm
      rintro rfl
      exact hp hb
    dsimp only at h0 hpage hflag ⊢
    rw [if_neg h0]
    refine after_of_rep fun m hm => ?_
    refine After.bind (after_alloc hw hx.hand) ?_
    rintro paddr v (⟨rfl, rfl⟩ | ⟨f, w, rfl, hf0, hflt, -, rfl⟩)
    · rw [if_pos rfl]
      exact After.pure ⟨hx.grown, id, fun h => absurd h (by decide)⟩
    rw [if_neg (by unfold pageSize; omega)]
    refine After.bind after_getState ?_
    rintro _ _ ⟨rfl, m', hm', rfl⟩
    -- the words of the page
    have hwords : m'.state.mem (Slab.frame (castPhysicalToVirtual page)) = z.words (.page pde pte) := by
      rw [hpage]
      show m'.state.mem (Slab.frame (z.ptr (.page pde pte))) = _
      rw [hz.frame_ptr hp, hm'.kept _ (hz.kept _ hp)]
      exact (Space.fits_words (by simp [Place.HasEntries])).mp (hz.fits _ hp)
    rw [hwords]
    have hframe : (y.take .hand f w).frame .hand = f := by simp
    have hptr : castPhysicalToVirtual (f * pageSize) = (y.take .hand f w).ptr .hand := by rw [Space.ptr, hframe]
    rw [hptr]
    refine After.bind (after_storePage hw (Finset.mem_insert_self _ _) (by simp [Place.HasEntries]) _) ?_
    rintro _ v rfl
    have hv := (Space.Holding.take y f w).setWords (z.words (.page pde pte))
    have hvframe : ((y.take .hand f w).setWords .hand (z.words (.page pde pte))).frame .hand = f := hframe
    generalize (y.take .hand f w).setWords .hand (z.words (.page pde pte)) = v at hv hvframe
    subst hvframe
    -- the page `n` goes into the table
    obtain ⟨n, hn, hdiv⟩ := exists_vpage pde hpte
    have hfresh : vpage n ∉ y.places := by
      rw [hn, hc.places, hmem]
      exact fun h => h.2 (.inl rfl)
    have hodd := hz.ok.flag _ _ hflag
    have htab' : cloneTab = v.ptr (.table pde) := by
      rw [htab, Space.ptr, Space.ptr, hv.frame _ (by simp)]
    rw [htab']
    refine After.bind (after_vmmMapPageIndex hw ?_ ?_ ((hv.mem (by simp)).mpr hxt) hpte hodd.2.1) ?_
    · rw [hv.places]
      exact Finset.mem_insert_self _ _
    · rw [hv.mem (by simp), ← hn]
      exact hfresh
    rintro _ _ rfl
    rw [or_one_of_odd hodd.2.2, ← hn]
    have hadd : Space.Added flag n (z.words (.page pde pte)) y (v.putHand (vpage n) flag) := by
      refine hv.added hx hfresh ?_ (fun _ _ => rfl) (fun _ _ => rfl) (fun h => ?_) (fun _ _ => rfl) rfl
      · rw [hdiv, Finset.insert_eq_of_mem ((hv.mem (by simp)).mpr hxt)]
      · rw [hdiv] at h
        exact absurd hxt h
    have hproc : (v.putHand (vpage n) flag).proc = y.proc := hv.proc
    refine After.bind (after_modifyProc _) ?_
    rintro _ _ rfl
    rw [hproc, ← htab']
    have hgrown : y.Grown ((v.putHand (vpage n) flag).setProc { y.proc with memPages := u32 (y.proc.memPages + 1) }) :=
      hadd.grown hx (by rw [hdiv, if_pos hxt])
    refine (ih hnd.2 hlt' hgrown.1 (hc.add hp ?_ ?_ (fun b hb => ?_) (fun _ _ _ => ?_) (fun b hb => ?_) fun b hb => ?_)
      ?_).mono ?_
    · rw [Space.setProc_places, hadd.places, hn, hdiv, Finset.insert_eq_of_mem hxt]
    · rw [Space.setProc_flag, ← hn, hadd.page.1, hn, hflag]
    · rw [Space.setProc_flag]
      refine hadd.flag b ?_ fun _ => hb
      rintro rfl
      exact hfresh hb
    · rw [Space.setProc_words, ← hn, hadd.page.2, hn]
    · rw [Space.setProc_words, hadd.words b hb]
    · rw [hmem]
      constructor
      · intro hb'
        refine ⟨.inr hb', ?_⟩
        rintro rfl
        rcases hb' with ⟨i, hi, e⟩ | hb'
        · obtain rfl := (Place.page.inj e).2
          exact hnd.1 hi
        · exact hP.2 pte hb'
      · rintro ⟨hb', hne⟩
        exact hb'.resolve_left hne
    · rw [htab, Space.ptr, Space.ptr, Space.setProc_frame, hadd.frame _ hxt]
    · rintro b u ⟨hg, huser, hcopy⟩
      exact ⟨hgrown.trans hg, fun h => huser ((hadd.allUser (hdiv ▸ hpde) h).setProc _), hcopy⟩

theorem mem_inTables_cons {pde : Nat} {l : List Nat} {b : Place} :
    b ∈ inTables (pde :: l) ↔ b = .table pde ∨ (∃ pte, b = .page pde pte) ∨ b ∈ inTables l := by
  simp [inTables, or_assoc]

theorem after_clonePdes (hw : WindowOk freeAddr entriesAddr entries) (hz : Source E o z) {cloneDir : Nat} (l : List Nat) :
    ∀ {x : Space}, l.Nodup → (∀ pde ∈ l, pde < userPdes) → x.Sound → Space.CopyOf z (inTables l) x →
      cloneDir = x.proc.pageDir →
      After t (Rep freeAddr entriesAddr entries E) x (clonePdes E.owner (z.ptr .dir) cloneDir l)
        (fun b y => x.Grown y ∧ (x.AllUser → y.AllUser) ∧ (b = true → Space.CopyOf z ∅ y)) := by
  induction l with
  | nil =>
    intro x _ _ hx hc _
    refine After.pure ⟨hx.grown, id, fun _ => hc.congr fun b _ => ?_⟩
    simp [inTables]
  | cons pde l ih =>
    intro x hnd hlt hx hc hdir
    rw [List.nodup_cons] at hnd
    have hpde := hlt pde List.mem_cons_self
    have hlt' : ∀ pde ∈ l, pde < userPdes := fun i hi => hlt i (List.mem_cons_of_mem _ hi)
    have hout : .table pde ∉ inTables l ∧ ∀ pte, .page pde pte ∉ inTables l := by
      refine ⟨?_, fun pte => ?_⟩ <;> simp [inTables, hnd.1]
    have hxt : .table pde ∉ x.places := by
      rw [hc.places, mem_inTables_cons]
      exact fun h => h.2 (.inl rfl)
    unfold clonePdes
    refine After.bind (after_vmmGetPageTableIndex hz hpde) ?_
    rintro ⟨pageTab, tabFlag⟩ y ⟨rfl, ⟨ht, h0⟩ | ⟨ht, h0, htab, hflag⟩⟩
    · -- no table there
      dsimp only at h0 ⊢
      rw [if_pos h0]
      refine ih hnd.2 hlt' hx (hc.congr fun b hb => ?_) hdir
      rw [mem_inTables_cons]
      refine ⟨fun h => .inr (.inr h), ?_⟩
      rintro (rfl | ⟨pte, rfl⟩ | h)
      · exact absurd hb ht
      · exact absurd (hz.ok.page _ _ hb).1 ht
      · exact h
    dsimp only at h0 htab hflag ⊢
    rw [if_neg h0, htab]
    refine after_of_rep fun m hm => ?_
    have hlimit : pde < y.limit := lt_of_lt_of_eq (hpde.trans (by decide)) hx.limit.symm
    have hchild : ∀ i, y.flag ((Place.table pde).entry i) = none := by
      intro i
      exact hm.ok.flag_none fun hi => hxt (hm.ok.page _ _ hi).1
    refine After.bind (after_allocEntries hw hxt trivial rfl hchild ?_) ?_
    · rintro _ e
      exact ⟨hx.dir, Place.table.inj e ▸ hlimit⟩
    rintro cloneTab v (⟨rfl, rfl⟩ | ⟨f, w, -, -, hne, hptr, rfl⟩)
    · rw [if_pos rfl]
      exact After.pure ⟨hx.grown, id, fun h => absurd h (by decide)⟩
    have hodd := hz.ok.flag _ _ hflag
    have hdir' : cloneDir = (y.take (.table pde) f w).ptr .dir := by
      rw [hdir, hx.pageDir]
      simp [Space.ptr]
    rw [if_neg hne, hdir', hptr]
    refine After.bind (after_vmmMapPageTableIndex hw (Finset.mem_insert_of_mem hx.dir) (Finset.mem_insert_self _ _)
      hlimit hodd.2.1) ?_
    rintro _ _ rfl
    rw [or_one_of_odd hodd.2.2]
    refine After.bind (after_modifyProc _) ?_
    rintro _ _ rfl
    have hgrown := hx.addTable (f := f) (k := tabFlag) (w := w) hxt
    -- the pages of the table
    have hne' : ∀ b ∈ y.places, b ≠ .table pde := by
      rintro b hb rfl
      exact hxt hb
    refine After.bind (after_clonePtes hw hz hpde ht hout (List.range numPte) List.nodup_range (fun i hi => List.mem_range.mp hi)
      hgrown.1 (hc.add ht rfl ?_ (fun b hb => ?_) (fun _ _ e => by cases e) (fun b hb => ?_) fun b hb => ?_) rfl) ?_
    · rw [hflag]
      exact Function.update_self _ _ _
    · exact Function.update_of_ne (hne' b hb) _ _
    · exact Function.update_of_ne (hne' b hb) _ _
    · rw [mem_inTables_cons]
      constructor
      · rintro (⟨pte, hpte, rfl⟩ | hb')
        · exact ⟨.inr (.inl ⟨pte, rfl⟩), by simp⟩
        · refine ⟨.inr (.inr hb'), ?_⟩
          rintro rfl
          exact hout.1 hb'
      · rintro ⟨rfl | ⟨pte, rfl⟩ | hb', hne⟩
        · exact absurd rfl hne
        · exact .inl ⟨pte, List.mem_range.mpr (hz.ok.page _ _ hb).2, rfl⟩
        · exact .inr hb'
    rintro ok v ⟨hg, huser, hcopy⟩
    have huser' : y.AllUser → v.AllUser := by
      intro h
      refine huser (Space.AllUser.setProc (fun a ha => ?_) _)
      rcases Finset.mem_insert.mp ha with rfl | ha
      · exact hpde
      · exact h a ha
    cases ok with
    | false => exact After.pure ⟨hgrown.trans hg, huser', fun h => absurd h (by decide)⟩
    | true =>
      rw [if_pos rfl, ← hdir']
      refine (ih hnd.2 hlt' hg.1 (hcopy rfl) ?_).mono fun b u hu =>
        ⟨hgrown.trans (hg.trans hu.1), fun h => hu.2.1 (huser' h), hu.2.2⟩
      rw [hdir, (hgrown.trans hg).2]

/-- Nothing but the directory is there. -/
theorem Source.copyOf_empty (hz : Source E o z) {p : Process} (hx : Space.Empty p x) :
    Space.CopyOf z (inTables (List.range userPdes)) x := by
  refine ⟨fun a => ?_, fun a ha hd => ?_, fun pde pte hm => ?_⟩
  · rw [hx.places, Finset.mem_singleton]
    have htable : ∀ pde, .table pde ∈ z.places → pde ∈ List.range userPdes :=
      fun pde hm => List.mem_range.mpr (lt_of_lt_of_eq (hz.ok.table pde hm).2 hz.limit)
    cases a with
    | dir => simp [hz.dir, inTables]
    | table pde =>
      simp only [reduceCtorEq, false_iff, not_and, not_not]
      exact fun hm => ⟨pde, htable pde hm, .inl rfl⟩
    | page pde pte =>
      simp only [reduceCtorEq, false_iff, not_and, not_not]
      exact fun hm => ⟨pde, htable pde (hz.ok.page _ _ hm).1, .inr ⟨pte, rfl⟩⟩
    | hand => simp [hz.hand]
  · rw [hx.places, Finset.mem_singleton] at ha
    exact absurd ha hd
  · simp [hx.places] at hm

theorem after_initProcFromProc (hw : WindowOk freeAddr entriesAddr entries) (hz : Source E o z) {p : Process}
    (hp : p.memPages = 0) (hk : Slab.frame E.start.pgDir ∈ E.kept) :
    After t (RepIn freeAddr entriesAddr entries) (E, Space.new p) (initProcFromProc E.owner o) (fun b d =>
      (b = false ∧ d.1 = E ∧ Unfinished p d.2 ∧ d.2.AllUser) ∨
      (b = true ∧ ∃ x, x.Sound ∧ x.proc.pid = p.pid ∧ Space.CopyOf z ∅ x ∧ Finished E x d)) := by
  unfold initProcFromProc
  refine After.bind (after_inEnv (after_initPageDir hw hp)) ?_
  rintro b ⟨E', x⟩ ⟨hE, hx⟩
  obtain rfl : E' = E := hE
  rcases hx with ⟨rfl, hx⟩ | ⟨rfl, hx⟩
  · refine After.pure (.inl ⟨rfl, rfl, .inl hx, ?_⟩)
    rw [show x = Space.new _ from hx]
    exact allUser_new
  rw [if_pos rfl]
  refine After.bind (after_inEnv (after_getProcKept hz.ne hz.proc)) ?_
  rintro q ⟨E, v⟩ ⟨hE, hq, hv⟩
  obtain rfl : E = E' := hE
  obtain rfl : v = x := hv
  obtain rfl : q = z.proc := hq
  refine After.bind (after_inEnv after_getProc) ?_
  rintro q ⟨E, x⟩ ⟨hE, hq, hv⟩
  obtain rfl : x = v := hv
  obtain rfl : q = x.proc := hq
  obtain rfl := hE
  rw [hz.pageDir]
  refine After.bind (after_inEnv (after_clonePdes hw hz (List.range userPdes) List.nodup_range
    (fun i hi => List.mem_range.mp hi) hx.sound (hz.copyOf_empty hx) rfl)) ?_
  rintro b ⟨E, y⟩ ⟨hE, hg, huser, hcopy⟩
  obtain rfl := hE
  dsimp only at *
  have hpid : y.proc.pid = p.pid := by rw [hg.2, hx.proc]
  cases b with
  | false => exact After.pure (.inl ⟨rfl, rfl, .inr ⟨hg.1, hpid⟩, huser hx.allUser⟩)
  | true =>
    rw [if_pos rfl, show x.proc.pageDir = y.proc.pageDir by rw [hg.2]]
    refine After.bind (after_finish hw hg.1 hk) ?_
    rintro _ d hd
    exact After.pure (.inr ⟨rfl, y, hg.1, hpid, hcopy rfl, hd⟩)

end
end Airix.Proc
