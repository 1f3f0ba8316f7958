import Airix.Proc.Load

/-!
# Complete spaces

The last step in making a process is `pg_copy_kernel_space`. What the construction had from `KERNEL_BASE` on is out
of reach then, and its frames are lost.
-/

namespace Airix.Proc
open Exec (After)

/-- The space of a complete process: it ends at `KERNEL_BASE`, and from there on the directory is the kernel's. -/
structure Settled (s : State) (o : Nat) (z : Space) : Prop where
  ok : z.Ok
  fits : ∀ a ∈ z.places, z.Fits a (s.mem (z.frame a))
  proc : s.procs o = some z.proc
  linked : z.Linked
  hand : .hand ∉ z.places
  dir : .dir ∈ z.places
  limit : z.limit = userPdes
  pageDir : z.proc.pageDir = z.ptr .dir
  used : ∀ a ∈ z.places, z.frame a ≠ 0 ∧ z.frame a < 0x40000 ∧ ¬ Pmm.FreePage s.slab.pmm (z.frame a)
  kernel : ∀ i, userPdes ≤ i → i < numPde → z.words .dir i = s.mem (Slab.frame s.pgDir) i

namespace Settled
variable {s : State} {o : Nat} {z : Space} {a b : Place}

theorem frame_ptr (h : Settled s o z) (ha : a ∈ z.places) : Slab.frame (z.ptr a) = z.frame a :=
  frame_cast ((h.used a ha).2.1.trans (by decide))

theorem flag_iff (h : Settled s o z) (ha : a ≠ .dir) (ha' : a ≠ .hand) : z.flag a = none ↔ a ∉ z.places :=
  h.ok.flag_iff h.linked ha ha'

theorem congr (h : Settled s o z) {s' : State} (hproc : s'.procs o = some z.proc)
    (hmem : ∀ a ∈ z.places, s'.mem (z.frame a) = s.mem (z.frame a))
    (hused : ∀ a ∈ z.places, ¬ Pmm.FreePage s'.slab.pmm (z.frame a)) (hdir : s'.pgDir = s.pgDir)
    (hkernel : s'.mem (Slab.frame s.pgDir) = s.mem (Slab.frame s.pgDir)) : Settled s' o z := by
  refine { h with
    fits := fun a ha => ?_
    proc := hproc
    used := fun a ha => ⟨(h.used a ha).1, (h.used a ha).2.1, hused a ha⟩
    kernel := fun i hi hi' => ?_ }
  · rw [hmem a ha]
    exact h.fits a ha
  · rw [hdir, hkernel]
    exact h.kernel i hi hi'

theorem setProc (h : Settled s o z) {p : Process} (hp : p.pageDir = z.proc.pageDir) {s' : State}
    (hproc : s'.procs o = some p) (hmem : s'.mem = s.mem) (hslab : s'.slab = s.slab) (hdir : s'.pgDir = s.pgDir) :
    Settled s' o (z.setProc p) := by
  refine ⟨h.ok.setProc, fun a ha => ?_, hproc, h.linked, h.hand, h.dir, h.limit, hp.trans h.pageDir, ?_, ?_⟩
  · rw [hmem]
    exact (h.fits a ha).congr rfl (fun _ _ => ⟨rfl, fun _ => rfl⟩) rfl
  · rw [hslab]
    exact h.used
  · rw [hmem, hdir]
    exact h.kernel

end Settled

/-! ### Below `KERNEL_BASE` -/

/-- The frames in `S` are lost. -/
def Env.without (E : Env) (S : Set Nat) : Env := { E with
  free := E.free \ S
  disjoint := fun f hf hm => E.disjoint f hf hm.1 }

namespace Space

/-- What is left of a space below `KERNEL_BASE`; the words `w` are in the directory. -/
def restrict (x : Space) (w : Nat → Nat) : Space where
  proc := x.proc
  limit := userPdes
  places := x.places.filter Place.User
  frame := x.frame
  flag := fun a => if a.User then x.flag a else none
  words := Function.update x.words .dir w

/-- The other frames. -/
def lost (x : Space) : Set Nat := {f | ∃ a ∈ x.places, ¬ a.User ∧ x.frame a = f}

variable {x : Space} {w : Nat → Nat} {a : Place}

theorem mem_restrict : a ∈ (x.restrict w).places ↔ a ∈ x.places ∧ a.User := Finset.mem_filter

theorem restrict_flag (ha : a.User) : (x.restrict w).flag a = x.flag a := if_pos ha

theorem Ok.restrict (h : x.Ok) : (x.restrict w).Ok := by
  refine ⟨fun a ha b hb e => h.inj a (mem_restrict.mp ha).1 b (mem_restrict.mp hb).1 e, fun a k hk => ?_, fun pde hm => ?_,
    fun pde pte hm => ?_, ?_⟩
  · have hu : a.User := by
      by_contra hu
      rw [show (x.restrict w).flag a = none from if_neg hu] at hk
      cases hk
    rw [restrict_flag hu] at hk
    obtain ⟨ha, hlt⟩ := h.flag a k hk
    exact ⟨mem_restrict.mpr ⟨ha, hu⟩, hlt⟩
  · obtain ⟨hm, hu⟩ := mem_restrict.mp hm
    exact ⟨mem_restrict.mpr ⟨(h.table pde hm).1, trivial⟩, hu⟩
  · obtain ⟨hm, hu⟩ := mem_restrict.mp hm
    obtain ⟨ht, hlt⟩ := h.page pde pte hm
    exact ⟨mem_restrict.mpr ⟨ht, hu⟩, hlt⟩
  · rfl

theorem Fits.restrict {v : Nat → Nat} (h : x.Fits a v) (hlimit : x.limit = numPde) (ha : a.User)
    (hw : a = .dir → w = v) : (x.restrict w).Fits a v := by
  have hentry : ∀ b : Place, b.User → ∀ u, x.Entry b u → (x.restrict w).Entry b u :=
    fun b hb u hu => hu.congr (restrict_flag hb) fun _ => rfl
  have hle : userPdes ≤ numPde := by decide
  unfold Fits at h ⊢
  cases a with
  | dir =>
    obtain rfl := hw rfl
    refine ⟨fun i hi => hentry (.table i) hi _ (h.1 i ?_), fun i _ _ => ?_⟩
    · exact lt_of_lt_of_le hi (hle.trans_eq hlimit.symm)
    · simp [restrict]
  | table pde =>
    refine ⟨fun i hi => hentry (.page pde i) ha _ (h.1 i hi), fun i hi hi' => ?_⟩
    exact absurd hi' (not_lt.mpr hi)
  | page pde pte => exact h
  | hand => exact ha.elim

theorem Linked.restrict (h : x.Linked) : (x.restrict w).Linked := by
  intro a ha hd hh
  obtain ⟨hm, hu⟩ := mem_restrict.mp ha
  rw [restrict_flag hu]
  exact h a hm hd hh

/-- All of a space: it ends at `KERNEL_BASE`, where the words `w` of the kernel follow. -/
structure Complete (w : Nat → Nat) (x : Space) : Prop where
  linked : x.Linked
  hand : .hand ∉ x.places
  dir : .dir ∈ x.places
  limit : x.limit = userPdes
  pageDir : x.proc.pageDir = x.ptr .dir
  kernel : ∀ i, userPdes ≤ i → i < numPde → x.words .dir i = w i

end Space

section
variable {freeAddr entriesAddr : Nat} {entries : Array Pmm.MmapEntry} {E : Env} {m : Machine} {x : Space} {t : Prop}

theorem Rep.restrict (h : Rep freeAddr entriesAddr entries E m x) (hlimit : x.limit = numPde) :
    Rep freeAddr entriesAddr entries (E.without x.lost) m (x.restrict (m.state.mem (x.frame .dir))) := by
  refine ⟨h.ok.restrict, fun a ha => ?_, h.proc, ?_, fun a ha => ?_, fun f => ?_, h.kept, h.others, h.rest⟩
  · obtain ⟨ha, hu⟩ := Space.mem_restrict.mp ha
    refine (h.fits a ha).restrict hlimit hu ?_
    rintro rfl
    rfl
  · obtain ⟨frames, hrun, hin⟩ := h.run
    exact ⟨frames, hrun, fun a ha => hin a (Space.mem_restrict.mp ha).1⟩
  · obtain ⟨ha, hu⟩ := Space.mem_restrict.mp ha
    refine ⟨h.mem_free a ha, ?_⟩
    rintro ⟨b, hb, hnu, e⟩
    exact hnu (h.ok.inj b hb a ha e ▸ hu)
  · rw [h.free]
    constructor
    · rintro ⟨hf, hne⟩
      refine ⟨⟨hf, ?_⟩, fun a ha => hne a (Space.mem_restrict.mp ha).1⟩
      rintro ⟨b, hb, -, e⟩
      exact hne b hb e
    · rintro ⟨⟨hf, hlost⟩, hne⟩
      refine ⟨hf, fun a ha e => ?_⟩
      by_cases hu : a.User
      · exact hne a (Space.mem_restrict.mpr ⟨ha, hu⟩) e
      · exact hlost ⟨a, ha, hu, e⟩

theorem Rep.settled (h : Rep freeAddr entriesAddr entries E m x) (hw : WindowOk freeAddr entriesAddr entries)
    (hx : x.Complete (E.start.mem (Slab.frame E.start.pgDir))) (hk : Slab.frame E.start.pgDir ∈ E.kept) :
    Settled m.state E.owner x := by
  refine ⟨h.ok, h.fits, h.proc, hx.linked, hx.hand, hx.dir, hx.limit, hx.pageDir, fun a ha => ?_, fun i hi hi' => ?_⟩
  · obtain ⟨h0, hlt⟩ := h.frame_spec hw ha
    exact ⟨h0, hlt, fun hf => ((h.free _).mp hf).2 a ha rfl⟩
  · rw [h.rest.pgDir, h.kept _ hk]
    exact hx.kernel i hi hi'

/-- The kernel's entries get into the directory. -/
theorem after_pgCopyKernelSpace (hw : WindowOk freeAddr entriesAddr entries) (hd : .dir ∈ x.places)
    (hlimit : x.limit = userPdes) (hk : Slab.frame E.start.pgDir ∈ E.kept) :
    After t (Rep freeAddr entriesAddr entries E) x (pgCopyKernelSpace (x.ptr .dir)) (fun _ y => ∃ w, y = x.setWords .dir w ∧
      ∀ i, userPdes ≤ i → i < numPde → w i = E.start.mem (Slab.frame E.start.pgDir) i) := by
  unfold pgCopyKernelSpace
  refine After.bind after_getState ?_
  rintro _ x ⟨rfl, m, hm, rfl⟩
  dsimp only
  rw [hm.frame_ptr hw hd, hm.rest.pgDir, hm.kept _ hk]
  have hbase : vmmPdeIndex kernelBase = userPdes := by decide
  rw [hbase]
  generalize hv : (fun i => if userPdes ≤ i ∧ i < numPde then E.start.mem (Slab.frame E.start.pgDir) i
    else m.state.mem (x.frame .dir) i) = v
  refine After.of_run fun m' h => ⟨(), _, x.setWords .dir v, update_ok.mpr rfl, ?_, v, rfl, fun i hi hi' => ?_⟩
  swap
  · rw [← hv]
    exact if_pos ⟨hi, hi'⟩
  rw [h.frame_ptr hw hd]
  refine h.setMem hd rfl rfl rfl h.ok.setWords ?_ fun b hb hne v hv => ?_
  · have hfit := hm.fits _ hd
    have hdir : Place.dir.HasEntries := trivial
    unfold Space.Fits at hfit ⊢
    rw [if_pos hdir] at hfit ⊢
    refine ⟨fun i hi => ?_, fun i hi hi' => by simp⟩
    have hlt : i < userPdes := lt_of_lt_of_eq hi hlimit
    rw [← hv]
    dsimp only
    rw [if_neg (by omega)]
    exact (hfit.1 i hi).congr rfl fun _ => rfl
  · exact hv.congr rfl (fun i _ => ⟨rfl, fun _ => rfl⟩) (Function.update_of_ne hne _ _)

/-- The environment may change on the way. -/
def RepIn (freeAddr entriesAddr : Nat) (entries : Array Pmm.MmapEntry) (m : Machine) (d : Env × Space) : Prop :=
  Rep freeAddr entriesAddr entries d.1 m d.2

theorem after_inEnv {α : Type} {c : M α} {Q : α → Space → Prop} (h : After t (Rep freeAddr entriesAddr entries E) x c Q) :
    After t (RepIn freeAddr entriesAddr entries) (E, x) c (fun a d => d.1 = E ∧ Q a d.2) := by
  refine fun m hm => ⟨fun a m' hr => ?_, (h m hm).2⟩
  obtain ⟨y, hy, hq⟩ := (h m hm).1 a m' hr
  exact ⟨(E, y), hy, rfl, hq⟩

/-- The space `x` when its process is complete. -/
def Finished (E : Env) (x : Space) (d : Env × Space) : Prop :=
  d.1 = E.without x.lost ∧ ∃ w w', d.2 = (x.restrict w).setWords .dir w' ∧
    ∀ i, userPdes ≤ i → i < numPde → w' i = E.start.mem (Slab.frame E.start.pgDir) i

theorem Space.Sound.restrict_ptr (hx : x.Sound) {w : Nat → Nat} : x.proc.pageDir = (x.restrict w).ptr .dir := hx.pageDir

theorem Space.Sound.complete (hx : x.Sound) {d : Env × Space} (h : Finished E x d) :
    d.2.Complete (E.start.mem (Slab.frame E.start.pgDir)) := by
  obtain ⟨-, w, w', hd, hk⟩ := h
  rw [hd]
  refine ⟨hx.linked.restrict (w := w), fun hm => hx.hand (Space.mem_restrict (w := w).mp hm).1,
    Space.mem_restrict (w := w).mpr ⟨hx.dir, trivial⟩, rfl, hx.pageDir, fun i hi hi' => ?_⟩
  rw [← hk i hi hi']
  simp

/-- The end of `init_proc_from_elf` and of `init_proc_from_proc`. -/
theorem after_finish (hw : WindowOk freeAddr entriesAddr entries) (hx : x.Sound) (hk : Slab.frame E.start.pgDir ∈ E.kept) :
    After t (RepIn freeAddr entriesAddr entries) (E, x) (pgCopyKernelSpace x.proc.pageDir) (fun _ d => Finished E x d) := by
  intro m hm
  rw [hx.restrict_ptr]
  have hr := Rep.restrict hm hx.limit
  have hdir : Place.dir ∈ (x.restrict (m.state.mem (x.frame .dir))).places := Space.mem_restrict.mpr ⟨hx.dir, trivial⟩
  refine (after_inEnv (after_pgCopyKernelSpace (E := E.without x.lost) hw hdir rfl hk)).mono ?_ m hr
  rintro _ d ⟨hE, w', hd, hw'⟩
  exact ⟨hE, _, w', hd, hw'⟩

end
end Airix.Proc
