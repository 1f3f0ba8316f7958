import Airix.Bio.Model
import Airix.Proc.Alloc
import Airix.Proc.Map
import Airix.Slab.Life
import Airix.Vfs.Model

/-!
# When no page is free

`alloc_slab_page` panics when the page allocator has nothing, so a caller of `slab_alloc` never sees the null
pointer that it tests for. What decides is whether the cache still has a slab with a free object.
-/

namespace Airix.Slab

/-- One of the two lists that `alloc_object` looks into has a slab. -/
def HasFree (s : State) (c : Cache) : Prop :=
  s.links.next (.head c .partialSlab) ≠ some (.head c .partialSlab) ∨
    s.links.next (.head c .freeSlab) ≠ some (.head c .freeSlab)

section
variable {freeAddr entriesAddr : Nat} {entries : Array Pmm.MmapEntry} {s s' : State}
  {live : Nat → Option Live} {others : Finset (Nat × Nat)} {c : Cache}

theorem Run.alloc_none (hboot : Pmm.BootOk freeAddr entriesAddr entries)
    (h : Run freeAddr entriesAddr entries s live others) (hfree : ∀ x, ¬ Pmm.FreePage s.pmm x) :
    ∃ pmm, Pmm.pmmAllocPages s.pmm 0 = some (0, pmm) := by
  obtain ⟨p, pmm, he, -, hsome⟩ := h.alloc_page hboot
  by_cases h0 : p = 0
  · exact ⟨pmm, h0 ▸ he⟩
  · exact absurd (hsome h0).2.1 (hfree p)

/-- With no free page `slab_alloc` returns when the cache has a free object, and only then. -/
theorem Run.slabAlloc_iff (hboot : Pmm.BootOk freeAddr entriesAddr entries)
    (h : Run freeAddr entriesAddr entries s live others) (hc : Valid live c)
    (hfree : ∀ x, ¬ Pmm.FreePage s.pmm x) : (∃ r, slabAlloc s c = .ok r) ↔ HasFree s c := by
  obtain ⟨pmm, hnone⟩ := h.alloc_none hboot hfree
  obtain ⟨lists, hinv⟩ := (h.inv hboot).inv
  have hring : ∀ w, s.links.next (.head c w) = some (.head c w) ↔ lists (c, w) = [] := by
    intro w
    rw [(hinv.rings.ring (c, w) hc).next_eq_self_iff, List.map_eq_nil_iff]
  have hempty : ∀ w, lists (c, w) = [] → allocObjectFromSlabList s c w = .ok (0, s) := by
    intro w hw
    unfold allocObjectFromSlabList
    rw [(hring w).mpr hw]
  have hobj : ∀ w, w ≠ .fullSlab → lists (c, w) ≠ [] →
      ∃ o s', allocObjectFromSlabList s c w = .ok (o, s') ∧ o ≠ 0 := by
    intro w hw hne
    obtain ⟨a, l, hl⟩ := List.exists_cons_of_ne_nil hne
    have hnext : s.links.next (.head c w) = some (.page a) := by
      rw [(hinv.rings.ring (c, w) hc).next_eq, hl]
      rfl
    obtain ⟨o, s', -, he, ho, -⟩ :=
      hinv.allocObjectFromSlab (k := (c, w)) (hl ▸ List.mem_cons_self) hw (Nat.zero_le _)
    refine ⟨o, s', ?_, ho⟩
    unfold allocObjectFromSlabList
    rw [hnext]
    exact he
  unfold slabAlloc allocObject HasFree
  rw [Ne, Ne, hring, hring]
  by_cases hp : lists (c, .partialSlab) = []
  · simp only [hempty _ hp, bind, Except.bind]
    rw [if_neg (by simp)]
    by_cases hf : lists (c, .freeSlab) = []
    · simp only [hempty _ hf]
      rw [if_neg (by simp)]
      refine iff_of_false ?_ (by simp [hp, hf])
      unfold allocObjectFromNewSlab allocSlabPage
      rw [hnone]
      simp [bind, Except.bind, pageAddress, u32]
    · obtain ⟨o, s', he, ho⟩ := hobj .freeSlab (by simp) hf
      simp only [he]
      rw [if_pos ho]
      exact iff_of_true ⟨_, rfl⟩ (.inr hf)
  · obtain ⟨o, s', he, ho⟩ := hobj .partialSlab (by simp) hp
    simp only [he, bind, Except.bind]
    rw [if_pos ho]
    exact iff_of_true ⟨_, rfl⟩ (.inl hp)

/-- What was just allocated can be freed. -/
theorem Run.slabFree_alloc (hboot : Pmm.BootOk freeAddr entriesAddr entries)
    (h : Run freeAddr entriesAddr entries s live others) {c o : Nat} (hc : Valid live (.created c))
    (he : slabAlloc s (.created c) = .ok (o, s')) : ∃ s'', slabFree s' (.created c) o = .ok s'' := by
  obtain ⟨s'', hs, -⟩ := ((h.alloc hc he).inv hboot).free (Function.update_self ..) (by simp)
  exact ⟨s'', hs⟩

end
end Airix.Slab

namespace Airix.Proc
variable {freeAddr entriesAddr : Nat} {entries : Array Pmm.MmapEntry} {m : Machine}
  {live : Nat → Option Slab.Live} {frames : Finset (Nat × Nat)}

theorem getState_run (m : Machine) : getState.run m = .ok (m.state, m) := rfl

theorem update_run (f : State → State) (m : Machine) :
    (update f).run m = .ok ((), { m with state := f m.state }) := rfl

/-- `alloc_pid` always returns. -/
theorem allocPidFrom_returns (n : Nat) (m : Machine) : ∃ r, (allocPidFrom n).run m = .ok r := by
  induction n generalizing m with
  | zero => exact ⟨_, rfl⟩
  | succ n ih =>
    unfold allocPidFrom
    rw [Exec.bind_run (getState_run m), Exec.bind_run (update_run _ m)]
    split
    · exact ih _
    · rw [Exec.bind_run (update_run _ _)]
      exact ⟨_, rfl⟩

/-- `proc_free` of a process that has a PID at most. -/
theorem procFree_returns {o : Nat} {pid : Int} {slab : Slab.State} (hp : m.state.procs o = some (newProcess pid))
    (hf : Slab.slabFree m.state.slab (.created m.state.procCache) o = .ok slab) : ∃ r, (procFree o).run m = .ok r := by
  have hget : (getProc o).run m = .ok (newProcess pid, m) := getProc_ok.mpr ⟨hp, rfl⟩
  obtain ⟨m₁, h₁, hp₁, hs₁, hc₁⟩ : ∃ m₁, (releasePid pid).run m = .ok ((), m₁) ∧ m₁.state.procs = m.state.procs ∧
      m₁.state.slab = m.state.slab ∧ m₁.state.procCache = m.state.procCache := by
    unfold releasePid
    split_ifs
    · exact ⟨_, rfl, rfl, rfl, rfl⟩
    · exact ⟨_, update_run _ m, rfl, rfl, rfl⟩
  have hspace : (freeSpace o (newProcess pid).pageDir).run m = .ok ((), m) := rfl
  unfold procFree
  rw [Exec.bind_run hget, Exec.bind_run hspace, Exec.bind_run hget, show (newProcess pid).pid = pid from rfl,
    Exec.bind_run h₁, if_neg (by simp [newProcess])]
  unfold slabFreeProc
  rw [Exec.bind_run (getState_run m₁), hs₁, hc₁, hf]
  exact ⟨_, update_run _ m₁⟩

/-- `proc_alloc` returns when its `slab_alloc` does: without a PID the new object is freed again. -/
theorem procAlloc_returns (hboot : Pmm.BootOk freeAddr entriesAddr entries)
    (h : Slab.Run freeAddr entriesAddr entries m.state.slab live frames)
    (hc : Slab.Valid live (.created m.state.procCache)) :
    (∃ r, procAlloc.run m = .ok r) ↔ ∃ r, Slab.slabAlloc m.state.slab (.created m.state.procCache) = .ok r := by
  refine ⟨fun hr => ?_, fun hr => ?_⟩
  · obtain ⟨r, hr⟩ := hr
    unfold procAlloc slabAllocProc at hr
    obtain ⟨o, m₁, h₁, -⟩ := Exec.bind_ok.mp hr
    rw [Exec.bind_run (getState_run m)] at h₁
    split at h₁
    · exact absurd h₁ Exec.throw_ok
    · next he => exact ⟨_, he⟩
  · obtain ⟨⟨o, slab⟩, he⟩ := hr
    obtain ⟨ho, -⟩ := h.alloc_fresh hboot hc he
    obtain ⟨slab', hf⟩ := h.slabFree_alloc hboot hc he
    have h₁ : slabAllocProc.run m = .ok (o, { m with state := { m.state with slab := slab } }) := by
      unfold slabAllocProc
      rw [Exec.bind_run (getState_run m), he]
      rfl
    obtain ⟨⟨pid, m₂⟩, h₂⟩ := allocPidFrom_returns procMaxNum { m with state := { m.state with slab := slab } }
    have hpid := allocPidFrom_spec h₂
    unfold procAlloc allocPid
    rw [Exec.bind_run h₁, if_neg ho, Exec.bind_run h₂, Exec.bind_run (update_run _ m₂)]
    split_ifs
    · obtain ⟨⟨u, m₃⟩, h₃⟩ := procFree_returns (m := { m₂ with state := { m₂.state with
        procs := Function.update m₂.state.procs o (some (newProcess pid)) } }) (Function.update_self ..)
        (by dsimp only; rw [hpid.slab, hpid.procCache]; exact hf)
      exact ⟨(0, m₃), Exec.bind_run h₃⟩
    · exact ⟨_, rfl⟩

end Airix.Proc

namespace Airix.Axfs

/-- The slab allocator behind the calls of the file system; `caches` are the descriptors of its caches. The other
calls may be answered with anything. -/
def slabLayer (caches : Cache → Nat) : Prog.Layer Call Call.Answer Slab.State where
  mayPanic c s := match c with
    | .slabAlloc cache => ∀ r, Slab.slabAlloc s (.created (caches cache)) ≠ .ok r
    | _ => False
  answers c s r s' := match c with
    | .slabAlloc cache => Slab.slabAlloc s (.created (caches cache)) = .ok (r, s')
    | _ => s' = s

/-- The code stands at an allocation that panics. -/
def AllocPanics (caches : Cache → Nat) {α : Type} (s : Slab.State) : P α → Prop
  | .call c _ => (slabLayer caches).mayPanic c s
  | _ => False

/-- No allocation of the program panics. -/
def Reports (caches : Cache → Nat) {α : Type} (p : P α) (s : Slab.State) : Prop :=
  ∀ p' s', Prog.Reach (slabLayer caches) p s p' s' → ¬ AllocPanics caches s' p'

section
variable {caches : Cache → Nat} {α β : Type} {s : Slab.State} {p : P α} {cache : Cache}

/-- A program that starts with an allocation and makes no other one. -/
theorem reports_iff {k : Nat → P α} (hk : ∀ o s, Reports caches (k o) s) :
    Reports caches (slabAlloc cache >>= k) s ↔ ∃ r, Slab.slabAlloc s (.created (caches cache)) = .ok r := by
  refine ⟨fun h => ?_, fun h p' s' hr => ?_⟩
  · by_contra hno
    exact h _ s .refl fun r he => hno ⟨r, he⟩
  · cases hr with
    | refl =>
      obtain ⟨r, he⟩ := h
      exact fun hp => hp r he
    | call _ hr => exact hk _ _ _ _ hr

/-- The program allocates nothing. -/
def Quiet (p : P α) : Prop := ∀ caches s, Prog.Sat (slabLayer caches)
  (fun c s => ¬ (slabLayer caches).mayPanic c s) (fun _ _ => True) (fun _ _ => True) p s

namespace Quiet

theorem pure {a : α} : Quiet (Pure.pure a) := fun _ _ => trivial

theorem stop {e : Stop} : Quiet (.stop e : P α) := fun _ _ => trivial

theorem bind {q : P β} {f : β → P α} (h : Quiet q) (hf : ∀ b, Quiet (f b)) : Quiet (q >>= f) :=
  fun caches s => (h caches s).bind fun b s' _ => hf b caches s'

theorem ite {c : Prop} [Decidable c] {q : P α} (h : Quiet p) (h' : Quiet q) : Quiet (if c then p else q) := by
  split_ifs
  · exact h
  · exact h'

theorem perform {c : Call} (hc : ∀ cache, c ≠ .slabAlloc cache) : Quiet (Prog.perform c) := by
  refine fun caches s => .perform (fun h => ?_) fun _ _ _ => trivial
  cases c with
  | slabAlloc cache => exact hc cache rfl
  | _ => exact h

theorem bioGet {dev : UInt8} {sector : UInt64} : Quiet (Axfs.bioGet dev sector) := perform (by simp)

theorem bioRead {bio : Nat} : Quiet (Axfs.bioRead bio) := perform (by simp)

theorem bioData {bio : Nat} : Quiet (Axfs.bioData bio) := perform (by simp)

theorem bioRelease {bio : Nat} : Quiet (Axfs.bioRelease bio) := perform (by simp)

theorem inodeRead {device : UInt8} {bgIndex index : Nat} : Quiet (Axfs.inodeRead device bgIndex index) :=
  (bioGet.bind fun _ => bioRead.bind fun _ => bioData.bind fun _ => bioRelease.bind fun _ => pure).bind fun _ =>
    bioGet.bind fun _ => bioRead.bind fun _ => bioData.bind fun _ => bioRelease.bind fun _ => pure

theorem reports (h : Quiet p) : Reports caches p s := by
  intro p' s' hr
  cases p' with
  | ret a => exact id
  | stop e => exact id
  | call c k => exact (h caches s).of_call hr

end Quiet

theorem inodeGet_reports {sb : SuperBlock} {device : UInt8} {ino : Nat} :
    Reports caches (inodeGet sb device ino) s ↔ ∃ r, Slab.slabAlloc s (.created (caches .axInode)) = .ok r := by
  refine reports_iff fun o s => Quiet.reports ?_
  exact (Quiet.ite .stop .pure).bind fun _ => (Quiet.ite .stop .pure).bind fun _ =>
    .ite (Quiet.inodeRead.bind fun _ => .pure) .pure

end
end Airix.Axfs

namespace Airix.Vfs
open Axfs
variable {caches : Axfs.Cache → Nat} {s : Slab.State}

theorem allocInode_reports :
    Reports caches allocInode s ↔ ∃ r, Slab.slabAlloc s (.created (caches .inode)) = .ok r :=
  reports_iff fun _ _ => (Quiet.ite .pure .pure).reports

theorem vfsAllocFile_reports :
    Reports caches vfsAllocFile s ↔ ∃ r, Slab.slabAlloc s (.created (caches .file)) = .ok r :=
  reports_iff fun _ _ => (Quiet.ite .pure .pure).reports

end Airix.Vfs

namespace Airix.Bio

/-- The allocations of `slab_alloc_bio`: the address of the buffer, or `none`. -/
def slabAllocBioMem (s : Slab.State) (bioCache : Nat) : Except Slab.Panic (Option Nat × Slab.State) := do
  let (bio, s) ← Slab.slabAlloc s (.created bioCache)
  if bio = 0 then return (none, s)
  match Pmm.pmmAllocPages s.pmm 0 with
  | none => .error .fault
  | some (pageNum, pmm) =>
    let buffer := Proc.castP2vOrNull (pageAddress pageNum)
    let s := { s with pmm := pmm }
    if buffer ≠ 0 then return (some buffer, s)
    let s ← Slab.slabFree s (.created bioCache) bio
    return (none, s)

/-- `bio_get` with the allocators. -/
def bioGetOn (s : Slab.State) (bioCache : Nat) (t : State) (p : Nat) (dev : UInt8) (sector : UInt64) :
    Except Slab.Panic ((State × Option Nat) × Slab.State) :=
  if (findBio t dev (baseSector sector)).isNone ∧ t.count < maxCacheCount then do
    let (mem, s) ← slabAllocBioMem s bioCache
    return (bioGet t p dev sector mem, s)
  else return (bioGet t p dev sector none, s)

section
variable {freeAddr entriesAddr : Nat} {entries : Array Pmm.MmapEntry} {s : Slab.State}
  {live : Nat → Option Slab.Live} {others : Finset (Nat × Nat)} {bioCache : Nat}

/-- With no free page there is no buffer: `slab_alloc_bio` returns the null pointer, when it returns. -/
theorem slabAllocBioMem_iff (hboot : Pmm.BootOk freeAddr entriesAddr entries)
    (h : Slab.Run freeAddr entriesAddr entries s live others) (hc : Slab.Valid live (.created bioCache))
    (hfree : ∀ x, ¬ Pmm.FreePage s.pmm x) :
    (∃ s', slabAllocBioMem s bioCache = .ok (none, s')) ↔ ∃ r, Slab.slabAlloc s (.created bioCache) = .ok r := by
  unfold slabAllocBioMem
  refine ⟨fun hr => ?_, fun hr => ?_⟩
  · obtain ⟨s', hr⟩ := hr
    obtain ⟨r, he, -⟩ := Exec.except_ok.mp hr
    exact ⟨r, he⟩
  · obtain ⟨⟨o, s₁⟩, he⟩ := hr
    obtain ⟨ho, -⟩ := h.alloc_fresh hboot hc he
    have hrun := h.alloc hc he
    obtain ⟨pmm, hnone⟩ := hrun.alloc_none hboot fun x hx => hfree x (h.alloc_freePage hboot he hx)
    obtain ⟨rfl, -⟩ := hrun.no_page hboot hnone
    obtain ⟨s₂, hf⟩ := h.slabFree_alloc hboot hc he
    refine ⟨s₂, Exec.except_ok.mpr ⟨_, he, ?_⟩⟩
    dsimp only
    rw [if_neg ho, hnone]
    dsimp only
    rw [if_neg (by decide)]
    exact Exec.except_ok.mpr ⟨s₂, hf, rfl⟩

/-- `bio_get` goes on without a new bio, or needs none. -/
theorem bioGetOn_iff (hboot : Pmm.BootOk freeAddr entriesAddr entries)
    (h : Slab.Run freeAddr entriesAddr entries s live others) (hc : Slab.Valid live (.created bioCache))
    (hfree : ∀ x, ¬ Pmm.FreePage s.pmm x) {t : State} {p : Nat} {dev : UInt8} {sector : UInt64} :
    (∃ s', bioGetOn s bioCache t p dev sector = .ok (bioGet t p dev sector none, s')) ↔
      findBio t dev (baseSector sector) ≠ none ∨ maxCacheCount ≤ t.count ∨ Slab.HasFree s (.created bioCache) := by
  rw [← h.slabAlloc_iff hboot hc hfree, ← slabAllocBioMem_iff hboot h hc hfree]
  unfold bioGetOn
  split_ifs with hneeds
  · obtain ⟨hno, hlt⟩ := hneeds
    rw [Option.isNone_iff_eq_none] at hno
    refine ⟨fun hr => .inr (.inr ?_), fun hr => ?_⟩
    · obtain ⟨s', hr⟩ := hr
      obtain ⟨⟨mem, s₁⟩, he, -⟩ := Exec.except_ok.mp hr
      exact (slabAllocBioMem_iff hboot h hc hfree).mpr
        (by obtain ⟨r, hr, -⟩ := Exec.except_ok.mp he; exact ⟨r, hr⟩)
    · obtain ⟨s', hr⟩ := (hr.resolve_left fun hn => hn hno).resolve_left (by omega)
      exact ⟨s', Exec.except_ok.mpr ⟨_, hr, rfl⟩⟩
  · refine iff_of_true ⟨s, rfl⟩ ?_
    by_cases hno : findBio t dev (baseSector sector) = none
    · exact .inr (.inl (by simp [hno] at hneeds; omega))
    · exact .inl hno

end
end Airix.Bio

namespace Airix

/-- The five operations whose code tests for a failed allocation, each on its own cache: `proc_alloc` returns, the
allocations of `vfs_alloc_file`, `alloc_inode` and `inode_get` do, and `bio_get` goes on without a new bio. -/
structure ShortageIff (s : Slab.State) (live : Nat → Option Slab.Live) : Prop where
  procAlloc : ∀ m : Proc.Machine, m.state.slab = s → Slab.Valid live (.created m.state.procCache) →
    ((∃ r, Proc.procAlloc.run m = .ok r) ↔ Slab.HasFree s (.created m.state.procCache))
  vfsAllocFile : ∀ caches : Axfs.Cache → Nat, Slab.Valid live (.created (caches .file)) →
    (Axfs.Reports caches Vfs.vfsAllocFile s ↔ Slab.HasFree s (.created (caches .file)))
  allocInode : ∀ caches : Axfs.Cache → Nat, Slab.Valid live (.created (caches .inode)) →
    (Axfs.Reports caches Vfs.allocInode s ↔ Slab.HasFree s (.created (caches .inode)))
  inodeGet : ∀ (caches : Axfs.Cache → Nat) sb device ino, Slab.Valid live (.created (caches .axInode)) →
    (Axfs.Reports caches (Axfs.inodeGet sb device ino) s ↔ Slab.HasFree s (.created (caches .axInode)))
  bioGet : ∀ bioCache t p dev sector, Slab.Valid live (.created bioCache) →
    ((∃ s', Bio.bioGetOn s bioCache t p dev sector = .ok (Bio.bioGet t p dev sector none, s')) ↔
      Bio.findBio t dev (Bio.baseSector sector) ≠ none ∨ Bio.maxCacheCount ≤ t.count ∨
        Slab.HasFree s (.created bioCache))

/-- Where no page is free, an operation that tests for a failed allocation goes on exactly when its cache still has
a slab with a free object, or it needs no object; otherwise the test is never reached. -/
theorem shortage_iff {freeAddr entriesAddr : Nat} {entries : Array Pmm.MmapEntry} {s : Slab.State}
    {live : Nat → Option Slab.Live} {others : Finset (Nat × Nat)}
    (hboot : Pmm.BootOk freeAddr entriesAddr entries) (h : Slab.Run freeAddr entriesAddr entries s live others)
    (hfree : ∀ x, ¬ Pmm.FreePage s.pmm x) : ShortageIff s live where
  procAlloc m hm hc := by
    subst hm
    exact (Proc.procAlloc_returns hboot h hc).trans (h.slabAlloc_iff hboot hc hfree)
  vfsAllocFile caches hc := Vfs.vfsAllocFile_reports.trans (h.slabAlloc_iff hboot hc hfree)
  allocInode caches hc := Vfs.allocInode_reports.trans (h.slabAlloc_iff hboot hc hfree)
  inodeGet caches sb device ino hc := Axfs.inodeGet_reports.trans (h.slabAlloc_iff hboot hc hfree)
  bioGet bioCache t p dev sector hc := Bio.bioGetOn_iff hboot h hc hfree

/-- A machine with one page beyond the kernel. -/
def onePageMap : Array Pmm.MmapEntry := #[⟨0x100000, 0, 0x22000, 0, 1⟩]

theorem onePageMap_ok : Pmm.BootOk 0x120000 0xC0007E08 onePageMap where
  words := by decide
  nonempty := by decide
  disjoint := by decide
  usable_stop := by decide
  kernel := by decide
  map_le := by decide
  reach := by decide

theorem onePageMap_free (f : Nat) : Pmm.FreePage (Proc.bootState onePageMap).slab.pmm f ↔ f = 0x121 := by
  have hlocked := onePageMap_ok.locked_iff f
  rw [show Pmm.bootPages 0xC0007E08 onePageMap = 8 by decide, show Pmm.kernelPages 0x120000 onePageMap = 0x121 by decide]
    at hlocked
  have husable : (⟨0x100000, 0, 0x22000, 0, 1⟩ : Pmm.MmapEntry).usable := by decide
  have hholds : (∀ e ∈ onePageMap, ¬ e.Holds f) ↔ ¬ (0x100 ≤ f ∧ f < 0x122) := by
    simp only [onePageMap, Pmm.MmapEntry.Holds, Pmm.MmapEntry.stop, pageSize, List.mem_toArray, List.forall_mem_cons,
      List.not_mem_nil, false_imp_iff, implies_true, and_true, husable, true_and]
    omega
  rw [Proc.bootState_free onePageMap_ok]
  show ¬ (Pmm.Locked _ _ _ f ∨ _) ↔ f = 0x121
  rw [hlocked, hholds]
  omega

/-- A cache is made, and the last page is gone: `vfs_alloc_file` on it panics. -/
theorem shortage_iff_onePage : ∃ s live others o,
    Slab.Run 0x120000 0xC0007E08 onePageMap s live others ∧ (∀ x, ¬ Pmm.FreePage s.pmm x) ∧
      Slab.Valid live (.created o) ∧ ShortageIff s live ∧ ¬ Axfs.Reports (fun _ => o) Vfs.vfsAllocFile s := by
  have hinit : Slab.Run 0x120000 0xC0007E08 onePageMap (Proc.bootState onePageMap).slab (fun _ => none) ∅ :=
    Proc.bootState_run
  have hok : Slab.CreateOk 24 4 := ⟨by decide, ⟨2, by decide, by decide, rfl⟩, by decide⟩
  have hpage : ∀ pmm, Pmm.pmmAllocPages (Proc.bootState onePageMap).slab.pmm 0 ≠ some (0, pmm) :=
    fun pmm he => (hinit.no_page onePageMap_ok he).2 0x121 ((onePageMap_free _).mpr rfl)
  rcases (hinit.inv onePageMap_ok).create onePageMap_ok hok with ⟨o, s, he, -⟩ | ⟨-, pmm, hnone⟩
  · have hrun := hinit.create hok he
    obtain ⟨p, pmm, hp, hnone, hsome⟩ := hrun.alloc_page onePageMap_ok
    have hlast : ∀ x, Pmm.FreePage s.pmm x → x = 0x121 := by
      intro x hx
      obtain ⟨⟨o', s'⟩, ha, hs⟩ := Exec.except_ok.mp he
      obtain ⟨-, rfl⟩ := Prod.mk.inj (Except.ok.inj hs)
      exact (onePageMap_free x).mp (hinit.alloc_freePage onePageMap_ok ha hx)
    have hfree : ∀ x, ¬ Pmm.FreePage pmm x := by
      intro x hx
      by_cases h0 : p = 0
      · exact (hrun.no_page onePageMap_ok (h0 ▸ hp)).2 x ((hnone h0 x).mp hx)
      · obtain ⟨-, hfp, hiff⟩ := hsome h0
        obtain ⟨hx, hne⟩ := (hiff x).mp hx
        exact hne ((hlast x hx).trans (hlast p hfp).symm)
    have hvalid : Slab.Valid (Function.update (fun _ => none) o (some ⟨.cacheCache, Slab.sizeofKmemCache⟩)) (.created o) :=
      ⟨Slab.sizeofKmemCache, Function.update_self _ _ _⟩
    have hrun' := hrun.otherAlloc hp
    have hiff := shortage_iff onePageMap_ok hrun' hfree
    refine ⟨_, _, _, o, hrun', hfree, hvalid, hiff, fun hr => ?_⟩
    obtain ⟨⟨o', s'⟩, ha, hs⟩ := Exec.except_ok.mp he
    obtain ⟨rfl, rfl⟩ := Prod.mk.inj (Except.ok.inj hs)
    rcases (hiff.vfsAllocFile (fun _ => o') hvalid).mp hr with h | h
    · exact h (by simp [Links.init, Links.setNext, Links.setPrev])
    · exact h (by simp [Links.init, Links.setNext, Links.setPrev])
  · exact absurd hnone (hpage pmm)

end Airix
