import Airix.Axfs.Open
import Airix.Vfs.Objects

/-!
# Opening and closing files

`vfs_open` makes a path and an inode before it opens the file, and frees them when that fails; `sys_open` does
so with the file. What `sys_close` frees is what a successful `sys_open` has made, so both leave the same
objects behind.
-/

namespace Airix.Vfs
open Prog Axfs Axfs.Machine

variable {m : Machine} {t : Prop} {s s' : Kern} {path : List UInt8} {flags : Int} {file : File}

/-- What `vfs_open` comes to: a failure that leaves everything as it was, or an open file. -/
inductive VfsOpened (m : Machine) (file : File) (path : List UInt8) (flags : Int) (s : Kern) : File × Int → Kern → Prop
  | failed {l : List (UInt8 × UInt64)} {f : File} : m.Harmless rootDevice l → f.object = file.object →
    VfsOpened m file path flags s (f, -1) (s.fail l)
  | opened {l : List (UInt8 × UInt64)} {p i a n : Nat} {inode : Inode} : m.Harmless rootDevice l → s.live p = none →
    (s.alloc p (.kmalloc (path.length + 1))).live i = none →
    ((s.alloc p (.kmalloc (path.length + 1))).alloc i (.slab .inode)).live a = none →
    VfsOpened m file path flags s ({ file with
      fPath := some ⟨p, path⟩
      fInode := some ⟨i, rootDevice, n, some ⟨a, inode⟩⟩
      fFlags := flags }, 0)
    ((((s.fail l).alloc p (.kmalloc (path.length + 1))).alloc i (.slab .inode)).alloc a (.slab .axInode))

/-- The file that `vfs_open` has the file system open. -/
def opening (file : File) (p i : Nat) (path : List UInt8) (flags : Int) : File :=
  { file with fPath := some ⟨p, path⟩, fInode := some ⟨i, rootDevice, 0, none⟩, fFlags := flags }

theorem does_vfsOpen (hv : Volume m rootDevice) (hs : s.Idle) (ht : t → m.Roomy s) (hpath : path.head? = some slash)
    (hlen : path.length ≤ 1023) :
    m.Does rootDevice t (vfsOpen file path flags) s (VfsOpened m file path flags s) := by
  have hmount : findMount path = some rootDevice := if_pos hpath
  unfold vfsOpen
  rw [hmount]
  refine (runs_pathDup ht hlen).bind fun fPath s₁ hp => ?_
  rcases hp with ⟨p, -, hp, rfl, rfl⟩ | ⟨hmem, rfl, rfl⟩
  · refine (runs_allocInode fun h => (ht h).alloc).bind fun fInode s₂ hi => ?_
    rcases hi with ⟨i, -, hi, rfl, rfl⟩ | ⟨hmem, rfl, rfl⟩
    · have hinode : (opening file p i path flags).fInode = some ⟨i, rootDevice, 0, none⟩ := rfl
      have hpath : (opening file p i path flags).fPath = some ⟨p, path⟩ := rfl
      refine (does_axOpen hv hs.alloc.alloc (fun h => (ht h).alloc.alloc.not_short) hinode hpath).bind fun r s₃ hr => ?_
      cases hr with
      | @failed l hl =>
        dsimp only
        rw [if_pos (by decide)]
        have hne := Kern.ne_of_fresh hi
        have hkfree : (((s.alloc p (.kmalloc (path.length + 1))).alloc i (.slab .inode)).fail l).live p =
            some (.kmalloc (path.length + 1)) := by
          rw [Kern.fail_live, Kern.alloc_live_ne hne.symm, Kern.alloc_live]
        refine (runs_kfree hkfree).bind fun _ s₄ hs₄ => ?_
        have hback : s₄ = (s.fail l).alloc i (.slab .inode) := by
          rw [hs₄]
          show ((((s.fail l).alloc p _).alloc i _).free p) = _
          rw [Kern.alloc_free_ne hne.symm, Kern.alloc_free (s := s.fail l) hp]
        subst hback
        refine (runs_slabFree Kern.alloc_live).bind fun _ s₅ hs₅ => Runs.pure ?_
        have hs₅ : s₅ = s.fail l := hs₅.trans (Kern.alloc_free (s := s.fail l) ((Kern.alloc_live_ne hne).symm.trans hi))
        exact hs₅ ▸ .failed hl rfl
      | @opened l a n hl hne ha hslash hn h0 =>
        dsimp only
        rw [if_neg (by decide)]
        exact Runs.pure (.opened hl hp hi ha)
    · exact Runs.noData fun h => hmem (ht h).memory
  · refine (runs_allocInode ht).bind fun fInode s₂ hi => ?_
    exact Runs.noData fun h => hmem (ht h).memory

/-! ### System calls -/

/-- The file that `sys_open` puts into the table, made of the objects `f`, `p`, `i` and `a`. -/
def openFile (f p i a n : Nat) (inode : Inode) (path : List UInt8) (flags : Int) : File :=
  ⟨f, some ⟨p, path⟩, some ⟨i, rootDevice, n, some ⟨a, inode⟩⟩, 0, 1, flags⟩

/-- The objects of an open file, allocated one after the other. -/
def withOpen (s : Kern) (f p i a size : Nat) : Kern :=
  (((s.alloc f (.slab .file)).alloc p (.kmalloc size)).alloc i (.slab .inode)).alloc a (.slab .axInode)

/-- They are new, and different from each other. -/
structure Fresh (s : Kern) (f p i a : Nat) : Prop where
  file : s.live f = none
  path : s.live p = none ∧ p ≠ f
  inode : s.live i = none ∧ i ≠ p ∧ i ≠ f
  axInode : s.live a = none ∧ a ≠ i ∧ a ≠ p ∧ a ≠ f

/-- What `sys_open` comes to. -/
inductive SysOpened (m : Machine) (path : List UInt8) (flags : Int) (s : Kern) : Int → Kern → Prop
  | failed {l : List (UInt8 × UInt64)} : m.Harmless rootDevice l → SysOpened m path flags s (-1) (s.fail l)
  | opened {l : List (UInt8 × UInt64)} {fd f p i a n : Nat} {inode : Inode} : m.Harmless rootDevice l →
    fd < procMaxFileNum → s.files fd = none → Fresh s f p i a →
    SysOpened m path flags s fd
      (withOpen ((s.fail l).setFile fd (some (openFile f p i a n inode path flags))) f p i a (path.length + 1))

theorem does_sysOpen (hv : Volume m rootDevice) (hs : s.Idle) (ht : t → m.Roomy s) (hpath : path.head? = some slash)
    (hlen : path.length ≤ 1023) : m.Does rootDevice t (sysOpen path flags) s (SysOpened m path flags s) := by
  unfold sysOpen
  refine runs_files ?_
  cases hfd : (List.range procMaxFileNum).find? fun fd => (s.files fd).isNone with
  | none => exact Runs.pure (.failed (l := []) .nil)
  | some fd =>
    have hlt : fd < procMaxFileNum := List.mem_range.1 (List.mem_of_find?_eq_some hfd)
    have hnone : s.files fd = none := Option.isNone_iff_eq_none.1
      (List.find?_some (p := fun fd => (s.files fd).isNone) hfd)
    refine (runs_vfsAllocFile ht).bind fun r s₁ hf => ?_
    rcases hf with ⟨f, -, hf, rfl, rfl⟩ | ⟨hm, rfl, rfl⟩
    · refine (does_vfsOpen hv hs.alloc (fun h => (ht h).alloc) hpath hlen).bind fun r s₂ hr => ?_
      cases hr with
      | @failed l f' hl hobj =>
        dsimp only
        rw [if_pos (by decide), vfsFreeFile, hobj]
        have hlive : ((s.alloc f (.slab .file)).fail l).live f = some (.slab .file) := Kern.alloc_live
        refine (runs_slabFree hlive).bind fun _ s₃ hs₃ => Runs.pure ?_
        have hs₃ : s₃ = s.fail l := hs₃.trans (Kern.alloc_free (s := s.fail l) hf)
        exact hs₃ ▸ .failed hl
      | @opened l p i a n inode hl hp hi ha =>
        dsimp only
        rw [if_neg (by decide)]
        refine runs_setFile.bind fun _ s₃ hs₃ => Runs.pure ?_
        have hpf := Kern.ne_of_fresh hp
        have hip := Kern.ne_of_fresh hi
        have hai := Kern.ne_of_fresh ha
        rw [Kern.alloc_live_ne hpf] at hp
        rw [Kern.alloc_live_ne hip] at hi
        rw [Kern.alloc_live_ne hai] at ha
        have hif := Kern.ne_of_fresh hi
        have hap := Kern.ne_of_fresh ha
        rw [Kern.alloc_live_ne hif] at hi
        rw [Kern.alloc_live_ne hap] at ha
        have haf := Kern.ne_of_fresh ha
        rw [Kern.alloc_live_ne haf] at ha
        exact hs₃ ▸ .opened hl hlt hnone ⟨hf, ⟨hp, hpf⟩, ⟨hi, hip, hif⟩, ⟨ha, hai, hap, haf⟩⟩
    · exact Runs.pure (.failed (l := []) .nil)

theorem runs_vfsClose {M : UInt8 → UInt64 → Prop} {f p i a n size : Nat} {inode : Inode} {refs : Int} (h : Fresh s f p i a) :
    m.Runs M t (vfsClose ⟨f, some ⟨p, path⟩, some ⟨i, rootDevice, n, some ⟨a, inode⟩⟩, 0, refs, flags⟩)
      (withOpen s f p i a size) (fun _ s' => s' = s.alloc f (.slab .file)) := by
  obtain ⟨hf, ⟨hp, hpf⟩, ⟨hi, hip, hif⟩, ⟨ha, hai, hap, haf⟩⟩ := h
  have hfreeA : (withOpen s f p i a size).free a = ((s.alloc f (.slab .file)).alloc p (.kmalloc size)).alloc i (.slab .inode) :=
    Kern.alloc_free (by rw [Kern.alloc_live_ne hai, Kern.alloc_live_ne hap, Kern.alloc_live_ne haf, ha])
  have hfreeP : (((s.alloc f (.slab .file)).alloc p (.kmalloc size)).alloc i (.slab .inode)).free p =
      (s.alloc f (.slab .file)).alloc i (.slab .inode) := by
    rw [Kern.alloc_free_ne hip.symm, Kern.alloc_free ((Kern.alloc_live_ne hpf).trans hp)]
  have hclose : m.Runs M t (axClose ⟨f, some ⟨p, path⟩, some ⟨i, rootDevice, n, some ⟨a, inode⟩⟩, 0, refs, flags⟩)
      (withOpen s f p i a size) (fun _ s' => s' = (withOpen s f p i a size).free a) :=
    (runs_slabFree Kern.alloc_live).bind fun _ s₁ hs₁ => Runs.pure hs₁
  refine hclose.bind fun _ s₁ hs₁ => ?_
  rw [hs₁, hfreeA]
  refine (runs_kfree ((Kern.alloc_live_ne hip.symm).trans Kern.alloc_live)).bind fun _ s₂ hs₂ => ?_
  rw [hs₂, hfreeP]
  refine (runs_slabFree Kern.alloc_live).bind fun _ s₃ hs₃ => Runs.pure ?_
  exact hs₃.trans (Kern.alloc_free ((Kern.alloc_live_ne hif).trans hi))

theorem runs_sysClose {M : UInt8 → UInt64 → Prop} {fd f p i a n : Nat} {inode : Inode} (hfd : fd < procMaxFileNum)
    (hnone : s.files fd = none) (h : Fresh s f p i a) :
    m.Runs M t (sysClose fd) (withOpen (s.setFile fd (some (openFile f p i a n inode path flags))) f p i a (path.length + 1))
      (fun r s' => r = 0 ∧ s' = s) := by
  unfold sysClose
  rw [if_neg (by omega)]
  refine runs_files ?_
  have hfile : (withOpen (s.setFile fd (some (openFile f p i a n inode path flags))) f p i a (path.length + 1)).files
      (fd : Int).toNat = some (openFile f p i a n inode path flags) := Function.update_self ..
  rw [hfile]
  dsimp only [openFile]
  rw [if_pos (by decide)]
  have hfresh : ∀ x, Fresh (s.setFile fd x) f p i a := fun _ => ⟨h.file, h.path, h.inode, h.axInode⟩
  refine (runs_vfsClose (hfresh _)).bind fun _ s₁ hs₁ => ?_
  subst hs₁
  refine (runs_slabFree Kern.alloc_live).bind fun _ s₂ hs₂ => ?_
  rw [hs₂, Kern.alloc_free (s := s.setFile fd _) h.file]
  exact runs_setFile.bind fun _ s₃ hs₃ => Runs.pure ⟨rfl, hs₃.trans (Kern.setFile_none hnone)⟩

/-- `sys_close` is sure to come back, with the objects and the files of `s`. -/
structure Restores (m : Machine) (fd : Int) (s s' : Kern) : Prop where
  up : ∀ p s'', Reach m.kernLayer (sysClose fd) s' p s'' → ¬ Panics m.kernLayer s'' p
  returns : ∃ r s'', Reach m.kernLayer (sysClose fd) s' (.ret r) s''
  restored : ∀ r s'', Reach m.kernLayer (sysClose fd) s' (.ret r) s'' → r = 0 ∧ s''.live = s.live ∧ s''.files = s.files

/-- A `sys_open` that fails leaves no object behind, and `sys_close` frees what one that succeeds has made. -/
theorem sysOpen_leak_free {fd : Int} (hv : Volume m rootDevice) (hs : s.Idle) (hpath : path.head? = some slash)
    (hlen : path.length ≤ 1023) (hread : ∀ sector, m.mayFail rootDevice sector → ¬ (m.bytes rootDevice).Meta sector.toNat)
    (hr : Reach m.kernLayer (sysOpen path flags) s (.ret fd) s') :
    (fd = -1 → s'.live = s.live ∧ s'.files = s.files) ∧ (fd ≠ -1 → Restores m fd s s') := by
  have hclean : ∀ s, ¬ m.Spoiled (m.metaAt rootDevice) s :=
    fun s ⟨_, x, _, hfail, hdev, hmeta⟩ => hread x.2 (hdev ▸ hfail) hmeta
  have hq := ((does_sysOpen (t := False) hv hs False.elim hpath hlen).of_ret hr).resolve_right (hclean s')
  cases hq with
  | failed hl => exact ⟨fun _ => ⟨rfl, rfl⟩, fun h => absurd rfl h⟩
  | @opened l fd f p i a n inode hl hfd hnone hfresh =>
    refine ⟨fun h => by omega, fun _ => ?_⟩
    have hclose : m.Runs (fun _ _ => False) True (sysClose fd)
        (withOpen ((s.fail l).setFile fd (some (openFile f p i a n inode path flags))) f p i a (path.length + 1))
        (fun r s' => r = 0 ∧ s' = s.fail l) :=
      runs_sysClose hfd hnone ⟨hfresh.file, hfresh.path, hfresh.inode, hfresh.axInode⟩
    have htotal := hclose.total fun _ _ _ => id
    refine ⟨fun p s'' hr => htotal.not_panics hr, ?_, fun r s'' hr => ?_⟩
    · obtain ⟨r, s'', hr, -⟩ := htotal.exists_reach fun _ _ => kernLayer_total
      exact ⟨r, s'', hr⟩
    · obtain ⟨rfl, rfl⟩ := htotal.of_ret hr
      exact ⟨rfl, rfl, rfl⟩

/-- `/d/f` on the small volume, where the directory `d` may not be readable. -/
theorem sysOpen_leak_free_small : ∃ fd s', Reach (smallMachine fun sector => sector = 14).kernLayer
    (sysOpen [47, 100, 47, 102] oRdonly) .start (.ret fd) s' ∧
    (fd = -1 → s'.live = Kern.start.live ∧ s'.files = Kern.start.files) ∧
    (fd ≠ -1 → Restores (smallMachine fun sector => sector = 14) fd .start s') := by
  have hs : Kern.start.Idle := ⟨fun _ => rfl, rfl⟩
  have hmeta : ∀ sector : UInt64, sector = 14 → ¬ smallDisk.Meta sector.toNat := fun _ h => h ▸ smallDisk_meta (.inr rfl)
  have hruns : (smallMachine fun sector => sector = 14).Does rootDevice True (sysOpen [47, 100, 47, 102] oRdonly) .start _ :=
    does_sysOpen small_volume hs (fun _ => ⟨trivial, 0, fun _ _ => rfl⟩) rfl (by decide)
  obtain ⟨fd, s', hr, -⟩ := (hruns.total fun dev sector hf hM => hmeta sector hf hM.2).exists_reach
    fun _ _ => kernLayer_total
  exact ⟨fd, s', hr, sysOpen_leak_free small_volume hs rfl (by decide) hmeta hr⟩

/-- The kernel stays up, whatever the path and the flags. -/
structure OpenSafe (m : Machine) (s : Kern) (path : List UInt8) (flags : Int) : Prop where
  up : ∀ p s', Reach m.kernLayer (sysOpen path flags) s p s' → ¬ Panics m.kernLayer s' p
  returns : ∃ fd s', Reach m.kernLayer (sysOpen path flags) s (.ret fd) s'
  result : ∀ fd s', Reach m.kernLayer (sysOpen path flags) s (.ret fd) s' → fd = -1 ∨ 0 ≤ fd ∧ fd ≤ 15

theorem reach_files {α : Type} {f : (Nat → Option File) → P α} {p : P α} (h : Reach m.kernLayer (f s.files) s p s') :
    Reach m.kernLayer (files >>= f) s p s' := by
  refine .call (r := s.files) ⟨rfl, rfl⟩ ?_
  exact h

/-- With a place in the table, the call comes to `vfs_open`. -/
theorem sysOpen_reaches (path : List UInt8) (flags : Int) (hm : m.Roomy s) (hfree : ¬ ∀ fd < procMaxFileNum, s.files fd ≠ none) :
    ∃ file s' k, Reach m.kernLayer (sysOpen path flags) s (vfsOpen file path flags >>= k) s' := by
  obtain ⟨n, hn⟩ := hm.room
  push Not at hfree
  obtain ⟨fd, hlt, hnone⟩ := hfree
  have hsome : ((List.range procMaxFileNum).find? fun fd => (s.files fd).isNone).isSome = true :=
    List.find?_isSome.2 ⟨fd, List.mem_range.2 hlt, by rw [hnone]; rfl⟩
  obtain ⟨fd, hfd⟩ := Option.isSome_iff_exists.1 hsome
  unfold sysOpen
  refine ⟨⟨n + 1, none, none, 0, 0, 0⟩, s.alloc (n + 1) (.slab .file), ?rest, reach_files ?reach⟩
  case reach =>
    dsimp only
    rw [hfd]
    refine .call (r := n + 1) (.inl ⟨Nat.succ_ne_zero n, hn _ (Nat.le_succ n), rfl⟩) ?_
    show Reach m.kernLayer ((if n + 1 ≠ 0 then (Pure.pure (some _) : P (Option File)) else Pure.pure none) >>= _) _ _ _
    rw [if_pos (Nat.succ_ne_zero n)]
    exact .refl

theorem runs_sysOpen_full {M : UInt8 → UInt64 → Prop} (hfull : ∀ fd < procMaxFileNum, s.files fd ≠ none) :
    m.Runs M t (sysOpen path flags) s (fun r s' => r = -1 ∧ s' = s) := by
  have hnone : ((List.range procMaxFileNum).find? fun fd => (s.files fd).isNone) = none :=
    List.find?_eq_none.2 fun fd hfd => by simpa using hfull fd (List.mem_range.1 hfd)
  unfold sysOpen
  refine runs_files ?_
  rw [hnone]
  exact Runs.pure ⟨rfl, rfl⟩

theorem OpenSafe.of_runs {M : UInt8 → UInt64 → Prop}
    (h : m.Runs M True (sysOpen path flags) s (fun fd _ => fd = -1 ∨ 0 ≤ fd ∧ fd ≤ 15))
    (hM : ∀ dev sector, m.mayFail dev sector → ¬ M dev sector) : OpenSafe m s path flags := by
  have htotal := h.total hM
  refine ⟨fun p s' hr => htotal.not_panics hr, ?_, fun fd s' hr => htotal.of_ret hr⟩
  obtain ⟨fd, s', hr, -⟩ := htotal.exists_reach fun _ _ => kernLayer_total
  exact ⟨fd, s', hr⟩

/-- Opening a file brings the kernel down iff there is a place for it and the path is not absolute, or too long
for `kmalloc`. -/
theorem sysOpen_safe_iff (hv : Volume m rootDevice) (hread : ∀ sector, ¬ m.mayFail rootDevice sector) (hs : s.Idle)
    (hm : m.Roomy s) : OpenSafe m s path flags ↔
      (∀ fd < procMaxFileNum, s.files fd ≠ none) ∨ path.head? = some slash ∧ path.length ≤ 1023 := by
  constructor
  · intro h
    by_contra hn
    obtain ⟨hfree, hbad⟩ := not_or.1 hn
    obtain ⟨file, s', k, hr⟩ := sysOpen_reaches path flags hm hfree
    refine h.up _ _ hr ?_
    unfold vfsOpen findMount
    by_cases hpath : path.head? = some slash
    · rw [if_pos hpath]
      have hlen : ¬ path.length ≤ 1023 := fun hle => hbad ⟨hpath, hle⟩
      exact Or.inl (show 1024 < path.length + 1 by omega)
    · rw [if_neg hpath]
      trivial
  · rintro (hfull | ⟨hpath, hlen⟩)
    · exact .of_runs ((runs_sysOpen_full (M := fun _ _ => False) hfull).mono fun fd _ h => .inl h.1) fun _ _ _ => id
    · refine .of_runs ((does_sysOpen hv hs (fun _ => hm) hpath hlen).mono fun fd s' h => ?_)
        fun dev sector hf hM => hread sector (hM.1 ▸ hf)
      cases h with
      | failed hl => exact .inl rfl
      | @opened l fd f p i a n inode hl hfd hnone hfresh =>
        rw [procMaxFileNum] at hfd
        exact .inr (by omega)

theorem start_roomy {mayFail : UInt64 → Prop} : (smallMachine mayFail).Roomy .start := ⟨trivial, 0, fun _ _ => rfl⟩

theorem sysOpen_safe_small : OpenSafe (smallMachine fun _ => False) .start [47, 100, 47, 102] oRdonly :=
  (sysOpen_safe_iff small_volume (fun _ => id) ⟨fun _ => rfl, rfl⟩ start_roomy).2 (.inr ⟨rfl, by decide⟩)

/-- A path that does not start with a slash. -/
theorem sysOpen_panics : ∃ m s path, Volume m rootDevice ∧ (∀ sector, ¬ m.mayFail rootDevice sector) ∧ s.Idle ∧ m.Roomy s ∧
    ¬ OpenSafe m s path oRdonly := by
  have hs : Kern.start.Idle := ⟨fun _ => rfl, rfl⟩
  refine ⟨smallMachine fun _ => False, .start, [100], small_volume, fun _ => id, hs, start_roomy, fun h => ?_⟩
  obtain ⟨file, s', k, hr⟩ := sysOpen_reaches [100] oRdonly start_roomy
    fun h => h 0 (by decide) rfl
  exact h.up _ _ hr trivial

end Airix.Vfs
