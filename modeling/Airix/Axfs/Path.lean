import Airix.Axfs.Tree
import Mathlib.Data.List.TakeWhile

/-!
# The path walk

`namex` takes the components of a path one by one from the front and stops at the first empty one: it follows
`followed`, and what comes after an empty component (`ignored`) it never looks at. So it finds what the path
names if, and only if, the ignored components would not have led anywhere else.
-/

namespace Airix.Axfs
open Bytes Prog

section
variable {path name : List UInt8} {names : List (List UInt8)} {d : Disk} {ino : Nat}

/-- The non-empty components of a path. -/
def components (path : List UInt8) : List (List UInt8) := (path.splitOn slash).filter (· ≠ [])

/-- The components before the first empty one. -/
def followed (path : List UInt8) : List (List UInt8) := (path.splitOn slash).takeWhile (· ≠ [])

/-- The non-empty components after the first empty one. -/
def ignored (path : List UInt8) : List (List UInt8) := ((path.splitOn slash).dropWhile (· ≠ [])).filter (· ≠ [])

theorem components_eq : components path = followed path ++ ignored path := by
  have htake : (followed path).filter (· ≠ []) = followed path :=
    List.filter_eq_self.2 fun x hx => by
      have h := List.mem_takeWhile_imp hx
      exact h
  rw [components, ignored, ← htake, ← List.filter_append]
  exact congrArg _ (List.takeWhile_append_dropWhile).symm

/-- One component is taken from the front. -/
theorem splitOn_slash : path.splitOn slash = path.takeWhile (· ≠ slash) ::
    if path.dropWhile (· ≠ slash) = [] then [] else ((path.dropWhile (· ≠ slash)).drop 1).splitOn slash := by
  have hseg : slash ∉ path.takeWhile (· ≠ slash) := fun h => by simpa using List.mem_takeWhile_imp h
  have hpath : path = path.takeWhile (· ≠ slash) ++ path.dropWhile (· ≠ slash) := List.takeWhile_append_dropWhile.symm
  cases hrest : path.dropWhile (· ≠ slash) with
  | nil =>
    rw [hrest, List.append_nil] at hpath
    rw [if_pos rfl, ← hpath]
    exact List.splitOn_eq_singleton (hpath ▸ hseg)
  | cons c rest =>
    have hc : c = slash := by
      have h := List.head?_dropWhile_not (· ≠ slash) path
      rw [hrest] at h
      simpa using h
    subst hc
    rw [if_neg (List.cons_ne_nil _ _)]
    conv_lhs => rw [hpath, hrest, List.splitOn_append_cons_self, List.splitOn_eq_singleton hseg]
    rfl

theorem followed_eq : followed path = if path.takeWhile (· ≠ slash) = [] then [] else
    path.takeWhile (· ≠ slash) :: followed ((path.dropWhile (· ≠ slash)).drop 1) := by
  rw [followed, splitOn_slash]
  by_cases hseg : path.takeWhile (· ≠ slash) = []
  · rw [if_pos hseg, List.takeWhile_cons_of_neg (by simpa using hseg)]
  · rw [if_neg hseg, List.takeWhile_cons_of_pos (by simpa using hseg)]
    by_cases hrest : path.dropWhile (· ≠ slash) = []
    · rw [if_pos hrest, hrest]
      rfl
    · rw [if_neg hrest]
      rfl

namespace Disk

theorem step_zero : d.step 0 name = 0 := if_neg fun h => h.1 rfl

theorem resolve_zero : d.resolve names 0 = 0 := by
  induction names with
  | nil => rfl
  | cons n names ih => exact (congrArg (d.resolve names) step_zero).trans ih

theorem resolve_cons : d.resolve (name :: names) ino = d.resolve names (d.step ino name) := rfl

end Disk

end

namespace Machine
variable {m : Machine} {dev : UInt8} {t : Prop} {s s' : Kern} {ino fuel : Nat} {path begin name : List UInt8}

/-- What a directory leads to is an inode. -/
theorem lookup_range (hv : Volume m dev) (h1 : 1 ≤ ino) (h2 : ino ≤ (m.bytes dev).superBlock.sInodesCount)
    (hdir : ((m.bytes dev).inode ino).iMode = sIfdir) (h : (m.bytes dev).lookup ino name ≠ 0) :
    1 ≤ (m.bytes dev).lookup ino name ∧ (m.bytes dev).lookup ino name ≤ (m.bytes dev).superBlock.sInodesCount := by
  obtain ⟨r, hr, -, hi⟩ := mem_of_findName h
  have hrange := (hv.dirs ino h1 h2 hdir).inodes r hr
  rwa [show r.entry.inode = (m.bytes dev).lookup ino name from hi] at hrange

theorem does_namexLoop (hv : Volume m dev) (hs : s.Idle) (ht : t → ¬ m.Short s) (hfuel : begin.length < fuel)
    (h1 : 1 ≤ ino) (h2 : ino ≤ (m.bytes dev).superBlock.sInodesCount) :
    m.Does dev t (namexLoop (m.bytes dev).superBlock dev fuel begin ino) s
      (m.Searched dev ((m.bytes dev).resolve (followed begin) ino) s) := by
  have hmem : t → m.memory := fun h => not_not.1 fun hn => ht h (.inl hn)
  induction fuel generalizing begin ino s with
  | zero => omega
  | succ fuel ih =>
    rw [namexLoop, followed_eq]
    by_cases hseg : begin.takeWhile (· ≠ slash) = []
    · rw [if_pos hseg, if_pos hseg]
      exact Runs.pure ⟨[], rfl, .nil, .inr rfl, fun _ _ => rfl⟩
    rw [if_neg hseg, if_neg hseg, Disk.resolve_cons]
    refine (does_inodeGet hv hs ht h1 h2).bind fun inode s₁ hgot => ?_
    rcases hgot with ⟨o, rfl, hne, hfree, rfl⟩ | ⟨hshort, rfl, rfl⟩
    · by_cases hdir : ((m.bytes dev).inode ino).iMode = sIfdir
      · dsimp only
        rw [if_neg (not_not.2 hdir)]
        have hstep : (m.bytes dev).step ino (begin.takeWhile (· ≠ slash)) =
            (m.bytes dev).lookup ino (begin.takeWhile (· ≠ slash)) := if_pos ⟨by omega, hdir⟩
        rw [hstep]
        have hs₁ : (withInode s o).Idle := ⟨hs.held, hs.good⟩
        refine (does_dirFindIno hv hs₁ hmem hseg h1 h2 hdir).bind ?_
        rintro r s₂ ⟨l, hs₂, hl, hr, hr'⟩
        subst hs₂
        refine (does_inodeRelease (s := s.fail l) hfree).bind fun _ s₃ hs₃ => ?_
        subst hs₃
        by_cases h0 : r = 0
        · rw [if_pos h0]
          refine Runs.pure ⟨l, rfl, hl, .inl rfl, fun hnil hm => ?_⟩
          rw [← hr' hnil hm, h0, Disk.resolve_zero]
        · rw [if_neg h0]
          have hrest : (if begin.dropWhile (· ≠ slash) = [] then begin.dropWhile (· ≠ slash)
              else (begin.dropWhile (· ≠ slash)).drop 1) = (begin.dropWhile (· ≠ slash)).drop 1 := by
            by_cases he : begin.dropWhile (· ≠ slash) = []
            · rw [if_pos he, he]
              rfl
            · rw [if_neg he]
          have hlen : ((begin.dropWhile (· ≠ slash)).drop 1).length < fuel := by
            have happ := congrArg List.length (List.takeWhile_append_dropWhile (p := (· ≠ slash)) (l := begin))
            have hpos := List.length_pos_of_ne_nil hseg
            rw [List.length_append] at happ
            rw [List.length_drop]
            omega
          have hr := hr.resolve_left h0
          obtain ⟨hr1, hr2⟩ := lookup_range hv h1 h2 hdir (hr ▸ h0)
          rw [hrest]
          rw [← hr] at hr1 hr2 ⊢
          refine (ih (hs.fail l) (fun h => ht h) hlen hr1 hr2).mono ?_
          rintro r' s₄ ⟨l', hs₄, hl', hr₄, hr₄'⟩
          exact ⟨l' ++ l, by rw [hs₄, Kern.fail_fail], hl'.append hl, hr₄,
            fun hnil hm => hr₄' (List.append_eq_nil_iff.1 hnil).1 hm⟩
      · dsimp only
        rw [if_pos hdir]
        refine (does_inodeRelease hfree).bind fun _ s₂ hs₂ => Runs.pure ⟨[], hs₂, .nil, .inl rfl, fun _ _ => ?_⟩
        rw [show (m.bytes dev).step ino _ = 0 from if_neg fun h => hdir h.2, Disk.resolve_zero]
    · exact Runs.pure ⟨[], rfl, .nil, .inl rfl, fun _ hm => absurd hm hshort⟩

/-- The number of the inode that the walk along a path comes to. -/
def walked (d : Disk) (path : List UInt8) : Nat := d.resolve (followed (path.drop 1)) rootIno

/-- What `namei` comes to: the inode of the number `n`, or none. -/
inductive Named (m : Machine) (dev : UInt8) (n : Nat) (s : Kern) : Option InodePtr × Nat → Kern → Prop
  | found {l : List (UInt8 × UInt64)} {o : Nat} : m.Harmless dev l → o ≠ 0 → s.live o = none → n ≠ 0 →
    Named m dev n s (some ⟨o, (m.bytes dev).inode n⟩, n) (withInode (s.fail l) o)
  | none {l : List (UInt8 × UInt64)} {r : Nat} : m.Harmless dev l → (l = [] → m.memory → n = 0 ∧ r = n) →
    Named m dev n s (none, r) (s.fail l)

theorem resolve_range (hv : Volume m dev) {names : List (List UInt8)} (h1 : 1 ≤ ino)
    (h2 : ino ≤ (m.bytes dev).superBlock.sInodesCount) (h : (m.bytes dev).resolve names ino ≠ 0) :
    1 ≤ (m.bytes dev).resolve names ino ∧ (m.bytes dev).resolve names ino ≤ (m.bytes dev).superBlock.sInodesCount := by
  induction names generalizing ino with
  | nil => exact ⟨h1, h2⟩
  | cons name names ih =>
    rw [Disk.resolve_cons] at h ⊢
    by_cases hdir : ino ≠ 0 ∧ ((m.bytes dev).inode ino).iMode = sIfdir
    · have hstep : (m.bytes dev).step ino name = (m.bytes dev).lookup ino name := if_pos hdir
      rw [hstep] at h ⊢
      have hne : (m.bytes dev).lookup ino name ≠ 0 := fun h0 => h (by rw [h0, Disk.resolve_zero])
      obtain ⟨hl1, hl2⟩ := lookup_range hv h1 h2 hdir.2 hne
      exact ih hl1 hl2 h
    · rw [show (m.bytes dev).step ino name = 0 from if_neg hdir, Disk.resolve_zero] at h
      exact absurd rfl h

theorem rootIno_range (hv : Volume m dev) : 1 ≤ rootIno ∧ rootIno ≤ (m.bytes dev).superBlock.sInodesCount := by
  rw [hv.inodes]
  exact ⟨Nat.le_refl 1, Nat.mul_pos hv.ipg_pos hv.groups_pos⟩

theorem does_namei (hv : Volume m dev) (hs : s.Idle) (ht : t → ¬ m.Short s) (hpath : path.head? = some slash) :
    m.Does dev t (namei (m.bytes dev).superBlock path dev) s (m.Named dev (walked (m.bytes dev) path) s) := by
  obtain ⟨h1, h2⟩ := rootIno_range hv
  unfold namei
  rw [if_pos hpath]
  refine (does_namexLoop hv hs ht (Nat.lt_succ_self _) h1 h2).bind ?_
  rintro r s₁ ⟨l, hs₁, hl, hr, hr'⟩
  subst hs₁
  by_cases h0 : r = 0
  · rw [if_neg (not_not.2 h0)]
    exact Runs.pure (.none hl fun hnil hm => ⟨(hr' hnil hm).symm.trans h0, hr' hnil hm⟩)
  · rw [if_pos h0]
    obtain rfl : r = walked (m.bytes dev) path := hr.resolve_left h0
    obtain ⟨hr1, hr2⟩ := resolve_range hv h1 h2 h0
    refine (does_inodeGet hv (hs.fail l) (fun h => ht h) hr1 hr2).bind fun inode s₂ hgot => Runs.pure ?_
    rcases hgot with ⟨o, rfl, hne, hfree, rfl⟩ | ⟨hshort, rfl, rfl⟩
    · exact .found hl hne hfree h0
    · exact .none hl fun _ hm => absurd hm hshort

/-- Every run of the code comes back, with the inode number `n`. -/
structure Yields (m : Machine) (p : P (Option InodePtr × Nat)) (s : Kern) (n : Nat) : Prop where
  safe : ∀ p' s', Reach m.kernLayer p s p' s' → ¬ Panics m.kernLayer s' p'
  returns : ∃ r s', Reach m.kernLayer p s (.ret r) s'
  number : ∀ r s', Reach m.kernLayer p s (.ret r) s' → r.2 = n

theorem namei_yields (hv : Volume m dev) (hs : s.Idle) (hm : ¬ m.Short s) (hread : ∀ sector, ¬ m.mayFail dev sector)
    (hpath : path.head? = some slash) :
    m.Yields (namei (m.bytes dev).superBlock path dev) s (walked (m.bytes dev) path) := by
  have h := (does_namei (t := True) hv hs (fun _ => hm) hpath).total fun dev' sector hf hM => hread sector (hM.1 ▸ hf)
  refine ⟨fun p' s' hr => h.not_panics hr, ?_, fun r s' hr => ?_⟩
  · obtain ⟨r, s', hr, -⟩ := h.exists_reach fun c s => kernLayer_total
    exact ⟨r, s', hr⟩
  · cases h.of_ret hr with
    | found => rfl
    | @none l r hl hn =>
      have hnil : l = [] := List.eq_nil_iff_forall_not_mem.2 fun x hx =>
        hread x.2 ((hl x hx).2.1 ▸ (hl x hx).1)
      exact (hn hnil (not_not.1 fun h => hm (.inl h))).2

theorem Yields.unique {p : P (Option InodePtr × Nat)} {n n' : Nat} (h : m.Yields p s n) (h' : m.Yields p s n') : n = n' := by
  obtain ⟨r, s', hr⟩ := h.returns
  exact (h.number r s' hr).symm.trans (h'.number r s' hr)

theorem components_drop (hpath : path.head? = some slash) : components path = components (path.drop 1) := by
  obtain ⟨rest, rfl⟩ : ∃ rest, path = slash :: rest := by
    cases path with
    | nil => cases hpath
    | cons c rest =>
      obtain rfl : c = slash := Option.some.inj hpath
      exact ⟨rest, rfl⟩
  have hsplit : (slash :: rest).splitOn slash = [] :: rest.splitOn slash := by
    have h := List.splitOn_append_cons_self (a := slash) [] rest
    rwa [List.splitOn_nil] at h
  rw [components, hsplit]
  rfl

/-- `namei` finds what the path names iff the components that it ignores lead nowhere else. -/
theorem namei_resolves_iff (hv : Volume m dev) (hs : s.Idle) (hm : ¬ m.Short s)
    (hread : ∀ sector, ¬ m.mayFail dev sector) (hpath : path.head? = some slash) :
    m.Yields (namei (m.bytes dev).superBlock path dev) s ((m.bytes dev).resolve (components path) rootIno) ↔
      (m.bytes dev).resolve (ignored (path.drop 1)) (walked (m.bytes dev) path) = walked (m.bytes dev) path := by
  have hwalk := namei_yields hv hs hm hread hpath
  have hcomp : (m.bytes dev).resolve (components path) rootIno =
      (m.bytes dev).resolve (ignored (path.drop 1)) (walked (m.bytes dev) path) := by
    rw [components_drop hpath, components_eq, Disk.resolve, List.foldl_append]
    rfl
  rw [hcomp]
  exact ⟨fun h => h.unique hwalk, fun h => h.symm ▸ hwalk⟩

/-- `/d/f` on the small volume. -/
theorem namei_resolves_small : (smallMachine fun _ => False).Yields (namei smallDisk.superBlock [47, 100, 47, 102] 1)
    .start (smallDisk.resolve (components [47, 100, 47, 102]) rootIno) :=
  (namei_resolves_iff small_volume ⟨fun _ => rfl, rfl⟩ Kern.start_short
    (fun _ => id) rfl).2 (by decide +kernel)

/-- `/d//f` on the small volume is the inode of `d`. -/
theorem namei_skips_component : ∃ m : Machine, Volume m 1 ∧ (∀ sector, ¬ m.mayFail 1 sector) ∧ ¬ m.Short .start ∧
    ¬ m.Yields (namei (m.bytes 1).superBlock [47, 100, 47, 47, 102] 1) .start
      ((m.bytes 1).resolve (components [47, 100, 47, 47, 102]) rootIno) := by
  refine ⟨smallMachine fun _ => False, small_volume, fun _ => id, Kern.start_short, fun h => ?_⟩
  have hwalk := h.unique (namei_yields small_volume ⟨fun _ => rfl, rfl⟩ Kern.start_short (fun _ => id) rfl)
  have hne : smallDisk.resolve (components [47, 100, 47, 47, 102]) rootIno ≠ walked smallDisk [47, 100, 47, 47, 102] := by
    decide +kernel
  exact hne hwalk

end Machine

end Airix.Axfs
