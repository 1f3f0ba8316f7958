import Airix.Axfs.Path

/-!
# Opening a file

`ax_open` uses the buffers of the super block, the descriptors and the inodes without a look at what `bio_read`
has returned. So a call is as it should be, with -1 or with the inode that is on the disk, if no read of these
has failed, and after a failed one it has computed with whatever was in the buffer.
-/

namespace Airix.Axfs
open Bytes Prog

namespace Machine
variable {m : Machine} {dev : UInt8} {t : Prop} {s s' : Kern} {file : File} {fInode : VfsInode} {fPath : PathPtr}
  {p' : P (File × Int)}

/-- What `ax_open` comes to: a failure that leaves everything as it was, or the file with the inode of its path. -/
inductive Opened (m : Machine) (file : File) (fInode : VfsInode) (path : List UInt8) (s : Kern) : File × Int → Kern → Prop
  | failed {l : List (UInt8 × UInt64)} : m.Harmless fInode.iDevice l → Opened m file fInode path s (file, -1) (s.fail l)
  | opened {l : List (UInt8 × UInt64)} {o : Nat} (n : Nat) : m.Harmless fInode.iDevice l → o ≠ 0 → s.live o = none →
    path.head? = some slash → n = walked (m.bytes fInode.iDevice) path → n ≠ 0 →
    Opened m file fInode path s ({ file with fInode := some { fInode with
      iIno := n
      iPrivate := some ⟨o, (m.bytes fInode.iDevice).inode n⟩ } }, 0) (withInode (s.fail l) o)

/-- The path leads to something that is no directory. -/
def HasFile (d : Disk) (path : List UInt8) : Prop :=
  path.head? = some slash ∧ walked d path ≠ 0 ∧ (d.inode (walked d path)).iMode ≠ sIfdir

/-- When no read fails, the call opens what it is to open. -/
theorem does_axOpen_iff (hv : Volume m fInode.iDevice) (hs : s.Idle) (ht : t → ¬ m.Short s)
    (hinode : file.fInode = some fInode) (hpath : file.fPath = some fPath) :
    m.Does fInode.iDevice t (axOpen file) s (fun r s' => m.Opened file fInode fPath.text s r s' ∧
      (s'.failed = s.failed → m.memory →
        (r.2 = 0 ↔ file.fFlags = oRdonly ∧ HasFile (m.bytes fInode.iDevice) fPath.text))) := by
  have hmem : t → m.memory := fun h => not_not.1 fun hn => ht h (.inl hn)
  have hneg : (-1 : Int) ≠ 0 := by decide
  obtain ⟨object, _, _, fPos, fRefs, fFlags⟩ := file
  subst hinode hpath
  unfold axOpen
  dsimp only
  by_cases hflags : fFlags = oRdonly
  · rw [if_neg (not_not.2 hflags)]
    refine (does_getSuperBlock hv hs hmem).bind ?_
    rintro sb s₁ ⟨hs₁, hsb⟩
    subst hs₁ hsb
    by_cases hslash : fPath.text.head? = some slash
    · refine (does_namei hv hs ht hslash).bind fun r s₂ hr => ?_
      cases hr with
      | @found l o hl hne hfree hn =>
        by_cases hdir : ((m.bytes fInode.iDevice).inode (walked (m.bytes fInode.iDevice) fPath.text)).iMode = sIfdir
        · dsimp only
          rw [if_pos hdir]
          refine (does_inodeRelease (s := s₁.fail l) hfree).bind fun _ s₃ hs₃ => Runs.pure ?_
          exact hs₃ ▸ ⟨.failed hl, fun _ _ => ⟨fun h => absurd h hneg, fun h => absurd hdir h.2.2.2⟩⟩
        · dsimp only
          rw [if_neg hdir]
          refine Runs.pure ⟨.opened _ hl hne hfree hslash rfl hn, fun _ _ => ?_⟩
          exact ⟨fun _ => ⟨hflags, hslash, hn, hdir⟩, fun _ => rfl⟩
      | @none l _ hl hnone =>
        refine Runs.pure ⟨.failed hl, fun hfail hm => ⟨fun h => absurd h hneg, fun h => ?_⟩⟩
        have hnil : l = [] := by
          have hlen := congrArg List.length hfail
          rw [Kern.fail, List.length_append] at hlen
          exact List.length_eq_zero_iff.1 (by omega)
        exact absurd (hnone hnil hm).1 h.2.2.1
    · unfold namei
      rw [if_neg hslash, pure_bind]
      exact Runs.pure ⟨.failed (l := []) .nil, fun _ _ => ⟨fun h => absurd h hneg, fun h => absurd h.2.1 hslash⟩⟩
  · rw [if_pos hflags]
    exact Runs.pure ⟨.failed (l := []) .nil, fun _ _ => ⟨fun h => absurd h hneg, fun h => absurd h.1 hflags⟩⟩

theorem does_axOpen (hv : Volume m fInode.iDevice) (hs : s.Idle) (ht : t → ¬ m.Short s)
    (hinode : file.fInode = some fInode) (hpath : file.fPath = some fPath) :
    m.Does fInode.iDevice t (axOpen file) s (m.Opened file fInode fPath.text s) :=
  (does_axOpen_iff hv hs ht hinode hpath).mono fun _ _ h => h.1

/-- Where a call ends: it returns, it stops, or it brings the kernel down; not for want of memory. -/
def Ended (m : Machine) (s : Kern) (p' : P (File × Int)) (s' : Kern) : Prop :=
  match p' with
  | .ret _ => True
  | .stop e => e ≠ .noData ∨ ¬ m.Short s
  | .call c _ => ¬ m.Short s ∧ m.kernLayer.mayPanic c s'

/-- A call that ends as it should: no buffer was used whose read had failed, the kernel is up, and the file was
not opened, or opened with the inode of its path. -/
structure Surfaces (m : Machine) (dev : UInt8) (path : List UInt8) (p' : P (File × Int)) (s' : Kern) : Prop where
  good : s'.misused = false
  up : ¬ Panics m.kernLayer s' p'
  result : ∀ f r, p' = .ret (f, r) → r = -1 ∨ r = 0 ∧ ∃ fInode p, f.fInode = some fInode ∧
    fInode.iIno = walked (m.bytes dev) path ∧ fInode.iPrivate = some p ∧ p.inode = (m.bytes dev).inode fInode.iIno

theorem Harmless.not_metaFailed {l : List (UInt8 × UInt64)} (h : m.Harmless dev l) (hs : s.failed = []) :
    ¬ m.MetaFailed (m.metaAt dev) (s.fail l) := by
  rintro ⟨x, hx, -, hdev, hmeta⟩
  have hx : x ∈ l ++ s.failed := hx
  rw [hs, List.append_nil] at hx
  exact (h x hx).2.2 hmeta

theorem Opened.surfaces {r : File × Int} (h : m.Opened file fInode fPath.text s r s') (hs : s.Idle) (hfailed : s.failed = []) :
    m.Surfaces fInode.iDevice fPath.text (.ret r) s' ∧ ¬ m.MetaFailed (m.metaAt fInode.iDevice) s' := by
  cases h with
  | @failed l hl =>
    refine ⟨⟨hs.good, id, fun f r hr => ?_⟩, hl.not_metaFailed hfailed⟩
    exact .inl (Prod.mk.inj (Prog.ret.inj hr)).2.symm
  | @opened l o n hl hne hfree hslash hn h0 =>
    refine ⟨⟨hs.good, id, fun f r hr => ?_⟩, hl.not_metaFailed hfailed⟩
    obtain ⟨rfl, rfl⟩ := Prod.mk.inj (Prog.ret.inj hr)
    exact .inr ⟨rfl, _, _, rfl, hn, rfl, rfl⟩

/-- Errors of the disk surface as failures iff none of them is in the metadata. -/
theorem axOpen_surfaces_iff (hv : Volume m fInode.iDevice) (hs : s.Idle) (hfailed : s.failed = [])
    (hinode : file.fInode = some fInode) (hpath : file.fPath = some fPath)
    (hr : Reach m.kernLayer (axOpen file) s p' s') (hend : m.Ended s p' s') :
    m.Surfaces fInode.iDevice fPath.text p' s' ↔ ¬ m.MetaFailed (m.metaAt fInode.iDevice) s' := by
  have hruns := (does_axOpen (t := ¬ m.Short s) hv hs id hinode hpath).reach hr
  have hspoiled : m.Spoiled (m.metaAt fInode.iDevice) s' → (m.Surfaces fInode.iDevice fPath.text p' s' ↔
      ¬ m.MetaFailed (m.metaAt fInode.iDevice) s') := by
    rintro ⟨hmis, hfail⟩
    refine ⟨fun h => ?_, fun h => absurd hfail h⟩
    have hgood := h.good
    rw [hmis] at hgood
    cases hgood
  cases p' with
  | ret r =>
    rcases hruns with hq | hbad
    · obtain ⟨hsurf, hmeta⟩ := hq.surfaces hs hfailed
      exact ⟨fun _ => hmeta, fun _ => hsurf⟩
    · exact hspoiled hbad
  | stop e => exact hspoiled (hruns hend)
  | call c k =>
    refine hspoiled ?_
    by_contra hn
    exact hruns.1 hend.1 hn hend.2

/-- The file that `vfs_open` makes for the path `/d/f`. -/
def smallClosed : File where
  object := 1
  fPath := some ⟨2, [47, 100, 47, 102]⟩
  fInode := some ⟨3, 1, 0, none⟩
  fPos := 0
  fRefs := 0
  fFlags := oRdonly

/-- A good disk. -/
theorem axOpen_surfaces_small : ∃ r s', Reach (smallMachine fun _ => False).kernLayer (axOpen smallClosed) .start (.ret r) s' ∧
    (smallMachine fun _ => False).Surfaces 1 [47, 100, 47, 102] (.ret r) s' := by
  have hs : Kern.start.Idle := ⟨fun _ => rfl, rfl⟩
  have hinode : smallClosed.fInode = some ⟨3, 1, 0, none⟩ := rfl
  have hpath : smallClosed.fPath = some ⟨2, [47, 100, 47, 102]⟩ := rfl
  have hdoes := (does_axOpen (t := True) (m := smallMachine fun _ => False) small_volume hs
    (fun _ => Kern.start_short) hinode hpath).total fun _ _ hf _ => hf
  obtain ⟨r, s', hr, -⟩ := hdoes.exists_reach fun _ _ => kernLayer_total
  refine ⟨r, s', hr, (axOpen_surfaces_iff small_volume hs rfl hinode hpath hr trivial).2 ?_⟩
  rintro ⟨x, -, hf, -⟩
  exact hf

/-- A super block that could not be read, in a buffer of zeros. -/
theorem axOpen_divides_by_zero : ∃ s', Reach (smallMachine fun _ => True).kernLayer (axOpen smallClosed) .start
    (.stop .divByZero) s' ∧ ¬ (smallMachine fun _ => True).Surfaces 1 [47, 100, 47, 102] (.stop .divByZero) s' := by
  refine ⟨_, .call (r := (0 : Nat)) ⟨rfl, false, fun _ => 0, fun h => absurd h (by decide), rfl⟩ <|
    .call (r := false) ⟨_, rfl, .failed (fun _ => 0) rfl ⟨24, rfl, by decide⟩ trivial⟩ <| .call ⟨_, rfl, rfl, rfl⟩ <|
    .call (r := ()) ⟨Option.some_ne_none _, rfl⟩ <| .call (r := (1 : Nat)) (.inl ⟨by decide, rfl, rfl⟩) .refl, fun h => h.up trivial⟩

end Machine

end Airix.Axfs
