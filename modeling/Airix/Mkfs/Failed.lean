import Airix.Mkfs.Path
import Airix.Mkfs.Space

/-!
# Copies that fail

A call of `write_file` that returns false has left the image as it was if it found that the destination
exists or that a prefix of the path is no directory. When there is not enough space the entry and the inode
of the file have been written already, and stay.
-/

namespace Airix.Mkfs
open Axfs Bytes Exec Finset BlockTree

variable {g : Geom} {s s' : State} {d d' : Disk} {fuel sep last ino b r blockNum ipg : Nat}
  {name buf dst bytes : List UInt8}

/-! ### A lookup only reads -/

namespace Keeps
variable {P : State → Prop}

theorem getInode : Keeps P (getInode ino) := seekInode.bind fun _ => fread.bind fun _ => pure

theorem getDirEntryFromBlock : Keeps P (getDirEntryFromBlock name b) := fread.bind fun _ => lift

theorem getDirEntryFromPointers {getter : Nat → M (Option DirectoryEntry)} (h : ∀ p, Keeps P (getter p)) (l : List Nat) :
    Keeps P (getDirEntryFromPointers getter l) := by
  induction l with
  | nil => exact pure
  | cons p l ih =>
    rw [Mkfs.getDirEntryFromPointers]
    split
    · exact pure
    · refine (h p).bind fun e => ?_
      split
      · exact pure
      · exact ih

theorem getDirEntryFromIndirectBlock {getter : Nat → M (Option DirectoryEntry)} (h : ∀ p, Keeps P (getter p)) (b : Nat) :
    Keeps P (getDirEntryFromIndirectBlock getter b) :=
  fread.bind fun _ => getDirEntryFromPointers h _

theorem getEntryFromDirect (l : List Nat) : Keeps P (getEntryFromDirect name l) := by
  induction l with
  | nil => exact pure
  | cons p l ih =>
    rw [Mkfs.getEntryFromDirect]
    split
    · exact pure
    · refine getDirEntryFromBlock.bind fun e => ?_
      split
      · exact pure
      · exact ih

theorem getEntryFromIndirect {getter : Nat → M (Option DirectoryEntry)} (h : ∀ p, Keeps P (getter p)) (p : Nat) :
    Keeps P (getEntryFromIndirect getter p) := by
  rw [Mkfs.getEntryFromIndirect]
  split
  · exact h p
  · exact pure

theorem getEntryFromDir : Keeps P (getEntryFromDir ino name) := by
  have h1 : ∀ b, Keeps P (getDirEntryFrom1IndirectBlock name b) :=
    getDirEntryFromIndirectBlock fun _ => getDirEntryFromBlock
  have h2 : ∀ b, Keeps P (getDirEntryFrom2IndirectBlock name b) := getDirEntryFromIndirectBlock h1
  have h3 : ∀ b, Keeps P (getDirEntryFrom3IndirectBlock name b) := getDirEntryFromIndirectBlock h2
  refine getInode.bind fun inode => ?_
  split
  · exact pure
  · refine (getEntryFromDirect _).bind fun e => ?_
    split
    · exact pure
    · refine (getEntryFromIndirect h1 _).bind fun e => ?_
      split
      · exact pure
      · refine (getEntryFromIndirect h2 _).bind fun e => ?_
        split
        · exact pure
        · exact getEntryFromIndirect h3 _

end Keeps

/-! ### A loop that returns 0 has only read -/

section Loop
variable (hs : Rep g s d) (h : Inv g d 0)
include hs h

theorem Rep.lookup {e : Option DirectoryEntry} (hr : (getEntryFromDir rootIno name).run s = .ok (e, s')) :
    s' = s ∧ LookedUp d name e := by
  obtain ⟨_, -, -, hl⟩ := (after_getEntryFromDir (t := False) h s hs).1 e s' hr
  exact ⟨Keeps.getEntryFromDir (P := (· = s)) s e s' rfl hr, hl⟩

/-- A directory that was created leads to others without end. -/
theorem Rep.createFileLoop_new (hst : Stuck buf sep last) (hl : LookedUp d name none) {s₁ : State}
    (h₁ : (writeEntryToDir rootIno name ftDir).run s = .ok (ino, s₁)) :
    ino ≠ 0 ∧ ¬ (createFileLoop last fuel buf (sep + 1) sep ino).run s₁ = .ok (r, s') := by
  obtain ⟨d₁, hs₁, j, hj, rfl, -, hadd⟩ :=
    (after_writeEntryToDir (t := False) h (.inr rfl) (fun j => h.named_of_lookedUp hl _ _) False.elim s hs).1 ino s₁ h₁
  refine ⟨by omega, fun hr => ?_⟩
  obtain ⟨_, -, hf⟩ := ((hadd.bare hj).createFileLoop hst s₁ hs₁).1 r s' hr
  exact hf

theorem Rep.createFileLoop_stuck (hflat : Flat g d) (hst : Stuck buf sep last)
    (hr : (createFileLoop last fuel buf (sep + 1) sep rootIno).run s = .ok (r, s')) : s' = s := by
  induction fuel generalizing buf with
  | zero => exact absurd hr throw_ok
  | succ fuel ih =>
    have hne : sep ≠ last := by
      have := hst.lt
      omega
    rw [createFileLoop, if_pos hst.lt, hst.skipName] at hr
    simp only [ne_eq, hne, not_false_eq_true, decide_true, if_true, not_true_eq_false, if_false] at hr
    obtain ⟨e, s₁, h₁, hr⟩ := bind_ok.1 hr
    obtain ⟨rfl, hl⟩ := hs.lookup h h₁
    cases e with
    | some e =>
      obtain ⟨q, hq, rfl, -⟩ := hl
      dsimp only at hr
      split at hr
      · exact (pure_ok.1 hr).2.symm
      · rename_i hft
        rw [hflat.types q hq (not_not.1 hft)] at hr
        exact ih hst.set hr
    | none =>
      obtain ⟨e, s₂, h₂, hr⟩ := bind_ok.1 hr
      obtain ⟨he, hno⟩ := hs.createFileLoop_new h hst.set hl h₂
      rw [if_neg he] at hr
      exact absurd hr hno

/-- The loop that returns 0 has only read. -/
theorem Rep.createFileLoop_zero (hflat : Flat g d) (hdst : Legal dst)
    (hr : (createFileLoop dst.length fuel (dst ++ [0]) 1 1 rootIno).run s = .ok (0, s')) : s' = s := by
  have hlen := hdst.length
  cases fuel with
  | zero => exact absurd hr throw_ok
  | succ fuel =>
    rw [createFileLoop, if_pos hlen] at hr
    rcases Decidable.em (Single dst) with hsin | hmany
    · rw [skipName_single hdst hsin] at hr
      simp only [ne_eq, not_true_eq_false, decide_false, Bool.false_eq_true, not_false_eq_true, if_true, if_false] at hr
      obtain ⟨e, s₁, h₁, hr⟩ := bind_ok.1 hr
      obtain ⟨rfl, hl⟩ := hs.lookup h h₁
      cases e with
      | some e => exact (pure_ok.1 hr).2.symm
      | none =>
        obtain ⟨e, s₂, h₂, hr⟩ := bind_ok.1 hr
        obtain ⟨d₂, -, j, -, rfl, -⟩ := (after_writeEntryToDir (t := False) h (.inl rfl)
          (fun j => h.named_of_lookedUp hl _ _) False.elim s₁ hs).1 e s₂ h₂
        rw [if_neg (by omega)] at hr
        cases fuel with
        | zero => exact absurd hr throw_ok
        | succ fuel =>
          rw [createFileLoop, if_neg (Nat.lt_irrefl _)] at hr
          exact absurd (pure_ok.1 hr).1 (by omega)
    · obtain ⟨hsep, hlt⟩ := skipName_many hdst hmany
      have hst : Stuck ((dst ++ [0]).set (skipName (dst ++ [0]) 1) 0) (skipName (dst ++ [0]) 1) dst.length :=
        ⟨List.getElem?_set_self hlt, hsep⟩
      have hne : skipName (dst ++ [0]) 1 ≠ dst.length := by omega
      simp only [ne_eq, hne, not_false_eq_true, decide_true, if_true, not_true_eq_false, if_false] at hr
      obtain ⟨e, s₁, h₁, hr⟩ := bind_ok.1 hr
      obtain ⟨rfl, hl⟩ := hs.lookup h h₁
      cases e with
      | some e =>
        obtain ⟨q, hq, rfl, -⟩ := hl
        dsimp only at hr
        split at hr
        · exact (pure_ok.1 hr).2.symm
        · rename_i hft
          rw [hflat.types q hq (not_not.1 hft)] at hr
          exact hs.createFileLoop_stuck h hflat hst hr
      | none =>
        obtain ⟨e, s₂, h₂, hr⟩ := bind_ok.1 hr
        obtain ⟨he, hno⟩ := hs.createFileLoop_new h hst hl h₂
        rw [if_neg he] at hr
        exact absurd hr hno

theorem Rep.createFileInode_zero (hflat : Flat g d) (hdst : Legal dst) {inode : Inode}
    (hr : (createFileInode fuel dst).run s = .ok ((0, inode), s')) : s' = s := by
  rw [createFileInode] at hr
  obtain ⟨ino, s₁, h₁, hr⟩ := bind_ok.1 hr
  split at hr
  · rename_i h0
    subst h0
    obtain ⟨-, rfl⟩ := pure_ok.1 hr
    exact hs.createFileLoop_zero h hflat hdst h₁
  · rename_i h0
    obtain ⟨_, s₂, -, hr⟩ := bind_ok.1 hr
    exact absurd (congrArg Prod.fst (pure_ok.1 hr).1) h0

/-- Exactly when a call that fails has left the image: unless it had a new file to create. -/
theorem Rep.failed_iff (hflat : Flat g d) (hdst : Legal dst) (hr : (writeFile fuel bytes dst).run s = .ok (false, s')) :
    s'.img = s.img ↔ ¬ (Single dst ∧ LookedUp d (dst.drop 1) none) := by
  rw [writeFile_eq] at hr
  obtain ⟨⟨ino, inode⟩, s₁, h₁, hr⟩ := bind_ok.1 hr
  obtain ⟨d₁, hs₁, hspec⟩ := (after_createFileInode (t := False) h hflat hdst False.elim s hs).1 _ s₁ h₁
  dsimp only at hr
  split at hr
  · rename_i h0
    subst h0
    obtain ⟨-, rfl⟩ := pure_ok.1 hr
    have hstop : Stops d dst := by
      rcases hspec with ⟨-, -, hstop⟩ | ⟨-, -, j, -, hj, -⟩
      · exact hstop
      · exact absurd (congrArg Prod.fst hj).symm (Nat.succ_ne_zero j)
    rw [hs.createFileInode_zero h hflat hdst h₁]
    refine iff_of_true rfl ?_
    rintro ⟨hsin, hl⟩
    rw [Stops, if_pos hsin] at hstop
    obtain ⟨q, hq, hn⟩ := hstop
    exact hl q hq hn
  · rename_i h0
    rcases hspec with ⟨hz, -⟩ | ⟨hsin, hl, j, hj, -, hbit, hadd⟩
    · exact absurd hz h0
    obtain ⟨sb, s₂, h₂, hr⟩ := bind_ok.1 hr
    cases h₂
    split at hr
    · obtain ⟨_, _, -, hr⟩ := bind_ok.1 hr
      obtain ⟨_, _, -, hr⟩ := bind_ok.1 hr
      obtain ⟨_, _, -, hr⟩ := bind_ok.1 hr
      exact absurd (pure_ok.1 hr).1 (by decide)
    · obtain ⟨-, rfl⟩ := pure_ok.1 hr
      refine iff_of_false (fun himg => ?_) fun hno => hno ⟨hsin, hl⟩
      -- the inode's bit is set now
      have h0 := g.groups_pos
      have hj8 : j < 8192 := hj.trans_le g.ipg_le
      have hmem := hadd.mem_named fun len => h.named_of_lookedUp hl _ _ len
      have hset := (hadd.inv.dir.bits 0 h0 j hj8).2 ⟨rfl, .inr hmem⟩
      have hwin : s₁.window (1024 * g.bitmap .inode 0) = s.window (1024 * g.bitmap .inode 0) := by
        funext x
        exact congrFun (congrArg Img.byte himg) _
      rw [← hs₁.bit .inode 0 h0 j hj8, hwin, hs.bit .inode 0 h0 j hj8, hbit] at hset
      cases hset

end Loop

/-- A copy that fails changes nothing iff it had no file to create: the path has several components, or names an
entry of the root directory. -/
theorem failed_unchanged_iff (h : Reachable blockNum ipg s) (hpos : 0 < blockNum) (hlt : blockNum * 1024 ≤ 2 ^ 32)
    (hipg : ipg ≤ 8192) : ∃ g : Geom, g.blocks + 1 = blockNum ∧ g.ipg = ipg ∧
      ∀ fuel bytes dst s', Legal dst → (writeFile fuel bytes dst).run s = .ok (false, s') →
        (s'.img = s.img ↔ ¬ (Single dst ∧ ∀ q ∈ (s.disk g).entries, q.name ≠ storedName (dst.drop 1))) := by
  obtain ⟨g, d, h1, h2, hs, himage⟩ := h.image hpos hlt hipg
  refine ⟨g, h1, h2, fun fuel bytes dst s' hdst hr => ?_⟩
  rw [hs.failed_iff himage.inv himage.flat hdst hr, show (s.disk g).entries = d.entries from hs.disk_entries himage.inv]
  rfl

/-- The result of a computation, if it returns, satisfies `p`. -/
def returns {α : Type} (p : α → Bool) : Except Err (α × State) → Bool
  | .ok r => p r.1
  | .error _ => false

theorem returns_iff {α : Type} {p : α → Bool} {r : Except Err (α × State)} (h : returns p r = true) :
    ∃ a s, r = .ok (a, s) ∧ p a = true := by
  cases r with
  | error e => cases h
  | ok r => exact ⟨r.1, r.2, rfl, h⟩

theorem Geom.eq_of {g' : Geom} (hb : g'.blocks = g.blocks) (hi : g'.ipg = g.ipg) : g' = g := by
  cases g
  cases g'
  cases hb
  cases hi
  rfl

/-- A copy to `/.` on a new image. -/
theorem failed_unchanged_dot : ∃ s s', Reachable 20 9 s ∧ (writeFile 2 [] [47, 46]).run s = .ok (false, s') ∧
    s'.img = s.img := by
  have hrun : returns (fun b => !b) ((do mkfs 20 9; writeFile 2 [] [47, 46]).run .start) = true := by decide +kernel
  obtain ⟨b, s', hr, hb⟩ := returns_iff hrun
  obtain rfl : b = false := by simpa using hb
  obtain ⟨_, s, h₁, h₂⟩ := bind_ok.1 hr
  obtain ⟨g, hblocks, hipg, hall⟩ := failed_unchanged_iff (.mkfs h₁) (by decide) (by decide) (by decide)
  obtain ⟨g', d, hblocks', hipg', hs, himage⟩ := mkfs_spec (by decide) (by decide) (by decide) h₁
  obtain rfl : g' = g := Geom.eq_of (by omega) (hipg'.trans hipg.symm)
  have hlegal : Legal [47, 46] := ⟨by decide, by decide, by decide⟩
  refine ⟨s, s', .mkfs h₁, h₂, (hall 2 [] [47, 46] s' hlegal h₂).2 fun ⟨_, hnew⟩ => ?_⟩
  obtain ⟨l, -, hdot, -⟩ := himage.inv.dir.dots
  rw [show (s.disk g').entries = d.entries from hs.disk_entries himage.inv] at hnew
  exact hnew _ (mem_entries.2 ⟨_, himage.inv.dir.first_mem, hdot⟩) rfl

/-- A copy of 3000 bytes to `/a` on a new image with 2 free blocks. -/
theorem not_failed_unchanged : ∃ s s', Reachable 10 9 s ∧ s.superBlock.sFreeBlocksCount = 2 ∧
    (writeFile 3 (List.replicate 3000 7) [47, 97]).run s = .ok (false, s') ∧ s'.img ≠ s.img := by
  have hrun : returns id ((do
      mkfs 10 9
      let s ← get
      let r ← writeFile 3 (List.replicate 3000 7) [47, 97]
      let s' ← get
      return decide (s.superBlock.sFreeBlocksCount = 2 ∧ r = false ∧ s'.img.byte 4096 ≠ s.img.byte 4096)).run .start) =
        true := by
    decide +kernel
  obtain ⟨_, s₁, hr₁, hb⟩ := returns_iff hrun
  obtain ⟨_, s, h₁, hr₂⟩ := bind_ok.1 hr₁
  obtain ⟨_, _, hget, hr₃⟩ := bind_ok.1 hr₂
  obtain ⟨r, s', h₂, hr₄⟩ := bind_ok.1 hr₃
  obtain ⟨_, _, hget', hr₅⟩ := bind_ok.1 hr₄
  obtain ⟨rfl, rfl⟩ := get_ok.1 hget
  obtain ⟨rfl, rfl⟩ := get_ok.1 hget'
  obtain ⟨rfl, -⟩ := pure_ok.1 hr₅
  obtain ⟨hfree, rfl, hbyte⟩ := of_decide_eq_true hb
  exact ⟨_, _, .mkfs h₁, hfree, h₂, fun he => hbyte (by rw [he])⟩

end Airix.Mkfs
