import Airix.Mkfs.Lookup
import Mathlib.Data.List.TakeWhile

/-!
# Creating the file of a destination path

The loop of `create_file_inode` replaces the first separator of the path by a NUL and never moves beyond
it: from the second round on it takes the rest of the path for one directory name, again and again. So a
call returns only for a path of one component, or without having changed the image; a directory that
was created would lead to another one without end.
-/

namespace Airix.Mkfs
open Axfs Bytes Exec Finset BlockTree

variable {t : Prop} {g : Geom} {d d' : Disk} {b i j l n ft ino sep last fuel : Nat} {name buf dst : List UInt8}

/-! ### A directory without entries -/

/-- Inode `ino` is a directory that was just created. -/
structure Bare (g : Geom) (d : Disk) (ino : Nat) : Prop where
  counts : Counts g d
  pos : 1 ≤ ino
  le : ino ≤ g.inodes
  inode : d.inode ino = { iMode := sIfdir }

theorem emptyDir_valid : Inode.Valid { iMode := sIfdir } := by
  refine ⟨by decide, ?_, ?_, ?_, ?_, ?_, ?_, ?_, ?_, fun _ => Nat.two_pow_pos 32, fun _ _ => rfl⟩
  all_goals exact Nat.two_pow_pos _

theorem Bare.after_getEntryFromDir (h : Bare g d ino) :
    g.After t d (getEntryFromDir ino name) (fun r d' => d' = d ∧ r = none) := by
  refine (after_getInode h.counts.ipg_eq h.pos h.le).bind ?_
  rintro inode d' ⟨hi, hd⟩
  subst hi hd
  have hmode : (d'.inode ino).iMode = sIfdir := by rw [h.inode]
  have hzero : (d'.inode ino).iBlock 0 = 0 := by rw [h.inode]
  rw [if_neg (not_not.2 hmode)]
  have hlist : (List.range directBlockCount).map (d'.inode ino).iBlock =
      (d'.inode ino).iBlock 0 :: (List.range' 1 20).map (d'.inode ino).iBlock := by
    rw [List.range_eq_range', show directBlockCount = 20 + 1 from rfl, List.range'_succ, List.map_cons]
  rw [hlist, getEntryFromDirect, if_pos hzero, pure_bind]
  exact After.pure ⟨rfl, rfl⟩

/-- An entry of a directory without entries goes to a new block, and names another such directory. -/
theorem Bare.after_writeEntryToDir (h : Bare g d ino) :
    g.After False d (writeEntryToDir ino name ftDir) (fun r d' => r ≠ 0 ∧ Bare g d' r) := by
  have h0 := g.groups_pos
  refine (after_getInode h.counts.ipg_eq h.pos h.le).bind ?_
  rintro inode d₀ ⟨hi, hd⟩
  subst hi hd
  have hmode : (d₀.inode ino).iMode = sIfdir := by rw [h.inode]
  have hzero : (d₀.inode ino).iBlock 0 = 0 := by rw [h.inode]
  have hv : (d₀.inode ino).Valid := by
    rw [h.inode]
    exact emptyDir_valid
  rw [if_neg (not_not.2 hmode)]
  refine (after_allocInodeNo h.counts False.elim).bind ?_
  rintro e d₁ ⟨hd, j, hj, he, hbit⟩
  subst hd he
  -- the first pointer is 0: a block is allocated
  have hloop : g.After False d₁ (writeEntryToBlocks ino name ftDir (j + 1) (d₁.inode ino)
      (inodeArray (d₁.inode ino) 0 directBlockCount)) (fun r d' => r.1 = true ∧ Bare g d' (j + 1)) := by
    have hblock : (inodeArray (d₁.inode ino) 0 directBlockCount).blocks 0 = 0 := hzero
    rw [writeEntryToBlocks, List.range_eq_range', show (inodeArray (d₁.inode ino) 0 directBlockCount).num = 20 + 1 from rfl,
      List.range'_succ, writeEntryLoop, if_pos hblock, growBlocks]
    simp only [bind_assoc]
    refine (after_allocBlock h.counts False.elim).bind ?_
    rintro b d₂ ⟨hd, jb, hjb, hb, hbitb⟩
    subst hd hb
    have hdata : g.IsData (1 + jb) := by simpa using h.counts.isData h0 hjb hbitb
    have hlt := IsData.lt hdata
    refine (after_initDirBlock hdata).bind ?_
    rintro _ d₃ ⟨f, hd₃, hf⟩
    simp only [inodeArray, storeBlock_inode, bind_assoc, pure_bind]
    have hc₃ : Counts g d₃ := by
      rw [hd₃]
      exact ⟨h.counts.mem, h.counts.free, h.counts.used⟩
    refine (after_updateInode hc₃.ipg_eq h.pos h.le (hv.setBlock (j := 0 + 0) (b := 1 + jb) (by omega) (by omega))).bind
      fun _ d₄ hd₄ => ?_
    have hc₄ : Counts g d₄ := by
      rw [hd₄]
      exact ⟨hc₃.mem, hc₃.free, hc₃.used⟩
    have hbit₄ : d₄.bit = d₂.bit := by rw [hd₄, hd₃]; rfl
    refine After.bind₂ (after_markBlock hc₄ hjb (by rw [hbit₄]; exact hbitb)) fun _ d₅ hd₅ => ?_
    have hc₅ : Counts g d₅ := by
      rw [hd₅]
      exact hc₄.mark (K := .block) hjb (by rw [hbit₄]; exact hbitb)
    refine (after_updateSuperBlock hc₅.valid).bind fun _ d₆ hd₆ => ?_
    have hc₆ : Counts g d₆ := by
      rw [hd₆]
      exact ⟨hc₅.mem, hc₅.free, hc₅.used⟩
    have hbit₆ : d₆.bit .inode 0 j = false := by
      rw [hd₆, hd₅]
      show (d₄.mark .block jb).bit .inode 0 j = false
      rw [Disk.mark_bit, hbit₄, hbit]
      rfl
    have hdir : DirBlock (d₆.data (1 + jb)) [padding 1024] := by
      have hdd : d₆.data (1 + jb) = f := by
        rw [hd₆, hd₅]
        show (d₄.mark .block jb).data (1 + jb) = f
        rw [Disk.mark_data, hd₄, hd₃]
        exact Disk.setData_self _ _ _
      rw [hdd]
      exact hf
    have hipg := g.ipg_le
    rw [Function.update_self, writeEntryToBlock]
    simp only [bind_assoc]
    refine (after_writeDirEntryToBlock hdata hdir (by omega) (by decide) (by decide)).bind fun r d₇ hr => ?_
    rcases hr with ⟨-, -, hlen⟩ | ⟨rfl, f', len, rs', hd₇, -, -⟩
    · have h1 := hlen 1024 [] rfl
      have h2 := (recLenOf_spec name).2
      omega
    · have hc₇ : Counts g d₇ := by
        rw [hd₇]
        exact ⟨hc₆.mem, hc₆.free, hc₆.used⟩
      have hbit₇ : d₇.bit .inode 0 j = false := by rw [hd₇]; exact hbit₆
      simp only [if_true, bind_assoc, pure_bind]
      refine After.bind₂ (after_markInode hc₇ hj hbit₇ emptyDir_valid) fun _ d₈ hd₈ => ?_
      have hc₈ : Counts g d₈ := by
        rw [hd₈]
        exact Counts.mark ⟨hc₇.mem, hc₇.free, hc₇.used⟩ hj hbit₇
      refine (after_updateSuperBlock hc₈.valid).bind fun _ d₉ hd₉ => ?_
      refine After.pure ⟨rfl, ?_, by omega, ?_, ?_⟩
      · rw [hd₉]
        exact ⟨hc₈.mem, hc₈.free, hc₈.used⟩
      · exact (show j + 1 ≤ g.ipg from hj).trans (Nat.le_mul_of_pos_right _ h0)
      · rw [hd₉, hd₈]
        exact Function.update_self _ _ _
  refine hloop.bind ?_
  rintro r d' ⟨hr, hbare⟩
  dsimp only
  rw [hr, if_pos rfl]
  exact After.pure ⟨by omega, hbare⟩

/-! ### The loop over the path -/

/-- The separator that was replaced by a NUL, with a name after it. -/
structure Stuck (buf : List UInt8) (sep last : Nat) : Prop where
  nul : buf[sep]? = some 0
  lt : sep + 1 < last

theorem Stuck.skipName (h : Stuck buf sep last) : skipName buf sep = sep := by
  obtain ⟨hlt, hget⟩ := List.getElem?_eq_some_iff.1 h.nul
  rw [Mkfs.skipName, List.drop_eq_getElem_cons hlt, hget, List.takeWhile_cons_of_neg (by simp)]
  rfl

theorem Stuck.set (h : Stuck buf sep last) : Stuck (buf.set sep 0) sep last := by
  obtain ⟨hlt, -⟩ := List.getElem?_eq_some_iff.1 h.nul
  exact ⟨List.getElem?_set_self hlt, h.lt⟩

theorem cString_set : cString (buf.set sep 0) (sep + 1) = cString buf (sep + 1) := by
  rw [cString, cString, List.drop_set_of_lt (Nat.lt_succ_self sep)]

/-- From a directory without entries the loop does not return. -/
theorem Bare.createFileLoop (h : Bare g d ino) (hs : Stuck buf sep last) :
    g.After False d (createFileLoop last fuel buf (sep + 1) sep ino) (fun _ _ => False) := by
  induction fuel generalizing d buf ino with
  | zero => exact After.throw id
  | succ fuel ih =>
    have hne : sep ≠ last := by
      have := hs.lt
      omega
    rw [Mkfs.createFileLoop, if_pos hs.lt, hs.skipName]
    simp only [ne_eq, hne, not_false_eq_true, decide_true, if_true]
    refine h.after_getEntryFromDir.bind ?_
    rintro r d₁ ⟨hd, hr⟩
    subst hd hr
    refine h.after_writeEntryToDir.bind ?_
    rintro e d₂ ⟨he, hbare⟩
    rw [if_neg he]
    exact ih hbare hs.set

/-! ### From the root -/

/-- The root is the only directory. -/
structure Flat (g : Geom) (d : Disk) : Prop where
  modes : ∀ ino, 1 ≤ ino → ino ≤ g.inodes → ino ≠ rootIno → (d.inode ino).iMode ≠ sIfdir
  types : ∀ q ∈ d.entries, q.entry.fileType = ftDir → q.entry.inode = rootIno

/-- A name that is not in the root directory is neither `.` nor `..`. -/
theorem Inv.named_of_lookedUp (h : Inv g d 0) (hl : LookedUp d name none) (ft ino len : Nat) :
    (newRec name ft ino len).Named := by
  obtain ⟨l₁, l₂, h1, h2⟩ := h.dir.dots
  have hm := h.dir.first_mem
  exact ⟨fun he => hl _ (mem_entries.2 ⟨_, hm, h1⟩) he.symm, fun he => hl _ (mem_entries.2 ⟨_, hm, h2⟩) he.symm⟩

/-- A new directory of the root is one without entries. -/
theorem Added.bare (h : Added g name ftDir j d d') (hj : j < g.ipg) : Bare g d' (j + 1) :=
  ⟨h.inv.counts, by omega, (show j + 1 ≤ g.ipg from hj).trans (Nat.le_mul_of_pos_right _ g.groups_pos), h.inode⟩

/-- Some entry of the root has the name and is no directory. -/
def NoDir (d : Disk) (name : List UInt8) : Prop := ∃ q ∈ d.entries, q.name = storedName name ∧ q.entry.fileType ≠ ftDir

/-- Some entry of the root has the name and is a directory. -/
def IsDir (d : Disk) (name : List UInt8) : Prop := ∃ q ∈ d.entries, q.name = storedName name ∧ q.entry.fileType = ftDir

/-- A later round at the root: the loop returns nothing but 0, when the rest of the path is the name of an
entry, and has changed nothing. -/
theorem after_createFileLoop_stuck (h : Inv g d 0) (hflat : Flat g d) (hs : Stuck buf sep last)
    (ht : t → 0 < fuel ∧ NoDir d (cString buf (sep + 1)) ∧ ¬ IsDir d (cString buf (sep + 1))) :
    g.After t d (createFileLoop last fuel buf (sep + 1) sep rootIno) (fun r d' =>
      r = 0 ∧ d' = d ∧ NoDir d (cString buf (sep + 1))) := by
  induction fuel generalizing buf with
  | zero => exact After.throw fun h => absurd (ht h).1 (Nat.lt_irrefl 0)
  | succ fuel ih =>
    have hne : sep ≠ last := by
      have := hs.lt
      omega
    rw [createFileLoop, if_pos hs.lt, hs.skipName]
    simp only [ne_eq, hne, not_false_eq_true, decide_true, if_true, not_true_eq_false, if_false]
    rw [cString_set]
    refine (after_getEntryFromDir h).bind ?_
    rintro r d₁ ⟨hd, hr⟩
    subst hd
    cases r with
    | some e =>
      obtain ⟨q, hq, rfl, hn⟩ := hr
      dsimp only
      split
      · rename_i hft
        exact After.pure ⟨rfl, rfl, q, hq, hn, hft⟩
      · rename_i hft
        have hnt : t → False := fun h => (ht h).2.2 ⟨q, hq, hn, not_not.1 hft⟩
        rw [hflat.types q hq (not_not.1 hft)]
        have hrest := ih hs.set fun h => (hnt h).elim
        rwa [cString_set] at hrest
    | none =>
      have hnt : t → False := fun h => by
        obtain ⟨q, hq, hn, -⟩ := (ht h).2.1
        exact hr q hq hn
      refine (after_writeEntryToDir h (.inr rfl) (fun j => h.named_of_lookedUp hr _ _) fun h => (hnt h).elim).bind ?_
      rintro r d₂ ⟨j, hj, hr, hbit, hadd⟩
      rw [hr, if_neg (by omega)]
      exact (((hadd.bare hj).createFileLoop hs.set).of_imp hnt).mono fun _ _ hf => hf.elim

/-- A destination that `copy_file` accepts: a string that starts with a `/` and does not end with one. -/
structure Legal (dst : List UInt8) : Prop where
  nul : 0 ∉ dst
  head : dst[0]? = some slash
  last : dst[dst.length - 1]? ≠ some slash

/-- The path has one component. -/
def Single (dst : List UInt8) : Prop := slash ∉ dst.drop 1

instance : Decidable (Single dst) := inferInstanceAs (Decidable (_ ∉ _))

theorem Legal.length (h : Legal dst) : 1 < dst.length := by
  match dst, h with
  | [], h => exact absurd h.head (by simp)
  | [c], h => exact absurd h.head h.last
  | _ :: _ :: _, _ => simp

/-- The first component of a path, and what stands after its separator. -/
def firstName (dst : List UInt8) : List UInt8 := (dst.drop 1).takeWhile (· ≠ slash)

def restName (dst : List UInt8) : List UInt8 := dst.drop ((firstName dst).length + 2)

theorem takeWhile_drop_one (h : Legal dst) :
    ((dst ++ [0]).drop 1).takeWhile (fun c => c ≠ 0 ∧ c ≠ slash) = firstName dst := by
  have hlen := h.length
  have hnul : ∀ c ∈ dst.drop 1, c ≠ 0 := fun c hc he => h.nul (he ▸ List.mem_of_mem_drop hc)
  rw [List.drop_append_of_le_length (by omega), firstName]
  generalize dst.drop 1 = l at hnul
  induction l with
  | nil => simp
  | cons c l ih =>
    have hc := hnul c List.mem_cons_self
    have hl := ih fun x hx => hnul x (List.mem_cons_of_mem _ hx)
    rcases eq_or_ne c slash with rfl | hne
    · simp
    · simp only [List.cons_append, List.takeWhile_cons, hc, hne, ne_eq, not_false_eq_true, and_self, decide_true, if_true]
      rw [hl]

theorem skipName_eq (h : Legal dst) : skipName (dst ++ [0]) 1 = 1 + (firstName dst).length := by
  rw [skipName, takeWhile_drop_one h]

theorem firstName_single (hs : Single dst) : firstName dst = dst.drop 1 :=
  List.takeWhile_eq_self_iff.2 fun c hc => decide_eq_true fun he : c = slash => hs (he ▸ hc)

theorem skipName_single (h : Legal dst) (hs : Single dst) : skipName (dst ++ [0]) 1 = dst.length := by
  have hlen := h.length
  rw [skipName_eq h, firstName_single hs, List.length_drop]
  omega

/-- A path of several components around its first separator. -/
theorem split_many (h : Legal dst) (hs : ¬ Single dst) :
    dst = slash :: (firstName dst ++ slash :: restName dst) ∧ slash ∉ firstName dst ∧ restName dst ≠ [] := by
  have hlen := h.length
  obtain ⟨pre, post, hsplit, hpre⟩ := List.eq_append_cons_of_mem (not_not.1 hs : slash ∈ dst.drop 1)
  have hfirst : firstName dst = pre := by
    have hpre' : ∀ c ∈ pre, c ≠ slash := fun c hc he => hpre (he ▸ hc)
    rw [firstName, hsplit, List.takeWhile_append_of_pos (by simpa using hpre'), List.takeWhile_cons_of_neg (by simp),
      List.append_nil]
  have hhead : dst = slash :: dst.drop 1 := by
    match dst, h.head with
    | c :: l, hc =>
      rw [show c = slash by simpa using hc]
      rfl
  have hrest : restName dst = post := by
    rw [restName, hfirst, show pre.length + 2 = 1 + (pre.length + 1) by omega, ← List.drop_drop, hsplit]
    simp
  refine ⟨?_, by rwa [hfirst], fun hnil => h.last ?_⟩
  · rw [hfirst, hrest, ← hsplit]
    exact hhead
  · rw [hrest] at hnil
    rw [hhead, hsplit, hnil]
    simp

theorem skipName_many (h : Legal dst) (hs : ¬ Single dst) :
    skipName (dst ++ [0]) 1 + 1 < dst.length ∧ skipName (dst ++ [0]) 1 < (dst ++ [0]).length := by
  obtain ⟨hsplit, -, hne⟩ := split_many h hs
  have hlen := congrArg List.length hsplit
  have hpos := List.length_pos_iff.2 hne
  simp only [List.length_cons, List.length_append] at hlen
  rw [skipName_eq h, List.length_append]
  omega

theorem set_many (h : Legal dst) (hs : ¬ Single dst) :
    (dst ++ [0]).set (skipName (dst ++ [0]) 1) 0 = slash :: (firstName dst ++ 0 :: (restName dst ++ [0])) := by
  obtain ⟨hsplit, -⟩ := split_many h hs
  have hset : ∀ (pre post : List UInt8), (slash :: (pre ++ slash :: post) ++ [0]).set (1 + pre.length) 0 =
      slash :: (pre ++ 0 :: (post ++ [0])) := by
    intro pre post
    rw [Nat.add_comm, List.cons_append, List.set_cons_succ, List.append_assoc, List.set_append_right _ _ (Nat.le_refl _),
      Nat.sub_self]
    rfl
  have hh := hset (firstName dst) (restName dst)
  rw [← hsplit] at hh
  rw [skipName_eq h]
  exact hh

theorem takeWhile_nul {l l' : List UInt8} (h : 0 ∉ l) : (l ++ 0 :: l').takeWhile (· ≠ 0) = l := by
  have hl : ∀ c ∈ l, decide (c ≠ 0) = true := fun c hc => decide_eq_true fun he => h (he ▸ hc)
  rw [List.takeWhile_append_of_pos hl]
  simp

theorem cString_first (h : Legal dst) (hs : ¬ Single dst) :
    cString ((dst ++ [0]).set (skipName (dst ++ [0]) 1) 0) 1 = firstName dst := by
  rw [set_many h hs]
  refine takeWhile_nul fun hm => h.nul ?_
  rw [(split_many h hs).1]
  exact List.mem_cons_of_mem _ (List.mem_append_left _ hm)

theorem cString_rest (h : Legal dst) (hs : ¬ Single dst) :
    cString ((dst ++ [0]).set (skipName (dst ++ [0]) 1) 0) (skipName (dst ++ [0]) 1 + 1) = restName dst := by
  have hdrop : (slash :: (firstName dst ++ 0 :: (restName dst ++ [0]))).drop (skipName (dst ++ [0]) 1 + 1) =
      restName dst ++ 0 :: [] := by
    rw [skipName_eq h, show 1 + (firstName dst).length + 1 = (firstName dst).length + 1 + 1 by omega,
      List.drop_succ_cons, ← List.drop_drop, List.drop_left]
    rfl
  rw [set_many h hs, cString, hdrop]
  refine takeWhile_nul fun hm => h.nul ?_
  rw [(split_many h hs).1]
  exact List.mem_cons_of_mem _ (List.mem_append_right _ (List.mem_cons_of_mem _ hm))

theorem cString_single (h : Legal dst) : cString ((dst ++ [0]).set dst.length 0) 1 = dst.drop 1 := by
  have hlen := h.length
  have hset : (dst ++ [0]).set dst.length 0 = dst ++ [0] := by
    rw [List.set_append_right _ _ (Nat.le_refl _), Nat.sub_self]
    rfl
  rw [hset, cString, List.drop_append_of_le_length (by omega)]
  exact takeWhile_nul fun hm => h.nul (List.mem_of_mem_drop hm)

/-- Why the loop returns 0: the file of a single component exists, the first component is no directory, or
the rest of the path is the name of an entry. -/
def Stops (d : Disk) (dst : List UInt8) : Prop :=
  if Single dst then ∃ q ∈ d.entries, q.name = storedName (dst.drop 1)
  else NoDir d (firstName dst) ∨ IsDir d (firstName dst) ∧ NoDir d (restName dst)

/-- What `create_file_inode` comes to: the file of a path of one component, or nothing. -/
theorem after_createFileLoop (h : Inv g d 0) (hflat : Flat g d) (hdst : Legal dst)
    (ht : t → 2 ≤ fuel ∧ if Single dst then 0 < d.free .inode 0 ∧ 4 ≤ d.free .block 0 else
      ¬ IsDir d (firstName dst) ∧ NoDir d (firstName dst) ∨
      ¬ NoDir d (firstName dst) ∧ IsDir d (firstName dst) ∧ NoDir d (restName dst) ∧ ¬ IsDir d (restName dst)) :
    g.After t d (createFileLoop dst.length fuel (dst ++ [0]) 1 1 rootIno) (fun r d' =>
      r = 0 ∧ d' = d ∧ Stops d dst ∨
      Single dst ∧ LookedUp d (dst.drop 1) none ∧
        ∃ j < g.ipg, r = j + 1 ∧ d.bit .inode 0 j = false ∧ Added g (dst.drop 1) ftRegFile j d d') := by
  have hlen := hdst.length
  cases fuel with
  | zero => exact After.throw fun h => by have := (ht h).1; omega
  | succ fuel =>
    rw [createFileLoop, if_pos hlen]
    rcases Decidable.em (Single dst) with hs | hs
    · simp only [if_pos hs] at ht
      rw [Stops, if_pos hs, skipName_single hdst hs]
      simp only [ne_eq, not_true_eq_false, decide_false, Bool.false_eq_true, not_false_eq_true, if_true, if_false]
      rw [cString_single hdst]
      refine (after_getEntryFromDir h).bind ?_
      rintro r d₁ ⟨hd, hr⟩
      subst hd
      cases r with
      | some e =>
        obtain ⟨q, hq, -, hn⟩ := hr
        exact After.pure (.inl ⟨rfl, rfl, q, hq, hn⟩)
      | none =>
        refine (after_writeEntryToDir h (.inl rfl) (fun j => h.named_of_lookedUp hr _ _) fun h => (ht h).2).bind ?_
        rintro r d₂ ⟨j, hj, hj1, hbit, hadd⟩
        subst hj1
        rw [if_neg (by omega)]
        cases fuel with
        | zero => exact After.throw fun h => by have := (ht h).1; omega
        | succ fuel =>
          rw [createFileLoop, if_neg (Nat.lt_irrefl _)]
          exact After.pure (.inr ⟨hs, hr, j, hj, rfl, hbit, hadd⟩)
    · simp only [if_neg hs] at ht
      obtain ⟨hsep, hlt⟩ := skipName_many hdst hs
      have hstuck : Stuck ((dst ++ [0]).set (skipName (dst ++ [0]) 1) 0) (skipName (dst ++ [0]) 1) dst.length :=
        ⟨List.getElem?_set_self hlt, hsep⟩
      have hne : skipName (dst ++ [0]) 1 ≠ dst.length := by omega
      have hrest := cString_rest hdst hs
      simp only [ne_eq, hne, not_false_eq_true, decide_true, if_true, not_true_eq_false, if_false]
      rw [Stops, if_neg hs, cString_first hdst hs]
      refine (after_getEntryFromDir h).bind ?_
      rintro r d₁ ⟨hd, hr⟩
      subst hd
      cases r with
      | some e =>
        obtain ⟨q, hq, rfl, hn⟩ := hr
        dsimp only
        split
        · rename_i hft
          exact After.pure (.inl ⟨rfl, rfl, .inl ⟨q, hq, hn, hft⟩⟩)
        · rename_i hft
          have hdir : IsDir d₁ (firstName dst) := ⟨q, hq, hn, not_not.1 hft⟩
          rw [hflat.types q hq (not_not.1 hft)]
          refine (after_createFileLoop_stuck h hflat hstuck fun h => ?_).mono ?_
          · rw [hrest]
            rcases ht h with ⟨hf, ⟨hno, -⟩ | ⟨-, -, hyes⟩⟩
            · exact absurd hdir hno
            · exact ⟨by omega, hyes⟩
          · rintro r d' ⟨hr, hd, hnd⟩
            rw [hrest] at hnd
            exact .inl ⟨hr, hd, .inr ⟨hdir, hnd⟩⟩
      | none =>
        have hnt : t → False := fun h => by
          rcases ht h with ⟨-, ⟨-, q, hq, hn, -⟩ | ⟨-, ⟨q, hq, hn, -⟩, -⟩⟩ <;> exact hr q hq hn
        refine (after_writeEntryToDir h (.inr rfl) (fun j => h.named_of_lookedUp hr _ _) fun h => (hnt h).elim).bind ?_
        rintro r d₂ ⟨j, hj, hj1, hbit, hadd⟩
        rw [hj1, if_neg (by omega)]
        exact (((hadd.bare hj).createFileLoop hstuck).of_imp hnt).mono fun _ _ hf => hf.elim

theorem after_createFileInode (h : Inv g d 0) (hflat : Flat g d) (hdst : Legal dst)
    (ht : t → 2 ≤ fuel ∧ if Single dst then 0 < d.free .inode 0 ∧ 4 ≤ d.free .block 0 else
      ¬ IsDir d (firstName dst) ∧ NoDir d (firstName dst) ∨
      ¬ NoDir d (firstName dst) ∧ IsDir d (firstName dst) ∧ NoDir d (restName dst) ∧ ¬ IsDir d (restName dst)) :
    g.After t d (createFileInode fuel dst) (fun r d' =>
      r.1 = 0 ∧ d' = d ∧ Stops d dst ∨
      Single dst ∧ LookedUp d (dst.drop 1) none ∧
        ∃ j < g.ipg, r = (j + 1, d'.inode (j + 1)) ∧ d.bit .inode 0 j = false ∧
          Added g (dst.drop 1) ftRegFile j d d') := by
  refine (after_createFileLoop h hflat hdst ht).bind fun r d₁ hr => ?_
  rcases hr with ⟨rfl, rfl, hstop⟩ | ⟨hs, hl, j, hj, rfl, hbit, hadd⟩
  · rw [if_pos rfl]
    exact After.pure (.inl ⟨rfl, rfl, hstop⟩)
  · have hle : j + 1 ≤ g.inodes := (show j + 1 ≤ g.ipg from hj).trans (Nat.le_mul_of_pos_right _ g.groups_pos)
    rw [if_neg (by omega)]
    refine (after_getInode hadd.inv.counts.ipg_eq (by omega) hle).bind ?_
    rintro inode d₂ ⟨hi, hd⟩
    refine After.pure (.inr ?_)
    subst hi hd
    exact ⟨hs, hl, j, hj, rfl, hbit, hadd⟩

end Airix.Mkfs
