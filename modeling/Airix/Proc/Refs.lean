import Airix.Proc.Model

/-!
# Which frame stands where

A `Slot` is a place that refers to a page frame: the `page_dir` of a process, an entry of its directory or an
entry of one of its tables. `ref` reads it off the memory.
-/

namespace Airix.Proc

inductive Slot
  | dir (proc : Nat)
  | table (proc pde : Nat)
  | page (proc pde pte : Nat)
deriving DecidableEq, Repr

def Slot.proc : Slot → Nat
  | .dir o | .table o _ | .page o _ _ => o

/-- The slot whose frame holds this one. -/
def Slot.parent : Slot → Option Slot
  | .dir _ => none
  | .table o _ => some (.dir o)
  | .page o pde _ => some (.table o pde)

/-- The slot is the directory, or behind an entry of it below `n`. -/
def Slot.Below (n : Nat) : Slot → Prop
  | .dir _ => True
  | .table _ pde | .page _ pde _ => pde < n

/-- The frame that an entry refers to. -/
def frameAt (entry : Nat) : Option Nat := if entryAddress entry = 0 then none else some (entry / pageSize)

def dirFrame (s : State) (o : Nat) : Option Nat :=
  (s.procs o).bind fun p => if p.pageDir = 0 then none else some (Slab.frame p.pageDir)

def tableFrame (s : State) (o pde : Nat) : Option Nat := (dirFrame s o).bind fun d => frameAt (s.mem d pde)

def pageFrame (s : State) (o pde pte : Nat) : Option Nat := (tableFrame s o pde).bind fun t => frameAt (s.mem t pte)

def ref (s : State) : Slot → Option Nat
  | .dir o => dirFrame s o
  | .table o pde => tableFrame s o pde
  | .page o pde pte => pageFrame s o pde pte

/-- The slots that count: with a slot, those on the way to it. -/
structure Scope where
  slots : Set Slot
  dir_mem : ∀ {o pde}, .table o pde ∈ slots → .dir o ∈ slots
  table_mem : ∀ {o pde pte}, .page o pde pte ∈ slots → .table o pde ∈ slots

/-- Everything below `KERNEL_BASE`. -/
def Scope.user : Scope where
  slots := {a | a.Below userPdes}
  dir_mem _ := trivial
  table_mem h := h

/-- Also what process `o`, which is under construction, has above `KERNEL_BASE`. -/
def Scope.building (o : Nat) : Scope where
  slots := {a | a.Below (if a.proc = o then numPde else userPdes)}
  dir_mem _ := trivial
  table_mem h := h

/-- Not what process `o` has. -/
def Scope.without (o : Nat) : Scope where
  slots := {a | a.Below userPdes ∧ a.proc ≠ o}
  dir_mem h := ⟨trivial, h.2⟩
  table_mem h := h

theorem Scope.user_subset_building (o : Nat) : Scope.user.slots ⊆ (Scope.building o).slots := by
  intro a ha
  show a.Below (if a.proc = o then numPde else userPdes)
  cases a with
  | dir => trivial
  | table p pde =>
    have h : pde < userPdes := ha
    simp only [Slot.Below]
    split_ifs
    · exact h.trans (by decide)
    · exact h
  | page p pde pte =>
    have h : pde < userPdes := ha
    simp only [Slot.Below]
    split_ifs
    · exact h.trans (by decide)
    · exact h

/-! ### Entries -/

@[simp] theorem frameAt_writable : frameAt vmmWritable = none := rfl

@[simp] theorem frameAt_unmapped (flag : Nat) : frameAt (unmappedEntry flag) = none := by
  unfold frameAt entryAddress unmappedEntry entryFlag pageSize
  rw [if_pos (by omega)]

/-- An entry for a page with flags. -/
theorem frameAt_entry {f flag : Nat} (hf : f ≠ 0) (hflag : flag < pageSize) :
    frameAt (f * pageSize ||| flag ||| vmmPresent) = some f := by
  have hlt : flag ||| vmmPresent < 2 ^ 12 := Nat.or_lt_two_pow hflag (by decide)
  have he : f * pageSize ||| flag ||| vmmPresent = 2 ^ 12 * f + (flag ||| vmmPresent) := by
    rw [Nat.or_assoc, Nat.two_pow_add_eq_or_of_lt hlt, Nat.mul_comm]
    rfl
  rw [he]
  unfold frameAt entryAddress pageSize
  have hdiv : (2 ^ 12 * f + (flag ||| vmmPresent)) / 4096 = f := by omega
  rw [hdiv, if_neg (by omega)]

theorem frameAt_eq_none {w : Nat} : frameAt w = none ↔ entryAddress w = 0 := by
  unfold frameAt
  split_ifs with h <;> simp [h]

theorem frameAt_eq_some {w f : Nat} : frameAt w = some f ↔ f ≠ 0 ∧ entryAddress w = f * pageSize := by
  unfold frameAt entryAddress pageSize
  split_ifs with h
  · simp only [false_iff]; omega
  · simp only [Option.some.injEq]; omega

/-! ### Writing to memory -/

section
variable {S : Scope} {s s' : State} {g : Nat} {w : Nat → Nat} {o pde pte : Nat} {a : Slot}

@[simp] theorem ref_dir : ref s (.dir o) = dirFrame s o := rfl
@[simp] theorem ref_table : ref s (.table o pde) = tableFrame s o pde := rfl
@[simp] theorem ref_page : ref s (.page o pde pte) = pageFrame s o pde pte := rfl

theorem dirFrame_congr (hp : s'.procs = s.procs) : dirFrame s' o = dirFrame s o := by
  rw [dirFrame, dirFrame, hp]

theorem ref_congr (hp : s'.procs = s.procs) (hm : s'.mem = s.mem) : ref s' = ref s := by
  funext a
  cases a <;> simp [pageFrame, tableFrame, dirFrame, hp, hm]

/-- A table is where it was unless the entry for it was written. -/
theorem tableFrame_setMem (hp : s'.procs = s.procs) (hm : s'.mem = Function.update s.mem g w)
    (hdir : dirFrame s o = some g → w pde = s.mem g pde) : tableFrame s' o pde = tableFrame s o pde := by
  rw [tableFrame, tableFrame, dirFrame_congr hp, hm]
  refine Option.bind_congr fun d hd => ?_
  by_cases e : d = g
  · subst e
    rw [Function.update_self, hdir hd]
  · rw [Function.update_of_ne e]

theorem pageFrame_setMem (hp : s'.procs = s.procs) (hm : s'.mem = Function.update s.mem g w)
    (hdir : dirFrame s o = some g → w pde = s.mem g pde)
    (htable : tableFrame s o pde = some g → w pte = s.mem g pte) : pageFrame s' o pde pte = pageFrame s o pde pte := by
  rw [pageFrame, pageFrame, tableFrame_setMem hp hm hdir, hm]
  refine Option.bind_congr fun t ht => ?_
  by_cases e : t = g
  · subst e
    rw [Function.update_self, htable ht]
  · rw [Function.update_of_ne e]

/-- Contents that no walk goes through. -/
theorem ref_setMem (hp : s'.procs = s.procs) (hm : s'.mem = Function.update s.mem g w)
    (hdir : ∀ o, .dir o ∈ S.slots → dirFrame s o ≠ some g)
    (htable : ∀ o pde, .table o pde ∈ S.slots → tableFrame s o pde ≠ some g) (ha : a ∈ S.slots) :
    ref s' a = ref s a := by
  cases a with
  | dir o => exact dirFrame_congr hp
  | table o pde => exact tableFrame_setMem hp hm fun h => absurd h (hdir o (S.dir_mem ha))
  | page o pde pte =>
    exact pageFrame_setMem hp hm (fun h => absurd h (hdir o (S.dir_mem (S.table_mem ha))))
      fun h => absurd h (htable o pde (S.table_mem ha))

/-- No two slots refer to the same frame. -/
def Inj (S : Scope) (s : State) : Prop := ∀ a ∈ S.slots, ∀ b ∈ S.slots, ∀ f, ref s a = some f → ref s b = some f → a = b

/-- An entry of a table that has one owner is written. -/
theorem ref_setPage (hinj : Inj S s) (hp : s'.procs = s.procs) {x : Nat}
    (hm : s'.mem = Function.update s.mem g (Function.update (s.mem g) pte x))
    (ht : .table o pde ∈ S.slots) (hg : tableFrame s o pde = some g) (ha : a ∈ S.slots) :
    ref s' a = if a = .page o pde pte then frameAt x else ref s a := by
  have hdir : ∀ o', .dir o' ∈ S.slots → dirFrame s o' ≠ some g := by
    intro o' ho' h
    cases hinj _ ho' _ ht g h hg
  cases a with
  | dir o' => simp [dirFrame_congr hp]
  | table o' pde' => simp [tableFrame_setMem hp hm fun h => absurd h (hdir o' (S.dir_mem ha))]
  | page o' pde' pte' =>
    have hdir' : ∀ o' pde', .table o' pde' ∈ S.slots → tableFrame s' o' pde' = tableFrame s o' pde' :=
      fun o' pde' h => tableFrame_setMem hp hm fun h' => absurd h' (hdir o' (S.dir_mem h))
    by_cases e : Slot.page o' pde' pte' = .page o pde pte
    · obtain ⟨rfl, rfl, rfl⟩ := Slot.page.inj e
      rw [if_pos rfl, ref_page, pageFrame, hdir' _ _ ht, hg, Option.bind_some, hm, Function.update_self,
        Function.update_self]
    · rw [if_neg e]
      refine pageFrame_setMem hp hm (fun h => absurd h (hdir o' (S.dir_mem (S.table_mem ha)))) fun h => ?_
      obtain ⟨rfl, rfl⟩ := Slot.table.inj (hinj _ (S.table_mem ha) _ ht g h hg)
      exact Function.update_of_ne (by rintro rfl; exact e rfl) _ _

/-- An entry of a directory that has one owner is written: for no table, or for a table without pages. -/
theorem ref_setTable (hinj : Inj S s) (hp : s'.procs = s.procs) {x : Nat}
    (hm : s'.mem = Function.update s.mem g (Function.update (s.mem g) pde x))
    (hd : .dir o ∈ S.slots) (hg : dirFrame s o = some g)
    (hx : ∀ t, frameAt x = some t → t ≠ g ∧ ∀ i, frameAt (s.mem t i) = none) (ha : a ∈ S.slots) :
    ref s' a = if a = .table o pde then frameAt x else if a.parent = some (.table o pde) then none else ref s a := by
  have htab : tableFrame s' o pde = frameAt x := by
    rw [tableFrame, dirFrame_congr hp, hg, Option.bind_some, hm, Function.update_self, Function.update_self]
  have hother : ∀ o' pde', .dir o' ∈ S.slots → Slot.table o' pde' ≠ .table o pde → dirFrame s o' = some g →
      Function.update (s.mem g) pde x pde' = s.mem g pde' := by
    intro o' pde' ho' hne h
    obtain rfl := Slot.dir.inj (hinj _ ho' _ hd g h hg)
    exact Function.update_of_ne (by rintro rfl; exact hne rfl) _ _
  cases a with
  | dir o' => simp [dirFrame_congr hp, Slot.parent]
  | table o' pde' =>
    by_cases e : Slot.table o' pde' = .table o pde
    · obtain ⟨rfl, rfl⟩ := Slot.table.inj e
      rw [if_pos rfl, ref_table, htab]
    · rw [if_neg e, if_neg (by simp [Slot.parent])]
      exact tableFrame_setMem hp hm (hother o' pde' (S.dir_mem ha) e)
  | page o' pde' pte' =>
    rw [if_neg (by simp)]
    by_cases e : Slot.table o' pde' = .table o pde
    · obtain ⟨rfl, rfl⟩ := Slot.table.inj e
      rw [Slot.parent, if_pos rfl, ref_page, pageFrame, htab, hm]
      cases hx' : frameAt x with
      | none => rfl
      | some t =>
        obtain ⟨hne, hnone⟩ := hx t hx'
        rw [Option.bind_some, Function.update_of_ne hne, hnone]
    · rw [if_neg (by simpa [Slot.parent] using e)]
      refine pageFrame_setMem hp hm (hother o' pde' (S.dir_mem (S.table_mem ha)) e) fun h => ?_
      cases hinj _ (S.table_mem ha) _ hd g h hg

end
end Airix.Proc
