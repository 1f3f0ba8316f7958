import Airix.Bio.Locking

/-!
# Which sector a bio stands for

A waiter in `bio_get` remembers a bio, not its key, and a process in `alloc_bio` remembers its key without
holding a place in the cache. The results below say when this does no harm.
-/

namespace Airix.Bio

section
variable {n : Nat} {s : State} {ret : List Nat} {e : Event} {out : State × Option Nat}

/-- What the `bio_get` that goes on in the event was called with. -/
def request (s : State) : Event → Option (UInt8 × UInt64)
  | .get _ dev sector _ => some (dev, sector)
  | .resume p _ => match (s.procs p).pc with
    | .allocBio dev sector => some (dev, sector)
    | .getBio dev sector _ => some (dev, sector)
    | _ => none
  | _ => none

/-- The bio that the event takes from `find_unused_bio`, with the key it gets. -/
def recycled (s : State) : Event → Option (Nat × UInt8 × UInt64)
  | .get _ dev sector mem =>
    if findBio s dev (baseSector sector) = none ∧ (maxCacheCount ≤ s.count ∨ mem = none) then
      (findUnusedBio s).map fun b => (b, dev, baseSector sector)
    else none
  | .resume p mem => match (s.procs p).pc with
    | .allocBio dev sector =>
      if maxCacheCount ≤ s.count ∨ mem = none then (findUnusedBio s).map fun b => (b, dev, baseSector sector)
      else none
    | _ => none
  | _ => none

/-- No bio is given a new key while a process is in the loop of `bio_get` on it for another key. -/
def KeepsWaited (s : State) (e : Event) : Prop :=
  ∀ b dev base, recycled s e = some (b, dev, base) → ∀ q dev' sector', (s.procs q).pc = .getBio dev' sector' b →
    (dev', baseSector sector') = (dev, base)

/-- A process that waits for a bio waits for its key. -/
def Waited (a : Abs) : Prop := ∀ p dev sector b, a.pc p = .getBio dev sector b → a.key b = (dev, baseSector sector)

namespace Waited
variable {a : Abs} {p b : Nat} {dev : UInt8} {sector : UInt64}

theorem take (h : Waited a) : Waited (a.take p b) := by
  intro q dev sector c hq
  by_cases e : q = p
  · subst e; simp [Abs.take] at hq
  · exact h q dev sector c (by simpa [Abs.take, e] using hq)

theorem rekey (h : Waited a) {k : UInt8 × UInt64}
    (hk : ∀ q dev sector, a.pc q = .getBio dev sector b → (dev, baseSector sector) = k) : Waited (a.rekey b k) := by
  intro q dev sector c hq
  by_cases e : c = b
  · subst e
    simpa [Abs.rekey] using (hk q dev sector hq).symm
  · simpa [Abs.rekey, e] using h q dev sector c hq

theorem append (h : Waited a) {m : Node} {pc : Pc}
    (hk : ∀ dev sector c, pc = .getBio dev sector c → a.key c = (dev, baseSector sector)) :
    Waited (a.append m p pc) := by
  intro q dev sector c hq
  by_cases e : q = p
  · subst e; exact hk dev sector c (by simpa [Abs.append] using hq)
  · exact h q dev sector c (by simpa [Abs.append, e] using hq)

theorem get (h : Waited a) {out : Abs × Option Nat} (hk : a.key b = (dev, baseSector sector))
    (hg : AGet a p dev sector b out) : Waited out.1 := by
  cases hg with
  | take => exact h.take
  | sleep =>
    refine h.append fun dev' sector' c hc => ?_
    obtain ⟨rfl, rfl, rfl⟩ := Pc.getBio.inj hc
    exact hk

theorem alloc (h : Waited a) (ha : AInv n a) {mem : Option Nat} {out : Abs × Option Nat}
    (hk : ∀ c, NoSlab a.list.length mem → a.list.reverse.find? (fun b => !a.reffed b) = some c →
      ∀ q dev' sector', a.pc q = .getBio dev' sector' c → (dev', baseSector sector') = (dev, baseSector sector))
    (hg : AAlloc a p dev sector mem out) : Waited out.1 := by
  cases hg with
  | fresh =>
    refine (h.rekey fun q dev' sector' hq => ?_).take
    exact absurd ((ha.list_mem _).mp (ha.get_mem q dev' sector' _ hq)) (lt_irrefl _)
  | @recycle c hslab hc => exact (h.rekey (hk c hslab hc)).take
  | sleep => exact h.append fun dev' sector' c hc => Pc.noConfusion hc

theorem step {e : Event} {out : Abs × Option Nat} (hsim : Sim s a) (ha : AInv n a) (h : Waited a)
    (hP : KeepsWaited s e) (hs : AStep n a e out) : Waited out.1 := by
  cases hs with
  | hit _ _ _ _ hk hg => exact h.get hk hg
  | @miss p dev sector mem _ _ _ _ hmiss hg =>
    refine h.alloc ha (fun c hslab hc q dev' sector' hq => ?_) hg
    have hnone : findBio s dev (baseSector sector) = none := by
      rw [hsim.findBio, List.find?_eq_none]; simpa using hmiss
    refine hP c dev (baseSector sector) ?_ q dev' sector' (by rw [hsim.pc]; exact hq)
    rw [recycled, if_pos ⟨hnone, by rw [hsim.count]; exact hslab⟩, hsim.findUnusedBio, hc]
    rfl
  | @retryAlloc p dev sector mem _ _ _ hpc hg =>
    refine h.alloc ha (fun c hslab hc q dev' sector' hq => ?_) hg
    refine hP c dev (baseSector sector) ?_ q dev' sector' (by rw [hsim.pc]; exact hq)
    rw [← hsim.pc] at hpc
    rw [recycled, hpc]
    dsimp only
    rw [if_pos (by rw [hsim.count]; exact hslab), hsim.findUnusedBio, hc]
    rfl
  | @retryGet p b dev sector _ _ _ _ hpc hg => exact h.get (h p dev sector b hpc) hg
  | readDone =>
    intro q dev sector c hq
    rename_i p _ _ _ _ _
    by_cases e : q = p
    · subst e; simp [Abs.done] at hq
    · exact h q dev sector c (by simpa [Abs.done, e] using hq)
  | readHit => exact h
  | @readMiss p b =>
    intro q dev sector c hq
    by_cases e : q = p
    · subst e; simp [Abs.push] at hq
    · exact h q dev sector c (by simpa [Abs.push, e] using hq)
  | release => exact h
  | complete => exact h

end Waited
/-! ### What `bio_get` returns -/

theorem Waited.returned {a a' : Abs} {b : Nat} {dev : UInt8} {sector : UInt64} (hsim : Sim s a) (h : Waited a)
    (hs : AStep n a e (a', some b)) (hreq : request s e = some (dev, sector)) :
    a'.key b = (dev, baseSector sector) := by
  have hget : ∀ {p dev sector c}, a.key c = (dev, baseSector sector) → AGet a p dev sector c (a', some b) →
      a'.key b = (dev, baseSector sector) := by
    intro p dev sector c hk hg
    cases hg with
    | take => exact hk
  have halloc : ∀ {p dev sector mem}, AAlloc a p dev sector mem (a', some b) →
      a'.key b = (dev, baseSector sector) := by
    intro p dev sector mem hg
    cases hg with
    | fresh => simp [Abs.take, Abs.rekey]
    | recycle => simp [Abs.take, Abs.rekey]
  cases hs with
  | hit _ _ _ _ hk hg =>
    obtain ⟨rfl, rfl⟩ := Prod.mk.inj (Option.some.inj hreq)
    exact hget hk hg
  | miss _ _ _ _ hg =>
    obtain ⟨rfl, rfl⟩ := Prod.mk.inj (Option.some.inj hreq)
    exact halloc hg
  | retryAlloc _ _ hpc hg =>
    rw [request, hsim.pc, hpc] at hreq
    obtain ⟨rfl, rfl⟩ := Prod.mk.inj (Option.some.inj hreq)
    exact halloc hg
  | @retryGet p c dev' sector' _ _ _ _ hpc hg =>
    rw [request, hsim.pc, hpc] at hreq
    obtain ⟨rfl, rfl⟩ := Prod.mk.inj (Option.some.inj hreq)
    exact hget (h p _ _ c hpc) hg

theorem takeBio_iter (s : State) (p b : Nat) (sector : UInt64) :
    ((takeBio s p b sector).bios b).iter = (sector - ((takeBio s p b sector).bios b).sector).toUInt8 := by
  simp [takeBio, State.setBio, State.setProc]

theorem bioGetRound_iter {p b c : Nat} {dev : UInt8} {sector : UInt64}
    (h : (bioGetRound s p dev sector c).2 = some b) :
    ((bioGetRound s p dev sector c).1.bios b).iter =
      (sector - ((bioGetRound s p dev sector c).1.bios b).sector).toUInt8 := by
  unfold bioGetRound at h ⊢
  split_ifs at h ⊢
  obtain rfl := Option.some.inj h
  exact takeBio_iter s p c sector

theorem allocBioRound_iter {p b : Nat} {dev : UInt8} {sector : UInt64} {mem : Option Nat}
    (h : (allocBioRound s p dev sector mem).2 = some b) :
    ((allocBioRound s p dev sector mem).1.bios b).iter =
      (sector - ((allocBioRound s p dev sector mem).1.bios b).sector).toUInt8 := by
  unfold allocBioRound at h ⊢
  split
  · rename_i hslab
    rw [hslab] at h
    exact bioGetRound_iter h
  · rename_i hslab
    rw [hslab] at h
    dsimp only at h
    split
    · rename_i hu
      rw [hu] at h
      exact bioGetRound_iter h
    · rename_i hu
      rw [hu] at h
      cases h

theorem Step.iter {s' : State} {b : Nat} {dev : UInt8} {sector : UInt64} (hs : Step s e (s', some b))
    (hreq : request s e = some (dev, sector)) :
    (s'.bios b).iter = (sector - (s'.bios b).sector).toUInt8 := by
  generalize hout : (s', some b) = out at hs
  have h₁ : out.1 = s' := by rw [← hout]
  have h₂ : out.2 = some b := by rw [← hout]
  rw [← h₁]
  cases hs with
  | get =>
    obtain ⟨rfl, rfl⟩ := Prod.mk.inj (Option.some.inj hreq)
    unfold bioGet at h₂ ⊢
    split
    · rename_i hf
      rw [hf] at h₂
      exact bioGetRound_iter h₂
    · rename_i hf
      rw [hf] at h₂
      exact allocBioRound_iter h₂
  | resumeAlloc _ _ hpc =>
    rw [request, hpc] at hreq
    obtain ⟨rfl, rfl⟩ := Prod.mk.inj (Option.some.inj hreq)
    exact allocBioRound_iter h₂
  | resumeGet _ _ hpc =>
    rw [request, hpc] at hreq
    obtain ⟨rfl, rfl⟩ := Prod.mk.inj (Option.some.inj hreq)
    exact bioGetRound_iter h₂
  | resumeRead => cases h₂
  | read => cases h₂
  | release => cases h₂
  | complete => cases h₂

theorem baseSector_toNat (sector : UInt64) : (baseSector sector).toNat = sector.toNat / 8 * 8 := by
  have h := sector.toNat_lt
  rw [baseSector, UInt64.toNat_mul, UInt64.toNat_div, show sectorsPerBio.toNat = 8 from rfl]
  omega

theorem sub_baseSector (sector : UInt64) : (sector - baseSector sector).toNat = sector.toNat % 8 := by
  have h := baseSector_toNat sector
  rw [UInt64.toNat_sub_of_le _ _ (by rw [UInt64.le_iff_toNat_le]; omega), h]
  omega

/-- What the caller of `bio_get(dev, sector)` may expect of the bio. -/
structure ReturnsSector (s : State) (b : Nat) (dev : UInt8) (sector : UInt64) : Prop where
  dev_eq : (s.bios b).dev = dev
  sector_eq : (s.bios b).sector = baseSector sector
  iter_eq : (s.bios b).iter.toNat = (sector - baseSector sector).toNat
  iter_lt : (s.bios b).iter.toNat < 8
  data : bioData s b = some ((s.bios b).buffer + (sector - baseSector sector).toNat * sectorSize)

/-- In a run that recycles no bio under the hands of a waiter for another key, `bio_get` returns the sector
it was asked for. -/
theorem bioGet_returns_sector {s' : State} {b : Nat} {dev : UInt8} {sector : UInt64}
    (hr : Run KeepsWaited n s ret) (hs : Step s e (s', some b))
    (hreq : request s e = some (dev, sector)) : ReturnsSector s' b dev sector := by
  obtain ⟨rfl, a, ha, hsim, hw, -⟩ := hr.abs Waited (fun _ _ _ _ h => Pc.noConfusion h) Waited.step
  obtain ⟨a', hs', hsim'⟩ := hsim.step ha hs
  have hkey := hw.returned hsim hs' hreq
  rw [← hsim'.key] at hkey
  obtain ⟨hdev, hsector⟩ := Prod.mk.inj hkey
  have hiter := hs.iter hreq
  dsimp only at hdev hsector
  rw [hsector] at hiter
  have hmod := sub_baseSector sector
  have hnat : (s'.bios b).iter.toNat = (sector - baseSector sector).toNat := by
    rw [hiter, UInt64.toNat_toUInt8, hmod]
    omega
  have hlt : (s'.bios b).iter < 8 := by rw [UInt8.lt_iff_toNat_lt, hnat, hmod]; exact Nat.mod_lt _ (by decide)
  refine ⟨hdev, hsector, hnat, by rw [hnat, hmod]; exact Nat.mod_lt _ (by decide), ?_⟩
  rw [bioData, if_pos hlt, hnat]

theorem KeepsWaited.of_none (h : recycled s e = none) : KeepsWaited s e := by
  intro b dev base hb
  rw [h] at hb
  cases hb

/-- The waiter of a bio that is released gets it. -/
theorem bioGet_returns_sector_waiter : ∃ s', Step (bioRelease (bioGet (bioGet (bioInitialize 2) 0 0 0
      (some 0x1000)).1 1 0 3 none).1 0 0) (.resume 1 none) (s', some 0) ∧ ReturnsSector s' 0 0 3 := by
  have h₁ := (Run.init (P := KeepsWaited) (n := 2)).step (e := .get 0 0 0 (some 0x1000))
    (.of_none (by decide)) (exec_step rfl)
  have h₂ := h₁.step (e := .get 1 0 3 none) (.of_none (by decide)) (exec_step rfl)
  have h₃ := h₂.step (e := .release 0 0) (.of_none (by decide)) (exec_step rfl)
  refine ⟨_, exec_step rfl, bioGet_returns_sector h₃ (e := .resume 1 none) (exec_step rfl) (by decide)⟩

/-- Process 1 waits for sector 0; the bio is released, recycled for sector 8 and released again, and only
then does process 1 run. -/
theorem bioGet_returns_other_sector : ∃ s s' ret, Run (fun _ _ => True) 3 s ret ∧
    Step s (.resume 1 none) (s', some 0) ∧ request s (.resume 1 none) = some (0, 0) ∧
    (s'.bios 0).sector = 8 ∧ bioData s' 0 = none ∧ ¬ ReturnsSector s' 0 0 0 := by
  have h₁ := (Run.init (P := fun _ _ => True) (n := 3)).step (e := .get 0 0 0 (some 0x1000)) trivial
    (exec_step rfl)
  have h₂ := h₁.step (e := .get 1 0 0 none) trivial (exec_step rfl)
  have h₃ := h₂.step (e := .release 0 0) trivial (exec_step rfl)
  have h₄ := h₃.step (e := .get 2 0 8 none) trivial (exec_step rfl)
  have h₅ := h₄.step (e := .release 2 0) trivial (exec_step rfl)
  refine ⟨_, _, _, h₅, exec_step rfl, by decide, by decide, by decide, fun h => ?_⟩
  exact absurd h.sector_eq (by decide)

/-! ### One copy of each sector -/

/-- A process that has slept in `alloc_bio` takes a bio only if its key is still absent from the cache, or
if it takes the very bio that has the key. -/
def KeyAbsent (s : State) : Event → Prop
  | .resume p mem => ∀ dev sector, (s.procs p).pc = .allocBio dev sector →
    findBio s dev (baseSector sector) = none ∨ ((maxCacheCount ≤ s.count ∨ mem = none) ∧
      (findUnusedBio s = none ∨ findUnusedBio s = findBio s dev (baseSector sector)))
  | _ => True

def UniqueKeys (a : Abs) : Prop := ∀ b ∈ a.list, ∀ c ∈ a.list, a.key b = a.key c → b = c

namespace UniqueKeys
variable {a : Abs} {p b : Nat}

theorem take (h : UniqueKeys a) (hb : b ∈ a.list) : UniqueKeys (a.take p b) := by
  have hmem : ∀ c, c ∈ (a.take p b).list → c ∈ a.list := by
    intro c hc
    rcases Abs.mem_take_list.mp hc with rfl | hc
    · exact hb
    · exact hc
  exact fun c hc d hd hk => h c (hmem c hc) d (hmem d hd) hk

theorem rekey_take (h : UniqueKeys a) {k : UInt8 × UInt64} (hk : ∀ c ∈ a.list, a.key c = k → c = b) :
    UniqueKeys ((a.rekey b k).take p b) := by
  intro c hc d hd he
  have hkey : ∀ x, ((a.rekey b k).take p b).key x = if x = b then k else a.key x := by
    intro x
    by_cases e : x = b
    · simp [Abs.take, Abs.rekey, e]
    · simp [Abs.take, Abs.rekey, e]
  rw [hkey, hkey] at he
  have hmem : ∀ x, x ≠ b → x ∈ ((a.rekey b k).take p b).list → x ∈ a.list := fun x hx hm =>
    (Abs.mem_take_list.mp hm).resolve_left hx
  by_cases ec : c = b <;> by_cases ed : d = b
  · rw [ec, ed]
  · rw [if_pos ec, if_neg ed] at he
    exact absurd (hk d (hmem d ed hd) he.symm) ed
  · rw [if_neg ec, if_pos ed] at he
    exact absurd (hk c (hmem c ec hc) he) ec
  · rw [if_neg ec, if_neg ed] at he
    exact h c (hmem c ec hc) d (hmem d ed hd) he

theorem get (h : UniqueKeys a) {dev : UInt8} {sector : UInt64} {out : Abs × Option Nat} (hb : b ∈ a.list)
    (hg : AGet a p dev sector b out) : UniqueKeys out.1 := by
  cases hg with
  | take => exact h.take hb
  | sleep => exact h

theorem step {e : Event} {out : Abs × Option Nat} (hsim : Sim s a) (ha : AInv n a) (h : UniqueKeys a)
    (hP : KeyAbsent s e) (hs : AStep n a e out) : UniqueKeys out.1 := by
  cases hs with
  | hit _ _ _ hb _ hg => exact h.get hb hg
  | miss _ _ _ hmiss hg =>
    cases hg with
    | fresh => exact h.rekey_take fun c hc hk => absurd hk (hmiss c hc)
    | recycle => exact h.rekey_take fun c hc hk => absurd hk (hmiss c hc)
    | sleep => exact h
  | @retryAlloc p dev sector mem _ _ _ hpc hg =>
    have hcond := hP dev sector (by rw [hsim.pc]; exact hpc)
    rw [hsim.findBio, hsim.findUnusedBio, hsim.count] at hcond
    have hmiss : a.list.find? (fun b => decide (a.key b = (dev, baseSector sector))) = none →
        ∀ c ∈ a.list, a.key c ≠ (dev, baseSector sector) := by
      intro hnone; simpa using List.find?_eq_none.mp hnone
    cases hg with
    | fresh hslab =>
      rcases hcond with hnone | ⟨hno, -⟩
      · exact h.rekey_take fun c hc hk => absurd hk (hmiss hnone c hc)
      · exact absurd hno hslab
    | @recycle c hslab hc =>
      rw [hc] at hcond
      rcases hcond with hnone | ⟨-, hcond⟩
      · exact h.rekey_take fun d hd hk => absurd hk (hmiss hnone d hd)
      · have hfind := hcond.resolve_left (by simp)
        have hcm : c ∈ a.list := List.mem_reverse.mp (List.mem_of_find?_eq_some hc)
        have hck : a.key c = (dev, baseSector sector) := by simpa using List.find?_some hfind.symm
        exact h.rekey_take fun d hd hk => h d hd c hcm (hk.trans hck.symm)
    | sleep => exact h
  | retryGet _ _ hpc hg => exact h.get (ha.get_mem _ _ _ _ hpc) hg
  | readDone => exact h
  | readHit => exact h
  | readMiss => exact h
  | release => exact h
  | complete => exact h

end UniqueKeys

/-- No two bios of the cache list have the same key. -/
def CachedOnce (s : State) : Prop := ∀ list : List Nat, s.links.IsRing .head (list.map .bio) →
  ∀ b ∈ list, ∀ c ∈ list, (s.bios b).dev = (s.bios c).dev → (s.bios b).sector = (s.bios c).sector → b = c

/-- In a run in which no process that has slept in `alloc_bio` misses that its key has entered the cache
meanwhile, every sector has one copy at most. -/
theorem cached_once (hr : Run KeyAbsent n s ret) : CachedOnce s := by
  obtain ⟨-, a, -, hsim, hu, -⟩ := hr.abs UniqueKeys (by simp [UniqueKeys, Abs.init]) UniqueKeys.step
  intro list hring b hb c hc hdev hsector
  have hlist : list = a.list :=
    List.map_injective_iff.mpr (fun _ _ he => Node.bio.inj he) (hring.unique hsim.ring)
  rw [hlist] at hb hc
  exact hu b hb c hc (by rw [← hsim.key, ← hsim.key, hdev, hsector])

/-- Two processes, two sectors. -/
theorem cached_once_two : ∃ s : State, s.count = 2 ∧ CachedOnce s := by
  have h₁ := (Run.init (P := KeyAbsent) (n := 2)).step (e := .get 0 0 0 (some 0x1000)) trivial (exec_step rfl)
  have h₂ := h₁.step (e := .get 1 0 8 (some 0x2000)) trivial (exec_step rfl)
  exact ⟨_, by decide, cached_once h₂⟩

theorem not_cachedOnce (hring : s.links.IsRing .head ([1, 0].map .bio)) (hdev : (s.bios 0).dev = (s.bios 1).dev)
    (h₀ : (s.bios 0).sector = 8) (h₁ : (s.bios 1).sector = 8) :
    s.links.IsRing .head ([1, 0].map .bio) ∧ (s.bios 0).dev = (s.bios 1).dev ∧ (s.bios 0).sector = 8 ∧
      (s.bios 1).sector = 8 ∧ ¬ CachedOnce s :=
  ⟨hring, hdev, h₀, h₁, fun h => absurd (h [1, 0] hring 0 (by simp) 1 (by simp) hdev (h₀.trans h₁.symm)) (by decide)⟩

/-- Processes 2 and 3 sleep in `alloc_bio` for sector 8, are both woken, and both recycle a bio. -/
theorem cached_twice : ∃ s ret, Run (fun _ _ => True) 4 s ret ∧
    s.links.IsRing .head ([1, 0].map .bio) ∧ (s.bios 0).dev = (s.bios 1).dev ∧
    (s.bios 0).sector = 8 ∧ (s.bios 1).sector = 8 ∧ ¬ CachedOnce s := by
  have h₁ := (Run.init (P := fun _ _ => True) (n := 4)).step (e := .get 0 0 0 (some 0x1000)) trivial
    (exec_step rfl)
  have h₂ := h₁.step (e := .get 1 0 16 (some 0x2000)) trivial (exec_step rfl)
  have h₃ := h₂.step (e := .get 2 0 8 none) trivial (exec_step rfl)
  have h₄ := h₃.step (e := .get 3 0 8 none) trivial (exec_step rfl)
  have h₅ := h₄.step (e := .release 0 0) trivial (exec_step rfl)
  have h₆ := h₅.step (e := .release 1 1) trivial (exec_step rfl)
  have h₇ := h₆.step (e := .resume 2 none) trivial (exec_step rfl)
  have h₈ := h₇.step (e := .resume 3 none) trivial (exec_step rfl)
  refine ⟨_, _, h₈, not_cachedOnce ⟨by decide, ?_⟩ (by decide) (by decide) (by decide)⟩
  exact .cons_cons ⟨by decide, by decide⟩ (.cons_cons ⟨by decide, by decide⟩
    (.cons_cons ⟨by decide, by decide⟩ (.singleton _)))

end
end Airix.Bio
