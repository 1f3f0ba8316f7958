import Airix.Axfs.Volume

/-!
# Reading a volume

`Runs` is the rule for code that uses some buffers (those of the sectors `M`) without a look at whether they
were read. Either the code has done what `Q` says, or it has used such a buffer after the read had failed
(`Spoiled`), and then nothing more is said. `Does` is the rule for code on a well-formed volume, where these
sectors are the ones with metadata.
-/

namespace Airix.Axfs
open Bytes Prog

/-- The process holds no bio, and has used no buffer that it could not read. -/
structure Kern.Idle (s : Kern) : Prop where
  held : ∀ b, s.held b = none
  good : s.misused = false

namespace Machine
variable {m : Machine} {M : UInt8 → UInt64 → Prop} {dev : UInt8} {t : Prop} {α β : Type} {p : P α} {s s' : Kern}
  {Q Q' : α → Kern → Prop}

/-- A read of one of the sectors `M` has failed. -/
def MetaFailed (m : Machine) (M : UInt8 → UInt64 → Prop) (s : Kern) : Prop :=
  ∃ x ∈ s.failed, m.mayFail x.1 x.2 ∧ M x.1 x.2

/-- A read of one of the sectors `M` has failed, and the code has gone on with what was in the buffer. -/
def Spoiled (m : Machine) (M : UInt8 → UInt64 → Prop) (s : Kern) : Prop := s.misused = true ∧ m.MetaFailed M s

/-- What the code does unless it is spoiled; if `t` holds, then nothing else keeps it from coming back, and
otherwise only the allocators do. -/
def Runs (m : Machine) (M : UInt8 → UInt64 → Prop) (t : Prop) (p : P α) (s : Kern) (Q : α → Kern → Prop) : Prop :=
  Sat m.kernLayer (fun c s => t → ¬ m.Spoiled M s → ¬ m.kernLayer.mayPanic c s)
    (fun e s => e ≠ .noData ∨ t → m.Spoiled M s) (fun a s => Q a s ∨ m.Spoiled M s) p s

/-- The sectors of a volume with metadata. -/
def metaAt (m : Machine) (dev : UInt8) (dev' : UInt8) (sector : UInt64) : Prop :=
  dev' = dev ∧ (m.bytes dev).Meta sector.toNat

abbrev Does (m : Machine) (dev : UInt8) (t : Prop) (p : P α) (s : Kern) (Q : α → Kern → Prop) : Prop :=
  m.Runs (m.metaAt dev) t p s Q

theorem Spoiled.answers {c : Call} {r : c.Answer} (h : m.Spoiled M s) (ha : m.kernLayer.answers c s r s') :
    m.Spoiled M s' := by
  obtain ⟨hmis, x, hmem, hfail⟩ := h
  cases c with
  | bioGet _ _ =>
    obtain ⟨-, _, _, -, rfl⟩ := ha
    exact ⟨hmis, x, hmem, hfail⟩
  | bioRead b =>
    obtain ⟨_, -, hr⟩ := ha
    cases hr with
    | cached => exact ⟨hmis, x, hmem, hfail⟩
    | ok => exact ⟨hmis, x, hmem, hfail⟩
    | failed => exact ⟨hmis, x, List.mem_cons_of_mem _ hmem, hfail⟩
  | bioData b =>
    obtain ⟨_, -, -, rfl⟩ := ha
    exact ⟨by simp only [hmis, Bool.true_or], x, hmem, hfail⟩
  | bioRelease b =>
    obtain ⟨-, rfl⟩ := ha
    exact ⟨hmis, x, hmem, hfail⟩
  | slabAlloc _ =>
    obtain ⟨-, -, rfl⟩ | ⟨-, -, rfl⟩ := ha <;> exact ⟨hmis, x, hmem, hfail⟩
  | slabFree _ _ =>
    obtain ⟨-, rfl⟩ := ha
    exact ⟨hmis, x, hmem, hfail⟩
  | kmalloc _ =>
    obtain ⟨-, ⟨-, -, rfl⟩ | ⟨-, -, rfl⟩⟩ := ha <;> exact ⟨hmis, x, hmem, hfail⟩
  | kfree _ =>
    obtain ⟨-, rfl⟩ := ha
    exact ⟨hmis, x, hmem, hfail⟩
  | files =>
    obtain ⟨-, rfl⟩ := ha
    exact ⟨hmis, x, hmem, hfail⟩
  | setFile _ _ =>
    obtain rfl : s' = _ := ha
    exact ⟨hmis, x, hmem, hfail⟩

theorem Spoiled.runs (h : m.Spoiled M s) : m.Runs M t p s Q := by
  unfold Runs
  induction p generalizing s with
  | ret a => exact .inr h
  | stop e => exact fun _ => h
  | call c k ih => exact ⟨fun _ hn => absurd h hn, fun r s' ha => ih r (h.answers ha)⟩

theorem Runs.bind {q : P β} {f : β → P α} {R : β → Kern → Prop} (h : m.Runs M t q s R)
    (hf : ∀ b s, R b s → m.Runs M t (f b) s Q) : m.Runs M t (q >>= f) s Q := by
  refine Sat.bind h fun b s' hb => ?_
  rcases hb with hb | hb
  · exact hf b s' hb
  · exact hb.runs

theorem Runs.mono (h : m.Runs M t p s Q) (hQ : ∀ a s, Q a s → Q' a s) : m.Runs M t p s Q' :=
  Sat.mono h fun a s ha => ha.imp_left (hQ a s)

theorem Runs.pure {a : α} (h : Q a s) : m.Runs M t (Pure.pure a : P α) s Q := .inl h

theorem Runs.noData (ht : ¬ t) : m.Runs M t (.stop .noData : P α) s Q := fun h =>
  absurd (h.resolve_left fun hne => hne rfl) ht

/-- When no read of these sectors fails, the code comes to its end. -/
theorem Runs.total (h : m.Runs M True p s Q)
    (hmeta : ∀ dev sector, m.mayFail dev sector → ¬ M dev sector) :
    Sat m.kernLayer (fun c s => ¬ m.kernLayer.mayPanic c s) (fun _ _ => False) Q p s := by
  have hclean : ∀ s, ¬ m.Spoiled M s := fun s ⟨_, x, _, hfail, hm⟩ => hmeta x.1 x.2 hfail hm
  refine (Sat.mono h fun a s ha => ha.resolve_right (hclean s)).weaken (fun c s hc => hc trivial (hclean s))
    fun e s he => hclean s (he (.inr trivial))

/-- A call that comes back. -/
theorem Runs.perform {c : Call} {Q : c.Answer → Kern → Prop} (hpre : t → ¬ m.kernLayer.mayPanic c s)
    (h : ∀ r s', m.kernLayer.answers c s r s' → Q r s') : m.Runs M t (Prog.perform c : P c.Answer) s Q :=
  ⟨fun ht _ => hpre ht, fun r s' ha => .inl (h r s' ha)⟩

/-! ### Bios -/

theorem runs_bioGet {sector : UInt64} {f : Nat → P α} (hs : s.Idle) (ht : t → m.memory)
    (hf : ∀ b valid data, (valid = true → m.OnDisk dev sector data) →
      m.Runs M t (f b) { s with held := Function.update s.held b (some ⟨dev, sector, valid, data⟩) } Q) :
    m.Runs M t (bioGet dev sector >>= f) s Q := by
  refine ⟨fun h _ hp => ?_, fun b s' ⟨_, valid, data, hd, he⟩ => he ▸ hf b valid data hd⟩
  rcases hp with hp | ⟨b, hb⟩
  · exact hp (ht h)
  · exact hb (hs.held b)

/-- The state in which the process holds the bio `b`, and no other. -/
def holding (s : Kern) (b : Nat) (x : Bio) : Kern := { s with held := Function.update s.held b (some x) }

theorem release_holding {b : Nat} {x : Bio} (hs : ∀ b, s.held b = none) :
    { holding s b x with held := Function.update (holding s b x).held b none } = s := by
  obtain ⟨held, failed, misused, live, files⟩ := s
  have hb : held b = none := hs b
  show Kern.mk (Function.update (Function.update held b (some x)) b none) failed misused live files = _
  rw [Function.update_idem, ← hb, Function.update_eq_self]

theorem use_valid (hs : s.Idle) : { s with misused := s.misused || !true } = s := by
  obtain ⟨held, failed, misused, live, files⟩ := s
  have hm : misused = false := hs.good
  rw [hm]
  rfl

theorem runs_bioRead {b : Nat} {x : Bio} {f : Bool → P α} (ht : t → m.memory) (hrange : m.InRange x.dev x.sector)
    (hvalid : x.valid = true → m.OnDisk x.dev x.sector x.data)
    (hok : ∀ data, m.OnDisk x.dev x.sector data →
      m.Runs M t (f true) (holding s b { x with valid := true, data := data }) Q)
    (hfail : ∀ data, m.mayFail x.dev x.sector → m.Runs M t (f false)
      (holding { s with failed := (x.dev, x.sector) :: s.failed } b { x with valid := false, data := data }) Q) :
    m.Runs M t (bioRead b >>= f) (holding s b x) Q := by
  have hself : (holding s b x).held b = some x := Function.update_self ..
  have hidem : ∀ y, Function.update (holding s b x).held b (some y) = Function.update s.held b (some y) :=
    fun y => Function.update_idem ..
  refine ⟨fun h _ hp => ?_, fun r s' ⟨y, hy, hr⟩ => ?_⟩
  · rcases (hp x hself).2 with hp | hp
    · exact hp hrange
    · exact hp (ht h)
  · obtain rfl : x = y := Option.some.inj (hself.symm.trans hy)
    cases hr with
    | cached hv =>
      have h := hok x.data (hvalid hv)
      have hx : { x with valid := true } = x := by rw [← hv]
      rwa [hx] at h
    | ok data hv _ hd =>
      show m.Runs M t (f true) { holding s b x with held := _ } Q
      rw [hidem]
      exact hok data hd
    | failed data hv _ hf =>
      show m.Runs M t (f false) { holding s b x with held := _, failed := _ } Q
      rw [hidem]
      have h := hfail data hf
      have hx : ({ x with valid := false, data := data } : Bio) = { x with data := data } := by rw [← hv]
      rwa [hx] at h

theorem runs_bioData {b : Nat} {x : Bio} {f : (Nat → UInt8) → P α}
    (hf : m.Runs M t (f x.data) (holding { s with misused := s.misused || !x.valid } b x) Q) :
    m.Runs M t (bioData b >>= f) (holding s b x) Q := by
  have hself : (holding s b x).held b = some x := Function.update_self ..
  refine ⟨fun _ _ hp => ?_, fun r s' ⟨y, hy, hr, hs⟩ => ?_⟩
  · have hp : (holding s b x).held b = none := hp
    rw [hself] at hp
    cases hp
  · obtain rfl : x = y := Option.some.inj (hself.symm.trans hy)
    rw [hr, hs]
    exact hf

theorem runs_bioRelease {b : Nat} {x : Bio} {f : Unit → P α} (hs : ∀ b, s.held b = none)
    (hf : m.Runs M t (f ()) s Q) : m.Runs M t (bioRelease b >>= f) (holding s b x) Q := by
  have hself : (holding s b x).held b = some x := Function.update_self ..
  refine ⟨fun _ _ hp => ?_, fun r s' ⟨_, he⟩ => ?_⟩
  · have hp : (holding s b x).held b = none := hp
    rw [hself] at hp
    cases hp
  · rw [he, release_holding hs]
    exact hf

/-- `bio_get`, `bio_read`, `bio_data` and `bio_release` on a sector of metadata. -/
theorem runs_readMeta {sector : UInt64} {f : (Nat → UInt8) → α} (hs : s.Idle) (ht : t → m.memory)
    (hrange : m.InRange dev sector) (hmeta : M dev sector) :
    m.Runs M t (do
      let bio ← bioGet dev sector
      let _ ← bioRead bio
      let data ← bioData bio
      bioRelease bio
      return f data) s (fun r s' => s' = s ∧ ∃ data, m.OnDisk dev sector data ∧ r = f data) := by
  refine runs_bioGet hs ht fun b valid data hvalid => ?_
  refine runs_bioRead ht hrange hvalid (fun data hd => ?_) fun data hfail => ?_
  · exact runs_bioData (runs_bioRelease (fun b => hs.held b) (Runs.pure ⟨use_valid hs, data, hd, rfl⟩))
  · refine runs_bioData (Spoiled.runs ⟨?_, (dev, sector), List.mem_cons_self .., hfail, hmeta⟩)
    show (s.misused || !false) = true
    rw [Bool.not_false, Bool.or_true]

theorem runs_blockRead {block : Nat} {f : Option Nat → P α} (hs : s.Idle) (ht : t → m.memory)
    (hrange : m.InRange dev (sectorNo32 block))
    (hok : ∀ b data, m.OnDisk dev (sectorNo32 block) data →
      m.Runs M t (f (some b)) (holding s b ⟨dev, sectorNo32 block, true, data⟩) Q)
    (hfail : m.mayFail dev (sectorNo32 block) →
      m.Runs M t (f none) { s with failed := (dev, sectorNo32 block) :: s.failed } Q) :
    m.Runs M t (blockRead dev block >>= f) s Q := by
  unfold blockRead
  rw [bind_assoc]
  refine runs_bioGet hs ht fun b valid data hvalid => ?_
  rw [bind_assoc]
  refine runs_bioRead ht hrange hvalid (fun data hd => hok b data hd) fun data hf => ?_
  show m.Runs M t ((bioRelease b >>= fun _ => Pure.pure none) >>= f) _ Q
  rw [bind_assoc]
  exact runs_bioRelease (fun b => hs.held b) (hfail hf)

/-- `bio_data` and `block_release` on a block that was read. -/
theorem runs_useBlock {b : Nat} {sector : UInt64} {data : Nat → UInt8} {g : (Nat → UInt8) → P α} (hs : s.Idle)
    (h : m.Runs M t (g data) s Q) :
    m.Runs M t (bioData b >>= fun data => blockRelease b >>= fun _ => g data)
      (holding s b ⟨dev, sector, true, data⟩) Q := by
  refine runs_bioData (runs_bioRelease (fun b => hs.held b) ?_)
  rw [use_valid hs]
  exact h

end Machine

end Airix.Axfs
