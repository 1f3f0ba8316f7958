import Airix.Ide.Queue

/-!
# Runs of the IDE driver

`Run` are the states after any sequence of submissions and polls, `Reach` those between two calls of the
interface, where a synchronous request is one call.
-/

namespace Airix.Ide

section
variable (bmDma : Nat) (prdtAddr : Nat → Nat) (detected : Nat → Detected)

/-- `slab_alloc` returns an object that is not in use. The variables behind `flags` belong to the callers. -/
inductive Run : State → Prop
  | init : Run (ideInitialize bmDma prdtAddr detected)
  | read {s s' : State} {ptr : Nat} {io : DmaIo} : Run s → s.objs ptr = none →
      ideDmaReadSectors s ptr io = .ok s' → Run s'
  | write {s s' : State} {ptr : Nat} {io : DmaIo} : Run s → s.objs ptr = none →
      ideDmaWriteSectors s ptr io = .ok s' → Run s'
  | poll {s s' : State} {bus status : Nat} : Run s → bus < busCount →
      checkIfIoComplete s bus status = .ok s' → Run s'
  | flags {s : State} (flags : Nat → Bool) : Run s → Run { s with flags := flags }

/-- A caller has no access to `sync_io_complete`. -/
inductive Reach : State → Prop
  | init : Reach (ideInitialize bmDma prdtAddr detected)
  | read {s s' : State} {ptr : Nat} {io : DmaIo} : Reach s → s.objs ptr = none → io.completeFunc ≠ .sync →
      ideDmaReadSectors s ptr io = .ok s' → Reach s'
  | write {s s' : State} {ptr : Nat} {io : DmaIo} : Reach s → s.objs ptr = none → io.completeFunc ≠ .sync →
      ideDmaWriteSectors s ptr io = .ok s' → Reach s'
  | poll {s s' : State} {bus status : Nat} : Reach s → bus < busCount →
      checkIfIoComplete s bus status = .ok s' → Reach s'
  | syncRead {s s' : State} {ptr error : Nat} {io : Io} {statuses : List Nat} {ok : Bool} : Reach s →
      s.objs ptr = none → ideReadSectors s ptr error io statuses = .ok (some (ok, s')) → Reach s'
  | syncWrite {s s' : State} {ptr error : Nat} {io : Io} {statuses : List Nat} {ok : Bool} : Reach s →
      s.objs ptr = none → ideWriteSectors s ptr error io statuses = .ok (some (ok, s')) → Reach s'

end

/-- The queue of a bus, with the requests `L` in its list: the completion functions are called in the order of
the submissions, once for each request that has left the list; a call reports an error exactly when two
polls did; no request is programmed more than twice; and the command that was started last is that of the
first request, at every moment at which a status byte is read. -/
structure BusQueue (s : State) (bus : Nat) (L : List (Nat × DmaIoData)) : Prop where
  ring : s.links.IsRing (.head bus) (L.map fun x => .data x.1)
  objs : ∀ x ∈ L, s.objs x.1 = some x.2
  fifo : submits (s.log bus) =
    (callbacks (s.log bus)).map (fun c => (c.1, c.2.1)) ++ L.map fun x => (x.2.serial, x.2.io)
  distinct : ((submits (s.log bus)).map Prod.fst).Nodup
  errors : ∀ c ∈ callbacks (s.log bus), c.2.2 = true ↔ errorPolls (s.log bus) c.1 = 2
  programmed : ∀ k, (starts (s.log bus)).count k ≤ 2
  current : ∀ x rest, L = x :: rest → (starts (s.log bus)).getLast? = some x.2.serial
  idle : L = [] → ∀ k ∈ starts (s.log bus), k ∈ (callbacks (s.log bus)).map Prod.fst
  attributed : Prefixes Attributed (s.log bus)

section
variable {s s' : State} {pend : Nat → List (Nat × DmaIoData)} {bus ptr : Nat}

theorem Inv.busQueue (h : Inv s pend) (hb : bus < busCount) : BusQueue s bus (pend bus) := by
  have hh := h.history bus hb
  exact
    { ring := h.rings.ring bus hb
      objs := fun x hx => (h.objs bus hb x hx).1
      fifo := by simpa [Function.comp_def] using hh.fifo
      distinct := hh.nodup
      errors := hh.errors
      programmed := hh.programmed
      current := fun x rest he => (hh.head x.2 (rest.map Prod.snd) (by rw [he]; rfl)).1
      idle := fun he k hk => (hh.started k hk).resolve_right (by rw [he]; simp)
      attributed := hh.attributed }

theorem initLinks_ring (hb : bus < busCount) : initLinks.IsRing (.head bus) [] := by
  refine ⟨by simp, ?_⟩
  unfold busCount at hb
  obtain rfl | rfl : bus = 0 ∨ bus = 1 := by omega
  · simp [Links.Adj]; decide
  · simp [Links.Adj]; decide

theorem inv_init (bmDma : Nat) (prdtAddr : Nat → Nat) (detected : Nat → Detected) :
    Inv (ideInitialize bmDma prdtAddr detected) fun _ => [] := by
  refine ⟨⟨fun bus hb => initLinks_ring hb, fun b _ b' _ hne => ?_⟩, by simp, fun _ => rfl, fun _ _ => .nil⟩
  simp [hne.symm]

theorem checkDrive_ok {io : DmaIo} (h : checkDrive s io = .ok ()) : io.drive < busCount * driveCount := by
  unfold checkDrive at h
  dsimp only at h
  split at h
  · cases h
  · rename_i hc
    exact not_le.mp fun hle => hc (.inl hle)

/-- What both `ide_dma_read_sectors` and `ide_dma_write_sectors` do. -/
theorem Inv.request (h : Inv s pend) {io : DmaIo} {bmCmd cmd : Nat} (hobj : s.objs ptr = none)
    (he : (checkDrive s io >>= fun _ => dmaIoSectors s ptr io bmCmd cmd) = .ok s') :
    (s.drives io.drive).bus < busCount ∧
    Inv s' (Function.update pend (s.drives io.drive).bus
        (pend (s.drives io.drive).bus ++ [(ptr, ⟨io, 0, bmCmd, cmd, s.submitted⟩)])) ∧
      (∀ b, callbacks (s'.log b) = callbacks (s.log b)) ∧ s'.flags = s.flags ∧ s'.drives = s.drives := by
  cases hc : checkDrive s io with
  | error p => rw [hc] at he; cases he
  | ok _ =>
    rw [hc] at he
    have hptr : ptr ≠ 0 := by
      rintro rfl
      cases he
    have hdrive := checkDrive_ok hc
    obtain ⟨s₁, he₁, hrest⟩ := h.submit hptr hobj hdrive bmCmd cmd
    obtain rfl : s₁ = s' := Except.ok.inj (he₁.symm.trans he)
    refine ⟨?_, hrest⟩
    rw [h.drives]
    unfold busCount driveCount at *
    omega

theorem Run.inv {bmDma : Nat} {prdtAddr : Nat → Nat} {detected : Nat → Detected}
    (h : Run bmDma prdtAddr detected s) : ∃ pend, Inv s pend := by
  induction h with
  | init => exact ⟨_, inv_init bmDma prdtAddr detected⟩
  | read _ hobj he ih =>
    obtain ⟨pend, hinv⟩ := ih
    exact ⟨_, (hinv.request hobj he).2.1⟩
  | write _ hobj he ih =>
    obtain ⟨pend, hinv⟩ := ih
    exact ⟨_, (hinv.request hobj he).2.1⟩
  | @poll s s' bus status _ hb he ih =>
    obtain ⟨pend, hinv⟩ := ih
    obtain ⟨s₁, pend', he₁, hinv', -⟩ := hinv.poll hb status
    obtain rfl : s₁ = s' := Except.ok.inj (he₁.symm.trans he)
    exact ⟨pend', hinv'⟩
  | flags _ _ ih =>
    obtain ⟨pend, hinv⟩ := ih
    exact ⟨pend, hinv.rings, hinv.objs, hinv.drives, hinv.history⟩

/-! ### Synchronous requests -/

/-- Only the request `k` writes to `error`, and it has not been completed unless the variable says how. -/
structure Waits (s : State) (pend : Nat → List (Nat × DmaIoData)) (bus k : Nat) (io : Io) (error : Nat) : Prop where
  own : ∀ b < busCount, ∀ x ∈ pend b, x.2.io.completeFunc = .sync → b = bus ∧ (x.2.serial, x.2.io) = (k, syncIo io error)
  flag : (k, syncIo io error, s.flags error) ∈ callbacks (s.log bus) ∨
    ((k, syncIo io error) ∈ (pend bus).map (fun x => (x.2.serial, x.2.io)) ∧ s.flags error = false)

theorem mem_of_ios {pend pend' : Nat → List (Nat × DmaIoData)} {b : Nat}
    (h : (pend' b).map (fun x => (x.2.serial, x.2.io)) = (pend b).map fun x => (x.2.serial, x.2.io))
    {x : Nat × DmaIoData} (hx : x ∈ pend' b) : ∃ y ∈ pend b, y.2.serial = x.2.serial ∧ y.2.io = x.2.io := by
  have hm : (x.2.serial, x.2.io) ∈ (pend b).map fun x => (x.2.serial, x.2.io) := by
    rw [← h]; exact List.mem_map.mpr ⟨x, hx, rfl⟩
  obtain ⟨y, hy, he⟩ := List.mem_map.mp hm
  exact ⟨y, hy, (Prod.mk.inj he).1, (Prod.mk.inj he).2⟩

theorem Waits.poll {pend' : Nat → List (Nat × DmaIoData)} {k error : Nat} {io : Io}
    (h : Waits s pend bus k io error) (hb : bus < busCount) (hp : Polled s s' pend pend' bus) :
    Waits s' pend' bus k io error := by
  cases hp with
  | quiet ios calls flags =>
    refine ⟨fun b hb x hx hs => ?_, ?_⟩
    · obtain ⟨y, hy, h₁, h₂⟩ := mem_of_ios (ios b) hx
      rw [← h₁, ← h₂]
      exact h.own b hb y hy (by rw [h₂]; exact hs)
    · rw [calls, flags, ios]; exact h.flag
  | done x rest e first next calls flags =>
    subst next
    have hsub : ∀ b, ∀ y ∈ Function.update pend bus rest b, y ∈ pend b := by
      intro b y hy
      by_cases hbb : b = bus
      · subst hbb
        rw [Function.update_self] at hy
        rw [first]; exact List.mem_cons_of_mem _ hy
      · rwa [Function.update_of_ne hbb] at hy
    refine ⟨fun b hb y hy hs => h.own b hb y (hsub b y hy) hs, ?_⟩
    rw [calls, flags, Function.update_self]
    cases hc : x.2.io.completeFunc with
    | sync =>
      have hx := (h.own bus hb x (first ▸ List.mem_cons_self) hc).2
      obtain ⟨hk, hio⟩ := Prod.mk.inj hx
      refine .inl (List.mem_append_right _ ?_)
      simp [flagsAfter, hio, hk, syncIo]
    | other f =>
      have hf : flagsAfter s.flags x.2.io e = s.flags := by unfold flagsAfter; rw [hc]
      rw [hf]
      rcases h.flag with hl | ⟨hm, hfl⟩
      · exact .inl (List.mem_append_left _ hl)
      · refine .inr ⟨?_, hfl⟩
        rw [first, List.map_cons] at hm
        refine (List.mem_cons.mp hm).resolve_left fun heq => ?_
        rw [← (Prod.mk.inj heq).2] at hc
        cases hc

theorem Waits.syncWait {k error : Nat} {io : Io} (hb : bus < busCount) : ∀ (statuses : List Nat) {s : State}
    {pend : Nat → List (Nat × DmaIoData)}, Inv s pend → Waits s pend bus k io error →
    syncWait bus statuses s = .ok (some s') → ∃ pend', Inv s' pend' ∧ pend' bus = [] ∧ Waits s' pend' bus k io error
  | [], s, pend, h, hw, he => by
    unfold Ide.syncWait at he
    have hempty := h.rings.ring bus hb |>.next_eq_self_iff
    split at he
    · rename_i hc
      obtain rfl : s = s' := Option.some.inj (Except.ok.inj he)
      exact ⟨pend, h, by simpa using hempty.mp hc, hw⟩
    · cases he
  | status :: statuses, s, pend, h, hw, he => by
    unfold Ide.syncWait at he
    have hempty := h.rings.ring bus hb |>.next_eq_self_iff
    split at he
    · rename_i hc
      obtain rfl : s = s' := Option.some.inj (Except.ok.inj he)
      exact ⟨pend, h, by simpa using hempty.mp hc, hw⟩
    · obtain ⟨s₁, pend₁, he₁, h₁, hp⟩ := h.poll hb status
      rw [he₁] at he
      exact Waits.syncWait hb statuses h₁ (hw.poll hb hp) he

/-- No request in the lists is a synchronous one. -/
def NoSync (pend : Nat → List (Nat × DmaIoData)) : Prop :=
  ∀ b < busCount, ∀ x ∈ pend b, x.2.io.completeFunc ≠ .sync

/-- A callback tells what became of the request. -/
theorem History.callback_unique {log : List Event} {L : List DmaIoData} {n k : Nat} (h : History log L n)
    {io io' : DmaIo} {e e' : Bool} (h₁ : (k, io, e) ∈ callbacks log) (h₂ : (k, io', e') ∈ callbacks log) :
    e = e' := by
  have hnd := h.nodup
  rw [h.serials] at hnd
  have heq := List.inj_on_of_nodup_map (List.nodup_append.mp hnd).1 h₁ h₂ rfl
  exact (Prod.mk.inj (Prod.mk.inj heq).2).2

/-- What a synchronous request tells its caller. -/
structure Told (s s' : State) (io : Io) (error : Nat) (ok : Bool) : Prop where
  true_iff : ok = true ↔
    (s.submitted, syncIo io error, false) ∈ callbacks (s'.log (s.drives io.drive).bus)
  false_iff : ok = false ↔
    (s.submitted, syncIo io error, true) ∈ callbacks (s'.log (s.drives io.drive).bus)

theorem Inv.syncIoSectors (h : Inv s pend) (hs : NoSync pend) {error : Nat} {io : Io} {statuses : List Nat}
    {ok : Bool} {bmCmd : Nat} {cmd : State → DmaIo → Nat} (hobj : s.objs ptr = none)
    (he : syncIoSectors s ptr error io (fun s ptr io => checkDrive s io >>= fun _ =>
      dmaIoSectors s ptr io bmCmd (cmd s io)) statuses = .ok (some (ok, s'))) :
    (∃ pend', Inv s' pend' ∧ NoSync pend') ∧ Told s s' io error ok := by
  -- the local variable does not matter to the queue
  have h₀ : Inv { s with flags := Function.update s.flags error false } pend :=
    ⟨h.rings, h.objs, h.drives, h.history⟩
  unfold Ide.syncIoSectors at he
  dsimp only at he
  cases hc : (checkDrive { s with flags := Function.update s.flags error false } (syncIo io error) >>= fun _ =>
      dmaIoSectors { s with flags := Function.update s.flags error false } ptr (syncIo io error) bmCmd
        (cmd { s with flags := Function.update s.flags error false } (syncIo io error))) with
  | error p => rw [hc] at he; cases he
  | ok s₁ =>
    obtain ⟨hb, hinv, hcalls, hflags, hdrives⟩ := h₀.request hobj hc
    dsimp only at hb hinv hcalls hflags hdrives
    rw [show (syncIo io error).drive = io.drive from rfl] at hb hinv
    generalize hbus : (s.drives io.drive).bus = bus at hb hinv
    rw [hc] at he
    have hw : Waits s₁ (Function.update pend bus (pend bus ++ [(ptr, ⟨syncIo io error, 0, bmCmd,
        cmd { s with flags := Function.update s.flags error false } (syncIo io error), s.submitted⟩)])) bus s.submitted io error := by
      refine ⟨fun b hb' x hx hsync => ?_, .inr ⟨?_, ?_⟩⟩
      · by_cases e : b = bus
        · subst e
          rw [Function.update_self] at hx
          rcases List.mem_append.mp hx with hx | hx
          · exact absurd hsync (hs b hb' x hx)
          · rw [List.mem_singleton.mp hx]; exact ⟨rfl, rfl⟩
        · rw [Function.update_of_ne e] at hx
          exact absurd hsync (hs b hb' x hx)
      · rw [Function.update_self]; simp
      · rw [hflags]; exact Function.update_self _ _ _
    have hbus₁ : (s₁.drives io.drive).bus = bus := by rw [hdrives, hbus]
    simp only [bind, Except.bind] at he
    rw [hbus₁] at he
    cases hwait : syncWait bus statuses s₁ with
    | error p => rw [hwait] at he; cases he
    | ok o =>
      rw [hwait] at he
      cases o with
      | none => cases he
      | some s₂ =>
        obtain ⟨hok, rfl⟩ := Prod.mk.inj (Option.some.inj (Except.ok.inj he))
        obtain ⟨pend', hinv', hnil, hw'⟩ := hw.syncWait hb statuses hinv hwait
        have hmem : (s.submitted, syncIo io error, s₂.flags error) ∈ callbacks (s₂.log bus) := by
          refine hw'.flag.resolve_right ?_
          rw [hnil]; simp
        refine ⟨⟨pend', hinv', fun b hb' x hx hsync => ?_⟩, ?_⟩
        · obtain ⟨rfl, -⟩ := hw'.own b hb' x hx hsync
          rw [hnil] at hx
          cases hx
        · have huniq : ∀ e, (s.submitted, syncIo io error, e) ∈ callbacks (s₂.log bus) → e = s₂.flags error :=
            fun e he => (hinv'.history bus hb).callback_unique he hmem
          rw [← hok]
          refine ⟨⟨fun hf => ?_, fun hm => ?_⟩, ⟨fun hf => ?_, fun hm => ?_⟩⟩
          · rw [hbus]
            rw [Bool.not_eq_true'] at hf
            rwa [hf] at hmem
          · rw [hbus] at hm
            rw [← huniq false hm]; rfl
          · rw [hbus]
            rw [Bool.not_eq_false'] at hf
            rwa [hf] at hmem
          · rw [hbus] at hm
            rw [← huniq true hm]; rfl

theorem Reach.inv {bmDma : Nat} {prdtAddr : Nat → Nat} {detected : Nat → Detected}
    (h : Reach bmDma prdtAddr detected s) : ∃ pend, Inv s pend ∧ NoSync pend := by
  have hadd : ∀ {pend : Nat → List (Nat × DmaIoData)} {bus : Nat} {x : Nat × DmaIoData}, NoSync pend →
      x.2.io.completeFunc ≠ .sync → NoSync (Function.update pend bus (pend bus ++ [x])) := by
    intro pend bus x hs hx b hb y hy
    by_cases e : b = bus
    · subst e
      rw [Function.update_self] at hy
      rcases List.mem_append.mp hy with hy | hy
      · exact hs b hb y hy
      · rw [List.mem_singleton.mp hy]; exact hx
    · rw [Function.update_of_ne e] at hy
      exact hs b hb y hy
  induction h with
  | init => exact ⟨_, inv_init bmDma prdtAddr detected, by intro b _ x hx; cases hx⟩
  | read _ hobj hio he ih =>
    obtain ⟨pend, hinv, hs⟩ := ih
    exact ⟨_, (hinv.request hobj he).2.1, hadd hs hio⟩
  | write _ hobj hio he ih =>
    obtain ⟨pend, hinv, hs⟩ := ih
    exact ⟨_, (hinv.request hobj he).2.1, hadd hs hio⟩
  | @poll s s' bus status _ hb he ih =>
    obtain ⟨pend, hinv, hs⟩ := ih
    obtain ⟨s₁, pend', he₁, hinv', hp⟩ := hinv.poll hb status
    obtain rfl : s₁ = s' := Except.ok.inj (he₁.symm.trans he)
    refine ⟨pend', hinv', fun b hb' x hx => ?_⟩
    cases hp with
    | quiet ios _ _ =>
      obtain ⟨y, hy, -, hio⟩ := mem_of_ios (ios b) hx
      rw [← hio]; exact hs b hb' y hy
    | done y rest e first next _ _ =>
      subst next
      by_cases hbb : b = bus
      · subst hbb
        rw [Function.update_self] at hx
        exact hs b hb' x (first ▸ List.mem_cons_of_mem _ hx)
      · rw [Function.update_of_ne hbb] at hx
        exact hs b hb' x hx
  | syncRead _ hobj he ih =>
    obtain ⟨pend, hinv, hs⟩ := ih
    exact (hinv.syncIoSectors hs hobj he).1
  | syncWrite _ hobj he ih =>
    obtain ⟨pend, hinv, hs⟩ := ih
    exact (hinv.syncIoSectors hs hobj he).1

end

/-- The queues work in every run, a poll never faults, and a synchronous request tells its caller what became of
the request. -/
theorem ide_queue (bmDma : Nat) (prdtAddr : Nat → Nat) (detected : Nat → Detected) :
    (∀ s, Run bmDma prdtAddr detected s → ∀ bus < busCount,
      (∃ L, BusQueue s bus L) ∧ ∀ status, ∃ s', checkIfIoComplete s bus status = .ok s') ∧
    ∀ s, Reach bmDma prdtAddr detected s → ∀ ptr error io statuses ok s', s.objs ptr = none →
      ideReadSectors s ptr error io statuses = .ok (some (ok, s')) ∨
        ideWriteSectors s ptr error io statuses = .ok (some (ok, s')) → Told s s' io error ok := by
  refine ⟨fun s hrun bus hb => ?_, fun s hr ptr error io statuses ok s' hobj he => ?_⟩
  · obtain ⟨pend, hinv⟩ := hrun.inv
    refine ⟨⟨pend bus, hinv.busQueue hb⟩, fun status => ?_⟩
    obtain ⟨s', -, he, -⟩ := hinv.poll hb status
    exact ⟨s', he⟩
  · obtain ⟨pend, hinv, hs⟩ := hr.inv
    rcases he with he | he
    · exact (hinv.syncIoSectors hs hobj he).2
    · exact (hinv.syncIoSectors hs hobj he).2

/-- One drive of 1000 sectors. -/
def oneDrive (i : Nat) : Detected := ⟨i = 0, false, 1000⟩

def oneIo : DmaIo := ⟨0, 8, 16, 0x200000, 4096, 0, .other 1⟩

/-- A request that fails twice, and a synchronous one that succeeds. -/
theorem ide_queue_error :
    (∃ s, (∃ L, BusQueue s 0 L) ∧ callbacks (s.log 0) = [(0, oneIo, true)] ∧ starts (s.log 0) = [0, 0]) ∧
    ∃ s', Told (ideInitialize 0xC000 (fun _ => 0xC0110000) oneDrive) s' ⟨0, 8, 16, 0x200000, 4096⟩ 0x9000 true := by
  obtain ⟨hrun, hsync⟩ := ide_queue 0xC000 (fun _ => 0xC0110000) oneDrive
  have h₁ : Run 0xC000 (fun _ => 0xC0110000) oneDrive _ :=
    .read .init rfl (rfl : ideDmaReadSectors _ 8 oneIo = .ok _)
  have h₂ : Run 0xC000 (fun _ => 0xC0110000) oneDrive _ :=
    .poll h₁ (by decide) (rfl : checkIfIoComplete _ 0 2 = .ok _)
  have h₃ : Run 0xC000 (fun _ => 0xC0110000) oneDrive _ :=
    .poll h₂ (by decide) (rfl : checkIfIoComplete _ 0 2 = .ok _)
  refine ⟨⟨_, (hrun _ h₃ 0 (by decide)).1, rfl, rfl⟩, ?_⟩
  exact ⟨_, hsync _ .init 8 0x9000 ⟨0, 8, 16, 0x200000, 4096⟩ [1, 0] true _ rfl (.inl rfl)⟩

end Airix.Ide
