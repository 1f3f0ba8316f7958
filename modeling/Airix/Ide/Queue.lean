import Airix.Ide.History

/-!
# The request queues of the two buses

`Inv s pend`: `pend bus` are the requests in the list of a bus with their addresses, and the history of
the bus fits them. Submissions and polls keep the invariant and never fault.
-/

namespace Airix.Ide

structure Inv (s : State) (pend : Nat → List (Nat × DmaIoData)) : Prop where
  rings : s.links.Rings Node.head {bus | bus < busCount} fun bus => (pend bus).map fun x => .data x.1
  objs : ∀ bus < busCount, ∀ x ∈ pend bus, s.objs x.1 = some x.2 ∧ (s.drives x.2.io.drive).bus = bus
  drives : ∀ i, (s.drives i).bus = i / driveCount
  history : ∀ bus < busCount, History (s.log bus) ((pend bus).map Prod.snd) s.submitted

/-! ### The functions of the driver -/

section
variable {s : State} {bus ptr : Nat} {data : DmaIoData}

@[simp] theorem startIoOperation_links : (startIoOperation s data).links = s.links := rfl
@[simp] theorem startIoOperation_objs : (startIoOperation s data).objs = s.objs := rfl
@[simp] theorem startIoOperation_drives : (startIoOperation s data).drives = s.drives := rfl
@[simp] theorem startIoOperation_flags : (startIoOperation s data).flags = s.flags := rfl
@[simp] theorem startIoOperation_submitted : (startIoOperation s data).submitted = s.submitted := rfl
@[simp] theorem startIoOperation_log : (startIoOperation s data).log =
    Function.update s.log (s.drives data.io.drive).bus
      (s.log (s.drives data.io.drive).bus ++ [.start data.serial]) := rfl

/-- What the completion function does to the variables of synchronous requests. -/
def flagsAfter (flags : Nat → Bool) (io : DmaIo) (error : Bool) : Nat → Bool :=
  match io.completeFunc with
  | .sync => Function.update flags io.data error
  | .other _ => flags

/-- `complete_io_operation` on the first request, with `rest` behind it. -/
theorem completeIoOperation_run (data : DmaIoData) (error : Bool) {rest : List (Nat × DmaIoData)}
    (hring : (s.links.unlink (.data ptr)).IsRing (.head bus) (rest.map fun x => .data x.1))
    (hobjs : ∀ x ∈ rest, s.objs x.1 = some x.2 ∧ (s.drives x.2.io.drive).bus = bus ∧ x.1 ≠ ptr) :
    ∃ s', completeIoOperation s bus ptr data error = .ok s' ∧ s'.links = s.links.unlink (.data ptr) ∧
      s'.objs = Function.update s.objs ptr none ∧ s'.drives = s.drives ∧ s'.submitted = s.submitted ∧
      s'.flags = flagsAfter s.flags data.io error ∧
      s'.log = Function.update s.log bus (s.log bus ++ [.unlink data.serial] ++
        History.startNext (rest.map Prod.snd) ++ [.callback data.serial data.io error]) := by
  have hflags : ∀ s₁ : State, (callComplete s₁ bus data error).flags = flagsAfter s₁.flags data.io error := by
    intro s₁
    unfold callComplete flagsAfter
    cases data.io.completeFunc <;> rfl
  have hrest : ∀ s₁ : State, (callComplete s₁ bus data error).links = s₁.links ∧
      (callComplete s₁ bus data error).objs = s₁.objs ∧ (callComplete s₁ bus data error).drives = s₁.drives ∧
      (callComplete s₁ bus data error).submitted = s₁.submitted ∧
      (callComplete s₁ bus data error).log = Function.update s₁.log bus
        (s₁.log bus ++ [.callback data.serial data.io error]) := by
    intro s₁
    unfold callComplete
    cases data.io.completeFunc <;> exact ⟨rfl, rfl, rfl, rfl, rfl⟩
  unfold completeIoOperation
  dsimp only [State.setObj, State.emit]
  cases rest with
  | nil =>
    rw [hring.next_nil]
    refine ⟨_, rfl, ?_⟩
    obtain ⟨h₁, h₂, h₃, h₄, h₅⟩ := hrest
      { s with
        links := s.links.unlink (.data ptr), objs := Function.update s.objs ptr none
        log := Function.update s.log bus (s.log bus ++ [.unlink data.serial]) }
    refine ⟨h₁, h₂, h₃, h₄, hflags _, h₅.trans ?_⟩
    simp [History.startNext]
  | cons x rest =>
    obtain ⟨hx, hbus, hne⟩ := hobjs x List.mem_cons_self
    rw [hring.next_cons]
    dsimp only
    rw [Function.update_of_ne hne, hx]
    refine ⟨_, rfl, ?_⟩
    obtain ⟨h₁, h₂, h₃, h₄, h₅⟩ := hrest (startIoOperation
      { s with
        links := s.links.unlink (.data ptr), objs := Function.update s.objs ptr none
        log := Function.update s.log bus (s.log bus ++ [.unlink data.serial]) } x.2)
    refine ⟨h₁, h₂, h₃, h₄, hflags _, h₅.trans ?_⟩
    simp [History.startNext, hbus]

end

/-! ### Polls -/

/-- What a poll can do: nothing that shows, or complete the first request. -/
inductive Polled (s s' : State) (pend pend' : Nat → List (Nat × DmaIoData)) (bus : Nat) : Prop
  | quiet (ios : ∀ b, (pend' b).map (fun x => (x.2.serial, x.2.io)) = (pend b).map fun x => (x.2.serial, x.2.io))
      (calls : callbacks (s'.log bus) = callbacks (s.log bus)) (flags : s'.flags = s.flags)
  | done (x : Nat × DmaIoData) (rest : List (Nat × DmaIoData)) (error : Bool) (first : pend bus = x :: rest)
      (next : pend' = Function.update pend bus rest)
      (calls : callbacks (s'.log bus) = callbacks (s.log bus) ++ [(x.2.serial, x.2.io, error)])
      (flags : s'.flags = flagsAfter s.flags x.2.io error)

namespace Inv
variable {s : State} {pend : Nat → List (Nat × DmaIoData)} {bus : Nat}

/-- No object is twice in a list. -/
theorem ptr_ne (h : Inv s pend) (hb : bus < busCount) {x y : Nat × DmaIoData} {rest : List (Nat × DmaIoData)}
    (hp : pend bus = x :: rest) (hy : y ∈ rest) : y.1 ≠ x.1 := by
  have hnd := (h.rings.ring bus hb).nodup_list
  rw [hp, List.map_cons, List.nodup_cons] at hnd
  intro he
  exact hnd.1 (List.mem_map.mpr ⟨y, hy, by rw [he]⟩)

/-- The objects of different buses are different. -/
theorem ptr_ne_bus (h : Inv s pend) {b b' : Nat} (hb : b < busCount) (hb' : b' < busCount) (hne : b ≠ b')
    {x y : Nat × DmaIoData} (hx : x ∈ pend b) (hy : y ∈ pend b') : x.1 ≠ y.1 := by
  intro he
  refine h.rings.disjoint b hb b' hb' hne (a := .data x.1) ?_ ?_
  · exact List.mem_cons_of_mem _ (List.mem_map.mpr ⟨x, hx, rfl⟩)
  · exact List.mem_cons_of_mem _ (List.mem_map.mpr ⟨y, hy, by rw [he]⟩)

theorem unlink_rings (h : Inv s pend) (hb : bus < busCount) {ptr : Nat} {d : DmaIoData}
    {rest : List (Nat × DmaIoData)} (hp : pend bus = (ptr, d) :: rest) :
    (s.links.unlink (.data ptr)).Rings Node.head {bus | bus < busCount} fun b =>
      (Function.update pend bus rest b).map fun x => .data x.1 := by
  have hlists : Function.update (fun b => (pend b).map fun x => Node.data x.1) bus
      (((pend bus).map fun x => Node.data x.1).erase (.data ptr)) =
      fun b => (Function.update pend bus rest b).map fun x => Node.data x.1 := by
    funext b
    by_cases e : b = bus
    · subst e; rw [Function.update_self, Function.update_self, hp]; simp
    · rw [Function.update_of_ne e, Function.update_of_ne e]
  have hring := h.rings.unlink (k := bus) hb (n := .data ptr) (by rw [hp]; simp)
  rwa [hlists] at hring

/-- An operation that changes the list of one bus to `L`. -/
theorem change (h : Inv s pend) {s' : State} {L : List (Nat × DmaIoData)}
    (hrings : s'.links.Rings Node.head {bus | bus < busCount} fun b =>
      (Function.update pend bus L b).map fun x => .data x.1)
    (hnew : ∀ x ∈ L, s'.objs x.1 = some x.2 ∧ (s.drives x.2.io.drive).bus = bus)
    (hold : ∀ b < busCount, b ≠ bus → ∀ x ∈ pend b, s'.objs x.1 = s.objs x.1)
    (hdrives : s'.drives = s.drives) (hsub : s.submitted ≤ s'.submitted)
    (hlog : ∀ b, b ≠ bus → s'.log b = s.log b)
    (hhist : History (s'.log bus) (L.map Prod.snd) s'.submitted) : Inv s' (Function.update pend bus L) := by
  refine ⟨hrings, fun b hb x hx => ?_, by rw [hdrives]; exact h.drives, fun b hb => ?_⟩
  · rw [hdrives]
    by_cases e : b = bus
    · subst e
      rw [Function.update_self] at hx
      exact hnew x hx
    · rw [Function.update_of_ne e] at hx
      rw [hold b hb e x hx]
      exact h.objs b hb x hx
  · by_cases e : b = bus
    · subst e; rw [Function.update_self]; exact hhist
    · rw [Function.update_of_ne e, hlog b e]; exact (h.history b hb).mono hsub

/-- A poll that leaves the list as it is, except for the data of its first request. -/
theorem keep (h : Inv s pend) (hb : bus < busCount) {s' : State} {ptr : Nat} {d : DmaIoData} (d' : DmaIoData)
    {rest : List (Nat × DmaIoData)} (hp : pend bus = (ptr, d) :: rest) (hio : d'.io = d.io)
    (hlinks : s'.links = s.links) (hobjs : s'.objs = Function.update s.objs ptr (some d'))
    (hdrives : s'.drives = s.drives) (hsub : s'.submitted = s.submitted)
    (hlog : ∀ b, b ≠ bus → s'.log b = s.log b)
    (hhist : History (s'.log bus) (d' :: rest.map Prod.snd) s.submitted) :
    Inv s' (Function.update pend bus ((ptr, d') :: rest)) := by
  have hlists : (fun b => (Function.update pend bus ((ptr, d') :: rest) b).map fun x => Node.data x.1) =
      fun b => (pend b).map fun x => Node.data x.1 := by
    funext b
    by_cases e : b = bus
    · subst e; rw [Function.update_self, hp]; rfl
    · rw [Function.update_of_ne e]
  have hfirst : (ptr, d) ∈ pend bus := hp ▸ List.mem_cons_self
  refine h.change (by rw [hlinks, hlists]; exact h.rings) (fun x hx => ?_) (fun b hb' e x hx => ?_) hdrives
    hsub.ge hlog (by rw [hsub]; exact hhist)
  · rcases List.mem_cons.mp hx with rfl | hx
    · refine ⟨by rw [hobjs]; exact Function.update_self _ _ _, ?_⟩
      rw [hio]; exact (h.objs bus hb _ hfirst).2
    · rw [hobjs, Function.update_of_ne (h.ptr_ne hb hp hx)]
      exact h.objs bus hb x (hp ▸ List.mem_cons_of_mem _ hx)
  · have hne : x.1 ≠ ptr := h.ptr_ne_bus hb' hb e hx hfirst
    rw [hobjs, Function.update_of_ne hne]

/-- A poll that takes the first request out. -/
theorem drop (h : Inv s pend) (hb : bus < busCount) {s' : State} {ptr : Nat} {d : DmaIoData}
    {rest : List (Nat × DmaIoData)} (hp : pend bus = (ptr, d) :: rest)
    (hlinks : s'.links = s.links.unlink (.data ptr)) (hobjs : s'.objs = Function.update s.objs ptr none)
    (hdrives : s'.drives = s.drives) (hsub : s'.submitted = s.submitted)
    (hlog : ∀ b, b ≠ bus → s'.log b = s.log b)
    (hhist : History (s'.log bus) (rest.map Prod.snd) s.submitted) :
    Inv s' (Function.update pend bus rest) := by
  have hfirst : (ptr, d) ∈ pend bus := hp ▸ List.mem_cons_self
  refine h.change (by rw [hlinks]; exact h.unlink_rings hb hp) (fun x hx => ?_) (fun b hb' e x hx => ?_) hdrives
    hsub.ge hlog (by rw [hsub]; exact hhist)
  · rw [hobjs, Function.update_of_ne (h.ptr_ne hb hp hx)]
    exact h.objs bus hb x (hp ▸ List.mem_cons_of_mem _ hx)
  · have hne : x.1 ≠ ptr := h.ptr_ne_bus hb' hb e hx hfirst
    rw [hobjs, Function.update_of_ne hne]

theorem poll (h : Inv s pend) (hb : bus < busCount) (status : Nat) :
    ∃ s' pend', checkIfIoComplete s bus status = .ok s' ∧ Inv s' pend' ∧ Polled s s' pend pend' bus := by
  have hring := h.rings.ring bus hb
  unfold checkIfIoComplete
  rcases hp : pend bus with _ | ⟨⟨ptr, d⟩, rest⟩
  · rw [hp] at hring
    rw [hring.next_nil]
    exact ⟨s, pend, rfl, h, .quiet (fun _ => rfl) rfl rfl⟩
  · rw [hp] at hring
    obtain ⟨hobj, hbus⟩ := h.objs bus hb (ptr, d) (hp ▸ List.mem_cons_self)
    have hhist := h.history bus hb
    rw [hp] at hhist
    rw [hring.next_cons]
    dsimp only
    rw [hobj]
    dsimp only
    -- a completion, with or without error
    have hdone : ∀ (s₁ : State) (error : Bool), s₁.links = s.links → s₁.objs = s.objs → s₁.drives = s.drives →
        s₁.submitted = s.submitted → s₁.flags = s.flags →
        s₁.log = Function.update s.log bus (s.log bus ++ [.poll d.serial status]) →
        ((error = true ∧ status &&& 0x2 ≠ 0 ∧ d.retry ≠ 0) ∨ (error = false ∧ status &&& 0x2 = 0)) →
        ∃ s' pend', completeIoOperation s₁ bus ptr d error = .ok s' ∧ Inv s' pend' ∧
          Polled s s' pend pend' bus := by
      intro s₁ error e₁ e₂ e₃ e₄ e₅ e₆ herr
      have hrings := (h.unlink_rings hb hp).ring bus hb
      rw [Function.update_self, ← e₁] at hrings
      obtain ⟨s', he, k₁, k₂, k₃, k₄, k₅, k₆⟩ := completeIoOperation_run d error hrings
        (fun x hx => by
          rw [e₂, e₃]
          obtain ⟨h₁, h₂⟩ := h.objs bus hb x (hp ▸ List.mem_cons_of_mem _ hx)
          exact ⟨h₁, h₂, h.ptr_ne hb hp hx⟩)
      have hlog : s'.log bus = s.log bus ++ [.poll d.serial status] ++ [.unlink d.serial] ++
          History.startNext (rest.map Prod.snd) ++ [.callback d.serial d.io error] := by
        rw [k₆, Function.update_self, e₆, Function.update_self]
      refine ⟨s', _, he, h.drop hb hp (k₁.trans (by rw [e₁])) (k₂.trans (by rw [e₂])) (k₃.trans e₃)
        (k₄.trans e₄) (fun b hne => ?_) (by rw [hlog]; exact hhist.complete herr), .done _ rest error hp rfl ?_ ?_⟩
      · rw [k₆, Function.update_of_ne hne, e₆, Function.update_of_ne hne]
      · rw [hlog]
        have : callbacks (History.startNext (rest.map Prod.snd)) = [] := by cases rest <;> rfl
        simp [this]
      · rw [k₅, e₅]
    by_cases hs : status &&& 0x2 ≠ 0
    · rw [if_pos hs]
      by_cases hr : d.retry = 0
      · rw [if_pos hr]
        refine ⟨_, _, rfl, h.keep hb { d with retry := 1 } hp rfl rfl rfl rfl rfl (fun b hne => ?_) ?_,
          .quiet (fun b => ?_) ?_ rfl⟩
        · simp [State.emit, State.out, State.setObj, hbus, Function.update_of_ne hne]
        · simpa [State.emit, State.out, State.setObj, hbus] using hhist.retry hs hr
        · by_cases e : b = bus
          · subst e; rw [Function.update_self, hp]; rfl
          · rw [Function.update_of_ne e]
        · simp [State.emit, State.out, State.setObj, hbus]
      · rw [if_neg hr]
        exact hdone _ true rfl rfl rfl rfl rfl rfl (.inl ⟨rfl, hs, hr⟩)
    · rw [if_neg hs]
      have hs0 : status &&& 0x2 = 0 := not_not.mp hs
      by_cases hdn : status &&& 0x1 = 0
      · rw [if_pos hdn]
        exact hdone _ false rfl rfl rfl rfl rfl rfl (.inr ⟨rfl, hs0⟩)
      · rw [if_neg hdn]
        have hself : Function.update s.objs ptr (some d) = s.objs := by
          rw [← hobj]; exact Function.update_eq_self _ _
        refine ⟨_, _, rfl, h.keep hb d hp rfl rfl hself.symm rfl rfl (fun b hne => ?_) ?_,
          .quiet (fun b => ?_) ?_ rfl⟩
        · exact Function.update_of_ne hne _ _
        · simpa [State.emit] using hhist.busy hs0
        · by_cases e : b = bus
          · subst e; rw [Function.update_self, hp]
          · rw [Function.update_of_ne e]
        · simp [State.emit]

/-! ### Submissions -/

theorem submit (h : Inv s pend) {ptr : Nat} {io : DmaIo} (hptr : ptr ≠ 0) (hobj : s.objs ptr = none)
    (hdrive : io.drive < busCount * driveCount) (bmCmd cmd : Nat) :
    ∃ s', dmaIoSectors s ptr io bmCmd cmd = .ok s' ∧
      Inv s' (Function.update pend (s.drives io.drive).bus
        (pend (s.drives io.drive).bus ++ [(ptr, ⟨io, 0, bmCmd, cmd, s.submitted⟩)])) ∧
      (∀ b, callbacks (s'.log b) = callbacks (s.log b)) ∧ s'.flags = s.flags ∧ s'.drives = s.drives := by
  have hb : (s.drives io.drive).bus < busCount := by
    rw [h.drives]; unfold busCount driveCount at *; omega
  generalize hbus : (s.drives io.drive).bus = bus at hb
  have hring := h.rings.ring bus hb
  have hhist := h.history bus hb
  have hfresh : ∀ b < busCount, ∀ x ∈ pend b, x.1 ≠ ptr := by
    intro b hb' x hx he
    have := (h.objs b hb' x hx).1
    rw [he, hobj] at this
    cases this
  have hrings := h.rings.insertBack (k := bus) hb (n := .data ptr) (fun b hb' => by
    simp only [List.mem_cons, List.mem_map, not_or, not_exists, not_and]
    exact ⟨Node.noConfusion, fun x hx he => hfresh b hb' x hx (Node.data.inj he)⟩)
  have hlists : Function.update (fun b => (pend b).map fun x => Node.data x.1) bus
      ((pend bus).map (fun x => Node.data x.1) ++ [.data ptr]) =
      fun b => (Function.update pend bus (pend bus ++ [(ptr, ⟨io, 0, bmCmd, cmd, s.submitted⟩)]) b).map
        fun x => Node.data x.1 := by
    funext b
    by_cases e : b = bus
    · subst e; rw [Function.update_self, Function.update_self]; simp
    · rw [Function.update_of_ne e, Function.update_of_ne e]
  rw [hlists] at hrings
  -- whatever the state, as long as the log of the bus is right
  have hinv : ∀ s' : State, s'.links = s.links.insertBack (.head bus) (.data ptr) →
      s'.objs = Function.update s.objs ptr (some ⟨io, 0, bmCmd, cmd, s.submitted⟩) → s'.drives = s.drives →
      s'.submitted = s.submitted + 1 → (∀ b, b ≠ bus → s'.log b = s.log b) →
      History (s'.log bus) ((pend bus).map Prod.snd ++ [⟨io, 0, bmCmd, cmd, s.submitted⟩]) (s.submitted + 1) →
      Inv s' (Function.update pend bus (pend bus ++ [(ptr, ⟨io, 0, bmCmd, cmd, s.submitted⟩)])) := by
    intro s' e₁ e₂ e₃ e₄ e₅ e₆
    refine h.change (by rw [e₁]; exact hrings) (fun x hx => ?_) (fun b hb' _ x hx => ?_) e₃ (by omega) e₅
      (by rw [e₄, List.map_append]; exact e₆)
    · rw [e₂]
      rcases List.mem_append.mp hx with hx | hx
      · rw [Function.update_of_ne (hfresh bus hb x hx)]
        exact h.objs bus hb x hx
      · rw [List.mem_singleton.mp hx]
        exact ⟨Function.update_self _ _ _, hbus⟩
    · rw [e₂, Function.update_of_ne (hfresh b hb' x hx)]
  have hnext : s.links.next (.head bus) = some (.head bus) ↔ pend bus = [] := by
    rw [hring.next_eq_self_iff, List.map_eq_nil_iff]
  unfold dmaIoSectors
  rw [if_neg hptr]
  dsimp only [State.setObj, State.emit]
  rw [hbus]
  by_cases hnil : pend bus = []
  · rw [if_pos (hnext.mpr hnil)]
    rw [hnil] at hhist
    refine ⟨_, rfl, hinv _ rfl rfl rfl rfl (fun b hne => ?_) ?_, fun b => ?_, rfl, rfl⟩
    · simp [hbus, Function.update_of_ne hne]
    · rw [hnil]
      simpa [hbus] using hhist.submit_nil (d := ⟨io, 0, bmCmd, cmd, s.submitted⟩) rfl rfl
    · by_cases e : b = bus
      · subst e; simp [hbus]
      · simp [hbus, Function.update_of_ne e]
  · rw [if_neg (fun hc => hnil (hnext.mp hc))]
    refine ⟨_, rfl, hinv _ rfl rfl rfl rfl (fun b hne => ?_) ?_, fun b => ?_, rfl, rfl⟩
    · simp [Function.update_of_ne hne]
    · have hL : (pend bus).map Prod.snd ≠ [] := by simpa using hnil
      simpa using hhist.submit_cons hL (d := ⟨io, 0, bmCmd, cmd, s.submitted⟩) rfl rfl
    · by_cases e : b = bus
      · subst e; simp
      · simp [Function.update_of_ne e]

end Inv
end Airix.Ide
