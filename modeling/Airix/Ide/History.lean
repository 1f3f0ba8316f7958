import Airix.Ide.Model

/-!
# The history of a bus

`History log L n`: what the events `log` of a bus say about the requests `L` in its list. One lemma for
each thing that can happen to the list: a submission, a poll that finds the controller busy, a retry and
a completion.
-/

namespace Airix.Ide

/-- The submissions in order. -/
def submits (log : List Event) : List (Nat × DmaIo) :=
  log.filterMap fun | .submit k io => some (k, io) | _ => none

/-- The commands that were programmed into the controller. -/
def starts (log : List Event) : List Nat := log.filterMap fun | .start k => some k | _ => none

def unlinks (log : List Event) : List Nat := log.filterMap fun | .unlink k => some k | _ => none

/-- The calls of completion functions. -/
def callbacks (log : List Event) : List (Nat × DmaIo × Bool) :=
  log.filterMap fun | .callback k io error => some (k, io, error) | _ => none

/-- The number of polls that reported the error bit while the request was the first of the list. -/
def errorPolls (log : List Event) (k : Nat) : Nat :=
  log.countP fun | .poll k' status => k' = k ∧ status &&& 0x2 ≠ 0 | _ => false

/-- The requests that were submitted and are not unlinked. -/
def listed (log : List Event) : List Nat := ((submits log).map Prod.fst).drop (unlinks log).length

@[simp] theorem submits_append (l l' : List Event) : submits (l ++ l') = submits l ++ submits l' :=
  List.filterMap_append
@[simp] theorem starts_append (l l' : List Event) : starts (l ++ l') = starts l ++ starts l' :=
  List.filterMap_append
@[simp] theorem unlinks_append (l l' : List Event) : unlinks (l ++ l') = unlinks l ++ unlinks l' :=
  List.filterMap_append
@[simp] theorem callbacks_append (l l' : List Event) : callbacks (l ++ l') = callbacks l ++ callbacks l' :=
  List.filterMap_append
@[simp] theorem errorPolls_append (l l' : List Event) (k : Nat) :
    errorPolls (l ++ l') k = errorPolls l k + errorPolls l' k := List.countP_append

section
variable {k k' status : Nat} {io : DmaIo} {error : Bool} {log : List Event}

@[simp] theorem submits_nil : submits [] = [] := rfl
@[simp] theorem submits_submit : submits (.submit k io :: log) = (k, io) :: submits log := rfl
@[simp] theorem submits_start : submits (.start k :: log) = submits log := rfl
@[simp] theorem submits_poll : submits (.poll k status :: log) = submits log := rfl
@[simp] theorem submits_unlink : submits (.unlink k :: log) = submits log := rfl
@[simp] theorem submits_callback : submits (.callback k io error :: log) = submits log := rfl
@[simp] theorem starts_nil : starts [] = [] := rfl
@[simp] theorem starts_submit : starts (.submit k io :: log) = starts log := rfl
@[simp] theorem starts_start : starts (.start k :: log) = k :: starts log := rfl
@[simp] theorem starts_poll : starts (.poll k status :: log) = starts log := rfl
@[simp] theorem starts_unlink : starts (.unlink k :: log) = starts log := rfl
@[simp] theorem starts_callback : starts (.callback k io error :: log) = starts log := rfl
@[simp] theorem unlinks_nil : unlinks [] = [] := rfl
@[simp] theorem unlinks_submit : unlinks (.submit k io :: log) = unlinks log := rfl
@[simp] theorem unlinks_start : unlinks (.start k :: log) = unlinks log := rfl
@[simp] theorem unlinks_poll : unlinks (.poll k status :: log) = unlinks log := rfl
@[simp] theorem unlinks_unlink : unlinks (.unlink k :: log) = k :: unlinks log := rfl
@[simp] theorem unlinks_callback : unlinks (.callback k io error :: log) = unlinks log := rfl
@[simp] theorem callbacks_nil : callbacks [] = [] := rfl
@[simp] theorem callbacks_submit : callbacks (.submit k io :: log) = callbacks log := rfl
@[simp] theorem callbacks_start : callbacks (.start k :: log) = callbacks log := rfl
@[simp] theorem callbacks_poll : callbacks (.poll k status :: log) = callbacks log := rfl
@[simp] theorem callbacks_unlink : callbacks (.unlink k :: log) = callbacks log := rfl
@[simp] theorem callbacks_callback : callbacks (.callback k io error :: log) = (k, io, error) :: callbacks log := rfl
@[simp] theorem errorPolls_nil : errorPolls [] k = 0 := rfl
@[simp] theorem errorPolls_submit : errorPolls (.submit k io :: log) k' = errorPolls log k' := rfl
@[simp] theorem errorPolls_start : errorPolls (.start k :: log) k' = errorPolls log k' := rfl
@[simp] theorem errorPolls_unlink : errorPolls (.unlink k :: log) k' = errorPolls log k' := rfl
@[simp] theorem errorPolls_callback : errorPolls (.callback k io error :: log) k' = errorPolls log k' := rfl
@[simp] theorem errorPolls_poll : errorPolls (.poll k status :: log) k' =
    errorPolls log k' + if k = k' ∧ status &&& 0x2 ≠ 0 then 1 else 0 := by
  simp [errorPolls, List.countP_cons]

end

/-! ### Every moment of a history -/

/-- `P` holds of every event and the events before it. -/
def Prefixes (P : List Event → Event → Prop) (log : List Event) : Prop :=
  ∀ l₁ e l₂, log = l₁ ++ e :: l₂ → P l₁ e

theorem prefixes_nil (P : List Event → Event → Prop) : Prefixes P [] := by
  intro l₁ e l₂ h
  simp at h

theorem Prefixes.snoc {P : List Event → Event → Prop} {log : List Event} {e : Event} (h : Prefixes P log)
    (he : P log e) : Prefixes P (log ++ [e]) := by
  intro l₁ e' l₂ heq
  rcases l₂.eq_nil_or_concat with rfl | ⟨l₂, x, rfl⟩
  · obtain ⟨rfl, hx⟩ := List.append_inj' heq rfl
    obtain rfl := List.singleton_inj.mp hx
    exact he
  · have hsplit : log ++ [e] = (l₁ ++ e' :: l₂) ++ [x] := by rw [heq]; simp
    exact h l₁ e' l₂ (List.append_inj' hsplit rfl).1

/-- A command is started for the first request of the list, and a status byte is read while the command
of the first request is the one that was started last. -/
def Attributed (log : List Event) : Event → Prop
  | .start k => (listed log).head? = some k
  | .poll k _ => (listed log).head? = some k ∧ (starts log).getLast? = some k
  | _ => True

structure History (log : List Event) (L : List DmaIoData) (n : Nat) : Prop where
  fifo : submits log = (callbacks log).map (fun c => (c.1, c.2.1)) ++ L.map fun d => (d.serial, d.io)
  unlinked : unlinks log = (callbacks log).map Prod.fst
  nodup : ((submits log).map Prod.fst).Nodup
  lt : ∀ k ∈ (submits log).map Prod.fst, k < n
  attributed : Prefixes Attributed log
  errors : ∀ c ∈ callbacks log, c.2.2 = true ↔ errorPolls log c.1 = 2
  programmed : ∀ k, (starts log).count k ≤ 2
  started : ∀ k ∈ starts log, k ∈ (callbacks log).map Prod.fst ∨ (L.map DmaIoData.serial).head? = some k
  polled : ∀ k, 0 < errorPolls log k → k ∈ (callbacks log).map Prod.fst ∨ (L.map DmaIoData.serial).head? = some k
  head : ∀ d rest, L = d :: rest → (starts log).getLast? = some d.serial ∧ d.retry ≤ 1 ∧
    errorPolls log d.serial = d.retry ∧ (starts log).count d.serial = d.retry + 1
  waiting : ∀ d ∈ L.tail, d.retry = 0

namespace History
variable {log : List Event} {L rest : List DmaIoData} {n : Nat} {d : DmaIoData}

theorem nil : History [] [] 0 where
  fifo := rfl
  unlinked := rfl
  nodup := by simp [submits]
  lt := by simp [submits]
  attributed := prefixes_nil _
  errors := by simp [callbacks]
  programmed := by simp [starts]
  started := by simp [starts]
  polled := by simp [errorPolls]
  head := by simp
  waiting := by simp

theorem mono {n' : Nat} (h : History log L n) (hn : n ≤ n') : History log L n' :=
  { h with lt := fun k hk => (h.lt k hk).trans_le hn }

theorem serials (h : History log L n) :
    (submits log).map Prod.fst = (callbacks log).map Prod.fst ++ L.map DmaIoData.serial := by
  rw [h.fifo]; simp [Function.comp_def]

theorem listed_eq (h : History log L n) : listed log = L.map DmaIoData.serial := by
  unfold listed
  rw [h.serials, h.unlinked, List.length_map]
  exact List.drop_left' (by simp)

/-- A request in the list has not been called back. -/
theorem notMem_callbacks (h : History log L n) (hd : d ∈ L) : d.serial ∉ (callbacks log).map Prod.fst := by
  have hnd := h.nodup
  rw [h.serials] at hnd
  exact fun hc => (List.disjoint_of_nodup_append hnd) hc (List.mem_map_of_mem hd)

theorem serial_ne (h : History log (d :: rest) n) {d' : DmaIoData} (hd : d' ∈ rest) : d'.serial ≠ d.serial := by
  have hnd := h.nodup
  rw [h.serials] at hnd
  have hnd' := (List.nodup_append.mp hnd).2.1
  rw [List.map_cons, List.nodup_cons] at hnd'
  exact fun he => hnd'.1 (he ▸ List.mem_map_of_mem hd)

theorem serial_lt (h : History log L n) (hd : d ∈ L) : d.serial < n :=
  h.lt _ (by rw [h.serials]; exact List.mem_append_right _ (List.mem_map_of_mem hd))

theorem callback_lt (h : History log L n) {k : Nat} (hk : k ∈ (callbacks log).map Prod.fst) : k < n :=
  h.lt _ (by rw [h.serials]; exact List.mem_append_left _ hk)

theorem not_started (h : History log L n) {k : Nat} (hk : k ∉ (callbacks log).map Prod.fst)
    (hhead : (L.map DmaIoData.serial).head? ≠ some k) : (starts log).count k = 0 ∧ errorPolls log k = 0 := by
  refine ⟨List.count_eq_zero.mpr fun hs => ?_, ?_⟩
  · rcases h.started k hs with hc | hc
    · exact hk hc
    · exact hhead hc
  · by_contra hne
    rcases h.polled k (Nat.pos_of_ne_zero hne) with hc | hc
    · exact hk hc
    · exact hhead hc

/-! ### What can happen -/

/-- A submission, without the start of the request. -/
theorem submit_serials (h : History log L n) (d : DmaIoData) :
    ((submits (log ++ [.submit n d.io])).map Prod.fst).Nodup ∧
      ∀ k ∈ (submits (log ++ [.submit n d.io])).map Prod.fst, k < n + 1 := by
  simp only [submits_append, submits_submit, submits_nil, List.map_append, List.map_cons, List.map_nil]
  refine ⟨List.nodup_append.mpr ⟨h.nodup, by simp, fun a ha b hb => ?_⟩, fun k hk => ?_⟩
  · have := h.lt a ha
    rw [List.mem_singleton.mp hb]
    omega
  · rcases List.mem_append.mp hk with hk | hk
    · exact (h.lt k hk).trans (Nat.lt_succ_self n)
    · rw [List.mem_singleton.mp hk]; exact Nat.lt_succ_self n

theorem fresh (h : History log L n) :
    n ∉ (callbacks log).map Prod.fst ∧ (L.map DmaIoData.serial).head? ≠ some n := by
  refine ⟨fun hc => lt_irrefl n (h.callback_lt hc), fun hc => ?_⟩
  obtain ⟨d, hd, he⟩ := List.mem_map.mp (List.mem_of_mem_head? hc)
  have := h.serial_lt hd
  omega

/-- A submission to an empty list. -/
theorem submit_nil (h : History log [] n) (hd : d.serial = n) (hr : d.retry = 0) :
    History (log ++ [.submit n d.io] ++ [.start n]) [d] (n + 1) := by
  obtain ⟨hnd, hlt⟩ := h.submit_serials d
  obtain ⟨hcount, hpolls⟩ := h.not_started h.fresh.1 h.fresh.2
  have hlisted : listed (log ++ [.submit n d.io]) = [n] := by
    have := h.listed_eq
    unfold listed at this ⊢
    simp only [submits_append, submits_submit, submits_nil, List.map_append, List.map_cons, List.map_nil,
      unlinks_append, unlinks_submit, unlinks_nil, List.append_nil] at this ⊢
    have hlen : (unlinks log).length = ((submits log).map Prod.fst).length := by
      rw [h.unlinked, h.serials]; simp
    rw [List.drop_left' hlen.symm]
  refine
    { fifo := by simp [h.fifo, hd]
      unlinked := by simp [h.unlinked]
      nodup := by simpa using hnd
      lt := by simpa using hlt
      attributed := (h.attributed.snoc (e := .submit n d.io) trivial).snoc (by simp [Attributed, hlisted])
      errors := fun c hc => by simpa using h.errors c (by simpa using hc)
      programmed := fun k => ?_
      started := fun k hk => ?_
      polled := fun k hk => ?_
      head := ?_
      waiting := by simp }
  · have := h.programmed k
    simp only [starts_append, starts_submit, starts_start, starts_nil, List.append_nil, List.count_append]
    by_cases hk : k = n
    · subst hk; rw [hcount]; simp
    · rw [List.count_singleton, if_neg (by simpa using Ne.symm hk)]; exact this
  · simp only [starts_append, starts_submit, starts_start, starts_nil, List.append_nil, List.mem_append, List.mem_singleton] at hk
    rcases hk with hk | rfl
    · exact .inl (by simpa using (h.started k hk).resolve_right (by simp))
    · exact .inr (by simp [hd])
  · exact .inl (by simpa using (h.polled k (by simpa using hk)).resolve_right (by simp))
  · rintro d' rest ⟨⟩
    simp [hd, hr, hcount, hpolls]

/-- A submission behind other requests. -/
theorem submit_cons (h : History log L n) (hL : L ≠ []) (hd : d.serial = n) (hr : d.retry = 0) :
    History (log ++ [.submit n d.io]) (L ++ [d]) (n + 1) := by
  obtain ⟨hnd, hlt⟩ := h.submit_serials d
  obtain ⟨d₀, rest, rfl⟩ := List.exists_cons_of_ne_nil hL
  refine
    { fifo := by simp [h.fifo, hd]
      unlinked := by simp [h.unlinked]
      nodup := hnd
      lt := hlt
      attributed := h.attributed.snoc (e := .submit n d.io) trivial
      errors := fun c hc => by simpa using h.errors c (by simpa using hc)
      programmed := fun k => by simpa using h.programmed k
      started := fun k hk => by simpa using h.started k (by simpa using hk)
      polled := fun k hk => by simpa using h.polled k (by simpa using hk)
      head := ?_
      waiting := fun d' hd' => ?_ }
  · rintro d' rest' ⟨⟩
    simpa using h.head d₀ rest rfl
  · rcases List.mem_append.mp (by simpa using hd' : d' ∈ rest ++ [d]) with hm | hm
    · exact h.waiting d' hm
    · rw [List.mem_singleton.mp hm]; exact hr

/-- The status is read for the first request. -/
theorem attributed_poll (h : History log (d :: rest) n) (status : Nat) :
    Prefixes Attributed (log ++ [.poll d.serial status]) := by
  refine h.attributed.snoc ⟨?_, (h.head d rest rfl).1⟩
  rw [h.listed_eq]; rfl

/-- A poll counts for the first request only. -/
theorem errorPolls_of_callback (h : History log (d :: rest) n) (status : Nat) {k : Nat}
    (hk : k ∈ (callbacks log).map Prod.fst) : errorPolls (log ++ [.poll d.serial status]) k = errorPolls log k := by
  have hne : d.serial ≠ k := fun he => h.notMem_callbacks List.mem_cons_self (he ▸ hk)
  simp [hne]

/-- The controller is busy. -/
theorem busy (h : History log (d :: rest) n) {status : Nat} (hs : status &&& 0x2 = 0) :
    History (log ++ [.poll d.serial status]) (d :: rest) n where
  fifo := by simpa using h.fifo
  unlinked := by simpa using h.unlinked
  nodup := by simpa using h.nodup
  lt := by simpa using h.lt
  attributed := h.attributed_poll status
  errors c hc := by simpa [hs] using h.errors c (by simpa using hc)
  programmed k := by simpa using h.programmed k
  started k hk := by simpa using h.started k (by simpa using hk)
  polled k hk := by simpa using h.polled k (by simpa [hs] using hk)
  head d' rest' he := by simpa [hs] using h.head d' rest' he
  waiting := h.waiting

/-- The first error: the request is started again. -/
theorem retry (h : History log (d :: rest) n) {status : Nat} (hs : status &&& 0x2 ≠ 0) (hr : d.retry = 0) :
    History (log ++ [.poll d.serial status] ++ [.start d.serial]) ({ d with retry := 1 } :: rest) n := by
  obtain ⟨hlast, -, hpolls, hcount⟩ := h.head d rest rfl
  refine
    { fifo := by simpa using h.fifo
      unlinked := by simpa using h.unlinked
      nodup := by simpa using h.nodup
      lt := by simpa using h.lt
      attributed := (h.attributed_poll status).snoc ?_
      errors := fun c hc => ?_
      programmed := fun k => ?_
      started := fun k hk => ?_
      polled := fun k hk => ?_
      head := ?_
      waiting := h.waiting }
  · have := h.listed_eq
    unfold listed at this
    simp [Attributed, listed, this]
  · have hc' : c ∈ callbacks log := by simpa using hc
    rw [errorPolls_append, errorPolls_start, errorPolls_nil, Nat.add_zero,
      h.errorPolls_of_callback status (List.mem_map_of_mem hc')]
    exact h.errors c hc'
  · have := h.programmed k
    simp only [starts_append, starts_poll, starts_start, starts_nil, List.append_nil, List.count_append, List.count_singleton]
    split
    · rename_i he
      rw [← beq_iff_eq.mp he, hcount, hr]
    · exact this
  · simp only [starts_append, starts_poll, starts_start, starts_nil, List.append_nil, List.mem_append, List.mem_singleton] at hk
    rcases hk with hk | rfl
    · simpa using h.started k hk
    · exact .inr rfl
  · by_cases hk' : d.serial = k
    · exact .inr (by simp [hk'])
    · simpa using h.polled k (by simpa [hk'] using hk)
  · rintro d' rest' ⟨⟩
    simp [hpolls, hcount, hr, hs]

/-- The start of the request behind the one that is completed. -/
def startNext (rest : List DmaIoData) : List Event := (rest.head?.map fun d => Event.start d.serial).toList

theorem starts_startNext (rest : List DmaIoData) :
    starts (startNext rest) = (rest.map DmaIoData.serial).head?.toList := by
  cases rest <;> rfl

/-- The first request is unlinked, the next one is started, and the completion function is called. -/
theorem complete (h : History log (d :: rest) n) {status : Nat} {error : Bool}
    (he : (error = true ∧ status &&& 0x2 ≠ 0 ∧ d.retry ≠ 0) ∨ (error = false ∧ status &&& 0x2 = 0)) :
    History (log ++ [.poll d.serial status] ++ [.unlink d.serial] ++ startNext rest ++
      [.callback d.serial d.io error]) rest n := by
  obtain ⟨hlast, hle, hpolls, hcount⟩ := h.head d rest rfl
  have hsub : submits (startNext rest) = [] ∧ unlinks (startNext rest) = [] ∧ callbacks (startNext rest) = [] ∧
      ∀ k, errorPolls (startNext rest) k = 0 := by
    cases rest <;> exact ⟨rfl, rfl, rfl, fun _ => rfl⟩
  -- the next request has neither been started nor polled
  have hnext : ∀ d' ∈ rest, (starts log).count d'.serial = 0 ∧ errorPolls log d'.serial = 0 := fun d' hd' =>
    h.not_started (h.notMem_callbacks (List.mem_cons_of_mem _ hd'))
      (fun hc => h.serial_ne hd' (Option.some.inj hc).symm)
  have hlisted : listed (log ++ [.poll d.serial status] ++ [.unlink d.serial]) = rest.map DmaIoData.serial := by
    have := h.serials
    unfold listed
    simp only [submits_append, submits_poll, submits_unlink, submits_nil, List.append_nil, unlinks_append,
      unlinks_poll, unlinks_unlink, unlinks_nil]
    rw [this, h.unlinked, List.length_append, List.length_map, List.map_cons, List.append_cons]
    exact List.drop_left' (by simp)
  have hattr : Prefixes Attributed (log ++ [.poll d.serial status] ++ [.unlink d.serial] ++ startNext rest) := by
    have hbefore := (h.attributed_poll status).snoc (e := .unlink d.serial) trivial
    cases rest with
    | nil => simpa [startNext] using hbefore
    | cons d' rest' => exact hbefore.snoc (by simp only [Attributed, hlisted]; rfl)
  have hcalls : callbacks (log ++ [.poll d.serial status] ++ [.unlink d.serial] ++ startNext rest ++
      [.callback d.serial d.io error]) = callbacks log ++ [(d.serial, d.io, error)] := by
    simp [hsub]
  have hstarts : starts (log ++ [.poll d.serial status] ++ [.unlink d.serial] ++ startNext rest ++
      [.callback d.serial d.io error]) = starts log ++ (rest.map DmaIoData.serial).head?.toList := by
    simp [starts_startNext]
  have herr : ∀ k, errorPolls (log ++ [.poll d.serial status] ++ [.unlink d.serial] ++ startNext rest ++
      [.callback d.serial d.io error]) k =
        errorPolls log k + if d.serial = k ∧ status &&& 0x2 ≠ 0 then 1 else 0 := by
    intro k; simp [hsub]
  refine
    { fifo := ?_
      unlinked := ?_
      nodup := by simpa [hsub] using h.nodup
      lt := by simpa [hsub] using h.lt
      attributed := hattr.snoc trivial
      errors := ?_
      programmed := fun k => ?_
      started := fun k hk => ?_
      polled := fun k hk => ?_
      head := ?_
      waiting := fun d' hd' => h.waiting d' (List.mem_of_mem_tail hd') }
  · rw [hcalls]; simp [hsub, h.fifo]
  · rw [hcalls]; simp [hsub, h.unlinked]
  · rw [hcalls]
    intro c hc
    rw [herr]
    rcases List.mem_append.mp hc with hc | hc
    · have hne : d.serial ≠ c.1 := fun he => h.notMem_callbacks List.mem_cons_self (he ▸ List.mem_map_of_mem hc)
      rw [if_neg (fun hh => hne hh.1)]
      exact h.errors c hc
    · rw [List.mem_singleton.mp hc]
      dsimp only
      rw [hpolls]
      rcases he with ⟨rfl, hs, hr⟩ | ⟨rfl, hs⟩
      · rw [if_pos ⟨rfl, hs⟩]; simp; omega
      · rw [if_neg (fun hh => hh.2 hs)]; simp; omega
  · have hp := h.programmed k
    rw [hstarts, List.count_append]
    cases rest with
    | nil => simpa using hp
    | cons d' rest' =>
      simp only [List.map_cons, List.head?_cons, Option.toList_some, List.count_singleton]
      split
      · rename_i heq
        rw [← beq_iff_eq.mp heq, (hnext d' List.mem_cons_self).1]
        omega
      · exact hp
  · rw [hcalls, List.map_append]
    rw [hstarts] at hk
    rcases List.mem_append.mp hk with hk | hk
    · rcases h.started k hk with hc | hc
      · exact .inl (List.mem_append_left _ hc)
      · exact .inl (List.mem_append_right _ (by simpa using (Option.some.inj hc).symm))
    · exact .inr (by simpa using hk)
  · rw [hcalls, List.map_append]
    rw [herr] at hk
    by_cases hdk : d.serial = k
    · exact .inl (List.mem_append_right _ (by simp [hdk]))
    · rw [if_neg (fun hh => hdk hh.1)] at hk
      rcases h.polled k hk with hc | hc
      · exact .inl (List.mem_append_left _ hc)
      · exact absurd (Option.some.inj hc) hdk
  · rintro d' rest' rfl
    have hne : d'.serial ≠ d.serial := h.serial_ne List.mem_cons_self
    have hr : d'.retry = 0 := h.waiting d' List.mem_cons_self
    obtain ⟨h₁, h₂⟩ := hnext d' List.mem_cons_self
    rw [hstarts, herr, if_neg (fun hh => hne hh.1.symm), List.count_append, h₁, h₂, hr]
    simp

end History
end Airix.Ide
