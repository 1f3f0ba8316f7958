import Airix.Bio.Model
import Mathlib.Data.List.Perm.Basic

/-!
# The block cache as a lock manager

What the block cache is for, without pointers: a list of cached keys, the bios that are locked, and one
queue of sleeping processes for each bio and one for the whole cache. A process sleeps exactly while it
is in a queue. `AStep` are the steps; `AInv` is what they keep.
-/

namespace Airix.Bio

structure Abs where
  list : List Nat
  key : Nat → UInt8 × UInt64
  reffed : Nat → Bool
  queue : Node → List Nat
  pc : Nat → Pc
  held : Nat → List Nat
  io : List Nat

namespace Abs

def init : Abs := ⟨[], fun _ => (0, 0), fun _ => false, fun _ => [], fun _ => .user, fun _ => [], []⟩

def Awake (a : Abs) (p : Nat) : Prop := ∀ n, p ∉ a.queue n

/-- `p` waits for a lock, at the end of the queue of `n`. -/
def append (a : Abs) (n : Node) (p : Nat) (pc : Pc) : Abs :=
  { a with queue := Function.update a.queue n (a.queue n ++ [p]), pc := Function.update a.pc p pc }

/-- `p` waits for its read, in front of those that wait for the lock. -/
def push (a : Abs) (b p : Nat) : Abs :=
  { a with
    queue := Function.update a.queue (.bio b) (p :: a.queue (.bio b))
    pc := Function.update a.pc p (.readBio b)
    io := a.io ++ [b] }

def pop (a : Abs) (n : Node) : Abs := { a with queue := Function.update a.queue n (a.queue n).tail }

def rekey (a : Abs) (b : Nat) (k : UInt8 × UInt64) : Abs :=
  { a with key := Function.update a.key b k, reffed := Function.update a.reffed b false }

def take (a : Abs) (p b : Nat) : Abs :=
  { a with
    list := b :: a.list.erase b
    reffed := Function.update a.reffed b true
    pc := Function.update a.pc p .user
    held := Function.update a.held p (b :: a.held p) }

def drop (a : Abs) (p b : Nat) : Abs :=
  { a with
    reffed := Function.update a.reffed b false
    held := Function.update a.held p ((a.held p).erase b) }

/-- The queue that a release of `b` serves. -/
def served (a : Abs) (b : Nat) : Node := if a.queue (.bio b) = [] then .head else .bio b

def release (a : Abs) (p b : Nat) : Abs := (a.drop p b).pop (a.served b)

def complete (a : Abs) (b : Nat) : Abs := { a with io := a.io.erase b }.pop (.bio b)

def done (a : Abs) (p : Nat) : Abs := { a with pc := Function.update a.pc p .user }

end Abs

/-- The slab gives no bio. -/
def NoSlab (count : Nat) (mem : Option Nat) : Prop := maxCacheCount ≤ count ∨ mem = none

/-- A round of `alloc_bio` for the request of `p`. -/
inductive AAlloc (a : Abs) (p : Nat) (dev : UInt8) (sector : UInt64) (mem : Option Nat) :
    Abs × Option Nat → Prop
  | fresh : ¬ NoSlab a.list.length mem →
    AAlloc a p dev sector mem
      ((a.rekey a.list.length (dev, baseSector sector)).take p a.list.length, some a.list.length)
  | recycle {b : Nat} : NoSlab a.list.length mem → a.list.reverse.find? (fun b => !a.reffed b) = some b →
    AAlloc a p dev sector mem ((a.rekey b (dev, baseSector sector)).take p b, some b)
  | sleep : NoSlab a.list.length mem → (∀ b ∈ a.list, a.reffed b) →
    AAlloc a p dev sector mem (a.append .head p (.allocBio dev sector), none)

/-- A round of the loop of `bio_get` on the bio `b`. -/
inductive AGet (a : Abs) (p : Nat) (dev : UInt8) (sector : UInt64) (b : Nat) : Abs × Option Nat → Prop
  | take : a.reffed b = false → AGet a p dev sector b (a.take p b, some b)
  | sleep : a.reffed b = true → AGet a p dev sector b (a.append (.bio b) p (.getBio dev sector b), none)

inductive AStep (n : Nat) (a : Abs) : Event → Abs × Option Nat → Prop
  | hit {p b : Nat} {dev : UInt8} {sector : UInt64} {mem : Option Nat} {out : Abs × Option Nat} :
    p < n → a.Awake p → a.pc p = .user → b ∈ a.list → a.key b = (dev, baseSector sector) →
      AGet a p dev sector b out → AStep n a (.get p dev sector mem) out
  | miss {p : Nat} {dev : UInt8} {sector : UInt64} {mem : Option Nat} {out : Abs × Option Nat} :
    p < n → a.Awake p → a.pc p = .user → (∀ b ∈ a.list, a.key b ≠ (dev, baseSector sector)) →
      AAlloc a p dev sector mem out → AStep n a (.get p dev sector mem) out
  | retryAlloc {p : Nat} {dev : UInt8} {sector : UInt64} {mem : Option Nat} {out : Abs × Option Nat} :
    p < n → a.Awake p → a.pc p = .allocBio dev sector → AAlloc a p dev sector mem out →
      AStep n a (.resume p mem) out
  | retryGet {p b : Nat} {dev : UInt8} {sector : UInt64} {mem : Option Nat} {out : Abs × Option Nat} :
    p < n → a.Awake p → a.pc p = .getBio dev sector b → AGet a p dev sector b out →
      AStep n a (.resume p mem) out
  | readDone {p b : Nat} {mem : Option Nat} : p < n → a.Awake p → a.pc p = .readBio b →
    AStep n a (.resume p mem) (a.done p, none)
  | readHit {p b : Nat} : AStep n a (.read p b) (a, none)
  | readMiss {p b : Nat} : p < n → a.Awake p → a.pc p = .user → b ∈ a.held p →
    AStep n a (.read p b) (a.push b p, none)
  | release {p b : Nat} : p < n → a.Awake p → a.pc p = .user → b ∈ a.held p →
    AStep n a (.release p b) (a.release p b, none)
  | complete {b : Nat} {error : Bool} : b ∈ a.io → AStep n a (.complete b error) (a.complete b, none)

/-- The loop position that goes with the queue of a node. -/
def Pc.WaitsAt (pc : Pc) : Node → Prop
  | .head => ∃ dev sector, pc = .allocBio dev sector
  | .bio b => ∃ dev sector, pc = .getBio dev sector b

/-- Every process is in at most one queue, at most once. -/
structure Queues (n : Nat) (queue : Node → List Nat) : Prop where
  nodup : ∀ m, (queue m).Nodup
  unique : ∀ m m' p, p ∈ queue m → p ∈ queue m' → m = m'
  lt : ∀ m, ∀ p ∈ queue m, p < n

namespace Queues
variable {n p : Nat} {queue : Node → List Nat} {m : Node} {l : List Nat}

theorem mem_add (hl : l.Perm (p :: queue m)) {m' : Node} {q : Nat} :
    q ∈ Function.update queue m l m' ↔ q ∈ queue m' ∨ (m' = m ∧ q = p) := by
  by_cases e : m' = m
  · subst e; simp [hl.mem_iff, or_comm]
  · simp [e]

theorem add (h : Queues n queue) (hp : ∀ m, p ∉ queue m) (hn : p < n) (hl : l.Perm (p :: queue m)) :
    Queues n (Function.update queue m l) := by
  refine ⟨fun m' => ?_, fun m₁ m₂ q h₁ h₂ => ?_, fun m' q hq => ?_⟩
  · by_cases e : m' = m
    · subst e
      rw [Function.update_self, hl.nodup_iff, List.nodup_cons]
      exact ⟨hp _, h.nodup _⟩
    · rw [Function.update_of_ne e]; exact h.nodup _
  · rw [mem_add hl] at h₁ h₂
    rcases h₁ with h₁ | ⟨e₁, rfl⟩ <;> rcases h₂ with h₂ | ⟨e₂, e⟩
    · exact h.unique _ _ _ h₁ h₂
    · exact absurd (e ▸ h₁) (hp _)
    · exact absurd h₂ (hp _)
    · exact e₁.trans e₂.symm
  · rcases (mem_add hl).mp hq with hq | ⟨-, rfl⟩
    · exact h.lt _ _ hq
    · exact hn

theorem mem_of_tail {m' : Node} {q : Nat} (hq : q ∈ Function.update queue m (queue m).tail m') :
    q ∈ queue m' := by
  by_cases e : m' = m
  · subst e; exact List.mem_of_mem_tail (by simpa using hq)
  · simpa [e] using hq

theorem tail (h : Queues n queue) : Queues n (Function.update queue m (queue m).tail) := by
  refine ⟨fun m' => ?_, fun m₁ m₂ q h₁ h₂ => h.unique _ _ _ (mem_of_tail h₁) (mem_of_tail h₂),
    fun m' q hq => h.lt _ _ (mem_of_tail hq)⟩
  by_cases e : m' = m
  · subst e; rw [Function.update_self]; exact (h.nodup _).tail
  · rw [Function.update_of_ne e]; exact h.nodup _

end Queues

structure AInv (n : Nat) (a : Abs) : Prop where
  list_nodup : a.list.Nodup
  list_le : a.list.length ≤ maxCacheCount
  /-- The bios of the cache are numbered in the order of their allocation. -/
  list_mem : ∀ b, b ∈ a.list ↔ b < a.list.length
  queues : Queues n a.queue
  /-- A sleeping process waits for the lock, or it is the reader of a bio in flight. -/
  queue_pc : ∀ m, ∀ p ∈ a.queue m, (a.pc p).WaitsAt m ∨ ∃ b, m = .bio b ∧ a.pc p = .readBio b ∧ b ∈ a.io
  /-- The reader of a bio in flight is the first in its queue, and the only one that reads. -/
  reader : ∀ b ∈ a.io, ∃ p l, a.queue (.bio b) = p :: l ∧ a.pc p = .readBio b
  io_nodup : a.io.Nodup
  read_held : ∀ p b, a.pc p = .readBio b → b ∈ a.held p
  get_mem : ∀ p dev sector b, a.pc p = .getBio dev sector b → b ∈ a.list
  held_reffed : ∀ p, ∀ b ∈ a.held p, b ∈ a.list ∧ a.reffed b = true
  held_unique : ∀ p q b, b ∈ a.held p → b ∈ a.held q → p = q
  held_nodup : ∀ p, (a.held p).Nodup
  reffed_held : ∀ b ∈ a.list, a.reffed b = true → ∃ p, b ∈ a.held p
  outside : ∀ p, n ≤ p → a.pc p = .user ∧ a.held p = []

namespace AInv
variable {n : Nat} {a : Abs} {p b : Nat}

theorem init (n : Nat) : AInv n .init := by
  constructor <;> simp [Abs.init]
  exact ⟨by simp, by simp, by simp⟩

/-- A process that is awake and holds a bio keeps it out of the disk queue. -/
theorem notMem_io (h : AInv n a) (hp : a.Awake p) (hb : b ∈ a.held p) : b ∉ a.io := by
  intro hio
  obtain ⟨q, l, hq, hpc⟩ := h.reader b hio
  obtain rfl := h.held_unique q p b (h.read_held q b hpc) hb
  exact hp (.bio b) (hq ▸ List.mem_cons_self)

theorem append (h : AInv n a) {m : Node} {pc : Pc} (hp : a.Awake p) (hn : p < n) (hpc : pc.WaitsAt m)
    (hm : ∀ b, m = .bio b → b ∈ a.list) : AInv n (a.append m p pc) := by
  have hne : ∀ m', ∀ q ∈ a.queue m', q ≠ p := by rintro m' q hq rfl; exact hp m' hq
  have hl : (a.queue m ++ [p]).Perm (p :: a.queue m) := List.perm_append_singleton p _
  refine { h with
    queues := h.queues.add hp hn hl
    queue_pc := ?_, reader := ?_, read_held := ?_, get_mem := ?_
    outside := fun q hq => by simpa [Abs.append, show q ≠ p by omega] using h.outside q hq }
  · intro m' q hq
    rcases (Queues.mem_add hl).mp hq with hq | ⟨rfl, rfl⟩
    · simpa [Abs.append, hne _ _ hq] using h.queue_pc _ _ hq
    · exact .inl (by simpa [Abs.append] using hpc)
  · intro b hb
    obtain ⟨q, l, hq, hqpc⟩ := h.reader b hb
    have hqp : q ≠ p := hne (.bio b) q (hq ▸ List.mem_cons_self)
    by_cases e : Node.bio b = m
    · subst e
      exact ⟨q, l ++ [p], by simp [Abs.append, hq], by simpa [Abs.append, hqp] using hqpc⟩
    · exact ⟨q, l, by simp [Abs.append, Function.update_of_ne e, hq], by simpa [Abs.append, hqp] using hqpc⟩
  · intro q b hq
    by_cases e : q = p
    · subst e
      cases m <;> obtain ⟨_, _, rfl⟩ := hpc <;> simp [Abs.append] at hq
    · exact h.read_held q b (by simpa [Abs.append, e] using hq)
  · intro q dev sector b hq
    by_cases e : q = p
    · subst e
      cases m with
      | head => obtain ⟨_, _, rfl⟩ := hpc; simp [Abs.append] at hq
      | bio c =>
        obtain ⟨_, _, rfl⟩ := hpc
        simp only [Abs.append, Function.update_self, Pc.getBio.injEq] at hq
        exact hq.2.2 ▸ hm c rfl
    · exact h.get_mem q dev sector b (by simpa [Abs.append, e] using hq)

theorem push (h : AInv n a) (hp : a.Awake p) (hn : p < n) (hb : b ∈ a.held p) : AInv n (a.push b p) := by
  have hio := h.notMem_io hp hb
  have hne : ∀ m', ∀ q ∈ a.queue m', q ≠ p := by rintro m' q hq rfl; exact hp m' hq
  refine { h with
    queues := h.queues.add hp hn (List.Perm.refl _)
    queue_pc := ?_, reader := ?_, io_nodup := ?_, read_held := ?_, get_mem := ?_
    outside := fun q hq => by simpa [Abs.push, show q ≠ p by omega] using h.outside q hq }
  · intro m' q hq
    rcases (Queues.mem_add (List.Perm.refl _)).mp hq with hq | ⟨rfl, rfl⟩
    · rcases h.queue_pc _ _ hq with hw | ⟨c, rfl, hpc, hc⟩
      · exact .inl (by simpa [Abs.push, hne _ _ hq] using hw)
      · exact .inr ⟨c, rfl, by simpa [Abs.push, hne _ _ hq] using hpc, List.mem_append_left _ hc⟩
    · exact .inr ⟨b, rfl, by simp [Abs.push], by simp [Abs.push]⟩
  · intro c hc
    by_cases e : c = b
    · subst e
      exact ⟨p, a.queue (.bio c), by simp [Abs.push], by simp [Abs.push]⟩
    · have hc' : c ∈ a.io := by simpa [Abs.push, e] using hc
      obtain ⟨q, l, hq, hqpc⟩ := h.reader c hc'
      have hqp : q ≠ p := hne (.bio c) q (hq ▸ List.mem_cons_self)
      exact ⟨q, l, by simp [Abs.push, e, hq], by simpa [Abs.push, hqp] using hqpc⟩
  · simp only [Abs.push, List.nodup_append, List.nodup_singleton, true_and]
    refine ⟨h.io_nodup, ?_⟩
    rintro c hc d hd rfl
    exact hio (by simpa using List.mem_singleton.mp hd ▸ hc)
  · intro q c hq
    by_cases e : q = p
    · subst e
      simp only [Abs.push, Function.update_self, Pc.readBio.injEq] at hq
      exact hq ▸ hb
    · exact h.read_held q c (by simpa [Abs.push, e] using hq)
  · intro q dev sector c hq
    by_cases e : q = p
    · subst e; simp [Abs.push] at hq
    · exact h.get_mem q dev sector c (by simpa [Abs.push, e] using hq)

/-- The completion of a read wakes its reader. -/
theorem complete (h : AInv n a) (hb : b ∈ a.io) : AInv n (a.complete b) := by
  obtain ⟨p, l, hq, hpc⟩ := h.reader b hb
  refine { h with
    queues := h.queues.tail
    queue_pc := ?_, reader := ?_, io_nodup := h.io_nodup.erase b }
  · intro m q hqm
    rcases h.queue_pc m q (Queues.mem_of_tail hqm) with hw | ⟨c, rfl, hc, hio⟩
    · exact .inl hw
    · refine .inr ⟨c, rfl, hc, (List.mem_erase_of_ne ?_).mpr hio⟩
      -- the reader itself has left the queue
      rintro rfl
      have hqp : q = p := h.held_unique q p c (h.read_held q c hc) (h.read_held p c hpc)
      have hnd := h.queues.nodup (.bio c)
      rw [hq] at hnd
      have hql : q ∈ l := by simpa [Abs.complete, Abs.pop, hq] using hqm
      exact (List.nodup_cons.mp hnd).1 (hqp ▸ hql)
  · intro c hc
    obtain ⟨hcb, hc⟩ := (List.Nodup.mem_erase_iff h.io_nodup).mp hc
    obtain ⟨q, l', hq', hpc'⟩ := h.reader c hc
    exact ⟨q, l', by simp [Abs.complete, Abs.pop, hcb, hq'], hpc'⟩

theorem drop (h : AInv n a) (hp : a.Awake p) (hb : b ∈ a.held p) (hpc : a.pc p = .user) :
    AInv n (a.drop p b) := by
  have hmem : ∀ q c, c ∈ (a.drop p b).held q → c ∈ a.held q ∧ c ≠ b := by
    intro q c hc
    by_cases e : q = p
    · subst e
      have hc' : c ∈ (a.held q).erase b := by simpa [Abs.drop] using hc
      have := (List.Nodup.mem_erase_iff (h.held_nodup q)).mp hc'
      exact ⟨this.2, this.1⟩
    · have hc' : c ∈ a.held q := by simpa [Abs.drop, e] using hc
      refine ⟨hc', ?_⟩
      rintro rfl
      exact e (h.held_unique q p c hc' hb)
  refine { h with
    read_held := ?_, held_reffed := ?_, held_unique := ?_, held_nodup := ?_, reffed_held := ?_, outside := ?_ }
  · intro q c hq
    have e : q ≠ p := by rintro rfl; rw [Abs.drop] at hq; rw [hpc] at hq; cases hq
    simpa [Abs.drop, e] using h.read_held q c hq
  · intro q c hc
    obtain ⟨hc, hcb⟩ := hmem q c hc
    simpa [Abs.drop, hcb] using h.held_reffed q c hc
  · exact fun q r c hq hr => h.held_unique q r c (hmem q c hq).1 (hmem r c hr).1
  · intro q
    by_cases e : q = p
    · subst e; simpa [Abs.drop] using (h.held_nodup q).erase b
    · simpa [Abs.drop, e] using h.held_nodup q
  · intro c hc hr
    have hcb : c ≠ b := by rintro rfl; simp [Abs.drop] at hr
    obtain ⟨q, hq⟩ := h.reffed_held c hc (by simpa [Abs.drop, hcb] using hr)
    refine ⟨q, ?_⟩
    by_cases e : q = p
    · subst e; simpa [Abs.drop, hcb] using hq
    · simpa [Abs.drop, e] using hq
  · intro q hq
    refine ⟨(h.outside q hq).1, List.eq_nil_iff_forall_not_mem.mpr fun c hc => ?_⟩
    have := (hmem q c hc).1
    rw [(h.outside q hq).2] at this
    cases this

/-- Serving a queue whose bio is not in flight. -/
theorem pop (h : AInv n a) {m : Node} (hm : ∀ b, m = .bio b → b ∉ a.io) : AInv n (a.pop m) := by
  refine { h with
    queues := h.queues.tail
    queue_pc := fun m' q hq => h.queue_pc m' q (Queues.mem_of_tail hq)
    reader := ?_ }
  intro c hc
  obtain ⟨q, l, hq, hpc⟩ := h.reader c hc
  have hcm : Node.bio c ≠ m := fun e => hm c e.symm hc
  exact ⟨q, l, by simp [Abs.pop, hcm, hq], hpc⟩

theorem release (h : AInv n a) (hp : a.Awake p) (hb : b ∈ a.held p) (hpc : a.pc p = .user) :
    AInv n (a.release p b) := by
  refine (h.drop hp hb hpc).pop fun c hc => ?_
  have hcb : c = b := by
    unfold Abs.served at hc
    split at hc
    · cases hc
    · exact (Node.bio.inj hc).symm
  rw [hcb]; exact h.notMem_io hp hb

/-- A new key for a bio that is not locked. -/
theorem rekey (h : AInv n a) {k : UInt8 × UInt64} (hb : b ∈ a.list → a.reffed b = false) :
    AInv n (a.rekey b k) := by
  have hr : ∀ c ∈ a.list, (a.rekey b k).reffed c = a.reffed c := by
    intro c hc
    by_cases e : c = b
    · subst e; simp [Abs.rekey, hb hc]
    · simp [Abs.rekey, e]
  refine { h with held_reffed := ?_, reffed_held := ?_ }
  · intro p c hc
    have := h.held_reffed p c hc
    exact ⟨this.1, by rw [hr c this.1]; exact this.2⟩
  · intro c hc hc'
    exact h.reffed_held c hc (by rw [← hr c hc]; exact hc')

theorem take (h : AInv n a) (hp : a.Awake p) (hn : p < n) (hb : b ∈ a.list → a.reffed b = false)
    (hle : b ∈ a.list ∨ b = a.list.length ∧ a.list.length < maxCacheCount) : AInv n (a.take p b) := by
  have hfree : ∀ q, b ∉ a.held q := by
    intro q hq
    have := h.held_reffed q b hq
    rw [hb this.1] at this
    exact absurd this.2 (by simp)
  have hne : ∀ m', ∀ q ∈ a.queue m', q ≠ p := by rintro m' q hq rfl; exact hp m' hq
  have hmem : ∀ c, c ∈ (a.take p b).list ↔ c = b ∨ c ∈ a.list := by
    intro c
    by_cases e : c = b
    · simp [Abs.take, e]
    · simp [Abs.take, e]
  have hheld : ∀ q c, c ∈ (a.take p b).held q ↔ c ∈ a.held q ∨ (q = p ∧ c = b) := by
    intro q c
    by_cases e : q = p
    · subst e; simp [Abs.take, or_comm]
    · simp [Abs.take, e]
  refine { list_nodup := ?_, list_le := ?_, list_mem := ?_, queues := h.queues, queue_pc := ?_, reader := ?_
           io_nodup := h.io_nodup, read_held := ?_, get_mem := ?_, held_reffed := ?_, held_unique := ?_
           held_nodup := ?_, reffed_held := ?_
           outside := fun q hq => by simpa [Abs.take, show q ≠ p by omega] using h.outside q hq }
  · exact List.nodup_cons.mpr ⟨h.list_nodup.not_mem_erase, h.list_nodup.erase b⟩
  · have hlen := h.list_le
    rcases hle with hm | ⟨-, hlt⟩
    · have := List.length_pos_of_mem hm
      simp only [Abs.take, List.length_cons, List.length_erase_of_mem hm]
      omega
    · have := List.length_erase_le (a := b) (l := a.list)
      simp only [Abs.take, List.length_cons]
      omega
  · intro c
    rw [hmem, h.list_mem]
    rcases hle with hm | ⟨rfl, -⟩
    · have := (h.list_mem b).mp hm
      simp only [Abs.take, List.length_cons, List.length_erase_of_mem hm]
      omega
    · have hm : a.list.length ∉ a.list := fun hm => lt_irrefl _ ((h.list_mem _).mp hm)
      simp only [Abs.take, List.length_cons, List.erase_of_not_mem hm]
      omega
  · intro m q hq
    simpa [Abs.take, hne m q hq] using h.queue_pc m q hq
  · intro c hc
    obtain ⟨q, l, hq, hpc⟩ := h.reader c hc
    exact ⟨q, l, hq, by simpa [Abs.take, hne (.bio c) q (hq ▸ List.mem_cons_self)] using hpc⟩
  · intro q c hq
    by_cases e : q = p
    · subst e; simp [Abs.take] at hq
    · exact (hheld q c).mpr (.inl (h.read_held q c (by simpa [Abs.take, e] using hq)))
  · intro q dev sector c hq
    by_cases e : q = p
    · subst e; simp [Abs.take] at hq
    · exact (hmem c).mpr (.inr (h.get_mem q dev sector c (by simpa [Abs.take, e] using hq)))
  · intro q c hc
    rcases (hheld q c).mp hc with hc' | ⟨-, rfl⟩
    · have hcb : c ≠ b := by rintro rfl; exact hfree q hc'
      have := h.held_reffed q c hc'
      exact ⟨(hmem c).mpr (.inr this.1), by simpa [Abs.take, hcb] using this.2⟩
    · exact ⟨(hmem c).mpr (.inl rfl), by simp [Abs.take]⟩
  · intro q r c hq hr
    rcases (hheld q c).mp hq with hq | ⟨e₁, e⟩ <;> rcases (hheld r c).mp hr with hr | ⟨e₂, e'⟩
    · exact h.held_unique q r c hq hr
    · exact absurd (e' ▸ hq) (hfree q)
    · exact absurd (e ▸ hr) (hfree r)
    · exact e₁.trans e₂.symm
  · intro q
    by_cases e : q = p
    · subst e
      simpa [Abs.take] using ⟨hfree q, h.held_nodup q⟩
    · simpa [Abs.take, e] using h.held_nodup q
  · intro c hc hr
    by_cases e : c = b
    · exact ⟨p, (hheld p c).mpr (.inr ⟨rfl, e⟩)⟩
    · obtain ⟨q, hq⟩ := h.reffed_held c (((hmem c).mp hc).resolve_left e) (by simpa [Abs.take, e] using hr)
      exact ⟨q, (hheld q c).mpr (.inl hq)⟩

theorem done (h : AInv n a) (hp : a.Awake p) (hn : p < n) : AInv n (a.done p) := by
  have hne : ∀ m', ∀ q ∈ a.queue m', q ≠ p := by rintro m' q hq rfl; exact hp m' hq
  have hpc : ∀ q pc, pc ≠ .user → (a.done p).pc q = pc → a.pc q = pc := by
    intro q pc hpc hq
    by_cases e : q = p
    · subst e; simp [Abs.done] at hq; exact absurd hq.symm hpc
    · simpa [Abs.done, e] using hq
  refine { h with
    queue_pc := ?_, reader := ?_, read_held := ?_, get_mem := ?_
    outside := fun q hq => by simpa [Abs.done, show q ≠ p by omega] using h.outside q hq }
  · intro m q hq
    simpa [Abs.done, hne m q hq] using h.queue_pc m q hq
  · intro c hc
    obtain ⟨q, l, hq, hpc⟩ := h.reader c hc
    exact ⟨q, l, hq, by simpa [Abs.done, hne (.bio c) q (hq ▸ List.mem_cons_self)] using hpc⟩
  · exact fun q c hq => h.read_held q c (hpc q _ (by simp) hq)
  · exact fun q dev sector c hq => h.get_mem q dev sector c (hpc q _ (by simp) hq)

/-! ### Steps -/

theorem get (h : AInv n a) {dev : UInt8} {sector : UInt64} {out : Abs × Option Nat} (hp : a.Awake p)
    (hn : p < n) (hb : b ∈ a.list) (hg : AGet a p dev sector b out) : AInv n out.1 := by
  cases hg with
  | take hr => exact h.take hp hn (fun _ => hr) (.inl hb)
  | sleep hr => exact h.append hp hn ⟨dev, sector, rfl⟩ (fun c hc => Node.bio.inj hc ▸ hb)

theorem alloc (h : AInv n a) {dev : UInt8} {sector : UInt64} {mem : Option Nat} {out : Abs × Option Nat}
    (hp : a.Awake p) (hn : p < n) (hg : AAlloc a p dev sector mem out) : AInv n out.1 := by
  cases hg with
  | fresh hslab =>
    have hm : a.list.length ∉ a.list := fun hm => lt_irrefl _ ((h.list_mem _).mp hm)
    refine (h.rekey fun hc => absurd hc hm).take hp hn (fun hc => absurd hc hm) (.inr ⟨rfl, ?_⟩)
    exact not_le.mp fun hle => hslab (.inl hle)
  | @recycle b hslab hb =>
    have hm : b ∈ a.list := List.mem_reverse.mp (List.mem_of_find?_eq_some hb)
    have hr : a.reffed b = false := by simpa using List.find?_some hb
    exact (h.rekey fun _ => hr).take hp hn (fun _ => by simp [Abs.rekey]) (.inl hm)
  | sleep => exact h.append hp hn ⟨dev, sector, rfl⟩ (fun c hc => Node.noConfusion hc)

theorem step (h : AInv n a) {e : Event} {out : Abs × Option Nat} (hs : AStep n a e out) : AInv n out.1 := by
  cases hs with
  | hit hn hp _ hb _ hg => exact h.get hp hn hb hg
  | miss hn hp _ _ hg => exact h.alloc hp hn hg
  | retryAlloc hn hp _ hg => exact h.alloc hp hn hg
  | retryGet hn hp hpc hg => exact h.get hp hn (h.get_mem _ _ _ _ hpc) hg
  | readDone hn hp _ => exact h.done hp hn
  | readHit => exact h
  | readMiss hn hp _ hb => exact h.push hp hn hb
  | release hn hp hpc hb => exact h.release hp hb hpc
  | complete hb => exact h.complete hb

end AInv

/-! ### The cache list -/

theorem Abs.mem_take_list {a : Abs} {p b c : Nat} : c ∈ (a.take p b).list ↔ c = b ∨ c ∈ a.list := by
  by_cases e : c = b
  · simp [Abs.take, e]
  · simp [Abs.take, e]

/-- The cache holds what it held and what `bio_get` returns. -/
theorem AStep.mem_list {n : Nat} {a : Abs} {e : Event} {out : Abs × Option Nat} (hs : AStep n a e out) {c : Nat} :
    c ∈ out.1.list ↔ c ∈ out.2.toList ∨ c ∈ a.list := by
  have hget : ∀ {p dev sector b} {out : Abs × Option Nat}, AGet a p dev sector b out →
      (c ∈ out.1.list ↔ c ∈ out.2.toList ∨ c ∈ a.list) := by
    intro p dev sector b out hg
    cases hg with
    | take => simpa using Abs.mem_take_list
    | sleep => simp [Abs.append]
  have halloc : ∀ {p dev sector mem} {out : Abs × Option Nat}, AAlloc a p dev sector mem out →
      (c ∈ out.1.list ↔ c ∈ out.2.toList ∨ c ∈ a.list) := by
    intro p dev sector mem out hg
    cases hg with
    | fresh => rw [Abs.mem_take_list]; simp [Abs.rekey]
    | recycle => rw [Abs.mem_take_list]; simp [Abs.rekey]
    | sleep => simp [Abs.append]
  cases hs with
  | hit _ _ _ _ _ hg => exact hget hg
  | miss _ _ _ _ hg => exact halloc hg
  | retryAlloc _ _ _ hg => exact halloc hg
  | retryGet _ _ _ hg => exact hget hg
  | readDone => simp [Abs.done]
  | readHit => simp
  | readMiss => simp [Abs.push]
  | release => simp [Abs.release, Abs.pop, Abs.drop]
  | complete => simp [Abs.complete, Abs.pop]

end Airix.Bio
